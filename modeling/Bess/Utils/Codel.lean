import Mathlib.Data.List.Basic

/-!
# Codel queues

`Codel` of `utils/codel.h`: a queue of time-stamped objects that drops some of them at its head while
the delay stays above a target. Objects leave the queue in `RingDequeue` only; `Pop` then holds one
object at a time, which it drops before it takes the next one, or returns.

`NanoSecondTime` reads a clock; `clock n` is its `n`-th reading. The time of the next drop is
computed with `pow` and is a parameter.
-/

namespace Bess.CodelQueue

/-- The clock, the computation of `NextDrop`, and the largest size of a `std::deque`. -/
structure Env where
  clock : Nat → UInt64
  /-- `cur_time + window_ * pow(drop_count_, -.5)` -/
  nextDrop : UInt64 → UInt32 → UInt64 → UInt64
  dequeMax : Nat

/-- `std::pair<uint64_t, T>` -/
abbrev Wrapper (T : Type) := UInt64 × T

/-- The object, with what it does to its surroundings: the number of clock readings and the arguments
of `Drop`. -/
structure Codel (T : Type) where
  delayTarget : UInt64
  window : UInt64
  timeAboveTarget : UInt64
  nextDropTime : UInt64
  dropCount : UInt32
  dropping : Bool
  maxSize : Nat
  queue : List (Wrapper T)
  hasDropFunc : Bool
  readings : Nat
  dropped : List T

variable {T : Type} (E : Env)

/-- The calls of the drop function: there are none if it is null. -/
def Codel.handed (s : Codel T) : List T := if s.hasDropFunc then s.dropped else []

/-- The constructor. -/
def init (hasDropFunc : Bool) (maxEntries : Nat) (target window : UInt64) : Codel T where
  delayTarget := target
  window := window
  timeAboveTarget := 0
  nextDropTime := E.clock 0 + window
  dropCount := 0
  dropping := false
  maxSize := maxEntries
  queue := []
  hasDropFunc := hasDropFunc
  readings := 1
  dropped := []

namespace Codel

/-- The next reading of the clock. -/
def nanoSecondTime (s : Codel T) : UInt64 := E.clock s.readings

/-- The clock was read. -/
def tick (s : Codel T) : Codel T := { s with readings := s.readings + 1 }

def drop (s : Codel T) (w : Wrapper T) : Codel T := { s with dropped := s.dropped ++ [w.2] }

def countDrop (s : Codel T) : Codel T := { s with dropCount := s.dropCount + 1 }

def stopDropping (s : Codel T) : Codel T := { s with dropping := false }

/-- `next_drop_time_ = NextDrop(cur_time)` -/
def setNextDrop (s : Codel T) (curTime : UInt64) : Codel T :=
  { s with nextDropTime := E.nextDrop s.window s.dropCount curTime }

/-- What `RingDequeue` makes of the delay of an entry: whether the `drop` flag is set, and the new
`time_above_target_`. -/
def judge (s : Codel T) (now : UInt64) (w : Wrapper T) : Bool × UInt64 :=
  let delayTime := now - w.1
  if delayTime < s.delayTarget then (false, 0)
  else if s.timeAboveTarget = 0 then (false, now + s.window)
  else (decide (s.timeAboveTarget ≤ now), s.timeAboveTarget)

/-- `none` if the queue is empty; otherwise the entry and whether the `drop` flag is set. -/
def ringDequeue (s : Codel T) : Option (Wrapper T × Bool × Codel T) :=
  match s.queue with
  | [] => none
  | w :: queue =>
    let verdict := s.judge (s.nanoSecondTime E) w
    some (w, verdict.1, { s.tick with queue, timeAboveTarget := verdict.2 })

/-- The loop of `DropDequeue`, for at most `n` turns. The flag is set already and no dequeue clears
it, so the test of `!drop` in the loop never succeeds. -/
def dropLoop (now : UInt64) : Nat → Wrapper T → Bool → Codel T → Except Int (Wrapper T) × Codel T
  | 0, w, _, s => (.ok w, s)
  | n + 1, w, drop, s =>
    if s.nextDropTime ≤ now ∧ s.dropping then
      match ringDequeue E (s.drop w).countDrop with
      | none => (.error (-1), (s.drop w).countDrop.stopDropping)
      | some (w, d, s) =>
        if !(drop || d) then (.ok w, s.stopDropping)
        else dropLoop now n w (drop || d) (s.setNextDrop E s.nextDropTime)
    else (.ok w, s)

/-- Each turn of the loop takes an entry out of the queue. -/
def dropDequeue (w : Wrapper T) (drop : Bool) (s : Codel T) : Except Int (Wrapper T) × Codel T :=
  let now := s.nanoSecondTime E
  if !drop then (.ok w, s.tick.stopDropping)
  else if s.nextDropTime ≤ now then dropLoop E now (s.queue.length + 1) w drop s.tick
  else (.ok w, s.tick)

/-- `Pop` enters the dropping state with the entry it returns. -/
def startDropping (s : Codel T) (now : UInt64) : Codel T :=
  setNextDrop E
    { s with
      dropping := true
      dropCount :=
        if now - s.nextDropTime < s.window ∧ 2 < s.dropCount then s.dropCount - 2 else 1 } now

/-- `Pop(T&)`: the object, or the error code. -/
def pop (s : Codel T) : Except Int T × Codel T :=
  match ringDequeue E s with
  | none => (.error (-2), s.stopDropping)
  | some (w, drop, s) =>
    let now := s.nanoSecondTime E
    if s.dropping then
      let r := dropDequeue E w drop s.tick
      (r.1.map (·.2), r.2)
    else if drop ∧ (now - s.nextDropTime < s.window ∨ s.window ≤ now - s.timeAboveTarget) then
      match ringDequeue E (s.tick.drop w) with
      | none => (.error (-1), s.tick.drop w)
      | some (w, _, s) => (.ok w.2, s.startDropping E now)
    else (.ok w.2, s.tick)

/-- `Push(T)`; the flag says that the object was accepted. -/
def push (s : Codel T) (x : T) : Bool × Codel T :=
  if s.maxSize ≠ 0 ∧ s.maxSize ≤ s.queue.length then (false, s)
  else (true, { s.tick with queue := s.queue ++ [(s.nanoSecondTime E, x)] })

/-- `Push(T*, size_t)`, with the number of objects accepted. -/
def pushBulk : List T → Codel T → Nat × Codel T
  | [], s => (0, s)
  | x :: xs, s =>
    let r := s.push E x
    if r.1 then
      let rest := pushBulk xs r.2
      (rest.1 + 1, rest.2)
    else (0, r.2)

/-- `Pop(T*, size_t)` -/
def popBulk : Nat → Codel T → List T × Codel T
  | 0, s => ([], s)
  | n + 1, s =>
    match pop E s with
    | (.ok x, s) =>
      let rest := popBulk n s
      (x :: rest.1, rest.2)
    | (.error _, s) => ([], s)

def resize (s : Codel T) (newCapacity : Nat) : Bool × Codel T :=
  if newCapacity ≤ s.queue.length then (false, s)
  else if E.dequeMax ≤ newCapacity then (false, s)
  else (true, { s with maxSize := newCapacity })

/-- The loop of the destructor over the queue. -/
def drain : List (Wrapper T) → Codel T → Codel T
  | [], s => { s with queue := [] }
  | w :: ws, s => drain ws (s.drop w)

/-- The destructor. -/
def destroy (s : Codel T) : Codel T := drain s.queue s

end Codel

/-! ## What a call does to the queue -/

/-- The objects of the wrappers, in order. -/
def objects (q : List (Wrapper T)) : List T := q.map (·.2)

/-- The object that a function still holds. -/
def held : Except Int (Wrapper T) → List T
  | .ok w => [w.2]
  | .error _ => []

/-- The object that a caller gets. -/
def result : Except Int T → List T
  | .ok x => [x]
  | .error _ => []

namespace Codel

variable {E} {s s' : Codel T} {w w' : Wrapper T} {b : Bool}

/-- Nothing but the queue, the drops and the timing changed. -/
structure SameLimits (s s' : Codel T) : Prop where
  maxSize : s'.maxSize = s.maxSize
  hasDropFunc : s'.hasDropFunc = s.hasDropFunc

theorem SameLimits.trans {s₁ s₂ s₃ : Codel T} (h : SameLimits s₁ s₂) (h' : SameLimits s₂ s₃) :
    SameLimits s₁ s₃ :=
  ⟨h'.maxSize.trans h.maxSize, h'.hasDropFunc.trans h.hasDropFunc⟩

/-- The objects `before`, in order, became the drops `ds`, the objects `after` that are held or
returned, and those still queued. -/
structure Splits (before : List T) (s : Codel T) (after : List T) (s' : Codel T) : Prop where
  limits : SameLimits s s'
  split : ∃ ds, s'.dropped = s.dropped ++ ds ∧ before = ds ++ after ++ objects s'.queue

theorem queue_of_ringDequeue (h : ringDequeue E s = none) : s.queue = [] := by
  unfold ringDequeue at h
  split at h
  · assumption
  · cases h

theorem ringDequeue_spec (h : ringDequeue E s = some (w, b, s')) :
    s.queue = w :: s'.queue ∧ s'.dropped = s.dropped ∧ SameLimits s s' := by
  unfold ringDequeue at h
  split at h
  · cases h
  · rename_i hq
    cases h
    exact ⟨hq, rfl, rfl, rfl⟩

theorem Splits.congr (s₁ : Codel T) {before after : List T} (h : Splits before s₁ after s')
    (hd : s₁.dropped = s.dropped) (hl : SameLimits s s₁) : Splits before s after s' := by
  obtain ⟨ds, hds, hsplit⟩ := h.split
  exact ⟨hl.trans h.limits, ds, hd ▸ hds, hsplit⟩

theorem Splits.dequeue {after : List T} {s'' : Codel T}
    (h : ringDequeue E s = some (w, b, s')) (hs : Splits (w.2 :: objects s'.queue) s' after s'') :
    Splits (objects s.queue) s after s'' := by
  obtain ⟨hq, hd, hl⟩ := ringDequeue_spec h
  obtain ⟨ds, hds, hsplit⟩ := hs.split
  refine ⟨hl.trans hs.limits, ds, hds.trans (by rw [hd]), ?_⟩
  rw [hq]
  exact hsplit

theorem Splits.drop {before after : List T} (h : Splits before (s.drop w) after s') :
    Splits (w.2 :: before) s after s' := by
  obtain ⟨ds, hds, hsplit⟩ := h.split
  refine ⟨⟨h.limits.maxSize, h.limits.hasDropFunc⟩, w.2 :: ds, ?_, ?_⟩
  · simpa [Codel.drop] using hds
  · simp [hsplit]

theorem Splits.keep (hq : s'.queue = s.queue) (hd : s'.dropped = s.dropped) (hl : SameLimits s s') :
    Splits (w.2 :: objects s.queue) s [w.2] s' :=
  ⟨hl, [], by rw [hd, List.append_nil], by rw [hq]; rfl⟩

theorem Splits.none (h : ringDequeue E s = .none) (hq : s'.queue = s.queue)
    (hd : s'.dropped = s.dropped) (hl : SameLimits s s') : Splits (objects s.queue) s [] s' :=
  ⟨hl, [], by rw [hd, List.append_nil], by rw [hq, queue_of_ringDequeue h]; rfl⟩

theorem dropLoop_splits (now : UInt64) (n : Nat) (w : Wrapper T) (b : Bool) (s : Codel T) :
    Splits (w.2 :: objects s.queue) s (held (dropLoop E now n w b s).1)
      (dropLoop E now n w b s).2 := by
  induction n generalizing w b s with
  | zero => exact .keep rfl rfl ⟨rfl, rfl⟩
  | succ n ih =>
    unfold dropLoop
    split
    · refine .drop (.congr (s.drop w).countDrop ?_ rfl ⟨rfl, rfl⟩)
      split
      · rename_i hnone
        exact .none hnone rfl rfl ⟨rfl, rfl⟩
      · rename_i w' d s₁ hsome
        refine .dequeue hsome ?_
        split
        · exact .keep rfl rfl ⟨rfl, rfl⟩
        · exact .congr _ (ih w' (b || d) (s₁.setNextDrop E s₁.nextDropTime)) rfl ⟨rfl, rfl⟩
    · exact .keep rfl rfl ⟨rfl, rfl⟩

/-- The loop ends by itself: every turn but the last takes an entry out of the queue. -/
theorem dropLoop_ends (now : UInt64) {n : Nat} (hn : s.queue.length < n) (w : Wrapper T) (b : Bool) :
    dropLoop E now (n + 1) w b s = dropLoop E now n w b s := by
  induction n generalizing w b s with
  | zero => omega
  | succ n ih =>
    conv_lhs => unfold dropLoop
    conv_rhs => unfold dropLoop
    split
    · split
      · rfl
      · rename_i w' d s₁ hsome
        split
        · rfl
        · apply ih
          have hq := (ringDequeue_spec hsome).1
          have hlen : s.queue.length = s₁.queue.length + 1 := congrArg List.length hq
          show s₁.queue.length < n
          omega
    · rfl

theorem dropDequeue_splits (w : Wrapper T) (b : Bool) (s : Codel T) :
    Splits (w.2 :: objects s.queue) s (held (dropDequeue E w b s).1) (dropDequeue E w b s).2 := by
  unfold dropDequeue
  simp only
  split
  · exact .keep rfl rfl ⟨rfl, rfl⟩
  · split
    · exact .congr _ (dropLoop_splits _ _ w b s.tick) rfl ⟨rfl, rfl⟩
    · exact .keep rfl rfl ⟨rfl, rfl⟩

theorem result_map (r : Except Int (Wrapper T)) : result (r.map (·.2)) = held r := by
  cases r <;> rfl

theorem pop_splits (s : Codel T) :
    Splits (objects s.queue) s (result (pop E s).1) (pop E s).2 := by
  unfold pop
  split
  · rename_i hnone
    exact .none hnone rfl rfl ⟨rfl, rfl⟩
  · rename_i w b s₁ hsome
    refine .dequeue hsome ?_
    refine .congr s₁.tick ?_ rfl ⟨rfl, rfl⟩
    simp only
    split
    · rw [result_map]
      exact dropDequeue_splits w b s₁.tick
    · split
      · apply Splits.drop
        split
        · rename_i hnone
          exact .none hnone rfl rfl ⟨rfl, rfl⟩
        · rename_i w' d s₂ hsome'
          exact .dequeue hsome' (.keep rfl rfl ⟨rfl, rfl⟩)
      · exact .keep (s := s₁.tick) rfl rfl ⟨rfl, rfl⟩

end Codel

/-! ## Histories -/

inductive Op (T : Type)
  | push (x : T)
  | pushBulk (xs : List T)
  | pop
  | popBulk (count : Nat)
  | resize (newCapacity : Nat)

/-- A queue with what its callers saw: the objects that were accepted and those that were returned. -/
structure Session (T : Type) where
  codel : Codel T
  accepted : List T
  returned : List T

def Session.step (s : Session T) : Op T → Session T
  | .push x =>
    let r := s.codel.push E x
    { s with codel := r.2, accepted := s.accepted ++ if r.1 then [x] else [] }
  | .pushBulk xs =>
    let r := s.codel.pushBulk E xs
    { s with codel := r.2, accepted := s.accepted ++ xs.take r.1 }
  | .pop =>
    let r := s.codel.pop E
    { s with codel := r.2, returned := s.returned ++ result r.1 }
  | .popBulk count =>
    let r := s.codel.popBulk E count
    { s with codel := r.2, returned := s.returned ++ r.1 }
  | .resize newCapacity => { s with codel := (s.codel.resize E newCapacity).2 }

/-- A queue is made, used, and perhaps destroyed. -/
def Session.start (hasDropFunc : Bool) (maxEntries : Nat) (target window : UInt64) : Session T :=
  ⟨init E hasDropFunc maxEntries target window, [], []⟩

def Session.run (s : Session T) (ops : List (Op T)) : Session T := ops.foldl (Session.step E) s

def Session.destroy (s : Session T) : Session T := { s with codel := s.codel.destroy }

/-- Where an object went that left the queue. -/
inductive Fate
  | returned | dropped
  deriving DecidableEq, Repr

/-- The objects in `gone` with this fate, in order. -/
def withFate (f : Fate) (gone : List (T × Fate)) : List T :=
  (gone.filter fun g => g.2 = f).map (·.1)

@[simp] theorem withFate_append (f : Fate) (a b : List (T × Fate)) :
    withFate f (a ++ b) = withFate f a ++ withFate f b := by
  simp [withFate]

theorem withFate_map (f g : Fate) (xs : List T) :
    withFate f (xs.map fun x => (x, g)) = if g = f then xs else [] := by
  unfold withFate
  split
  · rename_i h
    induction xs with
    | nil => rfl
    | cons x xs ih => simp_all
  · rename_i h
    simp [h]

/-- The accepted objects, in the order of acceptance, are those that left the queue, in the order in
which they left, followed by the queue; each that left was returned once or dropped once. -/
structure Session.Conserves (hasDropFunc : Bool) (s : Session T) : Prop where
  func : s.codel.hasDropFunc = hasDropFunc
  places : ∃ gone, s.accepted = gone.map (·.1) ++ objects s.codel.queue ∧
    s.returned = withFate .returned gone ∧ s.codel.dropped = withFate .dropped gone
  bound : s.codel.maxSize ≠ 0 → s.codel.queue.length ≤ s.codel.maxSize

namespace Session

variable {E} {s : Session T} {c : Codel T} {f : Bool}

theorem Conserves.leave {out : List T} (h : s.Conserves f)
    (hs : Codel.Splits (objects s.codel.queue) s.codel out c) :
    Conserves f { s with codel := c, returned := s.returned ++ out } := by
  obtain ⟨gone, hacc, hret, hdrop⟩ := h.places
  obtain ⟨ds, hds, hsplit⟩ := hs.split
  refine ⟨hs.limits.hasDropFunc.trans h.func, ⟨gone ++ ds.map (fun x => (x, .dropped)) ++
    out.map (fun x => (x, .returned)), ?_, ?_, ?_⟩, fun hne => ?_⟩
  · simp only [List.map_append, List.map_map, Function.comp_def, List.map_id']
    rw [hacc, hsplit]
    simp
  · simp [withFate_map, hret]
  · simp [withFate_map, hds, hdrop]
  · have hlen := congrArg List.length hsplit
    simp only [objects, List.length_append, List.length_map] at hlen
    have hb := h.bound (by rw [← hs.limits.maxSize]; exact hne)
    rw [hs.limits.maxSize]
    show c.queue.length ≤ _
    omega

theorem Conserves.push (h : s.Conserves f) (x : T) :
    Conserves f { s with
      codel := (s.codel.push E x).2
      accepted := s.accepted ++ if (s.codel.push E x).1 then [x] else [] } := by
  unfold Codel.push
  split
  · simpa using h
  · rename_i hroom
    obtain ⟨gone, hacc, hret, hdrop⟩ := h.places
    refine ⟨h.func, ⟨gone, ?_, hret, hdrop⟩, fun hne => ?_⟩
    · simp [hacc, objects, Codel.nanoSecondTime]
    · have hlt : ¬ s.codel.maxSize ≤ s.codel.queue.length := fun hle => hroom ⟨hne, hle⟩
      show (s.codel.queue ++ [(s.codel.nanoSecondTime E, x)]).length ≤ s.codel.maxSize
      simp only [List.length_append, List.length_singleton]
      omega

theorem Conserves.pushBulk (h : s.Conserves f) (xs : List T) :
    Conserves f { s with
      codel := (s.codel.pushBulk E xs).2
      accepted := s.accepted ++ xs.take (s.codel.pushBulk E xs).1 } := by
  induction xs generalizing s with
  | nil => simpa [Codel.pushBulk] using h
  | cons x xs ih =>
    have hpush := h.push (E := E) x
    unfold Codel.pushBulk
    cases hr : (s.codel.push E x).1 with
    | false => simpa [hr] using hpush
    | true =>
      have := ih hpush
      simpa [hr] using this

theorem Conserves.popBulk (h : s.Conserves f) (count : Nat) :
    Conserves f { s with
      codel := (s.codel.popBulk E count).2
      returned := s.returned ++ (s.codel.popBulk E count).1 } := by
  induction count generalizing s with
  | zero => simpa [Codel.popBulk] using h
  | succ n ih =>
    have hpop := h.leave (Codel.pop_splits (E := E) s.codel)
    unfold Codel.popBulk
    rcases hr : Codel.pop E s.codel with ⟨r, c⟩
    rw [hr] at hpop
    cases r with
    | ok x => simpa [result] using ih hpop
    | error e => simpa [result] using hpop

theorem Conserves.resize (h : s.Conserves f) (n : Nat) :
    Conserves f { s with codel := (s.codel.resize E n).2 } := by
  unfold Codel.resize
  split
  · exact h
  · rename_i hlt
    split
    · exact h
    · refine ⟨h.func, h.places, fun _ => ?_⟩
      show s.codel.queue.length ≤ n
      omega

theorem Conserves.step (h : s.Conserves f) (op : Op T) : (s.step E op).Conserves f := by
  cases op with
  | push x => exact h.push x
  | pushBulk xs => exact h.pushBulk xs
  | pop => exact h.leave (Codel.pop_splits s.codel)
  | popBulk n => exact h.popBulk n
  | resize n => exact h.resize n

theorem Conserves.run (h : s.Conserves f) (ops : List (Op T)) : (s.run E ops).Conserves f := by
  induction ops generalizing s with
  | nil => exact h
  | cons op ops ih => exact ih (h.step op)

theorem conserves_start (b : Bool) (n : Nat) (target window : UInt64) :
    (start E b n target window : Session T).Conserves b :=
  ⟨rfl, ⟨[], rfl, rfl, rfl⟩, fun _ => Nat.zero_le _⟩

theorem drain_splits (ws : List (Wrapper T)) (c : Codel T) :
    Codel.Splits (objects ws) c [] (Codel.drain ws c) := by
  induction ws generalizing c with
  | nil => exact ⟨⟨rfl, rfl⟩, [], by simp [Codel.drain], rfl⟩
  | cons w ws ih => exact .drop (ih (c.drop w))

theorem drain_queue (ws : List (Wrapper T)) (c : Codel T) : (Codel.drain ws c).queue = [] := by
  induction ws generalizing c with
  | nil => rfl
  | cons w ws ih => exact ih (c.drop w)

theorem Conserves.destroy (h : s.Conserves f) : s.destroy.Conserves f := by
  have := h.leave (drain_splits s.codel.queue s.codel)
  simpa [Session.destroy, Codel.destroy] using this

theorem Conserves.handed_eq (h : s.Conserves f) (hf : f = true) :
    s.codel.handed = s.codel.dropped := by
  unfold Codel.handed
  rw [h.func, if_pos hf]

/-- Over every history of a queue, with any clock: accepted objects are queued, returned once or
dropped once, leave in the order of their acceptance, and a bounded queue keeps its bound; a queue
that is destroyed drops what is left. What is dropped goes to the drop function if there is one. -/
theorem codel_conserves (E : Env) (hasDropFunc : Bool) (maxEntries : Nat) (target window : UInt64)
    (ops : List (Op T)) :
    let s := (start E hasDropFunc maxEntries target window).run E ops
    (s.Conserves hasDropFunc ∧ s.destroy.Conserves hasDropFunc ∧ s.destroy.codel.queue = []) ∧
      (hasDropFunc = true → s.codel.handed = s.codel.dropped ∧
        s.destroy.codel.handed = s.destroy.codel.dropped) := by
  intro s
  have h : s.Conserves hasDropFunc := (conserves_start hasDropFunc maxEntries target window).run ops
  exact ⟨⟨h, h.destroy, drain_queue _ _⟩, fun hf => ⟨h.handed_eq hf, h.destroy.handed_eq hf⟩⟩

/-- A clock that advances by one second at each reading, a target of 1 ns and a window of 5 ns. -/
def slowClock : Env := ⟨fun n => UInt64.ofNat n * 1000000000, fun window _ t => t + window, 1000⟩

/-- The third object is returned; the first one was returned before the delay counted as bad. -/
theorem codel_conserves_slowClock :
    let s : Session Nat := (start slowClock true 0 1 5).run slowClock
      [.pushBulk [1, 2, 3], .pop, .pop]
    s.returned = [1, 3] ∧ s.codel.handed = [2] ∧ s.Conserves true :=
  ⟨by decide +kernel, by decide +kernel,
    (codel_conserves slowClock true 0 1 5 [.pushBulk [1, 2, 3], .pop, .pop]).1.1⟩

end Session

end Bess.CodelQueue
