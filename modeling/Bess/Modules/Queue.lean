import Bess.Lib.Ring
import Bess.Modules.Command
import Mathlib.Data.Rat.Floor

/-!
# The queue module

`modules/queue.cc`. With backpressure a queue tells the tasks that feed it when it holds more than its
high water mark, and that it recovered when it holds fewer than its low water mark. `Resize` sets the
marks from `size_`, and `SetSize` sets `size_` only after that, so that the marks belong to the size
before: to size 0 after `Init` with a size, where any packet is an overload that never ends.
-/

namespace Bess.Modules

structure QueueArg where
  size : Nat
  prefetch : Bool
  backpressure : Bool

structure QueueStats where
  enqueued : UInt64
  dequeued : UInt64
  dropped : UInt64

/-- `freed` lists the arguments of `Packet::Free`. -/
structure Queue (P : Type) where
  ring : Option (Ring P)
  prefetch : Bool
  backpressure : Bool
  burst : Nat
  size : Nat
  highWater : Nat
  lowWater : Nat
  stats : QueueStats
  overload : Bool
  freed : List P

namespace Queue

def defaultQueueSize : Nat := 1024

variable {P : Type}

/-- The constructor. -/
def new : Queue P where
  ring := none
  prefetch := false
  backpressure := false
  burst := 0
  size := 0
  highWater := 0
  lowWater := 0
  stats := ⟨0, 0, 0⟩
  overload := false
  freed := []

def slots (q : Queue P) : Nat := q.ring.elim 0 Ring.slots

/-- `llring_count(queue_)` -/
def count (q : Queue P) : Nat := q.ring.elim 0 Ring.count

/-- A double: 0.90 -/
def kHighWaterRatio : ℚ := 8106479329266893 / 2 ^ 53

/-- A double: 0.15 -/
def kLowWaterRatio : ℚ := 5404319552844595 / 2 ^ 55

/-- The sizes are powers of two or 0, so the products are exact. -/
def adjustWaterLevels (q : Queue P) : Queue P :=
  { q with
    highWater := ⌊q.size * kHighWaterRatio⌋₊
    lowWater := ⌊q.size * kLowWaterRatio⌋₊ }

/-- The packets of the old ring go to the new one. -/
def migrate (q : Queue P) (r : Ring P) : Queue P :=
  match q.ring with
  | none => { q with ring := some r }
  | some old =>
    let moved := Ring.pour old.items r
    { q with ring := some moved.2, freed := q.freed ++ moved.1 }

/-- `alloc` says whether there is memory for the new ring. -/
def resize (q : Queue P) (slots : Nat) (alloc : Bool) : Except Nat (Queue P) :=
  if alloc then
    match Ring.init slots with
    | none => .error EINVAL
    | some r =>
      let q := q.migrate r
      .ok (if q.backpressure then q.adjustWaterLevels else q)
  else .error ENOMEM

def setSize (q : Queue P) (size : Nat) (alloc : Bool) : Except Failure (Queue P) :=
  if size < 4 ∨ 16384 < size then .error (.msg EINVAL "must be in [4, 16384]")
  else if size &&& (size - 1) ≠ 0 then .error (.msg EINVAL "must be a power of 2")
  else
    match q.resize size alloc with
    | .error e => .error (.errno e)
    | .ok q => .ok { q with size }

/-- `Init` on a new module, whose task was registered. -/
def init (arg : QueueArg) (alloc : Bool) : Except Failure (Queue P) := do
  let q : Queue P := { new with burst := maxBurst, backpressure := arg.backpressure }
  let q ←
    if arg.size ≠ 0 then q.setSize arg.size alloc
    else
      match { q with size := defaultQueueSize }.resize defaultQueueSize alloc with
      | .error e => .error (.errno e)
      | .ok q => .ok q
  .ok { q with prefetch := arg.prefetch }

def setBurst (q : Queue P) (burst : Nat) : Except Failure (Queue P) :=
  if maxBurst < burst then .error (.msg EINVAL "burst size must be [0,32]")
  else .ok { q with burst }

def signalOverload (q : Queue P) : Queue P := { q with overload := true }

def signalUnderload (q : Queue P) : Queue P := { q with overload := false }

/-- The batch enters the ring as far as there is room. -/
def accept (q : Queue P) (r : Ring P) (batch : List P) : Queue P :=
  { q with ring := some (r.enqueueBurst batch).2 }

/-- The statistics, and the packets that did not fit. -/
def account (q : Queue P) (queued : Nat) (batch : List P) : Queue P :=
  { q with
    stats :=
      { q.stats with
        enqueued := q.stats.enqueued + UInt64.ofNat queued
        dropped := q.stats.dropped + UInt64.ofNat (batch.length - queued) }
    freed := q.freed ++ batch.drop queued }

/-- `ProcessBatch`; there is a ring in an initialised module. -/
def processBatch (q : Queue P) (batch : List P) : Queue P :=
  match q.ring with
  | none => q
  | some r =>
    let full := q.accept r batch
    let told := if full.backpressure && full.highWater < full.count then full.signalOverload else full
    told.account (r.enqueueBurst batch).1 batch

/-- The packets leave the ring. -/
def release (q : Queue P) (r : Ring P) : Queue P :=
  { q with
    ring := some (r.dequeueBurst q.burst).2
    stats :=
      { q.stats with
        dequeued := q.stats.dequeued + UInt64.ofNat (r.dequeueBurst q.burst).1.length } }

/-- `RunTask`, which returns the batch that it sends downstream. `children` is the module's
`children_overload_`; `back` are the batches that come back to this queue while the batch is
processed downstream. -/
def runTask (totalLen : P → Nat) (q : Queue P) (children : Int) (back : List (List P)) :
    TaskResult × List P × Queue P :=
  if 0 < children then (⟨true, 0, 0⟩, [], q)
  else
    match q.ring with
    | none => (⟨true, 0, 0⟩, [], q)
    | some r =>
      let batch := (r.dequeueBurst q.burst).1
      if batch.length = 0 then (⟨true, 0, 0⟩, [], q)
      else
        let q := back.foldl processBatch (q.release r)
        let bytes := (batch.map totalLen).sum
        (⟨false, batch.length, (bytes + batch.length * 24) * 8⟩, batch,
          if q.backpressure && q.count < q.lowWater then q.signalUnderload else q)

/-! ## Runs -/

inductive Op (P : Type)
  | setSize (size : Nat) (alloc : Bool)
  | setBurst (burst : Nat)
  | processBatch (batch : List P)
  | runTask (children : Int) (back : List (List P))

/-- The module after a command that was carried out or refused. -/
def done (q : Queue P) : Except Failure (Queue P) → Queue P
  | .ok q' => q'
  | .error _ => q

def step (totalLen : P → Nat) (q : Queue P) : Op P → Queue P
  | .setSize size alloc => q.done (q.setSize size alloc)
  | .setBurst burst => q.done (q.setBurst burst)
  | .processBatch batch => q.processBatch batch
  | .runTask children back => (q.runTask totalLen children back).2.2

def run (totalLen : P → Nat) (q : Queue P) (ops : List (Op P)) : Queue P :=
  ops.foldl (step totalLen) q

/-- The water levels are those of the ring, overload is signalled above the high one, and a
`RunTask` that leaves the queue empty leaves it without overload. -/
structure Honest (totalLen : P → Nat) (q : Queue P) : Prop where
  high : q.highWater = q.slots * 90 / 100
  low : q.lowWater = q.slots * 15 / 100
  signals : ∀ batch, q.overload = false → (q.processBatch batch).overload = true →
    q.slots * 90 / 100 < (q.processBatch batch).count
  drained : ∀ children back, (q.runTask totalLen children back).2.2.count = 0 →
    (q.runTask totalLen children back).2.2.overload = false

/-- `Init` gives no size, and no `set_size` that gets through changes the size. -/
def KeepsSize (arg : QueueArg) (ops : List (Op P)) : Prop :=
  arg.size = 0 ∧ ∀ n, .setSize n true ∈ ops → 4 ≤ n → n ≤ 16384 → n &&& (n - 1) = 0 →
    n = defaultQueueSize

/-! ## A queue of the default size -/

/-- The levels of a queue that kept the default size. -/
structure Levelled (q : Queue P) : Prop where
  slots : q.slots = 1024
  size : q.size = 1024
  high : q.highWater = 921
  low : q.lowWater = 153
  backpressure : q.backpressure = true

/-- Such a queue between two calls: it is not overloaded below its low mark. -/
structure Usual (q : Queue P) : Prop extends Levelled q where
  overload : q.overload = true → 153 ≤ q.count

variable {q q' : Queue P} {totalLen : P → Nat}

theorem highWater_default : ⌊((1024 : Nat) : ℚ) * kHighWaterRatio⌋₊ = 921 := by decide +kernel

theorem lowWater_default : ⌊((1024 : Nat) : ℚ) * kLowWaterRatio⌋₊ = 153 := by decide +kernel

variable {n : Nat} {alloc : Bool}

theorem migrate_slots {r : Ring P} (hr : Ring.init n = some r) : (q.migrate r).slots = n := by
  obtain ⟨hslots, -⟩ := Ring.init_spec hr
  unfold migrate
  split
  · exact hslots
  · exact (Ring.pour_spec _ _).1.trans hslots

/-- No packet is freed by a move to a ring of the same size. -/
theorem migrate_count {r : Ring P} (hr : Ring.init q.slots = some r) :
    (q.migrate r).count = q.count := by
  obtain ⟨hslots, hitems⟩ := Ring.init_spec hr
  unfold migrate count
  cases hq : q.ring with
  | none => simp [Ring.count, hitems]
  | some old =>
    have hold := old.room
    have hs : r.slots = old.slots := by simpa [slots, hq] using hslots
    obtain ⟨-, hmoved, -⟩ := Ring.pour_spec old.items r
    simp only [Option.elim_some, Ring.count, hmoved, hitems, List.nil_append, List.length_take,
      List.length_nil, hs]
    omega

theorem resize_spec (h : q.resize n alloc = .ok q') : alloc = true ∧ ∃ r, Ring.init n = some r ∧
      q' = if q.backpressure then (q.migrate r).adjustWaterLevels else q.migrate r := by
  unfold resize at h
  cases alloc with
  | false => simp at h
  | true =>
    cases hr : Ring.init (α := P) n with
    | none => simp [hr] at h
    | some r =>
      simp only [hr, if_true, Except.ok.injEq] at h
      have hb : (q.migrate r).backpressure = q.backpressure := by
        unfold migrate
        split <;> rfl
      exact ⟨rfl, r, rfl, by rw [← h, hb]⟩

theorem setSize_spec (h : q.setSize n alloc = .ok q') :
    4 ≤ n ∧ n ≤ 16384 ∧ n &&& (n - 1) = 0 ∧ alloc = true ∧
      ∃ r, Ring.init n = some r ∧
        q' = { (if q.backpressure then (q.migrate r).adjustWaterLevels else q.migrate r) with
          size := n } := by
  unfold setSize at h
  split at h
  · cases h
  · rename_i hrange
    split at h
    · cases h
    · rename_i hpow
      cases hres : q.resize n alloc with
      | error e => simp [hres] at h
      | ok q1 =>
        obtain ⟨halloc, r, hr, rfl⟩ := resize_spec hres
        simp only [hres, Except.ok.injEq] at h
        exact ⟨by omega, by omega, by simpa using hpow, halloc, r, hr, h.symm⟩

theorem setSize_ok (h4 : 4 ≤ n) (hmax : n ≤ 16384) (hpow : n &&& (n - 1) = 0) :
    ∃ q', q.setSize n true = .ok q' := by
  have hrange : ¬(n < 4 ∨ 16384 < n) := by omega
  have hinit : 0 < n ∧ n &&& (n - 1) = 0 := ⟨by omega, hpow⟩
  simp [setSize, resize, hrange, hpow, Ring.init, hinit]

/-- After a change of the size the water levels are those of the old one. -/
theorem setSize_levels (hb : q.backpressure = true) (h : q.setSize n alloc = .ok q') :
    q'.slots = n ∧ q'.highWater = ⌊q.size * kHighWaterRatio⌋₊ := by
  obtain ⟨-, -, -, -, r, hr, rfl⟩ := setSize_spec h
  rw [if_pos hb]
  refine ⟨migrate_slots hr, ?_⟩
  have hsize : (q.migrate r).size = q.size := by
    unfold migrate
    split <;> rfl
  simp only [adjustWaterLevels, hsize]

theorem Usual.setSize (hq : Usual q)
    (h : q.setSize defaultQueueSize alloc = .ok q') : Usual q' := by
  obtain ⟨-, -, -, -, r, hr, rfl⟩ := setSize_spec h
  have hr' : Ring.init q.slots = some r := by rw [hq.slots]; exact hr
  have hcount := migrate_count hr'
  rw [if_pos hq.backpressure]
  have hframe : (q.migrate r).size = q.size ∧ (q.migrate r).overload = q.overload ∧
      (q.migrate r).backpressure = q.backpressure := by
    unfold migrate
    split <;> exact ⟨rfl, rfl, rfl⟩
  obtain ⟨hsize, hover, hback⟩ := hframe
  refine ⟨⟨migrate_slots hr, rfl, ?_, ?_, hback.trans hq.backpressure⟩, fun ho => ?_⟩
  · simp only [adjustWaterLevels, hsize, hq.size]
    exact highWater_default
  · simp only [adjustWaterLevels, hsize, hq.size]
    exact lowWater_default
  · exact hcount ▸ hq.overload (hover ▸ ho)

theorem processBatch_frame (batch : List P) :
    (q.processBatch batch).slots = q.slots ∧ (q.processBatch batch).size = q.size ∧
      (q.processBatch batch).highWater = q.highWater ∧
      (q.processBatch batch).lowWater = q.lowWater ∧
      (q.processBatch batch).backpressure = q.backpressure ∧
      q.count ≤ (q.processBatch batch).count := by
  unfold processBatch
  cases hq : q.ring with
  | none => simp
  | some r =>
    have hcount : r.count ≤ (r.enqueueBurst batch).2.count := by
      simp [Ring.enqueueBurst, Ring.count]
    simp only
    split <;> exact ⟨by simp only [slots, hq]; rfl, rfl, rfl, rfl, rfl,
      by simp only [count, hq]; exact hcount⟩

/-- The flag goes up only if the queue is above its high mark. -/
theorem processBatch_overload (batch : List P) (h : (q.processBatch batch).overload = true) :
    q.overload = true ∨ q.highWater < (q.processBatch batch).count := by
  unfold processBatch at h ⊢
  cases hq : q.ring with
  | none =>
    rw [hq] at h
    exact .inl h
  | some r =>
    simp only [hq] at h ⊢
    split at h
    · rename_i htest
      rw [if_pos htest]
      exact .inr (of_decide_eq_true (Bool.and_eq_true_iff.mp htest).2)
    · exact .inl h

theorem Levelled.processBatch (hq : Levelled q) (batch : List P) :
    Levelled (q.processBatch batch) := by
  obtain ⟨h1, h2, h3, h4, h5, -⟩ := processBatch_frame (q := q) batch
  exact ⟨h1.trans hq.slots, h2.trans hq.size, h3.trans hq.high, h4.trans hq.low,
    h5.trans hq.backpressure⟩

theorem Usual.processBatch (hq : Usual q) (batch : List P) : Usual (q.processBatch batch) := by
  refine ⟨hq.toLevelled.processBatch batch, fun ho => ?_⟩
  rcases processBatch_overload batch ho with ho | hhigh
  · exact Nat.le_trans (hq.overload ho) (processBatch_frame batch).2.2.2.2.2
  · rw [hq.high] at hhigh
    omega

theorem Levelled.foldl (hq : Levelled q) (back : List (List P)) :
    Levelled (back.foldl Queue.processBatch q) := by
  induction back generalizing q with
  | nil => exact hq
  | cons batch back ih => exact ih (hq.processBatch batch)

/-- The test at the end of `RunTask` is made on every way that takes packets out. -/
theorem Usual.runTask (hq : Usual q) (children : Int) (back : List (List P)) :
    Usual (q.runTask totalLen children back).2.2 := by
  unfold Queue.runTask
  split
  · exact hq
  · cases hr : q.ring with
    | none => exact hq
    | some r =>
      simp only
      split
      · exact hq
      · have hslots : r.slots = 1024 := by simpa [Queue.slots, hr] using hq.slots
        have hout : Levelled (q.release r) :=
          ⟨hslots, hq.size, hq.high, hq.low, hq.backpressure⟩
        have hback := hout.foldl back
        split
        · exact ⟨⟨hback.slots, hback.size, hback.high, hback.low, hback.backpressure⟩,
            fun ho => nomatch ho⟩
        · rename_i htest
          refine ⟨hback, fun _ => ?_⟩
          simp only [hback.backpressure, hback.low, Bool.true_and, decide_eq_true_eq] at htest
          exact Nat.le_of_not_lt htest

theorem Usual.honest (hq : Usual q) : Honest totalLen q where
  high := by rw [hq.high, hq.slots]
  low := by rw [hq.low, hq.slots]
  signals := fun batch ho ho' => by
    rcases processBatch_overload batch ho' with h | h
    · rw [ho] at h
      cases h
    · rw [hq.high] at h
      rw [hq.slots]
      exact h
  drained := fun children back hcount => by
    have hrun : Usual (q.runTask totalLen children back).2.2 := hq.runTask children back
    cases ho : (q.runTask totalLen children back).2.2.overload with
    | false => rfl
    | true =>
      have := hrun.overload ho
      omega

theorem Usual.step (hq : Usual q) (op : Op P)
    (hop : ∀ n, op = .setSize n true → 4 ≤ n → n ≤ 16384 → n &&& (n - 1) = 0 →
      n = defaultQueueSize) : Usual (q.step totalLen op) := by
  cases op with
  | setSize n alloc =>
    rw [Queue.step]
    cases h : q.setSize n alloc with
    | error e => exact hq
    | ok q' =>
      obtain ⟨h1, h2, h3, halloc, -⟩ := setSize_spec h
      rw [hop n (by rw [halloc]) h1 h2 h3] at h
      exact hq.setSize h
  | setBurst n =>
    rw [Queue.step, Queue.setBurst]
    split
    · exact hq
    · exact ⟨⟨hq.slots, hq.size, hq.high, hq.low, hq.backpressure⟩, hq.overload⟩
  | processBatch batch => exact hq.processBatch batch
  | runTask children back => exact hq.runTask children back

theorem Usual.run (hq : Usual q) (ops : List (Op P))
    (hops : ∀ n, .setSize n true ∈ ops → 4 ≤ n → n ≤ 16384 → n &&& (n - 1) = 0 →
      n = defaultQueueSize) : Usual (q.run totalLen ops) := by
  induction ops generalizing q with
  | nil => exact hq
  | cons op ops ih =>
    refine ih (hq.step op fun n hn => hops n (hn ▸ List.mem_cons_self)) fun n hn => ?_
    exact hops n (List.mem_cons_of_mem _ hn)

/-! ## Changes of the size -/

/-- After `Init` with a size the levels are those of size 0. -/
theorem init_cases {arg : QueueArg} (hb : arg.backpressure = true) (h : init arg alloc = .ok q) :
    (arg.size = 0 ∧ Usual q) ∨ (arg.size ≠ 0 ∧ 4 ≤ q.slots ∧ q.highWater = 0) := by
  unfold init at h
  by_cases hsize : arg.size = 0
  · refine .inl ⟨hsize, ?_⟩
    simp only [ne_eq, hsize, not_true_eq_false, if_false] at h
    cases hres : ({ new with
        burst := maxBurst, backpressure := arg.backpressure, size := defaultQueueSize } :
        Queue P).resize defaultQueueSize alloc with
    | error e =>
      simp only [hres] at h
      cases h
    | ok q' =>
      simp only [hres] at h
      cases h
      obtain ⟨-, r, hr, rfl⟩ := resize_spec hres
      simp only [hb, if_true]
      exact ⟨⟨(Ring.init_spec hr).1, rfl, highWater_default, lowWater_default, rfl⟩,
        fun ho => nomatch ho⟩
  · refine .inr ⟨hsize, ?_⟩
    simp only [ne_eq, hsize, not_false_eq_true, if_true] at h
    cases hset : ({ new with burst := maxBurst, backpressure := arg.backpressure } :
        Queue P).setSize arg.size alloc with
    | error e =>
      rw [hset] at h
      cases h
    | ok q' =>
      rw [hset] at h
      cases h
      obtain ⟨hslots, hhigh⟩ := setSize_levels hb hset
      refine ⟨?_, ?_⟩
      · exact hslots ▸ (setSize_spec hset).1
      · exact hhigh.trans (by simp [new])

/-- A change of the size leaves the levels of the old one. -/
theorem Usual.eq_default (hq : Usual q) (h4 : 4 ≤ n) (hmax : n ≤ 16384)
    (hpow : n &&& (n - 1) = 0) (h : Honest totalLen (q.step totalLen (.setSize n true))) :
    n = defaultQueueSize := by
  obtain ⟨q', hset⟩ := setSize_ok (q := q) h4 hmax hpow
  obtain ⟨hslots, hhigh⟩ := setSize_levels hq.backpressure hset
  rw [hq.size, highWater_default] at hhigh
  have hright := h.high
  rw [Queue.step, hset, done, hslots, hhigh] at hright
  unfold defaultQueueSize
  omega

theorem Usual.keepsSize (hq : Usual q) (ops : List (Op P))
    (hall : ∀ pre, pre <+: ops → Honest totalLen (q.run totalLen pre)) (n : Nat)
    (hn : .setSize n true ∈ ops) (h4 : 4 ≤ n) (hmax : n ≤ 16384) (hpow : n &&& (n - 1) = 0) :
    n = defaultQueueSize := by
  induction ops generalizing q with
  | nil => cases hn
  | cons op ops ih =>
    have hfirst : Honest totalLen (q.step totalLen op) := hall [op] (by simp)
    rcases List.mem_cons.mp hn with rfl | hn
    · exact hq.eq_default h4 hmax hpow hfirst
    · have hstep : Usual (q.step totalLen op) := by
        refine hq.step op fun m hm h4 hmax hpow => ?_
        subst hm
        exact hq.eq_default h4 hmax hpow hfirst
      refine ih hstep (fun pre hpre => ?_) hn
      exact hall (op :: pre) (List.cons_prefix_cons.mpr ⟨rfl, hpre⟩)

/-- The queue is honest in every state of a run exactly if it keeps the default size. -/
theorem queue_honest_iff (arg : QueueArg) (alloc : Bool) (q : Queue P)
    (h : init arg alloc = .ok q) (hb : arg.backpressure = true) (ops : List (Op P)) :
    (∀ pre, pre <+: ops → Honest totalLen (q.run totalLen pre)) ↔ KeepsSize arg ops := by
  constructor
  · intro hall
    rcases init_cases hb h with ⟨hsize, hq⟩ | ⟨-, hslots, hhigh⟩
    · exact ⟨hsize, hq.keepsSize ops hall⟩
    · have h0 := (hall [] (List.nil_prefix)).high
      have h1 : q.highWater = q.slots * 90 / 100 := h0
      omega
  · rintro ⟨hsize, hops⟩ pre hpre
    rcases init_cases hb h with ⟨-, hq⟩ | ⟨hne, -⟩
    · exact (hq.run pre fun n hn => hops n (hpre.subset hn)).honest
    · exact absurd hsize hne

/-- A queue of the default size, through a burst and a task. -/
theorem defaultQueue_honest : ∃ q : Queue Nat, init ⟨0, false, true⟩ true = .ok q ∧
    Honest id (q.run id [.processBatch [60, 60], .setSize 1024 true, .runTask 0 []]) := by
  obtain ⟨q, h⟩ : ∃ q : Queue Nat, init ⟨0, false, true⟩ true = .ok q := ⟨_, rfl⟩
  refine ⟨q, h, (queue_honest_iff _ _ q h rfl _).mpr ⟨rfl, ?_⟩ _ (List.prefix_refl _)⟩
  intro n hn _ _ _
  simpa [defaultQueueSize] using hn

/-- With a size given to `Init` the high mark is 0: one packet is an overload, and it is still
signalled when the queue is empty again. -/
theorem sizedQueue_overloaded : ∃ q : Queue Nat, init ⟨8, false, true⟩ true = .ok q ∧
    q.slots = 8 ∧ q.highWater = 0 ∧
    (q.run id [.processBatch [60]]).count = 1 ∧ (q.run id [.processBatch [60]]).overload = true ∧
    (q.run id [.processBatch [60], .runTask 0 []]).count = 0 ∧
    (q.run id [.processBatch [60], .runTask 0 []]).overload = true := by
  obtain ⟨q, h⟩ : ∃ q : Queue Nat, init ⟨8, false, true⟩ true = .ok q := ⟨_, rfl⟩
  have hrun : (init ⟨8, false, true⟩ true : Except Failure (Queue Nat)).map (fun q =>
      let q1 := q.run id [.processBatch [60]]
      let q2 := q1.run id [.runTask 0 []]
      (q.slots, q.highWater, q1.count, q1.overload, q2.count, q2.overload)) =
      .ok (8, 0, 1, true, 0, true) := by
    decide +kernel
  rw [h] at hrun
  simp only [Except.map, Except.ok.injEq, Prod.mk.injEq] at hrun
  exact ⟨q, h, hrun⟩

end Queue

end Bess.Modules
