import Bess.Utils.Codel
import Mathlib.Tactic.IntervalCases

/-!
# The delays of dropped objects

`RingDequeue` sets the `drop` flag but does not clear it, and one `Pop` may call it several times
with the same flag. So what `Pop` makes of the entries after the first one does not depend on their
own delays.
-/

namespace Bess.CodelQueue

variable {T : Type} (E : Env)

namespace Codel

/-- The entry that `RingDequeue` takes, with its delay. -/
def front (s : Codel T) : List (Wrapper T × UInt64) :=
  s.queue.head?.toList.map fun w => (w, s.nanoSecondTime E - w.1)

/-- The entries that the loop of `DropDequeue` takes out of the queue. -/
def dropLoopTaken (now : UInt64) : Nat → Wrapper T → Bool → Codel T → List (Wrapper T × UInt64)
  | 0, _, _, _ => []
  | n + 1, w, drop, s =>
    if s.nextDropTime ≤ now ∧ s.dropping then
      match ringDequeue E (s.drop w).countDrop with
      | none => []
      | some (w', d, s') => (s.drop w).countDrop.front E ++
        if !(drop || d) then []
        else dropLoopTaken now n w' (drop || d) (s'.setNextDrop E s'.nextDropTime)
    else []

def dropDequeueTaken (w : Wrapper T) (drop : Bool) (s : Codel T) : List (Wrapper T × UInt64) :=
  let now := s.nanoSecondTime E
  if !drop then []
  else if s.nextDropTime ≤ now then dropLoopTaken E now (s.queue.length + 1) w drop s.tick
  else []

/-- The entries that `Pop` takes after the first one. -/
def popTakenLater (s : Codel T) : List (Wrapper T × UInt64) :=
  match ringDequeue E s with
  | none => []
  | some (w, drop, s) =>
    let now := s.nanoSecondTime E
    if s.dropping then dropDequeueTaken E w drop s.tick
    else if drop ∧ (now - s.nextDropTime < s.window ∨ s.window ≤ now - s.timeAboveTarget) then
      (s.tick.drop w).front E
    else []

/-- All entries that `Pop` takes out of the queue, in order. -/
def popTaken (s : Codel T) : List (Wrapper T × UInt64) := s.front E ++ s.popTakenLater E

def names (ts : List (Wrapper T × UInt64)) : List T := ts.map (·.1.2)

/-- `Pop` drops no entry with a delay below the target, and is not in the dropping state after it
took such an entry. `ds` are the entries that it drops. -/
structure Spares (s : Codel T) : Prop where
  drops : ∃ ds, (pop E s).2.dropped = s.dropped ++ names ds ∧ ds <+: s.popTaken E ∧
    ∀ t ∈ ds, s.delayTarget ≤ t.2
  leaves : ∀ t ∈ s.popTaken E, t.2 < s.delayTarget → (pop E s).2.dropping = false

/-- The time of the `i`-th further drop, if each drop sets the time of the next one. -/
def dropTime (window : UInt64) : Nat → UInt32 → UInt64 → UInt64
  | 0, _, t => t
  | i + 1, count, t => dropTime window i (count + 1) (E.nextDrop window (count + 1) t)

/-- What is asked of the queue before a `Pop`. If its first entry is to be dropped, the ones behind it
that are reached in the same call have waited long enough too: in the dropping state those up to the
first time of a drop that is still to come, otherwise the second one. Each reading of the clock is
later than the one before. -/
def LateBehind (s : Codel T) : Prop :=
  ∀ first rest, s.queue = first :: rest →
    s.delayTarget ≤ E.clock s.readings - first.1 → s.timeAboveTarget ≠ 0 →
    s.timeAboveTarget ≤ E.clock s.readings →
    if s.dropping then
      ∀ k e, rest[k]? = some e →
        (∀ i ≤ k, dropTime E s.window i s.dropCount s.nextDropTime ≤ E.clock (s.readings + 2)) →
        s.delayTarget ≤ E.clock (s.readings + 3 + k) - e.1
    else
      E.clock (s.readings + 1) - s.nextDropTime < s.window ∨
        s.window ≤ E.clock (s.readings + 1) - s.timeAboveTarget →
      ∀ e, rest.head? = some e → s.delayTarget ≤ E.clock (s.readings + 2) - e.1

variable {E} {s s' : Codel T} {w : Wrapper T} {b : Bool}

theorem front_of_ringDequeue (h : ringDequeue E s = some (w, b, s')) :
    s.front E = [(w, s.nanoSecondTime E - w.1)] := by
  rw [front, (ringDequeue_spec h).1]
  rfl

theorem front_of_none (h : ringDequeue E s = none) : s.front E = [] := by
  rw [front, queue_of_ringDequeue h]
  rfl

theorem ringDequeue_keeps (h : ringDequeue E s = some (w, b, s')) :
    s'.dropping = s.dropping ∧ s'.delayTarget = s.delayTarget := by
  unfold ringDequeue at h
  split at h
  · cases h
  · cases h
    exact ⟨rfl, rfl⟩

/-- An entry below the target does not set the flag. -/
theorem ringDequeue_below (h : ringDequeue E s = some (w, b, s'))
    (hlow : s.nanoSecondTime E - w.1 < s.delayTarget) : b = false := by
  unfold ringDequeue at h
  split at h
  · cases h
  · cases h
    simp only [judge, if_pos hlow]

/-- With the flag set, the loop drops `w` and all entries it takes but the last, which it holds in
the dropping state; or it drops them all, if the queue runs empty. -/
theorem dropLoop_taken (now : UInt64) (n : Nat) (w : Wrapper T) (s : Codel T) (hs : s.dropping = true) :
    let r := dropLoop E now n w true s
    let ts := dropLoopTaken E now n w true s
    (∃ w' pre x, r.1 = .ok w' ∧ w.2 :: names ts = pre ++ [x] ∧
      r.2.dropped = s.dropped ++ pre ∧ r.2.dropping = true) ∨
    (∃ e, r.1 = .error e ∧ r.2.dropped = s.dropped ++ w.2 :: names ts) := by
  induction n generalizing w s with
  | zero => exact .inl ⟨w, [], w.2, rfl, rfl, by simp [dropLoop], hs⟩
  | succ n ih =>
    unfold dropLoop dropLoopTaken
    by_cases hgo : s.nextDropTime ≤ now ∧ s.dropping = true
    · simp only [if_pos hgo]
      cases hd : ringDequeue E (s.drop w).countDrop with
      | none => exact .inr ⟨-1, rfl, rfl⟩
      | some r =>
        obtain ⟨w', d, s₁⟩ := r
        have hdrop : s₁.dropped = s.dropped ++ [w.2] := (ringDequeue_spec hd).2.1
        have hkeep : s₁.dropping = true := (ringDequeue_keeps hd).1.trans hs
        simp only [Bool.true_or, Bool.not_true, Bool.false_eq_true, if_false,
          front_of_ringDequeue hd, names, List.cons_append, List.nil_append, List.map_cons]
        rcases ih w' (s₁.setNextDrop E s₁.nextDropTime) hkeep with
          ⟨v, pre, x, hok, hsplit, hdropped, hdropping⟩ | ⟨e, herr, hdropped⟩
        · refine .inl ⟨v, w.2 :: pre, x, hok, ?_, ?_, hdropping⟩
          · rw [← names, hsplit]
            rfl
          · rw [hdropped]
            show s₁.dropped ++ pre = _
            rw [hdrop, List.append_assoc]
            rfl
        · refine .inr ⟨e, herr, ?_⟩
          rw [hdropped]
          show s₁.dropped ++ _ = _
          rw [hdrop, List.append_assoc]
          rfl
    · simp only [if_neg hgo]
      exact .inl ⟨w, [], w.2, rfl, rfl, by simp, hs⟩

/-- If the first entry does not set the flag, it is returned, outside of the dropping state. -/
theorem pop_unset (hd : ringDequeue E s = some (w, false, s')) :
    s.popTakenLater E = [] ∧ (pop E s).2.dropped = s.dropped ∧ (pop E s).2.dropping = false := by
  have hdropped := (ringDequeue_spec hd).2.1
  unfold popTakenLater pop
  rw [hd]
  cases hs : s'.dropping with
  | true =>
    exact ⟨by simp [hs, dropDequeueTaken],
      by simpa [hs, dropDequeue, tick, stopDropping] using hdropped,
      by simp [hs, dropDequeue, stopDropping]⟩
  | false => exact ⟨by simp [hs], by simpa [hs, tick] using hdropped, by simp [hs, tick]⟩

/-- If it does, all entries but the last are dropped, and if there is more than one, the last is
returned in the dropping state; or the queue runs empty and all are dropped. -/
theorem pop_set (hd : ringDequeue E s = some (w, true, s')) :
    (∃ pre x, w.2 :: names (s.popTakenLater E) = pre ++ [x] ∧
      (pop E s).2.dropped = s.dropped ++ pre ∧
      (s.popTakenLater E ≠ [] → (pop E s).2.dropping = true)) ∨
    (pop E s).2.dropped = s.dropped ++ w.2 :: names (s.popTakenLater E) := by
  have hdropped := (ringDequeue_spec hd).2.1
  unfold popTakenLater pop
  rw [hd]
  simp only
  by_cases hs : s'.dropping = true
  · simp only [if_pos hs, dropDequeueTaken, dropDequeue, Bool.not_true, Bool.false_eq_true, if_false]
    by_cases hlate : s'.tick.nextDropTime ≤ s'.tick.nanoSecondTime E
    · simp only [if_pos hlate]
      rcases dropLoop_taken (E := E) (s'.tick.nanoSecondTime E) (s'.tick.queue.length + 1) w
        s'.tick.tick hs with ⟨v, pre, x, -, hsplit, hpre, hdropping⟩ | ⟨e, -, hall⟩
      · exact .inl ⟨pre, x, hsplit, hpre.trans (by rw [← hdropped]; rfl), fun _ => hdropping⟩
      · exact .inr (hall.trans (by rw [← hdropped]; rfl))
    · simp only [if_neg hlate]
      exact .inl ⟨[], w.2, rfl, by rw [← hdropped, List.append_nil]; rfl, fun h => absurd rfl h⟩
  · simp only [if_neg hs, true_and]
    split
    · cases hn : ringDequeue E (s'.tick.drop w) with
      | none =>
        refine .inr ?_
        rw [front_of_none hn, ← hdropped]
        rfl
      | some r =>
        obtain ⟨w', d, s₂⟩ := r
        refine .inl ⟨[w.2], w'.2, ?_, ?_, fun _ => rfl⟩
        · rw [front_of_ringDequeue hn]
          rfl
        · rw [← hdropped]
          exact (ringDequeue_spec hn).2.1
    · exact .inl ⟨[], w.2, rfl, by rw [← hdropped, List.append_nil]; rfl, fun h => absurd rfl h⟩

theorem spares_of_unset (hd : ringDequeue E s = some (w, false, s')) : s.Spares E := by
  obtain ⟨-, hdropped, hdropping⟩ := pop_unset hd
  exact ⟨⟨[], by rw [hdropped]; exact (List.append_nil _).symm, List.nil_prefix,
    fun t ht => absurd ht List.not_mem_nil⟩, fun _ _ _ => hdropping⟩

theorem popTaken_eq (hd : ringDequeue E s = some (w, b, s')) :
    s.popTaken E = (w, s.nanoSecondTime E - w.1) :: s.popTakenLater E := by
  rw [popTaken, front_of_ringDequeue hd]
  rfl

theorem names_popTaken (hd : ringDequeue E s = some (w, b, s')) :
    names (s.popTaken E) = w.2 :: names (s.popTakenLater E) := by
  rw [popTaken_eq hd]
  rfl

/-- A later entry is dropped, or returned in the dropping state. -/
theorem Spares.later (h : s.Spares E) (hd : ringDequeue E s = some (w, true, s'))
    {t : Wrapper T × UInt64} (ht : t ∈ s.popTakenLater E) : s.delayTarget ≤ t.2 := by
  refine UInt64.not_lt.mp fun hlow => ?_
  have hmem : t ∈ s.popTaken E := by
    rw [popTaken_eq hd]
    exact List.mem_cons_of_mem _ ht
  have hleft := h.leaves t hmem hlow
  rcases pop_set hd with ⟨pre, x, -, -, hdropping⟩ | hall
  · rw [hdropping (List.ne_nil_of_mem ht)] at hleft
    cases hleft
  · obtain ⟨ds, hds, hprefix, hhigh⟩ := h.drops
    rw [hall, ← names_popTaken hd] at hds
    have hlen := congrArg List.length (List.append_cancel_left hds)
    simp only [names, List.length_map] at hlen
    have heq := hprefix.eq_of_length hlen.symm
    exact absurd hlow (UInt64.not_lt.mpr (hhigh t (heq ▸ hmem)))

theorem spares_of_set (hd : ringDequeue E s = some (w, true, s'))
    (h : ∀ t ∈ s.popTakenLater E, s.delayTarget ≤ t.2) : s.Spares E := by
  have hfirst : s.delayTarget ≤ s.nanoSecondTime E - w.1 := by
    refine UInt64.not_lt.mp fun hlow => ?_
    cases ringDequeue_below hd hlow
  have hhigh : ∀ t ∈ s.popTaken E, s.delayTarget ≤ t.2 := by
    rw [popTaken_eq hd]
    exact List.forall_mem_cons.mpr ⟨hfirst, h⟩
  refine ⟨?_, fun t ht hlow => absurd hlow (UInt64.not_lt.mpr (hhigh t ht))⟩
  rcases pop_set hd with ⟨pre, x, hsplit, hpre, -⟩ | hall
  · refine ⟨(s.popTaken E).dropLast, ?_, List.dropLast_prefix _,
      fun t ht => hhigh t (List.dropLast_subset _ ht)⟩
    rw [hpre, names, List.map_dropLast, ← names, names_popTaken hd, hsplit, List.dropLast_concat]
  · exact ⟨s.popTaken E, by rw [hall, names_popTaken hd], List.prefix_rfl, hhigh⟩

/-- One call of `Pop` is right iff no entry that it takes after the first is below the target. -/
theorem spares_iff (s : Codel T) :
    s.Spares E ↔ ∀ t ∈ s.popTakenLater E, s.delayTarget ≤ t.2 := by
  cases hd : ringDequeue E s with
  | none =>
    have hlater : s.popTakenLater E = [] := by rw [popTakenLater, hd]
    have hpop : pop E s = (.error (-2), s.stopDropping) := by rw [pop, hd]
    rw [hlater]
    refine ⟨fun _ t ht => absurd ht List.not_mem_nil, fun _ => ?_⟩
    exact ⟨⟨[], by rw [hpop]; exact (List.append_nil _).symm, List.nil_prefix,
      fun t ht => absurd ht List.not_mem_nil⟩, fun _ _ _ => by rw [hpop]; rfl⟩
  | some r =>
    obtain ⟨w, d, s'⟩ := r
    cases d with
    | false =>
      rw [(pop_unset hd).1]
      exact ⟨fun _ t ht => absurd ht List.not_mem_nil, fun _ => spares_of_unset hd⟩
    | true => exact ⟨fun h t ht => h.later hd ht, spares_of_set hd⟩

theorem ringDequeue_cons {q : List (Wrapper T)} (hq : s.queue = w :: q) :
    ringDequeue E s = some (w, (s.judge (s.nanoSecondTime E) w).1,
      { s.tick with queue := q, timeAboveTarget := (s.judge (s.nanoSecondTime E) w).2 }) := by
  simp only [ringDequeue, hq]

/-- The entries that the loop takes, by their places in the queue. -/
theorem mem_dropLoopTaken {now : UInt64} {n : Nat} {w : Wrapper T} {s : Codel T}
    {t : Wrapper T × UInt64} (hn : s.queue.length < n) (hs : s.dropping = true) :
    t ∈ dropLoopTaken E now n w true s ↔ ∃ k e, s.queue[k]? = some e ∧
      (∀ i ≤ k, dropTime E s.window i s.dropCount s.nextDropTime ≤ now) ∧
      t = (e, E.clock (s.readings + k) - e.1) := by
  induction n generalizing w s with
  | zero => exact absurd hn (Nat.not_lt_zero _)
  | succ n ih =>
    unfold dropLoopTaken
    by_cases hnow : s.nextDropTime ≤ now
    · rw [if_pos ⟨hnow, hs⟩]
      cases hq : s.queue with
      | nil =>
        have hd : ringDequeue E (s.drop w).countDrop = none := by
          simp [ringDequeue, drop, countDrop, hq]
        simp [hd]
      | cons v q =>
        have hd := ringDequeue_cons (E := E) (s := (s.drop w).countDrop) (w := v) (q := q) hq
        generalize ((s.drop w).countDrop.judge _ v).2 = a at hd
        rw [hq] at hn
        simp only [hd, front_of_ringDequeue hd, Bool.true_or, Bool.not_true, Bool.false_eq_true,
          if_false, List.cons_append, List.nil_append, List.mem_cons]
        have hnext : ∀ k, s.readings + 1 + k = s.readings + (k + 1) := fun k => by omega
        rw [ih (by exact Nat.lt_of_succ_lt_succ hn) (by exact hs)]
        constructor
        · rintro (rfl | ⟨k, e, hk, htimes, rfl⟩)
          · refine ⟨0, v, rfl, fun i hi => ?_, rfl⟩
            rw [Nat.le_zero.mp hi]
            exact hnow
          · refine ⟨k + 1, e, hk, fun i hi => ?_, ?_⟩
            · cases i with
              | zero => exact hnow
              | succ i => exact htimes i (Nat.le_of_succ_le_succ hi)
            · rw [← hnext]
              rfl
        · rintro ⟨k, e, hk, htimes, rfl⟩
          cases k with
          | zero =>
            cases hk
            exact .inl rfl
          | succ k =>
            refine .inr ⟨k, e, hk, fun i hi => htimes (i + 1) (Nat.succ_le_succ hi), ?_⟩
            rw [← hnext]
            rfl
    · rw [if_neg (fun h => hnow h.1)]
      simp only [List.not_mem_nil, false_iff, not_exists, not_and]
      exact fun k e _ htimes => absurd (htimes 0 (Nat.zero_le k)) hnow

theorem judge_flag {now : UInt64} : (s.judge now w).1 = true ↔
    s.delayTarget ≤ now - w.1 ∧ s.timeAboveTarget ≠ 0 ∧ s.timeAboveTarget ≤ now := by
  unfold judge
  by_cases hlow : now - w.1 < s.delayTarget
  · simp [hlow]
  · by_cases hzero : s.timeAboveTarget = 0
    · simp [hlow, hzero]
    · simp [hlow, hzero, UInt64.not_lt.mp hlow]

/-- In the dropping state. -/
theorem mem_popTakenLater_dropping {a : UInt64} {rest : List (Wrapper T)} {t : Wrapper T × UInt64}
    (hd : ringDequeue E s = some (w, true, { s.tick with queue := rest, timeAboveTarget := a }))
    (hs : s.dropping = true) :
    t ∈ s.popTakenLater E ↔ ∃ k e, rest[k]? = some e ∧
      (∀ i ≤ k, dropTime E s.window i s.dropCount s.nextDropTime ≤ E.clock (s.readings + 2)) ∧
      t = (e, E.clock (s.readings + 3 + k) - e.1) := by
  unfold popTakenLater dropDequeueTaken
  rw [hd]
  simp only [tick, hs, Bool.not_true, Bool.false_eq_true, if_false, if_true, nanoSecondTime]
  by_cases hnow : s.nextDropTime ≤ E.clock (s.readings + 2)
  · rw [if_pos hnow, mem_dropLoopTaken (by exact Nat.lt_succ_self _) (by rfl)]
  · rw [if_neg hnow]
    simp only [List.not_mem_nil, false_iff, not_exists, not_and]
    exact fun k e _ htimes => absurd (htimes 0 (Nat.zero_le k)) hnow

/-- Outside of the dropping state. -/
theorem mem_popTakenLater_entering {rest : List (Wrapper T)} {t : Wrapper T × UInt64}
    (hd : ringDequeue E s =
      some (w, true, { s.tick with queue := rest, timeAboveTarget := s.timeAboveTarget }))
    (hs : s.dropping = false) :
    t ∈ s.popTakenLater E ↔
      (E.clock (s.readings + 1) - s.nextDropTime < s.window ∨
        s.window ≤ E.clock (s.readings + 1) - s.timeAboveTarget) ∧
      ∃ e, rest.head? = some e ∧ t = (e, E.clock (s.readings + 2) - e.1) := by
  unfold popTakenLater
  rw [hd]
  simp only [tick, hs, Bool.false_eq_true, if_false, true_and, nanoSecondTime, front, drop]
  split
  · rename_i hgo
    rw [and_iff_right hgo]
    simp [eq_comm]
  · rename_i hgo
    simp [hgo]

/-- The entries after the first one have waited long enough iff the queue is as it should be. -/
theorem lateBehind_iff (s : Codel T) :
    (∀ t ∈ s.popTakenLater E, s.delayTarget ≤ t.2) ↔ s.LateBehind E := by
  unfold LateBehind
  cases hq : s.queue with
  | nil => simp [popTakenLater, ringDequeue, hq]
  | cons first rest =>
    have hd := ringDequeue_cons (E := E) hq
    by_cases hflag : (s.judge (s.nanoSecondTime E) first).1 = true
    · obtain ⟨h1, h2, h3⟩ := judge_flag.mp hflag
      have habove : (s.judge (s.nanoSecondTime E) first).2 = s.timeAboveTarget := by
        simp [judge, UInt64.not_lt.mpr h1, h2]
      rw [hflag, habove] at hd
      cases hs : s.dropping with
      | true =>
        simp only [mem_popTakenLater_dropping hd hs, if_true]
        constructor
        · rintro h _ _ ⟨⟩ - - - k e hk htimes
          exact h _ ⟨k, e, hk, htimes, rfl⟩
        · rintro h t ⟨k, e, hk, htimes, rfl⟩
          exact h first rest rfl h1 h2 h3 k e hk htimes
      | false =>
        simp only [mem_popTakenLater_entering hd hs, Bool.false_eq_true, if_false]
        constructor
        · rintro h _ _ ⟨⟩ - - - hgo e he
          exact h _ ⟨hgo, e, he, rfl⟩
        · rintro h t ⟨hgo, e, he, rfl⟩
          exact h first rest rfl h1 h2 h3 hgo e he
    · rw [Bool.not_eq_true] at hflag
      rw [hflag] at hd
      rw [(pop_unset hd).1]
      refine ⟨fun _ _ _ hcons h1 h2 h3 => ?_, fun _ t ht => absurd ht List.not_mem_nil⟩
      cases hcons
      exact absurd (hflag.symm.trans (judge_flag.mpr ⟨h1, h2, h3⟩)) Bool.false_ne_true

variable (E) in
/-- The states in which `Pop(T*, size_t)` calls `Pop`. -/
def popBulkStates : Nat → Codel T → List (Codel T)
  | 0, _ => []
  | n + 1, s =>
    match pop E s with
    | (.ok _, s') => s :: popBulkStates n s'
    | (.error _, _) => [s]

end Codel

/-! ## Histories -/

namespace Session

/-- The states in which an operation calls `Pop`. -/
def popsOf (s : Session T) : Op T → List (Codel T)
  | .pop => [s.codel]
  | .popBulk count => s.codel.popBulkStates E count
  | _ => []

/-- The states in which a history calls `Pop`. -/
def pops : List (Op T) → Session T → List (Codel T)
  | [], _ => []
  | op :: ops, s => s.popsOf E op ++ pops ops (s.step E op)

/-- For every history, with any clock and any times of the next drop. -/
theorem spares_along_iff (E : Env) (hasDropFunc : Bool) (maxEntries : Nat) (target window : UInt64)
    (ops : List (Op T)) :
    (∀ c ∈ pops E ops (start E hasDropFunc maxEntries target window), c.Spares E) ↔
      ∀ c ∈ pops E ops (start E hasDropFunc maxEntries target window),
        c.LateBehind E :=
  forall₂_congr fun c _ => (Codel.spares_iff c).trans (Codel.lateBehind_iff c)

/-- Three entries wait for long, the fourth for 100 ns, and the last one comes 1 ns before the third
`Pop`. -/
def lateClock : Env where
  clock n :=
    if n < 4 then UInt64.ofNat n else if n < 6 then 100 else if n < 10 then 200
    else if n = 10 then 299 else 300
  nextDrop window _ t := if t ≤ t + window then t + window else t
  dequeMax := 1000

def lateOps : List (Op Nat) :=
  [.push 1, .push 2, .push 3, .pop, .pop, .push 4, .push 5, .pop]

/-- The clock and the times of the next drop never go back. The third `Pop` drops the entry that
came 1 ns before; the target is 10 ns. -/
theorem fresh_entry_dropped :
    (∀ n, lateClock.clock n ≤ lateClock.clock (n + 1)) ∧
    (∀ window count t, t ≤ lateClock.nextDrop window count t) ∧
    (pops lateClock lateOps (start lateClock true 0 10 5)).map (fun c =>
        (c.delayTarget, c.popTaken lateClock, (c.pop lateClock).2.dropped)) =
      [(10, [((1, 1), 99)], []), (10, [((2, 2), 198), ((3, 3), 197)], [2]),
        (10, [((200, 4), 100), ((299, 5), 1)], [2, 4, 5])] ∧
    ¬ ∀ c ∈ pops lateClock lateOps (start lateClock true 0 10 5), c.Spares lateClock := by
  refine ⟨fun n => ?_, fun window count t => ?_, by decide +kernel, fun h => ?_⟩
  · by_cases hn : n < 11
    · interval_cases n <;> decide
    · have hnext : lateClock.clock (n + 1) = 300 := by
        simp only [lateClock]
        rw [if_neg (by omega), if_neg (by omega), if_neg (by omega), if_neg (by omega)]
      have hthis : lateClock.clock n = 300 := by
        simp only [lateClock]
        rw [if_neg (by omega), if_neg (by omega), if_neg (by omega), if_neg (by omega)]
      rw [hnext, hthis]
      exact UInt64.le_refl _
  · simp only [lateClock]
    split
    · assumption
    · exact UInt64.le_refl _
  · have hlate := fun c hc => (Codel.spares_iff c).mp (h c hc)
    exact absurd hlate (by decide +kernel)

end Session

end Bess.CodelQueue
