import Bess.Lib.Handout
import Bess.Modules.Command
import Mathlib.Data.List.FinRange

/-!
# Output queues of a port

`modules/port_out.cc` gives every worker that reaches the module an output queue of its port. Before
the workers resume, the queues of workers that no longer reach the module go back to
`available_queues_`, and the new workers take theirs from its end. A queue is free or owned by one
worker, so the queues last for as many workers as there are queues.
-/

namespace Bess.Modules

open Bess.Handout

/-- `Worker::kMaxWorkers` -/
abbrev kMaxWorkers : Nat := 64

abbrev WorkerId := Fin kMaxWorkers

/-- `active_workers_` of a module. -/
abbrev Actives := WorkerId → Bool

def numActiveWorkers (actives : Actives) : Nat := (List.finRange kMaxWorkers).countP actives

def ENODEV : Nat := 19

/-- `queue_t` -/
abbrev Queue8 := BitVec 8

structure PortOut where
  availableQueues : List Queue8
  workerQueues : WorkerId → Int

namespace PortOut

/-- `Init` for a port with `numQueues` outgoing queues; `ret` is what `AcquireQueues` returned. -/
def init (portName : String) (numQueues : Queue8) (ret : Int) : Except Failure PortOut :=
  if numQueues = 0 then .error (.msg ENODEV ("Port " ++ portName ++ " has no outgoing queue"))
  else
    let s : PortOut := ⟨(List.range numQueues.toNat).map (BitVec.ofNat 8), fun _ => -1⟩
    if ret < 0 then .error (.errno (-ret).toNat) else .ok s

/-- The first loop of `OnEvent`. -/
def reclaim (actives : Actives) (s : PortOut) (i : WorkerId) : PortOut :=
  if actives i then s
  else
    { availableQueues :=
        if 0 ≤ s.workerQueues i then s.availableQueues ++ [BitVec.ofInt 8 (s.workerQueues i)]
        else s.availableQueues
      workerQueues := Function.update s.workerQueues i (-1) }

/-- The second loop of `OnEvent`; `none` if its `CHECK` fails. -/
def assign (actives : Actives) (s : PortOut) (i : WorkerId) : Option PortOut :=
  if actives i ∧ s.workerQueues i < 0 then
    s.availableQueues.getLast?.map fun q =>
      { availableQueues := s.availableQueues.dropLast
        workerQueues := Function.update s.workerQueues i q.toNat }
  else some s

/-- `OnEvent` for `PreResume`, the only event there is. -/
def onEvent (actives : Actives) (s : PortOut) : Option (Int × PortOut) :=
  ((List.finRange kMaxWorkers).foldlM (assign actives)
    ((List.finRange kMaxWorkers).foldl (reclaim actives) s)).map fun s => (0, s)

/-- One event for each set of active workers. -/
def run (s : PortOut) : List Actives → Option PortOut
  | [] => some s
  | actives :: history => (s.onEvent actives).bind fun r => r.2.run history

/-! ## What holds after an event -/

/-- Queue `q` belongs to worker `i`. -/
def Owns (s : PortOut) (i : WorkerId) (q : Nat) : Prop := s.workerQueues i = q

structure Assigned (numQueues : Nat) (actives : Actives) (s : PortOut) : Prop where
  active : ∀ i, actives i = true → ∃ q < numQueues, s.Owns i q
  inactive : ∀ i, actives i = false → s.workerQueues i = -1
  distinct : ∀ i j q, s.Owns i q → s.Owns j q → i = j
  availableNodup : s.availableQueues.Nodup
  partition : ∀ q : Nat, q < numQueues ↔
    q ∈ s.availableQueues.map BitVec.toNat ∨ ∃ i, s.Owns i q
  apart : ∀ i, ∀ q ∈ s.availableQueues, ¬ s.Owns i q.toNat

/-! ## The invariant -/

/-- The queue of a worker. -/
def held (s : PortOut) (i : WorkerId) : Option Queue8 :=
  if 0 ≤ s.workerQueues i then some (BitVec.ofInt 8 (s.workerQueues i)) else none

def queues (numQueues : Queue8) : List Queue8 := (List.range numQueues.toNat).map (BitVec.ofNat 8)

/-- The queues are split, and a worker without one is marked with -1. -/
structure Tidy (numQueues : Queue8) (s : PortOut) : Prop where
  split : Split (queues numQueues) s.availableQueues s.held
  small : ∀ i, -1 ≤ s.workerQueues i ∧ s.workerQueues i < 256

variable {numQueues : Queue8} {s s' : PortOut} {actives : Actives} {i : WorkerId}

theorem toNat_ofNat_of_lt {q : Nat} (h : q < numQueues.toNat) : (BitVec.ofNat 8 q).toNat = q := by
  have := numQueues.isLt
  rw [BitVec.toNat_ofNat, Nat.mod_eq_of_lt (by omega)]

theorem nodup_queues (numQueues : Queue8) : (queues numQueues).Nodup := by
  refine (List.nodup_map_iff_inj_on List.nodup_range).mpr fun a ha b hb he => ?_
  rw [← toNat_ofNat_of_lt (List.mem_range.mp ha), he, toNat_ofNat_of_lt (List.mem_range.mp hb)]

theorem length_queues (numQueues : Queue8) : (queues numQueues).length = numQueues.toNat := by
  rw [queues, List.length_map, List.length_range]

theorem mem_queues {q : Queue8} : q ∈ queues numQueues ↔ q.toNat < numQueues.toNat := by
  unfold queues
  rw [List.mem_map]
  constructor
  · rintro ⟨k, hk, rfl⟩
    rw [toNat_ofNat_of_lt (List.mem_range.mp hk)]
    exact List.mem_range.mp hk
  · intro hq
    exact ⟨q.toNat, List.mem_range.mpr hq, BitVec.ofNat_toNat 8 q |>.trans (BitVec.setWidth_eq q)⟩

theorem held_eq_none (h : s.workerQueues i < 0) : s.held i = none := if_neg (by omega)

theorem Tidy.held_eq_some (h : Tidy numQueues s) {q : Queue8} :
    s.held i = some q ↔ s.workerQueues i = q.toNat := by
  have hsmall := h.small i
  have hq := q.isLt
  unfold held
  split
  · rename_i hpos
    have hval : (BitVec.ofInt 8 (s.workerQueues i)).toNat = s.workerQueues i := by
      rw [BitVec.toNat_ofInt]
      omega
    rw [Option.some.injEq, ← BitVec.toNat_inj]
    omega
  · constructor
    · intro hnone
      cases hnone
    · intro heq
      omega

theorem held_update (s : PortOut) (i : WorkerId) (q : Int) (free : List Queue8) :
    held ⟨free, Function.update s.workerQueues i q⟩ =
      Function.update s.held i (if 0 ≤ q then some (BitVec.ofInt 8 q) else none) := by
  funext j
  by_cases hj : j = i
  · subst hj
    simp [held]
  · simp [held, hj]

theorem tidy_init {portName : String} {ret : Int} (h : init portName numQueues ret = .ok s) :
    Tidy numQueues s := by
  unfold init at h
  split at h
  · cases h
  simp only at h
  split at h
  · cases h
  · cases h
    exact ⟨split_of_free (nodup_queues _) fun i => rfl, fun i => by simp⟩

/-! ## The first loop -/

theorem workerQueues_reclaim (j : WorkerId) : (reclaim actives s i).workerQueues j =
    if j = i ∧ actives i = false then -1 else s.workerQueues j := by
  unfold reclaim
  cases ha : actives i with
  | true => simp
  | false =>
    by_cases hj : j = i
    · simp [hj]
    · simp [hj]

theorem Tidy.reclaim (h : Tidy numQueues s) (actives : Actives) (i : WorkerId) :
    Tidy numQueues (reclaim actives s i) := by
  refine ⟨?_, fun j => ?_⟩
  · unfold PortOut.reclaim
    split
    · exact h.split
    simp only [held_update]
    by_cases hpos : 0 ≤ s.workerQueues i
    · rw [if_pos hpos]
      exact h.split.release (if_pos hpos)
    · have hnone := held_eq_none (Int.not_le.mp hpos)
      rw [if_neg hpos, if_neg (by decide), ← hnone, Function.update_eq_self]
      exact h.split
  · rw [workerQueues_reclaim]
    split
    · omega
    · exact h.small j

theorem Tidy.reclaimAll (h : Tidy numQueues s) (actives : Actives) (ws : List WorkerId) :
    Tidy numQueues (ws.foldl (PortOut.reclaim actives) s) ∧ ∀ j,
      (ws.foldl (PortOut.reclaim actives) s).workerQueues j =
        if j ∈ ws ∧ actives j = false then -1 else s.workerQueues j := by
  induction ws generalizing s with
  | nil => exact ⟨h, fun j => by simp⟩
  | cons w ws ih =>
    obtain ⟨htidy, hqueue⟩ := ih (h.reclaim actives w)
    refine ⟨htidy, fun j => ?_⟩
    rw [List.foldl_cons, hqueue, workerQueues_reclaim]
    simp only [List.mem_cons]
    by_cases hj : j = w
    · subst hj
      cases actives j <;> simp
    · simp [hj]

/-! ## The second loop -/

/-- In the second loop only active workers own a queue. -/
structure Assigning (numQueues : Queue8) (actives : Actives) (s : PortOut) : Prop where
  tidy : Tidy numQueues s
  inactive : ∀ i, actives i = false → s.workerQueues i = -1

/-- With no more active workers than queues one is left for a worker that owns none. -/
theorem Assigning.available (h : Assigning numQueues actives s)
    (hcount : numActiveWorkers actives ≤ numQueues.toNat) (ha : actives i = true)
    (hi : s.workerQueues i < 0) : s.availableQueues ≠ [] := by
  refine h.tidy.split.exists_free (nodup_queues _) ((List.finRange kMaxWorkers).filter actives) ?_
    (fun j hj => ?_) ?_ (held_eq_none hi)
  · rw [length_queues, ← List.countP_eq_length_filter]
    exact hcount
  · refine List.mem_filter.mpr ⟨List.mem_finRange j, ?_⟩
    cases haj : actives j with
    | true => rfl
    | false => exact absurd (held_eq_none (by rw [h.inactive j haj]; decide)) hj
  · exact List.mem_filter.mpr ⟨List.mem_finRange i, ha⟩

theorem Assigning.assign (h : Assigning numQueues actives s)
    (hcount : numActiveWorkers actives ≤ numQueues.toNat) (i : WorkerId) :
    ∃ s', PortOut.assign actives s i = some s' ∧ Assigning numQueues actives s' ∧
      (actives i = true → 0 ≤ s'.workerQueues i) ∧
      ∀ j, 0 ≤ s.workerQueues j → s'.workerQueues j = s.workerQueues j := by
  unfold PortOut.assign
  split
  · rename_i hi
    obtain ⟨free, q, hfree⟩ := List.eq_nil_or_concat' s.availableQueues |>.resolve_left
      (h.available hcount hi.1 hi.2)
    have hq := q.isLt
    have hqueue : ∀ j, Function.update s.workerQueues i (q.toNat : Int) j =
        if j = i then (q.toNat : Int) else s.workerQueues j := fun j => Function.update_apply ..
    refine ⟨⟨free, Function.update s.workerQueues i q.toNat⟩, by simp [hfree], ⟨⟨?_, fun j => ?_⟩,
      fun j hj => ?_⟩, fun _ => ?_, fun j hj => ?_⟩
    · rw [held_update, if_pos (Int.natCast_nonneg _), BitVec.ofInt_natCast, BitVec.ofNat_toNat,
        BitVec.setWidth_eq]
      have hsplit := h.tidy.split
      rw [hfree] at hsplit
      exact hsplit.acquire (held_eq_none hi.2)
    · simp only [hqueue]
      split
      · omega
      · exact h.tidy.small j
    · simp only [hqueue]
      rw [if_neg, h.inactive j hj]
      rintro rfl
      rw [hi.1] at hj
      cases hj
    · simp only [hqueue, if_true]
      omega
    · simp only [hqueue]
      rw [if_neg]
      rintro rfl
      omega
  · rename_i hi
    refine ⟨s, rfl, h, fun ha => ?_, fun j _ => rfl⟩
    by_contra hneg
    exact hi ⟨ha, by omega⟩

theorem Assigning.assignAll (h : Assigning numQueues actives s)
    (hcount : numActiveWorkers actives ≤ numQueues.toNat) (ws : List WorkerId) :
    ∃ s', ws.foldlM (PortOut.assign actives) s = some s' ∧ Assigning numQueues actives s' ∧
      (∀ i ∈ ws, actives i = true → 0 ≤ s'.workerQueues i) ∧
      ∀ j, 0 ≤ s.workerQueues j → s'.workerQueues j = s.workerQueues j := by
  induction ws generalizing s with
  | nil => exact ⟨s, rfl, h, by simp, fun j _ => rfl⟩
  | cons w ws ih =>
    obtain ⟨s₁, hs₁, h₁, hw, hkeep₁⟩ := h.assign hcount w
    obtain ⟨s₂, hs₂, h₂, hws, hkeep₂⟩ := ih h₁
    refine ⟨s₂, ?_, h₂, fun i hi ha => ?_, fun j hj => ?_⟩
    · rw [List.foldlM_cons, hs₁]
      exact hs₂
    · rcases List.mem_cons.mp hi with rfl | hi
      · rw [hkeep₂ i (hw ha)]
        exact hw ha
      · exact hws i hi ha
    · rw [hkeep₂ j (by rw [hkeep₁ j hj]; exact hj), hkeep₁ j hj]

/-! ## Events -/

theorem Assigning.assigned (h : Assigning numQueues actives s)
    (hall : ∀ i, actives i = true → 0 ≤ s.workerQueues i) :
    Assigned numQueues.toNat actives s := by
  have howned : ∀ i q, s.Owns i q → ∃ x : Queue8, x.toNat = q ∧ s.held i = some x := fun i q hq => by
    have hq : s.workerQueues i = q := hq
    have hsmall := h.tidy.small i
    refine ⟨BitVec.ofNat 8 q, ?_, h.tidy.held_eq_some.mpr ?_⟩
    · rw [BitVec.toNat_ofNat]
      omega
    · rw [BitVec.toNat_ofNat]
      omega
  have hlt : ∀ i q, s.Owns i q → q < numQueues.toNat := fun i q hq => by
    obtain ⟨x, rfl, hx⟩ := howned i q hq
    exact mem_queues.mp ((h.tidy.split.mem x).mpr (.inr ⟨i, hx⟩))
  refine ⟨fun i ha => ?_, h.inactive, fun i j q hi hj => ?_, h.tidy.split.freeNodup, fun q => ?_,
    fun i q hq howns => ?_⟩
  · have hown : s.Owns i (s.workerQueues i).toNat := (Int.toNat_of_nonneg (hall i ha)).symm
    exact ⟨_, hlt i _ hown, hown⟩
  · obtain ⟨x, rfl, hx⟩ := howned i q hi
    exact h.tidy.split.inj i j x hx (h.tidy.held_eq_some.mpr hj)
  · constructor
    · intro hq
      have hmem := mem_queues.mpr (show (BitVec.ofNat 8 q).toNat < numQueues.toNat by
        rwa [toNat_ofNat_of_lt hq])
      rcases (h.tidy.split.mem _).mp hmem with hfree | ⟨i, hi⟩
      · exact .inl (List.mem_map.mpr ⟨_, hfree, toNat_ofNat_of_lt hq⟩)
      · refine .inr ⟨i, ?_⟩
        have := h.tidy.held_eq_some.mp hi
        rwa [toNat_ofNat_of_lt hq] at this
    · rintro (hfree | ⟨i, hi⟩)
      · obtain ⟨x, hx, rfl⟩ := List.mem_map.mp hfree
        exact mem_queues.mp ((h.tidy.split.mem x).mpr (.inl hx))
      · exact hlt i q hi
  · exact h.tidy.split.apart q i hq (h.tidy.held_eq_some.mpr howns)

/-- One event: the workers get their queues, and those that have one keep it. -/
theorem Tidy.onEvent (h : Tidy numQueues s) (hcount : numActiveWorkers actives ≤ numQueues.toNat) :
    ∃ s', PortOut.onEvent actives s = some (0, s') ∧ Tidy numQueues s' ∧
      Assigned numQueues.toNat actives s' ∧
      ∀ i, actives i = true → 0 ≤ s.workerQueues i → s'.workerQueues i = s.workerQueues i := by
  obtain ⟨htidy, hqueue⟩ := h.reclaimAll actives (List.finRange kMaxWorkers)
  have hassigning : Assigning numQueues actives
      ((List.finRange kMaxWorkers).foldl (PortOut.reclaim actives) s) :=
    ⟨htidy, fun i hi => by rw [hqueue, if_pos ⟨List.mem_finRange i, hi⟩]⟩
  obtain ⟨s', hs', h', hall, hkeep⟩ := hassigning.assignAll hcount (List.finRange kMaxWorkers)
  refine ⟨s', by rw [PortOut.onEvent, hs']; rfl, h'.tidy,
    h'.assigned fun i => hall i (List.mem_finRange i), fun i ha hi => ?_⟩
  have hsame : ((List.finRange kMaxWorkers).foldl (PortOut.reclaim actives) s).workerQueues i =
      s.workerQueues i := by
    rw [hqueue, if_neg (by simp [ha])]
  rw [hkeep i (by rw [hsame]; exact hi), hsame]

/-- The last event says which workers own a queue. -/
theorem Tidy.run (h : Tidy numQueues s) (history : List Actives)
    (hcount : ∀ a ∈ history, numActiveWorkers a ≤ numQueues.toNat) :
    ∃ s', s.run history = some s' ∧ Tidy numQueues s' ∧
      ∀ b ∈ history.getLast?, Assigned numQueues.toNat b s' := by
  induction history generalizing s with
  | nil => exact ⟨s, rfl, h, by simp⟩
  | cons a history ih =>
    obtain ⟨ha, hrest⟩ := List.forall_mem_cons.mp hcount
    obtain ⟨s₁, hs₁, h₁, hassigned, -⟩ := h.onEvent ha
    obtain ⟨s₂, hs₂, h₂, hlast⟩ := ih h₁ hrest
    refine ⟨s₂, by rw [PortOut.run, hs₁]; exact hs₂, h₂, fun b hb => ?_⟩
    cases history with
    | nil =>
      cases hb
      cases hs₂
      exact hassigned
    | cons c history => exact hlast b (by simpa using hb)

/-- After each event of a history in which no more workers are active than there are queues, the
queues are assigned; workers that stay active keep theirs, and the `CHECK` never fails. -/
theorem queues_assigned {portName : String} {ret : Int} {s₀ : PortOut}
    (hinit : init portName numQueues ret = .ok s₀) (history : List Actives) (actives : Actives)
    (hcount : ∀ a ∈ history ++ [actives], numActiveWorkers a ≤ numQueues.toNat) :
    ∃ s s', s₀.run history = some s ∧ s.onEvent actives = some (0, s') ∧
      Assigned numQueues.toNat actives s' ∧
      ∀ before ∈ history.getLast?, ∀ i, before i = true → actives i = true →
        s'.workerQueues i = s.workerQueues i := by
  obtain ⟨hhistory, hlast⟩ := List.forall_mem_append.mp hcount
  obtain ⟨s, hs, htidy, hbefore⟩ := (tidy_init hinit).run history hhistory
  obtain ⟨s', hs', -, hassigned, hkeep⟩ := htidy.onEvent (hlast actives (List.mem_singleton_self _))
  refine ⟨s, s', hs, hs', hassigned, fun before hb i hi ha => hkeep i ha ?_⟩
  obtain ⟨q, -, hq⟩ := (hbefore before hb).active i hi
  have hq : s.workerQueues i = q := hq
  omega

/-- Worker 1 takes the queue that worker 0 gives back. -/
theorem queues_assigned_handover :
    ∃ s s', (⟨[0], fun _ => -1⟩ : PortOut).run [fun i => i == 0] = some s ∧
      s.onEvent (fun i => i == 1) = some (0, s') ∧ Assigned 1 (fun i => i == 1) s' ∧
      ∀ before ∈ [(fun i => i == 0 : Actives)].getLast?, ∀ i, before i = true → (i == 1) = true →
        s'.workerQueues i = s.workerQueues i :=
  @queues_assigned 1 "p" 0 _ rfl [fun i => i == 0] (fun i => i == 1)
    (List.forall_mem_cons.mpr
      ⟨by decide +kernel, List.forall_mem_singleton.mpr (by decide +kernel)⟩)

end PortOut

end Bess.Modules
