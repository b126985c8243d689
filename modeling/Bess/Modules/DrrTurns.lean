import Bess.Modules.DrrFlows

/-!
# The turns of deficit round robin

A call of `GetNextBatch` is a sequence of turns. At each the first flow of the ring is removed, or goes
to the end of the ring, after it sent packets if it has any. `count` keeps the loop within the ring,
and a round in which nothing was sent ends it.
-/

namespace Bess.Modules.Drr

open Bess.Cuckoo

variable {P τ : Type} {E : Env P τ} {s s' : Drr P τ} {f g : Flow P τ} {pkts batch batch' : List P}

/-! ## One turn -/

/-- What a turn does, with room for `room` packets in the batch. -/
inductive Visited (E : Env P τ) (s : Drr P τ) (room : Nat) : Drr P τ → List P → Prop
  | removed {r : Nat} {f : Flow P τ} {ring : Ring Nat}
    (hring : s.flowRing.items = r :: ring.items) (hf : s.heap r = some f)
    (hempty : f.packets = []) :
    Visited E s room
      { s with
        flowRing := ring
        flows := (s.flows.remove E.hashing f.id).2
        heap := Function.update s.heap r none } []
  | kept {r : Nat} {f : Flow P τ} {rest : List Nat} {ring : Ring Nat}
    (hring : s.flowRing.items = r :: rest) (hring' : ring.items = rest ++ [r])
    (hf : s.heap r = some f) (hempty : f.packets = []) :
    Visited E s room { s with flowRing := ring } []
  | served {r : Nat} {f : Flow P τ} {rest : List Nat} {ring : Ring Nat}
    (hring : s.flowRing.items = r :: rest) (hring' : ring.items = rest ++ [r])
    (hf : s.heap r = some f) (hne : f.packets ≠ []) :
    Visited E s room
      { s with
        flowRing := ring
        heap := Function.update s.heap r (some (f.serve E s.quantum room).1) }
      (f.serve E s.quantum room).2

variable {room : Nat} {l : Loop P τ}

theorem Flow.serve_parked (quantum : UInt32) (hroom : 0 < room) (f : Flow P τ) :
    ((f.serve E quantum room).1.nextPacket.all fun pkt =>
      (f.serve E quantum room).1.deficit < E.totalLen pkt) = true := by
  unfold Flow.serve
  simp only
  split
  · rename_i hempty
    rw [Flow.isEmpty, Bool.and_eq_true, Option.isNone_iff_eq_none] at hempty
    simp [hempty.2]
  · rw [Option.all_eq_true]
    intro pkt hpkt
    exact decide_eq_true (getNextPackets_parked (.inl hroom) hpkt)

theorem Linked.visit (h : Linked E s) (hne : s.flowRing.items ≠ []) (hroom : batch.length < maxBurst)
    (now : τ) : ∃ s' pkts, s.visit E batch now = some (s', batch ++ pkts) ∧
      Visited E s (maxBurst - batch.length) s' pkts := by
  obtain ⟨r, rest, hring⟩ := List.exists_cons_of_ne_nil hne
  obtain ⟨ring, ring', hdeq, hrest, henq, hring'⟩ := Ring.exists_rotate hring
  have hmem : r ∈ s.flowRing.items := by
    rw [hring]
    exact List.mem_cons_self ..
  obtain ⟨f, hf⟩ := Option.isSome_iff_exists.mp ((h.live r).mp hmem)
  have hcurrent := h.current
  unfold Drr.visit getNextFlow
  simp only [hcurrent, hdeq, hf, Option.bind_eq_bind, Option.bind_some]
  by_cases hempty : f.isEmpty = true
  · have hnil := Flow.isEmpty_iff.mp hempty
    rw [if_pos hempty]
    by_cases hexp : E.expired now f.timer = true
    · refine ⟨{ s with
        flowRing := ring
        flows := (s.flows.remove E.hashing f.id).2
        heap := Function.update s.heap r none }, [], ?_, .removed (hrest ▸ hring) hf hnil⟩
      have hitems : f.queue.items = [] ∧ f.nextPacket = none := by
        simpa [Flow.packets, and_comm] using hnil
      simp [hexp, removeFlow, hcurrent, hitems.1, hitems.2]
    · refine ⟨{ s with flowRing := ring' }, [], ?_, .kept hring hring' hf hnil⟩
      simp [hexp, henq, hcurrent]
  · have hnil : f.packets ≠ [] := fun hn => hempty (Flow.isEmpty_iff.mpr hn)
    refine ⟨_, _, ?_, .served hring hring' hf hnil⟩
    have hparked := Flow.serve_parked (E := E) s.quantum (Nat.sub_pos_of_lt hroom) f
    rw [Flow.serve] at hparked
    rw [if_neg hempty]
    simp only [Option.bind_some, Function.update_self, Function.update_idem]
    rw [if_pos hparked]
    simp [henq, hcurrent, Flow.serve]

theorem heap_of_removed {heap : Nat → Option (Flow P τ)} {r r' : Nat}
    (hg : Function.update heap r none r' = some g) : r' ≠ r ∧ heap r' = some g := by
  rcases update_cases hg with ⟨-, he⟩ | hg
  · cases he
  · exact hg

theorem Linked.remove (h : Linked E s) {r : Nat} {ring : Ring Nat}
    (hring : s.flowRing.items = r :: ring.items) (hf : s.heap r = some f) :
    Linked E { s with
      flowRing := ring
      flows := (s.flows.remove E.hashing f.id).2
      heap := Function.update s.heap r none } := by
  obtain ⟨hrep, hlook⟩ := h.rep.remove_update Env.hashing_eq_iff f.id
  have hnodup := h.nodup
  rw [hring, List.nodup_cons] at hnodup
  refine
    { current := h.current
      nodup := hnodup.2
      live := fun r' => ?_
      below := fun r' g hg => h.below r' g (heap_of_removed hg).2
      rep := hrep
      table := fun id r' => ?_ }
  · by_cases hr : r' = r
    · subst hr
      simp [hnodup.1]
    · simp only [Function.update_of_ne hr]
      rw [← h.live, hring, List.mem_cons, or_iff_right hr]
  · simp only [hlook]
    by_cases hid : id = f.id
    · subst hid
      rw [Function.update_self]
      refine iff_of_false (by simp) ?_
      rintro ⟨g, hg, hid⟩
      obtain ⟨hne, hg⟩ := heap_of_removed hg
      exact hne (h.unique hg hf hid)
    · rw [Function.update_of_ne hid, h.table]
      constructor
      · rintro ⟨g, hg, rfl⟩
        have hne : r' ≠ r := by
          rintro rfl
          rw [hf] at hg
          cases hg
          exact hid rfl
        exact ⟨g, (Function.update_of_ne hne ..).trans hg, rfl⟩
      · rintro ⟨g, hg, rfl⟩
        exact ⟨g, (heap_of_removed hg).2, rfl⟩

theorem perm_rotate {α : Type} {x : α} {l l' rest : List α} (hl : l = x :: rest)
    (hl' : l' = rest ++ [x]) : l'.Perm l := by
  rw [hl, hl']
  exact List.perm_append_singleton x rest

theorem Visited.linked (h : Linked E s) (hv : Visited E s room s' pkts) : Linked E s' := by
  cases hv with
  | removed hring hf hempty => exact h.remove hring hf
  | kept hring hring' hf hempty => exact h.rotate (perm_rotate hring hring')
  | @served r f rest ring hring hring' hf hne =>
    have hd := (Flow.serve_drains (E := E) s.quantum room f).1
    exact (h.rotate (perm_rotate hring hring')).setFlow hf hd.id s.freed

theorem Visited.inv (h : Inv E s) (hv : Visited E s room s' pkts) : Inv E s' := by
  refine (hv.linked h.linked).inv fun r' g hg => ?_
  cases hv with
  | removed hring hf hempty => exact h.good r' g (heap_of_removed hg).2
  | kept hring hring' hf hempty => exact h.good r' g hg
  | @served r f rest ring hring hring' hf hne =>
    exact h.good_update ((h.good _ _ hf).drains (Flow.serve_drains s.quantum room f).1) hg

/-- What is sent at a turn are the first packets of an id. -/
theorem Visited.waiting (h : Inv E s) (hv : Visited E s room s' pkts) (id : FlowId) :
    E.ofId id s.waiting = E.ofId id pkts ++ E.ofId id s'.waiting := by
  have h' := hv.inv h
  cases hv with
  | @removed r f ring hring hf hempty =>
    by_cases hid : f.id = id
    · subst hid
      rw [h.waiting_of_flow hf, h'.waiting_of_none, hempty]
      · rfl
      · intro r' g hg hid
        rcases update_cases hg with ⟨-, he⟩ | ⟨hne, hg⟩
        · cases he
        · exact hne (h.linked.unique hg hf hid)
    · refine (h.waiting_other h' rfl ?_).symm
      rintro g (hg | hg)
      · cases hf.symm.trans hg
        exact hid
      · cases hg
  | @kept r f rest ring hring hring' hf hempty =>
    by_cases hex : ∃ r' g, s.heap r' = some g ∧ g.id = id
    · obtain ⟨r', g, hg, rfl⟩ := hex
      rw [h.waiting_of_flow hg, h'.waiting_of_flow hg]
      rfl
    · have hnone : ∀ r' g, s.heap r' = some g → g.id ≠ id := fun r' g hg he => hex ⟨r', g, hg, he⟩
      rw [h.waiting_of_none hnone, h'.waiting_of_none hnone]
      rfl
  | @served r f rest ring hring hring' hf hne =>
    have hd := (Flow.serve_drains (E := E) s.quantum room f).1
    have hsent : ∀ p ∈ (f.serve E s.quantum room).2, p ∈ f.packets := by
      intro p hp
      rw [hd.packets]
      exact List.mem_append_left _ hp
    rw [(h.good r f hf).ofId hsent]
    split
    · rename_i hid
      subst hid
      have hnow := h'.waiting_of_flow (Function.update_self r _ s.heap)
      rw [hd.id] at hnow
      rw [hnow, h.waiting_of_flow hf]
      exact hd.packets
    · rename_i hid
      refine (h.waiting_other h' rfl ?_).symm
      rintro g (hg | hg)
      · cases hf.symm.trans hg
        exact hid
      · cases hg
        rwa [hd.id]

theorem Visited.frame (hv : Visited E s room s' pkts) :
    s'.quantum = s.quantum ∧ s'.maxQueueSize = s.maxQueueSize ∧ s'.freed = s.freed := by
  cases hv <;> exact ⟨rfl, rfl, rfl⟩

theorem Visited.length_le (hv : Visited E s room s' pkts) : pkts.length ≤ room := by
  cases hv with
  | removed | kept => exact Nat.zero_le _
  | served => exact (Flow.serve_drains _ _ _).2

/-- The ring loses at most the flow whose turn it is, and then nothing was sent. -/
theorem Visited.count (hv : Visited E s room s' pkts) : s'.flowRing.count = s.flowRing.count ∨
      s'.flowRing.count + 1 = s.flowRing.count ∧ pkts = [] := by
  unfold Ring.count
  cases hv with
  | removed hring hf hempty => exact .inr ⟨by rw [hring, List.length_cons], rfl⟩
  | kept hring hring' hf hempty => exact .inl (perm_rotate hring hring').length_eq
  | served hring hring' hf hne => exact .inl (perm_rotate hring hring').length_eq

/-! ## The loop -/

/-- Turns one after the other, each from a state and a batch with room in it of which `Q` holds. -/
inductive Visits (E : Env P τ) (Q : Drr P τ → List P → Prop) :
    Drr P τ → List P → Drr P τ → List P → Prop
  | refl (s : Drr P τ) (batch : List P) : Visits E Q s batch s batch
  | step {s s₁ s' : Drr P τ} {batch pkts batch' : List P} (hroom : batch.length < maxBurst)
    (hq : Q s batch) (hv : Visited E s (maxBurst - batch.length) s₁ pkts)
    (hrest : Visits E Q s₁ (batch ++ pkts) s' batch') : Visits E Q s batch s' batch'

variable {Q : Drr P τ → List P → Prop}

theorem Visits.mono {Q' : Drr P τ → List P → Prop} (h : Visits E Q s batch s' batch')
    (hq : ∀ u b, Q u b → Q' u b) : Visits E Q' s batch s' batch' := by
  induction h with
  | refl s batch => exact .refl s batch
  | step hroom hQ hv hrest ih => exact .step hroom (hq _ _ hQ) hv ih

theorem Visits.linked (hv : Visits E Q s batch s' batch') (h : Linked E s) : Linked E s' := by
  induction hv with
  | refl => exact h
  | step hroom hq hv hrest ih => exact ih (hv.linked h)

theorem Visits.inv (hv : Visits E Q s batch s' batch') (h : Inv E s) : Inv E s' := by
  induction hv with
  | refl => exact h
  | step hroom hq hv hrest ih => exact ih (hv.inv h)

theorem Visits.frame (hv : Visits E Q s batch s' batch') :
    s'.quantum = s.quantum ∧ s'.maxQueueSize = s.maxQueueSize ∧ s'.freed = s.freed := by
  induction hv with
  | refl => exact ⟨rfl, rfl, rfl⟩
  | step hroom hq hv hrest ih =>
    obtain ⟨h1, h2, h3⟩ := hv.frame
    exact ⟨ih.1.trans h1, ih.2.1.trans h2, ih.2.2.trans h3⟩

theorem Visits.length_le (hv : Visits E Q s batch s' batch') (h : batch.length ≤ maxBurst) :
    batch'.length ≤ maxBurst := by
  induction hv with
  | refl => exact h
  | step hroom hq hv hrest ih =>
    refine ih ?_
    have := hv.length_le
    rw [List.length_append]
    omega

/-- The packets of an id leave from the front of those that wait. -/
theorem Visits.waiting (hv : Visits E Q s batch s' batch') (h : Inv E s) :
    ∃ pkts, batch' = batch ++ pkts ∧
      ∀ id, E.ofId id s.waiting = E.ofId id pkts ++ E.ofId id s'.waiting := by
  induction hv with
  | refl s batch => exact ⟨[], (List.append_nil _).symm, fun id => rfl⟩
  | @step s s₁ s' batch pkts batch' hroom hq hv hrest ih =>
    obtain ⟨pkts', hbatch, hwait⟩ := ih (hv.inv h)
    refine ⟨pkts ++ pkts', by rw [hbatch, List.append_assoc], fun id => ?_⟩
    rw [hv.waiting h, hwait, Env.ofId_append, List.append_assoc]

/-- The part of it that is about the counters. -/
structure Loop.Counted (l : Loop P τ) : Prop where
  count : l.count ≤ l.drr.flowRing.count
  behind : l.batchSize < l.batch.length → l.count < l.drr.flowRing.count
  batchSize : l.batchSize ≤ l.batch.length
  batch : l.batch.length ≤ maxBurst

/-- It falls with every turn, if the ring has at most `n` flows. -/
def Loop.weight (n : Nat) (l : Loop P τ) : Nat := (maxBurst - l.batchSize) * (n + 1) + l.count

theorem Loop.Counted.turn {l₁ : Loop P τ} (h : l.Counted) (ht : l.turn = some l₁) :
    l₁.drr = l.drr ∧ l₁.batch = l.batch ∧ l.batch.length < maxBurst ∧
      l₁.count < l.drr.flowRing.count ∧ l₁.batchSize ≤ l.batch.length ∧
      (l₁.batchSize < l.batch.length → l₁.count + 1 < l.drr.flowRing.count) ∧
      ∀ n, l.drr.flowRing.count ≤ n → l₁.weight n < l.weight n := by
  have hsize := h.batchSize
  have hcount := h.count
  have hbehind := h.behind
  unfold Loop.turn at ht
  split at ht
  · cases ht
  · rename_i hroom
    have hroom : l.batch.length < maxBurst := Nat.lt_of_not_le hroom
    split at ht
    · rename_i hzero
      split at ht
      · cases ht
      · rename_i hsent
        cases ht
        have hlt : l.batchSize < l.batch.length := Nat.lt_of_le_of_ne hsize hsent
        have hpos := hbehind hlt
        refine ⟨rfl, rfl, hroom, Nat.sub_lt (by omega) Nat.one_pos, Nat.le_refl _,
          fun hn => absurd hn (Nat.lt_irrefl _), fun n hn => ?_⟩
        -- a new round: more packets in the batch than when the last one began
        have hmul : (maxBurst - l.batch.length + 1) * (n + 1) ≤ (maxBurst - l.batchSize) * (n + 1) :=
          Nat.mul_le_mul_right _ (by omega)
        rw [Nat.add_mul, Nat.one_mul] at hmul
        simp only [Loop.weight]
        omega
    · rename_i hpos
      cases ht
      refine ⟨rfl, rfl, hroom, by simp only; omega, hsize, fun hlt => ?_, fun n hn => ?_⟩
      · have := hbehind hlt
        simp only
        omega
      · simp only [Loop.weight]
        omega

/-- The states and batches with which the turns of the loop begin. -/
def Loop.turns (E : Env P τ) (clock : Nat → τ) : Nat → Loop P τ → List (Drr P τ × List P)
  | 0, _ => []
  | fuel + 1, l =>
    match l.turn with
    | none => []
    | some l =>
      (l.drr, l.batch) ::
        match l.drr.visit E l.batch (clock l.reads) with
        | none => []
        | some (drr, batch) => Loop.turns E clock fuel { l with drr, batch, reads := l.reads + 1 }

theorem Loop.Counted.visited {l₁ : Loop P τ} (h : l.Counted) (ht : l.turn = some l₁) (reads : Nat)
    (hv : Visited E l.drr (maxBurst - l.batch.length) s' pkts) :
    Loop.Counted { l₁ with drr := s', batch := l.batch ++ pkts, reads } := by
  obtain ⟨-, -, hroom, hcount, hsize, hbehind, -⟩ := h.turn ht
  have hlen := hv.length_le
  refine ⟨?_, ?_, ?_, ?_⟩
  · rcases hv.count with hc | ⟨hc, -⟩ <;> simp only <;> omega
  · simp only
    intro hlt
    rcases hv.count with hc | ⟨hc, rfl⟩
    · omega
    · rw [List.append_nil] at hlt
      have := hbehind hlt
      omega
  · simp only [List.length_append]
    omega
  · simp only [List.length_append]
    omega

theorem Loop.iterate_spec (clock : Nat → τ) (n : Nat) {fuel : Nat} (h : l.Counted) (hi : Linked E l.drr)
    (hn : l.drr.flowRing.count ≤ n) (hfuel : l.weight n < fuel) :
    ∃ l', Loop.iterate E clock fuel l = some l' ∧
      Visits E (fun s batch => (s, batch) ∈ Loop.turns E clock fuel l) l.drr l.batch l'.drr
        l'.batch := by
  induction fuel generalizing l with
  | zero => cases hfuel
  | succ fuel ih =>
    cases ht : l.turn with
    | none => exact ⟨l, by simp [Loop.iterate, ht], .refl ..⟩
    | some l₁ =>
      obtain ⟨hdrr, hbatch, hroom, hcount, -, -, hweight⟩ := h.turn ht
      have hne : l.drr.flowRing.items ≠ [] := by
        intro hnil
        rw [Ring.count, hnil] at hcount
        cases hcount
      obtain ⟨s', pkts, hvisit, hv⟩ := hi.visit hne hroom (clock l₁.reads)
      have hle : s'.flowRing.count ≤ n := by
        rcases hv.count with hc | ⟨hc, -⟩ <;> omega
      obtain ⟨l', hl', hvs⟩ := ih (h.visited ht (l₁.reads + 1) hv) (hv.linked hi) hle
        (Nat.lt_of_lt_of_le (hweight n hn) (Nat.le_of_lt_succ hfuel))
      refine ⟨l', ?_, .step hroom ?_ hv (hvs.mono fun u b hub => ?_)⟩
      · simpa [Loop.iterate, ht, hdrr, hbatch, hvisit] using hl'
      · simp [Loop.turns, ht, hdrr, hbatch]
      · simp only [Loop.turns, ht, hdrr, hbatch, hvisit]
        exact List.mem_cons_of_mem _ hub

/-- The states and batches with which the turns of a call of `GetNextBatch` begin. -/
def turns (E : Env P τ) (s : Drr P τ) (clock : Nat → τ) : List (Drr P τ × List P) :=
  Loop.turns E clock s.firstLoop.fuel s.firstLoop

theorem Linked.count_firstLoop (h : Linked E s) : s.firstLoop.count = s.flowRing.count := by
  simp [firstLoop, h.current]

theorem Linked.counted_firstLoop (h : Linked E s) : s.firstLoop.Counted :=
  ⟨h.count_firstLoop.le, fun hlt => absurd hlt (Nat.lt_irrefl 0), Nat.le_refl 0, Nat.zero_le _⟩

theorem Linked.getNextBatch (h : Linked E s) (clock : Nat → τ) :
    ∃ s' batch, s.getNextBatch E clock = some (s', batch) ∧
      Visits E (fun u b => (u, b) ∈ s.turns E clock) s [] s' batch := by
  have hfuel : s.firstLoop.weight s.flowRing.count < s.firstLoop.fuel := by
    rw [Loop.weight, Loop.fuel, h.count_firstLoop]
    simp only [firstLoop, Nat.add_mul, Nat.sub_zero]
    omega
  obtain ⟨l, hl, hv⟩ :=
    Loop.iterate_spec clock s.flowRing.count h.counted_firstLoop h (Nat.le_refl _) hfuel
  exact ⟨l.drr, l.batch, by simp [Drr.getNextBatch, hl], hv⟩

end Bess.Modules.Drr
