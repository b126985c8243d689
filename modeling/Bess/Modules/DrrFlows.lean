import Bess.Modules.Drr
import Mathlib.Data.List.Nodup
import Mathlib.Tactic.IntervalCases

/-!
# The flows of deficit round robin

What a turn does to the flow whose turn it is, and what holds of the flows between turns: each flow is
in the ring once, the table knows it by its id, and its packets are of that id. The packets that wait
are then those of one flow for each id.
-/

namespace Bess.Modules.Drr

open Bess.Cuckoo

variable {P τ : Type} {E : Env P τ} {s s' : Drr P τ} {f g : Flow P τ} {pkt : P} {pkts : List P}

/-! ## One flow -/

theorem Flow.isEmpty_iff : f.isEmpty = true ↔ f.packets = [] := by
  rw [Flow.isEmpty, Flow.packets, Bool.and_eq_true, List.isEmpty_iff, Option.isNone_iff_eq_none,
    List.append_eq_nil_iff, Option.toList_eq_nil_iff]
  exact and_comm

/-- The flow lost these packets from its front, and nothing else that matters for the others. -/
structure Drains (f : Flow P τ) (pkts : List P) (g : Flow P τ) : Prop where
  packets : f.packets = pkts ++ g.packets
  id : g.id = f.id
  slots : g.queue.slots = f.queue.slots

theorem Drains.refl (f : Flow P τ) : Drains f [] f := ⟨rfl, rfl, rfl⟩

theorem Flow.next_eq_none : f.next = none ↔ f.packets = [] := by
  unfold Flow.next Flow.packets
  cases f.nextPacket with
  | some p => simp
  | none => simp [Ring.dequeue_eq_none]

theorem Flow.next_spec (h : f.next = some (pkt, g)) :
    Drains f [pkt] g ∧ g.nextPacket = none ∧ g.deficit = f.deficit := by
  unfold Flow.next at h
  cases hp : f.nextPacket with
  | some p =>
    rw [hp] at h
    cases h
    exact ⟨⟨by simp [Flow.packets, hp], rfl, rfl⟩, rfl, rfl⟩
  | none =>
    rw [hp] at h
    obtain ⟨⟨p, q⟩, hq, he⟩ := Option.map_eq_some_iff.mp h
    cases he
    obtain ⟨hslots, hitems⟩ := Ring.dequeue_spec hq
    exact ⟨⟨by simp [Flow.packets, hp, hitems], rfl, hslots⟩, rfl, rfl⟩

theorem getNextPackets_drains (room : Nat) (f : Flow P τ) :
    Drains f (getNextPackets E room f).2 (getNextPackets E room f).1 ∧
      (getNextPackets E room f).2.length ≤ room := by
  induction room generalizing f with
  | zero => exact ⟨.refl f, Nat.le_refl _⟩
  | succ room ih =>
    rw [getNextPackets]
    cases hn : f.next with
    | none => exact ⟨.refl f, Nat.zero_le _⟩
    | some x =>
      obtain ⟨pkt, g⟩ := x
      obtain ⟨hd, hnone, hdef⟩ := Flow.next_spec hn
      simp only
      split
      · refine ⟨⟨?_, hd.id, hd.slots⟩, Nat.zero_le _⟩
        simpa [Flow.packets, hnone] using hd.packets
      · obtain ⟨hr, hlen⟩ := ih { g with deficit := toInt (g.deficit - E.totalLen pkt) }
        refine ⟨⟨?_, hr.id.trans hd.id, hr.slots.trans hd.slots⟩, Nat.succ_le_succ hlen⟩
        exact hd.packets.trans (congrArg (pkt :: ·) hr.packets)

/-- A packet is parked only if the deficit does not pay for it. -/
theorem getNextPackets_parked {room : Nat} (h : 0 < room ∨ f.nextPacket = none)
    (hp : (getNextPackets E room f).1.nextPacket = some pkt) :
    (getNextPackets E room f).1.deficit < E.totalLen pkt := by
  induction room generalizing f with
  | zero =>
    have hnone := h.resolve_left (Nat.lt_irrefl 0)
    rw [getNextPackets, hnone] at hp
    cases hp
  | succ room ih =>
    rw [getNextPackets] at hp ⊢
    cases hn : f.next with
    | none =>
      rw [hn] at hp
      have hnil := Flow.next_eq_none.mp hn
      simp [Flow.packets, show f.nextPacket = some pkt from hp] at hnil
    | some x =>
      obtain ⟨p, g⟩ := x
      rw [hn] at hp
      simp only at hp ⊢
      split at hp
      · rename_i hlt
        cases hp
        rwa [if_pos hlt]
      · rename_i hle
        rw [if_neg hle]
        exact ih (.inr (Flow.next_spec hn).2.1) hp

/-- The turn of a flow with packets: a quantum, the packets that it pays for, and no credit for a
flow without packets. -/
def Flow.serve (E : Env P τ) (quantum : UInt32) (room : Nat) (f : Flow P τ) : Flow P τ × List P :=
  let out := getNextPackets E room { f with deficit := toInt (f.deficit + quantum.toNat) }
  (if out.1.isEmpty then { out.1 with deficit := 0 } else out.1, out.2)

theorem Flow.serve_drains (quantum : UInt32) (room : Nat) (f : Flow P τ) :
    Drains f (f.serve E quantum room).2 (f.serve E quantum room).1 ∧
      (f.serve E quantum room).2.length ≤ room := by
  obtain ⟨hd, hlen⟩ := getNextPackets_drains (E := E) room
    { f with deficit := toInt (f.deficit + quantum.toNat) }
  refine ⟨⟨?_, ?_, ?_⟩, hlen⟩ <;> unfold Flow.serve <;> simp only <;> split
  · exact hd.packets
  · exact hd.packets
  · exact hd.id
  · exact hd.id
  · exact hd.slots
  · exact hd.slots

/-- The queue has its first number of slots, or twice as many, and so on. -/
def Grown (q : Ring P) : Prop := ∃ k, 11 ≤ k ∧ k ≤ 31 ∧ q.slots = 2 ^ k

theorem roundToPowerTwo_grown {k : Nat} (h : 11 ≤ k) (hk : k ≤ 30) :
    (roundToPowerTwo (UInt32.ofNat (2 ^ k - 1) * kQueueGrowthFactor)).toNat = 2 ^ (k + 1) := by
  interval_cases k <;> decide

/-- A packet that arrives is freed because the queue holds enough, or is the last of its flow. -/
inductive Enqueued (f : Flow P τ) (pkt : P) : Flow P τ → List (P × Cause) → Prop
  | dropped : Enqueued f pkt f [(pkt, .flowQueue)]
  | added {q : Ring P} {now : τ} (hitems : q.items = f.queue.items ++ [pkt]) (hgrown : Grown q) :
    Enqueued f pkt { f with queue := q, timer := now } []

theorem Grown.resize {q : Ring P} (h : Grown q) (hfull : q.isFull = true)
    (hmax : q.count + 1 < 2 ^ 31) :
    ∃ q', resizeQueue q (roundToPowerTwo (UInt32.ofNat q.count * kQueueGrowthFactor)).toNat =
      some (q', []) ∧ q'.items = q.items ∧ Grown q' ∧ q'.isFull = false ∧
      q'.slots = 2 * (q.count + 1) := by
  obtain ⟨k, hk, -, hslots⟩ := h
  have hcount : q.count = 2 ^ k - 1 := by
    have := of_decide_eq_true hfull
    unfold Ring.count
    omega
  have hpos : 0 < 2 ^ k := Nat.two_pow_pos k
  have hk30 : k ≤ 30 := by
    have : 2 ^ k < 2 ^ 31 := by omega
    have := (Nat.pow_lt_pow_iff_right (by decide)).mp this
    omega
  rw [hcount, roundToPowerTwo_grown hk hk30]
  have hinit : ∃ q₀ : Ring P, Ring.init (2 ^ (k + 1)) = some q₀ := by
    have hp : 2 ^ (k + 1) &&& (2 ^ (k + 1) - 1) = 0 := by
      rw [Nat.and_two_pow_sub_one_eq_mod, Nat.mod_self]
    exact ⟨_, dif_pos ⟨Nat.two_pow_pos _, hp⟩⟩
  obtain ⟨q₀, hq₀⟩ := hinit
  obtain ⟨hslots₀, hitems₀⟩ := Ring.init_spec hq₀
  obtain ⟨hs, hi, hl⟩ := Ring.pour_spec q.items q₀
  have hroom : q.items.length ≤ q₀.slots - 1 - q₀.count := by
    rw [hslots₀, Ring.count, hitems₀, List.length_nil]
    unfold Ring.count at hcount
    rw [pow_succ]
    omega
  rw [List.take_of_length_le hroom, hitems₀, List.nil_append] at hi
  rw [List.drop_of_length_le hroom] at hl
  refine ⟨(Ring.pour q.items q₀).2, ?_, hi, ⟨k + 1, by omega, by omega, hs.trans hslots₀⟩, ?_, ?_⟩
  · simp [resizeQueue, addQueue, hq₀, hl]
  · rw [Ring.isFull_eq_false, hi, hs, hslots₀, pow_succ]
    unfold Ring.count at hcount
    omega
  · rw [hs, hslots₀, pow_succ]
    omega

theorem Grown.makeSlot {q : Ring P} (h : Grown q) (hmax : q.count + 1 < 2 ^ 31) :
    ∃ q', makeSlot q = some (q', []) ∧ q'.items = q.items ∧ Grown q' ∧ q'.isFull = false ∧
      (q'.slots = q.slots ∨ q'.slots = 2 * (q.count + 1)) := by
  unfold Drr.makeSlot
  split
  · rename_i hfull
    obtain ⟨q', hq, hitems, hgrown, hfull', hslots⟩ := h.resize hfull hmax
    exact ⟨q', hq, hitems, hgrown, hfull', .inr hslots⟩
  · rename_i hfull
    exact ⟨_, rfl, rfl, h, by simpa using hfull, .inl rfl⟩

theorem enqueue_spec {maxQueueSize : UInt32} (hmax : maxQueueSize.toNat < 2 ^ 31)
    (h : Grown f.queue) (pkt : P) (now : τ) :
    ∃ g lost, enqueue maxQueueSize f pkt now = some (g, lost) ∧ Enqueued f pkt g lost := by
  unfold enqueue
  split
  · exact ⟨_, _, rfl, .dropped⟩
  · rename_i hroom
    obtain ⟨q, hq, hitems, hgrown, hfull, -⟩ := h.makeSlot (by omega)
    rw [hq]
    cases he : q.enqueue pkt with
    | none =>
      have := Ring.enqueue_eq_none.mp he
      have := Ring.isFull_eq_false.mp hfull
      omega
    | some q' =>
      obtain ⟨hslots, hitems'⟩ := Ring.enqueue_spec he
      refine ⟨{ f with queue := q', timer := now }, [], by simp [he], .added ?_ ?_⟩
      · rw [hitems', hitems]
      · unfold Grown at hgrown ⊢
        rwa [hslots]

variable {lost : List (P × Cause)} {r : Nat}

theorem Enqueued.id (h : Enqueued f pkt g lost) : g.id = f.id := by
  cases h <;> rfl

/-! ## All flows -/

/-- A packet of at least one byte, so short that the bytes of a batch of such packets are counted in
32 bits. -/
def Sized (E : Env P τ) (p : P) : Prop := 0 < (E.pktLen p).toNat ∧ (E.pktLen p).toNat < 2 ^ 27

instance (p : P) : Decidable (Sized E p) := inferInstanceAs (Decidable (_ ∧ _))

structure Good (E : Env P τ) (f : Flow P τ) : Prop where
  own : ∀ p ∈ f.packets, E.getId p = f.id
  sized : ∀ p ∈ f.packets, Sized E p
  grown : Grown f.queue

theorem Good.drains (h : Good E f) (hd : Drains f pkts g) : Good E g := by
  have hsub : ∀ p ∈ g.packets, p ∈ f.packets := by
    intro p hp
    rw [hd.packets]
    exact List.mem_append_right _ hp
  refine ⟨fun p hp => (h.own p (hsub p hp)).trans hd.id.symm, fun p hp => h.sized p (hsub p hp), ?_⟩
  unfold Grown
  rw [hd.slots]
  exact h.grown

theorem Enqueued.good (h : Enqueued f pkt g lost) (hf : Good E f)
    (hid : E.getId pkt = f.id) (hsized : Sized E pkt) : Good E g := by
  cases h with
  | dropped => exact hf
  | @added q now hitems hgrown =>
    have hpackets : (Flow.packets { f with queue := q, timer := now }) = f.packets ++ [pkt] := by
      simp [Flow.packets, hitems]
    refine ⟨fun p hp => ?_, fun p hp => ?_, hgrown⟩ <;>
      rcases List.mem_append.mp (hpackets ▸ hp) with hp | hp
    · exact hf.own p hp
    · rw [List.mem_singleton.mp hp]
      exact hid
    · exact hf.sized p hp
    · rw [List.mem_singleton.mp hp]
      exact hsized

/-- What holds between two turns. -/
structure Inv (E : Env P τ) (s : Drr P τ) : Prop where
  current : s.currentFlow = none
  nodup : s.flowRing.items.Nodup
  live : ∀ r, r ∈ s.flowRing.items ↔ (s.heap r).isSome = true
  below : ∀ r f, s.heap r = some f → r < s.fresh
  rep : s.flows.Rep E.hashing
  table : ∀ id r, s.flows.look E.hashing id = some r ↔ ∃ f, s.heap r = some f ∧ f.id = id
  good : ∀ r f, s.heap r = some f → Good E f

/-- The part of it that is about the ring, the table and the flows, and not about packets. -/
structure Linked (E : Env P τ) (s : Drr P τ) : Prop where
  current : s.currentFlow = none
  nodup : s.flowRing.items.Nodup
  live : ∀ r, r ∈ s.flowRing.items ↔ (s.heap r).isSome = true
  below : ∀ r f, s.heap r = some f → r < s.fresh
  rep : s.flows.Rep E.hashing
  table : ∀ id r, s.flows.look E.hashing id = some r ↔ ∃ f, s.heap r = some f ∧ f.id = id

theorem Inv.linked (h : Inv E s) : Linked E s :=
  ⟨h.current, h.nodup, h.live, h.below, h.rep, h.table⟩

theorem Linked.inv (h : Linked E s) (hgood : ∀ r f, s.heap r = some f → Good E f) : Inv E s :=
  ⟨h.current, h.nodup, h.live, h.below, h.rep, h.table, hgood⟩

/-- The packets in the queues of the flows and parked in front of them. -/
def waiting (s : Drr P τ) : List P :=
  (s.flowRing.items ++ s.currentFlow.toList).flatMap fun r => (s.heap r).elim [] Flow.packets

/-- The packets of one id. -/
def Env.ofId (E : Env P τ) (id : FlowId) (l : List P) : List P :=
  l.filter fun p => E.getId p = id

theorem Env.ofId_append (id : FlowId) (l l' : List P) :
    E.ofId id (l ++ l') = E.ofId id l ++ E.ofId id l' := List.filter_append _ _

theorem Linked.unique (h : Linked E s) {r' : Nat} (hf : s.heap r = some f) (hg : s.heap r' = some g)
    (hid : f.id = g.id) : r = r' := by
  have h1 := (h.table f.id r).mpr ⟨f, hf, rfl⟩
  have h2 := (h.table f.id r').mpr ⟨g, hg, hid.symm⟩
  exact Option.some.inj (h1.symm.trans h2)

theorem Inv.ofId_of_ne (h : Inv E s) {id : FlowId} {l : List Nat}
    (hl : ∀ r ∈ l, ∀ f, s.heap r = some f → f.id ≠ id) :
    E.ofId id (l.flatMap fun r => (s.heap r).elim [] Flow.packets) = [] := by
  refine List.filter_eq_nil_iff.mpr fun p hp hid => ?_
  obtain ⟨r, hr, hp⟩ := List.mem_flatMap.mp hp
  cases hf : s.heap r with
  | none =>
    rw [hf] at hp
    cases hp
  | some f =>
    rw [hf] at hp
    exact hl r hr f hf (((h.good r f hf).own p hp).symm.trans (of_decide_eq_true hid))

theorem Inv.waiting_of_flow (h : Inv E s) (hf : s.heap r = some f) :
    E.ofId f.id s.waiting = f.packets := by
  have hmem : r ∈ s.flowRing.items := (h.live r).mpr (by rw [hf]; rfl)
  obtain ⟨a, b, hab⟩ := List.append_of_mem hmem
  have hnodup := h.nodup
  rw [hab, List.nodup_append, List.nodup_cons] at hnodup
  have hne : ∀ r' ∈ a ++ b, ∀ g, s.heap r' = some g → g.id ≠ f.id := by
    intro r' hr' g hg hid
    obtain rfl := h.linked.unique hg hf hid
    rcases List.mem_append.mp hr' with hr' | hr'
    · exact hnodup.2.2 r' hr' r' (List.mem_cons_self ..) rfl
    · exact hnodup.2.1.1 hr'
  have ha := h.ofId_of_ne fun r' hr' => hne r' (List.mem_append_left _ hr')
  have hb := h.ofId_of_ne fun r' hr' => hne r' (List.mem_append_right _ hr')
  have hself : E.ofId f.id f.packets = f.packets :=
    List.filter_eq_self.mpr fun p hp => decide_eq_true ((h.good r f hf).own p hp)
  rw [waiting, h.current, hab]
  simp only [Option.toList_none, List.append_nil, List.flatMap_append, List.flatMap_cons,
    Env.ofId_append, ha, hb, hf, Option.elim_some, hself, List.nil_append]

theorem Inv.waiting_of_none (h : Inv E s) {id : FlowId}
    (hid : ∀ r f, s.heap r = some f → f.id ≠ id) : E.ofId id s.waiting = [] :=
  h.ofId_of_ne fun r _ f hf => hid r f hf

/-- A change to one flow is one to the packets of its id alone. -/
theorem Inv.waiting_other (h : Inv E s) (h' : Inv E s') {x : Option (Flow P τ)}
    (hheap : s'.heap = Function.update s.heap r x) {id : FlowId}
    (hne : ∀ f, s.heap r = some f ∨ x = some f → f.id ≠ id) :
    E.ofId id s'.waiting = E.ofId id s.waiting := by
  have hother : ∀ r', r' ≠ r → s'.heap r' = s.heap r' := by
    intro r' hr'
    rw [hheap, Function.update_of_ne hr']
  by_cases hex : ∃ r' f, s.heap r' = some f ∧ f.id = id
  · obtain ⟨r', f, hf, rfl⟩ := hex
    have hr' : r' ≠ r := by
      rintro rfl
      exact hne f (.inl hf) rfl
    rw [h.waiting_of_flow hf, h'.waiting_of_flow ((hother r' hr').trans hf)]
  · have hnone : ∀ r' f, s.heap r' = some f → f.id ≠ id := fun r' f hf he => hex ⟨r', f, hf, he⟩
    rw [h.waiting_of_none hnone, h'.waiting_of_none]
    intro r' f hf
    by_cases hr' : r' = r
    · subst hr'
      rw [hheap, Function.update_self] at hf
      exact hne f (.inr hf)
    · exact hnone r' f ((hother r' hr').symm.trans hf)

theorem Good.ofId (h : Good E f) {l : List P} (hl : ∀ p ∈ l, p ∈ f.packets) (id : FlowId) :
    E.ofId id l = if f.id = id then l else [] := by
  split
  · rename_i he
    exact List.filter_eq_self.mpr fun p hp => decide_eq_true ((h.own p (hl p hp)).trans he)
  · rename_i hne
    refine List.filter_eq_nil_iff.mpr fun p hp hid => hne ?_
    exact (h.own p (hl p hp)).symm.trans (of_decide_eq_true hid)

theorem Linked.rotate (h : Linked E s) {ring : Ring Nat}
    (hring : ring.items.Perm s.flowRing.items) : Linked E { s with flowRing := ring } :=
  { h with
    nodup := hring.nodup_iff.mpr h.nodup
    live := fun r => hring.mem_iff.trans (h.live r) }

theorem update_cases {α : Type} {heap : Nat → Option α} {r' : Nat} {x : Option α} {y : α}
    (h : Function.update heap r x r' = some y) :
    r' = r ∧ x = some y ∨ r' ≠ r ∧ heap r' = some y := by
  by_cases hr : r' = r
  · subst hr
    rw [Function.update_self] at h
    exact .inl ⟨rfl, h⟩
  · rw [Function.update_of_ne hr] at h
    exact .inr ⟨hr, h⟩

theorem Linked.setFlow (h : Linked E s) (hf : s.heap r = some f) (hid : g.id = f.id)
    (freed : List (P × Cause)) :
    Linked E { s with heap := Function.update s.heap r (some g), freed } := by
  refine
    { h with
      live := fun r' => ?_
      below := fun r' g' hg' => ?_
      table := fun id r' => ?_ }
  · rw [h.live]
    by_cases hr : r' = r
    · subst hr
      simp [hf]
    · simp [Function.update_of_ne hr]
  · rcases update_cases hg' with ⟨rfl, -⟩ | ⟨-, hg'⟩
    · exact h.below r' f hf
    · exact h.below r' g' hg'
  · rw [h.table]
    constructor
    · rintro ⟨f', hf', rfl⟩
      by_cases hr : r' = r
      · subst hr
        rw [hf] at hf'
        cases hf'
        exact ⟨g, Function.update_self .., hid⟩
      · exact ⟨f', (Function.update_of_ne hr ..).trans hf', rfl⟩
    · rintro ⟨g', hg', rfl⟩
      rcases update_cases hg' with ⟨rfl, he⟩ | ⟨-, hg'⟩
      · cases he
        exact ⟨f, hf, hid.symm⟩
      · exact ⟨g', hg', rfl⟩

theorem Inv.good_update (h : Inv E s) (hg : Good E g) {r' : Nat} {f : Flow P τ}
    (hf : Function.update s.heap r (some g) r' = some f) : Good E f := by
  rcases update_cases hf with ⟨-, he⟩ | ⟨-, hf⟩
  · cases he
    exact hg
  · exact h.good r' f hf

theorem Env.hashing_eq_iff (a b : FlowId) : E.hashing.eq a b = true ↔ a = b := decide_eq_true_iff

/-! ## Arrivals -/

/-- What the arrival of a packet does: it is freed for want of a slot in the ring, or goes to the flow
of its id, or to a new flow. -/
inductive Arrived (E : Env P τ) (s : Drr P τ) (pkt : P) : Drr P τ → Prop
  | refused : Arrived E s pkt { s with freed := s.freed ++ [(pkt, .flowRing)] }
  | joined {r : Nat} {f g : Flow P τ} {lost : List (P × Cause)} (hf : s.heap r = some f)
    (hid : f.id = E.getId pkt) (he : Enqueued f pkt g lost) :
    Arrived E s pkt
      { s with heap := Function.update s.heap r (some g), freed := s.freed ++ lost }
  | opened {flows : CuckooMap FlowId Nat} {ring : Ring Nat} {f g : Flow P τ}
    {lost : List (P × Cause)} (hnew : s.flows.look E.hashing (E.getId pkt) = none)
    (hrep : flows.Rep E.hashing)
    (hlook : flows.look E.hashing =
      Function.update (s.flows.look E.hashing) (E.getId pkt) (some s.fresh))
    (hring : ring.items = s.flowRing.items ++ [s.fresh]) (hid : f.id = E.getId pkt)
    (hdeficit : f.deficit = 0) (hempty : f.packets = []) (hgrown : Grown f.queue)
    (he : Enqueued f pkt g lost) :
    Arrived E s pkt
      { s with
        flows
        flowRing := ring
        heap := Function.update s.heap s.fresh (some g)
        fresh := s.fresh + 1
        freed := s.freed ++ lost }

/-- A packet that the module can take: it has a length, its queue is not to grow beyond the largest
ring, and if it starts a flow the table takes the new id. -/
structure Takable (E : Env P τ) (s : Drr P τ) (pkt : P) : Prop where
  sized : Sized E pkt
  queue : s.maxQueueSize.toNat < 2 ^ 31
  table : s.flows.look E.hashing (E.getId pkt) = none → s.flowRing.isFull = false →
    s.flows.Takes E.hashing (E.getId pkt)

theorem grown_new : ∃ q : Ring P, addQueue kFlowQueueSize = some q ∧ q.items = [] ∧ Grown q :=
  ⟨⟨2048, [], by simp⟩, rfl, rfl, 11, by decide, by decide, rfl⟩

theorem Linked.processPacket (h : Linked E s) (hgrown : ∀ r f, s.heap r = some f → Grown f.queue)
    (hqueue : s.maxQueueSize.toNat < 2 ^ 31)
    (htable : s.flows.look E.hashing (E.getId pkt) = none → s.flowRing.isFull = false →
      s.flows.Takes E.hashing (E.getId pkt)) (now : τ) :
    ∃ s', s.processPacket E pkt now = some s' ∧ Arrived E s pkt s' := by
  unfold Drr.processPacket
  cases hlook : s.flows.look E.hashing (E.getId pkt) with
  | some r =>
    obtain ⟨f, hf, hid⟩ := (h.table _ r).mp hlook
    obtain ⟨g, lost, he, hg⟩ := enqueue_spec hqueue (hgrown r f hf) pkt now
    exact ⟨_, by simp [hlook, hf, he], .joined hf hid hg⟩
  | none =>
    simp only [hlook]
    split
    · exact ⟨_, rfl, .refused⟩
    · rename_i hfull
      have hfull : s.flowRing.isFull = false := by simpa using hfull
      obtain ⟨q, hq, hitems, hgrown⟩ := grown_new (P := P)
      obtain ⟨g, lost, he, hg⟩ := enqueue_spec (f := ⟨0, E.epoch, E.getId pkt, q, none⟩)
        hqueue hgrown pkt now
      obtain ⟨o, flows, hi, hrep, hupdate⟩ :=
        h.rep.insert_update Env.hashing_eq_iff (E.getId pkt) s.fresh
      have hsome := (h.rep.insert_isSome_iff _ _ hi).mpr (htable hlook hfull)
      rw [if_pos hsome] at hupdate
      cases hr : s.flowRing.enqueue s.fresh with
      | none =>
        have := Ring.enqueue_eq_none.mp hr
        have := Ring.isFull_eq_false.mp hfull
        omega
      | some ring =>
        refine ⟨_, by simp [addNewFlow, hq, he, hi, hr], .opened hlook hrep hupdate
          (Ring.enqueue_spec hr).2 rfl rfl ?_ hgrown hg⟩
        simp [Flow.packets, hitems]

theorem Linked.open (h : Linked E s) {flows : CuckooMap FlowId Nat} {ring : Ring Nat}
    (hnew : s.flows.look E.hashing g.id = none) (hrep : flows.Rep E.hashing)
    (hlook : flows.look E.hashing = Function.update (s.flows.look E.hashing) g.id (some s.fresh))
    (hring : ring.items = s.flowRing.items ++ [s.fresh]) (freed : List (P × Cause)) :
    Linked E
      { s with
        flows
        flowRing := ring
        heap := Function.update s.heap s.fresh (some g)
        fresh := s.fresh + 1
        freed } := by
  have hunused : s.heap s.fresh = none := by
    cases hf : s.heap s.fresh with
    | none => rfl
    | some f => exact absurd (h.below _ f hf) (Nat.lt_irrefl _)
  have hout : s.fresh ∉ s.flowRing.items := by
    rw [h.live, hunused]
    simp
  refine
    { current := h.current
      nodup := ?_
      live := fun r => ?_
      below := fun r f hf => ?_
      rep := hrep
      table := fun id r => ?_ }
  · rw [hring, List.nodup_append]
    refine ⟨h.nodup, List.nodup_singleton _, fun a ha b hb => ?_⟩
    rw [List.mem_singleton.mp hb]
    rintro rfl
    exact hout ha
  · by_cases hr : r = s.fresh
    · simp [hr, hring]
    · simp [hr, hring, h.live]
  · rcases update_cases hf with ⟨rfl, -⟩ | ⟨-, hf⟩
    · exact Nat.lt_succ_self _
    · exact Nat.lt_succ_of_lt (h.below r f hf)
  · simp only [hlook]
    by_cases hid : id = g.id
    · subst hid
      rw [Function.update_self]
      constructor
      · rintro hr
        cases hr
        exact ⟨g, Function.update_self .., rfl⟩
      · rintro ⟨f, hf, hid⟩
        rcases update_cases hf with ⟨rfl, -⟩ | ⟨-, hf⟩
        · rfl
        · rw [(h.table _ r).mpr ⟨f, hf, hid⟩] at hnew
          cases hnew
    · rw [Function.update_of_ne hid, h.table]
      by_cases hr : r = s.fresh
      · subst hr
        rw [hunused, Function.update_self]
        refine iff_of_false (by simp) ?_
        rintro ⟨f, hf, rfl⟩
        cases hf
        exact hid rfl
      · rw [Function.update_of_ne hr]

theorem Arrived.linked (h : Linked E s) (ha : Arrived E s pkt s') : Linked E s' := by
  cases ha with
  | refused => exact ⟨h.current, h.nodup, h.live, h.below, h.rep, h.table⟩
  | joined hf hid he => exact h.setFlow hf he.id _
  | opened hnew hrep hlook hring hid hdeficit hempty hgrown he =>
    rw [← hid, ← he.id] at hnew hlook
    exact h.open hnew hrep hlook hring _

theorem Arrived.inv (h : Inv E s) (hsized : Sized E pkt) (ha : Arrived E s pkt s') : Inv E s' := by
  refine (ha.linked h.linked).inv fun r' f' hf' => ?_
  cases ha with
  | refused => exact h.good r' f' hf'
  | joined hf hid he => exact h.good_update (he.good (h.good _ _ hf) hid.symm hsized) hf'
  | opened hnew hrep hlook hring hid hdeficit hempty hgrown he =>
    refine h.good_update (he.good ⟨?_, ?_, hgrown⟩ hid.symm hsized) hf'
    · simp [hempty]
    · simp [hempty]

/-- A packet waits, or is freed because the ring or its queue has no room for it. -/
inductive Fate (pkt : P) : List P → List (P × Cause) → Prop
  | kept : Fate pkt [pkt] []
  | freed {c : Cause} (hc : c = .flowRing ∨ c = .flowQueue) : Fate pkt [] [(pkt, c)]

theorem Enqueued.fate (h : Enqueued f pkt g lost) :
    ∃ kept, g.packets = f.packets ++ kept ∧ Fate pkt kept lost := by
  cases h with
  | dropped => exact ⟨[], (List.append_nil _).symm, .freed (.inr rfl)⟩
  | added hitems hgrown => exact ⟨[pkt], by simp [Flow.packets, hitems], .kept⟩

theorem Fate.ofId {kept : List P} (h : Fate pkt kept lost)
    (id : FlowId) : E.ofId id kept = if E.getId pkt = id then kept else [] := by
  cases h with
  | kept =>
    by_cases hid : E.getId pkt = id
    · simp [Env.ofId, hid]
    · simp [Env.ofId, hid]
  | freed hc => simp [Env.ofId]

/-- The packet joins those of its id at the end. -/
theorem Arrived.waiting (h : Inv E s) (hsized : Sized E pkt) (ha : Arrived E s pkt s') :
    ∃ kept lost, Fate pkt kept lost ∧ s'.freed = s.freed ++ lost ∧
      ∀ id, E.ofId id s'.waiting = E.ofId id s.waiting ++ E.ofId id kept := by
  have h' := ha.inv h hsized
  cases ha with
  | refused => exact ⟨[], _, .freed (.inl rfl), rfl, fun id => (List.append_nil _).symm⟩
  | @joined r f g lost hf hid he =>
    obtain ⟨kept, hkept, hfate⟩ := he.fate
    refine ⟨kept, lost, hfate, rfl, fun id => ?_⟩
    rw [hfate.ofId, ← hid]
    split
    · rename_i hself
      subst hself
      have hnow := h'.waiting_of_flow (Function.update_self r (some g) s.heap)
      rw [he.id] at hnow
      rw [hnow, h.waiting_of_flow hf, hkept]
    · rename_i hne
      rw [List.append_nil]
      refine h.waiting_other h' rfl ?_
      rintro f' (hf' | hf')
      · cases hf.symm.trans hf'
        exact hne
      · cases hf'
        rwa [he.id]
  | @opened flows ring f g lost hnew hrep hlook hring hid hdeficit hempty hgrown he =>
    obtain ⟨kept, hkept, hfate⟩ := he.fate
    rw [hempty, List.nil_append] at hkept
    refine ⟨kept, lost, hfate, rfl, fun id => ?_⟩
    rw [hfate.ofId, ← hid]
    split
    · rename_i hself
      subst hself
      have hnow := h'.waiting_of_flow (Function.update_self s.fresh (some g) s.heap)
      rw [he.id] at hnow
      rw [hnow, hkept, h.waiting_of_none, List.nil_append]
      intro r f' hf' hid'
      rw [← hid, (h.table _ r).mpr ⟨f', hf', hid'⟩] at hnew
      cases hnew
    · rename_i hne
      rw [List.append_nil]
      refine h.waiting_other h' rfl ?_
      rintro f' (hf' | hf')
      · exact absurd (h.below _ f' hf') (Nat.lt_irrefl _)
      · cases hf'
        rwa [he.id]

/-- Packets that the module can take arrive one after the other. -/
inductive Arrivals (E : Env P τ) : Drr P τ → List P → Drr P τ → Prop
  | nil (s : Drr P τ) : Arrivals E s [] s
  | cons {s s₁ s' : Drr P τ} {pkt : P} {pkts : List P} (ht : Takable E s pkt)
    (ha : Arrived E s pkt s₁) (hrest : Arrivals E s₁ pkts s') : Arrivals E s (pkt :: pkts) s'

theorem Arrivals.inv (ha : Arrivals E s pkts s') (h : Inv E s) : Inv E s' := by
  induction ha with
  | nil => exact h
  | cons ht ha hrest ih => exact ih (ha.inv h ht.sized)

theorem Arrivals.waiting (ha : Arrivals E s pkts s') (h : Inv E s) :
    ∃ kept lost, kept.Sublist pkts ∧ pkts.Perm (lost.map Prod.fst ++ kept) ∧
      (∀ x ∈ lost, x.2 = .flowRing ∨ x.2 = .flowQueue) ∧ s'.freed = s.freed ++ lost ∧
      ∀ id, E.ofId id s'.waiting = E.ofId id s.waiting ++ E.ofId id kept := by
  induction ha with
  | nil s =>
    exact ⟨[], [], List.Sublist.refl _, List.Perm.refl _, by simp, (List.append_nil _).symm,
      fun id => (List.append_nil _).symm⟩
  | @cons s s₁ s' pkt pkts ht ha hrest ih =>
    obtain ⟨kept₁, lost₁, hfate, hfreed₁, hwait₁⟩ := ha.waiting h ht.sized
    obtain ⟨kept, lost, hsub, hperm, hcause, hfreed, hwait⟩ := ih (ha.inv h ht.sized)
    refine ⟨kept₁ ++ kept, lost₁ ++ lost, ?_, ?_, ?_, by rw [hfreed, hfreed₁, List.append_assoc],
      fun id => by rw [hwait, hwait₁, Env.ofId_append, List.append_assoc]⟩
    · cases hfate with
      | kept => exact hsub.cons_cons pkt
      | freed hc => exact hsub.cons pkt
    · cases hfate with
      | kept => exact (hperm.cons pkt).trans List.perm_middle.symm
      | freed hc => exact hperm.cons pkt
    · intro x hx
      rcases List.mem_append.mp hx with hx | hx
      · cases hfate with
        | kept => cases hx
        | freed hc =>
          rw [List.mem_singleton.mp hx]
          exact hc
      · exact hcause x hx

/-- Each packet is one that the module can take when it gets to it. -/
def AllTakable (E : Env P τ) : Drr P τ → List (P × τ) → Prop
  | _, [] => True
  | s, (pkt, now) :: batch =>
    Takable E s pkt ∧ ∀ s', s.processPacket E pkt now = some s' → AllTakable E s' batch

theorem Inv.processBatch (h : Inv E s) {batch : List (P × τ)} (hb : AllTakable E s batch) :
    ∃ s', s.processBatch E batch = some s' ∧ Arrivals E s (batch.map Prod.fst) s' := by
  induction batch generalizing s with
  | nil => exact ⟨s, rfl, .nil s⟩
  | cons x batch ih =>
    obtain ⟨pkt, now⟩ := x
    obtain ⟨ht, hrest⟩ := hb
    obtain ⟨s₁, hs₁, ha⟩ := h.linked.processPacket (fun r f hf => (h.good r f hf).grown) ht.queue
      ht.table now
    obtain ⟨s', hs', has⟩ := ih (ha.inv h ht.sized) (hrest s₁ hs₁)
    exact ⟨s', by simp [Drr.processBatch, hs₁, hs'], .cons ht ha has⟩

end Bess.Modules.Drr
