import Bess.Modules.DrrTurns

/-!
# The packets of deficit round robin

`ProcessBatch` and `RunTask` in any order. A packet that entered is freed, waits in the flow of its id
or was sent, and packets of one id are sent in the order of their arrival. `RunTask` hands a batch on
only if it has bytes, so that packets without bytes can get lost there; and a flow that the table does
not take is not found again, so that its next packet starts another one.
-/

namespace Bess.Modules.Drr

open Bess.Cuckoo

/-- The module, with the packets that entered it and the batches that it handed on. -/
structure World (P τ : Type) where
  drr : Drr P τ
  entered : List P
  emitted : List (List P)

inductive Event (P τ : Type) where
  /-- the packets, each with the time that is read when it is put into its queue -/
  | processBatch (batch : List (P × τ))
  /-- whether a module behind is overloaded, and the times that are read -/
  | runTask (overload : Bool) (clock : Nat → τ)

variable {P τ : Type} {E : Env P τ} {s s' : Drr P τ} {w w' : World P τ}

def World.step (E : Env P τ) (w : World P τ) : Event P τ → Option (World P τ)
  | .processBatch batch => do
    let drr ← w.drr.processBatch E batch
    some { w with drr, entered := w.entered ++ batch.map Prod.fst }
  | .runTask overload clock => do
    let (drr, batch, _) ← w.drr.runTask E overload clock
    some { w with drr, emitted := w.emitted ++ batch.toList }

def World.run (E : Env P τ) : World P τ → List (Event P τ) → Option (World P τ)
  | w, [] => some w
  | w, ev :: evs => do
    let w ← w.step E ev
    World.run E w evs

def World.Admits (E : Env P τ) (w : World P τ) : Event P τ → Prop
  | .processBatch batch => AllTakable E w.drr batch
  | .runTask _ _ => True

/-- The states after `Init` with any argument and any events that are admitted. -/
inductive World.Reach (E : Env P τ) : World P τ → Prop
  | init {numFlows maxFlowQueueSize quantum : UInt32} {s : Drr P τ}
    (h : Drr.init numFlows maxFlowQueueSize quantum = some s) : World.Reach E ⟨s, [], []⟩
  | step {w w' : World P τ} {ev : Event P τ} (h : World.Reach E w) (ha : w.Admits E ev)
    (he : w.step E ev = some w') : World.Reach E w'

/-! ## Departures -/

theorem totalBytes_pos {batch : List P} (hlen : batch.length ≤ maxBurst)
    (hsized : ∀ p ∈ batch, Sized E p) : 0 < totalBytes E batch ↔ batch ≠ [] := by
  have hsum : ∀ l : List P, (∀ p ∈ l, Sized E p) → l.length ≤ maxBurst →
      l.length ≤ (totalBytes E l).toNat ∧ (totalBytes E l).toNat ≤ l.length * 2 ^ 27 := by
    intro l
    induction l with
    | nil => simp [totalBytes]
    | cons p l ih =>
      intro hl hlen
      obtain ⟨hlo, hhi⟩ := ih (fun p hp => hl p (List.mem_cons_of_mem _ hp)) (Nat.le_of_succ_le hlen)
      obtain ⟨hpos, hlt⟩ := hl p (List.mem_cons_self ..)
      have hcons : (totalBytes E (p :: l)).toNat =
          ((E.pktLen p).toNat + (totalBytes E l).toNat) % 2 ^ 32 := by
        rw [totalBytes, List.map_cons, List.sum_cons, UInt32.toNat_add]
        rfl
      rw [List.length_cons] at hlen ⊢
      unfold maxBurst at hlen
      rw [hcons, Nat.mod_eq_of_lt (by omega)]
      omega
  obtain ⟨hlo, -⟩ := hsum batch hsized hlen
  rw [UInt32.lt_iff_toNat_lt]
  constructor
  · rintro hpos rfl
    exact absurd hpos (Nat.lt_irrefl _)
  · intro hne
    exact Nat.lt_of_lt_of_le (List.length_pos_iff.mpr hne) hlo

theorem Inv.sized_waiting (h : Inv E s) {p : P} (hp : p ∈ s.waiting) : Sized E p := by
  rw [Drr.waiting, List.mem_flatMap] at hp
  obtain ⟨r, -, hp⟩ := hp
  cases hf : s.heap r with
  | none =>
    rw [hf] at hp
    cases hp
  | some f =>
    rw [hf] at hp
    exact (h.good r f hf).sized p hp

/-- The task hands on what it took out of the flows. -/
theorem Inv.runTask (h : Inv E s) (clock : Nat → τ) :
    ∃ s' out result, s.runTask E false clock = some (s', out, result) ∧
      Visits E (fun u b => (u, b) ∈ s.turns E clock) s [] s' (out.getD []) := by
  obtain ⟨s', batch, hs', hv⟩ := h.linked.getNextBatch clock
  have hlen := hv.length_le (Nat.zero_le _)
  obtain ⟨pkts, hbatch, hwait⟩ := hv.waiting h
  rw [List.nil_append] at hbatch
  subst hbatch
  have hsized : ∀ p ∈ batch, Sized E p := by
    intro p hp
    have hmem : p ∈ E.ofId (E.getId p) s.waiting := by
      rw [hwait]
      exact List.mem_append_left _ (List.mem_filter.mpr ⟨hp, decide_eq_true rfl⟩)
    exact h.sized_waiting (List.mem_of_mem_filter hmem)
  refine ⟨s', if 0 < totalBytes E batch then some batch else none, _,
    by rw [Drr.runTask, hs']; rfl, ?_⟩
  have hout : (if 0 < totalBytes E batch then some batch else none).getD [] = batch := by
    split
    · rfl
    · rename_i hzero
      rw [totalBytes_pos hlen hsized, not_not] at hzero
      rw [hzero]
      rfl
  rwa [hout]

/-! ## Runs -/

/-- What an event does. -/
inductive World.Stepped (E : Env P τ) (w : World P τ) : Event P τ → World P τ → Prop
  | arrived {batch : List (P × τ)} {s' : Drr P τ}
    (ha : Arrivals E w.drr (batch.map Prod.fst) s') :
    World.Stepped E w (.processBatch batch)
      { w with drr := s', entered := w.entered ++ batch.map Prod.fst }
  | overloaded {clock : Nat → τ} : World.Stepped E w (.runTask true clock) w
  | sent {clock : Nat → τ} {s' : Drr P τ} {out : Option (List P)}
    (hv : Visits E (fun u b => (u, b) ∈ w.drr.turns E clock) w.drr [] s' (out.getD [])) :
    World.Stepped E w (.runTask false clock)
      { w with drr := s', emitted := w.emitted ++ out.toList }

variable {ev : Event P τ}

theorem World.step_spec (h : Inv E w.drr) (ha : w.Admits E ev) :
    ∃ w', w.step E ev = some w' ∧ w.Stepped E ev w' := by
  cases ev with
  | processBatch batch =>
    obtain ⟨s', hs', harr⟩ := h.processBatch ha
    exact ⟨_, by rw [World.step, hs']; rfl, .arrived harr⟩
  | runTask overload clock =>
    cases overload with
    | true => exact ⟨w, by simp [World.step, Drr.runTask], .overloaded⟩
    | false =>
      obtain ⟨s', out, result, hs', hv⟩ := h.runTask clock
      exact ⟨_, by rw [World.step, hs']; rfl, .sent hv⟩

theorem World.Stepped.inv (hs : w.Stepped E ev w') (h : Inv E w.drr) : Inv E w'.drr := by
  cases hs with
  | arrived ha => exact ha.inv h
  | overloaded => exact h
  | sent hv => exact hv.inv h

theorem flatten_toList (out : Option (List P)) : out.toList.flatten = out.getD [] := by
  cases out <;> simp

/-- The packets that were kept came in their order, and those of an id were sent or wait in it. -/
structure Ledger (E : Env P τ) (w : World P τ) (kept : List P) : Prop where
  sub : kept.Sublist w.entered
  perm : w.entered.Perm (w.drr.freed.map Prod.fst ++ kept)
  causes : ∀ x ∈ w.drr.freed, x.2 = .flowRing ∨ x.2 = .flowQueue
  order : ∀ id, E.ofId id kept = E.ofId id w.emitted.flatten ++ E.ofId id w.drr.waiting
  batches : ∀ b ∈ w.emitted, b.length ≤ maxBurst

theorem World.Stepped.ledger (hs : w.Stepped E ev w') (h : Inv E w.drr)
    {kept : List P} (hl : Ledger E w kept) : ∃ kept', Ledger E w' kept' := by
  cases hs with
  | arrived ha =>
    obtain ⟨kept', lost, hsub, hperm, hcause, hfreed, hwait⟩ := ha.waiting h
    refine ⟨kept ++ kept', hl.sub.append hsub, ?_, ?_, fun id => ?_, hl.batches⟩
    · simp only [hfreed, List.map_append]
      refine (hl.perm.append hperm).trans ?_
      rw [List.append_assoc, List.append_assoc]
      exact (List.perm_append_comm_assoc ..).append_left _
    · simp only [hfreed]
      intro x hx
      rcases List.mem_append.mp hx with hx | hx
      · exact hl.causes x hx
      · exact hcause x hx
    · rw [Env.ofId_append, hl.order, hwait, List.append_assoc]
  | overloaded => exact ⟨kept, hl⟩
  | @sent clock s' out hv =>
    obtain ⟨pkts, hbatch, hwait⟩ := hv.waiting h
    have hfreed := hv.frame.2.2
    refine ⟨kept, hl.sub, ?_, ?_, fun id => ?_, fun b hb => ?_⟩
    · simpa only [hfreed] using hl.perm
    · simpa only [hfreed] using hl.causes
    · rw [hl.order, hwait, List.flatten_append, flatten_toList, hbatch, List.nil_append,
        Env.ofId_append, List.append_assoc]
    · rcases List.mem_append.mp hb with hb | hb
      · exact hl.batches b hb
      · have hlen := hv.length_le (Nat.zero_le _)
        rw [Option.mem_toList.mp hb] at hlen
        exact hlen

theorem inv_init {numFlows maxFlowQueueSize quantum : UInt32}
    (h : Drr.init numFlows maxFlowQueueSize quantum = some s) :
    Inv E s ∧ s.freed = [] ∧ s.waiting = [] := by
  unfold Drr.init at h
  obtain ⟨ring, hring, he⟩ := Option.bind_eq_some_iff.mp h
  cases he
  have hitems : ring.items = [] := (Ring.init_spec hring).2
  have hrep : (CuckooMap.new kInitNumBucket kInitNumEntries : CuckooMap FlowId Nat).Rep E.hashing :=
    CuckooMap.rep_new (k := 2) (by decide)
  refine ⟨⟨rfl, ?_, ?_, ?_, hrep, ?_, ?_⟩, rfl, ?_⟩
  · simp [hitems]
  · simp [hitems]
  · intro r f hf
    cases hf
  · intro id r
    rw [CuckooMap.look_new E.hashing _ _ id hrep]
    simp
  · intro r f hf
    cases hf
  · simp [Drr.waiting, hitems]

theorem World.Reach.inv (h : w.Reach E) : Inv E w.drr ∧ ∃ kept, Ledger E w kept := by
  induction h with
  | init h =>
    obtain ⟨hinv, hfreed, hwait⟩ := inv_init (E := E) h
    exact ⟨hinv, [], List.Sublist.refl _, by simp [hfreed], by simp [hfreed],
      by simp [hwait, Env.ofId], by simp⟩
  | step h ha he ih =>
    obtain ⟨hinv, kept, hl⟩ := ih
    obtain ⟨w₁, hw₁, hs⟩ := World.step_spec hinv ha
    cases hw₁.symm.trans he
    exact ⟨hs.inv hinv, hs.ledger hinv hl⟩

/-- Lists that agree on each id have the same packets. -/
theorem perm_of_ofId {l l' : List P} (h : ∀ id, E.ofId id l = E.ofId id l') : l.Perm l' := by
  classical
  refine List.perm_iff_count.mpr fun p => ?_
  have hcount : ∀ l : List P, (E.ofId (E.getId p) l).count p = l.count p := fun l =>
    List.count_filter (decide_eq_true rfl)
  rw [← hcount l, h, hcount]

theorem Ledger.places {kept : List P} (hl : Ledger E w kept) :
    w.entered.Perm (w.drr.freed.map Prod.fst ++ w.drr.waiting ++ w.emitted.flatten) := by
  have hkept : kept.Perm (w.drr.waiting ++ w.emitted.flatten) := by
    refine (perm_of_ofId (E := E) fun id => ?_).trans List.perm_append_comm
    rw [hl.order, Env.ofId_append]
  rw [List.append_assoc]
  exact hl.perm.trans (hkept.append_left _)

/-- Where the packets are. -/
structure World.Accounted (E : Env P τ) (w : World P τ) : Prop where
  /-- Each packet that entered was freed, waits, or was sent; once and in one place. -/
  places : w.entered.Perm (w.drr.freed.map Prod.fst ++ w.drr.waiting ++ w.emitted.flatten)
  /-- It was freed because the ring of flows or the queue of its flow was full. -/
  causes : ∀ x ∈ w.drr.freed, x.2 = .flowRing ∨ x.2 = .flowQueue
  /-- It waits in the flow of its id. -/
  own : ∀ r f, w.drr.heap r = some f → ∀ p ∈ f.packets, E.getId p = f.id
  /-- The packets of an id are sent in the order of their arrival. -/
  order : ∀ id, (E.ofId id w.emitted.flatten ++ E.ofId id w.drr.waiting).Sublist
    (E.ofId id w.entered)
  batches : ∀ b ∈ w.emitted, b.length ≤ maxBurst

/-- In every run in which each packet has a length that can be counted, no queue is to hold more than
the largest ring, and the table takes the id of each new flow: each packet is in its one place, the
packets of an id are sent in the order of arrival, batches are not too long, and both functions
return, with them `GetNextBatch`. -/
theorem World.accounted (hw : w.Reach E) :
    w.Accounted E ∧ (∀ clock, (w.drr.getNextBatch E clock).isSome = true) ∧
      ∀ ev, w.Admits E ev → (w.step E ev).isSome = true := by
  obtain ⟨h, kept, hl⟩ := hw.inv
  refine ⟨⟨hl.places, hl.causes, fun r f hf => (h.good r f hf).own, fun id => ?_, hl.batches⟩,
    fun clock => ?_, fun ev ha => ?_⟩
  · rw [← hl.order]
    exact hl.sub.filter _
  · obtain ⟨s', batch, hs', -⟩ := h.linked.getNextBatch clock
    rw [hs']
    rfl
  · obtain ⟨w', hw', -⟩ := World.step_spec h ha
    rw [hw']
    rfl

/-- Packets that are nothing but their length, the one of 300 bytes of a flow of its own. -/
def twoFlows : Env Nat Nat where
  pktLen := UInt32.ofNat
  getId p := if p = 300 then { (default : FlowId) with srcPort := 1 } else default
  hash _ := 0
  epoch := 0
  expired now timer := timer + 300 < now

/-- The table has a free slot for the packet's id. -/
def hasSlot (s : Drr Nat Nat) (pkt : Nat) : Bool :=
  decide (s.maxQueueSize.toNat < 2 ^ 31 ∧
    ¬ s.flows.Full (s.flows.bucketOf (twoFlows.hashing.hash (twoFlows.getId pkt))))

theorem takable_of_hasSlot {s : Drr Nat Nat} {pkt : Nat} (hs : hasSlot s pkt = true)
    (hsized : Sized twoFlows pkt) : Takable twoFlows s pkt :=
  have ⟨hqueue, hfree⟩ := of_decide_eq_true hs
  ⟨hsized, hqueue, fun _ _ => .inr (.inl ⟨_, .inl rfl, .inl hfree⟩)⟩

theorem two_flows_accounted :
    ∃ w, ((Drr.init 0 0 0).bind fun s => World.run twoFlows ⟨s, [], []⟩
        [.processBatch [(100, 0), (200, 0), (300, 0)], .runTask false fun _ => 1]) = some w ∧
      w.emitted = [[100, 200, 300]] ∧ w.Accounted twoFlows := by
  obtain ⟨s, hs⟩ : ∃ s : Drr Nat Nat, Drr.init 0 0 0 = some s := ⟨_, rfl⟩
  have hrun : ((Drr.init 0 0 0).bind fun s => World.run twoFlows ⟨s, [], []⟩
      [.processBatch [(100, 0), (200, 0), (300, 0)], .runTask false fun _ => 1]).map World.emitted =
        some [[100, 200, 300]] := by
    decide +kernel
  obtain ⟨w, hw, hemitted⟩ := Option.map_eq_some_iff.mp hrun
  refine ⟨w, hw, hemitted, (World.accounted ?_).1⟩
  rw [hs, Option.bind_some] at hw
  obtain ⟨w₁, hw₁, hw⟩ := Option.bind_eq_some_iff.mp hw
  obtain ⟨w₂, hw₂, hw⟩ := Option.bind_eq_some_iff.mp hw
  cases hw
  have htake : World.Admits twoFlows ⟨s, [], []⟩
      (.processBatch [(100, 0), (200, 0), (300, 0)]) := by
    have h₁ : (Drr.init 0 0 0).map (hasSlot · 100) = some true := by decide +kernel
    have h₂ : ((Drr.init 0 0 0).bind (·.processPacket twoFlows 100 0)).map (hasSlot · 200) =
      some true := by decide +kernel
    have h₃ : (((Drr.init 0 0 0).bind (·.processPacket twoFlows 100 0)).bind
      (·.processPacket twoFlows 200 0)).map (hasSlot · 300) = some true := by decide +kernel
    rw [hs] at h₁ h₂ h₃
    refine ⟨takable_of_hasSlot (Option.some.inj h₁) (by decide), fun s₁ e₁ => ?_⟩
    rw [Option.bind_some, e₁] at h₂ h₃
    refine ⟨takable_of_hasSlot (Option.some.inj h₂) (by decide), fun s₂ e₂ => ?_⟩
    rw [Option.bind_some, e₂] at h₃
    exact ⟨takable_of_hasSlot (Option.some.inj h₃) (by decide), fun _ _ => trivial⟩
  have htask : w₁.Admits twoFlows (.runTask false fun _ => 1) := trivial
  exact ((World.Reach.init hs).step htake hw₁).step htask hw₂

/-- Packets of one flow that are nothing but their length. -/
def lengthEnv : Env Nat Nat where
  pktLen := UInt32.ofNat
  getId _ := default
  hash _ := 0
  epoch := 0
  expired now timer := timer + 300 < now

/-- A packet without bytes is taken out of its flow and then neither handed on nor freed. -/
theorem empty_packet_lost :
    ((Drr.init 0 0 0).bind fun s => World.run lengthEnv ⟨s, [], []⟩
      [.processBatch [(0, 0)], .runTask false fun _ => 1]).map
        (fun w => (w.entered, w.drr.freed, w.drr.waiting, w.emitted)) = some ([0], [], [], []) := by
  decide +kernel

end Bess.Modules.Drr
