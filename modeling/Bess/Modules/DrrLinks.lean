import Bess.Cuckoo.Spread
import Bess.Modules.DrrRun

/-!
# The table and the ring of deficit round robin

`AddNewFlow` puts a flow into the table and into the ring, `RemoveFlow` takes it out of both. The two
agree as long as the table takes each new flow. The result of `flows_.Insert` is not looked at: a
flow that the table did not take is in the ring alone, and stays there until it expires.

`AddQueue` counts the bytes of a ring in an `int`, so no ring may have `2 ^ 28` slots.
-/

namespace Bess.Modules.Drr

open Bess.Cuckoo

variable {P τ : Type} {E : Env P τ} {s s' : Drr P τ} {f g : Flow P τ} {w w' : World P τ}
  {pkt : P} {now : τ} {batch : List (P × τ)}

/-- The flows that the module will come back to. -/
def turnsOf (s : Drr P τ) : List Nat := s.flowRing.items ++ s.currentFlow.toList

/-- The table and the ring agree on the flows. -/
structure Consistent (E : Env P τ) (s : Drr P τ) : Prop where
  /-- A flow is in the table under its id if and only if it is in the ring or the current one. -/
  registered : ∀ r f, s.heap r = some f →
    (s.flows.look E.hashing f.id = some r ↔ r ∈ s.turnsOf)
  /-- It is found there under no other id. -/
  own : ∀ r f id, s.heap r = some f → s.flows.look E.hashing id = some r → f.id = id
  once : s.turnsOf.Nodup
  unique : ∀ r r' f g, s.heap r = some f → s.heap r' = some g → f.id = g.id → r = r'
  /-- There is no reference to what was deleted. -/
  removed : ∀ r, s.heap r = none → r ∉ s.turnsOf ∧ ∀ id, s.flows.look E.hashing id ≠ some r

theorem Linked.turnsOf_eq (h : Linked E s) : s.turnsOf = s.flowRing.items := by
  rw [turnsOf, h.current]
  exact List.append_nil _

theorem Linked.consistent (h : Linked E s) : Consistent E s := by
  refine
    { registered := fun r f hf => ?_
      own := fun r f id hf hl => ?_
      once := ?_
      unique := fun r r' f g hf hg hid => h.unique hf hg hid
      removed := fun r hr => ⟨?_, fun id hl => ?_⟩ }
  · refine iff_of_true ((h.table _ r).mpr ⟨f, hf, rfl⟩) ?_
    rw [h.turnsOf_eq, h.live, hf]
    rfl
  · obtain ⟨g, hg, hid⟩ := (h.table id r).mp hl
    cases hf.symm.trans hg
    exact hid
  · rw [h.turnsOf_eq]
    exact h.nodup
  · rw [h.turnsOf_eq, h.live, hr]
    exact Bool.false_ne_true
  · obtain ⟨f, hf, -⟩ := (h.table id r).mp hl
    cases hr.symm.trans hf

/-! ## The sizes of the rings -/

/-- A queue whose bytes an `int` can count. -/
def Narrow (q : Ring P) : Prop := Grown q ∧ q.slots ≤ 2 ^ 27

theorem narrow_new {q : Ring P} (h : addQueue kFlowQueueSize = some q) : Narrow q := by
  cases h
  exact ⟨⟨11, by decide, by decide, rfl⟩, (by decide : kFlowQueueSize ≤ 2 ^ 27)⟩

theorem enqueue_narrow {maxQueueSize : UInt32} {lost : List (P × Cause)}
    (hmax : maxQueueSize.toNat ≤ 2 ^ 26) (h : Narrow f.queue)
    (he : enqueue maxQueueSize f pkt now = some (g, lost)) : Narrow g.queue := by
  unfold enqueue at he
  split at he
  · cases he
    exact h
  · obtain ⟨q, hq, -, hgrown, -, hslots⟩ := h.1.makeSlot (by omega)
    have hle : q.slots ≤ 2 ^ 27 := by
      have := h.2
      rcases hslots with hs | hs <;> omega
    rw [hq] at he
    simp only [Option.bind_eq_bind, Option.bind_some] at he
    cases hq' : q.enqueue pkt with
    | none =>
      rw [hq'] at he
      cases he
      exact ⟨hgrown, hle⟩
    | some q' =>
      rw [hq'] at he
      cases he
      have hs := (Ring.enqueue_spec hq').1
      refine ⟨?_, hs ▸ hle⟩
      unfold Grown
      rwa [hs]

theorem processPacket_narrow (hmax : s.maxQueueSize.toNat ≤ 2 ^ 26)
    (hn : ∀ r f, s.heap r = some f → Narrow f.queue) (h : s.processPacket E pkt now = some s') :
    s'.maxQueueSize = s.maxQueueSize ∧ ∀ r f, s'.heap r = some f → Narrow f.queue := by
  unfold processPacket at h
  simp only at h
  cases hlook : s.flows.look E.hashing (E.getId pkt) with
  | some r =>
    simp only [hlook] at h
    obtain ⟨f, hf, h⟩ := Option.bind_eq_some_iff.mp h
    obtain ⟨⟨g, lost⟩, hg, h⟩ := Option.bind_eq_some_iff.mp h
    cases h
    refine ⟨rfl, fun r' f' hf' => ?_⟩
    rcases update_cases hf' with ⟨-, he⟩ | ⟨-, hf'⟩
    · cases he
      exact enqueue_narrow hmax (hn r f hf) hg
    · exact hn r' f' hf'
  | none =>
    simp only [hlook] at h
    split at h
    · cases h
      exact ⟨rfl, hn⟩
    · unfold addNewFlow at h
      obtain ⟨queue, hqueue, h⟩ := Option.bind_eq_some_iff.mp h
      obtain ⟨⟨o, flows⟩, -, h⟩ := Option.bind_eq_some_iff.mp h
      obtain ⟨⟨g, lost⟩, hg, h⟩ := Option.bind_eq_some_iff.mp h
      obtain ⟨ring, -, h⟩ := Option.bind_eq_some_iff.mp h
      cases h
      refine ⟨rfl, fun r' f' hf' => ?_⟩
      rcases update_cases hf' with ⟨-, he⟩ | ⟨-, hf'⟩
      · cases he
        exact enqueue_narrow hmax (narrow_new hqueue) hg
      · exact hn r' f' hf'

theorem Visited.narrow {room : Nat} {pkts : List P}
    (hn : ∀ r f, s.heap r = some f → Narrow f.queue) (hv : Visited E s room s' pkts) :
    ∀ r f, s'.heap r = some f → Narrow f.queue := by
  intro r' g hg
  cases hv with
  | removed hring hf hempty => exact hn r' g (heap_of_removed hg).2
  | kept hring hring' hf hempty => exact hn r' g hg
  | @served r f rest ring hring hring' hf hne =>
    rcases update_cases hg with ⟨-, he⟩ | ⟨-, hg⟩
    · cases he
      have hs := (Flow.serve_drains (E := E) s.quantum room f).1.slots
      unfold Narrow Grown
      rw [hs]
      exact hn r f hf
    · exact hn r' g hg

theorem Visits.narrow {Q : Drr P τ → List P → Prop} {pkts pkts' : List P}
    (hv : Visits E Q s pkts s' pkts') (hn : ∀ r f, s.heap r = some f → Narrow f.queue) :
    ∀ r f, s'.heap r = some f → Narrow f.queue := by
  induction hv with
  | refl => exact hn
  | step hroom hq hv hrest ih => exact ih (hv.narrow hn)

/-! ## One event -/

/-- The table and the ring agree, and no queue is too large. -/
structure Sound (E : Env P τ) (s : Drr P τ) : Prop where
  linked : Linked E s
  narrow : ∀ r f, s.heap r = some f → Narrow f.queue
  max : s.maxQueueSize.toNat ≤ 2 ^ 26

/-- There is room in the table for the id of the packet, if it starts a flow. -/
def HasRoom (E : Env P τ) (s : Drr P τ) (pkt : P) : Prop :=
  s.flows.look E.hashing (E.getId pkt) = none → s.flowRing.isFull = false →
    s.flows.Roomy E.hashing (E.getId pkt)

theorem Sound.processPacket (h : Sound E s) (hr : HasRoom E s pkt) (now : τ) :
    ∃ s', s.processPacket E pkt now = some s' ∧ Sound E s' := by
  have hmax := h.max
  obtain ⟨s', hs', ha⟩ := h.linked.processPacket (fun r f hf => (h.narrow r f hf).1) (by omega)
    (fun hnew hfull => h.linked.rep.takes_of_roomy (hr hnew hfull)) now
  obtain ⟨heq, hn⟩ := processPacket_narrow h.max h.narrow hs'
  exact ⟨s', hs', ha.linked h.linked, hn, heq ▸ h.max⟩

/-- There is room for the id of each packet that starts a flow, when its turn comes. -/
def AllHaveRoom (E : Env P τ) : Drr P τ → List (P × τ) → Prop
  | _, [] => True
  | s, (pkt, now) :: batch =>
    HasRoom E s pkt ∧ ∀ s', s.processPacket E pkt now = some s' → AllHaveRoom E s' batch

theorem Sound.processBatch (h : Sound E s) (hr : AllHaveRoom E s batch) :
    ∃ s', s.processBatch E batch = some s' ∧ Sound E s' := by
  induction batch generalizing s with
  | nil => exact ⟨s, rfl, h⟩
  | cons x batch ih =>
    obtain ⟨pkt, now⟩ := x
    obtain ⟨s₁, hs₁, h₁⟩ := h.processPacket hr.1 now
    obtain ⟨s', hs', h'⟩ := ih h₁ (hr.2 s₁ hs₁)
    exact ⟨s', by simp [Drr.processBatch, hs₁, hs'], h'⟩

theorem Sound.runTask (h : Sound E s) (overload : Bool) (clock : Nat → τ) :
    ∃ s' out, s.runTask E overload clock = some (s', out) ∧ Sound E s' := by
  unfold Drr.runTask
  cases overload with
  | true => exact ⟨s, _, rfl, h⟩
  | false =>
    obtain ⟨s', batch, hs', hv⟩ := h.linked.getNextBatch clock
    exact ⟨s', _, by rw [hs']; rfl, hv.linked h.linked, hv.narrow h.narrow, hv.frame.2.1 ▸ h.max⟩

def World.HasRoom (E : Env P τ) (w : World P τ) : Event P τ → Prop
  | .processBatch batch => AllHaveRoom E w.drr batch
  | .runTask _ _ => True

theorem World.step_sound {ev : Event P τ} (h : Sound E w.drr) (hr : w.HasRoom E ev) :
    ∃ w', w.step E ev = some w' ∧ Sound E w'.drr := by
  cases ev with
  | processBatch batch =>
    obtain ⟨s', hs', h'⟩ := h.processBatch hr
    exact ⟨_, by rw [World.step, hs']; rfl, h'⟩
  | runTask overload clock =>
    obtain ⟨s', out, hs', h'⟩ := h.runTask overload clock
    exact ⟨_, by rw [World.step, hs']; rfl, h'⟩

/-! ## Runs -/

/-- The table and the ring agree, and the bytes of each queue are counted in an `int`. -/
def World.Orderly (E : Env P τ) (w : World P τ) : Prop :=
  Consistent E w.drr ∧ ∀ r f, w.drr.heap r = some f → f.queue.slots ≤ 2 ^ 27

theorem Sound.orderly (h : Sound E w.drr) : w.Orderly E :=
  ⟨h.linked.consistent, fun r f hf => (h.narrow r f hf).2⟩

/-- It is so before the events and after each of them, and each of them returns. -/
def World.Agrees (E : Env P τ) : World P τ → List (Event P τ) → Prop
  | w, [] => w.Orderly E
  | w, ev :: evs => w.Orderly E ∧ ∃ w', w.step E ev = some w' ∧ World.Agrees E w' evs

/-- There is room in the table for each flow that is started. -/
def World.AllHaveRoom (E : Env P τ) : World P τ → List (Event P τ) → Prop
  | _, [] => True
  | w, ev :: evs => w.HasRoom E ev ∧ ∀ w', w.step E ev = some w' → World.AllHaveRoom E w' evs

theorem Sound.agrees (h : Sound E w.drr) {evs : List (Event P τ)} (hr : w.AllHaveRoom E evs) :
    w.Agrees E evs := by
  induction evs generalizing w with
  | nil => exact h.orderly
  | cons ev evs ih =>
    obtain ⟨w', hw', h'⟩ := World.step_sound h hr.1
    exact ⟨h.orderly, w', hw', ih h' (hr.2 w' hw')⟩

theorem roundToPowerTwo_le {v : UInt32} (h0 : 0 < v.toNat) (h : v.toNat ≤ 2 ^ 27) :
    (roundToPowerTwo v).toNat ≤ 2 ^ 27 := by
  have hor : ∀ x k : UInt32, x.toNat < 2 ^ 27 → (x ||| x >>> k).toNat < 2 ^ 27 := by
    intro x k hx
    rw [UInt32.toNat_or, UInt32.toNat_shiftRight]
    exact Nat.or_lt_two_pow hx (Nat.lt_of_le_of_lt (Nat.shiftRight_le _ _) hx)
  have hsub : (v - 1).toNat < 2 ^ 27 := by
    have hone : (1 : UInt32).toNat = 1 := rfl
    rw [UInt32.toNat_sub_of_le v 1 (UInt32.le_iff_toNat_le.mpr (hone ▸ h0)), hone]
    omega
  have hlast := hor _ 16 (hor _ 8 (hor _ 4 (hor _ 2 (hor _ 1 hsub))))
  unfold roundToPowerTwo
  simp only [UInt32.toNat_add]
  refine Nat.le_trans (Nat.mod_le _ _) ?_
  have : (1 : UInt32).toNat = 1 := rfl
  omega

theorem sound_init {numFlows maxFlowQueueSize quantum : UInt32} (hflows : numFlows.toNat < 2 ^ 27)
    (hqueue : maxFlowQueueSize.toNat ≤ 2 ^ 26)
    (h : Drr.init numFlows maxFlowQueueSize quantum = some s) :
    s.flowRing.slots ≤ 2 ^ 27 ∧ Sound E s := by
  have hlinked := (inv_init (E := E) h).1.linked
  unfold Drr.init at h
  obtain ⟨ring, hring, he⟩ := Option.bind_eq_some_iff.mp h
  cases he
  refine ⟨?_, hlinked, fun r f hf => ?_, ?_⟩
  · simp only [(Ring.init_spec hring).1]
    split
    · have hsucc : (numFlows + 1).toNat = numFlows.toNat + 1 := by
        rw [UInt32.toNat_add]
        exact Nat.mod_eq_of_lt (Nat.lt_of_le_of_lt (Nat.succ_le_of_lt hflows) (by decide))
      exact roundToPowerTwo_le (by omega) (by omega)
    · decide
  · cases hf
  · simp only
    split
    · exact hqueue
    · decide

/-- In any run of `ProcessBatch` and `RunTask` with rings whose bytes an `int` can count, in which
there is room in the table for each flow that is started, the table and the ring agree on the flows
throughout. -/
theorem World.agrees_of_room {numFlows maxFlowQueueSize quantum : UInt32}
    (hflows : numFlows.toNat < 2 ^ 27) (hqueue : maxFlowQueueSize.toNat ≤ 2 ^ 26)
    (h : Drr.init numFlows maxFlowQueueSize quantum = some s) (evs : List (Event P τ))
    (hr : World.AllHaveRoom E ⟨s, [], []⟩ evs) :
    s.flowRing.slots ≤ 2 ^ 27 ∧ World.Agrees E ⟨s, [], []⟩ evs := by
  obtain ⟨hring, hsound⟩ := sound_init (E := E) hflows hqueue h
  exact ⟨hring, Sound.agrees hsound hr⟩

/-- Packets that are the source addresses of their flows, all with the same hash. -/
def collidingEnv : Env UInt32 Nat where
  pktLen _ := 64
  getId src := { srcIp := src, dstIp := 0, srcPort := 0, dstPort := 0, protocol := 17 }
  hash _ := 0
  epoch := 0
  expired now timer := timer + 300 < now

theorem one_flow_agrees :
    ∃ s : Drr UInt32 Nat, Drr.init 0 0 0 = some s ∧
      World.Agrees collidingEnv ⟨s, [], []⟩
        [.processBatch [(1, 0)], .runTask false fun _ => 1] := by
  obtain ⟨s, hs⟩ : ∃ s : Drr UInt32 Nat, Drr.init 0 0 0 = some s := ⟨_, rfl⟩
  refine ⟨s, hs, (World.agrees_of_room (by decide) (by decide) hs _ ?_).2⟩
  have hroom : HasRoom collidingEnv s 1 := by
    cases hs
    exact fun _ _ => .inr (.inl (CuckooMap.room_new ..))
  exact ⟨⟨hroom, fun _ _ => trivial⟩, fun _ _ => ⟨trivial, fun _ _ => trivial⟩⟩

/-- Two buckets hold eight flows of one hash. The ninth is not taken, and its second packet starts
another flow of the same id: both are in the ring, and the table knows neither. -/
theorem ninth_flow_twice :
    ((Drr.init 0 0 0).bind fun s => World.run collidingEnv ⟨s, [], []⟩
        [.processBatch ([1, 2, 3, 4, 5, 6, 7, 8, 9, 9].map (·, 0))]).map (fun w =>
      (w.drr.flowRing.items, w.drr.flowRing.items.map fun r => (w.drr.heap r).map (·.id.srcIp),
        w.drr.flows.look collidingEnv.hashing (collidingEnv.getId 9))) =
      some ([0, 1, 2, 3, 4, 5, 6, 7, 8, 9],
        [some 1, some 2, some 3, some 4, some 5, some 6, some 7, some 8, some 9, some 9], none) := by
  decide +kernel

end Bess.Modules.Drr
