import Mathlib.Data.List.Nodup
import Mathlib.Data.List.Perm.Basic
import Mathlib.Logic.Function.Basic

/-!
# The rings of a virtual port

`AllocBar` of `drivers/vport.cc` lays out two rings for every incoming and every outgoing queue in one
block of memory and keeps pointers to them in `inc_qs_` and `out_qs_`. `FreeBar` is to drain all of
them. Its second loop, which counts the outgoing queues, drains the rings of the incoming queues again.

A pointer to a ring is its offset in the block. An entry of `inc_qs_` or `out_qs_` that was never
written is missing from the list; a loop that follows it has no defined meaning (`none`).
-/

namespace Bess.VPort

abbrev Paddr := Nat

/-- What the rings hold, by offset: physical addresses of packet buffers. -/
abbrev Rings := Nat → List Paddr

/-- `ROUND_TO_64`, which rounds to the nearest multiple. -/
def roundTo64 (x : Nat) : Nat := (x + 32) / 64 * 64

def slotsPerLlring : Nat := 256

/-- Four cache lines, and eight bytes for each slot. -/
def llringBytesWithSlots (slots : Nat) : Nat := 4 * 64 + 8 * slots

def bytesPerLlring : Nat := llringBytesWithSlots slotsPerLlring

/-- `sizeof(struct sn_conf_space)` -/
def sizeofConfSpace : Nat := 64

/-- `sizeof(struct sn_rxq_registers)` -/
def sizeofRxqRegisters : Nat := 128

structure Queue where
  rxRegs : Option Nat
  drvToSn : Nat
  snToDrv : Nat
  deriving DecidableEq

def Queue.rings (q : Queue) : List Nat := [q.drvToSn, q.snToDrv]

structure Bar where
  numTxq : Nat
  numRxq : Nat
  incQs : List Queue
  outQs : List Queue

/-- The first loop of `AllocBar`, with `ptr` relative to the block. -/
def allocTxqs : Nat → Nat → List Queue × Nat
  | 0, ptr => ([], ptr)
  | n + 1, ptr =>
    let drvToSn := ptr
    let snToDrv := drvToSn + roundTo64 bytesPerLlring
    let rest := allocTxqs n (snToDrv + roundTo64 bytesPerLlring)
    (⟨none, drvToSn, snToDrv⟩ :: rest.1, rest.2)

/-- The second loop, where registers come before the rings. -/
def allocRxqs : Nat → Nat → List Queue × Nat
  | 0, ptr => ([], ptr)
  | n + 1, ptr =>
    let drvToSn := ptr + roundTo64 sizeofRxqRegisters
    let snToDrv := drvToSn + roundTo64 bytesPerLlring
    let rest := allocRxqs n (snToDrv + roundTo64 bytesPerLlring)
    (⟨some ptr, drvToSn, snToDrv⟩ :: rest.1, rest.2)

/-- `AllocBar` for a port with `numInc` incoming and `numOut` outgoing queues. -/
def allocBar (numInc numOut : Nat) : Bar :=
  let inc := allocTxqs numInc (roundTo64 sizeofConfSpace)
  let out := allocRxqs numOut inc.2
  ⟨numInc, numOut, inc.1, out.1⟩

/-! ## FreeBar -/

section Free

variable {Buf : Type} (fromPaddr : Paddr → Option Buf)

/-- The buffers that are freed while a ring of this content is dequeued until it is empty. -/
def drainSnToDrvQ : List Paddr → List Buf
  | [] => []
  | paddr :: rest =>
    match fromPaddr paddr with
    | none => drainSnToDrvQ rest
    | some snb => snb :: drainSnToDrvQ rest

/-- `Packet::Free` takes a null pointer too. -/
def drainDrvToSnQ : List Paddr → List Buf
  | [] => []
  | paddr :: rest => (fromPaddr paddr).toList ++ drainDrvToSnQ rest

/-- The rings and what was freed so far. -/
structure Freeing (Buf : Type) where
  rings : Rings
  freed : List Buf

/-- The two calls in the body of each loop. -/
def drainQueue (s : Freeing Buf) (q : Queue) : Freeing Buf :=
  let s : Freeing Buf := ⟨Function.update s.rings q.drvToSn [],
    s.freed ++ drainDrvToSnQ fromPaddr (s.rings q.drvToSn)⟩
  ⟨Function.update s.rings q.snToDrv [], s.freed ++ drainSnToDrvQ fromPaddr (s.rings q.snToDrv)⟩

/-- A loop over the first `n` entries of `qs`. -/
def drainQueues (qs : List Queue) (n : Nat) (s : Freeing Buf) : Option (Freeing Buf) :=
  (List.range n).foldlM (fun s i => qs[i]?.map (drainQueue fromPaddr s)) s

/-- Both loops follow `inc_qs_`. -/
def freeBar (b : Bar) (rings : Rings) : Option (Freeing Buf) :=
  (drainQueues fromPaddr b.incQs b.numTxq ⟨rings, []⟩).bind
    (drainQueues fromPaddr b.incQs b.numRxq)

end Free

/-- The offsets of the rings that `AllocBar` initialised. -/
def Bar.ringOffsets (b : Bar) : List Nat := (b.incQs ++ b.outQs).flatMap Queue.rings

/-- The buffers held in the rings at these offsets. -/
def heldBuffers {Buf : Type} (fromPaddr : Paddr → Option Buf) (rings : Rings) (offsets : List Nat) :
    List Buf :=
  offsets.flatMap fun o => (rings o).filterMap fromPaddr

/-- Every ring of the port is emptied, nothing else is touched, and what they held is freed once. -/
def FreesAll {Buf : Type} (fromPaddr : Paddr → Option Buf) (b : Bar) (rings : Rings) : Prop :=
  ∃ s, freeBar fromPaddr b rings = some s ∧ (∀ o ∈ b.ringOffsets, s.rings o = []) ∧
    (∀ o, o ∉ b.ringOffsets → s.rings o = rings o) ∧
    s.freed.Perm (heldBuffers fromPaddr rings b.ringOffsets)

/-! ## The layout -/

variable {n numInc numOut ptr : Nat}

theorem length_allocTxqs (n ptr : Nat) : (allocTxqs n ptr).1.length = n := by
  induction n generalizing ptr with
  | zero => rfl
  | succ n ih => rw [allocTxqs, List.length_cons, ih]

/-- Offsets that increase from `ptr` up to `stop`. -/
def Ascending (ptr stop : Nat) (offsets : List Nat) : Prop :=
  offsets.Pairwise (· < ·) ∧ ∀ o ∈ offsets, ptr ≤ o ∧ o < stop

theorem Ascending.cons_queue {q : Queue} {offsets : List Nat} {mid stop : Nat}
    (h : Ascending mid stop offsets) (hstop : mid ≤ stop) (h1 : ptr ≤ q.drvToSn)
    (h2 : q.drvToSn < q.snToDrv) (h3 : q.snToDrv < mid) :
    Ascending ptr stop (q.rings ++ offsets) := by
  have hbounds := h.2
  refine ⟨?_, fun o ho => ?_⟩
  · refine List.pairwise_append.mpr ⟨?_, h.1, fun a ha b hb => ?_⟩
    · simpa [Queue.rings] using h2
    · have := hbounds b hb
      rcases List.mem_pair.mp ha with rfl | rfl
      · omega
      · omega
  · rcases List.mem_append.mp ho with ho | ho
    · rcases List.mem_pair.mp ho with rfl | rfl
      · omega
      · omega
    · have := hbounds o ho
      omega

theorem allocTxqs_ascending (n ptr : Nat) : ptr ≤ (allocTxqs n ptr).2 ∧
    Ascending ptr (allocTxqs n ptr).2 ((allocTxqs n ptr).1.flatMap Queue.rings) := by
  have hring : 0 < roundTo64 bytesPerLlring := by decide
  induction n generalizing ptr with
  | zero => exact ⟨Nat.le_refl _, .nil, by simp [allocTxqs]⟩
  | succ n ih =>
    simp only [allocTxqs, List.flatMap_cons]
    obtain ⟨hle, hasc⟩ := ih (ptr + roundTo64 bytesPerLlring + roundTo64 bytesPerLlring)
    refine ⟨by omega, hasc.cons_queue hle ?_ ?_ ?_⟩
    · exact Nat.le_refl _
    · exact Nat.lt_add_of_pos_right hring
    · exact Nat.lt_add_of_pos_right hring

theorem allocRxqs_ascending (n ptr : Nat) : ptr ≤ (allocRxqs n ptr).2 ∧
    Ascending ptr (allocRxqs n ptr).2 ((allocRxqs n ptr).1.flatMap Queue.rings) := by
  have hring : 0 < roundTo64 bytesPerLlring := by decide
  induction n generalizing ptr with
  | zero => exact ⟨Nat.le_refl _, .nil, by simp [allocRxqs]⟩
  | succ n ih =>
    simp only [allocRxqs, List.flatMap_cons]
    obtain ⟨hle, hasc⟩ := ih (ptr + roundTo64 sizeofRxqRegisters + roundTo64 bytesPerLlring +
      roundTo64 bytesPerLlring)
    refine ⟨by omega, hasc.cons_queue hle ?_ ?_ ?_⟩
    · exact Nat.le_add_right _ _
    · exact Nat.lt_add_of_pos_right hring
    · exact Nat.lt_add_of_pos_right hring

/-- No two rings share their place. -/
theorem nodup_ringOffsets (numInc numOut : Nat) : (allocBar numInc numOut).ringOffsets.Nodup := by
  obtain ⟨-, hinc, hincLt⟩ := allocTxqs_ascending numInc (roundTo64 sizeofConfSpace)
  obtain ⟨-, hout, houtGe⟩ :=
    allocRxqs_ascending numOut (allocTxqs numInc (roundTo64 sizeofConfSpace)).2
  have hall : (allocBar numInc numOut).ringOffsets.Pairwise (· < ·) := by
    rw [Bar.ringOffsets, List.flatMap_append]
    refine List.pairwise_append.mpr ⟨hinc, hout, fun a ha b hb => ?_⟩
    have := hincLt a ha
    have := houtGe b hb
    omega
  exact hall.imp Nat.ne_of_lt

/-! ## Draining -/

section Drain

variable {Buf : Type} {fromPaddr : Paddr → Option Buf} {s : Freeing Buf} {qs : List Queue}
  {rings : Rings}

theorem drainSnToDrvQ_eq (l : List Paddr) : drainSnToDrvQ fromPaddr l = l.filterMap fromPaddr := by
  induction l with
  | nil => rfl
  | cons p l ih =>
    rw [drainSnToDrvQ, List.filterMap_cons]
    cases fromPaddr p with
    | none => exact ih
    | some b => exact congrArg (b :: ·) ih

theorem drainDrvToSnQ_eq (l : List Paddr) : drainDrvToSnQ fromPaddr l = l.filterMap fromPaddr := by
  induction l with
  | nil => rfl
  | cons p l ih =>
    rw [drainDrvToSnQ, List.filterMap_cons, ih]
    cases fromPaddr p with
    | none => rfl
    | some b => rfl

/-- The ring at `o` is emptied. -/
def drainRing (fromPaddr : Paddr → Option Buf) (s : Freeing Buf) (o : Nat) : Freeing Buf :=
  ⟨Function.update s.rings o [], s.freed ++ (s.rings o).filterMap fromPaddr⟩

theorem drainQueue_eq (s : Freeing Buf) (q : Queue) :
    drainQueue fromPaddr s q = q.rings.foldl (drainRing fromPaddr) s := by
  simp only [drainQueue, drainSnToDrvQ_eq, drainDrvToSnQ_eq, Queue.rings, List.foldl_cons,
    List.foldl_nil, drainRing]

theorem drainQueues_eq (qs : List Queue) (n : Nat) (s : Freeing Buf) :
    drainQueues fromPaddr qs n s =
      if n ≤ qs.length then some (((qs.take n).flatMap Queue.rings).foldl (drainRing fromPaddr) s)
      else none := by
  induction n with
  | zero => simp [drainQueues]
  | succ n ih =>
    have hsucc : drainQueues fromPaddr qs (n + 1) s =
        (drainQueues fromPaddr qs n s).bind fun s => qs[n]?.map (drainQueue fromPaddr s) := by
      unfold drainQueues
      rw [List.range_succ, List.foldlM_append]
      simp only [List.foldlM_cons, List.foldlM_nil, Option.bind_eq_bind]
      congr 1
      funext s
      cases qs[n]? <;> rfl
    rw [hsucc, ih]
    by_cases hn : n < qs.length
    · have hn' : n + 1 ≤ qs.length := hn
      rw [if_pos (Nat.le_of_lt hn), if_pos hn', Option.bind_some, List.getElem?_eq_getElem hn,
        Option.map_some, drainQueue_eq, ← List.take_append_getElem hn, List.flatMap_append,
        List.foldl_append]
      simp
    · have hn' : ¬ n + 1 ≤ qs.length := hn
      rw [if_neg hn']
      split
      · rw [Option.bind_some, List.getElem?_eq_none (by omega)]
        rfl
      · rfl

theorem rings_drainRings (offsets : List Nat) (s : Freeing Buf) (o : Nat) :
    (offsets.foldl (drainRing fromPaddr) s).rings o = if o ∈ offsets then [] else s.rings o := by
  induction offsets generalizing s with
  | nil => simp
  | cons a offsets ih =>
    rw [List.foldl_cons, ih]
    by_cases ho : o = a
    · subst ho
      simp [drainRing]
    · simp [drainRing, ho]

theorem freed_drainRings {offsets : List Nat} (hnodup : offsets.Nodup) (s : Freeing Buf) :
    (offsets.foldl (drainRing fromPaddr) s).freed =
      s.freed ++ heldBuffers fromPaddr s.rings offsets := by
  induction offsets generalizing s with
  | nil => simp [heldBuffers]
  | cons a offsets ih =>
    obtain ⟨ha, hrest⟩ := List.nodup_cons.mp hnodup
    have hsame : heldBuffers fromPaddr (Function.update s.rings a []) offsets =
        heldBuffers fromPaddr s.rings offsets := by
      unfold heldBuffers
      refine List.flatMap_congr fun o ho => ?_
      rw [Function.update_of_ne (by rintro rfl; exact ha ho)]
    rw [List.foldl_cons, ih hrest, drainRing, hsame, List.append_assoc]
    rfl

/-- Nothing happens to rings that are empty. -/
theorem drainRings_empty {offsets : List Nat} (h : ∀ o ∈ offsets, s.rings o = []) :
    offsets.foldl (drainRing fromPaddr) s = s := by
  induction offsets with
  | nil => rfl
  | cons a offsets ih =>
    obtain ⟨ha, hrest⟩ := List.forall_mem_cons.mp h
    have hsame : drainRing fromPaddr s a = s := by
      rw [drainRing, ha, List.filterMap_nil, List.append_nil, ← ha, Function.update_eq_self]
    rw [List.foldl_cons, hsame]
    exact ih hrest

/-- What `FreeBar` does: if there are no more outgoing than incoming queues, it drains the rings of
the incoming ones. -/
theorem freeBar_eq (numInc numOut : Nat) (rings : Rings) :
    freeBar fromPaddr (allocBar numInc numOut) rings =
      if numOut ≤ numInc then
        some (((allocBar numInc numOut).incQs.flatMap Queue.rings).foldl (drainRing fromPaddr)
          ⟨rings, []⟩)
      else none := by
  have hlen : (allocBar numInc numOut).incQs.length = numInc := length_allocTxqs numInc _
  have hnum : (allocBar numInc numOut).numTxq = numInc := rfl
  have hnumOut : (allocBar numInc numOut).numRxq = numOut := rfl
  rw [freeBar, drainQueues_eq, hnum, hnumOut, if_pos (by omega), List.take_of_length_le (by omega),
    Option.bind_some, drainQueues_eq, hlen]
  split
  · rw [drainRings_empty]
    intro o ho
    obtain ⟨q, hq, ho⟩ := List.mem_flatMap.mp ho
    rw [rings_drainRings, if_pos (List.mem_flatMap.mpr ⟨q, List.mem_of_mem_take hq, ho⟩)]
  · rfl

end Drain

/-- `FreeBar` does its work if and only if there are no more outgoing than incoming queues and the
rings of the outgoing queues are empty already. -/
theorem freesAll_iff {Buf : Type} (fromPaddr : Paddr → Option Buf) (numInc numOut : Nat)
    (rings : Rings) :
    FreesAll fromPaddr (allocBar numInc numOut) rings ↔
      numOut ≤ numInc ∧ ∀ q ∈ (allocBar numInc numOut).outQs, ∀ o ∈ q.rings, rings o = [] := by
  have hnodup := nodup_ringOffsets numInc numOut
  have hoffsets : (allocBar numInc numOut).ringOffsets =
      (allocBar numInc numOut).incQs.flatMap Queue.rings ++
        (allocBar numInc numOut).outQs.flatMap Queue.rings := List.flatMap_append
  rw [hoffsets, List.nodup_append] at hnodup
  obtain ⟨hinc, -, hapart⟩ := hnodup
  unfold FreesAll
  rw [freeBar_eq, hoffsets]
  constructor
  · rintro ⟨s, hs, hempty, -, -⟩
    split at hs
    · rename_i hle
      cases hs
      refine ⟨hle, fun q hq o ho => ?_⟩
      have hout := List.mem_flatMap.mpr ⟨q, hq, ho⟩
      have hrings := hempty o (List.mem_append_right _ hout)
      rwa [rings_drainRings, if_neg fun hm => hapart o hm o hout rfl] at hrings
    · cases hs
  · rintro ⟨hle, hout⟩
    have hout' : ∀ o ∈ (allocBar numInc numOut).outQs.flatMap Queue.rings, rings o = [] := fun o ho => by
      obtain ⟨q, hq, ho⟩ := List.mem_flatMap.mp ho
      exact hout q hq o ho
    refine ⟨_, if_pos hle, fun o ho => ?_, fun o ho => ?_, ?_⟩
    · rw [rings_drainRings]
      split
      · rfl
      · rename_i hm
        exact hout' o ((List.mem_append.mp ho).resolve_left hm)
    · rw [rings_drainRings, if_neg fun hm => ho (List.mem_append_left _ hm)]
    · have hnone : heldBuffers fromPaddr rings
          ((allocBar numInc numOut).outQs.flatMap Queue.rings) = [] := by
        rw [heldBuffers, List.flatMap_eq_nil_iff]
        intro o ho
        rw [hout' o ho, List.filterMap_nil]
      have hheld : heldBuffers fromPaddr rings ((allocBar numInc numOut).incQs.flatMap Queue.rings ++
          (allocBar numInc numOut).outQs.flatMap Queue.rings) =
          heldBuffers fromPaddr rings ((allocBar numInc numOut).incQs.flatMap Queue.rings) := by
        rw [heldBuffers, List.flatMap_append]
        exact (congrArg _ hnone).trans (List.append_nil _)
      rw [hheld, freed_drainRings hinc, List.nil_append]

/-- A packet that the driver has not taken from an outgoing queue yet, at address 7. -/
def onePending : Rings := fun o => if o = 7104 then [7] else []

/-- One incoming and one outgoing queue: the packet stays in its ring, and nothing is freed. -/
theorem pending_packet_leaked :
    (allocBar 1 1).outQs = [⟨some 4672, 4800, 7104⟩] ∧
    ((freeBar some (allocBar 1 1) onePending).map fun s => (s.freed, s.rings 7104)) =
      some ([], [7]) ∧
    ¬ FreesAll some (allocBar 1 1) onePending := by
  refine ⟨by decide, by decide, ?_⟩
  rintro ⟨s, hs, hempty, -⟩
  have hring : ((freeBar some (allocBar 1 1) onePending).map fun s => s.rings 7104) = some [7] := by
    decide
  rw [hs, Option.map_some, hempty 7104 (by decide)] at hring
  cases hring

end Bess.VPort
