import Bess.Lib.ByteMem
import Bess.Modules.GateList
import Mathlib.Data.List.Flatten
import Mathlib.Data.List.Count

/-!
# Copies to a list of gates

`modules/replicate.cc` sends a copy of each packet to every gate of its list but the first, and then
the packet itself to gate zero, whatever the first gate of the list is. A packet is its bytes, in one
segment.
-/

namespace Bess.Modules

open Bess.ByteMem

/-- `SNBUF_DATA` -/
def snbufData : Nat := 2048

/-- `Packet::copy`. `append` returns null if the packet does not fit behind the headroom of a new
buffer, which nobody checks; otherwise `CopyInlined` copies all of it. -/
def copyPacket (data : List Byte) : Option (List Byte) :=
  if snbufData < data.length then none else some data

structure Replicate where
  gates : Gates
  ngates : Nat

namespace Replicate

def kMaxGates : Nat := 32

def commandSetGates (s : Replicate) (arg : List Int) : Option Failure × Replicate :=
  if kMaxGates < arg.length then (some (.msg EINVAL "no more than 32 gates"), s)
  else (none, ⟨(storeGates (fun _ => true) s.gates 0 arg).1, arg.length⟩)

/-- `Init` does the same to a module whose gates are zero. -/
def init (arg : List Int) : Option Failure × Replicate := commandSetGates ⟨fun _ => 0, 0⟩ arg

/-- A packet that is emitted on a gate. -/
abbrev Emitted := Gate × List Byte

/-- The packets emitted for one packet, if every allocation succeeds. -/
def replicate (s : Replicate) (tocopy : List Byte) : Option (List Emitted) := do
  let copies ← (List.range' 1 (s.ngates - 1)).mapM fun j => do
    let newpkt ← copyPacket tocopy
    some (s.gates j, newpkt)
  some (copies ++ [(0, tocopy)])

def processBatch (s : Replicate) (batch : List (List Byte)) : Option (List Emitted) := do
  let emitted ← batch.mapM s.replicate
  some emitted.flatten

/-- One packet for each packet of the batch and each entry of the list. -/
def wanted (list : List Int) (batch : List (List Byte)) : List (Int × List Byte) :=
  batch.flatMap fun p => list.map fun g => (g, p)

/-- The packets with the numbers of their gates, in any order, are those that are wanted. -/
def Right (s : Replicate) (list : List Int) (batch : List (List Byte)) : Prop :=
  ∃ out, s.processBatch batch = some out ∧
    (out.map fun e => ((e.1.toNat : Int), e.2)).Perm (wanted list batch)

/-- The first gate is zero, the others fit in 16 bits, and a packet that is copied fits in a buffer. -/
structure Suits (list : List Int) (batch : List (List Byte)) : Prop where
  first : list.head? = some 0
  others : ∀ g ∈ list, 0 ≤ g ∧ g < 65536
  fits : 1 < list.length → ∀ p ∈ batch, p.length ≤ snbufData

variable {s : Replicate} {list : List Int} {batch : List (List Byte)} {p : List Byte}

/-- What is emitted for one packet. -/
def emittedFor (list : List Int) (p : List Byte) : List Emitted :=
  list.tail.map (fun g => (gateIdx g, p)) ++ [(0, p)]

theorem map_range'_tail {f : Nat → Emitted} {g : Int → Emitted} (list : List Int)
    (h : ∀ j < list.length, f j = g (list.getD j 0)) :
    (List.range' 1 (list.length - 1)).map f = list.tail.map g := by
  apply List.ext_getElem
  · simp
  · intro i h1 h2
    simp only [List.length_map, List.length_range', List.length_tail] at h1 h2
    simp only [List.getElem_map, List.getElem_range', List.getElem_tail]
    rw [h _ (by omega), List.getD_eq_getElem?_getD, List.getElem?_eq_getElem (by omega)]
    simp only [Option.getD_some, Nat.add_comm, Nat.one_mul]

/-- The module after a list was accepted. -/
def Configured (s : Replicate) (list : List Int) : Prop :=
  s.ngates = list.length ∧ ∀ k < list.length, s.gates k = gateIdx (list.getD k 0)

theorem configured_of_setGates {s₀ : Replicate} (h : s₀.commandSetGates list = (none, s)) :
    Configured s list := by
  unfold commandSetGates at h
  split at h
  · cases h
  · cases h
    exact ⟨rfl, fun k hk => storeGates_accepted (storeGates_none_iff.mpr fun _ _ => rfl) hk⟩

theorem replicate_of_fits (h : Configured s list) (hp : 1 < list.length → p.length ≤ snbufData) :
    s.replicate p = some (emittedFor list p) := by
  have hcopies : (List.range' 1 (s.ngates - 1)).mapM (fun j => do
      let newpkt ← copyPacket p
      some (s.gates j, newpkt)) = some (list.tail.map fun g => (gateIdx g, p)) := by
    rw [← map_range'_tail (f := fun j => (s.gates j, p)) list fun j hj => by rw [h.2 j hj], h.1]
    by_cases hlong : 1 < list.length
    · have hcopy : copyPacket p = some p := if_neg (not_lt.mpr (hp hlong))
      simp only [hcopy, Option.bind_eq_bind, Option.bind_some]
      exact List.mapM_pure
    · rw [show list.length - 1 = 0 by omega]
      rfl
  rw [replicate, hcopies]
  rfl

theorem fits_of_replicate (h : Configured s list) (hlong : 1 < list.length) {out : List Emitted}
    (hout : s.replicate p = some out) : p.length ≤ snbufData := by
  by_contra hp
  have hcopy : copyPacket p = none := if_pos (not_le.mp hp)
  obtain ⟨n, hn⟩ : ∃ n, s.ngates - 1 = n + 1 := ⟨s.ngates - 2, by rw [h.1]; omega⟩
  rw [replicate, hn, List.range'_succ, List.mapM_cons, hcopy] at hout
  cases hout

theorem processBatch_of_fits (h : Configured s list)
    (hfits : 1 < list.length → ∀ p ∈ batch, p.length ≤ snbufData) :
    s.processBatch batch = some (batch.flatMap (emittedFor list)) := by
  have hmap : batch.mapM s.replicate = some (batch.map (emittedFor list)) := by
    induction batch with
    | nil => rfl
    | cons p batch ih =>
      rw [List.mapM_cons, replicate_of_fits h fun hlong => hfits hlong p List.mem_cons_self,
        ih fun hlong q hq => hfits hlong q (List.mem_cons_of_mem _ hq)]
      rfl
  rw [processBatch, hmap]
  rfl

theorem fits_of_processBatch (h : Configured s list) {out : List Emitted}
    (hout : s.processBatch batch = some out) (hlong : 1 < list.length) :
    ∀ p ∈ batch, p.length ≤ snbufData := by
  obtain ⟨emitted, hmap, -⟩ := Option.bind_eq_some_iff.mp hout
  clear hout
  induction batch generalizing emitted with
  | nil => exact fun _ hp => absurd hp List.not_mem_nil
  | cons p batch ih =>
    rw [List.mapM_cons] at hmap
    obtain ⟨first, hfirst, hmap⟩ := Option.bind_eq_some_iff.mp hmap
    obtain ⟨rest, hrest, -⟩ := Option.bind_eq_some_iff.mp hmap
    exact List.forall_mem_cons.mpr ⟨fits_of_replicate h hlong hfirst, ih rest hrest⟩

/-! ## Comparing the gates -/

theorem toNat_gateIdx {g : Int} (h : 0 ≤ g ∧ g < 65536) : ((gateIdx g).toNat : Int) = g := by
  rw [gateIdx, BitVec.toNat_ofInt]
  omega

theorem numbered_emittedFor (p : List Byte) (hr : ∀ g ∈ list, 0 ≤ g ∧ g < 65536) :
    (emittedFor list p).map (fun e => ((e.1.toNat : Int), e.2)) =
      (list.tail ++ [0]).map fun g => (g, p) := by
  rw [emittedFor, List.map_append, List.map_append, List.map_map]
  congr 1
  refine List.map_congr_left fun g hg => ?_
  rw [Function.comp_apply, toNat_gateIdx (hr g (List.mem_of_mem_tail hg))]

theorem numbered_flatMap (hr : ∀ g ∈ list, 0 ≤ g ∧ g < 65536) :
    (batch.flatMap (emittedFor list)).map (fun e => ((e.1.toNat : Int), e.2)) =
      wanted (list.tail ++ [0]) batch := by
  rw [List.map_flatMap]
  exact List.flatMap_congr fun p _ => numbered_emittedFor p hr

theorem wanted_perm {l l' : List Int} (h : l.Perm l') (batch : List (List Byte)) :
    (wanted l batch).Perm (wanted l' batch) :=
  List.Perm.flatMap_left batch fun _ _ => h.map _

/-- How often a gate is used tells how often it is in the list. -/
theorem perm_of_wanted {l l' : List Int} (hne : batch ≠ [])
    (h : (wanted l batch).Perm (wanted l' batch)) : l.Perm l' := by
  have hcount : ∀ (l : List Int) a,
      ((wanted l batch).map Prod.fst).count a = batch.length * l.count a := by
    intro l a
    have hfst : (wanted l batch).map Prod.fst = batch.flatMap fun _ => l := by
      rw [wanted, List.map_flatMap]
      refine List.flatMap_congr fun p _ => ?_
      rw [List.map_map]
      exact List.map_id l
    rw [hfst]
    clear hne h hfst
    induction batch with
    | nil => simp
    | cons p batch ih =>
      rw [List.flatMap_cons, List.count_append, ih, List.length_cons, Nat.add_one_mul, Nat.add_comm]
  rw [List.perm_iff_count]
  intro a
  have hlen : 0 < batch.length := List.length_pos_iff.mpr hne
  have := (h.map Prod.fst).count_eq a
  rw [hcount, hcount] at this
  exact Nat.eq_of_mul_eq_mul_left hlen this

theorem tail_perm_iff : (list.tail ++ [0]).Perm list ↔ list.head? = some 0 := by
  cases list with
  | nil => simp
  | cons g list =>
    rw [List.tail_cons, List.head?_cons, Option.some.injEq]
    constructor
    · intro h
      have h0 := ((List.perm_append_singleton 0 list).symm.trans h).count_eq g
      rw [List.count_cons, List.count_cons_self] at h0
      by_contra hg
      rw [if_neg (by simpa using Ne.symm hg)] at h0
      omega
    · rintro rfl
      exact List.perm_append_singleton 0 list

/-- For every list that a request configures, from any state, and every batch. -/
theorem copies_right_iff {s₀ : Replicate} (h : s₀.commandSetGates list = (none, s))
    (batch : List (List Byte)) : Right s list batch ↔ batch = [] ∨ Suits list batch := by
  have hconf := configured_of_setGates h
  constructor
  · rintro ⟨out, hout, hperm⟩
    by_cases hne : batch = []
    · exact .inl hne
    · have hfits := fits_of_processBatch hconf hout
      rw [processBatch_of_fits hconf hfits] at hout
      cases hout
      obtain ⟨p, batch', rfl⟩ := List.exists_cons_of_ne_nil hne
      have hr : ∀ g ∈ list, 0 ≤ g ∧ g < 65536 := by
        intro g hg
        have hmem : (g, p) ∈ wanted list (p :: batch') :=
          List.mem_flatMap.mpr ⟨p, List.mem_cons_self, List.mem_map_of_mem hg⟩
        obtain ⟨e, -, he⟩ := List.mem_map.mp (hperm.symm.subset hmem)
        have hlt := e.1.isLt
        have hg : (e.1.toNat : Int) = g := congrArg Prod.fst he
        omega
      rw [numbered_flatMap hr] at hperm
      exact .inr ⟨tail_perm_iff.mp (perm_of_wanted hne hperm), hr, hfits⟩
  · rintro (rfl | hsuits)
    · exact ⟨[], rfl, List.Perm.nil⟩
    · refine ⟨_, processBatch_of_fits hconf hsuits.fits, ?_⟩
      rw [numbered_flatMap hsuits.others]
      exact wanted_perm (tail_perm_iff.mpr hsuits.first) batch

/-- The gates 0 and 1. -/
def zeroOne : Replicate := ⟨(storeGates (fun _ => true) (fun _ => 0) 0 [0, 1]).1, 2⟩

theorem zeroOne_right : init [0, 1] = (none, zeroOne) ∧ Right zeroOne [0, 1] [[7#8], [8#8]] := by
  have hinit : init [0, 1] = (none, zeroOne) := rfl
  refine ⟨hinit, (copies_right_iff hinit _).mpr (.inr ⟨rfl, by decide, fun _ => ?_⟩)⟩
  decide

/-- With the gates 1 and 2, and with no gate, the packet itself goes to gate zero. -/
theorem first_gate_ignored :
    (init [1, 2]).2.processBatch [[7#8]] = some [(2, [7#8]), (0, [7#8])] ∧
    (init []).2.processBatch [[7#8]] = some [(0, [7#8])] ∧
    ¬ Right (init [1, 2]).2 [1, 2] [[7#8]] ∧ ¬ Right (init []).2 [] [[7#8]] := by
  have h1 : (init [1, 2]).2.processBatch [[7#8]] = some [(2, [7#8]), (0, [7#8])] := rfl
  have h2 : (init []).2.processBatch [[7#8]] = some [(0, [7#8])] := rfl
  refine ⟨h1, h2, ?_, ?_⟩
  · rintro ⟨out, hout, hperm⟩
    cases h1.symm.trans hout
    exact absurd hperm (by decide)
  · rintro ⟨out, hout, hperm⟩
    cases h2.symm.trans hout
    exact absurd hperm (by decide)

end Replicate

end Bess.Modules
