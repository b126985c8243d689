import Bess.Utils.TcpFlowReconstruct

/-!
# What InsertPacket reads and writes

The calls of `InsertPacket` one by one, SYNs in between included. As long as no segment ends beyond
offset `2 ^ 31`, the map holds the union of the ranges that were stored, unless the buffer is to grow
for a segment that ends right there: its new size is computed in 32 bits and is 0. The lengths in the
headers are not compared with what the packet has.
-/

namespace Bess.TcpFlow

open Bess.ByteMem Bess.Headers Bess.Intervals

/-- A packet with its data from the IPv4 header on, whose length is counted in 16 bits. -/
structure Frame where
  mem : Mem
  len : Nat
  len_lt : len < 2 ^ 16

namespace TcpFlowReconstruct

/-- The range of the stream that a call stores. -/
def rangeOf (r : TcpFlowReconstruct) (pkt : Mem) : Option Interval :=
  if isSyn pkt = true ∨ r.initialized = false ∨ (seqNum pkt - r.initSeq).toInt < 0 ∨ dataLen pkt = 0
  then none
  else some ((seqNum pkt - r.initSeq).toNat, (seqNum pkt - r.initSeq).toNat + dataLen pkt)

/-- The buffer is large enough already, or can be made so. -/
def Fits (r : TcpFlowReconstruct) (pkt : Mem) : Prop :=
  ∀ a, r.rangeOf pkt = some a → a.2 < 2 ^ 31 ∨ a.2 ≤ r.bufSize

variable {r r' : TcpFlowReconstruct} {pkt : Mem} {pkts : List Mem} {a : Interval}

theorem rangeOf_some (h : r.rangeOf pkt = some a) :
    isSyn pkt = false ∧ r.initialized = true ∧ 0 ≤ (seqNum pkt - r.initSeq).toInt ∧ dataLen pkt ≠ 0 ∧
      a.1 = (seqNum pkt - r.initSeq).toNat ∧ a.2 = a.1 + dataLen pkt ∧ a.1 < 2 ^ 31 := by
  unfold rangeOf at h
  split at h
  · cases h
  · rename_i hn
    cases h
    simp only [not_or, Bool.not_eq_true, Bool.not_eq_false, not_lt] at hn
    refine ⟨hn.1, hn.2.1, hn.2.2.1, hn.2.2.2, rfl, rfl, ?_⟩
    have hpos := hn.2.2.1
    have hcond := BitVec.toInt_eq_toNat_cond (seqNum pkt - r.initSeq)
    simp only
    split at hcond <;> omega

theorem insertPacket_of_none (h : r.rangeOf pkt = none) :
    ∃ ok r', r.insertPacket pkt = some (ok, r') ∧ r'.receivedMap = r.receivedMap := by
  unfold rangeOf at h
  split at h
  · rename_i hor
    unfold insertPacket
    simp only
    split
    · exact ⟨_, _, rfl, rfl⟩
    split
    · exact ⟨_, _, rfl, rfl⟩
    split
    · exact ⟨_, _, rfl, rfl⟩
    · rename_i h1 h2 h3
      rw [if_pos (by tauto)]
      exact ⟨_, _, rfl, rfl⟩
  · cases h

/-- The size of the buffer when the range is copied into it. -/
def room (r : TcpFlowReconstruct) (stop : Nat) : Nat :=
  if r.bufSize < stop % 2 ^ 32 then stop % 2 ^ 32 * 2 % 2 ^ 32 else r.bufSize

theorem insertPacket_of_some (h : r.rangeOf pkt = some a) :
    (a.2 ≤ r.room a.2 → ∃ r', r.insertPacket pkt = some (true, r') ∧
      r'.receivedMap = merge a.1 (a.2 % 2 ^ 32) r.receivedMap) ∧
    (r.room a.2 < a.2 → r.insertPacket pkt = none) := by
  obtain ⟨hsyn, hinit, hacc, hlen, hstart, hstop, -⟩ := rangeOf_some h
  have hsize : (if r.bufSize < a.2 % 2 ^ 32 then r.resize (a.2 % 2 ^ 32 * 2 % 2 ^ 32) else r).bufSize =
      r.room a.2 := by
    unfold room
    split <;> rfl
  have hmap : (if r.bufSize < a.2 % 2 ^ 32 then r.resize (a.2 % 2 ^ 32 * 2 % 2 ^ 32) else r).receivedMap =
      r.receivedMap := by
    split <;> rfl
  unfold insertPacket
  simp only [hsyn, hinit, Bool.false_eq_true, if_false, Bool.true_eq_false, if_neg (not_lt.mpr hacc),
    if_neg hlen, ← hstart, ← hstop, hsize, hmap]
  constructor
  · intro hle
    rw [if_neg (not_lt.mpr hle)]
    exact ⟨_, rfl, rfl⟩
  · intro hlt
    rw [if_pos hlt]

theorem room_iff (h : a.2 < 2 ^ 32) : a.2 ≤ r.room a.2 ↔ a.2 < 2 ^ 31 ∨ a.2 ≤ r.bufSize := by
  unfold room
  split <;> omega

/-! ## The ranges of a run -/

/-- The ranges that the calls store, up to one that leaves the buffer. -/
def rangesAlong (r : TcpFlowReconstruct) : List Mem → List Interval
  | [] => []
  | pkt :: pkts => (r.rangeOf pkt).toList ++
      match r.insertPacket pkt with
      | none => []
      | some (_, r) => r.rangesAlong pkts

/-- No call makes the buffer grow for a segment that ends at `2 ^ 31` or beyond. -/
def FitsAlong (r : TcpFlowReconstruct) : List Mem → Prop
  | [] => True
  | pkt :: pkts => r.Fits pkt ∧ ∀ ok r', r.insertPacket pkt = some (ok, r') → r'.FitsAlong pkts

/-- The map holds the ranges `l`, and each set of numbers in one way only. -/
structure MapRight (r : TcpFlowReconstruct) (l : List Interval) : Prop where
  normal : Normal r.receivedMap
  union : ∀ i, Covers r.receivedMap i ↔ Covers l i

theorem step_cases (hend : ∀ a, r.rangeOf pkt = some a → a.2 ≤ 2 ^ 31) (hn : Normal r.receivedMap) :
    (r.Fits pkt ∧ ∃ ok r', r.insertPacket pkt = some (ok, r') ∧ Normal r'.receivedMap ∧
      ∀ i, Covers r'.receivedMap i ↔ Covers (r.rangeOf pkt).toList i ∨ Covers r.receivedMap i) ∨
    (¬ r.Fits pkt ∧ r.insertPacket pkt = none) := by
  cases h : r.rangeOf pkt with
  | none =>
    obtain ⟨ok, r', heq, hmap⟩ := insertPacket_of_none h
    refine .inl ⟨fun a ha => ?_, ok, r', heq, hmap ▸ hn, fun i => ?_⟩
    · rw [h] at ha
      cases ha
    · rw [hmap, Option.toList_none, or_iff_right covers_nil]
  | some a =>
    have hle := hend a h
    obtain ⟨hok, hfail⟩ := insertPacket_of_some h
    obtain ⟨-, -, -, hlen, -, hstop, -⟩ := rangeOf_some h
    have hfits : r.Fits pkt ↔ a.2 ≤ r.room a.2 := by
      rw [room_iff (by omega), Fits]
      simp only [h, Option.some.injEq, forall_eq']
    rw [hfits]
    by_cases hroom : a.2 ≤ r.room a.2
    · obtain ⟨r', heq, hmap⟩ := hok hroom
      rw [Nat.mod_eq_of_lt (by omega)] at hmap
      obtain ⟨hnormal, hcovers⟩ := merge_spec hn (show a.1 < a.2 by omega)
      refine .inl ⟨hroom, true, r', heq, hmap ▸ hnormal, fun i => ?_⟩
      rw [hmap, hcovers, Option.toList_some, covers_cons, or_iff_left covers_nil]
    · exact .inr ⟨hroom, hfail (not_le.mp hroom)⟩

theorem insertAll_iff {l : List Interval} (hl : r.MapRight l)
    (hend : ∀ a ∈ r.rangesAlong pkts, a.2 ≤ 2 ^ 31) :
    (∃ r', r.insertAll pkts = some r' ∧ r'.MapRight (l ++ r.rangesAlong pkts)) ↔ r.FitsAlong pkts := by
  induction pkts generalizing r l with
  | nil => exact iff_of_true ⟨r, rfl, by simpa [rangesAlong] using hl⟩ trivial
  | cons pkt pkts ih =>
    simp only [rangesAlong, insertAll, FitsAlong] at hend ⊢
    have hend₀ : ∀ a, r.rangeOf pkt = some a → a.2 ≤ 2 ^ 31 := fun a ha =>
      hend a (List.mem_append_left _ (by simp [ha]))
    rcases step_cases hend₀ hl.normal with ⟨hfits, ok, r₁, heq, hn, hc⟩ | ⟨hnot, heq⟩
    · simp only [heq, Option.some.injEq, Prod.mk.injEq] at hend ⊢
      have h₁ : r₁.MapRight (l ++ (r.rangeOf pkt).toList) := by
        refine ⟨hn, fun i => ?_⟩
        rw [hc, hl.union, covers_append, or_comm]
      rw [← List.append_assoc, ih h₁ fun a ha => hend a (List.mem_append_right _ ha)]
      constructor
      · rintro h
        refine ⟨hfits, ?_⟩
        rintro _ _ ⟨rfl, rfl⟩
        exact h
      · exact fun h => h.2 ok r₁ ⟨rfl, rfl⟩
    · simp [heq, hnot]

theorem mapRight_new (initialBuflen : Nat) : (new initialBuflen).MapRight [] :=
  ⟨⟨fun _ ha => absurd ha List.not_mem_nil, .nil⟩, fun _ => Iff.rfl⟩

/-- In every run with segments that end at `2 ^ 31` at most: the map is in order and holds the union of
the ranges that were stored iff no call makes the buffer grow for a segment that ends right there. Runs
that store the same ranges in another order then end with the same map. -/
theorem map_right_iff (initialBuflen : Nat) (pkts : List Mem)
    (hend : ∀ a ∈ (new initialBuflen).rangesAlong pkts, a.2 ≤ 2 ^ 31) :
    ((∃ r, (new initialBuflen).insertAll pkts = some r ∧
        r.MapRight ((new initialBuflen).rangesAlong pkts)) ↔
      (new initialBuflen).FitsAlong pkts) ∧
    ∀ pkts', (new initialBuflen).FitsAlong pkts → (new initialBuflen).FitsAlong pkts' →
      ((new initialBuflen).rangesAlong pkts').Perm ((new initialBuflen).rangesAlong pkts) →
      ((new initialBuflen).insertAll pkts').map receivedMap =
        ((new initialBuflen).insertAll pkts).map receivedMap := by
  refine ⟨insertAll_iff (mapRight_new initialBuflen) hend, fun pkts' hfits hfits' hperm => ?_⟩
  obtain ⟨r, hr, h⟩ := (insertAll_iff (mapRight_new initialBuflen) hend).mpr hfits
  obtain ⟨r', hr', h'⟩ := (insertAll_iff (mapRight_new initialBuflen)
    fun a ha => hend a (hperm.mem_iff.mp ha)).mpr hfits'
  rw [hr, hr', Option.map_some, Option.map_some, h'.normal.ext h.normal fun i => ?_]
  rw [h.union, h'.union]
  exact exists_congr fun a => and_congr_left' hperm.mem_iff

/-- Segments that end before `2 ^ 31` fit. -/
theorem fitsAlong_of_lt (h : ∀ a ∈ r.rangesAlong pkts, a.2 < 2 ^ 31) : r.FitsAlong pkts := by
  induction pkts generalizing r with
  | nil => trivial
  | cons pkt pkts ih =>
    refine ⟨fun a ha => .inl (h a ?_), fun ok r' hr => ih fun a ha => h a ?_⟩
    · rw [rangesAlong, ha]
      exact List.mem_append_left _ (List.mem_singleton_self a)
    · rw [rangesAlong, hr]
      exact List.mem_append_right _ ha

theorem wrapped_map_right :
    (∀ a ∈ (new 1024).rangesAlong (wrappedSyn :: wrapped), a.2 ≤ 2 ^ 31) ∧
      ∃ r, (new 1024).insertAll (wrappedSyn :: wrapped) = some r ∧
        r.MapRight ((new 1024).rangesAlong (wrappedSyn :: wrapped)) := by
  have hend : ∀ a ∈ (new 1024).rangesAlong (wrappedSyn :: wrapped), a.2 ≤ 2 ^ 31 := by decide
  have hfits : (new 1024).FitsAlong (wrappedSyn :: wrapped) := fitsAlong_of_lt (by decide)
  exact ⟨hend, (map_right_iff 1024 _ hend).1.mpr hfits⟩

/-- The byte at offset `2 ^ 31 - 1` ends at `2 ^ 31`, and its copy leaves the buffer. -/
theorem last_byte_lost :
    (∀ a ∈ (new 1024).rangesAlong [zeroSyn, farthest], a.2 ≤ 2 ^ 31) ∧
      (new 1024).insertAll [zeroSyn, farthest] = none := by
  decide

/-! ## The bytes that are touched -/

/-- The parts of the packet that a call reads: the header length, the sequence number and the flags;
the data offset and the total length, unless the packet is a SYN or refused; and the data. -/
def reads (r : TcpFlowReconstruct) (pkt : Mem) : List Interval :=
  [(0, 1), (l4 pkt + 4, l4 pkt + 8), (l4 pkt + 13, l4 pkt + 14)] ++
    if isSyn pkt = true ∨ r.initialized = false ∨ (seqNum pkt - r.initSeq).toInt < 0 then []
    else [(l4 pkt + 12, l4 pkt + 13), (2, 4), (0, 1)] ++
      if dataLen pkt = 0 then [] else [(dataStart pkt, dataStart pkt + dataLen pkt)]

/-- Nothing behind the data of the packet is read, and the copy stays inside of the buffer. -/
def InBounds (r : TcpFlowReconstruct) (f : Frame) : Prop :=
  (∀ a ∈ r.reads f.mem, a.2 ≤ f.len) ∧ r.insertPacket f.mem ≠ none

/-- The packet has the headers, and if data is stored, its length fields describe a part of the packet
for which the buffer has room. -/
def Sane (r : TcpFlowReconstruct) (f : Frame) : Prop :=
  l4 f.mem + 14 ≤ f.len ∧ ∀ a, r.rangeOf f.mem = some a →
    dataStart f.mem ≤ ipLength f.mem ∧ ipLength f.mem ≤ f.len ∧ (a.2 < 2 ^ 31 ∨ a.2 ≤ r.bufSize)

theorem insertPacket_ne_none_iff :
    r.insertPacket pkt ≠ none ↔ ∀ a, r.rangeOf pkt = some a → a.2 ≤ r.room a.2 := by
  cases h : r.rangeOf pkt with
  | none =>
    obtain ⟨ok, r', heq, -⟩ := insertPacket_of_none h
    simp [heq]
  | some a =>
    obtain ⟨hok, hfail⟩ := insertPacket_of_some h
    simp only [Option.some.injEq, forall_eq']
    by_cases hroom : a.2 ≤ r.room a.2
    · obtain ⟨r', heq, -⟩ := hok hroom
      simp [heq, hroom]
    · simp [hfail (not_le.mp hroom), hroom]

theorem reads_iff {n : Nat} : (∀ a ∈ r.reads pkt, a.2 ≤ n) ↔
    l4 pkt + 14 ≤ n ∧ (r.rangeOf pkt ≠ none → dataStart pkt + dataLen pkt ≤ n) := by
  unfold reads rangeOf
  by_cases hstop : isSyn pkt = true ∨ r.initialized = false ∨ (seqNum pkt - r.initSeq).toInt < 0
  · rw [if_pos hstop, if_pos (by tauto)]
    simp
    omega
  · rw [if_neg hstop]
    by_cases hlen : dataLen pkt = 0
    · rw [if_pos hlen, if_pos (by tauto)]
      simp
      omega
    · rw [if_neg hlen, if_neg (by tauto)]
      simp
      omega

/-- For every state and every packet, whatever its headers say. -/
theorem inBounds_iff (r : TcpFlowReconstruct) (f : Frame) : r.InBounds f ↔ r.Sane f := by
  rw [InBounds, Sane, reads_iff, insertPacket_ne_none_iff, and_assoc]
  refine and_congr_right fun _ => ?_
  cases h : r.rangeOf f.mem with
  | none => simp
  | some a =>
    simp only [ne_eq, reduceCtorEq, not_false_eq_true, forall_const, Option.some.injEq, forall_eq']
    obtain ⟨-, -, -, -, -, hstop, hstart⟩ := rangeOf_some h
    have hip : ipLength f.mem < 2 ^ 16 := BitVec.isLt _
    have hlen := f.len_lt
    -- a length that wraps around is longer than any packet
    have hdata : dataStart f.mem + dataLen f.mem ≤ f.len ↔
        dataStart f.mem ≤ ipLength f.mem ∧ ipLength f.mem ≤ f.len := by
      unfold dataLen dataStart
      omega
    rw [hdata, and_assoc]
    refine and_congr_right fun hle => and_congr_right fun _ => ?_
    have hshort : dataLen f.mem < 2 ^ 16 := by
      unfold dataLen
      unfold dataStart at hle
      omega
    exact room_iff (by omega)

/-- The first five bytes of a stream, of which the packet has none. -/
def cutFrame : Frame := ⟨tcpPacket 0#32 0 [1, 2, 3, 4, 5], 40, by decide⟩

/-- After a SYN, five bytes behind the data of the packet are read; one byte at offset `2 ^ 31 - 1` is
written outside of the buffer. -/
theorem insertPacket_out_of_bounds :
    ∃ r, (new 1024).insertAll [zeroSyn] = some r ∧
      ¬ r.InBounds cutFrame ∧ ¬ r.InBounds ⟨farthest, 41, by decide⟩ := by
  refine ⟨_, rfl, ?_, ?_⟩
  · intro h
    exact absurd (h.1 (40, 45) (by decide)) (by decide)
  · intro h
    exact h.2 (by decide)

end TcpFlowReconstruct
end Bess.TcpFlow
