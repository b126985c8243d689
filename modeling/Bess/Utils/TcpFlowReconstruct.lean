import Bess.Lib.Intervals
import Bess.Utils.Headers
import Mathlib.Data.List.Induction
import Mathlib.Data.List.TakeWhile
import Mathlib.Order.Bounds.Basic

/-!
# TcpFlowReconstruct

`tcp_flow_reconstruct.h`. The data of TCP segments is copied into a buffer at its offset from the
initial sequence number; a map holds the ranges that were received, merged where they touch. The
length that is reported is that of the first range, wherever it starts. So it is right exactly if
nothing was received or the first byte was: otherwise no byte is available, and bytes that were never
received are reported.

A copy that leaves the buffer is `none`. A packet is the memory from its IPv4 header on.
-/

namespace Bess.TcpFlow

open Bess.ByteMem Bess.Headers Bess.Intervals

/-! ## Fields of a packet -/

def kSyn : Byte := 0x02#8

def seqNum (pkt : Mem) : BitVec 32 := bswap32 (load32 pkt (l4 pkt + 4))

def flags (pkt : Mem) : Byte := pkt (l4 pkt + 13)

def isSyn (pkt : Mem) : Bool := flags pkt &&& kSyn ≠ 0

/-- `tcp->offset * 4` -/
def tcpHeaderLength (pkt : Mem) : Nat := 4 * ((pkt (l4 pkt + 12)).toNat / 16)

def dataStart (pkt : Mem) : Nat := l4 pkt + tcpHeaderLength pkt

/-- As a `uint32_t`. -/
def dataLen (pkt : Mem) : Nat :=
  (((ipLength pkt : Int) - tcpHeaderLength pkt - l4 pkt) % 2 ^ 32).toNat

/-! ## The buffer -/

structure TcpFlowReconstruct where
  initialized : Bool
  initSeq : BitVec 32
  buf : Mem
  bufSize : Nat
  receivedMap : List Interval

def TcpFlowReconstruct.new (initialBuflen : Nat) : TcpFlowReconstruct :=
  ⟨false, 0, fun _ => 0, initialBuflen, []⟩

/-- New bytes are zero. -/
def TcpFlowReconstruct.resize (r : TcpFlowReconstruct) (size : Nat) : TcpFlowReconstruct :=
  { r with buf := fun i => if i < r.bufSize ∧ i < size then r.buf i else 0, bufSize := size }

def TcpFlowReconstruct.contiguousLen (r : TcpFlowReconstruct) : Nat :=
  match r.receivedMap with
  | [] => 0
  | a :: _ => a.2 - a.1

/-- `std::map::emplace` -/
def emplace (a : Interval) : List Interval → List Interval
  | [] => [a]
  | b :: l =>
    if b.1 < a.1 then b :: emplace a l
    else if a.1 < b.1 then a :: b :: l
    else b :: l

/-- The end of `InsertPacket`: `before` and `after` are the ranges before and from `it` on. -/
def mergeAt (start stop : Nat) (before after : List Interval) : List Interval :=
  let (stop, after) := absorb stop after
  emplace (start, stop) (before ++ after)

/-- Merges a range with those it touches, from `lower_bound(start)` on. -/
def merge (start stop : Nat) (l : List Interval) : List Interval :=
  let before := l.takeWhile fun a => a.1 < start
  let after := l.dropWhile fun a => a.1 < start
  match before.getLast? with
  | some prev =>
    if start ≤ prev.2 then mergeAt prev.1 stop before.dropLast (prev :: after)
    else mergeAt start stop before after
  | none => mergeAt start stop before after

def TcpFlowReconstruct.insertPacket (r : TcpFlowReconstruct) (pkt : Mem) :
    Option (Bool × TcpFlowReconstruct) :=
  let seq := seqNum pkt
  if isSyn pkt then some (true, { r with initSeq := seq + 1, initialized := true })
  else if r.initialized = false then some (false, r)
  else if (seq - r.initSeq).toInt < 0 then some (false, r)
  else
    let bufOffset := (seq - r.initSeq).toNat
    let datalen := dataLen pkt
    if datalen = 0 then some (true, r)
    else
      let stop := (bufOffset + datalen) % 2 ^ 32
      let r := if r.bufSize < stop then r.resize (stop * 2 % 2 ^ 32) else r
      if r.bufSize < bufOffset + datalen then none
      else some (true, { r with
        buf := fun i =>
          if bufOffset ≤ i ∧ i < bufOffset + datalen then pkt (dataStart pkt + (i - bufOffset))
          else r.buf i
        receivedMap := merge bufOffset stop r.receivedMap })

/-! ## Merging -/

section Merge

variable {l before after : List Interval} {start stop : Nat}

theorem emplace_between {a : Interval} (hb : ∀ b ∈ before, b.1 < a.1)
    (ha : ∀ b ∈ after, a.1 < b.1) : emplace a (before ++ after) = before ++ a :: after := by
  induction before with
  | nil =>
    cases after with
    | nil => rfl
    | cons b after =>
      have := ha b (List.mem_cons_self ..)
      rw [List.nil_append, emplace, if_neg (by omega), if_pos this]
      rfl
  | cons b before ih =>
    obtain ⟨hlt, hb⟩ := List.forall_mem_cons.mp hb
    rw [List.cons_append, emplace, if_pos hlt, ih hb]
    rfl

/-- The ranges before `it` end below the new one, and those from `it` on do not start below it. -/
theorem mergeAt_spec (hb : Normal before) (ha : Normal after) (hlt : start < stop)
    (hbefore : ∀ b ∈ before, b.2 < start) (hafter : ∀ b ∈ after, start ≤ b.1) :
    Normal (mergeAt start stop before after) ∧
      ∀ i, Covers (mergeAt start stop before after) i ↔
        (start ≤ i ∧ i < stop) ∨ Covers before i ∨ Covers after i := by
  obtain ⟨hle, hnormal, habove, hcovers⟩ := absorb_spec ha hlt.le hafter
  have hemplace : mergeAt start stop before after =
      before ++ (start, (absorb stop after).1) :: (absorb stop after).2 := by
    apply emplace_between
    · intro b hmem
      have := hb.nonempty b hmem
      have := hbefore b hmem
      simp only
      omega
    · intro b hmem
      have := habove b hmem
      simp only
      omega
  rw [hemplace]
  constructor
  · refine normal_append.mpr ⟨hb, normal_cons.mpr ⟨by simp only; omega, habove, hnormal⟩, ?_⟩
    intro a hmem b hmem'
    have := hbefore a hmem
    rcases List.mem_cons.mp hmem' with rfl | hmem'
    · exact this
    · have := habove b hmem'
      omega
  · intro i
    rw [covers_append, covers_cons, hcovers, or_left_comm]

/-- Only the last of the ranges that start below `start` can touch the new one. -/
theorem mergeAt_of_split (hl : Normal (before ++ after)) (hlt : start < stop)
    (hbefore : ∀ b ∈ before, b.1 < start) (hafter : ∀ b ∈ after, start ≤ b.1)
    (hlast : ∀ prev, before.getLast? = some prev → prev.2 < start) :
    Normal (mergeAt start stop before after) ∧
      ∀ i, Covers (mergeAt start stop before after) i ↔
        (start ≤ i ∧ i < stop) ∨ Covers (before ++ after) i := by
  obtain ⟨hb, ha, -⟩ := normal_append.mp hl
  simp only [covers_append]
  refine mergeAt_spec hb ha hlt ?_ hafter
  intro b hmem
  obtain ⟨pre, prev, rfl⟩ := List.eq_nil_or_concat' before |>.resolve_left (List.ne_nil_of_mem hmem)
  have hprev := hlast prev (by simp)
  rcases List.mem_append.mp hmem with hmem | hmem
  · have := (normal_append.mp hb).2.2 b hmem prev (List.mem_singleton.mpr rfl)
    have := hb.nonempty prev (by simp)
    omega
  · cases List.mem_singleton.mp hmem
    exact hprev

theorem merge_spec (hl : Normal l) (hlt : start < stop) :
    Normal (merge start stop l) ∧
      ∀ i, Covers (merge start stop l) i ↔ (start ≤ i ∧ i < stop) ∨ Covers l i := by
  unfold merge
  obtain ⟨before, hb⟩ : ∃ before, before = l.takeWhile fun a => a.1 < start := ⟨_, rfl⟩
  obtain ⟨after, ha⟩ : ∃ after, after = l.dropWhile fun a => a.1 < start := ⟨_, rfl⟩
  have hsplit : l = before ++ after := by
    rw [hb, ha]
    exact List.takeWhile_append_dropWhile.symm
  have hbefore : ∀ b ∈ before, b.1 < start := by
    intro b hmem
    rw [hb] at hmem
    simpa using List.mem_takeWhile_imp hmem
  rw [hsplit] at hl
  obtain ⟨hnb, hna, -⟩ := normal_append.mp hl
  have hafter : ∀ b ∈ after, start ≤ b.1 := by
    cases after with
    | nil => simp
    | cons c rest =>
      have hc : ¬ c.1 < start := by
        have := List.head?_dropWhile_not (fun a : Interval => decide (a.1 < start)) l
        rw [← ha] at this
        simpa using this
      obtain ⟨hcc, hcb, -⟩ := normal_cons.mp hna
      intro b hmem
      rcases List.mem_cons.mp hmem with rfl | hmem
      · omega
      · have := hcb b hmem
        omega
  simp only [← hb, ← ha]
  split
  · rename_i prev hprev
    split
    · rename_i htouch
      -- the new range is that of `prev` up to `stop`
      obtain ⟨pre, rfl⟩ : ∃ pre, before = pre ++ [prev] :=
        ⟨before.dropLast, (List.dropLast_append_getLast? prev hprev).symm⟩
      rw [List.dropLast_concat]
      obtain ⟨hpre, -, hcross⟩ := normal_append.mp hnb
      have hstart := hbefore prev (by simp)
      have hne := hnb.nonempty prev (by simp)
      have hafter' : Normal (prev :: after) := by
        rw [List.append_assoc] at hl
        exact (normal_append.mp hl).2.1
      obtain ⟨hnormal, hcovers⟩ := mergeAt_spec hpre hafter' (show prev.1 < stop by omega)
        (fun b hmem => hcross b hmem prev (List.mem_singleton.mpr rfl))
        (by
          intro b hmem
          rcases List.mem_cons.mp hmem with rfl | hmem
          · exact le_rfl
          · have := hafter b hmem
            omega)
      refine ⟨hnormal, fun i => ?_⟩
      rw [hcovers, hsplit, List.append_assoc, covers_append, List.singleton_append, covers_cons]
      have hrange : (prev.1 ≤ i ∧ i < stop) ∨ (prev.1 ≤ i ∧ i < prev.2) ↔
          (start ≤ i ∧ i < stop) ∨ (prev.1 ≤ i ∧ i < prev.2) := by
        omega
      rw [or_left_comm, or_left_comm (b := Covers pre i), ← or_assoc (b := prev.1 ≤ i ∧ i < prev.2),
        hrange, or_assoc]
    · rename_i hgap
      rw [hsplit]
      refine mergeAt_of_split hl hlt hbefore hafter fun prev' h' => ?_
      rw [hprev] at h'
      cases h'
      omega
  · rename_i hnone
    rw [hsplit]
    refine mergeAt_of_split hl hlt hbefore hafter fun prev' h' => ?_
    rw [hnone] at h'
    cases h'

end Merge

/-! ## Segments -/

/-- Bytes of the stream, and where they are in it. -/
structure Segment where
  offset : Nat
  data : List Byte
  deriving DecidableEq

def Segment.at (s : Segment) (i : Nat) : Option Byte :=
  if s.offset ≤ i then s.data[i - s.offset]? else none

/-- The byte of the most recent segment that covers a position, the last one of the list. -/
def latest (segs : List Segment) (i : Nat) : Option Byte :=
  segs.foldl (fun b s => (s.at i).or b) none

variable {init : BitVec 32} {pkt : Mem} {pkts : List Mem} {segs : List Segment} {i : Nat}
  {r r' : TcpFlowReconstruct}

theorem latest_append (segs : List Segment) (s : Segment) (i : Nat) :
    latest (segs ++ [s]) i = (s.at i).or (latest segs i) := by
  rw [latest, List.foldl_append]
  rfl

theorem latest_isSome_iff : (latest segs i).isSome ↔ ∃ s ∈ segs, (s.at i).isSome := by
  induction segs using List.reverseRecOn with
  | nil => simp [latest]
  | append_singleton segs s ih => simp [latest_append, ih, or_and_right, exists_or, or_comm]

def segmentOf (init : BitVec 32) (pkt : Mem) : Segment :=
  ⟨(seqNum pkt - init).toNat, bytes pkt (dataStart pkt) (dataLen pkt)⟩

theorem getElem?_bytes (m : Mem) (o n k : Nat) :
    (bytes m o n)[k]? = if k < n then some (m (o + k)) else none := by
  induction n generalizing o k with
  | zero => simp [bytes]
  | succ n ih =>
    cases k with
    | zero => simp [bytes]
    | succ k =>
      rw [bytes, List.getElem?_cons_succ, ih]
      simp only [Nat.add_lt_add_iff_right]
      rw [Nat.add_assoc, Nat.add_comm 1 k]

theorem segmentOf_at (init : BitVec 32) (pkt : Mem) (i : Nat) :
    (segmentOf init pkt).at i =
      if (seqNum pkt - init).toNat ≤ i ∧ i < (seqNum pkt - init).toNat + dataLen pkt then
        some (pkt (dataStart pkt + (i - (seqNum pkt - init).toNat)))
      else none := by
  unfold Segment.at segmentOf
  simp only [getElem?_bytes]
  split
  · split
    · rw [if_pos (by omega)]
    · rw [if_neg (by omega)]
  · rw [if_neg (by omega)]

/-- No SYN, and the headers are not longer than the packet. -/
structure WellFormed (pkt : Mem) : Prop where
  not_syn : isSyn pkt = false
  headers : dataStart pkt ≤ ipLength pkt

theorem WellFormed.dataLen_eq (h : WellFormed pkt) :
    dataLen pkt = ipLength pkt - dataStart pkt ∧ dataLen pkt < 2 ^ 16 := by
  have hlt : ipLength pkt < 2 ^ 16 := BitVec.isLt _
  have hle := h.headers
  unfold dataLen dataStart at *
  omega

/-- The sequence number is not before the initial one. -/
def Accepted (init : BitVec 32) (pkt : Mem) : Prop := 0 ≤ (seqNum pkt - init).toInt

instance (init : BitVec 32) (pkt : Mem) : Decidable (Accepted init pkt) :=
  inferInstanceAs (Decidable (_ ≤ _))

/-- The segments of the packets that are accepted. -/
def inserted (init : BitVec 32) (pkts : List Mem) : List Segment :=
  (pkts.filter fun pkt => Accepted init pkt).map (segmentOf init)

/-- The segment ends in the first half of the sequence numbers from the initial one on. -/
def InRange (init : BitVec 32) (pkt : Mem) : Prop :=
  Accepted init pkt → (seqNum pkt - init).toNat + dataLen pkt < 2 ^ 31

/-! ## What the buffer holds -/

/-- The state after the SYN and the segments. -/
structure Good (init : BitVec 32) (segs : List Segment) (r : TcpFlowReconstruct) : Prop where
  initialized : r.initialized = true
  initSeq : r.initSeq = init
  normal : Normal r.receivedMap
  covers : ∀ i, Covers r.receivedMap i ↔ (latest segs i).isSome
  bytes : ∀ i, r.buf i = (latest segs i).getD 0
  inside : ∀ i, (latest segs i).isSome → i < r.bufSize

theorem Good.congr (h : Good init segs r) {segs' : List Segment}
    (hl : ∀ i, latest segs' i = latest segs i) : Good init segs' r := by
  refine ⟨h.initialized, h.initSeq, h.normal, ?_, ?_, ?_⟩
  · simpa only [hl] using h.covers
  · simpa only [hl] using h.bytes
  · simpa only [hl] using h.inside

theorem Good.resize (h : Good init segs r) {size : Nat} (hsize : r.bufSize ≤ size) :
    Good init segs (r.resize size) := by
  refine ⟨h.initialized, h.initSeq, h.normal, h.covers, fun i => ?_, fun i hi => ?_⟩
  · rw [← h.bytes i]
    unfold TcpFlowReconstruct.resize
    simp only
    split
    · rfl
    · rename_i hout
      have hnone : latest segs i = none := by
        by_contra hne
        have := h.inside i (Option.isSome_iff_ne_none.mpr hne)
        omega
      rw [h.bytes i, hnone]
      rfl
  · exact (h.inside i hi).trans_le hsize

theorem Good.insertPacket (h : Good init segs r) (hwf : WellFormed pkt) (hin : InRange init pkt) :
    ∃ r', r.insertPacket pkt = some (decide (Accepted init pkt), r') ∧
      Good init (if Accepted init pkt then segs ++ [segmentOf init pkt] else segs) r' := by
  unfold TcpFlowReconstruct.insertPacket
  simp only [hwf.not_syn, h.initialized, h.initSeq, Bool.false_eq_true, if_false,
    Bool.true_eq_false]
  by_cases hacc : Accepted init pkt
  · have hend := hin hacc
    have hlt := hwf.dataLen_eq.2
    have hnot : ¬ (seqNum pkt - init).toInt < 0 := not_lt.mpr hacc
    rw [if_neg hnot, if_pos hacc, decide_eq_true hacc]
    by_cases hzero : dataLen pkt = 0
    · rw [if_pos hzero]
      refine ⟨r, rfl, h.congr fun i => ?_⟩
      rw [latest_append, segmentOf_at, if_neg (by omega)]
      rfl
    · rw [if_neg hzero]
      have hmod : ((seqNum pkt - init).toNat + dataLen pkt) % 2 ^ 32 =
          (seqNum pkt - init).toNat + dataLen pkt := Nat.mod_eq_of_lt (by omega)
      have hmod' : ((seqNum pkt - init).toNat + dataLen pkt) * 2 % 2 ^ 32 =
          ((seqNum pkt - init).toNat + dataLen pkt) * 2 := Nat.mod_eq_of_lt (by omega)
      rw [hmod, hmod']
      obtain ⟨r₁, hr₁⟩ : ∃ r₁, r₁ = if r.bufSize < (seqNum pkt - init).toNat + dataLen pkt then
          r.resize (((seqNum pkt - init).toNat + dataLen pkt) * 2) else r := ⟨_, rfl⟩
      have hroom : Good init segs r₁ ∧ (seqNum pkt - init).toNat + dataLen pkt ≤ r₁.bufSize := by
        rw [hr₁]
        split
        · exact ⟨h.resize (by omega), by simp only [TcpFlowReconstruct.resize]; omega⟩
        · exact ⟨h, by omega⟩
      obtain ⟨h₁, hsize⟩ := hroom
      rw [← hr₁, if_neg (by omega)]
      obtain ⟨hnormal, hcovers⟩ := merge_spec h₁.normal
        (show (seqNum pkt - init).toNat < (seqNum pkt - init).toNat + dataLen pkt by omega)
      refine ⟨_, rfl, h₁.initialized, h₁.initSeq, hnormal, fun i => ?_, fun i => ?_, fun i hi => ?_⟩
      · rw [hcovers, h₁.covers, latest_append, segmentOf_at]
        split
        · rename_i hc
          exact iff_of_true (.inl hc) rfl
        · rename_i hc
          rw [or_iff_right hc, Option.none_or]
      · rw [latest_append, segmentOf_at]
        simp only
        split
        · rfl
        · exact h₁.bytes i
      · rw [latest_append, segmentOf_at] at hi
        split at hi
        · simp only
          omega
        · exact h₁.inside i hi
  · have hneg : (seqNum pkt - init).toInt < 0 := not_le.mp hacc
    rw [if_pos hneg, if_neg hacc, decide_eq_false hacc]
    exact ⟨r, rfl, h⟩

/-! ## Runs -/

def TcpFlowReconstruct.insertAll (r : TcpFlowReconstruct) : List Mem → Option TcpFlowReconstruct
  | [] => some r
  | pkt :: pkts =>
    match r.insertPacket pkt with
    | none => none
    | some (_, r) => r.insertAll pkts

theorem good_syn (initialBuflen : Nat) {syn : Mem} (hsyn : isSyn syn = true) :
    ∃ r, (TcpFlowReconstruct.new initialBuflen).insertPacket syn = some (true, r) ∧
      Good (seqNum syn + 1) [] r := by
  refine ⟨_, if_pos hsyn, rfl, rfl, ⟨?_, .nil⟩, fun i => ?_, fun i => rfl, fun i hi => ?_⟩
  · intro a ha
    cases ha
  · simp [latest, covers_nil, TcpFlowReconstruct.new]
  · cases hi

theorem Good.insertAll (h : Good init segs r) (hwf : ∀ pkt ∈ pkts, WellFormed pkt)
    (hin : ∀ pkt ∈ pkts, InRange init pkt) :
    ∃ r', r.insertAll pkts = some r' ∧ Good init (segs ++ inserted init pkts) r' := by
  induction pkts generalizing r segs with
  | nil => exact ⟨r, rfl, by simpa [inserted] using h⟩
  | cons pkt pkts ih =>
    obtain ⟨hwf₀, hwf⟩ := List.forall_mem_cons.mp hwf
    obtain ⟨hin₀, hin⟩ := List.forall_mem_cons.mp hin
    obtain ⟨r₁, hr₁, h₁⟩ := h.insertPacket hwf₀ hin₀
    obtain ⟨r', hr', h'⟩ := ih h₁ hwf hin
    refine ⟨r', ?_, ?_⟩
    · rw [TcpFlowReconstruct.insertAll, hr₁]
      exact hr'
    · unfold inserted at h' ⊢
      by_cases hacc : Accepted init pkt
      · simpa [hacc] using h'
      · simpa [hacc] using h'

/-- The length is that of the longest prefix of the stream that was received, and the buffer holds in
it the most recent bytes. -/
def TcpFlowReconstruct.Right (r : TcpFlowReconstruct) (segs : List Segment) : Prop :=
  IsGreatest { n | ∀ i < n, (latest segs i).isSome } r.contiguousLen ∧
    ∀ i < r.contiguousLen, latest segs i = some (r.buf i)

theorem Good.isGreatest (h : Good init segs r) :
    IsGreatest { n | ∀ i < n, (latest segs i).isSome } (prefixEnd r.receivedMap) := by
  have := h.normal.isGreatest
  simp only [h.covers] at this
  exact this

theorem Segment.at_isSome_iff (s : Segment) (i : Nat) :
    (s.at i).isSome ↔ s.offset ≤ i ∧ i < s.offset + s.data.length := by
  unfold Segment.at
  split
  · rw [isSome_getElem?]
    omega
  · simp only [Option.isSome_none, Bool.false_eq_true, false_iff]
    omega

theorem Good.covers_zero_iff (h : Good init segs r) :
    Covers r.receivedMap 0 ↔ ∃ s ∈ segs, s.offset = 0 ∧ s.data ≠ [] := by
  rw [h.covers, latest_isSome_iff]
  refine exists_congr fun s => and_congr_right fun _ => ?_
  rw [Segment.at_isSome_iff, Nat.le_zero, ← List.length_pos_iff]
  omega

theorem Good.map_eq_nil_iff (h : Good init segs r) :
    r.receivedMap = [] ↔ ∀ s ∈ segs, s.data = [] := by
  constructor
  · intro hnil s hs
    by_contra hne
    have hpos := List.length_pos_iff.mpr hne
    have hat : (s.at s.offset).isSome := (s.at_isSome_iff _).mpr (by omega)
    have := (h.covers s.offset).mpr (latest_isSome_iff.mpr ⟨s, hs, hat⟩)
    rw [hnil] at this
    exact covers_nil this
  · intro hall
    by_contra hne
    obtain ⟨a, l, hmap⟩ := List.exists_cons_of_ne_nil hne
    have ha := h.normal.nonempty a (by simp [hmap])
    have hcov : Covers r.receivedMap a.1 := ⟨a, by simp [hmap], le_rfl, ha⟩
    obtain ⟨s, hs, hat⟩ := latest_isSome_iff.mp ((h.covers a.1).mp hcov)
    have := (s.at_isSome_iff _).mp hat
    rw [hall s hs, List.length_nil] at this
    omega

/-- The length of the first range is the end of the prefix iff the range starts at zero. -/
theorem Good.contiguousLen_eq_iff (h : Good init segs r) :
    r.contiguousLen = prefixEnd r.receivedMap ↔
      r.receivedMap = [] ∨ Covers r.receivedMap 0 := by
  rw [h.normal.covers_zero_iff, TcpFlowReconstruct.contiguousLen]
  cases hmap : r.receivedMap with
  | nil => simp [prefixEnd]
  | cons a l =>
    have ha := h.normal.nonempty a (by simp [hmap])
    simp only [prefixEnd]
    constructor
    · intro heq
      split at heq
      · rename_i hzero
        exact .inr ⟨a.2, l, by rw [← hzero]⟩
      · omega
    · rintro (hnil | ⟨b, rest, hcons⟩)
      · cases hnil
      · cases hcons
        rfl

theorem Good.right_iff (h : Good init segs r) :
    r.Right segs ↔ (∀ s ∈ segs, s.data = []) ∨ ∃ s ∈ segs, s.offset = 0 ∧ s.data ≠ [] := by
  rw [← h.map_eq_nil_iff, ← h.covers_zero_iff, ← h.contiguousLen_eq_iff]
  constructor
  · rintro ⟨hgreatest, -⟩
    exact hgreatest.unique h.isGreatest
  · intro heq
    have hgreatest := h.isGreatest
    rw [← heq] at hgreatest
    refine ⟨hgreatest, fun i hi => ?_⟩
    obtain ⟨b, hb⟩ := Option.isSome_iff_exists.mp (hgreatest.1 i hi)
    rw [h.bytes, hb]
    rfl

/-- For every initial sequence number and every sequence of well-formed segments after the SYN that
end in the first half of the sequence numbers: the length and the bytes that are reported are right
iff no data was received or the first byte of the stream was. -/
theorem reported_right_iff (initialBuflen : Nat) {syn : Mem} (hsyn : isSyn syn = true)
    {pkts : List Mem} (hwf : ∀ pkt ∈ pkts, WellFormed pkt)
    (hin : ∀ pkt ∈ pkts, InRange (seqNum syn + 1) pkt) :
    ∃ r, (TcpFlowReconstruct.new initialBuflen).insertAll (syn :: pkts) = some r ∧
      (r.Right (inserted (seqNum syn + 1) pkts) ↔
        (∀ s ∈ inserted (seqNum syn + 1) pkts, s.data = []) ∨
          ∃ s ∈ inserted (seqNum syn + 1) pkts, s.offset = 0 ∧ s.data ≠ []) := by
  obtain ⟨r₀, hr₀, h₀⟩ := good_syn initialBuflen hsyn
  obtain ⟨r, hr, h⟩ := h₀.insertAll hwf hin
  refine ⟨r, ?_, h.right_iff⟩
  rw [TcpFlowReconstruct.insertAll, hr₀]
  exact hr

/-! ## A hole at the start, and a length that overflows -/

/-- A TCP packet without options. -/
def tcpPacket (seq : BitVec 32) (flags : Byte) (data : List Byte) : Mem := fun i =>
  let len := BitVec.ofNat 16 (40 + data.length)
  let ip := [0x45#8, 0, (len >>> 8).setWidth 8, len.setWidth 8, 0, 0, 0, 0, 0, kTcp, 0, 0, 0, 0, 0, 0,
    0, 0, 0, 0]
  let tcp := [0#8, 0, 0, 0, (seq >>> 24).setWidth 8, (seq >>> 16).setWidth 8, (seq >>> 8).setWidth 8,
    seq.setWidth 8, 0, 0, 0, 0, 0x50, flags, 0, 0, 0, 0, 0, 0]
  (ip ++ tcp ++ data).getD i 0

instance (pkt : Mem) : Decidable (WellFormed pkt) :=
  decidable_of_iff (isSyn pkt = false ∧ dataStart pkt ≤ ipLength pkt)
    ⟨fun h => ⟨h.1, h.2⟩, fun h => ⟨h.1, h.2⟩⟩

instance (init : BitVec 32) (pkt : Mem) : Decidable (InRange init pkt) :=
  inferInstanceAs (Decidable (_ → _))

/-- The sequence numbers wrap around between the two segments. -/
def wrappedSyn : Mem := tcpPacket 0xFFFFFFFD#32 kSyn []

def wrapped : List Mem := [tcpPacket 0#32 0 [3, 4], tcpPacket 0xFFFFFFFE#32 0 [1, 2]]

/-- The first byte is there, and what is reported is right. -/
theorem wrapped_reported_right :
    isSyn wrappedSyn = true ∧ (∀ pkt ∈ wrapped, WellFormed pkt) ∧
      (∀ pkt ∈ wrapped, InRange (seqNum wrappedSyn + 1) pkt) ∧
      ∃ r, (TcpFlowReconstruct.new 1024).insertAll (wrappedSyn :: wrapped) = some r ∧
        r.Right (inserted (seqNum wrappedSyn + 1) wrapped) := by
  have hsyn : isSyn wrappedSyn = true := by decide
  have hwf : ∀ pkt ∈ wrapped, WellFormed pkt := by decide
  have hin : ∀ pkt ∈ wrapped, InRange (seqNum wrappedSyn + 1) pkt := by decide
  obtain ⟨r, hr, hiff⟩ := reported_right_iff 1024 hsyn hwf hin
  exact ⟨hsyn, hwf, hin, r, hr, hiff.mpr (.inr (by decide))⟩

def zeroSyn : Mem := tcpPacket 0xFFFFFFFF#32 kSyn []

def tenth : Mem := tcpPacket 10#32 0 [1, 2, 3, 4, 5]

def farthest : Mem := tcpPacket 0x7FFFFFFF#32 0 [1]

/-- After five bytes at offset 10, five bytes are reported, of which none was received. One byte at
offset `2 ^ 31 - 1` shrinks the buffer to nothing and is written outside of it. -/
theorem reported_wrong :
    isSyn zeroSyn = true ∧ WellFormed tenth ∧ WellFormed farthest ∧
      (∃ r, (TcpFlowReconstruct.new 1024).insertAll [zeroSyn, tenth] = some r ∧
        ¬ r.Right (inserted (seqNum zeroSyn + 1) [tenth])) ∧
      (TcpFlowReconstruct.new 1024).insertAll [zeroSyn, farthest] = none := by
  refine ⟨by decide, by decide, by decide, ?_, by decide⟩
  obtain ⟨r₀, hr₀, h₀⟩ := good_syn 1024 (show isSyn zeroSyn = true by decide)
  obtain ⟨r, hr, h⟩ := h₀.insertAll (show ∀ pkt ∈ [tenth], WellFormed pkt by decide) (by decide)
  refine ⟨r, ?_, ?_⟩
  · rw [TcpFlowReconstruct.insertAll, hr₀]
    exact hr
  · rw [List.nil_append] at h
    rw [h.right_iff]
    decide

end Bess.TcpFlow
