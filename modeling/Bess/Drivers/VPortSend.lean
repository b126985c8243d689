import Bess.Modules.Command
import Mathlib.Algebra.GroupWithZero.Nat
import Mathlib.Logic.Function.Basic

/-!
# Descriptors of packets that are sent to the kernel

`SendPackets` of `drivers/vport.cc` writes a descriptor into the scratchpad of every segment of a packet
and links them by physical address. The loop over the segments goes on with `snb->next()`, the second
segment of the packet, instead of the one behind the current segment, so it ends only for packets of
one segment.

Segments are known by their address; the scratchpads are a memory of descriptors of its own.
-/

namespace Bess.VPort

open Bess.Modules

abbrev Addr := Nat

abbrev PhysAddr := BitVec 64

/-- What the function reads of a packet buffer. -/
structure Seg where
  next : Option Addr
  dataLen : BitVec 16
  pktLen : BitVec 32
  dmaAddr : PhysAddr
  paddr : PhysAddr

/-- `sn_rx_metadata` -/
structure RxMetadata where
  gsoMss : BitVec 16
  csumState : BitVec 8
  deriving DecidableEq

/-- `sn_rx_desc` -/
structure RxDesc where
  totalLen : BitVec 32
  segLen : BitVec 16
  seg : PhysAddr
  next : PhysAddr
  metadata : RxMetadata
  deriving DecidableEq

abbrev Segs := Addr → Seg

/-- The descriptors in the scratchpads. -/
abbrev Descs := Addr → RxDesc

/-- The descriptor of the first segment. -/
def headDesc (snb : Seg) : RxDesc := ⟨snb.pktLen, snb.dataLen, snb.dmaAddr, 0, ⟨0, 0⟩⟩

/-- The assignments to `next_desc`, which leave its other fields alone. -/
def nextDesc (seg : Seg) (d : RxDesc) : RxDesc :=
  { d with segLen := seg.dataLen, seg := seg.dmaAddr, next := 0 }

/-- The inner loop, with the addresses of `rx_desc` and `seg`; `none` if it does not end within the
given number of turns. -/
def linkSegs (M : Segs) (snb : Addr) : Nat → Addr → Option Addr → Descs → Option Descs
  | _, _, none, D => some D
  | 0, _, some _, _ => none
  | turns + 1, rxDesc, some seg, D =>
    let D := Function.update D seg (nextDesc (M seg) (D seg))
    let D := Function.update D rxDesc { D rxDesc with next := (M seg).paddr }
    linkSegs M snb turns seg (M snb).next D

/-- One turn of the outer loop. -/
def describe (M : Segs) (turns : Nat) (D : Descs) (snb : Addr) : Option Descs :=
  linkSegs M snb turns snb (M snb).next (Function.update D snb (headDesc (M snb)))

/-- What is returned, the addresses that were enqueued, and the descriptors. `room` says whether the
ring has room for all packets. -/
def sendPackets (M : Segs) (turns : Nat) (room : Bool) (pkts : List Addr) (D : Descs) :
    Option (Nat × List PhysAddr × Descs) :=
  if maxBurst < pkts.length then none
  else
    (pkts.foldlM (describe M turns) D).map fun D =>
      if room then (pkts.length, pkts.map fun p => (M p).paddr, D) else (0, [], D)

/-! ## What is to be built -/

/-- The segments of a packet from `a` on. -/
def SegmentsFrom (M : Segs) : Addr → List Addr → Prop
  | _, [] => False
  | a, [b] => a = b ∧ (M a).next = none
  | a, b :: c :: rest => a = b ∧ (M a).next = some c ∧ SegmentsFrom M c (c :: rest)

/-- The descriptors list the segments in order. -/
def DescribedBy (M : Segs) (D : Descs) : List Addr → Prop
  | [] => True
  | a :: rest =>
    (D a).segLen = (M a).dataLen ∧ (D a).seg = (M a).dmaAddr ∧
      (D a).next = (rest.head?.elim 0 fun b => (M b).paddr) ∧ DescribedBy M D rest

def totalLen (M : Segs) (segments : List Addr) : Nat := (segments.map fun a => (M a).dataLen.toNat).sum

/-- A packet of one or more segments, whose lengths add up. -/
structure Packet (M : Segs) where
  head : Addr
  segments : List Addr
  linked : SegmentsFrom M head segments
  total : (M head).pktLen.toNat = totalLen M segments

/-- A batch that was handed to the function. -/
structure Batch (M : Segs) where
  pkts : List (Packet M)
  short : pkts.length ≤ maxBurst

def Batch.heads {M : Segs} (b : Batch M) : List Addr := b.pkts.map Packet.head

/-- The descriptors of the packet, whose lengths add up to the total length in the first one. -/
def Packet.Described {M : Segs} (p : Packet M) (D : Descs) : Prop :=
  DescribedBy M D p.segments ∧
    (D p.head).totalLen.toNat = (p.segments.map fun a => (D a).segLen.toNat).sum

/-- The function returns and every packet is described. -/
def Sends {M : Segs} (room : Bool) (D : Descs) (b : Batch M) : Prop :=
  ∃ turns n enqueued D', sendPackets M turns room b.heads D = some (n, enqueued, D') ∧
    ∀ p ∈ b.pkts, p.Described D'

/-! ## When the loop ends -/

variable {M : Segs} {snb : Addr} {D : Descs}

/-- With a second segment the loop comes back to it forever. -/
theorem linkSegs_stuck {second : Addr} (h : (M snb).next = some second) (turns : Nat) (rxDesc : Addr)
    (D : Descs) : linkSegs M snb turns rxDesc (M snb).next D = none := by
  induction turns generalizing rxDesc D with
  | zero => rw [h, linkSegs]
  | succ turns ih =>
    rw [h, linkSegs]
    exact ih _ _

theorem describe_single (h : (M snb).next = none) (turns : Nat) (D : Descs) :
    describe M turns D snb = some (Function.update D snb (headDesc (M snb))) := by
  rw [describe, h, linkSegs]

/-- A batch of single segments: the descriptor of each packet is its first one. -/
theorem describeAll_single {pkts : List Addr} (h : ∀ p ∈ pkts, (M p).next = none) (turns : Nat)
    (D : Descs) : ∃ D', pkts.foldlM (describe M turns) D = some D' ∧
      ∀ a, D' a = if a ∈ pkts then headDesc (M a) else D a := by
  induction pkts generalizing D with
  | nil => exact ⟨D, rfl, by simp⟩
  | cons p pkts ih =>
    obtain ⟨hp, hrest⟩ := List.forall_mem_cons.mp h
    obtain ⟨D', hD', hdesc⟩ := ih hrest (Function.update D p (headDesc (M p)))
    refine ⟨D', by rw [List.foldlM_cons, describe_single hp]; exact hD', fun a => ?_⟩
    rw [hdesc]
    by_cases ha : a = p
    · subst ha
      simp
    · simp [ha]

theorem describeAll_stuck {pkts : List Addr} {p second : Addr} (hp : p ∈ pkts)
    (h : (M p).next = some second) (turns : Nat) (D : Descs) :
    pkts.foldlM (describe M turns) D = none := by
  induction pkts generalizing D with
  | nil => cases hp
  | cons q pkts ih =>
    rw [List.foldlM_cons]
    rcases List.mem_cons.mp hp with rfl | hp
    · rw [describe, linkSegs_stuck h]
      rfl
    · cases describe M turns D q with
      | none => rfl
      | some D' => exact ih hp D'

theorem Packet.segments_single (p : Packet M) (h : (M p.head).next = none) :
    p.segments = [p.head] := by
  have hlinked := p.linked
  match hs : p.segments with
  | [] =>
    rw [hs] at hlinked
    exact hlinked.elim
  | [b] =>
    rw [hs] at hlinked
    rw [hlinked.1]
  | b :: c :: rest =>
    rw [hs] at hlinked
    rw [hlinked.2.1] at h
    cases h

/-- `SendPackets` returns, with every packet described, if and only if no packet has a second
segment. -/
theorem sends_iff_single (room : Bool) (D : Descs) (b : Batch M) :
    Sends room D b ↔ ∀ p ∈ b.pkts, (M p.head).next = none := by
  have hshort : ¬ maxBurst < b.heads.length := by
    rw [Batch.heads, List.length_map]
    exact Nat.not_lt.mpr b.short
  constructor
  · rintro ⟨turns, n, enqueued, D', hsend, -⟩ p hp
    cases hnext : (M p.head).next with
    | none => rfl
    | some second =>
      have hstuck := describeAll_stuck (List.mem_map_of_mem hp) hnext turns D
      rw [sendPackets, if_neg hshort, Batch.heads, hstuck] at hsend
      cases hsend
  · intro hsingle
    have hheads : ∀ a ∈ b.heads, (M a).next = none := fun a ha => by
      obtain ⟨p, hp, rfl⟩ := List.mem_map.mp ha
      exact hsingle p hp
    obtain ⟨D', hD', hdesc⟩ := describeAll_single hheads 0 D
    have hsend : ∃ n enqueued, sendPackets M 0 room b.heads D = some (n, enqueued, D') := by
      rw [sendPackets, if_neg hshort, hD', Option.map_some]
      cases room with
      | true => exact ⟨_, _, rfl⟩
      | false => exact ⟨_, _, rfl⟩
    obtain ⟨n, enqueued, hsend⟩ := hsend
    refine ⟨0, n, enqueued, D', hsend, fun p hp => ?_⟩
    have hmem : p.head ∈ b.heads := List.mem_map_of_mem hp
    have hhead : D' p.head = headDesc (M p.head) := by
      rw [hdesc, if_pos hmem]
    have hsegs := p.segments_single (hsingle p hp)
    have htotal := p.total
    unfold Packet.Described
    rw [hsegs] at htotal ⊢
    refine ⟨⟨by rw [hhead]; rfl, by rw [hhead]; rfl, by rw [hhead]; rfl, trivial⟩, ?_⟩
    simpa [hhead, headDesc, totalLen] using htotal

/-! ## A packet of two segments -/

/-- A packet of ten bytes, six of them in the segment at 1 and four in the one at 2. -/
def twoSegs : Segs
  | 1 => ⟨some 2, 6, 10, 0x100, 0x1000⟩
  | 2 => ⟨none, 4, 0, 0x200, 0x2000⟩
  | _ => ⟨none, 0, 0, 0, 0⟩

def twoSegPacket : Packet twoSegs where
  head := 1
  segments := [1, 2]
  linked := ⟨rfl, rfl, rfl, rfl⟩
  total := by decide

def blankDescs : Descs := fun _ => ⟨0, 0, 0, 0, ⟨0, 0⟩⟩

/-- The loop over its segments never ends. -/
theorem two_segments_stuck :
    (∀ turns room, sendPackets twoSegs turns room [1] blankDescs = none) ∧
      ¬ Sends true blankDescs ⟨[twoSegPacket], by decide⟩ := by
  have hnone : ∀ turns room, sendPackets twoSegs turns room [1] blankDescs = none :=
    fun turns room => by
      rw [sendPackets, if_neg (by decide),
        describeAll_stuck (p := 1) (List.mem_singleton_self 1) rfl turns blankDescs]
      rfl
  refine ⟨hnone, ?_⟩
  rintro ⟨turns, n, enqueued, D', hsend, -⟩
  have hheads : Batch.heads ⟨[twoSegPacket], by decide⟩ = [1] := rfl
  rw [hheads, hnone] at hsend
  cases hsend

end Bess.VPort
