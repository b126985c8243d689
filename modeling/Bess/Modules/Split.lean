import Bess.Lib.BigEndian
import Bess.Modules.GateList

/-!
# A gate for each value of a field

`modules/split.cc` takes a field of up to eight bytes, of the packet or of its metadata, as a number
in network order and sends the packet to the gate of that number. The number has up to 64 bits and
`EmitPacket` takes a gate of 16 bits: a larger number is sent to the gate of its low 16 bits.
-/

namespace Bess.Modules

open Bess.ByteMem Bess.BigEndian

inductive SplitType
  | attribute (name : String)
  | offset (o : BitVec 64)
  | unset

structure SplitArg where
  size : BitVec 64
  type : SplitType

structure Split where
  mask : BitVec 64
  shift : Nat
  attrId : Int
  offset : Nat
  size : Nat

namespace Split

/-- `SetBitsHigh<uint64_t>` -/
def setBitsHigh (n : Nat) : BitVec 64 :=
  if n = 0 then 0 else if 64 ≤ n then BitVec.allOnes 64 else (1#64 <<< n) - 1

def invalidOffset : Failure := .msg EINVAL "invalid 'offset'"

/-- `addMetadataAttr` returns the number of the attribute, or an error code below zero. -/
def init (addMetadataAttr : String → Nat → Int) (arg : SplitArg) : Except Failure Split :=
  let size := arg.size.toNat
  if size < 1 ∨ 8 < size then .error (.msg EINVAL "'size' must be 1-8")
  else
    let s : Split := ⟨setBitsHigh (size * 8), 64 - size * 8, -1, 0, size⟩
    match arg.type with
    | .attribute name =>
      let id := addMetadataAttr name size
      if id < 0 then .error (.msg id.natAbs "add_metadata_attr() failed")
      else .ok { s with attrId := id }
    | .offset o => if 1024 < o.toNat then .error invalidOffset else .ok { s with offset := o.toNat }
    | .unset => .ok s

/-- A packet: its data from the head on, and its metadata. -/
structure Input where
  data : Mem
  metadata : Mem

/-- The bytes from the start of the field on. An attribute without a valid offset reads as zero. -/
def field (s : Split) (attrOffset : Int → Int) (pkt : Input) : Mem :=
  if 0 ≤ s.attrId then
    if 0 ≤ attrOffset s.attrId then fun i => pkt.metadata ((attrOffset s.attrId).toNat + i)
    else fun _ => 0
  else fun i => pkt.data (s.offset + i)

/-- The 64 bits in network order, shifted and masked. -/
def val (s : Split) (field : Mem) : BitVec 64 :=
  (BitVec.ofNat 64 (loadBe field 0 8) >>> s.shift) &&& s.mask

/-- `EmitPacket`; `ogates` are the gates that are connected. -/
def emitPacket (ogates : Gate → Bool) (gate : Gate) : Option Gate :=
  if ogates gate then some gate else none

/-- The gate of one packet; `none` if it is dropped. -/
def process (s : Split) (attrOffset : Int → Int) (ogates : Gate → Bool) (pkt : Input) :
    Option Gate :=
  emitPacket ogates ((s.val (s.field attrOffset pkt)).setWidth 16)

/-- The number in the field. -/
def number (s : Split) (field : Mem) : Nat := loadBe field 0 s.size

/-- The packet is sent to the gate of that number, or dropped if it is not connected. -/
def Right (ogates : Gate → Bool) (number : Nat) (sent : Option Gate) : Prop :=
  ∀ g, sent = some g ↔ g.toNat = number ∧ ogates g = true

variable {s : Split} {arg : SplitArg} {addMetadataAttr : String → Nat → Int}

theorem init_spec (h : init addMetadataAttr arg = .ok s) :
    1 ≤ s.size ∧ s.size ≤ 8 ∧ s.shift = 64 - s.size * 8 ∧ s.mask = setBitsHigh (s.size * 8) := by
  unfold init at h
  simp only at h
  split at h
  · cases h
  · rename_i hsize
    have hb : 1 ≤ arg.size.toNat ∧ arg.size.toNat ≤ 8 := by omega
    split at h
    · split at h
      · cases h
      · cases h
        exact ⟨hb.1, hb.2, rfl, rfl⟩
    · split at h
      · cases h
      · cases h
        exact ⟨hb.1, hb.2, rfl, rfl⟩
    · cases h
      exact ⟨hb.1, hb.2, rfl, rfl⟩

theorem toNat_setBitsHigh {n : Nat} (hn : n ≤ 64) : (setBitsHigh n).toNat = 2 ^ n - 1 := by
  unfold setBitsHigh
  split
  · rename_i h0
    rw [h0]
    rfl
  split
  · rw [show n = 64 by omega]
    rfl
  · exact toNat_lowMask (by omega)

/-- The shift leaves the bytes of the field, and the mask changes nothing. -/
theorem toNat_val (h : init addMetadataAttr arg = .ok s) (field : Mem) :
    (s.val field).toNat = s.number field := by
  obtain ⟨h1, h8, hshift, hmask⟩ := init_spec h
  obtain ⟨b, hb⟩ : ∃ b, 8 = s.size + b := ⟨8 - s.size, by omega⟩
  have hsplit : loadBe field 0 8 = s.number field * 256 ^ b + loadBe field (0 + s.size) b := by
    rw [hb]
    exact loadBe_add field 0 s.size b
  have hword : loadBe field 0 8 < 2 ^ 64 := by
    have := loadBe_lt field 0 8
    norm_num at this ⊢
    exact this
  have hrest := loadBe_lt field (0 + s.size) b
  have hnum : s.number field < 256 ^ s.size := loadBe_lt field 0 s.size
  have hdiv : loadBe field 0 8 / 2 ^ s.shift = s.number field := by
    rw [hshift, show 64 - s.size * 8 = b * 8 by omega, pow_mul_eight, hsplit, Nat.mul_comm,
      Nat.mul_add_div (Nat.pow_pos (by decide)), Nat.div_eq_of_lt hrest, Nat.add_zero]
  rw [val, BitVec.toNat_and, BitVec.toNat_ushiftRight, BitVec.toNat_ofNat, Nat.mod_eq_of_lt hword,
    Nat.shiftRight_eq_div_pow, hdiv, hmask, toNat_setBitsHigh (by omega),
    Nat.and_two_pow_sub_one_eq_mod, pow_mul_eight, Nat.mod_eq_of_lt hnum]

/-- For every accepted field, every packet and every set of connected gates. -/
theorem sent_right_iff (h : init addMetadataAttr arg = .ok s) (attrOffset : Int → Int)
    (ogates : Gate → Bool) (pkt : Input) :
    Right ogates (s.number (s.field attrOffset pkt)) (s.process attrOffset ogates pkt) ↔
      s.number (s.field attrOffset pkt) < 2 ^ 16 ∨
        ogates (BitVec.ofNat 16 (s.number (s.field attrOffset pkt))) = false := by
  have hgate : (s.val (s.field attrOffset pkt)).setWidth 16 =
      BitVec.ofNat 16 (s.number (s.field attrOffset pkt)) := by
    rw [← toNat_val h]
    exact (BitVec.ofNat_toNat ..).symm
  rw [process, hgate]
  generalize s.number (s.field attrOffset pkt) = n
  unfold Right emitPacket
  cases hon : ogates (BitVec.ofNat 16 n) with
  | false =>
    refine iff_of_true (fun g => ?_) (.inr rfl)
    simp only [Bool.false_eq_true, if_false, reduceCtorEq, false_iff, not_and]
    rintro rfl hg
    rw [BitVec.ofNat_toNat, BitVec.setWidth_eq, hg] at hon
    cases hon
  | true =>
    simp only [if_true, Option.some.injEq, Bool.true_eq_false, or_false]
    constructor
    · intro hall
      have := ((hall _).mp rfl).1
      rw [BitVec.toNat_ofNat] at this
      omega
    · intro hlt g
      constructor
      · rintro rfl
        rw [BitVec.toNat_ofNat, Nat.mod_eq_of_lt hlt]
        exact ⟨rfl, hon⟩
      · rintro ⟨rfl, -⟩
        rw [BitVec.ofNat_toNat, BitVec.setWidth_eq]

/-- The two bytes at offset 16, and the four bytes there. -/
def twoBytes : Split := ⟨0xFFFF#64, 48, -1, 16, 2⟩

def fourBytes : Split := ⟨0xFFFFFFFF#64, 32, -1, 16, 4⟩

def onlyZero (g : Gate) : Bool := g = 0

theorem twoBytes_right : init (fun _ _ => 0) ⟨2, .offset 16⟩ = .ok twoBytes ∧
    Right onlyZero (twoBytes.number (twoBytes.field (fun _ => 0) ⟨fun _ => 1, fun _ => 0⟩))
      (twoBytes.process (fun _ => 0) onlyZero ⟨fun _ => 1, fun _ => 0⟩) := by
  have hinit : init (fun _ _ => 0) ⟨2, .offset 16⟩ = .ok twoBytes := rfl
  exact ⟨hinit, (sent_right_iff hinit _ _ _).mpr (.inl (by decide +kernel))⟩

/-- The number 65536 in four bytes is sent to gate zero. -/
theorem large_number_sent : init (fun _ _ => 0) ⟨4, .offset 16⟩ = .ok fourBytes ∧
    fourBytes.number (fourBytes.field (fun _ => 0)
      ⟨fun i => if i = 17 then 1 else 0, fun _ => 0⟩) = 65536 ∧
    fourBytes.process (fun _ => 0) onlyZero ⟨fun i => if i = 17 then 1 else 0, fun _ => 0⟩ =
      some 0 ∧
    ¬ Right onlyZero 65536 (some 0) := by
  refine ⟨rfl, by decide +kernel, by decide +kernel, fun h => ?_⟩
  exact absurd ((h 0).mp rfl).1 (by decide)

end Split

end Bess.Modules
