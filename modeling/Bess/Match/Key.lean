import Bess.Cuckoo.Lookup
import Bess.Lib.Packing
import Bess.Utils.Checksum

/-!
# Keys of fields of a packet

`ExactMatchTable` and `WildcardMatch` both look up a key of up to 64 bytes that is put together from
fields of the packet, one after another and padded to a multiple of eight bytes. Keys are compared
and hashed by their first `total_key_size_` bytes.
-/

namespace Bess.Match

open Bess.ByteMem Bess.Cuckoo Bess.Packing

def maxFields : Nat := 8

def maxFieldSize : Nat := 8

/-- `HASH_KEY_SIZE` -/
def hashKeySize : Nat := maxFields * maxFieldSize

def enoent : Nat := 2

def einval : Nat := 22

/-- `align_ceil(v, sizeof(uint64_t))` -/
def alignCeil (v : Nat) : Nat := (v + 7) / 8 * 8

theorem le_alignCeil (v : Nat) : v ≤ alignCeil v := by
  unfold alignCeil
  omega

theorem alignCeil_lt (v : Nat) : alignCeil v < v + 8 := by
  unfold alignCeil
  omega

/-- `uint64_to_bin`: the number in eight bytes that were zero, or `none` if it is too large. -/
def uint64ToBin (val : BitVec 64) (size : Nat) (bigEndian : Bool) : Option Nat :=
  let bs := (List.range size).map (byteAt val.toNat)
  if val.toNat / 256 ^ size ≠ 0 then none
  else some (leNat (if bigEndian then bs.reverse else bs))

theorem uint64ToBin_lt {val : BitVec 64} {size : Nat} {bigEndian : Bool} {v : Nat}
    (h : uint64ToBin val size bigEndian = some v) : v < 256 ^ size := by
  unfold uint64ToBin at h
  simp only at h
  split at h
  · cases h
  · cases h
    refine (leNat_lt _).trans_eq ?_
    cases bigEndian <;> simp

/-- The highest byte comes first. -/
theorem byteAt_uint64ToBin {val : BitVec 64} {size v k : Nat} (h : uint64ToBin val size true = some v)
    (hk : k < size) : byteAt v k = byteAt val.toNat (size - 1 - k) := by
  unfold uint64ToBin at h
  simp only at h
  split at h
  · cases h
  · cases h
    rw [if_pos trivial, byteAt_leNat, List.getD_eq_getElem?_getD,
      List.getElem?_reverse (by simpa using hk), List.length_map, List.length_range,
      List.getElem?_map, List.getElem?_range (by omega)]
    rfl

/-- `ExactMatchKeyHash` and `ExactMatchKeyEq`, or `wm_hash` and `wm_eq`, for keys of `len` bytes. -/
def keyHashing (hash : List Byte → BitVec 64) (len : Nat) : Hashing Mem where
  eq a b := decide (bytes a 0 len = bytes b 0 len)
  refl a := by simp
  symm a b h := by simpa using (of_decide_eq_true h).symm
  trans a b c h h' := by
    rw [decide_eq_true_eq] at h h' ⊢
    exact h.trans h'
  hasher k := hash (bytes k 0 len)
  hasher_eq a b h := by rw [of_decide_eq_true h]

theorem keyHashing_eq_iff {hash : List Byte → BitVec 64} {len : Nat} {a b : Mem} :
    (keyHashing hash len).eq a b = true ↔ bytes a 0 len = bytes b 0 len := decide_eq_true_iff

/-- The hash on x86: CRC32C of the words of the key. -/
def crcKey (bs : List Byte) : BitVec 64 :=
  ((List.range (bs.length / 8)).foldl (fun crc i => Checksum.crc32cU64 (Checksum.load64 bs i) crc)
    0).setWidth 64

/-- `keys[i].u64_arr[last] = 0` for the last word of a key of `len` bytes at offset `base`. -/
def zeroLast (base len : Nat) : Write := ⟨base + (len - 1) / 8 * 8, 8, fun _ => 0⟩

/-- Bytes that are copied into a key. -/
def copyTo (pos : Nat) (bs : List Byte) : Write := ⟨pos, bs.length, fun k => bs.getD k 0⟩

/-- Masks of a field do not see what is behind it. -/
theorem load_and_mask {m : Mem} {o n k mask : Nat} (hn : n ≤ k) (hmask : mask < 256 ^ n) :
    load m o k &&& mask = load m o n &&& mask := by
  have hlt : ∀ v, v &&& mask < 256 ^ n := fun v => lt_of_le_of_lt Nat.and_le_right hmask
  apply byteAt_ext (hlt _) (hlt _)
  intro i hi
  rw [byteAt_land, byteAt_land, byteAt_load (by omega), byteAt_load hi]

end Bess.Match
