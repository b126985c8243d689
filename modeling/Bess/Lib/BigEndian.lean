import Bess.Lib.Packing

/-!
# Big-endian words in a memory

Numbers as lists of bytes, highest byte first, and words of eight bytes that are read and written in
that order.
-/

namespace Bess.BigEndian

open Bess.ByteMem Bess.Packing

/-- The number whose big-endian bytes are given. -/
def beNat (bs : List Byte) : Nat := leNat bs.reverse

theorem beNat_append (xs ys : List Byte) :
    beNat (xs ++ ys) = beNat xs * 256 ^ ys.length + beNat ys := by
  rw [beNat, beNat, beNat, List.reverse_append, leNat_append, List.length_reverse, Nat.mul_comm,
    Nat.add_comm]

theorem beNat_lt (bs : List Byte) : beNat bs < 256 ^ bs.length := by
  have := leNat_lt bs.reverse
  rwa [List.length_reverse] at this

def loadBe (m : Mem) (o n : Nat) : Nat := beNat (bytes m o n)

/-- Writes the low `n` bytes of `v`, the highest of them first. -/
def storeBe (m : Mem) (o n v : Nat) : Mem := fun i =>
  if o ≤ i ∧ i < o + n then byteAt v (n - 1 - (i - o)) else m i

variable {m : Mem} {o n k v : Nat}

theorem loadBe_lt (m : Mem) (o n : Nat) : loadBe m o n < 256 ^ n := by
  simpa [loadBe] using beNat_lt (bytes m o n)

theorem loadBe_add (m : Mem) (o a b : Nat) :
    loadBe m o (a + b) = loadBe m o a * 256 ^ b + loadBe m (o + a) b := by
  rw [loadBe, bytes_add, beNat_append, length_bytes]
  rfl

theorem byteAt_loadBe (hk : k < n) : byteAt (loadBe m o n) (n - 1 - k) = m (o + k) := by
  rw [loadBe, beNat, byteAt_leNat, List.getD_eq_getElem?_getD, List.getElem?_reverse (by simp; omega),
    length_bytes, bytes_eq_map, List.getElem?_map, List.getElem?_range (by omega)]
  simp only [Option.map_some, Option.getD_some]
  congr 2
  omega

theorem byteAt_lor (a b k : Nat) : byteAt (a ||| b) k = byteAt a k ||| byteAt b k := by
  have hpow : 256 ^ k = 2 ^ (8 * k) := by
    rw [pow_mul]
    norm_num
  rw [byteAt, byteAt, byteAt, hpow, Nat.or_div_two_pow, BitVec.ofNat_or]

theorem toNat_lowMask {n : Nat} (hn : n < 64) : ((1#64 <<< n) - 1).toNat = 2 ^ n - 1 := by
  have hlt : 2 ^ n < 2 ^ 64 := Nat.pow_lt_pow_right (by decide) hn
  have hpos : 0 < 2 ^ n := Nat.pow_pos (by decide)
  have hshift : (1#64 <<< n).toNat = 2 ^ n := by
    rw [BitVec.toNat_shiftLeft, Nat.shiftLeft_eq]
    simp only [BitVec.toNat_ofNat, Nat.one_mod_two_pow_eq_one.mpr (by decide : 0 < 64), Nat.one_mul]
    exact Nat.mod_eq_of_lt hlt
  have hone : (1 : BitVec 64).toNat = 1 := rfl
  rw [BitVec.toNat_sub, hshift, hone]
  omega

theorem pow_mul_eight (k : Nat) : 2 ^ (k * 8) = 256 ^ k := by
  rw [Nat.mul_comm, pow_mul]
  norm_num

theorem storeBe_mod (m : Mem) (o n v : Nat) : storeBe m o n (v % 256 ^ n) = storeBe m o n v := by
  funext i
  simp only [storeBe]
  split
  · exact byteAt_mod v (by omega)
  · rfl

/-- The byte of a mask of `n` bytes. -/
theorem byteAt_mask (n k : Nat) : byteAt (256 ^ n - 1) k = if k < n then 0xFF#8 else 0#8 := by
  split
  · rename_i hk
    obtain ⟨d, rfl⟩ := Nat.exists_eq_add_of_lt hk
    have hpos : 0 < 256 ^ k := Nat.pow_pos (by decide)
    have hpos' : 0 < 256 ^ d := Nat.pow_pos (by decide)
    have hdiv : (256 ^ (k + d + 1) - 1) / 256 ^ k = 256 ^ (d + 1) - 1 := by
      rw [Nat.add_assoc, pow_add]
      obtain ⟨x, hx⟩ : ∃ x, 256 ^ (d + 1) = x + 1 := ⟨256 ^ (d + 1) - 1, by rw [pow_succ]; omega⟩
      rw [hx, Nat.mul_add_one, Nat.add_sub_cancel,
        show 256 ^ k * x + 256 ^ k - 1 = 256 ^ k * x + (256 ^ k - 1) by omega,
        Nat.mul_add_div hpos, Nat.div_eq_of_lt (by omega), Nat.add_zero]
    rw [byteAt, hdiv]
    apply BitVec.eq_of_toNat_eq
    rw [BitVec.toNat_ofNat, pow_succ]
    simp only [BitVec.toNat_ofNat]
    omega
  · rename_i hk
    have hpos : 0 < 256 ^ n := Nat.pow_pos (by decide)
    have hle : 256 ^ n ≤ 256 ^ k := Nat.pow_le_pow_right (by decide) (by omega)
    exact byteAt_of_lt (by omega)

/-- Keeping the low bytes of a word and replacing the high ones is a store of the high ones. -/
theorem storeBe_masked (m : Mem) (o : Nat) {a b : Nat} (v : Nat) :
    storeBe m o (a + b) ((loadBe m o (a + b) &&& (256 ^ b - 1)) ||| (v * 256 ^ b)) =
      storeBe m o a v := by
  funext i
  simp only [storeBe]
  by_cases hin : o ≤ i ∧ i < o + (a + b)
  · obtain ⟨d, rfl⟩ := Nat.exists_eq_add_of_le hin.1
    rw [if_pos hin, Nat.add_sub_cancel_left, byteAt_lor, byteAt_land, byteAt_mask, byteAt_mul,
      byteAt_loadBe (by omega)]
    by_cases ha : d < a
    · rw [if_neg (by omega), if_neg (by omega), if_pos (by omega)]
      rw [BitVec.and_zero, BitVec.zero_or]
      congr 1
      omega
    · rw [if_pos (by omega), if_pos (by omega), if_neg (by omega)]
      exact BitVec.or_zero.trans BitVec.and_allOnes
  · rw [if_neg hin, if_neg (by omega)]

end Bess.BigEndian
