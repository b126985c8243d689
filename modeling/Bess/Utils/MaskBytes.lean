import Bess.Utils.Bits
import Mathlib.Data.Nat.Bitwise

/-!
# Masking bytes

`MaskBytes` of `utils/bits.h` masks a buffer in words of 16 bytes and hands what is left to
`MaskBytes64` or `MaskBytesSmall`, which go by words of 8 bytes and by single bytes. Buffer and mask
are different objects, both `len` bytes long; an access outside of them is `none`.
-/

namespace Bess.Masking

open Bess.ByteMem Bess.Shifting

/-- One `buf[i] &= mask[i]` on a word of `w` bytes at offset `p`. -/
def maskWord (len w : Nat) (mask m : Mem) (p : Nat) : Option Mem :=
  if p + w ≤ len then some (store m p w (load m p w &&& load mask p w)) else none

/-- The loop over `n` words of `w` bytes from offset `p` on. -/
def maskWords (len w : Nat) (mask : Mem) (p n : Nat) (m : Mem) : Option Mem :=
  (List.range n).foldlM (fun m i => maskWord len w mask m (p + i * w)) m

def maskBytesSmall (len : Nat) (mask : Mem) (p n : Nat) (m : Mem) : Option Mem :=
  maskWords len 1 mask p n m

def maskBytes64 (len : Nat) (mask : Mem) (p size : Nat) (m : Mem) : Option Mem :=
  let n := size / 8
  let leftover := size - n * 8
  (maskWords len 8 mask p n m).bind fun m =>
    if leftover ≠ 0 then maskBytesSmall len mask (p + n * 8) leftover m else some m

def maskBytes (mask : Mem) (len : Nat) (m : Mem) : Option Mem :=
  if len ≤ 8 then maskBytes64 len mask 0 len m
  else
    let n := len / 16
    let leftover := len - n * 16
    (maskWords len 16 mask 0 n m).bind fun m =>
      if 8 ≤ leftover then maskBytes64 len mask (n * 16) leftover m
      else maskBytesSmall len mask (n * 16) leftover m

/-- The bytes from `lo` up to `hi` are masked. -/
def masked (mask : Mem) (lo hi : Nat) (m : Mem) : Mem := fun i =>
  if lo ≤ i ∧ i < hi then m i &&& mask i else m i

variable {len w p n size a b c : Nat} {mask m : Mem}

theorem masked_empty : masked mask a a m = m := by
  funext i
  rw [masked, if_neg (by omega)]

theorem masked_masked (hab : a ≤ b) (hbc : b ≤ c) :
    masked mask b c (masked mask a b m) = masked mask a c m := by
  funext i
  by_cases hi : b ≤ i
  · simp only [masked, hi, true_and, Nat.not_lt.mpr hi, and_false, if_false, hab.trans hi]
  · have hlt : i < b := Nat.not_le.mp hi
    simp only [masked, hi, false_and, if_false, hlt, hlt.trans_le hbc]

/-- Bytes do not meet in a conjunction of words. -/
theorem byte_and (x y j : Nat) :
    BitVec.ofNat 8 ((x &&& y) / 256 ^ j) = BitVec.ofNat 8 (x / 256 ^ j) &&& BitVec.ofNat 8 (y / 256 ^ j) := by
  have hpow : 256 ^ j = 2 ^ (8 * j) := Nat.pow_mul 2 8 j |>.symm
  rw [hpow, Nat.and_div_two_pow, BitVec.ofNat_and]

theorem maskWord_eq (hp : p + w ≤ len) :
    maskWord len w mask m p = some (masked mask p (p + w) m) := by
  rw [maskWord, if_pos hp]
  congr 1
  funext i
  rw [store, masked]
  split
  · rename_i hi
    have hadd : p + (i - p) = i := by omega
    rw [byte_and, byte_load, byte_load, if_pos (by omega), if_pos (by omega), hadd]
  · rfl

theorem maskWords_eq (h : p + n * w ≤ len) :
    maskWords len w mask p n m = some (masked mask p (p + n * w) m) := by
  -- one more turn masks one more word
  induction n with
  | zero => simp [maskWords, masked_empty]
  | succ n ih =>
    have hsucc : p + (n + 1) * w = p + n * w + w := by rw [Nat.succ_mul, Nat.add_assoc]
    rw [hsucc] at h
    have ih : maskWords len w mask p n m = some (masked mask p (p + n * w) m) := ih (by omega)
    rw [maskWords] at ih ⊢
    rw [List.range_succ, List.foldlM_append, ih, hsucc]
    simp only [Option.bind_eq_bind, Option.bind_some, List.foldlM_cons, List.foldlM_nil]
    rw [maskWord_eq h, Option.bind_some, masked_masked (by omega) (by omega)]
    rfl

theorem maskBytesSmall_eq (h : p + n ≤ len) :
    maskBytesSmall len mask p n m = some (masked mask p (p + n) m) := by
  have : maskWords len 1 mask p n m = some (masked mask p (p + n * 1) m) := maskWords_eq (by omega)
  rwa [Nat.mul_one] at this

theorem maskBytes64_eq (h : p + size ≤ len) :
    maskBytes64 len mask p size m = some (masked mask p (p + size) m) := by
  have hle : size / 8 * 8 ≤ size := Nat.div_mul_le_self size 8
  simp only [maskBytes64, maskWords_eq (show p + size / 8 * 8 ≤ len by omega), Option.bind_some]
  split
  · rw [maskBytesSmall_eq (by omega), masked_masked (by omega) (by omega)]
    congr 2
    omega
  · congr 2
    omega

/-- Whatever the length, the buffer is masked byte by byte and nothing beyond it is touched. -/
theorem maskBytes_eq_bytewise (mask : Mem) (len : Nat) (m : Mem) :
    maskBytes mask len m = some fun i => if i < len then m i &&& mask i else m i := by
  have hgoal : (fun i => if i < len then m i &&& mask i else m i) = masked mask 0 len m := by
    funext i
    simp only [masked, Nat.zero_le, true_and]
  rw [hgoal, maskBytes]
  split
  · rw [maskBytes64_eq (by omega), Nat.zero_add]
  · have hle : len / 16 * 16 ≤ len := Nat.div_mul_le_self len 16
    have hall : len / 16 * 16 + (len - len / 16 * 16) = len := by omega
    simp only [maskWords_eq (show 0 + len / 16 * 16 ≤ len by omega), Option.bind_some, Nat.zero_add]
    split
    · rw [maskBytes64_eq (by omega), masked_masked (by omega) (by omega), hall]
    · rw [maskBytesSmall_eq (by omega), masked_masked (by omega) (by omega), hall]

end Bess.Masking
