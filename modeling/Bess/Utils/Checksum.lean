import Bess.Lib.ByteMem
import Bess.Lib.OnesComplement

/-!
# The Internet checksum

`checksum.h`. `CalculateSum` reads a buffer in up to four ways one after another: two streams of
256-bit vectors whose 32-bit halves are accumulated in 64-bit lanes (with AVX2, from 128 bytes on),
eight 64-bit words at a time, two 64-bit words at a time, and 16-bit words at the end. The first way
drops the carry out of a 64-bit lane, the others keep it. The sum is folded to 32 bits, and
`FoldChecksum` folds it to 16 bits and complements it.

Buffers are lists of bytes; a word is loaded from its bytes in little-endian order.
-/

namespace Bess.Checksum

open Bess.OnesComplement Bess.ByteMem

/-- `buf64[i]` -/
def load64 (buf : List Byte) (i : Nat) : BitVec 64 :=
  BitVec.ofNat 64 (leNat ((buf.drop (8 * i)).take 8))

/-! ## The vector loop -/

/-- `__m256i`, as its four 64-bit lanes. -/
structure M256 where
  q0 : BitVec 64
  q1 : BitVec 64
  q2 : BitVec 64
  q3 : BitVec 64

def loadu (buf : List Byte) : M256 := ⟨load64 buf 0, load64 buf 1, load64 buf 2, load64 buf 3⟩

def low32 (q : BitVec 64) : BitVec 64 := q &&& 0xFFFFFFFF#64

/-- `_mm256_unpacklo_epi32(a, zero256)`: each half is interleaved on its own. -/
def unpacklo (a : M256) : M256 := ⟨low32 a.q0, a.q0 >>> 32, low32 a.q2, a.q2 >>> 32⟩

def unpackhi (a : M256) : M256 := ⟨low32 a.q1, a.q1 >>> 32, low32 a.q3, a.q3 >>> 32⟩

/-- `_mm256_add_epi64` -/
def M256.add (a b : M256) : M256 := ⟨a.q0 + b.q0, a.q1 + b.q1, a.q2 + b.q2, a.q3 + b.q3⟩

/-- The four accumulators of the loop. -/
structure Streams where
  aHi : M256
  aLo : M256
  bHi : M256
  bLo : M256

/-- What the first 64 bytes contribute. -/
def streams (buf : List Byte) : Streams :=
  let a := loadu buf
  let b := loadu (buf.drop 32)
  ⟨unpackhi a, unpacklo a, unpackhi b, unpacklo b⟩

def Streams.add (s t : Streams) : Streams :=
  ⟨s.aHi.add t.aHi, s.aLo.add t.aLo, s.bHi.add t.bHi, s.bLo.add t.bLo⟩

/-- `while (len >= sizeof(__m256i) * 2)`, at most `n` times. -/
def sumStreams : Nat → List Byte → Streams → List Byte × Streams
  | 0, buf, s => (buf, s)
  | n + 1, buf, s =>
    if 64 ≤ buf.length then sumStreams n (buf.drop 64) (s.add (streams buf)) else (buf, s)

/-- Folds the four accumulators into one, its halves into one, and that into 64 bits. -/
def Streams.fold (s : Streams) : BitVec 64 :=
  let sum256 := (s.aHi.add s.aLo).add (s.bHi.add s.bLo)
  (sum256.q0 + sum256.q2) + (sum256.q1 + sum256.q3)

def sumVectors (buf : List Byte) : List Byte × BitVec 64 :=
  let (rest, s) := sumStreams buf.length (buf.drop 64) (streams buf)
  (rest, s.fold)

/-! ## The loops over words -/

/-- `while (len >= sizeof(uint64_t) * k)`: `k` words are added with their carries in one go. -/
def sumWords (k : Nat) : Nat → List Byte → BitVec 64 → List Byte × BitVec 64
  | 0, buf, sum64 => (buf, sum64)
  | n + 1, buf, sum64 =>
    if 8 * k ≤ buf.length then
      sumWords k n (buf.drop (8 * k)) (addCarries sum64 ((List.range k).map (load64 buf)))
    else (buf, sum64)

/-- `while (len >= sizeof(uint16_t))` -/
def sumHalfwords : List Byte → BitVec 64 → List Byte × BitVec 64
  | b₀ :: b₁ :: buf, sum64 => sumHalfwords buf (sum64 + BitVec.ofNat 64 (leNat [b₀, b₁]))
  | buf, sum64 => (buf, sum64)

/-- `(sum64 >> 32) + (sum64 & 0xFFFFFFFF)` -/
def fold64 (sum64 : BitVec 64) : BitVec 64 := (sum64 >>> 32) + (sum64 &&& 0xFFFFFFFF#64)

/-- The part of `CalculateSum` after the vector loop. `odd` is the parity of the whole buffer. -/
def sumScalars (odd : Bool) (buf : List Byte) (sum64 : BitVec 64) : BitVec 32 :=
  let (buf, sum64) := sumWords 8 buf.length buf sum64
  let (buf, sum64) := sumWords 2 buf.length buf sum64
  let (buf, sum64) := sumHalfwords buf (fold64 sum64)
  let sum64 := if odd then sum64 + (buf.headD 0).setWidth 64 else sum64
  let sum64 := fold64 sum64
  (sum64 + (sum64 >>> 32)).setWidth 32

/-- `avx2` says whether the vector loop is compiled in. -/
def calculateSum (avx2 : Bool) (buf : List Byte) : BitVec 32 :=
  let odd := decide (buf.length % 2 = 1)
  let r := if avx2 ∧ 128 ≤ buf.length then sumVectors buf else (buf, 0)
  sumScalars odd r.1 r.2

def foldChecksum (cksum : BitVec 32) : BitVec 16 :=
  let cksum := (cksum >>> 16) + (cksum &&& 0xFFFF#32)
  let cksum := cksum + (cksum >>> 16)
  (~~~cksum).setWidth 16

def calculateGenericChecksum (avx2 : Bool) (buf : List Byte) : BitVec 16 :=
  foldChecksum (calculateSum avx2 buf)

/-! ## The specification of RFC 1071 -/

/-- The 16-bit words in memory order; an odd byte at the end is padded with zero. -/
def words16 : List Byte → List Nat
  | b₀ :: b₁ :: buf => leNat [b₀, b₁] :: words16 buf
  | [b₀] => [leNat [b₀, 0]]
  | [] => []

def rfc1071 (buf : List Byte) : BitVec 16 :=
  ~~~BitVec.ofNat 16 (endAroundSum 16 (words16 buf))

/-! ## Words of a buffer -/

def sum16 (buf : List Byte) : Nat := (words16 buf).sum

theorem words16_lt (buf : List Byte) : ∀ x ∈ words16 buf, x < 2 ^ 16 := by
  fun_induction words16 buf with
  | case1 b₀ b₁ buf ih =>
    intro x hx
    rcases List.mem_cons.mp hx with rfl | hx
    · simpa using leNat_lt [b₀, b₁]
    · exact ih x hx
  | case2 b₀ =>
    intro x hx
    rw [List.mem_singleton] at hx
    rw [hx]
    simpa using leNat_lt [b₀, 0]
  | case3 => simp

theorem sum16_drop (k : Nat) (buf : List Byte) :
    sum16 buf = sum16 (buf.take (2 * k)) + sum16 (buf.drop (2 * k)) := by
  induction k generalizing buf with
  | zero => simp [sum16, words16]
  | succ k ih =>
    cases buf with
    | nil => simp [sum16, words16]
    | cons b₀ buf =>
      cases buf with
      | nil => simp [sum16, words16, Nat.mul_add]
      | cons b₁ buf =>
        have := ih buf
        simp only [sum16, Nat.mul_add, List.take_succ_cons, List.drop_succ_cons, words16,
          List.sum_cons] at this ⊢
        omega

/-- A word of any width is the sum of its 16-bit halves. -/
theorem same_leNat (buf : List Byte) : Same 16 (leNat buf) (sum16 buf) := by
  unfold sum16
  fun_induction words16 buf with
  | case1 b₀ b₁ buf ih =>
    have h : leNat (b₀ :: b₁ :: buf) = leNat [b₀, b₁] + 2 ^ (16 * 1) * leNat buf := by
      simp only [leNat]
      omega
    rw [h, List.sum_cons]
    exact (same_shift 16 1 _ _).trans (ih.add_left _)
  | case2 b₀ => simpa [leNat] using Same.refl 16 _
  | case3 => exact Same.refl 16 _

theorem load64_toNat (buf : List Byte) (i : Nat) :
    (load64 buf i).toNat = leNat ((buf.drop (8 * i)).take 8) := by
  unfold load64
  rw [BitVec.toNat_ofNat, Nat.mod_eq_of_lt]
  exact leNat_take_lt 8 _

theorem sum_load64 (buf : List Byte) (k : Nat) :
    Same 16 (((List.range k).map (load64 buf)).map BitVec.toNat).sum
      (sum16 (buf.take (8 * k))) := by
  induction k with
  | zero => simpa [sum16, words16] using Same.refl 16 0
  | succ k ih =>
    rw [List.range_succ, List.map_append, List.map_append, List.sum_append]
    have hsplit := sum16_drop (4 * k) (buf.take (8 * (k + 1)))
    rw [List.take_take, List.drop_take] at hsplit
    have h1 : min (2 * (4 * k)) (8 * (k + 1)) = 8 * k := by omega
    have h2 : 8 * (k + 1) - 2 * (4 * k) = 8 := by omega
    have h3 : 2 * (4 * k) = 8 * k := by omega
    rw [h1, h2, h3] at hsplit
    rw [hsplit]
    refine ih.add ?_
    simpa [load64_toNat] using same_leNat ((buf.drop (8 * k)).take 8)

/-! ## What each loop adds up -/

theorem sumWords_spec {k : Nat} (hk : 0 < k) (n : Nat) (buf : List Byte) (s : BitVec 64)
    (hn : buf.length ≤ n) :
    Same 16 ((sumWords k n buf s).2.toNat + sum16 (sumWords k n buf s).1)
        (s.toNat + sum16 buf) ∧
      (sumWords k n buf s).1.length < 8 * k ∧
      (sumWords k n buf s).1.length % 2 = buf.length % 2 := by
  induction n generalizing buf s with
  | zero =>
    exact ⟨Same.refl 16 _, by simp only [sumWords]; omega, rfl⟩
  | succ n ih =>
    simp only [sumWords]
    split
    · rename_i hlen
      have hdrop : (buf.drop (8 * k)).length = buf.length - 8 * k := List.length_drop
      obtain ⟨hs, hl, hp⟩ := ih (buf.drop (8 * k))
        (addCarries s ((List.range k).map (load64 buf))) (by omega)
      refine ⟨hs.trans ?_, hl, by omega⟩
      have hsplit := sum16_drop (4 * k) buf
      have h8 : 2 * (4 * k) = 8 * k := by omega
      rw [h8] at hsplit
      rw [hsplit, ← Nat.add_assoc]
      have h64 : 64 = 16 * 4 := rfl
      exact ((same_addCarries h64 s _).trans ((sum_load64 buf k).add_left _)).add_right _
    · rename_i hlen
      exact ⟨Same.refl 16 _, Nat.lt_of_not_le hlen, rfl⟩

/-- The loop over 16-bit words adds without a carry as long as the sum stays below `2^64`. -/
theorem sumHalfwords_spec (buf : List Byte) (s : BitVec 64)
    (h : s.toNat + 65536 * buf.length < 2 ^ 64) :
    (sumHalfwords buf s).2.toNat + sum16 (sumHalfwords buf s).1 = s.toNat + sum16 buf ∧
      (sumHalfwords buf s).1.length = buf.length % 2 ∧
      (sumHalfwords buf s).2.toNat ≤ s.toNat + 65536 * buf.length := by
  induction buf, s using sumHalfwords.induct with
  | case1 b₀ b₁ buf s ih =>
    have hw : leNat [b₀, b₁] < 65536 := by simpa using leNat_lt [b₀, b₁]
    simp only [List.length_cons] at h
    have hadd : (s + BitVec.ofNat 64 (leNat [b₀, b₁])).toNat = s.toNat + leNat [b₀, b₁] := by
      rw [BitVec.toNat_add, BitVec.toNat_ofNat, Nat.mod_eq_of_lt (by omega : leNat _ < 2 ^ 64),
        Nat.mod_eq_of_lt (by omega)]
    obtain ⟨h1, h2, h3⟩ := ih (by omega)
    rw [sumHalfwords]
    refine ⟨?_, ?_, ?_⟩
    · rw [h1, hadd, sum16, sum16, words16, List.sum_cons, Nat.add_assoc]
    · simp only [List.length_cons]
      omega
    · simp only [List.length_cons]
      omega
  | case2 buf s hne =>
    have hlen : buf.length < 2 := by
      cases buf with
      | nil => simp
      | cons b₀ buf =>
        cases buf with
        | nil => simp
        | cons b₁ buf => exact absurd rfl (hne b₀ b₁ buf)
    have he : sumHalfwords buf s = (buf, s) := sumHalfwords.eq_2 buf s hne
    rw [he]
    exact ⟨rfl, (Nat.mod_eq_of_lt hlen).symm, Nat.le_add_right _ _⟩

theorem toNat_and_mask32 (x : BitVec 64) : (x &&& 0xFFFFFFFF#64).toNat = x.toNat % 2 ^ 32 := by
  rw [BitVec.toNat_and]
  exact Nat.and_two_pow_sub_one_eq_mod x.toNat 32

theorem fold64_toNat (x : BitVec 64) :
    (fold64 x).toNat = x.toNat / 2 ^ 32 + x.toNat % 2 ^ 32 := by
  have hx := x.isLt
  unfold fold64
  rw [BitVec.toNat_add, toNat_and_mask32, BitVec.toNat_ushiftRight, Nat.shiftRight_eq_div_pow,
    Nat.mod_eq_of_lt (by omega)]

/-! ## What the vector loop adds up -/

/-- The sum of the 32-bit words. -/
def sum32 : List Byte → Nat
  | b₀ :: b₁ :: b₂ :: b₃ :: buf => leNat [b₀, b₁, b₂, b₃] + sum32 buf
  | buf => leNat buf

variable {buf : List Byte}

theorem sum32_of_length_le (h : buf.length ≤ 4) : sum32 buf = leNat buf := by
  unfold sum32
  split
  · rename_i b₀ b₁ b₂ b₃ buf
    have hnil : buf = [] := List.eq_nil_of_length_eq_zero (by simp only [List.length_cons] at h; omega)
    simp [hnil, sum32, leNat]
  · rfl

theorem leNat_split (buf : List Byte) :
    leNat buf = leNat (buf.take 4) + 2 ^ 32 * leNat (buf.drop 4) := by
  rcases Nat.lt_or_ge buf.length 4 with h | h
  · rw [List.take_of_length_le h.le, List.drop_of_length_le h.le]
    simp [leNat]
  · have := leNat_append (buf.take 4) (buf.drop 4)
    rw [List.take_append_drop, List.length_take, Nat.min_eq_left h] at this
    exact this

theorem sum32_step : ∀ buf : List Byte, sum32 buf = leNat (buf.take 4) + sum32 (buf.drop 4)
  | [] => rfl
  | [_] => rfl
  | [_, _] => rfl
  | [_, _, _] => rfl
  | _ :: _ :: _ :: _ :: _ => rfl

theorem sum32_drop (k : Nat) (buf : List Byte) :
    sum32 buf = sum32 (buf.take (4 * k)) + sum32 (buf.drop (4 * k)) := by
  induction k generalizing buf with
  | zero => simp [sum32, leNat]
  | succ k ih =>
    rw [sum32_step buf, ih (buf.drop 4), sum32_step (buf.take (4 * (k + 1))), List.take_take,
      List.drop_take, List.drop_drop, Nat.min_eq_left (by omega)]
    have h1 : 4 * (k + 1) - 4 = 4 * k := by omega
    have h2 : 4 + 4 * k = 4 * (k + 1) := by omega
    rw [h1, h2, Nat.add_assoc]

theorem same_sum32 (k : Nat) (buf : List Byte) :
    Same 16 (sum32 (buf.take (4 * k))) (sum16 (buf.take (4 * k))) := by
  induction k generalizing buf with
  | zero => simpa [sum32, sum16, words16, leNat] using Same.refl 16 0
  | succ k ih =>
    have h16 := sum16_drop 2 (buf.take (4 * (k + 1)))
    rw [sum32_step, h16, List.take_take, List.drop_take]
    have h1 : 4 * (k + 1) - 4 = 4 * k := by omega
    rw [h1]
    exact (same_leNat _).add (ih (buf.drop 4))

def M256.total (a : M256) : Nat := a.q0.toNat + a.q1.toNat + a.q2.toNat + a.q3.toNat

theorem M256.total_add (a b : M256) : (a.add b).total % 2 ^ 64 = (a.total + b.total) % 2 ^ 64 := by
  simp only [M256.total, M256.add, BitVec.toNat_add]
  omega

theorem halves_load64 (buf : List Byte) (i : Nat) :
    (low32 (load64 buf i)).toNat + (load64 buf i >>> 32).toNat =
      sum32 ((buf.drop (8 * i)).take 8) := by
  rw [low32, toNat_and_mask32, BitVec.toNat_ushiftRight, Nat.shiftRight_eq_div_pow, load64_toNat,
    sum32_step, sum32_of_length_le (by simp only [List.length_drop, List.length_take]; omega)]
  have hsplit := leNat_split ((buf.drop (8 * i)).take 8)
  have hlt : leNat (((buf.drop (8 * i)).take 8).take 4) < 2 ^ 32 := leNat_take_lt 4 _
  omega

theorem total_unpack (buf : List Byte) :
    (unpackhi (loadu buf)).total + (unpacklo (loadu buf)).total = sum32 (buf.take 32) := by
  have h : ∀ i, i < 4 → sum32 ((buf.take 32).drop (8 * i)) =
      (low32 (load64 buf i)).toNat + (load64 buf i >>> 32).toNat +
        sum32 ((buf.take 32).drop (8 * (i + 1))) := by
    intro i hi
    rw [halves_load64, sum32_drop 2 ((buf.take 32).drop (8 * i)), List.drop_drop, List.drop_take,
      List.take_take, Nat.min_eq_left (by omega)]
    rfl
  have h0 : sum32 (buf.take 32) = _ := h 0 (by decide)
  have hend : sum32 ((buf.take 32).drop (8 * (3 + 1))) = 0 := by
    rw [List.drop_of_length_le (by simp only [List.length_take]; omega)]
    rfl
  rw [h0, h 1 (by decide), h 2 (by decide), h 3 (by decide), hend]
  simp only [M256.total, unpackhi, unpacklo, loadu]
  omega

def Streams.total (s : Streams) : Nat := s.aHi.total + s.aLo.total + (s.bHi.total + s.bLo.total)

theorem Streams.total_add (s t : Streams) :
    (s.add t).total % 2 ^ 64 = (s.total + t.total) % 2 ^ 64 := by
  have h1 := M256.total_add s.aHi t.aHi
  have h2 := M256.total_add s.aLo t.aLo
  have h3 := M256.total_add s.bHi t.bHi
  have h4 := M256.total_add s.bLo t.bLo
  simp only [Streams.total, Streams.add]
  omega

theorem Streams.fold_toNat (s : Streams) : s.fold.toNat = s.total % 2 ^ 64 := by
  have h1 := M256.total_add s.aHi s.aLo
  have h2 := M256.total_add s.bHi s.bLo
  have h3 := M256.total_add (s.aHi.add s.aLo) (s.bHi.add s.bLo)
  have h4 : s.fold.toNat = ((s.aHi.add s.aLo).add (s.bHi.add s.bLo)).total % 2 ^ 64 := by
    simp only [Streams.fold, M256.total, BitVec.toNat_add]
    omega
  simp only [Streams.total]
  omega

theorem total_streams (buf : List Byte) : (streams buf).total = sum32 (buf.take 64) := by
  have h1 := total_unpack buf
  have h2 := total_unpack (buf.drop 32)
  have h3 := sum32_drop 8 (buf.take 64)
  rw [List.take_take, List.drop_take] at h3
  simp only [Streams.total, streams]
  exact (congrArg₂ (· + ·) h1 h2).trans h3.symm

/-- The first block of a buffer and the blocks after it. -/
theorem blocks_drop {buf : List Byte} (h : 64 ≤ buf.length) :
    64 * (buf.length / 64) = 64 + 64 * ((buf.drop 64).length / 64) := by
  simp only [List.length_drop]
  omega

theorem sum32_blocks {buf : List Byte} (h : 64 ≤ buf.length) :
    sum32 (buf.take (64 * (buf.length / 64))) =
      sum32 (buf.take 64) +
        sum32 ((buf.drop 64).take (64 * ((buf.drop 64).length / 64))) := by
  have hblocks := blocks_drop h
  have hsplit := sum32_drop 16 (buf.take (64 * (buf.length / 64)))
  have hrest : 64 * (buf.length / 64) - 4 * 16 = 64 * ((buf.drop 64).length / 64) := by omega
  rw [List.take_take, List.drop_take, Nat.min_eq_left (by omega), hrest] at hsplit
  exact hsplit

theorem sumStreams_spec (n : Nat) (buf : List Byte) (s : Streams) (hn : buf.length ≤ n) :
    (sumStreams n buf s).1 = buf.drop (64 * (buf.length / 64)) ∧
      (sumStreams n buf s).2.total % 2 ^ 64 =
        (s.total + sum32 (buf.take (64 * (buf.length / 64)))) % 2 ^ 64 := by
  induction n generalizing buf s with
  | zero =>
    have h0 : buf = [] := List.eq_nil_of_length_eq_zero (by omega)
    subst h0
    simp [sumStreams, sum32, leNat]
  | succ n ih =>
    simp only [sumStreams]
    split
    · rename_i hlen
      obtain ⟨h1, h2⟩ := ih (buf.drop 64) (s.add (streams buf)) (by simp only [List.length_drop]; omega)
      have hsplit := sum32_blocks hlen
      refine ⟨?_, ?_⟩
      · rw [h1, List.drop_drop, blocks_drop hlen]
      · have h3 := Streams.total_add s (streams buf)
        rw [total_streams] at h3
        omega
    · rename_i hlen
      have h0 : buf.length / 64 = 0 := by omega
      simp [h0, sum32, leNat]

theorem sumVectors_spec (buf : List Byte) (h : 64 ≤ buf.length) :
    (sumVectors buf).1 = buf.drop (64 * (buf.length / 64)) ∧
      (sumVectors buf).2.toNat = sum32 (buf.take (64 * (buf.length / 64))) % 2 ^ 64 := by
  obtain ⟨h1, h2⟩ := sumStreams_spec buf.length (buf.drop 64) (streams buf)
    (by simp only [List.length_drop]; omega)
  refine ⟨?_, ?_⟩
  · simp only [sumVectors]
    rw [h1, List.drop_drop, blocks_drop h]
  · simp only [sumVectors]
    rw [Streams.fold_toNat, h2, total_streams, sum32_blocks h]

/-! ## The whole sum -/

/-- How many bytes the vector loop takes. -/
def vectorBytes (avx2 : Bool) (buf : List Byte) : Nat :=
  if avx2 ∧ 128 ≤ buf.length then 64 * (buf.length / 64) else 0

/-- The sum of the 32-bit words in the bytes that the vector loop takes. -/
def vectorTotal (avx2 : Bool) (buf : List Byte) : Nat := sum32 (buf.take (vectorBytes avx2 buf))

/-- The sum of the 16-bit words that come after them. -/
def scalarTotal (avx2 : Bool) (buf : List Byte) : Nat := sum16 (buf.drop (vectorBytes avx2 buf))

theorem addOdd_toNat {s : BitVec 64} (hlen : buf.length ≤ 1) (hs : s.toNat + 256 < 2 ^ 64) :
    (if decide (buf.length = 1) = true then s + (buf.headD 0).setWidth 64 else s).toNat =
      s.toNat + sum16 buf ∧ sum16 buf < 256 := by
  cases buf with
  | nil => simp [sum16, words16]
  | cons b buf =>
    have hnil : buf = [] := List.eq_nil_of_length_eq_zero (by simp only [List.length_cons] at hlen; omega)
    have hb := b.isLt
    subst hnil
    simp only [List.length_cons, List.length_nil, Nat.zero_add, decide_true, if_true,
      List.headD_cons, sum16, words16, leNat, List.sum_cons, List.sum_nil, BitVec.toNat_add,
      BitVec.toNat_setWidth, BitVec.ofNat_eq_ofNat, BitVec.toNat_ofNat]
    omega

/-- The last two folds of a sum that is hardly more than 33 bits long. -/
theorem reduce_toNat {s : BitVec 64} (hs : s.toNat < 2 ^ 34) :
    Same 16 ((fold64 s + (fold64 s >>> 32)).setWidth 32).toNat s.toNat := by
  have hf := fold64_toNat s
  have hred : ((fold64 s + (fold64 s >>> 32)).setWidth 32).toNat =
      (fold64 s).toNat / 2 ^ (16 * 2) + (fold64 s).toNat % 2 ^ (16 * 2) := by
    rw [BitVec.toNat_setWidth, BitVec.toNat_add, BitVec.toNat_ushiftRight,
      Nat.shiftRight_eq_div_pow]
    omega
  rw [hred]
  refine (same_fold 16 2 _).trans ?_
  rw [hf]
  exact same_fold 16 2 _

theorem sumScalars_spec (buf : List Byte) (s : BitVec 64) :
    Same 16 (sumScalars (decide (buf.length % 2 = 1)) buf s).toNat (s.toNat + sum16 buf) := by
  obtain ⟨hs₁, -, hpar₁⟩ := sumWords_spec (k := 8) (by decide) buf.length buf s le_rfl
  unfold sumScalars
  generalize sumWords 8 buf.length buf s = r₁ at hs₁ hpar₁ ⊢
  obtain ⟨buf₁, s₁⟩ := r₁
  obtain ⟨hs₂, hlen₂, hpar₂⟩ := sumWords_spec (k := 2) (by decide) buf₁.length buf₁ s₁ le_rfl
  simp only at hs₁ hpar₁ ⊢
  generalize sumWords 2 buf₁.length buf₁ s₁ = r₂ at hs₂ hlen₂ hpar₂ ⊢
  obtain ⟨buf₂, s₂⟩ := r₂
  simp only at hs₂ hlen₂ hpar₂ ⊢
  -- less than two words are left, and the folded sum has room for them
  have hf := fold64_toNat s₂
  have hb := s₂.isLt
  obtain ⟨hs₃, hlen₃, hle₃⟩ := sumHalfwords_spec buf₂ (fold64 s₂) (by omega)
  generalize sumHalfwords buf₂ (fold64 s₂) = r₃ at hs₃ hlen₃ hle₃ ⊢
  obtain ⟨buf₃, s₃⟩ := r₃
  simp only at hs₃ hlen₃ hle₃ ⊢
  obtain ⟨hs₄, hbuf₃⟩ := @addOdd_toNat buf₃ s₃ (by omega) (by omega)
  rw [hlen₃, hpar₂, hpar₁] at hs₄
  refine (reduce_toNat (by omega)).trans ?_
  rw [hs₄, hs₃, hf]
  exact (((same_fold 16 2 _).add_right _).trans hs₂).trans hs₁

theorem same_calculateSum (avx2 : Bool) (buf : List Byte) :
    Same 16 (calculateSum avx2 buf).toNat
      (vectorTotal avx2 buf % 2 ^ 64 + scalarTotal avx2 buf) := by
  have hpar : (buf.drop (vectorBytes avx2 buf)).length % 2 = buf.length % 2 := by
    rw [List.length_drop, vectorBytes]
    split <;> omega
  have hr : ∃ s, (if avx2 ∧ 128 ≤ buf.length then sumVectors buf else (buf, 0)) =
      (buf.drop (vectorBytes avx2 buf), s) ∧ s.toNat = vectorTotal avx2 buf % 2 ^ 64 := by
    unfold vectorTotal vectorBytes
    split
    · obtain ⟨h1, h2⟩ := sumVectors_spec buf (by omega)
      exact ⟨(sumVectors buf).2, by rw [← h1], h2⟩
    · exact ⟨0, rfl, by simp [sum32, leNat]⟩
  obtain ⟨s, hr, hs⟩ := hr
  unfold calculateSum
  simp only [hr]
  rw [← hpar, ← hs]
  exact sumScalars_spec _ s

theorem foldChecksum_eq (c : BitVec 32) :
    ∃ x, x < 2 ^ 16 ∧ Same 16 x c.toNat ∧ foldChecksum c = ~~~BitVec.ofNat 16 x := by
  have hc := c.isLt
  have hmask : (c &&& 0xFFFF#32).toNat = c.toNat % 2 ^ 16 := by
    rw [BitVec.toNat_and]
    exact Nat.and_two_pow_sub_one_eq_mod c.toNat 16
  obtain ⟨y, hy⟩ : ∃ y, y = c.toNat / 2 ^ (16 * 1) + c.toNat % 2 ^ (16 * 1) := ⟨_, rfl⟩
  have hsum : ((c >>> 16) + (c &&& 0xFFFF#32)).toNat = y := by
    rw [BitVec.toNat_add, hmask, BitVec.toNat_ushiftRight, Nat.shiftRight_eq_div_pow]
    omega
  refine ⟨y / 2 ^ (16 * 1) + y % 2 ^ (16 * 1), by omega, ?_, ?_⟩
  · exact (same_fold 16 1 y).trans (hy ▸ same_fold 16 1 c.toNat)
  · unfold foldChecksum
    apply BitVec.eq_of_toNat_eq
    simp only [BitVec.toNat_setWidth, BitVec.toNat_not, BitVec.toNat_add, BitVec.toNat_ofNat,
      BitVec.toNat_ushiftRight, Nat.shiftRight_eq_div_pow, hmask]
    omega

/-- The result of `FoldChecksum` is the complement of the one 16-bit number that is the same sum. -/
theorem foldChecksum_eq_iff (c : BitVec 32) {n : Nat} (hn : n < 2 ^ 16) :
    foldChecksum c = ~~~BitVec.ofNat 16 n ↔ Same 16 c.toNat n := by
  obtain ⟨x, hx, hs, hf⟩ := foldChecksum_eq c
  rw [hf, BitVec.not_inj]
  constructor
  · intro h
    have h := congrArg BitVec.toNat h
    rw [BitVec.toNat_ofNat, BitVec.toNat_ofNat, Nat.mod_eq_of_lt hx, Nat.mod_eq_of_lt hn] at h
    exact h ▸ hs.symm
  · intro h
    rw [(hs.trans h).eq hx hn]

theorem same_totals (avx2 : Bool) (buf : List Byte) :
    Same 16 (vectorTotal avx2 buf + scalarTotal avx2 buf) (sum16 buf) := by
  obtain ⟨k, hk⟩ : ∃ k, vectorBytes avx2 buf = 4 * k := by
    unfold vectorBytes
    split
    · exact ⟨16 * (buf.length / 64), by omega⟩
    · exact ⟨0, rfl⟩
  unfold vectorTotal scalarTotal
  have h2 : 2 * (2 * k) = 4 * k := by omega
  have hsplit := sum16_drop (2 * k) buf
  rw [h2] at hsplit
  rw [hk, hsplit]
  exact (same_sum32 k buf).add_right _

theorem calculateGenericChecksum_eq_iff (avx2 : Bool) (buf : List Byte) :
    calculateGenericChecksum avx2 buf = rfc1071 buf ↔
      Same 16 (vectorTotal avx2 buf % 2 ^ 64 + scalarTotal avx2 buf)
        (vectorTotal avx2 buf + scalarTotal avx2 buf) := by
  unfold calculateGenericChecksum rfc1071
  rw [foldChecksum_eq_iff _ (endAroundSum_lt (words16_lt buf))]
  have hspec : Same 16 (endAroundSum 16 (words16 buf)) (sum16 buf) := same_endAroundSum 16 _
  constructor
  · intro h
    exact (same_calculateSum avx2 buf).symm.trans
      ((h.trans hspec).trans (same_totals avx2 buf).symm)
  · intro h
    exact (same_calculateSum avx2 buf).trans
      ((h.trans (same_totals avx2 buf)).trans hspec.symm)

/-- How many carries are lost in the lanes of the vector loop. -/
def lostCarries (avx2 : Bool) (buf : List Byte) : Nat := vectorTotal avx2 buf / 2 ^ 64

/-- Losing `T / 2^64` carries does not matter iff they are a multiple of `2^16 - 1` and what is left
is not zero. -/
theorem same_mod_iff (T S : Nat) :
    Same 16 (T % 2 ^ 64 + S) (T + S) ↔
      65535 ∣ T / 2 ^ 64 ∧ (T / 2 ^ 64 ≠ 0 → T % 2 ^ 64 + S ≠ 0) := by
  obtain ⟨q, hq⟩ : ∃ q, q = T / 2 ^ 64 := ⟨_, rfl⟩
  obtain ⟨r, hr⟩ : ∃ r, r = T % 2 ^ 64 + S := ⟨_, rfl⟩
  have hT : T + S = r + 2 ^ (16 * 4) * q := by omega
  rw [hT, ← hq, ← hr]
  constructor
  · intro h
    obtain ⟨hm, hz⟩ := h.trans (same_shift 16 4 r q)
    refine ⟨?_, by omega⟩
    have hm : r % 65535 = (r + q) % 65535 := hm
    omega
  · rintro ⟨hd, hz⟩
    refine Same.trans ?_ (same_shift 16 4 r q).symm
    refine ⟨?_, by omega⟩
    show r % 65535 = (r + q) % 65535
    omega

/-- `CalculateGenericChecksum` is the Internet checksum of the buffer iff the vector loop loses no
carries, or loses a multiple of `2^16 - 1` of them and still has something to add up. -/
theorem calculateGenericChecksum_rfc1071_iff (avx2 : Bool) (buf : List Byte) :
    calculateGenericChecksum avx2 buf = rfc1071 buf ↔
      65535 ∣ lostCarries avx2 buf ∧
        (lostCarries avx2 buf ≠ 0 →
          vectorTotal avx2 buf % 2 ^ 64 + scalarTotal avx2 buf ≠ 0) := by
  rw [calculateGenericChecksum_eq_iff, same_mod_iff, lostCarries]

/-- A buffer whose bits are all set. -/
def ones (n : Nat) : List Byte := List.replicate n 0xFF#8

theorem sum32_ones (k : Nat) : sum32 (ones (4 * k)) = (2 ^ 32 - 1) * k := by
  induction k with
  | zero => rfl
  | succ k ih =>
    have h : ones (4 * (k + 1)) = 0xFF#8 :: 0xFF#8 :: 0xFF#8 :: 0xFF#8 :: ones (4 * k) := by
      simp [ones, Nat.mul_add, List.replicate_succ]
    rw [h, sum32, ih, Nat.mul_add, Nat.add_comm]
    rfl

theorem lostCarries_ones {k : Nat} (hk : 2 ≤ k) :
    lostCarries true (ones (64 * k)) = (2 ^ 32 - 1) * (16 * k) / 2 ^ 64 := by
  have hlen : (ones (64 * k)).length = 64 * k := List.length_replicate
  have hb : vectorBytes true (ones (64 * k)) = 64 * k := by
    rw [vectorBytes, hlen, if_pos ⟨rfl, by omega⟩]
    omega
  have h64 : 64 * k = 4 * (16 * k) := by omega
  rw [lostCarries, vectorTotal, hb, List.take_of_length_le hlen.le, h64, sum32_ones]

/-- In 16 GiB and 64 bytes of ones the lanes add up to more than `2^64`. -/
theorem hugeBuffer_checksum_wrong :
    calculateGenericChecksum true (ones (2 ^ 34 + 64)) ≠ rfc1071 (ones (2 ^ 34 + 64)) := by
  have hlen : 2 ^ 34 + 64 = 64 * (2 ^ 28 + 1) := by norm_num
  rw [hlen, Ne, calculateGenericChecksum_eq_iff, same_mod_iff]
  rintro ⟨hd, -⟩
  have hlost := lostCarries_ones (k := 2 ^ 28 + 1) (by omega)
  rw [lostCarries] at hlost
  rw [hlost] at hd
  norm_num at hd

/-! ## CRC32C

The instruction that `rte_hash_crc` uses on x86, one bit at a time. -/

def crcStep (crc bit : Nat) : Nat :=
  if (crc + bit) % 2 = 1 then (crc >>> 1) ^^^ 0x82F63B78 else crc >>> 1

/-- The lowest `n` bits of `data`, from the lowest one on. -/
def crcLoop : Nat → Nat → Nat → Nat
  | 0, _, crc => crc
  | n + 1, data, crc => crcLoop n (data >>> 1) (crcStep crc (data % 2))

/-- `_mm_crc32_u64` -/
def crc32cU64 (data : BitVec 64) (init : BitVec 32) : BitVec 32 :=
  BitVec.ofNat 32 (crcLoop 64 data.toNat init.toNat)

end Bess.Checksum
