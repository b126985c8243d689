import Mathlib.Algebra.BigOperators.Group.List.Basic
import Mathlib.Data.Nat.ModEq
import Mathlib.Tactic.Ring

/-!
# Ones' complement sums

In ones' complement arithmetic of `w` bits a natural number stands for its residue modulo
`2^w - 1`, and zero has two representatives: the number 0, which only an empty sum gives, and
`2^w - 1`. `Same` keeps the two apart, so a number of at most `w` bits is determined by it.

Words wider than `w` bits may be added up first and folded later: `adc` is an addition with a carry
flag, and `addCarries` a chain of them that ends by adding the last carry.
-/

namespace Bess.OnesComplement

variable {w a b c d : Nat}

/-- The same number of `w` bits: congruent modulo `2^w - 1`, and zero together. -/
def Same (w a b : Nat) : Prop := a ≡ b [MOD 2 ^ w - 1] ∧ (a = 0 ↔ b = 0)

theorem Same.refl (w a : Nat) : Same w a a := ⟨Nat.ModEq.refl a, Iff.rfl⟩

theorem Same.symm (h : Same w a b) : Same w b a := ⟨h.1.symm, h.2.symm⟩

theorem Same.trans (h : Same w a b) (h' : Same w b c) : Same w a c :=
  ⟨h.1.trans h'.1, h.2.trans h'.2⟩

theorem Same.add (h : Same w a b) (h' : Same w c d) : Same w (a + c) (b + d) := by
  refine ⟨h.1.add h'.1, ?_⟩
  rw [Nat.add_eq_zero_iff, Nat.add_eq_zero_iff, h.2, h'.2]

theorem Same.add_right (h : Same w a b) (c : Nat) : Same w (a + c) (b + c) :=
  h.add (Same.refl w c)

theorem Same.add_left (c : Nat) (h : Same w a b) : Same w (c + a) (c + b) :=
  (Same.refl w c).add h

theorem Same.eq (h : Same w a b) (ha : a < 2 ^ w) (hb : b < 2 ^ w) : a = b := by
  obtain ⟨hm, hz⟩ := h
  have hm : a % (2 ^ w - 1) = b % (2 ^ w - 1) := hm
  rcases Nat.lt_or_ge a (2 ^ w - 1) with ha' | ha'
  · rw [Nat.mod_eq_of_lt ha'] at hm
    rcases Nat.lt_or_ge b (2 ^ w - 1) with hb' | hb'
    · rwa [Nat.mod_eq_of_lt hb'] at hm
    · obtain rfl : b = 2 ^ w - 1 := by omega
      rw [Nat.mod_self] at hm
      omega
  · obtain rfl : a = 2 ^ w - 1 := by omega
    rw [Nat.mod_self] at hm
    rcases Nat.lt_or_ge b (2 ^ w - 1) with hb' | hb'
    · rw [Nat.mod_eq_of_lt hb'] at hm
      omega
    · omega

theorem two_pow_modEq (w k : Nat) : 2 ^ (w * k) ≡ 1 [MOD 2 ^ w - 1] := by
  have h1 : 2 ^ w ≡ 1 [MOD 2 ^ w - 1] := by
    have h : 2 ^ w = (2 ^ w - 1) + 1 := (Nat.sub_add_cancel Nat.one_le_two_pow).symm
    calc 2 ^ w = (2 ^ w - 1) + 1 := h
      _ ≡ 0 + 1 [MOD 2 ^ w - 1] := (Nat.modEq_zero_iff_dvd.mpr (dvd_refl _)).add_right 1
  rw [pow_mul]
  simpa using h1.pow k

/-- The bits from position `w * k` on may be added at the bottom. -/
theorem same_shift (w k a b : Nat) : Same w (a + 2 ^ (w * k) * b) (a + b) := by
  refine ⟨?_, ?_⟩
  · simpa using ((two_pow_modEq w k).mul_right b).add_left a
  · have : 0 < 2 ^ (w * k) := Nat.two_pow_pos _
    rw [Nat.add_eq_zero_iff, Nat.add_eq_zero_iff, Nat.mul_eq_zero, or_iff_right this.ne']

theorem same_fold (w k a : Nat) : Same w (a / 2 ^ (w * k) + a % 2 ^ (w * k)) a := by
  have h := (same_shift w k (a % 2 ^ (w * k)) (a / 2 ^ (w * k))).symm
  rwa [Nat.mod_add_div, Nat.add_comm] at h

/-! ## The sum of a list of words -/

/-- Addition with the carry out of the top bit added at the bottom. -/
def endAroundAdd (w a b : Nat) : Nat := if a + b < 2 ^ w then a + b else a + b + 1 - 2 ^ w

def endAroundSum (w : Nat) (l : List Nat) : Nat := l.foldl (endAroundAdd w) 0

theorem same_endAroundAdd (w a b : Nat) : Same w (endAroundAdd w a b) (a + b) := by
  unfold endAroundAdd
  split
  · exact Same.refl w _
  · rename_i h
    have hp : 0 < 2 ^ w := Nat.two_pow_pos w
    have hs : a + b = (a + b + 1 - 2 ^ w) + (2 ^ w - 1) := by omega
    refine ⟨?_, by omega⟩
    have := (Nat.modEq_zero_iff_dvd.mpr (dvd_refl (2 ^ w - 1))).add_left (a + b + 1 - 2 ^ w)
    rw [← hs] at this
    exact this.symm

theorem endAroundAdd_lt (ha : a < 2 ^ w) (hb : b < 2 ^ w) : endAroundAdd w a b < 2 ^ w := by
  unfold endAroundAdd
  split <;> omega

theorem same_endAroundSum (w : Nat) (l : List Nat) : Same w (endAroundSum w l) l.sum := by
  have h : ∀ a, Same w (l.foldl (endAroundAdd w) a) (a + l.sum) := by
    induction l with
    | nil => exact fun a => Same.refl w a
    | cons x l ih =>
      intro a
      rw [List.foldl_cons, List.sum_cons, ← Nat.add_assoc]
      exact (ih _).trans ((same_endAroundAdd w a x).add_right _)
  simpa [endAroundSum] using h 0

theorem endAroundSum_lt {l : List Nat} (h : ∀ x ∈ l, x < 2 ^ w) : endAroundSum w l < 2 ^ w := by
  have hl : ∀ a, a < 2 ^ w → l.foldl (endAroundAdd w) a < 2 ^ w := by
    induction l with
    | nil => exact fun a ha => ha
    | cons x l ih =>
      intro a ha
      have hx := h x (by simp)
      exact ih (fun y hy => h y (by simp [hy])) _ (endAroundAdd_lt ha hx)
  exact hl 0 (Nat.two_pow_pos w)

/-! ## Additions with a carry flag -/

section Carry

variable {n : Nat}

/-- Add with carry: the register and the carry flag. -/
def adc (r : BitVec n × Bool) (u : BitVec n) : BitVec n × Bool :=
  let t := r.1.toNat + u.toNat + r.2.toNat
  (BitVec.ofNat n t, decide (2 ^ n ≤ t))

/-- Adds all the words, each with the carry of the addition before it, and then the last carry. -/
def addCarries (s : BitVec n) (us : List (BitVec n)) : BitVec n :=
  (adc (us.foldl adc (s, false)) 0).1

/-- After an addition that sets the carry, one more can be added without a carry. -/
def CarryFits (r : BitVec n × Bool) : Prop := r.1.toNat + r.2.toNat < 2 ^ n

theorem CarryFits.adc {r : BitVec n × Bool} (h : CarryFits r) (u : BitVec n) :
    CarryFits (adc r u) ∧
      (OnesComplement.adc r u).1.toNat + 2 ^ n * (OnesComplement.adc r u).2.toNat =
        r.1.toNat + r.2.toNat + u.toNat := by
  have hu := u.isLt
  unfold CarryFits at h ⊢
  simp only [OnesComplement.adc, BitVec.toNat_ofNat]
  by_cases ht : 2 ^ n ≤ r.1.toNat + u.toNat + r.2.toNat
  · rw [decide_eq_true ht, Nat.mod_eq_sub_mod ht, Nat.mod_eq_of_lt (by omega)]
    simp only [Bool.toNat_true]
    omega
  · rw [decide_eq_false ht, Nat.mod_eq_of_lt (by omega)]
    simp only [Bool.toNat_false]
    omega

theorem CarryFits.adc_zero {r : BitVec n × Bool} (h : CarryFits r) :
    (OnesComplement.adc r 0).1.toNat = r.1.toNat + r.2.toNat := by
  unfold CarryFits at h
  simp [OnesComplement.adc, Nat.mod_eq_of_lt h]

theorem same_addCarries {k : Nat} (hn : n = w * k) (s : BitVec n) (us : List (BitVec n)) :
    Same w (addCarries s us).toNat (s.toNat + (us.map BitVec.toNat).sum) := by
  have hrun : ∀ (us : List (BitVec n)) (r : BitVec n × Bool), CarryFits r →
      CarryFits (us.foldl adc r) ∧ Same w ((us.foldl adc r).1.toNat + (us.foldl adc r).2.toNat)
        (r.1.toNat + r.2.toNat + (us.map BitVec.toNat).sum) := by
    intro us
    induction us with
    | nil => exact fun r hr => ⟨hr, Same.refl w _⟩
    | cons u us ih =>
      intro r hr
      obtain ⟨hf, ht⟩ := hr.adc u
      obtain ⟨hf', hs⟩ := ih _ hf
      refine ⟨hf', hs.trans ?_⟩
      rw [List.map_cons, List.sum_cons, ← Nat.add_assoc, ← ht]
      subst hn
      exact (same_shift w k _ _).symm.add_right _
  obtain ⟨hf, hs⟩ := hrun us (s, false) (by simpa [CarryFits] using s.isLt)
  unfold addCarries
  rw [hf.adc_zero]
  simpa using hs

end Carry

end Bess.OnesComplement
