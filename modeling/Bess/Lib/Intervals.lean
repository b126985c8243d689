import Mathlib.Algebra.Order.Group.Nat
import Mathlib.Order.Bounds.Defs
import Mathlib.Data.List.Pairwise

/-!
# Sets of numbers as ordered lists of intervals

A list of half-open intervals in increasing order, none of them empty and no two touching. The list
is determined by the set it covers. A range is added by taking in the intervals that it touches.
-/

namespace Bess.Intervals

/-- The numbers from the first component up to the second, without it. -/
abbrev Interval := Nat × Nat

def Covers (l : List Interval) (i : Nat) : Prop := ∃ a ∈ l, a.1 ≤ i ∧ i < a.2

/-- In increasing order, not empty and not touching. -/
structure Normal (l : List Interval) : Prop where
  nonempty : ∀ a ∈ l, a.1 < a.2
  apart : l.Pairwise fun a b => a.2 < b.1

variable {l before after : List Interval} {a : Interval} {i start stop : Nat}

theorem covers_nil : ¬ Covers [] i := by
  rintro ⟨a, ha, -⟩
  cases ha

theorem covers_cons : Covers (a :: l) i ↔ (a.1 ≤ i ∧ i < a.2) ∨ Covers l i := by
  simp [Covers]

theorem covers_append : Covers (before ++ after) i ↔ Covers before i ∨ Covers after i := by
  simp [Covers, or_and_right, exists_or]

theorem normal_cons : Normal (a :: l) ↔ a.1 < a.2 ∧ (∀ b ∈ l, a.2 < b.1) ∧ Normal l := by
  constructor
  · rintro ⟨hne, hapart⟩
    obtain ⟨ha, hl⟩ := List.forall_mem_cons.mp hne
    obtain ⟨hab, hp⟩ := List.pairwise_cons.mp hapart
    exact ⟨ha, hab, hl, hp⟩
  · rintro ⟨ha, hab, hl, hp⟩
    exact ⟨List.forall_mem_cons.mpr ⟨ha, hl⟩, List.pairwise_cons.mpr ⟨hab, hp⟩⟩

theorem normal_append : Normal (before ++ after) ↔
    Normal before ∧ Normal after ∧ ∀ a ∈ before, ∀ b ∈ after, a.2 < b.1 := by
  constructor
  · rintro ⟨hne, hapart⟩
    obtain ⟨hb, ha⟩ := List.forall_mem_append.mp hne
    obtain ⟨hpb, hpa, hx⟩ := List.pairwise_append.mp hapart
    exact ⟨⟨hb, hpb⟩, ⟨ha, hpa⟩, hx⟩
  · rintro ⟨⟨hb, hpb⟩, ⟨ha, hpa⟩, hx⟩
    exact ⟨List.forall_mem_append.mpr ⟨hb, ha⟩, List.pairwise_append.mpr ⟨hpb, hpa, hx⟩⟩

theorem Normal.covers_tail_iff (h : Normal (a :: l)) : Covers l i ↔ Covers (a :: l) i ∧ a.2 ≤ i := by
  obtain ⟨-, hab, hl⟩ := normal_cons.mp h
  rw [covers_cons]
  constructor
  · rintro ⟨b, hb, hbi⟩
    have := hab b hb
    exact ⟨.inr ⟨b, hb, hbi⟩, by omega⟩
  · rintro ⟨hi | hi, hle⟩
    · omega
    · exact hi

theorem Normal.head_le (h : Normal (a :: l)) (hi : Covers (a :: l) i) : a.1 ≤ i := by
  obtain ⟨hlt, hab, -⟩ := normal_cons.mp h
  rcases covers_cons.mp hi with hi | ⟨b, hb, hbi⟩
  · exact hi.1
  · have := hab b hb
    omega

theorem Normal.not_covers_end (h : Normal (a :: l)) : ¬ Covers (a :: l) a.2 := by
  rw [covers_cons]
  rintro (hi | ⟨b, hb, hbi⟩)
  · omega
  · have := (normal_cons.mp h).2.1 b hb
    omega

theorem Normal.ext {l' : List Interval} (h : Normal l) (h' : Normal l')
    (hc : ∀ i, Covers l i ↔ Covers l' i) : l = l' := by
  induction l generalizing l' with
  | nil =>
    cases l' with
    | nil => rfl
    | cons b l' =>
      have hb := (normal_cons.mp h').1
      exact absurd ((hc b.1).mpr (covers_cons.mpr (.inl ⟨le_rfl, hb⟩))) covers_nil
  | cons a l ih =>
    have ha := (normal_cons.mp h).1
    have hstart := covers_cons.mpr (.inl ⟨le_rfl, ha⟩ : _ ∨ Covers l a.1)
    cases l' with
    | nil => exact absurd ((hc a.1).mp hstart) covers_nil
    | cons b l' =>
      have hb := (normal_cons.mp h').1
      have hstart' := covers_cons.mpr (.inl ⟨le_rfl, hb⟩ : _ ∨ Covers l' b.1)
      have h1 := h'.head_le ((hc a.1).mp hstart)
      have h2 := h.head_le ((hc b.1).mpr hstart')
      -- an interval that ends before the other one leaves a number that the other one covers
      have h3 : ¬ a.2 < b.2 := fun hlt =>
        h.not_covers_end ((hc a.2).mpr (covers_cons.mpr (.inl ⟨by omega, hlt⟩)))
      have h4 : ¬ b.2 < a.2 := fun hlt =>
        h'.not_covers_end ((hc b.2).mp (covers_cons.mpr (.inl ⟨by omega, hlt⟩)))
      obtain rfl : a = b := Prod.ext (by omega) (by omega)
      rw [ih (normal_cons.mp h).2.2 (normal_cons.mp h').2.2 fun i => by
        rw [h.covers_tail_iff, h'.covers_tail_iff, hc]]

/-! ## Taking in intervals -/

/-- Takes in the first intervals as long as they start within the range that ends at `stop`. -/
def absorb (stop : Nat) : List Interval → Nat × List Interval
  | [] => (stop, [])
  | a :: l => if a.1 ≤ stop then absorb (max stop a.2) l else (stop, a :: l)

structure Absorbed (start stop : Nat) (l : List Interval) (r : Nat × List Interval) : Prop where
  le : stop ≤ r.1
  normal : Normal r.2
  above : ∀ b ∈ r.2, r.1 < b.1
  covers : ∀ i, (start ≤ i ∧ i < r.1) ∨ Covers r.2 i ↔ (start ≤ i ∧ i < stop) ∨ Covers l i

theorem absorb_spec (hl : Normal l) (hle : start ≤ stop) (hstart : ∀ a ∈ l, start ≤ a.1) :
    Absorbed start stop l (absorb stop l) := by
  induction l generalizing stop with
  | nil => exact ⟨le_rfl, hl, fun b hb => absurd hb List.not_mem_nil, fun i => Iff.rfl⟩
  | cons a l ih =>
    obtain ⟨ha, hab, hl⟩ := normal_cons.mp hl
    obtain ⟨hsa, hsl⟩ := List.forall_mem_cons.mp hstart
    unfold absorb
    split
    · rename_i htouch
      obtain ⟨hle', hnormal, habove, hcovers⟩ := 
        ih hl (show start ≤ max stop a.2 by omega) hsl
      refine ⟨by omega, hnormal, habove, fun i => ?_⟩
      rw [hcovers, covers_cons, ← or_assoc]
      refine or_congr_left ?_
      omega
    · rename_i hapart
      refine ⟨le_rfl, normal_cons.mpr ⟨ha, hab, hl⟩, ?_, fun i => Iff.rfl⟩
      intro b hb
      rcases List.mem_cons.mp hb with rfl | hb
      · omega
      · have := hab b hb
        simp only
        omega

/-! ## The first interval -/

/-- The end of the numbers from zero on that are covered. -/
def prefixEnd : List Interval → Nat
  | [] => 0
  | a :: _ => if a.1 = 0 then a.2 else 0

theorem Normal.isGreatest (hl : Normal l) :
    IsGreatest { n | ∀ i < n, Covers l i } (prefixEnd l) := by
  cases l with
  | nil =>
    refine ⟨fun i hi => absurd hi (Nat.not_lt_zero i), fun n hn => ?_⟩
    by_contra hlt
    exact covers_nil (hn 0 (Nat.lt_of_not_le hlt))
  | cons a l =>
    obtain ⟨ha, hab, -⟩ := normal_cons.mp hl
    have hgap : ∀ i, (i < a.1 ∨ i = a.2) → ¬ Covers (a :: l) i := by
      intro i hi hc
      rcases covers_cons.mp hc with hc | ⟨b, hb, hbi⟩
      · omega
      · have := hab b hb
        omega
    by_cases hzero : a.1 = 0
    · rw [prefixEnd, if_pos hzero]
      refine ⟨fun i hi => covers_cons.mpr (.inl ⟨by omega, hi⟩), fun n hn => ?_⟩
      by_contra hlt
      exact hgap a.2 (.inr rfl) (hn a.2 (by omega))
    · rw [prefixEnd, if_neg hzero]
      refine ⟨fun i hi => absurd hi (Nat.not_lt_zero i), fun n hn => ?_⟩
      by_contra hlt
      exact hgap 0 (.inl (by omega)) (hn 0 (by omega))

theorem Normal.covers_zero_iff (hl : Normal l) : Covers l 0 ↔ ∃ b rest, l = (0, b) :: rest := by
  cases l with
  | nil => simp [covers_nil]
  | cons a l =>
    obtain ⟨ha, hab, -⟩ := normal_cons.mp hl
    constructor
    · intro hc
      rcases covers_cons.mp hc with hc | ⟨b, hb, hbi⟩
      · refine ⟨a.2, l, ?_⟩
        rw [← Nat.le_zero.mp hc.1]
      · have := hab b hb
        omega
    · rintro ⟨b, rest, h⟩
      cases h
      exact covers_cons.mpr (.inl ⟨le_rfl, ha⟩)

end Bess.Intervals
