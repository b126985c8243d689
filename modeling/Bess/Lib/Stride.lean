import Mathlib.Algebra.Order.BigOperators.Group.List
import Mathlib.Algebra.Order.Ring.Int
import Mathlib.Algebra.Order.Ring.Nat
import Mathlib.Order.MinMax

/-!
# Stride scheduling

Each client has a pass; the one with the least pass takes its turn and its pass grows by what the turn
cost. The passes of two clients then never drift apart by more than one turn, and a client that is
ready has its turn after a bounded number of others.
-/

namespace Bess.Stride

variable {ι : Type}

/-- A turn of `k` among the ready clients `R`, of cost `n`. -/
structure Turn (R : ι → Prop) (p : ι → Int) (k : ι) (n : Int) (p' : ι → Int) : Prop where
  least : ∀ i, R i → p k ≤ p i
  moved : p' k = p k + n
  others : ∀ i, R i → i ≠ k → p' i = p i

/-- The rounds that other clients may take before `j`: each until it is ahead of `j`. -/
def debt (p : ι → Int) (l : List ι) (j : ι) : Nat := (l.map fun i => (p j + 1 - p i).toNat).sum

variable {R : ι → Prop} {p p' : ι → Int} {i j k : ι} {n M : Int} {l : List ι}

theorem Turn.spread (h : Turn R p k n p') (hi : R i) (hj : R j) (hn : 0 ≤ n) (hM : n ≤ M) :
    p' i - p' j ≤ max M (p i - p j) := by
  have hmoved := h.moved
  rcases eq_or_ne i k with rfl | hik
  · rcases eq_or_ne j i with rfl | hji
    · have : 0 ≤ M := hn.trans hM
      omega
    · have := h.least j hj
      have := h.others j hj hji
      omega
  · rw [h.others i hi hik]
    rcases eq_or_ne j k with rfl | hjk
    · omega
    · rw [h.others j hj hjk]
      omega

theorem Turn.debt_lt (h : Turn R p k n p') (hl : ∀ i ∈ l, R i) (hk : k ∈ l) (hj : R j) (hkj : k ≠ j)
    (hn : 0 < n) : debt p' l j < debt p l j := by
  have hpj : p' j = p j := h.others j hj hkj.symm
  have hmoved := h.moved
  refine List.sum_lt_sum _ _ (fun i hi => ?_) ⟨k, hk, ?_⟩
  · rcases eq_or_ne i k with rfl | hik
    · omega
    · rw [hpj, h.others i (hl i hi) hik]
  · have := h.least j hj
    omega

end Bess.Stride
