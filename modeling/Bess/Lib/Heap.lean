import Mathlib.Data.List.Sort
import Mathlib.Data.List.Perm.Basic
import Mathlib.Order.Defs.Unbundled

/-!
# Binary heaps in a vector

The order that `std::push_heap` and its companions keep for a comparison `cmp`: the first element is
one that no other exceeds. `StdHeap` states what the standard promises about the library functions
and leaves the rest open; `StdHeap.sorted` is one way to meet it. `SiftReady` is the invariant of a
loop that moves a lowered element down.
-/

namespace Bess.Heap

variable {α : Type}

/-- The requirement the standard puts on a comparison. -/
abbrev StrictWeak (cmp : α → α → Bool) : Prop := IsStrictWeakOrder α fun a b => cmp a b = true

/-- No element exceeds its parent. -/
def IsHeap (cmp : α → α → Bool) (v : List α) : Prop :=
  ∀ i x y, 0 < i → v[(i - 1) / 2]? = some x → v[i]? = some y → cmp x y = false

/-- The heap functions of the standard library. Popping moves the first element away without a look
at it, so it may have been overwritten before. -/
structure StdHeap where
  push : {α : Type} → (α → α → Bool) → List α → α → List α
  pop : {α : Type} → (α → α → Bool) → List α → List α
  make : {α : Type} → (α → α → Bool) → List α → List α
  push_spec : ∀ {α : Type} (cmp : α → α → Bool) (v : List α) (x : α), StrictWeak cmp →
    IsHeap cmp v → (push cmp v x).Perm (x :: v) ∧ IsHeap cmp (push cmp v x)
  pop_spec : ∀ {α : Type} (cmp : α → α → Bool) (x y : α) (v : List α), StrictWeak cmp →
    IsHeap cmp (x :: v) → (pop cmp (y :: v)).Perm v ∧ IsHeap cmp (pop cmp (y :: v))
  make_spec : ∀ {α : Type} (cmp : α → α → Bool) (v : List α), StrictWeak cmp →
    (make cmp v).Perm v ∧ IsHeap cmp (make cmp v)

variable {cmp : α → α → Bool} {v : List α} {x y z : α}

/-! ## Comparisons -/

theorem StrictWeak.not_self (h : StrictWeak cmp) (x : α) : cmp x x = false :=
  Bool.eq_false_iff.mpr (h.irrefl x)

theorem StrictWeak.asymm (h : StrictWeak cmp) (hxy : cmp x y = true) : cmp y x = false := by
  cases hyx : cmp y x with
  | false => rfl
  | true => exact absurd (h.trans _ _ _ hxy hyx) (h.irrefl x)

theorem StrictWeak.not_trans (h : StrictWeak cmp) (hxy : cmp x y = false) (hyz : cmp y z = false) :
    cmp x z = false := by
  cases hxz : cmp x z with
  | false => rfl
  | true =>
    -- neither `y < x` nor `z < y` is possible, so `x`, `y` and `z` are all equivalent
    have hyx : ¬ cmp y x = true := fun hyx => by simp [h.trans _ _ _ hyx hxz] at hyz
    have hzy : ¬ cmp z y = true := fun hzy => by simp [h.trans _ _ _ hxz hzy] at hxy
    exact absurd hxz (h.incomp_trans x y z ⟨by simp [hxy], hyx⟩ ⟨by simp [hyz], hzy⟩).1

/-- The comparison that puts the smallest key first. -/
def byLeast {κ : Type} [LT κ] [DecidableLT κ] (key : α → κ) (a b : α) : Bool :=
  decide (key b < key a)

theorem byLeast_strictWeak {κ : Type} [LinearOrder κ] (key : α → κ) :
    StrictWeak (byLeast key) where
  irrefl a := by simp [byLeast]
  trans a b c hab hbc := by
    simp only [byLeast, decide_eq_true_eq] at hab hbc ⊢
    exact lt_trans hbc hab
  incomp_trans a b c hab hbc := by
    simp only [byLeast, decide_eq_true_eq, not_lt] at hab hbc ⊢
    exact ⟨le_trans hab.1 hbc.1, le_trans hbc.2 hab.2⟩

/-! ## The top -/

theorem IsHeap.top (hc : StrictWeak cmp) (h : IsHeap cmp (x :: v)) (hy : y ∈ x :: v) :
    cmp x y = false := by
  obtain ⟨i, hi⟩ := List.mem_iff_getElem?.mp hy
  -- along the way from the element up to the top nothing is exceeded
  induction i using Nat.strongRecOn generalizing y with
  | ind i ih =>
    rcases Nat.eq_zero_or_pos i with rfl | hpos
    · obtain rfl : x = y := by simpa using hi
      exact hc.not_self x
    · have hlt : (i - 1) / 2 < i := by omega
      have hlen : i < (x :: v).length := (List.getElem?_eq_some_iff.mp hi).1
      have hp : (x :: v)[(i - 1) / 2]? = some ((x :: v)[(i - 1) / 2]) :=
        List.getElem?_eq_getElem (Nat.lt_trans hlt hlen)
      exact hc.not_trans (ih _ hlt (List.mem_of_getElem? hp) hp) (h i _ _ hpos hp hi)

theorem isHeap_nil : IsHeap cmp ([] : List α) := by
  intro i x y _ hx
  simp at hx

/-! ## Sorted vectors -/

theorem isHeap_of_sorted (h : v.Pairwise fun a b => cmp a b = false) : IsHeap cmp v := by
  intro i x y hi hx hy
  obtain ⟨hp, rfl⟩ := List.getElem?_eq_some_iff.mp hx
  obtain ⟨hc, rfl⟩ := List.getElem?_eq_some_iff.mp hy
  exact List.pairwise_iff_getElem.mp h _ _ hp hc (by omega)

theorem isHeap_insertionSort (hc : StrictWeak cmp) (v : List α) :
    IsHeap cmp (v.insertionSort fun a b => cmp a b = false) := by
  have : Std.Total fun a b => cmp a b = false := ⟨fun a b => by
    cases hab : cmp a b with
    | false => exact .inl rfl
    | true => exact .inr (hc.asymm hab)⟩
  have : IsTrans _ fun a b => cmp a b = false := ⟨fun a b c => hc.not_trans⟩
  exact isHeap_of_sorted (List.pairwise_insertionSort _ _)

/-- The heap functions that keep the vector sorted. -/
def StdHeap.sorted : StdHeap where
  push cmp v x := (v ++ [x]).insertionSort fun a b => cmp a b = false
  pop cmp v := (v.drop 1).insertionSort fun a b => cmp a b = false
  make cmp v := v.insertionSort fun a b => cmp a b = false
  push_spec _ v x hc _ :=
    ⟨(List.perm_insertionSort _ _).trans (List.perm_append_singleton x v),
      isHeap_insertionSort hc _⟩
  pop_spec _ _ _ _ hc _ := ⟨List.perm_insertionSort _ _, isHeap_insertionSort hc _⟩
  make_spec _ _ hc := ⟨List.perm_insertionSort _ _, isHeap_insertionSort hc _⟩

/-! ## Swapping -/

/-- Swap positions `i` and `j`, which hold `x` and `y`. -/
def swapAt (v : List α) (i j : Nat) (x y : α) : List α := (v.set i y).set j x

theorem getElem?_swapAt {i j : Nat} (hi : v[i]? = some x) (hj : v[j]? = some y) (k : Nat) :
    (swapAt v i j x y)[k]? = if k = j then some x else if k = i then some y else v[k]? := by
  have hil := (List.getElem?_eq_some_iff.mp hi).1
  have hjl := (List.getElem?_eq_some_iff.mp hj).1
  unfold swapAt
  simp only [List.getElem?_set, List.length_set]
  by_cases hkj : k = j
  · subst hkj; simp [hjl]
  · by_cases hki : k = i
    · subst hki; simp [hkj, Ne.symm hkj, hil]
    · simp [hkj, hki, Ne.symm hkj, Ne.symm hki]

theorem length_swapAt (v : List α) (i j : Nat) (x y : α) : (swapAt v i j x y).length = v.length := by
  simp [swapAt]

theorem swapAt_perm {i j : Nat} (hi : v[i]? = some x) (hj : v[j]? = some y) :
    (swapAt v i j x y).Perm v := by
  obtain ⟨hil, rfl⟩ := List.getElem?_eq_some_iff.mp hi
  obtain ⟨hjl, rfl⟩ := List.getElem?_eq_some_iff.mp hj
  exact List.set_set_perm hil hjl

/-! ## Moving an element down -/

/-- Every edge of the heap is in order except those that leave `node`, and the children of `node`
are in order with its parent. -/
structure SiftReady (cmp : α → α → Bool) (v : List α) (node : Nat) : Prop where
  edge : ∀ i x y, 0 < i → (i - 1) / 2 ≠ node → v[(i - 1) / 2]? = some x → v[i]? = some y →
    cmp x y = false
  skip : ∀ i x y, 0 < i → (i - 1) / 2 = node → 0 < node → v[(node - 1) / 2]? = some x →
    v[i]? = some y → cmp x y = false

theorem IsHeap.siftReady (h : IsHeap cmp (x :: v)) (y : α) : SiftReady cmp (y :: v) 0 := by
  constructor
  · intro i a b hi hp ha hb
    obtain ⟨j, rfl⟩ : ∃ j, i = j + 1 := ⟨i - 1, by omega⟩
    obtain ⟨k, hk⟩ : ∃ k, (j + 1 - 1) / 2 = k + 1 := ⟨(j + 1 - 1) / 2 - 1, by omega⟩
    rw [hk] at ha
    exact h (j + 1) a b hi (by rw [hk]; exact ha) hb
  · intro i a b _ _ hpos
    exact absurd hpos (Nat.lt_irrefl 0)

theorem SiftReady.isHeap {node : Nat} (h : SiftReady cmp v node)
    (hc : ∀ i x y, 0 < i → (i - 1) / 2 = node → v[node]? = some x → v[i]? = some y →
      cmp x y = false) : IsHeap cmp v := by
  intro i x y hi hx hy
  by_cases hp : (i - 1) / 2 = node
  · exact hc i x y hi hp (hp ▸ hx) hy
  · exact h.edge i x y hi hp hx hy

theorem SiftReady.swap {node k : Nat} (hw : StrictWeak cmp) (h : SiftReady cmp v node)
    (hx : v[node]? = some x) (hk : k = 2 * node + 1 ∨ k = 2 * node + 2) (hz : v[k]? = some z)
    (hlt : cmp x z = true)
    (hmax : ∀ i w, (i = 2 * node + 1 ∨ i = 2 * node + 2) → v[i]? = some w → cmp z w = false) :
    SiftReady cmp (swapAt v node k x z) k := by
  have hget := getElem?_swapAt hx hz
  constructor
  · intro i a b hi hp ha hb
    rw [hget] at ha hb
    by_cases hpn : (i - 1) / 2 = node
    · -- an edge that leaves `node`: its new occupant is the larger child
      rw [if_neg (by omega), if_pos hpn] at ha
      cases ha
      by_cases hik : i = k
      · rw [if_pos hik] at hb
        cases hb
        exact hw.asymm hlt
      · rw [if_neg hik, if_neg (by omega)] at hb
        exact hmax i b (by omega) hb
    · rw [if_neg hp, if_neg hpn] at ha
      by_cases hin : i = node
      · -- the edge that enters `node`
        subst hin
        rw [if_neg (by omega), if_pos rfl] at hb
        cases hb
        exact h.skip k a _ (by omega) (by omega) hi ha hz
      · rw [if_neg (by omega), if_neg hin] at hb
        exact h.edge i a b hi hpn ha hb
  · intro i a b hi hp _ ha hb
    have hkn : (k - 1) / 2 = node := by omega
    rw [hget, hkn, if_neg (by omega), if_pos rfl] at ha
    cases ha
    rw [hget, if_neg (by omega), if_neg (by omega)] at hb
    exact h.edge i _ b hi (by omega) (hp.symm ▸ hz) hb

end Bess.Heap
