import Bess.Lib.Heap

/-!
# The extended priority queue

The container of `extended_priority_queue` (`core/utils/extended_priority_queue.h`), a vector kept as
a heap, with the two operations the class adds to `std::priority_queue`.
-/

namespace Bess.PriorityQueue

open Bess.Heap

variable {α : Type}

/-- The child of `node` that is compared with it: the left one, `l`, unless the right one exists and
is not lower. -/
def largerChild (cmp : α → α → Bool) (v : List α) (node : Nat) (l : α) : Nat × α :=
  match v[2 * node + 2]? with
  | some r => if cmp r l then (2 * node + 1, l) else (2 * node + 2, r)
  | none => (2 * node + 1, l)

/-- The loop of `decrease_key_top` from `node` on. -/
def siftDown (cmp : α → α → Bool) : Nat → Nat → List α → List α
  | 0, _, v => v
  | n + 1, node, v =>
    match v[node]?, v[2 * node + 1]? with
    | some x, some l =>
      let larger := largerChild cmp v node l
      if cmp x larger.2 then siftDown cmp n larger.1 (swapAt v node larger.1 x larger.2) else v
    | _, _ => v

/-- Every turn of the loop goes one level down, so the length bounds their number. -/
def decreaseKeyTop (cmp : α → α → Bool) (v : List α) : List α := siftDown cmp v.length 0 v

/-- The same loop for at most `n` turns; `none` if it does not end. -/
def siftDownWithin (cmp : α → α → Bool) : Nat → Nat → List α → Option (List α)
  | 0, _, _ => none
  | n + 1, node, v =>
    match v[node]?, v[2 * node + 1]? with
    | some x, some l =>
      let larger := largerChild cmp v node l
      if cmp x larger.2 then siftDownWithin cmp n larger.1 (swapAt v node larger.1 x larger.2)
      else some v
    | _, _ => some v

/-- Remove the first element that satisfies `p` and rebuild the heap; the element is returned too,
for the callers whose predicate has an effect. -/
def deleteSingleElement (S : StdHeap) (cmp : α → α → Bool) (p : α → Bool) (v : List α) :
    Option (α × List α) :=
  (v.find? p).map fun x => (x, S.make cmp (v.eraseP p))

variable {cmp : α → α → Bool} {v : List α} {x y : α}

/-! ## Lowering the top -/

theorem largerChild_spec {node : Nat} {l : α} (hw : StrictWeak cmp)
    (hl : v[2 * node + 1]? = some l) :
    ∃ k z, largerChild cmp v node l = (k, z) ∧ (k = 2 * node + 1 ∨ k = 2 * node + 2) ∧
      v[k]? = some z ∧
      ∀ i w, (i = 2 * node + 1 ∨ i = 2 * node + 2) → v[i]? = some w → cmp z w = false := by
  unfold largerChild
  cases hr : v[2 * node + 2]? with
  | none =>
    refine ⟨2 * node + 1, l, rfl, .inl rfl, hl, ?_⟩
    rintro i w (rfl | rfl) hwi
    · rw [hl] at hwi; obtain rfl := Option.some.inj hwi; exact hw.not_self _
    · rw [hr] at hwi; cases hwi
  | some r =>
    cases hrl : cmp r l with
    | true =>
      refine ⟨2 * node + 1, l, by simp [hrl], .inl rfl, hl, ?_⟩
      rintro i w (rfl | rfl) hwi
      · rw [hl] at hwi; obtain rfl := Option.some.inj hwi; exact hw.not_self _
      · rw [hr] at hwi; obtain rfl := Option.some.inj hwi; exact hw.asymm hrl
    | false =>
      refine ⟨2 * node + 2, r, by simp [hrl], .inr rfl, hr, ?_⟩
      rintro i w (rfl | rfl) hwi
      · rw [hl] at hwi; obtain rfl := Option.some.inj hwi; exact hrl
      · rw [hr] at hwi; obtain rfl := Option.some.inj hwi; exact hw.not_self _

theorem siftDown_perm (hw : StrictWeak cmp) (n node : Nat) (v : List α) :
    (siftDown cmp n node v).Perm v := by
  induction n generalizing node v with
  | zero => exact List.Perm.refl _
  | succ n ih =>
    unfold siftDown
    split
    · rename_i x l hx hl
      obtain ⟨k, z, heq, -, hz, -⟩ := largerChild_spec hw hl
      simp only [heq]
      split
      · exact (ih _ _).trans (swapAt_perm hx hz)
      · exact List.Perm.refl _
    · exact List.Perm.refl _

theorem siftDown_isHeap {n node : Nat} (hw : StrictWeak cmp) (h : SiftReady cmp v node)
    (hn : v.length ≤ node + n) : IsHeap cmp (siftDown cmp n node v) := by
  induction n generalizing node v with
  | zero =>
    apply h.isHeap
    intro i x y _ _ hx
    have := (List.getElem?_eq_some_iff.mp hx).1
    omega
  | succ n ih =>
    unfold siftDown
    split
    · rename_i x l hx hl
      obtain ⟨k, z, heq, hk, hz, hmax⟩ := largerChild_spec hw hl
      simp only [heq]
      split
      · rename_i hlt
        apply ih (h.swap hw hx hk hz hlt hmax)
        rw [length_swapAt]
        omega
      · rename_i hge
        apply h.isHeap
        intro i a b hi hp ha hb
        rw [hx] at ha
        cases ha
        exact hw.not_trans (by simpa using hge) (hmax i b (by omega) hb)
    · rename_i hnone
      apply h.isHeap
      intro i x y hi hp hx hy
      -- `node` has no left child, so it has no child at all
      have hlen := (List.getElem?_eq_some_iff.mp hy).1
      have hl : v[2 * node + 1]? = some v[2 * node + 1] := List.getElem?_eq_getElem (by omega)
      exact absurd hl (hnone x _ hx)

theorem decreaseKeyTop_spec (hw : StrictWeak cmp) (h : IsHeap cmp (x :: v)) (y : α) :
    (decreaseKeyTop cmp (y :: v)).Perm (y :: v) ∧ IsHeap cmp (decreaseKeyTop cmp (y :: v)) :=
  ⟨siftDown_perm hw _ _ _, siftDown_isHeap hw (h.siftReady y) (Nat.le_add_left _ _)⟩

/-- The loop ends on the level below the last one at the latest. -/
theorem siftDownWithin_eq (hw : StrictWeak cmp) {n node : Nat} (hn : v.length ≤ node + n) :
    siftDownWithin cmp (n + 1) node v = some (siftDown cmp n node v) := by
  induction n generalizing node v with
  | zero =>
    have hnode : v[node]? = none := List.getElem?_eq_none hn
    simp only [siftDownWithin, hnode, siftDown]
  | succ n ih =>
    unfold siftDownWithin siftDown
    split
    · rename_i x l hx hl
      obtain ⟨k, z, heq, hk, -, -⟩ := largerChild_spec hw hl
      simp only [heq]
      split
      · apply ih
        rw [length_swapAt]
        omega
      · rfl
    · rfl

/-! ## Removing an element -/

theorem find?_perm {p : α → Bool} (h : v.find? p = some x) : v.Perm (x :: v.eraseP p) := by
  obtain ⟨hp, as, bs, hv, hn⟩ := List.find?_eq_some_iff_append.mp h
  have hn : ∀ a ∈ as, ¬ p a = true := by simpa using hn
  rw [hv, List.eraseP_append_right _ hn, List.eraseP_cons_of_pos hp]
  exact List.perm_middle

theorem exists_eraseP_perm {p : α → Bool} (h : ∃ x ∈ v, p x = true) :
    ∃ x, p x = true ∧ v.Perm (x :: v.eraseP p) := by
  obtain ⟨x, hx⟩ := Option.isSome_iff_exists.mp (List.find?_isSome.mpr h)
  exact ⟨x, List.find?_some hx, find?_perm hx⟩

theorem deleteSingleElement_spec (S : StdHeap) (hw : StrictWeak cmp) (p : α → Bool) (v : List α) :
    (∀ x ∈ v, p x = false) ∧ deleteSingleElement S cmp p v = none ∨
    ∃ x w, deleteSingleElement S cmp p v = some (x, w) ∧ p x = true ∧ v.Perm (x :: w) ∧
      IsHeap cmp w := by
  unfold deleteSingleElement
  cases hf : v.find? p with
  | none => exact .inl ⟨by simpa using hf, rfl⟩
  | some x =>
    obtain ⟨hperm, hheap⟩ := S.make_spec cmp (v.eraseP p) hw
    exact .inr ⟨x, _, rfl, List.find?_some hf, (find?_perm hf).trans (hperm.symm.cons x), hheap⟩

/-- On every heap: the loop of `decrease_key_top` ends, whatever the top was changed to, and restores
the heap; `delete_single_element` takes out one matching element; and nothing exceeds the top. -/
theorem queue_keeps_order (S : StdHeap) (hw : StrictWeak cmp) (h : IsHeap cmp v) (p : α → Bool) :
    (∀ x rest y, v = x :: rest → ∃ n w, siftDownWithin cmp n 0 (y :: rest) = some w ∧
      w.Perm (y :: rest) ∧ IsHeap cmp w) ∧
    ((∀ x ∈ v, p x = false) ∧ deleteSingleElement S cmp p v = none ∨
      ∃ x w, deleteSingleElement S cmp p v = some (x, w) ∧ p x = true ∧ v.Perm (x :: w) ∧
        IsHeap cmp w) ∧
    ∀ x ∈ v.head?, ∀ y ∈ v, cmp x y = false := by
  refine ⟨?_, deleteSingleElement_spec S hw p v, ?_⟩
  · rintro x rest y rfl
    refine ⟨_, _, siftDownWithin_eq (n := (y :: rest).length) hw (Nat.le_add_left _ _), ?_⟩
    exact decreaseKeyTop_spec hw h y
  · intro x hx y hy
    cases v with
    | nil => cases hx
    | cons a v =>
      cases hx
      exact h.top hw hy

theorem queue_keeps_order_pair :
    (∀ x rest y, [1, 2] = x :: rest → ∃ n w, siftDownWithin (byLeast id) n 0 (y :: rest) = some w ∧
      w.Perm (y :: rest) ∧ IsHeap (byLeast id) w) ∧
    ((∀ x ∈ [1, 2], (x == 2) = false) ∧
        deleteSingleElement .sorted (byLeast id) (· == 2) [1, 2] = none ∨
      ∃ x w, deleteSingleElement .sorted (byLeast id) (· == 2) [1, 2] = some (x, w) ∧
        (x == 2) = true ∧ [1, 2].Perm (x :: w) ∧ IsHeap (byLeast id) w) ∧
    ∀ x ∈ [1, 2].head?, ∀ y ∈ [1, 2], byLeast (id : Nat → Nat) x y = false :=
  queue_keeps_order .sorted (byLeast_strictWeak id)
    (isHeap_of_sorted (by simp [byLeast])) (· == 2)

end Bess.PriorityQueue
