import Mathlib.Data.Finset.Card
import Mathlib.Data.Set.Insert
import Mathlib.Logic.Function.Basic
import Mathlib.Order.Interval.Finset.Nat

/-!
# A table of slots

A table is a function from slots to what they hold, if anything. `contents` forgets the slots and
`used` counts those below a bound that hold something. There are three ways to change a table: to
fill a free slot, to clear one, and to move what is in one slot to a free one. Each comes with what
it does to the contents, to the count and to tables in which no key is held twice.
-/

namespace Bess.Slots

variable {α κ : Type} {f : Nat → Option α} {i j n : Nat} {x : α}

def contents (f : Nat → Option α) : Set α := {x | ∃ i, f i = some x}

/-- The slots below `n` that hold something. -/
def usedSlots (n : Nat) (f : Nat → Option α) : Finset Nat :=
  (Finset.range n).filter fun i => (f i).isSome = true

def used (n : Nat) (f : Nat → Option α) : Nat := (usedSlots n f).card

def fill (f : Nat → Option α) (i : Nat) (x : α) : Nat → Option α := Function.update f i (some x)

def clear (f : Nat → Option α) (i : Nat) : Nat → Option α := Function.update f i none

/-- What is in slot `i` goes to slot `j`. -/
def move (f : Nat → Option α) (i j : Nat) : Nat → Option α :=
  clear (Function.update f j (f i)) i

/-! ## Lookups -/

@[simp] theorem fill_self : fill f i x i = some x := Function.update_self ..

theorem fill_of_ne (h : j ≠ i) : fill f i x j = f j := Function.update_of_ne h ..

@[simp] theorem clear_self : clear f i i = none := Function.update_self ..

theorem clear_of_ne (h : j ≠ i) : clear f i j = f j := Function.update_of_ne h ..

theorem move_eq_clear_fill (hi : f i = some x) : move f i j = clear (fill f j x) i := by
  rw [move, hi]
  rfl

/-! ## Contents -/

theorem contents_fill (h : f i = none) : contents (fill f i x) = insert x (contents f) := by
  ext y
  constructor
  · rintro ⟨j, hj⟩
    by_cases hji : j = i
    · rw [hji, fill_self] at hj
      cases hj
      exact .inl rfl
    · rw [fill_of_ne hji] at hj
      exact .inr ⟨j, hj⟩
  · rintro (rfl | ⟨j, hj⟩)
    · exact ⟨i, fill_self⟩
    · refine ⟨j, ?_⟩
      rw [fill_of_ne, hj]
      rintro rfl
      rw [h] at hj
      cases hj

theorem mem_contents_clear {y : α} : y ∈ contents (clear f i) ↔ ∃ j, j ≠ i ∧ f j = some y := by
  constructor
  · rintro ⟨j, hj⟩
    by_cases hji : j = i
    · rw [hji, clear_self] at hj
      cases hj
    · rw [clear_of_ne hji] at hj
      exact ⟨j, hji, hj⟩
  · rintro ⟨j, hji, hj⟩
    exact ⟨j, by rw [clear_of_ne hji, hj]⟩

theorem contents_move (hi : f i = some x) (hj : f j = none) :
    contents (move f i j) = contents f := by
  have hne : i ≠ j := by
    rintro rfl
    rw [hi] at hj
    cases hj
  rw [move_eq_clear_fill hi]
  ext y
  rw [mem_contents_clear]
  constructor
  · rintro ⟨l, -, hl⟩
    by_cases hlj : l = j
    · rw [hlj, fill_self] at hl
      exact ⟨i, hi.trans hl⟩
    · rw [fill_of_ne hlj] at hl
      exact ⟨l, hl⟩
  · rintro ⟨l, hl⟩
    by_cases hli : l = i
    · rw [hli] at hl
      exact ⟨j, hne.symm, by rw [fill_self, ← hi, hl]⟩
    · refine ⟨l, hli, ?_⟩
      rw [fill_of_ne, hl]
      rintro rfl
      rw [hj] at hl
      cases hl

/-! ## Counts -/

theorem mem_usedSlots : i ∈ usedSlots n f ↔ i < n ∧ (f i).isSome = true := by
  rw [usedSlots, Finset.mem_filter, Finset.mem_range]

theorem used_fill (hi : i < n) (h : f i = none) : used n (fill f i x) = used n f + 1 := by
  have hslots : usedSlots n (fill f i x) = insert i (usedSlots n f) := by
    ext j
    rw [Finset.mem_insert, mem_usedSlots, mem_usedSlots]
    by_cases hji : j = i
    · simp [hji, hi]
    · simp [fill_of_ne hji, hji]
  rw [used, used, hslots, Finset.card_insert_of_notMem]
  rw [mem_usedSlots, h]
  simp

theorem used_clear (hi : i < n) (h : f i = some x) : used n (clear f i) + 1 = used n f := by
  have hslots : usedSlots n (clear f i) = (usedSlots n f).erase i := by
    ext j
    rw [Finset.mem_erase, mem_usedSlots, mem_usedSlots]
    by_cases hji : j = i
    · simp [hji]
    · simp [clear_of_ne hji, hji]
  have hmem : i ∈ usedSlots n f := mem_usedSlots.mpr ⟨hi, by rw [h]; rfl⟩
  rw [used, used, hslots, Finset.card_erase_add_one hmem]

theorem used_move (hi : i < n) (hj : j < n) (h : f i = some x) (hfree : f j = none) :
    used n (move f i j) = used n f := by
  have hne : i ≠ j := by
    rintro rfl
    rw [h] at hfree
    cases hfree
  have hfill := used_fill (x := x) hj hfree
  have hclear := used_clear (f := fill f j x) hi (by rw [fill_of_ne hne, h])
  rw [move_eq_clear_fill h]
  omega

theorem used_eq_zero (h : ∀ i, f i = none) : used n f = 0 := by
  rw [used, Finset.card_eq_zero, Finset.eq_empty_iff_forall_notMem]
  intro i hi
  have := (mem_usedSlots.mp hi).2
  rw [h i] at this
  cases this

/-! ## Tables without duplicates -/

/-- No key is held by two slots. -/
def Unique (key : α → κ) (f : Nat → Option α) : Prop :=
  ∀ i j x y, f i = some x → f j = some y → key x = key y → i = j

variable {key : α → κ}

theorem Unique.fill (h : Unique key f) (hfresh : ∀ j y, f j = some y → key y ≠ key x) :
    Unique key (fill f i x) := by
  intro a b y z ha hb hkey
  by_cases hai : a = i <;> by_cases hbi : b = i
  · rw [hai, hbi]
  · rw [hai, fill_self] at ha
    rw [fill_of_ne hbi] at hb
    cases ha
    exact absurd hkey.symm (hfresh b z hb)
  · rw [hbi, fill_self] at hb
    rw [fill_of_ne hai] at ha
    cases hb
    exact absurd hkey (hfresh a y ha)
  · rw [fill_of_ne hai] at ha
    rw [fill_of_ne hbi] at hb
    exact h a b y z ha hb hkey

theorem eq_of_clear {l : Nat} {y : α} (h : clear f i l = some y) : l ≠ i ∧ f l = some y := by
  by_cases hli : l = i
  · rw [hli, clear_self] at h
    cases h
  · rw [clear_of_ne hli] at h
    exact ⟨hli, h⟩

theorem Unique.clear (h : Unique key f) : Unique key (clear f i) := fun a b y z ha hb hkey =>
  h a b y z (eq_of_clear ha).2 (eq_of_clear hb).2 hkey

theorem Unique.move (h : Unique key f) (hi : f i = some x) : Unique key (move f i j) := by
  rw [move_eq_clear_fill hi]
  intro a b y z ha hb hkey
  obtain ⟨hai, ha⟩ := eq_of_clear ha
  obtain ⟨hbi, hb⟩ := eq_of_clear hb
  by_cases haj : a = j <;> by_cases hbj : b = j
  · rw [haj, hbj]
  · rw [haj, fill_self] at ha
    rw [fill_of_ne hbj] at hb
    cases ha
    exact absurd (h i b x z hi hb hkey).symm hbi
  · rw [hbj, fill_self] at hb
    rw [fill_of_ne haj] at ha
    cases hb
    exact absurd (h a i y x ha hi hkey) hai
  · rw [fill_of_ne haj] at ha
    rw [fill_of_ne hbj] at hb
    exact h a b y z ha hb hkey

theorem Unique.contents_clear (h : Unique key f) (hi : f i = some x) :
    contents (Slots.clear f i) = {y ∈ contents f | key y ≠ key x} := by
  ext y
  rw [mem_contents_clear]
  constructor
  · rintro ⟨j, hji, hj⟩
    exact ⟨⟨j, hj⟩, fun hkey => hji (h j i y x hj hi hkey)⟩
  · rintro ⟨⟨j, hj⟩, hkey⟩
    refine ⟨j, ?_, hj⟩
    rintro rfl
    rw [hi] at hj
    cases hj
    exact hkey rfl

end Bess.Slots
