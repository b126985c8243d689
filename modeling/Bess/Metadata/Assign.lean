import Bess.Metadata.Scope
import Mathlib.Data.List.Sort

/-!
# Placing the components

`AssignOffsets` gives each scope component an offset in the packet's metadata area, one component
after the other in the order of decreasing degree. A component is placed past the neighbours (the
placed components that share a module with it) which a heap yields in the order of their offsets,
until one starts far enough. `FillOffsetArrays` then copies the offset of every component to the
attributes of its modules.
-/

namespace Bess.Metadata

open Bess.Graph

/-! ## Alignment -/

def alignFloor (v align : Nat) : Nat := v - v % align

def alignCeil (v align : Nat) : Nat := alignFloor ((v + align - 1) % 2 ^ 64) align

section Assign

variable {A : Type}

/-- The choices the standard library leaves open: how `std::sort` orders components of one degree,
and in which order `std::priority_queue` yields components of one offset. -/
structure Orders (A : Type) where
  sort : List (ScopeComponent A) → List (ScopeComponent A)
  sort_perm : ∀ l, (sort l).Perm l
  sort_degree : ∀ l, (sort l).Pairwise fun a b => b.degree ≤ a.degree
  popOrder : List (ScopeComponent A) → List (ScopeComponent A)
  popOrder_perm : ∀ l, (popOrder l).Perm l
  popOrder_offset : ∀ l, (popOrder l).Pairwise fun a b => a.offset ≤ b.offset

/-- A pair of orders the standard library may choose: insertion sort. -/
def Orders.insertion : Orders A where
  sort := List.insertionSort fun a b => b.degree ≤ a.degree
  sort_perm := List.perm_insertionSort _
  sort_degree l :=
    have : Std.Total fun a b : ScopeComponent A => b.degree ≤ a.degree :=
      ⟨fun a b => Nat.le_total b.degree a.degree⟩
    have : IsTrans (ScopeComponent A) fun a b => b.degree ≤ a.degree :=
      ⟨fun _ _ _ h h' => Nat.le_trans h' h⟩
    List.pairwise_insertionSort _ l
  popOrder := List.insertionSort fun a b => a.offset ≤ b.offset
  popOrder_perm := List.perm_insertionSort _
  popOrder_offset l :=
    have : Std.Total fun a b : ScopeComponent A => a.offset ≤ b.offset :=
      ⟨fun a b => Int.le_total a.offset b.offset⟩
    have : IsTrans (ScopeComponent A) fun a b => a.offset ≤ b.offset :=
      ⟨fun _ _ _ h h' => Int.le_trans h h'⟩
    List.pairwise_insertionSort _ l

def place (c : ScopeComponent A) (offset : Int) : ScopeComponent A :=
  { c with offset := offset, assigned := true }

variable [DecidableEq A]

/-- The components when `AssignOffsets` returns, and `attr_offsets_` of every module. -/
structure Placement (A : Type) where
  components : List (ScopeComponent A)
  attrOffset : ModId → Nat → Int

end Assign

end Bess.Metadata
