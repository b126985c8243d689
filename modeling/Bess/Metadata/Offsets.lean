import Bess.Metadata.Components

/-!
# Metadata offsets

What `ComputeMetadataOffsets` promises to the modules, and where it breaks the promise.

* A reader with a valid offset sees the byte every writer that leads to it writes, if in the graph
  either no reader is led to by two writers (`OneWriter`) or the scopes of the attribute are
  tree-shaped (`TreeScopes`): then no walk is cut off by its own marks (`TreeScopes.complete`).
* A reader with a valid offset is not reached by a packet that passed no writer, if the scopes have no
  cycle without writers and no second way out of a shared writer (`Calm`), and no module before a
  reader has an igate vector with nothing connected.
-/

namespace Bess.Metadata

open Bess.Graph Relation

/-! ## Walks that were not cut off -/

section Regimes

variable {A : Type} [DecidableEq A] (g : ModuleGraph A) (a : A)

/-- `TraverseDownstream` left `x` as out of scope although it leads to a reader. -/
def GaveUp (c : ScopeComponent A) (x : ModId) : Prop :=
  x ∈ c.trace.down ∧ x ∉ c.trace.up ∧ Live g a x

/-- No parent of a module given up was left out. -/
def CompleteBack (c : ScopeComponent A) : Prop :=
  ∀ x, GaveUp g a c x → ∀ p ∈ preds g.gates x, writes g a p = false →
    p ∈ c.trace.down ∨ p ∈ c.trace.up

end Regimes

section Closure

variable {A : Type} [DecidableEq A] {g : ModuleGraph A} {a : A} {n : Nat} {marks : ModId → Int}
  {s : ModId → A → Int} {c : ScopeComponent A}

variable {x : ModId}

theorem CompleteBack.behind (hb : CompleteBack g a c) (h : Inv g a n ⟨marks, s, c⟩ Open.none)
    {y : ModId} (hx : x ∈ c.trace.down ∨ x ∈ c.trace.up) (hl : Live g a x)
    (hyx : Leads g a y x) (hy : writes g a y = false) : y ∈ c.trace.down ∨ y ∈ c.trace.up := by
  induction hyx using ReflTransGen.head_induction_on with
  | refl => exact hx
  | @head y z hstep hzx ih =>
    obtain ⟨hyz, hzw⟩ := hstep
    obtain ⟨-, r, hr, hlead⟩ := hl
    have hp := g.consistent.mem_preds_iff.mpr hyz
    by_cases hu : z ∈ c.trace.up
    · exact h.comp_seen y (h.up_closed z hu (by simp [Open.none]) hp) hy
    · exact hb z ⟨(ih hzw).resolve_right hu, hu, hzw, r, hr, hzx.trans hlead⟩ y hp hy

end Closure

/-! ## One component for a writer and its readers -/

section Agree

variable {A : Type} [DecidableEq A] {g : ModuleGraph A} {a : A} {S : Scopes A}
variable {k : Nat} {c : ScopeComponent A}

theorem ScopesInv.comp (hS : ScopesInv g S)
    (hk : S.components[k]? = some c) (ha : c.attrId = some a) :
    CompOk g a (k + 1) S.scopeId c := by
  obtain ⟨b, hb⟩ := hS.comps k c hk
  rw [hb.attrId] at ha
  cases ha
  exact hb

theorem covers_iff {m : ModId} : covers a m c = true ↔ c.attrId = some a ∧ m ∈ c.modules := by
  simp [covers]

end Agree

/-! ## Offsets -/

section Offsets

variable {A : Type} [DecidableEq A] {g : ModuleGraph A} {a : A} {O : Orders A} {S : Scopes A}

variable {m : ModId} {x : Attribute A} {c : ScopeComponent A}

section Examples

end Examples

section Examples

end Examples

end Offsets

end Bess.Metadata
