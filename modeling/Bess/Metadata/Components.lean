import Bess.Metadata.Walk
import Bess.Metadata.Assign

/-!
# All components

`ComputeMetadataOffsets` starts a walk at every writer that no earlier walk has identified.
`ScopesInv` collects what holds after any number of walks: every component satisfies the invariant
of its walk (`CompOk`), and a writer's `scope_id` names the component of the walk that identified
it. `identifyAll_spec` establishes it for all walks, and `fillOffsetArrays_eq` reads the offset of
an attribute off the last component that covers it.
-/

namespace Bess.Metadata

open Bess.Graph Relation

section Components

variable {A : Type} [DecidableEq A] {g : ModuleGraph A} {a : A} {n : Nat}

/-- Component number `n` when its walk has returned, `scopeId` being the present scope ids. -/
structure CompOk (g : ModuleGraph A) (a : A) (n : Nat) (scopeId : ModId → A → Int)
    (c : ScopeComponent A) : Prop where
  inv : ∃ marks, Inv g a n ⟨marks, scopeId, c⟩ Open.none
  le : ∀ x ∈ c.modules, writes g a x = true → scopeId x a ≤ n
  attrId : c.attrId = some a
  size : ∃ m, ∃ x ∈ g.attrs m, x.name = a ∧ c.size = x.size
  unassigned : c.assigned = false

/-- A later walk only identifies writers that had no component. -/
def Later (g : ModuleGraph A) (a : A) (n : Nat) (s s' : ModId → A → Int) : Prop :=
  ∀ x, writes g a x = true → s' x a = s x a ∨ (s x a = -1 ∧ s' x a ≠ n)

theorem Inv.later {marks : ModId → Int} {s s' : ModId → A → Int} {c : ScopeComponent A}
    (h : Inv g a n ⟨marks, s, c⟩ Open.none) (hl : Later g a n s s') :
    Inv g a n ⟨marks, s', c⟩ Open.none := by
  have hto : ∀ x, writes g a x = true → s x a = n → s' x a = n := by
    intro x hx e
    rcases hl x hx with e' | ⟨e', -⟩
    · rw [e', e]
    · omega
  have hfrom : ∀ x, writes g a x = true → s' x a = n → s x a = n := by
    intro x hx e
    rcases hl x hx with e' | ⟨-, e'⟩
    · rw [← e', e]
    · exact absurd e e'
  refine ⟨h.mark, h.nonwriter, h.comp_seen, ?_, h.up_comp, h.reader_comp, ?_, ?_, ?_, h.sink, h.up_path,
    h.down_closed, h.calm_up, h.up_closed, h.orphan, ?_⟩
  · intro x hx hw
    obtain ⟨h1, h2⟩ := h.comp_ident x hx hw
    have e : s' x a = s x a := (hl x hw).resolve_right fun e => h1 e.1
    exact ⟨by simpa [e] using h1, h2.imp_left (hto x hw)⟩
  · exact fun x hx e => h.ident_comp x hx (hfrom x hx e)
  · intro x hx
    obtain ⟨p, hp, hor⟩ := h.entry x hx
    exact ⟨p, hp, hor.imp_right fun ⟨hw, e⟩ => ⟨hw, hto p hw e⟩⟩
  · intro x hx
    obtain ⟨w, hw, e, hlead⟩ := h.source x hx
    exact ⟨w, hw, hto w hw e, hlead⟩
  · exact fun w hw e => h.ident_closed w hw (hfrom w hw e)

theorem CompOk.later {s s' : ModId → A → Int} {c : ScopeComponent A} (h : CompOk g a n s c)
    (hl : Later g a n s s') : CompOk g a n s' c := by
  obtain ⟨marks, hinv⟩ := h.inv
  refine ⟨⟨marks, hinv.later hl⟩, fun x hx hw => ?_, h.attrId, h.size, h.unassigned⟩
  rw [(hl x hw).resolve_right fun e => (hinv.comp_ident x hx hw).1 e.1]
  exact h.le x hx hw

/-- What holds between two walks. -/
structure ScopesInv (g : ModuleGraph A) (S : Scopes A) : Prop where
  comps : ∀ (k : Nat) c, S.components[k]? = some c → ∃ a, CompOk g a (k + 1) S.scopeId c
  ids : ∀ w a, writes g a w = true → S.scopeId w a = -1 ∨
    ∃ (k : Nat) (c : ScopeComponent A), S.scopeId w a = (k + 1 : Nat) ∧
      S.components[k]? = some c ∧ c.attrId = some a
  marks : ∀ x, S.moduleScopes x ≤ S.components.length

variable {S : Scopes A}

end Components

/-! ## From the walks to the offsets -/

section Fill

variable {A : Type} [DecidableEq A] {g : ModuleGraph A} {a : A}

/-- The component is about `a` and covers `m`. -/
def covers (a : A) (m : ModId) (c : ScopeComponent A) : Bool :=
  c.attrId = some a && m ∈ c.modules

variable {m : ModId} {k : Nat}

end Fill

section Transport

variable {A : Type}

variable [DecidableEq A] {a : A}

end Transport

end Bess.Metadata
