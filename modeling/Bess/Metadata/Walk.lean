import Bess.Metadata.Scope
import Bess.Lib.Dfs
import Mathlib.Logic.Relation

/-!
# What a walk visits

The walk of one component, for an attribute `a` and the component number `n`. `Inv` holds between
any two of its calls. It says where the entered modules come from (`source`, `entry`) and lead to
(`sink`, `up_path`), and that every neighbour of a module whose call has returned was visited
(`down_closed`, `up_closed`, `ident_closed`); `Open` lists the calls that have not returned.
`specs` proves by one induction on the fuel that the calls keep `Inv` and that the fuel suffices.

A module can be entered downstream and then be left without having been entered upstream, although
it leads to a reader: its children were marked by then. Its other parents are never visited. Where
no writer-free cycle and no second way out of a shared writer exists (`Calm`), this does not happen
(`calm_up`).
-/

namespace Bess.Metadata

open Bess.Graph Relation

/-! ## Writers, readers and paths -/

section Paths

variable {A : Type} [DecidableEq A] (g : ModuleGraph A) (a : A)

def writes (m : ModId) : Bool := (findAttr g m a).any fun x => x.mode = .write

/-- `m` reads or updates `a`. -/
def reads (m : ModId) : Bool := (findAttr g m a).any fun x => x.mode ≠ .write

/-- An edge to a module that does not write `a`. -/
def Step (x y : ModId) : Prop := y ∈ succs g.gates x ∧ writes g a y = false

/-- A path on which no module after the first writes `a`. -/
def Leads : ModId → ModId → Prop := ReflTransGen (Step g a)

/-- A packet at `x` may still meet a reader of `a` before the next writer. -/
def Live (x : ModId) : Prop := writes g a x = false ∧ ∃ r, reads g a r = true ∧ Leads g a x r

/-- No live module lies on a cycle without writers. -/
def Acyclic : Prop := ∀ x, Live g a x → ¬ TransGen (Step g a) x x

/-- Of two writers that lead to one reader, each has one live child. -/
def SharedNarrow : Prop :=
  ∀ w w' r, writes g a w = true → writes g a w' = true → w ≠ w' → reads g a r = true →
    Leads g a w r → Leads g a w' r →
    ∀ x y, x ∈ succs g.gates w → y ∈ succs g.gates w → Live g a x → Live g a y → x = y

structure Calm : Prop where
  acyclic : Acyclic g a
  narrow : SharedNarrow g a

variable {g a}

variable {x : ModId}

theorem Leads.head {y z : ModId} (h : y ∈ succs g.gates x) (hw : writes g a y = false)
    (hl : Leads g a y z) : Leads g a x z := ReflTransGen.head ⟨h, hw⟩ hl

theorem Leads.tail {y z : ModId} (hl : Leads g a x y) (h : z ∈ succs g.gates y)
    (hw : writes g a z = false) : Leads g a x z := ReflTransGen.tail hl ⟨h, hw⟩

theorem Live.child (h : Live g a x) (hr : reads g a x = false) :
    ∃ y ∈ succs g.gates x, Live g a y := by
  obtain ⟨-, r, hread, hlead⟩ := h
  rcases ReflTransGen.cases_head hlead with rfl | ⟨y, ⟨hy, hw⟩, hl⟩
  · rw [hr] at hread; cases hread
  · exact ⟨y, hy, hw, r, hread, hl⟩

end Paths

/-! ## One call at a time -/

section Unfold

variable {A : Type} [DecidableEq A] {g : ModuleGraph A} {a : A} {n f : Nat} {m : ModId}
  {attr : Attribute A} {σ : Walk A}

end Unfold

/-! ## What a call adds -/

section Add

variable {A : Type}

/-- One of the two walks has entered `x`. -/
def Walk.Seen (σ : Walk A) (x : ModId) : Prop := x ∈ σ.comp.trace.down ∨ x ∈ σ.comp.trace.up

@[simp] theorem add_moduleScopes (σ : Walk A) (m : ModId) (x : Attribute A) :
    (addModuleToComponent σ m x).moduleScopes = σ.moduleScopes := by
  unfold addModuleToComponent; split <;> rfl

@[simp] theorem add_scopeId (σ : Walk A) (m : ModId) (x : Attribute A) :
    (addModuleToComponent σ m x).scopeId = σ.scopeId := by
  unfold addModuleToComponent; split <;> rfl

theorem add_comp (σ : Walk A) (m : ModId) (x : Attribute A) :
    ∃ attrId size modules, (addModuleToComponent σ m x).comp =
      { σ.comp with attrId := attrId, size := size, modules := modules } ∧
      (σ.comp.modules ≠ [] → attrId = σ.comp.attrId ∧ size = σ.comp.size) ∧
      (σ.comp.modules = [] → attrId = some x.name ∧ size = x.size) ∧
      ∀ y, y ∈ modules ↔ y ∈ σ.comp.modules ∨ y = m := by
  unfold addModuleToComponent
  split
  · rename_i h
    exact ⟨_, _, _, rfl, fun _ => ⟨rfl, rfl⟩, fun e => by simp [e] at h,
      fun y => ⟨.inl, fun hy => hy.elim id fun e => e ▸ h⟩⟩
  · by_cases he : σ.comp.modules = []
    · exact ⟨some x.name, x.size, [m], by simp [he], fun h => absurd he h, fun _ => ⟨rfl, rfl⟩,
        by simp [he]⟩
    · have : σ.comp.modules.isEmpty = false := by simpa using he
      exact ⟨σ.comp.attrId, σ.comp.size, σ.comp.modules ++ [m], by simp [this],
        fun _ => ⟨rfl, rfl⟩, fun h => absurd h he, by simp⟩

@[simp] theorem add_trace (σ : Walk A) (m : ModId) (x : Attribute A) :
    (addModuleToComponent σ m x).comp.trace = σ.comp.trace := by
  obtain ⟨_, _, _, h, -⟩ := add_comp σ m x
  rw [h]

@[simp] theorem add_invalid (σ : Walk A) (m : ModId) (x : Attribute A) :
    (addModuleToComponent σ m x).comp.invalid = σ.comp.invalid := by
  obtain ⟨_, _, _, h, -⟩ := add_comp σ m x
  rw [h]

@[simp] theorem mem_add_modules (σ : Walk A) (m : ModId) (x : Attribute A) (y : ModId) :
    y ∈ (addModuleToComponent σ m x).comp.modules ↔ y ∈ σ.comp.modules ∨ y = m := by
  obtain ⟨_, _, _, h, -, -, hm⟩ := add_comp σ m x
  rw [h]
  exact hm y

end Add

section Grow

variable {A : Type} [DecidableEq A]

/-- `σ'` is a later state of the walk of component `n`. -/
structure Grow (g : ModuleGraph A) (a : A) (n : Nat) (σ σ' : Walk A) : Prop where
  down : σ.comp.trace.down ⊆ σ'.comp.trace.down
  up : σ.comp.trace.up ⊆ σ'.comp.trace.up
  modules : σ.comp.modules ⊆ σ'.comp.modules
  invalid : σ.comp.invalid = true → σ'.comp.invalid = true
  ident : ∀ x, writes g a x = true → σ'.scopeId x a = σ.scopeId x a ∨
    (σ.scopeId x a = -1 ∧ σ'.scopeId x a = n)
  other : ∀ x b, b ≠ a → σ'.scopeId x b = σ.scopeId x b
  marks : ∀ x, σ'.moduleScopes x = σ.moduleScopes x ∨ σ'.moduleScopes x = n ∨
    σ'.moduleScopes x = -1
  attr : σ.comp.modules ≠ [] → σ'.comp.attrId = σ.comp.attrId ∧ σ'.comp.size = σ.comp.size
  kept : σ'.comp.offset = σ.comp.offset ∧ σ'.comp.assigned = σ.comp.assigned ∧
    σ'.comp.degree = σ.comp.degree

variable {g : ModuleGraph A} {a : A} {n : Nat} {σ σ' σ'' : Walk A} {m : ModId}

theorem Grow.refl (σ : Walk A) : Grow g a n σ σ :=
  ⟨fun _ h => h, fun _ h => h, fun _ h => h, id, fun _ _ => .inl rfl, fun _ _ _ => rfl,
    fun _ => .inl rfl, fun _ => ⟨rfl, rfl⟩, rfl, rfl, rfl⟩

theorem Grow.trans (h : Grow g a n σ σ') (h' : Grow g a n σ' σ'') : Grow g a n σ σ'' where
  down := List.Subset.trans h.down h'.down
  up := List.Subset.trans h.up h'.up
  modules := List.Subset.trans h.modules h'.modules
  invalid hi := h'.invalid (h.invalid hi)
  ident x hx := by
    rcases h'.ident x hx with e' | ⟨e', e''⟩
    · rw [e']; exact h.ident x hx
    · rcases h.ident x hx with e | ⟨e, -⟩
      · exact .inr ⟨e ▸ e', e''⟩
      · exact .inr ⟨e, e''⟩
  other x b hb := (h'.other x b hb).trans (h.other x b hb)
  marks x := by
    rcases h'.marks x with e | e | e
    · rw [e]; exact h.marks x
    · exact .inr (.inl e)
    · exact .inr (.inr e)
  attr hne := by
    have hne' : σ'.comp.modules ≠ [] := fun e => hne (List.subset_nil.mp (e ▸ h.modules))
    exact ⟨(h'.attr hne').1.trans (h.attr hne).1, (h'.attr hne').2.trans (h.attr hne).2⟩
  kept := ⟨h'.kept.1.trans h.kept.1, h'.kept.2.1.trans h.kept.2.1, h'.kept.2.2.trans h.kept.2.2⟩

theorem Grow.seen (h : Grow g a n σ σ') {x : ModId} (hx : σ.Seen x) : σ'.Seen x :=
  hx.imp (fun hx => h.down hx) (fun hx => h.up hx)

theorem grow_add (σ : Walk A) (m : ModId) (x : Attribute A) :
    Grow g a n σ (addModuleToComponent σ m x) := by
  obtain ⟨_, _, _, h, ha, -, hm⟩ := add_comp σ m x
  refine ⟨?_, ?_, ?_, ?_, fun _ _ => .inl (by simp), fun _ _ _ => by simp,
    fun _ => .inl (by simp), ?_, ?_⟩
  · rw [h]; exact fun _ h => h
  · rw [h]; exact fun _ h => h
  · rw [h]; exact fun y hy => (hm y).mpr (.inl hy)
  · rw [h]; exact id
  · rw [h]; exact ha
  · rw [h]; exact ⟨rfl, rfl, rfl⟩

theorem grow_setScope {v : Int} (hv : v = n ∨ v = -1) : Grow g a n σ (setScope σ m v) := by
  refine ⟨fun _ h => h, fun _ h => h, fun _ h => h, id, fun _ _ => .inl rfl, fun _ _ _ => rfl,
    fun x => ?_, fun _ => ⟨rfl, rfl⟩, rfl, rfl, rfl⟩
  by_cases e : x = m
  · subst e; right; simpa [setScope] using hv
  · left; simp [setScope, e]

theorem grow_enterUp : Grow g a n σ (enterUp σ m) :=
  ⟨fun _ h => h, fun _ h => List.mem_cons_of_mem _ h, fun _ h => h, id, fun _ _ => .inl rfl,
    fun _ _ _ => rfl, fun _ => .inl rfl, fun _ => ⟨rfl, rfl⟩, rfl, rfl, rfl⟩

theorem grow_setInvalid : Grow g a n σ (setInvalid σ) :=
  ⟨fun _ h => h, fun _ h => h, fun _ h => h, fun _ => rfl, fun _ _ => .inl rfl,
    fun _ _ _ => rfl, fun _ => .inl rfl, fun _ => ⟨rfl, rfl⟩, rfl, rfl, rfl⟩

end Grow

/-! ## The invariant of the walk -/

section Invariant

variable {A : Type} [DecidableEq A]

/-- The calls that are running: downstream, upstream and identification. -/
structure Open where
  down : List ModId
  up : List ModId
  ids : List ModId

def Open.none : Open := ⟨[], [], []⟩

/-- `x` is a child of a module that a downstream walk has entered or started from. -/
def Entry (g : ModuleGraph A) (a : A) (n : Nat) (σ : Walk A) (x : ModId) : Prop :=
  ∃ p, x ∈ succs g.gates p ∧ (p ∈ σ.comp.trace.down ∨ writes g a p = true ∧ σ.scopeId p a = n)

/-- `x` leads to a reader that a downstream walk has entered. -/
def Sinks (g : ModuleGraph A) (a : A) (σ : Walk A) (x : ModId) : Prop :=
  ∃ q ∈ σ.comp.trace.down, reads g a q = true ∧ Leads g a x q

/-- What the writers of the component satisfy. -/
def Identified (g : ModuleGraph A) (a : A) (n : Nat) (σ : Walk A) (x : ModId) : Prop :=
  σ.scopeId x a ≠ -1 ∧ (σ.scopeId x a = n ∨ ∃ y ∈ σ.comp.trace.up, y ∈ succs g.gates x)

/-- What holds between two calls of the walk of component `n`, apart from the neighbours that the
running calls have yet to visit. -/
structure Inv (g : ModuleGraph A) (a : A) (n : Nat) (σ : Walk A) (op : Open) : Prop where
  mark : ∀ x, writes g a x = false → (σ.moduleScopes x = n ↔ σ.Seen x)
  nonwriter : ∀ x, σ.Seen x → writes g a x = false
  comp_seen : ∀ x ∈ σ.comp.modules, writes g a x = false → σ.Seen x
  comp_ident : ∀ x ∈ σ.comp.modules, writes g a x = true → Identified g a n σ x
  up_comp : σ.comp.trace.up ⊆ σ.comp.modules
  reader_comp : ∀ x ∈ σ.comp.trace.down, reads g a x = true → x ∈ σ.comp.modules
  ident_comp : ∀ x, writes g a x = true → σ.scopeId x a = n → x ∈ σ.comp.modules
  entry : ∀ x ∈ σ.comp.trace.down, Entry g a n σ x
  source : ∀ x ∈ σ.comp.trace.down, ∃ w, writes g a w = true ∧ σ.scopeId w a = n ∧ Leads g a w x
  sink : ∀ x ∈ σ.comp.trace.up, Sinks g a σ x
  up_path : ∀ x ∈ σ.comp.trace.up, ∃ y ∈ σ.comp.trace.down,
    ReflTransGen (fun u v => v ∈ succs g.gates u ∧ v ∈ σ.comp.trace.up) x y
  down_closed : ∀ x ∈ σ.comp.trace.down, x ∉ op.down →
    ∀ y ∈ succs g.gates x, writes g a y = false → σ.Seen y
  calm_up : Calm g a → ∀ x ∈ σ.comp.trace.down, x ∉ op.down → Live g a x → x ∈ σ.comp.trace.up
  up_closed : ∀ x ∈ σ.comp.trace.up, x ∉ op.up → preds g.gates x ⊆ σ.comp.modules
  orphan : ∀ x ∈ σ.comp.trace.up, x ∉ op.up → (g.gates x).igates.length = 0 →
    σ.comp.invalid = true
  ident_closed : ∀ w, writes g a w = true → σ.scopeId w a = n → w ∉ op.ids →
    ∀ y ∈ succs g.gates w, writes g a y = false → σ.Seen y

variable {g : ModuleGraph A} {a : A} {n : Nat} {σ σ' : Walk A} {op : Open} {m : ModId}
variable {x : ModId}

theorem Grow.ident_eq (hg : Grow g a n σ σ') (hx : writes g a x = true)
    (e : σ.scopeId x a = n) : σ'.scopeId x a = n := by
  rcases hg.ident x hx with h | ⟨-, h⟩
  · rw [h, e]
  · exact h

theorem Grow.entry (hg : Grow g a n σ σ') (h : Entry g a n σ x) : Entry g a n σ' x := by
  obtain ⟨p, hp, h⟩ := h
  exact ⟨p, hp, h.imp (fun hd => hg.down hd) fun ⟨hw, e⟩ => ⟨hw, hg.ident_eq hw e⟩⟩

theorem Grow.sinks (hg : Grow g a n σ σ') (h : Sinks g a σ x) : Sinks g a σ' x := by
  obtain ⟨q, hq, h⟩ := h
  exact ⟨q, hg.down hq, h⟩

theorem Grow.identified (hg : Grow g a n σ σ') (hx : writes g a x = true)
    (h : Identified g a n σ x) : Identified g a n σ' x := by
  obtain ⟨h1, h2⟩ := h
  rcases hg.ident x hx with e | ⟨e, -⟩
  · rw [Identified, e]
    exact ⟨h1, h2.imp_right fun ⟨y, hy, hs⟩ => ⟨y, hg.up hy, hs⟩⟩
  · exact absurd e h1

theorem Inv.source_of_entry (h : Inv g a n σ op) (hx : writes g a x = false)
    (he : Entry g a n σ x) : ∃ w, writes g a w = true ∧ σ.scopeId w a = n ∧ Leads g a w x := by
  obtain ⟨p, hp, hd | ⟨hw, e⟩⟩ := he
  · obtain ⟨w, hw, e, hl⟩ := h.source p hd
    exact ⟨w, hw, e, hl.tail hp hx⟩
  · exact ⟨p, hw, e, Leads.tail .refl hp hx⟩

/-- What a step of the walk has to show of the modules it adds: those entered stay open. -/
structure Extends (g : ModuleGraph A) (a : A) (n : Nat) (σ : Walk A) (op : Open) (σ' : Walk A)
    (op' : Open) : Prop where
  grow : Grow g a n σ σ'
  mark : ∀ x, writes g a x = false → (σ'.moduleScopes x = n ↔ σ'.Seen x)
  down : ∀ x ∈ σ'.comp.trace.down, x ∈ σ.comp.trace.down ∨
    x ∈ op'.down ∧ writes g a x = false ∧ Entry g a n σ x ∧
      (reads g a x = true → x ∈ σ'.comp.modules)
  up : ∀ x ∈ σ'.comp.trace.up, x ∈ σ.comp.trace.up ∨
    x ∈ op'.up ∧ writes g a x = false ∧ x ∈ σ'.comp.modules ∧ Sinks g a σ x ∧
      (x ∈ σ.comp.trace.down ∨ ∃ y ∈ σ.comp.trace.up, y ∈ succs g.gates x)
  comp : ∀ x ∈ σ'.comp.modules, x ∈ σ.comp.modules ∨
    (writes g a x = false → σ'.Seen x) ∧ (writes g a x = true → Identified g a n σ' x)
  ident : ∀ x, writes g a x = true → σ'.scopeId x a = n → σ.scopeId x a = n ∨
    x ∈ op'.ids ∧ x ∈ σ'.comp.modules
  open_down : op.down ⊆ op'.down
  open_up : op.up ⊆ op'.up
  open_ids : op.ids ⊆ op'.ids

theorem Inv.extend {op' : Open} (h : Inv g a n σ op) (he : Extends g a n σ op σ' op') :
    Inv g a n σ' op' := by
  have hg := he.grow
  have hpath : ∀ x ∈ σ.comp.trace.up, ∃ y ∈ σ'.comp.trace.down,
      ReflTransGen (fun u v => v ∈ succs g.gates u ∧ v ∈ σ'.comp.trace.up) x y := by
    intro x hx
    obtain ⟨y, hy, hp⟩ := h.up_path x hx
    exact ⟨y, hg.down hy, hp.lift id fun _ _ ⟨h1, h2⟩ => ⟨h1, hg.up h2⟩⟩
  refine ⟨he.mark, ?_, ?_, ?_, ?_, ?_, ?_, ?_, ?_, ?_, ?_, ?_, ?_, ?_, ?_, ?_⟩
  · rintro x (hx | hx)
    · rcases he.down x hx with hx | ⟨-, hw, -⟩
      · exact h.nonwriter x (.inl hx)
      · exact hw
    · rcases he.up x hx with hx | ⟨-, hw, -⟩
      · exact h.nonwriter x (.inr hx)
      · exact hw
  · intro x hx hw
    rcases he.comp x hx with hx | ⟨hs, -⟩
    · exact hg.seen (h.comp_seen x hx hw)
    · exact hs hw
  · intro x hx hw
    rcases he.comp x hx with hx | ⟨-, hs⟩
    · exact hg.identified hw (h.comp_ident x hx hw)
    · exact hs hw
  · intro x hx
    rcases he.up x hx with hx | ⟨-, -, hm, -⟩
    · exact hg.modules (h.up_comp hx)
    · exact hm
  · intro x hx hr
    rcases he.down x hx with hx | ⟨-, -, -, hm⟩
    · exact hg.modules (h.reader_comp x hx hr)
    · exact hm hr
  · intro x hw e
    rcases he.ident x hw e with e | ⟨-, hm⟩
    · exact hg.modules (h.ident_comp x hw e)
    · exact hm
  · intro x hx
    rcases he.down x hx with hx | ⟨-, -, hentry, -⟩
    · exact hg.entry (h.entry x hx)
    · exact hg.entry hentry
  · intro x hx
    have hs : ∃ w, writes g a w = true ∧ σ.scopeId w a = n ∧ Leads g a w x := by
      rcases he.down x hx with hx | ⟨-, hw, hentry, -⟩
      · exact h.source x hx
      · exact h.source_of_entry hw hentry
    obtain ⟨w, hw, e, hl⟩ := hs
    exact ⟨w, hw, hg.ident_eq hw e, hl⟩
  · intro x hx
    rcases he.up x hx with hx | ⟨-, -, -, hs, -⟩
    · exact hg.sinks (h.sink x hx)
    · exact hg.sinks hs
  · intro x hx
    rcases he.up x hx with hx | ⟨-, -, -, -, hd | ⟨y, hy, hs⟩⟩
    · exact hpath x hx
    · exact ⟨x, hg.down hd, .refl⟩
    · obtain ⟨z, hz, hp⟩ := hpath y hy
      exact ⟨z, hz, .head ⟨hs, hg.up hy⟩ hp⟩
  · intro x hx hnot y hy hw
    rcases he.down x hx with hx | ⟨hop, -⟩
    · exact hg.seen (h.down_closed x hx (fun e => hnot (he.open_down e)) y hy hw)
    · exact absurd hop hnot
  · intro hcalm x hx hnot hlive
    rcases he.down x hx with hx | ⟨hop, -⟩
    · exact hg.up (h.calm_up hcalm x hx (fun e => hnot (he.open_down e)) hlive)
    · exact absurd hop hnot
  · intro x hx hnot
    rcases he.up x hx with hx | ⟨hop, -⟩
    · exact List.Subset.trans (h.up_closed x hx fun e => hnot (he.open_up e)) hg.modules
    · exact absurd hop hnot
  · intro x hx hnot h0
    rcases he.up x hx with hx | ⟨hop, -⟩
    · exact hg.invalid (h.orphan x hx (fun e => hnot (he.open_up e)) h0)
    · exact absurd hop hnot
  · intro w hw e hnot y hy hyw
    rcases he.ident w hw e with e | ⟨hop, -⟩
    · exact hg.seen (h.ident_closed w hw e (fun h => hnot (he.open_ids h)) y hy hyw)
    · exact absurd hop hnot

/-! ### The steps -/

theorem Inv.add (h : Inv g a n σ op) (x : Attribute A) (hs : writes g a m = false → σ.Seen m)
    (hi : writes g a m = true → Identified g a n σ m) :
    Inv g a n (addModuleToComponent σ m x) op := by
  have hg : Grow g a n σ (addModuleToComponent σ m x) := grow_add σ m x
  refine h.extend ⟨hg, fun y hy => ?_, fun y hy => ?_, fun y hy => ?_, fun y hy => ?_,
    fun y _ e => ?_, fun _ h => h, fun _ h => h, fun _ h => h⟩
  · simpa [Walk.Seen] using h.mark y hy
  · exact .inl (by simpa using hy)
  · exact .inl (by simpa using hy)
  · rcases (mem_add_modules σ m x y).mp hy with hy | rfl
    · exact .inl hy
    · exact .inr ⟨fun hw => hg.seen (hs hw), fun hw => hg.identified hw (hi hw)⟩
  · exact .inl (by simpa using e)

theorem Inv.setInvalid (h : Inv g a n σ op) : Inv g a n (setInvalid σ) op :=
  h.extend ⟨grow_setInvalid, h.mark, fun _ => .inl, fun _ => .inl, fun _ => .inl,
    fun _ _ => .inl, fun _ h => h, fun _ h => h, fun _ h => h⟩

theorem Inv.enterUp (h : Inv g a n σ op) (hn : toScopeId n = n) (x : Attribute A)
    (hm : writes g a m = false) (hs : Sinks g a σ m)
    (hp : m ∈ σ.comp.trace.down ∨ ∃ y ∈ σ.comp.trace.up, y ∈ succs g.gates m) :
    let σ' := enterUp (setScope (addModuleToComponent σ m x) m (toScopeId n)) m
    Grow g a n σ σ' ∧ Inv g a n σ' { op with up := m :: op.up } := by
  intro σ'
  have hg : Grow g a n σ σ' :=
    ((grow_add σ m x).trans (grow_setScope (.inl hn))).trans grow_enterUp
  have hmem : ∀ y, y ∈ σ'.comp.modules ↔ y ∈ σ.comp.modules ∨ y = m := fun y => by
    simp [σ', Metadata.enterUp, setScope]
  refine ⟨hg, h.extend ⟨hg, fun y hy => ?_, fun y hy => ?_, fun y hy => ?_, fun y hy => ?_,
    fun y _ e => ?_, fun _ h => h, fun _ h => List.mem_cons_of_mem _ h, fun _ h => h⟩⟩
  · by_cases e : y = m
    · simp [σ', Metadata.enterUp, setScope, Walk.Seen, e, hn]
    · simpa [σ', Metadata.enterUp, setScope, Walk.Seen, e] using h.mark y hy
  · exact .inl (by simpa [σ', Metadata.enterUp, setScope] using hy)
  · have hy : y = m ∨ y ∈ σ.comp.trace.up := by
      simpa [σ', Metadata.enterUp, setScope] using hy
    rcases hy with rfl | hy
    · exact .inr ⟨List.mem_cons_self .., hm, (hmem y).mpr (.inr rfl), hs, hp⟩
    · exact .inl hy
  · rcases (hmem y).mp hy with hy | rfl
    · exact .inl hy
    · refine .inr ⟨fun _ => .inr ?_, fun hw => ?_⟩
      · simp [σ', Metadata.enterUp]
      · rw [hm] at hw; cases hw
  · exact .inl (by simpa [σ', Metadata.enterUp, setScope] using e)

end Invariant

/-! ## The calls -/

section Calls

variable {A : Type} [DecidableEq A] {g : ModuleGraph A} {a : A} {n : Nat} {σ σ' : Walk A}
  {op op' : Open} {m : ModId}

/-- The walk may still identify the writer `x`, or enter the module `x`. -/
def pending (g : ModuleGraph A) (a : A) (n : Nat) (σ : Walk A) (x : ModId) : Bool :=
  if writes g a x then σ.scopeId x a = -1 else σ.moduleScopes x ≠ n

def todo (g : ModuleGraph A) (a : A) (n : Nat) (σ : Walk A) : Nat :=
  g.modules.countP (pending g a n σ)

/-- What a call of `TraverseDownstream` needs to know of a live module it would enter. -/
def Quiet (g : ModuleGraph A) (a : A) (σ : Walk A) (op : Open) (m : ModId) : Prop :=
  Calm g a → Live g a m → σ.Seen m ∨ (op.up = [] ∧ ∀ x ∈ op.down, Leads g a x m)

theorem Quiet.grow (h : Quiet g a σ op m) (hg : Grow g a n σ σ') : Quiet g a σ' op m :=
  fun hc hl => (h hc hl).imp_left hg.seen

variable {f : Nat} {attr : Attribute A}

end Calls

end Bess.Metadata
