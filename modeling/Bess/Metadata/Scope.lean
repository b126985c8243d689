import Bess.Graph.Gates

/-!
# Scope components

A module declares the metadata attributes it reads, writes or updates. A scope component is a set
of modules that must agree on where one attribute lives in the packet. `metadata.cc` finds it from
a writer by a mutually recursive walk: `traverseDownstream` follows ogates to the readers,
`traverseUpstream` follows igates back from them to the other writers, and
`identifyScopeComponent` starts a downstream walk at each writer met on the way. All three share one
visited mark per module, `module_scopes_`.

The walk is a function of a fuel that bounds the recursion depth. `Trace` is a history variable: it
records which modules the two walks entered past the mark, and no branch reads it.
-/

namespace Bess.Metadata

open Bess.Graph

inductive AccessMode where
  | read
  | write
  | update
  deriving DecidableEq, Repr

structure Attribute (A : Type) where
  name : A
  size : Nat
  mode : AccessMode
  deriving DecidableEq, Repr

def kMetadataAttrMaxSize : Nat := 32

def kMaxAttrsPerModule : Nat := 16

/-- The modules of the pipeline in the order of `GetAllModules()`, their gates and their attributes.
The bounds on a module's attributes are those `AddMetadataAttr` and `RegisterAttribute` enforce. -/
structure ModuleGraph (A : Type) where
  modules : List ModId
  gates : Gates
  attrs : ModId → List (Attribute A)
  closed : ∀ m n, n ∈ succs gates m → m ∈ modules ∧ n ∈ modules
  consistent : Consistent gates
  length_attrs : ∀ m, (attrs m).length ≤ kMaxAttrsPerModule
  nodup_names : ∀ m, ((attrs m).map (·.name)).Nodup
  size_attrs : ∀ m, ∀ x ∈ attrs m, 1 ≤ x.size ∧ x.size ≤ kMetadataAttrMaxSize
  size_agree : ∀ m n, ∀ x ∈ attrs m, ∀ y ∈ attrs n, x.name = y.name → x.size = y.size

/-- Every edit joins modules of the list, and the attribute lists meet the bounds. -/
def wellFormed {A : Type} [DecidableEq A] (modules : List ModId) (es : List Edit)
    (table : List (List (Attribute A))) : Bool :=
  es.all (fun e => match e with
    | .connect m _ n _ => m ∈ modules && n ∈ modules
    | .disconnect _ _ => true) &&
  table.all (fun l => l.length ≤ kMaxAttrsPerModule && (l.map (·.name)).Nodup &&
    l.all (fun x => 1 ≤ x.size && x.size ≤ kMetadataAttrMaxSize &&
      table.all fun l' => l'.all fun y => x.name ≠ y.name || x.size = y.size))

/-- The modules entered by `TraverseDownstream` and by `TraverseUpstream` during one walk. -/
structure Trace where
  down : List ModId
  up : List ModId
  deriving DecidableEq, Repr

structure ScopeComponent (A : Type) where
  attrId : Option A
  size : Nat
  offset : Int
  assigned : Bool
  invalid : Bool
  modules : List ModId
  degree : Nat
  trace : Trace
  deriving DecidableEq, Repr

def ScopeComponent.new {A : Type} : ScopeComponent A :=
  ⟨none, 0, 0, false, false, [], 0, ⟨[], []⟩⟩

/-- What the walk of one component reads and writes: the marks `module_scopes_`, the `scope_id` of
every attribute, and `scope_components_.back()`. -/
structure Walk (A : Type) where
  moduleScopes : ModId → Int
  scopeId : ModId → A → Int
  comp : ScopeComponent A

/-- Conversion of a component count to `scope_id_t`, a 16-bit integer. -/
def toScopeId (n : Nat) : Int := ((n : Int) + 2 ^ 15) % 2 ^ 16 - 2 ^ 15

section Steps

variable {A : Type} [DecidableEq A]

def findAttr (g : ModuleGraph A) (m : ModId) (name : A) : Option (Attribute A) :=
  (g.attrs m).find? fun x => x.name = name

def addModuleToComponent (σ : Walk A) (m : ModId) (attr : Attribute A) : Walk A :=
  if m ∈ σ.comp.modules then σ
  else
    let c := if σ.comp.modules.isEmpty then
        { σ.comp with attrId := some attr.name, size := attr.size }
      else σ.comp
    { σ with comp := { c with modules := c.modules ++ [m] } }

/-- `module_scopes_[m] = v` -/
def setScope (σ : Walk A) (m : ModId) (v : Int) : Walk A :=
  { σ with moduleScopes := Function.update σ.moduleScopes m v }

/-- `attr->scope_id = scope_components_.size()` for the attribute `name` of `m` -/
def setScopeId (σ : Walk A) (m : ModId) (name : A) (v : Int) : Walk A :=
  { σ with scopeId := Function.update σ.scopeId m (Function.update (σ.scopeId m) name v) }

def enterDown (σ : Walk A) (m : ModId) : Walk A :=
  { σ with comp.trace.down := m :: σ.comp.trace.down }

def enterUp (σ : Walk A) (m : ModId) : Walk A :=
  { σ with comp.trace.up := m :: σ.comp.trace.up }

def setInvalid (σ : Walk A) : Walk A := { σ with comp.invalid := true }

/-- Run `TraverseDownstream` on each child in turn; whether one of them is in scope. -/
def downAll (visit : ModId → Walk A → Option (Bool × Walk A)) :
    List ModId → Walk A → Option (Bool × Walk A)
  | [], σ => some (false, σ)
  | c :: cs, σ => do
    let (b, σ) ← visit c σ
    let (b', σ) ← downAll visit cs σ
    some (b || b', σ)

/-- Run `TraverseUpstream` on each parent in turn. -/
def upAll (visit : ModId → Walk A → Option (Walk A)) : List ModId → Walk A → Option (Walk A)
  | [], σ => some σ
  | p :: ps, σ => do
    let σ ← visit p σ
    upAll visit ps σ

mutual

/-- `n` is `scope_components_.size()`. -/
def traverseUpstream (g : ModuleGraph A) (n : Nat) :
    Nat → ModId → Attribute A → Walk A → Option (Walk A)
  | 0, _, _, _ => none
  | fuel + 1, m, attr, σ =>
    let σ := addModuleToComponent σ m attr
    match findAttr g m attr.name with
    | some ⟨name, size, .write⟩ =>
      -- end of scope component
      if σ.scopeId m attr.name = -1 then
        identifyScopeComponent g n fuel m ⟨name, size, .write⟩ σ
      else some σ
    | _ =>
      -- cycle detection
      if σ.moduleScopes m = n then some σ
      else do
        let σ := enterUp (setScope σ m (toScopeId n)) m
        let σ ← upAll (fun p σ => traverseUpstream g n fuel p attr σ) (preds g.gates m) σ
        if (g.gates m).igates.length = 0 then some (setInvalid σ) else some σ

def traverseDownstream (g : ModuleGraph A) (n : Nat) :
    Nat → ModId → Attribute A → Walk A → Option (Bool × Walk A)
  | 0, _, _, _ => none
  | fuel + 1, m, attr, σ =>
    -- cycle detection
    if σ.moduleScopes m = n then some (false, σ)
    else
      let σ := setScope σ m (toScopeId n)
      match findAttr g m attr.name with
      | some ⟨_, _, .write⟩ => some (false, setScope σ m (-1))
      | some found => do
        let σ := enterDown (setScopeId (addModuleToComponent σ m found) m attr.name n) m
        let (_, σ) ← downAll (fun c σ => traverseDownstream g n fuel c attr σ) (succs g.gates m) σ
        let σ ← traverseUpstream g n fuel m attr (setScope σ m (-1))
        some (true, σ)
      | none => do
        let (inScope, σ) ← downAll (fun c σ => traverseDownstream g n fuel c attr σ)
          (succs g.gates m) (enterDown σ m)
        if inScope then
          let σ := addModuleToComponent σ m attr
          let σ ← traverseUpstream g n fuel m attr (setScope σ m (-1))
          some (true, σ)
        else some (false, σ)

def identifyScopeComponent (g : ModuleGraph A) (n : Nat) :
    Nat → ModId → Attribute A → Walk A → Option (Walk A)
  | 0, _, _, _ => none
  | fuel + 1, m, attr, σ => do
    let σ := setScopeId (addModuleToComponent σ m attr) m attr.name n
    -- cycle detection
    let σ := setScope σ m (toScopeId n)
    let (_, σ) ← downAll (fun c σ => traverseDownstream g n fuel c attr σ) (succs g.gates m) σ
    some σ

end

/-- What `ComputeMetadataOffsets` carries from one component to the next. -/
structure Scopes (A : Type) where
  moduleScopes : ModId → Int
  scopeId : ModId → A → Int
  components : List (ScopeComponent A)

end Steps

end Bess.Metadata
