import Mathlib.Algebra.Group.Int.Defs
import Mathlib.Algebra.Group.Nat.Defs
import Mathlib.Data.List.Basic
import Mathlib.Tactic.Common

/-!
# The gate graph

Modules are joined by gates: `Module::ogates_` and `Module::igates_` are vectors of gate pointers
with null holes. An ogate leads to one igate; an igate lists the ogates that lead to it. A gate is
named by its module and its index in the module's vector, which is where the gate object lives
until `DisconnectGate` deletes it.

`connectGate` and `disconnectGate` are the two edits of `module.cc`. `Consistent` says that the two
directions agree; every graph that the edits reach is consistent (`consistent_runEdits`), so `succs`
and `preds` are the same edge relation read both ways.
-/

namespace Bess.Graph

/-- A module, named by its address. -/
abbrev ModId := Nat

def EBUSY : Int := 16

structure OGate where
  next : ModId
  igateIdx : Nat
  deriving DecidableEq, Repr

structure IGate where
  ogatesUpstream : List (ModId × Nat)
  mergeable : Bool
  deriving DecidableEq, Repr

def IGate.new : IGate := ⟨[], false⟩

def IGate.pushOgate (ig : IGate) (og : ModId × Nat) : IGate :=
  let up := ig.ogatesUpstream ++ [og]
  ⟨up, decide (up.length > 1)⟩

/-- `RemoveOgate` returns from inside its loop, so `mergeable_` is only refreshed when `og` was not
in the list. -/
def IGate.removeOgate (ig : IGate) (og : ModId × Nat) : IGate :=
  if og ∈ ig.ogatesUpstream then ⟨ig.ogatesUpstream.erase og, ig.mergeable⟩
  else ⟨ig.ogatesUpstream, decide (ig.ogatesUpstream.length > 1)⟩

/-- The two gate vectors of a module. -/
structure GateTable where
  igates : List (Option IGate)
  ogates : List (Option OGate)
  deriving DecidableEq, Repr

/-- The gate vectors of every module. -/
structure Gates where
  table : ModId → GateTable

instance : CoeFun Gates fun _ => ModId → GateTable := ⟨Gates.table⟩

/-- No module has a gate. -/
def Gates.empty : Gates := ⟨fun _ => ⟨[], []⟩⟩

/-- The gate at `idx`, if the vector reaches that far and the pointer is not null. -/
def gateAt {α : Type} (gates : List (Option α)) (idx : Nat) : Option α := (gates[idx]?).join

def isActiveGate {α : Type} (gates : List (Option α)) (idx : Nat) : Bool :=
  (gateAt gates idx).isSome

/-- `if (idx >= gates.size()) gates.resize(idx + 1, nullptr)` -/
def growTo {α : Type} (gates : List (Option α)) (idx : Nat) : List (Option α) :=
  gates ++ List.replicate (idx + 1 - gates.length) none

def setOgates (G : Gates) (m : ModId) (l : List (Option OGate)) : Gates :=
  ⟨fun k => if k = m then { G k with ogates := l } else G k⟩

def setIgates (G : Gates) (m : ModId) (l : List (Option IGate)) : Gates :=
  ⟨fun k => if k = m then { G k with igates := l } else G k⟩

def connectGate (G : Gates) (m : ModId) (ogateIdx : Nat) (mNext : ModId) (igateIdx : Nat) :
    Int × Gates :=
  if isActiveGate (G m).ogates ogateIdx then (-EBUSY, G)
  else
    let G := setOgates G m (growTo (G m).ogates ogateIdx)
    let G := setIgates G mNext (growTo (G mNext).igates igateIdx)
    let igate := (gateAt (G mNext).igates igateIdx).getD IGate.new
    let G := setOgates G m ((G m).ogates.set ogateIdx (some ⟨mNext, igateIdx⟩))
    let G := setIgates G mNext
      ((G mNext).igates.set igateIdx (some (igate.pushOgate (m, ogateIdx))))
    (0, G)

def disconnectGate (G : Gates) (m : ModId) (ogateIdx : Nat) : Int × Gates :=
  match gateAt (G m).ogates ogateIdx with
  | none => (0, G)
  | some ogate =>
    let igates := (G ogate.next).igates
    let igate := ((gateAt igates ogate.igateIdx).getD IGate.new).removeOgate (m, ogateIdx)
    let G := setIgates G ogate.next (igates.set ogate.igateIdx
      (if igate.ogatesUpstream.isEmpty then none else some igate))
    (0, setOgates G m ((G m).ogates.set ogateIdx none))

def ogate (G : Gates) (m : ModId) (i : Nat) : Option OGate := gateAt (G m).ogates i

def igate (G : Gates) (m : ModId) (i : Nat) : Option IGate := gateAt (G m).igates i

/-- The modules behind the connected ogates, in ogate order. -/
def succs (G : Gates) (m : ModId) : List ModId :=
  (G m).ogates.filterMap fun og => og.map (·.next)

/-- The modules that own an upstream ogate of some igate, in igate order. -/
def preds (G : Gates) (m : ModId) : List ModId :=
  (G m).igates.flatMap fun ig => (ig.map fun g => g.ogatesUpstream.map (·.1)).getD []

/-! ## Gate vectors -/

section Vectors

variable {α : Type}

theorem gateAt_growTo (l : List (Option α)) (i j : Nat) : gateAt (growTo l i) j = gateAt l j := by
  unfold gateAt growTo
  rcases Nat.lt_or_ge j l.length with h | h
  · rw [List.getElem?_append_left h]
  · rw [List.getElem?_append_right h, List.getElem?_eq_none h, List.getElem?_replicate]
    split <;> rfl

theorem length_growTo (l : List (Option α)) (i : Nat) : i < (growTo l i).length := by
  simp only [growTo, List.length_append, List.length_replicate]; omega

variable {l : List (Option α)}

theorem gateAt_set {i : Nat} (h : i < l.length) (g : Option α) (j : Nat) :
    gateAt (l.set i g) j = if i = j then g else gateAt l j := by
  unfold gateAt
  rw [List.getElem?_set]
  by_cases hij : i = j
  · subst hij; simp [h]
  · simp [hij]

theorem lt_length_of_gateAt {i : Nat} {g : α} (h : gateAt l i = some g) : i < l.length := by
  unfold gateAt at h
  rcases Nat.lt_or_ge i l.length with h' | h'
  · exact h'
  · rw [List.getElem?_eq_none h'] at h; cases h

theorem mem_iff_gateAt {g : α} : some g ∈ l ↔ ∃ i, gateAt l i = some g := by
  constructor
  · intro h
    obtain ⟨i, hi, e⟩ := List.mem_iff_getElem.mp h
    exact ⟨i, by simp [gateAt, List.getElem?_eq_getElem hi, e]⟩
  · rintro ⟨i, h⟩
    have hi := lt_length_of_gateAt h
    unfold gateAt at h
    rw [List.getElem?_eq_getElem hi, Option.join_some] at h
    exact h ▸ List.getElem_mem hi

end Vectors

/-! ## What an edit does to the gates -/

section Edits

variable {G : Gates} {m n k : ModId} {i j x : Nat}

theorem setIgates_ogates (l : List (Option IGate)) :
    (setIgates G m l k).ogates = (G k).ogates := by
  unfold setIgates
  by_cases h : k = m
  · subst h; simp
  · simp [h]

theorem setOgates_igates (l : List (Option OGate)) :
    (setOgates G m l k).igates = (G k).igates := by
  unfold setOgates
  by_cases h : k = m
  · subst h; simp
  · simp [h]

@[simp] theorem ogate_setIgates (l : List (Option IGate)) :
    ogate (setIgates G m l) k x = ogate G k x := by
  rw [ogate, setIgates_ogates, ogate]

@[simp] theorem igate_setOgates (l : List (Option OGate)) :
    igate (setOgates G m l) k x = igate G k x := by
  rw [igate, setOgates_igates, igate]

theorem ogate_setOgates (l : List (Option OGate)) :
    ogate (setOgates G m l) k x = if k = m then gateAt l x else ogate G k x := by
  unfold ogate setOgates
  by_cases h : k = m
  · subst h; simp
  · simp [h]

theorem igate_setIgates (l : List (Option IGate)) :
    igate (setIgates G m l) k x = if k = m then gateAt l x else igate G k x := by
  unfold igate setIgates
  by_cases h : k = m
  · subst h; simp
  · simp [h]

theorem connectGate_ogate (h : isActiveGate (G m).ogates i = false) :
    ogate (connectGate G m i n j).2 k x =
      if k = m ∧ i = x then some ⟨n, j⟩ else ogate G k x := by
  simp only [connectGate, h, Bool.false_eq_true, ↓reduceIte, ogate_setIgates, setIgates_ogates,
    ogate_setOgates]
  by_cases hk : k = m
  · subst hk
    simp only [↓reduceIte, true_and]
    rw [gateAt_set (by simpa [setOgates] using length_growTo _ _)]
    simp only [setOgates, ↓reduceIte, gateAt_growTo]
    rfl
  · simp [hk]

theorem connectGate_igate (h : isActiveGate (G m).ogates i = false) :
    igate (connectGate G m i n j).2 k x =
      if k = n ∧ j = x then some (((igate G n j).getD IGate.new).pushOgate (m, i))
      else igate G k x := by
  simp only [connectGate, h, Bool.false_eq_true, ↓reduceIte, igate_setIgates, igate_setOgates,
    setOgates_igates]
  by_cases hk : k = n
  · subst hk
    simp only [↓reduceIte, true_and]
    rw [gateAt_set (by simpa [setIgates] using length_growTo _ _)]
    simp only [setIgates, ↓reduceIte, gateAt_growTo]
    rfl
  · simp [hk]

theorem disconnectGate_none (h : ogate G m i = none) : disconnectGate G m i = (0, G) := by
  unfold ogate at h
  simp [disconnectGate, h]

theorem disconnectGate_ogate {og : OGate} (h : ogate G m i = some og) :
    ogate (disconnectGate G m i).2 k x = if k = m ∧ i = x then none else ogate G k x := by
  unfold ogate at h
  simp only [disconnectGate, h, ogate_setOgates, ogate_setIgates, setIgates_ogates]
  by_cases hk : k = m
  · subst hk
    simp only [↓reduceIte, true_and]
    rw [gateAt_set (lt_length_of_gateAt h)]
    rfl
  · simp [hk]

theorem disconnectGate_igate {og : OGate} {ig : IGate} (h : ogate G m i = some og)
    (hg : igate G og.next og.igateIdx = some ig) :
    igate (disconnectGate G m i).2 k x =
      if k = og.next ∧ og.igateIdx = x then
        (if (ig.removeOgate (m, i)).ogatesUpstream.isEmpty then none
          else some (ig.removeOgate (m, i)))
      else igate G k x := by
  unfold ogate at h
  unfold igate at hg
  simp only [disconnectGate, h, igate_setOgates, igate_setIgates, hg, Option.getD_some]
  by_cases hk : k = og.next
  · subst hk
    simp only [↓reduceIte, true_and]
    rw [gateAt_set (lt_length_of_gateAt hg)]
    rfl
  · simp [hk]

end Edits

/-! ## Both directions agree -/

/-- Ogates and upstream lists describe the same edges; no upstream list is empty or repeats. -/
structure Consistent (G : Gates) : Prop where
  listed : ∀ m i og, ogate G m i = some og →
    ∃ ig, igate G og.next og.igateIdx = some ig ∧ (m, i) ∈ ig.ogatesUpstream
  back : ∀ n j ig m i, igate G n j = some ig → (m, i) ∈ ig.ogatesUpstream →
    ogate G m i = some ⟨n, j⟩
  nodup : ∀ n j ig, igate G n j = some ig → ig.ogatesUpstream.Nodup
  nonempty : ∀ n j ig, igate G n j = some ig → ig.ogatesUpstream ≠ []

theorem consistent_empty : Consistent Gates.empty where
  listed _ _ _ h := by simp [ogate, gateAt, Gates.empty] at h
  back _ _ _ _ _ h := by simp [igate, gateAt, Gates.empty] at h
  nodup _ _ _ h := by simp [igate, gateAt, Gates.empty] at h
  nonempty _ _ _ h := by simp [igate, gateAt, Gates.empty] at h

variable {G : Gates} {m n : ModId}

/-! An igate that is missing is as good as one with no ogates. -/

theorem Consistent.back_getD (hG : Consistent G) (n : ModId) (j : Nat) :
    ∀ p ∈ ((igate G n j).getD IGate.new).ogatesUpstream, ogate G p.1 p.2 = some ⟨n, j⟩ := by
  cases hj : igate G n j with
  | none => simp [IGate.new]
  | some ig => exact fun p hp => hG.back n j ig p.1 p.2 hj hp

theorem Consistent.nodup_getD (hG : Consistent G) (n : ModId) (j : Nat) :
    ((igate G n j).getD IGate.new).ogatesUpstream.Nodup := by
  cases hj : igate G n j with
  | none => simp [IGate.new]
  | some ig => exact hG.nodup n j ig hj

theorem Consistent.connectGate (hG : Consistent G) (m : ModId) (i : Nat) (n : ModId)
    (j : Nat) : Consistent (connectGate G m i n j).2 := by
  cases hact : isActiveGate (G m).ogates i with
  | true => simpa [Graph.connectGate, hact] using hG
  | false =>
    have hfree : ogate G m i = none := by
      simpa [isActiveGate, ogate, Option.isSome_eq_false_iff] using hact
    -- the igate the new ogate joins, before the push
    obtain ⟨ig0, hig0⟩ : ∃ ig0, (igate G n j).getD IGate.new = ig0 := ⟨_, rfl⟩
    have hmem0 : ∀ p ∈ ig0.ogatesUpstream, ogate G p.1 p.2 = some ⟨n, j⟩ := hig0 ▸ hG.back_getD n j
    have hnd0 : ig0.ogatesUpstream.Nodup := hig0 ▸ hG.nodup_getD n j
    have hnew : (m, i) ∉ ig0.ogatesUpstream := fun hp => by
      have := hmem0 _ hp; rw [hfree] at this; cases this
    refine ⟨?_, ?_, ?_, ?_⟩
    · intro k x og hog
      rw [connectGate_ogate hact] at hog
      split at hog
      · rename_i hk
        cases hog
        obtain ⟨rfl, rfl⟩ := hk
        refine ⟨((igate G n j).getD IGate.new).pushOgate (k, i), ?_, by simp [IGate.pushOgate]⟩
        rw [connectGate_igate hact]
        simp
      · obtain ⟨ig, hig, hin⟩ := hG.listed k x og hog
        rw [connectGate_igate hact]
        split
        · rename_i hk
          obtain ⟨h1, h2⟩ := hk
          rw [h1, ← h2] at hig
          refine ⟨_, rfl, ?_⟩
          rw [hig]
          simp [IGate.pushOgate, hin]
        · exact ⟨ig, hig, hin⟩
    · intro k x ig p q hig hin
      rw [connectGate_igate hact] at hig
      rw [connectGate_ogate hact]
      split at hig
      · rename_i hk
        obtain ⟨rfl, rfl⟩ := hk
        cases hig
        rw [hig0] at hin
        simp only [IGate.pushOgate, List.mem_append, List.mem_singleton, Prod.mk.injEq] at hin
        rcases hin with hin | ⟨rfl, rfl⟩
        · rw [if_neg ?_]
          · exact hmem0 _ hin
          · rintro ⟨rfl, rfl⟩; exact hnew hin
        · simp
      · rw [if_neg ?_]
        · exact hG.back k x ig p q hig hin
        · rintro ⟨rfl, rfl⟩
          have := hG.back k x ig _ _ hig hin
          rw [hfree] at this; cases this
    · intro k x ig hig
      rw [connectGate_igate hact] at hig
      split at hig
      · cases hig
        rw [hig0]
        simp only [IGate.pushOgate]
        exact List.nodup_append.mpr ⟨hnd0, by simp, fun a ha b hb => by
          simp only [List.mem_singleton] at hb; subst hb; rintro rfl; exact hnew ha⟩
      · exact hG.nodup k x ig hig
    · intro k x ig hig
      rw [connectGate_igate hact] at hig
      split at hig
      · cases hig; simp [IGate.pushOgate]
      · exact hG.nonempty k x ig hig

theorem IGate.removeOgate_upstream {ig : IGate} {og : ModId × Nat} (h : og ∈ ig.ogatesUpstream) :
    (ig.removeOgate og).ogatesUpstream = ig.ogatesUpstream.erase og := by
  simp [IGate.removeOgate, h]

theorem Consistent.disconnectGate (hG : Consistent G) (m : ModId) (i : Nat) :
    Consistent (disconnectGate G m i).2 := by
  cases hog : ogate G m i with
  | none => rw [disconnectGate_none hog]; exact hG
  | some og =>
    obtain ⟨ig, hig, hin⟩ := hG.listed m i og hog
    have hnd := hG.nodup _ _ _ hig
    have hup := IGate.removeOgate_upstream hin
    -- an igate of the new graph: the edited one, or an old one
    have hcase : ∀ k x g, igate (Graph.disconnectGate G m i).2 k x = some g →
        (k = og.next ∧ x = og.igateIdx ∧ g = ig.removeOgate (m, i) ∧ g.ogatesUpstream ≠ []) ∨
        (¬ (k = og.next ∧ x = og.igateIdx) ∧ igate G k x = some g) := by
      intro k x g hg
      rw [disconnectGate_igate hog hig] at hg
      split at hg
      · rename_i hk
        split at hg
        · cases hg
        · rename_i hne
          cases hg
          exact .inl ⟨hk.1, hk.2.symm, rfl, by simpa using hne⟩
      · rename_i hk
        exact .inr ⟨fun h => hk ⟨h.1, h.2.symm⟩, hg⟩
    refine ⟨?_, ?_, ?_, ?_⟩
    · intro k x og' hog'
      rw [disconnectGate_ogate hog] at hog'
      split at hog'
      · cases hog'
      · rename_i hk
        obtain ⟨ig', hig', hin'⟩ := hG.listed k x og' hog'
        rw [disconnectGate_igate hog hig]
        split
        · rename_i hn
          obtain ⟨h1, h2⟩ := hn
          rw [h1, ← h2, hig] at hig'
          cases hig'
          have hmem : (k, x) ∈ (ig.removeOgate (m, i)).ogatesUpstream := by
            rw [hup]
            refine (List.mem_erase_of_ne ?_).mpr hin'
            rintro ⟨⟩; exact hk ⟨rfl, rfl⟩
          rw [if_neg (by simpa using List.ne_nil_of_mem hmem)]
          exact ⟨_, rfl, hmem⟩
        · exact ⟨ig', hig', hin'⟩
    · intro k x g p q hg hpq
      rw [disconnectGate_ogate hog]
      have hne : ∀ (h : ogate G p q = some ⟨k, x⟩), ¬ (p = m ∧ i = q) →
          (if p = m ∧ i = q then none else ogate G p q) = some ⟨k, x⟩ := fun h hn => by
        rw [if_neg hn, h]
      rcases hcase k x g hg with ⟨rfl, rfl, rfl, -⟩ | ⟨hk, hg⟩
      · rw [hup] at hpq
        refine hne (hG.back _ _ ig p q hig (List.mem_of_mem_erase hpq)) ?_
        rintro ⟨rfl, rfl⟩
        exact hnd.not_mem_erase hpq
      · have hb := hG.back k x g p q hg hpq
        refine hne hb ?_
        rintro ⟨rfl, rfl⟩
        rw [hog] at hb
        cases hb
        exact hk ⟨rfl, rfl⟩
    · intro k x g hg
      rcases hcase k x g hg with ⟨rfl, rfl, rfl, -⟩ | ⟨-, hg⟩
      · rw [hup]; exact hnd.erase _
      · exact hG.nodup k x g hg
    · intro k x g hg
      rcases hcase k x g hg with ⟨-, -, -, hne⟩ | ⟨-, hg⟩
      · exact hne
      · exact hG.nonempty k x g hg

/-- One control-plane edit of the gate graph. -/
inductive Edit where
  | connect (m : ModId) (ogateIdx : Nat) (mNext : ModId) (igateIdx : Nat)
  | disconnect (m : ModId) (ogateIdx : Nat)
  deriving DecidableEq, Repr

def Edit.run (G : Gates) : Edit → Gates
  | .connect m i n j => (connectGate G m i n j).2
  | .disconnect m i => (disconnectGate G m i).2

/-- The graph after a sequence of edits of an unconnected set of modules. -/
def runEdits (es : List Edit) : Gates := es.foldl Edit.run Gates.empty

theorem Consistent.foldl (hG : Consistent G) (es : List Edit) :
    Consistent (es.foldl Edit.run G) := by
  induction es generalizing G with
  | nil => exact hG
  | cons e es ih =>
    refine ih ?_
    cases e with
    | connect m i n j => exact hG.connectGate m i n j
    | disconnect m i => exact hG.disconnectGate m i

theorem ogate_foldl {es : List Edit} {i : Nat} {og : OGate}
    (h : ogate (es.foldl Edit.run G) m i = some og) :
    ogate G m i = some og ∨ Edit.connect m i og.next og.igateIdx ∈ es := by
  induction es generalizing G with
  | nil => exact .inl h
  | cons e es ih =>
    rcases ih h with h1 | h1
    · cases e with
      | connect m' i' n j =>
        simp only [Edit.run] at h1
        cases hact : isActiveGate (G m').ogates i' with
        | true => left; simpa [connectGate, hact] using h1
        | false =>
          rw [connectGate_ogate hact] at h1
          split at h1
          · rename_i hk
            cases h1
            rw [hk.1, hk.2]
            exact .inr (List.mem_cons_self ..)
          · exact .inl h1
      | disconnect m' i' =>
        simp only [Edit.run] at h1
        cases hog : ogate G m' i' with
        | none => rw [disconnectGate_none hog] at h1; exact .inl h1
        | some og' =>
          rw [disconnectGate_ogate hog] at h1
          split at h1
          · cases h1
          · exact .inl h1
    · exact .inr (List.mem_cons_of_mem _ h1)

theorem mem_succs : n ∈ succs G m ↔ ∃ i j, ogate G m i = some ⟨n, j⟩ := by
  simp only [succs, List.mem_filterMap]
  constructor
  · rintro ⟨og, hmem, hn⟩
    cases og with
    | none => cases hn
    | some og =>
      obtain ⟨i, hi⟩ := mem_iff_gateAt.mp hmem
      simp only [Option.map_some, Option.some.injEq] at hn
      subst hn
      exact ⟨i, og.igateIdx, hi⟩
  · rintro ⟨i, j, h⟩
    exact ⟨_, mem_iff_gateAt.mpr ⟨i, h⟩, rfl⟩

theorem mem_preds :
    m ∈ preds G n ↔ ∃ j ig i, igate G n j = some ig ∧ (m, i) ∈ ig.ogatesUpstream := by
  simp only [preds, List.mem_flatMap]
  constructor
  · rintro ⟨g, hmem, hm⟩
    cases g with
    | none => simp at hm
    | some ig =>
      obtain ⟨j, hj⟩ := mem_iff_gateAt.mp hmem
      simp only [Option.map_some, Option.getD_some, List.mem_map] at hm
      obtain ⟨⟨a, i⟩, hin, rfl⟩ := hm
      exact ⟨j, ig, i, hj, hin⟩
  · rintro ⟨j, ig, i, hj, hin⟩
    exact ⟨some ig, mem_iff_gateAt.mpr ⟨j, hj⟩, by
      simp only [Option.map_some, Option.getD_some, List.mem_map]
      exact ⟨(m, i), hin, rfl⟩⟩

theorem Consistent.mem_preds_iff (hG : Consistent G) : m ∈ preds G n ↔ n ∈ succs G m := by
  rw [mem_preds, mem_succs]
  constructor
  · rintro ⟨j, ig, i, hj, hin⟩
    exact ⟨i, j, hG.back n j ig m i hj hin⟩
  · rintro ⟨i, j, h⟩
    obtain ⟨ig, hig, hin⟩ := hG.listed m i _ h
    exact ⟨j, ig, i, hig, hin⟩

end Bess.Graph
