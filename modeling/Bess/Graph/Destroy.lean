import Mathlib.Data.List.Induction
import Mathlib.Data.List.Nodup
import Bess.Graph.Gates

/-!
# Edits of the module graph

`ModuleGraph::ConnectModules`, `DisconnectModule` and `DestroyModule` over the gates of
`module.cc`. An edit adds one edge or takes some away; `strip` says what is left of an igate that
loses upstream ogates. Both directions of the links agree after every edit, whereas `mergeable_` is
right only as long as no igate is brought from several upstream ogates down to one.
-/

namespace Bess.Graph

/-- `MAX_GATES` -/
def maxGates : Nat := 8192

def EINVAL : Int := 22

/-- The numbers of gates that the builders of the modules allow. -/
structure Limits where
  numOGates : ModId → Nat
  numIGates : ModId → Nat

def connectModules (lim : Limits) (G : Gates) (m : ModId) (ogateIdx : Nat) (mNext : ModId)
    (igateIdx : Nat) : Int × Gates :=
  if ogateIdx ≥ lim.numOGates m ∨ ogateIdx ≥ maxGates then (-EINVAL, G)
  else if igateIdx ≥ lim.numIGates mNext ∨ igateIdx ≥ maxGates then (-EINVAL, G)
  else connectGate G m ogateIdx mNext igateIdx

def disconnectModule (lim : Limits) (G : Gates) (m : ModId) (ogateIdx : Nat) : Int × Gates :=
  if ogateIdx ≥ lim.numOGates m then (-EINVAL, G) else disconnectGate G m ogateIdx

/-- An ogate is deleted and its module's pointer to it set to null. -/
def dropOgate (G : Gates) (og : ModId × Nat) : Gates :=
  setOgates G og.1 ((G og.1).ogates.set og.2 none)

def disconnectModulesUpstream (m : ModId) (G : Gates) (igateIdx : Nat) : Gates :=
  match gateAt (G m).igates igateIdx with
  | none => G
  | some igate =>
    let G := igate.ogatesUpstream.foldl dropOgate G
    setIgates G m ((G m).igates.set igateIdx none)

/-- The two loops of `Module::Destroy`. -/
def destroyGates (G : Gates) (m : ModId) : Gates :=
  let G := (List.range (G m).igates.length).foldl (disconnectModulesUpstream m) G
  (List.range (G m).ogates.length).foldl (fun G i => (disconnectGate G m i).2) G

/-- The module and its vectors are deleted. -/
def destroyModule (G : Gates) (m : ModId) : Gates :=
  let G := destroyGates G m
  ⟨fun k => if k = m then ⟨[], []⟩ else G k⟩

inductive Request
  | connectModules (m : ModId) (ogateIdx : Nat) (mNext : ModId) (igateIdx : Nat)
  | disconnectModule (m : ModId) (ogateIdx : Nat)
  | destroyModule (m : ModId)
  deriving DecidableEq, Repr

def Request.run (lim : Limits) (G : Gates) : Request → Gates
  | .connectModules m i n j => (Graph.connectModules lim G m i n j).2
  | .disconnectModule m i => (Graph.disconnectModule lim G m i).2
  | .destroyModule m => Graph.destroyModule G m

/-! ## An igate that loses upstream ogates -/

/-- What is left of an igate without the ogates in `p`; an igate without upstream is deleted. -/
def strip (p : ModId × Nat → Bool) (ig : IGate) : Option IGate :=
  let up := ig.ogatesUpstream.filter fun og => !p og
  if up.isEmpty then none else some ⟨up, ig.mergeable⟩

variable {G : Gates} {m n k : ModId} {i j x : Nat} {ig : IGate} {p q : ModId × Nat → Bool}

theorem strip_of_none (hne : ig.ogatesUpstream ≠ [])
    (hp : ∀ og ∈ ig.ogatesUpstream, p og = false) : strip p ig = some ig := by
  have hfilter : (ig.ogatesUpstream.filter fun og => !p og) = ig.ogatesUpstream := by
    rw [List.filter_eq_self]
    intro og hog
    simp [hp og hog]
  unfold strip
  simp only [hfilter]
  rw [if_neg (by simpa using hne)]

theorem strip_strip : (strip p ig).bind (strip q) = strip (fun og => p og || q og) ig := by
  have hfilter : (ig.ogatesUpstream.filter fun og => !(p og || q og)) =
      (ig.ogatesUpstream.filter fun og => !p og).filter fun og => !q og := by
    rw [List.filter_filter]
    congr 1
    funext og
    cases p og <;> cases q og <;> rfl
  unfold strip
  simp only [hfilter]
  by_cases hp : (ig.ogatesUpstream.filter fun og => !p og).isEmpty = true
  · rw [if_pos hp, List.isEmpty_iff.mp hp]
    rfl
  · rw [if_neg hp]
    rfl

theorem bind_strip_strip (o : Option IGate) :
    (o.bind (strip p)).bind (strip q) = o.bind (strip fun og => p og || q og) := by
  cases o with
  | none => rfl
  | some ig => exact strip_strip

theorem strip_congr (h : ∀ og ∈ ig.ogatesUpstream, p og = q og) : strip p ig = strip q ig := by
  have hfilter : (ig.ogatesUpstream.filter fun og => !p og) =
      ig.ogatesUpstream.filter fun og => !q og :=
    List.filter_congr fun og hog => by rw [h og hog]
  unfold strip
  rw [hfilter]

/-! ## What each edit does to a consistent graph -/

theorem Consistent.igate_disconnectGate (h : Consistent G) (m : ModId) (i : Nat) (k : ModId)
    (x : Nat) : igate (Graph.disconnectGate G m i).2 k x =
      (igate G k x).bind (strip fun og => og == (m, i)) := by
  -- an igate that does not list the ogate is left alone
  have hkeep : (∀ ig, igate G k x = some ig → (m, i) ∉ ig.ogatesUpstream) →
      (igate G k x).bind (strip fun og => og == (m, i)) = igate G k x := fun hno => by
    cases hig : igate G k x with
    | none => rfl
    | some ig =>
      refine strip_of_none (h.nonempty k x ig hig) fun og hog => ?_
      rw [beq_eq_false_iff_ne]
      rintro rfl
      exact hno ig hig hog
  cases hog : ogate G m i with
  | none =>
    rw [disconnectGate_none hog, hkeep fun ig hig hin => ?_]
    rw [h.back k x ig m i hig hin] at hog
    cases hog
  | some og =>
    obtain ⟨ig, hig, hin⟩ := h.listed m i og hog
    rw [disconnectGate_igate hog hig]
    split
    · rename_i hk
      obtain ⟨rfl, rfl⟩ := hk
      have herase : (ig.removeOgate (m, i)) =
          ⟨ig.ogatesUpstream.filter fun og => !(og == (m, i)), ig.mergeable⟩ := by
        unfold IGate.removeOgate
        rw [if_pos hin, (h.nodup _ _ ig hig).erase_eq_filter]
        rfl
      rw [hig, herase]
      rfl
    · rename_i hk
      refine (hkeep fun ig' hig' hin' => hk ?_).symm
      have := h.back k x ig' m i hig' hin'
      rw [hog] at this
      cases this
      exact ⟨rfl, rfl⟩

theorem ogate_disconnectGate (G : Gates) (m : ModId) (i : Nat) (k : ModId) (x : Nat) :
    ogate (disconnectGate G m i).2 k x = if (k, x) = (m, i) then none else ogate G k x := by
  cases hog : ogate G m i with
  | none =>
    rw [disconnectGate_none hog]
    split
    · rename_i hk
      obtain ⟨rfl, rfl⟩ := Prod.mk.inj hk
      exact hog
    · rfl
  | some og =>
    rw [disconnectGate_ogate hog]
    simp only [Prod.mk.injEq, eq_comm (a := x)]

theorem ogate_dropOgate (G : Gates) (og : ModId × Nat) (hog : (ogate G og.1 og.2).isSome)
    (k : ModId) (x : Nat) :
    ogate (dropOgate G og) k x = if (k, x) = og then none else ogate G k x := by
  obtain ⟨g, hg⟩ := Option.isSome_iff_exists.mp hog
  unfold dropOgate
  rw [ogate_setOgates]
  by_cases hk : k = og.1
  · subst hk
    rw [if_pos rfl, gateAt_set (lt_length_of_gateAt hg)]
    by_cases hx : og.2 = x
    · subst hx; simp
    · rw [if_neg hx, if_neg fun he => hx (by rw [← he])]
      rfl
  · rw [if_neg hk, if_neg fun he => hk (by rw [← he])]

theorem ogate_foldl_dropOgate (l : List (ModId × Nat)) (hnd : l.Nodup)
    (hl : ∀ og ∈ l, (ogate G og.1 og.2).isSome) (k : ModId) (x : Nat) :
    ogate (l.foldl dropOgate G) k x = if (k, x) ∈ l then none else ogate G k x := by
  induction l generalizing G with
  | nil => simp
  | cons og l ih =>
    obtain ⟨hnot, hnd⟩ := List.nodup_cons.mp hnd
    have hdrop := ogate_dropOgate G og (hl og List.mem_cons_self)
    have hrest : ∀ og' ∈ l, (ogate (dropOgate G og) og'.1 og'.2).isSome := fun og' hmem => by
      rw [hdrop, if_neg (fun he : og' = og => hnot (he ▸ hmem))]
      exact hl og' (List.mem_cons_of_mem _ hmem)
    rw [List.foldl_cons, ih hnd hrest, hdrop]
    by_cases hk : (k, x) = og
    · simp [hk]
    · simp [hk]

theorem igate_foldl_dropOgate (l : List (ModId × Nat)) (k : ModId) (x : Nat) :
    igate (l.foldl dropOgate G) k x = igate G k x := by
  induction l generalizing G with
  | nil => rfl
  | cons og l ih => rw [List.foldl_cons, ih, dropOgate, igate_setOgates]

theorem Consistent.upstream_spec (h : Consistent G) (m : ModId) (j : Nat) (k : ModId) (x : Nat) :
    igate (disconnectModulesUpstream m G j) k x = (if k = m ∧ x = j then none else igate G k x) ∧
    ogate (disconnectModulesUpstream m G j) k x =
      (if ogate G k x = some ⟨m, j⟩ then none else ogate G k x) := by
  unfold disconnectModulesUpstream
  cases hig : gateAt (G m).igates j with
  | none =>
    have hig : igate G m j = none := hig
    simp only
    refine ⟨?_, ?_⟩
    · by_cases hk : k = m ∧ x = j
      · rw [if_pos hk, hk.1, hk.2, hig]
      · rw [if_neg hk]
    · rw [if_neg]
      intro hog
      obtain ⟨ig, hig', -⟩ := h.listed k x _ hog
      rw [show igate G m j = some ig from hig'] at hig
      cases hig
  | some ig =>
    have hig : igate G m j = some ig := hig
    simp only
    refine ⟨?_, ?_⟩
    · have hlen : j < ((ig.ogatesUpstream.foldl dropOgate G) m).igates.length := by
        have := igate_foldl_dropOgate (G := G) ig.ogatesUpstream m j
        rw [hig] at this
        exact lt_length_of_gateAt this
      rw [igate_setIgates]
      by_cases hk : k = m
      · subst hk
        rw [if_pos rfl, gateAt_set hlen]
        by_cases hx : j = x
        · simp [hx]
        · rw [if_neg hx, if_neg fun he => hx he.2.symm]
          exact igate_foldl_dropOgate _ _ _
      · rw [if_neg hk, if_neg fun he => hk he.1]
        exact igate_foldl_dropOgate _ _ _
    · rw [ogate_setIgates, ogate_foldl_dropOgate _ (h.nodup m j ig hig) fun og hog => by
        rw [h.back m j ig og.1 og.2 hig hog]; rfl]
      -- the ogates listed are those that lead here
      have hiff : (k, x) ∈ ig.ogatesUpstream ↔ ogate G k x = some ⟨m, j⟩ := by
        constructor
        · exact h.back m j ig k x hig
        · intro hog
          obtain ⟨ig', hig', hin⟩ := h.listed k x _ hog
          cases hig.symm.trans hig'
          exact hin
      simp only [hiff]

theorem Consistent.disconnectModulesUpstream (h : Consistent G) (m : ModId) (j : Nat) :
    Consistent (disconnectModulesUpstream m G j) := by
  have hig := fun k x => (h.upstream_spec m j k x).1
  have hog := fun k x => (h.upstream_spec m j k x).2
  -- the igates and ogates that are left are old ones
  have hold : ∀ k x ig, igate (Graph.disconnectModulesUpstream m G j) k x = some ig →
      ¬ (k = m ∧ x = j) ∧ igate G k x = some ig := fun k x ig h' => by
    rw [hig] at h'
    split at h'
    · cases h'
    · exact ⟨by assumption, h'⟩
  refine ⟨fun k x og h' => ?_, fun k x ig k' x' h' hin => ?_, fun k x ig h' => ?_,
    fun k x ig h' => ?_⟩
  · rw [hog] at h'
    split at h'
    · cases h'
    · rename_i hne
      obtain ⟨ig, hig', hin⟩ := h.listed k x og h'
      refine ⟨ig, ?_, hin⟩
      rw [hig, if_neg]
      · exact hig'
      · rintro ⟨h1, h2⟩
        apply hne
        rw [h', ← h1, ← h2]
  · obtain ⟨hne, hig'⟩ := hold k x ig h'
    have hb := h.back k x ig k' x' hig' hin
    rw [hog, if_neg]
    · exact hb
    · intro he
      rw [hb] at he
      have := Option.some.inj he
      exact hne ⟨congrArg OGate.next this, congrArg OGate.igateIdx this⟩
  · exact h.nodup k x ig (hold k x ig h').2
  · exact h.nonempty k x ig (hold k x ig h').2

theorem Consistent.upstream_loop (h : Consistent G) (m : ModId) (js : List Nat) :
    Consistent (js.foldl (Graph.disconnectModulesUpstream m) G) ∧
    (∀ k x, igate (js.foldl (Graph.disconnectModulesUpstream m) G) k x =
      if k = m ∧ x ∈ js then none else igate G k x) ∧
    ∀ k x, ogate (js.foldl (Graph.disconnectModulesUpstream m) G) k x =
      if ∃ j ∈ js, ogate G k x = some ⟨m, j⟩ then none else ogate G k x := by
  induction js generalizing G with
  | nil => exact ⟨h, by simp, by simp⟩
  | cons j js ih =>
    obtain ⟨h1, h2, h3⟩ := ih (h.disconnectModulesUpstream m j)
    refine ⟨h1, fun k x => ?_, fun k x => ?_⟩
    · rw [List.foldl_cons, h2, (h.upstream_spec m j k x).1]
      by_cases hk : k = m
      · by_cases hx : x = j
        · simp [hk, hx]
        · simp [hk, hx]
      · simp [hk]
    · rw [List.foldl_cons, h3, (h.upstream_spec m j k x).2]
      by_cases hog : ogate G k x = some ⟨m, j⟩
      · simp [hog]
      · simp [hog]

theorem Consistent.downstream_loop (h : Consistent G) (m : ModId) (is : List Nat) :
    Consistent (is.foldl (fun G i => (Graph.disconnectGate G m i).2) G) ∧
    (∀ k x, igate (is.foldl (fun G i => (Graph.disconnectGate G m i).2) G) k x =
      (igate G k x).bind (strip fun og => og.1 == m && is.contains og.2)) ∧
    ∀ k x, ogate (is.foldl (fun G i => (Graph.disconnectGate G m i).2) G) k x =
      if k = m ∧ x ∈ is then none else ogate G k x := by
  induction is generalizing G with
  | nil =>
    refine ⟨h, fun k x => ?_, by simp⟩
    cases hig : igate G k x with
    | none => simpa using hig
    | some ig =>
      simp only [List.foldl_nil, hig, Option.bind_some]
      exact (strip_of_none (h.nonempty k x ig hig) (by simp)).symm
  | cons i is ih =>
    obtain ⟨h1, h2, h3⟩ := ih (h.disconnectGate m i)
    refine ⟨h1, fun k x => ?_, fun k x => ?_⟩
    · rw [List.foldl_cons, h2, h.igate_disconnectGate, bind_strip_strip]
      congr 2
      funext og
      rw [Bool.eq_iff_iff]
      simp only [Bool.or_eq_true, beq_iff_eq, Bool.and_eq_true, List.contains_iff_mem,
        List.mem_cons, Prod.ext_iff]
      tauto
    · rw [List.foldl_cons, h3, ogate_disconnectGate]
      by_cases hk : k = m
      · by_cases hx : x = i
        · simp [hk, hx]
        · simp [hk, hx]
      · simp [hk]

theorem Consistent.congr {G' : Gates} (h : Consistent G) (ho : ∀ k x, ogate G' k x = ogate G k x)
    (hi : ∀ k x, igate G' k x = igate G k x) : Consistent G' where
  listed k x og := by rw [ho, hi]; exact h.listed k x og
  back k x ig k' x' := by rw [hi, ho]; exact h.back k x ig k' x'
  nodup k x ig := by rw [hi]; exact h.nodup k x ig
  nonempty k x ig := by rw [hi]; exact h.nonempty k x ig

theorem gateAt_none_of_length_le {α : Type} {l : List (Option α)} (h : l.length ≤ x) :
    gateAt l x = none := by
  unfold gateAt
  rw [List.getElem?_eq_none h]
  rfl

/-- The module's own gates go, self-loops included, and so does every edge from or to it. -/
theorem Consistent.destroyGates_spec (h : Consistent G) (m : ModId) :
    Consistent (destroyGates G m) ∧
    (∀ k x, igate (destroyGates G m) k x =
      if k = m then none else (igate G k x).bind (strip fun og => og.1 == m)) ∧
    ∀ k x, ogate (destroyGates G m) k x =
      if k = m ∨ (ogate G k x).map (·.next) = some m then none else ogate G k x := by
  unfold destroyGates
  obtain ⟨hup, hupI, hupO⟩ := h.upstream_loop m (List.range (G m).igates.length)
  generalize (List.range (G m).igates.length).foldl (Graph.disconnectModulesUpstream m) G = G₁
    at hup hupI hupO
  obtain ⟨hdn, hdnI, hdnO⟩ := hup.downstream_loop m (List.range (G₁ m).ogates.length)
  -- the vectors end where the loops do
  have hown : ∀ x, igate G₁ m x = none := fun x => by
    rw [hupI]
    by_cases hx : x < (G m).igates.length
    · rw [if_pos ⟨rfl, List.mem_range.mpr hx⟩]
    · rw [if_neg (by simpa using hx)]
      exact gateAt_none_of_length_le (Nat.not_lt.mp hx)
  have hother : ∀ k x, k ≠ m → igate G₁ k x = igate G k x := fun k x hk => by
    rw [hupI, if_neg fun hc => hk hc.1]
  refine ⟨hdn, fun k x => ?_, fun k x => ?_⟩
  · rw [hdnI]
    by_cases hk : k = m
    · rw [if_pos hk, hk, hown]
      rfl
    · rw [if_neg hk, hother k x hk]
      cases hig : igate G k x with
      | none => rfl
      | some ig =>
        refine strip_congr fun og hog => ?_
        by_cases ho : og.1 = m
        · have hlive := hup.back k x ig og.1 og.2 ((hother k x hk).trans hig) hog
          have hlt : og.2 < (G₁ m).ogates.length := ho ▸ lt_length_of_gateAt hlive
          simp [ho, hlt]
        · simp [beq_eq_false_iff_ne.mpr ho]
  · have hlead : (∃ j ∈ List.range (G m).igates.length, ogate G k x = some ⟨m, j⟩) ↔
        (ogate G k x).map (·.next) = some m := by
      constructor
      · rintro ⟨j, -, hj⟩
        rw [hj]
        rfl
      · intro hm
        obtain ⟨og, hog, rfl⟩ := Option.map_eq_some_iff.mp hm
        obtain ⟨ig, hig, -⟩ := h.listed k x og hog
        exact ⟨og.igateIdx, List.mem_range.mpr (lt_length_of_gateAt hig), hog⟩
    rw [hdnO]
    by_cases hk : k = m
    · rw [if_pos (Or.inl hk), hk]
      by_cases hx : x < (G₁ m).ogates.length
      · rw [if_pos ⟨rfl, List.mem_range.mpr hx⟩]
      · rw [if_neg (by simpa using hx)]
        exact gateAt_none_of_length_le (Nat.not_lt.mp hx)
    · simp only [hk, false_and, ↓reduceIte, false_or, hupO, hlead]

theorem Consistent.destroyModule_spec (h : Consistent G) (m : ModId) :
    Consistent (destroyModule G m) ∧
    (∀ k x, igate (destroyModule G m) k x =
      if k = m then none else (igate G k x).bind (strip fun og => og.1 == m)) ∧
    ∀ k x, ogate (destroyModule G m) k x =
      if k = m ∨ (ogate G k x).map (·.next) = some m then none else ogate G k x := by
  obtain ⟨hc, hI, hO⟩ := h.destroyGates_spec m
  -- no gate is left in the vectors that go
  have hi : ∀ k x, igate (destroyModule G m) k x = igate (destroyGates G m) k x := fun k x => by
    by_cases hk : k = m
    · rw [hI, if_pos hk]
      simp [igate, destroyModule, hk, gateAt]
    · simp [igate, destroyModule, hk]
  have ho : ∀ k x, ogate (destroyModule G m) k x = ogate (destroyGates G m) k x := fun k x => by
    by_cases hk : k = m
    · rw [hO, if_pos (Or.inl hk)]
      simp [ogate, destroyModule, hk, gateAt]
    · simp [ogate, destroyModule, hk]
  exact ⟨hc.congr ho hi, fun k x => by rw [hi, hI], fun k x => by rw [ho, hO]⟩

theorem Consistent.connectModules (h : Consistent G) (lim : Limits) (m : ModId) (i : Nat)
    (n : ModId) (j : Nat) : Consistent (connectModules lim G m i n j).2 := by
  unfold Graph.connectModules
  split
  · exact h
  split
  · exact h
  · exact h.connectGate m i n j

theorem Consistent.disconnectModule (h : Consistent G) (lim : Limits) (m : ModId) (i : Nat) :
    Consistent (disconnectModule lim G m i).2 := by
  unfold Graph.disconnectModule
  split
  · exact h
  · exact h.disconnectGate m i

theorem Consistent.request (h : Consistent G) (lim : Limits) (e : Request) :
    Consistent (e.run lim G) := by
  cases e with
  | connectModules m i n j => exact h.connectModules lim m i n j
  | disconnectModule m i => exact h.disconnectModule lim m i
  | destroyModule m => exact (h.destroyModule_spec m).1

/-! ## Whole runs -/

/-- The gates after a sequence of requests on modules that start unconnected. -/
def runRequests (lim : Limits) (es : List Request) : Gates := es.foldl (Request.run lim) Gates.empty

theorem runRequests_concat (lim : Limits) (es : List Request) (e : Request) :
    runRequests lim (es ++ [e]) = e.run lim (runRequests lim es) := by
  simp [runRequests]

/-- Whatever is connected, disconnected and destroyed, both directions of the links agree. -/
theorem consistent_runRequests (lim : Limits) (es : List Request) :
    Consistent (runRequests lim es) := by
  induction es using List.reverseRecOn with
  | nil => exact consistent_empty
  | append_singleton es e ih =>
    rw [runRequests_concat]
    exact ih.request lim e

/-! ## When an igate is mergeable -/

/-- `mergeable_` is set iff there are several upstream ogates. -/
def IGate.Merges (ig : IGate) : Prop := ig.mergeable = true ↔ 1 < ig.ogatesUpstream.length

def Merges (G : Gates) : Prop := ∀ k x ig, igate G k x = some ig → ig.Merges

/-- Without the ogates in `p`, an igate with several upstream ogates would be left with one. -/
def LeavesOne (p : ModId × Nat → Bool) (ig : IGate) : Prop :=
  1 < ig.ogatesUpstream.length ∧ (ig.ogatesUpstream.filter fun og => !p og).length = 1

/-- `RemoveOgate` does not refresh `mergeable_`, which shows when the last but one ogate goes. -/
theorem IGate.Merges.strip {ig' : IGate} (h : ig.Merges) (hs : strip p ig = some ig') :
    ig'.Merges ↔ ¬ LeavesOne p ig := by
  unfold Graph.strip at hs
  simp only at hs
  split at hs
  · cases hs
  · rename_i hne
    cases hs
    have hpos : 0 < (ig.ogatesUpstream.filter fun og => !p og).length :=
      List.length_pos_iff.mpr (by simpa using hne)
    have hle := List.length_filter_le (fun og => !p og) ig.ogatesUpstream
    unfold IGate.Merges at h ⊢
    unfold LeavesOne
    simp only [h]
    omega

theorem Merges.of_strip {G' : Gates} {s : ModId → Nat → Prop} (h : Merges G)
    (hs : ∀ k x, s k x → igate G' k x = (igate G k x).bind (strip p))
    (hn : ∀ k x, ¬ s k x → igate G' k x = none) :
    Merges G' ↔ ∀ k x ig, s k x → igate G k x = some ig → ¬ LeavesOne p ig := by
  constructor
  · intro h' k x ig hk hig hone
    have hig' := hs k x hk
    rw [hig] at hig'
    obtain ⟨ig', hs'⟩ : ∃ ig', strip p ig = some ig' := by
      refine ⟨_, if_neg ?_⟩
      intro hnil
      have := hone.2
      rw [List.isEmpty_iff.mp hnil] at this
      cases this
    exact ((h k x ig hig).strip hs').mp (h' k x ig' (hig'.trans hs')) hone
  · intro hspare k x ig' hig'
    by_cases hk : s k x
    · rw [hs k x hk] at hig'
      obtain ⟨ig, hig, hs'⟩ := Option.bind_eq_some_iff.mp hig'
      exact ((h k x ig hig).strip hs').mpr (hspare k x ig hk hig)
    · rw [hn k x hk] at hig'
      cases hig'

theorem Merges.connectModules (h : Merges G) (lim : Limits) (m : ModId) (i : Nat) (n : ModId)
    (j : Nat) : Merges (connectModules lim G m i n j).2 := by
  unfold Graph.connectModules
  split
  · exact h
  split
  · exact h
  cases hact : isActiveGate (G m).ogates i with
  | true => simpa [connectGate, hact] using h
  | false =>
    intro k x ig hig
    rw [connectGate_igate hact] at hig
    split at hig
    · cases hig
      simp [IGate.Merges, IGate.pushOgate]
    · exact h k x ig hig

/-- No igate that stays is brought from several upstream ogates down to one. -/
def Spares (lim : Limits) (G : Gates) : Request → Prop
  | .connectModules _ _ _ _ => True
  | .disconnectModule m i => i < lim.numOGates m →
      ∀ k x ig, igate G k x = some ig → ¬ LeavesOne (fun og => og == (m, i)) ig
  | .destroyModule m =>
      ∀ k x ig, k ≠ m → igate G k x = some ig → ¬ LeavesOne (fun og => og.1 == m) ig

theorem Merges.request_iff (h : Merges G) (hc : Consistent G) (lim : Limits) (e : Request) :
    Merges (e.run lim G) ↔ Spares lim G e := by
  cases e with
  | connectModules m i n j => exact iff_of_true (h.connectModules lim m i n j) trivial
  | disconnectModule m i =>
    unfold Request.run Spares Graph.disconnectModule
    by_cases hi : i < lim.numOGates m
    · simp only [ge_iff_le, Nat.not_le.mpr hi, ↓reduceIte, hi, true_implies]
      have hiff := h.of_strip (s := fun _ _ => True)
        (fun k x _ => hc.igate_disconnectGate m i k x) (by simp)
      simpa using hiff
    · simp only [ge_iff_le, Nat.not_lt.mp hi, ↓reduceIte, hi, false_implies, iff_true]
      exact h
  | destroyModule m =>
    obtain ⟨-, hI, -⟩ := hc.destroyModule_spec m
    simp only [Request.run, Spares]
    exact h.of_strip (s := fun k _ => k ≠ m) (fun k x hk => by rw [hI, if_neg hk])
      fun k x hk => by rw [hI, if_pos (not_not.mp hk)]

/-- The gate graph as the modules rely on it. -/
structure Sound (G : Gates) : Prop where
  listed : ∀ m i og, ogate G m i = some og →
    ∃ ig, igate G og.next og.igateIdx = some ig ∧ ig.ogatesUpstream.count (m, i) = 1
  back : ∀ n j ig m i, igate G n j = some ig → (m, i) ∈ ig.ogatesUpstream →
    ogate G m i = some ⟨n, j⟩
  exist : ∀ n j, (igate G n j).isSome ↔ ∃ m i, ogate G m i = some ⟨n, j⟩
  merges : Merges G

theorem Consistent.sound_iff (h : Consistent G) : Sound G ↔ Merges G := by
  refine ⟨Sound.merges, fun hm => ⟨fun m i og hog => ?_, h.back, fun n j => ?_, hm⟩⟩
  · obtain ⟨ig, hig, hin⟩ := h.listed m i og hog
    exact ⟨ig, hig, List.count_eq_one_of_mem (h.nodup _ _ ig hig) hin⟩
  · constructor
    · intro hs
      obtain ⟨ig, hig⟩ := Option.isSome_iff_exists.mp hs
      obtain ⟨og, hin⟩ := List.exists_mem_of_ne_nil _ (h.nonempty n j ig hig)
      exact ⟨og.1, og.2, h.back n j ig og.1 og.2 hig hin⟩
    · rintro ⟨m, i, hog⟩
      obtain ⟨ig, hig, -⟩ := h.listed m i _ hog
      exact Option.isSome_iff_exists.mpr ⟨ig, hig⟩

/-- The gate graph is sound all along a sequence of requests iff no request brings an igate from
several upstream ogates down to one. -/
theorem gate_graph_sound_iff_spares (lim : Limits) (es : List Request) :
    (∀ pre, pre <+: es → Sound (runRequests lim pre)) ↔
      ∀ pre e, pre ++ [e] <+: es → Spares lim (runRequests lim pre) e := by
  have hstep : ∀ pre e, Sound (runRequests lim pre) →
      (Sound (runRequests lim (pre ++ [e])) ↔ Spares lim (runRequests lim pre) e) :=
    fun pre e h => by
      have hc := consistent_runRequests lim pre
      rw [(consistent_runRequests lim _).sound_iff, runRequests_concat]
      exact (hc.sound_iff.mp h).request_iff hc lim e
  constructor
  · intro h pre e hpre
    exact (hstep pre e (h pre ((List.prefix_append _ _).trans hpre))).mp (h _ hpre)
  · intro h pre
    induction pre using List.reverseRecOn with
    | nil =>
      intro _
      refine consistent_empty.sound_iff.mpr fun k x ig hig => ?_
      simp [igate, gateAt, Gates.empty] at hig
    | append_singleton pre e ih =>
      intro hpre
      exact (hstep pre e (ih ((List.prefix_append _ _).trans hpre))).mpr (h pre e hpre)

/-- Two modules lead to one igate, then the second is disconnected. -/
def joinAndPart : List Request :=
  [.connectModules 0 0 2 0, .connectModules 1 0 2 0, .disconnectModule 1 0]

theorem parted_igate_stays_mergeable :
    igate (runRequests ⟨fun _ => 1, fun _ => 1⟩ joinAndPart) 2 0 = some ⟨[(0, 0)], true⟩ ∧
    ¬ Sound (runRequests ⟨fun _ => 1, fun _ => 1⟩ joinAndPart) := by
  have hig : igate (runRequests ⟨fun _ => 1, fun _ => 1⟩ joinAndPart) 2 0 =
      some ⟨[(0, 0)], true⟩ := by decide
  refine ⟨hig, fun h => ?_⟩
  have := (h.merges 2 0 _ hig).mp rfl
  simp at this

end Bess.Graph
