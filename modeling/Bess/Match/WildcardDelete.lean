import Bess.Match.WildcardConfig

/-!
# Deleting a wildcard rule

`Remove` returns whether the key was there, and `DelEntry` takes this for an error number. So a tuple
whose last rule is deleted stays, and a rule that is not there is deleted with success if another one
has its masks.
-/

namespace Bess.Match.Wildcard

open Bess.ByteMem Bess.Cuckoo Bess.AssocMap

variable {hash : List Byte → BitVec 64} {s s' : State} {R : Installed} {ps given : Pairs} {idx : Nat}
  {values masks : List FieldData}

/-- What a delete command should do: report whether the rule was installed, remove it and no other,
and leave no tuple without rules. -/
structure DeleteRight (hash : List Byte → BitVec 64) (R : Installed) (ps : Pairs) (err : Error)
    (s' : State) : Prop where
  reply : err = success ↔ R ps ≠ none
  rules : Holds hash s' (Function.update R ps none)
  tuples : ∀ tuple ∈ s'.tuples, tuple.2.count ≠ 0

/-- The rule is installed if there is a tuple for its masks, and is not the only one there; and the
other tuples have rules. -/
def Deletable (hash : List Byte → BitVec 64) (s : State) (R : Installed) (ps : Pairs) : Prop :=
  ∀ i tuple, s.tuples[i]? = some tuple →
    if findTuple hash s (maskOf s.fields ps) = some i then R ps ≠ none ∧ 2 ≤ tuple.2.count
    else tuple.2.count ≠ 0

theorem count_remove {H : Hashing Mem} {ht : CuckooMap Mem WmData} (h : CuckooMap.Rep H ht) {key : Mem}
    (hfound : (ht.remove H key).1 = true) : (ht.remove H key).2.count + 1 = ht.count := by
  obtain ⟨hrep, hiff, hperm⟩ := h.remove_spec key
  rw [hfound, eq_comm] at hiff
  obtain ⟨i, hi⟩ : ∃ i, ht.contents.findIdx? (fun e => H.eq e.1 key) = some i := by
    rw [← Option.isSome_iff_exists, List.findIdx?_isSome, List.any_eq_true, ← List.find?_isSome]
    exact hiff
  obtain ⟨e, hget, -, herase, -⟩ := h.distinct.findIdx?_spec hi
  have hlt : i < ht.contents.length := (List.getElem?_eq_some_iff.mp hget).1
  have hlen := hperm.length_eq
  rw [← herase, List.length_eraseIdx_of_lt hlt, hrep.length_contents, h.length_contents] at hlen
  rw [h.length_contents] at hlt
  simp only [CuckooMap.count] at *
  omega

theorem Holds.remove_iff (h : Holds hash s R) (hps : Fits s.fields ps) {e : WmTuple}
    (hfind : AssocMap.find (s.hashing hash).toKeyEq s.tuples (maskOf s.fields ps) = some e) :
    (e.2.remove (s.hashing hash) (valueKey s.fields ps)).1 = true ↔ R ps ≠ none := by
  have hrep := h.rep e (mem_of_find hfind).1
  have hlook := h.look ps hps
  rw [lookIn_of_find hfind, hrep.look_eq] at hlook
  have hsome := congrArg Option.isSome hlook
  simp only [Option.isSome_map] at hsome
  rw [(hrep.remove_spec _).2.1, hsome, Option.isSome_iff_ne_none]

theorem Holds.not_installed (h : Holds hash s R) (hps : Fits s.fields ps)
    (hnone : findTuple hash s (maskOf s.fields ps) = none) : R ps = none := by
  have hlook := h.look ps hps
  have hfind : AssocMap.find (s.hashing hash).toKeyEq s.tuples (maskOf s.fields ps) = none := by
    rw [AssocMap.find_eq_none]
    simpa [findTuple, List.findIdx?_eq_none_iff] using hnone
  rw [lookIn, hfind] at hlook
  exact Option.map_eq_none_iff.mp hlook.symm

/-- Deleting a rule that its tuple holds replaces the tuple by one without the rule. -/
theorem tuples_delEntry {key : Mem} {e : WmTuple} (hok : s.promised = true)
    (he : s.tuples[idx]? = some e) (htrue : (e.2.remove (s.hashing hash) key).1 = true)
    (hdel : delEntry hash s idx key = some s') :
    s'.tuples = s.tuples.set idx (e.1, (e.2.remove (s.hashing hash) key).2) := by
  unfold Wildcard.delEntry at hdel
  rw [if_neg (by simp [hok]), he] at hdel
  simp only at hdel
  split at hdel
  · rename_i hrem
    cases hdel
    simp [State.setTuple, he, hrem]
  · rename_i hrem
    rw [hrem] at htrue
    cases htrue

theorem forall_mem_set_iff {α : Type} {P : α → Prop} {l : List α} {i : Nat} {a : α}
    (hi : i < l.length) :
    (∀ x ∈ l.set i a, P x) ↔ P a ∧ ∀ j x, i ≠ j → l[j]? = some x → P x := by
  constructor
  · intro h
    refine ⟨h a (List.mem_of_getElem? (List.getElem?_set_self hi)), fun j x hj hx => ?_⟩
    exact h x (List.mem_of_getElem? ((List.getElem?_set_ne hj).trans hx))
  · rintro ⟨ha, hother⟩ x hx
    obtain ⟨j, hj⟩ := List.mem_iff_getElem?.mp hx
    by_cases hij : i = j
    · subst hij
      rw [List.getElem?_set_self hi] at hj
      cases hj
      exact ha
    · rw [List.getElem?_set_ne hij] at hj
      exact hother j x hij hj

theorem Holds.deleteRight_iff (h : Holds hash s R) (hok : s.tuples ≠ [] → s.promised = true)
    (hgiven : extractKeyMask s values masks = some (.ok given)) (hfit : fittedPairs s.fields given = ps) :
    (∃ err s', commandDelete hash s values masks = some (err, s') ∧ DeleteRight hash R ps err s') ↔
      Deletable hash s R ps := by
  obtain ⟨hps, hmaskOf, hvalueKey⟩ := fittedPairs_spec (extractKeyMask_ok hgiven).1
  rw [hfit] at hps hmaskOf hvalueKey
  simp only [commandDelete, hgiven, ← hmaskOf, ← hvalueKey]
  cases hidx : findTuple hash s (maskOf s.fields ps) with
  | none =>
    have hnone := h.not_installed hps hidx
    have hsame : Function.update R ps none = R := by
      rw [← hnone, Function.update_eq_self]
    simp only [Deletable, hidx, reduceCtorEq, if_false, Option.some.injEq, Prod.mk.injEq]
    constructor
    · rintro ⟨_, _, ⟨rfl, rfl⟩, hright⟩ i tuple ht
      exact hright.tuples tuple (List.mem_of_getElem? ht)
    · intro hall
      refine ⟨_, _, ⟨rfl, rfl⟩, ?_, ?_, fun tuple ht => ?_⟩
      · simp [hnone, success, enoent]
      · rw [hsame]
        exact h
      · obtain ⟨i, hi⟩ := List.mem_iff_getElem?.mp ht
        exact hall i tuple hi
  | some idx =>
    obtain ⟨e, he, hfind, -⟩ := h.distinct.findIdx?_spec hidx
    have hok := hok (List.ne_nil_of_mem (List.mem_of_getElem? he))
    obtain ⟨s', hdel, -, hholds⟩ := h.delEntry hok hps hidx
    have hrep := h.rep e (mem_of_find hfind).1
    have hfound := h.remove_iff hps hfind
    simp only [hdel, Option.map_some, Option.some.injEq, Prod.mk.injEq, Deletable, hidx]
    by_cases hinst : R ps = none
    · -- success is reported for a rule that is not there
      refine iff_of_false ?_ fun hall => ?_
      · rintro ⟨_, _, ⟨rfl, rfl⟩, hright⟩
        exact hright.reply.mp rfl hinst
      · have := hall idx e he
        rw [if_pos rfl] at this
        exact this.1 hinst
    · have htrue := hfound.mpr hinst
      have hcount := count_remove hrep htrue
      have hs' : s'.tuples = s.tuples.set idx
          (e.1, (e.2.remove (s.hashing hash) (valueKey s.fields ps)).2) :=
        tuples_delEntry hok he htrue hdel
      have hlt := (List.getElem?_eq_some_iff.mp he).1
      have hall : (∀ tuple ∈ s'.tuples, tuple.2.count ≠ 0) ↔ 2 ≤ e.2.count ∧
          ∀ i tuple, idx ≠ i → s.tuples[i]? = some tuple → tuple.2.count ≠ 0 := by
        rw [hs', forall_mem_set_iff hlt]
        refine and_congr_left fun _ => ?_
        simp only
        omega
      constructor
      · rintro ⟨_, _, ⟨rfl, rfl⟩, hright⟩ i tuple ht
        obtain ⟨htwo, hother⟩ := hall.mp hright.tuples
        split
        · rename_i hi
          cases hi
          cases he.symm.trans ht
          exact ⟨hinst, htwo⟩
        · rename_i hi
          exact hother i tuple hi ht
      · intro hdeletable
        refine ⟨_, _, ⟨rfl, rfl⟩, by simp [hinst], hholds, hall.mpr ⟨?_, fun i tuple hi ht => ?_⟩⟩
        · have := hdeletable idx e he
          rw [if_pos rfl] at this
          exact this.2
        · have := hdeletable i tuple ht
          rwa [if_neg hi] at this

/-- For every state that commands lead to, with the rules `R`, and every rule that a command gives: it
is deleted as it should be iff it is installed together with another rule of the same masks, or there
is no tuple for its masks; and all other tuples have rules. -/
theorem delete_right_iff {args : List FieldArg} {s₀ : State} (hinit : init args = .ok s₀)
    (hs : Steps hash s₀ s) :
    ∃ R, Holds hash s R ∧ ∀ values masks ps, extractKeyMask s values masks = some (.ok ps) →
      ((∃ err s', commandDelete hash s values masks = some (err, s') ∧
          DeleteRight hash R (fittedPairs s.fields ps) err s') ↔
        Deletable hash s R (fittedPairs s.fields ps)) := by
  obtain ⟨h, -⟩ := (sound_init hinit).steps hs
  obtain ⟨R, hR⟩ := h.holds
  exact ⟨R, hR, fun values masks ps hgiven => hR.deleteRight_iff h.promised hgiven rfl⟩

/-- One of two rules of a mask is deleted. -/
theorem one_of_two_deleted : ∃ R err s', Holds crcKey twoRules R ∧ R [(0, 0xFF)] ≠ none ∧
    commandDelete crcKey twoRules [.valueInt 0] [.valueInt 0xFF] = some (err, s') ∧
      DeleteRight crcKey R [(0, 0xFF)] err s' := by
  have hinit : init oneByteArgs = .ok oneByte := rfl
  obtain ⟨R, hR, hiff⟩ := delete_right_iff hinit (steps_zeroModule.trans steps_twoRules)
  have hgiven : extractKeyMask twoRules [.valueInt 0] [.valueInt 0xFF] = some (.ok [(0, 0xFF)]) := by
    decide +kernel
  have hfits : Fits twoRules.fields [(0, 0xFF)] := by
    unfold Fits FitsAll
    decide +kernel
  have hthere : R [(0, 0xFF)] ≠ none := by
    have hlook := congrArg Option.isSome (hR.look _ hfits)
    rw [Option.isSome_map, show (lookIn _ twoRules.tuples _ _).isSome = true by decide +kernel] at hlook
    exact Option.isSome_iff_ne_none.mp hlook.symm
  have hcounts : twoRules.tuples.map (fun tuple => tuple.2.count) = [2] := by decide +kernel
  have hdeletable : Deletable crcKey twoRules R [(0, 0xFF)] := by
    intro i tuple ht
    have hcount : tuple.2.count = 2 :=
      List.mem_singleton.mp (hcounts ▸ List.mem_map_of_mem (List.mem_of_getElem? ht))
    split
    · exact ⟨hthere, hcount.ge⟩
    · rw [hcount]
      decide
  have hdel := hiff _ _ _ hgiven
  rw [fittedPairs_of_fits hfits] at hdel
  obtain ⟨err, s', hdone, hright⟩ := hdel.mpr hdeletable
  exact ⟨R, err, s', hR, hthere, hdone, hright⟩

/-- A rule that is not there is deleted with success; and when the only rule is deleted, its tuple
stays. -/
theorem delete_wrong :
    (commandDelete crcKey zeroModule [.valueInt 1] [.valueInt 0xFF]).map (fun r => r.1) = some success ∧
      (commandDelete crcKey zeroModule [.valueInt 0] [.valueInt 0xFF]).map
        (fun r => (r.1, r.2.tuples.map fun tuple => tuple.2.count)) = some (success, [0]) := by
  decide +kernel

end Bess.Match.Wildcard
