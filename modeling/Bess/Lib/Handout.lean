import Mathlib.Data.List.Nodup
import Mathlib.Logic.Function.Basic
import Mathlib.Data.List.Perm.Subperm

/-!
# Handing out resources

Resources are free or held, each by one holder. The rules say that this stays so when a resource is
handed out or comes back, and that the free ones do not run out while there are no more takers than
resources.
-/

namespace Bess.Handout

variable {R ι : Type}

/-- The resources of `all` are those in `free` and those that are held, each in one place. -/
structure Split (all free : List R) (held : ι → Option R) : Prop where
  freeNodup : free.Nodup
  mem : ∀ r, r ∈ all ↔ r ∈ free ∨ ∃ i, held i = some r
  apart : ∀ r i, r ∈ free → held i ≠ some r
  inj : ∀ i j r, held i = some r → held j = some r → i = j

variable {all free : List R} {held : ι → Option R} {i : ι} {r : R}

theorem split_of_free (hnodup : all.Nodup) (hheld : ∀ i, held i = none) : Split all all held where
  freeNodup := hnodup
  mem r := by simp [hheld]
  apart r i _ := by simp [hheld]
  inj i j r hi := by simp [hheld] at hi

/-- If all holders are takers, and one taker holds nothing, something is free. -/
theorem Split.exists_free (h : Split all free held) (hall : all.Nodup) (takers : List ι)
    (hlen : takers.length ≤ all.length) (hholders : ∀ j, held j ≠ none → j ∈ takers)
    (hi : i ∈ takers) (hnone : held i = none) : free ≠ [] := by
  rintro rfl
  have : Nonempty ι := ⟨i⟩
  have hheld : ∀ r ∈ all, ∃ j, held j = some r := fun r hr => by simpa using (h.mem r).mp hr
  choose! holder hholder using hheld
  -- the holders of all resources and `i` are too many
  have hnodup : (i :: all.map holder).Nodup := by
    rw [List.nodup_cons]
    refine ⟨fun hm => ?_, ?_⟩
    · obtain ⟨r, hr, rfl⟩ := List.mem_map.mp hm
      rw [hholder r hr] at hnone
      cases hnone
    · refine (List.nodup_map_iff_inj_on hall).mpr fun r hr s hs he => ?_
      have hs' := hholder s hs
      rw [← he, hholder r hr] at hs'
      exact Option.some.inj hs'
  have hsub : (i :: all.map holder) ⊆ takers := by
    refine List.cons_subset.mpr ⟨hi, fun j hj => ?_⟩
    obtain ⟨r, hr, rfl⟩ := List.mem_map.mp hj
    exact hholders _ (by rw [hholder r hr]; exact Option.some_ne_none r)
  have hle := (hnodup.subperm hsub).length_le
  rw [List.length_cons, List.length_map] at hle
  omega

variable [DecidableEq ι]

theorem update_none_eq_some {j : ι} {x : R} :
    Function.update held i none j = some x ↔ j ≠ i ∧ held j = some x := by
  by_cases hji : j = i
  · simp [hji]
  · simp [hji]

theorem update_some_eq_some {j : ι} {x : R} :
    Function.update held i (some r) j = some x ↔ j = i ∧ r = x ∨ j ≠ i ∧ held j = some x := by
  by_cases hji : j = i
  · simp [hji]
  · simp [hji]

theorem Split.release (h : Split all free held) (hi : held i = some r) :
    Split all (free ++ [r]) (Function.update held i none) := by
  refine ⟨?_, fun x => ?_, fun x j hx hj => ?_, fun j k x hj hk => ?_⟩
  · rw [List.nodup_append]
    refine ⟨h.freeNodup, List.nodup_singleton r, ?_⟩
    rintro x hx y hy rfl
    rw [List.mem_singleton] at hy
    exact h.apart x i hx (hy ▸ hi)
  · rw [h.mem x, List.mem_append, List.mem_singleton]
    simp only [update_none_eq_some]
    constructor
    · rintro (hx | ⟨j, hj⟩)
      · exact .inl (.inl hx)
      · by_cases hji : j = i
        · subst hji
          exact .inl (.inr (Option.some.inj (hj.symm.trans hi)))
        · exact .inr ⟨j, hji, hj⟩
    · rintro ((hx | rfl) | ⟨j, -, hj⟩)
      · exact .inl hx
      · exact .inr ⟨i, hi⟩
      · exact .inr ⟨j, hj⟩
  · obtain ⟨hji, hj⟩ := update_none_eq_some.mp hj
    rcases List.mem_append.mp hx with hx | hx
    · exact h.apart x j hx hj
    · rw [List.mem_singleton.mp hx] at hj
      exact hji (h.inj j i r hj hi)
  · obtain ⟨-, hj⟩ := update_none_eq_some.mp hj
    obtain ⟨-, hk⟩ := update_none_eq_some.mp hk
    exact h.inj j k x hj hk

theorem Split.acquire (h : Split all (free ++ [r]) held) (hi : held i = none) :
    Split all free (Function.update held i (some r)) := by
  have hnodup := List.nodup_append.mp h.freeNodup
  have hr : r ∈ free ++ [r] := List.mem_append_right _ (List.mem_singleton_self r)
  have hfree : ∀ x ∈ free, x ≠ r := fun x hx => hnodup.2.2 x hx r (List.mem_singleton_self r)
  refine ⟨hnodup.1, fun x => ?_, fun x j hx hj => ?_, fun j k x hj hk => ?_⟩
  · rw [h.mem x, List.mem_append, List.mem_singleton]
    simp only [update_some_eq_some]
    constructor
    · rintro ((hx | rfl) | ⟨j, hj⟩)
      · exact .inl hx
      · exact .inr ⟨i, .inl ⟨rfl, rfl⟩⟩
      · refine .inr ⟨j, .inr ⟨?_, hj⟩⟩
        rintro rfl
        rw [hi] at hj
        cases hj
    · rintro (hx | ⟨j, ⟨-, rfl⟩ | ⟨-, hj⟩⟩)
      · exact .inl (.inl hx)
      · exact .inl (.inr rfl)
      · exact .inr ⟨j, hj⟩
  · rcases update_some_eq_some.mp hj with ⟨-, rfl⟩ | ⟨-, hj⟩
    · exact hfree r hx rfl
    · exact h.apart x j (List.mem_append_left _ hx) hj
  · -- the new holder is the only one of `r`, which was free
    have hnew : ∀ l, held l ≠ some r := fun l => h.apart r l hr
    rcases update_some_eq_some.mp hj with ⟨hji, hjr⟩ | ⟨-, hj⟩
    · rcases update_some_eq_some.mp hk with ⟨hki, -⟩ | ⟨-, hk⟩
      · exact hji.trans hki.symm
      · exact absurd (hjr ▸ hk) (hnew k)
    · rcases update_some_eq_some.mp hk with ⟨-, hkr⟩ | ⟨-, hk⟩
      · exact absurd (hkr ▸ hj) (hnew j)
      · exact h.inj j k x hj hk

end Bess.Handout
