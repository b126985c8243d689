import Bess.Cuckoo.Space

/-!
# When an insertion succeeds

`Insert` tries to add a new key three times, and rebuilds the table with twice the buckets in
between. It gives up iff there is no room for the key in the table, nor in it after one rebuild, nor
after two: no free slot in its two buckets, and no chain of displacements out of them that
`MakeSpace` finds.
-/

namespace Bess.Cuckoo.CuckooMap

open Bess.AssocMap

variable {K V : Type} [Inhabited K] [Inhabited V] {H : Hashing K} {m m' : CuckooMap K V} {key : K}

/-- One of the two buckets of the key has a free slot, or a chain of displacements out of it that
`MakeSpace` finds. -/
def Room (H : Hashing K) (m : CuckooMap K V) (key : K) : Prop :=
  ∃ b, m.Home (H.hash key) b ∧ (¬ m.Full b ∨ Chain H m (InPrimary H m) kMaxCuckooPath b)

/-- The table after `ExpandBuckets`. -/
def rebuilt (H : Hashing K) (m : CuckooMap K V) : CuckooMap K V :=
  (expandBuckets (insertN H m.numEntries) m).getD m

/-- The key is in the table, or there is room for it after at most two rebuilds. -/
def Takes (H : Hashing K) (m : CuckooMap K V) (key : K) : Prop :=
  (m.find H key).isSome = true ∨ Room H m key ∨ Room H (rebuilt H m) key ∨
    Room H (rebuilt H (rebuilt H m)) key

theorem Rep.hasSpace_iff (h : Rep H m) : HasSpace H m key ↔ Room H m key := by
  refine exists_congr fun b => and_congr_right fun _ => ?_
  by_cases hfull : m.Full b
  · rw [h.makeSpace_isSome_iff kMaxCuckooPath hfull]
  · exact iff_of_true (.inl hfull) (.inl hfull)

theorem Rep.addEntry_room (h : Rep H m) (key : K) (value : V) :
    ∃ r m', addEntry H key value 2 m = some (r, m') ∧ (r.isSome = true ↔ Room H m key) ∧
      (r = none → m' = m) := by
  obtain ⟨r, m', he, hiff, hnone⟩ := h.addEntry_hasSpace key value 0
  exact ⟨r, m', he, hiff.trans h.hasSpace_iff, hnone⟩

theorem Rep.expandBuckets_eq (h : Rep H m) :
    expandBuckets (insertN H m.numEntries) m = some (rebuilt H m) ∧ Rep H (rebuilt H m) ∧
      (rebuilt H m).numEntries = m.numEntries := by
  obtain ⟨m', he, h', hc⟩ := h.expandBuckets_spec (insertN_spec m.numEntries) (Nat.le_refl _)
  have hr : rebuilt H m = m' := by
    rw [rebuilt, he]
    rfl
  rw [hr]
  refine ⟨he, h', ?_⟩
  rw [← h'.length_contents, ← h.length_contents, hc.length_eq]

theorem Rep.addOrExpand_room (h : Rep H m) (key : K) (value : V) :
    ∃ r m', addOrExpand H (insertN H m.numEntries) key value 3 m = some (r, m') ∧
      (r.isSome = true ↔ Room H m key ∨ Room H (rebuilt H m) key ∨
        Room H (rebuilt H (rebuilt H m)) key) := by
  obtain ⟨he1, h1, hn1⟩ := h.expandBuckets_eq
  obtain ⟨he2, h2, -⟩ := h1.expandBuckets_eq
  rw [hn1] at he2
  obtain ⟨r, m', ha, hroom, hsame⟩ := h.addEntry_room key value
  cases r with
  | some j => exact ⟨some j, m', by simp [addOrExpand, ha], iff_of_true rfl (.inl (hroom.mp rfl))⟩
  | none =>
    obtain rfl := hsame rfl
    have hno : ¬ Room H m' key := fun hc => by cases hroom.mpr hc
    obtain ⟨r, m₁, ha1, hroom1, hsame1⟩ := h1.addEntry_room key value
    cases r with
    | some j =>
      exact ⟨some j, m₁, by simp [addOrExpand, ha, he1, ha1],
        iff_of_true rfl (.inr (.inl (hroom1.mp rfl)))⟩
    | none =>
      obtain rfl := hsame1 rfl
      have hno1 : ¬ Room H (rebuilt H m') key := fun hc => by cases hroom1.mpr hc
      obtain ⟨r, m₂, ha2, hroom2, -⟩ := h2.addEntry_room key value
      refine ⟨r, m₂, ?_, ?_⟩
      · cases r with
        | some j => simp [addOrExpand, ha, he1, ha1, he2, ha2]
        | none => simp [addOrExpand, ha, he1, ha1, he2, ha2]
      · rw [hroom2, or_iff_right hno, or_iff_right hno1]

theorem Rep.insert_isSome_iff (h : Rep H m) (key : K) (value : V) {r : Option Nat}
    (hr : m.insert H key value = some (r, m')) : r.isSome = true ↔ Takes H m key := by
  unfold CuckooMap.insert insertN at hr
  unfold Takes CuckooMap.find
  cases hf : findWithHash H m (H.hash key) key with
  | some idx =>
    rw [hf] at hr
    cases hr
    exact iff_of_true rfl (.inl rfl)
  | none =>
    rw [hf] at hr
    obtain ⟨r', m'', hadd, hiff⟩ := h.addOrExpand_room key value
    rw [hadd] at hr
    cases hr
    rw [hiff]
    simp

theorem room_new (H : Hashing K) (b e : Nat) (key : K) : Room H (new b e : CuckooMap K V) key := by
  refine ⟨_, .inl rfl, .inl fun hfull => ?_⟩
  have hocc := hfull 0
  simp [Occ, slotAt_new, Slot.empty] at hocc

end Bess.Cuckoo.CuckooMap
