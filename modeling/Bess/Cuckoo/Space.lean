import Bess.Cuckoo.Invariant

/-!
# Making space in a bucket

`MakeSpace` either changes nothing or empties a slot of the bucket by moving entries between their
own buckets; then the next round of `AddEntry` finds the slot.

Which chains of displacements it finds is another matter. Slots hold the primary hash of a key
wherever the entry lies, so `altIndex` takes every entry to be in its primary bucket. For an entry
that lies in its secondary bucket the alternative is that same bucket. Only chains that displace
entries from their primary buckets are found (`makeSpace_isSome_iff`).
-/

namespace Bess.Cuckoo

open Bess.AssocMap

variable {K V : Type} [Inhabited K] [Inhabited V] {H : Hashing K}

namespace CuckooMap

variable {m m' : CuckooMap K V} {p : Pos} {b : Nat} {i : Fin kEntriesPerBucket}

instance (m : CuckooMap K V) (b : Nat) : Decidable (m.Full b) :=
  inferInstanceAs (Decidable (∀ i, m.Occ (b, i)))

/-! ## What is moved -/

theorem Rep.stored_eq (h : Rep H m) :
    m.stored = m.usedIdxs.map fun i => (H.hash (m.entryAt i).1, i) := by
  unfold stored usedIdxs
  rw [List.map_map]
  apply List.map_congr_left
  intro p hp
  rw [Function.comp_apply, h.hash p (mem_occupied.mp hp)]

theorem Emptied.stored_perm (h : Rep H m) (he : Emptied H m m' p) : m'.stored.Perm m.stored := by
  have hlive : m'.liveIdxs = m.liveIdxs := by
    unfold liveIdxs
    rw [he.same.entries, he.same.free]
  have hent : m'.entryAt = m.entryAt := funext he.same.entryAt
  have hused : m'.usedIdxs.Perm m.usedIdxs :=
    he.rep.usedIdxs_perm.trans (hlive ▸ h.usedIdxs_perm.symm)
  rw [h.stored_eq, he.rep.stored_eq, hent]
  exact hused.map _

theorem Rep.makeSpace_emptied (h : Rep H m) (hfull : m.Full b) {n : Nat} (hn : n ≤ kMaxCuckooPath)
    (hr : makeSpace H n m b = (some i, m')) : Emptied H m m' (b, i) := by
  unfold kMaxCuckooPath at hn
  obtain rfl | rfl | rfl | rfl : n = 0 ∨ n = 1 ∨ n = 2 ∨ n = 3 := by omega
  · cases hr
  · exact (makeSpace_one h hfull hr).1
  · exact (makeSpace_two h hfull hr).1
  · exact makeSpace_three h hfull hr

/-! ## The rounds of `AddEntry` -/

section Rounds

variable {key : K} {value : V}

theorem addToBucket_of_full (hfull : m.Full b) :
    m.addToBucket H b key value = some (none, m) := by
  unfold addToBucket
  split
  · rfl
  · rename_i s hs
    exact absurd (hfull s) (findEmptySlot_eq_some hs)

theorem addToBucket_of_not_full (hfull : ¬ m.Full b) (key : K) (value : V) :
    m.addToBucket H b key value = none ∨
      ∃ j m', m.addToBucket H b key value = some (some j, m') := by
  unfold addToBucket
  split
  · rename_i hs
    exact absurd (findEmptySlot_eq_none hs) hfull
  · cases hp : m.popFreeEntryIndex with
    | none => exact .inl rfl
    | some r => exact .inr ⟨_, _, rfl⟩

theorem Rep.addToBucket_of_not_full (h : Rep H m) (hfull : ¬ m.Full b) (key : K) (value : V) :
    ∃ j m', m.addToBucket H b key value = some (some j, m') := by
  obtain ⟨m₁, j, rest, hpop, -⟩ := h.popFreeEntryIndex
  unfold addToBucket
  split
  · rename_i hs
    exact absurd (findEmptySlot_eq_none hs) hfull
  · rw [hpop]
    exact ⟨_, _, rfl⟩

theorem addEntry_of_not_full (n : Nat) (hfull : ¬ m.Full (m.bucketOf (H.hash key))) :
    addEntry H key value (n + 1) m = m.addToBucket H (m.bucketOf (H.hash key)) key value := by
  unfold addEntry
  rcases addToBucket_of_not_full (H := H) hfull key value with he | ⟨j, m', he⟩
  · simp [he]
  · simp [he]

theorem Rep.addEntry_of_free (h : Rep H m)
    (hs : ¬ m.Full (m.bucketOf (H.hash key)) ∨ ¬ m.Full (m.bucketOf (hashSecondary (H.hash key))))
    (n : Nat) : ∃ j m', addEntry H key value (n + 1) m = some (some j, m') := by
  by_cases hf : m.Full (m.bucketOf (H.hash key))
  · obtain ⟨j, m', he⟩ :=
      h.addToBucket_of_not_full (hs.resolve_left fun hn => hn hf) key value
    exact ⟨j, m', by simp [addEntry, addToBucket_of_full hf, he]⟩
  · obtain ⟨j, m', he⟩ := h.addToBucket_of_not_full hf key value
    exact ⟨j, m', by rw [addEntry_of_not_full n hf, he]⟩

/-- One of the buckets of the key has a free slot, or one can be made. -/
def HasSpace (H : Hashing K) (m : CuckooMap K V) (key : K) : Prop :=
  ∃ b, m.Home (H.hash key) b ∧
    (¬ m.Full b ∨ (makeSpace H kMaxCuckooPath m b).1.isSome = true)

/-- Space that was made is there in the next round. -/
theorem Rep.addEntry_hasSpace (h : Rep H m) (key : K) (value : V) (n : Nat) :
    ∃ r m', addEntry H key value (n + 2) m = some (r, m') ∧
      (r.isSome = true ↔ HasSpace H m key) ∧ (r = none → m' = m) := by
  by_cases hs : ¬ m.Full (m.bucketOf (H.hash key)) ∨
      ¬ m.Full (m.bucketOf (hashSecondary (H.hash key)))
  · obtain ⟨j, m', he⟩ := h.addEntry_of_free hs (n + 1)
    refine ⟨some j, m', he, iff_of_true rfl ?_, fun hn => by cases hn⟩
    rcases hs with hs | hs
    · exact ⟨_, .inl rfl, .inl hs⟩
    · exact ⟨_, .inr rfl, .inl hs⟩
  obtain ⟨hf, hf'⟩ : m.Full (m.bucketOf (H.hash key)) ∧
      m.Full (m.bucketOf (hashSecondary (H.hash key))) := by
    rw [not_or, not_not, not_not] at hs
    exact hs
  have hagain : ∀ b j m₁, m.Home (H.hash key) b → Emptied H m m₁ (b, j) →
      ∃ j m', addEntry H key value (n + 1) m₁ = some (some j, m') := by
    intro b j m₁ hb hem
    apply hem.rep.addEntry_of_free
    rw [hem.same.bucketOf, hem.same.bucketOf]
    rcases hb with rfl | rfl
    · exact .inl fun hfull => hem.empty (hfull j)
    · exact .inr fun hfull => hem.empty (hfull j)
  unfold addEntry
  rcases hm : makeSpace H kMaxCuckooPath m (m.bucketOf (H.hash key)) with ⟨j, m₁⟩
  cases j with
  | some j =>
    obtain ⟨j', m', he⟩ := hagain _ j m₁ (.inl rfl) (h.makeSpace_emptied hf (Nat.le_refl _) hm)
    refine ⟨some j', m', ?_, iff_of_true rfl ⟨_, .inl rfl, .inr (by rw [hm]; rfl)⟩, fun hn => ?_⟩
    · simpa [addToBucket_of_full hf, addToBucket_of_full hf', hm] using he
    · cases hn
  | none =>
    obtain rfl : m₁ = m := by
      have := makeSpace_none (H := H) (m := m) kMaxCuckooPath (m.bucketOf (H.hash key)) (by rw [hm])
      rwa [hm] at this
    rcases hm' : makeSpace H kMaxCuckooPath m₁ (m₁.bucketOf (hashSecondary (H.hash key))) with
      ⟨j, m₂⟩
    cases j with
    | some j =>
      obtain ⟨j', m', he⟩ := hagain _ j m₂ (.inr rfl) (h.makeSpace_emptied hf' (Nat.le_refl _) hm')
      refine ⟨some j', m', ?_, iff_of_true rfl ⟨_, .inr rfl, .inr (by rw [hm']; rfl)⟩, fun hn => ?_⟩
      · simpa [addToBucket_of_full hf, addToBucket_of_full hf', hm, hm'] using he
      · cases hn
    | none =>
      have hsame : m₂ = m₁ := by
        have := makeSpace_none (H := H) (m := m₁) kMaxCuckooPath
          (m₁.bucketOf (hashSecondary (H.hash key))) (by rw [hm'])
        rwa [hm'] at this
      refine ⟨none, m₂, by simp [addToBucket_of_full hf, addToBucket_of_full hf', hm, hm'], ?_,
        fun _ => hsame⟩
      refine iff_of_false (by simp) ?_
      rintro ⟨b, rfl | rfl, hb⟩
      · rw [hm] at hb
        exact hb.elim (fun hn => hn hf) fun hn => by cases hn
      · rw [hm'] at hb
        exact hb.elim (fun hn => hn hf') fun hn => by cases hn

theorem Rep.addEntry_isSome (h : Rep H m) (key : K) (value : V) (n : Nat) :
    (addEntry H key value (n + 2) m).isSome := by
  obtain ⟨r, m', he, -⟩ := h.addEntry_hasSpace key value n
  rw [he]
  rfl

/-- A result that was reached in some number of rounds is reached in more. -/
theorem addEntry_succ {n : Nat} {r : Option Nat × CuckooMap K V}
    (hr : addEntry H key value n m = some r) : addEntry H key value (n + 1) m = some r := by
  induction n generalizing m with
  | zero => cases hr
  | succ n ih =>
    unfold addEntry at hr ⊢
    obtain ⟨⟨e₁, m₁⟩, h₁, hr⟩ := Option.bind_eq_some_iff.mp hr
    simp only [h₁, Option.bind_eq_bind, Option.bind_some] at hr ⊢
    split at hr
    · rename_i he
      rw [if_pos he]
      exact hr
    rename_i he
    rw [if_neg he]
    obtain ⟨⟨e₂, m₂⟩, h₂, hr⟩ := Option.bind_eq_some_iff.mp hr
    simp only [h₂, Option.bind_some] at hr ⊢
    split at hr
    · rename_i he₂
      rw [if_pos he₂]
      exact hr
    rename_i he₂
    rw [if_neg he₂]
    split at hr
    · rename_i hi
      rw [if_pos hi]
      exact ih hr
    rename_i hi
    rw [if_neg hi]
    split at hr
    · rename_i hi'
      rw [if_pos hi']
      exact ih hr
    · rename_i hi'
      rw [if_neg hi']
      exact hr

/-- No state needs a third round. -/
theorem WellFormed.addEntry_eq (h : WellFormed H m) (n : Nat) :
    addEntry H key value (n + 2) m = addEntry H key value 2 m := by
  by_cases hf : m.Full (m.bucketOf (H.hash key))
  · have hrep := h.rep (by have := h.room_of_full hf; omega)
    obtain ⟨r, hr⟩ := Option.isSome_iff_exists.mp (hrep.addEntry_isSome key value 0)
    rw [Nat.zero_add] at hr
    rw [hr]
    induction n with
    | zero => exact hr
    | succ n ih => exact addEntry_succ ih
  · rw [addEntry_of_not_full (n + 1) hf, addEntry_of_not_full 1 hf]

end Rounds

/-- `MakeSpace` on a full bucket changes nothing or empties the slot that it returns, by moving
entries between their own buckets; `AddEntry` goes back to its start at most once. -/
theorem makeSpace_frame (H : Hashing K) (m : CuckooMap K V) (h : WellFormed H m) :
    (∀ b depth, m.Full b →
      makeSpace H (kMaxCuckooPath - depth) m b = (none, m) ∨
      ∃ i m', makeSpace H (kMaxCuckooPath - depth) m b = (some i, m') ∧ ¬ m'.Occ (b, i) ∧
        m'.stored.Perm m.stored ∧ m'.entries = m.entries ∧ WellFormed H m') ∧
    ∀ key value, (∀ n, addEntry H key value (n + 2) m = addEntry H key value 2 m) ∧
      (2 ≤ m.entries.length → (addEntry H key value 2 m).isSome) := by
  refine ⟨fun b depth hfull => ?_, fun key value => ⟨h.addEntry_eq, fun hroom => ?_⟩⟩
  · have hrep := h.rep (by have := h.room_of_full hfull; omega)
    rcases hm : makeSpace H (kMaxCuckooPath - depth) m b with ⟨j, m₁⟩
    cases j with
    | none =>
      have := makeSpace_none (H := H) (m := m) (kMaxCuckooPath - depth) b (by rw [hm])
      rw [hm] at this
      exact .inl (by rw [show m₁ = m from this])
    | some j =>
      have he := hrep.makeSpace_emptied hfull (Nat.sub_le _ _) hm
      exact .inr ⟨j, m₁, rfl, he.empty, he.stored_perm hrep, he.same.entries, he.rep.wellFormed⟩
  · exact (h.rep hroom).addEntry_isSome key value 0

/-- Four keys with primary bucket 1 and secondary bucket 0. -/
def oneFull : List (Op Nat Nat) := [.insert 1 0, .insert 5 0, .insert 9 0, .insert 13 0]

theorem makeSpace_frame_oneFull :
    ∃ os m, run natHashing oneFull (new kInitNumBucket kInitNumEntries) = some (os, m) ∧
      m.Full 1 ∧ ∃ i m', makeSpace natHashing kMaxCuckooPath m 1 = (some i, m') ∧
        ¬ m'.Occ (1, i) ∧ m'.stored.Perm m.stored := by
  have hrun : (run natHashing oneFull (new kInitNumBucket kInitNumEntries)).map (fun r =>
      decide (r.2.Full 1 ∧ (makeSpace natHashing kMaxCuckooPath r.2 1).1 ≠ none)) = some true := by
    decide +kernel
  obtain ⟨⟨os, m⟩, hr, hm⟩ := Option.map_eq_some_iff.mp hrun
  obtain ⟨hfull, hsome⟩ := of_decide_eq_true hm
  obtain ⟨os', m', hr', h⟩ := rep_run natHashing oneFull
  rw [hr] at hr'
  cases hr'
  refine ⟨os, m, hr, hfull, ?_⟩
  rcases (makeSpace_frame natHashing m h.wellFormed).1 1 0 hfull with he | ⟨i, m', he, ho, hs, -⟩
  · exact absurd (congrArg Prod.fst he) hsome
  · exact ⟨i, m', he, ho, hs⟩

/-! ## Chains of displacements -/

/-- The other one of the two buckets of the entry in a slot. -/
def otherBucket (H : Hashing K) (m : CuckooMap K V) (p : Pos) : Nat :=
  let pri := H.hash (m.entryAt (m.slotAt p).idx).1
  if p.1 = m.bucketOf pri then m.bucketOf (hashSecondary pri) else m.bucketOf pri

/-- The entry in a slot lies in its primary bucket. -/
def InPrimary (H : Hashing K) (m : CuckooMap K V) (p : Pos) : Prop :=
  p.1 = m.bucketOf (H.hash (m.entryAt (m.slotAt p).idx).1)

/-- At most `n` displacements of entries in slots with `P`, each to its other bucket, the first out
of bucket `b` and the last into a bucket with a free slot. -/
inductive Chain (H : Hashing K) (m : CuckooMap K V) (P : Pos → Prop) : Nat → Nat → Prop
  | last {n b : Nat} {i : Fin kEntriesPerBucket} (hp : P (b, i))
    (h : ¬ m.Full (m.otherBucket H (b, i))) : Chain H m P (n + 1) b
  | next {n b : Nat} {i : Fin kEntriesPerBucket} (hp : P (b, i))
    (h : Chain H m P n (m.otherBucket H (b, i))) : Chain H m P (n + 1) b

theorem Chain.succ {P : Pos → Prop} {n : Nat} (h : Chain H m P n b) : Chain H m P (n + 1) b := by
  induction h with
  | last hp h => exact .last hp h
  | next hp _ ih => exact .next hp ih

theorem Rep.altIndex_eq (h : Rep H m) (hp : m.Occ p) :
    altIndex H m p = some (m.bucketOf (hashSecondary (H.hash (m.entryAt (m.slotAt p).idx).1))) := by
  unfold altIndex
  exact if_pos (h.hash p hp).symm

theorem InPrimary.otherBucket_eq (h : InPrimary H m p) : m.otherBucket H p =
    m.bucketOf (hashSecondary (H.hash (m.entryAt (m.slotAt p).idx).1)) :=
  if_pos h

/-- The loop succeeds iff one of the slots has a way out. -/
theorem displace_isSome_iff
    {deeper : CuckooMap K V → Nat → Option (Fin kEntriesPerBucket) × CuckooMap K V}
    {alt : Fin kEntriesPerBucket → Nat} {is : List (Fin kEntriesPerBucket)}
    (hd : ∀ c, (deeper m c).1 = none → (deeper m c).2 = m)
    (halt : ∀ i, altIndex H m (b, i) = some (alt i)) :
    (displace H deeper b is m).1.isSome ↔
      ∃ i ∈ is, ¬ m.Full (alt i) ∨ (deeper m (alt i)).1.isSome := by
  induction is with
  | nil => simp [displace]
  | cons i is ih =>
    unfold displace
    rw [halt i]
    cases hf : findEmptySlot (m.bucketAt (alt i)) with
    | some j =>
      have hfull : ¬ m.Full (alt i) := fun hn => findEmptySlot_eq_some hf (hn j)
      simp [hf, hfull]
    | none =>
      have hfull : m.Full (alt i) := findEmptySlot_eq_none hf
      rcases hr : deeper m (alt i) with ⟨r, m₁⟩
      cases r with
      | some j => simp [hf, hr]
      | none =>
        obtain rfl : m₁ = m := by
          have := hd (alt i) (by rw [hr])
          rwa [hr] at this
        simp [hf, hr, hfull, ih]

/-- `MakeSpace` finds exactly the chains that displace entries from their primary buckets. -/
theorem Rep.makeSpace_isSome_iff (h : Rep H m) (n : Nat) (hfull : m.Full b) :
    (makeSpace H n m b).1.isSome ↔ Chain H m (InPrimary H m) n b := by
  induction n generalizing b with
  | zero =>
    refine ⟨fun hs => ?_, fun hc => ?_⟩
    · cases hs
    · cases hc
  | succ n ih =>
    unfold makeSpace
    rw [displace_isSome_iff (fun c => makeSpace_none n c) fun i => h.altIndex_eq (hfull i)]
    constructor
    · rintro ⟨i, -, hi⟩
      by_cases hp : InPrimary H m (b, i)
      · rw [← hp.otherBucket_eq] at hi
        by_cases hf : m.Full (m.otherBucket H (b, i))
        · exact .next hp ((ih hf).mp (hi.resolve_left fun hn => hn hf))
        · exact .last hp hf
      · -- the alternative of an entry in its secondary bucket is that bucket
        have hb : b = m.bucketOf (hashSecondary (H.hash (m.entryAt (m.slotAt (b, i)).idx).1)) := by
          have := h.home _ (hfull i)
          rw [h.hash _ (hfull i)] at this
          exact this.resolve_left hp
        rw [← hb] at hi
        exact ((ih hfull).mp (hi.resolve_left fun hn => hn hfull)).succ
    · intro hc
      cases hc with
      | @last _ _ i hp hf =>
        rw [hp.otherBucket_eq] at hf
        exact ⟨i, mem_slotIdxs i, .inl hf⟩
      | @next _ _ i hp hc =>
        refine ⟨i, mem_slotIdxs i, ?_⟩
        by_cases hf : m.Full (m.otherBucket H (b, i))
        · have := (ih hf).mpr hc
          rw [hp.otherBucket_eq] at this
          exact .inr this
        · rw [hp.otherBucket_eq] at hf
          exact .inl hf

/-- `MakeSpace` succeeds where a chain exists, if the chain can be chosen among the entries that lie
in their primary buckets, and only then. -/
theorem makeSpace_complete_iff (H : Hashing K) (m : CuckooMap K V) (h : WellFormed H m) (b : Nat)
    (hfull : m.Full b) :
    (Chain H m (fun _ => True) kMaxCuckooPath b →
      (makeSpace H kMaxCuckooPath m b).1.isSome = true) ↔
    (Chain H m (fun _ => True) kMaxCuckooPath b →
      Chain H m (InPrimary H m) kMaxCuckooPath b) := by
  have hrep := h.rep (by have := h.room_of_full hfull; omega)
  rw [hrep.makeSpace_isSome_iff kMaxCuckooPath hfull]

/-- Four keys fill bucket 0, the key 4 has to go to its secondary bucket 1, three keys fill that
bucket, and one of the first four is removed. -/
def evicted : List (Op Nat Nat) :=
  [.insert 12288 0, .insert 12292 0, .insert 12296 0, .insert 12300 0, .insert 4 0,
    .insert 12289 0, .insert 12293 0, .insert 12297 0, .remove 12288]

theorem evicted_state :
    ∃ os m, run natHashing evicted (new kInitNumBucket kInitNumEntries) = some (os, m) ∧
      m.Full 1 ∧ ¬ m.Full (m.otherBucket natHashing (1, 0)) ∧
      (makeSpace natHashing kMaxCuckooPath m 1).1 = none := by
  have hrun : (run natHashing evicted (new kInitNumBucket kInitNumEntries)).map (fun r =>
      decide (r.2.Full 1 ∧ ¬ r.2.Full (r.2.otherBucket natHashing (1, 0)) ∧
        (makeSpace natHashing kMaxCuckooPath r.2 1).1 = none)) = some true := by
    decide +kernel
  obtain ⟨⟨os, m⟩, hr, hm⟩ := Option.map_eq_some_iff.mp hrun
  exact ⟨os, m, hr, of_decide_eq_true hm⟩

/-- One displacement would be enough: the key 4 could go back to its primary bucket. -/
theorem makeSpace_misses_chain :
    ∃ os m, run natHashing evicted (new kInitNumBucket kInitNumEntries) = some (os, m) ∧
      m.Full 1 ∧ Chain natHashing m (fun _ => True) kMaxCuckooPath 1 ∧
      (makeSpace natHashing kMaxCuckooPath m 1).1 = none := by
  obtain ⟨os, m, hr, hfull, hfree, hnone⟩ := evicted_state
  exact ⟨os, m, hr, hfull, .last trivial hfree, hnone⟩

theorem evicted_no_primary_chain :
    ∃ os m, run natHashing evicted (new kInitNumBucket kInitNumEntries) = some (os, m) ∧
      m.Full 1 ∧ ¬ Chain natHashing m (InPrimary natHashing m) kMaxCuckooPath 1 := by
  obtain ⟨os, m, hr, hfull, hfree, hnone⟩ := evicted_state
  obtain ⟨os', m', hr', h⟩ := rep_run natHashing evicted
  rw [hr] at hr'
  cases hr'
  refine ⟨os, m, hr, hfull, fun hc => ?_⟩
  have hs := (makeSpace_complete_iff natHashing m h.wellFormed 1 hfull).mpr (fun _ => hc)
    (.last trivial hfree)
  rw [hnone] at hs
  cases hs

end CuckooMap

end Bess.Cuckoo
