import Bess.Cuckoo.Room

/-!
# Keys that are spread over the buckets

As long as no bucket is the primary one of more than four keys, every new key finds a free slot in its
primary bucket, whatever the order of the insertions. So a rebuild of a table whose keys are spread
over twice the buckets goes through, and there is room for one more key in the rebuilt table if the
keys with this one are.
-/

namespace Bess.Cuckoo.CuckooMap

open Bess.AssocMap

variable {K V : Type} {H : Hashing K} {n : Nat}

/-- The primary bucket of a key in a table of `n` buckets. -/
def primaryOf (H : Hashing K) (n : Nat) (key : K) : Nat :=
  (H.hash key &&& BitVec.ofNat 32 (n - 1)).toNat

/-- No bucket of a table of `n` buckets is the primary one of more than four of the keys. -/
def Spread (H : Hashing K) (n : Nat) (keys : List K) : Prop :=
  ∀ b, keys.countP (fun k => primaryOf H n k = b) ≤ kEntriesPerBucket

theorem Spread.perm {ks ks' : List K} (h : Spread H n ks) (hp : ks.Perm ks') : Spread H n ks' :=
  fun b => hp.countP_eq _ ▸ h b

theorem Spread.sublist {ks ks' : List K} (h : Spread H n ks') (hs : ks.Sublist ks') :
    Spread H n ks :=
  fun b => Nat.le_trans hs.countP_le (h b)

variable [Inhabited K] [Inhabited V] {m m' : CuckooMap K V} {key : K} {b i e : Nat}
  {l : List (K × V)}

/-- A table with the entries `l`, each in its primary bucket, and an array of `e` entries. -/
structure Arranged (H : Hashing K) (n e : Nat) (l : List (K × V)) (m : CuckooMap K V) : Prop where
  rep : Rep H m
  primary : ∀ p, m.Occ p → p.1 = m.bucketOf (m.slotAt p).hash
  contents : m.contents.Perm l
  mask : m.bucketMask = BitVec.ofNat 32 (n - 1)
  length : m.buckets.length = n
  entries : m.entries.length = e

theorem Arranged.perm {l' : List (K × V)} (h : Arranged H n e l m) (hp : l.Perm l') :
    Arranged H n e l' m :=
  { h with contents := h.contents.trans hp }

theorem arranged_new (k : Nat) (he : 2 ≤ e) :
    Arranged H (2 ^ k) e [] (new (2 ^ k) e : CuckooMap K V) where
  rep := rep_new he
  primary p hp := absurd (by rw [slotAt_new]; rfl) hp
  contents := contents_new (K := K) (V := V) _ _ ▸ List.Perm.refl _
  mask := rfl
  length := List.length_replicate
  entries := List.length_replicate

theorem Arranged.bucketOf_eq (h : Arranged H n e l m) (k : K) :
    m.bucketOf (H.hash k) = primaryOf H n k := by
  rw [bucketOf, h.mask]
  rfl

/-- A full bucket holds four keys of which it is the primary one. -/
theorem Arranged.four_le_of_full (h : Arranged H n e l m) (hfull : m.Full b) :
    4 ≤ (l.map Prod.fst).countP fun k => primaryOf H n k = b := by
  have hnd : (slotIdxs.map fun s => (m.slotAt (b, s)).idx).Nodup := by
    refine List.Nodup.map_on (fun s _ t _ hst => ?_) (by decide)
    exact congrArg Prod.snd (h.rep.inj _ _ (hfull s) (hfull t) hst)
  have hsub : (slotIdxs.map fun s => (m.slotAt (b, s)).idx) ⊆
      m.liveIdxs.filter fun i => primaryOf H n (m.entryAt i).1 = b := by
    intro i hi
    obtain ⟨s, -, rfl⟩ := List.mem_map.mp hi
    rw [List.mem_filter, mem_liveIdxs, decide_eq_true_eq, ← h.bucketOf_eq, ← h.rep.hash _ (hfull s)]
    exact ⟨h.rep.idx _ (hfull s), (h.primary _ (hfull s)).symm⟩
  rw [← (h.contents.map Prod.fst).countP_eq, CuckooMap.contents, List.map_map, List.countP_map,
    List.countP_eq_length_filter]
  exact (List.subperm_of_subset hnd hsub).length_le

theorem Arranged.not_full (h : Arranged H n e l m) (hs : Spread H n (key :: l.map Prod.fst)) :
    ¬ m.Full (m.bucketOf (H.hash key)) := by
  intro hfull
  rw [h.bucketOf_eq] at hfull
  have h4 := h.four_le_of_full hfull
  have hle := hs (primaryOf H n key)
  rw [List.countP_cons_of_pos (by simp)] at hle
  unfold kEntriesPerBucket at hle
  omega

theorem expandEntries_frame (h : m.expandEntries = some m') :
    m'.bucketMask = m.bucketMask ∧ m'.buckets = m.buckets ∧
      m'.entries.length = m.entries.length + m.entries.length / 2 := by
  unfold expandEntries at h
  simp only at h
  split at h
  · cases h
  · cases h
    refine ⟨rfl, rfl, ?_⟩
    simp only [List.length_append, List.length_replicate]
    omega

theorem popFreeEntryIndex_frame (hp : m.popFreeEntryIndex = some (i, m')) :
    m'.bucketMask = m.bucketMask ∧ m'.buckets = m.buckets ∧
      m'.entries.length = if m.freeEntryIndices = [] then m.entries.length + m.entries.length / 2
        else m.entries.length := by
  cases hfree : m.freeEntryIndices with
  | nil =>
    simp only [popFreeEntryIndex, hfree, List.isEmpty_nil, if_true] at hp
    obtain ⟨m₁, hm₁, hp⟩ := Option.bind_eq_some_iff.mp hp
    have hframe := expandEntries_frame hm₁
    split at hp
    · cases hp
    · cases hp
      exact hframe
  | cons j rest =>
    simp only [popFreeEntryIndex, hfree, List.isEmpty_cons, Bool.false_eq_true, if_false,
      Option.bind_eq_bind, Option.bind_some] at hp
    cases hp
    exact ⟨rfl, rfl, rfl⟩

/-- `AddToBucket` sets one slot of the bucket. -/
theorem addToBucket_frame {value : V} (ha : m.addToBucket H b key value = some (some i, m')) :
    m'.bucketMask = m.bucketMask ∧ m'.buckets.length = m.buckets.length ∧
      m'.entries.length = (if m.freeEntryIndices = [] then m.entries.length + m.entries.length / 2
        else m.entries.length) ∧
      (b < m.buckets.length →
        ∃ s, ∀ p, m'.slotAt p = if p = (b, s) then ⟨H.hash key, i⟩ else m.slotAt p) := by
  unfold CuckooMap.addToBucket at ha
  split at ha
  · cases ha
  · rename_i s _
    obtain ⟨⟨j, m₁⟩, hpop, ha⟩ := Option.bind_eq_some_iff.mp ha
    obtain ⟨hmask, hbuckets, hlen⟩ := popFreeEntryIndex_frame hpop
    cases ha
    refine ⟨hmask, ?_, ?_, fun hb => ⟨s, fun p => ?_⟩⟩
    · rw [← hbuckets]
      exact length_setSlot _
    · rw [← hlen]
      exact List.length_set
    · have hat : m₁.slotAt p = m.slotAt p := by
        unfold slotAt bucketAt
        rw [hbuckets]
      rw [← hat]
      exact slotAt_setSlot (m := m₁) (p := (b, s)) (hbuckets ▸ hb) ⟨H.hash key, i⟩ p

theorem addToBucket_none {value : V} (ha : m.addToBucket H b key value = some (none, m')) :
    m' = m := by
  unfold CuckooMap.addToBucket at ha
  split at ha
  · cases ha
    rfl
  · obtain ⟨⟨i, m₁⟩, -, ha⟩ := Option.bind_eq_some_iff.mp ha
    cases ha

theorem sameEntries_displace
    {deeper : CuckooMap K V → Nat → Option (Fin kEntriesPerBucket) × CuckooMap K V}
    (hd : ∀ m b, SameEntries m (deeper m b).2) (index : Nat)
    (is : List (Fin kEntriesPerBucket)) (m : CuckooMap K V) :
    SameEntries m (displace H deeper index is m).2 := by
  induction is generalizing m with
  | nil => exact .refl m
  | cons i is ih =>
    unfold displace
    split
    · exact .refl m
    · rename_i alt _
      cases hf : findEmptySlot (m.bucketAt alt) with
      | some j => exact sameEntries_transfer
      | none =>
        have hs := hd m alt
        rcases hr : deeper m alt with ⟨r, m₁⟩
        rw [hr] at hs
        cases r with
        | some j => exact hs.trans sameEntries_transfer
        | none => exact hs.trans (ih m₁)

theorem sameEntries_makeSpace (n : Nat) (m : CuckooMap K V) (b : Nat) :
    SameEntries m (makeSpace H n m b).2 := by
  induction n generalizing m b with
  | zero => exact .refl m
  | succ n ih => exact sameEntries_displace ih b slotIdxs m

/-- What `AddEntry` keeps: `P` while entries are displaced, and `Q` at the end. -/
theorem addEntry_keeps {P Q : CuckooMap K V → Prop} {value : V}
    (hsame : ∀ m m', P m → SameEntries m m' → P m')
    (hadd : ∀ m m' b r, P m → m.addToBucket H b key value = some (r, m') → Q m')
    (hPQ : ∀ m, P m → Q m) {k : Nat} {r : Option Nat} (hm : P m)
    (ha : addEntry H key value k m = some (r, m')) : Q m' := by
  induction k generalizing m with
  | zero => cases ha
  | succ k ih =>
    unfold addEntry at ha
    obtain ⟨⟨r₁, m₁⟩, h₁, ha⟩ := Option.bind_eq_some_iff.mp ha
    simp only at ha
    split at ha
    · cases ha
      exact hadd _ _ _ _ hm h₁
    rename_i hr₁
    obtain rfl : r₁ = none := by simpa using hr₁
    obtain rfl := addToBucket_none h₁
    obtain ⟨⟨r₂, m₂⟩, h₂, ha⟩ := Option.bind_eq_some_iff.mp ha
    simp only at ha
    split at ha
    · cases ha
      exact hadd _ _ _ _ hm h₂
    rename_i hr₂
    obtain rfl : r₂ = none := by simpa using hr₂
    obtain rfl := addToBucket_none h₂
    have hs := hsame _ _ hm
      (sameEntries_makeSpace (H := H) kMaxCuckooPath m₂ (m₂.bucketOf (H.hash key)))
    have hs' := hsame _ _ hs
      (sameEntries_makeSpace (H := H) kMaxCuckooPath _ (m₂.bucketOf (hashSecondary (H.hash key))))
    split at ha
    · exact ih hs ha
    split at ha
    · exact ih hs' ha
    · cases ha
      exact hPQ _ hs'

theorem Arranged.free_eq_nil (h : Arranged H n e l m) : m.freeEntryIndices = [] ↔ e ≤ l.length := by
  have hnum := h.rep.num
  rw [← h.rep.length_contents, h.contents.length_eq, h.entries] at hnum
  rw [← List.length_eq_zero_iff]
  omega

/-- The array grows when all of it is in use. -/
def grown (e used : Nat) : Nat := if e ≤ used then e + e / 2 else e

theorem Arranged.addToBucket (h : Arranged H n e l m) (hnew : AssocMap.find H.toKeyEq l key = none)
    (hfull : ¬ m.Full (m.bucketOf (H.hash key))) (value : V) :
    ∃ i m', m.addToBucket H (m.bucketOf (H.hash key)) key value = some (some i, m') ∧
      Arranged H n (grown e l.length) ((key, value) :: l) m' := by
  rw [← h.rep.distinct.find_perm h.contents] at hnew
  obtain ⟨-, i, m', ha, hrep, -, hc⟩ :=
    (h.rep.addToBucket_spec (.inl rfl) hnew value).resolve_left fun hf => hfull hf.1
  obtain ⟨hmask, hlen, hentries, hset⟩ := addToBucket_frame ha
  obtain ⟨s, hslot⟩ := hset (h.rep.bucketOf_lt _)
  refine ⟨i, m', ha, hrep, fun p hocc => ?_, hc.trans (h.contents.cons _), hmask.trans h.mask,
    hlen.trans h.length, ?_⟩
  · have hof : ∀ x, m'.bucketOf x = m.bucketOf x := fun x => by
      unfold bucketOf
      rw [hmask]
    unfold Occ at hocc
    rw [hslot] at hocc ⊢
    rw [hof]
    split at hocc
    · rename_i hpe
      rw [if_pos hpe, hpe]
    · rename_i hpe
      rw [if_neg hpe]
      exact h.primary p hocc
  · simp only [h.free_eq_nil, h.entries] at hentries
    rw [grown, hentries]

theorem Arranged.insertN (h : Arranged H n e l m) (hnew : AssocMap.find H.toKeyEq l key = none)
    (hfull : ¬ m.Full (m.bucketOf (H.hash key))) (value : V) (depth : Nat) :
    ∃ i m', insertN H (depth + 1) m key value = some (some i, m') ∧
      Arranged H n (grown e l.length) ((key, value) :: l) m' := by
  obtain ⟨i, m', ha, h'⟩ := h.addToBucket hnew hfull value
  refine ⟨i, m', ?_, h'⟩
  rw [← h.rep.distinct.find_perm h.contents] at hnew
  unfold CuckooMap.insertN
  rw [h.rep.findWithHash_eq_none.mpr hnew]
  simp [addOrExpand, addEntry_of_not_full 1 hfull, ha]

/-! ## All keys -/

/-- The array does not grow while it has room for all entries. -/
theorem Arranged.rehash {es : List (K × V)} (h : Arranged H n e l m) (depth : Nat)
    (hd : Distinct H.toKeyEq (es ++ l)) (hs : Spread H n ((es ++ l).map Prod.fst))
    (hroom : es.length + l.length ≤ e) :
    ∃ m', rehash (CuckooMap.insertN H (depth + 1)) es m = some (true, m') ∧
      Arranged H n e (es ++ l) m' := by
  induction es generalizing m l with
  | nil => exact ⟨m, rfl, h⟩
  | cons x es ih =>
    have hnew : AssocMap.find H.toKeyEq l x.1 = none := by
      rw [AssocMap.find_eq_none]
      intro a ha
      rw [KeyEq.comm]
      exact (List.pairwise_cons.mp hd).1 a (List.mem_append_right _ ha)
    have hperm : (x :: es ++ l).Perm (es ++ x :: l) := List.perm_middle.symm
    have hone : Spread H n (x.1 :: l.map Prod.fst) :=
      hs.sublist (((List.sublist_append_right es l).cons_cons x).map Prod.fst)
    simp only [List.length_cons] at hroom
    obtain ⟨i, m₁, hins, h₁⟩ := h.insertN hnew (h.not_full hone) x.2 depth
    rw [grown, if_neg (by omega)] at h₁
    obtain ⟨m', hre, h'⟩ := ih h₁ (hd.perm hperm) (hs.perm (hperm.map _)) (by
      rw [List.length_cons]
      omega)
    exact ⟨m', by simp [CuckooMap.rehash, hins, hre], h'.perm hperm.symm⟩

/-- A rebuild of a table whose keys are spread over twice the buckets. -/
theorem Rep.expandBuckets_arranged (h : Rep H m)
    (hs : Spread H (m.buckets.length * 2) (m.contents.map Prod.fst)) :
    ∃ m', expandBuckets (insertN H m.numEntries) m = some m' ∧
      Arranged H (m.buckets.length * 2) m.entries.length m.contents m' := by
  obtain ⟨k, hk⟩ := h.pow2
  have hitems := h.items_perm
  have hlen : m.items.length = m.numEntries := by
    rw [hitems.length_eq, h.length_contents]
  have hnew : Arranged H (m.buckets.length * 2) m.entries.length []
      (new (m.buckets.length * 2) m.entries.length : CuckooMap K V) := by
    rw [hk, ← Nat.pow_succ]
    exact arranged_new _ h.room
  obtain ⟨m', hre, h'⟩ : ∃ m', CuckooMap.rehash (CuckooMap.insertN H m.numEntries) m.items
      (new (m.buckets.length * 2) m.entries.length) = some (true, m') ∧
      Arranged H (m.buckets.length * 2) m.entries.length m.items m' := by
    cases hn : m.numEntries with
    | zero =>
      rw [List.length_eq_zero_iff.mp (hlen.trans hn)]
      exact ⟨_, rfl, hnew⟩
    | succ depth =>
      have hd : Distinct H.toKeyEq (m.items ++ []) := by
        rw [List.append_nil]
        exact h.distinct.perm hitems.symm
      have hall := hnew.rehash depth hd (by
          rw [List.append_nil]
          exact hs.perm (hitems.symm.map _))
        (by
          rw [hlen, List.length_nil, ← h.num]
          omega)
      rwa [List.append_nil] at hall
  refine ⟨m', ?_, h'.perm hitems⟩
  unfold expandBuckets
  rw [hre]
  rfl

/-- A key for which there is no room goes into the rebuilt table. -/
theorem Rep.insert_rebuilt (h : Rep H m) (hno : ¬ Room H m key)
    (hnew : AssocMap.find H.toKeyEq m.contents key = none)
    (hs : Spread H (m.buckets.length * 2) (key :: m.contents.map Prod.fst)) (value : V) :
    ∃ i m', m.insert H key value = some (some i, m') ∧
      Arranged H (m.buckets.length * 2) (grown m.entries.length m.numEntries)
        ((key, value) :: m.contents) m' := by
  obtain ⟨r, m₀, ha, hroom, hsame⟩ := h.addEntry_room key value
  obtain rfl : r = none := by
    cases r with
    | none => rfl
    | some i => exact absurd (hroom.mp rfl) hno
  obtain rfl := hsame rfl
  obtain ⟨m₁, he, h₁⟩ := h.expandBuckets_arranged (hs.sublist (List.sublist_cons_self _ _))
  have hfull := h₁.not_full hs
  obtain ⟨i, m', ha', h'⟩ := h₁.addToBucket hnew hfull value
  rw [h.length_contents] at h'
  refine ⟨i, m', ?_, h'⟩
  unfold CuckooMap.insert CuckooMap.insertN
  rw [h.findWithHash_eq_none.mpr hnew]
  simp [addOrExpand, ha, he, addEntry_of_not_full 1 hfull, ha']

/-- The key is in the table, or there is room for it as the table is, or it and the keys of the table
are spread over twice the buckets. -/
def Roomy (H : Hashing K) (m : CuckooMap K V) (key : K) : Prop :=
  (m.find H key).isSome = true ∨ Room H m key ∨
    Spread H (m.buckets.length * 2) (key :: m.contents.map Prod.fst)

theorem Rep.takes_of_roomy (h : Rep H m) (hr : Roomy H m key) : Takes H m key := by
  rcases hr with hfind | hroom | hs
  · exact .inl hfind
  · exact .inr (.inl hroom)
  · obtain ⟨m', he, h'⟩ := h.expandBuckets_arranged (hs.sublist (List.sublist_cons_self _ _))
    refine .inr (.inr (.inl ?_))
    rw [rebuilt, he]
    exact ⟨_, .inl rfl, .inl (h'.not_full hs)⟩

end Bess.Cuckoo.CuckooMap
