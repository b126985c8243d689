import Bess.Cuckoo.Spread

/-!
# Room for two keys

Two keys that are inserted one after the other both find a slot if a bucket of the first has a free
slot and one of the second has two, or if they are spread over twice the buckets together with the
keys of the table. Removing other keys before does not take that room away.
-/

namespace Bess.Cuckoo.CuckooMap

open Bess.AssocMap

variable {K V : Type} [Inhabited K] [Inhabited V] {H : Hashing K} {m m' : CuckooMap K V}
  {key k₁ k₂ : K} {b : Nat}

def TwoFree (m : CuckooMap K V) (b : Nat) : Prop :=
  ∃ s t, s ≠ t ∧ ¬ m.Occ (b, s) ∧ ¬ m.Occ (b, t)

def RoomForBoth (H : Hashing K) (m : CuckooMap K V) (k₁ k₂ : K) : Prop :=
  (∃ b, m.Home (H.hash k₁) b ∧ ¬ m.Full b) ∧ (∃ b, m.Home (H.hash k₂) b ∧ m.TwoFree b) ∨
    Spread H (m.buckets.length * 2) (k₂ :: k₁ :: m.contents.map Prod.fst)

/-! ## Removing entries -/

/-- Some of the entries of `m` are gone. -/
structure Thinned (m m' : CuckooMap K V) : Prop where
  mask : m'.bucketMask = m.bucketMask
  length : m'.buckets.length = m.buckets.length
  occ : ∀ p, m'.Occ p → m.Occ p
  keys : (m'.contents.map Prod.fst).Subperm (m.contents.map Prod.fst)

theorem Thinned.refl (m : CuckooMap K V) : Thinned m m :=
  ⟨rfl, rfl, fun _ h => h, List.Subperm.refl _⟩

theorem Thinned.trans {m₁ m₂ m₃ : CuckooMap K V} (h : Thinned m₁ m₂) (h' : Thinned m₂ m₃) :
    Thinned m₁ m₃ where
  mask := h'.mask.trans h.mask
  length := h'.length.trans h.length
  occ p hp := h.occ p (h'.occ p hp)
  keys := h'.keys.trans h.keys

theorem Thinned.home (h : Thinned m m') (x : HashResult) : m'.Home x b ↔ m.Home x b := by
  unfold Home bucketOf
  rw [h.mask]

theorem removeFromBucket_frame (H : Hashing K) (m : CuckooMap K V) (x : HashResult) (b : Nat)
    (key : K) :
    (removeFromBucket H m x b key).2.bucketMask = m.bucketMask ∧
      (removeFromBucket H m x b key).2.buckets.length = m.buckets.length ∧
      ∀ p, (removeFromBucket H m x b key).2.Occ p → m.Occ p := by
  unfold removeFromBucket
  split
  · exact ⟨rfl, rfl, fun _ hp => hp⟩
  · rename_i s hs
    refine ⟨rfl, length_setSlot _, fun p hp => ?_⟩
    by_cases hb : b < m.buckets.length
    · change ((m.setSlot (b, s) _).slotAt p).hash ≠ 0 at hp
      rw [slotAt_setSlot hb] at hp
      split at hp
      · exact absurd rfl hp
      · exact hp
    · -- there is no such bucket, and nothing to set
      change ((m.setSlot (b, s) _).slotAt p).hash ≠ 0 at hp
      rwa [setSlot, List.set_eq_of_length_le (by omega)] at hp

theorem Rep.remove_thinned (h : Rep H m) (key : K) : Thinned m (m.remove H key).2 := by
  have hc : ((m.remove H key).2.contents.map Prod.fst).Subperm (m.contents.map Prod.fst) := by
    refine ((h.remove_spec key).2.2.map Prod.fst).subperm.trans (List.Sublist.subperm ?_)
    exact List.Sublist.map Prod.fst List.filter_sublist
  unfold CuckooMap.remove at hc ⊢
  obtain ⟨hmask, hlen, hocc⟩ := removeFromBucket_frame H m (H.hash key) (m.bucketOf (H.hash key)) key
  simp only at hc ⊢
  split at hc
  · rename_i hb
    rw [if_pos hb]
    exact ⟨hmask, hlen, hocc, hc⟩
  · rename_i hb
    rw [if_neg hb]
    obtain ⟨hmask', hlen', hocc'⟩ := removeFromBucket_frame H
      (removeFromBucket H m (H.hash key) (m.bucketOf (H.hash key)) key).2 (H.hash key)
      (CuckooMap.bucketOf (removeFromBucket H m (H.hash key) (m.bucketOf (H.hash key)) key).2
        (hashSecondary (H.hash key))) key
    exact ⟨hmask'.trans hmask, hlen'.trans hlen, fun p hp => hocc p (hocc' p hp), hc⟩

theorem RoomForBoth.thinned (h : RoomForBoth H m k₁ k₂) (ht : Thinned m m') :
    RoomForBoth H m' k₁ k₂ := by
  rcases h with ⟨⟨b, hb, hfull⟩, c, hc, s, t, hne, hs, hfree⟩ | hs
  · refine .inl ⟨⟨b, (ht.home _).mpr hb, fun hf => hfull fun i => ht.occ _ (hf i)⟩,
      c, (ht.home _).mpr hc, s, t, hne, fun ho => hs (ht.occ _ ho), fun ho => hfree (ht.occ _ ho)⟩
  · refine .inr fun b => Nat.le_trans ?_ (hs b)
    rw [ht.length]
    have hkeys := (List.subperm_cons k₁).mpr ht.keys
    exact ((List.subperm_cons k₂).mpr hkeys).countP_le _

/-! ## Inserting both -/

theorem Rep.insert_of_room (h : Rep H m) (hnew : AssocMap.find H.toKeyEq m.contents key = none)
    (value : V) {i : Nat} (ha : addEntry H key value 2 m = some (some i, m')) :
    m.insert H key value = some (some i, m') := by
  unfold CuckooMap.insert CuckooMap.insertN
  rw [h.findWithHash_eq_none.mpr hnew]
  simp [addOrExpand, ha]

/-- With a free slot for the key, one slot is set. -/
theorem Rep.insert_of_free (h : Rep H m) (hnew : AssocMap.find H.toKeyEq m.contents key = none)
    (hb : m.Home (H.hash key) b) (hfree : ¬ m.Full b) (value : V) :
    ∃ i m' q, m.insert H key value = some (some i, m') ∧ m'.bucketMask = m.bucketMask ∧
      ∀ p, p ≠ q → m'.Occ p → m.Occ p := by
  obtain ⟨c, hc, hcfree, hadd⟩ : ∃ c, m.Home (H.hash key) c ∧ ¬ m.Full c ∧
      ∀ i m', m.addToBucket H c key value = some (some i, m') →
        addEntry H key value 2 m = some (some i, m') := by
    by_cases hp : m.Full (m.bucketOf (H.hash key))
    · obtain rfl : b = m.bucketOf (hashSecondary (H.hash key)) :=
        hb.resolve_left fun he => hfree (he ▸ hp)
      exact ⟨_, hb, hfree, fun i m' he => by simp [addEntry, addToBucket_of_full hp, he]⟩
    · exact ⟨_, .inl rfl, hp, fun i m' he => by rw [addEntry_of_not_full 1 hp, he]⟩
  obtain ⟨i, m', he⟩ := h.addToBucket_of_not_full hcfree key value
  obtain ⟨hmask, -, -, hset⟩ := addToBucket_frame he
  obtain ⟨s, hslot⟩ := hset (h.home_lt hc)
  refine ⟨i, m', (c, s), h.insert_of_room hnew value (hadd i m' he), hmask, fun p hp ho => ?_⟩
  unfold Occ at ho ⊢
  rwa [hslot, if_neg hp] at ho

theorem addEntry_buckets {value : V} {k : Nat} {r : Option Nat}
    (ha : addEntry H key value k m = some (r, m')) : m'.buckets.length = m.buckets.length := by
  refine addEntry_keeps (P := fun x => x.buckets.length = m.buckets.length) ?_ ?_
    (fun _ hP => hP) rfl ha
  · exact fun _ _ hP hs => hs.length.trans hP
  · intro m₁ m₂ b r hP hadd
    cases r with
    | none => rwa [addToBucket_none hadd]
    | some i => exact (addToBucket_frame hadd).2.1.trans hP

/-- The second key is taken after the first. -/
theorem Rep.takes_both (h : Rep H m) (hnew : AssocMap.find H.toKeyEq m.contents k₁ = none)
    (hr : RoomForBoth H m k₁ k₂) (value : V) :
    ∃ i m', m.insert H k₁ value = some (some i, m') ∧ Takes H m' k₂ := by
  rcases hr with ⟨⟨b, hb, hfull⟩, c, hc, s, t, hne, hs, ht⟩ | hspread
  · obtain ⟨i, m', q, hins, hmask, hocc⟩ := h.insert_of_free hnew hb hfull value
    refine ⟨i, m', hins, .inr (.inl ⟨c, ?_, .inl fun hf => ?_⟩)⟩
    · unfold Home bucketOf at hc ⊢
      rwa [hmask]
    · by_cases hq : (c, s) = q
      · refine ht (hocc (c, t) (fun he => hne ?_) (hf t))
        exact congrArg Prod.snd (hq.trans he.symm)
      · exact hs (hocc (c, s) hq (hf s))
  · have hfirst : Spread H (m.buckets.length * 2) (k₁ :: m.contents.map Prod.fst) :=
      hspread.sublist (List.sublist_cons_self _ _)
    by_cases hroom : Room H m k₁
    · -- the table keeps its buckets, so that the second key is in time for the rebuild
      obtain ⟨r, m', ha, hrep, hadded⟩ := h.addEntry_spec hnew value
      obtain ⟨r', m'', ha', hiff, -⟩ := h.addEntry_room k₁ value
      rw [ha] at ha'
      cases ha'
      obtain ⟨i, rfl⟩ := Option.isSome_iff_exists.mp (hiff.mpr hroom)
      have hlen := addEntry_buckets ha
      refine ⟨i, m', h.insert_of_room hnew value ha, hrep.takes_of_roomy (.inr (.inr ?_))⟩
      cases hadded with
      | added _ hc =>
        rw [hlen]
        exact hspread.perm ((hc.map Prod.fst).symm.cons k₂)
    · obtain ⟨i, m', hins, h'⟩ := h.insert_rebuilt hroom hnew hfirst value
      exact ⟨i, m', hins, .inr (.inl ⟨_, .inl rfl, .inl (h'.not_full hspread)⟩)⟩

end Bess.Cuckoo.CuckooMap
