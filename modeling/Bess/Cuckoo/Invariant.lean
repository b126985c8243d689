import Bess.Cuckoo.Refine
import Mathlib.Data.List.ProdSigma
import Mathlib.Data.List.Perm.Subperm

/-!
# What every reachable cuckoo table looks like

`WellFormed` says the representation invariant in terms of the list of occupied slots. It follows
from `Rep`, and is as strong as `Rep` once the array of entries has room for two, which is so
whenever some bucket is full.
-/

namespace Bess.Cuckoo

open Bess.AssocMap

variable {K V : Type} [Inhabited K] [Inhabited V] {H : Hashing K}

namespace CuckooMap

variable {m m' : CuckooMap K V} {p q : Pos} {key : K} {value : V}

/-! ## The occupied slots -/

/-- The occupied slots, bucket by bucket. -/
def occupied (m : CuckooMap K V) : List Pos :=
  ((List.range m.buckets.length).product slotIdxs).filter fun p => m.Occ p

omit [Inhabited K] [Inhabited V] in
theorem mem_occupied : p ∈ m.occupied ↔ m.Occ p := by
  simp only [occupied, List.mem_filter, decide_eq_true_eq]
  refine ⟨fun h => h.2, fun h => ⟨?_, h⟩⟩
  exact List.pair_mem_product.mpr ⟨List.mem_range.mpr h.lt, mem_slotIdxs _⟩

omit [Inhabited K] [Inhabited V] in
theorem nodup_occupied : m.occupied.Nodup :=
  (List.Nodup.product List.nodup_range (by decide)).filter _

/-- The entry indices in the occupied slots. -/
def usedIdxs (m : CuckooMap K V) : List Nat := m.occupied.map fun p => (m.slotAt p).idx

omit [Inhabited K] [Inhabited V] in
theorem mem_usedIdxs {i : Nat} : i ∈ m.usedIdxs ↔ ∃ p, m.Occ p ∧ (m.slotAt p).idx = i := by
  simp [usedIdxs, mem_occupied]

/-- The pairs of a hash and an entry index in the occupied slots. -/
def stored (m : CuckooMap K V) : List (HashResult × Nat) :=
  m.occupied.map fun p => ((m.slotAt p).hash, (m.slotAt p).idx)

structure WellFormed (H : Hashing K) (m : CuckooMap K V) : Prop where
  mask : m.bucketMask.toNat < m.buckets.length
  pow2 : ∃ k, m.buckets.length = 2 ^ k
  /-- Used indices are distinct, none of them is free, and there are no others. -/
  idxs : (m.usedIdxs ++ m.freeEntryIndices).Perm (List.range m.entries.length)
  hash : ∀ p, m.Occ p → (m.slotAt p).hash = H.hash (m.entryAt (m.slotAt p).idx).1
  home : ∀ p, m.Occ p → m.Home (H.hash (m.entryAt (m.slotAt p).idx).1) p.1
  keys : ∀ p q, m.Occ p → m.Occ q →
    H.eq (m.entryAt (m.slotAt p).idx).1 (m.entryAt (m.slotAt q).idx).1 = true → p = q
  num : m.numEntries = m.occupied.length

theorem Rep.nodup_usedIdxs (h : Rep H m) : m.usedIdxs.Nodup := by
  apply List.Nodup.map_on _ nodup_occupied
  intro p hp q hq
  exact h.inj p q (mem_occupied.mp hp) (mem_occupied.mp hq)

theorem Rep.usedIdxs_perm (h : Rep H m) : m.usedIdxs.Perm m.liveIdxs := by
  apply (List.perm_ext_iff_of_nodup h.nodup_usedIdxs m.nodup_liveIdxs).mpr
  intro i
  rw [mem_usedIdxs, mem_liveIdxs]
  constructor
  · rintro ⟨p, hp, rfl⟩
    exact h.idx p hp
  · exact h.cover i

theorem Rep.wellFormed (h : Rep H m) : WellFormed H m := by
  have hidx : (m.usedIdxs ++ m.freeEntryIndices).Perm (List.range m.entries.length) := by
    apply (List.perm_ext_iff_of_nodup ?_ List.nodup_range).mpr
    · intro i
      rw [List.mem_append, h.usedIdxs_perm.mem_iff, mem_liveIdxs, List.mem_range]
      constructor
      · rintro (hi | hi)
        · exact hi.1
        · exact h.freeLt i hi
      · intro hi
        by_cases hf : i ∈ m.freeEntryIndices
        · exact .inr hf
        · exact .inl ⟨hi, hf⟩
    · refine List.nodup_append.mpr ⟨h.nodup_usedIdxs, h.freeNodup, ?_⟩
      rintro i hi j hj rfl
      exact (mem_liveIdxs.mp (h.usedIdxs_perm.mem_iff.mp hi)).2 hj
  refine ⟨h.mask, h.pow2, hidx, h.hash, ?_, ?_, ?_⟩
  · intro p hp
    rw [← h.hash p hp]
    exact h.home p hp
  · intro p q hp hq hk
    exact h.inj p q hp hq (h.keys _ _ (h.idx p hp) (h.idx q hq) hk)
  · have hl := hidx.length_eq
    have hn := h.num
    simp only [List.length_append, usedIdxs, List.length_map, List.length_range] at hl
    omega

theorem WellFormed.live_iff (h : WellFormed H m) {i : Nat} : m.Live i ↔ i ∈ m.usedIdxs := by
  have hnd := List.nodup_append.mp (h.idxs.nodup_iff.mpr List.nodup_range)
  have hmem := h.idxs.mem_iff (a := i)
  rw [List.mem_append, List.mem_range] at hmem
  constructor
  · intro hi
    exact (hmem.mpr hi.1).resolve_right hi.2
  · intro hi
    exact ⟨hmem.mp (.inl hi), fun hf => hnd.2.2 i hi i hf rfl⟩

theorem WellFormed.nodup_usedIdxs (h : WellFormed H m) : m.usedIdxs.Nodup :=
  (List.nodup_append.mp (h.idxs.nodup_iff.mpr List.nodup_range)).1

theorem WellFormed.inj (h : WellFormed H m) (p q : Pos) (hp : m.Occ p) (hq : m.Occ q)
    (he : (m.slotAt p).idx = (m.slotAt q).idx) : p = q :=
  List.inj_on_of_nodup_map h.nodup_usedIdxs (mem_occupied.mpr hp) (mem_occupied.mpr hq) he

theorem WellFormed.rep (h : WellFormed H m) (hroom : 2 ≤ m.entries.length) : Rep H m := by
  have hnd := List.nodup_append.mp (h.idxs.nodup_iff.mpr List.nodup_range)
  refine ⟨h.mask, h.pow2, hroom, hnd.2.1, ?_, ?_, ?_, h.inj, ?_, h.hash, ?_, ?_⟩
  · intro i hi
    exact List.mem_range.mp (h.idxs.mem_iff.mp (List.mem_append_right _ hi))
  · have hl := h.idxs.length_eq
    have hn := h.num
    simp only [List.length_append, usedIdxs, List.length_map, List.length_range] at hl
    omega
  · exact fun p hp => h.live_iff.mpr (mem_usedIdxs.mpr ⟨p, hp, rfl⟩)
  · exact fun i hi => mem_usedIdxs.mp (h.live_iff.mp hi)
  · intro p hp
    rw [h.hash p hp]
    exact h.home p hp
  · intro i j hi hj hk
    obtain ⟨p, hp, rfl⟩ := mem_usedIdxs.mp (h.live_iff.mp hi)
    obtain ⟨q, hq, rfl⟩ := mem_usedIdxs.mp (h.live_iff.mp hj)
    rw [h.keys p q hp hq hk]

/-- A full bucket uses four indices. -/
theorem WellFormed.room_of_full (h : WellFormed H m) {b : Nat} (hfull : m.Full b) :
    4 ≤ m.entries.length := by
  have hsub : (slotIdxs.map fun i => (b, i)) ⊆ m.occupied := by
    intro p hp
    obtain ⟨i, -, rfl⟩ := List.mem_map.mp hp
    exact mem_occupied.mpr (hfull i)
  have hnd : (slotIdxs.map fun i => (b, i)).Nodup :=
    List.Nodup.map (fun i j hij => congrArg Prod.snd hij) (by decide)
  have h4 := (List.subperm_of_subset hnd hsub).length_le
  have hl := h.idxs.length_eq
  simp only [List.length_append, usedIdxs, List.length_map, List.length_range] at hl
  have : (slotIdxs.map fun i => (b, i)).length = 4 := rfl
  omega

theorem rep_run (H : Hashing K) (ops : List (Op K V)) :
    ∃ os m', run H ops (new kInitNumBucket kInitNumEntries) = some (os, m') ∧ Rep H m' := by
  have hc : (new kInitNumBucket kInitNumEntries : CuckooMap K V).contents.Perm [] :=
    contents_new (K := K) (V := V) _ _ ▸ List.Perm.refl _
  obtain ⟨os, m', hr, -, h⟩ := run_refines (H := H) (rep_new (k := 2) (by decide)) hc ops
  exact ⟨os, m', hr, h⟩

/-- Keys that are their own hash. -/
def natHashing : Hashing Nat where
  eq a b := decide (a = b)
  refl := by simp
  symm a b h := by simpa [eq_comm] using h
  trans a b c h h' := by
    simp only [decide_eq_true_eq] at *
    exact h.trans h'
  hasher a := BitVec.ofNat 64 a
  hasher_eq a b h := by
    simp only [decide_eq_true_eq] at h
    rw [h]

end CuckooMap

end Bess.Cuckoo
