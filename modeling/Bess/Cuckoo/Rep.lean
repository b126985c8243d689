import Bess.Cuckoo.Table
import Mathlib.Data.List.Nodup

/-!
# The representation invariant of the cuckoo table

`Rep` ties the three arrays together: the occupied slots hold distinct entry indices, which are
exactly the indices that are not free; each slot holds the primary hash of its key and lies in one
of the key's two buckets; and no two live entries have equal keys.

The contents of the map are the live entries, a function of `entries_` and the free stack alone, so
displacing entries between buckets cannot change them. What has to be shown about `makeSpace` is that
every entry it moves lands in one of its own buckets. The recursion may come back to a bucket that is
being emptied, and then the slot that the caller moves no longer holds the entry that the caller
looked at (`makeSpace_two`).
-/

namespace Bess.Cuckoo

open Bess.AssocMap

variable {K V : Type} {H : Hashing K}

theorem Hashing.hash_ne_zero (key : K) : H.hash key ≠ 0 := by
  intro h
  have := congrArg (fun x : BitVec 32 => x.getLsbD 31) h
  simp [Hashing.hash] at this

theorem Hashing.hash_eq {a b : K} (h : H.eq a b = true) : H.hash a = H.hash b := by
  simp [Hashing.hash, H.hasher_eq a b h]

namespace CuckooMap

variable {m m' : CuckooMap K V} {p q : Pos}

/-! ## Slots -/

theorem bucketAt_set {b c : Nat} (hb : b < m.buckets.length) (x : Bucket) :
    ({ m with buckets := m.buckets.set b x } : CuckooMap K V).bucketAt c =
      if c = b then x else m.bucketAt c := by
  unfold bucketAt
  simp only [List.getD_eq_getElem?_getD, List.getElem?_set]
  by_cases hc : c = b
  · subst hc
    simp [hb]
  · simp [hc, Ne.symm hc]

theorem slotAt_setSlot (hp : p.1 < m.buckets.length) (s : Slot) (q : Pos) :
    (m.setSlot p s).slotAt q = if q = p then s else m.slotAt q := by
  unfold slotAt setSlot
  rw [bucketAt_set hp]
  obtain ⟨c, j⟩ := q
  obtain ⟨b, i⟩ := p
  by_cases hc : c = b
  · subst hc
    by_cases hj : j = i
    · subst hj
      simp
    · have : i.val ≠ j.val := fun e => hj (Fin.ext e).symm
      simp [hj, Vector.getElem_set_ne, this]
  · simp [hc]

@[simp] theorem length_setSlot (s : Slot) : (m.setSlot p s).buckets.length = m.buckets.length := by
  simp [setSlot]

/-- The slot holds an entry. -/
def Occ (m : CuckooMap K V) (p : Pos) : Prop := (m.slotAt p).hash ≠ 0

instance (m : CuckooMap K V) (p : Pos) : Decidable (m.Occ p) :=
  inferInstanceAs (Decidable (_ ≠ _))

theorem Occ.lt (h : m.Occ p) : p.1 < m.buckets.length := by
  by_contra hlt
  apply h
  have hb : m.bucketAt p.1 = Bucket.empty := by
    unfold bucketAt
    rw [List.getD_eq_getElem?_getD, List.getElem?_eq_none (by omega)]
    rfl
  simp [slotAt, hb, Bucket.empty, Slot.empty]

theorem mem_slotIdxs (i : Fin kEntriesPerBucket) : i ∈ slotIdxs := by
  revert i
  decide

theorem findEmptySlot_eq_some {b : Nat} {i : Fin kEntriesPerBucket}
    (h : findEmptySlot (m.bucketAt b) = some i) : ¬ m.Occ (b, i) := by
  have := List.find?_some (p := fun i : Fin kEntriesPerBucket =>
    decide ((m.bucketAt b)[i].hash = 0)) h
  simpa [Occ, slotAt] using this

theorem findEmptySlot_eq_none {b : Nat} (h : findEmptySlot (m.bucketAt b) = none)
    (i : Fin kEntriesPerBucket) : m.Occ (b, i) := by
  have := List.find?_eq_none.mp h i (mem_slotIdxs i)
  simpa [Occ, slotAt] using this

theorem bucketOf_le (h : HashResult) : m.bucketOf h ≤ m.bucketMask.toNat := by
  unfold bucketOf
  rw [BitVec.toNat_and]
  exact Nat.and_le_right

/-- The two buckets in which a key with this hash may live. -/
def Home (m : CuckooMap K V) (h : HashResult) (b : Nat) : Prop :=
  b = m.bucketOf h ∨ b = m.bucketOf (hashSecondary h)

/-- The entry index is in use. -/
def Live (m : CuckooMap K V) (i : Nat) : Prop := i < m.entries.length ∧ i ∉ m.freeEntryIndices

/-! ## Moving an entry -/

/-- `m'` has the same entries as `m`; only slots may differ. -/
structure SameEntries (m m' : CuckooMap K V) : Prop where
  mask : m'.bucketMask = m.bucketMask
  num : m'.numEntries = m.numEntries
  length : m'.buckets.length = m.buckets.length
  entries : m'.entries = m.entries
  free : m'.freeEntryIndices = m.freeEntryIndices

theorem SameEntries.refl (m : CuckooMap K V) : SameEntries m m := ⟨rfl, rfl, rfl, rfl, rfl⟩

theorem SameEntries.trans {m₁ m₂ m₃ : CuckooMap K V} (h : SameEntries m₁ m₂)
    (h' : SameEntries m₂ m₃) : SameEntries m₁ m₃ :=
  ⟨h'.mask.trans h.mask, h'.num.trans h.num, h'.length.trans h.length, h'.entries.trans h.entries,
    h'.free.trans h.free⟩

theorem SameEntries.live (h : SameEntries m m') (i : Nat) : m'.Live i ↔ m.Live i := by
  unfold Live
  rw [h.entries, h.free]

theorem SameEntries.bucketOf (h : SameEntries m m') (x : HashResult) :
    m'.bucketOf x = m.bucketOf x := by
  unfold CuckooMap.bucketOf
  rw [h.mask]

theorem SameEntries.home (h : SameEntries m m') (x : HashResult) (b : Nat) :
    m'.Home x b ↔ m.Home x b := by
  unfold Home
  rw [h.bucketOf, h.bucketOf]

theorem sameEntries_transfer : SameEntries m (m.transfer p q) :=
  ⟨rfl, rfl, by simp [transfer], rfl, rfl⟩

theorem slotAt_transfer (hp : p.1 < m.buckets.length) (hq : q.1 < m.buckets.length) (r : Pos) :
    (m.transfer p q).slotAt r =
      if r = p then { m.slotAt p with hash := 0 } else if r = q then m.slotAt p else m.slotAt r := by
  unfold transfer
  simp only
  rw [slotAt_setSlot (by simpa using hp)]
  split
  · rw [slotAt_setSlot hq]
    split <;> simp_all
  · rw [slotAt_setSlot hq]

/-! ## The invariant -/

variable [Inhabited K] [Inhabited V]

structure Rep (H : Hashing K) (m : CuckooMap K V) : Prop where
  mask : m.bucketMask.toNat < m.buckets.length
  pow2 : ∃ k, m.buckets.length = 2 ^ k
  room : 2 ≤ m.entries.length
  freeNodup : m.freeEntryIndices.Nodup
  freeLt : ∀ i ∈ m.freeEntryIndices, i < m.entries.length
  num : m.numEntries + m.freeEntryIndices.length = m.entries.length
  idx : ∀ p, m.Occ p → m.Live (m.slotAt p).idx
  inj : ∀ p q, m.Occ p → m.Occ q → (m.slotAt p).idx = (m.slotAt q).idx → p = q
  cover : ∀ i, m.Live i → ∃ p, m.Occ p ∧ (m.slotAt p).idx = i
  hash : ∀ p, m.Occ p → (m.slotAt p).hash = H.hash (m.entryAt (m.slotAt p).idx).1
  home : ∀ p, m.Occ p → m.Home (m.slotAt p).hash p.1
  keys : ∀ i j, m.Live i → m.Live j → H.eq (m.entryAt i).1 (m.entryAt j).1 = true → i = j

theorem Rep.bucketOf_lt (h : Rep H m) (x : HashResult) : m.bucketOf x < m.buckets.length := by
  have := bucketOf_le (m := m) x
  have := h.mask
  omega

theorem Rep.home_lt (h : Rep H m) {x : HashResult} {b : Nat} (hb : m.Home x b) :
    b < m.buckets.length := by
  rcases hb with rfl | rfl
  · exact h.bucketOf_lt _
  · exact h.bucketOf_lt _

theorem SameEntries.entryAt (h : SameEntries m m') (i : Nat) : m'.entryAt i = m.entryAt i := by
  unfold CuckooMap.entryAt
  rw [h.entries]

/-- The entries keep their slots up to a renaming `f` of the occupied slots. -/
theorem Rep.rename (h : Rep H m) (hs : SameEntries m m') (f : Pos → Pos)
    (hslot : ∀ p, m'.Occ p → m.Occ (f p) ∧ m'.slotAt p = m.slotAt (f p))
    (hinj : ∀ p q, m'.Occ p → m'.Occ q → f p = f q → p = q)
    (hcover : ∀ p, m.Occ p → ∃ q, m'.Occ q ∧ f q = p)
    (hhome : ∀ p, m'.Occ p → m.Home (m.slotAt (f p)).hash p.1) : Rep H m' := by
  refine ⟨?_, ?_, ?_, ?_, ?_, ?_, ?_, ?_, ?_, ?_, ?_, ?_⟩
  · rw [hs.mask, hs.length]; exact h.mask
  · rw [hs.length]; exact h.pow2
  · rw [hs.entries]; exact h.room
  · rw [hs.free]; exact h.freeNodup
  · rw [hs.free, hs.entries]; exact h.freeLt
  · rw [hs.num, hs.free, hs.entries]; exact h.num
  · intro p hp
    obtain ⟨hf, he⟩ := hslot p hp
    rw [he, hs.live]
    exact h.idx _ hf
  · intro p q hp hq heq
    obtain ⟨hfp, hep⟩ := hslot p hp
    obtain ⟨hfq, heq'⟩ := hslot q hq
    rw [hep, heq'] at heq
    exact hinj p q hp hq (h.inj _ _ hfp hfq heq)
  · intro i hi
    obtain ⟨p, hp, hpi⟩ := h.cover i ((hs.live i).mp hi)
    obtain ⟨q, hq, rfl⟩ := hcover p hp
    exact ⟨q, hq, by rw [(hslot q hq).2, hpi]⟩
  · intro p hp
    obtain ⟨hf, he⟩ := hslot p hp
    rw [he, hs.entryAt]
    exact h.hash _ hf
  · intro p hp
    rw [(hslot p hp).2, hs.home]
    exact hhome p hp
  · intro i j hi hj hk
    rw [hs.entryAt, hs.entryAt] at hk
    exact h.keys i j ((hs.live i).mp hi) ((hs.live j).mp hj) hk

theorem Rep.transfer (h : Rep H m) (hp : m.Occ p) (hq : ¬ m.Occ q)
    (hhome : m.Home (m.slotAt p).hash q.1) : Rep H (m.transfer p q) := by
  have hne : q ≠ p := fun e => hq (e ▸ hp)
  have hslot := slotAt_transfer (m := m) hp.lt (h.home_lt hhome)
  have hocc : ∀ r, (m.transfer p q).Occ r ↔ r ≠ p ∧ (r = q ∨ m.Occ r) := by
    intro r
    unfold Occ
    rw [hslot r]
    by_cases hr : r = p
    · simp [hr]
    · by_cases hr' : r = q
      · subst hr'
        simp only [hr, if_false, if_true, ne_eq, not_false_eq_true, true_or, and_self, iff_true]
        exact hp
      · simp [hr, hr']
  apply h.rename sameEntries_transfer (fun r => if r = q then p else r)
  · intro r hr
    obtain ⟨hrp, hr'⟩ := (hocc r).mp hr
    rw [hslot r, if_neg hrp]
    by_cases hrq : r = q
    · simp [hrq, hp]
    · simp [hrq, hr'.resolve_left hrq]
  · intro r s hr hs heq
    have hrp := ((hocc r).mp hr).1
    have hsp := ((hocc s).mp hs).1
    by_cases hrq : r = q <;> by_cases hsq : s = q
    · rw [hrq, hsq]
    · simp only [hrq, hsq, if_true, if_false] at heq
      exact absurd heq.symm hsp
    · simp only [hrq, hsq, if_true, if_false] at heq
      exact absurd heq hrp
    · simpa [hrq, hsq] using heq
  · intro r hr
    by_cases hrp : r = p
    · exact ⟨q, (hocc q).mpr ⟨hne, .inl rfl⟩, by simp [hrp]⟩
    · have hrq : r ≠ q := fun e => hq (e ▸ hr)
      exact ⟨r, (hocc r).mpr ⟨hrp, .inr hr⟩, by simp [hrq]⟩
  · intro r hr
    by_cases hrq : r = q
    · subst hrq
      simpa using hhome
    · have hr' := ((hocc r).mp hr).2.resolve_left hrq
      simpa [hrq] using h.home r hr'

omit [Inhabited K] [Inhabited V] in
theorem not_occ_transfer (hp : p.1 < m.buckets.length) (hq : q.1 < m.buckets.length) :
    ¬ (m.transfer p q).Occ p := by
  simp [Occ, slotAt_transfer hp hq]

omit [Inhabited K] [Inhabited V] in
/-- A transfer from an empty slot to itself changes nothing. -/
theorem slotAt_transfer_self (hp : ¬ m.Occ p) (hlt : p.1 < m.buckets.length) (r : Pos) :
    (m.transfer p p).slotAt r = m.slotAt r := by
  rw [slotAt_transfer hlt hlt]
  have h0 : (m.slotAt p).hash = 0 := by simpa [Occ] using hp
  by_cases hr : r = p
  · subst hr
    rw [if_pos rfl, ← h0]
  · simp [hr]

theorem Rep.transfer_self (h : Rep H m) (hp : ¬ m.Occ p) (hlt : p.1 < m.buckets.length) :
    Rep H (m.transfer p p) := by
  have hslot := slotAt_transfer_self hp hlt
  have hocc : ∀ r, (m.transfer p p).Occ r ↔ m.Occ r := fun r => by unfold Occ; rw [hslot r]
  apply h.rename sameEntries_transfer id
  · exact fun r hr => ⟨(hocc r).mp hr, hslot r⟩
  · exact fun r s _ _ e => e
  · exact fun r hr => ⟨r, (hocc r).mpr hr, rfl⟩
  · exact fun r hr => h.home r ((hocc r).mp hr)

/-! ## Making space -/

/-- Every slot of the bucket is occupied. -/
def Full (m : CuckooMap K V) (b : Nat) : Prop := ∀ i, m.Occ (b, i)

section Displace

variable {deeper : CuckooMap K V → Nat → Option (Fin kEntriesPerBucket) × CuckooMap K V}
  {index : Nat} {is : List (Fin kEntriesPerBucket)} {i : Fin kEntriesPerBucket}

/-- A loop that finds nothing to displace changes nothing, if the deeper calls behave so. -/
theorem displace_none (hd : ∀ b, (deeper m b).1 = none → (deeper m b).2 = m)
    (h : (displace H deeper index is m).1 = none) : (displace H deeper index is m).2 = m := by
  induction is with
  | nil => rfl
  | cons i is ih =>
    unfold displace at h ⊢
    cases ha : altIndex H m (index, i) with
    | none => rfl
    | some alt =>
      cases hf : findEmptySlot (m.bucketAt alt) with
      | some j => simp [ha, hf] at h
      | none =>
        rcases hr : deeper m alt with ⟨r, m₁⟩
        cases r with
        | some j => simp [ha, hf, hr] at h
        | none =>
          obtain rfl : m₁ = m := by simpa [hr] using hd alt (by simp [hr])
          simp only [ha, hf, hr] at h ⊢
          exact ih h

/-- What a successful loop did: the entry of slot `i` went to a free slot `j` of its other bucket,
which was there or was made by a deeper call. -/
theorem displace_some (hd : ∀ b, (deeper m b).1 = none → (deeper m b).2 = m)
    (h : displace H deeper index is m = (some i, m')) :
    ∃ alt m₁ j, altIndex H m (index, i) = some alt ∧ m' = m₁.transfer (index, i) (alt, j) ∧
      (m₁ = m ∧ findEmptySlot (m.bucketAt alt) = some j ∨
        findEmptySlot (m.bucketAt alt) = none ∧ deeper m alt = (some j, m₁)) := by
  induction is with
  | nil => simp [displace] at h
  | cons k is ih =>
    unfold displace at h
    split at h
    · simp at h
    · rename_i alt halt
      cases hf : findEmptySlot (m.bucketAt alt) with
      | some j =>
        simp only [hf, Prod.mk.injEq, Option.some.injEq] at h
        obtain ⟨rfl, rfl⟩ := h
        exact ⟨alt, m, j, halt, rfl, .inl ⟨rfl, hf⟩⟩
      | none =>
        simp only [hf] at h
        rcases hr : deeper m alt with ⟨r, m₁⟩
        rw [hr] at h
        cases r with
        | some j =>
          simp only [Prod.mk.injEq, Option.some.injEq] at h
          obtain ⟨rfl, rfl⟩ := h
          exact ⟨alt, m₁, j, halt, rfl, .inr ⟨hf, hr⟩⟩
        | none =>
          obtain rfl : m₁ = m := by simpa [hr] using hd alt (by simp [hr])
          exact ih h

end Displace

theorem makeSpace_none (n : Nat) (b : Nat) (h : (makeSpace H n m b).1 = none) :
    (makeSpace H n m b).2 = m := by
  induction n generalizing m b with
  | zero => rfl
  | succ n ih => exact displace_none (fun b => ih b) h

/-- Slot `p` was emptied by moving entries between their buckets. -/
structure Emptied (H : Hashing K) (m m' : CuckooMap K V) (p : Pos) : Prop where
  rep : Rep H m'
  same : SameEntries m m'
  empty : ¬ m'.Occ p

theorem Rep.altIndex_home (h : Rep H m) (hp : m.Occ p) {alt : Nat}
    (ha : altIndex H m p = some alt) : m.Home (m.slotAt p).hash alt := by
  unfold altIndex at ha
  rw [if_pos (h.hash p hp).symm] at ha
  rw [h.hash p hp]
  exact .inr (Option.some.inj ha).symm

/-- The last step of a displacement: slot `p` is moved to the free slot `q`, unless the deeper call
freed `p` itself. -/
theorem Emptied.transfer {m₁ : CuckooMap K V} (h : Emptied H m m₁ q) (hq : q.1 < m.buckets.length)
    (hp : p = q ∨ m₁.Occ p ∧ m.Home (m₁.slotAt p).hash q.1) :
    Emptied H m (m₁.transfer p q) p := by
  have hq₁ : q.1 < m₁.buckets.length := by rw [h.same.length]; exact hq
  rcases hp with rfl | ⟨hp, hh⟩
  · exact ⟨h.rep.transfer_self h.empty hq₁, h.same.trans sameEntries_transfer,
      not_occ_transfer hq₁ hq₁⟩
  · exact ⟨h.rep.transfer hp h.empty ((h.same.home _ _).mpr hh),
      h.same.trans sameEntries_transfer, not_occ_transfer hp.lt hq₁⟩

section Levels

variable {b : Nat} {i : Fin kEntriesPerBucket}

theorem Rep.displace_direct (h : Rep H m) (hfull : m.Full b) {alt : Nat}
    {j : Fin kEntriesPerBucket} (ha : altIndex H m (b, i) = some alt)
    (hj : findEmptySlot (m.bucketAt alt) = some j) :
    Emptied H m (m.transfer (b, i) (alt, j)) (b, i) ∧
      ∀ p, m.Occ p → p = (b, i) ∨ (m.transfer (b, i) (alt, j)).slotAt p = m.slotAt p := by
  have hhome := h.altIndex_home (hfull i) ha
  have hempty := findEmptySlot_eq_some hj
  have hlt : alt < m.buckets.length := h.home_lt hhome
  refine ⟨Emptied.transfer ⟨h, .refl m, hempty⟩ hlt (.inr ⟨hfull i, hhome⟩), ?_⟩
  intro p hp
  by_cases hpi : p = (b, i)
  · exact .inl hpi
  · have hpj : p ≠ (alt, j) := fun e => hempty (e ▸ hp)
    exact .inr (by rw [slotAt_transfer (hfull i).lt hlt, if_neg hpi, if_neg hpj])

theorem makeSpace_one (h : Rep H m) (hfull : m.Full b) (hr : makeSpace H 1 m b = (some i, m')) :
    Emptied H m m' (b, i) ∧ ∀ p, m.Occ p → p = (b, i) ∨ m'.slotAt p = m.slotAt p := by
  obtain ⟨alt, m₁, j, ha, rfl, ⟨rfl, hj⟩ | ⟨-, hd⟩⟩ :=
    displace_some (fun b => makeSpace_none 0 b) hr
  · exact h.displace_direct hfull ha hj
  · cases hd

/-- The deeper call may have moved an entry of `b` itself into another full bucket, where the caller
of this call may then find it. -/
theorem makeSpace_two (h : Rep H m) (hfull : m.Full b) (hr : makeSpace H 2 m b = (some i, m')) :
    Emptied H m m' (b, i) ∧
      ∀ p, m.Occ p → p = (b, i) ∨ m'.slotAt p = m.slotAt p ∨
        ∃ j, m'.slotAt p = m.slotAt (b, j) := by
  obtain ⟨alt, m₁, j, ha, rfl, ⟨rfl, hj⟩ | ⟨hf, hd⟩⟩ :=
    displace_some (fun b => makeSpace_none 1 b) hr
  · obtain ⟨he, hc⟩ := h.displace_direct hfull ha hj
    exact ⟨he, fun p hp => (hc p hp).imp id .inl⟩
  · have hhome := h.altIndex_home (hfull i) ha
    have hlt : alt < m.buckets.length := h.home_lt hhome
    obtain ⟨he, hc⟩ := makeSpace_one h (findEmptySlot_eq_none hf) hd
    have hlt₁ : alt < m₁.buckets.length := by rw [he.same.length]; exact hlt
    have hbt₁ : b < m₁.buckets.length := by rw [he.same.length]; exact (hfull i).lt
    rcases hc (b, i) (hfull i) with heq | hsame
    · -- the deeper call emptied the very slot that is to be emptied
      refine ⟨he.transfer hlt (.inl heq), fun p hp => ?_⟩
      rw [heq]
      have hself := slotAt_transfer_self he.empty hlt₁ p
      exact (hc p hp).imp id fun hs => .inl (hself.trans hs)
    · have hocc : m₁.Occ (b, i) := by unfold Occ; rw [hsame]; exact hfull i
      refine ⟨he.transfer hlt (.inr ⟨hocc, by rw [hsame]; exact hhome⟩), fun p hp => ?_⟩
      rw [slotAt_transfer hbt₁ hlt₁]
      by_cases hpi : p = (b, i)
      · exact .inl hpi
      · by_cases hpj : p = (alt, j)
        · exact .inr (.inr ⟨i, by rw [if_neg hpi, if_pos hpj, hsame]⟩)
        · rw [if_neg hpi, if_neg hpj]
          exact .inr (.inl ((hc p hp).resolve_left hpj))

/-- The slot that is moved last holds the entry that the loop looked at, or nothing, or an entry
that came out of the bucket it is moved to. -/
theorem makeSpace_three (h : Rep H m) (hfull : m.Full b) (hr : makeSpace H 3 m b = (some i, m')) :
    Emptied H m m' (b, i) := by
  obtain ⟨alt, m₁, j, ha, rfl, ⟨rfl, hj⟩ | ⟨hf, hd⟩⟩ :=
    displace_some (fun b => makeSpace_none 2 b) hr
  · exact (h.displace_direct hfull ha hj).1
  · have hhome := h.altIndex_home (hfull i) ha
    have hlt : alt < m.buckets.length := h.home_lt hhome
    have hfull' : m.Full alt := findEmptySlot_eq_none hf
    obtain ⟨he, hc⟩ := makeSpace_two h hfull' hd
    rcases hc (b, i) (hfull i) with heq | hsame | ⟨k, hk⟩
    · exact he.transfer hlt (.inl heq)
    · have hocc : m₁.Occ (b, i) := by unfold Occ; rw [hsame]; exact hfull i
      exact he.transfer hlt (.inr ⟨hocc, by rw [hsame]; exact hhome⟩)
    · have hocc : m₁.Occ (b, i) := by unfold Occ; rw [hk]; exact hfull' k
      exact he.transfer hlt (.inr ⟨hocc, by rw [hk]; exact h.home _ (hfull' k)⟩)

end Levels

end CuckooMap

end Bess.Cuckoo
