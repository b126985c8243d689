import Bess.Cuckoo.Rep

/-!
# The contents of a cuckoo table

The contents are the live entries. Each primitive of the table is related to them: a lookup finds the
live entry of the key, adding to a bucket adds an entry, removing from a bucket removes one, and the
iterator visits every live entry once.
-/

namespace Bess.Cuckoo

open Bess.AssocMap

variable {K V : Type} [Inhabited K] [Inhabited V] {H : Hashing K}

namespace CuckooMap

variable {m m' : CuckooMap K V} {p q : Pos} {key : K} {value : V}

def liveIdxs (m : CuckooMap K V) : List Nat :=
  (List.range m.entries.length).filter fun i => i ∉ m.freeEntryIndices

def contents (m : CuckooMap K V) : List (K × V) := m.liveIdxs.map m.entryAt

omit [Inhabited K] [Inhabited V] in
theorem mem_liveIdxs {i : Nat} : i ∈ m.liveIdxs ↔ m.Live i := by
  simp [liveIdxs, Live]

omit [Inhabited K] [Inhabited V] in
theorem nodup_liveIdxs : m.liveIdxs.Nodup := List.nodup_range.filter _

theorem mem_contents {e : K × V} : e ∈ m.contents ↔ ∃ i, m.Live i ∧ m.entryAt i = e := by
  simp [contents, mem_liveIdxs]

theorem SameEntries.contents (h : SameEntries m m') : m'.contents = m.contents := by
  have he : m'.entryAt = m.entryAt := funext h.entryAt
  unfold CuckooMap.contents liveIdxs
  rw [he, h.entries, h.free]

theorem Rep.distinct (h : Rep H m) : Distinct H.toKeyEq m.contents := by
  unfold Distinct contents
  rw [List.pairwise_map]
  apply (List.nodup_iff_pairwise_ne.mp m.nodup_liveIdxs).imp_of_mem
  intro i j hi hj hne
  by_contra hk
  exact hne (h.keys i j (mem_liveIdxs.mp hi) (mem_liveIdxs.mp hj) (by simpa using hk))

theorem Rep.length_contents (h : Rep H m) : m.contents.length = m.numEntries := by
  have hp : (m.freeEntryIndices ++ m.liveIdxs).Perm (List.range m.entries.length) := by
    apply (List.perm_ext_iff_of_nodup ?_ List.nodup_range).mpr
    · intro i
      rw [List.mem_append, mem_liveIdxs, List.mem_range]
      constructor
      · rintro (hi | hi)
        · exact h.freeLt i hi
        · exact hi.1
      · intro hi
        by_cases hf : i ∈ m.freeEntryIndices
        · exact .inl hf
        · exact .inr ⟨hi, hf⟩
    · apply List.nodup_append.mpr
      refine ⟨h.freeNodup, m.nodup_liveIdxs, ?_⟩
      rintro i hi j hj rfl
      exact (mem_liveIdxs.mp hj).2 hi
  have hl := hp.length_eq
  have hn := h.num
  simp only [List.length_append, List.length_range] at hl
  simp only [contents, List.length_map]
  omega

/-! ## Lookup -/

variable {b : Nat}

theorem findSlot_eq_some {x : HashResult} {i : Fin kEntriesPerBucket}
    (h : findSlot H m (m.bucketAt b) x key = some i) :
    (m.slotAt (b, i)).hash = x ∧ H.eq (m.entryAt (m.slotAt (b, i)).idx).1 key = true := by
  have := List.find?_some (p := fun i : Fin kEntriesPerBucket =>
    decide ((m.bucketAt b)[i].hash = x ∧ H.eq (m.entryAt (m.bucketAt b)[i].idx).1 key = true)) h
  simpa [slotAt] using this

theorem findSlot_ne_none {x : HashResult} {i : Fin kEntriesPerBucket}
    (hx : (m.slotAt (b, i)).hash = x) (hk : H.eq (m.entryAt (m.slotAt (b, i)).idx).1 key = true) :
    findSlot H m (m.bucketAt b) x key ≠ none := by
  intro hn
  have := List.find?_eq_none.mp hn i (mem_slotIdxs i)
  rw [decide_eq_true_eq] at this
  exact this ⟨hx, hk⟩

/-- The key's slot: occupied, with the hash of the key and a live entry with an equal key. -/
theorem Rep.findSlot_spec (h : Rep H m) {i : Fin kEntriesPerBucket}
    (hf : findSlot H m (m.bucketAt b) (H.hash key) key = some i) :
    m.Occ (b, i) ∧ m.Live (m.slotAt (b, i)).idx ∧
      H.eq (m.entryAt (m.slotAt (b, i)).idx).1 key = true := by
  obtain ⟨hx, hk⟩ := findSlot_eq_some hf
  have hocc : m.Occ (b, i) := by unfold Occ; rw [hx]; exact H.hash_ne_zero key
  exact ⟨hocc, h.idx _ hocc, hk⟩

/-- A live entry with an equal key is found in one of the two buckets of the key. -/
theorem Rep.findSlot_of_live (h : Rep H m) {i : Nat} (hi : m.Live i)
    (hk : H.eq (m.entryAt i).1 key = true) :
    findSlot H m (m.bucketAt (m.bucketOf (H.hash key))) (H.hash key) key ≠ none ∨
      findSlot H m (m.bucketAt (m.bucketOf (hashSecondary (H.hash key)))) (H.hash key) key ≠ none := by
  obtain ⟨⟨b, j⟩, hp, rfl⟩ := h.cover i hi
  have hx : (m.slotAt (b, j)).hash = H.hash key := (h.hash _ hp).trans (Hashing.hash_eq hk)
  have hb : m.Home (H.hash key) b := hx ▸ h.home _ hp
  rcases hb with rfl | rfl
  · exact .inl (findSlot_ne_none hx hk)
  · exact .inr (findSlot_ne_none hx hk)

theorem Rep.getFromBucket_spec (h : Rep H m) {i : Nat}
    (hg : getFromBucket H m (H.hash key) b key = some i) :
    m.Live i ∧ H.eq (m.entryAt i).1 key = true := by
  unfold getFromBucket at hg
  obtain ⟨j, hj, rfl⟩ := Option.map_eq_some_iff.mp hg
  exact (h.findSlot_spec hj).2

theorem Rep.findWithHash_eq_some (h : Rep H m) {i : Nat} :
    findWithHash H m (H.hash key) key = some i ↔ m.Live i ∧ H.eq (m.entryAt i).1 key = true := by
  have hsound : ∀ j, findWithHash H m (H.hash key) key = some j →
      m.Live j ∧ H.eq (m.entryAt j).1 key = true := by
    intro j hj
    rcases Option.or_eq_some_iff.mp hj with hj | ⟨-, hj⟩
    · exact h.getFromBucket_spec hj
    · exact h.getFromBucket_spec hj
  constructor
  · exact hsound i
  · rintro ⟨hi, hk⟩
    cases hf : findWithHash H m (H.hash key) key with
    | none =>
      obtain ⟨h1, h2⟩ := Option.or_eq_none_iff.mp hf
      rcases h.findSlot_of_live hi hk with hn | hn
      · exact absurd (Option.map_eq_none_iff.mp h1) hn
      · exact absurd (Option.map_eq_none_iff.mp h2) hn
    | some j =>
      obtain ⟨hj, hkj⟩ := hsound j hf
      rw [h.keys j i hj hi (H.trans _ _ _ hkj (H.symm _ _ hk))]

theorem Rep.findWithHash_eq_none (h : Rep H m) :
    findWithHash H m (H.hash key) key = none ↔ AssocMap.find H.toKeyEq m.contents key = none := by
  rw [AssocMap.find_eq_none]
  constructor
  · intro hn e he
    obtain ⟨i, hi, rfl⟩ := mem_contents.mp he
    by_contra hk
    rw [h.findWithHash_eq_some.mpr ⟨hi, by simpa using hk⟩] at hn
    cases hn
  · intro hall
    cases hf : findWithHash H m (H.hash key) key with
    | none => rfl
    | some i =>
      obtain ⟨hi, hk⟩ := h.findWithHash_eq_some.mp hf
      rw [hall _ (mem_contents.mpr ⟨i, hi, rfl⟩)] at hk
      cases hk

theorem Rep.find_eq (h : Rep H m) : m.find H key = AssocMap.find H.toKeyEq m.contents key := by
  cases hf : findWithHash H m (H.hash key) key with
  | none => rw [h.findWithHash_eq_none.mp hf, CuckooMap.find, hf]; rfl
  | some i =>
    obtain ⟨hi, hk⟩ := h.findWithHash_eq_some.mp hf
    rw [CuckooMap.find, hf]
    exact (h.distinct.find_eq_some.mpr ⟨mem_contents.mpr ⟨i, hi, rfl⟩, hk⟩).symm

/-! ## Adding an entry -/

theorem entryAt_set {i : Nat} (hi : i < m.entries.length) (e : K × V) (j : Nat) :
    ({ m with entries := m.entries.set i e } : CuckooMap K V).entryAt j =
      if j = i then e else m.entryAt j := by
  unfold entryAt
  simp only [List.getD_eq_getElem?_getD, List.getElem?_set]
  by_cases hj : j = i
  · subst hj; simp [hi]
  · simp [hj, Ne.symm hj]

/-- `AddToBucket` after the free slot `p` and the free index `i` were chosen. -/
def place (H : Hashing K) (m : CuckooMap K V) (p : Pos) (i : Nat) (rest : List Nat) (key : K)
    (value : V) : CuckooMap K V :=
  { m.setSlot p ⟨H.hash key, i⟩ with
    entries := m.entries.set i (key, value), numEntries := m.numEntries + 1,
    freeEntryIndices := rest }

section Place

variable {i : Nat} {rest : List Nat}

theorem Rep.live_place (h : Rep H m) (hfree : m.freeEntryIndices = i :: rest) (p : Pos) (key : K)
    (value : V) (j : Nat) :
    (place H m p i rest key value).Live j ↔ j = i ∨ m.Live j := by
  have hi : i < m.entries.length := h.freeLt i (by simp [hfree])
  have hn := h.freeNodup
  rw [hfree, List.nodup_cons] at hn
  unfold Live
  rw [hfree]
  simp only [place, List.length_set, List.mem_cons, not_or]
  constructor
  · rintro ⟨h1, h2⟩
    by_cases hj : j = i
    · exact .inl hj
    · exact .inr ⟨h1, hj, h2⟩
  · rintro (rfl | ⟨h1, -, h2⟩)
    · exact ⟨hi, hn.1⟩
    · exact ⟨h1, h2⟩

theorem Rep.entryAt_place (h : Rep H m) (hfree : m.freeEntryIndices = i :: rest) (p : Pos) (key : K)
    (value : V) (j : Nat) :
    (place H m p i rest key value).entryAt j = if j = i then (key, value) else m.entryAt j :=
  entryAt_set (m := m) (h.freeLt i (by simp [hfree])) (key, value) j

theorem Rep.slotAt_place (h : Rep H m) (hhome : m.Home (H.hash key) p.1) (i : Nat)
    (rest : List Nat) (value : V) (q : Pos) :
    (place H m p i rest key value).slotAt q = if q = p then ⟨H.hash key, i⟩ else m.slotAt q :=
  slotAt_setSlot (h.home_lt hhome) _ q

theorem Rep.occ_place (h : Rep H m) (hhome : m.Home (H.hash key) p.1) (i : Nat) (rest : List Nat)
    (value : V) (q : Pos) : (place H m p i rest key value).Occ q ↔ q = p ∨ m.Occ q := by
  unfold Occ
  rw [h.slotAt_place hhome]
  by_cases hq : q = p
  · simp only [hq, if_true, ne_eq, true_or, iff_true]
    exact H.hash_ne_zero key
  · simp [hq]

theorem Rep.place (h : Rep H m) (hfree : m.freeEntryIndices = i :: rest) (hp : ¬ m.Occ p)
    (hhome : m.Home (H.hash key) p.1) (hnew : AssocMap.find H.toKeyEq m.contents key = none) :
    Rep H (place H m p i rest key value) := by
  have hi : i < m.entries.length := h.freeLt i (by simp [hfree])
  have hlive := h.live_place hfree p key value
  have hent := h.entryAt_place hfree p key value
  have hnl : ¬ m.Live i := fun hl => hl.2 (by simp [hfree])
  have hslot := h.slotAt_place hhome i rest value
  have hocc := h.occ_place hhome i rest value
  have hidx : ∀ q, m.Occ q → q ≠ p ∧ (m.slotAt q).idx ≠ i := fun q hq =>
    ⟨fun e => hp (e ▸ hq), fun e => hnl (e ▸ h.idx q hq)⟩
  have habs : ∀ j, m.Live j → H.eq (m.entryAt j).1 key = false := fun j hj =>
    AssocMap.find_eq_none.mp hnew _ (mem_contents.mpr ⟨j, hj, rfl⟩)
  have hn := h.freeNodup
  rw [hfree, List.nodup_cons] at hn
  have hnum := h.num
  rw [hfree, List.length_cons] at hnum
  refine ⟨?_, ?_, ?_, hn.2, ?_, ?_, ?_, ?_, ?_, ?_, ?_, ?_⟩
  · show m.bucketMask.toNat < _
    simpa [CuckooMap.place] using h.mask
  · simpa [CuckooMap.place] using h.pow2
  · simpa [CuckooMap.place] using h.room
  · intro j hj
    simpa [CuckooMap.place] using h.freeLt j (by rw [hfree]; exact List.mem_cons_of_mem _ hj)
  · simp only [CuckooMap.place, List.length_set]
    omega
  · intro q hq
    rw [hslot q, hlive]
    rcases (hocc q).mp hq with rfl | hq
    · simp
    · rw [if_neg (hidx q hq).1]
      exact .inr (h.idx q hq)
  · intro q r hq hr heq
    rw [hslot q, hslot r] at heq
    rcases (hocc q).mp hq with hqp | hq <;> rcases (hocc r).mp hr with hrp | hr
    · rw [hqp, hrp]
    · rw [if_pos hqp, if_neg (hidx r hr).1] at heq
      exact absurd heq.symm (hidx r hr).2
    · rw [if_pos hrp, if_neg (hidx q hq).1] at heq
      exact absurd heq (hidx q hq).2
    · rw [if_neg (hidx q hq).1, if_neg (hidx r hr).1] at heq
      exact h.inj q r hq hr heq
  · intro j hj
    rcases (hlive j).mp hj with rfl | hj
    · exact ⟨p, (hocc p).mpr (.inl rfl), by rw [hslot p, if_pos rfl]⟩
    · obtain ⟨q, hq, hqj⟩ := h.cover j hj
      exact ⟨q, (hocc q).mpr (.inr hq), by rw [hslot q, if_neg (hidx q hq).1, hqj]⟩
  · intro q hq
    rw [hslot q]
    rcases (hocc q).mp hq with rfl | hq
    · simp [hent]
    · rw [if_neg (hidx q hq).1, hent, if_neg (hidx q hq).2]
      exact h.hash q hq
  · intro q hq
    rw [hslot q]
    rcases (hocc q).mp hq with rfl | hq
    · rw [if_pos rfl]
      exact hhome
    · rw [if_neg (hidx q hq).1]
      exact h.home q hq
  · intro j k hj hk heq
    rw [hent, hent] at heq
    have hne : ∀ l, m.Live l → l ≠ i := fun l hl e => hnl (e ▸ hl)
    rcases (hlive j).mp hj with hji | hj <;> rcases (hlive k).mp hk with hki | hk
    · rw [hji, hki]
    · rw [if_pos hji, if_neg (hne k hk), KeyEq.comm, habs k hk] at heq
      cases heq
    · rw [if_pos hki, if_neg (hne j hj), habs j hj] at heq
      cases heq
    · rw [if_neg (hne j hj), if_neg (hne k hk)] at heq
      exact h.keys j k hj hk heq

theorem Rep.contents_place (h : Rep H m) (hfree : m.freeEntryIndices = i :: rest) :
    (CuckooMap.place H m p i rest key value).contents.Perm ((key, value) :: m.contents) := by
  have hnl : ¬ m.Live i := fun hl => hl.2 (by simp [hfree])
  have hp : (CuckooMap.place H m p i rest key value).liveIdxs.Perm (i :: m.liveIdxs) := by
    apply (List.perm_ext_iff_of_nodup (nodup_liveIdxs ..) ?_).mpr
    · intro j
      rw [mem_liveIdxs, h.live_place hfree, List.mem_cons, mem_liveIdxs]
    · exact List.nodup_cons.mpr ⟨fun hm => hnl (mem_liveIdxs.mp hm), m.nodup_liveIdxs⟩
  have hmap : m.liveIdxs.map (CuckooMap.place H m p i rest key value).entryAt = m.contents := by
    apply List.map_congr_left
    intro j hj
    rw [h.entryAt_place hfree, if_neg]
    exact fun e => hnl (e ▸ mem_liveIdxs.mp hj)
  have := hp.map (CuckooMap.place H m p i rest key value).entryAt
  rw [List.map_cons, hmap, h.entryAt_place hfree, if_pos rfl] at this
  exact this

end Place

/-- Growing the array of entries when no index is free. -/
theorem Rep.expandEntries (h : Rep H m) (hfree : m.freeEntryIndices = []) :
    ∃ m', m.expandEntries = some m' ∧ Rep H m' ∧ m'.contents = m.contents ∧
      m'.buckets = m.buckets ∧ m'.bucketMask = m.bucketMask ∧ m'.freeEntryIndices ≠ [] := by
  have hroom := h.room
  obtain ⟨k, hk⟩ : ∃ k, m.entries.length + m.entries.length / 2 - m.entries.length = k + 1 :=
    ⟨m.entries.length / 2 - 1, by omega⟩
  let m' : CuckooMap K V := { m with
    entries := m.entries ++ List.replicate (k + 1) default
    freeEntryIndices := List.range' m.entries.length (k + 1) ++ m.freeEntryIndices }
  have hlive : ∀ i, m'.Live i ↔ m.Live i := by
    intro i
    simp only [m', Live, hfree, List.append_nil, List.length_append, List.length_replicate,
      List.mem_range'_1, List.not_mem_nil, not_false_eq_true, and_true]
    omega
  have hent : ∀ i, m.Live i → m'.entryAt i = m.entryAt i := by
    intro i hi
    simp only [m', CuckooMap.entryAt, List.getD_eq_getElem?_getD]
    rw [List.getElem?_append_left hi.1]
  have hslot : ∀ p, m'.slotAt p = m.slotAt p := fun _ => rfl
  have hids : m'.liveIdxs.Perm m.liveIdxs := by
    apply (List.perm_ext_iff_of_nodup (nodup_liveIdxs ..) (nodup_liveIdxs ..)).mpr
    intro i
    rw [mem_liveIdxs, mem_liveIdxs, hlive]
  have heq : m'.liveIdxs = m.liveIdxs := by
    have hs : ∀ x : CuckooMap K V, x.liveIdxs.Pairwise (· < ·) := fun x =>
      List.pairwise_lt_range.filter _
    exact hids.eq_of_pairwise (fun a b _ _ hab hba => absurd hba (by omega)) (hs m') (hs m)
  refine ⟨m', ?_, ?_, ?_, rfl, rfl, ?_⟩
  · simp only [CuckooMap.expandEntries, hk]
    rw [if_neg (by omega)]
  · refine ⟨h.mask, h.pow2, ?_, ?_, ?_, ?_, ?_, h.inj, ?_, ?_, h.home, ?_⟩
    · simp only [m', List.length_append]
      omega
    · simp only [m', hfree, List.append_nil]
      exact List.nodup_range'
    · intro i hi
      simp only [m', hfree, List.append_nil, List.mem_range'_1, List.length_append,
        List.length_replicate] at hi ⊢
      omega
    · have := h.num
      simp only [hfree, List.length_nil] at this
      simp only [m', hfree, List.append_nil, List.length_range', List.length_append,
        List.length_replicate]
      omega
    · exact fun p hp => (hlive _).mpr (h.idx p hp)
    · exact fun i hi => h.cover i ((hlive i).mp hi)
    · intro p hp
      rw [hslot p, hent _ (h.idx p hp)]
      exact h.hash p hp
    · intro i j hi hj hk'
      have hi := (hlive i).mp hi
      have hj := (hlive j).mp hj
      rw [hent i hi, hent j hj] at hk'
      exact h.keys i j hi hj hk'
  · unfold contents
    rw [heq]
    exact List.map_congr_left fun i hi => hent i (mem_liveIdxs.mp hi)
  · simp [m']

theorem Rep.popFreeEntryIndex (h : Rep H m) :
    ∃ m₁ i rest, m.popFreeEntryIndex = some (i, { m₁ with freeEntryIndices := rest }) ∧
      m₁.freeEntryIndices = i :: rest ∧ Rep H m₁ ∧ m₁.contents = m.contents ∧
      m₁.buckets = m.buckets ∧ m₁.bucketMask = m.bucketMask := by
  cases he : m.freeEntryIndices with
  | nil =>
    obtain ⟨m₁, hm, h₁, hc, hb, hmask, hne⟩ := h.expandEntries he
    obtain ⟨i, rest, hfree⟩ := List.exists_cons_of_ne_nil hne
    refine ⟨m₁, i, rest, ?_, hfree, h₁, hc, hb, hmask⟩
    simp [CuckooMap.popFreeEntryIndex, he, hm, hfree]
  | cons i rest =>
    refine ⟨m, i, rest, ?_, he, h, rfl, rfl, rfl⟩
    simp [CuckooMap.popFreeEntryIndex, he]

/-- `AddToBucket` fails only on a full bucket, and then changes nothing. -/
theorem Rep.addToBucket_spec (h : Rep H m) (hhome : m.Home (H.hash key) b)
    (hnew : AssocMap.find H.toKeyEq m.contents key = none) (value : V) :
    m.Full b ∧ m.addToBucket H b key value = some (none, m) ∨
    ¬ m.Full b ∧ ∃ i m', m.addToBucket H b key value = some (some i, m') ∧ Rep H m' ∧
      m'.entryAt i = (key, value) ∧ m'.contents.Perm ((key, value) :: m.contents) := by
  unfold addToBucket
  cases hf : findEmptySlot (m.bucketAt b) with
  | none => exact .inl ⟨findEmptySlot_eq_none hf, rfl⟩
  | some s =>
    have hs := findEmptySlot_eq_some hf
    refine .inr ⟨fun hfull => hs (hfull s), ?_⟩
    obtain ⟨m₁, i, rest, hpop, hfree, h₁, hc, hb, hmask⟩ := h.popFreeEntryIndex
    have hocc : ¬ m₁.Occ (b, s) := by
      unfold Occ slotAt bucketAt at hs ⊢
      rw [hb]
      exact hs
    have hhome₁ : m₁.Home (H.hash key) b := by
      unfold Home bucketOf at hhome ⊢
      rw [hmask]
      exact hhome
    refine ⟨i, CuckooMap.place H m₁ (b, s) i rest key value, ?_, ?_, ?_, ?_⟩
    · simp only [hpop, Option.bind_eq_bind, Option.bind_some]
      rfl
    · exact h₁.place hfree hocc hhome₁ (hc ▸ hnew)
    · rw [h₁.entryAt_place hfree, if_pos rfl]
    · rw [← hc]
      exact h₁.contents_place hfree

/-! ## Changing and removing an entry -/

theorem Rep.setValue (h : Rep H m) {i : Nat} (hi : m.Live i) :
    Rep H { m with entries := m.entries.set i ((m.entryAt i).1, value) } := by
  have hent := entryAt_set (m := m) hi.1 ((m.entryAt i).1, value)
  have hkey : ∀ j, (({ m with entries := m.entries.set i ((m.entryAt i).1, value) } :
      CuckooMap K V).entryAt j).1 = (m.entryAt j).1 := by
    intro j
    rw [hent]
    split
    · rename_i hj
      rw [hj]
    · rfl
  have hlive : ∀ j, ({ m with entries := m.entries.set i ((m.entryAt i).1, value) } :
      CuckooMap K V).Live j ↔ m.Live j := by
    intro j
    simp [Live]
  refine ⟨h.mask, h.pow2, ?_, h.freeNodup, ?_, ?_, ?_, h.inj, ?_, ?_, h.home, ?_⟩
  · simpa using h.room
  · simpa using h.freeLt
  · simpa using h.num
  · exact fun p hp => (hlive _).mpr (h.idx p hp)
  · exact fun j hj => h.cover j ((hlive j).mp hj)
  · intro p hp
    rw [hkey]
    exact h.hash p hp
  · intro j k hj hk heq
    rw [hkey, hkey] at heq
    exact h.keys j k ((hlive j).mp hj) ((hlive k).mp hk) heq

theorem Rep.contents_setValue (h : Rep H m) {i : Nat} (hi : m.Live i)
    (hk : H.eq (m.entryAt i).1 key = true) :
    ({ m with entries := m.entries.set i ((m.entryAt i).1, value) } : CuckooMap K V).contents =
      update H.toKeyEq m.contents key value := by
  have hent := entryAt_set (m := m) hi.1 ((m.entryAt i).1, value)
  unfold contents update liveIdxs
  simp only [List.length_set, List.map_map]
  apply List.map_congr_left
  intro j hj
  have hj : m.Live j := mem_liveIdxs.mp hj
  rw [hent, Function.comp_apply]
  by_cases hji : j = i
  · rw [if_pos hji, hji, if_pos hk]
  · have hne : H.eq (m.entryAt j).1 key ≠ true := fun hjk =>
      hji (h.keys j i hj hi (H.trans _ _ _ hjk (H.symm _ _ hk)))
    rw [if_neg hji, if_neg hne]

/-- `RemoveFromBucket` after the slot of the key was found. -/
def unplace (m : CuckooMap K V) (p : Pos) : CuckooMap K V :=
  { m.setSlot p { m.slotAt p with hash := 0 } with
    entries := m.entries.set (m.slotAt p).idx default
    freeEntryIndices := (m.slotAt p).idx :: m.freeEntryIndices
    numEntries := m.numEntries - 1 }

theorem live_unplace (j : Nat) :
    (m.unplace p).Live j ↔ j ≠ (m.slotAt p).idx ∧ m.Live j := by
  unfold Live
  simp only [unplace, List.length_set, List.mem_cons, not_or]
  constructor
  · rintro ⟨h1, h2, h3⟩
    exact ⟨h2, h1, h3⟩
  · rintro ⟨h2, h1, h3⟩
    exact ⟨h1, h2, h3⟩

theorem Rep.entryAt_unplace (h : Rep H m) (hp : m.Occ p) {j : Nat} (hj : (m.unplace p).Live j) :
    (m.unplace p).entryAt j = m.entryAt j := by
  have := entryAt_set (m := m) (h.idx p hp).1 default j
  rw [if_neg ((live_unplace j).mp hj).1] at this
  exact this

theorem Rep.contents_unplace (h : Rep H m) (hp : m.Occ p) :
    m.contents.Perm (m.entryAt (m.slotAt p).idx :: (m.unplace p).contents) := by
  have hids : m.liveIdxs.Perm ((m.slotAt p).idx :: (m.unplace p).liveIdxs) := by
    apply (List.perm_ext_iff_of_nodup (nodup_liveIdxs ..) ?_).mpr
    · intro j
      rw [List.mem_cons, mem_liveIdxs, mem_liveIdxs, live_unplace]
      constructor
      · intro hj
        by_cases hji : j = (m.slotAt p).idx
        · exact .inl hji
        · exact .inr ⟨hji, hj⟩
      · rintro (rfl | ⟨-, hj⟩)
        · exact h.idx p hp
        · exact hj
    · refine List.nodup_cons.mpr ⟨?_, nodup_liveIdxs ..⟩
      rw [mem_liveIdxs, live_unplace]
      exact fun hj => hj.1 rfl
  have hmap : (m.unplace p).liveIdxs.map m.entryAt = (m.unplace p).contents := by
    apply List.map_congr_left
    intro j hj
    exact (h.entryAt_unplace hp (mem_liveIdxs.mp hj)).symm
  have := hids.map m.entryAt
  rw [List.map_cons, hmap] at this
  exact this

theorem Rep.unplace (h : Rep H m) (hp : m.Occ p) : Rep H (m.unplace p) := by
  have hlive := live_unplace (m := m) (p := p)
  have hslot : ∀ q, (m.unplace p).slotAt q =
      if q = p then { m.slotAt p with hash := 0 } else m.slotAt q :=
    slotAt_setSlot hp.lt _
  have hocc : ∀ q, (m.unplace p).Occ q ↔ q ≠ p ∧ m.Occ q := by
    intro q
    unfold Occ
    rw [hslot q]
    by_cases hq : q = p
    · simp [hq]
    · simp [hq]
  -- an index is freed that was in use, so there was an entry to count
  have hpos : 0 < m.numEntries := by
    rw [← h.length_contents, (h.contents_unplace hp).length_eq]
    simp
  have hnum := h.num
  refine ⟨?_, ?_, ?_, ?_, ?_, ?_, ?_, ?_, ?_, ?_, ?_, ?_⟩
  · show m.bucketMask.toNat < _
    simpa [CuckooMap.unplace] using h.mask
  · simpa [CuckooMap.unplace] using h.pow2
  · simpa [CuckooMap.unplace] using h.room
  · exact List.nodup_cons.mpr ⟨(h.idx p hp).2, h.freeNodup⟩
  · intro j hj
    simp only [CuckooMap.unplace, List.length_set]
    rcases List.mem_cons.mp hj with rfl | hj
    · exact (h.idx p hp).1
    · exact h.freeLt j hj
  · simp only [CuckooMap.unplace, List.length_set, List.length_cons]
    omega
  · intro q hq
    obtain ⟨hqp, hq⟩ := (hocc q).mp hq
    rw [hslot q, if_neg hqp, hlive]
    exact ⟨fun e => hqp (h.inj q p hq hp e), h.idx q hq⟩
  · intro q r hq hr heq
    obtain ⟨hqp, hq⟩ := (hocc q).mp hq
    obtain ⟨hrp, hr⟩ := (hocc r).mp hr
    rw [hslot q, hslot r, if_neg hqp, if_neg hrp] at heq
    exact h.inj q r hq hr heq
  · intro j hj
    obtain ⟨hji, hj⟩ := (hlive j).mp hj
    obtain ⟨q, hq, rfl⟩ := h.cover j hj
    have hqp : q ≠ p := fun e => hji (by rw [e])
    exact ⟨q, (hocc q).mpr ⟨hqp, hq⟩, by rw [hslot q, if_neg hqp]⟩
  · intro q hq
    obtain ⟨hqp, hq'⟩ := (hocc q).mp hq
    have hl : (m.unplace p).Live (m.slotAt q).idx :=
      (hlive _).mpr ⟨fun e => hqp (h.inj q p hq' hp e), h.idx q hq'⟩
    rw [hslot q, if_neg hqp, h.entryAt_unplace hp hl]
    exact h.hash q hq'
  · intro q hq
    obtain ⟨hqp, hq⟩ := (hocc q).mp hq
    rw [hslot q, if_neg hqp]
    exact h.home q hq
  · intro j k hj hk heq
    rw [h.entryAt_unplace hp hj, h.entryAt_unplace hp hk] at heq
    exact h.keys j k ((hlive j).mp hj).2 ((hlive k).mp hk).2 heq

/-- Removing from a bucket removes the entry of the key, if the key is in the bucket. -/
theorem Rep.removeFromBucket_spec (h : Rep H m) (key : K) (b : Nat) :
    let r := removeFromBucket H m (H.hash key) b key
    r.1 = false ∧ r.2 = m ∧ findSlot H m (m.bucketAt b) (H.hash key) key = none ∨
    r.1 = true ∧ Rep H r.2 ∧ (∃ e, AssocMap.find H.toKeyEq m.contents key = some e) ∧
      r.2.contents.Perm (AssocMap.erase H.toKeyEq m.contents key) := by
  unfold removeFromBucket
  cases hf : findSlot H m (m.bucketAt b) (H.hash key) key with
  | none => exact .inl ⟨rfl, rfl, rfl⟩
  | some i =>
    obtain ⟨hocc, hl, hk⟩ := h.findSlot_spec hf
    have hc := h.contents_unplace hocc
    refine .inr ⟨rfl, h.unplace hocc, ?_, ?_⟩
    · exact ⟨_, h.distinct.find_eq_some.mpr ⟨mem_contents.mpr ⟨_, hl, rfl⟩, hk⟩⟩
    · have := erase_perm (E := H.toKeyEq) hc key
      rw [erase_cons_of_eq (h.distinct.perm hc) hk] at this
      exact this.symm

theorem Rep.remove_spec (h : Rep H m) (key : K) :
    Rep H (m.remove H key).2 ∧
      (m.remove H key).1 = (AssocMap.find H.toKeyEq m.contents key).isSome ∧
      (m.remove H key).2.contents.Perm (AssocMap.erase H.toKeyEq m.contents key) := by
  unfold CuckooMap.remove
  simp only
  rcases h.removeFromBucket_spec key (m.bucketOf (H.hash key)) with
    ⟨h1, h2, h3⟩ | ⟨h1, hr, ⟨e, he⟩, hc⟩
  · rw [h1, h2]
    simp only [Bool.false_eq_true, if_false]
    rcases h.removeFromBucket_spec key (m.bucketOf (hashSecondary (H.hash key))) with
      ⟨h1', h2', h3'⟩ | ⟨h1', hr, ⟨e, he⟩, hc⟩
    · -- the key is in neither of its buckets
      have hn : AssocMap.find H.toKeyEq m.contents key = none := by
        rw [← h.findWithHash_eq_none]
        simp [findWithHash, getFromBucket, h3, h3']
      rw [h1', h2', hn, erase_of_find_eq_none hn]
      exact ⟨h, rfl, List.Perm.refl _⟩
    · exact ⟨hr, by rw [h1', he]; rfl, hc⟩
  · rw [h1]
    simp only [if_true]
    exact ⟨hr, by rw [he]; rfl, hc⟩

/-! ## A new table, and the iterator -/

theorem bucketAt_new (b e c : Nat) : (new b e : CuckooMap K V).bucketAt c = Bucket.empty := by
  unfold bucketAt new
  simp only [List.getD_eq_getElem?_getD, List.getElem?_replicate]
  split <;> rfl

theorem slotAt_new (b e : Nat) (p : Pos) : (new b e : CuckooMap K V).slotAt p = Slot.empty := by
  simp [slotAt, bucketAt_new, Bucket.empty]

theorem rep_new {k e : Nat} (he : 2 ≤ e) : Rep H (new (2 ^ k) e : CuckooMap K V) := by
  have hocc : ∀ p, ¬ (new (2 ^ k) e : CuckooMap K V).Occ p := by
    intro p
    simp [Occ, slotAt_new, Slot.empty]
  have hlive : ∀ i, ¬ (new (2 ^ k) e : CuckooMap K V).Live i := by
    intro i
    simp [Live, new]
  have hpos : 0 < 2 ^ k := Nat.two_pow_pos k
  refine ⟨?_, ⟨k, by simp [new]⟩, by simpa [new] using he, List.nodup_range, ?_, ?_, ?_, ?_, ?_, ?_,
    ?_, ?_⟩
  · have := Nat.mod_le (2 ^ k - 1) (2 ^ 32)
    simp only [new, BitVec.toNat_ofNat, List.length_replicate]
    omega
  · intro i hi
    simpa [new] using hi
  · simp [new]
  · exact fun p hp => absurd hp (hocc p)
  · exact fun p q hp => absurd hp (hocc p)
  · exact fun i hi => absurd hi (hlive i)
  · exact fun p hp => absurd hp (hocc p)
  · exact fun p hp => absurd hp (hocc p)
  · exact fun i j hi => absurd hi (hlive i)

theorem contents_new (b e : Nat) : (new b e : CuckooMap K V).contents = [] := by
  simp [contents, liveIdxs, new]

/-- The entry indices in the occupied slots, in the order of the iterator. -/
def slotIdxList (m : CuckooMap K V) : List Nat :=
  (List.range m.buckets.length).flatMap fun b => slotIdxs.filterMap fun i =>
    if (m.slotAt (b, i)).hash = 0 then none else some (m.slotAt (b, i)).idx

theorem items_eq : m.items = m.slotIdxList.map m.entryAt := by
  have hb : m.buckets = (List.range m.buckets.length).map m.bucketAt := by
    apply List.ext_getElem (by simp)
    intro i h1 h2
    simp [bucketAt, List.getD_eq_getElem?_getD, h1]
  unfold items slotIdxList
  rw [List.map_flatMap]
  conv_lhs => rw [hb]
  rw [List.flatMap_map]
  congr 1
  funext b
  rw [List.map_filterMap]
  congr 1
  funext i
  show (if (m.slotAt (b, i)).hash = 0 then none else some (m.entryAt (m.slotAt (b, i)).idx)) = _
  by_cases hz : (m.slotAt (b, i)).hash = 0
  · rw [if_pos hz, if_pos hz]; rfl
  · rw [if_neg hz, if_neg hz]; rfl

omit [Inhabited K] [Inhabited V] in
theorem mem_slotIdxList {i : Nat} : i ∈ m.slotIdxList ↔ ∃ p, m.Occ p ∧ (m.slotAt p).idx = i := by
  simp only [slotIdxList, List.mem_flatMap, List.mem_filterMap, List.mem_range]
  constructor
  · rintro ⟨b, -, j, -, hj⟩
    split at hj
    · cases hj
    · rename_i hne
      exact ⟨(b, j), hne, Option.some.inj hj⟩
  · rintro ⟨⟨b, j⟩, hp, rfl⟩
    refine ⟨b, hp.lt, j, mem_slotIdxs j, ?_⟩
    rw [if_neg hp]

omit [Inhabited K] [Inhabited V] in
theorem nodup_slotIdxList
    (hinj : ∀ p q, m.Occ p → m.Occ q → (m.slotAt p).idx = (m.slotAt q).idx → p = q) :
    m.slotIdxList.Nodup := by
  have hval : ∀ b i x, (if (m.slotAt (b, i)).hash = 0 then none else some (m.slotAt (b, i)).idx) =
      some x → m.Occ (b, i) ∧ (m.slotAt (b, i)).idx = x := by
    intro b i x hx
    split at hx
    · cases hx
    · rename_i hne
      exact ⟨hne, Option.some.inj hx⟩
  apply List.nodup_flatMap.mpr
  constructor
  · intro b _
    apply List.Nodup.filterMap
    · intro i j x hi hj
      obtain ⟨hoi, hxi⟩ := hval b i x hi
      obtain ⟨hoj, hxj⟩ := hval b j x hj
      exact congrArg Prod.snd (hinj _ _ hoi hoj (hxi.trans hxj.symm))
    · decide
  · apply (List.nodup_iff_pairwise_ne.mp List.nodup_range).imp
    intro b c hne x hb hc
    obtain ⟨i, -, hi⟩ := List.mem_filterMap.mp hb
    obtain ⟨j, -, hj⟩ := List.mem_filterMap.mp hc
    obtain ⟨hoi, hxi⟩ := hval b i x hi
    obtain ⟨hoj, hxj⟩ := hval c j x hj
    exact hne (congrArg Prod.fst (hinj _ _ hoi hoj (hxi.trans hxj.symm)))

theorem Rep.slotIdxList_perm (h : Rep H m) : m.slotIdxList.Perm m.liveIdxs := by
  apply (List.perm_ext_iff_of_nodup (nodup_slotIdxList h.inj) m.nodup_liveIdxs).mpr
  intro i
  rw [mem_slotIdxList, mem_liveIdxs]
  constructor
  · rintro ⟨p, hp, rfl⟩
    exact h.idx p hp
  · exact h.cover i

theorem Rep.items_perm (h : Rep H m) : m.items.Perm m.contents := by
  rw [items_eq]
  exact h.slotIdxList_perm.map m.entryAt

end CuckooMap

end Bess.Cuckoo
