import Bess.L2.Lookup
import Bess.Utils.Checksum

/-!
# The table of `L2Forward` as a set of entries

Adding, deleting and flushing against what they should do to the set of occupied entries. As long as
every entry is in one of the two buckets of its address, no address is there twice and the count is
right, each operation does what it should iff a condition on the table before it holds: the address
is seen by the lookup if it is there, the entry that is moved is the first one of its bucket, and
the table that is flushed is empty.
-/

namespace Bess.L2

open Bess.Slots

variable {hash : BitVec 64 → BitVec 32} {avx : Bool} {t : L2Table} {a : BitVec 64} {g : BitVec 16}
  {idx idx1 w : BitVec 32} {i j o : Nat}

/-! ## Positions -/

theorem size_lt (t : L2Table) : 0 < t.size ∧ t.size < 2 ^ 32 := by
  have := t.size_le
  have hpos := Nat.two_pow_pos t.sizePower
  rw [← t.size_eq] at hpos
  unfold maxTableSize at this
  omega

theorem primary_lt : (primary hash t a).toNat < t.size := by
  obtain ⟨hpos, hlt⟩ := size_lt t
  have hsub : (BitVec.ofNat 32 t.size - 1).toNat = t.size - 1 := by
    have : (BitVec.ofNat 32 t.size).toNat = t.size := by
      rw [BitVec.toNat_ofNat, Nat.mod_eq_of_lt hlt]
    bv_omega
  unfold primary hashToIndex
  rw [BitVec.toNat_and, hsub]
  have := Nat.and_le_right (n := (hash a).toNat) (m := t.size - 1)
  omega

theorem alternate_eq_none_iff : alternate hash t a = none ↔ t.sizePower = 0 := by
  unfold alternate altIndex
  split
  · rename_i h
    exact iff_of_true rfl h
  · rename_i h
    exact iff_of_false (by simp) h

theorem alternate_lt (h : alternate hash t a = some idx) : idx.toNat < t.size := by
  unfold alternate altIndex at h
  split at h
  · cases h
  · rename_i hsp
    simp only [Option.some.injEq] at h
    subst h
    have hsize := t.size_le
    rw [t.size_eq] at hsize ⊢
    have hpow : 2 ^ t.sizePower = 2 * 2 ^ (t.sizePower - 1) := by
      rw [← Nat.pow_succ', Nat.succ_eq_add_one, Nat.sub_add_cancel (by omega)]
    unfold maxTableSize at hsize
    have hone : (1#64 <<< (t.sizePower - 1)).toNat = 2 ^ (t.sizePower - 1) := by
      rw [BitVec.toNat_shiftLeft, Nat.shiftLeft_eq, BitVec.toNat_one (by decide), Nat.one_mul]
      exact Nat.mod_eq_of_lt (by omega)
    have hpos := Nat.two_pow_pos (t.sizePower - 1)
    have hmask : (1#64 <<< (t.sizePower - 1) - 1).toNat = 2 ^ (t.sizePower - 1) - 1 := by
      bv_omega
    rw [BitVec.toNat_setWidth, BitVec.toNat_and, hmask]
    refine lt_of_le_of_lt (Nat.mod_le _ _) ?_
    refine lt_of_le_of_lt Nat.and_le_right ?_
    omega

/-- The two buckets of an address. -/
def homes (hash : BitVec 64 → BitVec 32) (t : L2Table) (a : BitVec 64) : List (BitVec 32) :=
  primary hash t a :: (alternate hash t a).toList

theorem mem_homes : idx ∈ homes hash t a ↔
    idx = primary hash t a ∨ alternate hash t a = some idx := by
  rw [homes, List.mem_cons, Option.mem_toList]

theorem home_lt (h : idx ∈ homes hash t a) : idx.toNat < t.size := by
  rcases mem_homes.mp h with rfl | h
  · exact primary_lt
  · exact alternate_lt h

theorem ibToOffset_lt (hidx : idx.toNat < t.size) (hi : i < t.bucket) :
    ibToOffset t idx i < capacity t := by
  unfold ibToOffset capacity
  calc idx.toNat * t.bucket + i < idx.toNat * t.bucket + t.bucket := by omega
    _ = (idx.toNat + 1) * t.bucket := by rw [Nat.add_mul, Nat.one_mul]
    _ ≤ t.size * t.bucket := Nat.mul_le_mul_right _ hidx

theorem ibToOffset_mod (idx : BitVec 32) (hi : i < t.bucket) :
    ibToOffset t idx i % t.bucket = i := by
  rw [ibToOffset, Nat.add_comm, Nat.add_mul_mod_self_right, Nat.mod_eq_of_lt hi]

theorem ibToOffset_inj (hi : i < t.bucket) (hj : j < t.bucket)
    (h : ibToOffset t idx i = ibToOffset t w j) : i = j := by
  rw [← ibToOffset_mod idx hi, h, ibToOffset_mod w hj]

/-! ## What a change does to the cells -/

theorem cells_put : cells (t.put o a g) =
    fill (cells t) o ((a.setWidth 48).setWidth 64, (g.setWidth 15).setWidth 16) := by
  funext l
  by_cases hl : l = o
  · subst hl
    simp [cells, L2Table.put]
  · rw [fill_of_ne hl]
    simp [cells, L2Table.put, Function.update_of_ne hl]

theorem cells_erase : cells (t.erase o) = clear (cells t) o := by
  funext l
  by_cases hl : l = o
  · subst hl
    simp [cells, L2Table.erase, L2Entry.zero]
  · rw [clear_of_ne hl]
    simp [cells, L2Table.erase, Function.update_of_ne hl]

theorem cells_move : cells (t.move i j) = move (cells t) i j := by
  funext l
  by_cases hl : l = i
  · subst hl
    simp [cells, L2Table.move, move]
  · rw [move, clear_of_ne hl]
    by_cases hlj : l = j
    · subst hlj
      simp [cells, L2Table.move, Function.update_of_ne hl]
    · simp [cells, L2Table.move, Function.update_of_ne hl, Function.update_of_ne hlj]

theorem freeSlot_eq_some (h : freeSlot t idx = some i) :
    i < t.bucket ∧ cells t (ibToOffset t idx i) = none := by
  unfold freeSlot at h
  have hfree := List.find?_some h
  rw [Bool.not_eq_true', occupied_iff_cells] at hfree
  exact ⟨List.mem_range.mp (List.mem_of_find?_eq_some h), hfree⟩

theorem freeSlot_eq_none (h : freeSlot t idx = none) (hi : i < t.bucket) :
    ∃ x, cells t (ibToOffset t idx i) = some x := by
  unfold freeSlot at h
  have hocc := List.find?_eq_none.mp h i (List.mem_range.mpr hi)
  rw [Bool.not_eq_true', occupied_iff_cells] at hocc
  exact Option.ne_none_iff_exists'.mp hocc

variable {x : BitVec 64 × BitVec 16} {m : Nat × Nat}

theorem victim_eq (h : cells t (ibToOffset t idx i) = some x) : victim t idx i = x.1 := by
  unfold cells at h
  split at h
  · cases h
    rfl
  · cases h

/-! ## Good tables -/

structure Good (hash : BitVec 64 → BitVec 32) (t : L2Table) : Prop where
  unique : Unique Prod.fst (cells t)
  placed : ∀ o x, cells t o = some x → ∃ idx ∈ homes hash t x.1, ∃ i < t.bucket,
    o = ibToOffset t idx i
  counted : t.count = used (capacity t) (cells t)

/-- The address has an entry. -/
def Present (t : L2Table) (a : BitVec 64) : Prop := ∃ o g, cells t o = some (a, g)

theorem present_iff : Present t a ↔ ∃ g, (a, g) ∈ entries t := by
  constructor
  · rintro ⟨o, g, h⟩
    exact ⟨g, o, h⟩
  · rintro ⟨g, o, h⟩
    exact ⟨o, g, h⟩

theorem Good.lt_capacity (h : Good hash t) (ho : cells t o = some x) : o < capacity t := by
  obtain ⟨idx, hidx, i, hi, rfl⟩ := h.placed o x ho
  exact ibToOffset_lt (home_lt hidx) hi

theorem Good.put (h : Good hash t) (hfree : cells t (ibToOffset t idx i) = none)
    (hidx : idx ∈ homes hash t a) (hi : i < t.bucket) (hnew : ¬ Present t a)
    (ha : (a.setWidth 48).setWidth 64 = a) (hg : (g.setWidth 15).setWidth 16 = g) :
    Good hash (t.put (ibToOffset t idx i) a g) ∧
      entries (t.put (ibToOffset t idx i) a g) = insert (a, g) (entries t) := by
  have hcells : cells (t.put (ibToOffset t idx i) a g) =
      fill (cells t) (ibToOffset t idx i) (a, g) := by
    rw [cells_put, ha, hg]
  refine ⟨⟨?_, ?_, ?_⟩, ?_⟩
  · rw [hcells]
    apply h.unique.fill
    rintro o ⟨b, k⟩ ho rfl
    exact hnew ⟨o, k, ho⟩
  · rw [hcells]
    intro o x ho
    by_cases heq : o = ibToOffset t idx i
    · rw [heq, fill_self] at ho
      cases ho
      exact ⟨idx, hidx, i, hi, heq⟩
    · rw [fill_of_ne heq] at ho
      exact h.placed o x ho
  · rw [hcells]
    exact (congrArg (· + 1) h.counted).trans (used_fill (ibToOffset_lt (home_lt hidx) hi) hfree).symm
  · rw [entries, hcells, contents_fill hfree]
    rfl

theorem Good.move (h : Good hash t) (ho : cells t o = some x)
    (hfree : cells t (ibToOffset t idx i) = none) (hidx : idx ∈ homes hash t x.1)
    (hi : i < t.bucket) :
    Good hash (t.move o (ibToOffset t idx i)) ∧
      entries (t.move o (ibToOffset t idx i)) = entries t := by
  refine ⟨⟨?_, ?_, ?_⟩, ?_⟩
  · rw [cells_move]
    exact h.unique.move ho
  · rw [cells_move, move_eq_clear_fill ho]
    intro l y hl
    obtain ⟨-, hl⟩ := eq_of_clear hl
    by_cases heq : l = ibToOffset t idx i
    · rw [heq, fill_self] at hl
      cases hl
      exact ⟨idx, hidx, i, hi, heq⟩
    · rw [fill_of_ne heq] at hl
      exact h.placed l y hl
  · rw [cells_move]
    exact h.counted.trans
      (used_move (h.lt_capacity ho) (ibToOffset_lt (home_lt hidx) hi) ho hfree).symm
  · rw [entries, cells_move, contents_move ho hfree, entries]

theorem Good.erase (h : Good hash t) (ho : cells t o = some (a, g)) :
    Good hash (t.erase o) ∧ entries (t.erase o) = {x ∈ entries t | x.1 ≠ a} := by
  refine ⟨⟨?_, ?_, ?_⟩, ?_⟩
  · rw [cells_erase]
    exact h.unique.clear
  · rw [cells_erase]
    intro l y hl
    exact h.placed l y (eq_of_clear hl).2
  · rw [cells_erase]
    have hused := used_clear (h.lt_capacity ho) ho
    have hcount := h.counted
    have : (t.erase o).count = t.count - 1 := rfl
    have : capacity (t.erase o) = capacity t := rfl
    rw [this]
    omega
  · rw [entries, cells_erase, h.unique.contents_clear ho]
    rfl

theorem good_of_cells_none (hc : t.count = 0) (h : ∀ o, cells t o = none) : Good hash t := by
  refine ⟨?_, ?_, ?_⟩
  · intro i j x y hi
    rw [h i] at hi
    cases hi
  · intro o x ho
    rw [h o] at ho
    cases ho
  · rw [hc, used_eq_zero h]

/-! ## Lookups in good tables -/

theorem find_eq_none_iff : find hash avx t a = none ↔
    findIn avx t a (primary hash t a) = none ∧ t.sizePower = 0 := by
  unfold find
  cases findIn avx t a (primary hash t a) with
  | none => simp [alternate_eq_none_iff]
  | some gate => simp

theorem find_eq_some_none_iff : find hash avx t a = some none ↔
    t.sizePower ≠ 0 ∧ ∀ idx ∈ homes hash t a, findIn avx t a idx = none := by
  have hsp : t.sizePower = 0 ↔ alternate hash t a = none := alternate_eq_none_iff.symm
  unfold find
  rw [Ne, hsp]
  simp only [homes, List.forall_mem_cons, Option.mem_toList]
  cases hp : findIn avx t a (primary hash t a) with
  | some gate => simp
  | none =>
    cases ha : alternate hash t a with
    | none => simp
    | some idx2 => simp

/-- The lookup sees the entry of the address. -/
def Seen (avx : Bool) (t : L2Table) (a : BitVec 64) (o : Nat) : Prop :=
  t.bucket = 4 → o % 4 = 0 ∨ avx = true ∧ a = 0

theorem find_of_seen (h : Good hash t) (ho : cells t o = some (a, g)) (hseen : Seen avx t a o) :
    find hash avx t a ≠ some none := by
  intro hfind
  obtain ⟨-, hnone⟩ := find_eq_some_none_iff.mp hfind
  obtain ⟨idx, hidx, i, hi, rfl⟩ := h.placed o _ ho
  have hsome : (findIn avx t a idx).isSome = true := by
    rw [findIn_isSome_iff (setWidth_of_cells ho).1]
    by_cases h4 : t.bucket = 4
    · rcases hseen h4 with hmod | hzero
      · have hmod' := ibToOffset_mod idx hi
        rw [h4, hmod] at hmod'
        exact .inl ⟨i, g, ⟨hi, fun _ => hmod'.symm⟩, ho⟩
      · exact .inr ⟨h4, hzero⟩
    · exact .inl ⟨i, g, ⟨hi, fun hc => absurd hc h4⟩, ho⟩
  rw [hnone idx hidx] at hsome
  cases hsome

theorem find_of_not_seen (h : Good hash t) (ho : cells t o = some (a, g))
    (hseen : ¬ Seen avx t a o) (gate : BitVec 16) : find hash avx t a ≠ some (some gate) := by
  unfold Seen at hseen
  rw [Classical.not_imp, not_or] at hseen
  obtain ⟨h4, hmod, hzero⟩ := hseen
  have hnone : ∀ idx, findIn avx t a idx = none := by
    intro idx
    rw [← Option.not_isSome_iff_eq_none, findIn_isSome_iff (setWidth_of_cells ho).1]
    rintro (⟨i, g', hi, hg'⟩ | ⟨-, hz⟩)
    · -- no other slot has the address
      have heq := h.unique _ _ _ _ hg' ho rfl
      have hmod' := ibToOffset_mod idx hi.1
      rw [h4, heq, hi.2 h4] at hmod'
      exact hmod hmod'
    · exact hzero hz
  unfold find
  rw [hnone]
  cases ha : alternate hash t a with
  | none => simp
  | some idx => simp [hnone]

theorem findOffset_spec (h : Good hash t) (a : BitVec 64) :
    (findOffset hash t a = none ↔ t.sizePower = 0 ∧ ¬ Present t a) ∧
      (findOffset hash t a = some none → ¬ Present t a) ∧
      ∀ o, findOffset hash t a = some (some o) → ∃ g, cells t o = some (a, g) := by
  have hat : ∀ o g, cells t o = some (a, g) → ∃ idx ∈ homes hash t a, scan t a idx ≠ none := by
    intro o g ho
    obtain ⟨idx, hidx, i, hi, rfl⟩ := h.placed o _ ho
    exact ⟨idx, hidx, fun hs => scan_eq_none_iff.mp hs i hi g ho⟩
  unfold findOffset
  cases hp : scan t a (primary hash t a) with
  | some o =>
    obtain ⟨-, g, hg⟩ := scan_eq_some hp
    refine ⟨iff_of_false (by simp) fun hn => hn.2 ⟨o, g, hg⟩, by simp, ?_⟩
    rintro o' ⟨⟩
    exact ⟨g, hg⟩
  | none =>
    cases ha : alternate hash t a with
    | none =>
      have hsp := alternate_eq_none_iff.mp ha
      refine ⟨iff_of_true rfl ⟨hsp, ?_⟩, by simp, by simp⟩
      rintro ⟨o, g, ho⟩
      obtain ⟨idx, hidx, hs⟩ := hat o g ho
      rcases mem_homes.mp hidx with rfl | hidx
      · exact hs hp
      · rw [ha] at hidx
        cases hidx
    | some idx2 =>
      have hsp : t.sizePower ≠ 0 := fun hz => by
        rw [alternate_eq_none_iff.mpr hz] at ha
        cases ha
      simp only [Option.map_some, Option.some.injEq, reduceCtorEq, false_iff, not_and, not_not]
      refine ⟨fun hz => absurd hz hsp, ?_, ?_⟩
      · rintro hs2 ⟨o, g, ho⟩
        obtain ⟨idx, hidx, hs⟩ := hat o g ho
        rcases mem_homes.mp hidx with rfl | hidx
        · exact hs hp
        · rw [ha] at hidx
          cases hidx
          exact hs hs2
      · intro o hs2
        exact (scan_eq_some hs2).2

/-! ## Moves -/

/-- The entry in slot `i` of bucket `idx1` may go to bucket `w`. -/
def Moves (hash : BitVec 64 → BitVec 32) (t : L2Table) (idx1 : BitVec 32) (i : Nat)
    (w : BitVec 32) : Prop :=
  alternate hash t (victim t idx1 i) = some w ∧ primary hash t (victim t idx1 i) ≠ w ∧ idx1 ≠ w

/-- Slot `i` is the first one whose entry has a free slot in its alternate bucket, and no entry
before it has nowhere else to go. -/
def MovesFirst (hash : BitVec 64 → BitVec 32) (t : L2Table) (idx1 : BitVec 32) (s i : Nat) : Prop :=
  (∃ w, Moves hash t idx1 i w ∧ freeSlot t w ≠ none) ∧
    ∀ l, s ≤ l → l < i → ∃ w, Moves hash t idx1 l w ∧ freeSlot t w = none

theorem tryMove_free (is : List Nat) (hm : Moves hash t idx1 i w) (hf : freeSlot t w = some j) :
    tryMove hash t idx1 (i :: is) = some (some (ibToOffset t idx1 i, ibToOffset t w j)) := by
  rw [tryMove]
  simp only [hm.1, hf]
  rw [if_neg (not_or.mpr hm.2)]

theorem tryMove_full (is : List Nat) (hm : Moves hash t idx1 i w) (hf : freeSlot t w = none) :
    tryMove hash t idx1 (i :: is) = tryMove hash t idx1 is := by
  rw [tryMove]
  simp only [hm.1, hf]
  rw [if_neg (not_or.mpr hm.2)]

theorem tryMove_of_movesFirst {s n : Nat} (hs : s ≤ i) (hi : i < s + n)
    (h : MovesFirst hash t idx1 s i) :
    ∃ w j, Moves hash t idx1 i w ∧ freeSlot t w = some j ∧
      tryMove hash t idx1 (List.range' s n) =
        some (some (ibToOffset t idx1 i, ibToOffset t w j)) := by
  induction n generalizing s with
  | zero => omega
  | succ n ih =>
    rw [List.range'_succ]
    obtain ⟨⟨w, hw, hfree⟩, hbefore⟩ := h
    rcases Nat.lt_or_ge s i with hlt | hge
    · obtain ⟨v, hv, hfull⟩ := hbefore s le_rfl hlt
      rw [tryMove_full _ hv hfull]
      exact ih hlt (by omega) ⟨⟨w, hw, hfree⟩, fun l hl => hbefore l (by omega)⟩
    · obtain rfl : s = i := by omega
      obtain ⟨j, hj⟩ := Option.ne_none_iff_exists'.mp hfree
      exact ⟨w, j, hw, hj, tryMove_free _ hw hj⟩

theorem movesFirst_of_tryMove {s n : Nat}
    (h : tryMove hash t idx1 (List.range' s n) = some (some m)) :
    ∃ i, s ≤ i ∧ i < s + n ∧ MovesFirst hash t idx1 s i := by
  induction n generalizing s with
  | zero => cases h
  | succ n ih =>
    rw [List.range'_succ, tryMove] at h
    cases ha : alternate hash t (victim t idx1 s) with
    | none =>
      rw [ha] at h
      cases h
    | some w =>
      rw [ha] at h
      simp only at h
      split at h
      · cases h
      · rename_i hne
        rw [not_or] at hne
        have hm : Moves hash t idx1 s w := ⟨ha, hne.1, hne.2⟩
        cases hf : freeSlot t w with
        | some j =>
          refine ⟨s, le_rfl, by omega, ⟨w, hm, by rw [hf]; simp⟩, fun l hl hls => by omega⟩
        | none =>
          rw [hf] at h
          obtain ⟨i, hi, hin, hw, hbefore⟩ := ih h
          refine ⟨i, by omega, by omega, hw, fun l hl hli => ?_⟩
          rcases Nat.eq_or_lt_of_le hl with rfl | hlt
          · exact ⟨w, hm, hf⟩
          · exact hbefore l hlt hli

theorem tryMove_ne_none (hsp : t.sizePower ≠ 0) (is : List Nat) :
    tryMove hash t idx1 is ≠ none := by
  induction is with
  | nil => simp [tryMove]
  | cons i is ih =>
    rw [tryMove]
    cases ha : alternate hash t (victim t idx1 i) with
    | none => exact absurd (alternate_eq_none_iff.mp ha) hsp
    | some w =>
      simp only
      split
      · simp
      · split
        · simp
        · exact ih

/-! ## Steps -/

/-- What an operation with result `ret` should do to the occupied entries. -/
def Right (t : L2Table) : Op → Int → L2Table → Prop
  | .add a g, ret, t' => (ret = 0 → entries t' = insert (a, g) (entries t)) ∧
      (ret ≠ 0 → entries t' = entries t) ∧ ((∃ g', (a, g') ∈ entries t) → ret = -eexist)
  | .del a, _, t' => entries t' = {x ∈ entries t | x.1 ≠ a}
  | .flush, _, t' => entries t' = ∅

def Counted (t : L2Table) : Prop := t.count = used (capacity t) (cells t)

/-- An entry other than the first one of the bucket is moved away. -/
def Displaces (hash : BitVec 64 → BitVec 32) (t : L2Table) (idx1 : BitVec 32) : Prop :=
  freeSlot t idx1 = none ∧ ∃ i, 0 < i ∧ i < t.bucket ∧ MovesFirst hash t idx1 0 i

def Meets (hash : BitVec 64 → BitVec 32) (avx : Bool) (t : L2Table) : Op → Prop
  | .add a g => (t.sizePower = 0 → findIn avx t a (primary hash t a) ≠ none) ∧
      (∀ o g', cells t o = some (a, g') → Seen avx t a o) ∧
      (find hash avx t a = some none → ¬ Displaces hash t (primary hash t a) ∧
        ∀ r, findSlot hash t a = some (some r) → a.toNat < 2 ^ 48 ∧ g.toNat < 2 ^ 15)
  | .del a => t.sizePower = 0 → Present t a
  | .flush => t.count = 0

theorem setWidth_addr (a : BitVec 64) : (a.setWidth 48).setWidth 64 = a ↔ a.toNat < 2 ^ 48 := by
  rw [BitVec.toNat_eq, BitVec.toNat_setWidth, BitVec.toNat_setWidth]
  omega

theorem setWidth_gate (g : BitVec 16) : (g.setWidth 15).setWidth 16 = g ↔ g.toNat < 2 ^ 15 := by
  rw [BitVec.toNat_eq, BitVec.toNat_setWidth, BitVec.toNat_setWidth]
  omega

theorem findSlot_free (hf : freeSlot t (primary hash t a) = some i) :
    findSlot hash t a = some (some (t, primary hash t a, i)) := by
  unfold findSlot
  simp only [hf]

theorem findSlot_move (hf : freeSlot t (primary hash t a) = none)
    (hm : tryMove hash t (primary hash t a) (List.range t.bucket) = some (some m)) :
    findSlot hash t a = some (some (t.move m.1 m.2, primary hash t a, 0)) := by
  unfold findSlot
  simp only [hf, hm, Option.map_some]

theorem findSlot_full (hf : freeSlot t (primary hash t a) = none)
    (hm : tryMove hash t (primary hash t a) (List.range t.bucket) = some none) :
    findSlot hash t a = some none := by
  unfold findSlot
  simp only [hf, hm, Option.map_some, Option.map_none]

theorem addEntry_slot {t₁ : L2Table} (hfind : find hash avx t a = some none)
    (hslot : findSlot hash t a = some (some (t₁, idx, i))) :
    addEntry hash avx t a g = some (0, t₁.put (ibToOffset t₁ idx i) a g) := by
  unfold addEntry
  simp only [hfind, hslot]

theorem Good.findSlot_put (h : Good hash t) (hnew : ¬ Present t a)
    (hdis : ¬ Displaces hash t (primary hash t a)) {t₁ : L2Table}
    (hslot : findSlot hash t a = some (some (t₁, idx, i)))
    (ha : a.toNat < 2 ^ 48) (hg : g.toNat < 2 ^ 15) :
    Good hash (t₁.put (ibToOffset t₁ idx i) a g) ∧
      entries (t₁.put (ibToOffset t₁ idx i) a g) = insert (a, g) (entries t) := by
  have ha' := (setWidth_addr a).mpr ha
  have hg' := (setWidth_gate g).mpr hg
  have hhome : primary hash t a ∈ homes hash t a := mem_homes.mpr (.inl rfl)
  cases hf : freeSlot t (primary hash t a) with
  | some k =>
    rw [findSlot_free hf] at hslot
    cases hslot
    obtain ⟨hk, hfree⟩ := freeSlot_eq_some hf
    exact h.put hfree hhome hk hnew ha' hg'
  | none =>
    cases hm : tryMove hash t (primary hash t a) (List.range t.bucket) with
    | none =>
      unfold findSlot at hslot
      simp only [hf, hm, Option.map_none] at hslot
      cases hslot
    | some r =>
      cases r with
      | none =>
        rw [findSlot_full hf hm] at hslot
        cases hslot
      | some m =>
        rw [findSlot_move hf hm] at hslot
        cases hslot
        rw [List.range_eq_range'] at hm
        obtain ⟨k, -, hk, hfirst⟩ := movesFirst_of_tryMove hm
        obtain rfl : k = 0 := by
          rcases Nat.eq_zero_or_pos k with hz | hpos
          · exact hz
          · exact absurd ⟨hf, k, hpos, by omega, hfirst⟩ hdis
        obtain ⟨w, j, hmoves, hj, hm'⟩ := tryMove_of_movesFirst le_rfl hk hfirst
        rw [hm'] at hm
        cases hm
        obtain ⟨hjb, hjfree⟩ := freeSlot_eq_some hj
        obtain ⟨x, hx⟩ := freeSlot_eq_none hf t.bucket_pos
        have hw : w ∈ homes hash t x.1 := by
          rw [← victim_eq hx]
          exact mem_homes.mpr (.inr hmoves.1)
        obtain ⟨hgood, hentries⟩ := h.move hx hjfree hw hjb
        obtain ⟨t₁, ht₁⟩ : ∃ t₁, t₁ = t.move (ibToOffset t (primary hash t a) 0)
            (ibToOffset t w j) := ⟨_, rfl⟩
        have hfree₁ : cells t₁ (ibToOffset t (primary hash t a) 0) = none := by
          rw [ht₁, cells_move, Slots.move, clear_self]
        have hnew₁ : ¬ Present t₁ a := by
          rw [present_iff, ht₁, hentries, ← present_iff]
          exact hnew
        rw [← hentries, ← ht₁]
        rw [← ht₁] at hgood
        have hsame : ∀ k, ibToOffset t₁ (primary hash t a) k =
            ibToOffset t (primary hash t a) k := by
          rw [ht₁]
          exact fun _ => rfl
        rw [← hsame] at hfree₁
        refine hgood.put hfree₁ ?_ ?_ hnew₁ ha' hg'
        · rw [ht₁]
          exact hhome
        · rw [ht₁]
          exact t.bucket_pos

theorem add_of_meets (h : Good hash t) (hm : Meets hash avx t (.add a g)) :
    ∃ ret t', addEntry hash avx t a g = some (ret, t') ∧ Right t (.add a g) ret t' ∧
      Good hash t' := by
  obtain ⟨hone, hseen, hslot⟩ := hm
  cases hfind : find hash avx t a with
  | none =>
    obtain ⟨hnone, hsp⟩ := find_eq_none_iff.mp hfind
    exact absurd hnone (hone hsp)
  | some r =>
    cases r with
    | some gate =>
      refine ⟨-eexist, t, ?_, ⟨fun h0 => ?_, fun _ => rfl, fun _ => rfl⟩, h⟩
      · unfold addEntry
        simp only [hfind]
      · exact absurd h0 (by decide)
    | none =>
      have hnew : ¬ Present t a := by
        rintro ⟨o, g', ho⟩
        exact find_of_seen h ho (hseen o g' ho) hfind
      have hsp := (find_eq_some_none_iff.mp hfind).1
      obtain ⟨hdis, hwidth⟩ := hslot hfind
      cases hs : findSlot hash t a with
      | none =>
        unfold findSlot at hs
        simp only at hs
        split at hs
        · cases hs
        · exact absurd (Option.map_eq_none_iff.mp hs) (tryMove_ne_none hsp _)
      | some r =>
        cases r with
        | none =>
          refine ⟨-enomem, t, ?_, ⟨fun h0 => ?_, fun _ => rfl, fun hp => ?_⟩, h⟩
          · unfold addEntry
            simp only [hfind, hs]
          · exact absurd h0 (by decide)
          · exact absurd (present_iff.mpr hp) hnew
        | some r =>
          obtain ⟨t₁, idx, i⟩ := r
          obtain ⟨ha, hg⟩ := hwidth _ hs
          obtain ⟨hgood, hentries⟩ := h.findSlot_put hnew hdis hs ha hg
          refine ⟨0, _, addEntry_slot hfind hs, ⟨fun _ => hentries, fun h0 => ?_, fun hp => ?_⟩,
            hgood⟩
          · exact absurd rfl h0
          · exact absurd (present_iff.mpr hp) hnew

/-- After a move the first entry of the bucket is overwritten, whichever one was moved. -/
theorem Good.not_insert_of_displaces (h : Good hash t) (hnew : ¬ Present t a)
    (hdis : Displaces hash t idx1)
    (hm : tryMove hash t idx1 (List.range t.bucket) = some (some m)) :
    entries ((t.move m.1 m.2).put (ibToOffset t idx1 0) a g) ≠ insert (a, g) (entries t) := by
  obtain ⟨hf, i, hpos, hi, hfirst⟩ := hdis
  rw [List.range_eq_range'] at hm
  obtain ⟨w, j, -, hj, hm'⟩ := tryMove_of_movesFirst (Nat.zero_le i)
    (show i < 0 + t.bucket by omega) hfirst
  rw [hm'] at hm
  cases hm
  simp only
  obtain ⟨hjb, hjfree⟩ := freeSlot_eq_some hj
  obtain ⟨x, hx⟩ := freeSlot_eq_none hf t.bucket_pos
  obtain ⟨y, hy⟩ := freeSlot_eq_none hf hi
  intro heq
  -- the entry that was in the first slot
  have hne : ibToOffset t idx1 0 ≠ ibToOffset t idx1 i := fun hc =>
    absurd (ibToOffset_inj t.bucket_pos hi hc) (by omega)
  have hstay : Slots.move (cells t) (ibToOffset t idx1 i) (ibToOffset t w j) (ibToOffset t idx1 0) =
      some x := by
    rw [move_eq_clear_fill hy, clear_of_ne hne, fill_of_ne, hx]
    intro hc
    rw [← hc, hx] at hjfree
    cases hjfree
  have hmem : x ∈ insert (a, g) (entries t) := .inr ⟨_, hx⟩
  rw [← heq, entries, cells_put, cells_move] at hmem
  obtain ⟨l, hl⟩ := hmem
  by_cases hl0 : l = ibToOffset t idx1 0
  · rw [hl0, fill_self] at hl
    cases hl
    -- then the new address is an address of the table
    have hin : (a, g) ∈ insert (a, g) (entries t) := .inl rfl
    rw [← heq] at hin
    obtain ⟨o, ho⟩ := hin
    have hwidth := (setWidth_of_cells ho).1
    simp only at hwidth
    rw [hwidth] at hx
    exact hnew ⟨_, _, hx⟩
  · rw [fill_of_ne hl0] at hl
    exact hl0 ((h.unique.move hy) _ _ _ _ hl hstay rfl)

theorem meets_of_add (h : Good hash t) {ret : Int} {t' : L2Table}
    (hs : addEntry hash avx t a g = some (ret, t')) (hr : Right t (.add a g) ret t') :
    Meets hash avx t (.add a g) := by
  obtain ⟨hok, -, hdup⟩ := hr
  have hfind_ne : find hash avx t a ≠ none := fun hn => by
    unfold addEntry at hs
    rw [hn] at hs
    cases hs
  have hnew : find hash avx t a = some none → ¬ Present t a := by
    intro hfind hp
    have hret := hdup (present_iff.mp hp)
    unfold addEntry at hs
    rw [hfind] at hs
    simp only at hs
    split at hs
    · cases hs
    · cases hs
      revert hret
      decide
    · cases hs
      revert hret
      decide
  refine ⟨fun hsp hn => hfind_ne (find_eq_none_iff.mpr ⟨hn, hsp⟩), fun o g' ho => ?_,
    fun hfind => ⟨fun hdis => ?_, fun r hslot => ?_⟩⟩
  · by_contra hseen
    cases hfind : find hash avx t a with
    | none => exact hfind_ne hfind
    | some r =>
      cases r with
      | none => exact hnew hfind ⟨o, g', ho⟩
      | some gate => exact find_of_not_seen h ho hseen gate hfind
  · obtain ⟨i, hpos, hi, hfirst⟩ := hdis.2
    obtain ⟨w, j, -, -, hm⟩ := tryMove_of_movesFirst (Nat.zero_le i)
      (show i < 0 + t.bucket by omega) hfirst
    rw [← List.range_eq_range'] at hm
    rw [addEntry_slot hfind (findSlot_move hdis.1 hm)] at hs
    cases hs
    exact h.not_insert_of_displaces (hnew hfind) hdis hm (hok rfl)
  · obtain ⟨t₁, idx, i⟩ := r
    rw [addEntry_slot hfind hslot] at hs
    cases hs
    have hin : (a, g) ∈ insert (a, g) (entries t) := .inl rfl
    rw [← hok rfl] at hin
    obtain ⟨o, ho⟩ := hin
    obtain ⟨ha, hg⟩ := setWidth_of_cells ho
    exact ⟨(setWidth_addr a).mp ha, (setWidth_gate g).mp hg⟩

theorem del_of_meets (h : Good hash t) (hm : t.sizePower = 0 → Present t a) :
    ∃ ret t', delEntry hash t a = some (ret, t') ∧ Right t (.del a) ret t' ∧ Good hash t' := by
  obtain ⟨hnone, habsent, hfound⟩ := findOffset_spec h a
  unfold delEntry
  cases hf : findOffset hash t a with
  | none =>
    obtain ⟨hsp, hp⟩ := hnone.mp hf
    exact absurd (hm hsp) hp
  | some r =>
    cases r with
    | none =>
      refine ⟨_, _, rfl, ?_, h⟩
      have hp := habsent hf
      rw [present_iff] at hp
      ext x
      refine ⟨fun hx => ⟨hx, ?_⟩, fun hx => hx.1⟩
      rintro rfl
      exact hp ⟨x.2, hx⟩
    | some o =>
      obtain ⟨g, hg⟩ := hfound o hf
      obtain ⟨hgood, hentries⟩ := h.erase hg
      exact ⟨_, _, rfl, hentries, hgood⟩

/-! ## Runs -/

/-- Every operation of the run returns, does what it should and leaves the count right. -/
def RightAlong (hash : BitVec 64 → BitVec 32) (avx : Bool) : L2Table → List Op → Prop
  | t, [] => Counted t
  | t, op :: ops => Counted t ∧ ∃ ret t', step hash avx t op = some (ret, t') ∧
    Right t op ret t' ∧ RightAlong hash avx t' ops

def MeetsAlong (hash : BitVec 64 → BitVec 32) (avx : Bool) : L2Table → List Op → Prop
  | _, [] => True
  | t, op :: ops => Meets hash avx t op ∧ ∀ ret t', step hash avx t op = some (ret, t') →
    MeetsAlong hash avx t' ops

theorem RightAlong.counted {ops : List Op} (h : RightAlong hash avx t ops) : Counted t := by
  cases ops with
  | nil => exact h
  | cons op ops => exact h.1

theorem cells_flush (o : Nat) : cells (flush t).2 o = none := rfl

theorem flush_counted_iff : Counted (flush t).2 ↔ t.count = 0 := by
  unfold Counted
  rw [used_eq_zero cells_flush]
  rfl

theorem Good.step_iff (h : Good hash t) (avx : Bool) (op : Op) :
    ((∃ ret t', step hash avx t op = some (ret, t') ∧ Right t op ret t' ∧ Counted t') ↔
        Meets hash avx t op) ∧
      (Meets hash avx t op → ∀ ret t', step hash avx t op = some (ret, t') →
        Right t op ret t' ∧ Good hash t') := by
  cases op with
  | add a g =>
    refine ⟨⟨?_, ?_⟩, ?_⟩
    · rintro ⟨ret, t', hs, hr, -⟩
      exact meets_of_add h hs hr
    · intro hm
      obtain ⟨ret, t', hs, hr, hgood⟩ := add_of_meets h hm
      exact ⟨ret, t', hs, hr, hgood.counted⟩
    · intro hm ret t' hs
      obtain ⟨ret', t'', hs', hr, hgood⟩ := add_of_meets h hm
      rw [step, hs'] at hs
      cases hs
      exact ⟨hr, hgood⟩
  | del a =>
    refine ⟨⟨?_, ?_⟩, ?_⟩
    · rintro ⟨ret, t', hs, -, -⟩ hsp
      by_contra hp
      rw [step, delEntry, (findOffset_spec h a).1.mpr ⟨hsp, hp⟩] at hs
      cases hs
    · intro hm
      obtain ⟨ret, t', hs, hr, hgood⟩ := del_of_meets h hm
      exact ⟨ret, t', hs, hr, hgood.counted⟩
    · intro hm ret t' hs
      obtain ⟨ret', t'', hs', hr, hgood⟩ := del_of_meets h hm
      rw [step, hs'] at hs
      cases hs
      exact ⟨hr, hgood⟩
  | flush =>
    have hright : Right t .flush (flush t).1 (flush t).2 := by
      rw [Right, Set.eq_empty_iff_forall_notMem]
      rintro x ⟨o, ho⟩
      rw [cells_flush] at ho
      cases ho
    refine ⟨⟨?_, ?_⟩, ?_⟩
    · rintro ⟨ret, t', hs, -, hc⟩
      cases hs
      exact flush_counted_iff.mp hc
    · intro hm
      exact ⟨_, _, rfl, hright, flush_counted_iff.mpr hm⟩
    · intro hm ret t' hs
      cases hs
      exact ⟨hright, good_of_cells_none hm cells_flush⟩

theorem Good.rightAlong_iff (h : Good hash t) (ops : List Op) :
    RightAlong hash avx t ops ↔ MeetsAlong hash avx t ops := by
  induction ops generalizing t with
  | nil => exact iff_of_true h.counted trivial
  | cons op ops ih =>
    obtain ⟨hiff, hgood⟩ := h.step_iff avx op
    constructor
    · rintro ⟨-, ret, t', hs, hr, hrest⟩
      have hm := hiff.mp ⟨ret, t', hs, hr, hrest.counted⟩
      refine ⟨hm, fun ret' t'' hs' => ?_⟩
      rw [hs] at hs'
      cases hs'
      exact (ih (hgood hm ret t' hs).2).mp hrest
    · rintro ⟨hm, hrest⟩
      obtain ⟨ret, t', hs, hr, -⟩ := hiff.mpr hm
      exact ⟨h.counted, ret, t', hs, hr, (ih (hgood hm ret t' hs).2).mpr (hrest ret t' hs)⟩

theorem l2Init_empty {size bucket : Int} (h : l2Init size bucket = .ok t) :
    t.count = 0 ∧ ∀ o, cells t o = none := by
  unfold l2Init at h
  split at h
  · cases h
  · split at h
    · cases h
    · cases h
      exact ⟨rfl, fun _ => rfl⟩

/-- For every table that `l2_init` accepts, every hash function and every sequence of operations: the
operations do to the set of occupied entries what they should and the count is right throughout, iff
every operation meets its condition on the table before it. -/
theorem table_right_iff {size bucket : Int} {t : L2Table} (hinit : l2Init size bucket = .ok t)
    (hash : BitVec 64 → BitVec 32) (avx : Bool) (ops : List Op) :
    RightAlong hash avx t ops ↔ MeetsAlong hash avx t ops := by
  obtain ⟨hc, hnone⟩ := l2Init_empty hinit
  exact (good_of_cells_none hc hnone).rightAlong_iff ops

/-! ## An address that is entered twice -/

/-- The table after a sequence of operations. -/
def run (hash : BitVec 64 → BitVec 32) (avx : Bool) : L2Table → List Op → Option L2Table
  | t, [] => some t
  | t, op :: ops => (step hash avx t op).bind fun r => run hash avx r.2 ops

theorem RightAlong.run {ops ops' : List Op} (h : RightAlong hash avx t (ops ++ ops')) :
    ∃ t', run hash avx t ops = some t' ∧ RightAlong hash avx t' ops' := by
  induction ops generalizing t with
  | nil => exact ⟨t, rfl, h⟩
  | cons op ops ih =>
    obtain ⟨-, ret, t₁, hs, -, hrest⟩ := h
    obtain ⟨t', hr, hr'⟩ := ih hrest
    refine ⟨t', ?_, hr'⟩
    rw [L2.run, hs]
    exact hr

/-- `l2_hash` -/
def l2Hash (addr : BitVec 64) : BitVec 32 := Checksum.crc32cU64 addr 0

/-- The table of the default size. -/
def defaultTable : L2Table where
  table := fun _ => L2Entry.zero
  size := 1024
  sizePower := 10
  bucket := 4
  count := 0
  size_eq := by decide
  size_le := by decide
  bucket_pos := by decide

/-- 00:00:00:00:02:99 -/
def firstAddr : BitVec 64 := 0x990200000000#64

/-- 00:00:00:00:04:00, which has the same bucket. -/
def secondAddr : BitVec 64 := 0x000400000000#64

def bothAdded : List Op := [.add firstAddr 1#16, .add secondAddr 2#16]

theorem oneAdded_right :
    l2Init 1024 4 = .ok defaultTable ∧ RightAlong l2Hash true defaultTable [.add firstAddr 1#16] := by
  have hinit : l2Init 1024 4 = .ok defaultTable := by rfl
  refine ⟨hinit, (table_right_iff hinit l2Hash true _).mpr ⟨⟨?_, ?_, fun _ => ⟨?_, ?_⟩⟩, ?_⟩⟩
  · exact fun h => absurd h (by decide)
  · exact fun o g' (h : none = some (firstAddr, g')) => nomatch h
  · exact fun h => absurd h.1 (by decide +kernel)
  · exact fun _ _ => ⟨by decide, by decide⟩
  · exact fun _ _ _ => trivial

/-- The second address is in the second slot of the bucket, and can be added once more. -/
theorem bothAdded_again :
    (run l2Hash true defaultTable bothAdded).map (fun t =>
        (cells t 1997, (addEntry l2Hash true t secondAddr 3#16).map Prod.fst)) =
      some (some (secondAddr, 2#16), some 0) := by
  decide +kernel

theorem secondAddr_added_twice :
    l2Init 1024 4 = .ok defaultTable ∧
      ¬ RightAlong l2Hash true defaultTable (bothAdded ++ [.add secondAddr 3#16]) := by
  refine ⟨by rfl, fun h => ?_⟩
  obtain ⟨t, hrun, -, ret, t', hs, ⟨-, -, hdup⟩, -⟩ := h.run
  have hagain := bothAdded_again
  rw [hrun, Option.map_some, Option.some.injEq, Prod.mk.injEq] at hagain
  rw [step] at hs
  rw [hs] at hagain
  have hret := hdup ⟨2#16, 1997, hagain.1⟩
  have hzero : ret = 0 := Option.some.inj hagain.2
  rw [hzero] at hret
  revert hret
  decide

end Bess.L2
