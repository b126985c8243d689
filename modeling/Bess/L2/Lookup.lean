import Bess.L2.Table

/-!
# Lookups in the table of `L2Forward`

What the two lookups find. The one over single slots finds an address iff it is in one of its two
buckets. The one over 32 bytes, for buckets of four slots, looks at the first slot of each bucket
only; and with AVX it finds the address zero in any bucket, because the padding is equal to it.
-/

namespace Bess.L2

open Bess.Slots

variable {hash : BitVec 64 → BitVec 32} {avx : Bool} {t : L2Table} {a : BitVec 64}
  {idx : BitVec 32} {e : L2Entry}

/-! ## Words -/

/-- An address of 48 bits below a tag. -/
def tagged (x : BitVec 1) (b : BitVec 48) : BitVec 64 := x ++ 0#15 ++ b

theorem toNat_tagged (x : BitVec 1) (b : BitVec 48) :
    (tagged x b).toNat = x.toNat * 2 ^ 63 + b.toNat := by
  rw [tagged, BitVec.toNat_append, BitVec.toNat_append, ← Nat.shiftLeft_add_eq_or_of_lt b.isLt]
  simp only [BitVec.toNat_ofNat, Nat.shiftLeft_eq, Nat.zero_mod, Nat.or_zero]
  omega

theorem tagged_inj {x y : BitVec 1} {b c : BitVec 48} :
    tagged x b = tagged y c ↔ x = y ∧ b = c := by
  constructor
  · intro h
    have hn := congrArg BitVec.toNat h
    rw [toNat_tagged, toNat_tagged] at hn
    have := b.isLt
    have := c.isLt
    exact ⟨BitVec.eq_of_toNat_eq (by omega), BitVec.eq_of_toNat_eq (by omega)⟩
  · rintro ⟨rfl, rfl⟩
    rfl

theorem or_sign (b : BitVec 48) : b.setWidth 64 ||| 0x8000000000000000#64 = tagged 1#1 b := by
  have hb : b.setWidth 64 = tagged 0#1 b := by
    apply BitVec.eq_of_toNat_eq
    rw [toNat_tagged, BitVec.toNat_setWidth, BitVec.toNat_zero]
    have := b.isLt
    omega
  have hs : 0x8000000000000000#64 = 1#1 ++ 0#15 ++ 0#48 := by decide
  rw [hb, hs, tagged, BitVec.or_append, BitVec.or_append, BitVec.or_zero, BitVec.or_zero,
    BitVec.zero_or, tagged]

theorem entry_and_mask (e : L2Entry) :
    e.entry &&& 0x8000ffffffffffff#64 = tagged (BitVec.ofBool e.occupied) e.addr := by
  have hm : 0x8000ffffffffffff#64 = 1#1 ++ 0#15 ++ BitVec.allOnes 48 := by decide
  have hb : BitVec.ofBool e.occupied &&& 1#1 = BitVec.ofBool e.occupied := by
    cases e.occupied <;> decide
  rw [hm, L2Entry.entry, BitVec.and_append, BitVec.and_append, BitVec.and_allOnes, BitVec.and_zero,
    hb, tagged]

theorem isNaN_tagged (x : BitVec 1) (b : BitVec 48) : isNaN (tagged x b) = false := by
  have hm : 0x7ff0000000000000#64 = 0#1 ++ 0x7ff0#15 ++ 0#48 := by decide
  unfold isNaN
  rw [hm, tagged, BitVec.and_append, BitVec.and_append, BitVec.and_zero, BitVec.and_zero,
    BitVec.zero_and]
  rw [decide_eq_false_iff_not]
  rintro ⟨h, -⟩
  revert h
  decide

theorem tagged_shift_eq_zero_iff (x : BitVec 1) (b : BitVec 48) : tagged x b <<< 1 = 0 ↔ b = 0 := by
  rw [BitVec.toNat_eq, BitVec.toNat_eq, BitVec.toNat_shiftLeft, toNat_tagged, Nat.shiftLeft_eq]
  have := b.isLt
  have := x.isLt
  simp only [BitVec.ofNat_eq_ofNat, BitVec.toNat_ofNat]
  omega

theorem eqOq_tagged (x y : BitVec 1) (b c : BitVec 48) :
    eqOq (tagged x b) (tagged y c) = true ↔ b = c ∧ (x = y ∨ b = 0) := by
  simp only [eqOq, isNaN_tagged, Bool.not_false, Bool.true_and, Bool.or_eq_true, beq_iff_eq,
    Bool.and_eq_true, tagged_inj, tagged_shift_eq_zero_iff]
  constructor
  · rintro (⟨hx, hb⟩ | ⟨hb, hc⟩)
    · exact ⟨hb, .inl hx⟩
    · exact ⟨hb.trans hc.symm, .inr hb⟩
  · rintro ⟨hb, hx | hz⟩
    · exact .inl ⟨hx, hb⟩
    · exact .inr ⟨hz, hb ▸ hz⟩

theorem wordHit_entry (b : BitVec 48) : wordHit avx (b.setWidth 64) e.entry = true ↔
    e.addr = b ∧ (e.occupied = true ∨ avx = true ∧ b = 0) := by
  have hocc : 1#1 = BitVec.ofBool e.occupied ↔ e.occupied = true := by
    cases e.occupied <;> decide
  unfold wordHit
  simp only [or_sign, entry_and_mask]
  cases avx with
  | true =>
    rw [if_pos rfl, eqOq_tagged]
    simp only [BitVec.ofNat_eq_ofNat, hocc, true_and]
    rw [eq_comm]
  | false =>
    rw [if_neg (by decide), beq_iff_eq, tagged_inj]
    simp only [BitVec.ofNat_eq_ofNat, hocc, Bool.false_eq_true, false_and, or_false]
    rw [and_comm, eq_comm]

theorem wordHit_zero (b : BitVec 48) :
    wordHit avx (b.setWidth 64) 0 = true ↔ avx = true ∧ b = 0 := by
  have h : (0 : BitVec 64) = L2Entry.zero.entry := by decide
  rw [h, wordHit_entry]
  simp only [L2Entry.zero, Bool.false_eq_true, false_or]
  exact ⟨fun h => h.2, fun h => ⟨h.2.symm, h⟩⟩

theorem findIndex_eq_zero_iff (words : List (BitVec 64)) :
    findIndex avx a words = 0 ↔ ∀ w ∈ words, wordHit avx a w = false := by
  unfold findIndex
  cases h : words.findIdx? (wordHit avx a) with
  | none => simpa using h
  | some i =>
    refine iff_of_false (by simp) fun hall => ?_
    rw [List.findIdx?_eq_none_iff.mpr hall] at h
    cases h

theorem holds_iff (b : BitVec 48) :
    e.holds (b.setWidth 64) = true ↔ e.occupied = true ∧ e.addr = b := by
  unfold L2Entry.holds
  rw [Bool.and_eq_true, beq_iff_eq, BitVec.toNat_eq, BitVec.toNat_setWidth, BitVec.toNat_setWidth,
    BitVec.toNat_eq]
  have := b.isLt
  have := e.addr.isLt
  refine and_congr_right fun _ => ?_
  omega

theorem findIndex_line (avx : Bool) (e : L2Entry) (b : BitVec 48) :
    findIndex avx (b.setWidth 64) e.line ≠ 0 ↔
      e.holds (b.setWidth 64) = true ∨ avx = true ∧ b = 0 := by
  rw [Ne, findIndex_eq_zero_iff, holds_iff]
  simp only [L2Entry.line, List.mem_cons, List.not_mem_nil, or_false, forall_eq_or_imp, forall_eq,
    ← Bool.not_eq_true, wordHit_entry, wordHit_zero, and_self]
  grind

/-! ## Cells -/

/-- What the slots hold: an address and a gate. -/
def cells (t : L2Table) (o : Nat) : Option (BitVec 64 × BitVec 16) :=
  if (t.table o).occupied then
    some ((t.table o).addr.setWidth 64, (t.table o).gate.setWidth 16)
  else none

/-- The occupied entries. -/
def entries (t : L2Table) : Set (BitVec 64 × BitVec 16) := contents (cells t)

def capacity (t : L2Table) : Nat := t.size * t.bucket

variable {o : Nat}

theorem holds_iff_cells : (t.table o).holds a = true ↔ ∃ g, cells t o = some (a, g) := by
  unfold L2Entry.holds cells
  rw [Bool.and_eq_true, beq_iff_eq]
  constructor
  · rintro ⟨ho, ha⟩
    exact ⟨_, by rw [if_pos ho, ha]⟩
  · rintro ⟨g, hg⟩
    split at hg
    · rename_i ho
      cases hg
      exact ⟨ho, rfl⟩
    · cases hg

theorem occupied_iff_cells : (t.table o).occupied = false ↔ cells t o = none := by
  unfold cells
  split
  · rename_i h
    simp [h]
  · rename_i h
    simpa using h

theorem setWidth_of_cells {x : BitVec 64 × BitVec 16} (h : cells t o = some x) :
    (x.1.setWidth 48).setWidth 64 = x.1 ∧ (x.2.setWidth 15).setWidth 16 = x.2 := by
  unfold cells at h
  split at h
  · cases h
    constructor
    · simp
    · simp
  · cases h

theorem scan_eq_none_iff : scan t a idx = none ↔
    ∀ i < t.bucket, ∀ g, cells t (ibToOffset t idx i) ≠ some (a, g) := by
  unfold scan
  rw [List.find?_eq_none]
  simp only [List.mem_map, List.mem_range, forall_exists_index, and_imp, forall_apply_eq_imp_iff₂,
    holds_iff_cells, not_exists, ne_eq]

theorem scan_eq_some (h : scan t a idx = some o) :
    (∃ i < t.bucket, o = ibToOffset t idx i) ∧ ∃ g, cells t o = some (a, g) := by
  unfold scan at h
  have hhold := List.find?_some h
  obtain ⟨i, hi, rfl⟩ := List.mem_map.mp (List.mem_of_find?_eq_some h)
  exact ⟨⟨i, List.mem_range.mp hi, rfl⟩, holds_iff_cells.mp hhold⟩

/-- The slots of a bucket that are compared. -/
def Compared (t : L2Table) (i : Nat) : Prop := i < t.bucket ∧ (t.bucket = 4 → i = 0)

theorem findIn_isSome_iff (ha : (a.setWidth 48).setWidth 64 = a) :
    (findIn avx t a idx).isSome = true ↔
      (∃ i g, Compared t i ∧ cells t (ibToOffset t idx i) = some (a, g)) ∨
        t.bucket = 4 ∧ avx = true ∧ a = 0 := by
  unfold findIn
  split
  · rename_i h4
    have hzero : a.setWidth 48 = 0 ↔ a = 0 := by
      constructor
      · intro h
        rw [← ha, h]
        rfl
      · rintro rfl
        rfl
    have hline := findIndex_line avx (t.table (ibToOffset t idx 0)) (a.setWidth 48)
    rw [ha, hzero, holds_iff_cells] at hline
    have hiff : (∃ g, cells t (ibToOffset t idx 0) = some (a, g)) ↔
        ∃ i g, Compared t i ∧ cells t (ibToOffset t idx i) = some (a, g) := by
      constructor
      · rintro ⟨g, hg⟩
        exact ⟨0, g, ⟨t.bucket_pos, fun _ => rfl⟩, hg⟩
      · rintro ⟨i, g, hi, hg⟩
        rw [hi.2 h4] at hg
        exact ⟨g, hg⟩
    rw [hiff] at hline
    split
    · rename_i h0
      rw [Option.isSome_none]
      refine iff_of_false (by decide) fun h => hline.mpr ?_ h0
      exact h.imp_right fun h => h.2
    · rename_i tmp htmp
      rw [Option.isSome_some]
      refine iff_of_true rfl ?_
      exact (hline.mp (by rw [htmp]; omega)).imp_right fun h => ⟨h4, h⟩
  · rename_i h4
    rw [Option.isSome_map]
    constructor
    · intro h
      obtain ⟨o, ho⟩ := Option.isSome_iff_exists.mp h
      obtain ⟨⟨i, hi, rfl⟩, g, hg⟩ := scan_eq_some ho
      exact .inl ⟨i, g, ⟨hi, fun h => absurd h h4⟩, hg⟩
    · rintro (⟨i, g, hi, hg⟩ | ⟨h, -⟩)
      · rw [Option.isSome_iff_ne_none]
        exact fun hnone => scan_eq_none_iff.mp hnone i hi.1 g hg
      · exact absurd h h4

end Bess.L2
