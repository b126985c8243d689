import Bess.Cuckoo.Machine
import Mathlib.Data.Int.CardIntervalMod

/-!
# Too many entries

The keys 0, 1, 2, ... hash to themselves, and the buckets are filled evenly: a table of `2 ^ j` buckets
is rebuilt when it holds `4 * 2 ^ j` keys, and all keys are in their primary buckets. The array of
entries goes through the sizes 16, 24, 36, ... and has 2988261580 elements when `2 ^ 29` buckets are
full. The rebuild that is due then asks for a table with that many entries. The constructor's `int`
is negative and pushes no free index, the `EntryIndex` of `ExpandEntries` wraps around to a number
below the old size and pushes none either, and the first insertion into the new table reads the top of
an empty stack.
-/

namespace Bess.Cuckoo.Machine

open CuckooMap (Arranged Spread natHashing primaryOf grown)

/-! ## Even buckets -/

/-- What the array grows through. -/
def sizes : List Nat :=
  [16, 24, 36, 54, 81, 121, 181, 271, 406, 609, 913, 1369, 2053, 3079, 4618, 6927, 10390, 15585, 23377,
    35065, 52597, 78895, 118342, 177513, 266269, 399403, 599104, 898656, 1347984, 2021976, 3032964,
    4549446, 6824169, 10236253, 15354379, 23031568, 34547352, 51821028, 77731542, 116597313,
    174895969, 262343953, 393515929, 590273893, 885410839, 1328116258, 1992174387, 2988261580]

/-- The least of the sizes that has room for `n` entries. -/
def SizeFor (n e : Nat) : Prop := e ∈ sizes ∧ n ≤ e ∧ ∀ s ∈ sizes, n ≤ s → e ≤ s

theorem sizes_step : ∀ e ∈ sizes, e < 2 ^ 31 →
    e + e / 2 ∈ sizes ∧ ∀ s ∈ sizes, e < s → e + e / 2 ≤ s := by
  decide +kernel

theorem SizeFor.succ {n e : Nat} (h : SizeFor n e) (hn : n < 2 ^ 31) :
    SizeFor (n + 1) (grown e n) := by
  obtain ⟨hmem, hle, hleast⟩ := h
  unfold grown
  split
  · rename_i hen
    obtain rfl : e = n := Nat.le_antisymm hen hle
    obtain ⟨hmem', hleast'⟩ := sizes_step e hmem hn
    have hge : 16 ≤ e := (by decide +kernel : ∀ s ∈ sizes, 16 ≤ s) e hmem
    exact ⟨hmem', by omega, hleast'⟩
  · rename_i hen
    exact ⟨hmem, by omega, fun s hs hns => hleast s hs (by omega)⟩

theorem SizeFor.last {e : Nat} (h : SizeFor (2 ^ 31) e) : e = 2988261580 :=
  (by decide +kernel : ∀ s ∈ sizes, 2 ^ 31 ≤ s → s = 2988261580) e h.1 h.2.1

/-! ## One insertion -/

variable {m : CuckooMap Nat Nat} {j n : Nat}

/-- The top of an empty stack is read if the last index wraps around. -/
theorem popFreeEntryIndex_none (hfree : m.freeEntryIndices = [])
    (hwrap : (m.entries.length + m.entries.length / 2 - 1) % 2 ^ 32 < m.entries.length) :
    popFreeEntryIndex m = none := by
  unfold popFreeEntryIndex expandEntries
  simp only [hfree, List.isEmpty_nil, if_true]
  by_cases h0 : m.entries.length = 0
  · rw [if_pos h0]
    rfl
  · rw [if_neg h0, show _ + 1 - m.entries.length = 0 by omega]
    rfl

/-- The sizes for which neither loop pushes an index. -/
structure Wraps (e : Nat) : Prop where
  two_le : 2 ≤ e
  lt : e < 2 ^ 32
  reserve : (((BitVec.ofNat 64 e - 1#64).setWidth 32).toInt + 1).toNat = 0
  grow : (e + e / 2 - 1) % 2 ^ 32 < e

theorem Wraps.popFreeEntryIndex {e : Nat} (h : Wraps e) (b : Nat) :
    popFreeEntryIndex (new b e : CuckooMap Nat Nat) = none := by
  apply popFreeEntryIndex_none
  · simp only [new, h.reserve, List.range_zero]
  · simp only [new, List.length_replicate]
    exact h.grow

theorem Wraps.insertN {e : Nat} (h : Wraps e) (k key value depth : Nat) :
    insertN natHashing (depth + 1) (new (2 ^ k) e) key value = none := by
  have hrep : CuckooMap.Rep natHashing (CuckooMap.new (2 ^ k) e : CuckooMap Nat Nat) :=
    CuckooMap.rep_new h.two_le
  have hfind : findWithHash natHashing (new (2 ^ k) e : CuckooMap Nat Nat) (natHashing.hash key) key =
      none := by
    refine (findWithHash_eq hrep ?_).trans (hrep.findWithHash_eq_none.mpr ?_)
    · simp only [CuckooMap.new, List.length_replicate]
      exact h.lt
    · rw [CuckooMap.contents_new]
      rfl
  have hadd : ∀ b, addToBucket natHashing (new (2 ^ k) e) b key value = none := by
    intro b
    have hempty : (new (2 ^ k) e : CuckooMap Nat Nat).bucketAt b = Bucket.empty :=
      CuckooMap.bucketAt_new (K := Nat) (V := Nat) (2 ^ k) e b
    unfold addToBucket
    rw [h.popFreeEntryIndex, hempty]
    rfl
  unfold Machine.insertN
  rw [hfind]
  simp only [addOrExpand, addEntry, hadd, Option.bind_eq_bind, Option.bind_none]

end Bess.Cuckoo.Machine
