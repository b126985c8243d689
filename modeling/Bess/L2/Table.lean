import Bess.Lib.Slots
import Mathlib.Data.Nat.Bitwise

/-!
# The table of `L2Forward`

`l2_forward.cc`. A table has `size` buckets of one, two or four slots. An address belongs to the
bucket of its hash or to an alternate one. A new address goes to the first; if that one is full, an
entry of it is moved to its alternate bucket.

An entry is aligned to 32 bytes and so takes as many. The lookup for buckets of four slots compares
32 bytes at a time with the address: they are the first entry of the bucket and its padding, which
is zero from the allocation of the table on.

The hash function (`rte_hash_crc_8byte`) and whether the code is built with AVX are parameters.
What is undefined in C++ is `none`.
-/

namespace Bess.L2

open Bess

def maxTableSize : Nat := 1048576 * 64

def maxBucketSize : Nat := 4

def enoent : Int := 2

def enomem : Int := 12

def eexist : Int := 17

def einval : Int := 22

structure L2Entry where
  addr : BitVec 48
  gate : BitVec 15
  occupied : Bool
  deriving DecidableEq

def L2Entry.zero : L2Entry := ⟨0, 0, false⟩

/-- The eight bytes of an entry. -/
def L2Entry.entry (e : L2Entry) : BitVec 64 := BitVec.ofBool e.occupied ++ e.gate ++ e.addr

/-- The 32 bytes of an entry: three words of padding. -/
def L2Entry.line (e : L2Entry) : List (BitVec 64) := [e.entry, 0, 0, 0]

structure L2Table where
  table : Nat → L2Entry
  size : Nat
  sizePower : Nat
  bucket : Nat
  count : Nat
  size_eq : size = 2 ^ sizePower
  size_le : size ≤ maxTableSize
  bucket_pos : 0 < bucket

/-! ## Initialisation -/

def isPowerOf2 (n : Nat) : Bool := n ≠ 0 ∧ n &&& (n - 1) = 0

/-- The loop that counts how often `size` can be halved. -/
def log2Loop : Nat → Nat → Nat
  | 0, _ => 0
  | fuel + 1, size => if 1 < size then log2Loop fuel (size >>> 1) + 1 else 0

theorem log2Loop_two_pow {k fuel : Nat} (h : k < fuel) : log2Loop fuel (2 ^ k) = k := by
  induction fuel generalizing k with
  | zero => omega
  | succ fuel ih =>
    unfold log2Loop
    cases k with
    | zero => rfl
    | succ k =>
      have hpos : 0 < 2 ^ k := Nat.two_pow_pos k
      have hhalf : 2 ^ (k + 1) >>> 1 = 2 ^ k := by
        rw [Nat.shiftRight_eq_div_pow, Nat.pow_succ]
        omega
      rw [if_pos (by rw [Nat.pow_succ]; omega), hhalf, ih (by omega)]

theorem isPowerOf2_eq {n : Nat} (h : isPowerOf2 n = true) : n = 2 ^ log2Loop n n := by
  unfold isPowerOf2 at h
  rw [decide_eq_true_eq] at h
  obtain ⟨k, hk⟩ := (Nat.and_sub_one_eq_zero_iff_isPowerOfTwo h.1).mp h.2
  rw [hk, log2Loop_two_pow Nat.lt_two_pow_self]

/-- `mem_alloc_ex` returns zeroed memory. -/
def l2Init (size bucket : Int) : Except Int L2Table :=
  if hs : size ≤ 0 ∨ (maxTableSize : Int) < size ∨ isPowerOf2 size.toNat = false then
    .error (-einval)
  else if hb : bucket ≤ 0 ∨ (maxBucketSize : Int) < bucket ∨ isPowerOf2 bucket.toNat = false then
    .error (-einval)
  else .ok {
    table := fun _ => L2Entry.zero
    size := size.toNat
    sizePower := log2Loop size.toNat size.toNat
    bucket := bucket.toNat
    count := 0
    size_eq := isPowerOf2_eq (by simpa using (not_or.mp (not_or.mp hs).2).2)
    size_le := by omega
    bucket_pos := by omega }

/-! ## Positions -/

section Operations

variable (hash : BitVec 64 → BitVec 32) (avx : Bool) (t : L2Table)

def hashToIndex (hash size : BitVec 32) : BitVec 32 := hash &&& (size - 1)

/-- For a table of one bucket the width of the shift is out of range. -/
def altIndex (hash : BitVec 32) (sizePower : Nat) (index : BitVec 32) : Option (BitVec 32) :=
  if sizePower = 0 then none
  else
    let tag : BitVec 64 := (hash >>> sizePower + 1).setWidth 64 * 0x5bd1e995#64
    some (((index.setWidth 64 ^^^ tag) &&& ((1#64 <<< (sizePower - 1)) - 1)).setWidth 32)

/-- `l2_ib_to_offset` -/
def ibToOffset (index : BitVec 32) (bucket : Nat) : Nat := index.toNat * t.bucket + bucket

/-- The bucket that an address is entered into. -/
def primary (addr : BitVec 64) : BitVec 32 :=
  hashToIndex (hash addr) (BitVec.ofNat 32 t.size)

/-- The bucket that it may be moved to. -/
def alternate (addr : BitVec 64) : Option (BitVec 32) :=
  altIndex (hash addr) t.sizePower (primary hash t addr)

/-! ## Lookups -/

def isNaN (d : BitVec 64) : Bool :=
  d &&& 0x7ff0000000000000#64 = 0x7ff0000000000000#64 ∧ d &&& 0x000fffffffffffff#64 ≠ 0

/-- `_CMP_EQ_OQ`: both zeros are equal. -/
def eqOq (a b : BitVec 64) : Bool :=
  !isNaN a && !isNaN b && (a == b || (a <<< 1 == 0 && b <<< 1 == 0))

/-- With AVX the words are compared as doubles. -/
def wordHit (addr word : BitVec 64) : Bool :=
  let addr := addr ||| 0x8000000000000000#64
  let word := word &&& 0x8000ffffffffffff#64
  if avx then eqOq addr word else addr == word

/-- The index of the word plus one, or zero. -/
def findIndex (addr : BitVec 64) (words : List (BitVec 64)) : Nat :=
  match words.findIdx? (wordHit avx addr) with
  | some i => i + 1
  | none => 0

def L2Entry.holds (e : L2Entry) (addr : BitVec 64) : Bool :=
  e.occupied && addr == e.addr.setWidth 64

/-- The slots of a bucket one after the other. -/
def scan (addr : BitVec 64) (index : BitVec 32) : Option Nat :=
  ((List.range t.bucket).map (ibToOffset t index)).find? fun offset =>
    (t.table offset).holds addr

/-- What `l2_find` does with one of the two buckets. -/
def findIn (addr : BitVec 64) (index : BitVec 32) : Option (BitVec 16) :=
  if t.bucket = 4 then
    match findIndex avx addr (t.table (ibToOffset t index 0)).line with
    | 0 => none
    | tmp + 1 => some ((t.table (ibToOffset t index 0 + tmp)).gate.setWidth 16)
  else (scan t addr index).map fun offset => (t.table offset).gate.setWidth 16

def find (addr : BitVec 64) : Option (Option (BitVec 16)) :=
  match findIn avx t addr (primary hash t addr) with
  | some gate => some (some gate)
  | none => (alternate hash t addr).map (findIn avx t addr)

def findOffset (addr : BitVec 64) : Option (Option Nat) :=
  match scan t addr (primary hash t addr) with
  | some offset => some (some offset)
  | none => (alternate hash t addr).map (scan t addr)

/-! ## Changes -/

/-- The first slot of a bucket that is not occupied. -/
def freeSlot (index : BitVec 32) : Option Nat :=
  (List.range t.bucket).find? fun i => !(t.table (ibToOffset t index i)).occupied

/-- The address in a slot. -/
def victim (index : BitVec 32) (i : Nat) : BitVec 64 :=
  (t.table (ibToOffset t index i)).addr.setWidth 64

/-- The loop that looks for an entry to move: where it is and where it goes. It ends at the first
entry that has nowhere else to go. -/
def tryMove (idx1 : BitVec 32) : List Nat → Option (Option (Nat × Nat))
  | [] => some none
  | i :: is =>
    let addr := victim t idx1 i
    match alternate hash t addr with
    | none => none
    | some idx2 =>
      if primary hash t addr = idx2 ∨ idx1 = idx2 then some none
      else match freeSlot t idx2 with
        | some j => some (some (ibToOffset t idx1 i, ibToOffset t idx2 j))
        | none => tryMove idx1 is

def L2Table.move (t : L2Table) (offset1 offset2 : Nat) : L2Table :=
  let table := Function.update t.table offset2 (t.table offset1)
  { t with table := Function.update table offset1 { table offset1 with occupied := false } }

/-- The slot for a new address. After a move it is the first one of the bucket. -/
def findSlot (addr : BitVec 64) : Option (Option (L2Table × BitVec 32 × Nat)) :=
  let idx1 := primary hash t addr
  match freeSlot t idx1 with
  | some i => some (some (t, idx1, i))
  | none =>
    (tryMove hash t idx1 (List.range t.bucket)).map (Option.map fun m =>
      (t.move m.1 m.2, idx1, 0))

def L2Table.put (t : L2Table) (offset : Nat) (addr : BitVec 64) (gate : BitVec 16) : L2Table :=
  { t with
    table := Function.update t.table offset ⟨addr.setWidth 48, gate.setWidth 15, true⟩
    count := t.count + 1 }

def addEntry (addr : BitVec 64) (gate : BitVec 16) : Option (Int × L2Table) :=
  match find hash avx t addr with
  | none => none
  | some (some _) => some (-eexist, t)
  | some none =>
    match findSlot hash t addr with
    | none => none
    | some none => some (-enomem, t)
    | some (some (t, index, bucket)) => some (0, t.put (ibToOffset t index bucket) addr gate)

def L2Table.erase (t : L2Table) (offset : Nat) : L2Table :=
  { t with table := Function.update t.table offset L2Entry.zero, count := t.count - 1 }

def delEntry (addr : BitVec 64) : Option (Int × L2Table) :=
  match findOffset hash t addr with
  | none => none
  | some none => some (-enoent, t)
  | some (some offset) => some (0, t.erase offset)

def flush : Int × L2Table := (0, { t with table := fun _ => L2Entry.zero })

end Operations

inductive Op where
  | add (addr : BitVec 64) (gate : BitVec 16)
  | del (addr : BitVec 64)
  | flush

def step (hash : BitVec 64 → BitVec 32) (avx : Bool) (t : L2Table) : Op → Option (Int × L2Table)
  | .add addr gate => addEntry hash avx t addr gate
  | .del addr => delEntry hash t addr
  | .flush => some (flush t)

end Bess.L2
