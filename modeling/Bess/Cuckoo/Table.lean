import Bess.Lib.AssocMap
import Mathlib.Algebra.Group.Nat.Defs

/-!
# The cuckoo hash table

`CuckooMap` of `cuckoo_map.h`: buckets of four slots, a slot holding the primary hash of a key and
the index of its entry, and an array of entries with a stack of free indices. A key lives in its
primary or its secondary bucket. Insertion may displace other entries (`makeSpace`) and, when that
fails, rebuilds the table with twice the buckets (`expandBuckets`), which inserts every entry into a
fresh table and may itself have to expand.

`Entry*` is modelled by the entry's index, a null pointer by `none`. Entry indices and sizes are
natural numbers. A reader never asks what `entries_` holds at an index out of range; the
representation invariant shows that.

Functions whose code could misbehave return `Option`: `none` stands for a read of the top of an
empty stack or for a loop that does not end.
-/

namespace Bess.Cuckoo

open Bess.AssocMap

abbrev HashResult := BitVec 32

def kInitNumBucket : Nat := 4

def kInitNumEntries : Nat := 16

abbrev kEntriesPerBucket : Nat := 4

def kMaxCuckooPath : Nat := 3

/-- The hash function and the equality that a map is used with: equal keys have equal hashes. -/
structure Hashing (K : Type) extends KeyEq K where
  hasher : K → BitVec 64
  hasher_eq : ∀ a b, eq a b = true → hasher a = hasher b

/-- `hash_values[i]` and `entry_indices[i]` of a bucket. -/
structure Slot where
  hash : HashResult
  idx : Nat
  deriving DecidableEq, Repr

def Slot.empty : Slot := ⟨0, 0⟩

abbrev Bucket := Vector Slot kEntriesPerBucket

def Bucket.empty : Bucket := Vector.replicate kEntriesPerBucket Slot.empty

/-- The slots in the order in which the loops visit them. -/
def slotIdxs : List (Fin kEntriesPerBucket) := [0, 1, 2, 3]

/-- A slot of the table: its bucket and its index there. -/
abbrev Pos := Nat × Fin kEntriesPerBucket

structure CuckooMap (K V : Type) where
  bucketMask : HashResult
  numEntries : Nat
  buckets : List Bucket
  entries : List (K × V)
  freeEntryIndices : List Nat

variable {K V : Type} [Inhabited K] [Inhabited V] (H : Hashing K)

/-- Primary hash value. The top bit keeps it from being 0, which marks an empty slot. -/
def Hashing.hash (key : K) : HashResult := (H.hasher key).setWidth 32 ||| 0x80000000#32

def hashSecondary (primary : HashResult) : HashResult :=
  primary ^^^ (((primary >>> 12) + 1#32) * 0x5bd1e995#32)

namespace CuckooMap

/-- The constructor. It checks that the number of buckets is a power of two. -/
def new (reserveBuckets reserveEntries : Nat) : CuckooMap K V where
  bucketMask := BitVec.ofNat 32 (reserveBuckets - 1)
  numEntries := 0
  buckets := List.replicate reserveBuckets Bucket.empty
  entries := List.replicate reserveEntries default
  freeEntryIndices := List.range reserveEntries

def bucketAt (m : CuckooMap K V) (b : Nat) : Bucket := m.buckets.getD b Bucket.empty

def slotAt (m : CuckooMap K V) (p : Pos) : Slot := (m.bucketAt p.1)[p.2]

def setSlot (m : CuckooMap K V) (p : Pos) (s : Slot) : CuckooMap K V :=
  { m with buckets := m.buckets.set p.1 ((m.bucketAt p.1).set p.2 s) }

def entryAt (m : CuckooMap K V) (i : Nat) : K × V := m.entries.getD i default

def bucketOf (m : CuckooMap K V) (h : HashResult) : Nat := (h &&& m.bucketMask).toNat

def expandEntries (m : CuckooMap K V) : Option (CuckooMap K V) :=
  let oldSize := m.entries.length
  let newSize := oldSize + oldSize / 2
  -- the index counts down to 0 and wraps around when it should stop below 0
  if oldSize = 0 then none
  else some { m with
    entries := m.entries ++ List.replicate (newSize - oldSize) default
    freeEntryIndices := List.range' oldSize (newSize - oldSize) ++ m.freeEntryIndices }

def popFreeEntryIndex (m : CuckooMap K V) : Option (Nat × CuckooMap K V) := do
  let m ← if m.freeEntryIndices.isEmpty then m.expandEntries else some m
  match m.freeEntryIndices with
  | [] => none
  | i :: rest => some (i, { m with freeEntryIndices := rest })

def findEmptySlot (b : Bucket) : Option (Fin kEntriesPerBucket) :=
  slotIdxs.find? fun i => b[i].hash = 0

def findSlot (m : CuckooMap K V) (b : Bucket) (primary : HashResult) (key : K) :
    Option (Fin kEntriesPerBucket) :=
  slotIdxs.find? fun i => b[i].hash = primary ∧ H.eq (m.entryAt b[i].idx).1 key

def addToBucket (m : CuckooMap K V) (b : Nat) (key : K) (value : V) :
    Option (Option Nat × CuckooMap K V) :=
  match findEmptySlot (m.bucketAt b) with
  | none => some (none, m)
  | some i => do
    let (idx, m) ← m.popFreeEntryIndex
    let m := m.setSlot (b, i) ⟨H.hash key, idx⟩
    some (some idx,
      { m with entries := m.entries.set idx (key, value), numEntries := m.numEntries + 1 })

def removeFromBucket (m : CuckooMap K V) (primary : HashResult) (b : Nat) (key : K) :
    Bool × CuckooMap K V :=
  match findSlot H m (m.bucketAt b) primary key with
  | none => (false, m)
  | some i =>
    let s := m.slotAt (b, i)
    let m := m.setSlot (b, i) { s with hash := 0 }
    (true, { m with
      entries := m.entries.set s.idx default
      freeEntryIndices := s.idx :: m.freeEntryIndices
      numEntries := m.numEntries - 1 })

def getFromBucket (m : CuckooMap K V) (primary : HashResult) (b : Nat) (key : K) : Option Nat :=
  (findSlot H m (m.bucketAt b) primary key).map fun i => (m.slotAt (b, i)).idx

def findWithHash (m : CuckooMap K V) (primary : HashResult) (key : K) : Option Nat :=
  (getFromBucket H m primary (m.bucketOf primary) key).or
    (getFromBucket H m primary (m.bucketOf (hashSecondary primary)) key)

/-! ## Displacing entries -/

/-- `q` takes over the contents of `p`, and `p` becomes empty. -/
def transfer (m : CuckooMap K V) (p q : Pos) : CuckooMap K V :=
  let m := m.setSlot q (m.slotAt p)
  m.setSlot p { m.slotAt p with hash := 0 }

/-- The other bucket of the entry in slot `p`. The hash in a slot is compared with both hashes of
the key; `none` if it is neither. -/
def altIndex (m : CuckooMap K V) (p : Pos) : Option Nat :=
  let s := m.slotAt p
  let pri := H.hash (m.entryAt s.idx).1
  let sec := hashSecondary pri
  if pri = s.hash then some (m.bucketOf sec)
  else if sec = s.hash then some (m.bucketOf pri)
  else none

/-- The loop of `MakeSpace` over the slots of bucket `index`; `deeper` is the recursive call. -/
def displace (deeper : CuckooMap K V → Nat → Option (Fin kEntriesPerBucket) × CuckooMap K V)
    (index : Nat) : List (Fin kEntriesPerBucket) → CuckooMap K V →
    Option (Fin kEntriesPerBucket) × CuckooMap K V
  | [], m => (none, m)
  | i :: is, m =>
    match altIndex H m (index, i) with
    | none => (none, m)
    | some alt =>
      let r := match findEmptySlot (m.bucketAt alt) with
        | some j => (some j, m)
        | none => deeper m alt
      match r.1 with
      | some j => (some i, r.2.transfer (index, i) (alt, j))
      | none => displace deeper index is r.2

/-- `MakeSpace` with `n` levels left, that is, at depth `kMaxCuckooPath - n`. -/
def makeSpace : Nat → CuckooMap K V → Nat → Option (Fin kEntriesPerBucket) × CuckooMap K V
  | 0, m, _ => (none, m)
  | n + 1, m, index => displace H (makeSpace n) index slotIdxs m

/-! ## The operations -/

/-- `AddEntry`, going through `again` at most `n` times. -/
def addEntry (key : K) (value : V) : Nat → CuckooMap K V → Option (Option Nat × CuckooMap K V)
  | 0, _ => none
  | n + 1, m => do
    let primary := m.bucketOf (H.hash key)
    let secondary := m.bucketOf (hashSecondary (H.hash key))
    let (e, m) ← m.addToBucket H primary key value
    if e.isSome then some (e, m)
    else
      let (e, m) ← m.addToBucket H secondary key value
      if e.isSome then some (e, m)
      else
        let (i, m) := makeSpace H kMaxCuckooPath m primary
        if i.isSome then addEntry key value n m
        else
          let (i, m) := makeSpace H kMaxCuckooPath m secondary
          if i.isSome then addEntry key value n m else some (none, m)

/-- The entries in the order of the iterator: bucket by bucket, slot by slot. -/
def items (m : CuckooMap K V) : List (K × V) :=
  m.buckets.flatMap fun b => slotIdxs.filterMap fun i =>
    if b[i].hash = 0 then none else some (m.entryAt b[i].idx)

/-- The loop of `ExpandBuckets` over the entries; the flag says that every insertion succeeded. -/
def rehash (insert : CuckooMap K V → K → V → Option (Option Nat × CuckooMap K V)) :
    List (K × V) → CuckooMap K V → Option (Bool × CuckooMap K V)
  | [], bigger => some (true, bigger)
  | e :: es, bigger => do
    let (r, bigger) ← insert bigger e.1 e.2
    if r.isSome then rehash insert es bigger else some (false, bigger)

def expandBuckets (insert : CuckooMap K V → K → V → Option (Option Nat × CuckooMap K V))
    (m : CuckooMap K V) : Option (CuckooMap K V) := do
  let (done, bigger) ← rehash insert m.items (new (m.buckets.length * 2) m.entries.length)
  some (if done then bigger else m)

/-- The `while` loop of `Insert`: `trials` more calls of `AddEntry`, with an expansion in between. -/
def addOrExpand (insert : CuckooMap K V → K → V → Option (Option Nat × CuckooMap K V))
    (key : K) (value : V) : Nat → CuckooMap K V → Option (Option Nat × CuckooMap K V)
  | 0, m => some (none, m)
  | trials + 1, m => do
    let (e, m) ← addEntry H key value 2 m
    if e.isSome then some (e, m)
    else if trials = 0 then some (none, m)
    else
      let m ← expandBuckets insert m
      addOrExpand insert key value trials m

/-- `Insert`, with at most `n` nested rebuilds. -/
def insertN : Nat → CuckooMap K V → K → V → Option (Option Nat × CuckooMap K V)
  | 0, _, _, _ => none
  | n + 1, m, key, value =>
    match findWithHash H m (H.hash key) key with
    | some idx =>
      some (some idx, { m with entries := m.entries.set idx ((m.entryAt idx).1, value) })
    | none => addOrExpand H (insertN n) key value 3 m

/-- A rebuild inserts at most `numEntries` entries, so nested rebuilds have fewer and fewer. -/
def insert (m : CuckooMap K V) (key : K) (value : V) : Option (Option Nat × CuckooMap K V) :=
  insertN H (m.numEntries + 1) m key value

def find (m : CuckooMap K V) (key : K) : Option (K × V) :=
  (findWithHash H m (H.hash key) key).map m.entryAt

def remove (m : CuckooMap K V) (key : K) : Bool × CuckooMap K V :=
  let pri := H.hash key
  let (b, m) := removeFromBucket H m pri (m.bucketOf pri) key
  if b then (true, m)
  else removeFromBucket H m pri (m.bucketOf (hashSecondary pri)) key

def clear (_ : CuckooMap K V) : CuckooMap K V := new kInitNumBucket kInitNumEntries

def count (m : CuckooMap K V) : Nat := m.numEntries

end CuckooMap

end Bess.Cuckoo
