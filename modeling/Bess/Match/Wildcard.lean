import Bess.Match.Key

/-!
# WildcardMatch

`wildcard_match.cc`. A rule gives a value and a mask for each field. Rules with the same masks share
a tuple, a hash table from values to priorities and gates. The key of a packet is put together
without masks, by copies of eight bytes from the packet; for each tuple the mask is applied to it,
and of the entries found the one of highest priority decides, the last one of several.

The keys of a batch lie one after another in an array. A command is `none` if it overruns a
variable, and a batch if it writes outside of the array.
-/

namespace Bess.Match.Wildcard

open Bess.ByteMem Bess.Cuckoo Bess.Packing

abbrev Error := Nat × String

def success : Error := (0, "")

def enospc : Nat := 28

def maxTuples : Nat := 8

def maxGates : Nat := 8192

def dropGate : BitVec 16 := 8192#16

/-- `PacketBatch::kMaxBurst` -/
def maxBurst : Nat := 32

structure WmData where
  priority : Int
  ogate : BitVec 16
  deriving DecidableEq, Inhabited

/-- `INT_MIN` -/
def intMin : Int := -2147483648

inductive Position where
  | offset (offset : Nat)
  | attr (id : Nat)

structure WmField where
  position : Position
  pos : Nat
  size : Nat
  size_pos : 0 < size
  size_le : size ≤ maxFieldSize

/-! ## Fields -/

inductive FieldPosition where
  | offset (offset : Int)
  /-- What `AddMetadataAttr` returns for the name. -/
  | attrName (id : Int)
  | notSet

structure FieldArg where
  position : FieldPosition
  numBytes : Int

def addFieldOne (pos : Nat) (arg : FieldArg) : Except Error WmField :=
  if h : arg.numBytes < 1 ∨ (maxFieldSize : Int) < arg.numBytes then
    .error (einval, "'size' must be 1-8")
  else
    let field (position : Position) : WmField :=
      ⟨position, pos, arg.numBytes.toNat, by omega, by omega⟩
    match arg.position with
    | .offset o =>
      if o < 0 ∨ 1024 < o then .error (einval, "too small 'offset'")
      else .ok (field (.offset o.toNat))
    | .attrName id =>
      if id < 0 then .error ((-id).toNat, "add_metadata_attr() failed")
      else .ok (field (.attr id.toNat))
    | .notSet => .error (einval, "specify 'offset' or 'attr'")

/-- The loop of `Init`; `sizeAcc` is the size of the fields before. -/
def addFieldsFrom (sizeAcc : Nat) : List FieldArg → Except Error (List WmField)
  | [] => .ok []
  | arg :: args =>
    match addFieldOne sizeAcc arg with
    | .error e => .error e
    | .ok f =>
      match addFieldsFrom (sizeAcc + f.size) args with
      | .error e => .error e
      | .ok fs => .ok (f :: fs)

/-- A mask, and what is found under it. -/
abbrev WmTuple := Mem × CuckooMap Mem WmData

structure State where
  fields : List WmField
  packed : Packed WmField.pos WmField.size 0 fields
  tuples : List WmTuple
  defaultGate : BitVec 16

def State.sizeAcc (s : State) : Nat := total WmField.size s.fields

def State.totalKeySize (s : State) : Nat := alignCeil s.sizeAcc

/-- What the hash function and the comparison of keys promise the compiler. -/
def State.promised (s : State) : Bool := 8 ≤ s.totalKeySize ∧ s.totalKeySize ≤ hashKeySize

theorem addFieldOne_pos {pos : Nat} {arg : FieldArg} {f : WmField}
    (h : addFieldOne pos arg = .ok f) : f.pos = pos := by
  unfold addFieldOne at h
  split at h
  · cases h
  · simp only at h
    split at h
    · split at h
      · cases h
      · cases h
        rfl
    · split at h
      · cases h
      · cases h
        rfl
    · cases h

theorem addFieldsFrom_cons_inv {sizeAcc : Nat} {arg : FieldArg} {args : List FieldArg}
    {fs : List WmField} (h : addFieldsFrom sizeAcc (arg :: args) = .ok fs) :
    ∃ f fs', addFieldOne sizeAcc arg = .ok f ∧
      addFieldsFrom (sizeAcc + f.size) args = .ok fs' ∧ fs = f :: fs' := by
  unfold addFieldsFrom at h
  split at h
  · cases h
  · rename_i f hf
    split at h
    · cases h
    · rename_i fs' hfs
      cases h
      exact ⟨f, fs', hf, hfs, rfl⟩

theorem addFieldsFrom_packed {sizeAcc : Nat} {args : List FieldArg} {fs : List WmField}
    (h : addFieldsFrom sizeAcc args = .ok fs) : Packed WmField.pos WmField.size sizeAcc fs := by
  induction args generalizing sizeAcc fs with
  | nil =>
    cases h
    trivial
  | cons arg args ih =>
    obtain ⟨f, fs', hf, hfs, rfl⟩ := addFieldsFrom_cons_inv h
    exact ⟨addFieldOne_pos hf, ih hfs⟩

def init (args : List FieldArg) : Except Error State :=
  match h : addFieldsFrom 0 args with
  | .error e => .error e
  | .ok fields => .ok ⟨fields, addFieldsFrom_packed h, [], dropGate⟩

/-! ## Lookups -/

section Lookup

variable (hash : List Byte → BitVec 64)

def State.hashing (s : State) : Hashing Mem := keyHashing hash s.totalKeySize

/-- `mask(dst, src, mask, len)` -/
def maskKey (key mask : Mem) : Mem := fun i => key i &&& mask i

/-- What is found under the mask of a tuple. -/
def findIn (s : State) (key : Mem) (tuple : WmTuple) : Option WmData :=
  (tuple.2.find (s.hashing hash) (maskKey key tuple.1)).map Prod.snd

def better (result : WmData) : Option WmData → WmData
  | some entry => if entry.priority ≥ result.priority then entry else result
  | none => result

def lookupEntry (s : State) (key : Mem) (defGate : BitVec 16) : BitVec 16 :=
  (s.tuples.foldl (fun result tuple => better result (findIn hash s key tuple))
    ⟨intMin, defGate⟩).ogate

/-! ## Batches -/

/-- A packet with its metadata: a buffer, and where the data starts in it. -/
structure Packet where
  buffer : Mem
  dataOff : Nat
  deriving Inhabited

variable (attrOffset : Nat → Nat)

/-- Where a field is in the buffer. `attrOffset` gives the offset of an attribute. -/
def address (pkt : Packet) (f : WmField) : Nat :=
  match f.position with
  | .offset o => pkt.dataOff + o
  | .attr id => attrOffset id

/-- The copy for a field of packet `j`. -/
def fieldWrite (pkts : List Packet) (f : WmField) (j : Nat) : Write :=
  let pkt := pkts.getD j default
  ⟨hashKeySize * j + f.pos, 8, fun k => pkt.buffer (address attrOffset pkt f + k)⟩

def keyWrites (s : State) (pkts : List Packet) : List Write :=
  (List.range pkts.length).map (fun j => zeroLast (hashKeySize * j) s.totalKeySize) ++
    s.fields.flatMap fun f => (List.range pkts.length).map (fieldWrite attrOffset pkts f)

/-- The gates of the packets. `stale` is what the array of keys holds before. -/
def processBatch (s : State) (stale : Mem) (pkts : List Packet) : Option (List (BitVec 16)) :=
  if pkts = [] then some []
  else if s.promised = false then none
  else
    let writes := keyWrites attrOffset s pkts
    if writes.any fun w => hashKeySize * maxBurst < w.start + w.width then none
    else
      let keys := writeAll stale writes
      some ((List.range pkts.length).map fun j =>
        lookupEntry hash s (fun i => keys (hashKeySize * j + i)) s.defaultGate)

end Lookup

/-! ## Commands -/

inductive FieldData where
  | valueInt (v : BitVec 64)
  | valueBin (bytes : List Byte)
  | notSet

/-- The bytes of a value in eight bytes that were zero. Inside, `none` is a number that is too large;
outside, more bytes than there is room for. -/
def FieldData.extract (size : Nat) : FieldData → Option (Option Nat)
  | .valueInt v => some (uint64ToBin v size true)
  | .valueBin bs => if 8 < bs.length then none else some (some (leNat bs))
  | .notSet => some (some 0)

def hexDigits (width v : Nat) : String :=
  let digits := Nat.toDigits 16 v
  String.ofList (List.replicate (width - digits.length) '0' ++ digits)

/-- For each field the value and the mask. -/
abbrev Pairs := List (Nat × Nat)

/-- The loop of `ExtractKeyMask`, from field `i` on. -/
def extractFrom (i : Nat) : List WmField → List FieldData → List FieldData →
    Option (Except Error Pairs)
  | f :: fs, value :: values, mask :: masks =>
    let idx := "idx " ++ toString i ++ ": "
    match value.extract f.size with
    | none => none
    | some none => some (.error (einval, idx ++ "not a correct " ++ toString f.size ++ "-byte value"))
    | some (some v) =>
      match mask.extract f.size with
      | none => none
      | some none => some (.error (einval, idx ++ "not a correct " ++ toString f.size ++ "-byte mask"))
      | some (some m) =>
        if v &&& m ≠ v then
          some (.error (einval, idx ++ "invalid pair of value 0x" ++ hexDigits (f.size * 2) v ++
            " and mask 0x" ++ hexDigits (f.size * 2) m))
        else
          match extractFrom (i + 1) fs values masks with
          | none => none
          | some (.error e) => some (.error e)
          | some (.ok ps) => some (.ok ((v, m) :: ps))
  | _, _, _ => some (.ok [])

/-- Numbers that are copied into a key, each with the size of its field. -/
def recordKey (fs : List WmField) (vs : List Nat) : Mem :=
  writeAll (fun _ => 0) (fieldWrites (fun x => x.1.pos) (fun x => x.1.size) (fun x => byteAt x.2)
    (fs.zip vs))

def valueKey (fs : List WmField) (ps : Pairs) : Mem := recordKey fs (ps.map Prod.fst)

def maskOf (fs : List WmField) (ps : Pairs) : Mem := recordKey fs (ps.map Prod.snd)

def extractKeyMask (s : State) (values masks : List FieldData) : Option (Except Error Pairs) :=
  if values.length ≠ s.fields.length then
    some (.error (einval, "must specify " ++ toString s.fields.length ++ " values"))
  else if masks.length ≠ s.fields.length then
    some (.error (einval, "must specify " ++ toString s.fields.length ++ " masks"))
  else extractFrom 0 s.fields values masks

section Commands

variable (hash : List Byte → BitVec 64)

def findTuple (s : State) (mask : Mem) : Option Nat :=
  s.tuples.findIdx? fun tuple => (s.hashing hash).eq tuple.1 mask

/-- `AddTuple` if there is no tuple with the mask yet. -/
def ensureTuple (s : State) (mask : Mem) : Option (Nat × State) :=
  match findTuple hash s mask with
  | some idx => some (idx, s)
  | none =>
    if maxTuples ≤ s.tuples.length then none
    else some (s.tuples.length,
      { s with tuples := s.tuples ++ [(mask, CuckooMap.new kInitNumBucket kInitNumEntries)] })

def State.setTuple (s : State) (idx : Nat) (ht : CuckooMap Mem WmData) : State :=
  match s.tuples[idx]? with
  | some tuple => { s with tuples := s.tuples.set idx (tuple.1, ht) }
  | none => s

structure AddArg where
  gate : BitVec 64
  priority : BitVec 64
  values : List FieldData
  masks : List FieldData

def isValidGate (gate : BitVec 16) : Bool := gate.toNat < maxGates ∨ gate = dropGate

/-- `gate_idx_t gate = arg.gate(); int priority = arg.priority();` -/
def AddArg.data (arg : AddArg) : WmData :=
  ⟨(arg.priority.setWidth 32).toInt, arg.gate.setWidth 16⟩

/-- The end of `CommandAdd`. -/
def insertEntry (s : State) (idx : Nat) (key : Mem) (data : WmData) : Option (Error × State) :=
  if s.promised = false then none
  else
    match s.tuples[idx]? with
    | none => none
    | some tuple =>
      match tuple.2.insert (s.hashing hash) key data with
      | none => none
      | some (none, ht) => some ((einval, "failed to add a rule"), s.setTuple idx ht)
      | some (some _, ht) => some (success, s.setTuple idx ht)

def commandAdd (s : State) (arg : AddArg) : Option (Error × State) :=
  match extractKeyMask s arg.values arg.masks with
  | none => none
  | some (.error e) => some (e, s)
  | some (.ok ps) =>
    if isValidGate arg.data.ogate = false then
      some ((einval, "Invalid gate: " ++ toString arg.data.ogate.toNat), s)
    else
      match ensureTuple hash s (maskOf s.fields ps) with
      | none => some ((enospc, "failed to add a new wildcard pattern"), s)
      | some (idx, s) => insertEntry hash s idx (valueKey s.fields ps) arg.data

/-- The result of `Remove` is taken for an error number: a tuple is dropped if it was empty before. -/
def delEntry (s : State) (idx : Nat) (key : Mem) : Option State :=
  if s.promised = false then none
  else
    match s.tuples[idx]? with
    | none => none
    | some tuple =>
      match tuple.2.remove (s.hashing hash) key with
      | (true, ht) => some (s.setTuple idx ht)
      | (false, ht) =>
        if ht.count = 0 then some { s with tuples := s.tuples.eraseIdx idx }
        else some (s.setTuple idx ht)

def commandDelete (s : State) (values masks : List FieldData) : Option (Error × State) :=
  match extractKeyMask s values masks with
  | none => none
  | some (.error e) => some (e, s)
  | some (.ok ps) =>
    match findTuple hash s (maskOf s.fields ps) with
    | none => some ((enoent, "failed to delete a rule"), s)
    | some idx => (delEntry hash s idx (valueKey s.fields ps)).map fun s => (success, s)

def State.clear (s : State) : State :=
  { s with tuples := s.tuples.map fun tuple => (tuple.1, tuple.2.clear) }

inductive Command where
  | add (arg : AddArg)
  | delete (values masks : List FieldData)
  | clear
  | setDefaultGate (gate : BitVec 64)

def step (s : State) : Command → Option (Error × State)
  | .add arg => commandAdd hash s arg
  | .delete values masks => commandDelete hash s values masks
  | .clear => some (success, s.clear)
  | .setDefaultGate gate => some (success, { s with defaultGate := gate.setWidth 16 })

end Commands

end Bess.Match.Wildcard
