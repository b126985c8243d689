import Bess.Cuckoo.Spread
import Bess.Match.Batch
import Bess.Match.Wildcard

/-!
# ExactMatch

`exact_match.cc`, over the tables of `exact_match_table.h`. `AddRule` of the table does not look at
the result of the insertion into the hash table, which gives up if too many rules share their
buckets: then `add` and `set_runtime_config` report success for a rule that is not there.

Masks and values that are given as integers become bytes in two ways. The mask of a field of the
packet is written with its highest byte first, the value of a rule with its lowest byte first. Both
mean the same integer only if one of them is the same from both ends.

Fields of metadata attributes are left out. What is undefined in C++ is `none`: copying more than
eight bytes into a mask, reading the size of a ninth field, and keys of a module without fields.
-/

namespace Bess.Match

open Bess.ByteMem Bess.Cuckoo Bess.Packing
open Wildcard (FieldData isValidGate dropGate)

/-! ## Rules of a table -/

namespace ExactMatchTable

variable {T : Type} [Inhabited T] {hash : List Byte → BitVec 64} {t t' : ExactMatchTable T}

/-- The states of a table: fields are added first, then rules come and go. -/
inductive Reachable (hash : List Byte → BitVec 64) : ExactMatchTable T → Prop
  | init {args : List FieldArg} {t : ExactMatchTable T} (h : empty.addFields args = .ok t) :
    Reachable hash t
  | step {t t' : ExactMatchTable T} {op : Op T} {err : Error} {ok : Bool} (h : Reachable hash t)
    (hs : t.step hash op = some (err, ok, t')) : Reachable hash t'

variable {rule : RuleFields}

omit [Inhabited T] in
theorem gatherFrom_error {i : Nat} {fs : List ExactMatchField} {key : Mem}
    {e : Error} (h : gatherFrom i fs rule key = .error e) : e.1 = einval := by
  induction fs generalizing i rule key with
  | nil => cases h
  | cons f fs ih =>
    cases rule with
    | nil => cases h
    | cons v vs =>
      rw [gatherFrom] at h
      split at h
      · cases h
        rfl
      · exact ih h

omit [Inhabited T] in
theorem gatherKey_error {e : Error} (h : t.gatherKey rule = .error e) : e.1 = einval := by
  unfold gatherKey at h
  split at h
  · cases h
    rfl
  · exact gatherFrom_error h

theorem addRule_cases {val : T} {err : Error} {ok : Bool}
    (h : t.addRule hash val rule = some (err, ok, t')) :
    (err.1 = einval ∧ t' = t) ∨
      ∃ key r m, t.gatherKey rule = .ok key ∧
        t.table.insert (t.hashing hash) key val = some (r, m) ∧ err = (0, "") ∧ ok = r.isSome ∧
        t' = { t with table := m } := by
  unfold addRule at h
  split at h
  · cases h
    exact .inl ⟨rfl, rfl⟩
  · cases hk : t.gatherKey rule with
    | error e =>
      rw [hk] at h
      cases h
      exact .inl ⟨gatherKey_error hk, rfl⟩
    | ok key =>
      rw [hk] at h
      simp only at h
      split at h
      · cases h
      · rename_i r m hins
        cases h
        exact .inr ⟨key, r, m, rfl, hins, rfl, rfl, rfl⟩

theorem Reachable.rep (h : Reachable hash t) : CuckooMap.Rep (t.hashing hash) t.table := by
  induction h with
  | init h => exact (holds_new (addFields_table h).1).rep
  | @step t t' op err ok _ hs ih =>
    cases op with
    | add val rule =>
      rcases addRule_cases hs with ⟨-, rfl⟩ | ⟨key, r, m, -, hins, -, -, rfl⟩
      · exact ih
      · obtain ⟨r', m', hins', hrep, -⟩ := ih.insert_spec key val
        rw [hins] at hins'
        cases hins'
        exact hrep
    | delete rule =>
      cases hs
      unfold deleteRule
      split
      · exact ih
      · split
        · exact ih
        · rename_i key _
          simp only
          split
          · exact (ih.remove_spec key).1
          · exact (ih.remove_spec key).1
    | clear =>
      cases hs
      exact CuckooMap.rep_new (k := 2) (by decide)

/-- A lookup with the key of the rule gives its value, and those with other keys what they did. -/
def Stored (hash : List Byte → BitVec 64) (t t' : ExactMatchTable T) (key : Mem) (val : T) : Prop :=
  t'.table.look (t'.hashing hash) key = some val ∧
    ∀ k, (t.hashing hash).eq key k = false →
      t'.table.look (t'.hashing hash) k = t.table.look (t.hashing hash) k

/-- A rule that was added is stored if the hash table takes its key. -/
theorem stored_of_takes (h : CuckooMap.Rep (t.hashing hash) t.table) {key : Mem} {val : T}
    {r : Option Nat} {m : CuckooMap Mem T}
    (hins : t.table.insert (t.hashing hash) key val = some (r, m))
    (htakes : CuckooMap.Takes (t.hashing hash) t.table key) :
    Stored hash t { t with table := m } key val := by
  obtain ⟨r', m', hins', -, hlook⟩ := h.look_insert key val
  rw [hins] at hins'
  cases hins'
  have hr := (h.insert_isSome_iff key val hins).mpr htakes
  refine ⟨(hlook key).trans (if_pos ⟨hr, (t.hashing hash).refl key⟩), fun k hk => ?_⟩
  refine (hlook k).trans (if_neg fun hc => ?_)
  rw [hc.2] at hk
  cases hk

end ExactMatchTable

/-! ## The module -/

/-- `Field` of a packet, or one without a position. -/
structure Field where
  offset : Option Int
  numBytes : Int

structure ExactMatch where
  table : ExactMatchTable (BitVec 16)
  defaultGate : BitVec 16

/-- `ExactMatchCommandAddArg` -/
structure RuleArg where
  gate : BitVec 64
  fields : List FieldData

def RuleArg.gateIdx (arg : RuleArg) : BitVec 16 := arg.gate.setWidth 16

namespace ExactMatch

/-- `mask64`; a string is copied as it is. -/
def mask64 : FieldData → Option (BitVec 64)
  | .valueInt v => some v
  | .valueBin bs => if 8 < bs.length then none else some (BitVec.ofNat 64 (leNat bs))
  | .notSet => some 0

def addFieldOne (t : ExactMatchTable (BitVec 16)) (field : Field) (mask : FieldData) :
    Option (Except Error (ExactMatchTable (BitVec 16))) :=
  match mask64 mask with
  | none => none
  | some mask64 =>
    match field.offset with
    | some offset => some (t.addField offset field.numBytes mask64)
    | none => some (.error
        (ExactMatchTable.errorAt t.fields.length ": must specify 'offset' or 'attr_name'"))

/-- The loop of `Init`. -/
def addFieldsOne (t : ExactMatchTable (BitVec 16)) : List (Field × FieldData) →
    Option (Except Error (ExactMatchTable (BitVec 16)))
  | [] => some (.ok t)
  | (field, mask) :: rest =>
    match addFieldOne t field mask with
    | none => none
    | some (.error e) => some (.error e)
    | some (.ok t) => addFieldsOne t rest

def init (fields : List Field) (masks : List FieldData) : Option (Except Error ExactMatch) :=
  if fields.length ≠ masks.length ∧ masks ≠ [] then
    some (.error (einval, "must provide masks for all fields (or no masks for default match on " ++
      "all bits on all fields)"))
  else
    let masks := if masks = [] then fields.map fun _ => FieldData.notSet else masks
    (addFieldsOne .empty (fields.zip masks)).map fun r => r.map fun t => ⟨t, dropGate⟩

/-- The loop that takes a value apart, lowest byte first. -/
def ruleBytes : Nat → BitVec 64 → List Byte
  | 0, _ => []
  | n + 1, rule64 => rule64.setWidth 8 :: ruleBytes n (rule64 >>> 8)

def ruleField (fieldSize : Nat) : FieldData → List Byte
  | .valueBin bs => bs
  | .valueInt v => ruleBytes fieldSize v
  | .notSet => ruleBytes fieldSize 0

/-- `get_field(i).size`, which is zero behind the fields of the table. -/
def fieldSize (t : ExactMatchTable (BitVec 16)) (i : Nat) : Nat :=
  match t.fields[i]? with
  | some f => f.size
  | none => 0

def ruleFieldsFromPb (t : ExactMatchTable (BitVec 16)) (fields : List FieldData) :
    Option ExactMatchTable.RuleFields :=
  if maxFields < fields.length then none
  else some (fields.zipIdx.map fun p => ruleField (fieldSize t p.2) p.1)

section Commands

variable (hash : List Byte → BitVec 64)

/-- Also returns whether the insertion succeeded, which `AddRule` of the table does not look at. -/
def addRule (e : ExactMatch) (arg : RuleArg) : Option (Error × Bool × ExactMatch) :=
  if isValidGate arg.gateIdx = false then
    some ((einval, "Invalid gate: " ++ toString arg.gateIdx.toNat), true, e)
  else if arg.fields.length = 0 then some ((einval, "'fields' must be a list"), true, e)
  else
    match ruleFieldsFromPb e.table arg.fields with
    | none => none
    | some rule => (e.table.addRule hash arg.gateIdx rule).map fun r =>
        (r.1, r.2.1, { e with table := r.2.2 })

def commandAdd (e : ExactMatch) (arg : RuleArg) : Option (Error × ExactMatch) :=
  (addRule hash e arg).map fun r => (r.1, r.2.2)

/-- The loop of `SetRuntimeConfig`. -/
def addRules (e : ExactMatch) : List RuleArg → Option (Error × ExactMatch)
  | [] => some ((0, ""), e)
  | arg :: args =>
    match addRule hash e arg with
    | none => none
    | some (err, _, e) => if err.1 ≠ 0 then some (err, e) else addRules e args

def setRuntimeConfig (e : ExactMatch) (defaultGate : BitVec 64) (rules : List RuleArg) :
    Option (Error × ExactMatch) :=
  addRules hash ⟨e.table.clearRules, defaultGate.setWidth 16⟩ rules

/-- `stale` is what the array of keys holds before. -/
def processBatch (e : ExactMatch) (stale : Mem) (pkts : List Mem) : Option (List (BitVec 16)) :=
  (e.table.makeKeys (pkts.map ExactMatchTable.offsetBuffers) stale).map fun keys =>
    (List.range pkts.length).map fun j =>
      e.table.find hash (ExactMatchTable.keyAt keys j) e.defaultGate

end Commands

open ExactMatchTable (Stored)

variable {hash : List Byte → BitVec 64} {e e' : ExactMatch}

/-! ## Rules that are reported as added -/

variable {arg : RuleArg} {err : Error}

theorem addRule_cases {ok : Bool} (h : addRule hash e arg = some (err, ok, e')) :
    (err.1 = einval ∧ e' = e) ∨
      ∃ rule t', ruleFieldsFromPb e.table arg.fields = some rule ∧
        e.table.addRule hash arg.gateIdx rule = some (err, ok, t') ∧ e' = { e with table := t' } := by
  unfold addRule at h
  split at h
  · cases h
    exact .inl ⟨rfl, rfl⟩
  · split at h
    · cases h
      exact .inl ⟨rfl, rfl⟩
    · split at h
      · cases h
      · rename_i rule hrule
        obtain ⟨r, hr, heq⟩ := Option.map_eq_some_iff.mp h
        cases heq
        exact .inr ⟨rule, r.2.2, hrule, hr, rfl⟩

/-- The rule of a command and its key. -/
def KeyOf (e : ExactMatch) (arg : RuleArg) (key : Mem) : Prop :=
  ∃ rule, ruleFieldsFromPb e.table arg.fields = some rule ∧ e.table.gatherKey rule = .ok key

theorem KeyOf.unique {key key' : Mem} (h : KeyOf e arg key) (h' : KeyOf e arg key') :
    key = key' := by
  obtain ⟨rule, hr, hk⟩ := h
  obtain ⟨rule', hr', hk'⟩ := h'
  rw [hr] at hr'
  cases hr'
  rw [hk] at hk'
  cases hk'
  rfl

/-- The hash table takes the key of every rule of the list when its turn comes. -/
def TakenAlong (hash : List Byte → BitVec 64) : ExactMatch → List RuleArg → Prop
  | _, [] => True
  | e, arg :: args => ∀ err ok e' key, addRule hash e arg = some (err, ok, e') → KeyOf e arg key →
      CuckooMap.Takes (e.table.hashing hash) e.table.table key ∧ TakenAlong hash e' args

theorem rep_addRule (h : CuckooMap.Rep (e.table.hashing hash) e.table.table)
    {ok : Bool} (hadd : addRule hash e arg = some (err, ok, e')) :
    CuckooMap.Rep (e'.table.hashing hash) e'.table.table := by
  rcases addRule_cases hadd with ⟨-, rfl⟩ | ⟨rule, t', -, htable, rfl⟩
  · exact h
  · rcases ExactMatchTable.addRule_cases htable with ⟨-, rfl⟩ | ⟨key, r, m, -, hins, -, -, rfl⟩
    · exact h
    · obtain ⟨r', m', hins', hrep, -⟩ := h.insert_spec key arg.gateIdx
      rw [hins] at hins'
      cases hins'
      exact hrep

end ExactMatch

/-- A packet that starts with the given value. -/
def packetOf (v : BitVec 64) : Mem := fun i => byteAt v.toNat i

end Bess.Match
