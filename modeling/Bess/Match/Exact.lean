import Bess.Match.Key

/-!
# ExactMatchTable

`exact_match_table.h`. A table maps rules, which give a value for each field, to values of any type.
The key of a rule is copied from it byte by byte; the key of a buffer is put together by writes of
eight bytes, each with the mask of its field applied. A buffer is found by the rules that agree with
it on the bits of the masks, if the rules have no bits outside of them: `AddRule` does not apply the
masks.

Fields are added in order, as `ExactMatch::Init` does. A buffer key of a table without fields is
`none`: the index of its last word is the largest one there is.
-/

namespace Bess.Match

open Bess.ByteMem Bess.Cuckoo Bess.Packing

/-- An errno, or zero, and a message. -/
abbrev Error := Nat × String

structure ExactMatchField where
  /-- In the byte order of the packet, with zeros behind the field. -/
  mask : Nat
  offset : Nat
  pos : Nat
  size : Nat
  size_pos : 0 < size
  size_le : size ≤ maxFieldSize
  mask_lt : mask < 256 ^ size

structure ExactMatchTable (T : Type) where
  rawKeySize : Nat
  fields : List ExactMatchField
  table : CuckooMap Mem T
  packed : Packed ExactMatchField.pos ExactMatchField.size 0 fields
  raw_eq : rawKeySize = total ExactMatchField.size fields
  length_le : fields.length ≤ maxFields

namespace ExactMatchTable

variable {T : Type}

def totalKeySize (t : ExactMatchTable T) : Nat := alignCeil t.rawKeySize

/-! ## Fields -/

def empty [Inhabited T] : ExactMatchTable T where
  rawKeySize := 0
  fields := []
  table := CuckooMap.new kInitNumBucket kInitNumEntries
  packed := trivial
  raw_eq := rfl
  length_le := by decide

/-- All bits by default. -/
def fieldMask (mask : BitVec 64) (size : Nat) : Option Nat :=
  if mask = 0 then some (256 ^ size - 1) else uint64ToBin mask size true

theorem fieldMask_lt {mask : BitVec 64} {size m : Nat} (h : fieldMask mask size = some m) :
    m < 256 ^ size := by
  unfold fieldMask at h
  split at h
  · cases h
    have : 0 < 256 ^ size := Nat.pow_pos (by decide)
    omega
  · exact uint64ToBin_lt h

def errorAt (idx : Nat) (message : String) : Error := (einval, "idx " ++ toString idx ++ message)

def addField (t : ExactMatchTable T) (offset size : Int) (mask : BitVec 64) :
    Except Error (ExactMatchTable T) :=
  let idx := t.fields.length
  if hidx : maxFields ≤ idx then .error (errorAt idx " is not in [0,8)")
  else if hsize : size < 1 ∨ (maxFieldSize : Int) < size then
    .error (errorAt idx ": 'size' must be in [1,8]")
  else if offset < 0 ∨ 1024 < offset then .error (errorAt idx ": invalid 'offset'")
  else match hm : fieldMask mask size.toNat with
    | none => .error (errorAt idx (": not a valid " ++ toString size ++ "-byte mask"))
    | some m =>
      if m = 0 then .error (errorAt idx ": empty mask")
      else
        let f : ExactMatchField := {
          mask := m
          offset := offset.toNat
          pos := t.rawKeySize
          size := size.toNat
          size_pos := by omega
          size_le := by omega
          mask_lt := fieldMask_lt hm }
        .ok {
          rawKeySize := t.rawKeySize + size.toNat
          fields := t.fields ++ [f]
          table := t.table
          packed := packed_append.mpr ⟨t.packed, by rw [Nat.zero_add, ← t.raw_eq], trivial⟩
          raw_eq := by rw [total_append, ← t.raw_eq, total_cons]; rfl
          length_le := by rw [List.length_append]; simp only [List.length_singleton]; omega }

/-- An offset, a size and a mask. -/
abbrev FieldArg := Int × Int × BitVec 64

def addFields (t : ExactMatchTable T) : List FieldArg → Except Error (ExactMatchTable T)
  | [] => .ok t
  | a :: as =>
    match t.addField a.1 a.2.1 a.2.2 with
    | .error e => .error e
    | .ok t => t.addFields as

/-! ## Keys -/

abbrev RuleFields := List (List Byte)

/-- The loop of `gather_key`, from field `i` on. -/
def gatherFrom (i : Nat) : List ExactMatchField → RuleFields → Mem → Except Error Mem
  | f :: fs, v :: vs, key =>
    if f.size ≠ v.length then
      .error (einval, "rule field " ++ toString i ++ " should have size " ++ toString f.size ++
        " (has " ++ toString v.length ++ ")")
    else gatherFrom (i + 1) fs vs ((copyTo f.pos v).apply key)
  | _, _, key => .ok key

def gatherKey (t : ExactMatchTable T) (fields : RuleFields) : Except Error Mem :=
  if fields.length ≠ t.fields.length then
    .error (einval, "rule should have " ++ toString t.fields.length ++ " fields (has " ++
      toString fields.length ++ ")")
  else gatherFrom 0 t.fields fields fun _ => 0

/-- The bytes that are written for a field of a buffer. -/
def fieldBytes (buf : Mem) (f : ExactMatchField) (k : Nat) : Byte :=
  byteAt (load buf f.offset 8 &&& f.mask) k

/-- `DoMakeKeys` for one buffer; `stale` is what the memory of the key holds before. -/
def makeKey (t : ExactMatchTable T) (stale buf : Mem) : Option Mem :=
  if t.totalKeySize = 0 then none
  else some (writeAll ((zeroLast 0 t.totalKeySize).apply stale)
    (fieldWrites ExactMatchField.pos (fun _ => 8) (fieldBytes buf) t.fields))

/-! ## Rules -/

section Rules

variable [Inhabited T] (hash : List Byte → BitVec 64)

def hashing (t : ExactMatchTable T) : Hashing Mem := keyHashing hash t.totalKeySize

/-- Also returns whether the insertion succeeded, which `AddRule` does not look at. -/
def addRule (t : ExactMatchTable T) (val : T) (fields : RuleFields) :
    Option (Error × Bool × ExactMatchTable T) :=
  if fields.length = 0 then some ((einval, "rule has no fields"), true, t)
  else match t.gatherKey fields with
    | .error err => some (err, true, t)
    | .ok key =>
      match t.table.insert (t.hashing hash) key val with
      | none => none
      | some (entry, table) => some ((0, ""), entry.isSome, { t with table := table })

def deleteRule (t : ExactMatchTable T) (fields : RuleFields) : Error × ExactMatchTable T :=
  if fields.length = 0 then ((einval, "rule has no fields"), t)
  else match t.gatherKey fields with
    | .error err => (err, t)
    | .ok key =>
      let (found, table) := t.table.remove (t.hashing hash) key
      let t := { t with table := table }
      if found then ((0, ""), t) else ((enoent, "rule doesn't exist"), t)

def clearRules (t : ExactMatchTable T) : ExactMatchTable T := { t with table := t.table.clear }

def find (t : ExactMatchTable T) (key : Mem) (defaultValue : T) : T :=
  match t.table.find (t.hashing hash) key with
  | some entry => entry.2
  | none => defaultValue

/-- `Find(MakeKey(buf), default_value)` -/
def lookup (t : ExactMatchTable T) (stale buf : Mem) (defaultValue : T) : Option T :=
  (t.makeKey stale buf).map fun key => t.find hash key defaultValue

inductive Op (T : Type) where
  | add (val : T) (fields : RuleFields)
  | delete (fields : RuleFields)
  | clear

def step (t : ExactMatchTable T) : Op T → Option (Error × Bool × ExactMatchTable T)
  | .add val fields => t.addRule hash val fields
  | .delete fields => some ((t.deleteRule hash fields).1, true, (t.deleteRule hash fields).2)
  | .clear => some ((0, ""), true, t.clearRules)

end Rules

/-! ## What the keys hold -/

variable {hash : List Byte → BitVec 64} {t t' : ExactMatchTable T} {rule : RuleFields} {key stale buf : Mem}

/-- The rule has a value of the right size for each field. -/
def WellSized (fs : List ExactMatchField) (rule : RuleFields) : Prop :=
  rule.length = fs.length ∧ ∀ p ∈ fs.zip rule, p.1.size = p.2.length

instance (fs : List ExactMatchField) (rule : RuleFields) : Decidable (WellSized fs rule) :=
  inferInstanceAs (Decidable (_ ∧ _))

/-- The bytes that are copied for the fields of a rule. -/
def ruleWrites (fs : List ExactMatchField) (rule : RuleFields) : List Write :=
  fieldWrites (fun p => p.1.pos) (fun p => p.1.size) (fun p k => p.2.getD k 0) (fs.zip rule)

theorem ruleWrites_cons (f : ExactMatchField) (fs : List ExactMatchField) (v : List Byte)
    (vs : RuleFields) : ruleWrites (f :: fs) (v :: vs) =
      ⟨f.pos, f.size, fun k => v.getD k 0⟩ :: ruleWrites fs vs := rfl

theorem gatherFrom_spec (i : Nat) (fs : List ExactMatchField) (rule : RuleFields) (key : Mem)
    (hlen : rule.length = fs.length) :
    (WellSized fs rule → gatherFrom i fs rule key = .ok (writeAll key (ruleWrites fs rule))) ∧
      (¬ WellSized fs rule → ∃ e, gatherFrom i fs rule key = .error e) := by
  induction fs generalizing i rule key with
  | nil =>
    cases rule with
    | nil => exact ⟨fun _ => rfl, fun h => absurd ⟨rfl, fun p hp => by cases hp⟩ h⟩
    | cons v vs => cases hlen
  | cons f fs ih =>
    cases rule with
    | nil => cases hlen
    | cons v vs =>
      have hlen' : vs.length = fs.length := by simpa using hlen
      have hws : WellSized (f :: fs) (v :: vs) ↔ f.size = v.length ∧ WellSized fs vs := by
        simp [WellSized, hlen']
      rw [hws, gatherFrom]
      by_cases hs : f.size = v.length
      · rw [if_neg (not_not.mpr hs)]
        obtain ⟨hok, herr⟩ := ih (i + 1) vs ((copyTo f.pos v).apply key) hlen'
        refine ⟨fun h => (hok h.2).trans ?_, fun h => herr fun hw => h ⟨hs, hw⟩⟩
        rw [ruleWrites_cons, writeAll_cons, copyTo, ← hs]
      · rw [if_pos hs]
        exact ⟨fun h => absurd h.1 hs, fun _ => ⟨_, rfl⟩⟩

theorem gatherKey_of_wellSized (h : WellSized t.fields rule) :
    t.gatherKey rule = .ok (writeAll (fun _ => 0) (ruleWrites t.fields rule)) := by
  rw [gatherKey, if_neg (not_not.mpr h.1)]
  exact (gatherFrom_spec 0 t.fields rule _ h.1).1 h

theorem gatherKey_of_not_wellSized (h : ¬ WellSized t.fields rule) :
    ∃ e, t.gatherKey rule = .error e := by
  rw [gatherKey]
  by_cases hlen : rule.length = t.fields.length
  · rw [if_neg (not_not.mpr hlen)]
    exact (gatherFrom_spec 0 t.fields rule _ hlen).2 h
  · rw [if_pos hlen]
    exact ⟨_, rfl⟩

theorem pos_add_eight_le {f : ExactMatchField} (hf : f ∈ t.fields) : f.pos + 8 ≤ hashKeySize := by
  obtain ⟨pre, post, hsplit⟩ := List.append_of_mem hf
  have hpacked := t.packed
  rw [hsplit] at hpacked
  obtain ⟨-, hpos, -⟩ := packed_append.mp hpacked
  have hlen := t.length_le
  rw [hsplit, List.length_append, List.length_cons] at hlen
  have htotal : total ExactMatchField.size pre ≤ pre.length * maxFieldSize :=
    total_le fun g _ => g.size_le
  unfold hashKeySize maxFields maxFieldSize at *
  omega

-- The word that is zeroed first covers the bytes between the last field and the rounded size.
theorem zeroLast_apply (t : ExactMatchTable T) {m : Mem} {i : Nat} (hlow : t.rawKeySize ≤ i)
    (hhigh : i < t.totalKeySize) : (zeroLast 0 t.totalKeySize).apply m i = 0 := by
  rw [Write.apply, if_pos]
  · rfl
  · have := alignCeil_lt t.rawKeySize
    simp only [zeroLast, Write.Covers, totalKeySize, alignCeil] at *
    omega

/-- The key of a rule is that of a buffer iff the masked fields of the buffer are its values. -/
theorem key_eq_iff (hash : List Byte → BitVec 64) (hws : WellSized t.fields rule)
    (hbuf : t.makeKey stale buf = some key) :
    (t.hashing hash).eq (writeAll (fun _ => 0) (ruleWrites t.fields rule)) key = true ↔
      ∀ p ∈ t.fields.zip rule, load buf p.1.offset p.1.size &&& p.1.mask = leNat p.2 := by
  obtain ⟨hpacked, htotal⟩ := t.packed.zip hws.1.ge
  rw [← t.raw_eq] at htotal
  unfold makeKey at hbuf
  split at hbuf
  · cases hbuf
  · rename_i hne
    simp only [Option.some.injEq] at hbuf
    rw [hashing, keyHashing_eq_iff, hpacked.bytes_eq_iff (by rw [htotal]; exact le_alignCeil _)]
    have hlast : ∀ i, t.rawKeySize ≤ i → i < t.totalKeySize → key i = 0 := by
      intro i hlow hhigh
      rw [← hbuf]
      apply t.packed.writeAll_tail
      · rw [Nat.zero_add, ← t.raw_eq]
        exact hlow
      · exact t.zeroLast_apply hlow hhigh
      · intro f _ k hk _
        apply byteAt_of_lt
        exact (lt_of_le_of_lt Nat.and_le_right f.mask_lt).trans_le
          (Nat.pow_le_pow_right (by decide) hk)
    have htail : (∀ i, total (fun p => p.1.size) (t.fields.zip rule) ≤ i → i < t.totalKeySize →
        writeAll (fun _ => 0) (ruleWrites t.fields rule) i = key i) ↔ True := by
      refine iff_of_true (fun i hlow hhigh => ?_) trivial
      rw [hlast i (by rw [← htotal]; exact hlow) hhigh]
      exact hpacked.writeAll_tail (by rw [Nat.zero_add]; exact hlow) rfl fun p _ k h1 h2 => by omega
    rw [htail, and_true]
    refine forall₂_congr fun p hp => ?_
    have hf : p.1 ∈ t.fields := (List.of_mem_zip hp).1
    have hsize := hws.2 p hp
    have hmask : load buf p.1.offset 8 &&& p.1.mask = load buf p.1.offset p.1.size &&& p.1.mask :=
      load_and_mask p.1.size_le p.1.mask_lt
    have hbytes : ∀ k < p.1.size,
        writeAll (fun _ => 0) (ruleWrites t.fields rule) (p.1.pos + k) = byteAt (leNat p.2) k ∧
          key (p.1.pos + k) = byteAt (load buf p.1.offset p.1.size &&& p.1.mask) k := by
      intro k hk
      constructor
      · rw [byteAt_leNat]
        exact hpacked.writeAll_field hp hk le_rfl
      · rw [← hbuf, t.packed.writeAll_field hf hk p.1.size_le, fieldBytes, hmask]
    constructor
    · intro h
      apply byteAt_ext (lt_of_le_of_lt Nat.and_le_right p.1.mask_lt)
      · rw [hsize]
        exact leNat_lt _
      · intro k hk
        rw [← (hbytes k hk).1, ← (hbytes k hk).2]
        exact (h k hk).symm
    · intro h k hk
      rw [(hbytes k hk).1, (hbytes k hk).2, h]

/-! ## Rules as they are meant -/

/-- The values of the rule are those of the buffer, on the bits of the masks. -/
def Agrees (fs : List ExactMatchField) (rule : RuleFields) (buf : Mem) : Prop :=
  ∀ p ∈ fs.zip rule, load buf p.1.offset p.1.size &&& p.1.mask = leNat p.2 &&& p.1.mask

instance (fs : List ExactMatchField) (rule : RuleFields) (buf : Mem) :
    Decidable (Agrees fs rule buf) :=
  inferInstanceAs (Decidable (∀ p ∈ _, _))

/-- Two rules that differ in bits outside of the masks only. -/
def SameRule (fs : List ExactMatchField) (rule rule' : RuleFields) : Prop :=
  ∀ p ∈ fs.zip (rule.zip rule'), leNat p.2.1 &&& p.1.mask = leNat p.2.2 &&& p.1.mask

instance (fs : List ExactMatchField) (rule rule' : RuleFields) :
    Decidable (SameRule fs rule rule') :=
  inferInstanceAs (Decidable (∀ p ∈ _, _))

/-- The rules that were added and not deleted, the most recent one first. -/
abbrev Rules (T : Type) := List (RuleFields × T)

def Rules.apply (fs : List ExactMatchField) (rules : Rules T) : Op T → Rules T
  | .add val fields => if WellSized fs fields then (fields, val) :: rules else rules
  | .delete fields =>
    if WellSized fs fields then rules.filter fun r => !decide (SameRule fs fields r.1) else rules
  | .clear => []

theorem Rules.apply_add (fs : List ExactMatchField) (rules : Rules T) (val : T)
    (fields : RuleFields) : rules.apply fs (.add val fields) =
      if WellSized fs fields then (fields, val) :: rules else rules := rfl

theorem Rules.apply_delete (fs : List ExactMatchField) (rules : Rules T) (fields : RuleFields) :
    rules.apply fs (.delete fields) =
      if WellSized fs fields then rules.filter fun r => !decide (SameRule fs fields r.1)
      else rules := rfl

/-- The value of the most recent rule that agrees with the buffer. -/
def Rules.lookup (fs : List ExactMatchField) (rules : Rules T) (buf : Mem) : Option T :=
  (rules.find? fun r => decide (Agrees fs r.1 buf)).map Prod.snd

/-- The rule has no bits outside of the masks. -/
def InMasks (fs : List ExactMatchField) (rule : RuleFields) : Prop :=
  ∀ p ∈ fs.zip rule, leNat p.2 &&& p.1.mask = leNat p.2

def OpInMasks (fs : List ExactMatchField) : Op T → Prop
  | .add _ fields => InMasks fs fields
  | .delete fields => InMasks fs fields
  | .clear => True

theorem agrees_iff_of_inMasks (h : InMasks t.fields rule) : Agrees t.fields rule buf ↔
    ∀ p ∈ t.fields.zip rule, load buf p.1.offset p.1.size &&& p.1.mask = leNat p.2 := by
  refine forall₂_congr fun p hp => ?_
  rw [h p hp]

theorem agrees_of_sameRule {fs : List ExactMatchField} {rule rule' : RuleFields}
    (hlen : rule.length = rule'.length) (h : SameRule fs rule rule') :
    Agrees fs rule buf ↔ Agrees fs rule' buf := by
  induction fs generalizing rule rule' with
  | nil => simp [Agrees]
  | cons f fs ih =>
    cases rule with
    | nil =>
      cases rule' with
      | nil => exact Iff.rfl
      | cons v' vs' => cases hlen
    | cons v vs =>
      cases rule' with
      | nil => cases hlen
      | cons v' vs' =>
        simp only [SameRule, Agrees, List.zip_cons_cons, List.forall_mem_cons] at h ih ⊢
        rw [h.1, ih (by simpa using hlen) h.2]

theorem sameRule_of_agrees {fs : List ExactMatchField} {rule rule' : RuleFields}
    (h : Agrees fs rule buf) (h' : Agrees fs rule' buf) : SameRule fs rule rule' := by
  induction fs generalizing rule rule' with
  | nil => simp [SameRule]
  | cons f fs ih =>
    cases rule with
    | nil => simp [SameRule]
    | cons v vs =>
      cases rule' with
      | nil => simp [SameRule]
      | cons v' vs' =>
        simp only [SameRule, Agrees, List.zip_cons_cons, List.forall_mem_cons] at h h' ih ⊢
        exact ⟨h.1.symm.trans h'.1, ih h.2 h'.2⟩

theorem makeKey_isSome (hne : t.fields ≠ []) (stale buf : Mem) :
    ∃ key, t.makeKey stale buf = some key := by
  refine ⟨_, if_neg ?_⟩
  obtain ⟨f, fs, hf⟩ := List.exists_cons_of_ne_nil hne
  have hraw := t.raw_eq
  rw [hf, total_cons] at hraw
  have := f.size_pos
  unfold totalKeySize
  have := le_alignCeil t.rawKeySize
  omega

theorem Rules.lookup_cons (fs : List ExactMatchField) (r : RuleFields × T) (rules : Rules T)
    (buf : Mem) : Rules.lookup fs (r :: rules) buf =
      if Agrees fs r.1 buf then some r.2 else Rules.lookup fs rules buf := by
  unfold Rules.lookup
  by_cases h : Agrees fs r.1 buf
  · rw [List.find?_cons_of_pos (by simpa using h), if_pos h]
    rfl
  · rw [List.find?_cons_of_neg (by simpa using h), if_neg h]

/-- Without a rule, the buffers that agree with it find nothing, and the others what they did. -/
theorem Rules.lookup_filter (fs : List ExactMatchField) (fields : RuleFields) (rules : Rules T)
    (hlen : ∀ r ∈ rules, fields.length = r.1.length) (buf : Mem) :
    Rules.lookup fs (rules.filter fun r => !decide (SameRule fs fields r.1)) buf =
      if Agrees fs fields buf then none else Rules.lookup fs rules buf := by
  induction rules with
  | nil => simp [Rules.lookup]
  | cons r rules ih =>
    obtain ⟨hr, hrules⟩ := List.forall_mem_cons.mp hlen
    have ih := ih hrules
    by_cases hsame : SameRule fs fields r.1
    · rw [List.filter_cons_of_neg (by simpa using hsame), ih, Rules.lookup_cons]
      by_cases hagree : Agrees fs fields buf
      · rw [if_pos hagree, if_pos hagree]
      · rw [if_neg hagree, if_neg hagree, if_neg]
        exact fun h => hagree ((agrees_of_sameRule hr hsame).mpr h)
    · rw [List.filter_cons_of_pos (by simpa using hsame), Rules.lookup_cons, ih, Rules.lookup_cons]
      by_cases hagree : Agrees fs fields buf
      · rw [if_pos hagree, if_pos hagree, if_neg fun h => hsame (sameRule_of_agrees hagree h)]
      · rw [if_neg hagree, if_neg hagree]

variable {fields : RuleFields}

theorem not_wellSized_nil (hne : t.fields ≠ []) (h : fields.length = 0) :
    ¬ WellSized t.fields fields := by
  rintro ⟨hlen, -⟩
  rw [h] at hlen
  exact hne (List.eq_nil_of_length_eq_zero hlen.symm)

theorem addField_fields {offset size : Int} {mask : BitVec 64}
    (h : t.addField offset size mask = .ok t') :
    t'.table = t.table ∧ ∃ f : ExactMatchField, t'.fields = t.fields ++ [f] ∧
      fieldMask mask size.toNat = some f.mask ∧ f.offset = offset.toNat ∧ f.size = size.toNat := by
  unfold addField at h
  simp only at h
  split at h
  · cases h
  · split at h
    · cases h
    · split at h
      · cases h
      · split at h
        · cases h
        · rename_i m hm
          split at h
          · cases h
          · cases h
            exact ⟨rfl, _, rfl, hm, rfl, rfl⟩

theorem addFields_table {args : List FieldArg} (h : t.addFields args = .ok t') :
    t'.table = t.table ∧ (t.fields ≠ [] ∨ args ≠ [] → t'.fields ≠ []) := by
  induction args generalizing t with
  | nil =>
    cases h
    exact ⟨rfl, fun hor => hor.resolve_right fun hn => hn rfl⟩
  | cons a as ih =>
    unfold addFields at h
    cases ha : t.addField a.1 a.2.1 a.2.2 with
    | error e =>
      rw [ha] at h
      cases h
    | ok t₁ =>
      rw [ha] at h
      obtain ⟨htable, f, hfields, -⟩ := addField_fields ha
      obtain ⟨htable', hne'⟩ := ih h
      have hne : t₁.fields ≠ [] := by simp [hfields]
      exact ⟨htable'.trans htable, fun _ => hne' (.inl hne)⟩

/-! ## Runs -/

variable [Inhabited T] {rules : Rules T}

/-- The table answers lookups of buffers as the rules do. -/
def LooksUp (hash : List Byte → BitVec 64) (t : ExactMatchTable T) (rules : Rules T) : Prop :=
  ∀ stale buf defaultValue, t.lookup hash stale buf defaultValue =
    some ((rules.lookup t.fields buf).getD defaultValue)

/-- The table holds the rules. -/
structure Holds (hash : List Byte → BitVec 64) (t : ExactMatchTable T) (rules : Rules T) : Prop where
  rep : CuckooMap.Rep (t.hashing hash) t.table
  sized : ∀ r ∈ rules, r.1.length = t.fields.length
  look : ∀ stale buf key, t.makeKey stale buf = some key →
    t.table.look (t.hashing hash) key = rules.lookup t.fields buf

theorem Holds.looksUp (h : Holds hash t rules) (hne : t.fields ≠ []) : LooksUp hash t rules := by
  intro stale buf defaultValue
  obtain ⟨key, hkey⟩ := makeKey_isSome hne stale buf
  have hlook := h.look stale buf key hkey
  rw [lookup, hkey, Option.map_some, find, ← hlook, CuckooMap.look]
  cases t.table.find (t.hashing hash) key with
  | none => rfl
  | some entry => rfl

theorem Holds.add (h : Holds hash t rules) (hne : t.fields ≠ []) (val : T)
    (hmasks : InMasks t.fields fields) :
    ∃ err ok t', t.addRule hash val fields = some (err, ok, t') ∧ t'.fields = t.fields ∧
      (ok = true → Holds hash t' (rules.apply t.fields (.add val fields))) := by
  rw [Rules.apply_add]
  unfold addRule
  split
  · rename_i hnil
    refine ⟨_, _, _, rfl, rfl, fun _ => ?_⟩
    rw [if_neg (not_wellSized_nil hne hnil)]
    exact h
  · by_cases hws : WellSized t.fields fields
    · rw [gatherKey_of_wellSized hws]
      obtain ⟨r, m', hins, hrep, hlook⟩ :=
        h.rep.look_insert (writeAll (fun _ => 0) (ruleWrites t.fields fields)) val
      simp only [hins]
      refine ⟨_, _, _, rfl, rfl, fun hok => ?_⟩
      rw [if_pos hws]
      refine ⟨hrep, ?_, ?_⟩
      · intro r hr
        rcases List.mem_cons.mp hr with rfl | hr
        · exact hws.1
        · exact h.sized r hr
      · intro stale buf key hkey
        have hkey' : t.makeKey stale buf = some key := hkey
        have heq := key_eq_iff hash hws hkey'
        rw [← agrees_iff_of_inMasks hmasks] at heq
        refine (hlook key).trans ?_
        rw [Rules.lookup_cons]
        by_cases hagree : Agrees t.fields fields buf
        · rw [if_pos hagree, if_pos ⟨hok, heq.mpr hagree⟩]
        · rw [if_neg hagree, if_neg fun hc => hagree (heq.mp hc.2)]
          exact h.look stale buf key hkey'
    · obtain ⟨e, he⟩ := gatherKey_of_not_wellSized hws
      rw [he]
      refine ⟨_, _, _, rfl, rfl, fun _ => ?_⟩
      rw [if_neg hws]
      exact h

theorem Holds.delete (h : Holds hash t rules) (hne : t.fields ≠ [])
    (hmasks : InMasks t.fields fields) :
    (t.deleteRule hash fields).2.fields = t.fields ∧
      Holds hash (t.deleteRule hash fields).2 (rules.apply t.fields (.delete fields)) := by
  rw [Rules.apply_delete]
  unfold deleteRule
  split
  · rename_i hnil
    rw [if_neg (not_wellSized_nil hne hnil)]
    exact ⟨rfl, h⟩
  · by_cases hws : WellSized t.fields fields
    · rw [gatherKey_of_wellSized hws, if_pos hws]
      obtain ⟨key', hkey'⟩ : ∃ k, k = writeAll (fun _ => 0) (ruleWrites t.fields fields) := ⟨_, rfl⟩
      obtain ⟨found, m', hm'⟩ : ∃ found m', t.table.remove (t.hashing hash) key' = (found, m') :=
        ⟨_, _, rfl⟩
      have hrep := (h.rep.remove_spec key').1
      have hlook := fun k => h.rep.look_remove key' k
      rw [hm'] at hrep hlook
      simp only at hrep hlook
      have hgood : Holds hash { t with table := m' }
          (rules.filter fun r => !decide (SameRule t.fields fields r.1)) := by
        refine ⟨hrep, fun r hr => h.sized r (List.mem_of_mem_filter hr), ?_⟩
        intro stale buf key hkey
        have hkey₁ : t.makeKey stale buf = some key := hkey
        have heq := key_eq_iff hash hws hkey₁
        rw [← agrees_iff_of_inMasks hmasks, ← hkey'] at heq
        refine (hlook key).trans ?_
        rw [Rules.lookup_filter _ _ _ fun r hr => hws.1.trans (h.sized r hr).symm]
        by_cases hagree : Agrees t.fields fields buf
        · rw [if_pos hagree, if_pos (heq.mpr hagree)]
        · rw [if_neg hagree, if_neg fun hc => hagree (heq.mp hc)]
          exact h.look stale buf key hkey₁
      simp only [← hkey', hm']
      split
      · exact ⟨rfl, hgood⟩
      · exact ⟨rfl, hgood⟩
    · obtain ⟨e, he⟩ := gatherKey_of_not_wellSized hws
      rw [he, if_neg hws]
      exact ⟨rfl, h⟩

theorem holds_new (hnew : t.table = CuckooMap.new kInitNumBucket kInitNumEntries) :
    Holds hash t [] := by
  have hrep : CuckooMap.Rep (t.hashing hash) t.table := by
    rw [hnew]
    exact CuckooMap.rep_new (k := 2) (by decide)
  refine ⟨hrep, ?_, ?_⟩
  · intro r hr
    cases hr
  · intro stale buf key _
    rw [hnew] at hrep ⊢
    exact CuckooMap.look_new _ _ _ key hrep

/-- In every state of the run, as long as insertions succeed, lookups are answered as by the rules. -/
def RightAlong (hash : List Byte → BitVec 64) (fs : List ExactMatchField) :
    ExactMatchTable T → Rules T → List (Op T) → Prop
  | t, rules, [] => LooksUp hash t rules
  | t, rules, op :: ops => LooksUp hash t rules ∧ ∃ err ok t', t.step hash op = some (err, ok, t') ∧
    (ok = true → RightAlong hash fs t' (rules.apply fs op) ops)

theorem Holds.step (h : Holds hash t rules) (hne : t.fields ≠ []) {op : Op T}
    (hop : OpInMasks t.fields op) :
    ∃ err ok t', t.step hash op = some (err, ok, t') ∧ t'.fields = t.fields ∧
      (ok = true → Holds hash t' (rules.apply t.fields op)) := by
  cases op with
  | add val fields => exact h.add hne val hop
  | delete fields =>
    obtain ⟨hf, hh⟩ := h.delete hne hop
    exact ⟨_, _, _, rfl, hf, fun _ => hh⟩
  | clear => exact ⟨_, _, _, rfl, rfl, fun _ => holds_new rfl⟩

theorem Holds.rightAlong (h : Holds hash t rules) (hne : t.fields ≠ []) {ops : List (Op T)}
    (hops : ∀ op ∈ ops, OpInMasks t.fields op) : RightAlong hash t.fields t rules ops := by
  induction ops generalizing t rules with
  | nil => exact h.looksUp hne
  | cons op ops ih =>
    obtain ⟨hop, hops⟩ := List.forall_mem_cons.mp hops
    obtain ⟨err, ok, t', hs, hf, hh⟩ := h.step hne hop
    refine ⟨h.looksUp hne, err, ok, t', hs, fun hok => ?_⟩
    rw [← hf] at hne hops hh ⊢
    exact ih (hh hok) hne hops

end ExactMatchTable

/-- For every list of fields that the table accepts, at least one, and every sequence of changes
whose rules have no bits outside of the masks: in every state, lookups give the value of the most
recent rule that agrees with the buffer, as long as insertions succeed. -/
theorem exact_lookups_right {T : Type} [Inhabited T] (hash : List Byte → BitVec 64)
    {args : List ExactMatchTable.FieldArg} {t : ExactMatchTable T}
    (hfields : ExactMatchTable.empty.addFields args = .ok t) (hne : args ≠ [])
    (ops : List (ExactMatchTable.Op T))
    (hops : ∀ op ∈ ops, ExactMatchTable.OpInMasks t.fields op) :
    ExactMatchTable.RightAlong hash t.fields t [] ops := by
  obtain ⟨htable, hfne⟩ := ExactMatchTable.addFields_table hfields
  exact (ExactMatchTable.holds_new htable).rightAlong (hfne (.inr hne)) hops

/-! ## A rule with a bit outside of its mask -/

/-- One field, the low half of the first byte. -/
def lowHalfArgs : List ExactMatchTable.FieldArg := [(0, 1, 0x0F#64)]

def lowHalf : ExactMatchTable Nat where
  rawKeySize := 1
  fields := [⟨0x0F, 0, 0, 1, by decide, by decide, by decide⟩]
  table := CuckooMap.new kInitNumBucket kInitNumEntries
  packed := ⟨rfl, trivial⟩
  raw_eq := rfl
  length_le := by decide

theorem lowHalf_rule_found :
    ExactMatchTable.empty.addFields lowHalfArgs = .ok lowHalf ∧
      ExactMatchTable.RightAlong crcKey lowHalf.fields lowHalf [] [.add 5 [[0x0B#8]]] := by
  have hfields : ExactMatchTable.empty.addFields lowHalfArgs = .ok lowHalf := rfl
  refine ⟨hfields, exact_lookups_right crcKey hfields (by decide) _ ?_⟩
  intro op hop
  cases List.mem_singleton.mp hop
  intro p hp
  cases List.mem_singleton.mp hp
  decide

theorem fifteen_not_found :
    (lowHalf.step crcKey (.add 5 [[0x1F#8]])).map (fun r =>
        (r.2.1, r.2.2.lookup crcKey (fun _ => 0) (fun _ => 0x0F#8) 0,
          ExactMatchTable.Rules.lookup r.2.2.fields [([[0x1F#8]], 5)] fun _ => 0x0F#8)) =
      some (true, some 0, some 5) := by
  decide +kernel

/-- The rule `0x1F` agrees with the byte `0x0F` on the low half, and is not found for it. -/
theorem lowHalf_rule_lost :
    ExactMatchTable.empty.addFields lowHalfArgs = .ok lowHalf ∧
      ¬ ExactMatchTable.RightAlong crcKey lowHalf.fields lowHalf [] [.add 5 [[0x1F#8]]] := by
  refine ⟨rfl, ?_⟩
  rintro ⟨-, err, ok, t', hs, hrest⟩
  have hnot := fifteen_not_found
  rw [hs, Option.map_some, Option.some.injEq, Prod.mk.injEq, Prod.mk.injEq] at hnot
  obtain ⟨hok, hzero, hfive⟩ := hnot
  have hlook := hrest hok (fun _ => 0) (fun _ => 0x0F#8) 0
  have hrules : ExactMatchTable.Rules.apply lowHalf.fields [] (.add 5 [[0x1F#8]]) =
      [([[0x1F#8]], 5)] := rfl
  rw [hzero, hrules, hfive] at hlook
  cases hlook

end Bess.Match
