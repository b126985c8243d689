import Bess.Match.ExactMatch
import Bess.Match.KeyBounds

/-!
# Init and GetInitialArg of ExactMatch

`Init` with fields of the packet and of the metadata, and the argument that `GetInitialArg` returns
for it. A mask is exported as its bytes in memory and imported as a number, which for a field of the
packet is stored with its highest byte first: such a mask comes back from its other end.

`registered` gives the size of the attributes that the pipeline knows. It does not matter that `Init`
registers its own, as a module may have an attribute only once.
-/

namespace Bess.Match.ExactMatchInit

open Bess.ByteMem Bess.Packing
open Wildcard (FieldData isValidGate maxBurst enospc)

/-- The position of a `bess::pb::Field`. -/
inductive Position where
  | attrName (name : String)
  | offset (offset : Int)
  | notSet

structure Field where
  position : Position
  numBytes : Int

/-- `ExactMatchField`, with no `attr` for fields of the packet. -/
structure TableField where
  mask : Nat
  attr : Option Nat
  offset : Int
  pos : Nat
  size : Nat
  size_pos : 0 < size
  size_le : size ≤ maxFieldSize
  mask_lt : mask < 256 ^ size
  mask_ne : mask ≠ 0

structure Config where
  fields : List TableField
  /-- Names and sizes of the attributes of the module. -/
  attrs : List (String × Nat)
  emptyMasks : Bool

def Config.rawKeySize (c : Config) : Nat := total TableField.size c.fields

def Config.totalKeySize (c : Config) : Nat := alignCeil c.rawKeySize

/-! ## Init -/

def eexist : Nat := 17

/-- `kMaxAttrsPerModule` -/
def maxAttrsPerModule : Nat := 16

/-- `kMetadataAttrMaxSize` -/
def metadataAttrMaxSize : Nat := 32

/-- `AddMetadataAttr`: the attributes with the new one, or an errno. -/
def addMetadataAttr (registered : String → Option Nat) (attrs : List (String × Nat)) (name : String)
    (size : Nat) : Except Nat (List (String × Nat)) :=
  if maxAttrsPerModule ≤ attrs.length then .error enospc
  else if name = "" then .error einval
  else if size < 1 ∨ metadataAttrMaxSize < size then .error einval
  else if attrs.any (fun a => a.1 == name) then .error eexist
  else if (registered name).any (fun s => s != size) then .error einval
  else .ok (attrs ++ [(name, size)])

/-- All bits by default. -/
def fieldMask (mask : BitVec 64) (size : Nat) (forceBe : Bool) : Option Nat :=
  if mask = 0 then some (256 ^ size - 1) else uint64ToBin mask size forceBe

theorem fieldMask_lt {mask : BitVec 64} {size m : Nat} {forceBe : Bool}
    (h : fieldMask mask size forceBe = some m) : m < 256 ^ size := by
  unfold fieldMask at h
  split at h
  · cases h
    have : 0 < 256 ^ size := Nat.pow_pos (by decide)
    omega
  · exact uint64ToBin_lt h

section Init

variable (registered : String → Option Nat)

/-- Where the field is: an attribute, which is added, or an offset. -/
def place (c : Config) (name : String) (offset : Int) (size : Nat) :
    Except Error (Option Nat × Int × List (String × Nat)) :=
  let idx := c.fields.length
  if name ≠ "" then
    match addMetadataAttr registered c.attrs name size with
    | .error e => .error (e, "idx " ++ toString idx ++ ": add_metadata_attr() failed")
    | .ok attrs => .ok (some c.attrs.length, 0, attrs)
  else if offset < 0 ∨ 1024 < offset then .error (ExactMatchTable.errorAt idx ": invalid 'offset'")
  else .ok (none, offset, c.attrs)

/-- `DoAddField`; the name is empty for fields of the packet. -/
def doAddField (c : Config) (name : String) (offset size : Int) (mask : BitVec 64) :
    Except Error Config :=
  let idx := c.fields.length
  if maxFields ≤ idx then .error (ExactMatchTable.errorAt idx " is not in [0,8)")
  else if hsize : size < 1 ∨ (maxFieldSize : Int) < size then
    .error (ExactMatchTable.errorAt idx ": 'size' must be in [1,8]")
  else match place registered c name offset size.toNat with
    | .error e => .error e
    | .ok (attr, offset, attrs) =>
      match hm : fieldMask mask size.toNat attr.isNone with
      | some m =>
        if hne : m = 0 then .error (ExactMatchTable.errorAt idx ": empty mask")
        else .ok { c with
          fields := c.fields ++ [⟨m, attr, offset, c.rawKeySize, size.toNat, by omega, by omega,
            fieldMask_lt hm, hne⟩]
          attrs := attrs }
      | none => .error (ExactMatchTable.errorAt idx
          (": not a valid " ++ toString size ++ "-byte mask"))

/-- Inside, an error; outside, a mask that overruns its variable. -/
def addFieldOne (c : Config) (field : Field) (mask : FieldData) : Option (Except Error Config) :=
  match ExactMatch.mask64 mask with
  | none => none
  | some mask64 =>
    match field.position with
    | .attrName name => some (doAddField registered c name 0 field.numBytes mask64)
    | .offset offset => some (doAddField registered c "" offset field.numBytes mask64)
    | .notSet => some (.error
        (ExactMatchTable.errorAt c.fields.length ": must specify 'offset' or 'attr_name'"))

/-- The loop of `Init`. -/
def addFields (c : Config) : List (Field × FieldData) → Option (Except Error Config)
  | [] => some (.ok c)
  | (field, mask) :: rest =>
    match addFieldOne registered c field mask with
    | none => none
    | some (.error e) => some (.error e)
    | some (.ok c) => addFields c rest

/-- The masks that the loop of `Init` uses. -/
def usedMasks (fields : List Field) (masks : List FieldData) : List FieldData :=
  if masks = [] then fields.map fun _ => .notSet else masks

def init (fields : List Field) (masks : List FieldData) : Option (Except Error Config) :=
  if fields.length ≠ masks.length ∧ masks ≠ [] then
    some (.error (einval, "must provide masks for all fields (or no masks for default match on " ++
      "all bits on all fields)"))
  else addFields registered ⟨[], [], masks.isEmpty⟩ (fields.zip (usedMasks fields masks))

end Init

/-! ## GetInitialArg -/

/-- The bytes of a mask in memory. -/
def TableField.maskBytes (f : TableField) : List Byte := (List.range f.size).map (byteAt f.mask)

def exportField (attrs : List (String × Nat)) (f : TableField) : Field where
  position := match f.attr with
    | some id => .attrName (attrs.getD id ("", 0)).1
    | none => .offset f.offset
  numBytes := f.size

def getInitialArg (c : Config) : List Field × List FieldData :=
  (c.fields.map (exportField c.attrs),
    if c.emptyMasks then [] else c.fields.map fun f => .valueBin f.maskBytes)

/-- The mask of an imported field, if no masks are exported (`e`) or if its bytes are. -/
def exportMask (e : Bool) (f : TableField) : FieldData := if e then .notSet else .valueBin f.maskBytes

/-- `Init` of another module can register the attributes. -/
def Compatible (registered : String → Option Nat) (c : Config) : Prop :=
  ∀ a ∈ c.attrs, ∀ s, registered a.1 = some s → s = a.2

/-- The mask of a field of the packet has the same bytes from both ends. -/
def Config.Symmetric (c : Config) : Prop :=
  c.emptyMasks = false → ∀ f ∈ c.fields, f.attr = none → leNat f.maskBytes.reverse = f.mask

/-- The key of a packet; `b` gives for each field the bytes from its start on. -/
def Config.makeKey (c : Config) (b : TableField → Mem) (stale : Mem) : Mem :=
  writeAll ((zeroLast 0 c.totalKeySize).apply stale)
    (fieldWrites TableField.pos (fun _ => 8) (fun f => byteAt (load (b f) 0 8 &&& f.mask)) c.fields)

/-! ## What one field adds -/

section Steps

variable {registered : String → Option Nat} {c c' : Config} {f : TableField}
  {name : String} {offset size : Int} {mask : BitVec 64} {attrs : List (String × Nat)}

def Config.push (c : Config) (f : TableField) (attrs : List (String × Nat)) : Config :=
  { c with fields := c.fields ++ [f], attrs := attrs }

theorem doAddField_ok (h : doAddField registered c name offset size mask = .ok c') :
    ∃ f attrs, c' = c.push f attrs ∧ c.fields.length < maxFields ∧ f.pos = c.rawKeySize ∧
      place registered c name offset f.size = .ok (f.attr, f.offset, attrs) ∧
      fieldMask mask f.size f.attr.isNone = some f.mask := by
  unfold doAddField at h
  simp only at h
  split at h
  · cases h
  split at h
  · cases h
  split at h
  · cases h
  split at h
  · split at h
    · cases h
    · rename_i hlen _ _ _ _ _ hplace _ hmask _
      cases h
      exact ⟨_, _, rfl, Nat.lt_of_not_le hlen, rfl, hplace, hmask⟩
  · cases h

theorem doAddField_of (hlen : c.fields.length < maxFields) (hpos : f.pos = c.rawKeySize)
    (hplace : place registered c name offset f.size = .ok (f.attr, f.offset, attrs))
    (hmask : fieldMask mask f.size f.attr.isNone = some f.mask) :
    doAddField registered c name offset f.size mask = .ok (c.push f attrs) := by
  obtain ⟨m, attr, off, pos, size, size_pos, size_le, mask_lt, mask_ne⟩ := f
  simp only at *
  subst hpos
  have hsize : ¬ ((size : Int) < 1 ∨ (maxFieldSize : Int) < size) := by omega
  unfold doAddField
  simp only [if_neg (Nat.not_le.mpr hlen), dif_neg hsize, Int.toNat_natCast, hplace]
  split
  · rename_i m' hm'
    cases hmask.symm.trans hm'
    rw [dif_neg mask_ne]
    rfl
  · rename_i hnone
    rw [hmask] at hnone
    cases hnone

theorem addMetadataAttr_ok (registered' : String → Option Nat) {size : Nat}
    {attrs' : List (String × Nat)}
    (h : addMetadataAttr registered attrs name size = .ok attrs') :
    attrs' = attrs ++ [(name, size)] ∧ ((∀ s, registered' name = some s → s = size) →
      addMetadataAttr registered' attrs name size = .ok attrs') := by
  unfold addMetadataAttr at h ⊢
  split at h
  · cases h
  split at h
  · cases h
  split at h
  · cases h
  split at h
  · cases h
  split at h
  · cases h
  rename_i h1 h2 h3 h4 _
  cases h
  refine ⟨rfl, fun hreg => ?_⟩
  rw [if_neg h1, if_neg h2, if_neg h3, if_neg h4, if_neg]
  cases hname : registered' name with
  | none => simp
  | some s => simp [hreg s hname]

/-- A field is placed again at the same place by its export. -/
theorem place_ok (registered' : String → Option Nat) {size : Nat} {attr : Option Nat} {off : Int}
    (h : place registered c name offset size = .ok (attr, off, attrs)) :
    (attr = none ∧ attrs = c.attrs ∧
      ∀ d : Config, d.attrs = c.attrs → place registered' d "" off size = .ok (attr, off, attrs)) ∨
    (attr = some c.attrs.length ∧ attrs = c.attrs ++ [(name, size)] ∧
      ∀ d : Config, d.attrs = c.attrs → (∀ s, registered' name = some s → s = size) →
        place registered' d name 0 size = .ok (attr, off, attrs)) := by
  unfold place at h
  simp only at h
  split at h
  · rename_i hname
    split at h
    · cases h
    · rename_i hadd
      cases h
      obtain ⟨hattrs, hagain⟩ := addMetadataAttr_ok registered' hadd
      refine .inr ⟨rfl, hattrs, fun d hd hreg => ?_⟩
      simp only [place, if_pos hname, hd, hagain hreg]
  · split at h
    · cases h
    · rename_i hoff
      cases h
      refine .inl ⟨rfl, rfl, fun d hd => ?_⟩
      simp only [place, ne_eq, not_true_eq_false, if_false, if_neg hoff, hd]

/-! ## Masks that come back -/

theorem length_maskBytes (f : TableField) : f.maskBytes.length = f.size := by simp [TableField.maskBytes]

theorem leNat_maskBytes (f : TableField) : leNat f.maskBytes = f.mask := by
  refine byteAt_ext ?_ f.mask_lt fun k hk => byteAt_leNat_map _ hk
  exact (leNat_lt _).trans_eq (by rw [length_maskBytes])

theorem leNat_eq_zero_iff {bs : List Byte} : leNat bs = 0 ↔ ∀ b ∈ bs, b = 0 := by
  induction bs with
  | nil => simp [leNat]
  | cons b bs ih =>
    have hb : b.toNat = 0 ↔ b = 0 := ⟨fun h => BitVec.eq_of_toNat_eq h, fun h => by rw [h]; rfl⟩
    rw [leNat, Nat.add_eq_zero_iff, List.forall_mem_cons, ← ih, hb]
    simp

/-- The field that comes from the export of a field. -/
def TableField.remask (e : Bool) (f : TableField) : TableField :=
  { f with
    mask := if e = false ∧ f.attr = none then leNat f.maskBytes.reverse else f.mask
    mask_lt := by
      split
      · exact (leNat_lt _).trans_eq (by rw [List.length_reverse, length_maskBytes])
      · exact f.mask_lt
    mask_ne := by
      split
      · have hne := f.mask_ne
        rw [← leNat_maskBytes, Ne, leNat_eq_zero_iff] at hne
        rw [Ne, leNat_eq_zero_iff]
        simpa using hne
      · exact f.mask_ne }

theorem remask_eq_iff {e : Bool} : f.remask e = f ↔
    (e = false → f.attr = none → leNat f.maskBytes.reverse = f.mask) := by
  have hmask : f.remask e = f ↔ (f.remask e).mask = f.mask := by
    refine ⟨congrArg TableField.mask, fun h => ?_⟩
    obtain ⟨m, attr, off, pos, size, h1, h2, h3, h4⟩ := f
    simp only [TableField.remask, TableField.mk.injEq, and_self, and_true] at h ⊢
    exact h
  rw [hmask, ← and_imp]
  by_cases hc : e = false ∧ f.attr = none
  · simp [TableField.remask, hc]
  · simp [TableField.remask, hc]

def Config.remask (c : Config) : Config := { c with fields := c.fields.map (TableField.remask c.emptyMasks) }

/-- The mask is read back from its other end for a field of the packet. -/
theorem fieldMask_export {e : Bool} {mask : FieldData} {mask64 : BitVec 64}
    (hmask64 : ExactMatch.mask64 mask = some mask64)
    (hmask : fieldMask mask64 f.size f.attr.isNone = some f.mask) (he : e = true → mask = .notSet) :
    ∃ v, ExactMatch.mask64 (exportMask e f) = some v ∧
      fieldMask v f.size f.attr.isNone = some (f.remask e).mask := by
  cases e with
  | true =>
    cases he rfl
    refine ⟨mask64, hmask64, ?_⟩
    simpa [TableField.remask] using hmask
  | false =>
    have hsize : f.size ≤ 8 := f.size_le
    have hlt : f.mask < 2 ^ 64 := f.mask_lt.trans_le (Nat.pow_le_pow_right (by decide) hsize)
    have hnat : (BitVec.ofNat 64 f.mask).toNat = f.mask := Nat.mod_eq_of_lt hlt
    refine ⟨BitVec.ofNat 64 f.mask, ?_, ?_⟩
    · simp [exportMask, ExactMatch.mask64, length_maskBytes, hsize, leNat_maskBytes]
    · have hne : BitVec.ofNat 64 f.mask ≠ 0 := fun h => f.mask_ne (by rw [← hnat, h]; rfl)
      rw [fieldMask, if_neg hne, uint64ToBin]
      simp only [hnat, Nat.div_eq_of_lt f.mask_lt, ne_eq, not_true_eq_false, if_false]
      cases hattr : f.attr with
      | none => simp [TableField.remask, hattr, TableField.maskBytes]
      | some id => simpa [TableField.remask, hattr, TableField.maskBytes] using leNat_maskBytes f

theorem total_remask (c : Config) : c.remask.rawKeySize = c.rawKeySize := by
  rw [Config.rawKeySize, Config.remask, total_map]
  rfl

/-- One field: it is added, and its export is added to the exported fields before it. -/
theorem addFieldOne_ok (registered' : String → Option Nat) {field : Field} {mask : FieldData}
    (h : addFieldOne registered c field mask = some (.ok c'))
    (he : c.emptyMasks = true → mask = .notSet) :
    ∃ f attrs more, c' = c.push f attrs ∧ attrs = c.attrs ++ more ∧ c.fields.length < maxFields ∧
      f.pos = c.rawKeySize ∧ (∀ id, f.attr = some id → id < attrs.length) ∧
      (Compatible registered' c' → addFieldOne registered' c.remask (exportField attrs f)
        (exportMask c.emptyMasks f) = some (.ok c'.remask)) := by
  unfold addFieldOne at h
  split at h
  · cases h
  rename_i mask64 hmask64
  obtain ⟨name, offset, hadd⟩ : ∃ name offset,
      doAddField registered c name offset field.numBytes mask64 = .ok c' := by
    split at h
    · exact ⟨_, _, Option.some.inj h⟩
    · exact ⟨_, _, Option.some.inj h⟩
    · cases h
  obtain ⟨f, attrs, rfl, hlen, hpos, hplace, hmask⟩ := doAddField_ok hadd
  obtain ⟨v, hv, hvmask⟩ := fieldMask_export hmask64 hmask he
  have hlen' : c.remask.fields.length < maxFields := by simpa [Config.remask] using hlen
  have hpos' : (f.remask c.emptyMasks).pos = c.remask.rawKeySize := hpos.trans (total_remask c).symm
  have hpush : (c.push f attrs).remask = c.remask.push (f.remask c.emptyMasks) attrs := by
    simp [Config.push, Config.remask]
  rcases place_ok registered' hplace with ⟨hattr, rfl, hagain⟩ | ⟨hattr, rfl, hagain⟩
  · refine ⟨f, _, [], rfl, (List.append_nil _).symm, hlen, hpos, ?_, fun _ => ?_⟩
    · rw [hattr]
      simp
    · have hdo := doAddField_of (f := f.remask c.emptyMasks) hlen' hpos'
        (hagain c.remask rfl) hvmask
      rw [hpush]
      simp only [addFieldOne, hv, exportField, hattr]
      exact congrArg some hdo
  · refine ⟨f, _, [(name, f.size)], rfl, rfl, hlen, hpos, ?_, fun hcompat => ?_⟩
    · rw [hattr]
      simp
    · have hreg := hcompat (name, f.size) (List.mem_append_right _ (List.mem_singleton_self _))
      have hdo := doAddField_of (f := f.remask c.emptyMasks) hlen' hpos'
        (hagain c.remask rfl hreg) hvmask
      rw [hpush]
      simp only [addFieldOne, hv, exportField, hattr, List.getD_eq_getElem?_getD,
        List.getElem?_concat_length, Option.getD_some]
      exact congrArg some hdo

/-! ## A whole argument -/

/-- The fields and masks that `Init` gets from the exported argument. -/
def exported (c : Config) : List (Field × FieldData) :=
  c.fields.map fun f => (exportField c.attrs f, exportMask c.emptyMasks f)

/-- What `Init` has built, for a second `Init` with these attributes registered. -/
structure Built (registered' : String → Option Nat) (c : Config) : Prop where
  packed : Packed TableField.pos TableField.size 0 c.fields
  length_le : c.fields.length ≤ maxFields
  ids : ∀ f ∈ c.fields, ∀ id, f.attr = some id → id < c.attrs.length
  again : Compatible registered' c →
    addFields registered' ⟨[], [], c.emptyMasks⟩ (exported c) = some (.ok c.remask)

theorem addFields_append (c : Config) (l l' : List (Field × FieldData)) {d : Config}
    (h : addFields registered c l = some (.ok d)) :
    addFields registered c (l ++ l') = addFields registered d l' := by
  induction l generalizing c with
  | nil =>
    cases h
    rfl
  | cons a l ih =>
    rw [List.cons_append, addFields]
    rw [addFields] at h
    split at h
    · cases h
    · cases h
    · exact ih _ h

theorem Built.step {registered' : String → Option Nat} (h : Built registered' c) {field : Field}
    {mask : FieldData} (hadd : addFieldOne registered c field mask = some (.ok c'))
    (he : c.emptyMasks = true → mask = .notSet) :
    Built registered' c' ∧ c'.emptyMasks = c.emptyMasks ∧
      c'.fields.length = c.fields.length + 1 := by
  obtain ⟨f, attrs, more, rfl, hattrs, hlen, hpos, hid, hagain⟩ := addFieldOne_ok registered' hadd he
  have hold : ∀ g ∈ c.fields, exportField attrs g = exportField c.attrs g := by
    intro g hg
    unfold exportField
    cases hattr : g.attr with
    | none => rfl
    | some id =>
      have hlt := h.ids g hg id hattr
      simp only [hattrs, List.getD_eq_getElem?_getD, List.getElem?_append_left hlt]
  have hexp : exported (c.push f attrs) =
      exported c ++ [(exportField attrs f, exportMask c.emptyMasks f)] := by
    unfold exported Config.push
    rw [List.map_append, List.map_singleton]
    congr 1
    exact List.map_congr_left fun g hg => by rw [hold g hg]
  have hle : c.attrs.length ≤ attrs.length := by
    rw [hattrs, List.length_append]
    omega
  refine ⟨⟨?_, ?_, ?_, fun hcompat => ?_⟩, rfl, by simp [Config.push]⟩
  · exact packed_append.mpr ⟨h.packed, by rw [Nat.zero_add]; exact hpos, trivial⟩
  · simp only [Config.push, List.length_append, List.length_singleton]
    exact hlen
  · intro g hg id hattr
    rcases List.mem_append.mp hg with hg | hg
    · exact (h.ids g hg id hattr).trans_le hle
    · cases List.mem_singleton.mp hg
      exact hid id hattr
  · have hcompat' : Compatible registered' c := fun a ha => hcompat a (by
      simp only [Config.push, hattrs]
      exact List.mem_append_left _ ha)
    rw [hexp]
    refine (addFields_append _ _ _ (h.again hcompat')).trans ?_
    rw [addFields, hagain hcompat]
    rfl

theorem Built.addFields {registered' : String → Option Nat} {l : List (Field × FieldData)}
    (h : Built registered' c) (hadd : addFields registered c l = some (.ok c'))
    (he : c.emptyMasks = true → ∀ a ∈ l, a.2 = .notSet) :
    Built registered' c' ∧ c'.emptyMasks = c.emptyMasks ∧
      c'.fields.length = c.fields.length + l.length := by
  induction l generalizing c with
  | nil =>
    cases hadd
    exact ⟨h, rfl, rfl⟩
  | cons a l ih =>
    rw [ExactMatchInit.addFields] at hadd
    split at hadd
    · cases hadd
    · cases hadd
    · rename_i c₁ hone
      obtain ⟨h₁, he₁, hlen₁⟩ := h.step hone fun e => he e a List.mem_cons_self
      obtain ⟨h₂, he₂, hlen₂⟩ := ih h₁ hadd fun e b hb => he (he₁ ▸ e) b (List.mem_cons_of_mem _ hb)
      refine ⟨h₂, he₂.trans he₁, ?_⟩
      rw [hlen₂, hlen₁, List.length_cons]
      omega

theorem built_init (registered' : String → Option Nat) {fields : List Field} {masks : List FieldData}
    (h : init registered fields masks = some (.ok c)) :
    Built registered' c ∧ c.emptyMasks = masks.isEmpty ∧ c.fields.length = fields.length := by
  unfold init at h
  split at h
  · cases h
  · rename_i hlen
    have hnil : Built registered' ⟨[], [], masks.isEmpty⟩ :=
      ⟨trivial, Nat.zero_le _, fun f hf => absurd hf List.not_mem_nil, fun _ => rfl⟩
    obtain ⟨hb, he, hl⟩ := hnil.addFields h (fun hempty a ha => by
      have ha := (List.of_mem_zip ha).2
      rw [usedMasks, if_pos (List.isEmpty_iff.mp hempty)] at ha
      obtain ⟨_, _, h⟩ := List.mem_map.mp ha
      exact h.symm)
    refine ⟨hb, he, hl.trans ?_⟩
    rw [List.length_zip, usedMasks]
    split
    · simp
    · rename_i hne
      have : fields.length = masks.length := by
        by_contra hc
        exact hlen ⟨hc, hne⟩
      simp [this]

/-- `Init` accepts the exported argument. -/
theorem reinit {registered' : String → Option Nat} {fields : List Field} {masks : List FieldData}
    (h : init registered fields masks = some (.ok c)) (hreg : Compatible registered' c) :
    init registered' (getInitialArg c).1 (getInitialArg c).2 = some (.ok c.remask) := by
  obtain ⟨hb, he, hlen⟩ := built_init registered' h
  rw [← hb.again hreg]
  unfold init getInitialArg
  cases hempty : c.emptyMasks with
  | true =>
    simp [usedMasks, exported, exportMask, hempty, List.zip_map']
  | false =>
    have hne : c.fields ≠ [] := by
      intro hnil
      have hmasks : masks = [] := by
        unfold init at h
        split at h
        · cases h
        · rename_i hl
          by_contra hc
          rw [hnil, List.length_nil] at hlen
          refine hl ⟨fun hc' => hc (List.length_eq_zero_iff.mp ?_), hc⟩
          omega
      rw [hempty, hmasks] at he
      cases he
    have hfalse : c.fields.isEmpty = false := by simpa using hne
    simp [usedMasks, exported, exportMask, hempty, List.zip_map', hne, hfalse]

end Steps

/-- For every module that `Init` accepted, and a fresh one for which its attributes can be registered:
`Init` with the exported argument succeeds and gives the same fields, so that the keys of all packets
are the same, iff no masks were given or the masks of the fields of the packet are the same from both
ends. -/
theorem initial_arg_round_trip_iff {registered registered' : String → Option Nat} {c : Config}
    {fields : List Field} {masks : List FieldData} (h : init registered fields masks = some (.ok c))
    (hreg : Compatible registered' c) :
    (∃ c', init registered' (getInitialArg c).1 (getInitialArg c).2 = some (.ok c') ∧
      c'.fields = c.fields ∧ ∀ b stale, c'.makeKey b stale = c.makeKey b stale) ↔ c.Symmetric := by
  rw [reinit h hreg]
  constructor
  · rintro ⟨c', hc', hfields, -⟩ hempty f hf hattr
    cases hc'
    have hsame := List.map_inj_left.mp (hfields.trans (List.map_id _).symm) f hf
    exact remask_eq_iff.mp hsame hempty hattr
  · intro hsym
    have hfields : c.remask.fields = c.fields := by
      refine (List.map_congr_left fun f hf => ?_).trans (List.map_id _)
      exact remask_eq_iff.mpr fun hempty => hsym hempty f hf
    refine ⟨_, rfl, hfields, fun b stale => ?_⟩
    rw [Config.makeKey, Config.makeKey, hfields, Config.totalKeySize, total_remask]
    rfl

/-- Two bytes at the start of the packet. -/
def twoBytes : List Field := [⟨.offset 0, 2⟩]

/-- The masks of the fields, after `Init` and after `Init` with what is exported then. -/
def maskTrip (masks : List FieldData) : Option (List Nat × Option (List Nat)) :=
  ((init (fun _ => none) twoBytes masks).bind Except.toOption).map fun c =>
    (c.fields.map TableField.mask,
      ((init (fun _ => none) (getInitialArg c).1 (getInitialArg c).2).bind Except.toOption).map
        fun c' => c'.fields.map TableField.mask)

theorem full_mask_returns : ∃ c c', init (fun _ => none) twoBytes [.valueInt 0xFFFF] = some (.ok c) ∧
    init (fun _ => none) (getInitialArg c).1 (getInitialArg c).2 = some (.ok c') ∧
    c'.fields = c.fields := by
  obtain ⟨c, hc⟩ : ∃ c, init (fun _ => none) twoBytes [.valueInt 0xFFFF] = some (.ok c) := ⟨_, rfl⟩
  have hsym : c.Symmetric := by
    cases hc
    intro _ f hf _
    cases List.mem_singleton.mp hf
    rfl
  have hreg : Compatible (fun _ => none) c := fun a _ s hs => by cases hs
  obtain ⟨c', hinit, hfields, -⟩ := (initial_arg_round_trip_iff hc hreg).mpr hsym
  exact ⟨c, c', hc, hinit, hfields⟩

/-- The mask for the first byte of a field comes back for the second one. -/
theorem first_byte_mask_reversed :
    maskTrip [.valueInt 0xFF00] = some ([0x00FF], some [0xFF00]) := by
  decide +kernel

/-! ## Array accesses

The accesses of `Init`, of the commands and of a batch, in the order of the source and up to the
first one that overruns a variable. -/

/-- The elements from `start` on, of an array. -/
structure Access where
  start : Nat
  count : Nat
  size : Nat

def Access.InRange (a : Access) : Prop := a.start + a.count ≤ a.size

instance (a : Access) : Decidable a.InRange := inferInstanceAs (Decidable (_ ≤ _))

/-- `fields_[i]` -/
def fieldAccess (i : Nat) : Access := ⟨i, 1, maxFields⟩

/-- The copy of a byte string into `mask64`. -/
def maskAccesses : FieldData → List Access
  | .valueBin bs => [⟨0, bs.length, 8⟩]
  | _ => []

def addFieldAccesses (c : Config) (field : Field) (mask : FieldData) : List Access :=
  maskAccesses mask ++ match field.position with
    | .notSet => []
    | _ => if maxFields ≤ c.fields.length then [] else [fieldAccess c.fields.length]

def addFieldsAccesses (registered : String → Option Nat) (c : Config) :
    List (Field × FieldData) → List Access
  | [] => []
  | (field, mask) :: rest => addFieldAccesses c field mask ++
    match addFieldOne registered c field mask with
    | some (.ok c) => addFieldsAccesses registered c rest
    | _ => []

def initAccesses (registered : String → Option Nat) (fields : List Field) (masks : List FieldData) :
    List Access :=
  if fields.length ≠ masks.length ∧ masks ≠ [] then []
  else addFieldsAccesses registered ⟨[], [], masks.isEmpty⟩ (fields.zip (usedMasks fields masks))

/-- The loop of `gather_key`: the field, and the copy of a value of the right size into the key. -/
def gatherAccesses (i : Nat) : List TableField → ExactMatchTable.RuleFields → List Access
  | f :: fs, v :: vs => fieldAccess i ::
    if f.size ≠ v.length then [] else ⟨f.pos, f.size, hashKeySize⟩ :: gatherAccesses (i + 1) fs vs
  | _, _ => []

/-- `get_field(i).size`, which is zero behind the fields of the table. -/
def Config.fieldSize (c : Config) (i : Nat) : Nat := ((c.fields[i]?).map TableField.size).getD 0

/-- `RuleFieldsFromPb` and `gather_key`. -/
def ruleAccesses (c : Config) (fields : List FieldData) : List Access :=
  let rule := fields.zipIdx.map fun p => ExactMatch.ruleField (c.fieldSize p.2) p.1
  (List.range fields.length).map fieldAccess ++
    if rule.length ≠ c.fields.length then [] else gatherAccesses 0 c.fields rule

def commandAddAccesses (c : Config) (arg : RuleArg) : List Access :=
  if isValidGate arg.gateIdx = false then [] else ruleAccesses c arg.fields

/-- `(total_key_size_ - 1) / 8` in 64 bits. -/
def Config.lastWord (c : Config) : Nat := (c.totalKeySize + (2 ^ 64 - 1)) % 2 ^ 64 / 8

/-- `MakeKeys` for `n` packets: the keys and their last words, then the fields. -/
def batchAccesses (c : Config) (n : Nat) : List Access :=
  (List.range n).flatMap (fun j => [⟨j, 1, maxBurst⟩, ⟨c.lastWord, 1, maxFields⟩]) ++
    c.fields.zipIdx.flatMap fun p => fieldAccess p.2 ::
      (List.range n).flatMap fun j => [⟨j, 1, maxBurst⟩, ⟨p.1.pos, 8, hashKeySize⟩]

def InRange (l : List Access) : Prop := ∀ a ∈ l, a.InRange

instance (l : List Access) : Decidable (InRange l) := inferInstanceAs (Decidable (∀ a ∈ l, _))

/-- Each byte string that `Init` gets to has at most eight bytes. -/
def MasksFit (registered : String → Option Nat) (c : Config) : List (Field × FieldData) → Prop
  | [] => True
  | (field, mask) :: rest => mask.byteLength ≤ 8 ∧
    ∀ c', addFieldOne registered c field mask = some (.ok c') → MasksFit registered c' rest

section Accesses

variable {registered : String → Option Nat} {c : Config}

theorem inRange_append {l l' : List Access} : InRange (l ++ l') ↔ InRange l ∧ InRange l' := by
  simp [InRange, or_imp, forall_and]

theorem inRange_addField (c : Config) (field : Field) (mask : FieldData) :
    InRange (addFieldAccesses c field mask) ↔ mask.byteLength ≤ 8 := by
  have hmask : InRange (maskAccesses mask) ↔ mask.byteLength ≤ 8 := by
    cases mask <;> simp [InRange, maskAccesses, Access.InRange, FieldData.byteLength]
  rw [addFieldAccesses, inRange_append, hmask, and_iff_left]
  intro a ha
  split at ha
  · cases ha
  · split at ha
    · cases ha
    · cases List.mem_singleton.mp ha
      simp only [Access.InRange, fieldAccess]
      omega

theorem inRange_addFields (l : List (Field × FieldData)) :
    InRange (addFieldsAccesses registered c l) ↔ MasksFit registered c l := by
  induction l generalizing c with
  | nil => simp [addFieldsAccesses, MasksFit, InRange]
  | cons a l ih =>
    rw [addFieldsAccesses, MasksFit, inRange_append, inRange_addField]
    refine and_congr_right fun _ => ?_
    split
    · rename_i c' hone
      rw [ih, hone]
      simp
    · rename_i hone
      refine iff_of_true (fun a ha => by cases ha) fun c' hc' => absurd hc' (hone c')

theorem inRange_gather {i : Nat} {fs : List TableField} {rule : ExactMatchTable.RuleFields}
    (hlen : i + fs.length ≤ maxFields) (hpos : ∀ f ∈ fs, f.pos + f.size ≤ hashKeySize) :
    InRange (gatherAccesses i fs rule) := by
  induction fs generalizing i rule with
  | nil => intro a ha; cases rule <;> cases ha
  | cons f fs ih =>
    rcases rule with _ | ⟨v, vs⟩
    · intro a ha
      cases ha
    rw [List.length_cons] at hlen
    obtain ⟨hf, hfs⟩ := List.forall_mem_cons.mp hpos
    intro a ha
    rw [gatherAccesses] at ha
    rcases List.mem_cons.mp ha with rfl | ha
    · simp only [Access.InRange, fieldAccess]
      omega
    · split at ha
      · cases ha
      · rcases List.mem_cons.mp ha with rfl | ha
        · exact hf
        · exact ih (by omega) hfs a ha

theorem inRange_rule {registered' : String → Option Nat} (h : Built registered' c)
    (fields : List FieldData) : InRange (ruleAccesses c fields) ↔ fields.length ≤ maxFields := by
  have hwindow : ∀ f ∈ c.fields, f.pos + f.size ≤ hashKeySize := fun f hf => by
    have hw := window_le h.packed (fun g _ => g.size_le) h.length_le hf
    have hs : f.size ≤ 8 := f.size_le
    omega
  have hget : InRange ((List.range fields.length).map fieldAccess) ↔ fields.length ≤ maxFields := by
    simp only [InRange, List.forall_mem_map, List.mem_range, Access.InRange, fieldAccess]
    exact ⟨fun hall => Nat.le_of_not_lt fun hlt => absurd (hall maxFields hlt) (by omega),
      fun hle i hi => by omega⟩
  rw [ruleAccesses, inRange_append, hget, and_iff_left]
  split
  · intro a ha
    cases ha
  · exact inRange_gather (by simpa using h.length_le) hwindow

theorem inRange_batch {registered' : String → Option Nat} (h : Built registered' c) {n : Nat}
    (hn : n ≤ maxBurst) : InRange (batchAccesses c n) ↔ n = 0 ∨ c.fields ≠ [] := by
  have hword : c.lastWord < maxFields ↔ c.fields ≠ [] := by
    have htotal : total TableField.size c.fields ≤ c.fields.length * maxFieldSize :=
      total_le fun f _ => f.size_le
    have hlen := h.length_le
    unfold Config.lastWord Config.totalKeySize Config.rawKeySize alignCeil
    simp only [maxFields, maxFieldSize] at *
    constructor
    · rintro hlt hnil
      rw [hnil] at hlt
      simp [total] at hlt
    · intro hne
      obtain ⟨f, fs, hfs⟩ := List.exists_cons_of_ne_nil hne
      have hpos := f.size_pos
      have hcons : total TableField.size c.fields = f.size + total TableField.size fs := by
        rw [hfs, total_cons]
      omega
  have hfields : InRange (c.fields.zipIdx.flatMap fun p => fieldAccess p.2 ::
      (List.range n).flatMap fun j => [⟨j, 1, maxBurst⟩, ⟨p.1.pos, 8, hashKeySize⟩]) := by
    intro a ha
    obtain ⟨⟨f, i⟩, hp, ha⟩ := List.mem_flatMap.mp ha
    have hget := List.mem_zipIdx_iff_getElem?.mp hp
    have hi := (List.getElem?_eq_some_iff.mp hget).1
    rcases List.mem_cons.mp ha with rfl | ha
    · exact Nat.lt_of_lt_of_le hi h.length_le
    · obtain ⟨j, hj, ha⟩ := List.mem_flatMap.mp ha
      have hj := List.mem_range.mp hj
      simp only [List.mem_cons, List.not_mem_nil, or_false] at ha
      rcases ha with rfl | rfl
      · exact hj.trans_le hn
      · exact window_le h.packed (fun g _ => g.size_le) h.length_le (List.mem_of_getElem? hget)
  rw [batchAccesses, inRange_append, and_iff_left hfields]
  constructor
  · intro hall
    rcases Nat.eq_zero_or_pos n with h0 | hpos
    · exact .inl h0
    · refine .inr (hword.mp (hall ⟨c.lastWord, 1, maxFields⟩ ?_))
      exact List.mem_flatMap.mpr ⟨0, List.mem_range.mpr hpos, by simp⟩
  · intro hcond a ha
    obtain ⟨j, hj, ha⟩ := List.mem_flatMap.mp ha
    have hj := List.mem_range.mp hj
    simp only [List.mem_cons, List.not_mem_nil, or_false] at ha
    rcases ha with rfl | rfl
    · exact hj.trans_le hn
    · exact hword.mpr (hcond.resolve_left (by omega))

end Accesses

/-- For every argument of `Init`, and for every module that it accepted, every command and every
batch: all accesses are in range iff the byte strings among the masks have at most eight bytes, as
far as `Init` gets; iff a rule with a valid gate, or one to be deleted, has at most `MAX_FIELDS`
fields; and iff the batch is empty or the module has fields. -/
theorem accesses_in_range_iff (registered : String → Option Nat) (fields : List Field)
    (masks : List FieldData) :
    (InRange (initAccesses registered fields masks) ↔
      (fields.length = masks.length ∨ masks = [] →
        MasksFit registered ⟨[], [], masks.isEmpty⟩ (fields.zip (usedMasks fields masks)))) ∧
    ∀ c, init registered fields masks = some (.ok c) →
      (∀ arg, InRange (commandAddAccesses c arg) ↔
        (isValidGate arg.gateIdx = true → arg.fields.length ≤ maxFields)) ∧
      (∀ rule, InRange (ruleAccesses c rule) ↔ rule.length ≤ maxFields) ∧
      ∀ n, n ≤ maxBurst → (InRange (batchAccesses c n) ↔ n = 0 ∨ c.fields ≠ []) := by
  refine ⟨?_, fun c hc => ?_⟩
  · unfold initAccesses
    split
    · rename_i hlen
      refine iff_of_true (fun a ha => by cases ha) fun hor => ?_
      rcases hor with h | h
      · exact absurd h hlen.1
      · exact absurd h hlen.2
    · rename_i hlen
      rw [inRange_addFields]
      exact ⟨fun h _ => h, fun h => h (by
        by_contra hc
        exact hlen ⟨fun h => hc (.inl h), fun h => hc (.inr h)⟩)⟩
  · obtain ⟨hb, -, -⟩ := built_init (fun _ => none) hc
    refine ⟨fun arg => ?_, inRange_rule hb, fun n hn => inRange_batch hb hn⟩
    unfold commandAddAccesses
    split
    · rename_i hgate
      exact iff_of_true (fun a ha => by cases ha) fun h => by rw [hgate] at h; cases h
    · rename_i hgate
      rw [inRange_rule hb]
      exact ⟨fun h _ => h, fun h => h (by simpa using hgate)⟩

theorem twoBytes_in_range : ∃ c, init (fun _ => none) twoBytes [] = some (.ok c) ∧
    InRange (batchAccesses c 32) := by
  obtain ⟨c, hc⟩ : ∃ c, init (fun _ => none) twoBytes [] = some (.ok c) := ⟨_, rfl⟩
  have hne : c.fields ≠ [] := by
    cases hc
    exact List.cons_ne_nil _ _
  obtain ⟨-, -, hbatch⟩ := (accesses_in_range_iff (fun _ => none) twoBytes []).2 c hc
  exact ⟨c, hc, (hbatch 32 (by decide)).mpr (.inr hne)⟩

/-- A mask of nine bytes; a rule of nine fields for a module of one; and a packet for a module without
fields, where the index of the last word is the largest one there is. -/
theorem accesses_out_of_range :
    ¬ InRange (initAccesses (fun _ => none) twoBytes [.valueBin (List.replicate 9 0)]) ∧
    ((init (fun _ => none) twoBytes []).bind Except.toOption).map (fun c =>
      decide (InRange (ruleAccesses c (List.replicate 9 (.valueInt 0))))) = some false ∧
    ((init (fun _ => none) [] []).bind Except.toOption).map (fun c =>
      (c.lastWord, decide (InRange (batchAccesses c 1)))) = some (2 ^ 61 - 1, false) := by
  decide +kernel

end Bess.Match.ExactMatchInit
