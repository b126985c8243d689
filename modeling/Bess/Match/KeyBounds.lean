import Bess.Match.WildcardGates

/-!
# The buffers of WildcardMatch and GenericEncap

Both modules put a field at the sum of the sizes before it, and write eight bytes there, into buffers
of 64 bytes. Neither `Init` looks at the number of fields or at the sum of their sizes.
-/

namespace Bess.Match

open Bess.ByteMem Bess.Packing

/-- Fields of at most eight bytes: eight of them leave room for a copy of eight bytes at each. -/
theorem window_le {F : Type} {pos size : F → Nat} {fs : List F} (hp : Packed pos size 0 fs)
    (hsize : ∀ f ∈ fs, size f ≤ maxFieldSize) (hlen : fs.length ≤ maxFields) {f : F} (hf : f ∈ fs) :
    pos f + 8 ≤ hashKeySize := by
  obtain ⟨pre, post, rfl⟩ := List.append_of_mem hf
  have hpos : pos f = 0 + total size pre := (packed_append.mp hp).2.1
  have htotal : total size pre ≤ pre.length * maxFieldSize :=
    total_le fun g hg => hsize g (List.mem_append_left _ hg)
  simp only [List.length_append, List.length_cons, maxFields, maxFieldSize, hashKeySize] at *
  omega

/-- The last field has the last window. -/
theorem windows_iff {F : Type} {pos size : F → Nat} {fs : List F} (hp : Packed pos size 0 fs)
    (hne : fs ≠ []) (n : Nat) :
    (∀ f ∈ fs, pos f + 8 ≤ n) ↔ total size fs.dropLast + 8 ≤ n := by
  constructor
  · intro h
    have hsplit := List.dropLast_append_getLast hne
    have hpos : pos (fs.getLast hne) = 0 + total size fs.dropLast := by
      rw [← hsplit] at hp
      exact (packed_append.mp hp).2.1
    have := h _ (List.getLast_mem hne)
    omega
  · intro h f hf
    obtain ⟨pre, post, rfl⟩ := List.append_of_mem hf
    have hpos : pos f = 0 + total size pre := (packed_append.mp hp).2.1
    rw [List.dropLast_append_of_ne_nil (List.cons_ne_nil f post), total_append] at h
    omega

namespace Wildcard

variable {s : State} {args : List FieldArg}

/-- The word of a key that is cleared, `(total_key_size_ - 1) / 8` in 64 bits. -/
def State.paddingWord (s : State) : Nat := (s.totalKeySize + (2 ^ 64 - 1)) % 2 ^ 64 / 8

def FieldData.byteLength : FieldData → Nat
  | .valueBin bytes => bytes.length
  | _ => 0

/-- Nothing is written outside of the keys of a batch, nor, for rules given in at most `maxBytes` bytes
for each value and mask, outside of the variables that they are copied to. -/
structure State.WritesInside (s : State) (maxBytes : Nat) : Prop where
  windows : ∀ f ∈ s.fields, f.pos + 8 ≤ hashKeySize
  padding : s.paddingWord < maxFields
  batch : ∀ attrOffset pkts, ∀ w ∈ keyWrites attrOffset s pkts, ∃ j < pkts.length,
    hashKeySize * j ≤ w.start ∧ w.start + w.width ≤ hashKeySize * (j + 1)
  decode : ∀ values masks, (∀ d ∈ values ++ masks, d.byteLength ≤ maxBytes) →
    extractKeyMask s values masks ≠ none

/-- Where the last field starts. -/
def lastPos (args : List FieldArg) : Nat := (args.dropLast.map fun arg => arg.numBytes.toNat).sum

theorem addFieldOne_size {pos : Nat} {arg : FieldArg} {f : WmField}
    (h : addFieldOne pos arg = .ok f) : f.size = arg.numBytes.toNat := by
  unfold addFieldOne at h
  split at h
  · cases h
  simp only at h
  split at h
  · split at h <;> cases h
    rfl
  · split at h <;> cases h
    rfl
  · cases h

theorem sizes_addFieldsFrom {sizeAcc : Nat} {fs : List WmField}
    (h : addFieldsFrom sizeAcc args = .ok fs) :
    fs.map WmField.size = args.map fun arg => arg.numBytes.toNat := by
  induction args generalizing sizeAcc fs with
  | nil =>
    cases h
    rfl
  | cons arg args ih =>
    obtain ⟨f, fs', hf, hfs, rfl⟩ := addFieldsFrom_cons_inv h
    rw [List.map_cons, List.map_cons, addFieldOne_size hf, ih hfs]

theorem total_dropLast (h : init args = .ok s) :
    total WmField.size s.fields.dropLast = lastPos args := by
  have hsizes : s.fields.map WmField.size = args.map fun arg => arg.numBytes.toNat := by
    unfold init at h
    split at h
    · cases h
    · rename_i hf
      cases h
      exact sizes_addFieldsFrom hf
  rw [total, lastPos, List.map_dropLast, List.map_dropLast, hsizes]

theorem extract_ne_none {d : FieldData} {size : Nat} (h : d.byteLength ≤ 8) : d.extract size ≠ none := by
  cases d with
  | valueBin bs => simpa [FieldData.extract, FieldData.byteLength] using h
  | _ => simp [FieldData.extract]

theorem extractFrom_ne_none {i : Nat} {fs : List WmField} {values masks : List FieldData}
    (hv : ∀ d ∈ values, d.byteLength ≤ 8) (hm : ∀ d ∈ masks, d.byteLength ≤ 8) :
    extractFrom i fs values masks ≠ none := by
  induction fs generalizing i values masks with
  | nil => simp [extractFrom]
  | cons f fs ih =>
    rcases values with _ | ⟨v, values⟩
    · simp [extractFrom]
    rcases masks with _ | ⟨m, masks⟩
    · simp [extractFrom]
    obtain ⟨hv₀, hv⟩ := List.forall_mem_cons.mp hv
    obtain ⟨hm₀, hm⟩ := List.forall_mem_cons.mp hm
    have hrest := ih (i := i + 1) hv hm
    unfold extractFrom
    simp only
    split
    · rename_i hnone
      exact absurd hnone (extract_ne_none hv₀)
    · simp
    split
    · rename_i hnone
      exact absurd hnone (extract_ne_none hm₀)
    · simp
    split
    · simp
    split
    · rename_i hnone
      exact absurd hnone hrest
    all_goals simp

theorem decode_iff {maxBytes : Nat} (hne : s.fields ≠ []) :
    (∀ values masks, (∀ d ∈ values ++ masks, d.byteLength ≤ maxBytes) →
      extractKeyMask s values masks ≠ none) ↔ maxBytes ≤ 8 := by
  constructor
  · intro h
    by_contra hlong
    -- the first value has nine bytes
    obtain ⟨f, fs, hfs⟩ := List.exists_cons_of_ne_nil hne
    let data := List.replicate s.fields.length (FieldData.valueBin (List.replicate 9 0))
    refine h data data (fun d hd => ?_) ?_
    · have : d = .valueBin (List.replicate 9 0) := by
        rcases List.mem_append.mp hd with hd | hd <;> exact List.eq_of_mem_replicate hd
      simp only [this, FieldData.byteLength, List.length_replicate]
      omega
    · have hdata : data = .valueBin (List.replicate 9 0) ::
          List.replicate fs.length (.valueBin (List.replicate 9 0)) := by
        simp [data, hfs, List.replicate_succ]
      have hlen : data.length = s.fields.length := List.length_replicate ..
      rw [extractKeyMask, if_neg (not_not.mpr hlen), if_neg (not_not.mpr hlen), hfs, hdata, extractFrom]
      rfl
  · intro hle values masks hd
    unfold extractKeyMask
    split
    · simp
    split
    · simp
    · exact extractFrom_ne_none (fun d h => (hd d (List.mem_append_left _ h)).trans hle)
        fun d h => (hd d (List.mem_append_right _ h)).trans hle

theorem sizeAcc_le (hne : s.fields ≠ []) (hlast : total WmField.size s.fields.dropLast + 8 ≤ hashKeySize) :
    s.sizeAcc ≤ hashKeySize := by
  have hsize := (s.fields.getLast hne).size_le
  have hsplit := List.dropLast_append_getLast hne
  rw [State.sizeAcc, ← hsplit, total_append, total_cons]
  simp only [total, List.map_nil, List.sum_nil, maxFieldSize] at *
  omega

theorem batch_inside (hne : s.fields ≠ []) (hwindows : ∀ f ∈ s.fields, f.pos + 8 ≤ hashKeySize)
    {attrOffset : Nat → Nat} {pkts : List Packet} {w : Write} (hw : w ∈ keyWrites attrOffset s pkts) :
    ∃ j < pkts.length, hashKeySize * j ≤ w.start ∧ w.start + w.width ≤ hashKeySize * (j + 1) := by
  have hsize := sizeAcc_le hne ((windows_iff s.packed hne _).mp hwindows)
  have hok := (promised_iff.mp (promised_of_ne_nil hne hsize)).2
  rcases List.mem_append.mp hw with hw | hw
  · obtain ⟨j, hj, rfl⟩ := List.mem_map.mp hw
    refine ⟨j, List.mem_range.mp hj, ?_⟩
    simp only [zeroLast, hashKeySize, maxFields, maxFieldSize] at hok ⊢
    omega
  · obtain ⟨f, hf, hw⟩ := List.mem_flatMap.mp hw
    obtain ⟨j, hj, rfl⟩ := List.mem_map.mp hw
    refine ⟨j, List.mem_range.mp hj, ?_⟩
    have := hwindows f hf
    simp only [fieldWrite, hashKeySize, maxFields, maxFieldSize] at this ⊢
    omega

theorem writesInside_iff {maxBytes : Nat} (h : init args = .ok s) :
    s.WritesInside maxBytes ↔ args ≠ [] ∧ lastPos args + 8 ≤ hashKeySize ∧ maxBytes ≤ 8 := by
  rw [← total_dropLast h]
  constructor
  · intro hw
    have hne : args ≠ [] := by
      rintro rfl
      cases h
      exact absurd hw.padding (by decide)
    have hfields := (init_ok h).2 hne
    exact ⟨hne, (windows_iff s.packed hfields _).mp hw.windows, (decode_iff hfields).mp hw.decode⟩
  · rintro ⟨hne, hlast, hle⟩
    have hfields := (init_ok h).2 hne
    have hwindows := (windows_iff s.packed hfields _).mpr hlast
    refine ⟨hwindows, ?_, fun _ _ _ hw => batch_inside hfields hwindows hw,
      (decode_iff hfields).mpr hle⟩
    have hok := promised_iff.mp (promised_of_ne_nil hfields (sizeAcc_le hfields hlast))
    simp only [State.paddingWord, hashKeySize, maxFields, maxFieldSize] at hok ⊢
    omega

end Wildcard

namespace GenericEncap

abbrev Error := Nat × String

inductive Insertion where
  /-- What `AddMetadataAttr` returns for the name. -/
  | attribute (id : Int)
  | value (data : Wildcard.FieldData)
  | notSet

structure EncapField where
  size : Int
  insertion : Insertion

structure Field where
  value : Nat
  attrId : Int
  pos : Nat
  size : Nat
  size_le : size ≤ maxFieldSize

def addFieldOne (pos idx : Nat) (field : EncapField) : Except Error Field :=
  let at_ := "idx " ++ toString idx ++ ": "
  if h : field.size < 1 ∨ (maxFieldSize : Int) < field.size then .error (einval, at_ ++ "'size' must be 1-8")
  else
    let size := field.size.toNat
    let mk (value : Nat) (attrId : Int) : Field := ⟨value, attrId, pos, size, by omega⟩
    match field.insertion with
    | .attribute id =>
      if id < 0 then .error ((-id).toNat, at_ ++ "add_metadata_attr() failed") else .ok (mk 0 id)
    | .value (.valueInt v) =>
      match uint64ToBin v size true with
      | none => .error (einval, at_ ++ "not a correct " ++ toString size ++ "-byte value")
      | some v => .ok (mk v (-1))
    | .value (.valueBin bs) =>
      if bs.length ≠ size then .error (einval, at_ ++ "not a correct " ++ toString size ++ "-byte mask")
      else .ok (mk (leNat bs) (-1))
    | .value .notSet => .ok (mk 0 (-1))
    | .notSet => .error (einval, at_ ++ "must specify 'value' or 'attribute'")

/-- The loop of `Init`, from field `idx` on. -/
def addFieldsFrom (sizeAcc idx : Nat) : List EncapField → Except Error (List Field)
  | [] => .ok []
  | field :: fields =>
    match addFieldOne sizeAcc idx field with
    | .error e => .error e
    | .ok f =>
      match addFieldsFrom (sizeAcc + f.size) (idx + 1) fields with
      | .error e => .error e
      | .ok fs => .ok (f :: fs)

def init (fields : List EncapField) : Except Error (List Field) := addFieldsFrom 0 0 fields

/-- Where the loops of `ProcessBatch` store eight bytes, for `cnt` packets. -/
def stores (fs : List Field) (cnt : Nat) : List (Nat × Nat) :=
  fs.flatMap fun f => (List.range cnt).map fun j => (j, hashKeySize * j + f.pos)

structure WritesInside (fs : List Field) : Prop where
  windows : ∀ f ∈ fs, f.pos + 8 ≤ hashKeySize
  numFields : fs.length ≤ maxFields
  batch : ∀ cnt, ∀ x ∈ stores fs cnt, x.1 < cnt ∧ hashKeySize * x.1 ≤ x.2 ∧
    x.2 + 8 ≤ hashKeySize * (x.1 + 1)

variable {fields : List EncapField} {fs : List Field}

theorem addFieldOne_pos {pos idx : Nat} {field : EncapField} {f : Field}
    (h : addFieldOne pos idx field = .ok f) : f.pos = pos := by
  unfold addFieldOne at h
  split at h
  · cases h
  simp only at h
  split at h
  · split at h <;> cases h
    rfl
  · split at h <;> cases h
    rfl
  · split at h <;> cases h
    rfl
  · cases h
    rfl
  · cases h

theorem addFieldsFrom_cons_inv {sizeAcc idx : Nat} {field : EncapField}
    (h : addFieldsFrom sizeAcc idx (field :: fields) = .ok fs) :
    ∃ f fs', addFieldOne sizeAcc idx field = .ok f ∧
      addFieldsFrom (sizeAcc + f.size) (idx + 1) fields = .ok fs' ∧ fs = f :: fs' := by
  unfold addFieldsFrom at h
  split at h
  · cases h
  · rename_i f hf
    split at h
    · cases h
    · rename_i fs' hfs
      cases h
      exact ⟨f, fs', hf, hfs, rfl⟩

theorem addFieldsFrom_spec {sizeAcc idx : Nat} (h : addFieldsFrom sizeAcc idx fields = .ok fs) :
    Packed Field.pos Field.size sizeAcc fs ∧ fs.length = fields.length := by
  induction fields generalizing sizeAcc idx fs with
  | nil =>
    cases h
    exact ⟨trivial, rfl⟩
  | cons field fields ih =>
    obtain ⟨f, fs', hf, hfs, rfl⟩ := addFieldsFrom_cons_inv h
    obtain ⟨hp, hlen⟩ := ih hfs
    exact ⟨⟨addFieldOne_pos hf, hp⟩, by rw [List.length_cons, hlen, List.length_cons]⟩

theorem writesInside_iff (h : init fields = .ok fs) : WritesInside fs ↔ fields.length ≤ maxFields := by
  obtain ⟨hp, hlen⟩ := addFieldsFrom_spec h
  rw [← hlen]
  refine ⟨WritesInside.numFields, fun hle => ?_⟩
  have hwindow : ∀ f ∈ fs, f.pos + 8 ≤ hashKeySize := fun f hf =>
    window_le hp (fun f _ => f.size_le) hle hf
  refine ⟨hwindow, hle, fun cnt x hx => ?_⟩
  obtain ⟨f, hf, hx⟩ := List.mem_flatMap.mp hx
  obtain ⟨j, hj, rfl⟩ := List.mem_map.mp hx
  have := hwindow f hf
  refine ⟨List.mem_range.mp hj, ?_⟩
  simp only [hashKeySize, maxFields, maxFieldSize] at this ⊢
  omega

end GenericEncap

/-- For every argument that is accepted: `WildcardMatch` writes inside of its buffers iff it has a
field, the last one starts eight bytes before the end of the key or earlier, and no value or mask comes
in more than eight bytes; `GenericEncap` iff it has at most eight fields. -/
theorem buffers_safe_iff (maxBytes : Nat) :
    (∀ args s, Wildcard.init args = .ok s →
      (s.WritesInside maxBytes ↔
        args ≠ [] ∧ Wildcard.lastPos args + 8 ≤ hashKeySize ∧ maxBytes ≤ 8)) ∧
    ∀ fields fs, GenericEncap.init fields = .ok fs →
      (GenericEncap.WritesInside fs ↔ fields.length ≤ maxFields) :=
  ⟨fun _ _ h => Wildcard.writesInside_iff h, fun _ _ h => GenericEncap.writesInside_iff h⟩

def nineBytes : List Wildcard.FieldArg := List.replicate 9 ⟨.offset 0, 1⟩

/-- Nine fields of one byte are safe. -/
theorem nine_bytes_safe : ∃ s, Wildcard.init nineBytes = .ok s ∧ s.WritesInside 8 :=
  ⟨_, rfl, ((buffers_safe_iff 8).1 nineBytes _ rfl).mpr (by decide)⟩

/-- Nine fields of eight bytes are accepted by both, and no field by `WildcardMatch`; and a value of
nine bytes overruns the variable it is copied to. -/
theorem buffers_overrun :
    (∃ s, Wildcard.init (List.replicate 9 ⟨.offset 0, 8⟩) = .ok s ∧ ¬ s.WritesInside 8) ∧
    (∃ s, Wildcard.init [] = .ok s ∧ ¬ s.WritesInside 8) ∧
    ¬ Wildcard.oneByte.WritesInside 9 ∧
    ∃ fs, GenericEncap.init (List.replicate 9 ⟨8, .attribute 0⟩) = .ok fs ∧
      ¬ GenericEncap.WritesInside fs := by
  refine ⟨⟨_, rfl, fun h => ?_⟩, ⟨_, rfl, fun h => ?_⟩, fun h => ?_, ⟨_, rfl, fun h => ?_⟩⟩
  · exact absurd (h.windows _ (List.getLast_mem (by simp))) (by decide)
  · exact absurd h.padding (by decide)
  · exact h.decode [.valueBin (List.replicate 9 0)] [.valueInt 0] (by decide) (by decide)
  · exact absurd h.numFields (by decide)

end Bess.Match
