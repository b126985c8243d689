import Bess.Match.KeyBounds
import Bess.Modules.Packet
import Bess.Utils.Copy

/-!
# Headers of constants and attributes

`modules/generic_encap.cc` puts a header before every packet that is made of up to eight fields,
constants or attributes of the packet. The headers of a batch are put together field by field in an
array with one row for each packet. Every field is stored as eight bytes; what is stored behind the
field is overwritten by the next one or is not copied, and no store leaves its row.
-/

namespace Bess.Match.GenericEncap

open Bess.ByteMem Bess.Packing Bess.Copying Bess.Modules

/-! ## ProcessBatch -/

def encapSize (fs : List Field) : Nat := total Field.size fs

section ProcessBatch

-- `attr_offset`: where the pipeline has placed an attribute, below zero if nowhere
variable (attrOffset : Int → Int)

/-- The eight bytes that are stored for a field. -/
def word (metadata : Mem) (f : Field) : Nat :=
  if f.attrId < 0 then f.value
  else if 0 ≤ attrOffset f.attrId then load metadata (attrOffset f.attrId).toNat 8
  else 0

def fieldWrite (metadata : List Mem) (f : Field) (j : Nat) : Write :=
  ⟨hashKeySize * j + f.pos, 8, byteAt (word attrOffset (metadata.getD j fun _ => 0) f)⟩

/-- The array `headers`, for packets with this metadata; `stale` is what it holds before. -/
def headers (fs : List Field) (metadata : List Mem) (stale : Mem) : Mem :=
  writeAll stale
    (fs.flatMap fun f => (List.range metadata.length).map (fieldWrite attrOffset metadata f))

/-- A packet without room for the header stays as it is. -/
def encap (avx2 : Bool) (fs : List Field) (headers : Mem) (i : Nat) (pkt : Packet) : Packet :=
  match pkt.prepend (BitVec.ofNat 16 (encapSize fs)) with
  | none => pkt
  | some p => p.withBuf (copyBetween headers p.head (hashKeySize * i)
      (copyInlined avx2 p.head (encapSize fs) false) p.buf)

/-- The packets of a batch, each with its metadata. -/
def processBatch (avx2 : Bool) (fs : List Field) (stale : Mem) (batch : List (Packet × Mem)) :
    List Packet :=
  (batch.map Prod.fst).mapIdx
    (encap avx2 fs (headers attrOffset fs (batch.map Prod.snd) stale))

/-- The bytes that a field stands for. -/
def EncapField.bytes (metadata : Mem) (field : EncapField) : List Byte :=
  let n := field.size.toNat
  match field.insertion with
  | .attribute id =>
    if 0 ≤ attrOffset id then ByteMem.bytes metadata (attrOffset id).toNat n
    else List.replicate n 0
  | .value (.valueInt v) => (List.range n).map fun k => byteAt v.toNat (n - 1 - k)
  | .value (.valueBin b) => b
  | .value .notSet => List.replicate n 0
  | .notSet => []

/-- The bytes of a field as it is stored. -/
def fieldBytes (metadata : Mem) (f : Field) : List Byte :=
  (List.range f.size).map (byteAt (word attrOffset metadata f))

end ProcessBatch

variable {attrOffset : Int → Int} {fs : List Field} {f : Field} {field : EncapField}
  {fields : List EncapField} {metadata stale : Mem}

/-! ## The fields that are stored -/

theorem map_byteAt_zero (n : Nat) : (List.range n).map (byteAt 0) = List.replicate n 0 := by
  have hzero : ∀ k ∈ List.range n, byteAt 0 k = 0 := fun k _ => by
    rw [byteAt, Nat.zero_div]
    rfl
  rw [List.map_congr_left hzero, List.map_const', List.length_range]

theorem map_byteAt_leNat (b : List Byte) : (List.range b.length).map (byteAt (leNat b)) = b := by
  refine List.ext_getElem (by simp) fun k h1 h2 => ?_
  rw [List.getElem_map, List.getElem_range, byteAt_leNat, List.getD_eq_getElem?_getD,
    List.getElem?_eq_getElem h2]
  rfl

theorem map_byteAt_load {o n : Nat} (hn : n ≤ 8) :
    (List.range n).map (byteAt (load metadata o 8)) = bytes metadata o n := by
  rw [bytes_eq_map]
  refine List.map_congr_left fun k hk => byteAt_load ?_
  have := List.mem_range.mp hk
  omega

/-- A field is stored with its bytes in front. -/
theorem addFieldOne_bytes {pos idx : Nat} (h : addFieldOne pos idx field = .ok f)
    (attrOffset : Int → Int) (metadata : Mem) :
    fieldBytes attrOffset metadata f = field.bytes attrOffset metadata := by
  unfold addFieldOne at h
  split at h
  · cases h
  rename_i hsize
  have h8 : field.size.toNat ≤ 8 := by
    unfold maxFieldSize at hsize
    omega
  rcases hins : field.insertion with id | ⟨v | b | -⟩ | -
  · simp only [hins] at h
    split at h
    · cases h
    · rename_i hneg
      cases h
      simp only [fieldBytes, EncapField.bytes, word, hins, if_neg hneg]
      split
      · exact map_byteAt_load h8
      · exact map_byteAt_zero _
  · simp only [hins] at h
    split at h
    · cases h
    · rename_i w hw
      cases h
      simp only [fieldBytes, EncapField.bytes, word, hins]
      exact List.map_congr_left fun k hk => byteAt_uint64ToBin hw (List.mem_range.mp hk)
  · simp only [hins] at h
    split at h
    · cases h
    · rename_i hlen
      cases h
      simp only [fieldBytes, EncapField.bytes, word, hins, ← not_ne_iff.mp hlen]
      exact map_byteAt_leNat b
  · simp only [hins] at h
    cases h
    simp only [fieldBytes, EncapField.bytes, word, hins]
    exact map_byteAt_zero _
  · simp only [hins, reduceCtorEq] at h

theorem addFieldsFrom_bytes {sizeAcc idx : Nat} (h : addFieldsFrom sizeAcc idx fields = .ok fs)
    (attrOffset : Int → Int) (metadata : Mem) :
    fs.flatMap (fieldBytes attrOffset metadata) =
      fields.flatMap (EncapField.bytes attrOffset metadata) := by
  induction fields generalizing sizeAcc idx fs with
  | nil =>
    cases h
    rfl
  | cons field fields ih =>
    obtain ⟨f, fs', hf, hfs, rfl⟩ := addFieldsFrom_cons_inv h
    rw [List.flatMap_cons, List.flatMap_cons, addFieldOne_bytes hf, ih hfs]

/-! ## The headers of a batch -/

theorem headers_row {ms : List Mem} {j i : Nat} (hfs : WritesInside fs) (hj : j < ms.length)
    (hi : i < hashKeySize) :
    headers attrOffset fs ms stale (hashKeySize * j + i) =
      writeAll (fun i => stale (hashKeySize * j + i))
        (fieldWrites Field.pos (fun _ => 8)
          (fun f => byteAt (word attrOffset (ms.getD j fun _ => 0) f)) fs) i := by
  have h64 : hashKeySize = 64 := rfl
  have hrow : ∀ f ∈ fs, ∀ j, (fieldWrite attrOffset ms f j).start / hashKeySize = j := by
    intro f hf j
    have := hfs.windows f hf
    simp only [fieldWrite, h64] at *
    omega
  rw [headers, writeAll_row ?_ hi, filter_flatMap_row hj hrow, ← writeAll_shift]
  · rw [fieldWrites, List.map_map]
    rfl
  · intro w hw
    obtain ⟨f, hf, hw⟩ := List.mem_flatMap.mp hw
    obtain ⟨j', -, rfl⟩ := List.mem_map.mp hw
    have := hfs.windows f hf
    simp only [fieldWrite, h64] at *
    omega

theorem encapSize_le (hlen : fs.length ≤ maxFields) : encapSize fs ≤ hashKeySize := by
  have htotal : total Field.size fs ≤ fs.length * maxFieldSize := total_le fun g _ => g.size_le
  exact htotal.trans (Nat.mul_le_mul_right _ hlen)

theorem bytes_headers {ms : List Mem} {j : Nat} (hpacked : Packed Field.pos Field.size 0 fs)
    (hfs : WritesInside fs) (hj : ms[j]? = some metadata) :
    bytes (headers attrOffset fs ms stale) (hashKeySize * j) (encapSize fs) =
      fs.flatMap (fieldBytes attrOffset metadata) := by
  have hlt := (List.getElem?_eq_some_iff.mp hj).1
  have hget : ms.getD j (fun _ => 0) = metadata := by
    rw [List.getD_eq_getElem?_getD, hj]
    rfl
  set row := writeAll (fun i => stale (hashKeySize * j + i))
    (fieldWrites Field.pos (fun _ => 8) (fun f => byteAt (word attrOffset metadata f)) fs)
  have hbytes : bytes (headers attrOffset fs ms stale) (hashKeySize * j) (encapSize fs) =
      bytes row 0 (encapSize fs) := by
    rw [bytes_eq_map, bytes_eq_map]
    refine List.map_congr_left fun k hk => ?_
    have hk := List.mem_range.mp hk
    rw [headers_row hfs hlt (hk.trans_le (encapSize_le hfs.numFields)), hget, Nat.zero_add]
  rw [hbytes, encapSize, hpacked.bytes_flatMap]
  refine List.flatMap_congr fun f hf => ?_
  rw [bytes_eq_map, fieldBytes]
  exact List.map_congr_left fun k hk =>
    hpacked.writeAll_field hf (List.mem_range.mp hk) f.size_le

theorem length_flatMap_fieldBytes :
    (fs.flatMap (fieldBytes attrOffset metadata)).length = encapSize fs := by
  rw [List.length_flatMap, encapSize, total]
  congr 1
  exact List.map_congr_left fun f _ => by simp [fieldBytes]

theorem data_encap (avx2 : Bool) {heads : Mem} {i : Nat} {pkt : Packet}
    (hlen : fs.length ≤ maxFields) (hroom : encapSize fs ≤ pkt.head) :
    (encap avx2 fs heads i pkt).data = bytes heads (hashKeySize * i) (encapSize fs) ++ pkt.data := by
  have hsize : (BitVec.ofNat 16 (encapSize fs)).toNat = encapSize fs := by
    have hle := encapSize_le hlen
    unfold hashKeySize maxFields maxFieldSize at hle
    rw [BitVec.toNat_ofNat]
    omega
  obtain ⟨p, hp⟩ := Packet.prepend_some (hsize.trans_le hroom)
  obtain ⟨hhead, -, hbuf, -⟩ := Packet.prepend_spec hp
  rw [hsize] at hhead
  have hcov : Covers 0 (encapSize fs) (encapSize fs) (copyInlined avx2 p.head (encapSize fs) false) :=
    covers_copyInlined avx2 p.head (encapSize fs) false
  rw [encap, hp]
  simp only
  rw [Packet.data_prepend hp, hsize]
  · congr 1
    rw [bytes_eq_map, bytes_eq_map]
    refine List.map_congr_left fun k hk => copyBetween_inside (.inl ?_)
    exact hcov.all k (Nat.zero_le k) (List.mem_range.mp hk)
  · intro i hi
    rw [copyBetween_outside hcov.inside (.inr (by omega)), hbuf]

/-- For every list of up to eight fields that `Init` accepts, and every batch: a packet that has room
for the header gets the bytes of the fields in their order. -/
theorem header_before_packet (h : init fields = .ok fs) (hlen : fields.length ≤ maxFields)
    (avx2 : Bool) (attrOffset : Int → Int) (stale : Mem) (batch : List (Packet × Mem)) {j : Nat}
    {pkt : Packet} {metadata : Mem} (hj : batch[j]? = some (pkt, metadata))
    (hroom : (fields.flatMap (EncapField.bytes attrOffset metadata)).length ≤ pkt.head) :
    ((processBatch attrOffset avx2 fs stale batch)[j]?).map Packet.data =
      some (fields.flatMap (EncapField.bytes attrOffset metadata) ++ pkt.data) := by
  have hfs : WritesInside fs := (writesInside_iff h).mpr hlen
  have hpacked := (addFieldsFrom_spec h).1
  have hheader := addFieldsFrom_bytes h attrOffset metadata
  rw [← hheader, length_flatMap_fieldBytes] at hroom
  have hmeta : (batch.map Prod.snd)[j]? = some metadata := by
    rw [List.getElem?_map, hj]
    rfl
  rw [processBatch, List.getElem?_mapIdx, List.getElem?_map, hj]
  simp only [Option.map_some]
  rw [data_encap avx2 hfs.numFields hroom, bytes_headers hpacked hfs hmeta, hheader]

/-- The fields of the comment in `generic_encap.cc`. -/
def commented : List EncapField :=
  [⟨4, .value (.valueInt 0xdeadbeef)⟩, ⟨2, .attribute 0⟩, ⟨2, .value (.valueInt 0x1234)⟩]

/-- A packet without bytes, in the middle of its buffer. -/
def emptyPacket : Packet where
  buf := fun _ => 0
  dataOff := 128
  dataLen := 0
  bufLen := 2048
  pktLen := 0
  rest := []
  inside := by decide
  len_eq := by decide

theorem commented_header : ∃ fs, init commented = .ok fs ∧
    ((processBatch (fun _ => 5) true fs (fun _ => 0xFF) [(emptyPacket, BitVec.ofNat 8)])[0]?).map
      Packet.data = some [0xde, 0xad, 0xbe, 0xef, 5, 6, 0x12, 0x34] := by
  obtain ⟨fs, hfs⟩ : ∃ fs, init commented = .ok fs := ⟨_, rfl⟩
  refine ⟨fs, hfs, ?_⟩
  exact (header_before_packet hfs (by decide) true (fun _ => 5) (fun _ => 0xFF)
    [(emptyPacket, BitVec.ofNat 8)] rfl (by decide)).trans (congrArg some (by decide))

end Bess.Match.GenericEncap
