import Bess.Match.Exact

/-!
# Keys of a batch

`MakeKeys` puts together the keys of all packets of a batch, field by field. It clears the last word
of each key first and then writes eight bytes for each field, which may be more than the field has:
the rest is overwritten by the next field or is zero under the mask. No write leaves the 64 bytes of
its key, so the keys come out one by one as if there were no others.

`buffer_fn` is a function from fields to the bytes from the start of the field on, so that fields of
the packet and of its metadata are treated alike. A table without fields has no last word.
-/

namespace Bess.Match.ExactMatchTable

open Bess.ByteMem Bess.Cuckoo Bess.Packing

variable {T : Type}

/-- For each field the bytes from its start on. -/
abbrev Buffers := ExactMatchField → Mem

/-- The buffers of `MakeKeys(const void **, ExactMatchKey *, size_t)`. -/
def offsetBuffers (buf : Mem) : Buffers := fun f i => buf (f.offset + i)

def maskedWord (b : Buffers) (f : ExactMatchField) : Nat := load (b f) 0 8 &&& f.mask

def wordWrite (bufs : List Buffers) (f : ExactMatchField) (j : Nat) : Write :=
  ⟨hashKeySize * j + f.pos, 8, byteAt (maskedWord (bufs.getD j fun _ _ => 0) f)⟩

/-- `keys` is what the array of keys holds before. -/
def makeKeys (t : ExactMatchTable T) (bufs : List Buffers) (keys : Mem) : Option Mem :=
  if t.totalKeySize = 0 ∧ bufs ≠ [] then none
  else some (writeAll keys
    ((List.range bufs.length).map (fun j => zeroLast (hashKeySize * j) t.totalKeySize) ++
      t.fields.flatMap fun f => (List.range bufs.length).map (wordWrite bufs f)))

/-- Key `j` of an array. -/
def keyAt (keys : Mem) (j : Nat) : Mem := fun i => keys (hashKeySize * j + i)

/-- The bytes of a field, under its mask. -/
def maskedBytes (b : Buffers) (f : ExactMatchField) : List Byte :=
  (List.range f.size).map fun k => b f k &&& byteAt f.mask k

/-- What the key of a packet should be. -/
def keyBytes (t : ExactMatchTable T) (b : Buffers) : List Byte :=
  t.fields.flatMap (maskedBytes b) ++ List.replicate (t.totalKeySize - t.rawKeySize) 0

/-- The packets agree on the bits of the masks. -/
def SameBits (fs : List ExactMatchField) (b b' : Buffers) : Prop :=
  ∀ f ∈ fs, load (b f) 0 f.size &&& f.mask = load (b' f) 0 f.size &&& f.mask

variable {t : ExactMatchTable T} {b b' : Buffers} {bufs : List Buffers} {stale keys : Mem} {j : Nat}

/-! ## One key -/

/-- The writes to one key. -/
def rowWrites (t : ExactMatchTable T) (b : Buffers) : List Write :=
  zeroLast 0 t.totalKeySize ::
    fieldWrites ExactMatchField.pos (fun _ => 8) (fun f => byteAt (maskedWord b f)) t.fields

theorem rawKeySize_le (t : ExactMatchTable T) : t.rawKeySize ≤ hashKeySize := by
  have htotal : total ExactMatchField.size t.fields ≤ t.fields.length * maxFieldSize :=
    total_le fun f _ => f.size_le
  rw [t.raw_eq]
  exact htotal.trans (Nat.mul_le_mul_right _ t.length_le)

theorem totalKeySize_le (t : ExactMatchTable T) : t.totalKeySize ≤ hashKeySize := by
  have := t.rawKeySize_le
  unfold totalKeySize alignCeil hashKeySize maxFields maxFieldSize at *
  omega

theorem totalKeySize_pos (hne : t.fields ≠ []) : 0 < t.totalKeySize := by
  obtain ⟨f, fs, hf⟩ := List.exists_cons_of_ne_nil hne
  have hraw := t.raw_eq
  rw [hf, total_cons] at hraw
  have := f.size_pos
  have := le_alignCeil t.rawKeySize
  unfold totalKeySize
  omega

theorem maskedWord_lt (b : Buffers) (f : ExactMatchField) : maskedWord b f < 256 ^ f.size :=
  lt_of_le_of_lt Nat.and_le_right f.mask_lt

theorem byteAt_maskedWord {f : ExactMatchField} {k : Nat} (hk : k < f.size) :
    byteAt (maskedWord b f) k = b f k &&& byteAt f.mask k := by
  have hsize : f.size ≤ 8 := f.size_le
  rw [maskedWord, byteAt_land, byteAt_load (by omega), Nat.zero_add]

theorem writeAll_row_field {f : ExactMatchField} (hf : f ∈ t.fields) {k : Nat} (hk : k < f.size) :
    writeAll stale (rowWrites t b) (f.pos + k) = b f k &&& byteAt f.mask k := by
  rw [rowWrites, writeAll_cons, t.packed.writeAll_field hf hk f.size_le, byteAt_maskedWord hk]

theorem writeAll_row_tail {i : Nat} (hlow : t.rawKeySize ≤ i) (hhigh : i < t.totalKeySize) :
    writeAll stale (rowWrites t b) i = 0 := by
  rw [rowWrites, writeAll_cons]
  apply t.packed.writeAll_tail
  · rw [Nat.zero_add, ← t.raw_eq]
    exact hlow
  · exact t.zeroLast_apply hlow hhigh
  · intro f _ k hk _
    exact byteAt_of_lt ((maskedWord_lt b f).trans_le (Nat.pow_le_pow_right (by decide) hk))

theorem bytes_row (t : ExactMatchTable T) (b : Buffers) (stale : Mem) :
    bytes (writeAll stale (rowWrites t b)) 0 t.totalKeySize = keyBytes t b := by
  have hle : t.rawKeySize ≤ t.totalKeySize := le_alignCeil _
  have hfields : bytes (writeAll stale (rowWrites t b)) 0 t.rawKeySize =
      t.fields.flatMap (maskedBytes b) := by
    rw [t.raw_eq, t.packed.bytes_flatMap]
    refine List.flatMap_congr fun f hf => ?_
    rw [bytes_eq_map, maskedBytes]
    exact List.map_congr_left fun k hk => writeAll_row_field hf (List.mem_range.mp hk)
  have htail : bytes (writeAll stale (rowWrites t b)) t.rawKeySize (t.totalKeySize - t.rawKeySize) =
      List.replicate (t.totalKeySize - t.rawKeySize) 0 := by
    rw [List.eq_replicate_iff, length_bytes, bytes_eq_map]
    refine ⟨rfl, fun x hx => ?_⟩
    obtain ⟨k, hk, rfl⟩ := List.mem_map.mp hx
    have hk := List.mem_range.mp hk
    exact writeAll_row_tail (by omega) (by omega)
  have hsplit : t.totalKeySize = t.rawKeySize + (t.totalKeySize - t.rawKeySize) := by omega
  rw [keyBytes, ← hfields, ← htail]
  nth_rewrite 1 [hsplit]
  rw [bytes_add, Nat.zero_add]

theorem keyBytes_eq_iff : keyBytes t b = keyBytes t b' ↔ SameBits t.fields b b' := by
  have hle : total ExactMatchField.size t.fields ≤ t.totalKeySize := by
    rw [← t.raw_eq]
    exact le_alignCeil _
  rw [← bytes_row t b fun _ => 0, ← bytes_row t b' fun _ => 0, t.packed.bytes_eq_iff hle]
  have htail : ∀ i, total ExactMatchField.size t.fields ≤ i → i < t.totalKeySize →
      writeAll (fun _ => 0) (rowWrites t b) i = writeAll (fun _ => 0) (rowWrites t b') i := by
    intro i hlow hhigh
    rw [← t.raw_eq] at hlow
    rw [writeAll_row_tail hlow hhigh, writeAll_row_tail hlow hhigh]
  rw [and_iff_left htail]
  refine forall₂_congr fun f hf => ?_
  have hbyte : ∀ b : Buffers, ∀ k < f.size,
      byteAt (load (b f) 0 f.size &&& f.mask) k = b f k &&& byteAt f.mask k := fun b k hk => by
    rw [byteAt_land, byteAt_load hk, Nat.zero_add]
  constructor
  · intro h
    refine byteAt_ext (lt_of_le_of_lt Nat.and_le_right f.mask_lt)
      (lt_of_le_of_lt Nat.and_le_right f.mask_lt) fun k hk => ?_
    rw [hbyte b k hk, hbyte b' k hk, ← writeAll_row_field hf hk, ← writeAll_row_field hf hk]
    exact h k hk
  · intro h k hk
    rw [writeAll_row_field hf hk, writeAll_row_field hf hk, ← hbyte b k hk, h, hbyte b' k hk]

/-! ## All keys -/

theorem filter_writes (hne : t.fields ≠ []) (hj : j < bufs.length) :
    ((List.range bufs.length).map (fun j => zeroLast (hashKeySize * j) t.totalKeySize) ++
        t.fields.flatMap fun f => (List.range bufs.length).map (wordWrite bufs f)).filter
      (fun w => w.start / hashKeySize == j) =
    (rowWrites t (bufs.getD j fun _ _ => 0)).map (Write.shift (hashKeySize * j)) := by
  have h64 : hashKeySize = 64 := rfl
  have hzero : ∀ j', (zeroLast (hashKeySize * j') t.totalKeySize).start / hashKeySize = j' := by
    intro j'
    have := t.totalKeySize_le
    have := totalKeySize_pos hne
    simp only [zeroLast, h64] at *
    omega
  have hword : ∀ f ∈ t.fields, ∀ j', (wordWrite bufs f j').start / hashKeySize = j' := by
    intro f hf j'
    have := pos_add_eight_le hf
    simp only [wordWrite, h64] at *
    omega
  have hshift : zeroLast (hashKeySize * j) t.totalKeySize =
      (zeroLast 0 t.totalKeySize).shift (hashKeySize * j) := by
    simp only [zeroLast, Write.shift, Nat.zero_add]
  rw [List.filter_append, filter_map_row hj hzero, filter_flatMap_row hj hword, rowWrites,
    List.map_cons, List.singleton_append, hshift, fieldWrites, List.map_map]
  rfl

theorem makeKeys_row (hne : t.fields ≠ []) (h : t.makeKeys bufs stale = some keys) {i : Nat}
    (hj : j < bufs.length) (hi : i < hashKeySize) :
    keyAt keys j i = writeAll (keyAt stale j) (rowWrites t (bufs.getD j fun _ _ => 0)) i := by
  have h64 : hashKeySize = 64 := rfl
  unfold makeKeys at h
  split at h
  · cases h
  · cases h
    unfold keyAt
    rw [writeAll_row ?_ hi, filter_writes hne hj, writeAll_shift]
    intro w hw
    rcases List.mem_append.mp hw with hw | hw
    · obtain ⟨j', -, rfl⟩ := List.mem_map.mp hw
      have := t.totalKeySize_le
      have := totalKeySize_pos hne
      simp only [zeroLast, h64] at *
      omega
    · obtain ⟨f, hf, hw⟩ := List.mem_flatMap.mp hw
      obtain ⟨j', -, rfl⟩ := List.mem_map.mp hw
      have := pos_add_eight_le hf
      simp only [wordWrite, h64] at *
      omega

theorem bytes_makeKeys (hne : t.fields ≠ []) (h : t.makeKeys bufs stale = some keys)
    (hb : bufs[j]? = some b) : bytes (keyAt keys j) 0 t.totalKeySize = keyBytes t b := by
  have hj := (List.getElem?_eq_some_iff.mp hb).1
  have hget : bufs.getD j (fun _ _ => 0) = b := by
    rw [List.getD_eq_getElem?_getD, hb]
    rfl
  rw [← bytes_row t b (keyAt stale j), ← hget]
  refine bytes_congr fun i _ hi => makeKeys_row hne h hj ?_
  have := t.totalKeySize_le
  omega

theorem bytes_makeKey {buf key : Mem} (h : t.makeKey stale buf = some key) :
    bytes key 0 t.totalKeySize = keyBytes t (offsetBuffers buf) := by
  have hload : ∀ f : ExactMatchField, load (offsetBuffers buf f) 0 8 = load buf f.offset 8 := by
    intro f
    rw [load, load, bytes_eq_map, bytes_eq_map]
    simp only [offsetBuffers, Nat.zero_add]
  unfold makeKey at h
  split at h
  · cases h
  · cases h
    rw [← bytes_row t (offsetBuffers buf) stale, rowWrites, writeAll_cons]
    have hbytes : fieldBytes buf = fun f => byteAt (maskedWord (offsetBuffers buf) f) := by
      funext f k
      rw [fieldBytes, maskedWord, hload]
    rw [hbytes]

/-- For every table with fields, every two batches and whatever the memory of the keys held before:
the keys are the masked bytes of the fields and zeros behind them, and two packets get equal keys
and hashes iff they agree on the bits of the masks. -/
theorem makeKeys_right (hash : List Byte → BitVec 64) (t : ExactMatchTable T) (hne : t.fields ≠ [])
    (bufs bufs' : List Buffers) (stale stale' : Mem) :
    ∃ keys keys', t.makeKeys bufs stale = some keys ∧ t.makeKeys bufs' stale' = some keys' ∧
      (∀ (j : Nat) b, bufs[j]? = some b → bytes (keyAt keys j) 0 t.totalKeySize = keyBytes t b) ∧
      ∀ (j j' : Nat) b b', bufs[j]? = some b → bufs'[j']? = some b' →
        (((t.hashing hash).eq (keyAt keys j) (keyAt keys' j') = true ∧
          (t.hashing hash).hasher (keyAt keys j) = (t.hashing hash).hasher (keyAt keys' j')) ↔
          SameBits t.fields b b') := by
  have hpos : t.totalKeySize ≠ 0 := (totalKeySize_pos hne).ne'
  have hsome : ∀ bufs stale, ∃ keys, t.makeKeys bufs stale = some keys := fun bufs stale =>
    ⟨_, if_neg fun h => hpos h.1⟩
  obtain ⟨keys, hkeys⟩ := hsome bufs stale
  obtain ⟨keys', hkeys'⟩ := hsome bufs' stale'
  refine ⟨keys, keys', hkeys, hkeys', fun j b hb => bytes_makeKeys hne hkeys hb, ?_⟩
  intro j j' b b' hb hb'
  rw [and_iff_left_of_imp ((t.hashing hash).hasher_eq _ _), hashing, keyHashing_eq_iff,
    bytes_makeKeys hne hkeys hb, bytes_makeKeys hne hkeys' hb', keyBytes_eq_iff]

/-- The bytes 0x1F and 0x2F have the same low half. -/
theorem lowHalf_same_key : ∃ keys keys',
    lowHalf.makeKeys [offsetBuffers fun _ => 0x1F#8] (fun _ => 0xAA#8) = some keys ∧
    lowHalf.makeKeys [offsetBuffers fun _ => 0x2F#8] (fun _ => 0x55#8) = some keys' ∧
    (lowHalf.hashing crcKey).eq (keyAt keys 0) (keyAt keys' 0) = true := by
  obtain ⟨keys, keys', h, h', -, heq⟩ := makeKeys_right crcKey lowHalf (List.cons_ne_nil _ _)
    [offsetBuffers fun _ => 0x1F#8] [offsetBuffers fun _ => 0x2F#8] (fun _ => 0xAA#8) fun _ => 0x55#8
  refine ⟨keys, keys', h, h', ((heq 0 0 _ _ rfl rfl).mpr ?_).1⟩
  intro f hf
  cases List.mem_singleton.mp hf
  decide

end Bess.Match.ExactMatchTable
