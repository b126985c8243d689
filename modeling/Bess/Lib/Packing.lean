import Bess.Lib.ByteMem
import Mathlib.Data.List.Nodup
import Mathlib.Data.Nat.Bitwise

/-!
# Records of packed fields

A record is a memory in which fields of some bytes each lie one after another. It is filled by
writes that may be wider than their field, in the order of the fields: what a write leaves behind
its field is overwritten by the next one. Two records are equal iff they are equal field by field
and in the bytes after the last field.
-/

namespace Bess.Packing

open Bess.ByteMem

/-! ## The bytes of a number -/

def byteAt (v k : Nat) : Byte := BitVec.ofNat 8 (v / 256 ^ k)

theorem byteAt_succ (v k : Nat) : byteAt v (k + 1) = byteAt (v / 256) k := by
  rw [byteAt, byteAt, pow_succ', Nat.div_div_eq_div_mul]

variable {k n i : Nat} {m : Mem} {ws : List Write}

theorem byteAt_of_lt {v : Nat} (h : v < 256 ^ k) : byteAt v k = 0 := by
  rw [byteAt, Nat.div_eq_of_lt h]
  rfl

theorem byteAt_leNat (bs : List Byte) (k : Nat) : byteAt (leNat bs) k = bs.getD k 0 := by
  induction bs generalizing k with
  | nil => simp [leNat, byteAt]
  | cons b bs ih =>
    have hb := b.isLt
    cases k with
    | zero =>
      apply BitVec.eq_of_toNat_eq
      simp only [byteAt, leNat, pow_zero, Nat.div_one, BitVec.toNat_ofNat, List.getD_cons_zero]
      omega
    | succ k =>
      have hdiv : leNat (b :: bs) / 256 = leNat bs := by
        rw [leNat]
        omega
      rw [byteAt_succ, hdiv, ih, List.getD_cons_succ]

theorem byteAt_leNat_map (f : Nat → Byte) (hk : k < n) :
    byteAt (leNat ((List.range n).map f)) k = f k := by
  rw [byteAt_leNat, List.getD_eq_getElem?_getD, List.getElem?_map, List.getElem?_range hk]
  rfl

theorem byteAt_ext {v w : Nat} (hv : v < 256 ^ n) (hw : w < 256 ^ n)
    (h : ∀ k < n, byteAt v k = byteAt w k) : v = w := by
  induction n generalizing v w with
  | zero =>
    rw [pow_zero] at hv hw
    omega
  | succ n ih =>
    have h0 : v % 256 = w % 256 := by
      have := congrArg BitVec.toNat (h 0 (by omega))
      simpa [byteAt] using this
    have hrest : v / 256 = w / 256 := by
      rw [pow_succ] at hv hw
      apply ih (by omega) (by omega)
      intro k hk
      rw [← byteAt_succ, ← byteAt_succ]
      exact h (k + 1) (by omega)
    omega

theorem byteAt_land (a b k : Nat) : byteAt (a &&& b) k = byteAt a k &&& byteAt b k := by
  have hpow : 256 ^ k = 2 ^ (8 * k) := by
    rw [pow_mul]
    norm_num
  rw [byteAt, byteAt, byteAt, hpow, Nat.and_div_two_pow, BitVec.ofNat_and]

theorem byteAt_mod (v : Nat) (hk : k < n) : byteAt (v % 256 ^ n) k = byteAt v k := by
  obtain ⟨d, rfl⟩ := Nat.exists_eq_add_of_lt hk
  apply BitVec.eq_of_toNat_eq
  have hsplit : 256 ^ (k + d + 1) = 256 ^ k * (256 * 256 ^ d) := by
    rw [pow_succ, pow_add]
    ring
  rw [byteAt, byteAt, BitVec.toNat_ofNat, BitVec.toNat_ofNat, hsplit, Nat.mod_mul_right_div_self]
  exact Nat.mod_mul_right_mod _ _ _

theorem byteAt_mul (v j k : Nat) :
    byteAt (v * 256 ^ j) k = if k < j then 0 else byteAt v (k - j) := by
  split
  · rename_i h
    obtain ⟨d, rfl⟩ := Nat.exists_eq_add_of_lt h
    have hsplit : v * 256 ^ (k + d + 1) = 256 ^ k * (256 * (v * 256 ^ d)) := by
      rw [pow_succ, pow_add]
      ring
    apply BitVec.eq_of_toNat_eq
    rw [byteAt, hsplit, Nat.mul_div_cancel_left _ (Nat.pow_pos (by decide)),
      BitVec.toNat_ofNat]
    exact Nat.mul_mod_right _ _
  · rename_i h
    have hsplit : (256 : Nat) ^ k = 256 ^ j * 256 ^ (k - j) := by
      rw [← pow_add, Nat.add_sub_cancel' (by omega)]
    rw [byteAt, byteAt, hsplit, ← Nat.div_div_eq_div_mul,
      Nat.mul_div_cancel _ (Nat.pow_pos (by decide))]

theorem byteAt_load {o : Nat} (hk : k < n) : byteAt (load m o n) k = m (o + k) := by
  rw [load, byteAt_leNat]
  induction n generalizing o k with
  | zero => omega
  | succ n ih =>
    cases k with
    | zero => rfl
    | succ k =>
      rw [bytes, List.getD_cons_succ, ih (by omega)]
      congr 1
      omega

theorem bytes_eq_map (m : Mem) (o n : Nat) :
    bytes m o n = (List.range n).map fun k => m (o + k) := by
  induction n generalizing o with
  | zero => rfl
  | succ n ih =>
    rw [bytes, ih, List.range_succ_eq_map, List.map_cons, List.map_map]
    congr 1
    refine List.map_congr_left fun k _ => ?_
    rw [Function.comp_apply, Nat.add_right_comm, Nat.add_assoc]

theorem bytes_eq_iff {a b : Mem} {o : Nat} :
    bytes a o n = bytes b o n ↔ ∀ k < n, a (o + k) = b (o + k) := by
  constructor
  · intro h k hk
    calc a (o + k) = byteAt (load a o n) k := (byteAt_load hk).symm
      _ = byteAt (load b o n) k := by rw [load, h, load]
      _ = b (o + k) := byteAt_load hk
  · intro h
    apply bytes_congr
    intro i h1 h2
    have := h (i - o) (by omega)
    rwa [Nat.add_sub_cancel' h1] at this

/-! ## Writes one after another -/

/-- `width` bytes from `start` on. -/
structure Write where
  start : Nat
  width : Nat
  get : Nat → Byte

def Write.Covers (w : Write) (i : Nat) : Prop := w.start ≤ i ∧ i < w.start + w.width

instance (w : Write) (i : Nat) : Decidable (w.Covers i) :=
  inferInstanceAs (Decidable (_ ∧ _))

def Write.apply (w : Write) (m : Mem) : Mem := fun i =>
  if w.Covers i then w.get (i - w.start) else m i

def writeAll (m : Mem) (ws : List Write) : Mem := ws.foldl (fun m w => w.apply m) m

theorem writeAll_cons (m : Mem) (w : Write) (ws : List Write) :
    writeAll m (w :: ws) = writeAll (w.apply m) ws := rfl

theorem writeAll_of_not (h : ∀ w ∈ ws, ¬ w.Covers i) : writeAll m ws i = m i := by
  induction ws generalizing m with
  | nil => rfl
  | cons w ws ih =>
    rw [writeAll_cons, ih fun w' hw' => h w' (List.mem_cons_of_mem _ hw'), Write.apply,
      if_neg (h w (List.mem_cons_self ..))]

theorem writeAll_filter {m' : Mem} (p : Write → Bool)
    (h : ∀ w ∈ ws, p w = false → ¬ w.Covers i) (hm : m i = m' i) :
    writeAll m ws i = writeAll m' (ws.filter p) i := by
  induction ws generalizing m m' with
  | nil => exact hm
  | cons w ws ih =>
    obtain ⟨hw, hws⟩ := List.forall_mem_cons.mp h
    cases hp : p w with
    | true =>
      rw [List.filter_cons_of_pos hp, writeAll_cons, writeAll_cons]
      refine ih hws ?_
      rw [Write.apply, Write.apply, hm]
    | false =>
      rw [List.filter_cons_of_neg (by simp [hp]), writeAll_cons]
      refine ih hws ?_
      rw [Write.apply, if_neg (hw hp), hm]

/-- The write, `b` bytes further on. -/
def Write.shift (b : Nat) (w : Write) : Write := { w with start := b + w.start }

theorem writeAll_shift (m : Mem) (b : Nat) (ws : List Write) (i : Nat) :
    writeAll m (ws.map (Write.shift b)) (b + i) = writeAll (fun i => m (b + i)) ws i := by
  induction ws generalizing m with
  | nil => rfl
  | cons w ws ih =>
    have hcovers : ∀ i, (w.shift b).Covers (b + i) ↔ w.Covers i := fun i => by
      simp only [Write.Covers, Write.shift]
      omega
    have hsub : ∀ i, b + i - (w.shift b).start = i - w.start := fun i => by
      simp only [Write.shift]
      omega
    have happly : (fun i => (w.shift b).apply m (b + i)) = w.apply fun i => m (b + i) := by
      funext i
      simp only [Write.apply, hcovers, hsub]
      rfl
    rw [List.map_cons, writeAll_cons, writeAll_cons, ih, happly]

/-- The last write that covers a byte decides. -/
theorem writeAll_last {pre post : List Write} {w : Write} (hw : w.Covers i)
    (hpost : ∀ w' ∈ post, ¬ w'.Covers i) :
    writeAll m (pre ++ w :: post) i = w.get (i - w.start) := by
  have hsplit : writeAll m (pre ++ w :: post) = writeAll (w.apply (writeAll m pre)) post := by
    rw [writeAll, List.foldl_append, List.foldl_cons]
    rfl
  rw [hsplit, writeAll_of_not hpost, Write.apply, if_pos hw]

theorem writeAll_same {b : Byte} (hm : m i = b)
    (h : ∀ w ∈ ws, w.Covers i → w.get (i - w.start) = b) : writeAll m ws i = b := by
  induction ws generalizing m with
  | nil => exact hm
  | cons w ws ih =>
    rw [writeAll_cons]
    apply ih _ fun w' hw' => h w' (List.mem_cons_of_mem _ hw')
    rw [Write.apply]
    split
    · rename_i hc
      exact h w (List.mem_cons_self ..) hc
    · exact hm

/-! ## Rows of equal length -/

/-- Writes that do not leave the row they start in do not meet those of other rows. -/
theorem writeAll_row {R j : Nat} (hin : ∀ w ∈ ws, w.start % R + w.width ≤ R) (hi : i < R) :
    writeAll m ws (R * j + i) = writeAll m (ws.filter fun w => w.start / R == j) (R * j + i) := by
  refine writeAll_filter _ (fun w hw hne hc => ?_) rfl
  have hne : w.start / R ≠ j := by simpa using hne
  have hstart := Nat.div_add_mod w.start R
  have hwidth := hin w hw
  obtain ⟨h1, h2⟩ := hc
  rcases Nat.lt_or_gt_of_ne hne with hlt | hgt
  · have := Nat.mul_le_mul_left R (Nat.succ_le_of_lt hlt)
    rw [Nat.mul_succ] at this
    omega
  · have := Nat.mul_le_mul_left R (Nat.succ_le_of_lt hgt)
    rw [Nat.mul_succ] at this
    omega

theorem filter_range_eq {j n : Nat} (hj : j < n) : (List.range n).filter (fun x => x == j) = [j] := by
  rw [List.filter_beq, List.count_eq_one_of_mem List.nodup_range (List.mem_range.mpr hj)]
  rfl

theorem filter_map_row {R j n : Nat} {w : Nat → Write} (hj : j < n)
    (hrow : ∀ j, (w j).start / R = j) :
    ((List.range n).map w).filter (fun x => x.start / R == j) = [w j] := by
  have hfilter : (List.range n).filter ((fun x : Write => x.start / R == j) ∘ w) = [j] := by
    rw [← filter_range_eq hj]
    refine List.filter_congr fun j' _ => ?_
    rw [Function.comp_apply, hrow]
  rw [List.filter_map, hfilter]
  rfl

/-- Each field is written to all rows; the writes to one of them. -/
theorem filter_flatMap_row {F : Type} {R j n : Nat} {w : F → Nat → Write} {fs : List F} (hj : j < n)
    (hrow : ∀ f ∈ fs, ∀ j, (w f j).start / R = j) :
    (fs.flatMap fun f => (List.range n).map (w f)).filter (fun x => x.start / R == j) =
      fs.map fun f => w f j := by
  rw [List.filter_flatMap, List.map_eq_flatMap]
  refine List.flatMap_congr fun f hf => ?_
  exact filter_map_row hj (hrow f hf)

/-! ## Packed fields -/

section Packed

variable {F : Type} (pos size : F → Nat)

/-- The fields lie one after another from `s` on. -/
def Packed : Nat → List F → Prop
  | _, [] => True
  | s, f :: fs => pos f = s ∧ Packed (s + size f) fs

def total (fs : List F) : Nat := (fs.map size).sum

variable {pos size} {s i : Nat} {f g : F} {fs pre post : List F}

theorem total_append : total size (pre ++ post) = total size pre + total size post := by
  simp [total]

theorem total_cons : total size (f :: fs) = size f + total size fs := by
  simp [total]

theorem total_le {n : Nat} (h : ∀ f ∈ fs, size f ≤ n) : total size fs ≤ fs.length * n := by
  induction fs with
  | nil => simp [total]
  | cons f fs ih =>
    obtain ⟨hf, hfs⟩ := List.forall_mem_cons.mp h
    have := ih hfs
    rw [total_cons, List.length_cons, Nat.add_one_mul]
    omega

theorem packed_append : Packed pos size s (pre ++ post) ↔
    Packed pos size s pre ∧ Packed pos size (s + total size pre) post := by
  induction pre generalizing s with
  | nil => simp [Packed, total]
  | cons f pre ih => rw [List.cons_append, Packed, Packed, ih, total_cons, and_assoc, Nat.add_assoc]

theorem Packed.bounds (h : Packed pos size s fs) (hf : f ∈ fs) :
    s ≤ pos f ∧ pos f + size f ≤ s + total size fs := by
  induction fs generalizing s with
  | nil => cases hf
  | cons g fs ih =>
    obtain ⟨hg, h⟩ := h
    rw [total_cons]
    rcases List.mem_cons.mp hf with rfl | hf
    · omega
    · have := ih h hf
      omega

theorem Packed.apart (h : Packed pos size s (pre ++ f :: post)) :
    (∀ g ∈ pre, pos g + size g ≤ pos f) ∧ ∀ g ∈ post, pos f + size f ≤ pos g := by
  obtain ⟨hpre, hf, hpost⟩ := packed_append.mp h
  rw [hf]
  exact ⟨fun g hg => (hpre.bounds hg).2, fun g hg => (hpost.bounds hg).1⟩

theorem Packed.cover (h : Packed pos size s fs) (hs : s ≤ i) (hi : i < s + total size fs) :
    ∃ f ∈ fs, pos f ≤ i ∧ i < pos f + size f := by
  induction fs generalizing s with
  | nil =>
    simp [total] at hi
    omega
  | cons f fs ih =>
    obtain ⟨hf, h⟩ := h
    rw [total_cons] at hi
    by_cases hc : i < s + size f
    · exact ⟨f, List.mem_cons_self .., by omega, by omega⟩
    · obtain ⟨g, hg, hb⟩ := ih h (by omega) (by omega)
      exact ⟨g, List.mem_cons_of_mem _ hg, hb⟩

theorem packed_map {G : Type} {l : List G} (h : G → F) :
    Packed pos size s (l.map h) ↔ Packed (fun x => pos (h x)) (fun x => size (h x)) s l := by
  induction l generalizing s with
  | nil => exact Iff.rfl
  | cons x l ih => rw [List.map_cons, Packed, Packed, ih]

theorem total_map {G : Type} (l : List G) (h : G → F) :
    total size (l.map h) = total (fun x => size (h x)) l := by
  rw [total, total, List.map_map]
  rfl

theorem Packed.zip {V : Type} (h : Packed pos size s fs) {vs : List V}
    (hlen : fs.length ≤ vs.length) :
    Packed (fun p => pos p.1) (fun p => size p.1) s (fs.zip vs) ∧
      total (fun p => size p.1) (fs.zip vs) = total size fs := by
  have hmap : (fs.zip vs).map Prod.fst = fs := List.map_fst_zip hlen
  constructor
  · rw [← packed_map Prod.fst, hmap]
    exact h
  · rw [← total_map _ Prod.fst, hmap]

theorem Packed.bytes_flatMap (h : Packed pos size s fs) (m : Mem) :
    bytes m s (total size fs) = fs.flatMap fun f => bytes m (pos f) (size f) := by
  induction fs generalizing s with
  | nil => rfl
  | cons f fs ih =>
    obtain ⟨hf, h⟩ := h
    rw [total_cons, bytes_add, ih h, List.flatMap_cons, hf]

theorem Packed.bytes_eq_iff (h : Packed pos size 0 fs) {a b : Mem} {len : Nat}
    (hlen : total size fs ≤ len) :
    bytes a 0 len = bytes b 0 len ↔
      (∀ f ∈ fs, ∀ k < size f, a (pos f + k) = b (pos f + k)) ∧
        ∀ i, total size fs ≤ i → i < len → a i = b i := by
  rw [Packing.bytes_eq_iff]
  simp only [Nat.zero_add]
  constructor
  · intro hall
    refine ⟨fun f hf k hk => hall _ ?_, fun i _ hi => hall i hi⟩
    have := (h.bounds hf).2
    omega
  · rintro ⟨hfields, htail⟩ i hi
    rcases Nat.lt_or_ge i (total size fs) with hlt | hge
    · obtain ⟨f, hf, h1, h2⟩ := h.cover (Nat.zero_le i) (by omega)
      have := hfields f hf (i - pos f) (by omega)
      rwa [Nat.add_sub_cancel' h1] at this
    · exact htail i hge hi

/-- Writes that may be too wide, in the order of the fields. -/
def fieldWrites (pos : F → Nat) (width : F → Nat) (get : F → Nat → Byte) (fs : List F) :
    List Write :=
  fs.map fun f => ⟨pos f, width f, get f⟩

theorem Packed.writeAll_field {width : F → Nat} {get : F → Nat → Byte} {m : Mem}
    (h : Packed pos size s fs) (hf : f ∈ fs) {k : Nat} (hk : k < size f) (hw : size f ≤ width f) :
    writeAll m (fieldWrites pos width get fs) (pos f + k) = get f k := by
  obtain ⟨pre, post, rfl⟩ := List.append_of_mem hf
  rw [fieldWrites, List.map_append, List.map_cons, writeAll_last]
  · rw [Nat.add_sub_cancel_left]
  · exact ⟨Nat.le_add_right .., by simp only; omega⟩
  · intro w hw
    obtain ⟨g, hg, rfl⟩ := List.mem_map.mp hw
    have := h.apart.2 g hg
    rintro ⟨h1, -⟩
    simp only at h1
    omega

/-- Behind the last field a byte keeps its value if all writes agree on it. -/
theorem Packed.writeAll_tail {width : F → Nat} {get : F → Nat → Byte} {m : Mem} {b : Byte}
    (h : Packed pos size s fs) (hi : s + total size fs ≤ i) (hm : m i = b)
    (hget : ∀ f ∈ fs, ∀ k, size f ≤ k → k < width f → get f k = b) :
    writeAll m (fieldWrites pos width get fs) i = b := by
  apply writeAll_same hm
  intro w hw hc
  obtain ⟨f, hf, rfl⟩ := List.mem_map.mp hw
  have := (h.bounds hf).2
  obtain ⟨h1, h2⟩ := hc
  simp only at h1 h2
  exact hget f hf _ (by simp only; omega) (by simp only; omega)

end Packed

end Bess.Packing
