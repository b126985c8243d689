import Bess.Lib.BigEndian
import Bess.Modules.Command
import Mathlib.Data.BitVec

/-!
# Fields that are overwritten

`modules/update.cc` writes fixed values to fields of every packet. A field of up to eight bytes is
read and written as one word of eight bytes with the value in front. The check that the value fits its
field is made after the value was shifted to the front, where nothing is left of what does not fit: it
never fails, and the low bytes of the value are written.
-/

namespace Bess.Modules.Update

open Bess.ByteMem Bess.Packing Bess.BigEndian

/-- `UpdateArg::Field`; the offset is signed. -/
structure FieldArg where
  offset : BitVec 64
  size : BitVec 64
  value : BitVec 64

/-- An element of `fields_`, with mask and value as numbers. -/
structure Field where
  mask : BitVec 64
  value : BitVec 64
  offset : BitVec 64

structure State where
  numFields : Nat
  fields : Nat → Field

def fresh : State := ⟨0, fun _ => ⟨0, 0, 0⟩⟩

def kMaxFields : Nat := 16

def snbufSize : Nat := 2048

/-- The field of an argument, or why it is refused. -/
def makeField (f : FieldArg) : Except Failure Field :=
  if f.size < 1 ∨ 8 < f.size then .error (.msg EINVAL "'size' must be 1-8")
  else if snbufSize < (f.offset + f.size).toNat then .error (.msg EINVAL "too large 'offset'")
  else
    let shift := (8 - f.size.toNat) * 8
    let value := f.value <<< shift
    let mask := (1#64 <<< shift) - 1
    if value &&& mask ≠ 0 then
      .error (.msg EINVAL
        ("'value' field has not a correct " ++ toString f.size.toNat ++ "-byte value"))
    else .ok ⟨mask, value, f.offset⟩

/-- Stores fields from position `i` on until one is refused. -/
def storeFields (fields : Nat → Field) (i : Nat) : List FieldArg → (Nat → Field) × Option Failure
  | [] => (fields, none)
  | f :: fs =>
    match makeField f with
    | .error e => (fields, some e)
    | .ok x => storeFields (Function.update fields i x) (i + 1) fs

def commandAdd (s : State) (arg : List FieldArg) : Option Failure × State :=
  if kMaxFields < s.numFields + arg.length then
    (some (.msg EINVAL "max 16 variables can be specified"), s)
  else
    match storeFields s.fields s.numFields arg with
    | (fields, some e) => (some e, { s with fields })
    | (fields, none) => (none, ⟨s.numFields + arg.length, fields⟩)

def commandClear (s : State) : State := { s with numFields := 0 }

/-- A packet is in memory, with its first byte at `head`. -/
structure Pkt where
  head : Nat
  mem : Mem

/-- `head + offset`, with the offset as an `int16_t` -/
def address (head : Nat) (offset : BitVec 64) : Nat := (head + (offset.setWidth 16).toInt).toNat

/-- `*p = (*p & mask) | value` -/
def Field.apply (f : Field) (p : Pkt) : Pkt :=
  let at_ := address p.head f.offset
  let word := (BitVec.ofNat 64 (loadBe p.mem at_ 8) &&& f.mask) ||| f.value
  { p with mem := storeBe p.mem at_ 8 word.toNat }

/-- Field by field, each for all packets of the batch. -/
def processBatch (s : State) (batch : List Pkt) : List Pkt :=
  (List.range s.numFields).foldl (fun batch i => batch.map (s.fields i).apply) batch

/-! ## Histories -/

inductive Op
  | add (arg : List FieldArg)
  | clear

def step (s : State) : Op → State
  | .add arg => (commandAdd s arg).2
  | .clear => commandClear s

def run (s : State) (ops : List Op) : State := ops.foldl step s

/-- The value, in network order, at the place of the field. -/
def FieldArg.write (f : FieldArg) (p : Pkt) : Pkt :=
  { p with mem := storeBe p.mem (p.head + f.offset.toInt).toNat f.size.toNat f.value.toNat }

def FieldArg.Fits (f : FieldArg) : Prop := f.value.toNat < 256 ^ f.size.toNat

/-- The fields that are to be written after an operation. -/
def installed (s : State) (fs : List FieldArg) : Op → List FieldArg
  | .add arg => if (commandAdd s arg).1 = none then fs ++ arg else fs
  | .clear => []

/-- Every packet, with eight bytes in front of it in the memory, gets all fields in order. -/
def Writes (s : State) (fs : List FieldArg) : Prop :=
  ∀ batch : List Pkt, (∀ p ∈ batch, 8 ≤ p.head) →
    processBatch s batch = batch.map fun p => fs.foldl (fun p f => f.write p) p

/-- The fields are written all along, what is accepted fits, and what is refused changes no later
processing. -/
def Right (s : State) (fs : List FieldArg) : List Op → Prop
  | [] => Writes s fs
  | op :: ops =>
    Writes s fs ∧
    (∀ arg, op = .add arg →
      ((commandAdd s arg).1 = none → ∀ f ∈ arg, f.Fits) ∧
      ((commandAdd s arg).1 ≠ none → ∀ later batch,
        processBatch (run (step s op) later) batch = processBatch (run s later) batch)) ∧
    Right (step s op) (installed s fs op) ops

/-- Size and offset are within their limits. -/
def FieldArg.Placed (f : FieldArg) : Prop :=
  (1 ≤ f.size.toNat ∧ f.size.toNat ≤ 8) ∧ (f.offset + f.size).toNat ≤ snbufSize

instance (f : FieldArg) : Decidable f.Placed := inferInstanceAs (Decidable (_ ∧ _))

/-- A request that has room behind the `n` fields in use, and places all of its own. -/
def Admitted (n : Nat) (arg : List FieldArg) : Prop :=
  n + arg.length ≤ kMaxFields ∧ ∀ f ∈ arg, f.Placed

instance (n : Nat) (arg : List FieldArg) : Decidable (Admitted n arg) :=
  inferInstanceAs (Decidable (_ ∧ _))

/-- The number of fields in use after a request. -/
def inUse (n : Nat) : Op → Nat
  | .add arg => if Admitted n arg then n + arg.length else n
  | .clear => 0

/-- In every request with room for its fields and with right sizes and offsets the values fit. -/
def AllFit (n : Nat) : List Op → Prop
  | [] => True
  | op :: ops =>
    (∀ arg, op = .add arg → Admitted n arg → ∀ f ∈ arg, f.Fits) ∧ AllFit (inUse n op) ops

variable {s t : State} {fs arg : List FieldArg} {f : FieldArg} {x : Field} {p : Pkt} {i k : Nat}
  {fields : Nat → Field}

/-! ## One field -/

theorem makeField_ok (h : makeField f = .ok x) :
    (1 ≤ f.size.toNat ∧ f.size.toNat ≤ 8) ∧ (f.offset + f.size).toNat ≤ snbufSize ∧
      x = ⟨(1#64 <<< ((8 - f.size.toNat) * 8)) - 1, f.value <<< ((8 - f.size.toNat) * 8),
        f.offset⟩ := by
  unfold makeField at h
  split at h
  · cases h
  rename_i hsize
  split at h
  · cases h
  rename_i hoffset
  simp only at h
  split at h
  · cases h
  · cases h
    refine ⟨?_, not_lt.mp hoffset, rfl⟩
    simp only [not_or, BitVec.not_lt, BitVec.le_def] at hsize
    exact hsize

/-- What does not fit is gone before it is looked for. -/
theorem shiftLeft_and_lowMask (v : BitVec 64) {k : Nat} (hk : k < 64) :
    v <<< k &&& ((1#64 <<< k) - 1) = 0 := by
  apply BitVec.eq_of_toNat_eq
  rw [BitVec.toNat_and, toNat_lowMask hk, BitVec.toNat_shiftLeft, Nat.shiftLeft_eq,
    Nat.and_two_pow_sub_one_eq_mod, Nat.mod_mod_of_dvd _ (Nat.pow_dvd_pow 2 hk.le)]
  exact Nat.mul_mod_left ..

theorem makeField_isOk_iff (f : FieldArg) : (∃ x, makeField f = .ok x) ↔ f.Placed := by
  constructor
  · rintro ⟨x, hx⟩
    exact ⟨(makeField_ok hx).1, (makeField_ok hx).2.1⟩
  · rintro ⟨hsize, hoffset⟩
    have hin : ¬(f.size < 1 ∨ 8 < f.size) := by
      simp only [not_or, BitVec.not_lt, BitVec.le_def]
      exact hsize
    rw [makeField, if_neg hin, if_neg (not_lt.mpr hoffset)]
    exact ⟨_, if_neg (not_not.mpr (shiftLeft_and_lowMask f.value (by omega)))⟩

/-- An offset that is accepted is the same number in 16 bits. -/
theorem address_eq (h : makeField f = .ok x) (head : Nat) :
    address head f.offset = (head + f.offset.toInt).toNat := by
  obtain ⟨⟨h1, h8⟩, hle, -⟩ := makeField_ok h
  have hsame : (f.offset.setWidth 16).toInt = f.offset.toInt := by
    have hlt := f.offset.isLt
    rw [BitVec.toNat_add, snbufSize] at hle
    rw [BitVec.toInt_eq_toNat_cond, BitVec.toInt_eq_toNat_cond, BitVec.toNat_setWidth]
    split <;> split <;> omega
  rw [address, hsame]

theorem apply_eq_write (h : makeField f = .ok x) (p : Pkt) : x.apply p = f.write p := by
  obtain ⟨⟨h1, h8⟩, -, hx⟩ := makeField_ok h
  obtain ⟨b, hb⟩ : ∃ b, 8 = f.size.toNat + b := ⟨8 - f.size.toNat, by omega⟩
  have hsub : 8 - f.size.toNat = b := by omega
  have hmask : x.mask.toNat = 256 ^ b - 1 := by
    rw [hx, hsub, toNat_lowMask (by omega), pow_mul_eight]
  have h64 : (2 : Nat) ^ 64 = 256 ^ f.size.toNat * 256 ^ b := by
    rw [← pow_add, ← hb]
    norm_num
  have hvalue : x.value.toNat = f.value.toNat % 256 ^ f.size.toNat * 256 ^ b := by
    rw [hx, hsub]
    simp only [BitVec.toNat_shiftLeft, Nat.shiftLeft_eq]
    rw [pow_mul_eight, h64, Nat.mul_mod_mul_right]
  have hword : ∀ at_, (BitVec.ofNat 64 (loadBe p.mem at_ 8)).toNat = loadBe p.mem at_ 8 := by
    intro at_
    have := loadBe_lt p.mem at_ 8
    rw [BitVec.toNat_ofNat]
    exact Nat.mod_eq_of_lt this
  have hoffset : x.offset = f.offset := by rw [hx]
  simp only [Field.apply, FieldArg.write, hoffset, address_eq h, BitVec.toNat_or, BitVec.toNat_and,
    hword, hmask, hvalue]
  congr 1
  rw [hb, storeBe_masked, storeBe_mod]

/-! ## All fields -/

theorem storeFields_below (fields : Nat → Field) (fs : List FieldArg) (hk : k < i) :
    (storeFields fields i fs).1 k = fields k := by
  induction fs generalizing fields i with
  | nil => rfl
  | cons f fs ih =>
    rw [storeFields]
    split
    · rfl
    · rw [ih _ (by omega), Function.update_of_ne (by omega)]

theorem storeFields_none (h : (storeFields fields i fs).2 = none) :
    ∀ k f, fs[k]? = some f → makeField f = .ok ((storeFields fields i fs).1 (i + k)) := by
  induction fs generalizing fields i with
  | nil => exact fun k f hf => by cases hf
  | cons g fs ih =>
    cases hx : makeField g with
    | error e => simp only [storeFields, hx, reduceCtorEq] at h
    | ok x =>
      simp only [storeFields, hx] at h ⊢
      intro k f hf
      cases k with
      | zero =>
        cases hf
        have hfirst : (storeFields (Function.update fields i x) (i + 1) fs).1 i = x := by
          rw [storeFields_below _ _ (Nat.lt_succ_self i), Function.update_self]
        exact hx.trans (congrArg Except.ok hfirst.symm)
      | succ k =>
        have := ih h k f hf
        rwa [Nat.add_assoc, Nat.add_comm 1 k] at this

theorem storeFields_none_iff (fields : Nat → Field) (i : Nat) (fs : List FieldArg) :
    (storeFields fields i fs).2 = none ↔ ∀ f ∈ fs, f.Placed := by
  induction fs generalizing fields i with
  | nil => exact iff_of_true rfl nofun
  | cons f fs ih =>
    rw [List.forall_mem_cons, ← makeField_isOk_iff]
    cases hf : makeField f with
    | error e => simp [storeFields, hf]
    | ok x =>
      simp only [storeFields, hf]
      rw [ih]
      exact (and_iff_right ⟨x, rfl⟩).symm

theorem commandAdd_none_iff (s : State) (arg : List FieldArg) :
    (commandAdd s arg).1 = none ↔ Admitted s.numFields arg := by
  unfold commandAdd Admitted
  split
  · rename_i hmany
    exact iff_of_false nofun fun h => absurd h.1 (not_le.mpr hmany)
  · rename_i hroom
    rw [and_iff_right (not_lt.mp hroom), ← storeFields_none_iff s.fields s.numFields]
    split
    · rename_i hs
      simp [hs]
    · rename_i hs
      simp [hs]

theorem snd_storeFields (fields fields' : Nat → Field) (i : Nat) (fs : List FieldArg) :
    (storeFields fields' i fs).2 = (storeFields fields i fs).2 := by
  induction fs generalizing fields fields' i with
  | nil => rfl
  | cons f fs ih =>
    rw [storeFields, storeFields]
    split
    · rfl
    · exact ih _ _ _

theorem commandAdd_cases (s : State) (arg : List FieldArg) :
    (∃ e fields, commandAdd s arg = (some e, { s with fields }) ∧
      ∀ k < s.numFields, fields k = s.fields k) ∨
    (storeFields s.fields s.numFields arg).2 = none ∧ commandAdd s arg =
      (none, ⟨s.numFields + arg.length, (storeFields s.fields s.numFields arg).1⟩) := by
  unfold commandAdd
  split
  · exact .inl ⟨_, s.fields, rfl, fun _ _ => rfl⟩
  · split
    · rename_i fields e hs
      refine .inl ⟨e, fields, rfl, fun k hk => ?_⟩
      have := storeFields_below s.fields arg hk
      rwa [hs] at this
    · rename_i hs
      exact .inr ⟨by rw [hs], by rw [hs]⟩

theorem numFields_step (s : State) (op : Op) : (step s op).numFields = inUse s.numFields op := by
  cases op with
  | clear => rfl
  | add arg =>
    have hiff := commandAdd_none_iff s arg
    simp only [step, inUse]
    rcases commandAdd_cases s arg with ⟨e, fields, heq, -⟩ | ⟨-, heq⟩
    · rw [heq] at hiff ⊢
      rw [if_neg (mt hiff.mpr nofun)]
    · rw [heq] at hiff ⊢
      rw [if_pos (hiff.mp rfl)]

/-- The stored fields are those of the arguments. -/
structure Holds (s : State) (fs : List FieldArg) : Prop where
  numFields : s.numFields = fs.length
  fields : ∀ k f, fs[k]? = some f → makeField f = .ok (s.fields k)

theorem processBatch_eq_map (s : State) (batch : List Pkt) :
    processBatch s batch =
      batch.map fun p => (List.range s.numFields).foldl (fun p i => (s.fields i).apply p) p := by
  unfold processBatch
  induction List.range s.numFields generalizing batch with
  | nil => exact (List.map_id batch).symm
  | cons i is ih =>
    rw [List.foldl_cons, ih, List.map_map]
    rfl

theorem Holds.writes (h : Holds s fs) : Writes s fs := by
  intro batch _
  rw [processBatch_eq_map]
  refine List.map_congr_left fun p _ => ?_
  rw [h.numFields]
  replace h := h.fields
  induction fs using List.reverseRecOn with
  | nil => rfl
  | append_singleton fs f ih =>
    have hlast : makeField f = .ok (s.fields fs.length) := h fs.length f (by simp)
    have hinit := ih fun k g hg => h k g (by
      rw [List.getElem?_append_left (List.getElem?_eq_some_iff.mp hg).1]
      exact hg)
    rw [List.length_append, List.length_singleton, List.range_succ, List.foldl_append,
      List.foldl_append, hinit]
    exact apply_eq_write hlast _

theorem Holds.step (h : Holds s fs) (op : Op) : Holds (step s op) (installed s fs op) := by
  cases op with
  | clear => exact ⟨rfl, fun k f hf => by cases hf⟩
  | add arg =>
    rcases commandAdd_cases s arg with ⟨e, fields, heq, hkeep⟩ | ⟨hnone, heq⟩
    · simp only [Update.step, installed, heq, reduceCtorEq, if_false]
      refine ⟨h.numFields, fun k f hf => ?_⟩
      simp only
      rw [hkeep k (h.numFields ▸ (List.getElem?_eq_some_iff.mp hf).1)]
      exact h.fields k f hf
    · simp only [Update.step, installed, heq, if_true]
      refine ⟨by rw [h.numFields, List.length_append], fun k f hf => ?_⟩
      by_cases hk : k < fs.length
      · rw [List.getElem?_append_left hk] at hf
        simp only
        rw [storeFields_below _ _ (h.numFields.symm ▸ hk)]
        exact h.fields k f hf
      · rw [List.getElem?_append_right (by omega)] at hf
        have := storeFields_none hnone _ f hf
        rwa [h.numFields, Nat.add_sub_cancel' (by omega), ← h.numFields] at this

/-! ## What is refused -/

/-- The fields in use are the same. -/
structure Alike (s t : State) : Prop where
  numFields : t.numFields = s.numFields
  fields : ∀ k < s.numFields, t.fields k = s.fields k

theorem Alike.step (h : Alike s t) (op : Op) : Alike (step s op) (step t op) := by
  cases op with
  | clear => exact ⟨rfl, fun k hk => absurd hk (Nat.not_lt_zero k)⟩
  | add arg =>
    have hsame := snd_storeFields s.fields t.fields s.numFields arg
    simp only [Update.step, commandAdd, h.numFields]
    split
    · exact h
    · rcases hs : storeFields s.fields s.numFields arg with ⟨sf, se⟩
      rcases ht : storeFields t.fields s.numFields arg with ⟨tf, te⟩
      have hsf (k) (hk : k < s.numFields) := storeFields_below s.fields arg hk
      have htf (k) (hk : k < s.numFields) := storeFields_below t.fields arg hk
      simp only [hs] at hsf
      simp only [ht] at htf
      have hbelow : ∀ k < s.numFields, tf k = sf k := fun k hk => by
        rw [hsf k hk, htf k hk, h.fields k hk]
      rw [hs, ht] at hsame
      cases hsame
      cases se with
      | some e => exact ⟨rfl, hbelow⟩
      | none =>
        refine ⟨rfl, fun k hk => ?_⟩
        rcases Nat.lt_or_ge k s.numFields with hlt | hge
        · exact hbelow k hlt
        · obtain ⟨d, rfl⟩ := Nat.exists_eq_add_of_le hge
          have hd : d < arg.length := by
            simp only at hk
            omega
          obtain ⟨f, hf⟩ : ∃ f, arg[d]? = some f := ⟨_, List.getElem?_eq_getElem hd⟩
          have h1 := storeFields_none (by rw [hs]) d f hf
          have h2 := storeFields_none (by rw [ht]) d f hf
          rw [hs] at h1
          rw [ht] at h2
          exact Except.ok.inj (h2.symm.trans h1)

theorem Alike.run (h : Alike s t) (ops : List Op) : Alike (run s ops) (run t ops) := by
  induction ops generalizing s t with
  | nil => exact h
  | cons op ops ih => exact ih (h.step op)

theorem Alike.processBatch (h : Alike s t) (batch : List Pkt) :
    processBatch t batch = processBatch s batch := by
  unfold Update.processBatch
  rw [h.numFields]
  refine List.foldl_ext _ _ _ fun b i hi => ?_
  rw [h.fields i (List.mem_range.mp hi)]

theorem Holds.right_iff (h : Holds s fs) (ops : List Op) :
    Right s fs ops ↔ AllFit s.numFields ops := by
  induction ops generalizing s fs with
  | nil => exact iff_of_true h.writes trivial
  | cons op ops ih =>
    rw [Right, AllFit, ih (h.step op), and_iff_right h.writes, numFields_step]
    refine and_congr_left fun _ => forall_congr' fun arg => ?_
    rw [← commandAdd_none_iff]
    constructor
    · exact fun hall hop => (hall hop).1
    · rintro hall rfl
      refine ⟨hall rfl, fun hne later batch => ?_⟩
      rcases commandAdd_cases s arg with ⟨e, fields, heq, hkeep⟩ | ⟨-, heq⟩
      · have halike : Alike s (Update.step s (.add arg)) := by
          simp only [Update.step, heq]
          exact ⟨rfl, hkeep⟩
        exact (halike.run later).processBatch batch
      · rw [heq] at hne
        exact absurd rfl hne

/-- For every sequence of commands. -/
theorem history_right_iff_fits (ops : List Op) : Right fresh [] ops ↔ AllFit 0 ops :=
  Holds.right_iff ⟨rfl, fun k f hf => by cases hf⟩ ops

/-- The number 256 is accepted for a field of one byte, and zero is written. -/
theorem large_value_accepted :
    (commandAdd fresh [⟨0, 1, 256⟩]).1 = none ∧
    ((processBatch (commandAdd fresh [⟨0, 1, 256⟩]).2 [⟨8, fun _ => 7⟩]).map fun p => p.mem 8) =
      [0] ∧
    ¬ Right fresh [] [.add [⟨0, 1, 256⟩]] := by
  have hok : (commandAdd fresh [⟨0, 1, 256⟩]).1 = none := by decide +kernel
  refine ⟨hok, by decide +kernel, fun h => ?_⟩
  exact absurd ((h.2.1 _ rfl).1 hok _ (List.mem_singleton_self _)) (by unfold FieldArg.Fits; decide)

end Bess.Modules.Update
