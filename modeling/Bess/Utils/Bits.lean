import Bess.Match.Key
import Bess.Modules.Command

/-!
# Shifting bytes

`ShiftBytesLeft` and `ShiftBytesRight` of `utils/bits.h` shift a buffer in overlapping blocks of eight
bytes, stepping by eight less the shift; `SetMetadata` shifts what it copies from a packet with them.
With a shift of eight the step is zero.

A buffer is a memory with a length, and an access outside of the length is `none`. So is a loop that
does not end within the given number of turns.
-/

namespace Bess.Shifting

open Bess.ByteMem Bess.Modules

def memmove (len : Nat) (m : Mem) (dst src n : Nat) : Option Mem :=
  if dst + n ≤ len ∧ src + n ≤ len then
    some fun i => if dst ≤ i ∧ i < dst + n then m (src + (i - dst)) else m i
  else none

def memset (len : Nat) (m : Mem) (dst n : Nat) : Option Mem :=
  if dst + n ≤ len then some fun i => if dst ≤ i ∧ i < dst + n then 0 else m i else none

def shiftBytesLeftSmall (m : Mem) (len shift : Nat) : Option Mem :=
  let shift := min shift len
  (memmove len m 0 shift (len - shift)).bind fun m => memset len m (len - shift) shift

def shiftBytesRightSmall (m : Mem) (len shift : Nat) : Option Mem :=
  let shift := min shift len
  (memmove len m shift 0 (len - shift)).bind fun m => memset len m 0 shift

/-- `*block >>= shift * 8`. The language has no shift by 64; the machine takes the count modulo 64. -/
def shrBlock (len : Nat) (m : Mem) (p shift : Nat) : Option Mem :=
  if p + 8 ≤ len then some (store m p 8 (load m p 8 / 2 ^ (shift * 8 % 64))) else none

/-- `*block <<= shift * 8` -/
def shlBlock (len : Nat) (m : Mem) (p shift : Nat) : Option Mem :=
  if p + 8 ≤ len then some (store m p 8 (load m p 8 * 2 ^ (shift * 8 % 64))) else none

/-- `p` is `tmp_buf - buf`; it does not pass `len`. -/
def leftLoop (len shift : Nat) : Nat → Nat → Mem → Option (Nat × Mem)
  | 0, _, _ => none
  | fuel + 1, p, m =>
    if 8 ≤ len - p then (shrBlock len m p shift).bind (leftLoop len shift fuel (p + (8 - shift)))
    else some (p, m)

def shiftBytesLeft (fuel : Nat) (m : Mem) (len shift : Nat) : Option Mem :=
  if len < 8 ∨ 8 < shift then shiftBytesLeftSmall m len shift
  else (leftLoop len shift fuel 0 m).bind fun (p, m) =>
    if shift < len - p then
      (memmove len m p (p + shift) (len - p - shift)).bind fun m => memset len m (len - shift) shift
    else some m

/-- Here `tmp_buf` may end up below `buf`. -/
def rightLoop (len shift : Nat) : Nat → Int → Nat → Mem → Option (Nat × Mem)
  | 0, _, _, _ => none
  | fuel + 1, p, leftover, m =>
    if 0 ≤ p then
      (shlBlock len m p.toNat shift).bind
        (rightLoop len shift fuel (p - (8 - shift : Nat)) (leftover - (8 - shift)))
    else some (leftover, m)

def shiftBytesRight (fuel : Nat) (m : Mem) (len shift : Nat) : Option Mem :=
  if len < 8 ∨ 8 < shift then shiftBytesRightSmall m len shift
  else (rightLoop len shift fuel ((len : Int) - 8) len m).bind fun (leftover, m) =>
    shiftBytesRightSmall m leftover shift

/-! ## SetMetadata -/

inductive AttrValue
  | valueInt (v : BitVec 64)
  | valueBin (bs : List Byte)
  | notSet

/-- `SetMetadataArg_Attribute` -/
structure AttrArg where
  name : String
  size : Nat
  value : AttrValue
  offset : Int
  mask : List Byte
  rshiftBits : Int

structure Attr where
  name : String
  value : Nat
  mask : List Byte
  offset : Int
  size : Nat
  doMask : Bool
  shift : Int

def kMetadataAttrMaxSize : Nat := 32

def snbufData : Nat := 2048

/-- The value of the attribute and the offset it is copied from, which is -1 if it has a value. -/
def attrSource (arg : AttrArg) (rshiftBytes : Int) (doMask : Bool) : Except Failure (Nat × Int) :=
  match arg.value with
  | .valueInt v =>
    match Match.uint64ToBin v arg.size true with
    | none => .error (.msg EINVAL
        ("'value_int' field has not a correct " ++ toString arg.size ++ "-byte value"))
    | some v => .ok (v, -1)
  | .valueBin bs =>
    if bs.length ≠ arg.size then .error (.msg EINVAL
        ("'value_bin' field has not a correct " ++ toString arg.size ++ "-byte value"))
    else .ok (leNat bs, -1)
  | .notSet =>
    if arg.offset < 0 ∨ (snbufData : Int) ≤ arg.offset + arg.size then
      .error (.msg EINVAL "invalid packet offset")
    else if rshiftBytes * 8 ≠ arg.rshiftBits then
      .error (.msg EINVAL "'rshift_bits' must be a multiple of 8")
    else if arg.size ≤ rshiftBytes.natAbs then
      .error (.msg EINVAL ("'rshift_bits' must be in (-" ++ toString (8 * arg.size) ++ ", " ++
        toString (8 * arg.size) ++ ")"))
    else if doMask ∧ arg.mask.length ≠ arg.size then .error (.msg EINVAL
        ("'mask' field has not a correct " ++ toString arg.size ++ "-byte value"))
    else .ok (0, arg.offset)

/-- `AddAttrOne`; `register` is `AddMetadataAttr`, with the error code it returns. -/
def addAttrOne (register : String → Nat → Except Nat Unit) (arg : AttrArg) : Except Failure Attr :=
  let rshiftBytes := arg.rshiftBits.tdiv 8
  let doMask := decide (0 < arg.mask.length)
  if arg.name = "" then .error (.msg EINVAL "'name' field is missing")
  else if arg.size < 1 ∨ kMetadataAttrMaxSize < arg.size then
    .error (.msg EINVAL ("'size' must be 1-" ++ toString kMetadataAttrMaxSize))
  else if doMask ∧ arg.offset < 0 then .error (.msg EINVAL
      "'mask' may only be set when copying metadata from a packet.")
  else if arg.rshiftBits ≠ 0 ∧ arg.offset < 0 then .error (.msg EINVAL
      "'rshift_bits' may only be set when copying metadata from a packet.")
  else
    match attrSource arg rshiftBytes doMask with
    | .error e => .error e
    | .ok (value, offset) =>
      match register arg.name arg.size with
      | .error code => .error (.msg code "add_metadata_attr() failed")
      | .ok _ => .ok ⟨arg.name, value, arg.mask, offset, arg.size, doMask, rshiftBytes⟩

/-- What `CopyFromPacket` does between the copy and the mask. -/
def shiftAttr (fuel : Nat) (attr : Attr) (m : Mem) : Option Mem :=
  if 0 < attr.shift then shiftBytesRight fuel m attr.size attr.shift.natAbs
  else shiftBytesLeft fuel m attr.size attr.shift.natAbs

def shiftAttrSmall (attr : Attr) (m : Mem) : Option Mem :=
  if 0 < attr.shift then shiftBytesRightSmall m attr.size attr.shift.natAbs
  else shiftBytesLeftSmall m attr.size attr.shift.natAbs

/-! ## What a shift is -/

def shiftedLeft (m : Mem) (len shift : Nat) : Mem := fun i =>
  if i < len then if i + shift < len then m (i + shift) else 0 else m i

def shiftedRight (m : Mem) (len shift : Nat) : Mem := fun i =>
  if i < len then if shift ≤ i then m (i - shift) else 0 else m i

variable {m m' : Mem} {len shift p : Nat}

theorem shiftBytesLeftSmall_eq (m : Mem) (len shift : Nat) :
    shiftBytesLeftSmall m len shift = some (shiftedLeft m len shift) := by
  have hmove : 0 + (len - min shift len) ≤ len ∧ min shift len + (len - min shift len) ≤ len := by
    omega
  have hset : len - min shift len + min shift len ≤ len := by omega
  simp only [shiftBytesLeftSmall, memmove, memset, if_pos hmove, if_pos hset, Option.bind_some,
    Option.some.injEq]
  funext i
  unfold shiftedLeft
  by_cases h1 : i < len
  · by_cases h2 : i + shift < len
    · have hmin : min shift len = shift := by omega
      rw [if_neg (by omega), if_pos (by omega), if_pos h1, if_pos h2, hmin]
      congr 1
      omega
    · rw [if_pos (by omega), if_pos h1, if_neg h2]
  · rw [if_neg (by omega), if_neg (by omega), if_neg h1]

theorem shiftBytesRightSmall_eq (m : Mem) (len shift : Nat) :
    shiftBytesRightSmall m len shift = some (shiftedRight m len shift) := by
  have hmove : min shift len + (len - min shift len) ≤ len ∧ 0 + (len - min shift len) ≤ len := by
    omega
  have hset : 0 + min shift len ≤ len := by omega
  simp only [shiftBytesRightSmall, memmove, memset, if_pos hmove, if_pos hset, Option.bind_some,
    Option.some.injEq]
  funext i
  unfold shiftedRight
  by_cases h1 : i < len
  · by_cases h2 : shift ≤ i
    · have hmin : min shift len = shift := by omega
      rw [if_neg (by omega), if_pos (by omega), if_pos h1, if_pos h2, hmin]
      congr 1
      omega
    · rw [if_pos (by omega), if_pos h1, if_neg h2]
  · rw [if_neg (by omega), if_neg (by omega), if_neg h1]

/-! ## Blocks -/

theorem byte_load (m : Mem) (o n j : Nat) :
    BitVec.ofNat 8 (load m o n / 256 ^ j) = if j < n then m (o + j) else 0 := by
  split
  · rename_i hj
    obtain ⟨k, rfl⟩ := Nat.exists_eq_add_of_le (show j + 1 ≤ n from hj)
    have hone : load m (o + j) 1 = (m (o + j)).toNat := by simp [load, bytes, leNat]
    have hpos : 0 < 256 ^ j := Nat.pow_pos (by decide)
    have hlow := load_lt m o j
    rw [Nat.add_assoc, load_add, load_add, hone, Nat.add_mul_div_left _ _ hpos,
      Nat.div_eq_of_lt hlow]
    apply BitVec.eq_of_toNat_eq
    have := (m (o + j)).isLt
    simp only [BitVec.toNat_ofNat]
    omega
  · rename_i hj
    have hlt : load m o n < 256 ^ j :=
      (load_lt m o n).trans_le (Nat.pow_le_pow_right (by decide) (Nat.not_lt.mp hj))
    rw [Nat.div_eq_of_lt hlt]
    rfl

theorem shrBlock_eq (hp : p + 8 ≤ len) (hs : shift < 8) :
    ∃ m', shrBlock len m p shift = some m' ∧ ∀ i, m' i =
      if p ≤ i ∧ i < p + 8 then if i + shift < p + 8 then m (i + shift) else 0 else m i := by
  refine ⟨_, if_pos hp, fun i => ?_⟩
  have hpow : 2 ^ (shift * 8 % 64) = 256 ^ shift := by
    rw [Nat.mod_eq_of_lt (by omega), Nat.mul_comm, Nat.pow_mul]
  rw [store, hpow]
  split
  · rename_i hi
    rw [Nat.div_div_eq_div_mul, ← Nat.pow_add, byte_load]
    have hadd : p + (shift + (i - p)) = i + shift := by omega
    rw [hadd]
    by_cases h : i + shift < p + 8
    · rw [if_pos h, if_pos (by omega)]
    · rw [if_neg h, if_neg (by omega)]
  · rfl

theorem shlBlock_eq (hp : p + 8 ≤ len) (hs : shift < 8) :
    ∃ m', shlBlock len m p shift = some m' ∧ ∀ i, m' i =
      if p ≤ i ∧ i < p + 8 then if p + shift ≤ i then m (i - shift) else 0 else m i := by
  refine ⟨_, if_pos hp, fun i => ?_⟩
  have hpow : 2 ^ (shift * 8 % 64) = 256 ^ shift := by
    rw [Nat.mod_eq_of_lt (by omega), Nat.mul_comm, Nat.pow_mul]
  rw [store, hpow]
  split
  · rename_i hi
    by_cases h : p + shift ≤ i
    · obtain ⟨j, hj⟩ : ∃ j, i - p = shift + j := ⟨i - p - shift, by omega⟩
      rw [if_pos h, hj, Nat.pow_add, Nat.mul_comm (load m p 8),
        Nat.mul_div_mul_left _ _ (Nat.pow_pos (by decide)), byte_load, if_pos (by omega)]
      congr 1
      omega
    · obtain ⟨j, hj⟩ : ∃ j, shift = i - p + (j + 1) := ⟨shift - (i - p) - 1, by omega⟩
      rw [if_neg h, hj, Nat.pow_add, Nat.mul_left_comm,
        Nat.mul_div_cancel_left _ (Nat.pow_pos (by decide)), Nat.pow_succ, ← Nat.mul_assoc]
      apply BitVec.eq_of_toNat_eq
      simp
  · rfl

/-! ## The loops -/

/-- The bytes below `p` are final; those from `p + shift` on are untouched, and those between are
zero, once a block was shifted. -/
structure LeftDone (m : Mem) (len shift p : Nat) (m' : Mem) : Prop where
  le : p ≤ len
  done : ∀ i < p, i + shift < len ∧ m' i = m (i + shift)
  zero : 0 < p → ∀ i, p ≤ i → i < p + shift → m' i = 0
  rest : ∀ i, p = 0 ∨ p + shift ≤ i → m' i = m i

theorem LeftDone.step (hs : shift < 8) (h : LeftDone m len shift p m') (hp : 8 ≤ len - p) :
    ∃ m₁, shrBlock len m' p shift = some m₁ ∧ LeftDone m len shift (p + (8 - shift)) m₁ := by
  obtain ⟨m₁, hm₁, hat⟩ := shrBlock_eq (m := m') (by omega : p + 8 ≤ len) hs
  refine ⟨m₁, hm₁, by omega, fun i hi => ?_, fun _ i h1 h2 => ?_, fun i hi => ?_⟩
  · rw [hat]
    by_cases hip : i < p
    · rw [if_neg (by omega)]
      exact h.done i hip
    · rw [if_pos (by omega), if_pos (by omega)]
      exact ⟨by omega, h.rest _ (.inr (by omega))⟩
  · rw [hat, if_pos (by omega), if_neg (by omega)]
  · rw [hat, if_neg (by omega)]
    exact h.rest i (.inr (by omega))

theorem leftLoop_spec (hs : shift < 8) (fuel : Nat) (hf : len - p < fuel)
    (h : LeftDone m len shift p m') (hpos : 0 < p ∨ 8 ≤ len) :
    ∃ q m₁, leftLoop len shift fuel p m' = some (q, m₁) ∧ LeftDone m len shift q m₁ ∧
      0 < q ∧ len - q < 8 := by
  induction fuel generalizing p m' with
  | zero => omega
  | succ fuel ih =>
    have hle := h.le
    unfold leftLoop
    split
    · rename_i hp
      obtain ⟨m₁, hm₁, hnext⟩ := h.step hs hp
      rw [hm₁]
      exact ih (by omega) hnext (.inl (by omega))
    · exact ⟨p, m', rfl, h, by omega, by omega⟩

/-- What is left behind the last block is moved, and zeros come behind it. -/
theorem LeftDone.remainder (h : LeftDone m len shift p m') (hlong : shift < len - p) :
    ((memmove len m' p (p + shift) (len - p - shift)).bind fun m => memset len m (len - shift) shift) =
      some (shiftedLeft m len shift) := by
  have hle := h.le
  have hmove : p + (len - p - shift) ≤ len ∧ p + shift + (len - p - shift) ≤ len := by omega
  have hset : len - shift + shift ≤ len := by omega
  simp only [memmove, memset, if_pos hmove, if_pos hset, Option.bind_some, Option.some.injEq]
  funext i
  unfold shiftedLeft
  by_cases h1 : i < p
  · obtain ⟨hlt, hi⟩ := h.done i h1
    rw [if_neg (by omega), if_neg (by omega), if_pos (by omega), if_pos hlt, hi]
  · by_cases h2 : i + shift < len
    · rw [if_neg (by omega), if_pos (by omega), if_pos (by omega), if_pos h2,
        h.rest _ (.inr (by omega))]
      congr 1
      omega
    · by_cases h3 : i < len
      · rw [if_pos (by omega), if_pos h3, if_neg h2]
      · rw [if_neg (by omega), if_neg (by omega), if_neg h3, h.rest i (.inr (by omega))]

theorem LeftDone.no_remainder (h : LeftDone m len shift p m') (hp : 0 < p)
    (hshort : ¬ shift < len - p) : m' = shiftedLeft m len shift := by
  have hle := h.le
  funext i
  unfold shiftedLeft
  by_cases h1 : i < p
  · obtain ⟨hlt, hi⟩ := h.done i h1
    rw [if_pos (by omega), if_pos hlt, hi]
  · by_cases h2 : i < len
    · rw [if_pos h2, if_neg (by omega), h.zero hp i (by omega) (by omega)]
    · have hlast := h.done (p - 1) (by omega)
      rw [if_neg h2, h.rest i (.inr (by omega))]

theorem shiftBytesLeft_eq (m : Mem) (len shift : Nat) (h : ¬ (8 ≤ len ∧ shift = 8)) :
    shiftBytesLeft (len + 1) m len shift = some (shiftedLeft m len shift) := by
  unfold shiftBytesLeft
  split
  · exact shiftBytesLeftSmall_eq m len shift
  · have hs : shift < 8 := by omega
    have hstart : LeftDone m len shift 0 m :=
      ⟨by omega, fun i hi => absurd hi (by omega), fun h => absurd h (by omega), fun _ _ => rfl⟩
    obtain ⟨q, m₁, hloop, hdone, hq, hrest⟩ :=
      leftLoop_spec hs (len + 1) (by omega) hstart (.inr (by omega))
    rw [hloop]
    simp only [Option.bind_some]
    split
    · rename_i hlong
      exact hdone.remainder hlong
    · rename_i hshort
      rw [hdone.no_remainder hq hshort]

/-- The bytes from `leftover` on are final, and the source of the others is untouched. -/
structure RightDone (m : Mem) (len shift leftover : Nat) (m' : Mem) : Prop where
  le : leftover ≤ len
  ge : shift ≤ leftover
  done : ∀ i, leftover ≤ i → m' i = shiftedRight m len shift i
  rest : ∀ i, i + shift < leftover → m' i = m i

theorem RightDone.step {leftover : Nat} (hs : shift < 8) (h : RightDone m len shift leftover m')
    (hp : 8 ≤ leftover) :
    ∃ m₁, shlBlock len m' (leftover - 8) shift = some m₁ ∧
      RightDone m len shift (leftover - (8 - shift)) m₁ := by
  have hle := h.le
  obtain ⟨m₁, hm₁, hat⟩ := shlBlock_eq (m := m') (by omega : leftover - 8 + 8 ≤ len) hs
  refine ⟨m₁, hm₁, by omega, by omega, fun i hi => ?_, fun i hi => ?_⟩
  · rw [hat]
    by_cases hlt : i < leftover
    · rw [if_pos (by omega), if_pos (by omega), h.rest _ (by omega), shiftedRight, if_pos (by omega),
        if_pos (by omega)]
    · rw [if_neg (by omega)]
      exact h.done i (by omega)
  · rw [hat, if_neg (by omega)]
    exact h.rest i (by omega)

theorem rightLoop_spec (hs : shift < 8) (fuel : Nat) {leftover : Nat} (hf : leftover < fuel)
    (h : RightDone m len shift leftover m') :
    ∃ q m₁, rightLoop len shift fuel ((leftover : Int) - 8) leftover m' = some (q, m₁) ∧
      RightDone m len shift q m₁ := by
  induction fuel generalizing leftover m' with
  | zero => omega
  | succ fuel ih =>
    unfold rightLoop
    split
    · rename_i hp
      obtain ⟨m₁, hm₁, hnext⟩ := h.step hs (by omega)
      have hidx : ((leftover : Int) - 8).toNat = leftover - 8 := by omega
      have hptr : (leftover : Int) - 8 - (8 - shift : Nat) =
          ((leftover - (8 - shift) : Nat) : Int) - 8 := by omega
      rw [hidx, hm₁, Option.bind_some, hptr]
      exact ih (by omega) hnext
    · exact ⟨leftover, m', rfl, h⟩

theorem shiftBytesRight_eq (m : Mem) (len shift : Nat) (h : ¬ (8 ≤ len ∧ shift = 8)) :
    shiftBytesRight (len + 1) m len shift = some (shiftedRight m len shift) := by
  unfold shiftBytesRight
  split
  · exact shiftBytesRightSmall_eq m len shift
  · have hs : shift < 8 := by omega
    have hstart : RightDone m len shift len m := by
      refine ⟨le_rfl, by omega, fun i hi => ?_, fun _ _ => rfl⟩
      rw [shiftedRight, if_neg (by omega)]
    obtain ⟨q, m₁, hloop, hdone⟩ := rightLoop_spec hs (len + 1) (by omega) hstart
    have hle := hdone.le
    have hge := hdone.ge
    rw [hloop]
    simp only [Option.bind_some]
    rw [shiftBytesRightSmall_eq]
    congr 1
    funext i
    by_cases h1 : i < q
    · unfold shiftedRight
      by_cases h2 : shift ≤ i
      · rw [if_pos h1, if_pos h2, if_pos (by omega), if_pos h2, hdone.rest _ (by omega)]
      · rw [if_pos h1, if_neg h2, if_pos (by omega), if_neg h2]
    · rw [← hdone.done i (by omega), shiftedRight, if_neg h1]

/-- With a step of zero the loop goes on forever. -/
theorem leftLoop_stuck (hp : p + 8 ≤ len) (fuel : Nat) (m : Mem) :
    leftLoop len 8 fuel p m = none := by
  induction fuel generalizing m with
  | zero => rfl
  | succ fuel ih =>
    rw [leftLoop, if_pos (by omega), shrBlock, if_pos hp]
    exact ih _

theorem rightLoop_stuck (hp : p + 8 ≤ len) (fuel leftover : Nat) (m : Mem) :
    rightLoop len 8 fuel p leftover m = none := by
  induction fuel generalizing leftover m with
  | zero => rfl
  | succ fuel ih =>
    rw [rightLoop, if_pos (by omega), shlBlock, Int.toNat_natCast, if_pos hp]
    simpa using ih leftover _

theorem shiftBytesLeft_stuck (hlen : 8 ≤ len) (fuel : Nat) (m : Mem) :
    shiftBytesLeft fuel m len 8 = none := by
  rw [shiftBytesLeft, if_neg (by omega), leftLoop_stuck (by omega)]
  rfl

theorem shiftBytesRight_stuck (hlen : 8 ≤ len) (fuel : Nat) (m : Mem) :
    shiftBytesRight fuel m len 8 = none := by
  obtain ⟨p, rfl⟩ := Nat.exists_eq_add_of_le hlen
  have hptr : ((8 + p : Nat) : Int) - 8 = (p : Int) := by omega
  rw [shiftBytesRight, if_neg (by omega), hptr, rightLoop_stuck (by omega)]
  rfl

/-! ## Fast and slow shifts -/

/-- The fast version returns, with the buffer that the slow one makes of it and nothing changed
behind it. -/
def Agrees (fast : Nat → Option Mem) (slow : Option Mem) (len : Nat) (m : Mem) : Prop :=
  ∃ fuel m', fast fuel = some m' ∧ slow = some m' ∧ ∀ i, len ≤ i → m' i = m i

theorem agrees_iff {fast : Nat → Option Mem} {slow : Option Mem} {result : Mem} {stuck : Prop}
    {fuel : Nat} (hstuck : stuck → ∀ n, fast n = none) (hfast : ¬ stuck → fast fuel = some result)
    (hslow : slow = some result) (hout : ∀ i, len ≤ i → result i = m i) :
    Agrees fast slow len m ↔ ¬ stuck := by
  constructor
  · rintro ⟨n, m', hn, -⟩ h
    exact absurd (hn.symm.trans (hstuck h n)) (Option.some_ne_none m')
  · intro h
    exact ⟨fuel, result, hfast h, hslow, hout⟩

theorem left_agrees_iff (m : Mem) (len shift : Nat) :
    Agrees (shiftBytesLeft · m len shift) (shiftBytesLeftSmall m len shift) len m ↔
      ¬ (8 ≤ len ∧ shift = 8) := by
  refine agrees_iff ?_ (shiftBytesLeft_eq m len shift) (shiftBytesLeftSmall_eq m len shift)
    fun i hi => if_neg (by omega)
  rintro ⟨hlen, rfl⟩ n
  exact shiftBytesLeft_stuck hlen n m

theorem right_agrees_iff (m : Mem) (len shift : Nat) :
    Agrees (shiftBytesRight · m len shift) (shiftBytesRightSmall m len shift) len m ↔
      ¬ (8 ≤ len ∧ shift = 8) := by
  refine agrees_iff ?_ (shiftBytesRight_eq m len shift) (shiftBytesRightSmall_eq m len shift)
    fun i hi => if_neg (by omega)
  rintro ⟨hlen, rfl⟩ n
  exact shiftBytesRight_stuck hlen n m

/-- For every buffer, length and shift, and for every attribute that `SetMetadata` accepts. -/
theorem shifts_agree_iff (m : Mem) :
    (∀ len shift,
      (Agrees (shiftBytesLeft · m len shift) (shiftBytesLeftSmall m len shift) len m ∧
        Agrees (shiftBytesRight · m len shift) (shiftBytesRightSmall m len shift) len m) ↔
      ¬ (8 ≤ len ∧ shift = 8)) ∧
    ∀ register arg attr, addAttrOne register arg = .ok attr →
      (Agrees (shiftAttr · attr m) (shiftAttrSmall attr m) attr.size m ↔
        ¬ (8 ≤ attr.size ∧ attr.shift.natAbs = 8)) := by
  refine ⟨fun len shift => ?_, fun register arg attr _ => ?_⟩
  · rw [left_agrees_iff, right_agrees_iff, and_self]
  · unfold shiftAttr shiftAttrSmall
    split
    · exact right_agrees_iff m attr.size attr.shift.natAbs
    · exact left_agrees_iff m attr.size attr.shift.natAbs

/-- Nine bytes of a packet, shifted by 64 bits. -/
def nineBytes : AttrArg := ⟨"a", 9, .notSet, 0, [], 64⟩

def nineAttr : Attr := ⟨"a", 0, [], 0, 9, false, 8⟩

/-- The attribute is accepted, and the first packet never gets through. -/
theorem nineBytes_stuck : addAttrOne (fun _ _ => .ok ()) nineBytes = .ok nineAttr ∧
    ∀ fuel m, shiftAttr fuel nineAttr m = none :=
  ⟨rfl, fun fuel m => shiftBytesRight_stuck (show 8 ≤ 9 by decide) fuel m⟩

def sevenBytes : AttrArg := ⟨"a", 9, .notSet, 0, [], -56⟩

def sevenAttr : Attr := ⟨"a", 0, [], 0, 9, false, -7⟩

theorem sevenBytes_agree :
    Agrees (shiftAttr · sevenAttr fun _ => 1) (shiftAttrSmall sevenAttr fun _ => 1) 9 fun _ => 1 :=
  ((shifts_agree_iff fun _ => 1).2 (fun _ _ => .ok ()) sevenBytes sevenAttr rfl).mpr (by decide)

end Bess.Shifting
