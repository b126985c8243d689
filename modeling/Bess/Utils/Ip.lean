import Mathlib.Data.BitVec

/-!
# Addresses as text

`ParseIpv4Address` and `ToIpv4Address` of `utils/ip.cc`. The parser is `sscanf` with `%u.%u.%u.%u`:
each number may have white space and a sign in front of it, is read as an `unsigned long` and kept as
an `unsigned int`, and what follows the fourth number is ignored. Addresses are in host order.
-/

namespace Bess.Ip

def isSpace (c : Char) : Bool := c.toNat = 32 ∨ 9 ≤ c.toNat ∧ c.toNat ≤ 13

/-- The digits as a number. -/
def decimal (ds : List Char) : Nat := ds.foldl (fun n c => 10 * n + (c.toNat - 48)) 0

/-- A sign and what follows it. -/
def scanSign : List Char → Bool × List Char
  | '-' :: s => (true, s)
  | '+' :: s => (false, s)
  | s => (false, s)

/-- `strtoul`, kept as an `unsigned int` -/
def toUnsigned (negative : Bool) (n : Nat) : Nat :=
  let v := if 2 ^ 64 ≤ n then 2 ^ 64 - 1 else if negative then (2 ^ 64 - n) % 2 ^ 64 else n
  v % 2 ^ 32

/-- `%u` -/
def scanUnsigned (s : List Char) : Option (Nat × List Char) :=
  let (negative, s) := scanSign (s.dropWhile isSpace)
  let ds := s.takeWhile Char.isDigit
  if ds = [] then none else some (toUnsigned negative (decimal ds), s.dropWhile Char.isDigit)

/-- `.%u` -/
def scanDotted : List Char → Option (Nat × List Char)
  | '.' :: s => scanUnsigned s
  | _ => none

def parseIpv4Address (str : String) : Option (BitVec 32) := do
  let s := str.toList.takeWhile (· ≠ '\x00')
  let (a, s) ← scanUnsigned s
  let (b, s) ← scanDotted s
  let (c, s) ← scanDotted s
  let (d, _) ← scanDotted s
  if a ≥ 256 ∨ b ≥ 256 ∨ c ≥ 256 ∨ d ≥ 256 then none
  else some (BitVec.ofNat 32 a <<< 24 ||| BitVec.ofNat 32 b <<< 16 ||| BitVec.ofNat 32 c <<< 8 |||
    BitVec.ofNat 32 d)

/-- `%hhu` -/
def printByte (b : BitVec 8) : List Char := Nat.toDigits 10 b.toNat

def toIpv4Address (addr : BitVec 32) : String :=
  .ofList (printByte (addr.extractLsb' 24 8) ++ '.' :: (printByte (addr.extractLsb' 16 8) ++
    '.' :: (printByte (addr.extractLsb' 8 8) ++ '.' :: printByte (addr.extractLsb' 0 8))))

/-! ## Printed numbers are read back -/

variable {ds rest : List Char}

theorem scanUnsigned_digits (hne : ds ≠ []) (hds : ∀ c ∈ ds, c.isDigit = true)
    (hrest : rest.takeWhile Char.isDigit = []) :
    scanUnsigned (ds ++ rest) = some (toUnsigned false (decimal ds), rest) := by
  obtain ⟨c, cs, rfl⟩ := List.exists_cons_of_ne_nil hne
  have hc := hds c List.mem_cons_self
  have hspace : ¬ isSpace c = true := by
    simp only [Char.isDigit, isSpace, Bool.and_eq_true, decide_eq_true_eq, ge_iff_le,
      UInt32.le_iff_toNat_le, Char.reduceVal, UInt32.reduceToNat, Char.toNat] at hc ⊢
    omega
  have hsign : scanSign (c :: (cs ++ rest)) = (false, c :: (cs ++ rest)) := by
    unfold scanSign
    split
    · rename_i h
      cases h
      exact absurd hc (by decide)
    · rename_i h
      cases h
      exact absurd hc (by decide)
    · rfl
  have hdrop : rest.dropWhile Char.isDigit = rest := by
    have := List.takeWhile_append_dropWhile (p := Char.isDigit) (l := rest)
    rwa [hrest, List.nil_append] at this
  unfold scanUnsigned
  rw [List.cons_append, List.dropWhile_cons_of_neg hspace, hsign]
  simp only
  rw [← List.cons_append, List.takeWhile_append_of_pos hds, List.dropWhile_append_of_pos hds, hrest,
    hdrop, List.append_nil, if_neg hne]

theorem printByte_spec (b : BitVec 8) : printByte b ≠ [] ∧
    (∀ c ∈ printByte b, c.isDigit = true) ∧ decimal (printByte b) = b.toNat := by
  have hall : ∀ n < 256, printByte (BitVec.ofNat 8 n) ≠ [] ∧
      (printByte (BitVec.ofNat 8 n)).all Char.isDigit = true ∧
      decimal (printByte (BitVec.ofNat 8 n)) = (BitVec.ofNat 8 n).toNat := by decide +kernel
  have hb := hall b.toNat b.isLt
  rwa [BitVec.ofNat_toNat, BitVec.setWidth_eq, List.all_eq_true] at hb

theorem scanUnsigned_printByte (b : BitVec 8) (hrest : rest.takeWhile Char.isDigit = []) :
    scanUnsigned (printByte b ++ rest) = some (b.toNat, rest) := by
  obtain ⟨hne, hds, hval⟩ := printByte_spec b
  have hb := b.isLt
  have hsmall : toUnsigned false b.toNat = b.toNat := by
    simp only [toUnsigned, Bool.false_eq_true, if_false]
    rw [if_neg (by omega), Nat.mod_eq_of_lt (by omega)]
  rw [scanUnsigned_digits hne hds hrest, hval, hsmall]

theorem isDigit_ne_nul {c : Char} (h : c.isDigit = true) : decide (c ≠ '\x00') = true := by
  rw [decide_eq_true_iff]
  rintro rfl
  exact absurd h (by decide)

theorem takeWhile_printByte (b : BitVec 8) :
    (printByte b ++ rest).takeWhile (fun c => decide (c ≠ '\x00')) =
      printByte b ++ rest.takeWhile fun c => decide (c ≠ '\x00') :=
  List.takeWhile_append_of_pos fun c hc => isDigit_ne_nul ((printByte_spec b).2.1 c hc)

theorem takeWhile_dot :
    ('.' :: rest).takeWhile (fun c => decide (c ≠ '\x00')) =
      '.' :: rest.takeWhile fun c => decide (c ≠ '\x00') := rfl

theorem join_bytes (a : BitVec 32) :
    BitVec.ofNat 32 (a.extractLsb' 24 8).toNat <<< 24 |||
      BitVec.ofNat 32 (a.extractLsb' 16 8).toNat <<< 16 |||
      BitVec.ofNat 32 (a.extractLsb' 8 8).toNat <<< 8 |||
      BitVec.ofNat 32 (a.extractLsb' 0 8).toNat = a := by
  apply BitVec.eq_of_getLsbD_eq
  intro i hi
  simp only [BitVec.ofNat_toNat, BitVec.getLsbD_or, BitVec.getLsbD_shiftLeft,
    BitVec.getLsbD_setWidth, BitVec.getLsbD_extractLsb']
  grind

theorem parse_toIpv4Address (addr : BitVec 32) :
    parseIpv4Address (toIpv4Address addr) = some addr := by
  have hlast (b : BitVec 8) : scanUnsigned (printByte b) = some (b.toNat, []) := by
    have hscan : scanUnsigned (printByte b ++ []) = some (b.toNat, []) :=
      scanUnsigned_printByte b rfl
    rwa [List.append_nil] at hscan
  have hall (b : BitVec 8) :
      (printByte b).takeWhile (fun c => decide (c ≠ '\x00')) = printByte b := by
    have htake : (printByte b ++ []).takeWhile (fun c => decide (c ≠ '\x00')) =
        printByte b ++ [].takeWhile fun c => decide (c ≠ '\x00') := takeWhile_printByte b
    rwa [List.append_nil, List.takeWhile_nil, List.append_nil] at htake
  have hdot (s : List Char) : ('.' :: s).takeWhile Char.isDigit = [] := rfl
  unfold parseIpv4Address toIpv4Address
  simp only [String.toList_ofList, takeWhile_printByte, takeWhile_dot, hall,
    scanUnsigned_printByte _ (hdot _), Option.bind_eq_bind, Option.bind_some, scanDotted, hlast]
  have hlt (b : BitVec 8) : ¬ b.toNat ≥ 256 := not_le.mpr b.isLt
  rw [if_neg (by simp only [hlt, or_self, not_false_eq_true]), join_bytes]

end Bess.Ip
