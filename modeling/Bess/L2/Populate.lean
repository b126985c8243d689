import Bess.L2.Agree
import Bess.Lib.Packing
import Bess.Utils.Headers

/-!
# The command `populate` of `L2Forward`

`CommandPopulate` enters the addresses that follow a base address. The table has an address as the
number whose lowest byte is the first one; for the count the command wants the number whose highest
byte is the first one. It swaps the bytes and shifts the two unused ones away, and then shifts by
two bytes once more: what it enters are the addresses from the first four bytes of the base on, each
behind two zero bytes. They are the right ones for the base zero only.

`parse_mac_addr`, that is `sscanf`, is a parameter. The model also returns what `l2_add_entry`
returned for each address, which the command does not look at.
-/

namespace Bess.L2

open Bess.ByteMem Bess.Packing Bess.Slots

/-! ## Addresses -/

/-- `l2_addr_to_u64` -/
def l2AddrToU64 (addr : Mem) : BitVec 64 :=
  let a : BitVec 64 := (Headers.load32 addr 0).setWidth 64
  let b : BitVec 64 := (Headers.load16 addr 4).setWidth 64
  a ||| b <<< 32

/-- The big-endian number of the six bytes of an address. -/
def macNum (addr : Mem) : Nat := leNat ((List.range 6).map fun k => addr (5 - k))

/-- The six bytes of the address of a number. -/
def macBytes (n : Nat) : Mem := fun i => byteAt n (5 - i)

/-- The address of a number, as the table has it. -/
def macKey (n : Nat) : BitVec 64 := l2AddrToU64 (macBytes n)

structure PopulateArg where
  base : String
  count : Int
  gateCount : Int

/-- Conversion to `int`. -/
def toInt (v : Int) : Int := (BitVec.ofInt 32 v).toInt

section Command

variable (parseMacAddr : String → Option Mem) (hash : BitVec 64 → BitVec 32) (avx : Bool)

/-- `i % gate_cnt` as a gate -/
def gateAt (gateCnt : Int) (i : Nat) : BitVec 16 := BitVec.ofInt 16 ((i : Int).tmod gateCnt)

/-- The addresses that are entered from number `b` on, with their gates. -/
def calls (gateCnt : Int) (b : Nat) (i : Nat) : Nat → List (BitVec 64 × BitVec 16)
  | 0 => []
  | n + 1 => (macKey (b + i), gateAt gateCnt i) :: calls gateCnt b (i + 1) n

end Command

variable {parseMacAddr : String → Option Mem} {hash : BitVec 64 → BitVec 32} {avx : Bool}
  {t t' : L2Table} {a : BitVec 64} {g : BitVec 16} {gateCnt : Int} {ret : Int}

/-- Before each addition the address is not found, the addition does what it should, and in buckets
of four slots the first one is free. -/
def Smooth (hash : BitVec 64 → BitVec 32) (avx : Bool) :
    L2Table → List (BitVec 64 × BitVec 16) → Prop
  | _, [] => True
  | t, c :: cs => find hash avx t c.1 = some none ∧ Meets hash avx t (.add c.1 c.2) ∧
    (t.bucket = 4 → (t.table (ibToOffset t (primary hash t c.1) 0)).occupied = false) ∧
    ∀ ret t', addEntry hash avx t c.1 c.2 = some (ret, t') → Smooth hash avx t' cs

/-- An entry where lookups compare. -/
def Front (t : L2Table) (x : BitVec 64 × BitVec 16) : Prop :=
  ∃ o, cells t o = some x ∧ (t.bucket = 4 → o % 4 = 0)

theorem Front.mem {x : BitVec 64 × BitVec 16} (h : Front t x) : x ∈ entries t :=
  h.imp fun _ h => h.1

variable {c : BitVec 64 × BitVec 16} {cs : List (BitVec 64 × BitVec 16)}

/-- The additions that the command makes. -/
def populateCalls (base : Mem) (arg : PopulateArg) : List (BitVec 64 × BitVec 16) :=
  calls arg.gateCount (macNum base / 2 ^ 16) 0 arg.count.toNat

/-- The base is zero, so that nothing is shifted out of it, the gates are ones that an entry can hold,
and each addition goes smoothly; or there is nothing to enter. -/
def Suits (hash : BitVec 64 → BitVec 32) (avx : Bool) (t : L2Table) (base : Mem)
    (arg : PopulateArg) : Prop :=
  macNum base = 0 ∧ (1 ≤ arg.gateCount ∧ arg.gateCount ≤ 2 ^ 15) ∧
      Smooth hash avx t (populateCalls base arg) ∨
    arg.count ≤ 0

/-- One address from 00:00:00:00:00:00 on, in a build without AVX. -/
def zeroArg : PopulateArg := ⟨"00:00:00:00:00:00", 1, 1⟩

end Bess.L2
