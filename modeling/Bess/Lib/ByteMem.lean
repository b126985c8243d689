import Mathlib.Algebra.Order.Group.Nat
import Mathlib.Tactic.Ring

/-!
# Little-endian bytes

Numbers as lists of bytes, lowest byte first, and a memory that is read and written in words of any
number of bytes. A memory is a function on offsets; who reads a packet is responsible for reading
inside of it.
-/

namespace Bess.ByteMem

abbrev Byte := BitVec 8

/-- The number whose little-endian bytes are given. -/
def leNat : List Byte → Nat
  | [] => 0
  | b :: bs => b.toNat + 256 * leNat bs

theorem leNat_append (xs ys : List Byte) :
    leNat (xs ++ ys) = leNat xs + 256 ^ xs.length * leNat ys := by
  induction xs with
  | nil => simp [leNat]
  | cons x xs ih =>
    rw [List.cons_append, leNat, ih, leNat, List.length_cons, pow_succ]
    ring

theorem leNat_lt (xs : List Byte) : leNat xs < 256 ^ xs.length := by
  induction xs with
  | nil => simp [leNat]
  | cons x xs ih =>
    have hx := x.isLt
    rw [leNat, List.length_cons, pow_succ]
    omega

theorem leNat_take_lt (k : Nat) (xs : List Byte) : leNat (xs.take k) < 256 ^ k :=
  (leNat_lt _).trans_le (Nat.pow_le_pow_right (by decide) (by simp))

abbrev Mem := Nat → Byte

variable {m : Mem} {o n o' n' : Nat}

/-- The `n` bytes from offset `o` on. -/
def bytes (m : Mem) (o : Nat) : Nat → List Byte
  | 0 => []
  | n + 1 => m o :: bytes m (o + 1) n

def load (m : Mem) (o n : Nat) : Nat := leNat (bytes m o n)

/-- Writes the low `n` bytes of `v` at offset `o`. -/
def store (m : Mem) (o n v : Nat) : Mem := fun i =>
  if o ≤ i ∧ i < o + n then BitVec.ofNat 8 (v / 256 ^ (i - o)) else m i

@[simp] theorem length_bytes (m : Mem) (o n : Nat) : (bytes m o n).length = n := by
  induction n generalizing o with
  | zero => rfl
  | succ n ih => simp [bytes, ih]

theorem bytes_add (m : Mem) (o a b : Nat) : bytes m o (a + b) = bytes m o a ++ bytes m (o + a) b := by
  induction a generalizing o with
  | zero => simp [bytes]
  | succ a ih =>
    have h1 : a + 1 + b = a + b + 1 := by omega
    have h2 : o + 1 + a = o + (a + 1) := by omega
    rw [h1, bytes, ih, bytes, List.cons_append, h2]

theorem bytes_congr {m m' : Mem} (h : ∀ i, o ≤ i → i < o + n → m i = m' i) :
    bytes m o n = bytes m' o n := by
  induction n generalizing o with
  | zero => rfl
  | succ n ih =>
    rw [bytes, bytes, h o (by omega) (by omega), ih fun i h1 h2 => h i (by omega) (by omega)]

theorem load_lt (m : Mem) (o n : Nat) : load m o n < 256 ^ n := by
  simpa [load] using leNat_lt (bytes m o n)

theorem load_add (m : Mem) (o a b : Nat) :
    load m o (a + b) = load m o a + 256 ^ a * load m (o + a) b := by
  rw [load, bytes_add, leNat_append, length_bytes]
  rfl

/-! ## Reading back -/

theorem bytes_store_disjoint (v : Nat) (h : o + n ≤ o' ∨ o' + n' ≤ o) :
    bytes (store m o n v) o' n' = bytes m o' n' := by
  apply bytes_congr
  intro i h1 h2
  rw [store, if_neg (by omega)]

theorem load_store_disjoint (v : Nat) (h : o + n ≤ o' ∨ o' + n' ≤ o) :
    load (store m o n v) o' n' = load m o' n' := by
  rw [load, bytes_store_disjoint v h, load]

theorem load_store (m : Mem) (o n v : Nat) : load (store m o n v) o n = v % 256 ^ n := by
  -- the first byte, then the others as a store one byte further on
  induction n generalizing m o v with
  | zero => simp [load, bytes, leNat, Nat.mod_one]
  | succ n ih =>
    have hrest : bytes (store m o (n + 1) v) (o + 1) n =
        bytes (store m (o + 1) n (v / 256)) (o + 1) n := by
      apply bytes_congr
      intro i h1 h2
      have hi : i - o = (i - (o + 1)) + 1 := by omega
      simp only [store]
      rw [if_pos (by omega), if_pos (by omega), hi, pow_succ', Nat.div_div_eq_div_mul]
    have hfirst : store m o (n + 1) v o = BitVec.ofNat 8 v := by
      simp [store]
    rw [load, bytes, leNat, hfirst, hrest]
    have := ih m (o + 1) (v / 256)
    rw [load] at this
    rw [this, BitVec.toNat_ofNat, pow_succ' 256 n, Nat.mod_mul]

theorem store_of_not (v : Nat) {i : Nat} (h : i < o ∨ o + n ≤ i) : store m o n v i = m i := by
  rw [store, if_neg (by omega)]

end Bess.ByteMem
