import Mathlib.Algebra.Group.Nat.Defs

/-!
# Longest prefix match

A route table over addresses of `w` bits says for each prefix length and each network number, the
first bits of an address, what is installed there. `longest` searches the lengths from `n` down to 1;
`Longest` says what it finds.
-/

namespace Bess.LongestPrefix

variable {G : Type}

/-- What is installed, by length and network. -/
abbrev Table (G : Type) := Nat → Nat → Option G

/-- The first `len` bits of an address. -/
def net (w len addr : Nat) : Nat := addr / 2 ^ (w - len)

def empty : Table G := fun _ _ => none

/-- Something is installed at a prefix, or nothing. -/
def Table.put (T : Table G) (len n : Nat) (g : Option G) : Table G :=
  fun len' n' => if len' = len ∧ n' = n then g else T len' n'

/-- The match with the longest prefix among the lengths from `n` down to 1. -/
def longest (w : Nat) (T : Table G) (addr : Nat) : Nat → Option G
  | 0 => none
  | n + 1 =>
    match T (n + 1) (net w (n + 1) addr) with
    | some g => some g
    | none => longest w T addr n

/-- `len` is the greatest length up to `n` at which the address has a match. -/
def Longest (w : Nat) (T : Table G) (addr n len : Nat) (g : G) : Prop :=
  len ≤ n ∧ T len (net w len addr) = some g ∧
    ∀ len', len < len' → len' ≤ n → T len' (net w len' addr) = none

variable {w addr n : Nat} {T : Table G} {g : G}

/-- There is one longest prefix. -/
theorem Longest.unique {len len' : Nat} {g' : G} (h : Longest w T addr n len g)
    (h' : Longest w T addr n len' g') : g = g' := by
  obtain ⟨hn, hg, hnone⟩ := h
  obtain ⟨hn', hg', hnone'⟩ := h'
  rcases Nat.lt_trichotomy len len' with hlt | rfl | hlt
  · exact absurd (hg'.symm.trans (hnone len' hlt hn')) (Option.some_ne_none g')
  · exact Option.some.inj (hg.symm.trans hg')
  · exact absurd (hg.symm.trans (hnone' len hlt hn)) (Option.some_ne_none g)

theorem longest_eq_some (h : longest w T addr n = some g) :
    ∃ len, 1 ≤ len ∧ Longest w T addr n len g := by
  induction n with
  | zero => cases h
  | succ n ih =>
    rw [longest] at h
    split at h
    · rename_i g' hg
      cases h
      exact ⟨n + 1, by omega, Nat.le_refl _, hg, fun len' h1 h2 => by omega⟩
    · rename_i hnone
      obtain ⟨len, h1, hle, hg, hlonger⟩ := ih h
      refine ⟨len, h1, by omega, hg, fun len' hlt hle' => ?_⟩
      rcases Nat.lt_or_ge n len' with hlast | hin
      · have : len' = n + 1 := by omega
        rw [this]
        exact hnone
      · exact hlonger len' hlt hin

theorem longest_eq_none (h : longest w T addr n = none) (len : Nat) (h1 : 1 ≤ len) (hn : len ≤ n) :
    T len (net w len addr) = none := by
  induction n with
  | zero => omega
  | succ n ih =>
    rw [longest] at h
    split at h
    · cases h
    · rename_i hnone
      rcases Nat.lt_or_ge n len with hlast | hin
      · have : len = n + 1 := by omega
        rw [this]
        exact hnone
      · exact ih h hin

theorem longest_map {H : Type} {T' : Table H} (f : G → H)
    (h : ∀ len m, 1 ≤ len → len ≤ n → T' len m = (T len m).map f) :
    longest w T' addr n = (longest w T addr n).map f := by
  induction n with
  | zero => rfl
  | succ n ih =>
    have hlast := h (n + 1) (net w (n + 1) addr) (by omega) (Nat.le_refl _)
    rw [longest, longest, ih fun len m h1 hn => h len m h1 (by omega), hlast]
    cases T (n + 1) (net w (n + 1) addr) with
    | none => rfl
    | some g => rfl

end Bess.LongestPrefix
