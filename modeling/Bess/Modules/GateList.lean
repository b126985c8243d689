import Bess.Modules.Command
import Mathlib.Data.BitVec
import Mathlib.Logic.Function.Basic

/-!
# Lists of output gates

`HashLB`, `RoundRobin` and `Replicate` keep the gates they send to in an array. A request stores its
entries one by one and checks each right after it is stored, so a request that is refused has already
replaced the entries up to the one it is refused for. A gate is given as a 64-bit number and stored in
16 bits.
-/

namespace Bess.Modules

/-- `gate_idx_t` -/
abbrev Gate := BitVec 16

def gateIdx (g : Int) : Gate := BitVec.ofInt 16 g

/-- `is_valid_gate`: below `MAX_GATES`, or `DROP_GATE`. -/
def GateList.isValidGate (g : Gate) : Bool := g.toNat < 8192 ∨ g.toNat = 8192

/-- `gates_` -/
abbrev Gates := Nat → Gate

/-- Stores the entries of a request from position `i` on and stops at one that is not valid. -/
def storeGates (valid : Gate → Bool) (gates : Gates) (i : Nat) : List Int → Gates × Option Gate
  | [] => (gates, none)
  | g :: gs =>
    let gates := Function.update gates i (gateIdx g)
    if valid (gateIdx g) then storeGates valid gates (i + 1) gs else (gates, some (gateIdx g))

/-- How many entries a request stores. -/
def stored (valid : Gate → Bool) : List Int → Nat
  | [] => 0
  | g :: gs => if valid (gateIdx g) then stored valid gs + 1 else 1

variable {valid : Gate → Bool} {gates : Gates} {i k : Nat} {gs : List Int}

theorem stored_of_valid (h : ∀ g ∈ gs, valid (gateIdx g) = true) : stored valid gs = gs.length := by
  induction gs with
  | nil => rfl
  | cons g gs ih =>
    obtain ⟨hg, hgs⟩ := List.forall_mem_cons.mp h
    rw [stored, if_pos hg, ih hgs, List.length_cons]

theorem storeGates_apply (gates : Gates) (i : Nat) (gs : List Int) (k : Nat) :
    (storeGates valid gates i gs).1 k =
      if i ≤ k ∧ k < i + stored valid gs then gateIdx (gs.getD (k - i) 0) else gates k := by
  induction gs generalizing gates i with
  | nil =>
    rw [if_neg (by simp only [stored]; omega)]
    rfl
  | cons g gs ih =>
    simp only [storeGates, stored]
    split
    · rw [ih]
      by_cases hk : k = i
      · rw [if_neg (by omega), if_pos (by omega), hk, Function.update_self, Nat.sub_self]
        rfl
      · rw [Function.update_of_ne hk]
        by_cases hin : i + 1 ≤ k ∧ k < i + 1 + stored valid gs
        · obtain ⟨d, rfl⟩ := Nat.exists_eq_add_of_le hin.1
          rw [if_pos hin, if_pos (by omega), Nat.add_sub_cancel_left, Nat.add_assoc,
            Nat.add_sub_cancel_left, Nat.add_comm 1 d, List.getD_cons_succ]
        · rw [if_neg hin, if_neg (by omega)]
    · simp only
      by_cases hk : k = i
      · rw [if_pos (by omega), hk, Function.update_self, Nat.sub_self]
        rfl
      · rw [Function.update_of_ne hk, if_neg (by omega)]

theorem storeGates_none_iff :
    (storeGates valid gates i gs).2 = none ↔ ∀ g ∈ gs, valid (gateIdx g) = true := by
  induction gs generalizing gates i with
  | nil => simp [storeGates]
  | cons g gs ih =>
    rw [List.forall_mem_cons, storeGates]
    split
    · rename_i hg
      rw [ih, and_iff_right hg]
    · rename_i hg
      exact iff_of_false (Option.some_ne_none _) fun h => hg h.1

/-- After a request that is accepted the array holds its list. -/
theorem storeGates_accepted (h : (storeGates valid gates 0 gs).2 = none) (hk : k < gs.length) :
    (storeGates valid gates 0 gs).1 k = gateIdx (gs.getD k 0) := by
  rw [storeGates_apply, stored_of_valid (storeGates_none_iff.mp h), if_pos (by omega), Nat.sub_zero]

/-- A request stores nothing new at `k`. -/
theorem storeGates_eq_iff : (storeGates valid gates 0 gs).1 k = gates k ↔
    (k < stored valid gs → gateIdx (gs.getD k 0) = gates k) := by
  rw [storeGates_apply]
  split
  · rename_i hk
    exact ⟨fun heq _ => heq, fun himp => himp (by omega)⟩
  · rename_i hk
    exact iff_of_true rfl fun hlt => absurd hlt (by omega)

end Bess.Modules
