import Mathlib.Init

/-!
# Commands and tasks of modules

What the modules of `modules/` answer to commands and to the scheduler.
-/

namespace Bess.Modules

/-- `CommandFailure` with its error code and its text, or with an error code alone. -/
inductive Failure
  | msg (code : Nat) (text : String)
  | errno (code : Nat)
  deriving DecidableEq, Repr

def ENOMEM : Nat := 12
def EINVAL : Nat := 22

/-- `PacketBatch::kMaxBurst` -/
def maxBurst : Nat := 32

/-- `task_result` -/
structure TaskResult where
  block : Bool
  packets : Nat
  bits : Nat
  deriving DecidableEq, Repr

/-- What is returned comes through every step. -/
theorem bind_ok {ε α β : Type} {x : Except ε α} {f : α → Except ε β} {r : β}
    (h : (x >>= f) = .ok r) : ∃ a, x = .ok a ∧ f a = .ok r := by
  cases x with
  | error e => cases h
  | ok a => exact ⟨a, rfl, h⟩

/-- A check that fails returns nothing. -/
theorem check_ok {ε β : Type} {c : Prop} [Decidable c] {e : ε} {f : Unit → Except ε β} {r : β}
    (h : (if c then Except.error e >>= f else f ()) = .ok r) : f () = .ok r := by
  split at h
  · cases h
  · exact h

end Bess.Modules
