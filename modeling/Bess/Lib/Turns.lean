import Mathlib.Data.List.Nodup

/-!
# A queue of turns

Members wait in a list and the head is served next. A served member goes to the end or leaves, others
leave from anywhere, and newcomers join at some position, ahead of the members `behind`. `overdue x d`
says of a history that `d` has waited, unserved, since `x` was last served; while no newcomer joins
ahead of a member that is overdue to it, every such `d` stands before `x` (`Ordered`), so that `x` is
not served again first.
-/

namespace Bess.Turns

variable {α : Type}

/-! ## Steps -/

inductive Act (α : Type)
  | serve (x : α)
  | retire (x : α)
  | leave
  | join (new behind : List α)

def Act.served : Act α → Option α
  | .serve x => some x
  | .retire x => some x
  | .leave => none
  | .join _ _ => none

inductive Step : List α → Act α → List α → Prop
  | serve (x : α) (rest : List α) : Step (x :: rest) (.serve x) (rest ++ [x])
  | retire (x : α) (rest : List α) : Step (x :: rest) (.retire x) rest
  | leave {turns turns' : List α} (h : turns'.Sublist turns) : Step turns .leave turns'
  | join (ahead new behind : List α) :
      Step (ahead ++ behind) (.join new behind) (ahead ++ (new ++ behind))

/-! ## The order of two members -/

/-- What leaves a list without repetitions does not change the order of what stays. -/
theorem pair_of_sublist {turns turns' : List α} {d x : α} (h : turns'.Sublist turns)
    (hn : turns.Nodup) (hp : [d, x].Sublist turns) (hd : d ∈ turns') (hx : x ∈ turns') :
    [d, x].Sublist turns' := by
  induction h with
  | slnil => exact hp
  | cons y h ih =>
    rw [List.nodup_cons] at hn
    cases hp with
    | cons _ hp => exact ih hn.2 hp hd hx
    | cons_cons _ hp => exact absurd (h.subset hd) hn.1
  | cons_cons y h ih =>
    rw [List.nodup_cons] at hn
    cases hp with
    | cons _ hp =>
      have hmem : ∀ z ∈ [d, x], z ≠ y := fun z hz he => hn.1 (he ▸ hp.subset hz)
      have hd := List.mem_of_ne_of_mem (hmem d (by simp)) hd
      have hx := List.mem_of_ne_of_mem (hmem x (by simp)) hx
      exact (ih hn.2 hp hd hx).cons y
    | cons_cons _ hp =>
      have hne : x ≠ d := fun he => hn.1 (he ▸ hp.subset (by simp))
      exact (List.singleton_sublist.mpr (List.mem_of_ne_of_mem hne hx)).cons_cons d

theorem pair_append {left right : List α} {d x : α} (hd : d ∈ left) (hx : x ∈ right) :
    [d, x].Sublist (left ++ right) :=
  (List.singleton_sublist.mpr hd).append (List.singleton_sublist.mpr hx)

/-- The head of a list without repetitions stands before everything else in it. -/
theorem not_pair_head {rest : List α} {d x : α} (hn : (x :: rest).Nodup) (hne : x ≠ d) :
    ¬ [d, x].Sublist (x :: rest) := by
  intro hp
  rw [List.nodup_cons] at hn
  cases hp with
  | cons _ hp => exact hn.1 (hp.subset (by simp))
  | cons_cons _ _ => exact hne rfl

theorem pair_tail {rest : List α} {d x y : α} (hp : [d, x].Sublist (y :: rest)) (hy : y ≠ d) :
    [d, x].Sublist rest := by
  cases hp with
  | cons _ hp => exact hp
  | cons_cons _ _ => exact absurd rfl hy

/-- A step that serves neither of two members keeps their order. -/
theorem Step.pair {turns turns' : List α} {act : Act α} {d x : α} (hs : Step turns act turns')
    (hn : turns.Nodup) (hd : act.served ≠ some d) (hd' : d ∈ turns') (hx' : x ∈ turns')
    (hp : [d, x].Sublist turns) : [d, x].Sublist turns' := by
  cases hs with
  | serve y rest =>
    have hrest := pair_tail hp fun he => hd (congrArg some he)
    exact hrest.trans (List.sublist_append_left rest [y])
  | retire y rest => exact pair_tail hp fun he => hd (congrArg some he)
  | leave h => exact pair_of_sublist h hn hp hd' hx'
  | join ahead new behind =>
    exact hp.trans ((List.Sublist.refl ahead).append (List.sublist_append_right new behind))

/-! ## Histories -/

variable [DecidableEq α]

/-- The members that waited before each step and the one it served, the latest step first. -/
abbrev History (α : Type) := List (List α × Option α)

/-- `x` has been served, and since then `d` has waited all the time without being served. -/
def overdue (x d : α) : History α → Bool
  | [] => false
  | (members, served) :: older =>
    served = some x || (d ∈ members && served ≠ some d && overdue x d older)

theorem overdue_cons {x d : α} {members : List α} {served : Option α} {h : History α} :
    overdue x d ((members, served) :: h) = true ↔
      served = some x ∨ d ∈ members ∧ served ≠ some d ∧ overdue x d h = true := by
  simp [overdue, and_assoc]

/-- Whoever is overdue to a waiting member stands before it. -/
def Ordered (h : History α) (turns : List α) : Prop :=
  ∀ x d, x ≠ d → x ∈ turns → d ∈ turns → overdue x d h = true → [d, x].Sublist turns

theorem ordered_nil {turns : List α} : Ordered [] turns := by
  intro x d _ _ _ h
  cases h

theorem Ordered.step {h : History α} {turns turns' members : List α} {act : Act α}
    (ho : Ordered h turns) (hs : Step turns act turns') (hn : turns.Nodup)
    (hmem : ∀ d ∈ members, d ∈ turns)
    (hjoin : ∀ new behind, act = .join new behind →
      ∀ x ∈ new, ∀ d ∈ behind, overdue x d h = false) :
    Ordered ((members, act.served) :: h) turns' := by
  intro x d hne hx' hd' hov
  rcases overdue_cons.mp hov with hserved | ⟨hd, hserved, hwait⟩
  · -- the step served `x`, which now stands last or has left
    cases hs with
    | serve y rest =>
      obtain rfl : y = x := Option.some.inj hserved
      have hd : d ∈ rest := by simpa [Ne.symm hne] using hd'
      exact pair_append hd (by simp)
    | retire y rest =>
      obtain rfl : y = x := Option.some.inj hserved
      exact absurd hx' (List.nodup_cons.mp hn).1
    | leave _ => cases hserved
    | join _ _ _ => cases hserved
  · have hd := hmem d hd
    by_cases hx : x ∈ turns
    · exact hs.pair hn hserved hd' hx' (ho x d hne hx hd hwait)
    · cases hs with
      | serve y rest => exact absurd (by simpa [or_comm] using hx') hx
      | retire y rest => exact absurd (List.mem_cons_of_mem y hx') hx
      | leave h => exact absurd (h.subset hx') hx
      | join ahead new behind =>
        simp only [List.mem_append, not_or] at hx hx' hd
        have hnew : x ∈ new := by tauto
        rcases hd with hd | hd
        · exact pair_append hd (List.mem_append_left behind hnew)
        · rw [hjoin new behind rfl x hnew d hd] at hwait
          cases hwait

/-- The head is served only after everyone overdue to it. -/
theorem Ordered.head {h : History α} {x d : α} {rest : List α} (ho : Ordered h (x :: rest))
    (hn : (x :: rest).Nodup) (hd : d ∈ x :: rest) (hne : x ≠ d) : overdue x d h = false := by
  cases hov : overdue x d h with
  | false => rfl
  | true => exact absurd (ho x d hne List.mem_cons_self hd hov) (not_pair_head hn hne)

end Bess.Turns
