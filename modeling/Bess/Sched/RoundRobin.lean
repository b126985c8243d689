import Bess.Sched.Tidy
import Bess.Lib.Turns
import Mathlib.Data.List.Rotate

/-!
# A round-robin class over whole runs

The runnable children, read from `next_child_` on around the end of the vector, are a queue of turns:
each member function of the class is one of its steps. A child that becomes runnable is appended to
the vector, so in the queue it joins ahead of the children before `next_child_`, which have been
waiting longer; that is where the turns can get out of order.
-/

namespace Bess.Sched

open Bess.Turns

/-! ## The calls -/

/-- A call of a member function, with the children's `blocked_` flags at that time. `run` is
`PickNextChild`, the child's run and `FinishAndAccountTowardsRoot`. -/
inductive RoundRobin.Event
  | add (child : TcId) (B : TcId → Bool)
  | remove (child : TcId) (B : TcId → Bool)
  | unblock (B : TcId → Bool)
  | block (B : TcId → Bool)
  | run (childBlocked : Bool) (usage : Usage)

def RoundRobin.pickNextChild (r : RoundRobin) : Option TcId := r.runnable[r.nextChild]?

/-- The class after a call. A child that has a parent is not added again, a vector holds fewer than
2^64 pointers, and a run that does not block counts as one. -/
def RoundRobin.step (r : RoundRobin) : Event → Option RoundRobin
  | .add child B =>
    if child ∈ r.all then some r
    else if UInt64.size ≤ r.all.length + 1 then none
    else some ((r.addChild B child).unblock B)
  | .remove child B =>
    match r.removeChild child with
    | (r, .block) => some (r.block B)
    | (r, _) => some r
  | .unblock B => some (r.unblock B)
  | .block B => some (r.block B)
  | .run childBlocked usage =>
    match r.pickNextChild with
    | none => none
    | some child =>
      if childBlocked || usage.count = 1 then some (r.finish child childBlocked usage) else none

/-- The child that a call picks. -/
def RoundRobin.picked (r : RoundRobin) : Event → Option TcId
  | .run _ _ => r.pickNextChild
  | _ => none

/-- The call makes `x` runnable. -/
def RoundRobin.Admits (r : RoundRobin) (x : TcId) : Event → Prop
  | .add child B => child ∉ r.all ∧ (x = child ∨ x ∈ r.blocked) ∧ B x = false
  | .unblock B => x ∈ r.blocked ∧ B x = false
  | _ => False

/-- The calls made on a new class, each of which meets `P`, with the history of its picks. -/
inductive RoundRobin.Walk (P : History TcId → RoundRobin → Event → Prop) :
    History TcId → RoundRobin → Prop
  | new : Walk P [] ⟨0, [], [], []⟩
  | step {h : History TcId} {r r' : RoundRobin} {e : Event} (hw : Walk P h r) (hP : P h r e)
      (hs : r.step e = some r') : Walk P ((r.runnable, r.picked e) :: h) r'

/-! ## The class as a queue of turns -/

structure RoundRobin.Sound (r : RoundRobin) : Prop where
  parts : r.Parts
  nodup : r.all.Nodup
  size : r.all.length < UInt64.size

def RoundRobin.turns (r : RoundRobin) : List TcId := r.runnable.rotate r.nextChild

namespace RoundRobin

variable {r r' : RoundRobin} {B : TcId → Bool} {child x d : TcId} {e : Event}

theorem mem_turns : x ∈ r.turns ↔ x ∈ r.runnable := List.mem_rotate

theorem Parts.next_le (h : r.Parts) : r.nextChild ≤ r.runnable.length := by
  rcases h.next with h | h <;> omega

theorem Parts.turns_eq (h : r.Parts) :
    r.turns = r.runnable.drop r.nextChild ++ r.runnable.take r.nextChild :=
  List.rotate_eq_drop_append_take h.next_le

theorem Sound.nodup_lists (h : r.Sound) : (r.runnable ++ r.blocked).Nodup :=
  h.parts.split.nodup_iff.mpr h.nodup

theorem Sound.nodup_turns (h : r.Sound) : r.turns.Nodup :=
  List.nodup_rotate.mpr (List.nodup_append.mp h.nodup_lists).1

theorem Sound.runnable_lt (h : r.Sound) : r.runnable.length < UInt64.size := by
  have hlen := h.parts.split.length_eq
  have hsize := h.size
  rw [List.length_append] at hlen
  omega

theorem Parts.next_lt (h : r.Parts) (hr : r.runnable ≠ []) : r.nextChild < r.runnable.length := by
  have := List.length_pos_of_ne_nil hr
  rcases h.next with h | h <;> omega

theorem turns_of_pick (hp : r.pickNextChild = some x) :
    r.turns = x :: (r.runnable.drop (r.nextChild + 1) ++ r.runnable.take r.nextChild) := by
  obtain ⟨hlt, rfl⟩ := List.getElem?_eq_some_iff.mp hp
  rw [turns, List.rotate_eq_drop_append_take hlt.le, List.drop_eq_getElem_cons hlt, List.cons_append]

/-! ## Accounting -/

theorem rotate_wrap {l : List TcId} {k : Nat} (hk : k ≤ l.length) :
    l.rotate (if k ≥ l.length then 0 else k) = l.rotate k := by
  split
  · obtain rfl : k = l.length := by omega
    rw [List.rotate_zero, List.rotate_length]
  · rfl

variable {usage : Usage}

/-- A run that does not block sends its child to the end. -/
theorem turns_advance (hr : r.Sound) (hp : r.pickNextChild = some x) (hu : usage.count = 1) :
    (r.finish x false usage).turns =
      r.runnable.drop (r.nextChild + 1) ++ r.runnable.take r.nextChild ++ [x] := by
  obtain ⟨hlt, _⟩ := List.getElem?_eq_some_iff.mp hp
  have hsize := hr.runnable_lt
  have hmod : (r.nextChild + usage.count.toNat) % UInt64.size = r.nextChild + 1 := by
    rw [hu, show (1 : UInt64).toNat = 1 from rfl, Nat.mod_eq_of_lt (by omega)]
  have hnext : (r.finish x false usage).turns = r.runnable.rotate (r.nextChild + 1) := by
    simp only [turns, finish, wrap, hmod, Bool.false_eq_true, if_false]
    exact rotate_wrap hlt
  rw [hnext, ← List.rotate_rotate, ← turns, turns_of_pick hp, List.rotate_cons_succ,
    List.rotate_zero]

theorem turns_retire (hp : r.pickNextChild = some x) : (r.finish x true usage).turns =
      r.runnable.drop (r.nextChild + 1) ++ r.runnable.take r.nextChild := by
  obtain ⟨hlt, _⟩ := List.getElem?_eq_some_iff.mp hp
  have hlen : r.nextChild ≤ (r.runnable.eraseIdx r.nextChild).length := by
    rw [List.length_eraseIdx_of_lt hlt]; omega
  have htake : (r.runnable.take r.nextChild).length = r.nextChild := by
    rw [List.length_take]; omega
  have hturns : (r.finish x true usage).turns =
      (r.runnable.eraseIdx r.nextChild).rotate r.nextChild := by
    simp only [turns, finish, wrap, if_true]
    exact rotate_wrap hlen
  rw [hturns, List.eraseIdx_eq_take_drop_succ]
  nth_rewrite 3 [← htake]
  rw [List.rotate_append_length_eq]

/-! ## Erasing -/

/-- Erasing one runnable child, with the index corrected, takes it out of the turns. -/
theorem rotate_stepBack {before after : List TcId} {next : Nat}
    (hnext : next < (before ++ x :: after).length ∨ next = 0) :
    ((before ++ after).rotate (stepBack next before.length (before ++ after).length)).Sublist
      ((before ++ x :: after).rotate next) := by
  have hle : next ≤ (before ++ x :: after).length := by omega
  rw [List.length_append, List.length_cons] at hnext
  simp only [stepBack]
  by_cases hlt : next > before.length
  · obtain ⟨m, rfl⟩ : ∃ m, next = before.length + (m + 1) := ⟨next - before.length - 1, by omega⟩
    have hm : before.length + m ≤ (before ++ after).length := by
      rw [List.length_append]; omega
    rw [if_pos hlt, show before.length + (m + 1) - 1 = before.length + m by omega, rotate_wrap hm,
      ← List.rotate_rotate, ← List.rotate_rotate, List.rotate_append_length_eq,
      List.rotate_append_length_eq, List.cons_append, List.rotate_cons_succ,
      List.rotate_eq_drop_append_take (by rw [List.length_append]; omega),
      List.rotate_eq_drop_append_take (by simp only [List.length_append]; omega)]
    rw [List.append_assoc, List.drop_append_of_le_length (by omega),
      List.drop_append_of_le_length (by omega), List.take_append_of_le_length (by omega),
      List.take_append_of_le_length (by omega)]
    simp
  · have hk : next ≤ before.length := by omega
    have hm : next ≤ (before ++ after).length := by
      rw [List.length_append]; omega
    rw [if_neg hlt, rotate_wrap hm, List.rotate_eq_drop_append_take hm,
      List.rotate_eq_drop_append_take hle, List.drop_append_of_le_length hk,
      List.drop_append_of_le_length hk, List.take_append_of_le_length hk,
      List.take_append_of_le_length hk]
    exact ((List.Sublist.refl _).append (List.sublist_cons_self x after)).append_right _

theorem blockLoop_turns (cs kept : List TcId) (next : Nat) (blocked : List TcId)
    (hnext : next < (kept ++ cs).length ∨ next = 0) :
    ((blockLoop B cs kept next blocked).1.rotate (blockLoop B cs kept next blocked).2.1).Sublist
      ((kept ++ cs).rotate next) := by
  induction cs generalizing kept next blocked with
  | nil =>
    rw [List.append_nil]
    exact List.Sublist.refl _
  | cons c cs ih =>
    simp only [blockLoop]
    split
    · rw [← List.length_append]
      refine (ih kept _ _ (stepBack_lt ?_)).trans (rotate_stepBack hnext)
      rw [List.length_append, List.length_cons] at hnext
      rw [List.length_append]
      omega
    · rw [List.append_cons kept] at hnext
      rw [List.append_cons kept c cs]
      exact ih (kept ++ [c]) next blocked hnext

theorem Parts.block_turns (h : r.Parts) : (r.block B).turns.Sublist r.turns :=
  blockLoop_turns r.runnable [] r.nextChild r.blocked h.next

theorem Parts.removeChild_turns (h : r.Parts) (hc : child ∈ r.all) :
    (r.removeChild child).1.turns.Sublist r.turns := by
  rcases h.removeChild_cases hc with ⟨_, heq⟩ | ⟨before, after, hrun, heq⟩
  · rw [heq]
    exact List.Sublist.refl _
  · have hnext := h.next
    rw [hrun] at hnext
    rw [heq, turns, turns, hrun]
    exact rotate_stepBack hnext

theorem Parts.removeChild_missing (h : r.Parts) (hc : child ∉ r.all) :
    r.removeChild child = (r, .missing) := by
  have hnot : child ∉ r.runnable ∧ child ∉ r.blocked := by
    rw [← not_or, ← List.mem_append]
    exact fun hmem => hc (h.split.subset hmem)
  have hfind : (r.runnable.findIdx? fun c => c == child) = none := by
    refine List.findIdx?_eq_none_iff.mpr fun c hmem => beq_eq_false_iff_ne.mpr ?_
    rintro rfl
    exact hnot.1 hmem
  simp [RoundRobin.removeChild, hnot.2, hfind, List.erase_of_not_mem hc]

/-! ## Joining -/

/-- Children appended to the vector join ahead of those before `next_child_`. -/
theorem Parts.join (h : r.Parts) {new : List TcId} (hrun : r'.runnable = r.runnable ++ new)
    (hnext : r'.nextChild = r.nextChild) :
    Step r.turns (.join new (r.runnable.take r.nextChild)) r'.turns := by
  have hturns : r'.turns =
      r.runnable.drop r.nextChild ++ (new ++ r.runnable.take r.nextChild) := by
    have hle := h.next_le
    rw [turns, hrun, hnext, List.rotate_eq_drop_append_take (by rw [List.length_append]; omega),
      List.drop_append_of_le_length hle, List.take_append_of_le_length hle, List.append_assoc]
  rw [hturns, h.turns_eq]
  exact .join _ _ _

/-! ## Every call is a step of the queue -/

/-- The step that a call makes: it serves the picked child, and what joins is what the call makes
runnable. -/
structure Makes (r : RoundRobin) (e : Event) (act : Act TcId) (r' : RoundRobin) : Prop where
  step : Step r.turns act r'.turns
  served : act.served = r.picked e
  joins : ∀ new behind, act = .join new behind →
    behind = r.runnable.take r.nextChild ∧ ∀ x ∈ new, r.Admits x e

theorem Sound.add (h : r.Sound) (hs : r.step (.add child B) = some r') :
    r'.Sound ∧ ∃ act, r.Makes (.add child B) act r' := by
  simp only [RoundRobin.step] at hs
  split at hs
  · cases hs
    exact ⟨h, .leave, .leave (List.Sublist.refl _), rfl, by simp⟩
  split at hs
  · cases hs
  rename_i hnew hsize
  cases hs
  have hall : ((r.addChild B child).unblock B).all = r.all ++ [child] := addChild_all
  refine ⟨⟨h.parts.addChild.unblock, ?_, ?_⟩, ?_⟩
  · rw [hall, List.nodup_append]
    refine ⟨h.nodup, List.nodup_singleton _, fun c hc d hd he => hnew ?_⟩
    rwa [← List.mem_singleton.mp hd, ← he]
  · rw [hall, List.length_append, List.length_singleton]
    omega
  · cases hb : B child with
    | true =>
      have hrun : ((r.addChild B child).unblock B).runnable =
          r.runnable ++ r.blocked.filter fun c => !B c := by
        simp [addChild, unblock, hb]
      refine ⟨_, h.parts.join hrun (by simp [addChild, unblock, hb]), rfl, ?_⟩
      rintro _ _ ⟨rfl, rfl⟩
      refine ⟨rfl, fun x hx => ?_⟩
      have hx := List.mem_filter.mp hx
      exact ⟨hnew, .inr hx.1, by simpa using hx.2⟩
    | false =>
      have hrun : ((r.addChild B child).unblock B).runnable =
          r.runnable ++ child :: r.blocked.filter fun c => !B c := by
        simp [addChild, unblock, hb]
      refine ⟨_, h.parts.join hrun (by simp [addChild, unblock, hb]), rfl, ?_⟩
      rintro _ _ ⟨rfl, rfl⟩
      refine ⟨rfl, fun x hx => ?_⟩
      rcases List.mem_cons.mp hx with rfl | hx
      · exact ⟨hnew, .inl rfl, hb⟩
      · have hx := List.mem_filter.mp hx
        exact ⟨hnew, .inr hx.1, by simpa using hx.2⟩

theorem Sound.unblock (h : r.Sound) :
    (r.unblock B).Sound ∧ ∃ act, r.Makes (.unblock B) act (r.unblock B) := by
  refine ⟨⟨h.parts.unblock, h.nodup, h.size⟩, _, h.parts.join rfl rfl, rfl, ?_⟩
  rintro _ _ ⟨rfl, rfl⟩
  refine ⟨rfl, fun x hx => ?_⟩
  have hx := List.mem_filter.mp hx
  exact ⟨hx.1, by simpa using hx.2⟩

theorem Sound.block (h : r.Sound) : (r.block B).Sound :=
  ⟨h.parts.block, h.nodup, h.size⟩

theorem Sound.removeChild (h : r.Sound) (hc : child ∈ r.all) : (r.removeChild child).1.Sound := by
  have hall : (r.removeChild child).1.all = r.all.erase child := by
    rcases h.parts.removeChild_cases hc with ⟨_, heq⟩ | ⟨_, _, _, heq⟩ <;> rw [heq]
  refine ⟨h.parts.removeChild hc, ?_, ?_⟩
  · rw [hall]
    exact h.nodup.erase child
  · rw [hall]
    exact (List.length_erase_le).trans_lt h.size

theorem Sound.remove (h : r.Sound) (hs : r.step (.remove child B) = some r') :
    r'.Sound ∧ r'.turns.Sublist r.turns := by
  by_cases hc : child ∈ r.all
  · have hsound := h.removeChild hc
    have hturns := h.parts.removeChild_turns hc
    simp only [RoundRobin.step] at hs
    split at hs
    · rename_i r₁ heq
      cases hs
      rw [heq] at hsound hturns
      exact ⟨hsound.block, hsound.parts.block_turns.trans hturns⟩
    · rename_i r₁ _ _ heq
      cases hs
      rw [heq] at hsound hturns
      exact ⟨hsound, hturns⟩
  · simp only [RoundRobin.step, h.parts.removeChild_missing hc] at hs
    cases hs
    exact ⟨h, List.Sublist.refl _⟩

theorem Sound.run (h : r.Sound) {childBlocked : Bool}
    (hs : r.step (.run childBlocked usage) = some r') :
    r'.Sound ∧ ∃ act, r.Makes (.run childBlocked usage) act r' := by
  simp only [RoundRobin.step] at hs
  cases hp : r.pickNextChild with
  | none => simp [hp] at hs
  | some x =>
    simp only [hp] at hs
    split at hs
    · rename_i hu
      cases hs
      refine ⟨⟨h.parts.finish hp, ?_, ?_⟩, ?_⟩
      · rw [finish_all]
        exact h.nodup
      · rw [finish_all]
        exact h.size
      · cases childBlocked with
        | true =>
          refine ⟨.retire x, ?_, hp.symm, by simp⟩
          rw [turns_of_pick hp, turns_retire hp]
          exact .retire x _
        | false =>
          refine ⟨.serve x, ?_, hp.symm, by simp⟩
          rw [turns_of_pick hp, turns_advance h hp (by simpa using hu)]
          exact .serve x _
    · cases hs

theorem Sound.step (h : r.Sound) (hs : r.step e = some r') :
    r'.Sound ∧ ∃ act, r.Makes e act r' := by
  cases e with
  | add child B => exact h.add hs
  | remove child B =>
    obtain ⟨hsound, hturns⟩ := h.remove hs
    exact ⟨hsound, .leave, .leave hturns, rfl, by simp⟩
  | unblock B =>
    cases hs
    exact h.unblock
  | block B =>
    cases hs
    exact ⟨h.block, .leave, .leave h.parts.block_turns, rfl, by simp⟩
  | run childBlocked usage => exact h.run hs

/-! ## Whole runs -/

variable {P : History TcId → RoundRobin → Event → Prop} {h : History TcId}

theorem Walk.sound (hw : Walk P h r) : r.Sound := by
  induction hw with
  | new => exact ⟨⟨.inr rfl, List.Perm.refl _⟩, List.nodup_nil, by decide⟩
  | step _ _ hs ih => exact (ih.step hs).1

theorem Walk.mono {Q : History TcId → RoundRobin → Event → Prop} (hw : Walk P h r)
    (hPQ : ∀ h r e, P h r e → Q h r e) : Walk Q h r := by
  induction hw with
  | new => exact .new
  | step _ hP hs ih => exact .step ih (hPQ _ _ _ hP) hs

/-- No child becomes runnable while one before the index has waited since its last pick. -/
def Polite (h : History TcId) (r : RoundRobin) (e : Event) : Prop :=
  ∀ x, r.Admits x e → ∀ d ∈ r.runnable.take r.nextChild, overdue x d h = false

theorem Walk.ordered (hw : Walk Polite h r) : Ordered h r.turns := by
  induction hw with
  | new => exact ordered_nil
  | step hw hpolite hs ih =>
    obtain ⟨-, act, hmakes⟩ := hw.sound.step hs
    rw [← hmakes.served]
    refine ih.step hmakes.step hw.sound.nodup_turns (fun d hd => mem_turns.mpr hd) ?_
    intro new behind hact x hx d hd
    obtain ⟨rfl, hadmits⟩ := hmakes.joins new behind hact
    exact hpolite x (hadmits x hx) d hd

theorem Walk.exists_pick (hw : Walk P h r) (hr : r.runnable ≠ []) :
    ∃ x ∈ r.runnable, r.pickNextChild = some x := by
  have hlt := hw.sound.parts.next_lt hr
  exact ⟨r.runnable[r.nextChild], List.getElem_mem hlt, List.getElem?_eq_getElem hlt⟩

/-- No other runnable child has waited since the child that is next was last picked. -/
def InTurn (h : History TcId) (r : RoundRobin) : Prop :=
  ∀ x, r.pickNextChild = some x → ∀ d ∈ r.runnable, d ≠ x → overdue x d h = false

theorem Walk.inTurn (hw : Walk Polite h r) : InTurn h r := by
  intro x hx d hd hne
  have hordered := hw.ordered
  have hnodup := hw.sound.nodup_turns
  have hmem := mem_turns.mpr hd
  rw [turns_of_pick hx] at hordered hnodup hmem
  exact hordered.head hnodup hmem (Ne.symm hne)

/-- After any calls there is a next pick whenever a child is runnable; if no child became runnable
ahead of one that had waited since its last pick, the picks are in turn. -/
theorem picks_in_turn (hw : Walk P h r) :
    (r.runnable ≠ [] → ∃ x ∈ r.runnable, r.pickNextChild = some x) ∧
      ((∀ h r e, P h r e → Polite h r e) → InTurn h r) :=
  ⟨hw.exists_pick, fun hP => (hw.mono hP).inTurn⟩

/-- Two children that never block take turns. -/
theorem two_children_in_turn :
    InTurn [([1, 2], some 2), ([1, 2], some 1), ([1], none), ([], none)] ⟨0, [1, 2], [], [1, 2]⟩ := by
  have empty : ∀ (h : History TcId) (runnable all : List TcId) (e : Event),
      Polite h ⟨0, runnable, [], all⟩ e := by
    intro h runnable all e x _ d hd
    simp at hd
  have hwalk := Walk.new (P := Polite)
    |>.step (e := .add 1 fun _ => false) (empty _ _ _ _) rfl
    |>.step (e := .add 2 fun _ => false) (empty _ _ _ _) rfl
    |>.step (e := .run false ⟨1, 0, 0, 0⟩) (empty _ _ _ _) rfl
    |>.step (e := .run false ⟨1, 0, 0, 0⟩) (fun _ h => h.elim) rfl
  exact (picks_in_turn hwalk).2 fun _ _ _ => id

/-- Child 2 blocks in its run while child 1 has had its turn, and becomes runnable again before child 1
is next: it then runs twice while child 1 waits. -/
theorem unblocked_overtakes :
    ∃ h r, Walk (fun _ _ _ => True) h r ∧ r.pickNextChild = some 2 ∧ 1 ∈ r.runnable ∧
      overdue 2 1 h = true := by
  refine ⟨_, _, Walk.new
    |>.step (e := .add 1 fun _ => false) trivial rfl
    |>.step (e := .add 2 fun _ => false) trivial rfl
    |>.step (e := .add 3 fun _ => false) trivial rfl
    |>.step (e := .run false ⟨1, 0, 0, 0⟩) trivial rfl
    |>.step (e := .run true ⟨1, 0, 0, 0⟩) trivial rfl
    |>.step (e := .unblock fun _ => false) trivial rfl
    |>.step (e := .run false ⟨1, 0, 0, 0⟩) trivial rfl, ?_⟩
  decide

end RoundRobin
end Bess.Sched
