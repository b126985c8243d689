import Bess.Sched.Fair

/-!
# What a blocked child of a weighted fair class owes

`pass` and `remain` are one word, and a child comes back with `NextPass() + remain`. The word should
hold what the child owes: the pass increment of the run in which it became blocked, or nothing if it
was not running. `Penalty` keeps that number beside the class.

The accounting stores the increment, but `AddChild` puts the pass of a new child into the word even if
the child is blocked, and `BlockTowardsRoot` moves a child with the pass it has. The word is right
throughout a run exactly when these passes are 0.
-/

namespace Bess.Sched.WeightedFair

open Bess.Heap Bess.PriorityQueue

variable {S : StdHeap} {B : TcId → Bool} {w : WeightedFair} {e : FairCall} {es : List FairCall}

/-! ## What is owed -/

/-- What each child owes since it became blocked. -/
abbrev Penalty := TcId → Int64

/-- The child that `BlockTowardsRoot` takes out of the heap. -/
def blockedBy (S : StdHeap) (B : TcId → Bool) (w : WeightedFair) : Option FairChild :=
  (deleteSingleElement S passComp (fun d => B d.c) w.runnable).map (·.1)

/-- A child that is run to its block owes the increment; one that is blocked otherwise owes nothing. -/
def owe (S : StdHeap) (w : WeightedFair) (R : Penalty) : FairCall → Penalty
  | .addChild B child _ => if B child then Function.update R child 0 else R
  | .block B =>
    match w.blockedBy S B with
    | some d => Function.update R d.c 0
    | none => R
  | .finish true usage =>
    match w.runnable with
    | item :: _ => Function.update R item.c (passDelta item (usage.get w.resource)).toInt64
    | [] => R
  | _ => R

/-- The loop of `UnblockTowardsRoot` if each child came back with what it owes. -/
def reenter (S : StdHeap) (B : TcId → Bool) (R : Penalty) :
    List FairChild → List FairChild → List FairChild × List FairChild
  | [], runnable => (runnable, [])
  | d :: ds, runnable =>
    if B d.c then
      let rest := reenter S B R ds runnable
      (rest.1, d :: rest.2)
    else reenter S B R ds (S.push passComp runnable { d with pass := nextPass runnable + R d.c })

/-- Each blocked child has in its word what it owes, and comes back with it. -/
structure RemainRight (S : StdHeap) (w : WeightedFair) (R : Penalty) : Prop where
  remain : ∀ d ∈ w.blocked, d.pass = R d.c
  back : ∀ B, w.unblock S B =
    { w with
      runnable := (reenter S B R w.blocked w.runnable).1
      blocked := (reenter S B R w.blocked w.runnable).2 }

/-- The words are right in every state of the run. -/
def AlwaysRight (S : StdHeap) : WeightedFair → Penalty → List FairCall → Prop
  | w, R, [] => RemainRight S w R
  | w, R, e :: es => RemainRight S w R ∧ AlwaysRight S (w.call S e) (owe S w R e) es

/-- A blocked child is added, or a child blocked that did not run, only with a pass of 0. -/
def NoPassKept (S : StdHeap) (w : WeightedFair) : FairCall → Prop
  | .addChild B child share => share ≠ 0 → B child = true → nextPass w.runnable = 0
  | .block B => ∀ d, w.blockedBy S B = some d → d.pass = 0
  | _ => True

/-! ## One call -/

variable {R : Penalty}

theorem wakeFair_eq_reenter (bs : List FairChild) (r : List FairChild)
    (h : ∀ d ∈ bs, d.pass = R d.c) : wakeFair S B bs r = reenter S B R bs r := by
  induction bs generalizing r with
  | nil => rfl
  | cons d bs ih =>
    have hbs : ∀ d ∈ bs, d.pass = R d.c := fun d hd => h d (List.mem_cons_of_mem _ hd)
    unfold wakeFair reenter
    split
    · rw [ih r hbs]
    · rw [h d List.mem_cons_self]
      exact ih _ hbs

theorem remainRight_iff : RemainRight S w R ↔ ∀ d ∈ w.blocked, d.pass = R d.c := by
  refine ⟨fun h => h.remain, fun h => ⟨h, fun B => ?_⟩⟩
  unfold WeightedFair.unblock
  rw [wakeFair_eq_reenter w.blocked w.runnable h]

theorem remain_append {bs : List FairChild} {d : FairChild} {x : Int64}
    (h : ∀ b ∈ bs, b.pass = R b.c) (hnew : ∀ b ∈ bs, b.c ≠ d.c) :
    (∀ b ∈ bs ++ [d], b.pass = Function.update R d.c x b.c) ↔ d.pass = x := by
  constructor
  · intro hall
    have := hall d (List.mem_append_right _ List.mem_cons_self)
    rwa [Function.update_self] at this
  · intro hx b hb
    rcases List.mem_append.mp hb with hb | hb
    · rw [Function.update_of_ne (hnew b hb)]
      exact h b hb
    · obtain rfl := List.mem_singleton.mp hb
      rw [Function.update_self]
      exact hx

theorem addChild_remain {child : TcId} {share : Int32} (h : w.Sound)
    (hl : child ∉ w.all.map (·.1)) (hr : ∀ d ∈ w.blocked, d.pass = R d.c) :
    (∀ d ∈ (w.call S (.addChild B child share)).blocked,
      d.pass = owe S w R (.addChild B child share) d.c) ↔
    NoPassKept S w (.addChild B child share) := by
  have hne : ∀ d ∈ w.blocked, d.c ≠ child := by
    intro d hd he
    apply hl
    rw [← he]
    exact h.split.subset (List.mem_map_of_mem (List.mem_append_right _ hd))
  simp only [call, addChild, owe, NoPassKept]
  by_cases hshare : share = 0
  · simp only [if_pos hshare, Option.map_none, Option.getD_none]
    refine ⟨fun _ hs => absurd hshare hs, fun _ d hd => ?_⟩
    split
    · rw [Function.update_of_ne (hne d hd)]
      exact hr d hd
    · exact hr d hd
  · cases hb : B child with
    | false =>
      simp only [if_neg hshare, Bool.false_eq_true, if_false, Option.map_some, Option.getD_some,
        false_implies, implies_true, iff_true]
      exact hr
    | true =>
      simp only [if_neg hshare, if_true, Option.map_some, Option.getD_some]
      have happ := remain_append (d := ⟨(stride1 / share).toInt64, nextPass w.runnable, child⟩)
        (x := 0) hr hne
      exact happ.trans ⟨fun hp _ _ => hp, fun hp => hp hshare trivial⟩

theorem block_remain (h : w.Sound) (hr : ∀ d ∈ w.blocked, d.pass = R d.c) :
    (∀ d ∈ (w.call S (.block B)).blocked, d.pass = owe S w R (.block B) d.c) ↔
      NoPassKept S w (.block B) := by
  simp only [call, block, owe, NoPassKept, blockedBy]
  rcases deleteSingleElement_spec S passComp_strictWeak (fun d => B d.c) w.runnable with
    ⟨-, heq⟩ | ⟨x, v, heq, -, hperm, -⟩
  · simp only [heq, Option.map_none, reduceCtorEq, false_implies, implies_true, iff_true]
    exact hr
  · simp only [heq, Option.map_some]
    have hmem : x ∈ w.runnable := hperm.symm.subset List.mem_cons_self
    have hne : ∀ b ∈ w.blocked, b.c ≠ x.c := by
      intro b hb he
      have hn := h.nodup_split
      rw [List.map_append] at hn
      exact (List.nodup_append.mp hn).2.2 _ (List.mem_map_of_mem hmem) _ (List.mem_map_of_mem hb)
        he.symm
    rw [remain_append hr hne]
    exact ⟨fun hp d hd => Option.some.inj hd ▸ hp, fun hp => hp x rfl⟩

theorem finish_remain {b : Bool} {usage : Usage} (h : w.Sound)
    (hr : ∀ d ∈ w.blocked, d.pass = R d.c) :
    ∀ d ∈ (w.call S (.finish b usage)).blocked, d.pass = owe S w R (.finish b usage) d.c := by
  cases b with
  | false =>
    simp only [call, finish, owe]
    cases hrun : w.runnable with
    | nil => exact hr
    | cons item rest => exact hr
  | true =>
    simp only [call, finish, owe]
    cases hrun : w.runnable with
    | nil => exact hr
    | cons item rest =>
      have hne : ∀ b ∈ w.blocked, b.c ≠ item.c := by
        intro b hb he
        have hn := h.nodup_split
        rw [hrun, List.map_append] at hn
        exact (List.nodup_append.mp hn).2.2 _ (List.mem_map_of_mem List.mem_cons_self) _
          (List.mem_map_of_mem hb) he.symm
      exact (remain_append (d := { item with
        pass := (passDelta item (usage.get w.resource)).toInt64 }) hr hne).mpr rfl

theorem removeChild_blocked {child : TcId} {d : FairChild}
    (hd : d ∈ (w.removeChild S child).1.blocked) : d ∈ w.blocked := by
  unfold removeChild at hd
  simp only at hd
  split at hd
  · exact List.mem_of_mem_eraseP hd
  · split at hd <;> exact hd

/-- A call leaves the words right exactly when it does not keep a pass as a penalty. -/
theorem Sound.remain_call (h : w.Sound) (hl : w.Legal e) (hr : RemainRight S w R) :
    RemainRight S (w.call S e) (owe S w R e) ↔ NoPassKept S w e := by
  rw [remainRight_iff] at hr ⊢
  cases e with
  | addChild B child share => exact addChild_remain h hl hr
  | block B => exact block_remain h hr
  | finish b usage => exact ⟨fun _ => trivial, fun _ => finish_remain h hr⟩
  | removeChild child => exact ⟨fun _ => trivial, fun _ d hd => hr d (removeChild_blocked hd)⟩
  | unblock B =>
    exact ⟨fun _ => trivial, fun _ d hd => hr d ((wakeFair_mem w.blocked h.heap).2 d hd)⟩

/-! ## Runs -/

theorem Sound.alwaysRight_iff (h : w.Sound) (hl : Along S Legal w es)
    (hr : RemainRight S w R) : AlwaysRight S w R es ↔ Along S (NoPassKept S) w es := by
  induction es generalizing w R with
  | nil => exact ⟨fun _ => trivial, fun _ => hr⟩
  | cons e es ih =>
    have hstep := h.remain_call (S := S) hl.1 hr
    have hsound := (h.call (S := S) hl.1).1
    constructor
    · rintro ⟨-, htail⟩
      have hr' : RemainRight S (w.call S e) (owe S w R e) := by
        cases es with
        | nil => exact htail
        | cons e' es => exact htail.1
      exact ⟨hstep.mp hr', (ih hsound hl.2 hr').mp htail⟩
    · rintro ⟨hk, hks⟩
      exact ⟨hr, (ih hsound hl.2 (hstep.mpr hk)).mpr hks⟩

/-- Over every run of a weighted fair class from its creation: each blocked child has its penalty in
`remain` and comes back with it, in every state, exactly when no call keeps a pass as a penalty. -/
theorem remain_right_iff (S : StdHeap) (resource : Resource) (es : List FairCall)
    (hl : Along S Legal (empty resource) es) :
    AlwaysRight S (empty resource) (fun _ => 0) es ↔
      Along S (NoPassKept S) (empty resource) es := by
  refine (empty_sound resource).alwaysRight_iff hl (remainRight_iff.mpr fun d hd => ?_)
  cases hd

/-- A child with share 1 runs once; then a blocked child is added. -/
def lateChild : List FairCall :=
  [.addChild (fun _ => false) 1 1, .finish false ⟨1, 100, 1, 512⟩, .addChild (fun c => c == 2) 2 1]

/-- A child with share 1 runs once; then it is blocked because its own children were removed. -/
def laterBlocked : List FairCall :=
  [.addChild (fun _ => false) 1 1, .finish false ⟨1, 100, 1, 512⟩, .block fun c => c == 1]

/-- Neither child was run when it became blocked, but each has 1024 in its word; the late child comes
back 1024 behind `NextPass()`. -/
theorem remain_wrong :
    ((empty .count).calls .sorted lateChild).blocked = [⟨1048576, 1024, 2⟩] ∧
      ((empty .count).calls .sorted (lateChild ++ [.unblock fun _ => false])).runnable =
        [⟨1048576, 1024, 1⟩, ⟨1048576, 2048, 2⟩] ∧
      ((empty .count).calls .sorted laterBlocked).blocked = [⟨1048576, 1024, 1⟩] := by
  decide +kernel

/-- A child that blocks in its own run. -/
def soleChild : List FairCall :=
  [.addChild (fun _ => false) 1 1, .finish true ⟨1, 100, 1, 512⟩, .unblock fun _ => false]

theorem soleChild_remain_right : AlwaysRight .sorted (empty .count) (fun _ => 0) soleChild := by
  have hl : Along .sorted Legal (empty .count) soleChild :=
    ⟨List.not_mem_nil, trivial, trivial, trivial⟩
  have hk : Along .sorted (NoPassKept .sorted) (empty .count) soleChild :=
    ⟨fun _ hb => absurd hb Bool.false_ne_true, trivial, trivial, trivial⟩
  exact (remain_right_iff .sorted .count soleChild hl).mpr hk

end Bess.Sched.WeightedFair
