import Bess.Lib.ByteMem
import Bess.Modules.Command
import Mathlib.Data.List.GetD
import Mathlib.Data.List.TakeWhile

/-!
# Rewriting packets with templates

`modules/rewrite.cc` overwrites packets with a list of templates in turn. The templates are repeated in
the slots behind the list, so that a batch can take consecutive slots, and `jump_` holds the turn that
follows. But `jump_` is filled only from the number of templates on. A batch that does not reach that
slot takes its next turn from an entry that was never written, or that is left from a shorter list; a
full batch from the last of 32 templates reads behind the array.

A request that is refused for a template that is too big has stored the templates before it, in slots
that repeat the list.
-/

namespace Bess.Modules

open Bess.ByteMem

abbrev Template := List Byte

/-- A slot is a template with its size. An entry of `jump_` that was never written has no value. -/
structure Rewrite where
  nextTurn : Nat
  jump : Nat → Option Nat
  numTemplates : Nat
  slots : Nat → Template

namespace Rewrite

def kNumSlots : Nat := maxBurst * 2 - 1

def kMaxTemplateSize : Nat := 1536

def fresh : Rewrite := ⟨0, fun _ => none, 0, fun _ => []⟩

def tooMany (curr count : Nat) : Failure :=
  .msg EINVAL ("max 32 packet templates can be used " ++ toString curr ++ " " ++ toString count)

def tooBig : Failure := .msg EINVAL "template is too big"

/-- The first loop of `CommandAdd`, and whether it came to its end. -/
def storeTemplates (slots : Nat → Template) (pos : Nat) : List Template → (Nat → Template) × Bool
  | [] => (slots, true)
  | t :: ts =>
    if kMaxTemplateSize < t.length then (slots, false)
    else storeTemplates (Function.update slots pos t) (pos + 1) ts

/-- One turn of the second loop. -/
def repeatSlot (n : Nat) (s : Rewrite) (i : Nat) : Rewrite :=
  { s with
    slots := Function.update s.slots i (s.slots (i % n))
    jump := Function.update s.jump i (some (i % n)) }

def commandAdd (s : Rewrite) (templates : List Template) : Option Failure × Rewrite :=
  let curr := s.numTemplates
  if maxBurst < curr + templates.length then (some (tooMany curr templates.length), s)
  else
    match storeTemplates s.slots curr templates with
    | (slots, false) => (some tooBig, { s with slots })
    | (slots, true) =>
      let n := curr + templates.length
      let s := { s with slots, numTemplates := n }
      if n = 0 then (none, s)
      else (none, (List.range' n (kNumSlots - n)).foldl (repeatSlot n) s)

def commandClear (s : Rewrite) : Rewrite := { s with nextTurn := 0, numTemplates := 0 }

/-- The contents given to the packets of a batch; `none` if an array is read out of bounds or where
nothing was written. -/
def doRewrite (s : Rewrite) (cnt : Nat) : Option (List Template × Rewrite) :=
  let start := s.nextTurn
  if start + cnt < kNumSlots then
    (s.jump (start + cnt)).map fun next =>
      ((List.range cnt).map fun i => s.slots (start + i), { s with nextTurn := next })
  else none

def doRewriteSingle (s : Rewrite) (cnt : Nat) : List Template := List.replicate cnt (s.slots 0)

def processBatch (s : Rewrite) (cnt : Nat) : Option (List Template × Rewrite) :=
  if s.numTemplates = 1 then some (s.doRewriteSingle cnt, s)
  else if 1 < s.numTemplates then s.doRewrite cnt
  else some ([], s)

/-! ## Histories -/

inductive Op
  | add (templates : List Template)
  | clear
  | batch (cnt : Fin (maxBurst + 1))

/-- The templates accepted since the last `clear` and the one whose turn it is. `spoiled` is what
refused requests have left in the slots behind the templates. -/
structure Cycle where
  templates : List Template
  turn : Nat
  spoiled : List Template

namespace Cycle

def start : Cycle := ⟨[], 0, []⟩

def fitting (t : Template) : Bool := t.length ≤ kMaxTemplateSize

def add (a : Cycle) (templates : List Template) : Cycle :=
  if maxBurst < a.templates.length + templates.length then a
  else if templates.all fitting then ⟨a.templates ++ templates, a.turn, []⟩
  else
    let stored := templates.takeWhile fitting
    { a with spoiled := stored ++ a.spoiled.drop stored.length }

/-- The templates of the next `cnt` packets, in cyclic order. -/
def given (a : Cycle) (cnt : Nat) : List Template :=
  if a.templates = [] then []
  else (List.range cnt).map fun i => a.templates.getD ((a.turn + i) % a.templates.length) []

def advance (a : Cycle) (cnt : Nat) : Cycle :=
  { a with turn := (a.turn + cnt) % a.templates.length }

def next (a : Cycle) : Op → Cycle
  | .add templates => a.add templates
  | .clear => start
  | .batch cnt => if a.templates = [] then a else a.advance cnt

/-- With two templates or more, the batch goes beyond the last one, but not beyond the last slot, and
finds the slots there as they were filled. -/
def Fits (a : Cycle) (cnt : Nat) : Prop :=
  2 ≤ a.templates.length →
    a.templates.length ≤ a.turn + cnt ∧ a.turn + cnt < kNumSlots ∧
      ∀ i < cnt, a.templates.length ≤ a.turn + i →
        ∀ t ∈ a.spoiled[a.turn + i - a.templates.length]?,
          t = a.templates.getD ((a.turn + i) % a.templates.length) []

/-- Every batch of a history fits. -/
def AllFit (a : Cycle) : List Op → Prop
  | [] => True
  | op :: ops => (∀ cnt, op = .batch cnt → a.Fits cnt) ∧ (a.next op).AllFit ops

end Cycle

/-- The module after an operation; `none` if the operation goes wrong. -/
def step (s : Rewrite) : Op → Option Rewrite
  | .add templates => some (s.commandAdd templates).2
  | .clear => some s.commandClear
  | .batch cnt => (s.processBatch cnt).map Prod.snd

/-- A history in which every batch is given the templates in cyclic order with no access out of
bounds, and `next_turn_` is the turn of the cycle, below the number of templates. -/
def InStep (s : Rewrite) (a : Cycle) : List Op → Prop
  | [] => True
  | op :: ops =>
    ∃ s', s.step op = some s' ∧
      (∀ cnt, op = .batch cnt → (s.processBatch cnt).map Prod.fst = some (a.given cnt)) ∧
      s'.nextTurn = (a.next op).turn ∧
      (s'.numTemplates ≠ 0 → s'.nextTurn < s'.numTemplates) ∧ InStep s' (a.next op) ops

/-! ## Storing templates -/

variable {s s' : Rewrite} {a : Cycle} {n i : Nat}

theorem storeTemplates_eq (slots : Nat → Template) (pos : Nat) (ts : List Template) :
    storeTemplates slots pos ts =
      (fun i => if pos ≤ i then (ts.takeWhile Cycle.fitting)[i - pos]?.getD (slots i) else slots i,
        ts.all Cycle.fitting) := by
  induction ts generalizing slots pos with
  | nil => simp [storeTemplates]
  | cons t ts ih =>
    by_cases ht : t.length ≤ kMaxTemplateSize
    · have hfit : Cycle.fitting t = true := decide_eq_true ht
      rw [storeTemplates, if_neg (Nat.not_lt.mpr ht), ih, List.takeWhile_cons_of_pos hfit,
        List.all_cons, hfit, Bool.true_and]
      refine Prod.ext (funext fun i => ?_) rfl
      simp only
      by_cases hlt : pos + 1 ≤ i
      · have hsub : i - pos = i - (pos + 1) + 1 := by omega
        rw [if_pos hlt, if_pos (by omega), hsub, List.getElem?_cons_succ,
          Function.update_of_ne (by omega)]
      · rw [if_neg hlt]
        by_cases heq : i = pos
        · subst heq
          simp
        · rw [Function.update_of_ne heq, if_neg (by omega)]
    · have hfit : ¬ Cycle.fitting t = true := fun h => ht (of_decide_eq_true h)
      rw [storeTemplates, if_pos (Nat.not_le.mp ht), List.takeWhile_cons_of_neg hfit, List.all_cons,
        Bool.eq_false_iff.mpr hfit]
      simp

theorem update_after_range {α : Type} (f g : Nat → α) (n k : Nat) :
    Function.update (fun i => if n ≤ i ∧ i < n + k then g i else f i) (n + k) (g (n + k)) =
      fun i => if n ≤ i ∧ i < n + (k + 1) then g i else f i := by
  funext i
  by_cases hi : i = n + k
  · subst hi
    rw [Function.update_self, if_pos (by omega)]
  · rw [Function.update_of_ne hi]
    by_cases hr : n ≤ i ∧ i < n + k
    · rw [if_pos hr, if_pos (by omega)]
    · rw [if_neg hr, if_neg (by omega)]

/-- The second loop repeats the first `n` slots behind them. -/
theorem repeatSlots_eq (hn : 0 < n) (k : Nat) (s : Rewrite) :
    (List.range' n k).foldl (repeatSlot n) s =
      { s with
        slots := fun i => if n ≤ i ∧ i < n + k then s.slots (i % n) else s.slots i
        jump := fun i => if n ≤ i ∧ i < n + k then some (i % n) else s.jump i } := by
  induction k with
  | zero =>
    have hnone : ∀ i, ¬ (n ≤ i ∧ i < n + 0) := fun i => by omega
    simp only [List.range'_zero, List.foldl_nil, hnone, if_false]
  | succ k ih =>
    -- the slot that is repeated is one of the first `n`, which the loop leaves alone
    have hfirst : ¬ (n ≤ (n + k) % n ∧ (n + k) % n < n + k) :=
      fun h => Nat.not_le.mpr (Nat.mod_lt _ hn) h.1
    rw [List.range'_concat, List.foldl_append, ih]
    simp only [Nat.one_mul, List.foldl_cons, List.foldl_nil, repeatSlot, if_neg hfirst]
    rw [update_after_range s.slots fun i => s.slots (i % n),
      update_after_range s.jump fun i => some (i % n)]

/-! ## The module and the cycle -/

/-- How the module stands to the cycle. No entry of `jump_` is its own index: an entry is taken modulo
a number of templates that it is not below. -/
structure Follows (s : Rewrite) (a : Cycle) : Prop where
  num : s.numTemplates = a.templates.length
  few : a.templates.length ≤ maxBurst
  turn : s.nextTurn = a.turn
  turnLt : a.templates ≠ [] → a.turn < a.templates.length
  turnZero : a.templates = [] → a.turn = 0
  slots : ∀ i < a.templates.length, s.slots i = a.templates.getD i []
  behind : a.templates ≠ [] → ∀ i, a.templates.length ≤ i → i < kNumSlots →
    s.slots i = a.spoiled[i - a.templates.length]?.getD (a.templates.getD (i % a.templates.length) [])
  jump : a.templates ≠ [] → ∀ i, a.templates.length ≤ i → i < kNumSlots →
    s.jump i = some (i % a.templates.length)
  stale : ∀ i, s.jump i ≠ some i

theorem follows_fresh : Follows fresh Cycle.start where
  num := rfl
  few := Nat.zero_le _
  turn := rfl
  turnLt h := absurd rfl h
  turnZero _ := rfl
  slots i hi := absurd hi (Nat.not_lt_zero i)
  behind h := absurd rfl h
  jump h := absurd rfl h
  stale i := (Option.some_ne_none i).symm

theorem Follows.commandClear (h : Follows s a) : Follows s.commandClear Cycle.start where
  num := rfl
  few := Nat.zero_le _
  turn := rfl
  turnLt h := absurd rfl h
  turnZero _ := rfl
  slots i hi := absurd hi (Nat.not_lt_zero i)
  behind h := absurd rfl h
  jump h := absurd rfl h
  stale := h.stale

/-- A refused request spoils slots behind the templates. -/
theorem Follows.spoil (h : Follows s a) (ts : List Template) :
    Follows { s with slots := (storeTemplates s.slots s.numTemplates ts).1 }
      { a with spoiled := ts.takeWhile Cycle.fitting ++
          a.spoiled.drop (ts.takeWhile Cycle.fitting).length } := by
  rw [storeTemplates_eq, h.num]
  refine ⟨rfl, h.few, h.turn, h.turnLt, h.turnZero, fun i hi => ?_, fun hne i hi hlt => ?_, h.jump,
    h.stale⟩
  · simp only [if_neg (Nat.not_le.mpr hi)]
    exact h.slots i hi
  · simp only [if_pos hi]
    rw [List.getElem?_append, h.behind hne i hi hlt]
    split
    · rename_i hin
      rw [List.getElem?_eq_getElem hin]
      rfl
    · rename_i hout
      have hsum : (ts.takeWhile Cycle.fitting).length + (i - a.templates.length -
          (ts.takeWhile Cycle.fitting).length) = i - a.templates.length := by omega
      rw [List.getElem?_eq_none (Nat.not_lt.mp hout), List.getElem?_drop, hsum]
      rfl

/-- An accepted request fills all slots anew. -/
theorem Follows.store (h : Follows s a) {ts : List Template} (hall : ts.all Cycle.fitting = true)
    (hfew : a.templates.length + ts.length ≤ maxBurst) (hpos : 0 < a.templates.length + ts.length) :
    Follows ((List.range' (a.templates.length + ts.length)
        (kNumSlots - (a.templates.length + ts.length))).foldl
          (repeatSlot (a.templates.length + ts.length))
          { s with
            slots := (storeTemplates s.slots s.numTemplates ts).1
            numTemplates := a.templates.length + ts.length })
      ⟨a.templates ++ ts, a.turn, []⟩ := by
  have hlen : (a.templates ++ ts).length = a.templates.length + ts.length := List.length_append
  have hne : a.templates ++ ts ≠ [] := List.ne_nil_of_length_pos (hlen ▸ hpos)
  have htake : ts.takeWhile Cycle.fitting = ts :=
    List.takeWhile_eq_self_iff.mpr (List.all_eq_true.mp hall)
  -- the slots below the number of templates hold them
  have hstored : ∀ i < (a.templates ++ ts).length,
      (storeTemplates s.slots s.numTemplates ts).1 i = (a.templates ++ ts).getD i [] := fun i hi => by
    rw [storeTemplates_eq, h.num, htake]
    simp only
    split
    · rename_i hge
      have hin : i - a.templates.length < ts.length := by omega
      rw [List.getD_append_right _ _ _ _ hge, List.getElem?_eq_getElem hin,
        List.getD_eq_getElem _ _ hin]
      rfl
    · rename_i hlt
      rw [List.getD_append _ _ _ _ (Nat.not_le.mp hlt)]
      exact h.slots i (Nat.not_le.mp hlt)
  have hslots : kNumSlots = 63 := rfl
  have hburst : maxBurst = 32 := rfl
  have hend : a.templates.length + ts.length + (kNumSlots - (a.templates.length + ts.length)) =
      kNumSlots := by omega
  rw [repeatSlots_eq hpos, hend, ← hlen]
  refine ⟨rfl, hlen ▸ hfew, h.turn, fun _ => ?_, fun he => absurd he hne, fun i hi => ?_,
    fun _ i hi hlt => ?_, fun _ i hi hlt => if_pos ⟨hi, hlt⟩, fun i => ?_⟩
  · by_cases hold : a.templates = []
    · rw [h.turnZero hold, hlen]
      exact hpos
    · have := h.turnLt hold
      rw [hlen]
      exact Nat.lt_of_lt_of_le this (Nat.le_add_right _ _)
  · simp only [if_neg fun hc : _ ∧ _ => Nat.not_le.mpr hi hc.1]
    exact hstored i hi
  · simp only [if_pos (show _ ∧ _ from ⟨hi, hlt⟩)]
    exact hstored _ (Nat.mod_lt _ (hlen ▸ hpos))
  · simp only
    split
    · rename_i hr
      have hmod : i % (a.templates ++ ts).length < (a.templates ++ ts).length :=
        Nat.mod_lt _ (hlen ▸ hpos)
      intro he
      have := Option.some.inj he
      omega
    · exact h.stale i

theorem Follows.commandAdd (h : Follows s a) (ts : List Template) :
    Follows (s.commandAdd ts).2 (a.add ts) := by
  unfold Rewrite.commandAdd Cycle.add
  simp only [h.num]
  split
  · exact h
  rename_i hfew
  have hok : (storeTemplates s.slots a.templates.length ts).2 = ts.all Cycle.fitting := by
    rw [storeTemplates_eq]
  have hspoil := h.spoil ts
  have hstore := @Follows.store s a h ts
  rw [h.num] at hspoil hstore
  rcases hst : storeTemplates s.slots a.templates.length ts with ⟨slots, ok⟩
  rw [hst] at hok hspoil hstore
  cases ok with
  | false =>
    rw [if_neg (by rw [← hok]; exact Bool.false_ne_true)]
    exact hspoil
  | true =>
    rw [if_pos hok.symm]
    simp only
    split
    · rename_i hzero
      have hnil : a.templates = [] := List.eq_nil_of_length_eq_zero (by omega)
      have hnil' : ts = [] := List.eq_nil_of_length_eq_zero (by omega)
      have hempty : a.templates ++ ts = [] := by rw [hnil, hnil']; rfl
      exact ⟨by rw [hempty]; exact hzero, by rw [hempty]; exact Nat.zero_le _, h.turn,
        fun hne => absurd hempty hne, fun _ => h.turnZero hnil,
        fun i hi => absurd hi (by rw [hempty]; exact Nat.not_lt_zero i),
        fun hne => absurd hempty hne, fun hne => absurd hempty hne, h.stale⟩
    · exact hstore hok.symm (Nat.not_lt.mp hfew) (by omega)

/-! ## Batches -/

/-- With two templates or more, what a batch is given and the next turn are right if and only if the
batch fits. -/
theorem Follows.doRewrite_iff (h : Follows s a) (htwo : 2 ≤ a.templates.length) (cnt : Nat) :
    (∃ s', s.doRewrite cnt = some (a.given cnt, s') ∧ s'.nextTurn = (a.advance cnt).turn) ↔
      a.Fits cnt := by
  have hne : a.templates ≠ [] := List.ne_nil_of_length_pos (by omega)
  have hturn := h.turnLt hne
  have hgiven : a.given cnt = (List.range cnt).map fun i =>
      a.templates.getD ((a.turn + i) % a.templates.length) [] := if_neg hne
  unfold doRewrite Cycle.Fits
  simp only [h.turn, hgiven]
  constructor
  · rintro ⟨s', hs', hnext⟩ -
    split at hs'
    swap
    · cases hs'
    rename_i hlt
    obtain ⟨next, hjump, heq⟩ := Option.map_eq_some_iff.mp hs'
    obtain ⟨hslots, rfl⟩ := Prod.mk.inj heq
    have hnext : next = (a.turn + cnt) % a.templates.length := hnext
    refine ⟨?_, hlt, fun i hi hge t ht => ?_⟩
    · -- an entry below the number of templates is never its own index
      by_contra hshort
      rw [Nat.mod_eq_of_lt (Nat.not_le.mp hshort)] at hnext
      exact h.stale _ (hnext ▸ hjump)
    · have hslot := List.map_inj_left.mp hslots i (List.mem_range.mpr hi)
      rw [h.behind hne _ hge (by omega), Option.mem_def.mp ht] at hslot
      exact hslot
  · intro hfits
    obtain ⟨hlong, hlt, hclean⟩ := hfits htwo
    refine ⟨{ s with nextTurn := (a.turn + cnt) % a.templates.length }, ?_, rfl⟩
    rw [if_pos hlt, h.jump hne _ hlong hlt, Option.map_some]
    refine congrArg some (Prod.ext (List.map_congr_left fun i hi => ?_) rfl)
    have hi := List.mem_range.mp hi
    by_cases hin : a.turn + i < a.templates.length
    · rw [h.slots _ hin, Nat.mod_eq_of_lt hin]
    · have hge := Nat.not_lt.mp hin
      rw [h.behind hne _ hge (by omega)]
      cases ht : a.spoiled[a.turn + i - a.templates.length]? with
      | none => rfl
      | some t => exact hclean i hi hge t (Option.mem_def.mpr ht)

theorem Follows.advance (h : Follows s a) (hne : a.templates ≠ []) (cnt : Nat)
    (hs' : s' = { s with nextTurn := (a.advance cnt).turn }) : Follows s' (a.advance cnt) := by
  subst hs'
  have hpos : 0 < a.templates.length := List.length_pos_iff.mpr hne
  exact ⟨h.num, h.few, rfl, fun _ => Nat.mod_lt _ hpos, fun he => absurd he hne, h.slots, h.behind,
    h.jump, h.stale⟩

/-- One template is given to every packet. -/
theorem Follows.processBatch_single (h : Follows s a) (hone : a.templates.length = 1) (cnt : Nat) :
    s.processBatch cnt = some (a.given cnt, s) ∧ s.nextTurn = (a.advance cnt).turn := by
  have hne : a.templates ≠ [] := List.ne_nil_of_length_pos (by omega)
  have hturn := h.turnLt hne
  have hmod : ∀ k, k % a.templates.length = 0 := fun k => by rw [hone, Nat.mod_one]
  refine ⟨?_, ?_⟩
  · rw [processBatch, if_pos (h.num.trans hone), doRewriteSingle, Cycle.given, if_neg hne,
      h.slots 0 (by omega)]
    simp only [hmod, List.map_const', List.length_range]
  · have hzero : (a.advance cnt).turn = 0 := hmod _
    rw [h.turn, hzero]
    omega

theorem Follows.processBatch_none (h : Follows s a) (hnil : a.templates = []) (cnt : Nat) :
    s.processBatch cnt = some (a.given cnt, s) := by
  have hzero : s.numTemplates = 0 := by rw [h.num, hnil]; rfl
  rw [processBatch, hzero, if_neg (by decide), if_neg (by decide), Cycle.given, if_pos hnil]

/-- One batch: it is in step if and only if it fits, and then the module follows the cycle on. -/
theorem Follows.batch_iff (h : Follows s a) (cnt : Fin (maxBurst + 1)) :
    (∃ s', s.step (.batch cnt) = some s' ∧
      (s.processBatch cnt).map Prod.fst = some (a.given cnt) ∧
      s'.nextTurn = (a.next (.batch cnt)).turn) ↔ a.Fits cnt := by
  by_cases hnil : a.templates = []
  · refine iff_of_true ⟨s, ?_, ?_, ?_⟩ fun htwo => ?_
    · rw [step, h.processBatch_none hnil]
      rfl
    · rw [h.processBatch_none hnil]
      rfl
    · rw [Cycle.next, if_pos hnil]
      exact h.turn
    · rw [hnil] at htwo
      exact absurd htwo (by decide)
  have hnext : a.next (.batch cnt) = a.advance cnt := if_neg hnil
  rw [hnext]
  by_cases hone : a.templates.length = 1
  · obtain ⟨hbatch, hturn⟩ := h.processBatch_single hone cnt
    refine iff_of_true ⟨s, ?_, ?_, hturn⟩ fun htwo => ?_
    · rw [step, hbatch]
      rfl
    · rw [hbatch]
      rfl
    · omega
  · have hpos : 0 < a.templates.length := List.length_pos_iff.mpr hnil
    have hbatch : s.processBatch cnt = s.doRewrite cnt := by
      have := h.num
      rw [processBatch, if_neg (by omega), if_pos (by omega)]
    rw [← h.doRewrite_iff (by omega) cnt, step, hbatch]
    constructor
    · rintro ⟨s', hs', hgiven, hturn⟩
      obtain ⟨⟨gs, t⟩, hdo, rfl⟩ := Option.map_eq_some_iff.mp hs'
      rw [hdo] at hgiven
      cases hgiven
      exact ⟨t, hdo, hturn⟩
    · rintro ⟨s', hdo, hturn⟩
      exact ⟨s', by rw [hdo]; rfl, by rw [hdo]; rfl, hturn⟩

/-- A batch changes nothing but the turn. -/
theorem processBatch_eq {cnt : Nat} {gs : List Template} (h : s.processBatch cnt = some (gs, s')) :
    s' = { s with nextTurn := s'.nextTurn } := by
  unfold processBatch at h
  split at h
  · cases h
    rfl
  split at h
  · unfold doRewrite at h
    simp only at h
    split at h
    · obtain ⟨next, -, heq⟩ := Option.map_eq_some_iff.mp h
      cases heq
      rfl
    · cases h
  · cases h
    rfl

theorem Follows.next (h : Follows s a) {op : Op} (hs' : s.step op = some s')
    (hturn : s'.nextTurn = (a.next op).turn) : Follows s' (a.next op) := by
  cases op with
  | add ts =>
    cases hs'
    exact h.commandAdd ts
  | clear =>
    cases hs'
    exact h.commandClear
  | batch cnt =>
    obtain ⟨⟨gs, t⟩, hbatch, rfl⟩ := Option.map_eq_some_iff.mp hs'
    have heq := processBatch_eq hbatch
    by_cases hnil : a.templates = []
    · rw [h.processBatch_none hnil] at hbatch
      cases hbatch
      rw [Cycle.next, if_pos hnil]
      exact h
    · have hnext : a.next (.batch cnt) = a.advance cnt := if_neg hnil
      rw [hnext] at hturn ⊢
      exact h.advance hnil cnt (by rw [heq, hturn])

theorem Follows.inStep_iff (h : Follows s a) (ops : List Op) : InStep s a ops ↔ a.AllFit ops := by
  induction ops generalizing s a with
  | nil => exact Iff.rfl
  | cons op ops ih =>
    -- what is left to show once an operation is known to be in step
    have hrest : ∀ s', s.step op = some s' → s'.nextTurn = (a.next op).turn →
        (s'.numTemplates ≠ 0 → s'.nextTurn < s'.numTemplates) ∧
          (InStep s' (a.next op) ops ↔ (a.next op).AllFit ops) := fun s' hs' hturn => by
      have hnext := h.next hs' hturn
      refine ⟨fun hnum => ?_, ih hnext⟩
      rw [hnext.num] at hnum ⊢
      rw [hturn]
      exact hnext.turnLt (List.length_pos_iff.mp (Nat.pos_of_ne_zero hnum))
    unfold InStep Cycle.AllFit
    constructor
    · rintro ⟨s', hs', hgiven, hturn, -, hops⟩
      refine ⟨?_, (hrest s' hs' hturn).2.mp hops⟩
      rintro cnt rfl
      exact (h.batch_iff cnt).mp ⟨s', hs', hgiven cnt rfl, hturn⟩
    · rintro ⟨hfits, hops⟩
      have hstep : ∃ s', s.step op = some s' ∧
          (∀ cnt, op = .batch cnt → (s.processBatch cnt).map Prod.fst = some (a.given cnt)) ∧
          s'.nextTurn = (a.next op).turn := by
        cases op with
        | add ts => exact ⟨_, rfl, fun _ he => Op.noConfusion he, (h.commandAdd ts).turn⟩
        | clear => exact ⟨_, rfl, fun _ he => Op.noConfusion he, rfl⟩
        | batch cnt =>
          obtain ⟨s', hs', hgiven, hturn⟩ := (h.batch_iff cnt).mpr (hfits cnt rfl)
          refine ⟨s', hs', ?_, hturn⟩
          rintro cnt' he
          cases he
          exact hgiven
      obtain ⟨s', hs', hgiven, hturn⟩ := hstep
      obtain ⟨hlt, hiff⟩ := hrest s' hs' hturn
      exact ⟨s', hs', hgiven, hturn, hlt, hiff.mpr hops⟩

/-- A history of a new module is in step with the cycle if and only if all its batches fit. -/
theorem rewrite_in_step_iff (ops : List Op) : InStep fresh Cycle.start ops ↔ Cycle.start.AllFit ops :=
  follows_fresh.inStep_iff ops

/-- Two templates, then a third; a batch of two packets, then one of three. -/
def thirdSkipped : List Op := [.add [[1], [2]], .add [[3]], .batch 2, .batch 3]

/-- The module after the first operations of a history. -/
def after (s : Rewrite) : List Op → Option Rewrite
  | [] => some s
  | op :: ops => (s.step op).bind fun s => s.after ops

/-- After the templates 1 and 2 comes 1 again and not 3; and a batch of one packet out of three
templates has no defined next turn. -/
theorem third_template_skipped :
    ((fresh.after (thirdSkipped.take 3)).bind fun s => (s.processBatch 3).map Prod.fst) =
      some [[1], [2], [3]] ∧
    fresh.after [.add [[1], [2], [3]], .batch 1] = none ∧
    ¬ InStep fresh Cycle.start thirdSkipped := by
  refine ⟨by decide, rfl, ?_⟩
  rintro ⟨s₁, h₁, -, -, -, s₂, h₂, -, -, -, s₃, h₃, -, hturn, -⟩
  cases h₁
  cases h₂
  cases h₃
  exact absurd hturn (by decide)

end Rewrite

end Bess.Modules
