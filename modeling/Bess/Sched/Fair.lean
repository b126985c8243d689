import Bess.Sched.Tidy
import Bess.Lib.Stride
import Mathlib.Tactic.Linarith
import Mathlib.Algebra.Order.Field.Basic
import Mathlib.Data.Rat.Cast.Order
import Mathlib.Tactic.FieldSimp

/-!
# Weighted fair classes as stride schedulers

The functions of a weighted fair class, called in any order. The child that is picked has the least
pass, and the accounting adds `stride * consumed / QUANTUM`. If that is the number it should be, and
not 0, the class is a stride scheduler: `Bess.Lib.Stride`.
-/

namespace Bess.Sched

open Bess.Heap Bess.PriorityQueue Bess.Stride

/-- Calls of the class's own functions; `B` are the flags of the other classes at the call. -/
inductive FairCall
  | addChild (B : TcId → Bool) (child : TcId) (share : Int32)
  | removeChild (child : TcId)
  | unblock (B : TcId → Bool)
  | block (B : TcId → Bool)
  | finish (childBlocked : Bool) (usage : Usage)

namespace WeightedFair

def empty (resource : Resource) : WeightedFair := ⟨resource, [], [], []⟩

def call (S : StdHeap) (w : WeightedFair) : FairCall → WeightedFair
  | .addChild B child share => ((w.addChild S B child share).map (·.1)).getD w
  | .removeChild child => (w.removeChild S child).1
  | .unblock B => w.unblock S B
  | .block B => w.block S B
  | .finish childBlocked usage => w.finish S childBlocked usage

def calls (S : StdHeap) (w : WeightedFair) (es : List FairCall) : WeightedFair := es.foldl (call S) w

/-- A child is added once, and only a child is removed. -/
def Legal (w : WeightedFair) : FairCall → Prop
  | .addChild _ child _ => child ∉ w.all.map (·.1)
  | .removeChild child => child ∈ w.all.map (·.1)
  | _ => True

/-- Each call satisfies `P` in the state it is made in. -/
def Along (S : StdHeap) (P : WeightedFair → FairCall → Prop) : WeightedFair → List FairCall → Prop
  | _, [] => True
  | w, e :: es => P w e ∧ Along S P (w.call S e) es

/-! ## The lists through the calls -/

variable {S : StdHeap} {B : TcId → Bool} {w : WeightedFair} {e : FairCall} {es : List FairCall}
  {usage : Usage} {d d' item : FairChild} {rest : List FairChild} {c i j : TcId}

/-- The children's lists, and the stride of each child is that of its share. -/
structure Sound (w : WeightedFair) : Prop extends Parts w where
  nodup : (w.all.map (·.1)).Nodup
  strides : ∀ d ∈ w.runnable ++ w.blocked, ∃ share, (d.c, share) ∈ w.all ∧ share ≠ 0 ∧
    d.stride = (stride1 / share).toInt64

theorem empty_sound (r : Resource) : (empty r).Sound where
  heap := isHeap_nil
  split := List.Perm.refl _
  nodup := List.nodup_nil
  strides := by simp [empty]

theorem Sound.nodup_split (h : w.Sound) : ((w.runnable ++ w.blocked).map (·.c)).Nodup :=
  h.split.nodup_iff.mpr h.nodup

theorem Sound.unique (h : w.Sound) (hd : d ∈ w.runnable) (hd' : d' ∈ w.runnable) (hc : d'.c = d.c) :
    d' = d := by
  have hn := h.nodup_split
  rw [List.map_append] at hn
  exact List.inj_on_of_nodup_map (List.nodup_append.mp hn).1 hd' hd hc

theorem wakeFair_mem (bs : List FairChild) {r : List FairChild} (hr : IsHeap passComp r) :
    (∀ d ∈ (wakeFair S B bs r).1, d ∈ r ∨ ∃ d₀ ∈ bs, d.c = d₀.c ∧ d.stride = d₀.stride) ∧
    ∀ d ∈ (wakeFair S B bs r).2, d ∈ bs := by
  induction bs generalizing r with
  | nil => exact ⟨fun d hd => .inl hd, fun d hd => hd⟩
  | cons b bs ih =>
    unfold wakeFair
    split
    · obtain ⟨h1, h2⟩ := ih hr
      refine ⟨fun d hd => (h1 d hd).imp_right ?_, fun d hd => ?_⟩
      · rintro ⟨d₀, hm, he⟩
        exact ⟨d₀, List.mem_cons_of_mem _ hm, he⟩
      · rcases List.mem_cons.mp hd with rfl | hd
        · exact List.mem_cons_self
        · exact List.mem_cons_of_mem _ (h2 d hd)
    · obtain ⟨hperm, hheap⟩ := S.push_spec passComp r { b with pass := nextPass r + b.pass }
        passComp_strictWeak hr
      obtain ⟨h1, h2⟩ := ih hheap
      refine ⟨fun d hd => ?_, fun d hd => List.mem_cons_of_mem _ (h2 d hd)⟩
      rcases h1 d hd with hm | ⟨d₀, hm, he⟩
      · rcases List.mem_cons.mp (hperm.subset hm) with rfl | hm
        · exact .inr ⟨b, List.mem_cons_self, rfl, rfl⟩
        · exact .inl hm
      · exact .inr ⟨d₀, List.mem_cons_of_mem _ hm, he⟩

/-- The lists keep the children, their order as a heap and the strides. -/
theorem Sound.relist {w' : WeightedFair} (h : w.Sound) (hheap : IsHeap passComp w'.runnable)
    (hall : w'.all = w.all)
    (hsplit : ((w'.runnable ++ w'.blocked).map (·.c)).Perm ((w.runnable ++ w.blocked).map (·.c)))
    (hmem : ∀ d ∈ w'.runnable ++ w'.blocked, ∃ d₀ ∈ w.runnable ++ w.blocked,
      d.c = d₀.c ∧ d.stride = d₀.stride) : w'.Sound where
  heap := hheap
  split := by rw [hall]; exact hsplit.trans h.split
  nodup := by rw [hall]; exact h.nodup
  strides d hd := by
    obtain ⟨d₀, hd₀, hc, hs⟩ := hmem d hd
    rw [hall, hc, hs]
    exact h.strides d₀ hd₀

/-- What a call can do to the runnable children: they stay, others come and go, or the first one was
accounted. -/
def Moves (w : WeightedFair) (e : FairCall) (w' : WeightedFair) : Prop :=
  ∀ d' ∈ w'.runnable, d' ∈ w.runnable ∨ d'.c ∉ w.runnable.map (·.c) ∨
    ∃ usage item rest, e = .finish false usage ∧ w.runnable = item :: rest ∧
      d' = { item with pass := item.pass + (passDelta item (usage.get w.resource)).toInt64 }

theorem addChild_sound {child : TcId} {share : Int32} (h : w.Sound)
    (hl : child ∉ w.all.map (·.1)) :
    (w.call S (.addChild B child share)).Sound ∧
      w.Moves (.addChild B child share) (w.call S (.addChild B child share)) := by
  simp only [call, addChild]
  split
  · exact ⟨h, fun d hd => .inl hd⟩
  rename_i hshare
  have hfresh : child ∉ (w.runnable ++ w.blocked).map (·.c) := fun hm => hl (h.split.subset hm)
  have hnodup : ((w.all ++ [(child, share)]).map (·.1)).Nodup := by
    rw [List.map_append, List.map_singleton, ← List.concat_eq_append]
    exact List.Nodup.concat hl h.nodup
  have hold : ∀ d ∈ w.runnable ++ w.blocked, ∃ n, (d.c, n) ∈ w.all ++ [(child, share)] ∧ n ≠ 0 ∧
      d.stride = (stride1 / n).toInt64 := fun d hd => by
    obtain ⟨n, hn, hrest⟩ := h.strides d hd
    exact ⟨n, List.mem_append_left _ hn, hrest⟩
  split
  · refine ⟨⟨⟨h.heap, ?_⟩, hnodup, fun d hd => ?_⟩, fun d hd => .inl hd⟩
    · simp only [Option.map_some, Option.getD_some, ← List.append_assoc, List.map_append,
        List.map_singleton]
      have := h.split
      rw [List.map_append] at this
      exact this.append_right _
    · simp only [Option.map_some, Option.getD_some, ← List.append_assoc] at hd
      rcases List.mem_append.mp hd with hd | hd
      · exact hold d hd
      · obtain rfl := List.mem_singleton.mp hd
        exact ⟨share, by simp, hshare, rfl⟩
  · obtain ⟨hperm, hheap⟩ := S.push_spec passComp w.runnable
      ⟨(stride1 / share).toInt64, nextPass w.runnable, child⟩ passComp_strictWeak h.heap
    refine ⟨⟨⟨hheap, ?_⟩, hnodup, fun d hd => ?_⟩, fun d hd => ?_⟩
    · simp only [Option.map_some, Option.getD_some, List.map_append, List.map_singleton]
      have hs := h.split
      rw [List.map_append] at hs
      refine (((hperm.map _).append_right _).trans ?_).trans (hs.append_right _)
      simp only [List.map_cons, List.cons_append]
      exact (List.perm_append_singleton _ _).symm
    · simp only [Option.map_some, Option.getD_some] at hd
      rcases List.mem_append.mp hd with hd | hd
      · rcases List.mem_cons.mp (hperm.subset hd) with rfl | hd
        · exact ⟨share, by simp, hshare, rfl⟩
        · exact hold d (List.mem_append_left _ hd)
      · exact hold d (List.mem_append_right _ hd)
    · simp only [Option.map_some, Option.getD_some] at hd
      rcases List.mem_cons.mp (hperm.subset hd) with rfl | hd
      · refine .inr (.inl fun hm => hfresh ?_)
        rw [List.map_append]
        exact List.mem_append_left _ hm
      · exact .inl hd

theorem unblock_sound (h : w.Sound) :
    (w.call S (.unblock B)).Sound ∧ w.Moves (.unblock B) (w.call S (.unblock B)) := by
  obtain ⟨hheap, hperm, -, -⟩ := wakeFair_spec (S := S) (B := B) w.blocked h.heap
  obtain ⟨h1, h2⟩ := wakeFair_mem (S := S) (B := B) w.blocked h.heap
  refine ⟨h.relist hheap rfl hperm fun d hd => ?_, fun d hd => ?_⟩
  · rcases List.mem_append.mp hd with hd | hd
    · rcases h1 d hd with hm | ⟨d₀, hm, he⟩
      · exact ⟨d, List.mem_append_left _ hm, rfl, rfl⟩
      · exact ⟨d₀, List.mem_append_right _ hm, he⟩
    · exact ⟨d, List.mem_append_right _ (h2 d hd), rfl, rfl⟩
  · refine (h1 d hd).imp_right fun ⟨d₀, hm, hc, _⟩ => .inl fun hr => ?_
    have hn := h.nodup_split
    rw [List.map_append] at hn
    exact (List.nodup_append.mp hn).2.2 _ hr _ (List.mem_map_of_mem hm) hc

theorem block_sound (h : w.Sound) :
    (w.call S (.block B)).Sound ∧ w.Moves (.block B) (w.call S (.block B)) := by
  simp only [call, block]
  rcases deleteSingleElement_spec S passComp_strictWeak (fun d => B d.c) w.runnable with
    ⟨-, heq⟩ | ⟨x, v, heq, -, hperm, hheap⟩
  · simp only [heq]
    exact ⟨h, fun d hd => .inl hd⟩
  · simp only [heq]
    have hmove : (v ++ (w.blocked ++ [x])).Perm (w.runnable ++ w.blocked) := by
      rw [← List.append_assoc]
      refine (List.perm_append_singleton _ _).trans ?_
      exact (hperm.symm.append_right w.blocked)
    refine ⟨h.relist hheap rfl (hmove.map _) fun d hd => ⟨d, hmove.subset hd, rfl, rfl⟩,
      fun d hd => .inl (hperm.symm.subset (List.mem_cons_of_mem _ hd))⟩

theorem finish_sound {b : Bool} (h : w.Sound) :
    (w.call S (.finish b usage)).Sound ∧ w.Moves (.finish b usage) (w.call S (.finish b usage)) := by
  simp only [call, finish]
  cases hrun : w.runnable with
  | nil =>
    simp only
    exact ⟨h, fun d hd => .inl hd⟩
  | cons item rest =>
    have hheap := h.heap
    rw [hrun] at hheap
    cases b with
    | true =>
      obtain ⟨hperm, hheap'⟩ := S.pop_spec passComp item
        { item with pass := (passDelta item (usage.get w.resource)).toInt64 } rest
        passComp_strictWeak hheap
      simp only [if_true]
      have hmove : ∀ y : FairChild, (S.pop passComp
          ({ item with pass := (passDelta item (usage.get w.resource)).toInt64 } :: rest) ++
          (w.blocked ++ [y])).Perm (y :: rest ++ w.blocked) := fun y => by
        rw [← List.append_assoc]
        exact (List.perm_append_singleton _ _).trans ((hperm.append_right w.blocked).cons y)
      refine ⟨h.relist hheap' rfl ?_ fun d hd => ?_, fun d hd => .inl ?_⟩
      · rw [hrun]
        exact (hmove _).map (·.c)
      · rw [hrun]
        rcases List.mem_cons.mp ((hmove _).subset hd) with rfl | hd
        · exact ⟨item, by simp, rfl, rfl⟩
        · exact ⟨d, List.mem_cons_of_mem _ hd, rfl, rfl⟩
      · rw [hrun]
        exact List.mem_cons_of_mem _ (hperm.subset hd)
    | false =>
      obtain ⟨hperm, hheap'⟩ := decreaseKeyTop_spec passComp_strictWeak hheap
        { item with pass := item.pass + (passDelta item (usage.get w.resource)).toInt64 }
      simp only [Bool.false_eq_true, if_false]
      refine ⟨h.relist hheap' rfl ?_ fun d hd => ?_, fun d hd => ?_⟩
      · rw [hrun]
        exact (hperm.append_right w.blocked).map (·.c)
      · rw [hrun]
        rcases List.mem_cons.mp ((hperm.append_right w.blocked).subset hd) with rfl | hd
        · exact ⟨item, by simp, rfl, rfl⟩
        · exact ⟨d, List.mem_cons_of_mem _ hd, rfl, rfl⟩
      · rcases List.mem_cons.mp (hperm.subset hd) with rfl | hd
        · exact .inr (.inr ⟨usage, item, rest, rfl, hrun, rfl⟩)
        · exact .inl (by rw [hrun]; exact List.mem_cons_of_mem _ hd)

theorem removeChild_all : (w.removeChild S c).1.all = w.all.eraseP fun x => x.1 == c := by
  unfold removeChild
  simp only
  split
  · rfl
  · split <;> rfl

theorem removeChild_sound (h : w.Sound) (hc : c ∈ w.all.map (·.1)) :
    (w.call S (.removeChild c)).Sound ∧ w.Moves (.removeChild c) (w.call S (.removeChild c)) := by
  obtain ⟨hall, hparts, hor⟩ := removeChild_spec (S := S) h.toParts hc
  simp only [call]
  have hn := hall.nodup_iff.mp h.nodup
  have hsub : ∀ d ∈ (w.removeChild S c).1.runnable ++ (w.removeChild S c).1.blocked,
      d ∈ w.runnable ++ w.blocked := by
    intro d hd
    rcases hor with ⟨-, hrun, d₀, -, hblk⟩ | ⟨-, hblk, d₀, -, hrun⟩
    · rcases List.mem_append.mp hd with hd | hd
      · exact List.mem_append_left _ (hrun ▸ hd)
      · exact List.mem_append_right _ (hblk.symm.subset (List.mem_cons_of_mem _ hd))
    · rcases List.mem_append.mp hd with hd | hd
      · exact List.mem_append_left _ (hrun.symm.subset (List.mem_cons_of_mem _ hd))
      · exact List.mem_append_right _ (hblk ▸ hd)
  refine ⟨⟨hparts, (List.nodup_cons.mp hn).2, fun d hd => ?_⟩, fun d hd => .inl ?_⟩
  · obtain ⟨n, hm, hrest⟩ := h.strides d (hsub d hd)
    refine ⟨n, ?_, hrest⟩
    rw [removeChild_all]
    refine (List.mem_eraseP_of_neg ?_).mpr hm
    -- the removed child is in neither list any more
    have hdc : d.c ≠ c := by
      rintro rfl
      exact (List.nodup_cons.mp hn).1 (hparts.split.subset (List.mem_map_of_mem hd))
    simpa using hdc
  · rcases hor with ⟨-, hrun, -⟩ | ⟨-, -, d₀, -, hrun⟩
    · exact hrun ▸ hd
    · exact hrun.symm.subset (List.mem_cons_of_mem _ hd)

theorem Sound.call (h : w.Sound) (hl : w.Legal e) :
    (w.call S e).Sound ∧ w.Moves e (w.call S e) := by
  cases e with
  | addChild B child share => exact addChild_sound h hl
  | removeChild child => exact removeChild_sound h hl
  | unblock B => exact unblock_sound h
  | block B => exact block_sound h
  | finish b usage => exact finish_sound h

theorem Along.sound (h : w.Sound) (hl : Along S Legal w es) : (w.calls S es).Sound := by
  induction es generalizing w with
  | nil => exact h
  | cons e es ih => exact ih (h.call hl.1).1 hl.2

/-! ## Passes -/

/-- The child that a call accounts as still runnable, and what it consumed. -/
def turn (w : WeightedFair) : FairCall → Option (FairChild × UInt64)
  | .finish false usage => w.runnable.head?.map fun d => (d, usage.get w.resource)
  | _ => none

/-- The pass of a runnable child. -/
def passOf (w : WeightedFair) (c : TcId) : Int :=
  match w.runnable.find? fun d => d.c == c with
  | some d => d.pass.toInt
  | none => 0

theorem Sound.passOf (h : w.Sound) (hd : d ∈ w.runnable) : w.passOf d.c = d.pass.toInt := by
  unfold WeightedFair.passOf
  cases hf : w.runnable.find? fun x => x.c == d.c with
  | none =>
    have := List.find?_eq_none.mp hf d hd
    simp at this
  | some x =>
    have hx := List.find?_some hf
    rw [h.unique hd (List.mem_of_find?_eq_some hf) (by simpa using hx)]

/-- The consumption moves the child on by a number of passes that the words can hold. -/
structure Counts (d : FairChild) (n : UInt64) : Prop where
  pos : 0 < d.stride.toInt
  grows : 1024 ≤ d.stride.toInt * n.toNat
  fits : d.stride.toInt * n.toNat < 18446744073709551616
  room : d.pass.toInt + d.stride.toInt * n.toNat / 1024 < 9223372036854775808

def InRange (w : WeightedFair) (e : FairCall) : Prop := ∀ d n, w.turn e = some (d, n) → Counts d n

theorem toInt_toInt64 {x : UInt64} (h : x.toNat < 9223372036854775808) :
    x.toInt64.toInt = x.toNat := by
  have hx : x.toInt64.toInt = x.toBitVec.toInt := rfl
  rw [hx, BitVec.toInt_eq_toNat_of_lt]
  · rfl
  · simp only [UInt64.toNat_toBitVec]
    omega

theorem toNat_toUInt64 {x : Int64} (h : 0 ≤ x.toInt) : (x.toUInt64.toNat : Int) = x.toInt := by
  have hx : x.toInt = x.toUInt64.toBitVec.toInt := rfl
  rw [hx] at h ⊢
  rw [BitVec.toInt_eq_toNat_cond] at h ⊢
  split at h
  · rename_i hlt
    rw [if_pos hlt]
    rfl
  · have := x.toUInt64.toBitVec.isLt
    omega

theorem toInt_add_of_lt {a b : Int64} (hb : 0 ≤ b.toInt)
    (h : a.toInt + b.toInt < 9223372036854775808) : (a + b).toInt = a.toInt + b.toInt := by
  rw [Int64.toInt_add]
  have := a.le_toInt
  exact Int.bmod_eq_of_le (by omega) (by omega)

variable {n : UInt64} {m : Int32}

theorem Counts.passDelta_toNat (h : Counts d n) :
    ((passDelta d n).toNat : Int) = d.stride.toInt * n.toNat / 1024 := by
  have hs := toNat_toUInt64 h.pos.le
  have hfits := h.fits
  rw [← hs] at hfits ⊢
  rw [passDelta, UInt64.toNat_div, UInt64.toNat_mul, Nat.mod_eq_of_lt (by exact_mod_cast hfits)]
  rfl

theorem Counts.pass_add (h : Counts d n) :
    (d.pass + (passDelta d n).toInt64).toInt = d.pass.toInt + (passDelta d n).toNat ∧
      0 < (passDelta d n).toNat := by
  have hdelta := h.passDelta_toNat
  have hgrows := h.grows
  have hfits := h.fits
  have hroom := h.room
  have hlow := d.pass.le_toInt
  have hword : (passDelta d n).toInt64.toInt = (passDelta d n).toNat :=
    toInt_toInt64 (by omega)
  refine ⟨?_, by omega⟩
  rw [toInt_add_of_lt (by omega) (by omega), hword]

theorem turn_moved (h : w.Sound) (ht : w.turn e = some (d, n)) :
    d ∈ w.runnable ∧ (∀ x ∈ w.runnable, d.pass.toInt ≤ x.pass.toInt) ∧
    (w.call S e).runnable.Perm
      ({ d with pass := d.pass + (passDelta d n).toInt64 } :: w.runnable.tail) := by
  cases e with
  | finish b usage =>
    cases b with
    | true => cases ht
    | false =>
      cases hrun : w.runnable with
      | nil => simp [turn, hrun] at ht
      | cons item rest =>
        simp only [turn, hrun, List.head?_cons, Option.map_some, Option.some.injEq,
          Prod.mk.injEq] at ht
        obtain ⟨rfl, rfl⟩ := ht
        have hheap := h.heap
        rw [hrun] at hheap
        refine ⟨List.mem_cons_self, fun x hx => ?_, ?_⟩
        · have := hheap.top passComp_strictWeak hx
          simpa [passComp, byLeast] using this
        · simp only [call, finish, hrun, Bool.false_eq_true, if_false, List.tail_cons]
          exact (decreaseKeyTop_spec passComp_strictWeak hheap _).1
  | _ => cases ht

/-- A child that is runnable before and after a call keeps its pass, unless it was accounted. -/
theorem passOf_call_of_ne (h : w.Sound) (hl : w.Legal e)
    (hi : i ∈ w.runnable.map (·.c)) (hi' : i ∈ (w.call S e).runnable.map (·.c))
    (hne : ∀ d n, w.turn e = some (d, n) → i ≠ d.c) : (w.call S e).passOf i = w.passOf i := by
  obtain ⟨h', hmoves⟩ := h.call (S := S) hl
  obtain ⟨d', hd', rfl⟩ := List.mem_map.mp hi'
  obtain ⟨d, hd, hc⟩ := List.mem_map.mp hi
  rw [h'.passOf hd', ← hc, h.passOf hd]
  rcases hmoves d' hd' with hold | hnew | ⟨usage, item, rest, rfl, hrun, rfl⟩
  · rw [h.unique hd hold hc.symm]
  · exact absurd hi hnew
  · exact absurd rfl (hne item (usage.get w.resource) (by simp [turn, hrun]))

theorem turn_spec (h : w.Sound) (hl : w.Legal e) (hr : w.InRange e) (ht : w.turn e = some (d, n)) :
    Turn (fun i => i ∈ w.runnable.map (·.c) ∧ i ∈ (w.call S e).runnable.map (·.c)) w.passOf d.c
      (passDelta d n).toNat (w.call S e).passOf := by
  obtain ⟨hd, hleast, hperm⟩ := turn_moved (S := S) h ht
  obtain ⟨h', -⟩ := h.call (S := S) hl
  refine ⟨fun i hi => ?_, ?_, fun i hi hne => ?_⟩
  · obtain ⟨x, hx, rfl⟩ := List.mem_map.mp hi.1
    rw [h.passOf hd, h.passOf hx]
    exact hleast x hx
  · have hm := hperm.symm.subset List.mem_cons_self
    have := h'.passOf hm
    rw [h.passOf hd, ← (hr d n ht).pass_add.1]
    exact this
  · refine passOf_call_of_ne h hl hi.1 hi.2 fun d' n' ht' => ?_
    rw [ht] at ht'
    cases Option.some.inj ht'
    exact hne

/-! ## Whole runs -/

/-- The child is runnable in every state of the run. -/
def Throughout (S : StdHeap) (c : TcId) : WeightedFair → List FairCall → Prop
  | w, [] => c ∈ w.runnable.map (·.c)
  | w, e :: es => c ∈ w.runnable.map (·.c) ∧ Throughout S c (w.call S e) es

/-- The largest number of passes that a call of the run adds. -/
def largest (S : StdHeap) : WeightedFair → List FairCall → Nat
  | _, [] => 0
  | w, e :: es =>
    max (match w.turn e with
      | some (d, n) => (passDelta d n).toNat
      | none => 0) (largest S (w.call S e) es)

/-- The sum of `f` over the turns of a child. -/
def total (S : StdHeap) (f : FairChild → UInt64 → Nat) (c : TcId) :
    WeightedFair → List FairCall → Nat
  | _, [] => 0
  | w, e :: es =>
    (match w.turn e with
      | some (d, n) => if d.c = c then f d n else 0
      | none => 0) + total S f c (w.call S e) es

/-- What a child consumed in the run. -/
def used (S : StdHeap) : TcId → WeightedFair → List FairCall → Nat := total S fun _ n => n.toNat

theorem Throughout.head (h : Throughout S c w es) : c ∈ w.runnable.map (·.c) := by
  cases es with
  | nil => exact h
  | cons e es => exact h.1

/-- The condition under which a call is one of a stride scheduler. -/
def Fits (w : WeightedFair) (e : FairCall) : Prop := w.Legal e ∧ w.InRange e

theorem spread_le {M : Nat} (h : w.Sound) (hl : Along S Fits w es) (hi : Throughout S i w es)
    (hj : Throughout S j w es) (hM : largest S w es ≤ M) :
    (w.calls S es).passOf i - (w.calls S es).passOf j ≤ max (M : Int) (w.passOf i - w.passOf j) := by
  induction es generalizing w with
  | nil => exact le_max_right _ _
  | cons e es ih =>
    obtain ⟨⟨hleg, hr⟩, hl⟩ := hl
    obtain ⟨hM₁, hM₂⟩ := max_le_iff.mp hM
    refine (ih (h.call hleg).1 hl hi.2 hj.2 hM₂).trans (max_le (le_max_left _ _) ?_)
    cases ht : w.turn e with
    | none =>
      rw [passOf_call_of_ne h hleg hi.1 hi.2.head (by simp [ht]),
        passOf_call_of_ne h hleg hj.1 hj.2.head (by simp [ht])]
      exact le_max_right _ _
    | some x =>
      obtain ⟨d, n⟩ := x
      rw [ht] at hM₁
      exact (turn_spec h hleg hr ht).spread ⟨hi.1, hi.2.head⟩ ⟨hj.1, hj.2.head⟩
        (Int.natCast_nonneg _) (by exact_mod_cast hM₁)

theorem passOf_calls (h : w.Sound) (hl : Along S Fits w es) (hi : Throughout S i w es) :
    (w.calls S es).passOf i = w.passOf i + total S (fun d n => (passDelta d n).toNat) i w es := by
  induction es generalizing w with
  | nil => simp [calls, total]
  | cons e es ih =>
    obtain ⟨⟨hleg, hr⟩, hl⟩ := hl
    have hrec : (w.calls S (e :: es)).passOf i = _ := ih (h.call hleg).1 hl hi.2
    rw [hrec, total, Nat.cast_add, ← add_assoc]
    congr 1
    cases ht : w.turn e with
    | none => simpa using passOf_call_of_ne h hleg hi.1 hi.2.head (by simp [ht])
    | some x =>
      obtain ⟨d, n⟩ := x
      have hturn := turn_spec (S := S) h hleg hr ht
      by_cases hc : d.c = i
      · subst hc
        simpa using hturn.moved
      · simpa [hc] using hturn.others i ⟨hi.1, hi.2.head⟩ (Ne.symm hc)

/-- A child that is passed over for `k` rounds owes it to the others' passes. -/
theorem rounds_le_debt (h : w.Sound) (hl : Along S Fits w es)
    (hrounds : ∀ e ∈ es, ∃ usage, e = .finish false usage) (hj : j ∈ w.runnable.map (·.c))
    (hskip : Along S (fun w e => ∀ d n, w.turn e = some (d, n) → d.c ≠ j) w es) :
    es.length ≤ debt w.passOf (w.runnable.map (·.c)) j := by
  induction es generalizing w with
  | nil => exact Nat.zero_le _
  | cons e es ih =>
    obtain ⟨⟨hleg, hr⟩, hl⟩ := hl
    obtain ⟨hne, hskip⟩ := hskip
    obtain ⟨usage, rfl⟩ := hrounds e List.mem_cons_self
    cases hrun : w.runnable with
    | nil => simp [hrun] at hj
    | cons item rest =>
      have ht : w.turn (.finish false usage) = some (item, usage.get w.resource) := by
        simp [turn, hrun]
      obtain ⟨hd, -, hperm⟩ := turn_moved (S := S) h ht
      -- the children are the same, in another order
      have hsame : ((w.call S (.finish false usage)).runnable.map (·.c)).Perm
          (w.runnable.map (·.c)) := by
        rw [hrun] at hperm ⊢
        exact hperm.map (·.c)
      have hrest := ih (h.call hleg).1 hl (fun e he => hrounds e (List.mem_cons_of_mem _ he))
        (hsame.symm.subset hj) hskip
      have hdebt : debt (w.call S (.finish false usage)).passOf
          ((w.call S (.finish false usage)).runnable.map (·.c)) j =
          debt (w.call S (.finish false usage)).passOf (w.runnable.map (·.c)) j :=
        (hsame.map _).sum_eq
      have hlt := (turn_spec (S := S) h hleg hr ht).debt_lt (l := w.runnable.map (·.c)) (j := j)
        (fun i hi => ⟨hi, hsame.symm.subset hi⟩) (List.mem_map_of_mem hd)
        ⟨hj, hsame.symm.subset hj⟩ (hne _ _ ht)
        (by exact_mod_cast (hr _ _ ht).pass_add.2)
      rw [hdebt] at hrest
      rw [← hrun, List.length_cons]
      omega

/-! ## Usage and shares -/

/-- Neither division of an accounting drops a remainder. -/
def Exact (w : WeightedFair) (e : FairCall) : Prop :=
  ∀ d n share, w.turn e = some (d, n) → (d.c, share) ∈ w.all →
    stride1.toInt % share.toInt = 0 ∧ (d.stride.toInt * n.toNat) % 1024 = 0

theorem share_call (h : w.Sound) (hl : w.Legal e) (hm : (i, m) ∈ w.all)
    (hi : i ∈ (w.call S e).runnable.map (·.c)) : (i, m) ∈ (w.call S e).all := by
  obtain ⟨h', -⟩ := h.call (S := S) hl
  cases e with
  | addChild B child share =>
    simp only [call, addChild]
    split
    · exact hm
    · split <;> exact List.mem_append_left _ hm
  | removeChild child =>
    have hall := (removeChild_spec (S := S) h.toParts hl).1
    have hn := List.nodup_cons.mp (hall.nodup_iff.mp h.nodup)
    have hne : i ≠ child := by
      rintro rfl
      refine hn.1 (h'.split.subset ?_)
      rw [List.map_append]
      exact List.mem_append_left _ hi
    simp only [call, removeChild_all]
    exact (List.mem_eraseP_of_neg (by simpa using hne)).mpr hm
  | unblock B => exact hm
  | block B =>
    simp only [call, block_all]
    exact hm
  | finish b usage =>
    simp only [call, finish_all]
    exact hm

theorem Sound.share_eq {n : Int32} (h : w.Sound) (hm : (i, m) ∈ w.all) (hn : (i, n) ∈ w.all) :
    m = n :=
  congrArg Prod.snd (List.inj_on_of_nodup_map h.nodup hm hn rfl)

theorem Sound.stride_eq (h : w.Sound) (hd : d ∈ w.runnable) (hm : (d.c, m) ∈ w.all) :
    m ≠ 0 ∧ d.stride.toInt = stride1.toInt.tdiv m.toInt := by
  obtain ⟨n, hn, hne, hs⟩ := h.strides d (List.mem_append_left _ hd)
  obtain rfl := h.share_eq hm hn
  refine ⟨hne, ?_⟩
  rw [hs, Int32.toInt_toInt64, Int32.toInt_div_of_ne_left _ _ (by decide)]

theorem exact_turn (h : w.Sound) (hr : w.InRange e) (hx : w.Exact e)
    (ht : w.turn e = some (d, n)) (hm : (d.c, m) ∈ w.all) :
    m.toInt * (passDelta d n).toNat = 1024 * n.toNat := by
  obtain ⟨hd, -, -⟩ := turn_moved (S := .sorted) h ht
  obtain ⟨-, hstride⟩ := h.stride_eq hd hm
  obtain ⟨h1, h2⟩ := hx d n m ht hm
  have hdvd : m.toInt ∣ stride1.toInt := Int.dvd_of_emod_eq_zero h1
  have hk : m.toInt * d.stride.toInt = 1048576 := by
    rw [hstride, Int.mul_tdiv_cancel_of_dvd hdvd]
    rfl
  rw [(hr d n ht).passDelta_toNat]
  have hq : 1024 * (d.stride.toInt * n.toNat / 1024) = d.stride.toInt * n.toNat :=
    Int.mul_ediv_cancel_of_dvd (Int.dvd_of_emod_eq_zero h2)
  have h3 : 1024 * (m.toInt * (d.stride.toInt * n.toNat / 1024)) = 1024 * (1024 * n.toNat) :=
    calc 1024 * (m.toInt * (d.stride.toInt * n.toNat / 1024))
        = m.toInt * (1024 * (d.stride.toInt * n.toNat / 1024)) := Int.mul_left_comm _ _ _
      _ = m.toInt * d.stride.toInt * n.toNat := by rw [hq, Int.mul_assoc]
      _ = 1024 * (1024 * n.toNat) := by rw [hk]; omega
  omega

theorem used_eq (h : w.Sound) (hl : Along S Fits w es) (hx : Along S Exact w es)
    (hi : Throughout S i w es) (hm : (i, m) ∈ w.all) :
    m.toInt * total S (fun d n => (passDelta d n).toNat) i w es = 1024 * used S i w es := by
  induction es generalizing w with
  | nil => simp [used, total]
  | cons e es ih =>
    obtain ⟨⟨hleg, hr⟩, hl⟩ := hl
    have hrest := ih (h.call hleg).1 hl hx.2 hi.2 (share_call h hleg hm hi.2.head)
    simp only [used, total, Nat.cast_add, Int.mul_add] at hrest ⊢
    rw [hrest]
    congr 1
    cases ht : w.turn e with
    | none => simp
    | some x =>
      obtain ⟨d, n⟩ := x
      by_cases hc : d.c = i
      · subst hc
        simpa using exact_turn h hr hx.1 ht hm
      · simp [hc]

theorem used_div_share (h : w.Sound) (hl : Along S Fits w es) (hx : Along S Exact w es)
    (hi : Throughout S i w es) (hm : (i, m) ∈ w.all) :
    (used S i w es : ℚ) / m.toInt =
      (((w.calls S es).passOf i - w.passOf i : Int) : ℚ) / 1024 := by
  obtain ⟨d, hd, rfl⟩ := List.mem_map.mp hi.head
  have hm0 : m.toInt ≠ 0 := fun h0 => (h.stride_eq hd hm).1 (Int32.toInt_inj.mp h0)
  have hu := used_eq h hl hx hi hm
  rw [passOf_calls h hl hi, add_sub_cancel_left]
  have hq : (m.toInt : ℚ) ≠ 0 := by exact_mod_cast hm0
  have hu' : (m.toInt : ℚ) * (total S (fun d n => (passDelta d n).toNat) d.c w es : Int) =
      1024 * used S d.c w es := by exact_mod_cast hu
  field_simp
  linarith

theorem balanced {n : Int32} (h : w.Sound) (hl : Along S Fits w es) (hx : Along S Exact w es)
    (hi : Throughout S i w es) (hj : Throughout S j w es) (hm : (i, m) ∈ w.all)
    (hn : (j, n) ∈ w.all) :
    (used S i w es : ℚ) / m.toInt - used S j w es / n.toInt ≤
      (largest S w es + 2 * |w.passOf i - w.passOf j| : Int) / 1024 := by
  rw [used_div_share h hl hx hi hm, used_div_share h hl hx hj hn, div_sub_div_same]
  refine div_le_div_of_nonneg_right ?_ (by norm_num)
  have hsp := spread_le h hl hi hj (le_refl (largest S w es))
  have habs := neg_abs_le (w.passOf i - w.passOf j)
  have habs' := le_abs_self (w.passOf i - w.passOf j)
  rw [← Int.cast_sub, Int.cast_le]
  omega

theorem Sound.strict_along (h : w.Sound) (hl : Along S Fits w es) :
    Along S (fun w e => ∀ d n, w.turn e = some (d, n) →
      w.passOf d.c < (w.call S e).passOf d.c) w es := by
  induction es generalizing w with
  | nil => trivial
  | cons e es ih =>
    obtain ⟨⟨hleg, hr⟩, hl⟩ := hl
    refine ⟨fun d n ht => ?_, ih (h.call hleg).1 hl⟩
    rw [(turn_spec h hleg hr ht).moved]
    have := (hr d n ht).pass_add.2
    omega

/-- From every state that the calls can lead to, in every run whose accountings all move the child by
a number of passes that the words can hold: the accounted child's pass grows; the passes of two children
that are runnable throughout differ by at most the largest growth and their first difference; without
remainders their usages per share differ by a bound that does not depend on the run; and a child is
passed over at most as many times in a row as the others' passes are behind its own. -/
theorem weighted_fair_is_fair (S : StdHeap) (r : Resource) (before es : List FairCall)
    (w : WeightedFair) (hw : w = (empty r).calls S before) (hbefore : Along S Legal (empty r) before)
    (h : Along S Fits w es) :
    Along S (fun w e => ∀ d n, w.turn e = some (d, n) →
      w.passOf d.c < (w.call S e).passOf d.c) w es ∧
    (∀ i j, Throughout S i w es → Throughout S j w es →
      |(w.calls S es).passOf i - (w.calls S es).passOf j| ≤
          largest S w es + |w.passOf i - w.passOf j| ∧
      ∀ m n, (i, m) ∈ w.all → (j, n) ∈ w.all → Along S Exact w es →
        |(used S i w es : ℚ) / m.toInt - used S j w es / n.toInt| ≤
          (largest S w es + 2 * |w.passOf i - w.passOf j| : Int) / 1024) ∧
    ∀ j, j ∈ w.runnable.map (·.c) → (∀ e ∈ es, ∃ usage, e = .finish false usage) →
      Along S (fun w e => ∀ d n, w.turn e = some (d, n) → d.c ≠ j) w es →
      es.length ≤ debt w.passOf (w.runnable.map (·.c)) j := by
  have hs : w.Sound := hw ▸ Along.sound (empty_sound r) hbefore
  refine ⟨hs.strict_along h, fun i j hi hj => ⟨?_, fun m n hm hn hx => ?_⟩,
    fun j hj hrounds hskip => rounds_le_debt hs h hrounds hj hskip⟩
  · have h1 := spread_le hs h hi hj (le_refl (largest S w es))
    have h2 := spread_le hs h hj hi (le_refl (largest S w es))
    have habs := neg_abs_le (w.passOf i - w.passOf j)
    have habs' := le_abs_self (w.passOf i - w.passOf j)
    exact abs_le.mpr (by omega)
  · have h1 := balanced hs h hx hi hj hm hn
    have h2 := balanced hs h hx hj hi hn hm
    rw [abs_sub_comm (w.passOf j)] at h2
    exact abs_le.mpr ⟨by linarith, h1⟩

/-! ## Two shares -/

/-- Children 1 and 2, both runnable, with the given shares of the scheduling rounds. -/
def pair (m n : Int32) : List FairCall :=
  [.addChild (fun _ => false) 1 m, .addChild (fun _ => false) 2 n]

/-- An accounting of one round. -/
def oneRound : FairCall := .finish false ⟨1, 5000, 32, 16384⟩

/-- Shares 1 and 2: after three rounds the passes are 1024 and 1024. -/
theorem pair_spread :
    |(((empty .count).calls .sorted (pair 1 2)).calls .sorted [oneRound, oneRound, oneRound]).passOf 1 -
      (((empty .count).calls .sorted (pair 1 2)).calls .sorted
        [oneRound, oneRound, oneRound]).passOf 2| ≤
    (1024 : Nat) + |((empty .count).calls .sorted (pair 1 2)).passOf 1 -
      ((empty .count).calls .sorted (pair 1 2)).passOf 2| := by
  have hlegal : Along .sorted Legal (empty .count) (pair 1 2) := by
    simp only [Along, pair, Legal]
    decide
  have hfits : ∀ (w : WeightedFair) (d : FairChild), w.turn oneRound = some (d, 1) → Counts d 1 →
      w.Fits oneRound := by
    refine fun w d ht hc => ⟨trivial, fun d' n' ht' => ?_⟩
    cases Option.some.inj (ht.symm.trans ht')
    exact hc
  have hrun : Along .sorted Fits ((empty .count).calls .sorted (pair 1 2))
      [oneRound, oneRound, oneRound] := by
    refine ⟨hfits _ ⟨1048576, 0, 1⟩ (by decide) ⟨by decide, by decide, by decide, by decide⟩,
      hfits _ ⟨524288, 0, 2⟩ (by decide) ⟨by decide, by decide, by decide, by decide⟩,
      hfits _ ⟨524288, 512, 2⟩ (by decide) ⟨by decide, by decide, by decide, by decide⟩, trivial⟩
  refine ((weighted_fair_is_fair .sorted .count _ _ _ rfl hlegal hrun).2.1 1 2 ?_ ?_).1
  · simp only [Throughout]
    decide
  · simp only [Throughout]
    decide

/-- A share of 2048 has a stride of 512, and 512 / 1024 is 0: child 1 stays first and the class stays
as it is, so that child 2 never runs. -/
theorem pair_starves :
    Along .sorted Legal (empty .count) (pair 2048 1) ∧
    ((empty .count).calls .sorted (pair 2048 1)).turn oneRound = some (⟨512, 0, 1⟩, 1) ∧
    ((empty .count).calls .sorted (pair 2048 1)).call .sorted oneRound =
      (empty .count).calls .sorted (pair 2048 1) ∧
    2 ∈ ((empty .count).calls .sorted (pair 2048 1)).runnable.map (·.c) := by
  refine ⟨?_, by decide, by decide, by decide⟩
  simp only [Along, pair, Legal]
  decide

end WeightedFair

end Bess.Sched
