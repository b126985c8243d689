import Mathlib.Data.List.Nodup
import Mathlib.Logic.Relation
import Mathlib.Tactic.Common

/-!
# Depth-first search

A search enters a vertex unless its state says that the vertex was seen, and then goes on to the
vertices after it. What entering does to the state is arbitrary as long as it marks that vertex and
no other. Each vertex is then entered once, in some order `l` (`Visit`), and a search that starts
with a closed set of seen vertices enters exactly the reachable ones that are not in it.
-/

namespace Bess.Dfs

open Relation

theorem countP_lt_of_mem {α : Type} {l : List α} {p q : α → Bool} {x : α}
    (h : ∀ y ∈ l, p y = true → q y = true) (hx : x ∈ l) (hp : p x = false) (hq : q x = true) :
    l.countP p < l.countP q := by
  induction l with
  | nil => cases hx
  | cons y ys ih =>
    have hle : ys.countP p ≤ ys.countP q :=
      List.countP_mono_left fun z hz => h z (List.mem_cons_of_mem _ hz)
    rcases List.mem_cons.mp hx with rfl | hx
    · rw [List.countP_cons_of_neg (by simp [hp]), List.countP_cons_of_pos hq]
      omega
    · have := ih (fun z hz => h z (List.mem_cons_of_mem _ hz)) hx
      have hy := h y (List.mem_cons_self ..)
      simp only [List.countP_cons]
      cases hpy : p y with
      | false => simp only [Bool.false_eq_true, if_false]; omega
      | true => rw [hy hpy]; simp only [if_true]; omega

structure Search (V S : Type) [DecidableEq V] where
  next : V → List V
  seen : S → V → Bool
  enter : V → S → S
  seen_enter : ∀ v s u, seen (enter v s) u = (decide (u = v) || seen s u)

namespace Search

variable {V S : Type} [DecidableEq V] (D : Search V S)

def dfs : Nat → V → S → S
  | 0, _, s => s
  | f + 1, v, s =>
    if D.seen s v then s else (D.next v).foldl (fun s w => dfs f w s) (D.enter v s)

/-- The search from several vertices in turn. -/
def dfsAll (f : Nat) (vs : List V) (s : S) : S := vs.foldl (fun s v => D.dfs f v s) s

def enterAll (l : List V) (s : S) : S := l.foldl (fun s v => D.enter v s) s

def Reach : V → V → Prop := ReflTransGen fun v w => w ∈ D.next v

/-- From state `s`, the search from `vs` enters the vertices of `l`. -/
structure Visit (vs : List V) (s : S) (l : List V) : Prop where
  nodup : l.Nodup
  fresh : ∀ u ∈ l, D.seen s u = false
  reach : ∀ u ∈ l, ∃ v ∈ vs, D.Reach v u
  roots : ∀ v ∈ vs, D.seen s v = true ∨ v ∈ l
  closed : ∀ u ∈ l, ∀ w ∈ D.next u, D.seen s w = true ∨ w ∈ l

/-- How many vertices have not been seen. -/
def todo (all : List V) (s : S) : Nat := all.countP fun v => !D.seen s v

variable {D} {all : List V} {s : S} {f : Nat}

theorem seen_enterAll (l : List V) (s : S) (u : V) :
    D.seen (D.enterAll l s) u = true ↔ u ∈ l ∨ D.seen s u = true := by
  induction l generalizing s with
  | nil => simp [enterAll]
  | cons v l ih =>
    have hcons : D.enterAll (v :: l) s = D.enterAll l (D.enter v s) := rfl
    rw [hcons, ih, D.seen_enter, Bool.or_eq_true, decide_eq_true_eq, List.mem_cons]
    tauto

theorem not_seen_enterAll {l : List V} {u : V} (h : D.seen (D.enterAll l s) u = false) :
    u ∉ l ∧ D.seen s u = false := by
  have := (seen_enterAll (D := D) l s u).not
  rw [h, not_or] at this
  simpa using this.mp (by simp)

theorem enterAll_append (l l' : List V) (s : S) :
    D.enterAll (l ++ l') s = D.enterAll l' (D.enterAll l s) := List.foldl_append

theorem todo_enterAll_le (l : List V) : D.todo all (D.enterAll l s) ≤ D.todo all s := by
  refine List.countP_mono_left fun v _ hv => ?_
  simp only [Bool.not_eq_true'] at hv ⊢
  exact (not_seen_enterAll hv).2

theorem todo_enter_lt {v : V} (hv : v ∈ all) (hs : D.seen s v = false) :
    D.todo all (D.enter v s) < D.todo all s := by
  refine countP_lt_of_mem (fun u _ hu => ?_) hv (by simp [D.seen_enter]) (by simp [hs])
  simp only [D.seen_enter, Bool.not_or, Bool.and_eq_true] at hu
  exact hu.2

/-! ## One search, then several -/

/-- The search from `v` with fuel `f` does what it should, from any state the fuel suffices for. -/
def Spec (D : Search V S) (all : List V) (f : Nat) : Prop :=
  ∀ v ∈ all, ∀ s, D.todo all s < f → ∃ l, D.dfs f v s = D.enterAll l s ∧ D.Visit [v] s l

theorem Visit.nil (s : S) : D.Visit [] s [] :=
  ⟨List.nodup_nil, by simp, by simp, by simp, by simp⟩

theorem Visit.append {v : V} {vs l l' : List V} (h : D.Visit [v] s l)
    (h' : D.Visit vs (D.enterAll l s) l') : D.Visit (v :: vs) s (l ++ l') := by
  have hfresh : ∀ u ∈ l', u ∉ l ∧ D.seen s u = false := fun u hu => not_seen_enterAll (h'.fresh u hu)
  have hseen : ∀ u, D.seen (D.enterAll l s) u = true ∨ u ∈ l' →
      D.seen s u = true ∨ u ∈ l ++ l' := fun u hu => by
    rw [seen_enterAll] at hu
    rw [List.mem_append]
    tauto
  refine ⟨?_, fun u hu => ?_, fun u hu => ?_, fun u hu => ?_, fun u hu w hw => ?_⟩
  · exact h.nodup.append h'.nodup fun u hu hu' => (hfresh u hu').1 hu
  · rcases List.mem_append.mp hu with hu | hu
    · exact h.fresh u hu
    · exact (hfresh u hu).2
  · rcases List.mem_append.mp hu with hu | hu
    · obtain ⟨r, hr, hreach⟩ := h.reach u hu
      obtain rfl := List.mem_singleton.mp hr
      exact ⟨r, List.mem_cons_self, hreach⟩
    · obtain ⟨r, hr, hreach⟩ := h'.reach u hu
      exact ⟨r, List.mem_cons_of_mem _ hr, hreach⟩
  · rcases List.mem_cons.mp hu with rfl | hu
    · exact (h.roots u List.mem_cons_self).imp_right (List.mem_append_left l')
    · exact hseen u (h'.roots u hu)
  · rcases List.mem_append.mp hu with hu | hu
    · exact (h.closed u hu w hw).imp_right (List.mem_append_left l')
    · exact hseen w (h'.closed u hu w hw)

theorem Spec.dfsAll (h : Spec D all f) {vs : List V} (hvs : ∀ v ∈ vs, v ∈ all)
    (hf : D.todo all s < f) : ∃ l, D.dfsAll f vs s = D.enterAll l s ∧ D.Visit vs s l := by
  induction vs generalizing s with
  | nil => exact ⟨[], rfl, .nil s⟩
  | cons v vs ih =>
    obtain ⟨l, hl, hvisit⟩ := h v (hvs v List.mem_cons_self) s hf
    obtain ⟨l', hl', hvisit'⟩ := ih (fun u hu => hvs u (List.mem_cons_of_mem _ hu))
      (Nat.lt_of_le_of_lt (todo_enterAll_le l) hf)
    refine ⟨l ++ l', ?_, hvisit.append hvisit'⟩
    rw [enterAll_append, ← hl', ← hl]
    rfl

theorem dfs_spec (hall : ∀ v, ∀ w ∈ D.next v, w ∈ all) (f : Nat) : Spec D all f := by
  induction f with
  | zero => exact fun v _ s hs => absurd hs (Nat.not_lt_zero _)
  | succ f ih =>
    intro v hv s hs
    cases hseen : D.seen s v with
    | true =>
      refine ⟨[], by simp [dfs, hseen, enterAll], List.nodup_nil, by simp, by simp, ?_, by simp⟩
      simp [hseen]
    | false =>
      have hlt := todo_enter_lt hv hseen
      obtain ⟨l, hl, hvisit⟩ := ih.dfsAll (hall v) (s := D.enter v s) (by omega)
      have hout : ∀ u, D.seen (D.enter v s) u = true ∨ u ∈ l → D.seen s u = true ∨ u ∈ v :: l :=
        fun u hu => by
          rw [D.seen_enter, Bool.or_eq_true, decide_eq_true_eq] at hu
          rw [List.mem_cons]
          tauto
      refine ⟨v :: l, ?_, List.nodup_cons.mpr ⟨fun hin => ?_, hvisit.nodup⟩, fun u hu => ?_,
        fun u hu => ⟨v, List.mem_cons_self, ?_⟩, by simp, fun u hu w hw => ?_⟩
      · simp only [dfs, hseen, Bool.false_eq_true, ↓reduceIte]
        exact hl
      · have := hvisit.fresh v hin
        simp [D.seen_enter] at this
      · rcases List.mem_cons.mp hu with rfl | hu
        · exact hseen
        · have := hvisit.fresh u hu
          rw [D.seen_enter, Bool.or_eq_false_iff] at this
          exact this.2
      · rcases List.mem_cons.mp hu with rfl | hu
        · exact .refl
        · obtain ⟨w, hw, hreach⟩ := hvisit.reach u hu
          exact ReflTransGen.head hw hreach
      · rcases List.mem_cons.mp hu with rfl | hu
        · exact hout w (hvisit.roots w hw)
        · exact hout w (hvisit.closed u hu w hw)

/-! ## What is entered -/

/-- The vertices after a seen one were seen. -/
def Closed (D : Search V S) (s : S) : Prop :=
  ∀ u, D.seen s u = true → ∀ w ∈ D.next u, D.seen s w = true

theorem Visit.mem_iff {vs l : List V} (h : D.Visit vs s l) (hs : Closed D s) (u : V) :
    u ∈ l ↔ D.seen s u = false ∧ ∃ v ∈ vs, D.Reach v u := by
  refine ⟨fun hu => ⟨h.fresh u hu, h.reach u hu⟩, ?_⟩
  rintro ⟨hfresh, v, hv, hreach⟩
  -- what is reached was seen before or is entered
  have hstep : D.seen s u = true ∨ u ∈ l := by
    clear hfresh
    induction hreach with
    | refl => exact h.roots v hv
    | tail _ hw ih =>
      rcases ih with hseen | hin
      · exact .inl (hs _ hseen _ hw)
      · exact h.closed _ hin _ hw
  rcases hstep with hseen | hin
  · rw [hfresh] at hseen
    cases hseen
  · exact hin

theorem dfsAll_spec (hall : ∀ v, ∀ w ∈ D.next v, w ∈ all) {vs : List V} (hvs : ∀ v ∈ vs, v ∈ all)
    (hs : Closed D s) (hf : D.todo all s < f) :
    ∃ l, D.dfsAll f vs s = D.enterAll l s ∧ l.Nodup ∧
      ∀ u, u ∈ l ↔ D.seen s u = false ∧ ∃ v ∈ vs, D.Reach v u := by
  obtain ⟨l, hl, hvisit⟩ := (dfs_spec hall f).dfsAll hvs hf
  exact ⟨l, hl, hvisit.nodup, hvisit.mem_iff hs⟩

end Search

end Bess.Dfs
