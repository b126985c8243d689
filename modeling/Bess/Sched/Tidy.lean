import Bess.Sched.Tc
import Mathlib.Data.List.Nodup

/-!
# The lists of one class

The runnable and the blocked children of a class together are its children, and the member functions
keep them so.
-/

namespace Bess.Sched

open Bess.Heap Bess.PriorityQueue

/-! ## The invariant -/

structure WeightedFair.Parts (w : WeightedFair) : Prop where
  heap : IsHeap passComp w.runnable
  split : ((w.runnable ++ w.blocked).map (·.c)).Perm (w.all.map (·.1))

structure RoundRobin.Parts (r : RoundRobin) : Prop where
  next : r.nextChild < r.runnable.length ∨ r.nextChild = 0
  split : (r.runnable ++ r.blocked).Perm r.all

/-! ## Reading the lists -/

variable {B : TcId → Bool} {S : StdHeap} {c : TcId} {usage : Usage}

theorem passComp_strictWeak : StrictWeak passComp := byLeast_strictWeak _

variable {w : WeightedFair} {r : RoundRobin}

/-! ## The lists of a round-robin class

What holds whatever the flags are. -/

namespace RoundRobin

theorem Parts.unblock (h : r.Parts) : (r.unblock B).Parts := by
  refine ⟨?_, ?_⟩
  · simp only [RoundRobin.unblock, List.length_append]
    have := h.next
    omega
  · refine List.Perm.trans ?_ h.split
    simp only [RoundRobin.unblock, List.append_assoc]
    exact (List.perm_append_comm.trans (List.filter_append_perm B r.blocked)).append_left _

theorem addChild_all : (r.addChild B c).all = r.all ++ [c] := by
  simp only [RoundRobin.addChild]
  split <;> rfl

theorem Parts.addChild (h : r.Parts) : (r.addChild B c).Parts := by
  have hall : (c :: r.all).Perm (r.all ++ [c]) := (List.perm_append_singleton _ _).symm
  have hsplit := (h.split.cons c).trans hall
  simp only [RoundRobin.addChild]
  split
  · refine ⟨h.next, ?_⟩
    simp only [← List.append_assoc]
    exact (List.perm_append_singleton _ _).trans hsplit
  · refine ⟨?_, ((List.perm_append_singleton _ _).append_right _).trans hsplit⟩
    simp only [List.length_append]
    have := h.next
    omega

theorem stepBack_lt {next i n : Nat} (h : next ≤ n) : stepBack next i n < n ∨ stepBack next i n = 0 := by
  simp only [stepBack]
  split <;> split <;> omega

/-- The loop of `BlockTowardsRoot` keeps the index in range and loses no child. -/
theorem blockLoop_parts (cs kept : List TcId) (next : Nat) (blocked : List TcId)
    (hnext : next < (kept ++ cs).length ∨ next = 0) :
    let out := blockLoop B cs kept next blocked
    (out.2.1 < out.1.length ∨ out.2.1 = 0) ∧
      (out.1 ++ out.2.2).Perm (kept ++ cs ++ blocked) := by
  induction cs generalizing kept next blocked with
  | nil =>
    rw [List.append_nil] at hnext ⊢
    exact ⟨hnext, List.Perm.refl _⟩
  | cons c cs ih =>
    simp only [blockLoop]
    split
    · have hlen : next ≤ kept.length + cs.length := by
        rw [List.length_append, List.length_cons] at hnext
        omega
      have hstep := stepBack_lt (i := kept.length) hlen
      rw [← List.length_append] at hstep
      obtain ⟨h1, h2⟩ := ih kept _ (blocked ++ [c]) hstep
      rw [List.length_append] at h1 h2
      refine ⟨h1, h2.trans ?_⟩
      simp only [List.append_assoc, List.cons_append]
      refine List.Perm.append_left kept ?_
      rw [← List.append_assoc]
      exact List.perm_append_singleton c (cs ++ blocked)
    · obtain ⟨h1, h2⟩ := ih (kept ++ [c]) next blocked (by simpa using hnext)
      exact ⟨h1, by simpa using h2⟩

theorem Parts.block (h : r.Parts) : (r.block B).Parts := by
  obtain ⟨hnext, hperm⟩ := blockLoop_parts (B := B) r.runnable [] r.nextChild r.blocked h.next
  exact ⟨hnext, hperm.trans h.split⟩

theorem wrap_next : r.wrap.nextChild < r.wrap.runnable.length ∨ r.wrap.nextChild = 0 := by
  simp only [wrap]
  split <;> omega

theorem Parts.finish (h : r.Parts) (hpick : r.runnable[r.nextChild]? = some c) {b : Bool} :
    (r.finish c b usage).Parts := by
  refine ⟨?_, ?_⟩
  · rw [RoundRobin.finish]
    exact wrap_next
  · obtain ⟨hlt, rfl⟩ := List.getElem?_eq_some_iff.mp hpick
    simp only [RoundRobin.finish, wrap]
    split
    · rw [← List.append_assoc]
      refine (List.perm_append_singleton _ _).trans (List.Perm.trans ?_ h.split)
      exact (List.getElem_cons_eraseIdx_perm hlt).append_right _
    · exact h.split

/-- `RemoveChild` of a child: it is blocked and the runnable children stay, or it is runnable and the
index is corrected. -/
theorem Parts.removeChild_cases (h : r.Parts) (hc : c ∈ r.all) :
    (c ∈ r.blocked ∧ r.removeChild c =
      ({ r with all := r.all.erase c, blocked := r.blocked.erase c }, .quiet)) ∨
    ∃ before after, r.runnable = before ++ c :: after ∧ r.removeChild c =
      (⟨stepBack r.nextChild before.length (before ++ after).length, before ++ after, r.blocked,
        r.all.erase c⟩, .block) := by
  by_cases hb : c ∈ r.blocked
  · refine .inl ⟨hb, ?_⟩
    simp [removeChild, hb]
  · have hmem : c ∈ r.runnable := (List.mem_append.mp (h.split.symm.subset hc)).resolve_right hb
    have hsome : (r.runnable.findIdx? fun d => d == c).isSome := by simpa using hmem
    obtain ⟨i, hi⟩ := Option.isSome_iff_exists.mp hsome
    obtain ⟨hlt, hci, -⟩ := List.findIdx?_eq_some_iff_getElem.mp hi
    have htake : (r.runnable.take i).length = i := by rw [List.length_take]; omega
    refine .inr ⟨r.runnable.take i, r.runnable.drop (i + 1), ?_, ?_⟩
    · rw [← beq_iff_eq.mp hci, ← List.drop_eq_getElem_cons hlt, List.take_append_drop]
    · rw [htake, ← List.eraseIdx_eq_take_drop_succ]
      simp [removeChild, hb, hi]

theorem Parts.removeChild (h : r.Parts) (hc : c ∈ r.all) : (r.removeChild c).1.Parts := by
  have hall : r.all.Perm (c :: r.all.erase c) := List.perm_cons_erase hc
  rcases h.removeChild_cases hc with ⟨hmem, heq⟩ | ⟨before, after, hrun, heq⟩
  · rw [heq]
    refine ⟨h.next, ?_⟩
    have hperm := ((List.perm_cons_erase hmem).append_left r.runnable).symm.trans
      (h.split.trans hall)
    exact (List.perm_middle.symm.trans hperm).cons_inv
  · rw [heq]
    refine ⟨stepBack_lt ?_, ?_⟩
    · have := h.next
      rw [hrun, List.length_append, List.length_cons] at this
      rw [List.length_append]
      omega
    · have hperm := h.split.trans hall
      rw [hrun, List.append_assoc, List.cons_append] at hperm
      rw [List.append_assoc]
      exact (List.perm_middle.symm.trans hperm).cons_inv

end RoundRobin

/-! ## Unblocking -/

theorem forall_mem_of_perm_cons {α : Type} {P : α → Prop} {a : α} {l l' : List α}
    (hperm : l'.Perm (a :: l)) (ha : P a) : (∀ e ∈ l', P e) ↔ ∀ e ∈ l, P e := by
  constructor
  · intro h e he
    exact h e (hperm.symm.subset (List.mem_cons_of_mem _ he))
  · intro h e he
    rcases List.mem_cons.mp (hperm.subset he) with rfl | he
    · exact ha
    · exact h e he

theorem wakeFair_spec (bs : List FairChild) {r : List FairChild} (hr : IsHeap passComp r) :
    IsHeap passComp (wakeFair S B bs r).1 ∧
    (((wakeFair S B bs r).1 ++ (wakeFair S B bs r).2).map (·.c)).Perm ((r ++ bs).map (·.c)) ∧
    (∀ d ∈ (wakeFair S B bs r).2, B d.c = true) ∧
    ((∀ d ∈ r, B d.c = false) → ∀ d ∈ (wakeFair S B bs r).1, B d.c = false) := by
  induction bs generalizing r with
  | nil => simpa [wakeFair] using hr
  | cons d bs ih =>
    cases hd : B d.c with
    | true =>
      obtain ⟨h1, h2, h3, h4⟩ := ih hr
      simp only [wakeFair, hd, if_true]
      refine ⟨h1, ?_, ?_, h4⟩
      · simp only [List.map_append, List.map_cons] at h2 ⊢
        exact List.perm_middle.trans ((h2.cons _).trans List.perm_middle.symm)
      · rintro e he
        rcases List.mem_cons.mp he with rfl | he
        · exact hd
        · exact h3 e he
    | false =>
      obtain ⟨hperm, hheap⟩ :=
        S.push_spec passComp r { d with pass := nextPass r + d.pass } passComp_strictWeak hr
      obtain ⟨h1, h2, h3, h4⟩ := ih hheap
      simp only [wakeFair, hd]
      refine ⟨h1, ?_, h3, fun hrB => h4 ((forall_mem_of_perm_cons hperm hd).mpr hrB)⟩
      refine h2.trans ?_
      simp only [List.map_append, List.map_cons]
      exact ((hperm.map (·.c)).append_right _).trans List.perm_middle.symm

/-! ## Blocking -/

theorem WeightedFair.block_all : (w.block S B).all = w.all := by
  unfold WeightedFair.block
  split <;> rfl

/-! ## Picking and accounting -/

theorem WeightedFair.finish_all {b : Bool} : (w.finish S b usage).all = w.all := by
  unfold WeightedFair.finish
  split
  · rfl
  · split <;> rfl

theorem RoundRobin.finish_all {b : Bool} : (r.finish c b usage).all = r.all := by
  cases b <;> rfl

/-! ## Adding and removing a child -/

theorem WeightedFair.removeChild_spec (hp : w.Parts) (hc : c ∈ w.all.map (·.1)) :
    (w.all.map (·.1)).Perm (c :: (w.removeChild S c).1.all.map (·.1)) ∧
    (w.removeChild S c).1.Parts ∧
    ((w.removeChild S c).2 = .quiet ∧ (w.removeChild S c).1.runnable = w.runnable ∧
        (∃ d, d.c = c ∧ w.blocked.Perm (d :: (w.removeChild S c).1.blocked)) ∨
      (w.removeChild S c).2 = .block ∧ (w.removeChild S c).1.blocked = w.blocked ∧
        ∃ d, d.c = c ∧ w.runnable.Perm (d :: (w.removeChild S c).1.runnable)) := by
  obtain ⟨x, hx, hall⟩ := exists_eraseP_perm (v := w.all) (p := fun x => x.1 == c) (by simpa using hc)
  have hall := hall.map (·.1)
  rw [List.map_cons, beq_iff_eq.mp hx] at hall
  simp only [WeightedFair.removeChild]
  split
  · rename_i hany
    obtain ⟨d, hd, hblk⟩ := exists_eraseP_perm (v := w.blocked) (p := fun d => d.c == c) (by
      simpa using hany)
    have hdc : d.c = c := beq_iff_eq.mp hd
    refine ⟨hall, ⟨hp.heap, ?_⟩, .inl ⟨rfl, rfl, d, hdc, hblk⟩⟩
    have h1 := ((hblk.append_left w.runnable).map (·.c)).symm.trans (hp.split.trans hall)
    rw [List.map_append, List.map_cons, hdc] at h1
    rw [List.map_append]
    exact (List.perm_middle.symm.trans h1).cons_inv
  · rename_i hany
    rcases deleteSingleElement_spec S passComp_strictWeak (fun d => d.c == c) w.runnable with
      ⟨hnone, -⟩ | ⟨d, v, heq, hd, hperm, hheap⟩
    · -- a child is in one of the two lists
      have hsplit := hp.split.symm.subset hc
      simp only [List.map_append, List.mem_append, List.mem_map] at hsplit
      rcases hsplit with ⟨d, hd, hdc⟩ | ⟨d, hd, hdc⟩
      · have := hnone d hd
        simp [hdc] at this
      · simp only [List.any_eq_true, not_exists, not_and] at hany
        exact absurd (by simpa using hdc) (hany d hd)
    · have hdc : d.c = c := beq_iff_eq.mp hd
      simp only [heq]
      refine ⟨hall, ⟨hheap, ?_⟩, .inr ⟨trivial, trivial, d, hdc, hperm⟩⟩
      have h1 := ((hperm.append_right w.blocked).map (·.c)).symm.trans (hp.split.trans hall)
      rw [List.cons_append, List.map_cons, hdc] at h1
      exact h1.cons_inv

end Bess.Sched
