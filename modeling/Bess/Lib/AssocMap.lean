import Mathlib.Data.List.Pairwise
import Mathlib.Data.List.Perm.Lattice

/-!
# Finite maps modulo an equivalence of keys

A finite map is a list of entries no two of which have equivalent keys. The order of the list does
not matter: the operations agree on permutations.
-/

namespace Bess.AssocMap

/-- A decidable equivalence relation. -/
structure KeyEq (K : Type) where
  eq : K → K → Bool
  refl : ∀ a, eq a a = true
  symm : ∀ a b, eq a b = true → eq b a = true
  trans : ∀ a b c, eq a b = true → eq b c = true → eq a c = true

variable {K V : Type} (E : KeyEq K)

/-- No two entries have equivalent keys. -/
def Distinct (l : List (K × V)) : Prop := l.Pairwise fun a b => E.eq a.1 b.1 = false

def find (l : List (K × V)) (k : K) : Option (K × V) := l.find? fun e => E.eq e.1 k

/-- The entry of a key that is present keeps its key and takes the new value. -/
def update (l : List (K × V)) (k : K) (v : V) : List (K × V) :=
  l.map fun e => if E.eq e.1 k then (e.1, v) else e

def erase (l : List (K × V)) (k : K) : List (K × V) := l.filter fun e => !E.eq e.1 k

variable {E} {l l' : List (K × V)} {k : K} {e : K × V}

theorem KeyEq.comm (a b : K) : E.eq a b = E.eq b a :=
  Bool.eq_iff_iff.mpr ⟨E.symm a b, E.symm b a⟩

theorem Distinct.perm (h : Distinct E l) (hp : l.Perm l') : Distinct E l' :=
  List.Pairwise.perm h hp fun hab => (KeyEq.comm _ _).trans hab

theorem find_eq_none : find E l k = none ↔ ∀ e ∈ l, E.eq e.1 k = false := by
  simp [find]

theorem mem_of_find (h : find E l k = some e) : e ∈ l ∧ E.eq e.1 k = true := by
  unfold find at h
  exact ⟨List.mem_of_find?_eq_some h, List.find?_some (p := fun e : K × V => E.eq e.1 k) h⟩

theorem Distinct.eq_of_mem {a b : K × V} (h : Distinct E l) (ha : a ∈ l) (hb : b ∈ l)
    (hab : E.eq a.1 b.1 = true) : a = b := by
  by_contra hne
  have hs : Std.Symm fun a b : K × V => E.eq a.1 b.1 = false :=
    ⟨fun x y hxy => (KeyEq.comm _ _).trans hxy⟩
  have : E.eq a.1 b.1 = false := List.Pairwise.forall h ha hb hne
  rw [hab] at this
  cases this

theorem Distinct.find_eq_some (h : Distinct E l) :
    find E l k = some e ↔ e ∈ l ∧ E.eq e.1 k = true := by
  constructor
  · exact mem_of_find
  · rintro ⟨hm, hk⟩
    cases hf : find E l k with
    | none =>
      rw [find_eq_none.mp hf e hm] at hk
      cases hk
    | some a =>
      obtain ⟨ha, hak⟩ := mem_of_find hf
      rw [h.eq_of_mem ha hm (E.trans _ _ _ hak (E.symm _ _ hk))]

theorem Distinct.find_perm (h : Distinct E l) (hp : l.Perm l') : find E l k = find E l' k := by
  apply Option.ext
  intro e
  rw [h.find_eq_some, (h.perm hp).find_eq_some, hp.mem_iff]

theorem update_perm (hp : l.Perm l') (k : K) (v : V) : (update E l k v).Perm (update E l' k v) :=
  hp.map _

theorem erase_perm (hp : l.Perm l') (k : K) : (erase E l k).Perm (erase E l' k) :=
  hp.filter _

theorem Distinct.tail_ne (h : Distinct E (e :: l)) (hk : E.eq e.1 k = true) :
    ∀ a ∈ l, E.eq a.1 k = false := by
  intro a ha
  have hea := (List.pairwise_cons.mp h).1 a ha
  by_contra hak
  have hak : E.eq a.1 k = true := by simpa using hak
  rw [E.trans _ _ _ hk (E.symm _ _ hak)] at hea
  cases hea

theorem erase_cons_of_eq (h : Distinct E (e :: l)) (hk : E.eq e.1 k = true) :
    erase E (e :: l) k = l := by
  have hl := h.tail_ne hk
  unfold erase
  rw [List.filter_cons_of_neg (by simp [hk])]
  exact List.filter_eq_self.mpr fun a ha => by simp [hl a ha]

theorem erase_of_find_eq_none (h : find E l k = none) : erase E l k = l := by
  apply List.filter_eq_self.mpr
  intro e he
  simp [find_eq_none.mp h e he]

/-! ## Entries by their index -/

theorem findIdx?_eq_none_iff : l.findIdx? (fun e => E.eq e.1 k) = none ↔ find E l k = none := by
  rw [find_eq_none, List.findIdx?_eq_none_iff]

theorem findIdx?_append_new (h : l.findIdx? (fun e => E.eq e.1 k) = none) (he : E.eq e.1 k = true) :
    (l ++ [e]).findIdx? (fun e => E.eq e.1 k) = some l.length := by
  rw [List.findIdx?_append, h, List.findIdx?_singleton, if_pos he]
  simp

theorem Distinct.findIdx?_spec (h : Distinct E l) {i : Nat}
    (hi : l.findIdx? (fun e => E.eq e.1 k) = some i) :
    ∃ e, l[i]? = some e ∧ find E l k = some e ∧ l.eraseIdx i = erase E l k ∧
      ∀ v, l.set i (e.1, v) = update E l k v := by
  induction l generalizing i with
  | nil => cases hi
  | cons a l ih =>
    by_cases ha : E.eq a.1 k = true
    · have hl := h.tail_ne ha
      rw [List.findIdx?_cons, if_pos ha] at hi
      cases hi
      refine ⟨a, rfl, ?_, ?_, ?_⟩
      · exact List.find?_cons_of_pos (by exact ha)
      · rw [erase_cons_of_eq h ha]
        rfl
      · intro v
        have hmap : l.map (fun e => if E.eq e.1 k then (e.1, v) else e) = l := by
          refine (List.map_congr_left fun e he => ?_).trans (List.map_id l)
          rw [if_neg (by simp [hl e he])]
          rfl
        rw [update, List.map_cons, if_pos ha, hmap]
        rfl
    · rw [List.findIdx?_cons, if_neg ha] at hi
      obtain ⟨j, hj, rfl⟩ := Option.map_eq_some_iff.mp hi
      obtain ⟨e, he, hfind, herase, hset⟩ := ih (List.pairwise_cons.mp h).2 hj
      refine ⟨e, ?_, ?_, ?_, fun v => ?_⟩
      · rw [List.getElem?_cons_succ, he]
      · rw [← hfind]
        exact List.find?_cons_of_neg (by exact ha)
      · rw [List.eraseIdx_cons_succ, herase, erase, erase, List.filter_cons_of_pos (by simp [ha])]
      · rw [List.set_cons_succ, hset v, update, update, List.map_cons, if_neg ha]

theorem Distinct.update (h : Distinct E l) (k : K) (v : V) : Distinct E (update E l k v) := by
  rw [Distinct, AssocMap.update, List.pairwise_map]
  refine h.imp fun hab => ?_
  split <;> split <;> exact hab

theorem Distinct.erase (h : Distinct E l) (k : K) : Distinct E (erase E l k) := h.filter _

theorem Distinct.append_new (h : Distinct E l) (hk : find E l e.1 = none) :
    Distinct E (l ++ [e]) := by
  rw [Distinct, List.pairwise_append]
  refine ⟨h, List.pairwise_singleton _ _, fun a ha b hb => ?_⟩
  cases List.mem_singleton.mp hb
  exact find_eq_none.mp hk a ha

end Bess.AssocMap
