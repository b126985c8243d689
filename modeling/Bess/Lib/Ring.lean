import Mathlib.Data.List.Basic

/-!
# Bounded queues

A ring of `slots` slots is a queue of fewer than `slots` elements: one slot stays free. Elements are
put in singly, or as many of a list as fit, and come out in the order in which they went in.
-/

namespace Bess

structure Ring (α : Type) where
  slots : Nat
  items : List α
  room : items.length < slots

namespace Ring

variable {α : Type} {r r' : Ring α} {x : α} {l : List α}

/-- A new ring, if the number of slots is a power of two. -/
def init (slots : Nat) : Option (Ring α) :=
  if h : 0 < slots ∧ slots &&& (slots - 1) = 0 then some ⟨slots, [], h.1⟩ else none

def count (r : Ring α) : Nat := r.items.length

def isFull (r : Ring α) : Bool := r.items.length + 1 = r.slots

/-- `none` if the ring is full. -/
def enqueue (r : Ring α) (x : α) : Option (Ring α) :=
  if h : r.items.length + 1 < r.slots then some ⟨r.slots, r.items ++ [x], by simpa using h⟩ else none

/-- As many elements as fit, and the number of them. -/
def enqueueBurst (r : Ring α) (l : List α) : Nat × Ring α :=
  (min l.length (r.slots - 1 - r.count),
    ⟨r.slots, r.items ++ l.take (r.slots - 1 - r.count), by
      have := r.room
      simp only [count, List.length_append, List.length_take]
      omega⟩)

/-- `none` if the ring is empty. -/
def dequeue (r : Ring α) : Option (α × Ring α) :=
  match h : r.items with
  | [] => none
  | x :: rest => some (x, ⟨r.slots, rest, by have := r.room; rw [h] at this; simp at this; omega⟩)

/-- At most `n` elements. -/
def dequeueBurst (r : Ring α) (n : Nat) : List α × Ring α :=
  (r.items.take n, ⟨r.slots, r.items.drop n, by have := r.room; rw [List.length_drop]; omega⟩)

/-- The elements go to another ring one by one; those that do not fit are handed out. -/
def pour : List α → Ring α → List α × Ring α
  | [], r => ([], r)
  | x :: l, r =>
    match r.enqueue x with
    | some r => pour l r
    | none => ((x :: (pour l r).1), (pour l r).2)

theorem init_spec {slots : Nat} (h : init slots = some r) : r.slots = slots ∧ r.items = [] := by
  unfold init at h
  split at h
  · cases h
    exact ⟨rfl, rfl⟩
  · cases h

theorem enqueue_spec (h : r.enqueue x = some r') :
    r'.slots = r.slots ∧ r'.items = r.items ++ [x] := by
  unfold enqueue at h
  split at h
  · cases h
    exact ⟨rfl, rfl⟩
  · cases h

theorem enqueue_eq_none : r.enqueue x = none ↔ r.slots ≤ r.items.length + 1 := by
  unfold enqueue
  split
  · rename_i h
    simp only [reduceCtorEq, false_iff]
    omega
  · rename_i h
    simp only [true_iff]
    omega

theorem isFull_eq_false : r.isFull = false ↔ r.items.length + 1 < r.slots := by
  have := r.room
  rw [isFull, decide_eq_false_iff_not]
  omega

theorem dequeue_spec (h : r.dequeue = some (x, r')) :
    r'.slots = r.slots ∧ r.items = x :: r'.items := by
  unfold dequeue at h
  split at h
  · cases h
  · rename_i hitems
    cases h
    exact ⟨rfl, hitems⟩

theorem dequeue_eq_none : r.dequeue = none ↔ r.items = [] := by
  unfold dequeue
  split
  · rename_i h
    simp [h]
  · rename_i h
    simp [h]

theorem exists_rotate {rest : List α} (h : r.items = x :: rest) :
    ∃ r₁ r₂, r.dequeue = some (x, r₁) ∧ r₁.items = rest ∧ r₁.enqueue x = some r₂ ∧
      r₂.items = rest ++ [x] := by
  cases hd : r.dequeue with
  | none =>
    rw [dequeue_eq_none.mp hd] at h
    cases h
  | some y =>
    obtain ⟨y, r₁⟩ := y
    obtain ⟨hslots, hitems⟩ := dequeue_spec hd
    rw [h, List.cons.injEq] at hitems
    obtain ⟨rfl, hrest⟩ := hitems
    cases he : r₁.enqueue x with
    | none =>
      have hfull := enqueue_eq_none.mp he
      have hroom := r.room
      rw [h, List.length_cons, hrest] at hroom
      omega
    | some r₂ => exact ⟨r₁, r₂, rfl, hrest.symm, he, by rw [(enqueue_spec he).2, hrest]⟩

/-- What is poured comes after what was there, up to the room in the ring. -/
theorem pour_spec (l : List α) (r : Ring α) :
    (pour l r).2.slots = r.slots ∧
      (pour l r).2.items = r.items ++ l.take (r.slots - 1 - r.count) ∧
      (pour l r).1 = l.drop (r.slots - 1 - r.count) := by
  induction l generalizing r with
  | nil => exact ⟨rfl, by simp [pour], by simp [pour]⟩
  | cons x l ih =>
    rw [pour]
    cases h : r.enqueue x with
    | some r' =>
      obtain ⟨hslots, hitems⟩ := enqueue_spec h
      obtain ⟨h1, h2, h3⟩ := ih r'
      have hroom := r'.room
      rw [hslots, hitems, List.length_append, List.length_singleton] at hroom
      have hsucc : r.slots - 1 - r.count = r'.slots - 1 - r'.count + 1 := by
        simp only [count, hslots, hitems, List.length_append, List.length_singleton]
        omega
      rw [hsucc]
      refine ⟨h1.trans hslots, ?_, h3⟩
      simp only [h2, hitems, List.take_succ_cons, List.append_assoc, List.singleton_append]
    | none =>
      have hfull := enqueue_eq_none.mp h
      have hzero : r.slots - 1 - r.count = 0 := by
        unfold count
        omega
      obtain ⟨h1, h2, h3⟩ := ih r
      rw [hzero] at h2 h3 ⊢
      exact ⟨h1, h2, congrArg (x :: ·) h3⟩

end Ring

end Bess
