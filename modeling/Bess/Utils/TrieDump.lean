import Bess.Utils.Trie

/-!
# The contents of a trie

`Dump` of `trie.h` walks over the nodes and rebuilds the key of each in a string that all levels
share. What it lists are the keys that were inserted. Keys that were all inserted as such, and not as
prefixes, are also what `Match` finds.
-/

namespace Bess.Tries

open Bess.ByteMem

variable {T : Type} {t t' : Trie T} {ops : List (Insertion T)} {path key : List Byte} {height : Nat}

theorem lastOf_isSome_iff : (lastOf ops key).isSome = true ↔ ∃ op ∈ ops, op.key = key := by
  simp [lastOf]

/-- The nodes of the keys are marked, and no others. -/
theorem Rep.marked_iff (h : Rep t ops) {n : Node T} (hn : t path = some n) :
    (n.leaf || n.isPrefix) = true ↔ ∃ op ∈ ops, op.key = path := by
  rw [← lastOf_isSome_iff]
  have hdata := h.data path n hn
  cases hl : lastOf ops path with
  | none =>
    rw [hl] at hdata
    simp [hdata.1, hdata.2]
  | some op =>
    rw [hl] at hdata
    simp [hdata]

/-! ## Dump -/

abbrev DumpedEntry (T : Type) := List Byte × T × Bool

/-- `RecursiveDump` at a node with at most this many levels of nodes from it on. -/
def Trie.recursiveDump (t : Trie T) : Nat → Node T → List Byte → List (DumpedEntry T)
  | 0, _, _ => []
  | levels + 1, node, prelude =>
    (if node.leaf || node.isPrefix then [(prelude, node.val, node.isPrefix)] else []) ++
      (List.range numChildren).flatMap fun i =>
        match t (prelude ++ [BitVec.ofNat 8 i]) with
        | some child => t.recursiveDump levels child (prelude ++ [BitVec.ofNat 8 i])
        | none => []

theorem mem_recursiveDump (h : Rep t ops) (levels : Nat) {node : Node T} {prelude : List Byte}
    (hnode : t prelude = some node)
    (hkey : key ∈ (t.recursiveDump levels node prelude).map Prod.fst) : ∃ op ∈ ops, op.key = key := by
  induction levels generalizing node prelude with
  | zero => cases hkey
  | succ levels ih =>
    rw [Trie.recursiveDump, List.map_append, List.mem_append] at hkey
    rcases hkey with hown | hchild
    · split at hown
      · rename_i hmarked
        obtain rfl : key = prelude := by simpa using hown
        exact (h.marked_iff hnode).mp hmarked
      · cases hown
    · rw [List.map_flatMap, List.mem_flatMap] at hchild
      obtain ⟨i, -, hkey⟩ := hchild
      split at hkey
      · rename_i child hc
        exact ih hc hkey
      · cases hkey

theorem recursiveDump_mem (h : Rep t ops) (levels : Nat) {node : Node T} {prelude rest : List Byte}
    (hnode : t prelude = some node) (hrest : rest.length < levels)
    (hop : ∃ op ∈ ops, op.key = prelude ++ rest) :
    prelude ++ rest ∈ (t.recursiveDump levels node prelude).map Prod.fst := by
  induction levels generalizing node prelude rest with
  | zero => cases hrest
  | succ levels ih =>
    rw [Trie.recursiveDump, List.map_append, List.mem_append]
    cases rest with
    | nil =>
      rw [List.append_nil] at hop ⊢
      rw [if_pos ((h.marked_iff hnode).mpr hop)]
      exact .inl (List.mem_singleton_self _)
    | cons c rest =>
      have hsplit : prelude ++ c :: rest = prelude ++ [c] ++ rest := by simp
      rw [hsplit] at hop ⊢
      obtain ⟨op, hmem, hop'⟩ := hop
      have hon : OnPath ops (prelude ++ [c]) := .inr ⟨op, hmem, hop' ▸ List.prefix_append _ _⟩
      obtain ⟨child, hchild⟩ := Option.isSome_iff_exists.mp ((h.node _).mpr hon)
      rw [List.map_flatMap, List.mem_flatMap]
      refine .inr ⟨c.toNat, List.mem_range.mpr c.isLt, ?_⟩
      rw [BitVec.ofNat_toNat, BitVec.setWidth_eq, hchild]
      exact ih hchild (Nat.lt_of_succ_lt_succ hrest) ⟨op, hmem, hop'⟩

/-- A trie with no node further than `height` from its root. -/
structure BoundedTrie (T : Type) where
  trie : Trie T
  height : Nat
  bounded : ∀ path, (trie path).isSome = true → path.length ≤ height

def BoundedTrie.dump (t : BoundedTrie T) : List (DumpedEntry T) :=
  match t.trie [] with
  | some root => t.trie.recursiveDump (t.height + 1) root []
  | none => []

theorem BoundedTrie.mem_dump {t : BoundedTrie T} (h : Rep t.trie ops) :
    key ∈ t.dump.map Prod.fst ↔ ∃ op ∈ ops, op.key = key := by
  obtain ⟨root, hroot⟩ := Option.isSome_iff_exists.mp ((h.node []).mpr (.inl rfl))
  rw [BoundedTrie.dump, hroot]
  refine ⟨mem_recursiveDump h _ hroot, fun hop => ?_⟩
  obtain ⟨op, hmem, rfl⟩ := hop
  have hon : OnPath ops op.key := .inr ⟨op, hmem, List.prefix_refl _⟩
  have hlen := t.bounded _ ((h.node _).mpr hon)
  exact recursiveDump_mem h _ hroot (Nat.lt_succ_of_le hlen) ⟨op, hmem, rfl⟩

section Insertion

variable [Inhabited T]

theorem new_bounded (path : List Byte) (h : ((Trie.new : Trie T) path).isSome = true) :
    path.length ≤ 0 := by
  unfold Trie.new at h
  split at h
  · rename_i hp
    rw [hp]
    exact Nat.le_refl _
  · cases h

theorem insert_bounded {val : T} {isPrefix : Bool}
    (hb : ∀ path, (t path).isSome = true → path.length ≤ height)
    (hi : t.insert key val isPrefix = some t') (path : List Byte) (h : (t' path).isSome = true) :
    path.length ≤ max height key.length := by
  obtain ⟨t₁, ht₁, rfl⟩ := Option.map_eq_some_iff.mp hi
  by_cases hp : path = key
  · rw [hp]
    exact Nat.le_max_right ..
  · rw [Function.update_of_ne hp, descend_spec ht₁] at h
    split at h
    · rename_i hc
      exact Nat.le_trans hc.2.2.2.length_le (Nat.le_max_right ..)
    · exact Nat.le_trans (hb path h) (Nat.le_max_left ..)

def BoundedTrie.new : BoundedTrie T := ⟨.new, 0, new_bounded⟩

def BoundedTrie.insert (t : BoundedTrie T) (key : List Byte) (val : T) (isPrefix : Bool) :
    Option (BoundedTrie T) :=
  (t.trie.insert key val isPrefix).attach.map fun trie =>
    ⟨trie.1, max t.height key.length, insert_bounded t.bounded trie.2⟩

theorem BoundedTrie.insert_trie {t t' : BoundedTrie T} {val : T} {isPrefix : Bool}
    (h : t.insert key val isPrefix = some t') : t.trie.insert key val isPrefix = some t'.trie := by
  obtain ⟨trie, -, rfl⟩ := Option.map_eq_some_iff.mp h
  exact trie.2

theorem BoundedTrie.insert_isSome_iff (t : BoundedTrie T) (val : T) (isPrefix : Bool) :
    (t.insert key val isPrefix).isSome = true ↔ ∀ c ∈ key, c.toNat < 128 := by
  simp only [BoundedTrie.insert, Option.isSome_map, Option.isSome_attach, Trie.insert,
    descend_isSome_iff]

end Insertion

/-! ## Match -/

theorem Rep.plain (h : Rep t ops) (hplain : ∀ op ∈ ops, op.isPrefix = false) {n : Node T}
    (hn : t path = some n) : n.isPrefix = false := by
  have hdata := h.data path n hn
  cases hl : lastOf ops path with
  | none =>
    rw [hl] at hdata
    exact hdata.2
  | some op =>
    rw [hl] at hdata
    rw [hdata]
    exact hplain op (List.mem_reverse.mp (List.mem_of_find?_eq_some hl))

theorem matchFrom_plain (h : Rep t ops) (hplain : ∀ op ∈ ops, op.isPrefix = false)
    (hp : OnPath ops path) (a : Bool) : t.matchFrom path key = some a ↔
      AsciiOnPath ops path key ∧ (a = true ↔ ∃ op ∈ ops, op.key = path ++ key) := by
  induction key generalizing path with
  | nil =>
    obtain ⟨n, hn⟩ := Option.isSome_iff_exists.mp ((h.node path).mpr hp)
    have hmarked := h.marked_iff hn
    rw [h.plain hplain hn, Bool.or_false] at hmarked
    rw [Trie.matchFrom, hn, List.append_nil, ← hmarked, and_iff_right (by simp [AsciiOnPath])]
    cases a <;> simp
  | cons c key ih =>
    have hsplit : path ++ c :: key = path ++ [c] ++ key := by simp
    rw [Trie.matchFrom, asciiOnPath_cons, hsplit, ← index_lt_iff]
    by_cases hc : index c < numChildren
    · rw [if_pos hc, and_iff_right fun _ => hc]
      cases hn : t (path ++ [c]) with
      | some n =>
        simp only [h.plain hplain hn, Bool.false_eq_true, if_false]
        exact ih ((h.node _).mp (by rw [hn]; rfl))
      | none =>
        -- nothing begins like this
        have hoff : ∀ q, ¬ OnPath ops (path ++ [c] ++ q) := by
          intro q hq
          have hs := (h.node _).mpr (hq.shorten (List.prefix_append _ q))
          rw [hn] at hs
          cases hs
        have hno : ¬ ∃ op ∈ ops, op.key = path ++ [c] ++ key := by
          rintro ⟨op, hop, hk⟩
          exact hoff key (.inr ⟨op, hop, hk ▸ List.prefix_refl _⟩)
        have hascii : AsciiOnPath ops (path ++ [c]) key := fun p b _ hq => absurd hq (hoff p)
        rw [and_iff_right hascii, iff_false_right hno]
        cases a <;> simp
    · rw [if_neg hc]
      exact iff_of_false (Option.some_ne_none a).symm fun hn => hc (hn.1.1 hp)

theorem match_plain (h : Rep t ops) (hplain : ∀ op ∈ ops, op.isPrefix = false) (a : Bool) :
    t.match key = some a ↔
      AsciiOnPath ops [] key ∧ (a = true ↔ ∃ op ∈ ops, op.key = key) := by
  have hroot : (t []).any (·.isPrefix) = false := by
    cases hn : t [] with
    | none => rfl
    | some n => exact h.plain hplain hn
  rw [Trie.match, hroot, if_neg Bool.false_ne_true, matchFrom_plain h hplain (.inl rfl),
    List.nil_append]

end Bess.Tries
