import Bess.Lib.ByteMem
import Mathlib.Data.List.Infix

/-!
# Trie

`trie.h`. A node is named by the bytes on the way to it, so a child that is null is a name without a
node. `char` is signed, and a byte from 0x80 on becomes an index far behind the 256 children: such an
access is `none`.
-/

namespace Bess.Tries

open Bess.ByteMem

structure Node (T : Type) where
  leaf : Bool
  isPrefix : Bool
  val : T

/-- `size_t idx = c` -/
def index (c : Byte) : Nat := (c.signExtend 64).toNat

def numChildren : Nat := 256

abbrev Trie (T : Type) := List Byte → Option (Node T)

variable {T : Type}

def Node.new [Inhabited T] : Node T := ⟨false, false, default⟩

/-- The root is there from the beginning. -/
def Trie.new [Inhabited T] : Trie T := fun path => if path = [] then some Node.new else none

/-- The loop of `Insert`, from the node at `path` on. -/
def Trie.descend [Inhabited T] (t : Trie T) (path : List Byte) : List Byte → Option (Trie T)
  | [] => some t
  | c :: key =>
    if index c < numChildren then
      let child := path ++ [c]
      let t := if (t child).isNone then Function.update t child (some Node.new) else t
      Trie.descend t child key
    else none

def Trie.insert [Inhabited T] (t : Trie T) (key : List Byte) (val : T) (isPrefix : Bool) :
    Option (Trie T) :=
  (t.descend [] key).map fun t => Function.update t key (some ⟨true, isPrefix, val⟩)

def Trie.matchFrom (t : Trie T) (path : List Byte) : List Byte → Option Bool
  | [] => some ((t path).any (·.leaf))
  | c :: key =>
    if index c < numChildren then
      match t (path ++ [c]) with
      | none => some false
      | some n => if n.isPrefix then some true else t.matchFrom (path ++ [c]) key
    else none

def Trie.match (t : Trie T) (key : List Byte) : Option Bool :=
  if (t []).any (·.isPrefix) then some true else t.matchFrom [] key

/-- The inner option is the pair of a flag and a value. -/
def Trie.lookupFrom (t : Trie T) (path : List Byte) (prefixMatch : Option T) :
    List Byte → Option (Option T)
  | [] =>
    match t path with
    | some n => some (if n.leaf then some n.val else prefixMatch)
    | none => some prefixMatch
  | c :: key =>
    if index c < numChildren then
      match t (path ++ [c]) with
      | none => some prefixMatch
      | some n => t.lookupFrom (path ++ [c]) (if n.isPrefix then some n.val else prefixMatch) key
    else none

def Trie.lookup (t : Trie T) (key : List Byte) : Option (Option T) :=
  t.lookupFrom [] (((t []).filter (·.isPrefix)).map (·.val)) key

structure Insertion (T : Type) where
  key : List Byte
  val : T
  isPrefix : Bool

def Trie.insertAll [Inhabited T] (t : Trie T) : List (Insertion T) → Option (Trie T)
  | [] => some t
  | op :: ops => (t.insert op.key op.val op.isPrefix).bind (·.insertAll ops)

/-! ## What a trie holds -/

/-- The last insertion of exactly this key. -/
def lastOf (ops : List (Insertion T)) (key : List Byte) : Option (Insertion T) :=
  ops.reverse.find? fun op => op.key = key

/-- The bytes lead to a node. -/
def OnPath (ops : List (Insertion T)) (path : List Byte) : Prop :=
  path = [] ∨ ∃ op ∈ ops, path <+: op.key

/-- `p` is the longest key inserted as a prefix among those that satisfy `P`. -/
def IsBest (ops : List (Insertion T)) (P : List Byte → Prop) (v : T) : Prop :=
  ∃ p op, P p ∧ lastOf ops p = some op ∧ op.isPrefix = true ∧ op.val = v ∧
    ∀ q op', P q → lastOf ops q = some op' → op'.isPrefix = true → q.length ≤ p.length

/-- What `Lookup` should return: the value of the key, or else that of its longest proper prefix that
was inserted as a prefix. -/
def RightAnswer (ops : List (Insertion T)) (key : List Byte) (answer : Option T) : Prop :=
  match lastOf ops key with
  | some op => answer = some op.val
  | none => ∀ v, answer = some v ↔ IsBest ops (fun p => p <+: key ∧ p ≠ key) v

structure Rep (t : Trie T) (ops : List (Insertion T)) : Prop where
  node : ∀ path, (t path).isSome ↔ OnPath ops path
  data : ∀ path n, t path = some n →
    match lastOf ops path with
    | some op => n = ⟨true, op.isPrefix, op.val⟩
    | none => n.leaf = false ∧ n.isPrefix = false

variable {t t' : Trie T} {ops : List (Insertion T)} {path key : List Byte} {c : Byte}

theorem index_lt_iff : index c < numChildren ↔ c.toNat < 128 := by
  revert c
  decide +kernel

theorem lastOf_append (op : Insertion T) :
    lastOf (ops ++ [op]) key = if op.key = key then some op else lastOf ops key := by
  by_cases h : op.key = key
  · simp [lastOf, h]
  · simp [lastOf, h]

theorem onPath_of_lastOf {op : Insertion T} (h : lastOf ops path = some op) : OnPath ops path := by
  have hmem := List.mem_of_find?_eq_some h
  have hkey := List.find?_some h
  simp only [decide_eq_true_eq] at hkey
  exact .inr ⟨op, List.mem_reverse.mp hmem, hkey ▸ List.prefix_refl _⟩

theorem OnPath.shorten {q : List Byte} (h : OnPath ops path) (hq : q <+: path) : OnPath ops q := by
  rcases h with rfl | ⟨op, hop, hp⟩
  · exact .inl (List.prefix_nil.mp hq)
  · exact .inr ⟨op, hop, hq.trans hp⟩

/-! ## Insertion -/

section Insertion

variable [Inhabited T]

theorem descend_isSome_iff (t : Trie T) (path : List Byte) :
    (t.descend path key).isSome ↔ ∀ c ∈ key, c.toNat < 128 := by
  induction key generalizing t path with
  | nil => simp [Trie.descend]
  | cons c key ih =>
    rw [Trie.descend, List.forall_mem_cons, ← index_lt_iff]
    by_cases hc : index c < numChildren
    · rw [if_pos hc, ih]
      simp [hc]
    · simp [hc]

/-- The nodes on the way that were missing are new. -/
theorem descend_spec (h : t.descend path key = some t') (q : List Byte) :
    t' q = if t q = none ∧ q ≠ path ∧ path <+: q ∧ q <+: path ++ key then some Node.new else t q := by
  induction key generalizing t path with
  | nil =>
    cases h
    rw [if_neg]
    rintro ⟨-, hne, hp, hq⟩
    rw [List.append_nil] at hq
    exact hne (hq.eq_of_length (le_antisymm hq.length_le hp.length_le))
  | cons c key ih =>
    rw [Trie.descend] at h
    split at h
    · rw [ih h]
      have hstep : path <+: path ++ [c] := List.prefix_append _ _
      rw [show path ++ c :: key = path ++ [c] ++ key by simp]
      by_cases hq : q = path ++ [c]
      · subst hq
        have hne : path ++ [c] ≠ path := by simp
        cases hnode : t (path ++ [c]) with
        | none => simp [hne]
        | some n => simp [hnode]
      · have hsame : (if (t (path ++ [c])).isNone = true then
            Function.update t (path ++ [c]) (some Node.new) else t) q = t q := by
          split
          · rw [Function.update_of_ne hq]
          · rfl
        rw [hsame]
        have hiff : (q ≠ path ++ [c] ∧ path ++ [c] <+: q ∧ q <+: path ++ [c] ++ key) ↔
            (q ≠ path ∧ path <+: q ∧ q <+: path ++ [c] ++ key) := by
          constructor
          · rintro ⟨-, hp, hk⟩
            refine ⟨?_, hstep.trans hp, hk⟩
            rintro rfl
            simpa using hp.length_le
          · rintro ⟨hne, hp, hk⟩
            obtain ⟨s, rfl⟩ := hp
            cases s with
            | nil => simp at hne
            | cons b s =>
              rw [List.append_assoc, List.prefix_append_right_inj] at hk
              simp only [List.singleton_append, List.cons_prefix_cons] at hk
              refine ⟨hq, ?_, ?_⟩
              · rw [hk.1, show path ++ c :: s = path ++ [c] ++ s by simp]
                exact List.prefix_append _ _
              · rw [hk.1, show path ++ c :: s = path ++ [c] ++ s by simp]
                exact (List.prefix_append_right_inj _).mpr hk.2
        simp only [hiff]
    · cases h

theorem rep_new : Rep (Trie.new : Trie T) [] := by
  refine ⟨fun path => ?_, fun path n h => ?_⟩
  · by_cases hp : path = [] <;> simp [Trie.new, OnPath, hp]
  · by_cases hp : path = []
    · simp only [Trie.new, hp, if_true, Option.some.injEq] at h
      simp [lastOf, ← h, Node.new]
    · simp [Trie.new, hp] at h

theorem Rep.insert {op : Insertion T} (h : Rep t ops)
    (hi : t.insert op.key op.val op.isPrefix = some t') : Rep t' (ops ++ [op]) := by
  obtain ⟨t₁, ht₁, rfl⟩ := Option.map_eq_some_iff.mp hi
  have hspec := descend_spec ht₁
  refine ⟨fun path => ?_, fun path n hn => ?_⟩
  · by_cases hp : path = op.key
    · subst hp
      simp [OnPath]
    · rw [Function.update_of_ne hp, hspec, List.nil_append]
      have hon : OnPath (ops ++ [op]) path ↔ OnPath ops path ∨ path <+: op.key := by
        simp [OnPath, or_and_right, exists_or, or_assoc]
      rw [hon, ← h.node]
      split
      · rename_i hc
        simp [hc.2.2.2]
      · rename_i hc
        refine ⟨.inl, fun hor => hor.elim id fun hk => ?_⟩
        by_contra hnone
        rw [Option.not_isSome_iff_eq_none] at hnone
        refine hc ⟨hnone, ?_, List.nil_prefix, hk⟩
        rintro rfl
        simpa [hnone] using (h.node []).mpr (.inl rfl)
  · rw [lastOf_append]
    by_cases hp : path = op.key
    · subst hp
      rw [Function.update_self] at hn
      cases hn
      rw [if_pos rfl]
    · rw [Function.update_of_ne hp, hspec] at hn
      rw [if_neg (Ne.symm hp)]
      split at hn
      · rename_i hc
        cases hn
        have hlast : lastOf ops path = none := by
          by_contra hne
          obtain ⟨op', hop'⟩ := Option.ne_none_iff_exists'.mp hne
          have := (h.node path).mpr (onPath_of_lastOf hop')
          rw [hc.1] at this
          cases this
        rw [hlast]
        exact ⟨rfl, rfl⟩
      · exact h.data path n hn

theorem insertAll_isSome_iff : (t.insertAll ops).isSome ↔ ∀ op ∈ ops, ∀ c ∈ op.key, c.toNat < 128 := by
  induction ops generalizing t with
  | nil => simp [Trie.insertAll]
  | cons op ops ih =>
    rw [Trie.insertAll, List.forall_mem_cons, ← descend_isSome_iff t []]
    cases hd : t.descend [] op.key with
    | none => simp [Trie.insert, hd]
    | some t₁ => simp [Trie.insert, hd, ih]

theorem Rep.insertAll {ops' : List (Insertion T)} (h : Rep t ops) (hi : t.insertAll ops' = some t') :
    Rep t' (ops ++ ops') := by
  induction ops' generalizing t ops with
  | nil =>
    cases hi
    simpa using h
  | cons op ops' ih =>
    obtain ⟨t₁, ht₁, hi⟩ := Option.bind_eq_some_iff.mp hi
    simpa using ih (h.insert ht₁) hi

end Insertion

/-! ## Lookups -/

/-- The best match among the prefixes of the path. -/
def BestUpTo (ops : List (Insertion T)) (path : List Byte) (m : Option T) : Prop :=
  ∀ v, m = some v ↔ IsBest ops (fun p => p <+: path) v

/-- Bytes of the key behind its part in the trie are not looked at. -/
def AsciiOnPath (ops : List (Insertion T)) (path key : List Byte) : Prop :=
  ∀ p c, p ++ [c] <+: key → OnPath ops (path ++ p) → c.toNat < 128

theorem asciiOnPath_cons : AsciiOnPath ops path (c :: key) ↔
    (OnPath ops path → c.toNat < 128) ∧ AsciiOnPath ops (path ++ [c]) key := by
  constructor
  · intro h
    refine ⟨fun hp => h [] c (by simp) (by simpa using hp), fun p b hb hp => ?_⟩
    exact h (c :: p) b (by simpa using hb) (by simpa using hp)
  · rintro ⟨h₀, h⟩ p b hb hp
    cases p with
    | nil =>
      obtain rfl : b = c := by simpa using hb
      exact h₀ (by simpa using hp)
    | cons a p =>
      obtain ⟨rfl, hrest⟩ : a = c ∧ p ++ [b] <+: key := by simpa using hb
      exact h p b hrest (by simpa using hp)

theorem IsBest.congr {P Q : List Byte → Prop} {v : T}
    (h : ∀ p op, lastOf ops p = some op → op.isPrefix = true → (P p ↔ Q p)) :
    IsBest ops P v ↔ IsBest ops Q v := by
  constructor
  · rintro ⟨p, op, hp, hl, hpre, hv, hmax⟩
    exact ⟨p, op, (h p op hl hpre).mp hp, hl, hpre, hv,
      fun q op' hq hl' hpre' => hmax q op' ((h q op' hl' hpre').mpr hq) hl' hpre'⟩
  · rintro ⟨p, op, hp, hl, hpre, hv, hmax⟩
    exact ⟨p, op, (h p op hl hpre).mpr hp, hl, hpre, hv,
      fun q op' hq hl' hpre' => hmax q op' ((h q op' hl' hpre').mp hq) hl' hpre'⟩

theorem BestUpTo.step {n : Node T} {m : Option T} (h : Rep t ops) (hm : BestUpTo ops path m)
    (hn : t (path ++ [c]) = some n) :
    BestUpTo ops (path ++ [c]) (if n.isPrefix then some n.val else m) := by
  have hdata := h.data _ n hn
  intro v
  cases hl : lastOf ops (path ++ [c]) with
  | none =>
    rw [hl] at hdata
    rw [hdata.2, if_neg (by simp), hm]
    refine IsBest.congr fun p op hp _ => ?_
    rw [List.prefix_concat_iff, or_iff_right]
    rintro rfl
    rw [hl] at hp
    cases hp
  | some op =>
    rw [hl] at hdata
    subst hdata
    cases hpre : op.isPrefix with
    | true =>
      simp only [if_true, Option.some.injEq]
      constructor
      · rintro rfl
        exact ⟨_, op, List.prefix_refl _, hl, hpre, rfl, fun q _ hq _ _ => hq.length_le⟩
      · rintro ⟨p, op', hp, hl', -, rfl, hmax⟩
        have hlen := hmax _ op (List.prefix_refl _) hl hpre
        obtain rfl := hp.eq_of_length (le_antisymm hp.length_le hlen)
        cases hl.symm.trans hl'
        rfl
    | false =>
      simp only [Bool.false_eq_true, if_false]
      rw [hm]
      refine IsBest.congr fun p op' hp hpre' => ?_
      rw [List.prefix_concat_iff, or_iff_right]
      rintro rfl
      cases hl.symm.trans hp
      rw [hpre] at hpre'
      cases hpre'

/-- The lookup returns iff no byte from 0x80 on is used, and then what it should. -/
theorem lookupFrom_spec (key : List Byte) {m : Option T} (h : Rep t ops) (hp : OnPath ops path)
    (hm : BestUpTo ops path m) :
    ((t.lookupFrom path m key).isSome ↔ AsciiOnPath ops path key) ∧
      ∀ answer, t.lookupFrom path m key = some answer → RightAnswer ops (path ++ key) answer := by
  induction key generalizing path m with
  | nil =>
    obtain ⟨n, hn⟩ := Option.isSome_iff_exists.mp ((h.node path).mpr hp)
    have hdata := h.data path n hn
    simp only [Trie.lookupFrom, hn, Option.isSome_some, true_iff, List.append_nil]
    refine ⟨fun p c hc => by simp at hc, ?_⟩
    rintro _ ⟨⟩
    unfold RightAnswer
    cases hl : lastOf ops path with
    | some op =>
      rw [hl] at hdata
      simp [hdata]
    | none =>
      rw [hl] at hdata
      intro v
      rw [hdata.1, if_neg (by simp), hm]
      refine IsBest.congr fun p op hlp _ => ⟨fun hpp => ⟨hpp, ?_⟩, And.left⟩
      rintro rfl
      rw [hl] at hlp
      cases hlp
  | cons c key ih =>
    rw [Trie.lookupFrom, asciiOnPath_cons, imp_iff_right hp]
    by_cases hc : c.toNat < 128
    · rw [if_pos (index_lt_iff.mpr hc), show path ++ c :: key = path ++ [c] ++ key by simp]
      cases hn : t (path ++ [c]) with
      | some n =>
        simp only [hc, true_and]
        exact ih ((h.node _).mp (by rw [hn]; rfl)) (hm.step h hn)
      | none =>
        have hoff : ¬ OnPath ops (path ++ [c]) := by
          rw [← h.node, hn]
          simp
        have hlast : ∀ q op, path ++ [c] <+: q → lastOf ops q ≠ some op := fun q op hq hl =>
          hoff ((onPath_of_lastOf hl).shorten hq)
        refine ⟨iff_of_true rfl ⟨hc, fun p b _ hpb => ?_⟩, ?_⟩
        · exact absurd (hpb.shorten (List.prefix_append _ _)) hoff
        · rintro _ ⟨⟩
          unfold RightAnswer
          cases hl : lastOf ops (path ++ [c] ++ key) with
          | some op => exact absurd hl (hlast _ op (List.prefix_append _ _))
          | none =>
            intro v
            rw [hm]
            refine IsBest.congr fun p op hlp _ => ?_
            constructor
            · intro hpp
              refine ⟨hpp.trans ((List.prefix_append _ _).trans (List.prefix_append _ _)), ?_⟩
              rintro rfl
              rw [hl] at hlp
              cases hlp
            · rintro ⟨hpp, -⟩
              rcases le_or_gt p.length path.length with hle | hlt
              · exact List.prefix_of_prefix_length_le hpp
                  ((List.prefix_append _ _).trans (List.prefix_append _ _)) hle
              · refine absurd hlp (hlast p op (List.prefix_of_prefix_length_le
                  (List.prefix_append _ _) hpp ?_))
                simp
                omega
    · simp [hc, index_lt_iff]

theorem isSome_of_lookupFrom {v : T} {answer : Option T}
    (h : t.lookupFrom path (some v) key = some answer) : answer.isSome = true := by
  induction key generalizing path v with
  | nil =>
    unfold Trie.lookupFrom at h
    split at h <;> cases h
    · split <;> rfl
    · rfl
  | cons c key ih =>
    unfold Trie.lookupFrom at h
    split at h
    · split at h
      · cases h
        rfl
      · split at h
        · exact ih h
        · exact ih h
    · cases h

theorem matchFrom_eq (h : Rep t ops) (hp : OnPath ops path) {answer : Option T}
    (hl : t.lookupFrom path none key = some answer) : t.matchFrom path key = some answer.isSome := by
  induction key generalizing path with
  | nil =>
    obtain ⟨n, hn⟩ := Option.isSome_iff_exists.mp ((h.node path).mpr hp)
    simp only [Trie.lookupFrom, hn, Option.some.injEq] at hl
    subst hl
    cases hleaf : n.leaf <;> simp [Trie.matchFrom, hn, hleaf]
  | cons c key ih =>
    rw [Trie.lookupFrom] at hl
    rw [Trie.matchFrom]
    split at hl
    · rename_i hc
      rw [if_pos hc]
      cases hn : t (path ++ [c]) with
      | none =>
        simp only [hn, Option.some.injEq] at hl
        subst hl
        rfl
      | some n =>
        simp only [hn] at hl ⊢
        cases hpre : n.isPrefix with
        | false =>
          simp only [hpre, Bool.false_eq_true, if_false] at hl ⊢
          exact ih ((h.node _).mp (by rw [hn]; rfl)) hl
        | true =>
          simp only [hpre, if_true, Option.some.injEq] at hl ⊢
          exact (isSome_of_lookupFrom hl).symm
    · cases hl

theorem Rep.bestUpTo_root (h : Rep t ops) :
    BestUpTo ops [] (((t []).filter (·.isPrefix)).map (·.val)) := by
  obtain ⟨n, hn⟩ := Option.isSome_iff_exists.mp ((h.node []).mpr (.inl rfl))
  have hdata := h.data [] n hn
  intro v
  simp only [IsBest, List.prefix_nil, hn]
  cases hl : lastOf ops [] with
  | none =>
    rw [hl] at hdata
    simp [Option.filter, hdata.2, hl]
  | some op =>
    rw [hl] at hdata
    subst hdata
    cases hpre : op.isPrefix with
    | false => simp [Option.filter, hpre, hl]
    | true =>
      simp [Option.filter, hpre, hl]
      exact fun _ q _ hq _ _ => hq

/-- For every sequence of insertions and every key: the insertions and the lookup use indices of
children only, and the answers are right, iff no inserted key has a byte from 0x80 on, nor has the key
one right behind a part of it that is in the trie. -/
theorem lookup_right_iff [Inhabited T] (ops : List (Insertion T)) (key : List Byte) :
    (∃ t answer, (Trie.new : Trie T).insertAll ops = some t ∧ t.lookup key = some answer ∧
      RightAnswer ops key answer ∧ t.match key = some answer.isSome) ↔
    (∀ op ∈ ops, ∀ c ∈ op.key, c.toNat < 128) ∧ AsciiOnPath ops [] key := by
  rw [← insertAll_isSome_iff (t := Trie.new)]
  cases hi : (Trie.new : Trie T).insertAll ops with
  | none => simp
  | some t =>
    have h : Rep t ops := by simpa using rep_new.insertAll hi
    obtain ⟨hsome, hright⟩ := lookupFrom_spec key h (.inl rfl) h.bestUpTo_root
    simp only [Option.isSome_some, true_and, ← hsome, Option.some.injEq]
    constructor
    · rintro ⟨_, answer, rfl, hl, -⟩
      exact Option.isSome_iff_exists.mpr ⟨answer, hl⟩
    · intro hl
      obtain ⟨answer, hl⟩ := Option.isSome_iff_exists.mp hl
      refine ⟨t, answer, rfl, hl, hright answer hl, ?_⟩
      unfold Trie.match
      cases hpre : (t []).filter (·.isPrefix) with
      | none =>
        have hany : (t []).any (·.isPrefix) = false := by
          cases hn : t [] with
          | none => rfl
          | some n => simpa [hn, Option.filter] using hpre
        rw [hany, if_neg (by simp)]
        rw [hpre] at hl
        exact matchFrom_eq h (.inl rfl) hl
      | some n =>
        have hany : (t []).any (·.isPrefix) = true := by
          cases hn : t [] with
          | none => simp [hn] at hpre
          | some n' => simpa [hn, Option.filter] using congrArg Option.isSome hpre
        rw [hany, if_pos rfl]
        rw [hpre] at hl
        rw [isSome_of_lookupFrom hl]

/-- The byte 0x80 is a child index out of range, for an insertion and for a lookup. -/
theorem high_byte_out_of_range :
    index 0x80#8 = 0xFFFFFFFFFFFFFF80 ∧
      ((Trie.new : Trie Nat).insert [0x80#8] 1 false).isNone ∧
      ((Trie.new : Trie Nat).lookup [0x80#8]).isNone ∧ ((Trie.new : Trie Nat).match [0x80#8]).isNone := by
  decide

end Bess.Tries
