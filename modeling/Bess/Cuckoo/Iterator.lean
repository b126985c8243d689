import Bess.Cuckoo.Invariant

/-!
# The iterator of the cuckoo table

`CuckooMap::iterator` is a bucket and a slot. Its constructor and its increment skip empty slots,
going on to the next bucket after the last slot of one; the end is the first slot of the bucket behind
the last one. Slots are numbered through, `ofRank n` being the `n`-th, and what a position still yields
is a filtered range of numbers that `++` shortens by one.
-/

namespace Bess.Cuckoo

variable {K V : Type} {H : Hashing K}

theorem kEntriesPerBucket_pos : 0 < kEntriesPerBucket := by decide

/-- `slot_idx_++`, with the carry into `bucket_idx_`. -/
def Pos.next (p : Pos) : Pos :=
  if h : p.2.val + 1 = kEntriesPerBucket then (p.1 + 1, ⟨0, kEntriesPerBucket_pos⟩)
  else (p.1, ⟨p.2.val + 1, by have := p.2.isLt; omega⟩)

namespace CuckooMap

/-- The `while` loop of the constructor, which is also that of the increment; `none` if it does not
end within the given number of turns. -/
def skip (m : CuckooMap K V) : Nat → Pos → Option Pos
  | 0, _ => none
  | n + 1, p =>
    if p.1 < m.buckets.length ∧ (m.slotAt p).hash = 0 then m.skip n p.next else some p

/-- The constructor of `iterator`. -/
def iterator (m : CuckooMap K V) (turns bucket : Nat) (slot : Fin kEntriesPerBucket) : Option Pos :=
  m.skip turns (bucket, slot)

def begin (m : CuckooMap K V) (turns : Nat) : Option Pos :=
  m.iterator turns 0 ⟨0, kEntriesPerBucket_pos⟩

def end_ (m : CuckooMap K V) (turns : Nat) : Option Pos :=
  m.iterator turns m.buckets.length ⟨0, kEntriesPerBucket_pos⟩

/-- `operator++` -/
def increment (m : CuckooMap K V) (turns : Nat) (p : Pos) : Option Pos := m.skip turns p.next

/-- `operator*`, the index of the entry. -/
def deref (m : CuckooMap K V) (p : Pos) : Nat := (m.slotAt p).idx

/-- The iterator after `k` increments. -/
def advance (m : CuckooMap K V) (turns : Nat) : Nat → Option Pos
  | 0 => m.begin turns
  | k + 1 => (m.advance turns k).bind (m.increment turns)

variable {m : CuckooMap K V} {n k turns : Nat}

/-! ## Slots in a row -/

def ofRank (n : Nat) : Pos :=
  (n / kEntriesPerBucket, ⟨n % kEntriesPerBucket, Nat.mod_lt _ kEntriesPerBucket_pos⟩)

def numSlots (m : CuckooMap K V) : Nat := kEntriesPerBucket * m.buckets.length

theorem next_ofRank (n : Nat) : (ofRank n).next = ofRank (n + 1) := by
  unfold Pos.next ofRank
  split
  · rename_i h
    simp only [kEntriesPerBucket] at h ⊢
    refine Prod.ext ?_ (Fin.ext ?_)
    · show n / 4 + 1 = (n + 1) / 4
      omega
    · show 0 = (n + 1) % 4
      omega
  · rename_i h
    simp only [kEntriesPerBucket] at h ⊢
    refine Prod.ext ?_ (Fin.ext ?_)
    · show n / 4 = (n + 1) / 4
      omega
    · show n % 4 + 1 = (n + 1) % 4
      omega

theorem ofRank_lt (m : CuckooMap K V) (n : Nat) :
    (ofRank n).1 < m.buckets.length ↔ n < m.numSlots := by
  show n / 4 < m.buckets.length ↔ n < 4 * m.buckets.length
  omega

theorem ofRank_numSlots (m : CuckooMap K V) :
    ofRank m.numSlots = (m.buckets.length, ⟨0, kEntriesPerBucket_pos⟩) := by
  refine Prod.ext ?_ (Fin.ext ?_)
  · exact Nat.mul_div_cancel_left _ (by decide)
  · exact Nat.mul_mod_right _ _

/-- The occupied slots from the `n`-th on. -/
def ranksFrom (m : CuckooMap K V) (n : Nat) : List Nat :=
  (List.range' n (m.numSlots - n)).filter fun r => m.Occ (ofRank r)

theorem ranksFrom_of_lt (hn : n < m.numSlots) :
    m.ranksFrom n = if m.Occ (ofRank n) then n :: m.ranksFrom (n + 1) else m.ranksFrom (n + 1) := by
  have hlen : m.numSlots - n = m.numSlots - (n + 1) + 1 := by omega
  rw [ranksFrom, hlen, List.range'_succ, List.filter_cons]
  simp only [decide_eq_true_eq]
  rfl

theorem ranksFrom_of_le (hn : m.numSlots ≤ n) : m.ranksFrom n = [] := by
  rw [ranksFrom, Nat.sub_eq_zero_of_le hn]
  rfl

/-- Behind an occupied slot come those from the next slot on. -/
theorem ranksFrom_cons {r : Nat} {rest : List Nat} (h : m.ranksFrom n = r :: rest) :
    rest = m.ranksFrom (r + 1) ∧ r < m.numSlots := by
  induction hd : m.numSlots - n generalizing n with
  | zero =>
    rw [ranksFrom_of_le (by omega)] at h
    cases h
  | succ d ih =>
    rw [ranksFrom_of_lt (by omega)] at h
    split at h
    · cases h
      exact ⟨rfl, by omega⟩
    · exact ih h (by omega)

theorem skip_ofRank (hn : n ≤ m.numSlots) (ht : m.numSlots - n < turns) :
    m.skip turns (ofRank n) = some (ofRank ((m.ranksFrom n).headD m.numSlots)) := by
  induction turns generalizing n with
  | zero => omega
  | succ turns ih =>
    rw [skip]
    by_cases hlt : n < m.numSlots
    · rw [ranksFrom_of_lt hlt]
      by_cases hocc : m.Occ (ofRank n)
      · rw [if_neg fun h => hocc h.2, if_pos hocc]
        rfl
      · rw [if_pos ⟨(ofRank_lt m n).mpr hlt, not_not.mp hocc⟩, if_neg hocc, next_ofRank]
        exact ih hlt (by omega)
    · rw [if_neg fun h => hlt ((ofRank_lt m n).mp h.1), ranksFrom_of_le (Nat.not_lt.mp hlt)]
      exact congrArg (some ∘ ofRank) (Nat.le_antisymm hn (Nat.not_lt.mp hlt))

/-! ## The whole iteration -/

theorem drop_ranksFrom {r : Nat} {rest : List Nat} (h : (m.ranksFrom n).drop k = r :: rest) :
    rest = m.ranksFrom (r + 1) ∧ r < m.numSlots := by
  induction k generalizing n with
  | zero => exact ranksFrom_cons h
  | succ k ih =>
    cases hn : m.ranksFrom n with
    | nil =>
      rw [hn] at h
      cases h
    | cons a as =>
      rw [hn, List.drop_succ_cons, (ranksFrom_cons hn).1] at h
      exact ih h

theorem advance_eq (ht : m.numSlots < turns) (hk : k ≤ (m.ranksFrom 0).length) :
    m.advance turns k = some (ofRank (((m.ranksFrom 0).drop k).headD m.numSlots)) := by
  induction k with
  | zero => exact skip_ofRank (Nat.zero_le _) ht
  | succ k ih =>
    rw [advance, ih (by omega), Option.bind_some, increment, next_ofRank]
    cases hd : (m.ranksFrom 0).drop k with
    | nil =>
      have := List.drop_eq_nil_iff.mp hd
      omega
    | cons r rest =>
      obtain ⟨hrest, hr⟩ := drop_ranksFrom hd
      rw [List.drop_add_one_eq_tail_drop, hd, List.tail_cons, hrest]
      exact skip_ofRank hr (by omega)

theorem range_numSlots (n : Nat) : List.range (kEntriesPerBucket * n) =
    (List.range n).flatMap fun b => slotIdxs.map fun i => kEntriesPerBucket * b + i.val := by
  induction n with
  | zero => rfl
  | succ n ih =>
    rw [List.range_succ, List.flatMap_append, ← ih, Nat.mul_succ, List.range_add]
    rfl

theorem ofRank_add (b : Nat) (i : Fin kEntriesPerBucket) :
    ofRank (kEntriesPerBucket * b + i.val) = (b, i) := by
  have hi : i.val < 4 := i.isLt
  refine Prod.ext ?_ (Fin.ext ?_)
  · show (4 * b + i.val) / 4 = b
    omega
  · show (4 * b + i.val) % 4 = i.val
    omega

/-- The positions are visited in the order in which the entries are rehashed. -/
theorem map_ranksFrom (m : CuckooMap K V) :
    (m.ranksFrom 0).map (fun r => m.deref (ofRank r)) = m.slotIdxList := by
  have hfilter : ∀ l : List Nat,
      (l.filter fun r => m.Occ (ofRank r)).map (fun r => m.deref (ofRank r)) =
        l.filterMap fun r => if (m.slotAt (ofRank r)).hash = 0 then none
          else some (m.slotAt (ofRank r)).idx := fun l => by
    rw [← List.filterMap_eq_filter, List.map_filterMap]
    congr 1
    funext r
    by_cases hz : (m.slotAt (ofRank r)).hash = 0
    · rw [Option.guard, if_neg (by rw [decide_eq_true_eq]; exact not_not.mpr hz), if_pos hz]
      rfl
    · have hocc : m.Occ (ofRank r) := hz
      rw [Option.guard, if_pos (decide_eq_true hocc), if_neg hz]
      rfl
  rw [ranksFrom, hfilter, Nat.sub_zero, ← List.range_eq_range', numSlots, range_numSlots,
    List.filterMap_flatMap]
  unfold slotIdxList
  congr 1
  funext b
  rw [List.filterMap_map]
  congr 1
  funext i
  simp only [Function.comp_apply, ofRank_add]

variable [Inhabited K] [Inhabited V]

/-- From `begin()`, `++` reaches `end()` after `Count()` steps, and on the way the iterator stands on
every live entry once, in the order in which `items` lists them. -/
theorem WellFormed.iterator_visits_live (h : WellFormed H m) (ht : m.numSlots < turns) :
    ∃ idxs : List Nat, idxs.Perm m.liveIdxs ∧ idxs.Nodup ∧ idxs.map m.entryAt = m.items ∧
      (∀ k < m.count, ∃ p, m.advance turns k = some p ∧ m.end_ turns ≠ some p ∧
        idxs[k]? = some (m.deref p)) ∧
      m.advance turns m.count = m.end_ turns := by
  have hend : m.end_ turns = some (ofRank m.numSlots) := by
    have hskip : m.skip turns (ofRank m.numSlots) =
        some (ofRank ((m.ranksFrom m.numSlots).headD m.numSlots)) :=
      skip_ofRank (Nat.le_refl _) (by omega)
    rw [ranksFrom_of_le (Nat.le_refl _), List.headD_nil, ofRank_numSlots] at hskip
    rw [ofRank_numSlots]
    exact hskip
  have hnd := nodup_slotIdxList h.inj
  have hused : m.slotIdxList.Perm m.usedIdxs :=
    (List.perm_ext_iff_of_nodup hnd h.nodup_usedIdxs).mpr fun i => by
      rw [mem_slotIdxList, mem_usedIdxs]
  have hlive : m.slotIdxList.Perm m.liveIdxs :=
    (List.perm_ext_iff_of_nodup hnd m.nodup_liveIdxs).mpr fun i => by
      rw [hused.mem_iff, mem_liveIdxs, h.live_iff]
  have hlen : (m.ranksFrom 0).length = m.count := by
    have := hused.length_eq
    rw [← map_ranksFrom, List.length_map, usedIdxs, List.length_map] at this
    rw [this, count, h.num]
  refine ⟨m.slotIdxList, hlive, hnd, items_eq.symm, fun k hk => ?_, ?_⟩
  · have hk' : k < (m.ranksFrom 0).length := hlen ▸ hk
    have hdrop := List.drop_eq_getElem_cons hk'
    obtain ⟨-, hlt⟩ := drop_ranksFrom hdrop
    refine ⟨ofRank (m.ranksFrom 0)[k], ?_, ?_, ?_⟩
    · rw [advance_eq ht (Nat.le_of_lt hk'), hdrop]
      rfl
    · rw [hend]
      intro he
      have hfst := congrArg Prod.fst (Option.some.inj he)
      rw [ofRank_numSlots] at hfst
      exact absurd ((ofRank_lt m _).mpr hlt) (Nat.not_lt.mpr (Nat.le_of_eq hfst))
    · rw [← map_ranksFrom, List.getElem?_map, List.getElem?_eq_getElem hk']
      rfl
  · rw [advance_eq ht (Nat.le_of_eq hlen.symm), hend, ← hlen, List.drop_length]
    rfl

/-- The table after two insertions. -/
def twoEntries : CuckooMap Nat Nat :=
  match run natHashing [.insert 1 10, .insert 2 20] (new kInitNumBucket kInitNumEntries) with
  | some (_, m) => m
  | none => new kInitNumBucket kInitNumEntries

theorem rep_twoEntries : Rep natHashing twoEntries := by
  obtain ⟨os, m, hr, hrep⟩ := rep_run natHashing [.insert 1 10, .insert 2 20]
  rw [twoEntries, hr]
  exact hrep

theorem twoEntries_visited : twoEntries.count = 2 ∧ twoEntries.numSlots < 17 ∧
    ∃ idxs : List Nat, idxs.Perm twoEntries.liveIdxs ∧ idxs.Nodup ∧
      idxs.map twoEntries.entryAt = twoEntries.items ∧
      (∀ k < twoEntries.count, ∃ p, twoEntries.advance 17 k = some p ∧
        twoEntries.end_ 17 ≠ some p ∧ idxs[k]? = some (twoEntries.deref p)) ∧
      twoEntries.advance 17 twoEntries.count = twoEntries.end_ 17 :=
  ⟨by decide +kernel, by decide +kernel, rep_twoEntries.wellFormed.iterator_visits_live (by decide +kernel)⟩

end CuckooMap

end Bess.Cuckoo
