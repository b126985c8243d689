import Bess.Cuckoo.Contents

/-!
# The cuckoo table is a finite map

`MapStep` says what the operations of a finite map do and return; the one liberty it leaves is that
an insertion of a new key may return null and change nothing. Every run of operations on a new table
terminates, and its results are those of a run of the finite map (`run_refines`).

An insertion rebuilds the table when no space can be made. The rebuild inserts the entries into a
fresh table, so a nested rebuild has fewer entries to insert than the one around it; that bounds the
nesting by the number of entries.
-/

namespace Bess.Cuckoo

open Bess.AssocMap

variable {K V : Type} [Inhabited K] [Inhabited V] {H : Hashing K}

/-! ## The operations of a finite map -/

inductive Op (K V : Type)
  | insert (key : K) (value : V)
  | find (key : K)
  | remove (key : K)
  | clear
  | count

/-- What a caller sees of an operation: the entry behind the returned pointer, if it is not null,
the flag, or the number. -/
inductive Obs (K V : Type)
  | entry (e : Option (K × V))
  | removed (b : Bool)
  | cleared
  | count (n : Nat)

inductive MapStep (E : KeyEq K) (l : List (K × V)) : Op K V → Obs K V → List (K × V) → Prop
  | insertOld {key : K} {value : V} {e : K × V} (h : AssocMap.find E l key = some e) :
    MapStep E l (.insert key value) (.entry (some (e.1, value))) (update E l key value)
  | insertNew {key : K} {value : V} (h : AssocMap.find E l key = none) :
    MapStep E l (.insert key value) (.entry (some (key, value))) ((key, value) :: l)
  | insertNull {key : K} {value : V} (h : AssocMap.find E l key = none) :
    MapStep E l (.insert key value) (.entry none) l
  | find {key : K} : MapStep E l (.find key) (.entry (AssocMap.find E l key)) l
  | remove {key : K} :
    MapStep E l (.remove key) (.removed (AssocMap.find E l key).isSome) (erase E l key)
  | clear : MapStep E l .clear .cleared []
  | count : MapStep E l .count (.count l.length) l

inductive MapRun (E : KeyEq K) : List (K × V) → List (Op K V) → List (Obs K V) → Prop
  | nil {l : List (K × V)} : MapRun E l [] []
  | cons {l l' : List (K × V)} {op : Op K V} {o : Obs K V} {ops : List (Op K V)}
    {os : List (Obs K V)} : MapStep E l op o l' → MapRun E l' ops os →
    MapRun E l (op :: ops) (o :: os)

namespace CuckooMap

variable {m m' : CuckooMap K V} {key : K} {value : V}

/-! ## Insertion -/

/-- A key that is not in the table was added, or could not be added. -/
inductive Added (m : CuckooMap K V) (key : K) (value : V) : Option Nat → CuckooMap K V → Prop
  | full {m' : CuckooMap K V} (hc : m'.contents.Perm m.contents) : Added m key value none m'
  | added {m' : CuckooMap K V} {i : Nat} (he : m'.entryAt i = (key, value))
    (hc : m'.contents.Perm ((key, value) :: m.contents)) : Added m key value (some i) m'

theorem Added.of_perm {m₁ : CuckooMap K V} {r : Option Nat} (h : Added m₁ key value r m')
    (hc : m₁.contents.Perm m.contents) : Added m key value r m' := by
  cases h with
  | full h => exact .full (h.trans hc)
  | added he h => exact .added he (h.trans (hc.cons _))

/-- One of the two buckets of the key has a free slot: the key is added in this round. -/
theorem Rep.addEntry_of_space (h : Rep H m)
    (hnew : AssocMap.find H.toKeyEq m.contents key = none)
    (hs : ¬ m.Full (m.bucketOf (H.hash key)) ∨ ¬ m.Full (m.bucketOf (hashSecondary (H.hash key))))
    (value : V) (n : Nat) : ∃ r m', addEntry H key value (n + 1) m = some (r, m') ∧ Rep H m' ∧
      Added m key value r m' := by
  unfold addEntry
  rcases h.addToBucket_spec (.inl rfl) hnew value with
    ⟨hf, he⟩ | ⟨-, i, m', he, hr, hi, hc⟩
  · rcases h.addToBucket_spec (.inr rfl) hnew value with
      ⟨hf', -⟩ | ⟨-, i, m', he', hr, hi, hc⟩
    · exact absurd (hs.resolve_left fun hn => hn hf) fun hn => hn hf'
    · exact ⟨some i, m', by simp [he, he'], hr, .added hi hc⟩
  · exact ⟨some i, m', by simp [he], hr, .added hi hc⟩

/-- Two rounds are enough: space that was made is used in the next round. -/
theorem Rep.addEntry_spec (h : Rep H m)
    (hnew : AssocMap.find H.toKeyEq m.contents key = none) (value : V) :
    ∃ r m', addEntry H key value 2 m = some (r, m') ∧ Rep H m' ∧ Added m key value r m' := by
  by_cases hs : ¬ m.Full (m.bucketOf (H.hash key)) ∨
      ¬ m.Full (m.bucketOf (hashSecondary (H.hash key)))
  · exact h.addEntry_of_space hnew hs value 1
  have hf : m.Full (m.bucketOf (H.hash key)) := by
    by_contra hn
    exact hs (.inl hn)
  have hf' : m.Full (m.bucketOf (hashSecondary (H.hash key))) := by
    by_contra hn
    exact hs (.inr hn)
  have he : m.addToBucket H (m.bucketOf (H.hash key)) key value = some (none, m) := by
    rcases h.addToBucket_spec (.inl rfl) hnew value with ⟨-, he⟩ | ⟨hn, -⟩
    · exact he
    · exact absurd hf hn
  have he' : m.addToBucket H (m.bucketOf (hashSecondary (H.hash key))) key value =
      some (none, m) := by
    rcases h.addToBucket_spec (.inr rfl) hnew value with ⟨-, he⟩ | ⟨hn, -⟩
    · exact he
    · exact absurd hf' hn
  -- after space was made in one of the two buckets, the second round adds the key
  have hagain : ∀ b i m₁, m.Home (H.hash key) b → Emptied H m m₁ (b, i) →
      ∃ r m', addEntry H key value 1 m₁ = some (r, m') ∧ Rep H m' ∧ Added m key value r m' := by
    intro b i m₁ hb hem
    have hc := hem.same.contents
    have hspace : ¬ m₁.Full (m₁.bucketOf (H.hash key)) ∨
        ¬ m₁.Full (m₁.bucketOf (hashSecondary (H.hash key))) := by
      rw [hem.same.bucketOf, hem.same.bucketOf]
      rcases hb with rfl | rfl
      · exact .inl fun hfull => hem.empty (hfull i)
      · exact .inr fun hfull => hem.empty (hfull i)
    obtain ⟨r, m', hr, hrep, hadd⟩ :=
      hem.rep.addEntry_of_space (hc ▸ hnew) hspace value 0
    exact ⟨r, m', hr, hrep, hadd.of_perm (hc ▸ List.Perm.refl _)⟩
  unfold addEntry
  rcases hm : makeSpace H kMaxCuckooPath m (m.bucketOf (H.hash key)) with ⟨i, m₁⟩
  cases i with
  | some i =>
    obtain ⟨r, m', hr, hrest⟩ := hagain _ i m₁ (.inl rfl) (makeSpace_three h hf hm)
    exact ⟨r, m', by simp [he, he', hm, hr], hrest⟩
  | none =>
    obtain rfl : m₁ = m := by
      have := makeSpace_none (H := H) (m := m) kMaxCuckooPath (m.bucketOf (H.hash key)) (by simp [hm])
      simpa [hm] using this
    rcases hm' : makeSpace H kMaxCuckooPath m₁ (m₁.bucketOf (hashSecondary (H.hash key))) with
      ⟨i, m₂⟩
    cases i with
    | some i =>
      obtain ⟨r, m', hr, hrest⟩ := hagain _ i m₂ (.inr rfl) (makeSpace_three h hf' hm')
      exact ⟨r, m', by simp [he, he', hm, hm', hr], hrest⟩
    | none =>
      obtain rfl : m₂ = m₁ := by
        have := makeSpace_none (H := H) (m := m₁) kMaxCuckooPath
          (m₁.bucketOf (hashSecondary (H.hash key))) (by simp [hm'])
        simpa [hm'] using this
      exact ⟨none, m₂, by simp [he, he', hm, hm'], h, .full (List.Perm.refl _)⟩

/-- An insertion updated the entry of the key, or added the key, or could not add it. -/
inductive Inserted (H : Hashing K) (m : CuckooMap K V) (key : K) (value : V) :
    Option Nat → CuckooMap K V → Prop
  | old {m' : CuckooMap K V} {i : Nat} {e : K × V}
    (hf : AssocMap.find H.toKeyEq m.contents key = some e) (he : m'.entryAt i = (e.1, value))
    (hc : m'.contents = update H.toKeyEq m.contents key value) :
    Inserted H m key value (some i) m'
  | new {r : Option Nat} {m' : CuckooMap K V}
    (hf : AssocMap.find H.toKeyEq m.contents key = none) (ha : Added m key value r m') :
    Inserted H m key value r m'

/-- `insert` works on every table of fewer than `n` entries. -/
def InsertsBelow (H : Hashing K) (n : Nat)
    (insert : CuckooMap K V → K → V → Option (Option Nat × CuckooMap K V)) : Prop :=
  ∀ m, Rep H m → m.numEntries < n → ∀ key value,
    ∃ r m', insert m key value = some (r, m') ∧ Rep H m' ∧ Inserted H m key value r m'

section Rebuild

variable {insert : CuckooMap K V → K → V → Option (Option Nat × CuckooMap K V)} {n : Nat}

theorem rehash_spec (hins : InsertsBelow H n insert) {es : List (K × V)} (h : Rep H m)
    (hd : Distinct H.toKeyEq (es ++ m.contents)) (hn : m.numEntries + es.length ≤ n) :
    ∃ done m', rehash insert es m = some (done, m') ∧
      (done = true → Rep H m' ∧ m'.contents.Perm (es ++ m.contents)) := by
  induction es generalizing m with
  | nil => exact ⟨true, m, rfl, fun _ => ⟨h, List.Perm.refl _⟩⟩
  | cons e es ih =>
    simp only [List.length_cons] at hn
    obtain ⟨r, m₁, he, h₁, hi⟩ := hins m h (by omega) e.1 e.2
    have hnew : AssocMap.find H.toKeyEq m.contents e.1 = none := by
      rw [AssocMap.find_eq_none]
      intro a ha
      rw [KeyEq.comm]
      exact (List.pairwise_cons.mp hd).1 a (List.mem_append_right _ ha)
    cases hi with
    | old hf => rw [hf] at hnew; cases hnew
    | new _ ha =>
      cases ha with
      | full hc => exact ⟨false, m₁, by simp [rehash, he], fun hf => by cases hf⟩
      | added _ hc =>
        have hp : (es ++ m₁.contents).Perm (e :: es ++ m.contents) :=
          (hc.append_left es).trans List.perm_middle
        have hlen : m₁.numEntries = m.numEntries + 1 := by
          rw [← h₁.length_contents, ← h.length_contents, hc.length_eq, List.length_cons]
        obtain ⟨done, m', hr, hspec⟩ := ih h₁ (hd.perm hp.symm) (by omega)
        exact ⟨done, m', by simp [rehash, he, hr], fun hdone =>
          ⟨(hspec hdone).1, (hspec hdone).2.trans hp⟩⟩

/-- A rebuild keeps the contents, whether it goes through or is given up. -/
theorem Rep.expandBuckets_spec (hins : InsertsBelow H n insert) (h : Rep H m)
    (hn : m.numEntries ≤ n) :
    ∃ m', expandBuckets insert m = some m' ∧ Rep H m' ∧ m'.contents.Perm m.contents := by
  obtain ⟨k, hk⟩ := h.pow2
  have hnew : Rep H (new (m.buckets.length * 2) m.entries.length : CuckooMap K V) := by
    rw [hk, ← Nat.pow_succ]
    exact rep_new h.room
  have hc : (new (m.buckets.length * 2) m.entries.length : CuckooMap K V).contents = [] :=
    contents_new _ _
  have hitems := h.items_perm
  have hd : Distinct H.toKeyEq (m.items ++
      (new (m.buckets.length * 2) m.entries.length : CuckooMap K V).contents) := by
    rw [hc, List.append_nil]
    exact h.distinct.perm hitems.symm
  have hlen : m.items.length = m.numEntries := by
    rw [hitems.length_eq, h.length_contents]
  obtain ⟨done, m', hr, hspec⟩ := rehash_spec hins hnew hd (by
    show 0 + m.items.length ≤ n
    omega)
  rw [hc, List.append_nil] at hspec
  unfold expandBuckets
  cases done with
  | true =>
    obtain ⟨h', hp⟩ := hspec rfl
    exact ⟨m', by simp [hr], h', hp.trans hitems⟩
  | false => exact ⟨m, by simp [hr], h, List.Perm.refl _⟩

theorem Rep.addOrExpand_spec (hins : InsertsBelow H n insert) (h : Rep H m)
    (hn : m.numEntries ≤ n) (hnew : AssocMap.find H.toKeyEq m.contents key = none) (value : V)
    (trials : Nat) :
    ∃ r m', addOrExpand H insert key value trials m = some (r, m') ∧ Rep H m' ∧
      Added m key value r m' := by
  induction trials generalizing m with
  | zero => exact ⟨none, m, rfl, h, .full (List.Perm.refl _)⟩
  | succ trials ih =>
    obtain ⟨r, m₁, he, h₁, ha⟩ := h.addEntry_spec hnew value
    cases ha with
    | added hi hc => exact ⟨_, m₁, by simp [addOrExpand, he], h₁, .added hi hc⟩
    | full hc =>
      by_cases ht : trials = 0
      · exact ⟨none, m₁, by simp [addOrExpand, he, ht], h₁, .full hc⟩
      · have hlen : m₁.numEntries = m.numEntries := by
          rw [← h₁.length_contents, ← h.length_contents, hc.length_eq]
        obtain ⟨m₂, he₂, h₂, hc₂⟩ := h₁.expandBuckets_spec hins (by omega)
        have hc' := hc₂.trans hc
        have hlen₂ : m₂.numEntries = m.numEntries := by
          rw [← h₂.length_contents, ← h.length_contents, hc'.length_eq]
        obtain ⟨r, m', hr, h', ha'⟩ := ih h₂ (by omega)
          (by rw [h₂.distinct.find_perm hc', hnew])
        exact ⟨r, m', by simp [addOrExpand, he, ht, he₂, hr], h', ha'.of_perm hc'⟩

end Rebuild

/-- The nesting of rebuilds is bounded by the number of entries. -/
theorem insertN_spec (n : Nat) : InsertsBelow H n (insertN (V := V) H n) := by
  induction n with
  | zero => exact fun m _ hn => absurd hn (Nat.not_lt_zero _)
  | succ n ih =>
    intro m h hn key value
    unfold insertN
    cases hf : findWithHash H m (H.hash key) key with
    | some i =>
      obtain ⟨hi, hk⟩ := h.findWithHash_eq_some.mp hf
      refine ⟨some i, _, rfl, h.setValue hi, .old (e := m.entryAt i) ?_ ?_
        (h.contents_setValue hi hk)⟩
      · exact h.distinct.find_eq_some.mpr ⟨mem_contents.mpr ⟨i, hi, rfl⟩, hk⟩
      · rw [entryAt_set hi.1, if_pos rfl]
    | none =>
      have hnew := h.findWithHash_eq_none.mp hf
      obtain ⟨r, m', hr, h', ha⟩ := h.addOrExpand_spec ih (by omega) hnew value 3
      exact ⟨r, m', hr, h', .new hnew ha⟩

theorem Rep.insert_spec (h : Rep H m) (key : K) (value : V) :
    ∃ r m', m.insert H key value = some (r, m') ∧ Rep H m' ∧ Inserted H m key value r m' :=
  insertN_spec _ m h (Nat.lt_succ_self _) key value

/-! ## Refinement -/

/-- One operation on the table, with what the caller sees. -/
def step (H : Hashing K) (m : CuckooMap K V) : Op K V → Option (Obs K V × CuckooMap K V)
  | .insert key value => do
    let (r, m) ← m.insert H key value
    some (.entry (r.map m.entryAt), m)
  | .find key => some (.entry (m.find H key), m)
  | .remove key => some (.removed (m.remove H key).1, (m.remove H key).2)
  | .clear => some (.cleared, m.clear)
  | .count => some (.count m.count, m)

def run (H : Hashing K) : List (Op K V) → CuckooMap K V → Option (List (Obs K V) × CuckooMap K V)
  | [], m => some ([], m)
  | op :: ops, m => do
    let (o, m) ← step H m op
    let (os, m) ← run H ops m
    some (o :: os, m)

theorem step_refines (h : Rep H m) {l : List (K × V)} (hl : m.contents.Perm l) (op : Op K V) :
    ∃ o m' l', step H m op = some (o, m') ∧ MapStep H.toKeyEq l op o l' ∧ Rep H m' ∧
      m'.contents.Perm l' := by
  have hfind : ∀ key, AssocMap.find H.toKeyEq m.contents key = AssocMap.find H.toKeyEq l key :=
    fun key => h.distinct.find_perm hl
  cases op with
  | insert key value =>
    obtain ⟨r, m', hr, h', hi⟩ := h.insert_spec key value
    cases hi with
    | @old _ i e hf he hc =>
      refine ⟨.entry (some (e.1, value)), m', update H.toKeyEq l key value, ?_,
        .insertOld (hfind key ▸ hf), h', hc ▸ update_perm hl key value⟩
      simp [step, hr, he]
    | new hf ha =>
      rw [hfind] at hf
      cases ha with
      | full hc =>
        exact ⟨.entry none, m', l, by simp [step, hr], .insertNull hf, h', hc.trans hl⟩
      | added he hc =>
        exact ⟨.entry (some (key, value)), m', (key, value) :: l, by simp [step, hr, he],
          .insertNew hf, h', hc.trans (hl.cons _)⟩
  | find key =>
    refine ⟨.entry (m.find H key), m, l, rfl, ?_, h, hl⟩
    rw [h.find_eq, hfind]
    exact .find
  | remove key =>
    obtain ⟨h', hb, hc⟩ := h.remove_spec key
    refine ⟨.removed (m.remove H key).1, (m.remove H key).2, erase H.toKeyEq l key, rfl, ?_, h',
      hc.trans (erase_perm hl key)⟩
    rw [hb, hfind]
    exact .remove
  | clear =>
    exact ⟨.cleared, m.clear, [], rfl, .clear, rep_new (k := 2) (by decide),
      contents_new (K := K) (V := V) _ _ ▸ List.Perm.refl _⟩
  | count =>
    refine ⟨.count m.numEntries, m, l, rfl, ?_, h, hl⟩
    rw [← h.length_contents, hl.length_eq]
    exact .count

theorem run_refines (h : Rep H m) {l : List (K × V)} (hl : m.contents.Perm l)
    (ops : List (Op K V)) :
    ∃ os m', run H ops m = some (os, m') ∧ MapRun H.toKeyEq l ops os ∧ Rep H m' := by
  induction ops generalizing m l with
  | nil => exact ⟨[], m, rfl, .nil, h⟩
  | cons op ops ih =>
    obtain ⟨o, m₁, l₁, he, hs, h₁, hl₁⟩ := step_refines h hl op
    obtain ⟨os, m₂, he₂, hr, h₂⟩ := ih h₁ hl₁
    exact ⟨o :: os, m₂, by simp [run, he, he₂], .cons hs hr, h₂⟩

end CuckooMap

end Bess.Cuckoo
