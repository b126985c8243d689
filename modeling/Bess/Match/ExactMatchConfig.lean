import Bess.Match.ExactMatch

/-!
# GetRuntimeConfig and SetRuntimeConfig of ExactMatch

The rules are exported as the pieces of their keys, in the order of the iterator and then sorted, and
imported by `AddRule`. The padding of a key is not exported; it is zero in every key that a rule gave.
-/

namespace Bess.Match.ExactMatch

open Bess.ByteMem Bess.Cuckoo Bess.Packing Bess.AssocMap
open Wildcard (FieldData isValidGate)

/-! ## The commands -/

def FieldData.valueBin : FieldData → List Byte
  | .valueBin bs => bs
  | _ => []

/-- The rule of an entry of the table. -/
def exportRule (fs : List ExactMatchField) (kv : Mem × BitVec 16) : RuleArg :=
  ⟨kv.2.setWidth 64, fs.map fun f => .valueBin (bytes kv.1 f.pos f.size)⟩

/-- The values of two rules in the order of the fields. -/
def valuesLess : List FieldData → List FieldData → Bool
  | a :: as, b :: bs =>
    if FieldData.valueBin a ≠ FieldData.valueBin b then FieldData.valueBin a < FieldData.valueBin b
    else valuesLess as bs
  | _, _ => false

def ruleLess (a b : RuleArg) : Bool :=
  if a.gate ≠ b.gate then a.gate < b.gate else valuesLess a.fields b.fields

/-- The default gate and the rules. -/
def getRuntimeConfig (e : ExactMatch) : BitVec 64 × List RuleArg :=
  (e.defaultGate.setWidth 64,
    (e.table.table.items.map (exportRule e.table.fields)).mergeSort fun a b => !ruleLess b a)

variable {hash : List Byte → BitVec 64} {e e' : ExactMatch}

def commandDelete (hash : List Byte → BitVec 64) (e : ExactMatch) (fields : List FieldData) :
    Option (Error × ExactMatch) :=
  if fields.length = 0 then some ((einval, "argument must be a list"), e)
  else
    match ruleFieldsFromPb e.table fields with
    | none => none
    | some rule =>
      some ((e.table.deleteRule hash rule).1, { e with table := (e.table.deleteRule hash rule).2 })

/-- The states of a module, with any fields; `SetRuntimeConfig` is made of the last steps. -/
inductive Reachable (hash : List Byte → BitVec 64) : ExactMatch → Prop
  | fresh {e : ExactMatch} (h : e.table.table = CuckooMap.new kInitNumBucket kInitNumEntries) :
    Reachable hash e
  | delete {e e' : ExactMatch} {fields : List FieldData} {err : Error} (h : Reachable hash e)
    (hs : commandDelete hash e fields = some (err, e')) : Reachable hash e'
  | clear {e : ExactMatch} (h : Reachable hash e) :
    Reachable hash { e with table := e.table.clearRules }
  | setDefaultGate {e : ExactMatch} (h : Reachable hash e) (gate : BitVec 64) :
    Reachable hash { e with defaultGate := gate.setWidth 16 }
  | add {e e' : ExactMatch} {arg : RuleArg} {err : Error} {ok : Bool} (h : Reachable hash e)
    (hs : addRule hash e arg = some (err, ok, e')) : Reachable hash e'

/-! ## The entries of a table -/

/-- The key is one that a rule gives: its padding is zero. -/
def Padded (t : ExactMatchTable (BitVec 16)) (key : Mem) : Prop :=
  t.fields ≠ [] ∧ ∀ i, t.rawKeySize ≤ i → i < t.totalKeySize → key i = 0

structure Sound (hash : List Byte → BitVec 64) (e : ExactMatch) : Prop where
  rep : CuckooMap.Rep (e.table.hashing hash) e.table.table
  entries : ∀ kv ∈ e.table.table.contents, Padded e.table kv.1 ∧ isValidGate kv.2 = true

theorem padded_gatherKey {t : ExactMatchTable (BitVec 16)} {rule : ExactMatchTable.RuleFields}
    {key : Mem} (hne : rule ≠ []) (h : t.gatherKey rule = .ok key) : Padded t key := by
  by_cases hws : ExactMatchTable.WellSized t.fields rule
  · rw [ExactMatchTable.gatherKey_of_wellSized hws] at h
    cases h
    refine ⟨fun hnil => hne (List.length_eq_zero_iff.mp (by rw [hws.1, hnil]; rfl)), fun i hlow _ => ?_⟩
    obtain ⟨hpacked, htotal⟩ := t.packed.zip hws.1.ge
    refine hpacked.writeAll_tail ?_ rfl fun p _ k h1 h2 => by omega
    rw [Nat.zero_add, htotal, ← t.raw_eq]
    exact hlow
  · obtain ⟨err, herr⟩ := ExactMatchTable.gatherKey_of_not_wellSized hws
    rw [herr] at h
    cases h

theorem sound_fresh (h : e.table.table = CuckooMap.new kInitNumBucket kInitNumEntries) :
    Sound hash e := by
  refine ⟨(ExactMatchTable.holds_new h).rep, fun kv hkv => ?_⟩
  rw [h, CuckooMap.contents_new] at hkv
  cases hkv

theorem Reachable.sound (h : Reachable hash e) : Sound hash e := by
  induction h with
  | fresh h => exact sound_fresh h
  | clear _ _ => exact sound_fresh rfl
  | setDefaultGate _ _ ih => exact ⟨ih.rep, ih.entries⟩
  | @delete e e' fields err _ hs ih =>
    unfold commandDelete at hs
    split at hs
    · cases hs
      exact ih
    split at hs
    · cases hs
    cases hs
    unfold ExactMatchTable.deleteRule
    split
    · exact ih
    split
    · exact ih
    · rename_i key _
      obtain ⟨hrep, -, hperm⟩ := ih.rep.remove_spec key
      have hsub : ∀ kv ∈ (e.table.table.remove (e.table.hashing hash) key).2.contents,
          Padded e.table kv.1 ∧ isValidGate kv.2 = true := fun kv hkv =>
        ih.entries kv (List.mem_filter.mp (hperm.mem_iff.mp hkv)).1
      simp only
      split
      · exact ⟨hrep, hsub⟩
      · exact ⟨hrep, hsub⟩
  | @add e e' arg err ok _ hs ih =>
    have hgate : isValidGate arg.gateIdx = false ∨ isValidGate arg.gateIdx = true := by
      cases isValidGate arg.gateIdx <;> simp
    rcases hgate with hgate | hgate
    · rw [addRule, if_pos hgate] at hs
      cases hs
      exact ih
    rcases addRule_cases hs with ⟨-, rfl⟩ | ⟨rule, t', hrule, htable, rfl⟩
    · exact ih
    rcases ExactMatchTable.addRule_cases htable with ⟨-, rfl⟩ | ⟨key, r, m, hkey, hins, herr, -, rfl⟩
    · exact ih
    · have hne : rule ≠ [] := by
        rintro rfl
        have hempty : e.table.addRule hash arg.gateIdx [] =
          some ((einval, "rule has no fields"), true, e.table) := rfl
        rw [hempty, herr] at htable
        simp [einval] at htable
      obtain ⟨hrep, hall⟩ := ih.rep.insert_entries (P := Padded e.table)
        (Q := fun g => isValidGate g = true) hins ih.entries (padded_gatherKey hne hkey) hgate
      exact ⟨hrep, hall⟩

/-! ## One rule -/

variable {kv : Mem × BitVec 16}

/-- The values of an exported rule. -/
def sliced (fs : List ExactMatchField) (key : Mem) : ExactMatchTable.RuleFields :=
  fs.map fun f => bytes key f.pos f.size

theorem zip_sliced (fs : List ExactMatchField) (key : Mem) :
    fs.zip (sliced fs key) = fs.map fun f => (f, bytes key f.pos f.size) :=
  List.map_prod_left_eq_zip.symm

theorem wellSized_sliced (fs : List ExactMatchField) (key : Mem) :
    ExactMatchTable.WellSized fs (sliced fs key) := by
  refine ⟨by simp [sliced], fun p hp => ?_⟩
  rw [zip_sliced] at hp
  obtain ⟨f, -, rfl⟩ := List.mem_map.mp hp
  exact (length_bytes _ _ _).symm

/-- The key that an exported rule gives is the one it was taken from. -/
theorem sliced_key_eq (hash : List Byte → BitVec 64) (t : ExactMatchTable (BitVec 16)) {key : Mem}
    (hpad : Padded t key) :
    (t.hashing hash).eq
      (writeAll (fun _ => 0) (ExactMatchTable.ruleWrites t.fields (sliced t.fields key))) key = true := by
  have hws := wellSized_sliced t.fields key
  obtain ⟨hpacked, htotal⟩ := t.packed.zip hws.1.ge
  have hle : total ExactMatchField.size t.fields ≤ t.totalKeySize := by
    rw [← t.raw_eq]
    exact le_alignCeil _
  rw [ExactMatchTable.hashing, keyHashing_eq_iff, t.packed.bytes_eq_iff hle]
  constructor
  · intro f hf k hk
    have hmem : (f, bytes key f.pos f.size) ∈ t.fields.zip (sliced t.fields key) := by
      rw [zip_sliced]
      exact List.mem_map.mpr ⟨f, hf, rfl⟩
    refine (hpacked.writeAll_field hmem hk le_rfl).trans ?_
    simp only [bytes_eq_map, List.getD_eq_getElem?_getD, List.getElem?_map, List.getElem?_range hk,
      Option.map_some, Option.getD_some]
  · intro i hlow hhigh
    rw [hpad.2 i (by rw [t.raw_eq]; exact hlow) hhigh]
    refine hpacked.writeAll_tail ?_ rfl fun p _ k h1 h2 => by omega
    rw [Nat.zero_add, htotal]
    exact hlow

theorem ruleFieldsFromPb_export (t : ExactMatchTable (BitVec 16)) (kv : Mem × BitVec 16) :
    ruleFieldsFromPb t (exportRule t.fields kv).fields = some (sliced t.fields kv.1) := by
  have hlen : ¬ maxFields < (exportRule t.fields kv).fields.length := by
    simpa [exportRule] using t.length_le
  rw [ruleFieldsFromPb, if_neg hlen]
  congr 1
  refine List.ext_getElem? fun i => ?_
  simp only [exportRule, sliced, List.getElem?_map, List.getElem?_zipIdx]
  cases t.fields[i]? <;> rfl

theorem gateIdx_export (fs : List ExactMatchField) (kv : Mem × BitVec 16) :
    (exportRule fs kv).gateIdx = kv.2 := by
  simp [exportRule, RuleArg.gateIdx, BitVec.setWidth_setWidth_of_le]

/-- `AddRule` for an exported rule, if the hash table takes its key. -/
theorem addRule_export (hrep : CuckooMap.Rep (e.table.hashing hash) e.table.table)
    (hpad : Padded e.table kv.1) (hgate : isValidGate kv.2 = true) :
    ∃ ok e' key, addRule hash e (exportRule e.table.fields kv) = some ((0, ""), ok, e') ∧
      e'.table.fields = e.table.fields ∧ e'.defaultGate = e.defaultGate ∧
      KeyOf e (exportRule e.table.fields kv) key ∧ (e.table.hashing hash).eq key kv.1 = true ∧
      (CuckooMap.Takes (e.table.hashing hash) e.table.table key →
        ExactMatchTable.Stored hash e.table e'.table key kv.2) := by
  have hrule := ruleFieldsFromPb_export e.table kv
  have hkey := ExactMatchTable.gatherKey_of_wellSized (wellSized_sliced e.table.fields kv.1)
  have hne : (sliced e.table.fields kv.1).length ≠ 0 := by
    simpa [sliced] using hpad.1
  have hne' : (exportRule e.table.fields kv).fields.length ≠ 0 := by
    simpa [exportRule] using hpad.1
  have heq := sliced_key_eq hash e.table hpad
  generalize writeAll (fun _ => 0) (ExactMatchTable.ruleWrites e.table.fields
    (sliced e.table.fields kv.1)) = key at hkey heq
  obtain ⟨r, m, hins, -⟩ := hrep.insert_spec key kv.2
  have htable : e.table.addRule hash kv.2 (sliced e.table.fields kv.1) =
      some ((0, ""), r.isSome, { e.table with table := m }) := by
    rw [ExactMatchTable.addRule, if_neg hne, hkey]
    simp only [hins]
  refine ⟨r.isSome, { e with table := { e.table with table := m } }, key, ?_, rfl, rfl,
    ⟨_, hrule, hkey⟩, heq, ExactMatchTable.stored_of_takes hrep hins⟩
  rw [addRule, gateIdx_export, if_neg (by simp [hgate]), if_neg hne', hrule]
  simp only [htable, Option.map_some]

/-! ## All rules -/

/-- Exported rules with different keys, added to a table: it then has these and what it had. -/
theorem addRules_export {fs : List ExactMatchField} {L : List (Mem × BitVec 16)}
    (hrep : CuckooMap.Rep (e.table.hashing hash) e.table.table) (hfs : e.table.fields = fs)
    (hdist : Distinct (e.table.hashing hash).toKeyEq L)
    (hgood : ∀ kv ∈ L, Padded e.table kv.1 ∧ isValidGate kv.2 = true)
    (htaken : TakenAlong hash e (L.map (exportRule fs))) :
    ∃ e', addRules hash e (L.map (exportRule fs)) = some ((0, ""), e') ∧
      e'.table.fields = fs ∧ e'.defaultGate = e.defaultGate ∧
      CuckooMap.Rep (e.table.hashing hash) e'.table.table ∧
      (∀ kv ∈ L, e'.table.table.look (e.table.hashing hash) kv.1 = some kv.2) ∧
      ∀ k, (∀ kv ∈ L, (e.table.hashing hash).eq kv.1 k = false) →
        e'.table.table.look (e.table.hashing hash) k = e.table.table.look (e.table.hashing hash) k := by
  induction L generalizing e with
  | nil => exact ⟨e, rfl, hfs, rfl, hrep, fun kv hkv => absurd hkv List.not_mem_nil, fun _ _ => rfl⟩
  | cons kv L ih =>
    subst hfs
    obtain ⟨hkv, hL⟩ := List.forall_mem_cons.mp hgood
    obtain ⟨hfirst, hdist⟩ := List.pairwise_cons.mp hdist
    obtain ⟨ok, e₁, key, hadd, hfs₁, hgate₁, hkey, heq, hstored⟩ := addRule_export hrep hkv.1 hkv.2
    obtain ⟨htakes, hrest⟩ := htaken _ _ _ _ hadd hkey
    obtain ⟨hlook, hother⟩ := hstored htakes
    have hsize : e₁.table.rawKeySize = e.table.rawKeySize := by
      rw [e₁.table.raw_eq, hfs₁, ← e.table.raw_eq]
    have htotal : e₁.table.totalKeySize = e.table.totalKeySize := by
      rw [ExactMatchTable.totalKeySize, hsize]
      rfl
    have hH : e₁.table.hashing hash = e.table.hashing hash := by
      rw [ExactMatchTable.hashing, htotal]
      rfl
    have hrep₁ := rep_addRule hrep hadd
    obtain ⟨e', hadds, hfs', hgate', hrep', hin, hout⟩ := ih (e := e₁) hrep₁ hfs₁ (by rwa [hH])
      (fun kv hkv => by
        obtain ⟨hpad, hg⟩ := hL kv hkv
        exact ⟨⟨hfs₁ ▸ hpad.1, by rw [hsize, htotal]; exact hpad.2⟩, hg⟩) hrest
    rw [hH] at hrep' hin hout hlook hother
    have hkv₁ : e₁.table.table.look (e.table.hashing hash) kv.1 = some kv.2 := by
      rw [hH] at hrep₁
      rw [← hrep₁.look_of_eq heq, hlook]
    refine ⟨e', ?_, hfs', hgate'.trans hgate₁, hrep', List.forall_mem_cons.mpr ⟨?_, hin⟩, ?_⟩
    · rw [List.map_cons, addRules, hadd]
      exact (if_neg (by simp)).trans hadds
    · rw [hout kv.1 fun kv' hkv' => ?_, hkv₁]
      rw [KeyEq.comm]
      exact hfirst kv' hkv'
    · intro k hk
      obtain ⟨hk₁, hk⟩ := List.forall_mem_cons.mp hk
      rw [hout k hk]
      refine hother k ?_
      by_contra hc
      have hc : (e.table.hashing hash).eq key k = true := by simpa using hc
      have hsym := (e.table.hashing hash).symm _ _ heq
      rw [(e.table.hashing hash).trans _ _ _ hsym hc] at hk₁
      cases hk₁

theorem find_eq_look (t : ExactMatchTable (BitVec 16)) (key : Mem) (gate : BitVec 16) :
    t.find hash key gate = (t.table.look (t.hashing hash) key).getD gate := by
  unfold ExactMatchTable.find CuckooMap.look
  cases t.table.find (t.hashing hash) key <;> rfl

/-- In every reachable state `e` of a module: the exported configuration can be set in every module
`e₂` with the same fields, whatever its rules, and every lookup then gives the gate it gave in `e`, if
the hash table takes the keys of the rules as they come. -/
theorem runtime_config_round_trip (h : Reachable hash e) (e₂ : ExactMatch)
    (hfields : e₂.table.fields = e.table.fields)
    (htaken : TakenAlong hash ⟨e₂.table.clearRules, e.defaultGate⟩ (getRuntimeConfig e).2) :
    ∃ e', setRuntimeConfig hash e₂ (getRuntimeConfig e).1 (getRuntimeConfig e).2 =
        some ((0, ""), e') ∧ e'.table.fields = e.table.fields ∧
      ∀ key, e'.table.find hash key e'.defaultGate = e.table.find hash key e.defaultGate := by
  obtain ⟨hrep, hentries⟩ := h.sound
  obtain ⟨L, hperm, hL⟩ : ∃ L : List (Mem × BitVec 16), L.Perm e.table.table.contents ∧
      (getRuntimeConfig e).2 = L.map (exportRule e.table.fields) := by
    refine ⟨e.table.table.items.mergeSort fun a b =>
      !ruleLess (exportRule e.table.fields b) (exportRule e.table.fields a), ?_, ?_⟩
    · exact (List.mergeSort_perm _ _).trans hrep.items_perm
    · refine (List.map_mergeSort ?_).symm
      intro a _ b _
      rfl
  have hsize : e₂.table.clearRules.rawKeySize = e.table.rawKeySize :=
    e₂.table.raw_eq.trans ((congrArg _ hfields).trans e.table.raw_eq.symm)
  have htotal : e₂.table.clearRules.totalKeySize = e.table.totalKeySize := congrArg alignCeil hsize
  have hH : e₂.table.clearRules.hashing hash = e.table.hashing hash := congrArg (keyHashing hash) htotal
  have hclear : CuckooMap.Rep (e.table.hashing hash) e₂.table.clearRules.table := by
    rw [← hH]
    exact (ExactMatchTable.holds_new rfl).rep
  have hdist := hrep.distinct.perm hperm.symm
  rw [hL] at htaken
  obtain ⟨e', hadds, hfs, hgate, hrep', hin, hout⟩ :=
    addRules_export (e := ⟨e₂.table.clearRules, e.defaultGate⟩) (by rw [hH]; exact hclear) hfields
      (by rw [hH]; exact hdist) (fun kv hkv => by
        obtain ⟨hpad, hg⟩ := hentries kv (hperm.mem_iff.mp hkv)
        refine ⟨⟨?_, ?_⟩, hg⟩
        · exact hfields ▸ hpad.1
        · simp only [hsize, htotal]
          exact hpad.2) htaken
  simp only [hH] at hrep' hin hout
  have hgate₁ : (getRuntimeConfig e).1.setWidth 16 = e.defaultGate := by
    simp [getRuntimeConfig, BitVec.setWidth_setWidth_of_le]
  refine ⟨e', ?_, hfs, fun key => ?_⟩
  · rw [setRuntimeConfig, hgate₁, hL]
    exact hadds
  · have hH' : e'.table.hashing hash = e.table.hashing hash := by
      have hraw : e'.table.rawKeySize = e.table.rawKeySize :=
        e'.table.raw_eq.trans ((congrArg _ hfs).trans e.table.raw_eq.symm)
      exact congrArg (keyHashing hash) (congrArg alignCeil hraw)
    rw [find_eq_look, find_eq_look, hgate, hH']
    congr 1
    cases hfind : AssocMap.find (e.table.hashing hash).toKeyEq e.table.table.contents key with
    | none =>
      have hnone := AssocMap.find_eq_none.mp hfind
      rw [hout key fun kv hkv => hnone kv (hperm.mem_iff.mp hkv), hrep.look_eq, hfind]
      exact CuckooMap.look_new _ _ _ _ hclear
    | some kv =>
      obtain ⟨hmem, heq⟩ := mem_of_find hfind
      rw [← hrep'.look_of_eq heq, hin kv (hperm.mem_iff.mpr hmem), hrep.look_eq, hfind]
      rfl

/-- The first eight bytes of the packet. -/
def wordModule : ExactMatch :=
  match init [⟨some 0, 8⟩] [] with
  | some (.ok e) => e
  | _ => ⟨.empty, Wildcard.dropGate⟩

def wordRule : RuleArg := ⟨5, [.valueInt 11]⟩

/-- The module with one rule. -/
def wordModule₁ : ExactMatch :=
  ((addRule crcKey wordModule wordRule).map fun r => r.2.2).getD wordModule

theorem wordModule_round_trip : (getRuntimeConfig wordModule₁).2.length = 1 ∧
    ∃ e', setRuntimeConfig crcKey wordModule (getRuntimeConfig wordModule₁).1
      (getRuntimeConfig wordModule₁).2 = some ((0, ""), e') := by
  have hlen : (getRuntimeConfig wordModule₁).2.length = 1 := by decide +kernel
  have hsome : (addRule crcKey wordModule wordRule).isSome = true := by decide +kernel
  obtain ⟨⟨err, ok, e⟩, hadd⟩ := Option.isSome_iff_exists.mp hsome
  have he : wordModule₁ = e := by
    rw [wordModule₁, hadd]
    rfl
  have hreach : Reachable crcKey wordModule₁ := he ▸ .add (.fresh rfl) hadd
  obtain ⟨arg, harg⟩ := List.length_eq_one_iff.mp hlen
  have htaken : TakenAlong crcKey ⟨wordModule.table.clearRules, wordModule₁.defaultGate⟩
      (getRuntimeConfig wordModule₁).2 := by
    rw [harg]
    exact fun _ _ _ key _ _ => ⟨.inr (.inl (CuckooMap.room_new _ _ _ key)), trivial⟩
  have hfields : wordModule.table.fields = wordModule₁.table.fields := by
    rcases addRule_cases hadd with ⟨-, h⟩ | ⟨rule, t', -, htable, h⟩
    · rw [he, h]
    · rcases ExactMatchTable.addRule_cases htable with ⟨-, ht⟩ | ⟨key, r, m, -, -, -, -, ht⟩
      · rw [he, h, ht]
      · rw [he, h, ht]
  obtain ⟨e', hset, -⟩ := runtime_config_round_trip hreach wordModule hfields htaken
  exact ⟨hlen, e', hset⟩

end Bess.Match.ExactMatch
