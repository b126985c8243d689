import Bess.Match.ExactMatchConfig
import Bess.Match.WildcardGates
import Mathlib.Data.Finset.Card

/-!
# GetRuntimeConfig and SetRuntimeConfig of WildcardMatch

`SetRuntimeConfig` clears the hash tables and keeps the tuples. The rules that it adds need tuples for
their masks, next to those that are there, and there can be `MAX_TUPLES` of them.
-/

namespace Bess.Match.Wildcard

open Bess.ByteMem Bess.Cuckoo Bess.Packing Bess.AssocMap

/-! ## The commands -/

/-- The rule of an entry of a tuple with the mask. -/
def exportRule (fs : List WmField) (mask : Mem) (kv : Mem × WmData) : AddArg where
  gate := kv.2.ogate.setWidth 64
  priority := BitVec.ofInt 64 kv.2.priority
  values := fs.map fun f => .valueBin (bytes kv.1 f.pos f.size)
  masks := fs.map fun f => .valueBin (bytes mask f.pos f.size)

def ruleLess (a b : AddArg) : Bool :=
  if a.priority ≠ b.priority then a.priority.slt b.priority
  else if a.gate ≠ b.gate then a.gate < b.gate
  else if a.masks.map ExactMatch.FieldData.valueBin ≠ b.masks.map ExactMatch.FieldData.valueBin then
    ExactMatch.valuesLess a.masks b.masks
  else ExactMatch.valuesLess a.values b.values

def exportRules (s : State) : List AddArg :=
  s.tuples.flatMap fun tuple => tuple.2.items.map (exportRule s.fields tuple.1)

/-- The default gate and the rules. -/
def getRuntimeConfig (s : State) : BitVec 64 × List AddArg :=
  (s.defaultGate.setWidth 64, (exportRules s).mergeSort fun a b => !ruleLess b a)

section Commands

variable (hash : List Byte → BitVec 64)

/-- The loop of `SetRuntimeConfig`. -/
def addRules (s : State) : List AddArg → Option (Error × State)
  | [] => some (success, s)
  | arg :: args =>
    match commandAdd hash s arg with
    | none => none
    | some (err, s) => if err.1 ≠ 0 then some (err, s) else addRules s args

/-- `Clear`, and a new default gate. -/
def State.clearTo (s : State) (gate : BitVec 16) : State := { s.clear with defaultGate := gate }

def setRuntimeConfig (s : State) (defaultGate : BitVec 64) (rules : List AddArg) :
    Option (Error × State) :=
  addRules hash (s.clearTo (defaultGate.setWidth 16)) rules

/-- The states after commands. -/
inductive Steps (s : State) : State → Prop
  | refl : Steps s s
  | step {s' s'' : State} {cmd : Command} {err : Error} (h : Steps s s')
    (hs : step hash s' cmd = some (err, s'')) : Steps s s''

/-- What `CommandAdd` returns if the hash table does not take the key. -/
def collision : Error := (einval, "failed to add a rule")

def NoCollision : State → List AddArg → Prop
  | _, [] => True
  | s, arg :: args => ∀ err s', commandAdd hash s arg = some (err, s') →
      err ≠ collision ∧ NoCollision s' args

end Commands

variable {hash : List Byte → BitVec 64} {s s' : State} {R : Installed} {ps : Pairs} {idx : Nat}
  {fs : List WmField} {vs : List Nat}

/-! ## Values that are longer than their fields

A byte string may be longer than its field; what does not fit is not copied into the key. -/

def fitted (fs : List WmField) (vs : List Nat) : List Nat :=
  (fs.zip vs).map fun x => x.2 % 256 ^ x.1.size

def fittedPairs (fs : List WmField) (ps : Pairs) : Pairs :=
  (fitted fs (ps.map Prod.fst)).zip (fitted fs (ps.map Prod.snd))

theorem zip_fitted (hlen : vs.length = fs.length) :
    fs.zip (fitted fs vs) = (fs.zip vs).map fun x => (x.1, x.2 % 256 ^ x.1.size) := by
  induction fs generalizing vs with
  | nil => rfl
  | cons f fs ih =>
    cases vs with
    | nil => cases hlen
    | cons v vs =>
      have hlen : vs.length = fs.length := by simpa using hlen
      have := ih hlen
      simp only [fitted, List.zip_cons_cons, List.map_cons, List.cons.injEq, true_and] at this ⊢
      exact this

theorem fitsAll_fitted (hlen : vs.length = fs.length) : FitsAll fs (fitted fs vs) := by
  refine ⟨by simp [fitted, hlen], fun x hx => ?_⟩
  rw [zip_fitted hlen] at hx
  obtain ⟨y, -, rfl⟩ := List.mem_map.mp hx
  exact Nat.mod_lt _ (Nat.pow_pos (by decide))

theorem recordKey_fitted (hlen : vs.length = fs.length) :
    recordKey fs (fitted fs vs) = recordKey fs vs := by
  unfold recordKey
  rw [zip_fitted hlen, fieldWrites, fieldWrites, List.map_map]
  generalize fs.zip vs = l
  generalize (fun _ => 0 : Mem) = m
  induction l generalizing m with
  | nil => rfl
  | cons x l ih =>
    have hsame : (⟨x.1.pos, x.1.size, byteAt (x.2 % 256 ^ x.1.size)⟩ : Write).apply m =
        (⟨x.1.pos, x.1.size, byteAt x.2⟩ : Write).apply m := by
      funext i
      by_cases hc : x.1.pos ≤ i ∧ i < x.1.pos + x.1.size
      · have hk : i - x.1.pos < x.1.size := by omega
        exact (if_pos hc).trans ((byteAt_mod _ hk).trans (if_pos hc).symm)
      · exact (if_neg hc).trans (if_neg hc).symm
    rw [List.map_cons, List.map_cons, writeAll_cons, writeAll_cons]
    exact (congrArg (fun m => writeAll m _) hsame).trans (ih _)

theorem fittedPairs_spec (hlen : ps.length = fs.length) :
    Fits fs (fittedPairs fs ps) ∧ maskOf fs (fittedPairs fs ps) = maskOf fs ps ∧
      valueKey fs (fittedPairs fs ps) = valueKey fs ps := by
  have hfst : (ps.map Prod.fst).length = fs.length := by rw [List.length_map, hlen]
  have hsnd : (ps.map Prod.snd).length = fs.length := by rw [List.length_map, hlen]
  have hlens : (fitted fs (ps.map Prod.fst)).length = (fitted fs (ps.map Prod.snd)).length := by
    rw [(fitsAll_fitted hfst).1, (fitsAll_fitted hsnd).1]
  have h1 : (fittedPairs fs ps).map Prod.fst = fitted fs (ps.map Prod.fst) :=
    List.map_fst_zip hlens.le
  have h2 : (fittedPairs fs ps).map Prod.snd = fitted fs (ps.map Prod.snd) :=
    List.map_snd_zip hlens.ge
  refine ⟨⟨?_, ?_⟩, ?_, ?_⟩
  · rw [h1]
    exact fitsAll_fitted hfst
  · rw [h2]
    exact fitsAll_fitted hsnd
  · rw [maskOf, h2, recordKey_fitted hsnd]
    rfl
  · rw [valueKey, h1, recordKey_fitted hfst]
    rfl

theorem extractFrom_ok {i : Nat} {values masks : List FieldData} (hv : values.length = fs.length)
    (hm : masks.length = fs.length) (h : extractFrom i fs values masks = some (.ok ps)) :
    ps.length = fs.length ∧ ∀ p ∈ ps, p.1 &&& p.2 = p.1 := by
  induction fs generalizing i values masks ps with
  | nil =>
    cases h
    exact ⟨rfl, fun p hp => absurd hp List.not_mem_nil⟩
  | cons f fs ih =>
    rcases values with _ | ⟨value, values⟩
    · cases hv
    rcases masks with _ | ⟨mask, masks⟩
    · cases hm
    unfold extractFrom at h
    simp only at h
    split at h
    · cases h
    · cases h
    split at h
    · cases h
    · cases h
    split at h
    · cases h
    rename_i hsub
    split at h
    · cases h
    · cases h
    · rename_i qs hrest
      cases h
      obtain ⟨hlen, hall⟩ := ih (by simpa using hv) (by simpa using hm) hrest
      exact ⟨by rw [List.length_cons, hlen, List.length_cons],
        List.forall_mem_cons.mpr ⟨not_not.mp hsub, hall⟩⟩

theorem extractKeyMask_ok {values masks : List FieldData}
    (h : extractKeyMask s values masks = some (.ok ps)) :
    ps.length = s.fields.length ∧ ∀ p ∈ ps, p.1 &&& p.2 = p.1 := by
  unfold extractKeyMask at h
  split at h
  · cases h
  split at h
  · cases h
  rename_i hv hm
  exact extractFrom_ok (not_not.mp hv) (not_not.mp hm) h

/-! ## The entries of the tuples -/

/-- The key of a rule: its padding is zero and its values have no bits outside of the masks. -/
def KeyOk (s : State) (mask key : Mem) : Prop :=
  (∀ i, s.sizeAcc ≤ i → i < s.totalKeySize → key i = 0) ∧ ∀ i < s.sizeAcc, key i &&& mask i = key i

structure Sound (hash : List Byte → BitVec 64) (s : State) : Prop where
  holds : ∃ R, Holds hash s R
  length_le : s.tuples.length ≤ maxTuples
  entries : ∀ tuple ∈ s.tuples, ∀ kv ∈ tuple.2.contents,
    KeyOk s tuple.1 kv.1 ∧ isValidGate kv.2.ogate = true
  promised : s.tuples ≠ [] → s.promised = true

theorem keyOk_valueKey (hlen : ps.length = s.fields.length) (hsub : ∀ p ∈ ps, p.1 &&& p.2 = p.1)
    {mask : Mem} (hmask : (s.hashing hash).eq mask (maskOf s.fields ps) = true) :
    KeyOk s mask (valueKey s.fields ps) := by
  have hfst : (ps.map Prod.fst).length = s.fields.length := by rw [List.length_map, hlen]
  have hsnd : (ps.map Prod.snd).length = s.fields.length := by rw [List.length_map, hlen]
  rw [State.hashing, keyHashing_eq_iff, bytes_eq_iff] at hmask
  refine ⟨fun i hi _ => recordKey_tail s.packed hfst hi, fun i hi => ?_⟩
  obtain ⟨f, hf, hlow, hhigh⟩ := s.packed.cover (Nat.zero_le i) (by rwa [Nat.zero_add])
  obtain ⟨k, rfl⟩ := Nat.exists_eq_add_of_le hlow
  have hk : k < f.size := by omega
  obtain ⟨n, hn⟩ := List.mem_iff_getElem?.mp hf
  obtain ⟨p, hp⟩ : ∃ p, ps[n]? = some p := by
    have hlt := (List.getElem?_eq_some_iff.mp hn).1
    exact ⟨_, List.getElem?_eq_getElem (hlen ▸ hlt)⟩
  have hzip : ∀ g : Nat × Nat → Nat, (f, g p) ∈ s.fields.zip (ps.map g) := fun g =>
    List.mem_iff_getElem?.mpr ⟨n, by simp [List.getElem?_zip_eq_some, hn, hp]⟩
  have hv := recordKey_field s.packed hfst (hzip Prod.fst) hk
  have hm := recordKey_field s.packed hsnd (hzip Prod.snd) hk
  have hlt : f.pos + k < s.totalKeySize := lt_of_lt_of_le hi s.total_le
  have hsame := hmask (f.pos + k) hlt
  rw [Nat.zero_add] at hsame
  rw [hsame, valueKey, maskOf, hv, hm, ← byteAt_land, hsub p (List.mem_of_getElem? hp)]

/-- The rule that an entry stands for. -/
def WmData.rule (d : WmData) : Rule := ⟨d.priority, d.ogate.toNat⟩

theorem AddArg.kept_data (arg : AddArg) : arg.data.rule.Kept ∧ arg.data.rule.data = arg.data := by
  have h1 := BitVec.le_toInt (arg.priority.setWidth 32)
  have h2 := BitVec.toInt_lt (x := arg.priority.setWidth 32)
  simp only [Nat.reduceSub, Int.reducePow, Int.reduceNeg] at h1 h2
  refine ⟨⟨h1, h2, (arg.gate.setWidth 16).isLt⟩, ?_⟩
  simp [Rule.data, WmData.rule]

theorem insertEntry_ok {key : Mem} {data : WmData} {err : Error}
    (h : insertEntry hash s idx key data = some (err, s')) :
    s.promised = true ∧ (err = success ∨ err = collision) ∧ ∃ tuple r ht,
      s.tuples[idx]? = some tuple ∧ tuple.2.insert (s.hashing hash) key data = some (r, ht) ∧
      s'.fields = s.fields ∧ s'.defaultGate = s.defaultGate ∧
      s'.tuples = s.tuples.set idx (tuple.1, ht) := by
  unfold insertEntry at h
  split at h
  · cases h
  rename_i hok
  split at h
  · cases h
  rename_i tuple htuple
  split at h
  · cases h
  · rename_i ht hins
    cases h
    refine ⟨by simpa using hok, .inr rfl, tuple, none, ht, htuple, hins, ?_⟩
    simp [State.setTuple, htuple]
  · rename_i r ht hins
    cases h
    refine ⟨by simpa using hok, .inl rfl, tuple, some r, ht, htuple, hins, ?_⟩
    simp [State.setTuple, htuple]

theorem ensureTuple_ok {mask : Mem} (h : ensureTuple hash s mask = some (idx, s')) :
    s'.fields = s.fields ∧ s'.defaultGate = s.defaultGate ∧
      ((findTuple hash s mask = some idx ∧ s' = s) ∨
        (findTuple hash s mask = none ∧ s.tuples.length < maxTuples ∧ s'.tuples = s.tuples ++
          [(mask, CuckooMap.new kInitNumBucket kInitNumEntries)])) := by
  unfold ensureTuple at h
  split at h
  · rename_i hidx
    cases h
    exact ⟨rfl, rfl, .inl ⟨hidx, rfl⟩⟩
  · rename_i hidx
    split at h
    · cases h
    · rename_i hlen
      cases h
      exact ⟨rfl, rfl, .inr ⟨hidx, Nat.lt_of_not_le hlen, rfl⟩⟩

theorem keyOk_congr (hf : s'.fields = s.fields) (mask key : Mem) : KeyOk s' mask key ↔ KeyOk s mask key := by
  have hsize : s'.sizeAcc = s.sizeAcc := by rw [State.sizeAcc, hf, State.sizeAcc]
  have htotal : s'.totalKeySize = s.totalKeySize := congrArg alignCeil hsize
  rw [KeyOk, KeyOk, hsize, htotal]

theorem hashing_congr (hf : s'.fields = s.fields) : s'.hashing hash = s.hashing hash := by
  have hsize : s'.sizeAcc = s.sizeAcc := by rw [State.sizeAcc, hf, State.sizeAcc]
  exact congrArg (keyHashing hash) (congrArg alignCeil hsize)

/-- `CommandAdd` for the rule of an entry, after the arguments are decoded. -/
theorem Sound.insertRule (h : Sound hash s) (hR : Holds hash s R) (hlen : ps.length = s.fields.length)
    (hsub : ∀ p ∈ ps, p.1 &&& p.2 = p.1) {arg : AddArg} (hgate : isValidGate arg.data.ogate = true)
    {s₁ : State} {err : Error} (hens : ensureTuple hash s (maskOf s.fields ps) = some (idx, s₁))
    (hins : insertEntry hash s₁ idx (valueKey s₁.fields ps) arg.data = some (err, s')) :
    Sound hash s' ∧ s'.fields = s.fields ∧ s'.defaultGate = s.defaultGate ∧
      (err = success ∨ err = collision) ∧ s'.tuples.map Prod.fst = s₁.tuples.map Prod.fst ∧
      Holds hash s' (if err = success then
        Function.update R (fittedPairs s.fields ps) (some arg.data.rule) else R) := by
  obtain ⟨hfits, hmaskOf, hvalueKey⟩ := fittedPairs_spec hlen
  obtain ⟨hkept, hdata⟩ := arg.kept_data
  rw [← hmaskOf] at hens
  obtain ⟨hf₁, hR₁, hidx⟩ := hR.ensureTuple hfits hens
  obtain ⟨-, hg₁, hcase⟩ := ensureTuple_ok hens
  obtain ⟨hok, herr, tuple, r, ht, htuple, hinsert, hf', hg', htuples⟩ := insertEntry_ok hins
  have hH : s₁.hashing hash = s.hashing hash := hashing_congr hf₁
  rw [hf₁, ← hvalueKey, ← hdata] at hins
  obtain ⟨err', s'', hins', -, hR'⟩ := hR₁.insertEntry hok (hf₁.symm ▸ hfits) hidx hkept
  rw [hf₁, hins] at hins'
  cases hins'
  have hentries₁ : ∀ tuple ∈ s₁.tuples, ∀ kv ∈ tuple.2.contents,
      KeyOk s tuple.1 kv.1 ∧ isValidGate kv.2.ogate = true := by
    rcases hcase with ⟨-, rfl⟩ | ⟨-, -, hnew⟩
    · exact h.entries
    · rw [hnew]
      intro tuple ht kv hkv
      rcases List.mem_append.mp ht with ht | ht
      · exact h.entries tuple ht kv hkv
      · cases List.mem_singleton.mp ht
        rw [CuckooMap.contents_new] at hkv
        cases hkv
  have hlength₁ : s₁.tuples.length ≤ maxTuples := by
    rcases hcase with ⟨-, rfl⟩ | ⟨-, hlt, hnew⟩
    · exact h.length_le
    · rw [hnew, List.length_append]
      exact hlt
  have hmem := List.mem_of_getElem? htuple
  have hmask : (s.hashing hash).eq tuple.1 (maskOf s.fields ps) = true := by
    obtain ⟨e, he, hfind, -⟩ := hR₁.distinct.findIdx?_spec hidx
    cases he.symm.trans htuple
    have heq := (mem_of_find hfind).2
    rwa [hf₁, hmaskOf, hH] at heq
  refine ⟨⟨⟨_, hR'⟩, ?_, ?_, ?_⟩, hf'.trans hf₁, hg'.trans hg₁, herr, ?_, hR'⟩
  · rw [htuples, List.length_set]
    exact hlength₁
  · intro t ht kv hkv
    rw [keyOk_congr (hf'.trans hf₁)]
    rw [htuples] at ht
    rcases List.mem_or_eq_of_mem_set ht with ht | rfl
    · exact hentries₁ t ht kv hkv
    · rw [hf₁] at hinsert
      exact ((hR₁.rep tuple hmem).insert_entries (P := KeyOk s tuple.1)
        (Q := fun d => isValidGate d.ogate = true) hinsert (hentries₁ tuple hmem)
        (keyOk_valueKey hlen hsub hmask) hgate).2 kv hkv
  · intro _
    rw [promised_of_fields hf', hok]
  · rw [htuples, List.map_set]
    have hget : (s₁.tuples.map Prod.fst)[idx]? = some tuple.1 := by rw [List.getElem?_map, htuple]; rfl
    obtain ⟨hlt, hval⟩ := List.getElem?_eq_some_iff.mp hget
    rw [← hval]
    exact List.set_getElem_self hlt

theorem Sound.add (h : Sound hash s) {arg : AddArg} {err : Error}
    (hadd : commandAdd hash s arg = some (err, s')) :
    Sound hash s' ∧ s'.fields = s.fields := by
  obtain ⟨R, hR⟩ := h.holds
  unfold commandAdd at hadd
  split at hadd
  · cases hadd
  · cases hadd
    exact ⟨h, rfl⟩
  rename_i ps hps
  obtain ⟨hlen, hsub⟩ := extractKeyMask_ok hps
  split at hadd
  · cases hadd
    exact ⟨h, rfl⟩
  rename_i hgate
  split at hadd
  · cases hadd
    exact ⟨h, rfl⟩
  · rename_i hens
    obtain ⟨hs, hf, -⟩ := h.insertRule hR hlen hsub (by simpa using hgate) hens hadd
    exact ⟨hs, hf⟩

theorem delEntry_tuples {key : Mem} (h : delEntry hash s idx key = some s') :
    s'.fields = s.fields ∧ ∃ tuple, s.tuples[idx]? = some tuple ∧
      (s'.tuples = s.tuples.set idx (tuple.1, (tuple.2.remove (s.hashing hash) key).2) ∨
        s'.tuples = s.tuples.eraseIdx idx) := by
  unfold delEntry at h
  split at h
  · cases h
  split at h
  · cases h
  rename_i tuple htuple
  split at h
  · rename_i ht hrem
    cases h
    simp [State.setTuple, htuple, hrem]
  · rename_i ht hrem
    split at h
    · cases h
      simp [htuple]
    · cases h
      simp [State.setTuple, htuple, hrem]

theorem Sound.delete (h : Sound hash s) {values masks : List FieldData} {err : Error}
    (hdel : commandDelete hash s values masks = some (err, s')) :
    Sound hash s' ∧ s'.fields = s.fields := by
  obtain ⟨R, hR⟩ := h.holds
  unfold commandDelete at hdel
  split at hdel
  · cases hdel
  · cases hdel
    exact ⟨h, rfl⟩
  rename_i ps hps
  obtain ⟨hlen, -⟩ := extractKeyMask_ok hps
  obtain ⟨hfits, hmaskOf, hvalueKey⟩ := fittedPairs_spec hlen
  split at hdel
  · cases hdel
    exact ⟨h, rfl⟩
  rename_i idx hidx
  obtain ⟨s₁, hentry, heq⟩ := Option.map_eq_some_iff.mp hdel
  cases heq
  rw [← hmaskOf] at hidx
  rw [← hvalueKey] at hentry
  obtain ⟨e, he, -⟩ := hR.distinct.findIdx?_spec hidx
  have hok := h.promised (List.ne_nil_of_mem (List.mem_of_getElem? he))
  obtain ⟨s₂, hentry', -, hR'⟩ := hR.delEntry hok hfits hidx
  cases hentry.symm.trans hentry'
  obtain ⟨hf, tuple, htuple, hcase⟩ := delEntry_tuples hentry
  have hmem := List.mem_of_getElem? htuple
  have hsub : ∀ t ∈ s'.tuples, ∃ old ∈ s.tuples, t.1 = old.1 ∧ ∀ kv ∈ t.2.contents,
      kv ∈ old.2.contents := by
    intro t ht
    rcases hcase with hc | hc
    · rw [hc] at ht
      rcases List.mem_or_eq_of_mem_set ht with ht | rfl
      · exact ⟨t, ht, rfl, fun _ hkv => hkv⟩
      · obtain ⟨-, -, hperm⟩ := (hR.rep tuple hmem).remove_spec (valueKey s.fields (fittedPairs s.fields ps))
        exact ⟨tuple, hmem, rfl, fun kv hkv => (List.mem_filter.mp (hperm.mem_iff.mp hkv)).1⟩
    · rw [hc] at ht
      exact ⟨t, List.mem_of_mem_eraseIdx ht, rfl, fun _ hkv => hkv⟩
  refine ⟨⟨⟨_, hR'⟩, ?_, ?_, ?_⟩, hf⟩
  · have hle : s'.tuples.length ≤ s.tuples.length := by
      rcases hcase with hc | hc
      · rw [hc, List.length_set]
      · rw [hc]
        exact List.length_eraseIdx_le _ _
    exact hle.trans h.length_le
  · intro t ht kv hkv
    obtain ⟨old, hold, hmask, hkvs⟩ := hsub t ht
    rw [keyOk_congr hf, hmask]
    exact h.entries old hold kv (hkvs kv hkv)
  · intro _
    rw [promised_of_fields hf, hok]

theorem Sound.clear (h : Sound hash s) (gate : BitVec 16) :
    Sound hash (s.clearTo gate) ∧
      Holds hash (s.clearTo gate) fun _ => none := by
  obtain ⟨R, hR⟩ := h.holds
  have hc := hR.clear
  have hnone : Holds hash (s.clearTo gate) fun _ => none :=
    ⟨hc.distinct, hc.rep, hc.masks, hc.look, hc.fits⟩
  refine ⟨⟨⟨_, hnone⟩, ?_, ?_, ?_⟩, hnone⟩
  · simpa [State.clearTo, State.clear] using h.length_le
  · intro t ht kv hkv
    obtain ⟨old, -, rfl⟩ := List.mem_map.mp ht
    rw [CuckooMap.clear, CuckooMap.contents_new] at hkv
    cases hkv
  · intro hne
    exact h.promised fun hnil => hne (by simp [State.clearTo, State.clear, hnil])

theorem Sound.steps (h : Sound hash s) (hs : Steps hash s s') :
    Sound hash s' ∧ s'.fields = s.fields := by
  induction hs with
  | refl => exact ⟨h, rfl⟩
  | @step s₁ s₂ cmd err _ hstep ih =>
    obtain ⟨h₁, hf₁⟩ := ih
    cases cmd with
    | add arg =>
      obtain ⟨h₂, hf₂⟩ := h₁.add hstep
      exact ⟨h₂, hf₂.trans hf₁⟩
    | delete values masks =>
      obtain ⟨h₂, hf₂⟩ := h₁.delete hstep
      exact ⟨h₂, hf₂.trans hf₁⟩
    | clear =>
      cases hstep
      exact ⟨(h₁.clear s₁.defaultGate).1, hf₁⟩
    | setDefaultGate gate =>
      cases hstep
      obtain ⟨R, hR⟩ := h₁.holds
      exact ⟨⟨⟨R, hR.distinct, hR.rep, hR.masks, hR.look, hR.fits⟩, h₁.length_le, h₁.entries,
        h₁.promised⟩, hf₁⟩

theorem sound_init {args : List FieldArg} (hinit : init args = .ok s) : Sound hash s := by
  obtain ⟨htuples, -⟩ := init_ok hinit
  refine ⟨⟨_, holds_init hinit⟩, ?_, ?_, fun hne => absurd htuples hne⟩
  · rw [htuples]
    exact Nat.zero_le _
  · rw [htuples]
    intro t ht
    cases ht

/-! ## Exported rules -/

def slicedPairs (fs : List WmField) (mask key : Mem) : Pairs :=
  fs.map fun f => (load key f.pos f.size, load mask f.pos f.size)

theorem extractFrom_export {mask key : Mem} (i : Nat) (hsub : ∀ f ∈ fs, ∀ k < f.size,
      key (f.pos + k) &&& mask (f.pos + k) = key (f.pos + k)) :
    extractFrom i fs (fs.map fun f => .valueBin (bytes key f.pos f.size))
      (fs.map fun f => .valueBin (bytes mask f.pos f.size)) =
        some (.ok (slicedPairs fs mask key)) := by
  induction fs generalizing i with
  | nil => rfl
  | cons f fs ih =>
    obtain ⟨hf, hfs⟩ := List.forall_mem_cons.mp hsub
    have hsize : f.size ≤ 8 := f.size_le
    have hextract : ∀ m : Mem, (FieldData.valueBin (bytes m f.pos f.size)).extract f.size =
        some (some (load m f.pos f.size)) := fun m => if_neg (by rw [length_bytes]; omega)
    have hand : load key f.pos f.size &&& load mask f.pos f.size = load key f.pos f.size := by
      refine byteAt_ext (lt_of_le_of_lt Nat.and_le_left (load_lt _ _ _)) (load_lt _ _ _) fun k hk => ?_
      rw [byteAt_land, byteAt_load hk, byteAt_load hk, hf k hk]
    rw [List.map_cons, List.map_cons, extractFrom]
    simp only [hextract, hand, ne_eq, not_true_eq_false, if_false, ih (i + 1) hfs]
    rfl

/-- A key is that of its slices, if its padding is zero. -/
theorem eq_recordKey_slices {key : Mem}
    (hpad : ∀ i, s.sizeAcc ≤ i → i < s.totalKeySize → key i = 0) :
    (s.hashing hash).eq key (recordKey s.fields (s.fields.map fun f => load key f.pos f.size)) =
      true := by
  rw [State.hashing, keyHashing_eq_iff, bytes_eq_recordKey_iff s.packed (by simp) s.total_le hpad]
  intro x hx k hk
  rw [← List.map_prod_left_eq_zip] at hx
  obtain ⟨f, -, rfl⟩ := List.mem_map.mp hx
  exact (byteAt_load hk).symm

theorem fits_slicedPairs (fs : List WmField) (mask key : Mem) : Fits fs (slicedPairs fs mask key) := by
  have hall : ∀ m : Mem, FitsAll fs (fs.map fun f => load m f.pos f.size) := by
    refine fun m => ⟨by simp, fun x hx => ?_⟩
    rw [← List.map_prod_left_eq_zip] at hx
    obtain ⟨f, -, rfl⟩ := List.mem_map.mp hx
    exact load_lt _ _ _
  constructor
  · rw [slicedPairs, List.map_map]
    exact hall key
  · rw [slicedPairs, List.map_map]
    exact hall mask

theorem Rule.Kept.rule_data {r : Rule} (h : r.Kept) : r.data.rule = r := by
  obtain ⟨-, -, hgate⟩ := h
  simp only [Rule.data, WmData.rule, BitVec.toNat_ofNat, Nat.mod_eq_of_lt hgate]

theorem exportRule_data {mask : Mem} {kv : Mem × WmData} (h : kv.2.rule.Kept) :
    (exportRule fs mask kv).data = kv.2 := by
  obtain ⟨h1, h2, -⟩ := h
  have hrule : (exportRule fs mask kv).rule = kv.2.rule := by
    simp only [WmData.rule, intMin] at h1 h2
    simp only [AddArg.rule, exportRule, WmData.rule, Rule.mk.injEq, BitVec.toInt_ofInt,
      BitVec.toNat_setWidth]
    refine ⟨Int.bmod_eq_of_le (by omega) (by omega), Nat.mod_eq_of_lt ?_⟩
    exact kv.2.ogate.isLt.trans (by decide)
  rw [AddArg.data_eq (hrule.symm ▸ ⟨h1, h2, kv.2.ogate.isLt⟩), hrule]
  simp [Rule.data, WmData.rule]

/-- What the command for an exported rule decodes to is a rule of `R`. -/
structure Good (R : Installed) (s : State) (arg : AddArg) (ps : Pairs) : Prop where
  extract : extractKeyMask s arg.values arg.masks = some (.ok ps)
  fits : Fits s.fields ps
  rule : R ps = some arg.data.rule
  gate : isValidGate arg.data.ogate = true

theorem Sound.good (h : Sound hash s) (hR : Holds hash s R) {tuple : WmTuple} (ht : tuple ∈ s.tuples)
    {kv : Mem × WmData} (hkv : kv ∈ tuple.2.contents) :
    Good R s (exportRule s.fields tuple.1 kv) (slicedPairs s.fields tuple.1 kv.1) ∧
      (s.hashing hash).eq tuple.1 (maskOf s.fields (slicedPairs s.fields tuple.1 kv.1)) = true ∧
      (s.hashing hash).eq kv.1 (valueKey s.fields (slicedPairs s.fields tuple.1 kv.1)) = true ∧
      (exportRule s.fields tuple.1 kv).data = kv.2 := by
  obtain ⟨⟨hpad, hsub⟩, hgate⟩ := h.entries tuple ht kv hkv
  have hfits := fits_slicedPairs s.fields tuple.1 kv.1
  have hmaskpad : ∀ i, s.sizeAcc ≤ i → i < s.totalKeySize → tuple.1 i = 0 := by
    obtain ⟨ps₀, hps₀, heq⟩ := hR.masks tuple ht
    rw [State.hashing, keyHashing_eq_iff, bytes_eq_iff] at heq
    intro i hlow hhigh
    have hi := heq i hhigh
    rw [Nat.zero_add] at hi
    rw [hi]
    exact recordKey_tail s.packed hps₀.2.1 hlow
  have hmask : (s.hashing hash).eq tuple.1
      (maskOf s.fields (slicedPairs s.fields tuple.1 kv.1)) = true := by
    rw [maskOf, slicedPairs, List.map_map]
    exact eq_recordKey_slices hmaskpad
  have hvalue : (s.hashing hash).eq kv.1
      (valueKey s.fields (slicedPairs s.fields tuple.1 kv.1)) = true := by
    rw [valueKey, slicedPairs, List.map_map]
    exact eq_recordKey_slices hpad
  have hrep := hR.rep tuple ht
  have hlook := hR.look _ hfits
  rw [lookIn_of_find (hR.distinct.find_eq_some.mpr ⟨ht, hmask⟩), hrep.look_eq,
    hrep.distinct.find_eq_some.mpr ⟨hkv, hvalue⟩] at hlook
  obtain ⟨r, hr, hdata⟩ := Option.map_eq_some_iff.mp hlook.symm
  have hkept := (hR.fits _ r hr).2
  have hrule : kv.2.rule = r := by
    rw [← hkept.rule_data, hdata]
  have harg : (exportRule s.fields tuple.1 kv).data = kv.2 := exportRule_data (hrule.symm ▸ hkept)
  refine ⟨⟨?_, hfits, ?_, ?_⟩, hmask, hvalue, harg⟩
  · rw [extractKeyMask, if_neg (by simp [exportRule]), if_neg (by simp [exportRule])]
    refine extractFrom_export 0 fun f hf k hk => hsub _ ?_
    have := (s.packed.bounds hf).2
    rw [State.sizeAcc]
    omega
  · rw [harg, hrule, hr]
  · rw [harg]
    exact hgate

/-! ## The masks of the tuples -/

def maskKeys (s : State) (tuples : List WmTuple) : Finset (List Byte) :=
  (tuples.map fun tuple => bytes tuple.1 0 s.totalKeySize).toFinset

/-- The tuples that have rules. -/
def usedTuples (s : State) : List WmTuple := s.tuples.filter fun tuple => tuple.2.count ≠ 0

/-- The masks of the tuples of `s` and of the rules that were saved in `saved` are not too many. -/
def MasksFit (s saved : State) : Prop :=
  (maskKeys s s.tuples ∪ maskKeys saved (usedTuples saved)).card ≤ maxTuples

def argMask (s : State) (arg : AddArg) : List Byte :=
  match extractKeyMask s arg.values arg.masks with
  | some (.ok ps) => bytes (maskOf s.fields ps) 0 s.totalKeySize
  | _ => []

theorem Holds.card_maskKeys (h : Holds hash s R) : (maskKeys s s.tuples).card = s.tuples.length := by
  rw [maskKeys, List.toFinset_card_of_nodup, List.length_map]
  refine List.Pairwise.map _ (fun a b hab heq => ?_) h.distinct
  rw [State.hashing, keyHashing_eq_iff.mpr heq] at hab
  cases hab

theorem mem_maskKeys_iff (hash : List Byte → BitVec 64) (mask : Mem) :
    bytes mask 0 s.totalKeySize ∈ maskKeys s s.tuples ↔ findTuple hash s mask ≠ none := by
  rw [maskKeys, List.mem_toFinset, findTuple, Ne, List.findIdx?_eq_none_iff]
  simp only [List.mem_map, State.hashing, not_forall]
  constructor
  · rintro ⟨tuple, ht, heq⟩
    exact ⟨tuple, ht, by simp [keyHashing_eq_iff.mpr heq]⟩
  · rintro ⟨tuple, ht, hne⟩
    exact ⟨tuple, ht, keyHashing_eq_iff.mp (by simpa using hne)⟩

/-! ## Restoring -/

theorem fittedPairs_of_fits (h : Fits s.fields ps) : fittedPairs s.fields ps = ps := by
  obtain ⟨hfits, hm, hv⟩ := fittedPairs_spec h.length
  exact hfits.eq_of_keys s.packed s.total_le h (by rw [hm]) (by rw [hv])

theorem extractKeyMask_congr (hf : s'.fields = s.fields) (values masks : List FieldData) :
    extractKeyMask s' values masks = extractKeyMask s values masks := by
  rw [extractKeyMask, hf, extractKeyMask]

theorem Good.congr {arg : AddArg} (hf : s'.fields = s.fields) (h : Good R s arg ps) : Good R s' arg ps :=
  ⟨(extractKeyMask_congr hf _ _).trans h.extract, hf ▸ h.fits, h.rule, h.gate⟩

theorem totalKeySize_congr (hf : s'.fields = s.fields) : s'.totalKeySize = s.totalKeySize := by
  rw [State.totalKeySize, State.sizeAcc, hf]
  rfl

theorem argMask_congr (hf : s'.fields = s.fields) (arg : AddArg) : argMask s' arg = argMask s arg := by
  rw [argMask, extractKeyMask_congr hf, totalKeySize_congr hf, hf, argMask]

theorem Good.argMask {arg : AddArg} (h : Good R s arg ps) :
    argMask s arg = bytes (maskOf s.fields ps) 0 s.totalKeySize := by
  rw [Wildcard.argMask, h.extract]

/-- One exported rule: there is no room for its tuple, or it is added. -/
theorem Sound.addGood {R' : Installed} {arg : AddArg} (h : Sound hash s) (hR' : Holds hash s R')
    (hok : s.promised = true) (hgood : Good R s arg ps) :
    (argMask s arg ∉ maskKeys s s.tuples ∧ maxTuples ≤ s.tuples.length ∧
      ∃ err, err.1 ≠ 0 ∧ commandAdd hash s arg = some (err, s)) ∨
    ∃ err s', commandAdd hash s arg = some (err, s') ∧ (err = success ∨ err = collision) ∧
      Sound hash s' ∧ s'.fields = s.fields ∧ s'.defaultGate = s.defaultGate ∧
      maskKeys s' s'.tuples = insert (argMask s arg) (maskKeys s s.tuples) ∧
      (err = success → Holds hash s' (Function.update R' ps (some arg.data.rule))) := by
  obtain ⟨hlen, hsub⟩ := extractKeyMask_ok hgood.extract
  unfold commandAdd
  rw [hgood.extract]
  simp only [hgood.gate, Bool.true_eq_false, if_false]
  have hfind := mem_maskKeys_iff (s := s) hash (maskOf s.fields ps)
  rw [← hgood.argMask] at hfind
  cases hens : ensureTuple hash s (maskOf s.fields ps) with
  | none =>
    unfold ensureTuple at hens
    split at hens
    · cases hens
    rename_i hnone
    split at hens
    · rename_i hfull
      exact .inl ⟨fun hm => hfind.mp hm hnone, hfull, _, by simp [enospc], rfl⟩
    · cases hens
  | some out =>
    obtain ⟨idx, s₁⟩ := out
    obtain ⟨hf₁, hR₁, hidx⟩ := hR'.ensureTuple hgood.fits hens
    obtain ⟨-, -, hcase⟩ := ensureTuple_ok hens
    obtain ⟨hkept, hdata⟩ := arg.kept_data
    obtain ⟨err, s₂, hins, -⟩ := hR₁.insertEntry (by rw [promised_of_fields hf₁, hok])
      (hf₁.symm ▸ hgood.fits) hidx hkept
    rw [hdata] at hins
    obtain ⟨hsound, hf, hg, herr, hfst, hR₂⟩ := h.insertRule hR' hlen hsub hgood.gate hens hins
    refine .inr ⟨err, s₂, hins, herr, hsound, hf, hg, ?_, fun hs => ?_⟩
    · have hmap : ∀ tuples : List WmTuple, (tuples.map fun tuple => bytes tuple.1 0 s.totalKeySize) =
          (tuples.map Prod.fst).map fun m => bytes m 0 s.totalKeySize := fun _ => by
        rw [List.map_map]
        rfl
      rw [maskKeys, totalKeySize_congr hf, hmap, hfst, maskKeys, hmap]
      rcases hcase with ⟨hsome, rfl⟩ | ⟨-, -, hnew⟩
      · rw [Finset.insert_eq_of_mem]
        rw [← hmap]
        exact hfind.mpr (by rw [hsome]; simp)
      · rw [hnew, List.map_append, List.map_append, List.toFinset_append, Finset.union_comm,
          hgood.argMask]
        rfl
    · rw [if_pos hs, fittedPairs_of_fits hgood.fits] at hR₂
      exact hR₂

/-- Exported rules are added to a table whose rules are among those of `R`: this succeeds iff there is
room for their masks, and the table then has them, too. -/
theorem Sound.restore {R' : Installed} {args : List AddArg} (h : Sound hash s) (hR' : Holds hash s R')
    (hsub : ∀ ps r, R' ps = some r → R ps = some r) (hargs : ∀ arg ∈ args, ∃ ps, Good R s arg ps)
    (hok : args ≠ [] → s.promised = true) (hno : NoCollision hash s args) :
    ∃ err s', addRules hash s args = some (err, s') ∧
      (err = success ↔
        (maskKeys s s.tuples ∪ (args.map (argMask s)).toFinset).card ≤ maxTuples) ∧
      (err = success → s'.fields = s.fields ∧ s'.defaultGate = s.defaultGate ∧
        ∃ R'', Holds hash s' R'' ∧ (∀ ps r, R'' ps = some r → R ps = some r) ∧
          (∀ ps r, R' ps = some r → R'' ps = some r) ∧
          ∀ arg ∈ args, ∀ ps, Good R s arg ps → R'' ps = some arg.data.rule) := by
  induction args generalizing s R' with
  | nil =>
    refine ⟨success, s, rfl, iff_of_true rfl ?_, fun _ => ⟨rfl, rfl, R', hR', hsub, fun _ _ hr => hr,
      fun arg ha => absurd ha List.not_mem_nil⟩⟩
    rw [List.map_nil, List.toFinset_nil, Finset.union_empty, hR'.card_maskKeys]
    exact h.length_le
  | cons arg args ih =>
    obtain ⟨⟨ps, hgood⟩, hargs⟩ := List.forall_mem_cons.mp hargs
    have hok := hok (List.cons_ne_nil _ _)
    rw [List.map_cons, List.toFinset_cons, Finset.union_insert, ← Finset.insert_union]
    rcases h.addGood hR' hok hgood with ⟨hnew, hfull, err, hne, hadd⟩ |
      ⟨err, s₁, hadd, herr, h₁, hf₁, hg₁, hmasks, hholds⟩
    · refine ⟨err, s, ?_, iff_of_false (fun hs => hne (by rw [hs]; rfl)) fun hle => ?_,
        fun hs => absurd (by rw [hs]; rfl) hne⟩
      · rw [addRules, hadd]
        exact if_pos hne
      · have hcard := Finset.card_insert_of_notMem hnew
        rw [hR'.card_maskKeys] at hcard
        have hmono := Finset.card_le_card (Finset.subset_union_left :
          insert (argMask s arg) (maskKeys s s.tuples) ⊆ _ ∪ (args.map (argMask s)).toFinset)
        omega
    · obtain ⟨hcoll, hno⟩ := hno err s₁ hadd
      obtain rfl : err = success := herr.resolve_right hcoll
      have hsub₁ : ∀ qs r, Function.update R' ps (some arg.data.rule) qs = some r → R qs = some r := by
        intro qs r hr
        by_cases hq : qs = ps
        · rw [hq, Function.update_self] at hr
          rw [hq, hgood.rule, hr]
        · rw [Function.update_of_ne hq] at hr
          exact hsub qs r hr
      obtain ⟨err, s', hadds, hiff, hdone⟩ := ih h₁ (hholds rfl) hsub₁
        (fun a ha => (hargs a ha).imp fun qs hq => hq.congr hf₁)
        (fun _ => by rw [promised_of_fields hf₁, hok]) hno
      have hmap : args.map (argMask s₁) = args.map (argMask s) :=
        List.map_congr_left fun a _ => argMask_congr hf₁ a
      rw [hmasks, hmap] at hiff
      refine ⟨err, s', ?_, hiff, fun hs => ?_⟩
      · rw [addRules, hadd]
        exact (if_neg (by simp [success])).trans hadds
      · obtain ⟨hf', hg', R'', hR'', hsub'', hold, hin⟩ := hdone hs
        have hps : R'' ps = some arg.data.rule := hold ps _ (Function.update_self ..)
        refine ⟨hf'.trans hf₁, hg'.trans hg₁, R'', hR'', hsub'', fun qs r hr => ?_,
          List.forall_mem_cons.mpr ⟨fun qs hq => ?_, fun a ha qs hq => hin a ha qs (hq.congr hf₁)⟩⟩
        · by_cases hq : qs = ps
          · rw [hq, hps]
            rw [hq] at hr
            rw [← hgood.rule, hsub ps r hr]
          · exact hold qs r (by rw [Function.update_of_ne hq]; exact hr)
        · obtain rfl : qs = ps := by
            have := hq.extract.symm.trans hgood.extract
            simpa using this
          exact hps

theorem mem_exportRules {arg : AddArg} : arg ∈ (getRuntimeConfig s).2 ↔
    ∃ tuple ∈ s.tuples, ∃ kv ∈ tuple.2.items, exportRule s.fields tuple.1 kv = arg := by
  rw [getRuntimeConfig, (List.mergeSort_perm _ _).mem_iff, exportRules, List.mem_flatMap]
  simp only [List.mem_map]

/-- The rules that the configuration brings back are those of `R`. -/
theorem Sound.rules_of_config (h : Sound hash s) (hR : Holds hash s R) {ps : Pairs} {r : Rule}
    (hr : R ps = some r) : ∃ arg ∈ (getRuntimeConfig s).2, Good R s arg ps ∧ arg.data.rule = r := by
  obtain ⟨hfits, hkept⟩ := hR.fits ps r hr
  have hlook := hR.look ps hfits
  rw [hr, lookIn] at hlook
  obtain ⟨tuple, hfind, hlook⟩ := Option.bind_eq_some_iff.mp hlook
  obtain ⟨ht, hmask⟩ := mem_of_find hfind
  have hrep := hR.rep tuple ht
  rw [hrep.look_eq] at hlook
  obtain ⟨kv, hkv, hdata⟩ := Option.map_eq_some_iff.mp hlook
  obtain ⟨hmem, hvalue⟩ := mem_of_find hkv
  obtain ⟨hgood, hmask', hvalue', harg⟩ := h.good hR ht hmem
  have hps : slicedPairs s.fields tuple.1 kv.1 = ps :=
    (hgood.fits.keys_iff hash hfits).mp
      ⟨(s.hashing hash).trans _ _ _ ((s.hashing hash).symm _ _ hmask') hmask,
        (s.hashing hash).trans _ _ _ ((s.hashing hash).symm _ _ hvalue') hvalue⟩
  rw [hps] at hgood
  refine ⟨_, mem_exportRules.mpr ⟨tuple, ht, kv, hrep.items_perm.mem_iff.mpr hmem, rfl⟩, hgood, ?_⟩
  rw [harg, hdata, hkept.rule_data]

theorem Sound.masks_of_config (h : Sound hash s) (hf : s'.fields = s.fields) :
    ((getRuntimeConfig s).2.map (argMask s')).toFinset = maskKeys s (usedTuples s) := by
  obtain ⟨R, hR⟩ := h.holds
  have hmask : ∀ tuple ∈ s.tuples, ∀ kv ∈ tuple.2.items,
      argMask s' (exportRule s.fields tuple.1 kv) = bytes tuple.1 0 s.totalKeySize := by
    intro tuple ht kv hkv
    obtain ⟨hgood, hmask, -⟩ := h.good hR ht ((hR.rep tuple ht).items_perm.mem_iff.mp hkv)
    rw [argMask_congr hf, hgood.argMask]
    exact (keyHashing_eq_iff.mp hmask).symm
  ext m
  simp only [maskKeys, usedTuples, List.mem_toFinset, List.mem_map, mem_exportRules, List.mem_filter,
    decide_eq_true_eq]
  constructor
  · rintro ⟨arg, ⟨tuple, ht, kv, hkv, rfl⟩, rfl⟩
    refine ⟨tuple, ⟨ht, fun hcount => ?_⟩, (hmask tuple ht kv hkv).symm⟩
    have hlen := (hR.rep tuple ht).length_contents
    have hmem := (hR.rep tuple ht).items_perm.mem_iff.mp hkv
    rw [List.eq_nil_of_length_eq_zero (hlen.trans hcount)] at hmem
    cases hmem
  · rintro ⟨tuple, ⟨ht, hcount⟩, rfl⟩
    have hlen := (hR.rep tuple ht).items_perm.length_eq.trans (hR.rep tuple ht).length_contents
    have hpos : 0 < tuple.2.items.length := by
      rw [hlen]
      exact Nat.pos_of_ne_zero hcount
    obtain ⟨kv, hkv⟩ := List.exists_mem_of_length_pos hpos
    exact ⟨_, ⟨tuple, ht, kv, hkv, rfl⟩, hmask tuple ht kv hkv⟩

/-- For every state `s` that commands lead to and every later one `s'`, if no hash table refuses a
key: the configuration saved in `s` can be set in `s'`, and every packet is then sent to a gate that
the saved rules allow, iff the masks of the tuples of `s'` and of the saved rules are at most
`MAX_TUPLES` different ones. -/
theorem restore_right_iff {args : List FieldArg} {s₀ : State} (hinit : init args = .ok s₀)
    (hs : Steps hash s₀ s) (hs' : Steps hash s s')
    (hno : NoCollision hash (s'.clearTo s.defaultGate) (getRuntimeConfig s).2) :
    ∃ R, Holds hash s R ∧
      ((∃ s'', setRuntimeConfig hash s' (getRuntimeConfig s).1 (getRuntimeConfig s).2 =
          some (success, s'') ∧ s''.fields = s.fields ∧ s''.defaultGate = s.defaultGate ∧
          ∀ attrOffset pkt key, KeyOf attrOffset s''.fields pkt key →
            RightGate attrOffset s'' R pkt (lookupEntry hash s'' key s''.defaultGate)) ↔
        MasksFit s' s) := by
  obtain ⟨h, -⟩ := (sound_init hinit).steps hs
  obtain ⟨h', hf'⟩ := h.steps hs'
  obtain ⟨R, hR⟩ := h.holds
  obtain ⟨hclear, hnone⟩ := h'.clear s.defaultGate
  have hgate : (getRuntimeConfig s).1.setWidth 16 = s.defaultGate := by
    simp [getRuntimeConfig, BitVec.setWidth_setWidth_of_le]
  have hargs : ∀ arg ∈ (getRuntimeConfig s).2,
      ∃ ps, Good R (s'.clearTo s.defaultGate) arg ps := by
    intro arg harg
    obtain ⟨tuple, ht, kv, hkv, rfl⟩ := mem_exportRules.mp harg
    exact ⟨_, (h.good hR ht ((hR.rep tuple ht).items_perm.mem_iff.mp hkv)).1.congr hf'⟩
  have hok : (getRuntimeConfig s).2 ≠ [] → s'.promised = true := by
    intro hne
    obtain ⟨arg, harg⟩ := List.exists_mem_of_ne_nil _ hne
    obtain ⟨tuple, ht, -⟩ := mem_exportRules.mp harg
    rw [promised_of_fields hf']
    exact h.promised (List.ne_nil_of_mem ht)
  obtain ⟨err, s'', hadds, hiff, hdone⟩ :=
    hclear.restore hnone (fun ps r hr => by cases hr) hargs hok hno
  have hset : setRuntimeConfig hash s' (getRuntimeConfig s).1 (getRuntimeConfig s).2 =
      some (err, s'') := by
    rw [setRuntimeConfig, hgate]
    exact hadds
  have hmasks : maskKeys (s'.clearTo s.defaultGate)
      (s'.clearTo s.defaultGate).tuples = maskKeys s' s'.tuples := by
    rw [maskKeys, maskKeys, State.clearTo, State.clear, List.map_map]
    rfl
  have hfclear : (s'.clearTo s.defaultGate).fields = s.fields := hf'
  rw [hmasks, h.masks_of_config hfclear] at hiff
  refine ⟨R, hR, ?_⟩
  rw [hset, MasksFit, ← hiff]
  constructor
  · rintro ⟨_, heq, -⟩
    cases heq
    rfl
  · rintro rfl
    obtain ⟨hf, hg, R'', hR'', hsub, -, hin⟩ := hdone rfl
    obtain rfl : R'' = R := by
      funext ps
      cases hr : R ps with
      | none =>
        cases hr'' : R'' ps with
        | none => rfl
        | some r =>
          rw [hsub ps r hr''] at hr
          cases hr
      | some r =>
        obtain ⟨arg, harg, hgood, hrule⟩ := h.rules_of_config hR hr
        rw [hin arg harg ps (hgood.congr hf'), hrule]
    exact ⟨s'', rfl, hf.trans hf', hg, fun _ _ _ hkey => hR''.lookupEntry_right hkey⟩

/-- The state after commands, if they return. -/
def runCommands (s : State) : List Command → Option State
  | [] => some s
  | cmd :: cmds => (step crcKey s cmd).bind fun r => runCommands r.2 cmds

theorem Steps.trans {s s' s'' : State} (h : Steps crcKey s s') (h' : Steps crcKey s' s'') :
    Steps crcKey s s'' := by
  induction h' with
  | refl => exact h
  | step _ hs ih => exact ih.step hs

theorem Steps.runCommands {s₀ s s' : State} {cmds : List Command} (h : Steps crcKey s₀ s)
    (hrun : runCommands s cmds = some s') : Steps crcKey s₀ s' := by
  induction cmds generalizing s with
  | nil =>
    cases hrun
    exact h
  | cons cmd cmds ih =>
    obtain ⟨r, hr, hrest⟩ := Option.bind_eq_some_iff.mp hrun
    exact ih (h.step hr) hrest

/-- The module with a rule for packets whose first byte is zero. -/
def zeroModule : State := (runCommands oneByte [.add zeroRule]).getD oneByte

/-- The same with a second rule of the same mask. -/
@[irreducible] def twoRules : State :=
  (runCommands zeroModule [.add ⟨3, 1, [.valueInt 1], [.valueInt 0xFF]⟩]).getD zeroModule

theorem steps_getD {s : State} {cmds : List Command} (hsome : (runCommands s cmds).isSome = true) :
    Steps crcKey s ((runCommands s cmds).getD s) := by
  obtain ⟨s', hs⟩ := Option.isSome_iff_exists.mp hsome
  rw [hs]
  exact Steps.refl.runCommands hs

theorem steps_zeroModule : Steps crcKey oneByte zeroModule := steps_getD (by decide +kernel)

theorem steps_twoRules : Steps crcKey zeroModule twoRules := by
  unfold twoRules
  exact steps_getD (by decide +kernel)

/-- The one rule that was saved is restored when there is another one. -/
theorem zeroModule_restored : ∃ s'', setRuntimeConfig crcKey twoRules (getRuntimeConfig zeroModule).1
    (getRuntimeConfig zeroModule).2 = some (success, s'') ∧ s''.defaultGate = zeroModule.defaultGate := by
  have hinit : init oneByteArgs = .ok oneByte := rfl
  have hlen : (getRuntimeConfig zeroModule).2.length = 1 := by decide +kernel
  obtain ⟨arg, harg⟩ := List.length_eq_one_iff.mp hlen
  have hfirst : (((getRuntimeConfig zeroModule).2.head?.bind fun arg =>
      commandAdd crcKey (twoRules.clearTo zeroModule.defaultGate) arg).map Prod.fst) =
        some success := by decide +kernel
  rw [harg, List.head?_cons, Option.bind_some] at hfirst
  have hno : NoCollision crcKey (twoRules.clearTo zeroModule.defaultGate)
      (getRuntimeConfig zeroModule).2 := by
    rw [harg]
    intro err s' hadd
    rw [hadd] at hfirst
    cases hfirst
    exact ⟨by simp [collision, einval], trivial⟩
  obtain ⟨R, -, hiff⟩ := restore_right_iff hinit steps_zeroModule steps_twoRules hno
  obtain ⟨s'', hset, -, hgate, -⟩ := hiff.mpr (by unfold MasksFit; decide +kernel)
  exact ⟨s'', hset, hgate⟩

/-- Clears the rules, deletes the tuple of the rule above, and adds rules with eight other masks. -/
def otherMasks : List Command :=
  .clear :: .delete [.valueInt 0] [.valueInt 0xFF] ::
    (List.range 8).map fun i => .add ⟨1, 1, [.valueInt 0], [.valueInt (BitVec.ofNat 64 (i + 1))]⟩

/-- The saved rule cannot be restored: there are eight tuples, and none is removed. -/
theorem zeroModule_not_restored :
    ((runCommands zeroModule otherMasks).bind fun s' =>
      (setRuntimeConfig crcKey s' (getRuntimeConfig zeroModule).1 (getRuntimeConfig zeroModule).2).map
        fun out => (s'.tuples.length, out.1)) =
      some (8, (enospc, "failed to add a new wildcard pattern")) := by
  decide +kernel

end Bess.Match.Wildcard
