import Bess.Match.Wildcard

/-!
# The rules of a WildcardMatch

The tuples of a module as a map from rules, which are lists of values and masks, to priorities and
gates. Adding a rule sets one entry of the map and deleting a rule clears one; a packet finds under
the mask of a tuple the rule with these masks whose values are those of the packet, and goes to the
gate of a rule of highest priority among those that match it.

This needs masks and values that are not longer than their field, and priorities and gates that fit
the integers they are kept in.
-/

namespace Bess.Match.Wildcard

open Bess.ByteMem Bess.Cuckoo Bess.Packing Bess.AssocMap

variable {hash : List Byte → BitVec 64} {attrOffset : Nat → Nat} {s s' : State}
  {fs : List WmField} {vs ws : List Nat} {ps qs : Pairs}

/-! ## Keys of numbers -/

/-- One number for each field that is not longer than the field. -/
def FitsAll (fs : List WmField) (vs : List Nat) : Prop :=
  vs.length = fs.length ∧ ∀ x ∈ fs.zip vs, x.2 < 256 ^ x.1.size

theorem recordKey_field (hp : Packed WmField.pos WmField.size 0 fs)
    (hlen : vs.length = fs.length) {x : WmField × Nat} (hx : x ∈ fs.zip vs) {k : Nat}
    (hk : k < x.1.size) : recordKey fs vs (x.1.pos + k) = byteAt x.2 k :=
  (hp.zip hlen.ge).1.writeAll_field hx hk le_rfl

theorem recordKey_tail (hp : Packed WmField.pos WmField.size 0 fs) (hlen : vs.length = fs.length)
    {i : Nat} (hi : total WmField.size fs ≤ i) : recordKey fs vs i = 0 := by
  obtain ⟨hz, ht⟩ := hp.zip hlen.ge
  apply hz.writeAll_tail
  · rw [Nat.zero_add, ht]
    exact hi
  · rfl
  · intro x _ k h1 h2
    omega

variable {len idx : Nat} {pkt : Packet} {values masks : List FieldData}

/-- A key is that of some numbers iff its fields are, and zeros follow. -/
theorem bytes_eq_recordKey_iff (hp : Packed WmField.pos WmField.size 0 fs)
    (hlen : vs.length = fs.length) {a : Mem} (htotal : total WmField.size fs ≤ len)
    (ha : ∀ i, total WmField.size fs ≤ i → i < len → a i = 0) :
    bytes a 0 len = bytes (recordKey fs vs) 0 len ↔
      ∀ x ∈ fs.zip vs, ∀ k < x.1.size, a (x.1.pos + k) = byteAt x.2 k := by
  obtain ⟨hz, ht⟩ := hp.zip hlen.ge
  rw [hz.bytes_eq_iff (by rw [ht]; exact htotal), ht]
  have htail : (∀ i, total WmField.size fs ≤ i → i < len → a i = recordKey fs vs i) ↔ True := by
    refine iff_of_true (fun i h1 h2 => ?_) trivial
    rw [ha i h1 h2, recordKey_tail hp hlen h1]
  rw [htail, and_true]
  refine forall₂_congr fun x hx => forall₂_congr fun k hk => ?_
  rw [recordKey_field hp hlen hx hk]

theorem recordKey_inj (hp : Packed WmField.pos WmField.size 0 fs)
    (htotal : total WmField.size fs ≤ len) (hv : FitsAll fs vs) (hw : FitsAll fs ws)
    (h : bytes (recordKey fs vs) 0 len = bytes (recordKey fs ws) 0 len) : vs = ws := by
  rw [bytes_eq_recordKey_iff hp hw.1 htotal fun i h1 _ => recordKey_tail hp hv.1 h1] at h
  apply List.ext_getElem (hv.1.trans hw.1.symm)
  intro i h1 h2
  have hf : i < fs.length := by
    rw [← hv.1]
    exact h1
  have hmemv : (fs[i], vs[i]) ∈ fs.zip vs := by
    rw [← List.getElem_zip (h := by rw [List.length_zip]; omega)]
    exact List.getElem_mem _
  have hmemw : (fs[i], ws[i]) ∈ fs.zip ws := by
    rw [← List.getElem_zip (h := by rw [List.length_zip]; omega)]
    exact List.getElem_mem _
  apply byteAt_ext (n := fs[i].size) (hv.2 _ hmemv) (hw.2 _ hmemw)
  intro k hk
  rw [← h _ hmemw k hk]
  exact (recordKey_field hp hv.1 hmemv hk).symm

/-! ## Rules -/

def Fits (fs : List WmField) (ps : Pairs) : Prop :=
  FitsAll fs (ps.map Prod.fst) ∧ FitsAll fs (ps.map Prod.snd)

theorem Fits.eq_of_keys (hp : Packed WmField.pos WmField.size 0 fs)
    (htotal : total WmField.size fs ≤ len) (h : Fits fs ps) (h' : Fits fs qs)
    (hm : bytes (maskOf fs ps) 0 len = bytes (maskOf fs qs) 0 len)
    (hv : bytes (valueKey fs ps) 0 len = bytes (valueKey fs qs) 0 len) : ps = qs := by
  have hfst := recordKey_inj hp htotal h.1 h'.1 hv
  have hsnd := recordKey_inj hp htotal h.2 h'.2 hm
  calc ps = (ps.map Prod.fst).zip (ps.map Prod.snd) := List.zip_of_prod rfl rfl
    _ = (qs.map Prod.fst).zip (qs.map Prod.snd) := by rw [hfst, hsnd]
    _ = qs := (List.zip_of_prod rfl rfl).symm

/-- The value of a field of the packet. -/
def fieldValue (attrOffset : Nat → Nat) (pkt : Packet) (f : WmField) : Nat :=
  load pkt.buffer (address attrOffset pkt f) f.size

/-- `(field & mask) == value` for every field. -/
def Matches (attrOffset : Nat → Nat) (fs : List WmField) (pkt : Packet) (ps : Pairs) : Prop :=
  ∀ x ∈ fs.zip ps, fieldValue attrOffset pkt x.1 &&& x.2.2 = x.2.1

instance (attrOffset : Nat → Nat) (fs : List WmField) (pkt : Packet) (ps : Pairs) :
    Decidable (Matches attrOffset fs pkt ps) :=
  inferInstanceAs (Decidable (∀ x ∈ _, _))

/-- The rule with the masks of `ps` that the packet matches. -/
def matching (attrOffset : Nat → Nat) (fs : List WmField) (pkt : Packet) (ps : Pairs) : Pairs :=
  (fs.zip ps).map fun x => (fieldValue attrOffset pkt x.1 &&& x.2.2, x.2.2)

theorem matches_of_eq_matching (hlen : ps.length = fs.length) :
    Matches attrOffset fs pkt ps → matching attrOffset fs pkt ps = ps := by
  intro h
  calc matching attrOffset fs pkt ps = (fs.zip ps).map Prod.snd := by
        refine List.map_congr_left fun x hx => ?_
        rw [h x hx]
    _ = ps := List.map_snd_zip hlen.le

theorem mem_zip_map_zip {α β γ : Type} {l : List α} {m : List β} {g : α × β → γ} {x : α × γ}
    (hx : x ∈ l.zip ((l.zip m).map g)) : ∃ y ∈ l.zip m, x = (y.1, g y) := by
  induction l generalizing m with
  | nil => cases hx
  | cons a l ih =>
    cases m with
    | nil => cases hx
    | cons b m =>
      rw [List.zip_cons_cons, List.map_cons, List.zip_cons_cons] at hx
      rcases List.mem_cons.mp hx with rfl | hx
      · exact ⟨(a, b), by simp, rfl⟩
      · obtain ⟨y, hy, rfl⟩ := ih hx
        exact ⟨y, by simp [hy], rfl⟩

theorem matches_matching : Matches attrOffset fs pkt (matching attrOffset fs pkt ps) := by
  intro x hx
  obtain ⟨y, -, rfl⟩ := mem_zip_map_zip hx
  rfl

theorem map_snd_matching (hlen : ps.length = fs.length) :
    (matching attrOffset fs pkt ps).map Prod.snd = ps.map Prod.snd := by
  rw [matching, List.map_map]
  calc (fs.zip ps).map (Prod.snd ∘ fun x => (fieldValue attrOffset pkt x.1 &&& x.2.2, x.2.2))
      = ((fs.zip ps).map Prod.snd).map Prod.snd := by
        rw [List.map_map]
        rfl
    _ = ps.map Prod.snd := by rw [List.map_snd_zip hlen.le]

theorem Fits.length (h : Fits fs ps) : ps.length = fs.length := by
  have := h.1.1
  rwa [List.length_map] at this

theorem Fits.mask_lt (h : Fits fs ps) {x : WmField × Nat × Nat} (hx : x ∈ fs.zip ps) :
    (x.1, x.2.2) ∈ fs.zip (ps.map Prod.snd) ∧ x.2.2 < 256 ^ x.1.size := by
  have hmem : (x.1, x.2.2) ∈ fs.zip (ps.map Prod.snd) := by
    rw [List.zip_map_right]
    exact List.mem_map.mpr ⟨x, hx, rfl⟩
  exact ⟨hmem, h.2.2 _ hmem⟩

theorem Fits.matching (h : Fits fs ps) (pkt : Packet) : Fits fs (matching attrOffset fs pkt ps) := by
  refine ⟨⟨?_, ?_⟩, ?_⟩
  · simp [Wildcard.matching, h.length]
  · intro x hx
    rw [Wildcard.matching, List.map_map] at hx
    obtain ⟨y, hy, rfl⟩ := mem_zip_map_zip hx
    exact lt_of_le_of_lt Nat.and_le_right (h.mask_lt hy).2
  · rw [map_snd_matching h.length]
    exact h.2

/-- The key holds the fields of the packet. -/
def KeyOf (attrOffset : Nat → Nat) (fs : List WmField) (pkt : Packet) (key : Mem) : Prop :=
  ∀ f ∈ fs, ∀ k < f.size, key (f.pos + k) = pkt.buffer (address attrOffset pkt f + k)

/-- Under the masks of a rule the key of a packet is that of the values the packet matches. -/
theorem maskKey_eq {key mask : Mem}
    (hp : Packed WmField.pos WmField.size 0 fs) (htotal : total WmField.size fs ≤ len)
    (hkey : KeyOf attrOffset fs pkt key) (hps : Fits fs ps)
    (hmask : bytes mask 0 len = bytes (maskOf fs ps) 0 len) :
    bytes (maskKey key mask) 0 len = bytes (valueKey fs (matching attrOffset fs pkt ps)) 0 len := by
  have hmask' : ∀ i < len, mask i = maskOf fs ps i := by
    have := bytes_eq_iff.mp hmask
    simpa using this
  rw [valueKey, bytes_eq_recordKey_iff hp (hps.matching pkt).1.1 htotal]
  · intro x hx k hk
    rw [matching, List.map_map] at hx
    obtain ⟨y, hy, rfl⟩ := mem_zip_map_zip hx
    have hf : y.1 ∈ fs := (List.of_mem_zip hy).1
    have hlt := (hp.bounds hf).2
    simp only at hk ⊢
    rw [maskKey, hkey y.1 hf k hk, hmask' _ (by omega),
      maskOf, recordKey_field hp hps.2.1 (hps.mask_lt hy).1 hk, Function.comp_apply, byteAt_land,
      fieldValue, byteAt_load hk]
  · intro i h1 h2
    rw [maskKey, hmask' i h2, maskOf, recordKey_tail hp hps.2.1 h1]
    exact BitVec.and_zero

/-! ## The running maximum -/

theorem foldl_better (found : List (Option WmData)) (init : WmData) :
    (found.foldl better init = init ∨ some (found.foldl better init) ∈ found) ∧
      init.priority ≤ (found.foldl better init).priority ∧
      ∀ d, some d ∈ found → d.priority ≤ (found.foldl better init).priority := by
  induction found generalizing init with
  | nil => exact ⟨.inl rfl, le_rfl, fun d hd => by cases hd⟩
  | cons o found ih =>
    obtain ⟨hmem, hle, hall⟩ := ih (better init o)
    have hb : (better init o = init ∨ some (better init o) = o) ∧
        init.priority ≤ (better init o).priority ∧
        ∀ d, o = some d → d.priority ≤ (better init o).priority := by
      cases o with
      | none => exact ⟨.inl rfl, le_rfl, fun d hd => by cases hd⟩
      | some e =>
        unfold better
        simp only
        split
        · rename_i hge
          refine ⟨.inr rfl, hge, ?_⟩
          rintro d ⟨⟩
          exact le_rfl
        · rename_i hlt
          refine ⟨.inl rfl, le_rfl, ?_⟩
          rintro d ⟨⟩
          omega
    rw [List.foldl_cons]
    refine ⟨?_, hb.2.1.trans hle, fun d hd => ?_⟩
    · rcases hmem with hmem | hmem
      · rw [hmem]
        rcases hb.1 with hb | hb
        · exact .inl hb
        · rw [hb]
          exact .inr (List.mem_cons_self ..)
      · exact .inr (List.mem_cons_of_mem _ hmem)
    · rcases List.mem_cons.mp hd with hd | hd
      · exact (hb.2.2 d hd.symm).trans hle
      · exact hall d hd

theorem foldl_better_mem {found : List (Option WmData)} {d : WmData} (init : WmData)
    (hd : some d ∈ found)
    (hinit : ∀ d, some d ∈ found → init.priority ≤ d.priority) :
    some (found.foldl better init) ∈ found := by
  induction found with
  | nil => cases hd
  | cons o found ih =>
    rw [List.foldl_cons]
    cases o with
    | none =>
      rcases List.mem_cons.mp hd with hd | hd
      · cases hd
      · exact List.mem_cons_of_mem _ (ih hd fun d' hd' => hinit d' (List.mem_cons_of_mem _ hd'))
    | some e =>
      have hbetter : better init (some e) = e := if_pos (hinit e (List.mem_cons_self ..))
      rw [hbetter]
      rcases (foldl_better found e).1 with h | h
      · rw [h]
        exact List.mem_cons_self ..
      · exact List.mem_cons_of_mem _ h

/-! ## Installed rules -/

/-- The priority and the gate of a rule as the command gives them. -/
structure Rule where
  priority : Int
  gate : Nat

/-- They can be kept in an `int` and a `gate_idx_t`. -/
def Rule.Kept (r : Rule) : Prop := intMin ≤ r.priority ∧ r.priority < 2 ^ 31 ∧ r.gate < 2 ^ 16

instance (r : Rule) : Decidable r.Kept := inferInstanceAs (Decidable (_ ∧ _))

def Rule.data (r : Rule) : WmData := ⟨r.priority, BitVec.ofNat 16 r.gate⟩

def AddArg.rule (arg : AddArg) : Rule := ⟨arg.priority.toInt, arg.gate.toNat⟩

theorem AddArg.data_eq {arg : AddArg} (h : arg.rule.Kept) : arg.data = arg.rule.data := by
  obtain ⟨h1, h2, h3⟩ := h
  simp only [AddArg.rule, intMin] at h1 h2 h3
  have hpriority : (arg.priority.setWidth 32).toInt = arg.priority.toInt := by
    have hlt := arg.priority.isLt
    rw [BitVec.toInt_eq_toNat_cond] at h1 h2
    rw [BitVec.toInt_eq_toNat_cond, BitVec.toInt_eq_toNat_cond, BitVec.toNat_setWidth]
    by_cases hneg : 2 * arg.priority.toNat < 2 ^ 64
    · rw [if_pos hneg] at h1 h2 ⊢
      split <;> omega
    · rw [if_neg hneg] at h1 h2 ⊢
      split <;> omega
  unfold AddArg.data Rule.data AddArg.rule
  rw [hpriority]
  rfl

abbrev Installed := Pairs → Option Rule

/-- The gate is that of an installed rule of highest priority among those the packet matches, or the
default if there is none. -/
def RightGate (attrOffset : Nat → Nat) (s : State) (R : Installed) (pkt : Packet)
    (gate : BitVec 16) : Prop :=
  (∃ ps r, R ps = some r ∧ Matches attrOffset s.fields pkt ps ∧ gate.toNat = r.gate ∧
    ∀ ps' r', R ps' = some r' → Matches attrOffset s.fields pkt ps' → r'.priority ≤ r.priority) ∨
  gate = s.defaultGate ∧ ∀ ps r, R ps = some r → ¬ Matches attrOffset s.fields pkt ps

/-- What the tuples have under a mask for a key. -/
def lookIn (H : Hashing Mem) (tuples : List WmTuple) (mask key : Mem) : Option WmData :=
  (AssocMap.find H.toKeyEq tuples mask).bind fun tuple => tuple.2.look H key

structure Holds (hash : List Byte → BitVec 64) (s : State) (R : Installed) : Prop where
  distinct : Distinct (s.hashing hash).toKeyEq s.tuples
  rep : ∀ tuple ∈ s.tuples, CuckooMap.Rep (s.hashing hash) tuple.2
  masks : ∀ tuple ∈ s.tuples, ∃ ps, Fits s.fields ps ∧
    (s.hashing hash).eq tuple.1 (maskOf s.fields ps) = true
  look : ∀ ps, Fits s.fields ps →
    lookIn (s.hashing hash) s.tuples (maskOf s.fields ps) (valueKey s.fields ps) =
      (R ps).map Rule.data
  fits : ∀ ps r, R ps = some r → Fits s.fields ps ∧ r.Kept

variable {R : Installed}

theorem State.total_le (s : State) : total WmField.size s.fields ≤ s.totalKeySize :=
  le_alignCeil _

theorem Holds.findIn_eq (h : Holds hash s R) {tuple : WmTuple} (ht : tuple ∈ s.tuples)
    {key : Mem} (hkey : KeyOf attrOffset s.fields pkt key) (hps : Fits s.fields ps)
    (hmask : (s.hashing hash).eq tuple.1 (maskOf s.fields ps) = true) :
    findIn hash s key tuple = (R (matching attrOffset s.fields pkt ps)).map Rule.data := by
  rw [← h.look _ (hps.matching pkt), lookIn, maskOf, map_snd_matching hps.length, ← maskOf,
    h.distinct.find_eq_some.mpr ⟨ht, hmask⟩, Option.bind_some]
  apply (h.rep tuple ht).look_of_eq
  rw [State.hashing, keyHashing_eq_iff]
  exact maskKey_eq s.packed s.total_le hkey hps (keyHashing_eq_iff.mp hmask)

theorem Holds.lookupEntry_right (h : Holds hash s R) {key : Mem}
    (hkey : KeyOf attrOffset s.fields pkt key) :
    RightGate attrOffset s R pkt (lookupEntry hash s key s.defaultGate) := by
  obtain ⟨found, hfound⟩ : ∃ found, found = s.tuples.map (findIn hash s key) := ⟨_, rfl⟩
  have hlookup : lookupEntry hash s key s.defaultGate =
      (found.foldl better ⟨intMin, s.defaultGate⟩).ogate := by
    rw [lookupEntry, hfound, List.foldl_map]
  -- what is found are the rules that match
  have hof : ∀ d, some d ∈ found → ∃ ps r, R ps = some r ∧
      Matches attrOffset s.fields pkt ps ∧ d = r.data := by
    intro d hd
    rw [hfound] at hd
    obtain ⟨tuple, ht, hd⟩ := List.mem_map.mp hd
    obtain ⟨ps, hps, hmask⟩ := h.masks tuple ht
    rw [h.findIn_eq ht hkey hps hmask] at hd
    obtain ⟨r, hr, rfl⟩ := Option.map_eq_some_iff.mp hd
    exact ⟨_, r, hr, matches_matching, rfl⟩
  have hall : ∀ ps r, R ps = some r → Matches attrOffset s.fields pkt ps → some r.data ∈ found := by
    intro ps r hr hm
    obtain ⟨hps, -⟩ := h.fits ps r hr
    have hlook := h.look ps hps
    rw [hr, lookIn] at hlook
    obtain ⟨tuple, ht, -⟩ := Option.bind_eq_some_iff.mp hlook
    obtain ⟨hmem, hmask⟩ := mem_of_find ht
    have hin := h.findIn_eq hmem hkey hps hmask
    rw [matches_of_eq_matching hps.length hm, hr] at hin
    rw [hfound]
    exact List.mem_map.mpr ⟨tuple, hmem, hin⟩
  rw [hlookup]
  by_cases hnone : ∃ d, some d ∈ found
  · obtain ⟨d, hd⟩ := hnone
    have hmem := foldl_better_mem ⟨intMin, s.defaultGate⟩ hd fun d' hd' => by
      obtain ⟨ps, r, hr, -, rfl⟩ := hof d' hd'
      exact (h.fits ps r hr).2.1
    obtain ⟨ps, r, hr, hm, he⟩ := hof _ hmem
    refine .inl ⟨ps, r, hr, hm, ?_, fun ps' r' hr' hm' => ?_⟩
    · rw [he, Rule.data, BitVec.toNat_ofNat]
      exact Nat.mod_eq_of_lt (h.fits ps r hr).2.2.2
    · have hle := (foldl_better found ⟨intMin, s.defaultGate⟩).2.2 _ (hall ps' r' hr' hm')
      rw [he] at hle
      exact hle
  · refine .inr ⟨?_, fun ps r hr hm => hnone ⟨_, hall ps r hr hm⟩⟩
    rcases (foldl_better found ⟨intMin, s.defaultGate⟩).1 with he | he
    · rw [he]
    · exact absurd ⟨_, he⟩ hnone

/-! ## Tuples -/

section Tuples

variable {H : Hashing Mem} {tuples : List WmTuple} {mask mask' key : Mem}

theorem lookIn_of_find {tuple : WmTuple} (h : AssocMap.find H.toKeyEq tuples mask = some tuple) :
    lookIn H tuples mask key = tuple.2.look H key := by
  rw [lookIn, h, Option.bind_some]

variable {ht : CuckooMap Mem WmData}

theorem lookIn_update {tuple : WmTuple} (h : AssocMap.find H.toKeyEq tuples mask = some tuple) :
    lookIn H (AssocMap.update H.toKeyEq tuples mask ht) mask' key =
      if H.eq mask mask' then ht.look H key else lookIn H tuples mask' key := by
  rw [lookIn, AssocMap.find_update]
  by_cases hm : H.eq mask mask' = true
  · rw [if_pos hm, ← AssocMap.find_of_eq hm, h, Option.map_some, if_pos (mem_of_find h).2,
      Option.bind_some]
  · rw [if_neg hm, lookIn]
    cases hq : AssocMap.find H.toKeyEq tuples mask' with
    | none => rfl
    | some a =>
      have ha : H.eq a.1 mask ≠ true := fun hp =>
        hm (H.trans _ _ _ (H.symm _ _ hp) (mem_of_find hq).2)
      rw [Option.map_some, if_neg ha]

theorem lookIn_erase : lookIn H (AssocMap.erase H.toKeyEq tuples mask) mask' key =
    if H.eq mask mask' then none else lookIn H tuples mask' key := by
  rw [lookIn, AssocMap.find_erase]
  split
  · rfl
  · rfl

theorem lookIn_append_new (hnone : ht.look H key = none) :
    lookIn H (tuples ++ [(mask, ht)]) mask' key = lookIn H tuples mask' key := by
  rw [lookIn, lookIn, AssocMap.find, List.find?_append, ← AssocMap.find]
  cases AssocMap.find H.toKeyEq tuples mask' with
  | some a => rfl
  | none =>
    by_cases hm : H.eq mask mask' = true
    · rw [List.find?_cons_of_pos (by exact hm)]
      exact hnone
    · rw [List.find?_cons_of_neg (by exact hm)]
      rfl

theorem look_eq_none_of_count (h : CuckooMap.Rep H ht)
    (hcount : ht.count = 0) : ht.look H key = none := by
  have hnil : ht.contents = [] := List.eq_nil_of_length_eq_zero (h.length_contents.trans hcount)
  rw [h.look_eq, hnil]
  rfl

end Tuples

theorem Fits.keys_iff (hash : List Byte → BitVec 64) (h : Fits s.fields ps)
    (h' : Fits s.fields qs) :
    ((s.hashing hash).eq (maskOf s.fields ps) (maskOf s.fields qs) = true ∧
      (s.hashing hash).eq (valueKey s.fields ps) (valueKey s.fields qs) = true) ↔ ps = qs := by
  rw [State.hashing, keyHashing_eq_iff, keyHashing_eq_iff]
  constructor
  · rintro ⟨hm, hv⟩
    exact h.eq_of_keys s.packed s.total_le h' hm hv
  · rintro rfl
    exact ⟨rfl, rfl⟩

theorem Holds.setTuple (h : Holds hash s R) (hps : Fits s.fields ps)
    (hidx : findTuple hash s (maskOf s.fields ps) = some idx) {ht : CuckooMap Mem WmData}
    (rule : Option Rule) (hrep : CuckooMap.Rep (s.hashing hash) ht)
    (hkept : ∀ r, rule = some r → r.Kept)
    (hlook : ∀ tuple, s.tuples[idx]? = some tuple → ∀ key, ht.look (s.hashing hash) key =
      if (s.hashing hash).eq (valueKey s.fields ps) key then rule.map Rule.data
      else tuple.2.look (s.hashing hash) key) :
    (s.setTuple idx ht).fields = s.fields ∧
      Holds hash (s.setTuple idx ht) (Function.update R ps rule) := by
  obtain ⟨e, he, hfind, -, hset⟩ := h.distinct.findIdx?_spec hidx
  have hstate : s.setTuple idx ht = ⟨s.fields, s.packed,
      AssocMap.update (s.hashing hash).toKeyEq s.tuples (maskOf s.fields ps) ht, s.defaultGate⟩ := by
    rw [State.setTuple, he]
    simp only
    rw [hset]
  rw [hstate]
  have hmem : ∀ tuple ∈ AssocMap.update (s.hashing hash).toKeyEq s.tuples (maskOf s.fields ps) ht,
      ∃ old ∈ s.tuples, tuple.1 = old.1 ∧ (tuple.2 = ht ∨ tuple.2 = old.2) := by
    intro tuple ht
    obtain ⟨old, hold, rfl⟩ := List.mem_map.mp ht
    refine ⟨old, hold, ?_⟩
    split
    · exact ⟨rfl, .inl rfl⟩
    · exact ⟨rfl, .inr rfl⟩
  refine ⟨rfl, h.distinct.update _ _, ?_, ?_, ?_, ?_⟩
  · intro tuple ht
    obtain ⟨old, hold, -, htable | htable⟩ := hmem tuple ht
    · rw [htable]
      exact hrep
    · rw [htable]
      exact h.rep old hold
  · intro tuple ht
    obtain ⟨old, hold, hmask, -⟩ := hmem tuple ht
    rw [hmask]
    exact h.masks old hold
  · intro qs hqs
    have hold := h.look qs hqs
    have hkeys := hps.keys_iff hash hqs
    refine (lookIn_update hfind).trans ?_
    by_cases hm : (s.hashing hash).eq (maskOf s.fields ps) (maskOf s.fields qs) = true
    · rw [if_pos hm, hlook e he]
      by_cases hv : (s.hashing hash).eq (valueKey s.fields ps) (valueKey s.fields qs) = true
      · obtain rfl := hkeys.mp ⟨hm, hv⟩
        rw [if_pos hv, Function.update_self]
      · have hne : qs ≠ ps := fun hq => hv (hkeys.mpr hq.symm).2
        rw [AssocMap.find_of_eq hm] at hfind
        rw [if_neg hv, Function.update_of_ne hne, ← hold, lookIn_of_find hfind]
    · have hne : qs ≠ ps := fun hq => hm (hkeys.mpr hq.symm).1
      rw [if_neg hm, Function.update_of_ne hne, ← hold]
  · intro qs r hr
    by_cases hq : qs = ps
    · subst hq
      rw [Function.update_self] at hr
      exact ⟨hps, hkept r hr⟩
    · rw [Function.update_of_ne hq] at hr
      exact h.fits qs r hr

theorem Holds.eraseIdx (h : Holds hash s R) {mask : Mem} (hidx : findTuple hash s mask = some idx)
    (hcount : ∀ tuple, s.tuples[idx]? = some tuple → tuple.2.count = 0) :
    Holds hash { s with tuples := s.tuples.eraseIdx idx } R := by
  obtain ⟨e, he, hfind, herase, -⟩ := h.distinct.findIdx?_spec hidx
  have hsub : ∀ tuple ∈ s.tuples.eraseIdx idx, tuple ∈ s.tuples :=
    fun tuple ht => List.mem_of_mem_eraseIdx ht
  refine ⟨?_, fun tuple ht => h.rep tuple (hsub tuple ht),
    fun tuple ht => h.masks tuple (hsub tuple ht), ?_, h.fits⟩
  · refine Eq.mpr (congrArg _ herase) ?_
    exact h.distinct.erase mask
  · intro qs hqs
    refine Eq.trans ?_ (h.look qs hqs)
    have hlook : lookIn (s.hashing hash) (s.tuples.eraseIdx idx) (maskOf s.fields qs)
        (valueKey s.fields qs) =
        lookIn (s.hashing hash) s.tuples (maskOf s.fields qs) (valueKey s.fields qs) := by
      rw [herase, lookIn_erase]
      by_cases hm : (s.hashing hash).eq mask (maskOf s.fields qs) = true
      · rw [AssocMap.find_of_eq hm] at hfind
        rw [if_pos hm, lookIn_of_find hfind,
          look_eq_none_of_count (h.rep e (mem_of_find hfind).1) (hcount e he)]
      · rw [if_neg hm]
    exact hlook

theorem Holds.appendTuple (h : Holds hash s R) (hps : Fits s.fields ps)
    (hnew : findTuple hash s (maskOf s.fields ps) = none) :
    Holds hash { s with tuples := s.tuples ++
      [(maskOf s.fields ps, CuckooMap.new kInitNumBucket kInitNumEntries)] } R := by
  have hrep : CuckooMap.Rep (s.hashing hash)
      (CuckooMap.new kInitNumBucket kInitNumEntries : CuckooMap Mem WmData) :=
    CuckooMap.rep_new (k := 2) (by decide)
  refine ⟨h.distinct.append_new (findIdx?_eq_none_iff.mp hnew), ?_, ?_, ?_, h.fits⟩
  · intro tuple ht
    rcases List.mem_append.mp ht with ht | ht
    · exact h.rep tuple ht
    · cases List.mem_singleton.mp ht
      exact hrep
  · intro tuple ht
    rcases List.mem_append.mp ht with ht | ht
    · exact h.masks tuple ht
    · cases List.mem_singleton.mp ht
      exact ⟨ps, hps, (s.hashing hash).refl _⟩
  · intro qs hqs
    exact (lookIn_append_new (CuckooMap.look_new _ _ _ _ hrep)).trans (h.look qs hqs)

theorem Holds.clear (h : Holds hash s R) : Holds hash s.clear fun _ => none := by
  have hrep : CuckooMap.Rep (s.hashing hash)
      (CuckooMap.new kInitNumBucket kInitNumEntries : CuckooMap Mem WmData) :=
    CuckooMap.rep_new (k := 2) (by decide)
  refine ⟨?_, ?_, ?_, ?_, fun ps r hr => by cases hr⟩
  · exact List.pairwise_map.mpr h.distinct
  · intro tuple ht
    obtain ⟨old, -, rfl⟩ := List.mem_map.mp ht
    exact hrep
  · intro tuple ht
    obtain ⟨old, hold, rfl⟩ := List.mem_map.mp ht
    exact h.masks old hold
  · intro qs hqs
    rw [lookIn]
    cases hf : AssocMap.find (s.clear.hashing hash).toKeyEq s.clear.tuples
        (maskOf s.clear.fields qs) with
    | none => rfl
    | some tuple =>
      obtain ⟨old, -, rfl⟩ := List.mem_map.mp (mem_of_find hf).1
      exact CuckooMap.look_new _ _ _ _ hrep

/-! ## Commands -/

theorem Holds.ensureTuple (h : Holds hash s R) (hps : Fits s.fields ps)
    (he : ensureTuple hash s (maskOf s.fields ps) = some (idx, s')) :
    s'.fields = s.fields ∧ Holds hash s' R ∧
      findTuple hash s' (maskOf s'.fields ps) = some idx := by
  unfold Wildcard.ensureTuple at he
  cases hidx : findTuple hash s (maskOf s.fields ps) with
  | some i =>
    rw [hidx] at he
    cases he
    exact ⟨rfl, h, hidx⟩
  | none =>
    rw [hidx] at he
    simp only at he
    split at he
    · cases he
    · cases he
      refine ⟨rfl, h.appendTuple hps hidx, ?_⟩
      exact findIdx?_append_new hidx ((s.hashing hash).refl _)

theorem Holds.insertEntry (h : Holds hash s R) (hok : s.promised = true) (hps : Fits s.fields ps)
    (hidx : findTuple hash s (maskOf s.fields ps) = some idx) {rule : Rule}
    (hkept : rule.Kept) :
    ∃ err s', insertEntry hash s idx (valueKey s.fields ps) rule.data = some (err, s') ∧
      s'.fields = s.fields ∧
      Holds hash s' (if err = success then Function.update R ps (some rule) else R) := by
  obtain ⟨e, he, hfind, -⟩ := h.distinct.findIdx?_spec hidx
  obtain ⟨r, ht, hins, hrep, hlook⟩ :=
    (h.rep e (mem_of_find hfind).1).look_insert (valueKey s.fields ps) rule.data
  unfold Wildcard.insertEntry
  rw [if_neg (by simp [hok]), he]
  simp only [hins]
  cases r with
  | none =>
    obtain ⟨hf, hh⟩ := h.setTuple hps hidx (R ps) hrep (fun r hr => (h.fits ps r hr).2) <| by
      intro tuple htuple key
      rw [he] at htuple
      cases htuple
      rw [hlook, if_neg (by simp)]
      split
      · rename_i hk
        rw [← (h.rep e (mem_of_find hfind).1).look_of_eq hk, ← h.look ps hps, lookIn_of_find hfind]
      · rfl
    refine ⟨_, _, rfl, hf, ?_⟩
    rw [if_neg (by decide)]
    rw [Function.update_eq_self] at hh
    exact hh
  | some entry =>
    obtain ⟨hf, hh⟩ := h.setTuple hps hidx (some rule) hrep
      (by rintro r ⟨⟩; exact hkept) <| by
      intro tuple htuple key
      rw [he] at htuple
      cases htuple
      rw [hlook]
      simp
    refine ⟨_, _, rfl, hf, ?_⟩
    rw [if_pos rfl]
    exact hh

theorem Holds.delEntry (h : Holds hash s R) (hok : s.promised = true) (hps : Fits s.fields ps)
    (hidx : findTuple hash s (maskOf s.fields ps) = some idx) :
    ∃ s', delEntry hash s idx (valueKey s.fields ps) = some s' ∧ s'.fields = s.fields ∧
      Holds hash s' (Function.update R ps none) := by
  obtain ⟨e, he, hfind, -⟩ := h.distinct.findIdx?_spec hidx
  obtain ⟨found, ht, hrem⟩ : ∃ found ht,
      e.2.remove (s.hashing hash) (valueKey s.fields ps) = (found, ht) := ⟨_, _, rfl⟩
  have hrepe := h.rep e (mem_of_find hfind).1
  have hrep := (hrepe.remove_spec (valueKey s.fields ps)).1
  have hlook := fun key => hrepe.look_remove (valueKey s.fields ps) key
  rw [hrem] at hrep hlook
  obtain ⟨hf, hh⟩ := h.setTuple hps hidx none hrep (fun r hr => by cases hr) <| by
    intro tuple htuple key
    rw [he] at htuple
    cases htuple
    exact hlook key
  unfold Wildcard.delEntry
  rw [if_neg (by simp [hok]), he]
  simp only [hrem]
  cases found with
  | true => exact ⟨_, rfl, hf, hh⟩
  | false =>
    simp only
    split
    · rename_i hcount
      -- nothing was removed, so there was nothing before
      have hcount' : e.2.count = 0 := by
        obtain ⟨-, hnone, hperm⟩ := hrepe.remove_spec (valueKey s.fields ps)
        rw [hrem] at hnone hperm
        rw [AssocMap.erase_of_find_eq_none (by simpa using hnone.symm)] at hperm
        exact (hrepe.length_contents.symm.trans hperm.length_eq.symm).trans
          (hrep.length_contents.trans hcount)
      have hnone : R ps = none := by
        have := h.look ps hps
        rw [lookIn_of_find hfind, look_eq_none_of_count hrepe hcount'] at this
        exact Option.map_eq_none_iff.mp this.symm
      refine ⟨_, rfl, rfl, ?_⟩
      rw [← hnone, Function.update_eq_self]
      refine h.eraseIdx hidx fun tuple htuple => ?_
      rw [he] at htuple
      cases htuple
      exact hcount'
    · exact ⟨_, rfl, hf, hh⟩

/-- A value in bytes is not longer than the field. -/
def FieldData.FitsIn (size : Nat) : FieldData → Prop
  | .valueBin bs => bs.length ≤ size
  | _ => True

def DataFits (fs : List WmField) (data : List FieldData) : Prop :=
  ∀ x ∈ fs.zip data, x.2.FitsIn x.1.size

theorem FieldData.extract_spec {f : WmField} {data : FieldData} (h : data.FitsIn f.size) :
    data.extract f.size = some none ∨ ∃ v < 256 ^ f.size, data.extract f.size = some (some v) := by
  cases data with
  | valueInt v =>
    cases hv : uint64ToBin v f.size true with
    | none => exact .inl (congrArg some hv)
    | some w => exact .inr ⟨w, uint64ToBin_lt hv, congrArg some hv⟩
  | valueBin bs =>
    have hlen : bs.length ≤ f.size := h
    have hsize : f.size ≤ 8 := f.size_le
    refine .inr ⟨leNat bs, (leNat_lt bs).trans_le (Nat.pow_le_pow_right (by decide) hlen), ?_⟩
    exact if_neg (by omega)
  | notSet => exact .inr ⟨0, Nat.pow_pos (by decide), rfl⟩

theorem extractFrom_fits (i : Nat) {fs : List WmField}
    (hv : DataFits fs values) (hm : DataFits fs masks) (hlv : values.length = fs.length)
    (hlm : masks.length = fs.length) :
    (∃ e : Error, e ≠ success ∧ extractFrom i fs values masks = some (.error e)) ∨
      ∃ ps, extractFrom i fs values masks = some (.ok ps) ∧ Fits fs ps := by
  induction fs generalizing i values masks with
  | nil => exact .inr ⟨[], rfl, ⟨rfl, fun x hx => by cases hx⟩, rfl, fun x hx => by cases hx⟩
  | cons f fs ih =>
    cases values with
    | nil => cases hlv
    | cons value values =>
      cases masks with
      | nil => cases hlm
      | cons mask masks =>
        unfold DataFits at hv hm
        rw [List.zip_cons_cons, List.forall_mem_cons] at hv hm
        unfold extractFrom
        simp only
        rcases value.extract_spec hv.1 with he | ⟨v, hvlt, he⟩
        · rw [he]
          exact .inl ⟨_, by simp [success, einval], rfl⟩
        rw [he]
        rcases mask.extract_spec hm.1 with he | ⟨m, hmlt, he⟩
        · rw [he]
          exact .inl ⟨_, by simp [success, einval], rfl⟩
        rw [he]
        simp only
        split
        · exact .inl ⟨_, by simp [success, einval], rfl⟩
        rcases ih (i + 1) hv.2 hm.2 (by simpa using hlv) (by simpa using hlm) with
          ⟨e, hne, he⟩ | ⟨ps, he, hf⟩
        · rw [he]
          exact .inl ⟨e, hne, rfl⟩
        · rw [he]
          refine .inr ⟨_, rfl, ⟨by simp [hf.length], ?_⟩, by simp [hf.length], ?_⟩
          · rw [List.map_cons, List.zip_cons_cons, List.forall_mem_cons]
            exact ⟨hvlt, hf.1.2⟩
          · rw [List.map_cons, List.zip_cons_cons, List.forall_mem_cons]
            exact ⟨hmlt, hf.2.2⟩

theorem extractKeyMask_fits (hv : DataFits s.fields values) (hm : DataFits s.fields masks) :
    (∃ e : Error, e ≠ success ∧ extractKeyMask s values masks = some (.error e)) ∨
      ∃ ps, extractKeyMask s values masks = some (.ok ps) ∧ Fits s.fields ps := by
  unfold extractKeyMask
  split
  · exact .inl ⟨_, by simp [success, einval], rfl⟩
  split
  · exact .inl ⟨_, by simp [success, einval], rfl⟩
  rename_i h1 h2
  exact extractFrom_fits 0 hv hm (not_not.mp h1) (not_not.mp h2)

/-- The values and the masks that a command gives. -/
def givenPairs (s : State) (values masks : List FieldData) : Option Pairs :=
  match extractKeyMask s values masks with
  | some (.ok ps) => some ps
  | _ => none

/-- A command that succeeded sets the entry of its rule. -/
def Installed.set (R : Installed) (given : Option Pairs) (err : Error) (rule : Option Rule) :
    Installed :=
  match given with
  | some ps => if err = success then Function.update R ps rule else R
  | none => R

/-- The rules after a command that returned `err`. -/
def Installed.apply (s : State) (R : Installed) (err : Error) : Command → Installed
  | .add arg => R.set (givenPairs s arg.values arg.masks) err (some arg.rule)
  | .delete values masks => R.set (givenPairs s values masks) err none
  | .clear => fun _ => none
  | .setDefaultGate _ => R

theorem Installed.set_of_ne {given : Option Pairs} {err : Error} {rule : Option Rule}
    (h : err ≠ success) : R.set given err rule = R := by
  unfold Installed.set
  split
  · exact if_neg h
  · rfl

theorem Installed.set_some (rule : Option Rule) (err : Error) :
    R.set (some ps) err rule = if err = success then Function.update R ps rule else R := rfl

/-- Values and masks are not longer than their fields, and the priority and the gate can be kept. -/
def Command.Within (fs : List WmField) : Command → Prop
  | .add arg => DataFits fs arg.values ∧ DataFits fs arg.masks ∧ arg.rule.Kept
  | .delete values masks => DataFits fs values ∧ DataFits fs masks
  | .clear => True
  | .setDefaultGate _ => True

theorem Holds.add (h : Holds hash s R) (hok : s.promised = true) {arg : AddArg}
    (hin : (Command.add arg).Within s.fields) :
    ∃ err s', commandAdd hash s arg = some (err, s') ∧ s'.fields = s.fields ∧
      Holds hash s' (R.set (givenPairs s arg.values arg.masks) err (some arg.rule)) := by
  obtain ⟨hv, hm, hkept⟩ := hin
  have hfail : ∀ err : Error, err ≠ success →
      Holds hash s (R.set (givenPairs s arg.values arg.masks) err (some arg.rule)) := by
    intro err hne
    rw [Installed.set_of_ne hne]
    exact h
  unfold commandAdd
  rcases extractKeyMask_fits hv hm with ⟨e, hne, he⟩ | ⟨ps, he, hps⟩
  · rw [he]
    exact ⟨_, _, rfl, rfl, hfail e hne⟩
  · have hgiven : givenPairs s arg.values arg.masks = some ps := by
      rw [givenPairs, he]
    rw [he]
    simp only
    split
    · exact ⟨_, _, rfl, rfl, hfail _ (by simp [success, einval])⟩
    · cases hens : Wildcard.ensureTuple hash s (maskOf s.fields ps) with
      | none => exact ⟨_, _, rfl, rfl, hfail _ (by simp [success, enospc])⟩
      | some r =>
        obtain ⟨hf, hh, hidx⟩ := h.ensureTuple hps hens
        rw [← hf] at hps
        have hok' : r.2.promised = true := by
          rw [← hok]
          unfold State.promised State.totalKeySize State.sizeAcc
          rw [hf]
        obtain ⟨err, s', hins, hf', hh'⟩ := hh.insertEntry hok' hps hidx hkept
        refine ⟨err, s', ?_, hf'.trans hf, ?_⟩
        · simp only
          rw [arg.data_eq hkept]
          exact hins
        · rw [hgiven, Installed.set_some]
          exact hh'

theorem Holds.delete (h : Holds hash s R) (hok : s.promised = true)
    (hin : (Command.delete values masks).Within s.fields) :
    ∃ err s', commandDelete hash s values masks = some (err, s') ∧ s'.fields = s.fields ∧
      Holds hash s' (R.set (givenPairs s values masks) err none) := by
  obtain ⟨hv, hm⟩ := hin
  have hfail : ∀ err : Error, err ≠ success →
      Holds hash s (R.set (givenPairs s values masks) err none) := by
    intro err hne
    rw [Installed.set_of_ne hne]
    exact h
  unfold commandDelete
  rcases extractKeyMask_fits hv hm with ⟨e, hne, he⟩ | ⟨ps, he, hps⟩
  · rw [he]
    exact ⟨_, _, rfl, rfl, hfail e hne⟩
  · have hgiven : givenPairs s values masks = some ps := by
      rw [givenPairs, he]
    rw [he]
    simp only
    cases hidx : findTuple hash s (maskOf s.fields ps) with
    | none => exact ⟨_, _, rfl, rfl, hfail _ (by simp [success, enoent])⟩
    | some idx =>
      obtain ⟨s', hdel, hf, hh⟩ := h.delEntry hok hps hidx
      refine ⟨success, s', ?_, hf, ?_⟩
      · simp only
        rw [hdel]
        rfl
      · rw [hgiven, Installed.set_some, if_pos rfl]
        exact hh

theorem Holds.step (h : Holds hash s R) (hok : s.promised = true) {cmd : Command}
    (hin : cmd.Within s.fields) :
    ∃ err s', step hash s cmd = some (err, s') ∧ s'.fields = s.fields ∧
      Holds hash s' (R.apply s err cmd) := by
  cases cmd with
  | add arg => exact h.add hok hin
  | delete values masks => exact h.delete hok hin
  | clear => exact ⟨_, _, rfl, rfl, h.clear⟩
  | setDefaultGate gate =>
    exact ⟨_, _, rfl, rfl, h.distinct, h.rep, h.masks, h.look, h.fits⟩

end Bess.Match.Wildcard
