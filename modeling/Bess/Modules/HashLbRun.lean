import Bess.Modules.HashLb

/-!
# Histories of a balancer

What the commands of `HashLB` leave behind. A list with an invalid gate is refused after the entries
before it, and it itself, were stored; the packets then go by the new entries up to the number of the
old ones. An empty list is accepted, and a packet then goes to what the first entry was before.
-/

namespace Bess.Modules.HashLb

open Bess.ByteMem Bess.Packing Bess.Match
open Bess.Match.ExactMatchTable (offsetBuffers rowWrites)

inductive Op
  | setGates (list : List Int)
  | setMode (arg : ModeArg)

def step (s : HashLb) : Op → Option CommandError × HashLb
  | .setGates list => s.commandSetGates list
  | .setMode arg => s.commandSetMode arg

/-- The list of the last `set_gates` that succeeded. -/
def lastList (s : HashLb) (list : List Int) : Op → List Int
  | .setGates new => if (s.commandSetGates new).1 = none then new else list
  | .setMode _ => list

/-- Every packet has a gate, and it is one of the list. -/
def SentTo (s : HashLb) (list : List Int) : Prop :=
  ∀ hash64 stale batch, ∃ out, s.processBatch hash64 stale batch = some out ∧
    out.length = batch.length ∧ ∀ g ∈ out, (g.toNat : Int) ∈ list

/-- No packet is sent to another gate. -/
def Unchanged (s t : HashLb) : Prop :=
  ∀ hash64 stale batch, t.processBatch hash64 stale batch = s.processBatch hash64 stale batch

def Right (s : HashLb) (list : List Int) : List Op → Prop
  | [] => s.SentTo list
  | op :: ops =>
    s.SentTo list ∧ ((s.step op).1 ≠ none → s.Unchanged (s.step op).2) ∧
      Right (s.step op).2 (s.lastList list op) ops

/-! ## When it is right -/

/-- There are gates, and what is stored in 16 bits is in the list. -/
def Fits (list : List Int) : Prop := list ≠ [] ∧ ∀ g ∈ list, ((gateIdx g).toNat : Int) ∈ list

/-- What is stored before a list is refused is there already. -/
def Harmless (s : HashLb) : Op → Prop
  | .setGates new => (s.commandSetGates new).1 ≠ none → new.length ≤ kMaxGates →
      ∀ k < s.numGates, k < stored GateList.isValidGate new → gateIdx (new.getD k 0) = s.gates k
  | .setMode _ => True

def AllFit (s : HashLb) (list : List Int) : List Op → Prop
  | [] => Fits list
  | op :: ops =>
    Fits list ∧ s.Harmless op ∧ AllFit (s.step op).2 (s.lastList list op) ops

/-- No request for fields is refused. -/
def FieldsAccepted (s : HashLb) : List Op → Prop
  | [] => True
  | op :: ops =>
    (∀ arg, op = .setMode arg → (s.commandSetMode arg).1 ≠ none → arg.fields = []) ∧
      FieldsAccepted (s.step op).2 ops

variable {hash64 : BitVec 64 → BitVec 32 → BitVec 32} {s t : HashLb} {p : Mem} {arg : ModeArg}
  {list new : List Int} {k n : Nat}

/-! ## Hashes -/

theorem hashRange_lt (h : BitVec 32) (hn : 0 < n) : hashRange h n < n := by
  rw [hashRange, Nat.div_lt_iff_lt_mul (by decide), Nat.mul_comm]
  exact Nat.mul_lt_mul_of_pos_left h.isLt hn

/-- Every entry is selected by a hash. -/
theorem exists_hashRange (hk : k < n) (hn : n ≤ kMaxGates) : ∃ c, hashRange c n = k := by
  have hpos : 0 < n := by omega
  obtain ⟨c, hc⟩ : ∃ c, c = (k * 2 ^ 32 + n - 1) / n := ⟨_, rfl⟩
  have hlow : k * 2 ^ 32 ≤ c * n := by
    have := Nat.lt_div_mul_add hpos (a := k * 2 ^ 32 + n - 1)
    rw [← hc] at this
    omega
  have hhigh : c * n ≤ k * 2 ^ 32 + n - 1 := by
    rw [hc]
    exact Nat.div_mul_le_self ..
  have hlt : c < 2 ^ 32 := by
    have h1 : (k + 1) * 2 ^ 32 ≤ n * 2 ^ 32 := Nat.mul_le_mul_right _ hk
    unfold kMaxGates at hn
    have h2 : c * n < 2 ^ 32 * n := by
      rw [Nat.mul_comm (2 ^ 32)]
      omega
    exact Nat.lt_of_mul_lt_mul_right h2
  refine ⟨BitVec.ofNat 32 c, ?_⟩
  rw [hashRange, BitVec.toNat_ofNat, Nat.mod_eq_of_lt hlt]
  unfold kMaxGates at hn
  omega

/-- A constant hash. -/
theorem flowHash_const (hs : s.Configured) (c : BitVec 32) (p : Mem) :
    s.flowHash (fun _ _ => c) p = c := by
  unfold flowHash
  cases hm : s.mode with
  | l2 => rfl
  | l3 => rfl
  | l4 => rfl
  | other =>
    obtain ⟨hne, hlen⟩ := hs hm
    obtain ⟨h8, -⟩ := totalKeySize_bounds hne
    obtain ⟨w, hw⟩ : ∃ w, s.hasherLen / 8 = w + 1 := ⟨s.hasherLen / 8 - 1, by omega⟩
    simp only [hasher, hw, List.range_succ, List.foldl_append, List.foldl_cons, List.foldl_nil]

/-! ## What the state holds -/

/-- The state after a list was accepted. -/
structure Holds (s : HashLb) (list : List Int) : Prop where
  configured : s.Configured
  numGates : s.numGates = list.length
  length_le : list.length ≤ kMaxGates
  gates : ∀ k < list.length, s.gates k = gateIdx (list.getD k 0)

theorem getD_mem (hk : k < list.length) : list.getD k 0 ∈ list := by
  rw [List.getD_eq_getElem?_getD, List.getElem?_eq_getElem hk]
  exact List.getElem_mem hk

theorem Holds.gate_mem (h : Holds s list) (hfits : Fits list) (c : BitVec 32) :
    ((s.gate c).toNat : Int) ∈ list := by
  have hpos : 0 < list.length := List.length_pos_iff.mpr hfits.1
  have hlt : hashRange c s.numGates < list.length := by
    rw [h.numGates]
    exact hashRange_lt c hpos
  rw [gate, h.gates _ hlt]
  exact hfits.2 _ (getD_mem hlt)

theorem Holds.sentTo_iff (h : Holds s list) : s.SentTo list ↔ Fits list := by
  constructor
  · intro hsent
    have hone : ∀ c, ((s.gate c).toNat : Int) ∈ list := by
      intro c
      obtain ⟨out, hout, -, hmem⟩ := hsent (fun _ _ => c) (fun _ => 0) [fun _ => 0]
      rw [processBatch_eq h.configured] at hout
      cases hout
      have hfirst : ((s.gate (s.flowHash (fun _ _ => c) fun _ => 0)).toNat : Int) ∈ list :=
        hmem _ (List.mem_singleton_self _)
      rwa [flowHash_const h.configured] at hfirst
    refine ⟨List.ne_nil_of_mem (hone 0), fun g hg => ?_⟩
    obtain ⟨k, hk, rfl⟩ := List.mem_iff_getElem.mp hg
    obtain ⟨c, hc⟩ := exists_hashRange hk h.length_le
    have := hone c
    rwa [gate, h.numGates, hc, h.gates k hk, List.getD_eq_getElem?_getD,
      List.getElem?_eq_getElem hk] at this
  · intro hfits hash64 stale batch
    refine ⟨_, processBatch_eq h.configured hash64 stale batch, List.length_map _, fun g hg => ?_⟩
    obtain ⟨p, -, rfl⟩ := List.mem_map.mp hg
    exact h.gate_mem hfits _

theorem Holds.unchanged_iff (h : Holds s list) (hfits : Fits list) (gates : Gates) :
    s.Unchanged { s with gates } ↔ ∀ k < s.numGates, gates k = s.gates k := by
  have hcfg : Configured { s with gates } := h.configured
  have hpos : 0 < s.numGates := h.numGates ▸ List.length_pos_iff.mpr hfits.1
  constructor
  · intro hsame k hk
    obtain ⟨c, hc⟩ := exists_hashRange hk (h.numGates ▸ h.length_le)
    have hout := hsame (fun _ _ => c) (fun _ => 0) [fun _ => 0]
    rw [processBatch_eq hcfg, processBatch_eq h.configured] at hout
    have hfirst : gate { s with gates } (flowHash (fun _ _ => c) { s with gates } fun _ => 0) =
        s.gate (s.flowHash (fun _ _ => c) fun _ => 0) :=
      List.head_eq_of_cons_eq (Option.some.inj hout)
    rw [flowHash_const hcfg, flowHash_const h.configured] at hfirst
    simpa only [gate, hc] using hfirst
  · intro hsame hash64 stale batch
    rw [processBatch_eq hcfg, processBatch_eq h.configured]
    refine congrArg some (List.map_congr_left fun p _ => ?_)
    exact hsame _ (hashRange_lt _ hpos)

/-! ## Steps -/

theorem addFields_ok {i : Nat} {t u : ExactMatchTable Int} {fs : List FieldArg}
    (h : addFields i t fs = (none, u)) : u.fields.length = t.fields.length + fs.length := by
  induction fs generalizing i t with
  | nil =>
    cases h
    rfl
  | cons f fs ih =>
    rw [addFields] at h
    split at h
    · cases h
    · rename_i t' ht'
      obtain ⟨-, g, hg, -⟩ := ExactMatchTable.addField_fields ht'
      rw [ih h, hg, List.length_append, List.length_singleton, List.length_cons]
      omega

/-- A request for a mode keeps the gates. It is accepted with all its fields, or it changes nothing,
unless it is refused with fields. -/
theorem commandSetMode_cases (s : HashLb) (arg : ModeArg) :
    ((s.commandSetMode arg).1 = none ∧ (s.commandSetMode arg).2.gates = s.gates ∧
        (s.commandSetMode arg).2.numGates = s.numGates ∧ (s.commandSetMode arg).2.Configured) ∨
      (s.commandSetMode arg).1 ≠ none ∧ (arg.fields = [] → (s.commandSetMode arg).2 = s) := by
  have hplain : ∀ m, m ≠ Mode.other → Configured { s with mode := m } := fun m hm h => absurd h hm
  unfold commandSetMode
  split
  · rename_i hne
    split
    · exact .inr ⟨Option.some_ne_none _, fun h => absurd h hne⟩
    · rename_i t ht
      refine .inl ⟨rfl, rfl, rfl, fun _ => ⟨fun h => ?_, rfl⟩⟩
      have hlen := addFields_ok ht
      rw [show t.fields = [] from h] at hlen
      exact hne (List.length_eq_zero_iff.mp (by simp only [List.length_nil] at hlen; omega))
  · split
    · exact .inl ⟨rfl, rfl, rfl, hplain _ (by decide)⟩
    · split
      · exact .inl ⟨rfl, rfl, rfl, hplain _ (by decide)⟩
      · split
        · exact .inl ⟨rfl, rfl, rfl, hplain _ (by decide)⟩
        · exact .inr ⟨Option.some_ne_none _, fun _ => rfl⟩

theorem commandSetGates_refused (h : (s.commandSetGates new).1 ≠ none) :
    kMaxGates < new.length ∧ (s.commandSetGates new).2 = s ∨
      new.length ≤ kMaxGates ∧ (s.commandSetGates new).2 =
        { s with gates := (storeGates GateList.isValidGate s.gates 0 new).1 } := by
  unfold commandSetGates at h ⊢
  split
  · rename_i hlen
    exact .inl ⟨hlen, rfl⟩
  · rename_i hlen
    rw [if_neg hlen] at h
    refine .inr ⟨by omega, ?_⟩
    split
    · rename_i hs
      rw [hs]
    · rename_i hs
      rw [hs] at h
      exact absurd rfl h

theorem Holds.of_setGates (hs : s.Configured) (h : s.commandSetGates new = (none, t)) :
    Holds t new := by
  have hcfg := hs.setGates h
  obtain ⟨hlen, hnone, rfl⟩ := commandSetGates_ok h
  exact ⟨hcfg, rfl, hlen, fun k hk => storeGates_accepted hnone hk⟩

theorem Holds.of_mode (h : Holds s list) (hgates : t.gates = s.gates)
    (hnum : t.numGates = s.numGates) (hcfg : t.Configured) : Holds t list := by
  refine ⟨hcfg, hnum.trans h.numGates, h.length_le, fun k hk => ?_⟩
  rw [hgates, h.gates k hk]

theorem unchanged_refl (s : HashLb) : s.Unchanged s := fun _ _ _ => rfl

/-- What a refused request does is seen iff it stores something else. -/
theorem Holds.refused_iff (h : Holds s list) (hfits : Fits list)
    (href : (s.commandSetGates new).1 ≠ none) :
    s.Unchanged (s.commandSetGates new).2 ↔ s.Harmless (.setGates new) := by
  rw [Harmless]
  rcases commandSetGates_refused href with ⟨hlen, heq⟩ | ⟨hlen, heq⟩
  · rw [heq]
    exact iff_of_true (unchanged_refl s) fun _ hle => by omega
  · rw [heq, h.unchanged_iff hfits]
    simp only [storeGates_eq_iff]
    exact ⟨fun hall _ _ k hk => hall k hk, fun hall k hk => hall href hlen k hk⟩

theorem Holds.step (h : Holds s list) (hfits : Fits list) {op : Op} (hharm : s.Harmless op)
    (hfields : ∀ arg, op = .setMode arg → (s.commandSetMode arg).1 ≠ none → arg.fields = []) :
    Holds (s.step op).2 (s.lastList list op) := by
  cases op with
  | setMode arg =>
    rcases commandSetMode_cases s arg with ⟨-, hgates, hnum, hcfg⟩ | ⟨href, hkeep⟩
    · exact h.of_mode hgates hnum hcfg
    · rw [HashLb.step, hkeep (hfields arg rfl href)]
      exact h
  | setGates new =>
    rw [HashLb.step, lastList]
    split
    · rename_i hacc
      exact Holds.of_setGates h.configured (Prod.ext hacc rfl)
    · rename_i href
      have hsame := (h.refused_iff hfits href).mpr hharm
      rcases commandSetGates_refused href with ⟨-, heq⟩ | ⟨-, heq⟩
      · rw [heq]
        exact h
      · rw [heq, h.unchanged_iff hfits] at hsame
        rw [heq]
        refine ⟨h.configured, h.numGates, h.length_le, fun k hk => ?_⟩
        exact (hsame k (h.numGates ▸ hk)).trans (h.gates k hk)

theorem Holds.error_iff (h : Holds s list) (hfits : Fits list) {op : Op}
    (hfields : ∀ arg, op = .setMode arg → (s.commandSetMode arg).1 ≠ none → arg.fields = []) :
    ((s.step op).1 ≠ none → s.Unchanged (s.step op).2) ↔ s.Harmless op := by
  cases op with
  | setMode arg =>
    refine iff_of_true (fun href => ?_) trivial
    rcases commandSetMode_cases s arg with ⟨hacc, -⟩ | ⟨-, hkeep⟩
    · exact absurd hacc href
    · rw [HashLb.step, hkeep (hfields arg rfl href)]
      exact unchanged_refl s
  | setGates new =>
    constructor
    · intro hsame href
      exact (h.refused_iff hfits href).mp (hsame href) href
    · intro hharm href
      exact (h.refused_iff hfits href).mpr hharm

theorem Holds.right_iff (h : Holds s list) (ops : List Op) (hfields : s.FieldsAccepted ops) :
    s.Right list ops ↔ s.AllFit list ops := by
  induction ops generalizing s list with
  | nil => exact h.sentTo_iff
  | cons op ops ih =>
    rw [Right, AllFit, h.sentTo_iff]
    refine and_congr_right fun hfits => ?_
    rw [h.error_iff hfits hfields.1]
    exact and_congr_right fun hharm => ih (h.step hfits hharm hfields.1) hfields.2

theorem configured_fresh : fresh.Configured := fun h => by cases h

theorem Holds.of_init (h : init list arg = (none, s)) : Holds s list := by
  unfold init at h
  split at h
  · cases h
  · rename_i t ht
    have hholds := Holds.of_setGates configured_fresh ht
    split at h
    · cases h
      exact hholds.of_mode rfl rfl fun h => by cases h
    · rcases commandSetMode_cases t arg with ⟨-, hgates, hnum, hcfg⟩ | ⟨href, -⟩
      · rw [h] at hgates hnum hcfg
        exact hholds.of_mode hgates hnum hcfg
      · rw [h] at href
        exact absurd rfl href

/-- For every history, from `Init` on, in which no request for fields is refused. -/
theorem balancer_right_iff (hinit : init list arg = (none, s)) (ops : List Op)
    (hfields : s.FieldsAccepted ops) : s.Right list ops ↔ s.AllFit list ops :=
  (Holds.of_init hinit).right_iff ops hfields

/-- One list after another. -/
theorem relisted_right : ∃ s, init [0, 1] ⟨"", []⟩ = (none, s) ∧
    s.Right [0, 1] [.setMode ⟨"l2", []⟩, .setGates [2, 0, 2]] := by
  obtain ⟨s, hs⟩ : ∃ s, init [0, 1] ⟨"", []⟩ = (none, s) := ⟨_, rfl⟩
  refine ⟨s, hs, (balancer_right_iff hs _ ?_).mpr ?_⟩
  · cases hs
    refine ⟨fun arg harg href => ?_, fun arg harg => ?_, trivial⟩
    · cases harg
      rfl
    · cases harg
  · cases hs
    have hfits : Fits [0, 1] := ⟨by decide, by decide⟩
    refine ⟨hfits, trivial, hfits, fun href => absurd rfl href, ?_⟩
    exact ⟨by decide, by decide⟩

/-- The list is refused for its second entry, and packets go to the first one. The field is refused,
and nothing is defined for packets any more. -/
theorem refused_but_used : ∃ s, init [0, 1] ⟨"", []⟩ = (none, s) ∧
    s.processBatch Checksum.crc32cU64 (fun _ => 0) [fun _ => 0] = some [0] ∧
    ((s.commandSetGates [3, 9000]).1 = some ((EINVAL : Int), "Invalid ogate 9000") ∧
      (s.commandSetGates [3, 9000]).2.processBatch Checksum.crc32cU64 (fun _ => 0) [fun _ => 0] =
        some [3]) ∧
    (s.commandSetMode ⟨"", [⟨0, 9⟩]⟩).1 =
      some (-22, "Error adding field 0: idx 0: 'size' must be in [1,8]") ∧
    (s.commandSetMode ⟨"", [⟨0, 9⟩]⟩).2.processBatch Checksum.crc32cU64 (fun _ => 0) [fun _ => 0] =
      none := by
  refine ⟨_, rfl, ?_, ⟨rfl, ?_⟩, rfl, rfl⟩
  · decide +kernel
  · decide +kernel

end Bess.Modules.HashLb
