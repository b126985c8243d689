import Bess.Match.WildcardRules

/-!
# The gates of a WildcardMatch

In every run of commands and batches, each packet goes to the gate of an installed rule of highest
priority among those that match it. The keys of a batch are put together field by field for all
packets. A copy of eight bytes for a field that ends before byte 64 may reach into the key of the
next packet, and overwrite there what an earlier field left: a batch of several packets needs every
copy to stay inside of its key. A module without fields has no key at all.
-/

namespace Bess.Match.Wildcard

open Bess.ByteMem Bess.Cuckoo Bess.Packing Bess.AssocMap

variable {hash : List Byte → BitVec 64} {attrOffset : Nat → Nat} {s s' : State} {R : Installed}
  {pkts : List Packet}

/-! ## Keys of a batch -/

/-- Every copy of eight bytes stays inside of its key, or there is no key after it. -/
def StaysInside (fs : List WmField) (pkts : List Packet) : Prop :=
  pkts.length ≤ 1 ∨ ∀ f ∈ fs, f.pos + 8 ≤ hashKeySize

theorem promised_iff : s.promised = true ↔ 8 ≤ s.totalKeySize ∧ s.totalKeySize ≤ hashKeySize :=
  decide_eq_true_iff

theorem keyWrites_inside (hok : s.promised = true) (hcnt : pkts.length ≤ maxBurst)
    (hin : StaysInside s.fields pkts) {w : Write} (hw : w ∈ keyWrites attrOffset s pkts) :
    w.start + w.width ≤ hashKeySize * maxBurst := by
  obtain ⟨h8, h64⟩ := promised_iff.mp hok
  have h2048 : hashKeySize = 64 ∧ maxBurst = 32 := ⟨rfl, rfl⟩
  rcases List.mem_append.mp hw with hw | hw
  · obtain ⟨j, hj, rfl⟩ := List.mem_map.mp hw
    have hj := List.mem_range.mp hj
    simp only [zeroLast, h2048.1, h2048.2]
    omega
  · obtain ⟨f, hf, hw⟩ := List.mem_flatMap.mp hw
    obtain ⟨j, hj, rfl⟩ := List.mem_map.mp hw
    have hj := List.mem_range.mp hj
    have hpos := (s.packed.bounds hf).2
    have htotal := s.total_le
    simp only [fieldWrite, h2048.1, h2048.2]
    rcases hin with hone | hin
    · omega
    · have := hin f hf
      omega

theorem keyOf_writeAll {stale : Mem} (hin : StaysInside s.fields pkts) {j : Nat}
    (hj : j < pkts.length) :
    KeyOf attrOffset s.fields (pkts.getD j default)
      fun i => writeAll stale (keyWrites attrOffset s pkts) (hashKeySize * j + i) := by
  intro f hf k hk
  have h64 : hashKeySize = 64 := rfl
  have hsize : f.size ≤ 8 := f.size_le
  obtain ⟨pre, post, hfields⟩ := List.append_of_mem hf
  obtain ⟨before, after, hrange⟩ := List.append_of_mem (List.mem_range.mpr hj)
  have hlater : ∀ j' ∈ after, j < j' := by
    have hsorted := List.pairwise_lt_range (n := pkts.length)
    rw [hrange] at hsorted
    exact (List.pairwise_cons.mp (List.pairwise_append.mp hsorted).2.1).1
  have hpost : ∀ g ∈ post, f.pos + f.size ≤ g.pos := by
    have hpacked := s.packed
    rw [hfields] at hpacked
    exact hpacked.apart.2
  -- the last copy to this place is that of the field
  have hsplit : ∃ ws, keyWrites attrOffset s pkts = ws ++ fieldWrite attrOffset pkts f j ::
      (after.map (fieldWrite attrOffset pkts f) ++
        post.flatMap fun g => (List.range pkts.length).map (fieldWrite attrOffset pkts g)) := by
    refine ⟨(List.range pkts.length).map (fun j => zeroLast (hashKeySize * j) s.totalKeySize) ++
      (pre.flatMap fun g => (List.range pkts.length).map (fieldWrite attrOffset pkts g)) ++
      before.map (fieldWrite attrOffset pkts f), ?_⟩
    rw [keyWrites, hfields, List.flatMap_append, List.flatMap_cons]
    nth_rewrite 3 [hrange]
    simp only [List.map_append, List.map_cons, List.append_assoc, List.cons_append]
  obtain ⟨ws, hws⟩ := hsplit
  simp only
  rw [hws, writeAll_last]
  · simp only [fieldWrite]
    congr 1
    omega
  · simp only [fieldWrite, Write.Covers, h64]
    omega
  · intro w hw
    rcases List.mem_append.mp hw with hw | hw
    · obtain ⟨j', hj', rfl⟩ := List.mem_map.mp hw
      have := hlater j' hj'
      simp only [fieldWrite, Write.Covers, h64]
      omega
    · obtain ⟨g, hg, hw⟩ := List.mem_flatMap.mp hw
      obtain ⟨j', hj', rfl⟩ := List.mem_map.mp hw
      have hj' := List.mem_range.mp hj'
      have hle := hpost g hg
      have hgf : g ∈ s.fields := by
        rw [hfields]
        exact List.mem_append_right _ (List.mem_cons_of_mem _ hg)
      simp only [fieldWrite, Write.Covers, h64]
      rcases hin with hone | hin
      · omega
      · have := hin g hgf
        omega

theorem map_getD_range (pkts : List Packet) :
    (List.range pkts.length).map (fun j => pkts.getD j default) = pkts := by
  apply List.ext_getElem
  · simp
  · intro i h1 h2
    simp [h2]

theorem Holds.processBatch (h : Holds hash s R) (hok : s.promised = true)
    (hcnt : pkts.length ≤ maxBurst) (hin : StaysInside s.fields pkts) (stale : Mem) :
    ∃ gates, processBatch hash attrOffset s stale pkts = some gates ∧
      List.Forall₂ (RightGate attrOffset s R) pkts gates := by
  unfold Wildcard.processBatch
  split
  · rename_i hnil
    exact ⟨[], rfl, hnil ▸ .nil⟩
  · rw [if_neg (by simp [hok])]
    simp only
    have hany : ((keyWrites attrOffset s pkts).any fun w =>
        hashKeySize * maxBurst < w.start + w.width) = false := by
      rw [List.any_eq_false]
      intro w hw
      have := keyWrites_inside hok hcnt hin hw
      simp only [decide_eq_true_eq]
      omega
    rw [if_neg (by simp [hany])]
    refine ⟨_, rfl, ?_⟩
    nth_rewrite 1 [← map_getD_range pkts]
    rw [List.forall₂_map_left_iff, List.forall₂_map_right_iff, List.forall₂_same]
    intro j hj
    exact h.lookupEntry_right (keyOf_writeAll hin (List.mem_range.mp hj))

/-! ## Runs -/

inductive Event where
  | command (cmd : Command)
  | batch (stale : Mem) (pkts : List Packet)

/-- What a command or a batch has to be like for the gates to be right. -/
def Event.Within (fs : List WmField) : Event → Prop
  | .command cmd => cmd.Within fs
  | .batch _ pkts => pkts.length ≤ maxBurst ∧ StaysInside fs pkts

/-- In the run every command returns, and every packet of every batch gets the right gate. -/
def RightAlong (hash : List Byte → BitVec 64) (attrOffset : Nat → Nat) :
    State → Installed → List Event → Prop
  | _, _, [] => True
  | s, R, .command cmd :: es => ∃ err s', step hash s cmd = some (err, s') ∧
    RightAlong hash attrOffset s' (R.apply s err cmd) es
  | s, R, .batch stale pkts :: es =>
    (∃ gates, processBatch hash attrOffset s stale pkts = some gates ∧
      List.Forall₂ (RightGate attrOffset s R) pkts gates) ∧ RightAlong hash attrOffset s R es

theorem promised_of_fields (hf : s'.fields = s.fields) : s'.promised = s.promised := by
  unfold State.promised State.totalKeySize State.sizeAcc
  rw [hf]

theorem Holds.rightAlong (h : Holds hash s R) (hok : s.promised = true) {es : List Event}
    (hes : ∀ e ∈ es, e.Within s.fields) : RightAlong hash attrOffset s R es := by
  induction es generalizing s R with
  | nil => trivial
  | cons e es ih =>
    obtain ⟨he, hrest⟩ := List.forall_mem_cons.mp hes
    cases e with
    | command cmd =>
      obtain ⟨err, s', hs, hf, hh⟩ := h.step hok he
      rw [← hf] at hrest
      rw [← promised_of_fields hf] at hok
      exact ⟨err, s', hs, ih hh hok hrest⟩
    | batch stale pkts => exact ⟨h.processBatch hok he.1 he.2 stale, ih h hok hrest⟩

theorem init_ok {args : List FieldArg} (h : init args = .ok s) :
    s.tuples = [] ∧ (args ≠ [] → s.fields ≠ []) := by
  unfold init at h
  split at h
  · cases h
  · rename_i fields hf
    cases h
    refine ⟨rfl, fun hne hnil => ?_⟩
    cases args with
    | nil => exact hne rfl
    | cons a args =>
      obtain ⟨f, fs, -, -, rfl⟩ := addFieldsFrom_cons_inv hf
      cases hnil

theorem promised_of_ne_nil (hne : s.fields ≠ []) (hfit : s.sizeAcc ≤ hashKeySize) :
    s.promised = true := by
  obtain ⟨f, fs, hf⟩ := List.exists_cons_of_ne_nil hne
  have hpos : 0 < s.sizeAcc := by
    have := f.size_pos
    rw [State.sizeAcc, hf, total_cons]
    omega
  have h64 : hashKeySize = 64 := rfl
  rw [promised_iff, State.totalKeySize, alignCeil]
  omega

theorem holds_init {args : List FieldArg} (hinit : init args = .ok s) :
    Holds hash s fun _ => none := by
  obtain ⟨htuples, -⟩ := init_ok hinit
  refine ⟨?_, ?_, ?_, ?_, fun ps r hr => by cases hr⟩
  · rw [htuples]
    exact .nil
  · rw [htuples]
    simp
  · rw [htuples]
    simp
  · intro ps _
    rw [htuples]
    rfl

/-- For every list of fields, at least one, whose key fits into 64 bytes, and every run of commands
and batches: if values and masks are not longer than their fields, priorities fit into an `int` and
gates into 16 bits, and in batches of several packets every copy of eight bytes stays inside of its
key, then every packet goes to the gate of a rule of highest priority among the installed rules that
match it, or to the default gate if there is none. -/
theorem gates_right_along (hash : List Byte → BitVec 64) (attrOffset : Nat → Nat)
    {args : List FieldArg} {s : State} (hinit : init args = .ok s) (hne : args ≠ [])
    (hfit : s.sizeAcc ≤ hashKeySize) (es : List Event) (hes : ∀ e ∈ es, e.Within s.fields) :
    RightAlong hash attrOffset s (fun _ => none) es := by
  exact (holds_init hinit).rightAlong (promised_of_ne_nil ((init_ok hinit).2 hne) hfit) hes

/-! ## A priority that is cut off, and a copy that overwrites a key -/

/-- One field, the first byte. -/
def oneByteArgs : List FieldArg := [⟨.offset 0, 1⟩]

/-- The module after `Init`, if it accepts the fields. -/
def initialised (args : List FieldArg) : State :=
  match init args with
  | .ok s => s
  | .error _ => ⟨[], trivial, [], dropGate⟩

def oneByte : State := initialised oneByteArgs

/-- Matches every packet. -/
def anyRule (priority : BitVec 64) : AddArg := ⟨1, priority, [.valueInt 0], [.valueInt 0]⟩

/-- Matches packets whose first byte is zero. -/
def zeroRule : AddArg := ⟨2, 1, [.valueInt 0], [.valueInt 0xFF]⟩

def zeroPacket : Packet := ⟨fun _ => 0, 0⟩

/-- `2 ^ 32` -/
def largePriority : BitVec 64 := 0x100000000

def zeroEvents (priority : BitVec 64) : List Event :=
  [.command (.add (anyRule priority)), .command (.add zeroRule), .batch (fun _ => 0) [zeroPacket]]

theorem zeroEvents_two_right :
    init oneByteArgs = .ok oneByte ∧ oneByte.sizeAcc ≤ hashKeySize ∧
      RightAlong crcKey (fun _ => 0) oneByte (fun _ => none) (zeroEvents 2) := by
  have hinit : init oneByteArgs = .ok oneByte := rfl
  refine ⟨hinit, by decide, gates_right_along _ _ hinit (by decide) (by decide) _ ?_⟩
  intro e he
  simp only [zeroEvents, List.mem_cons, List.not_mem_nil, or_false] at he
  rcases he with rfl | rfl | rfl
  · refine ⟨?_, ?_, by decide⟩ <;>
    · intro x hx
      cases List.mem_singleton.mp hx
      trivial
  · refine ⟨?_, ?_, by decide⟩ <;>
    · intro x hx
      cases List.mem_singleton.mp hx
      trivial
  · exact ⟨by decide, .inl le_rfl⟩

/-- Of the two rules that match, the one of smaller priority decides. -/
theorem zeroEvents_large_gates :
    ((step crcKey oneByte (.add (anyRule largePriority))).bind fun r =>
      (step crcKey r.2 (.add zeroRule)).map fun r' =>
        decide (r.1 = success ∧ r'.1 = success ∧
          givenPairs r.2 zeroRule.values zeroRule.masks = some [(0, 0xFF)] ∧
          Matches (fun _ => 0) r'.2.fields zeroPacket [(0, 0)] ∧
          processBatch crcKey (fun _ => 0) r'.2 (fun _ => 0) [zeroPacket] = some [2#16])) =
      some true := by
  decide +kernel

theorem zeroEvents_large_wrong :
    ¬ RightAlong crcKey (fun _ => 0) oneByte (fun _ => none) (zeroEvents largePriority) := by
  rintro ⟨err, s, hs, err', s', hs', ⟨gates, hgates, hright⟩, -⟩
  have hrun := zeroEvents_large_gates
  rw [hs, Option.bind_some, hs', Option.map_some, Option.some.injEq, decide_eq_true_eq] at hrun
  obtain ⟨rfl, rfl, hgiven, hmatch, hbatch⟩ := hrun
  have hgiven' : givenPairs oneByte (anyRule largePriority).values (anyRule largePriority).masks =
    some [(0, 0)] := by decide +kernel
  rw [hgates] at hbatch
  cases hbatch
  simp only [Installed.apply, hgiven, hgiven', Installed.set_some, if_pos] at hright
  cases hright with
  | cons hright _ =>
    have hany : Function.update (Function.update (fun _ => none) [(0, 0)]
        (some (anyRule largePriority).rule)) [(0, 0xFF)] (some zeroRule.rule) [(0, 0)] =
        some (anyRule largePriority).rule := by
      rw [Function.update_of_ne (by decide), Function.update_self]
    rcases hright with ⟨ps, r, hr, -, hgate, hmax⟩ | ⟨-, hnone⟩
    · have hlarge := hmax [(0, 0)] (anyRule largePriority).rule hany hmatch
      simp only [Function.update_apply] at hr
      split at hr
      · cases hr
        revert hlarge
        decide
      · split at hr
        · cases hr
          revert hgate
          decide
        · cases hr
    · exact hnone [(0, 0)] (anyRule largePriority).rule hany hmatch

/-- Seven fields of eight bytes and two of one byte. -/
def nineFieldArgs : List FieldArg :=
  List.replicate 7 ⟨.offset 0, 8⟩ ++ [⟨.offset 0, 1⟩, ⟨.offset 0, 1⟩]

def nineFields : State := initialised nineFieldArgs

/-- The first byte of the first field is zero. -/
def firstZeroRule : AddArg :=
  ⟨1, 1, List.replicate 9 (.valueInt 0),
    .valueInt 0xFF00000000000000 :: List.replicate 8 (.valueInt 0)⟩

def firstZero : Pairs := (0, 0xFF) :: List.replicate 8 (0, 0)

def onesPacket : Packet := ⟨fun _ => 1, 0⟩

/-- The copy for the last field of the first packet overwrites the first field of the second one. -/
theorem nineFields_gates :
    ((step crcKey nineFields (.add firstZeroRule)).map fun r =>
      decide (r.1 = success ∧ Matches (fun _ => 0) r.2.fields zeroPacket firstZero ∧
        processBatch crcKey (fun _ => 0) r.2 (fun _ => 0) [onesPacket, zeroPacket] =
          some [dropGate, dropGate])) = some true := by
  decide +kernel

theorem nineFields_wrong :
    ¬ RightAlong crcKey (fun _ => 0) nineFields (fun _ => none)
      [.command (.add firstZeroRule), .batch (fun _ => 0) [onesPacket, zeroPacket]] := by
  rintro ⟨err, s, hs, ⟨gates, hgates, hright⟩, -⟩
  have hrun := nineFields_gates
  rw [hs, Option.map_some, Option.some.injEq, decide_eq_true_eq] at hrun
  obtain ⟨rfl, hmatch, hbatch⟩ := hrun
  have hgiven : givenPairs nineFields firstZeroRule.values firstZeroRule.masks =
    some firstZero := by decide +kernel
  rw [hgates] at hbatch
  cases hbatch
  simp only [Installed.apply, hgiven, Installed.set_some, if_pos] at hright
  cases hright with
  | cons _ hright =>
    cases hright with
    | cons hright _ =>
      rcases hright with ⟨ps, r, hr, -, hgate, -⟩ | ⟨-, hnone⟩
      · rw [Function.update_apply] at hr
        split at hr
        · cases hr
          revert hgate
          decide
        · cases hr
      · exact hnone firstZero firstZeroRule.rule (Function.update_self ..) hmatch

/-- A priority of `2 ^ 32` is kept as zero, so that a rule of priority one wins over it. With nine
fields in 58 bytes, a packet misses the rule it matches because of the packet before it. -/
theorem gates_wrong :
    (init oneByteArgs = .ok oneByte ∧ oneByte.sizeAcc ≤ hashKeySize ∧
      ¬ RightAlong crcKey (fun _ => 0) oneByte (fun _ => none) (zeroEvents largePriority)) ∧
    init nineFieldArgs = .ok nineFields ∧ nineFields.sizeAcc ≤ hashKeySize ∧
      ¬ RightAlong crcKey (fun _ => 0) nineFields (fun _ => none)
        [.command (.add firstZeroRule), .batch (fun _ => 0) [onesPacket, zeroPacket]] :=
  ⟨⟨rfl, by decide, zeroEvents_large_wrong⟩, rfl, by decide, nineFields_wrong⟩

end Bess.Match.Wildcard
