import Bess.Match.Batch
import Bess.Modules.GateList

/-!
# Balancing by hashes

`modules/hash_lb.cc` hashes a part of each packet and sends it to the entry of a list of gates that
the hash selects. In mode `l4` the protocol is read as a word of four bytes, which has the checksum of
the IP header in it: packets of one flow are sent apart if their checksums differ. Both commands
change the state while they check their argument, and keep the changes if they refuse it.

`hash64` is `hash_64`, on x86 the CRC32C of `Bess.Checksum`. A packet is the memory from its head on.
-/

namespace Bess.Modules

open Bess.ByteMem Bess.Packing Bess.Match
open Bess.Match.ExactMatchTable (offsetBuffers keyAt rowWrites keyBytes)

inductive HashLb.Mode
  | l2 | l3 | l4 | other
  deriving DecidableEq

structure HashLb where
  gates : Gates
  numGates : Nat
  mode : HashLb.Mode
  fieldsTable : ExactMatchTable Int
  /-- `len_` of `hasher_` -/
  hasherLen : Nat

namespace HashLb

/-! ## Commands -/

def kMaxGates : Nat := 16384

/-- A code, which is below zero for the fields, and a text. -/
abbrev CommandError := Int × String

/-- A `Field`; its offset is zero if it has the name of an attribute. -/
structure FieldArg where
  offset : BitVec 32
  numBytes : BitVec 32

/-- `HashLBCommandSetModeArg` -/
structure ModeArg where
  mode : String
  fields : List FieldArg

/-- The table with the fields up to the first that is refused. -/
def addFields (i : Nat) (t : ExactMatchTable Int) :
    List FieldArg → Option CommandError × ExactMatchTable Int
  | [] => (none, t)
  | f :: fs =>
    match t.addField f.offset.toInt f.numBytes.toInt 0 with
    | .error e => (some (-e.1, "Error adding field " ++ toString i ++ ": " ++ e.2), t)
    | .ok t => addFields (i + 1) t fs

def commandSetMode (s : HashLb) (arg : ModeArg) : Option CommandError × HashLb :=
  if arg.fields ≠ [] then
    match addFields 0 ExactMatchTable.empty arg.fields with
    | (some e, t) => (some e, { s with mode := .other, fieldsTable := t })
    | (none, t) => (none, { s with mode := .other, fieldsTable := t, hasherLen := t.totalKeySize })
  else if arg.mode = "l2" then (none, { s with mode := .l2 })
  else if arg.mode = "l3" then (none, { s with mode := .l3 })
  else if arg.mode = "l4" then (none, { s with mode := .l4 })
  else (some (EINVAL, "available LB modes: l2, l3, l4"), s)

def commandSetGates (s : HashLb) (arg : List Int) : Option CommandError × HashLb :=
  if kMaxGates < arg.length then (some (EINVAL, "HashLB can have at most 16384 ogates"), s)
  else
    match storeGates GateList.isValidGate s.gates 0 arg with
    | (gates, some g) => (some (EINVAL, "Invalid ogate " ++ toString g.toNat), { s with gates })
    | (gates, none) => (none, { s with gates, numGates := arg.length })

def fresh : HashLb := ⟨fun _ => 0, 0, .l2, ExactMatchTable.empty, 0⟩

/-- The default mode is `l4`. -/
def init (gates : List Int) (arg : ModeArg) : Option CommandError × HashLb :=
  match fresh.commandSetGates gates with
  | (some e, s) => (some e, s)
  | (none, s) =>
    if arg.mode = "" ∧ arg.fields = [] then (none, { s with mode := .l4 })
    else s.commandSetMode arg

/-! ## Packets -/

section Packets

variable (hash64 : BitVec 64 → BitVec 32 → BitVec 32)

/-- `hash_range`: the integer part of `h * n / 2 ^ 32`. -/
def hashRange (h : BitVec 32) (n : Nat) : Nat := h.toNat * n / 2 ^ 32

def gate (s : HashLb) (h : BitVec 32) : Gate := s.gates (hashRange h s.numGates)

/-- `ExactMatchKeyHash`, for keys of `len` bytes. -/
def hasher (len : Nat) (key : Mem) : BitVec 32 :=
  (List.range (len / 8)).foldl (fun h i => hash64 (BitVec.ofNat 64 (load key (8 * i) 8)) h) 0

def hashL2 (head : Mem) : BitVec 32 :=
  hash64 (BitVec.ofNat 64 (load head 0 8)) (BitVec.ofNat 32 (load head 8 4))

def hashL3 (head : Mem) : BitVec 32 := hash64 (BitVec.ofNat 64 (load head (14 + 12) 8)) 0

/-- The ports and the protocol, each in the low bytes of what is loaded. -/
def wordL4 (head : Mem) : BitVec 32 :=
  BitVec.ofNat 32 (load head (14 + 20) 8) ^^^ BitVec.ofNat 32 (load head (14 + 9) 4)

def hashL4 (head : Mem) : BitVec 32 :=
  hash64 (BitVec.ofNat 64 (load head (14 + 12) 8)) (wordL4 head)

/-- `ProcessBatch`; `stale` is what the array of keys holds before. Outside of `promise` and of the
array of keys nothing is defined. -/
def processBatch (s : HashLb) (stale : Mem) (batch : List Mem) : Option (List Gate) :=
  match s.mode with
  | .l2 => some (batch.map fun p => s.gate (hashL2 hash64 p))
  | .l3 => some (batch.map fun p => s.gate (hashL3 hash64 p))
  | .l4 => some (batch.map fun p => s.gate (hashL4 hash64 p))
  | .other =>
    match s.fieldsTable.makeKeys (batch.map offsetBuffers) stale with
    | none => none
    | some keys =>
      if batch ≠ [] ∧ ¬ (8 ≤ s.hasherLen ∧ s.hasherLen ≤ 64) then none
      else some ((List.range batch.length).map fun i =>
        s.gate (hasher hash64 s.hasherLen (keyAt keys i)))

end Packets

/-! ## The hash of a packet -/

/-- The fields and the hash are set up together. -/
def Configured (s : HashLb) : Prop :=
  s.mode = .other → s.fieldsTable.fields ≠ [] ∧ s.hasherLen = s.fieldsTable.totalKeySize

variable {hash64 : BitVec 64 → BitVec 32 → BitVec 32} {s t : HashLb} {p q : Mem} {arg : ModeArg}
  {list : List Int} {batch : List Mem} {stale : Mem}

/-- What is hashed does not depend on the batch. -/
def flowHash (hash64 : BitVec 64 → BitVec 32 → BitVec 32) (s : HashLb) (p : Mem) : BitVec 32 :=
  match s.mode with
  | .l2 => hashL2 hash64 p
  | .l3 => hashL3 hash64 p
  | .l4 => hashL4 hash64 p
  | .other => hasher hash64 s.hasherLen
      (writeAll (fun _ => 0) (rowWrites s.fieldsTable (offsetBuffers p)))

theorem hasher_congr {len : Nat} {a b : Mem} (h : bytes a 0 len = bytes b 0 len) :
    hasher hash64 len a = hasher hash64 len b := by
  rw [bytes_eq_iff] at h
  unfold hasher
  refine List.foldl_ext _ _ _ fun x i hi => ?_
  have hi := List.mem_range.mp hi
  have hload : load a (8 * i) 8 = load b (8 * i) 8 := by
    rw [load, load, bytes_eq_iff.mpr fun k hk => ?_]
    have := h (8 * i + k) (by omega)
    rwa [Nat.zero_add] at this
  rw [hload]

theorem totalKeySize_bounds {t : ExactMatchTable Int} (h : t.fields ≠ []) :
    8 ≤ t.totalKeySize ∧ t.totalKeySize ≤ 64 := by
  have hpos := ExactMatchTable.totalKeySize_pos h
  have hle : t.totalKeySize ≤ 64 := t.totalKeySize_le
  unfold ExactMatchTable.totalKeySize alignCeil at *
  omega

/-- Each packet is sent by its own hash, whatever else is in the batch and in the memory. -/
theorem processBatch_eq (hs : s.Configured) (hash64 : BitVec 64 → BitVec 32 → BitVec 32)
    (stale : Mem) (batch : List Mem) :
    s.processBatch hash64 stale batch = some (batch.map fun p => s.gate (s.flowHash hash64 p)) := by
  unfold processBatch flowHash
  cases hm : s.mode with
  | l2 => rfl
  | l3 => rfl
  | l4 => rfl
  | other =>
    obtain ⟨hne, hlen⟩ := hs hm
    obtain ⟨h8, h64⟩ := totalKeySize_bounds hne
    simp only
    have hkeys : ∃ keys, s.fieldsTable.makeKeys (batch.map offsetBuffers) stale = some keys :=
      ⟨_, if_neg fun h => by omega⟩
    obtain ⟨keys, hkeys⟩ := hkeys
    rw [hkeys]
    simp only
    rw [if_neg fun h => h.2 (by omega), hlen]
    refine congrArg some (List.ext_getElem (by simp) fun i h1 h2 => ?_)
    simp only [List.getElem_map, List.getElem_range]
    refine congrArg s.gate (hasher_congr ?_)
    have hi : i < batch.length := by simpa using h2
    have hb : (batch.map offsetBuffers)[i]? = some (offsetBuffers batch[i]) := by
      rw [List.getElem?_map, List.getElem?_eq_getElem hi]
      rfl
    rw [ExactMatchTable.bytes_makeKeys hne hkeys hb, ExactMatchTable.bytes_row]

/-! ## Flows -/

/-- The packets are of one flow, in the sense of the mode. -/
def SameFlow (s : HashLb) (p q : Mem) : Prop :=
  match s.mode with
  | .l2 => bytes p 0 12 = bytes q 0 12
  | .l3 => bytes p 26 8 = bytes q 26 8
  | .l4 => bytes p 26 8 = bytes q 26 8 ∧ p 23 = q 23 ∧ bytes p 34 4 = bytes q 34 4
  | .other => ∀ f ∈ s.fieldsTable.fields, bytes p f.offset f.size = bytes q f.offset f.size

/-- The checksum of the IP header. -/
def ipChecksum (p : Mem) : List Byte := bytes p 24 2

theorem load_congr_of_bytes {o n o' n' : Nat} (h : bytes p o n = bytes q o n) (hlo : o ≤ o')
    (hhi : o' + n' ≤ o + n) : load p o' n' = load q o' n' := by
  rw [bytes_eq_iff] at h
  rw [load, load, bytes_congr fun i h1 h2 => ?_]
  have := h (i - o) (by omega)
  rwa [Nat.add_sub_cancel' (by omega)] at this

theorem ports_eq (h : bytes p 34 4 = bytes q 34 4) :
    BitVec.ofNat 32 (load p (14 + 20) 8) = BitVec.ofNat 32 (load q (14 + 20) 8) := by
  have hp : load p 34 8 = _ := load_add p 34 4 4
  have hq : load q 34 8 = _ := load_add q 34 4 4
  have hlow : load p 34 4 = load q 34 4 := load_congr_of_bytes h le_rfl le_rfl
  apply BitVec.eq_of_toNat_eq
  simp only [BitVec.toNat_ofNat, Nat.reduceAdd]
  omega

/-- The word of the protocol reaches from the protocol over the checksum to the source address. -/
theorem word_protocol_iff (hsrc : bytes p 26 8 = bytes q 26 8) (hproto : p 23 = q 23) :
    BitVec.ofNat 32 (load p (14 + 9) 4) = BitVec.ofNat 32 (load q (14 + 9) 4) ↔
      ipChecksum p = ipChecksum q := by
  have hfirst : p 26 = q 26 := bytes_eq_iff.mp hsrc 0 (by decide)
  have hp : load p (14 + 9) 4 < 2 ^ 32 := load_lt p _ 4
  have hq : load q (14 + 9) 4 < 2 ^ 32 := load_lt q _ 4
  rw [← BitVec.toNat_inj, BitVec.toNat_ofNat, BitVec.toNat_ofNat, Nat.mod_eq_of_lt hp,
    Nat.mod_eq_of_lt hq]
  have h1 := (p 24).isLt
  have h2 := (p 25).isLt
  have h3 := (q 24).isLt
  have h4 := (q 25).isLt
  simp only [load, bytes, leNat, ipChecksum, hproto, hfirst, List.cons.injEq, and_true,
    ← BitVec.toNat_inj, Nat.reduceAdd]
  omega

theorem wordL4_eq_iff (hsrc : bytes p 26 8 = bytes q 26 8) (hproto : p 23 = q 23)
    (hports : bytes p 34 4 = bytes q 34 4) :
    wordL4 p = wordL4 q ↔ ipChecksum p = ipChecksum q := by
  rw [wordL4, wordL4, ports_eq hports, BitVec.xor_right_inj, word_protocol_iff hsrc hproto]

theorem flowHash_eq (hs : s.Configured) (h : s.SameFlow p q)
    (hsum : s.mode = .l4 → ipChecksum p = ipChecksum q) :
    s.flowHash hash64 p = s.flowHash hash64 q := by
  unfold SameFlow at h
  unfold flowHash
  cases hm : s.mode with
  | l2 =>
    rw [hm] at h
    simp only [hashL2]
    rw [load_congr_of_bytes h (show 0 ≤ 0 by omega) (by omega),
      load_congr_of_bytes h (show 0 ≤ 8 by omega) (by omega)]
  | l3 =>
    rw [hm] at h
    simp only [hashL3]
    rw [load_congr_of_bytes h (by omega) (by omega)]
  | l4 =>
    rw [hm] at h
    obtain ⟨hsrc, hproto, hports⟩ := h
    simp only [hashL4]
    rw [load_congr_of_bytes hsrc (by omega) (by omega),
      (wordL4_eq_iff hsrc hproto hports).mpr (hsum hm)]
  | other =>
    rw [hm] at h
    simp only
    apply hasher_congr
    rw [(hs hm).2, ExactMatchTable.bytes_row, ExactMatchTable.bytes_row,
      ExactMatchTable.keyBytes_eq_iff]
    intro f hf
    have hload : ∀ m : Mem, load (offsetBuffers m f) 0 f.size = load m f.offset f.size := fun m => by
      rw [load, load, bytes_eq_map, bytes_eq_map]
      simp only [offsetBuffers, Nat.zero_add]
    rw [hload, hload, load_congr_of_bytes (h f hf) le_rfl le_rfl]

/-- The gate of packet `i` of a batch. -/
def gateOf (hash64 : BitVec 64 → BitVec 32 → BitVec 32) (s : HashLb) (stale : Mem)
    (batch : List Mem) (i : Nat) : Option Gate :=
  (s.processBatch hash64 stale batch).bind fun gs => gs[i]?

theorem gateOf_eq (hs : s.Configured) {i : Nat} (hi : batch[i]? = some p) :
    s.gateOf hash64 stale batch i = some (s.gate (s.flowHash hash64 p)) := by
  rw [gateOf, processBatch_eq hs, Option.bind_some, List.getElem?_map, hi]
  rfl

/-- What an accepted list of gates leaves as it is. -/
theorem commandSetGates_ok (h : s.commandSetGates list = (none, t)) :
    list.length ≤ kMaxGates ∧ (storeGates GateList.isValidGate s.gates 0 list).2 = none ∧
      t = { s with
        gates := (storeGates GateList.isValidGate s.gates 0 list).1
        numGates := list.length } := by
  unfold commandSetGates at h
  split at h
  · cases h
  · rename_i hlen
    split at h
    · cases h
    · rename_i gates hs
      cases h
      exact ⟨by omega, by rw [hs], by rw [hs]⟩

theorem flowHash_setGates (h : s.commandSetGates list = (none, t)) :
    t.flowHash hash64 = s.flowHash hash64 := by
  obtain ⟨-, -, rfl⟩ := commandSetGates_ok h
  rfl

theorem Configured.setGates (hs : s.Configured) (h : s.commandSetGates list = (none, t)) :
    t.Configured := by
  obtain ⟨-, -, rfl⟩ := commandSetGates_ok h
  exact hs

/-- For all modes and all packets of one flow: they are sent to one gate by every list of gates and
every hash iff the checksums agree, where the mode is `l4`. -/
theorem same_flow_iff_checksum (hs : s.Configured) (hflow : s.SameFlow p q) :
    (∀ hash64 list t, s.commandSetGates list = (none, t) →
      ∀ batch batch' stale stale' i j, batch[i]? = some p → batch'[j]? = some q →
        ∃ g, t.gateOf hash64 stale batch i = some g ∧ t.gateOf hash64 stale' batch' j = some g) ↔
    (s.mode = .l4 → ipChecksum p = ipChecksum q) := by
  constructor
  · intro h hm
    unfold SameFlow at hflow
    rw [hm] at hflow
    obtain ⟨hsrc, hproto, hports⟩ := hflow
    rw [← wordL4_eq_iff hsrc hproto hports]
    -- a hash that tells the words apart, and two gates
    by_contra hne
    obtain ⟨t, ht⟩ : ∃ t, s.commandSetGates [0, 1] = (none, t) := ⟨_, rfl⟩
    obtain ⟨g, hp, hq⟩ := h (fun _ v => if v = wordL4 p then 0 else BitVec.allOnes 32) [0, 1] t ht
      [p] [q] (fun _ => 0) (fun _ => 0) 0 0 rfl rfl
    rw [gateOf_eq (hs.setGates ht) rfl, flowHash_setGates ht] at hp hq
    have hsame := hp.trans hq.symm
    simp only [flowHash, hm, hashL4, if_true, if_neg (Ne.symm hne)] at hsame
    obtain ⟨-, hnone, rfl⟩ := commandSetGates_ok ht
    have h0 := storeGates_accepted hnone (show 0 < [(0 : Int), 1].length by decide)
    have h1 := storeGates_accepted hnone (show 1 < [(0 : Int), 1].length by decide)
    have hlow : hashRange 0 [(0 : Int), 1].length = 0 := by decide
    have hhigh : hashRange (BitVec.allOnes 32) [(0 : Int), 1].length = 1 := by decide
    have hgate := Option.some.inj hsame
    simp only [gate, hlow, hhigh, h0, h1] at hgate
    exact absurd hgate (by decide)
  · intro hsum hash64 list t ht batch batch' stale stale' i j hi hj
    refine ⟨_, gateOf_eq (hs.setGates ht) hi, ?_⟩
    rw [gateOf_eq (hs.setGates ht) hj, flowHash_setGates ht, flowHash_eq hs hflow hsum]

/-- A packet of zeros, and one with a checksum. -/
def zeros : Mem := fun _ => 0

def withChecksum : Mem := fun i => if i = 24 then 2 else 0

theorem zeros_same_gate : ∃ s, init [0, 1] ⟨"l3", []⟩ = (none, s) ∧
    ∀ hash64 list t, s.commandSetGates list = (none, t) →
      ∀ batch batch' stale stale' i j, batch[i]? = some zeros → batch'[j]? = some withChecksum →
        ∃ g, t.gateOf hash64 stale batch i = some g ∧
          t.gateOf hash64 stale' batch' j = some g := by
  obtain ⟨s, hs⟩ : ∃ s, init [0, 1] ⟨"l3", []⟩ = (none, s) := ⟨_, rfl⟩
  have hmode : s.mode = .l3 := by
    cases hs
    rfl
  have hflow : s.SameFlow zeros withChecksum := by
    rw [SameFlow, hmode]
    exact (by decide : bytes zeros 26 8 = bytes withChecksum 26 8)
  refine ⟨s, hs, (same_flow_iff_checksum ?_ hflow).mpr ?_⟩
  · intro h
    rw [hmode] at h
    cases h
  · intro h
    rw [hmode] at h
    cases h

/-- By default the two packets, which only differ in the checksum, are sent apart. -/
theorem flow_sent_apart : ∃ s, init [0, 1] ⟨"", []⟩ = (none, s) ∧ s.mode = .l4 ∧
    s.SameFlow zeros withChecksum ∧
    s.gateOf Checksum.crc32cU64 zeros [zeros] 0 = some 0 ∧
    s.gateOf Checksum.crc32cU64 zeros [withChecksum] 0 = some 1 := by
  refine ⟨_, rfl, rfl, ⟨by decide, by decide, by decide⟩, ?_, ?_⟩
  · decide +kernel
  · decide +kernel

end HashLb

end Bess.Modules
