import Bess.Cuckoo.Lookup
import Bess.Translate.Packet
import Mathlib.Data.List.Sort

/-!
# The NAT module

`nat.cc`. One cuckoo table holds both directions of every mapping: an entry from the internal to the
external endpoint, which also keeps the time of the last outbound packet, and an entry back. An
outbound packet from an unknown endpoint gets a new mapping: the external address is chosen by the
internal one, and its port by probing from a random start in each of the port ranges of that address
in turn. A mapping that is in the way is evicted if it has not been used for five minutes.

The hash functions, the random numbers and the contents of uninitialised memory are parameters. A
packet is processed to `none` if a null pointer is followed.
-/

namespace Bess.Translate

open Bess.ByteMem Bess.Headers Bess.Cuckoo

structure NatEntry where
  endpoint : Endpoint
  /-- In nanoseconds; of use in entries of internal endpoints only. -/
  lastRefresh : BitVec 64
  deriving DecidableEq, Inhabited

abbrev HashTable := CuckooMap Endpoint NatEntry

/-! ## Configuration -/

structure PortRange where
  rangeBegin : BitVec 16
  /-- Exclusive. -/
  rangeEnd : BitVec 16
  suspended : Bool
  deriving DecidableEq

namespace NatArg

structure PortRange where
  rangeBegin : BitVec 32
  rangeEnd : BitVec 32
  suspended : Bool

def PortRange.malformed (r : PortRange) : Bool :=
  r.rangeEnd ≤ r.rangeBegin ∨ 65535#32 < r.rangeBegin ∨ 65535#32 < r.rangeEnd

def PortRange.narrow (r : PortRange) : Translate.PortRange :=
  ⟨r.rangeBegin.setWidth 16, r.rangeEnd.setWidth 16, r.suspended⟩

structure ExternalAddress where
  extAddr : String
  portRanges : List PortRange

/-- The port ranges of an address; without any, all ports but the last. -/
def ExternalAddress.ranges (a : ExternalAddress) : List Translate.PortRange :=
  if a.portRanges.isEmpty then [⟨0#16, 65535#16, false⟩] else a.portRanges.map PortRange.narrow

end NatArg

/-- `ext_addrs_` and `port_ranges_`. -/
structure Config where
  extAddrs : List (BitVec 32)
  portRanges : List (List PortRange)
  deriving DecidableEq

structure Failure where
  errno : Nat
  message : String
  deriving DecidableEq

def einval : Nat := 22

/-- `operator<=` of `be32_t` compares in host order. -/
def addrLe (a b : BitVec 32) : Prop := bswap32 a ≤ bswap32 b

instance : DecidableRel addrLe := fun a b => inferInstanceAs (Decidable (bswap32 a ≤ bswap32 b))

section Init

-- `ParseIpv4Address`
variable (parse : String → Option (BitVec 32))

def checkRanges : List NatArg.ExternalAddress → Except Failure Unit
  | [] => .ok ()
  | a :: as =>
    if a.portRanges.any (·.malformed) then
      .error ⟨einval, "Port range for address " ++ a.extAddr ++ " is malformed"⟩
    else checkRanges as

def parseAddrs : List NatArg.ExternalAddress → Except Failure (List (BitVec 32))
  | [] => .ok []
  | a :: as =>
    match parse a.extAddr with
    | none => .error ⟨einval, "invalid IP address " ++ a.extAddr⟩
    | some addr => (parseAddrs as).map (addr :: ·)

def init (arg : List NatArg.ExternalAddress) : Except Failure Config := do
  checkRanges arg
  let extAddrs ← parseAddrs parse arg
  if extAddrs.isEmpty then
    .error ⟨einval, "at least one external IP address must be specified"⟩
  else .ok ⟨extAddrs.insertionSort addrLe, arg.map (·.ranges)⟩

theorem init_eq_ok {parse : String → Option (BitVec 32)} {arg : List NatArg.ExternalAddress}
    {cfg : Config} (h : init parse arg = .ok cfg) :
    checkRanges arg = .ok () ∧ ∃ addrs, parseAddrs parse arg = .ok addrs ∧ addrs ≠ [] ∧
      cfg = ⟨addrs.insertionSort addrLe, arg.map (·.ranges)⟩ := by
  unfold init at h
  cases hc : checkRanges arg with
  | error e =>
    rw [hc] at h
    cases h
  | ok u =>
    cases hp : parseAddrs parse arg with
    | error e =>
      rw [hc, hp] at h
      cases h
    | ok addrs =>
      rw [hc, hp] at h
      simp only [bind, Except.bind] at h
      split at h
      · cases h
      · rename_i hne
        cases h
        exact ⟨rfl, addrs, rfl, by simpa using hne, rfl⟩

end Init

/-! ## Finding a free external endpoint -/

def kTimeOutNs : BitVec 64 := 300000000000#64

def kMaxTrials : Nat := 128

/-- What the code calls without defining it. -/
structure Env (σ : Type) where
  /-- `Endpoint::Hash` -/
  hasher : Endpoint → BitVec 64
  /-- `rte_hash_crc` of an address -/
  crc : BitVec 32 → Nat
  /-- `Random::GetRange` -/
  getRange : Nat → σ → Nat × σ
  getRange_lt : ∀ range s, 0 < range → (getRange range s).1 < range
  /-- What the uninitialised `last_refresh` of a new entry holds. -/
  garbage : BitVec 64

variable {σ : Type} (env : Env σ)

/-- `Endpoint::EqualTo` compares all eight bytes. -/
def Env.hashing : Hashing Endpoint where
  eq a b := decide (a = b)
  refl a := by simp
  symm a b h := by simpa using (of_decide_eq_true h).symm
  trans a b c h h' := by
    rw [decide_eq_true_eq] at h h' ⊢
    exact h.trans h'
  hasher := env.hasher
  hasher_eq a b h := by rw [of_decide_eq_true h]

inductive Window where
  /-- No range will do. -/
  | stop
  | skip
  /-- The ports in `[min, min + range)`. -/
  | use (min range : BitVec 16)
  deriving DecidableEq

/-- The ports of a range that are considered for an internal endpoint. -/
def window (src : Endpoint) (r : PortRange) : Window :=
  let port := bswap16 src.port
  if src.protocol = kIcmp.setWidth 16 then .use r.rangeBegin (r.rangeEnd - r.rangeBegin)
  else if port = 0 then .stop
  else if port &&& ~~~1023#16 ≠ 0 then
    if r.rangeEnd ≤ 1024#16 then .skip
    else
      let min := if 1024#16 < r.rangeBegin then r.rangeBegin else 1024#16
      .use min (r.rangeEnd - min + 1)
  else if 1023#16 ≤ r.rangeBegin then .skip
  else
    -- privileged ports are mapped to privileged ports
    let stop := if r.rangeEnd < 1023#16 then r.rangeEnd else 1023#16
    .use r.rangeBegin (stop - r.rangeBegin)

/-- Is `ext` free, or does it belong to a mapping that has expired? Then that mapping is removed. -/
def claim (map : HashTable) (ext : Endpoint) (now : BitVec 64) : Option (Option HashTable) :=
  match map.find env.hashing ext with
  | none => some (some map)
  | some hashReverse =>
    match map.find env.hashing hashReverse.2.endpoint with
    | none => none
    | some hashForward =>
      if kTimeOutNs < now - hashForward.2.lastRefresh then
        let map := (map.remove env.hashing hashForward.1).2
        some (some (map.remove env.hashing hashReverse.1).2)
      else some none

/-- The port after `port`: back to `min` at the end of the window or of the 16 bits. -/
def nextPort (min range port : BitVec 16) : BitVec 16 :=
  let port := port + 1
  if port = 0 ∨ min.toNat + range.toNat ≤ port.toNat then min else port

/-- The `do` loop over ports, at most `n` more times. -/
def probe (map : HashTable) (ext : Endpoint) (now : BitVec 64) (min range startPort : BitVec 16) :
    Nat → BitVec 16 → Option (Option (Endpoint × HashTable))
  | 0, _ => some none
  | n + 1, port => do
    let ext := { ext with port := bswap16 port }
    match ← claim env map ext now with
    | some map => some (some (ext, map))
    | none =>
      let port := nextPort min range port
      if port = startPort then some none else probe map ext now min range startPort n port

/-- The loop over the port ranges of the external address `ext`. -/
def search (map : HashTable) (src ext : Endpoint) (now : BitVec 64) :
    List PortRange → σ → Option (Option (Endpoint × HashTable) × σ)
  | [], rng => some (none, rng)
  | r :: rs, rng =>
    if r.suspended then search map src ext now rs rng
    else match window src r with
      | .stop => some (none, rng)
      | .skip => search map src ext now rs rng
      | .use min range => do
        let (d, rng) := env.getRange range.toNat rng
        let startPort := min + BitVec.ofNat 16 d
        match ← probe env map ext now min range startPort kMaxTrials startPort with
        | some found => some (some found, rng)
        | none => search map src ext now rs rng

structure State (σ : Type) where
  map : HashTable
  rng : σ

variable (cfg : Config)

/-- An internal address is always mapped to the same external address. -/
def Config.index (src : Endpoint) : Nat := env.crc src.addr % cfg.extAddrs.length

def findExternal (s : State σ) (src : Endpoint) (now : BitVec 64) :
    Option (Option (Endpoint × HashTable) × σ) :=
  let i := cfg.index env src
  let ext : Endpoint := ⟨cfg.extAddrs.getD i 0, 0, src.protocol⟩
  search env s.map src ext now (cfg.portRanges.getD i []) s.rng

/-- The two insertions. The first result is ignored, the second one is that of the caller. -/
def install (map : HashTable) (src ext : Endpoint) : Option (Bool × Bool × HashTable) := do
  let (reverse, map) ← map.insert env.hashing ext ⟨src, env.garbage⟩
  let (forward, map) ← map.insert env.hashing src ⟨ext, env.garbage⟩
  some (reverse.isSome, forward.isSome, map)

/-- `false` if the entry is null. -/
def createNewEntry (s : State σ) (src : Endpoint) (now : BitVec 64) :
    Option (Bool × State σ) := do
  let (found, rng) ← findExternal env cfg s src now
  match found with
  | none => some (false, { s with rng := rng })
  | some (ext, map) =>
    let (_, forward, map) ← install env map src ext
    some (forward, ⟨map, rng⟩)

/-! ## Packets -/

/-- A packet that is sent on: its endpoint before and after translation. -/
structure Sent where
  before : Endpoint
  after : Endpoint
  pkt : Mem

/-- `hash_item->second.last_refresh = now`, where `hash_item` is the entry of `key`. -/
def refresh (map : HashTable) (key : Endpoint) (now : BitVec 64) : HashTable :=
  match map.findWithHash env.hashing (env.hashing.hash key) key with
  | none => map
  | some i =>
    let e := map.entryAt i
    { map with entries := map.entries.set i (e.1, { e.2 with lastRefresh := now }) }

/-- The entry of `before` is used: it is refreshed by outbound packets, and the packet is stamped. -/
def forwardPacket (dir : Direction) (s : State σ) (before : Endpoint) (now : BitVec 64) (m : Mem) :
    Option Sent × State σ :=
  let map := if dir = .forward then refresh env s.map before now else s.map
  match map.find env.hashing before with
  | none => (none, { s with map := map })
  | some e => (some ⟨before, e.2.endpoint, stamp dir m before e.2.endpoint⟩, { s with map := map })

/-- One packet of `DoProcessBatch`. -/
def processPacket (dir : Direction) (now : BitVec 64) (m : Mem) (s : State σ) :
    Option (Option Sent × State σ) :=
  match extractEndpoint m dir with
  | none => some (none, s)
  | some before =>
    match s.map.find env.hashing before with
    | some _ => some (forwardPacket env dir s before now m)
    | none =>
      match dir with
      | .reverse => some (none, s)
      | .forward => do
        let (created, s) ← createNewEntry env cfg s before now
        if created then some (forwardPacket env .forward s before now m) else some (none, s)

/-- The module after `Init`. -/
def start (rng : σ) : State σ := ⟨CuckooMap.new kInitNumBucket kInitNumEntries, rng⟩

end Bess.Translate
