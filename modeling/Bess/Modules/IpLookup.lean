import Bess.Lib.LongestPrefix
import Bess.Modules.Command

/-!
# IP lookup

`modules/ip_lookup.cc` on top of `rte_lpm`, which keeps the routes of lengths 1 to 32. The route of
length 0 is the field `default_gate_`. `CommandClear` clears the former and leaves the latter. A gate
of a request has 64 bits and is cut to 16 before it is checked.

`Lpm` states what is assumed of `rte_lpm`: longest prefix match, and a lookup of four addresses at a
time that agrees with the lookup of one.
-/

namespace Bess.Modules

open LongestPrefix

/-- `rte_lpm`, with the rules that a table stands for. -/
structure Lpm where
  T : Type
  create : Nat → Nat → Except (Nat × String) T
  add : T → UInt32 → Nat → UInt32 → Except Nat T
  delete : T → UInt32 → Nat → Except Nat T
  deleteAll : T → T
  lookup : T → UInt32 → Option UInt32
  lookupx4 : T → List UInt32 → UInt32 → List UInt32
  rules : T → Table UInt32
  create_rules : ∀ {n m t}, create n m = .ok t → rules t = empty
  add_rules : ∀ {t t' ip depth hop}, 1 ≤ depth → depth ≤ 32 → add t ip depth hop = .ok t' →
    rules t' = (rules t).put depth (net 32 depth ip.toNat) (some hop)
  delete_rules : ∀ {t t' ip depth}, 1 ≤ depth → depth ≤ 32 → delete t ip depth = .ok t' →
    rules t' = (rules t).put depth (net 32 depth ip.toNat) none
  deleteAll_rules : ∀ t, rules (deleteAll t) = empty
  lookup_rules : ∀ t ip, lookup t ip = longest 32 (rules t) ip.toNat 32
  lookupx4_lookup : ∀ t ips default,
    lookupx4 t ips default = ips.map fun ip => (lookup t ip).getD default

def maxGates : Nat := 8192

def dropGate : UInt16 := 8192

def isValidGate (gate : UInt16) : Bool := gate.toNat < maxGates || gate == dropGate

/-! ## Words -/

/-- The bytes of a word in memory, on a little-endian machine. -/
def wordBytes (x : UInt32) : List UInt8 :=
  [x.toUInt8, (x >>> 8).toUInt8, (x >>> 16).toUInt8, (x >>> 24).toUInt8]

def ofWordBytes : List UInt8 → UInt32
  | [a, b, c, d] => a.toUInt32 ||| b.toUInt32 <<< 8 ||| c.toUInt32 <<< 16 ||| d.toUInt32 <<< 24
  | _ => 0

def bswap32 (x : UInt32) : UInt32 := ofWordBytes (wordBytes x).reverse

/-- `_mm_set_epi8`, whose first argument is the last byte. -/
def setEpi8 (bytes : List Nat) : List Nat := bytes.reverse

/-- `_mm_set_epi32`, whose first argument is the last word. -/
def setEpi32 (a3 a2 a1 a0 : UInt32) : List UInt8 :=
  wordBytes a0 ++ wordBytes a1 ++ wordBytes a2 ++ wordBytes a3

def shuffleEpi8 (v : List UInt8) (mask : List Nat) : List UInt8 := mask.map fun i => v.getD i 0

/-- The four words of a vector. -/
def lanes (v : List UInt8) : List UInt32 :=
  [0, 4, 8, 12].map fun i => ofWordBytes ((v.drop i).take 4)

/-- `SetBitsLow<uint32_t>(n)`, which sets the `n` high bits. -/
def setBitsLow (n : Nat) : UInt32 :=
  if n = 0 then 0
  else if 32 ≤ n then ~~~0
  else ~~~((1 <<< UInt32.ofNat (32 - n)) - 1)

/-! ## The module -/

structure IpLookup (L : Lpm) where
  lpm : L.T
  defaultGate : UInt16

structure AddArg where
  pfx : String
  prefixLen : UInt64
  gate : UInt64

structure DeleteArg where
  pfx : String
  prefixLen : UInt64

inductive Command
  | add (arg : AddArg)
  | delete (arg : DeleteArg)
  | clear

/-- The data of a packet. -/
abbrev PacketData := List UInt8

/-- `ip->dst.raw_value()`: the Ethernet header has 14 bytes, and the field is the fifth word of the IP
header. -/
def dstRaw (p : PacketData) : UInt32 :=
  ofWordBytes [p.getD 30 0, p.getD 31 0, p.getD 32 0, p.getD 33 0]

/-- `ip->dst.value()` -/
def dst (p : PacketData) : UInt32 := bswap32 (dstRaw p)

def hex (x : UInt32) : String := String.ofList (Nat.toDigits 16 x.toNat)

namespace IpLookup

variable {L : Lpm}

def init (L : Lpm) (maxRules maxTbl8s : Nat) : Except Failure (IpLookup L) :=
  match L.create (if maxRules ≠ 0 then maxRules else 1024) (if maxTbl8s ≠ 0 then maxTbl8s else 128) with
  | .error e => .error (.msg e.1 ("DPDK error: " ++ e.2))
  | .ok lpm => .ok { lpm, defaultGate := dropGate }

/-- `ParseIpv4Prefix`; `parse` is `ParseIpv4Address`. -/
def parseIpv4Prefix (parse : String → Option UInt32) (pfx : String) (prefixLen : UInt64) :
    Except Failure UInt32 :=
  if pfx.length = 0 then .error (.msg EINVAL "prefix' is missing")
  else
    match parse pfx with
    | none => .error (.msg EINVAL ("Invalid IP prefix: " ++ pfx))
    | some netAddr =>
      if 32 < prefixLen then
        .error (.msg EINVAL ("Invalid prefix length: " ++ toString prefixLen.toNat))
      else
        let netMask := setBitsLow prefixLen.toNat
        if netAddr &&& ~~~netMask ≠ 0 then
          .error (.msg EINVAL ("Invalid IP prefix " ++ pfx ++ "/" ++ toString prefixLen.toNat ++ " " ++
            hex netAddr ++ " " ++ hex netMask))
        else .ok netAddr

def commandAdd (parse : String → Option UInt32) (s : IpLookup L) (arg : AddArg) :
    Except Failure (IpLookup L) := do
  let gate := arg.gate.toUInt16
  let netAddr ← parseIpv4Prefix parse arg.pfx arg.prefixLen
  if !isValidGate gate then .error (.msg EINVAL ("Invalid gate: " ++ toString gate.toNat))
  else if arg.prefixLen = 0 then .ok { s with defaultGate := gate }
  else
    match L.add s.lpm netAddr arg.prefixLen.toNat gate.toUInt32 with
    | .error e => .error (.msg e "rpm_lpm_add() failed")
    | .ok lpm => .ok { s with lpm }

def commandDelete (parse : String → Option UInt32) (s : IpLookup L) (arg : DeleteArg) :
    Except Failure (IpLookup L) := do
  let netAddr ← parseIpv4Prefix parse arg.pfx arg.prefixLen
  if arg.prefixLen = 0 then .ok { s with defaultGate := dropGate }
  else
    match L.delete s.lpm netAddr arg.prefixLen.toNat with
    | .error e => .error (.msg e "rpm_lpm_delete() failed")
    | .ok lpm => .ok { s with lpm }

/-- The default route stays. -/
def commandClear (s : IpLookup L) : Except Failure (IpLookup L) :=
  .ok { s with lpm := L.deleteAll s.lpm }

def command (parse : String → Option UInt32) (s : IpLookup L) : Command → Except Failure (IpLookup L)
  | .add arg => s.commandAdd parse arg
  | .delete arg => s.commandDelete parse arg
  | .clear => s.commandClear

def bswapMask : List Nat := setEpi8 [12, 13, 14, 15, 8, 9, 10, 11, 4, 5, 6, 7, 0, 1, 2, 3]

/-- The loop over single packets. -/
def processRest (s : IpLookup L) : List PacketData → List (PacketData × UInt16)
  | [] => []
  | p :: ps =>
    (match L.lookup s.lpm (dst p) with
      | some nextHop => (p, nextHop.toUInt16)
      | none => (p, s.defaultGate)) :: s.processRest ps

/-- The packets with the gates on which they are emitted, four at a time as long as there are four. -/
def processBatch (s : IpLookup L) : List PacketData → List (PacketData × UInt16)
  | p0 :: p1 :: p2 :: p3 :: ps =>
    let ipAddr := setEpi32 (dstRaw p3) (dstRaw p2) (dstRaw p1) (dstRaw p0)
    let ipAddr := shuffleEpi8 ipAddr bswapMask
    let nextHops := L.lookupx4 s.lpm (lanes ipAddr) s.defaultGate.toUInt32
    [p0, p1, p2, p3].zip (nextHops.map (·.toUInt16)) ++ s.processBatch ps
  | ps => s.processRest ps

def commands (parse : String → Option UInt32) (s : IpLookup L) :
    List Command → Except Failure (IpLookup L)
  | [] => .ok s
  | c :: cs => do
    let s ← s.command parse c
    s.commands parse cs

/-! ## What is installed -/

/-- The route table after a command that succeeded, the route of length 0 included, with the gates as
they were requested. -/
def installed (parse : String → Option UInt32) (T : Table UInt64) : Command → Table UInt64
  | .add arg =>
    match parse arg.pfx with
    | none => T
    | some addr =>
      T.put arg.prefixLen.toNat (net 32 arg.prefixLen.toNat addr.toNat) (some arg.gate)
  | .delete arg =>
    match parse arg.pfx with
    | none => T
    | some addr => T.put arg.prefixLen.toNat (net 32 arg.prefixLen.toNat addr.toNat) none
  | .clear => empty

/-- The gate of the longest installed prefix that contains the address, or the drop gate. -/
def Routed (T : Table UInt64) (addr : UInt32) (gate : UInt16) : Prop :=
  (∃ len g, Longest 32 T addr.toNat 32 len g ∧ gate.toNat = g.toNat) ∨
    ((∀ len, len ≤ 32 → T len (net 32 len addr.toNat) = none) ∧ gate = dropGate)

/-- The gate of every route that some packet takes has 16 bits. -/
def GatesFit (T : Table UInt64) : Prop :=
  ∀ p len g, Longest 32 T (dst p).toNat 32 len g → g.toNat < 2 ^ 16

/-- The next hop that is stored for a gate. -/
def nextHop (g : UInt64) : UInt32 := g.toUInt16.toUInt32

/-- The module's tables hold the routes. -/
structure Rep (s : IpLookup L) (T : Table UInt64) : Prop where
  rules : ∀ len m, 1 ≤ len → len ≤ 32 → L.rules s.lpm len m = (T len m).map nextHop
  default : s.defaultGate = ((T 0 0).map UInt64.toUInt16).getD dropGate

variable {parse : String → Option UInt32} {s s' : IpLookup L} {T : Table UInt64}

/-! ## Lookups -/

/-- The gate for an address. -/
def chosen (s : IpLookup L) (addr : UInt32) : UInt16 :=
  match L.lookup s.lpm addr with
  | some nextHop => nextHop.toUInt16
  | none => s.defaultGate

theorem net_zero (addr : UInt32) : net 32 0 addr.toNat = 0 :=
  Nat.div_eq_of_lt addr.toNat_lt

/-- The gate of the longest prefix, cut to 16 bits, or the drop gate. -/
theorem Rep.chosen_eq (h : Rep s T) (addr : UInt32) :
    (∃ len g, Longest 32 T addr.toNat 32 len g ∧ s.chosen addr = g.toUInt16) ∨
      ((∀ len, len ≤ 32 → T len (net 32 len addr.toNat) = none) ∧ s.chosen addr = dropGate) := by
  have hlook : L.lookup s.lpm addr = (longest 32 T addr.toNat 32).map nextHop := by
    rw [L.lookup_rules]
    exact longest_map _ h.rules
  unfold chosen
  rw [hlook]
  cases hl : longest 32 T addr.toNat 32 with
  | some g =>
    obtain ⟨len, -, hlen⟩ := longest_eq_some hl
    exact .inl ⟨len, g, hlen, UInt16.toUInt16_toUInt32 g.toUInt16⟩
  | none =>
    have hnone := longest_eq_none hl
    simp only [Option.map_none]
    rw [h.default]
    cases h0 : T 0 0 with
    | some g =>
      refine .inl ⟨0, g, ⟨by omega, ?_, fun len h1 h2 => hnone len h1 h2⟩, rfl⟩
      rw [net_zero, h0]
    | none =>
      refine .inr ⟨fun len hlen => ?_, rfl⟩
      rcases Nat.eq_zero_or_pos len with rfl | hpos
      · rw [net_zero, h0]
      · exact hnone len hpos hlen

theorem toNat_toUInt16 {g : UInt64} (h : g.toNat < 2 ^ 16) : g.toUInt16.toNat = g.toNat := by
  rw [UInt64.toNat_toUInt16, Nat.mod_eq_of_lt h]

theorem Rep.routed (h : Rep s T) (hfit : GatesFit T) (p : PacketData) :
    Routed T (dst p) (s.chosen (dst p)) := by
  rcases h.chosen_eq (dst p) with ⟨len, g, hlong, hg⟩ | hnone
  · exact .inl ⟨len, g, hlong, hg ▸ toNat_toUInt16 (hfit p len g hlong)⟩
  · exact .inr hnone

/-- A packet that goes where its route says has a route whose gate has 16 bits. -/
theorem Routed.fits {addr : UInt32} {gate : UInt16} (h : Routed T addr gate) {len : Nat} {g : UInt64}
    (hlong : Longest 32 T addr.toNat 32 len g) : g.toNat < 2 ^ 16 := by
  rcases h with ⟨len', g', hlong', hg⟩ | ⟨hnone, -⟩
  · rw [← hlong'.unique hlong, ← hg]
    exact gate.toNat_lt
  · have hsome := hlong.2.1
    rw [hnone len hlong.1] at hsome
    cases hsome

/-- The four lanes are the four addresses in host order. -/
theorem lanes_shuffle (a3 a2 a1 a0 : UInt32) :
    lanes (shuffleEpi8 (setEpi32 a3 a2 a1 a0) bswapMask) =
      [bswap32 a0, bswap32 a1, bswap32 a2, bswap32 a3] := rfl

theorem processRest_eq (ps : List PacketData) :
    s.processRest ps = ps.map fun p => (p, s.chosen (dst p)) := by
  induction ps with
  | nil => rfl
  | cons p ps ih =>
    rw [processRest, List.map_cons, ih]
    unfold chosen
    cases L.lookup s.lpm (dst p) <;> rfl

theorem getD_toUInt16 (addr : UInt32) :
    ((L.lookup s.lpm addr).getD s.defaultGate.toUInt32).toUInt16 = s.chosen addr := by
  unfold chosen
  cases L.lookup s.lpm addr with
  | none => simp
  | some h => rfl

/-- The loop over four packets and the loop over single packets agree. -/
theorem processBatch_eq (ps : List PacketData) :
    s.processBatch ps = ps.map fun p => (p, s.chosen (dst p)) := by
  fun_induction processBatch s ps with
  | case1 p0 p1 p2 p3 ps ip0 ip hops ih =>
    have hhops : hops = [p0, p1, p2, p3].map fun p => (L.lookup s.lpm (dst p)).getD
        s.defaultGate.toUInt32 := by
      simp only [hops, ip, ip0, lanes_shuffle, L.lookupx4_lookup, List.map_cons, List.map_nil, dst]
    rw [ih, hhops]
    simp only [List.map_cons, List.map_nil, List.zip_cons_cons, List.zip_nil_left, getD_toUInt16,
      List.cons_append, List.nil_append]
  | case2 ps h => exact processRest_eq ps

/-! ## Commands -/

theorem parseIpv4Prefix_spec {pfx : String} {len : UInt64} {addr : UInt32}
    (h : parseIpv4Prefix parse pfx len = .ok addr) : parse pfx = some addr ∧ len.toNat ≤ 32 := by
  unfold parseIpv4Prefix at h
  split at h
  · cases h
  · split at h
    · cases h
    · rename_i a ha
      split at h
      · cases h
      · rename_i hlen
        simp only at h
        split at h
        · cases h
        · cases h
          rw [UInt64.not_lt, UInt64.le_iff_toNat_le] at hlen
          exact ⟨ha, hlen⟩

theorem Rep.putDefault (h : Rep s T) (addr : UInt32) (g : Option UInt64) :
    Rep { s with defaultGate := (g.map UInt64.toUInt16).getD dropGate }
      (T.put 0 (net 32 0 addr.toNat) g) := by
  refine ⟨fun len m h1 h32 => ?_, ?_⟩
  · have hne : ¬(len = 0 ∧ m = net 32 0 addr.toNat) := by omega
    simp only [Table.put, if_neg hne]
    exact h.rules len m h1 h32
  · simp [Table.put, net_zero]

theorem Rep.putRule (h : Rep s T) {lpm : L.T} {len m : Nat} (g : Option UInt64) (h1 : 1 ≤ len)
    (hr : L.rules lpm = (L.rules s.lpm).put len m (g.map nextHop)) :
    Rep { s with lpm } (T.put len m g) := by
  refine ⟨fun len' m' h1' h32 => ?_, ?_⟩
  · simp only [hr, Table.put]
    split
    · rfl
    · exact h.rules len' m' h1' h32
  · have hne : ¬(0 = len ∧ 0 = m) := by omega
    simp only [Table.put, if_neg hne]
    exact h.default

theorem one_le_toNat {len : UInt64} (h : ¬len = 0) : 1 ≤ len.toNat := by
  rcases Nat.eq_zero_or_pos len.toNat with h0 | hpos
  · exact absurd (UInt64.toNat_inj.mp h0) h
  · exact hpos

theorem Rep.commandAdd (h : Rep s T) {arg : AddArg} (hc : s.commandAdd parse arg = .ok s') :
    Rep s' (installed parse T (.add arg)) := by
  unfold IpLookup.commandAdd at hc
  obtain ⟨addr, hp, hc⟩ := bind_ok hc
  obtain ⟨hparse, h32⟩ := parseIpv4Prefix_spec hp
  simp only [installed, hparse]
  split at hc
  · cases hc
  · split at hc
    · rename_i hlen
      cases hc
      rw [hlen]
      exact h.putDefault addr (some _)
    · rename_i hlen
      split at hc
      · cases hc
      · rename_i lpm hadd
        cases hc
        exact h.putRule (some _) (one_le_toNat hlen) (L.add_rules (one_le_toNat hlen) h32 hadd)

theorem Rep.commandDelete (h : Rep s T) {arg : DeleteArg} (hc : s.commandDelete parse arg = .ok s') :
    Rep s' (installed parse T (.delete arg)) := by
  unfold IpLookup.commandDelete at hc
  obtain ⟨addr, hp, hc⟩ := bind_ok hc
  obtain ⟨hparse, h32⟩ := parseIpv4Prefix_spec hp
  simp only [installed, hparse]
  split at hc
  · rename_i hlen
    cases hc
    rw [hlen]
    exact h.putDefault addr none
  · rename_i hlen
    split at hc
    · cases hc
    · rename_i lpm hdel
      cases hc
      exact h.putRule none (one_le_toNat hlen) (L.delete_rules (one_le_toNat hlen) h32 hdel)

/-- A clear removes the default route only if there is none. -/
theorem Rep.command (h : Rep s T) {c : Command} (hc : s.command parse c = .ok s')
    (hclear : c = .clear → s.defaultGate = dropGate) : Rep s' (installed parse T c) := by
  cases c with
  | add arg => exact h.commandAdd hc
  | delete arg => exact h.commandDelete hc
  | clear =>
    cases hc
    refine ⟨fun len m _ _ => ?_, hclear rfl⟩
    rw [L.deleteAll_rules]
    rfl

theorem commands_cons {c : Command} {cs : List Command} :
    s.commands parse (c :: cs) = .ok s' ↔
      ∃ s1, s.command parse c = .ok s1 ∧ s1.commands parse cs = .ok s' := by
  rw [IpLookup.commands]
  cases s.command parse c with
  | error e => simp [bind, Except.bind]
  | ok s1 => simp [bind, Except.bind]

/-- No command is a clear while a default route leads to a gate. -/
def ClearsNoDefault (parse : String → Option UInt32) (s : IpLookup L) (cmds : List Command) : Prop :=
  ∀ pre s', pre ++ [.clear] <+: cmds → s.commands parse pre = .ok s' → s'.defaultGate = dropGate

theorem Rep.commands (h : Rep s T) {cmds : List Command} (hc : s.commands parse cmds = .ok s')
    (hclear : ClearsNoDefault parse s cmds) : Rep s' (cmds.foldl (installed parse) T) := by
  induction cmds generalizing s T with
  | nil =>
    cases hc
    exact h
  | cons c cs ih =>
    obtain ⟨s1, h1, hrest⟩ := commands_cons.mp hc
    have hfirst : c = .clear → s.defaultGate = dropGate := by
      rintro rfl
      exact hclear [] s (by simp) rfl
    refine ih (h.command h1 hfirst) hrest fun pre s2 hpre hs2 => ?_
    refine hclear (c :: pre) s2 ?_ (commands_cons.mpr ⟨s1, h1, hs2⟩)
    exact List.cons_prefix_cons.mpr ⟨rfl, hpre⟩

theorem commands_append {cs ds : List Command} {s1 : IpLookup L}
    (h : s.commands parse cs = .ok s1) :
    s.commands parse (cs ++ ds) = s1.commands parse ds := by
  induction cs generalizing s with
  | nil =>
    cases h
    rfl
  | cons c cs ih =>
    obtain ⟨s2, h2, hrest⟩ := commands_cons.mp h
    rw [List.cons_append, IpLookup.commands, h2]
    exact ih hrest

theorem rep_init {n m : Nat} (h : init L n m = .ok s) : Rep s empty := by
  unfold init at h
  split at h
  · cases h
  · rename_i lpm hcreate
    cases h
    refine ⟨fun len m _ _ => ?_, rfl⟩
    rw [L.create_rules hcreate]
    rfl

theorem chosen_deleteAll (addr : UInt32) :
    chosen { s with lpm := L.deleteAll s.lpm } addr = s.defaultGate := by
  have hnone : L.lookup (L.deleteAll s.lpm) addr = none := by
    rw [L.lookup_rules, L.deleteAll_rules]
    cases hl : longest 32 empty addr.toNat 32 with
    | none => rfl
    | some g =>
      obtain ⟨len, -, -, hg, -⟩ := longest_eq_some hl
      cases hg
  simp only [chosen, hnone]

theorem routed_empty {addr : UInt32} {gate : UInt16} (h : Routed empty addr gate) :
    gate = dropGate := by
  rcases h with ⟨len, g, ⟨-, hg, -⟩, -⟩ | ⟨-, hgate⟩
  · cases hg
  · exact hgate

/-- A command installs no gate but the one it names. -/
theorem installed_fits (hT : ∀ len m g, T len m = some g → g.toNat < 2 ^ 16) {c : Command}
    (hc : ∀ arg, c = .add arg → arg.gate.toNat < 2 ^ 16) (len m : Nat) (g : UInt64)
    (h : installed parse T c len m = some g) : g.toNat < 2 ^ 16 := by
  have hput : ∀ {len' m' : Nat} {o : Option UInt64}, (∀ g, o = some g → g.toNat < 2 ^ 16) →
      T.put len' m' o len m = some g → g.toNat < 2 ^ 16 := by
    intro len' m' o ho hg
    unfold Table.put at hg
    split at hg
    · exact ho g hg
    · exact hT len m g hg
  cases c with
  | add arg =>
    cases hp : parse arg.pfx with
    | none =>
      simp only [installed, hp] at h
      exact hT len m g h
    | some addr =>
      simp only [installed, hp] at h
      exact hput (fun g' hg' => Option.some.inj hg' ▸ hc arg rfl) h
  | delete arg =>
    cases hp : parse arg.pfx with
    | none =>
      simp only [installed, hp] at h
      exact hT len m g h
    | some addr =>
      simp only [installed, hp] at h
      exact hput (fun g' (hg' : none = some g') => nomatch hg') h
  | clear => cases h

theorem gatesFit_of_adds {cmds : List Command}
    (hc : ∀ arg, .add arg ∈ cmds → arg.gate.toNat < 2 ^ 16) :
    GatesFit (cmds.foldl (installed parse) empty) := by
  suffices h : ∀ T : Table UInt64, (∀ len m g, T len m = some g → g.toNat < 2 ^ 16) →
      ∀ len m g, cmds.foldl (installed parse) T len m = some g → g.toNat < 2 ^ 16 from
    fun p len g hlong => h empty (fun _ _ _ h => nomatch h) len _ g hlong.2.1
  induction cmds with
  | nil => exact fun T hT => hT
  | cons c cs ih =>
    intro T hT
    refine ih (fun arg harg => hc arg (List.mem_cons_of_mem c harg)) _ ?_
    exact installed_fits hT fun arg harg => hc arg (harg ▸ List.mem_cons_self)

/-- All packets go where the installed routes say, at any time, exactly if the table is never cleared
while a default route leads to a gate, and no packet takes a route whose gate has more than 16 bits. -/
theorem routed_iff (n m : Nat) (s : IpLookup L) (h : init L n m = .ok s) (cmds : List Command) :
    (∀ pre s1, pre <+: cmds → s.commands parse pre = .ok s1 → ∀ pkts : List PacketData,
      (s1.processBatch pkts).map Prod.fst = pkts ∧
        ∀ e ∈ s1.processBatch pkts, Routed (pre.foldl (installed parse) empty) (dst e.1) e.2) ↔
    ClearsNoDefault parse s cmds ∧ ∀ pre s1, pre <+: cmds → s.commands parse pre = .ok s1 →
      GatesFit (pre.foldl (installed parse) empty) := by
  constructor
  · intro hall
    constructor
    · intro pre s1 hpre hs1
      have hclear : s.commands parse (pre ++ [.clear]) =
          .ok { s1 with lpm := L.deleteAll s1.lpm } := by
        rw [commands_append hs1]
        rfl
      have hgate := (hall _ _ hpre hclear [[]]).2 ([], s1.defaultGate) (by
        rw [processBatch_eq, List.map_singleton, chosen_deleteAll]
        exact List.mem_singleton_self _)
      rw [List.foldl_append] at hgate
      exact routed_empty hgate
    · intro pre s1 hpre hs1 p len g hlong
      have hone := (hall pre s1 hpre hs1 [p]).2 (p, s1.chosen (dst p)) (by
        rw [processBatch_eq]
        exact List.mem_singleton_self _)
      exact hone.fits hlong
  · rintro ⟨hclear, hfit⟩ pre s1 hpre hs1 pkts
    have hrep : Rep s1 (pre.foldl (installed parse) empty) := by
      refine (rep_init h).commands hs1 fun pre' s2 hpre' hs2 => ?_
      exact hclear pre' s2 (hpre'.trans hpre) hs2
    rw [processBatch_eq]
    refine ⟨by rw [List.map_map]; exact List.map_id pkts, fun e he => ?_⟩
    obtain ⟨p, -, rfl⟩ := List.mem_map.mp he
    exact hrep.routed (hfit pre s1 hpre hs1) p

end IpLookup

/-- The rules themselves as a table. -/
def Lpm.plain : Lpm where
  T := Table UInt32
  create := fun _ _ => .ok empty
  add := fun t ip depth hop => .ok (t.put depth (net 32 depth ip.toNat) (some hop))
  delete := fun t ip depth => .ok (t.put depth (net 32 depth ip.toNat) none)
  deleteAll := fun _ => empty
  lookup := fun t ip => longest 32 t ip.toNat 32
  lookupx4 := fun t ips default => ips.map fun ip => (longest 32 t ip.toNat 32).getD default
  rules := id
  create_rules := fun h => by cases h; rfl
  add_rules := fun _ _ h => by cases h; rfl
  delete_rules := fun _ _ h => by cases h; rfl
  deleteAll_rules := fun _ => rfl
  lookup_rules := fun _ _ => rfl
  lookupx4_lookup := fun _ _ _ => rfl

namespace IpLookup

/-- 10.0.0.0 and everything else. -/
def parseSample (text : String) : Option UInt32 :=
  if text = "10.0.0.0" then some 0x0a000000 else some 0

/-- 10.1.2.3 as the destination of an otherwise empty packet. -/
def sampleData : PacketData := List.replicate 30 0 ++ [10, 1, 2, 3]

/-- The table is cleared before the default route is installed. -/
def sampleRoutes : List Command :=
  [.add ⟨"10.0.0.0", 8, 3⟩, .clear, .add ⟨"0.0.0.0", 0, 5⟩]

theorem sampleRoutes_routed : ∃ s s' : IpLookup Lpm.plain, init Lpm.plain 0 0 = .ok s ∧
    s.commands parseSample sampleRoutes = .ok s' ∧
    ∀ e ∈ s'.processBatch [sampleData],
      Routed (sampleRoutes.foldl (installed parseSample) empty) (dst e.1) e.2 := by
  refine ⟨_, _, rfl, rfl, ?_⟩
  refine ((routed_iff 0 0 _ rfl sampleRoutes).mpr ⟨?_, ?_⟩ _ _ (List.prefix_refl _) rfl
    [sampleData]).2
  · rintro pre s1 ⟨rest, hrest⟩ hs1
    rcases pre with _ | ⟨a, _ | ⟨b, _ | ⟨c, pre⟩⟩⟩
    · cases hrest
    · cases hrest
      cases hs1
      rfl
    · cases hrest
    · simp [sampleRoutes] at hrest
  · intro pre s1 hpre _
    refine gatesFit_of_adds fun arg harg => ?_
    have hmem := hpre.subset harg
    simp only [sampleRoutes, List.mem_cons, Command.add.injEq, reduceCtorEq, List.not_mem_nil,
      or_false, false_or] at hmem
    rcases hmem with rfl | rfl <;> decide

/-- A default route to gate 5 is still used after the table was cleared. -/
theorem default_survives_clear : ∃ s s' : IpLookup Lpm.plain, init Lpm.plain 0 0 = .ok s ∧
    s.commands parseSample [.add ⟨"0.0.0.0", 0, 5⟩, .clear] = .ok s' ∧
    s'.processBatch [sampleData] = [(sampleData, 5)] ∧
    ¬Routed ([.add ⟨"0.0.0.0", 0, 5⟩, .clear].foldl (installed parseSample) empty)
      (dst sampleData) 5 := by
  refine ⟨_, _, rfl, rfl, rfl, fun h => ?_⟩
  exact absurd (routed_empty h) (by decide)

end IpLookup

end Bess.Modules
