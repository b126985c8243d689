import Bess.Cuckoo.TwoKeys
import Bess.Lib.Pairing
import Bess.Translate.Table
import Bess.Translate.Verify

/-!
# Mappings of the NAT come in pairs

The two entries of a mapping name each other. `CreateNewEntry` inserts them one after the other and
does not look at the result of the first insertion; the table may refuse a key for which it finds no
slot. A mapping of which only one half got in stays so: the next packet that probes its external
endpoint follows a null pointer, or the endpoint is given out twice. Here the table has room for both
before every packet that needs a mapping.

Replies are found by the type of an ICMP message too, and timestamp replies are not among those that
are translated.
-/

namespace Bess.Translate

open Bess.ByteMem Bess.Checksum Bess.Headers Bess.Cuckoo Bess.Pairing

variable {σ : Type} (env : Env σ)

/-- The entry of an endpoint. -/
def lookup (map : HashTable) : Endpoint → Option NatEntry := map.look env.hashing

variable {env} {map map' : HashTable} {k src ext : Endpoint} {now : BitVec 64}

/-! ## The table -/

theorem lookup_eq_none_iff : map.find env.hashing k = none ↔ lookup env map k = none := by
  rw [lookup, CuckooMap.look, Option.map_eq_none_iff]

theorem lookup_of_find (h : CuckooMap.Rep env.hashing map) {e : Endpoint × NatEntry}
    (hf : map.find env.hashing k = some e) : e.1 = k ∧ lookup env map k = some e.2 := by
  refine ⟨?_, by rw [lookup, CuckooMap.look, hf]; rfl⟩
  rw [h.find_eq] at hf
  exact of_decide_eq_true (AssocMap.mem_of_find hf).2

theorem hashing_eq_iff (a b : Endpoint) : env.hashing.eq a b = true ↔ a = b := decide_eq_true_iff

theorem insert_lookup (h : CuckooMap.Rep env.hashing map) (k : Endpoint) (v : NatEntry) :
    ∃ r map', map.insert env.hashing k v = some (r, map') ∧ CuckooMap.Rep env.hashing map' ∧
      lookup env map' =
        if r.isSome then Function.update (lookup env map) k (some v) else lookup env map :=
  h.insert_update hashing_eq_iff k v

theorem remove_lookup (h : CuckooMap.Rep env.hashing map) (k : Endpoint) :
    CuckooMap.Rep env.hashing (map.remove env.hashing k).2 ∧
      lookup env (map.remove env.hashing k).2 = Function.update (lookup env map) k none :=
  h.remove_update hashing_eq_iff k

variable {v : NatEntry} {seen : History}

theorem refresh_lookup (h : CuckooMap.Rep env.hashing map)
    (hk : lookup env map k = some v) (now : BitVec 64) :
    CuckooMap.Rep env.hashing (refresh env map k now) ∧
      lookup env (refresh env map k now) =
        Function.update (lookup env map) k (some { v with lastRefresh := now }) := by
  unfold refresh
  cases hf : map.findWithHash env.hashing (env.hashing.hash k) k with
  | none =>
    rw [lookup, CuckooMap.look, CuckooMap.find, hf] at hk
    cases hk
  | some i =>
    obtain ⟨hi, hki⟩ := h.findWithHash_eq_some.mp hf
    have hv : (map.entryAt i).2 = v := by
      rw [lookup, CuckooMap.look, CuckooMap.find, hf] at hk
      exact Option.some.inj hk
    subst hv
    exact ⟨h.setValue hi, h.setValue_update hashing_eq_iff hi hki _⟩

/-! ## Looking for an external endpoint -/

abbrev Mapped (L : Endpoint → Option NatEntry) : Prop := Paired NatEntry.endpoint L

/-- Both ends of a mapping have the same protocol. -/
def SameProtocol (L : Endpoint → Option NatEntry) : Prop :=
  ∀ k v, L k = some v → v.endpoint.protocol = k.protocol

structure Good (env : Env σ) (map : HashTable) : Prop where
  rep : CuckooMap.Rep env.hashing map
  mapped : Mapped (lookup env map)
  protocol : SameProtocol (lookup env map)

/-- The endpoint is free, or its mapping has not been used for so long that it may be evicted. -/
def Available (env : Env σ) (map : HashTable) (now : BitVec 64) (ext : Endpoint) : Prop :=
  ∀ v w, lookup env map ext = some v → lookup env map v.endpoint = some w →
    kTimeOutNs < now - w.lastRefresh

/-- What is found for an internal endpoint: a table that has lost at most one mapping, and an
external endpoint that is free in it. -/
structure Offer (env : Env σ) (map : HashTable) (now : BitVec 64) (ext : Endpoint)
    (found : Endpoint × HashTable) : Prop where
  good : Good env found.2
  thinned : CuckooMap.Thinned map found.2
  available : Available env map now found.1
  free : lookup env found.2 found.1 = none
  addr : found.1.addr = ext.addr
  protocol : found.1.protocol = ext.protocol
  sub : ∀ k, lookup env map k = none → lookup env found.2 k = none

theorem Good.evict (h : Good env map) (hl : lookup env map ext = some v)
    (ha : Available env map now ext) : Offer env map now ext
      (ext, ((map.remove env.hashing v.endpoint).2.remove env.hashing ext).2) := by
  obtain ⟨h₁, hl₁⟩ := remove_lookup h.rep v.endpoint
  obtain ⟨h₂, hl₂⟩ := remove_lookup h₁ ext
  rw [hl₁] at hl₂
  have ht := (h.rep.remove_thinned v.endpoint).trans (h₁.remove_thinned ext)
  have hsub : ∀ k w, Function.update (Function.update (lookup env map) v.endpoint none) ext
      none k = some w → lookup env map k = some w := by
    intro k w hk
    by_cases hke : k = ext
    · rw [hke, Function.update_self] at hk
      cases hk
    · rw [Function.update_of_ne hke] at hk
      by_cases hkf : k = v.endpoint
      · rw [hkf, Function.update_self] at hk
        cases hk
      · rwa [Function.update_of_ne hkf] at hk
  -- the removals are not to be computed
  generalize ((map.remove env.hashing v.endpoint).2.remove env.hashing ext).2 = map₂ at h₂ hl₂ ht ⊢
  refine ⟨⟨h₂, ?_, ?_⟩, ht, ha, ?_, rfl, rfl, ?_⟩
  · rw [hl₂]
    exact h.mapped.unlink hl
  · intro k w hk
    rw [hl₂] at hk
    exact h.protocol k w (hsub k w hk)
  · rw [hl₂, Function.update_self]
  · intro k hk
    rw [hl₂]
    cases hu : Function.update (Function.update (lookup env map) v.endpoint none) ext none k with
    | none => rfl
    | some w =>
      rw [hsub k w hu] at hk
      cases hk

/-- The forward entry that `CreateNewEntry` looks at is always there. -/
theorem Good.claim (h : Good env map) (ext : Endpoint) (now : BitVec 64) :
    ∃ r, claim env map ext now = some r ∧
      ∀ map', r = some map' → Offer env map now ext (ext, map') := by
  unfold Translate.claim
  cases hf : map.find env.hashing ext with
  | none =>
    refine ⟨_, rfl, ?_⟩
    rintro map' ⟨⟩
    have hl := lookup_eq_none_iff.mp hf
    refine ⟨h, .refl _, fun v w hv => ?_, hl, rfl, rfl, fun _ hk => hk⟩
    rw [hl] at hv
    cases hv
  | some e =>
    obtain ⟨he, hl⟩ := lookup_of_find h.rep hf
    obtain ⟨v', hv', -⟩ := h.mapped ext e.2 hl
    simp only
    cases hf' : map.find env.hashing e.2.endpoint with
    | none =>
      rw [lookup_eq_none_iff.mp hf'] at hv'
      cases hv'
    | some e' =>
      obtain ⟨he', hl'⟩ := lookup_of_find h.rep hf'
      simp only
      split
      · rename_i hold
        refine ⟨_, rfl, fun map' hr => ?_⟩
        rw [he, he'] at hr
        rw [← Option.some.inj hr]
        refine h.evict hl fun v w hv hw => ?_
        rw [hl] at hv
        cases hv
        rw [hl'] at hw
        cases hw
        exact hold
      · exact ⟨none, rfl, fun map' hr => absurd hr (by simp)⟩

theorem Good.probe (h : Good env map) (now : BitVec 64) (min range startPort : BitVec 16) (n : Nat)
    (ext : Endpoint) (port : BitVec 16) :
    ∃ r, probe env map ext now min range startPort n port = some r ∧
      ∀ found, r = some found → Offer env map now ext found := by
  induction n generalizing ext port with
  | zero => exact ⟨none, rfl, fun found hr => absurd hr (by simp)⟩
  | succ n ih =>
    obtain ⟨r, hr, hoffer⟩ := h.claim { ext with port := bswap16 port } now
    unfold Translate.probe
    simp only [hr, Option.bind_eq_bind, Option.bind_some]
    cases r with
    | some map' =>
      refine ⟨_, rfl, ?_⟩
      rintro found ⟨⟩
      exact { hoffer map' rfl with }
    | none =>
      simp only
      split
      · exact ⟨none, rfl, fun found hr => absurd hr (by simp)⟩
      · obtain ⟨r, hr, hall⟩ := ih { ext with port := bswap16 port } (nextPort min range port)
        refine ⟨r, hr, fun found hfound => ?_⟩
        exact { hall found hfound with }

theorem Good.search (h : Good env map) (src ext : Endpoint) (now : BitVec 64) (rs : List PortRange)
    (rng : σ) :
    ∃ r, search env map src ext now rs rng = some r ∧
      ∀ found, r.1 = some found → Offer env map now ext found := by
  induction rs generalizing rng with
  | nil => exact ⟨_, rfl, fun found hr => absurd hr (by simp)⟩
  | cons p rs ih =>
    unfold Translate.search
    split
    · exact ih rng
    · split
      · exact ⟨_, rfl, fun found hr => absurd hr (by simp)⟩
      · exact ih rng
      · rename_i min range _
        obtain ⟨d, hd⟩ : ∃ d, d = env.getRange range.toNat rng := ⟨_, rfl⟩
        obtain ⟨r, hr, hall⟩ := h.probe now min range (min + BitVec.ofNat 16 d.1) kMaxTrials ext
          (min + BitVec.ofNat 16 d.1)
        rw [← hd]
        simp only [hr, Option.bind_eq_bind, Option.bind_some]
        cases r with
        | none => exact ih d.2
        | some found =>
          refine ⟨_, rfl, ?_⟩
          rintro found' ⟨⟩
          exact hall found rfl

/-! ## Installing a mapping -/

theorem SameProtocol.update {L : Endpoint → Option NatEntry} (h : SameProtocol L)
    (hv : v.endpoint.protocol = k.protocol) : SameProtocol (Function.update L k (some v)) := by
  intro j w hj
  by_cases hjk : j = k
  · rw [hjk, Function.update_self] at hj
    cases hj
    rw [hjk]
    exact hv
  · rw [Function.update_of_ne hjk] at hj
    exact h j w hj

/-- Both entries of a mapping get in if there is room for them. -/
theorem Good.install (h : Good env map) (hext : lookup env map ext = none)
    (hsrc : lookup env map src = none) (hne : ext ≠ src) (hp : ext.protocol = src.protocol)
    (hroom : CuckooMap.RoomForBoth env.hashing map ext src) :
    ∃ r map', install env map src ext = some (r, true, map') ∧ Good env map' ∧
      lookup env map' src = some ⟨ext, env.garbage⟩ := by
  have hnew : AssocMap.find env.hashing.toKeyEq map.contents ext = none := by
    rw [← h.rep.find_eq]
    exact lookup_eq_none_iff.mpr hext
  obtain ⟨i, map₁, hi, htakes⟩ := h.rep.takes_both hnew hroom ⟨src, env.garbage⟩
  obtain ⟨r, map', hr, h₁, hl₁⟩ := insert_lookup h.rep ext ⟨src, env.garbage⟩
  rw [hi] at hr
  cases hr
  obtain ⟨f, map₂, hf, h₂, hl₂⟩ := insert_lookup h₁ src ⟨ext, env.garbage⟩
  have hsome := (h₁.insert_isSome_iff src _ hf).mpr htakes
  rw [if_pos hsome, hl₁, if_pos (show (some i).isSome = true from rfl)] at hl₂
  refine ⟨true, map₂, ?_, ⟨h₂, ?_, ?_⟩, ?_⟩
  · simp [Translate.install, hi, hf, hsome]
  · rw [hl₂]
    exact h.mapped.link hext hsrc hne rfl rfl
  · rw [hl₂]
    exact (h.protocol.update (k := ext) (v := ⟨src, env.garbage⟩) hp.symm).update hp
  · rw [hl₂, Function.update_self]

variable {cfg : Config} {s : State σ}

/-- Whichever port is chosen for the internal endpoint, the table has room for the mapping. -/
def HasRoom (env : Env σ) (cfg : Config) (s : State σ) (src : Endpoint) (now : BitVec 64) : Prop :=
  ∀ ext : Endpoint, ext.addr = cfg.extAddrs.getD (cfg.index env src) 0 →
    ext.protocol = src.protocol → Available env s.map now ext →
      CuckooMap.RoomForBoth env.hashing s.map ext src

theorem Good.createNewEntry (h : Good env s.map) (hcfg : cfg.extAddrs ≠ [])
    (hsrc : lookup env s.map src = none) (hint : src.addr ∉ cfg.extAddrs) (now : BitVec 64)
    (hroom : HasRoom env cfg s src now) :
    ∃ c s', createNewEntry env cfg s src now = some (c, s') ∧ Good env s'.map ∧
      (c = true → lookup env s'.map src ≠ none) := by
  obtain ⟨⟨found, rng⟩, hr, hoffer⟩ := h.search src
    ⟨cfg.extAddrs.getD (cfg.index env src) 0, 0, src.protocol⟩ now
    (cfg.portRanges.getD (cfg.index env src) []) s.rng
  have hfind : findExternal env cfg s src now = some (found, rng) := hr
  unfold Translate.createNewEntry
  simp only [hfind, Option.bind_eq_bind, Option.bind_some]
  cases found with
  | none => exact ⟨false, _, rfl, h, fun hc => absurd hc (by simp)⟩
  | some found =>
    obtain ⟨ext, map⟩ := found
    have ho := hoffer _ rfl
    have hlen : 0 < cfg.extAddrs.length := List.length_pos_of_ne_nil hcfg
    have hmem : ext.addr ∈ cfg.extAddrs := by
      have hi : cfg.index env src < cfg.extAddrs.length := Nat.mod_lt _ hlen
      have haddr := ho.addr
      simp only at haddr
      rw [haddr, List.getD_eq_getElem?_getD, List.getElem?_eq_getElem hi]
      exact List.getElem_mem hi
    have hne : ext ≠ src := by
      rintro rfl
      exact hint hmem
    obtain ⟨r, map', hi, hgood, hl⟩ := ho.good.install ho.free (ho.sub src hsrc) hne ho.protocol
      ((hroom ext ho.addr ho.protocol ho.available).thinned ho.thinned)
    simp only [hi, Option.bind_some]
    exact ⟨true, _, rfl, hgood, fun _ => by rw [hl]; simp⟩

/-! ## Packets -/

theorem find_of_lookup (h : CuckooMap.Rep env.hashing map)
    (hk : lookup env map k = some v) : map.find env.hashing k = some (k, v) := by
  cases hf : map.find env.hashing k with
  | none =>
    rw [lookup_eq_none_iff.mp hf] at hk
    cases hk
  | some e =>
    obtain ⟨h1, h2⟩ := lookup_of_find h hf
    rw [h2] at hk
    cases hk
    rw [← h1]

theorem forwardPacket_reverse (h : CuckooMap.Rep env.hashing s.map)
    (hk : lookup env s.map k = some v) (now : BitVec 64) (m : Mem) :
    forwardPacket env .reverse s k now m =
      (some ⟨k, v.endpoint, stamp .reverse m k v.endpoint⟩, s) := by
  unfold forwardPacket
  simp only [reduceCtorEq, if_false, find_of_lookup h hk]

theorem forwardPacket_forward (h : CuckooMap.Rep env.hashing s.map)
    (hk : lookup env s.map k = some v) (now : BitVec 64) (m : Mem) :
    ∃ s', forwardPacket env .forward s k now m =
        (some ⟨k, v.endpoint, stamp .forward m k v.endpoint⟩, s') ∧
      CuckooMap.Rep env.hashing s'.map ∧ lookup env s'.map =
        Function.update (lookup env s.map) k (some { v with lastRefresh := now }) := by
  obtain ⟨hrep, hl⟩ := refresh_lookup h hk now
  have hf : (refresh env s.map k now).find env.hashing k =
      some (k, { v with lastRefresh := now }) :=
    find_of_lookup hrep (by rw [hl, Function.update_self])
  refine ⟨⟨refresh env s.map k now, s.rng⟩, ?_, hrep, hl⟩
  unfold forwardPacket
  simp only [if_true, hf]

/-- Sending an outbound packet refreshes its entry and keeps the pairs as they are. -/
theorem Good.forwardPacket (h : Good env s.map) (hk : lookup env s.map k ≠ none) (now : BitVec 64)
    (m : Mem) :
    ∃ o s', forwardPacket env .forward s k now m = (some o, s') ∧ o.before = k ∧
      Good env s'.map := by
  obtain ⟨v, hv⟩ := Option.ne_none_iff_exists'.mp hk
  obtain ⟨s', he, hrep, hl⟩ := forwardPacket_forward h.rep hv now m
  refine ⟨_, s', he, rfl, hrep, ?_, ?_⟩
  · rw [hl]
    exact h.mapped.revalue hv rfl
  · rw [hl]
    exact h.protocol.update (h.protocol k v hv)

/-- A packet in the forward direction. -/
theorem Good.forward (h : Good env s.map) (hcfg : cfg.extAddrs ≠ []) {m : Mem}
    (hint : ∀ b, extractEndpoint m .forward = some b → b.addr ∉ cfg.extAddrs) (now : BitVec 64)
    (hroom : ∀ b, extractEndpoint m .forward = some b → lookup env s.map b = none →
      HasRoom env cfg s b now) :
    ∃ out s', processPacket env cfg .forward now m s = some (out, s') ∧ Good env s'.map ∧
      ∀ o, out = some o → extractEndpoint m .forward = some o.before := by
  unfold processPacket
  cases hx : extractEndpoint m .forward with
  | none =>
    refine ⟨none, s, rfl, h, ?_⟩
    rintro o ⟨⟩
  | some b =>
    simp only
    cases hf : s.map.find env.hashing b with
    | some e =>
      obtain ⟨-, hl⟩ := lookup_of_find h.rep hf
      obtain ⟨o, s', he, hb, hgood⟩ := h.forwardPacket (by rw [hl]; simp) now m
      refine ⟨some o, s', by simp only [he], hgood, ?_⟩
      rintro o' ⟨⟩
      rw [hb]
    | none =>
      have hl := lookup_eq_none_iff.mp hf
      obtain ⟨c, s₁, hc, hgood, hsome⟩ :=
        h.createNewEntry hcfg hl (hint b hx) now (hroom b hx hl)
      simp only [hc, Option.bind_eq_bind, Option.bind_some]
      cases c with
      | false =>
        refine ⟨none, s₁, rfl, hgood, ?_⟩
        rintro o ⟨⟩
      | true =>
        obtain ⟨o, s', he, hb, hgood'⟩ := hgood.forwardPacket (hsome rfl) now m
        refine ⟨some o, s', by simp only [he, if_true], hgood', ?_⟩
        rintro o' ⟨⟩
        rw [hb]

/-! ## Replies -/

/-- The types of an ICMP request and of the reply to it. -/
def icmpReplies : List (Byte × Byte) := [(8#8, 0#8), (13#8, 14#8), (15#8, 16#8)]

def timestampReply : Byte := 14#8

/-- The packet `q` replies to the outbound packet `p`, whose source was translated to `after`. -/
def Answers (q p : Mem) (after : Endpoint) : Prop :=
  20 ≤ l4 q ∧ protocol q = protocol p ∧ load32 q dstOffset = after.addr ∧
    ((protocol q = kTcp ∨ protocol q = kUdp) ∧ load16 q (l4 q + 2) = after.port ∨
      protocol q = kIcmp ∧ load16 q (l4 q + icmpIdentOffset) = after.port ∧
        (p (l4 p), q (l4 q)) ∈ icmpReplies)

/-- The destination of the packet that is sent on for `q`. -/
def GoesTo (q out : Mem) (dst : Endpoint) : Prop :=
  load32 out dstOffset = dst.addr ∧
    ((protocol q = kTcp ∨ protocol q = kUdp) ∧ load16 out (l4 q + 2) = dst.port ∨
      protocol q = kIcmp ∧ load16 out (l4 q + icmpIdentOffset) = dst.port)

def IsTimestampReply (q : Mem) : Prop := protocol q = kIcmp ∧ q (l4 q) = timestampReply

theorem goesTo_stamp {q : Mem} {before dst : Endpoint} (hl : 20 ≤ l4 q)
    (hp : (protocol q = kTcp ∨ protocol q = kUdp) ∨ protocol q = kIcmp) :
    GoesTo q (stamp .reverse q before dst) dst := by
  refine ⟨load32_stamp .reverse hl, ?_⟩
  rcases hp with hp | hp
  · exact .inl ⟨hp, load16_stamp_port .reverse hp⟩
  · exact .inr ⟨hp, load16_stamp_ident .reverse hp⟩

theorem extractEndpoint_protocol {m : Mem} {dir : Direction} {b : Endpoint}
    (h : extractEndpoint m dir = some b) : b.protocol = (protocol m).setWidth 16 := by
  unfold extractEndpoint at h
  simp only at h
  split at h
  · cases h
    rfl
  · split at h
    · rename_i hi
      cases h
      rw [hi.1]
    · cases h

theorem extractEndpoint_eq_of_answers {q p : Mem} {after : Endpoint} (ha : Answers q p after)
    (hp : after.protocol = (protocol p).setWidth 16) (ht : ¬ IsTimestampReply q) :
    extractEndpoint q .reverse = some after := by
  obtain ⟨addr, port, proto⟩ := after
  obtain ⟨-, hpq, haddr, hport⟩ := ha
  simp only at hp haddr hport
  rw [← hpq] at hp
  unfold extractEndpoint
  simp only [Direction.addrOffset, Direction.portOffset]
  rcases hport with ⟨hq, hport⟩ | ⟨hq, hport, htypes⟩
  · rw [if_pos hq, haddr, hport, hp]
  · have hne : ¬ (protocol q = kTcp ∨ protocol q = kUdp) := by
      rw [hq]
      decide
    have htype : q (l4 q) ∈ identTypes := by
      simp only [icmpReplies, List.mem_cons, Prod.mk.injEq, List.not_mem_nil, or_false] at htypes
      rcases htypes with ⟨-, h⟩ | ⟨-, h⟩ | ⟨-, h⟩
      · rw [h]
        decide
      · exact absurd ⟨hq, h⟩ ht
      · rw [h]
        decide
    rw [if_neg hne, if_pos ⟨hq, htype⟩, haddr, hport, hp, hq]

/-! ## Runs -/

structure Event where
  dir : Direction
  now : BitVec 64
  pkt : Mem

/-- The outbound packets so far, each as it came in and as it was sent. -/
abbrev History := List (Mem × Sent)

def remember (e : Event) (out : Option Sent) (seen : History) : History :=
  match e.dir, out with
  | .forward, some o => (e.pkt, o) :: seen
  | _, _ => seen

/-- The mapping that the packet was sent with is still there. -/
def Live (env : Env σ) (s : State σ) (o : Sent) : Prop :=
  ∃ v, lookup env s.map o.before = some v ∧ v.endpoint = o.after

/-- Every entry is one of a pair, and no two endpoints are mapped to the same one. -/
structure Sound (env : Env σ) (s : State σ) : Prop where
  paired : ∀ k v, lookup env s.map k = some v →
    ∃ v', lookup env s.map v.endpoint = some v' ∧ v'.endpoint = k
  unshared : ∀ k₁ k₂ v₁ v₂, lookup env s.map k₁ = some v₁ → lookup env s.map k₂ = some v₂ →
    v₁.endpoint = v₂.endpoint → k₁ = k₂

/-- A reply to an outbound packet goes to where that packet came from. -/
def RepliesRight (env : Env σ) (seen : History) (s : State σ) (e : Event) (out : Option Sent) :
    Prop :=
  e.dir = .reverse → ∀ p o, (p, o) ∈ seen → Live env s o → Answers e.pkt p o.after →
    ∃ o', out = some o' ∧ GoesTo e.pkt o'.pkt o.before

def SoundAlong (env : Env σ) (cfg : Config) : History → State σ → List Event → Prop
  | _, s, [] => Sound env s
  | seen, s, e :: es => Sound env s ∧ ∃ out s',
    processPacket env cfg e.dir e.now e.pkt s = some (out, s') ∧
      RepliesRight env seen s e out ∧ SoundAlong env cfg (remember e out seen) s' es

/-- There is room for the mapping of an outbound packet that needs a new one; a reply to a live
mapping is not an ICMP timestamp reply. -/
def Meets (env : Env σ) (cfg : Config) (seen : History) (s : State σ) (e : Event) : Prop :=
  (e.dir = .forward → ∀ b, extractEndpoint e.pkt .forward = some b →
    lookup env s.map b = none → HasRoom env cfg s b e.now) ∧
  (e.dir = .reverse → ∀ p o, (p, o) ∈ seen → Live env s o → Answers e.pkt p o.after →
    ¬ IsTimestampReply e.pkt)

def MeetsAlong (env : Env σ) (cfg : Config) : History → State σ → List Event → Prop
  | _, _, [] => True
  | seen, s, e :: es => Meets env cfg seen s e ∧ ∀ out s',
    processPacket env cfg e.dir e.now e.pkt s = some (out, s') →
      MeetsAlong env cfg (remember e out seen) s' es

theorem Good.sound (h : Good env s.map) : Sound env s :=
  ⟨h.mapped, fun _ _ _ _ h₁ h₂ he => h.mapped.injective h₁ h₂ he⟩

/-- Every packet in the history has the endpoint it is recorded with. -/
def Recorded (seen : History) : Prop :=
  ∀ p o, (p, o) ∈ seen → extractEndpoint p .forward = some o.before

/-- A packet in the reverse direction changes nothing, and replies are right. -/
theorem Good.reverse (h : Good env s.map) (hseen : Recorded seen) {e : Event}
    (hd : e.dir = .reverse) (hm : Meets env cfg seen s e) :
    ∃ out, processPacket env cfg e.dir e.now e.pkt s = some (out, s) ∧
      RepliesRight env seen s e out := by
  obtain ⟨out, hout⟩ : ∃ out, processPacket env cfg e.dir e.now e.pkt s = some (out, s) := by
    unfold processPacket
    rw [hd]
    split
    · exact ⟨_, rfl⟩
    · split
      · rename_i hf
        rw [forwardPacket_reverse h.rep (lookup_of_find h.rep hf).2]
        exact ⟨_, rfl⟩
      · exact ⟨_, rfl⟩
  refine ⟨out, hout, fun _ p o hmem hlive ha => ?_⟩
  have ht := hm.2 hd p o hmem hlive ha
  obtain ⟨v, hv, hva⟩ := hlive
  have hproto : o.after.protocol = (Headers.protocol p).setWidth 16 := by
    rw [← hva, h.protocol _ _ hv]
    exact extractEndpoint_protocol (hseen p o hmem)
  obtain ⟨v', hv', hback⟩ := h.mapped _ _ hv
  rw [hva] at hv'
  have hx := extractEndpoint_eq_of_answers ha hproto ht
  simp only [processPacket, hd, hx, find_of_lookup h.rep hv',
    forwardPacket_reverse h.rep hv', Option.some.injEq, Prod.mk.injEq, and_true] at hout
  refine ⟨_, hout.symm, ?_⟩
  rw [hback]
  apply goesTo_stamp ha.1
  rcases ha.2.2.2 with ⟨hq, -⟩ | ⟨hq, -⟩
  · exact .inl hq
  · exact .inr hq

/-- The state after a sequence of packets. -/
def run (env : Env σ) (cfg : Config) : State σ → List Event → Option (State σ)
  | s, [] => some s
  | s, e :: es => do
    let (_, s) ← processPacket env cfg e.dir e.now e.pkt s
    run env cfg s es

theorem SoundAlong.run {es : List Event} (h : SoundAlong env cfg seen s es) :
    ∃ s', run env cfg s es = some s' ∧ Sound env s' := by
  induction es generalizing seen s with
  | nil => exact ⟨s, rfl, h⟩
  | cons e es ih =>
    obtain ⟨-, out, s₁, hp, -, hrest⟩ := h
    obtain ⟨s', hr, hs⟩ := ih hrest
    refine ⟨s', ?_, hs⟩
    rw [Translate.run, hp]
    exact hr

theorem Recorded.remember (hseen : Recorded seen) {e : Event} {out : Option Sent}
    (hd : e.dir = .forward)
    (ho : ∀ o, out = some o → extractEndpoint e.pkt .forward = some o.before) :
    Recorded (remember e out seen) := by
  unfold Translate.remember
  rw [hd]
  cases out with
  | none => exact hseen
  | some o =>
    intro p o' hmem
    rcases List.mem_cons.mp hmem with he | hmem
    · cases he
      exact ho o rfl
    · exact hseen p o' hmem

theorem Good.soundAlong (h : Good env s.map) (hcfg : cfg.extAddrs ≠ []) (es : List Event)
    (hint : ∀ e ∈ es, e.dir = .forward → ∀ b, extractEndpoint e.pkt .forward = some b →
      b.addr ∉ cfg.extAddrs) (hseen : Recorded seen) (hm : MeetsAlong env cfg seen s es) :
    SoundAlong env cfg seen s es := by
  induction es generalizing seen s with
  | nil => exact h.sound
  | cons e es ih =>
    have hint' : ∀ e' ∈ es, e'.dir = .forward → ∀ b,
        extractEndpoint e'.pkt .forward = some b → b.addr ∉ cfg.extAddrs :=
      fun e' he' => hint e' (List.mem_cons_of_mem _ he')
    cases hd : e.dir with
    | forward =>
      obtain ⟨out, s', hout, hgood, hbefore⟩ :=
        h.forward hcfg (hint e (List.mem_cons_self ..) hd) e.now (hm.1.1 hd)
      rw [← hd] at hout
      refine ⟨h.sound, out, s', hout, fun hr => ?_, ?_⟩
      · rw [hd] at hr
        cases hr
      · exact ih hgood hint' (hseen.remember hd hbefore) (hm.2 out s' hout)
    | reverse =>
      obtain ⟨out, hout, hr⟩ := h.reverse hseen hd hm.1
      have hrem : remember e out seen = seen := by
        unfold remember
        rw [hd]
      have hrest := hm.2 out s hout
      refine ⟨h.sound, out, s, hout, hr, ?_⟩
      rw [hrem] at hrest ⊢
      exact ih h hint' hseen hrest

theorem good_start (env : Env σ) (rng : σ) : Good env (start rng).map := by
  have hrep : CuckooMap.Rep env.hashing (start rng).map := CuckooMap.rep_new (k := 2) (by decide)
  have hnone : ∀ k, lookup env (start rng).map k = none := fun k =>
    CuckooMap.look_new env.hashing _ _ k hrep
  refine ⟨hrep, ?_, ?_⟩
  · intro k v hk
    rw [hnone] at hk
    cases hk
  · intro k v hk
    rw [hnone] at hk
    cases hk

theorem extAddrs_ne_nil {parse : String → Option (BitVec 32)}
    {arg : List NatArg.ExternalAddress} (hinit : init parse arg = .ok cfg) :
    cfg.extAddrs ≠ [] := by
  obtain ⟨-, addrs, -, hne, rfl⟩ := init_eq_ok hinit
  intro hnil
  apply hne
  have := (List.perm_insertionSort addrLe addrs).length_eq
  simp only at hnil
  rw [hnil] at this
  exact List.eq_nil_of_length_eq_zero this.symm

/-- For every configuration that `Init` accepts and every sequence of packets whose internal sources
are not external addresses, if there is room for both entries before every packet that needs a new
mapping, and no reply is an ICMP timestamp reply: the table is one of pairs in every state, no
endpoint is shared, and replies go to where the packet came from. -/
theorem mappings_sound {parse : String → Option (BitVec 32)}
    {arg : List NatArg.ExternalAddress} (hinit : init parse arg = .ok cfg) (env : Env σ) (rng : σ)
    (es : List Event) (hint : ∀ e ∈ es, e.dir = .forward → ∀ b,
      extractEndpoint e.pkt .forward = some b → b.addr ∉ cfg.extAddrs)
    (hm : MeetsAlong env cfg [] (start rng) es) :
    SoundAlong env cfg [] (start rng) es :=
  (good_start env rng).soundAlong (extAddrs_ne_nil hinit) es hint (fun _ _ hmem => by cases hmem) hm

/-! ## A run that loses half of a mapping -/

/-- `Endpoint::Hash` on x86: address, port and protocol from the top. -/
def endpointHash (e : Endpoint) : BitVec 64 :=
  (crc32cU64 (e.addr ++ e.port ++ e.protocol) 0).setWidth 64

/-- An environment whose random numbers are all zero. -/
def crcEnv : Env Unit where
  hasher := endpointHash
  crc addr := addr.toNat
  getRange _ s := (0, s)
  getRange_lt _ _ h := h
  garbage := 0

/-- An outbound TCP packet. -/
def tcpFrom (addr : BitVec 32) (port : BitVec 16) : Event :=
  ⟨.forward, 1000#64,
    store16 (store32 (fun i => if i = 0 then 0x45#8 else if i = 9 then kTcp else 0#8) srcOffset
      addr) 20 port⟩

/-- One external address, 192.168.1.1, with the ports from 2000 up to 60000. -/
def oneAddress : List NatArg.ExternalAddress := [⟨"192.168.1.1", [⟨2000#32, 60000#32, false⟩]⟩]

def oneAddressConfig : Config := ⟨[0x0101A8C0#32], [[⟨2000#16, 60000#16, false⟩]]⟩

def parseOne (_ : String) : Option (BitVec 32) := some 0x0101A8C0#32

/-- Connections from 10.0.0.1:1549, 10.165.17.0:53832, 10.239.50.2:31427, 10.74.35.3:44678 and
10.73.76.7:42894. The hashes of these five are the same. -/
def colliding : List Event :=
  [tcpFrom 0x0100000A#32 0x0D06#16, tcpFrom 0x0011A50A#32 0x48D2#16,
    tcpFrom 0x0232EF0A#32 0xC37A#16, tcpFrom 0x03234A0A#32 0x86AE#16,
    tcpFrom 0x074C490A#32 0x8EA7#16]

/-- The first of them, and the answer of the server. -/
def answered : List Event :=
  [tcpFrom 0x0100000A#32 0x0D06#16, ⟨.reverse, 2000#64,
    store16 (store32 (fun i => if i = 0 then 0x45#8 else if i = 9 then kTcp else 0#8) dstOffset
      0x0101A8C0#32) 22 (bswap16 2000#16)⟩]

theorem answered_meets : MeetsAlong crcEnv oneAddressConfig [] (start ()) answered := by
  have hnone : (start ()).map.contents = [] := CuckooMap.contents_new _ _
  refine ⟨⟨fun _ b _ _ ext _ _ _ => .inr fun n => ?_, fun hd => ?_⟩, fun out s' _ => ?_⟩
  · rw [hnone]
    exact Nat.le_trans List.countP_le_length (show 2 ≤ 4 by decide)
  · cases hd
  · refine ⟨⟨fun hd => ?_, fun _ p o _ _ _ => ?_⟩, fun _ _ _ => trivial⟩
    · cases hd
    · rintro ⟨hp, -⟩
      revert hp
      decide

theorem answered_sound :
    init parseOne oneAddress = .ok oneAddressConfig ∧
      SoundAlong crcEnv oneAddressConfig [] (start ()) answered :=
  ⟨rfl, mappings_sound (show init parseOne oneAddress = .ok oneAddressConfig from rfl) crcEnv
    () _ (by decide) answered_meets⟩

def fifth : Endpoint := ⟨0x074C490A#32, 0x8EA7#16, kTcp.setWidth 16⟩

def fifthExternal : Endpoint := ⟨0x0101A8C0#32, bswap16 2004#16, kTcp.setWidth 16⟩

/-- The bucket is full when the entry of the fifth connection is inserted, after the one back. -/
theorem colliding_lookups :
    (run crcEnv oneAddressConfig (start ()) colliding).map
        (fun s => (lookup crcEnv s.map fifthExternal, lookup crcEnv s.map fifth)) =
      some (some ⟨fifth, 0⟩, none) := by
  decide +kernel

theorem colliding_unsound :
    ¬ SoundAlong crcEnv oneAddressConfig [] (start ()) colliding := by
  intro h
  obtain ⟨s, hs, hsound⟩ := h.run
  have hl := colliding_lookups
  rw [hs, Option.map_some, Option.some.injEq, Prod.mk.injEq] at hl
  obtain ⟨v, hv, -⟩ := hsound.paired _ _ hl.1
  rw [hl.2] at hv
  cases hv

end Bess.Translate
