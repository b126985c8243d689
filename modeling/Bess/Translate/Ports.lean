import Bess.Translate.Mappings

/-!
# Ports that the NAT gives out

Every external endpoint should have a port of a range that was configured for its address and that
is not suspended, and for TCP and UDP a privileged port exactly if the internal port is one. Three
things get in the way: the addresses are sorted and their ranges are not; the window for
unprivileged ports has one port more than the range; and a range may start at port 0.
-/

namespace Bess.Translate

open Bess.ByteMem Bess.Headers Bess.Cuckoo

variable {σ : Type} {env : Env σ} {map map' : HashTable} {src ext e : Endpoint} {now : BitVec 64}
  {min range startPort port : BitVec 16} {r : PortRange}

/-! ## Probing -/

def Window.Has : Window → BitVec 16 → Prop
  | .use min range, port => min.toNat ≤ port.toNat ∧ port.toNat < min.toNat + range.toNat
  | .stop, _ => False
  | .skip, _ => False

theorem toNat_succ {p : BitVec 16} (h : p.toNat + 1 < 2 ^ 16) : (p + 1).toNat = p.toNat + 1 := by
  bv_omega

theorem nextPort_has (h : (Window.use min range).Has port) :
    (Window.use min range).Has (nextPort min range port) := by
  unfold Window.Has at *
  unfold nextPort
  simp only
  split
  · omega
  · rename_i hn
    rw [not_or, not_le] at hn
    refine ⟨?_, hn.2⟩
    by_cases hlast : port.toNat + 1 < 2 ^ 16
    · rw [toNat_succ hlast]
      omega
    · exact absurd (by bv_omega) hn.1

/-- The port that is probed after `k` others. -/
def nthPort (min range port : BitVec 16) (k : Nat) : BitVec 16 := (nextPort min range)^[k] port

theorem nthPort_succ (k : Nat) :
    nthPort min range port (k + 1) = nthPort min range (nextPort min range port) k := rfl

theorem nthPort_has (h : (Window.use min range).Has port) (k : Nat) :
    (Window.use min range).Has (nthPort min range port k) := by
  induction k generalizing port with
  | zero => exact h
  | succ k ih => exact ih (nextPort_has h)

theorem toNat_nthPort {k : Nat} (hw : min.toNat + range.toNat ≤ 2 ^ 16)
    (hk : port.toNat + k < min.toNat + range.toNat) :
    (nthPort min range port k).toNat = port.toNat + k := by
  induction k generalizing port with
  | zero => rfl
  | succ k ih =>
    have hadd : (port + 1).toNat = port.toNat + 1 := toNat_succ (by omega)
    have hnext : nextPort min range port = port + 1 := by
      unfold nextPort
      simp only
      rw [if_neg]
      rintro (h0 | hge)
      · bv_omega
      · omega
    rw [nthPort_succ, hnext, ih (by omega), hadd]
    omega

theorem probe_found {n : Nat}
    (h : probe env map ext now min range startPort n port = some (some (e, map'))) :
    ∃ k < n, e = { ext with port := bswap16 (nthPort min range port k) } ∧
      claim env map e now = some (some map') ∧ ∀ j < k,
        claim env map { ext with port := bswap16 (nthPort min range port j) } now = some none := by
  induction n generalizing ext port with
  | zero => cases h
  | succ n ih =>
    unfold probe at h
    simp only [Option.bind_eq_bind, Option.bind_eq_some_iff] at h
    obtain ⟨c, hc, h⟩ := h
    cases c with
    | some m =>
      simp only [Option.some.injEq, Prod.mk.injEq] at h
      obtain ⟨rfl, rfl⟩ := h
      exact ⟨0, by omega, rfl, hc, fun j hj => absurd hj (by omega)⟩
    | none =>
      simp only at h
      split at h
      · cases h
      · obtain ⟨k, hk, he, hclaim, hall⟩ := ih h
        refine ⟨k + 1, by omega, he, hclaim, fun j hj => ?_⟩
        cases j with
        | zero => exact hc
        | succ j => exact hall j (by omega)

/-! ## Windows -/

theorem bswap16_bswap16 (p : BitVec 16) : bswap16 (bswap16 p) = p := by
  unfold bswap16
  ext i hi
  simp only [BitVec.getElem_rotateLeft]
  grind

theorem and_not_eq_zero_iff {w : Nat} (p m : BitVec w) : p &&& ~~~m = 0 ↔ p &&& m = p := by
  constructor
  · intro h
    ext i hi
    have := congrArg (fun x => x[i]) h
    simp at this ⊢
    exact this
  · intro h
    rw [← h]
    ext i hi
    simp

theorem and_not_1023_eq_zero_iff (p : BitVec 16) : p &&& ~~~1023#16 = 0 ↔ p.toNat < 1024 := by
  have hm : (p &&& 1023#16).toNat = p.toNat % 1024 := by
    rw [BitVec.toNat_and]
    exact Nat.and_two_pow_sub_one_eq_mod p.toNat 10
  rw [and_not_eq_zero_iff, BitVec.toNat_eq, hm]
  omega

/-- The host-order port of an endpoint. -/
def Endpoint.number (e : Endpoint) : Nat := (bswap16 e.port).toNat

def Endpoint.isIcmp (e : Endpoint) : Prop := e.protocol = kIcmp.setWidth 16

/-- What is left of a range for an internal endpoint. -/
theorem window_use (hr : r.rangeBegin.toNat < r.rangeEnd.toNat)
    (h : window src r = .use min range) :
    0 < range.toNat ∧ r.rangeBegin.toNat ≤ min.toNat ∧
      (src.isIcmp ∧ min.toNat + range.toNat = r.rangeEnd.toNat ∨
        ¬ src.isIcmp ∧ 1024 ≤ src.number ∧ 1024 ≤ min.toNat ∧ 1024 < r.rangeEnd.toNat ∧
          min.toNat + range.toNat = r.rangeEnd.toNat + 1 ∨
        ¬ src.isIcmp ∧ src.number ≠ 0 ∧ src.number < 1024 ∧ min = r.rangeBegin ∧
          min.toNat + range.toNat ≤ r.rangeEnd.toNat ∧ min.toNat + range.toNat ≤ 1023) := by
  have hend := r.rangeEnd.isLt
  unfold window at h
  simp only at h
  split at h
  · rename_i hi
    cases h
    have : (r.rangeEnd - r.rangeBegin).toNat = r.rangeEnd.toNat - r.rangeBegin.toNat := by bv_omega
    exact ⟨by omega, le_rfl, .inl ⟨hi, by omega⟩⟩
  · rename_i hi
    split at h
    · cases h
    · rename_i hz
      have hz' : src.number ≠ 0 := fun h0 => hz (BitVec.eq_of_toNat_eq h0)
      split at h
      · rename_i hbig
        rw [Ne, and_not_1023_eq_zero_iff, not_lt] at hbig
        split at h
        · cases h
        · rename_i hlow
          rw [BitVec.not_le, BitVec.lt_def] at hlow
          obtain ⟨m, hm⟩ : ∃ m, m = if 1024#16 < r.rangeBegin then r.rangeBegin else 1024#16 :=
            ⟨_, rfl⟩
          rw [← hm] at h
          cases h
          have hmin : 1024 ≤ min.toNat ∧ r.rangeBegin.toNat ≤ min.toNat ∧
              min.toNat < r.rangeEnd.toNat := by
            split at hm
            · bv_omega
            · bv_omega
          have : (r.rangeEnd - min + 1).toNat = r.rangeEnd.toNat - min.toNat + 1 := by bv_omega
          exact ⟨by omega, hmin.2.1, .inr (.inl ⟨hi, hbig, hmin.1, by bv_omega, by omega⟩)⟩
      · rename_i hsmall
        rw [Ne, not_not, and_not_1023_eq_zero_iff] at hsmall
        split at h
        · cases h
        · rename_i hlow
          rw [BitVec.not_le, BitVec.lt_def] at hlow
          obtain ⟨m, hm⟩ : ∃ m, m = if r.rangeEnd < 1023#16 then r.rangeEnd else 1023#16 :=
            ⟨_, rfl⟩
          rw [← hm] at h
          cases h
          have hstop : r.rangeBegin.toNat < m.toNat ∧ m.toNat ≤ r.rangeEnd.toNat ∧
              m.toNat ≤ 1023 := by
            split at hm
            · bv_omega
            · bv_omega
          have : (m - r.rangeBegin).toNat = m.toNat - r.rangeBegin.toNat := by bv_omega
          exact ⟨by omega, le_rfl, .inr (.inr ⟨hi, hz', hsmall, rfl, by omega, by omega⟩)⟩

theorem window_start {d : Nat} (hw : min.toNat + range.toNat ≤ 2 ^ 16) (hd : d < range.toNat) :
    (min + BitVec.ofNat 16 d).toNat = min.toNat + d := by
  have := range.isLt
  rw [BitVec.toNat_add, BitVec.toNat_ofNat]
  omega

/-! ## Ports that are configured -/

section Configured

variable (parse : String → Option (BitVec 32)) (arg : List NatArg.ExternalAddress)

/-- The port is in a range that was given for the address and is not suspended. -/
def Configured (addr : BitVec 32) (port : BitVec 16) : Prop :=
  ∃ a ∈ arg, parse a.extAddr = some addr ∧ ∃ r ∈ a.ranges,
    r.suspended = false ∧ r.rangeBegin ≤ port ∧ port < r.rangeEnd

/-- `ext` may be given out for `src`. -/
structure RightPort (src ext : Endpoint) : Prop where
  configured : Configured parse arg ext.addr (bswap16 ext.port)
  nonzero : ¬ src.isIcmp → ext.number ≠ 0
  privileged : ¬ src.isIcmp → (ext.number < 1024 ↔ src.number < 1024)

variable (env) (map) (src ext) (now)

/-- `ext` is free, or its mapping has expired. -/
def available : Bool := (claim env map ext now).any Option.isSome

/-- Probing from `startPort` does not give out the port after the last one of the range, unless it is
configured too. -/
def AvoidsEnd (r : PortRange) (startPort : BitVec 16) : Prop :=
  Configured parse arg ext.addr r.rangeEnd ∨
    startPort.toNat + kMaxTrials ≤ r.rangeEnd.toNat ∨
    available env map { ext with port := bswap16 r.rangeEnd } now = false ∨
    ∃ q, startPort ≤ q ∧ q < r.rangeEnd ∧
      available env map { ext with port := bswap16 q } now = true

/-- The range is one of the address it is used for, and the ports at its ends do no harm. -/
structure RangeFits (r : PortRange) (startPort : BitVec 16) : Prop where
  own : ∀ port, r.rangeBegin ≤ port → port < r.rangeEnd → Configured parse arg ext.addr port
  last : ¬ src.isIcmp → 1024 ≤ src.number → AvoidsEnd env map ext now parse arg r startPort
  first : ¬ src.isIcmp → src.number < 1024 → r.rangeBegin ≠ 0

/-- The ranges that are tried for `src` all fit, each with the random number drawn for it. -/
def RangesFit : List PortRange → σ → Prop
  | [], _ => True
  | r :: rs, rng =>
    if r.suspended then RangesFit rs rng
    else match window src r with
      | .stop => True
      | .skip => RangesFit rs rng
      | .use min range =>
        RangeFits env map src ext now parse arg r
            (min + BitVec.ofNat 16 (env.getRange range.toNat rng).1) ∧
          RangesFit rs (env.getRange range.toNat rng).2

end Configured

variable {parse : String → Option (BitVec 32)} {arg : List NatArg.ExternalAddress}

/-- The port after the last one is given out only if it is free and no port before it, from the
start on, is. -/
theorem not_avoidsEnd {k : Nat} (hw : min.toNat + range.toNat = r.rangeEnd.toNat + 1)
    (hs : startPort.toNat < min.toNat + range.toNat) (hk : k < kMaxTrials)
    (he : nthPort min range startPort k = r.rangeEnd)
    (hclaim : claim env map { ext with port := bswap16 r.rangeEnd } now = some (some map'))
    (hall : ∀ j < k, claim env map { ext with port := bswap16 (nthPort min range startPort j) } now =
      some none)
    (havoid : AvoidsEnd env map ext now parse arg r startPort) :
    Configured parse arg ext.addr r.rangeEnd := by
  have hend := r.rangeEnd.isLt
  have hrow : ∀ j, startPort.toNat + j < min.toNat + range.toNat →
      (nthPort min range startPort j).toNat = startPort.toNat + j :=
    fun j hj => toNat_nthPort (by omega) hj
  have hk_eq : startPort.toNat + k = r.rangeEnd.toNat := by
    rcases Nat.lt_or_ge r.rangeEnd.toNat (startPort.toNat + k) with hlt | hge
    · -- the end was probed before
      have hbefore := hall (r.rangeEnd.toNat - startPort.toNat) (by omega)
      have hsame : nthPort min range startPort (r.rangeEnd.toNat - startPort.toNat) = r.rangeEnd :=
        BitVec.eq_of_toNat_eq (by rw [hrow _ (by omega)]; omega)
      rw [hsame, hclaim] at hbefore
      cases hbefore
    · rw [← hrow k (by omega), he]
  rcases havoid with hc | hfar | htaken | ⟨q, hle, hlt, hq⟩
  · exact hc
  · omega
  · unfold available at htaken
    rw [hclaim] at htaken
    cases htaken
  · have hle' : startPort.toNat ≤ q.toNat := hle
    have hlt' : q.toNat < r.rangeEnd.toNat := hlt
    have hbefore := hall (q.toNat - startPort.toNat) (by omega)
    have hsame : nthPort min range startPort (q.toNat - startPort.toNat) = q :=
      BitVec.eq_of_toNat_eq (by rw [hrow _ (by omega)]; omega)
    rw [hsame] at hbefore
    unfold available at hq
    rw [hbefore] at hq
    cases hq

theorem range_right {d : Nat} (hr : r.rangeBegin.toNat < r.rangeEnd.toNat)
    (hwin : window src r = .use min range) (hd : d < range.toNat)
    (hfit : RangeFits env map src ext now parse arg r (min + BitVec.ofNat 16 d))
    (h : probe env map ext now min range (min + BitVec.ofNat 16 d) kMaxTrials
      (min + BitVec.ofNat 16 d) = some (some (e, map'))) : RightPort parse arg src e := by
  obtain ⟨hpos, hmin, hcases⟩ := window_use hr hwin
  have hend := r.rangeEnd.isLt
  have hwide : min.toNat + range.toNat ≤ 2 ^ 16 := by omega
  have hstart := window_start hwide hd
  obtain ⟨k, hk, rfl, hclaim, hall⟩ := probe_found h
  obtain ⟨p, hp⟩ : ∃ p, p = nthPort min range (min + BitVec.ofNat 16 d) k := ⟨_, rfl⟩
  have hhas : (Window.use min range).Has p := by
    rw [hp]
    exact nthPort_has ⟨by omega, by omega⟩ k
  obtain ⟨hlow, hhigh⟩ := hhas
  rw [← hp] at hclaim ⊢
  have hnumber : ({ ext with port := bswap16 p } : Endpoint).number = p.toNat := by
    rw [Endpoint.number, bswap16_bswap16]
  have hinside : p.toNat < r.rangeEnd.toNat →
      Configured parse arg ext.addr (bswap16 (bswap16 p)) := fun hlt => by
    rw [bswap16_bswap16]
    exact hfit.own p (by rw [BitVec.le_def]; omega) hlt
  rcases hcases with ⟨hi, hw⟩ | ⟨hi, hbig, hmin', hend', hw⟩ | ⟨hi, hz, hsmall, hbegin, hw, hw'⟩
  · exact ⟨hinside (by omega), fun hn => absurd hi hn, fun hn => absurd hi hn⟩
  · refine ⟨?_, fun _ => by omega, fun _ => by omega⟩
    rcases Nat.lt_or_ge p.toNat r.rangeEnd.toNat with hlt | hge
    · exact hinside hlt
    · have hpe : p = r.rangeEnd := BitVec.eq_of_toNat_eq (by omega)
      rw [bswap16_bswap16, hpe]
      rw [hpe] at hclaim
      exact not_avoidsEnd hw (by omega) hk (hp.symm.trans hpe) hclaim hall (hfit.last hi hbig)
  · refine ⟨hinside (by omega), fun _ hz' => ?_, fun _ => by omega⟩
    refine hfit.first hi hsmall (BitVec.eq_of_toNat_eq ?_)
    rw [← hbegin]
    have : (0 : BitVec 16).toNat = 0 := rfl
    omega

theorem search_right {rs : List PortRange} {rng rng' : σ}
    (hrs : ∀ r ∈ rs, r.rangeBegin.toNat < r.rangeEnd.toNat)
    (hfit : RangesFit env map src ext now parse arg rs rng)
    (h : search env map src ext now rs rng = some (some (e, map'), rng')) :
    RightPort parse arg src e := by
  induction rs generalizing rng with
  | nil => cases h
  | cons r rs ih =>
    have hr := hrs r (List.mem_cons_self ..)
    have hrs' : ∀ r ∈ rs, r.rangeBegin.toNat < r.rangeEnd.toNat :=
      fun r' hr' => hrs r' (List.mem_cons_of_mem _ hr')
    unfold search at h
    unfold RangesFit at hfit
    split at h
    · rename_i hsusp
      rw [if_pos hsusp] at hfit
      exact ih hrs' hfit h
    · rename_i hsusp
      rw [if_neg hsusp] at hfit
      cases hwin : window src r with
      | stop =>
        rw [hwin] at h
        cases h
      | skip =>
        rw [hwin] at h hfit
        exact ih hrs' hfit h
      | use min range =>
        rw [hwin] at h hfit
        obtain ⟨hhere, hrest⟩ := hfit
        simp only [Option.bind_eq_bind, Option.bind_eq_some_iff] at h
        obtain ⟨c, hc, h⟩ := h
        cases c with
        | none => exact ih hrs' hrest h
        | some found =>
          cases h
          exact range_right hr hwin
            (env.getRange_lt _ _ (window_use hr hwin).1) hhere hc

/-! ## Runs -/

variable {cfg : Config} {s : State σ}

/-- For the packet of this event a mapping from `src` to `ext` is made. -/
def Allocates (env : Env σ) (cfg : Config) (s : State σ) (ev : Event) (src ext : Endpoint) : Prop :=
  ev.dir = .forward ∧ extractEndpoint ev.pkt .forward = some src ∧ lookup env s.map src = none ∧
    ∃ map rng, findExternal env cfg s src ev.now = some (some (ext, map), rng)

/-- All endpoints that are given out in the run are right. -/
def PortsRightAlong (parse : String → Option (BitVec 32)) (arg : List NatArg.ExternalAddress)
    (env : Env σ) (cfg : Config) : State σ → List Event → Prop
  | _, [] => True
  | s, ev :: es => (∀ src ext, Allocates env cfg s ev src ext → RightPort parse arg src ext) ∧
    ∀ out s', processPacket env cfg ev.dir ev.now ev.pkt s = some (out, s') →
      PortsRightAlong parse arg env cfg s' es

/-- The ranges that are kept for the external address of `src` fit in this state. -/
def PortsFit (parse : String → Option (BitVec 32)) (arg : List NatArg.ExternalAddress)
    (env : Env σ) (cfg : Config) (s : State σ) (src : Endpoint) (now : BitVec 64) : Prop :=
  RangesFit env s.map src ⟨cfg.extAddrs.getD (cfg.index env src) 0, 0, src.protocol⟩ now parse arg
    (cfg.portRanges.getD (cfg.index env src) []) s.rng

/-- In every step that needs a new mapping the ranges fit. -/
def PortsFitAlong (parse : String → Option (BitVec 32)) (arg : List NatArg.ExternalAddress)
    (env : Env σ) (cfg : Config) : State σ → List Event → Prop
  | _, [] => True
  | s, ev :: es => (ev.dir = .forward → ∀ src, extractEndpoint ev.pkt .forward = some src →
      lookup env s.map src = none → PortsFit parse arg env cfg s src ev.now) ∧
    ∀ out s', processPacket env cfg ev.dir ev.now ev.pkt s = some (out, s') →
      PortsFitAlong parse arg env cfg s' es

theorem checkRanges_lt (h : checkRanges arg = .ok ()) :
    ∀ a ∈ arg, ∀ r ∈ a.ranges, r.rangeBegin.toNat < r.rangeEnd.toNat := by
  induction arg with
  | nil => intro a ha; cases ha
  | cons b bs ih =>
    unfold checkRanges at h
    split at h
    · cases h
    · rename_i hok
      intro a ha r hr
      rcases List.mem_cons.mp ha with rfl | ha
      · unfold NatArg.ExternalAddress.ranges at hr
        split at hr
        · rw [List.mem_singleton.mp hr]
          decide
        · obtain ⟨r', hr', rfl⟩ := List.mem_map.mp hr
          have hmal : r'.malformed = false := by
            rw [Bool.not_eq_true, List.any_eq_false] at hok
            simpa using hok r' hr'
          unfold NatArg.PortRange.malformed at hmal
          rw [decide_eq_false_iff_not] at hmal
          simp only [NatArg.PortRange.narrow, BitVec.toNat_setWidth]
          bv_omega
      · exact ih h a ha r hr

theorem portRanges_lt (hinit : init parse arg = .ok cfg) (i : Nat) :
    ∀ r ∈ cfg.portRanges.getD i [], r.rangeBegin.toNat < r.rangeEnd.toNat := by
  obtain ⟨hcheck, addrs, -, -, rfl⟩ := init_eq_ok hinit
  intro r hr
  rcases Nat.lt_or_ge i arg.length with hi | hi
  · simp only [List.getD_eq_getElem?_getD, List.getElem?_map, List.getElem?_eq_getElem hi,
      Option.map_some, Option.getD_some] at hr
    exact checkRanges_lt hcheck _ (List.getElem_mem hi) r hr
  · simp only [List.getD_eq_getElem?_getD, List.getElem?_map, List.getElem?_eq_none hi,
      Option.map_none, Option.getD_none] at hr
    cases hr

theorem Allocates.right {ev : Event} (hinit : init parse arg = .ok cfg)
    (hfit : PortsFit parse arg env cfg s src ev.now) (h : Allocates env cfg s ev src ext) :
    RightPort parse arg src ext := by
  obtain ⟨-, -, -, map, rng, hfind⟩ := h
  exact search_right (portRanges_lt hinit _) hfit hfind

/-- In every run of a configuration that `Init` accepts, in which the ranges fit in every step that
needs a new mapping, all endpoints that are given out are right. -/
theorem ports_right_along {parse : String → Option (BitVec 32)} {arg : List NatArg.ExternalAddress}
    {cfg : Config} (hinit : init parse arg = .ok cfg) (env : Env σ) (rng : σ) (es : List Event)
    (hfit : PortsFitAlong parse arg env cfg (start rng) es) :
    PortsRightAlong parse arg env cfg (start rng) es := by
  generalize start rng = s at hfit ⊢
  induction es generalizing s with
  | nil => trivial
  | cons ev es ih =>
    refine ⟨?_, fun out s' hp => ih s' (hfit.2 out s' hp)⟩
    intro src ext hall
    exact hall.right hinit (hfit.1 hall.1 src hall.2.1 hall.2.2.1)

/-! ## The port after the last one -/

def firstEvent : Event := tcpFrom 0x0100000A#32 0x0D06#16

def firstSource : Endpoint := ⟨0x0100000A#32, 0x0D06#16, kTcp.setWidth 16⟩

theorem first_fits : PortsFitAlong parseOne oneAddress crcEnv oneAddressConfig (start ())
    [firstEvent] := by
  refine ⟨fun _ src hsrc _ => ?_, fun _ _ _ => trivial⟩
  have : src = firstSource := by
    have hx : extractEndpoint firstEvent.pkt .forward = some firstSource := by decide
    rw [hx] at hsrc
    cases hsrc
    rfl
  subst this
  refine ⟨⟨?_, ?_, ?_⟩, trivial⟩
  · intro port hlow hhigh
    exact ⟨_, List.mem_singleton.mpr rfl, rfl, _, List.mem_singleton.mpr rfl, rfl, hlow, hhigh⟩
  · intro _ _
    exact .inr (.inr (.inr ⟨2000#16, by decide, by decide, by decide +kernel⟩))
  · intro _ h
    exact absurd h (by decide)

theorem first_right :
    init parseOne oneAddress = .ok oneAddressConfig ∧
      PortsRightAlong parseOne oneAddress crcEnv oneAddressConfig (start ()) [firstEvent] :=
  ⟨rfl, ports_right_along rfl crcEnv () _ first_fits⟩

/-- An environment that always draws the last number of a range. -/
def lastEnv : Env Unit where
  hasher := endpointHash
  crc addr := addr.toNat
  getRange range s := (range - 1, s)
  getRange_lt range _ h := by simp only; omega
  garbage := 0

/-- The connection gets port 60000, which is not in the range from 2000 up to 60000. -/
theorem end_allocated :
    ¬ PortsRightAlong parseOne oneAddress lastEnv oneAddressConfig (start ()) [firstEvent] := by
  intro h
  have hfound : (findExternal lastEnv oneAddressConfig (start ()) firstSource firstEvent.now).map
      (fun r => r.1.map Prod.fst) =
        some (some ⟨0x0101A8C0#32, bswap16 60000#16, kTcp.setWidth 16⟩) := by
    decide +kernel
  obtain ⟨⟨found, rng⟩, hfind, hmap⟩ := Option.map_eq_some_iff.mp hfound
  obtain ⟨⟨ext, map⟩, rfl, rfl⟩ := Option.map_eq_some_iff.mp hmap
  have hall : Allocates lastEnv oneAddressConfig (start ()) firstEvent firstSource _ :=
    ⟨rfl, by decide, by decide +kernel, map, rng, hfind⟩
  obtain ⟨a, ha, -, r, hr, -, -, hlt⟩ := (h.1 _ _ hall).configured
  cases List.mem_singleton.mp ha
  cases List.mem_singleton.mp hr
  exact absurd hlt (by decide)

end Bess.Translate
