import Bess.Translate.StaticNat
import Bess.Utils.Ip

/-!
# The argument of a static translation, written and read back

`GetInitialArg` of `modules/static_nat.cc` writes each pair as two ranges of addresses. `Init` takes
the last address of a range to be inside of it, and `GetInitialArg` writes the first address behind
it. A module that is initialised with the result covers one more address with each pair, and is not
accepted if that address is the broadcast address.
-/

namespace Bess.Translate.StaticNat

open Bess.ByteMem Bess.Modules Bess.Ip

def initialRange (start size : BitVec 32) : AddressRange :=
  ⟨toIpv4Address start, toIpv4Address (start + size)⟩

def getInitialArg (pairs : List AddressPair) : List AddressRangePair :=
  pairs.map fun p => ⟨initialRange p.intAddr p.size, initialRange p.extAddr p.size⟩

/-- A fresh module accepts the argument and translates the address of every packet alike. -/
def Restores (pairs : List AddressPair) : Prop :=
  ∃ pairs', init parseIpv4Address (getInitialArg pairs) = .ok pairs' ∧
    ∀ dir m, addrOf dir (staticNat pairs' dir m) = addrOf dir (staticNat pairs dir m)

/-- The first address behind a range. -/
def behind (p : AddressPair) (dir : Direction) : BitVec 32 := p.start dir + p.size

/-- The pair with one more address. -/
def widened (p : AddressPair) : AddressPair := { p with size := p.size + 1 }

/-- The address behind a range is no broadcast address, and it makes no difference whether it is in
the range. -/
def Unaffected (pairs : List AddressPair) : Prop :=
  ∀ p ∈ pairs, ∀ dir, behind p dir ≠ 0xFFFFFFFF#32 ∧
    translate (pairs.map widened) dir (behind p dir) = translate pairs dir (behind p dir)

variable {pairs : List AddressPair} {p : AddressPair} {dir : Direction} {addr : BitVec 32}

/-! ## What is read back -/

theorem Proper.behind_lt (h : Proper p) (dir : Direction) :
    (p.start dir).toNat + p.size.toNat < 2 ^ 32 := by
  cases dir
  · exact h.int_lt
  · exact h.ext_lt

theorem parseRange_initialRange (which : String) {start size : BitVec 32}
    (h : start.toNat + size.toNat < 2 ^ 32) :
    parseRange parseIpv4Address which (initialRange start size) = .ok (start, start + size) := by
  have hle : ¬ start + size < start := by
    rw [BitVec.lt_def, BitVec.toNat_add_of_lt h]
    omega
  simp only [parseRange, initialRange, parseAddress, parse_toIpv4Address]
  exact if_neg hle

theorem initPair_initialRange (h : Proper p) :
    initPair parseIpv4Address ⟨initialRange p.intAddr p.size, initialRange p.extAddr p.size⟩ =
      if behind p .forward = 0xFFFFFFFF#32 ∨ behind p .reverse = 0xFFFFFFFF#32 then
        .error (.msg EINVAL "cannot map broadcast address")
      else .ok (widened p) := by
  have hsize (a : BitVec 32) : a + p.size - a = p.size := add_sub_cancel_left a p.size
  simp only [initPair, parseRange_initialRange _ h.int_lt, parseRange_initialRange _ h.ext_lt]
  simp only [bind, Except.bind, hsize, ne_eq, not_true_eq_false, if_false, behind, widened,
    AddressPair.start]
  rfl

/-- No range of these pairs ends right before the broadcast address. -/
def NoBroadcast (pairs : List AddressPair) : Prop :=
  ∀ p ∈ pairs, ∀ dir, behind p dir ≠ 0xFFFFFFFF#32

theorem init_getInitialArg (hp : ∀ p ∈ pairs, Proper p) (hb : NoBroadcast pairs) :
    init parseIpv4Address (getInitialArg pairs) = .ok (pairs.map widened) := by
  induction pairs with
  | nil => rfl
  | cons p pairs ih =>
    obtain ⟨hp, hps⟩ := List.forall_mem_cons.mp hp
    obtain ⟨hb, hbs⟩ := List.forall_mem_cons.mp hb
    have hrest := ih hps hbs
    simp only [getInitialArg] at hrest
    simp only [getInitialArg, List.map_cons, init, initPair_initialRange hp, hb .forward,
      hb .reverse, or_self, if_false, hrest]
    rfl

theorem noBroadcast_of_init (hp : ∀ p ∈ pairs, Proper p) {pairs' : List AddressPair}
    (h : init parseIpv4Address (getInitialArg pairs) = .ok pairs') : NoBroadcast pairs := by
  induction pairs generalizing pairs' with
  | nil => exact fun _ hmem => absurd hmem List.not_mem_nil
  | cons p pairs ih =>
    obtain ⟨hp, hps⟩ := List.forall_mem_cons.mp hp
    obtain ⟨q, hq, h⟩ := bind_ok h
    obtain ⟨rest, hrest, -⟩ := bind_ok h
    rw [initPair_initialRange hp] at hq
    refine List.forall_mem_cons.mpr ⟨fun dir hdir => ?_, ih hps hrest⟩
    rw [if_pos] at hq
    · cases hq
    · cases dir
      · exact .inl hdir
      · exact .inr hdir

/-! ## What is translated differently -/

theorem covers_widened (h : Proper p) (hb : behind p dir ≠ 0xFFFFFFFF#32)
    (hne : addr ≠ behind p dir) : (widened p).covers dir addr = p.covers dir addr := by
  have hlt := h.behind_lt dir
  have hstart : (widened p).start dir = p.start dir := by cases dir <;> rfl
  have hsize : (widened p).size = p.size + 1 := rfl
  unfold AddressPair.covers
  rw [hstart, hsize]
  simp only [behind] at hb hne
  congr 1
  generalize p.start dir = start at *
  apply propext
  constructor <;> rintro ⟨h1, h2⟩ <;> refine ⟨h1, ?_⟩ <;> bv_omega

theorem diff_widened (p : AddressPair) (dir : Direction) : (widened p).diff dir = p.diff dir := by
  cases dir <;> rfl

theorem translate_widened (hp : ∀ p ∈ pairs, Proper p) (hb : NoBroadcast pairs)
    (hne : ∀ p ∈ pairs, addr ≠ behind p dir) :
    translate (pairs.map widened) dir addr = translate pairs dir addr := by
  have hfind : pairs.find? ((fun q : AddressPair => q.covers dir addr) ∘ widened) =
      pairs.find? (·.covers dir addr) := by
    induction pairs with
    | nil => rfl
    | cons p pairs ih =>
      obtain ⟨hp, hps⟩ := List.forall_mem_cons.mp hp
      obtain ⟨hb, hbs⟩ := List.forall_mem_cons.mp hb
      obtain ⟨hne, hnes⟩ := List.forall_mem_cons.mp hne
      rw [List.find?_cons, List.find?_cons, Function.comp_apply, covers_widened hp (hb dir) hne,
        ih hps hbs hnes]
  unfold translate
  rw [List.find?_map, hfind]
  cases pairs.find? (·.covers dir addr) with
  | none => rfl
  | some p => simp only [Option.map_some, diff_widened]

/-- For every list of pairs that is accepted, in whatever way its addresses are written. -/
theorem restores_iff {args : List AddressRangePair} (h : init parseIpv4Address args = .ok pairs) :
    Restores pairs ↔ Unaffected pairs := by
  have hp := init_proper h
  constructor
  · rintro ⟨pairs', hinit, hsame⟩
    have hb := noBroadcast_of_init hp hinit
    have hpairs : pairs' = pairs.map widened :=
      Except.ok.inj (hinit.symm.trans (init_getInitialArg hp hb))
    intro p hmem dir
    have haddr := hsame dir (withAddr dir (behind p dir))
    rw [addrOf_staticNat, addrOf_staticNat, addrOf_withAddr, hpairs] at haddr
    exact ⟨hb p hmem dir, haddr⟩
  · intro hun
    have hb : NoBroadcast pairs := fun p hmem dir => (hun p hmem dir).1
    refine ⟨_, init_getInitialArg hp hb, fun dir m => ?_⟩
    rw [addrOf_staticNat, addrOf_staticNat]
    by_cases hedge : ∃ p ∈ pairs, addrOf dir m = behind p dir
    · obtain ⟨p, hmem, haddr⟩ := hedge
      rw [haddr]
      exact (hun p hmem dir).2
    · exact translate_widened hp hb fun p hmem haddr => hedge ⟨p, hmem, haddr⟩

/-- A pair that translates `10.0.0.1` to itself. -/
def selfPair : AddressPair := ⟨0x0A000001#32, 0x0A000001#32, 1#32⟩

theorem selfPair_restores :
    init parseIpv4Address [single "10.0.0.1" "10.0.0.1"] = .ok [selfPair] ∧ Restores [selfPair] := by
  have hinit : init parseIpv4Address [single "10.0.0.1" "10.0.0.1"] = .ok [selfPair] := rfl
  refine ⟨hinit, (restores_iff hinit).mpr fun p hmem dir => ?_⟩
  rw [List.mem_singleton.mp hmem]
  cases dir <;> decide +kernel

/-- After `10.0.0.1` to `20.0.0.1` was read back, `10.0.0.2` is translated as well; a range up to
`255.255.255.254` is not read back. -/
theorem firstPair_not_restored :
    init parseIpv4Address [single "10.0.0.1" "20.0.0.1"] = .ok [firstPair] ∧
    init parseIpv4Address (getInitialArg [firstPair]) = .ok [widened firstPair] ∧
    translate [firstPair] .forward 0x0A000002#32 = 0x0A000002#32 ∧
    translate [widened firstPair] .forward 0x0A000002#32 = 0x14000002#32 ∧
    init parseIpv4Address (getInitialArg [⟨0x0A000001#32, 0xFFFFFFFE#32, 1#32⟩]) =
      .error (.msg EINVAL "cannot map broadcast address") ∧
    ¬ Restores [firstPair] := by
  refine ⟨rfl, rfl, by decide +kernel, by decide +kernel, rfl, ?_⟩
  rintro ⟨pairs', hinit, hsame⟩
  have hpairs : pairs' = [widened firstPair] := Except.ok.inj (hinit.symm.trans rfl)
  have haddr := hsame .forward (withAddr .forward 0x0A000002#32)
  rw [addrOf_staticNat, addrOf_staticNat, addrOf_withAddr, hpairs] at haddr
  exact absurd haddr (by decide +kernel)

end Bess.Translate.StaticNat
