import Bess.Modules.Command
import Bess.Translate.Packet
import Mathlib.Data.BitVec

/-!
# Static address translation

`Init` of `modules/static_nat.cc` takes pairs of equally long address ranges, and each direction
translates by the first pair whose range has the address. Nothing compares one pair with another:
where external ranges overlap, the way back may lead through another pair.
-/

namespace Bess.Translate.StaticNat

open Bess.ByteMem Bess.Headers Bess.Modules

/-- `AddressRange` -/
structure AddressRange where
  start : String
  «end» : String

/-- `AddressRangePair` -/
structure AddressRangePair where
  intRange : AddressRange
  extRange : AddressRange

-- `ParseIpv4Address`, with the address in host order
variable (parse : String → Option (BitVec 32))

/-- One end of a range. -/
def parseAddress (text : String) : Except Failure (BitVec 32) :=
  match parse text with
  | none => .error (.msg EINVAL ("invalid IP address " ++ text))
  | some a => .ok a

/-- Both ends, in order; `which` is the range that a message names. -/
def parseRange (which : String) (r : AddressRange) : Except Failure (BitVec 32 × BitVec 32) := do
  let first ← parseAddress parse r.start
  let last ← parseAddress parse r.end
  if last < first then .error (.msg EINVAL ("invalid " ++ which ++ " IP address range"))
  else .ok (first, last)

def initPair (arg : AddressRangePair) : Except Failure AddressPair := do
  let (intStart, intEnd) ← parseRange parse "internal" arg.intRange
  let (extStart, extEnd) ← parseRange parse "external" arg.extRange
  if intEnd = 0xFFFFFFFF#32 ∨ extEnd = 0xFFFFFFFF#32 then
    .error (.msg EINVAL "cannot map broadcast address")
  else if intEnd - intStart ≠ extEnd - extStart then
    .error (.msg EINVAL "internal/external address ranges differ")
  else .ok ⟨intStart, extStart, intEnd - intStart + 1⟩

/-- The `pairs_` of a module that was accepted. -/
def init : List AddressRangePair → Except Failure (List AddressPair)
  | [] => .ok []
  | arg :: args => do
    let pair ← initPair parse arg
    let pairs ← init args
    .ok (pair :: pairs)

/-! ## What is accepted -/

/-- Neither range wraps around. -/
structure Proper (p : AddressPair) : Prop where
  int_lt : p.intAddr.toNat + p.size.toNat < 2 ^ 32
  ext_lt : p.extAddr.toNat + p.size.toNat < 2 ^ 32

variable {parse}

theorem parseRange_ok {which : String} {r : AddressRange} {ends : BitVec 32 × BitVec 32}
    (h : parseRange parse which r = .ok ends) : ends.1 ≤ ends.2 := by
  obtain ⟨first, -, h⟩ := bind_ok h
  obtain ⟨last, -, h⟩ := bind_ok h
  split at h
  · cases h
  · rename_i hle
    cases h
    exact BitVec.not_lt.mp hle

theorem initPair_proper {arg : AddressRangePair} {p : AddressPair}
    (h : initPair parse arg = .ok p) : Proper p := by
  obtain ⟨i, hi, h⟩ := bind_ok h
  obtain ⟨e, he, h⟩ := bind_ok h
  have hint := parseRange_ok hi
  have hext := parseRange_ok he
  simp only at h
  split at h
  · cases h
  · rename_i hbroadcast
    split at h
    · cases h
    · rename_i hdiff
      cases h
      constructor <;> simp only at * <;> bv_omega

theorem init_proper {args : List AddressRangePair} {pairs : List AddressPair}
    (h : init parse args = .ok pairs) : ∀ p ∈ pairs, Proper p := by
  induction args generalizing pairs with
  | nil =>
    cases h
    exact fun _ hp => absurd hp List.not_mem_nil
  | cons arg args ih =>
    obtain ⟨p, hp, h⟩ := bind_ok h
    obtain ⟨rest, hr, h⟩ := bind_ok h
    cases h
    exact List.forall_mem_cons.mpr ⟨initPair_proper hp, ih hr⟩

/-! ## Addresses of packets -/

/-- The address that a direction translates, in host order. -/
def addrOf (dir : Direction) (m : Mem) : BitVec 32 := bswap32 (load32 m dir.addrOffset)

/-- A packet with this address. -/
def withAddr (dir : Direction) (addr : BitVec 32) : Mem :=
  store32 (fun _ => 0) dir.addrOffset (bswap32 addr)

def translate (pairs : List AddressPair) (dir : Direction) (addr : BitVec 32) : BitVec 32 :=
  match pairs.find? (·.covers dir addr) with
  | none => addr
  | some p => addr + p.diff dir

theorem addrOf_withAddr (dir : Direction) (addr : BitVec 32) :
    addrOf dir (withAddr dir addr) = addr := by
  rw [addrOf, withAddr, load32_store32, bswap32_bswap32]

/-- The address is stored after the checksums, so nothing overwrites it. -/
theorem addrOf_staticNat (pairs : List AddressPair) (dir : Direction) (m : Mem) :
    addrOf dir (staticNat pairs dir m) = translate pairs dir (addrOf dir m) := by
  unfold staticNat translate
  simp only [addrOf]
  cases pairs.find? (·.covers dir (bswap32 (load32 m dir.addrOffset))) with
  | none => rfl
  | some p => rw [load32_store32, bswap32_bswap32]

/-! ## There and back -/

/-- The address of the packet is in an internal range. -/
def Internal (pairs : List AddressPair) (m : Mem) : Prop :=
  ∃ p ∈ pairs, p.covers .forward (addrOf .forward m) = true

/-- An inbound packet to the translated source of an outbound one gets the original address, and
outbound packets with different addresses stay different. -/
structure Inverts (pairs : List AddressPair) : Prop where
  back : ∀ m m', Internal pairs m →
    addrOf .reverse m' = addrOf .forward (staticNat pairs .forward m) →
    addrOf .reverse (staticNat pairs .reverse m') = addrOf .forward m
  distinct : ∀ m m', Internal pairs m → Internal pairs m' →
    addrOf .forward (staticNat pairs .forward m) = addrOf .forward (staticNat pairs .forward m') →
    addrOf .forward m = addrOf .forward m'

/-- The address `n` is in the internal range, or the external one for the reverse direction. -/
def InRange (dir : Direction) (n : Nat) (p : AddressPair) : Prop :=
  (p.start dir).toNat ≤ n ∧ n < (p.start dir).toNat + p.size.toNat

/-- Where the external range of a pair `q` meets that of a pair `p` before it, and the two pairs do
not have the same distance between their ranges, the common address is in an external range before
`p` as well, or the internal address at the same place of `q` is in an internal range before `q`. -/
def Apart (pairs : List AddressPair) : Prop :=
  ∀ pre p mid q post, pairs = pre ++ p :: mid ++ q :: post → p.diff .forward ≠ q.diff .forward →
    ∀ k < q.size.toNat, InRange .reverse (q.extAddr.toNat + k) p →
      (∃ r ∈ pre, InRange .reverse (q.extAddr.toNat + k) r) ∨
      ∃ r ∈ pre ++ p :: mid, InRange .forward (q.intAddr.toNat + k) r

variable {pairs : List AddressPair} {p q : AddressPair} {addr : BitVec 32}

theorem covers_iff {dir : Direction} (h : Proper p) :
    p.covers dir addr = true ↔ InRange dir addr.toNat p := by
  obtain ⟨hint, hext⟩ := h
  unfold AddressPair.covers InRange
  rw [decide_eq_true_eq]
  cases dir <;> simp only [AddressPair.start] <;> bv_omega

theorem covers_reverse (h : Proper p) (hc : p.covers .forward addr = true) :
    p.covers .reverse (addr + p.diff .forward) = true := by
  rw [covers_iff h] at hc ⊢
  obtain ⟨hint, hext⟩ := h
  simp only [InRange, AddressPair.start, AddressPair.diff] at *
  bv_omega

theorem covers_of_find {dir : Direction} (h : pairs.find? (·.covers dir addr) = some p) :
    p.covers dir addr = true :=
  List.find?_some (p := fun x : AddressPair => x.covers dir addr) h

/-- An external address that stands for an internal one is in some external range. -/
theorem exists_reverse (hp : ∀ p ∈ pairs, Proper p)
    (hf : pairs.find? (·.covers .forward addr) = some p) :
    ∃ q, pairs.find? (·.covers .reverse (addr + p.diff .forward)) = some q := by
  have hmem := List.mem_of_find?_eq_some hf
  have hc := covers_reverse (hp p hmem) (covers_of_find hf)
  exact Option.isSome_iff_exists.mp (List.find?_isSome.mpr ⟨p, hmem, hc⟩)

theorem translate_back_iff (hf : pairs.find? (·.covers .forward addr) = some p)
    (hr : pairs.find? (·.covers .reverse (addr + p.diff .forward)) = some q) :
    translate pairs .reverse (translate pairs .forward addr) = addr ↔
      p.diff .forward = q.diff .forward := by
  have hneg : q.diff .reverse = -q.diff .forward := (neg_sub _ _).symm
  simp only [translate, hf, hr, hneg]
  rw [add_assoc, add_eq_left, add_neg_eq_zero]

/-- The `k`-th addresses of both ranges. -/
theorem toNat_place (dir : Direction) (h : Proper p) {k : Nat} (hk : k < p.size.toNat) :
    (p.start dir + BitVec.ofNat 32 k).toNat = (p.start dir).toNat + k := by
  obtain ⟨hint, hext⟩ := h
  cases dir <;> simp only [AddressPair.start] at * <;> bv_omega

/-- Wherever the first pair for an internal address is `p` and the first pair for the external one
it stands for is `q`, both translate by the same distance. -/
def Agree (pairs : List AddressPair) : Prop :=
  ∀ addr p q, pairs.find? (·.covers .forward addr) = some p →
    pairs.find? (·.covers .reverse (addr + p.diff .forward)) = some q →
    p.diff .forward = q.diff .forward

theorem find?_covers_iff {dir : Direction} (hp : ∀ p ∈ pairs, Proper p) :
    pairs.find? (·.covers dir addr) = some p ↔ ∃ pre post, pairs = pre ++ p :: post ∧
      InRange dir addr.toNat p ∧ ∀ r ∈ pre, ¬ InRange dir addr.toNat r := by
  rw [List.find?_eq_some_iff_append]
  constructor
  · rintro ⟨hc, pre, post, rfl, hpre⟩
    refine ⟨pre, post, rfl, (covers_iff (hp p (by simp))).mp hc, fun r hr hin => ?_⟩
    have hcr := (covers_iff (hp r (List.mem_append_left _ hr))).mpr hin
    simpa [hcr] using hpre r hr
  · rintro ⟨pre, post, rfl, hc, hpre⟩
    refine ⟨(covers_iff (hp p (by simp))).mpr hc, pre, post, rfl, fun r hr => ?_⟩
    have hcr := mt (covers_iff (hp r (List.mem_append_left _ hr))).mp (hpre r hr)
    simpa using hcr

theorem Agree.apart (h : Agree pairs) (hp : ∀ p ∈ pairs, Proper p) : Apart pairs := by
  rintro pre p mid q post rfl hdiff k hk hext
  by_contra hnot
  obtain ⟨hpre, hint⟩ := not_or.mp hnot
  have hq : Proper q := hp q (by simp)
  -- the `k`-th internal address of `q` goes out through `q` and comes back through `p`
  let addr := q.intAddr + BitVec.ofNat 32 k
  have hout : addr.toNat = q.intAddr.toNat + k := toNat_place .forward hq hk
  have hback : (addr + q.diff .forward).toNat = q.extAddr.toNat + k := by
    have hplace : addr + q.diff .forward = q.extAddr + BitVec.ofNat 32 k := by
      simp only [addr, AddressPair.diff]
      bv_omega
    rw [hplace]
    exact toNat_place .reverse hq hk
  refine hdiff (h addr q p ?_ ?_).symm
  · refine (find?_covers_iff hp).mpr ⟨pre ++ p :: mid, post, rfl, ?_, fun r hr hin => hint ⟨r, hr, ?_⟩⟩
    · rw [hout]
      exact ⟨Nat.le_add_right .., Nat.add_lt_add_left hk _⟩
    · rwa [hout] at hin
  · refine (find?_covers_iff hp).mpr ⟨pre, mid ++ q :: post, by simp, hback ▸ hext, fun r hr hin => ?_⟩
    exact hpre ⟨r, hr, hback ▸ hin⟩

theorem Apart.agree (h : Apart pairs) (hp : ∀ p ∈ pairs, Proper p) : Agree pairs := by
  intro addr q p hf hr
  obtain ⟨pre, post, heq, hq, hbefore⟩ := (find?_covers_iff hp).mp hf
  obtain ⟨pre', post', heq', hext, hbefore'⟩ := (find?_covers_iff hp).mp hr
  have hproper : Proper q := hp q (List.mem_of_find?_eq_some hf)
  have hown : InRange .reverse (addr + q.diff .forward).toNat q :=
    (covers_iff hproper).mp (covers_reverse hproper ((covers_iff hproper).mpr hq))
  by_contra hdiff
  rw [heq, List.append_eq_append_iff] at heq'
  rcases heq' with ⟨rest, hpre', hrest⟩ | ⟨rest, rfl, hrest⟩
  · -- the pair that leads back is not behind the one that leads out
    rcases rest with _ | ⟨r, rest⟩
    · cases hrest
      exact hdiff rfl
    · cases hrest
      exact hbefore' q (by simp [hpre']) hown
  · rcases rest with _ | ⟨r, mid⟩
    · cases hrest
      exact hdiff rfl
    · cases hrest
      obtain ⟨hle, hlt⟩ := hq
      have hk : addr.toNat - q.intAddr.toNat < q.size.toNat := by
        simp only [AddressPair.start] at hle hlt
        omega
      have hint : q.intAddr.toNat + (addr.toNat - q.intAddr.toNat) = addr.toNat :=
        Nat.add_sub_cancel' hle
      have hplace : (addr + q.diff .forward).toNat =
          q.extAddr.toNat + (addr.toNat - q.intAddr.toNat) := by
        obtain ⟨-, hbound⟩ := hproper
        simp only [AddressPair.start, AddressPair.diff] at *
        bv_omega
      rw [hplace] at hext hbefore'
      rcases h pre' p mid q post (by simp [heq]) (Ne.symm hdiff) _ hk hext with
        ⟨r, hr, hin⟩ | ⟨r, hr, hin⟩
      · exact hbefore' r hr hin
      · exact hbefore r hr (hint ▸ hin)

theorem Agree.translate_back (h : Agree pairs) (hp : ∀ p ∈ pairs, Proper p)
    (hc : ∃ p ∈ pairs, p.covers .forward addr = true) :
    translate pairs .reverse (translate pairs .forward addr) = addr := by
  obtain ⟨p, hf⟩ := Option.isSome_iff_exists.mp (List.find?_isSome.mpr hc)
  obtain ⟨q, hr⟩ := exists_reverse hp hf
  exact (translate_back_iff hf hr).mpr (h addr p q hf hr)

/-- For every accepted list of pairs. -/
theorem inverts_iff (parse : String → Option (BitVec 32)) {args : List AddressRangePair}
    (h : init parse args = .ok pairs) : Inverts pairs ↔ Apart pairs := by
  have hp := init_proper h
  constructor
  · intro hinv
    refine Agree.apart (fun addr p q hf hr => ?_) hp
    have hm : addrOf .forward (withAddr .forward addr) = addr := addrOf_withAddr _ _
    have hin : Internal pairs (withAddr .forward addr) :=
      ⟨p, List.mem_of_find?_eq_some hf, hm.symm ▸ covers_of_find hf⟩
    have hback := hinv.back _ (withAddr .reverse (translate pairs .forward addr)) hin
      (by rw [addrOf_withAddr, addrOf_staticNat, hm])
    rw [addrOf_staticNat, addrOf_withAddr, hm] at hback
    exact (translate_back_iff hf hr).mp hback
  · intro hapart
    have hback (m : Mem) (hin : Internal pairs m) := (hapart.agree hp).translate_back hp hin
    refine ⟨fun m m' hin hm' => ?_, fun m m' hin hin' heq => ?_⟩
    · rw [addrOf_staticNat, hm', addrOf_staticNat, hback m hin]
    · rw [addrOf_staticNat, addrOf_staticNat] at heq
      rw [← hback m hin, heq, hback m' hin']

/-! ## Examples -/

/-- `10.0.0.1`, `10.0.0.2`, `20.0.0.1` and `20.0.0.5` -/
def parseSample (text : String) : Option (BitVec 32) :=
  if text = "10.0.0.1" then some 0x0A000001#32
  else if text = "10.0.0.2" then some 0x0A000002#32
  else if text = "20.0.0.1" then some 0x14000001#32
  else if text = "20.0.0.5" then some 0x14000005#32
  else none

def single (int ext : String) : AddressRangePair := ⟨⟨int, int⟩, ⟨ext, ext⟩⟩

def firstPair : AddressPair := ⟨0x0A000001#32, 0x14000001#32, 1#32⟩

def secondPair : AddressPair := ⟨0x0A000002#32, 0x14000001#32, 1#32⟩

def otherPair : AddressPair := ⟨0x0A000002#32, 0x14000005#32, 1#32⟩

theorem two_pairs_invert :
    init parseSample [single "10.0.0.1" "20.0.0.1", single "10.0.0.2" "20.0.0.5"] =
      .ok [firstPair, otherPair] ∧ Inverts [firstPair, otherPair] := by
  have hinit : init parseSample [single "10.0.0.1" "20.0.0.1", single "10.0.0.2" "20.0.0.5"] =
      .ok [firstPair, otherPair] := rfl
  refine ⟨hinit, (inverts_iff parseSample hinit).mpr fun pre p mid q post heq _ k hk hin => ?_⟩
  have hlen := congrArg List.length heq
  simp only [List.length_cons, List.length_append, List.length_nil] at hlen
  obtain rfl := List.eq_nil_of_length_eq_zero (l := pre) (by omega)
  obtain rfl := List.eq_nil_of_length_eq_zero (l := mid) (by omega)
  cases heq
  have hk : k < 1 := hk
  obtain ⟨-, hlt⟩ := hin
  have hlt : 0x14000005 + k < 0x14000001 + 1 := hlt
  omega

/-- Two internal addresses for one external address are accepted: the answer to the second one is
sent to the first. -/
theorem shared_address_accepted :
    init parseSample [single "10.0.0.1" "20.0.0.1", single "10.0.0.2" "20.0.0.1"] =
      .ok [firstPair, secondPair] ∧
    translate [firstPair, secondPair] .forward 0x0A000002#32 = 0x14000001#32 ∧
    translate [firstPair, secondPair] .forward 0x0A000001#32 = 0x14000001#32 ∧
    translate [firstPair, secondPair] .reverse 0x14000001#32 = 0x0A000001#32 ∧
    ¬ Inverts [firstPair, secondPair] := by
  refine ⟨rfl, by decide +kernel, by decide +kernel, by decide +kernel, fun h => ?_⟩
  have hd := h.distinct (withAddr .forward 0x0A000001#32) (withAddr .forward 0x0A000002#32)
    ⟨firstPair, by simp, by rw [addrOf_withAddr]; decide⟩
    ⟨secondPair, by simp, by rw [addrOf_withAddr]; decide⟩
  rw [addrOf_staticNat, addrOf_staticNat, addrOf_withAddr, addrOf_withAddr] at hd
  exact absurd (hd (by decide +kernel)) (by decide)

end Bess.Translate.StaticNat
