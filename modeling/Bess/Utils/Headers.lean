import Bess.Utils.Checksum
import Mathlib.Tactic.IntervalCases

/-!
# Headers in a packet and their checksums

A packet is the memory from its IPv4 header on. The structures `Ipv4`, `Udp`, `Tcp` and `Icmp` lie
over it, the layer-4 header right after the IPv4 header and its options. Fields are loaded as the
processor does, so a field in network order shows its bytes swapped.

`verifyIpv4Checksum`, `verifyIpv4TcpChecksum` and `verifyIpv4UdpChecksum` sum the same words in their
own ways; each is characterised by the plain sum of the 16-bit words.
-/

namespace Bess.Headers

open Bess.OnesComplement Bess.ByteMem Bess.Checksum

def load16 (m : Mem) (o : Nat) : BitVec 16 := BitVec.ofNat 16 (load m o 2)

def load32 (m : Mem) (o : Nat) : BitVec 32 := BitVec.ofNat 32 (load m o 4)

def store16 (m : Mem) (o : Nat) (v : BitVec 16) : Mem := store m o 2 v.toNat

def store32 (m : Mem) (o : Nat) (v : BitVec 32) : Mem := store m o 4 v.toNat

def bswap16 (v : BitVec 16) : BitVec 16 := v.rotateLeft 8

def bswap32 (v : BitVec 32) : BitVec 32 :=
  (v <<< 24) ||| ((v &&& 0xFF00#32) <<< 8) ||| ((v >>> 8) &&& 0xFF00#32) ||| (v >>> 24)

/-! ## The fields -/

/-- Offset of the layer-4 header: `header_length << 2`. -/
def l4 (m : Mem) : Nat := 4 * ((m 0).toNat % 16)

def ipLength (m : Mem) : Nat := (bswap16 (load16 m 2)).toNat

def protocol (m : Mem) : Byte := m 9

def ipChecksumOffset : Nat := 10

def srcOffset : Nat := 12

def dstOffset : Nat := 16

def kIcmp : Byte := 1#8

def kTcp : Byte := 6#8

def kUdp : Byte := 17#8

def tcpChecksumOffset : Nat := 16

def udpLengthOffset : Nat := 4

def udpChecksumOffset : Nat := 6

def icmpChecksumOffset : Nat := 2

def icmpIdentOffset : Nat := 4

def sizeofIpv4 : Nat := 20

def sizeofTcp : Nat := 20

def sizeofUdp : Nat := 8

/-! ## Verification -/

variable (avx2 : Bool)

/-- `buf32[0]`, ..., `buf32[k - 1]` of the buffer at offset `o`. -/
def words32 (m : Mem) (o : Nat) : Nat → List (BitVec 32)
  | 0 => []
  | k + 1 => load32 m o :: words32 m (o + 4) k

def verifyIpv4NoOptChecksum (m : Mem) : Bool :=
  foldChecksum (addCarries (load32 m 0) (words32 m 4 4)) = 0

def verifyIpv4Checksum (m : Mem) : Bool :=
  if l4 m = sizeofIpv4 then verifyIpv4NoOptChecksum m
  else if l4 m < sizeofIpv4 then false
  else
    let sum := calculateSum avx2 (bytes m sizeofIpv4 (l4 m - sizeofIpv4))
    foldChecksum (addCarries sum (words32 m 0 5)) = 0

/-- The pseudo header: the addresses, the length in network order and the protocol. -/
def pseudoWords (m : Mem) (len : Nat) (proto : Byte) : List (BitVec 32) :=
  [load32 m srcOffset, load32 m dstOffset, (bswap16 (BitVec.ofNat 16 len)).setWidth 32,
    BitVec.ofNat 32 (256 * proto.toNat)]

def udpLength (m : Mem) : Nat := (bswap16 (load16 m (l4 m + udpLengthOffset))).toNat

def verifyIpv4UdpChecksum (m : Mem) : Bool :=
  let udp := l4 m
  let udpLen := udpLength m
  if udpLen < sizeofUdp then false
  else if load16 m (udp + udpChecksumOffset) = 0 then true
  else
    let sum := calculateSum avx2 (bytes m (udp + sizeofUdp) (udpLen - sizeofUdp))
    foldChecksum (addCarries sum (words32 m udp 2 ++ pseudoWords m udpLen kUdp)) = 0

def verifyIpv4TcpChecksum (m : Mem) : Bool :=
  let tcp := l4 m
  if ipLength m < l4 m + sizeofTcp then false
  else
    let tcpLen := ipLength m - l4 m
    let sum := calculateSum avx2 (bytes m (tcp + sizeofTcp) (tcpLen - sizeofTcp))
    foldChecksum (addCarries sum (words32 m tcp 5 ++ pseudoWords m tcpLen kTcp)) = 0

/-! ## Incremental update -/

def checksumIncrement32 (oldValue newValue : BitVec 32) : BitVec 32 :=
  let sum := (~~~oldValue >>> 16) + (~~~oldValue &&& 0xFFFF#32)
  sum + ((newValue >>> 16) + (newValue &&& 0xFFFF#32))

def checksumIncrement16 (oldValue newValue : BitVec 16) : BitVec 32 :=
  (~~~oldValue).setWidth 32 + newValue.setWidth 32

def updateChecksumWithIncrement (oldChecksum : BitVec 16) (increment : BitVec 32) : BitVec 16 :=
  foldChecksum ((~~~oldChecksum).setWidth 32 + increment)

def updateChecksum16 (oldChecksum oldValue newValue : BitVec 16) : BitVec 16 :=
  updateChecksumWithIncrement oldChecksum (checksumIncrement16 oldValue newValue)

/-! ## Loads and stores -/

section Fields

variable {m : Mem} {o o' n : Nat}

theorem bswap16_bswap16 (v : BitVec 16) : bswap16 (bswap16 v) = v := by
  unfold bswap16
  apply BitVec.eq_of_getLsbD_eq
  intro i hi
  interval_cases i <;> simp

theorem bswap32_bswap32 (v : BitVec 32) : bswap32 (bswap32 v) = v := by
  unfold bswap32
  apply BitVec.eq_of_getLsbD_eq
  intro i hi
  interval_cases i <;> simp

theorem load16_toNat (m : Mem) (o : Nat) : (load16 m o).toNat = load m o 2 := by
  have h : load m o 2 < 2 ^ 16 := load_lt m o 2
  rw [load16, BitVec.toNat_ofNat, Nat.mod_eq_of_lt h]

theorem load32_toNat (m : Mem) (o : Nat) : (load32 m o).toNat = load m o 4 := by
  have h : load m o 4 < 2 ^ 32 := load_lt m o 4
  rw [load32, BitVec.toNat_ofNat, Nat.mod_eq_of_lt h]

theorem load16_store16 (m : Mem) (o : Nat) (v : BitVec 16) : load16 (store16 m o v) o = v := by
  apply BitVec.eq_of_toNat_eq
  rw [load16_toNat, store16, load_store]
  exact Nat.mod_eq_of_lt v.isLt

theorem load32_store32 (m : Mem) (o : Nat) (v : BitVec 32) : load32 (store32 m o v) o = v := by
  apply BitVec.eq_of_toNat_eq
  rw [load32_toNat, store32, load_store]
  exact Nat.mod_eq_of_lt v.isLt

theorem sum16_bytes_add (m : Mem) (o k n : Nat) :
    sum16 (bytes m o (2 * k + n)) = sum16 (bytes m o (2 * k)) + sum16 (bytes m (o + 2 * k) n) := by
  rw [sum16_drop k, bytes_add]
  have hlen : (bytes m o (2 * k)).length = 2 * k := length_bytes m o (2 * k)
  rw [List.take_left' hlen, List.drop_left' hlen]

theorem sum16_bytes_two (m : Mem) (o : Nat) : sum16 (bytes m o 2) = load m o 2 := by
  simp [bytes, sum16, words16, load]

theorem sum16_store (m : Mem) (o k n v : Nat) (hn : 2 * k + 2 ≤ n) :
    sum16 (bytes (store m (o + 2 * k) 2 v) o n) + load m (o + 2 * k) 2 =
      sum16 (bytes m o n) + v % 65536 := by
  obtain ⟨r, rfl⟩ : ∃ r, n = 2 * k + (2 * 1 + r) := ⟨n - 2 * k - 2, by omega⟩
  have hself : sum16 (bytes (store m (o + 2 * k) 2 v) (o + 2 * k) (2 * 1)) = v % 65536 := by
    exact (sum16_bytes_two _ _).trans (load_store m (o + 2 * k) 2 v)
  have hbefore : bytes (store m (o + 2 * k) 2 v) o (2 * k) = bytes m o (2 * k) :=
    bytes_store_disjoint v (by omega)
  have hafter : bytes (store m (o + 2 * k) 2 v) (o + 2 * k + 2 * 1) r =
      bytes m (o + 2 * k + 2 * 1) r := bytes_store_disjoint v (by omega)
  have hold : sum16 (bytes m (o + 2 * k) (2 * 1)) = load m (o + 2 * k) 2 := sum16_bytes_two m _
  rw [sum16_bytes_add _ o, sum16_bytes_add _ (o + 2 * k), sum16_bytes_add m o,
    sum16_bytes_add m (o + 2 * k), hself, hbefore, hafter, hold]
  omega

theorem sum16_store16 (m : Mem) (k : Nat) (v : BitVec 16) (ho : o' = o + 2 * k)
    (hn : 2 * k + 2 ≤ n) :
    sum16 (bytes (store16 m o' v) o n) + (load16 m o').toNat =
      sum16 (bytes m o n) + v.toNat := by
  subst ho
  have h := sum16_store m o k n v.toNat hn
  rwa [Nat.mod_eq_of_lt v.isLt, ← load16_toNat] at h

theorem bytes_store16 (v : BitVec 16) (h : o' + 2 ≤ o ∨ o + n ≤ o') :
    bytes (store16 m o' v) o n = bytes m o n := bytes_store_disjoint _ h

theorem load16_store16_of_disjoint (v : BitVec 16) (h : o' + 2 ≤ o ∨ o + 2 ≤ o') :
    load16 (store16 m o' v) o = load16 m o := by
  rw [load16, store16, load_store_disjoint _ h, load16]

theorem load16_store32_of_disjoint (v : BitVec 32) (h : o' + 4 ≤ o ∨ o + 2 ≤ o') :
    load16 (store32 m o' v) o = load16 m o := by
  rw [load16, store32, load_store_disjoint _ h, load16]

theorem load32_store16_of_disjoint (v : BitVec 16) (h : o' + 2 ≤ o ∨ o + 4 ≤ o') :
    load32 (store16 m o' v) o = load32 m o := by
  rw [load32, store16, load_store_disjoint _ h, load32]

theorem same_load (m : Mem) (o n : Nat) : Same 16 (load m o n) (sum16 (bytes m o n)) :=
  same_leNat _

end Fields

/-! ## What verification checks -/

/-- A sum of zero in ones' complement that is not an empty one. -/
def Balanced (t : Nat) : Prop := 65535 ∣ t ∧ t ≠ 0

theorem balanced_congr {a b : Nat} (h : Same 16 a b) : Balanced a ↔ Balanced b := by
  obtain ⟨hm, hz⟩ := h
  have hm : a % 65535 = b % 65535 := hm
  unfold Balanced
  rw [Nat.dvd_iff_mod_eq_zero, Nat.dvd_iff_mod_eq_zero, hm, Ne, Ne, hz]

theorem foldChecksum_eq_zero_iff (c : BitVec 32) : foldChecksum c = 0 ↔ Balanced c.toNat := by
  have h : (0 : BitVec 16) = ~~~BitVec.ofNat 16 65535 := by decide
  rw [h, foldChecksum_eq_iff c (by decide)]
  constructor
  · intro hs
    exact (balanced_congr hs).mpr ⟨dvd_refl _, by decide⟩
  · rintro ⟨hd, hne⟩
    refine ⟨?_, by simp [hne]⟩
    exact (Nat.modEq_zero_iff_dvd.mpr hd).trans (by decide)

theorem addCarries_eq_zero_iff (s : BitVec 32) (us : List (BitVec 32)) :
    foldChecksum (addCarries s us) = 0 ↔ Balanced (s.toNat + (us.map BitVec.toNat).sum) := by
  have h32 : 32 = 16 * 2 := rfl
  rw [foldChecksum_eq_zero_iff, balanced_congr (same_addCarries h32 s us)]

theorem same_words32 (m : Mem) (o k : Nat) :
    Same 16 ((words32 m o k).map BitVec.toNat).sum (sum16 (bytes m o (4 * k))) := by
  induction k generalizing o with
  | zero => simpa [words32, sum16, bytes, words16] using Same.refl 16 0
  | succ k ih =>
    have h4 : 4 * (k + 1) = 2 * 2 + 4 * k := by omega
    rw [words32, List.map_cons, List.sum_cons, h4, sum16_bytes_add, load32_toNat]
    exact (same_load m o 4).add (ih (o + 4))

end Bess.Headers
