import Bess.Utils.Headers

/-!
# Checksums that are stored

The `Calculate` functions skip the checksum field: by masking it away where it is the upper half of a
word (IPv4, UDP), and by shifting it out where it is the lower one (TCP), which moves the urgent
pointer into the other half. Both are the sum of the header with zero in the field, so the stored
result completes it to one that `Verify` accepts.
-/

namespace Bess.Headers

open Bess.ByteMem Bess.Checksum Bess.OnesComplement

variable (avx2 : Bool)

def calculateIpv4NoOptChecksum (m : Mem) : BitVec 16 :=
  foldChecksum (addCarries (load32 m 0)
    [load32 m 4, load32 m 8 &&& 0xFFFF#32, load32 m 12, load32 m 16])

def calculateIpv4Checksum (m : Mem) : BitVec 16 :=
  if l4 m = sizeofIpv4 then calculateIpv4NoOptChecksum m
  else if l4 m < sizeofIpv4 then 0
  else
    let sum := calculateSum avx2 (bytes m sizeofIpv4 (l4 m - sizeofIpv4))
    foldChecksum (addCarries sum
      [load32 m 0, load32 m 4, load32 m 8 &&& 0xFFFF#32, load32 m 12, load32 m 16])

/-- The pseudo header for addresses in network order and a length in host order. -/
def pseudoHeader (src dst : BitVec 32) (len : BitVec 16) (proto : Byte) : List (BitVec 32) :=
  [src, dst, (bswap16 len).setWidth 32, BitVec.ofNat 32 (256 * proto.toNat)]

/-! The functions for a header at offset `o`; the others take its place, the addresses and the length
from the IPv4 header. -/

section Layer4

variable (m : Mem) (o : Nat) (src dst : BitVec 32) (len : BitVec 16)

def verifyUdpChecksum : Bool :=
  if load16 m (o + udpChecksumOffset) = 0 then true
  else
    let sum := calculateSum avx2 (bytes m (o + sizeofUdp) (len.toNat - sizeofUdp))
    foldChecksum (addCarries sum (words32 m o 2 ++ pseudoHeader src dst len kUdp)) = 0

def calculateUdpChecksum : BitVec 16 :=
  let sum := calculateSum avx2 (bytes m (o + sizeofUdp) (len.toNat - sizeofUdp))
  let checksum := foldChecksum (addCarries sum
    ([load32 m o, load32 m (o + 4) &&& 0xFFFF#32] ++ pseudoHeader src dst len kUdp))
  if checksum = 0 then 0xFFFF#16 else checksum

def verifyTcpChecksum : Bool :=
  let sum := calculateSum avx2 (bytes m (o + sizeofTcp) (len.toNat - sizeofTcp))
  foldChecksum (addCarries sum (words32 m o 5 ++ pseudoHeader src dst len kTcp)) = 0

def calculateTcpChecksum : BitVec 16 :=
  let sum := calculateSum avx2 (bytes m (o + sizeofTcp) (len.toNat - sizeofTcp))
  foldChecksum (addCarries sum
    ([load32 m o, load32 m (o + 4), load32 m (o + 8), load32 m (o + 12), load32 m (o + 16) >>> 16] ++
      pseudoHeader src dst len kTcp))

end Layer4

def calculateIpv4UdpChecksum (m : Mem) : BitVec 16 :=
  if udpLength m < sizeofUdp then 0
  else
    calculateUdpChecksum avx2 m (l4 m) (load32 m srcOffset) (load32 m dstOffset)
      (BitVec.ofNat 16 (udpLength m))

def calculateIpv4TcpChecksum (m : Mem) : BitVec 16 :=
  if ipLength m < l4 m + sizeofTcp then 0
  else
    calculateTcpChecksum avx2 m (l4 m) (load32 m srcOffset) (load32 m dstOffset)
      (BitVec.ofNat 16 (ipLength m - l4 m))

/-! ## The sum without the checksum field -/

section Skipping

variable {m : Mem} {o j k r : Nat} {c : BitVec 32} {v : BitVec 16} {ws : List (BitVec 32)}

theorem low_half (m : Mem) (o : Nat) : load32 m o &&& 0xFFFF#32 = load32 (store16 m (o + 2) 0) o := by
  apply BitVec.eq_of_toNat_eq
  have hload : load m o 4 = _ := load_add m o 2 2
  have hstored : load (store16 m (o + 2) 0) o 4 = _ := load_add (store16 m (o + 2) 0) o 2 2
  have hself := congrArg BitVec.toNat (load16_store16 m (o + 2) 0)
  have hlow : load (store16 m (o + 2) 0) o 2 = load m o 2 := load_store_disjoint _ (by omega)
  have hlt := load_lt m o 2
  rw [load16_toNat] at hself
  rw [load32_toNat, hstored, hself, hlow, BitVec.toNat_and, load32_toNat, hload]
  exact (Nat.and_two_pow_sub_one_eq_mod _ 16).trans (by simp; omega)

/-- The upper half is the same number as the word without its lower half. -/
theorem same_high_half (m : Mem) (o : Nat) :
    Same 16 (load32 m o >>> 16).toNat (load32 (store16 m o 0) o).toNat := by
  have hload : load m o 4 = _ := load_add m o 2 2
  have hstored : load (store16 m o 0) o 4 = _ := load_add (store16 m o 0) o 2 2
  have hself := congrArg BitVec.toNat (load16_store16 m o 0)
  have hhigh : load (store16 m o 0) (o + 2) 2 = load m (o + 2) 2 :=
    load_store_disjoint _ (by omega)
  have hlt := load_lt m o 2
  rw [load16_toNat] at hself
  have hdiv : (load m o 2 + 256 ^ 2 * load m (o + 2) 2) / 2 ^ 16 = 0 + load m (o + 2) 2 := by omega
  rw [load32_toNat, hstored, hself, hhigh, BitVec.toNat_ushiftRight, load32_toNat, hload,
    Nat.shiftRight_eq_div_pow, hdiv]
  exact (same_shift 16 1 0 (load m (o + 2) 2)).symm

theorem same_add32 (s : BitVec 32) (us : List (BitVec 32)) :
    Same 16 (addCarries s us).toNat (s.toNat + (us.map BitVec.toNat).sum) := by
  have h32 : 32 = 16 * 2 := rfl
  exact same_addCarries h32 s us

/-- `FoldChecksum` gives the number that completes the sum. -/
theorem balanced_add_foldChecksum {T : Nat} (h : Same 16 c.toNat T) :
    Balanced (T + (foldChecksum c).toNat) := by
  obtain ⟨x, hx, hs, hf⟩ := foldChecksum_eq c
  have hnot : (foldChecksum c).toNat = 65535 - x := by
    rw [hf, BitVec.toNat_not, BitVec.toNat_ofNat, Nat.mod_eq_of_lt hx]
  have hsum : x + (65535 - x) = 65535 := by omega
  rw [hnot, ← balanced_congr ((hs.trans h).add_right _), hsum]
  exact ⟨dvd_refl _, by decide⟩

/-- What is stored: the result of `FoldChecksum`, or all ones for zero. -/
def Completes (c : BitVec 32) (v : BitVec 16) : Prop :=
  v = foldChecksum c ∨ foldChecksum c = 0 ∧ v = 0xFFFF#16

theorem Completes.balanced {T : Nat} (hv : Completes c v) (h : Same 16 c.toNat T) :
    Balanced (T + v.toNat) := by
  rcases hv with rfl | ⟨hzero, rfl⟩
  · exact balanced_add_foldChecksum h
  · obtain ⟨hd, hne⟩ := (balanced_congr h).mp ((foldChecksum_eq_zero_iff c).mp hzero)
    exact ⟨Nat.dvd_add hd (by decide), by omega⟩

/-- The header with the checksum `v` in its half-word `j`, and a rest of sum `r`: it is balanced if
`v` completes the sum with zero in that place. -/
theorem balanced_stored (hj : 2 * j + 2 ≤ 4 * k)
    (hws : Same 16 (ws.map BitVec.toNat).sum (sum16 (bytes (store16 m (o + 2 * j) 0) o (4 * k))))
    (hc : Same 16 c.toNat ((ws.map BitVec.toNat).sum + r)) (hv : Completes c v) :
    Balanced (((words32 (store16 m (o + 2 * j) v) o k).map BitVec.toNat).sum + r) := by
  have hzero := sum16_store16 m j 0 (rfl : o + 2 * j = o + 2 * j) hj
  have hval := sum16_store16 m j v (rfl : o + 2 * j = o + 2 * j) hj
  have hsum : sum16 (bytes (store16 m (o + 2 * j) v) o (4 * k)) =
      sum16 (bytes (store16 m (o + 2 * j) 0) o (4 * k)) + v.toNat := by
    have h0 : (0 : BitVec 16).toNat = 0 := rfl
    omega
  rw [balanced_congr ((same_words32 _ o k).add_right r), hsum, Nat.add_right_comm]
  exact hv.balanced (hc.trans (hws.add_right r))

/-- The words of an IPv4 header without the checksum. -/
theorem ipv4_words (m : Mem) :
    [load32 m 0, load32 m 4, load32 m 8 &&& 0xFFFF#32, load32 m 12, load32 m 16] =
      words32 (store16 m (0 + 2 * 5) 0) 0 5 := by
  simp (disch := omega) only [words32, low_half, load32_store16_of_disjoint, Nat.reduceAdd,
    Nat.reduceMul]

theorem udp_words (m : Mem) (o : Nat) :
    [load32 m o, load32 m (o + 4) &&& 0xFFFF#32] = words32 (store16 m (o + 2 * 3) 0) o 2 := by
  simp (disch := omega) only [words32, low_half, load32_store16_of_disjoint, Nat.reduceMul,
    Nat.add_assoc, Nat.reduceAdd]

theorem same_tcp_words (m : Mem) (o : Nat) :
    Same 16 (([load32 m o, load32 m (o + 4), load32 m (o + 8), load32 m (o + 12),
        load32 m (o + 16) >>> 16]).map BitVec.toNat).sum
      (sum16 (bytes (store16 m (o + 2 * 8) 0) o (4 * 5))) := by
  refine Same.trans ?_ (same_words32 _ o 5)
  simp (disch := omega) only [words32, load32_store16_of_disjoint, Nat.reduceMul, Nat.add_assoc,
    Nat.reduceAdd, List.map_cons, List.map_nil, List.sum_cons, List.sum_nil]
  exact ((((same_high_half m (o + 16)).add_right 0).add_left _).add_left _).add_left _ |>.add_left _

end Skipping

/-! ## Stored checksums verify -/

section Stored

variable {avx2 : Bool}

theorem ipv4_stored {m : Mem} (hl4 : 20 ≤ l4 m) :
    verifyIpv4Checksum avx2 (store16 m ipChecksumOffset (calculateIpv4Checksum avx2 m)) = true := by
  obtain ⟨v, hv⟩ : ∃ v, v = calculateIpv4Checksum avx2 m := ⟨_, rfl⟩
  have hsame : l4 (store16 m ipChecksumOffset v) = l4 m := rfl
  have hws := same_words32 (store16 m (0 + 2 * 5) 0) 0 5
  rw [← ipv4_words] at hws
  rw [← hv]
  unfold calculateIpv4Checksum at hv
  unfold verifyIpv4Checksum
  rw [hsame]
  by_cases h20 : l4 m = sizeofIpv4
  · rw [if_pos h20, calculateIpv4NoOptChecksum] at hv
    have hc := same_add32 (load32 m 0) [load32 m 4, load32 m 8 &&& 0xFFFF#32, load32 m 12, load32 m 16]
    rw [← List.sum_cons, ← List.map_cons, ← Nat.add_zero (List.sum _)] at hc
    have hb := balanced_stored (by omega) hws hc (.inl hv)
    rw [words32, List.map_cons, List.sum_cons, Nat.add_zero] at hb
    rw [if_pos h20, verifyIpv4NoOptChecksum, decide_eq_true_eq, addCarries_eq_zero_iff]
    exact hb
  · have hge : ¬ l4 m < sizeofIpv4 := Nat.not_lt.mpr hl4
    rw [if_neg h20, if_neg hge] at hv
    have hc := same_add32 (calculateSum avx2 (bytes m sizeofIpv4 (l4 m - sizeofIpv4)))
      [load32 m 0, load32 m 4, load32 m 8 &&& 0xFFFF#32, load32 m 12, load32 m 16]
    rw [Nat.add_comm] at hc
    have hb := balanced_stored (by omega) hws hc (.inl hv)
    have hopt : bytes (store16 m ipChecksumOffset v) sizeofIpv4 (l4 m - sizeofIpv4) =
        bytes m sizeofIpv4 (l4 m - sizeofIpv4) := bytes_store16 v (.inl (by decide))
    rw [if_neg h20, if_neg hge, hopt, decide_eq_true_eq, addCarries_eq_zero_iff, Nat.add_comm]
    exact hb

/-- A layer-4 header of `k` words with the checksum in half-word `j`. -/
theorem layer4_stored {m : Mem} {o j k n : Nat} {ws p : List (BitVec 32)} {v : BitVec 16}
    (hj : 2 * j + 2 ≤ 4 * k)
    (hws : Same 16 (ws.map BitVec.toNat).sum (sum16 (bytes (store16 m (o + 2 * j) 0) o (4 * k))))
    (hv : Completes (addCarries (calculateSum avx2 (bytes m (o + 4 * k) n)) (ws ++ p)) v) :
    foldChecksum (addCarries (calculateSum avx2 (bytes (store16 m (o + 2 * j) v) (o + 4 * k) n))
      (words32 (store16 m (o + 2 * j) v) o k ++ p)) = 0 := by
  have hpay : bytes (store16 m (o + 2 * j) v) (o + 4 * k) n = bytes m (o + 4 * k) n :=
    bytes_store16 v (.inl (by omega))
  have hc := same_add32 (calculateSum avx2 (bytes m (o + 4 * k) n)) (ws ++ p)
  rw [List.map_append, List.sum_append, Nat.add_left_comm] at hc
  rw [addCarries_eq_zero_iff, hpay, List.map_append, List.sum_append, Nat.add_left_comm]
  exact balanced_stored hj hws hc hv

variable (m : Mem) (o : Nat) (src dst : BitVec 32) (len : BitVec 16)

theorem udp_ne_zero : calculateUdpChecksum avx2 m o src dst len ≠ 0 := by
  unfold calculateUdpChecksum
  simp only
  split
  · decide
  · assumption

theorem udp_stored : verifyUdpChecksum avx2 (store16 m (o + udpChecksumOffset)
    (calculateUdpChecksum avx2 m o src dst len)) o src dst len = true := by
  obtain ⟨v, hv⟩ : ∃ v, v = calculateUdpChecksum avx2 m o src dst len := ⟨_, rfl⟩
  have hne : v ≠ 0 := hv ▸ udp_ne_zero m o src dst len
  have hws := same_words32 (store16 m (o + 2 * 3) 0) o 2
  rw [← udp_words] at hws
  obtain ⟨c, hc⟩ : ∃ c, c = addCarries (calculateSum avx2 (bytes m (o + 4 * 2) (len.toNat - 8)))
      ([load32 m o, load32 m (o + 4) &&& 0xFFFF#32] ++ pseudoHeader src dst len kUdp) := ⟨_, rfl⟩
  have hcompletes : Completes c v := by
    have hv : v = if foldChecksum c = 0 then 0xFFFF#16 else foldChecksum c := by
      rw [hv, hc]
      rfl
    by_cases hzero : foldChecksum c = 0
    · rw [if_pos hzero] at hv
      exact .inr ⟨hzero, hv⟩
    · rw [if_neg hzero] at hv
      exact .inl hv
  rw [hc] at hcompletes
  have hstored := layer4_stored (j := 3) (by omega) hws hcompletes
  rw [← hv, verifyUdpChecksum, load16_store16, if_neg hne]
  exact decide_eq_true hstored

theorem tcp_stored : verifyTcpChecksum avx2 (store16 m (o + tcpChecksumOffset)
    (calculateTcpChecksum avx2 m o src dst len)) o src dst len = true := by
  have hstored := layer4_stored (n := len.toNat - 20) (p := pseudoHeader src dst len kTcp)
    (v := calculateTcpChecksum avx2 m o src dst len) (by omega) (same_tcp_words m o) (.inl rfl)
  exact decide_eq_true hstored

/-- A checksum behind the IPv4 header does not change what is read from it. -/
theorem store16_behind {m : Mem} {k : Nat} (v : BitVec 16) (hk : 20 ≤ k) :
    l4 (store16 m k v) = l4 m ∧ ipLength (store16 m k v) = ipLength m ∧
      load32 (store16 m k v) srcOffset = load32 m srcOffset ∧
      load32 (store16 m k v) dstOffset = load32 m dstOffset := by
  have h0 : store16 m k v 0 = m 0 := if_neg (by omega)
  refine ⟨?_, ?_, ?_, ?_⟩
  · rw [l4, h0, l4]
  · rw [ipLength, load16_store16_of_disjoint v (.inr (by omega)), ipLength]
  · exact load32_store16_of_disjoint v (.inr (by simp only [srcOffset]; omega))
  · exact load32_store16_of_disjoint v (.inr (by simp only [dstOffset]; omega))

theorem verifyIpv4UdpChecksum_eq {m : Mem} (h : 8 ≤ udpLength m) :
    verifyIpv4UdpChecksum avx2 m = verifyUdpChecksum avx2 m (l4 m) (load32 m srcOffset)
      (load32 m dstOffset) (BitVec.ofNat 16 (udpLength m)) := by
  have hlen : (BitVec.ofNat 16 (udpLength m)).toNat = udpLength m :=
    Nat.mod_eq_of_lt (bswap16 _).isLt
  simp only [verifyIpv4UdpChecksum, verifyUdpChecksum, hlen, if_neg (Nat.not_lt.mpr h : ¬ _ < sizeofUdp)]
  rfl

theorem verifyIpv4TcpChecksum_eq {m : Mem} (h : l4 m + 20 ≤ ipLength m) :
    verifyIpv4TcpChecksum avx2 m = verifyTcpChecksum avx2 m (l4 m) (load32 m srcOffset)
      (load32 m dstOffset) (BitVec.ofNat 16 (ipLength m - l4 m)) := by
  have hlt : ipLength m < 2 ^ 16 := (bswap16 _).isLt
  have hlen : (BitVec.ofNat 16 (ipLength m - l4 m)).toNat = ipLength m - l4 m :=
    Nat.mod_eq_of_lt (by omega)
  simp only [verifyIpv4TcpChecksum, verifyTcpChecksum, hlen,
    if_neg (Nat.not_lt.mpr h : ¬ _ < _ + sizeofTcp)]
  rfl

end Stored

/-- For every memory with an IPv4 header of at least five words at its start: a stored IPv4 checksum
verifies; so do that of a UDP datagram or a TCP segment behind it, and those of headers anywhere for
any addresses and lengths; and no UDP checksum is zero. -/
theorem stored_checksums_verify (m : Mem) (hl4 : 20 ≤ l4 m) :
    verifyIpv4Checksum avx2 (store16 m ipChecksumOffset (calculateIpv4Checksum avx2 m)) = true ∧
    (8 ≤ udpLength m → calculateIpv4UdpChecksum avx2 m ≠ 0 ∧
      verifyIpv4UdpChecksum avx2 (store16 m (l4 m + udpChecksumOffset)
        (calculateIpv4UdpChecksum avx2 m)) = true) ∧
    (l4 m + 20 ≤ ipLength m → verifyIpv4TcpChecksum avx2 (store16 m (l4 m + tcpChecksumOffset)
      (calculateIpv4TcpChecksum avx2 m)) = true) ∧
    ∀ o src dst len, (8 ≤ len.toNat → calculateUdpChecksum avx2 m o src dst len ≠ 0 ∧
        verifyUdpChecksum avx2 (store16 m (o + udpChecksumOffset)
          (calculateUdpChecksum avx2 m o src dst len)) o src dst len = true) ∧
      (20 ≤ len.toNat → verifyTcpChecksum avx2 (store16 m (o + tcpChecksumOffset)
        (calculateTcpChecksum avx2 m o src dst len)) o src dst len = true) := by
  refine ⟨ipv4_stored hl4, fun hlen => ?_, fun hlen => ?_, fun o src dst len =>
    ⟨fun _ => ⟨udp_ne_zero m o src dst len, udp_stored m o src dst len⟩,
      fun _ => tcp_stored m o src dst len⟩⟩
  · rw [calculateIpv4UdpChecksum, if_neg (Nat.not_lt.mpr hlen : ¬ _ < sizeofUdp)]
    refine ⟨udp_ne_zero m _ _ _ _, ?_⟩
    obtain ⟨v, hv⟩ : ∃ v, v = calculateUdpChecksum avx2 m (l4 m) (load32 m srcOffset)
      (load32 m dstOffset) (BitVec.ofNat 16 (udpLength m)) := ⟨_, rfl⟩
    rw [← hv]
    obtain ⟨hl4', -, hsrc, hdst⟩ := store16_behind v (hl4.trans (Nat.le_add_right _ udpChecksumOffset))
    have hlen' : udpLength (store16 m (l4 m + udpChecksumOffset) v) = udpLength m := by
      rw [udpLength, hl4', load16_store16_of_disjoint v (.inr (by
        simp only [udpChecksumOffset, udpLengthOffset]
        omega)), udpLength]
    rw [verifyIpv4UdpChecksum_eq (hlen'.symm ▸ hlen), hl4', hsrc, hdst, hlen', hv]
    exact udp_stored m _ _ _ _
  · rw [calculateIpv4TcpChecksum, if_neg (Nat.not_lt.mpr hlen : ¬ _ < _ + sizeofTcp)]
    obtain ⟨v, hv⟩ : ∃ v, v = calculateTcpChecksum avx2 m (l4 m) (load32 m srcOffset)
      (load32 m dstOffset) (BitVec.ofNat 16 (ipLength m - l4 m)) := ⟨_, rfl⟩
    rw [← hv]
    obtain ⟨hl4', hlen', hsrc, hdst⟩ :=
      store16_behind v (hl4.trans (Nat.le_add_right _ tcpChecksumOffset))
    rw [verifyIpv4TcpChecksum_eq (by rw [hl4', hlen']; exact hlen), hl4', hsrc, hdst, hlen', hv]
    exact tcp_stored m _ _ _ _

/-- An IPv4 header of five words, its length forty bytes, and zeros. -/
def plainHeader : Mem := fun i => if i = 0 then 0x45 else if i = 3 then 40 else 0

theorem plainHeader_verifies : 20 ≤ l4 plainHeader ∧
    verifyIpv4Checksum false (store16 plainHeader ipChecksumOffset
      (calculateIpv4Checksum false plainHeader)) = true ∧
    verifyIpv4TcpChecksum false (store16 plainHeader (l4 plainHeader + tcpChecksumOffset)
      (calculateIpv4TcpChecksum false plainHeader)) = true := by
  have hl4 : 20 ≤ l4 plainHeader := by decide
  obtain ⟨hip, -, htcp, -⟩ := stored_checksums_verify false plainHeader hl4
  exact ⟨hl4, hip, htcp (by decide)⟩

end Bess.Headers
