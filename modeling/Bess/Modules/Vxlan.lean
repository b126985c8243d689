import Bess.Modules.Packet
import Bess.Utils.CalculateChecksum

/-!
# Tunnels

`VXLANEncap`, `IPEncap`, `EtherEncap` and `VXLANDecap` of `modules/`. Each of the first three writes a
header before the packet and tells the next one by attributes what to write; the last one reads the
attributes of the tunnel from the headers and takes them away.

Attributes are carried by name. Numbers in network order are kept as the processor loads them, and a
module swaps their bytes where it calculates with them.
-/

namespace Bess.Modules.Tunnel

open Bess.ByteMem Bess.Headers Bess.Packing

/-- The attributes that the modules read and write. -/
structure Attrs where
  tunIpSrc : BitVec 32
  tunIpDst : BitVec 32
  tunId : BitVec 32
  ipSrc : BitVec 32
  ipDst : BitVec 32
  ipProto : Byte
  ipNexthop : BitVec 32
  etherSrc : BitVec 48
  etherDst : BitVec 48
  etherType : BitVec 16

/-! ## VXLANEncap -/

def sizeofVxlan : Nat := 8

/-- The UDP and the VXLAN header; `crc` is `rte_hash_crc`, here of the two addresses behind them, and
`dstport` is in network order. -/
def writeVxlan (crc : List Byte → BitVec 32 → BitVec 32) (dstport totalLen : BitVec 16)
    (vni : BitVec 32) (m : Mem) : Mem :=
  let innerFrameLen := totalLen + 8#16
  let m := store32 m 8 (Headers.bswap32 0x08000000#32)
  let m := store32 m 12 (Headers.bswap32 (Headers.bswap32 vni <<< 8))
  let hash := crc (bytes m 16 12) (BitVec.allOnes 32) ||| 0xf000#32
  let m := store16 m 0 (bswap16 (hash.setWidth 16))
  let m := store16 m 2 dstport
  let m := store16 m 4 (bswap16 (8#16 + innerFrameLen))
  store16 m 6 0

def vxlanEncap (crc : List Byte → BitVec 32 → BitVec 32) (dstport : BitVec 16) (pkt : Packet)
    (a : Attrs) : Packet × Attrs :=
  match pkt.prepend 16 with
  | none => (pkt, a)
  | some p => (p.edit (writeVxlan crc dstport (pkt.pktLen.setWidth 16) a.tunId),
      { a with ipSrc := a.tunIpSrc, ipDst := a.tunIpDst, ipProto := kUdp })

/-! ## IPEncap -/

/-- `Ipv4::Flag::kDF` -/
def kDF : BitVec 16 := 0x4000#16

/-- The fields but for the checksum; the `id` is not written. -/
def writeIpv4Fields (totalLen : BitVec 16) (proto : Byte) (src dst : BitVec 32) (m : Mem) : Mem :=
  let m := store m 0 1 0x45
  let m := store m 1 1 0
  let m := store16 m 2 (bswap16 totalLen)
  let m := store16 m 6 (bswap16 kDF)
  let m := store m 8 1 64
  let m := store m 9 1 proto.toNat
  let m := store32 m srcOffset src
  store32 m dstOffset dst

def writeIpv4 (totalLen : BitVec 16) (proto : Byte) (src dst : BitVec 32) (m : Mem) : Mem :=
  let m := writeIpv4Fields totalLen proto src dst m
  store16 m ipChecksumOffset (calculateIpv4NoOptChecksum m)

/-- `Ethernet::Type::kIpv4` -/
def kIpv4 : BitVec 16 := 0x0800#16

def ipEncap (pkt : Packet) (a : Attrs) : Packet × Attrs :=
  let totalLen := pkt.pktLen.setWidth 16 + 20#16
  match pkt.prepend 20 with
  | none => (pkt, a)
  | some p => (p.edit (writeIpv4 totalLen a.ipProto a.ipSrc a.ipDst),
      { a with ipNexthop := a.ipDst, etherType := bswap16 kIpv4 })

/-! ## EtherEncap -/

def writeEther (dst src : BitVec 48) (type : BitVec 16) (m : Mem) : Mem :=
  let m := store m 0 6 dst.toNat
  let m := store m 6 6 src.toNat
  store16 m 12 type

def sizeofEther : Nat := 14

def etherEncap (pkt : Packet) (a : Attrs) : Packet × Attrs :=
  match pkt.prepend 14 with
  | none => (pkt, a)
  | some p => (p.edit (writeEther a.etherDst a.etherSrc a.etherType), a)

/-! ## VXLANDecap -/

/-- The IPv4 header behind the Ethernet header. -/
def ipHeader (pkt : Packet) : Mem := fun i => pkt.view (sizeofEther + i)

def vxlanDecap (pkt : Packet) (a : Attrs) : Packet × Attrs :=
  let ip := ipHeader pkt
  let ipBytes := l4 ip
  let vni := load32 ip (ipBytes + sizeofUdp + 4)
  let a := { a with
    tunIpSrc := load32 ip srcOffset
    tunIpDst := load32 ip dstOffset
    tunId := Headers.bswap32 (Headers.bswap32 vni >>> 8) }
  let len := sizeofEther + ipBytes + sizeofUdp + sizeofVxlan
  ((pkt.adj (BitVec.ofNat 16 len)).getD pkt, a)

/-! ## The headers -/

variable {m : Mem} {o : Nat} {a : Attrs} {p q : Packet}

theorem load16_store_disjoint {o' n' : Nat} (v : Nat) (h : o' + n' ≤ o ∨ o + 2 ≤ o') :
    load16 (store m o' n' v) o = load16 m o := by
  rw [load16, load_store_disjoint v h, load16]

theorem load32_store_disjoint {o' n' : Nat} (v : Nat) (h : o' + n' ≤ o ∨ o + 4 ≤ o') :
    load32 (store m o' n' v) o = load32 m o := by
  rw [load32, load_store_disjoint v h, load32]

theorem load32_store32_disjoint {o' : Nat} (v : BitVec 32) (h : o' + 4 ≤ o ∨ o + 4 ≤ o') :
    load32 (store32 m o' v) o = load32 m o :=
  load32_store_disjoint v.toNat h

theorem load_behind (m : Mem) (k o n : Nat) : load m (k + o) n = load (fun i => m (k + i)) o n := by
  rw [load, load, bytes_eq_map, bytes_eq_map]
  congr 1
  exact List.map_congr_left fun i _ => by rw [Nat.add_assoc]

theorem load16_behind (m : Mem) (k o : Nat) : load16 m (k + o) = load16 (fun i => m (k + i)) o := by
  rw [load16, load_behind, load16]

theorem load32_behind (m : Mem) (k o : Nat) : load32 m (k + o) = load32 (fun i => m (k + i)) o := by
  rw [load32, load_behind, load32]

section Vxlan

variable {crc : List Byte → BitVec 32 → BitVec 32} {dstport totalLen : BitVec 16} {vni : BitVec 32}

theorem writeVxlan_behind {i : Nat} (hi : 16 ≤ i) :
    writeVxlan crc dstport totalLen vni m i = m i := by
  unfold writeVxlan store16 store32
  repeat rw [store_of_not _ (by omega)]

theorem load16_writeVxlan :
    load16 (writeVxlan crc dstport totalLen vni m) udpLengthOffset = bswap16 (totalLen + 16#16) := by
  have hsum : 8#16 + (totalLen + 8#16) = totalLen + 16#16 := by
    rw [BitVec.add_comm, BitVec.add_assoc]
    rfl
  unfold writeVxlan udpLengthOffset
  simp only
  rw [load16_store16_of_disjoint _ (by omega), load16_store16, hsum]

theorem load32_writeVxlan :
    load32 (writeVxlan crc dstport totalLen vni m) 12 =
      Headers.bswap32 (Headers.bswap32 vni <<< 8) := by
  unfold writeVxlan
  simp only
  repeat rw [load32_store16_of_disjoint _ (by omega)]
  rw [load32_store32]

end Vxlan

section Ipv4

variable {totalLen : BitVec 16} {proto : Byte} {src dst : BitVec 32}

theorem writeIpv4_behind {i : Nat} (hi : 20 ≤ i) :
    writeIpv4 totalLen proto src dst m i = m i := by
  unfold writeIpv4 writeIpv4Fields store16 store32 srcOffset dstOffset ipChecksumOffset
  simp only
  repeat rw [store_of_not _ (by omega)]

theorem l4_writeIpv4Fields : l4 (writeIpv4Fields totalLen proto src dst m) = 20 := by
  have hfirst : writeIpv4Fields totalLen proto src dst m 0 = 0x45#8 := by
    unfold writeIpv4Fields store16 store32 srcOffset dstOffset
    repeat rw [store_of_not _ (by omega)]
    rfl
  rw [l4, hfirst]
  rfl

theorem l4_writeIpv4 : l4 (writeIpv4 totalLen proto src dst m) = 20 := by
  have hfirst : writeIpv4 totalLen proto src dst m 0 =
      writeIpv4Fields totalLen proto src dst m 0 := by
    unfold writeIpv4 store16 ipChecksumOffset
    rw [store_of_not _ (by omega)]
  rw [l4, hfirst]
  exact l4_writeIpv4Fields

theorem ipLength_writeIpv4 : ipLength (writeIpv4 totalLen proto src dst m) = totalLen.toNat := by
  unfold ipLength writeIpv4 writeIpv4Fields srcOffset dstOffset ipChecksumOffset
  simp only
  rw [load16_store16_of_disjoint _ (by omega), load16_store32_of_disjoint _ (by omega),
    load16_store32_of_disjoint _ (by omega), load16_store_disjoint _ (by omega),
    load16_store_disjoint _ (by omega), load16_store16_of_disjoint _ (by omega), load16_store16,
    bswap16_bswap16]

theorem load32_src_writeIpv4 : load32 (writeIpv4 totalLen proto src dst m) srcOffset = src := by
  unfold writeIpv4 writeIpv4Fields srcOffset dstOffset ipChecksumOffset
  simp only
  rw [load32_store16_of_disjoint _ (by omega), load32_store32_disjoint _ (by omega), load32_store32]

theorem load32_dst_writeIpv4 : load32 (writeIpv4 totalLen proto src dst m) dstOffset = dst := by
  unfold writeIpv4 writeIpv4Fields dstOffset ipChecksumOffset
  simp only
  rw [load32_store16_of_disjoint _ (by omega), load32_store32]

theorem verify_writeIpv4 (avx2 : Bool) :
    verifyIpv4Checksum avx2 (writeIpv4 totalLen proto src dst m) = true := by
  have hl4 : l4 (writeIpv4Fields totalLen proto src dst m) = sizeofIpv4 := l4_writeIpv4Fields
  have hsame : calculateIpv4Checksum avx2 (writeIpv4Fields totalLen proto src dst m) =
      calculateIpv4NoOptChecksum (writeIpv4Fields totalLen proto src dst m) := if_pos hl4
  rw [writeIpv4, ← hsame]
  exact ipv4_stored hl4.symm.le

end Ipv4

theorem writeEther_behind {dst src : BitVec 48} {type : BitVec 16} {i : Nat} (hi : 14 ≤ i) :
    writeEther dst src type m i = m i := by
  unfold writeEther store16
  repeat rw [store_of_not _ (by omega)]

/-- An identifier of 24 bits comes back. -/
theorem tunId_back {v : BitVec 32} (h : (Headers.bswap32 v).toNat < 2 ^ 24) :
    Headers.bswap32 (Headers.bswap32 (Headers.bswap32 (Headers.bswap32 v <<< 8)) >>> 8) = v := by
  have hshift : Headers.bswap32 v <<< 8 >>> 8 = Headers.bswap32 v := by
    apply BitVec.eq_of_toNat_eq
    rw [BitVec.toNat_ushiftRight, BitVec.toNat_shiftLeft, Nat.shiftLeft_eq, Nat.shiftRight_eq_div_pow]
    omega
  rw [bswap32_bswap32, hshift, bswap32_bswap32]

/-! ## All modules -/

theorem vxlanEncap_spec (crc : List Byte → BitVec 32 → BitVec 32) (dstport : BitVec 16) (a : Attrs)
    (h : 16 ≤ p.head) :
    ∃ out m, vxlanEncap crc dstport p a =
        (out, { a with ipSrc := a.tunIpSrc, ipDst := a.tunIpDst, ipProto := kUdp }) ∧
      Packet.Prefixed p 16 out ∧
      out.view = writeVxlan crc dstport (p.pktLen.setWidth 16) a.tunId m := by
  obtain ⟨q, hq, hpre⟩ : ∃ q, p.prepend 16 = some q ∧ Packet.Prefixed p 16 (q.edit _) :=
    Packet.prepend_edit (writeVxlan crc dstport (p.pktLen.setWidth 16) a.tunId) h
      fun m i hi => writeVxlan_behind hi
  refine ⟨_, q.view, ?_, hpre, Packet.view_edit ..⟩
  rw [vxlanEncap, hq]

theorem ipEncap_spec (a : Attrs) (h : 20 ≤ p.head) :
    ∃ out m, ipEncap p a = (out, { a with ipNexthop := a.ipDst, etherType := bswap16 kIpv4 }) ∧
      Packet.Prefixed p 20 out ∧
      out.view = writeIpv4 (p.pktLen.setWidth 16 + 20#16) a.ipProto a.ipSrc a.ipDst m := by
  obtain ⟨q, hq, hpre⟩ : ∃ q, p.prepend 20 = some q ∧ Packet.Prefixed p 20 (q.edit _) :=
    Packet.prepend_edit (writeIpv4 (p.pktLen.setWidth 16 + 20#16) a.ipProto a.ipSrc a.ipDst) h
      fun m i hi => writeIpv4_behind hi
  refine ⟨_, q.view, ?_, hpre, Packet.view_edit ..⟩
  rw [ipEncap, hq]

theorem etherEncap_spec (a : Attrs) (h : 14 ≤ p.head) :
    ∃ out, etherEncap p a = (out, a) ∧ Packet.Prefixed p 14 out := by
  obtain ⟨q, hq, hpre⟩ : ∃ q, p.prepend 14 = some q ∧ Packet.Prefixed p 14 (q.edit _) :=
    Packet.prepend_edit (writeEther a.etherDst a.etherSrc a.etherType) h
      fun m i hi => writeEther_behind hi
  refine ⟨_, ?_, hpre⟩
  rw [etherEncap, hq]

/-- The packet in the tunnel, with its attributes. -/
def tunnelled (crc : List Byte → BitVec 32 → BitVec 32) (dstport : BitVec 16) (pkt : Packet)
    (a : Attrs) : Packet × Attrs :=
  let (pkt, a) := vxlanEncap crc dstport pkt a
  let (pkt, a) := ipEncap pkt a
  etherEncap pkt a

/-- What the packet in the tunnel looks like. -/
structure Tunnelled (pkt : Packet) (a : Attrs) (out : Packet) : Prop where
  data : ∃ headers, headers.length = 50 ∧ out.data = headers ++ pkt.data
  dataLen : 50 ≤ out.dataLen.toNat
  l4 : l4 (ipHeader out) = 20
  src : load32 (ipHeader out) srcOffset = a.tunIpSrc
  dst : load32 (ipHeader out) dstOffset = a.tunIpDst
  vni : load32 (ipHeader out) (20 + 12) = Headers.bswap32 (Headers.bswap32 a.tunId <<< 8)
  ipLength : ipLength (ipHeader out) = (pkt.data.length + 36) % 65536
  udpLength : udpLength (ipHeader out) = (pkt.data.length + 16) % 65536
  checksum : ∀ avx2, verifyIpv4Checksum avx2 (ipHeader out) = true

theorem toNat_add_setWidth (p : Packet) (n : Nat) :
    (p.pktLen.setWidth 16 + BitVec.ofNat 16 n).toNat = (p.data.length + n) % 65536 := by
  rw [BitVec.toNat_add, BitVec.toNat_setWidth, BitVec.toNat_ofNat, p.pktLen_eq, BitVec.toNat_ofNat]
  omega

theorem tunnelled_spec (crc : List Byte → BitVec 32 → BitVec 32) (dstport : BitVec 16) (a : Attrs)
    (h : 50 ≤ p.head) : Tunnelled p a (tunnelled crc dstport p a).1 := by
  obtain ⟨p1, m1, h1, pre1, view1⟩ := vxlanEncap_spec crc dstport a (show 16 ≤ p.head by omega)
  have head1 := pre1.head
  obtain ⟨p2, m2, h2, pre2, view2⟩ := ipEncap_spec (p := p1)
    { a with ipSrc := a.tunIpSrc, ipDst := a.tunIpDst, ipProto := kUdp } (by omega)
  have head2 := pre2.head
  obtain ⟨p3, h3, pre3⟩ := etherEncap_spec (p := p2)
    { a with ipSrc := a.tunIpSrc, ipDst := a.tunIpDst, ipProto := kUdp, ipNexthop := a.tunIpDst,
             etherType := bswap16 kIpv4 } (by omega)
  have hout : (tunnelled crc dstport p a).1 = p3 := by
    simp only [tunnelled, h1, h2, h3]
  have hip : ipHeader p3 = p2.view := pre3.view
  have hl4 : l4 p2.view = 20 := view2 ▸ l4_writeIpv4
  have hinner : ∀ o, load16 p2.view (20 + o) = load16 p1.view o := fun o => by
    rw [load16_behind, pre2.view]
  have hinner' : ∀ o, load32 p2.view (20 + o) = load32 p1.view o := fun o => by
    rw [load32_behind, pre2.view]
  have len1 := pre1.length
  rw [hout]
  constructor
  · refine ⟨bytes p3.view 0 14 ++ (bytes p2.view 0 20 ++ bytes p1.view 0 16), ?_, ?_⟩
    · simp only [List.length_append, length_bytes]
    · rw [pre3.data, pre2.data, pre1.data, List.append_assoc, List.append_assoc]
  · have := pre3.dataLen
    have := pre2.dataLen
    have := pre1.dataLen
    omega
  · rw [hip, hl4]
  · rw [hip, view2, load32_src_writeIpv4]
  · rw [hip, view2, load32_dst_writeIpv4]
  · rw [hip, hinner', view1, load32_writeVxlan]
  · rw [hip, view2, ipLength_writeIpv4, toNat_add_setWidth, len1]
    congr 1
    omega
  · rw [hip, Headers.udpLength, hl4, hinner, view1, load16_writeVxlan, bswap16_bswap16,
      toNat_add_setWidth]
  · intro avx2
    rw [hip, view2, verify_writeIpv4]

/-- Through the tunnel and back, for every packet that fits an IPv4 packet with the headers. -/
theorem tunnel_round_trip (crc : List Byte → BitVec 32 → BitVec 32) (dstport : BitVec 16)
    (pkt : Packet) (a : Attrs) (hroom : 50 ≤ pkt.head) (hlen : pkt.data.length ≤ 65499)
    (hid : (Headers.bswap32 a.tunId).toNat < 2 ^ 24) {out back : Packet} {b c : Attrs}
    (hout : tunnelled crc dstport pkt a = (out, b)) (hback : vxlanDecap out b = (back, c)) :
    (back.data = pkt.data ∧ back.pktLen = pkt.pktLen) ∧
    (c.tunIpSrc = a.tunIpSrc ∧ c.tunIpDst = a.tunIpDst ∧ c.tunId = a.tunId) ∧
    ipLength (ipHeader out) + sizeofEther = out.data.length ∧
    udpLength (ipHeader out) + l4 (ipHeader out) + sizeofEther = out.data.length ∧
    ∀ avx2, verifyIpv4Checksum avx2 (ipHeader out) = true := by
  have hspec := tunnelled_spec crc dstport a hroom
  rw [hout] at hspec
  obtain ⟨headers, hheaders, hdata⟩ := hspec.data
  simp only at hdata
  have htotal : out.data.length = 50 + pkt.data.length := by
    rw [hdata, List.length_append, hheaders]
  obtain ⟨q, hq⟩ : ∃ q, out.adj 50 = some q := Packet.adj_some hspec.dataLen
  have hqdata : q.data = pkt.data := by
    rw [Packet.adj_data hq, hdata]
    exact List.drop_left' hheaders
  simp only [vxlanDecap, hspec.l4, Prod.mk.injEq] at hback
  obtain ⟨hpkt, rfl⟩ := hback
  have hpkt : back = q := by
    rw [← hpkt]
    exact congrArg (Option.getD · out) hq
  subst hpkt
  refine ⟨⟨hqdata, ?_⟩, ⟨hspec.src, hspec.dst, ?_⟩, ?_, ?_, hspec.checksum⟩
  · rw [Packet.pktLen_eq, hqdata, ← Packet.pktLen_eq]
  · exact (congrArg (fun v => Headers.bswap32 (Headers.bswap32 v >>> 8)) hspec.vni).trans
      (tunId_back hid)
  · rw [hspec.ipLength, htotal, sizeofEther]
    omega
  · rw [hspec.udpLength, hspec.l4, htotal, sizeofEther]
    omega

/-- A packet of two bytes. -/
def twoBytes : Packet where
  buf := BitVec.ofNat 8
  dataOff := 128
  dataLen := 2
  bufLen := 2048
  pktLen := 2
  rest := []
  inside := by decide
  len_eq := by decide

def someAttrs : Attrs := ⟨0x0100007f, 0x0200007f, 0x05000000, 0, 0, 0, 0, 1, 2, 0⟩

theorem twoBytes_round_trip : ∃ out back b c,
    tunnelled (fun _ v => v) 0 twoBytes someAttrs = (out, b) ∧ vxlanDecap out b = (back, c) ∧
    (back.data = [128, 129] ∧ back.pktLen = 2) ∧
    (c.tunIpSrc = 0x0100007f ∧ c.tunIpDst = 0x0200007f ∧ c.tunId = 0x05000000) ∧
    ipLength (ipHeader out) + sizeofEther = out.data.length ∧
    udpLength (ipHeader out) + l4 (ipHeader out) + sizeofEther = out.data.length ∧
    ∀ avx2, verifyIpv4Checksum avx2 (ipHeader out) = true :=
  ⟨_, _, _, _, rfl, rfl, tunnel_round_trip (fun _ v => v) 0 twoBytes someAttrs (by decide)
    (by decide) (by decide) rfl rfl⟩

end Bess.Modules.Tunnel
