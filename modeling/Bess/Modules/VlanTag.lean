import Bess.Lib.BigEndian
import Bess.Modules.Packet

/-!
# VLAN tags

`modules/vlan_push.cc` and `modules/vlan_pop.cc`. Both load the first 16 bytes of a packet to one
register and store them four bytes further to the front or to the back. The store of `VLANPop` begins
at the old head and clears the four bytes that are not part of the packet any more.
-/

namespace Bess.Modules.Vlan

open Bess.ByteMem Bess.Packing Bess.BigEndian

/-- `Ethernet::Type::kVlan` -/
def kVlan : BitVec 16 := 0x8100#16

/-- `Ethernet::Type::kQinQ` -/
def kQinQ : BitVec 16 := 0x88a8#16

structure VlanPush where
  vlanTag : BitVec 32
  qinqTag : BitVec 32

def makeTag (type tci : BitVec 16) : BitVec 32 := (type.setWidth 32 <<< 16) ||| tci.setWidth 32

/-- `CommandSetTci`; the number is cut to 16 bits. -/
def commandSetTci (arg : BitVec 64) : VlanPush :=
  let tci := arg.setWidth 16
  ⟨makeTag kVlan tci, makeTag kQinQ tci⟩

/-! ## Registers of 16 bytes -/

/-- `_mm_loadu_si128` -/
def loadu (m : Mem) (o : Nat) : Mem := fun k => if k < 16 then m (o + k) else 0

/-- `_mm_storeu_si128` -/
def storeu (m : Mem) (o : Nat) (r : Mem) : Mem := (⟨o, 16, r⟩ : Write).apply m

/-- `_mm_slli_si128` -/
def slli (r : Mem) (n : Nat) : Mem := fun k => if k < n then 0 else r (k - n)

/-- Word 6 of a register, in network order. -/
def tpid (r : Mem) : BitVec 16 := BitVec.ofNat 16 (loadBe r 12 2)

/-! ## The modules -/

def VlanPush.process (s : VlanPush) (p : Packet) : Packet :=
  match p.prepend 4 with
  | none => p
  | some q =>
    let ethh := loadu q.buf (q.head + 4)
    let tag := if tpid ethh = kVlan then s.qinqTag else s.vlanTag
    q.withBuf (storeu q.buf q.head (storeBe ethh 12 4 tag.toNat))

def vlanPop (p : Packet) : Packet :=
  let eth := loadu p.buf p.head
  if tpid eth = kVlan ∨ tpid eth = kQinQ then
    match p.adj 4 with
    | none => p
    | some q => q.withBuf (storeu p.buf p.head (slli eth 4))
  else p

/-- The four bytes of a tag. -/
def tagBytes (type tci : BitVec 16) : List Byte :=
  [byteAt type.toNat 1, byteAt type.toNat 0, byteAt tci.toNat 1, byteAt tci.toNat 0]

/-- What type of tag goes before a packet with bytes `bs`. -/
def pushedType (bs : List Byte) : BitVec 16 :=
  if (bs.drop 12).take 2 = [0x81#8, 0x00#8] then kQinQ else kVlan

variable {p q : Packet} {m : Mem} {o k : Nat} {r : Mem}

theorem storeu_apply (hk : k < 16) : storeu m o r (o + k) = r k := by
  rw [storeu, Write.apply, if_pos ⟨Nat.le_add_right .., by simp only; omega⟩]
  simp only [Nat.add_sub_cancel_left]

theorem storeu_behind (hk : o + 16 ≤ k) : storeu m o r k = m k := by
  rw [storeu, Write.apply, if_neg fun h => by have := h.2; simp only at this; omega]

theorem loadu_storeu (hk : k < 16) : loadu (storeu m o r) o k = r k := by
  rw [loadu, if_pos hk, storeu_apply hk]

/-! ## Tags -/

theorem toNat_makeTag (type tci : BitVec 16) :
    (makeTag type tci).toNat = type.toNat * 256 ^ 2 + tci.toNat := by
  have h1 := type.isLt
  have h2 := tci.isLt
  have hshift : (type.setWidth 32 <<< 16).toNat = type.toNat <<< 16 := by
    rw [BitVec.toNat_shiftLeft, BitVec.toNat_setWidth, Nat.shiftLeft_eq, Nat.shiftLeft_eq]
    omega
  rw [makeTag, BitVec.toNat_or, hshift, BitVec.toNat_setWidth,
    Nat.mod_eq_of_lt (show tci.toNat < 2 ^ 32 by omega), ← Nat.shiftLeft_add_eq_or_of_lt h2,
    Nat.shiftLeft_eq]
  norm_num

/-- The bytes of a tag, the highest first. -/
theorem bytes_makeTag (type tci : BitVec 16) (r : Mem) :
    bytes (storeBe r 12 4 (makeTag type tci).toNat) 12 4 = tagBytes type tci := by
  have h1 := type.isLt
  have h2 := tci.isLt
  simp only [bytes, storeBe, tagBytes, toNat_makeTag, byteAt, List.cons.injEq, and_true]
  refine ⟨?_, ?_, ?_, ?_⟩ <;>
  · apply BitVec.eq_of_toNat_eq
    simp
    omega

theorem tpid_eq_iff {t : BitVec 16} :
    tpid r = t ↔ bytes r 12 2 = [byteAt t.toNat 1, byteAt t.toNat 0] := by
  have h12 := (r 12).isLt
  have h13 := (r 13).isLt
  have ht := t.isLt
  have hload : loadBe r 12 2 = (r 12).toNat * 256 + (r 13).toNat := by
    simp [loadBe, beNat, bytes, leNat]
    omega
  rw [tpid, hload, ← BitVec.toNat_inj, BitVec.toNat_ofNat]
  simp only [bytes, List.cons.injEq, and_true, ← BitVec.toNat_inj, byteAt, BitVec.toNat_ofNat]
  norm_num
  omega

theorem take_tagBytes (type tci : BitVec 16) :
    (tagBytes type tci).take 2 = [byteAt type.toNat 1, byteAt type.toNat 0] := rfl

/-! ## Pushing -/

/-- The register that is stored. -/
def pushed (type tci : BitVec 16) (p : Packet) : Mem :=
  storeBe (loadu p.buf p.head) 12 4 (makeTag type tci).toNat

theorem process_eq (tci : BitVec 64) (h : p.prepend 4 = some q) :
    ∃ type, (type = kVlan ∨ type = kQinQ) ∧
      (14 ≤ p.dataLen.toNat → type = pushedType p.data) ∧
      (commandSetTci tci).process p =
        q.withBuf (storeu q.buf q.head (pushed type (tci.setWidth 16) p)) := by
  obtain ⟨hhead, -, hbuf, -⟩ := Packet.prepend_spec h
  have hhead : q.head + 4 = p.head := hhead
  refine ⟨if tpid (loadu p.buf p.head) = kVlan then kQinQ else kVlan, ?_, fun h14 => ?_, ?_⟩
  · split
    · exact .inr rfl
    · exact .inl rfl
  · have htype : (p.data.drop 12).take 2 = bytes (loadu p.buf p.head) 12 2 := by
      obtain ⟨n, hn⟩ : ∃ n, p.dataLen.toNat = 12 + (2 + n) := ⟨p.dataLen.toNat - 14, by omega⟩
      rw [Packet.data, hn, bytes_add, List.append_assoc, List.drop_append_of_le_length (by simp),
        List.drop_of_length_le (by simp), List.nil_append, bytes_add, List.append_assoc,
        List.take_append_of_le_length (by simp), List.take_of_length_le (by simp)]
      rfl
    rw [pushedType, htype]
    exact if_congr tpid_eq_iff rfl rfl
  · simp only [VlanPush.process, h]
    rw [hhead, hbuf]
    simp only [pushed, commandSetTci]
    split <;> rfl

theorem pushed_front {type tci : BitVec 16} (hk : k < 12) :
    pushed type tci p k = p.buf (p.head + k) := by
  rw [pushed, storeBe, if_neg (by omega), loadu, if_pos (by omega)]

/-- The packet with its tag: the addresses, the tag and the old type and payload. -/
theorem data_pushed {type tci : BitVec 16} (h : p.prepend 4 = some q) (hlen : 12 ≤ p.dataLen.toNat) :
    (q.withBuf (storeu q.buf q.head (pushed type tci p))).data =
      p.data.take 12 ++ tagBytes type tci ++ p.data.drop 12 := by
  obtain ⟨hhead, hqlen, hbuf, hrest⟩ := Packet.prepend_spec h
  have hhead : q.head + 4 = p.head := hhead
  obtain ⟨n, hn⟩ : ∃ n, p.dataLen.toNat = 12 + n := ⟨p.dataLen.toNat - 12, by omega⟩
  have hqn : q.dataLen.toNat = 12 + (4 + n) := by
    rw [hqlen, hn]
    change 12 + n + 4 = _
    omega
  set r := pushed type tci p with hr
  have hfront : bytes (storeu q.buf q.head r) q.head 12 = bytes p.buf p.head 12 := by
    rw [bytes_eq_map, bytes_eq_map]
    refine List.map_congr_left fun k hk => ?_
    rw [storeu_apply (by have := List.mem_range.mp hk; omega), hr,
      pushed_front (List.mem_range.mp hk)]
  have htag : bytes (storeu q.buf q.head r) (q.head + 12) 4 = tagBytes type tci := by
    rw [← bytes_makeTag type tci (loadu p.buf p.head), bytes_eq_map, bytes_eq_map]
    refine List.map_congr_left fun k hk => ?_
    rw [Nat.add_assoc, storeu_apply (by have := List.mem_range.mp hk; omega)]
    rfl
  have hback : bytes (storeu q.buf q.head r) (q.head + 12 + 4) n = bytes p.buf (p.head + 12) n := by
    rw [show q.head + 12 + 4 = p.head + 12 by omega]
    refine bytes_congr fun i hi _ => ?_
    rw [storeu_behind (by omega), hbuf]
  have hdata : p.data = bytes p.buf p.head 12 ++ (bytes p.buf (p.head + 12) n ++ p.rest) := by
    rw [Packet.data, hn, bytes_add, List.append_assoc]
  rw [hdata, List.take_left' (length_bytes ..), List.drop_left' (length_bytes ..)]
  change bytes (storeu q.buf q.head r) q.head q.dataLen.toNat ++ q.rest = _
  rw [hqn, bytes_add, bytes_add, hfront, htag, hback, hrest]
  simp only [List.append_assoc]

/-! ## Popping -/

/-- The tag that was pushed is found, and the bytes move back. -/
theorem vlanPop_pushed {type tci : BitVec 16} (htype : type = kVlan ∨ type = kQinQ)
    (h : p.prepend 4 = some q) :
    (vlanPop (q.withBuf (storeu q.buf q.head (pushed type tci p)))).data = p.data := by
  obtain ⟨hhead, hqlen, hbuf, hrest⟩ := Packet.prepend_spec h
  have hhead : q.head + 4 = p.head := hhead
  have hqlen : q.dataLen.toNat = p.dataLen.toNat + 4 := hqlen
  set r := pushed type tci p with hr
  set t := q.withBuf (storeu q.buf q.head r) with ht
  have hload : ∀ k < 16, loadu t.buf t.head k = r k := fun k hk => loadu_storeu hk
  have htpid : tpid (loadu t.buf t.head) = type := by
    rw [tpid_eq_iff]
    have htag := congrArg (List.take 2) (bytes_makeTag type tci (loadu p.buf p.head))
    rw [take_tagBytes] at htag
    rw [← htag]
    simp only [bytes, List.take, hload 12 (by decide), hload 13 (by decide)]
    rfl
  obtain ⟨u, hu⟩ : ∃ u, t.adj 4 = some u := by
    apply Packet.adj_some
    change 4 ≤ q.dataLen.toNat
    omega
  have hpop : vlanPop t = u.withBuf (storeu t.buf t.head (slli (loadu t.buf t.head) 4)) := by
    simp only [vlanPop]
    rw [if_pos (by rwa [htpid]), hu]
  have huhead : u.head = p.head := (Packet.adj_spec hu).1.trans hhead
  have hulen : u.dataLen.toNat = p.dataLen.toNat := by
    have : u.dataLen.toNat + 4 = q.dataLen.toNat := (Packet.adj_spec hu).2.1
    omega
  -- twelve bytes come from the register, the others were never moved
  have hbytes : ∀ i, p.head ≤ i →
      storeu t.buf t.head (slli (loadu t.buf t.head) 4) i = p.buf i := by
    intro i hi
    obtain ⟨d, rfl⟩ := Nat.exists_eq_add_of_le hi
    have hthead : t.head = q.head := rfl
    by_cases hd : d < 12
    · rw [show p.head + d = t.head + (d + 4) by omega, storeu_apply (by omega), slli,
        if_neg (by omega), Nat.add_sub_cancel, hload d (by omega), hr, pushed_front hd, ← hhead, hthead]
      congr 1
      omega
    · rw [storeu_behind (by omega)]
      change storeu q.buf q.head r (p.head + d) = _
      rw [storeu_behind (by omega), hbuf]
  rw [hpop]
  change bytes (storeu t.buf t.head (slli (loadu t.buf t.head) 4)) u.head u.dataLen.toNat ++ u.rest = _
  rw [huhead, hulen, (Packet.adj_spec hu).2.2.2, Packet.data,
    bytes_congr fun i hi _ => hbytes i hi]
  exact congrArg _ hrest

/-- For every packet with four bytes of headroom, tagged or not. -/
theorem vlanPop_push (tci : BitVec 64) (p : Packet) (h4 : 4 ≤ p.head) :
    (vlanPop ((commandSetTci tci).process p)).data = p.data ∧
    (vlanPop ((commandSetTci tci).process p)).pktLen = p.pktLen ∧
    (14 ≤ p.dataLen.toNat → ((commandSetTci tci).process p).data =
      p.data.take 12 ++ tagBytes (pushedType p.data) (tci.setWidth 16) ++ p.data.drop 12) := by
  obtain ⟨q, hq⟩ : ∃ q, p.prepend 4 = some q := Packet.prepend_some h4
  obtain ⟨type, htype, hpushed, heq⟩ := process_eq tci hq
  rw [heq]
  have hback : (vlanPop (q.withBuf (storeu q.buf q.head
      (pushed type (tci.setWidth 16) p)))).data = p.data := vlanPop_pushed htype hq
  refine ⟨hback, ?_, fun h14 => ?_⟩
  · rw [Packet.pktLen_eq, hback, ← Packet.pktLen_eq]
  · rw [data_pushed hq (by omega), hpushed h14]

/-- A packet of 14 bytes that is tagged already. -/
def tagged : Packet where
  buf := fun i => if i = 140 then 0x81 else if i = 141 then 0 else BitVec.ofNat 8 i
  dataOff := 128
  dataLen := 14
  bufLen := 2048
  pktLen := 14
  rest := []
  inside := by decide
  len_eq := by decide

theorem tagged_restored :
    tagged.data.length = 14 ∧ (vlanPop ((commandSetTci 7).process tagged)).data = tagged.data ∧
    (vlanPop ((commandSetTci 7).process tagged)).pktLen = tagged.pktLen ∧
    (14 ≤ tagged.dataLen.toNat → ((commandSetTci 7).process tagged).data =
      tagged.data.take 12 ++ tagBytes (pushedType tagged.data) 7 ++ tagged.data.drop 12) :=
  ⟨by decide, vlanPop_push 7 tagged (by decide)⟩

end Bess.Modules.Vlan
