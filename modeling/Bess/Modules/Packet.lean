import Bess.Lib.Packing
import Mathlib.Data.BitVec

/-!
# Packets in their buffers

`prepend` and `adj` of `packet.h`. The data of a packet begins in a buffer, between headroom and
tailroom, and may go on in further segments, which are not touched here. Both functions move the
start of the data and leave the bytes of the buffer to the caller.
-/

namespace Bess.Modules

open Bess.ByteMem Bess.Packing

/-- `Packet`, with the bytes of its further segments. -/
structure Packet where
  buf : Mem
  dataOff : BitVec 16
  dataLen : BitVec 16
  bufLen : BitVec 16
  pktLen : BitVec 32
  rest : List Byte
  inside : dataOff.toNat + dataLen.toNat ≤ bufLen.toNat
  len_eq : pktLen = BitVec.ofNat 32 (dataLen.toNat + rest.length)

namespace Packet

/-- Where `head_data` points to in the buffer. -/
def head (p : Packet) : Nat := p.dataOff.toNat

/-- The bytes from `head_data` on, where the headers are. -/
def view (p : Packet) : Mem := fun i => p.buf (p.head + i)

/-- All bytes of the packet. -/
def data (p : Packet) : List Byte := bytes p.buf p.head p.dataLen.toNat ++ p.rest

/-- The packet with other bytes in its buffer. -/
def withBuf (p : Packet) (buf : Mem) : Packet := { p with buf }

/-- The packet after `f` has written to a header at `head_data`. -/
def edit (p : Packet) (f : Mem → Mem) : Packet :=
  p.withBuf fun i => if i < p.head then p.buf i else f p.view (i - p.head)

theorem prepend_inside {off len dataLen bufLen : BitVec 16}
    (h : off.toNat + dataLen.toNat ≤ bufLen.toNat) (hle : ¬ off < len) :
    (off - len).toNat = off.toNat - len.toNat ∧
      (dataLen + len).toNat = dataLen.toNat + len.toNat := by
  have := bufLen.isLt
  rw [BitVec.lt_def] at hle
  rw [BitVec.toNat_sub, BitVec.toNat_add]
  omega

theorem adj_inside {off len dataLen bufLen : BitVec 16}
    (h : off.toNat + dataLen.toNat ≤ bufLen.toNat) (hle : ¬ dataLen < len) :
    (off + len).toNat = off.toNat + len.toNat ∧
      (dataLen - len).toNat = dataLen.toNat - len.toNat := by
  have := bufLen.isLt
  rw [BitVec.lt_def] at hle
  rw [BitVec.toNat_sub, BitVec.toNat_add]
  omega

def prepend (p : Packet) (len : BitVec 16) : Option Packet :=
  if h : p.dataOff < len then none
  else some { p with
    dataOff := p.dataOff - len
    dataLen := p.dataLen + len
    pktLen := p.pktLen + len.setWidth 32
    inside := by
      obtain ⟨h1, h2⟩ := prepend_inside p.inside h
      rw [BitVec.lt_def] at h
      have := p.inside
      omega
    len_eq := by
      obtain ⟨-, h2⟩ := prepend_inside p.inside h
      apply BitVec.eq_of_toNat_eq
      rw [p.len_eq, h2]
      simp only [BitVec.toNat_add, BitVec.toNat_ofNat, BitVec.toNat_setWidth]
      omega }

def adj (p : Packet) (len : BitVec 16) : Option Packet :=
  if h : p.dataLen < len then none
  else some { p with
    dataOff := p.dataOff + len
    dataLen := p.dataLen - len
    pktLen := p.pktLen - len.setWidth 32
    inside := by
      obtain ⟨h1, h2⟩ := adj_inside p.inside h
      rw [BitVec.lt_def] at h
      have := p.inside
      omega
    len_eq := by
      obtain ⟨-, h2⟩ := adj_inside p.inside h
      have hlt := len.isLt
      rw [BitVec.lt_def] at h
      apply BitVec.eq_of_toNat_eq
      rw [p.len_eq, h2]
      simp only [BitVec.toNat_sub, BitVec.toNat_ofNat, BitVec.toNat_setWidth]
      omega }

variable {p q : Packet} {len : BitVec 16} {m : Mem}

theorem length_data (p : Packet) : p.data.length = p.dataLen.toNat + p.rest.length := by
  rw [data, List.length_append, length_bytes]

/-- The length of a packet is that of its bytes. -/
theorem pktLen_eq (p : Packet) : p.pktLen = BitVec.ofNat 32 p.data.length := by
  rw [length_data, p.len_eq]

theorem prepend_some (h : len.toNat ≤ p.head) : ∃ q, p.prepend len = some q := by
  refine ⟨_, dif_neg ?_⟩
  rw [BitVec.lt_def]
  exact not_lt.mpr h

theorem adj_some (h : len.toNat ≤ p.dataLen.toNat) : ∃ q, p.adj len = some q := by
  refine ⟨_, dif_neg ?_⟩
  rw [BitVec.lt_def]
  exact not_lt.mpr h

theorem prepend_spec (h : p.prepend len = some q) :
    q.head + len.toNat = p.head ∧ q.dataLen.toNat = p.dataLen.toNat + len.toNat ∧ q.buf = p.buf ∧
      q.rest = p.rest := by
  unfold prepend at h
  split at h
  · cases h
  · rename_i hle
    cases h
    obtain ⟨h1, h2⟩ := prepend_inside p.inside hle
    rw [BitVec.lt_def] at hle
    refine ⟨?_, h2, rfl, rfl⟩
    simp only [head, h1]
    omega

theorem adj_spec (h : p.adj len = some q) :
    q.head = p.head + len.toNat ∧ q.dataLen.toNat + len.toNat = p.dataLen.toNat ∧ q.buf = p.buf ∧
      q.rest = p.rest := by
  unfold adj at h
  split at h
  · cases h
  · rename_i hle
    cases h
    obtain ⟨h1, h2⟩ := adj_inside p.inside hle
    rw [BitVec.lt_def] at hle
    refine ⟨h1, ?_, rfl, rfl⟩
    simp only [h2]
    omega

/-- Bytes that are written to the new room come before those of the packet. -/
theorem data_prepend (h : p.prepend len = some q) (hkeep : ∀ i, p.head ≤ i → m i = p.buf i) :
    (q.withBuf m).data = bytes m q.head len.toNat ++ p.data := by
  obtain ⟨hhead, hlen, -, hrest⟩ := prepend_spec h
  have hold : bytes m p.head p.dataLen.toNat = bytes p.buf p.head p.dataLen.toNat :=
    bytes_congr fun i hi _ => hkeep i hi
  calc (q.withBuf m).data = bytes m q.head q.dataLen.toNat ++ q.rest := rfl
    _ = bytes m q.head (len.toNat + p.dataLen.toNat) ++ p.rest := by
      rw [hlen, hrest, Nat.add_comm]
    _ = bytes m q.head len.toNat ++ p.data := by
      rw [bytes_add, hhead, hold, List.append_assoc, data]

/-- What is left has its bytes, unless they are written. -/
theorem data_adj (h : p.adj len = some q) (hkeep : ∀ i, q.head ≤ i → m i = p.buf i) :
    (q.withBuf m).data = p.data.drop len.toNat := by
  obtain ⟨hhead, hlen, -, hrest⟩ := adj_spec h
  have hold : bytes m q.head q.dataLen.toNat = bytes p.buf q.head q.dataLen.toNat :=
    bytes_congr fun i hi _ => hkeep i hi
  have hsplit : p.data = bytes p.buf p.head len.toNat ++
      (bytes p.buf q.head q.dataLen.toNat ++ p.rest) := by
    rw [data, ← hlen, Nat.add_comm, bytes_add, hhead, List.append_assoc]
  rw [hsplit, List.drop_append_of_le_length (by simp), List.drop_of_length_le (by simp),
    List.nil_append, ← hold, ← hrest]
  rfl

theorem adj_data (h : p.adj len = some q) : q.data = p.data.drop len.toNat := by
  obtain ⟨-, -, hbuf, -⟩ := adj_spec h
  have hsame : q.withBuf p.buf = q := by rw [← hbuf]; rfl
  rw [← data_adj h fun _ _ => rfl, hsame]

/-! ## Headers before a packet -/

theorem view_edit (p : Packet) (f : Mem → Mem) : (p.edit f).view = f p.view := by
  funext i
  change (if p.head + i < p.head then _ else f p.view (p.head + i - p.head)) = _
  rw [if_neg (by omega), Nat.add_sub_cancel_left]

theorem bytes_view (p : Packet) (n : Nat) : bytes p.view 0 n = bytes p.buf p.head n := by
  rw [bytes_eq_map, bytes_eq_map]
  exact List.map_congr_left fun k _ => by rw [Nat.zero_add, view]

/-- The packet `out` is `p` behind a header of `n` bytes. -/
structure Prefixed (p : Packet) (n : Nat) (out : Packet) : Prop where
  data : out.data = bytes out.view 0 n ++ p.data
  view : (fun i => out.view (n + i)) = p.view
  head : out.head + n = p.head
  dataLen : out.dataLen.toNat = p.dataLen.toNat + n

/-- A header that is written to new room is followed by the packet. -/
theorem prepend_edit (f : Mem → Mem) (hroom : len.toNat ≤ p.head)
    (hf : ∀ m i, len.toNat ≤ i → f m i = m i) :
    ∃ q, p.prepend len = some q ∧ Prefixed p len.toNat (q.edit f) := by
  obtain ⟨q, hq⟩ := prepend_some hroom
  obtain ⟨hhead, hlen, hbuf, -⟩ := prepend_spec hq
  refine ⟨q, hq, ?_, funext fun i => ?_, hhead, hlen⟩
  · rw [bytes_view]
    refine data_prepend hq fun i hi => ?_
    rw [if_neg (by omega), hf _ _ (by omega), view, hbuf]
    congr 1
    omega
  · rw [view_edit, hf _ _ (Nat.le_add_right ..), view, view, hbuf, ← Nat.add_assoc, hhead]

theorem Prefixed.length {n : Nat} (h : Prefixed p n q) : q.data.length = n + p.data.length := by
  rw [h.data, List.length_append, length_bytes]

end Packet

end Bess.Modules
