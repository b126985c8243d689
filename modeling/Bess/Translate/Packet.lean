import Bess.Utils.Headers

/-!
# Address translation in a packet

What `NAT`, `StaticNAT` and `UpdateTTL` do to the bytes of one packet: they overwrite an address, a
port (or an ICMP identifier) or the time to live, and bring the checksums up to date with
increments.
-/

namespace Bess.Translate

open Bess.ByteMem Bess.Checksum Bess.Headers

/-- An address with a TCP or UDP port or an ICMP identifier, all in network order. -/
structure Endpoint where
  addr : BitVec 32
  port : BitVec 16
  protocol : BitVec 16
  deriving DecidableEq, Repr, Inhabited

inductive Direction where
  | forward
  | reverse
  deriving DecidableEq, Repr

/-- The address that is translated: the source of outbound, the destination of inbound packets. -/
def Direction.addrOffset : Direction → Nat
  | .forward => srcOffset
  | .reverse => dstOffset

/-- `src_port` or `dst_port` -/
def Direction.portOffset : Direction → Nat
  | .forward => 0
  | .reverse => 2

/-- The types of ICMP messages that are translated by their identifier. -/
def identTypes : List Byte := [0#8, 8#8, 13#8, 15#8, 16#8]

def extractEndpoint (m : Mem) (dir : Direction) : Option Endpoint :=
  let proto := protocol m
  let addr := load32 m dir.addrOffset
  if proto = kTcp ∨ proto = kUdp then
    some ⟨addr, load16 m (l4 m + dir.portOffset), proto.setWidth 16⟩
  else if proto = kIcmp ∧ m (l4 m) ∈ identTypes then
    some ⟨addr, load16 m (l4 m + icmpIdentOffset), kIcmp.setWidth 16⟩
  else none

/-- `c ?: 0xffff` -/
def orOnes (c : BitVec 16) : BitVec 16 := if c = 0 then 0xFFFF#16 else c

/-- The address and the checksum of the IPv4 header. -/
def stampIp (dir : Direction) (m : Mem) (before after : Endpoint) : Mem :=
  let m := store32 m dir.addrOffset after.addr
  store16 m ipChecksumOffset (updateChecksumWithIncrement (load16 m ipChecksumOffset)
    (checksumIncrement32 before.addr after.addr))

/-- The port or identifier and the checksum of the layer-4 header at offset `o`. -/
def stampL4 (dir : Direction) (proto : Byte) (o : Nat) (m : Mem) (before after : Endpoint) : Mem :=
  let l4Increment := checksumIncrement32 before.addr after.addr +
    checksumIncrement16 before.port after.port
  if proto = kTcp ∨ proto = kUdp then
    let m := store16 m (o + dir.portOffset) after.port
    if proto = kTcp then
      store16 m (o + tcpChecksumOffset)
        (updateChecksumWithIncrement (load16 m (o + tcpChecksumOffset)) l4Increment)
    else if load16 m (o + udpChecksumOffset) ≠ 0 then
      store16 m (o + udpChecksumOffset)
        (orOnes (updateChecksumWithIncrement (load16 m (o + udpChecksumOffset)) l4Increment))
    else m
  else
    let m := store16 m (o + icmpIdentOffset) after.port
    store16 m (o + icmpChecksumOffset)
      (updateChecksum16 (load16 m (o + icmpChecksumOffset)) before.port after.port)

def stamp (dir : Direction) (m : Mem) (before after : Endpoint) : Mem :=
  stampL4 dir (protocol m) (l4 m) (stampIp dir m before after) before after

/-! ## StaticNAT -/

/-- A block of `size` internal addresses and the external ones they stand for, in host order. -/
structure AddressPair where
  intAddr : BitVec 32
  extAddr : BitVec 32
  size : BitVec 32

namespace AddressPair

def start (p : AddressPair) : Direction → BitVec 32
  | .forward => p.intAddr
  | .reverse => p.extAddr

def diff (p : AddressPair) : Direction → BitVec 32
  | .forward => p.extAddr - p.intAddr
  | .reverse => p.intAddr - p.extAddr

def covers (p : AddressPair) (dir : Direction) (addr : BitVec 32) : Bool :=
  p.start dir ≤ addr ∧ addr < p.start dir + p.size

end AddressPair

/-- `UpdateChecksum` of `static_nat.cc`. -/
def updateChecksum (m : Mem) (incr : BitVec 32) : Mem :=
  let o := l4 m
  let proto := protocol m
  let m := store16 m ipChecksumOffset
    (updateChecksumWithIncrement (load16 m ipChecksumOffset) incr)
  if proto = kTcp then
    store16 m (o + tcpChecksumOffset)
      (updateChecksumWithIncrement (load16 m (o + tcpChecksumOffset)) incr)
  else if proto = kUdp ∧ load16 m (o + udpChecksumOffset) ≠ 0 then
    store16 m (o + udpChecksumOffset)
      (orOnes (updateChecksumWithIncrement (load16 m (o + udpChecksumOffset)) incr))
  else m

def staticNat (pairs : List AddressPair) (dir : Direction) (m : Mem) : Mem :=
  let addrBe := load32 m dir.addrOffset
  let addr := bswap32 addrBe
  match pairs.find? (·.covers dir addr) with
  | none => m
  | some p =>
    let newAddrBe := bswap32 (addr + p.diff dir)
    store32 (updateChecksum m (checksumIncrement32 addrBe newAddrBe)) dir.addrOffset newAddrBe

end Bess.Translate
