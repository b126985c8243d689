import Bess.Modules.FlowGenUpdate
import Bess.Utils.Headers

/-!
# The bytes of generated packets

`FillPacket` of `modules/flowgen.cc` writes a packet into a buffer that was used before. It copies the
template into data packets; the first and the last packet of a flow only get some of their header
fields. `ScheduleFlow` draws the destination port from the base of the source port.

Offsets count from the Ethernet header. What a sloppy copy changes behind the packet is left out.
-/

namespace Bess.FlowGen

open Bess.ByteMem Bess.Headers Bess.Modules

/-! ## Ranges -/

structure Ranges where
  ipSrc : UInt32
  ipDst : UInt32
  portSrc : UInt16
  portDst : UInt16

/-- The end of `ProcessArguments`. -/
def ranges (arg : Arg) : Ranges :=
  let portSrc := arg.portSrcRange.toUInt16
  let portDst := arg.portDstRange.toUInt16
  if arg.ipSrcRange = 0 ∧ arg.ipDstRange = 0 ∧ portSrc = 0 ∧ portDst = 0 then ⟨0, 0, 20000, 20000⟩
  else ⟨arg.ipSrcRange, arg.ipDstRange, portSrc, portDst⟩

/-- `GetRange(range)` may return `v`. -/
def Drawable (v range : Nat) : Prop := v < range ∨ range = 0 ∧ v = 0

structure Ranges.Has (r : Ranges) (d : Draw) : Prop where
  ipSrc : Drawable d.srcIp.toNat r.ipSrc.toNat
  ipDst : Drawable d.dstIp.toNat r.ipDst.toNat
  portSrc : Drawable d.srcPort.toNat r.portSrc.toNat
  portDst : Drawable d.dstPort.toNat r.portDst.toNat

/-! ## Bytes -/

/-- A byte of `templ_`, which is filled up with zeros. -/
def templateByte (t : List UInt8) (i : Nat) : Byte := (t.getD i 0).toBitVec

def copyTemplate (t : List UInt8) (m : Mem) : Mem := fun i =>
  if i < t.length then templateByte t i else m i

/-- SYN or FIN? -/
def Flow.control (x : Flow) : Bool := x.firstPkt || decide (x.packetsLeft ≤ 1)

def Flow.tcpFlags (x : Flow) : UInt8 :=
  let flags : UInt8 := if x.firstPkt then 0x02 else 0x10
  if x.packetsLeft ≤ 1 then flags ||| 0x01 else flags

/-- The length and the bytes of a packet of the flow, in a buffer with the bytes `old`. -/
def packetBytes (t : List UInt8) (x : Flow) (old : Mem) : Nat × Mem :=
  let m := if x.control then store16 old 16 (bswap16 40) else copyTemplate t old
  let m := store32 m 26 (bswap32 x.srcIp.toBitVec)
  let m := store32 m 30 (bswap32 x.dstIp.toBitVec)
  let m := store16 m 34 (bswap16 x.srcPort.toBitVec)
  let m := store16 m 36 (bswap16 x.dstPort.toBitVec)
  let m := store m 47 1 x.tcpFlags.toNat
  let m := store32 m 38 (bswap32 x.nextSeqNo.toBitVec)
  (if x.control then 60 else t.length, m)

/-- The bytes that may differ from the template: the IP length, the addresses, the ports, the
sequence number and the TCP flags. -/
def Varies (i : Nat) : Prop := 16 ≤ i ∧ i < 18 ∨ 26 ≤ i ∧ i < 42 ∨ i = 47

/-- `v` is in `[base, base + range)`, or it is `base` if the range is 0. -/
def Within (v base range : Nat) : Prop := base ≤ v ∧ (v < base + range ∨ range = 0 ∧ v = base)

/-- A packet with the bytes `m` is the template with addresses and ports in their ranges. -/
structure FromTemplate (t : List UInt8) (r : Ranges) (len : Nat) (m : Mem) : Prop where
  body : ∀ i < len, ¬ Varies i → m i = templateByte t i
  ipSrc : Within (bswap32 (load32 m 26)).toNat (field t 26 4) r.ipSrc.toNat
  ipDst : Within (bswap32 (load32 m 30)).toNat (field t 30 4) r.ipDst.toNat
  portSrc : Within (bswap16 (load16 m 34)).toNat (field t 34 2) r.portSrc.toNat
  portDst : Within (bswap16 (load16 m 36)).toNat (field t 36 2) r.portDst.toNat

/-- When it is: the buffer of a first or last packet happens to hold the template, no address or
source port passes the largest number, and the destination port, which is counted from the source
port of the template, is in its range. -/
structure Lucky (t : List UInt8) (r : Ranges) (d : Draw) (x : Flow) (old : Mem) : Prop where
  stale : x.control = true → ∀ i < 60, ¬ Varies i → old i = templateByte t i
  ipSrc : field t 26 4 + d.srcIp.toNat < 2 ^ 32
  ipDst : field t 30 4 + d.dstIp.toNat < 2 ^ 32
  portSrc : field t 34 2 + d.srcPort.toNat < 2 ^ 16
  portDst : Within ((field t 34 2 + d.dstPort.toNat) % 2 ^ 16) (field t 36 2) r.portDst.toNat

variable {t : List UInt8} {r : Ranges} {c : Config} {d : Draw} {x : Flow} {old m : Mem}

theorem packetBytes_of_not_varies {i : Nat} (h : ¬ Varies i) :
    (packetBytes t x old).2 i = if x.control then old i else copyTemplate t old i := by
  unfold Varies at h
  simp only [packetBytes, store32, store16]
  rw [store_of_not _ (by omega), store_of_not _ (by omega), store_of_not _ (by omega),
    store_of_not _ (by omega), store_of_not _ (by omega), store_of_not _ (by omega)]
  split
  · rw [store_of_not _ (by omega)]
  · rfl

theorem load32_store {o o' n v : Nat} (h : o + n ≤ o' ∨ o' + 4 ≤ o) :
    load32 (store m o n v) o' = load32 m o' := by
  rw [load32, load_store_disjoint v h, load32]

theorem load16_store {o o' n v : Nat} (h : o + n ≤ o' ∨ o' + 2 ≤ o) :
    load16 (store m o n v) o' = load16 m o' := by
  rw [load16, load_store_disjoint v h, load16]

/-- The addresses and ports in the packet are those of the flow. -/
theorem packetBytes_fields (t : List UInt8) (x : Flow) (old : Mem) :
    bswap32 (load32 (packetBytes t x old).2 26) = x.srcIp.toBitVec ∧
    bswap32 (load32 (packetBytes t x old).2 30) = x.dstIp.toBitVec ∧
    bswap16 (load16 (packetBytes t x old).2 34) = x.srcPort.toBitVec ∧
    bswap16 (load16 (packetBytes t x old).2 36) = x.dstPort.toBitVec := by
  simp only [packetBytes]
  refine ⟨?_, ?_, ?_, ?_⟩
  · rw [store32, load32_store (by omega), load32_store (by omega), store16,
      load32_store (by omega), store16, load32_store (by omega), store32, load32_store (by omega),
      load32_store32, bswap32_bswap32]
  · rw [store32, load32_store (by omega), load32_store (by omega), store16,
      load32_store (by omega), store16, load32_store (by omega), load32_store32, bswap32_bswap32]
  · rw [store32, load16_store (by omega), load16_store (by omega), store16,
      load16_store (by omega), load16_store16, bswap16_bswap16]
  · rw [store32, load16_store (by omega), load16_store (by omega), load16_store16, bswap16_bswap16]

/-! ## Draws -/

/-- An offset that may be drawn keeps the sum in the range iff it does not pass the largest number. -/
theorem within_iff {base v range w : Nat} (hbase : base < w) (hv : v < w) (h : Drawable v range) :
    Within ((base + v) % w) base range ↔ base + v < w := by
  unfold Within
  unfold Drawable at h
  by_cases hlt : base + v < w
  · rw [Nat.mod_eq_of_lt hlt]
    omega
  · have hmod : (base + v) % w = base + v - w := by
      rw [Nat.mod_eq_sub_mod (by omega), Nat.mod_eq_of_lt (by omega)]
    rw [hmod]
    omega

theorem field_lt (t : List UInt8) (off len : Nat) : field t off len < 256 ^ len := by
  unfold field
  induction len with
  | zero => simp
  | succ len ih =>
    have hb := (t.getD (off + len) 0).toNat_lt
    rw [List.range_succ, List.foldl_append, List.foldl_cons, List.foldl_nil, Nat.pow_succ]
    omega

theorem processArguments_bases {arg : Arg} (h : processArguments arg = .ok c) :
    BasesOf arg.template c := by
  unfold processArguments at h
  dsimp only at h
  have h := check_ok (check_ok (check_ok (check_ok (check_ok h))))
  obtain ⟨arrival, -, h⟩ := bind_ok h
  obtain ⟨duration, -, h⟩ := bind_ok h
  have h := check_ok h
  cases h
  exact ⟨rfl, rfl, rfl, rfl⟩

theorem toNat_base32 (base : Nat) (v : UInt32) :
    (UInt32.ofNat base + v).toNat = (base + v.toNat) % 2 ^ 32 := by
  rw [UInt32.toNat_add, UInt32.toNat_ofNat', Nat.mod_add_mod]

theorem toNat_base16 (base : Nat) (v : UInt16) :
    (UInt16.ofNat base + v).toNat = (base + v.toNat) % 2 ^ 16 := by
  rw [UInt16.toNat_add, UInt16.toNat_ofNat', Nat.mod_add_mod]

/-- A flow that was scheduled with the draw `d`, whatever it has sent since. -/
def scheduled (c : Config) (d : Draw) (left : Int) (first : Bool) (seqNo : UInt32) : Flow :=
  { State.freshFlow c d with packetsLeft := left, firstPkt := first, nextSeqNo := seqNo }

/-- Only the first and the last packet of a flow show what was in the buffer. -/
theorem packetBytes_body_iff (t : List UInt8) (x : Flow) (old : Mem) :
    (∀ i < (packetBytes t x old).1, ¬ Varies i → (packetBytes t x old).2 i = templateByte t i) ↔
      (x.control = true → ∀ i < 60, ¬ Varies i → old i = templateByte t i) := by
  cases hc : x.control with
  | true =>
    refine ⟨fun h _ i hi hv => ?_, fun h i hi hv => ?_⟩
    · have hat := h i (by simpa [packetBytes, hc] using hi) hv
      rwa [packetBytes_of_not_varies hv, hc] at hat
    · rw [packetBytes_of_not_varies hv, hc]
      exact h rfl i (by simpa [packetBytes, hc] using hi) hv
  | false =>
    refine ⟨fun _ h => absurd h Bool.false_ne_true, fun _ i hi hv => ?_⟩
    rw [packetBytes_of_not_varies hv, hc]
    exact if_pos (by simpa [packetBytes, hc] using hi)

theorem within_base32_iff {base : Nat} {a v range : UInt32} (hbase : base < 2 ^ 32)
    (hb : a = UInt32.ofNat base) (hv : Drawable v.toNat range.toNat) :
    Within (a + v).toBitVec.toNat base range.toNat ↔ base + v.toNat < 2 ^ 32 := by
  have hval : (a + v).toBitVec.toNat = (base + v.toNat) % 2 ^ 32 := by
    rw [hb]
    exact toNat_base32 base v
  rw [hval]
  exact within_iff hbase v.toNat_lt hv

/-- For every template and ranges that are accepted, every flow and every buffer. -/
theorem packet_from_template_iff {arg : Arg} (h : processArguments arg = .ok c)
    (hd : (ranges arg).Has d) (left : Int) (first : Bool) (seqNo : UInt32) (old : Mem) :
    let x := scheduled (updateDerivedParameters c) d left first seqNo
    FromTemplate arg.template (ranges arg) (packetBytes arg.template x old).1
      (packetBytes arg.template x old).2 ↔ Lucky arg.template (ranges arg) d x old := by
  intro x
  obtain ⟨hsrc, hdst, hsport, hdport⟩ := packetBytes_fields arg.template x old
  obtain ⟨bsrc, bdst, bsport, bdport⟩ := processArguments_bases h
  have hbody := packetBytes_body_iff arg.template x old
  have h26 := within_base32_iff (field_lt _ 26 4) bsrc hd.ipSrc
  have h30 := within_base32_iff (field_lt _ 30 4) bdst hd.ipDst
  have h34 := within_iff (w := 2 ^ 16) (field_lt arg.template 34 2) d.srcPort.toNat_lt hd.portSrc
  have hport : (bswap16 (load16 (packetBytes arg.template x old).2 34)).toNat =
      (field arg.template 34 2 + d.srcPort.toNat) % 2 ^ 16 := by
    rw [hsport, ← toNat_base16, ← bsport]
    rfl
  have hport' : (bswap16 (load16 (packetBytes arg.template x old).2 36)).toNat =
      (field arg.template 34 2 + d.dstPort.toNat) % 2 ^ 16 := by
    rw [hdport, ← toNat_base16, ← bsport]
    rfl
  rw [← hport] at h34
  constructor
  · rintro ⟨b, h1, h2, h3, h4⟩
    rw [hsrc] at h1
    rw [hdst] at h2
    exact ⟨hbody.mp b, h26.mp h1, h30.mp h2, h34.mp h3, hport' ▸ h4⟩
  · rintro ⟨b, h1, h2, h3, h4⟩
    refine ⟨hbody.mpr b, ?_, ?_, h34.mpr h3, hport'.symm ▸ h4⟩
    · rw [hsrc]
      exact h26.mpr h1
    · rw [hdst]
      exact h30.mpr h2

/-! ## A template -/

/-- 60 zero bytes but for the destination port 80. -/
def webTemplate : List UInt8 := (List.replicate 60 0).set 37 80

def webArg : Arg := ⟨webTemplate, .fin 1, .fin 1, .fin 1, "uniform", "uniform", false, 1, 0, 0, 0⟩

def webConfig : Config :=
  ⟨60, 0, 0, 0, 80, .fin 1, .fin 1, .fin 1, .uniform, .uniform, false, .fin 0, .fin 0, .fin 0, .fin 0⟩

def zeroDraw : Draw := ⟨0, 0, 0, 0, 0, 0, 0⟩

/-- All ranges of `webArg` are a single value. -/
theorem webArg_has : (ranges webArg).Has zeroDraw :=
  ⟨.inl (by decide), .inr (by decide), .inr (by decide), .inr (by decide)⟩

def zeroArg : Arg := { webArg with template := List.replicate 60 0 }

/-- With equal ports in the template a data packet is right. -/
theorem zero_packet_from_template :
    let x := scheduled (updateDerivedParameters { webConfig with portDstBase := 0 }) zeroDraw 5 false 1
    FromTemplate zeroArg.template (ranges zeroArg) (packetBytes zeroArg.template x fun _ => 1).1
      (packetBytes zeroArg.template x fun _ => 1).2 := by
  have haccepted : processArguments zeroArg = .ok { webConfig with portDstBase := 0 } := rfl
  refine (packet_from_template_iff haccepted webArg_has 5 false 1 fun _ => 1).mpr
    ⟨fun h => ?_, by decide, by decide, by decide, by decide, .inr ⟨by decide, by decide⟩⟩
  exact absurd h (by decide)

/-- A data packet goes to port 0 instead of port 80, and the other bytes of a SYN packet are those
that were in the buffer. -/
theorem packet_not_from_template :
    processArguments webArg = .ok webConfig ∧ (ranges webArg).Has zeroDraw ∧
    (bswap16 (load16 (packetBytes webTemplate (scheduled webConfig zeroDraw 5 false 1)
      fun _ => 0).2 36)).toNat = 0 ∧
    field webTemplate 36 2 = 80 ∧
    (packetBytes webTemplate (scheduled webConfig zeroDraw 5 true 1) fun _ => 0xEE#8).2 0 = 0xEE#8 ∧
    templateByte webTemplate 0 = 0 := by
  exact ⟨by rfl, webArg_has, by decide +kernel, by decide +kernel, by decide +kernel,
    by decide +kernel⟩

end Bess.FlowGen
