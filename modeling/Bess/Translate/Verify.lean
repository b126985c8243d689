import Bess.Translate.Packet

/-!
# What a rewrite leaves in a packet

The address and the port, or the identifier of an ICMP message, are those of the new endpoint.
-/

namespace Bess.Translate

open Bess.ByteMem Bess.Headers

variable {m : Mem} {o : Nat}

/-! ## The rewrites -/

section Stamp

variable {dir : Direction} {before after : Endpoint}

theorem stampL4_of_lt {proto : Byte} {i : Nat} (h : i < o) :
    stampL4 dir proto o m before after i = m i := by
  unfold stampL4 store16
  simp only
  split
  · split
    · rw [store_of_not _ (by omega), store_of_not _ (by omega)]
    · split
      · rw [store_of_not _ (by omega), store_of_not _ (by omega)]
      · rw [store_of_not _ (by omega)]
  · rw [store_of_not _ (by omega), store_of_not _ (by omega)]

theorem stamp_of_lt {i : Nat} (h : i < l4 m) :
    stamp dir m before after i = stampIp dir m before after i := stampL4_of_lt h

end Stamp

/-! ## What is written -/

section Written

variable {before after : Endpoint}

theorem load32_stamp (dir : Direction) (hl : 20 ≤ l4 m) :
    load32 (stamp dir m before after) dir.addrOffset = after.addr := by
  obtain ⟨h1, h2⟩ : 12 ≤ dir.addrOffset ∧ dir.addrOffset ≤ 16 := by cases dir <;> decide
  have hb : bytes (stamp dir m before after) dir.addrOffset 4 =
      bytes (stampIp dir m before after) dir.addrOffset 4 :=
    bytes_congr fun i _ h4 => stamp_of_lt (by omega)
  have hload : load32 (stamp dir m before after) dir.addrOffset =
      load32 (stampIp dir m before after) dir.addrOffset := by
    rw [load32, load, hb, load32, load]
  rw [hload]
  unfold stampIp
  rw [load32_store16_of_disjoint _ (by rw [ipChecksumOffset]; omega), load32_store32]

theorem load16_stamp_port (dir : Direction) (hp : protocol m = kTcp ∨ protocol m = kUdp) :
    load16 (stamp dir m before after) (l4 m + dir.portOffset) = after.port := by
  have hdir : dir.portOffset ≤ 2 := by cases dir <;> decide
  unfold stamp stampL4
  simp only [if_pos hp]
  split
  · rw [load16_store16_of_disjoint _ (by rw [tcpChecksumOffset]; omega), load16_store16]
  · split
    · rw [load16_store16_of_disjoint _ (by rw [udpChecksumOffset]; omega), load16_store16]
    · rw [load16_store16]

theorem load16_stamp_ident (dir : Direction) (hi : protocol m = kIcmp) :
    load16 (stamp dir m before after) (l4 m + icmpIdentOffset) = after.port := by
  have hne : ¬ (protocol m = kTcp ∨ protocol m = kUdp) := by
    rw [hi]
    decide
  unfold stamp stampL4
  simp only [if_neg hne]
  rw [load16_store16_of_disjoint _ (by rw [icmpIdentOffset, icmpChecksumOffset]; omega),
    load16_store16]

end Written

end Bess.Translate
