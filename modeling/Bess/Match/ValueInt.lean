import Bess.Match.ExactMatch

/-!
# Integers as masks and values

A module with one field of `n` bytes and one rule, mask and value given as integers. The key of the
rule has the bytes of the value from the lowest one on, the mask is applied from the highest one on.
There is a byte order in which the rule matches the packets whose integer is the value under the
mask iff the mask is not zero, which stands for all bits, and the mask or the value is the same from
both ends.
-/

namespace Bess.Match.ExactMatch

open Bess.ByteMem Bess.Cuckoo Bess.Packing
open Wildcard (FieldData dropGate)
open ExactMatchTable (offsetBuffers keyAt keyBytes)

/-- The table has a rule for packet `j` of a batch, which sends it to the gate. -/
def Classified (hash : List Byte → BitVec 64) (e : ExactMatch) (stale : Mem) (pkts : List Mem)
    (j : Nat) (gate : BitVec 16) : Prop :=
  ∃ keys, e.table.makeKeys (pkts.map offsetBuffers) stale = some keys ∧
    e.table.table.look (e.table.hashing hash) (keyAt keys j) = some gate

inductive ByteOrder
  | little
  | big

/-- `n` bytes of a packet as one integer. -/
def ByteOrder.read (order : ByteOrder) (pkt : Mem) (offset n : Nat) : Nat :=
  match order with
  | .little => leNat ((List.range n).map fun k => pkt (offset + k))
  | .big => leNat ((List.range n).map fun k => pkt (offset + (n - 1 - k)))

/-- The `n` bytes of the integer are the same from both ends. -/
def SameFromBothEnds (n v : Nat) : Prop := ∀ k < n, byteAt v k = byteAt v (n - 1 - k)

/-! ## Bytes -/

variable {n m : Nat} {M V : BitVec 64} {pkt : Mem}

theorem leNat_map_and_eq_iff {v : Nat} (f : Nat → Byte) (hm : m < 256 ^ n) (hv : v < 256 ^ n) :
    leNat ((List.range n).map f) &&& m = v ↔ ∀ k < n, f k &&& byteAt m k = byteAt v k := by
  constructor
  · intro h k hk
    rw [← h, byteAt_land, byteAt_leNat_map f hk]
  · intro h
    refine byteAt_ext (lt_of_le_of_lt Nat.and_le_right hm) hv fun k hk => ?_
    rw [byteAt_land, byteAt_leNat_map f hk, h k hk]

theorem leNat_ruleBytes (n : Nat) (v : BitVec 64) : leNat (ruleBytes n v) = v.toNat % 256 ^ n := by
  induction n generalizing v with
  | zero => simp [ruleBytes, leNat, Nat.mod_one]
  | succ n ih =>
    have hpow : 256 ^ (n + 1) = 256 * 256 ^ n := Nat.pow_succ'
    rw [ruleBytes, leNat, ih, BitVec.toNat_setWidth, BitVec.toNat_ushiftRight,
      Nat.shiftRight_eq_div_pow, hpow, Nat.mod_mul]

theorem length_ruleBytes (n : Nat) (v : BitVec 64) : (ruleBytes n v).length = n := by
  induction n generalizing v with
  | zero => rfl
  | succ n ih => rw [ruleBytes, List.length_cons, ih]

/-! ## One field and one rule -/

variable {hash : List Byte → BitVec 64} {e e' : ExactMatch}

theorem init_one {offset n : Int} (h : init [⟨some offset, n⟩] [.valueInt M] = some (.ok e)) :
    e.table.table = CuckooMap.new kInitNumBucket kInitNumEntries ∧ ∃ f : ExactMatchField,
      e.table.fields = [f] ∧ ExactMatchTable.fieldMask M n.toNat = some f.mask ∧
      f.offset = offset.toNat ∧ f.size = n.toNat := by
  unfold init at h
  rw [if_neg (by simp)] at h
  obtain ⟨r, hr, heq⟩ := Option.map_eq_some_iff.mp h
  simp only [List.cons_ne_nil, if_false, List.zip_cons_cons, List.zip_nil_right, addFieldsOne,
    addFieldOne, mask64] at hr
  cases ha : ExactMatchTable.addField (T := BitVec 16) .empty offset n M with
  | error err =>
    rw [ha] at hr
    cases hr
    cases heq
  | ok t =>
    rw [ha] at hr
    cases hr
    cases heq
    obtain ⟨htable, f, hf, hrest⟩ := ExactMatchTable.addField_fields ha
    exact ⟨htable, f, hf, hrest⟩

theorem rule_eq_keyAt_iff {T : Type} [Inhabited T] {t : ExactMatchTable T} {f : ExactMatchField}
    (hash : List Byte → BitVec 64) (hf : t.fields = [f]) {value : List Byte}
    (hsize : f.size = value.length) {bufs : List ExactMatchTable.Buffers} {stale keys : Mem}
    {j : Nat} (hkeys : t.makeKeys bufs stale = some keys) (hj : bufs[j]? = some (offsetBuffers pkt)) :
    (t.hashing hash).eq (writeAll (fun _ => 0) (ExactMatchTable.ruleWrites t.fields [value]))
        (keyAt keys j) = true ↔
      load pkt f.offset f.size &&& f.mask = leNat value := by
  have hne : t.fields ≠ [] := by
    rw [hf]
    exact List.cons_ne_nil f []
  have hws : ExactMatchTable.WellSized t.fields [value] := by
    rw [hf]
    refine ⟨rfl, fun p hp => ?_⟩
    cases List.mem_singleton.mp hp
    exact hsize
  obtain ⟨key, hkey⟩ := ExactMatchTable.makeKey_isSome hne stale pkt
  have hiff := ExactMatchTable.key_eq_iff hash hws hkey
  rw [ExactMatchTable.hashing, keyHashing_eq_iff] at hiff ⊢
  rw [ExactMatchTable.bytes_makeKeys hne hkeys hj, ← ExactMatchTable.bytes_makeKey hkey, hiff, hf]
  simp

theorem classified_iff {f : ExactMatchField} {gate : BitVec 64} {err : Error}
    (hnew : e.table.table = CuckooMap.new kInitNumBucket kInitNumEntries)
    (hf : e.table.fields = [f]) (hV : V.toNat < 256 ^ f.size)
    (hadd : e.commandAdd hash ⟨gate, [.valueInt V]⟩ = some (err, e')) (hzero : err.1 = 0)
    {stale : Mem} {pkts : List Mem} {j : Nat} (hj : pkts[j]? = some pkt) :
    Classified hash e' stale pkts j (gate.setWidth 16) ↔
      load pkt f.offset f.size &&& f.mask = V.toNat := by
  obtain ⟨⟨err, ok, e'⟩, hr, heq⟩ := Option.map_eq_some_iff.mp hadd
  cases heq
  have hrule : ruleFieldsFromPb e.table [.valueInt V] = some [ruleBytes f.size V] := by
    unfold ruleFieldsFromPb
    rw [if_neg (by simp [maxFields])]
    simp [ruleField, fieldSize, hf]
  have hlen : f.size = (ruleBytes f.size V).length := (length_ruleBytes _ _).symm
  have hws : ExactMatchTable.WellSized e.table.fields [ruleBytes f.size V] := by
    rw [hf]
    refine ⟨rfl, fun p hp => ?_⟩
    cases List.mem_singleton.mp hp
    exact hlen
  have hrep : CuckooMap.Rep (e.table.hashing hash) e.table.table :=
    (ExactMatchTable.holds_new hnew).rep
  rcases addRule_cases hr with ⟨herr, -⟩ | ⟨rule, t', hrule', htable, rfl⟩
  · rw [herr] at hzero
    cases hzero
  rw [hrule] at hrule'
  cases hrule'
  rcases ExactMatchTable.addRule_cases htable with ⟨herr, -⟩ | ⟨key, r, m, hkey, hins, -, -, rfl⟩
  · rw [herr] at hzero
    cases hzero
  rw [ExactMatchTable.gatherKey_of_wellSized hws] at hkey
  cases hkey
  -- the table was empty, so there is room, and nothing else to be found
  have htakes : r.isSome = true := by
    refine (hrep.insert_isSome_iff _ _ hins).mpr (.inr (.inl ?_))
    rw [hnew]
    exact CuckooMap.room_new _ _ _ _
  have hempty : ∀ k, e.table.table.look (e.table.hashing hash) k = none := by
    intro k
    rw [hnew] at hrep ⊢
    exact CuckooMap.look_new _ _ _ k hrep
  obtain ⟨r', m', hins', -, hlook⟩ := hrep.look_insert
    (writeAll (fun _ => 0) (ExactMatchTable.ruleWrites e.table.fields [ruleBytes f.size V]))
    (RuleArg.gateIdx ⟨gate, [.valueInt V]⟩)
  rw [hins] at hins'
  cases hins'
  obtain ⟨keys, hkeys⟩ : ∃ keys, e.table.makeKeys (pkts.map offsetBuffers) stale = some keys := by
    refine ⟨_, if_neg fun hc => ?_⟩
    have hne : e.table.fields ≠ [] := by
      rw [hf]
      exact List.cons_ne_nil f []
    exact (ExactMatchTable.totalKeySize_pos hne).ne' hc.1
  have hbuf : (pkts.map offsetBuffers)[j]? = some (offsetBuffers pkt) := by
    rw [List.getElem?_map, hj]
    rfl
  have hiff := rule_eq_keyAt_iff hash hf hlen hkeys hbuf
  rw [leNat_ruleBytes, Nat.mod_eq_of_lt hV] at hiff
  have hat := hlook (keyAt keys j)
  rw [hempty] at hat
  constructor
  · rintro ⟨keys', hkeys', hfound⟩
    obtain rfl : keys = keys' := Option.some.inj (hkeys.symm.trans hkeys')
    by_contra hno
    rw [if_neg fun hc => hno (hiff.mp hc.2)] at hat
    exact absurd (hat.symm.trans hfound) (by simp)
  · intro h
    refine ⟨keys, hkeys, hat.trans (if_pos ⟨htakes, hiff.mpr h⟩)⟩

/-! ## The byte orders -/

theorem masked_eq_iff {o : Nat} (hm : m < 256 ^ n) (hV : V.toNat < 256 ^ n) :
    load pkt o n &&& m = V.toNat ↔ ∀ k < n, pkt (o + k) &&& byteAt m k = byteAt V.toNat k := by
  rw [load, bytes_eq_map]
  exact leNat_map_and_eq_iff _ hm hV

theorem byte_and_of_subset (h : V &&& ~~~M = 0) (k : Nat) :
    byteAt V.toNat k &&& byteAt M.toNat k = byteAt V.toNat k := by
  have hand : V &&& M = V := by
    calc V &&& M = V &&& M ||| V &&& ~~~M := by rw [h]; simp
      _ = V := by rw [← BitVec.and_or_distrib_left, BitVec.or_not_self, BitVec.and_allOnes]
  rw [← byteAt_land, ← BitVec.toNat_and, hand]

/-- A mask that lets all bits outside of another one through would find them in the value. -/
theorem byte_subset {v m m' : Byte} (hv : v &&& m = v) (h : (v ||| ~~~m) &&& m' = v) :
    m' &&& m = m' := by
  refine BitVec.eq_of_getLsbD_eq fun i hi => ?_
  have hv := congrArg (fun x : Byte => x.getLsbD i) hv
  have h := congrArg (fun x : Byte => x.getLsbD i) h
  simp only [BitVec.getLsbD_and, BitVec.getLsbD_or, BitVec.getLsbD_not, hi, decide_true,
    Bool.true_and] at hv h ⊢
  revert hv h
  cases v.getLsbD i <;> cases m.getLsbD i <;> cases m'.getLsbD i <;> simp

theorem read_big_eq_iff {o : Nat} (hM : M.toNat < 256 ^ n) (hV : V.toNat < 256 ^ n) :
    ByteOrder.big.read pkt o n &&& M.toNat = V.toNat ↔ ∀ k < n,
      pkt (o + k) &&& byteAt M.toNat (n - 1 - k) = byteAt V.toNat (n - 1 - k) := by
  refine (leNat_map_and_eq_iff _ hM hV).trans ⟨fun h k hk => ?_, fun h k hk => ?_⟩
  · have := h (n - 1 - k) (by omega)
    rwa [show n - 1 - (n - 1 - k) = k by omega] at this
  · have := h (n - 1 - k) (by omega)
    rwa [show n - 1 - (n - 1 - k) = k by omega] at this

/-- The order in which the rule is right for all packets, for the mask that the field has. -/
theorem order_iff {o : Nat} (hM : M.toNat < 256 ^ n)
    (hV : V.toNat < 256 ^ n) (hsub : V &&& ~~~M = 0)
    (hm : ∀ k < n, byteAt m k = byteAt M.toNat (n - 1 - k)) (order : ByteOrder) :
    (∀ pkt : Mem, (∀ k < n, pkt (o + k) &&& byteAt m k = byteAt V.toNat k) ↔
      order.read pkt o n &&& M.toNat = V.toNat) ↔
      SameFromBothEnds n (match order with | .little => M.toNat | .big => V.toNat) := by
  have hbyte := byte_and_of_subset hsub
  cases order with
  | little =>
    have hread : ∀ pkt : Mem, ByteOrder.little.read pkt o n &&& M.toNat = V.toNat ↔
        ∀ k < n, pkt (o + k) &&& byteAt M.toNat k = byteAt V.toNat k := fun pkt =>
      leNat_map_and_eq_iff _ hM hV
    constructor
    · intro h
      -- all bits that the mask leaves open are set
      have hle : ∀ k < n, byteAt M.toNat (n - 1 - k) &&& byteAt M.toNat k =
          byteAt M.toNat (n - 1 - k) := by
        have hspec : ∀ k < n, (byteAt V.toNat k ||| ~~~byteAt M.toNat k) &&& byteAt M.toNat k =
            byteAt V.toNat k := fun k _ => by
          rw [BitVec.and_comm, BitVec.and_or_distrib_left, BitVec.and_not_self, BitVec.and_comm,
            hbyte]
          exact BitVec.or_zero
        have hcode := (h fun i => byteAt V.toNat (i - o) ||| ~~~byteAt M.toNat (i - o)).mpr
          ((hread _).mpr fun k hk => by rw [Nat.add_sub_cancel_left]; exact hspec k hk)
        intro k hk
        have hk' := hcode k hk
        rw [Nat.add_sub_cancel_left, hm k hk] at hk'
        exact byte_subset (hbyte k) hk'
      intro k hk
      have hback := hle (n - 1 - k) (by omega)
      rw [show n - 1 - (n - 1 - k) = k by omega, BitVec.and_comm, hle k hk] at hback
      exact hback.symm
    · intro h pkt
      rw [hread]
      refine forall₂_congr fun k hk => ?_
      rw [hm k hk, ← h k hk]
  | big =>
    constructor
    · intro h k hk
      have hcode := (h fun i => byteAt V.toNat (n - 1 - (i - o))).mpr
        ((read_big_eq_iff hM hV).mpr fun k _ => by rw [Nat.add_sub_cancel_left]; exact hbyte _)
      have hk' := hcode k hk
      rw [Nat.add_sub_cancel_left, hm k hk, hbyte] at hk'
      exact hk'.symm
    · intro h pkt
      rw [read_big_eq_iff hM hV]
      refine forall₂_congr fun k hk => ?_
      rw [hm k hk, ← h k hk]

/-- For every field of the packet, mask and value: there is a byte order in which the rule matches
exactly the packets whose integer is the value under the mask, iff the mask is not zero and the mask
or the value is the same from both ends. -/
theorem value_int_order_iff {hash : List Byte → BitVec 64} {e e' : ExactMatch} {offset n : Int}
    {M V gate : BitVec 64} {err : Error}
    (hinit : init [⟨some offset, n⟩] [.valueInt M] = some (.ok e))
    (hV : V.toNat < 256 ^ n.toNat) (hsub : V &&& ~~~M = 0)
    (hadd : e.commandAdd hash ⟨gate, [.valueInt V]⟩ = some (err, e')) (hzero : err.1 = 0) :
    (∃ order : ByteOrder, ∀ stale (pkts : List Mem) (j : Nat) pkt, pkts[j]? = some pkt →
      (Classified hash e' stale pkts j (gate.setWidth 16) ↔
        order.read pkt offset.toNat n.toNat &&& M.toNat = V.toNat)) ↔
      M ≠ 0 ∧ (SameFromBothEnds n.toNat M.toNat ∨ SameFromBothEnds n.toNat V.toNat) := by
  obtain ⟨hnew, f, hf, hmask, hoff, hsize⟩ := init_one hinit
  have hpos : 0 < n.toNat := hsize ▸ f.size_pos
  have hlt : f.mask < 256 ^ n.toNat := hsize ▸ f.mask_lt
  have hcode : ∀ stale (pkts : List Mem) (j : Nat) pkt, pkts[j]? = some pkt →
      (Classified hash e' stale pkts j (gate.setWidth 16) ↔ ∀ k < n.toNat,
        pkt (offset.toNat + k) &&& byteAt f.mask k = byteAt V.toNat k) := by
    intro stale pkts j pkt hj
    rw [classified_iff hnew hf (hsize ▸ hV) hadd hzero hj, hoff, hsize, masked_eq_iff hlt hV]
  have hall : ∀ order : ByteOrder, (∀ stale (pkts : List Mem) (j : Nat) pkt, pkts[j]? = some pkt →
      (Classified hash e' stale pkts j (gate.setWidth 16) ↔
        order.read pkt offset.toNat n.toNat &&& M.toNat = V.toNat)) ↔
      ∀ pkt : Mem, (∀ k < n.toNat, pkt (offset.toNat + k) &&& byteAt f.mask k =
        byteAt V.toNat k) ↔ order.read pkt offset.toNat n.toNat &&& M.toNat = V.toNat := by
    intro order
    constructor
    · intro h pkt
      exact (hcode (fun _ => 0) [pkt] 0 pkt rfl).symm.trans (h (fun _ => 0) [pkt] 0 pkt rfl)
    · intro h stale pkts j pkt hj
      exact (hcode stale pkts j pkt hj).trans (h pkt)
  rw [exists_congr hall]
  by_cases hM0 : M = 0
  · -- the mask zero is taken for all bits
    refine iff_of_false ?_ fun h => h.1 hM0
    rintro ⟨order, h⟩
    subst hM0
    have hV0 : V = 0 := by
      rwa [show ~~~(0 : BitVec 64) = BitVec.allOnes 64 by decide, BitVec.and_allOnes] at hsub
    rw [ExactMatchTable.fieldMask, if_pos rfl] at hmask
    have hones := (h fun _ => 0xFF#8).mpr (by simp [hV0]) 0 hpos
    rw [← Option.some.inj hmask, hV0] at hones
    obtain ⟨N, hN⟩ := Nat.exists_eq_succ_of_ne_zero hpos.ne'
    have hff : byteAt (256 ^ n.toNat - 1) 0 = 0xFF#8 := by
      have hpow : 256 ^ (N + 1) = 256 * 256 ^ N := Nat.pow_succ'
      have := Nat.pow_pos (n := N) (show 0 < 256 by decide)
      apply BitVec.eq_of_toNat_eq
      rw [hN, byteAt, Nat.succ_eq_add_one, hpow, pow_zero, Nat.div_one, BitVec.toNat_ofNat]
      show _ = 255
      omega
    rw [hff] at hones
    exact absurd hones (by decide)
  · rw [ExactMatchTable.fieldMask, if_neg hM0] at hmask
    have hM : M.toNat < 256 ^ n.toNat := by
      unfold uint64ToBin at hmask
      simp only at hmask
      split at hmask
      · cases hmask
      · rename_i hdiv
        exact (Nat.div_eq_zero_iff.mp (not_not.mp hdiv)).resolve_left
          (Nat.pow_pos (by decide)).ne'
    have horder := order_iff (o := offset.toNat) hM hV hsub fun k hk => byteAt_uint64ToBin hmask hk
    constructor
    · rintro ⟨order, h⟩
      refine ⟨hM0, ?_⟩
      have h := (horder order).mp h
      cases order with
      | little => exact .inl h
      | big => exact .inr h
    · rintro ⟨-, h | h⟩
      · exact ⟨.little, (horder .little).mpr h⟩
      · exact ⟨.big, (horder .big).mpr h⟩

/-- The mask 0xFFFF is the same from both ends. -/
theorem full_mask_order : ∃ e e' err,
    init [⟨some 0, 2⟩] [.valueInt 0xFFFF#64] = some (.ok e) ∧
    e.commandAdd (fun _ => 0) ⟨1, [.valueInt 0x0102#64]⟩ = some (err, e') ∧
    ∃ order : ByteOrder, ∀ stale (pkts : List Mem) (j : Nat) pkt, pkts[j]? = some pkt →
      (Classified (fun _ => 0) e' stale pkts j ((1 : BitVec 64).setWidth 16) ↔
        order.read pkt (0 : Int).toNat (2 : Int).toNat &&& (0xFFFF#64).toNat =
          (0x0102#64).toNat) := by
  obtain ⟨e, hinit⟩ : ∃ e, init [⟨some 0, 2⟩] [.valueInt 0xFFFF#64] = some (.ok e) := ⟨_, rfl⟩
  obtain ⟨e', hadd⟩ : ∃ e', e.commandAdd (fun _ => 0) ⟨1, [.valueInt 0x0102#64]⟩ =
      some ((0, ""), e') := by
    cases hinit
    exact ⟨_, rfl⟩
  refine ⟨e, e', _, hinit, hadd, ?_⟩
  refine (value_int_order_iff hinit (by decide) (by decide) hadd rfl).mpr ⟨by decide, .inl ?_⟩
  show ∀ k < 2, byteAt 0xFFFF k = byteAt 0xFFFF (2 - 1 - k)
  decide

/-- With the mask 0x00FF no packet has the value 1, in whichever order. -/
theorem low_mask_lost :
    (((init [⟨some 0, 2⟩] [.valueInt 0x00FF#64]).bind Except.toOption).bind fun e =>
        e.commandAdd crcKey ⟨1, [.valueInt 1]⟩).map (fun r =>
          (r.1, r.2.processBatch crcKey (fun _ => 0) [packetOf 0x0001#64, packetOf 0x0100#64])) =
      some ((0, ""), some [dropGate, dropGate]) ∧
    ByteOrder.little.read (packetOf 0x0001#64) 0 2 &&& 0x00FF = 1 ∧
    ByteOrder.big.read (packetOf 0x0100#64) 0 2 &&& 0x00FF = 1 := by
  decide +kernel

end Bess.Match.ExactMatch
