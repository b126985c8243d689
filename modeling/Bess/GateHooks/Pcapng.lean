import Bess.Lib.ByteMem
import Mathlib.Data.List.Forall2

/-!
# Dumping packets in pcapng format

`gate_hooks/pcapng.cc` writes one enhanced packet block for every packet of a gate, with the values of
the metadata attributes in a comment. `Init` lays the comment out once, with a placeholder for each
attribute, and stops at the attribute that does not fit into 65535 bytes; for a packet only the
placeholders are overwritten.

A write outside of the template is `none`. A `writev` that fails ends the batch, which is then the same
as a shorter one.
-/

namespace Bess.Pcapng

open Bess.ByteMem

abbrev Text := List Byte

/-- `bess::metadata::Attribute` -/
structure Attribute where
  name : Text
  size : Nat

/-- `Pcapng::Attr` -/
structure Attr where
  mdOffset : Int
  size : Nat
  tmplOffset : Nat

/-- The hook with `attrs_` and `attr_template_`. -/
structure Hook where
  attrs : List Attr
  template : Text

def blank : Byte := 0x20

/-- The character `X`. -/
def placeholder : Byte := 0x58

/-- `" = "` -/
def equals : Text := [0x20, 0x3d, 0x20]

/-- `std::numeric_limits<uint16_t>::max()` -/
def maxComment : Nat := 65535

/-- The loop of `Init`, from attribute number `i` on. -/
def layOut (attrOffset : Nat → Int) : List Attribute → Nat → Hook → Hook
  | [], _, h => h
  | it :: rest, i, h =>
    let tmpl := h.template ++ (it.name ++ equals)
    let tmplOffset := tmpl.length
    let tmpl := tmpl ++ (List.replicate (it.size * 2) placeholder ++ [blank])
    if maxComment < tmpl.length then { h with template := tmpl }
    else layOut attrOffset rest (i + 1) ⟨h.attrs ++ [⟨attrOffset i, it.size, tmplOffset⟩], tmpl⟩

/-- The last blank goes, and what is too long. -/
def trim (tmpl : Text) : Text :=
  let tmpl := if tmpl.getLast? = some blank then tmpl.dropLast else tmpl
  if maxComment < tmpl.length then tmpl.take maxComment else tmpl

/-- `Init` for a module with these attributes. -/
def init (attrOffset : Nat → Int) (attributes : List Attribute) : Hook :=
  let h := layOut attrOffset attributes 0 ⟨[], []⟩
  { h with template := trim h.template }

/-! ## Blocks -/

/-- What the hook reads of a packet; `data_len_` has 16 bits. -/
structure Packet where
  headData : Text
  totalLen : BitVec 32
  metadata : Mem
  short : headData.length < 2 ^ 16

def nibbleToHD (nibble : Byte) : Byte :=
  if nibble.toNat ≤ 9 then nibble + 0x30
  else if nibble.toNat ≤ 15 then nibble - 10 + 0x41
  else placeholder

def bytesToHexDump (src : Text) : Text :=
  src.flatMap fun byte : Byte => [nibbleToHD ((byte >>> 4) &&& 0xF), nibbleToHD (byte &&& 0xF)]

/-- What stands for an attribute in the comment; a negative offset is none. -/
def attrText (pkt : Packet) (a : Attr) : Text :=
  if 0 ≤ a.mdOffset then bytesToHexDump (bytes pkt.metadata a.mdOffset.toNat a.size)
  else List.replicate (a.size * 2) placeholder

def writeAt (tmpl : Text) (offset : Nat) (text : Text) : Option Text :=
  if offset + text.length ≤ tmpl.length then
    some (tmpl.take offset ++ text ++ tmpl.drop (offset + text.length))
  else none

/-- The loop over `attrs_`. -/
def dumpAttrs (pkt : Packet) (attrs : List Attr) (tmpl : Text) : Option Text :=
  attrs.foldlM (fun tmpl a => writeAt tmpl a.tmplOffset (attrText pkt a)) tmpl

def roundUp (a b : Nat) : Nat := (a + (b - 1)) / b * b

def padSize (a b : Nat) : Nat := roundUp a b - a

/-- `RoundUp<uint32_t>` -/
def roundUp32 (a b : BitVec 32) : BitVec 32 := (a + (b - 1)) / b * b

/-- `pcapng::Option` -/
structure BlockOption where
  code : BitVec 16
  len : BitVec 16

structure EnhancedPacketBlock where
  type : BitVec 32
  totLen : BitVec 32
  interfaceId : BitVec 32
  timestampHigh : BitVec 32
  timestampLow : BitVec 32
  capturedLen : BitVec 32
  origLen : BitVec 32

def sizeofEpb : Nat := 7 * 4

def sizeofOption : Nat := 2 * 2

/-- The eight parts that are written for a packet. -/
structure Block where
  epb : EnhancedPacketBlock
  data : Text
  dataPadding : Text
  optComment : BlockOption
  comment : Text
  commentPadding : Text
  optEnd : BlockOption
  epbTotLen : BitVec 32

def Block.size (b : Block) : Nat :=
  sizeofEpb + b.data.length + b.dataPadding.length + sizeofOption + b.comment.length +
    b.commentPadding.length + sizeofOption + 4

/-- The block of a packet, once its attributes are in the template. -/
def makeBlock (ts : BitVec 64) (pkt : Packet) (tmpl : Text) : Block :=
  let commentSize : BitVec 16 := BitVec.ofNat 16 tmpl.length
  let headLen := pkt.headData.length
  let totLen : BitVec 32 := BitVec.ofNat 32 (sizeofEpb + 4 +
    (roundUp32 (BitVec.ofNat 32 headLen) 4).toNat + sizeofOption +
    (roundUp32 (commentSize.setWidth 32) 4).toNat + sizeofOption)
  { epb := ⟨6, totLen, 0, (ts >>> 32).setWidth 32, ts.setWidth 32, BitVec.ofNat 32 headLen,
      pkt.totalLen⟩
    data := pkt.headData
    dataPadding := List.replicate (padSize headLen 4) 0
    optComment := ⟨1, commentSize⟩
    comment := tmpl.take commentSize.toNat
    commentPadding := List.replicate (padSize commentSize.toNat 4) 0
    optEnd := ⟨0, 0⟩
    epbTotLen := totLen }

def processPacket (ts : BitVec 64) (h : Hook) (pkt : Packet) : Option (Block × Hook) :=
  (dumpAttrs pkt h.attrs h.template).map fun tmpl =>
    (makeBlock ts pkt tmpl, { h with template := tmpl })

/-- The blocks of a list of packets, each with the time of its batch. -/
def processBatch (h : Hook) : List (BitVec 64 × Packet) → Option (List Block × Hook)
  | [] => some ([], h)
  | (ts, pkt) :: rest => do
    let (block, h) ← processPacket ts h pkt
    let (blocks, h) ← processBatch h rest
    some (block :: blocks, h)

/-! ## What is to be written -/

/-- The text of an attribute as it is laid out. -/
def entry (it : Attribute) : Text :=
  it.name ++ equals ++ List.replicate (it.size * 2) placeholder ++ [blank]

/-- The attribute has its placeholder in the template, behind its name. -/
def HasPlaceholder (tmpl : Text) (it : Attribute) (a : Attr) : Prop :=
  a.size = it.size ∧ ∃ before after,
    tmpl = before ++ (it.name ++ equals) ++ List.replicate (it.size * 2) placeholder ++ after ∧
      a.tmplOffset = before.length + (it.name ++ equals).length

/-- The recorded attributes are the first ones of the module, as many as fit. Each has its own
placeholder in the template, one behind the other. -/
structure LaidOut (attributes : List Attribute) (h : Hook) : Prop where
  placeholders : List.Forall₂ (HasPlaceholder h.template) (attributes.take h.attrs.length) h.attrs
  ordered : h.attrs.Pairwise fun a b => a.tmplOffset + a.size * 2 < b.tmplOffset
  fits : h.template.length ≤ maxComment
  all : h.attrs.length = attributes.length ∨
    maxComment < ((attributes.take (h.attrs.length + 1)).flatMap entry).length

/-- Position `i` is in the placeholder of `a`. -/
def Attr.covers (a : Attr) (i : Nat) : Prop := a.tmplOffset ≤ i ∧ i < a.tmplOffset + a.size * 2

/-- A block with the right lengths and with the attributes of its packet in their placeholders. -/
structure Right (h : Hook) (pkt : Packet) (b : Block) : Prop where
  trailing : b.epbTotLen = b.epb.totLen
  total : b.epb.totLen.toNat = b.size
  aligned : 4 ∣ b.size
  optionLen : b.optComment.len.toNat = h.template.length
  commentLen : b.comment.length = h.template.length
  dumped : ∀ a ∈ h.attrs, ∀ j < a.size * 2, b.comment[a.tmplOffset + j]? = (attrText pkt a)[j]?
  others : ∀ i, (∀ a ∈ h.attrs, ¬ a.covers i) → b.comment[i]? = h.template[i]?

/-! ## The layout -/

variable {h h' : Hook} {tmpl tmpl' : Text} {a : Attr} {it : Attribute} {pkt : Packet}

theorem HasPlaceholder.append (hp : HasPlaceholder tmpl it a) (more : Text) :
    HasPlaceholder (tmpl ++ more) it a := by
  obtain ⟨hsize, before, after, rfl, hoff⟩ := hp
  exact ⟨hsize, before, after ++ more, by simp only [List.append_assoc], hoff⟩

theorem HasPlaceholder.take (hp : HasPlaceholder tmpl it a) {n : Nat}
    (hn : a.tmplOffset + a.size * 2 ≤ n) : HasPlaceholder (tmpl.take n) it a := by
  obtain ⟨hsize, before, after, rfl, hoff⟩ := hp
  refine ⟨hsize, before, after.take (n - (a.tmplOffset + a.size * 2)), ?_, hoff⟩
  have hlen : (before ++ (it.name ++ equals) ++ List.replicate (it.size * 2) placeholder).length =
      a.tmplOffset + a.size * 2 := by
    rw [List.length_append, List.length_append, List.length_replicate, hoff, hsize]
  rw [List.take_append, hlen, List.take_of_length_le (hlen ▸ hn)]

/-- What holds after the attributes `done` were laid out. -/
structure Building (done : List Attribute) (h : Hook) : Prop where
  placeholders : List.Forall₂ (HasPlaceholder h.template) done h.attrs
  ordered : h.attrs.Pairwise fun a b => a.tmplOffset + a.size * 2 < b.tmplOffset
  below : ∀ a ∈ h.attrs, a.tmplOffset + a.size * 2 < h.template.length ∧
    a.tmplOffset + a.size * 2 < maxComment

theorem Building.append {done : List Attribute} (hb : Building done h) (more : Text) :
    Building done { h with template := h.template ++ more } where
  placeholders := hb.placeholders.imp fun it a hp => hp.append more
  ordered := hb.ordered
  below a ha := by
    have := hb.below a ha
    simp only [List.length_append]
    omega

theorem Building.record {done : List Attribute} (hb : Building done h) (it : Attribute) (off : Int)
    (hfit : (h.template ++ entry it).length ≤ maxComment) :
    Building (done ++ [it])
      ⟨h.attrs ++ [⟨off, it.size, (h.template ++ (it.name ++ equals)).length⟩],
        h.template ++ entry it⟩ := by
  have hmore := hb.append (entry it)
  have hlen : (entry it).length = (it.name ++ equals).length + it.size * 2 + 1 := by
    simp only [entry, List.length_append, List.length_replicate, List.length_singleton]
  rw [List.length_append, hlen] at hfit
  refine ⟨List.rel_append hmore.placeholders (.cons ⟨rfl, h.template, [blank], ?_, ?_⟩ .nil), ?_, ?_⟩
  · simp [entry, List.append_assoc]
  · exact List.length_append
  · refine List.pairwise_append.mpr ⟨hb.ordered, List.pairwise_singleton _ _, fun x hx y hy => ?_⟩
    rw [List.mem_singleton.mp hy]
    have := (hb.below x hx).1
    simp only [List.length_append]
    omega
  · intro x hx
    rcases List.mem_append.mp hx with hx | hx
    · exact hmore.below x hx
    · rw [List.mem_singleton.mp hx]
      simp only [List.length_append, hlen] at hfit ⊢
      omega

theorem layOut_spec (attrOffset : Nat → Int) {done : List Attribute} (rest : List Attribute) (i : Nat)
    (hb : Building done h) (htext : h.template = done.flatMap entry)
    (hcount : h.attrs.length = done.length) :
    ∃ k, Building (done ++ rest.take k) (layOut attrOffset rest i h) ∧
      (layOut attrOffset rest i h).attrs.length = done.length + k ∧
      (k = rest.length ∨ maxComment < ((done ++ rest.take (k + 1)).flatMap entry).length) := by
  induction rest generalizing done i h with
  | nil => exact ⟨0, by simpa [layOut] using hb, by simpa [layOut] using hcount, .inl rfl⟩
  | cons it rest ih =>
    have hnew : h.template ++ (it.name ++ equals) ++
        (List.replicate (it.size * 2) placeholder ++ [blank]) = h.template ++ entry it := by
      simp only [entry, List.append_assoc]
    have htext' : h.template ++ entry it = (done ++ [it]).flatMap entry := by
      rw [htext, List.flatMap_append, List.flatMap_singleton]
    simp only [layOut, hnew]
    split
    · rename_i hlong
      refine ⟨0, by simpa using hb.append (entry it), hcount, .inr ?_⟩
      rw [Nat.zero_add, List.take_succ_cons, List.take_zero, ← htext']
      exact hlong
    · rename_i hfit
      obtain ⟨k, hbuilt, hlen, hall⟩ := ih (i + 1)
        (hb.record it (attrOffset i) (Nat.not_lt.mp hfit)) htext' (by simp [hcount])
      refine ⟨k + 1, ?_, ?_, ?_⟩
      · simpa [List.append_assoc] using hbuilt
      · rw [hlen, List.length_append, List.length_singleton]
        omega
      · rcases hall with hall | hall
        · exact .inl (by rw [hall, List.length_cons])
        · exact .inr (by simpa [List.append_assoc] using hall)

theorem trim_eq_take (tmpl : Text) : ∃ n, trim tmpl = tmpl.take n ∧ (trim tmpl).length ≤ maxComment ∧
    ∀ k, k < tmpl.length → k < maxComment → k ≤ n := by
  unfold trim
  simp only
  have hpop : ∃ n, (if tmpl.getLast? = some blank then tmpl.dropLast else tmpl) = tmpl.take n ∧
      n ≤ tmpl.length ∧ tmpl.length ≤ n + 1 := by
    split
    · exact ⟨tmpl.length - 1, List.dropLast_eq_take, by omega, by omega⟩
    · exact ⟨tmpl.length, List.take_length.symm, Nat.le_refl _, Nat.le_succ _⟩
  obtain ⟨n, hn, hle, hge⟩ := hpop
  rw [hn]
  split
  · refine ⟨min maxComment n, by rw [List.take_take], ?_, fun k hk hmax => by omega⟩
    rw [List.length_take]
    exact Nat.min_le_left _ _
  · rename_i hshort
    exact ⟨n, rfl, Nat.not_lt.mp hshort, fun k hk _ => by omega⟩

theorem init_laidOut (attrOffset : Nat → Int) (attributes : List Attribute) :
    LaidOut attributes (init attrOffset attributes) ∧
      ∀ a ∈ (init attrOffset attributes).attrs,
        a.tmplOffset + a.size * 2 ≤ (init attrOffset attributes).template.length := by
  have hstart : Building [] ⟨[], []⟩ := ⟨.nil, .nil, by simp⟩
  obtain ⟨k, hb, hlen, hall⟩ := layOut_spec attrOffset attributes 0 hstart rfl rfl
  obtain ⟨n, htake, hfits, hkeep⟩ := trim_eq_take (layOut attrOffset attributes 0 ⟨[], []⟩).template
  simp only [List.nil_append, List.length_nil, Nat.zero_add] at hb hlen hall
  have hinside : ∀ a ∈ (layOut attrOffset attributes 0 ⟨[], []⟩).attrs,
      a.tmplOffset + a.size * 2 ≤ n := fun a ha => hkeep _ (hb.below a ha).1 (hb.below a ha).2
  refine ⟨⟨?_, hb.ordered, hfits, ?_⟩, fun a ha => ?_⟩
  · have hattrs : (init attrOffset attributes).attrs.length = k := hlen
    have htmpl : (init attrOffset attributes).template =
        (layOut attrOffset attributes 0 ⟨[], []⟩).template.take n := htake
    rw [hattrs, htmpl]
    exact List.forall₂_iff_get.mpr ⟨hb.placeholders.length_eq, fun i h1 h2 =>
      ((List.forall₂_iff_get.mp hb.placeholders).2 i h1 h2).take (hinside _ (List.get_mem _ _))⟩
  · have hattrs : (init attrOffset attributes).attrs.length = k := hlen
    rw [hattrs]
    exact hall
  · have htmpl : (init attrOffset attributes).template =
        (layOut attrOffset attributes 0 ⟨[], []⟩).template.take n := htake
    rw [htmpl, List.length_take]
    exact Nat.le_min.mpr ⟨hinside a ha, Nat.le_of_lt (hb.below a ha).1⟩

/-! ## Dumping the attributes -/

theorem length_bytesToHexDump (src : Text) : (bytesToHexDump src).length = src.length * 2 := by
  induction src with
  | nil => rfl
  | cons b src ih =>
    rw [bytesToHexDump] at ih ⊢
    rw [List.flatMap_cons, List.length_append, ih, List.length_cons]
    simp only [List.length_cons, List.length_nil]
    omega

theorem length_attrText (pkt : Packet) (a : Attr) : (attrText pkt a).length = a.size * 2 := by
  unfold attrText
  split
  · rw [length_bytesToHexDump, length_bytes]
  · exact List.length_replicate

theorem writeAt_spec {offset : Nat} {text : Text} (hin : offset + text.length ≤ tmpl.length) :
    ∃ tmpl', writeAt tmpl offset text = some tmpl' ∧ tmpl'.length = tmpl.length ∧
      ∀ i, tmpl'[i]? =
        if offset ≤ i ∧ i < offset + text.length then text[i - offset]? else tmpl[i]? := by
  refine ⟨_, if_pos hin, ?_, fun i => ?_⟩
  · simp only [List.length_append, List.length_take, List.length_drop]
    omega
  · have htake : (tmpl.take offset).length = offset := by
      rw [List.length_take]
      omega
    rw [List.append_assoc, List.getElem?_append, htake]
    by_cases h1 : i < offset
    · rw [if_pos h1, if_neg (by omega), List.getElem?_take_of_lt h1]
    · rw [if_neg h1, List.getElem?_append]
      by_cases h2 : i < offset + text.length
      · rw [if_pos (by omega), if_pos (by omega)]
      · rw [if_neg (by omega), if_neg (by omega), List.getElem?_drop]
        congr 1
        omega

theorem dumpAttrs_spec (pkt : Packet) {attrs : List Attr}
    (hin : ∀ a ∈ attrs, a.tmplOffset + a.size * 2 ≤ tmpl.length)
    (hordered : attrs.Pairwise fun a b => a.tmplOffset + a.size * 2 < b.tmplOffset) :
    ∃ tmpl', dumpAttrs pkt attrs tmpl = some tmpl' ∧ tmpl'.length = tmpl.length ∧
      (∀ a ∈ attrs, ∀ j < a.size * 2, tmpl'[a.tmplOffset + j]? = (attrText pkt a)[j]?) ∧
      ∀ i, (∀ a ∈ attrs, ¬ a.covers i) → tmpl'[i]? = tmpl[i]? := by
  induction attrs generalizing tmpl with
  | nil => exact ⟨tmpl, rfl, rfl, by simp, fun i _ => rfl⟩
  | cons a attrs ih =>
    obtain ⟨ha, hrest⟩ := List.forall_mem_cons.mp hin
    obtain ⟨hfirst, hordered⟩ := List.pairwise_cons.mp hordered
    have htext := length_attrText pkt a
    have hfit : a.tmplOffset + (attrText pkt a).length ≤ tmpl.length := htext ▸ ha
    obtain ⟨t₁, hw, hlen₁, hget₁⟩ := writeAt_spec hfit
    rw [htext] at hget₁
    have hrest₁ : ∀ a ∈ attrs, a.tmplOffset + a.size * 2 ≤ t₁.length := hlen₁ ▸ hrest
    obtain ⟨t₂, hdump, hlen₂, hdumped, hother⟩ := ih hrest₁ hordered
    refine ⟨t₂, ?_, hlen₂.trans hlen₁, fun b hb j hj => ?_, fun i hi => ?_⟩
    · rw [dumpAttrs, List.foldlM_cons, hw]
      exact hdump
    · rcases List.mem_cons.mp hb with rfl | hb
      · -- the placeholders behind this one do not reach back to it
        rw [hother _ fun c hc hcov => ?_, hget₁, if_pos (by omega), Nat.add_sub_cancel_left]
        have := hfirst c hc
        have := hcov.1
        omega
      · exact hdumped b hb j hj
    · obtain ⟨hia, hi⟩ := List.forall_mem_cons.mp hi
      have hia : ¬ (a.tmplOffset ≤ i ∧ i < a.tmplOffset + a.size * 2) := hia
      rw [hother i hi, hget₁, if_neg hia]

/-! ## Lengths -/

theorem padSize_add (n : Nat) : n + padSize n 4 = roundUp n 4 := by
  unfold padSize roundUp
  omega

theorem four_dvd_roundUp (n : Nat) : 4 ∣ roundUp n 4 := Nat.dvd_mul_left _ _

theorem toNat_roundUp32 {n : Nat} (hn : n < 2 ^ 16) :
    (roundUp32 (BitVec.ofNat 32 n) 4).toNat = roundUp n 4 := by
  unfold roundUp32 roundUp
  have hthree : ((4 : BitVec 32) - 1).toNat = 3 := rfl
  have hfour : (4 : BitVec 32).toNat = 4 := rfl
  rw [BitVec.toNat_mul, BitVec.toNat_udiv, BitVec.toNat_add, BitVec.toNat_ofNat, hthree, hfour]
  omega

/-- Whatever is in the template, the lengths of a block agree. -/
theorem makeBlock_lengths (ts : BitVec 64) (pkt : Packet) (hfit : tmpl.length ≤ maxComment) :
    (makeBlock ts pkt tmpl).epb.totLen.toNat = (makeBlock ts pkt tmpl).size ∧
      4 ∣ (makeBlock ts pkt tmpl).size ∧
      (makeBlock ts pkt tmpl).optComment.len.toNat = tmpl.length ∧
      (makeBlock ts pkt tmpl).comment = tmpl := by
  have hmax : maxComment = 65535 := rfl
  have hshort := pkt.short
  have hcomment : (BitVec.ofNat 16 tmpl.length).toNat = tmpl.length := by
    rw [BitVec.toNat_ofNat]
    omega
  have hwide : (BitVec.ofNat 16 tmpl.length).setWidth 32 = BitVec.ofNat 32 tmpl.length := by
    apply BitVec.eq_of_toNat_eq
    rw [BitVec.toNat_setWidth, hcomment, BitVec.toNat_ofNat]
  have htake : tmpl.take (BitVec.ofNat 16 tmpl.length).toNat = tmpl := by
    rw [hcomment, List.take_length]
  have hsize : (makeBlock ts pkt tmpl).size =
      40 + roundUp pkt.headData.length 4 + roundUp tmpl.length 4 := by
    have h1 := padSize_add pkt.headData.length
    have h2 := padSize_add tmpl.length
    simp only [Block.size, makeBlock, hcomment, List.take_length, List.length_replicate, sizeofEpb,
      sizeofOption]
    omega
  refine ⟨?_, ?_, hcomment, htake⟩
  · rw [hsize]
    simp only [makeBlock, hwide, toNat_roundUp32 hshort, toNat_roundUp32 (show tmpl.length < 2 ^ 16 by
      omega), BitVec.toNat_ofNat, sizeofEpb, sizeofOption]
    unfold roundUp
    omega
  · rw [hsize]
    exact (Nat.dvd_add (Nat.dvd_add (by decide) (four_dvd_roundUp _)) (four_dvd_roundUp _))

/-! ## All packets -/

/-- Packets change nothing but the placeholders. -/
structure SameLayout (h₀ h : Hook) : Prop where
  attrs : h.attrs = h₀.attrs
  length : h.template.length = h₀.template.length
  others : ∀ i, (∀ a ∈ h₀.attrs, ¬ a.covers i) → h.template[i]? = h₀.template[i]?

theorem SameLayout.refl (h : Hook) : SameLayout h h := ⟨rfl, rfl, fun _ _ => rfl⟩

section Packets

variable {h₀ : Hook} (hordered : h₀.attrs.Pairwise fun a b => a.tmplOffset + a.size * 2 < b.tmplOffset)
  (hinside : ∀ a ∈ h₀.attrs, a.tmplOffset + a.size * 2 ≤ h₀.template.length)
  (hfits : h₀.template.length ≤ maxComment)

include hordered hinside hfits

theorem processPacket_right (hs : SameLayout h₀ h) (ts : BitVec 64) (pkt : Packet) :
    ∃ b h', processPacket ts h pkt = some (b, h') ∧ Right h₀ pkt b ∧ SameLayout h₀ h' := by
  have hin : ∀ a ∈ h₀.attrs, a.tmplOffset + a.size * 2 ≤ h.template.length := hs.length ▸ hinside
  obtain ⟨tmpl, hdump, hlen, hdumped, hother⟩ := dumpAttrs_spec pkt hin hordered
  have hlen' : tmpl.length = h₀.template.length := hlen.trans hs.length
  obtain ⟨htotal, haligned, hoption, hcomment⟩ := makeBlock_lengths ts pkt (hlen' ▸ hfits)
  have hothers : ∀ i, (∀ a ∈ h₀.attrs, ¬ a.covers i) → tmpl[i]? = h₀.template[i]? := fun i hi =>
    (hother i hi).trans (hs.others i hi)
  refine ⟨makeBlock ts pkt tmpl, { h with template := tmpl }, ?_, ⟨rfl, htotal, haligned, ?_, ?_, ?_,
    ?_⟩, ⟨hs.attrs, hlen', hothers⟩⟩
  · rw [processPacket, hs.attrs, hdump]
    rfl
  · rw [hoption, hlen']
  · rw [hcomment, hlen']
  · rw [hcomment]
    exact hdumped
  · rw [hcomment]
    exact hothers

theorem processBatch_right (hs : SameLayout h₀ h) (pkts : List (BitVec 64 × Packet)) :
    ∃ blocks h', processBatch h pkts = some (blocks, h') ∧
      List.Forall₂ (fun p b => Right h₀ p.2 b) pkts blocks := by
  induction pkts generalizing h with
  | nil => exact ⟨[], h, rfl, .nil⟩
  | cons p pkts ih =>
    obtain ⟨b, h₁, hpkt, hright, hs₁⟩ := processPacket_right hordered hinside hfits hs p.1 p.2
    obtain ⟨blocks, h₂, hrest, hall⟩ := ih hs₁
    refine ⟨b :: blocks, h₂, ?_, .cons hright hall⟩
    rw [processBatch, hpkt]
    simp only [Option.bind_eq_bind, Option.bind_some, hrest]

end Packets

/-- For every module and every list of packets, each block has consistent lengths, and each dump is in
the placeholder of its own attribute. -/
theorem pcapng_blocks_right (attrOffset : Nat → Int) (attributes : List Attribute)
    (pkts : List (BitVec 64 × Packet)) :
    LaidOut attributes (init attrOffset attributes) ∧
      ∃ blocks h, processBatch (init attrOffset attributes) pkts = some (blocks, h) ∧
        List.Forall₂ (fun p b => Right (init attrOffset attributes) p.2 b) pkts blocks := by
  obtain ⟨hlaid, hinside⟩ := init_laidOut attrOffset attributes
  exact ⟨hlaid, processBatch_right hlaid.ordered hinside hlaid.fits (SameLayout.refl _) pkts⟩

end Bess.Pcapng
