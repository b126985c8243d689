import Bess.Lib.ByteMem

/-!
# Copying in blocks

`CopySmall` and `CopyInlined` of `utils/copy.h`. Every instruction of theirs copies a few bytes from
an offset in the source to the same offset in the destination, so what a call does is a list of
`Chunk`s, carried out in order; `avx2` selects blocks of 32 bytes, and blocks of 16 otherwise.

The leftover blocks are copied from the last one down. With `sloppy` the last one reaches beyond the
destination, and if the source begins there, it is overwritten before it is read.
-/

namespace Bess.Copying

open Bess.ByteMem

structure Chunk where
  offset : Nat
  size : Nat

/-- One load and one store. -/
def copyChunk (dst src : Nat) (m : Mem) (c : Chunk) : Mem := fun i =>
  if dst + c.offset ≤ i ∧ i < dst + c.offset + c.size then m (src + (i - dst)) else m i

def copyChunks (dst src : Nat) (cs : List Chunk) (m : Mem) : Mem := cs.foldl (copyChunk dst src) m

/-- The same between two objects that have no byte in common. -/
def copyBetween (from_ : Mem) (dst src : Nat) (cs : List Chunk) (m : Mem) : Mem :=
  cs.foldl (fun m c i =>
    if dst + c.offset ≤ i ∧ i < dst + c.offset + c.size then from_ (src + (i - dst)) else m i) m

/-- `Copy32`: two halves without AVX2. -/
def copy32 (avx2 : Bool) (o : Nat) : List Chunk :=
  if avx2 then [⟨o, 32⟩] else [⟨o, 16⟩, ⟨o + 16, 16⟩]

/-- The `switch` of `CopySmall`, with its fall-throughs. -/
def copyTiny : Nat → List Chunk
  | 16 => [⟨0, 16⟩]
  | 15 => [⟨0, 8⟩, ⟨7, 8⟩]
  | 14 => [⟨0, 8⟩, ⟨6, 8⟩]
  | 13 => [⟨0, 8⟩, ⟨5, 8⟩]
  | 12 => [⟨0, 12⟩]
  | 11 => [⟨0, 8⟩, ⟨7, 4⟩]
  | 10 => [⟨0, 10⟩]
  | 9 => [⟨8, 1⟩, ⟨0, 8⟩]
  | 8 => [⟨0, 8⟩]
  | 7 => [⟨0, 4⟩, ⟨3, 4⟩]
  | 6 => [⟨0, 6⟩]
  | 5 => [⟨4, 1⟩, ⟨0, 4⟩]
  | 4 => [⟨0, 4⟩]
  | 3 => [⟨2, 1⟩, ⟨0, 2⟩]
  | 2 => [⟨0, 2⟩]
  | 1 => [⟨0, 1⟩]
  | _ => []

def copySmall (avx2 : Bool) (bytes : Nat) : List Chunk :=
  if 32 < bytes then copy32 avx2 0 ++ copy32 avx2 (bytes - 32)
  else if 16 < bytes then [⟨0, 16⟩, ⟨bytes - 16, 16⟩]
  else copyTiny bytes

/-- `sizeof(block_t)` -/
def blockSize (avx2 : Bool) : Nat := if avx2 then 32 else 16

/-- The unrolled loop, from offset `d` on. -/
def copyLoops (bs : Nat) : Nat → Nat → List Chunk
  | 0, _ => []
  | loops + 1, d => (List.range 8).map (fun j => ⟨d + j * bs, bs⟩) ++ copyLoops bs loops (d + 8 * bs)

/-- The `switch` over the leftover blocks falls through to the lower ones. -/
def copyLeftover (bs blocks d : Nat) : List Chunk :=
  (List.range blocks).reverse.map fun j => ⟨d + j * bs, bs⟩

/-- How far the step that aligns the destination proceeds. -/
def alignment (bs dst bytes : Nat) : Nat :=
  if 256 ≤ bytes ∧ dst % bs ≠ 0 then bs - dst % bs else 0

/-- What follows the alignment: `bytes` more from offset `d` on. -/
def copyBlocks (bs d bytes : Nat) (sloppy : Bool) : List Chunk :=
  let numBlocks := (if sloppy then bytes + bs - 1 else bytes) / bs
  let leftoverBlocks := numBlocks % 8
  let fringe := bytes % bs
  let d' := d + numBlocks / 8 * (8 * bs)
  copyLoops bs (numBlocks / 8) d ++ copyLeftover bs leftoverBlocks d' ++
    if !sloppy ∧ fringe ≠ 0 then [⟨d' + leftoverBlocks * bs + fringe - bs, bs⟩] else []

def copyInlined (avx2 : Bool) (dst bytes : Nat) (sloppy : Bool) : List Chunk :=
  if bytes ≤ 64 ∧ !sloppy then copySmall avx2 bytes
  else
    let bs := blockSize avx2
    let offset := alignment bs dst bytes
    (if offset ≠ 0 then [⟨0, bs⟩] else []) ++ copyBlocks bs offset (bytes - offset) sloppy

/-! ## Chunks that cover a buffer -/

def Chunk.has (c : Chunk) (k : Nat) : Prop := c.offset ≤ k ∧ k < c.offset + c.size

instance (c : Chunk) (k : Nat) : Decidable (c.has k) :=
  inferInstanceAs (Decidable (_ ∧ _))

/-- Every offset from `lo` up to `bytes` is copied, and none from `bound` on. -/
structure Covers (lo bytes bound : Nat) (cs : List Chunk) : Prop where
  inside : ∀ c ∈ cs, c.offset + c.size ≤ bound
  all : ∀ k, lo ≤ k → k < bytes → ∃ c ∈ cs, c.has k

variable {dst src bytes bound lo : Nat} {cs : List Chunk} {m m' : Mem}

theorem copyChunks_outside (hin : ∀ c ∈ cs, c.offset + c.size ≤ bound) {i : Nat}
    (hi : i < dst ∨ dst + bound ≤ i) : copyChunks dst src cs m i = m i := by
  induction cs generalizing m with
  | nil => rfl
  | cons c cs ih =>
    obtain ⟨hc, hcs⟩ := List.forall_mem_cons.mp hin
    rw [copyChunks, List.foldl_cons]
    refine (ih hcs).trans (if_neg ?_)
    omega

theorem copyBetween_outside {from_ : Mem} (hin : ∀ c ∈ cs, c.offset + c.size ≤ bound) {i : Nat}
    (hi : i < dst ∨ dst + bound ≤ i) : copyBetween from_ dst src cs m i = m i := by
  induction cs generalizing m with
  | nil => rfl
  | cons c cs ih =>
    obtain ⟨hc, hcs⟩ := List.forall_mem_cons.mp hin
    rw [copyBetween, List.foldl_cons]
    refine (ih hcs).trans (if_neg ?_)
    omega

theorem copyBetween_inside {from_ : Mem} {k : Nat}
    (hcov : (∃ c ∈ cs, c.has k) ∨ m (dst + k) = from_ (src + k)) :
    copyBetween from_ dst src cs m (dst + k) = from_ (src + k) := by
  induction cs generalizing m with
  | nil =>
    rcases hcov with ⟨c, hc, -⟩ | hcov
    · cases hc
    · exact hcov
  | cons c cs ih =>
    rw [copyBetween, List.foldl_cons]
    refine ih ?_
    by_cases hk : c.has k
    · right
      rw [if_pos (by have := hk.1; have := hk.2; omega), Nat.add_sub_cancel_left]
    · rcases hcov with ⟨d, hd, hdk⟩ | hcov
      · rcases List.mem_cons.mp hd with rfl | hd
        · exact absurd hdk hk
        · exact .inl ⟨d, hd, hdk⟩
      · right
        simp only [hcov, Nat.add_sub_cancel_left, ite_self]

/-- A byte that was copied, or will be, is that of the source, as the source does not change. -/
theorem copyChunks_inside (hin : ∀ c ∈ cs, c.offset + c.size ≤ bound)
    (hdisj : src + bytes ≤ dst ∨ dst + bound ≤ src)
    (hsrc : ∀ k < bytes, m' (src + k) = m (src + k)) {k : Nat} (hk : k < bytes)
    (hcov : (∃ c ∈ cs, c.has k) ∨ m' (dst + k) = m (src + k)) :
    copyChunks dst src cs m' (dst + k) = m (src + k) := by
  induction cs generalizing m' with
  | nil =>
    rcases hcov with ⟨c, hc, -⟩ | hcov
    · cases hc
    · exact hcov
  | cons c cs ih =>
    obtain ⟨hc, hcs⟩ := List.forall_mem_cons.mp hin
    rw [copyChunks, List.foldl_cons]
    refine ih hcs (fun j hj => ?_) ?_
    · exact (if_neg (by omega)).trans (hsrc j hj)
    · by_cases hhas : c.has k
      · right
        obtain ⟨h1, h2⟩ := hhas
        have hat : copyChunk dst src m' c (dst + k) = m' (src + (dst + k - dst)) :=
          if_pos ⟨by omega, by omega⟩
        rw [hat, Nat.add_sub_cancel_left]
        exact hsrc k hk
      · rcases hcov with ⟨c', hc', hhas'⟩ | hcov
        · rcases List.mem_cons.mp hc' with rfl | hc'
          · exact absurd hhas' hhas
          · exact .inl ⟨c', hc', hhas'⟩
        · right
          refine (if_neg fun h => hhas ?_).trans hcov
          exact ⟨by omega, by omega⟩

theorem mem_copyLoops {bs loops d : Nat} {c : Chunk} :
    c ∈ copyLoops bs loops d ↔ ∃ j < loops * 8, c = ⟨d + j * bs, bs⟩ := by
  induction loops generalizing d with
  | zero => simp [copyLoops]
  | succ loops ih =>
    simp only [copyLoops, List.mem_append, List.mem_map, List.mem_range, ih]
    constructor
    · rintro (⟨j, hj, rfl⟩ | ⟨j, hj, rfl⟩)
      · exact ⟨j, by omega, rfl⟩
      · exact ⟨8 + j, by omega, by rw [Nat.add_mul, Nat.add_assoc]⟩
    · rintro ⟨j, hj, rfl⟩
      by_cases hlt : j < 8
      · exact .inl ⟨j, hlt, rfl⟩
      · obtain ⟨k, rfl⟩ := Nat.exists_eq_add_of_le (Nat.not_lt.mp hlt)
        exact .inr ⟨k, by omega, by rw [Nat.add_mul, Nat.add_assoc]⟩

/-- The blocks of the loop and of the `switch` are the `n` blocks from `d` on. -/
theorem mem_blocks {bs n d : Nat} {c : Chunk} :
    c ∈ copyLoops bs (n / 8) d ++ copyLeftover bs (n % 8) (d + n / 8 * (8 * bs)) ↔
      ∃ j < n, c = ⟨d + j * bs, bs⟩ := by
  have hmul : n / 8 * (8 * bs) = n / 8 * 8 * bs := (Nat.mul_assoc _ _ _).symm
  have hn := Nat.div_add_mod' n 8
  simp only [copyLeftover, List.mem_append, mem_copyLoops, List.mem_map, List.mem_reverse,
    List.mem_range, hmul]
  constructor
  · rintro (⟨j, hj, rfl⟩ | ⟨j, hj, rfl⟩)
    · exact ⟨j, by omega, rfl⟩
    · exact ⟨n / 8 * 8 + j, by omega, by rw [Nat.add_mul, Nat.add_assoc]⟩
  · rintro ⟨j, hj, rfl⟩
    by_cases hlt : j < n / 8 * 8
    · exact .inl ⟨j, hlt, rfl⟩
    · obtain ⟨k, rfl⟩ := Nat.exists_eq_add_of_le (Nat.not_lt.mp hlt)
      exact .inr ⟨k, by omega, by rw [Nat.add_mul, Nat.add_assoc]⟩

/-- `n` blocks from `d` on cover `n * bs` bytes. -/
theorem blocks_has {bs n d k : Nat} (hbs : 0 < bs) (h1 : d ≤ k) (h2 : k < d + n * bs) :
    ∃ j < n, (Chunk.mk (d + j * bs) bs).has k := by
  refine ⟨(k - d) / bs, (Nat.div_lt_iff_lt_mul hbs).mpr (by omega), ?_⟩
  have hdiv := Nat.div_add_mod' (k - d) bs
  have hmod := Nat.mod_lt (k - d) hbs
  exact ⟨by simp only; omega, by simp only; omega⟩

theorem blocks_le (bs d : Nat) {n j : Nat} (hj : j < n) : d + j * bs + bs ≤ d + n * bs := by
  have hmul : (j + 1) * bs ≤ n * bs := Nat.mul_le_mul_right bs hj
  rw [Nat.add_mul, Nat.one_mul] at hmul
  omega

/-- Whole blocks, the last one up to a block less one beyond the end of the buffer. -/
theorem covers_copyBlocks_sloppy (d bytes : Nat) {bs : Nat} (hbs : 0 < bs) :
    Covers d (d + bytes) (d + bytes + (bs - 1)) (copyBlocks bs d bytes true) := by
  have hle := Nat.div_mul_le_self (bytes + bs - 1) bs
  have hlt := Nat.lt_div_mul_add (a := bytes + bs - 1) hbs
  simp only [copyBlocks, Bool.not_true, Bool.false_eq_true, false_and, if_false, if_true,
    List.append_nil]
  generalize (bytes + bs - 1) / bs = n at hle hlt
  refine ⟨fun c hc => ?_, fun k h1 h2 => ?_⟩
  · obtain ⟨j, hj, rfl⟩ := mem_blocks.mp hc
    have := blocks_le bs d hj
    simp only
    omega
  · obtain ⟨j, hj, hhas⟩ := blocks_has (n := n) hbs h1 (by omega)
    exact ⟨_, mem_blocks.mpr ⟨j, hj, rfl⟩, hhas⟩

/-- Whole blocks, and one that ends at the end of the buffer. -/
theorem covers_copyBlocks_exact {d bytes bs : Nat} (hbs : 0 < bs) (hd : bs ≤ d + bytes) :
    Covers d (d + bytes) (d + bytes) (copyBlocks bs d bytes false) := by
  have hdiv := Nat.div_add_mod' bytes bs
  have hmod := Nat.mod_lt bytes hbs
  have hend : d + bytes / bs / 8 * (8 * bs) + bytes / bs % 8 * bs = d + bytes / bs * bs := by
    rw [← Nat.mul_assoc, Nat.add_assoc, ← Nat.add_mul, Nat.div_add_mod']
  simp only [copyBlocks, Bool.not_false, true_and, Bool.false_eq_true, if_false, hend]
  generalize bytes / bs = n at hdiv
  refine ⟨fun c hc => ?_, fun k h1 h2 => ?_⟩
  · rcases List.mem_append.mp hc with hc | hc
    · obtain ⟨j, hj, rfl⟩ := mem_blocks.mp hc
      have := blocks_le bs d hj
      simp only
      omega
    · split at hc
      · rw [List.mem_singleton.mp hc]
        simp only
        omega
      · cases hc
  · by_cases hk : k < d + n * bs
    · obtain ⟨j, hj, hhas⟩ := blocks_has hbs h1 hk
      exact ⟨_, List.mem_append_left _ (mem_blocks.mpr ⟨j, hj, rfl⟩), hhas⟩
    · have hfringe : bytes % bs ≠ 0 := by omega
      refine ⟨⟨d + n * bs + bytes % bs - bs, bs⟩, List.mem_append_right _ ?_, ?_, ?_⟩
      · rw [if_pos hfringe]
        exact List.mem_singleton_self _
      · simp only
        omega
      · simp only
        omega

theorem covers_copyBlocks (d bytes : Nat) {bs : Nat} (hbs : 0 < bs) (sloppy : Bool)
    (hd : sloppy = false → bs ≤ d + bytes) :
    Covers d (d + bytes) (d + bytes + if sloppy then bs - 1 else 0)
      (copyBlocks bs d bytes sloppy) := by
  cases sloppy with
  | true => exact covers_copyBlocks_sloppy d bytes hbs
  | false => exact covers_copyBlocks_exact hbs (hd rfl)

theorem covers_copyTiny : ∀ bytes < 17,
    (∀ c ∈ copyTiny bytes, c.offset + c.size ≤ bytes) ∧
      ∀ k < bytes, ∃ c ∈ copyTiny bytes, c.has k := by
  decide

theorem covers_copy32 (avx2 : Bool) (o : Nat) : Covers o (o + 32) (o + 32) (copy32 avx2 o) := by
  cases avx2 with
  | true =>
    refine ⟨by simp [copy32], fun k h1 h2 => ⟨_, List.mem_singleton_self _, h1, h2⟩⟩
  | false =>
    refine ⟨by simp [copy32], fun k h1 h2 => ?_⟩
    by_cases hk : k < o + 16
    · exact ⟨⟨o, 16⟩, by simp [copy32], h1, hk⟩
    · exact ⟨⟨o + 16, 16⟩, by simp [copy32], by simp only; omega, by simp only; omega⟩

theorem covers_copySmall (avx2 : Bool) (hb : bytes ≤ 64) :
    Covers 0 bytes bytes (copySmall avx2 bytes) := by
  unfold copySmall
  split
  · have hhead := covers_copy32 avx2 0
    have htail := covers_copy32 avx2 (bytes - 32)
    refine ⟨fun c hc => ?_, fun k h1 h2 => ?_⟩
    · rcases List.mem_append.mp hc with hc | hc
      · have := hhead.inside c hc
        omega
      · have := htail.inside c hc
        omega
    · by_cases hk : k < 32
      · obtain ⟨c, hc, hhas⟩ := hhead.all k h1 (by omega)
        exact ⟨c, List.mem_append_left _ hc, hhas⟩
      · obtain ⟨c, hc, hhas⟩ := htail.all k (by omega) (by omega)
        exact ⟨c, List.mem_append_right _ hc, hhas⟩
  · split
    · refine ⟨fun c hc => ?_, fun k h1 h2 => ?_⟩
      · simp only [List.mem_cons, List.not_mem_nil, or_false] at hc
        rcases hc with rfl | rfl <;> simp only <;> omega
      · by_cases hk : k < 16
        · exact ⟨⟨0, 16⟩, by simp, h1, by simpa using hk⟩
        · exact ⟨⟨bytes - 16, 16⟩, by simp, by simp only; omega, by simp only; omega⟩
    · obtain ⟨hin, hall⟩ := covers_copyTiny bytes (by omega)
      exact ⟨hin, fun k _ => hall k⟩

/-- Up to which offset a call may write. -/
def reach (bytes : Nat) (sloppy : Bool) : Nat := bytes + if sloppy then 31 else 0

theorem covers_copyInlined (avx2 : Bool) (dst bytes : Nat) (sloppy : Bool) :
    Covers 0 bytes (reach bytes sloppy) (copyInlined avx2 dst bytes sloppy) := by
  unfold copyInlined
  split
  · rename_i hsmall
    obtain ⟨hb, hs⟩ := hsmall
    have hsloppy : sloppy = false := by simpa using hs
    subst hsloppy
    simpa [reach] using covers_copySmall avx2 hb
  · rename_i hbig
    have hbs : blockSize avx2 = 32 ∨ blockSize avx2 = 16 := by cases avx2 <;> simp [blockSize]
    simp only
    generalize blockSize avx2 = bs at hbs
    have hoff : alignment bs dst bytes ≤ bytes ∧ alignment bs dst bytes ≤ bs ∧
        (alignment bs dst bytes ≠ 0 → 256 ≤ bytes) := by
      unfold alignment
      split
      · rename_i h
        exact ⟨by omega, by omega, fun _ => h.1⟩
      · exact ⟨by omega, by omega, fun h => absurd rfl h⟩
    generalize alignment bs dst bytes = offset at hoff
    have hlong : sloppy = false → 64 < bytes := by
      intro hs
      subst hs
      simpa using hbig
    have hrest := covers_copyBlocks offset (bytes - offset) (show 0 < bs by omega)
      sloppy (fun hs => by have := hlong hs; omega)
    have hbound : offset + (bytes - offset) + (if sloppy then bs - 1 else 0) ≤ reach bytes sloppy := by
      unfold reach
      split <;> omega
    refine ⟨fun c hc => ?_, fun k h1 h2 => ?_⟩
    · rcases List.mem_append.mp hc with hc | hc
      · split at hc
        · rw [List.mem_singleton.mp hc]
          have : bytes ≤ reach bytes sloppy := Nat.le_add_right _ _
          simp only
          omega
        · cases hc
      · exact (hrest.inside c hc).trans hbound
    · by_cases hk : k < offset
      · refine ⟨⟨0, bs⟩, List.mem_append_left _ ?_, Nat.zero_le k, by simp only; omega⟩
        rw [if_pos (by omega)]
        exact List.mem_singleton_self _
      · obtain ⟨c, hc, hhas⟩ := hrest.all k (by omega) (by omega)
        exact ⟨c, List.mem_append_right _ hc, hhas⟩

/-- For all buffers, byte counts and alignments: if the source is not where the call may write, its
bytes are copied, and nothing is changed beyond the reach of the call. -/
theorem copyInlined_copies (avx2 : Bool) (dst src bytes : Nat) (sloppy : Bool) (m : Mem)
    (h : src + bytes ≤ dst ∨ dst + reach bytes sloppy ≤ src) :
    (∀ k < bytes, copyChunks dst src (copyInlined avx2 dst bytes sloppy) m (dst + k) = m (src + k)) ∧
    ∀ i, i < dst ∨ dst + reach bytes sloppy ≤ i →
      copyChunks dst src (copyInlined avx2 dst bytes sloppy) m i = m i := by
  have hcov := covers_copyInlined avx2 dst bytes sloppy
  exact ⟨fun k hk => copyChunks_inside hcov.inside h (fun _ _ => rfl) hk
      (.inl (hcov.all k (Nat.zero_le k) hk)),
    fun i hi => copyChunks_outside hcov.inside hi⟩

/-- Every byte is its address. -/
def addresses : Mem := BitVec.ofNat 8

theorem copies_below : (∀ k < 100,
    copyChunks 1 200 (copyInlined true 1 100 true) addresses (1 + k) = addresses (200 + k)) ∧
    ∀ i, i < 1 ∨ 1 + reach 100 true ≤ i →
      copyChunks 1 200 (copyInlined true 1 100 true) addresses i = addresses i :=
  copyInlined_copies true 1 200 100 true addresses (by decide)

/-- The buffers from 64 to 97 and from 97 to 130 do not overlap. The second block is copied first
and overwrites the first bytes of the source. -/
theorem adjacent_source_lost :
    copyChunks 64 97 (copyInlined true 64 33 true) addresses 64 = 130 ∧ addresses 97 = 97 := by
  decide +kernel

end Bess.Copying
