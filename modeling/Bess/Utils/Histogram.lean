import Mathlib.Algebra.BigOperators.Group.List.Basic
import Mathlib.Data.BitVec
import Mathlib.Data.Rat.Defs
import Mathlib.Tactic.Ring

/-!
# Histograms

`Histogram<uint64_t>` of `utils/histogram.h`: counters of samples in buckets of equal width, with
one more bucket for the samples above the range. Counters and sizes are the machine's 64-bit words;
a vector is taken to be allocated. `Summarize` adds the counters up with `std::accumulate`, whose
accumulator has the type of the initial value `0`, that is, `int`.
-/

namespace Bess.Histograms

abbrev Word := BitVec 64

structure Histogram where
  bucketWidth : Word
  buckets : List Word

/-- Percentiles are doubles, without rounding. -/
structure Summary where
  count : Word
  aboveRange : Word
  min : Word
  max : Word
  avg : Word
  total : Word
  percentileValues : List Word

namespace Histogram

/-- The constructor, with one bucket more than asked for. -/
def new (numBuckets bucketWidth : Word) : Histogram :=
  ⟨bucketWidth, List.replicate (numBuckets + 1).toNat 0⟩

/-- `num_buckets()` -/
def numBuckets (h : Histogram) : Word := BitVec.ofNat 64 h.buckets.length

/-- The bucket of a sample: the last one is for all that are above the range. -/
def index (h : Histogram) (x : Word) : Nat :=
  Nat.min (x / h.bucketWidth).toNat (h.numBuckets - 1).toNat

/-- `none` outside of the vector. -/
def insert (h : Histogram) (x : Word) : Option Histogram :=
  match h.buckets[h.index x]? with
  | none => none
  | some n => some { h with buckets := h.buckets.set (h.index x) (1 + n) }

/-- The same with `fetch_add`. -/
def atomicInsert (h : Histogram) (x : Word) : Option Histogram :=
  match h.buckets[h.index x]? with
  | none => none
  | some n => some { h with buckets := h.buckets.set (h.index x) (n + 1) }

/-- `std::accumulate(begin, end, 0)`: the sum of an `int` and a word is a word, which is stored in an
`int`. -/
def accumulate (bs : List Word) : BitVec 32 :=
  bs.foldl (fun sum b => (sum.signExtend 64 + b).setWidth 32) 0

/-- The variables of the loop of `Summarize`; `pending` are the percentiles from `percentile_it` on. -/
structure Scan where
  foundMin : Bool
  countSoFar : Word
  total : Word
  min : Word
  max : Word
  pending : List Rat
  values : List Word

/-- The inner loop; `reached` says that a percentile is not beyond the samples so far. -/
def percentiles (reached : Rat → Bool) (val : Word) : List Rat → List Word → List Rat × List Word
  | [], values => ([], values)
  | p :: ps, values =>
    if reached p then percentiles reached val ps (values ++ [val]) else (p :: ps, values)

/-- `std::numeric_limits<double>::epsilon()` -/
def epsilon : Rat := 1 / 2 ^ 52

def reached (count countSoFar : Word) (p : Rat) : Bool :=
  !(countSoFar < count ∧ (countSoFar.toNat * 100 : Rat) / count.toNat - p < epsilon)

/-- One turn of the loop. -/
def visit (h : Histogram) (count : Word) (i : Nat) (freq : Word) (s : Scan) : Scan :=
  let val := BitVec.ofNat 64 i * h.bucketWidth
  let countSoFar := s.countSoFar + freq
  let s := { s with total := s.total + val * freq, countSoFar }
  if 0 < freq then
    let rest := percentiles (reached count countSoFar) val s.pending s.values
    { s with
      min := if s.foundMin then s.min else val
      foundMin := true
      max := val
      pending := rest.1
      values := rest.2 }
  else s

def scan (h : Histogram) (count : Word) : Nat → List Word → Scan → Scan
  | _, [], s => s
  | i, freq :: bs, s => scan h count (i + 1) bs (h.visit count i freq s)

/-- `none` if there is no last bucket. Percentiles that are not reached keep the value 0. -/
def summarize (h : Histogram) (ps : List Rat) : Option Summary :=
  match h.buckets.getLast? with
  | none => none
  | some last =>
    let count := (accumulate h.buckets).signExtend 64
    let s := h.scan count 0 h.buckets ⟨false, 0, 0, 0, 0, ps, []⟩
    some {
      count
      aboveRange := last
      min := s.min
      max := s.max
      avg := if 0 < count then s.total / count else 0
      total := s.total
      percentileValues := s.values ++ s.pending.map fun _ => 0 }

end Histogram

/-! ## Insertions -/

inductive Insertion
  | insert (x : Word)
  | atomicInsert (x : Word)

def Insertion.sample : Insertion → Word
  | .insert x => x
  | .atomicInsert x => x

def step (h : Histogram) : Insertion → Option Histogram
  | .insert x => h.insert x
  | .atomicInsert x => h.atomicInsert x

def run : List Insertion → Histogram → Option Histogram
  | [], h => some h
  | op :: ops, h => (step h op).bind (run ops)

/-- The bucket of a sample in a histogram of `n` buckets for the range. -/
def bucketOf (n width : Nat) (x : Word) : Nat := Nat.min (x.toNat / width) n

/-- The representative value of a sample. -/
def rep (n width : Nat) (x : Word) : Nat := bucketOf n width x * width

/-- The representatives of the buckets, each as often as it was counted. -/
def weight (width : Word) : Nat → List Word → Word
  | _, [] => 0
  | i, b :: bs => BitVec.ofNat 64 i * width * b + weight width (i + 1) bs

/-- The counters after the samples `xs`. -/
structure Counts (n : Nat) (width : Word) (xs : List Word) (h : Histogram) : Prop where
  width_eq : h.bucketWidth = width
  length_eq : h.buckets.length = n + 1
  counter : ∀ i ≤ n, h.buckets[i]? =
    some (BitVec.ofNat 64 (xs.countP fun x => bucketOf n width.toNat x = i))
  sum_eq : h.buckets.sum = BitVec.ofNat 64 xs.length
  weight_eq : weight width 0 h.buckets = BitVec.ofNat 64 (xs.map (rep n width.toNat)).sum

variable {n : Nat} {width x : Word} {xs : List Word} {h : Histogram}

theorem sum_set {bs : List Word} {k : Nat} {b : Word} (hb : bs[k]? = some b) :
    (bs.set k (b + 1)).sum = bs.sum + 1 := by
  induction bs generalizing k with
  | nil => cases hb
  | cons a bs ih =>
    cases k with
    | zero =>
      cases hb
      simp only [List.set_cons_zero, List.sum_cons]
      ring
    | succ k =>
      simp only [List.set_cons_succ, List.sum_cons, ih hb, add_assoc]

theorem weight_set {bs : List Word} {i k : Nat} {b : Word} (hb : bs[k]? = some b) :
    weight width i (bs.set k (b + 1)) =
      weight width i bs + BitVec.ofNat 64 (i + k) * width := by
  induction bs generalizing i k with
  | nil => cases hb
  | cons a bs ih =>
    cases k with
    | zero =>
      cases hb
      simp only [List.set_cons_zero, weight, Nat.add_zero]
      ring
    | succ k =>
      have hadd : i + 1 + k = i + (k + 1) := by omega
      simp only [List.set_cons_succ, weight, ih hb, hadd, add_assoc]

theorem index_eq (hn : n + 1 < 2 ^ 64) (hc : Counts n width xs h) :
    h.index x = bucketOf n width.toNat x := by
  have hsize : (h.numBuckets - 1).toNat = n := by
    rw [Histogram.numBuckets, hc.length_eq]
    bv_omega
  rw [Histogram.index, bucketOf, hsize, hc.width_eq, BitVec.toNat_udiv]

theorem bucketOf_le (n w : Nat) (x : Word) : bucketOf n w x ≤ n := Nat.min_le_right _ _

theorem Counts.bump (hc : Counts n width xs h) :
    ∃ b, h.buckets[bucketOf n width.toNat x]? = some b ∧
      Counts n width (x :: xs)
        { h with buckets := h.buckets.set (bucketOf n width.toNat x) (b + 1) } := by
  have hk := hc.counter _ (bucketOf_le n width.toNat x)
  refine ⟨_, hk, hc.width_eq, by rw [List.length_set, hc.length_eq], fun i hi => ?_, ?_, ?_⟩
  · have hlt : bucketOf n width.toNat x < h.buckets.length := by
      rw [hc.length_eq]
      exact Nat.lt_succ_of_le (bucketOf_le _ _ _)
    by_cases hik : bucketOf n width.toNat x = i
    · subst hik
      rw [List.getElem?_set_self hlt, List.countP_cons_of_pos (by simp), BitVec.ofNat_add]
      rfl
    · rw [List.getElem?_set_ne hik, hc.counter i hi, List.countP_cons_of_neg (by simp [hik])]
  · rw [sum_set hk, hc.sum_eq, List.length_cons, BitVec.ofNat_add]
    rfl
  · rw [weight_set hk, hc.weight_eq, Nat.zero_add, List.map_cons, List.sum_cons, add_comm,
      BitVec.ofNat_add, rep, BitVec.ofNat_mul, BitVec.ofNat_toNat, BitVec.setWidth_eq]

theorem Counts.step (hn : n + 1 < 2 ^ 64) (hc : Counts n width xs h) (op : Insertion) :
    ∃ h', step h op = some h' ∧ Counts n width (op.sample :: xs) h' := by
  obtain ⟨b, hb, hc'⟩ := hc.bump (x := op.sample)
  cases op with
  | insert x =>
    refine ⟨_, ?_, hc'⟩
    simp only [Histograms.step, Histogram.insert, index_eq hn hc, Insertion.sample] at hb ⊢
    rw [hb, add_comm]
  | atomicInsert x =>
    refine ⟨_, ?_, hc'⟩
    simp only [Histograms.step, Histogram.atomicInsert, index_eq hn hc, Insertion.sample] at hb ⊢
    rw [hb]

theorem Counts.perm {ys : List Word} (hp : xs.Perm ys) (hc : Counts n width xs h) :
    Counts n width ys h where
  width_eq := hc.width_eq
  length_eq := hc.length_eq
  counter i hi := by rw [hc.counter i hi, hp.countP_eq]
  sum_eq := by rw [hc.sum_eq, hp.length_eq]
  weight_eq := by rw [hc.weight_eq, (hp.map _).sum_eq]

theorem Counts.run (hn : n + 1 < 2 ^ 64) (hc : Counts n width xs h) (ops : List Insertion) :
    ∃ h', run ops h = some h' ∧ Counts n width (xs ++ ops.map (·.sample)) h' := by
  induction ops generalizing xs h with
  | nil => exact ⟨h, rfl, by simpa using hc⟩
  | cons op ops ih =>
    obtain ⟨h₁, hstep, hc₁⟩ := hc.step hn op
    obtain ⟨h', hrun, hc'⟩ := ih hc₁
    refine ⟨h', by rw [Histograms.run, hstep]; exact hrun, hc'.perm ?_⟩
    have hmid : (xs ++ op.sample :: ops.map (·.sample)).Perm
        (op.sample :: (xs ++ ops.map (·.sample))) := List.perm_middle
    exact hmid.symm

theorem weight_replicate (width : Word) (i k : Nat) :
    weight width i (List.replicate k 0) = 0 := by
  induction k generalizing i with
  | zero => rfl
  | succ k ih => rw [List.replicate_succ, weight, ih, mul_zero, add_zero]

theorem counts_new (nb : Word) (hn : nb.toNat + 1 < 2 ^ 64) (width : Word) :
    Counts nb.toNat width [] (Histogram.new nb width) := by
  have hlen : (nb + 1).toNat = nb.toNat + 1 := by bv_omega
  refine ⟨rfl, ?_, fun i hi => ?_, ?_, ?_⟩
  · rw [Histogram.new, List.length_replicate, hlen]
  · rw [Histogram.new, List.getElem?_replicate, if_pos (by omega)]
    rfl
  · simp [Histogram.new]
  · rw [Histogram.new, weight_replicate]
    rfl

/-! ## The loop of `Summarize` -/

section Scan

variable {count : Word} {i : Nat} {bs : List Word} {s : Histogram.Scan}

theorem scan_total :
    (h.scan count i bs s).total = s.total + weight h.bucketWidth i bs := by
  induction bs generalizing i s with
  | nil => exact (add_zero _).symm
  | cons b bs ih =>
    have hvisit : (h.visit count i b s).total =
        s.total + BitVec.ofNat 64 i * h.bucketWidth * b := by
      unfold Histogram.visit
      simp only
      split <;> rfl
    rw [Histogram.scan, ih, hvisit, weight, add_assoc]

theorem visit_zero :
    (h.visit count i 0 s).foundMin = s.foundMin ∧ (h.visit count i 0 s).min = s.min ∧
      (h.visit count i 0 s).max = s.max :=
  ⟨rfl, rfl, rfl⟩

theorem visit_pos (h : Histogram) (count : Word) (i : Nat) (s : Histogram.Scan) {b : Word}
    (hb : b ≠ 0) :
    (h.visit count i b s).foundMin = true ∧
      (h.visit count i b s).min =
        (if s.foundMin then s.min else BitVec.ofNat 64 i * h.bucketWidth) ∧
      (h.visit count i b s).max = BitVec.ofNat 64 i * h.bucketWidth := by
  have hpos : 0 < b := by bv_omega
  simp only [Histogram.visit, if_pos hpos, and_self]

theorem scan_max_idle (hz : ∀ b ∈ bs, b = 0) : (h.scan count i bs s).max = s.max := by
  induction bs generalizing i s with
  | nil => rfl
  | cons b bs ih =>
    obtain ⟨rfl, hrest⟩ := List.forall_mem_cons.mp hz
    rw [Histogram.scan, ih hrest, visit_zero.2.2]

theorem scan_min_found (hs : s.foundMin = true) : (h.scan count i bs s).min = s.min := by
  induction bs generalizing i s with
  | nil => rfl
  | cons b bs ih =>
    rw [Histogram.scan]
    by_cases hb : b = 0
    · subst hb
      rw [ih (visit_zero.1.trans hs), visit_zero.2.1]
    · obtain ⟨hfound, hmin, -⟩ := visit_pos h count i s hb
      rw [ih hfound, hmin, if_pos hs]

/-- `max` is the value of the last bucket that is not empty. -/
theorem scan_max {k : Nat} {b : Word} (hk : bs[k]? = some b) (hb : b ≠ 0)
    (hz : ∀ j c, k < j → bs[j]? = some c → c = 0) :
    (h.scan count i bs s).max = BitVec.ofNat 64 (i + k) * h.bucketWidth := by
  induction bs generalizing i k s with
  | nil => cases hk
  | cons a bs ih =>
    rw [Histogram.scan]
    cases k with
    | zero =>
      cases hk
      have hrest : ∀ c ∈ bs, c = 0 := by
        intro c hc
        obtain ⟨j, hj⟩ := List.mem_iff_getElem?.mp hc
        exact hz (j + 1) c (Nat.succ_pos j) hj
      rw [scan_max_idle hrest, (visit_pos _ _ _ _ hb).2.2, Nat.add_zero]
    | succ k =>
      rw [ih hk fun j c hj hc => hz (j + 1) c (Nat.succ_lt_succ hj) hc]
      congr 2
      omega

/-- `min` is the value of the first one. -/
theorem scan_min {k : Nat} {b : Word} (hk : bs[k]? = some b) (hb : b ≠ 0)
    (hs : s.foundMin = false) (hz : ∀ j c, j < k → bs[j]? = some c → c = 0) :
    (h.scan count i bs s).min = BitVec.ofNat 64 (i + k) * h.bucketWidth := by
  induction bs generalizing i k s with
  | nil => cases hk
  | cons a bs ih =>
    rw [Histogram.scan]
    cases k with
    | zero =>
      cases hk
      obtain ⟨hfound, hmin, -⟩ := visit_pos h count i s hb
      rw [scan_min_found hfound, hmin, hs, Nat.add_zero]
      rfl
    | succ k =>
      have ha : a = 0 := hz 0 a (Nat.succ_pos k) rfl
      subst ha
      rw [ih hk (visit_zero.1.trans hs) fun j c hj hc => hz (j + 1) c (Nat.succ_lt_succ hj) hc]
      congr 2
      omega

end Scan

/-! ## The summary -/

theorem accumulate_eq (bs : List Word) : Histogram.accumulate bs = bs.sum.setWidth 32 := by
  have hfold (acc : BitVec 32) : bs.foldl (fun sum b => (sum.signExtend 64 + b).setWidth 32) acc =
      acc + bs.sum.setWidth 32 := by
    induction bs generalizing acc with
    | nil => exact (add_zero acc).symm
    | cons b bs ih =>
      have hsext : (acc.signExtend 64).setWidth 32 = acc := by
        ext i hi
        simp [BitVec.getLsbD_signExtend, hi]
        omega
      rw [List.foldl_cons, ih, List.sum_cons, BitVec.setWidth_add _ _ (by omega),
        BitVec.setWidth_add _ _ (by omega), hsext, add_assoc]
  exact (hfold 0).trans (zero_add _)

/-- Below 2^31 samples, or so many that the negative `int` stands for their number. -/
def Countable (k : Nat) : Prop := k < 2 ^ 31 ∨ 2 ^ 64 - 2 ^ 31 ≤ k ∧ k < 2 ^ 64

theorem count_eq_iff (k : Nat) :
    (((BitVec.ofNat 64 k).setWidth 32).signExtend 64).toNat = k ↔ Countable k := by
  rw [BitVec.toNat_signExtend, BitVec.msb_eq_decide, Countable]
  simp only [BitVec.toNat_setWidth, BitVec.toNat_ofNat]
  split <;> simp only [decide_eq_true_eq] at * <;> omega

/-- What a summary of the samples says. -/
structure Right (n width : Nat) (xs : List Word) (r : Summary) : Prop where
  count : r.count.toNat = xs.length
  aboveRange : r.aboveRange.toNat = xs.countP fun x => n * width ≤ x.toNat
  min : ∀ x ∈ xs, (∀ y ∈ xs, x ≤ y) → r.min.toNat = rep n width x
  max : ∀ x ∈ xs, (∀ y ∈ xs, y ≤ x) → r.max.toNat = rep n width x
  total : r.total.toNat = (xs.map (rep n width)).sum % 2 ^ 64

theorem Counts.summarize_eq (hc : Counts n width xs h) (ps : List Rat) :
    ∃ r, h.summarize ps = some r ∧
      r.count = ((BitVec.ofNat 64 xs.length).setWidth 32).signExtend 64 ∧
      h.buckets[n]? = some r.aboveRange ∧
      r.total = BitVec.ofNat 64 (xs.map (rep n width.toNat)).sum ∧
      ∃ count, r.min = (h.scan count 0 h.buckets ⟨false, 0, 0, 0, 0, ps, []⟩).min ∧
        r.max = (h.scan count 0 h.buckets ⟨false, 0, 0, 0, 0, ps, []⟩).max := by
  have hlast : h.buckets.getLast? = h.buckets[n]? := by
    rw [List.getLast?_eq_getElem?, hc.length_eq]
    rfl
  have hn := hc.counter n le_rfl
  unfold Histogram.summarize
  rw [hlast, hn]
  refine ⟨_, rfl, ?_, rfl, ?_, _, rfl, rfl⟩
  · rw [accumulate_eq, hc.sum_eq]
  · rw [scan_total, hc.width_eq, hc.weight_eq]
    exact zero_add _

section Buckets

variable {w : Nat} {y : Word}

theorem rep_lt (n w : Nat) (x : Word) : rep n w x < 2 ^ 64 := by
  have h1 : bucketOf n w x * w ≤ x.toNat / w * w := Nat.mul_le_mul_right w (Nat.min_le_left _ _)
  have h2 := Nat.div_mul_le_self x.toNat w
  have h3 := x.isLt
  unfold rep
  omega

theorem bucketOf_mono (hxy : x ≤ y) : bucketOf n w x ≤ bucketOf n w y := by
  have hdiv : x.toNat / w ≤ y.toNat / w := Nat.div_le_div_right (BitVec.le_def.mp hxy)
  unfold bucketOf
  simp only [Nat.min_def]
  split <;> split <;> omega

theorem bucketOf_eq_last (hw : 0 < w) : bucketOf n w x = n ↔ n * w ≤ x.toNat := by
  rw [← Nat.le_div_iff_mul_le hw]
  unfold bucketOf
  simp only [Nat.min_def]
  split <;> omega

end Buckets

/-- The counter of a bucket with samples is not zero, as long as it does not overflow. -/
theorem Counts.counter_ne_zero (hc : Counts n width xs h) (hlen : xs.length < 2 ^ 64)
    (hx : x ∈ xs) : ∃ b, h.buckets[bucketOf n width.toNat x]? = some b ∧ b ≠ 0 := by
  refine ⟨_, hc.counter _ (bucketOf_le _ _ _), fun hzero => ?_⟩
  have hpos : 0 < xs.countP fun y => bucketOf n width.toNat y = bucketOf n width.toNat x :=
    List.countP_pos_iff.mpr ⟨x, hx, by simp⟩
  have hle := List.countP_le_length (p := fun y =>
    decide (bucketOf n width.toNat y = bucketOf n width.toNat x)) (l := xs)
  have hnat := congrArg BitVec.toNat hzero
  rw [BitVec.toNat_ofNat, Nat.mod_eq_of_lt (by omega)] at hnat
  exact absurd hnat (by simpa using hpos.ne')

theorem Counts.counter_zero {c : Word} {j : Nat} (hc : Counts n width xs h)
    (hj : h.buckets[j]? = some c) (hx : ∀ x ∈ xs, bucketOf n width.toNat x ≠ j) : c = 0 := by
  have hlt : j < h.buckets.length := (List.getElem?_eq_some_iff.mp hj).1
  rw [hc.counter j (by rw [hc.length_eq] at hlt; omega), Option.some.injEq] at hj
  rw [← hj, List.countP_eq_zero.mpr (by simpa using hx)]
  rfl

theorem toNat_rep (x : Word) :
    (BitVec.ofNat 64 (0 + bucketOf n width.toNat x) * width).toNat = rep n width.toNat x := by
  have hlt := rep_lt n width.toNat x
  unfold rep at hlt ⊢
  rw [Nat.zero_add, BitVec.toNat_mul, BitVec.toNat_ofNat, Nat.mod_mul_mod, Nat.mod_eq_of_lt hlt]

theorem Counts.right (hw : 0 < width.toNat) (hc : Counts n width xs h)
    (hk : Countable xs.length) (ps : List Rat) :
    ∃ r, h.summarize ps = some r ∧ Right n width.toNat xs r := by
  have hlen : xs.length < 2 ^ 64 := by
    unfold Countable at hk
    omega
  obtain ⟨r, hr, hcount, habove, htotal, count, hmin, hmax⟩ := hc.summarize_eq ps
  refine ⟨r, hr, ?_, ?_, fun x hx hall => ?_, fun x hx hall => ?_, ?_⟩
  · rw [hcount]
    exact (count_eq_iff _).mpr hk
  · rw [hc.counter n le_rfl, Option.some.injEq] at habove
    have hle := List.countP_le_length (p := fun y => decide (bucketOf n width.toNat y = n)) (l := xs)
    rw [← habove, BitVec.toNat_ofNat, Nat.mod_eq_of_lt (by omega)]
    exact List.countP_congr fun x _ => by simp [bucketOf_eq_last hw]
  · obtain ⟨b, hb, hne⟩ := hc.counter_ne_zero hlen hx
    rw [hmin, scan_min hb hne rfl, hc.width_eq, toNat_rep]
    intro j c hj hjc
    refine hc.counter_zero hjc fun y hy heq => ?_
    have := bucketOf_mono (n := n) (w := width.toNat) (hall y hy)
    omega
  · obtain ⟨b, hb, hne⟩ := hc.counter_ne_zero hlen hx
    rw [hmax, scan_max hb hne, hc.width_eq, toNat_rep]
    intro j c hj hjc
    refine hc.counter_zero hjc fun y hy heq => ?_
    have := bucketOf_mono (n := n) (w := width.toNat) (hall y hy)
    omega
  · rw [htotal, BitVec.toNat_ofNat]

/-- The summary of a new histogram after some insertions. -/
def summaryAfter (numBuckets width : Word) (ops : List Insertion) (ps : List Rat) : Option Summary :=
  (run ops (Histogram.new numBuckets width)).bind (·.summarize ps)

theorem summaryAfter_full (width : Word) (ops : List Insertion) (ps : List Rat) :
    summaryAfter (BitVec.allOnes 64) width ops ps = none := by
  cases ops with
  | nil => rfl
  | cons op ops =>
    cases op with
    | insert x => rfl
    | atomicInsert x => rfl

/-- For every number of buckets, width and sequence of insertions. -/
theorem summary_right_iff (numBuckets width : Word) (hw : 0 < width.toNat) (ops : List Insertion)
    (ps : List Rat) :
    (∃ r, summaryAfter numBuckets width ops ps = some r ∧
      Right numBuckets.toNat width.toNat (ops.map (·.sample)) r) ↔
    numBuckets ≠ BitVec.allOnes 64 ∧ Countable ops.length := by
  by_cases hn : numBuckets = BitVec.allOnes 64
  · subst hn
    refine ⟨?_, fun h => absurd rfl h.1⟩
    rintro ⟨r, hr, -⟩
    rw [summaryAfter_full] at hr
    cases hr
  · have hlt : numBuckets.toNat + 1 < 2 ^ 64 := by
      have hne : numBuckets.toNat ≠ 2 ^ 64 - 1 := fun h => hn (BitVec.eq_of_toNat_eq (by simpa using h))
      omega
    obtain ⟨h, hrun, hc⟩ := (counts_new _ hlt width).run hlt ops
    rw [List.nil_append] at hc
    simp only [summaryAfter, hrun, Option.bind_some, ne_eq, hn, not_false_eq_true, true_and]
    constructor
    · rintro ⟨r, hr, hright⟩
      obtain ⟨r', hr', hcount, -⟩ := hc.summarize_eq ps
      rw [hr, Option.some.injEq] at hr'
      subst hr'
      have hlen := hright.count
      rw [hcount, List.length_map] at hlen
      exact (count_eq_iff _).mp hlen
    · intro hk
      exact hc.right hw (by rwa [List.length_map]) ps

theorem two_samples_right :
    ∃ r, summaryAfter 2 10 [.insert 5, .atomicInsert 99] [] = some r ∧
      Right 2 10 [5, 99] r :=
  (summary_right_iff 2 10 (by decide) [.insert 5, .atomicInsert 99] []).mpr
    ⟨by decide, .inl (by decide)⟩

/-- 2^31 samples are reported as 2^64 - 2^31. -/
theorem count_negative : ∃ r,
    summaryAfter 1 1 (List.replicate (2 ^ 31) (.insert 0)) [] = some r ∧
      r.count.toNat = 2 ^ 64 - 2 ^ 31 := by
  obtain ⟨h, hrun, hc⟩ := (counts_new 1 (by decide) 1).run (by decide)
    (List.replicate (2 ^ 31) (.insert 0))
  obtain ⟨r, hr, hcount, -⟩ := hc.summarize_eq []
  refine ⟨r, ?_, ?_⟩
  · rw [summaryAfter, hrun]
    exact hr
  · rw [hcount, List.nil_append, List.length_map, List.length_replicate]
    decide

end Bess.Histograms
