import Bess.Modules.Command
import Bess.Utils.Histogram

/-!
# The measure module

`modules/measure.cc`: the delays of time-stamped packets, and the differences between them, are
counted in two histograms. `Clear` replaces both by empty ones, which it asks for with
`num_buckets()`; that number has the bucket above the range in it, and the constructor adds another.

Doubles are rational numbers. A packet comes with the random number drawn for it.
-/

namespace Bess.Measuring

open Bess.Histograms Bess.Modules

structure MeasureArg where
  latencyNsMax : Word
  latencyNsResolution : Word
  offset : Word
  jitterSampleProb : Rat

/-- `stampAt` is what `IsTimestamped` finds at an offset. -/
structure Packet where
  stampAt : Word → Option Word
  totalLen : Word
  draw : Rat

structure Measure where
  rttHist : Histogram
  jitterHist : Histogram
  jitterSampleProb : Rat
  lastRttNs : Word
  offset : Word
  pktCnt : Word
  bytesCnt : Word

def kDefaultNsPerBucket : Word := 100
def kDefaultMaxNs : Word := 100000000
def kDefaultIpDvSampleProb : Rat := 1 / 20

def E2BIG : Nat := 7

/-- `max_num_buckets()`; a vector can be larger. -/
def maxNumBuckets : Word := 10000000

/-- `sizeof(Ethernet) + sizeof(Ipv4) + sizeof(Udp)` -/
def defaultOffset : Word := 14 + 20 + 8

def orDefault (v default : Word) : Word := if v = 0 then default else v

/-- The number of buckets that `Init` asks for. -/
def bucketsFor (latencyNsMax latencyNsResolution : Word) : Word :=
  latencyNsMax / latencyNsResolution + if latencyNsMax % latencyNsResolution ≠ 0 then 1 else 0

def init (arg : MeasureArg) : Except Failure Measure :=
  let latencyNsMax := orDefault arg.latencyNsMax kDefaultMaxNs
  let latencyNsResolution := orDefault arg.latencyNsResolution kDefaultNsPerBucket
  let numBuckets := bucketsFor latencyNsMax latencyNsResolution
  if maxNumBuckets / 2 < numBuckets then
    .error (.msg E2BIG "excessive latency_ns_max / latency_ns_resolution")
  else .ok {
    rttHist := Histogram.new numBuckets latencyNsResolution
    jitterHist := Histogram.new numBuckets latencyNsResolution
    jitterSampleProb :=
      if arg.jitterSampleProb = 0 then kDefaultIpDvSampleProb else arg.jitterSampleProb
    lastRttNs := 0
    offset := orDefault arg.offset defaultOffset
    pktCnt := 0
    bytesCnt := 0 }

def absdiff (lhs rhs : Word) : Word := if rhs < lhs then lhs - rhs else rhs - lhs

/-- One turn of the loop of `ProcessBatch`; `none` outside of a histogram. -/
def processPacket (nowNs : Word) (m : Measure) (pkt : Packet) : Option Measure :=
  match pkt.stampAt m.offset with
  | none => some m
  | some pktTime =>
    if nowNs < pktTime then some m
    else
      let diff := nowNs - pktTime
      match m.rttHist.insert diff with
      | none => none
      | some rttHist =>
        let m := { m with rttHist, bytesCnt := m.bytesCnt + pkt.totalLen }
        if pkt.draw ≤ m.jitterSampleProb then
          if m.lastRttNs = 0 then some { m with lastRttNs := diff }
          else
            match m.jitterHist.insert (absdiff diff m.lastRttNs) with
            | none => none
            | some jitterHist => some { m with jitterHist, lastRttNs := diff }
        else some m

def processPackets (nowNs : Word) : List Packet → Measure → Option Measure
  | [], m => some m
  | pkt :: pkts, m => (processPacket nowNs m pkt).bind (processPackets nowNs pkts)

def processBatch (nowNs : Word) (batch : List Packet) (m : Measure) : Option Measure :=
  processPackets nowNs batch { m with pktCnt := m.pktCnt + BitVec.ofNat 64 batch.length }

def clear (m : Measure) : Measure :=
  { m with
    rttHist := Histogram.new m.rttHist.numBuckets m.rttHist.bucketWidth
    jitterHist := Histogram.new m.jitterHist.numBuckets m.jitterHist.bucketWidth
    pktCnt := 0
    bytesCnt := 0 }

def isValidPercentiles (ps : List Rat) : Bool :=
  decide (ps.Pairwise (· ≤ ·)) && ps.all (0 ≤ ·) && ps.all (· ≤ 100)

structure GetSummaryArg where
  latencyPercentiles : List Rat
  jitterPercentiles : List Rat
  clear : Bool

/-- The response, without the time of day. -/
structure SummaryResponse where
  packets : Word
  bits : Word
  latency : Summary
  latencyResolutionNs : Word
  jitter : Summary
  jitterResolutionNs : Word

/-- `none` if a histogram has no bucket. -/
def commandGetSummary (arg : GetSummaryArg) (m : Measure) :
    Option (Except Failure SummaryResponse × Measure) :=
  if !isValidPercentiles arg.latencyPercentiles then
    some (.error (.msg EINVAL "invalid 'latency_percentiles'"), m)
  else if !isValidPercentiles arg.jitterPercentiles then
    some (.error (.msg EINVAL "invalid 'jitter_percentiles'"), m)
  else
    match m.rttHist.summarize arg.latencyPercentiles,
      m.jitterHist.summarize arg.jitterPercentiles with
    | some latency, some jitter =>
      some (.ok {
        packets := m.pktCnt
        bits := (m.bytesCnt + m.pktCnt * 24) * 8
        latency
        latencyResolutionNs := m.rttHist.bucketWidth
        jitter
        jitterResolutionNs := m.jitterHist.bucketWidth }, if arg.clear then clear m else m)
    | _, _ => none

/-! ## Runs -/

inductive Op
  | processBatch (nowNs : Word) (batch : List Packet)
  | getSummary (arg : GetSummaryArg)
  | clear

def step (m : Measure) : Op → Option Measure
  | .processBatch nowNs batch => processBatch nowNs batch m
  | .getSummary arg => (commandGetSummary arg m).map (·.2)
  | .clear => some (clear m)

def run : List Op → Measure → Option Measure
  | [], m => some m
  | op :: ops, m => (step m op).bind (run ops)

/-- The request reaches `Clear`. -/
def Op.clears : Op → Bool
  | .processBatch _ _ => false
  | .getSummary arg =>
    arg.clear && isValidPercentiles arg.latencyPercentiles &&
      isValidPercentiles arg.jitterPercentiles
  | .clear => true

/-- A sample is counted in the last bucket. -/
def Above (h : Histogram) (x : Word) : Prop := h.index x + 1 = h.buckets.length

/-- The histogram has the buckets of `h₀`. -/
structure SameBuckets (h₀ h : Histogram) : Prop where
  length_eq : h.buckets.length = h₀.buckets.length
  width_eq : h.bucketWidth = h₀.bucketWidth
  above : ∀ x, Above h x ↔ Above h₀ x

structure SameShape (m₀ m : Measure) : Prop where
  rtt : SameBuckets m₀.rttHist m.rttHist
  jitter : SameBuckets m₀.jitterHist m.jitterHist

variable {m m' : Measure} {h h' h₀ : Histogram}

theorem SameBuckets.of_eq (hl : h.buckets.length = h₀.buckets.length)
    (hw : h.bucketWidth = h₀.bucketWidth) : SameBuckets h₀ h := by
  refine ⟨hl, hw, fun x => ?_⟩
  simp only [Above, Histogram.index, Histogram.numBuckets, hl, hw]

theorem SameBuckets.refl (h : Histogram) : SameBuckets h h := .of_eq rfl rfl

theorem SameBuckets.trans {h₁ h₂ : Histogram} (h : SameBuckets h₀ h₁) (h' : SameBuckets h₁ h₂) :
    SameBuckets h₀ h₂ :=
  .of_eq (h'.length_eq.trans h.length_eq) (h'.width_eq.trans h.width_eq)

theorem SameShape.refl (m : Measure) : SameShape m m := ⟨.refl _, .refl _⟩

theorem SameShape.trans {m₁ m₂ m₃ : Measure} (h : SameShape m₁ m₂) (h' : SameShape m₂ m₃) :
    SameShape m₁ m₃ :=
  ⟨h.rtt.trans h'.rtt, h.jitter.trans h'.jitter⟩

/-- An insertion stays inside the buckets, as there is a last one. -/
theorem insert_sameBuckets (hpos : 0 < h.buckets.length) (hlt : h.buckets.length < 2 ^ 64)
    (x : Word) : ∃ h', h.insert x = some h' ∧ SameBuckets h h' := by
  have hle : h.index x ≤ (h.numBuckets - 1).toNat := Nat.min_le_right _ _
  have hsize : (h.numBuckets - 1).toNat < h.buckets.length := by
    rw [Histogram.numBuckets]
    bv_omega
  have hget := List.getElem?_eq_getElem (lt_of_le_of_lt hle hsize)
  unfold Histogram.insert
  rw [hget]
  exact ⟨_, rfl, .of_eq List.length_set rfl⟩

/-- Both histograms have a last bucket, and a size that is a number. -/
structure Sized (m : Measure) : Prop where
  rtt_pos : 0 < m.rttHist.buckets.length
  rtt_lt : m.rttHist.buckets.length < 2 ^ 64
  jitter_pos : 0 < m.jitterHist.buckets.length
  jitter_lt : m.jitterHist.buckets.length < 2 ^ 64

theorem Sized.of_shape (h : Sized m) (hs : SameShape m m') : Sized m' := by
  obtain ⟨h1, h2, h3, h4⟩ := h
  rw [← hs.rtt.length_eq] at h1 h2
  rw [← hs.jitter.length_eq] at h3 h4
  exact ⟨h1, h2, h3, h4⟩

theorem processPacket_shape (h : Sized m) (nowNs : Word) (pkt : Packet) :
    ∃ m', processPacket nowNs m pkt = some m' ∧ SameShape m m' := by
  unfold processPacket
  split
  · exact ⟨m, rfl, .refl m⟩
  · rename_i pktTime hstamp
    split
    · exact ⟨m, rfl, .refl m⟩
    · obtain ⟨rtt, hrtt, hsame⟩ := insert_sameBuckets h.rtt_pos h.rtt_lt (nowNs - pktTime)
      simp only [hrtt]
      split
      · split
        · exact ⟨_, rfl, hsame, .refl _⟩
        · obtain ⟨jitter, hjitter, hsame'⟩ := insert_sameBuckets h.jitter_pos h.jitter_lt
            (absdiff (nowNs - pktTime) m.lastRttNs)
          simp only [hjitter]
          exact ⟨_, rfl, hsame, hsame'⟩
      · exact ⟨_, rfl, hsame, .refl _⟩

theorem processPackets_shape (h : Sized m) (nowNs : Word) (pkts : List Packet) :
    ∃ m', processPackets nowNs pkts m = some m' ∧ SameShape m m' := by
  induction pkts generalizing m with
  | nil => exact ⟨m, rfl, .refl m⟩
  | cons pkt pkts ih =>
    obtain ⟨m₁, h₁, hs₁⟩ := processPacket_shape h nowNs pkt
    obtain ⟨m', h', hs'⟩ := ih (h.of_shape hs₁)
    exact ⟨m', by rw [processPackets, h₁]; exact h', hs₁.trans hs'⟩

theorem summarize_isSome (hpos : 0 < h.buckets.length) (ps : List Rat) :
    ∃ r, h.summarize ps = some r := by
  unfold Histogram.summarize
  cases hlast : h.buckets.getLast? with
  | none =>
    rw [List.getLast?_eq_none_iff] at hlast
    rw [hlast] at hpos
    cases hpos
  | some b => exact ⟨_, rfl⟩

theorem commandGetSummary_state (h : Sized m) (arg : GetSummaryArg) :
    (commandGetSummary arg m).map (·.2) =
      some (if (Op.getSummary arg).clears then clear m else m) := by
  obtain ⟨r, hr⟩ := summarize_isSome h.rtt_pos arg.latencyPercentiles
  obtain ⟨j, hj⟩ := summarize_isSome h.jitter_pos arg.jitterPercentiles
  unfold commandGetSummary Op.clears
  cases hl : isValidPercentiles arg.latencyPercentiles with
  | false => simp [hl]
  | true =>
    cases hjv : isValidPercentiles arg.jitterPercentiles with
    | false => simp [hjv]
    | true => simp [hl, hjv, hr, hj]

/-- What a step does to the shape. -/
theorem step_shape (h : Sized m) (op : Op) :
    ∃ m', step m op = some m' ∧
      if op.clears then m' = clear m else SameShape m m' := by
  cases op with
  | processBatch nowNs batch =>
    obtain ⟨m', hm', hs⟩ := processPackets_shape
      (m := { m with pktCnt := m.pktCnt + BitVec.ofNat 64 batch.length })
      ⟨h.rtt_pos, h.rtt_lt, h.jitter_pos, h.jitter_lt⟩ nowNs batch
    exact ⟨m', hm', hs.rtt, hs.jitter⟩
  | getSummary arg =>
    refine ⟨_, commandGetSummary_state h arg, ?_⟩
    split
    · rfl
    · exact .refl m
  | clear => exact ⟨_, rfl, rfl⟩

/-- One bucket more than before. -/
theorem clear_length (hlt : m.rttHist.buckets.length + 1 < 2 ^ 64) :
    (clear m).rttHist.buckets.length = m.rttHist.buckets.length + 1 := by
  rw [clear, Histogram.new, List.length_replicate, Histogram.numBuckets]
  bv_omega

/-- After every step of the run the histograms are shaped as in `m₀`. -/
def KeepsShape (m₀ : Measure) : List Op → Measure → Prop
  | [], m => SameShape m₀ m
  | op :: ops, m => SameShape m₀ m ∧ ∃ m', step m op = some m' ∧ KeepsShape m₀ ops m'

theorem KeepsShape.start {m₀ : Measure} {ops : List Op} (h : KeepsShape m₀ ops m) :
    SameShape m₀ m := by
  cases ops with
  | nil => exact h
  | cons op ops => exact h.1

theorem keepsShape_iff {m₀ : Measure} (h₀ : Sized m₀)
    (hlt : m₀.rttHist.buckets.length + 1 < 2 ^ 64) (ops : List Op) (hs : SameShape m₀ m) :
    KeepsShape m₀ ops m ↔ ∀ op ∈ ops, op.clears = false := by
  induction ops generalizing m with
  | nil => simpa [KeepsShape] using hs
  | cons op ops ih =>
    obtain ⟨m', hstep, hcase⟩ := step_shape (h₀.of_shape hs) op
    simp only [KeepsShape, hs, hstep, true_and, Option.some.injEq, exists_eq_left',
      List.forall_mem_cons]
    cases hc : op.clears with
    | false =>
      rw [hc] at hcase
      rw [ih (hs.trans hcase)]
      simp
    | true =>
      rw [hc] at hcase
      refine ⟨fun hkeep => ?_, fun hkeep => absurd hkeep.1 (by simp)⟩
      have hlen := hkeep.start.rtt.length_eq
      rw [show m' = clear m from hcase, clear_length (by rw [hs.rtt.length_eq]; exact hlt),
        hs.rtt.length_eq] at hlen
      omega

theorem init_sized {arg : MeasureArg} (h : init arg = .ok m) :
    Sized m ∧ m.rttHist.buckets.length + 1 < 2 ^ 64 := by
  unfold init at h
  simp only at h
  split at h
  · cases h
  · rename_i hle
    cases h
    generalize bucketsFor _ _ = n at hle ⊢
    have hmax : maxNumBuckets / 2 = 5000000 := by decide
    have hlen : 0 < (n + 1).toNat ∧ (n + 1).toNat ≤ 5000001 := by
      rw [hmax] at hle
      bv_omega
    refine ⟨⟨?_, ?_, ?_, ?_⟩, ?_⟩ <;> rw [Histogram.new, List.length_replicate] <;> omega

/-- For every configuration and every run: the buckets stay those of `Init` as long as nothing is
cleared, and no longer. -/
theorem shape_kept_iff {arg : MeasureArg} {m₀ : Measure} (h : init arg = .ok m₀) (ops : List Op) :
    KeepsShape m₀ ops m₀ ↔ ∀ op ∈ ops, op.clears = false :=
  keepsShape_iff (init_sized h).1 (init_sized h).2 ops (.refl m₀)

/-- Delays up to 1 ns, in one bucket. -/
def shortArg : MeasureArg := ⟨1, 1, 0, 0⟩

def shortMeasure : Measure :=
  ⟨Histogram.new 1 1, Histogram.new 1 1, kDefaultIpDvSampleProb, 0, defaultOffset, 0, 0⟩

theorem shape_kept_short :
    init shortArg = .ok shortMeasure ∧ KeepsShape shortMeasure
      [.processBatch 5 [⟨fun _ => some 3, 60, 0⟩, ⟨fun _ => some 5, 60, 0⟩],
        .getSummary ⟨[], [], false⟩] shortMeasure :=
  ⟨rfl, (shape_kept_iff (show init shortArg = .ok shortMeasure from rfl) _).mpr (by decide)⟩

/-- A delay of 1 ns is above the range, and after one `clear` it is not. -/
theorem clear_moves_range :
    init shortArg = .ok shortMeasure ∧
    (run [.clear] shortMeasure).map (fun m => (m.rttHist.buckets.length, m.rttHist.index 1)) =
      some (3, 1) ∧
    shortMeasure.rttHist.buckets.length = 2 ∧ shortMeasure.rttHist.index 1 = 1 :=
  ⟨rfl, by decide +kernel, by decide +kernel, by decide +kernel⟩

end Bess.Measuring
