import Bess.Sched.Forest
import Mathlib.Logic.Function.Basic

/-!
# The arithmetic of a rate limit

Tokens are work units of `2 ^ -32` of a resource unit in 64-bit words, and nothing checks that they
fit. The update is the one in unbounded integers exactly when the bucket stays below `2 ^ 64` and the
usage and the burst below `2 ^ 32` (`token_update_exact_iff`).
-/

namespace Bess.Sched

open Bess.Heap

/-! ## The token update in unbounded integers -/

namespace RateLimit

/-- `set_limit` and `set_max_burst` were called with these arguments. -/
structure Configured (tscHz limit maxBurst : UInt64) (l : RateLimit) : Prop where
  limit : l.limit = toWorkUnitsPerCycle tscHz limit
  maxBurst : l.maxBurst = toWorkUnits maxBurst

variable (tscHz limit maxBurst : UInt64) (l : RateLimit) (usage : Usage) (tsc : UInt64)

/-- The tokens that are there when a run is accounted. -/
def exactAvailable : Nat :=
  l.tokens.toNat + limit.toNat * 4294967296 / tscHz.toNat * (tsc - l.lastTsc).toNat

def exactConsumed : Nat := (usage.get l.resource).toNat * 4294967296

/-- The tokens that are left, at most a full burst. -/
def exactTokens : Nat :=
  if exactAvailable tscHz limit l tsc < exactConsumed l usage then 0
  else min (exactAvailable tscHz limit l tsc - exactConsumed l usage) (maxBurst.toNat * 4294967296)

/-- The update is the one in unbounded integers. -/
structure Exact : Prop where
  available : (l.tokensAt tsc).toNat = exactAvailable tscHz limit l tsc
  consumed : (l.consumed usage).toNat = exactConsumed l usage
  burst : l.maxBurst.toNat = maxBurst.toNat * 4294967296
  throttles : l.throttles usage tsc = true ↔
    exactAvailable tscHz limit l tsc < exactConsumed l usage
  tokens : (l.finish usage tsc).tokens.toNat = exactTokens tscHz limit maxBurst l usage tsc

theorem toWorkUnits_toNat (x : UInt64) :
    (toWorkUnits x).toNat = x.toNat * 4294967296 % 18446744073709551616 := by
  rw [toWorkUnits, UInt64.toNat_shiftLeft, Nat.shiftLeft_eq]
  rfl

theorem toWorkUnits_toNat_eq_iff (x : UInt64) :
    (toWorkUnits x).toNat = x.toNat * 4294967296 ↔ x.toNat < 4294967296 := by
  rw [toWorkUnits_toNat]
  omega

variable {tscHz limit maxBurst l}

theorem Configured.tokensAt_toNat (h : l.Configured tscHz limit maxBurst) :
    (l.tokensAt tsc).toNat = exactAvailable tscHz limit l tsc % 18446744073709551616 := by
  unfold tokensAt exactAvailable
  rw [h.limit, toWorkUnitsPerCycle, UInt64.toNat_add, UInt64.toNat_mul, UInt64.toNat_ofNat']
  simp only [Nat.reducePow, Nat.add_mod, Nat.mod_mod, Nat.mul_mod]

/-- The charge in terms of the numbers that the words hold. -/
theorem finish_tokens_toNat :
    (l.finish usage tsc).tokens.toNat =
      if (l.tokensAt tsc).toNat < (l.consumed usage).toNat then 0
      else min ((l.tokensAt tsc).toNat - (l.consumed usage).toNat) l.maxBurst.toNat := by
  unfold finish throttles
  simp only [decide_eq_true_eq, UInt64.lt_iff_toNat_lt]
  split
  · rfl
  · rename_i hlt
    have hsub := UInt64.toNat_sub_of_le _ _ (UInt64.le_iff_toNat_le.mpr (Nat.le_of_not_lt hlt))
    rw [← hsub, show ∀ a b : UInt64, min a b = if a ≤ b then a else b from fun _ _ => rfl, Nat.min_def]
    simp only [UInt64.le_iff_toNat_le]
    split <;> rfl

/-- The words hold what they should exactly when the bucket, the usage and the burst fit. -/
theorem token_update_exact_iff (h : l.Configured tscHz limit maxBurst) (usage : Usage)
    (tsc : UInt64) :
    Exact tscHz limit maxBurst l usage tsc ↔
      exactAvailable tscHz limit l tsc < 18446744073709551616 ∧
        (usage.get l.resource).toNat < 4294967296 ∧ maxBurst.toNat < 4294967296 := by
  have hcons : (l.consumed usage).toNat = exactConsumed l usage ↔
      (usage.get l.resource).toNat < 4294967296 := toWorkUnits_toNat_eq_iff _
  have hburst : l.maxBurst.toNat = maxBurst.toNat * 4294967296 ↔ maxBurst.toNat < 4294967296 := by
    rw [h.maxBurst]
    exact toWorkUnits_toNat_eq_iff _
  constructor
  · intro he
    refine ⟨?_, hcons.mp he.consumed, hburst.mp he.burst⟩
    rw [← he.available]
    exact UInt64.toNat_lt _
  · rintro ⟨ha, hu, hb⟩
    have havail := (h.tokensAt_toNat tsc).trans (Nat.mod_eq_of_lt ha)
    have hu := hcons.mpr hu
    have hb := hburst.mpr hb
    refine ⟨havail, hu, hb, ?_, ?_⟩
    · unfold throttles
      rw [decide_eq_true_eq, UInt64.lt_iff_toNat_lt, havail, hu]
    · rw [finish_tokens_toNat, havail, hu, hb, exactTokens]

end RateLimit

/-! ## Runs

A scheduler and the classes it works on, under edits, wakeups and scheduling rounds. -/

/-- The constructors of the five policies. -/
inductive TcSpec
  | priority
  | weightedFair (resource : Resource)
  | roundRobin
  | rateLimit (tscHz : UInt64) (resource : Resource) (limit maxBurst : UInt64)
  | leaf

def TcSpec.make : TcSpec → Tc
  | .priority => Tc.makePriority
  | .weightedFair r => Tc.makeWeightedFair r
  | .roundRobin => Tc.makeRoundRobin
  | .rateLimit hz r limit maxBurst => Tc.makeRateLimit hz r limit maxBurst
  | .leaf => Tc.makeLeaf

inductive Event
  | create (spec : TcSpec)
  | attach (c : TcId)
  | addChild (p c : TcId) (arg : ChildArg) (tsc : UInt64)
  | removeChild (p c : TcId)
  | wake (tsc : UInt64)
  | round (tsc : UInt64) (ran : Ran)

namespace System

def initial : System := ⟨Forest.empty, ⟨none, none, [], 0⟩⟩

/-- `attach` is `AttachOrphan` at an empty scheduler. -/
def step (S : StdHeap) (s : System) : Event → System
  | .create spec => { s with forest := s.forest.create spec.make }
  | .attach c => { s with sched := { s.sched with root := some c } }
  | .addChild p c arg tsc => { s with forest := (s.forest.addChild S p c arg tsc).getD s.forest }
  | .removeChild p c => { s with forest := (s.forest.removeChild S p c).1 }
  | .wake tsc => s.wake S tsc
  | .round tsc ran => s.round S tsc ran

/-- Two gigabit per second at 2 GHz over a leaf, which is added at the clock value 1000. -/
def fastLimit : System :=
  [Event.create (.rateLimit 2000000000 .bit 2000000000 0), .create .leaf, .attach 0,
    .addChild 0 1 .none 1000].foldl (step .sorted) initial

/-- A run of one packet of 512 bits is accounted `2 ^ 32` cycles later, a little over two seconds.
The bucket holds `2 ^ 64` work units, the word holds 0, and the class is throttled. -/
theorem fastLimit_bucket_wraps :
    ∃ r, (fastLimit.forest.tc 0).policy = .rateLimit r ∧
      r.Configured 2000000000 2000000000 0 ∧
      r.exactConsumed ⟨1, 100, 1, 512⟩ ≤ r.exactAvailable 2000000000 2000000000 4294968296 ∧
      (r.throttles ⟨1, 100, 1, 512⟩ 4294968296) = true ∧
      ((fastLimit.step .sorted
        (.round 4294968196 ⟨none, ⟨1, 100, 1, 512⟩, 4294968296⟩)).forest.tc 0).cntThrottled = 1 := by
  refine ⟨⟨.bit, 4294967296, 0, 0, 1000, some 1⟩, ?_, ⟨?_, ?_⟩, ?_, ?_, ?_⟩
  · decide +kernel
  · decide +kernel
  · decide +kernel
  · decide +kernel
  · decide +kernel
  · decide +kernel

/-- Half a second of idle time fits. -/
theorem fastLimit_exact_soon :
    RateLimit.Exact 2000000000 2000000000 0 ⟨.bit, 4294967296, 0, 0, 1000, some 1⟩
      ⟨1, 100, 1, 512⟩ 1000001000 :=
  (RateLimit.token_update_exact_iff ⟨by decide +kernel, by decide +kernel⟩ _ _).mpr
    (by decide +kernel)

end System

end Bess.Sched
