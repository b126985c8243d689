import Mathlib.Data.Rat.Floor

/-!
# The flow generator

`modules/flowgen.cc`: how the arguments are checked and stored, the parameters that are derived from
them, and what is written to a new flow.

Doubles are rational numbers without rounding, with an infinity and a NaN, which `ProcessArguments`
does not exclude and computes, respectively. Random numbers and the spread of the Pareto distribution
(computed with `pow`) are draws from the environment. So is what a conversion to an integer gives when
the number does not fit, which the language leaves open.
-/

namespace Bess.FlowGen

/-! ## Doubles -/

inductive Num
  | fin (q : ℚ)
  | inf
  | nan
  deriving DecidableEq

namespace Num

def mul : Num → Num → Num
  | .fin a, .fin b => .fin (a * b)
  | .fin a, .inf => if a = 0 then .nan else .inf
  | .inf, .fin b => if b = 0 then .nan else .inf
  | .inf, .inf => .inf
  | _, _ => .nan

def div : Num → Num → Num
  | .fin a, .fin b => if b = 0 then (if a = 0 then .nan else .inf) else .fin (a / b)
  | .fin _, .inf => .fin 0
  | .inf, .fin _ => .inf
  | _, _ => .nan

/-- `<`, which is false if either number is a NaN. -/
def lt : Num → Num → Bool
  | .fin a, .fin b => decide (a < b)
  | .fin _, .inf => true
  | _, _ => false

/-- The integer part; conversions drop the fraction. -/
def trunc (q : ℚ) : Int := if 0 ≤ q then ⌊q⌋ else ⌈q⌉

/-- Conversion to `int`; `junk` if the number does not fit. -/
def toInt (junk : Int) : Num → Int
  | .fin q => if -2147483649 < q ∧ q < 2147483648 then trunc q else junk
  | _ => junk

/-- A draw from `[0.0, 1.0)` is added. -/
def addReal (r : ℚ) : Num → Num
  | .fin q => .fin (q + r)
  | x => x

end Num

/-! ## Configuration -/

inductive Arrival
  | uniform | exponential
  deriving DecidableEq, Repr

inductive Duration
  | uniform | pareto
  deriving DecidableEq, Repr

/-- `FlowGenArg` -/
structure Arg where
  template : List UInt8
  pps : Num
  flowRate : Num
  flowDuration : Num
  arrival : String
  duration : String
  quickRampup : Bool
  ipSrcRange : UInt32
  ipDstRange : UInt32
  portSrcRange : UInt32
  portDstRange : UInt32

/-- The parameters of the module. Which ranges the random offsets come from is up to the draws. -/
structure Config where
  templateSize : Nat
  ipSrcBase : UInt32
  ipDstBase : UInt32
  portSrcBase : UInt16
  portDstBase : UInt16
  totalPps : Num
  flowRate : Num
  flowDuration : Num
  arrival : Arrival
  duration : Duration
  quickRampup : Bool
  concurrentFlows : Num
  flowPps : Num
  flowPkts : Num
  flowGapNs : Num

def maxTemplateSize : Nat := 1536

/-- The bytes of the template from `off` on as a big-endian number; the template buffer is filled up
with zeros. -/
def field (template : List UInt8) (off len : Nat) : Nat :=
  (List.range len).foldl (fun acc i => acc * 256 + (template.getD (off + i) 0).toNat) 0

/-- `isnan(x) || x < 0.0` -/
def invalid : Num → Bool
  | .fin q => decide (q < 0)
  | .inf => false
  | .nan => true

def parseArrival (s : String) : Except String Arrival :=
  if s = "uniform" then .ok .uniform
  else if s = "exponential" then .ok .exponential
  else .error "'arrival' must be either 'uniform' or 'exponential'"

def parseDuration (s : String) : Except String Duration :=
  if s = "uniform" then .ok .uniform
  else if s = "pareto" then .ok .pareto
  else .error "'duration' must be either 'uniform' or 'pareto'"

/-- `ProcessArguments` on a new module, whose derived parameters are all 0. -/
def processArguments (arg : Arg) : Except String Config := do
  if arg.template.length = 0 then .error "must specify 'template'"
  if arg.template.length > maxTemplateSize then .error "'template' is too big"
  if invalid arg.pps then .error "invalid 'pps'"
  if invalid arg.flowRate then .error "invalid 'flow_rate'"
  if invalid arg.flowDuration then .error "invalid 'flow_duration'"
  let arrival ← parseArrival arg.arrival
  let duration ← parseDuration arg.duration
  if arg.portSrcRange > 65535 ∨ arg.portDstRange > 65535 then .error "portrang must be e <= 65535"
  .ok {
    templateSize := arg.template.length
    ipSrcBase := UInt32.ofNat (field arg.template 26 4)
    ipDstBase := UInt32.ofNat (field arg.template 30 4)
    portSrcBase := UInt16.ofNat (field arg.template 34 2)
    portDstBase := UInt16.ofNat (field arg.template 36 2)
    totalPps := arg.pps
    flowRate := arg.flowRate
    flowDuration := arg.flowDuration
    arrival := arrival
    duration := duration
    quickRampup := arg.quickRampup
    concurrentFlows := .fin 0
    flowPps := .fin 0
    flowPkts := .fin 0
    flowGapNs := .fin 0 }

def updateDerivedParameters (c : Config) : Config :=
  let concurrentFlows := c.flowRate.mul c.flowDuration
  let flowPps :=
    if (Num.fin 0).lt concurrentFlows then c.totalPps.div concurrentFlows else c.flowPps
  { c with
    concurrentFlows, flowPps
    flowPkts := flowPps.mul c.flowDuration
    flowGapNs := if (Num.fin 0).lt c.flowRate then (Num.fin 1000000000).div c.flowRate else c.flowGapNs }

/-! ## The environment -/

/-- What is drawn for one flow. -/
structure Draw where
  srcIp : UInt32
  dstIp : UInt32
  srcPort : UInt16
  dstPort : UInt16
  /-- `(x - 1.0) / (mean - 1.0)` for a Pareto variate `x` -/
  tail : ℚ
  /-- `GetReal()` -/
  real : ℚ
  junk : Int

/-! ## The module -/

structure Flow where
  packetsLeft : Int
  firstPkt : Bool
  nextSeqNo : UInt32
  srcIp : UInt32
  dstIp : UInt32
  srcPort : UInt16
  dstPort : UInt16
  deriving DecidableEq, Repr

/-- `scaled_pareto_variate` -/
def scaled (tail : ℚ) : Num → Num
  | .fin q => .fin (1 + tail * (q - 1))
  | .inf => if tail = 0 then .nan else .inf
  | .nan => .nan

def Config.newFlowPkts (c : Config) (d : Draw) : Num :=
  match c.duration with
  | .uniform => c.flowPkts
  | .pareto => scaled d.tail c.flowPkts

namespace State

/-- What `ScheduleFlow` writes to the flow. The destination port is taken from the source base. -/
def freshFlow (c : Config) (d : Draw) : Flow where
  packetsLeft := ((c.newFlowPkts d).addReal d.real).toInt d.junk
  firstPkt := true
  nextSeqNo := 12345
  srcIp := c.ipSrcBase + d.srcIp
  dstIp := c.ipDstBase + d.dstIp
  srcPort := c.portSrcBase + d.srcPort
  dstPort := c.portSrcBase + d.dstPort

end State

end Bess.FlowGen
