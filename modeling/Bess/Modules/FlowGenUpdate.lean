import Bess.Modules.Command
import Bess.Modules.FlowGen

/-!
# Updating a flow generator

`CommandUpdate` of `modules/flowgen.cc` checks and stores its parameters one after another. A check
that fails leaves what was stored before it, and the one that compares both rates takes a parameter
that is absent from the request for a previous value of 0. `UpdateBaseAddresses` is not called.
-/

namespace Bess.FlowGen

open Bess.Modules

/-- `pareto_`, but for the constant `alpha` -/
structure Pareto where
  inversedAlpha : Num
  mean : Num

/-- The parameters together with the template they come from. -/
structure Params where
  template : List UInt8
  config : Config
  pareto : Pareto
  size_eq : config.templateSize = template.length

-- what `MeasureParetoMean` computes with `pow`
variable (measureMean : Num → Num)

/-- `1.0 / 1.3` -/
def inversedAlpha : Num := (Num.fin 1).div (.fin (13 / 10))

/-- `!(isnan(x) || x == 0.0)` -/
def given (x : Num) : Bool := !(x = .nan ∨ x = .fin 0)

def negative (x : Num) : Bool := x.lt (.fin 0)

namespace Params

def setMode (p : Params) (d : Duration) : Params :=
  { p with config := { p.config with duration := d } }

end Params

/-- The arrival that a request asks for; `none` if it is not a valid one. -/
def askedArrival (s : String) (old : Arrival) : Option Arrival :=
  if s = "uniform" then some .uniform
  else if s = "exponential" then some .exponential
  else if s ≠ "" then none
  else some old

def askedMode (s : String) (old : Duration) : Option Duration :=
  if s = "uniform" then some .uniform
  else if s = "pareto" then some .pareto
  else if s ≠ "" then none
  else some old

/-- The base addresses are those of the template. -/
structure BasesOf (template : List UInt8) (c : Config) : Prop where
  ipSrc : c.ipSrcBase = UInt32.ofNat (field template 26 4)
  ipDst : c.ipDstBase = UInt32.ofNat (field template 30 4)
  portSrc : c.portSrcBase = UInt16.ofNat (field template 34 2)
  portDst : c.portDstBase = UInt16.ofNat (field template 36 2)

/-- The derived parameters are those of the rates. -/
structure Derived (p : Params) : Prop where
  concurrent : p.config.concurrentFlows = p.config.flowRate.mul p.config.flowDuration
  pps : p.config.flowPps = p.config.totalPps.div p.config.concurrentFlows
  pkts : p.config.flowPkts = p.config.flowPps.mul p.config.flowDuration
  gap : p.config.flowGapNs = (Num.fin 1000000000).div p.config.flowRate
  alpha : p.pareto.inversedAlpha = inversedAlpha
  mean : p.config.duration = .pareto → p.pareto.mean = measureMean inversedAlpha

/-- An error leaves all parameters; otherwise what is computed agrees with what is stored. -/
def Honest (p : Params) (r : Except Failure Unit × Params) : Prop :=
  match r.1 with
  | .error _ => r.2 = p
  | .ok _ => BasesOf r.2.template r.2.config ∧ Derived measureMean r.2

/-- The value is absent, or it is the stored one. -/
def Same (x old : Num) : Prop := given x = true → x = old

def SameTemplate (p : Params) (arg : Arg) : Prop := arg.template = [] ∨ arg.template = p.template

/-- The template after the request. -/
def newTemplate (p : Params) (arg : Arg) : List UInt8 :=
  if arg.template = [] then p.template else arg.template

/-- What `UpdateDerivedParameters` leaves alone at a flow rate or a duration of 0, the packets per
second of a flow and the gap between flows, is right already. -/
def Fresh (c : Config) (pps rate duration : Num) : Prop :=
  ((Num.fin 0).lt (rate.mul duration) = true ∨ c.flowPps = pps.div (rate.mul duration)) ∧
  ((Num.fin 0).lt rate = true ∨ c.flowGapNs = (Num.fin 1000000000).div rate)

/-- The value after the request. -/
def newValue (x old : Num) : Num := if given x then x else old

/-- Which check fails. -/
inductive Check
  | template | pps | rate | rates | duration | arrival | mode

/-- The first check that fails. -/
def firstFailure (p : Params) (arg : Arg) : Option Check :=
  if maxTemplateSize < arg.template.length then some .template
  else if given arg.pps ∧ negative arg.pps then some .pps
  else if given arg.flowRate ∧ negative arg.flowRate then some .rate
  else if (if given arg.pps then arg.pps else p.config.totalPps).lt
      (if given arg.flowRate then arg.flowRate else p.config.flowRate) then some .rates
  else if given arg.flowDuration ∧ negative arg.flowDuration then some .duration
  else match askedArrival arg.arrival p.config.arrival, askedMode arg.duration p.config.duration with
    | none, _ => some .arrival
    | some _, none => some .mode
    | some _, some _ => none

/-- What was stored before a check that fails was there already, and a rate that is absent when both
are set back was 0; and if no check fails, the new template has the old base addresses and the new
rates are such that nothing stays from the old ones. -/
def Harmless (p : Params) (arg : Arg) : Prop :=
  match firstFailure p arg with
  | some .template => True
  | some .pps => SameTemplate p arg
  | some .rate => SameTemplate p arg ∧ Same arg.pps p.config.totalPps
  | some .rates => SameTemplate p arg ∧
      (given arg.pps = true ∨ p.config.totalPps = .fin 0) ∧
      (given arg.flowRate = true ∨ p.config.flowRate = .fin 0)
  | some .duration => SameTemplate p arg ∧ Same arg.pps p.config.totalPps ∧
      Same arg.flowRate p.config.flowRate
  | some .arrival => SameTemplate p arg ∧ Same arg.pps p.config.totalPps ∧
      Same arg.flowRate p.config.flowRate ∧ Same arg.flowDuration p.config.flowDuration
  | some .mode => SameTemplate p arg ∧ Same arg.pps p.config.totalPps ∧
      Same arg.flowRate p.config.flowRate ∧ Same arg.flowDuration p.config.flowDuration ∧
      askedArrival arg.arrival p.config.arrival = some p.config.arrival
  | none => BasesOf (newTemplate p arg) p.config ∧
      Fresh p.config (newValue arg.pps p.config.totalPps) (newValue arg.flowRate p.config.flowRate)
        (newValue arg.flowDuration p.config.flowDuration)

/-! ## What is stored -/

variable {measureMean} {p : Params} {arg : Arg} {x : Num}

theorem Params.ext_iff {p q : Params} :
    p = q ↔ p.template = q.template ∧ p.config = q.config ∧ p.pareto = q.pareto := by
  obtain ⟨t, c, a, h⟩ := p
  obtain ⟨t', c', a', h'⟩ := q
  simp only [Params.mk.injEq]

/-- What may differ from `p` before the derived parameters are computed. -/
structure Stored (p : Params) (arg : Arg) (pps rate duration : Num) (a : Arrival) (d : Duration)
    (q : Params) : Prop where
  template : q.template = newTemplate p arg
  pareto : q.pareto = p.pareto
  config : q.config = { p.config with
    templateSize := q.config.templateSize
    totalPps := pps
    flowRate := rate
    flowDuration := duration
    arrival := a
    duration := d }

section Stored

variable {pps rate duration : Num} {a : Arrival} {d : Duration} {q : Params}

theorem Stored.setMode (h : Stored p arg pps rate duration a d q) (e : Duration) :
    Stored p arg pps rate duration a e (q.setMode e) :=
  ⟨h.template, h.pareto, congrArg (fun c : Config => { c with duration := e }) h.config⟩

end Stored

end Bess.FlowGen
