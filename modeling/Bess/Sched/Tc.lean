import Bess.Utils.PriorityQueue
import Mathlib.Data.List.DropRight

/-!
# Traffic classes

The five policies of `core/traffic_class.h`. A class refers to others by number; what one member
function does to its own object is a function of that object and of `B`, the `blocked_` flags of the
other classes. The steps from a class to its parent are in `Bess.Sched.Forest`.

Counters, times and tokens are the machine's 64-bit words. Indices into vectors are natural numbers.
-/

namespace Bess.Sched

open Bess.Heap Bess.PriorityQueue

abbrev TcId := Nat

inductive Resource
  | count | cycle | packet | bit
  deriving DecidableEq, Repr

/-- `resource_arr_t` -/
structure Usage where
  count : UInt64
  cycle : UInt64
  packet : UInt64
  bit : UInt64
  deriving DecidableEq, Repr

def Usage.get (u : Usage) : Resource → UInt64
  | .count => u.count
  | .cycle => u.cycle
  | .packet => u.packet
  | .bit => u.bit

/-- `ACCUMULATE` -/
def Usage.accumulate (acc x : Usage) : Usage :=
  ⟨acc.count + x.count, acc.cycle + x.cycle, acc.packet + x.packet, acc.bit + x.bit⟩

def Usage.zero : Usage := ⟨0, 0, 0, 0⟩

/-! ## The policies' own data -/

structure PriorityChild where
  priority : UInt32
  c : TcId
  deriving DecidableEq, Repr

structure Priority where
  firstRunnable : Nat
  children : List PriorityChild
  deriving DecidableEq, Repr

/-- `pass` and `remain` share their storage: the word is `pass` while the child is runnable and
`remain` while it is blocked. -/
structure FairChild where
  stride : Int64
  pass : Int64
  c : TcId
  deriving DecidableEq, Repr

structure WeightedFair where
  resource : Resource
  runnable : List FairChild
  blocked : List FairChild
  all : List (TcId × Int32)
  deriving DecidableEq, Repr

structure RoundRobin where
  nextChild : Nat
  runnable : List TcId
  blocked : List TcId
  all : List TcId
  deriving DecidableEq, Repr

/-- `limit` and `maxBurst` are in work units. -/
structure RateLimit where
  resource : Resource
  limit : UInt64
  maxBurst : UInt64
  tokens : UInt64
  lastTsc : UInt64
  child : Option TcId
  deriving DecidableEq, Repr

inductive Policy
  | priority (p : Priority)
  | weightedFair (w : WeightedFair)
  | roundRobin (r : RoundRobin)
  | rateLimit (l : RateLimit)
  | leaf (waitCycles : UInt64)
  deriving DecidableEq, Repr

structure Tc where
  parent : Option TcId
  usage : Usage
  cntThrottled : UInt64
  wakeupTime : UInt64
  blocked : Bool
  policy : Policy
  deriving DecidableEq, Repr

/-- `Children()` -/
def Policy.children : Policy → List TcId
  | .priority p => p.children.map (·.c)
  | .weightedFair w => w.all.map (·.1)
  | .roundRobin r => r.all
  | .rateLimit l => l.child.toList
  | .leaf _ => []

def Policy.isLeaf : Policy → Bool
  | .leaf _ => true
  | _ => false

/-- The constructor of `TrafficClass`. -/
def Tc.make (policy : Policy) (blocked : Bool) : Tc :=
  ⟨none, Usage.zero, 0, 0, blocked, policy⟩

/-- `kInitialWaitCycles` -/
def initialWaitCycles : UInt64 := 16384

def Tc.makePriority : Tc := .make (.priority ⟨0, []⟩) true
def Tc.makeWeightedFair (resource : Resource) : Tc := .make (.weightedFair ⟨resource, [], [], []⟩) true
def Tc.makeRoundRobin : Tc := .make (.roundRobin ⟨0, [], [], []⟩) true
def Tc.makeLeaf : Tc := .make (.leaf initialWaitCycles) false

/-- Work units of `x` units of a resource; `kUsageAmplifierPow` is 32. -/
def toWorkUnits (x : UInt64) : UInt64 := x <<< 32

/-- The division is in 128 bits, the result is cut to 64. -/
def toWorkUnitsPerCycle (tscHz x : UInt64) : UInt64 :=
  UInt64.ofNat (x.toNat * 4294967296 / tscHz.toNat)

def Tc.makeRateLimit (tscHz : UInt64) (resource : Resource) (limit maxBurst : UInt64) : Tc :=
  .make (.rateLimit ⟨resource, toWorkUnitsPerCycle tscHz limit, toWorkUnits maxBurst, 0, 0, none⟩) true

/-! ## Priority -/

/-- The first position from `i` on whose child is not blocked, or the end. -/
def skipBlocked (B : TcId → Bool) (children : List PriorityChild) (i : Nat) : Nat :=
  i + ((children.drop i).takeWhile fun d => B d.c).length

/-- `InsertSorted`: the new element moves down from the end while it is smaller. -/
def insertSorted (children : List PriorityChild) (d : PriorityChild) : List PriorityChild :=
  let larger := fun x : PriorityChild => decide (d.priority < x.priority)
  children.rdropWhile larger ++ d :: children.rtakeWhile larger

/-- What `RemoveChild` found: nothing, a child whose removal is not passed on, or one whose removal
is followed by `BlockTowardsRoot`. -/
inductive Removal
  | missing | quiet | block
  deriving DecidableEq, Repr

def Priority.addChild (p : Priority) (child : TcId) (priority : UInt32) : Option Priority :=
  if p.children.any fun d => d.priority == priority then none
  else some { p with children := insertSorted p.children ⟨priority, child⟩ }

def Priority.removeChild (p : Priority) (child : TcId) : Priority × Removal :=
  match p.children.findIdx? fun d => d.c == child with
  | none => (p, .missing)
  | some i =>
    ({ children := p.children.eraseIdx i
       firstRunnable := if p.firstRunnable > i then p.firstRunnable - 1 else p.firstRunnable },
      .block)

def Priority.unblock (B : TcId → Bool) (p : Priority) : Priority :=
  { p with firstRunnable := skipBlocked B p.children 0 }

def Priority.block (B : TcId → Bool) (p : Priority) : Priority :=
  { p with firstRunnable := skipBlocked B p.children p.firstRunnable }

/-! ## Weighted fair -/

/-- `ChildData::operator<` -/
def passComp : FairChild → FairChild → Bool := byLeast fun d => d.pass.toInt

def stride1 : Int32 := 1048576

def quantum : UInt64 := 1024

/-- The pass of the first runnable child, or 0. -/
def nextPass : List FairChild → Int64
  | [] => 0
  | d :: _ => d.pass

/-- The new data and whether `UnblockTowardsRoot` follows. The code records the child in
`all_children_` after that call, which does not read it. -/
def WeightedFair.addChild (S : StdHeap) (B : TcId → Bool) (w : WeightedFair) (child : TcId)
    (share : Int32) : Option (WeightedFair × Bool) :=
  if share = 0 then none
  else
    let d : FairChild := ⟨(stride1 / share).toInt64, nextPass w.runnable, child⟩
    let all := w.all ++ [(child, share)]
    if B child then some ({ w with blocked := w.blocked ++ [d], all }, false)
    else some ({ w with runnable := S.push passComp w.runnable d, all }, true)

def WeightedFair.removeChild (S : StdHeap) (w : WeightedFair) (child : TcId) :
    WeightedFair × Removal :=
  let w := { w with all := w.all.eraseP fun x => x.1 == child }
  if w.blocked.any fun d => d.c == child then
    ({ w with blocked := w.blocked.eraseP fun d => d.c == child }, .quiet)
  else
    match deleteSingleElement S passComp (fun d => d.c == child) w.runnable with
    | some (_, runnable) => ({ w with runnable }, .block)
    | none => (w, .missing)

/-- The loop of `UnblockTowardsRoot` over the blocked children: the runnable and the blocked ones it
leaves. -/
def wakeFair (S : StdHeap) (B : TcId → Bool) :
    List FairChild → List FairChild → List FairChild × List FairChild
  | [], runnable => (runnable, [])
  | d :: ds, runnable =>
    if B d.c then
      let rest := wakeFair S B ds runnable
      (rest.1, d :: rest.2)
    else wakeFair S B ds (S.push passComp runnable { d with pass := nextPass runnable + d.pass })

def WeightedFair.unblock (S : StdHeap) (B : TcId → Bool) (w : WeightedFair) : WeightedFair :=
  let woken := wakeFair S B w.blocked w.runnable
  { w with runnable := woken.1, blocked := woken.2 }

def WeightedFair.block (S : StdHeap) (B : TcId → Bool) (w : WeightedFair) : WeightedFair :=
  match deleteSingleElement S passComp (fun d => B d.c) w.runnable with
  | some (d, runnable) => { w with runnable, blocked := w.blocked ++ [d] }
  | none => w

/-- The product is one of unsigned words, as in the code. -/
def passDelta (d : FairChild) (consumed : UInt64) : UInt64 :=
  d.stride.toUInt64 * consumed / quantum

def WeightedFair.finish (S : StdHeap) (w : WeightedFair) (childBlocked : Bool) (usage : Usage) :
    WeightedFair :=
  match w.runnable with
  | [] => w
  | item :: rest =>
    let delta := (passDelta item (usage.get w.resource)).toInt64
    if childBlocked then
      { w with
        blocked := w.blocked ++ [{ item with pass := delta }]
        runnable := S.pop passComp ({ item with pass := delta } :: rest) }
    else
      { w with runnable := decreaseKeyTop passComp ({ item with pass := item.pass + delta } :: rest) }

/-! ## Round robin -/

def RoundRobin.addChild (B : TcId → Bool) (r : RoundRobin) (child : TcId) : RoundRobin :=
  let all := r.all ++ [child]
  if B child then { r with blocked := r.blocked ++ [child], all }
  else { r with runnable := r.runnable ++ [child], all }

/-- The index after an erasure at `i` that left `n` runnable children. -/
def stepBack (next i n : Nat) : Nat :=
  let next := if next > i then next - 1 else next
  if next ≥ n then 0 else next

def RoundRobin.removeChild (r : RoundRobin) (child : TcId) : RoundRobin × Removal :=
  let r := { r with all := r.all.erase child }
  if r.blocked.contains child then ({ r with blocked := r.blocked.erase child }, .quiet)
  else
    match r.runnable.findIdx? fun c => c == child with
    | none => (r, .missing)
    | some i =>
      let runnable := r.runnable.eraseIdx i
      ({ r with runnable, nextChild := stepBack r.nextChild i runnable.length }, .block)

def RoundRobin.unblock (B : TcId → Bool) (r : RoundRobin) : RoundRobin :=
  { r with
    runnable := r.runnable ++ r.blocked.filter fun c => !B c
    blocked := r.blocked.filter B }

/-- The loop of `BlockTowardsRoot`: `kept` are the runnable children before position `i`, the list
argument those from `i` on. -/
def blockLoop (B : TcId → Bool) : List TcId → List TcId → Nat → List TcId → List TcId × Nat × List TcId
  | [], kept, next, blocked => (kept, next, blocked)
  | c :: cs, kept, next, blocked =>
    if B c then
      blockLoop B cs kept (stepBack next kept.length (kept.length + cs.length)) (blocked ++ [c])
    else blockLoop B cs (kept ++ [c]) next blocked

def RoundRobin.block (B : TcId → Bool) (r : RoundRobin) : RoundRobin :=
  let out := blockLoop B r.runnable [] r.nextChild r.blocked
  { r with runnable := out.1, nextChild := out.2.1, blocked := out.2.2 }

/-- The index starts over at the end of the runnable children. -/
def RoundRobin.wrap (r : RoundRobin) : RoundRobin :=
  { r with nextChild := if r.nextChild ≥ r.runnable.length then 0 else r.nextChild }

def RoundRobin.finish (r : RoundRobin) (child : TcId) (childBlocked : Bool) (usage : Usage) :
    RoundRobin :=
  RoundRobin.wrap <|
    if childBlocked then
      { r with runnable := r.runnable.eraseIdx r.nextChild, blocked := r.blocked ++ [child] }
    else { r with nextChild := (r.nextChild + usage.count.toNat) % UInt64.size }

/-! ## Rate limit -/

/-- The bucket at `tsc`, before the run that ends then is charged. -/
def RateLimit.tokensAt (l : RateLimit) (tsc : UInt64) : UInt64 :=
  l.tokens + l.limit * (tsc - l.lastTsc)

def RateLimit.consumed (l : RateLimit) (usage : Usage) : UInt64 := toWorkUnits (usage.get l.resource)

/-- The charged run exceeds what the bucket holds. -/
def RateLimit.throttles (l : RateLimit) (usage : Usage) (tsc : UInt64) : Bool :=
  l.tokensAt tsc < l.consumed usage

def RateLimit.finish (l : RateLimit) (usage : Usage) (tsc : UInt64) : RateLimit :=
  { l with
    lastTsc := tsc
    tokens :=
      if l.throttles usage tsc then 0 else min (l.tokensAt tsc - l.consumed usage) l.maxBurst }

/-- `tsc + wait_tsc` -/
def RateLimit.wakeupAt (l : RateLimit) (usage : Usage) (tsc : UInt64) : UInt64 :=
  tsc + (l.consumed usage - l.tokensAt tsc) / l.limit

/-! ## The virtual functions -/

/-- `PickNextChild`; `none` is an access out of range or the null pointer. -/
def Policy.pickNextChild : Policy → Option TcId
  | .priority p => p.children[p.firstRunnable]?.map (·.c)
  | .weightedFair w => w.runnable.head?.map (·.c)
  | .roundRobin r => r.runnable[r.nextChild]?
  | .rateLimit l => l.child
  | .leaf _ => none

/-- A rate limit has no child that could run. -/
def RateLimit.childBlocked (B : TcId → Bool) (l : RateLimit) : Bool :=
  match l.child with
  | some c => B c
  | none => true

/-- The class's own part of `UnblockTowardsRoot`, with the flag that
`UnblockTowardsRootSetBlocked` then stores. -/
def Tc.unblock (S : StdHeap) (B : TcId → Bool) (tsc : UInt64) (t : Tc) : Tc :=
  match t.policy with
  | .priority p =>
    let p := p.unblock B
    { t with policy := .priority p, blocked := decide (p.firstRunnable ≥ p.children.length) }
  | .weightedFair w =>
    let w := w.unblock S B
    { t with policy := .weightedFair w, blocked := w.runnable.isEmpty }
  | .roundRobin r =>
    let r := r.unblock B
    { t with policy := .roundRobin r, blocked := r.runnable.isEmpty }
  | .rateLimit l =>
    let l := { l with lastTsc := tsc }
    { t with policy := .rateLimit l, blocked := t.wakeupTime != 0 || l.childBlocked B }
  | .leaf _ => { t with blocked := false }

/-- The class's own part of `BlockTowardsRoot`. -/
def Tc.block (S : StdHeap) (B : TcId → Bool) (t : Tc) : Tc :=
  match t.policy with
  | .priority p =>
    let p := p.block B
    { t with policy := .priority p, blocked := p.firstRunnable == p.children.length }
  | .weightedFair w =>
    let w := w.block S B
    { t with policy := .weightedFair w, blocked := w.runnable.isEmpty }
  | .roundRobin r =>
    let r := r.block B
    { t with policy := .roundRobin r, blocked := r.runnable.isEmpty }
  | .rateLimit l => { t with blocked := l.childBlocked B }
  | .leaf _ => { t with blocked := false }

/-- The class's own part of `FinishAndAccountTowardsRoot` for a run below `child`. -/
def Tc.finish (S : StdHeap) (B : TcId → Bool) (child : TcId) (usage : Usage) (tsc : UInt64)
    (t : Tc) : Tc :=
  let t := { t with usage := t.usage.accumulate usage }
  match t.policy with
  | .priority p =>
    if B child then
      let p := p.block B
      { t with policy := .priority p, blocked := p.firstRunnable == p.children.length }
    else t
  | .weightedFair w =>
    let w := w.finish S (B child) usage
    { t with
      policy := .weightedFair w
      blocked := if B child then w.runnable.isEmpty else t.blocked }
  | .roundRobin r =>
    let r := r.finish child (B child) usage
    { t with
      policy := .roundRobin r
      blocked := if B child then r.runnable.isEmpty else t.blocked }
  | .rateLimit l =>
    let throttled := l.throttles usage tsc
    { t with
      policy := .rateLimit (l.finish usage tsc)
      blocked := (t.blocked || throttled) || B child
      cntThrottled := if throttled then t.cntThrottled + 1 else t.cntThrottled
      wakeupTime := if throttled && l.limit != 0 then l.wakeupAt usage tsc else t.wakeupTime }
  | .leaf _ => t

/-- `FinishAndAccountTowardsRoot` puts the class in the wakeup queue. -/
def Tc.queues (usage : Usage) (tsc : UInt64) (t : Tc) : Bool :=
  match t.policy with
  | .rateLimit l => l.throttles usage tsc && l.limit != 0
  | _ => false

/-- The argument `AddChild` takes besides the child. -/
inductive ChildArg
  | priority (priority : UInt32)
  | share (share : Int32)
  | none
  deriving DecidableEq, Repr

/-- The class's own part of `AddChild` and whether `UnblockTowardsRoot` follows; `none` where it
returns false. -/
def Policy.addChild (S : StdHeap) (B : TcId → Bool) (child : TcId) :
    Policy → ChildArg → Option (Policy × Bool)
  | .priority p, .priority n => (p.addChild child n).map fun p => (.priority p, true)
  | .weightedFair w, .share n => (w.addChild S B child n).map fun o => (.weightedFair o.1, o.2)
  | .roundRobin r, .none => some (.roundRobin (r.addChild B child), true)
  | .rateLimit l, .none =>
    match l.child with
    | none => some (.rateLimit { l with child := some child }, true)
    | some _ => none
  | _, _ => none

/-- The class's own part of `RemoveChild`. -/
def Policy.removeChild (S : StdHeap) (child : TcId) : Policy → Policy × Removal
  | .priority p => let out := p.removeChild child; (.priority out.1, out.2)
  | .weightedFair w => let out := w.removeChild S child; (.weightedFair out.1, out.2)
  | .roundRobin r => let out := r.removeChild child; (.roundRobin out.1, out.2)
  | .rateLimit l =>
    if l.child = some child then (.rateLimit { l with child := none }, .block)
    else (.rateLimit l, .missing)
  | .leaf n => (.leaf n, .missing)

end Bess.Sched
