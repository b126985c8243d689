import Bess.Sched.Tc

/-!
# The forest of traffic classes and the scheduler

All traffic classes with their parent pointers, the member functions of `core/traffic_class.cc` that
walk towards the root, and the scheduler of `core/scheduler.h`. A walk has one step of fuel more than
there are classes, which is more than any path has (`Bess.Sched.Tree`).
-/

namespace Bess.Sched

open Bess.Heap Bess.PriorityQueue

/-- Classes are numbered in the order of their creation; `size` is the next number. -/
structure Forest where
  size : Nat
  tc : TcId → Tc

namespace Forest

def empty : Forest := ⟨0, fun _ => Tc.makeLeaf⟩

def set (F : Forest) (c : TcId) (t : Tc) : Forest :=
  { F with tc := fun d => if d = c then t else F.tc d }

/-- `CreateTrafficClass`; the new class is number `F.size`. -/
def create (F : Forest) (t : Tc) : Forest := { F.set F.size t with size := F.size + 1 }

def blocked (F : Forest) (c : TcId) : Bool := (F.tc c).blocked

def parent (F : Forest) (c : TcId) : Option TcId := (F.tc c).parent

def children (F : Forest) (c : TcId) : List TcId := (F.tc c).policy.children

/-- The classes from `c` to its root. -/
def ancestors (F : Forest) : Nat → TcId → List TcId
  | 0, _ => []
  | n + 1, c =>
    c :: match F.parent c with
      | some p => F.ancestors n p
      | none => []

def setParent (F : Forest) (c : TcId) (p : Option TcId) : Forest :=
  F.set c { F.tc c with parent := p }

def setPolicy (F : Forest) (c : TcId) (policy : Policy) : Forest :=
  F.set c { F.tc c with policy }

/-- `UnblockTowardsRoot` and `BlockTowardsRoot` have one shape: each class changes itself by `f`, and
the parent is told if the class's flag became `became`. -/
def towardsRoot (f : (TcId → Bool) → Tc → Tc) (became : Bool) : Nat → TcId → Forest → Forest
  | 0, _, F => F
  | n + 1, c, F =>
    let t := f F.blocked (F.tc c)
    let F' := F.set c t
    match F.parent c with
    | some p =>
      if t.blocked = became ∧ F.blocked c ≠ became then towardsRoot f became n p F' else F'
    | none => F'

def unblockTowardsRoot (S : StdHeap) (F : Forest) (c : TcId) (tsc : UInt64) : Forest :=
  F.towardsRoot (fun B t => t.unblock S B tsc) false (F.size + 1) c

def blockTowardsRoot (S : StdHeap) (F : Forest) (c : TcId) : Forest :=
  F.towardsRoot (fun B t => t.block S B) true (F.size + 1) c

/-- `AddChild` of the class `p`, called at `tsc`; `none` where it returns false. -/
def addChild (S : StdHeap) (F : Forest) (p child : TcId) (arg : ChildArg) (tsc : UInt64) :
    Option Forest :=
  if F.parent child ≠ none then none
  else
    match (F.tc p).policy.addChild S F.blocked child arg with
    | none => none
    | some (policy, unblock) =>
      let F' := (F.setParent child (some p)).setPolicy p policy
      some (if unblock then F'.unblockTowardsRoot S p tsc else F')

/-- `RemoveChild` of the class `p` and what it returns. -/
def removeChild (S : StdHeap) (F : Forest) (p child : TcId) : Forest × Bool :=
  if F.parent child ≠ some p then (F, false)
  else
    let out := (F.tc p).policy.removeChild S child
    let F' := F.setPolicy p out.1
    match out.2 with
    | .missing => (F', false)
    | .quiet => (F'.setParent child none, true)
    | .block => ((F'.setParent child none).blockTowardsRoot S p, true)

/-- `WakeupComp` -/
def wakeupComp (F : Forest) : TcId → TcId → Bool := byLeast fun c => (F.tc c).wakeupTime.toNat

/-- `FinishAndAccountTowardsRoot` from the class `p` on, after a run below its child `child`. -/
def finishUp (S : StdHeap) (usage : Usage) (tsc : UInt64) :
    Nat → TcId → Option TcId → Forest → List TcId → Forest × List TcId
  | 0, _, _, F, q => (F, q)
  | _, _, none, F, q => (F, q)
  | n + 1, child, some p, F, q =>
    let t := F.tc p
    let F' := F.set p (t.finish S F.blocked child usage tsc)
    let q' := if t.queues usage tsc then S.push F'.wakeupComp q p else q
    finishUp S usage tsc n p t.parent F' q'

/-- `LeafTrafficClass::FinishAndAccountTowardsRoot` -/
def finishAndAccount (S : StdHeap) (F : Forest) (q : List TcId) (leaf : TcId) (usage : Usage)
    (tsc : UInt64) : Forest × List TcId :=
  let F' := F.set leaf { F.tc leaf with usage := (F.tc leaf).usage.accumulate usage }
  finishUp S usage tsc (F.size + 1) leaf (F.parent leaf) F' q

/-- The loop of `Next` that descends to a leaf. `none` is an access out of range. -/
def pickLeaf (F : Forest) : Nat → TcId → Option TcId
  | 0, _ => none
  | n + 1, c =>
    if (F.tc c).policy.isLeaf then some c
    else
      match (F.tc c).policy.pickNextChild with
      | some d => pickLeaf F n d
      | none => none

/-- The class at the top of the wakeup queue is woken: it waits no longer, and the walk towards the
root starts with the time it was waiting for. -/
def woken (S : StdHeap) (F : Forest) (c : TcId) : Forest :=
  (F.set c { F.tc c with wakeupTime := 0 }).unblockTowardsRoot S c (F.tc c).wakeupTime

/-- `WakeTCs`; the argument of the recursion bounds the number of turns. -/
def wakeTCs (S : StdHeap) (tsc : UInt64) : Nat → Forest → List TcId → Forest × List TcId
  | 0, F, q => (F, q)
  | _, F, [] => (F, [])
  | n + 1, F, c :: q =>
    if (F.tc c).wakeupTime < tsc then
      wakeTCs S tsc n (F.woken S c) (S.pop F.wakeupComp (c :: q))
    else (F, c :: q)

end Forest

/-! ## The scheduler -/

/-- `default_rr_class_` is the round-robin root that `AttachOrphan` makes. -/
structure Scheduler where
  root : Option TcId
  defaultRrClass : Option TcId
  wakeupQueue : List TcId
  checkpoint : UInt64
  deriving DecidableEq, Repr

/-- A scheduler and the classes it works on. -/
structure System where
  forest : Forest
  sched : Scheduler

/-- What `Next` returns: nothing, a leaf, or an access out of range. -/
inductive Picked
  | null
  | leaf (c : TcId)
  | wild
  deriving DecidableEq, Repr

/-- What the body of a scheduling round does with the leaf: it may mark it blocked until a time, and
it charges `usage` at `now`. -/
structure Ran where
  mark : Option UInt64
  usage : Usage
  now : UInt64
  deriving DecidableEq, Repr

namespace System

def wake (S : StdHeap) (s : System) (tsc : UInt64) : System :=
  let out := s.forest.wakeTCs S tsc s.sched.wakeupQueue.length s.sched.wakeupQueue
  { s with forest := out.1, sched := { s.sched with wakeupQueue := out.2 } }

def pick (s : System) : Picked :=
  match s.sched.root with
  | none => .null
  | some r =>
    if s.forest.blocked r then .null
    else
      match s.forest.pickLeaf (s.forest.size + 1) r with
      | some c => .leaf c
      | none => .wild

/-- `Scheduler::Next` -/
def next (S : StdHeap) (s : System) (tsc : UInt64) : System × Picked :=
  let s := s.wake S tsc
  (s, s.pick)

/-- The leaf marks itself blocked and is put in the wakeup queue. -/
def markBlocked (S : StdHeap) (s : System) (leaf : TcId) (wakeupTime : UInt64) : System :=
  let F := s.forest.set leaf { s.forest.tc leaf with blocked := true, wakeupTime }
  { s with
    forest := F
    sched := { s.sched with wakeupQueue := S.push F.wakeupComp s.sched.wakeupQueue leaf } }

/-- `FinishAndAccountTowardsRoot` from the leaf, with the scheduler's wakeup queue. -/
def finish (S : StdHeap) (s : System) (leaf : TcId) (usage : Usage) (tsc : UInt64) : System :=
  let out := s.forest.finishAndAccount S s.sched.wakeupQueue leaf usage tsc
  { s with forest := out.1, sched := { s.sched with wakeupQueue := out.2 } }

/-- What follows `Next` in a round that got the leaf. -/
def runLeaf (S : StdHeap) (s : System) (leaf : TcId) (ran : Ran) : System :=
  let s := match ran.mark with
    | some wakeupTime => s.markBlocked S leaf wakeupTime
    | none => s
  s.finish S leaf ran.usage ran.now

/-- A scheduling round: `Next` at `tsc` and the run of the leaf it returns. -/
def round (S : StdHeap) (s : System) (tsc : UInt64) (ran : Ran) : System :=
  match s.next S tsc with
  | (s, .leaf c) => s.runLeaf S c ran
  | (s, _) => s

end System

/-! ## The two schedulers -/

/-- What the task's run returns. -/
structure TaskResult where
  block : Bool
  packets : UInt64
  bits : UInt64
  deriving DecidableEq, Repr

/-- The usage of a run that is charged. -/
def TaskResult.usage (ret : TaskResult) (checkpoint now : UInt64) : Usage :=
  ⟨1, now - checkpoint, ret.packets, ret.bits⟩

/-- `kMaxWait` -/
def maxWait : UInt64 := 1048576

def waitCycles (t : Tc) : UInt64 :=
  match t.policy with
  | .leaf n => n
  | _ => 0

namespace System

def setWaitCycles (s : System) (leaf : TcId) (n : UInt64) : System :=
  { s with forest := s.forest.setPolicy leaf (.leaf n) }

/-- `DefaultScheduler::ScheduleOnce`, with the task's result and the clock after it. -/
def scheduleOnceDefault (S : StdHeap) (s : System) (ret : TaskResult) (now : UInt64) : System :=
  let s := match s.next S s.sched.checkpoint with
    | (s', .leaf c) => s'.finish S c (ret.usage s.sched.checkpoint now) now
    | (s', _) => s'
  { s with sched := { s.sched with checkpoint := now } }

/-- `ExperimentalScheduler::ScheduleOnce` -/
def scheduleOnceExperimental (S : StdHeap) (s : System) (ret : TaskResult) (now : UInt64) : System :=
  let s := match s.next S s.sched.checkpoint with
    | (s', .leaf c) =>
      if ret.packets = 0 ∧ ret.block then
        let wait := min maxWait (waitCycles (s'.forest.tc c) <<< 1)
        let s' := (s'.setWaitCycles c wait).markBlocked S c (now + wait)
        s'.finish S c Usage.zero now
      else
        let s' := s'.setWaitCycles c ((waitCycles (s'.forest.tc c) + 1) >>> 1)
        s'.finish S c (ret.usage s.sched.checkpoint now) now
    | (s', _) => s'
  { s with sched := { s.sched with checkpoint := now } }

end System

inductive SchedulerKind
  | default | experimental
  deriving DecidableEq, Repr

def System.scheduleOnce (S : StdHeap) (s : System) (ret : TaskResult) (now : UInt64) :
    SchedulerKind → System
  | .default => s.scheduleOnceDefault S ret now
  | .experimental => s.scheduleOnceExperimental S ret now

end Bess.Sched
