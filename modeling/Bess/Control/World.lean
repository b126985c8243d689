import Bess.Sched.Forest

/-!
# Traffic classes under control-plane requests

All traffic classes, the schedulers of the workers, the orphan list of `core/worker.cc`, the tasks of
the modules, and the requests of `core/bessctl.cc` that work on them. A request pauses the workers, so
it happens between scheduling rounds; when it returns, the destructor of `WorkerPauser` attaches the
orphans.

A task is named by the leaf that was made with it: deleting the leaf deletes the task. `clock` are the
readings of the time-stamp counter during a request.
-/

namespace Bess.Control

open Bess.Heap Bess.PriorityQueue Bess.Sched

inductive Errno
  | einval | enoent | eperm
  deriving DecidableEq, Repr

structure RpcError where
  code : Errno
  msg : String
  deriving DecidableEq, Repr

/-- The oneof `arg` of a request. -/
inductive RequestArg
  | notSet
  | priority (x : Int64)
  | share (x : Int64)
  deriving DecidableEq, Repr

/-- The fields of `pb::TrafficClass` that the requests read. -/
structure TcRequest where
  parent : String
  name : String
  policy : String
  resource : String
  arg : RequestArg
  wid : Int64
  limit : String → Option Int64
  maxBurst : String → Option Int64
  leafModuleName : String
  leafModuleTaskid : UInt64

/-- `kMaxWorkers` -/
def maxWorkers : Nat := 64

/-- `kAnyWorker` -/
def anyWorker : Int := -1

/-- `MAX_TASKS_PER_MODULE` -/
def maxTasksPerModule : Nat := 32

/-- `DEFAULT_PRIORITY` -/
def defaultPriority : UInt32 := 0xFFFFFFFF

/-- `ResourceMap` -/
def resourceMap : String → Option Resource
  | "count" => some .count
  | "cycle" => some .cycle
  | "packet" => some .packet
  | "bit" => some .bit
  | _ => none

/-- `live` are the classes that have not been deleted, `tasks` the modules with the leaves of their
tasks, `prevWid` the position of `get_next_active_worker`. -/
structure World where
  tscHz : UInt64
  forest : Forest
  live : TcId → Bool
  name : TcId → String
  allTcs : String → Option TcId
  orphanTcs : List (Int × TcId)
  tasks : String → Option (List TcId)
  workers : Nat → Option Scheduler
  prevWid : Nat

namespace World

def initial (tscHz : UInt64) : World where
  tscHz := tscHz
  forest := Forest.empty
  live := fun _ => false
  name := fun _ => ""
  allTcs := fun _ => none
  orphanTcs := []
  tasks := fun _ => none
  workers := fun _ => none
  prevWid := 0

variable (S : StdHeap) (W : World)

/-! ## Classes and workers -/

/-- `CreateTrafficClass`; nothing if the name is taken. -/
def createTrafficClass (name : String) (t : Tc) : World × Option TcId :=
  if (W.allTcs name).isSome then (W, none)
  else
    let c := W.forest.size
    ({ W with
      forest := W.forest.create t
      live := Function.update W.live c true
      name := Function.update W.name c name
      allTcs := Function.update W.allTcs name (some c) }, some c)

/-- The destructor of a class deletes the children first. -/
def deleteTc : Nat → World → TcId → World
  | 0, W, _ => W
  | n + 1, W, c =>
    let W := (W.forest.children c).foldl (deleteTc n) W
    { W with
      live := Function.update W.live c false
      allTcs := Function.update W.allTcs (W.name c) none }

def delete (c : TcId) : World := deleteTc (W.forest.size + 1) W c

def setScheduler (wid : Nat) (s : Scheduler) : World :=
  { W with workers := Function.update W.workers wid (some s) }

def isWorkerActive (wid : Nat) : Bool := (W.workers wid).isSome

/-- `num_workers` is not 0. -/
def anyWorkers : Bool := (List.range maxWorkers).any W.isWorkerActive

def launchWorker (wid : Nat) : World := W.setScheduler wid ⟨none, none, [], 0⟩

def getNextActiveWorker : World × Nat :=
  if W.anyWorkers then
    let turn := (List.range maxWorkers).map fun k => (W.prevWid + k) % maxWorkers
    let wid := (turn.find? W.isWorkerActive).getD 0
    ({ W with prevWid := (wid + 1) % maxWorkers }, wid)
  else (W.launchWorker 0, 0)

/-- `Root()` -/
def root (c : TcId) : Option TcId := (W.forest.ancestors (W.forest.size + 1) c).getLast?

/-- The test in the loop of `WorkerId`. -/
def rootIs (r : Option TcId) (wid : Nat) : Bool :=
  match W.workers wid with
  | some s => s.root == r
  | none => false

def workerId (c : TcId) : Option Nat := (List.range maxWorkers).find? (W.rootIs (W.root c))

/-! ## Orphans -/

def addTcToOrphan (c : TcId) (wid : Int) : World :=
  { W with orphanTcs := W.orphanTcs ++ [(wid, c)] }

def removeTcFromOrphan (c : TcId) : World × Bool :=
  if W.orphanTcs.any fun o => o.2 == c then
    ({ W with orphanTcs := W.orphanTcs.eraseP fun o => o.2 == c }, true)
  else (W, false)

/-- `AttachOrphan` of the worker's scheduler. -/
def attachOrphan (wid : Nat) (c : TcId) (tsc tsc' : UInt64) : World :=
  match W.workers wid with
  | none => W
  | some s =>
    match s.root, s.defaultRrClass with
    | none, _ => W.setScheduler wid { s with root := some c }
    | some _, some d => { W with forest := (W.forest.addChild S d c .none tsc).getD W.forest }
    | some r, none =>
      match W.createTrafficClass ("!default_rr_" ++ toString wid) Tc.makeRoundRobin with
      | (W, none) => W
      | (W, some d) =>
        let F := (W.forest.addChild S d r .none tsc).getD W.forest
        let F := (F.addChild S d c .none tsc').getD F
        { W with forest := F }.setScheduler wid { s with root := some d, defaultRrClass := some d }

/-- The worker an orphan goes to. -/
def orphanWorker (wid : Int) : World × Nat :=
  if wid = anyWorker ∨ W.workers wid.toNat = none then W.getNextActiveWorker else (W, wid.toNat)

/-- The loop of `attach_orphans`, with the number of the next reading of the clock. -/
def attachEach (clock : Nat → UInt64) : Nat → List (Int × TcId) → World → World
  | _, [], W => W
  | k, (wid, c) :: os, W =>
    if W.forest.parent c ≠ none then attachEach clock k os W
    else
      let (W, w) := W.orphanWorker wid
      attachEach clock (k + 2) os (W.attachOrphan S w c (clock k) (clock (k + 1)))

/-- The loop does not read the list that is cleared after it. -/
def attachOrphans (clock : Nat → UInt64) : World :=
  attachEach S clock 1 W.orphanTcs { W with orphanTcs := [] }

/-- `RemoveRoot` of the worker's scheduler would remove `c`. -/
def hasRoot (c : TcId) (wid : Nat) : Bool :=
  match W.workers wid with
  | some s => s.root == some c && s.defaultRrClass == none
  | none => false

def removeRoot (wid : Nat) : World :=
  { W with
    workers := Function.update W.workers wid
      ((W.workers wid).map fun s => { s with root := none }) }

def detachTc (c : TcId) : World × Bool :=
  match W.forest.parent c with
  | some p =>
    let out := W.forest.removeChild S p c
    ({ W with forest := out.1 }, out.2)
  | none =>
    match (List.range maxWorkers).find? (W.hasRoot c) with
    | some wid => (W.removeRoot wid, true)
    | none => W.removeTcFromOrphan c

/-- `AdjustDefault` of the worker's scheduler. -/
def adjustDefault (wid : Nat) : World :=
  match W.workers wid with
  | none => W
  | some s =>
    match s.root, s.defaultRrClass with
    | some r, some d =>
      match W.forest.children d with
      | [] => (W.delete r).setScheduler wid { s with root := none, defaultRrClass := none }
      | [x] =>
        let W := { W with forest := (W.forest.removeChild S r x).1 }
        (W.delete r).setScheduler wid { s with root := some x, defaultRrClass := none }
      | _ => W
    | _, _ => W

/-! ## Requests -/

def invalid (msg : String) : RpcError := ⟨.einval, msg⟩

/-- The switch of `AttachTc` over the parent's policy: the error, or the argument of `AddChild`. -/
def childArg (policy : Policy) (arg : RequestArg) : Except RpcError ChildArg :=
  match policy with
  | .priority _ =>
    match arg with
    | .priority x =>
      let pri := x.toInt32.toUInt32
      if pri = defaultPriority then
        .error (invalid ("Priority " ++ toString defaultPriority.toInt32 ++ " is reserved"))
      else .ok (.priority pri)
    | _ => .error (invalid "No priority specified")
  | .weightedFair _ =>
    match arg with
    | .share x => .ok (.share x.toInt32)
    | _ => .error (invalid "No share specified")
  | .roundRobin _ => .ok .none
  | .rateLimit _ => .ok .none
  | .leaf _ => .error ⟨.eperm, "Parent tc doesn't support children"⟩

/-- `AttachTc` up to the deletion of the class by its `unique_ptr`. -/
def placeTc (c : TcId) (req : TcRequest) (tsc : UInt64) : Except RpcError World :=
  let wid := req.wid.toInt32.toInt
  if req.parent = "" then
    if wid ≠ anyWorker ∧ (wid < 0 ∨ wid ≥ maxWorkers) then
      .error (invalid ("'wid' must be " ++ toString anyWorker ++ " or between 0 and " ++
        toString (maxWorkers - 1)))
    else if wid ≠ anyWorker ∧ ¬ W.isWorkerActive wid.toNat ∨ wid = anyWorker ∧ ¬ W.anyWorkers then
      if ¬ W.anyWorkers ∧ (wid = 0 ∨ wid = anyWorker) then
        .ok ((W.launchWorker 0).addTcToOrphan c wid)
      else .error (invalid ("worker:" ++ toString wid ++ " does not exist"))
    else .ok (W.addTcToOrphan c wid)
  else if wid ≠ anyWorker then
    .error (invalid "Both 'parent' and 'wid'have been specified")
  else
    match W.allTcs req.parent with
    | none => .error ⟨.enoent, "Parent TC '" ++ req.parent ++ "' not found"⟩
    | some p =>
      match childArg (W.forest.tc p).policy req.arg with
      | .error e => .error e
      | .ok arg =>
        match W.forest.addChild S p c arg tsc with
        | none => .error (invalid "AddChild() failed")
        | some F => .ok { W with forest := F }

/-- `AttachTc`: where it returns an error, the `unique_ptr` deletes the class. -/
def attachTc (c : TcId) (req : TcRequest) (tsc : UInt64) : World × Option RpcError :=
  match W.placeTc S c req tsc with
  | .ok W' => (W', none)
  | .error e => (W.delete c, some e)

def findTc (req : TcRequest) : Except RpcError TcId :=
  if req.name ≠ "" then
    match W.allTcs req.name with
    | some c => .ok c
    | none => .error ⟨.enoent, "Tc '" ++ req.name ++ "' doesn't exist"⟩
  else if req.leafModuleName ≠ "" then
    match W.tasks req.leafModuleName with
    | none => .error ⟨.enoent, "No module '" ++ req.leafModuleName ++ "' found"⟩
    | some tasks =>
      let tid := req.leafModuleTaskid.toUInt16.toNat
      if tid ≥ maxTasksPerModule then
        .error (invalid ("'taskid' must be between 0 and " ++ toString (maxTasksPerModule - 1)))
      else
        match tasks[tid]? with
        | some c => .ok c
        | none => .error ⟨.enoent,
            "Task " ++ req.leafModuleName ++ ":" ++ toString tid ++ " does not exist"⟩
  else .error (invalid "One of 'name' or 'leaf_module_name' must be specified")

/-- The classes `AddTc` makes. -/
def newTc (req : TcRequest) : Except RpcError Tc :=
  if req.policy = "priority" then .ok Tc.makePriority
  else if req.policy = "weighted_fair" then
    match resourceMap req.resource with
    | some r => .ok (Tc.makeWeightedFair r)
    | none => .error (invalid "Invalid resource")
  else if req.policy = "round_robin" then .ok Tc.makeRoundRobin
  else if req.policy = "rate_limit" then
    match resourceMap req.resource with
    | some r =>
      .ok (Tc.makeRateLimit W.tscHz r ((req.limit req.resource).getD 0).toUInt64
        ((req.maxBurst req.resource).getD 0).toUInt64)
    | none => .error (invalid "Invalid resource")
  else if req.policy = "leaf" then
    .error (invalid "Cannot create leaf TC. Use UpdateTcParentRequest message")
  else .error (invalid "Invalid traffic policy")

/-- What `AddTc` checks before it makes the class. -/
def checkAddTc (req : TcRequest) : Except RpcError Tc :=
  if req.name = "" then .error (invalid "Missing 'name' field")
  else if req.name.front = '!' then
    .error (invalid "TC names starting with '!' are reserved")
  else if (W.allTcs req.name).isSome then
    .error (invalid ("Name '" ++ req.name ++ "' already exists"))
  else W.newTc req

def addTc (req : TcRequest) (clock : Nat → UInt64) : World × Option RpcError :=
  let out := match W.checkAddTc req with
    | .error e => (W, some e)
    | .ok t =>
      match W.createTrafficClass req.name t with
      | (W, none) => (W, some (invalid "CreateTrafficClass failed"))
      | (W, some c) => W.attachTc S c req (clock 0)
  (out.1.attachOrphans S clock, out.2)

/-- The new data of a class that `UpdateTcParams` accepts. -/
def newParams (policy : Policy) (req : TcRequest) : Except RpcError Policy :=
  match policy, resourceMap req.resource with
  | .rateLimit _, none => .error (invalid "Invalid resource")
  | .rateLimit l, some resource =>
    .ok (.rateLimit { l with
      resource
      limit := match req.limit req.resource with
        | some x => toWorkUnitsPerCycle W.tscHz x.toUInt64
        | none => l.limit
      maxBurst := match req.maxBurst req.resource with
        | some x => toWorkUnits x.toUInt64
        | none => l.maxBurst })
  | .weightedFair _, none => .error (invalid "Invalid resource")
  | .weightedFair w, some resource => .ok (.weightedFair { w with resource })
  | _, _ => .error (invalid "Only 'rate_limit' and 'weighted_fair' can be updated")

def updateTcParams (req : TcRequest) (clock : Nat → UInt64) : World × Option RpcError :=
  let out : World × Option RpcError := match W.findTc req with
    | .error e => (W, some e)
    | .ok c =>
      match W.newParams (W.forest.tc c).policy req with
      | .error e => (W, some e)
      | .ok policy => ({ W with forest := W.forest.setPolicy c policy }, none)
  (out.1.attachOrphans S clock, out.2)

/-- `UpdateTcParent` without the destructor of its `WorkerPauser`. -/
def moveTc (req : TcRequest) (tsc : UInt64) : World × Option RpcError :=
  match W.findTc req with
  | .error e => (W, some e)
  | .ok c =>
    if (W.forest.tc c).policy.isLeaf then
      match W.detachTc S c with
      | (W, false) => (W, some (invalid ("Cannot detach '" ++ req.name ++ "' from parent")))
      | (W, true) => W.attachTc S c req tsc
    else
      match W.removeTcFromOrphan c with
      | (W, false) => (W, some (invalid
          ("Cannot detach '" ++ req.name ++ "'. while it is part of a worker")))
      | (W, true) => W.attachTc S c req tsc

def updateTcParent (req : TcRequest) (clock : Nat → UInt64) : World × Option RpcError :=
  let out := W.moveTc S req (clock 0)
  (out.1.attachOrphans S clock, out.2)

/-! ## Tasks -/

/-- `RegisterTask` of the module `m`. -/
def registerTask (m : String) : World :=
  match W.tasks m with
  | none => W
  | some tasks =>
    match W.createTrafficClass ("!leaf_" ++ m ++ ":" ++ toString tasks.length) Tc.makeLeaf with
    | (W, none) => W
    | (W, some c) =>
      { W.addTcToOrphan c anyWorker with tasks := Function.update W.tasks m (some (tasks ++ [c])) }

/-- The wakeup queue's `Remove`. -/
def removeFromQueue (wid : Nat) (c : TcId) : World :=
  match W.workers wid with
  | none => W
  | some s =>
    match deleteSingleElement S W.forest.wakeupComp (fun d => d == c) s.wakeupQueue with
    | some (_, q) => W.setScheduler wid { s with wakeupQueue := q }
    | none => W

/-- The class leaves the queue of its worker. -/
def unqueue (c : TcId) : World :=
  match W.workerId c with
  | some wid => W.removeFromQueue S wid c
  | none => W

/-- The body of the loop of `DestroyAllTasks`; the process ends if the leaf cannot be detached. -/
def destroyTask (c : TcId) : World :=
  match (W.unqueue S c).detachTc S c with
  | (W, true) => W.delete c
  | (W, false) => W

def destroyAllTasks (m : String) : World :=
  match W.tasks m with
  | none => W
  | some tasks =>
    let W := tasks.foldl (destroyTask S) W
    { W with tasks := Function.update W.tasks m (some []) }

/-! ## Runs -/

/-- The start of `ScheduleLoop`. -/
def startLoop (wid : Nat) (now : UInt64) : World :=
  match W.workers wid with
  | none => W
  | some s => W.setScheduler wid { s with checkpoint := now }

/-- `ScheduleOnce` of a worker's scheduler. -/
def scheduleOnce (wid : Nat) (kind : SchedulerKind) (ret : TaskResult) (now : UInt64) : World :=
  match W.workers wid with
  | none => W
  | some s =>
    let out := System.scheduleOnce S ⟨W.forest, s⟩ ret now kind
    { W with forest := out.forest }.setScheduler wid out.sched

end World

inductive Event
  | startLoop (wid : Nat) (now : UInt64)
  | scheduleOnce (wid : Nat) (kind : SchedulerKind) (ret : TaskResult) (now : UInt64)
  | addTc (req : TcRequest) (clock : Nat → UInt64)
  | updateTcParams (req : TcRequest) (clock : Nat → UInt64)
  | updateTcParent (req : TcRequest) (clock : Nat → UInt64)
  | createModule (m : String)
  | registerTask (m : String)
  | destroyModule (m : String) (clock : Nat → UInt64)
  | resetTcs (clock : Nat → UInt64)
  | addWorker (wid : Nat)
  | attachOrphans (clock : Nat → UInt64)
  | resumeAllWorkers

/-- `attachOrphans` is the call in `ResumeAll` and in `CheckSchedulingConstraints`. -/
def World.step (S : StdHeap) (W : World) : Event → World
  | .startLoop wid now => W.startLoop wid now
  | .scheduleOnce wid kind ret now => W.scheduleOnce S wid kind ret now
  | .addTc req clock => (W.addTc S req clock).1
  | .updateTcParams req clock => (W.updateTcParams S req clock).1
  | .updateTcParent req clock => (W.updateTcParent S req clock).1
  | .createModule m =>
    if (W.tasks m).isSome then W else { W with tasks := Function.update W.tasks m (some []) }
  | .registerTask m => W.registerTask m
  | .destroyModule m clock =>
    let W := W.destroyAllTasks S m
    { W with tasks := Function.update W.tasks m none }.attachOrphans S clock
  | .resetTcs clock => { W with allTcs := fun _ => none }.attachOrphans S clock
  | .addWorker wid =>
    if wid ≥ maxWorkers ∨ W.isWorkerActive wid then W else W.launchWorker wid
  | .attachOrphans clock => W.attachOrphans S clock
  | .resumeAllWorkers => (List.range maxWorkers).foldl (World.adjustDefault S) W

end Bess.Control
