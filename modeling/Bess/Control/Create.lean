import Bess.Control.World

/-!
# Creating modules

`ModuleGraph::CreateModule` and what the `Init` functions of modules call: `RegisterTask`,
`AddMetadataAttr`, and `AcquireQueues` and `ReleaseQueues` of a port. An `Init` is the tree of its calls,
each with what follows for every value the call may return; looking up a port is a call as well.

A module object is a number that is never used again. A task is the leaf made with it; where the name
of the leaf is taken, `CreateTrafficClass` returns null and the null pointer becomes an orphan.
-/

namespace Bess.Control

open Bess.Sched

abbrev ModuleId := Nat

inductive PacketDir
  | inc | out
  deriving DecidableEq, Repr

inductive AccessMode
  | read | write | update
  deriving DecidableEq, Repr

structure Attribute where
  name : String
  size : Nat
  mode : AccessMode
  deriving DecidableEq, Repr

def enomem : Int := 12
def ebusy : Int := 16
def eexist : Int := 17
def enodev : Int := 19
def einval : Int := 22
def enospc : Int := 28

structure CommandError where
  code : Int
  errmsg : String
  deriving DecidableEq, Repr

/-- `strerror` of the codes above. -/
def strerror (code : Int) : String :=
  if code = enomem then "Cannot allocate memory"
  else if code = ebusy then "Device or resource busy"
  else if code = eexist then "File exists"
  else if code = enodev then "No such device"
  else if code = einval then "Invalid argument"
  else if code = enospc then "No space left on device"
  else "Unknown error " ++ toString code

/-- `kMaxAttrsPerModule` -/
def maxAttrsPerModule : Nat := 16

/-- `kMetadataAttrMaxSize` -/
def metadataAttrMaxSize : Nat := 32

/-- `INVALID_TASK_ID` -/
def invalidTaskId : UInt16 := 0xFFFF

/-- `nullOrphans` counts the null pointers in the orphan list, `taskModule` is the module of a leaf's
task, `registeredAttrs` has the size and the count of each attribute, `ports` the numbers of queues of
the existing ports, and `taskNames` is `ModuleGraph::tasks_`. -/
structure Switch where
  world : World
  nullOrphans : Nat
  taskModule : TcId → Option ModuleId
  registeredAttrs : String → Option (Nat × Nat)
  ports : String → Option (PacketDir → Nat)
  users : String → PacketDir → Nat → Option ModuleId
  allModules : String → Option ModuleId
  taskNames : String → Bool
  nextModule : ModuleId

/-- The module object while `Init` runs. -/
structure Module where
  id : ModuleId
  name : String
  tasks : List (Option TcId)
  attrs : List Attribute

namespace Switch

variable (sw : Switch) (m : Module)

def initial (tscHz : UInt64) (ports : String → Option (PacketDir → Nat)) : Switch where
  world := World.initial tscHz
  nullOrphans := 0
  taskModule := fun _ => none
  registeredAttrs := fun _ => none
  ports := ports
  users := fun _ _ _ => none
  allModules := fun _ => none
  taskNames := fun _ => false
  nextModule := 0

/-! ## What `Init` may call -/

def registerTask : Switch × Module × UInt16 :=
  let leafname := "!leaf_" ++ m.name ++ ":" ++ toString m.tasks.length
  let tid := UInt16.ofNat m.tasks.length
  match sw.world.createTrafficClass leafname Tc.makeLeaf with
  | (W, some c) =>
    ({ sw with
      world := W.addTcToOrphan c anyWorker
      taskModule := Function.update sw.taskModule c (some m.id) },
      { m with tasks := m.tasks ++ [some c] }, tid)
  | (_, none) =>
    ({ sw with nullOrphans := sw.nullOrphans + 1 }, { m with tasks := m.tasks ++ [none] }, tid)

def registerAttribute (name : String) (size : Nat) : Switch × Int :=
  match sw.registeredAttrs name with
  | none =>
    ({ sw with registeredAttrs := Function.update sw.registeredAttrs name (some (size, 1)) }, 0)
  | some (registered, count) =>
    if registered = size then
      ({ sw with
        registeredAttrs := Function.update sw.registeredAttrs name (some (registered, count + 1)) }, 0)
    else (sw, -einval)

def addMetadataAttr (name : String) (size : Nat) (mode : AccessMode) : Switch × Module × Int :=
  if m.attrs.length ≥ maxAttrsPerModule then (sw, m, -enospc)
  else if name = "" then (sw, m, -einval)
  else if size < 1 ∨ size > metadataAttrMaxSize then (sw, m, -einval)
  else if m.attrs.any fun a => a.name == name then (sw, m, -eexist)
  else
    match sw.registerAttribute name size with
    | (sw, ret) =>
      if ret ≠ 0 then (sw, m, ret)
      else (sw, { m with attrs := m.attrs ++ [⟨name, size, mode⟩] }, m.attrs.length)

def numQueues (port : String) (dir : PacketDir) : Nat :=
  match sw.ports port with
  | some num => num dir
  | none => 0

/-- The queues an argument stands for: a null pointer is all queues. -/
def queuesOf (port : String) (dir : PacketDir) (queues : Option (List Nat)) : List Nat :=
  queues.getD (List.range (sw.numQueues port dir))

/-- The first loop of `AcquireQueues`. -/
def checkQueues (id : ModuleId) (port : String) (dir : PacketDir) : List Nat → Int
  | [] => 0
  | qid :: qs =>
    if qid ≥ sw.numQueues port dir then -einval
    else
      match sw.users port dir qid with
      | some user => if user ≠ id then -ebusy else checkQueues id port dir qs
      | none => checkQueues id port dir qs

def setUsers (port : String) (dir : PacketDir) (user : Nat → Option ModuleId) : Switch :=
  { sw with
    users := fun p d q => if p = port ∧ d = dir then user q else sw.users p d q }

def acquireQueues (id : ModuleId) (port : String) (dir : PacketDir) (queues : Option (List Nat)) :
    Switch × Int :=
  let qs := sw.queuesOf port dir queues
  let ret := sw.checkQueues id port dir qs
  if ret ≠ 0 then (sw, ret)
  else (sw.setUsers port dir fun q => if q ∈ qs then some id else sw.users port dir q, 0)

def releaseQueues (id : ModuleId) (port : String) (dir : PacketDir) (queues : Option (List Nat)) :
    Switch :=
  let qs := sw.queuesOf port dir queues
  sw.setUsers port dir fun q =>
    if q ∈ qs ∧ q < sw.numQueues port dir ∧ sw.users port dir q = some id then none
    else sw.users port dir q

end Switch

/-! ## `Init` -/

/-- The calls of an `Init`; `done none` is `CommandSuccess`. -/
inductive Init
  | done (error : Option CommandError)
  | findPort (port : String) (k : Option (PacketDir → Nat) → Init)
  | registerTask (k : UInt16 → Init)
  | addMetadataAttr (name : String) (size : Nat) (mode : AccessMode) (k : Int → Init)
  | acquireQueues (port : String) (dir : PacketDir) (queues : Option (List Nat)) (k : Int → Init)
  | releaseQueues (port : String) (dir : PacketDir) (queues : Option (List Nat)) (k : Init)

namespace Init

def run : Init → Switch → Module → Switch × Module × Option CommandError
  | done error, sw, m => (sw, m, error)
  | findPort port k, sw, m => (k (sw.ports port)).run sw m
  | registerTask k, sw, m =>
    let out := sw.registerTask m
    (k out.2.2).run out.1 out.2.1
  | addMetadataAttr name size mode k, sw, m =>
    let out := sw.addMetadataAttr m name size mode
    (k out.2.2).run out.1 out.2.1
  | acquireQueues port dir queues k, sw, m =>
    let out := sw.acquireQueues m.id port dir queues
    (k out.2).run out.1 m
  | releaseQueues port dir queues k, sw, m => k.run (sw.releaseQueues m.id port dir queues) m

def fail (code : Int) (errmsg : String) : Init := done (some ⟨code, errmsg⟩)

/-- `CommandFailure(-ret)` -/
def failWith (ret : Int) : Init := fail (-ret) (strerror (-ret))

end Init

/-- A module class with the argument of `Init` filled in. -/
structure ModuleClass where
  isTask : Bool
  init : Init

structure Created where
  switch : Switch
  module : Option ModuleId
  error : Option CommandError

/-- `ModuleGraph::CreateModule`; where it fails it only deletes the object. -/
def Switch.createModule (sw : Switch) (cls : ModuleClass) (name : String) : Created :=
  let id := sw.nextModule
  match cls.init.run { sw with nextModule := id + 1 } ⟨id, name, [], []⟩ with
  | (sw, _, some error) => ⟨sw, none, some error⟩
  | (sw, m, none) =>
    if cls.isTask ∧ sw.taskNames name then ⟨sw, none, some ⟨enomem, strerror enomem⟩⟩
    else
      let sw := if cls.isTask then
        { sw with taskNames := Function.update sw.taskNames name true } else sw
      if (sw.allModules name).isSome then ⟨sw, none, some ⟨enomem, strerror enomem⟩⟩
      else
        ⟨{ sw with
          allModules := Function.update sw.allModules name (some id)
          world := { sw.world with
            tasks := Function.update sw.world.tasks name (some (m.tasks.filterMap fun c => c)) } },
          some id, none⟩

/-! ## The classes of the port and queue modules -/

/-- `alloc` tells whether the ring can be allocated. -/
def resizeQueue (alloc : Bool) : Init :=
  if alloc then .done none else .failWith (-enomem)

/-- `Queue::SetSize` -/
def setQueueSize (size : UInt64) (alloc : Bool) : Init :=
  if size < 4 ∨ size > 16384 then .fail einval "must be in [4, 16384]"
  else if size &&& (size - 1) ≠ 0 then .fail einval "must be a power of 2"
  else resizeQueue alloc

def queue (size : UInt64) (alloc : Bool) : ModuleClass where
  isTask := true
  init := .registerTask fun tid =>
    if tid = invalidTaskId then .fail enomem "Task creation failed"
    else if size ≠ 0 then setQueueSize size alloc
    else resizeQueue alloc

/-- `AcquireQueues` and the end of `Init`. -/
def acquireAndFinish (port : String) (dir : PacketDir) (queues : Option (List Nat)) : Init :=
  .acquireQueues port dir queues fun ret => if ret < 0 then .failWith ret else .done none

/-- The loop of `PortInc::Init` over the queues. -/
def registerEach (k : Init) : Nat → Init
  | 0 => k
  | n + 1 => .registerTask fun tid =>
    if tid = invalidTaskId then .fail enomem "Context creation failed" else registerEach k n

def portInc (port : String) : ModuleClass where
  isTask := true
  init :=
    if port = "" then .fail einval "'port' must be given as a string"
    else .findPort port fun
      | none => .fail enodev ("Port " ++ port ++ " not found")
      | some num =>
        if num .inc = 0 then .fail enodev ("Port " ++ port ++ " has no incoming queue")
        else registerEach (acquireAndFinish port .inc none) (num .inc)

def portOut (port : String) : ModuleClass where
  isTask := false
  init :=
    if port = "" then .fail einval "'port' must be given as a string"
    else .findPort port fun
      | none => .fail enodev ("Port " ++ port ++ " not found")
      | some num =>
        if num .out = 0 then .fail enodev ("Port " ++ port ++ " has no outgoing queue")
        else acquireAndFinish port .out none

/-- `qid_` is a byte. -/
def queueInc (port : String) (qid : UInt64) : ModuleClass where
  isTask := false
  init :=
    if port = "" then .fail einval "Field 'port' must be specified"
    else .findPort port fun
      | none => .fail enodev ("Port " ++ port ++ " not found")
      | some _ => .registerTask fun tid =>
        if tid = invalidTaskId then .fail enomem "Context creation failed"
        else acquireAndFinish port .inc (some [qid.toUInt8.toNat])

def queueOut (port : String) (qid : UInt64) : ModuleClass where
  isTask := false
  init :=
    if port = "" then .fail einval "Field 'port' must be specified"
    else .findPort port fun
      | none => .fail enodev ("Port " ++ port ++ " not found")
      | some _ => acquireAndFinish port .out (some [qid.toUInt8.toNat])

end Bess.Control
