import Bess.Control.ActiveWorkers
import Bess.Control.Create

/-!
# Module commands and running workers

`RunCommand` refuses a command that is not thread safe while a running worker is marked in
`active_workers_` of the module. The marks are a cache: `CheckSchedulingConstraints` recomputes them,
and so does `ConnectModules` while a worker runs, before it adds the edge. No other request does.

A `Plant` is the switch as the requests see it: the traffic classes and schedulers, the modules with
their gates, the marks, and which workers run.
-/

namespace Bess.Control

open Bess.Heap Bess.Graph Bess.Sched

def enoent : Int := 2
def enotsup : Int := 95

/-- A command of a module class. Of what `func` does to the module only the effect on
`WorkerSplit::gates_` is read by others. -/
structure Command where
  cmd : String
  mtSafe : Bool
  func : String → Option (Nat → Int) → Option (Nat → Int)

/-- A module class with what its `Init` sets up. -/
structure ModuleBuilder where
  className : String
  numIGates : Nat
  numOGates : Nat
  cmds : List Command
  propagateWorkers : Bool
  numTasks : Nat
  gates : Option (Nat → Int)

/-- `all_modules_` with the gates; a module is a number that is not used again. -/
structure ModuleSet where
  names : List (String × ModId)
  gates : Gates
  nextModule : ModId
  consistent : Consistent gates
  closed : ∀ m i og, ogate gates m i = some og →
    m ∈ names.map (·.2) ∧ og.next ∈ names.map (·.2)

namespace ModuleSet

variable (M : ModuleSet)

def empty : ModuleSet where
  names := []
  gates := .empty
  nextModule := 0
  consistent := consistent_empty
  closed _ _ _ h := by simp [ogate, gateAt, Gates.empty] at h

def find (name : String) : Option ModId := (M.names.find? fun p => p.1 == name).map (·.2)

def nameOf (m : ModId) : Option String := (M.names.find? fun p => p.2 == m).map (·.1)

def create (name : String) : ModuleSet where
  names := (name, M.nextModule) :: M.names
  gates := M.gates
  nextModule := M.nextModule + 1
  consistent := M.consistent
  closed m i og h := by
    obtain ⟨h1, h2⟩ := M.closed m i og h
    exact ⟨List.mem_cons_of_mem _ h1, List.mem_cons_of_mem _ h2⟩

/-- The gates change but lead between existing modules. -/
def setGates (G : Gates) (hc : Consistent G) (hG : ∀ m i og, ogate G m i = some og →
    m ∈ M.names.map (·.2) ∧ og.next ∈ M.names.map (·.2)) : ModuleSet :=
  { M with gates := G, consistent := hc, closed := hG }

theorem ogate_connectModules {G : Gates} {lim : Limits} {m n k : ModId} {i j x : Nat} {og : OGate}
    (h : ogate (connectModules lim G m i n j).2 k x = some og) :
    ogate G k x = some og ∨ k = m ∧ og.next = n := by
  unfold connectModules at h
  split at h
  · exact .inl h
  split at h
  · exact .inl h
  cases hact : isActiveGate (G m).ogates i with
  | true =>
    rw [show connectGate G m i n j = (-EBUSY, G) by simp [connectGate, hact]] at h
    exact .inl h
  | false =>
    rw [connectGate_ogate hact] at h
    split at h
    · rename_i hk
      cases h
      exact .inr ⟨hk.1, rfl⟩
    · exact .inl h

def connect (lim : Limits) (m : ModId) (i : Nat) (n : ModId) (j : Nat)
    (hm : m ∈ M.names.map (·.2)) (hn : n ∈ M.names.map (·.2)) : ModuleSet :=
  M.setGates (connectModules lim M.gates m i n j).2 (M.consistent.connectModules lim m i n j)
    fun k x og h => by
      rcases ogate_connectModules h with h | ⟨rfl, rfl⟩
      · exact M.closed k x og h
      · exact ⟨hm, hn⟩

def disconnect (lim : Limits) (m : ModId) (i : Nat) : ModuleSet :=
  M.setGates (disconnectModule lim M.gates m i).2 (M.consistent.disconnectModule lim m i)
    fun k x og h => M.closed k x og (by
      unfold disconnectModule at h
      split at h
      · exact h
      · rw [ogate_disconnectGate] at h
        split at h
        · cases h
        · exact h)

def destroy (m : ModId) : ModuleSet where
  names := M.names.filter fun p => p.2 != m
  gates := destroyModule M.gates m
  nextModule := M.nextModule
  consistent := (M.consistent.destroyModule_spec m).1
  closed k x og h := by
    rw [(M.consistent.destroyModule_spec m).2.2] at h
    split at h
    · cases h
    · rename_i hk
      rw [not_or] at hk
      obtain ⟨h1, h2⟩ := M.closed k x og h
      have hne : og.next ≠ m := fun he => hk.2 (by rw [h, ← he]; rfl)
      simp only [List.mem_map, List.mem_filter, bne_iff_ne, ne_eq] at h1 h2 ⊢
      obtain ⟨p, hp, rfl⟩ := h1
      obtain ⟨q, hq, hqn⟩ := h2
      exact ⟨⟨p, ⟨hp, hk.1⟩, rfl⟩, q, ⟨hq, hqn ▸ hne⟩, hqn⟩

variable {M}

theorem mem_of_find {name : String} {m : ModId} (h : M.find name = some m) :
    m ∈ M.names.map (·.2) := by
  obtain ⟨p, hp, rfl⟩ := Option.map_eq_some_iff.mp h
  exact List.mem_map_of_mem (List.mem_of_find?_eq_some hp)

end ModuleSet

/-- `running` are the workers whose status is `WORKER_RUNNING`. -/
structure Plant where
  world : World
  modules : ModuleSet
  builder : ModId → ModuleBuilder
  split : ModId → Option (Nat → Int)
  active : Active
  running : Nat → Bool

namespace Plant

def noBuilder : ModuleBuilder := ⟨"", 0, 0, [], true, 0, none⟩

def initial (tscHz : UInt64) : Plant where
  world := World.initial tscHz
  modules := .empty
  builder := fun _ => noBuilder
  split := fun _ => none
  active := ⟨fun _ _ => false, fun _ => [], false⟩
  running := fun _ => false

variable (S : StdHeap) (Z : Plant)

def limits : Limits := ⟨fun m => (Z.builder m).numOGates, fun m => (Z.builder m).numIGates⟩

def isWorkerRunning (wid : Nat) : Bool := Z.world.isWorkerActive wid && Z.running wid

def isAnyWorkerRunning : Bool := (List.range maxWorkers).any Z.isWorkerRunning

/-- The leaves among `all_tcs()`. -/
def leaves : List TcId :=
  (List.range Z.world.forest.size).filter fun c =>
    (Z.world.forest.tc c).policy.isLeaf && Z.world.allTcs (Z.world.name c) == some c

def tasksOf (m : ModId) : List TcId := ((Z.modules.nameOf m).bind Z.world.tasks).getD []

def deployment : Deployment where
  gates := Z.modules.gates
  allModules := Z.modules.names.map (·.2)
  split := Z.split
  propagateWorkers m := (Z.builder m).propagateWorkers
  tasks := Z.tasksOf
  leaves := Z.leaves
  leafRoot := Z.world.root
  workerRoot w := (Z.world.workers w).bind (·.root)
  closed := Z.modules.closed

def propagate : Option Plant :=
  (Z.deployment.propagateActiveWorker Z.active).map fun active => { Z with active }

/-! ## Commands -/

def hasRunningWorker (m : ModId) : Bool :=
  (List.range maxWorkers).any fun w => Z.active.activeWorkers m w && Z.isWorkerRunning w

def findCommand (m : ModId) (cmd : String) : Option Command :=
  (Z.builder m).cmds.find? fun c => c.cmd == cmd

def runCommand (m : ModId) (cmd arg : String) : Except CommandError Plant :=
  match Z.findCommand m cmd with
  | some c =>
    if c.mtSafe = false ∧ Z.hasRunningWorker m = true then
      .error ⟨ebusy, "There is a running worker and command '" ++ c.cmd ++ "' is not MT safe"⟩
    else .ok { Z with split := Function.update Z.split m (c.func arg (Z.split m)) }
  | none =>
    .error ⟨enotsup, "'" ++ (Z.builder m).className ++ "' does not support command '" ++ cmd ++ "'"⟩

def moduleCommand (name cmd arg : String) : Except CommandError Plant :=
  if name = "" then .error ⟨einval, "Missing module name field 'name'"⟩
  else
    match Z.modules.find name with
    | none => .error ⟨enoent, "No module '" ++ name ++ "' found"⟩
    | some m => Z.runCommand m cmd arg

/-! ## Other requests -/

def setWorld (W : World) : Plant := { Z with world := W }

def attachOrphans (clock : Nat → UInt64) : Plant := Z.setWorld (Z.world.attachOrphans S clock)

def createModule (name : String) (b : ModuleBuilder) : Plant :=
  if (Z.modules.find name).isSome then Z
  else
    let m := Z.modules.nextModule
    let W := Z.world.step S (.createModule name)
    { Z with
      world := (List.range b.numTasks).foldl (fun W _ => W.registerTask name) W
      modules := Z.modules.create name
      builder := Function.update Z.builder m b
      split := Function.update Z.split m b.gates
      active := { Z.active with
        activeWorkers := Function.update Z.active.activeWorkers m fun _ => false
        visitedTasks := Function.update Z.active.visitedTasks m [] } }

def destroyModule (name : String) (clock : Nat → UInt64) : Plant :=
  match Z.modules.find name with
  | none => Z.attachOrphans S clock
  | some m =>
    { Z with
      world := Z.world.step S (.destroyModule name clock)
      modules := Z.modules.destroy m }

def numActiveWorkers (m : ModId) : Nat :=
  (List.range maxWorkers).countP (Z.active.activeWorkers m)

/-- The workers are only paused if one is marked at either end. -/
def connectModules (m1 : String) (ogate : Nat) (m2 : String) (igate : Nat)
    (clock : Nat → UInt64) : Option Plant :=
  match h1 : Z.modules.find m1, h2 : Z.modules.find m2 with
  | some m, some n =>
    let modules := Z.modules.connect Z.limits m ogate n igate (ModuleSet.mem_of_find h1)
      (ModuleSet.mem_of_find h2)
    let connected := { Z with modules }
    if Z.isAnyWorkerRunning then
      Z.propagate.map fun Z' =>
        let connected := { connected with active := Z'.active }
        if Z'.numActiveWorkers m ≠ 0 ∨ Z'.numActiveWorkers n ≠ 0 then
          connected.attachOrphans S clock
        else connected
    else some connected
  | _, _ => some Z

def disconnectModules (name : String) (ogate : Nat) (clock : Nat → UInt64) : Plant :=
  match Z.modules.find name with
  | none => Z.attachOrphans S clock
  | some m =>
    { Z with modules := Z.modules.disconnect Z.limits m ogate }.attachOrphans S clock

def checkSchedulingConstraints (clock : Nat → UInt64) : Option Plant :=
  if Z.isAnyWorkerRunning then Z.propagate else (Z.attachOrphans S clock).propagate

def pauseWorker (wid : Nat) : Plant := { Z with running := Function.update Z.running wid false }

def pauseAll : Plant := { Z with running := fun _ => false }

def resumeWorker (wid : Nat) : Plant :=
  { Z with running := Function.update Z.running wid (Z.world.isWorkerActive wid) }

def resumeAll (clock : Nat → UInt64) : Plant :=
  let Z := if Z.isAnyWorkerRunning then Z else Z.attachOrphans S clock
  let W := Z.world.step S .resumeAllWorkers
  { Z with world := W, running := W.isWorkerActive }

inductive Request
  | createModule (name : String) (b : ModuleBuilder)
  | destroyModule (name : String) (clock : Nat → UInt64)
  | connectModules (m1 : String) (ogate : Nat) (m2 : String) (igate : Nat) (clock : Nat → UInt64)
  | disconnectModules (name : String) (ogate : Nat) (clock : Nat → UInt64)
  | addTc (req : TcRequest) (clock : Nat → UInt64)
  | updateTcParams (req : TcRequest) (clock : Nat → UInt64)
  | updateTcParent (req : TcRequest) (clock : Nat → UInt64)
  | resetTcs (clock : Nat → UInt64)
  | addWorker (wid : Nat)
  | pauseAll
  | pauseWorker (wid : Nat)
  | resumeAll (clock : Nat → UInt64)
  | resumeWorker (wid : Nat)
  | checkSchedulingConstraints (clock : Nat → UInt64)
  | moduleCommand (name cmd arg : String)

/-- A refused command changes nothing; there is no next state once memory past the end of a vector
was read. -/
def step : Request → Option Plant
  | .createModule name b => some (Z.createModule S name b)
  | .destroyModule name clock => some (Z.destroyModule S name clock)
  | .connectModules m1 ogate m2 igate clock => Z.connectModules S m1 ogate m2 igate clock
  | .disconnectModules name ogate clock => some (Z.disconnectModules S name ogate clock)
  | .addTc req clock => some (Z.setWorld (Z.world.step S (.addTc req clock)))
  | .updateTcParams req clock => some (Z.setWorld (Z.world.step S (.updateTcParams req clock)))
  | .updateTcParent req clock => some (Z.setWorld (Z.world.step S (.updateTcParent req clock)))
  | .resetTcs clock => some (Z.setWorld (Z.world.step S (.resetTcs clock)))
  | .addWorker wid => some (Z.setWorld (Z.world.step S (.addWorker wid)))
  | .pauseAll => some Z.pauseAll
  | .pauseWorker wid => some (Z.pauseWorker wid)
  | .resumeAll clock => some (Z.resumeAll S clock)
  | .resumeWorker wid => some (Z.resumeWorker wid)
  | .checkSchedulingConstraints clock => Z.checkSchedulingConstraints S clock
  | .moduleCommand name cmd arg => some ((Z.moduleCommand name cmd arg).toOption.getD Z)

def run (tscHz : UInt64) (es : List Request) : Option Plant :=
  es.foldlM (fun Z e => Z.step S e) (initial tscHz)

end Plant

/-! ## What the check is for -/

namespace Deployment

variable {D : Deployment} {w : Nat} {t : TcId} {m : ModId}

theorem Delivers.task (h : D.Delivers w t m) : ∃ m₀ ∈ D.allModules, t ∈ D.tasks m₀ := by
  obtain ⟨m₀, hm₀, -⟩ := h
  have htask := List.find?_some hm₀
  exact ⟨m₀, module_mem hm₀, of_decide_eq_true htask⟩

theorem worker_lt (h : D.worker t = some w) : w < maxWorkers :=
  List.mem_range.mp (List.mem_of_find?_eq_some h)

end Deployment

namespace Plant

variable {S : StdHeap} {Z Z' : Plant} {name cmd arg : String} {m : ModId}

/-- A running worker has a task that can deliver a packet to `m`. -/
def Reached (Z : Plant) (m : ModId) : Prop :=
  ∃ w t, Z.isWorkerRunning w = true ∧ Z.deployment.worker t = some w ∧
    Z.deployment.Delivers w t m

/-- The command exists and is not thread safe. -/
def Unsafe (Z : Plant) (name cmd : String) : Prop :=
  ∃ m c, Z.modules.find name = some m ∧ Z.findCommand m cmd = some c ∧ c.mtSafe = false

/-- The request runs a command that is not thread safe on a module that a running worker reaches. -/
def Intrudes (Z : Plant) (name cmd arg : String) : Prop :=
  (∃ Z', Z.moduleCommand name cmd arg = .ok Z') ∧
    ∃ m c, Z.modules.find name = some m ∧ Z.findCommand m cmd = some c ∧ c.mtSafe = false ∧
      Z.Reached m

/-- The leaf of every task is in `all_tcs()`; `ResetTcs` empties it. -/
def TasksListed (Z : Plant) : Prop := ∀ m, ∀ t ∈ Z.tasksOf m, t ∈ Z.leaves

/-- `ResumeAll` finds nothing to move: no orphan waits while all workers are paused, and no worker has
a default class with fewer than two children. -/
def Settled (Z : Plant) : Prop :=
  (Z.isAnyWorkerRunning = true ∨ Z.world.orphanTcs = []) ∧
    ∀ w s r d, Z.world.workers w = some s → s.root = some r → s.defaultRrClass = some d →
      2 ≤ (Z.world.forest.children d).length

/-- The command does not change the gates of a `WorkerSplit`. -/
def KeepsSplit (Z : Plant) (name cmd arg : String) : Prop :=
  ∀ m c, Z.modules.find name = some m → Z.findCommand m cmd = some c →
    c.func arg (Z.split m) = Z.split m

/-- Nobody has resumed a worker since all were paused. -/
def idleAfter (idle : Prop) : Request → Prop
  | .pauseAll => True
  | .resumeAll _ => False
  | .resumeWorker _ => False
  | _ => idle

/-- The constraints were checked while all tasks were listed, and no request after that has changed
what the check has seen. -/
def checkedAfter (Z : Plant) (checked : Prop) : Request → Prop
  | .checkSchedulingConstraints _ => Z.TasksListed
  | .pauseAll => checked
  | .pauseWorker _ => checked
  | .resumeWorker _ => checked
  | .resumeAll _ => checked ∧ Z.Settled
  | .moduleCommand name cmd arg => checked ∧ Z.KeepsSplit name cmd arg
  | _ => False

variable (S) in
/-- Every command that is not thread safe comes while all workers are paused, or after a check of the
scheduling constraints and before any change. -/
def Careful : Plant → Prop → Prop → List Request → Prop
  | _, _, _, [] => True
  | Z, idle, checked, e :: es =>
    (∀ name cmd arg, e = .moduleCommand name cmd arg → Z.Unsafe name cmd → idle ∨ checked) ∧
      ∀ Z', Z.step S e = some Z' → Careful Z' (idleAfter idle e) (Z.checkedAfter checked e) es

/-! ## Marks that are up to date -/

/-- Every worker with a task that delivers to a module is marked there. -/
def Marked (Z : Plant) : Prop :=
  ∀ m w t, Z.deployment.worker t = some w → Z.deployment.Delivers w t m →
    Z.active.activeWorkers m w = true

theorem marked_of_propagate (h : Z.propagate = some Z') (hl : Z.TasksListed) : Z'.Marked := by
  obtain ⟨σ, hσ, rfl⟩ := Option.map_eq_some_iff.mp h
  intro m w t hw hd
  -- the walk saw the same graph
  have hfresh : σ = Z.deployment.mark Z.active := by
    unfold Deployment.propagateActiveWorker at hσ
    split at hσ
    · cases hσ
    · exact (Option.some.inj hσ).symm
  obtain ⟨m₀, -, htask⟩ := hd.task
  show σ.activeWorkers m w = true
  rw [hfresh]
  exact (Deployment.mark_active Z.deployment Z.active hd.mem).mpr ⟨t, hl m₀ t htask, hw, hd⟩

theorem Marked.hasRunningWorker (h : Z.Marked) (hr : Z.Reached m) : Z.hasRunningWorker m = true := by
  obtain ⟨w, t, hrun, hw, hd⟩ := hr
  refine List.any_eq_true.mpr ⟨w, List.mem_range.mpr (Deployment.worker_lt hw), ?_⟩
  rw [h m w t hw hd, hrun]
  rfl

theorem moduleCommand_ok_iff {c : Command} (hname : name ≠ "") (hm : Z.modules.find name = some m)
    (hc : Z.findCommand m cmd = some c) (hmt : c.mtSafe = false) :
    (∃ Z', Z.moduleCommand name cmd arg = .ok Z') ↔ Z.hasRunningWorker m = false := by
  unfold moduleCommand runCommand
  simp only [if_neg hname, hm, hc, hmt, true_and]
  cases Z.hasRunningWorker m with
  | true => simp
  | false => simp

theorem Marked.not_intrudes (h : Z.Marked) : ¬ Z.Intrudes name cmd arg := by
  rintro ⟨hok, m, c, hm, hc, hmt, hreach⟩
  have hname : name ≠ "" := by
    rintro rfl
    obtain ⟨Z', hZ'⟩ := hok
    simp [moduleCommand] at hZ'
  have hbusy := h.hasRunningWorker hreach
  rw [(moduleCommand_ok_iff hname hm hc hmt).mp hok] at hbusy
  cases hbusy

/-! ## Attaching orphans keeps the tasks listed -/

/-- No class is lost or becomes another kind of class. -/
structure Keeps (W W' : World) : Prop where
  tasks : W'.tasks = W.tasks
  listed : ∀ c < W.forest.size, (W.forest.tc c).policy.isLeaf = true →
    W.allTcs (W.name c) = some c →
    c < W'.forest.size ∧ (W'.forest.tc c).policy.isLeaf = true ∧ W'.allTcs (W'.name c) = some c

section Keeps

variable {W W' W'' : World} {F : Forest}

theorem Keeps.refl (W : World) : Keeps W W := ⟨rfl, fun _ h1 h2 h3 => ⟨h1, h2, h3⟩⟩

theorem Keeps.trans (h : Keeps W W') (h' : Keeps W' W'') : Keeps W W'' :=
  ⟨h'.tasks.trans h.tasks, fun c h1 h2 h3 =>
    let ⟨k1, k2, k3⟩ := h.listed c h1 h2 h3
    h'.listed c k1 k2 k3⟩

/-- The classes stay and each keeps its kind. -/
def SameKinds (F F' : Forest) : Prop :=
  F'.size = F.size ∧ ∀ c, (F'.tc c).policy.isLeaf = (F.tc c).policy.isLeaf

theorem SameKinds.keeps (h : SameKinds W.forest F) : Keeps W { W with forest := F } :=
  ⟨rfl, fun c h1 h2 h3 => ⟨h.1 ▸ h1, (h.2 c).trans h2, h3⟩⟩

theorem sameKinds_set {c : TcId} {t : Tc} (h : t.policy.isLeaf = (F.tc c).policy.isLeaf) :
    SameKinds F (F.set c t) := by
  refine ⟨rfl, fun d => ?_⟩
  show (if d = c then t else F.tc d).policy.isLeaf = _
  split
  · rename_i hd
    rw [h, hd]
  · rfl

theorem SameKinds.trans {F' F'' : Forest} (h : SameKinds F F') (h' : SameKinds F' F'') :
    SameKinds F F'' := ⟨h'.1.trans h.1, fun c => (h'.2 c).trans (h.2 c)⟩

theorem isLeaf_unblock (S : StdHeap) (B : TcId → Bool) (tsc : UInt64) (t : Tc) :
    (t.unblock S B tsc).policy.isLeaf = t.policy.isLeaf := by
  unfold Tc.unblock
  split <;> simp_all [Policy.isLeaf]

theorem sameKinds_unblock (S : StdHeap) (tsc : UInt64) (n : Nat) (c : TcId) (F : Forest) :
    SameKinds F (F.towardsRoot (fun B t => t.unblock S B tsc) false n c) := by
  induction n generalizing c F with
  | zero => exact ⟨rfl, fun _ => rfl⟩
  | succ n ih =>
    have hset := sameKinds_set (F := F) (c := c) (isLeaf_unblock S F.blocked tsc (F.tc c))
    unfold Forest.towardsRoot
    simp only
    split
    · split
      · exact hset.trans (ih _ _)
      · exact hset
    · exact hset

theorem isLeaf_addChild {B : TcId → Bool} {child : TcId} {policy policy' : Policy} {a : ChildArg}
    {unblock : Bool} (h : policy.addChild S B child a = some (policy', unblock)) :
    policy'.isLeaf = policy.isLeaf := by
  unfold Policy.addChild at h
  split at h
  · obtain ⟨_, -, heq⟩ := Option.map_eq_some_iff.mp h
    cases heq
    rfl
  · obtain ⟨_, -, heq⟩ := Option.map_eq_some_iff.mp h
    cases heq
    rfl
  · cases h
    rfl
  · split at h
    · cases h
      rfl
    · cases h
  · cases h

theorem sameKinds_addChild {p child : TcId} {a : ChildArg} {tsc : UInt64} :
    SameKinds F ((F.addChild S p child a tsc).getD F) := by
  unfold Forest.addChild
  split
  · exact ⟨rfl, fun _ => rfl⟩
  · split
    · exact ⟨rfl, fun _ => rfl⟩
    · rename_i policy unblock hadd
      have hlink : SameKinds F ((F.setParent child (some p)).setPolicy p policy) := by
        have hchild : SameKinds F (F.setParent child (some p)) := sameKinds_set rfl
        exact hchild.trans (sameKinds_set ((isLeaf_addChild hadd).trans (hchild.2 p).symm))
      simp only [Option.getD_some]
      split
      · exact hlink.trans (sameKinds_unblock S tsc _ _ _)
      · exact hlink

theorem Keeps.createTrafficClass {name : String} {t : Tc} {c : Option TcId}
    (h : W.createTrafficClass name t = (W', c)) : Keeps W W' := by
  unfold World.createTrafficClass at h
  split at h
  · cases h
    exact .refl W
  · rename_i hfree
    cases h
    refine ⟨rfl, fun d h1 h2 h3 => ⟨Nat.lt_succ_of_lt h1, ?_, ?_⟩⟩
    · simpa [Forest.create, Forest.set, Nat.ne_of_lt h1] using h2
    · have hname : W.name d ≠ name := fun he => hfree (by rw [← he, h3]; rfl)
      simp [Nat.ne_of_lt h1, hname, h3]

theorem keeps_attachOrphan (W : World) (w : Nat) (c : TcId) (tsc tsc' : UInt64) :
    Keeps W (W.attachOrphan S w c tsc tsc') := by
  unfold World.attachOrphan
  split
  · exact .refl W
  split
  · exact ⟨rfl, fun _ h1 h2 h3 => ⟨h1, h2, h3⟩⟩
  · exact sameKinds_addChild.keeps
  · split
    · rename_i hmk
      exact .createTrafficClass hmk
    · rename_i hmk
      refine (Keeps.createTrafficClass hmk).trans ?_
      exact ⟨rfl, (sameKinds_addChild.trans sameKinds_addChild).keeps.listed⟩

theorem keeps_orphanWorker (W : World) (wid : Int) : Keeps W (W.orphanWorker wid).1 := by
  unfold World.orphanWorker World.getNextActiveWorker
  split
  · split
    · exact ⟨rfl, fun _ h1 h2 h3 => ⟨h1, h2, h3⟩⟩
    · exact ⟨rfl, fun _ h1 h2 h3 => ⟨h1, h2, h3⟩⟩
  · exact .refl W

theorem keeps_attachEach (clock : Nat → UInt64) (k : Nat) (os : List (Int × TcId)) (W : World) :
    Keeps W (W.attachEach S clock k os) := by
  induction os generalizing k W with
  | nil => exact .refl W
  | cons o os ih =>
    obtain ⟨wid, c⟩ := o
    unfold World.attachEach
    split
    · exact ih k W
    · exact (keeps_orphanWorker W wid).trans ((keeps_attachOrphan _ _ _ _ _).trans (ih _ _))

end Keeps

theorem TasksListed.attachOrphans (h : Z.TasksListed) (clock : Nat → UInt64) :
    (Z.attachOrphans S clock).TasksListed := by
  have hk : Keeps Z.world (Z.world.attachOrphans S clock) :=
    (⟨rfl, fun _ h1 h2 h3 => ⟨h1, h2, h3⟩⟩ : Keeps Z.world { Z.world with orphanTcs := [] }).trans
      (keeps_attachEach clock 1 Z.world.orphanTcs _)
  intro m t ht
  have htasks : (Z.attachOrphans S clock).tasksOf m = Z.tasksOf m :=
    congrArg (fun f => ((Z.modules.nameOf m).bind f).getD []) hk.tasks
  have hleaf := h m t (htasks ▸ ht)
  simp only [leaves, List.mem_filter, List.mem_range, Bool.and_eq_true, beq_iff_eq] at hleaf ⊢
  obtain ⟨k1, k2, k3⟩ := hk.listed t hleaf.1 hleaf.2.1 hleaf.2.2
  exact ⟨k1, k2, k3⟩

/-! ## Runs -/

theorem marked_of_check {clock : Nat → UInt64} (hl : Z.TasksListed)
    (h : Z.checkSchedulingConstraints S clock = some Z') : Z'.Marked := by
  unfold checkSchedulingConstraints at h
  split at h
  · exact marked_of_propagate h hl
  · exact marked_of_propagate h (hl.attachOrphans clock)

theorem Settled.adjustDefault (h : Z.Settled) (w : Nat) :
    Z.world.adjustDefault S w = Z.world := by
  unfold World.adjustDefault
  split
  · rfl
  · rename_i s hs
    split
    · rename_i r d hr hd
      have htwo := h.2 w s r d hs hr hd
      split
      · rename_i hnil
        rw [hnil] at htwo
        exact absurd htwo (by decide)
      · rename_i x hone
        rw [hone] at htwo
        exact absurd htwo (Nat.not_succ_le_self 1)
      · rfl
    · rfl

theorem Settled.resumeAll_eq (h : Z.Settled) (clock : Nat → UInt64) :
    Z.resumeAll S clock = { Z with running := Z.world.isWorkerActive } := by
  have hattach : (if Z.isAnyWorkerRunning then Z else Z.attachOrphans S clock) = Z := by
    split
    · rfl
    · rename_i hpaused
      have hnone := h.1.resolve_left hpaused
      simp only [attachOrphans, setWorld, World.attachOrphans, hnone, World.attachEach]
      rw [← hnone]
  have hfold : ∀ l : List Nat, l.foldl (World.adjustDefault S) Z.world = Z.world := fun l => by
    induction l with
    | nil => rfl
    | cons w l ih => rw [List.foldl_cons, h.adjustDefault, ih]
  simp only [resumeAll, World.step, hattach, hfold]

/-- What the request history says about the state. -/
structure Standing (Z : Plant) (idle checked : Prop) : Prop where
  idle : idle → ∀ w, Z.running w = false
  checked : checked → Z.Marked

theorem Standing.not_intrudes {idle checked : Prop} (h : Z.Standing idle checked)
    (hor : idle ∨ checked) : ¬ Z.Intrudes name cmd arg := by
  rcases hor with hidle | hchecked
  · rintro ⟨-, m, c, -, -, -, w, t, hrun, -, -⟩
    rw [isWorkerRunning, h.idle hidle w, Bool.and_false] at hrun
    cases hrun
  · exact (h.checked hchecked).not_intrudes

theorem running_connectModules {m1 m2 : String} {i j : Nat} {clock : Nat → UInt64}
    (h : Z.connectModules S m1 i m2 j clock = some Z') : Z'.running = Z.running := by
  unfold connectModules at h
  split at h
  · split at h
    · obtain ⟨Y, -, rfl⟩ := Option.map_eq_some_iff.mp h
      simp only
      split <;> rfl
    · cases h
      rfl
  · cases h
    rfl

theorem running_propagate (h : Z.propagate = some Z') : Z'.running = Z.running := by
  obtain ⟨σ, -, rfl⟩ := Option.map_eq_some_iff.mp h
  rfl

theorem running_check {clock : Nat → UInt64} (h : Z.checkSchedulingConstraints S clock = some Z') :
    Z'.running = Z.running := by
  unfold checkSchedulingConstraints at h
  split at h
  · exact running_propagate h
  · exact (running_propagate h).trans rfl

/-- A command changes nothing but the gates of a split. -/
theorem moduleCommand_cases (Z : Plant) (name cmd arg : String) :
    (Z.moduleCommand name cmd arg).toOption.getD Z = Z ∨ ∃ m c, Z.modules.find name = some m ∧
      Z.findCommand m cmd = some c ∧ (Z.moduleCommand name cmd arg).toOption.getD Z =
        { Z with split := Function.update Z.split m (c.func arg (Z.split m)) } := by
  unfold moduleCommand runCommand
  split
  · exact .inl rfl
  split
  · exact .inl rfl
  · rename_i m hm
    split
    · rename_i c hc
      split
      · exact .inl rfl
      · exact .inr ⟨m, c, hm, hc, rfl⟩
    · exact .inl rfl

theorem Standing.step {idle checked : Prop} (h : Z.Standing idle checked) (e : Request)
    (hstep : Z.step S e = some Z') : Z'.Standing (idleAfter idle e) (Z.checkedAfter checked e) := by
  cases e with
  | checkSchedulingConstraints clock =>
    exact ⟨fun hi w => (congrFun (running_check hstep) w).trans (h.idle hi w),
      fun hl => marked_of_check hl hstep⟩
  | connectModules m1 i m2 j clock =>
    exact ⟨fun hi w => (congrFun (running_connectModules hstep) w).trans (h.idle hi w), False.elim⟩
  | pauseAll =>
    cases hstep
    exact ⟨fun _ _ => rfl, h.checked⟩
  | pauseWorker wid =>
    cases hstep
    refine ⟨fun hi w => ?_, h.checked⟩
    by_cases hw : w = wid
    · simp [pauseWorker, hw]
    · simpa [pauseWorker, hw] using h.idle hi w
  | resumeWorker wid =>
    cases hstep
    exact ⟨False.elim, h.checked⟩
  | resumeAll clock =>
    cases hstep
    refine ⟨False.elim, fun ⟨hc, hs⟩ => ?_⟩
    rw [hs.resumeAll_eq]
    exact h.checked hc
  | moduleCommand name cmd arg =>
    cases hstep
    rcases moduleCommand_cases Z name cmd arg with heq | ⟨m, c, hm, hc, heq⟩
    · rw [heq]
      exact ⟨h.idle, fun hk => h.checked hk.1⟩
    · rw [heq]
      refine ⟨h.idle, fun ⟨hk, hsplit⟩ => ?_⟩
      rw [hsplit m c hm hc, Function.update_eq_self]
      exact h.checked hk
  | createModule name b =>
    cases hstep
    refine ⟨fun hi w => ?_, False.elim⟩
    simp only [createModule]
    split
    · exact h.idle hi w
    · exact h.idle hi w
  | destroyModule name clock =>
    cases hstep
    refine ⟨fun hi w => ?_, False.elim⟩
    simp only [destroyModule]
    split
    · exact h.idle hi w
    · exact h.idle hi w
  | disconnectModules name i clock =>
    cases hstep
    refine ⟨fun hi w => ?_, False.elim⟩
    simp only [disconnectModules]
    split
    · exact h.idle hi w
    · exact h.idle hi w
  | addTc req clock =>
    cases hstep
    exact ⟨h.idle, False.elim⟩
  | updateTcParams req clock =>
    cases hstep
    exact ⟨h.idle, False.elim⟩
  | updateTcParent req clock =>
    cases hstep
    exact ⟨h.idle, False.elim⟩
  | resetTcs clock =>
    cases hstep
    exact ⟨h.idle, False.elim⟩
  | addWorker wid =>
    cases hstep
    exact ⟨h.idle, False.elim⟩

theorem Standing.spared {idle checked : Prop} {es pre : List Request} {Y : Plant}
    (h : Z.Standing idle checked) (hcare : Careful S Z idle checked es)
    (hpre : pre ++ [.moduleCommand name cmd arg] <+: es)
    (hrun : pre.foldlM (fun Z e => Z.step S e) Z = some Y) : ¬ Y.Intrudes name cmd arg := by
  induction es generalizing Z idle checked pre with
  | nil => simp at hpre
  | cons e es ih =>
    cases pre with
    | nil =>
      obtain ⟨rest, hrest⟩ := hpre
      cases hrest
      cases hrun
      intro hin
      obtain ⟨-, m, c, hm, hc, hmt, -⟩ := id hin
      exact h.not_intrudes (hcare.1 name cmd arg rfl ⟨m, c, hm, hc, hmt⟩) hin
    | cons e' pre =>
      rw [List.cons_append, List.cons_prefix_cons] at hpre
      obtain ⟨rfl, hpre⟩ := hpre
      rw [List.foldlM_cons] at hrun
      obtain ⟨Z', hZ', hrun⟩ := Option.bind_eq_some_iff.mp hrun
      exact ih (h.step e' hZ') (hcare.2 Z' hZ') hpre hrun

/-- Along every careful sequence of requests, no command that is not thread safe runs on a module that
a running worker reaches. -/
theorem careful_commands_spare_workers (S : StdHeap) (tscHz : UInt64) (es : List Request)
    (h : Careful S (initial tscHz) True False es) (pre : List Request) (name cmd arg : String)
    (Z : Plant) (hpre : pre ++ [.moduleCommand name cmd arg] <+: es)
    (hrun : run S tscHz pre = some Z) : ¬ Z.Intrudes name cmd arg :=
  Standing.spared ⟨fun _ _ => rfl, False.elim⟩ h hpre hrun

/-! ## A queue that is resized under its worker -/

def queueBuilder : ModuleBuilder where
  className := "Queue"
  numIGates := 1
  numOGates := 1
  cmds := [⟨"set_burst", true, fun _ g => g⟩, ⟨"set_size", false, fun _ g => g⟩]
  propagateWorkers := false
  numTasks := 1
  gates := none

/-- A queue is made and the workers are resumed. -/
def startedQueue : Plant :=
  ((initial 1000000000).createModule .sorted "q" queueBuilder).resumeAll .sorted fun _ => 1

/-- The constraints are checked before the workers are resumed. -/
def checkedRequests : List Request :=
  [.createModule "q" queueBuilder, .checkSchedulingConstraints fun _ => 1, .resumeAll fun _ => 1,
    .moduleCommand "q" "set_size" ""]

def madeQueue : Plant := (initial 1000000000).createModule .sorted "q" queueBuilder

theorem tasksListed_madeQueue : madeQueue.TasksListed := by
  intro m t ht
  by_cases hm : m = 0
  · subst hm
    have htasks : madeQueue.tasksOf 0 = [0] := by decide +kernel
    rw [htasks, List.mem_singleton] at ht
    subst ht
    decide +kernel
  · have hname : madeQueue.modules.nameOf m = none := by
      have hnames : madeQueue.modules.names = [("q", 0)] := rfl
      simp [ModuleSet.nameOf, hnames, Ne.symm hm]
    simp [tasksOf, hname] at ht

theorem workers_madeQueue (w : Nat) : (madeQueue.world.attachOrphans .sorted fun _ => 1).workers w =
    if w = 0 then some ⟨some 0, none, [], 0⟩ else none := by
  by_cases hw : w = 0
  · subst hw
    rfl
  · rw [if_neg hw]
    have hother (a b : Option Scheduler) :
        Function.update (Function.update (fun _ => none) 0 a) 0 b w = none := by
      rw [Function.update_of_ne hw, Function.update_of_ne hw]
    exact hother _ _

theorem careful_checkedRequests : Careful .sorted (initial 1000000000) True False checkedRequests := by
  refine ⟨fun _ _ _ h => (by cases h), fun Z₁ h₁ => ?_⟩
  obtain rfl : madeQueue = Z₁ := Option.some.inj h₁
  refine ⟨fun _ _ _ h => (by cases h), fun Z₂ h₂ => ?_⟩
  have hwalk : (madeQueue.attachOrphans .sorted fun _ => 1).propagate = some Z₂ := h₂
  have hworld : Z₂.world = madeQueue.world.attachOrphans .sorted fun _ => 1 := by
    obtain ⟨_, -, rfl⟩ := Option.map_eq_some_iff.mp hwalk
    rfl
  refine ⟨fun _ _ _ h => (by cases h), fun Z₃ _ => ⟨fun _ _ _ _ _ => .inr ⟨tasksListed_madeQueue,
    .inr ?_, fun w s r d hw _ hd => ?_⟩, fun _ _ => trivial⟩⟩
  · rw [hworld]
    rfl
  · rw [hworld, workers_madeQueue] at hw
    split at hw
    · cases hw
      cases hd
    · cases hw

/-- Worker 0 runs the queue's task, and `set_size` is refused. -/
theorem checkedQueue_spared : ∃ Z,
    run .sorted 1000000000 (checkedRequests.take 3) = some Z ∧ Z.isWorkerRunning 0 = true ∧
      ¬ Z.Intrudes "q" "set_size" "" := by
  refine ⟨_, rfl, by decide +kernel, ?_⟩
  exact careful_commands_spare_workers .sorted 1000000000 checkedRequests careful_checkedRequests
    (checkedRequests.take 3) "q" "set_size" "" _ ⟨[], rfl⟩ rfl

/-- Worker 0 runs the queue's task, and `set_size` is not refused. -/
theorem startedQueue_intruded :
    run .sorted 1000000000 [.createModule "q" queueBuilder, .resumeAll fun _ => 1] =
        some startedQueue ∧
      startedQueue.isWorkerRunning 0 = true ∧ startedQueue.Intrudes "q" "set_size" "" := by
  have hrun : startedQueue.isWorkerRunning 0 = true := by decide +kernel
  have hfind : startedQueue.modules.find "q" = some 0 := by decide +kernel
  have hcmd : startedQueue.findCommand 0 "set_size" = some ⟨"set_size", false, fun _ g => g⟩ := rfl
  refine ⟨rfl, hrun, ?_, 0, _, hfind, hcmd, rfl, 0, 0, hrun, by decide +kernel, 0, ?_, .refl⟩
  · exact (moduleCommand_ok_iff (by decide) hfind hcmd rfl).mpr (by decide +kernel)
  · decide +kernel

end Plant

end Bess.Control
