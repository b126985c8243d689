import Bess.Graph.Destroy
import Bess.Lib.Dfs

/-!
# The task graph

`ModuleGraph` keeps, besides the gates, the data that tasks are scheduled by: the priority of each
igate, the parent tasks of each task module, and the overload counters. `UpdateTaskGraph`, which
runs when the workers resume, recomputes the first two if the graph was edited; module code signals
overload in between.

A module is an object and never created twice; its name may be used again.
-/

namespace Bess.Graph

/-- A gate, named by its module and index. -/
abbrev GateId := ModId × Nat

/-- What the class of a module fixes. -/
structure Kind where
  isTask : Bool
  numOGates : Nat
  numIGates : Nat
  deriving DecidableEq, Repr

/-- The static data of `ModuleGraph`, with the fields of the gates and modules that it manages. -/
structure Pipeline where
  gates : Gates
  kind : ModId → Kind
  /-- Every module there has been. -/
  created : List ModId
  allModules : List ModId
  tasks : List ModId
  changesMade : Bool
  /-- `IGate::priority_` -/
  priority : GateId → Nat
  parentTasks : ModId → List ModId
  childrenOverload : ModId → Int
  overload : ModId → Bool

/-- The order in which an `unordered_set` is iterated. -/
structure IterOrder where
  iter : List ModId → List ModId
  perm : ∀ l, (iter l).Perm l

def IterOrder.same : IterOrder := ⟨id, fun _ => .refl _⟩

/-- The igates behind the connected ogates, in ogate order. -/
def targets (G : Gates) (m : ModId) : List GateId :=
  (G m).ogates.filterMap fun og => og.map fun g => (g.next, g.igateIdx)

namespace Pipeline

def empty : Pipeline where
  gates := .empty
  kind := fun _ => ⟨false, 0, 0⟩
  created := []
  allModules := []
  tasks := []
  changesMade := false
  priority := fun _ => 0
  parentTasks := fun _ => []
  childrenOverload := fun _ => 0
  overload := fun _ => false

def isTask (s : Pipeline) (m : ModId) : Bool := (s.kind m).isTask

def limits (s : Pipeline) : Limits := ⟨fun m => (s.kind m).numOGates, fun m => (s.kind m).numIGates⟩

/-! ## Edits of the graph -/

def createModule (s : Pipeline) (m : ModId) (k : Kind) : Pipeline :=
  if m ∈ s.created then s
  else { s with
    kind := Function.update s.kind m k
    created := m :: s.created
    allModules := m :: s.allModules
    tasks := if k.isTask then m :: s.tasks else s.tasks
    parentTasks := Function.update s.parentTasks m []
    childrenOverload := Function.update s.childrenOverload m 0
    overload := Function.update s.overload m false }

def destroyModule (s : Pipeline) (m : ModId) : Pipeline :=
  if m ∈ s.allModules then { s with
    gates := Graph.destroyModule s.gates m
    allModules := s.allModules.erase m
    tasks := if s.isTask m then s.tasks.erase m else s.tasks
    changesMade := true }
  else s

/-- `ConnectGate` makes a new igate, whose priority is zero, if there is none. -/
def connectModules (s : Pipeline) (m : ModId) (ogateIdx : Nat) (mNext : ModId) (igateIdx : Nat) :
    Pipeline :=
  if m ∈ s.allModules ∧ mNext ∈ s.allModules then
    let r := Graph.connectModules s.limits s.gates m ogateIdx mNext igateIdx
    { s with
      gates := r.2
      changesMade := s.changesMade || r.1 != -EINVAL
      priority := if r.1 = 0 ∧ igate s.gates mNext igateIdx = none then
        Function.update s.priority (mNext, igateIdx) 0 else s.priority }
  else s

def disconnectModule (s : Pipeline) (m : ModId) (ogateIdx : Nat) : Pipeline :=
  if m ∈ s.allModules then
    let r := Graph.disconnectModule s.limits s.gates m ogateIdx
    { s with gates := r.2, changesMade := s.changesMade || r.1 != -EINVAL }
  else s

/-! ## Overload -/

-- A parent that was destroyed is still in the list until the next update. Its counter is written all
-- the same, through a pointer to memory that was freed; nothing in the model reads it again.

def signalOverload (s : Pipeline) (m : ModId) : Pipeline :=
  if m ∈ s.allModules ∧ s.overload m = false then { s with
    childrenOverload := (s.parentTasks m).foldl
      (fun c p => Function.update c p (c p + 1)) s.childrenOverload
    overload := Function.update s.overload m true }
  else s

def signalUnderload (s : Pipeline) (m : ModId) : Pipeline :=
  if m ∈ s.allModules ∧ s.overload m = true then { s with
    childrenOverload := (s.parentTasks m).foldl
      (fun c p => Function.update c p (c p - 1)) s.childrenOverload
    overload := Function.update s.overload m false }
  else s

/-! ## `UpdateTaskGraph` -/

/-- The data that `UpdateParentsAs` threads through its calls. -/
structure Parents where
  parentTasks : ModId → List ModId
  visitedModules : List ModId

/-- `UpdateParentsAs(task, …)`: a task module gets `task` as a parent and is not passed. The test that
precedes each call is made on entry. -/
def updateParentsAs (s : Pipeline) (task : ModId) : Dfs.Search ModId Parents where
  next m := if s.isTask m then [] else succs s.gates m
  seen σ m := decide (m ∈ σ.visitedModules)
  enter m σ :=
    { parentTasks := if s.isTask m then
        Function.update σ.parentTasks m (σ.parentTasks m ++ [task]) else σ.parentTasks
      visitedModules := m :: σ.visitedModules }
  seen_enter v σ u := by simp [Bool.decide_or]

def updateSingleTaskGraph (s : Pipeline) (task : ModId) (parents : ModId → List ModId) :
    ModId → List ModId :=
  ((s.updateParentsAs task).dfsAll (s.allModules.length + 1) (succs s.gates task)
    ⟨parents, [task]⟩).parentTasks

/-- The igates that an igate hands packets on to; a task module keeps them. -/
def feeds (s : Pipeline) (ig : GateId) : List GateId :=
  if s.isTask ig.1 then [] else targets s.gates ig.1

/-- The igates of all modules. -/
def igates (s : Pipeline) : List GateId :=
  s.allModules.flatMap fun m => (List.range (s.gates m).igates.length).map (m, ·)

/-- The loop of `PropagateIGatePriority` over the next igates: one that is visited already or whose
priority is large enough is skipped, the others are raised to `priority` and visited. -/
def raiseAll (visit : GateId → List GateId → Nat → (GateId → Nat) → GateId → Nat)
    (igs visited : List GateId) (priority : Nat) (p : GateId → Nat) : GateId → Nat :=
  igs.foldl (fun p ig =>
    if visited.contains ig ∨ priority ≤ p ig then p
    else visit ig (ig :: visited) (priority + 1) (Function.update p ig priority)) p

/-- `PropagateIGatePriority`, at most `n` igates deep. -/
def propagateTo (s : Pipeline) : Nat → GateId → List GateId → Nat → (GateId → Nat) → GateId → Nat
  | 0, _, _, _, p => p
  | n + 1, ig, visited, priority, p => raiseAll (s.propagateTo n) (s.feeds ig) visited priority p

def propagateIGatePriority (s : Pipeline) :
    GateId → List GateId → Nat → (GateId → Nat) → GateId → Nat :=
  s.propagateTo s.igates.length

def setIGatePriority (s : Pipeline) (task : ModId) (priority : GateId → Nat) : GateId → Nat :=
  raiseAll s.propagateIGatePriority (targets s.gates task) [] 1 priority

def cleanTaskGraph (s : Pipeline) : ModId → List ModId :=
  fun m => if m ∈ s.tasks ∧ m ∈ s.allModules then [] else s.parentTasks m

def updateTaskGraph (s : Pipeline) (ord : IterOrder) : Pipeline :=
  if s.changesMade then
    let tasks := (ord.iter s.tasks).filter (· ∈ s.allModules)
    { s with
      parentTasks := tasks.foldl (fun parents t => s.updateSingleTaskGraph t parents)
        s.cleanTaskGraph
      priority := tasks.foldl (fun priority t => s.setIGatePriority t priority) s.priority
      changesMade := false }
  else s

/-! ## Histories -/

inductive Event
  | createModule (m : ModId) (k : Kind)
  | destroyModule (m : ModId)
  | connectModules (m : ModId) (ogateIdx : Nat) (mNext : ModId) (igateIdx : Nat)
  | disconnectModule (m : ModId) (ogateIdx : Nat)
  | signalOverload (m : ModId)
  | signalUnderload (m : ModId)
  | updateTaskGraph (ord : IterOrder)

def step (s : Pipeline) : Event → Pipeline
  | .createModule m k => s.createModule m k
  | .destroyModule m => s.destroyModule m
  | .connectModules m i n j => s.connectModules m i n j
  | .disconnectModule m i => s.disconnectModule m i
  | .signalOverload m => s.signalOverload m
  | .signalUnderload m => s.signalUnderload m
  | .updateTaskGraph ord => s.updateTaskGraph ord

def run (es : List Event) : Pipeline := es.foldl step empty

theorem run_concat (es : List Event) (e : Event) : run (es ++ [e]) = (run es).step e := by
  simp [run]

end Pipeline

/-! ## Igates and ogates of a pipeline -/

variable {G : Gates} {m : ModId} {g : GateId}

namespace Pipeline

variable {s : Pipeline}

/-- What every event keeps. -/
structure Ok (s : Pipeline) : Prop where
  consistent : Consistent s.gates
  closed : ∀ m i og, ogate s.gates m i = some og → m ∈ s.allModules ∧ og.next ∈ s.allModules
  nodup : s.allModules.Nodup
  nodupTasks : s.tasks.Nodup
  created : ∀ m ∈ s.allModules, m ∈ s.created
  tasks : ∀ t, t ∈ s.tasks ↔ t ∈ s.allModules ∧ s.isTask t = true

theorem ok_empty : Ok empty where
  consistent := consistent_empty
  closed _ _ _ h := by simp [empty, ogate, gateAt, Gates.empty] at h
  nodup := List.nodup_nil
  nodupTasks := List.nodup_nil
  created _ h := h
  tasks t := by simp [empty]

theorem Ok.createModule (h : Ok s) (m : ModId) (k : Kind) : Ok (s.createModule m k) := by
  unfold Pipeline.createModule
  split
  · exact h
  rename_i hm
  have hnew : m ∉ s.allModules := fun hin => hm (h.created m hin)
  have hnewTask : m ∉ s.tasks := fun hin => hnew ((h.tasks m).mp hin).1
  refine ⟨h.consistent, fun k' x og hog => ?_, List.nodup_cons.mpr ⟨hnew, h.nodup⟩, ?_,
    fun k' hk => ?_, fun t => ?_⟩
  · obtain ⟨h1, h2⟩ := h.closed k' x og hog
    exact ⟨List.mem_cons_of_mem _ h1, List.mem_cons_of_mem _ h2⟩
  · dsimp only
    split
    · exact List.nodup_cons.mpr ⟨hnewTask, h.nodupTasks⟩
    · exact h.nodupTasks
  · rcases List.mem_cons.mp hk with rfl | hk
    · exact List.mem_cons_self
    · exact List.mem_cons_of_mem _ (h.created k' hk)
  · have hold := h.tasks t
    by_cases ht : t = m
    · subst ht
      cases hk : k.isTask with
      | true => simp [isTask, hk]
      | false => simp [isTask, hk, hnewTask]
    · cases hk : k.isTask with
      | true => simpa [isTask, ht] using hold
      | false => simpa [isTask, ht] using hold

theorem Ok.destroyModule (h : Ok s) (m : ModId) : Ok (s.destroyModule m) := by
  unfold Pipeline.destroyModule
  split
  · obtain ⟨hc, -, hO⟩ := h.consistent.destroyModule_spec m
    have hmem : ∀ t, t ∈ s.allModules.erase m ↔ t ≠ m ∧ t ∈ s.allModules := fun t =>
      h.nodup.mem_erase_iff
    refine ⟨hc, fun k x og hog => ?_, h.nodup.erase m, ?_, fun k hk => ?_, fun t => ?_⟩
    · simp only [hO] at hog
      split at hog
      · cases hog
      · rename_i hk
        obtain ⟨h1, h2⟩ := h.closed k x og hog
        rw [not_or] at hk
        refine ⟨(hmem k).mpr ⟨hk.1, h1⟩, (hmem og.next).mpr ⟨fun he => hk.2 ?_, h2⟩⟩
        rw [hog, ← he]
        rfl
    · dsimp only
      split
      · exact h.nodupTasks.erase m
      · exact h.nodupTasks
    · exact h.created k ((hmem k).mp hk).2
    · -- a module that is no task was not in the set
      have herase : t ∈ (if s.isTask m then s.tasks.erase m else s.tasks) ↔ t ≠ m ∧ t ∈ s.tasks := by
        split
        · exact h.nodupTasks.mem_erase_iff
        · rename_i hm
          refine ⟨fun ht => ⟨?_, ht⟩, And.right⟩
          rintro rfl
          exact hm ((h.tasks t).mp ht).2
      rw [herase, hmem, h.tasks t]
      simp only [isTask]
      tauto
  · exact h

theorem connectModules_cases (lim : Limits) (G : Gates) (m : ModId) (i : Nat) (n : ModId)
    (j : Nat) : Graph.connectModules lim G m i n j = (-EINVAL, G) ∨
      Graph.connectModules lim G m i n j = (-EBUSY, G) ∨
      isActiveGate (G m).ogates i = false ∧ i < lim.numOGates m ∧ j < lim.numIGates n ∧
        (Graph.connectModules lim G m i n j).1 = 0 ∧
        (Graph.connectModules lim G m i n j).2 = (connectGate G m i n j).2 := by
  unfold Graph.connectModules
  split
  · exact .inl rfl
  split
  · exact .inl rfl
  · rename_i hi hj
    cases hact : isActiveGate (G m).ogates i with
    | true => exact .inr (.inl (by simp [connectGate, hact]))
    | false =>
      refine .inr (.inr ⟨rfl, by omega, by omega, by simp [connectGate, hact], rfl⟩)

theorem Ok.connectModules (h : Ok s) (m : ModId) (i : Nat) (n : ModId) (j : Nat) :
    Ok (s.connectModules m i n j) := by
  unfold Pipeline.connectModules
  split
  · rename_i hmem
    refine ⟨h.consistent.connectModules _ m i n j, fun k x og hog => ?_, h.nodup, h.nodupTasks,
      h.created, h.tasks⟩
    rcases connectModules_cases s.limits s.gates m i n j with hr | hr | ⟨hact, -, -, -, hr⟩
    · rw [hr] at hog
      exact h.closed k x og hog
    · rw [hr] at hog
      exact h.closed k x og hog
    · simp only [hr, connectGate_ogate hact] at hog
      split at hog
      · rename_i hk
        cases hog
        rw [hk.1]
        exact hmem
      · exact h.closed k x og hog
  · exact h

theorem ogate_of_disconnectModule {lim : Limits} {k : ModId} {i x : Nat} {og : OGate}
    (h : ogate (Graph.disconnectModule lim G m i).2 k x = some og) : ogate G k x = some og := by
  unfold Graph.disconnectModule at h
  split at h
  · exact h
  · rw [ogate_disconnectGate] at h
    split at h
    · cases h
    · exact h

theorem Ok.disconnectModule (h : Ok s) (m : ModId) (i : Nat) : Ok (s.disconnectModule m i) := by
  unfold Pipeline.disconnectModule
  split
  · exact ⟨h.consistent.disconnectModule _ m i,
      fun k x og hog => h.closed k x og (ogate_of_disconnectModule hog), h.nodup, h.nodupTasks,
      h.created, h.tasks⟩
  · exact h

theorem Ok.step (h : Ok s) (e : Event) : Ok (s.step e) := by
  cases e with
  | createModule m k => exact h.createModule m k
  | destroyModule m => exact h.destroyModule m
  | connectModules m i n j => exact h.connectModules m i n j
  | disconnectModule m i => exact h.disconnectModule m i
  | signalOverload m =>
    simp only [Pipeline.step, signalOverload]
    split
    · exact ⟨h.consistent, h.closed, h.nodup, h.nodupTasks, h.created, h.tasks⟩
    · exact h
  | signalUnderload m =>
    simp only [Pipeline.step, signalUnderload]
    split
    · exact ⟨h.consistent, h.closed, h.nodup, h.nodupTasks, h.created, h.tasks⟩
    · exact h
  | updateTaskGraph ord =>
    simp only [Pipeline.step, updateTaskGraph]
    split
    · exact ⟨h.consistent, h.closed, h.nodup, h.nodupTasks, h.created, h.tasks⟩
    · exact h

theorem ok_run (es : List Event) : Ok (run es) := by
  induction es using List.reverseRecOn with
  | nil => exact ok_empty
  | append_singleton es e ih =>
    rw [run_concat]
    exact ih.step e

/-! ## Events that leave the graph alone -/

/-- `s'` has the graph of `s` and what was computed from it. -/
structure SameGraph (s s' : Pipeline) : Prop where
  gates : s'.gates = s.gates
  kind : s'.kind = s.kind
  allModules : s'.allModules = s.allModules
  tasks : s'.tasks = s.tasks
  changesMade : s'.changesMade = s.changesMade
  priority : s'.priority = s.priority
  parentTasks : s'.parentTasks = s.parentTasks

theorem SameGraph.refl (s : Pipeline) : SameGraph s s := ⟨rfl, rfl, rfl, rfl, rfl, rfl, rfl⟩

/-- Only a request that is refused leaves `changes_made_` unset. -/
theorem sameGraph_connectModules {m n : ModId} {i j : Nat}
    (h : (s.connectModules m i n j).changesMade = false) :
    SameGraph s (s.connectModules m i n j) := by
  unfold connectModules at h ⊢
  split
  · rename_i hmem
    rw [if_pos hmem] at h
    simp only [Bool.or_eq_false_iff, bne_eq_false_iff_eq] at h
    rcases connectModules_cases s.limits s.gates m i n j with hr | hr | ⟨-, -, -, hr, -⟩
    · simp only [hr]
      refine ⟨rfl, rfl, rfl, rfl, by simp [h.1], ?_, rfl⟩
      simp [show ¬ -EINVAL = 0 by decide]
    · rw [hr] at h
      exact absurd (show -EBUSY = -EINVAL from h.2) (by decide)
    · rw [hr] at h
      exact absurd h.2 (by decide)
  · exact .refl s

theorem sameGraph_disconnectModule {m : ModId} {i : Nat}
    (h : (s.disconnectModule m i).changesMade = false) : SameGraph s (s.disconnectModule m i) := by
  unfold disconnectModule at h ⊢
  split
  · rename_i hmem
    rw [if_pos hmem] at h
    simp only [Bool.or_eq_false_iff, bne_eq_false_iff_eq] at h
    unfold Graph.disconnectModule at h ⊢
    by_cases hi : i ≥ s.limits.numOGates m
    · simp only [hi, if_true]
      exact ⟨rfl, rfl, rfl, rfl, by simp [h.1], rfl, rfl⟩
    · have hret : (disconnectGate s.gates m i).1 = 0 := by
        unfold disconnectGate
        split <;> rfl
      rw [if_neg hi, hret] at h
      exact absurd h.2 (by decide)
  · exact .refl s

theorem sameGraph_signalOverload (m : ModId) : SameGraph s (s.signalOverload m) := by
  unfold signalOverload
  split
  · exact ⟨rfl, rfl, rfl, rfl, rfl, rfl, rfl⟩
  · exact .refl s

theorem sameGraph_signalUnderload (m : ModId) : SameGraph s (s.signalUnderload m) := by
  unfold signalUnderload
  split
  · exact ⟨rfl, rfl, rfl, rfl, rfl, rfl, rfl⟩
  · exact .refl s

/-- An event after which no edit is pending makes a module, updates the task graph, or leaves the
graph alone. -/
theorem step_unchanged {e : Event} (h : (s.step e).changesMade = false) :
    (∃ m k, e = .createModule m k) ∨ SameGraph s (s.step e) ∨
      ∃ ord, e = .updateTaskGraph ord ∧ s.changesMade = true := by
  cases e with
  | createModule m k => exact .inl ⟨m, k, rfl⟩
  | destroyModule m =>
    simp only [step, destroyModule] at h ⊢
    split at h
    · cases h
    · rename_i hm
      rw [if_neg hm]
      exact .inr (.inl (.refl s))
  | connectModules m i n j => exact .inr (.inl (sameGraph_connectModules h))
  | disconnectModule m i => exact .inr (.inl (sameGraph_disconnectModule h))
  | signalOverload m => exact .inr (.inl (sameGraph_signalOverload m))
  | signalUnderload m => exact .inr (.inl (sameGraph_signalUnderload m))
  | updateTaskGraph ord =>
    cases hch : s.changesMade with
    | true => exact .inr (.inr ⟨ord, rfl, rfl⟩)
    | false =>
      refine .inr (.inl ?_)
      simp only [step, updateTaskGraph, hch, Bool.false_eq_true, if_false]
      exact .refl s

/-! ## What one update visits -/

theorem Ok.mem_iter (h : Ok s) (ord : IterOrder) (t : ModId) :
    t ∈ (ord.iter s.tasks).filter (· ∈ s.allModules) ↔ t ∈ s.tasks := by
  rw [List.mem_filter, (ord.perm s.tasks).mem_iff]
  simp only [decide_eq_true_eq, and_iff_left_iff_imp]
  exact fun ht => ((h.tasks t).mp ht).1

theorem Ok.succs_eq_nil (h : Ok s) (hm : m ∉ s.allModules) : succs s.gates m = [] := by
  rw [List.eq_nil_iff_forall_not_mem]
  intro n hn
  obtain ⟨i, j, hi⟩ := mem_succs.mp hn
  exact hm (h.closed m i _ hi).1

end Pipeline

end Bess.Graph
