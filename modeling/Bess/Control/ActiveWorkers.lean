import Bess.Control.World
import Bess.Graph.Destroy
import Bess.Lib.Dfs

/-!
# Which workers reach a module

`PropagateActiveWorker` marks each module with the workers whose tasks can bring packets to it. It
walks the graph once for every task, with `AddActiveWorker` as the step: a module passes the mark on to
all its successors, a module that does not propagate workers passes on only those of its own tasks, and
a `WorkerSplit` passes it to the one ogate configured for the worker. That ogate is looked up without
a bound check.
-/

namespace Bess.Control

open Bess.Graph Bess.Sched Relation

/-- What `PropagateActiveWorker` reads: the modules with their gates and tasks, the classes of
`all_tcs()` that are leaves, and the roots of the schedulers. A task is named by its leaf. -/
structure Deployment where
  gates : Gates
  allModules : List ModId
  /-- `WorkerSplit::gates_`, of the modules of that class -/
  split : ModId → Option (Nat → Int)
  propagateWorkers : ModId → Bool
  /-- `Module::tasks_` -/
  tasks : ModId → List TcId
  leaves : List TcId
  /-- `Root()` of a leaf -/
  leafRoot : TcId → Option TcId
  /-- the root of the worker's scheduler, if there is a worker and it has one -/
  workerRoot : Nat → Option TcId
  closed : ∀ m i og, ogate gates m i = some og → m ∈ allModules ∧ og.next ∈ allModules

/-- What it writes; `overread` says that an ogate past the end of the vector was read. -/
structure Active where
  activeWorkers : ModId → Nat → Bool
  visitedTasks : ModId → List TcId
  overread : Bool

namespace Deployment

variable (D : Deployment)

/-- `Task::module_` -/
def module (t : TcId) : Option ModId := D.allModules.find? fun m => decide (t ∈ D.tasks m)

/-- `ogates()[gates_[wid]]` is read although the vector ends before. -/
def overreads (w : Nat) (m : ModId) : Bool :=
  match D.split m with
  | some gates => decide (0 ≤ gates w ∧ (D.gates m).ogates.length ≤ (gates w).toNat)
  | none => false

/-- The modules that `AddActiveWorker(wid, t)` of `m` goes on to. -/
def onward (w : Nat) (t : TcId) (m : ModId) : List ModId :=
  match D.split m with
  | some gates =>
    if gates w < 0 then [] else ((ogate D.gates m (gates w).toNat).map (·.next)).toList
  | none => if D.propagateWorkers m || decide (t ∈ D.tasks m) then succs D.gates m else []

def addActiveWorker (w : Nat) (t : TcId) : Dfs.Search ModId Active where
  next := D.onward w t
  seen σ m := decide (t ∈ σ.visitedTasks m)
  enter m σ :=
    { activeWorkers := Function.update σ.activeWorkers m
        (Function.update (σ.activeWorkers m) w true)
      visitedTasks := Function.update σ.visitedTasks m (σ.visitedTasks m ++ [t])
      overread := σ.overread || D.overreads w m }
  seen_enter m σ u := by
    by_cases h : u = m
    · simp [h]
    · simp [h]

def resetActiveWorkerSet (σ : Active) : Active where
  activeWorkers m := if m ∈ D.allModules then fun _ => false else σ.activeWorkers m
  visitedTasks m := if m ∈ D.allModules then [] else σ.visitedTasks m
  overread := false

/-- `leaf->task()->AddActiveWorker(wid)` -/
def taskAddActiveWorker (σ : Active) (p : Nat × TcId) : Active :=
  (D.addActiveWorker p.1 p.2).dfsAll (D.allModules.length + 1) (D.module p.2).toList σ

/-- The workers and leaves in the order of the two loops. -/
def assignments : List (Nat × TcId) :=
  (List.range maxWorkers).flatMap fun w =>
    if (D.workerRoot w).isSome then
      (D.leaves.filter fun t => D.leafRoot t == D.workerRoot w).map (w, ·)
    else []

/-- The marks that the walks leave, if an ogate past the end of a vector counts as null. -/
def mark (σ : Active) : Active :=
  D.assignments.foldl D.taskAddActiveWorker (D.resetActiveWorkerSet σ)

/-- Nothing can be said of the outcome once memory past the end of a vector was read. -/
def propagateActiveWorker (σ : Active) : Option Active :=
  if (D.mark σ).overread then none else some (D.mark σ)

/-! ## What the marks are for -/

/-- The worker that runs the task: the first one whose scheduler has the root of its tree, as
`WorkerId()` finds it. -/
def worker (t : TcId) : Option Nat :=
  (List.range maxWorkers).find? fun w =>
    (D.workerRoot w).isSome && D.leafRoot t == D.workerRoot w

/-- A packet that task `t` brought to `m` on worker `w` may be handed on to `n`. -/
def Hop (w : Nat) (t : TcId) (m n : ModId) : Prop :=
  match D.split m with
  | some gates => ∃ g og, gates w = Int.ofNat g ∧ ogate D.gates m g = some og ∧ og.next = n
  | none => (D.propagateWorkers m = true ∨ t ∈ D.tasks m) ∧
      ∃ i og, ogate D.gates m i = some og ∧ og.next = n

/-- Task `t` can deliver a packet to `m` on worker `w`. -/
def Delivers (w : Nat) (t : TcId) (m : ModId) : Prop :=
  ∃ m₀, D.module t = some m₀ ∧ ReflTransGen (D.Hop w t) m₀ m

end Deployment

namespace Deployment

variable {D : Deployment} {w : Nat} {t : TcId} {m n : ModId} {σ : Active}

theorem mem_onward : n ∈ D.onward w t m ↔ D.Hop w t m n := by
  unfold onward Hop
  split
  · rename_i gates _
    split
    · rename_i hneg
      simp only [List.not_mem_nil, false_iff, not_exists]
      rintro g og ⟨hg, -⟩
      rw [hg] at hneg
      exact absurd hneg (by simp)
    · rename_i hpos
      obtain ⟨g, hg⟩ := Int.eq_ofNat_of_zero_le (Int.not_lt.mp hpos)
      rw [hg]
      simp only [Int.toNat_natCast, Option.mem_toList, Option.map_eq_some_iff]
      constructor
      · rintro ⟨og, hog, hn⟩
        exact ⟨g, og, rfl, hog, hn⟩
      · rintro ⟨g', og, hg', hog, hn⟩
        obtain rfl := Int.ofNat.inj hg'
        exact ⟨og, hog, hn⟩
  · split
    · rename_i hpass
      simp only [Bool.or_eq_true, decide_eq_true_eq] at hpass
      rw [mem_succs]
      constructor
      · rintro ⟨i, j, hi⟩
        exact ⟨hpass, i, _, hi, rfl⟩
      · rintro ⟨-, i, og, hi, rfl⟩
        exact ⟨i, og.igateIdx, hi⟩
    · rename_i hstop
      simp only [Bool.or_eq_true, decide_eq_true_eq] at hstop
      simp only [List.not_mem_nil, false_iff]
      exact fun h => hstop h.1

theorem delivers_iff : D.Delivers w t m ↔
    ∃ v ∈ (D.module t).toList, (D.addActiveWorker w t).Reach v m := by
  unfold Delivers Dfs.Search.Reach
  have hrel : D.Hop w t = fun v n => n ∈ (D.addActiveWorker w t).next v := by
    funext v n
    exact propext mem_onward.symm
  simp only [hrel, Option.mem_toList]

theorem Hop.mem (h : D.Hop w t m n) : m ∈ D.allModules ∧ n ∈ D.allModules := by
  unfold Hop at h
  split at h
  · obtain ⟨g, og, -, hog, rfl⟩ := h
    exact D.closed m g og hog
  · obtain ⟨-, i, og, hog, rfl⟩ := h
    exact D.closed m i og hog

theorem module_mem (h : D.module t = some m) : m ∈ D.allModules :=
  List.mem_of_find?_eq_some h

theorem Delivers.mem (h : D.Delivers w t m) : m ∈ D.allModules := by
  obtain ⟨m₀, hm₀, hreach⟩ := h
  cases hreach with
  | refl => exact module_mem hm₀
  | tail _ hop => exact hop.mem.2

/-! ## The walk of one task -/

theorem enterAll_spec {l : List ModId} :
    (∀ u v, (((D.addActiveWorker w t).enterAll l σ).activeWorkers u v = true ↔
      σ.activeWorkers u v = true ∨ u ∈ l ∧ v = w)) ∧
    (∀ u t', (t' ∈ ((D.addActiveWorker w t).enterAll l σ).visitedTasks u ↔
      t' ∈ σ.visitedTasks u ∨ u ∈ l ∧ t' = t)) ∧
    (((D.addActiveWorker w t).enterAll l σ).overread = true ↔
      σ.overread = true ∨ ∃ u ∈ l, D.overreads w u = true) := by
  induction l generalizing σ with
  | nil => simp [Dfs.Search.enterAll]
  | cons m l ih =>
    obtain ⟨h1, h2, h3⟩ := ih (σ := (D.addActiveWorker w t).enter m σ)
    have hcons : (D.addActiveWorker w t).enterAll (m :: l) σ =
        (D.addActiveWorker w t).enterAll l ((D.addActiveWorker w t).enter m σ) := rfl
    rw [hcons]
    refine ⟨fun u v => ?_, fun u t' => ?_, ?_⟩
    · rw [h1]
      by_cases hu : u = m
      · subst hu
        by_cases hv : v = w
        · simp [addActiveWorker, hv]
        · simp [addActiveWorker, hv]
      · simp [addActiveWorker, hu]
    · rw [h2]
      by_cases hu : u = m
      · subst hu
        simp only [addActiveWorker, Function.update_self, List.mem_append, List.mem_cons,
          List.not_mem_nil, or_false, true_or, true_and]
        tauto
      · simp [addActiveWorker, hu]
    · rw [h3]
      simp only [addActiveWorker, Bool.or_eq_true, List.mem_cons, exists_eq_or_imp]
      tauto

theorem taskAddActiveWorker_fresh (hnew : ∀ u ∈ D.allModules, t ∉ σ.visitedTasks u) :
    (∀ u v, (D.taskAddActiveWorker σ (w, t)).activeWorkers u v = true ↔
      σ.activeWorkers u v = true ∨ D.Delivers w t u ∧ v = w) ∧
    (∀ u ∈ D.allModules, ∀ t', t' ∈ (D.taskAddActiveWorker σ (w, t)).visitedTasks u ↔
      t' ∈ σ.visitedTasks u ∨ D.Delivers w t u ∧ t' = t) ∧
    ((D.taskAddActiveWorker σ (w, t)).overread = true ↔
      σ.overread = true ∨ ∃ u, D.Delivers w t u ∧ D.overreads w u = true) := by
  have hnext : ∀ v, ∀ u ∈ (D.addActiveWorker w t).next v, u ∈ D.allModules := fun v u hu =>
    (mem_onward.mp hu).mem.2
  have hroots : ∀ v ∈ (D.module t).toList, v ∈ D.allModules := fun v hv =>
    module_mem (Option.mem_toList.mp hv)
  -- only a module that is gone may have seen the task, and nothing leads on from it
  have hclosed : Dfs.Search.Closed (D.addActiveWorker w t) σ := fun u hu v hv =>
    absurd (of_decide_eq_true hu) (hnew u (mem_onward.mp hv).mem.1)
  obtain ⟨l, hl, -, hiff⟩ := Dfs.Search.dfsAll_spec hnext hroots hclosed
    (Nat.lt_succ_of_le List.countP_le_length)
  have hmem : ∀ u, u ∈ l ↔ D.Delivers w t u := fun u => by
    rw [hiff, delivers_iff]
    refine ⟨And.right, fun h => ⟨?_, h⟩⟩
    exact decide_eq_false (hnew u (delivers_iff.mpr h).mem)
  obtain ⟨h1, h2, h3⟩ := enterAll_spec (D := D) (w := w) (t := t) (σ := σ) (l := l)
  unfold taskAddActiveWorker
  rw [hl]
  simp only [hmem] at h1 h2 h3
  exact ⟨h1, fun u _ => h2 u, h3⟩

theorem taskAddActiveWorker_seen (h : ∀ u, D.module t = some u → t ∈ σ.visitedTasks u) :
    D.taskAddActiveWorker σ (w, t) = σ := by
  unfold taskAddActiveWorker
  cases hm : D.module t with
  | none => rfl
  | some u =>
    have hseen : (D.addActiveWorker w t).seen σ u = true := decide_eq_true (h u hm)
    simp [Dfs.Search.dfsAll, Dfs.Search.dfs, hseen]

/-! ## All walks -/

/-- The worker that comes first with task `t`. -/
def firstWorker (ps : List (Nat × TcId)) (t : TcId) : Option Nat :=
  (ps.find? fun p => p.2 == t).map (·.1)

theorem firstWorker_concat (ps : List (Nat × TcId)) (p : Nat × TcId) (t : TcId) :
    firstWorker (ps ++ [p]) t =
      (firstWorker ps t).or (if p.2 = t then some p.1 else none) := by
  unfold firstWorker
  rw [List.find?_append]
  cases ps.find? fun p => p.2 == t with
  | some q => rfl
  | none =>
    by_cases hp : p.2 = t
    · simp [hp]
    · simp [hp]

/-- The state after the walks of `ps`, started from a clean one. -/
structure Walked (D : Deployment) (ps : List (Nat × TcId)) (σ : Active) : Prop where
  active : ∀ u ∈ D.allModules, ∀ v, σ.activeWorkers u v = true ↔
    ∃ t, firstWorker ps t = some v ∧ D.Delivers v t u
  visited : ∀ u ∈ D.allModules, ∀ t, t ∈ σ.visitedTasks u ↔
    ∃ v, firstWorker ps t = some v ∧ D.Delivers v t u
  overread : σ.overread = true ↔
    ∃ v t u, firstWorker ps t = some v ∧ D.Delivers v t u ∧ D.overreads v u = true

theorem Walked.step {ps : List (Nat × TcId)} (h : D.Walked ps σ) (p : Nat × TcId) :
    D.Walked (ps ++ [p]) (D.taskAddActiveWorker σ p) := by
  obtain ⟨w, t⟩ := p
  cases hfirst : firstWorker ps t with
  | some v =>
    have hsame : ∀ t', firstWorker (ps ++ [(w, t)]) t' = firstWorker ps t' := fun t' => by
      rw [firstWorker_concat]
      by_cases ht : t = t'
      · subst ht
        rw [hfirst]
        rfl
      · simp [ht]
    rw [taskAddActiveWorker_seen fun u hu =>
      (h.visited u (module_mem hu) t).mpr ⟨v, hfirst, u, hu, .refl⟩]
    refine ⟨?_, ?_, ?_⟩
    · simpa only [hsame] using h.active
    · simpa only [hsame] using h.visited
    · simpa only [hsame] using h.overread
  | none =>
    have hother : ∀ t' v, firstWorker (ps ++ [(w, t)]) t' = some v ↔
        firstWorker ps t' = some v ∨ t' = t ∧ v = w := fun t' v => by
      rw [firstWorker_concat]
      by_cases ht : t = t'
      · subst ht
        simp [hfirst, eq_comm]
      · simp [ht, Ne.symm ht]
    have hnew : ∀ u ∈ D.allModules, t ∉ σ.visitedTasks u := fun u hu hin => by
      obtain ⟨v, hv, -⟩ := (h.visited u hu t).mp hin
      rw [hfirst] at hv
      cases hv
    obtain ⟨h1, h2, h3⟩ := taskAddActiveWorker_fresh (w := w) hnew
    refine ⟨fun u hu v => ?_, fun u hu t' => ?_, ?_⟩
    · rw [h1, h.active u hu]
      simp only [hother]
      constructor
      · rintro (⟨t', ht', hd⟩ | ⟨hd, rfl⟩)
        · exact ⟨t', .inl ht', hd⟩
        · exact ⟨t, .inr ⟨rfl, rfl⟩, hd⟩
      · rintro ⟨t', ht' | ⟨rfl, rfl⟩, hd⟩
        · exact .inl ⟨t', ht', hd⟩
        · exact .inr ⟨hd, rfl⟩
    · rw [h2 u hu, h.visited u hu]
      simp only [hother]
      constructor
      · rintro (⟨v, hv, hd⟩ | ⟨hd, rfl⟩)
        · exact ⟨v, .inl hv, hd⟩
        · exact ⟨w, .inr ⟨rfl, rfl⟩, hd⟩
      · rintro ⟨v, hv | ⟨rfl, rfl⟩, hd⟩
        · exact .inl ⟨v, hv, hd⟩
        · exact .inr ⟨hd, rfl⟩
    · rw [h3, h.overread]
      simp only [hother]
      constructor
      · rintro (⟨v, t', u, ht', hd, ho⟩ | ⟨u, hd, ho⟩)
        · exact ⟨v, t', u, .inl ht', hd, ho⟩
        · exact ⟨w, t, u, .inr ⟨rfl, rfl⟩, hd, ho⟩
      · rintro ⟨v, t', u, ht' | ⟨rfl, rfl⟩, hd, ho⟩
        · exact .inl ⟨v, t', u, ht', hd, ho⟩
        · exact .inr ⟨u, hd, ho⟩

theorem walked_foldl (D : Deployment) (σ : Active) (ps : List (Nat × TcId)) :
    D.Walked ps (ps.foldl D.taskAddActiveWorker (D.resetActiveWorkerSet σ)) := by
  induction ps using List.reverseRecOn with
  | nil =>
    refine ⟨fun u hu v => ?_, fun u hu t => ?_, ?_⟩
    · simp [resetActiveWorkerSet, hu, firstWorker]
    · simp [resetActiveWorkerSet, hu, firstWorker]
    · simp [resetActiveWorkerSet, firstWorker]
  | append_singleton ps p ih =>
    rw [List.foldl_append]
    exact ih.step p

theorem find_row (w : Nat) (q : TcId → Bool) (l : List TcId) (t : TcId) :
    (((l.filter q).map (w, ·)).find? fun p => p.2 == t) =
      if q t = true ∧ t ∈ l then some (w, t) else none := by
  induction l with
  | nil => simp
  | cons x l ih =>
    by_cases hq : q x = true
    · rw [List.filter_cons_of_pos hq, List.map_cons]
      by_cases hx : x = t
      · simp [← hx, hq]
      · rw [List.find?_cons_of_neg (by simpa using hx), ih]
        simp [Ne.symm hx]
    · rw [List.filter_cons_of_neg hq, ih]
      by_cases hx : t = x
      · simp [hx, hq]
      · simp [hx]

theorem firstWorker_assignments (t : TcId) :
    firstWorker D.assignments t = if t ∈ D.leaves then D.worker t else none := by
  unfold firstWorker assignments worker
  generalize List.range maxWorkers = ws
  induction ws with
  | nil => simp
  | cons w ws ih =>
    rw [List.flatMap_cons, List.find?_append, List.find?_cons]
    by_cases hs : (D.workerRoot w).isSome = true
    · rw [if_pos hs, find_row]
      by_cases hr : (D.leafRoot t == D.workerRoot w) = true
      · by_cases hl : t ∈ D.leaves
        · simp [hr, hs, hl]
        · simpa [hl] using ih
      · simpa [hr] using ih
    · simpa [hs] using ih

theorem mark_active (D : Deployment) (σ : Active) (hm : m ∈ D.allModules) :
    (D.mark σ).activeWorkers m w = true ↔
      ∃ t ∈ D.leaves, D.worker t = some w ∧ D.Delivers w t m := by
  unfold mark
  rw [(walked_foldl D σ D.assignments).active m hm]
  refine exists_congr fun t => ?_
  rw [firstWorker_assignments]
  by_cases ht : t ∈ D.leaves
  · simp [ht]
  · simp [ht]

theorem mark_overread (D : Deployment) (σ : Active) :
    (D.mark σ).overread = true ↔ ∃ w t m, t ∈ D.leaves ∧ D.worker t = some w ∧
      D.Delivers w t m ∧ D.overreads w m = true := by
  unfold mark
  rw [(walked_foldl D σ D.assignments).overread]
  refine exists_congr fun v => exists_congr fun t => exists_congr fun u => ?_
  rw [firstWorker_assignments]
  by_cases ht : t ∈ D.leaves
  · simp [ht]
  · simp [ht]

/-- The tasks are seen and the configured gates exist: what an unlisted task delivers to, a listed
task of the same worker delivers to as well, and no `WorkerSplit` that a listed task delivers to has
fewer ogates than the gate index of its worker. -/
structure Visible (D : Deployment) : Prop where
  listed : ∀ w t m, D.worker t = some w → D.Delivers w t m →
    ∃ t' ∈ D.leaves, D.worker t' = some w ∧ D.Delivers w t' m
  inRange : ∀ w, ∀ t ∈ D.leaves, ∀ m, D.worker t = some w → D.Delivers w t m →
    D.overreads w m = false

/-- `PropagateActiveWorker` marks exactly the workers with a task that delivers to the module, unless
it reads past the end of an ogate vector or misses a task. -/
theorem active_workers_reach_iff (D : Deployment) (σ : Active) :
    (∃ σ', D.propagateActiveWorker σ = some σ' ∧ ∀ m ∈ D.allModules, ∀ w,
        (σ'.activeWorkers m w = true ↔ ∃ t, D.worker t = some w ∧ D.Delivers w t m)) ↔
      D.Visible := by
  unfold propagateActiveWorker
  constructor
  · rintro ⟨σ', hσ', hright⟩
    split at hσ'
    · cases hσ'
    · rename_i hover
      cases hσ'
      refine ⟨fun w t m hw hd => ?_, fun w t ht m hw hd => ?_⟩
      · exact (mark_active D σ hd.mem).mp ((hright m hd.mem w).mpr ⟨t, hw, hd⟩)
      · rw [mark_overread] at hover
        by_contra hne
        exact hover ⟨w, t, m, ht, hw, hd, by simpa using hne⟩
  · rintro ⟨hlisted, hrange⟩
    have hover : ¬ (D.mark σ).overread = true := by
      rw [mark_overread]
      rintro ⟨w, t, m, ht, hw, hd, hover⟩
      rw [hrange w t ht m hw hd] at hover
      cases hover
    refine ⟨_, if_neg hover, fun m hm w => ?_⟩
    rw [mark_active D σ hm]
    constructor
    · rintro ⟨t, -, hw, hd⟩
      exact ⟨t, hw, hd⟩
    · rintro ⟨t, hw, hd⟩
      exact hlisted w t m hw hd

/-! ## A split with one gate -/

/-- A source whose task is on worker 1 feeds a `WorkerSplit` with the default gates, of which only
the first is connected. -/
def oneGate : Deployment where
  gates := runEdits [.connect 0 0 1 0, .connect 1 0 2 0]
  allModules := [0, 1, 2]
  split m := if m = 1 then some fun w => w else none
  propagateWorkers _ := true
  tasks m := if m = 0 then [0] else []
  leaves := [0]
  leafRoot _ := some 0
  workerRoot w := if w = 1 then some 0 else none
  closed m i og h := by
    rcases ogate_foldl h with h | h
    · simp [ogate, gateAt, Gates.empty] at h
    · simp only [List.mem_cons, Edit.connect.injEq, List.not_mem_nil, or_false] at h
      rcases h with ⟨rfl, -, hn, -⟩ | ⟨rfl, -, hn, -⟩
      · rw [hn]
        decide
      · rw [hn]
        decide

/-- The walk of the source's task reads the second entry of a vector of one ogate. -/
theorem oneGate_overreads : oneGate.worker 0 = some 1 ∧ oneGate.Delivers 1 0 1 ∧
    oneGate.overreads 1 1 = true ∧
    ∀ σ, oneGate.propagateActiveWorker σ = none := by
  have hw : oneGate.worker 0 = some 1 := by decide
  have hd : oneGate.Delivers 1 0 1 := by
    refine ⟨0, by decide, .single ?_⟩
    exact mem_onward.mp (by decide)
  have ho : oneGate.overreads 1 1 = true := by decide
  refine ⟨hw, hd, ho, fun σ => if_pos ?_⟩
  exact (mark_overread oneGate σ).mpr ⟨1, 0, 1, by decide, hw, hd, ho⟩

end Deployment

end Bess.Control
