import Bess.Graph.TaskGraph

/-!
# Overload counters

A task module is throttled while its `children_overload_` is positive. The counter is raised on the
parents that an overloaded module has when it signals, and lowered on the parents it has when it
recovers. In between an update may give it other parents, and destroying it takes the signal away
with nobody told. `overloaded` is what the counter stands for; `Careful` and `Balanced` are what
keeps the two equal.
-/

namespace Bess.Graph.Pipeline

open Relation

variable {s s' : Pipeline} {m P Q : ModId}

/-! ## Parents -/

/-- The modules after `m` unless `m` is a task. -/
def passes (s : Pipeline) (m : ModId) : List ModId := if s.isTask m then [] else succs s.gates m

/-- `Q` is reached from the task module `P` without passing another task module. -/
def Downstream (s : Pipeline) (P Q : ModId) : Prop :=
  Q ≠ P ∧ ∃ v ∈ succs s.gates P, ReflTransGen (fun m n => n ∈ s.passes m) v Q

theorem enterAll_parentTasks {t : ModId} {l : List ModId} (hl : l.Nodup) (σ : Parents) (Q : ModId) :
    ((s.updateParentsAs t).enterAll l σ).parentTasks Q =
      σ.parentTasks Q ++ if s.isTask Q = true ∧ Q ∈ l then [t] else [] := by
  induction l generalizing σ with
  | nil => simp [Dfs.Search.enterAll]
  | cons v l ih =>
    obtain ⟨hv, hl⟩ := List.nodup_cons.mp hl
    have hcons : (s.updateParentsAs t).enterAll (v :: l) σ =
        (s.updateParentsAs t).enterAll l ((s.updateParentsAs t).enter v σ) := rfl
    rw [hcons, ih hl]
    by_cases hQ : Q = v
    · subst hQ
      cases hk : s.isTask Q with
      | true => simp [updateParentsAs, hk, hv]
      | false => simp [updateParentsAs, hk]
    · cases hk : s.isTask v with
      | true => simp [updateParentsAs, hk, hQ]
      | false => simp [updateParentsAs, hk, hQ]

open Classical in
theorem Ok.updateSingleTaskGraph_eq (h : Ok s) {t : ModId} (ht : t ∈ s.tasks)
    (parents : ModId → List ModId) (Q : ModId) :
    s.updateSingleTaskGraph t parents Q =
      parents Q ++ if s.isTask Q = true ∧ s.Downstream t Q then [t] else [] := by
  have hmem : ∀ v, ∀ w ∈ succs s.gates v, w ∈ s.allModules := fun v w hw => by
    obtain ⟨i, j, hi⟩ := mem_succs.mp hw
    exact (h.closed v i _ hi).2
  have hnext : ∀ v, ∀ w ∈ (s.updateParentsAs t).next v, w ∈ s.allModules := fun v w hw => by
    simp only [updateParentsAs] at hw
    split at hw
    · cases hw
    · exact hmem v w hw
  have hclosed : Dfs.Search.Closed (s.updateParentsAs t) ⟨parents, [t]⟩ := by
    intro u hu w hw
    simp only [updateParentsAs, List.mem_singleton, decide_eq_true_eq] at hu
    subst hu
    simp [updateParentsAs, ((h.tasks u).mp ht).2] at hw
  obtain ⟨l, hl, hnd, hiff⟩ := Dfs.Search.dfsAll_spec hnext (hmem t) hclosed
    (Nat.lt_succ_of_le List.countP_le_length)
  unfold updateSingleTaskGraph
  rw [hl, enterAll_parentTasks hnd]
  have hQ : Q ∈ l ↔ s.Downstream t Q := by
    rw [hiff]
    simp only [updateParentsAs, List.mem_singleton, decide_eq_false_iff_not]
    rfl
  simp only [hQ]

theorem Ok.foldl_parents (h : Ok s) {ts : List ModId} (hts : ∀ t ∈ ts, t ∈ s.tasks)
    (parents : ModId → List ModId) (Q : ModId) :
    ∃ l, ts.foldl (fun parents t => s.updateSingleTaskGraph t parents) parents Q =
        parents Q ++ l ∧ l.Sublist ts ∧
      ∀ P, P ∈ l ↔ P ∈ ts ∧ s.isTask Q = true ∧ s.Downstream P Q := by
  induction ts generalizing parents with
  | nil => exact ⟨[], by simp, List.Sublist.refl _, by simp⟩
  | cons t ts ih =>
    obtain ⟨l, hl, hsub, hiff⟩ := ih (fun t' ht' => hts t' (List.mem_cons_of_mem _ ht'))
      (s.updateSingleTaskGraph t parents)
    rw [List.foldl_cons, hl, h.updateSingleTaskGraph_eq (hts t List.mem_cons_self)]
    by_cases hd : s.isTask Q = true ∧ s.Downstream t Q
    · refine ⟨t :: l, by simp [hd], hsub.cons_cons t, fun P => ?_⟩
      rw [List.mem_cons, List.mem_cons, hiff]
      constructor
      · rintro (rfl | hP)
        · exact ⟨.inl rfl, hd⟩
        · exact ⟨.inr hP.1, hP.2⟩
      · rintro ⟨rfl | hP, hd'⟩
        · exact .inl rfl
        · exact .inr ⟨hP, hd'⟩
    · refine ⟨l, by simp [hd], hsub.cons t, fun P => ?_⟩
      rw [List.mem_cons, hiff]
      constructor
      · exact fun hP => ⟨.inr hP.1, hP.2⟩
      · rintro ⟨rfl | hP, hd'⟩
        · exact absurd hd' hd
        · exact ⟨hP, hd'⟩

/-- What holds of the parents in every history. -/
structure ParentsOk (s : Pipeline) : Prop where
  nodup : ∀ Q, (s.parentTasks Q).Nodup
  known : ∀ Q, ∀ P ∈ s.parentTasks Q, P ∈ s.created
  none : ∀ Q, s.isTask Q = false → s.parentTasks Q = []
  fresh : s.changesMade = false → ∀ Q ∈ s.allModules, ∀ P,
    P ∈ s.parentTasks Q ↔ P ∈ s.tasks ∧ s.isTask Q = true ∧ s.Downstream P Q

theorem Ok.updateTaskGraph_parents (h : Ok s) (hp : ParentsOk s) (hch : s.changesMade = true)
    (ord : IterOrder) {Q : ModId} (hQ : Q ∈ s.allModules) :
    ((s.updateTaskGraph ord).parentTasks Q).Nodup ∧
      ∀ P, P ∈ (s.updateTaskGraph ord).parentTasks Q ↔
        P ∈ s.tasks ∧ s.isTask Q = true ∧ s.Downstream P Q := by
  simp only [updateTaskGraph, hch, if_true]
  obtain ⟨l, hl, hsub, hiff⟩ := h.foldl_parents (fun t ht => (h.mem_iter ord t).mp ht)
    s.cleanTaskGraph Q
  have hclean : s.cleanTaskGraph Q = [] := by
    unfold cleanTaskGraph
    cases hk : s.isTask Q with
    | true => rw [if_pos ⟨(h.tasks Q).mpr ⟨hQ, hk⟩, hQ⟩]
    | false =>
      split
      · rfl
      · exact hp.none Q hk
  rw [hl, hclean, List.nil_append]
  refine ⟨hsub.nodup (((ord.perm s.tasks).nodup_iff.mpr h.nodupTasks).filter _), fun P => ?_⟩
  rw [hiff, h.mem_iter ord]

/-! ## The parents along a history -/

theorem SameGraph.downstream (h : SameGraph s s') : s'.Downstream = s.Downstream := by
  unfold Downstream passes isTask
  rw [h.gates, h.kind]

theorem SameGraph.parentsOk (h : SameGraph s s') (hc : s'.created = s.created) (hp : ParentsOk s) :
    ParentsOk s' := by
  refine ⟨?_, ?_, ?_, ?_⟩
  · rw [h.parentTasks]
    exact hp.nodup
  · rw [h.parentTasks, hc]
    exact hp.known
  · unfold isTask
    rw [h.parentTasks, h.kind]
    exact hp.none
  · rw [h.downstream, h.changesMade, h.allModules, h.parentTasks, h.tasks]
    unfold isTask
    rw [h.kind]
    exact hp.fresh

theorem ParentsOk.of_edit (hp : ParentsOk s) (hk : s'.kind = s.kind) (hc : s'.created = s.created)
    (hpar : s'.parentTasks = s.parentTasks) (hch : s'.changesMade = true) : ParentsOk s' := by
  refine ⟨?_, ?_, ?_, fun h => ?_⟩
  · rw [hpar]
    exact hp.nodup
  · rw [hpar, hc]
    exact hp.known
  · unfold isTask
    rw [hpar, hk]
    exact hp.none
  · rw [hch] at h
    cases h

theorem Ok.downstream_createModule (h : Ok s) {k : Kind} (hm : m ∉ s.created) (P Q : ModId) :
    (s.createModule m k).Downstream P Q ↔ s.Downstream P Q := by
  have hnil : succs s.gates m = [] := h.succs_eq_nil fun hin => hm (h.created m hin)
  have hpass : (s.createModule m k).passes = s.passes := by
    funext v
    simp only [Pipeline.createModule, if_neg hm, passes, isTask]
    by_cases hv : v = m
    · simp [hv, hnil]
    · rw [Function.update_of_ne hv]
      rfl
  have hgates : (s.createModule m k).gates = s.gates := by simp only [Pipeline.createModule, if_neg hm]
  unfold Downstream
  rw [hpass, hgates]

theorem Ok.mem_of_downstream (h : Ok s) (hd : s.Downstream P Q) :
    P ∈ s.allModules ∧ Q ∈ s.allModules := by
  have hsuccs : ∀ v w, w ∈ succs s.gates v → v ∈ s.allModules ∧ w ∈ s.allModules :=
    fun v w hw => by
      obtain ⟨i, j, hi⟩ := mem_succs.mp hw
      exact h.closed v i _ hi
  obtain ⟨-, v, hv, hreach⟩ := hd
  refine ⟨(hsuccs P v hv).1, ?_⟩
  induction hreach with
  | refl => exact (hsuccs P v hv).2
  | @tail u w _ hw _ =>
    unfold passes at hw
    split at hw
    · cases hw
    · exact (hsuccs u w hw).2

theorem Ok.parentsOk_createModule (h : Ok s) (hp : ParentsOk s) (m : ModId) (k : Kind) :
    ParentsOk (s.createModule m k) := by
  by_cases hm : m ∈ s.created
  · simpa only [Pipeline.createModule, if_pos hm] using hp
  have hnew : m ∉ s.allModules := fun hin => hm (h.created m hin)
  have hd := fun P Q => h.downstream_createModule (k := k) hm P Q
  have hpar : (s.createModule m k).parentTasks = Function.update s.parentTasks m [] := by
    simp only [Pipeline.createModule, if_neg hm]
  have hother : ∀ Q, Q ≠ m → (s.createModule m k).isTask Q = s.isTask Q := fun Q hQ => by
    simp only [Pipeline.createModule, if_neg hm, isTask, Function.update_of_ne hQ]
  refine ⟨fun Q => ?_, fun Q P hP => ?_, fun Q hQ => ?_, fun hch Q hQ P => ?_⟩
  · rw [hpar]
    by_cases hQ : Q = m
    · simp [hQ]
    · simpa [hQ] using hp.nodup Q
  · rw [hpar] at hP
    simp only [Pipeline.createModule, if_neg hm]
    by_cases he : Q = m
    · simp [he] at hP
    · rw [Function.update_of_ne he] at hP
      exact List.mem_cons_of_mem _ (hp.known Q P hP)
  · rw [hpar]
    by_cases he : Q = m
    · simp [he]
    · rw [Function.update_of_ne he]
      exact hp.none Q ((hother Q he).symm.trans hQ)
  · rw [hpar, hd]
    by_cases he : Q = m
    · subst he
      simp only [Function.update_self, List.not_mem_nil, false_iff]
      exact fun hc => hnew (h.mem_of_downstream hc.2.2).2
    · have hch' : s.changesMade = false := by
        simpa only [Pipeline.createModule, if_neg hm] using hch
      have hQ' : Q ∈ s.allModules := by
        simp only [Pipeline.createModule, if_neg hm, List.mem_cons] at hQ
        exact hQ.resolve_left he
      rw [Function.update_of_ne he, hp.fresh hch' Q hQ', hother Q he]
      -- the new module is no parent: nothing leads out of it
      have htask : s.Downstream P Q → (P ∈ (s.createModule m k).tasks ↔ P ∈ s.tasks) := fun hdown => by
        have hne : P ≠ m := fun hc => hnew (hc ▸ (h.mem_of_downstream hdown).1)
        simp only [Pipeline.createModule, if_neg hm]
        split
        · simp [hne]
        · rfl
      constructor
      · rintro ⟨h1, h2, h3⟩
        exact ⟨(htask h3).mpr h1, h2, h3⟩
      · rintro ⟨h1, h2, h3⟩
        exact ⟨(htask h3).mp h1, h2, h3⟩

theorem Ok.parentsOk_updateTaskGraph (h : Ok s) (hp : ParentsOk s) (hch : s.changesMade = true)
    (ord : IterOrder) : ParentsOk (s.updateTaskGraph ord) := by
  have hlive := fun {Q} => h.updateTaskGraph_parents hp hch ord (Q := Q)
  -- a destroyed module is not reached any more
  have hdead : ∀ Q, Q ∉ s.allModules → (s.updateTaskGraph ord).parentTasks Q = s.parentTasks Q :=
    fun Q hQ => by
      simp only [updateTaskGraph, hch, if_true]
      obtain ⟨l, hl, -, hiff⟩ := h.foldl_parents (fun t ht => (h.mem_iter ord t).mp ht)
        s.cleanTaskGraph Q
      have hnil : l = [] := List.eq_nil_iff_forall_not_mem.mpr fun P hP =>
        hQ (h.mem_of_downstream ((hiff P).mp hP).2.2).2
      rw [hl, hnil, List.append_nil, cleanTaskGraph, if_neg fun hc => hQ hc.2]
  have hsame : (s.updateTaskGraph ord).kind = s.kind ∧ (s.updateTaskGraph ord).created = s.created ∧
      (s.updateTaskGraph ord).tasks = s.tasks ∧ (s.updateTaskGraph ord).gates = s.gates ∧
      (s.updateTaskGraph ord).allModules = s.allModules := by
    simp only [updateTaskGraph, hch, if_true]
    trivial
  obtain ⟨hk, hc, ht, hg, ha⟩ := hsame
  refine ⟨fun Q => ?_, fun Q P hP => ?_, fun Q hQ => ?_, fun _ Q hQ P => ?_⟩
  · by_cases hQ : Q ∈ s.allModules
    · exact (hlive hQ).1
    · rw [hdead Q hQ]
      exact hp.nodup Q
  · rw [hc]
    by_cases hQ : Q ∈ s.allModules
    · exact h.created P ((h.tasks P).mp (((hlive hQ).2 P).mp hP).1).1
    · rw [hdead Q hQ] at hP
      exact hp.known Q P hP
  · unfold isTask at hQ
    rw [hk] at hQ
    by_cases hin : Q ∈ s.allModules
    · refine List.eq_nil_iff_forall_not_mem.mpr fun P hP => ?_
      have := (((hlive hin).2 P).mp hP).2.1
      rw [isTask, hQ] at this
      cases this
    · rw [hdead Q hin]
      exact hp.none Q hQ
  · rw [ha] at hQ
    have hd : (s.updateTaskGraph ord).Downstream P Q ↔ s.Downstream P Q := by
      unfold Downstream passes isTask
      rw [hg, hk]
    rw [(hlive hQ).2 P, ht, hd]
    unfold isTask
    rw [hk]

theorem created_step {e : Event} (he : ∀ m k, e ≠ .createModule m k) :
    (s.step e).created = s.created := by
  cases e with
  | createModule m k => exact absurd rfl (he m k)
  | destroyModule m => simp only [step, destroyModule]; split <;> rfl
  | connectModules m i n j => simp only [step, connectModules]; split <;> rfl
  | disconnectModule m i => simp only [step, disconnectModule]; split <;> rfl
  | signalOverload m => simp only [step, signalOverload]; split <;> rfl
  | signalUnderload m => simp only [step, signalUnderload]; split <;> rfl
  | updateTaskGraph ord => simp only [step, updateTaskGraph]; split <;> rfl

theorem parentsOk_step (h : Ok s) (hp : ParentsOk s) (e : Event) : ParentsOk (s.step e) := by
  by_cases hcr : ∃ m k, e = .createModule m k
  · obtain ⟨m, k, rfl⟩ := hcr
    exact h.parentsOk_createModule hp m k
  have hcreated := created_step (s := s) (e := e) fun m k he => hcr ⟨m, k, he⟩
  cases hch : (s.step e).changesMade with
  | false =>
    rcases step_unchanged hch with hnew | hsame | ⟨ord, rfl, hpending⟩
    · exact absurd hnew hcr
    · exact hsame.parentsOk hcreated hp
    · exact h.parentsOk_updateTaskGraph hp hpending ord
  | true =>
    cases e with
    | createModule m k => exact absurd ⟨m, k, rfl⟩ hcr
    | destroyModule m =>
      refine hp.of_edit ?_ hcreated ?_ hch <;> (simp only [step, destroyModule]; split <;> rfl)
    | connectModules m i n j =>
      refine hp.of_edit ?_ hcreated ?_ hch <;> (simp only [step, connectModules]; split <;> rfl)
    | disconnectModule m i =>
      refine hp.of_edit ?_ hcreated ?_ hch <;> (simp only [step, disconnectModule]; split <;> rfl)
    | signalOverload m => exact (sameGraph_signalOverload m).parentsOk hcreated hp
    | signalUnderload m => exact (sameGraph_signalUnderload m).parentsOk hcreated hp
    | updateTaskGraph ord =>
      simp only [step, updateTaskGraph] at hch
      split at hch
      · cases hch
      · rename_i hno
        exact absurd hch hno

theorem parentsOk_run (es : List Event) : ParentsOk (run es) := by
  induction es using List.reverseRecOn with
  | nil =>
    exact ⟨fun _ => List.nodup_nil, fun _ _ hP => absurd hP List.not_mem_nil, fun _ _ => rfl,
      fun _ _ hQ => absurd hQ List.not_mem_nil⟩
  | append_singleton es e ih =>
    rw [run_concat]
    exact parentsOk_step (ok_run es) ih e

/-! ## The parents after an update -/

/-- The modules `via` lead from `P` to `M`. -/
def Leads (s : Pipeline) (P : ModId) (via : List ModId) (M : ModId) : Prop :=
  List.IsChain (fun m n => n ∈ succs s.gates m) (P :: (via ++ [M]))

/-- A walk that stops at task modules is a path through modules that are not tasks. -/
theorem passes_iff_leads {v : ModId} :
    ReflTransGen (fun m n => n ∈ s.passes m) v Q ↔
      v = Q ∨ ∃ via, s.Leads v via Q ∧ s.isTask v = false ∧ ∀ m ∈ via, s.isTask m = false := by
  constructor
  · intro h
    induction h using ReflTransGen.head_induction_on with
    | refl => exact .inl rfl
    | @head v w hw _ ih =>
      have hv : s.isTask v = false := by
        cases hk : s.isTask v with
        | false => rfl
        | true => simp [passes, hk] at hw
      have hsucc : w ∈ succs s.gates v := by simpa [passes, hv] using hw
      rcases ih with rfl | ⟨via, hlead, hwt, hvia⟩
      · exact .inr ⟨[], by simp [Leads, hsucc], hv, by simp⟩
      · refine .inr ⟨w :: via, ?_, hv, List.forall_mem_cons.mpr ⟨hwt, hvia⟩⟩
        exact List.isChain_cons_cons.mpr ⟨hsucc, hlead⟩
  · rintro (rfl | ⟨via, hlead, hv, hvia⟩)
    · exact .refl
    · induction via generalizing v with
      | nil =>
        have hsucc := (List.isChain_cons_cons.mp hlead).1
        exact .single (by simpa [passes, hv] using hsucc)
      | cons w via ih =>
        obtain ⟨hsucc, hlead⟩ := List.isChain_cons_cons.mp hlead
        obtain ⟨hw, hvia⟩ := List.forall_mem_cons.mp hvia
        exact .head (by simpa [passes, hv] using hsucc) (ih hlead hw hvia)

theorem downstream_iff_leads :
    s.Downstream P Q ↔ Q ≠ P ∧ ∃ via, s.Leads P via Q ∧ ∀ m ∈ via, s.isTask m = false := by
  refine and_congr_right fun _ => ?_
  constructor
  · rintro ⟨v, hv, hwalk⟩
    rcases passes_iff_leads.mp hwalk with rfl | ⟨via, hlead, hvt, hvia⟩
    · exact ⟨[], by simp [Leads, hv], by simp⟩
    · exact ⟨v :: via, List.isChain_cons_cons.mpr ⟨hv, hlead⟩, List.forall_mem_cons.mpr ⟨hvt, hvia⟩⟩
  · rintro ⟨via, hlead, hvia⟩
    cases via with
    | nil => exact ⟨Q, (List.isChain_cons_cons.mp hlead).1, .refl⟩
    | cons v via =>
      obtain ⟨hv, hlead⟩ := List.isChain_cons_cons.mp hlead
      obtain ⟨hvt, hvia⟩ := List.forall_mem_cons.mp hvia
      exact ⟨v, hv, passes_iff_leads.mpr (.inr ⟨via, hlead, hvt, hvia⟩)⟩

/-- After `UpdateTaskGraph`, in every history, the parents of a task module are the other task modules
with a path to it that passes no task module, each once. -/
theorem update_lists_parents (es : List Event) (ord : IterOrder) (s : Pipeline)
    (hs : s = (run es).updateTaskGraph ord) (M : ModId) (hM : M ∈ s.tasks) :
    (s.parentTasks M).Nodup ∧ ∀ P, P ∈ s.parentTasks M ↔
      P ∈ s.tasks ∧ P ≠ M ∧ ∃ via, s.Leads P via M ∧ ∀ m ∈ via, s.isTask m = false := by
  subst hs
  have hrun : (run es).updateTaskGraph ord = run (es ++ [.updateTaskGraph ord]) :=
    (run_concat es (.updateTaskGraph ord)).symm
  have hch : ((run es).updateTaskGraph ord).changesMade = false := by
    unfold updateTaskGraph
    split
    · rfl
    · rename_i hno
      exact eq_false_of_ne_true hno
  rw [hrun] at hM hch ⊢
  have hok := ok_run (es ++ [.updateTaskGraph ord])
  have hp := parentsOk_run (es ++ [.updateTaskGraph ord])
  obtain ⟨hin, htask⟩ := (hok.tasks M).mp hM
  refine ⟨hp.nodup M, fun P => ?_⟩
  rw [hp.fresh hch M hin P, downstream_iff_leads]
  constructor
  · rintro ⟨hP, -, hne, hvia⟩
    exact ⟨hP, Ne.symm hne, hvia⟩
  · rintro ⟨hP, hne, hvia⟩
    exact ⟨hP, htask, Ne.symm hne, hvia⟩

/-- Two sources and a queue on a cycle through a module that is not a task. -/
def loopedQueue : List Event :=
  [.createModule 0 ⟨true, 1, 0⟩, .createModule 1 ⟨true, 1, 0⟩, .createModule 2 ⟨false, 1, 2⟩,
    .createModule 3 ⟨true, 1, 1⟩, .connectModules 0 0 2 0, .connectModules 1 0 2 1,
    .connectModules 2 0 3 0, .connectModules 3 0 2 0]

theorem loopedQueue_parents :
    ((run loopedQueue).updateTaskGraph .same).parentTasks 3 = [1, 0] ∧
      ∀ P, P ∈ ((run loopedQueue).updateTaskGraph .same).parentTasks 3 ↔
        P ∈ ((run loopedQueue).updateTaskGraph .same).tasks ∧ P ≠ 3 ∧
          ∃ via, ((run loopedQueue).updateTaskGraph .same).Leads P via 3 ∧
            ∀ m ∈ via, ((run loopedQueue).updateTaskGraph .same).isTask m = false :=
  ⟨by decide, (update_lists_parents loopedQueue .same _ rfl 3 (by decide)).2⟩

/-! ## What the counter stands for -/

/-- The overloaded modules that have `P` as a parent. -/
def overloaded (s : Pipeline) (P : ModId) : Nat :=
  s.allModules.countP fun Q => s.overload Q && decide (P ∈ s.parentTasks Q)

/-- The counters of the task modules are right. -/
def Counted (s : Pipeline) : Prop := ∀ P ∈ s.tasks, s.childrenOverload P = s.overloaded P

/-- The counters are right, and no task is throttled without a cause. -/
structure Balanced (s : Pipeline) : Prop where
  counted : Counted s
  throttled : s.changesMade = false → ∀ P ∈ s.tasks, 0 < s.childrenOverload P →
    ∃ Q ∈ s.allModules, s.overload Q = true ∧ s.Downstream P Q

theorem ParentsOk.balanced_iff (hp : ParentsOk s) :
    Balanced s ↔ Counted s := by
  refine ⟨Balanced.counted, fun h => ⟨h, fun hch P hP hpos => ?_⟩⟩
  rw [h P hP] at hpos
  obtain ⟨Q, hQ, hcond⟩ := List.countP_pos_iff.mp (Int.natCast_pos.mp hpos)
  simp only [Bool.and_eq_true, decide_eq_true_eq] at hcond
  exact ⟨Q, hQ, hcond.1, ((hp.fresh hch Q hQ P).mp hcond.2).2.2⟩

section Counting

variable {l : List ModId} {p q : ModId → Bool}

theorem countP_of_one (hl : l.Nodup) (hm : m ∈ l) (h : ∀ x, x ≠ m → q x = p x) :
    l.countP q + (p m).toNat = l.countP p + (q m).toNat := by
  have hperm := List.perm_cons_erase hm
  have herase : (l.erase m).countP q = (l.erase m).countP p :=
    List.countP_congr fun x hx => by rw [h x (hl.mem_erase_iff.mp hx).1]
  rw [hperm.countP_eq p, hperm.countP_eq q, List.countP_cons, List.countP_cons, herase]
  cases p m <;> cases q m <;> simp

theorem countP_exchange (o : ModId → Bool) (l : List ModId) :
    (l.countP fun x => o x && q x) + (l.countP fun x => o x && (p x && !q x)) =
      (l.countP fun x => o x && p x) + l.countP fun x => o x && (!p x && q x) := by
  induction l with
  | nil => rfl
  | cons x l ih =>
    simp only [List.countP_cons]
    cases o x <;> cases p x <;> cases q x <;> simp <;> omega

theorem foldl_update_eq (f : Int → Int) (hl : l.Nodup) (c : ModId → Int) (P : ModId) :
    l.foldl (fun c p => Function.update c p (f (c p))) c P =
      if P ∈ l then f (c P) else c P := by
  induction l generalizing c with
  | nil => rfl
  | cons v l ih =>
    obtain ⟨hv, hl⟩ := List.nodup_cons.mp hl
    rw [List.foldl_cons, ih hl]
    by_cases hP : P = v
    · subst hP
      simp [hv]
    · simp [hP]

end Counting

/-! ## Signals -/

/-- A signal of `m` moves the counters of its parents as far as its mark moves. -/
theorem ParentsOk.count_signal (h : Ok s) (hp : ParentsOk s) {m : ModId} (hm : m ∈ s.allModules)
    (P : ModId) (b : Bool) {f : Int → Int} (hf : ∀ x, f x = x + b.toNat - (s.overload m).toNat) :
    (s.parentTasks m).foldl (fun c p => Function.update c p (f (c p))) s.childrenOverload P -
        (s.allModules.countP fun Q =>
          Function.update s.overload m b Q && decide (P ∈ s.parentTasks Q) : Nat) =
      s.childrenOverload P - s.overloaded P := by
  have hcount := countP_of_one (q := fun Q => Function.update s.overload m b Q &&
      decide (P ∈ s.parentTasks Q)) (p := fun Q => s.overload Q && decide (P ∈ s.parentTasks Q))
    h.nodup hm fun x hx => by rw [Function.update_of_ne hx]
  rw [foldl_update_eq f (hp.nodup m), hf, overloaded]
  by_cases hP : P ∈ s.parentTasks m
  · simp only [hP, decide_true, Bool.and_true, Function.update_self, if_true] at hcount ⊢
    omega
  · simp only [hP, decide_false, Bool.and_false, Bool.toNat_false, if_false] at hcount ⊢
    omega

theorem ParentsOk.count_signalOverload (h : Ok s) (hp : ParentsOk s) (m P : ModId) :
    (s.signalOverload m).childrenOverload P - (s.signalOverload m).overloaded P =
      s.childrenOverload P - s.overloaded P := by
  unfold signalOverload
  split
  · rename_i hm
    exact hp.count_signal h hm.1 P true (f := (· + 1)) fun x => by simp [hm.2]
  · rfl

theorem ParentsOk.count_signalUnderload (h : Ok s) (hp : ParentsOk s) (m P : ModId) :
    (s.signalUnderload m).childrenOverload P - (s.signalUnderload m).overloaded P =
      s.childrenOverload P - s.overloaded P := by
  unfold signalUnderload
  split
  · rename_i hm
    exact hp.count_signal h hm.1 P false (f := (· - 1)) fun x => by simp [hm.2]
  · rfl

/-! ## What a step must not do -/

open Classical in
/-- The overloaded modules that an update would take from `P`. -/
noncomputable def lost (s : Pipeline) (P : ModId) : Nat :=
  s.allModules.countP fun Q => s.overload Q &&
    (decide (P ∈ s.parentTasks Q) && !decide (s.isTask Q = true ∧ s.Downstream P Q))

open Classical in
/-- The overloaded modules that an update would give to `P`. -/
noncomputable def gained (s : Pipeline) (P : ModId) : Nat :=
  s.allModules.countP fun Q => s.overload Q &&
    (!decide (P ∈ s.parentTasks Q) && decide (s.isTask Q = true ∧ s.Downstream P Q))

/-- The signal is counted on a parent that was destroyed since the last update, which is a write to
memory that was freed. -/
def Dangles (s : Pipeline) : Event → Prop
  | .signalOverload m => m ∈ s.allModules ∧ s.overload m = false ∧
      ∃ P ∈ s.parentTasks m, P ∉ s.allModules
  | .signalUnderload m => m ∈ s.allModules ∧ s.overload m = true ∧
      ∃ P ∈ s.parentTasks m, P ∉ s.allModules
  | _ => False

/-- No overloaded module with a parent that stays is destroyed, the parents of a module whose mark
changes are there, and an update gives each task as many overloaded modules as it takes. -/
def Careful (s : Pipeline) : Event → Prop
  | .destroyModule m => m ∈ s.allModules → s.overload m = true →
      ∀ P ∈ s.tasks, P ≠ m → P ∉ s.parentTasks m
  | .signalOverload m => m ∈ s.allModules → s.overload m = false →
      ∀ P ∈ s.parentTasks m, P ∈ s.allModules
  | .signalUnderload m => m ∈ s.allModules → s.overload m = true →
      ∀ P ∈ s.parentTasks m, P ∈ s.allModules
  | .updateTaskGraph _ => s.changesMade = true → ∀ P ∈ s.tasks, s.gained P = s.lost P
  | _ => True

theorem Ok.tasks_destroyModule (h : Ok s) (hm : m ∈ s.allModules) (P : ModId) :
    P ∈ (s.destroyModule m).tasks ↔ P ≠ m ∧ P ∈ s.tasks := by
  rw [(h.destroyModule m).tasks P, h.tasks P]
  simp only [Pipeline.destroyModule, if_pos hm, isTask, h.nodup.mem_erase_iff]
  tauto

theorem overloaded_destroyModule (hm : m ∈ s.allModules) (P : ModId) :
    s.overloaded P = (s.destroyModule m).overloaded P +
      if s.overload m = true ∧ P ∈ s.parentTasks m then 1 else 0 := by
  simp only [destroyModule, if_pos hm, overloaded]
  rw [(List.perm_cons_erase hm).countP_eq, List.countP_cons]
  simp

theorem Ok.overloaded_updateTaskGraph (h : Ok s) (hp : ParentsOk s) (hch : s.changesMade = true)
    (ord : IterOrder) {P : ModId} (hP : P ∈ s.tasks) :
    (s.updateTaskGraph ord).overloaded P + s.lost P = s.overloaded P + s.gained P := by
  classical
  have hnew : (s.updateTaskGraph ord).overloaded P = s.allModules.countP fun Q =>
      s.overload Q && decide (s.isTask Q = true ∧ s.Downstream P Q) := by
    have hsame : (s.updateTaskGraph ord).allModules = s.allModules ∧
        (s.updateTaskGraph ord).overload = s.overload := by
      simp only [updateTaskGraph, hch, if_true]
      trivial
    unfold overloaded
    rw [hsame.1, hsame.2]
    refine List.countP_congr fun Q hQ => ?_
    simp only [Bool.and_eq_true, decide_eq_true_eq, (h.updateTaskGraph_parents hp hch ord hQ).2 P, hP,
      true_and]
  rw [hnew]
  exact countP_exchange s.overload s.allModules

/-! ## Steps -/

theorem counted_createModule (h : Ok s) (hp : ParentsOk s) (hc : Counted s) (m : ModId) (k : Kind) :
    Counted (s.createModule m k) := by
  intro P hP
  by_cases hm : m ∈ s.created
  · simp only [createModule, if_pos hm] at hP ⊢
    exact hc P hP
  have hnew : m ∉ s.allModules := fun hin => hm (h.created m hin)
  simp only [createModule, if_neg hm, overloaded, List.countP_cons, Function.update_self,
    Bool.false_and, Bool.false_eq_true, if_false, Nat.add_zero] at hP ⊢
  have hold : (s.allModules.countP fun Q => Function.update s.overload m false Q &&
      decide (P ∈ Function.update s.parentTasks m [] Q)) = s.overloaded P :=
    List.countP_congr fun Q hQ => by
      have hne : Q ≠ m := fun he => hnew (he ▸ hQ)
      rw [Function.update_of_ne hne, Function.update_of_ne hne]
  rw [hold]
  by_cases he : P = m
  · subst he
    have hzero : s.overloaded P = 0 := List.countP_eq_zero.mpr fun Q hQ hov => by
      simp only [Bool.and_eq_true, decide_eq_true_eq] at hov
      exact hm (hp.known Q P hov.2)
    rw [hzero, Function.update_self]
    rfl
  · rw [Function.update_of_ne he]
    refine hc P ?_
    split at hP
    · exact (List.mem_cons.mp hP).resolve_left he
    · exact hP

theorem counted_destroyModule_iff (h : Ok s) (hc : Counted s) (hm : m ∈ s.allModules) :
    Counted (s.destroyModule m) ↔
      (s.overload m = true → ∀ P ∈ s.tasks, P ≠ m → P ∉ s.parentTasks m) := by
  have hchild : (s.destroyModule m).childrenOverload = s.childrenOverload := by
    simp only [destroyModule, if_pos hm]
  unfold Counted
  simp only [h.tasks_destroyModule hm, hchild]
  constructor
  · intro hright hover P hP hne hpar
    have hone := overloaded_destroyModule hm P
    rw [if_pos ⟨hover, hpar⟩] at hone
    have := hright P ⟨hne, hP⟩
    rw [hc P hP] at this
    omega
  · intro hcare P hP
    have hzero := overloaded_destroyModule hm P
    rw [if_neg fun hov => hcare hov.1 P hP.2 hP.1 hov.2] at hzero
    rw [hc P hP.2, hzero]
    rfl

theorem counted_updateTaskGraph_iff (h : Ok s) (hp : ParentsOk s) (hc : Counted s)
    (hch : s.changesMade = true) (ord : IterOrder) :
    Counted (s.updateTaskGraph ord) ↔ ∀ P ∈ s.tasks, s.gained P = s.lost P := by
  have hsame : (s.updateTaskGraph ord).tasks = s.tasks ∧
      (s.updateTaskGraph ord).childrenOverload = s.childrenOverload := by
    simp only [updateTaskGraph, hch, if_true]
    trivial
  unfold Counted
  rw [hsame.1, hsame.2]
  refine forall₂_congr fun P hP => ?_
  have hex := h.overloaded_updateTaskGraph hp hch ord hP
  rw [hc P hP]
  omega

theorem counted_signalOverload (h : Ok s) (hp : ParentsOk s) (hc : Counted s) (m : ModId) :
    Counted (s.signalOverload m) := by
  intro P hP
  rw [(sameGraph_signalOverload m).tasks] at hP
  have hdiff := hp.count_signalOverload h m P
  have := hc P hP
  omega

theorem counted_signalUnderload (h : Ok s) (hp : ParentsOk s) (hc : Counted s) (m : ModId) :
    Counted (s.signalUnderload m) := by
  intro P hP
  rw [(sameGraph_signalUnderload m).tasks] at hP
  have hdiff := hp.count_signalUnderload h m P
  have := hc P hP
  omega

theorem balanced_step_iff (h : Ok s) (hp : ParentsOk s) (hb : Balanced s) (e : Event) :
    Balanced (s.step e) ∧ ¬ Dangles s e ↔ Careful s e := by
  have hc := hb.counted
  rw [(parentsOk_step h hp e).balanced_iff]
  cases e with
  | createModule m k => exact iff_of_true ⟨counted_createModule h hp hc m k, id⟩ trivial
  | destroyModule m =>
    rw [and_iff_left (show ¬ Dangles s (.destroyModule m) from id)]
    by_cases hm : m ∈ s.allModules
    · exact (counted_destroyModule_iff h hc hm).trans ⟨fun hcare _ => hcare, fun hcare => hcare hm⟩
    · refine iff_of_true ?_ fun hin => absurd hin hm
      simp only [step, destroyModule, if_neg hm]
      exact hc
  | connectModules m i n j =>
    refine iff_of_true ⟨?_, id⟩ trivial
    simp only [step, connectModules]
    split <;> exact hc
  | disconnectModule m i =>
    refine iff_of_true ⟨?_, id⟩ trivial
    simp only [step, disconnectModule]
    split <;> exact hc
  | signalOverload m =>
    rw [and_iff_right (by exact counted_signalOverload h hp hc m)]
    simp only [Dangles, Careful, not_and, not_exists, not_not]
  | signalUnderload m =>
    rw [and_iff_right (by exact counted_signalUnderload h hp hc m)]
    simp only [Dangles, Careful, not_and, not_exists, not_not]
  | updateTaskGraph ord =>
    rw [and_iff_left (show ¬ Dangles s (.updateTaskGraph ord) from id)]
    cases hch : s.changesMade with
    | false =>
      refine iff_of_true ?_ fun hin => absurd (hch.symm.trans hin) Bool.false_ne_true
      simp only [step, updateTaskGraph, hch, Bool.false_eq_true, if_false]
      exact hc
    | true =>
      exact (counted_updateTaskGraph_iff h hp hc hch ord).trans
        ⟨fun hcare _ => hcare, fun hcare => hcare hch⟩

/-! ## Histories -/

/-- The counters stay right along a history, and no signal writes to a module that is gone, iff no
event of it destroys an overloaded module under a parent, signals to a destroyed parent or moves
overloaded modules between tasks. -/
theorem overload_balanced_iff_careful (es : List Event) :
    ((∀ pre, pre <+: es → Balanced (run pre)) ∧
        ∀ pre e, pre ++ [e] <+: es → ¬ Dangles (run pre) e) ↔
      ∀ pre e, pre ++ [e] <+: es → Careful (run pre) e := by
  have hstep : ∀ pre e, Balanced (run pre) →
      (Balanced (run (pre ++ [e])) ∧ ¬ Dangles (run pre) e ↔ Careful (run pre) e) := fun pre e h => by
    rw [run_concat]
    exact balanced_step_iff (ok_run pre) (parentsOk_run pre) h e
  constructor
  · rintro ⟨h, hsafe⟩ pre e hpre
    exact (hstep pre e (h pre ((List.prefix_append _ _).trans hpre))).mp ⟨h _ hpre, hsafe pre e hpre⟩
  · intro h
    have hall : ∀ pre, pre <+: es → Balanced (run pre) := fun pre => by
      induction pre using List.reverseRecOn with
      | nil =>
        intro _
        exact ⟨fun _ hP => absurd hP List.not_mem_nil, fun _ _ hP => absurd hP List.not_mem_nil⟩
      | append_singleton pre e ih =>
        intro hpre
        exact ((hstep pre e (ih ((List.prefix_append _ _).trans hpre))).mpr (h pre e hpre)).1
    exact ⟨hall, fun pre e hpre =>
      ((hstep pre e (hall pre ((List.prefix_append _ _).trans hpre))).mpr (h pre e hpre)).2⟩

/-- A source feeds a queue, which is overloaded when it is destroyed. -/
def lostQueue : List Event :=
  [.createModule 0 ⟨true, 1, 0⟩, .createModule 1 ⟨true, 1, 1⟩, .connectModules 0 0 1 0,
    .updateTaskGraph .same, .signalOverload 1, .destroyModule 1, .updateTaskGraph .same]

/-- The source is the only module left and stays throttled. -/
theorem lostQueue_throttles_source : (run lostQueue).allModules = [0] ∧
    0 ∈ (run lostQueue).tasks ∧ (run lostQueue).childrenOverload 0 = 1 ∧
    (run lostQueue).overloaded 0 = 0 ∧ ¬ Balanced (run lostQueue) := by
  have hcount : (run lostQueue).childrenOverload 0 = 1 := by decide
  have hover : (run lostQueue).overloaded 0 = 0 := by decide
  refine ⟨by decide, by decide, hcount, hover, fun h => ?_⟩
  have := h.counted 0 (by decide)
  rw [hcount, hover] at this
  cases this

end Bess.Graph.Pipeline
