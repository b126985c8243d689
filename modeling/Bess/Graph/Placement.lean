import Bess.Graph.Destroy
import Bess.Lib.Dfs

/-!
# Placement constraints

Each module has a set of sockets that its tasks may run on, as the bits of a 64-bit word. A task may
run where all modules allow it that its packets can reach; `GetSocketConstraints` computes that set by
a walk over the graph. A module that is met again contributes its own word and nothing else.

The walk keeps the word in an `int`: only the low 32 bits are accumulated, and the result is extended
by the sign. `computePlacementConstraints_bits` says what every call returns; the whole walk returns
the sign extension of what it should.
-/

namespace Bess.Graph

open Relation

/-- `Module::node_constraints_` of the modules of a graph. -/
structure Placement where
  gates : Gates
  allModules : List ModId
  closed : ∀ m i og, ogate gates m i = some og → og.next ∈ allModules
  nodeConstraints : ModId → BitVec 64

namespace Placement

/-- `UNCONSTRAINED_SOCKET` -/
def unconstrainedSocket : BitVec 64 := (1#64 <<< 16) - 1

variable (D : Placement)

/-- The `int` that a word is converted to. -/
def toInt32 (x : BitVec 64) : BitVec 32 := x.setWidth 32

/-- `constraint &= x`: the `int` is extended to 64 bits and the result cut again. -/
def narrow (constraint : BitVec 32) (x : BitVec 64) : BitVec 32 :=
  toInt32 (constraint.signExtend 64 &&& x)

/-- `ComputePlacementConstraints`, with the visited modules it leaves. -/
def computePlacementConstraints : Nat → ModId → List ModId → BitVec 64 × List ModId
  | 0, m, visited => ((toInt32 (D.nodeConstraints m)).signExtend 64, visited)
  | fuel + 1, m, visited =>
    let constraint := toInt32 (D.nodeConstraints m)
    if m ∈ visited then (constraint.signExtend 64, visited)
    else
      let out := (succs D.gates m).foldl (fun acc next =>
        let r := computePlacementConstraints fuel next acc.2
        (narrow acc.1 r.1, r.2)) (constraint, m :: visited)
      (out.1.signExtend 64, out.2)

/-- `Task::GetSocketConstraints` for a task of the module. -/
def getSocketConstraints : Option ModId → BitVec 64
  | some m => (D.computePlacementConstraints (D.allModules.length + 2) m []).1
  | none => unconstrainedSocket

/-! ## What the constraints are for -/

def Reaches (m n : ModId) : Prop := ReflTransGen (fun m n => n ∈ succs D.gates m) m n

open Classical in
/-- The modules that packets of a task of `m` can reach. -/
noncomputable def reachable (m : ModId) : List ModId :=
  (m :: D.allModules).filter fun n => decide (D.Reaches m n)

/-- The sockets that all of the modules allow. -/
def commonConstraint (ms : List ModId) : BitVec 64 :=
  ms.foldr (fun m x => D.nodeConstraints m &&& x) (BitVec.allOnes 64)

variable {D} {m n : ModId} {visited l : List ModId} {i : Nat}

theorem getLsbD_commonConstraint (ms : List ModId) (hi : i < 64) :
    (D.commonConstraint ms).getLsbD i = true ↔
      ∀ m ∈ ms, (D.nodeConstraints m).getLsbD i = true := by
  induction ms with
  | nil => simp only [commonConstraint, List.foldr_nil, BitVec.getLsbD_allOnes, hi, decide_true,
      List.not_mem_nil, false_implies, implies_true]
  | cons m ms ih =>
    have hcons : D.commonConstraint (m :: ms) = D.nodeConstraints m &&& D.commonConstraint ms := rfl
    rw [hcons, BitVec.getLsbD_and, Bool.and_eq_true, ih, List.forall_mem_cons]

theorem mem_allModules_of_succs (h : n ∈ succs D.gates m) : n ∈ D.allModules := by
  obtain ⟨i, j, hog⟩ := mem_succs.mp h
  exact D.closed m i _ hog

theorem mem_reachable : n ∈ D.reachable m ↔ D.Reaches m n := by
  simp only [reachable, List.mem_filter, decide_eq_true_eq, and_iff_right_iff_imp]
  intro h
  rcases ReflTransGen.cases_tail h with rfl | ⟨k, -, hk⟩
  · exact List.mem_cons_self
  · exact List.mem_cons_of_mem _ (mem_allModules_of_succs hk)

/-! ## The walk -/

/-- The walk as a search that records the modules. -/
def walk (D : Placement) : Dfs.Search ModId (List ModId) where
  next := succs D.gates
  seen visited m := decide (m ∈ visited)
  enter m visited := m :: visited
  seen_enter v s u := by simp [Bool.decide_or]

theorem walk_enterAll (l visited : List ModId) :
    D.walk.enterAll l visited = l.reverse ++ visited := by
  induction l generalizing visited with
  | nil => rfl
  | cons m l ih =>
    have hcons : D.walk.enterAll (m :: l) visited = D.walk.enterAll l (m :: visited) := rfl
    rw [hcons, ih, List.reverse_cons, List.append_assoc]
    rfl

/-- A module with everything that it adds to the result when it is entered. -/
def Allows (D : Placement) (i : Nat) (m : ModId) : Prop :=
  (D.nodeConstraints m).getLsbD i = true ∧
    ∀ n ∈ succs D.gates m, (D.nodeConstraints n).getLsbD i = true

theorem getLsbD_signExtend_low (c : BitVec 32) (hi : i < 32) :
    (c.signExtend 64).getLsbD i = c.getLsbD i := by
  have h64 : i < 64 := by omega
  rw [BitVec.getLsbD_signExtend, if_pos hi, decide_eq_true h64, Bool.true_and]

theorem getLsbD_toInt32 (x : BitVec 64) (hi : i < 32) :
    (toInt32 x).getLsbD i = x.getLsbD i := by
  rw [toInt32, BitVec.getLsbD_setWidth, decide_eq_true hi, Bool.true_and]

theorem getLsbD_narrow {c : BitVec 32} {x : BitVec 64} (hi : i < 32) :
    (narrow c x).getLsbD i = (c.getLsbD i && x.getLsbD i) := by
  rw [narrow, getLsbD_toInt32 _ hi, BitVec.getLsbD_and, getLsbD_signExtend_low c hi]

/-- What a call returns, and which modules it enters. -/
theorem computePlacementConstraints_bits (fuel : Nat) (m : ModId) (visited : List ModId) :
    ∃ l, (D.computePlacementConstraints fuel m visited).2 = D.walk.enterAll l visited ∧
      (D.computePlacementConstraints fuel m visited).2 = D.walk.dfs fuel m visited ∧
      ∃ c : BitVec 32, (D.computePlacementConstraints fuel m visited).1 = c.signExtend 64 ∧
        ∀ i < 32, c.getLsbD i = true ↔
          (D.nodeConstraints m).getLsbD i = true ∧ ∀ n ∈ l, D.Allows i n := by
  induction fuel generalizing m visited with
  | zero =>
    refine ⟨[], rfl, rfl, toInt32 (D.nodeConstraints m), rfl, fun i hi => ?_⟩
    simp [getLsbD_toInt32 _ hi]
  | succ fuel ih =>
    -- the loop over the ogates, from what was accumulated before
    have hloop : ∀ (ns : List ModId) (c : BitVec 32) (visited : List ModId), ∃ l c',
        ns.foldl (fun acc next =>
          let r := D.computePlacementConstraints fuel next acc.2
          (narrow acc.1 r.1, r.2)) (c, visited) = (c', D.walk.enterAll l visited) ∧
        D.walk.enterAll l visited = ns.foldl (fun s n => D.walk.dfs fuel n s) visited ∧
        ∀ i < 32, c'.getLsbD i = true ↔ c.getLsbD i = true ∧
          (∀ n ∈ ns, (D.nodeConstraints n).getLsbD i = true) ∧ ∀ n ∈ l, D.Allows i n := by
      intro ns
      induction ns with
      | nil => exact fun c visited => ⟨[], c, rfl, rfl, fun i hi => by simp⟩
      | cons n ns ih' =>
        intro c visited
        obtain ⟨l, hl, hdfs, r, hr, hbits⟩ := ih n visited
        obtain ⟨l', c', hfold, hdfs', hbits'⟩ := ih' (narrow c (r.signExtend 64))
          (D.walk.enterAll l visited)
        refine ⟨l ++ l', c', ?_, ?_, fun i hi => ?_⟩
        · rw [List.foldl_cons]
          simp only [hl, hr]
          rw [hfold, Dfs.Search.enterAll_append]
        · rw [Dfs.Search.enterAll_append, hdfs', List.foldl_cons, ← hdfs, hl]
        · rw [hbits' i hi, getLsbD_narrow hi, getLsbD_signExtend_low r hi, Bool.and_eq_true,
            hbits i hi, List.forall_mem_cons, List.forall_mem_append]
          tauto
    unfold computePlacementConstraints
    by_cases hm : m ∈ visited
    · refine ⟨[], ?_, ?_, toInt32 (D.nodeConstraints m), ?_, fun i hi => ?_⟩
      · rw [if_pos hm]
        rfl
      · rw [if_pos hm]
        simp [Dfs.Search.dfs, walk, hm]
      · rw [if_pos hm]
      · simp [getLsbD_toInt32 _ hi]
    · obtain ⟨l, c', hfold, hdfs, hbits⟩ := hloop (succs D.gates m)
        (toInt32 (D.nodeConstraints m)) (m :: visited)
      rw [if_neg hm]
      simp only [hfold]
      refine ⟨m :: l, rfl, ?_, c', rfl, fun i hi => ?_⟩
      · rw [hdfs]
        simp [Dfs.Search.dfs, walk, hm]
      · rw [hbits i hi, getLsbD_toInt32 _ hi, List.forall_mem_cons]
        unfold Allows
        tauto

/-- The walk accumulates the low half of what it should. -/
theorem getSocketConstraints_eq (m : ModId) :
    D.getSocketConstraints (some m) =
      (toInt32 (D.commonConstraint (D.reachable m))).signExtend 64 := by
  obtain ⟨l, hl, hdfs, c, hc, hbits⟩ :=
    D.computePlacementConstraints_bits (D.allModules.length + 2) m []
  have hall : ∀ v, ∀ w ∈ D.walk.next v, w ∈ m :: D.allModules := fun v w hw =>
    List.mem_cons_of_mem m (mem_allModules_of_succs hw)
  have hfuel : D.walk.todo (m :: D.allModules) [] < D.allModules.length + 2 := by
    have := List.countP_le_length (p := fun v => !D.walk.seen [] v) (l := m :: D.allModules)
    rw [List.length_cons] at this
    exact Nat.lt_succ_of_le this
  have hstart : ∀ v ∈ [m], v ∈ m :: D.allModules := by simp
  obtain ⟨l', hl', -, hiff⟩ := Dfs.Search.dfsAll_spec hall hstart
    (fun u hu => by simp [walk] at hu) hfuel
  -- the two descriptions of the walk list the same modules
  have hsame : l = l' := by
    have h : D.walk.enterAll l [] = D.walk.enterAll l' [] :=
      hl.symm.trans (hdfs.trans (Eq.trans rfl hl'))
    simpa [walk_enterAll] using h
  have hmem : ∀ n, n ∈ l ↔ D.Reaches m n := by
    intro n
    rw [hsame, hiff]
    simp [walk, Dfs.Search.Reach, Reaches]
  show (D.computePlacementConstraints (D.allModules.length + 2) m []).1 = _
  rw [hc]
  congr 1
  refine BitVec.eq_of_getLsbD_eq fun i hi => ?_
  have h64 : i < 64 := by omega
  rw [Bool.eq_iff_iff, hbits i hi, getLsbD_toInt32 _ hi, getLsbD_commonConstraint _ h64]
  simp only [mem_reachable]
  constructor
  · rintro ⟨-, hall⟩ n hn
    exact (hall n ((hmem n).mpr hn)).1
  · intro h
    refine ⟨h m .refl, fun n hn => ⟨h n ((hmem n).mp hn), fun k hk => ?_⟩⟩
    exact h k (.tail ((hmem n).mp hn) hk)

/-- The walk returns the common constraint iff the upper half of that repeats its bit 31. -/
theorem socket_constraints_common_iff (D : Placement) (m : ModId) :
    D.getSocketConstraints (some m) = D.commonConstraint (D.reachable m) ↔
      ∀ i, 32 ≤ i → i < 64 → (D.commonConstraint (D.reachable m)).getLsbD i =
        (D.commonConstraint (D.reachable m)).getLsbD 31 := by
  rw [getSocketConstraints_eq]
  generalize D.commonConstraint (D.reachable m) = x
  have hmsb : (toInt32 x).msb = x.getLsbD 31 := by
    rw [BitVec.msb_eq_getLsbD_last, getLsbD_toInt32 x (by decide)]
  have hhigh : ∀ i, 32 ≤ i → i < 64 → ((toInt32 x).signExtend 64).getLsbD i = x.getLsbD 31 := by
    intro i hlo hhi
    rw [BitVec.getLsbD_signExtend, if_neg (Nat.not_lt.mpr hlo), decide_eq_true hhi, Bool.true_and,
      hmsb]
  constructor
  · intro h i hlo hhi
    rw [← hhigh i hlo hhi, h]
  · intro h
    refine BitVec.eq_of_getLsbD_eq fun i hi => ?_
    rcases Nat.lt_or_ge i 32 with hlo | hlo
    · rw [getLsbD_signExtend_low _ hlo, getLsbD_toInt32 x hlo]
    · rw [hhigh i hlo hi, h i hlo hi]

/-- One module that may run on socket 32 only. -/
def farSocket : Placement where
  gates := .empty
  allModules := [0]
  closed _ _ _ h := by simp [ogate, gateAt, Gates.empty] at h
  nodeConstraints _ := 1#64 <<< 32

/-- The task of that module may not run anywhere. -/
theorem farSocket_infeasible : farSocket.getSocketConstraints (some 0) = 0#64 ∧
    farSocket.commonConstraint (farSocket.reachable 0) ≠ 0#64 := by
  refine ⟨by decide, fun h => ?_⟩
  have hbit : (farSocket.commonConstraint (farSocket.reachable 0)).getLsbD 32 = true :=
    (getLsbD_commonConstraint _ (by decide)).mpr fun _ _ => by
      show (1#64 <<< 32).getLsbD 32 = true
      decide
  rw [h] at hbit
  cases hbit

end Placement

end Bess.Graph
