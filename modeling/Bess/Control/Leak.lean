import Bess.Control.Create

/-!
# What a failing creation leaves behind

`Init.book` follows an `Init` by keeping a ledger of what it has registered and not given back, and
reads nothing but the state before the call. The ledger determines the state after `Init`, so a
creation that fails changes nothing exactly if the ledger is blank at that point.
-/

namespace Bess.Control

open Bess.Sched

/-! ## The ledger -/

/-- The tasks and attributes a module has registered and the queues it holds. -/
structure Ledger where
  tasks : Nat
  attrs : List (String × Nat)
  held : String → PacketDir → Nat → Bool

namespace Ledger

def empty : Ledger := ⟨0, [], fun _ _ _ => false⟩

structure Blank (L : Ledger) : Prop where
  tasks : L.tasks = 0
  attrs : L.attrs = []
  held : ∀ p d q, L.held p d q = false

/-- What `AddMetadataAttr` returns to a module with this ledger. -/
def attrCode (sw : Switch) (L : Ledger) (name : String) (size : Nat) : Int :=
  if L.attrs.length ≥ maxAttrsPerModule then -enospc
  else if name = "" then -einval
  else if size < 1 ∨ size > metadataAttrMaxSize then -einval
  else if L.attrs.any fun a => a.1 == name then -eexist
  else
    match sw.registeredAttrs name with
    | none => L.attrs.length
    | some (registered, _) => if registered = size then L.attrs.length else -einval

/-- What `AcquireQueues` returns to a module with this ledger. -/
def acquireCode (sw : Switch) (L : Ledger) (port : String) (dir : PacketDir) : List Nat → Int
  | [] => 0
  | qid :: qs =>
    if qid ≥ sw.numQueues port dir then -einval
    else if (sw.users port dir qid).isSome ∧ L.held port dir qid = false then -ebusy
    else acquireCode sw L port dir qs

def setHeld (L : Ledger) (port : String) (dir : PacketDir) (held : Nat → Bool) : Ledger :=
  { L with held := fun p d q => if p = port ∧ d = dir then held q else L.held p d q }

end Ledger

/-- The ledger at the end of an `Init` and what it returns. -/
def Init.book (sw : Switch) : Init → Ledger → Ledger × Option CommandError
  | done error, L => (L, error)
  | findPort port k, L => (k (sw.ports port)).book sw L
  | registerTask k, L => (k (UInt16.ofNat L.tasks)).book sw { L with tasks := L.tasks + 1 }
  | addMetadataAttr name size _ k, L =>
    let ret := L.attrCode sw name size
    (k ret).book sw (if ret < 0 then L else { L with attrs := L.attrs ++ [(name, size)] })
  | acquireQueues port dir queues k, L =>
    let qs := sw.queuesOf port dir queues
    let ret := L.acquireCode sw port dir qs
    (k ret).book sw
      (if ret ≠ 0 then L else L.setHeld port dir fun q => decide (q ∈ qs) || L.held port dir q)
  | releaseQueues port dir queues k, L =>
    let qs := sw.queuesOf port dir queues
    k.book sw (L.setHeld port dir fun q =>
      L.held port dir q && !decide (q ∈ qs ∧ q < sw.numQueues port dir))

/-! ## The state after `Init` -/

/-- The count of an attribute after the module registered it. -/
def addUse (size : Nat) : Option (Nat × Nat) → Option (Nat × Nat)
  | none => some (size, 1)
  | some (registered, count) => some (registered, count + 1)

/-- `sw'` and `m` are what the ledger says, for a module created at `sw`. -/
structure Booked (sw : Switch) (L : Ledger) (sw' : Switch) (m : Module) : Prop where
  id : m.id = sw.nextModule
  tasks : m.tasks.length = L.tasks
  attrs : m.attrs.map (fun a => (a.name, a.size)) = L.attrs
  orphans : sw'.nullOrphans + sw'.world.orphanTcs.length =
    sw.nullOrphans + sw.world.orphanTcs.length + L.tasks
  quiet : L.tasks = 0 → sw'.world = sw.world ∧ sw'.nullOrphans = sw.nullOrphans ∧
    sw'.taskModule = sw.taskModule
  registered : ∀ n, sw'.registeredAttrs n = sw.registeredAttrs n ∧ (∀ s, (n, s) ∉ L.attrs) ∨
    ∃ s, (n, s) ∈ L.attrs ∧ sw'.registeredAttrs n = addUse s (sw.registeredAttrs n)
  users : ∀ p d q, sw'.users p d q =
    if L.held p d q then some sw.nextModule else sw.users p d q
  free : ∀ p d q, L.held p d q = true → sw.users p d q = none
  ports : sw'.ports = sw.ports
  allModules : sw'.allModules = sw.allModules
  taskNames : sw'.taskNames = sw.taskNames
  owners : ∀ c n, sw'.taskModule c = some n → n = sw.nextModule ∨ sw.taskModule c = some n
  next : sw'.nextModule = sw.nextModule + 1

/-- No task and no port queue belongs to a module that does not exist yet. -/
structure Switch.Fresh (sw : Switch) : Prop where
  users : ∀ p d q, ∀ n ≥ sw.nextModule, sw.users p d q ≠ some n
  tasks : ∀ c, ∀ n ≥ sw.nextModule, sw.taskModule c ≠ some n

variable {sw sw' : Switch} {L : Ledger} {m : Module} {name : String} {size : Nat} {mode : AccessMode}
  {port : String} {dir : PacketDir} {queues : Option (List Nat)} {qs : List Nat} {cls : ModuleClass}

namespace Booked

theorem initial (sw : Switch) (name : String) :
    Booked sw .empty { sw with nextModule := sw.nextModule + 1 } ⟨sw.nextModule, name, [], []⟩ :=
  ⟨rfl, rfl, rfl, rfl, fun _ => ⟨rfl, rfl, rfl⟩, fun _ => .inl ⟨rfl, by simp [Ledger.empty]⟩,
    fun _ _ _ => by simp [Ledger.empty], (by simp [Ledger.empty]), rfl, rfl, rfl,
    fun _ _ ht => .inr ht, rfl⟩

theorem registerTask (h : Booked sw L sw' m) :
    Booked sw { L with tasks := L.tasks + 1 } (sw'.registerTask m).1 (sw'.registerTask m).2.1 ∧
      (sw'.registerTask m).2.2 = UInt16.ofNat L.tasks := by
  have hlen := h.tasks
  have horph := h.orphans
  cases hname : sw'.world.allTcs ("!leaf_" ++ m.name ++ ":" ++ toString m.tasks.length) with
  | some c =>
    simp only [Switch.registerTask, World.createTrafficClass, hname, Option.isSome_some, if_true]
    refine ⟨⟨h.id, ?_, h.attrs, ?_, fun h0 => absurd h0 (Nat.succ_ne_zero _), h.registered,
      h.users, h.free, h.ports, h.allModules, h.taskNames, h.owners, h.next⟩, by rw [hlen]⟩
    · simp [hlen]
    · simp only
      omega
  | none =>
    simp only [Switch.registerTask, World.createTrafficClass, hname, Option.isSome_none,
      Bool.false_eq_true, if_false]
    refine ⟨⟨h.id, ?_, h.attrs, ?_, fun h0 => absurd h0 (Nat.succ_ne_zero _), h.registered,
      h.users, h.free, h.ports, h.allModules, h.taskNames, fun c n hc => ?_, h.next⟩, by rw [hlen]⟩
    · simp [hlen]
    · simp only [World.addTcToOrphan, List.length_append, List.length_singleton]
      omega
    · simp only [Function.update_apply] at hc
      split at hc
      · exact .inl ((Option.some.inj hc).symm.trans h.id)
      · exact h.owners c n hc

theorem any_attrs (h : Booked sw L sw' m) (name : String) :
    (m.attrs.any fun a => a.name == name) = L.attrs.any fun a => a.1 == name := by
  rw [← h.attrs, List.any_map]
  rfl

theorem registered_of_new (h : Booked sw L sw' m)
    (hnew : (L.attrs.any fun a => a.1 == name) = false) :
    sw'.registeredAttrs name = sw.registeredAttrs name := by
  rcases h.registered name with ⟨heq, -⟩ | ⟨s, hs, -⟩
  · exact heq
  · rw [List.any_eq_false] at hnew
    exact absurd (beq_iff_eq.mpr rfl) (hnew (name, s) hs)

theorem withAttr (size : Nat) (mode : AccessMode) (h : Booked sw L sw' m)
    (hnew : (L.attrs.any fun a => a.1 == name) = false) :
    Booked sw { L with attrs := L.attrs ++ [(name, size)] }
      { sw' with registeredAttrs :=
        Function.update sw'.registeredAttrs name (addUse size (sw.registeredAttrs name)) }
      { m with attrs := m.attrs ++ [⟨name, size, mode⟩] } := by
  refine ⟨h.id, h.tasks, by simp [h.attrs], h.orphans, h.quiet, fun n => ?_, h.users, h.free,
    h.ports, h.allModules, h.taskNames, h.owners, h.next⟩
  by_cases hn : n = name
  · subst hn
    exact .inr ⟨size, by simp, Function.update_self _ _ _⟩
  · simp only [Function.update_of_ne hn, List.mem_append, List.mem_singleton, Prod.mk.injEq, hn,
      false_and, or_false]
    exact h.registered n

theorem addMetadataAttr (name : String) (size : Nat) (mode : AccessMode) (h : Booked sw L sw' m) :
    (sw'.addMetadataAttr m name size mode).2.2 = L.attrCode sw name size ∧
    Booked sw
      (if L.attrCode sw name size < 0 then L else { L with attrs := L.attrs ++ [(name, size)] })
      (sw'.addMetadataAttr m name size mode).1 (sw'.addMetadataAttr m name size mode).2.1 := by
  have hlen : m.attrs.length = L.attrs.length := by rw [← h.attrs, List.length_map]
  unfold Switch.addMetadataAttr Ledger.attrCode
  rw [h.any_attrs, hlen]
  split
  · exact ⟨rfl, h⟩
  split
  · exact ⟨rfl, h⟩
  split
  · exact ⟨rfl, h⟩
  split
  · exact ⟨rfl, h⟩
  rename_i hnew
  have hnew : (L.attrs.any fun a => a.1 == name) = false := Bool.eq_false_of_not_eq_true hnew
  have hreg := h.registered_of_new hnew
  have hwith := h.withAttr size mode hnew
  have hnn : ¬ ((L.attrs.length : Int) < 0) := by omega
  unfold Switch.registerAttribute
  rw [hreg]
  cases hr : sw.registeredAttrs name with
  | none =>
    rw [hr] at hwith
    simp only [ne_eq, not_true, if_false, hnn]
    exact ⟨trivial, hwith⟩
  | some entry =>
    obtain ⟨registered, count⟩ := entry
    rw [hr] at hwith
    by_cases hs : registered = size
    · simp only [if_pos hs, ne_eq, not_true, if_false, hnn]
      exact ⟨trivial, hwith⟩
    · simp only [if_neg hs]
      exact ⟨rfl, h⟩

theorem numQueues (h : Booked sw L sw' m) : sw'.numQueues port dir = sw.numQueues port dir := by
  unfold Switch.numQueues
  rw [h.ports]

theorem queuesOf (h : Booked sw L sw' m) :
    sw'.queuesOf port dir queues = sw.queuesOf port dir queues := by
  unfold Switch.queuesOf
  rw [h.numQueues]

theorem checkQueues (h : Booked sw L sw' m) (hf : sw.Fresh) :
    sw'.checkQueues m.id port dir qs = L.acquireCode sw port dir qs := by
  induction qs with
  | nil => rfl
  | cons qid qs ih =>
    unfold Switch.checkQueues Ledger.acquireCode
    rw [h.numQueues, h.users, h.id]
    rw [h.id] at ih
    split
    · rfl
    cases hheld : L.held port dir qid with
    | true => simp [ih]
    | false =>
      cases hu : sw.users port dir qid with
      | none => simp [ih]
      | some user =>
        have hne : user ≠ sw.nextModule := by
          rintro rfl
          exact hf.users port dir qid sw.nextModule (Nat.le_refl _) hu
        simp [hne]

theorem setUsers (h : Booked sw L sw' m) {held : Nat → Bool} {user : Nat → Option ModuleId}
    (hu : ∀ q, user q = if held q then some sw.nextModule else sw.users port dir q)
    (hfree : ∀ q, held q = true → sw.users port dir q = none) :
    Booked sw (L.setHeld port dir held) (sw'.setUsers port dir user) m := by
  refine ⟨h.id, h.tasks, h.attrs, h.orphans, h.quiet, h.registered, fun p d q => ?_, fun p d q hh => ?_,
    h.ports, h.allModules, h.taskNames, h.owners, h.next⟩
  · simp only [Switch.setUsers, Ledger.setHeld]
    split
    · rename_i hpd
      obtain ⟨rfl, rfl⟩ := hpd
      exact hu q
    · exact h.users p d q
  · simp only [Ledger.setHeld] at hh
    split at hh
    · rename_i hpd
      obtain ⟨rfl, rfl⟩ := hpd
      exact hfree q hh
    · exact h.free p d q hh

theorem free_of_acquireCode (h : Booked sw L sw' m) (hret : L.acquireCode sw port dir qs = 0) {q : Nat}
    (hq : q ∈ qs) : sw.users port dir q = none := by
  induction qs with
  | nil => cases hq
  | cons qid qs ih =>
    unfold Ledger.acquireCode at hret
    split at hret
    · exact absurd hret (by decide)
    split at hret
    · exact absurd hret (by decide)
    · rename_i hbusy
      rcases List.mem_cons.mp hq with rfl | hq
      · cases hheld : L.held port dir q with
        | true => exact h.free port dir q hheld
        | false =>
          cases hu : sw.users port dir q with
          | none => rfl
          | some user => exact absurd ⟨by simp [hu], hheld⟩ hbusy
      · exact ih hret hq

theorem acquireQueues (port : String) (dir : PacketDir) (queues : Option (List Nat))
    (h : Booked sw L sw' m) (hf : sw.Fresh) :
    (sw'.acquireQueues m.id port dir queues).2 =
      L.acquireCode sw port dir (sw.queuesOf port dir queues) ∧
    Booked sw
      (if L.acquireCode sw port dir (sw.queuesOf port dir queues) ≠ 0 then L
        else L.setHeld port dir fun q =>
          decide (q ∈ sw.queuesOf port dir queues) || L.held port dir q)
      (sw'.acquireQueues m.id port dir queues).1 m := by
  unfold Switch.acquireQueues
  simp only [h.queuesOf, h.checkQueues hf]
  split
  · exact ⟨rfl, h⟩
  · rename_i hret
    have hret := not_not.mp hret
    refine ⟨hret.symm, h.setUsers (fun q => ?_) fun q hq => ?_⟩
    · by_cases hq : q ∈ sw.queuesOf port dir queues
      · simp [hq, h.id]
      · simp [hq, h.users]
    · rw [Bool.or_eq_true, decide_eq_true_iff] at hq
      exact hq.elim (h.free_of_acquireCode hret) (h.free port dir q)

theorem releaseQueues (h : Booked sw L sw' m) (hf : sw.Fresh) :
    Booked sw
      (L.setHeld port dir fun q => L.held port dir q &&
        !decide (q ∈ sw.queuesOf port dir queues ∧ q < sw.numQueues port dir))
      (sw'.releaseQueues m.id port dir queues) m := by
  unfold Switch.releaseQueues
  simp only [h.queuesOf, h.numQueues, h.users, h.id]
  refine h.setUsers (fun q => ?_) fun q hq => h.free port dir q (Bool.and_eq_true_iff.mp hq).1
  cases hheld : L.held port dir q with
  | true =>
    -- a queue that is given back had no user before
    have hnone := h.free port dir q hheld
    by_cases hq : q ∈ sw.queuesOf port dir queues ∧ q < sw.numQueues port dir
    · simp [hq, hnone]
    · simp only [← and_assoc, hq, if_true, false_and, if_false, decide_false, Bool.not_false,
        Bool.and_true]
  | false =>
    have hne : sw.users port dir q ≠ some sw.nextModule :=
      hf.users port dir q sw.nextModule (Nat.le_refl _)
    simp [hne]

end Booked

/-- `Init` returns what the ledger says and leaves the state the ledger says. -/
theorem Init.run_booked (hf : sw.Fresh) (prog : Init) (h : Booked sw L sw' m) :
    (prog.run sw' m).2.2 = (prog.book sw L).2 ∧
      Booked sw (prog.book sw L).1 (prog.run sw' m).1 (prog.run sw' m).2.1 := by
  induction prog generalizing L sw' m with
  | done error => exact ⟨rfl, h⟩
  | findPort port k ih =>
    simp only [Init.run, Init.book, h.ports]
    exact ih _ h
  | registerTask k ih =>
    obtain ⟨hb, hret⟩ := h.registerTask
    simp only [Init.run, Init.book, hret]
    exact ih _ hb
  | addMetadataAttr name size mode k ih =>
    obtain ⟨hret, hb⟩ := h.addMetadataAttr name size mode
    simp only [Init.run, Init.book, hret]
    exact ih _ hb
  | acquireQueues port dir queues k ih =>
    obtain ⟨hret, hb⟩ := h.acquireQueues port dir queues hf
    simp only [Init.run, Init.book, hret]
    exact ih _ hb
  | releaseQueues port dir queues k ih =>
    exact ih (h.releaseQueues hf)

/-! ## Failing creations -/

/-- The call left nothing behind; `id` is the module object it deleted. -/
structure Unchanged (sw sw' : Switch) (id : ModuleId) : Prop where
  attrs : sw'.registeredAttrs = sw.registeredAttrs
  world : sw'.world = sw.world
  nullOrphans : sw'.nullOrphans = sw.nullOrphans
  users : sw'.users = sw.users
  allModules : sw'.allModules = sw.allModules
  taskNames : sw'.taskNames = sw.taskNames
  tasks : ∀ c, sw'.taskModule c ≠ some id

/-- The module is created, or `Init` gives back all it registered; a name that only the table of
modules refuses does not enter the table of tasks before. -/
def Switch.Harmless (sw : Switch) (cls : ModuleClass) (name : String) : Prop :=
  let out := cls.init.book sw .empty
  out.2 = none ∧ ¬ (cls.isTask = true ∧ sw.taskNames name = true) ∧ sw.allModules name = none ∨
  out.1.Blank ∧ (out.2 = none → cls.isTask = true → sw.taskNames name = true)

theorem addUse_ne {o : Option (Nat × Nat)} : addUse size o ≠ o := by
  cases o with
  | none => simp [addUse]
  | some e => simp [addUse, Prod.ext_iff]

theorem Booked.unchanged_iff (h : Booked sw L sw' m) (hf : sw.Fresh) :
    Unchanged sw sw' sw.nextModule ↔ L.Blank := by
  constructor
  · intro hu
    refine ⟨?_, ?_, fun p d q => ?_⟩
    · have := h.orphans
      rw [hu.world, hu.nullOrphans] at this
      omega
    · rw [List.eq_nil_iff_forall_not_mem]
      rintro ⟨n, s⟩ hmem
      rcases h.registered n with ⟨-, hno⟩ | ⟨s', -, heq⟩
      · exact hno s hmem
      · rw [hu.attrs] at heq
        exact addUse_ne heq.symm
    · have := h.users p d q
      rw [hu.users] at this
      cases hheld : L.held p d q with
      | false => rfl
      | true =>
        rw [hheld, if_pos rfl] at this
        exact absurd this (hf.users p d q _ (Nat.le_refl _))
  · intro hb
    obtain ⟨hw, hn, ht⟩ := h.quiet hb.tasks
    refine ⟨funext fun n => ?_, hw, hn, ?_, h.allModules, h.taskNames, fun c => ?_⟩
    · rcases h.registered n with ⟨heq, -⟩ | ⟨s, hs, -⟩
      · exact heq
      · rw [hb.attrs] at hs
        cases hs
    · funext p d q
      rw [h.users, hb.held, if_neg (by simp)]
    · rw [ht]
      exact hf.tasks c _ (Nat.le_refl _)

/-- A `CreateModule` call that returns null leaves the system as it was exactly if `Init` has given
back all it registered when it fails, or when its name is refused. -/
theorem failed_creation_leaves_nothing_iff (sw : Switch) (cls : ModuleClass) (name : String)
    (h : sw.Fresh) :
    ((sw.createModule cls name).module = none →
        Unchanged sw (sw.createModule cls name).switch sw.nextModule) ↔
      sw.Harmless cls name := by
  obtain ⟨hret, hb⟩ := Init.run_booked h cls.init (Booked.initial sw name)
  have hiff := hb.unchanged_iff h
  unfold Switch.createModule Switch.Harmless
  simp only
  generalize cls.init.run _ _ = out at hret hb hiff ⊢
  generalize cls.init.book sw .empty = booked at hret hb hiff ⊢
  obtain ⟨sw₁, m, error⟩ := out
  simp only at hret hb hiff ⊢
  rw [← hret, ← hiff]
  cases error with
  | some e => simp
  | none =>
    simp only [hb.taskNames, true_implies, true_and]
    by_cases htask : cls.isTask = true ∧ sw.taskNames name = true
    · simp [htask]
    · rw [if_neg htask]
      cases hisTask : cls.isTask with
      | false =>
        simp only [Bool.false_eq_true, if_false, false_and, not_false_eq_true, true_and,
          hb.allModules, false_implies, and_true]
        cases sw.allModules name <;> simp
      | true =>
        have hnot : sw.taskNames name = false := by simpa [hisTask] using htask
        simp only [if_true, hb.allModules, hnot, Bool.false_eq_true, and_false, not_false_eq_true,
          true_and]
        cases sw.allModules name with
        | none => simp
        | some id =>
          -- the name has entered the table of tasks
          refine iff_of_false (fun hu => ?_) (by simp)
          have hname := congrFun (hu rfl).taskNames name
          simp [hnot] at hname

/-- Every creation keeps the numbers of modules fresh, so the theorem applies along every history. -/
theorem Switch.Fresh.createModule (h : sw.Fresh) : (sw.createModule cls name).switch.Fresh := by
  obtain ⟨-, hb⟩ := Init.run_booked h cls.init (Booked.initial sw name)
  have hrun : ∀ sw' : Switch, sw'.users = (cls.init.run { sw with nextModule := sw.nextModule + 1 }
        ⟨sw.nextModule, name, [], []⟩).1.users →
      sw'.taskModule = (cls.init.run { sw with nextModule := sw.nextModule + 1 }
        ⟨sw.nextModule, name, [], []⟩).1.taskModule →
      sw'.nextModule = (cls.init.run { sw with nextModule := sw.nextModule + 1 }
        ⟨sw.nextModule, name, [], []⟩).1.nextModule → sw'.Fresh := fun sw' hu ht hn => by
    have hlt : ∀ n ≥ sw'.nextModule, sw.nextModule < n := fun n hle => by
      rw [hn, hb.next] at hle
      exact hle
    refine ⟨fun p d q n hle he => ?_, fun c n hle he => ?_⟩
    · rw [hu, hb.users] at he
      split at he
      · exact Nat.ne_of_lt (hlt n hle) (Option.some.inj he)
      · exact h.users p d q n (Nat.le_of_lt (hlt n hle)) he
    · rw [ht] at he
      rcases hb.owners c n he with rfl | he
      · exact Nat.lt_irrefl _ (hlt _ hle)
      · exact h.tasks c n (Nat.le_of_lt (hlt n hle)) he
  unfold Switch.createModule
  simp only
  generalize cls.init.run _ _ = out at hrun
  obtain ⟨sw₁, m, error⟩ := out
  cases error with
  | some e => exact hrun sw₁ rfl rfl rfl
  | none =>
    simp only
    split
    · exact hrun sw₁ rfl rfl rfl
    split <;> split <;> exact hrun _ rfl rfl rfl

/-! ## The classes of the port and queue modules -/

theorem acquireCode_nonpos (sw : Switch) (L : Ledger) (port : String) (dir : PacketDir) (qs : List Nat) :
    L.acquireCode sw port dir qs ≤ 0 := by
  induction qs with
  | nil => exact Int.le_refl _
  | cons qid qs ih =>
    unfold Ledger.acquireCode
    split
    · decide
    split
    · decide
    · exact ih

/-- The last call of an `Init` is `AcquireQueues`: it fails with what the ledger had before. -/
theorem acquireAndFinish_book (sw : Switch) (L : Ledger) (port : String) (dir : PacketDir)
    (queues : Option (List Nat)) :
    ((acquireAndFinish port dir queues).book sw L).2 = none ∨
      ((acquireAndFinish port dir queues).book sw L).1 = L := by
  have hle := acquireCode_nonpos sw L port dir (sw.queuesOf port dir queues)
  simp only [acquireAndFinish, Init.book]
  by_cases hret : L.acquireCode sw port dir (sw.queuesOf port dir queues) = 0
  · rw [hret]
    exact .inl rfl
  · rw [if_pos (by omega), if_pos hret]
    exact .inr rfl

theorem blank_empty : Ledger.empty.Blank := ⟨rfl, rfl, fun _ _ _ => rfl⟩

/-- `PortOut` and `QueueOut` under a free name: all errors come before or from the acquisition. -/
theorem Switch.harmless_of_last (hname : sw.allModules name = none) (hclass : cls.isTask = false)
    (hlast : (cls.init.book sw .empty).2 = none ∨ (cls.init.book sw .empty).1 = .empty) :
    sw.Harmless cls name := by
  unfold Switch.Harmless
  cases hret : (cls.init.book sw .empty).2 with
  | none => exact .inl ⟨hret, by simp [hclass], hname⟩
  | some e =>
    refine .inr ⟨?_, fun hnone => by simp [hret] at hnone⟩
    rw [hlast.resolve_left (by simp [hret])]
    exact blank_empty

theorem portOut_harmless (hname : sw.allModules name = none) : sw.Harmless (portOut port) name := by
  refine Switch.harmless_of_last hname rfl ?_
  unfold portOut
  simp only
  split
  · exact .inr rfl
  simp only [Init.book]
  split
  · exact .inr rfl
  split
  · exact .inr rfl
  · exact acquireAndFinish_book sw _ port .out none

theorem queueOut_harmless {qid : UInt64} (hname : sw.allModules name = none) :
    sw.Harmless (queueOut port qid) name := by
  refine Switch.harmless_of_last hname rfl ?_
  unfold queueOut
  simp only
  split
  · exact .inr rfl
  simp only [Init.book]
  split
  · exact .inr rfl
  · exact acquireAndFinish_book sw _ port .out _

/-- `Queue` registers its task first, so none of its errors is harmless. -/
theorem queue_not_harmless {size : UInt64} {alloc : Bool}
    (hfail : ((queue size alloc).init.book sw .empty).2 ≠ none) :
    ¬ sw.Harmless (queue size alloc) name := by
  have htasks : ((queue size alloc).init.book sw .empty).1.tasks = 1 := by
    simp only [queue, Init.book]
    split
    · rfl
    split
    · unfold setQueueSize
      split
      · rfl
      split
      · rfl
      · unfold resizeQueue
        split <;> rfl
    · unfold resizeQueue
      split <;> rfl
  rintro (⟨hok, -⟩ | ⟨hblank, -⟩)
  · exact hfail hok
  · rw [hblank.tasks] at htasks
    cases htasks

/-! ## Two failing creations -/

/-- A port with one queue in each direction, and a module that writes to it. -/
def onePort : Switch :=
  ((Switch.initial 1000000000 fun p => if p = "p0" then some fun _ => 1 else none).createModule
    (queueOut "p0" 0) "out0").switch

theorem onePort_fresh : onePort.Fresh :=
  Switch.Fresh.createModule ⟨by simp [Switch.initial], by simp [Switch.initial]⟩

/-- A second writer is refused and leaves nothing behind. -/
theorem onePort_refuses_writer :
    (onePort.createModule (queueOut "p0" 0) "out1").error = some ⟨16, "Device or resource busy"⟩ ∧
      Unchanged onePort (onePort.createModule (queueOut "p0" 0) "out1").switch 1 :=
  ⟨by decide, (failed_creation_leaves_nothing_iff onePort (queueOut "p0" 0) "out1" onePort_fresh).mpr
    (queueOut_harmless rfl) (by decide)⟩

/-- A queue of 3 slots is refused; the leaf of its task stays, with a task of the deleted module. -/
theorem onePort_queue_leaks :
    (onePort.createModule (queue 3 true) "q0").module = none ∧
      (onePort.createModule (queue 3 true) "q0").error = some ⟨22, "must be in [4, 16384]"⟩ ∧
      onePort.world.orphanTcs = [] ∧
      (onePort.createModule (queue 3 true) "q0").switch.world.orphanTcs = [(-1, 0)] ∧
      onePort.world.allTcs "!leaf_q0:0" = none ∧
      (onePort.createModule (queue 3 true) "q0").switch.world.allTcs "!leaf_q0:0" = some 0 ∧
      (onePort.createModule (queue 3 true) "q0").switch.taskModule 0 = some 1 ∧
      (onePort.createModule (queue 3 true) "q0").switch.allModules "q0" = none := by
  decide +kernel

end Bess.Control
