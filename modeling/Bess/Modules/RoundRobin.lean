import Bess.Modules.GateList

/-!
# Round robin over output gates

`modules/round_robin.cc` sends packets, or batches, to the entries of a list of gates in turn. The
position survives a change of the list: after a change to a shorter list it may be behind the last
entry, and the next packet goes to an entry of a former list. A list with an invalid gate is refused
after a part of it was stored.
-/

namespace Bess.Modules

structure RoundRobin where
  gates : Gates
  ngates : Nat
  currentGate : Nat
  perPacket : Bool

namespace RoundRobin

def maxRrGates : Nat := 16384

def tooManyGates : Failure := .msg EINVAL "no more than 16384 gates"

def commandSetGates (s : RoundRobin) (arg : List Int) : Option Failure × RoundRobin :=
  if maxRrGates < arg.length then (some tooManyGates, s)
  else
    match storeGates GateList.isValidGate s.gates 0 arg with
    | (gates, some g) => (some (.msg EINVAL ("invalid gate " ++ toString g.toNat)), { s with gates })
    | (gates, none) => (none, { s with gates, ngates := arg.length })

def invalidMode : Failure := .msg EINVAL "argument must be either 'packet' or 'batch'"

def commandSetMode (s : RoundRobin) (mode : String) : Option Failure × RoundRobin :=
  if mode = "packet" then (none, { s with perPacket := true })
  else if mode = "batch" then (none, { s with perPacket := false })
  else (some invalidMode, s)

def fresh : RoundRobin := ⟨fun _ => 0, 0, 0, false⟩

/-- `Init` makes the checks of both commands; without a mode batches are sent. -/
def init (gates : List Int) (mode : String) : Except Failure RoundRobin :=
  match fresh.commandSetGates gates with
  | (some e, _) => .error e
  | (none, s) =>
    if mode = "" then .ok s
    else
      match s.commandSetMode mode with
      | (some e, _) => .error e
      | (none, s) => .ok s

/-- A packet, or a batch, was sent to the gate at this position of `gates_`. -/
structure Sent where
  pos : Nat
  gate : Gate
  deriving DecidableEq

def sent (s : RoundRobin) : Sent := ⟨s.currentGate, s.gates s.currentGate⟩

/-- `if (++current_gate_ >= ngates_) current_gate_ = 0` -/
def advance (s : RoundRobin) : RoundRobin :=
  { s with currentGate := if s.ngates ≤ s.currentGate + 1 then 0 else s.currentGate + 1 }

/-- The next `n` decisions. -/
def send (s : RoundRobin) : Nat → List Sent × RoundRobin
  | 0 => ([], s)
  | n + 1 =>
    let (rest, s') := s.advance.send n
    (s.sent :: rest, s')

/-- How many decisions a batch of `cnt` packets asks for. -/
def owed (s : RoundRobin) (cnt : Nat) : Nat := if s.perPacket then cnt else 1

/-- How many decisions are made for a batch. Without gates its packets are freed. -/
def decisions (s : RoundRobin) (cnt : Nat) : Nat := if s.ngates = 0 then 0 else s.owed cnt

/-- A batch of `cnt` packets. -/
def processBatch (s : RoundRobin) (cnt : Nat) : List Sent × RoundRobin := s.send (s.decisions cnt)

/-! ## Histories -/

inductive Op
  | setGates (arg : List Int)
  | setMode (mode : String)
  | batch (cnt : Nat)

def step (s : RoundRobin) : Op → List Sent × RoundRobin
  | .setGates arg => ([], (s.commandSetGates arg).2)
  | .setMode mode => ([], (s.commandSetMode mode).2)
  | .batch cnt => s.processBatch cnt

/-- The decisions for each operation. -/
def later (s : RoundRobin) : List Op → List (List Sent)
  | [] => []
  | op :: ops => (s.step op).1 :: later (s.step op).2 ops

/-- Decisions that take the entries of the list in turn, from position `pos` on if it is given. -/
def InTurn (list : List Int) : Option Nat → List Sent → Prop
  | _, [] => True
  | pos, x :: xs =>
    (∀ p, pos = some p → x.pos = p) ∧ x.pos < list.length ∧
      list.getD x.pos 0 = x.gate.toNat ∧ InTurn list (some ((x.pos + 1) % list.length)) xs

/-- The position that follows the last decision. -/
def turn (list : List Int) (pos : Option Nat) (xs : List Sent) : Option Nat :=
  match xs.getLast? with
  | none => pos
  | some x => some ((x.pos + 1) % list.length)

/-- The list of a request, if it is accepted, and the position of the next decision, if one has been
made with this list. -/
def expected (s : RoundRobin) (list : List Int) (pos : Option Nat) : Op → List Int × Option Nat
  | .setGates arg => if (s.commandSetGates arg).1 = none then (arg, none) else (list, pos)
  | .setMode _ => (list, pos)
  | .batch cnt => (list, turn list pos (s.processBatch cnt).1)

/-- Every packet, or batch, of a history gets a decision, all decisions are in turn with the last
accepted list, and a list that is refused makes no difference to later decisions. -/
def Right (s : RoundRobin) (list : List Int) (pos : Option Nat) : List Op → Prop
  | [] => True
  | op :: ops =>
    InTurn list pos (s.step op).1 ∧
    (∀ cnt, op = .batch cnt → (s.step op).1.length = s.owed cnt) ∧
    (∀ arg, op = .setGates arg → (s.commandSetGates arg).1 ≠ none →
      ∀ ops, later (s.step op).2 ops = later s ops) ∧
    Right (s.step op).2 (s.expected list pos op).1 (s.expected list pos op).2 ops

/-- When a decision is asked for the position is inside of the list and the entry fits in 16 bits. -/
def InRange (s : RoundRobin) (list : List Int) (n : Nat) : Prop :=
  ∀ k < n, s.currentGate < list.length ∧
    list.getD ((s.currentGate + k) % list.length) 0 =
      (gateIdx (list.getD ((s.currentGate + k) % list.length) 0)).toNat

/-- The entries that later decisions may read: those in use, and the one at the current position. -/
def Readable (s : RoundRobin) (k : Nat) : Prop := k < s.ngates ∨ k = s.currentGate ∧ k ≠ 0

/-- What the operations must not do. -/
def Kept (s : RoundRobin) (list : List Int) : List Op → Prop
  | [] => True
  | op :: ops =>
    (∀ cnt, op = .batch cnt → InRange s list (s.owed cnt)) ∧
    (∀ arg, op = .setGates arg → arg.length ≤ maxRrGates → (s.commandSetGates arg).1 ≠ none →
      ∀ k < stored GateList.isValidGate arg, s.Readable k → gateIdx (arg.getD k 0) = s.gates k) ∧
    Kept (s.step op).2 (s.expected list none op).1 ops

variable {s t : RoundRobin} {list arg : List Int} {pos : Option Nat} {k n : Nat}

/-! ## What a request does to the entries -/

theorem commandSetGates_cases (s : RoundRobin) (arg : List Int) :
    (maxRrGates < arg.length ∧ s.commandSetGates arg = (some tooManyGates, s)) ∨
    ∃ e, arg.length ≤ maxRrGates ∧
      ((e ≠ none ∧ s.commandSetGates arg =
        (e, { s with gates := (storeGates GateList.isValidGate s.gates 0 arg).1 })) ∨
      (e = none ∧ (storeGates GateList.isValidGate s.gates 0 arg).2 = none ∧ s.commandSetGates arg =
        (e, { s with
          gates := (storeGates GateList.isValidGate s.gates 0 arg).1, ngates := arg.length }))) := by
  unfold commandSetGates
  split
  · exact .inl ⟨‹_›, rfl⟩
  · refine .inr ?_
    split
    · rename_i hs
      exact ⟨_, by omega, .inl ⟨Option.some_ne_none _, by rw [hs]⟩⟩
    · rename_i hs
      exact ⟨none, by omega, .inr ⟨rfl, by rw [hs], by rw [hs]⟩⟩

/-- Two states that differ in the entries alone, and not in those that may be read. -/
structure Alike (s t : RoundRobin) : Prop where
  ngates : t.ngates = s.ngates
  currentGate : t.currentGate = s.currentGate
  perPacket : t.perPacket = s.perPacket
  gates : ∀ k, s.Readable k → t.gates k = s.gates k

theorem storeGates_congr {g g' : Gates} (h : g' k = g k) :
    (storeGates GateList.isValidGate g' 0 arg).1 k =
      (storeGates GateList.isValidGate g 0 arg).1 k := by
  rw [storeGates_apply, storeGates_apply, h]

theorem snd_storeGates (g g' : Gates) (arg : List Int) :
    (storeGates GateList.isValidGate g' 0 arg).2 = none ↔
      (storeGates GateList.isValidGate g 0 arg).2 = none := by
  rw [storeGates_none_iff, storeGates_none_iff]

theorem Alike.commandSetGates (h : Alike s t) (arg : List Int) :
    Alike (s.commandSetGates arg).2 (t.commandSetGates arg).2 := by
  have hnone := snd_storeGates s.gates t.gates arg
  unfold RoundRobin.commandSetGates
  split
  · exact h
  · rcases hs : storeGates GateList.isValidGate s.gates 0 arg with ⟨gs, es⟩
    rcases ht : storeGates GateList.isValidGate t.gates 0 arg with ⟨gt, et⟩
    have hgs : (storeGates GateList.isValidGate s.gates 0 arg).1 = gs := by rw [hs]
    have hgt : (storeGates GateList.isValidGate t.gates 0 arg).1 = gt := by rw [ht]
    rw [hs, ht] at hnone
    have hkeep : ∀ k, t.gates k = s.gates k → gt k = gs k := fun k hk => by
      rw [← hgs, ← hgt]
      exact storeGates_congr hk
    cases es with
    | some e =>
      cases et with
      | none => exact absurd (hnone.mp rfl) (Option.some_ne_none e)
      | some e' =>
        exact ⟨h.ngates, h.currentGate, h.perPacket, fun k hk => hkeep k (h.gates k hk)⟩
    | none =>
      cases et with
      | some e => exact absurd (hnone.mpr rfl) (Option.some_ne_none e)
      | none =>
        refine ⟨rfl, h.currentGate, h.perPacket, fun k hk => ?_⟩
        by_cases hlt : k < arg.length
        · have hsnone : (storeGates GateList.isValidGate s.gates 0 arg).2 = none := by rw [hs]
          have htnone : (storeGates GateList.isValidGate t.gates 0 arg).2 = none := by rw [ht]
          have h1 := storeGates_accepted hsnone hlt
          have h2 := storeGates_accepted htnone hlt
          rw [hs] at h1
          rw [ht] at h2
          exact h2.trans h1.symm
        · exact hkeep k (h.gates k (.inr (hk.resolve_left hlt)))

theorem Alike.commandSetMode (h : Alike s t) (mode : String) :
    Alike (s.commandSetMode mode).2 (t.commandSetMode mode).2 := by
  unfold RoundRobin.commandSetMode
  split
  · exact ⟨h.ngates, h.currentGate, rfl, h.gates⟩
  split
  · exact ⟨h.ngates, h.currentGate, rfl, h.gates⟩
  · exact h

theorem Alike.advance (h : Alike s t) (hpos : s.ngates ≠ 0) : Alike s.advance t.advance := by
  refine ⟨h.ngates, by simp only [RoundRobin.advance, h.ngates, h.currentGate], h.perPacket,
    fun k hk => h.gates k (.inl ?_)⟩
  rcases hk with hk | ⟨hk, -⟩
  · exact hk
  · simp only [RoundRobin.advance] at hk
    split at hk <;> omega

theorem Alike.sent (h : Alike s t) (hpos : s.ngates ≠ 0) : t.sent = s.sent := by
  have hread : s.Readable s.currentGate := by
    unfold Readable
    omega
  rw [RoundRobin.sent, RoundRobin.sent, h.currentGate, h.gates _ hread]

theorem Alike.send (h : Alike s t) (hpos : s.ngates ≠ 0) (n : Nat) :
    (t.send n).1 = (s.send n).1 ∧ Alike (s.send n).2 (t.send n).2 := by
  induction n generalizing s t with
  | zero => exact ⟨rfl, h⟩
  | succ n ih =>
    obtain ⟨h1, h2⟩ := ih (h.advance hpos) hpos
    simp only [RoundRobin.send, h.sent hpos, h1]
    exact ⟨trivial, h2⟩

theorem Alike.decisions (h : Alike s t) (cnt : Nat) : t.decisions cnt = s.decisions cnt := by
  rw [RoundRobin.decisions, RoundRobin.decisions, owed, owed, h.ngates, h.perPacket]

theorem Alike.step (h : Alike s t) (op : Op) :
    (t.step op).1 = (s.step op).1 ∧ Alike (s.step op).2 (t.step op).2 := by
  cases op with
  | setGates arg => exact ⟨rfl, h.commandSetGates arg⟩
  | setMode mode => exact ⟨rfl, h.commandSetMode mode⟩
  | batch cnt =>
    simp only [RoundRobin.step, processBatch, h.decisions]
    by_cases hpos : s.ngates = 0
    · rw [RoundRobin.decisions, if_pos hpos]
      exact ⟨rfl, h⟩
    · exact h.send hpos _

theorem Alike.later (h : Alike s t) (ops : List Op) : later t ops = later s ops := by
  induction ops generalizing s t with
  | nil => rfl
  | cons op ops ih =>
    obtain ⟨h1, h2⟩ := h.step op
    rw [RoundRobin.later, RoundRobin.later, h1, ih h2]

/-! ## Every entry that may be read is read -/

/-- Batches of one packet each. -/
def singles (n : Nat) : List Op := List.replicate n (.batch 1)

theorem step_single (s : RoundRobin) (hpos : s.ngates ≠ 0) :
    s.step (.batch 1) = ([s.sent], s.advance) := by
  have hone : s.decisions 1 = 1 := by
    rw [decisions, if_neg hpos, owed, ite_self]
  rw [step, processBatch, hone]
  rfl

/-- The state after `n` decisions. -/
def advanced (s : RoundRobin) (n : Nat) : RoundRobin := advance^[n] s

theorem ngates_advanced (s : RoundRobin) (n : Nat) : (s.advanced n).ngates = s.ngates := by
  induction n generalizing s with
  | zero => rfl
  | succ n ih => exact ih s.advance

theorem gates_advanced (s : RoundRobin) (n : Nat) : (s.advanced n).gates = s.gates := by
  induction n generalizing s with
  | zero => rfl
  | succ n ih => exact ih s.advance

theorem getLast?_later_singles (s : RoundRobin) (hpos : s.ngates ≠ 0) (n : Nat) :
    (later s (singles (n + 1))).getLast? = some [(s.advanced n).sent] := by
  induction n generalizing s with
  | zero =>
    rw [singles, List.replicate_one, later, step_single s hpos]
    rfl
  | succ n ih =>
    have hrest := ih s.advance hpos
    rw [singles, List.replicate_succ, later, step_single s hpos, ← singles, List.getLast?_cons,
      hrest]
    rfl

theorem currentGate_advance (hk : s.currentGate + 1 < s.ngates) :
    s.advance.currentGate = s.currentGate + 1 := if_neg (by omega)

/-- From position zero every position of the list is reached. -/
theorem currentGate_advanced (h0 : s.currentGate = 0) (hk : k < s.ngates) :
    (s.advanced k).currentGate = k := by
  induction k with
  | zero => exact h0
  | succ k ih =>
    have hprev := ih (by omega)
    rw [advanced, Function.iterate_succ_apply', ← advanced, currentGate_advance, hprev]
    rw [hprev, ngates_advanced]
    exact hk

theorem exists_advanced_zero (s : RoundRobin) : ∃ n, (s.advanced n).currentGate = 0 := by
  obtain ⟨d, hd⟩ : ∃ d, s.ngates - s.currentGate ≤ d := ⟨_, Nat.le_refl _⟩
  induction d generalizing s with
  | zero => exact ⟨1, if_pos (by omega)⟩
  | succ d ih =>
    by_cases hlast : s.ngates ≤ s.currentGate + 1
    · exact ⟨1, if_pos hlast⟩
    · have hnext : s.advance.currentGate = s.currentGate + 1 := if_neg hlast
      obtain ⟨n, hn⟩ := ih s.advance (by rw [hnext]; simp only [advance]; omega)
      exact ⟨n + 1, hn⟩

theorem exists_advanced (hk : k < s.ngates) : ∃ n, (s.advanced n).currentGate = k := by
  obtain ⟨n, hn⟩ := exists_advanced_zero s
  refine ⟨k + n, ?_⟩
  have hsplit : s.advanced (k + n) = (s.advanced n).advanced k := Function.iterate_add_apply _ _ _ _
  rw [hsplit]
  exact currentGate_advanced hn (by rw [ngates_advanced]; exact hk)

/-- A change of entries is seen by some later decision iff one of the entries may be read. -/
theorem later_eq_iff (s : RoundRobin) (gates : Gates) :
    (∀ ops, later { s with gates } ops = later s ops) ↔
      ∀ k, s.Readable k → gates k = s.gates k := by
  constructor
  · intro h k hk
    -- the decision that reads entry `k`, in both states
    have hread : ∀ s' t' : RoundRobin, s'.ngates ≠ 0 → t'.ngates = s'.ngates →
        t'.currentGate = s'.currentGate → (∀ ops, later t' ops = later s' ops) → ∀ n,
        t'.gates (s'.advanced n).currentGate = s'.gates (s'.advanced n).currentGate := by
      intro s' t' hpos hn hc hsame n
      have hcur : (t'.advanced n).currentGate = (s'.advanced n).currentGate := by
        clear hsame hpos
        induction n generalizing s' t' with
        | zero => exact hc
        | succ n ih => exact ih s'.advance t'.advance hn (by simp only [advance, hn, hc])
      have hlast := congrArg List.getLast? (hsame (singles (n + 1)))
      rw [getLast?_later_singles s' hpos, getLast?_later_singles t' (hn.symm ▸ hpos)] at hlast
      simp only [Option.some.injEq, List.cons.injEq, and_true, sent, Sent.mk.injEq,
        gates_advanced, hcur] at hlast
      exact hlast.2
    by_cases hpos : s.ngates = 0
    · -- with an empty list, the entry at the current position is read after a list of one gate
      obtain ⟨rfl, hne⟩ := hk.resolve_left (by omega)
      have hset : ∀ s : RoundRobin, (s.commandSetGates [0]).2 =
          { s with gates := Function.update s.gates 0 0, ngates := 1 } := fun _ => rfl
      have hsame : ∀ ops, later (({ s with gates } : RoundRobin).commandSetGates [0]).2 ops =
          later (s.commandSetGates [0]).2 ops :=
        fun ops => (List.cons.inj (h (.setGates [0] :: ops))).2
      have := hread (s.commandSetGates [0]).2 (({ s with gates } : RoundRobin).commandSetGates [0]).2
        (by rw [hset]; exact Nat.one_ne_zero) rfl rfl hsame 0
      simp only [hset, advanced, Function.iterate_zero, id_eq, Function.update_of_ne hne] at this
      exact this
    · rcases hk with hk | ⟨rfl, -⟩
      · obtain ⟨n, rfl⟩ := exists_advanced hk
        exact hread s { s with gates } hpos rfl rfl h n
      · exact hread s { s with gates } hpos rfl rfl h 0
  · intro h
    exact Alike.later ⟨rfl, rfl, rfl, h⟩

theorem rejected_iff (hrej : (s.commandSetGates arg).1 ≠ none) :
    (∀ ops, later (s.commandSetGates arg).2 ops = later s ops) ↔
      (arg.length ≤ maxRrGates → ∀ k < stored GateList.isValidGate arg, s.Readable k →
        gateIdx (arg.getD k 0) = s.gates k) := by
  rcases commandSetGates_cases s arg with ⟨hlong, heq⟩ | ⟨e, hle, ⟨-, heq⟩ | ⟨hnone, -, heq⟩⟩
  · rw [heq]
    exact iff_of_true (fun _ => rfl) fun h => by omega
  · rw [heq, later_eq_iff, imp_iff_right hle]
    simp only [storeGates_eq_iff]
    exact ⟨fun h k hk hread => h k hread hk, fun h k hread hk => h k hk hread⟩
  · rw [heq] at hrej
    exact absurd hnone hrej

/-! ## Decisions in turn -/

/-- The entries in use are those of the list, and the position is the expected one. -/
structure Holds (s : RoundRobin) (list : List Int) (pos : Option Nat) : Prop where
  ngates : s.ngates = list.length
  gates : ∀ k < list.length, s.gates k = gateIdx (list.getD k 0)
  pos : ∀ p, pos = some p → s.currentGate = p

theorem currentGate_advance_mod (hc : s.currentGate < s.ngates) :
    s.advance.currentGate = (s.currentGate + 1) % s.ngates := by
  simp only [advance]
  split
  · rw [show s.currentGate + 1 = s.ngates by omega, Nat.mod_self]
  · rw [Nat.mod_eq_of_lt (by omega)]

theorem Holds.advance (h : Holds s list pos) (hc : s.currentGate < list.length) :
    Holds s.advance list (some ((s.currentGate + 1) % list.length)) := by
  refine ⟨h.ngates, h.gates, fun p hp => ?_⟩
  cases hp
  rw [currentGate_advance_mod (h.ngates.symm ▸ hc), h.ngates]

theorem Holds.inTurn_send_iff (h : Holds s list pos) (n : Nat) :
    InTurn list pos (s.send n).1 ↔ InRange s list n := by
  induction n generalizing s pos with
  | zero => exact iff_of_true trivial fun k hk => absurd hk (Nat.not_lt_zero k)
  | succ n ih =>
    simp only [send, InTurn]
    constructor
    · rintro ⟨-, hc, hfit, hrest⟩ k hk
      have hc : s.currentGate < list.length := hc
      have hadv := h.advance hc
      refine ⟨hc, ?_⟩
      cases k with
      | zero =>
        rw [Nat.add_zero, Nat.mod_eq_of_lt hc, ← h.gates _ hc]
        exact hfit
      | succ k =>
        have := ((ih hadv).mp hrest k (by omega)).2
        rw [currentGate_advance_mod (h.ngates.symm ▸ hc), h.ngates, Nat.mod_add_mod] at this
        rwa [Nat.add_comm k 1, ← Nat.add_assoc]
    · intro hin
      obtain ⟨hc, hfit⟩ := hin 0 (by omega)
      rw [Nat.add_zero, Nat.mod_eq_of_lt hc, ← h.gates _ hc] at hfit
      have hadv := h.advance hc
      refine ⟨fun p hp => h.pos p hp, hc, hfit, (ih hadv).mpr fun k hk => ?_⟩
      have hlt : s.advance.currentGate < list.length := by
        rw [currentGate_advance_mod (h.ngates.symm ▸ hc), h.ngates]
        exact Nat.mod_lt _ (by omega)
      refine ⟨hlt, ?_⟩
      have := (hin (k + 1) (by omega)).2
      rw [currentGate_advance_mod (h.ngates.symm ▸ hc), h.ngates, Nat.mod_add_mod]
      rwa [Nat.add_comm k 1, ← Nat.add_assoc] at this

theorem length_send (s : RoundRobin) (n : Nat) : (s.send n).1.length = n := by
  induction n generalizing s with
  | zero => rfl
  | succ n ih => exact congrArg (· + 1) (ih s.advance)

/-- A batch is sent in turn and as a whole iff what it asks for is in range; without gates nothing
is. -/
theorem Holds.batch_iff (h : Holds s list pos) (cnt : Nat) :
    InTurn list pos (s.processBatch cnt).1 ∧ (s.processBatch cnt).1.length = s.owed cnt ↔
      InRange s list (s.owed cnt) := by
  rw [processBatch, h.inTurn_send_iff, length_send, decisions]
  split
  · rename_i hnone
    rw [h.ngates] at hnone
    constructor
    · rintro ⟨-, hlen⟩
      exact hlen ▸ fun k hk => absurd hk (Nat.not_lt_zero k)
    · intro hin
      have hzero : s.owed cnt = 0 := by
        by_contra hpos
        have hlt := (hin 0 (Nat.pos_of_ne_zero hpos)).1
        omega
      rw [hzero] at hin ⊢
      exact ⟨hin, rfl⟩
  · exact and_iff_left rfl

theorem Holds.send (h : Holds s list pos) (hin : InRange s list n) :
    Holds (s.send n).2 list (turn list pos (s.send n).1) := by
  induction n generalizing s pos with
  | zero => exact h
  | succ n ih =>
    have hturn := h.inTurn_send_iff (n + 1) |>.mpr hin
    obtain ⟨hc, -⟩ := hin 0 (by omega)
    have hadv := h.advance hc
    have hrest := ih hadv ((hadv.inTurn_send_iff n).mp hturn.2.2.2)
    have hlast : turn list pos (s.send (n + 1)).1 =
        turn list (some ((s.currentGate + 1) % list.length)) (s.advance.send n).1 := by
      simp only [RoundRobin.send, turn, List.getLast?_cons]
      cases (s.advance.send n).1.getLast? <;> rfl
    rw [hlast]
    exact hrest

theorem Holds.setGates (h : Holds s list pos) (arg : List Int)
    (hkept : arg.length ≤ maxRrGates → (s.commandSetGates arg).1 ≠ none →
      ∀ k < stored GateList.isValidGate arg, s.Readable k → gateIdx (arg.getD k 0) = s.gates k) :
    Holds (s.commandSetGates arg).2 (s.expected list pos (.setGates arg)).1
      (s.expected list pos (.setGates arg)).2 := by
  rcases commandSetGates_cases s arg with ⟨-, heq⟩ | ⟨e, hle, ⟨hne, heq⟩ | ⟨hnone, hacc, heq⟩⟩
  · simp only [expected, heq, reduceCtorEq, if_false]
    exact h
  · rw [heq] at hkept
    simp only [expected, heq, if_neg hne]
    refine ⟨h.ngates, fun k hk => ?_, h.pos⟩
    rw [← h.gates k hk]
    exact storeGates_eq_iff.mpr fun hst => hkept hle hne k hst (.inl (h.ngates.symm ▸ hk))
  · simp only [expected, heq, if_pos hnone]
    exact ⟨rfl, fun k hk => storeGates_accepted hacc hk, fun p hp => by cases hp⟩

theorem Holds.setMode (h : Holds s list pos) (mode : String) :
    Holds (s.commandSetMode mode).2 list pos := by
  unfold commandSetMode
  split
  · exact ⟨h.ngates, h.gates, h.pos⟩
  split
  · exact ⟨h.ngates, h.gates, h.pos⟩
  · exact h

theorem fst_expected (s : RoundRobin) (list : List Int) (pos : Option Nat) (op : Op) :
    (s.expected list none op).1 = (s.expected list pos op).1 := by
  cases op with
  | setGates arg =>
    simp only [expected]
    split <;> rfl
  | setMode mode => rfl
  | batch cnt => rfl

theorem Holds.right_iff (h : Holds s list pos) (ops : List Op) :
    Right s list pos ops ↔ Kept s list ops := by
  induction ops generalizing s list pos with
  | nil => exact Iff.rfl
  | cons op ops ih =>
    rw [Right, Kept, fst_expected s list pos]
    cases op with
    | setGates arg =>
      have hrej : (∀ a, Op.setGates arg = .setGates a → (s.commandSetGates a).1 ≠ none →
            ∀ ops, later (s.step (.setGates arg)).2 ops = later s ops) ↔
          ∀ a, Op.setGates arg = .setGates a → a.length ≤ maxRrGates →
            (s.commandSetGates a).1 ≠ none → ∀ k < stored GateList.isValidGate a, s.Readable k →
              gateIdx (a.getD k 0) = s.gates k := by
        constructor
        · rintro hall a ⟨⟩ hle hne
          exact (rejected_iff hne).mp (hall arg rfl hne) hle
        · rintro hall a ⟨⟩ hne
          exact (rejected_iff hne).mpr fun hle => hall arg rfl hle hne
      rw [hrej, ← and_assoc]
      refine and_congr (iff_of_true ⟨trivial, nofun⟩ nofun) ?_
      refine and_congr_right fun hkept => ih (h.setGates arg (hkept arg rfl))
    | setMode mode =>
      rw [← and_assoc]
      refine and_congr (iff_of_true ⟨trivial, nofun⟩ nofun) ?_
      exact and_congr (iff_of_true nofun nofun) (ih (h.setMode mode))
    | batch cnt =>
      have hturn : InTurn list pos (s.step (.batch cnt)).1 ∧
            (∀ c, Op.batch cnt = .batch c → (s.step (.batch cnt)).1.length = s.owed c) ↔
          ∀ c, Op.batch cnt = .batch c → InRange s list (s.owed c) := by
        constructor
        · rintro ⟨hin, hlen⟩ c ⟨⟩
          exact (h.batch_iff cnt).mp ⟨hin, hlen cnt rfl⟩
        · intro hin
          obtain ⟨hturn, hlen⟩ := (h.batch_iff cnt).mpr (hin cnt rfl)
          refine ⟨hturn, ?_⟩
          rintro c ⟨⟩
          exact hlen
      rw [← and_assoc, hturn]
      refine and_congr_right fun hin => ?_
      have hall := ((h.batch_iff cnt).mpr (hin cnt rfl)).1
      exact and_congr (iff_of_true nofun nofun) (ih (h.send ((h.inTurn_send_iff _).mp hall)))

theorem holds_init {gates : List Int} {mode : String} (h : init gates mode = .ok s) :
    Holds s gates none := by
  unfold init at h
  rcases commandSetGates_cases fresh gates with ⟨-, heq⟩ | ⟨e, -, ⟨hne, heq⟩ | ⟨rfl, hacc, heq⟩⟩
  · rw [heq] at h
    cases h
  · obtain ⟨f, rfl⟩ := Option.ne_none_iff_exists'.mp hne
    rw [heq] at h
    cases h
  · rw [heq] at h
    have hset : Holds { fresh with
        gates := (storeGates GateList.isValidGate fresh.gates 0 gates).1, ngates := gates.length }
        gates none :=
      ⟨rfl, fun k hk => storeGates_accepted hacc hk, fun p hp => by cases hp⟩
    have hmode := hset.setMode mode
    simp only at h
    split at h
    · cases h
      exact hset
    · split at h
      · cases h
      · rename_i hm
        cases h
        rw [hm] at hmode
        exact hmode

/-- For every configuration that is accepted and every history of commands and batches after it. -/
theorem history_right_iff {gates : List Int} {mode : String} (h : init gates mode = .ok s)
    (ops : List Op) : Right s gates none ops ↔ Kept s gates ops :=
  (holds_init h).right_iff ops

/-- Two gates in turn, packet by packet. -/
def pair : RoundRobin := ⟨(storeGates GateList.isValidGate (fun _ => 0) 0 [3, 4]).1, 2, 0, true⟩

theorem pair_right : init [3, 4] "packet" = .ok pair ∧ Right pair [3, 4] none [.batch 3] := by
  have hinit : init [3, 4] "packet" = .ok pair := rfl
  refine ⟨hinit, (history_right_iff hinit _).mpr ⟨?_, ?_, trivial⟩⟩
  · rintro cnt ⟨⟩ k hk
    obtain rfl | rfl | rfl : k = 0 ∨ k = 1 ∨ k = 2 := by
      have : k < 3 := hk
      omega
    all_goals decide
  · rintro arg ⟨⟩

/-- After the list is changed from 10, 11, 12 to 20, the next packet goes to gate 12; a list that is
refused for its second gate takes effect with its first; gate 65539 is accepted and is gate 3; an
empty list is accepted, and packets are freed. -/
theorem turns_lost :
    ((init [10, 11, 12] "packet").map fun s => s.later [.batch 2, .setGates [20], .batch 1]) =
      .ok [[⟨0, 10⟩, ⟨1, 11⟩], [], [⟨2, 12⟩]] ∧
    ((init [10, 11] "batch").map fun s => ((s.commandSetGates [30, 9999]).1,
      s.later [.batch 1], s.later [.setGates [30, 9999], .batch 1])) =
      .ok (some (.msg EINVAL "invalid gate 9999"), [[⟨0, 10⟩]], [[], [⟨0, 30⟩]]) ∧
    ((init [65539] "batch").map fun s => s.later [.batch 1]) = .ok [[⟨0, 3⟩]] ∧
    ((init [] "packet").map fun s => s.later [.batch 2]) = .ok [[]] :=
  ⟨rfl, rfl, rfl, rfl⟩

end RoundRobin

end Bess.Modules
