import Bess.Cuckoo.Lookup
import Bess.Cuckoo.Room
import Bess.Lib.Ring
import Bess.Modules.Command
import Mathlib.Data.UInt

/-!
# Deficit round robin

`modules/drr.cc`. Packets wait in queues, one for each five-tuple. A table finds the flow of a packet,
and a ring holds the flows in the order of their turns. At its turn a flow is given a quantum of
bytes and sends packets while what it was given pays for them and the batch has room. The packet that
could not be paid for is parked in front of the queue.
-/

namespace Bess.Modules

open Bess.Cuckoo

namespace Drr

structure FlowId where
  srcIp : UInt32
  dstIp : UInt32
  srcPort : UInt32
  dstPort : UInt32
  protocol : UInt8
  deriving DecidableEq, Inhabited, Repr

/-- What the module reads from outside: packets of type `P` and points in time of type `τ`. -/
structure Env (P τ : Type) where
  pktLen : P → UInt32
  getId : P → FlowId
  hash : FlowId → BitVec 64
  /-- The `timer` of a new flow. -/
  epoch : τ
  /-- `now - timer > kTtl` -/
  expired : τ → τ → Bool

variable {P τ : Type} (E : Env P τ)

/-- `EqualTo` compares all the fields. -/
def Env.hashing : Hashing FlowId where
  eq a b := decide (a = b)
  refl a := by simp
  symm a b h := by simpa using (of_decide_eq_true h).symm
  trans a b c h h' := by
    rw [decide_eq_true_eq] at h h' ⊢
    exact h.trans h'
  hasher := E.hash
  hasher_eq a b h := by rw [of_decide_eq_true h]

/-- The value that an `int` of 32 bits keeps of an integer. -/
def toInt (x : Int) : Int := x.bmod (2 ^ 32)

/-- `total_len()` -/
def Env.totalLen (p : P) : Int := toInt (E.pktLen p).toNat

def kDefaultNumFlows : UInt32 := 4096
def kFlowQueueSize : Nat := 2048
def kQueueGrowthFactor : UInt32 := 2
def kFlowQueueMax : UInt32 := 8192
def kDefaultQuantum : UInt32 := 1500
def kPacketOverhead : UInt32 := 24

def roundToPowerTwo (v : UInt32) : UInt32 :=
  let v := v - 1
  let v := v ||| v >>> 1
  let v := v ||| v >>> 2
  let v := v ||| v >>> 4
  let v := v ||| v >>> 8
  let v := v ||| v >>> 16
  v + 1

structure Flow (P τ : Type) where
  deficit : Int
  timer : τ
  id : FlowId
  queue : Ring P
  nextPacket : Option P

/-- The packets of a flow in the order in which they are sent. -/
def Flow.packets (f : Flow P τ) : List P := f.nextPacket.toList ++ f.queue.items

/-- `llring_empty(f->queue) && !f->next_packet` -/
def Flow.isEmpty (f : Flow P τ) : Bool := f.queue.items.isEmpty && f.nextPacket.isNone

/-- Where a packet was freed. -/
inductive Cause where
  /-- `ProcessBatch`: no slot in `flow_ring_` for a new flow -/
  | flowRing
  /-- `Enqueue`: `max_queue_size_` packets in the queue -/
  | flowQueue
  /-- `Enqueue`: no slot in the queue -/
  | noSlot
  /-- `ResizeQueue`: no slot in the new queue -/
  | resize
  /-- the destructor of the flow -/
  | removed
  deriving DecidableEq, Repr

end Drr

open Drr

/-- A `Flow *` is an index into `heap`, whose used indices are below `fresh`. `freed` lists the
arguments of `Packet::Free`. -/
structure Drr (P τ : Type) where
  quantum : UInt32
  maxQueueSize : UInt32
  flows : CuckooMap FlowId Nat
  flowRing : Ring Nat
  currentFlow : Option Nat
  heap : Nat → Option (Flow P τ)
  fresh : Nat
  freed : List (P × Cause)

namespace Drr

variable {P τ : Type} (E : Env P τ)

/-- Memory does not run out. There is no ring without slots. -/
def addQueue {α : Type} (slots : Nat) : Option (Ring α) := Ring.init slots

/-- `Init` on a new module, whose task was registered. The setters refuse 0 alone, which `Init` does
not pass on. -/
def init (numFlows maxFlowQueueSize quantum : UInt32) : Option (Drr P τ) := do
  let maxNumberFlows := if numFlows ≠ 0 then roundToPowerTwo (numFlows + 1) else kDefaultNumFlows
  let flowRing ← addQueue maxNumberFlows.toNat
  some
    { quantum := if quantum ≠ 0 then quantum else kDefaultQuantum
      maxQueueSize := if maxFlowQueueSize ≠ 0 then maxFlowQueueSize else kFlowQueueMax
      flows := CuckooMap.new kInitNumBucket kInitNumEntries
      flowRing
      currentFlow := none
      heap := fun _ => none
      fresh := 0
      freed := [] }

/-! ## Arrivals -/

def resizeQueue (oldQueue : Ring P) (newSize : Nat) : Option (Ring P × List (P × Cause)) := do
  let newQueue ← addQueue newSize
  let (lost, newQueue) := Ring.pour oldQueue.items newQueue
  some (newQueue, lost.map (·, .resize))

/-- The queue with a slot for one more packet: a new one, if the old one is full. -/
def makeSlot (queue : Ring P) : Option (Ring P × List (P × Cause)) :=
  if queue.isFull then
    resizeQueue queue (roundToPowerTwo (UInt32.ofNat queue.count * kQueueGrowthFactor)).toNat
  else some (queue, [])

/-- The flow afterwards, and what was freed. -/
def enqueue (maxQueueSize : UInt32) (f : Flow P τ) (newpkt : P) (now : τ) :
    Option (Flow P τ × List (P × Cause)) :=
  if maxQueueSize.toNat ≤ f.queue.count then some (f, [(newpkt, .flowQueue)])
  else do
    let (queue, lost) ← makeSlot f.queue
    match queue.enqueue newpkt with
    | some queue => some ({ f with queue, timer := now }, lost)
    | none => some ({ f with queue }, lost ++ [(newpkt, .noSlot)])

/-- The result of `flows_.Insert` is not looked at. -/
def addNewFlow (s : Drr P τ) (pkt : P) (id : FlowId) (now : τ) : Option (Drr P τ) := do
  let queue ← addQueue kFlowQueueSize
  let (_, flows) ← s.flows.insert E.hashing id s.fresh
  let (f, lost) ← enqueue s.maxQueueSize ⟨0, E.epoch, id, queue, none⟩ pkt now
  let flowRing ← s.flowRing.enqueue s.fresh
  some { s with
    flows
    flowRing
    heap := Function.update s.heap s.fresh (some f)
    fresh := s.fresh + 1
    freed := s.freed ++ lost }

/-- One packet of `ProcessBatch`; `now` is the time read when it is put into its queue. -/
def processPacket (s : Drr P τ) (pkt : P) (now : τ) : Option (Drr P τ) :=
  let id := E.getId pkt
  match s.flows.look E.hashing id with
  | none =>
    if s.flowRing.isFull then some { s with freed := s.freed ++ [(pkt, .flowRing)] }
    else s.addNewFlow E pkt id now
  | some r => do
    let f ← s.heap r
    let (f, lost) ← enqueue s.maxQueueSize f pkt now
    some { s with heap := Function.update s.heap r (some f), freed := s.freed ++ lost }

def processBatch : Drr P τ → List (P × τ) → Option (Drr P τ)
  | s, [] => some s
  | s, (pkt, now) :: batch => do
    let s ← s.processPacket E pkt now
    s.processBatch batch

/-! ## Departures -/

/-- The table forgets the flow, and its destructor frees what is left in it. -/
def removeFlow (s : Drr P τ) (r : Nat) (f : Flow P τ) : Drr P τ :=
  { s with
    currentFlow := if s.currentFlow = some r then none else s.currentFlow
    flows := (s.flows.remove E.hashing f.id).2
    heap := Function.update s.heap r none
    freed := s.freed ++ (f.queue.items ++ f.nextPacket.toList).map (·, .removed) }

/-- The flow whose turn it is. There is none for this turn if it has no packets. -/
def getNextFlow (s : Drr P τ) (now : τ) : Option (Drr P τ × Option Nat) :=
  match s.currentFlow with
  | some r => some ({ s with currentFlow := none }, some r)
  | none => do
    let (r, flowRing) ← s.flowRing.dequeue
    let s := { s with flowRing }
    let f ← s.heap r
    if f.isEmpty then
      if E.expired now f.timer then some (s.removeFlow E r f, none)
      else do
        let flowRing ← s.flowRing.enqueue r
        some ({ s with flowRing }, none)
    else
      let f := { f with deficit := toInt (f.deficit + s.quantum.toNat) }
      some ({ s with heap := Function.update s.heap r (some f) }, some r)

/-- The next packet of a flow, taken out of it. -/
def Flow.next (f : Flow P τ) : Option (P × Flow P τ) :=
  match f.nextPacket with
  | some pkt => some (pkt, { f with nextPacket := none })
  | none => f.queue.dequeue.map fun x => (x.1, { f with queue := x.2 })

/-- The packets that a flow sends into a batch with room for `room` packets. -/
def getNextPackets : Nat → Flow P τ → Flow P τ × List P
  | 0, f => (f, [])
  | room + 1, f =>
    match f.next with
    | none => (f, [])
    | some (pkt, f) =>
      if f.deficit < E.totalLen pkt then ({ f with nextPacket := some pkt }, [])
      else
        let rest := getNextPackets room { f with deficit := toInt (f.deficit - E.totalLen pkt) }
        (rest.1, pkt :: rest.2)

/-- The body of the loop of `GetNextBatch` behind `count--`. An error ends in the assertion of
`RunTask`. -/
def visit (s : Drr P τ) (batch : List P) (now : τ) : Option (Drr P τ × List P) := do
  let (s, next) ← s.getNextFlow E now
  match next with
  | none => some (s, batch)
  | some r => do
    let f ← s.heap r
    let (f, pkts) := getNextPackets E (maxBurst - batch.length) f
    let f := if f.isEmpty then { f with deficit := 0 } else f
    let s := { s with heap := Function.update s.heap r (some f) }
    if f.nextPacket.all fun pkt => f.deficit < E.totalLen pkt then do
      let flowRing ← s.flowRing.enqueue r
      some ({ s with flowRing }, batch ++ pkts)
    else some ({ s with currentFlow := some r }, batch ++ pkts)

/-- The variables of the loop of `GetNextBatch`, and how often the time was read. -/
structure Loop (P τ : Type) where
  drr : Drr P τ
  count : Nat
  batchSize : Nat
  batch : List P
  reads : Nat

/-- The state in which `GetNextFlow` is called next, or `none` at the end of the loop. -/
def Loop.turn (l : Loop P τ) : Option (Loop P τ) :=
  if maxBurst ≤ l.batch.length then none
  else if l.count = 0 then
    if l.batchSize = l.batch.length then none
    else some { l with count := l.drr.flowRing.count - 1, batchSize := l.batch.length }
  else some { l with count := l.count - 1 }

def Loop.iterate (clock : Nat → τ) : Nat → Loop P τ → Option (Loop P τ)
  | 0, _ => none
  | fuel + 1, l =>
    match l.turn with
    | none => some l
    | some l => do
      let (drr, batch) ← l.drr.visit E l.batch (clock l.reads)
      Loop.iterate clock fuel { l with drr, batch, reads := l.reads + 1 }

/-- The loop of `GetNextBatch` on an empty batch. -/
def firstLoop (s : Drr P τ) : Loop P τ where
  drr := s
  count := s.flowRing.count + if s.currentFlow.isSome then 1 else 0
  batchSize := 0
  batch := []
  reads := 0

/-- No turn is without effect on `count` or `batchSize`, so the loop ends within this many. -/
def Loop.fuel (l : Loop P τ) : Nat := (maxBurst + 1) * (l.count + 1)

def getNextBatch (s : Drr P τ) (clock : Nat → τ) : Option (Drr P τ × List P) := do
  let l ← Loop.iterate E clock s.firstLoop.fuel s.firstLoop
  some (l.drr, l.batch)

def totalBytes (batch : List P) : UInt32 := (batch.map E.pktLen).sum

/-- The state afterwards, the batch that is handed on, if any, and the result of the task. -/
def runTask (s : Drr P τ) (overload : Bool) (clock : Nat → τ) :
    Option (Drr P τ × Option (List P) × TaskResult) :=
  if overload then some (s, none, ⟨true, 0, 0⟩)
  else do
    let (s, batch) ← s.getNextBatch E clock
    let bytes := totalBytes E batch
    some (s, if 0 < bytes then some batch else none,
      { block := batch.isEmpty
        packets := batch.length
        bits := ((bytes + UInt32.ofNat batch.length * kPacketOverhead) * 8).toNat })

end Drr

end Bess.Modules
