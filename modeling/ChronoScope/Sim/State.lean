import ChronoScope.Sim.Disk
import Mathlib.Data.Prod.Lex
import Mathlib.Data.String.Basic

/-!
# The state of a simulation

Everything a run consists of: the nodes with their files, the tasks, the timers
that are pending, the links that are cut, and what was recorded. Tasks themselves
are not modelled. All that is assumed of them is that they are functions of the
state they find (`Runtime`).
-/

namespace ChronoScope.Sim

abbrev NodeId := ℕ

abbrev TaskId := ℕ

/-- What the kernel is made of: the futures of tasks, the generator, the recorder, the heap of
timers, and whatever else tasks share with it or with each other. -/
structure Parts where
  Future : Type
  Rng : Type
  Recorder : Type
  Heap : Type
  Rest : Type

/-- Shared between a pending future and the timer that will complete it. -/
structure TimerSlot where
  fired : Bool
  waker : Option TaskId

inductive Action where
  /-- A sleep or an I/O completion. -/
  | fire (slot : ℕ)
  | deliver (sender receiver : NodeId) (msg : ℕ) (payload : List UInt8)
  | chaosTick
  | restart (node : NodeId)
  | heal (links : List (NodeId × NodeId))
  | resume (node : NodeId)

structure Timer where
  /-- When it is to be fired. -/
  due : ℕ
  seq : ℕ
  action : Action

structure Envelope where
  sender : NodeId
  receiver : NodeId
  payload : List UInt8
  msgId : ℕ

inductive Role where
  | server
  | client
  deriving DecidableEq

structure NodeState where
  role : Role
  up : Bool
  paused : Bool
  mailbox : List Envelope
  recvWaiters : List TaskId
  files : Disk String
  /-- How far its wall clock is ahead of virtual time. -/
  skew : ℤ
  boots : ℕ

structure TaskSlot (P : Parts) where
  node : NodeId
  /-- Absent while the task is being polled. -/
  fut : Option P.Future

structure Stats where
  polls : ℕ
  msgsDelivered : ℕ
  msgsDropped : ℕ
  tornWrites : ℕ
  lostWrites : ℕ
  crashes : ℕ
  restarts : ℕ
  partitions : ℕ
  pauses : ℕ
  events : ℕ

inductive Event where
  | boot (node : NodeId)
  | restart (node : NodeId)
  | poll (node : NodeId) (task : TaskId)
  | taskDone (node : NodeId) (task : TaskId)
  | deliver (sender receiver : NodeId) (msg len : ℕ)
  | droppedNodeDown (sender receiver : NodeId) (msg : ℕ)
  | lostWrite (node : NodeId) (file offset len : ℕ)
  | tornWrite (node : NodeId) (file offset kept total : ℕ)
  | crash (node : NodeId)
  | partition (a b : NodeId) (oneWay : Bool)
  | heal (a b : NodeId)
  | pause (node : NodeId) (resumed : ℕ)
  | resume (node : NodeId)
  | clockStep (node : NodeId) (delta : ℤ)

/-- Buckets with a weight, from which a number between two bounds is drawn. -/
structure LatencyDist where
  buckets : List (ℕ × ℕ × ℕ)

structure DiskPolicy where
  sectorSize : ℕ
  tornWritePpm : ℕ
  lostWritePpm : ℕ

structure ClockPolicy where
  stepPpmPerSec : ℕ
  maxStep : ℕ

structure ChaosPolicy where
  partitionPpmPerSec : ℕ
  partitionDuration : LatencyDist
  /-- How many of the partitions are one-way. -/
  asymmetricPpm : ℕ
  crashPpmPerSec : ℕ
  restartDelay : LatencyDist
  pausePpmPerSec : ℕ
  pauseDuration : LatencyDist
  /-- A crash never leaves fewer servers up than this. -/
  minAlive : ℕ

structure FaultPolicy where
  disk : DiskPolicy
  clock : ClockPolicy
  chaos : ChaosPolicy
  /-- The time between two ticks of the fault injector. -/
  chaosTick : ℕ

structure Kernel (P : Parts) where
  now : ℕ
  seq : ℕ
  timers : P.Heap
  tasks : BTreeMap TaskId (TaskSlot P)
  ready : BTreeSet TaskId
  current : Option TaskId
  rng : P.Rng
  trace : P.Recorder
  nodes : BTreeMap NodeId NodeState
  /-- Directed, counted so that overlapping partitions heal independently. -/
  blocked : BTreeMap (NodeId ×ₗ NodeId) ℕ
  slots : BTreeMap ℕ TimerSlot
  stats : Stats
  policy : FaultPolicy
  chaosOn : Bool
  stop : Bool
  /-- Set when a task panics. -/
  panicMsg : Option (NodeId × String)
  rest : P.Rest

inductive Polled (F : Type) where
  | ready
  | pending (fut : F)
  | panicked (message : String)

/-- What the loop relies on. All of it is deterministic. -/
structure Runtime (P : Parts) where
  /-- A draw below a bound. -/
  below : P.Rng → ℕ → ℕ × P.Rng
  record : P.Recorder → ℕ → ℕ → Event → P.Recorder
  peek : P.Heap → Option Timer
  pop : P.Heap → Option (Timer × P.Heap)
  push : P.Heap → Timer → P.Heap
  /-- What can be seen at the top of the heap can be taken from it. -/
  pop_of_peek : ∀ heap timer, peek heap = some timer → ∃ rest, pop heap = some (timer, rest)
  poll : TaskId → P.Future → Kernel P → Polled P.Future × Kernel P
  /-- Run the entry point of a node. -/
  boot : NodeId → Kernel P → Kernel P
  /-- The number of a file, a hash of its name. -/
  fileId : String → ℕ

namespace Kernel

variable {P : Parts} (rt : Runtime P)

def record (kernel : Kernel P) (event : Event) : Kernel P :=
  { kernel with
    stats := { kernel.stats with events := kernel.stats.events + 1 }
    trace := rt.record kernel.trace kernel.now kernel.seq event }

/-- Schedule an action; the time saturates. -/
def schedule (kernel : Kernel P) (delay : ℕ) (action : Action) : Kernel P :=
  let seq := kernel.seq + 1
  { kernel with
    seq := seq
    timers := rt.push kernel.timers
      { due := min (kernel.now + delay) (2 ^ 64 - 1), seq := seq, action := action } }

end Kernel

end ChronoScope.Sim
