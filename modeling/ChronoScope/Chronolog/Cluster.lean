import ChronoScope.Chronolog.Raft
import Mathlib.Logic.Relation

/-!
# A cluster of Raft nodes

Nodes with fixed membership, each with a state machine and a disk, connected by
a network that may lose, duplicate, delay and reorder: a message once sent stays
available and may be delivered any number of times or never.

A node takes inputs one at a time and ends its batch with a cycle: `ready`, one
atomic durable write, `setPersisted`, sending, applying, `advance`. Compaction,
shipping a snapshot, standing down and crashing happen between cycles only,
which `busy` keeps track of. Every state in between is a state of the cluster,
so what holds of all states also holds in the middle of a batch.
-/

namespace ChronoScope.Chronolog

/-- The replicated application: how entries change it, and how it is written to
and read back from a snapshot. -/
structure StateMachine (σ : Type) where
  init : σ
  apply : σ → Entry → σ
  snapshot : σ → Bytes
  restore : Bytes → Option σ
  restore_snapshot : ∀ state, restore (snapshot state) = some state

namespace StateMachine

variable {σ : Type} (machine : StateMachine σ)

/-- The state after applying a log from the beginning. -/
def replay (entries : List Entry) : σ := entries.foldl machine.apply machine.init

/-- The image a snapshot of these entries carries. -/
def image (entries : List Entry) : Bytes := machine.snapshot (machine.replay entries)

end StateMachine

/-- What recovery would return. -/
structure Durable where
  hardState : HardState
  snapshot : Option Snapshot
  entries : List Entry
  deriving DecidableEq

namespace Durable

def empty : Durable := { hardState := .default, snapshot := none, entries := [] }

/-- The driver's durable write of a `Ready`, as one atomic action. -/
def persist (disk : Durable) (truncateTo : Option ℕ) (ready : Ready) : Durable :=
  let entries := match truncateTo with
    | some start => disk.entries.filter fun entry => decide (entry.index < start)
    | none => disk.entries
  let entries := if ready.snapshot.isSome then [] else entries
  { hardState := ready.hardState.getD disk.hardState
    snapshot := ready.snapshot.or disk.snapshot
    entries := entries ++ ready.entries }

/-- Save a snapshot and drop the entries it covers. -/
def compact (disk : Durable) (snap : Snapshot) : Durable :=
  { disk with
    snapshot := some snap
    entries := disk.entries.filter fun entry => decide (snap.lastIndex < entry.index) }

def lastIndex (disk : Durable) : ℕ :=
  (disk.entries.getLast?.map Entry.index).getD ((disk.snapshot.map Snapshot.lastIndex).getD 0)

end Durable

/-- What a node hands to its state machine. -/
inductive Handover where
  /-- A committed entry. -/
  | entry (entry : Entry)
  /-- An installed snapshot. -/
  | image (snapshot : Snapshot)
  deriving DecidableEq

structure Node (σ : Type) where
  raft : Raft
  machine : σ
  disk : Durable
  /-- Inputs were taken since the last cycle. -/
  busy : Bool

structure Envelope where
  sender : NodeId
  receiver : NodeId
  msg : Message
  deriving DecidableEq

structure Cluster (σ : Type) where
  node : NodeId → Node σ
  /-- Every message ever sent. -/
  network : List Envelope
  /-- Everything handed to a state machine so far. -/
  handed : List (NodeId × Handover)

inductive Input where
  | tick (rand : UInt64)
  | propose (data : Bytes)
  | readIndex
  | transferLeadership (target : NodeId)
  | message (sender : NodeId) (msg : Message)

inductive Action where
  | input (id : NodeId) (input : Input)
  | cycle (id : NodeId)
  | compact (id : NodeId)
  | ship (id peer : NodeId)
  | stepDown (id : NodeId)
  | restart (id : NodeId)

def Action.actor : Action → NodeId
  | .input id _ => id
  | .cycle id => id
  | .compact id => id
  | .ship id _ => id
  | .stepDown id => id
  | .restart id => id

/-- The configuration of a cluster that never changes its membership. -/
def Config.fixed (voters learners : BTreeSet NodeId) : Config :=
  { voters := voters, outgoing := ∅, learners := learners }

/-- A cluster as it is set up: membership, options and application. -/
structure Setup (σ : Type) where
  machine : StateMachine σ
  voters : BTreeSet NodeId
  learners : BTreeSet NodeId
  opts : NodeId → RaftOptions

namespace Node

variable {σ : Type}

def feed [Counting] (r : Raft) : Input → Raft
  | .tick rand => r.tick rand
  | .propose data => (r.propose data).2
  | .readIndex => r.readIndex.2
  | .transferLeadership target => (r.transferLeadership target).2
  | .message sender msg => r.step sender msg

/-- Install the snapshot of a `Ready`, if it carries one, then apply what it commits. -/
def applyReady (machine : StateMachine σ) (state : σ) (ready : Ready) : σ :=
  let state := match ready.snapshot with
    | some snap => (machine.restore snap.data).getD state
    | none => state
  ready.committed.foldl machine.apply state

def cycle (machine : StateMachine σ) (node : Node σ) : Node σ :=
  let truncateTo := node.raft.truncateTo
  let ready := node.raft.ready.1
  let disk := node.disk.persist truncateTo ready
  { raft := (node.raft.ready.2.setPersisted disk.lastIndex).advance ready
    machine := applyReady machine node.machine ready
    disk := disk
    busy := false }

/-- What a cycle hands to the state machine. -/
def handovers (ready : Ready) : List Handover :=
  (ready.snapshot.map Handover.image).toList ++ ready.committed.map Handover.entry

/-- Take a snapshot at the applied index, save it and compact. -/
def compact (machine : StateMachine σ) (node : Node σ) : Option (Node σ) :=
  (node.raft.snapshotAtApplied (machine.snapshot node.machine)).map fun snap =>
    { node with raft := node.raft.compact snap, disk := node.disk.compact snap }

def ship (machine : StateMachine σ) (node : Node σ) (peer : NodeId) : Option (Node σ) :=
  if node.raft.role = .leader then
    (node.raft.snapshotAtApplied (machine.snapshot node.machine)).map fun snap =>
      { node with raft := node.raft.sendSnapshot peer snap }
  else none

def restart (machine : StateMachine σ) (bootstrap : Config) (node : Node σ) : Node σ :=
  { raft := .restore node.raft.id node.raft.opts node.disk.hardState node.disk.snapshot
      node.disk.entries bootstrap
    machine := ((node.disk.snapshot.map Snapshot.data).bind machine.restore).getD machine.init
    disk := node.disk
    busy := false }

end Node

namespace Setup

variable {σ : Type} (setup : Setup σ)

def config : Config := .fixed setup.voters setup.learners

def initial : Cluster σ where
  node id :=
    { raft := .new id setup.config (setup.opts id)
      machine := setup.machine.init
      disk := .empty
      busy := false }
  network := []
  handed := []

/-- A message can be fed to a node only if it was sent to it. -/
def deliverable (cluster : Cluster σ) (id : NodeId) : Input → Bool
  | .message sender msg =>
    decide ({ sender := sender, receiver := id, msg := msg } ∈ cluster.network)
  | _ => true

def place (cluster : Cluster σ) (id : NodeId) (node : Node σ) : Cluster σ :=
  { cluster with node := Function.update cluster.node id node }

/-- The effect of an action, if it is possible. -/
def act (cluster : Cluster σ) : Action → Option (Cluster σ)
  | .input id input =>
    let node := cluster.node id
    if deliverable cluster id input then
      some (place cluster id { node with raft := Node.feed node.raft input, busy := true })
    else none
  | .cycle id =>
    let node := cluster.node id
    let ready := node.raft.ready.1
    some { place cluster id (node.cycle setup.machine) with
      network := cluster.network ++ ready.messages.map fun sent => ⟨id, sent.1, sent.2⟩
      handed := cluster.handed ++ (Node.handovers ready).map (id, ·) }
  | .compact id =>
    let node := cluster.node id
    if node.busy then none else (node.compact setup.machine).map (place cluster id)
  | .ship id peer =>
    let node := cluster.node id
    if node.busy then none else (node.ship setup.machine peer).map (place cluster id)
  | .stepDown id =>
    let node := cluster.node id
    if node.busy then none
    else some (place cluster id { node with raft := node.raft.stepDown })
  | .restart id =>
    let node := cluster.node id
    if node.busy then none
    else some (place cluster id (node.restart setup.machine setup.config))

/-- What an action that is possible does. -/
inductive Event (before : Cluster σ) : Action → Cluster σ → Prop where
  | input {id : NodeId} {input : Input} (delivered : deliverable before id input = true) :
      Event before (.input id input) (place before id
        { before.node id with raft := Node.feed (before.node id).raft input, busy := true })
  | cycle (id : NodeId) :
      Event before (.cycle id) { place before id ((before.node id).cycle setup.machine) with
        network := before.network ++
          (before.node id).raft.ready.1.messages.map fun sent => ⟨id, sent.1, sent.2⟩
        handed := before.handed ++
          (Node.handovers (before.node id).raft.ready.1).map (id, ·) }
  | compact {id : NodeId} {node : Node σ} (idle : (before.node id).busy = false)
      (done : (before.node id).compact setup.machine = some node) :
      Event before (.compact id) (place before id node)
  | ship {id peer : NodeId} {node : Node σ} (idle : (before.node id).busy = false)
      (done : (before.node id).ship setup.machine peer = some node) :
      Event before (.ship id peer) (place before id node)
  | stepDown {id : NodeId} (idle : (before.node id).busy = false) :
      Event before (.stepDown id) (place before id
        { before.node id with raft := (before.node id).raft.stepDown })
  | restart {id : NodeId} (idle : (before.node id).busy = false) :
      Event before (.restart id) (place before id
        ((before.node id).restart setup.machine setup.config))

theorem event_of_act {before after : Cluster σ} {action : Action}
    (acted : setup.act before action = some after) : setup.Event before action after := by
  cases action with
  | input id input =>
    simp only [act] at acted
    split_ifs at acted with delivered
    cases acted
    exact .input delivered
  | cycle id =>
    cases acted
    exact .cycle id
  | compact id =>
    simp only [act] at acted
    split_ifs at acted with busy
    rcases Option.map_eq_some_iff.mp acted with ⟨node, done, rfl⟩
    exact .compact (by simpa using busy) done
  | ship id peer =>
    simp only [act] at acted
    split_ifs at acted with busy
    rcases Option.map_eq_some_iff.mp acted with ⟨node, done, rfl⟩
    exact .ship (by simpa using busy) done
  | stepDown id =>
    simp only [act] at acted
    split_ifs at acted with busy
    cases acted
    exact .stepDown (by simpa using busy)
  | restart id =>
    simp only [act] at acted
    split_ifs at acted with busy
    cases acted
    exact .restart (by simpa using busy)

variable {setup} in
theorem Event.node_eq {before after : Cluster σ} {action : Action}
    (event : setup.Event before action after) {id : NodeId} (other : id ≠ action.actor) :
    after.node id = before.node id := by
  cases event <;> exact Function.update_of_ne other _ _

def Step (before after : Cluster σ) : Prop := ∃ action, setup.act before action = some after

def Reaches : Cluster σ → Cluster σ → Prop := Relation.ReflTransGen setup.Step

/-- Carry out a script, passing over what is not possible. -/
def play (cluster : Cluster σ) (script : List Action) : Cluster σ :=
  script.foldl (fun cluster action => (setup.act cluster action).getD cluster) cluster

theorem reaches_play (cluster : Cluster σ) (script : List Action) :
    setup.Reaches cluster (setup.play cluster script) := by
  induction script generalizing cluster with
  | nil => exact .refl
  | cons action rest ih =>
    cases acted : setup.act cluster action with
    | none => simpa [play, acted] using ih cluster
    | some next =>
      have rest := ih next
      simp only [play, List.foldl_cons, acted, Option.getD_some] at rest ⊢
      exact .head ⟨action, acted⟩ rest

end Setup

end ChronoScope.Chronolog
