import ChronoScope.Chronolog.Crashes
import ChronoScope.Chronolog.JointConsensus

/-!
# What replicas have in common

All nodes of a cluster replay one history, however they came by it: entry by entry, from a
snapshot or from their disks after a crash, and whatever becomes of the membership meanwhile.
A leader only ever adds to it, and no node forgets what it knew to be committed. Nodes may crash
at any time but in the middle of a cycle, which is durable as a whole.
-/

namespace ChronoScope.Chronolog

open List

open Consensus (State)

variable {σ : Type}

/-- The applications of the two nodes have replayed parts of one and the same history: where as
much was applied, they are in the same state. -/
def OneHistory (machine : StateMachine σ) (left right : Node σ) : Prop :=
  ∃ history, Log.Indexed 0 history ∧ ∀ node ∈ [left, right],
    node.raft.applied ≤ history.length ∧
      node.machine = machine.replay (history.take node.raft.applied)

namespace Simulates

variable {setup : Setup σ} {roster : Roster} {early late : Cluster σ}
  {state after : State NodeId Entry}

/-- Unless a snapshot waits to be installed, a node has replayed what it applied, and all of it is
certified. -/
theorem replayed (simulates : Simulates setup roster early state) {id : NodeId}
    (noneWaits : (early.node id).raft.pending.snapshot = none) :
    ∃ term done, state.Certified term done ∧ done.length = (early.node id).raft.applied ∧
      Log.Indexed 0 done ∧ (early.node id).machine = setup.machine.replay done := by
  have tracks := simulates.tracks id
  have bound := tracks.applied_commit.trans (tracks.commit_le simulates.inv)
  refine ⟨_, _, (tracks.certified simulates.inv).of_isPrefix
    (take_prefix_take_left tracks.applied_commit), ?_, tracks.log.indexed.take _,
    tracks.image noneWaits⟩
  rw [length_take, Nat.min_eq_left bound]

theorem oneHistory (simulates : Simulates setup roster early state)
    (simulates' : Simulates setup roster late after) (grows : state.Grows after)
    {left right : NodeId} (leftNone : (early.node left).raft.pending.snapshot = none)
    (rightNone : (late.node right).raft.pending.snapshot = none) :
    OneHistory setup.machine (early.node left) (late.node right) := by
  rcases simulates.replayed leftNone with ⟨_, ours, ourCertified, ourLength, ourIndexed, ourImage⟩
  rcases simulates'.replayed rightNone with
    ⟨_, theirs, theirCertified, theirLength, theirIndexed, theirImage⟩
  simp only [OneHistory, forall_mem_cons, ← ourLength, ← theirLength, ourImage, theirImage]
  rcases simulates'.inv.certified_comparable (grows.certified simulates.inv ourCertified)
    theirCertified with below | below
  · refine ⟨theirs, theirIndexed, ⟨below.length_le, ?_⟩, ⟨le_rfl, by rw [take_length]⟩, by simp⟩
    rw [← prefix_iff_eq_take.mp below]
  · refine ⟨ours, ourIndexed, ⟨le_rfl, by rw [take_length]⟩, ⟨below.length_le, ?_⟩, by simp⟩
    rw [← prefix_iff_eq_take.mp below]

/-- A node stays in its term or goes on to a later one, and its log keeps what was committed. -/
theorem lasting (simulates : Simulates setup .fixed early state)
    (reached : setup.Reaches early late) (id : NodeId) :
    ∃ after, Simulates setup .fixed late after ∧ state.Grows after ∧
      state.term id ≤ after.term id ∧ (state.log id).take (state.commit id) <+: after.log id := by
  induction reached with
  | refl => exact ⟨state, simulates, .refl state, le_rfl, take_prefix ..⟩
  | tail _ step ih =>
    rcases ih with ⟨middle, simulates', grows, notLater, held⟩
    rcases step with ⟨action, acted⟩
    rcases simulates'.event (setup.event_of_act acted) (Or.inl rfl) with
      ⟨after, steps, simulates''⟩
    have certified := grows.certified simulates.inv (simulates.inv.commit_certified id).2
    exact ⟨after, simulates'', grows.trans (steps.grows simulates'.inv),
      notLater.trans (steps.term_le id),
      steps.isPrefix_of_certified simulates'.inv certified notLater held⟩

end Simulates

namespace ThreeNodes

/-- Node 1 stands for term 2. -/
def standing : Cluster Bytes := setup.play afterCommit [.input 1 (.tick 0), .input 1 (.tick 0)]

/-- It crashes before it has made that durable. -/
def afterCrash : Cluster Bytes :=
  Setup.place standing 1 ((standing.node 1).restart setup.machine setup.config)

theorem endures_crash : setup.Endures afterCommit afterCrash :=
  (Setup.Reaches.endures (setup.reaches_play _ _)).tail (Or.inr ⟨1, rfl⟩)

end ThreeNodes

/-- At any two moments of a run, any two nodes between cycles have replayed one history. -/
theorem replicas_replay_one_history (setup : Setup σ) {early late : Cluster σ}
    (earlyReached : setup.Endures setup.initial early) (lateReached : setup.Endures early late)
    {left right : NodeId} (leftIdle : (early.node left).busy = false)
    (rightIdle : (late.node right).busy = false) :
    OneHistory setup.machine (early.node left) (late.node right) := by
  rcases setup.rollback.reaches_since earlyReached lateReached with
    ⟨since, sinceReached, same, reached⟩
  rcases (Simulates.initial setup .fixed).run sinceReached with ⟨state, _, simulates⟩
  rcases simulates.run reached with ⟨after, grows, simulates'⟩
  have sameLeft := same left leftIdle
  rw [← sameLeft] at leftIdle ⊢
  exact simulates.oneHistory simulates' grows (simulates.settled rfl left leftIdle).snapshot
    (simulates'.settled rfl right rightIdle).snapshot

theorem replicas_replay_one_history_threeNodes :
    (ThreeNodes.afterCommit.node 0).machine = [1] ∧ (ThreeNodes.standing.node 1).raft.term = 2 ∧
      OneHistory ThreeNodes.setup.machine (ThreeNodes.afterCommit.node 0)
        (ThreeNodes.afterCrash.node 1) :=
  ⟨by decide +kernel, by decide +kernel, replicas_replay_one_history ThreeNodes.setup
    ThreeNodes.reaches_commit.endures ThreeNodes.endures_crash (by decide +kernel) rfl⟩

/-- So they have in a run in which the membership changes, whatever changes are proposed and
completed in it. -/
theorem Setup.Run.one_history_across_changes (setup : Setup σ) {states : List (Cluster σ)}
    (run : setup.Run (fun _ deed => deed.keepsLog = true) states) {early late : Cluster σ}
    (earlySeen : early ∈ states) (lateSeen : late ∈ states) (left right : NodeId) :
    OneHistory setup.machine (early.node left) (late.node right) := by
  have noneWaits {cluster : Cluster σ} {state : State NodeId Entry}
      (simulates : Simulates setup .changing cluster state) (id : NodeId) :
      (cluster.node id).raft.pending.snapshot = none := by
    by_contra waits
    have := ((simulates.tracks id).installed waits).2
    have := (simulates.tracks id).whole rfl
    omega
  rcases run.related earlySeen lateSeen with ⟨state, after, simulates, simulates', grows | grows⟩
  · exact simulates.oneHistory simulates' grows (noneWaits simulates _) (noneWaits simulates' _)
  · rcases simulates'.oneHistory simulates grows (noneWaits simulates' right)
      (noneWaits simulates left) with ⟨history, indexed, replayed⟩
    exact ⟨history, indexed, fun node member => replayed node ((Perm.swap ..).mem_iff.mp member)⟩

theorem one_history_across_changes_moving :
    (Moving.moved.1.node 0).raft.applied = 2 ∧ OneHistory ThreeNodes.setup.machine
      (Moving.elected.node 1) (Moving.moved.1.node 0) :=
  ⟨by decide +kernel, Setup.Run.one_history_across_changes ThreeNodes.setup
    (ThreeNodes.setup.run_trail _ Moving.script) (mem_cons_of_mem _ Moving.elected_mem)
      (mem_cons_self ..) 1 0⟩

/-- A leader takes nothing back: what it holds between cycles it still holds at any later moment at
which it leads the same term. -/
theorem leader_append_only (setup : Setup σ) {early late : Cluster σ}
    (earlyReached : setup.Endures setup.initial early) (lateReached : setup.Endures early late)
    {id : NodeId} (idle : (early.node id).busy = false)
    (leads : (early.node id).raft.role = .leader)
    (stillLeads : (late.node id).raft.role = .leader)
    (sameTerm : (early.node id).raft.term = (late.node id).raft.term) {index : ℕ} {entry : Entry}
    (isEntry : (early.node id).raft.log.get index = some entry) :
    Holds setup.machine (late.node id) index entry := by
  rcases setup.rollback.reaches_since earlyReached lateReached with
    ⟨since, sinceReached, same, reached⟩
  rw [← same id idle] at leads sameTerm isEntry
  rcases (Simulates.initial setup .fixed).run sinceReached with ⟨state, _, simulates⟩
  rcases simulates.run reached with ⟨after, grows, simulates'⟩
  rcases simulates.leads leads with ⟨leader, logIs⟩
  have led : state.leader (since.node id).raft.term ≠ none := by simp [leader]
  have grown := grows.prefix_leaderLog led
  rw [logIs, sameTerm, (simulates'.leads stillLeads).2] at grown
  have above := Log.Represents.lt_of_get isEntry
  refine simulates'.held (by omega) (Consensus.getElem?_of_isPrefix grown ?_)
  rw [← (simulates.represents id).get above, isEntry]

theorem leader_append_only_threeNodes :
    (ThreeNodes.afterFirstElection.node 0).raft.log.get 1 = some ThreeNodes.opening ∧
      Holds ThreeNodes.setup.machine (ThreeNodes.afterCrash.node 0) 1 ThreeNodes.opening :=
  ⟨by decide +kernel, leader_append_only ThreeNodes.setup ThreeNodes.reaches_first.endures
    ((Setup.Reaches.endures (ThreeNodes.setup.reaches_play _ _)).trans ThreeNodes.endures_crash)
      (by decide +kernel) (by decide +kernel) (by decide +kernel) (by decide +kernel)
      (by decide +kernel)⟩

/-- A node never forgets what it knew between cycles: crash or not, its term never decreases, and an
entry it knew to be committed stays in its log, or under its snapshot. -/
theorem nothing_forgotten (setup : Setup σ) {early late : Cluster σ}
    (earlyReached : setup.Endures setup.initial early) (lateReached : setup.Endures early late)
    {id : NodeId} (idle : (early.node id).busy = false) :
    (early.node id).raft.term ≤ (late.node id).raft.term ∧
      ∀ index ≤ (early.node id).raft.commit, ∀ entry,
        (early.node id).raft.log.get index = some entry →
          Holds setup.machine (late.node id) index entry := by
  rcases setup.rollback.reaches_since earlyReached lateReached with
    ⟨since, sinceReached, same, reached⟩
  rw [← same id idle]
  rcases (Simulates.initial setup .fixed).run sinceReached with ⟨state, _, simulates⟩
  rcases simulates.lasting reached id with ⟨after, simulates', _, notLater, held⟩
  rw [← simulates.term_eq, ← simulates'.term_eq]
  refine ⟨notLater, fun index committed entry isEntry => ?_⟩
  have above := Log.Represents.lt_of_get isEntry
  have commitIs := (simulates.tracks id).commit
  rw [simulates.id id] at commitIs
  refine simulates'.held (by omega) (Consensus.getElem?_of_isPrefix held ?_)
  rw [getElem?_take, if_pos (by omega), ← (simulates.represents id).get above, isEntry]

theorem nothing_forgotten_threeNodes :
    Holds ThreeNodes.setup.machine (ThreeNodes.afterCrash.node 1) 1 ThreeNodes.opening :=
  (nothing_forgotten ThreeNodes.setup ThreeNodes.reaches_commit.endures ThreeNodes.endures_crash
    (by decide +kernel)).2 1 (by decide +kernel) _ (by decide +kernel)

end ChronoScope.Chronolog
