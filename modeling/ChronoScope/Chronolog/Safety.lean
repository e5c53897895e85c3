import ChronoScope.Chronolog.Cycle

/-!
# Safety of the cluster

The cluster as a whole simulates the abstract protocol: every state of every run
goes with a state of the protocol that all nodes track, in which every message
ever sent is faithful and everything ever handed to an application is certified.
Election safety, leader completeness, state machine safety and log matching are
read off from there.
-/

namespace ChronoScope.Chronolog

open List

open Consensus (State Rules Invariant Steps)

variable {σ : Type}

/-- The snapshot is the state machine's image of exactly these entries. -/
structure Snapshot.Covers (machine : StateMachine σ) (snap : Snapshot) (entries : List Entry) :
    Prop where
  lastIndex : entries.length = snap.lastIndex
  lastTerm : Consensus.termAt entries snap.lastIndex = some snap.lastTerm
  data : snap.data = machine.image entries

def Handover.index : Handover → ℕ
  | .entry given => given.index
  | .image snap => snap.lastIndex

/-- The handover ends with this entry: it is the entry itself, or the last one a
snapshot covers. -/
def Handover.Hands (machine : StateMachine σ) : Handover → Entry → Prop
  | .entry given, last => given = last
  | .image snap, last => ∃ entries, snap.Covers machine entries ∧ entries.getLast? = some last

/-- The handover ends a prefix that is certified in the protocol. -/
def Backed (machine : StateMachine σ) (state : State NodeId Entry) (handover : Handover) : Prop :=
  ∃ term full entry, state.Certified term full ∧ full.length = handover.index ∧
    full.getLast? = some entry ∧ handover.Hands machine entry

theorem Backed.mono {machine : StateMachine σ} {before after : State NodeId Entry}
    {rules : Rules NodeId Entry} {handover : Handover} (backed : Backed machine before handover)
    (grows : before.Grows after) (inv : Invariant rules before) :
    Backed machine after handover := by
  rcases backed with ⟨term, full, entry, certified, rest⟩
  exact ⟨term, full, entry, grows.certified inv certified, rest⟩

section Handovers

variable {machine : StateMachine σ} {charter : Charter} {state : State NodeId Entry}
  {disk : Durable} {image : σ} {r : Raft}

section

variable (tracks : Tracks machine charter state disk image r) (inv : Invariant charter.rules state)

include tracks inv

theorem Tracks.certified_take (index : ℕ) (positive : 0 < index) (covered : index ≤ r.commit) :
    ∃ entry, (state.log r.id)[index - 1]? = some entry ∧ entry.index = index ∧
      state.Certified r.term ((state.log r.id).take index) ∧
      ((state.log r.id).take index).length = index ∧
      ((state.log r.id).take index).getLast? = some entry := by
  have bound := covered.trans (tracks.commit_le inv)
  have present : index - 1 < (state.log r.id).length := by omega
  have found := getElem?_eq_getElem present
  refine ⟨_, found, ?_, ?_, ?_, ?_⟩
  · have := tracks.log.indexed _ _ found
    omega
  · exact (tracks.certified inv).of_isPrefix (take_prefix_take_left covered)
  · rw [length_take]
    omega
  · rw [getLast?_take, if_neg (by omega), found]
    rfl

theorem Tracks.backed : ∀ handover ∈ Node.handovers r.ready.1, Backed machine state handover := by
  intro handover member
  rcases mem_append.mp member with installed | applied
  · have : ∃ snap, r.pending.snapshot = some snap ∧ Handover.image snap = handover := by
      simpa [Raft.ready] using installed
    rcases this with ⟨snap, pending, rfl⟩
    have described := tracks.snapshot snap (by simp [latestSnapshot, pending])
    rcases tracks.installed (by simp [pending]) with ⟨appliedIs, positive⟩
    have covered : snap.lastIndex ≤ r.commit := by
      rw [described.lastIndex]
      exact tracks.snapshot_applied.trans tracks.applied_commit
    rcases tracks.certified_take inv _ (described.lastIndex.symm ▸ positive) covered with
      ⟨entry, _, _, certified, length, last⟩
    refine ⟨r.term, _, entry, certified, length, last, _, ⟨length, ?_, described.data⟩, last⟩
    rw [Consensus.termAt_take le_rfl, described.lastIndex, described.lastTerm]
    exact tracks.log.snapshotTerm
  · rcases mem_map.mp applied with ⟨entry, inCommitted, rfl⟩
    rw [tracks.committed_eq inv] at inCommitted
    rcases getElem?_of_mem inCommitted with ⟨position, present⟩
    rw [getElem?_drop, getElem?_take] at present
    split_ifs at present with covered
    have indexIs := tracks.log.indexed _ _ present
    rcases tracks.certified_take inv entry.index (by omega) (by omega) with
      ⟨found, foundIs, _, certified, length, last⟩
    have same : found = entry := by
      have position_eq : entry.index - 1 = r.applied + position := by omega
      rw [position_eq, present] at foundIs
      exact (Option.some.inj foundIs).symm
    exact ⟨r.term, _, found, certified, length, last, same.symm⟩

end

end Handovers

/-- The node has the entry in its log, or its snapshot covers it. -/
def Holds (machine : StateMachine σ) (node : Node σ) (index : ℕ) (entry : Entry) : Prop :=
  node.raft.log.get index = some entry ∨
    ∃ snap, latestSnapshot node.disk node.raft = some snap ∧
      snap.lastIndex = node.raft.log.snapshotIndex ∧ index ≤ snap.lastIndex ∧
      ∃ entries, snap.Covers machine entries ∧ entries[index - 1]? = some entry

/-- The membership a cluster starts with, as one that may change or not. -/
def Setup.charter (setup : Setup σ) (roster : Roster) : Charter := ⟨setup.config, roster⟩

/-- Neither compacts, nor ships a snapshot, nor restarts. -/
def Action.keepsLog : Action → Bool
  | .compact _ | .ship .. | .restart _ => false
  | _ => true

/-- How a cluster relates to a state of the protocol. -/
structure Simulates (setup : Setup σ) (roster : Roster) (cluster : Cluster σ)
    (state : State NodeId Entry) : Prop where
  inv : Invariant (setup.charter roster).rules state
  id : ∀ id, (cluster.node id).raft.id = id
  tracks : ∀ id, Tracks setup.machine (setup.charter roster) state (cluster.node id).disk
    (cluster.node id).machine (cluster.node id).raft
  settled : roster = .fixed → ∀ id, (cluster.node id).busy = false →
    Settled (cluster.node id).disk (cluster.node id).raft
  network : ∀ sent ∈ cluster.network,
    Faithful setup.machine (setup.charter roster) state sent.sender sent.receiver sent.msg
  handed : ∀ item ∈ cluster.handed, Backed setup.machine state item.2

variable {index : ℕ}

namespace Simulates

variable {setup : Setup σ} {roster : Roster} {cluster : Cluster σ}
  {state after : State NodeId Entry}

theorem initial (setup : Setup σ) (roster : Roster) :
    Simulates setup roster setup.initial (State.initial NodeId Entry) where
  inv := .initial _
  id _ := rfl
  tracks id := .new setup.machine (setup.charter roster) id (setup.opts id)
  settled _ _ _ := ⟨rfl, rfl, rfl, rfl⟩
  network _ sent := nomatch sent
  handed _ item := nomatch item

variable {id : NodeId}

section

variable (simulates : Simulates setup roster cluster state)

include simulates

theorem place {node : Node σ} (steps : Steps (setup.charter roster).rules id state after)
    (sameId : node.raft.id = id)
    (tracks : Tracks setup.machine (setup.charter roster) after node.disk node.machine node.raft)
    (settled : roster = .fixed → node.busy = false → Settled node.disk node.raft) :
    Simulates setup roster (Setup.place cluster id node) after := by
  have grows := steps.grows simulates.inv
  refine ⟨steps.invariant simulates.inv, ?_, ?_, ?_, ?_, ?_⟩
  · intro other
    by_cases same : other = id
    · subst same
      simpa [Setup.place] using sameId
    · simpa [Setup.place, same] using simulates.id other
  · intro other
    by_cases same : other = id
    · subst same
      simpa [Setup.place] using tracks
    · have distinct : (cluster.node other).raft.id ≠ id := by rwa [simulates.id other]
      simpa [Setup.place, same] using (simulates.tracks other).frame distinct steps simulates.inv
  · intro fixed other
    by_cases same : other = id
    · subst same
      simpa [Setup.place] using settled fixed
    · simpa [Setup.place, same] using simulates.settled fixed other
  · exact fun sent known => (simulates.network sent known).mono steps simulates.inv
  · exact fun item known => (simulates.handed item known).mono grows simulates.inv

theorem faithful {input : Input} (deliverable : Setup.deliverable cluster id input = true)
    (sender : NodeId) (msg : Message) (isHeard : input.heard = some (sender, msg)) :
    Faithful setup.machine (setup.charter roster) state sender (cluster.node id).raft.id msg := by
  cases input with
  | message =>
    cases isHeard
    rw [simulates.id id]
    exact simulates.network _ (by simpa [Setup.deliverable] using deliverable)
  | _ => cases isHeard

/-- An input is simulated, and whatever every move keeps is kept with it. -/
theorem input {P : State NodeId Entry → Raft → Prop} {input : Input}
    (delivered : Setup.deliverable cluster id input = true)
    (start : P state (cluster.node id).raft)
    (kept : ∀ {before after : State NodeId Entry} {q q' : Raft},
      Invariant (setup.charter roster).rules before →
        Tracks setup.machine (setup.charter roster) before (cluster.node id).disk
          (cluster.node id).machine q → Steps (setup.charter roster).rules q.id before after →
            Tracks setup.machine (setup.charter roster) after (cluster.node id).disk
              (cluster.node id).machine q' → q.id = (cluster.node id).raft.id →
                (∀ sender msg, input.heard = some (sender, msg) →
                  Faithful setup.machine (setup.charter roster) before sender q.id msg) →
                    Raft.Move input.heard q q' → P before q → P after q') :
    ∃ after, Steps (setup.charter roster).rules id state after ∧
      Simulates setup roster (Setup.place cluster id { cluster.node id with
        raft := Node.feed (cluster.node id).raft input, busy := true }) after ∧
      P after (Node.feed (cluster.node id).raft input) := by
  rcases (simulates.tracks id).moves simulates.inv (simulates.faithful delivered) start kept
    (feed_moves _ input) with ⟨sameId, after, steps, tracks, holds⟩
  rw [simulates.id id] at steps sameId
  refine ⟨after, steps, simulates.place steps sameId tracks ?_, holds⟩
  exact fun _ idle => nomatch idle

/-- Every action of the cluster is simulated by steps of the acting node of the protocol; where the
membership may change, every action that leaves the log whole. -/
theorem event {action : Action} {next : Cluster σ} (event : setup.Event cluster action next)
    (steady : roster = .fixed ∨ action.keepsLog = true) :
    ∃ after, Steps (setup.charter roster).rules action.actor state after ∧
      Simulates setup roster next after := by
  have inv := simulates.inv
  cases event with
  | @input id input delivered =>
    rcases simulates.input (P := fun _ _ => True) delivered trivial
      (fun _ _ _ _ _ _ _ _ => trivial) with ⟨after, steps, simulates', _⟩
    exact ⟨after, steps, simulates'⟩
  | cycle id =>
    rcases (simulates.tracks id).cycle inv with ⟨settled, sameId, after, steps, tracks⟩
    rw [simulates.id id] at steps sameId
    have grows := steps.grows inv
    refine ⟨after, steps,
      { simulates.place steps sameId tracks fun _ _ => settled with network := ?_, handed := ?_ }⟩
    · intro sent known
      rcases mem_append.mp known with earlier | new
      · exact (simulates.network sent earlier).mono steps inv
      · rcases mem_map.mp new with ⟨⟨peer, msg⟩, posted, rfl⟩
        have faithful := (simulates.tracks id).messages peer msg posted
        rw [simulates.id id] at faithful
        exact faithful.mono steps inv
    · intro item known
      rcases mem_append.mp known with earlier | new
      · exact (simulates.handed item earlier).mono grows inv
      · rcases mem_map.mp new with ⟨handover, member, rfl⟩
        exact ((simulates.tracks id).backed inv handover member).mono grows inv
  | @compact id node idle done =>
    have fixed := steady.resolve_right nofun
    rcases (simulates.tracks id).compact fixed inv (simulates.settled fixed id idle) done with
      ⟨settled, sameId, tracks⟩
    exact ⟨state, .refl,
      simulates.place .refl (sameId.trans (simulates.id id)) tracks fun _ _ => settled⟩
  | @ship id peer node idle done =>
    have fixed := steady.resolve_right nofun
    rcases (simulates.tracks id).ship fixed inv (simulates.settled fixed id idle) done with
      ⟨settled, sameId, tracks⟩
    exact ⟨state, .refl,
      simulates.place .refl (sameId.trans (simulates.id id)) tracks fun _ _ => settled⟩
  | @stepDown id idle =>
    rcases Refines.stepDown (simulates.tracks id) inv with ⟨sameId, after, steps, tracks⟩
    rw [simulates.id id] at steps sameId
    exact ⟨after, steps, simulates.place steps sameId tracks
      fun fixed _ => (simulates.settled fixed id idle).stepDown⟩
  | @restart id idle =>
    have fixed := steady.resolve_right nofun
    rcases (simulates.tracks id).restart fixed inv (simulates.settled fixed id idle) rfl with
      ⟨settled, sameId, after, steps, tracks⟩
    rw [simulates.id id] at steps sameId
    exact ⟨after, steps, simulates.place steps sameId tracks fun _ _ => settled⟩

end

theorem step (simulates : Simulates setup .fixed cluster state) {next : Cluster σ}
    (step : setup.Step cluster next) :
    ∃ after, state.Grows after ∧ Simulates setup .fixed next after := by
  rcases step with ⟨action, acted⟩
  rcases simulates.event (setup.event_of_act acted) (Or.inl rfl) with ⟨after, steps, simulates'⟩
  exact ⟨after, steps.grows simulates.inv, simulates'⟩

theorem run (simulates : Simulates setup .fixed cluster state) {last : Cluster σ}
    (reached : setup.Reaches cluster last) :
    ∃ after, state.Grows after ∧ Simulates setup .fixed last after := by
  induction reached with
  | refl => exact ⟨state, .refl state, simulates⟩
  | tail _ step ih =>
    rcases ih with ⟨middle, grows, simulates'⟩
    rcases simulates'.step step with ⟨after, grows', simulates''⟩
    exact ⟨after, grows.trans grows', simulates''⟩

theorem term_eq (simulates : Simulates setup roster cluster state) (id : NodeId) :
    state.term id = (cluster.node id).raft.term := by
  have := (simulates.tracks id).term
  rwa [simulates.id id] at this

theorem represents (simulates : Simulates setup roster cluster state) (id : NodeId) :
    (cluster.node id).raft.log.Represents (state.log id) := by
  have := (simulates.tracks id).log
  rwa [simulates.id id] at this

theorem leads (simulates : Simulates setup roster cluster state)
    (isLeader : (cluster.node id).raft.role = .leader) :
    state.leader (cluster.node id).raft.term = some id ∧
      state.leaderLog (cluster.node id).raft.term = state.log id := by
  have := (simulates.tracks id).leads simulates.inv isLeader
  rwa [simulates.id id] at this

theorem held (simulates : Simulates setup roster cluster state) {entry : Entry}
    (positive : 0 < index) (present : (state.log id)[index - 1]? = some entry) :
    Holds setup.machine (cluster.node id) index entry := by
  have tracks := simulates.tracks id
  have represents := simulates.represents id
  rcases Nat.lt_or_ge (cluster.node id).raft.log.snapshotIndex index with above | compacted
  · exact Or.inl ((represents.get above).trans present)
  · right
    cases latest : latestSnapshot (cluster.node id).disk (cluster.node id).raft with
    | none =>
      have := tracks.uncompacted latest
      omega
    | some snap =>
      have described := tracks.snapshot snap latest
      rw [simulates.id id] at described
      have bound := represents.bound
      have known := represents.snapshotTerm
      rw [← described.lastIndex] at bound known compacted
      refine ⟨snap, rfl, described.lastIndex, compacted, (state.log id).take snap.lastIndex,
        ⟨?_, ?_, described.data⟩, ?_⟩
      · rw [length_take]
        omega
      · rw [Consensus.termAt_take le_rfl, known, described.lastTerm]
      · rw [getElem?_take, if_pos (by omega)]
        exact present

end Simulates

namespace ThreeNodes

/-- An application that remembers the terms of what it applied. -/
def chronicle : StateMachine Bytes where
  init := []
  apply state entry := state ++ [entry.term.toUInt8]
  snapshot state := state
  restore data := some data
  restore_snapshot _ := rfl

def setup : Setup Bytes where
  machine := chronicle
  voters := .ofList [0, 1, 2]
  learners := ∅
  opts _ := { RaftOptions.default with electionTicks := 2, heartbeatTicks := 1, preVote := false }

def opening : Entry := { term := 1, index := 1, kind := .noop }

/-- Node 0 is elected in term 1. -/
def afterFirstElection : Cluster Bytes :=
  setup.play setup.initial
    [.input 0 (.tick 0), .input 0 (.tick 0), .cycle 0,
      .input 1 (.message 0 ⟨1, .voteReq 0 0⟩), .cycle 1,
      .input 0 (.message 1 ⟨1, .voteResp true⟩), .cycle 0]

/-- Its first entry is committed with the help of node 1. -/
def afterCommit : Cluster Bytes :=
  setup.play afterFirstElection
    [.input 1 (.message 0 ⟨1, .appendReq 0 0 [opening] 0⟩), .cycle 1,
      .input 0 (.message 1 ⟨1, .appendResp true 1 0 0⟩), .cycle 0,
      .input 0 (.tick 0), .cycle 0,
      .input 1 (.message 0 ⟨1, .appendReq 1 1 [] 1⟩), .cycle 1]

/-- Node 1 takes over in term 2. -/
def afterSecondElection : Cluster Bytes :=
  setup.play afterCommit
    [.input 1 (.tick 0), .input 1 (.tick 0), .cycle 1,
      .input 2 (.message 1 ⟨2, .voteReq 1 1⟩), .cycle 2,
      .input 1 (.message 2 ⟨2, .voteResp true⟩), .cycle 1]

theorem reaches_first :
    setup.Reaches setup.initial afterFirstElection :=
  setup.reaches_play _ _

theorem reaches_commit : setup.Reaches setup.initial afterCommit :=
  reaches_first.trans (setup.reaches_play _ _)

end ThreeNodes

/-- Election safety: no two nodes ever lead the same term, be it at the same time
or at different times of a run. -/
theorem election_safety (setup : Setup σ) {early late : Cluster σ}
    (earlyReached : setup.Reaches setup.initial early) (lateReached : setup.Reaches early late)
    {first second : NodeId} (firstLeads : (early.node first).raft.role = .leader)
    (secondLeads : (late.node second).raft.role = .leader)
    (sameTerm : (early.node first).raft.term = (late.node second).raft.term) :
    first = second := by
  rcases (Simulates.initial setup .fixed).run earlyReached with ⟨state, _, simulates⟩
  rcases simulates.run lateReached with ⟨after, grows, simulates'⟩
  have before := (simulates.leads firstLeads).1
  have later := (simulates'.leads secondLeads).1
  have same := grows.leader (by simp [before] : state.leader (early.node first).raft.term ≠ none)
  rw [before, sameTerm, later] at same
  exact (Option.some.inj same).symm

theorem election_safety_threeNodes :
    (ThreeNodes.afterFirstElection.node 0).raft.role = .leader ∧
      (ThreeNodes.afterCommit.node 0).raft.role = .leader ∧ (0 : NodeId) = 0 :=
  ⟨by decide +kernel, by decide +kernel,
    election_safety ThreeNodes.setup ThreeNodes.reaches_first (ThreeNodes.setup.reaches_play _ _)
      (by decide +kernel) (by decide +kernel : (ThreeNodes.afterCommit.node 0).raft.role = .leader)
      (by decide +kernel)⟩

/-- A committed entry has reached every leader of a later term, whichever of the
two moments comes first. -/
private theorem leaderLog_of_certified {setup : Setup σ} {cluster other : Cluster σ}
    {state otherState : State NodeId Entry} (simulates : Simulates setup .fixed cluster state)
    (otherSimulates : Simulates setup .fixed other otherState)
    (order : state.Grows otherState ∨ otherState.Grows state) {term later : ℕ} {full : List Entry}
    {entry : Entry} (certified : state.Certified term full)
    (terms : ∀ entry ∈ full, entry.term ≤ term) (isLater : term < later)
    (present : full[index]? = some entry) (led : otherState.leader later ≠ none) :
    (otherState.leaderLog later)[index]? = some entry := by
  rcases order with grows | grows
  · have carried := grows.certified simulates.inv certified
    have held := otherSimulates.inv.prefix_leaderLog_of_certified
      (carried.mono isLater.le) led
    exact (Consensus.getElem?_of_isPrefix held present)
  · have held := simulates.inv.prefix_leaderLog_of_certified
      (certified.mono isLater.le) (grows.led led)
    have final := Consensus.getElem?_of_isPrefix held present
    rcases grows.leaderLog led with ⟨added, extended, own⟩
    rw [extended, getElem?_append] at final
    split_ifs at final with early
    · exact final
    · -- What the later leader adds afterwards carries its own term.
      have addedTerm := own entry (mem_of_getElem? final)
      have oldTerm := terms entry (mem_of_getElem? present)
      exact absurd oldTerm (by rw [show entry.term = later from addedTerm]; omega)

/-- Leader completeness: an entry under the commit index of a node, in particular one its
leader has just raised the commit index over, is held by every leader of a later term at every
moment of the run at which it leads. -/
theorem leaders_hold_committed (setup : Setup σ) {now other : Cluster σ}
    (reached : setup.Reaches setup.initial now) (otherReached : setup.Reaches setup.initial other)
    (sameRun : setup.Reaches now other ∨ setup.Reaches other now)
    {node : NodeId} {index : ℕ} {entry : Entry}
    (committed : index ≤ (now.node node).raft.commit)
    (isEntry : (now.node node).raft.log.get index = some entry)
    {successor : NodeId} (leads : (other.node successor).raft.role = .leader)
    (isLater : (now.node node).raft.term < (other.node successor).raft.term) :
    Holds setup.machine (other.node successor) index entry := by
  have related : ∃ state otherState, Simulates setup .fixed now state ∧
      Simulates setup .fixed other otherState ∧
        (state.Grows otherState ∨ otherState.Grows state) := by
    rcases sameRun with onwards | onwards
    · rcases (Simulates.initial setup .fixed).run reached with ⟨state, _, simulates⟩
      rcases simulates.run onwards with ⟨after, grows, simulates'⟩
      exact ⟨state, after, simulates, simulates', Or.inl grows⟩
    · rcases (Simulates.initial setup .fixed).run otherReached with ⟨state, _, simulates⟩
      rcases simulates.run onwards with ⟨after, grows, simulates'⟩
      exact ⟨after, state, simulates', simulates, Or.inr grows⟩
  rcases related with ⟨state, otherState, simulates, otherSimulates, order⟩
  have tracks := simulates.tracks node
  have above := Log.Represents.lt_of_get isEntry
  have certified := tracks.certified simulates.inv
  have present : ((state.log node).take (now.node node).raft.commit)[index - 1]? =
      some entry := by
    rw [getElem?_take, if_pos (by omega), ← isEntry, tracks.log.get above, simulates.id node]
  have terms : ∀ entry ∈ (state.log node).take (now.node node).raft.commit,
      entry.term ≤ (now.node node).raft.term := by
    intro entry member
    have := simulates.inv.log_term (mem_of_mem_take member)
    have sameTerm := tracks.term
    rw [simulates.id node] at sameTerm
    rwa [sameTerm] at this
  rw [simulates.id node] at certified
  rcases otherSimulates.leads leads with ⟨leader, sameLog⟩
  have final := leaderLog_of_certified simulates otherSimulates order certified terms isLater
    present (by simp [leader])
  rw [sameLog] at final
  exact otherSimulates.held (by omega) final

theorem leaders_hold_committed_threeNodes :
    (ThreeNodes.afterSecondElection.node 1).raft.role = .leader ∧
      Holds ThreeNodes.setup.machine (ThreeNodes.afterSecondElection.node 1) 1 ThreeNodes.opening :=
  ⟨by decide +kernel,
    leaders_hold_committed ThreeNodes.setup ThreeNodes.reaches_commit
      (ThreeNodes.reaches_commit.trans (ThreeNodes.setup.reaches_play _ _))
      (Or.inl (ThreeNodes.setup.reaches_play _ _))
      (by decide +kernel : 1 ≤ (ThreeNodes.afterCommit.node 0).raft.commit) (by decide +kernel)
      (by decide +kernel) (by decide +kernel)⟩

/-- State machine safety: whatever two nodes hand to their applications at the same index,
as committed entries or as the last entry covered by an installed snapshot, is one entry. -/
theorem stateMachine_safety (setup : Setup σ) {cluster : Cluster σ}
    (reached : setup.Reaches setup.initial cluster) {left right : NodeId × Handover}
    (leftHanded : left ∈ cluster.handed) (rightHanded : right ∈ cluster.handed)
    (sameIndex : left.2.index = right.2.index) :
    ∃ entry, left.2.Hands setup.machine entry ∧ right.2.Hands setup.machine entry := by
  rcases (Simulates.initial setup .fixed).run reached with ⟨state, _, simulates⟩
  rcases simulates.handed left leftHanded with
    ⟨_, leftFull, leftLast, leftCertified, leftLength, isLeftLast, leftHands⟩
  rcases simulates.handed right rightHanded with
    ⟨_, rightFull, rightLast, rightCertified, rightLength, isRightLast, rightHands⟩
  have same : leftFull = rightFull := by
    apply simulates.inv.certified_eq leftCertified rightCertified
    rw [leftLength, rightLength, sameIndex]
  have sameLast : leftLast = rightLast := by
    rw [same, isRightLast] at isLeftLast
    exact (Option.some.inj isLeftLast).symm
  exact ⟨leftLast, leftHands, sameLast ▸ rightHands⟩

theorem stateMachine_safety_threeNodes :
    (0, .entry ThreeNodes.opening) ∈ ThreeNodes.afterCommit.handed ∧
      (1, .entry ThreeNodes.opening) ∈ ThreeNodes.afterCommit.handed ∧
      ∃ entry, (Handover.entry ThreeNodes.opening).Hands ThreeNodes.setup.machine entry ∧
        (Handover.entry ThreeNodes.opening).Hands ThreeNodes.setup.machine entry :=
  ⟨by decide +kernel, by decide +kernel,
    stateMachine_safety ThreeNodes.setup ThreeNodes.reaches_commit
      (by decide +kernel : (0, Handover.entry ThreeNodes.opening) ∈ ThreeNodes.afterCommit.handed)
      (by decide +kernel : (1, Handover.entry ThreeNodes.opening) ∈ ThreeNodes.afterCommit.handed)
        rfl⟩

/-- The log knows the term of this index, from an entry or from its snapshot point. -/
def Log.Marks (log : Log) (index term : ℕ) : Prop :=
  (∃ entry, log.get index = some entry ∧ entry.term = term) ∨
    (log.snapshotIndex = index ∧ log.snapshotTerm = term)

theorem Log.Represents.marks {log : Log} {full : List Entry} (represents : log.Represents full)
    {term : ℕ} (marks : log.Marks index term) : Consensus.termAt full index = some term := by
  rcases marks with ⟨entry, isEntry, rfl⟩ | ⟨rfl, rfl⟩
  · have above := lt_of_get isEntry
    rw [represents.get above] at isEntry
    obtain ⟨position, rfl⟩ : ∃ position, index = position + 1 := ⟨index - 1, by omega⟩
    exact Option.map_eq_some_iff.mpr ⟨entry, isEntry, rfl⟩
  · exact represents.snapshotTerm

/-- Log matching: where one node holds an entry whose term another node knows at that index,
from an entry or from its snapshot point, the two hold the same entries from there down; and
terms never decrease along a log. -/
theorem log_matching (setup : Setup σ) {cluster : Cluster σ}
    (reached : setup.Reaches setup.initial cluster) :
    (∀ left right index entry, (cluster.node left).raft.log.get index = some entry →
      (cluster.node right).raft.log.Marks index entry.term →
        ∀ below ≤ index, ∀ ours theirs, (cluster.node left).raft.log.get below = some ours →
          (cluster.node right).raft.log.get below = some theirs → ours = theirs) ∧
      ∀ id, (∀ entry ∈ (cluster.node id).raft.log.entries,
          (cluster.node id).raft.log.snapshotTerm ≤ entry.term) ∧
        (cluster.node id).raft.log.entries.Pairwise fun earlier later =>
          earlier.term ≤ later.term := by
  rcases (Simulates.initial setup .fixed).run reached with ⟨state, _, simulates⟩
  have inv := simulates.inv
  have represents : ∀ id, (cluster.node id).raft.log.Represents (state.log id) := by
    intro id
    simpa only [simulates.id id] using (simulates.tracks id).log
  refine ⟨?_, ?_⟩
  · intro left right index entry isEntry marks below notAbove ours theirs isOurs isTheirs
    have agree := inv.take_eq_take_of_termAt (inv.log_rooted left) (inv.log_rooted right)
      ((represents left).marks (Or.inl ⟨entry, isEntry, rfl⟩)) ((represents right).marks marks)
    have ourBound := Log.Represents.lt_of_get isOurs
    rw [(represents left).get ourBound] at isOurs
    rw [(represents right).get (Log.Represents.lt_of_get isTheirs)] at isTheirs
    have covered : below - 1 < index := by omega
    have same := congrArg (·[below - 1]?) agree
    simp only [getElem?_take_of_lt covered, isOurs, isTheirs, Option.some.injEq] at same
    exact same
  · intro id
    have sorted := inv.sorted_of_rooted (inv.log_rooted id)
    have parts := take_append_drop (cluster.node id).raft.log.snapshotIndex (state.log id)
    rw [← parts, pairwise_append] at sorted
    rw [(represents id).entries]
    refine ⟨?_, sorted.2.1⟩
    intro entry member
    have known := (represents id).snapshotTerm
    rcases Nat.eq_zero_or_pos (cluster.node id).raft.log.snapshotIndex with none | some
    · rw [none] at known
      rw [← Option.some.inj known]
      omega
    · obtain ⟨position, isNext⟩ : ∃ position,
          (cluster.node id).raft.log.snapshotIndex = position + 1 :=
        ⟨_, (Nat.sub_add_cancel some).symm⟩
      rw [isNext, Consensus.termAt, Option.map_eq_some_iff] at known
      rcases known with ⟨last, present, termIs⟩
      rw [← termIs]
      apply sorted.2.2 last ?_ entry member
      apply mem_of_getElem? (i := position)
      rw [getElem?_take_of_lt (by omega), present]

theorem log_matching_threeNodes :
    (ThreeNodes.afterCommit.node 0).raft.log.get 1 = some ThreeNodes.opening ∧
      (ThreeNodes.afterCommit.node 1).raft.log.Marks 1 ThreeNodes.opening.term ∧
      ∀ ours theirs, (ThreeNodes.afterCommit.node 0).raft.log.get 1 = some ours →
        (ThreeNodes.afterCommit.node 1).raft.log.get 1 = some theirs → ours = theirs :=
  have held : (ThreeNodes.afterCommit.node 0).raft.log.get 1 = some ThreeNodes.opening := by
    decide +kernel
  have marked : (ThreeNodes.afterCommit.node 1).raft.log.Marks 1 ThreeNodes.opening.term :=
    Or.inl ⟨ThreeNodes.opening, by decide +kernel, rfl⟩
  ⟨held, marked, (log_matching ThreeNodes.setup ThreeNodes.reaches_commit).1 0 1 1 _ held marked 1
    le_rfl⟩

end ChronoScope.Chronolog
