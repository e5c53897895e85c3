import ChronoScope.Chronolog.Cluster
import ChronoScope.Chronolog.Quorum
import ChronoScope.Consensus.Preservation

/-!
# What a node has to do with the abstract protocol

`Tracks` relates a node, its disk and its application to a state of the abstract
protocol. The abstract log of a node is the whole sequence its compacted log
stands for; a poll before an election is no candidacy yet. `Faithful` is what a
message says about the history: once true it stays true, which is why delivering
it late, twice or never makes no difference.

A function of the node refines the protocol when it leads from a tracked node to
a tracked node along actions of the protocol (`Refines`).
-/

namespace ChronoScope.Chronolog

open Consensus (State Rules Invariant Steps)

/-- Candidacy starts when the term is raised. -/
def Role.abstract : Role → Consensus.Role
  | .follower => .follower
  | .preCandidate => .follower
  | .candidate => .candidate
  | .leader => .leader

def Entry.Plain (entry : Entry) : Prop := ∀ change, entry.kind ≠ .config change

/-- A configuration change that may be put on top of `base`, and what it leads to. -/
def Config.Next (base next : Config) : Prop :=
  ∃ change, Raft.misfit base change = false ∧ next = applyChange base change

/-- Quorums meet across the changes that may follow one configuration: entering joint consensus
keeps the old voters, leaving it the new ones. -/
theorem Config.hasQuorum_meet_next {base left right : Config}
    {votes leftVotes rightVotes : BTreeSet NodeId} (quorate : base.hasQuorum votes = true)
    (leftNext : left = base ∨ base.Next left) (rightNext : right = base ∨ base.Next right)
    (leftQuorum : left.hasQuorum leftVotes = true)
    (rightQuorum : right.hasQuorum rightVotes = true) :
    ∃ id, id ∈ leftVotes ∧ id ∈ rightVotes := by
  have constrained := (hasQuorum_iff.mp quorate).1
  by_cases simple : base.outgoing = ∅
  · have someVoters : base.voters ≠ ∅ := constrained.resolve_right (not_not_intro simple)
    have notJoint : base.outgoing.isEmpty = true := BTreeSet.isEmpty_iff.mpr simple
    have decides : ∀ {next : Config} {votes : BTreeSet NodeId}, next = base ∨ base.Next next →
        next.hasQuorum votes = true → majority base.voters votes = true := by
      rintro next votes (rfl | ⟨change, fits, rfl⟩) quorum
      · exact (hasQuorum_iff.mp quorum).2.1
      · cases change with
        | enterJoint incoming learners => exact (hasQuorum_iff.mp quorum).2.2
        | leaveJoint => simp [Raft.misfit, isJoint, notJoint] at fits
    rcases majority_meet someVoters (decides leftNext leftQuorum) (decides rightNext rightQuorum)
      with ⟨id, _, shared⟩
    exact ⟨id, shared⟩
  · have after : ∀ {next : Config}, next = base ∨ base.Next next →
        next.voters = base.voters ∧ (next.outgoing = base.outgoing ∨ next.outgoing = ∅) := by
      rintro next (rfl | ⟨change, fits, rfl⟩)
      · exact ⟨rfl, Or.inl rfl⟩
      · cases change with
        | enterJoint incoming learners => simp [Raft.misfit, isJoint, simple] at fits
        | leaveJoint => exact ⟨rfl, Or.inr rfl⟩
    rcases after leftNext with ⟨leftVoters, leftOutgoing⟩
    rcases after rightNext with ⟨rightVoters, rightOutgoing⟩
    rcases hasQuorum_iff.mp leftQuorum with ⟨leftSome, leftMajority, leftOld⟩
    rcases hasQuorum_iff.mp rightQuorum with ⟨rightSome, rightMajority, rightOld⟩
    rw [leftVoters] at leftSome leftMajority
    rw [rightVoters] at rightSome rightMajority
    by_cases noVoters : base.voters = ∅
    · have leftOut := leftSome.resolve_left (not_not_intro noVoters)
      have rightOut := rightSome.resolve_left (not_not_intro noVoters)
      rw [leftOutgoing.resolve_right leftOut] at leftOld
      rw [rightOutgoing.resolve_right rightOut] at rightOld
      rcases majority_meet simple leftOld rightOld with ⟨id, _, shared⟩
      exact ⟨id, shared⟩
    · rcases majority_meet noVoters leftMajority rightMajority with ⟨id, _, shared⟩
      exact ⟨id, shared⟩

/-- Whether the membership may change. -/
inductive Roster where
  | fixed
  | changing
  deriving DecidableEq

/-- The configuration a cluster starts with, and whether it may change. -/
structure Charter where
  config : Config
  roster : Roster

namespace Charter

variable (charter : Charter)

def configAfter (log : List Entry) : Config := log.foldl Log.applyEntry charter.config

@[simp]
theorem configAfter_concat (log : List Entry) (entry : Entry) :
    charter.configAfter (log ++ [entry]) = Log.applyEntry (charter.configAfter log) entry := by
  simp [configAfter]

/-- The protocol a cluster runs: its quorums, and entries that carry the index they are placed at;
a configuration change must fit the configuration it changes. -/
def rules : Rules NodeId Entry where
  Config := Config
  config := charter.configAfter
  IsQuorum cfg votes := ∃ set, cfg.hasQuorum set = true ∧ ∀ id ∈ set, id ∈ votes
  Changes entry := ¬entry.Plain
  Fits log entry := entry.index = log.length + 1 ∧ ∀ change, entry.kind = .config change →
    charter.roster = .changing ∧ Raft.misfit (charter.configAfter log) change = false
  Next := Config.Next
  config_keeps := by
    intro log entry plain
    rw [configAfter_concat, Log.applyEntry]
    split
    · rename_i change isChange
      exact absurd (not_not.mp plain change) (not_not_intro isChange)
    · rfl
  config_next := by
    intro log entry changes fits
    rcases not_forall_not.mp changes with ⟨change, isChange⟩
    refine ⟨change, (fits.2 change isChange).2, ?_⟩
    rw [configAfter_concat, Log.applyEntry, isChange]
  meet := by
    rintro base left right any leftVotes rightVotes ⟨_, quorate, _⟩ leftNext rightNext
      ⟨leftSet, leftQuorum, leftSub⟩ ⟨rightSet, rightQuorum, rightSub⟩
    rcases Config.hasQuorum_meet_next quorate leftNext rightNext leftQuorum rightQuorum with
      ⟨id, inLeft, inRight⟩
    exact ⟨id, leftSub id inLeft, rightSub id inRight⟩

end Charter

variable {σ : Type} {machine : StateMachine σ} {charter : Charter}

/-- What a message asserts about the history of the protocol. -/
def Faithful (machine : StateMachine σ) (charter : Charter) (state : State NodeId Entry)
    (sender receiver : NodeId) (msg : Message) : Prop :=
  match msg.body with
  | .voteReq lastIndex lastTerm => state.Requested sender msg.term lastTerm lastIndex
  | .voteResp granted => granted = true → (sender, receiver, msg.term) ∈ state.grants
  | .appendReq prevIndex prevTerm entries commit =>
    state.leader msg.term ≠ none ∧
      Consensus.termAt (state.leaderLog msg.term) prevIndex = some prevTerm ∧
      entries <+: (state.leaderLog msg.term).drop prevIndex ∧
      commit ≤ (state.leaderLog msg.term).length ∧
      state.Certified msg.term ((state.leaderLog msg.term).take commit)
  | .appendResp success matchIndex _ _ =>
    success = true → (msg.term, sender, matchIndex) ∈ state.acks
  | .snapshotReq snap =>
    charter.roster = .fixed ∧ state.leader msg.term ≠ none ∧
      Consensus.termAt (state.leaderLog msg.term) snap.lastIndex = some snap.lastTerm ∧
      state.Certified msg.term ((state.leaderLog msg.term).take snap.lastIndex) ∧
      snap.config = charter.configAfter ((state.leaderLog msg.term).take snap.lastIndex) ∧
      snap.data = machine.image ((state.leaderLog msg.term).take snap.lastIndex)
  | .snapshotResp success index => success = true → (msg.term, sender, index) ∈ state.acks
  | .heartbeatReq commit _ =>
    state.leader msg.term ≠ none ∧ commit ≤ (state.leaderLog msg.term).length ∧
      state.Certified msg.term ((state.leaderLog msg.term).take commit) ∧
      (commit = 0 ∨ ∃ reach, commit ≤ reach ∧ (msg.term, receiver, reach) ∈ state.acks)
  | .timeoutNow => state.leader msg.term = some sender ∧ sender ≠ receiver
  | _ => True

/-- The snapshot stands for what the log has compacted away. -/
structure Describes (machine : StateMachine σ) (charter : Charter) (log : Log) (full : List Entry)
    (snap : Snapshot) : Prop where
  lastIndex : snap.lastIndex = log.snapshotIndex
  lastTerm : snap.lastTerm = log.snapshotTerm
  config : snap.config = charter.configAfter (full.take snap.lastIndex)
  data : snap.data = machine.image (full.take snap.lastIndex)

/-- The snapshot a restart would find after the next cycle. -/
def latestSnapshot (disk : Durable) (r : Raft) : Option Snapshot :=
  r.pending.snapshot.or disk.snapshot

/-- The durable entries the next cycle starts from. -/
def survivors (disk : Durable) (r : Raft) : List Entry :=
  if r.pending.snapshot.isSome then [] else disk.entries

/-- Durable and in-memory entries are the same, up to the lowest stale index. -/
def Mirrors (durable : List Entry) (dirtyFrom : Option ℕ) (entries : List Entry) : Prop :=
  match dirtyFrom with
  | none => durable = entries
  | some start => durable.filter (fun entry => decide (entry.index < start)) =
      entries.filter (fun entry => decide (entry.index < start))

/-- How a node, its disk and its application relate to the abstract protocol. -/
structure Tracks (machine : StateMachine σ) (charter : Charter) (state : State NodeId Entry)
    (disk : Durable) (image : σ) (r : Raft) : Prop where
  term : state.term r.id = r.term
  vote : state.vote r.id = r.vote
  role : state.role r.id = r.role.abstract
  log : r.log.Represents (state.log r.id)
  config : r.log.snapshotConfig =
    charter.configAfter ((state.log r.id).take r.log.snapshotIndex)
  commit : state.commit r.id = r.commit
  snapshot_applied : r.log.snapshotIndex ≤ r.applied
  applied_commit : r.applied ≤ r.commit
  votes : r.role = .candidate → ∀ voter, r.votes.get voter = some true →
    (voter, r.id, r.term) ∈ state.grants
  unled : r.role ≠ .leader → r.progress = ∅
  matched : r.role = .leader → ∀ peer p, r.progress.get peer = some p → peer ≠ r.id →
    p.matched = 0 ∨ (r.term, peer, p.matched) ∈ state.acks
  /-- The commit index of a leader is the last decision of its term, once it has made one. -/
  decided : r.role = .leader →
    (∀ index, (r.term, index) ∈ state.commits → index ≤ r.commit) ∧
      (r.committedOwnTerm = true → (r.term, r.commit) ∈ state.commits)
  messages : ∀ peer msg, (peer, msg) ∈ r.pending.messages →
    Faithful machine charter state r.id peer msg
  pending_plain : r.pending.hardState = none ∧ r.pending.entries = [] ∧ r.pending.committed = []
  hard_term : r.persistedHardState.term = disk.hardState.term
  hard_vote : r.persistedHardState.vote = disk.hardState.vote
  hard_commit : disk.hardState.commit ≤ r.commit
  hard_clean : r.hardStateDirty = false →
    r.term = disk.hardState.term ∧ r.vote = disk.hardState.vote
  uncompacted : latestSnapshot disk r = none → r.log.snapshotIndex = 0
  /-- Where the membership may change, no snapshot is taken. -/
  whole : charter.roster = .changing → r.log.snapshotIndex = 0
  snapshot : ∀ snap, latestSnapshot disk r = some snap →
    Describes machine charter r.log (state.log r.id) snap
  mirror : Mirrors (survivors disk r) r.dirtyFrom r.log.entries
  image : r.pending.snapshot = none → image = machine.replay ((state.log r.id).take r.applied)
  installed : r.pending.snapshot ≠ none →
    r.applied = r.log.snapshotIndex ∧ 0 < r.log.snapshotIndex

/-- Between two cycles the disk mirrors the node. -/
structure Settled (disk : Durable) (r : Raft) : Prop where
  snapshot : r.pending.snapshot = none
  dirtyFrom : r.dirtyFrom = none
  term : r.term = disk.hardState.term
  vote : r.vote = disk.hardState.vote

section Lasting

variable {node : NodeId} {before after : State NodeId Entry}

theorem Faithful.mono {sender receiver : NodeId} {msg : Message}
    (faithful : Faithful machine charter before sender receiver msg)
    (steps : Steps charter.rules node before after) (inv : Invariant charter.rules before) :
    Faithful machine charter after sender receiver msg := by
  have grows := steps.grows inv
  rcases msg with ⟨term, body⟩
  cases body with
  | voteReq lastIndex lastTerm => exact steps.requested faithful
  | voteResp granted => exact fun isGranted => grows.grants (faithful isGranted)
  | appendReq prevIndex prevTerm entries commit =>
    rcases faithful with ⟨led, known, slice, bound, certified⟩
    have grown := grows.prefix_leaderLog led
    refine ⟨grows.led led, ?_, ?_, bound.trans grown.length_le, ?_⟩
    · exact (Consensus.termAt_of_isPrefix grown (Consensus.le_length_of_termAt known)).trans
        known
    · exact slice.trans (grown.drop prevIndex)
    · simp only [grows.take_leaderLog led bound]
      exact grows.certified inv certified
  | appendResp success matchIndex conflictIndex conflictTerm =>
    exact fun succeeded => grows.acks (faithful succeeded)
  | snapshotReq snap =>
    rcases faithful with ⟨fixed, led, known, certified, config, data⟩
    have bound := Consensus.le_length_of_termAt known
    have same := grows.take_leaderLog led bound
    refine ⟨fixed, grows.led led, ?_, ?_, by simpa only [same] using config, ?_⟩
    · exact (Consensus.termAt_of_isPrefix (grows.prefix_leaderLog led) bound).trans known
    · simp only [same]
      exact grows.certified inv certified
    · simpa only [same] using data
  | snapshotResp success index => exact fun succeeded => grows.acks (faithful succeeded)
  | heartbeatReq commit ctx =>
    rcases faithful with ⟨led, bound, certified, reached⟩
    refine ⟨grows.led led, bound.trans (grows.prefix_leaderLog led).length_le, ?_, ?_⟩
    · simp only [grows.take_leaderLog led bound]
      exact grows.certified inv certified
    · rcases reached with zero | ⟨reach, enough, acked⟩
      · exact Or.inl zero
      · exact Or.inr ⟨reach, enough, grows.acks acked⟩
  | timeoutNow =>
    rcases faithful with ⟨leads, distinct⟩
    exact ⟨(grows.leader (by simp [leads])).trans leads, distinct⟩
  | _ => trivial

theorem Tracks.frame {disk : Durable} {image : σ} {r : Raft}
    (tracks : Tracks machine charter before disk image r) (distinct : r.id ≠ node)
    (steps : Steps charter.rules node before after) (inv : Invariant charter.rules before) :
    Tracks machine charter after disk image r := by
  rcases steps.frame distinct with ⟨sameTerm, sameVote, sameRole, sameLog, sameCommit⟩
  have grows := steps.grows inv
  refine { tracks with
    term := sameTerm.trans tracks.term, vote := sameVote.trans tracks.vote,
    role := sameRole.trans tracks.role, log := sameLog ▸ tracks.log,
    config := sameLog ▸ tracks.config,
    commit := sameCommit.trans tracks.commit, votes := ?_, matched := ?_, decided := ?_,
    messages := ?_,
    snapshot := sameLog ▸ tracks.snapshot, image := sameLog ▸ tracks.image }
  · exact fun candidacy voter voted => grows.grants (tracks.votes candidacy voter voted)
  · intro leads peer p found other
    rcases tracks.matched leads peer p found other with zero | acked
    · exact Or.inl zero
    · exact Or.inr (grows.acks acked)
  · intro leads
    rcases tracks.decided leads with ⟨below, last⟩
    refine ⟨fun index made => below index ?_, fun own => grows.commits (last own)⟩
    rw [← tracks.term] at made ⊢
    exact steps.commits_frame inv distinct (by rw [tracks.role, leads]; rfl) made
  · exact fun peer msg posted => (tracks.messages peer msg posted).mono steps inv

end Lasting

theorem Log.foldl_applyEntry_of_plain {entries : List Entry} (base : Config)
    (plain : ∀ entry ∈ entries, entry.Plain) : entries.foldl Log.applyEntry base = base := by
  induction entries generalizing base with
  | nil => rfl
  | cons entry rest ih =>
    have skipped : Log.applyEntry base entry = base := by
      unfold Log.applyEntry
      split
      · rename_i change isChange
        exact absurd isChange (plain entry (List.mem_cons_self ..) change)
      · rfl
    rw [List.foldl_cons, skipped]
    exact ih base fun other member => plain other (List.mem_cons_of_mem _ member)

section Fixed

variable {state : State NodeId Entry} {log : List Entry}

section

variable (fixed : charter.roster = .fixed) (inv : Invariant charter.rules state)
  (rooted : state.Rooted log)

include fixed inv rooted

theorem plain_of_fixed : ∀ entry ∈ log, entry.Plain := by
  intro entry member change isChange
  rcases List.getElem?_of_mem member with ⟨position, present⟩
  have changing := ((inv.fits_of_rooted rooted present).2 change isChange).1
  rw [fixed] at changing
  cases changing

theorem configAfter_of_fixed : charter.configAfter log = charter.config :=
  Log.foldl_applyEntry_of_plain _ (plain_of_fixed fixed inv rooted)

end

end Fixed

namespace Tracks

variable {state : State NodeId Entry} {disk : Durable} {image : σ} {r : Raft}

section

variable (tracks : Tracks machine charter state disk image r)

include tracks

theorem config_eq : r.log.config = charter.configAfter (state.log r.id) := by
  unfold Log.config
  rw [tracks.config, tracks.log.entries, Charter.configAfter, Charter.configAfter,
    ← List.foldl_append, List.take_append_drop]

theorem config_of_fixed (fixed : charter.roster = .fixed) (inv : Invariant charter.rules state) :
    r.log.config = charter.config :=
  tracks.config_eq.trans (configAfter_of_fixed fixed inv (inv.log_rooted r.id))

theorem commit_le (inv : Invariant charter.rules state) : r.commit ≤ (state.log r.id).length := by
  rw [← tracks.commit]
  exact (inv.commit_certified r.id).1

theorem certified (inv : Invariant charter.rules state) :
    state.Certified r.term ((state.log r.id).take r.commit) := by
  rw [← tracks.commit, ← tracks.term]
  exact (inv.commit_certified r.id).2

theorem leads (inv : Invariant charter.rules state) (isLeader : r.role = .leader) :
    state.leader r.term = some r.id ∧ state.leaderLog r.term = state.log r.id := by
  have abstractLeader : state.role r.id = .leader := by
    rw [tracks.role, isLeader]
    rfl
  rw [← tracks.term]
  exact inv.leader_role abstractLeader

end

end Tracks

/-- The node got from `r` to `r'` along actions of the protocol. -/
def Refines (machine : StateMachine σ) (charter : Charter) (state : State NodeId Entry)
    (disk : Durable) (image : σ) (r r' : Raft) : Prop :=
  r'.id = r.id ∧ ∃ after, Steps charter.rules r.id state after ∧
    Tracks machine charter after disk image r'

namespace Refines

variable {state after : State NodeId Entry} {disk : Durable} {image : σ} {r r' r'' : Raft}

theorem refl (tracks : Tracks machine charter state disk image r) :
    Refines machine charter state disk image r r :=
  ⟨rfl, state, .refl, tracks⟩

theorem of_tracks (sameId : r'.id = r.id) (tracks : Tracks machine charter state disk image r') :
    Refines machine charter state disk image r r' :=
  ⟨sameId, state, .refl, tracks⟩

theorem of_step (sameId : r'.id = r.id) (step : Consensus.Step charter.rules r.id state after)
    (tracks : Tracks machine charter after disk image r') :
    Refines machine charter state disk image r r' :=
  ⟨sameId, after, .single step, tracks⟩

theorem after_step (step : Consensus.Step charter.rules r.id state after) (sameId : r'.id = r.id)
    (rest : Refines machine charter after disk image r' r'') :
    Refines machine charter state disk image r r'' := by
  rcases rest with ⟨restId, last, steps, tracks⟩
  rw [sameId] at steps
  exact ⟨restId.trans sameId, last, (Steps.single step).trans steps, tracks⟩

theorem trans (inv : Invariant charter.rules state)
    (first : Refines machine charter state disk image r r')
    (second : ∀ middle, Steps charter.rules r.id state middle → Invariant charter.rules middle →
      Tracks machine charter middle disk image r' →
        Refines machine charter middle disk image r' r'') :
    Refines machine charter state disk image r r'' := by
  rcases first with ⟨sameId, middle, steps, tracks⟩
  rcases second middle steps (steps.invariant inv) tracks with ⟨sameId', after, steps', tracks'⟩
  rw [sameId] at steps'
  exact ⟨sameId'.trans sameId, after, steps.trans steps', tracks'⟩

end Refines

end ChronoScope.Chronolog
