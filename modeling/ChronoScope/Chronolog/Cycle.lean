import ChronoScope.Chronolog.Handlers

/-!
# Cycles, compaction and restarts refine the protocol

A cycle leaves the disk in agreement with memory, so a restart afterwards brings
back the same term, vote and log and only forgets the role and part of the
commit index. Compaction changes neither the log a node stands for nor, as long
as no entry touches the membership, its configuration.
-/

namespace ChronoScope.Chronolog

open List

open Consensus (State Rules Invariant Steps)

variable {σ : Type} {machine : StateMachine σ} {charter : Charter} {state : State NodeId Entry}
  {disk : Durable} {image : σ} {r : Raft}

namespace Tracks

section

variable (tracks : Tracks machine charter state disk image r)

include tracks

theorem committed_eq (inv : Invariant charter.rules state) :
    r.ready.1.committed = ((state.log r.id).take r.commit).drop r.applied := by
  have bound := tracks.commit_le inv
  have clamped : min r.commit r.log.lastIndex = r.commit := by
    rw [tracks.log.lastIndex]
    exact min_eq_left bound
  simp only [Raft.ready, clamped]
  split_ifs with behind
  · rw [tracks.log.slice (Nat.lt_succ_of_le tracks.snapshot_applied)]
    simp
  · rw [tracks.pending_plain.2.2, drop_eq_nil_of_le]
    rw [length_take]
    omega

theorem applied_after (inv : Invariant charter.rules state) :
    (r.ready.1.committed.getLast?.map Entry.index).getD r.applied = r.commit := by
  have indexed := ((tracks.log.indexed.take r.commit).drop r.applied).getLast?
  have bound := tracks.commit_le inv
  have progressed := tracks.applied_commit
  rw [Nat.zero_add, ← tracks.committed_eq inv] at indexed
  rw [indexed, tracks.committed_eq inv, length_drop, length_take]
  omega

theorem entries_after : (disk.persist r.truncateTo r.ready.1).entries = r.log.entries := by
  have mirror := tracks.mirror
  cases dirty : r.dirtyFrom with
  | none =>
    simp only [dirty, Mirrors, survivors] at mirror
    simp only [Durable.persist, Raft.truncateTo, Raft.ready, dirty, Option.map_none,
      tracks.pending_plain.2.1, append_nil]
    exact mirror
  | some start =>
    simp only [dirty, Mirrors] at mirror
    have kept : (if r.pending.snapshot.isSome then [] else
        disk.entries.filter fun entry => decide (entry.index < start)) =
        ((state.log r.id).take (start - 1)).drop r.log.snapshotIndex := by
      rw [← tracks.log.filter_lt, ← mirror, survivors]
      split_ifs <;> rfl
    have written : r.log.entriesFrom (max start r.log.firstIndex) =
        (state.log r.id).drop (max (start - 1) r.log.snapshotIndex) := by
      rw [tracks.log.entriesFrom (by rw [Log.firstIndex]; omega), Log.firstIndex]
      congr 1
      omega
    simp only [Durable.persist, Raft.truncateTo, Raft.ready, dirty, Option.map_some, kept,
      written]
    rw [tracks.log.entries]
    rcases Nat.le_total (start - 1) r.log.snapshotIndex with below | above
    · rw [max_eq_right below, drop_eq_nil_of_le, nil_append]
      rw [length_take]
      omega
    · rw [max_eq_left above, drop_take]
      conv_rhs => rw [← take_append_drop (start - 1 - r.log.snapshotIndex)
        ((state.log r.id).drop r.log.snapshotIndex)]
      rw [drop_drop, Nat.add_sub_cancel' above]

theorem image_after (inv : Invariant charter.rules state) :
    Node.applyReady machine image r.ready.1 =
      machine.replay ((state.log r.id).take r.commit) := by
  have split : (state.log r.id).take r.commit =
      (state.log r.id).take r.applied ++ ((state.log r.id).take r.commit).drop r.applied := by
    conv_lhs => rw [← take_append_drop r.applied ((state.log r.id).take r.commit)]
    rw [take_take, min_eq_left tracks.applied_commit]
  rw [split, StateMachine.replay, foldl_append, ← tracks.committed_eq inv]
  refine congrArg (fun start => r.ready.1.committed.foldl machine.apply start) ?_
  have collected : r.ready.1.snapshot = r.pending.snapshot := rfl
  rw [collected]
  cases pending : r.pending.snapshot with
  | none => exact tracks.image pending
  | some snap =>
    have described := tracks.snapshot snap (by simp [latestSnapshot, pending])
    have applied := (tracks.installed (by simp [pending])).1
    simp only [described.data, StateMachine.image, machine.restore_snapshot, Option.getD_some,
      described.lastIndex, StateMachine.replay, ← applied]

end

end Tracks

/-- What `advance` notes, before a leader looks at its quorum again. -/
def noteReady (r : Raft) (ready : Ready) : Raft :=
  { r with
    persistedHardState := ready.hardState.getD r.persistedHardState
    progress := r.progress.modify r.id fun p =>
      { p with matched := r.persisted, next := r.persisted + 1 }
    applied := (ready.committed.getLast?.map Entry.index).getD r.applied
    dirtyFrom := none }

theorem maybeAdvanceCommit_applied (r : Raft) (applied : ℕ) (dirtyFrom : Option ℕ) :
    { r with applied := applied, dirtyFrom := dirtyFrom }.maybeAdvanceCommit =
      { r.maybeAdvanceCommit with applied := applied, dirtyFrom := dirtyFrom } := by
  have sameMatched : { r with applied := applied, dirtyFrom := dirtyFrom }.matchedIndex =
      r.matchedIndex := rfl
  simp only [Raft.maybeAdvanceCommit, sameMatched]
  split_ifs <;> rfl

theorem maybeAdvanceCommit_applied_eq (r : Raft) : r.maybeAdvanceCommit.applied = r.applied := by
  obtain ⟨_, _, _, _, advanced⟩ := maybeAdvanceCommit_eq r
  rw [advanced]

theorem advance_eq (r : Raft) (ready : Ready) :
    r.advance ready =
      if r.role = .leader then (noteReady r ready).maybeAdvanceCommit else noteReady r ready := by
  by_cases isLeader : r.role = .leader
  · simp only [Raft.advance, if_pos isLeader, maybeAdvanceCommit_applied_eq]
    exact (maybeAdvanceCommit_applied _ _ _).symm
  · simp only [Raft.advance, if_neg isLeader]
    rfl

/-- The node after a cycle, before a leader looks at its quorum again. -/
def Node.noted (node : Node σ) : Raft :=
  noteReady (node.raft.ready.2.setPersisted
    (node.disk.persist node.raft.truncateTo node.raft.ready.1).lastIndex) node.raft.ready.1

theorem cycle_raft (machine : StateMachine σ) (node : Node σ) :
    (node.cycle machine).raft = node.noted ∨
      node.noted.role = .leader ∧ (node.cycle machine).raft = node.noted.maybeAdvanceCommit := by
  simp only [Node.cycle, advance_eq]
  split_ifs with leads
  · exact Or.inr ⟨leads, rfl⟩
  · exact Or.inl rfl

theorem cycle_pending (machine : StateMachine σ) (node : Node σ) :
    (node.cycle machine).raft.pending = .default := by
  rcases cycle_raft machine node with same | ⟨_, advanced⟩
  · rw [same]
    rfl
  · rw [advanced]
    obtain ⟨_, _, _, _, raised⟩ := maybeAdvanceCommit_eq node.noted
    rw [raised]
    rfl

theorem Tracks.hardState_after (tracks : Tracks machine charter state disk image r) :
    let written := r.ready.1.hardState.getD disk.hardState
    written.term = r.term ∧ written.vote = r.vote ∧ written.commit ≤ r.commit ∧
      (r.ready.1.hardState.getD r.persistedHardState).term = written.term ∧
      (r.ready.1.hardState.getD r.persistedHardState).vote = written.vote := by
  simp only [Raft.ready, tracks.pending_plain.1]
  by_cases dirty : r.hardStateDirty = true
  · by_cases changed : r.term = r.persistedHardState.term ∧ r.vote = r.persistedHardState.vote
    · simp only [dirty, changed.1, changed.2, ne_eq, not_true_eq_false, decide_false, Bool.or_self,
        Bool.and_false, Bool.false_eq_true, if_false, Option.getD_none]
      exact ⟨tracks.hard_term.symm, tracks.hard_vote.symm, tracks.hard_commit, tracks.hard_term,
        tracks.hard_vote⟩
    · have must : (decide (r.term ≠ r.persistedHardState.term) ||
          decide (r.vote ≠ r.persistedHardState.vote)) = true := by
        simpa [Classical.or_iff_not_imp_left] using changed
      rw [dirty, must]
      exact ⟨rfl, rfl, le_refl _, rfl, rfl⟩
  · have clean := tracks.hard_clean (by simpa using dirty)
    rw [Bool.not_eq_true] at dirty
    simp only [dirty, Bool.false_and, Bool.false_eq_true, if_false, Option.getD_none]
    exact ⟨clean.1.symm, clean.2.symm, tracks.hard_commit, tracks.hard_term, tracks.hard_vote⟩

/-- Writing, applying and noting what was done changes nothing the protocol sees. -/
theorem Tracks.noteReady (tracks : Tracks machine charter state disk image r)
    (inv : Invariant charter.rules state) :
    let written := disk.persist r.truncateTo r.ready.1
    Tracks machine charter state written (Node.applyReady machine image r.ready.1)
      (noteReady (r.ready.2.setPersisted written.lastIndex) r.ready.1) := by
  intro written
  have appliedIs := tracks.applied_after inv
  have commitIs : min r.commit r.log.lastIndex = r.commit := by
    rw [tracks.log.lastIndex]
    exact min_eq_left (tracks.commit_le inv)
  rcases tracks.hardState_after with ⟨termIs, voteIs, commitBound, noteTerm, noteVote⟩
  exact {
    term := tracks.term
    vote := tracks.vote
    role := tracks.role
    log := tracks.log
    config := tracks.config
    commit := tracks.commit.trans commitIs.symm
    snapshot_applied := by
      show r.log.snapshotIndex ≤ (r.ready.1.committed.getLast?.map Entry.index).getD r.applied
      rw [appliedIs]
      exact tracks.snapshot_applied.trans tracks.applied_commit
    applied_commit := appliedIs.le.trans commitIs.ge
    votes := tracks.votes
    unled := by
      intro notLeader
      simp only [Chronolog.noteReady, Raft.setPersisted, Raft.ready, tracks.unled notLeader]
      rfl
    matched := by
      intro isLeader peer p found other
      have notSelf : peer ≠ r.id := other
      apply tracks.matched isLeader peer p ?_ notSelf
      simpa [Chronolog.noteReady, Raft.setPersisted, Raft.ready, BTreeMap.get_modify, notSelf]
        using found
    decided := by
      intro isLeader
      show (∀ index, (r.term, index) ∈ state.commits → index ≤ min r.commit r.log.lastIndex) ∧
        (r.committedOwnTerm = true → (r.term, min r.commit r.log.lastIndex) ∈ state.commits)
      rw [commitIs]
      exact tracks.decided isLeader
    messages := fun _ _ posted => nomatch posted
    pending_plain := ⟨rfl, rfl, rfl⟩
    hard_term := noteTerm
    hard_vote := noteVote
    hard_commit := commitBound.trans commitIs.ge
    hard_clean := fun _ => ⟨termIs.symm, voteIs.symm⟩
    uncompacted := tracks.uncompacted
    whole := tracks.whole
    snapshot := tracks.snapshot
    mirror := tracks.entries_after
    image := by
      intro _
      show Node.applyReady machine image r.ready.1 = machine.replay ((state.log r.id).take
        ((r.ready.1.committed.getLast?.map Entry.index).getD r.applied))
      rw [appliedIs]
      exact tracks.image_after inv
    installed := fun pending => absurd rfl pending }

theorem Settled.maybeAdvanceCommit (settled : Settled disk r) :
    Settled disk r.maybeAdvanceCommit := by
  obtain ⟨_, _, _, _, advanced⟩ := maybeAdvanceCommit_eq r
  rw [advanced]
  exact { settled with }

variable {node : Node σ}

/-- A cycle refines the protocol and leaves disk and memory in agreement. -/
theorem Tracks.cycle (tracks : Tracks machine charter state node.disk node.machine node.raft)
    (inv : Invariant charter.rules state) :
    Settled (node.cycle machine).disk (node.cycle machine).raft ∧
      (node.cycle machine).raft.id = node.raft.id ∧
      ∃ after, Steps charter.rules node.raft.id state after ∧
        Tracks machine charter after (node.cycle machine).disk (node.cycle machine).machine
          (node.cycle machine).raft := by
  have noted := tracks.noteReady inv
  rcases tracks.hardState_after with ⟨termIs, voteIs, _⟩
  set persisted := node.raft.ready.2.setPersisted (node.cycle machine).disk.lastIndex
  have settled : Settled (node.cycle machine).disk
      (Chronolog.noteReady persisted node.raft.ready.1) := ⟨rfl, rfl, termIs.symm, voteIs.symm⟩
  by_cases isLeader : node.raft.role = .leader
  · have advanced : (node.cycle machine).raft =
        (Chronolog.noteReady persisted node.raft.ready.1).maybeAdvanceCommit :=
      (advance_eq _ _).trans (if_pos isLeader)
    rw [advanced]
    exact ⟨settled.maybeAdvanceCommit, Refines.maybeAdvanceCommit noted inv isLeader⟩
  · have advanced : (node.cycle machine).raft =
        Chronolog.noteReady persisted node.raft.ready.1 :=
      (advance_eq _ _).trans (if_neg isLeader)
    rw [advanced]
    exact ⟨settled, rfl, state, .refl, noted⟩

theorem Tracks.snapshotAtApplied (tracks : Tracks machine charter state disk image r)
    (fixed : charter.roster = .fixed) (inv : Invariant charter.rules state)
    (idle : r.pending.snapshot = none) {snap : Snapshot}
    (taken : r.snapshotAtApplied (machine.snapshot image) = some snap) :
    snap.lastIndex = r.applied ∧
      snap.config = charter.configAfter ((state.log r.id).take r.applied) ∧
      Consensus.termAt (state.log r.id) r.applied = some snap.lastTerm ∧
      snap.data = machine.image ((state.log r.id).take r.applied) := by
  rcases Option.map_eq_some_iff.mp taken with ⟨term, known, rfl⟩
  refine ⟨rfl, ?_, tracks.log.termAt_of_eq_some known, ?_⟩
  · rw [configAfter_of_fixed fixed inv ((inv.log_rooted r.id).take _)]
    exact tracks.config_of_fixed fixed inv
  · simp only [StateMachine.image, tracks.image idle]

section

variable (tracks : Tracks machine charter state node.disk node.machine node.raft)
  (fixed : charter.roster = .fixed) (inv : Invariant charter.rules state)
  (settled : Settled node.disk node.raft)

include tracks fixed inv settled

theorem Tracks.compact {compacted : Node σ} (done : node.compact machine = some compacted) :
    Settled compacted.disk compacted.raft ∧ compacted.raft.id = node.raft.id ∧
      Tracks machine charter state compacted.disk compacted.machine compacted.raft := by
  rcases Option.map_eq_some_iff.mp done with ⟨snap, taken, rfl⟩
  rcases tracks.snapshotAtApplied fixed inv settled.snapshot taken with
    ⟨indexIs, configIs, known, data⟩
  rw [← indexIs] at configIs known data
  have above : node.raft.log.snapshotIndex ≤ snap.lastIndex :=
    indexIs.symm ▸ tracks.snapshot_applied
  have present := Consensus.le_length_of_termAt known
  have kept : (node.raft.log.compactThrough snap.lastIndex snap.lastTerm snap.config).Represents
      (state.log node.raft.id) := tracks.log.compactThrough present known
  have indexed : (node.raft.log.compactThrough snap.lastIndex snap.lastTerm
      snap.config).snapshotIndex = snap.lastIndex :=
    tracks.log.compactThrough_index above present
  have termed : (node.raft.log.compactThrough snap.lastIndex snap.lastTerm
      snap.config).snapshotTerm = snap.lastTerm := by
    have := kept.snapshotTerm
    rw [indexed, known] at this
    exact (Option.some.inj this).symm
  have configured : (node.raft.log.compactThrough snap.lastIndex snap.lastTerm
      snap.config).snapshotConfig = charter.configAfter ((state.log node.raft.id).take
        (node.raft.log.compactThrough snap.lastIndex snap.lastTerm snap.config).snapshotIndex) := by
    rw [indexed]
    unfold Log.compactThrough
    split_ifs with covered
    · rw [tracks.config, le_antisymm above covered]
    · exact configIs
  have mirror := tracks.mirror
  simp only [settled.dirtyFrom, Mirrors, survivors, settled.snapshot, Option.isSome_none,
    Bool.false_eq_true, if_false] at mirror
  have entriesAre : (node.disk.compact snap).entries =
      (node.raft.log.compactThrough snap.lastIndex snap.lastTerm snap.config).entries := by
    have indexedEntries := tracks.log.indexed.drop node.raft.log.snapshotIndex
    rw [Nat.zero_add, ← tracks.log.entries] at indexedEntries
    simp only [Durable.compact, mirror, kept.entries, indexed]
    rw [indexedEntries.filter_gt, tracks.log.entries, drop_drop, Nat.add_sub_cancel' above]
  refine ⟨{ settled with }, rfl, { tracks with
    log := kept, config := configured, snapshot_applied := ?_, uncompacted := ?_, whole := ?_,
    snapshot := ?_, mirror := ?_, installed := ?_ }⟩
  · exact (indexed.trans indexIs).le
  · intro missing
    simp [latestSnapshot, Raft.compact, settled.snapshot, Durable.compact] at missing
  · intro changing
    cases fixed.symm.trans changing
  · intro found isLatest
    have same : snap = found := by
      simpa [latestSnapshot, Raft.compact, settled.snapshot, Durable.compact] using isLatest
    subst same
    exact ⟨indexed.symm, termed.symm, configIs, data⟩
  · simp only [Raft.compact, settled.dirtyFrom, Mirrors, survivors, settled.snapshot,
      Option.isSome_none, Bool.false_eq_true, if_false]
    exact entriesAre
  · exact fun pending => absurd settled.snapshot pending

theorem Tracks.ship {shipped : Node σ} {peer : NodeId}
    (done : node.ship machine peer = some shipped) :
    Settled shipped.disk shipped.raft ∧ shipped.raft.id = node.raft.id ∧
      Tracks machine charter state shipped.disk shipped.machine shipped.raft := by
  unfold Node.ship at done
  split_ifs at done with isLeader
  rcases Option.map_eq_some_iff.mp done with ⟨snap, taken, rfl⟩
  rcases tracks.snapshotAtApplied fixed inv settled.snapshot taken with
    ⟨indexIs, configIs, known, data⟩
  rcases tracks.leads inv isLeader with ⟨leads, sameLog⟩
  rw [← indexIs] at configIs known data
  refine ⟨{ settled with }, rfl, ?_⟩
  apply Tracks.post
  · exact tracks.keepMatched_modify isLeader fun _ _ _ => Or.inl rfl
  · refine ⟨fixed, by simp [leads], ?_, ?_, ?_, ?_⟩
    · simpa only [sameLog] using known
    · simp only [sameLog]
      apply (tracks.certified inv).of_isPrefix
      rw [indexIs]
      exact take_prefix_take_left tracks.applied_commit
    · simpa only [sameLog] using configIs
    · simpa only [sameLog] using data

end

theorem Refines.stepDown (tracks : Tracks machine charter state disk image r)
    (inv : Invariant charter.rules state) :
      Refines machine charter state disk image r r.stepDown := by
  unfold Raft.stepDown
  split_ifs
  · exact .becomeFollower tracks inv _ _
  · exact .refl tracks

theorem Settled.stepDown (settled : Settled disk r) : Settled disk r.stepDown := by
  unfold Raft.stepDown
  split_ifs
  · rw [becomeFollower_of_le le_rfl]
    exact { settled with }
  · exact settled

/-- Without voters nobody is ever elected, so nothing is ever logged. -/
theorem log_eq_nil_of_noVoters (fixed : charter.roster = .fixed)
    (inv : Invariant charter.rules state) (noVoters : charter.config.voters = ∅)
    (simple : charter.config.outgoing = ∅) (id : NodeId) : state.log id = [] := by
  rcases inv.log_rooted id with empty | ⟨term, led, _⟩
  · exact empty
  · rcases Option.ne_none_iff_exists'.mp led with ⟨leader, leads⟩
    rcases inv.elected leads with ⟨_, ⟨voters, quorum, _⟩, _⟩
    change (charter.configAfter (state.electLog term)).hasQuorum voters = true at quorum
    rw [configAfter_of_fixed fixed inv (inv.electLog_backed led).rooted] at quorum
    rcases (Config.hasQuorum_iff.mp quorum).1 with someVoters | joint
    · exact absurd noVoters someVoters
    · exact absurd simple joint

theorem Tracks.entries_eq (tracks : Tracks machine charter state disk image r)
    (settled : Settled disk r) : disk.entries = r.log.entries := by
  simpa only [settled.dirtyFrom, Mirrors, survivors, settled.snapshot, Option.isSome_none,
    Bool.false_eq_true, if_false] using tracks.mirror

theorem Settled.latestSnapshot_eq (settled : Settled disk r) :
    latestSnapshot disk r = disk.snapshot := by
  simp [latestSnapshot, settled.snapshot]

theorem Tracks.restored_log (tracks : Tracks machine charter state disk image r)
    (fixed : charter.roster = .fixed) (inv : Invariant charter.rules state)
    (settled : Settled disk r) (simple : charter.config.outgoing = ∅) :
    (Raft.restore r.id r.opts disk.hardState disk.snapshot disk.entries charter.config).log =
      r.log := by
  have entriesAre := tracks.entries_eq settled
  have latest := settled.latestSnapshot_eq
  have rebuilt (base : r.log.snapshotIndex = 0) {recovered : Log}
      (represents : recovered.Represents (state.log r.id)) (start : recovered.snapshotIndex = 0) :
      (Log.bootstrap charter.config).append (recovered.entriesFrom 1) = r.log := by
    have termZero := tracks.log.snapshotTerm
    have entriesFull := tracks.log.entries
    rw [base] at termZero entriesFull
    rw [represents.entriesFrom (by omega)]
    rcases logIs : r.log with ⟨index, term, config, entries⟩
    have config_eq := tracks.config
    rw [base, take_zero] at config_eq
    simp only [logIs] at base termZero entriesFull config_eq
    simp only [Log.bootstrap, Log.new, Log.append, nil_append, Nat.sub_self, base, config_eq,
      Charter.configAfter, foldl_nil, entriesFull, Log.mk.injEq, true_and, and_true]
    exact Option.some.inj termZero
  simp only [Raft.restore, entriesAre]
  cases found : disk.snapshot with
  | none =>
    have base := tracks.uncompacted (latest.trans found)
    have whole := tracks.log.entries
    rw [base] at whole
    have represents : (Log.restore none r.log.entries).Represents (state.log r.id) :=
      ⟨tracks.log.indexed, Nat.zero_le _, whole, rfl⟩
    have unconfigured : (Log.restore none r.log.entries).config = .default :=
      Log.foldl_applyEntry_of_plain _ (whole ▸ plain_of_fixed fixed inv (inv.log_rooted r.id))
    rw [unconfigured]
    exact rebuilt base represents rfl
  | some snap =>
    have described := tracks.snapshot snap (latest.trans found)
    have same : Log.restore (some snap) r.log.entries = r.log := by
      have configIs := described.config
      rw [described.lastIndex, ← tracks.config] at configIs
      simp only [Log.restore, described.lastIndex, described.lastTerm, configIs]
    rw [same, tracks.config_of_fixed fixed inv]
    split_ifs with noVoters
    · have empty := log_eq_nil_of_noVoters fixed inv (by simpa using noVoters) simple r.id
      have base : r.log.snapshotIndex = 0 := by
        have := tracks.log.bound
        simpa [empty] using this
      exact rebuilt base tracks.log base
    · rfl

/-- A restart is a retirement that may forget part of what is committed. -/
theorem Tracks.restart (tracks : Tracks machine charter state node.disk node.machine node.raft)
    (fixed : charter.roster = .fixed) (inv : Invariant charter.rules state)
    (settled : Settled node.disk node.raft) (simple : charter.config.outgoing = ∅) :
    let restarted := node.restart machine charter.config
    Settled restarted.disk restarted.raft ∧ restarted.raft.id = node.raft.id ∧
      ∃ after, Steps charter.rules node.raft.id state after ∧
        Tracks machine charter after restarted.disk restarted.machine restarted.raft := by
  intro restarted
  have logIs : restarted.raft.log = node.raft.log := tracks.restored_log fixed inv settled simple
  have latest : latestSnapshot node.disk node.raft = node.disk.snapshot := by
    simp [latestSnapshot, settled.snapshot]
  have bound := tracks.commit_le inv
  have hardCommit := tracks.hard_commit
  have commitIs : restarted.raft.commit =
      max node.disk.hardState.commit node.raft.log.snapshotIndex := by
    show max (min node.disk.hardState.commit restarted.raft.log.lastIndex)
      restarted.raft.log.snapshotIndex = _
    rw [logIs, tracks.log.lastIndex, min_eq_left (hardCommit.trans bound)]
  have covered : restarted.raft.commit ≤ node.raft.commit := by
    rw [commitIs]
    exact max_le hardCommit (tracks.snapshot_applied.trans tracks.applied_commit)
  have certified : state.Certified node.raft.term
      ((state.log node.raft.id).take restarted.raft.commit) :=
    (tracks.certified inv).of_isPrefix (take_prefix_take_left covered)
  have retired : Consensus.Step charter.rules node.raft.id state (state.retire node.raft.id) :=
    .retire
  have learned : Consensus.Step charter.rules node.raft.id (state.retire node.raft.id)
      ((state.retire node.raft.id).learn node.raft.id restarted.raft.commit) := by
    apply Consensus.Step.learn
    · exact covered.trans bound
    · show state.Certified (state.term node.raft.id) _
      rw [tracks.term]
      exact certified
  refine ⟨⟨rfl, rfl, rfl, rfl⟩, rfl, _, (Steps.single retired).trans (.single learned), ?_⟩
  exact {
    term := tracks.term.trans settled.term
    vote := tracks.vote.trans settled.vote
    role := by simp [State.learn, State.retire, restarted, Node.restart, Raft.restore, Raft.new,
      Role.abstract]
    log := by
      rw [logIs]
      exact tracks.log
    config := logIs.symm ▸ tracks.config
    commit := by simp [State.learn, restarted, Node.restart, Raft.restore, Raft.new]
    snapshot_applied := le_rfl
    applied_commit := by
      rw [commitIs]
      show restarted.raft.log.snapshotIndex ≤ _
      rw [logIs]
      exact le_max_right _ _
    votes := fun candidacy => nomatch candidacy
    unled := fun _ => rfl
    matched := fun leads => nomatch leads
    decided := fun leads => nomatch leads
    messages := fun _ _ posted => nomatch posted
    pending_plain := ⟨rfl, rfl, rfl⟩
    hard_term := rfl
    hard_vote := rfl
    hard_commit := by
      rw [commitIs]
      exact le_max_left _ _
    hard_clean := fun _ => ⟨rfl, rfl⟩
    whole := fun changing => nomatch fixed.symm.trans changing
    uncompacted := by
      rw [logIs]
      exact fun missing => tracks.uncompacted (latest.trans missing)
    snapshot := by
      rw [logIs]
      exact fun snap found => tracks.snapshot snap (latest.trans found)
    mirror := by
      have mirror := tracks.mirror
      rw [settled.dirtyFrom, survivors, settled.snapshot] at mirror
      rw [logIs]
      exact mirror
    image := by
      intro _
      show ((node.disk.snapshot.map Snapshot.data).bind machine.restore).getD machine.init =
        machine.replay ((state.log node.raft.id).take restarted.raft.log.snapshotIndex)
      rw [logIs]
      cases found : node.disk.snapshot with
      | none =>
        rw [tracks.uncompacted (latest.trans found)]
        rfl
      | some snap =>
        have described := tracks.snapshot snap (latest.trans found)
        simp [described.data, StateMachine.image, machine.restore_snapshot, described.lastIndex]
    installed := fun pending => absurd rfl pending }

theorem Tracks.new (machine : StateMachine σ) (charter : Charter) (id : NodeId)
    (opts : RaftOptions) :
    Tracks machine charter (State.initial NodeId Entry) .empty machine.init
      (.new id charter.config opts) where
  term := rfl
  vote := rfl
  role := rfl
  log := ⟨fun _ _ present => (nomatch present), le_rfl, rfl, rfl⟩
  config := rfl
  commit := rfl
  snapshot_applied := le_rfl
  applied_commit := le_rfl
  votes candidacy := nomatch candidacy
  unled _ := rfl
  matched leads := nomatch leads
  decided leads := nomatch leads
  messages _ _ posted := nomatch posted
  pending_plain := ⟨rfl, rfl, rfl⟩
  hard_term := rfl
  hard_vote := rfl
  hard_commit := le_rfl
  hard_clean _ := ⟨rfl, rfl⟩
  uncompacted _ := rfl
  whole _ := rfl
  snapshot _ found := nomatch found
  mirror := rfl
  image _ := rfl
  installed pending := absurd rfl pending

namespace Setup.Event

variable {setup : Setup σ} {cluster next : Cluster σ} {action : Action}

theorem network (event : setup.Event cluster action next) {envelope : Envelope}
    (known : envelope ∈ next.network) : envelope ∈ cluster.network ∨
      envelope.sender = action.actor ∧ (envelope.receiver, envelope.msg) ∈
        (cluster.node action.actor).raft.pending.messages := by
  cases event with
  | cycle id =>
    rcases mem_append.mp known with earlier | new
    · exact Or.inl earlier
    · rcases mem_map.mp new with ⟨_, posted, rfl⟩
      exact Or.inr ⟨rfl, posted⟩
  | _ => exact Or.inl known

/-- Besides inputs, only shipping a snapshot posts a message. -/
theorem waits (event : setup.Event cluster action next)
    (notInput : ∀ input, action ≠ .input action.actor input) {peer : NodeId} {msg : Message}
    (posted : (peer, msg) ∈ (next.node action.actor).raft.pending.messages) :
    (peer, msg) ∈ (cluster.node action.actor).raft.pending.messages ∨
      ∃ snap, msg.body = .snapshotReq snap := by
  cases event with
  | input => exact absurd rfl (notInput _)
  | cycle id =>
    have emptied := cycle_pending setup.machine (cluster.node id)
    simp [Action.actor, Setup.place, emptied, Ready.default] at posted
  | @compact id node idle done =>
    rcases Option.map_eq_some_iff.mp done with ⟨snap, _, rfl⟩
    simp only [Action.actor, Setup.place, Function.update_self] at posted
    exact Or.inl posted
  | @ship id peer node idle done =>
    unfold Node.ship at done
    split_ifs at done
    rcases Option.map_eq_some_iff.mp done with ⟨snap, _, rfl⟩
    simp only [Action.actor, Setup.place, Function.update_self] at posted
    rcases mem_append.mp posted with earlier | new
    · exact Or.inl earlier
    · cases mem_singleton.mp new
      exact Or.inr ⟨snap, rfl⟩
  | @stepDown id idle =>
    simp only [Action.actor, Setup.place, Function.update_self] at posted
    rcases stepDown_cases (cluster.node id).raft with same | ⟨_, stoodDown⟩
    · rw [same] at posted
      exact Or.inl posted
    · rw [stoodDown, becomeFollower_of_le le_rfl] at posted
      exact Or.inl posted
  | restart =>
    simp only [Action.actor, Setup.place, Function.update_self] at posted
    cases posted

end Setup.Event

end ChronoScope.Chronolog
