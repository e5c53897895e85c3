import ChronoScope.Chronolog.Moves
import ChronoScope.Chronolog.Refinement

/-!
# Roles, elections and commitment refine the protocol

The functions a node uses to change its role, to replicate as a leader and to
advance its commit index. Sending is not an action of the protocol: a leader may
send any slice of its log at any time. Winning an election is one action that
also appends the entry the leader opens its term with.
-/

namespace ChronoScope.Chronolog

open Consensus (State Rules Invariant Steps)

variable {σ : Type} {machine : StateMachine σ} {charter : Charter} {state : State NodeId Entry}
  {disk : Durable} {image : σ} {r : Raft}

theorem Mirrors.markDirty {durable entries changed : List Entry} {dirtyFrom : Option ℕ}
    {index : ℕ} (mirrors : Mirrors durable dirtyFrom entries)
    (same : changed.filter (fun entry => decide (entry.index < index)) =
      entries.filter (fun entry => decide (entry.index < index))) :
    Mirrors durable (some (Raft.lowest dirtyFrom index)) changed := by
  have narrow : ∀ {left right : List Entry} {bound lower : ℕ}, lower ≤ bound →
      left.filter (fun entry => decide (entry.index < bound)) =
        right.filter (fun entry => decide (entry.index < bound)) →
      left.filter (fun entry => decide (entry.index < lower)) =
        right.filter (fun entry => decide (entry.index < lower)) := by
    intro left right bound lower isLower equal
    have refilter : ∀ entries : List Entry,
        entries.filter (fun entry => decide (entry.index < lower)) =
          (entries.filter (fun entry => decide (entry.index < bound))).filter
            (fun entry => decide (entry.index < lower)) := by
      intro entries
      rw [List.filter_filter]
      apply List.filter_congr
      intro entry _
      have : entry.index < lower → entry.index < bound := fun below => by omega
      simpa using this
    rw [refilter left, refilter right, equal]
  cases dirtyFrom with
  | none =>
    have equal : durable = entries := mirrors
    rw [equal]
    exact same.symm
  | some existing =>
    have shared := narrow (min_le_left existing index) mirrors
    exact shared.trans (narrow (min_le_right existing index) same).symm

variable {peer : NodeId}

namespace Tracks

section

variable (tracks : Tracks machine charter state disk image r)

include tracks

theorem post {msg : Message} (faithful : Faithful machine charter state r.id peer msg) :
    Tracks machine charter state disk image (r.post peer msg) := by
  refine { tracks with messages := ?_ }
  intro other sent posted
  rcases List.mem_append.mp posted with earlier | new
  · exact tracks.messages other sent earlier
  · have same : (other, sent) = (peer, msg) := by simpa using new
    rw [(Prod.mk.inj same).1, (Prod.mk.inj same).2]
    exact faithful

theorem keepMatched {progress : BTreeMap NodeId Progress} (isLeader : r.role = .leader)
    (kept : ∀ peer p, progress.get peer = some p → peer ≠ r.id → p.matched = 0 ∨
    (r.term, peer, p.matched) ∈ state.acks) :
    Tracks machine charter state disk image { r with progress := progress } :=
  { tracks with
    unled := fun notLeader => absurd isLeader notLeader
    matched := fun _ => kept }

theorem keepMatched_modify (isLeader : r.role = .leader) {change : Progress → Progress}
    (kept : ∀ p, r.progress.get peer = some p → peer ≠ r.id → (change p).matched = p.matched ∨
    (r.term, peer, (change p).matched) ∈ state.acks) :
    Tracks machine charter state disk image
      { r with progress := r.progress.modify peer change } := by
  apply tracks.keepMatched isLeader
  intro other p found notSelf
  rw [BTreeMap.get_modify] at found
  split_ifs at found with same
  · subst same
    rcases Option.map_eq_some_iff.mp found with ⟨old, wasOld, rfl⟩
    rcases kept old wasOld notSelf with unchanged | acked
    · rw [unchanged]
      exact tracks.matched isLeader other old wasOld notSelf
    · exact Or.inr acked
  · exact tracks.matched isLeader other p found notSelf

end

end Tracks

theorem cutEntries_isPrefix {maxBytes : ℕ} (position bytes : ℕ) (entries : List Entry) :
    Raft.cutEntries maxBytes position bytes entries <+: entries := by
  induction entries generalizing position bytes with
  | nil => exact List.prefix_rfl
  | cons entry rest ih =>
    simp only [Raft.cutEntries]
    split_ifs
    · exact List.nil_prefix
    · exact (List.cons_prefix_cons).mpr ⟨rfl, ih _ _⟩

namespace Tracks

section

variable (tracks : Tracks machine charter state disk image r) (inv : Invariant charter.rules state)

include tracks inv

theorem faithful_append (isLeader : r.role = .leader) {prevIndex prevTerm stop maxBytes : ℕ}
    (above : r.log.snapshotIndex ≤ prevIndex) (known : r.log.termAt prevIndex = some prevTerm) :
    Faithful machine charter state r.id peer ⟨r.term, .appendReq prevIndex prevTerm
      (Raft.cutEntries maxBytes 0 0 (r.log.slice (prevIndex + 1) stop)) r.commit⟩ := by
  rcases tracks.leads inv isLeader with ⟨leaderIs, logIs⟩
  refine ⟨by simp [leaderIs], ?_, ?_, ?_, ?_⟩
  · rw [logIs]
    exact tracks.log.termAt_of_eq_some known
  · refine (cutEntries_isPrefix 0 0 _).trans ?_
    rw [logIs, tracks.log.slice (by omega), Nat.add_sub_cancel]
    exact (List.take_prefix _ _).drop prevIndex
  · rw [logIs]
    exact tracks.commit_le inv
  · rw [logIs]
    exact tracks.certified inv

theorem faithful_heartbeat (isLeader : r.role = .leader) {ctx : ℕ} (other : peer ≠ r.id) :
    Faithful machine charter state r.id peer ⟨r.term, .heartbeatReq
      (min r.commit (((r.progress.get peer).map Progress.matched).getD 0)) ctx⟩ := by
  rcases tracks.leads inv isLeader with ⟨leaderIs, logIs⟩
  have bound := (min_le_left r.commit
    (((r.progress.get peer).map Progress.matched).getD 0)).trans (tracks.commit_le inv)
  refine ⟨by simp [leaderIs], by rwa [logIs], ?_, ?_⟩
  · simp only [logIs]
    exact (tracks.certified inv).of_isPrefix (List.take_prefix_take_left (min_le_left _ _))
  · cases found : r.progress.get peer with
    | none => exact Or.inl (by simp)
    | some p =>
      rcases tracks.matched isLeader peer p found other with zero | acked
      · exact Or.inl (by simp [zero])
      · exact Or.inr ⟨p.matched, by simp, acked⟩

theorem messages_mono {after : State NodeId Entry} {node : NodeId}
    (step : Consensus.Step charter.rules node state after) :
    ∀ peer msg, (peer, msg) ∈ r.pending.messages → Faithful machine charter after r.id peer msg :=
  fun peer msg posted => (tracks.messages peer msg posted).mono (.single step) inv

end

end Tracks

theorem Refines.becomeFollower (tracks : Tracks machine charter state disk image r)
    (inv : Invariant charter.rules state) (term : ℕ) (leader : Option NodeId) :
    Refines machine charter state disk image r (r.becomeFollower term leader) := by
  rcases Nat.lt_or_ge r.term term with later | notLater
  · have step : Consensus.Step charter.rules r.id state (state.bump r.id term) :=
      .bump term (by rw [tracks.term]; exact later)
    rw [becomeFollower_of_lt later]
    refine .of_step rfl step { tracks with
      term := by simp [State.bump]
      vote := by simp [State.bump]
      role := by simp [State.bump, Role.abstract]
      votes := fun candidacy => by cases candidacy
      unled := fun _ => rfl
      matched := fun leads => by cases leads
      decided := fun leads => by cases leads
      messages := tracks.messages_mono inv step
      hard_clean := fun clean => by cases clean }
  · have step : Consensus.Step charter.rules r.id state (state.retire r.id) := .retire
    rw [becomeFollower_of_le notLater]
    refine .of_step rfl step { tracks with
      role := by simp [State.retire, Role.abstract]
      votes := fun candidacy => by cases candidacy
      unled := fun _ => rfl
      matched := fun leads => by cases leads
      decided := fun leads => by cases leads
      messages := tracks.messages_mono inv step }

theorem Refines.maybeAdvanceCommit (tracks : Tracks machine charter state disk image r)
    (inv : Invariant charter.rules state) (isLeader : r.role = .leader) :
    Refines machine charter state disk image r r.maybeAdvanceCommit := by
  rcases maybeAdvanceCommit_cases r with
    unchanged | ⟨candidate, isQuorumIndex, above, ownTerm, advanced⟩
  · rw [unchanged]
    exact .refl tracks
  · rw [tracks.config_eq] at isQuorumIndex
    set cfg := charter.configAfter (state.log r.id)
    let reached : BTreeSet NodeId := .ofList
      ((cfg.voters.toList ++ cfg.outgoing.toList).filter fun id =>
        decide (candidate ≤ r.matchedIndex id))
    have quorum : cfg.hasQuorum reached = true := by
      have positive : 0 < cfg.quorumIndex r.matchedIndex := by omega
      apply Config.hasQuorum_of_quorumIndex positive
      · intro id isVoter enough
        rw [BTreeSet.mem_ofList, List.mem_filter]
        refine ⟨?_, by simpa [isQuorumIndex] using enough⟩
        simpa [Config.isVoter, BTreeSet.mem_def] using isVoter
    have step : Consensus.Step charter.rules r.id state (state.advance r.id candidate) := by
      refine .advance candidate {id | id ∈ reached} ?_
        (by omega) ?_ ⟨reached, quorum, fun _ => id⟩ ?_
      · rw [tracks.role, isLeader]
        rfl
      · rw [tracks.term]
        exact tracks.log.termAt_of_eq_some ownTerm
      · intro id member
        by_cases self : id = r.id
        · exact Or.inl self
        · right
          have enough : candidate ≤ r.matchedIndex id := by
            have inList := BTreeSet.mem_ofList.mp member
            simpa using (List.mem_filter.mp inList).2
          rw [Raft.matchedIndex, if_neg self] at enough
          cases found : r.progress.get id with
          | none =>
            simp only [found, Option.map_none, Option.getD_none] at enough
            omega
          | some p =>
            simp only [found, Option.map_some, Option.getD_some] at enough
            rcases tracks.matched isLeader id p found self with zero | acked
            · omega
            · exact ⟨p.matched, enough, by rwa [tracks.term]⟩
    rw [advanced]
    refine .of_step rfl step { tracks with
      commit := by simp [State.advance]
      applied_commit := tracks.applied_commit.trans above.le
      matched := ?_
      decided := ?_
      messages := tracks.messages_mono inv step
      hard_commit := tracks.hard_commit.trans above.le
      hard_clean := fun clean => by cases clean }
    · intro leads peer p found other
      rcases tracks.matched leads peer p found other with zero | acked
      · exact Or.inl zero
      · exact Or.inr (Set.mem_insert_of_mem _ acked)
    · intro leads
      refine ⟨fun index made => ?_, fun _ => Or.inl (by rw [tracks.term])⟩
      rcases made with new | earlier
      · exact (Prod.mk.inj new).2.le
      · exact ((tracks.decided leads).1 index earlier).trans above.le

theorem Describes.of_take {log changed : Log} {full extended : List Entry} {snap : Snapshot}
    (describes : Describes machine charter log full snap)
    (sameIndex : changed.snapshotIndex = log.snapshotIndex)
    (sameTerm : changed.snapshotTerm = log.snapshotTerm)
    (same : extended.take log.snapshotIndex = full.take log.snapshotIndex) :
    Describes machine charter changed extended snap where
  lastIndex := describes.lastIndex.trans sameIndex.symm
  lastTerm := describes.lastTerm.trans sameTerm.symm
  config := by rw [describes.config, describes.lastIndex, same]
  data := by rw [describes.data, describes.lastIndex, same]

/-- The fields of `Tracks` about the log, after one more entry. -/
structure Appended (machine : StateMachine σ) (charter : Charter) (full : List Entry)
    (disk : Durable) (image : σ) (r : Raft) (entry : Entry) : Prop where
  log : (r.log.append [entry]).Represents (full ++ [entry])
  config : r.log.snapshotConfig = charter.configAfter ((full ++ [entry]).take r.log.snapshotIndex)
  snapshot : ∀ snap, latestSnapshot disk r = some snap →
    Describes machine charter (r.log.append [entry]) (full ++ [entry]) snap
  mirror : Mirrors (survivors disk r) (r.markDirty entry.index).dirtyFrom
    (r.log.append [entry]).entries
  image : r.pending.snapshot = none → image = machine.replay ((full ++ [entry]).take r.applied)

section

variable (tracks : Tracks machine charter state disk image r)

include tracks

theorem Tracks.appended (inv : Invariant charter.rules state) (entry : Entry)
    (index : entry.index = (state.log r.id).length + 1) :
    Appended machine charter (state.log r.id) disk image r entry := by
  have follows : Log.Indexed (state.log r.id).length [entry] := by
    intro position found present
    rcases position with _ | position
    · obtain rfl : entry = found := by simpa using present
      exact index
    · simp at present
  have represents := tracks.log.append follows
  have same : (state.log r.id ++ [entry]).take r.log.snapshotIndex =
      (state.log r.id).take r.log.snapshotIndex :=
    List.take_append_of_le_length tracks.log.bound
  refine ⟨represents, by rw [same, tracks.config], ?_, ?_, ?_⟩
  · intro snap latest
    exact (tracks.snapshot snap latest).of_take rfl rfl same
  · apply tracks.mirror.markDirty
    rw [represents.filter_lt, tracks.log.filter_lt, index, Nat.add_sub_cancel]
    simp [Log.append]
  · intro settled
    rw [List.take_append_of_le_length (tracks.applied_commit.trans (tracks.commit_le inv))]
    exact tracks.image settled

theorem Tracks.fits_next {entry : Entry} (index : entry.index = r.log.lastIndex + 1)
    (plain : entry.Plain) : charter.rules.Fits (state.log r.id) entry := by
  refine ⟨?_, fun change isChange => absurd isChange (plain change)⟩
  rw [index, tracks.log.lastIndex]

section

variable (inv : Invariant charter.rules state) (isLeader : r.role = .leader) (entry : Entry)
  (entryTerm : entry.term = r.term)

include inv isLeader entry entryTerm

theorem Refines.appendEntry (fits : charter.rules.Fits (state.log r.id) entry)
    (settled : charter.rules.Changes entry →
      charter.rules.Settled (state.log r.id) (state.commit r.id)) :
    Refines machine charter state disk image r (r.appendToOwnLog [entry]) := by
  have step : Consensus.Step charter.rules r.id state (state.append r.id entry) := by
    refine .append entry ?_ ?_ fits settled
    · rw [tracks.role, isLeader]
      rfl
    · rw [tracks.term]
      exact entryTerm
  have appended := tracks.appended inv entry fits.1
  have logIs : (state.append r.id entry).log r.id = state.log r.id ++ [entry] := by
    simp [State.append]
  refine .of_step rfl step { tracks with
    log := logIs ▸ appended.log
    config := logIs ▸ appended.config
    messages := tracks.messages_mono inv step
    snapshot := logIs ▸ appended.snapshot
    mirror := appended.mirror
    image := logIs ▸ appended.image }

theorem Refines.appendToOwnLog (index : entry.index = r.log.lastIndex + 1) (plain : entry.Plain) :
    Refines machine charter state disk image r (r.appendToOwnLog [entry]) :=
  .appendEntry tracks inv isLeader entry entryTerm (tracks.fits_next index plain)
    fun changes => absurd plain changes

end

end

theorem resetProgress_cases {p : Progress}
    (found : r.resetProgressForConfig.progress.get peer = some p) (other : peer ≠ r.id) :
    r.progress.get peer = some p ∨ p = .new (r.log.lastIndex + 1) := by
  have filled : ∀ (members : List NodeId) (progress : BTreeMap NodeId Progress),
      (∀ id q, progress.get id = some q → id ≠ r.id →
        r.progress.get id = some q ∨ q = .new (r.log.lastIndex + 1)) →
      ∀ id q, (members.foldl r.fillProgress progress).get id = some q → id ≠ r.id →
        r.progress.get id = some q ∨ q = .new (r.log.lastIndex + 1) := by
    intro members
    induction members with
    | nil => exact fun progress isNew => isNew
    | cons member rest ih =>
      intro progress isNew
      apply ih
      intro id q present notSelf
      unfold Raft.fillProgress at present
      split at present
      · exact isNew id q present notSelf
      · rw [BTreeMap.get_insert] at present
        split_ifs at present with same
        · subst same
          rw [← Option.some.inj present]
          simp [Raft.freshProgress, notSelf]
        · exact isNew id q present notSelf
  simp only [Raft.resetProgressForConfig, BTreeMap.get_modify, if_neg other] at found
  refine filled _ _ ?_ peer p found other
  intro id q present _
  exact Or.inl (BTreeMap.get_retain_eq_some.mp present).1

theorem resetProgress_fresh (fresh : r.progress = ∅) {p : Progress}
    (found : r.resetProgressForConfig.progress.get peer = some p) (other : peer ≠ r.id) :
    p = .new (r.log.lastIndex + 1) := by
  rcases resetProgress_cases found other with old | new
  · rw [fresh] at old
    cases old
  · exact new

section

variable (tracks : Tracks machine charter state disk image r) (inv : Invariant charter.rules state)

include tracks inv

theorem Refines.openTerm (candidacy : r.role = .candidate) (won : r.tally r.log.config = true) :
    Refines machine charter state disk image r r.openTerm := by
  let noop : Entry := { term := r.term, index := r.log.lastIndex + 1, kind := .noop }
  have plain : noop.Plain := by
    intro change isChange
    cases isChange
  have step : Consensus.Step charter.rules r.id state (state.elect r.id noop) := by
    refine .elect noop {voter | voter ∈ r.granted} ?_ tracks.term.symm
      (tracks.fits_next rfl plain) (not_not_intro plain) ⟨r.granted, ?_, fun _ => id⟩ ?_
    · rw [tracks.role, candidacy]
      rfl
    · change (charter.configAfter (state.log r.id)).hasQuorum r.granted = true
      rw [← tracks.config_eq]
      exact won
    · intro voter member
      rw [tracks.term]
      exact tracks.votes candidacy voter (mem_granted_iff.mp member)
  have appended := tracks.appended inv noop
    (congrArg (· + 1) tracks.log.lastIndex)
  have undecided : ∀ index, (r.term, index) ∉ state.commits := by
    intro index made
    rcases inv.committed made with ⟨_, decision⟩
    have same := ((Steps.single step).grows inv).leader decision.led
    simp only [State.elect, tracks.term, Function.update_self] at same
    exact (inv.candidate_fresh (by rw [tracks.role, candidacy]; rfl)).1 (tracks.term ▸ same.symm)
  have logIs : (state.elect r.id noop).log r.id = state.log r.id ++ [noop] := by
    simp [State.elect]
  have elected : Tracks machine charter (state.elect r.id noop) disk image r.openTerm :=
    { tracks with
      role := by simp [State.elect, Raft.openTerm, Role.abstract, Raft.appendToOwnLog,
        Raft.markDirty, Raft.resetProgressForConfig]
      log := logIs ▸ appended.log
      config := logIs ▸ appended.config
      votes := fun candidacy => by cases candidacy
      unled := fun notLeader => absurd rfl notLeader
      matched := fun _ peer p found other => Or.inl (congrArg Progress.matched
        (resetProgress_fresh (tracks.unled (by simp [candidacy])) found other))
      decided := fun _ => ⟨fun index made => absurd made (undecided index), fun own => by cases own⟩
      messages := tracks.messages_mono inv step
      snapshot := logIs ▸ appended.snapshot
      mirror := appended.mirror
      image := logIs ▸ appended.image }
  exact .of_step rfl step elected

theorem Refines.stand (notLeader : r.role ≠ .leader) :
    Refines machine charter state disk image r r.stand := by
  have step : Consensus.Step charter.rules r.id state (state.campaign r.id) := .campaign
  refine .of_step rfl step { tracks with
    term := by simp [State.campaign, tracks.term, Raft.stand, Raft.beginCampaign, Counting.next]
    vote := by simp [State.campaign, Raft.stand, Raft.beginCampaign]
    role := by simp [State.campaign, Raft.stand, Raft.beginCampaign, Role.abstract]
    votes := ?_
    unled := fun _ => tracks.unled notLeader
    matched := fun leads => by cases leads
    decided := fun leads => by cases leads
    messages := tracks.messages_mono inv step
    hard_clean := fun clean => by cases clean }
  intro _ voter voted
  have self : voter = r.id := by
    by_contra other
    have found : r.stand.votes.get voter = none := by
      simp only [Raft.stand, BTreeMap.get_insert]
      exact if_neg other
    rw [found] at voted
    cases voted
  subst self
  exact Or.inl (by rw [tracks.term]; rfl)

theorem Refines.poll (notLeader : r.role ≠ .leader) :
    Refines machine charter state disk image r r.poll := by
  have step : Consensus.Step charter.rules r.id state (state.retire r.id) := .retire
  refine .of_step rfl step { tracks with
    role := by simp [State.retire, Raft.poll, Role.abstract, Raft.beginCampaign]
    votes := fun candidacy => by cases candidacy
    unled := fun _ => tracks.unled notLeader
    matched := fun leads => by cases leads
    decided := fun leads => by cases leads
    messages := tracks.messages_mono inv step }

end

end ChronoScope.Chronolog
