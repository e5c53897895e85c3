import ChronoScope.Chronolog.Leadership

/-!
# Every input refines the protocol

One lemma per move that is more than bookkeeping, each using what the message it
answers asserts about the history, and from them that the inputs of a node only
ever take actions of the protocol.

The two moves that change a follower's log are `acceptAppend` and `acceptSnapshot`. Both take over
a prefix of the leader's log; what is committed stays where it is, because the leader has it too.
-/

namespace ChronoScope.Chronolog

open List

open Consensus (State Rules Invariant Steps)

variable {σ : Type} {machine : StateMachine σ} {charter : Charter} {state : State NodeId Entry}
  {disk : Durable} {image : σ} {r : Raft}

section

variable (tracks : Tracks machine charter state disk image r) (inv : Invariant charter.rules state)

include tracks inv

theorem Refines.raiseCommit (follows : r.role = .follower) (commit : ℕ)
    (bound : commit ≤ (state.log r.id).length)
    (certified : state.Certified r.term ((state.log r.id).take commit)) :
    Refines machine charter state disk image r (r.raiseCommit commit) := by
  unfold Raft.raiseCommit
  split_ifs with higher
  · have step : Consensus.Step charter.rules r.id state (state.learn r.id commit) :=
      .learn commit bound (by rwa [tracks.term])
    refine .of_step rfl step { tracks with
      commit := by simp [State.learn]
      applied_commit := tracks.applied_commit.trans higher.le
      decided := fun leads => by cases follows.symm.trans leads
      messages := tracks.messages_mono inv step
      hard_commit := tracks.hard_commit.trans higher.le
      hard_clean := fun clean => by cases clean }
  · exact .refl tracks

theorem Tracks.clampCommit : r.clampCommit = r := by
  have bound := tracks.commit_le inv
  rw [Raft.clampCommit, tracks.log.lastIndex, if_neg (Nat.not_lt.mpr bound)]

end

theorem matching_leaderLog (inv : Invariant charter.rules state) (led : state.leader r.term ≠ none)
    (index term : ℕ)
    (own : Consensus.termAt (state.log r.id) index = some term)
    (leaders : Consensus.termAt (state.leaderLog r.term) index = some term) :
    (state.log r.id).take index = (state.leaderLog r.term).take index :=
  inv.take_eq_take_of_termAt (inv.log_rooted r.id) (Or.inr ⟨r.term, led, prefix_rfl⟩)
    own leaders

theorem indexed_leaderLog (inv : Invariant charter.rules state) {term : ℕ}
    (led : state.leader term ≠ none) : Log.Indexed 0 (state.leaderLog term) := by
  intro position entry present
  have fits := (inv.leaderLog_fits led present).1
  have bound := (List.getElem?_eq_some_iff.mp present).1
  rw [length_take] at fits
  omega

variable {entries : List Entry} {peer sender : NodeId} {heard : Option (NodeId × Message)}

variable {prevIndex : ℕ}

theorem mergeEntries_of_head {first : Entry} (head : entries.head? = some first) :
    r.mergeEntries prevIndex entries =
      { r with log := (r.log.merge prevIndex entries).1 }.markDirty first.index := by
  simp only [Raft.mergeEntries, head]

@[simp]
theorem mergeEntries_id (prevIndex : ℕ) (entries : List Entry) :
    (r.mergeEntries prevIndex entries).id = r.id := by
  unfold Raft.mergeEntries
  split <;> rfl

@[simp]
theorem mergeEntries_term (prevIndex : ℕ) (entries : List Entry) :
    (r.mergeEntries prevIndex entries).term = r.term := by
  unfold Raft.mergeEntries
  split <;> rfl

@[simp]
theorem mergeEntries_role (prevIndex : ℕ) (entries : List Entry) :
    (r.mergeEntries prevIndex entries).role = r.role := by
  unfold Raft.mergeEntries
  split <;> rfl

section

variable (tracks : Tracks machine charter state disk image r) (inv : Invariant charter.rules state)

include tracks inv

variable {prevTerm : ℕ}

theorem Tracks.mergeEntries (follows : r.role = .follower) (led : state.leader r.term ≠ none)
    (leaders : Consensus.termAt (state.leaderLog r.term) prevIndex = some prevTerm)
    (slice : entries <+: (state.leaderLog r.term).drop prevIndex)
    (above : r.log.snapshotIndex ≤ prevIndex) (own : r.log.termAt prevIndex = some prevTerm) :
    Consensus.Step charter.rules r.id state (state.adopt r.id (prevIndex + entries.length)) ∧
      Tracks machine charter (state.adopt r.id (prevIndex + entries.length)) disk image
        (r.mergeEntries prevIndex entries) ∧
      (r.log.merge prevIndex entries).2 = prevIndex + entries.length := by
  have ownFull := tracks.log.termAt_of_eq_some own
  have shared := matching_leaderLog inv led prevIndex prevTerm ownFull leaders
  have bound : prevIndex + entries.length ≤ (state.leaderLog r.term).length := by
    have sliceLength := slice.length_le
    have prevBound := Consensus.le_length_of_termAt leaders
    rw [length_drop] at sliceLength
    omega
  have step : Consensus.Step charter.rules r.id state
      (state.adopt r.id (prevIndex + entries.length)) := by
    refine .adopt _ ?_ (by rwa [tracks.term]) (by rwa [tracks.term])
    rw [tracks.role, follows]
    rfl
  rcases Log.Represents.merge (indexed_leaderLog inv led) (matching_leaderLog inv led) tracks.log
    above (Consensus.le_length_of_termAt ownFull) shared slice with ⟨represents, lastIs⟩
  rcases Log.Represents.merge_base r.log prevIndex entries with ⟨sameIndex, sameTerm, sameConfig⟩
  have logIs : (state.adopt r.id (prevIndex + entries.length)).log r.id =
      State.adoptLog (state.log r.id)
        ((state.leaderLog r.term).take (prevIndex + entries.length)) := by
    simp [State.adopt, tracks.term]
  have keeps : ∀ index, index ≤ r.commit →
      ((state.adopt r.id (prevIndex + entries.length)).log r.id).take index =
        (state.log r.id).take index := by
    intro index committed
    apply step.take_commit inv
    · rwa [tracks.commit]
    · exact committed.trans tracks.commit.ge
  have belowCommit : r.log.snapshotIndex ≤ r.commit :=
    tracks.snapshot_applied.trans tracks.applied_commit
  have described : ∀ snap, latestSnapshot disk r = some snap →
      Describes machine charter (r.log.merge prevIndex entries).1
        ((state.adopt r.id (prevIndex + entries.length)).log r.id) snap := fun snap latest =>
    (tracks.snapshot snap latest).of_take sameIndex sameTerm (keeps _ belowCommit)
  have based : r.log.snapshotConfig = charter.configAfter
      (((state.adopt r.id (prevIndex + entries.length)).log r.id).take r.log.snapshotIndex) := by
    rw [keeps _ belowCommit, tracks.config]
  have imaged : r.pending.snapshot = none → image = machine.replay
      (((state.adopt r.id (prevIndex + entries.length)).log r.id).take r.applied) := by
    intro settled
    rw [keeps _ tracks.applied_commit]
    exact tracks.image settled
  refine ⟨step, ?_, lastIs⟩
  cases head : entries.head? with
  | none =>
    rw [head?_eq_none_iff] at head
    subst head
    exact { tracks with
      log := logIs ▸ represents
      config := based
      messages := tracks.messages_mono inv step
      snapshot := described
      image := imaged
      matched := fun leads => by cases follows.symm.trans leads }
  | some first =>
    have firstIndex : first.index = prevIndex + 1 := by
      have firstAt : (state.leaderLog r.term)[prevIndex]? = some first := by
        rw [head?_eq_getElem?] at head
        simpa using Consensus.getElem?_of_isPrefix slice head
      simpa using indexed_leaderLog inv led prevIndex first firstAt
    have sameBelow : (r.log.merge prevIndex entries).1.entries.filter
        (fun entry => decide (entry.index < first.index)) =
        r.log.entries.filter (fun entry => decide (entry.index < first.index)) := by
      rw [represents.filter_lt, tracks.log.filter_lt, sameIndex, firstIndex, Nat.add_sub_cancel,
        State.take_adoptLog]
      rw [shared, take_take, min_eq_left (by omega)]
    rw [mergeEntries_of_head head]
    exact { tracks with
      log := logIs ▸ represents
      config := sameConfig.trans (sameIndex.symm ▸ based)
      snapshot_applied := sameIndex.le.trans tracks.snapshot_applied
      matched := fun leads => by cases follows.symm.trans leads
      messages := tracks.messages_mono inv step
      uncompacted := fun none => sameIndex.trans (tracks.uncompacted none)
      whole := fun changing => sameIndex.trans (tracks.whole changing)
      snapshot := described
      mirror := tracks.mirror.markDirty sameBelow
      image := imaged
      installed := fun pending => sameIndex.symm ▸ tracks.installed pending }

theorem Refines.takeOver (follows : r.role = .follower) {leaderCommit : ℕ}
    (faithful : Faithful machine charter state sender r.id
      ⟨r.term, .appendReq prevIndex prevTerm entries leaderCommit⟩)
    (above : r.log.snapshotIndex ≤ prevIndex) (own : r.log.termAt prevIndex = some prevTerm) :
    ∃ after, Steps charter.rules r.id state after ∧
      Tracks machine charter after disk image ((r.mergeEntries prevIndex entries).raiseCommit
        (min leaderCommit (r.log.merge prevIndex entries).2)) ∧
      (r.term, r.id, (r.log.merge prevIndex entries).2) ∈ after.acks := by
  simp only [Faithful] at faithful
  rcases faithful with ⟨led, leaders, slice, commitBound, certified⟩
  rcases tracks.mergeEntries inv follows led leaders slice above own with
    ⟨step, tracksMerged, lastIs⟩
  have invMerged := step.invariant inv
  have held : (state.leaderLog r.term).take (prevIndex + entries.length) <+:
      (state.adopt r.id (prevIndex + entries.length)).log r.id := by
    simp only [State.adopt, Function.update_self, tracks.term]
    exact State.isPrefix_adoptLog _ _
  have heldLength : prevIndex + entries.length ≤
      ((state.leaderLog r.term).take (prevIndex + entries.length)).length := by
    have sliceLength := slice.length_le
    have prevBound := Consensus.le_length_of_termAt leaders
    rw [length_drop] at sliceLength
    rw [length_take]
    omega
  rw [lastIs]
  have raised : Refines machine charter (state.adopt r.id (prevIndex + entries.length)) disk image
      (r.mergeEntries prevIndex entries) ((r.mergeEntries prevIndex entries).raiseCommit
        (min leaderCommit (prevIndex + entries.length))) := by
    apply Refines.raiseCommit tracksMerged invMerged (by rwa [mergeEntries_role])
    · rw [mergeEntries_id]
      exact (min_le_right _ _).trans (heldLength.trans held.length_le)
    · rw [mergeEntries_id, mergeEntries_term]
      refine ((step.grows inv).certified inv certified).of_isPrefix ?_
      rw [Consensus.take_eq_of_isPrefix held ((min_le_right _ _).trans heldLength),
        take_take]
      apply take_prefix_take_left
      omega
  rcases raised with ⟨_, last, steps, tracksLast⟩
  have acked : (r.term, r.id, prevIndex + entries.length) ∈ last.acks := by
    apply (steps.grows invMerged).acks
    simp [State.adopt, tracks.term]
  rw [mergeEntries_id] at steps
  exact ⟨last, (Steps.single step).trans steps, tracksLast, acked⟩

theorem Refines.acceptAppend (follows : r.role = .follower) {leaderCommit : ℕ}
    (faithful : Faithful machine charter state sender r.id
      ⟨r.term, .appendReq prevIndex prevTerm entries leaderCommit⟩)
    (above : r.log.snapshotIndex ≤ prevIndex) (own : r.log.termAt prevIndex = some prevTerm) :
    Refines machine charter state disk image r
      (r.acceptAppend sender prevIndex entries leaderCommit) := by
  rcases Refines.takeOver tracks inv follows faithful above own with
    ⟨after, steps, tracksAfter, acked⟩
  simp only [Raft.acceptAppend, tracksAfter.clampCommit (steps.invariant inv)]
  refine ⟨by simp [Raft.send, Raft.post], after, steps, tracksAfter.post fun _ => ?_⟩
  simpa using acked

theorem Refines.acknowledge (led : state.leader r.term ≠ none) {index : ℕ}
    (bound : index ≤ r.commit) {body : Body}
    (faithful : ∀ after : State NodeId Entry, (r.term, r.id, index) ∈ after.acks →
      Faithful machine charter after r.id peer ⟨r.term, body⟩) :
    Refines machine charter state disk image r (r.send peer body) := by
  have step : Consensus.Step charter.rules r.id state (state.acknowledge r.id index) :=
    .acknowledge index (by rwa [tracks.term]) (by rwa [tracks.commit])
  have acknowledged : Tracks machine charter (state.acknowledge r.id index) disk image r :=
    { tracks with
      matched := fun leads peer p found other =>
        (tracks.matched leads peer p found other).imp_right Or.inr
      messages := tracks.messages_mono inv step }
  refine .of_step rfl step (acknowledged.post (faithful _ ?_))
  exact Or.inl (by rw [tracks.term])

theorem Refines.acceptSnapshot (follows : r.role = .follower) {snap : Snapshot}
    (faithful : Faithful machine charter state sender r.id ⟨r.term, .snapshotReq snap⟩)
    (news : r.commit < snap.lastIndex) :
    Refines machine charter state disk image r (r.acceptSnapshot sender snap) := by
  simp only [Faithful] at faithful
  rcases faithful with ⟨fixed, led, leaders, certified, config, data⟩
  have bound := Consensus.le_length_of_termAt leaders
  have above : r.log.snapshotIndex < snap.lastIndex :=
    (tracks.snapshot_applied.trans tracks.applied_commit).trans_lt news
  have adopts : Consensus.Step charter.rules r.id state (state.adopt r.id snap.lastIndex) := by
    refine .adopt _ ?_ (by rwa [tracks.term]) (by rwa [tracks.term])
    rw [tracks.role, follows]
    rfl
  have invAdopted := adopts.invariant inv
  have logIs : (state.adopt r.id snap.lastIndex).log r.id =
      State.adoptLog (state.log r.id) ((state.leaderLog r.term).take snap.lastIndex) := by
    simp [State.adopt, tracks.term]
  have held : (state.leaderLog r.term).take snap.lastIndex <+:
      (state.adopt r.id snap.lastIndex).log r.id := by
    rw [logIs]
    exact State.isPrefix_adoptLog _ _
  have heldLength : snap.lastIndex ≤
      ((state.leaderLog r.term).take snap.lastIndex).length := by
    rw [length_take]
    omega
  have covered : ((state.adopt r.id snap.lastIndex).log r.id).take snap.lastIndex =
      (state.leaderLog r.term).take snap.lastIndex := by
    rw [Consensus.take_eq_of_isPrefix held heldLength, take_take, min_self]
  have learns : Consensus.Step charter.rules r.id (state.adopt r.id snap.lastIndex)
      ((state.adopt r.id snap.lastIndex).learn r.id snap.lastIndex) := by
    refine .learn _ (heldLength.trans held.length_le) ?_
    rw [covered]
    have sameTerm : (state.adopt r.id snap.lastIndex).term r.id = r.term := tracks.term
    rw [sameTerm]
    exact (adopts.grows inv).certified inv certified
  have represents := Log.Represents.installSnapshot (indexed_leaderLog inv led)
    (matching_leaderLog inv led) tracks.log above.le leaders
  rw [← logIs] at represents
  rcases tracks.log.installSnapshot_base above with ⟨indexIs, termIs, configIs⟩
  have described : Describes machine charter (r.log.installSnapshot snap)
      ((state.adopt r.id snap.lastIndex).log r.id) snap :=
    ⟨indexIs.symm, termIs.symm, by rw [config, covered], by rw [data, covered]⟩
  have commitIs : max r.commit snap.lastIndex = snap.lastIndex := max_eq_right news.le
  have mirrored : Mirrors []
      (if (r.log.installSnapshot snap).lastIndex > snap.lastIndex then some (snap.lastIndex + 1)
        else none) (r.log.installSnapshot snap).entries := by
    split_ifs with retained
    · simp only [Mirrors, filter_nil]
      rw [represents.filter_lt, indexIs, Nat.add_sub_cancel, drop_eq_nil_of_le]
      rw [length_take]
      omega
    · rw [represents.lastIndex] at retained
      rw [represents.entries, indexIs, drop_eq_nil_of_le (by omega)]
      rfl
  refine .after_step adopts rfl (.of_step rfl learns (Tracks.post ?_ ?_))
  · refine { tracks with
      log := represents
      config := configIs.trans (described.config.trans (by rw [described.lastIndex]; rfl))
      commit := by simp [State.learn, commitIs]
      snapshot_applied := indexIs.le
      applied_commit := le_max_right _ _
      matched := fun leads => by cases follows.symm.trans leads
      decided := fun leads => by cases follows.symm.trans leads
      messages := fun peer msg posted =>
        ((tracks.messages peer msg posted).mono (.single adopts) inv).mono (.single learns)
          invAdopted
      pending_plain := ⟨tracks.pending_plain.1, rfl, tracks.pending_plain.2.2⟩
      hard_commit := tracks.hard_commit.trans (le_max_left _ _)
      hard_clean := fun clean => by cases clean
      uncompacted := fun none => by cases none
      whole := fun changing => by cases fixed.symm.trans changing
      snapshot := ?_
      mirror := mirrored
      image := fun none => by cases none
      installed := fun _ => ⟨indexIs.symm, indexIs.symm ▸ Nat.zero_lt_of_lt news⟩ }
    intro latest isLatest
    obtain rfl : snap = latest := Option.some.inj isLatest
    exact described
  · intro _
    simp [State.learn, State.adopt, tracks.term]

end

theorem Tracks.setProgress (tracks : Tracks machine charter state disk image r)
    (isLeader : r.role = .leader) {old new : Progress}
    (found : r.progress.get peer = some old)
    (kept : new.matched = old.matched ∨ (r.term, peer, new.matched) ∈ state.acks) :
    Tracks machine charter state disk image (r.setProgress peer new) := by
  apply tracks.keepMatched_modify isLeader
  intro p isOld _
  obtain rfl : old = p := Option.some.inj (found.symm.trans isOld)
  exact kept

theorem acceptedProgress_matched (p : Progress) (matchIndex : ℕ) :
    (Raft.acceptedProgress p matchIndex).matched = p.matched ∨
      (Raft.acceptedProgress p matchIndex).matched = matchIndex := by
  unfold Raft.acceptedProgress
  simp only
  split_ifs
  · exact Or.inr rfl
  · exact Or.inl rfl

theorem Refines.say (tracks : Tracks machine charter state disk image r)
    (inv : Invariant charter.rules state)
    (faithful : ∀ sender msg, heard = some (sender, msg) →
      Faithful machine charter state sender r.id msg) {msg : Message}
        (sends : Raft.Sends heard r peer msg) :
    Refines machine charter state disk image r (r.post peer msg) := by
  cases sends with
  | preVoteReq | preVoteResp => exact .of_tracks rfl (tracks.post trivial)
  | voteReq candidacy =>
    refine .of_tracks rfl (tracks.post ⟨tracks.term.ge, fun _ _ => ⟨?_, ?_⟩⟩)
    · exact tracks.log.lastIndex.symm
    · exact tracks.log.lastTerm.symm
  | voteRefusal | appendRefusal =>
    exact .of_tracks rfl (tracks.post fun refused => by cases refused)
  | append leads above known =>
    exact .of_tracks rfl (tracks.post (tracks.faithful_append inv leads above known))
  | covered follows asked =>
    exact .acknowledge tracks inv (faithful _ _ asked).1
      (tracks.snapshot_applied.trans tracks.applied_commit) fun after acked _ => acked
  | committed follows asked =>
    exact .acknowledge tracks inv (faithful _ _ asked).2.1 le_rfl fun after acked _ => acked
  | heartbeat leads other =>
    exact .of_tracks rfl (tracks.post (tracks.faithful_heartbeat inv leads other))
  | heartbeatResp follows asked => exact .of_tracks rfl (tracks.post trivial)
  | timeoutNow leads other =>
    exact .of_tracks rfl (tracks.post ⟨(tracks.leads inv leads).1, other.symm⟩)

section

variable (tracks : Tracks machine charter state disk image r) (inv : Invariant charter.rules state)

include tracks inv

theorem Refines.grant {lastIndex lastTerm : ℕ}
    (requested : state.Requested sender r.term lastTerm lastIndex)
    (free : r.vote = none ∨ r.vote = some sender)
    (upToDate : r.log.isUpToDate lastTerm lastIndex = true) :
    Refines machine charter state disk image r (Raft.send { r with
      vote := some sender, hardStateDirty := true, electionElapsed := 0 } sender
        (.voteResp true)) := by
  have step : Consensus.Step charter.rules r.id state (state.grant r.id sender) := by
    refine .grant sender lastTerm lastIndex ?_ (by rwa [tracks.term]) ?_
    · rwa [tracks.vote]
    · exact tracks.log.isUpToDate.mp upToDate
  have voted : Tracks machine charter (state.grant r.id sender) disk image
      { r with vote := some sender, hardStateDirty := true, electionElapsed := 0 } :=
    { tracks with
      vote := by simp [State.grant]
      votes := fun candidacy voter counted => Or.inr (tracks.votes candidacy voter counted)
      messages := tracks.messages_mono inv step
      hard_clean := fun clean => by cases clean }
  refine .of_step rfl step (voted.post ?_)
  intro _
  exact Or.inl (by rw [tracks.term])

theorem Refines.raise (follows : r.role = .follower) {commit ctx : ℕ}
    (faithful : Faithful machine charter state sender r.id ⟨r.term, .heartbeatReq commit ctx⟩) :
    Refines machine charter state disk image r (r.raiseCommit (min commit r.log.lastIndex)) := by
  simp only [Faithful] at faithful
  rcases faithful with ⟨led, bound, certified, reached⟩
  have held : (state.leaderLog r.term).take commit <+: state.log r.id := by
    rcases reached with rfl | ⟨reach, enough, acked⟩
    · simp
    · rcases (inv.acked acked).2.2.2 commit enough with held | ⟨later, after, before, _⟩
      · exact held
      · rw [tracks.term] at before
        omega
  have heldLength : min commit r.log.lastIndex ≤
      ((state.leaderLog r.term).take commit).length := by
    rw [length_take]
    omega
  apply Refines.raiseCommit tracks inv follows
  · rw [tracks.log.lastIndex]
    exact min_le_right _ _
  · apply certified.of_isPrefix
    rw [Consensus.take_eq_of_isPrefix held heldLength]
    exact take_prefix _ _

section

variable (faithful : ∀ sender msg, heard = some (sender, msg) →
  Faithful machine charter state sender r.id msg)

include faithful

/-- Every move refines the protocol, as long as the message it answers says the truth. -/
theorem Refines.move {r' : Raft} (move : Raft.Move heard r r') :
    Refines machine charter state disk image r r' := by
  cases move with
  | idle => exact .of_tracks rfl { tracks with }
  | say sends => exact .say tracks inv faithful sends
  | follow term leader => exact .becomeFollower tracks inv term leader
  | count sender granted counts =>
    refine .of_tracks rfl { tracks with votes := ?_ }
    intro candidacy voter isGranted
    rcases counts with polling | ⟨_, asked⟩
    · cases polling.symm.trans candidacy
    · simp only [BTreeMap.get_insert] at isGranted
      split_ifs at isGranted with same
      · rw [same]
        exact faithful _ _ asked (Option.some.inj isGranted)
      · exact tracks.votes candidacy voter isGranted
  | poll notLeader => exact .poll tracks inv notLeader
  | quit polling =>
    refine .of_tracks rfl { tracks with
      role := ?_
      votes := fun candidacy => by cases candidacy
      unled := fun _ => tracks.unled (by simp [polling])
      matched := fun leads => by cases leads
      decided := fun leads => by cases leads }
    rw [tracks.role]
    simp [polling, Role.abstract]
  | stand called =>
    apply Refines.stand tracks inv
    rcases called with notLeader | ⟨sender, asked⟩
    · exact notLeader
    · rcases faithful _ _ asked with ⟨leads, distinct⟩
      intro isLeader
      have own := (tracks.leads inv isLeader).1
      exact distinct (Option.some.inj (leads.symm.trans own))
  | openTerm candidacy won => exact .openTerm tracks inv candidacy won
  | append data leads =>
    apply Refines.appendToOwnLog tracks inv leads _ rfl rfl
    intro change isChange
    cases isChange
  | decide leads => exact .maybeAdvanceCommit tracks inv leads
  | grant asked free upToDate => exact .grant tracks inv (faithful _ _ asked) free upToDate
  | accept asked follows above known =>
    exact .acceptAppend tracks inv follows (faithful _ _ asked) above known
  | raise asked follows => exact .raise tracks inv follows (faithful _ _ asked)
  | install asked follows news =>
    exact .acceptSnapshot tracks inv follows (faithful _ _ asked) news
  | touch leads same =>
    apply Refines.of_tracks rfl
    apply tracks.keepMatched leads
    intro peer p found other
    have reachIs := same peer
    rw [found, eq_comm] at reachIs
    rcases Option.map_eq_some_iff.mp reachIs with ⟨old, wasOld, sameReach⟩
    rw [← (Prod.mk.inj sameReach).1]
    exact tracks.matched leads peer old wasOld other
  | accepted leads asked found =>
    apply Refines.of_tracks rfl
    apply tracks.setProgress leads found
    rcases acceptedProgress_matched _ _ with kept | raised
    · exact Or.inl kept
    · rw [raised]
      exact Or.inr (faithful _ _ asked rfl)
  | rejected leads asked found =>
    exact .of_tracks rfl (tracks.setProgress leads found (Or.inl rfl))
  | @landed sender success index p leads asked found =>
    apply Refines.of_tracks rfl
    apply tracks.setProgress leads found
    cases success with
    | false => exact Or.inl rfl
    | true =>
      have raised : (Raft.landedProgress p true index).matched = max p.matched index := rfl
      rw [raised]
      rcases max_choice p.matched index with kept | higher
      · exact Or.inl kept
      · rw [higher]
        exact Or.inr (faithful _ _ asked rfl)
  | readAlone | readBegun | acknowledge | confirm => exact .of_tracks rfl { tracks with }

/-- An input takes a node through tracked states along actions of the protocol, and with them
whatever every move keeps. -/
theorem Tracks.moves {P : State NodeId Entry → Raft → Prop} (start : P state r)
    (kept : ∀ {before after : State NodeId Entry} {q q' : Raft}, Invariant charter.rules before →
      Tracks machine charter before disk image q → Steps charter.rules q.id before after →
      Tracks machine charter after disk image q' → q.id = r.id →
      (∀ sender msg, heard = some (sender, msg) →
        Faithful machine charter before sender q.id msg) →
      Raft.Move heard q q' → P before q → P after q')
    {r' : Raft} (moves : r.Moves heard r') :
    r'.id = r.id ∧ ∃ after, Steps charter.rules r.id state after ∧
      Tracks machine charter after disk image r' ∧ P after r' := by
  induction moves with
  | refl => exact ⟨rfl, state, .refl, tracks, start⟩
  | tail _ move ih =>
    rcases ih with ⟨sameId, middle, steps, tracksMiddle, holds⟩
    have invMiddle := steps.invariant inv
    have stillFaithful : ∀ sender msg, heard = some (sender, msg) →
        Faithful machine charter middle sender _ msg := fun sender msg asked =>
      sameId ▸ (faithful sender msg asked).mono steps inv
    rcases Refines.move tracksMiddle invMiddle stillFaithful move with
      ⟨moveId, after, more, tracksAfter⟩
    have final := kept invMiddle tracksMiddle more tracksAfter sameId stillFaithful move holds
    rw [sameId] at more
    exact ⟨moveId.trans sameId, after, steps.trans more, tracksAfter, final⟩

end

end

end ChronoScope.Chronolog
