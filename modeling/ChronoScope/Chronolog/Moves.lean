import ChronoScope.Chronolog.Cluster

/-!
# What an input can do to a node

Whatever a node is fed, it goes through a sequence of elementary moves: sending a
message, standing down, standing for election, taking over entries, learning how
far a follower is, and so on. `Move` lists them, each with what the source has
checked when it makes it and with the message, if any, it is answering. Which
handler makes which move in which order does not matter to most invariants: they
are proved once per move, and `feed_moves` says that every input is made of moves.

Nothing is assumed about the messages here; a move only records what was heard.
-/

namespace ChronoScope.Chronolog

/-- How far a follower is known to be, and what to send it next. -/
def Progress.reach (p : Progress) : ℕ × ℕ := (p.matched, p.next)

namespace Raft

/-- A message a node may send while the rest of its state stays as it is. -/
inductive Sends (heard : Option (NodeId × Message)) (r : Raft) (peer : NodeId) :
    Message → Prop where
  | preVoteReq (term lastIndex lastTerm : ℕ) :
      Sends heard r peer ⟨term, .preVoteReq lastIndex lastTerm⟩
  | preVoteResp (term : ℕ) (granted : Bool) : Sends heard r peer ⟨term, .preVoteResp granted⟩
  | voteReq (candidacy : r.role = .candidate) :
      Sends heard r peer ⟨r.term, .voteReq r.log.lastIndex r.log.lastTerm⟩
  | voteRefusal : Sends heard r peer ⟨r.term, .voteResp false⟩
  | append {prevIndex prevTerm stop : ℕ} (leads : r.role = .leader)
      (above : r.log.snapshotIndex ≤ prevIndex) (known : r.log.termAt prevIndex = some prevTerm) :
      Sends heard r peer ⟨r.term, .appendReq prevIndex prevTerm
        (cutEntries r.opts.maxBytesPerAppend 0 0 (r.log.slice (prevIndex + 1) stop)) r.commit⟩
  | appendRefusal (conflictIndex conflictTerm : ℕ) :
      Sends heard r peer ⟨r.term, .appendResp false 0 conflictIndex conflictTerm⟩
  /-- The entries are covered by our snapshot. -/
  | covered {prevIndex prevTerm commit : ℕ} {entries : List Entry} (follows : r.role = .follower)
      (asked : heard = some (peer, ⟨r.term, .appendReq prevIndex prevTerm entries commit⟩)) :
      Sends heard r peer ⟨r.term, .appendResp true r.log.snapshotIndex 0 0⟩
  /-- The snapshot is no news. -/
  | committed {snap : Snapshot} (follows : r.role = .follower)
      (asked : heard = some (peer, ⟨r.term, .snapshotReq snap⟩)) :
      Sends heard r peer ⟨r.term, .snapshotResp true r.commit⟩
  | heartbeat (leads : r.role = .leader) (other : peer ≠ r.id) (numbered : 0 < r.readCtx) :
      Sends heard r peer ⟨r.term, .heartbeatReq
        (min r.commit (((r.progress.get peer).map Progress.matched).getD 0)) r.readCtx⟩
  | heartbeatResp {commit ctx : ℕ} (follows : r.role = .follower)
      (asked : heard = some (peer, ⟨r.term, .heartbeatReq commit ctx⟩)) :
      Sends heard r peer ⟨r.term, .heartbeatResp ctx⟩
  | timeoutNow (leads : r.role = .leader) (other : peer ≠ r.id) :
      Sends heard r peer ⟨r.term, .timeoutNow⟩

/-- A pending read, after one more peer has answered a heartbeat. -/
def Acked (r : Raft) (sender : NodeId) (ctx : ℕ) (read : PendingRead) : Prop :=
  ∃ old ∈ r.pendingReads, read.ctx = old.ctx ∧ read.index = old.index ∧
    ∀ id ∈ read.acks, id ∈ old.acks ∨ id = sender ∧ (old.ctx = ctx ∨ ctx = 0)

/-- An elementary change of a node that has `heard` a message or nothing. -/
inductive Move (heard : Option (NodeId × Message)) : Raft → Raft → Prop where
  /-- Clocks, entropy, and whom the node believes to lead. -/
  | idle {r : Raft} (leader : Option NodeId) (electionElapsed heartbeatElapsed electionTimeout
      quorumContactElapsed : ℕ) (rand : UInt64) :
      Move heard r { r with
        leader := leader, electionElapsed := electionElapsed, heartbeatElapsed := heartbeatElapsed,
        electionTimeout := electionTimeout, quorumContactElapsed := quorumContactElapsed,
        rand := rand }
  | say {r : Raft} {peer : NodeId} {msg : Message} (sends : Sends heard r peer msg) :
      Move heard r (r.post peer msg)
  | follow {r : Raft} (term : ℕ) (leader : Option NodeId) :
      Move heard r (r.becomeFollower term leader)
  | count {r : Raft} (sender : NodeId) (granted : Bool)
      (counts : r.role = .preCandidate ∨
        r.role = .candidate ∧ heard = some (sender, ⟨r.term, .voteResp granted⟩)) :
      Move heard r { r with votes := r.votes.insert sender granted }
  | poll {r : Raft} (notLeader : r.role ≠ .leader) : Move heard r r.poll
  | quit {r : Raft} (polling : r.role = .preCandidate) : Move heard r { r with role := .follower }
  | stand {r : Raft} (called : r.role ≠ .leader ∨
      ∃ sender, heard = some (sender, ⟨r.term, .timeoutNow⟩)) :
      Move heard r r.stand
  | openTerm {r : Raft} (candidacy : r.role = .candidate) (won : r.tally r.log.config = true) :
      Move heard r r.openTerm
  | append {r : Raft} (data : Bytes) (leads : r.role = .leader) :
      Move heard r (r.appendToOwnLog [⟨r.term, r.log.lastIndex + 1, .normal data⟩])
  | decide {r : Raft} (leads : r.role = .leader) : Move heard r r.maybeAdvanceCommit
  | grant {r : Raft} {sender : NodeId} {lastIndex lastTerm : ℕ}
      (asked : heard = some (sender, ⟨r.term, .voteReq lastIndex lastTerm⟩))
      (free : r.vote = none ∨ r.vote = some sender)
      (upToDate : r.log.isUpToDate lastTerm lastIndex = true) :
      Move heard r (Raft.send { r with
        vote := some sender, hardStateDirty := true, electionElapsed := 0 } sender
          (.voteResp true))
  | accept {r : Raft} {sender : NodeId} {prevIndex prevTerm commit : ℕ} {entries : List Entry}
      (asked : heard = some (sender, ⟨r.term, .appendReq prevIndex prevTerm entries commit⟩))
      (follows : r.role = .follower) (above : r.log.snapshotIndex ≤ prevIndex)
      (known : r.log.termAt prevIndex = some prevTerm) :
      Move heard r (r.acceptAppend sender prevIndex entries commit)
  | raise {r : Raft} {sender : NodeId} {commit ctx : ℕ}
      (asked : heard = some (sender, ⟨r.term, .heartbeatReq commit ctx⟩))
      (follows : r.role = .follower) :
      Move heard r (r.raiseCommit (min commit r.log.lastIndex))
  | install {r : Raft} {sender : NodeId} {snap : Snapshot}
      (asked : heard = some (sender, ⟨r.term, .snapshotReq snap⟩))
      (follows : r.role = .follower) (news : r.commit < snap.lastIndex) :
      Move heard r (r.acceptSnapshot sender snap)
  /-- What is known about followers changes, but not how far they are. -/
  | touch {r : Raft} {progress : BTreeMap NodeId Progress} (leads : r.role = .leader)
      (same : ∀ peer, (progress.get peer).map Progress.reach =
        (r.progress.get peer).map Progress.reach) :
      Move heard r { r with progress := progress }
  | accepted {r : Raft} {sender : NodeId} {matchIndex conflictIndex conflictTerm : ℕ}
      {p : Progress} (leads : r.role = .leader)
      (asked : heard = some (sender,
        ⟨r.term, .appendResp true matchIndex conflictIndex conflictTerm⟩))
      (found : r.progress.get sender = some p) :
      Move heard r (r.setProgress sender (acceptedProgress p matchIndex))
  | rejected {r : Raft} {sender : NodeId} {matchIndex conflictIndex conflictTerm : ℕ}
      {p : Progress} (leads : r.role = .leader)
      (asked : heard = some (sender,
        ⟨r.term, .appendResp false matchIndex conflictIndex conflictTerm⟩))
      (found : r.progress.get sender = some p) :
      Move heard r (r.setProgress sender (r.rejectedProgress p conflictIndex conflictTerm))
  | landed {r : Raft} {sender : NodeId} {success : Bool} {index : ℕ} {p : Progress}
      (leads : r.role = .leader)
      (asked : heard = some (sender, ⟨r.term, .snapshotResp success index⟩))
      (found : r.progress.get sender = some p) :
      Move heard r (r.setProgress sender (landedProgress p success index))
  /-- A read that needs no round trip. -/
  | readAlone {r : Raft} (unprompted : heard = none) (leads : r.role = .leader)
      (committed : r.committedOwnTerm = true)
      (alone : r.log.config.hasQuorum (.ofList [r.id]) = true) :
      Move heard r { r with
        readCtx := r.readCtx + 1
        pending := { r.pending with
          reads := r.pending.reads ++ [{ ctx := r.readCtx + 1, index := r.commit }] } }
  | readBegun {r : Raft} (unprompted : heard = none) (leads : r.role = .leader)
      (committed : r.committedOwnTerm = true) :
      Move heard r { r with
        readCtx := r.readCtx + 1
        pendingReads := r.pendingReads ++
          [{ ctx := r.readCtx + 1, index := r.commit, acks := .ofList [r.id] }] }
  | acknowledge {r : Raft} {sender : NodeId} {ctx : ℕ} {reads : List PendingRead}
      (leads : r.role = .leader) (asked : heard = some (sender, ⟨r.term, .heartbeatResp ctx⟩))
      (acked : ∀ read ∈ reads, r.Acked sender ctx read) :
      Move heard r { r with pendingReads := reads }
  /-- Reads that a quorum has acknowledged are answered. -/
  | confirm {r : Raft} {kept confirmed : List PendingRead} (leads : r.role = .leader)
      (stillPending : ∀ read ∈ kept, read ∈ r.pendingReads)
      (answered : ∀ read ∈ confirmed, read ∈ r.pendingReads ∧
        r.log.config.hasQuorum read.acks = true) :
      Move heard r { r with
        pendingReads := kept
        pending := { r.pending with
          reads := r.pending.reads ++ confirmed.map fun read => ReadState.mk read.ctx read.index }
        quorumContactElapsed := 0 }

/-- What is sent along with a vote, with entries taken over or with a snapshot installed. -/
inductive Grants : Body → Prop where
  | vote : Grants (.voteResp true)
  | append (index : ℕ) : Grants (.appendResp true index 0 0)
  | snapshot (index : ℕ) : Grants (.snapshotResp true index)

def Moves (heard : Option (NodeId × Message)) : Raft → Raft → Prop :=
  Relation.ReflTransGen (Move heard)

/-- What a node holds that elections are about. -/
def stance (r : Raft) :
    NodeId × RaftOptions × ℕ × Role × Option NodeId × BTreeMap NodeId Bool :=
  (r.id, r.opts, r.term, r.role, r.leader, r.votes)

/-- A move that leaves the stance alone; it posts nothing, or nothing else happens. -/
inductive Calm (heard : Option (NodeId × Message)) (r : Raft) : Raft → Prop where
  | act {r' : Raft} (move : Move heard r r') (stance : r'.stance = r.stance)
      (messages : r'.pending.messages = r.pending.messages) : Calm heard r r'
  | say {peer : NodeId} {msg : Message} (sends : Sends heard r peer msg)
      (noGrant : msg.body ≠ .preVoteResp true) : Calm heard r (r.post peer msg)

def Calms (heard : Option (NodeId × Message)) : Raft → Raft → Prop :=
  Relation.ReflTransGen (Calm heard)

end Raft

theorem sendAppendTo_cases (r : Raft) (peer : NodeId) :
    r.sendAppendTo peer = r ∨ r.sendAppendTo peer = r.needSnapshot peer ∨
      ∃ prevIndex prevTerm stop, r.log.snapshotIndex ≤ prevIndex ∧
        r.log.termAt prevIndex = some prevTerm ∧
        r.sendAppendTo peer = r.send peer (.appendReq prevIndex prevTerm
          (Raft.cutEntries r.opts.maxBytesPerAppend 0 0 (r.log.slice (prevIndex + 1) stop))
          r.commit) := by
  cases known : r.progress.get peer with
  | none => simp [Raft.sendAppendTo, known]
  | some p =>
    by_cases shipping : p.state = .snapshot ∧ p.pendingSnapshot > 0
    · simp [Raft.sendAppendTo, known, shipping]
    · cases termKnown : r.log.termAt (p.next - 1) with
      | none => simp [Raft.sendAppendTo, known, shipping, termKnown]
      | some prevTerm =>
        by_cases behind : p.next < r.log.firstIndex
        · simp [Raft.sendAppendTo, known, shipping, termKnown, behind]
        · right
          right
          refine ⟨p.next - 1, prevTerm,
            min (p.next + r.opts.maxEntriesPerAppend) (r.log.lastIndex + 1), ?_, termKnown, ?_⟩
          · rw [Log.firstIndex] at behind
            omega
          · have nextIs : p.next - 1 + 1 = p.next := by
              rw [Log.firstIndex] at behind
              omega
            simp only [Raft.sendAppendTo, known, if_neg shipping, termKnown, if_neg behind,
              nextIs]

theorem sendAppendTo_log (r : Raft) (peer : NodeId) : (r.sendAppendTo peer).log = r.log := by
  rcases sendAppendTo_cases r peer with same | flagged | ⟨_, _, _, _, _, sent⟩
  · rw [same]
  · rw [flagged, Raft.needSnapshot]
  · rw [sent, Raft.send, Raft.post]

theorem sendAppendTo_role (r : Raft) (peer : NodeId) : (r.sendAppendTo peer).role = r.role := by
  rcases sendAppendTo_cases r peer with same | flagged | ⟨_, _, _, _, _, sent⟩
  · rw [same]
  · rw [flagged, Raft.needSnapshot]
  · rw [sent, Raft.send, Raft.post]

section

variable {r : Raft}

theorem becomeFollower_of_lt {term : ℕ} {leader : Option NodeId} (later : r.term < term) :
    r.becomeFollower term leader =
      { r with
        term := term, vote := none, hardStateDirty := true, role := .follower,
        leader := leader, electionElapsed := 0, votes := ∅, progress := ∅, pendingReads := [],
        committedOwnTerm := false } := by
  simp only [Raft.becomeFollower, if_pos later]

theorem becomeFollower_of_le {term : ℕ} {leader : Option NodeId} (notLater : term ≤ r.term) :
    r.becomeFollower term leader =
      { r with
        role := .follower, leader := leader, electionElapsed := 0, votes := ∅, progress := ∅,
        pendingReads := [], committedOwnTerm := false } := by
  simp only [Raft.becomeFollower, if_neg (Nat.not_lt.mpr notLater)]

@[simp]
theorem becomeFollower_id (term : ℕ) (leader : Option NodeId) :
    (r.becomeFollower term leader).id = r.id := by
  unfold Raft.becomeFollower
  split_ifs <;> rfl

@[simp]
theorem becomeFollower_role (term : ℕ) (leader : Option NodeId) :
    (r.becomeFollower term leader).role = .follower := by
  unfold Raft.becomeFollower
  split_ifs <;> rfl

@[simp]
theorem becomeFollower_term (term : ℕ) (leader : Option NodeId) :
    (r.becomeFollower term leader).term = max r.term term := by
  rcases Nat.lt_or_ge r.term term with later | notLater
  · rw [becomeFollower_of_lt later, max_eq_right later.le]
  · rw [becomeFollower_of_le notLater, max_eq_left notLater]

theorem followLeader_cases (r : Raft) (sender : NodeId) :
    (r.role = .follower ∧ r.followLeader sender =
        { r with leader := some sender, electionElapsed := 0 }) ∨
      r.followLeader sender =
        { r.becomeFollower r.term (some sender) with
          leader := some sender, electionElapsed := 0 } := by
  by_cases follows : r.role = .follower
  · left
    simp [Raft.followLeader, follows]
  · right
    simp [Raft.followLeader, follows]

@[simp]
theorem followLeader_id (sender : NodeId) : (r.followLeader sender).id = r.id := by
  rcases followLeader_cases r sender with ⟨_, same⟩ | stoodDown
  · rw [same]
  · simp [stoodDown]

@[simp]
theorem followLeader_role (sender : NodeId) : (r.followLeader sender).role = .follower := by
  rcases followLeader_cases r sender with ⟨follows, same⟩ | stoodDown
  · rw [same]
    exact follows
  · simp [stoodDown]

@[simp]
theorem followLeader_term (sender : NodeId) : (r.followLeader sender).term = r.term := by
  rcases followLeader_cases r sender with ⟨_, same⟩ | stoodDown
  · rw [same]
  · simp [stoodDown]

@[simp]
theorem raiseCommit_id (commit : ℕ) : (r.raiseCommit commit).id = r.id := by
  unfold Raft.raiseCommit
  split_ifs <;> rfl

@[simp]
theorem raiseCommit_term (commit : ℕ) : (r.raiseCommit commit).term = r.term := by
  unfold Raft.raiseCommit
  split_ifs <;> rfl

@[simp]
theorem raiseCommit_role (commit : ℕ) : (r.raiseCommit commit).role = r.role := by
  unfold Raft.raiseCommit
  split_ifs <;> rfl

end

theorem raiseCommit_eq (r : Raft) (commit : ℕ) :
    ∃ dirty, r.raiseCommit commit =
      { r with commit := max r.commit commit, hardStateDirty := dirty } := by
  unfold Raft.raiseCommit
  split_ifs with higher
  · exact ⟨true, by rw [max_eq_right higher.le]⟩
  · exact ⟨r.hardStateDirty, by rw [max_eq_left (Nat.not_lt.mp higher)]⟩

theorem clampCommit_eq (r : Raft) :
    ∃ dirty, r.clampCommit =
      { r with commit := min r.commit r.log.lastIndex, hardStateDirty := dirty } := by
  unfold Raft.clampCommit
  split_ifs with past
  · exact ⟨true, by rw [min_eq_right past.le]⟩
  · exact ⟨r.hardStateDirty, by rw [min_eq_left (Nat.not_lt.mp past)]⟩

/-- From where on the durable log is stale once these entries were merged. -/
def Raft.dirtyAfter (r : Raft) (entries : List Entry) : Option ℕ :=
  match entries.head? with
  | some first => some (lowest r.dirtyFrom first.index)
  | none => r.dirtyFrom

theorem mergeEntries_eq (r : Raft) (prevIndex : ℕ) (entries : List Entry) :
    r.mergeEntries prevIndex entries =
      { r with log := (r.log.merge prevIndex entries).1, dirtyFrom := r.dirtyAfter entries } := by
  unfold Raft.mergeEntries Raft.dirtyAfter
  cases entries.head? <;> rfl

theorem acceptAppend_eq (r : Raft) (sender : NodeId) (prevIndex : ℕ) (entries : List Entry)
    (leaderCommit : ℕ) :
    ∃ dirty, r.acceptAppend sender prevIndex entries leaderCommit =
      Raft.send { r with
        log := (r.log.merge prevIndex entries).1
        dirtyFrom := r.dirtyAfter entries
        commit := min (max r.commit (min leaderCommit (r.log.merge prevIndex entries).2))
          (r.log.merge prevIndex entries).1.lastIndex
        hardStateDirty := dirty } sender
          (.appendResp true (r.log.merge prevIndex entries).2 0 0) := by
  let lastNew := (r.log.merge prevIndex entries).2
  obtain ⟨raisedDirty, raised⟩ := raiseCommit_eq { r with
    log := (r.log.merge prevIndex entries).1, dirtyFrom := r.dirtyAfter entries }
      (min leaderCommit lastNew)
  obtain ⟨dirty, clamped⟩ := clampCommit_eq { r with
    log := (r.log.merge prevIndex entries).1, dirtyFrom := r.dirtyAfter entries
    commit := max r.commit (min leaderCommit lastNew), hardStateDirty := raisedDirty }
  refine ⟨dirty, ?_⟩
  simp only [Raft.acceptAppend, mergeEntries_eq]
  rw [raised, clamped]

theorem stepDown_cases (r : Raft) :
    r.stepDown = r ∨ r.role = .leader ∧ r.stepDown = r.becomeFollower r.term none := by
  unfold Raft.stepDown
  split_ifs with leads
  · exact Or.inr ⟨leads, rfl⟩
  · exact Or.inl rfl

section

variable {r : Raft} {voter : NodeId}

theorem mem_granted_iff : voter ∈ r.granted ↔ r.votes.get voter = some true := by
  simp [Raft.granted, BTreeSet.mem_ofList, BTreeMap.mem_toList]

theorem mem_refused_iff : voter ∈ r.refused ↔ r.votes.get voter = some false := by
  simp [Raft.refused, BTreeSet.mem_ofList, BTreeMap.mem_toList]

end

theorem maybeAdvanceCommit_cases (r : Raft) :
    r.maybeAdvanceCommit = r ∨
      ∃ candidate, candidate = r.log.config.quorumIndex r.matchedIndex ∧ r.commit < candidate ∧
        r.log.termAt candidate = some r.term ∧
        r.maybeAdvanceCommit =
          { r with
            commit := candidate, committedOwnTerm := true, hardStateDirty := true,
            quorumContactElapsed := 0 } := by
  by_cases behind : r.log.config.quorumIndex r.matchedIndex ≤ r.commit
  · left
    simp [Raft.maybeAdvanceCommit, behind]
  · by_cases ownTerm : r.log.termAt (r.log.config.quorumIndex r.matchedIndex) = some r.term
    · refine Or.inr ⟨_, rfl, Nat.not_le.mp behind, ownTerm, ?_⟩
      simp [Raft.maybeAdvanceCommit, behind, ownTerm]
    · left
      simp [Raft.maybeAdvanceCommit, behind, ownTerm]

theorem maybeAdvanceCommit_eq (r : Raft) : ∃ commit own dirty elapsed, r.maybeAdvanceCommit =
    { r with
      commit := commit, committedOwnTerm := own, hardStateDirty := dirty,
      quorumContactElapsed := elapsed } := by
  rcases maybeAdvanceCommit_cases r with unchanged | ⟨_, _, _, _, advanced⟩
  · exact ⟨_, _, _, _, unchanged⟩
  · exact ⟨_, _, _, _, advanced⟩

@[simp]
theorem maybeAdvanceCommit_id (r : Raft) : r.maybeAdvanceCommit.id = r.id := by
  obtain ⟨_, _, _, _, advanced⟩ := maybeAdvanceCommit_eq r
  rw [advanced]

theorem Raft.Move.id_eq {heard : Option (NodeId × Message)} {r r' : Raft}
    (move : Move heard r r') : r'.id = r.id := by
  cases move with
  | follow term leader => exact becomeFollower_id term leader
  | decide => exact maybeAdvanceCommit_id r
  | @accept sender prevIndex prevTerm commit entries =>
    obtain ⟨_, accepted⟩ := acceptAppend_eq r sender prevIndex entries commit
    rw [accepted]
    rfl
  | raise => exact raiseCommit_id _
  | _ => rfl

/-- A message that waits to be sent was waiting before the move, or the move has posted it. -/
theorem Raft.Move.posted {heard : Option (NodeId × Message)} {r r' : Raft}
    (move : Move heard r r') {peer : NodeId} {msg : Message}
    (waits : (peer, msg) ∈ r'.pending.messages) :
    (peer, msg) ∈ r.pending.messages ∨ Sends heard r peer msg ∨
      msg.term = r.term ∧ Grants msg.body := by
  have appended {q : Raft} {target : NodeId} {sent : Message}
      (same : q.pending.messages = r.pending.messages)
      (waits : (peer, msg) ∈ (q.post target sent).pending.messages) :
      (peer, msg) ∈ r.pending.messages ∨ peer = target ∧ msg = sent := by
    rw [← same]
    rcases List.mem_append.mp waits with earlier | new
    · exact Or.inl earlier
    · exact Or.inr (Prod.mk.inj (List.mem_singleton.mp new))
  cases move with
  | say sends =>
    rcases appended rfl waits with earlier | ⟨rfl, rfl⟩
    · exact Or.inl earlier
    · exact Or.inr (Or.inl sends)
  | follow term leader =>
    left
    unfold Raft.becomeFollower at waits
    split_ifs at waits <;> exact waits
  | decide =>
    left
    obtain ⟨_, _, _, _, advanced⟩ := maybeAdvanceCommit_eq r
    rwa [advanced] at waits
  | grant =>
    rcases appended rfl waits with earlier | ⟨rfl, rfl⟩
    · exact Or.inl earlier
    · exact Or.inr (Or.inr ⟨rfl, .vote⟩)
  | @accept sender prevIndex prevTerm commit entries =>
    obtain ⟨_, accepted⟩ := acceptAppend_eq r sender prevIndex entries commit
    rw [accepted] at waits
    rcases appended rfl waits with earlier | ⟨rfl, rfl⟩
    · exact Or.inl earlier
    · exact Or.inr (Or.inr ⟨rfl, .append _⟩)
  | @raise _ commit =>
    left
    obtain ⟨_, raised⟩ := raiseCommit_eq r (min commit r.log.lastIndex)
    rwa [raised] at waits
  | install =>
    rcases appended rfl waits with earlier | ⟨rfl, rfl⟩
    · exact Or.inl earlier
    · exact Or.inr (Or.inr ⟨rfl, .snapshot _⟩)
  | _ => exact Or.inl waits

variable {progress : BTreeMap NodeId Progress}

theorem BTreeMap.reach_modify {peer : NodeId} {change : Progress → Progress}
    (same : ∀ p, (change p).reach = p.reach) (other : NodeId) :
    ((progress.modify peer change).get other).map Progress.reach =
      (progress.get other).map Progress.reach := by
  rw [BTreeMap.get_modify]
  split_ifs
  · rw [Option.map_map]
    exact congrArg (fun reach => (progress.get other).map reach) (funext same)
  · rfl

theorem BTreeMap.reach_mapValues {change : NodeId → Progress → Progress}
    (same : ∀ id p, (change id p).reach = p.reach) (other : NodeId) :
    ((progress.mapValues change).get other).map Progress.reach =
      (progress.get other).map Progress.reach := by
  rw [BTreeMap.get_mapValues, Option.map_map]
  exact congrArg (fun reach => (progress.get other).map reach) (funext (same other))

theorem expirePendingSnapshots_of_empty {r : Raft} (none : r.progress = ∅) :
    r.expirePendingSnapshots = r := by
  rcases r with ⟨id, opts, term, vote, log, commit, applied, persisted, role, leader, votes,
    electionElapsed, heartbeatElapsed, electionTimeout, progress, rest⟩
  subst none
  rfl

namespace Raft.Calms

variable {heard : Option (NodeId × Message)} {r r' r'' : Raft}

theorem refl : Calms heard r r := Relation.ReflTransGen.refl

theorem trans (first : Calms heard r r') (second : Calms heard r' r'') : Calms heard r r'' :=
  Relation.ReflTransGen.trans first second

theorem act (move : Move heard r r') (stance : r'.stance = r.stance)
    (messages : r'.pending.messages = r.pending.messages) : Calms heard r r' :=
  Relation.ReflTransGen.single (.act move stance messages)

theorem say {peer : NodeId} {msg : Message} (sends : Sends heard r peer msg)
    (noGrant : msg.body ≠ .preVoteResp true) : Calms heard r (r.post peer msg) :=
  Relation.ReflTransGen.single (.say sends noGrant)

theorem moves (calms : Calms heard r r') : Moves heard r r' := by
  refine Relation.ReflTransGen.mono (fun r r' calm => ?_) _ _ calms
  cases calm with
  | act move => exact move
  | say sends => exact .say sends

theorem stance_eq (calms : Calms heard r r') : r'.stance = r.stance := by
  induction calms with
  | refl => rfl
  | tail _ calm ih =>
    cases calm with
    | act _ same => exact same.trans ih
    | say => exact ih

theorem role_eq (calms : Calms heard r r') : r'.role = r.role :=
  congrArg (fun stance => stance.2.2.2.1) calms.stance_eq

/-- A loop whose body is calm and keeps what it relies on. -/
theorem foldl {α : Type} {P : Raft → Prop} {change : Raft → α → Raft}
    (body : ∀ r item, P r → Calms heard r (change r item) ∧ P (change r item))
    (items : List α) (holds : P r) : Calms heard r (items.foldl change r) := by
  induction items generalizing r with
  | nil => exact refl
  | cons item rest ih =>
    rcases body r item holds with ⟨first, kept⟩
    exact first.trans (ih kept)

theorem sendAppendTo (leads : r.role = .leader) (peer : NodeId) :
    Calms heard r (r.sendAppendTo peer) := by
  rcases sendAppendTo_cases r peer with
    quiet | asks | ⟨prevIndex, prevTerm, stop, above, known, sends⟩
  · rw [quiet]
    exact refl
  · rw [asks]
    exact act (.touch leads (BTreeMap.reach_modify fun _ => rfl)) rfl rfl
  · rw [sends]
    exact say (.append leads above known) (by simp)

theorem broadcastAppend (leads : r.role = .leader) : Calms heard r r.broadcastAppend := by
  refine foldl (P := fun r => r.role = .leader) (fun r peer leads => ?_) _ leads
  split_ifs
  · have sent : Calms heard r (r.sendAppendTo peer) := sendAppendTo leads peer
    exact ⟨sent, sent.role_eq.trans leads⟩
  · exact ⟨refl, leads⟩

theorem postAll {msg : Message} {cfg : Config}
    (sends : ∀ q peer, q.stance = r.stance → q.log = r.log → Sends heard q peer msg)
    (noGrant : msg.body ≠ .preVoteResp true) : Calms heard r (r.postAll cfg msg) := by
  refine foldl (P := fun q => q.stance = r.stance ∧ q.log = r.log) ?_ _ ⟨rfl, rfl⟩
  rintro q peer ⟨sameStance, sameLog⟩
  split_ifs
  · exact ⟨say (sends q peer sameStance sameLog) noGrant, sameStance, sameLog⟩
  · exact ⟨refl, sameStance, sameLog⟩

theorem askVotes (candidacy : r.role = .candidate) : Calms heard r (r.postAll r.log.config
    { term := r.term, body := .voteReq r.log.lastIndex r.log.lastTerm }) := by
  refine postAll (fun q peer sameStance sameLog => ?_) (by simp)
  simp only [stance, Prod.mk.injEq] at sameStance
  rw [← sameLog, ← sameStance.2.2.1]
  exact .voteReq (sameStance.2.2.2.1.trans candidacy)

theorem askPolls (term lastIndex lastTerm : ℕ) (cfg : Config) : Calms heard r (r.postAll cfg
    { term := term, body := .preVoteReq lastIndex lastTerm }) :=
  postAll (fun _ _ _ _ => .preVoteReq ..) (by simp)

theorem decide (leads : r.role = .leader) : Calms heard r r.maybeAdvanceCommit := by
  obtain ⟨_, _, _, _, advanced⟩ := maybeAdvanceCommit_eq r
  refine act (.decide leads) ?_ ?_
  · rw [advanced, stance, stance]
  · rw [advanced]

theorem propose (data : Bytes) : Calms heard r (r.propose data).2 := by
  by_cases leads : r.role = .leader
  · rw [Raft.propose, if_neg (not_not.mpr leads)]
    have appended : Calms heard r
        (r.appendToOwnLog [⟨r.term, r.log.lastIndex + 1, .normal data⟩]) :=
      act (.append data leads) rfl rfl
    exact appended.trans (broadcastAppend (appended.role_eq.trans leads))
  · rw [Raft.propose, if_pos leads]
    exact refl

theorem readIndex : Calms none r r.readIndex.2 := by
  by_cases leads : r.role = .leader
  · rw [Raft.readIndex, if_neg (not_not.mpr leads)]
    simp only
    split_ifs with fresh alone
    · exact refl
    · exact act (.readAlone rfl leads (by simpa using fresh) alone) rfl rfl
    · refine (act (.readBegun rfl leads (by simpa using fresh)) rfl rfl).trans
        (foldl (P := fun reader => reader.role = .leader ∧ reader.readCtx = r.readCtx + 1)
          ?_ _ ⟨leads, rfl⟩)
      rintro reader peer ⟨leads, ctxIs⟩
      unfold Raft.sendHeartbeat
      split_ifs with other
      · rw [← ctxIs]
        exact ⟨say (.heartbeat leads other (ctxIs ▸ Nat.succ_pos _)) (by simp), leads, rfl⟩
      · exact ⟨refl, leads, ctxIs⟩
  · rw [Raft.readIndex, if_pos leads]
    exact refl

theorem transferLeadership (target : NodeId) :
    Calms heard r (r.transferLeadership target).2 := by
  unfold Raft.transferLeadership
  split_ifs with refused
  · exact refl
  · exact refl
  · push Not at refused
    exact say (.timeoutNow refused.1 refused.2) (by simp)

variable {sender : NodeId}

theorem handleAppendResp {success : Bool}
    {matchIndex conflictIndex conflictTerm : ℕ}
    (asked : heard = some (sender,
      ⟨r.term, .appendResp success matchIndex conflictIndex conflictTerm⟩)) :
    Calms heard r (r.handleAppendResp sender success matchIndex conflictIndex conflictTerm) := by
  by_cases leads : r.role = .leader
  · cases found : r.progress.get sender with
    | none =>
      rw [Raft.handleAppendResp, if_neg (not_not.mpr leads), found]
      exact refl
    | some p =>
      rw [Raft.handleAppendResp, if_neg (not_not.mpr leads), found]
      cases success with
      | true =>
        have noted : Calms heard r (r.setProgress sender (acceptedProgress p matchIndex)) :=
          act (.accepted leads asked found) rfl rfl
        have advanced := noted.trans (decide (noted.role_eq.trans leads))
        simp only [if_true]
        split_ifs
        · exact advanced.trans (sendAppendTo (advanced.role_eq.trans leads) sender)
        · exact advanced
      | false =>
        have rewound : Calms heard r (r.setProgress sender
            (r.rejectedProgress p conflictIndex conflictTerm)) :=
          act (.rejected leads asked found) rfl rfl
        exact rewound.trans (sendAppendTo (rewound.role_eq.trans leads) sender)
  · rw [Raft.handleAppendResp, if_pos leads]
    exact refl

theorem handleSnapshotResp {success : Bool} {index : ℕ}
    (asked : heard = some (sender, ⟨r.term, .snapshotResp success index⟩)) :
    Calms heard r (r.handleSnapshotResp sender success index) := by
  by_cases leads : r.role = .leader
  · cases found : r.progress.get sender with
    | none =>
      rw [Raft.handleSnapshotResp, if_neg (not_not.mpr leads), found]
      exact refl
    | some p =>
      rw [Raft.handleSnapshotResp, if_neg (not_not.mpr leads), found]
      refine (act (.landed leads asked found) rfl rfl).trans ?_
      simp only
      split_ifs
      · exact decide leads
      · exact refl
  · rw [Raft.handleSnapshotResp, if_pos leads]
    exact refl

theorem acked_of_mem {ctx : ℕ} {read : PendingRead}
    (member : read ∈ r.pendingReads.map fun read =>
      if read.ctx = ctx ∨ ctx = 0 then { read with acks := read.acks.insert sender } else read) :
    r.Acked sender ctx read := by
  rcases List.mem_map.mp member with ⟨old, wasPending, rfl⟩
  refine ⟨old, wasPending, ?_⟩
  split_ifs with matching
  · refine ⟨rfl, rfl, ?_⟩
    intro id acked
    rcases BTreeSet.mem_insert.mp acked with rfl | earlier
    · exact Or.inr ⟨rfl, matching⟩
    · exact Or.inl earlier
  · exact ⟨rfl, rfl, fun _ acked => Or.inl acked⟩

theorem handleHeartbeatResp {ctx : ℕ}
    (asked : heard = some (sender, ⟨r.term, .heartbeatResp ctx⟩)) :
    Calms heard r (r.handleHeartbeatResp sender ctx) := by
  by_cases leads : r.role = .leader
  · have active : Calms heard r
        { r with progress := r.progress.modify sender fun p => { p with active := true } } :=
      act (.touch leads (BTreeMap.reach_modify fun _ => rfl)) rfl rfl
    have acknowledged : Calms heard r { r with
        progress := r.progress.modify sender fun p => { p with active := true }
        pendingReads := r.pendingReads.map fun read =>
          if read.ctx = ctx ∨ ctx = 0 then { read with acks := read.acks.insert sender }
          else read } :=
      active.trans (act (.acknowledge leads asked fun _ => acked_of_mem) rfl rfl)
    rw [Raft.handleHeartbeatResp, if_neg (not_not.mpr leads)]
    simp only
    split_ifs
    · exact acknowledged
    · refine acknowledged.trans (act (.confirm leads ?_ ?_) rfl rfl)
      · exact fun read member => (List.mem_filter.mp member).1
      · intro read member
        rcases List.mem_filter.mp member with ⟨isPending, confirmed⟩
        rw [Bool.and_eq_true] at confirmed
        exact ⟨isPending, confirmed.2⟩
  · rw [Raft.handleHeartbeatResp, if_pos leads]
    exact refl

theorem reach_ageSnapshot (r : Raft) (p : Progress) : (r.ageSnapshot p).reach = p.reach := by
  unfold Raft.ageSnapshot
  split_ifs <;> rfl

theorem expirePendingSnapshots (leads : r.role = .leader ∨ r.progress = ∅) :
    Calms heard r r.expirePendingSnapshots := by
  rcases leads with leads | none
  · have aged : Calms heard r
        { r with progress := r.progress.mapValues fun _ p => r.ageSnapshot p } :=
      act (.touch leads (BTreeMap.reach_mapValues fun _ => reach_ageSnapshot r)) rfl rfl
    refine aged.trans (foldl (P := fun r => r.role = .leader) (fun r peer leads => ?_) _ leads)
    have sent : Calms heard r (r.sendAppendTo peer) := sendAppendTo leads peer
    exact ⟨sent, sent.role_eq.trans leads⟩
  · rw [expirePendingSnapshots_of_empty none]
    exact refl

theorem tickHeartbeat (leads : r.role = .leader) : Calms heard r r.tickHeartbeat := by
  unfold Raft.tickHeartbeat
  split_ifs
  · have reset : Calms heard r { r with heartbeatElapsed := 0 } := act (.idle ..) rfl rfl
    exact reset.trans (broadcastAppend leads)
  · exact refl

end Raft.Calms

namespace Raft.Moves

variable {heard : Option (NodeId × Message)} {r r' r'' : Raft}

theorem refl : Moves heard r r := Relation.ReflTransGen.refl

theorem single (move : Move heard r r') : Moves heard r r' := Relation.ReflTransGen.single move

theorem trans (first : Moves heard r r') (second : Moves heard r' r'') : Moves heard r r'' :=
  Relation.ReflTransGen.trans first second

theorem keeps {P : Raft → Prop} (moves : Moves heard r r')
    (kept : ∀ {q q' : Raft}, Move heard q q' → P q → P q') (holds : P r) : P r' := by
  induction moves with
  | refl => exact holds
  | tail _ next ih => exact kept next ih

theorem becomeFollower (term : ℕ) (leader : Option NodeId) :
    Moves heard r (r.becomeFollower term leader) :=
  single (.follow term leader)

theorem followLeader (sender : NodeId) : Moves heard r (r.followLeader sender) := by
  rcases followLeader_cases r sender with ⟨_, same⟩ | stoodDown
  · rw [same]
    exact single (.idle ..)
  · rw [stoodDown]
    exact (becomeFollower r.term (some sender)).trans (single (.idle ..))

theorem becomeLeader (candidacy : r.role = .candidate) (won : r.tally r.log.config = true) :
    Moves heard r r.becomeLeader :=
  (single (.openTerm candidacy won)).trans (Calms.broadcastAppend rfl).moves

theorem campaignElection (called : r.role ≠ .leader ∨
    ∃ sender, heard = some (sender, ⟨r.term, .timeoutNow⟩)) :
    Moves heard r r.campaignElection := by
  refine (single (.stand called)).trans ?_
  unfold Raft.campaignElection
  simp only
  split_ifs with won
  · exact becomeLeader rfl won
  · exact (Calms.askVotes rfl).moves

theorem campaign (notLeader : r.role ≠ .leader) (preVote : Bool) :
    Moves heard r (r.campaign preVote) := by
  cases preVote with
  | false => exact campaignElection (Or.inl notLeader)
  | true =>
    refine (single (.poll notLeader)).trans ?_
    simp only [Raft.campaign, if_true]
    split_ifs with won
    · exact campaignElection (Or.inl (by simp [Raft.poll]))
    · exact (Calms.askPolls ..).moves

theorem handlePreVoteResp (sender : NodeId) (respTerm : ℕ) (granted : Bool) :
    Moves heard r (r.handlePreVoteResp sender respTerm granted) := by
  unfold Raft.handlePreVoteResp
  split_ifs with otherRole behind
  · exact refl
  · exact becomeFollower respTerm none
  · have polling : r.role = .preCandidate := not_not.mp otherRole
    refine (single (.count sender granted (Or.inl polling))).trans ?_
    simp only
    split_ifs
    · exact campaign (by simp [polling]) false
    · exact single (.quit polling)
    · exact refl

variable {sender : NodeId}

theorem handleVoteReq {lastIndex lastTerm : ℕ}
    (asked : heard = some (sender, ⟨r.term, .voteReq lastIndex lastTerm⟩)) :
    Moves heard r (r.handleVoteReq sender lastIndex lastTerm) := by
  unfold Raft.handleVoteReq
  simp only
  split_ifs with granted
  · rw [granted]
    rw [Bool.and_eq_true] at granted
    refine single (.grant asked ?_ granted.2)
    cases voted : r.vote with
    | none => exact Or.inl rfl
    | some candidate =>
      have same : candidate = sender := by simpa [voted] using granted.1
      exact Or.inr (by rw [same])
  · rw [Bool.eq_false_of_not_eq_true granted]
    exact single (.say .voteRefusal)

theorem handleVoteResp {granted : Bool}
    (asked : heard = some (sender, ⟨r.term, .voteResp granted⟩)) :
    Moves heard r (r.handleVoteResp sender granted) := by
  unfold Raft.handleVoteResp
  split_ifs with otherRole
  · exact refl
  · have candidacy : r.role = .candidate := not_not.mp otherRole
    refine (single (.count sender granted (Or.inr ⟨candidacy, asked⟩))).trans ?_
    simp only
    split_ifs with won
    · exact becomeLeader candidacy won
    · exact becomeFollower r.term none
    · exact refl

theorem handleAppend {prevIndex prevTerm commit : ℕ} {entries : List Entry}
    (asked : heard = some (sender, ⟨r.term, .appendReq prevIndex prevTerm entries commit⟩)) :
    Moves heard r (r.handleAppend sender prevIndex prevTerm entries commit) := by
  refine (followLeader sender).trans ?_
  rw [← followLeader_term sender] at asked
  have follows : (r.followLeader sender).role = .follower := followLeader_role sender
  unfold Raft.handleAppend
  generalize r.followLeader sender = r at asked follows ⊢
  simp only
  split_ifs with behind
  · exact single (.say (.covered follows asked))
  · split
    · rename_i term known
      split_ifs with same
      · rw [same] at known
        exact single (.accept asked follows (Nat.not_lt.mp behind) known)
      · exact single (.say (.appendRefusal ..))
    · exact single (.say (.appendRefusal ..))

theorem handleSnapshot {snap : Snapshot}
    (asked : heard = some (sender, ⟨r.term, .snapshotReq snap⟩)) :
    Moves heard r (r.handleSnapshot sender snap) := by
  refine (followLeader sender).trans ?_
  rw [← followLeader_term sender] at asked
  have follows : (r.followLeader sender).role = .follower := followLeader_role sender
  unfold Raft.handleSnapshot
  generalize r.followLeader sender = r at asked follows ⊢
  simp only
  split_ifs with known
  · exact single (.say (.committed follows asked))
  · exact single (.install asked follows (Nat.not_le.mp known))

theorem handleHeartbeat {commit ctx : ℕ}
    (asked : heard = some (sender, ⟨r.term, .heartbeatReq commit ctx⟩)) :
    Moves heard r (r.handleHeartbeat sender commit ctx) := by
  refine (followLeader sender).trans ?_
  rw [← followLeader_term sender] at asked
  have follows : (r.followLeader sender).role = .follower := followLeader_role sender
  unfold Raft.handleHeartbeat
  generalize r.followLeader sender = r at asked follows ⊢
  refine (single (.raise asked follows)).trans ?_
  have sameTerm := raiseCommit_term (r := r) (min commit r.log.lastIndex)
  have sameRole := raiseCommit_role (r := r) (min commit r.log.lastIndex)
  rw [← sameTerm] at asked
  exact single (.say (.heartbeatResp (sameRole.trans follows) asked))

theorem checkQuorum (leads : r.role = .leader) :
    Moves heard r r.checkQuorum ∧
      (r.checkQuorum.role = .leader ∨ r.checkQuorum.progress = ∅) := by
  have reset : Moves heard r
      { r with progress := r.progress.mapValues fun _ p => { p with active := false } } :=
    single (.touch leads (BTreeMap.reach_mapValues fun _ _ => rfl))
  unfold Raft.checkQuorum
  simp only
  split_ifs
  · exact ⟨reset.trans (single (.idle ..)), Or.inl leads⟩
  · refine ⟨reset.trans (becomeFollower r.term none), Or.inr ?_⟩
    rw [becomeFollower_of_le le_rfl]

theorem tickQuorum (leads : r.role = .leader) :
    Moves heard r r.tickQuorum ∧ (r.tickQuorum.role = .leader ∨ r.tickQuorum.progress = ∅) := by
  unfold Raft.tickQuorum
  split_ifs
  · have stillLeads : { r with electionElapsed := 0 }.role = .leader := leads
    rcases checkQuorum stillLeads with ⟨checked, done⟩
    exact ⟨(single (.idle ..)).trans checked, done⟩
  · exact ⟨refl, Or.inl leads⟩

theorem tickLeader (leads : r.role = .leader) :
    Moves heard r r.tickHeartbeat.tickQuorum.expirePendingSnapshots := by
  have beaten : Calms heard r r.tickHeartbeat := .tickHeartbeat leads
  rcases (tickQuorum (beaten.role_eq.trans leads) : Moves heard r.tickHeartbeat _ ∧ _) with
    ⟨checked, settled⟩
  exact beaten.moves.trans (checked.trans (Calms.expirePendingSnapshots settled).moves)

theorem tick (rand : UInt64) : Moves heard r (r.tick rand) := by
  by_cases leads : r.role = .leader
  · rw [Raft.tick, if_pos leads]
    have ticked : Moves heard r { r with
        rand := r.rand ^^^ rand, electionElapsed := r.electionElapsed + 1,
        heartbeatElapsed := r.heartbeatElapsed + 1,
        quorumContactElapsed := r.quorumContactElapsed + 1 } := single (.idle ..)
    exact ticked.trans (tickLeader leads)
  · rw [Raft.tick, if_neg leads]
    have ticked : Moves heard r { r with
        rand := r.rand ^^^ rand, electionElapsed := r.electionElapsed + 1 } := single (.idle ..)
    refine ticked.trans ?_
    split_ifs
    · exact campaign (r := { r with
        rand := r.rand ^^^ rand, electionElapsed := r.electionElapsed + 1 }) leads r.opts.preVote
    · exact refl

theorem answerStale (sender : NodeId) (body : Body) :
    Moves heard r (r.answerStale sender body) := by
  cases body with
  | appendReq => exact single (.say (.appendRefusal ..))
  | heartbeatReq => exact single (.say (.appendRefusal ..))
  | preVoteReq => exact single (.say (.preVoteResp ..))
  | _ => exact refl

theorem dispatch {msg : Message} (asked : heard = some (sender, msg))
    (sameTerm : msg.isPreVote = false → msg.term = r.term) :
    Moves heard r (r.dispatch sender msg) := by
  rcases msg with ⟨term, body⟩
  cases body with
  | preVoteReq lastIndex lastTerm => exact single (.say (.preVoteResp ..))
  | preVoteResp granted => exact handlePreVoteResp sender term granted
  | voteReq lastIndex lastTerm =>
    obtain rfl : term = r.term := sameTerm rfl
    exact handleVoteReq asked
  | voteResp granted =>
    obtain rfl : term = r.term := sameTerm rfl
    exact handleVoteResp asked
  | appendReq prevIndex prevTerm entries commit =>
    obtain rfl : term = r.term := sameTerm rfl
    exact handleAppend asked
  | appendResp success matchIndex conflictIndex conflictTerm =>
    obtain rfl : term = r.term := sameTerm rfl
    exact (Calms.handleAppendResp asked).moves
  | snapshotReq snap =>
    obtain rfl : term = r.term := sameTerm rfl
    exact handleSnapshot asked
  | snapshotResp success index =>
    obtain rfl : term = r.term := sameTerm rfl
    exact (Calms.handleSnapshotResp asked).moves
  | heartbeatReq commit ctx =>
    obtain rfl : term = r.term := sameTerm rfl
    exact handleHeartbeat asked
  | heartbeatResp ctx =>
    obtain rfl : term = r.term := sameTerm rfl
    exact (Calms.handleHeartbeatResp asked).moves
  | timeoutNow =>
    obtain rfl : term = r.term := sameTerm rfl
    simp only [Raft.dispatch]
    split_ifs
    · exact campaignElection (Or.inr ⟨sender, asked⟩)
    · exact refl

theorem step (sender : NodeId) (msg : Message) :
    Moves (some (sender, msg)) r (r.step sender msg) := by
  by_cases later : msg.term > r.term ∧ (!msg.isPreVote) = true
  · simp only [Raft.step, if_pos later]
    refine (becomeFollower msg.term (announcedLeader sender msg.body)).trans ?_
    have termIs : (r.becomeFollower msg.term (announcedLeader sender msg.body)).term =
        msg.term := by
      rw [becomeFollower_term, max_eq_right later.1.le]
    rw [if_neg (by omega)]
    exact dispatch rfl fun _ => termIs.symm
  · simp only [Raft.step, if_neg later]
    split_ifs with stale
    · exact answerStale sender msg.body
    · apply dispatch rfl
      intro ordinary
      have notLater : ¬msg.term > r.term := fun isLater => later ⟨isLater, by simp [ordinary]⟩
      omega

end Raft.Moves

def Input.heard : Input → Option (NodeId × Message)
  | .message sender msg => some (sender, msg)
  | _ => none

theorem feed_moves (r : Raft) (input : Input) : r.Moves input.heard (Node.feed r input) := by
  cases input with
  | tick rand => exact .tick rand
  | propose data => exact (Raft.Calms.propose data).moves
  | readIndex => exact Raft.Calms.readIndex.moves
  | transferLeadership target => exact (Raft.Calms.transferLeadership target).moves
  | message sender msg => exact .step sender msg

theorem feed_moves_prompted (r : Raft) {input : Input} (notRead : input ≠ .readIndex) :
    ∃ heard, heard ≠ none ∧ r.Moves heard (Node.feed r input) := by
  let any : Option (NodeId × Message) := some (0, ⟨0, .timeoutNow⟩)
  cases input with
  | tick rand => exact ⟨any, nofun, .tick rand⟩
  | propose data => exact ⟨any, nofun, (Raft.Calms.propose data).moves⟩
  | readIndex => exact absurd rfl notRead
  | transferLeadership target => exact ⟨any, nofun, (Raft.Calms.transferLeadership target).moves⟩
  | message sender msg => exact ⟨some (sender, msg), nofun, .step sender msg⟩

end ChronoScope.Chronolog
