import ChronoScope.Chronolog.Cycle
import ChronoScope.Chronolog.Fleet

/-!
# How a node's stance changes

Who leads, who stands, whom a node believes to lead and whose votes it has: most of
what a node does leaves that alone and only speaks as the stance allows it to. What
does change it is listed in `Shift`, each with the message it answers, and
`Shifts.feed` says that every input is made of shifts.
-/

namespace ChronoScope.Chronolog

def Body.fromLeader : Body → Bool
  | .appendReq .. => true
  | .snapshotReq _ => true
  | .heartbeatReq .. => true
  | .timeoutNow => true
  | _ => false

def Body.isReply : Body → Bool
  | .appendResp .. => true
  | .snapshotResp .. => true
  | .heartbeatResp _ => true
  | _ => false

namespace Raft

/-- Only leaders speak as leaders, and a poll is granted only if there was one. -/
structure Utters (heard : Option (NodeId × Message)) (r : Raft) (peer : NodeId) (msg : Message) :
    Prop where
  leads : msg.body.fromLeader = true → r.role = .leader ∧ msg.term = r.term
  asked : msg.body = .preVoteResp true →
    ∃ lastIndex lastTerm, heard = some (peer, ⟨msg.term, .preVoteReq lastIndex lastTerm⟩)

/-- The stance stays, whatever else changes and is posted. -/
structure Unmoved (heard : Option (NodeId × Message)) (r r' : Raft) : Prop where
  stance : r'.stance = r.stance
  posted : ∀ peer msg, (peer, msg) ∈ r'.pending.messages →
    (peer, msg) ∈ r.pending.messages ∨ Utters heard r peer msg

namespace Unmoved

variable {heard : Option (NodeId × Message)} {r r' r'' : Raft}

section

variable (unmoved : Unmoved heard r r')

include unmoved

theorem id : r'.id = r.id :=
  congrArg (fun stance => stance.1) unmoved.stance

theorem opts : r'.opts = r.opts :=
  congrArg (fun stance => stance.2.1) unmoved.stance

theorem term : r'.term = r.term :=
  congrArg (fun stance => stance.2.2.1) unmoved.stance

theorem role : r'.role = r.role :=
  congrArg (fun stance => stance.2.2.2.1) unmoved.stance

theorem leader : r'.leader = r.leader :=
  congrArg (fun stance => stance.2.2.2.2.1) unmoved.stance

theorem votes : r'.votes = r.votes :=
  congrArg (fun stance => stance.2.2.2.2.2) unmoved.stance

end

theorem of (stance : r'.stance = r.stance)
    (messages : r'.pending.messages = r.pending.messages) : Unmoved heard r r' :=
  ⟨stance, fun _ _ waits => Or.inl (messages ▸ waits)⟩

theorem refl (r : Raft) : Unmoved heard r r := of rfl rfl

theorem trans (first : Unmoved heard r r') (second : Unmoved heard r' r'') :
    Unmoved heard r r'' := by
  refine ⟨second.stance.trans first.stance, ?_⟩
  intro peer msg waits
  rcases second.posted peer msg waits with earlier | utters
  · exact first.posted peer msg earlier
  · right
    refine ⟨?_, utters.asked⟩
    rw [← first.role, ← first.term]
    exact utters.leads

theorem after (second : Unmoved heard r' r'') (first : Unmoved heard r r') :
    Unmoved heard r r'' :=
  first.trans second

variable {msg : Message} {peer : NodeId}

theorem post (utters : Utters heard r peer msg) :
    Unmoved heard r (r.post peer msg) := by
  refine ⟨rfl, ?_⟩
  intro target sent waits
  rcases List.mem_append.mp waits with earlier | new
  · exact Or.inl earlier
  · obtain ⟨rfl, rfl⟩ := Prod.mk.inj (List.mem_singleton.mp new)
    exact Or.inr utters

theorem remark (plain : msg.body.fromLeader = false)
    (noGrant : msg.body ≠ .preVoteResp true) : Unmoved heard r (r.post peer msg) :=
  post ⟨fun leads => by simp [plain] at leads, fun grant => absurd grant noGrant⟩

theorem reply {body : Body} (plain : body.fromLeader = false)
    (noGrant : body ≠ .preVoteResp true) : Unmoved heard r (r.send peer body) :=
  remark plain noGrant

theorem order {body : Body} (leads : r.role = .leader)
    (noGrant : body ≠ .preVoteResp true) : Unmoved heard r (r.send peer body) :=
  post ⟨fun _ => ⟨leads, rfl⟩, fun grant => absurd grant noGrant⟩

theorem ite {condition : Prop} [Decidable condition] (yes : condition → Unmoved heard r r')
    (no : ¬ condition → Unmoved heard r r'') :
    Unmoved heard r (if condition then r' else r'') := by
  by_cases holds : condition
  · rw [if_pos holds]
    exact yes holds
  · rw [if_neg holds]
    exact no holds

theorem of_calms (calms : Calms heard r r') : Unmoved heard r r' := by
  induction calms with
  | refl => exact refl r
  | tail _ calm ih =>
    refine ih.trans ?_
    cases calm with
    | act _ stance messages => exact of stance messages
    | say sends noGrant =>
      refine post ⟨fun order => ?_, fun grant => absurd grant noGrant⟩
      cases sends with
      | append leads => exact ⟨leads, rfl⟩
      | heartbeat leads => exact ⟨leads, rfl⟩
      | timeoutNow leads => exact ⟨leads, rfl⟩
      | _ => cases order

theorem appendToOwnLog (entries : List Entry) : Unmoved heard r (r.appendToOwnLog entries) := by
  unfold Raft.appendToOwnLog
  cases entries.head? <;> exact of rfl rfl

theorem resetProgressForConfig (r : Raft) : Unmoved heard r r.resetProgressForConfig :=
  of rfl rfl

theorem maybeAdvanceCommit : Unmoved heard r r.maybeAdvanceCommit := by
  obtain ⟨_, _, _, _, advanced⟩ := maybeAdvanceCommit_eq r
  rw [advanced]
  exact of rfl rfl

theorem raiseCommit (commit : ℕ) : Unmoved heard r (r.raiseCommit commit) := by
  obtain ⟨_, raised⟩ := raiseCommit_eq r commit
  rw [raised]
  exact of rfl rfl

theorem acceptAppend (sender : NodeId) (prevIndex : ℕ) (entries : List Entry) (commit : ℕ) :
    Unmoved heard r (r.acceptAppend sender prevIndex entries commit) := by
  obtain ⟨_, accepted⟩ := acceptAppend_eq r sender prevIndex entries commit
  rw [accepted]
  exact Unmoved.after (reply rfl nofun) (of rfl rfl)

theorem proposeConfig (change : ConfigChange) : Unmoved heard r (r.proposeConfig change).2 := by
  by_cases leads : r.role = .leader
  · rw [Raft.proposeConfig, if_neg (not_not.mpr leads)]
    split_ifs
    · exact refl r
    · exact refl r
    · have appended : Unmoved heard r
          (r.appendToOwnLog [⟨r.term, r.log.lastIndex + 1, .config change⟩]) := appendToOwnLog _
      have reset : Unmoved heard r _ := appended.trans (resetProgressForConfig _)
      exact reset.trans (.of_calms (.broadcastAppend (reset.role.trans leads)))
  · rw [Raft.proposeConfig, if_pos leads]
    exact refl r

theorem maybeFinishConfigChange : Unmoved heard r r.maybeFinishConfigChange.2 := by
  unfold Raft.maybeFinishConfigChange
  split_ifs
  · exact refl r
  · exact refl r
  · exact refl r
  · exact proposeConfig .leaveJoint

theorem sendSnapshot (leads : r.role = .leader) (peer : NodeId) (snapshot : Snapshot) :
    Unmoved heard r (r.sendSnapshot peer snapshot) := by
  let flagged := { r with progress := r.progress.modify peer fun p =>
    { p with pendingSnapshot := snapshot.lastIndex, pendingSnapshotAge := 0, state := .snapshot } }
  have noted : Unmoved heard r flagged := of rfl rfl
  exact noted.trans (order leads nofun)

theorem handlePreVoteReq {sender : NodeId} {pollTerm lastIndex lastTerm : ℕ}
    (asked : heard = some (sender, ⟨pollTerm, .preVoteReq lastIndex lastTerm⟩)) :
    Unmoved heard r (r.handlePreVoteReq sender pollTerm lastIndex lastTerm) :=
  post ⟨nofun, fun _ => ⟨lastIndex, lastTerm, asked⟩⟩

theorem handleVoteReq (sender : NodeId) (lastIndex lastTerm : ℕ) :
    Unmoved heard r (r.handleVoteReq sender lastIndex lastTerm) := by
  unfold Raft.handleVoteReq
  simp only
  split_ifs
  · exact Unmoved.after (reply rfl nofun) (of rfl rfl)
  · exact reply rfl nofun

theorem handleAppend (sender : NodeId) (prevIndex prevTerm : ℕ) (entries : List Entry)
    (commit : ℕ) :
    Unmoved heard (r.followLeader sender)
      (r.handleAppend sender prevIndex prevTerm entries commit) := by
  unfold Raft.handleAppend
  generalize r.followLeader sender = r
  simp only
  split_ifs
  · exact reply rfl nofun
  · split
    · split_ifs
      · exact acceptAppend sender prevIndex entries commit
      · exact reply rfl nofun
    · exact reply rfl nofun

theorem handleSnapshot (sender : NodeId) (snapshot : Snapshot) :
    Unmoved heard (r.followLeader sender) (r.handleSnapshot sender snapshot) := by
  unfold Raft.handleSnapshot
  generalize r.followLeader sender = r
  refine ite (fun _ => reply rfl nofun) fun _ => ?_
  exact Unmoved.after (reply rfl nofun) (of rfl rfl)

theorem answerStale (sender : NodeId) (body : Body) :
    Unmoved heard r (r.answerStale sender body) := by
  cases body with
  | appendReq => exact reply rfl nofun
  | heartbeatReq => exact reply rfl nofun
  | preVoteReq => exact reply rfl nofun
  | _ => exact refl r

theorem cycle (persisted : ℕ) :
    Unmoved heard r ((r.ready.2.setPersisted persisted).advance r.ready.1) := by
  have collected : Unmoved heard r (r.ready.2.setPersisted persisted) := ⟨rfl, nofun⟩
  have noted : Unmoved heard r (noteReady (r.ready.2.setPersisted persisted) r.ready.1) :=
    collected.trans (of rfl rfl)
  rw [advance_eq]
  exact ite (fun _ => maybeAdvanceCommit.after noted) fun _ => noted

end Unmoved

/-- How a node's stance changes while it handles what it has `heard`, where `start` is the node
before. Only a node that led at the start stops leading. -/
inductive Shift (heard : Option (NodeId × Message)) (start : Raft) : Raft → Raft → Prop where
  | unmoved {r r' : Raft} (unmoved : Unmoved heard r r') : Shift heard start r r'
  /-- Follow, behind whom the message announces or behind nobody. -/
  | standDown {r : Raft} {term : ℕ} {leader : Option NodeId}
      (led : r.role = .leader → start.role = .leader ∧ start.term = r.term)
      (announced : ∀ id, leader = some id → ∃ msg, heard = some (id, msg) ∧
        msg.term = max r.term term ∧
        (msg.body.fromLeader = true ∨ msg.body.isReply = true ∧ start.term < msg.term)) :
      Shift heard start r (r.becomeFollower term leader)
  | defer {r : Raft} {sender : NodeId} {msg : Message}
      (led : r.role = .leader → start.role = .leader ∧ start.term = r.term)
      (asked : heard = some (sender, msg)) (sameTerm : msg.term = r.term)
      (order : msg.body.fromLeader = true) : Shift heard start r (r.followLeader sender)
  | poll {r : Raft} (notLeader : r.role ≠ .leader) : Shift heard start r r.poll
  /-- The answer to a poll, whichever it was. -/
  | count {sender : NodeId} {term : ℕ} {granted : Bool} (polling : start.role = .preCandidate)
      (asked : heard = some (sender, ⟨term, .preVoteResp granted⟩)) (inTime : start.term ≤ term) :
      Shift heard start start { start with votes := start.votes.insert sender granted }
  | quit {r : Raft} (polling : r.role = .preCandidate) :
      Shift heard start r { r with role := .follower }
  | collect {r : Raft} (sender : NodeId) (granted : Bool) (candidacy : r.role = .candidate) :
      Shift heard start r { r with votes := r.votes.insert sender granted }
  | stand {r : Raft} (led : r.role = .leader → start.role = .leader ∧ start.term = r.term)
      (called : (r.role = .preCandidate ∧ r.tally r.log.config = true ∧ r.log = start.log ∧
          r.term = start.term) ∨
        r.opts.preVote = false ∨ ∃ sender term, heard = some (sender, ⟨term, .timeoutNow⟩)) :
      Shift heard start r r.stand
  | openTerm {r : Raft} (candidacy : r.role = .candidate) : Shift heard start r r.openTerm

def Shifts (heard : Option (NodeId × Message)) (start : Raft) : Raft → Raft → Prop :=
  Relation.ReflTransGen (Shift heard start)

namespace Shifts

variable {heard : Option (NodeId × Message)} {start r r' r'' : Raft}

theorem single (shift : Shift heard start r r') : Shifts heard start r r' :=
  Relation.ReflTransGen.single shift

theorem unmoved (unmoved : Unmoved heard r r') : Shifts heard start r r' :=
  single (.unmoved unmoved)

theorem trans (first : Shifts heard start r r') (second : Shifts heard start r' r'') :
    Shifts heard start r r'' :=
  Relation.ReflTransGen.trans first second

theorem keeps {P : Raft → Prop} (shifts : Shifts heard start r r')
    (kept : ∀ {q q' : Raft}, Shift heard start q q' → P q → P q') (holds : P r) : P r' := by
  induction shifts with
  | refl => exact holds
  | tail _ next ih => exact kept next ih

theorem becomeLeader (candidacy : r.role = .candidate) : Shifts heard start r r.becomeLeader :=
  (single (.openTerm candidacy)).trans (unmoved (.of_calms (.broadcastAppend rfl)))

theorem campaignElection (led : r.role = .leader → start.role = .leader ∧ start.term = r.term)
    (called : (r.role = .preCandidate ∧ r.tally r.log.config = true ∧ r.log = start.log ∧
        r.term = start.term) ∨
      r.opts.preVote = false ∨ ∃ sender term, heard = some (sender, ⟨term, .timeoutNow⟩)) :
    Shifts heard start r r.campaignElection := by
  refine (single (.stand led called)).trans ?_
  unfold Raft.campaignElection
  simp only
  split_ifs
  · exact becomeLeader rfl
  · exact unmoved (.of_calms (.askVotes rfl))

theorem startElection (notLeader : r.role ≠ .leader) (sameLog : r.log = start.log)
    (sameTerm : r.term = start.term) : Shifts heard start r r.startElection := by
  unfold Raft.startElection
  cases polls : r.opts.preVote with
  | false => exact campaignElection (fun leads => absurd leads notLeader) (Or.inr (Or.inl polls))
  | true =>
    refine (single (.poll notLeader)).trans ?_
    simp only [Raft.campaign, if_true]
    split_ifs with won
    · exact campaignElection (fun leads => by cases leads) (Or.inl ⟨rfl, won, sameLog, sameTerm⟩)
    · exact unmoved (.of_calms (.askPolls ..))

variable {msg : Message} {sender : NodeId}

theorem handlePreVoteResp {respTerm : ℕ} {granted : Bool}
    (asked : heard = some (sender, ⟨respTerm, .preVoteResp granted⟩)) (inTime : r.term ≤ respTerm) :
    Shifts heard r r (r.handlePreVoteResp sender respTerm granted) := by
  unfold Raft.handlePreVoteResp
  split_ifs with otherRole
  · exact unmoved (.refl r)
  · exact single (.standDown (fun leads => ⟨leads, rfl⟩) nofun)
  · have polling : r.role = .preCandidate := not_not.mp otherRole
    refine (single (.count polling asked inTime)).trans ?_
    simp only
    split_ifs with won
    · exact campaignElection (fun leads => ⟨leads, rfl⟩) (Or.inl ⟨polling, won, rfl, rfl⟩)
    · exact single (.quit polling)
    · exact unmoved (.refl _)

theorem handleVoteResp (sender : NodeId) (granted : Bool) :
    Shifts heard start r (r.handleVoteResp sender granted) := by
  unfold Raft.handleVoteResp
  split_ifs with otherRole
  · exact unmoved (.refl r)
  · have candidacy : r.role = .candidate := not_not.mp otherRole
    refine (single (.collect sender granted candidacy)).trans ?_
    simp only
    split_ifs
    · exact becomeLeader candidacy
    · refine single (.standDown ?_ nofun)
      intro leads
      exact absurd (candidacy.symm.trans leads) (by decide)
    · exact unmoved (.refl _)

theorem followLeader
    (led : r.role = .leader → start.role = .leader ∧ start.term = r.term)
    (asked : heard = some (sender, msg)) (sameTerm : msg.term = r.term)
    (order : msg.body.fromLeader = true)
    (handled : Unmoved heard (r.followLeader sender) r') : Shifts heard start r r' :=
  (single (.defer led asked sameTerm order)).trans (unmoved handled)

theorem checkQuorum (led : start.role = .leader ∧ start.term = r.term) :
    Shifts heard start r r.checkQuorum := by
  have reset : Unmoved heard r
      { r with progress := r.progress.mapValues fun _ p => { p with active := false } } :=
    .of rfl rfl
  unfold Raft.checkQuorum
  simp only
  split_ifs
  · exact unmoved (reset.trans (.of rfl rfl))
  · exact (unmoved reset).trans (single (.standDown (fun _ => led) nofun))

theorem tickQuorum (leads : r.role = .leader) (led : start.role = .leader ∧ start.term = r.term) :
    Shifts heard start r r.tickQuorum.expirePendingSnapshots := by
  have checked : Shifts heard start r r.tickQuorum := by
    have reset : Unmoved heard r { r with electionElapsed := 0 } := .of rfl rfl
    unfold Raft.tickQuorum
    split_ifs
    · exact (unmoved reset).trans (checkQuorum led)
    · exact unmoved (.refl r)
  have settled : Moves none r r.tickQuorum ∧ _ := Moves.tickQuorum leads
  exact checked.trans (unmoved (.of_calms (.expirePendingSnapshots settled.2)))

theorem tick (rand : UInt64) : Shifts heard r r (r.tick rand) := by
  by_cases leads : r.role = .leader
  · rw [Raft.tick, if_pos leads]
    have ticked : Unmoved heard r { r with
        rand := r.rand ^^^ rand, electionElapsed := r.electionElapsed + 1,
        heartbeatElapsed := r.heartbeatElapsed + 1,
        quorumContactElapsed := r.quorumContactElapsed + 1 } := .of rfl rfl
    have beaten := ticked.trans (.of_calms (.tickHeartbeat leads))
    exact (unmoved beaten).trans (tickQuorum (beaten.role.trans leads) ⟨leads, beaten.term.symm⟩)
  · rw [Raft.tick, if_neg leads]
    have ticked : Unmoved heard r { r with
        rand := r.rand ^^^ rand, electionElapsed := r.electionElapsed + 1 } := .of rfl rfl
    refine (unmoved ticked).trans ?_
    split_ifs
    · exact startElection (r := { r with
        rand := r.rand ^^^ rand, electionElapsed := r.electionElapsed + 1 }) leads rfl rfl
    · exact unmoved (.refl _)

theorem dispatch (asked : heard = some (sender, msg))
    (led : r.role = .leader → start.role = .leader ∧ start.term = r.term)
    (sameStart : msg.isPreVote = true → r = start ∧ r.term ≤ msg.term)
    (sameTerm : msg.isPreVote = false → msg.term = r.term) :
    Shifts heard start r (r.dispatch sender msg) := by
  rcases msg with ⟨term, body⟩
  cases body with
  | preVoteReq lastIndex lastTerm => exact unmoved (Unmoved.handlePreVoteReq asked)
  | preVoteResp granted =>
    rcases sameStart rfl with ⟨rfl, inTime⟩
    exact handlePreVoteResp asked inTime
  | voteReq lastIndex lastTerm => exact unmoved (Unmoved.handleVoteReq sender lastIndex lastTerm)
  | voteResp granted => exact handleVoteResp sender granted
  | appendReq prevIndex prevTerm entries commit =>
    refine followLeader led asked (sameTerm rfl) rfl ?_
    exact Unmoved.handleAppend _ _ _ _ _
  | appendResp success matchIndex conflictIndex conflictTerm =>
    obtain rfl : term = r.term := sameTerm rfl
    exact unmoved (.of_calms (.handleAppendResp asked))
  | snapshotReq snap =>
    refine followLeader led asked (sameTerm rfl) rfl ?_
    exact Unmoved.handleSnapshot _ _
  | snapshotResp success index =>
    obtain rfl : term = r.term := sameTerm rfl
    exact unmoved (.of_calms (.handleSnapshotResp asked))
  | heartbeatReq commit ctx =>
    refine followLeader led asked (sameTerm rfl) rfl ?_
    exact (Unmoved.raiseCommit _).trans (Unmoved.reply rfl nofun)
  | heartbeatResp ctx =>
    obtain rfl : term = r.term := sameTerm rfl
    exact unmoved (.of_calms (.handleHeartbeatResp asked))
  | timeoutNow =>
    simp only [Raft.dispatch]
    split_ifs
    · exact campaignElection led (Or.inr (Or.inr ⟨sender, term, asked⟩))
    · exact unmoved (.refl r)

theorem announcedLeader_eq_some {id : NodeId}
    (regular : msg.isPreVote = false)
    (announced : announcedLeader sender msg.body = some id) :
    id = sender ∧ (msg.body.fromLeader = true ∨ msg.body.isReply = true) := by
  rcases msg with ⟨term, body⟩
  cases body <;> simp_all [announcedLeader, Body.fromLeader, Body.isReply, Message.isPreVote]

theorem step (asked : heard = some (sender, msg)) :
    Shifts heard r r (r.step sender msg) := by
  unfold Raft.step
  by_cases later : msg.term > r.term ∧ (!msg.isPreVote) = true
  · have regular : msg.isPreVote = false := by simpa using later.2
    have caughtUp : max r.term msg.term = msg.term := max_eq_right later.1.le
    simp only [if_pos later, becomeFollower_term, caughtUp, lt_irrefl, if_false]
    refine (single (.standDown (fun leads => ⟨leads, rfl⟩) ?_)).trans
      (dispatch asked ?_ ?_ fun _ => ?_)
    · intro id announced
      rcases announcedLeader_eq_some regular announced with ⟨rfl, kind⟩
      exact ⟨msg, asked, caughtUp.symm, kind.imp_right fun replies => ⟨replies, later.1⟩⟩
    · intro leads
      rw [becomeFollower_role] at leads
      cases leads
    · intro isPreVote
      rw [regular] at isPreVote
      cases isPreVote
    · rw [becomeFollower_term, caughtUp]
  · simp only [if_neg later]
    split_ifs with stale
    · exact unmoved (Unmoved.answerStale sender msg.body)
    · refine dispatch asked (fun leads => ⟨leads, rfl⟩) (fun _ => ⟨rfl, not_lt.mp stale⟩)
        fun regular => ?_
      have notLater : ¬ msg.term > r.term := fun above => later ⟨above, by simp [regular]⟩
      omega

theorem feed (id : NodeId) (input : Input) :
    Shifts (Deed.act (.input id input)).heard r r (Node.feed r input) := by
  cases input with
  | tick rand => exact tick rand
  | propose data => exact unmoved (.of_calms (.propose data))
  | readIndex => exact unmoved (.of_calms .readIndex)
  | transferLeadership target => exact unmoved (.of_calms (.transferLeadership target))
  | message sender msg => exact step rfl

theorem stepDown : Shifts heard r r r.stepDown := by
  rcases stepDown_cases r with same | ⟨leads, stoodDown⟩
  · rw [same]
    exact unmoved (.refl r)
  · rw [stoodDown]
    exact single (.standDown (fun _ => ⟨leads, rfl⟩) nofun)

end Shifts

section

variable {heard : Option (NodeId × Message)} {start r r' : Raft}

theorem Shift.id_eq (shift : Shift heard start r r') : r'.id = r.id := by
  cases shift with
  | unmoved unmoved => exact unmoved.id
  | standDown => exact becomeFollower_id _ _
  | defer => exact followLeader_id _
  | _ => rfl

theorem becomeFollower_opts (term : ℕ) (leader : Option NodeId) :
    (r.becomeFollower term leader).opts = r.opts := by
  unfold becomeFollower
  split_ifs <;> rfl

theorem becomeFollower_leader (term : ℕ) (leader : Option NodeId) :
    (r.becomeFollower term leader).leader = leader := by
  unfold becomeFollower
  split_ifs <;> rfl

theorem becomeFollower_pending (term : ℕ) (leader : Option NodeId) :
    (r.becomeFollower term leader).pending = r.pending := by
  unfold becomeFollower
  split_ifs <;> rfl

theorem followLeader_leader (sender : NodeId) : (r.followLeader sender).leader = some sender := rfl

theorem followLeader_opts (sender : NodeId) : (r.followLeader sender).opts = r.opts := by
  rcases followLeader_cases r sender with ⟨_, same⟩ | stoodDown
  · rw [same]
  · rw [stoodDown, becomeFollower_opts]

theorem followLeader_pending (sender : NodeId) :
    (r.followLeader sender).pending = r.pending := by
  rcases followLeader_cases r sender with ⟨_, same⟩ | stoodDown
  · rw [same]
  · rw [stoodDown, becomeFollower_pending]

theorem Shift.opts_eq (shift : Shift heard start r r') : r'.opts = r.opts := by
  cases shift with
  | unmoved unmoved => exact unmoved.opts
  | standDown => exact becomeFollower_opts _ _
  | defer => exact followLeader_opts _
  | _ => rfl

theorem Shift.posted (shift : Shift heard start r r') {peer : NodeId} {msg : Message}
    (waits : (peer, msg) ∈ r'.pending.messages) :
    (peer, msg) ∈ r.pending.messages ∨ Utters heard r peer msg := by
  cases shift with
  | unmoved unmoved => exact unmoved.posted peer msg waits
  | standDown =>
    rw [becomeFollower_pending] at waits
    exact Or.inl waits
  | defer =>
    rw [followLeader_pending] at waits
    exact Or.inl waits
  | _ => exact Or.inl waits

end

end Raft

end ChronoScope.Chronolog
