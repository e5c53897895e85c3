import ChronoScope.Chronolog.Reconfiguration
import ChronoScope.Chronolog.Retry

/-!
# What a `Ready` promises

The messages of a `Ready` go out once its hard state is on disk. A vote, and a
request for votes, is a promise that the node must not forget; every other
message but a poll announces a term that it must not fall behind. All of them
wait in one batch, possibly with messages of earlier terms, behind a single hard
state that is left out if only the commit index has moved.

What carries the proof is that term and vote in memory back every message that
waits, and that they differ from what is durable only while the hard state is
marked dirty. It fails where the term wraps: the next election then takes place
in term 0, below every promise that waits.
-/

namespace ChronoScope.Chronolog

/-- The hard state allows its node to send a message. -/
structure HardState.Backs (hard : HardState) (own peer : NodeId) (msg : Message) : Prop where
  term : msg.isPreVote = false → msg.term ≤ hard.term
  vote : msg.body = .voteResp true →
    msg.term < hard.term ∨ msg.term = hard.term ∧ hard.vote = some peer
  candidacy : ∀ lastIndex lastTerm, msg.body = .voteReq lastIndex lastTerm →
    msg.term < hard.term ∨ msg.term = hard.term ∧ hard.vote = some own

/-- The commit index does not matter to what is backed. -/
def HardState.Same (hard other : HardState) : Prop :=
  hard.term = other.term ∧ hard.vote = other.vote

namespace HardState.Backs

variable {hard later : HardState} {own peer : NodeId} {msg : Message}

theorem congr (same : hard.Same later) (backs : hard.Backs own peer msg) :
    later.Backs own peer msg := by
  rcases same with ⟨sameTerm, sameVote⟩
  refine ⟨?_, ?_, ?_⟩
  · rw [← sameTerm]
    exact backs.term
  · rw [← sameTerm, ← sameVote]
    exact backs.vote
  · rw [← sameTerm, ← sameVote]
    exact backs.candidacy

theorem of_lt (less : hard.term < later.term) (backs : hard.Backs own peer msg) :
    later.Backs own peer msg := by
  refine ⟨fun regular => (backs.term regular).trans less.le, ?_, ?_⟩
  · intro isVote
    rcases backs.vote isVote with earlier | ⟨current, _⟩
    · exact .inl (earlier.trans less)
    · exact .inl (current.trans_lt less)
  · intro lastIndex lastTerm isRequest
    rcases backs.candidacy lastIndex lastTerm isRequest with earlier | ⟨current, _⟩
    · exact .inl (earlier.trans less)
    · exact .inl (current.trans_lt less)

theorem of_free (sameTerm : hard.term = later.term) (free : hard.vote = none)
    (backs : hard.Backs own peer msg) : later.Backs own peer msg := by
  refine ⟨fun regular => sameTerm ▸ backs.term regular, ?_, ?_⟩
  · intro isVote
    rcases backs.vote isVote with earlier | ⟨_, voted⟩
    · exact .inl (sameTerm ▸ earlier)
    · rw [free] at voted
      cases voted
  · intro lastIndex lastTerm isRequest
    rcases backs.candidacy lastIndex lastTerm isRequest with earlier | ⟨_, voted⟩
    · exact .inl (sameTerm ▸ earlier)
    · rw [free] at voted
      cases voted

theorem of_term (reached : msg.isPreVote = false → msg.term ≤ hard.term)
    (noVote : msg.body ≠ .voteResp true)
    (noRequest : ∀ lastIndex lastTerm, msg.body ≠ .voteReq lastIndex lastTerm) :
    hard.Backs own peer msg :=
  ⟨reached, fun isVote => absurd isVote noVote,
    fun _ _ isRequest => absurd isRequest (noRequest _ _)⟩

end HardState.Backs

namespace Raft

/-- Term and vote back everything that waits to be sent, and what is durable is behind them only
as long as that is known. The node has noted some hard state to be durable. -/
structure Pledged (durable noted : HardState) (r : Raft) : Prop where
  noted : r.persistedHardState = noted
  waiting : r.pending.hardState = none
  dirty : r.hardStateDirty = false → durable.Same r.hardState
  candidate : r.role = .candidate → r.vote = some r.id
  backed : ∀ peer msg, (peer, msg) ∈ r.pending.messages → r.hardState.Backs r.id peer msg

/-- A change that leaves alone what hard states and messages are about. -/
structure Neutral (r r' : Raft) : Prop where
  id : r'.id = r.id
  term : r'.term = r.term
  vote : r'.vote = r.vote
  dirty : r'.hardStateDirty = false → r.hardStateDirty = false
  role : r'.role = .candidate → r.role = .candidate
  noted : r'.persistedHardState = r.persistedHardState
  waiting : r'.pending.hardState = r.pending.hardState
  messages : r'.pending.messages = r.pending.messages

/-- What hard states and messages are about. -/
def outlook (r : Raft) : NodeId × ℕ × Option NodeId × Bool × Role × HardState × Option HardState ×
    List (NodeId × Message) :=
  (r.id, r.term, r.vote, r.hardStateDirty, r.role, r.persistedHardState, r.pending.hardState,
    r.pending.messages)

theorem Neutral.of_outlook {r r' : Raft} (same : r'.outlook = r.outlook) : Neutral r r' := by
  simp only [outlook, Prod.mk.injEq] at same
  rcases same with ⟨id, term, vote, dirty, role, noted, waiting, messages⟩
  exact ⟨id, term, vote, fun clean => dirty ▸ clean, fun stands => role ▸ stands, noted, waiting,
    messages⟩

theorem Neutral.refl (r : Raft) : Neutral r r := .of_outlook rfl

theorem neutral_maybeAdvanceCommit (r : Raft) : Neutral r r.maybeAdvanceCommit := by
  rcases maybeAdvanceCommit_cases r with unchanged | ⟨_, _, _, _, advanced⟩
  · rw [unchanged]
    exact .refl r
  · rw [advanced]
    exact ⟨rfl, rfl, rfl, nofun, fun stands => stands, rfl, rfl, rfl⟩

theorem neutral_raiseCommit (r : Raft) (commit : ℕ) : Neutral r (r.raiseCommit commit) := by
  unfold raiseCommit
  split_ifs
  · exact ⟨rfl, rfl, rfl, nofun, fun stands => stands, rfl, rfl, rfl⟩
  · exact .refl r

theorem neutral_clampCommit (r : Raft) : Neutral r r.clampCommit := by
  unfold clampCommit
  split_ifs
  · exact ⟨rfl, rfl, rfl, nofun, fun stands => stands, rfl, rfl, rfl⟩
  · exact .refl r

namespace Pledged

variable {durable noted : HardState} {r r' : Raft}

variable {peer : NodeId}

section

variable (pledged : Pledged durable noted r)

include pledged

theorem neutral (neutral : Neutral r r') : Pledged durable noted r' := by
  have same : r.hardState.Same r'.hardState := ⟨neutral.term.symm, neutral.vote.symm⟩
  refine ⟨neutral.noted.trans pledged.noted, neutral.waiting.trans pledged.waiting, ?_, ?_, ?_⟩
  · intro clean
    rcases pledged.dirty (neutral.dirty clean) with ⟨sameTerm, sameVote⟩
    exact ⟨sameTerm.trans same.1, sameVote.trans same.2⟩
  · intro stands
    rw [neutral.vote, neutral.id]
    exact pledged.candidate (neutral.role stands)
  · intro peer msg waits
    rw [neutral.messages] at waits
    rw [neutral.id]
    exact (pledged.backed peer msg waits).congr same

theorem post {msg : Message} (backs : r.hardState.Backs r.id peer msg) :
    Pledged durable noted (r.post peer msg) := by
  refine ⟨pledged.noted, pledged.waiting, pledged.dirty, pledged.candidate, ?_⟩
  intro target sent waits
  rcases List.mem_append.mp waits with earlier | new
  · exact pledged.backed target sent earlier
  · obtain ⟨rfl, rfl⟩ := Prod.mk.inj (List.mem_singleton.mp new)
    exact backs

theorem send {body : Body} (noVote : body ≠ .voteResp true)
    (noRequest : ∀ lastIndex lastTerm, body ≠ .voteReq lastIndex lastTerm) :
    Pledged durable noted (r.send peer body) :=
  pledged.post (.of_term (fun _ => le_rfl) noVote noRequest)

theorem advanced (dirty : r'.hardStateDirty = true)
    (further : r.term < r'.term ∨ r.term = r'.term ∧ (r.vote = none ∨ r.vote = r'.vote))
    (candidate : r'.role = .candidate → r'.vote = some r'.id) (sameId : r'.id = r.id)
    (noticed : r'.persistedHardState = r.persistedHardState)
    (waiting : r'.pending.hardState = r.pending.hardState)
    (messages : r'.pending.messages = r.pending.messages) : Pledged durable noted r' := by
  refine ⟨noticed.trans pledged.noted, waiting.trans pledged.waiting, ?_, candidate, ?_⟩
  · intro clean
    rw [dirty] at clean
    cases clean
  · intro peer msg waits
    rw [messages] at waits
    have backs := pledged.backed peer msg waits
    rw [sameId]
    rcases further with higher | ⟨sameTerm, free | sameVote⟩
    · exact backs.of_lt higher
    · exact backs.of_free sameTerm free
    · exact backs.congr ⟨sameTerm, sameVote⟩

theorem becomeFollower (term : ℕ) (leader : Option NodeId) :
    Pledged durable noted (r.becomeFollower term leader) := by
  rcases Nat.lt_or_ge r.term term with later | notLater
  · rw [becomeFollower_of_lt later]
    exact pledged.advanced rfl (.inl later) nofun rfl rfl rfl rfl
  · rw [becomeFollower_of_le notLater]
    exact pledged.neutral ⟨rfl, rfl, rfl, fun clean => clean, nofun, rfl, rfl, rfl⟩

end

variable {heard : Option (NodeId × Message)}

section

variable (pledged : Pledged durable noted r)

include pledged

theorem sends {msg : Message} (sends : Sends heard r peer msg) :
    r.hardState.Backs r.id peer msg := by
  cases sends with
  | preVoteReq => exact .of_term nofun nofun nofun
  | preVoteResp => exact .of_term nofun nofun nofun
  | voteReq stands =>
    exact ⟨fun _ => le_rfl, nofun, fun _ _ _ => .inr ⟨rfl, pledged.candidate stands⟩⟩
  | _ => exact .of_term (fun _ => le_rfl) nofun nofun

theorem move (move : Move heard r r') : Pledged durable noted r' := by
  cases move with
  | say sends => exact pledged.post (pledged.sends sends)
  | follow term leader => exact pledged.becomeFollower term leader
  | poll => exact pledged.neutral ⟨rfl, rfl, rfl, fun clean => clean, nofun, rfl, rfl, rfl⟩
  | quit => exact pledged.neutral ⟨rfl, rfl, rfl, fun clean => clean, nofun, rfl, rfl, rfl⟩
  | openTerm => exact pledged.neutral ⟨rfl, rfl, rfl, fun clean => clean, nofun, rfl, rfl, rfl⟩
  | stand =>
    exact pledged.advanced rfl (.inl (Nat.lt_succ_self r.term)) (fun _ => rfl) rfl rfl rfl rfl
  | decide => exact pledged.neutral (neutral_maybeAdvanceCommit r)
  | raise => exact pledged.neutral (neutral_raiseCommit r _)
  | @grant sender _ _ _ free =>
    let voted := { r with vote := some sender, hardStateDirty := true, electionElapsed := 0 }
    have promised : Pledged durable noted voted := by
      refine pledged.advanced rfl (.inr ⟨rfl, free⟩) ?_ rfl rfl rfl rfl
      intro stands
      have own := pledged.candidate stands
      rcases free with none | again
      · rw [none] at own
        cases own
      · exact again.symm.trans own
    exact promised.post ⟨fun _ => le_rfl, fun _ => .inr ⟨rfl, rfl⟩, nofun⟩
  | @accept sender prevIndex prevTerm commit entries =>
    have merged : Pledged durable noted (r.mergeEntries prevIndex entries) := by
      rw [mergeEntries_eq]
      exact pledged.neutral (.of_outlook rfl)
    exact ((merged.neutral (neutral_raiseCommit _ _)).neutral (neutral_clampCommit _)).send
      nofun nofun
  | install =>
    refine Pledged.send ?_ nofun nofun
    exact pledged.neutral ⟨rfl, rfl, rfl, nofun, fun stands => stands, rfl, rfl, rfl⟩
  | _ =>
    exact pledged.neutral (.of_outlook rfl)

theorem moves (moves : Moves heard r r') : Pledged durable noted r' :=
  moves.keeps (fun next pledged => pledged.move next) pledged

theorem proposeConfig (change : ConfigChange) :
    Pledged durable noted (r.proposeConfig change).2 := by
  rcases proposeConfig_cases r change with ⟨_, refused⟩ | ⟨⟨leads, _⟩, _, _, accepted⟩
  · rw [refused]
    exact pledged
  · rw [accepted]
    let appended := (r.appendToOwnLog [r.changeEntry change]).resetProgressForConfig
    have kept : Pledged durable noted appended :=
      pledged.neutral (.of_outlook rfl)
    have stillLeads : appended.role = .leader := leads
    have told : Moves none appended appended.broadcastAppend :=
      (Calms.broadcastAppend stillLeads).moves
    exact kept.moves told

theorem maybeFinishConfigChange : Pledged durable noted r.maybeFinishConfigChange.2 := by
  unfold Raft.maybeFinishConfigChange
  split_ifs
  · exact pledged
  · exact pledged
  · exact pledged
  · exact pledged.proposeConfig .leaveJoint

theorem stepDown : Pledged durable noted r.stepDown := by
  rcases stepDown_cases r with same | ⟨_, stoodDown⟩
  · rw [same]
    exact pledged
  · rw [stoodDown]
    exact pledged.becomeFollower r.term none

theorem sendSnapshot (peer : NodeId) (snap : Snapshot) :
    Pledged durable noted (r.sendSnapshot peer snap) := by
  refine Pledged.send ?_ nofun nofun
  exact pledged.neutral (.of_outlook rfl)

end

end Pledged

/-- What can be asked of a node, besides `ready` and `advance`. -/
inductive Call where
  | input (input : Input)
  | proposeConfig (change : ConfigChange)
  | maybeFinishConfigChange
  | setPersisted (index : ℕ)
  | stepDown
  | compact (snap : Snapshot)
  | sendSnapshot (peer : NodeId) (snap : Snapshot)

def call [Counting] (r : Raft) : Call → Raft
  | .input input => Node.feed r input
  | .proposeConfig change => (r.proposeConfig change).2
  | .maybeFinishConfigChange => r.maybeFinishConfigChange.2
  | .setPersisted index => r.setPersisted index
  | .stepDown => r.stepDown
  | .compact snap => r.compact snap
  | .sendSnapshot peer snap => r.sendSnapshot peer snap

/-- No term wraps: the call does what it would do if terms did not run out. -/
def Fits (r : Raft) (call : Call) : Prop :=
  @Raft.call .wrapping r call = @Raft.call .unbounded r call

/-- A node, new or restored, with the hard state on its disk and the `Ready` it waits to see
advanced. Every `Ready` is persisted and advanced, and the node may be called at any time, if the
call is one that it may be asked. -/
inductive Served (may : Raft → Call → Prop) : Raft → HardState → Option Ready → Prop where
  | new (id : NodeId) (cfg : Config) (opts : RaftOptions) :
      Served may (.new id cfg opts) .default none
  | restore (id : NodeId) (opts : RaftOptions) (hard : HardState) (snapshot : Option Snapshot)
      (entries : List Entry) (bootstrap : Config) :
      Served may (.restore id opts hard snapshot entries bootstrap) hard none
  | call {r : Raft} {durable : HardState} {awaited : Option Ready} (call : Call)
      (served : Served may r durable awaited) (allowed : may r call) :
      Served may (@Raft.call .wrapping r call) durable awaited
  | ready {r : Raft} {durable : HardState} (served : Served may r durable none) :
      Served may r.ready.2 (r.ready.1.hardState.getD durable) (some r.ready.1)
  | advance {r : Raft} {durable : HardState} {ready : Ready}
      (served : Served may r durable (some ready)) : Served may (r.advance ready) durable none

variable {durable noted : HardState} {r : Raft} {awaited : Option Ready}

theorem Pledged.call (pledged : Pledged durable noted r) (call : Call) :
    Pledged durable noted (r.call call) := by
  cases call with
  | input input => exact pledged.moves (feed_moves r input)
  | proposeConfig change => exact pledged.proposeConfig change
  | maybeFinishConfigChange => exact pledged.maybeFinishConfigChange
  | setPersisted index =>
    exact pledged.neutral (.of_outlook rfl)
  | stepDown => exact pledged.stepDown
  | compact snap =>
    exact pledged.neutral (.of_outlook rfl)
  | sendSnapshot peer snap => exact pledged.sendSnapshot peer snap

theorem Pledged.same_ready (pledged : Pledged durable noted r) (written : durable.Same noted) :
    (r.ready.1.hardState.getD durable).Same r.hardState := by
  have handed : r.ready.1.hardState =
      if r.hardStateDirty && (decide (r.term ≠ r.persistedHardState.term) ||
        decide (r.vote ≠ r.persistedHardState.vote)) then some r.hardState else none := by
    simp only [Raft.ready, pledged.waiting]
  rw [handed]
  split_ifs with isNew
  · exact ⟨rfl, rfl⟩
  · cases dirty : r.hardStateDirty with
    | false => exact pledged.dirty dirty
    | true =>
      have known : r.term = r.persistedHardState.term ∧ r.vote = r.persistedHardState.vote := by
        simpa [dirty] using isNew
      rw [pledged.noted] at known
      exact ⟨written.1.trans known.1.symm, written.2.trans known.2.symm⟩

theorem Pledged.advance (pledged : Pledged durable noted r) (ready : Ready) :
    Pledged durable (ready.hardState.getD noted) (r.advance ready) := by
  let told := { r with
    persistedHardState := ready.hardState.getD r.persistedHardState
    progress := r.progress.modify r.id fun p =>
      { p with matched := r.persisted, next := r.persisted + 1 } }
  have kept : Pledged durable (ready.hardState.getD noted) told :=
    ⟨congrArg ready.hardState.getD pledged.noted, pledged.waiting, pledged.dirty,
      pledged.candidate, pledged.backed⟩
  have counted : Pledged durable (ready.hardState.getD noted)
      (if told.role = .leader then told.maybeAdvanceCommit else told) := by
    split_ifs
    · exact kept.neutral (neutral_maybeAdvanceCommit told)
    · exact kept
  exact counted.neutral
    (.of_outlook rfl)

theorem Served.pledged (served : Served Fits r durable awaited) :
    ∃ noted, Pledged durable noted r ∧
      durable.Same ((awaited.bind Ready.hardState).getD noted) := by
  induction served with
  | new => exact ⟨_, ⟨rfl, rfl, fun _ => ⟨rfl, rfl⟩, nofun, nofun⟩, rfl, rfl⟩
  | restore => exact ⟨_, ⟨rfl, rfl, fun _ => ⟨rfl, rfl⟩, nofun, nofun⟩, rfl, rfl⟩
  | call call _ fits ih =>
    rcases ih with ⟨noted, pledged, same⟩
    rw [show @Raft.call .wrapping _ call = _ from fits]
    exact ⟨noted, pledged.call call, same⟩
  | @ready r durable _ ih =>
    rcases ih with ⟨noted, pledged, same⟩
    have written := pledged.same_ready same
    refine ⟨noted, ⟨pledged.noted, rfl, fun _ => written, pledged.candidate, nofun⟩, ?_⟩
    simp only [Option.bind_some]
    cases r.ready.1.hardState with
    | none => exact same
    | some hard => exact ⟨rfl, rfl⟩
  | @advance r durable ready _ ih =>
    rcases ih with ⟨noted, pledged, same⟩
    exact ⟨_, pledged.advance ready, same⟩

/-- A node of three that grants a vote and is then told to stand for election itself. -/
abbrev toldToStand (term : ℕ) : Raft :=
  @Raft.call .wrapping
    (@Raft.call .wrapping (.new 1 (.simple [1, 2, 3]) .default)
      (.input (.message 2 ⟨term, .voteReq 0 0⟩)))
    (.input (.message 2 ⟨term, .timeoutNow⟩))

end Raft

end ChronoScope.Chronolog
