import ChronoScope.Chronolog.Log
import ChronoScope.Chronolog.Message

/-!
# The Raft state machine

A node takes inputs (a tick, a message, a proposal) and collects in `pending`
what its driver has to do. `ready` hands that out together with what became
stale on disk and what may be applied; `advance` acknowledges that it was done.

The functions follow the source one by one. Loops over the members of a
configuration are folds in key order, and `campaign`, which calls itself once to
skip from a won poll to the election, is split at that call.
-/

namespace ChronoScope.Chronolog

structure RaftOptions where
  electionTicks : ℕ
  heartbeatTicks : ℕ
  maxEntriesPerAppend : ℕ
  maxBytesPerAppend : ℕ
  preVote : Bool
  snapshotInterval : ℕ
  deriving DecidableEq

def RaftOptions.default : RaftOptions where
  electionTicks := 10
  heartbeatTicks := 3
  maxEntriesPerAppend := 64
  maxBytesPerAppend := 1 <<< 20
  preVote := true
  snapshotInterval := 2000

inductive Role where
  | follower
  | preCandidate
  | candidate
  | leader
  deriving DecidableEq

inductive ProgressState where
  | probe
  | replicate
  | snapshot
  deriving DecidableEq

/-- How far along a follower is, from the leader's point of view. -/
structure Progress where
  next : ℕ
  matched : ℕ
  state : ProgressState
  /-- Index of the snapshot in flight, zero when there is none. -/
  pendingSnapshot : ℕ
  pendingSnapshotAge : ℕ
  active : Bool
  deriving DecidableEq

def Progress.new (next : ℕ) : Progress where
  next := next
  matched := 0
  state := .probe
  pendingSnapshot := 0
  pendingSnapshotAge := 0
  active := false

structure ReadState where
  ctx : ℕ
  index : ℕ
  deriving DecidableEq

structure PendingRead where
  ctx : ℕ
  index : ℕ
  acks : BTreeSet NodeId
  deriving DecidableEq

/-- Everything the driver must do before the state machine advances. -/
structure Ready where
  hardState : Option HardState
  entries : List Entry
  snapshot : Option Snapshot
  messages : List (NodeId × Message)
  committed : List Entry
  reads : List ReadState
  deriving DecidableEq

def Ready.default : Ready where
  hardState := none
  entries := []
  snapshot := none
  messages := []
  committed := []
  reads := []

structure Raft where
  id : NodeId
  opts : RaftOptions
  term : ℕ
  vote : Option NodeId
  log : Log
  commit : ℕ
  applied : ℕ
  /-- Highest index this node has made durable. -/
  persisted : ℕ
  role : Role
  leader : Option NodeId
  votes : BTreeMap NodeId Bool
  electionElapsed : ℕ
  heartbeatElapsed : ℕ
  electionTimeout : ℕ
  progress : BTreeMap NodeId Progress
  pendingReads : List PendingRead
  readCtx : ℕ
  quorumContactElapsed : ℕ
  committedOwnTerm : Bool
  pending : Ready
  hardStateDirty : Bool
  persistedHardState : HardState
  /-- Lowest log index whose durable copy is out of date this cycle. -/
  dirtyFrom : Option ℕ
  rand : UInt64

namespace Raft

def new (id : NodeId) (config : Config) (opts : RaftOptions) : Raft where
  id := id
  opts := opts
  term := 0
  vote := none
  log := .bootstrap config
  commit := 0
  applied := 0
  persisted := 0
  role := .follower
  leader := none
  votes := ∅
  electionElapsed := 0
  heartbeatElapsed := 0
  electionTimeout := opts.electionTicks
  progress := ∅
  pendingReads := []
  readCtx := 0
  quorumContactElapsed := 0
  committedOwnTerm := false
  pending := .default
  hardStateDirty := false
  persistedHardState := .default
  dirtyFrom := none
  rand := (UInt64.ofNat id * 0x9E3779B97F4A7C15) ||| 1

/-- Rebuild after a restart from what recovery found. -/
def restore (id : NodeId) (opts : RaftOptions) (hard : HardState) (snapshot : Option Snapshot)
    (entries : List Entry) (bootstrap : Config) : Raft :=
  let recovered := Log.restore snapshot entries
  -- A log with neither a snapshot nor a config entry carries no membership of its own.
  let log :=
    if recovered.config.voters.isEmpty then
      (Log.bootstrap bootstrap).append (recovered.entriesFrom 1)
    else recovered
  let commit := max (min hard.commit log.lastIndex) log.snapshotIndex
  { new id bootstrap opts with
    log := log
    term := hard.term
    vote := hard.vote
    commit := commit
    applied := log.snapshotIndex
    persisted := log.lastIndex
    persistedHardState := { term := hard.term, vote := hard.vote, commit := commit } }

def config (r : Raft) : Config := r.log.config

def hardState (r : Raft) : HardState := { term := r.term, vote := r.vote, commit := r.commit }

/-- Stir the stored entropy: the draw and the entropy after it. -/
def stir (rand : UInt64) : UInt64 × UInt64 :=
  let rand := rand + 0x9E3779B97F4A7C15
  let z := (rand ^^^ (rand >>> 30)) * 0xBF58476D1CE4E5B9
  let z := (z ^^^ (z >>> 27)) * 0x94D049BB133111EB
  (z ^^^ (z >>> 31), rand)

def post (r : Raft) (peer : NodeId) (msg : Message) : Raft :=
  { r with pending := { r.pending with messages := r.pending.messages ++ [(peer, msg)] } }

def send (r : Raft) (peer : NodeId) (body : Body) : Raft :=
  r.post peer { term := r.term, body := body }

/-- The lower of a watermark, if there is one, and an index. -/
def lowest (dirtyFrom : Option ℕ) (index : ℕ) : ℕ :=
  match dirtyFrom with
  | some existing => min existing index
  | none => index

/-- Mark the durable log stale from `index` onwards. -/
def markDirty (r : Raft) (index : ℕ) : Raft :=
  { r with dirtyFrom := some (lowest r.dirtyFrom index) }

/-- Whether this node may stand for election. -/
def promotable (r : Raft) : Bool := r.log.config.isVoter r.id

def becomeFollower (r : Raft) (term : ℕ) (leader : Option NodeId) : Raft :=
  let r := if term > r.term then { r with term := term, vote := none, hardStateDirty := true }
    else r
  { r with
    role := .follower
    leader := leader
    electionElapsed := 0
    votes := ∅
    progress := ∅
    pendingReads := []
    committedOwnTerm := false }

def granted (r : Raft) : BTreeSet NodeId :=
  .ofList ((r.votes.toList.filter (fun vote => vote.2)).map Prod.fst)

def refused (r : Raft) : BTreeSet NodeId :=
  .ofList ((r.votes.toList.filter (fun vote => !vote.2)).map Prod.fst)

/-- Do the granted votes constitute a quorum? -/
def tally (r : Raft) (cfg : Config) : Bool := cfg.hasQuorum r.granted

/-- Has this election already failed beyond recovery? -/
def lost (r : Raft) (cfg : Config) : Bool := cfg.hasQuorum r.refused

def matchedIndex (r : Raft) (id : NodeId) : ℕ :=
  if id = r.id then r.persisted else ((r.progress.get id).map Progress.matched).getD 0

/-- Advance the commit index to the highest index replicated on a quorum, but
only through an entry of the current term. -/
def maybeAdvanceCommit (r : Raft) : Raft :=
  let candidate := r.log.config.quorumIndex r.matchedIndex
  if candidate ≤ r.commit then r
  else if r.log.termAt candidate ≠ some r.term then r
  else
    { r with
      commit := candidate
      committedOwnTerm := true
      hardStateDirty := true
      quorumContactElapsed := 0 }

def appendToOwnLog (r : Raft) (entries : List Entry) : Raft :=
  let r := match entries.head? with
    | some first => r.markDirty first.index
    | none => r
  { r with log := r.log.append entries }

/-- The entries that fit in the byte budget; the first one always does. -/
def cutEntries (maxBytes : ℕ) : ℕ → ℕ → List Entry → List Entry
  | _, _, [] => []
  | position, bytes, entry :: rest =>
    let bytes := bytes + entry.toBytes.length
    if bytes > maxBytes ∧ position > 0 then []
    else entry :: cutEntries maxBytes (position + 1) bytes rest

def needSnapshot (r : Raft) (peer : NodeId) : Raft :=
  { r with progress := r.progress.modify peer fun p => { p with state := .snapshot } }

def sendAppendTo (r : Raft) (peer : NodeId) : Raft :=
  match r.progress.get peer with
  | none => r
  | some p =>
    if p.state = .snapshot ∧ p.pendingSnapshot > 0 then r
    else
      let prevIndex := p.next - 1
      match r.log.termAt prevIndex with
      | none => r.needSnapshot peer
      | some prevTerm =>
        -- `termAt 0` knows the sentinel, so being behind the log's start is asked separately.
        if p.next < r.log.firstIndex then r.needSnapshot peer
        else
          let stop := min (p.next + r.opts.maxEntriesPerAppend) (r.log.lastIndex + 1)
          let entries := cutEntries r.opts.maxBytesPerAppend 0 0 (r.log.slice p.next stop)
          r.send peer (.appendReq prevIndex prevTerm entries r.commit)

/-- Send an append to every peer of a list, except to oneself. -/
def sendAppends (r : Raft) (peers : List NodeId) : Raft :=
  peers.foldl (fun r peer => if peer ≠ r.id then r.sendAppendTo peer else r) r

def broadcastAppend (r : Raft) : Raft := r.sendAppends r.log.config.allNodes.toList

def freshProgress (r : Raft) (id : NodeId) : Progress :=
  let p := Progress.new (r.log.lastIndex + 1)
  if id = r.id then { p with matched := r.persisted, state := .replicate } else p

/-- Give a member a progress slot unless it has one. -/
def fillProgress (r : Raft) (progress : BTreeMap NodeId Progress) (id : NodeId) :
    BTreeMap NodeId Progress :=
  match progress.get id with
  | some _ => progress
  | none => progress.insert id (r.freshProgress id)

def resetProgressForConfig (r : Raft) : Raft :=
  let members := r.log.config.allNodes
  let kept := r.progress.retain fun id _ => decide (id ∈ members)
  let filled := members.toList.foldl r.fillProgress kept
  { r with progress := filled.modify r.id fun p =>
      { p with
        matched := r.persisted
        next := r.persisted + 1
        state := .replicate
        active := true } }

/-- Take the leadership and open the term with a no-op of one's own. -/
def openTerm (r : Raft) : Raft :=
  let r := { r with
    role := .leader
    leader := some r.id
    heartbeatElapsed := 0
    electionElapsed := 0
    quorumContactElapsed := 0
    committedOwnTerm := false
    pendingReads := [] }
  let r := r.resetProgressForConfig
  let noop : Entry := { term := r.term, index := r.log.lastIndex + 1, kind := .noop }
  r.appendToOwnLog [noop]

def becomeLeader (r : Raft) : Raft := r.openTerm.broadcastAppend

/-- What every campaign starts with: a fresh timeout and no votes. -/
def beginCampaign (r : Raft) : Raft :=
  let span := max r.opts.electionTicks 1
  { r with
    rand := (stir r.rand).2
    electionTimeout := r.opts.electionTicks + (stir r.rand).1.toNat % span
    electionElapsed := 0
    votes := ∅ }

/-- Post a message to every member of the configuration but oneself. -/
def postAll (r : Raft) (cfg : Config) (msg : Message) : Raft :=
  cfg.allNodes.toList.foldl (fun r peer => if peer ≠ r.id then r.post peer msg else r) r

/-- Become a candidate of the next term, voting for oneself. -/
def stand [Counting] (r : Raft) : Raft :=
  let r := r.beginCampaign
  { r with
    role := .candidate
    term := Counting.next r.term
    vote := some r.id
    leader := none
    hardStateDirty := true
    votes := r.votes.insert r.id true }

/-- `campaign false`: the real election. -/
def campaignElection [Counting] (r : Raft) : Raft :=
  let r := r.stand
  if r.tally r.log.config then r.becomeLeader
  else r.postAll r.log.config
    { term := r.term, body := .voteReq r.log.lastIndex r.log.lastTerm }

/-- Start a poll, which leaves the term alone. -/
def poll (r : Raft) : Raft :=
  let r := r.beginCampaign
  { r with role := .preCandidate, votes := r.votes.insert r.id true }

def campaign [Counting] (r : Raft) (preVote : Bool) : Raft :=
  if preVote then
    let r := r.poll
    if r.tally r.log.config then r.campaignElection
    else r.postAll r.log.config
      { term := Counting.next r.term, body := .preVoteReq r.log.lastIndex r.log.lastTerm }
  else r.campaignElection

def startElection [Counting] (r : Raft) : Raft := r.campaign r.opts.preVote

/-- A leader that cannot reach a quorum steps down. -/
def checkQuorum (r : Raft) : Raft :=
  let active : BTreeSet NodeId := .ofList
    ((r.progress.toList.filter (fun p => p.2.active || decide (p.1 = r.id))).map Prod.fst)
  let cfg := r.log.config
  let r := { r with progress := r.progress.mapValues fun _ p => { p with active := false } }
  if cfg.hasQuorum active then { r with quorumContactElapsed := 0 }
  else r.becomeFollower r.term none

/-- Whether a pending snapshot is given up on at this tick. -/
def snapshotExpired (r : Raft) (p : Progress) : Bool :=
  decide (p.pendingSnapshot ≠ 0 ∧ p.pendingSnapshotAge + 1 > max r.opts.electionTicks 1)

def ageSnapshot (r : Raft) (p : Progress) : Progress :=
  if p.pendingSnapshot = 0 then p
  else if r.snapshotExpired p then
    { p with pendingSnapshot := 0, pendingSnapshotAge := 0, state := .probe }
  else { p with pendingSnapshotAge := p.pendingSnapshotAge + 1 }

/-- Give up on snapshots that were never acknowledged, so that they can be resent. -/
def expirePendingSnapshots (r : Raft) : Raft :=
  let retry := (r.progress.toList.filter (fun p => r.snapshotExpired p.2)).map Prod.fst
  let r := { r with progress := r.progress.mapValues fun _ p => r.ageSnapshot p }
  retry.foldl sendAppendTo r

def handlePreVoteReq (r : Raft) (sender : NodeId) (pollTerm lastIndex lastTerm : ℕ) : Raft :=
  let believesInLeader := r.leader.isSome && decide (r.electionElapsed < r.opts.electionTicks)
  let granted := decide (pollTerm > r.term) && r.log.isUpToDate lastTerm lastIndex &&
    !believesInLeader
  r.post sender { term := pollTerm, body := .preVoteResp granted }

def handlePreVoteResp [Counting] (r : Raft) (sender : NodeId) (respTerm : ℕ) (granted : Bool) :
    Raft :=
  if r.role ≠ .preCandidate then r
  else if !granted ∧ respTerm > Counting.next r.term then r.becomeFollower respTerm none
  else
    let r := { r with votes := r.votes.insert sender granted }
    let cfg := r.log.config
    if r.tally cfg then r.campaign false
    else if r.lost cfg then { r with role := .follower }
    else r

def handleVoteReq (r : Raft) (sender : NodeId) (lastIndex lastTerm : ℕ) : Raft :=
  let canVote := match r.vote with
    | none => true
    | some candidate => decide (candidate = sender)
  let granted := canVote && r.log.isUpToDate lastTerm lastIndex
  let r := if granted then
      { r with vote := some sender, hardStateDirty := true, electionElapsed := 0 }
    else r
  r.send sender (.voteResp granted)

def handleVoteResp (r : Raft) (sender : NodeId) (granted : Bool) : Raft :=
  if r.role ≠ .candidate then r
  else
    let r := { r with votes := r.votes.insert sender granted }
    let cfg := r.log.config
    if r.tally cfg then r.becomeLeader
    else if r.lost cfg then r.becomeFollower r.term none
    else r

/-- What a live leader at our term is answered with first: defer to it. -/
def followLeader (r : Raft) (sender : NodeId) : Raft :=
  let r := if r.role ≠ .follower then r.becomeFollower r.term (some sender) else r
  { r with leader := some sender, electionElapsed := 0 }

def raiseCommit (r : Raft) (commit : ℕ) : Raft :=
  if commit > r.commit then { r with commit := commit, hardStateDirty := true } else r

/-- Never keep a commit index past the end of the log. -/
def clampCommit (r : Raft) : Raft :=
  if r.commit > r.log.lastIndex then { r with commit := r.log.lastIndex, hardStateDirty := true }
  else r

/-- Merge entries into the log; whatever was kept or replaced, the durable copy
must match from the first of them on. -/
def mergeEntries (r : Raft) (prevIndex : ℕ) (entries : List Entry) : Raft :=
  let r := { r with log := (r.log.merge prevIndex entries).1 }
  match entries.head? with
  | some first => r.markDirty first.index
  | none => r

/-- The part of `handleAppend` that runs once the previous entry matches. -/
def acceptAppend (r : Raft) (sender : NodeId) (prevIndex : ℕ) (entries : List Entry)
    (leaderCommit : ℕ) : Raft :=
  let lastNew := (r.log.merge prevIndex entries).2
  let r := r.mergeEntries prevIndex entries
  let r := (r.raiseCommit (min leaderCommit lastNew)).clampCommit
  r.send sender (.appendResp true lastNew 0 0)

def handleAppend (r : Raft) (sender : NodeId) (prevIndex prevTerm : ℕ) (entries : List Entry)
    (leaderCommit : ℕ) : Raft :=
  let r := r.followLeader sender
  if prevIndex < r.log.snapshotIndex then
    r.send sender (.appendResp true r.log.snapshotIndex 0 0)
  else
    match r.log.termAt prevIndex with
    | some term =>
      if term = prevTerm then r.acceptAppend sender prevIndex entries leaderCommit
      else
        let hint := r.log.findConflictByTerm prevIndex term
        r.send sender (.appendResp false 0 hint term)
    | none => r.send sender (.appendResp false 0 (r.log.lastIndex + 1) 0)

def setProgress (r : Raft) (peer : NodeId) (p : Progress) : Raft :=
  { r with progress := r.progress.modify peer fun _ => p }

/-- A follower's progress after it accepted an append up to `matchIndex`. -/
def acceptedProgress (p : Progress) (matchIndex : ℕ) : Progress :=
  let p := { p with active := true }
  if matchIndex ≥ p.matched then
    { p with
      matched := matchIndex
      next := matchIndex + 1
      state := .replicate
      pendingSnapshot := 0
      pendingSnapshotAge := 0 }
  else p

/-- A follower's progress after it rejected an append: jump back to its hint. -/
def rejectedProgress (r : Raft) (p : Progress) (conflictIndex conflictTerm : ℕ) : Progress :=
  let next := if conflictTerm > 0 then r.log.findConflictByTerm conflictIndex conflictTerm + 1
    else max conflictIndex 1
  { p with
    active := true
    next := min (max next (p.matched + 1)) (r.log.lastIndex + 1)
    state := .probe }

def handleAppendResp (r : Raft) (sender : NodeId) (success : Bool)
    (matchIndex conflictIndex conflictTerm : ℕ) : Raft :=
  if r.role ≠ .leader then r
  else
    match r.progress.get sender with
    | none => r
    | some p =>
      if success then
        let p := acceptedProgress p matchIndex
        let advanced := (r.setProgress sender p).maybeAdvanceCommit
        if p.matched < r.log.lastIndex then advanced.sendAppendTo sender else advanced
      else
        let p := r.rejectedProgress p conflictIndex conflictTerm
        (r.setProgress sender p).sendAppendTo sender

/-- The part of `handleSnapshot` that runs when the snapshot is news. -/
def acceptSnapshot (r : Raft) (sender : NodeId) (snapshot : Snapshot) : Raft :=
  let index := snapshot.lastIndex
  let log := r.log.installSnapshot snapshot
  let r := { r with
    log := log
    commit := max r.commit index
    applied := index
    hardStateDirty := true
    dirtyFrom := if log.lastIndex > index then some (index + 1) else none
    pending := { r.pending with entries := [], snapshot := some snapshot } }
  r.send sender (.snapshotResp true index)

def handleSnapshot (r : Raft) (sender : NodeId) (snapshot : Snapshot) : Raft :=
  let r := r.followLeader sender
  if snapshot.lastIndex ≤ r.commit then r.send sender (.snapshotResp true r.commit)
  else r.acceptSnapshot sender snapshot

/-- A follower's progress once a snapshot is no longer in flight to it. -/
def landedProgress (p : Progress) (success : Bool) (index : ℕ) : Progress :=
  let p := { p with
    active := true, state := .probe, pendingSnapshot := 0, pendingSnapshotAge := 0 }
  if success then { p with matched := max p.matched index, next := max p.matched index + 1 }
  else p

def handleSnapshotResp (r : Raft) (sender : NodeId) (success : Bool) (index : ℕ) : Raft :=
  if r.role ≠ .leader then r
  else
    match r.progress.get sender with
    | none => r
    | some p =>
      let r := r.setProgress sender (landedProgress p success index)
      if success then r.maybeAdvanceCommit else r

def handleHeartbeat (r : Raft) (sender : NodeId) (commit ctx : ℕ) : Raft :=
  let r := r.followLeader sender
  let r := r.raiseCommit (min commit r.log.lastIndex)
  r.send sender (.heartbeatResp ctx)

def handleHeartbeatResp (r : Raft) (sender : NodeId) (ctx : ℕ) : Raft :=
  if r.role ≠ .leader then r
  else
    let cfg := r.log.config
    let pendingReads := r.pendingReads.map fun read =>
      if read.ctx = ctx ∨ ctx = 0 then { read with acks := read.acks.insert sender } else read
    let confirmed := pendingReads.filter fun read =>
      decide (read.ctx = ctx ∨ ctx = 0) && cfg.hasQuorum read.acks
    let reads := confirmed.map fun read => ReadState.mk read.ctx read.index
    let r := { r with
      progress := r.progress.modify sender fun p => { p with active := true }
      pendingReads := pendingReads }
    if confirmed.isEmpty then r
    else
      let done : BTreeSet ℕ := .ofList (confirmed.map PendingRead.ctx)
      { r with
        pendingReads := r.pendingReads.filter fun read => !decide (read.ctx ∈ done)
        pending := { r.pending with reads := r.pending.reads ++ reads }
        quorumContactElapsed := 0 }

/-- A leader's heartbeat, when it is due. -/
def tickHeartbeat (r : Raft) : Raft :=
  if r.heartbeatElapsed ≥ r.opts.heartbeatTicks then
    { r with heartbeatElapsed := 0 }.broadcastAppend
  else r

/-- A leader's check that it still has a quorum, when it is due. -/
def tickQuorum (r : Raft) : Raft :=
  if r.electionElapsed ≥ r.opts.electionTicks then { r with electionElapsed := 0 }.checkQuorum
  else r

/-- Advance the logical clock by one tick. -/
def tick [Counting] (r : Raft) (rand : UInt64) : Raft :=
  let r := { r with rand := r.rand ^^^ rand, electionElapsed := r.electionElapsed + 1 }
  if r.role = .leader then
    let r := { r with
      heartbeatElapsed := r.heartbeatElapsed + 1
      quorumContactElapsed := r.quorumContactElapsed + 1 }
    r.tickHeartbeat.tickQuorum.expirePendingSnapshots
  else if r.promotable ∧ r.electionElapsed ≥ r.electionTimeout then r.startElection
  else r

/-- Propose a command: the index it will occupy, if this node leads. -/
def propose (r : Raft) (data : Bytes) : Option ℕ × Raft :=
  if r.role ≠ .leader then (none, r)
  else
    let index := r.log.lastIndex + 1
    let entry : Entry := { term := r.term, index := index, kind := .normal data }
    (some index, (r.appendToOwnLog [entry]).broadcastAppend)

/-- Whether a change does not fit the current configuration. -/
def misfit (current : Config) : ConfigChange → Bool
  | .enterJoint .. => current.isJoint
  | .leaveJoint => !current.isJoint

/-- Propose a configuration change, unless one is in flight already. -/
def proposeConfig (r : Raft) (change : ConfigChange) : Option ℕ × Raft :=
  if r.role ≠ .leader then (none, r)
  else if misfit r.log.config change then (none, r)
  else if (r.log.entriesFrom (r.commit + 1)).any Entry.isConfig then (none, r)
  else
    let index := r.log.lastIndex + 1
    let entry : Entry := { term := r.term, index := index, kind := .config change }
    (some index, (r.appendToOwnLog [entry]).resetProgressForConfig.broadcastAppend)

/-- Once the joint configuration is committed, propose to leave it. -/
def maybeFinishConfigChange (r : Raft) : Option ℕ × Raft :=
  if r.role ≠ .leader then (none, r)
  else if !r.log.config.isJoint then (none, r)
  else if !(r.log.slice (r.log.snapshotIndex + 1) (r.commit + 1)).any Entry.isEnterJoint then
    (none, r)
  else r.proposeConfig .leaveJoint

/-- Report what the durable log reaches, after a successful sync. -/
def setPersisted (r : Raft) (index : ℕ) : Raft :=
  { r with persisted := min index r.log.lastIndex }

def stepDown (r : Raft) : Raft :=
  if r.role = .leader then r.becomeFollower r.term none else r

/-- Never tell a follower to commit past what it is known to share. -/
def sendHeartbeat (ctx : ℕ) (r : Raft) (peer : NodeId) : Raft :=
  if peer ≠ r.id then
    let matched := ((r.progress.get peer).map Progress.matched).getD 0
    r.send peer (.heartbeatReq (min r.commit matched) ctx)
  else r

def readIndex (r : Raft) : Option ℕ × Raft :=
  if r.role ≠ .leader then (none, r)
  else if !r.committedOwnTerm then (none, r)
  else
    let ctx := r.readCtx + 1
    let r := { r with readCtx := ctx }
    let cfg := r.log.config
    if cfg.hasQuorum (.ofList [r.id]) then
      (some ctx, { r with pending := { r.pending with
        reads := r.pending.reads ++ [{ ctx := ctx, index := r.commit }] } })
    else
      let read : PendingRead := { ctx := ctx, index := r.commit, acks := .ofList [r.id] }
      let r := { r with pendingReads := r.pendingReads ++ [read] }
      (some ctx, cfg.allNodes.toList.foldl (sendHeartbeat ctx) r)

/-- Hand leadership to `target` by telling it to campaign immediately. -/
def transferLeadership (r : Raft) (target : NodeId) : Bool × Raft :=
  if r.role ≠ .leader ∨ target = r.id then (false, r)
  else if !r.log.config.isVoter target then (false, r)
  else (true, r.send target .timeoutNow)

/-- The leader a message of a later term announces. -/
def announcedLeader (sender : NodeId) : Body → Option NodeId
  | .voteReq .. => none
  | .voteResp .. => none
  | _ => some sender

def answerStale (r : Raft) (sender : NodeId) : Body → Raft
  | .appendReq .. => r.send sender (.appendResp false 0 0 0)
  | .heartbeatReq .. => r.send sender (.appendResp false 0 0 0)
  | .preVoteReq .. => r.send sender (.preVoteResp false)
  | _ => r

def dispatch [Counting] (r : Raft) (sender : NodeId) (msg : Message) : Raft :=
  match msg.body with
  | .preVoteReq lastIndex lastTerm => r.handlePreVoteReq sender msg.term lastIndex lastTerm
  | .preVoteResp granted => r.handlePreVoteResp sender msg.term granted
  | .voteReq lastIndex lastTerm => r.handleVoteReq sender lastIndex lastTerm
  | .voteResp granted => r.handleVoteResp sender granted
  | .appendReq prevIndex prevTerm entries commit =>
    r.handleAppend sender prevIndex prevTerm entries commit
  | .appendResp success matchIndex conflictIndex conflictTerm =>
    r.handleAppendResp sender success matchIndex conflictIndex conflictTerm
  | .snapshotReq snapshot => r.handleSnapshot sender snapshot
  | .snapshotResp success index => r.handleSnapshotResp sender success index
  | .heartbeatReq commit ctx => r.handleHeartbeat sender commit ctx
  | .heartbeatResp ctx => r.handleHeartbeatResp sender ctx
  | .timeoutNow => if r.promotable then r.campaign false else r

/-- Feed in a message from a peer: the term rule first, then its handler. -/
def step [Counting] (r : Raft) (sender : NodeId) (msg : Message) : Raft :=
  let r := if msg.term > r.term ∧ !msg.isPreVote then
      r.becomeFollower msg.term (announcedLeader sender msg.body)
    else r
  if msg.term < r.term then r.answerStale sender msg.body
  else r.dispatch sender msg

/-- Collect everything the driver must do. -/
def ready (r : Raft) : Ready × Raft :=
  let dirtyFrom := r.dirtyFrom.map fun start => max start r.log.firstIndex
  let entries := match dirtyFrom with
    | some start => r.log.entriesFrom start
    | none => r.pending.entries
  let mustPersist := decide (r.term ≠ r.persistedHardState.term) ||
    decide (r.vote ≠ r.persistedHardState.vote)
  let hardState := if r.hardStateDirty && mustPersist then some r.hardState
    else r.pending.hardState
  let commit := min r.commit r.log.lastIndex
  let committed := if commit > r.applied then r.log.slice (r.applied + 1) (commit + 1)
    else r.pending.committed
  ({ r.pending with hardState := hardState, entries := entries, committed := committed },
    { r with
      pending := .default
      dirtyFrom := dirtyFrom
      hardStateDirty := false
      commit := commit
      persisted := min r.persisted r.log.lastIndex })

/-- Acknowledge that a `Ready` has been fully processed. -/
def advance (r : Raft) (ready : Ready) : Raft :=
  let r := { r with
    persistedHardState := ready.hardState.getD r.persistedHardState
    progress := r.progress.modify r.id fun p =>
      { p with matched := r.persisted, next := r.persisted + 1 } }
  let r := if r.role = .leader then r.maybeAdvanceCommit else r
  { r with
    applied := (ready.committed.getLast?.map Entry.index).getD r.applied
    dirtyFrom := none }

/-- The index the driver must truncate the durable log to before appending. -/
def truncateTo (r : Raft) : Option ℕ := r.dirtyFrom

/-- A snapshot boundary at the applied index, with the image the caller supplies. -/
def snapshotAtApplied (r : Raft) (data : Bytes) : Option Snapshot :=
  (r.log.termAt r.applied).map fun term =>
    { lastIndex := r.applied, lastTerm := term, config := r.log.config, data := data }

/-- Discard log entries the snapshot covers. -/
def compact (r : Raft) (snap : Snapshot) : Raft :=
  { r with log := r.log.compactThrough snap.lastIndex snap.lastTerm snap.config }

/-- Ship a snapshot to a follower that has fallen off the back of the log. -/
def sendSnapshot (r : Raft) (peer : NodeId) (snapshot : Snapshot) : Raft :=
  let r := { r with progress := r.progress.modify peer fun p =>
      { p with
        pendingSnapshot := snapshot.lastIndex, pendingSnapshotAge := 0, state := .snapshot } }
  r.send peer (.snapshotReq snapshot)

end Raft

end ChronoScope.Chronolog
