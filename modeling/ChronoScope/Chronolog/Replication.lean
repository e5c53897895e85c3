import ChronoScope.Chronolog.Safety

/-!
# What a leader knows about its followers

A leader counts a follower towards an index only after the follower said so, and
a follower says so only after a cycle made it durable. Between cycles the memory
of a follower may run ahead of its disk, so the acknowledgements that have left a
node are kept apart from those it has merely decided to give: `told` holds the
former, and what was told is on the disk of the node that told it as long as no
later leader has overruled it.

The commit index in a heartbeat is capped by what its receiver is known to match.
It is certified, so sender and receiver keep sharing what it names for good.
-/

namespace ChronoScope.Chronolog

open Consensus (State Rules Invariant Steps)

variable {σ : Type}

variable {index : ℕ}

namespace Durable

def log (disk : Durable) : Log := .restore disk.snapshot disk.entries

/-- The disk has the entry in its log, or its snapshot covers it. -/
def Holds (machine : StateMachine σ) (disk : Durable) (index : ℕ) (entry : Entry) : Prop :=
  disk.log.get index = some entry ∨
    ∃ snap, disk.snapshot = some snap ∧ index ≤ snap.lastIndex ∧
      ∃ entries, snap.Covers machine entries ∧ entries[index - 1]? = some entry

structure StandsFor (machine : StateMachine σ) (disk : Durable) (full : List Entry) : Prop where
  log : disk.log.Represents full
  snapshot : ∀ snap, disk.snapshot = some snap → snap.Covers machine (full.take snap.lastIndex)

theorem StandsFor.holds {machine : StateMachine σ} {disk : Durable} {full : List Entry}
    (stands : disk.StandsFor machine full) {entry : Entry} (positive : 0 < index)
    (present : full[index - 1]? = some entry) : disk.Holds machine index entry := by
  rcases Nat.lt_or_ge disk.log.snapshotIndex index with above | compacted
  · exact Or.inl ((stands.log.get above).trans present)
  · right
    cases found : disk.snapshot with
    | none =>
      simp only [Durable.log, found, Log.restore, Log.new] at compacted
      omega
    | some snap =>
      have covered : index ≤ snap.lastIndex := by
        simpa only [Durable.log, found, Log.restore] using compacted
      refine ⟨snap, rfl, covered, _, stands.snapshot snap found, ?_⟩
      rwa [List.getElem?_take_of_lt (by omega)]

end Durable

variable {receiver : NodeId} {term : ℕ}

section

variable {machine : StateMachine σ} {charter : Charter} {state : State NodeId Entry}
  {disk : Durable} {image : σ} {r r' : Raft}

theorem Tracks.standsFor (tracks : Tracks machine charter state disk image r)
    (settled : Settled disk r) : disk.StandsFor machine (state.log r.id) := by
  have entriesAre := tracks.entries_eq settled
  have latest := settled.latestSnapshot_eq
  constructor
  · cases found : disk.snapshot with
    | none =>
      have base := tracks.uncompacted (latest.trans found)
      have whole := tracks.log.entries
      rw [base] at whole
      simp only [Durable.log, found, entriesAre]
      exact ⟨tracks.log.indexed, Nat.zero_le _, whole, rfl⟩
    | some snap =>
      have described := tracks.snapshot snap (latest.trans found)
      have bound := tracks.log.bound
      have whole := tracks.log.entries
      have known := tracks.log.snapshotTerm
      rw [← described.lastIndex] at bound whole known
      rw [← described.lastTerm] at known
      simp only [Durable.log, found, entriesAre]
      exact ⟨tracks.log.indexed, bound, whole, known⟩
  · intro snap found
    have described := tracks.snapshot snap (latest.trans found)
    have bound := tracks.log.bound
    have known := tracks.log.snapshotTerm
    rw [← described.lastIndex] at bound known
    refine ⟨?_, ?_, described.data⟩
    · rw [List.length_take, min_eq_left bound]
    · rw [Consensus.termAt_take le_rfl, known, described.lastTerm]

/-- The acknowledgement a message carries is among those told. -/
def Tells (told : Set (ℕ × NodeId × ℕ)) (sender : NodeId) (msg : Message) : Prop :=
  match msg.body with
  | .appendResp success matchIndex _ _ => success = true → (msg.term, sender, matchIndex) ∈ told
  | .snapshotResp success index => success = true → (msg.term, sender, index) ∈ told
  | _ => True

/-- What a leader with this term and last index believes about a peer is backed. -/
structure Backs (told : Set (ℕ × NodeId × ℕ)) (term lastIndex : ℕ) (peer : NodeId)
    (p : Progress) : Prop where
  matched : p.matched = 0 ∨ (term, peer, p.matched) ∈ told
  ahead : p.matched < p.next
  inside : p.next ≤ lastIndex + 1

/-- Everything a leader believes about its peers is backed. -/
def Knows (told : Set (ℕ × NodeId × ℕ)) (r : Raft) : Prop :=
  r.role = .leader → ∀ peer p, r.progress.get peer = some p → peer ≠ r.id →
    Backs told r.term r.log.lastIndex peer p

variable {msg : Message} {peer sender : NodeId} {p : Progress} {more : Set (ℕ × NodeId × ℕ)}

variable {told : Set (ℕ × NodeId × ℕ)}

theorem Tells.mono (subset : told ⊆ more) (tells : Tells told sender msg) :
    Tells more sender msg := by
  rcases msg with ⟨term, body⟩
  cases body with
  | appendResp | snapshotResp => exact fun success => subset (tells success)
  | _ => trivial

theorem Tells.of_faithful (faithful : Faithful machine charter state sender receiver msg)
    (tellsAll : ∀ ack ∈ state.acks, ack.2.1 = sender → ack ∈ told) : Tells told sender msg := by
  rcases msg with ⟨term, body⟩
  cases body with
  | appendResp | snapshotResp => exact fun success => tellsAll _ (faithful success) rfl
  | _ => trivial

variable {lastIndex : ℕ}

theorem Backs.mono (subset : told ⊆ more) {longer : ℕ} (grown : lastIndex ≤ longer)
    (backs : Backs told term lastIndex peer p) : Backs more term longer peer p where
  matched := backs.matched.imp_right fun acked => subset acked
  ahead := backs.ahead
  inside := backs.inside.trans (by omega)

theorem Backs.of_reach {q : Progress} (backs : Backs told term lastIndex peer p)
    (same : q.reach = p.reach) : Backs told term lastIndex peer q := by
  rcases Prod.mk.inj same with ⟨sameMatched, sameNext⟩
  constructor
  · rw [sameMatched]
    exact backs.matched
  · rw [sameMatched, sameNext]
    exact backs.ahead
  · rw [sameNext]
    exact backs.inside

theorem Backs.of_told (acked : (term, peer, index) ∈ told) (bound : index ≤ lastIndex)
    (matchedIs : p.matched = index) (nextIs : p.next = index + 1) :
    Backs told term lastIndex peer p where
  matched := Or.inr (matchedIs ▸ acked)
  ahead := by omega
  inside := by omega

theorem Backs.accepted {matchIndex : ℕ} (backs : Backs told term lastIndex peer p)
    (acked : (term, peer, matchIndex) ∈ told) (bound : matchIndex ≤ lastIndex) :
    Backs told term lastIndex peer (Raft.acceptedProgress p matchIndex) := by
  unfold Raft.acceptedProgress
  simp only
  split_ifs
  · exact .of_told acked bound rfl rfl
  · exact backs.of_reach rfl

theorem Backs.landed {success : Bool} (backs : Backs told term lastIndex peer p)
    (acked : success = true → (term, peer, index) ∈ told ∧ index ≤ lastIndex) :
    Backs told term lastIndex peer (Raft.landedProgress p success index) := by
  cases success with
  | false => exact backs.of_reach rfl
  | true =>
    rcases Nat.le_total index p.matched with older | newer
    · have kept : max p.matched index = p.matched := max_eq_left older
      have := backs.ahead
      have := backs.inside
      constructor
      · change max p.matched index = 0 ∨ (term, peer, max p.matched index) ∈ told
        rw [kept]
        exact backs.matched
      · exact Nat.lt_succ_self _
      · change max p.matched index + 1 ≤ lastIndex + 1
        omega
    · rcases acked rfl with ⟨ack, bound⟩
      have raised : max p.matched index = index := max_eq_right newer
      exact .of_told ack bound raised (congrArg (· + 1) raised)

theorem Backs.rejected (backs : Backs told r.term r.log.lastIndex peer p)
    (conflictIndex conflictTerm : ℕ) :
    Backs told r.term r.log.lastIndex peer (r.rejectedProgress p conflictIndex conflictTerm) where
  matched := backs.matched
  ahead := by
    have ahead := backs.ahead
    have inside := backs.inside
    have sameMatched : (r.rejectedProgress p conflictIndex conflictTerm).matched = p.matched := rfl
    rw [sameMatched]
    exact lt_min ((Nat.lt_succ_self _).trans_le (le_max_right _ _)) (by omega)
  inside := min_le_right _ _

theorem Log.lastIndex_append_singleton (log : Log) (entry : Entry) :
    (log.append [entry]).lastIndex = entry.index := by
  simp [Log.append, Log.lastIndex]

theorem Knows.of_eq (knows : Knows told r) (sameRole : r'.role = .leader → r.role = .leader)
    (sameId : r'.id = r.id) (sameTerm : r'.term = r.term)
    (grown : r.log.lastIndex ≤ r'.log.lastIndex)
    (sameReach : ∀ peer, peer ≠ r.id →
    (r'.progress.get peer).map Progress.reach = (r.progress.get peer).map Progress.reach) :
    Knows told r' := by
  intro leads peer p found other
  rw [sameId] at other
  have reachIs := sameReach peer other
  rw [found, eq_comm] at reachIs
  rcases Option.map_eq_some_iff.mp reachIs with ⟨old, wasOld, same⟩
  rw [sameTerm]
  exact ((knows (sameRole leads) peer old wasOld other).of_reach same.symm).mono subset_rfl grown

theorem Knows.mono (subset : told ⊆ more) (knows : Knows told r) : Knows more r :=
  fun leads peer p found other => (knows leads peer p found other).mono subset le_rfl

theorem Knows.setProgress (knows : Knows told r) {new : Progress}
    (backs : sender ≠ r.id → Backs told r.term r.log.lastIndex sender new) :
    Knows told (r.setProgress sender new) := by
  intro leads peer p found other
  simp only [Raft.setProgress, BTreeMap.get_modify] at found
  split_ifs at found with same
  · subst same
    rcases Option.map_eq_some_iff.mp found with ⟨_, _, rfl⟩
    exact backs other
  · exact knows leads peer p found other

theorem Knows.maybeAdvanceCommit (knows : Knows told r) : Knows told r.maybeAdvanceCommit := by
  obtain ⟨_, _, _, _, advanced⟩ := maybeAdvanceCommit_eq r
  rw [advanced]
  exact knows

variable {heard : Option (NodeId × Message)}

theorem Knows.move (knows : Knows told r) (tracks : Tracks machine charter state disk image r)
    (inv : Invariant charter.rules state) (acked : told ⊆ state.acks)
    (tells : ∀ sender msg, heard = some (sender, msg) → Tells told sender msg)
    (move : Raft.Move heard r r') : Knows told r' := by
  have bound : r.role = .leader → ∀ peer index, (r.term, peer, index) ∈ told →
      index ≤ r.log.lastIndex := by
    intro leads peer index isTold
    rw [tracks.log.lastIndex, ← (tracks.leads inv leads).2]
    exact (inv.acked (acked isTold)).2.2.1
  cases move with
  | follow term leader =>
    intro leads
    rw [becomeFollower_role] at leads
    cases leads
  | poll | quit | stand => exact fun leads => nomatch leads
  | openTerm candidacy =>
    intro _ peer p found other
    have fresh : p = .new (r.log.lastIndex + 1) :=
      resetProgress_fresh (tracks.unled (by simp [candidacy])) found other
    have grown : r.openTerm.log.lastIndex = r.log.lastIndex + 1 :=
      Log.lastIndex_append_singleton _ _
    rw [fresh, grown]
    exact { matched := Or.inl rfl, ahead := Nat.succ_pos _, inside := Nat.le_succ _ }
  | append data leads =>
    refine knows.of_eq id rfl rfl ?_ fun _ _ => rfl
    have grown : (r.appendToOwnLog [⟨r.term, r.log.lastIndex + 1, .normal data⟩]).log.lastIndex =
        r.log.lastIndex + 1 := Log.lastIndex_append_singleton _ _
    omega
  | decide leads => exact knows.maybeAdvanceCommit
  | @accept sender prevIndex prevTerm commit entries asked follows =>
    obtain ⟨_, accepted⟩ := acceptAppend_eq r sender prevIndex entries commit
    rw [accepted]
    exact fun leads => nomatch follows.symm.trans leads
  | @raise _ commit ctx asked follows =>
    obtain ⟨_, raised⟩ := raiseCommit_eq r (min commit r.log.lastIndex)
    rw [raised]
    exact fun leads => nomatch follows.symm.trans leads
  | install asked follows => exact fun leads => nomatch follows.symm.trans leads
  | touch leads same => exact knows.of_eq id rfl rfl le_rfl fun peer _ => same peer
  | accepted leads asked found =>
    apply knows.setProgress
    intro other
    have isTold := tells _ _ asked rfl
    exact (knows leads _ _ found other).accepted isTold (bound leads _ _ isTold)
  | rejected leads asked found =>
    apply knows.setProgress
    exact fun other => (knows leads _ _ found other).rejected _ _
  | landed leads asked found =>
    apply knows.setProgress
    intro other
    apply (knows leads _ _ found other).landed
    intro success
    have isTold := tells _ _ asked success
    exact ⟨isTold, bound leads _ _ isTold⟩
  | _ => exact knows

/-- A heartbeat names nothing its sender has lost. -/
def Remembers (state : State NodeId Entry) (sender : NodeId) (msg : Message) : Prop :=
  match msg.body with
  | .heartbeatReq commit _ => msg.term ≤ state.term sender ∧
      (state.leaderLog msg.term).take commit <+: state.log sender
  | _ => True

variable {after : State NodeId Entry}

theorem Remembers.mono {node : NodeId} (remembers : Remembers state sender msg)
    (faithful : Faithful machine charter state sender receiver msg)
    (steps : Steps charter.rules node state after) (inv : Invariant charter.rules state) :
    Remembers after sender msg := by
  rcases msg with ⟨term, body⟩
  cases body with
  | heartbeatReq commit ctx =>
    rcases faithful with ⟨led, bound, certified, _⟩
    rcases remembers with ⟨notLater, held⟩
    refine ⟨notLater.trans (steps.term_le sender), ?_⟩
    simp only [(steps.grows inv).take_leaderLog led bound]
    exact steps.isPrefix_of_certified inv certified notLater held
  | _ => trivial

theorem Remembers.move
    (remembers : ∀ peer msg, (peer, msg) ∈ r.pending.messages → Remembers state r.id msg)
    (tracks : Tracks machine charter state disk image r) (inv : Invariant charter.rules state)
    (steps : Steps charter.rules r.id state after) (move : Raft.Move heard r r') :
    ∀ peer msg, (peer, msg) ∈ r'.pending.messages → Remembers after r'.id msg := by
  intro peer msg waits
  rw [move.id_eq]
  rcases move.posted waits with earlier | sends | ⟨_, grants⟩
  · exact (remembers peer msg earlier).mono (tracks.messages peer msg earlier) steps inv
  · cases sends with
    | heartbeat leads other =>
      refine Remembers.mono ?_ (tracks.faithful_heartbeat inv leads other) steps inv
      refine ⟨tracks.term.ge, ?_⟩
      simp only [(tracks.leads inv leads).2]
      exact List.take_prefix _ _
    | _ => trivial
  · rcases msg with ⟨term, body⟩
    cases grants <;> trivial

theorem Knows.cycle {node : Node σ} (knows : Knows told node.raft) :
    Knows told (node.cycle machine).raft := by
  have noted : Knows told node.noted := by
    refine Knows.of_eq knows id rfl rfl le_rfl ?_
    intro peer other
    have same : node.noted.progress.get peer = node.raft.progress.get peer := by
      simp only [Node.noted, noteReady, Raft.setPersisted, Raft.ready, BTreeMap.get_modify,
        if_neg other]
    rw [same]
  rcases cycle_raft machine node with same | ⟨_, advanced⟩
  · rwa [same]
  · rw [advanced]
    exact noted.maybeAdvanceCommit

theorem Knows.becomeFollower (told : Set (ℕ × NodeId × ℕ)) (term : ℕ) (leader : Option NodeId) :
    Knows told (r.becomeFollower term leader) := by
  intro leads
  rw [becomeFollower_role] at leads
  cases leads

end

/-- What has been told in a cluster so far, and what follows from it. -/
structure Announced (setup : Setup σ) (cluster : Cluster σ) (state : State NodeId Entry)
    (told : Set (ℕ × NodeId × ℕ)) : Prop where
  acked : told ⊆ state.acks
  knows : ∀ id, Knows told (cluster.node id).raft
  tells : ∀ sent ∈ cluster.network, Tells told sent.sender sent.msg
  remembers : ∀ sent ∈ cluster.network, Remembers state sent.sender sent.msg
  waiting : ∀ id peer msg, (peer, msg) ∈ (cluster.node id).raft.pending.messages →
    Remembers state id msg
  durable : ∀ id, ∃ full, (cluster.node id).disk.StandsFor setup.machine full ∧
    ∀ term index, (term, id, index) ∈ told → ∀ below ≤ index,
      state.Kept term below full (state.term id + 1)

namespace Announced

variable {setup : Setup σ} {cluster next : Cluster σ} {state after : State NodeId Entry}
  {told : Set (ℕ × NodeId × ℕ)}

theorem initial (setup : Setup σ) :
    Announced setup setup.initial (State.initial NodeId Entry) ∅ where
  acked := Set.empty_subset _
  knows _ leads := nomatch leads
  tells _ sent := nomatch sent
  remembers _ sent := nomatch sent
  waiting _ _ _ waits := nomatch waits
  durable id := by
    refine ⟨[], ⟨?_, fun snap found => nomatch found⟩, fun _ _ isTold => nomatch isTold⟩
    exact ⟨fun _ _ present => (nomatch present), le_rfl, rfl, rfl⟩

section

variable (announced : Announced setup cluster state told)
  (simulates : Simulates setup .fixed cluster state)

include announced simulates

theorem kept {node id : NodeId} (steps : Steps (setup.charter .fixed).rules node state after)
    {full : List Entry}
    (keeps : ∀ term index, (term, id, index) ∈ told →
      ∀ below ≤ index, state.Kept term below full (state.term id + 1)) :
    ∀ term index, (term, id, index) ∈ told → ∀ below ≤ index,
      after.Kept term below full (after.term id + 1) := by
  intro term index isTold below isBelow
  rcases simulates.inv.acked (announced.acked isTold) with ⟨led, _, reach, _⟩
  exact (steps.grows simulates.inv).kept simulates.inv led (isBelow.trans reach)
    (Nat.succ_le_succ (steps.term_le id)) (keeps term index isTold below isBelow)

theorem input {id : NodeId} {input : Input}
    (delivered : Setup.deliverable cluster id input = true) :
    ∃ after, Simulates setup .fixed (Setup.place cluster id { cluster.node id with
        raft := Node.feed (cluster.node id).raft input, busy := true }) after ∧
      Announced setup (Setup.place cluster id { cluster.node id with
        raft := Node.feed (cluster.node id).raft input, busy := true }) after told := by
  have tells : ∀ sender msg, input.heard = some (sender, msg) → Tells told sender msg := by
    intro sender msg isHeard
    cases input with
    | message =>
      cases isHeard
      exact announced.tells _ (by simpa [Setup.deliverable] using delivered)
    | _ => cases isHeard
  have start : ∀ peer msg, (peer, msg) ∈ (cluster.node id).raft.pending.messages →
      Remembers state (cluster.node id).raft.id msg := by
    simpa only [simulates.id id] using announced.waiting id
  obtain ⟨after, steps, simulates', acked, knows, waiting⟩ :=
    simulates.input (P := fun s r => told ⊆ s.acks ∧ Knows told r ∧
      ∀ peer msg, (peer, msg) ∈ r.pending.messages → Remembers s r.id msg) delivered
      ⟨announced.acked, announced.knows id, start⟩ (by
        rintro before after q q' inv tracks steps _ _ _ move ⟨acked, knows, waiting⟩
        exact ⟨acked.trans (steps.grows inv).acks, knows.move tracks inv acked tells move,
          Remembers.move waiting tracks inv steps move⟩)
  refine ⟨after, simulates', acked, ?_, announced.tells, ?_, ?_, ?_⟩
  · intro other
    by_cases same : other = id
    · subst same
      simpa [Setup.place] using knows
    · simpa [Setup.place, same] using announced.knows other
  · intro sent known
    exact (announced.remembers sent known).mono (simulates.network sent known) steps
      simulates.inv
  · intro other peer msg waits
    by_cases same : other = id
    · subst same
      simp only [Setup.place, Function.update_self] at waits
      have sameId := simulates'.id other
      simp only [Setup.place, Function.update_self] at sameId
      simpa only [sameId] using waiting peer msg waits
    · simp only [Setup.place, Function.update_of_ne same] at waits
      have faithful := (simulates.tracks other).messages peer msg waits
      rw [simulates.id other] at faithful
      exact (announced.waiting other peer msg waits).mono faithful steps simulates.inv
  · intro other
    rcases announced.durable other with ⟨full, stands, keeps⟩
    refine ⟨full, ?_, announced.kept simulates steps keeps⟩
    by_cases same : other = id
    · subst same
      simpa [Setup.place] using stands
    · simpa [Setup.place, same] using stands

theorem event {action : Action} (event : setup.Event cluster action next)
    (notInput : ∀ input, action ≠ .input action.actor input)
    (settles : (next.node action.actor).busy = false)
    (knows : Knows told (next.node action.actor).raft) :
    ∃ after told', Simulates setup .fixed next after ∧ Announced setup next after told' := by
  rcases simulates.event event (Or.inl rfl) with ⟨after, steps, simulates'⟩
  have grows := steps.grows simulates.inv
  let told' := told ∪ {ack | ack ∈ after.acks ∧ ack.2.1 = action.actor}
  have more : told ⊆ told' := Set.subset_union_left
  have waitingFaithful : ∀ id peer msg,
      (peer, msg) ∈ (cluster.node id).raft.pending.messages →
      Faithful setup.machine (setup.charter .fixed) state id peer msg := by
    intro id peer msg posted
    simpa only [simulates.id id] using (simulates.tracks id).messages peer msg posted
  have remembered : ∀ id peer msg, (peer, msg) ∈ (cluster.node id).raft.pending.messages →
      Remembers after id msg := fun id peer msg posted =>
    (announced.waiting id peer msg posted).mono (waitingFaithful id peer msg posted) steps
      simulates.inv
  have acked : told' ⊆ after.acks :=
    Set.union_subset (announced.acked.trans grows.acks) fun _ ack => ack.1
  refine ⟨after, told', simulates', acked, ?_, ?_, ?_, ?_, ?_⟩
  · intro id
    by_cases mine : id = action.actor
    · rw [mine]
      exact knows.mono more
    · rw [event.node_eq mine]
      exact (announced.knows id).mono more
  · intro envelope known
    rcases event.network known with earlier | ⟨fromActor, posted⟩
    · exact (announced.tells envelope earlier).mono more
    · rw [fromActor]
      apply Tells.of_faithful (waitingFaithful _ _ _ posted)
      exact fun ack isAck ofSender => Or.inr ⟨grows.acks isAck, ofSender⟩
  · intro envelope known
    rcases event.network known with earlier | ⟨fromActor, posted⟩
    · exact (announced.remembers envelope earlier).mono (simulates.network envelope earlier) steps
        simulates.inv
    · rw [fromActor]
      exact remembered _ _ _ posted
  · intro id peer msg posted
    by_cases mine : id = action.actor
    · subst mine
      rcases event.waits notInput posted with earlier | ⟨snap, isSnapshot⟩
      · exact remembered _ _ _ earlier
      · rcases msg with ⟨term, body⟩
        cases isSnapshot
        trivial
    · rw [event.node_eq mine] at posted
      exact remembered id peer msg posted
  · intro id
    by_cases mine : id = action.actor
    · subst mine
      have stands := (simulates'.tracks action.actor).standsFor (simulates'.settled rfl _ settles)
      rw [simulates'.id action.actor] at stands
      refine ⟨_, stands, fun term index isTold => ?_⟩
      exact (simulates'.inv.acked (acked isTold)).2.2.2
    · rcases announced.durable id with ⟨full, stands, keeps⟩
      rw [event.node_eq mine]
      refine ⟨full, stands, fun term index isTold => ?_⟩
      rcases isTold with earlier | ⟨_, fromActor⟩
      · exact announced.kept simulates steps keeps term index earlier
      · exact absurd fromActor mine

theorem step (step : setup.Step cluster next) :
    ∃ after told', Simulates setup .fixed next after ∧ Announced setup next after told' := by
  rcases step with ⟨action, acted⟩
  have event := setup.event_of_act acted
  cases event with
  | input delivered =>
    rcases announced.input simulates delivered with ⟨after, simulates', announced'⟩
    exact ⟨after, told, simulates', announced'⟩
  | cycle id =>
    refine announced.event simulates (.cycle id) (by simp) ?_ ?_
    · simp [Action.actor, Setup.place, Node.cycle]
    · simpa [Action.actor, Setup.place] using (announced.knows id).cycle
  | @compact id node idle done =>
    rcases (simulates.tracks id).compact rfl simulates.inv
      (simulates.settled rfl id idle) done with
      ⟨_, sameId, compacted⟩
    have sameLast : node.raft.log.lastIndex = (cluster.node id).raft.log.lastIndex := by
      rw [compacted.log.lastIndex, (simulates.tracks id).log.lastIndex, sameId]
    refine announced.event simulates (.compact idle done) (by simp) ?_ ?_
    all_goals
      rcases Option.map_eq_some_iff.mp done with ⟨snap, _, rfl⟩
      simp only [Action.actor, Setup.place, Function.update_self]
    · exact idle
    · exact (announced.knows id).of_eq (fun leads => leads) rfl rfl sameLast.ge fun _ _ => rfl
  | @ship id peer node idle done =>
    refine announced.event simulates (.ship idle done) (by simp) ?_ ?_
    all_goals
      unfold Node.ship at done
      split_ifs at done
      rcases Option.map_eq_some_iff.mp done with ⟨snap, _, rfl⟩
      simp only [Action.actor, Setup.place, Function.update_self]
    · exact idle
    · refine (announced.knows id).of_eq (fun leads => leads) rfl rfl le_rfl fun other _ => ?_
      apply BTreeMap.reach_modify
      exact fun _ => rfl
  | @stepDown id idle =>
    refine announced.event simulates (.stepDown idle) (by simp) ?_ ?_
    all_goals simp only [Action.actor, Setup.place, Function.update_self]
    · exact idle
    · rcases stepDown_cases (cluster.node id).raft with same | ⟨_, stoodDown⟩
      · rw [same]
        exact announced.knows id
      · rw [stoodDown]
        exact .becomeFollower _ _ _
  | @restart id idle =>
    refine announced.event simulates (.restart idle) (by simp) ?_ ?_
    all_goals simp only [Action.actor, Setup.place, Function.update_self]
    · rfl
    · exact fun leads => by cases leads

end

theorem run {first last : Cluster σ} (announced : Announced setup first state told)
    (simulates : Simulates setup .fixed first state) (reached : setup.Reaches first last) :
    ∃ after told', Simulates setup .fixed last after ∧ Announced setup last after told' := by
  induction reached with
  | refl => exact ⟨state, told, simulates, announced⟩
  | tail _ stepped ih =>
    rcases ih with ⟨between, told', simulates', announced'⟩
    exact announced'.step simulates' stepped

/-- What a leader counts a peer for is on the disk of that peer, unless the peer has gone on to a
later term. -/
theorem durable_of_matched (announced : Announced setup cluster state told)
    (simulates : Simulates setup .fixed cluster state) {leader peer : NodeId} {p : Progress}
    (leads : (cluster.node leader).raft.role = .leader)
    (backs : Backs told (cluster.node leader).raft.term (cluster.node leader).raft.log.lastIndex
      peer p)
    (notLater : (cluster.node peer).raft.term ≤ (cluster.node leader).raft.term) :
    ∃ full, (cluster.node peer).disk.StandsFor setup.machine full ∧
      (state.log leader).take p.matched <+: full := by
  rcases announced.durable peer with ⟨full, stands, keeps⟩
  refine ⟨full, stands, ?_⟩
  rcases backs.matched with none | acked
  · simp [none]
  rw [← (simulates.leads leads).2]
  rcases keeps _ _ acked p.matched le_rfl with held | ⟨later, isLater, bound, _⟩
  · exact held
  · have sameTerm := simulates.term_eq peer
    omega

theorem receiver_shares (simulates : Simulates setup .fixed cluster state) {sender : NodeId}
    {commit ctx : ℕ} (positive : 0 < commit)
    (faithful : Faithful setup.machine
    (setup.charter .fixed) state sender receiver ⟨term, .heartbeatReq commit ctx⟩) :
    (state.leaderLog term).take commit <+: state.log receiver := by
  have inv := simulates.inv
  rcases faithful with ⟨_, _, certified, none | ⟨reach, covered, acked⟩⟩
  · omega
  rcases (inv.acked acked).2.2.2 commit covered with held | ⟨later, isLater, _, led, lacks⟩
  · exact held
  · exact absurd (inv.prefix_leaderLog_of_certified (certified.mono isLater.le) led) lacks

end Announced

/-- Leader progress is truthful: what a leader counts a peer for stays inside its own log and on
the disk of that peer, as long as the peer is not in a later term; and the commit index of every
heartbeat names an entry that sender and receiver share. -/
theorem progress_truthful (setup : Setup σ) {cluster : Cluster σ}
    (reached : setup.Reaches setup.initial cluster) :
    (∀ leader peer p, (cluster.node leader).raft.role = .leader → peer ≠ leader →
      (cluster.node leader).raft.progress.get peer = some p →
      p.matched < p.next ∧ p.next ≤ (cluster.node leader).raft.log.lastIndex + 1 ∧
        ((cluster.node peer).raft.term ≤ (cluster.node leader).raft.term →
          p.matched ≤ (cluster.node peer).disk.log.lastIndex ∧
          ∀ index ≤ p.matched, ∀ entry, (cluster.node leader).raft.log.get index = some entry →
            (cluster.node peer).disk.Holds setup.machine index entry)) ∧
      ∀ sent ∈ cluster.network, ∀ commit ctx, sent.msg.body = .heartbeatReq commit ctx →
        0 < commit → ∃ entry, Holds setup.machine (cluster.node sent.receiver) commit entry ∧
          Holds setup.machine (cluster.node sent.sender) commit entry := by
  rcases (Announced.initial setup).run (.initial setup .fixed) reached with
    ⟨state, told, simulates, announced⟩
  constructor
  · intro leader peer p leads other found
    have backs := announced.knows leader leads peer p found (by rwa [simulates.id leader])
    refine ⟨backs.ahead, backs.inside, fun notLater => ?_⟩
    rcases announced.durable_of_matched simulates leads backs notLater with ⟨full, stands, shared⟩
    have represents := (simulates.tracks leader).log
    rw [simulates.id leader] at represents
    have ahead := backs.ahead
    have inside := backs.inside
    have lastIs := represents.lastIndex
    constructor
    · have shorter := shared.length_le
      rw [List.length_take] at shorter
      rw [stands.log.lastIndex]
      omega
    · intro index counted entry present
      have above := Log.Represents.lt_of_get present
      have listed := (represents.get above).symm.trans present
      refine stands.holds (by omega) (Consensus.getElem?_of_isPrefix shared ?_)
      rwa [List.getElem?_take_of_lt (by omega)]
  · rintro ⟨sender, receiver, ⟨term, body⟩⟩ known commit ctx isHeartbeat positive
    cases isHeartbeat
    have faithful := simulates.network _ known
    have shared := Announced.receiver_shares simulates positive faithful
    have bound : commit ≤ (state.leaderLog term).length := faithful.2.1
    have present : commit - 1 < ((state.leaderLog term).take commit).length := by
      rw [List.length_take]
      omega
    have named := List.getElem?_eq_getElem present
    exact ⟨_, simulates.held positive (Consensus.getElem?_of_isPrefix shared named),
      simulates.held positive
        (Consensus.getElem?_of_isPrefix (announced.remembers _ known).2 named)⟩

theorem progress_truthful_threeNodes :
    (ThreeNodes.afterCommit.node 0).raft.role = .leader ∧
      ((ThreeNodes.afterCommit.node 0).raft.progress.get 1).map Progress.reach = some (1, 2) ∧
      (ThreeNodes.afterCommit.node 1).disk.Holds ThreeNodes.chronicle 1 ThreeNodes.opening := by
  have leads : (ThreeNodes.afterCommit.node 0).raft.role = .leader := by decide +kernel
  have reach : ((ThreeNodes.afterCommit.node 0).raft.progress.get 1).map Progress.reach =
      some (1, 2) := by decide +kernel
  refine ⟨leads, reach, ?_⟩
  rcases Option.map_eq_some_iff.mp reach with ⟨p, found, isReach⟩
  have matchedIs : p.matched = 1 := congrArg Prod.fst isReach
  have truthful := (progress_truthful ThreeNodes.setup ThreeNodes.reaches_commit).1 0 1 p leads
    (by decide) found
  exact (truthful.2.2 (by decide +kernel)).2 1 matchedIs.ge _ (by decide +kernel)

end ChronoScope.Chronolog
