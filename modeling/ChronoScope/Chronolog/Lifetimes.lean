import ChronoScope.Chronolog.Retry
import ChronoScope.Chronolog.Safety

/-!
# The life of a process

Between two restarts a node is one process: its commit index only rises, and what
it hands to its application is consecutive, an installed snapshot counting as a
jump to the index it covers. `follow` reads a list of handovers that way.

The commit index is clamped to the log in two places of the source. Neither ever
takes effect: what a node has committed is in its log and stays there.
-/

namespace ChronoScope.Chronolog

open List

open Consensus (State Rules Invariant Steps)

variable {σ : Type}

/-- Where a list of handovers leads from an index: an entry has to be the next one, a snapshot
has to lead onwards. -/
def follow : ℕ → List Handover → Option ℕ
  | position, [] => some position
  | position, .entry given :: rest =>
    if given.index = position + 1 then follow (position + 1) rest else none
  | position, .image snap :: rest =>
    if position < snap.lastIndex then follow snap.lastIndex rest else none

theorem follow_append (position : ℕ) (first second : List Handover) :
    follow position (first ++ second) = (follow position first).bind (follow · second) := by
  induction first generalizing position with
  | nil => rfl
  | cons handover rest ih =>
    cases handover with
    | entry given =>
      simp only [cons_append, follow]
      split_ifs
      · exact ih _
      · rfl
    | image snap =>
      simp only [cons_append, follow]
      split_ifs
      · exact ih _
      · rfl

variable {position : ℕ}

theorem follow_entries {entries : List Entry} (indexed : Log.Indexed position entries) :
    follow position (entries.map .entry) = some (position + entries.length) := by
  induction entries generalizing position with
  | nil => rfl
  | cons entry rest ih =>
    have first : entry.index = position + 1 := by simpa using indexed 0 entry rfl
    have others : Log.Indexed (position + 1) rest := by
      intro place found present
      have := indexed (place + 1) found (by simpa using present)
      omega
    rw [map_cons, follow, if_pos first, ih others, length_cons]
    congr 1
    omega

def Action.restarts (id : NodeId) : Action → Bool
  | .restart other => decide (other = id)
  | _ => false

variable {id : NodeId} {start : Cluster σ}

namespace Setup

variable (setup : Setup σ)

/-- A step that leaves the process of a node alive. -/
def StepAlive (id : NodeId) (before after : Cluster σ) : Prop :=
  ∃ action, action.restarts id = false ∧ setup.act before action = some after

/-- The second state is reached from the first within one process of the node. -/
def Lives (id : NodeId) : Cluster σ → Cluster σ → Prop := Relation.ReflTransGen (setup.StepAlive id)

/-- A process of the node starts here: the run does, or the node has just restarted. -/
def Born (id : NodeId) (start : Cluster σ) : Prop :=
  start = setup.initial ∨
    ∃ before, setup.Reaches setup.initial before ∧ setup.act before (.restart id) = some start

variable {setup}

theorem Lives.reaches {early late : Cluster σ} (lives : setup.Lives id early late) :
    setup.Reaches early late :=
  Relation.ReflTransGen.mono (fun _ _ ⟨action, _, acted⟩ => ⟨action, acted⟩) _ _ lives

theorem Born.reached (born : setup.Born id start) : setup.Reaches setup.initial start := by
  rcases born with rfl | ⟨before, reached, acted⟩
  · exact .refl
  · exact reached.tail ⟨_, acted⟩

theorem lives_play (cluster : Cluster σ) {script : List Action}
    (alive : script.all (fun action => !action.restarts id) = true) :
    setup.Lives id cluster (setup.play cluster script) := by
  induction script generalizing cluster with
  | nil => exact .refl
  | cons action rest ih =>
    rw [all_cons, Bool.and_eq_true, Bool.not_eq_true'] at alive
    cases acted : setup.act cluster action with
    | none => simpa [play, acted] using ih cluster alive.2
    | some next =>
      have others := ih next alive.2
      simp only [play, foldl_cons, acted, Option.getD_some] at others ⊢
      exact .head ⟨action, alive.1, acted⟩ others

end Setup

/-- Everything a node has handed to its application. -/
def Cluster.handedBy (cluster : Cluster σ) (id : NodeId) : List Handover :=
  (cluster.handed.filter fun item => decide (item.1 = id)).map Prod.snd

/-- What a node has handed to its application since an earlier state. -/
def Cluster.handedSince (start now : Cluster σ) (id : NodeId) : List Handover :=
  (now.handedBy id).drop (start.handedBy id).length

/-- Whether `handleAppend` would have to clamp the commit index when it is fed this message. -/
def Raft.clampFires (r : Raft) (msg : Message) : Bool :=
  match msg.body with
  | .appendReq prevIndex prevTerm entries leaderCommit =>
    let merged := r.log.merge prevIndex entries
    decide (r.term ≤ msg.term ∧ r.log.snapshotIndex ≤ prevIndex ∧
      r.log.termAt prevIndex = some prevTerm ∧
      merged.1.lastIndex < max r.commit (min leaderCommit merged.2))
  | _ => false

section Moving

variable {machine : StateMachine σ} {charter : Charter} {state : State NodeId Entry}
  {disk : Durable} {image : σ} {r r' : Raft}

variable {heard : Option (NodeId × Message)}

section

variable (tracks : Tracks machine charter state disk image r) (inv : Invariant charter.rules state)

include tracks inv

theorem Tracks.unclamped (follows : r.role = .follower) {sender : NodeId}
    {prevIndex prevTerm leaderCommit : ℕ} {entries : List Entry}
    (faithful : Faithful machine charter state sender r.id
      ⟨r.term, .appendReq prevIndex prevTerm entries leaderCommit⟩)
    (above : r.log.snapshotIndex ≤ prevIndex) (own : r.log.termAt prevIndex = some prevTerm) :
    max r.commit (min leaderCommit (r.log.merge prevIndex entries).2) ≤
      (r.log.merge prevIndex entries).1.lastIndex := by
  rcases Refines.takeOver tracks inv follows faithful above own with
    ⟨after, steps, tracksAfter, _⟩
  have bound := tracksAfter.commit_le (steps.invariant inv)
  rw [← tracksAfter.log.lastIndex] at bound
  obtain ⟨_, raised⟩ := raiseCommit_eq (r.mergeEntries prevIndex entries)
    (min leaderCommit (r.log.merge prevIndex entries).2)
  rw [raised, mergeEntries_eq] at bound
  exact bound

theorem Tracks.clampFires_eq_false {sender : NodeId} {msg : Message}
    (faithful : Faithful machine charter state sender r.id msg) : r.clampFires msg = false := by
  rcases msg with ⟨term, body⟩
  cases body with
  | appendReq prevIndex prevTerm entries leaderCommit =>
    rw [Raft.clampFires, decide_eq_false_iff_not]
    rintro ⟨notEarlier, above, own, clamped⟩
    rcases Refines.becomeFollower tracks inv term none with ⟨sameId, middle, steps, tracks'⟩
    have termIs : (r.becomeFollower term none).term = term := by
      rw [becomeFollower_term, max_eq_right notEarlier]
    have same : (r.becomeFollower term none).log = r.log ∧
        (r.becomeFollower term none).commit = r.commit := by
      unfold Raft.becomeFollower
      split_ifs <;> exact ⟨rfl, rfl⟩
    have stillFaithful : Faithful machine charter middle sender (r.becomeFollower term none).id
        ⟨(r.becomeFollower term none).term,
          .appendReq prevIndex prevTerm entries leaderCommit⟩ := by
      rw [sameId, termIs]
      exact faithful.mono steps inv
    have bound := tracks'.unclamped (steps.invariant inv) (becomeFollower_role term none)
      stillFaithful (by rwa [same.1]) (by rwa [same.1])
    rw [same.1, same.2] at bound
    exact absurd bound (Nat.not_le.mpr clamped)
  | _ => rfl

theorem Tracks.commit_le_of_move
    (faithful : ∀ sender msg, heard = some (sender, msg) →
      Faithful machine charter state sender r.id msg)
    (move : Raft.Move heard r r') : r.commit ≤ r'.commit := by
  cases move with
  | follow term leader =>
    unfold Raft.becomeFollower
    split_ifs <;> exact le_rfl
  | decide =>
    rcases maybeAdvanceCommit_cases r with unchanged | ⟨candidate, _, above, _, advanced⟩
    · rw [unchanged]
    · rw [advanced]
      exact above.le
  | @accept sender prevIndex prevTerm commit entries asked follows above known =>
    have unclamped := tracks.unclamped inv follows (faithful _ _ asked) above known
    obtain ⟨_, accepted⟩ := acceptAppend_eq r sender prevIndex entries commit
    rw [accepted]
    exact le_min (le_max_left _ _) ((le_max_left _ _).trans unclamped)
  | @raise _ commit =>
    obtain ⟨_, raised⟩ := raiseCommit_eq r (min commit r.log.lastIndex)
    rw [raised]
    exact le_max_left _ _
  | install => exact le_max_left _ _
  | _ => exact le_rfl

end

/-- The application has been handed everything up to this index; an installed snapshot that
waits leads beyond it. -/
structure HandedUpTo (position : ℕ) (r : Raft) : Prop where
  applied : r.pending.snapshot = none → position = r.applied
  waiting : r.pending.snapshot ≠ none → position < r.log.snapshotIndex

section

variable (handed : HandedUpTo position r) (tracks : Tracks machine charter state disk image r)

include handed tracks

theorem HandedUpTo.le_applied : position ≤ r.applied := by
  by_cases waits : r.pending.snapshot = none
  · exact (handed.applied waits).le
  · exact (handed.waiting waits).le.trans tracks.snapshot_applied

theorem HandedUpTo.move (move : Raft.Move heard r r') : HandedUpTo position r' := by
  rcases move.quiet_or_install with ⟨quiet, sameApplied⟩ | ⟨sender, snap, news, rfl⟩
  · constructor
    · rw [quiet.snapshot, sameApplied]
      exact handed.applied
    · rw [quiet.snapshot, quiet.snapshotIndex]
      exact handed.waiting
  · refine { applied := fun none => (nomatch none), waiting := fun _ => ?_ }
    have before := (handed.le_applied tracks).trans tracks.applied_commit
    exact (before.trans_lt news).trans_le (Log.le_installSnapshot r.log snap)

theorem HandedUpTo.follow_handovers (inv : Invariant charter.rules state) :
    follow position (Node.handovers r.ready.1) = some r.commit := by
  have entries : follow r.applied (r.ready.1.committed.map .entry) = some r.commit := by
    have indexed := (tracks.log.indexed.take r.commit).drop r.applied
    rw [Nat.zero_add, ← tracks.committed_eq inv] at indexed
    rw [follow_entries indexed, tracks.committed_eq inv, length_drop, length_take]
    have bound := tracks.commit_le inv
    have progressed := tracks.applied_commit
    congr 1
    omega
  cases waits : r.pending.snapshot with
  | none =>
    have same := handed.applied waits
    subst same
    simpa [Node.handovers, Raft.ready, waits] using entries
  | some snap =>
    have described := tracks.snapshot snap (by simp [latestSnapshot, waits])
    have onwards := handed.waiting (by simp [waits])
    have appliedIs := (tracks.installed (by simp [waits])).1
    have same : (Node.handovers r.ready.1) =
        .image snap :: r.ready.1.committed.map Handover.entry := by
      simp [Node.handovers, Raft.ready, waits]
    rw [same, follow, if_pos (described.lastIndex.symm ▸ onwards), described.lastIndex,
      ← appliedIs]
    exact entries

end

end Moving

/-- What a step adds to what a node has handed over. -/
def Action.hands (cluster : Cluster σ) (id : NodeId) : Action → List Handover
  | .cycle actor => if actor = id then Node.handovers (cluster.node id).raft.ready.1 else []
  | _ => []

theorem Setup.Event.handedBy_eq {setup : Setup σ} {cluster next : Cluster σ} {action : Action}
    (event : setup.Event cluster action next) (id : NodeId) :
    next.handedBy id = cluster.handedBy id ++ action.hands cluster id := by
  cases event with
  | cycle actor =>
    simp only [Cluster.handedBy, Action.hands, filter_append, map_append]
    congr 1
    split_ifs with same
    · subst same
      simp [filter_map, Function.comp_def]
    · simp [filter_map, Function.comp_def, same]
  | _ => exact (append_nil _).symm

theorem applied_cycle (machine : StateMachine σ) (node : Node σ) :
    (node.cycle machine).raft.applied =
      (node.raft.ready.1.committed.getLast?.map Entry.index).getD node.raft.applied := by
  rcases cycle_raft machine node with same | ⟨_, advanced⟩
  · rw [same]
    rfl
  · rw [advanced, maybeAdvanceCommit_applied_eq]
    rfl

theorem le_commit_cycle (machine : StateMachine σ) (node : Node σ) :
    min node.raft.commit node.raft.log.lastIndex ≤ (node.cycle machine).raft.commit := by
  rcases cycle_raft machine node with same | ⟨_, advanced⟩
  · rw [same]
    exact le_rfl
  · rw [advanced]
    rcases maybeAdvanceCommit_cases node.noted with unchanged | ⟨candidate, _, above, _, raised⟩
    · rw [unchanged]
      exact le_rfl
    · rw [raised]
      exact above.le

namespace Simulates

variable {setup : Setup σ} {cluster next : Cluster σ} {state : State NodeId Entry}

/-- One step of a process: its commit index does not fall, and what it hands over leads on from
what it has handed over before. -/
theorem lives (simulates : Simulates setup .fixed cluster state) {action : Action}
    (event : setup.Event cluster action next) (alive : action.restarts id = false)
    (handed : HandedUpTo position (cluster.node id).raft) :
    (cluster.node id).raft.commit ≤ (next.node id).raft.commit ∧
      ∃ reached, follow position (action.hands cluster id) = some reached ∧
        HandedUpTo reached (next.node id).raft := by
  by_cases mine : id = action.actor
  · have tracks := simulates.tracks id
    have inv := simulates.inv
    cases event with
    | @input actor input delivered =>
      subst mine
      have fed := tracks.moves (P := fun _ r => (cluster.node id).raft.commit ≤ r.commit ∧
        HandedUpTo position r) inv (simulates.faithful delivered) ⟨le_rfl, handed⟩ ?_
        (feed_moves _ input)
      · rcases fed with ⟨_, _, _, _, rises, stillHanded⟩
        simp only [Setup.place, Function.update_self]
        exact ⟨rises, position, rfl, stillHanded⟩
      · rintro before after r r' invBefore tracksBefore _ _ _ faithful move ⟨rises, upTo⟩
        exact ⟨rises.trans (tracksBefore.commit_le_of_move invBefore faithful move),
          upTo.move tracksBefore move⟩
    | cycle actor =>
      subst mine
      have committed : min (cluster.node id).raft.commit
          (cluster.node id).raft.log.lastIndex = (cluster.node id).raft.commit := by
        rw [tracks.log.lastIndex]
        exact min_eq_left (tracks.commit_le inv)
      have rises := le_commit_cycle setup.machine (cluster.node id)
      rw [committed] at rises
      simp only [Setup.place, Function.update_self, Action.hands, if_true]
      refine ⟨rises, _, handed.follow_handovers tracks inv, ?_, ?_⟩
      · intro _
        rw [applied_cycle, tracks.applied_after inv]
      · intro waits
        exact absurd (tracks.cycle inv).1.snapshot waits
    | @compact actor node idle done =>
      subst mine
      have settled := simulates.settled rfl id idle
      rcases Option.map_eq_some_iff.mp done with ⟨snap, _, rfl⟩
      simp only [Setup.place, Function.update_self]
      refine ⟨le_rfl, position, rfl, fun none => handed.applied none, fun waits => ?_⟩
      exact absurd settled.snapshot waits
    | @ship actor peer node idle done =>
      subst mine
      unfold Node.ship at done
      split_ifs at done
      rcases Option.map_eq_some_iff.mp done with ⟨snap, _, rfl⟩
      simp only [Setup.place, Function.update_self]
      exact ⟨le_rfl, position, rfl, handed.applied, handed.waiting⟩
    | @stepDown actor idle =>
      subst mine
      simp only [Setup.place, Function.update_self]
      rcases stepDown_cases (cluster.node id).raft with same | ⟨_, stoodDown⟩
      · rw [same]
        exact ⟨le_rfl, position, rfl, handed⟩
      · rw [stoodDown, becomeFollower_of_le le_rfl]
        exact ⟨le_rfl, position, rfl, handed.applied, handed.waiting⟩
    | restart idle => simp [Action.restarts, mine, Action.actor] at alive
  · rw [event.node_eq mine]
    refine ⟨le_rfl, position, ?_, handed⟩
    cases action with
    | cycle actor =>
      have other : ¬actor = id := Ne.symm mine
      rw [Action.hands, if_neg other, follow]
    | _ => rfl

end Simulates

theorem Setup.Born.handedUpTo {setup : Setup σ} (born : setup.Born id start) :
    HandedUpTo (start.node id).raft.log.snapshotIndex (start.node id).raft := by
  rcases born with rfl | ⟨before, _, acted⟩
  · exact ⟨fun _ => rfl, fun waits => absurd rfl waits⟩
  · cases setup.event_of_act acted
    simp only [Setup.place, Function.update_self]
    exact ⟨fun _ => rfl, fun waits => absurd rfl waits⟩

theorem Setup.Lives.handedUpTo {setup : Setup σ} {now : Cluster σ} (born : setup.Born id start)
    (lived : setup.Lives id start now) :
    ∃ given position, now.handedBy id = start.handedBy id ++ given ∧
      follow (start.node id).raft.log.snapshotIndex given = some position ∧
      HandedUpTo position (now.node id).raft := by
  induction lived with
  | refl => exact ⟨[], _, (append_nil _).symm, rfl, born.handedUpTo⟩
  | @tail before _ lived step ih =>
    rcases ih with ⟨given, position, givenIs, led, handed⟩
    rcases step with ⟨action, alive, acted⟩
    rcases (Simulates.initial setup .fixed).run (born.reached.trans (Setup.Lives.reaches lived))
      with ⟨state, _, simulates⟩
    have event := setup.event_of_act acted
    rcases simulates.lives event alive handed with ⟨_, reached, onwards, handed'⟩
    refine ⟨given ++ action.hands before id, reached, ?_, ?_, handed'⟩
    · rw [event.handedBy_eq, givenIs, append_assoc]
    · rw [follow_append, led]
      exact onwards

theorem Setup.Lives.commit_le {setup : Setup σ} {now late : Cluster σ} (born : setup.Born id start)
    (lived : setup.Lives id start now) (onwards : setup.Lives id now late) :
    (now.node id).raft.commit ≤ (late.node id).raft.commit := by
  induction onwards with
  | refl => exact le_rfl
  | tail more step ih =>
    rcases step with ⟨action, alive, acted⟩
    rcases Setup.Lives.handedUpTo born (lived.trans more) with ⟨_, _, _, _, handed⟩
    rcases (Simulates.initial setup .fixed).run
      (born.reached.trans (Setup.Lives.reaches (lived.trans more))) with ⟨state, _, simulates⟩
    exact ih.trans (simulates.lives (setup.event_of_act acted) alive handed).1

/-- Within the life of a process, the snapshot point, what is applied, what is committed and the
end of the log stand in this order, the commit index never falls and is never clamped, and what
is handed to the application leads from the restored snapshot on without a gap or a repetition. -/
theorem applied_in_order (setup : Setup σ) {id : NodeId} {start now late : Cluster σ}
    (born : setup.Born id start) (lived : setup.Lives id start now)
    (onwards : setup.Lives id now late) :
    (now.node id).raft.log.snapshotIndex ≤ (now.node id).raft.applied ∧
      (now.node id).raft.applied ≤ (now.node id).raft.commit ∧
      (now.node id).raft.commit ≤ (now.node id).raft.log.lastIndex ∧
      (now.node id).raft.commit ≤ (late.node id).raft.commit ∧
      (∀ sender msg, ⟨sender, id, msg⟩ ∈ now.network →
        (now.node id).raft.clampFires msg = false) ∧
      ∃ position, follow (start.node id).raft.log.snapshotIndex (start.handedSince now id) =
        some position := by
  rcases (Simulates.initial setup .fixed).run (born.reached.trans lived.reaches) with
    ⟨state, _, simulates⟩
  have tracks := simulates.tracks id
  have bound := tracks.commit_le simulates.inv
  rw [← tracks.log.lastIndex] at bound
  refine ⟨tracks.snapshot_applied, tracks.applied_commit, bound, lived.commit_le born onwards,
    ?_, ?_⟩
  · intro sender msg sent
    apply tracks.clampFires_eq_false simulates.inv
    rw [simulates.id id]
    exact simulates.network _ sent
  · rcases lived.handedUpTo born with ⟨given, position, givenIs, led, _⟩
    refine ⟨position, ?_⟩
    rw [Cluster.handedSince, givenIs, drop_left]
    exact led

theorem applied_in_order_threeNodes :
    (ThreeNodes.afterFirstElection.node 1).raft.commit ≤
        (ThreeNodes.afterCommit.node 1).raft.commit ∧
      ∃ position, follow 0 (ThreeNodes.setup.initial.handedSince ThreeNodes.afterCommit 1) =
        some position := by
  have lived : ThreeNodes.setup.Lives 1 ThreeNodes.setup.initial ThreeNodes.afterFirstElection :=
    Setup.lives_play _ (by decide)
  have onwards : ThreeNodes.setup.Lives 1 ThreeNodes.afterFirstElection ThreeNodes.afterCommit :=
    Setup.lives_play _ (by decide)
  exact ⟨(applied_in_order ThreeNodes.setup (Or.inl rfl) lived onwards).2.2.2.1,
    (applied_in_order ThreeNodes.setup (Or.inl rfl) (lived.trans onwards) .refl).2.2.2.2.2⟩

end ChronoScope.Chronolog
