import ChronoScope.Chronolog.JointConsensus

/-!
# One change at a time

Along every log, entering and leaving joint consensus take turns. A change must fit
the configuration below it, and a change is only put on a log under which there are
quorums, so entering from a simple configuration always leads to a joint one.

Every change in a log, or on its way to one, was put there by a leader that knew all
changes below it to be committed. `bears` is what has to be traced back to that
moment: the entries a node holds and those in messages it is about to send.
-/

namespace ChronoScope.Chronolog

open List

open Consensus (State Invariant)

variable {σ : Type}

/-- The change an entry makes to the configuration, if any. -/
def Entry.change (entry : Entry) : Option ConfigChange :=
  match entry.kind with
  | .config change => some change
  | _ => none

def ConfigChange.enters : ConfigChange → Bool
  | .enterJoint .. => true
  | .leaveJoint => false

/-- Entering and leaving joint consensus by turns, entering first. -/
def Alternating (changes : List ConfigChange) : Prop :=
  ∀ position change, changes[position]? = some change →
    (change.enters = true ↔ position % 2 = 0)

theorem Alternating.concat {changes : List ConfigChange} {change : ConfigChange}
    (alternating : Alternating changes) (turn : change.enters = true ↔ changes.length % 2 = 0) :
    Alternating (changes ++ [change]) := by
  intro position found present
  rcases Nat.lt_or_ge position changes.length with old | new
  · rw [getElem?_append_left old] at present
    exact alternating position found present
  · rw [getElem?_append_right new, getElem?_singleton] at present
    split_ifs at present with last
    cases present
    rwa [show position = changes.length by omega]

variable {entry : Entry} {log : Log}

theorem Entry.change_eq_none (plain : entry.Plain) : entry.change = none := by
  unfold change
  split
  · rename_i change isChange
    exact absurd isChange (plain change)
  · rfl

theorem alternating_of_rooted {charter : Charter} {state : State NodeId Entry}
    (inv : Invariant charter.rules state) (simple : charter.config.isJoint = false)
    {log : List Entry} (rooted : state.Rooted log) :
    Alternating (log.filterMap Entry.change) ∧
      ((charter.configAfter log).isJoint = true ↔ (log.filterMap Entry.change).length % 2 = 1) := by
  induction log using List.reverseRecOn with
  | nil =>
    refine ⟨fun _ _ present => by simp at present, ?_⟩
    simpa [Charter.configAfter] using simple
  | append_singleton log entry ih =>
    have below : state.Rooted log := by simpa using rooted.take log.length
    rcases ih below with ⟨alternating, joint⟩
    rw [Charter.configAfter_concat, filterMap_append]
    by_cases plain : entry.Plain
    · have kept : charter.configAfter (log ++ [entry]) = charter.configAfter log :=
        charter.rules.config_keeps (not_not_intro plain)
      rw [Charter.configAfter_concat] at kept
      simpa [kept, Entry.change_eq_none plain] using ⟨alternating, joint⟩
    · have present : (log ++ [entry])[log.length]? = some entry := by simp
      rcases not_forall_not.mp plain with ⟨change, isChange⟩
      have fits := ((inv.fits_of_rooted rooted present).2 change isChange).2
      rcases inv.change_quorate rooted present plain with ⟨_, votes, quorum, _⟩
      change (charter.configAfter _).hasQuorum votes = true at quorum
      have taken : (log ++ [entry]).take log.length = log := by simp
      rw [taken] at fits quorum
      have changeIs : entry.change = some change := by simp [Entry.change, isChange]
      simp only [filterMap_cons, changeIs, filterMap_nil, Log.applyEntry, isChange]
      cases change with
      | enterJoint incoming learners =>
        have isSimple : (charter.configAfter log).isJoint = false := fits
        have even : (log.filterMap Entry.change).length % 2 = 0 := by
          have := mt joint.mpr (by simp [isSimple])
          omega
        refine ⟨alternating.concat (by simp [ConfigChange.enters, even]), ?_⟩
        have voters := (Config.hasQuorum_iff.mp quorum).1.resolve_right
          fun outgoing => by simp [Config.isJoint_iff.mpr outgoing] at isSimple
        exact iff_of_true (Config.isJoint_iff.mpr voters) (by simp; omega)
      | leaveJoint =>
        have isJoint : (charter.configAfter log).isJoint = true := by
          simpa [Raft.misfit] using fits
        have odd := joint.mp isJoint
        refine ⟨alternating.concat (by simp [ConfigChange.enters, odd]), ?_⟩
        exact iff_of_false (by simp [Config.isJoint_iff, applyChange]) (by simp; omega)

theorem Log.mem_truncateFrom {start : ℕ}
    (member : entry ∈ (log.truncateFrom start).entries) : entry ∈ log.entries := by
  unfold truncateFrom at member
  split at member
  · exact mem_of_mem_take member
  · split_ifs at member
    · cases member
    · exact member

theorem Log.mem_mergeLoop {entries : List Entry}
    (member : entry ∈ (log.mergeLoop entries).entries) : entry ∈ log.entries ∨ entry ∈ entries := by
  induction entries with
  | nil => exact Or.inl member
  | cons head rest ih =>
    unfold mergeLoop at member
    split at member
    · split_ifs at member
      · exact (ih member).imp_right (mem_cons_of_mem _)
      · exact (mem_append.mp member).imp_left mem_truncateFrom
    · exact mem_append.mp member

theorem Log.mem_merge {prevIndex : ℕ} {entries : List Entry}
    (member : entry ∈ (log.merge prevIndex entries).1.entries) :
    entry ∈ log.entries ∨ entry ∈ entries := by
  unfold merge at member
  split at member
  · exact Or.inl member
  · exact mem_mergeLoop member

theorem Log.mem_installSnapshot {snap : Snapshot}
    (member : entry ∈ (log.installSnapshot snap).entries) : entry ∈ log.entries := by
  unfold installSnapshot compactThrough at member
  split_ifs at member
  · exact member
  · exact mem_of_mem_drop member
  · cases member

theorem Log.mem_slice {start stop : ℕ}
    (member : entry ∈ log.slice start stop) : entry ∈ log.entries := by
  unfold slice at member
  split at member
  · cases member
  · split at member
    · cases member
    · split_ifs at member
      · cases member
      · exact mem_of_mem_take (mem_of_mem_drop member)

def Message.carried (msg : Message) : List Entry :=
  match msg.body with
  | .appendReq _ _ entries _ => entries
  | _ => []

namespace Raft

variable {heard : Option (NodeId × Message)} {r r' : Raft}

/-- The entries a node holds or is about to send. -/
def bears (r : Raft) : List Entry :=
  r.log.entries ++ r.pending.messages.flatMap fun sent => sent.2.carried

variable {entry : Entry}

theorem Sends.carried {peer : NodeId} {msg : Message} (sends : Sends heard r peer msg)
    (member : entry ∈ msg.carried) : entry ∈ r.log.entries := by
  cases sends with
  | append => exact Log.mem_slice ((cutEntries_isPrefix 0 0 _).subset member)
  | _ => cases member

theorem Move.mem_log (move : Move heard r r') (config : entry.isConfig = true)
    (member : entry ∈ r'.log.entries) :
    entry ∈ r.log.entries ∨ ∃ sender msg, heard = some (sender, msg) ∧ entry ∈ msg.carried := by
  have appended {kind : EntryKind}
      (plain : Entry.isConfig ⟨r.term, r.log.lastIndex + 1, kind⟩ = false)
      (member : entry ∈ r.log.entries ++ [⟨r.term, r.log.lastIndex + 1, kind⟩]) :
      entry ∈ r.log.entries := by
    rcases mem_append.mp member with old | new
    · exact old
    · rw [mem_singleton.mp new, plain] at config
      cases config
  cases move with
  | follow term leader =>
    unfold becomeFollower at member
    split_ifs at member <;> exact Or.inl member
  | openTerm => exact Or.inl (appended rfl member)
  | append data => exact Or.inl (appended rfl member)
  | decide =>
    obtain ⟨_, _, _, _, advanced⟩ := maybeAdvanceCommit_eq r
    rw [advanced] at member
    exact Or.inl member
  | @accept sender prevIndex prevTerm commit entries asked =>
    obtain ⟨_, accepted⟩ := acceptAppend_eq r sender prevIndex entries commit
    rw [accepted] at member
    rcases Log.mem_merge member with old | new
    · exact Or.inl old
    · exact Or.inr ⟨_, _, asked, new⟩
  | @raise sender commit =>
    obtain ⟨_, raised⟩ := raiseCommit_eq r (min commit r.log.lastIndex)
    rw [raised] at member
    exact Or.inl member
  | install => exact Or.inl (Log.mem_installSnapshot member)
  | _ => exact Or.inl member

theorem Move.mem_bears (move : Move heard r r') (config : entry.isConfig = true)
    (member : entry ∈ r'.bears) :
    entry ∈ r.bears ∨ ∃ sender msg, heard = some (sender, msg) ∧ entry ∈ msg.carried := by
  rcases mem_append.mp member with logged | waiting
  · exact (move.mem_log config logged).imp_left (mem_append_left _)
  · rcases mem_flatMap.mp waiting with ⟨⟨peer, msg⟩, waits, carried⟩
    rcases move.posted waits with earlier | sends | ⟨_, grants⟩
    · exact Or.inl (mem_append_right _ (mem_flatMap.mpr ⟨_, earlier, carried⟩))
    · exact Or.inl (mem_append_left _ (sends.carried carried))
    · rcases msg with ⟨term, body⟩
      cases grants <;> cases carried

theorem Moves.mem_bears (moves : Moves heard r r')
    (config : entry.isConfig = true) (member : entry ∈ r'.bears) :
    entry ∈ r.bears ∨ ∃ sender msg, heard = some (sender, msg) ∧ entry ∈ msg.carried := by
  induction moves with
  | refl => exact Or.inl member
  | tail _ move ih =>
    rcases move.mem_bears config member with before | heardIt
    · exact ih before
    · exact Or.inr heardIt

/-- A leader that knows every change in its log to be committed puts the entry on top. -/
def Puts (r r' : Raft) (entry : Entry) : Prop :=
  r.role = .leader ∧ r.Settled ∧ r'.log = r.log.append [entry]

theorem mem_bears_proposeConfig {change : ConfigChange}
    (config : entry.isConfig = true) (member : entry ∈ (r.proposeConfig change).2.bears) :
    entry ∈ r.bears ∨ r.Puts (r.proposeConfig change).2 entry := by
  rcases proposeConfig_cases r change with
    ⟨_, refused⟩ | ⟨⟨leads, _, settled⟩, _, logIs, accepted⟩
  · exact Or.inl (refused ▸ member)
  · let reset := (r.appendToOwnLog [r.changeEntry change]).resetProgressForConfig
    have stillLeads : reset.role = .leader := leads
    have sends : reset.Moves none reset.broadcastAppend := (Calms.broadcastAppend stillLeads).moves
    rw [accepted] at member
    rcases sends.mem_bears config member with before | ⟨_, _, silence, _⟩
    · rcases mem_append.mp before with logged | waiting
      · rcases mem_append.mp logged with old | new
        · exact Or.inl (mem_append_left _ old)
        · rw [mem_singleton.mp new]
          exact Or.inr ⟨leads, settled, logIs⟩
      · exact Or.inl (mem_append_right _ waiting)
    · cases silence

theorem mem_bears_maybeFinishConfigChange (config : entry.isConfig = true)
    (member : entry ∈ r.maybeFinishConfigChange.2.bears) :
    entry ∈ r.bears ∨ r.Puts r.maybeFinishConfigChange.2 entry := by
  unfold maybeFinishConfigChange at member ⊢
  split_ifs at member ⊢
  · exact Or.inl member
  · exact Or.inl member
  · exact Or.inl member
  · exact mem_bears_proposeConfig config member

theorem bears_cycle (r : Raft) (persisted : ℕ) :
    ((r.ready.2.setPersisted persisted).advance r.ready.1).bears = r.log.entries := by
  rw [advance_eq]
  split_ifs
  · obtain ⟨_, _, _, _, advanced⟩ :=
      maybeAdvanceCommit_eq (noteReady (r.ready.2.setPersisted persisted) r.ready.1)
    rw [advanced]
    exact append_nil _
  · exact append_nil _

end Raft

/-- The entry is in a log or on its way to one. -/
def Cluster.Bears (cluster : Cluster σ) (entry : Entry) : Prop :=
  (∃ id, entry ∈ (cluster.node id).raft.bears) ∨ ∃ sent ∈ cluster.network, entry ∈ sent.msg.carried

theorem Cluster.Bears.of_place {cluster : Cluster σ} {id : NodeId} {node : Node σ}
    (bears : (Setup.place cluster id node).Bears entry) :
    cluster.Bears entry ∨ entry ∈ node.raft.bears := by
  rcases bears with ⟨other, member⟩ | sent
  · by_cases same : other = id
    · subst same
      exact Or.inr (by simpa [Setup.place] using member)
    · exact Or.inl (Or.inl ⟨other, by simpa [Setup.place, same] using member⟩)
  · exact Or.inl (Or.inr sent)

namespace Setup

variable {setup : Setup σ}

theorem bears_of_perform {now next : Cluster σ} {deed : Deed} (keeps : deed.keepsLog = true)
    (done : setup.perform now deed = some next) (config : entry.isConfig = true)
    (bears : next.Bears entry) :
    now.Bears entry ∨ ∃ author, (now.node author).raft.Puts (next.node author).raft entry := by
  cases deed with
  | act action =>
    left
    cases setup.event_of_act done with
    | @input id input delivered =>
      rcases bears.of_place with before | member
      · exact before
      rcases (feed_moves (now.node id).raft input).mem_bears config member with
        before | ⟨sender, msg, isHeard, carried⟩
      · exact Or.inl ⟨id, before⟩
      · cases input with
        | message =>
          cases isHeard
          exact Or.inr ⟨_, by simpa [deliverable] using delivered, carried⟩
        | _ => cases isHeard
    | cycle id =>
      rcases bears with held | ⟨sent, known, carried⟩
      · rcases Cluster.Bears.of_place (Or.inl held) with before | member
        · exact before
        · rw [Node.cycle, Raft.bears_cycle] at member
          exact Or.inl ⟨id, mem_append_left _ member⟩
      · rcases mem_append.mp known with earlier | new
        · exact Or.inr ⟨sent, earlier, carried⟩
        · rcases mem_map.mp new with ⟨posted, waits, rfl⟩
          exact Or.inl ⟨id, mem_append_right _
            (mem_flatMap.mpr ⟨posted, waits, carried⟩)⟩
    | @stepDown id =>
      rcases bears.of_place with before | member
      · exact before
      · refine Or.inl ⟨id, ?_⟩
        rcases stepDown_cases (now.node id).raft with same | ⟨_, stoodDown⟩
        · exact same ▸ member
        · rw [stoodDown, becomeFollower_of_le le_rfl] at member
          exact member
    | compact | ship | restart => cases keeps
  | proposeConfig id change =>
    cases done
    rcases bears.of_place with before | member
    · exact Or.inl before
    · rcases Raft.mem_bears_proposeConfig config member with before | puts
      · exact Or.inl (Or.inl ⟨id, before⟩)
      · exact Or.inr ⟨id, by simpa [place] using puts⟩
  | finishConfig id =>
    cases done
    rcases bears.of_place with before | member
    · exact Or.inl before
    · rcases Raft.mem_bears_maybeFinishConfigChange config member with before | puts
      · exact Or.inl (Or.inl ⟨id, before⟩)
      · exact Or.inr ⟨id, by simpa [place] using puts⟩
  | crash => cases keeps

theorem Run.put {states : List (Cluster σ)}
    (run : setup.Run (fun _ deed => deed.keepsLog = true) states) (config : entry.isConfig = true)
    {now : Cluster σ} (seen : now ∈ states) (bears : now.Bears entry) :
    ∃ before after author, [after, before] <:+: states ∧
      (before.node author).raft.Puts (after.node author).raft entry := by
  induction run generalizing now with
  | start =>
    rw [mem_singleton.mp seen] at bears
    rcases bears with ⟨_, member⟩ | ⟨_, sent, _⟩
    · cases member
    · cases sent
  | @step now' next past deed run keeps done ih =>
    have extend : ∀ {before after : Cluster σ}, [after, before] <:+: now' :: past →
        [after, before] <:+: next :: now' :: past :=
      fun infixed => infixed.trans (infix_cons (infix_refl _))
    have older : ∀ {early : Cluster σ}, early ∈ now' :: past → early.Bears entry →
        ∃ before after author, [after, before] <:+: next :: now' :: past ∧
          (before.node author).raft.Puts (after.node author).raft entry := by
      intro early member bearsEarly
      rcases ih member bearsEarly with ⟨before, after, author, infixed, puts⟩
      exact ⟨before, after, author, extend infixed, puts⟩
    rcases mem_cons.mp seen with rfl | earlier
    · rcases bears_of_perform keeps done config bears with before | ⟨author, puts⟩
      · exact older (mem_cons_self ..) before
      · exact ⟨now', now, author, ⟨[], past, rfl⟩, puts⟩
    · exact older earlier bears

end Setup

namespace Simulates

variable {setup : Setup σ} {cluster : Cluster σ} {state : State NodeId Entry}

section

variable (simulates : Simulates setup .changing cluster state)

include simulates

theorem log_eq (id : NodeId) : state.log id = (cluster.node id).raft.log.entries := by
  have tracks := simulates.tracks id
  have entriesAre := tracks.log.entries
  rw [tracks.whole rfl, simulates.id id] at entriesAre
  exact entriesAre.symm

theorem index_eq {id : NodeId} {position : ℕ}
    (present : (cluster.node id).raft.log.entries[position]? = some entry) :
    entry.index = position + 1 := by
  have indexed := (simulates.tracks id).log.indexed
  rw [simulates.id id, simulates.log_eq id] at indexed
  simpa using indexed position entry present

/-- Two logs that hold one entry, at whatever moments of a run, agree up to it. -/
theorem agree {other : Cluster σ} {otherState : State NodeId Entry}
    (otherSimulates : Simulates setup .changing other otherState)
    (order : state.Grows otherState ∨ otherState.Grows state) {left right : NodeId} {position : ℕ}
    (leftHolds : (cluster.node left).raft.log.entries[position]? = some entry)
    (rightHolds : (other.node right).raft.log.entries[position]? = some entry) :
    (cluster.node left).raft.log.entries.take (position + 1) =
      (other.node right).raft.log.entries.take (position + 1) := by
  have leftBound := (List.getElem?_eq_some_iff.mp leftHolds).1
  have rightBound := (List.getElem?_eq_some_iff.mp rightHolds).1
  rw [← simulates.log_eq left] at leftHolds leftBound ⊢
  rw [← otherSimulates.log_eq right] at rightHolds rightBound ⊢
  rcases simulates.inv.conforms_of_rooted (simulates.inv.log_rooted left) position entry
    leftHolds with ⟨leftLed, leftPrefix⟩
  rcases otherSimulates.inv.conforms_of_rooted (otherSimulates.inv.log_rooted right) position entry
    rightHolds with ⟨rightLed, rightPrefix⟩
  have sameLength : ((state.log left).take (position + 1)).length =
      ((otherState.log right).take (position + 1)).length := by
    rw [length_take, length_take]
    omega
  rcases order with grows | grows
  · exact (prefix_of_prefix_length_le (leftPrefix.trans (grows.prefix_leaderLog leftLed))
      rightPrefix sameLength.le).eq_of_length sameLength
  · exact (prefix_of_prefix_length_le leftPrefix
      (rightPrefix.trans (grows.prefix_leaderLog rightLed)) sameLength.le).eq_of_length sameLength

end

end Simulates

/-- In every log the changes enter and leave joint consensus by turns, and a step out of it was
appended by a leader whose commit index had reached every step into it below. -/
theorem Setup.Run.one_change_at_a_time (setup : Setup σ) {states : List (Cluster σ)}
    (run : setup.Run (fun _ deed => deed.keepsLog = true) states) {now : Cluster σ}
    (seen : now ∈ states) (id : NodeId) :
    Alternating ((now.node id).raft.log.entries.filterMap Entry.change) ∧
      ∀ enter ∈ (now.node id).raft.log.entries, ∀ leave ∈ (now.node id).raft.log.entries,
        enter.isEnterJoint = true → leave.kind = .config .leaveJoint → enter.index < leave.index →
          ∃ before after author, [after, before] <:+: states ∧
            (before.node author).raft.role = .leader ∧
            (after.node author).raft.log = (before.node author).raft.log.append [leave] ∧
            enter ∈ (before.node author).raft.log.entries ∧
            enter.index ≤ (before.node author).raft.commit := by
  refine ⟨?_, ?_⟩
  · rcases run.related seen seen with ⟨state, _, simulates, _, _⟩
    rw [← simulates.log_eq id]
    exact (alternating_of_rooted simulates.inv rfl (simulates.inv.log_rooted id)).1
  · intro enter enterHeld leave leaveHeld enters leaves isBelow
    have bears : now.Bears leave := Or.inl ⟨id, mem_append_left _ leaveHeld⟩
    rcases run.put (by simp [Entry.isConfig, leaves]) seen bears with
      ⟨before, after, author, step, leads, settled, logIs⟩
    refine ⟨before, after, author, step, leads, logIs, ?_⟩
    rcases run.related seen (step.subset (mem_cons_self ..)) with
      ⟨state, afterState, simulates, afterSimulates, order⟩
    rcases run.related seen (step.subset (by simp : before ∈ [after, before])) with
      ⟨_, beforeState, _, beforeSimulates, _⟩
    rcases getElem?_of_mem enterHeld with ⟨low, enterAt⟩
    rcases getElem?_of_mem leaveHeld with ⟨high, leaveAt⟩
    have lowIs := simulates.index_eq enterAt
    have highIs := simulates.index_eq leaveAt
    have put : (after.node author).raft.log.entries[(before.node author).raft.log.entries.length]? =
        some leave := by
      rw [logIs]
      exact getElem?_concat_length
    have placeIs := afterSimulates.index_eq put
    have same := simulates.agree afterSimulates order leaveAt
      (show (after.node author).raft.log.entries[high]? = some leave by
        rwa [show high = (before.node author).raft.log.entries.length by omega])
    have enterBefore : (before.node author).raft.log.entries[low]? = some enter := by
      have shared := congrArg (·[low]?) same
      simp only [getElem?_take_of_lt (show low < high + 1 by omega)] at shared
      rw [enterAt, logIs] at shared
      rw [shared]
      exact (getElem?_append_left (by omega)).symm
    refine ⟨mem_of_getElem? enterBefore, ?_⟩
    have tracks := beforeSimulates.tracks author
    have committed := tracks.settled settled
    rw [beforeSimulates.id author, beforeSimulates.log_eq author] at committed
    have changes : ¬enter.Plain := by
      intro plain
      unfold Entry.isEnterJoint at enters
      split at enters
      · rename_i isChange
        exact plain _ isChange
      · cases enters
    have := committed low enter enterBefore changes
    have commitIs := tracks.commit
    rw [beforeSimulates.id author] at commitIs
    omega

theorem one_change_at_a_time_moving :
    Alternating ((Moving.moved.1.node 0).raft.log.entries.filterMap Entry.change) ∧
      ∃ before after author, [after, before] <:+: Moving.moved.1 :: Moving.moved.2 ∧
        (before.node author).raft.role = .leader ∧
        (after.node author).raft.log = (before.node author).raft.log.append [Moving.leaving] ∧
        Moving.entering ∈ (before.node author).raft.log.entries ∧
        Moving.entering.index ≤ (before.node author).raft.commit := by
  have holds := Setup.Run.one_change_at_a_time ThreeNodes.setup
    (ThreeNodes.setup.run_trail _ Moving.script) (mem_cons_self ..) 0
  exact ⟨holds.1, holds.2 Moving.entering (by decide +kernel) Moving.leaving (by decide +kernel)
    (by decide) (by decide) (by decide)⟩

end ChronoScope.Chronolog
