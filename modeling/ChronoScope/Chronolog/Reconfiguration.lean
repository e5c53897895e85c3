import ChronoScope.Chronolog.Membership
import ChronoScope.Chronolog.Moves
import ChronoScope.Chronolog.Quorum

/-!
# Changing the membership

A leader accepts a configuration change if it fits the configuration it has and
no other change lies above its commit index. Two things can go wrong with what it
accepts. Nothing keeps an operator from moving to no voters at all, which shows
only once the move is complete. And whether a joint configuration is committed is
read off the entries the log still has, so that a leader that has compacted the
change away never completes it.
-/

namespace ChronoScope.Chronolog

open Log (Indexed)

variable {cfg : Config}

namespace Config

def Quorate (cfg : Config) : Prop := ∃ votes, cfg.hasQuorum votes = true

theorem majority_of_subset {group votes : BTreeSet NodeId} (included : ∀ id ∈ group, id ∈ votes) :
    majority group votes = true := by
  by_cases empty : group.isEmpty = true
  · simp [majority, empty]
  · have everyone : group.toList.filter (fun id => decide (id ∈ votes)) = group.toList := by
      apply List.filter_eq_self.mpr
      intro id member
      simpa using included id member
    have someone : 0 < group.toList.length := by
      apply List.length_pos_of_ne_nil
      simpa [BTreeSet.isEmpty] using empty
    simp only [majority, if_neg empty, everyone, BTreeSet.len, decide_eq_true_eq]
    omega

theorem quorate_iff : cfg.Quorate ↔ cfg.voters ≠ ∅ ∨ cfg.outgoing ≠ ∅ := by
  constructor
  · rintro ⟨votes, quorum⟩
    exact (hasQuorum_iff.mp quorum).1
  · intro someone
    refine ⟨.ofList (cfg.voters.toList ++ cfg.outgoing.toList), hasQuorum_iff.mpr ⟨someone, ?_, ?_⟩⟩
    · apply majority_of_subset
      intro id member
      simp [BTreeSet.mem_def.mp member]
    · apply majority_of_subset
      intro id member
      simp [BTreeSet.mem_def.mp member]

/-- A change that leaves voters: the incoming ones, or those the joint configuration has. -/
def Populates (cfg : Config) : ConfigChange → Prop
  | .enterJoint incoming _ => incoming ≠ ∅
  | .leaveJoint => cfg.voters ≠ ∅

/-- After a change and the step out of joint consensus that completes it, there is a quorum
exactly if the change leaves voters. -/
theorem quorate_completed_iff (change : ConfigChange) :
    (applyChange (applyChange cfg change) .leaveJoint).Quorate ↔ cfg.Populates change := by
  cases change <;> simp [quorate_iff, applyChange, Populates]

end Config

namespace Config

/-- Every quorum of the configuration includes a majority of the group, all of them voters. -/
structure Rests (cfg : Config) (group : BTreeSet NodeId) : Prop where
  majority : ∀ votes, cfg.hasQuorum votes = true → majority group votes = true
  voters : ∀ id ∈ group, cfg.isVoter id = true

theorem rests_voters (cfg : Config) : cfg.Rests cfg.voters :=
  ⟨fun _ quorum => (hasQuorum_iff.mp quorum).2.1, fun _ member => isVoter_iff.mpr (Or.inl member)⟩

theorem rests_outgoing (cfg : Config) : cfg.Rests cfg.outgoing :=
  ⟨fun _ quorum => (hasQuorum_iff.mp quorum).2.2, fun _ member => isVoter_iff.mpr (Or.inr member)⟩

theorem Rests.meet {first second : Config} {group left right : BTreeSet NodeId}
    (firstRests : first.Rests group) (secondRests : second.Rests group) (nonempty : group ≠ ∅)
    (leftQuorum : first.hasQuorum left = true) (rightQuorum : second.hasQuorum right = true) :
    ∃ id, id ∈ left ∧ id ∈ right ∧ first.isVoter id = true ∧ second.isVoter id = true := by
  rcases majority_meet nonempty (firstRests.majority _ leftQuorum)
    (secondRests.majority _ rightQuorum) with ⟨id, member, inLeft, inRight⟩
  exact ⟨id, inLeft, inRight, firstRests.voters id member, secondRests.voters id member⟩

end Config

namespace Raft

/-- Count the grants of these nodes too. -/
def grantedBy (r : Raft) (nodes : List NodeId) : Raft :=
  { r with votes := nodes.foldl (fun votes id => votes.insert id true) r.votes }

theorem grantedBy_get (r : Raft) (nodes : List NodeId) (id : NodeId) :
    (r.grantedBy nodes).votes.get id = if id ∈ nodes then some true else r.votes.get id := by
  unfold grantedBy
  simp only
  generalize r.votes = votes
  induction nodes generalizing votes with
  | nil => simp
  | cons node nodes ih =>
    rw [List.foldl_cons, ih, BTreeMap.get_insert]
    by_cases later : id ∈ nodes <;> by_cases now : id = node <;> simp [later, now]

theorem tally_of_lost {r : Raft} (lost : r.lost cfg = true) {nodes : List NodeId}
    (free : ∀ id ∈ nodes, r.votes.get id ≠ some false) : (r.grantedBy nodes).tally cfg = false := by
  by_contra won
  rcases Config.hasQuorum_meet lost (Bool.not_eq_false _ ▸ won) with ⟨id, _, refused, granted⟩
  rw [mem_refused_iff] at refused
  rw [mem_granted_iff, grantedBy_get] at granted
  split_ifs at granted with later
  · exact free id later refused
  · rw [refused] at granted
    cases granted

end Raft

/-- Quorums overlap across a reconfiguration, whoever comes and goes: before the change, in joint
consensus and after it, quorums of one configuration and of two in a row share a node that votes
in both. So an election that is lost in one of them cannot be won by further grants. -/
theorem quorums_overlap_across_change (cfg : Config) (manned : cfg.voters ≠ ∅)
    (incoming learners : BTreeSet NodeId) :
    let joint := applyChange cfg (.enterJoint incoming learners)
    let done := applyChange joint .leaveJoint
    (∀ pair ∈ [(cfg, cfg), (cfg, joint), (joint, joint), (joint, done), (done, done)],
      ∀ left right, pair.1.hasQuorum left = true → pair.2.hasQuorum right = true →
        ∃ id, id ∈ left ∧ id ∈ right ∧ pair.1.isVoter id = true ∧ pair.2.isVoter id = true) ∧
    ∀ current ∈ [cfg, joint, done], ∀ r : Raft, r.lost current = true →
      ∀ nodes : List NodeId, (∀ id ∈ nodes, r.votes.get id ≠ some false) →
        (r.grantedBy nodes).tally current = false := by
  intro joint done
  refine ⟨?_, fun _ _ _ lost _ free => Raft.tally_of_lost lost free⟩
  have jointRests : joint.Rests cfg.voters := joint.rests_outgoing
  have doneRests : done.Rests joint.voters := done.rests_voters
  have someone : ∀ {votes}, done.hasQuorum votes = true → joint.voters ≠ ∅ := by
    intro votes quorum
    exact (Config.hasQuorum_iff.mp quorum).1.resolve_right (not_not_intro rfl)
  intro pair isPair left right leftQuorum rightQuorum
  simp only [List.mem_cons, List.not_mem_nil, or_false] at isPair
  rcases isPair with rfl | rfl | rfl | rfl | rfl
  · exact cfg.rests_voters.meet cfg.rests_voters manned leftQuorum rightQuorum
  · exact cfg.rests_voters.meet jointRests manned leftQuorum rightQuorum
  · exact jointRests.meet jointRests manned leftQuorum rightQuorum
  · exact joint.rests_voters.meet doneRests (someone rightQuorum) leftQuorum rightQuorum
  · exact doneRests.meet doneRests (someone rightQuorum) leftQuorum rightQuorum

/-- Three nodes hand over to two others. -/
theorem quorums_overlap_across_handover :
    let cfg : Config := .fixed (.ofList [1, 2, 3]) ∅
    let joint := applyChange cfg (.enterJoint (.ofList [4, 5]) ∅)
    joint.hasQuorum (.ofList [1, 2, 4, 5]) = true ∧ cfg.hasQuorum (.ofList [2, 3]) = true ∧
      ∃ id, id ∈ BTreeSet.ofList [2, 3] ∧ id ∈ BTreeSet.ofList [1, 2, 4, 5] ∧
        cfg.isVoter id = true ∧ joint.isVoter id = true := by
  intro cfg joint
  refine ⟨by decide, by decide, ?_⟩
  exact (quorums_overlap_across_change cfg (by decide) (.ofList [4, 5]) ∅).1 (cfg, joint)
    (by simp [joint]) _ _ (by decide) (by decide)

namespace Raft

theorem broadcastAppend_log (r : Raft) : r.broadcastAppend.log = r.log := by
  unfold broadcastAppend sendAppends
  generalize r.log.config.allNodes.toList = peers
  induction peers generalizing r with
  | nil => rfl
  | cons peer peers ih =>
    rw [List.foldl_cons, ih]
    split_ifs
    · exact sendAppendTo_log r peer
    · rfl

def changeEntry (r : Raft) (change : ConfigChange) : Entry :=
  { term := r.term, index := r.log.lastIndex + 1, kind := .config change }

/-- No entry above the commit index changes the membership. -/
def Settled (r : Raft) : Prop := (r.log.entriesFrom (r.commit + 1)).any Entry.isConfig = false

theorem proposeConfig_cases (r : Raft) (change : ConfigChange) :
    (r.proposeConfig change).1 = none ∧ (r.proposeConfig change).2 = r ∨
      (r.role = .leader ∧ misfit r.log.config change = false ∧ r.Settled) ∧
        (r.proposeConfig change).1 = some (r.log.lastIndex + 1) ∧
        (r.proposeConfig change).2.log = r.log.append [r.changeEntry change] ∧
        (r.proposeConfig change).2 =
          (r.appendToOwnLog [r.changeEntry change]).resetProgressForConfig.broadcastAppend := by
  by_cases leads : r.role = .leader
  swap
  · simp [proposeConfig, leads]
  by_cases fits : misfit r.log.config change = true
  · simp [proposeConfig, leads, fits]
  by_cases busy : (r.log.entriesFrom (r.commit + 1)).any Entry.isConfig = true
  · simp only [proposeConfig, leads, fits, busy]
    simp
  · have accepted : (r.proposeConfig change).2 =
        (r.appendToOwnLog [r.changeEntry change]).resetProgressForConfig.broadcastAppend := by
      simp only [proposeConfig, leads, fits, busy, changeEntry]
      simp
    refine Or.inr ⟨⟨leads, by simpa using fits, by simpa [Settled] using busy⟩, ?_, ?_, accepted⟩
    · simp only [proposeConfig, leads, fits, busy]
      simp
    · rw [accepted, broadcastAppend_log]
      rfl

theorem proposeConfig_accepts {r : Raft} {change : ConfigChange} (leads : r.role = .leader)
    (fits : misfit r.log.config change = false) (settled : r.Settled) :
    (r.proposeConfig change).1 = some (r.log.lastIndex + 1) ∧
      (r.proposeConfig change).2.log = r.log.append [r.changeEntry change] := by
  rcases proposeConfig_cases r change with ⟨refused, _⟩ | ⟨_, accepted, logIs, _⟩
  · unfold Settled at settled
    simp [proposeConfig, leads, fits, settled] at refused
  · exact ⟨accepted, logIs⟩

theorem config_append_change (r : Raft) (change : ConfigChange) :
    (r.log.append [r.changeEntry change]).config = applyChange r.log.config change := by
  simp [Log.config, Log.append, changeEntry, Log.applyEntry]

/-- An accepted change keeps a quorum, now and once it is complete, exactly if it leaves voters. -/
theorem proposeConfig_keeps_quorum_iff (r : Raft) (change : ConfigChange) (index : ℕ)
    (accepted : (r.proposeConfig change).1 = some index) :
    ((r.proposeConfig change).2.log.config.Quorate ∧
        (applyChange (r.proposeConfig change).2.log.config .leaveJoint).Quorate) ↔
      r.log.config.Populates change := by
  rcases proposeConfig_cases r change with ⟨refused, _⟩ | ⟨⟨_, fits, _⟩, _, logIs, _⟩
  · rw [refused] at accepted
    cases accepted
  rw [logIs, config_append_change, Config.quorate_completed_iff]
  constructor
  · exact fun keeps => keeps.2
  · intro populates
    refine ⟨?_, populates⟩
    cases change with
    | leaveJoint => exact Config.quorate_iff.mpr (Or.inl populates)
    | enterJoint incoming learners => exact Config.quorate_iff.mpr (Or.inl populates)

def leading : Raft :=
  (new 0 (.simple [0, 1, 2]) .default).campaignElection.step 1 ⟨1, .voteResp true⟩

/-- A move to no voters at all is accepted, and leaves a cluster that never decides again. -/
theorem leading_gives_up_its_quorum :
    leading.log.config.Quorate ∧
      (leading.proposeConfig (.enterJoint ∅ ∅)).1 = some 2 ∧
      ¬ (applyChange (leading.proposeConfig (.enterJoint ∅ ∅)).2.log.config
        .leaveJoint).Quorate := by
  refine ⟨⟨.ofList [0, 1], by decide +kernel⟩, by decide +kernel, ?_⟩
  rw [Config.quorate_iff]
  decide +kernel

theorem leading_keeps_its_quorum :
    (leading.proposeConfig (.enterJoint (.ofList [0, 1, 3]) ∅)).2.log.config.Quorate ∧
      (applyChange (leading.proposeConfig (.enterJoint (.ofList [0, 1, 3]) ∅)).2.log.config
        .leaveJoint).Quorate :=
  (proposeConfig_keeps_quorum_iff leading (.enterJoint (.ofList [0, 1, 3]) ∅) 2
    (by decide +kernel)).mpr (by simp [Config.Populates]; decide)

/-- The change is completed: a step out of joint consensus is appended and its index returned. -/
def Finishes (r : Raft) : Prop :=
  r.maybeFinishConfigChange.1 = some (r.log.lastIndex + 1) ∧
    r.maybeFinishConfigChange.2.log = r.log.append [r.changeEntry .leaveJoint]

def cycled (r : Raft) : Raft :=
  let (ready, r) := r.ready
  (r.setPersisted r.log.lastIndex).advance ready

/-- Node 1 has taken the change at index 2 from leader 0, compacted if `compacts`, and leads term 2
with the votes of the nodes 1 and 2. -/
def takenOver (compacts : Bool) : Raft :=
  let r := (new 1 (.simple [0, 1, 2]) .default).step 0 ⟨1, .appendReq 0 0
    [⟨1, 1, .noop⟩, ⟨1, 2, .config (.enterJoint (.ofList [1, 2, 3]) ∅)⟩] 2⟩
  let r := r.cycled
  let r := match r.snapshotAtApplied [] with
    | some snap => if compacts then r.compact snap else r
    | none => r
  let r := (r.step 0 ⟨1, .timeoutNow⟩).step 2 ⟨2, .voteResp true⟩
  r.cycled.step 2 ⟨2, .appendResp true 3 0 0⟩

theorem takenOver_log :
    (takenOver false).log.snapshotIndex = 0 ∧ (takenOver false).log.entries =
      [⟨1, 1, .noop⟩, ⟨1, 2, .config (.enterJoint (.ofList [1, 2, 3]) ∅)⟩, ⟨2, 3, .noop⟩] := by
  decide +kernel

theorem indexed_takenOver :
    Indexed (takenOver false).log.snapshotIndex (takenOver false).log.entries := by
  rw [takenOver_log.1, takenOver_log.2]
  intro position entry present
  match position with
  | 0 | 1 | 2 =>
    cases present
    rfl
  | position + 3 => cases present

end Raft

end ChronoScope.Chronolog
