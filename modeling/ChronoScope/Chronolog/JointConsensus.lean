import ChronoScope.Chronolog.Fleet
import ChronoScope.Chronolog.Reconfiguration
import ChronoScope.Chronolog.Safety

/-!
# Safety across membership changes

A leader that proposes a configuration change takes an action of the protocol: the
change fits the configuration its log stands for, and its check for changes above
the commit index is what the protocol asks of it. So a run in which the membership
changes is simulated by the protocol as well, as long as logs stay whole, and no
two nodes lead one term even though they count votes under different
configurations.
-/

namespace ChronoScope.Chronolog

open Consensus (State Invariant Steps)

variable {σ : Type}

section Proposals

variable {machine : StateMachine σ} {charter : Charter} {state : State NodeId Entry}
  {disk : Durable} {image : σ} {r : Raft}

theorem Entry.isConfig_of_not_plain {entry : Entry} (changes : ¬entry.Plain) :
    entry.isConfig = true := by
  rcases not_forall_not.mp changes with ⟨change, isChange⟩
  simp [isConfig, isChange]

section

variable (tracks : Tracks machine charter state disk image r)

include tracks

/-- A leader that finds no change above its commit index knows every change to be committed. -/
theorem Tracks.settled (settled : r.Settled) :
    charter.rules.Settled (state.log r.id) (state.commit r.id) := by
  intro index entry present changes
  rw [tracks.commit]
  by_contra above
  have covered := tracks.snapshot_applied.trans tracks.applied_commit
  have inFlight : entry ∈ r.log.entriesFrom (r.commit + 1) := by
    rw [tracks.log.entriesFrom (by omega), Nat.add_sub_cancel]
    apply List.mem_of_getElem? (i := index - r.commit)
    rw [List.getElem?_drop, Nat.add_sub_cancel' (Nat.not_lt.mp above)]
    exact present
  exact List.any_eq_false.mp settled entry inFlight (Entry.isConfig_of_not_plain changes)

theorem Refines.resetProgressForConfig (isLeader : r.role = .leader) :
    Refines machine charter state disk image r r.resetProgressForConfig := by
  apply Refines.of_tracks rfl
  apply tracks.keepMatched isLeader
  intro peer p found other
  rcases resetProgress_cases found other with old | new
  · exact tracks.matched isLeader peer p old other
  · rw [new]
    exact Or.inl rfl

theorem Refines.proposeConfig (inv : Invariant charter.rules state)
    (changing : charter.roster = .changing) (change : ConfigChange) :
    Refines machine charter state disk image r (r.proposeConfig change).2 := by
  rcases Raft.proposeConfig_cases r change with
    ⟨_, refused⟩ | ⟨⟨isLeader, fits, settled⟩, _, _, accepted⟩
  · rw [refused]
    exact .refl tracks
  rw [accepted]
  have fitsNext : charter.rules.Fits (state.log r.id) (r.changeEntry change) := by
    refine ⟨congrArg (· + 1) tracks.log.lastIndex, ?_⟩
    intro proposed isChange
    cases isChange
    exact ⟨changing, tracks.config_eq ▸ fits⟩
  have appends := Refines.appendEntry tracks inv isLeader (r.changeEntry change) rfl fitsNext
    fun _ => tracks.settled settled
  have resets := appends.trans inv fun _ _ _ tracks' =>
    Refines.resetProgressForConfig tracks' isLeader
  apply resets.trans inv
  intro middle _ invMiddle tracksMiddle
  let reset := (r.appendToOwnLog [r.changeEntry change]).resetProgressForConfig
  have stillLeads : reset.role = .leader := isLeader
  have sends : reset.Calms none reset.broadcastAppend := .broadcastAppend stillLeads
  rcases tracksMiddle.moves (P := fun _ _ => True) invMiddle (by rintro _ _ ⟨⟩) trivial
    (fun _ _ _ _ _ _ _ _ => trivial) sends.moves with ⟨sameId, after, steps, tracksAfter, _⟩
  exact ⟨sameId, after, steps, tracksAfter⟩

theorem Refines.maybeFinishConfigChange (inv : Invariant charter.rules state)
    (changing : charter.roster = .changing) :
    Refines machine charter state disk image r r.maybeFinishConfigChange.2 := by
  unfold Raft.maybeFinishConfigChange
  split_ifs
  · exact .refl tracks
  · exact .refl tracks
  · exact .refl tracks
  · exact .proposeConfig tracks inv changing .leaveJoint

end

end Proposals

/-- Neither compacts, nor ships a snapshot, nor restarts. -/
def Deed.keepsLog : Deed → Bool
  | .act action => action.keepsLog
  | .proposeConfig .. => true
  | .finishConfig _ => true
  | .crash .. => false

namespace Simulates

variable {setup : Setup σ} {cluster : Cluster σ} {state : State NodeId Entry}

theorem refines (simulates : Simulates setup .changing cluster state) {id : NodeId} {r' : Raft}
    {busy : Bool} (refines : Refines setup.machine (setup.charter .changing) state
      (cluster.node id).disk (cluster.node id).machine (cluster.node id).raft r') :
    ∃ after, Steps (setup.charter .changing).rules id state after ∧ Simulates setup .changing
      (Setup.place cluster id { cluster.node id with raft := r', busy := busy }) after := by
  rcases refines with ⟨sameId, after, steps, tracks⟩
  rw [simulates.id id] at steps sameId
  exact ⟨after, steps, simulates.place steps sameId tracks nofun⟩

theorem perform (simulates : Simulates setup .changing cluster state) {deed : Deed}
    {next : Cluster σ} (keeps : deed.keepsLog = true)
    (done : setup.perform cluster deed = some next) :
    ∃ after, state.Grows after ∧ Simulates setup .changing next after := by
  have inv := simulates.inv
  have simulated : ∃ after, Steps (setup.charter .changing).rules deed.actor state after ∧
      Simulates setup .changing next after := by
    cases deed with
    | act action => exact simulates.event (setup.event_of_act done) (Or.inr keeps)
    | proposeConfig id change =>
      cases done
      exact simulates.refines (.proposeConfig (simulates.tracks id) inv rfl change)
    | finishConfig id =>
      cases done
      exact simulates.refines (.maybeFinishConfigChange (simulates.tracks id) inv rfl)
    | crash => cases keeps
  rcases simulated with ⟨after, steps, simulates'⟩
  exact ⟨after, steps.grows inv, simulates'⟩

end Simulates

namespace Setup.Run

variable {setup : Setup σ}

theorem simulated {now : Cluster σ} {past : List (Cluster σ)}
    (run : setup.Run (fun _ deed => deed.keepsLog = true) (now :: past)) :
    ∃ state, Simulates setup .changing now state ∧
      ∀ early ∈ past, ∃ before, Simulates setup .changing early before ∧ before.Grows state := by
  apply Setup.Run.holds (P := fun now past => ∃ state, Simulates setup .changing now state ∧
    ∀ early ∈ past, ∃ before, Simulates setup .changing early before ∧ before.Grows state) _ _ run
  · exact ⟨_, .initial setup .changing, nofun⟩
  · rintro now next past deed ⟨state, simulates, earlier⟩ keeps done
    rcases simulates.perform keeps done with ⟨after, grows, simulates'⟩
    refine ⟨after, simulates', ?_⟩
    intro early member
    rcases List.mem_cons.mp member with rfl | older
    · exact ⟨state, simulates, grows⟩
    · rcases earlier early older with ⟨before, simulatesEarly, growsEarly⟩
      exact ⟨before, simulatesEarly, growsEarly.trans grows⟩

theorem related {states : List (Cluster σ)}
    (run : setup.Run (fun _ deed => deed.keepsLog = true) states)
    {left right : Cluster σ} (leftSeen : left ∈ states) (rightSeen : right ∈ states) :
    ∃ leftState rightState, Simulates setup .changing left leftState ∧
      Simulates setup .changing right rightState ∧
        (leftState.Grows rightState ∨ rightState.Grows leftState) := by
  induction run with
  | start =>
    obtain rfl := List.mem_singleton.mp leftSeen
    obtain rfl := List.mem_singleton.mp rightSeen
    exact ⟨_, _, .initial setup .changing, .initial setup .changing, Or.inl (.refl _)⟩
  | step run keeps done ih =>
    rcases simulated (.step run keeps done) with ⟨state, simulates, earlier⟩
    rcases List.mem_cons.mp leftSeen with rfl | leftEarlier
    · rcases List.mem_cons.mp rightSeen with rfl | rightEarlier
      · exact ⟨state, state, simulates, simulates, Or.inl (.refl state)⟩
      · rcases earlier right rightEarlier with ⟨before, simulatesRight, grows⟩
        exact ⟨state, before, simulates, simulatesRight, Or.inr grows⟩
    · rcases List.mem_cons.mp rightSeen with rfl | rightEarlier
      · rcases earlier left leftEarlier with ⟨before, simulatesLeft, grows⟩
        exact ⟨before, state, simulatesLeft, simulates, Or.inl grows⟩
      · exact ih leftEarlier rightEarlier

end Setup.Run

namespace Moving

def entering : Entry :=
  { term := 1, index := 2, kind := .config (.enterJoint (.ofList [1, 2, 3]) ∅) }

def leaving : Entry := { term := 1, index := 3, kind := .config .leaveJoint }

/-- Node 0 is elected by the nodes 0, 1 and 2, moves the cluster to the nodes 1, 2 and 3 and
completes the move once it is committed. -/
def script : List Deed :=
  [.act (.input 0 (.tick 0)), .act (.input 0 (.tick 0)), .act (.cycle 0),
    .act (.input 1 (.message 0 ⟨1, .voteReq 0 0⟩)), .act (.cycle 1),
    .act (.input 0 (.message 1 ⟨1, .voteResp true⟩)), .act (.cycle 0),
    .proposeConfig 0 (.enterJoint (.ofList [1, 2, 3]) ∅), .act (.cycle 0),
    .act (.input 1 (.message 0 ⟨1, .appendReq 0 0 [ThreeNodes.opening, entering] 0⟩)),
    .act (.cycle 1),
    .act (.input 2 (.message 0 ⟨1, .appendReq 0 0 [ThreeNodes.opening, entering] 0⟩)),
    .act (.cycle 2),
    .act (.input 0 (.message 1 ⟨1, .appendResp true 2 0 0⟩)),
    .act (.input 0 (.message 2 ⟨1, .appendResp true 2 0 0⟩)), .act (.cycle 0),
    .finishConfig 0, .act (.cycle 0)]

def moved : Cluster Bytes × List (Cluster Bytes) :=
  ThreeNodes.setup.trail (fun _ deed => deed.keepsLog = true) script

theorem moved_long : 10 < moved.2.length := by decide +kernel

def elected : Cluster Bytes := moved.2.get ⟨10, moved_long⟩

theorem elected_mem : elected ∈ moved.2 := List.get_mem _ _

end Moving

/-- No two nodes ever lead the same term, be it at the same time or at different times of a run,
whatever changes of the membership are proposed and completed in it. -/
theorem Setup.Run.one_leader_per_term (setup : Setup σ) {states : List (Cluster σ)}
    (run : setup.Run (fun _ deed => deed.keepsLog = true) states) {left right : Cluster σ}
    (leftSeen : left ∈ states) (rightSeen : right ∈ states) {first second : NodeId}
    (firstLeads : (left.node first).raft.role = .leader)
    (secondLeads : (right.node second).raft.role = .leader)
    (sameTerm : (left.node first).raft.term = (right.node second).raft.term) : first = second := by
  rcases run.related leftSeen rightSeen with
    ⟨leftState, rightState, leftSimulates, rightSimulates, order⟩
  have firstLeader := (leftSimulates.leads firstLeads).1
  have secondLeader := (rightSimulates.leads secondLeads).1
  rw [← sameTerm] at secondLeader
  rcases order with grows | grows
  · have led : leftState.leader (left.node first).raft.term ≠ none := by simp [firstLeader]
    have same := grows.leader led
    rw [firstLeader, secondLeader] at same
    exact (Option.some.inj same).symm
  · have led : rightState.leader (left.node first).raft.term ≠ none := by simp [secondLeader]
    have same := grows.leader led
    rw [firstLeader, secondLeader] at same
    exact Option.some.inj same

theorem one_leader_per_term_moving :
    (Moving.elected.node 0).raft.log.entries = [ThreeNodes.opening] ∧
      (Moving.moved.1.node 0).raft.log.entries =
        [ThreeNodes.opening, Moving.entering, Moving.leaving] ∧ (0 : NodeId) = 0 :=
  ⟨by decide +kernel, by decide +kernel,
    Setup.Run.one_leader_per_term ThreeNodes.setup (ThreeNodes.setup.run_trail _ Moving.script)
      (List.mem_cons_of_mem _ Moving.elected_mem) (List.mem_cons_self ..)
      (by decide +kernel) (by decide +kernel) (by decide +kernel)⟩

end ChronoScope.Chronolog
