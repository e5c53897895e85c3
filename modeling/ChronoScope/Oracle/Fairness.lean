import ChronoScope.Chronolog.Crashes
import ChronoScope.Chronolog.Safety
import ChronoScope.Oracle.Health
import ChronoScope.Oracle.Matching

/-!
# The oracles accuse no one wrongly

A cluster is watched while it runs: processes boot and publish, and the observer
looks at all handles at once, at any moment. A handle may be older than its node by
any amount, and the handles of one view need not be of one moment. What a handle
shows is still rooted in the protocol, and all facts about the protocol that the
oracles rely on last.
-/

namespace ChronoScope.Oracle

open List

open Chronolog (NodeId Raft Entry Cluster Setup Simulates)

open Consensus (Rollback State WithCrashes termAt)

variable {σ : Type}

/-- What a driver writes to its handle at the end of a cycle. -/
def publish (r : Raft) (digests : List (ℕ × UInt64)) (inspect : Bool) (s : PublicState) :
    PublicState :=
  let s := { s with
    node := r.id, recovered := true, role := r.role, term := r.term, commitIndex := r.commit
    appliedIndex := r.applied, lastIndex := r.log.lastIndex, persistedIndex := r.persisted
    snapshotIndex := r.log.snapshotIndex, voters := published r.log.config }
  if inspect then
    { s with
      logTerms := (r.log.entriesFrom r.log.firstIndex).map fun entry => (entry.index, entry.term)
      applyCheckpoints := digests }
  else s

/-- A cluster, the handles of its nodes, and what the observer has seen. -/
structure Watched (σ : Type) where
  cluster : Cluster σ
  handles : BTreeMap NodeId PublicState
  views : List ClusterView

/-- What happens while a cluster is watched, in any order. -/
inductive Watched.Step (setup : Setup σ) (before : Watched σ) : Watched σ → Prop where
  | act {next : Cluster σ} (acted : setup.Step before.cluster next) :
      Step setup before { before with cluster := next }
  /-- A process starts with a handle of its own, and the observer counts it. -/
  | boot (id : NodeId) : Step setup before { before with
      handles := before.handles.insert id { PublicState.initial id with
        generation := ((before.handles.get id).map fun s => s.generation + 1).getD 0 } }
  /-- A driver publishes at the end of a cycle. -/
  | publish {id : NodeId} {s : PublicState} (found : before.handles.get id = some s)
      (idle : (before.cluster.node id).busy = false) (digests : List (ℕ × UInt64)) :
      Step setup before { before with
        handles := before.handles.insert id
          (publish (before.cluster.node id).raft digests true s) }
  /-- What else a view says: whether the node is up and its driver has stopped. -/
  | mark {id : NodeId} {s : PublicState} (found : before.handles.get id = some s) (up : Bool)
      (error : Option String) : Step setup before { before with
        handles := before.handles.insert id { s with up := up, driverError := error } }
  | look : Step setup before { before with views := before.views ++ [⟨before.handles⟩] }

def Watched.start (setup : Setup σ) : Watched σ := ⟨setup.initial, ∅, []⟩

/-- What is shown of a node is rooted in the protocol, and the node still holds what it had
committed. -/
structure Genuine (state : State NodeId Entry) (id : NodeId) (s : PublicState)
    (log : List Entry) : Prop where
  rooted : state.Rooted log
  last : s.lastIndex = log.length
  commit : s.commitIndex ≤ log.length
  applied : s.appliedIndex ≤ s.commitIndex
  certified : state.Certified s.term (log.take s.commitIndex)
  term : s.term ≤ state.term id
  held : log.take s.commitIndex <+: state.log id
  rising : s.Rising
  terms : ∀ shown ∈ s.logTerms, termAt log shown.1 = some shown.2

namespace Genuine

variable {setup : Setup σ} {cluster : Cluster σ} {state after : State NodeId Entry}
  {id other : NodeId} {s s' : PublicState} {log log' : List Entry}

theorem publish (simulates : Simulates setup .fixed cluster state) (id : NodeId)
    (digests : List (ℕ × UInt64)) (s : PublicState) :
    Genuine state id (publish (cluster.node id).raft digests true s) (state.log id) := by
  have inv := simulates.inv
  have tracks := simulates.tracks id
  have commit_le := tracks.commit_le inv
  have certified := tracks.certified inv
  rw [simulates.id id] at commit_le certified
  have represents := simulates.represents id
  have shown : (Oracle.publish (cluster.node id).raft digests true s).logTerms =
      ((state.log id).drop (cluster.node id).raft.log.snapshotIndex).map
        fun entry => (entry.index, entry.term) := by
    exact congrArg (map _) (represents.entriesFrom (Nat.lt_succ_self _))
  have indexed := represents.indexed
  refine ⟨inv.log_rooted id, represents.lastIndex, commit_le, tracks.applied_commit, certified,
    (simulates.term_eq id).ge, take_prefix .., ?_, ?_⟩
  · rw [PublicState.Rising, shown, pairwise_map, pairwise_iff_getElem]
    intro i j hi hj below
    have first := indexed _ _ (getElem?_drop ▸ getElem?_eq_getElem hi)
    have second := indexed _ _ (getElem?_drop ▸ getElem?_eq_getElem hj)
    omega
  · rw [shown]
    intro held member
    rcases mem_map.mp member with ⟨entry, present, rfl⟩
    rcases getElem?_of_mem present with ⟨position, isEntry⟩
    rw [getElem?_drop] at isEntry
    rw [indexed _ _ isEntry, Nat.zero_add]
    exact Option.map_eq_some_iff.mpr ⟨entry, isEntry, rfl⟩

theorem blank (state : State NodeId Entry) (id : NodeId) (generation : ℕ) :
    Genuine state id { PublicState.initial id with generation := generation } [] :=
  ⟨Or.inl rfl, rfl, le_rfl, le_rfl, Or.inl rfl, Nat.zero_le _, List.nil_prefix, .nil,
    by simp [PublicState.initial]⟩

theorem steps (genuine : Genuine state id s log) {rules : Consensus.Rules NodeId Entry}
    (inv : Consensus.Invariant rules state) (steps : Consensus.Steps rules other state after) :
    Genuine after id s log :=
  { genuine with
    rooted := (steps.grows inv).rooted genuine.rooted
    certified := (steps.grows inv).certified inv genuine.certified
    term := genuine.term.trans (steps.term_le id)
    held := steps.isPrefix_of_certified inv genuine.certified genuine.term genuine.held }

/-- What was shown as committed is within the log the node has now. -/
theorem commit_le (genuine : Genuine state id s log) : s.commitIndex ≤ (state.log id).length := by
  have := genuine.held.length_le
  rwa [length_take, Nat.min_eq_left genuine.commit] at this

section

variable {rules : Consensus.Rules NodeId Entry} (inv : Consensus.Invariant rules state)
  (genuine : Genuine state id s log) (genuine' : Genuine state other s' log')

include inv genuine genuine'

theorem committed_eq {index first second : ℕ} (shown : (index, first) ∈ s.logTerms)
    (upTo : index ≤ s.commitIndex) (shown' : (index, second) ∈ s'.logTerms)
    (upTo' : index ≤ s'.commitIndex) : first = second := by
  have ours := genuine.terms _ shown
  have theirs := genuine'.terms _ shown'
  rw [← Consensus.termAt_take upTo] at ours
  rw [← Consensus.termAt_take upTo'] at theirs
  rcases inv.certified_comparable genuine.certified genuine'.certified with below | below
  · rw [Consensus.termAt_of_isPrefix below (Consensus.le_length_of_termAt ours), ours] at theirs
    exact Option.some.inj theirs
  · rw [Consensus.termAt_of_isPrefix below (Consensus.le_length_of_termAt theirs), theirs] at ours
    exact (Option.some.inj ours).symm

theorem not_clash : ¬ s.Clash s' := by
  rintro ⟨low, high, term, left, right, below, highShown, highShown', shown, shown', differ⟩
  have agree := inv.take_eq_take_of_termAt genuine.rooted genuine'.rooted
    (genuine.terms _ highShown) (genuine'.terms _ highShown')
  have ours := genuine.terms _ shown
  rw [← Consensus.termAt_take below.le, agree, Consensus.termAt_take below.le,
    genuine'.terms _ shown'] at ours
  exact differ (Option.some.inj ours).symm

end

end Genuine

/-- All that was ever shown is genuine, and no process has shown a log that ends below what
earlier views show as committed. -/
structure Watched.Honest (setup : Setup σ) (watched : Watched σ) (state : State NodeId Entry) :
    Prop where
  simulates : Simulates setup .fixed watched.cluster state
  handles : ∀ id s, watched.handles.get id = some s → ∃ log, Genuine state id s log
  views : ∀ view ∈ watched.views, ∀ id s, view.nodes.get id = some s →
    ∃ log, Genuine state id s log
  kept : ∀ view ∈ watched.views, ∀ id old s, view.nodes.get id = some old →
    watched.handles.get id = some s → s.recovered = true → old.commitIndex ≤ s.lastIndex
  whole : ¬ LostAtOnce watched.views

namespace Watched.Honest

variable {setup : Setup σ} {watched after : Watched σ} {state : State NodeId Entry}

theorem initial (setup : Setup σ) : (start setup).Honest setup (State.initial NodeId Entry) where
  simulates := .initial setup .fixed
  handles _ _ found := by cases found
  views _ member := by cases member
  kept _ member := by cases member
  whole := by
    rintro ⟨before, view, after, split, _⟩
    simp [start] at split

/-- A handle is written. -/
theorem write (honest : watched.Honest setup state) {id : NodeId} {s : PublicState}
    {log : List Entry} (genuine : Genuine state id s log)
    (kept : s.recovered = true → ∀ view ∈ watched.views, ∀ old,
      view.nodes.get id = some old → old.commitIndex ≤ s.lastIndex) :
    Honest setup { watched with handles := watched.handles.insert id s } state := by
  refine { honest with handles := ?_, kept := ?_ }
  · intro other shown found
    rw [BTreeMap.get_insert] at found
    split_ifs at found with same
    · cases found
      exact ⟨log, same ▸ genuine⟩
    · exact honest.handles other shown found
  · intro view member other old shown isOld found recovered
    rw [BTreeMap.get_insert] at found
    split_ifs at found with same
    · cases found
      exact kept recovered view member old (same ▸ isOld)
    · exact honest.kept view member other old shown isOld found recovered

theorem look (honest : watched.Honest setup state) :
    Honest setup { watched with views := watched.views ++ [⟨watched.handles⟩] } state := by
  refine { honest with views := ?_, kept := ?_, whole := ?_ }
  · intro view member id s found
    rcases mem_append.mp member with earlier | isNew
    · exact honest.views view earlier id s found
    · cases mem_singleton.mp isNew
      exact honest.handles id s found
  · intro view member id old s isOld found recovered
    rcases mem_append.mp member with earlier | isNew
    · exact honest.kept view earlier id old s isOld found recovered
    · cases mem_singleton.mp isNew
      cases isOld.symm.trans found
      rcases honest.handles id old isOld with ⟨log, genuine⟩
      exact genuine.commit.trans genuine.last.ge
  · rw [lostAtOnce_concat]
    rintro (earlier | ⟨⟨id, s⟩, member, recovered, _, _, view, isView, old, isOld, _, _, lost⟩)
    · exact honest.whole earlier
    · have := honest.kept view isView id old s isOld (BTreeMap.mem_toList.mp member) recovered
      simp only at lost
      omega

theorem step (honest : watched.Honest setup state) (step : Step setup watched after) :
    ∃ state', after.Honest setup state' := by
  cases step with
  | act acted =>
    rcases acted with ⟨action, acted⟩
    rcases honest.simulates.event (setup.event_of_act acted) (Or.inl rfl) with
      ⟨state', steps, simulates⟩
    have lasts : ∀ id s, (∃ log, Genuine state id s log) → ∃ log, Genuine state' id s log :=
      fun id s shown => shown.imp fun log genuine => genuine.steps honest.simulates.inv steps
    exact ⟨state', simulates, fun id s found => lasts id s (honest.handles id s found),
      fun view member id s found => lasts id s (honest.views view member id s found),
      honest.kept, honest.whole⟩
  | boot id => exact ⟨state, honest.write (.blank state id _) (by simp [PublicState.initial])⟩
  | @publish id s found idle digests =>
    refine ⟨state, honest.write (.publish honest.simulates id digests s) ?_⟩
    intro _ view member old isOld
    rcases honest.views view member id old isOld with ⟨log, genuine⟩
    exact genuine.commit_le.trans (Genuine.publish honest.simulates id digests s).last.ge
  | @mark id s found up error =>
    rcases honest.handles id s found with ⟨log, genuine⟩
    refine ⟨state, honest.write { genuine with } ?_⟩
    exact fun recovered view member old isOld => honest.kept view member id old s isOld found
      recovered
  | look => exact ⟨state, honest.look⟩

end Watched.Honest

namespace Watched

variable (setup : Setup σ)

/-- A node crashes, at any time but in the middle of a cycle. -/
def Crash (id : NodeId) (before after : Watched σ) : Prop :=
  ∃ next, setup.Crash id before.cluster next ∧ after = { before with cluster := next }

/-- Any number of steps and crashes from the beginning. -/
def Reachable : Watched σ → Prop :=
  Relation.ReflTransGen (WithCrashes (Step setup) (Crash setup)) (start setup)

variable {setup} {watched : Watched σ}

theorem onwards {later : Cluster σ} (onwards : setup.Reaches watched.cluster later) :
    Relation.ReflTransGen (Step setup) watched { watched with cluster := later } := by
  induction onwards with
  | refl => exact .refl
  | tail _ step ih => exact ih.tail (.act step)

theorem Reachable.act (reached : watched.Reachable setup) {later : Cluster σ}
    (acted : setup.Reaches watched.cluster later) :
    Reachable setup { watched with cluster := later } :=
  Relation.ReflTransGen.trans reached
    (Relation.ReflTransGen.mono (fun _ _ => Or.inl) _ _ (onwards acted))

theorem Reachable.step {after : Watched σ} (reached : watched.Reachable setup)
    (step : Step setup watched after) : after.Reachable setup :=
  Relation.ReflTransGen.tail reached (Or.inl step)

/-- The observer does not see what a node was fed since its last cycle. -/
theorem rollback (setup : Setup σ) : Rollback (Step setup) (Crash setup)
    (fun id back watched => ∃ cluster, setup.RolledBack id cluster watched.cluster ∧
      back = { watched with cluster := cluster }) (fun _ _ => True) (start setup) where
  initially _ := ⟨_, Setup.rolledBack_of_idle rfl, rfl⟩
  along := by
    rintro id _ watched after ⟨cluster, rolled, rfl⟩ step
    cases step with
    | act acted =>
      rcases rolled.along acted with ⟨ahead, steps, isAhead⟩ | idle
      · exact Or.inl ⟨_, @onwards _ setup { watched with cluster := cluster } _ steps, _, isAhead,
          rfl⟩
      · exact Or.inr ⟨_, idle, rfl⟩
    | boot other => exact Or.inl ⟨_, .single (.boot other), cluster, rolled, rfl⟩
    | @publish other s found idle digests =>
      have same := rolled.sameIdle other idle
      rw [← same] at idle ⊢
      exact Or.inl ⟨_, .single (@Step.publish _ setup { watched with cluster := cluster } _ _ found
        idle digests), cluster, rolled, rfl⟩
    | mark found up error =>
      exact Or.inl ⟨_, .single (@Step.mark _ setup { watched with cluster := cluster } _ _ found up
        error), cluster, rolled, rfl⟩
    | look => exact Or.inl ⟨_, .single .look, cluster, rolled, rfl⟩
  recovers := by
    rintro id _ watched _ ⟨cluster, rolled, rfl⟩ ⟨next, crashed, rfl⟩
    exact @onwards _ setup { watched with cluster := cluster } _
      (setup.rollback.recovers rolled crashed)
  refl _ := trivial
  trans _ _ := trivial
  keeps _ := trivial

theorem Reachable.honest (reached : watched.Reachable setup) :
    ∃ state, watched.Honest setup state := by
  replace reached := (rollback setup).reaches reached
  induction reached with
  | refl => exact ⟨_, .initial setup⟩
  | tail _ step ih =>
    rcases ih with ⟨state, honest⟩
    exact honest.step step

/-- Of each view, which process of a node it shows and what that has committed. -/
def seen (watched : Watched σ) (id : NodeId) : List (Option (ℕ × ℕ)) :=
  watched.views.map fun view => (view.nodes.get id).map fun s => (s.generation, s.commitIndex)

end Watched

/-- Two of three nodes are looked at after they have committed an entry, and again after the first
of them was fed a tick and has crashed. -/
theorem exists_watched : ∃ watched, Watched.Reachable Chronolog.ThreeNodes.setup watched ∧
    watched.seen 0 = [some (0, 1), some (1, 0)] ∧ watched.seen 1 = [some (0, 1), some (0, 1)] := by
  have committed : Watched.Reachable Chronolog.ThreeNodes.setup _ :=
    Watched.Reachable.act .refl Chronolog.ThreeNodes.reaches_commit
  have first := (committed.step (.boot 0)).step
    (.publish (BTreeMap.get_insert.trans (if_pos rfl)) (by decide +kernel) [])
  have both := (first.step (.boot 1)).step
    (.publish (BTreeMap.get_insert.trans (if_pos rfl)) (by decide +kernel) [])
  have fed := (both.step .look).act
    (Chronolog.ThreeNodes.setup.reaches_play _ [.input 0 (.tick 0)])
  have crashed : Watched.Reachable Chronolog.ThreeNodes.setup _ :=
    fed.tail (Or.inr ⟨0, _, rfl, rfl⟩)
  have again := (crashed.step (.boot 0)).step
    (.publish (BTreeMap.get_insert.trans (if_pos rfl)) rfl [])
  exact ⟨_, again.step .look, by decide +kernel, by decide +kernel⟩

variable {setup : Setup σ} {watched : Watched σ}

/-- The oracles that remember earlier views accuse no cluster of fixed membership: neither Leader
Completeness nor Durability is ever recorded as violated, however nodes crash and come back. -/
theorem memory_accuses_no_one (setup : Setup σ) {watched : Watched σ}
    (reached : watched.Reachable setup) :
    (Invariants.observe watched.views).records .leaderCompleteness = false ∧
      (Invariants.observe watched.views).records .durability = false := by
  rcases reached.honest with ⟨state, honest⟩
  have sorted : Sorted watched.views := by
    intro view member id s found
    rcases honest.views view member id s found with ⟨_, genuine⟩
    exact genuine.rising.imp fun below => below.le
  rw [← Bool.not_eq_true, ← Bool.not_eq_true, (observe_leaderCompleteness sorted).1,
    (observe_durability watched.views).1]
  refine ⟨?_, honest.whole⟩
  rintro ⟨index, first, second, differ, ⟨view, member, id, s, found, shown, upTo⟩,
    view', member', id', s', found', shown', upTo'⟩
  rcases honest.views view member id s found with ⟨_, genuine⟩
  rcases honest.views view' member' id' s' found' with ⟨_, genuine'⟩
  exact differ (genuine.committed_eq honest.simulates.inv genuine' shown upTo shown' upTo')

theorem memory_accuses_no_one_threeNodes : ∃ watched : Watched Chronolog.Bytes,
    (watched.seen 0 = [some (0, 1), some (1, 0)] ∧ watched.seen 1 = [some (0, 1), some (0, 1)]) ∧
      (Invariants.observe watched.views).records .leaderCompleteness = false ∧
      (Invariants.observe watched.views).records .durability = false := by
  rcases exists_watched with ⟨watched, reached, looked⟩
  exact ⟨watched, looked, memory_accuses_no_one _ reached⟩

namespace Invariants

variable {view : ClusterView} {inv : Invariants}

theorem logMatching_eq (rising : ∀ id s, view.nodes.get id = some s → s.Rising)
    (agree : ∀ left right a b, view.nodes.get left = some a → view.nodes.get right = some b →
      ¬ a.Clash b) : inv.logMatching view = inv := by
  have nodup : (view.nodes.toList.filter fun node => !node.2.logTerms.isEmpty).Nodup :=
    (view.nodes.sorted.imp fun below same => below.ne (congrArg Prod.fst same)).filter _
  have none : ((pairs (view.nodes.toList.filter fun node => !node.2.logTerms.isEmpty)).findSome?
      fun pair => mismatch pair.1 pair.2) = none := by
    rw [findSome?_eq_none_iff]
    rintro ⟨⟨left, a⟩, ⟨right, b⟩⟩ paired
    rcases mem_of_mem_pairs nodup paired with ⟨isLeft, isRight, _⟩
    have isLeft := BTreeMap.mem_toList.mp (mem_of_mem_filter isLeft)
    have isRight := BTreeMap.mem_toList.mp (mem_of_mem_filter isRight)
    rw [← Option.not_isSome_iff_eq_none,
      mismatch_isSome_iff (rising left a isLeft) (rising right b isRight)]
    exact agree left right a b isLeft isRight
  simp only [logMatching, none]

theorem commitIsBackedByALog_eq (backed : ∀ id s, view.nodes.get id = some s →
    s.commitIndex ≤ s.lastIndex ∧ s.appliedIndex ≤ s.commitIndex) :
    inv.commitIsBackedByALog view = inv := by
  refine foldlRecOn _ _ (motive := (· = inv)) rfl fun sofar same node member => ?_
  rcases backed node.1 node.2 (BTreeMap.mem_toList.mp member) with ⟨inLog, inCommit⟩
  simp only [if_neg inLog.not_gt, if_neg inCommit.not_gt]
  exact same

/-- The properties of single views. -/
def ofOneView : List Property := [.logMatching, .commitBeyondLog, .appliedBeyondCommit]

/-- The other checks record other properties. -/
theorem records_check (matched : ∀ inv, logMatching inv view = inv)
    (backed : ∀ inv, commitIsBackedByALog inv view = inv) {property : Property}
    (judged : property ∈ ofOneView) : (inv.check view).records property = inv.records property := by
  have differs {other : Property} (spared : other ∉ ofOneView) : other ≠ property :=
    fun same => spared (same ▸ judged)
  have counted : Keeps property inv { inv with checks := inv.checks + 1 } :=
    ⟨rfl, fun _ => rfl, fun _ => rfl⟩
  rw [check, backed, matched]
  exact (counted.trans <| (driverAlive_keeps (differs (by decide))).trans <|
    (durability_keeps (differs (by decide))).trans <|
    (electionSafety_keeps (differs (by decide))).trans <|
    (monotonicity_keeps (differs (by decide)) (differs (by decide))).trans <|
    (stateMachineSafety_keeps (differs (by decide))).trans <|
    leaderCompleteness_keeps (differs (by decide))).records

end Invariants

/-- The oracles that look at one view alone accuse no cluster of fixed membership either, although
the nodes of a view are not shown as of one moment. -/
theorem views_accuse_no_one (setup : Setup σ) {watched : Watched σ}
    (reached : watched.Reachable setup) : ∀ property ∈ Invariants.ofOneView,
      (Invariants.observe watched.views).records property = false := by
  intro property judged
  rcases reached.honest with ⟨state, honest⟩
  refine foldlRecOn watched.views _
    (motive := fun inv : Invariants => inv.records property = false) rfl ?_
  intro inv unrecorded view member
  rw [Invariants.records_check (fun inv => ?_) (fun inv => ?_) judged]
  · exact unrecorded
  · refine Invariants.logMatching_eq (fun id s found => ?_) fun left right a b isLeft isRight => ?_
    · rcases honest.views view member id s found with ⟨_, genuine⟩
      exact genuine.rising
    · rcases honest.views view member left a isLeft with ⟨_, ours⟩
      rcases honest.views view member right b isRight with ⟨_, theirs⟩
      exact ours.not_clash honest.simulates.inv theirs
  · refine Invariants.commitIsBackedByALog_eq fun id s found => ?_
    rcases honest.views view member id s found with ⟨_, genuine⟩
    exact ⟨genuine.commit.trans genuine.last.ge, genuine.applied⟩

theorem views_accuse_no_one_threeNodes : ∃ watched : Watched Chronolog.Bytes,
    (watched.seen 0 = [some (0, 1), some (1, 0)] ∧ watched.seen 1 = [some (0, 1), some (0, 1)]) ∧
      (Invariants.observe watched.views).records .logMatching = false := by
  rcases exists_watched with ⟨watched, reached, looked⟩
  exact ⟨watched, looked, views_accuse_no_one _ reached _ (by decide)⟩

end ChronoScope.Oracle
