import ChronoScope.Chronolog.Raft

/-!
# The configuration across compaction and restart

The configuration is replayed from a base, so whoever moves the base has to know
what the replay needs of it. A sequence of changes amounts to one of four
effects (`Effect`): two of them read the voters or the outgoing voters of the
base, one reads nothing of it. Compaction moves the base to the applied index
but records the configuration at the end of the log; a restart without a
snapshot starts from an empty base. For both, the effect of the changes in the
log decides whether the configuration comes out the same.
-/

namespace ChronoScope.Chronolog

open Log (Indexed)

/-- What a sequence of configuration changes amounts to. -/
inductive Effect where
  | keep
  /-- The outgoing voters are dropped. -/
  | leave
  /-- The voters of the base become the outgoing voters. -/
  | enter (incoming learners : BTreeSet NodeId)
  /-- The result does not depend on the base. -/
  | settle (result : Config)
  deriving DecidableEq

namespace Effect

def apply : Effect → Config → Config
  | keep, cfg => cfg
  | leave, cfg => { cfg with outgoing := ∅ }
  | enter incoming learners, cfg =>
    { voters := incoming, outgoing := cfg.voters, learners := learners }
  | settle result, _ => result

/-- The effect of one more change. -/
def andThen : Effect → ConfigChange → Effect
  | keep, .leaveJoint => leave
  | leave, .leaveJoint => leave
  | enter incoming learners, .leaveJoint =>
    settle { voters := incoming, outgoing := ∅, learners := learners }
  | settle result, .leaveJoint => settle { result with outgoing := ∅ }
  | keep, .enterJoint incoming learners => enter incoming learners
  | leave, .enterJoint incoming learners => enter incoming learners
  | enter displaced _, .enterJoint incoming learners =>
    settle { voters := incoming, outgoing := displaced, learners := learners }
  | settle result, .enterJoint incoming learners =>
    settle { voters := incoming, outgoing := result.voters, learners := learners }

def ofEntries (entries : List Entry) : Effect :=
  entries.foldl (fun effect entry =>
    match entry.kind with
    | .config change => effect.andThen change
    | _ => effect) keep

theorem apply_andThen (effect : Effect) (change : ConfigChange) (cfg : Config) :
    (effect.andThen change).apply cfg = applyChange (effect.apply cfg) change := by
  cases effect <;> cases change <;> rfl

theorem apply_ofEntries (entries : List Entry) (cfg : Config) :
    (ofEntries entries).apply cfg = entries.foldl Log.applyEntry cfg := by
  induction entries using List.reverseRecOn with
  | nil => rfl
  | append_singleton entries entry ih =>
    simp only [ofEntries, List.foldl_append, List.foldl_cons, List.foldl_nil] at ih ⊢
    rw [← ih, Log.applyEntry]
    cases entry.kind with
    | config change => exact apply_andThen ..
    | noop => rfl
    | normal => rfl

/-- Applying the effect to this configuration changes nothing. -/
def Fixes : Effect → Config → Prop
  | keep, _ => True
  | leave, cfg => cfg.outgoing = ∅
  | enter incoming learners, cfg =>
    incoming = cfg.voters ∧ cfg.outgoing = cfg.voters ∧ learners = cfg.learners
  | settle result, cfg => result = cfg

theorem apply_eq_iff {effect : Effect} {cfg : Config} :
    effect.apply cfg = cfg ↔ effect.Fixes cfg := by
  rcases cfg with ⟨voters, outgoing, learners⟩
  cases effect with
  | keep => simp [apply, Fixes]
  | leave => simp [apply, Fixes, eq_comm]
  | enter incoming entrants => simp [apply, Fixes, eq_comm]
  | settle result => simp [apply, Fixes]

end Effect

namespace Log

theorem config_eq_apply (log : Log) :
    log.config = (Effect.ofEntries log.entries).apply log.snapshotConfig :=
  (Effect.apply_ofEntries log.entries log.snapshotConfig).symm

end Log

namespace Raft

def configAt (r : Raft) (index : ℕ) : Config := (r.log.truncateFrom (index + 1)).config

/-- Compacting to the snapshot changes the configuration neither now nor after any
truncation that keeps what is applied. -/
def KeepsConfig (r : Raft) (snap : Snapshot) : Prop :=
  (r.compact snap).config = r.config ∧
    ∀ index ≥ r.applied, (r.compact snap).configAt index = r.configAt index

theorem applied_le_of_taken {r : Raft} {data : Bytes} {snap : Snapshot}
    (taken : r.snapshotAtApplied data = some snap) (above : r.log.snapshotIndex < r.applied) :
    r.applied ≤ r.log.lastIndex := by
  rcases Option.map_eq_some_iff.mp taken with ⟨term, known, _⟩
  exact Log.le_of_termAt_eq_some above known

theorem configAt_of_le {r : Raft} (indexed : Indexed r.log.snapshotIndex r.log.entries)
    (below : ℕ) {index : ℕ} (above : r.log.snapshotIndex ≤ below) (order : below ≤ index) :
    r.configAt index =
      ((r.log.entries.drop (below - r.log.snapshotIndex)).take (index - below)).foldl
        Log.applyEntry (r.configAt below) := by
  have split : index - r.log.snapshotIndex = below - r.log.snapshotIndex + (index - below) := by
    omega
  simp only [configAt, Log.truncateFrom_of_indexed indexed above,
    Log.truncateFrom_of_indexed indexed (above.trans order), Log.config]
  rw [split, List.take_add, List.foldl_append]

theorem config_eq_foldl {r : Raft} (indexed : Indexed r.log.snapshotIndex r.log.entries)
    (below : ℕ) (above : r.log.snapshotIndex ≤ below) :
    r.config = (r.log.entries.drop (below - r.log.snapshotIndex)).foldl Log.applyEntry
      (r.configAt below) := by
  simp only [configAt, Log.truncateFrom_of_indexed indexed above, Log.config, Raft.config]
  rw [← List.foldl_append, List.take_append_drop]

/-- Compaction keeps the configuration exactly if there is nothing to compact or the
configuration changes above the applied index leave the configuration as of that index as it
is. -/
theorem keepsConfig_iff (r : Raft) (indexed : Indexed r.log.snapshotIndex r.log.entries)
    (data : Bytes) (snap : Snapshot) (taken : r.snapshotAtApplied data = some snap) :
    r.KeepsConfig snap ↔
      r.applied ≤ r.log.snapshotIndex ∨
        (Effect.ofEntries (r.log.entries.filter fun entry =>
          decide (r.applied < entry.index))).Fixes
          (r.configAt r.applied) := by
  have snapIs : snap.lastIndex = r.applied ∧ snap.config = r.config := by
    rcases Option.map_eq_some_iff.mp taken with ⟨term, _, rfl⟩
    exact ⟨rfl, rfl⟩
  rcases Nat.lt_or_ge r.log.snapshotIndex r.applied with above | covered
  · have compacted : (r.compact snap).log =
        { snapshotIndex := r.applied, snapshotTerm := snap.lastTerm, snapshotConfig := r.config,
          entries := r.log.entries.drop (r.applied - r.log.snapshotIndex) } := by
      rw [Raft.compact, snapIs.1, snapIs.2]
      exact Log.compactThrough_of_indexed indexed above (applied_le_of_taken taken above)
    have indexedAfter : Indexed (r.compact snap).log.snapshotIndex
        (r.compact snap).log.entries := by
      have := indexed.drop (r.applied - r.log.snapshotIndex)
      rw [Nat.add_sub_cancel' above.le] at this
      rw [compacted]
      exact this
    have baseAfter : (r.compact snap).configAt r.applied = r.config := by
      rw [configAt, Log.truncateFrom_of_indexed indexedAfter (by rw [compacted]), compacted]
      simp [Log.config]
    rw [indexed.filter_gt, ← Effect.apply_eq_iff, Effect.apply_ofEntries,
      ← config_eq_foldl indexed r.applied above.le]
    constructor
    · rintro ⟨_, keeps⟩
      exact Or.inr (baseAfter.symm.trans (keeps r.applied le_rfl))
    · rintro (covered | same)
      · omega
      · have configAfter (index : ℕ) (order : r.applied ≤ index) :
            (r.compact snap).configAt index = r.configAt index := by
          rw [configAt_of_le indexedAfter r.applied (by rw [compacted]) order,
            configAt_of_le indexed r.applied above.le order, baseAfter, same, compacted]
          simp
        refine ⟨?_, configAfter⟩
        rw [config_eq_foldl indexedAfter r.applied (by rw [compacted]),
          config_eq_foldl indexed r.applied above.le, baseAfter, same, compacted]
        simp
  · have unchanged : r.compact snap = r := by
      rw [Raft.compact, Log.compactThrough, snapIs.1, if_pos covered]
    rw [KeepsConfig, unchanged]
    exact ⟨fun _ => Or.inl covered, fun _ => ⟨rfl, fun _ _ => rfl⟩⟩

/-- Node 0, alone so far, has logged at index 2 that node 1 takes over. -/
def handingOver (applied : ℕ) : Raft :=
  { new 0 (.simple [0]) .default with
    term := 1
    log := (Log.bootstrap (.simple [0])).append
      [{ term := 1, index := 1, kind := .noop },
        { term := 1, index := 2, kind := .config (.enterJoint (.ofList [1]) ∅) }]
    commit := applied
    applied := applied }

def handingOverSnapshot (applied : ℕ) : Snapshot :=
  { lastIndex := applied, lastTerm := 1, config := (handingOver applied).config, data := [] }

theorem indexed_handingOver (applied : ℕ) :
    Indexed (handingOver applied).log.snapshotIndex (handingOver applied).log.entries := by
  intro position entry present
  match position with
  | 0 =>
    cases present
    rfl
  | 1 =>
    cases present
    rfl
  | position + 2 => cases present

/-- With the change logged but not applied, the voters of the base are lost: after compaction
node 1 counts as outgoing, and node 0 not at all. -/
theorem handingOver_one_not_keepsConfig :
    (handingOver 1).snapshotAtApplied [] = some (handingOverSnapshot 1) ∧
      ¬ (handingOver 1).KeepsConfig (handingOverSnapshot 1) :=
  ⟨by decide +kernel, fun keeps => absurd keeps.1 (by decide +kernel)⟩

theorem handingOver_two_keepsConfig : (handingOver 2).KeepsConfig (handingOverSnapshot 2) :=
  (keepsConfig_iff _ (indexed_handingOver 2) [] _ (by decide +kernel)).mpr (Or.inr trivial)

end Raft

/-- The logs a node bootstrapped with a configuration can hold in memory, with the latest
snapshot on its disk. -/
inductive Reached (bootstrap : Config) : Log → Option Snapshot → Prop where
  | bootstrap : Reached bootstrap (.bootstrap bootstrap) none
  | append {log : Log} {saved : Option Snapshot} (entries : List Entry)
      (follows : Indexed log.lastIndex entries) (reached : Reached bootstrap log saved) :
      Reached bootstrap (log.append entries) saved
  | merge {log : Log} {saved : Option Snapshot} (prevIndex : ℕ) (entries : List Entry)
      (follows : Indexed prevIndex entries) (above : log.snapshotIndex ≤ prevIndex)
      (present : prevIndex ≤ log.lastIndex) (reached : Reached bootstrap log saved) :
      Reached bootstrap (log.merge prevIndex entries).1 saved
  | truncate {log : Log} {saved : Option Snapshot} (start : ℕ)
      (reached : Reached bootstrap log saved) : Reached bootstrap (log.truncateFrom start) saved
  | install {log : Log} {saved : Option Snapshot} (snap : Snapshot)
      (news : log.snapshotIndex < snap.lastIndex) (reached : Reached bootstrap log saved) :
      Reached bootstrap (log.installSnapshot snap) (some snap)
  | compact {log : Log} {saved : Option Snapshot} (snap : Snapshot)
      (news : log.snapshotIndex < snap.lastIndex) (present : snap.lastIndex ≤ log.lastIndex)
      (reached : Reached bootstrap log saved) :
      Reached bootstrap (log.compactThrough snap.lastIndex snap.lastTerm snap.config) (some snap)

/-- The base a log is replayed from: the saved snapshot, or the bootstrap configuration. -/
structure Based (bootstrap : Config) (log : Log) (saved : Option Snapshot) : Prop where
  indexed : Indexed log.snapshotIndex log.entries
  fresh : saved = none → log.snapshotIndex = 0 ∧ log.snapshotConfig = bootstrap
  saved : ∀ snap, saved = some snap →
    log.snapshotIndex = snap.lastIndex ∧ log.snapshotConfig = snap.config

theorem Reached.based {bootstrap : Config} {log : Log} {saved : Option Snapshot}
    (reached : Reached bootstrap log saved) : Based bootstrap log saved := by
  induction reached with
  | bootstrap =>
    exact ⟨fun _ _ present => (nomatch present), fun _ => ⟨rfl, rfl⟩,
      fun _ found => nomatch found⟩
  | append entries follows _ ih =>
    refine { ih with indexed := ih.indexed.append ?_ }
    rwa [← Log.lastIndex_of_indexed ih.indexed]
  | @merge log saved prevIndex entries follows above present _ ih =>
    rcases Log.Represents.merge_base log prevIndex entries with ⟨sameIndex, _, sameConfig⟩
    refine ⟨?_, ?_, ?_⟩
    · unfold Log.merge
      split
      · exact ih.indexed
      · exact Log.indexed_mergeLoop ih.indexed follows above present
    · rw [sameIndex, sameConfig]
      exact ih.fresh
    · rw [sameIndex, sameConfig]
      exact ih.saved
  | @truncate log saved start _ ih =>
    rcases Log.Represents.truncateFrom_base log start with ⟨sameIndex, _, sameConfig⟩
    refine ⟨Log.indexed_truncateFrom ih.indexed start, ?_, ?_⟩
    · rw [sameIndex, sameConfig]
      exact ih.fresh
    · rw [sameIndex, sameConfig]
      exact ih.saved
  | @install log saved snap news _ ih =>
    rw [Log.installSnapshot]
    split_ifs with known
    · rw [Log.compactThrough_of_indexed ih.indexed news (Log.le_of_termAt_eq_some news known)]
      refine ⟨?_, fun missing => (nomatch missing), fun _ found => ?_⟩
      · have := ih.indexed.drop (snap.lastIndex - log.snapshotIndex)
        rwa [Nat.add_sub_cancel' news.le] at this
      · cases found
        exact ⟨rfl, rfl⟩
    · refine ⟨fun _ _ present => (nomatch present), fun missing => (nomatch missing),
        fun _ found => ?_⟩
      cases found
      exact ⟨rfl, rfl⟩
  | @compact log saved snap news present _ ih =>
    rw [Log.compactThrough_of_indexed ih.indexed news present]
    refine ⟨?_, fun missing => (nomatch missing), fun _ found => ?_⟩
    · have := ih.indexed.drop (snap.lastIndex - log.snapshotIndex)
      rwa [Nat.add_sub_cancel' news.le] at this
    · cases found
      exact ⟨rfl, rfl⟩

/-- Whether replaying this effect after a restart gives the configuration from before. Without
a snapshot, the voters an unfinished change displaced must be none; with one, the fallback to the
bootstrap configuration must not be taken or make no difference. -/
def Effect.Survives (bootstrap : Config) : Option Snapshot → Effect → Prop
  | none, .enter incoming _ => incoming = ∅ ∨ bootstrap.voters = ∅
  | none, _ => True
  | some snap, .keep => snap.config.voters ≠ ∅ ∨ bootstrap = snap.config
  | some snap, .leave => snap.config.voters ≠ ∅ ∨
      (bootstrap.voters = ∅ ∧ bootstrap.learners = snap.config.learners)
  | some snap, .enter incoming _ => incoming ≠ ∅ ∨ bootstrap.voters = snap.config.voters
  | some _, .settle _ => True

theorem restore_config {bootstrap : Config} {log : Log} {saved : Option Snapshot}
    (based : Based bootstrap log saved) (id : NodeId) (opts : RaftOptions) (hard : HardState) :
    (Raft.restore id opts hard saved log.entries bootstrap).config =
      let effect := Effect.ofEntries log.entries
      let recovered := effect.apply ((saved.map Snapshot.config).getD .default)
      if recovered.voters.isEmpty then effect.apply bootstrap else recovered := by
  have indexed : Indexed (Log.restore saved log.entries).snapshotIndex log.entries := by
    cases saved with
    | none =>
      have := based.indexed
      rwa [(based.fresh rfl).1] at this
    | some snap =>
      rw [Log.restore, ← (based.saved snap rfl).1]
      exact based.indexed
  have recoveredEntries : (Log.restore saved log.entries).entries = log.entries := by
    cases saved <;> rfl
  have recoveredBase : (Log.restore saved log.entries).snapshotConfig =
      (saved.map Snapshot.config).getD .default := by
    cases saved <;> rfl
  have recoveredConfig := (Log.restore saved log.entries).config_eq_apply
  rw [recoveredEntries, recoveredBase] at recoveredConfig
  simp only [Raft.config, Raft.restore, recoveredConfig]
  split_ifs with noVoters
  · rw [Log.entriesFrom_one (by rwa [recoveredEntries]), recoveredEntries, Log.config_eq_apply]
    rfl
  · exact recoveredConfig

/-- The log of a cluster of three whose leader has started to move to nodes 3, 4 and 5, and has
finished if `done`. -/
def movingLog (done : Bool) : Log :=
  (Log.bootstrap (.simple [0, 1, 2])).append
    ({ term := 1, index := 1, kind := .config (.enterJoint (.ofList [3, 4, 5]) ∅) } ::
      if done then [{ term := 1, index := 2, kind := .config .leaveJoint }] else [])

theorem reached_movingLog (done : Bool) : Reached (.simple [0, 1, 2]) (movingLog done) none := by
  apply Reached.append _ _ .bootstrap
  intro position entry present
  match done, position with
  | _, 0 =>
    cases present
    rfl
  | true, 1 =>
    cases present
    rfl
  | false, position + 1 => cases present
  | true, position + 2 => cases present

end ChronoScope.Chronolog
