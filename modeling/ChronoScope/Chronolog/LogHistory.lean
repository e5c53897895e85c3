import Mathlib.Logic.Relation
import ChronoScope.Chronolog.Restart

/-!
# A history of the log

A node uses its log: it appends, syncs, truncates, saves snapshots and hard
states, starts over after a snapshot or compacts behind one. At any request of
any of these operations, and of recovery as well, the power may fail. Writes may
be refused because the disk is full.

Entries that were synced are returned by recovery until they are removed. What
recovery returns is a run of entries that were appended. The run connects to the
snapshot under one condition: segments in front that may lose all their records
are not followed by one that starts behind the snapshot and may keep some.
-/

namespace ChronoScope.Chronolog

open List

open Sim

open Disk (carryOut returns_carryOut returns_carryOut_run)

inductive Call where
  | append (entries : List Entry)
  | sync
  | truncateFrom (start : ℕ)
  | saveSnapshot (snap : Snapshot)
  | saveHardState (hs : HardState)
  | resetTo (index : ℕ)
  | compactThrough (through : ℕ)

def Call.program : Call → WalM Unit
  | append entries => Wal.append entries
  | sync => Wal.sync
  | truncateFrom start => Wal.truncateFrom start
  | saveSnapshot snap => Wal.saveSnapshot snap
  | saveHardState hs => Wal.saveHardState hs
  | resetTo index => Wal.resetTo index
  | compactThrough through => Wal.compactThrough through

structure LogRun where
  /-- The log, while the node is up. -/
  up : Option Wal
  disk : Disk FileName
  /-- The entries that were ever to be appended. -/
  appended : List Entry
  /-- The entries in the log. -/
  log : List Entry
  /-- The entries that were in the log when a `sync` returned, unless a later operation was to
  remove them. -/
  synced : List Entry
  /-- The snapshot saved or recovered last. -/
  snapshot : Option Snapshot

variable {after : Disk FileName} {parts : List Part} {recovered : Option Saved}

/-- A segment with a single entry that carries nothing. -/
def Segment.alone (index : ℕ) : Segment :=
  { firstIndex := index, lastIndex := index, size := 25, offsets := [0], dirty := false }

namespace Wal

def recoveredWith (opts : WalOptions) (segments : List Segment) (entries : List Entry) :
    Recovered where
  wal := { opts, segments, stateSeq := 0, snapshotSlot := 0, snapshotSeq := 0 }
  hardState := .default
  snapshot := none
  entries := entries
  tail := .clean

/-- A log with segments of one record each, on a new disk. -/
def small : Recovered := recoveredWith { segmentBytes := 1, compactSlackBytes := 0 } [.fresh 1] []

end Wal

namespace LogRun

def start : LogRun :=
  { up := none, disk := ∅, appended := [], log := [], synced := [], snapshot := none }

def issue (run : LogRun) : Call → LogRun
  | .append entries => { run with appended := run.appended ++ entries }
  | .truncateFrom start =>
    { run with synced := run.synced.filter fun entry => decide (entry.index < start) }
  | .resetTo _ => { run with synced := [] }
  | _ => run

def complete (run : LogRun) : Call → LogRun
  | .append entries => { run with log := run.log ++ entries }
  | .sync => { run with synced := run.synced ++ run.log }
  | .truncateFrom start =>
    { run with log := run.log.filter fun entry => decide (entry.index < start) }
  | .resetTo _ => { run with log := [] }
  | .saveSnapshot snap => { run with snapshot := some snap }
  | _ => run

/-- The operations a node may begin: appends continue the log, snapshots do not go back, the
log starts over only behind the last snapshot, and is compacted only where that covers it.
Entries and snapshots fit their integer types, and bodies are at most `maxRecord` bytes long. -/
def Admits (run : LogRun) (wal : Wal) : Call → Prop
  | .append entries => Numbered (wal.lastIndex + 1) entries ∧ ∀ entry ∈ entries, entry.Storable
  | .saveSnapshot snap => Storable (wal.snapshotSeq + 1, snap) ∧
      ∀ old, run.snapshot = some old → old.lastIndex ≤ snap.lastIndex
  | .resetTo index => ∃ snap, run.snapshot = some snap ∧ snap.lastIndex = index
  | .compactThrough through => ∃ snap, run.snapshot = some snap ∧ through ≤ snap.lastIndex
  | _ => True

/-- What may happen, if power fails only on disks for which `mayFail` says so. -/
inductive Step (mayFail : LogRun → Disk FileName → Prop) : LogRun → LogRun → Prop where
  | returns {run : LogRun} {wal wal' : Wal} {call : Call} {after : Disk FileName}
      (isUp : run.up = some wal) (admits : run.Admits wal call)
      (returns : Prog.Returns (Disk.Answers .space) (call.program.run.run wal) run.disk
        (.ok (), wal') after) :
      Step mayFail run ({ run.issue call with up := some wal', disk := after }.complete call)
  | fails {run : LogRun} {wal wal' : Wal} {call : Call} {after : Disk FileName} {failure : Failure}
      (isUp : run.up = some wal) (admits : run.Admits wal call)
      (returns : Prog.Returns (Disk.Answers .space) (call.program.run.run wal) run.disk
        (.error failure, wal') after) :
      Step mayFail run { run.issue call with up := some wal', disk := after }
  | cut {run : LogRun} {wal : Wal} {call : Call} {visited after : Disk FileName} {sector : ℕ}
      (isUp : run.up = some wal) (admits : run.Admits wal call)
      (visits : Prog.Visits (Disk.Answers .space) (call.program.run.run wal) run.disk visited)
      (may : mayFail run visited) (crash : Crash sector visited after) :
      Step mayFail run { run.issue call with up := none, disk := after }
  | opens {run : LogRun} {opts : WalOptions} {recovered : Recovered} {after : Disk FileName}
      (isDown : run.up = none) (positive : 0 < opts.segmentBytes)
      (returns : Prog.Returns (Disk.Answers .space) (Wal.open opts).run run.disk
        (.ok recovered) after) :
      Step mayFail run { run with up := some recovered.wal, disk := after,
                                  log := recovered.entries, snapshot := recovered.snapshot }
  | openCut {run : LogRun} {opts : WalOptions} {visited after : Disk FileName} {sector : ℕ}
      (isDown : run.up = none)
      (visits : Prog.Visits (Disk.Answers .space) (Wal.open opts).run run.disk visited)
      (may : mayFail run visited) (crash : Crash sector visited after) :
      Step mayFail run { run with disk := after }

/-- A power loss may leave something of the file. -/
def MayHold (file : FileState) : Prop :=
  file.durable ≠ [] ∨ ∃ offset data, .write offset data ∈ file.pending

/-- A segment that may hold a record, while none below it has one that is durable, starts right
behind the snapshot, or before. -/
def Rooted (run : LogRun) (disk : Disk FileName) : Prop :=
  ∀ first file, segmentFiles disk first = some file → MayHold file →
    (∀ lower other, lower < first → segmentFiles disk lower = some other →
      (scan other.durable lower).1 = []) →
    first ≤ (run.snapshot.map Snapshot.lastIndex).getD 0 + 1

theorem mayHold_of_survives {file : FileState} {image : Bytes} (survives : Survives file image)
    (some : image ≠ []) : MayHold file := by
  by_contra nothing
  rw [MayHold, not_or, not_not] at nothing
  have truncates : ∀ op ∈ file.pending, ∃ len, op = .truncate len := by
    intro op member
    cases op with
    | write offset data => exact absurd ⟨offset, data, member⟩ nothing.2
    | truncate len => exact ⟨len, rfl⟩
  rcases survives.1 with ⟨_, lands⟩
  have isPrefix := lands.isPrefix_of_truncates truncates
  rw [nothing.1, prefix_nil] at isPrefix
  exact some isPrefix

theorem Rooted.begins {run : LogRun} {promise : Promise} {visited : Disk FileName}
    {target target' sector : ℕ} {base : Option Saved} {firm : Part → List Entry}
    (rooted : run.Rooted visited) (recoverable : RecoverableBy promise visited parts target base)
    (crash : Crash sector visited after)
    (raises : ∀ part ∈ parts, part.firm <+: firm part ∧ firm part <+: part.all)
    (crashed : Crashed promise after
    (parts.map fun part => part.raise (firm part)) target' recovered) :
    Begins ((run.snapshot.map Snapshot.lastIndex).getD 0)
      (parts.map fun part => part.raise (firm part)) := by
  intro lower raised rest split empty isFirm
  rcases map_eq_append_iff.mp split with ⟨below, others, rfl, rfl, behind⟩
  rcases map_eq_cons_iff.mp behind with ⟨part, above, rfl, rfl, rfl⟩
  have isPart : part ∈ below ++ part :: above := by simp
  rcases recoverable.laid.yields part isPart with ⟨file, found, _⟩
  refine rooted part.first file found ?_ ?_
  · rcases crash.get found with ⟨image, survives, isRebooted⟩
    rcases crashed.readable _ (mem_map_of_mem isPart) with
      ⟨file', _, found', _, scanned, _⟩
    cases isRebooted.symm.trans found'
    refine mayHold_of_survives survives fun nothing => isFirm ?_
    have present : records (part.raise (firm part)).firm <+: image := scanned.present
    rw [nothing, prefix_nil] at present
    cases isList : (part.raise (firm part)).firm with
    | nil => rfl
    | cons entry entries =>
      rw [isList, records_cons] at present
      exact absurd (append_eq_nil_iff.mp present).1
        (ne_nil_of_length_pos (length_record_pos entry))
  · intro first other less there
    have member := (recoverable.laid.exact first).mp (by rw [there]; rfl)
    rcases mem_map.mp member with ⟨lower, isLower, rfl⟩
    have rising := recoverable.laid.rising
    rw [pairwise_append, pairwise_cons] at rising
    have isBelow : lower ∈ below := by
      rcases mem_append.mp isLower with isBelow | isAbove
      · exact isBelow
      · rcases mem_cons.mp isAbove with rfl | isAbove
        · exact absurd less (lt_irrefl _)
        · exact absurd (rising.2.1.1 lower isAbove).1 less.asymm
    rcases recoverable.laid.yields lower isLower with ⟨file', found', yields⟩
    cases there.symm.trans found'
    have nothing : firm lower = [] := empty _ (mem_map_of_mem isBelow)
    have isPrefix := (raises lower isLower).1
    rw [nothing, prefix_nil] at isPrefix
    exact yields.starts isPrefix

/-- Recovery may find what was appended, and has to find what was synced. -/
def promise (run : LogRun) : Promise where
  appended entry := entry ∈ run.appended
  kept entry := entry ∈ run.synced
  spared := Covered
  snaps _ := True
  spares := by
    rintro base found entry reaches ⟨old, isOld, le⟩
    exact ⟨found, rfl, le.trans (reaches old isOld)⟩

structure UpBy (run : LogRun) (wal : Wal) (pieces : List Piece) (base : Option Saved) : Prop where
  running : Running run.promise wal run.disk pieces base
  keeps : run.promise.Keeps (pieces.map Piece.part) base
  positive : 0 < wal.opts.segmentBytes
  log : ∀ entry ∈ run.log, entry ∈ contents pieces ∨ Covered base entry
  snapshot : run.snapshot = base.map Prod.snd

structure DownBy (mayFail : LogRun → Disk FileName → Prop) (run : LogRun) (parts : List Part)
    (target : ℕ) (base : Option Saved) : Prop where
  crashed : Crashed run.promise run.disk parts target base
  reaches : (run.snapshot.map Snapshot.lastIndex).getD 0 ≤ coveredTo base
  begins : (∀ run disk, mayFail run disk → run.Rooted disk) → Begins (coveredTo base) parts

def Holds (mayFail : LogRun → Disk FileName → Prop) (run : LogRun) : Prop :=
  (∃ wal pieces base, run.up = some wal ∧ run.UpBy wal pieces base) ∨
    run.up = none ∧ ∃ parts target base, run.DownBy mayFail parts target base

def Follows (run : LogRun) (call : Call) (result : Except Failure Unit) (wal : Wal)
    (after : Disk FileName) : Prop :=
  ∃ pieces base, match result with
    | .ok () =>
      ({ run.issue call with up := some wal, disk := after }.complete call).UpBy wal pieces base
    | .error _ => UpBy { run.issue call with up := some wal, disk := after } wal pieces base

end LogRun

theorem Running.imp {promise promise' : Promise} {wal : Wal} {disk : Disk FileName}
    {pieces : List Piece} {base : Option Saved} (running : Running promise wal disk pieces base)
    (appended : ∀ entry, promise.appended entry → promise'.appended entry)
    (snaps : ∀ snap, promise.snaps snap → promise'.snaps snap) :
    Running promise' wal disk pieces base := by
  refine ⟨⟨running.sound.pieced, running.sound.slotted.mono ?_, running.sound.state, ?_,
    snaps _ running.sound.snaps⟩, running.nonempty, running.segments, running.seq⟩
  · exact fun found allowed => ⟨snaps _ allowed.1, allowed.2⟩
  · exact fun piece isPiece entry member =>
      appended entry (running.sound.appended piece isPiece entry member)

variable {entries : List Entry}

namespace LogRun.UpBy

variable {run : LogRun} {wal : Wal} {pieces : List Piece} {base : Option Saved}

section

variable (up : run.UpBy wal pieces base)

include up

theorem covered {snap : Snapshot} (isSaved : run.snapshot = some snap) {entry : Entry}
    (le : entry.index ≤ snap.lastIndex) : Covered base entry := by
  have same := up.snapshot.symm.trans isSaved
  cases base with
  | none => cases same
  | some saved =>
    cases same
    exact ⟨saved, rfl, le⟩

theorem extended {pieces' : List Piece}
    (running : Running (run.issue (.append entries)).promise
    { wal with segments := pieces'.map Piece.seg } after pieces' base)
    (keeps : (run.issue (.append entries)).promise.Keeps (pieces'.map Piece.part) base)
    (grows : Extends wal.opts.segmentBytes entries pieces entries pieces') (own : Option Wal) :
    ({ run.issue (.append entries) with up := own, disk := after }.complete (.append entries)).UpBy
      { wal with segments := pieces'.map Piece.seg } pieces' base := by
  refine ⟨running, keeps, up.positive, ?_, up.snapshot⟩
  intro entry member
  rw [grows.contents_eq]
  rcases mem_append.mp member with old | isNew
  · exact (up.log entry old).imp_left (mem_append_left _)
  · exact Or.inl (mem_append_right _ isNew)

theorem append_runs (admits : run.Admits wal (.append entries)) :
    Routine.Runs (Disk.Answers .space) (Recoverable (run.issue (.append entries)).promise base)
      (Wal.append entries) (run.Follows (.append entries)) wal run.disk := by
  have running : Running (run.issue (.append entries)).promise wal run.disk pieces base :=
    up.running.imp (fun entry member => mem_append_left _ member) fun _ => id
  refine (Chronolog.append_runs (fun failing => failing) up.positive running up.keeps admits.2
    (fun entry member => mem_append_right _ member)
    fun after guarded => guarded.recoverable).follow ?_
  rintro result wal' after _ ⟨pieces', rfl, running, keeps, _, outcome⟩
  refine ⟨pieces', base, ?_⟩
  cases result with
  | ok => exact up.extended running keeps outcome _
  | error failure =>
    refine ⟨running, keeps, up.positive, ?_, up.snapshot⟩
    rw [outcome.2.1]
    exact up.log

theorem secured
    (running : Running run.promise
    { wal with segments := (pieces.map Piece.synced).map Piece.seg } after
    (pieces.map Piece.synced) base)
    (own : Option Wal) :
    ({ run with up := own, disk := after }.complete .sync).UpBy
      { wal with segments := (pieces.map Piece.synced).map Piece.seg } (pieces.map Piece.synced)
      base := by
  have whole : ∀ piece ∈ pieces.map Piece.synced, piece.rest = [] := by
    intro piece member
    rcases mem_map.mp member with ⟨_, _, rfl⟩
    rfl
  refine ⟨running.imp (fun _ => id) fun _ => id, ?_, up.positive, ?_, up.snapshot⟩
  · intro entry member
    rw [running.sound.pieced.secure_eq whole, contents_synced]
    rcases mem_append.mp member with old | isNew
    · exact (up.keeps entry old).imp_left mem_contents_of_secure
    · exact up.log entry isNew
  · rw [contents_synced]
    exact up.log

theorem sync_runs :
    Routine.Runs (Disk.Answers .space) (Recoverable run.promise base) Wal.sync
      (run.Follows .sync) wal run.disk := by
  refine (Chronolog.sync_runs (fun failing => failing) up.running ?_).follow ?_
  · rintro front back after rfl sound _
    exact sound.recoverable up.keeps.synced
  · rintro _ wal' after _ ⟨rfl, rfl, running, _⟩
    exact ⟨_, base, up.secured running _⟩

theorem truncateFrom_runs (start : ℕ) :
    Routine.Runs (Disk.Answers .space) (Recoverable (run.issue (.truncateFrom start)).promise base)
      (Wal.truncateFrom start) (run.Follows (.truncateFrom start)) wal run.disk := by
  have running : Running (run.issue (.truncateFrom start)).promise wal run.disk pieces base :=
    up.running.imp (fun _ => id) fun _ => id
  have keeps : (run.issue (.truncateFrom start)).promise.Keeps (pieces.map Piece.part) base :=
    fun entry isKept => up.keeps entry (mem_of_mem_filter isKept)
  have below : ∀ entry, (run.issue (.truncateFrom start)).promise.kept entry →
      entry.index < start ∨ Covered base entry := by
    intro entry isKept
    have isBefore := (List.mem_filter.mp isKept).2
    exact Or.inl (by simpa using isBefore)
  refine (Chronolog.truncateFrom_runs (fun failing => failing) running keeps below).mono
    (fun _ guarded => guarded.recoverable) ?_
  rintro _ wal' after _ ⟨rfl, pieces', truncated⟩
  refine ⟨pieces', base, truncated.running, truncated.keeps, ?_, ?_, up.snapshot⟩
  · rw [truncated.own]
    exact up.positive
  · intro entry member
    rw [truncated.contents]
    rcases List.mem_filter.mp member with ⟨old, isBefore⟩
    exact (up.log entry old).imp_left fun inLog => List.mem_filter.mpr ⟨inLog, isBefore⟩

theorem saveSnapshot_runs {snap : Snapshot} (admits : run.Admits wal (.saveSnapshot snap)) :
    Routine.Runs (Disk.Answers .space) (Recoverable run.promise base) (Wal.saveSnapshot snap)
      (run.Follows (.saveSnapshot snap)) wal run.disk := by
  have reaches : Reaches base (wal.snapshotSeq + 1, snap) := by
    rintro old rfl
    exact admits.2 old.2 up.snapshot
  refine (up.running.saveSnapshot_runs admits.1 ⟨trivial, reaches⟩).mono ?_ ?_
  · exact fun _ underway => (up.running.underway underway).recoverable up.keeps
  · rintro result wal' after _ ⟨_, outcome⟩
    cases result with
    | ok =>
      rcases outcome with ⟨rfl, running⟩
      refine ⟨pieces, _, running.imp (fun _ => id) fun _ => id, up.keeps.reach reaches,
        up.positive,
        ?_, rfl⟩
      exact fun entry member => (up.log entry member).imp_right
        (run.promise.spares base _ entry reaches)
    | error failure =>
      rcases outcome with ⟨_, rfl, running⟩
      exact ⟨pieces, base, running, up.keeps, up.positive, up.log, up.snapshot⟩

theorem saveHardState_runs (hs : HardState) :
    Routine.Runs (Disk.Answers .space) (Recoverable run.promise base) (Wal.saveHardState hs)
      (run.Follows (.saveHardState hs)) wal run.disk := by
  rcases up.running.sound.state with ⟨image, rests⟩
  refine (up.running.saveHardState_runs (fun failing => failing) rests hs).mono ?_ ?_
  · exact fun _ underway => (up.running.sound.recoverable up.keeps).stateOnly underway.only
  · rintro result wal' after _ ⟨rfl, running, _⟩
    refine ⟨pieces, base, ?_⟩
    cases result with
    | ok => exact ⟨running, up.keeps, up.positive, up.log, up.snapshot⟩
    | error failure => exact ⟨running, up.keeps, up.positive, up.log, up.snapshot⟩

theorem resetTo_runs (index : ℕ) :
    Routine.Runs (Disk.Answers .space) (Recoverable (run.issue (.resetTo index)).promise base)
      (Wal.resetTo index) (run.Follows (.resetTo index)) wal run.disk := by
  have running : Running (run.issue (.resetTo index)).promise wal run.disk pieces base :=
    up.running.imp (fun _ => id) fun _ => id
  have nothing (entry : Entry) : ¬ (run.issue (.resetTo index)).promise.kept entry :=
    not_mem_nil
  refine (Chronolog.resetTo_runs (fun failing => failing) running
    (fun entry isKept => absurd isKept (nothing entry)) index).mono
    (fun _ guarded => guarded.recoverable) ?_
  rintro _ wal' after _ ⟨rfl, rfl, running, _⟩
  refine ⟨[.fresh (index + 1)], base, running, ?_, up.positive, ?_, up.snapshot⟩
  · exact fun entry isKept => absurd isKept (nothing entry)
  · exact fun entry member => absurd member not_mem_nil

theorem compactThrough_runs {through : ℕ} (admits : run.Admits wal (.compactThrough through)) :
    Routine.Runs (Disk.Answers .space) (Recoverable run.promise base) (Wal.compactThrough through)
      (run.Follows (.compactThrough through)) wal run.disk := by
  rcases admits with ⟨snap, isSaved, le⟩
  refine (Chronolog.compactThrough_runs (fun failing => failing) up.running up.keeps
    fun entry _ less => up.covered isSaved (less.le.trans le)).mono
    (fun _ guarded => guarded.recoverable) ?_
  rintro _ wal' after _ ⟨rfl, gone, left, rfl, superseded, rfl, running, keeps, _⟩
  refine ⟨left, base, running, keeps, up.positive, ?_, up.snapshot⟩
  intro entry member
  rcases up.log entry member with inLog | covered
  · rw [contents_append] at inLog
    rcases mem_append.mp inLog with isGone | stays
    · right
      rcases mem_flatMap.mp isGone with ⟨piece, isPiece, isEntry⟩
      have sound := up.running.sound.pieced.sound piece (mem_append_left _ isPiece)
      have := (sound.numbered.index_bounds isEntry).2
      have := sound.lastIndex
      have := superseded piece isPiece
      exact up.covered isSaved (by omega)
    · exact Or.inl stays
  · exact Or.inr covered

theorem runs {call : Call} (admits : run.Admits wal call) :
    Routine.Runs (Disk.Answers .space) (Recoverable (run.issue call).promise base) call.program
      (run.Follows call) wal run.disk := by
  cases call with
  | append entries => exact up.append_runs admits
  | sync => exact up.sync_runs
  | truncateFrom start => exact up.truncateFrom_runs start
  | saveSnapshot snap => exact up.saveSnapshot_runs admits
  | saveHardState hs => exact up.saveHardState_runs hs
  | resetTo index => exact up.resetTo_runs index
  | compactThrough through => exact up.compactThrough_runs admits

end

end LogRun.UpBy

theorem Begins.mono {through further : ℕ} (begins : Begins through parts) (le : through ≤ further) :
    Begins further parts := fun lower part rest split empty isFirm =>
  (begins lower part rest split empty isFirm).trans (Nat.succ_le_succ le)

theorem Succeeds.coveredTo_le {promise : Promise} {base : Option Saved}
    (succeeds : Succeeds promise base recovered) : coveredTo base ≤ coveredTo recovered := by
  rcases succeeds with rfl | ⟨found, rfl, allowed⟩
  · exact le_rfl
  · cases base with
    | none => exact Nat.zero_le _
    | some old => exact allowed.2 old rfl

namespace LogRun

variable {mayFail : LogRun → Disk FileName → Prop} {run run' : LogRun}

theorem crashed_start : Crashed start.promise start.disk [] 0 none := by
  have slotted : Slotted (start.promise.Allows none) (slotFiles start.disk) 0 none := by
    refine ⟨Or.inl rfl, fun _ => rfl, ?_, ?_, ?_, ?_⟩
    all_goals
      intro file found
      cases found
  refine ⟨⟨.nil fun _ => rfl, slotted, by simp, ?_, trivial⟩, by simp, rfl, ?_⟩
  · exact fun entry isKept => absurd isKept not_mem_nil
  · intro name file found
    cases found

theorem holds_start : start.Holds mayFail := by
  refine Or.inr ⟨rfl, [], 0, none, crashed_start, le_rfl, ?_⟩
  intro _ lower part rest split
  simp at split

variable {base : Option Saved}

theorem holds_crash {visited : Disk FileName} {sector : ℕ} (isDown : run'.up = none)
    (recoverable : Recoverable run'.promise base visited)
    (reaches : (run'.snapshot.map Snapshot.lastIndex).getD 0 ≤ coveredTo base)
    (may : mayFail run visited) (same : run.snapshot = run'.snapshot)
    (crash : Crash sector visited run'.disk) : run'.Holds mayFail := by
  rcases recoverable with ⟨parts, target, recoverable⟩
  rcases recoverable.crash crash with ⟨firm, target', recovered, crashed, succeeds, raises⟩
  have further := reaches.trans succeeds.coveredTo_le
  refine Or.inr ⟨isDown, _, target', recovered, crashed, further, ?_⟩
  intro isRooted
  have begins := (isRooted run visited may).begins recoverable crash raises crashed
  rw [same] at begins
  exact begins.mono further

theorem Holds.step (holds : run.Holds mayFail) (step : Step mayFail run run') :
    run'.Holds mayFail := by
  have isUpBy {wal : Wal} (isUp : run.up = some wal) : ∃ pieces base, run.UpBy wal pieces base := by
    rcases holds with ⟨wal', pieces, base, isUp', up⟩ | ⟨isDown, _⟩
    · cases isUp.symm.trans isUp'
      exact ⟨pieces, base, up⟩
    · cases isUp.symm.trans isDown
  have isDownBy (isDown : run.up = none) :
      ∃ parts target base, run.DownBy mayFail parts target base := by
    rcases holds with ⟨wal, _, _, isUp, _⟩ | ⟨_, down⟩
    · cases isUp.symm.trans isDown
    · exact down
  cases step with
  | @returns _ _ call _ isUp admits returns =>
    rcases isUpBy isUp with ⟨_, _, up⟩
    rcases (up.runs admits).returns _ _ returns with ⟨pieces, base, up'⟩
    refine Or.inl ⟨_, pieces, base, ?_, up'⟩
    cases call <;> rfl
  | fails isUp admits returns =>
    rcases isUpBy isUp with ⟨_, _, up⟩
    rcases (up.runs admits).returns _ _ returns with ⟨pieces, base, up'⟩
    exact Or.inl ⟨_, pieces, base, rfl, up'⟩
  | @cut wal call visited after sector isUp admits visits may crash =>
    rcases isUpBy isUp with ⟨_, base, up⟩
    have recoverable := (up.runs admits).visits visited visits
    have same : run.snapshot = (run.issue call).snapshot := by cases call <;> rfl
    refine @holds_crash _ run
      { run.issue call with up := none, disk := after } base visited sector
      rfl recoverable ?_ may same crash
    change ((run.issue call).snapshot.map Snapshot.lastIndex).getD 0 ≤ coveredTo base
    rw [← same, up.snapshot, Option.map_map]
    exact le_rfl
  | @opens _ recovered _ isDown positive returns =>
    rcases isDownBy isDown with ⟨parts, target, base, down⟩
    rcases (down.crashed.open_safe (fun failing => failing) _).returns _ _ returns with
      ⟨_, pieces, _, ⟨⟩, _, _, reopened⟩
    refine Or.inl ⟨_, pieces, base, rfl, reopened.running.imp (fun _ => id) fun _ => id,
      reopened.keeps, ?_, ?_, reopened.snapshot⟩
    · rw [reopened.opts]
      exact positive
    · intro entry member
      have member : entry ∈ recovered.entries := member
      rw [reopened.entries] at member
      exact Or.inl (mem_of_mem_filter member)
  | openCut isDown visits may crash =>
    rcases isDownBy isDown with ⟨parts, target, base, down⟩
    have recoverable := (down.crashed.open_safe (fun failing => failing) _).visits _ visits
    exact @holds_crash _ run
      { run with disk := _ } base _ _ isDown recoverable down.reaches may rfl
      crash

theorem holds_of_reachable (reachable : Relation.ReflTransGen (Step mayFail) start run) :
    run.Holds mayFail := by
  induction reachable with
  | refl => exact holds_start
  | tail _ step ih => exact ih.step step

theorem down_of_reachable (reachable : Relation.ReflTransGen (Step mayFail) start run)
    (isDown : run.up = none) : ∃ parts target base, run.DownBy mayFail parts target base := by
  rcases holds_of_reachable reachable with ⟨_, _, _, isUp, _⟩ | ⟨_, down⟩
  · cases isUp.symm.trans isDown
  · exact down

variable {wal : Wal}

theorem up_of_reachable (reachable : Relation.ReflTransGen (Step mayFail) start run)
    (isUp : run.up = some wal) : ∃ pieces base, run.UpBy wal pieces base := by
  rcases holds_of_reachable reachable with ⟨_, pieces, base, isUp', up⟩ | ⟨isDown, _⟩
  · cases isUp.symm.trans isUp'
    exact ⟨pieces, base, up⟩
  · cases isUp.symm.trans isDown

def noop (index : ℕ) : Entry := { term := 1, index, kind := .noop }

theorem storable_noop {index : ℕ} (fits : index < 2 ^ 64) : (noop index).Storable :=
  ⟨⟨by simp [noop], fits, trivial⟩, by simp [noop, Entry.toBytes, Entry.encode, Writer.u64,
    EntryKind.encode, Writer.u8, maxRecord]⟩

theorem admits_noops (run : LogRun) : run.Admits Wal.small.wal (.append [noop 1, noop 2]) := by
  refine ⟨⟨rfl, rfl, trivial⟩, ?_⟩
  simp [storable_noop]

theorem small_opens : Prog.Returns (Disk.Answers .space) (Wal.open Wal.small.wal.opts).run ∅
    (.ok Wal.small) (carryOut (Wal.open Wal.small.wal.opts).run ∅).2 :=
  returns_carryOut (by decide +kernel)

/-- What an append of two entries to two segments returns and leaves. -/
def spread : (Except Failure Unit × Wal) × Disk FileName :=
  carryOut ((Wal.append [noop 1, noop 2]).run.run Wal.small.wal)
    (carryOut (Wal.open Wal.small.wal.opts).run ∅).2

theorem spread_returns : Prog.Returns (Disk.Answers .space)
    ((Wal.append [noop 1, noop 2]).run.run Wal.small.wal)
    (carryOut (Wal.open Wal.small.wal.opts).run ∅).2 (.ok (), spread.1.2) spread.2 :=
  returns_carryOut_run (by decide +kernel)

/-- The entries are in two segments, and both are synced when the power fails. -/
theorem exists_synced (lenient : ∀ run disk, Rooted run disk → mayFail run disk) :
    ∃ run, Relation.ReflTransGen (Step mayFail) start run ∧ run.up = none ∧
      run.appended = [noop 1, noop 2] ∧ run.synced = [noop 1, noop 2] := by
  have syncs : Prog.Returns (Disk.Answers .space) (Wal.sync.run.run spread.1.2) spread.2
      (.ok (), _) _ := returns_carryOut_run (by decide +kernel)
  have firstSegment : segmentFiles (carryOut (Wal.sync.run.run spread.1.2) spread.2).2 1 =
      some (.rebooted (record (noop 1))) := by decide +kernel
  have found : (scan (FileState.rebooted (record (noop 1))).durable 1).1 ≠ [] := by decide +kernel
  generalize (carryOut (Wal.sync.run.run spread.1.2) spread.2).2 = disk at syncs firstSegment
  have rooted (run : LogRun) : mayFail run disk := by
    refine lenient run disk fun first file _ _ nothing => ?_
    by_contra above
    exact found (nothing 1 _ (by omega) firstSegment)
  have opened := @Step.opens mayFail start _ _ _ rfl (by decide) small_opens
  exact ⟨_, (((Relation.ReflTransGen.single opened).tail
    (.returns rfl (admits_noops _) spread_returns)).tail
      (@Step.returns mayFail _ _ _ .sync _ rfl trivial syncs)).tail
        (@Step.cut mayFail _ _ .sync _ _ _ rfl trivial (.here ..) (rooted _)
          (crash_durable 1 disk)),
    rfl, rfl, rfl⟩

/-- Recovery returns every entry that was synced and not removed since, or a snapshot that covers
it. -/
theorem synced_returned
    (reachable : Relation.ReflTransGen (Step fun _ _ => True) start run) (isDown : run.up = none)
    (opts : WalOptions) :
    (∃ result after,
      Prog.Returns (Disk.Answers .space) (Wal.open opts).run run.disk result after) ∧
    ∀ result after,
      Prog.Returns (Disk.Answers .space) (Wal.open opts).run run.disk result after →
      ∃ recovered, result = .ok recovered ∧ ∀ entry ∈ run.synced, entry ∈ recovered.entries ∨
        ∃ snap, recovered.snapshot = some snap ∧ entry.index ≤ snap.lastIndex := by
  refine ⟨Disk.exists_returns .., ?_⟩
  intro result after returns
  rcases down_of_reachable reachable isDown with ⟨parts, target, base, down⟩
  rcases (down.crashed.open_safe (fun failing => failing) opts).returns _ _ returns with
    ⟨recovered, pieces, _, rfl, _, _, reopened⟩
  refine ⟨recovered, rfl, ?_⟩
  intro entry isSynced
  rw [reopened.entries, reopened.snapshot]
  rcases reopened.keeps entry isSynced with isSecure | ⟨saved, rfl, le⟩
  · by_cases behind : entry.index > coveredTo base
    · exact Or.inl (List.mem_filter.mpr ⟨mem_contents_of_secure isSecure, by simpa using behind⟩)
    · right
      cases base with
      | none =>
        have := reopened.running.sound.pieced.index_pos (mem_contents_of_secure isSecure)
        exact absurd this behind
      | some saved => exact ⟨saved.2, rfl, Nat.le_of_not_gt behind⟩
  · exact Or.inr ⟨saved.2, rfl, le⟩

theorem synced_once_found : ∃ run recovered after,
    Relation.ReflTransGen (Step fun _ _ => True) start run ∧ run.synced = [noop 1, noop 2] ∧
    Prog.Returns (Disk.Answers .space) (Wal.open .default).run run.disk (.ok recovered) after ∧
    ∀ entry ∈ run.synced, entry ∈ recovered.entries ∨
      ∃ snap, recovered.snapshot = some snap ∧ entry.index ≤ snap.lastIndex := by
  have lenient (run : LogRun) (disk : Disk FileName) (_ : run.Rooted disk) : True := trivial
  rcases exists_synced lenient with ⟨run, reachable, isDown, _, isSynced⟩
  rcases synced_returned reachable isDown .default with ⟨⟨result, after, returns⟩, found⟩
  rcases found result after returns with ⟨recovered, rfl, all⟩
  exact ⟨run, recovered, after, reachable, isSynced, returns, all⟩

/-- If power fails only on rooted disks, recovery returns a run of entries that were appended,
and the run starts right behind the snapshot. -/
theorem returned_without_hole
    (reachable : Relation.ReflTransGen (Step Rooted) start run) (isDown : run.up = none)
    (opts : WalOptions) :
    (∃ result after,
      Prog.Returns (Disk.Answers .space) (Wal.open opts).run run.disk result after) ∧
    ∀ result after,
      Prog.Returns (Disk.Answers .space) (Wal.open opts).run run.disk result after →
      ∃ recovered, result = .ok recovered ∧ (∀ entry ∈ recovered.entries, entry ∈ run.appended) ∧
        Numbered ((recovered.snapshot.map Snapshot.lastIndex).getD 0 + 1) recovered.entries := by
  refine ⟨Disk.exists_returns .., ?_⟩
  intro result after returns
  rcases down_of_reachable reachable isDown with ⟨parts, target, base, down⟩
  rcases (down.crashed.open_safe (fun failing => failing) opts).returns _ _ returns with
    ⟨recovered, pieces, taken, rfl, isPrefix, takes, reopened⟩
  refine ⟨recovered, rfl, ?_,
    reopened.numbered down.crashed isPrefix takes (down.begins fun _ _ => id)⟩
  intro entry member
  rw [reopened.entries] at member
  rcases mem_flatMap.mp (mem_of_mem_filter member) with ⟨piece, isPiece, isEntry⟩
  exact reopened.running.sound.appended piece isPiece entry isEntry

theorem spread_batch_found : ∃ run recovered after,
    Relation.ReflTransGen (Step Rooted) start run ∧ run.appended = [noop 1, noop 2] ∧
    Prog.Returns (Disk.Answers .space) (Wal.open .default).run run.disk (.ok recovered) after ∧
    (∀ entry ∈ recovered.entries, entry ∈ run.appended) ∧
    Numbered ((recovered.snapshot.map Snapshot.lastIndex).getD 0 + 1) recovered.entries := by
  rcases exists_synced fun _ _ => id with ⟨run, reachable, isDown, isAppended, _⟩
  rcases returned_without_hole reachable isDown .default with ⟨⟨result, after, returns⟩, found⟩
  rcases found result after returns with ⟨recovered, rfl, all⟩
  exact ⟨run, recovered, after, reachable, isAppended, returns, all⟩

/-- The power has failed before the two segments were synced, and only the second came back. -/
def spreadLost : Disk FileName :=
  spread.2.mapValues fun name file =>
    .rebooted (if name = .segment 2 then file.view else file.durable)

theorem exists_lost : ∃ run, Relation.ReflTransGen (Step fun _ _ => True) start run ∧
    run.up = none ∧ run.disk = spreadLost := by
  have written : spread.2.get (.segment 2) =
      some ((FileState.new.truncate 0).writeAt 0 (record (noop 2))) := by decide +kernel
  have crash : Crash 1 spread.2 spreadLost := by
    refine crash_mapValues _ fun name file found => ?_
    by_cases isSecond : name = .segment 2
    · subst isSecond
      cases written.symm.trans found
      exact (Stores.new.truncate_zero.writeAt (noop 2)).survives_view (by simp [storable_noop]) _
    · rw [if_neg isSecond]
      exact ⟨.all_lost .., (survives_durable file).2⟩
  exact ⟨_, .tail (.tail .refl (.opens rfl (by decide) small_opens))
    (.cut rfl (admits_noops _) spread_returns.visits trivial crash), rfl, rfl⟩

def lost : Recovered := Wal.recoveredWith .default [.fresh 1, .alone 2] [noop 2]

theorem lost_opens : Prog.Returns (Disk.Answers .space) (Wal.open .default).run spreadLost
    (.ok lost) (carryOut (Wal.open .default).run spreadLost).2 :=
  returns_carryOut (by decide +kernel)

/-- A batch that was spread over two segments comes back without its first entry. -/
theorem spread_batch_leaves_hole : ∃ run recovered after,
    Relation.ReflTransGen (Step fun _ _ => True) start run ∧ run.up = none ∧
    Prog.Returns (Disk.Answers .space) (Wal.open .default).run run.disk (.ok recovered) after ∧
    recovered.snapshot = none ∧ recovered.entries = [noop 2] := by
  rcases exists_lost with ⟨run, reachable, isDown, isLost⟩
  exact ⟨run, lost, _, reachable, isDown, isLost ▸ lost_opens, rfl, rfl⟩

end LogRun

end ChronoScope.Chronolog
