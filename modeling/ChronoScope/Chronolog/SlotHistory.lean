import Mathlib.Logic.Relation
import ChronoScope.Chronolog.Recovery

/-!
# A history of snapshots

A node saves snapshots, any of which may fail at any of its requests, loses
power, and opens its log again. Recovery returns the snapshot whose save was
completed last, or one whose save was begun after that one.

There is one condition. A save whose `fsync` failed leaves a snapshot that can
be read but is not durable. If the log is opened again before the next power
loss, recovery takes that snapshot for the newest one, and the next save goes to
the slot of the durable one.
-/

namespace ChronoScope.Chronolog

open Sim

section Reopen

variable {fresh : Saved → Prop} {disk : Disk FileName} {target : ℕ} {base recovered : Option Saved}

theorem Slotted.reading_firm (slotted : Slotted fresh (slotFiles disk) target base) :
    readings disk (1 - target) = base := by
  cases found : slotFiles disk (1 - target) with
  | none =>
    rw [readings, found, slotted.missing found]
    rfl
  | some file =>
    rcases slotted.firm file found with ⟨image, rfl, isBase⟩
    exact (readings_eq found).trans isBase

theorem Slotted.recovers (slotted : Slotted fresh (slotFiles disk) target base) :
    ∃ recovered target', Recovers fresh (readings disk) base recovered target' := by
  refine exists_recovers slotted.isSlot slotted.reading_firm ?_
  intro saved isSaved
  cases found : slotFiles disk target with
  | none =>
    rw [readings, found] at isSaved
    cases isSaved
  | some file => exact slotted.shown found ((readings_eq found).symm.trans isSaved)

theorem Slotted.reopen (slotted : Slotted fresh (slotFiles disk) target base)
    (first : base = none → target = 0)
    (settled : ∀ slot file found, slotFiles disk slot = some file →
      snapshotOf file.view = some found → file.pending = []) {target' : ℕ}
    (recovers : Recovers fresh (readings disk) base recovered target') :
    Slotted fresh (slotFiles disk) target' recovered := by
  by_cases same : target' = target
  · subst same
    rw [← recovers.here, slotted.reading_firm]
    exact slotted
  · have other : target' = 1 - target := by
      have := slotted.isSlot
      have := recovers.isSlot
      omega
    have back : 1 - target' = target := by
      have := slotted.isSlot
      omega
    have here := recovers.here
    have lower := recovers.lower
    rw [back] at here
    rw [other, slotted.reading_firm] at lower
    cases recovered with
    | none =>
      have nothing : base = none := by
        cases base with
        | none => rfl
        | some old =>
          rcases lower old rfl with ⟨_, impossible, _⟩
          cases impossible
      exact absurd ((recovers.first rfl).trans (first nothing).symm) same
    | some new =>
      have newer : Newer base new := by
        intro old isOld
        rcases lower old isOld with ⟨_, ⟨⟩, less⟩
        exact less
      cases found : slotFiles disk target with
      | none =>
        rw [readings, found] at here
        cases here
      | some file =>
        have isNew : snapshotOf file.view = some new := (readings_eq found).symm.trans here
        have nothing := settled target file new found isNew
        have isRebooted : file = .rebooted file.view := by
          have replays := slotted.replays file found
          rw [FileState.Replays, nothing] at replays
          cases file
          cases nothing
          cases replays
          rfl
        rw [isRebooted] at found
        rw [other]
        exact slotted.swap newer found isNew

end Reopen

structure Saves where
  /-- The log, while it is open. -/
  up : Option Wal
  disk : Disk FileName
  /-- The snapshot whose save was completed last. -/
  completed : Option Snapshot
  /-- Those whose save was begun since. -/
  since : List Snapshot

namespace Saves

def start : Saves := { up := none, disk := ∅, completed := none, since := [] }

/-- Snapshots that can be read are durable. -/
def Settled (saves : Saves) : Prop :=
  ∀ slot file found, slotFiles saves.disk slot = some file → snapshotOf file.view = some found →
    file.pending = []

theorem settled_of_crash {saves : Saves} {disk : Disk FileName} {sector : ℕ}
    (crash : Crash sector disk saves.disk) : saves.Settled := by
  intro slot file found there _
  rw [crash.rebooted _ file there]
  rfl

/-- What may happen, if the log is opened only when `mayOpen` says so. Sequence numbers and
snapshots fit their integer types, and bodies are at most `maxRecord` bytes long. -/
inductive Step (mayOpen : Saves → Prop) : Saves → Saves → Prop where
  | completes {saves : Saves} {wal wal' : Wal} {snap : Snapshot} {after : Disk FileName}
      (isUp : saves.up = some wal) (storable : Storable (wal.snapshotSeq + 1, snap))
      (returns : Prog.Returns (Disk.Answers .all) ((Wal.saveSnapshot snap).run.run wal) saves.disk
        (.ok (), wal') after) :
      Step mayOpen saves { up := some wal', disk := after, completed := some snap, since := [] }
  | fails {saves : Saves} {wal wal' : Wal} {snap : Snapshot} {after : Disk FileName}
      {failure : Failure} (isUp : saves.up = some wal)
      (storable : Storable (wal.snapshotSeq + 1, snap))
      (returns : Prog.Returns (Disk.Answers .all) ((Wal.saveSnapshot snap).run.run wal) saves.disk
        (.error failure, wal') after) :
      Step mayOpen saves { saves with up := some wal', disk := after, since := snap :: saves.since }
  | cut {saves : Saves} {wal : Wal} {snap : Snapshot} {visited after : Disk FileName} {sector : ℕ}
      (isUp : saves.up = some wal) (storable : Storable (wal.snapshotSeq + 1, snap))
      (visits : Prog.Visits (Disk.Answers .all) ((Wal.saveSnapshot snap).run.run wal) saves.disk
        visited)
      (crash : Crash sector visited after) :
      Step mayOpen saves { saves with up := none, disk := after, since := snap :: saves.since }
  | crashes {saves : Saves} {after : Disk FileName} {sector : ℕ}
      (crash : Crash sector saves.disk after) :
      Step mayOpen saves { saves with up := none, disk := after }
  | opens {saves : Saves} {opts : WalOptions} {recovered : Recovered} {after : Disk FileName}
      (may : mayOpen saves)
      (returns : Prog.Returns (Disk.Answers .none) (Wal.open opts).run saves.disk
        (.ok recovered) after) :
        Step mayOpen saves { saves with up := some recovered.wal, disk := after }
  | openCut {saves : Saves} {opts : WalOptions} {visited after : Disk FileName} {sector : ℕ}
      (visits : Prog.Visits (Disk.Answers .none) (Wal.open opts).run saves.disk visited)
      (crash : Crash sector visited after) :
      Step mayOpen saves { saves with up := none, disk := after }

/-- The newest durable snapshot is the one completed last, or one of those begun since. -/
def Stands (saves : Saves) (base : Option Saved) : Prop :=
  base.map Prod.snd = saves.completed ∨ ∃ found, base = some found ∧ found.2 ∈ saves.since

/-- The save of the snapshot was begun since the last one was completed. -/
def Begun (saves : Saves) (found : Saved) : Prop := found.2 ∈ saves.since

structure HoldsBy (saves : Saves) (target : ℕ) (base : Option Saved) (parts : List Part) :
    Prop where
  slotted : Slotted saves.Begun (slotFiles saves.disk) target base
  first : base = none → target = 0
  stands : saves.Stands base
  laid : Laid (segmentFiles saves.disk) parts
  readable : ∀ part ∈ parts, Readable (segmentFiles saves.disk) part
  slot : ∀ wal, saves.up = some wal → wal.snapshotSlot = target
  seq : ∀ wal, saves.up = some wal → ∀ newest, base = some newest → newest.1 ≤ wal.snapshotSeq

def Holds (saves : Saves) : Prop := ∃ target base parts, saves.HoldsBy target base parts

theorem holds_start : start.Holds := by
  refine ⟨0, none, [], ⟨Or.inl rfl, fun _ => rfl, ?_, ?_, ?_, ?_⟩, fun _ => rfl, Or.inl rfl,
    .nil fun _ => rfl, by simp, by simp [start], by simp [start]⟩
  all_goals
    intro file found
    cases found

namespace HoldsBy

variable {saves : Saves} {target : ℕ} {base : Option Saved} {parts : List Part} {wal : Wal}
  {snap : Snapshot}

section

variable (holds : saves.HoldsBy target base parts)

include holds

theorem newer (isUp : saves.up = some wal) (snap : Snapshot) :
    Newer base (wal.snapshotSeq + 1, snap) := fun newest isNewest =>
  Nat.lt_succ_of_le (holds.seq wal isUp newest isNewest)

theorem begun (snap : Snapshot) :
    Slotted (fun found => found.2 ∈ snap :: saves.since) (slotFiles saves.disk) target base :=
  holds.slotted.mono fun _ => List.mem_cons_of_mem _

theorem stands_cons (snap : Snapshot) (up : Option Wal) (disk : Disk FileName) :
    Stands { saves with up, disk, since := snap :: saves.since } base := by
  rcases holds.stands with same | ⟨found, isBase, member⟩
  · exact Or.inl same
  · exact Or.inr ⟨found, isBase, List.mem_cons_of_mem _ member⟩

theorem saving (isUp : saves.up = some wal) (storable : Storable (wal.snapshotSeq + 1, snap))
    {visited : Disk FileName}
    (visits : Prog.Visits (Disk.Answers .all)
    ((Wal.saveSnapshot snap).run.run wal) saves.disk visited) :
    SaveUnderway (fun found => found.2 ∈ snap :: saves.since) target base saves.disk visited := by
  cases holds.slot wal isUp
  exact (saveSnapshot_runs (holds.begun snap) (holds.newer isUp snap) storable
    (List.mem_cons_self ..)).visits visited visits

theorem fails (isUp : saves.up = some wal) (storable : Storable (wal.snapshotSeq + 1, snap))
    {wal' : Wal} {failure : Failure} {after : Disk FileName}
    (returns : Prog.Returns (Disk.Answers .all) ((Wal.saveSnapshot snap).run.run wal) saves.disk
    (.error failure, wal') after) :
    Holds { saves with up := some wal', disk := after, since := snap :: saves.since } := by
  have underway := holds.saving isUp storable returns.visits
  cases holds.slot wal isUp
  rcases (saveSnapshot_runs (holds.begun snap) (holds.newer isUp snap) storable
    (List.mem_cons_self ..)).returns _ _ returns with ⟨_, rfl⟩
  refine ⟨wal.snapshotSlot, base, parts, underway.slotted, holds.first,
    holds.stands_cons snap _ _, ?_, ?_, ?_, ?_⟩
  · exact underway.only.segments ▸ holds.laid
  · exact underway.only.segments ▸ holds.readable
  · rintro _ ⟨⟩
    rfl
  · rintro _ ⟨⟩ newest isNewest
    exact (holds.seq wal isUp newest isNewest).trans (Nat.le_succ _)

theorem completes (isUp : saves.up = some wal) (storable : Storable (wal.snapshotSeq + 1, snap))
    {wal' : Wal} {after : Disk FileName}
    (returns : Prog.Returns (Disk.Answers .all) ((Wal.saveSnapshot snap).run.run wal) saves.disk
    (.ok (), wal') after) :
    Holds { up := some wal', disk := after, completed := some snap, since := [] } := by
  have underway := holds.saving isUp storable returns.visits
  cases holds.slot wal isUp
  rcases (saveSnapshot_runs (holds.begun snap) (holds.newer isUp snap) storable
    (List.mem_cons_self ..)).returns _ _ returns with ⟨rfl, landed⟩
  have isNew := snapshotOf_frame storable
  refine ⟨1 - wal.snapshotSlot, some (wal.snapshotSeq + 1, snap), parts,
    underway.slotted.swap (holds.newer isUp snap) landed isNew, by simp, Or.inl rfl, ?_, ?_, ?_, ?_⟩
  · exact underway.only.segments ▸ holds.laid
  · exact underway.only.segments ▸ holds.readable
  · rintro _ ⟨⟩
    rfl
  · rintro _ ⟨⟩ _ ⟨⟩
    exact le_rfl

end

end HoldsBy

theorem holds_crash {saves : Saves} {visited after : Disk FileName} {sector target : ℕ}
    {base : Option Saved} {parts : List Part}
    (slotted : Slotted saves.Begun (slotFiles visited) target base) (stands : saves.Stands base)
    (laid : Laid (segmentFiles visited) parts) (crash : Crash sector visited after) :
    Holds { saves with up := none, disk := after } := by
  rcases slotted.crash crash with ⟨recovered, target', recovers⟩
  rcases laid.crash crash with ⟨firm, _, raised, readable⟩
  refine ⟨target', recovered, _, recovers.slotted (fun slot => crash.rebooted _) _, recovers.first,
    ?_, raised, ?_, by simp, by simp⟩
  · rcases recovers.origin with rfl | ⟨found, rfl, begun⟩
    · exact stands
    · exact Or.inr ⟨found, rfl, begun⟩
  · intro part isPart
    rcases List.mem_map.mp isPart with ⟨old, isOld, rfl⟩
    exact readable old isOld


namespace HoldsBy

variable {saves : Saves} {target : ℕ} {base : Option Saved} {parts : List Part}

theorem opens (holds : saves.HoldsBy target base parts) (settled : saves.Settled)
    {opts : WalOptions} {recovered : Recovered} {after : Disk FileName}
    (returns : Prog.Returns (Disk.Answers .none) (Wal.open opts).run saves.disk
      (.ok recovered) after) :
    Holds { saves with up := some recovered.wal, disk := after } := by
  rcases (open_spec holds.laid holds.readable opts).returns _ _ returns with ⟨_, pieces, ⟨⟩, opened⟩
  rcases holds.slotted.recovers with ⟨newest, target', recovers⟩
  have slotted := (holds.slotted.reopen holds.first settled recovers).grown opened.slots
  refine ⟨target', newest, _, slotted, recovers.first, ?_, opened.pieced.laid, opened.readable,
    ?_, ?_⟩
  · rcases recovers.origin with rfl | ⟨found, rfl, begun⟩
    · exact holds.stands
    · exact Or.inr ⟨found, rfl, begun⟩
  · rintro _ ⟨⟩
    rw [opened.slot, recovers.newest]
  · rintro _ ⟨⟩ found rfl
    rw [opened.seq, recovers.newest]
    exact le_rfl

theorem openCut (holds : saves.HoldsBy target base parts) {opts : WalOptions}
    {visited after : Disk FileName} {sector : ℕ}
    (visits : Prog.Visits (Disk.Answers .none) (Wal.open opts).run saves.disk visited)
    (crash : Crash sector visited after) : Holds { saves with up := none, disk := after } := by
  have reopening := (open_spec holds.laid holds.readable opts).visits visited visits
  rcases reopening.laid with ⟨_, laid, _⟩
  exact holds_crash (holds.slotted.grown reopening.slots) holds.stands laid crash

end HoldsBy

theorem Holds.step {saves saves' : Saves} (holds : saves.Holds) (step : Step Settled saves saves') :
    saves'.Holds := by
  rcases holds with ⟨target, base, parts, holds⟩
  cases step with
  | completes isUp storable returns => exact holds.completes isUp storable returns
  | fails isUp storable returns => exact holds.fails isUp storable returns
  | cut isUp storable visits crash =>
    have underway := holds.saving isUp storable visits
    exact @holds_crash { saves with since := _ :: saves.since } _ _ _ _ _ _ underway.slotted
      (holds.stands_cons ..) (underway.only.segments ▸ holds.laid) crash
  | crashes crash => exact holds_crash holds.slotted holds.stands holds.laid crash
  | opens settled returns => exact holds.opens settled returns
  | openCut visits crash => exact holds.openCut visits crash

theorem holds_of_reachable {saves : Saves}
    (reachable : Relation.ReflTransGen (Step Settled) start saves) : saves.Holds := by
  induction reachable with
  | refl => exact holds_start
  | tail _ step ih => exact ih.step step

/-- Recovery returns the snapshot completed last, or one whose save was begun after it. -/
theorem open_returns_newest {saves : Saves}
    (reachable : Relation.ReflTransGen (Step Settled) start saves) (opts : WalOptions) :
    (∃ result after,
      Prog.Returns (Disk.Answers .none) (Wal.open opts).run saves.disk result after) ∧
    ∀ result after,
      Prog.Returns (Disk.Answers .none) (Wal.open opts).run saves.disk result after →
      ∃ recovered, result = .ok recovered ∧ (recovered.snapshot = saves.completed ∨
        ∃ snap ∈ saves.since, recovered.snapshot = some snap) := by
  refine ⟨Disk.exists_returns .., ?_⟩
  intro result after returns
  rcases holds_of_reachable reachable with ⟨target, base, parts, holds⟩
  rcases (open_spec holds.laid holds.readable opts).returns _ _ returns with
    ⟨recovered, pieces, rfl, opened⟩
  rcases holds.slotted.recovers with ⟨newest, target', recovers⟩
  refine ⟨recovered, rfl, ?_⟩
  rw [opened.snapshot, recovers.newest]
  rcases recovers.origin with rfl | ⟨found, rfl, begun⟩
  · rcases holds.stands with same | ⟨found, rfl, member⟩
    · exact Or.inl same
    · exact Or.inr ⟨found.2, member, rfl⟩
  · exact Or.inr ⟨found.2, begun, rfl⟩

def sample (index : ℕ) : Snapshot :=
  { lastIndex := index, lastTerm := 1, config := .default, data := [] }

theorem storable_sample {seq index : ℕ} (seqFits : seq < 2 ^ 64) (indexFits : index < 2 ^ 64) :
    Storable (seq, sample index) := by
  have empty : NodesFit ∅ := ⟨by simp, by simp⟩
  refine ⟨seqFits, ⟨indexFits, by simp [sample], ⟨empty, empty, empty⟩, by simp [sample]⟩, ?_⟩
  simp [Wal.snapshotBody, Writer.u64, sample, Snapshot.encode, Config.encode, Config.default,
    encodeNodes, Writer.seq, Writer.u32, Writer.bytes, maxRecord]

theorem snapshotOf_sample {seq index : ℕ} (seqFits : seq < 2 ^ 64) (indexFits : index < 2 ^ 64) :
    snapshotOf (frame (Wal.snapshotBody seq (sample index))) = some (seq, sample index) := by
  have read := snapshotOf_frame (storable_sample seqFits indexFits)
  exact read

/-- Nothing was ever written to the slot. -/
def Blank (disk : Disk FileName) (slot : ℕ) : Prop :=
  slotFiles disk slot = none ∨ slotFiles disk slot = some .new

theorem exists_opened {disk : Disk FileName} {slot : ℕ} (blank : Blank disk slot) :
    ∃ opened, (∀ faults, Disk.Answers faults (.openFile (.snapshot slot)) disk (.ok ()) opened) ∧
      opened.get (.snapshot slot) = some .new ∧
      ∀ other, other ≠ slot → slotFiles opened other = slotFiles disk other := by
  rcases blank with missing | isNew
  · refine ⟨disk.insert (.snapshot slot) .new, fun _ => Or.inl ?_, by simp, ?_⟩
    · have missing : disk.get (.snapshot slot) = none := missing
      simp [Disk.perform, missing]
    · intro other distinct
      simp [distinct]
  · exact ⟨disk, fun _ => Disk.performs_openFile _ isNew, isNew, fun _ _ => rfl⟩

section Run

variable {wal : Wal} {disk : Disk FileName} (snap : Snapshot)

theorem saveSnapshot_completes (faults : Faults) (blank : Blank disk wal.snapshotSlot) :
    ∃ after, Prog.Returns (Disk.Answers faults) ((Wal.saveSnapshot snap).run.run wal) disk
        (.ok (), { wal with snapshotSeq := wal.snapshotSeq + 1,
                            snapshotSlot := 1 - wal.snapshotSlot }) after ∧
      slotFiles after wal.snapshotSlot =
        some (.rebooted (frame (Wal.snapshotBody (wal.snapshotSeq + 1) snap))) ∧
      ∀ other, other ≠ wal.snapshotSlot → slotFiles after other = slotFiles disk other := by
  rcases exists_opened blank with ⟨opened, opens, found, others⟩
  have emptied : (opened.insert (.snapshot wal.snapshotSlot) (FileState.new.truncate 0)).get
      (.snapshot wal.snapshotSlot) = some (FileState.new.truncate 0) := by simp
  have written (data : Bytes) : ((opened.insert (.snapshot wal.snapshotSlot)
      (FileState.new.truncate 0)).insert (.snapshot wal.snapshotSlot)
        ((FileState.new.truncate 0).writeAt 0 data)).get (.snapshot wal.snapshotSlot) =
      some ((FileState.new.truncate 0).writeAt 0 data) := by simp
  refine ⟨_, .call (opens _) (.call (Disk.performs_truncate _ found 0)
    (.call (Disk.performs_writeAt _ emptied 0 _) (.call (Disk.performs_fsync _ (written _))
      (.call (Or.inl rfl) (.pure _ _))))), ?_, ?_⟩
  · simp [slotFiles, FileState.fsync, FileState.writeAt, FileState.truncate, FileState.issue,
      FileState.new, FileState.rebooted, PendingOp.apply, splice]
  · intro other distinct
    simp [distinct, others other distinct]

theorem saveSnapshot_refused (blank : Blank disk wal.snapshotSlot) :
    ∃ after, Prog.Returns (Disk.Answers .all) ((Wal.saveSnapshot snap).run.run wal) disk
        (.error (.io (.eio "fsync")), { wal with snapshotSeq := wal.snapshotSeq + 1 }) after ∧
      slotFiles after wal.snapshotSlot = some ((FileState.new.truncate 0).writeAt 0
        (frame (Wal.snapshotBody (wal.snapshotSeq + 1) snap))) ∧
      ∀ other, other ≠ wal.snapshotSlot → slotFiles after other = slotFiles disk other := by
  rcases exists_opened blank with ⟨opened, opens, found, others⟩
  have emptied : (opened.insert (.snapshot wal.snapshotSlot) (FileState.new.truncate 0)).get
      (.snapshot wal.snapshotSlot) = some (FileState.new.truncate 0) := by simp
  have refuses : Disk.Refuses .all (.fsync (FileName.snapshot wal.snapshotSlot))
      (.error (.eio "fsync")) := ⟨trivial, _, rfl⟩
  refine ⟨_, .call (opens _) (.call (Disk.performs_truncate _ found 0)
    (.call (Disk.performs_writeAt _ emptied 0 _) (.call (Or.inr ⟨refuses, rfl⟩) (.pure _ _)))),
    ?_, ?_⟩
  · simp [slotFiles]
  · intro other distinct
    simp [distinct, others other distinct]

theorem view_emptied_writeAt (data : Bytes) :
    ((FileState.new.truncate 0).writeAt 0 data).view = data := by
  simp [FileState.writeAt, FileState.truncate, FileState.issue, FileState.new, PendingOp.apply,
    splice]

theorem saveSnapshot_emptied {file : FileState}
    (found : disk.get (.snapshot wal.snapshotSlot) = some file) :
    Prog.Visits (Disk.Answers .all) ((Wal.saveSnapshot snap).run.run wal) disk
      (disk.insert (.snapshot wal.snapshotSlot) (file.truncate 0)) :=
  .later (Disk.performs_openFile _ found) (.later (Disk.performs_truncate _ found 0) (.here _ _))

theorem crash_emptied (bytes : Bytes)
    (second : ∀ file, slotFiles disk 1 = some file → snapshotOf file.durable = none) :
    ∃ after, Crash 1 (disk.insert (.snapshot 0) ((FileState.rebooted bytes).truncate 0)) after ∧
      readings after 0 = none ∧ readings after 1 = none := by
  refine ⟨_, crash_mapValues (fun name file => if name = .snapshot 0 then [] else file.durable) ?_,
    ?_, ?_⟩
  · intro name file found
    rw [BTreeMap.get_insert] at found
    split_ifs at found ⊢ with isFirst
    · cases found
      refine ⟨.next .kept trivial (.done _), ?_⟩
      intro offset data member
      simp [FileState.truncate, FileState.issue, FileState.rebooted] at member
    · exact ⟨.all_lost .., (survives_durable file).2⟩
  · refine (readings_eq (?_ : slotFiles _ 0 = some (.rebooted []))).trans rfl
    simp [slotFiles]
  · cases found : slotFiles disk 1 with
    | none =>
      have missing : disk.get (.snapshot 1) = none := found
      simp [readings, slotFiles, missing]
    | some file =>
      have there : disk.get (.snapshot 1) = some file := found
      refine (readings_eq (?_ : slotFiles _ 1 = some (.rebooted file.durable))).trans
        (second file found)
      simp [slotFiles, there]

end Run

theorem Step.mono {mayOpen mayOpen' : Saves → Prop}
    (weaker : ∀ saves, mayOpen saves → mayOpen' saves)
    {saves saves' : Saves} (step : Step mayOpen saves saves') : Step mayOpen' saves saves' := by
  cases step with
  | completes isUp storable returns => exact .completes isUp storable returns
  | fails isUp storable returns => exact .fails isUp storable returns
  | cut isUp storable visits crash => exact .cut isUp storable visits crash
  | crashes crash => exact .crashes crash
  | opens may returns => exact .opens (weaker _ may) returns
  | openCut visits crash => exact .openCut visits crash

theorem exists_saved : ∃ saves wal, Relation.ReflTransGen (Step Settled) start saves ∧
    saves.up = some wal ∧ wal.snapshotSlot = 1 ∧ wal.snapshotSeq = 1 ∧
    saves.completed = some (sample 1) ∧
    slotFiles saves.disk 0 = some (.rebooted (frame (Wal.snapshotBody 1 (sample 1)))) ∧
    Blank saves.disk 1 := by
  rcases holds_start with ⟨target, base, parts, holds⟩
  rcases Disk.exists_returns .none (Wal.open .default).run start.disk with ⟨result, disk, returns⟩
  rcases (open_spec holds.laid holds.readable .default).returns _ _ returns with
    ⟨recovered, pieces, rfl, opened⟩
  have blank (slot : ℕ) : Blank disk slot := (opened.slots slot).imp id And.right
  have slot : recovered.wal.snapshotSlot = 0 := opened.slot
  have seq : recovered.wal.snapshotSeq = 0 := opened.seq
  rcases saveSnapshot_completes (sample 1) .all (blank recovered.wal.snapshotSlot) with
    ⟨after, saved, landed, others⟩
  have settled : start.Settled := by
    intro slot file found there
    cases there
  have storable : Storable (recovered.wal.snapshotSeq + 1, sample 1) := by
    rw [seq]
    exact storable_sample (by simp) (by simp)
  refine ⟨_, _, (Relation.ReflTransGen.single (.opens settled returns)).tail
    (.completes rfl storable saved), rfl, ?_, ?_, rfl, ?_, ?_⟩
  · simp [slot]
  · simp [seq]
  · rw [slot, seq] at landed
    exact landed
  · rw [slot] at others
    rw [Blank, others 1 (by simp)]
    exact blank 1

/-- Two snapshots are saved, the power fails, and the log is opened again. -/
theorem saved_twice_returned : ∃ crashed saves, Relation.ReflTransGen (Step Settled) start crashed ∧
    crashed.up = none ∧ Step Settled crashed saves ∧ saves.completed = some (sample 2) ∧ ∀ opts,
      (∃ result after,
        Prog.Returns (Disk.Answers .none) (Wal.open opts).run saves.disk result after) ∧
      ∀ result after,
        Prog.Returns (Disk.Answers .none) (Wal.open opts).run saves.disk result after →
        ∃ recovered, result = .ok recovered ∧ (recovered.snapshot = saves.completed ∨
          ∃ snap ∈ saves.since, recovered.snapshot = some snap) := by
  rcases exists_saved with ⟨saved, wal, reachable, isUp, slot, seq, _, _, blank⟩
  rw [← slot] at blank
  rcases saveSnapshot_completes (sample 2) .all blank with ⟨disk, completes, _⟩
  have storable : Storable (wal.snapshotSeq + 1, sample 2) := by
    rw [seq]
    exact storable_sample (by simp) (by simp)
  have crash := crash_durable 1 disk
  have reachable := (reachable.tail (.completes isUp storable completes)).tail (.crashes crash)
  rcases open_returns_newest reachable .default with ⟨⟨result, opened, returns⟩, newest⟩
  rcases newest result opened returns with ⟨recovered, rfl, _⟩
  have reopens := Step.opens (settled_of_crash crash) returns
  exact ⟨_, _, reachable, rfl, reopens, rfl, open_returns_newest (reachable.tail reopens)⟩

/-- The first snapshot is saved, the `fsync` of the second fails, the log is opened again, and
the power fails while the third is being saved: nothing is left. -/
theorem opened_unsettled_loses : ∃ saves,
    Relation.ReflTransGen (Step fun _ => True) start saves ∧
    saves.completed = some (sample 1) ∧ ∀ opts result after,
      Prog.Returns (Disk.Answers .none) (Wal.open opts).run saves.disk result after →
      ∃ recovered, result = .ok recovered ∧ recovered.snapshot = none := by
  rcases exists_saved with ⟨saved, wal, reachable, isUp, slot, seq, completed, firstSlot, blank⟩
  rw [← slot] at blank
  rcases saveSnapshot_refused (sample 2) blank with ⟨disk, refused, secondSlot, others⟩
  have storable : Storable (wal.snapshotSeq + 1, sample 2) := by
    rw [seq]
    exact storable_sample (by simp) (by simp)
  have reachable := reachable.tail (.fails isUp storable refused)
  rw [slot, seq] at secondSlot
  rw [slot] at others
  rcases holds_of_reachable reachable with ⟨_, _, _, holds⟩
  rcases Disk.exists_returns .none (Wal.open .default).run disk with ⟨result, opened, returns⟩
  rcases (open_spec holds.laid holds.readable .default).returns _ _ returns with
    ⟨recovered, _, rfl, isOpened⟩
  have firstSlot : slotFiles disk 0 = some (.rebooted (frame (Wal.snapshotBody 1 (sample 1)))) :=
    (others 0 (by simp)).trans firstSlot
  have first : readings disk 0 = some (1, sample 1) :=
    (readings_eq firstSlot).trans (snapshotOf_sample (by simp) (by simp))
  have second : readings disk 1 = some (2, sample 2) := by
    rw [readings_eq secondSlot, view_emptied_writeAt]
    exact snapshotOf_sample (by simp) (by simp)
  have target : recovered.wal.snapshotSlot = 0 := by
    simp [isOpened.slot, newestOf, Wal.Newest.consider, first, second]
  have firstStill : slotFiles opened 0 = slotFiles disk 0 := by
    rcases isOpened.slots 0 with same | ⟨missing, _⟩
    · exact same
    · cases firstSlot.symm.trans missing
  have secondStill : slotFiles opened 1 = slotFiles disk 1 := by
    rcases isOpened.slots 1 with same | ⟨missing, _⟩
    · exact same
    · cases secondSlot.symm.trans missing
  have there : opened.get (.snapshot recovered.wal.snapshotSlot) =
      some (.rebooted (frame (Wal.snapshotBody 1 (sample 1)))) := by
    rw [target]
    exact firstStill.trans firstSlot
  have emptied := saveSnapshot_emptied (sample 3) there
  rw [target] at emptied
  have nothing : ∀ file, slotFiles opened 1 = some file → snapshotOf file.durable = none := by
    intro file found
    cases (secondStill.trans secondSlot).symm.trans found
    rfl
  rcases crash_emptied (frame (Wal.snapshotBody 1 (sample 1))) nothing with ⟨after, crash, lost⟩
  have third : Storable (recovered.wal.snapshotSeq + 1, sample 3) := by
    have seqIs : recovered.wal.snapshotSeq = 2 := by
      simp [isOpened.seq, newestOf, Wal.Newest.consider, first, second]
    rw [seqIs]
    exact storable_sample (by simp) (by simp)
  have anyhow := Relation.ReflTransGen.mono (fun _ _ => Step.mono fun _ _ => trivial) _ _ reachable
  have reachable := (anyhow.tail (.opens trivial returns)).tail (.cut rfl third emptied crash)
  refine ⟨_, reachable, completed, ?_⟩
  intro opts result final returns
  have laid := isOpened.pieced.laid
  rw [← segmentFiles_insert_snapshot opened _ 0] at laid
  rcases laid.crash crash with ⟨firm, _, raised, readable⟩
  have canRead : ∀ part ∈ _, Readable (segmentFiles after) part := List.forall_mem_map.mpr readable
  rcases (open_spec raised canRead opts).returns _ _ returns with ⟨recovered, _, rfl, last⟩
  refine ⟨recovered, rfl, ?_⟩
  simp [last.snapshot, newestOf, Wal.Newest.consider, lost]

end Saves

end ChronoScope.Chronolog
