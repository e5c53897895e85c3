import ChronoScope.Chronolog.Slots

/-!
# Saving a snapshot

A save opens the target slot, empties it, writes the snapshot and makes it
durable. Until it returns, the newest snapshot is the one in the other slot,
whatever happens: a crash at any of its operations, a refusal of any of them, or
both. Only a save that has returned makes the slots change places.
-/

namespace ChronoScope.Chronolog

open Sim

structure SlotsOnly (disk after : Disk FileName) : Prop where
  segments : segmentFiles after = segmentFiles disk
  state : after.get .state = disk.get .state

namespace SlotsOnly

theorem refl (disk : Disk FileName) : SlotsOnly disk disk := ⟨rfl, rfl⟩

theorem insert {disk after : Disk FileName} (only : SlotsOnly disk after) (slot : ℕ)
    (file : FileState) : SlotsOnly disk (after.insert (.snapshot slot) file) :=
  ⟨(segmentFiles_insert_snapshot ..).trans only.segments, by simpa using only.state⟩

end SlotsOnly

section Save

variable {faults : Faults} {fresh : Saved → Prop} {base : Option Saved} {disk : Disk FileName}
  {wal : Wal}

/-- What holds at any moment of a save. -/
structure SaveUnderway (fresh : Saved → Prop) (target : ℕ) (base : Option Saved)
    (disk after : Disk FileName) : Prop where
  only : SlotsOnly disk after
  slotted : Slotted fresh (slotFiles after) target base

namespace SaveUnderway

variable {target : ℕ} {after : Disk FileName} {file : FileState}

section

variable (underway : SaveUnderway fresh target base disk after)

include underway

theorem set
    (slotted : Slotted fresh (Function.update (slotFiles after) target (some file)) target base) :
    SaveUnderway fresh target base disk (after.insert (.snapshot target) file) := by
  refine ⟨underway.only.insert target file, ?_⟩
  rw [slotFiles_insert_snapshot]
  exact slotted

theorem openFile {reply : Except IoError Unit} {next : Disk FileName}
    (answers : Disk.Answers faults (.openFile (.snapshot target)) after reply next) :
    SaveUnderway fresh target base disk next ∧
      (reply = .ok () → ∃ file, next.get (.snapshot target) = some file) := by
  rcases Disk.answers_openFile answers with ⟨rfl, rfl⟩ | ⟨_, ⟨error, rfl⟩, rfl⟩
  · split_ifs with there
    · exact ⟨underway, fun _ => Option.isSome_iff_exists.mp there⟩
    · refine ⟨underway.set underway.slotted.openFile, fun _ => ⟨.new, by simp⟩⟩
  · exact ⟨underway, by simp⟩

theorem issue (found : after.get (.snapshot target) = some file) {op : PendingOp}
    (saving : Saving fresh base op) :
    SaveUnderway fresh target base disk (after.insert (.snapshot target) (file.issue op)) :=
  underway.set (underway.slotted.issue found saving)

end

end SaveUnderway

/-- A save that returns has left the snapshot in its slot, and exchanged the slots if nothing
failed. -/
theorem saveSnapshot_runs {snap : Snapshot}
    (slotted : Slotted fresh (slotFiles disk) wal.snapshotSlot base)
    (newer : Newer base (wal.snapshotSeq + 1, snap))
    (storable : Storable (wal.snapshotSeq + 1, snap))
    (isFresh : fresh (wal.snapshotSeq + 1, snap)) :
    Routine.Runs (Disk.Answers faults) (SaveUnderway fresh wal.snapshotSlot base disk)
      (Wal.saveSnapshot snap)
      (fun result wal' after => match result with
        | .ok () => wal' = { wal with snapshotSeq := wal.snapshotSeq + 1,
                                      snapshotSlot := 1 - wal.snapshotSlot } ∧
            slotFiles after wal.snapshotSlot =
              some (.rebooted (frame (Wal.snapshotBody (wal.snapshotSeq + 1) snap)))
        | .error _ => (faults.full ∨ faults.any) ∧
            wal' = { wal with snapshotSeq := wal.snapshotSeq + 1 }) wal disk := by
  have start : SaveUnderway fresh wal.snapshotSlot base disk disk := ⟨.refl disk, slotted⟩
  unfold Wal.saveSnapshot
  refine .bind (.update start (.bind (.get start (.attempt_bind start ?_))))
  intro reply opened answers
  rcases start.openFile answers with ⟨underway, isThere⟩
  refine ⟨underway, ?_⟩
  rcases Disk.answers_openFile answers with ⟨rfl, _⟩ | ⟨failing, ⟨error, rfl⟩, _⟩
  swap
  · exact ⟨Or.inr failing, rfl⟩
  rcases isThere rfl with ⟨file, found⟩
  refine .attempt_bind underway ?_
  intro reply emptied answers
  rcases Disk.answers_truncate found answers with ⟨rfl, rfl⟩ | ⟨failing, ⟨error, rfl⟩, rfl⟩
  swap
  · exact ⟨underway, Or.inr failing, rfl⟩
  have underway := underway.issue found (Or.inl ⟨0, rfl⟩)
  have found : (opened.insert (.snapshot wal.snapshotSlot) (file.truncate 0)).get
      (.snapshot wal.snapshotSlot) = some (file.truncate 0) := by simp
  refine ⟨underway, .attempt_bind underway ?_⟩
  intro reply written answers
  rcases Disk.answers_writeAt found answers with ⟨rfl, rfl⟩ | ⟨refused, rfl⟩
  swap
  · rcases refused with ⟨full, rfl⟩ | ⟨failing, error, rfl⟩
    · exact ⟨underway, Or.inl full, rfl⟩
    · exact ⟨underway, Or.inr failing, rfl⟩
  have underway := underway.issue found (Or.inr ⟨_, storable, isFresh, newer, rfl⟩)
  set body := frame (Wal.snapshotBody (wal.snapshotSeq + 1) snap)
  set full := (file.truncate 0).writeAt 0 body
  set there := (opened.insert (.snapshot wal.snapshotSlot) (file.truncate 0)).insert
    (.snapshot wal.snapshotSlot) full
  have found : there.get (.snapshot wal.snapshotSlot) = some full := by simp [there]
  refine ⟨underway, .attempt_bind underway ?_⟩
  intro reply synced answers
  rcases Disk.answers_fsync found answers with ⟨rfl, rfl⟩ | ⟨failing, ⟨error, rfl⟩, rfl⟩
  swap
  · exact ⟨underway, Or.inr failing, rfl⟩
  have viewIs : full.view = body := by
    simp [full, FileState.writeAt, FileState.truncate, FileState.issue, PendingOp.apply, splice]
  have landed : full.fsync = .rebooted body := by
    rw [(underway.slotted.replays full found).fsync, viewIs]
  rw [landed]
  have underway := underway.set (underway.slotted.landed storable isFresh newer)
  refine ⟨underway, .attempt_bind underway ?_⟩
  intro reply final answers
  rcases Disk.answers_syncDir answers with ⟨rfl | ⟨failing, error, rfl⟩, rfl⟩
  swap
  · exact ⟨underway, Or.inr failing, rfl⟩
  refine ⟨underway, .update underway ⟨rfl, ?_⟩⟩
  simp [slotFiles, body]

end Save

end ChronoScope.Chronolog
