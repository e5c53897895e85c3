import ChronoScope.Chronolog.Appending

/-!
# Making things durable

`sync` goes through the segments and makes one after the other durable. A
snapshot or a hard state is durable when its operation returns. None of these
touches what is durable already, so recovery finds that at any moment.
-/

namespace ChronoScope.Chronolog

open List

open Sim

variable {files : ℕ → Option FileState}

namespace Piece

def synced (piece : Piece) : Piece where
  seg := { piece.seg with dirty := false }
  done := piece.all
  rest := []

theorem synced_all (piece : Piece) : piece.synced.all = piece.all := append_nil _

theorem synced_eq {piece : Piece} (clean : piece.seg.dirty = false) (whole : piece.rest = []) :
    piece.synced = piece := by
  rcases piece with ⟨seg, done, rest⟩
  cases whole
  simp only [synced, all, append_nil]
  congr
  exact clean.symm

theorem intact_synced {piece : Piece} (intact : piece.Intact files) {file : FileState}
    (stores : Stores file piece.done piece.rest) :
    piece.synced.Intact (Function.update files piece.seg.firstIndex (some file.fsync)) := by
  refine ⟨⟨file.fsync, Function.update_self .., stores.fsync⟩, intact.positive, ?_, ?_, ?_,
    fun _ => rfl, ?_⟩
  · rw [synced_all]
    exact intact.lastIndex
  · rw [synced_all]
    exact intact.size
  · rw [synced_all]
    exact intact.offsets
  · rw [synced_all]
    exact intact.numbered

theorem raises_synced (piece : Piece) : piece.part.Raises piece.synced.part := by
  refine ⟨rfl, synced_all piece, prefix_append .., ?_⟩
  change piece.all <+: piece.synced.all
  rw [synced_all]

end Piece

section Sync

variable {device : Device (Request FileName) (Disk FileName)} {denied barred : IoError → Prop}
  {faults : Faults} {promise : Promise} {disk origin : Disk FileName} {base : Option Saved}
  {wal : Wal} {pieces front back : List Piece} {target : ℕ} {crash : Disk FileName → Prop}

theorem Promise.Keeps.synced (keeps : promise.Keeps ((front ++ back).map Piece.part) base) :
    promise.Keeps ((front.map Piece.synced ++ back).map Piece.part) base := by
  refine keeps.imp fun entry isKept isSecure => Or.inl (mem_secure_raises ?_ isSecure)
  rw [map_append, map_append, map_map]
  refine rel_append ?_ ?_
  · rw [forall₂_map_left_iff, forall₂_map_right_iff, forall₂_same]
    exact fun piece _ => piece.raises_synced
  · rw [forall₂_same]
    intro part member
    rcases mem_map.mp member with ⟨piece, _, rfl⟩
    exact .refl (prefix_append ..)

theorem contents_synced (pieces : List Piece) :
    contents (pieces.map Piece.synced) = contents pieces := by
  simp [contents, flatMap_map, Piece.synced_all]

theorem syncSegments_lined (steadfast : Steadfast device denied barred)
    (lined : Lined (segmentFiles disk) (front.map Piece.synced ++ back))
    (only : SegmentsOnly origin disk)
    (holds : ∀ front' back' after, front ++ back = front' ++ back' →
      Lined (segmentFiles after) (front'.map Piece.synced ++ back') →
      SegmentsOnly origin after → crash after) :
    Prog.Safe device crash (Wal.syncSegments (back.map Piece.seg))
      (fun result after => result = (.ok (), (back.map Piece.synced).map Piece.seg) ∧
        Lined (segmentFiles after) ((front ++ back).map Piece.synced) ∧
        SegmentsOnly origin after) disk := by
  induction back generalizing front disk with
  | nil =>
    refine .pure (holds front [] disk rfl lined only) ⟨rfl, ?_, only⟩
    simpa using lined
  | cons piece back ih =>
    have here := holds front (piece :: back) disk rfl lined only
    have intact := lined.intact piece (by simp)
    rcases intact.stored with ⟨file, found, stores⟩
    have continues {after : Disk FileName}
        (lined : Lined (segmentFiles after) (front.map Piece.synced ++ piece.synced :: back))
        (only : SegmentsOnly origin after) :
        Prog.Safe device crash
          (Wal.syncSegments (back.map Piece.seg) >>= fun synced =>
            pure (synced.1, { piece.seg with dirty := false } :: synced.2))
          (fun result after =>
            result = (.ok (), ((piece :: back).map Piece.synced).map Piece.seg) ∧
            Lined (segmentFiles after) ((front ++ piece :: back).map Piece.synced) ∧
            SegmentsOnly origin after) after := by
      have moved : front.map Piece.synced ++ piece.synced :: back =
          (front ++ [piece]).map Piece.synced ++ back := by simp
      rw [moved] at lined
      refine .bind ((ih lined only (by simpa using holds)).follow ?_)
      rintro _ final holds ⟨rfl, lined, only⟩
      refine .pure holds ⟨rfl, ?_, only⟩
      simpa using lined
    rw [map_cons, Wal.syncSegments]
    by_cases dirty : piece.seg.dirty = true
    · rw [if_pos dirty]
      refine .bind (.ask here ?_)
      intro reply after answers
      obtain ⟨rfl, rfl⟩ := steadfast.fsynced found answers
      have changes := Changes.insert disk piece.seg.firstIndex file.fsync
      have sameFirst : piece.synced.seg.firstIndex = piece.seg.firstIndex := rfl
      have lined := lined.change changes sameFirst (Piece.intact_synced intact stores)
        (Or.inr piece.synced_all)
      have safe := continues lined (only.trans changes.only)
      exact ⟨safe.crash_here, safe⟩
    · rw [if_neg dirty]
      have clean : piece.seg.dirty = false := by simpa using dirty
      have same : piece.synced = piece := Piece.synced_eq clean (intact.clean clean)
      refine .bind (.pure here ?_)
      exact continues (by rwa [same]) only

theorem sync_lined (steadfast : Steadfast device denied barred) (stocked : Stocked wal disk pieces)
    (holds : ∀ front back after, pieces = front ++ back →
      Lined (segmentFiles after) (front.map Piece.synced ++ back) →
      SegmentsOnly disk after → crash after) :
    Routine.Runs device crash Wal.sync
      (fun result wal' after => result = .ok () ∧
        wal' = { wal with segments := (pieces.map Piece.synced).map Piece.seg } ∧
        Lined (segmentFiles after) (pieces.map Piece.synced) ∧ SegmentsOnly disk after)
      wal disk := by
  have lined : Lined (segmentFiles disk) (([] : List Piece).map Piece.synced ++ pieces) :=
    stocked.lined
  have safe := syncSegments_lined steadfast lined (.refl disk) holds
  refine Prog.Safe.bind ?_
  rw [stocked.segments]
  refine safe.follow ?_
  rintro _ after holds ⟨rfl, lined, only⟩
  exact .pure holds ⟨rfl, rfl, lined, only⟩

theorem sync_runs (honest : ¬ faults.any) (running : Running promise wal disk pieces base)
    (holds : ∀ front back after, pieces = front ++ back →
      SoundDisk promise after (front.map Piece.synced ++ back) wal.snapshotSlot base →
      SegmentsOnly disk after → crash after) :
    Routine.Runs (Disk.Answers faults) crash Wal.sync
      (fun result wal' after => result = .ok () ∧
        wal' = { wal with segments := (pieces.map Piece.synced).map Piece.seg } ∧
        Running promise wal' after (pieces.map Piece.synced) base ∧ SegmentsOnly disk after)
      wal disk := by
  have known (front back : List Piece) (split : pieces = front ++ back) : ∀ entry ∈
      contents (front.map Piece.synced ++ back), entry ∈ contents pieces ∨
        entry.Storable ∧ promise.appended entry := by
    intro entry member
    rw [contents_append, contents_synced, ← contents_append, ← split] at member
    exact Or.inl member
  refine (sync_lined (steadfast_of_honest honest) running.stocked ?_).follow ?_
  · intro front back after split lined only
    exact holds front back after split (running.sound.of_lined lined only (known front back split))
      only
  · rintro _ _ after _ ⟨rfl, rfl, lined, only⟩
    have all := known pieces [] (append_nil pieces).symm
    rw [append_nil] at all
    exact ⟨rfl, rfl, running.of_lined lined (by simpa using running.nonempty) only all, only⟩

theorem Pieced.secure_eq (pieced : Pieced files pieces)
    (whole : ∀ piece ∈ pieces, piece.rest = []) :
    secure none (pieces.map Piece.part) = contents pieces := by
  have all := secure_append_of_whole pieced.chain (fun part member => by
    rcases mem_map.mp member with ⟨piece, isPiece, rfl⟩
    simp [Piece.part, Piece.all, whole piece isPiece]) []
  simpa [secure_nil, contents, flatMap_map, Piece.part] using all

end Sync

section Save

variable {faults : Faults} {promise : Promise} {disk after : Disk FileName} {base : Option Saved}
  {wal : Wal} {pieces : List Piece}

theorem Running.underway (running : Running promise wal disk pieces base)
    (underway : SaveUnderway (promise.Allows base) wal.snapshotSlot base disk after) :
    SoundDisk promise after pieces wal.snapshotSlot base := by
  refine ⟨?_, underway.slotted, ?_, running.sound.appended, running.sound.snaps⟩
  · rw [underway.only.segments]
    exact running.sound.pieced
  · rw [underway.only.state]
    exact running.sound.state

theorem Promise.Keeps.reach {parts : List Part} (keeps : promise.Keeps parts base) {found : Saved}
    (reaches : Reaches base found) : promise.Keeps parts (some found) := fun entry isKept =>
  (keeps entry isKept).imp_right (promise.spares base found entry reaches)

theorem Running.saveSnapshot_runs (running : Running promise wal disk pieces base)
    {snap : Snapshot} (storable : Storable (wal.snapshotSeq + 1, snap))
    (allowed : promise.Allows base (wal.snapshotSeq + 1, snap)) :
    Routine.Runs (Disk.Answers faults)
      (SaveUnderway (promise.Allows base) wal.snapshotSlot base disk) (Wal.saveSnapshot snap)
      (fun result wal' after => SlotsOnly disk after ∧ match result with
        | .ok () => wal' = { wal with snapshotSeq := wal.snapshotSeq + 1,
                                      snapshotSlot := 1 - wal.snapshotSlot } ∧
            Running promise wal' after pieces (some (wal.snapshotSeq + 1, snap))
        | .error _ => (faults.full ∨ faults.any) ∧
            wal' = { wal with snapshotSeq := wal.snapshotSeq + 1 } ∧
            Running promise wal' after pieces base) wal disk := by
  have newer : Newer base (wal.snapshotSeq + 1, snap) := fun newest isNewest =>
    Nat.lt_succ_of_le (running.seq newest isNewest)
  refine (Chronolog.saveSnapshot_runs running.sound.slotted newer storable allowed).follow ?_
  rintro result wal' after underway outcome
  have sound := running.underway underway
  refine ⟨underway.only, ?_⟩
  cases result with
  | ok =>
    rcases outcome with ⟨rfl, landed⟩
    have read := snapshotOf_frame storable
    have swapped : Slotted (promise.Allows (some (wal.snapshotSeq + 1, snap))) (slotFiles after)
        (1 - wal.snapshotSlot) (some (wal.snapshotSeq + 1, snap)) :=
      underway.slotted.swap newer landed read
    refine ⟨rfl, ⟨sound.pieced, swapped, sound.state, sound.appended, allowed.1⟩,
      running.nonempty,
      running.segments, ?_⟩
    rintro newest ⟨⟩
    exact le_rfl
  | error failure =>
    rcases outcome with ⟨refused, rfl⟩
    refine ⟨refused, rfl, sound, running.nonempty, running.segments, ?_⟩
    exact fun newest isNewest => (running.seq newest isNewest).trans (Nat.le_succ _)

theorem SoundDisk.stateOnly {target : ℕ} (sound : SoundDisk promise disk pieces target base)
    (only : StateOnly disk after) (state : ∃ image, after.get .state = some (.rebooted image)) :
    SoundDisk promise after pieces target base := by
  refine ⟨?_, ?_, state, sound.appended, sound.snaps⟩
  · rw [only.segments]
    exact sound.pieced
  · rw [only.slots]
    exact sound.slotted

theorem Recoverable.stateOnly (recoverable : Recoverable promise base disk)
    (only : StateOnly disk after) : Recoverable promise base after := by
  rcases recoverable with ⟨parts, target, laid, slotted, appended, keeps, snaps⟩
  refine ⟨parts, target, ?_, ?_, appended, keeps, snaps⟩
  · rw [only.segments]
    exact laid
  · rw [only.slots]
    exact slotted

theorem Running.saveHardState_runs (honest : ¬ faults.any)
    (running : Running promise wal disk pieces base) {image : Bytes}
    (rests : disk.get .state = some (.rebooted image)) (hs : HardState) :
    Routine.Runs (Disk.Answers faults) (StateUnderway image (wal.stateSeq + 1, hs) disk)
      (Wal.saveHardState hs)
      (fun result wal' after => wal' = { wal with stateSeq := wal.stateSeq + 1 } ∧
        Running promise wal' after pieces base ∧ StateOnly disk after ∧
        match result with
        | .ok () => after.get .state = some (.rebooted (splice image
            ((wal.stateSeq + 1) % 2 * stateSlot) (frame (stateBody (wal.stateSeq + 1, hs)))))
        | .error _ => faults.full ∧ after = disk) wal disk := by
  refine (Chronolog.saveHardState_runs rests hs).follow ?_
  rintro result wal' after _ ⟨rfl, only, outcome⟩
  have running' (state : ∃ image, after.get .state = some (.rebooted image)) :
      Running promise { wal with stateSeq := wal.stateSeq + 1 } after pieces base :=
    ⟨running.sound.stateOnly only state, running.nonempty, running.segments, running.seq⟩
  cases result with
  | ok => exact ⟨rfl, running' ⟨_, outcome⟩, only, outcome⟩
  | error failure =>
    rcases outcome with ⟨refused, same⟩
    have same := same.resolve_left honest
    subst same
    exact ⟨rfl, running' ⟨_, rests⟩, only, refused.resolve_right honest, rfl⟩

end Save

end ChronoScope.Chronolog
