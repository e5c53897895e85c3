import ChronoScope.Chronolog.Layout

/-!
# The snapshot slots

One of the two slots holds the newest snapshot that was saved, and no power loss
can take it. The other one is the target of the next save: it may hold an older
snapshot, or one whose save was begun since. So recovery finds the newest one or
one of these.
-/

namespace ChronoScope.Chronolog

open Sim

/-- What a slot was found to hold: a sequence number and a snapshot. -/
abbrev Saved := ℕ × Snapshot

variable {disk : Disk FileName} {recovered : Option Saved} {found : Saved}

theorem exists_frame_of_snapshotOf {buf : Bytes}
    (read : snapshotOf buf = some found) :
    ∃ body, Plausible maxRecord body ∧ frame body <+: buf := by
  unfold snapshotOf at read
  cases unframed : unframe maxRecord buf with
  | error reason => simp [unframed] at read
  | ok body => exact ⟨body, frame_of_unframe unframed⟩

theorem snapshotOf_congr {buf other body : Bytes} (isPlausible : Plausible maxRecord body)
    (starts : frame body <+: buf) (starts' : frame body <+: other) :
    snapshotOf buf = snapshotOf other := by
  rcases starts with ⟨rest, rfl⟩
  rcases starts' with ⟨rest', rfl⟩
  unfold snapshotOf
  rw [unframe_frame maxRecord_lt isPlausible, unframe_frame maxRecord_lt isPlausible]

/-- A snapshot that can be saved under a sequence number. -/
structure Storable (found : Saved) : Prop where
  seq : found.1 < 2 ^ 64
  fits : found.2.Fits
  short : (Wal.snapshotBody found.1 found.2).length ≤ maxRecord

theorem Storable.isPlausible (storable : Storable found) :
    Plausible maxRecord (Wal.snapshotBody found.1 found.2) := by
  refine ⟨?_, storable.short⟩
  simp only [Wal.snapshotBody, Writer.u64, List.length_append, length_leBytes]
  omega

theorem snapshotOf_frame (storable : Storable found) :
    snapshotOf (frame (Wal.snapshotBody found.1 found.2)) = some found := by
  have unframed := unframe_frame maxRecord_lt storable.isPlausible []
  rw [List.append_nil] at unframed
  have inverts : Inverts (Reader.bind Reader.u64 fun seq => Reader.map (seq, ·) Snapshot.decode)
      (Wal.snapshotBody found.1 found.2) found :=
    (Inverts.u64 storable.seq).bind ((Snapshot.decode_inverts storable.fits).map _)
  have decoded := inverts []
  rw [List.append_nil] at decoded
  simp only [snapshotOf, unframed, decoded]

/-- Its sequence number is above that of the newest snapshot. -/
def Newer (base : Option Saved) (found : Saved) : Prop :=
  ∀ newest, base = some newest → newest.1 < found.1

/-- Older than the newest snapshot, or one of those saved since. -/
def Apart (fresh : Saved → Prop) (base : Option Saved) (found : Saved) : Prop :=
  (∃ newest, base = some newest ∧ found.1 < newest.1) ∨ fresh found ∧ Newer base found

/-- A truncate, or the write of a snapshot that is being saved. -/
def Saving (fresh : Saved → Prop) (base : Option Saved) (op : PendingOp) : Prop :=
  (∃ len, op = .truncate len) ∨ ∃ saved, Storable saved ∧ fresh saved ∧ Newer base saved ∧
    op = .write 0 (frame (Wal.snapshotBody saved.1 saved.2))

/-- The target is free to be overwritten: the newest snapshot is in the other slot. In the
target are older ones and those of `fresh`, which were saved since, perhaps in part. -/
structure Slotted (fresh : Saved → Prop) (files : ℕ → Option FileState) (target : ℕ)
    (base : Option Saved) : Prop where
  isSlot : target = 0 ∨ target = 1
  missing : files (1 - target) = none → base = none
  firm : ∀ file, files (1 - target) = some file →
    ∃ image, file = .rebooted image ∧ snapshotOf image = base
  replays : ∀ file, files target = some file → file.Replays
  pending : ∀ file, files target = some file → ∀ op ∈ file.pending, Saving fresh base op
  durable : ∀ file, files target = some file → ∀ found, snapshotOf file.durable = some found →
    Apart fresh base found

/-- What recovery takes from what the slots hold. -/
def newestOf (readings : ℕ → Option Saved) : Wal.Newest :=
  (Wal.Newest.consider { snapshot := none, seq := 0, slot := 0 } 0 (readings 0)).consider 1
    (readings 1)

theorem newestOf_of_lower {readings : ℕ → Option Saved} {slot : ℕ}
    (isSlot : slot = 0 ∨ slot = 1) (here : readings (1 - slot) = recovered)
    (lower : ∀ found, readings slot = some found →
      ∃ newest, recovered = some newest ∧ found.1 < newest.1)
    (nothing : recovered = none → slot = 0) :
    newestOf readings = { snapshot := recovered.map Prod.snd,
                          seq := (recovered.map Prod.fst).getD 0, slot := slot } := by
  cases recovered with
  | none =>
    cases nothing rfl
    have other : readings 0 = none := by
      rcases isNone : readings 0 with _ | found
      · rfl
      · rcases lower found isNone with ⟨_, impossible, _⟩
        cases impossible
    have here' : readings 1 = none := here
    simp [newestOf, Wal.Newest.consider, other, here']
  | some newest =>
    rcases isSlot with rfl | rfl
    · have here' : readings 1 = some newest := here
      rcases other : readings 0 with _ | found
      · simp [newestOf, Wal.Newest.consider, other, here']
      · rcases lower found other with ⟨_, same, less⟩
        cases same
        simp [newestOf, Wal.Newest.consider, other, here', less.le]
    · have here' : readings 0 = some newest := here
      rcases other : readings 1 with _ | found
      · simp [newestOf, Wal.Newest.consider, other, here']
      · rcases lower found other with ⟨_, same, less⟩
        cases same
        simp [newestOf, Wal.Newest.consider, other, here', Nat.not_le.mpr less]

/-- Recovery takes this snapshot and aims at the other slot. It is the newest or a fresh one. -/
structure Recovers (fresh : Saved → Prop) (readings : ℕ → Option Saved)
    (base recovered : Option Saved) (target : ℕ) : Prop where
  newest : newestOf readings = { snapshot := recovered.map Prod.snd,
                                 seq := (recovered.map Prod.fst).getD 0, slot := target }
  isSlot : target = 0 ∨ target = 1
  here : readings (1 - target) = recovered
  lower : ∀ found, readings target = some found →
    ∃ newest, recovered = some newest ∧ found.1 < newest.1
  origin : recovered = base ∨ ∃ found, recovered = some found ∧ fresh found

theorem Recovers.first {fresh : Saved → Prop} {readings : ℕ → Option Saved}
    {base : Option Saved} {target : ℕ}
    (recovers : Recovers fresh readings base recovered target) (nothing : recovered = none) :
    target = 0 := by
  subst nothing
  have other : readings target = none := by
    cases reading : readings target with
    | none => rfl
    | some found =>
      rcases recovers.lower found reading with ⟨_, impossible, _⟩
      cases impossible
  have nowhere : readings 0 = none ∧ readings 1 = none := by
    rcases recovers.isSlot with rfl | rfl
    · exact ⟨other, recovers.here⟩
    · exact ⟨recovers.here, other⟩
  have newest := recovers.newest
  simp only [newestOf, nowhere, Wal.Newest.consider] at newest
  exact (congrArg Wal.Newest.slot newest).symm

theorem exists_recovers {readings : ℕ → Option Saved} {target : ℕ} {fresh : Saved → Prop}
    {base : Option Saved} (isSlot : target = 0 ∨ target = 1) (firm : readings (1 - target) = base)
    (apart : ∀ found, readings target = some found → Apart fresh base found) :
    ∃ recovered target', Recovers fresh readings base recovered target' := by
  have kept (lower : ∀ found, readings target = some found →
      ∃ newest, base = some newest ∧ found.1 < newest.1) (nothing : base = none → target = 0) :
      Recovers fresh readings base base target :=
    ⟨newestOf_of_lower isSlot firm lower nothing, isSlot, firm, lower, Or.inl rfl⟩
  have swapped (found : Saved) (reading : readings target = some found) (isFresh : fresh found)
      (newer : Newer base found) : Recovers fresh readings base (some found) (1 - target) := by
    have isSlot' : 1 - target = 0 ∨ 1 - target = 1 := by omega
    have below : ∀ other, readings (1 - target) = some other →
        ∃ newest, some found = some newest ∧ other.1 < newest.1 := fun other isOther =>
      ⟨found, rfl, newer other (firm ▸ isOther)⟩
    have here : readings (1 - (1 - target)) = some found := by
      rw [show 1 - (1 - target) = target by omega, reading]
    exact ⟨newestOf_of_lower isSlot' here below (by simp), isSlot', here, below,
      Or.inr ⟨found, rfl, isFresh⟩⟩
  rcases reading : readings target with _ | found
  · rcases base with _ | old
    · have nowhere : readings 0 = none ∧ readings 1 = none := by
        rcases isSlot with rfl | rfl
        · exact ⟨reading, firm⟩
        · exact ⟨firm, reading⟩
      have lower : ∀ found, readings 0 = some found →
          ∃ newest, (none : Option Saved) = some newest ∧ found.1 < newest.1 := by
        simp [nowhere.1]
      exact ⟨none, 0, newestOf_of_lower (Or.inl rfl) nowhere.2 lower fun _ => rfl, Or.inl rfl,
        nowhere.2, lower, Or.inl rfl⟩
    · exact ⟨some old, target, kept (by simp [reading]) (by simp)⟩
  · rcases apart found reading with ⟨newest, rfl, older⟩ | ⟨isFresh, newer⟩
    · refine ⟨some newest, target, kept ?_ (by simp)⟩
      intro other isOther
      cases reading.symm.trans isOther
      exact ⟨newest, rfl, older⟩
    · exact ⟨some found, 1 - target, swapped found reading isFresh newer⟩

/-- Every file is as after a reboot. -/
def Rebooted (disk : Disk FileName) : Prop :=
  ∀ name file, disk.get name = some file → file = .rebooted file.durable

theorem Crash.rebooted {sector : ℕ} {after : Disk FileName} (crash : Crash sector disk after) :
    Rebooted after := by
  intro name file found
  cases was : disk.get name with
  | none =>
    rw [crash.get_none was] at found
    cases found
  | some old =>
    rcases crash.get was with ⟨image, _, isRebooted⟩
    cases isRebooted.symm.trans found
    rfl

def readings (disk : Disk FileName) (slot : ℕ) : Option Saved :=
  (slotFiles disk slot).bind fun file => snapshotOf file.view

theorem readings_eq {slot : ℕ} {file : FileState}
    (found : slotFiles disk slot = some file) : readings disk slot = snapshotOf file.view := by
  simp [readings, found]

theorem Recovers.slotted
    (rebooted : ∀ slot file, slotFiles disk slot = some file → file = .rebooted file.durable)
    {fresh : Saved → Prop} {base : Option Saved} {target : ℕ}
    (recovers : Recovers fresh (readings disk) base recovered target) (fresh' : Saved → Prop) :
    Slotted fresh' (slotFiles disk) target recovered := by
  have reading {slot : ℕ} {file : FileState} (found : slotFiles disk slot = some file) :
      readings disk slot = snapshotOf file.durable := by
    rw [readings_eq found, rebooted slot file found]
    rfl
  refine ⟨recovers.isSlot, ?_, ?_, ?_, ?_, ?_⟩
  · intro missing
    rw [← recovers.here, readings, missing]
    rfl
  · intro file found
    exact ⟨file.durable, rebooted _ file found, (reading found).symm.trans recovers.here⟩
  · intro file found
    rw [rebooted _ file found]
    exact FileState.replays_rebooted _
  · intro file found op member
    rw [rebooted _ file found] at member
    cases member
  · intro file found saved isSaved
    exact Or.inl (recovers.lower saved ((reading found).trans isSaved))

namespace Slotted

variable {fresh fresh' : Saved → Prop} {files : ℕ → Option FileState} {target : ℕ}
  {base : Option Saved} {file : FileState}

theorem apart (slotted : Slotted fresh files target base) (found : files target = some file)
    {image : Bytes} (survives : Survives file image) {saved : Saved}
    (isSaved : snapshotOf image = some saved) : Apart fresh base saved := by
  rcases exists_frame_of_snapshotOf isSaved with ⟨body, isPlausible, framed⟩
  have origin : frame body <+: file.durable ∨ .write 0 (frame body) ∈ file.pending := by
    by_cases quiet : ∀ op ∈ file.pending, ∃ len, op = .truncate len
    · rcases survives.1 with ⟨_, lands⟩
      exact Or.inl (framed.trans (lands.isPrefix_of_truncates quiet))
    · push Not at quiet
      rcases quiet with ⟨op, isPending, noTruncate⟩
      rcases slotted.pending file found op isPending with ⟨len, isTruncate⟩ | ⟨new, _, _, _, rfl⟩
      · exact absurd isTruncate (noTruncate len)
      · rcases survives.2 _ _ isPending body isPlausible (by simpa using framed) with written | was
        · exact Or.inr written
        · exact Or.inl (by simpa using was)
  rcases origin with wasThere | isPending
  · rw [snapshotOf_congr isPlausible framed wasThere] at isSaved
    exact slotted.durable file found saved isSaved
  · rcases slotted.pending file found _ isPending with
      ⟨_, ⟨⟩⟩ | ⟨new, storable, isFresh, newer, same⟩
    have sameFrame : frame body = frame (Wal.snapshotBody new.1 new.2) := by simpa using same
    rw [snapshotOf_congr isPlausible framed List.prefix_rfl, sameFrame,
      snapshotOf_frame storable] at isSaved
    cases isSaved
    exact Or.inr ⟨isFresh, newer⟩

theorem shown (slotted : Slotted fresh files target base) (found : files target = some file)
    {saved : Saved} (isSaved : snapshotOf file.view = some saved) : Apart fresh base saved := by
  rw [slotted.replays file found] at isSaved
  have pending := slotted.pending file found
  have replayed (ops : List PendingOp) (isSaving : ∀ op ∈ ops, Saving fresh base op) (buf : Bytes)
      (start : ∀ saved, snapshotOf buf = some saved → Apart fresh base saved) :
      ∀ saved, snapshotOf (ops.foldl PendingOp.apply buf) = some saved →
        Apart fresh base saved := by
    induction ops generalizing buf with
    | nil => exact start
    | cons op rest ih =>
      refine ih (fun other member => isSaving other (List.mem_cons_of_mem _ member)) _ ?_
      intro saved isSaved
      rcases isSaving op (List.mem_cons_self ..) with
        ⟨len, rfl⟩ | ⟨new, storable, isFresh, newer, rfl⟩
      · rcases exists_frame_of_snapshotOf isSaved with ⟨body, isPlausible, framed⟩
        refine start saved ?_
        rw [← isSaved]
        exact snapshotOf_congr isPlausible (framed.trans (List.take_prefix ..)) framed
      · have framed : frame (Wal.snapshotBody new.1 new.2) <+:
            PendingOp.apply buf (.write 0 (frame (Wal.snapshotBody new.1 new.2))) := by
          simp [PendingOp.apply, splice]
        rw [snapshotOf_congr storable.isPlausible framed List.prefix_rfl,
          snapshotOf_frame storable] at isSaved
        cases isSaved
        exact Or.inr ⟨isFresh, newer⟩
  exact replayed file.pending pending file.durable (slotted.durable file found) saved isSaved

theorem crash {after : Disk FileName} {sector : ℕ}
    (slotted : Slotted fresh (slotFiles disk) target base) (crash : Crash sector disk after) :
    ∃ recovered target', Recovers fresh (readings after) base recovered target' := by
  have reading {slot : ℕ} {file : FileState} (found : slotFiles disk slot = some file) :
      ∃ image, Survives file image ∧ readings after slot = snapshotOf image := by
    rcases crash.get found with ⟨image, survives, isRebooted⟩
    exact ⟨image, survives, readings_eq isRebooted⟩
  have nothing {slot : ℕ} (missing : slotFiles disk slot = none) : readings after slot = none := by
    rw [readings, show slotFiles after slot = none from crash.get_none missing]
    rfl
  refine exists_recovers slotted.isSlot ?_ ?_
  · cases found : slotFiles disk (1 - target) with
    | none => rw [nothing found, slotted.missing found]
    | some file =>
      rcases reading found with ⟨image, survives, isReading⟩
      rcases slotted.firm file found with ⟨image', rfl, isBase⟩
      rw [isReading, survives_rebooted survives, isBase]
  · intro saved isSaved
    cases found : slotFiles disk target with
    | none =>
      rw [nothing found] at isSaved
      cases isSaved
    | some file =>
      rcases reading found with ⟨image, survives, isReading⟩
      exact slotted.apart found survives (isReading ▸ isSaved)

theorem mono (slotted : Slotted fresh files target base)
    (weaker : ∀ saved, fresh saved → fresh' saved) : Slotted fresh' files target base := by
  refine ⟨slotted.isSlot, slotted.missing, slotted.firm, slotted.replays, ?_, ?_⟩
  · intro file found op member
    rcases slotted.pending file found op member with isTruncate | ⟨saved, storable, isFresh, rest⟩
    · exact Or.inl isTruncate
    · exact Or.inr ⟨saved, storable, weaker saved isFresh, rest⟩
  · intro file found saved isSaved
    rcases slotted.durable file found saved isSaved with older | ⟨isFresh, newer⟩
    · exact Or.inl older
    · exact Or.inr ⟨weaker saved isFresh, newer⟩

theorem ne_target (slotted : Slotted fresh files target base) : 1 - target ≠ target := by
  rcases slotted.isSlot with rfl | rfl <;> simp

section

variable (slotted : Slotted fresh files target base)

include slotted

theorem set (replays : file.Replays) (pending : ∀ op ∈ file.pending, Saving fresh base op)
    (durable : ∀ found, snapshotOf file.durable = some found → Apart fresh base found) :
    Slotted fresh (Function.update files target (some file)) target base := by
  refine ⟨slotted.isSlot, ?_, ?_, ?_, ?_, ?_⟩
  · rw [Function.update_of_ne slotted.ne_target]
    exact slotted.missing
  · rw [Function.update_of_ne slotted.ne_target]
    exact slotted.firm
  all_goals
    intro file' found
    rw [Function.update_self] at found
    cases found
  · exact replays
  · exact pending
  · exact durable

theorem openFile : Slotted fresh (Function.update files target (some .new)) target base := by
  refine slotted.set FileState.replays_new ?_ ?_
  · intro op member
    cases member
  · intro found isFound
    cases isFound

theorem issue (found : files target = some file) {op : PendingOp} (saving : Saving fresh base op) :
    Slotted fresh (Function.update files target (some (file.issue op))) target base := by
  refine slotted.set ((slotted.replays file found).issue op) ?_ (slotted.durable file found)
  intro other member
  rcases List.mem_append.mp member with old | isNew
  · exact slotted.pending file found other old
  · cases List.mem_singleton.mp isNew
    exact saving

theorem landed {new : Saved} (storable : Storable new) (isFresh : fresh new)
    (newer : Newer base new) :
    Slotted fresh (Function.update files target
      (some (.rebooted (frame (Wal.snapshotBody new.1 new.2))))) target base := by
  refine slotted.set (FileState.replays_rebooted _) ?_ ?_
  · intro op member
    cases member
  · intro found isFound
    rw [FileState.rebooted, snapshotOf_frame storable] at isFound
    cases isFound
    exact Or.inr ⟨isFresh, newer⟩

theorem swap {new : Saved} (newer : Newer base new) {image : Bytes}
    (found : files target = some (.rebooted image)) (isNew : snapshotOf image = some new) :
    Slotted fresh' files (1 - target) (some new) := by
  have back : 1 - (1 - target) = target := by
    rcases slotted.isSlot with rfl | rfl <;> simp
  refine ⟨by omega, ?_, ?_, ?_, ?_, ?_⟩
  · rw [back, found]
    simp
  · rw [back]
    intro file' isFile
    cases found.symm.trans isFile
    exact ⟨image, rfl, isNew⟩
  all_goals
    intro file' isFile
    rcases slotted.firm file' isFile with ⟨image, rfl, isBase⟩
  · exact FileState.replays_rebooted image
  · intro op member
    cases member
  · intro saved isSaved
    exact Or.inl ⟨new, rfl, newer saved (isBase.symm.trans isSaved)⟩

end

end Slotted

end ChronoScope.Chronolog
