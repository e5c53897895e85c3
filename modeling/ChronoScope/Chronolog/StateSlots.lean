import ChronoScope.Chronolog.Layout

/-!
# The hard state

The hard state is saved to two slots of one file in turn; the one with the
higher sequence number counts. A save writes to the slot that the parity of its
sequence number selects. It is the slot of the newest record exactly if the
number of saves that failed since is odd, because these have used up a number
each. Then a crash can destroy the newest record before the new one is complete.
-/

namespace ChronoScope.Chronolog

open List

open Sim

abbrev SavedState := ℕ × HardState

/-- What the bytes of the file hold in a slot. -/
def slotState (buf : Bytes) (slot : ℕ) : Option SavedState :=
  match unframe 256 (buf.drop (slot * stateSlot)) with
  | .error _ => none
  | .ok body =>
    match Wal.decodeHardState body with
    | .error _ => none
    | .ok (found, _) => some found

/-- Prefer what a slot holds, unless its sequence number is lower. -/
def preferState (best : HardState × ℕ) : Option SavedState → HardState × ℕ
  | none => best
  | some (seq, hs) => if seq ≥ best.2 then (hs, seq) else best

/-- The hard state and the sequence number that recovery finds in the file. -/
def newestState (buf : Bytes) : HardState × ℕ :=
  preferState (preferState (.default, 0) (slotState buf 0)) (slotState buf 1)

section Reading

variable {faults : Faults} {crash : Disk FileName → Prop} {disk : Disk FileName} {file : FileState}

theorem readHardStateSlot_safe (honest : ¬ faults.any) (found : disk.get .state = some file)
    (holds : crash disk) (best : HardState × ℕ) (slot : ℕ) :
    Prog.Safe (Disk.Answers faults) crash (Wal.readHardStateSlot best slot)
      (fun result after => after = disk ∧ result = preferState best (slotState file.view slot))
      disk := by
  set buf := file.view.drop (slot * stateSlot) with bufIs
  have headIs : file.readAt (slot * stateSlot) header = buf.take header := rfl
  have bodyIs (len : ℕ) :
      file.readAt (slot * stateSlot + header) len = (buf.drop header).take len := by
    rw [FileState.readAt, bufIs, drop_drop]
  have lenIs : leValue ((buf.take header).take 4) = leValue (buf.take 4) := by
    rw [take_take]
    rfl
  have crcIs : ((buf.take header).drop 4).take 4 = (buf.drop 4).take 4 := by
    rw [drop_take, take_take]
    rfl
  unfold Wal.readHardStateSlot
  refine .bind (.ask holds ?_)
  intro reply after answers
  rcases Disk.answers_readAt found answers with ⟨rfl | ⟨failing, _⟩, rfl⟩
  swap
  · exact absurd failing honest
  refine ⟨holds, ?_⟩
  simp only [headIs, lenIs, crcIs, length_take]
  have nothing (reason : TailReason) (failed : unframe 256 buf = .error reason) :
      best = preferState best (slotState file.view slot) := by
    simp [slotState, ← bufIs, failed, preferState]
  split_ifs with outOfRange
  · refine .pure holds ⟨rfl, ?_⟩
    unfold unframe at nothing
    simp only at nothing
    by_cases short : buf.length < header
    · exact nothing .shortHeader (if_pos short)
    · rw [if_neg short, if_pos (by omega)] at nothing
      exact nothing .badLength rfl
  have long : ¬ buf.length < header := by omega
  have inRange : ¬ (leValue (buf.take 4) = 0 ∨ leValue (buf.take 4) > 256) := by omega
  refine .bind (.ask holds ?_)
  intro reply next answers
  rcases Disk.answers_readAt found answers with ⟨rfl | ⟨failing, _⟩, rfl⟩
  swap
  · exact absurd failing honest
  refine ⟨holds, ?_⟩
  simp only [bodyIs]
  set len := leValue (buf.take 4) with lenIs'
  have bodyLength : ((buf.drop header).take len).length = min len (buf.length - header) := by
    rw [length_take, length_drop]
  split_ifs with damaged
  · refine .pure holds ⟨rfl, ?_⟩
    by_cases short : buf.length < header + len
    · refine nothing .shortBody ?_
      simp only [unframe, if_neg long, ← lenIs', if_neg inRange, if_pos short]
    · have mismatch : (crc32c ((buf.drop header).take len)).toNat ≠
          leValue ((buf.drop 4).take 4) := by
        rcases damaged with cut | mismatch
        · omega
        · exact mismatch
      refine nothing .badChecksum ?_
      simp only [unframe, if_neg long, ← lenIs', if_neg inRange, if_neg short, if_pos mismatch]
  · have whole : ¬ buf.length < header + len := by omega
    have valid : unframe 256 buf = .ok ((buf.drop header).take len) := by
      simp only [unframe, if_neg long, ← lenIs', if_neg inRange, if_neg whole]
      rw [if_neg (by tauto)]
    have reading : slotState file.view slot =
        match Wal.decodeHardState ((buf.drop header).take len) with
        | .error _ => none
        | .ok (found, _) => some found := by
      simp only [slotState, ← bufIs, valid]
    cases decoded : Wal.decodeHardState ((buf.drop header).take len) with
    | error reason =>
      refine .pure holds ⟨rfl, ?_⟩
      simp [reading, decoded, preferState]
    | ok result =>
      rcases result with ⟨⟨seq, hs⟩, rest⟩
      simp only [reading, decoded, preferState]
      split_ifs with newer
      · exact .pure holds ⟨rfl, rfl⟩
      · exact .pure holds ⟨rfl, rfl⟩

theorem readHardState_safe (honest : ¬ faults.any) (found : disk.get .state = some file)
    (holds : crash disk) :
    Prog.Safe (Disk.Answers faults) crash Wal.readHardState
      (fun result after => after = disk ∧ result = newestState file.view) disk := by
  unfold Wal.readHardState
  refine .bind ((readHardStateSlot_safe honest found holds _ 0).follow ?_)
  rintro _ after _ ⟨same, rfl⟩
  rw [same]
  exact readHardStateSlot_safe honest found holds _ 1

end Reading

def stateBody (saved : SavedState) : Bytes :=
  Writer.u64 saved.1 ++ (Writer.u64 saved.2.term ++
    (Writer.u64 saved.2.commit ++ Writer.opt Writer.u32 saved.2.vote))

/-- A hard state that can be saved under a sequence number. -/
structure StateFits (saved : SavedState) : Prop where
  seq : saved.1 < 2 ^ 64
  term : saved.2.term < 2 ^ 64
  commit : saved.2.commit < 2 ^ 64
  vote : ∀ node, saved.2.vote = some node → node < 2 ^ 32

theorem length_stateBody (saved : SavedState) :
    25 ≤ (stateBody saved).length ∧ (stateBody saved).length ≤ 29 := by
  cases vote : saved.2.vote <;>
    simp [stateBody, Writer.u64, Writer.u32, Writer.u8, Writer.opt, vote]

theorem stateBody_isPlausible (saved : SavedState) : Plausible 256 (stateBody saved) := by
  have := length_stateBody saved
  exact ⟨by omega, by omega⟩

theorem decodeHardState_stateBody {saved : SavedState} (fits : StateFits saved) :
    Inverts Wal.decodeHardState (stateBody saved) saved :=
  (Inverts.u64 fits.seq).bind ((Inverts.u64 fits.term).bind ((Inverts.u64 fits.commit).bind
    ((Inverts.opt fun node isVote => Inverts.u32 (fits.vote node isVote)).map _)))

variable {buf : Bytes} {slot : ℕ}

theorem slotState_of_isPrefix {saved : SavedState} (fits : StateFits saved)
    (framed : frame (stateBody saved) <+: buf.drop (slot * stateSlot)) :
    slotState buf slot = some saved := by
  rcases framed with ⟨rest, isRest⟩
  have decoded := decodeHardState_stateBody fits []
  rw [append_nil] at decoded
  simp only [slotState, ← isRest, unframe_frame (by decide : 256 < 2 ^ 32)
    (stateBody_isPlausible saved), decoded]

theorem exists_frame_of_slotState {found : SavedState} (read : slotState buf slot = some found) :
    ∃ body, Plausible 256 body ∧ frame body <+: buf.drop (slot * stateSlot) := by
  unfold slotState at read
  cases unframed : unframe 256 (buf.drop (slot * stateSlot)) with
  | error reason => simp [unframed] at read
  | ok body => exact ⟨body, frame_of_unframe unframed⟩

variable {body : Bytes}

theorem slotState_congr {other : Bytes} (isPlausible : Plausible 256 body)
    (starts : frame body <+: buf.drop (slot * stateSlot))
    (starts' : frame body <+: other.drop (slot * stateSlot)) :
    slotState buf slot = slotState other slot := by
  rcases starts with ⟨rest, isRest⟩
  rcases starts' with ⟨rest', isRest'⟩
  simp only [slotState, ← isRest, ← isRest', unframe_frame (by decide : 256 < 2 ^ 32) isPlausible]

theorem unframe_take {limit count : ℕ} (far : header + limit ≤ count) (buf : Bytes) :
    unframe limit (buf.take count) = unframe limit buf := by
  by_cases all : buf.length ≤ count
  · rw [take_of_length_le all]
  · have len : (buf.take count).take 4 = buf.take 4 := by
      rw [take_take, min_eq_left]
      rw [header] at far
      omega
    have crc : ((buf.take count).drop 4).take 4 = (buf.drop 4).take 4 := by
      rw [drop_take, take_take, min_eq_left]
      rw [header] at far
      omega
    have body (size : ℕ) (fits : size ≤ limit) :
        ((buf.take count).drop header).take size = (buf.drop header).take size := by
      rw [drop_take, take_take, min_eq_left]
      omega
    have long : (buf.take count).length = count := by
      rw [length_take]
      omega
    simp only [unframe, len, crc, long]
    rw [if_neg (by omega), if_neg (by omega : ¬ buf.length < header)]
    by_cases outOfRange : leValue (buf.take 4) = 0 ∨ leValue (buf.take 4) > limit
    · rw [if_pos outOfRange, if_pos outOfRange]
    · have short : ¬ count < header + leValue (buf.take 4) := by omega
      have short' : ¬ buf.length < header + leValue (buf.take 4) := by omega
      rw [if_neg outOfRange, if_neg outOfRange, if_neg short, if_neg short', body _ (by omega)]

/-- Zeros behind the end of the file do not complete a record in the first slot. -/
def Stable (image : Bytes) : Prop :=
  ∀ count, slotState (image ++ List.replicate count 0) 0 = slotState image 0

theorem leValue_replicate (count : ℕ) : leValue (List.replicate count 0) = 0 := by
  induction count with
  | zero => rfl
  | succ count ih => simp [replicate_succ, leValue, ih]

theorem stable_nil : Stable [] := by
  intro count
  have empty : slotState [] 0 = none := rfl
  rw [nil_append, empty, slotState, Nat.zero_mul, drop_zero, unframe]
  by_cases short : (List.replicate count (0 : UInt8)).length < header
  · rw [if_pos short]
  · rw [if_neg short, take_replicate, leValue_replicate]
    simp

theorem slotState_zero_take {count : ℕ} (far : header + 256 ≤ count) (buf : Bytes) :
    slotState (buf.take count) 0 = slotState buf 0 := by
  simp only [slotState, Nat.zero_mul, drop_zero, unframe_take far]

theorem stable_of_le {image : Bytes} (long : header + 256 ≤ image.length) : Stable image := by
  intro count
  rw [← slotState_zero_take long, take_left' rfl]

theorem stable_of_isPrefix {image : Bytes} (isPlausible : Plausible 256 body)
    (framed : frame body <+: image) : Stable image := by
  intro count
  apply slotState_congr isPlausible
  · simpa using framed.trans (prefix_append ..)
  · simpa using framed

theorem slotState_splice_other {image data : Bytes} (isSlot : slot = 0 ∨ slot = 1)
    (stable : Stable image) (short : data.length ≤ stateSlot) :
    slotState (splice image (slot * stateSlot) data) (1 - slot) = slotState image (1 - slot) := by
  rcases isSlot with rfl | rfl
  · have untouched : (splice image (0 * stateSlot) data).drop (1 * stateSlot) =
        image.drop (1 * stateSlot) := by
      simp only [splice, Nat.zero_mul, Nat.one_mul, Nat.zero_add, take_zero, nil_append]
      rw [drop_append, drop_eq_nil_of_le short, nil_append, drop_drop,
        show data.length + (stateSlot - data.length) = stateSlot by omega, drop_append,
        drop_replicate,
        show data.length - image.length - (stateSlot - image.length) = 0 by omega]
      simp
    simp only [slotState, Nat.sub_zero, untouched]
  · have first : (splice image (1 * stateSlot) data).take stateSlot =
        (image ++ List.replicate (stateSlot + data.length - image.length) 0).take stateSlot := by
      simp only [splice, Nat.one_mul]
      rw [take_append_of_le_length, take_take, min_self]
      rw [length_take, length_append, length_replicate]
      omega
    have far : header + 256 ≤ stateSlot := by decide
    rw [Nat.sub_self, ← slotState_zero_take far, first, slotState_zero_take far, stable]

structure StateOnly (disk after : Disk FileName) : Prop where
  segments : segmentFiles after = segmentFiles disk
  slots : slotFiles after = slotFiles disk

theorem StateOnly.refl (disk : Disk FileName) : StateOnly disk disk := ⟨rfl, rfl⟩

theorem StateOnly.insert {disk after : Disk FileName} (only : StateOnly disk after)
    (file : FileState) : StateOnly disk (after.insert .state file) :=
  ⟨(segmentFiles_insert_state ..).trans only.segments,
    (slotFiles_insert_state ..).trans only.slots⟩

/-- What holds at any moment of a save of `saved`: the file is as before, or the write is
pending, or it is durable. -/
structure StateUnderway (image : Bytes) (saved : SavedState) (disk after : Disk FileName) :
    Prop where
  only : StateOnly disk after
  file : after.get .state = some (.rebooted image) ∨
    after.get .state = some ((FileState.rebooted image).writeAt (saved.1 % 2 * stateSlot)
      (frame (stateBody saved))) ∨
    after.get .state = some (.rebooted (splice image (saved.1 % 2 * stateSlot)
      (frame (stateBody saved))))

section Saving

variable {faults : Faults} {disk after : Disk FileName} {image : Bytes} {wal : Wal}
  {saved : SavedState}

theorem saveHardState_runs (rests : disk.get .state = some (.rebooted image)) (hs : HardState) :
    Routine.Runs (Disk.Answers faults) (StateUnderway image (wal.stateSeq + 1, hs) disk)
      (Wal.saveHardState hs)
      (fun result wal' after => wal' = { wal with stateSeq := wal.stateSeq + 1 } ∧
        StateOnly disk after ∧
        match result with
        | .ok () => after.get .state = some (.rebooted (splice image
            ((wal.stateSeq + 1) % 2 * stateSlot) (frame (stateBody (wal.stateSeq + 1, hs)))))
        | .error _ => (faults.full ∨ faults.any) ∧ (faults.any ∨ after = disk)) wal disk := by
  have start : StateUnderway image (wal.stateSeq + 1, hs) disk disk := ⟨.refl disk, Or.inl rests⟩
  unfold Wal.saveHardState
  refine .bind (.update start (.bind (.get start (.attempt_bind start ?_))))
  intro reply written answers
  rcases Disk.answers_writeAt rests answers with ⟨rfl, rfl⟩ | ⟨refused, rfl⟩
  swap
  · rcases refused with ⟨full, rfl⟩ | ⟨failing, error, rfl⟩
    · exact ⟨start, rfl, .refl _, Or.inl full, Or.inr rfl⟩
    · exact ⟨start, rfl, .refl _, Or.inr failing, Or.inl failing⟩
  set data := frame (stateBody (wal.stateSeq + 1, hs)) with dataIs
  set file := (FileState.rebooted image).writeAt ((wal.stateSeq + 1) % 2 * stateSlot) data
    with fileIs
  have underway : StateUnderway image (wal.stateSeq + 1, hs) disk (disk.insert .state file) :=
    ⟨(StateOnly.refl disk).insert file, Or.inr (Or.inl (by simp [fileIs, dataIs]))⟩
  refine ⟨underway, .attempt underway ?_⟩
  intro reply synced answers
  have found : (disk.insert .state file).get .state = some file := by simp
  rcases Disk.answers_fsync found answers with ⟨rfl, rfl⟩ | ⟨failing, ⟨error, rfl⟩, rfl⟩
  swap
  · exact ⟨underway, rfl, underway.only, Or.inr failing, Or.inl failing⟩
  have landed : file.fsync =
      .rebooted (splice image ((wal.stateSeq + 1) % 2 * stateSlot) data) := by
    rw [fileIs, FileState.writeAt, ((FileState.replays_rebooted image).issue _).fsync]
    rfl
  have only := ((StateOnly.refl disk).insert file).insert file.fsync
  have done : ((disk.insert .state file).insert .state file.fsync).get .state = some
      (.rebooted (splice image ((wal.stateSeq + 1) % 2 * stateSlot) data)) := by simp [landed]
  exact ⟨⟨only, Or.inr (Or.inr done)⟩, rfl, only, done⟩

theorem drop_splice (buf : Bytes) (offset : ℕ) (data : Bytes) :
    (splice buf offset data).drop offset = data ++ buf.drop (offset + data.length) := by
  have long : ((buf ++ List.replicate (offset + data.length - buf.length) 0).take offset).length =
      offset := by
    rw [length_take, length_append, length_replicate]
    omega
  rw [splice, drop_left' long, drop_append, drop_replicate,
    show offset + data.length - buf.length - (offset + data.length - buf.length) = 0 by omega]
  simp

theorem isPrefix_drop_splice (buf : Bytes) (offset : ℕ) (data : Bytes) :
    data <+: (splice buf offset data).drop offset := by
  rw [drop_splice]
  exact prefix_append ..

theorem slotState_splice_target (fits : StateFits saved) (image : Bytes) :
    slotState (splice image (saved.1 % 2 * stateSlot) (frame (stateBody saved))) (saved.1 % 2) =
      some saved :=
  slotState_of_isPrefix fits (isPrefix_drop_splice ..)

theorem length_frame_stateBody (saved : SavedState) :
    (frame (stateBody saved)).length ≤ stateSlot := by
  have := length_stateBody saved
  rw [length_frame, header, stateSlot]
  omega

theorem stable_splice (image : Bytes) (saved : SavedState) :
    Stable (splice image (saved.1 % 2 * stateSlot) (frame (stateBody saved))) := by
  rcases Nat.mod_two_eq_zero_or_one saved.1 with even | odd
  · apply stable_of_isPrefix (stateBody_isPlausible saved)
    simpa [even] using isPrefix_drop_splice image (0 * stateSlot) (frame (stateBody saved))
  · apply stable_of_le
    rw [length_splice, odd]
    exact le_max_of_le_right (Nat.le_add_right_of_le (by decide))

/-- What a crash during a save leaves: the other slot as it was, and in this one the new record,
what was there, or nothing that can be read. -/
theorem StateUnderway.crash {sector : ℕ} {lost : Disk FileName}
    (underway : StateUnderway image saved disk after) (crash : Crash sector after lost)
    (stable : Stable image) (fits : StateFits saved) :
    ∃ image', lost.get .state = some (.rebooted image') ∧
      slotState image' (1 - saved.1 % 2) = slotState image (1 - saved.1 % 2) ∧
      (slotState image' (saved.1 % 2) = some saved ∨
        slotState image' (saved.1 % 2) = slotState image (saved.1 % 2) ∨
        slotState image' (saved.1 % 2) = none) := by
  have isSlot := Nat.mod_two_eq_zero_or_one saved.1
  have short := length_frame_stateBody saved
  rcases underway.file with before | pending | done
  · rcases crash.get before with ⟨image', survives, isRebooted⟩
    cases survives_rebooted survives
    exact ⟨_, isRebooted, rfl, Or.inr (Or.inl rfl)⟩
  · rcases crash.get pending with ⟨image', survives, isRebooted⟩
    refine ⟨image', isRebooted, ?_, ?_⟩
    · rcases survives.1 with ⟨sector', lands⟩
      cases lands with
      | next fate possible rest =>
        cases rest
        cases fate with
        | lost => rfl
        | kept => exact slotState_splice_other isSlot stable short
        | torn keepSectors =>
          simp only [PendingOp.land]
          split_ifs
          · apply slotState_splice_other isSlot stable
            exact (length_take_le' ..).trans short
          · rfl
    · cases reading : slotState image' (saved.1 % 2) with
      | none => exact Or.inr (Or.inr rfl)
      | some found =>
        rcases exists_frame_of_slotState reading with ⟨body, isPlausible, framed⟩
        have isPlausible' : Plausible maxRecord body :=
          ⟨isPlausible.1, isPlausible.2.trans (by decide)⟩
        rcases survives.2 _ _ (mem_singleton_self _) body isPlausible' framed with
          written | wasThere
        · have same : frame body = frame (stateBody saved) := by
            simpa [FileState.writeAt, FileState.issue, FileState.rebooted] using written
          rw [same] at framed
          rw [← reading]
          exact Or.inl (slotState_of_isPrefix fits framed)
        · rw [← reading]
          exact Or.inr (Or.inl (slotState_congr isPlausible framed wasThere))
  · rcases crash.get done with ⟨image', survives, isRebooted⟩
    cases survives_rebooted survives
    exact ⟨_, isRebooted, slotState_splice_other isSlot stable short,
      Or.inl (slotState_splice_target fits image)⟩

end Saving

/-- A record without its last byte is none, unless the byte that follows happens to be that one. -/
theorem not_isPrefix_torn {rest other : Bytes} {last : UInt8} (short : body.length < 2 ^ 31)
    (differs : ∀ next, rest.head? = some next → next ≠ last)
    (isPlausible : Plausible maxRecord other) :
    ¬ frame other <+: (frame (body ++ [last])).take (header + body.length) ++ rest := by
  intro framed
  have tornIs : (frame (body ++ [last])).take (header + body.length) =
      leBytes 4 (body.length + 1) ++ (leBytes 4 (crc32c (body ++ [last])).toNat ++ body) := by
    have whole : frame (body ++ [last]) = (leBytes 4 (body.length + 1) ++
        (leBytes 4 (crc32c (body ++ [last])).toNat ++ body)) ++ [last] := by
      simp [frame, Writer.u32]
    rw [whole]
    apply take_left'
    simp [header]
    omega
  rcases framed with ⟨more, same⟩
  rw [tornIs, frame, Writer.u32, Writer.u32] at same
  simp only [append_assoc] at same
  rcases append_inj same (by simp) with ⟨sameLength, same⟩
  rcases append_inj same (by simp) with ⟨sameCrc, same⟩
  have small : other.length < 2 ^ 32 := isPlausible.2.trans_lt maxRecord_lt
  have lengthIs : other.length = body.length + 1 := by
    have values := congrArg leValue sameLength
    rwa [leValue_leBytes (by omega), leValue_leBytes (by omega)] at values
  have crcIs : crc32c other = crc32c (body ++ [last]) := by
    have values := congrArg leValue sameCrc
    have bound (crc : UInt32) : crc.toNat < 256 ^ 4 := crc.toNat_lt
    rw [leValue_leBytes (bound _), leValue_leBytes (bound _)] at values
    exact UInt32.toNat_inj.mp values
  cases rest with
  | nil =>
    have lengths := congrArg List.length same
    simp only [append_nil, length_append] at lengths
    omega
  | cons next rest =>
    rw [show body ++ next :: rest = (body ++ [next]) ++ rest by simp] at same
    have otherIs := (append_inj same (by simp [lengthIs])).1
    rw [otherIs] at crcIs
    exact differs next rfl (crc32c_last_injective crcIs)

/-- A hard state whose record ends in a given byte. -/
def HardState.endingIn (last : UInt8) : HardState :=
  { term := 0, vote := some (last.toNat * 2 ^ 24), commit := 0 }

theorem stateBody_endingIn (seq : ℕ) (last : UInt8) :
    ∃ body, stateBody (seq, .endingIn last) = body ++ [last] ∧ body.length = 28 := by
  have bytes : leBytes 4 (last.toNat * 2 ^ 24) = [0, 0, 0, last] := by
    have zero : last.toNat * 2 ^ 24 % 256 = 0 := by omega
    have zero' : last.toNat * 2 ^ 24 / 256 % 256 = 0 := by omega
    have zero'' : last.toNat * 2 ^ 24 / 256 / 256 % 256 = 0 := by omega
    have byte : last.toNat * 2 ^ 24 / 256 / 256 / 256 % 256 = last.toNat := by
      have := last.toNat_lt
      omega
    simp only [leBytes, zero, zero', zero'', byte, UInt8.ofNat_toNat]
    rfl
  refine ⟨leBytes 8 seq ++ (leBytes 8 0 ++ (leBytes 8 0 ++ [1, 0, 0, 0])), ?_, by simp⟩
  simp only [stateBody, HardState.endingIn, Writer.u64, Writer.opt, Writer.u8, Writer.u32, bytes,
    append_assoc]
  rfl

/-- Whatever a slot holds, some save to it can be torn so that nothing is readable. -/
theorem exists_torn (image : Bytes) {seq : ℕ} (fits : seq < 2 ^ 64) :
    ∃ hs, StateFits (seq, hs) ∧ ∃ image',
      Lands 1 [.write (seq % 2 * stateSlot) (frame (stateBody (seq, hs)))] image image' ∧
      ∀ body, Plausible maxRecord body → ¬ frame body <+: image'.drop (seq % 2 * stateSlot) := by
  set offset := seq % 2 * stateSlot
  have another : ∃ last : UInt8, ∀ next, (image.drop (offset + 36)).head? = some next →
      next ≠ last := by
    by_cases zero : (image.drop (offset + 36)).head? = some 0
    · refine ⟨1, ?_⟩
      intro next isNext
      cases zero.symm.trans isNext
      decide
    · refine ⟨0, ?_⟩
      rintro next isNext rfl
      exact zero isNext
  rcases another with ⟨last, differs⟩
  rcases stateBody_endingIn seq last with ⟨body, bodyIs, length⟩
  have isFrame : (frame (stateBody (seq, .endingIn last))).length = 37 := by
    rw [length_frame, bodyIs, length_append, length]
    rfl
  have stateFits : StateFits (seq, .endingIn last) := by
    refine ⟨fits, by simp [HardState.endingIn], by simp [HardState.endingIn], ?_⟩
    rintro _ ⟨⟩
    have small : last.toNat * 2 ^ 24 < 2 ^ 32 := by
      have := last.toNat_lt
      omega
    exact small
  refine ⟨.endingIn last, stateFits, splice image offset
    ((frame (stateBody (seq, .endingIn last))).take 36), .next (.torn 36) ?_ ?_, ?_⟩
  · refine ⟨by omega, ?_⟩
    rw [isFrame, Nat.div_one, Nat.div_one]
    omega
  · have keep : keepBytes 1 offset 37 36 = 36 := by
      rw [keepBytes, if_neg (by decide), Nat.div_one, Nat.mul_one]
      omega
    simp only [PendingOp.land, isFrame, keep]
    exact .done _
  · intro other isPlausible
    rw [drop_splice, length_take, isFrame, bodyIs]
    have torn := @not_isPrefix_torn body _ other last (by omega) differs isPlausible
    rwa [length] at torn

end ChronoScope.Chronolog
