import ChronoScope.Chronolog.Shortening

/-!
# The log after an error

Every call to storage may fail, and an operation that fails leaves the log in
memory as it was at that moment. Whatever the disk looks like then, the next
append needs a segment to write to, and it relies on the segments continuing
each other when it decides which index comes next.

Segments leave the list before their files are removed. As long as one of them
stays that is harmless, but a restart of the log takes all of them out and puts
the new one in last: a file that cannot be removed, or one that cannot be opened,
leaves no segment at all.
-/

namespace ChronoScope.Chronolog

open List

open Sim (Disk IoError Request)

namespace Wal

/-- There is a segment to append to, and each segment continues the one before. -/
structure Usable (wal : Wal) : Prop where
  nonempty : wal.segments ≠ []
  contiguous : wal.segments.IsChain fun seg next => next.firstIndex = seg.lastIndex + 1

section Segments

variable {wal : Wal} {before : List Segment} {seg : Segment}

theorem Usable.exists_last (usable : wal.Usable) : ∃ before seg, wal.segments = before ++ [seg] :=
  ⟨_, _, (dropLast_append_getLast usable.nonempty).symm⟩

theorem lastIndex_of_last (segments : wal.segments = before ++ [seg]) :
    wal.lastIndex = seg.lastIndex := by
  simp [lastIndex, segments]

theorem lastIndex_snoc (wal : Wal) (before : List Segment) (seg : Segment) :
    lastIndex { wal with segments := before ++ [seg] } = seg.lastIndex := lastIndex_of_last rfl

theorem Usable.replace (usable : wal.Usable) (segments : wal.segments = before ++ [seg])
    {changed : Segment} (sameStart : changed.firstIndex = seg.firstIndex) :
    Usable { wal with segments := before ++ [changed] } := by
  refine ⟨by simp, ?_⟩
  have contiguous := usable.contiguous
  rw [segments, isChain_append] at contiguous
  rcases contiguous with ⟨chain, _, joined⟩
  refine isChain_append.mpr ⟨chain, .singleton _, ?_⟩
  rintro last isLast _ ⟨⟩
  rw [sameStart]
  exact joined last isLast seg rfl

theorem Usable.push (usable : wal.Usable) :
    Usable { wal with segments := wal.segments ++ [.fresh (wal.lastIndex + 1)] } := by
  rcases usable.exists_last with ⟨before, seg, segments⟩
  refine ⟨by simp, isChain_append.mpr ⟨usable.contiguous, .singleton _, ?_⟩⟩
  rintro last isLast _ ⟨⟩
  rw [lastIndex_of_last segments]
  simp only [segments, getLast?_append, getLast?_singleton, Option.some_or,
    Option.mem_some_iff] at isLast
  rw [isLast]
  rfl

theorem firstIndex_append (usable : wal.Usable) (more : List Segment) :
    firstIndex { wal with segments := wal.segments ++ more } = wal.firstIndex := by
  rcases exists_cons_of_ne_nil usable.nonempty with ⟨first, rest, segments⟩
  simp [firstIndex, segments]

theorem firstIndex_replace (segments : wal.segments = before ++ [seg]) {changed : Segment}
    (sameStart : changed.firstIndex = seg.firstIndex) :
    firstIndex { wal with segments := before ++ [changed] } = wal.firstIndex := by
  cases before with
  | nil => simp [firstIndex, segments, sameStart]
  | cons first rest => simp [firstIndex, segments]

end Segments

/-- An error, if any, is one of the storage. -/
def NoPanic {α : Type} (result : Except Failure α) : Prop :=
  ∀ message, result ≠ .error (.panic message)

theorem noPanic_ok {α : Type} (value : α) : NoPanic (.ok value) := nofun

theorem noPanic_io {α : Type} (error : IoError) : NoPanic (.error (.io error) : Except Failure α) :=
  nofun

variable {op : Request FileName (Except IoError Unit)}

section Operations

variable {S : Type} {device : Device (Request FileName) S} {state : S} {wal : Wal}

/-- Usable as before, with the same first and last index. -/
structure Kept (wal wal' : Wal) : Prop where
  usable : wal'.Usable
  firstIndex : wal'.firstIndex = wal.firstIndex
  lastIndex : wal'.lastIndex = wal.lastIndex

theorem Usable.kept (usable : wal.Usable) : Kept wal wal := ⟨usable, rfl, rfl⟩

theorem attempt_noPanic (op : Request FileName (Except IoError Unit)) :
    Routine.Ensures device (Routine.attempt Failure.io op)
      (fun result wal' _ => NoPanic result ∧ wal' = wal) wal state := by
  refine .attempt trivial fun reply after _ => ⟨trivial, ?_, rfl⟩
  cases reply with
  | error error => exact noPanic_io error
  | ok => exact noPanic_ok ()

theorem attempt_bind_noPanic {next : Unit → WalM Unit} {keeps : Wal → Prop} (kept : keeps wal)
    (continues : ∀ state,
      Routine.Ensures device (next ())
        (fun result wal' _ => NoPanic result ∧ keeps wal') wal state) :
    Routine.Ensures device (Routine.attempt Failure.io op >>= next)
      (fun result wal' _ => NoPanic result ∧ keeps wal') wal state := by
  refine .bind ((attempt_noPanic op).follow ?_)
  rintro (error | _) _ after _ ⟨noPanic, rfl⟩
  · exact ⟨noPanic, kept⟩
  · exact continues after

theorem openSegment_leaves (index : ℕ) :
    Routine.Ensures device (openSegment index)
      (fun result wal' _ => NoPanic result ∧ (wal' = wal ∨
        wal' = { wal with segments := wal.segments ++ [.fresh index] })) wal state := by
  unfold openSegment
  refine attempt_bind_noPanic (.inl rfl) fun _ => ?_
  refine .bind (.request trivial fun _ _ _ => ⟨trivial, .bind (.update trivial ?_)⟩)
  exact (attempt_noPanic _).follow fun _ _ _ _ done => ⟨done.1, .inr done.2⟩

theorem openSegment_kept (usable : wal.Usable) :
    Routine.Ensures device (openSegment (wal.lastIndex + 1))
      (fun result wal' _ => NoPanic result ∧ Kept wal wal') wal state := by
  refine (openSegment_leaves _).follow ?_
  rintro _ _ _ _ ⟨noPanic, rfl | rfl⟩
  · exact ⟨noPanic, usable.kept⟩
  · exact ⟨noPanic, usable.push, firstIndex_append usable _, lastIndex_snoc ..⟩

theorem rollOver_kept (usable : wal.Usable) {index : ℕ} (next : index = wal.lastIndex + 1) :
    Routine.Ensures device (rollOver index)
      (fun result wal' _ => NoPanic result ∧ Kept wal wal') wal state := by
  unfold rollOver
  refine .bind (.get trivial ?_)
  dsimp only
  split_ifs
  · rw [next]
    exact openSegment_kept usable
  · exact .pure trivial ⟨noPanic_ok (), usable.kept⟩

theorem writeRecord_usable (usable : wal.Usable) (entry : Entry) :
    Routine.Ensures device (writeRecord entry)
      (fun result wal' _ => NoPanic result ∧ wal'.Usable ∧ wal'.firstIndex = wal.firstIndex ∧
        wal'.lastIndex = if result = .ok () then entry.index else wal.lastIndex) wal state := by
  rcases usable.exists_last with ⟨before, seg, segments⟩
  unfold writeRecord
  refine .bind (.get trivial ?_)
  simp only [segments, getLast?_append, getLast?_singleton, Option.some_or]
  refine .bind (.update trivial (.attempt_bind trivial fun reply after _ => ⟨trivial, ?_⟩))
  rw [mapLast_eq segments]
  cases reply with
  | error error =>
    refine ⟨noPanic_io error, usable.replace segments rfl, firstIndex_replace segments rfl, ?_⟩
    rw [lastIndex_snoc, lastIndex_of_last segments]
    rfl
  | ok =>
    refine .update trivial ⟨noPanic_ok (), ?_⟩
    rw [mapLast_eq rfl]
    exact ⟨usable.replace segments rfl, firstIndex_replace segments rfl, lastIndex_snoc ..⟩

/-- Entries of which some may have been written when writing them fails. -/
def Splits (wal : Wal) (entries : List Entry) : Prop :=
  2 ≤ entries.length ∧ entries.head?.map Entry.index = some (wal.lastIndex + 1)

theorem appendInner_usable (usable : wal.Usable) (batch entries : List Entry) :
    Routine.Ensures device (appendInner batch entries)
      (fun result wal' _ => NoPanic result ∧ wal'.Usable ∧ wal'.firstIndex = wal.firstIndex ∧
        (result = .ok () → Numbered (wal.lastIndex + 1) entries) ∧
        (result ≠ .ok () →
          entries ≠ [] ∧ (wal'.lastIndex = wal.lastIndex ∨ wal.Splits entries))) wal state := by
  induction entries generalizing wal state with
  | nil => exact .pure trivial ⟨noPanic_ok (), usable, rfl, fun _ => trivial, fun failed =>
    absurd rfl failed⟩
  | cons entry rest ih =>
    unfold appendInner
    refine .bind (.get trivial ?_)
    dsimp only
    split_ifs with isNext
    · exact .throw trivial ⟨noPanic_io _, usable, rfl, nofun, fun _ => ⟨nofun, .inl rfl⟩⟩
    · rw [ne_eq, not_not] at isNext
      refine .bind ((rollOver_kept usable isNext).follow ?_)
      rintro (error | _) rolled after _ ⟨noPanic, kept⟩
      · exact ⟨noPanic, kept.usable, kept.firstIndex, nofun,
          fun _ => ⟨nofun, .inl kept.lastIndex⟩⟩
      refine .bind ((writeRecord_usable kept.usable entry).follow ?_)
      rintro (error | _) written after _ ⟨noPanic, stillUsable, sameFirst, last⟩
      · rw [if_neg nofun] at last
        exact ⟨noPanic, stillUsable, sameFirst.trans kept.firstIndex, nofun,
          fun _ => ⟨nofun, .inl (last.trans kept.lastIndex)⟩⟩
      rw [if_pos rfl] at last
      refine (ih stillUsable).follow ?_
      rintro result wal' after _ ⟨noPanic, usable', sameFirst', numbered, failed⟩
      refine ⟨noPanic, usable', (sameFirst'.trans sameFirst).trans kept.firstIndex, ?_, ?_⟩
      · intro done
        rw [last, isNext] at numbered
        exact ⟨isNext, numbered done⟩
      · intro error
        have more := length_pos_iff.mpr (failed error).1
        exact ⟨nofun, .inr ⟨Nat.succ_le_succ more, congrArg some isNext⟩⟩

theorem removeSegments_noPanic (segs : List Segment) :
    Routine.Ensures device (removeSegments segs)
      (fun result wal' _ => NoPanic result ∧ wal' = wal) wal state := by
  induction segs generalizing state with
  | nil => exact .pure trivial ⟨noPanic_ok (), rfl⟩
  | cons seg rest ih => exact attempt_bind_noPanic rfl fun _ => ih

theorem popSegments_usable (usable : wal.Usable) (start turns : ℕ) :
    Routine.Ensures device (popSegments start turns)
      (fun result wal' _ => NoPanic result ∧ wal'.Usable) wal state := by
  induction turns generalizing wal state with
  | zero => exact .pure trivial ⟨noPanic_ok (), usable⟩
  | succ turns ih =>
    rcases usable.exists_last with ⟨before, seg, segments⟩
    unfold popSegments
    refine .bind (.get trivial ?_)
    simp only [segments, getLast?_append, getLast?_singleton, Option.some_or,
      dropLast_concat]
    split_ifs with later
    · have shorter : Usable { wal with segments := before } := by
        refine ⟨?_, (isChain_append.mp (segments ▸ usable.contiguous)).1⟩
        rintro rfl
        simp at later
      exact .bind (.set trivial (attempt_bind_noPanic shorter fun _ => ih shorter))
    · exact .pure trivial ⟨noPanic_ok (), usable⟩

theorem cutLast_usable (usable : wal.Usable) (start : ℕ) :
    Routine.Ensures device (cutLast start)
      (fun result wal' _ => NoPanic result ∧ wal'.Usable) wal state := by
  rcases usable.exists_last with ⟨before, seg, segments⟩
  unfold cutLast
  refine .bind (.get trivial ?_)
  simp only [segments, getLast?_append, getLast?_singleton, Option.some_or]
  by_cases inside : start ≤ seg.lastIndex
  swap
  · rw [if_neg inside]
    exact .pure trivial ⟨noPanic_ok (), usable⟩
  rw [if_pos inside]
  refine attempt_bind_noPanic usable fun _ => .bind (.update trivial ?_)
  rw [mapLast_eq segments]
  refine attempt_bind_noPanic (usable.replace segments rfl) fun _ => ?_
  refine .update trivial ⟨noPanic_ok (), ?_⟩
  rw [mapLast_eq rfl]
  exact usable.replace segments rfl

theorem resetTo_noPanic (index : ℕ) :
    Routine.Ensures device (resetTo index) (fun result _ _ => NoPanic result) wal state := by
  unfold resetTo
  refine .bind (.get trivial (.bind (.set trivial (.bind ?_))))
  refine (removeSegments_noPanic _).follow ?_
  rintro (error | _) _ after _ ⟨noPanic, rfl⟩
  · exact noPanic
  · exact (openSegment_leaves _).follow fun _ _ _ _ done => done.1

/-- Cutting the log where it starts, or before that, is starting it over. -/
def CutsAll (wal : Wal) (start : ℕ) : Prop := start ≤ wal.lastIndex ∧ start ≤ wal.firstIndex

theorem truncateFrom_usable (usable : wal.Usable) (start : ℕ) :
    Routine.Ensures device (truncateFrom start)
      (fun result wal' _ => NoPanic result ∧ (¬ wal.CutsAll start → wal'.Usable)) wal state := by
  unfold truncateFrom
  refine .bind (.get trivial ?_)
  dsimp only
  split_ifs with beyond atStart
  · exact .pure trivial ⟨noPanic_ok (), fun _ => usable⟩
  · refine (resetTo_noPanic _).follow fun _ _ _ _ noPanic => ⟨noPanic, ?_⟩
    exact fun inside => absurd ⟨not_lt.mp beyond, atStart⟩ inside
  · refine .bind ((popSegments_usable usable start _).follow ?_)
    rintro (error | _) popped after _ ⟨noPanic, usable'⟩
    · exact ⟨noPanic, fun _ => usable'⟩
    · exact (cutLast_usable usable' start).follow fun _ _ _ _ done =>
        ⟨done.1, fun _ => done.2⟩

theorem append_usable (usable : wal.Usable) (entries : List Entry) :
    Routine.Ensures device (append entries)
      (fun result wal' _ => NoPanic result ∧
        (result = .ok () → Numbered (wal.lastIndex + 1) entries) ∧
        (¬ (wal.lastIndex < wal.firstIndex ∧ wal.Splits entries) → wal'.Usable)) wal state := by
  unfold append
  split_ifs with none
  · rw [none]
    exact .pure trivial ⟨noPanic_ok (), fun _ => trivial, fun _ => usable⟩
  refine .bind (.get trivial (.handle ((appendInner_usable usable entries entries).follow ?_)))
  rintro (failure | _) wal' after _ ⟨noPanic, usable', sameFirst, numbered, failed⟩
  swap
  · exact ⟨noPanic, numbered, fun _ => usable'⟩
  cases failure with
  | panic message => exact absurd rfl (noPanic message)
  | io error =>
    refine .bind (.handle ((truncateFrom_usable usable' _).follow ?_))
    have inside (unsplit : ¬ (wal.lastIndex < wal.firstIndex ∧ wal.Splits entries)) :
        ¬ wal'.CutsAll (wal.lastIndex + 1) := by
      rintro ⟨written, atStart⟩
      rw [sameFirst] at atStart
      rcases (failed nofun).2 with unchanged | splits
      · omega
      · exact unsplit ⟨atStart, splits⟩
    rintro (failure | _) cut after _ ⟨noPanic, kept⟩
    · cases failure with
      | panic message => exact absurd rfl (noPanic message)
      | io _ => exact .pure trivial (.throw trivial ⟨noPanic_io error, nofun, fun unsplit =>
        kept (inside unsplit)⟩)
    · exact .throw trivial ⟨noPanic_io error, nofun, fun unsplit => kept (inside unsplit)⟩

theorem compactThrough_usable (usable : wal.Usable) (through : ℕ) :
    Routine.Ensures device (compactThrough through)
      (fun result wal' _ => NoPanic result ∧ wal'.Usable) wal state := by
  unfold compactThrough
  refine .bind (.get trivial (.bind (.set trivial (.bind ?_))))
  generalize counts : keepFrom through _ _ _ _ = count
  have fewer : count < wal.segments.length :=
    counts ▸ (keepFrom_spec through _ _ wal.segments 0).1 usable.nonempty
  have shorter : Usable { wal with segments := wal.segments.drop count } :=
    ⟨by simpa using fewer, usable.contiguous.drop count⟩
  refine (removeSegments_noPanic _).follow ?_
  rintro (error | _) _ after _ ⟨noPanic, rfl⟩
  · exact ⟨noPanic, shorter⟩
  dsimp only
  split_ifs
  · refine (attempt_noPanic _).follow ?_
    rintro _ _ _ _ ⟨noPanic, rfl⟩
    exact ⟨noPanic, shorter⟩
  · exact .pure trivial ⟨noPanic_ok (), shorter⟩

theorem syncSegments_noPanic (segs : List Segment) :
    Prog.Safe device (fun _ => True) (syncSegments segs)
      (fun result _ => NoPanic result.1 ∧
        result.2.map (fun seg => (seg.firstIndex, seg.lastIndex)) =
          segs.map fun seg => (seg.firstIndex, seg.lastIndex)) state := by
  induction segs generalizing state with
  | nil => exact .pure trivial ⟨noPanic_ok (), rfl⟩
  | cons seg rest ih =>
    have anyway (program : Storage (Except IoError Unit)) :
        Prog.Safe device (fun _ => True) program (fun _ _ => True) state :=
      ⟨fun _ _ => trivial, fun _ _ _ => trivial⟩
    unfold syncSegments
    dsimp only
    split_ifs
    all_goals
      refine .bind ((anyway _).follow ?_)
      rintro (error | _) _ _ _
      · exact .pure trivial ⟨noPanic_io error, rfl⟩
      · refine .bind (ih.follow ?_)
        rintro ⟨result, synced⟩ _ _ ⟨noPanic, same⟩
        exact .pure trivial ⟨noPanic, congrArg (_ :: ·) same⟩

theorem sync_usable (usable : wal.Usable) :
    Routine.Ensures device sync (fun result wal' _ => NoPanic result ∧ wal'.Usable) wal state := by
  refine Prog.Safe.bind ((syncSegments_noPanic wal.segments).follow ?_)
  rintro ⟨result, synced⟩ _ _ ⟨noPanic, same⟩
  refine .pure trivial ⟨noPanic, ?_, ?_⟩
  · rintro rfl
    exact usable.nonempty (map_eq_nil_iff.mp same.symm)
  · let continues (span next : ℕ × ℕ) : Prop := next.1 = span.2 + 1
    have spans : (wal.segments.map fun seg => (seg.firstIndex, seg.lastIndex)).IsChain continues :=
      (isChain_map _).mpr usable.contiguous
    rw [← same] at spans
    exact (isChain_map _).mp spans

theorem saveSnapshot_usable (usable : wal.Usable) (snap : Snapshot) :
    Routine.Ensures device (saveSnapshot snap)
      (fun result wal' _ => NoPanic result ∧ wal'.Usable) wal state := by
  have same {other : Wal} (segments : other.segments = wal.segments) : other.Usable :=
    ⟨segments ▸ usable.nonempty, segments ▸ usable.contiguous⟩
  unfold saveSnapshot
  refine .bind (.update trivial (.bind (.get trivial ?_)))
  refine attempt_bind_noPanic (same rfl) fun _ => ?_
  refine attempt_bind_noPanic (same rfl) fun _ => ?_
  refine attempt_bind_noPanic (same rfl) fun _ => ?_
  refine attempt_bind_noPanic (same rfl) fun _ => ?_
  refine attempt_bind_noPanic (same rfl) fun _ => ?_
  exact .update trivial ⟨noPanic_ok (), same rfl⟩

end Operations

inductive Operation where
  | append (entries : List Entry)
  | sync
  | truncateFrom (start : ℕ)
  | resetTo (index : ℕ)
  | compactThrough (through : ℕ)
  | saveSnapshot (snap : Snapshot)

namespace Operation

def routine : Operation → WalM Unit
  | append entries => Wal.append entries
  | sync => Wal.sync
  | truncateFrom start => Wal.truncateFrom start
  | resetTo index => Wal.resetTo index
  | compactThrough through => Wal.compactThrough through
  | saveSnapshot snap => Wal.saveSnapshot snap

/-- The result and the log in memory, if the disk refuses the calls the script has errors for. -/
def outcome (op : Operation) (script : ℕ → Option IoError) (disk : Disk FileName) (wal : Wal) :
    Except Failure Unit × Wal :=
  ((op.routine.run.run wal).run (Disk.scripted script) (0, disk)).1

/-- The operation starts the log over, or may have to do so in order to undo what it began. -/
def Restarts (wal : Wal) : Operation → Prop
  | append entries => wal.lastIndex < wal.firstIndex ∧ wal.Splits entries
  | truncateFrom start => wal.CutsAll start
  | resetTo _ => True
  | _ => False

end Operation

def Scripted (script : ℕ → Option IoError) : Device (Request FileName) (ℕ × Disk FileName) :=
  fun op counted reply after => Disk.scripted script op counted = (reply, after)

theorem Operation.outcome_of_ensures (op : Operation) {script : ℕ → Option IoError}
    {disk : Disk FileName} {wal : Wal} {post : Except Failure Unit → Wal → ℕ × Disk FileName → Prop}
    (ensures : Routine.Ensures (Scripted script) op.routine post wal (0, disk)) :
    ∃ after, post (op.outcome script disk wal).1 (op.outcome script disk wal).2 after :=
  ⟨_, ensures.returned (Prog.returns_run (fun _ _ => rfl) _ _)⟩

section Refused

variable {script : ℕ → Option IoError} {calls : ℕ} {disk : Disk FileName} {wal : Wal}

/-- From this call on everything is refused. -/
def Doomed (script : ℕ → Option IoError) (calls : ℕ) : Prop :=
  ∀ call ≥ calls, ∃ error, script call = some error

section

variable (doomed : Doomed script calls)

include doomed

theorem attempt_doomed (refused : ∀ error, Disk.refusal error op = some (.error error)) :
    Routine.Ensures (Scripted script) (Routine.attempt Failure.io op)
      (fun result wal' after => (∃ error, result = .error (.io error)) ∧ wal' = wal ∧
        calls ≤ after.1) wal (calls, disk) := by
  rcases doomed calls le_rfl with ⟨error, struck⟩
  refine .attempt trivial fun reply after answers => ⟨trivial, ?_⟩
  unfold Scripted at answers
  rw [Disk.scripted_of_some struck (refused error)] at answers
  cases answers
  exact ⟨⟨error, rfl⟩, rfl, Nat.le_succ calls⟩

/-- A log that is started over while nothing can be removed is left without a segment. -/
theorem resetTo_doomed (nonempty : wal.segments ≠ []) (index : ℕ) :
    Routine.Ensures (Scripted script) (resetTo index)
      (fun result wal' _ => (∃ error, result = .error (.io error)) ∧ wal'.segments = [])
      wal (calls, disk) := by
  rcases exists_cons_of_ne_nil nonempty with ⟨seg, rest, segments⟩
  unfold resetTo
  refine .bind (.get trivial (.bind (.set trivial (.bind ?_))))
  rw [segments, removeSegments]
  refine .bind ((attempt_doomed doomed fun _ => rfl).follow ?_)
  rintro _ _ _ _ ⟨⟨error, rfl⟩, rfl, _⟩
  exact ⟨⟨error, rfl⟩, rfl⟩

theorem truncateFrom_doomed (nonempty : wal.segments ≠ []) {start : ℕ} (cuts : wal.CutsAll start) :
    Routine.Ensures (Scripted script) (truncateFrom start)
      (fun result wal' _ => (∃ error, result = .error (.io error)) ∧ wal'.segments = [])
      wal (calls, disk) := by
  unfold truncateFrom
  refine .bind (.get trivial ?_)
  dsimp only
  rw [if_neg (not_lt.mpr cuts.1), if_pos cuts.2]
  exact resetTo_doomed doomed nonempty _

theorem appendInner_doomed (usable : wal.Usable) (batch : List Entry) {entries : List Entry}
    (more : entries ≠ []) :
    Routine.Ensures (Scripted script) (appendInner batch entries)
      (fun result wal' after => (∃ error, result = .error (.io error)) ∧ Kept wal wal' ∧
        calls ≤ after.1) wal (calls, disk) := by
  rcases exists_cons_of_ne_nil more with ⟨entry, rest, rfl⟩
  rcases usable.exists_last with ⟨before, seg, segments⟩
  unfold appendInner
  refine .bind (.get trivial ?_)
  dsimp only
  split_ifs with isNext
  · exact .throw trivial ⟨⟨_, rfl⟩, usable.kept, le_rfl⟩
  unfold rollOver
  refine .bind (.bind (.get trivial ?_))
  dsimp only
  split_ifs
  · unfold openSegment
    refine .bind ((attempt_doomed doomed fun _ => rfl).follow ?_)
    rintro _ _ _ _ ⟨⟨error, rfl⟩, rfl, later⟩
    exact ⟨⟨error, rfl⟩, usable.kept, later⟩
  · refine .pure trivial (.bind ?_)
    unfold writeRecord
    refine .bind (.get trivial ?_)
    simp only [segments, getLast?_append, getLast?_singleton, Option.some_or]
    refine .bind (.update trivial (.bind ((attempt_doomed doomed fun _ => rfl).follow ?_)))
    rw [mapLast_eq segments]
    rintro _ _ _ _ ⟨⟨error, rfl⟩, rfl, later⟩
    refine ⟨⟨error, rfl⟩, ⟨usable.replace segments rfl, firstIndex_replace segments rfl, ?_⟩, later⟩
    rw [lastIndex_snoc, lastIndex_of_last segments]

end

/-- The call that writes the next record, if one is appended, is followed by this one. -/
def firstWrite (wal : Wal) : ℕ :=
  if (wal.segments.getLast?.map Segment.size).getD 0 ≥ wal.opts.segmentBytes then 4 else 1

def Stored (wal : Wal) (disk : Disk FileName) : Prop :=
  ∃ before seg, wal.segments = before ++ [seg] ∧ (disk.get (.segment seg.firstIndex)).isSome = true

theorem openSegment_spared (index : ℕ) (spared : ∀ call < 3, script call = none) :
    Routine.Ensures (Scripted script) (openSegment index)
      (fun result wal' after => result = .ok () ∧ after.1 = 3 ∧ wal'.Stored after.2)
      wal (0, disk) := by
  unfold openSegment
  refine .attempt_bind trivial fun reply after answers => ⟨trivial, ?_⟩
  unfold Scripted at answers
  rw [Disk.scripted_of_none (spared 0 (by decide))] at answers
  obtain ⟨rfl, rfl⟩ := Prod.mk.inj answers
  refine .bind (.request trivial fun reply after answers => ⟨trivial, .bind (.update trivial ?_)⟩)
  unfold Scripted at answers
  rw [Disk.scripted_of_none (spared 1 (by decide))] at answers
  obtain ⟨rfl, rfl⟩ := Prod.mk.inj answers
  refine .attempt trivial fun reply after answers => ⟨trivial, ?_⟩
  unfold Scripted at answers
  rw [Disk.scripted_of_none (spared 2 (by decide))] at answers
  obtain ⟨rfl, rfl⟩ := Prod.mk.inj answers
  exact ⟨rfl, rfl, wal.segments, .fresh index, rfl,
    (Disk.isSome_change ..).trans (Disk.isSome_openFile ..)⟩

theorem rollOver_spared (index : ℕ) (spared : ∀ call < wal.firstWrite, script call = none)
    (stored : wal.Stored disk) :
    Routine.Ensures (Scripted script) (rollOver index)
      (fun result wal' after => result = .ok () ∧ after.1 + 1 = wal.firstWrite ∧
        wal'.Stored after.2) wal (0, disk) := by
  unfold firstWrite at spared
  unfold rollOver firstWrite
  refine .bind (.get trivial ?_)
  dsimp only
  split_ifs with full
  · rw [if_pos full] at spared
    refine (openSegment_spared index fun call early => spared call (by omega)).follow ?_
    rintro _ _ _ _ ⟨done, counted, stored⟩
    exact ⟨done, by rw [counted], stored⟩
  · exact .pure trivial ⟨rfl, rfl, stored⟩

theorem writeRecord_spared (entry : Entry) (spared : script calls = none)
    (stored : wal.Stored disk) :
    Routine.Ensures (Scripted script) (writeRecord entry)
      (fun result _ after => result = .ok () ∧ after.1 = calls + 1) wal (calls, disk) := by
  rcases stored with ⟨before, seg, segments, isThere⟩
  rcases Option.isSome_iff_exists.mp isThere with ⟨file, found⟩
  unfold writeRecord
  refine .bind (.get trivial ?_)
  simp only [segments, getLast?_append, getLast?_singleton, Option.some_or]
  refine .bind (.update trivial (.attempt_bind trivial fun reply after answers => ⟨trivial, ?_⟩))
  unfold Scripted at answers
  rw [Disk.scripted_of_none spared] at answers
  simp only [Disk.perform, Disk.change, found] at answers
  obtain ⟨rfl, rfl⟩ := Prod.mk.inj answers
  exact .update trivial ⟨rfl, rfl⟩

/-- If the disk fails after the first of several records of an empty log, and goes on failing,
the log is left without a segment. -/
theorem append_doomed (usable : wal.Usable) (stored : wal.Stored disk)
    (empty : wal.lastIndex < wal.firstIndex) {entries : List Entry} (splits : wal.Splits entries)
    (spared : ∀ call < wal.firstWrite, script call = none) (doomed : Doomed script wal.firstWrite) :
    Routine.Ensures (Scripted script) (append entries)
      (fun _ wal' _ => wal'.segments = []) wal (0, disk) := by
  rcases splits with ⟨several, starts⟩
  match entries, several, starts with
  | entry :: second :: rest, _, starts =>
    have isNext : entry.index = wal.lastIndex + 1 := by simpa using starts
    unfold append
    rw [if_neg nofun]
    refine .bind (.get trivial (.handle ?_))
    rw [appendInner]
    refine .bind (.get trivial ?_)
    dsimp only
    rw [if_neg (not_not.mpr isNext)]
    refine .bind (((rollOver_kept usable isNext).and
      (rollOver_spared entry.index spared stored)).follow ?_)
    rintro _ rolled ⟨calls, after⟩ _ ⟨⟨_, kept⟩, rfl, counted, stored⟩
    have spares : script calls = none := spared calls (by omega)
    refine .bind (((writeRecord_usable kept.usable entry).and
      (writeRecord_spared entry spares stored)).follow ?_)
    rintro _ written ⟨_, after⟩ _ ⟨⟨_, usable', sameFirst, last⟩, rfl, rfl⟩
    rw [if_pos rfl] at last
    rw [← counted] at doomed
    refine (appendInner_doomed doomed usable' _ (cons_ne_nil second rest)).follow ?_
    rintro _ failed ⟨calls', after⟩ _ ⟨⟨error, rfl⟩, kept', later⟩
    have cuts : failed.CutsAll (wal.lastIndex + 1) := by
      refine ⟨?_, ?_⟩
      · rw [kept'.lastIndex, last, isNext]
      · rw [kept'.firstIndex, sameFirst, kept.firstIndex]
        exact empty
    have stillDoomed : Doomed script calls' := fun call afterwards =>
      doomed call (later.trans afterwards)
    refine .bind (.handle ((truncateFrom_doomed stillDoomed kept'.usable.nonempty cuts).follow ?_))
    rintro _ _ _ _ ⟨⟨_, rfl⟩, emptied⟩
    exact .pure trivial (.throw trivial emptied)

end Refused

/-- The log is usable after the operation, whatever calls fail, and so it goes on: an append never
panics and never takes an entry that leaves a gap. -/
def Operation.Spares (op : Operation) (wal : Wal) : Prop :=
  ∀ script disk, (op.outcome script disk wal).2.Usable ∧
    ∀ script' disk' entries,
      let later := Operation.outcome (.append entries) script' disk' (op.outcome script disk wal).2
      NoPanic later.1 ∧
        (later.1 = .ok () → Numbered ((op.outcome script disk wal).2.lastIndex + 1) entries)

theorem Operation.usable_of_keeps {op : Operation} {wal : Wal} (usable : wal.Usable)
    (keeps : ¬ op.Restarts wal) (script : ℕ → Option IoError) (disk : Disk FileName) :
    (op.outcome script disk wal).2.Usable := by
  have ensured : Routine.Ensures (Scripted script) op.routine (fun _ wal' _ => wal'.Usable) wal
      (0, disk) := by
    cases op with
    | append entries =>
      exact (append_usable usable entries).follow fun _ _ _ _ done => done.2.2 keeps
    | sync => exact (sync_usable usable).follow fun _ _ _ _ done => done.2
    | truncateFrom start =>
      exact (truncateFrom_usable usable start).follow fun _ _ _ _ done => done.2 keeps
    | resetTo index => exact absurd trivial keeps
    | compactThrough through =>
      exact (compactThrough_usable usable through).follow fun _ _ _ _ done => done.2
    | saveSnapshot snap =>
      exact (saveSnapshot_usable usable snap).follow fun _ _ _ _ done => done.2
  exact (outcome_of_ensures op ensured).choose_spec

def single : Wal where
  opts := .default
  segments := [{ firstIndex := 1, lastIndex := 1, size := 25, offsets := [0], dirty := false }]
  stateSeq := 0
  snapshotSlot := 0
  snapshotSeq := 0

theorem usable_single : single.Usable := ⟨by simp [single], .singleton _⟩

def pair : Wal :=
  { single with segments := single.segments ++
      [{ firstIndex := 2, lastIndex := 2, size := 25, offsets := [0], dirty := false }] }

end Wal

end ChronoScope.Chronolog
