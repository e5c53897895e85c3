import ChronoScope.Chronolog.Shortening

/-!
# Extending the log

A batch is written record by record to the active segment, and to a new one
whenever that is full. Nothing of it is durable until `sync`. If a write is
refused, everything written for the batch is taken back.
-/

namespace ChronoScope.Chronolog

open List

open Sim

namespace Piece

/-- The segment with its record for one more entry. -/
def push (piece : Piece) (entry : Entry) : Piece where
  seg :=
    { piece.seg with
      dirty := true
      offsets := piece.seg.offsets ++ [piece.seg.size]
      size := piece.seg.size + (frame entry.toBytes).length
      lastIndex := entry.index }
  done := piece.done
  rest := piece.rest ++ [entry]

def soil (piece : Piece) : Piece := { piece with seg := { piece.seg with dirty := true } }

theorem push_all (piece : Piece) (entry : Entry) : (piece.push entry).all = piece.all ++ [entry] :=
  (append_assoc ..).symm

variable {files : ℕ → Option FileState}

theorem intact_push {piece : Piece} (intact : piece.Intact files) {file : FileState}
    (stores : Stores file piece.done piece.rest) {entry : Entry}
    (next : entry.index = piece.seg.lastIndex + 1) :
    (piece.push entry).Intact (Function.update files piece.seg.firstIndex
      (some (file.writeAt piece.seg.size (record entry)))) := by
  have written := stores.writeAt entry
  rw [← Piece.all, ← intact.size] at written
  have last := intact.lastIndex
  refine ⟨⟨_, Function.update_self .., written⟩, intact.positive, ?_, ?_, ?_, by simp [push], ?_⟩
  · rw [push_all, length_append, length_singleton]
    change entry.index + 1 = piece.seg.firstIndex + (piece.all.length + 1)
    omega
  · rw [push_all, records_append, length_append, ← intact.size]
    simp [push, record]
  · rw [push_all, Wal.runningOffsets_append, ← intact.offsets, ← intact.size, Nat.zero_add]
    rfl
  · rw [push_all, numbered_append]
    refine ⟨intact.numbered, ?_, trivial⟩
    change entry.index = piece.seg.firstIndex + piece.all.length
    omega

theorem intact_soil {piece : Piece} (intact : piece.Intact files) : piece.soil.Intact files := by
  rcases intact with ⟨stored, positive, lastIndex, size, offsets, _, numbered⟩
  exact ⟨stored, positive, lastIndex, size, offsets, by simp [soil], numbered⟩

end Piece

/-- The ways a log grows while a batch is written, of which some entries are written already. -/
inductive Extends (limit : ℕ) (batch : List Entry) (pieces : List Piece) :
    List Entry → List Piece → Prop where
  | start : Extends limit batch pieces [] pieces
  /-- The active segment is full, and there is more to write. -/
  | roll {written : List Entry} {before : List Piece} {piece : Piece} {first : ℕ}
      (grows : Extends limit batch pieces written (before ++ [piece]))
      (full : limit ≤ piece.seg.size) (more : written.length < batch.length)
      (follows : first = piece.seg.lastIndex + 1)
      (joins : piece.seg.firstIndex + piece.all.length = first) :
      Extends limit batch pieces written ((before ++ [piece]) ++ [.fresh first])
  | soil {written : List Entry} {before : List Piece} {piece : Piece}
      (grows : Extends limit batch pieces written (before ++ [piece])) :
      Extends limit batch pieces written (before ++ [piece.soil])
  | push {written : List Entry} {before : List Piece} {piece : Piece} {entry : Entry}
      (grows : Extends limit batch pieces written (before ++ [piece]))
      (follows : entry.index = piece.seg.lastIndex + 1) (room : piece.seg.size < limit) :
      Extends limit batch pieces (written ++ [entry]) (before ++ [piece.push entry])

def lastOf (pieces : List Piece) : ℕ :=
  (pieces.getLast?.map fun piece => piece.seg.lastIndex).getD 0

theorem lastOf_concat (before : List Piece) (piece : Piece) :
    lastOf (before ++ [piece]) = piece.seg.lastIndex := by
  simp [lastOf]

namespace Extends

variable {limit : ℕ} {batch written : List Entry} {pieces pieces' : List Piece}

section

variable (grows : Extends limit batch pieces written pieces')

include grows

theorem contents_eq : contents pieces' = contents pieces ++ written := by
  induction grows with
  | start => simp
  | roll _ _ _ _ _ ih => simpa [contents, Piece.fresh, Piece.all] using ih
  | soil _ ih => simpa [contents, Piece.soil, Piece.all] using ih
  | push _ _ _ ih =>
    rw [← append_assoc, ← ih]
    simp [contents, Piece.push_all]

theorem lastOf_eq :
    lastOf pieces' = lastOf pieces + written.length ∧ Numbered (lastOf pieces + 1) written := by
  induction grows with
  | start => exact ⟨rfl, trivial⟩
  | roll _ _ _ follows _ ih =>
    refine ⟨?_, ih.2⟩
    rw [← ih.1, lastOf_concat, lastOf_concat, follows]
    rfl
  | soil _ ih =>
    refine ⟨?_, ih.2⟩
    rw [← ih.1, lastOf_concat, lastOf_concat]
    rfl
  | push _ follows _ ih =>
    rw [lastOf_concat] at ih
    rw [lastOf_concat, numbered_append, length_append, length_singleton]
    have next := follows.trans (congrArg (· + 1) ih.1)
    refine ⟨next.trans (by omega), ih.2, next.trans (by omega), trivial⟩

theorem joined (joined : Joined pieces) : Joined pieces' := by
  induction grows with
  | start => exact joined
  | roll _ _ _ _ joins ih =>
    rw [Joined, isChain_append]
    refine ⟨ih, by simp, ?_⟩
    intro last isLast next isNext
    rw [getLast?_concat] at isLast
    cases isLast
    cases isNext
    exact joins
  | soil _ ih => exact ih.cut rfl
  | push _ _ _ ih => exact ih.cut rfl

theorem secure {entry : Entry} (isSecure : entry ∈ secure none (pieces.map Piece.part)) :
    entry ∈ Chronolog.secure none (pieces'.map Piece.part) := by
  induction grows with
  | start => exact isSecure
  | roll _ _ _ _ _ ih =>
    rw [map_append]
    exact mem_secure_append ih _
  | soil _ ih =>
    rw [Piece.map_split] at ih ⊢
    exact ih
  | @push _ before piece pushed _ _ _ ih =>
    rw [Piece.map_split] at ih ⊢
    have sameFirst : (piece.push pushed).part.first = piece.part.first := rfl
    exact mem_secure_last sameFirst id ih

end

end Extends

section Append

variable {device : Device (Request FileName) (Disk FileName)} {denied barred : IoError → Prop}
  {faults : Faults} {disk origin : Disk FileName} {wal : Wal} {pieces before : List Piece}
  {piece : Piece} {crash : Disk FileName → Prop}

theorem Stocked.lastIndex_eq_lastOf (stocked : Stocked wal disk pieces) :
    wal.lastIndex = lastOf pieces := by
  rcases eq_nil_or_concat pieces with none | ⟨before, piece, rfl⟩
  · exact absurd none stocked.nonempty
  · rw [concat_eq_append] at stocked ⊢
    rw [lastOf_concat, stocked.lastIndex_eq]

theorem writeRecord_lined (steadfast : Steadfast device denied barred)
    (stocked : Stocked wal disk (before ++ [piece]))
    {entry : Entry} (follows : entry.index = piece.seg.lastIndex + 1) (here : crash disk)
    (written : ∀ after, Lined (segmentFiles after) (before ++ [piece.push entry]) →
      SegmentsOnly disk after → crash after) :
    Routine.Runs device crash (Wal.writeRecord entry)
      (fun result wal' after => match result with
        | .ok () => wal' = { wal with segments := (before ++ [piece.push entry]).map Piece.seg } ∧
            Lined (segmentFiles after) (before ++ [piece.push entry]) ∧ SegmentsOnly disk after
        | .error failure => (∃ error, denied error ∧ failure = .io error) ∧ after = disk ∧
            wal' = { wal with segments := (before ++ [piece.soil]).map Piece.seg }) wal disk := by
  have intact := stocked.lined.intact piece (by simp)
  rcases intact.stored with ⟨file, found, stores⟩
  have soiled : wal.mapLast (fun seg => { seg with dirty := true }) =
      { wal with segments := (before ++ [piece.soil]).map Piece.seg } := by
    rw [stocked.mapLast]
    simp [Piece.soil]
  unfold Wal.writeRecord
  refine .bind (.get here ?_)
  simp only [stocked.getLast?]
  refine .bind (.update here (.attempt_bind here ?_))
  intro reply after answers
  rcases steadfast.written found answers with ⟨rfl, rfl⟩ | ⟨⟨error, isDenied, rfl⟩, rfl⟩
  · have changes := Changes.insert disk piece.seg.firstIndex
      (file.writeAt piece.seg.size (frame entry.toBytes))
    have isIntact := Piece.intact_push intact stores follows
    have sameFirst : (piece.push entry).seg.firstIndex = piece.seg.firstIndex := rfl
    have lined := stocked.lined.change changes sameFirst isIntact (Or.inl rfl)
    have here := written _ lined changes.only
    refine ⟨here, .update here ⟨?_, lined, changes.only⟩⟩
    rw [soiled, Wal.mapLast_eq (map_append ..)]
    simp [Piece.push, Piece.soil]
  · exact ⟨here, ⟨error, isDenied, rfl⟩, rfl, soiled⟩

theorem rollOver_lined (steadfast : Steadfast device denied barred)
    (positive : 0 < wal.opts.segmentBytes)
    (stocked : Stocked wal disk (before ++ [piece])) {index : ℕ}
    (follows : index = piece.seg.lastIndex + 1) (here : crash disk)
    (rolled : wal.opts.segmentBytes ≤ piece.seg.size → ∀ after,
      Lined (segmentFiles after) ((before ++ [piece]) ++ [.fresh index]) →
      SegmentsOnly disk after → crash after) :
    Routine.Runs device crash (Wal.rollOver index)
      (fun result wal' after =>
        (result = .ok () ∧ piece.seg.size < wal.opts.segmentBytes ∨
          ∃ error, barred error ∧ result = .error (.io error)) ∧ wal' = wal ∧ after = disk ∨
        (result = .ok () ∨ ∃ error, barred error ∧ result = .error (.io error)) ∧
          wal.opts.segmentBytes ≤ piece.seg.size ∧
          wal' = { wal with segments :=
            ((before ++ [piece]) ++ [Piece.fresh index]).map Piece.seg } ∧
          Lined (segmentFiles after) ((before ++ [piece]) ++ [.fresh index]) ∧
          SegmentsOnly disk after) wal disk := by
  have intact := stocked.lined.intact piece (by simp)
  unfold Wal.rollOver
  refine .bind (.get here ?_)
  simp only [stocked.getLast?, Option.map_some, Option.getD_some]
  by_cases full : piece.seg.size ≥ wal.opts.segmentBytes
  swap
  · rw [if_neg full]
    exact .pure here (Or.inl ⟨Or.inl ⟨rfl, Nat.lt_of_not_ge full⟩, rfl, rfl⟩)
  rw [if_pos full]
  have atEnd : index = piece.seg.firstIndex + piece.all.length := follows.trans intact.lastIndex
  have holdsSome : piece.all ≠ [] := by
    intro nothing
    have size := intact.size
    rw [nothing, records_nil, length_nil] at size
    omega
  have longer : 0 < piece.all.length := length_pos_iff.mpr holdsSome
  have below : ∀ other ∈ before ++ [piece], other.part.Below (Piece.fresh index).part := by
    intro other member
    change other.seg.firstIndex < index ∧ other.seg.firstIndex + other.all.length ≤ index
    rcases mem_append.mp member with isBefore | isLast
    · have rising := stocked.lined.rising
      rw [Piece.map_split, pairwise_append] at rising
      have ahead := rising.2.2 other.part (mem_map_of_mem isBefore) piece.part (by simp)
      have : other.seg.firstIndex < piece.seg.firstIndex := ahead.1
      have : other.seg.firstIndex + other.all.length ≤ piece.seg.firstIndex := ahead.2
      omega
    · cases mem_singleton.mp isLast
      omega
  have connects : Connects (expectAfter none ((before ++ [piece]).map Piece.part)) index := by
    right
    rw [map_append, expectAfter_append, atEnd]
    exact if_neg holdsSome
  have absent : segmentFiles disk index = none := by
    have noFile : ¬ (segmentFiles disk index).isSome = true := by
      rw [stocked.lined.exact]
      intro member
      rcases mem_map.mp member with ⟨part, isPart, isFirst⟩
      rcases mem_map.mp isPart with ⟨other, isOther, rfl⟩
      exact absurd isFirst (below other isOther).1.ne
    simpa using noFile
  have grown : wal.segments ++ [.fresh index] =
      ((before ++ [piece]) ++ [Piece.fresh index]).map Piece.seg := by
    simp [stocked.segments, Piece.fresh]
  have started {after : Disk FileName} {file : FileState}
      (changes : Changes disk after index (some file)) (stores : Stores file [] []) :
      Lined (segmentFiles after) ((before ++ [piece]) ++ [.fresh index]) :=
    stocked.lined.start below connects (by omega) changes stores
  refine steadfast.openSegment_runs absent here ?_ ?_
  · intro after file changes stores
    have fresh := started changes stores
    exact ⟨rolled full after fresh changes.only,
      Or.inr ⟨Or.inl rfl, full, by rw [grown], fresh, changes.only⟩⟩
  · intro error isBarred _
    refine ⟨Or.inl ⟨Or.inr ⟨error, isBarred, rfl⟩, rfl, rfl⟩, fun after file changes stores => ?_⟩
    exact Or.inr ⟨Or.inr ⟨error, isBarred, rfl⟩, full, by rw [grown], started changes stores,
      changes.only⟩

/-- The segments at a moment while a batch is written. -/
structure Writing (limit : ℕ) (batch : List Entry) (disk : Disk FileName) (pieces : List Piece)
    (written : List Entry) (after : Disk FileName) (pieces' : List Piece) : Prop where
  isPrefix : written <+: batch
  grows : Extends limit batch pieces written pieces'
  lined : Lined (segmentFiles after) pieces'
  only : SegmentsOnly disk after

namespace Writing

variable {batch written rest : List Entry} {current : List Piece} {entry : Entry} {limit : ℕ}
  {after : Disk FileName}

theorem start (lined : Lined (segmentFiles disk) pieces) :
    Writing limit batch disk pieces [] disk pieces :=
  ⟨List.nil_prefix, .start, lined, .refl disk⟩

theorem not_numbered (writing : Writing limit batch origin pieces written disk current)
    (split : batch = written ++ entry :: rest) (gap : entry.index ≠ lastOf current + 1) :
    ¬ Numbered (lastOf pieces + 1) batch := by
  intro numbered
  rw [split, numbered_append] at numbered
  refine gap (numbered.2.1.trans ?_)
  rw [writing.grows.lastOf_eq.1]
  omega

section

variable (writing : Writing limit batch origin pieces written disk (before ++ [piece]))

include writing

section

variable (split : batch = written ++ entry :: rest)
  (follows : entry.index = piece.seg.lastIndex + 1)

include split follows

theorem roll (full : limit ≤ piece.seg.size)
    (lined : Lined (segmentFiles after) ((before ++ [piece]) ++ [.fresh entry.index]))
    (only : SegmentsOnly disk after) :
    Writing limit batch origin pieces written after
      ((before ++ [piece]) ++ [.fresh entry.index]) := by
  refine ⟨writing.isPrefix, .roll writing.grows full ?_ follows ?_, lined, writing.only.trans only⟩
  · simp [split]
  · have last := (writing.lined.intact piece (by simp)).lastIndex
    omega

theorem push (room : piece.seg.size < limit)
    (lined : Lined (segmentFiles after) (before ++ [piece.push entry]))
    (only : SegmentsOnly disk after) :
    Writing limit batch origin pieces (written ++ [entry]) after
      (before ++ [piece.push entry]) := by
  refine ⟨?_, .push writing.grows follows room, lined, writing.only.trans only⟩
  exact ⟨rest, by simp [split]⟩

end

theorem soil : Writing limit batch origin pieces written disk (before ++ [piece.soil]) := by
  have intact := writing.lined.intact piece (by simp)
  rcases intact.stored with ⟨file, found, _⟩
  have sameFirst : piece.soil.seg.firstIndex = piece.seg.firstIndex := rfl
  have changes : Changes disk disk piece.seg.firstIndex (some file) := .same found
  refine ⟨writing.isPrefix, .soil writing.grows, ?_, writing.only⟩
  refine writing.lined.change changes sameFirst ?_ (Or.inl rfl)
  rw [← changes.segments]
  exact Piece.intact_soil intact

end

end Writing

/-- What a batch that was not written in full has met with. -/
def Fails (faults : Faults) (first : ℕ) (batch : List Entry) (failure : Failure) : Prop :=
  failure = .io .enospc ∧ faults.full ∨
    (∃ text, failure = .io (.invalidData text)) ∧ ¬ Numbered first batch

/-- The same, for the errors a disk may refuse with. -/
def FailsOn (denied barred : IoError → Prop) (first : ℕ) (batch : List Entry) (failure : Failure) :
    Prop :=
  (∃ error, (denied error ∨ barred error) ∧ failure = .io error) ∨
    (∃ text, failure = .io (.invalidData text)) ∧ ¬ Numbered first batch

theorem FailsOn.fails {first : ℕ} {batch : List Entry} {failure : Failure}
    (failed : FailsOn (OutOfSpace faults) (fun _ => False) first batch failure) :
    Fails faults first batch failure := by
  refine failed.imp_left ?_
  rintro ⟨error, ⟨full, rfl⟩ | never, rfl⟩
  · exact ⟨rfl, full⟩
  · exact never.elim

theorem appendInner_lined (steadfast : Steadfast device denied barred)
    {batch written rest : List Entry}
    {current : List Piece} (positive : 0 < wal.opts.segmentBytes)
    (split : batch = written ++ rest)
    (writing : Writing wal.opts.segmentBytes batch origin pieces written disk current)
    (stocked : Stocked wal disk current)
    (holds : ∀ written' after current',
      Writing wal.opts.segmentBytes batch origin pieces written' after current' → crash after) :
    Routine.Runs device crash (Wal.appendInner batch rest)
      (fun result wal' after => ∃ written' current',
        Writing wal.opts.segmentBytes batch origin pieces written' after current' ∧
        wal' = { wal with segments := current'.map Piece.seg } ∧ current' ≠ [] ∧
        match result with
        | .ok () => written' = batch
        | .error failure => FailsOn denied barred (lastOf pieces + 1) batch failure) wal disk := by
  induction rest generalizing wal disk written current with
  | nil =>
    refine .pure (holds written disk current writing)
      ⟨written, current, writing, ?_, stocked.nonempty, ?_⟩
    · rw [← stocked.segments]
    · rw [split, append_nil]
  | cons entry rest ih =>
    have here := holds written disk current writing
    unfold Wal.appendInner
    refine .bind (.get here ?_)
    dsimp only
    rw [stocked.lastIndex_eq_lastOf]
    by_cases gap : entry.index ≠ lastOf current + 1
    · rw [if_pos gap]
      refine .throw here
        ⟨written, current, writing, ?_, stocked.nonempty, Or.inr ⟨⟨_, rfl⟩, ?_⟩⟩
      · rw [← stocked.segments]
      · exact writing.not_numbered split gap
    rw [if_neg gap]
    have writes {wal' : Wal} {disk' : Disk FileName} {before : List Piece} {piece : Piece}
        (sameWal : wal' = { wal with segments := (before ++ [piece]).map Piece.seg })
        (follows : entry.index = piece.seg.lastIndex + 1)
        (room : piece.seg.size < wal.opts.segmentBytes)
        (writing : Writing wal.opts.segmentBytes batch origin pieces written disk'
          (before ++ [piece])) :
        Routine.Runs device crash
          (Wal.writeRecord entry >>= fun _ => Wal.appendInner batch rest)
          (fun result wal' after => ∃ written' current',
            Writing wal.opts.segmentBytes batch origin pieces written' after current' ∧
            wal' = { wal with segments := current'.map Piece.seg } ∧ current' ≠ [] ∧
            match result with
            | .ok () => written' = batch
            | .error failure => FailsOn denied barred (lastOf pieces + 1) batch failure) wal'
                disk' := by
      subst sameWal
      have stocked : Stocked { wal with segments := (before ++ [piece]).map Piece.seg } disk'
          (before ++ [piece]) := ⟨writing.lined, by simp, rfl⟩
      refine .bind ((writeRecord_lined steadfast stocked follows (holds _ _ _ writing) ?_).follow
        ?_)
      · exact fun after lined only => holds _ _ _ (writing.push split follows room lined only)
      · rintro result wal' after _ outcome
        cases result with
        | error failure =>
          rcases outcome with ⟨⟨error, isDenied, rfl⟩, rfl, rfl⟩
          exact ⟨written, before ++ [piece.soil], writing.soil, rfl, by simp,
            Or.inl ⟨error, Or.inl isDenied, rfl⟩⟩
        | ok =>
          rcases outcome with ⟨rfl, lined, only⟩
          have writing := writing.push split follows room lined only
          let next : Wal := { wal with segments :=
            (before ++ [piece.push entry]).map Piece.seg }
          have stocked : Stocked next after (before ++ [piece.push entry]) :=
            ⟨lined, by simp, rfl⟩
          have positive : 0 < next.opts.segmentBytes := positive
          exact ih positive (by simp [split]) writing stocked holds
    rcases eq_nil_or_concat current with none | ⟨before, piece, rfl⟩
    · exact absurd none stocked.nonempty
    rw [concat_eq_append] at *
    rw [not_not, lastOf_concat] at gap
    refine .bind ((rollOver_lined steadfast positive stocked gap here ?_).follow ?_)
    · exact fun full after lined only => holds _ _ _ (writing.roll split gap full lined only)
    · rintro _ wal' after _ (⟨⟨rfl, room⟩ | ⟨error, isBarred, rfl⟩, rfl, rfl⟩ |
        ⟨rfl | ⟨error, isBarred, rfl⟩, full, rfl, lined, only⟩)
      · refine writes ?_ gap room writing
        rw [← stocked.segments]
      · refine ⟨written, before ++ [piece], writing, ?_, by simp,
          Or.inl ⟨error, Or.inr isBarred, rfl⟩⟩
        rw [← stocked.segments]
      · have follows : entry.index = (Piece.fresh entry.index).seg.lastIndex + 1 := by
          change entry.index = entry.index - 1 + 1
          omega
        exact writes rfl follows positive (writing.roll split gap full lined only)
      · exact ⟨written, _, writing.roll split gap full lined only, rfl, by simp,
          Or.inl ⟨error, Or.inr isBarred, rfl⟩⟩

theorem Writing.filter_contents {limit : ℕ} {batch written : List Entry} {current : List Piece}
    (stocked : Stocked wal disk pieces)
    (writing : Writing limit batch disk pieces written origin current) :
    (contents current).filter (fun entry => decide (entry.index < wal.lastIndex + 1)) =
      contents pieces := by
  have stays : (contents pieces).filter (fun entry => decide (entry.index < wal.lastIndex + 1)) =
      contents pieces := by
    rw [filter_eq_self]
    exact fun entry member => decide_eq_true (Nat.lt_succ_of_le (stocked.le_lastIndex member))
  have goes : written.filter (fun entry => decide (entry.index < wal.lastIndex + 1)) = [] := by
    rw [filter_eq_nil_iff]
    intro entry member
    have := (writing.grows.lastOf_eq.2.index_bounds member).1
    have := stocked.lastIndex_eq_lastOf
    simp only [decide_eq_true_eq]
    omega
  rw [writing.grows.contents_eq, filter_append, stays, goes, append_nil]

/-- What is left of a batch that was not written in full: nothing. -/
structure Undone (pieces pieces' : List Piece) : Prop where
  contents : contents pieces' = contents pieces
  joined : Joined pieces → Joined pieces' ∧ lastOf pieces' = lastOf pieces
  secure : ∀ entry ∈ secure none (pieces.map Piece.part),
    entry ∈ secure none (pieces'.map Piece.part)

theorem append_lined (steadfast : Steadfast device denied barred) {batch : List Entry}
    (positive : 0 < wal.opts.segmentBytes) (stocked : Stocked wal disk pieces)
    (holds : ∀ written after current,
      Writing wal.opts.segmentBytes batch disk pieces written after current → crash after)
    (undoing : (∃ error, denied error ∨ barred error) ∨ ¬ Numbered (lastOf pieces + 1) batch →
      ∀ written between current after,
        Writing wal.opts.segmentBytes batch disk pieces written between current →
        Shortens (wal.lastIndex + 1) between current after → crash after) :
    Routine.Runs device crash (Wal.append batch)
      (fun result wal' after => ∃ pieces', wal' = { wal with segments := pieces'.map Piece.seg } ∧
        Stocked wal' after pieces' ∧ SegmentsOnly disk after ∧
        match result with
        | .ok () => Extends wal.opts.segmentBytes batch pieces batch pieces'
        | .error failure => FailsOn denied barred (lastOf pieces + 1) batch failure ∧
            Undone pieces pieces') wal disk := by
  have starting : Writing wal.opts.segmentBytes batch disk pieces [] disk pieces :=
    .start stocked.lined
  have here := holds _ _ _ starting
  unfold Wal.append
  by_cases nothing : batch = []
  · rw [if_pos nothing]
    refine .pure here ⟨pieces, ?_, stocked, .refl disk, nothing ▸ .start⟩
    rw [← stocked.segments]
  rw [if_neg nothing]
  refine .bind (.get here (.handle ?_))
  have split : batch = [] ++ batch := rfl
  refine (appendInner_lined steadfast positive split starting stocked holds).follow ?_
  rintro result wal' after _ ⟨written, current, writing, rfl, nonempty, outcome⟩
  have stocked' : Stocked { wal with segments := current.map Piece.seg } after current :=
    ⟨writing.lined, nonempty, rfl⟩
  cases result with
  | ok =>
    subst outcome
    exact ⟨current, rfl, stocked', writing.only, writing.grows⟩
  | error failure =>
    have fallen : (∃ error, denied error ∨ barred error) ∨
        ¬ Numbered (lastOf pieces + 1) batch :=
      outcome.imp (fun ⟨error, refused, _⟩ => ⟨error, refused⟩) And.right
    have isIo : ∃ error, failure = .io error := by
      rcases outcome with ⟨error, _, isRefusal⟩ | ⟨⟨text, isGap⟩, _⟩
      · exact ⟨_, isRefusal⟩
      · exact ⟨_, isGap⟩
    rcases isIo with ⟨error, rfl⟩
    refine .bind (.handle
      ((truncateFrom_lined steadfast stocked' (undoing fallen _ _ _ · writing)).follow ?_))
    rintro _ wal'' next here ⟨rfl, pieces', shortened⟩
    refine .throw here ⟨pieces', ?_, shortened.stocked, writing.only.trans shortened.only,
      outcome, ?_, ?_, ?_⟩
    · rw [shortened.own]
    · rw [shortened.contents, writing.filter_contents stocked]
    · intro joined
      rcases shortened.joined (writing.grows.joined joined) with ⟨joined', last⟩
      refine ⟨joined', ?_⟩
      rw [← shortened.stocked.lastIndex_eq_lastOf, last, stocked'.lastIndex_eq_lastOf,
        writing.grows.lastOf_eq.1, ← stocked.lastIndex_eq_lastOf]
      omega
    · intro entry isSecure
      refine shortened.secure entry (writing.grows.secure isSecure) ?_
      exact Nat.lt_succ_of_le (stocked.le_lastIndex (mem_contents_of_secure isSecure))

section Promised

variable {promise : Promise} {base : Option Saved} {target limit : ℕ} {batch written : List Entry}

theorem Extends.keeps {pieces' : List Piece} (grows : Extends limit batch pieces written pieces')
    (keeps : promise.Keeps (pieces.map Piece.part) base) :
    promise.Keeps (pieces'.map Piece.part) base :=
  keeps.imp fun _ _ isSecure => Or.inl (grows.secure isSecure)

theorem Extends.known {pieces' : List Piece} (grows : Extends limit batch pieces written pieces')
    (isPrefix : written <+: batch) (storable : ∀ entry ∈ batch, entry.Storable)
    (isAppended : ∀ entry ∈ batch, promise.appended entry) : ∀ entry ∈ contents pieces',
      entry ∈ contents pieces ∨ entry.Storable ∧ promise.appended entry := by
  intro entry member
  rw [grows.contents_eq] at member
  refine (mem_append.mp member).imp_right fun isWritten => ?_
  have isBatch := isPrefix.subset isWritten
  exact ⟨storable entry isBatch, isAppended entry isBatch⟩

theorem append_runs (honest : ¬ faults.any) (positive : 0 < wal.opts.segmentBytes)
    (running : Running promise wal disk pieces base)
    (keeps : promise.Keeps (pieces.map Piece.part) base)
    (storable : ∀ entry ∈ batch, entry.Storable)
    (isAppended : ∀ entry ∈ batch, promise.appended entry)
    (holds : ∀ after, Guarded promise base disk after → crash after) :
    Routine.Runs (Disk.Answers faults) crash (Wal.append batch)
      (fun result wal' after => ∃ pieces', wal' = { wal with segments := pieces'.map Piece.seg } ∧
        Running promise wal' after pieces' base ∧
        promise.Keeps (pieces'.map Piece.part) base ∧ SegmentsOnly disk after ∧
        match result with
        | .ok () => Extends wal.opts.segmentBytes batch pieces batch pieces'
        | .error failure => Fails faults (lastOf pieces + 1) batch failure ∧
            contents pieces' = contents pieces ∧
            (Joined pieces → Joined pieces' ∧ lastOf pieces' = lastOf pieces)) wal disk := by
  have sound {written : List Entry} {after : Disk FileName} {current : List Piece}
      (writing : Writing wal.opts.segmentBytes batch disk pieces written after current) :
      SoundDisk promise after current wal.snapshotSlot base :=
    running.sound.of_lined writing.lined writing.only
      (writing.grows.known writing.isPrefix storable isAppended)
  have below : ∀ entry, promise.kept entry →
      entry.index < wal.lastIndex + 1 ∨ promise.spared base entry := fun entry isKept =>
    (keeps entry isKept).imp_left fun isSecure =>
      Nat.lt_succ_of_le (running.stocked.le_lastIndex (mem_contents_of_secure isSecure))
  refine (append_lined (steadfast_of_honest honest) positive running.stocked ?_ ?_).follow ?_
  · intro written after current writing
    exact holds after ((sound writing).guarded (writing.grows.keeps keeps) writing.only)
  · intro _ written between current after writing shortens
    have guarded := shortens.guarded (sound writing) (writing.grows.keeps keeps) below
    exact holds after ⟨guarded.recoverable, writing.only.trans guarded.only⟩
  · rintro result wal' after _ ⟨pieces', rfl, stocked, only, outcome⟩
    cases result with
    | ok =>
      have known := outcome.known (prefix_refl _) storable isAppended
      exact ⟨pieces', rfl, running.of_lined stocked.lined stocked.nonempty only known,
        outcome.keeps keeps, only, outcome⟩
    | error failure =>
      rcases outcome with ⟨fails, undone⟩
      refine ⟨pieces', rfl, running.of_lined stocked.lined stocked.nonempty only ?_, ?_, only,
        fails.fails, undone.contents, undone.joined⟩
      · exact fun entry member => Or.inl (undone.contents ▸ member)
      · exact keeps.imp fun entry _ isSecure => Or.inl (undone.secure entry isSecure)

end Promised

end Append

end ChronoScope.Chronolog
