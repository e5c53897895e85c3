import ChronoScope.Chronolog.Recovery

/-!
# Shortening the log

Segments are removed one file at a time, from the front when a snapshot covers
them and from the back when entries are taken back. The active segment is cut
with a truncate, made durable at once. At each moment in between, recovery finds
what is to be kept.
-/

namespace ChronoScope.Chronolog

open List

open Sim

theorem Promise.Keeps.imp {promise : Promise} {parts parts' : List Part} {base : Option Saved}
    (keeps : promise.Keeps parts base)
    (moves : ∀ entry, promise.kept entry → entry ∈ secure none parts →
      entry ∈ secure none parts' ∨ promise.spared base entry) : promise.Keeps parts' base := by
  intro entry isKept
  rcases keeps entry isKept with isSecure | covered
  · exact moves entry isKept isSecure
  · exact Or.inr covered

theorem mem_contents {pieces : List Piece} {piece : Piece} (isPiece : piece ∈ pieces)
    {entry : Entry}
    (isEntry : entry ∈ piece.all) : entry ∈ contents pieces :=
  mem_flatMap.mpr ⟨piece, isPiece, isEntry⟩

theorem contents_append (left right : List Piece) :
    contents (left ++ right) = contents left ++ contents right :=
  flatMap_append ..

theorem contents_cons (piece : Piece) (rest : List Piece) :
    contents (piece :: rest) = piece.all ++ contents rest := rfl

variable {gone : List Piece} {first : ℕ}

section Remove

variable {device : Device (Request FileName) (Disk FileName)} {denied barred : IoError → Prop}
  {faults : Faults} {start disk : Disk FileName} {wal : Wal} {crash : Disk FileName → Prop}

theorem removeSegments_lined (steadfast : Steadfast device denied barred) {left : List Piece}
    (lined : Lined (segmentFiles disk) (gone ++ left)) (only : SegmentsOnly start disk)
    (holds : ∀ still after, still <:+ gone → Lined (segmentFiles after) (still ++ left) →
      SegmentsOnly start after → crash after) :
    Routine.Runs device crash (Wal.removeSegments (gone.map Piece.seg))
      (fun result wal' after => result = .ok () ∧ wal' = wal ∧
        Lined (segmentFiles after) left ∧ SegmentsOnly start after) wal disk := by
  induction gone generalizing disk with
  | nil => exact .pure (holds [] disk (suffix_refl _) lined only) ⟨rfl, rfl, lined, only⟩
  | cons piece rest ih =>
    rw [map_cons, Wal.removeSegments]
    refine .attempt_bind (holds _ disk (suffix_refl _) lined only) ?_
    intro reply after answers
    obtain ⟨rfl, rfl⟩ := steadfast.removed answers
    have changes := Changes.remove disk piece.seg.firstIndex
    have still (shorter : List Piece) (after : Disk FileName) (isSuffix : shorter <:+ rest) :=
      holds shorter after (isSuffix.trans (suffix_cons ..))
    have runs := ih (lined.dropFront changes) (only.trans changes.only) still
    exact ⟨runs.crash_here, runs⟩

variable {pieces : List Piece}

theorem resetTo_lined (steadfast : Steadfast device denied barred)
    (stocked : Stocked wal disk pieces) (index : ℕ)
    (holds : ∀ left after, left <:+ pieces ∨ left = [.fresh (index + 1)] →
      Lined (segmentFiles after) left → SegmentsOnly disk after → crash after) :
    Routine.Runs device crash (Wal.resetTo index)
      (fun result wal' after => result = .ok () ∧
        wal' = { wal with segments := [.fresh (index + 1)] } ∧
        Lined (segmentFiles after) [.fresh (index + 1)] ∧ SegmentsOnly disk after)
      wal disk := by
  have here := holds pieces disk (Or.inl (suffix_refl _)) stocked.lined (.refl disk)
  unfold Wal.resetTo
  refine .bind (.get here (.bind (.set here (.bind ?_))))
  have lined : Lined (segmentFiles disk) (pieces ++ []) := by
    rw [append_nil]
    exact stocked.lined
  have still (left : List Piece) (after : Disk FileName) (isSuffix : left <:+ pieces)
      (lined : Lined (segmentFiles after) (left ++ [])) (only : SegmentsOnly disk after) :
      crash after := by
    rw [append_nil] at lined
    exact holds left after (Or.inl isSuffix) lined only
  rw [stocked.segments]
  refine (removeSegments_lined steadfast lined (.refl disk) still).follow ?_
  rintro _ _ emptied here ⟨rfl, rfl, isEmpty, only⟩
  have absent : segmentFiles emptied (index + 1) = none := by
    have noFile := (isEmpty.exact (index + 1)).not.mpr (by simp)
    simpa using noFile
  refine steadfast.openSegment_runs absent here ?_ ?_
  · intro after file changes stores
    have fresh := isEmpty.start (by simp) (Or.inl rfl) (Nat.succ_pos index) changes stores
    have only := only.trans changes.only
    exact ⟨holds _ after (Or.inr rfl) fresh only, rfl, rfl, fresh, only⟩
  · rintro _ _ ⟨other, isThere⟩
    exact absurd ((isEmpty.exact other).mp isThere) (by simp)

variable {promise : Promise}

theorem SoundDisk.guarded {base : Option Saved} {target : ℕ}
    (sound : SoundDisk promise disk pieces target base)
    (keeps : promise.Keeps (pieces.map Piece.part) base) (only : SegmentsOnly start disk) :
    Guarded promise base start disk :=
  ⟨sound.recoverable keeps, only⟩

theorem known_of_left {left : List Piece} (few : left <:+ pieces ∨ left = [.fresh first]) :
    ∀ entry ∈ contents left, entry ∈ contents pieces ∨ entry.Storable ∧ promise.appended entry := by
  intro entry member
  rcases few with ⟨gone, rfl⟩ | rfl
  · left
    rw [contents_append]
    exact mem_append_right _ member
  · cases member

theorem resetTo_runs (honest : ¬ faults.any) {base : Option Saved}
    (running : Running promise wal disk pieces base)
    (covered : ∀ entry, promise.kept entry → promise.spared base entry) (index : ℕ) :
    Routine.Runs (Disk.Answers faults) (Guarded promise base disk) (Wal.resetTo index)
      (fun result wal' after => result = .ok () ∧
        wal' = { wal with segments := [.fresh (index + 1)] } ∧
        Running promise wal' after [.fresh (index + 1)] base ∧ SegmentsOnly disk after)
      wal disk := by
  have keeps (parts : List Part) : promise.Keeps parts base := fun entry isKept =>
    Or.inr (covered entry isKept)
  refine (resetTo_lined (steadfast_of_honest honest) running.stocked index ?_).follow ?_
  · intro left after few lined only
    exact (running.sound.of_lined lined only (known_of_left few)).guarded (keeps _) only
  · rintro _ _ after _ ⟨rfl, rfl, lined, only⟩
    exact ⟨rfl, rfl, running.of_lined lined (by simp) only (known_of_left (Or.inr rfl)), only⟩

end Remove

section Truncate

variable {device : Device (Request FileName) (Disk FileName)} {denied barred : IoError → Prop}
  {faults : Faults} {disk : Disk FileName} {wal : Wal} {pieces before : List Piece}
  {piece : Piece} {crash : Disk FileName → Prop}

theorem Stocked.getLast? (stocked : Stocked wal disk (before ++ [piece])) :
    wal.segments.getLast? = some piece.seg := by
  simp [stocked.segments]

theorem Stocked.lastIndex_eq (stocked : Stocked wal disk (before ++ [piece])) :
    wal.lastIndex = piece.seg.lastIndex := by
  simp [Wal.lastIndex, stocked.getLast?]

variable {start : ℕ}

theorem popSegments_lined (steadfast : Steadfast device denied barred) {turns : ℕ}
    (stocked : Stocked wal disk pieces) (enough : pieces.length ≤ turns)
    (holds : ∀ front back after, pieces = front ++ back →
    (∀ other ∈ back, start ≤ other.seg.firstIndex) → Lined (segmentFiles after) front →
      SegmentsOnly disk after → crash after) :
    Routine.Runs device crash (Wal.popSegments start turns)
      (fun result wal' after => result = .ok () ∧ ∃ before piece gone,
        pieces = before ++ piece :: gone ∧ (∀ other ∈ gone, start ≤ other.seg.firstIndex) ∧
        (before = [] ∨ piece.seg.firstIndex < start) ∧
        wal' = { wal with segments := (before ++ [piece]).map Piece.seg } ∧
        Lined (segmentFiles after) (before ++ [piece]) ∧ SegmentsOnly disk after) wal disk := by
  induction turns generalizing wal disk pieces with
  | zero => exact absurd (length_eq_zero_iff.mp (Nat.le_zero.mp enough)) stocked.nonempty
  | succ turns ih =>
    have here := holds pieces [] disk (by simp) (by simp) stocked.lined (.refl disk)
    rcases eq_nil_or_concat pieces with none | ⟨before, piece, rfl⟩
    · exact absurd none stocked.nonempty
    rw [concat_eq_append] at *
    unfold Wal.popSegments
    refine .bind (.get here ?_)
    simp only [stocked.getLast?]
    split_ifs with behind
    · refine .bind (.set here (.attempt_bind here ?_))
      intro reply after answers
      obtain ⟨rfl, rfl⟩ := steadfast.removed answers
      have changes := Changes.remove disk piece.seg.firstIndex
      have nonempty : before ≠ [] := by
        rintro rfl
        simp [stocked.segments] at behind
      have stocked' : Stocked { wal with segments := wal.segments.dropLast } _ before :=
        ⟨stocked.lined.dropBack changes, nonempty, by simp [stocked.segments]⟩
      have allBehind (back : List Piece) (before : ∀ other ∈ back, start ≤ other.seg.firstIndex) :
          ∀ other ∈ back ++ [piece], start ≤ other.seg.firstIndex := by
        intro other member
        rcases mem_append.mp member with isBack | isLast
        · exact before other isBack
        · cases mem_singleton.mp isLast
          exact behind.1
      have runs := ih stocked' (by simpa using enough) fun front back after split isBehind lined
          only => holds front (back ++ [piece]) after (by simp [split]) (allBehind back isBehind)
            lined (changes.only.trans only)
      refine ⟨runs.crash_here, runs.follow ?_⟩
      rintro _ _ last _ ⟨rfl, before', piece', gone, rfl, isBehind, stop, rfl, lined, only⟩
      exact ⟨rfl, before', piece', gone ++ [piece], by simp, allBehind gone isBehind, stop, rfl,
        lined, changes.only.trans only⟩
    · refine .pure here ⟨rfl, before, piece, [], rfl, by simp, ?_, ?_, stocked.lined, .refl disk⟩
      · rw [stocked.segments] at behind
        by_contra neither
        rw [not_or] at neither
        refine behind ⟨by omega, ?_⟩
        have := length_pos_iff.mpr neither.1
        simp
        omega
      · rw [← stocked.segments]

theorem Wal.mapLast_eq {segs : List Segment} {seg : Segment}
    (segments : wal.segments = segs ++ [seg]) (change : Segment → Segment) :
    wal.mapLast change = { wal with segments := segs ++ [change seg] } := by
  have atEnd : (segs ++ [seg]).modify segs.length change = segs ++ [change seg] := by
    clear segments
    induction segs with
    | nil => simp
    | cons head rest ih => simpa using ih
  simpa [Wal.mapLast, segments] using atEnd

theorem Stocked.mapLast (stocked : Stocked wal disk (before ++ [piece]))
    (change : Segment → Segment) :
    wal.mapLast change = { wal with segments := before.map Piece.seg ++ [change piece.seg] } :=
  Wal.mapLast_eq (by simp [stocked.segments]) change

/-- The active segment after a cut, with this many entries left. -/
def Piece.cut (piece : Piece) (keep : ℕ) : Piece where
  seg :=
    { piece.seg with
      offsets := piece.seg.offsets.take keep
      size := (records (piece.all.take keep)).length
      lastIndex := if keep = 0 then piece.seg.firstIndex - 1 else piece.seg.firstIndex + keep - 1
      dirty := false }
  done := piece.all.take keep
  rest := []

theorem Piece.cut_all (piece : Piece) (keep : ℕ) : (piece.cut keep).all = piece.all.take keep :=
  append_nil _

variable {entry : Entry} {files : ℕ → Option FileState}

variable {file : FileState}

theorem Piece.intact_cut {keep : ℕ} (intact : piece.Intact files) (positive : 0 < keep)
    (short : keep < piece.all.length) (stores : Stores file (piece.all.take keep) []) :
    (piece.cut keep).Intact (Function.update files piece.seg.firstIndex (some file)) := by
  refine ⟨⟨file, Function.update_self .., stores⟩, intact.positive, ?_, ?_, ?_, fun _ => rfl, ?_⟩
  · rw [cut_all, length_take_of_le short.le]
    simp only [cut, if_neg positive.ne']
    omega
  · rw [cut_all]
    rfl
  · rw [cut_all, ← Wal.take_runningOffsets, ← intact.offsets]
    rfl
  · rw [cut_all]
    exact intact.numbered.isPrefix (List.take_prefix ..)

theorem mem_take_of_lt {entries : List Entry} (numbered : Numbered first entries)
    (member : entry ∈ entries) (before : entry.index < start) :
    entry ∈ entries.take (start - first) := by
  rcases getElem?_of_mem member with ⟨position, found⟩
  have index := numbered.index_eq found
  refine mem_of_getElem? (i := position) ?_
  rw [getElem?_take_of_lt (by omega), found]

theorem Stores.fsync_truncate {done rest : List Entry} (stores : Stores file done rest) (keep : ℕ) :
    Stores (file.truncate (records ((done ++ rest).take keep)).length).fsync
      ((done ++ rest).take keep) [] := by
  have viewIs : file.view.take (records ((done ++ rest).take keep)).length =
      records ((done ++ rest).take keep) := by
    rw [stores.view]
    exact (prefix_iff_eq_take.mp (records_isPrefix (List.take_prefix ..))).symm
  rw [FileState.truncate, (stores.replays.issue _).fsync]
  simp only [FileState.issue, PendingOp.apply, viewIs]
  exact .rebooted _

theorem cutLast_lined (steadfast : Steadfast device denied barred)
    (stocked : Stocked wal disk (before ++ [piece])) (ahead : piece.seg.firstIndex < start)
    (here : crash disk)
    (cutting : ∀ file after, Stores file piece.done piece.rest →
      Changes disk after piece.seg.firstIndex
        (some (file.truncate (records (piece.all.take (start - piece.seg.firstIndex))).length)) →
          crash after)
    (cut : ∀ after, Lined (segmentFiles after)
    (before ++ [piece.cut (start - piece.seg.firstIndex)]) → SegmentsOnly disk after →
      crash after) :
    Routine.Runs device crash (Wal.cutLast start)
      (fun result wal' after => result = .ok () ∧ ∃ piece',
        wal' = { wal with segments := (before ++ [piece']).map Piece.seg } ∧
        Lined (segmentFiles after) (before ++ [piece']) ∧
        piece'.seg.firstIndex = piece.seg.firstIndex ∧
        piece'.all = piece.all.take (start - piece.seg.firstIndex) ∧
        (piece' = piece ∨ piece' = piece.cut (start - piece.seg.firstIndex)) ∧
        SegmentsOnly disk after) wal disk := by
  have intact := stocked.lined.intact piece (by simp)
  have last := intact.lastIndex
  unfold Wal.cutLast
  refine .bind (.get here ?_)
  simp only [stocked.getLast?]
  by_cases inside : start ≤ piece.seg.lastIndex
  swap
  · rw [if_neg inside]
    refine .pure here ⟨rfl, piece, ?_, stocked.lined, rfl, ?_, Or.inl rfl, .refl disk⟩
    · rw [← stocked.segments]
    · rw [take_of_length_le (by omega)]
  rw [if_pos inside]
  set keep := start - piece.seg.firstIndex with keepIs
  have short : keep < piece.all.length := by omega
  have cutIs : piece.seg.offsets[keep]?.getD piece.seg.size =
      (records (piece.all.take keep)).length := by
    rw [intact.offsets, Wal.getElem?_runningOffsets short]
    rfl
  rw [cutIs]
  rcases intact.stored with ⟨file, found, stores⟩
  refine .attempt_bind here ?_
  intro reply truncated answers
  obtain ⟨rfl, rfl⟩ := steadfast.truncated found answers
  have changes := Changes.insert disk piece.seg.firstIndex
    (file.truncate (records (piece.all.take keep)).length)
  have during := cutting file _ stores changes
  refine ⟨during, .bind (.update during (.attempt_bind during ?_))⟩
  intro reply synced answers
  obtain ⟨rfl, rfl⟩ := steadfast.fsynced changes.get answers
  have durable : Stores (file.truncate (records (piece.all.take keep)).length).fsync
      (piece.all.take keep) [] := stores.fsync_truncate keep
  have changed := changes.again (file.truncate (records (piece.all.take keep)).length).fsync
  have isIntact := Piece.intact_cut intact (by omega) short durable
  have sameFirst : (piece.cut keep).seg.firstIndex = piece.seg.firstIndex := rfl
  have lined := stocked.lined.change changed sameFirst isIntact (Or.inl rfl)
  have done := cut _ lined changed.only
  refine ⟨done, .update done ?_⟩
  rw [stocked.mapLast, Wal.mapLast_eq rfl]
  refine ⟨rfl, piece.cut keep, ?_, lined, rfl, Piece.cut_all .., Or.inr rfl, changed.only⟩
  simp only [map_append, map_cons, map_nil]
  rfl

theorem filter_numbered {entries : List Entry} (numbered : Numbered first entries) (start : ℕ) :
    entries.filter (fun entry => decide (entry.index < start)) =
      entries.take (start - first) := by
  induction entries generalizing first with
  | nil => simp
  | cons entry rest ih =>
    rcases numbered with ⟨rfl, numbered⟩
    by_cases before : entry.index < start
    · rw [filter_cons_of_pos (by simpa using before), ih numbered,
        show start - entry.index = (start - (entry.index + 1)) + 1 by omega, take_succ_cons]
    · rw [filter_cons_of_neg (by simpa using before), ih numbered,
        show start - entry.index = 0 by omega, show start - (entry.index + 1) = 0 by omega]
      rfl

theorem Lined.index_lt (lined : Lined files (before ++ piece :: gone))
    (member : entry ∈ contents before) : entry.index < piece.seg.firstIndex := by
  rcases mem_flatMap.mp member with ⟨other, isOther, isEntry⟩
  have rising := lined.rising
  rw [map_append, map_cons, pairwise_append] at rising
  have below := rising.2.2 other.part (mem_map_of_mem isOther) piece.part (by simp)
  have intact := lined.intact other (mem_append_left _ isOther)
  exact (intact.numbered.index_bounds isEntry).2.trans_le below.2

theorem Lined.le_index {rest : List Piece}
    (lined : Lined files (piece :: rest))
    (member : entry ∈ contents (piece :: rest)) : piece.seg.firstIndex ≤ entry.index := by
  rcases mem_flatMap.mp member with ⟨other, isOther, isEntry⟩
  have bounds := (lined.intact other isOther).numbered.index_bounds isEntry
  rcases mem_cons.mp isOther with rfl | isRest
  · exact bounds.1
  · have rising := lined.rising
    rw [map_cons, pairwise_cons] at rising
    exact (rising.1 other.part (mem_map_of_mem isRest)).1.le.trans bounds.1

theorem Lined.filter_contents (lined : Lined files (before ++ piece :: gone))
    (behind : ∀ other ∈ gone, start ≤ other.seg.firstIndex)
    (ahead : before = [] ∨ piece.seg.firstIndex < start) :
    (contents (before ++ piece :: gone)).filter (fun entry => decide (entry.index < start)) =
      contents before ++ piece.all.take (start - piece.seg.firstIndex) := by
  have numbered := (lined.intact piece (by simp)).numbered
  have stays : (contents before).filter (fun entry => decide (entry.index < start)) =
      contents before := by
    rw [filter_eq_self]
    intro entry member
    have less := lined.index_lt member
    rcases ahead with rfl | ahead
    · cases member
    · exact decide_eq_true (less.trans ahead)
  have goes : (contents gone).filter (fun entry => decide (entry.index < start)) = [] := by
    rw [filter_eq_nil_iff]
    intro entry member
    rcases mem_flatMap.mp member with ⟨other, isOther, isEntry⟩
    have intact := lined.intact other (by simp [isOther])
    have := behind other isOther
    have := (intact.numbered.index_bounds isEntry).1
    simp only [decide_eq_true_eq]
    omega
  rw [contents_append, contents_cons, filter_append, filter_append, stays, goes,
    filter_numbered numbered, append_nil]

theorem mem_contents_of_secure
    (isSecure : entry ∈ secure none (pieces.map Piece.part)) : entry ∈ contents pieces := by
  rcases exists_of_mem_secure isSecure with ⟨part, isPart, isFirm⟩
  rcases mem_map.mp isPart with ⟨piece, isPiece, rfl⟩
  exact mem_contents isPiece (mem_append_left _ isFirm)

section Indices

variable (stocked : Stocked wal disk pieces)
include stocked

theorem Stocked.firstIndex_le (member : entry ∈ contents pieces) :
    wal.firstIndex ≤ entry.index := by
  cases pieces with
  | nil => exact absurd rfl stocked.nonempty
  | cons piece rest =>
    have first : wal.firstIndex = piece.seg.firstIndex := by
      simp [Wal.firstIndex, stocked.segments]
    rw [first]
    exact stocked.lined.le_index member

theorem Stocked.le_lastIndex (member : entry ∈ contents pieces) : entry.index ≤ wal.lastIndex := by
  rcases eq_nil_or_concat pieces with none | ⟨before, piece, rfl⟩
  · exact absurd none stocked.nonempty
  rw [concat_eq_append] at stocked member
  have intact := stocked.lined.intact piece (by simp)
  have := intact.lastIndex
  rw [stocked.lastIndex_eq]
  rw [contents_append] at member
  rcases mem_append.mp member with isBefore | isLast
  · have := stocked.lined.index_lt isBefore
    omega
  · rw [contents_cons] at isLast
    have := (intact.numbered.index_bounds (by simpa [contents] using isLast)).2
    omega

end Indices

theorem mem_secure_front {front back : List Piece} (lined : Lined files (front ++ back))
    (behind : ∀ other ∈ back, start ≤ other.seg.firstIndex) (less : entry.index < start)
    (member : entry ∈ secure none ((front ++ back).map Piece.part)) :
    entry ∈ secure none (front.map Piece.part) := by
  rw [map_append] at member
  rcases mem_of_mem_secure_append member with here | there
  · exact here
  · rcases exists_of_mem_secure there with ⟨part, isPart, isFirm⟩
    rcases mem_map.mp isPart with ⟨other, isOther, rfl⟩
    have numbered := (lined.intact other (mem_append_right _ isOther)).numbered
    have := (numbered.index_bounds (mem_append_left other.rest isFirm)).1
    have := behind other isOther
    omega

theorem mem_secure_cut (numbered : Numbered piece.seg.firstIndex piece.all)
    (less : entry.index < start)
    (member : entry ∈ secure none ((before ++ [piece]).map Piece.part)) :
    entry ∈ secure none
      ((before ++ [piece.cut (start - piece.seg.firstIndex)]).map Piece.part) := by
  rw [Piece.map_split] at member ⊢
  have firm : entry ∈ piece.part.firm →
      entry ∈ (piece.cut (start - piece.seg.firstIndex)).part.firm := fun isFirm =>
    mem_take_of_lt numbered (mem_append_left _ isFirm) less
  have samePart : (piece.cut (start - piece.seg.firstIndex)).part.first = piece.part.first := rfl
  exact mem_secure_last samePart firm member

/-- The disk while entries are taken back. -/
inductive Shortens (start : ℕ) (disk : Disk FileName) (pieces : List Piece)
    (after : Disk FileName) : Prop where
  | popped {front back : List Piece} (split : pieces = front ++ back)
      (behind : ∀ other ∈ back, start ≤ other.seg.firstIndex)
      (lined : Lined (segmentFiles after) front) (only : SegmentsOnly disk after)
  /-- The log is started over, for the cut is at its beginning. -/
  | emptied {left : List Piece} {first : ℕ}
      (behind : ∀ entry ∈ contents pieces, start ≤ entry.index)
      (few : left <:+ pieces ∨ left = [.fresh first])
      (lined : Lined (segmentFiles after) left) (only : SegmentsOnly disk after)
  /-- The truncate is pending. -/
  | cutting {front back : List Piece} {piece : Piece} {between : Disk FileName} {file : FileState}
      (split : pieces = front ++ piece :: back)
      (behind : ∀ other ∈ back, start ≤ other.seg.firstIndex) (ahead : piece.seg.firstIndex < start)
      (lined : Lined (segmentFiles between) (front ++ [piece])) (only : SegmentsOnly disk between)
      (stores : Stores file piece.done piece.rest)
      (changes : Changes between after piece.seg.firstIndex (some (file.truncate
        (records (piece.all.take (start - piece.seg.firstIndex))).length)))
  | cut {front back : List Piece} {piece : Piece} (split : pieces = front ++ piece :: back)
      (behind : ∀ other ∈ back, start ≤ other.seg.firstIndex)
      (lined : Lined (segmentFiles after) (front ++ [piece.cut (start - piece.seg.firstIndex)]))
      (only : SegmentsOnly disk after)

/-- What is left after entries are taken back. -/
structure Shortened (start : ℕ) (wal : Wal) (disk : Disk FileName) (pieces : List Piece)
    (wal' : Wal) (after : Disk FileName) (pieces' : List Piece) : Prop where
  own : wal' = { wal with segments := pieces'.map Piece.seg }
  lined : Lined (segmentFiles after) pieces'
  nonempty : pieces' ≠ []
  contents : contents pieces' =
    (contents pieces).filter fun entry => decide (entry.index < start)
  joined : Joined pieces → Joined pieces' ∧ wal'.lastIndex = min wal.lastIndex (start - 1)
  secure : ∀ entry ∈ secure none (pieces.map Piece.part), entry.index < start →
    entry ∈ secure none (pieces'.map Piece.part)
  only : SegmentsOnly disk after

variable {after : Disk FileName}

theorem Shortened.stocked {wal' : Wal} {pieces' : List Piece}
    (shortened : Shortened start wal disk pieces wal' after pieces') :
    Stocked wal' after pieces' :=
  ⟨shortened.lined, shortened.nonempty, by rw [shortened.own]⟩

theorem Joined.cut {piece' : Piece} (joined : Joined (before ++ piece :: gone))
    (sameFirst : piece'.seg.firstIndex = piece.seg.firstIndex) : Joined (before ++ [piece']) := by
  rw [Joined, isChain_append] at joined ⊢
  refine ⟨joined.1, by simp, ?_⟩
  intro last isLast next isNext
  cases isNext
  rw [sameFirst]
  exact joined.2.2 last isLast piece rfl

theorem Joined.reaches (joined : Joined (before ++ piece :: gone))
    (behind : ∀ other ∈ gone, start ≤ other.seg.firstIndex)
    (stocked : Stocked wal disk (before ++ piece :: gone)) :
    wal.lastIndex + 1 = piece.seg.firstIndex + piece.all.length ∨
      start ≤ piece.seg.firstIndex + piece.all.length := by
  cases gone with
  | nil =>
    have last := (stocked.lined.intact piece (by simp)).lastIndex
    rw [← stocked.lastIndex_eq] at last
    exact Or.inl last
  | cons next rest =>
    rw [Joined, isChain_append_cons_cons] at joined
    exact Or.inr (joined.2.1 ▸ behind next (by simp))

theorem Wal.firstIndex_map {first : Piece} {rest : List Piece}
    (segments : wal.segments = (first :: rest).map Piece.seg) :
    wal.firstIndex = first.seg.firstIndex := by
  simp [Wal.firstIndex, segments]

theorem truncateFrom_lined (steadfast : Steadfast device denied barred)
    (stocked : Stocked wal disk pieces)
    (holds : ∀ after, Shortens start disk pieces after → crash after) :
    Routine.Runs device crash (Wal.truncateFrom start)
      (fun result wal' after => result = .ok () ∧ ∃ pieces',
        Shortened start wal disk pieces wal' after pieces') wal disk := by
  have here : crash disk :=
    holds disk (.popped (append_nil pieces).symm (by simp) stocked.lined (.refl disk))
  unfold Wal.truncateFrom
  refine .bind (.get here ?_)
  dsimp only
  by_cases beyond : start > wal.lastIndex
  · rw [if_pos beyond]
    have before : ∀ entry ∈ contents pieces, entry.index < start := fun entry member =>
      (stocked.le_lastIndex member).trans_lt beyond
    refine .pure here ⟨rfl, pieces, ?_, stocked.lined, stocked.nonempty, ?_,
      fun joined => ⟨joined, by omega⟩, fun _ member _ => member, .refl disk⟩
    · rw [← stocked.segments]
    · exact (filter_eq_self.mpr fun entry member => decide_eq_true (before entry member)).symm
  rw [if_neg beyond]
  by_cases whole : start ≤ wal.firstIndex
  · rw [if_pos whole]
    have behind : ∀ entry ∈ contents pieces, start ≤ entry.index := fun entry member =>
      whole.trans (stocked.firstIndex_le member)
    refine (resetTo_lined steadfast stocked (start - 1) fun left after few lined only =>
      holds after (.emptied behind few lined only)).follow ?_
    rintro _ _ after _ ⟨rfl, rfl, lined, only⟩
    refine ⟨rfl, [.fresh (start - 1 + 1)], rfl, lined, by simp, ?_, ?_, ?_, only⟩
    · refine (filter_eq_nil_iff.mpr fun entry member => ?_).symm
      have := behind entry member
      simp only [decide_eq_true_eq]
      omega
    · intro _
      refine ⟨by simp [Joined], ?_⟩
      change start - 1 + 1 - 1 = min wal.lastIndex (start - 1)
      omega
    · intro entry isSecure less
      have := behind entry (mem_contents_of_secure isSecure)
      omega
  rw [if_neg whole]
  have enough : pieces.length ≤ wal.segments.length := by simp [stocked.segments]
  refine .bind ((popSegments_lined steadfast stocked enough fun front back after split behind lined
    only => holds after (.popped split behind lined only)).follow ?_)
  rintro _ _ popped here ⟨rfl, before, piece, gone, rfl, behind, stop, rfl, lined, only⟩
  have stocked' : Stocked { wal with segments := (before ++ [piece]).map Piece.seg } popped
      (before ++ [piece]) := ⟨lined, by simp, rfl⟩
  have ahead : piece.seg.firstIndex < start := by
    rcases stop with rfl | ahead
    · have := Wal.firstIndex_map stocked.segments
      omega
    · exact ahead
  refine (cutLast_lined steadfast stocked' ahead here (fun file after stores changes => holds after
    (.cutting rfl behind ahead lined only stores changes)) fun after cut last => holds after
      (.cut rfl behind cut (only.trans last))).follow ?_
  rintro _ _ after _ ⟨rfl, piece', rfl, lined', sameFirst, all, which, only'⟩
  refine ⟨rfl, before ++ [piece'], rfl, lined', by simp, ?_, ?_, ?_, only.trans only'⟩
  · rw [stocked.lined.filter_contents behind stop, contents_append, contents_cons, all]
    simp [contents]
  · intro joined
    refine ⟨joined.cut sameFirst, ?_⟩
    have last := (lined'.intact piece' (by simp)).lastIndex
    have ends : Wal.lastIndex { wal with segments := (before ++ [piece']).map Piece.seg } =
        piece'.seg.lastIndex := by simp [Wal.lastIndex]
    rw [ends]
    rw [all, length_take, sameFirst] at last
    have := joined.reaches behind stocked
    omega
  · intro entry isSecure less
    have split : before ++ piece :: gone = (before ++ [piece]) ++ gone := by simp
    rw [split] at isSecure
    have kept := mem_secure_front (split ▸ stocked.lined) behind less isSecure
    rcases which with rfl | rfl
    · exact kept
    · exact mem_secure_cut (lined.intact piece (by simp)).numbered less kept

section Promised

variable {promise : Promise} {base : Option Saved} {target : ℕ}

theorem SoundDisk.guarded_cut (soundDisk : SoundDisk promise disk (before ++ [piece]) target base)
    (keeps : promise.Keeps ((before ++ [piece]).map Piece.part) base)
    (below : ∀ entry, promise.kept entry → entry.index < start ∨ promise.spared base entry)
    (ahead : piece.seg.firstIndex < start) (stores : Stores file piece.done piece.rest)
    (changes : Changes disk after piece.seg.firstIndex
    (some (file.truncate (records (piece.all.take (start - piece.seg.firstIndex))).length))) :
    Guarded promise base disk after := by
  set keep := start - piece.seg.firstIndex with keepIs
  have isPiece : piece ∈ before ++ [piece] := by simp
  have sound := soundDisk.pieced.sound piece isPiece
  have storable : ∀ entry ∈ piece.done, entry.Storable := fun entry member =>
    sound.storable entry (mem_append_left _ member)
  have starts : piece.done.take keep = [] → piece.done = [] := by
    intro nothing
    rcases take_eq_nil_iff.mp nothing with none | done
    · omega
    · exact done
  have yields := stores.yields_truncate storable piece.seg.firstIndex (List.take_prefix keep _)
    ((prefix_append piece.done piece.rest).take keep) starts
  have laid := soundDisk.pieced.laid
  rw [Piece.map_split] at laid
  let left : Part :=
    { first := piece.seg.firstIndex, firm := piece.done.take keep, all := piece.all }
  have sameFirst : left.first = piece.part.first := rfl
  have cut : Laid (segmentFiles after) (before.map Piece.part ++ [left]) := by
    rw [changes.segments]
    exact laid.set yields sound.numbered sound.storable (Or.inl rfl)
  refine ⟨⟨_, target, cut, ?_, ?_, ?_, soundDisk.snaps⟩, changes.only⟩
  · rw [changes.slots]
    exact soundDisk.slotted
  · intro part isPart
    rcases mem_append.mp isPart with isBefore | isLast
    · rcases mem_map.mp isBefore with ⟨other, isOther, rfl⟩
      exact soundDisk.appended other (mem_append_left _ isOther)
    · cases mem_singleton.mp isLast
      exact soundDisk.appended piece isPiece
  · refine keeps.imp fun entry isKept isSecure => (below entry isKept).imp_left fun less => ?_
    rw [Piece.map_split] at isSecure
    have firm : entry ∈ piece.part.firm → entry ∈ left.firm := fun isFirm =>
      mem_take_of_lt (numbered_append.mp sound.numbered).1 isFirm less
    exact mem_secure_last sameFirst firm isSecure

theorem Shortens.guarded (shortens : Shortens start disk pieces after)
    (sound : SoundDisk promise disk pieces target base)
    (keeps : promise.Keeps (pieces.map Piece.part) base)
    (below : ∀ entry, promise.kept entry → entry.index < start ∨ promise.spared base entry) :
    Guarded promise base disk after := by
  have shorter (front back : List Piece) (split : pieces = front ++ back)
      (behind : ∀ other ∈ back, start ≤ other.seg.firstIndex) :
      promise.Keeps (front.map Piece.part) base := by
    refine keeps.imp fun entry isKept isSecure => (below entry isKept).imp_left fun less => ?_
    rw [split] at isSecure
    exact mem_secure_front (split ▸ sound.pieced.lined) behind less isSecure
  cases shortens with
  | @popped front back split behind lined only =>
    refine (sound.of_lined lined only fun entry member => Or.inl ?_).guarded
      (shorter front back split behind) only
    rw [split, contents_append]
    exact mem_append_left _ member
  | @emptied left first behind few lined only =>
    refine (sound.of_lined lined only (known_of_left few)).guarded ?_ only
    intro entry isKept
    right
    rcases keeps entry isKept with isSecure | spared
    · refine (below entry isKept).resolve_left fun less => ?_
      have := behind entry (mem_contents_of_secure isSecure)
      omega
    · exact spared
  | @cutting front back piece between file split behind ahead lined only stores changes =>
    have rejoined : pieces = (front ++ [piece]) ++ back := by simp [split]
    have between := sound.of_lined lined only fun entry member => Or.inl (by
      rw [rejoined, contents_append]
      exact mem_append_left _ member)
    have guarded := between.guarded_cut (shorter _ _ rejoined behind) below ahead stores changes
    exact ⟨guarded.recoverable, only.trans guarded.only⟩
  | @cut front back piece split behind lined only =>
    have rejoined : pieces = (front ++ [piece]) ++ back := by simp [split]
    refine (sound.of_lined lined only fun entry member => Or.inl ?_).guarded ?_ only
    · rw [contents_append] at member
      rw [split, contents_append, contents_cons]
      rcases mem_append.mp member with isFront | isLast
      · exact mem_append_left _ isFront
      · rw [contents_cons, Piece.cut_all] at isLast
        have kept := mem_of_mem_take (by simpa [contents] using isLast)
        exact mem_append_right _ (mem_append_left _ kept)
    · refine (shorter _ _ rejoined behind).imp fun entry isKept isSecure =>
        (below entry isKept).imp_left fun less => ?_
      exact mem_secure_cut (sound.pieced.sound piece (by simp [split])).numbered less isSecure

/-- A log from which entries were taken back. -/
structure Truncated (promise : Promise) (wal : Wal) (disk : Disk FileName) (pieces : List Piece)
    (base : Option Saved) (start : ℕ) (wal' : Wal) (after : Disk FileName) (pieces' : List Piece) :
    Prop where
  own : wal' = { wal with segments := pieces'.map Piece.seg }
  running : Running promise wal' after pieces' base
  contents : contents pieces' =
    (contents pieces).filter fun entry => decide (entry.index < start)
  keeps : promise.Keeps (pieces'.map Piece.part) base

theorem truncateFrom_runs (honest : ¬ faults.any) (running : Running promise wal disk pieces base)
    (keeps : promise.Keeps (pieces.map Piece.part) base)
    (below : ∀ entry, promise.kept entry → entry.index < start ∨ promise.spared base entry) :
    Routine.Runs (Disk.Answers faults) (Guarded promise base disk) (Wal.truncateFrom start)
      (fun result wal' after => result = .ok () ∧ ∃ pieces',
        Truncated promise wal disk pieces base start wal' after pieces') wal disk := by
  refine (truncateFrom_lined (steadfast_of_honest honest) running.stocked fun after shortens =>
    shortens.guarded running.sound keeps below).follow ?_
  rintro _ wal' after _ ⟨rfl, pieces', shortened⟩
  have known : ∀ entry ∈ contents pieces', entry ∈ contents pieces ∨
      entry.Storable ∧ promise.appended entry := by
    intro entry member
    rw [shortened.contents] at member
    exact Or.inl (mem_of_mem_filter member)
  have running' := running.of_lined shortened.lined shortened.nonempty shortened.only known
  refine ⟨rfl, pieces', shortened.own, shortened.own ▸ running', shortened.contents, ?_⟩
  exact keeps.imp fun entry isKept isSecure => (below entry isKept).imp_left fun less =>
    shortened.secure entry isSecure less

end Promised

theorem Wal.keepFrom_spec (through slack total : ℕ) (segs : List Segment) (freed : ℕ) :
    (segs ≠ [] → keepFrom through slack total segs freed < segs.length) ∧
      ∀ seg ∈ segs.take (keepFrom through slack total segs freed), seg.lastIndex < through := by
  fun_induction keepFrom through slack total segs freed with
  | case1 => simp
  | case2 => simp
  | case3 => simp
  | case4 freed seg rest notLast superseded _ ih =>
    have inside := ih.1 notLast
    refine ⟨fun _ => by simpa using inside, ?_⟩
    intro other member
    rw [take_succ_cons] at member
    rcases mem_cons.mp member with rfl | later
    · exact superseded
    · exact ih.2 other later
  | case5 => simp

theorem compactThrough_lined (steadfast : Steadfast device denied barred) {through : ℕ}
    (stocked : Stocked wal disk pieces)
    (holds : ∀ gone left after, pieces = gone ++ left →
      (∀ piece ∈ gone, piece.seg.lastIndex < through) → Lined (segmentFiles after) left →
      SegmentsOnly disk after → crash after) :
    Routine.Runs device crash (Wal.compactThrough through)
      (fun result wal' after => (result = .ok () ∨ ∃ error, barred error ∧
          result = .error (.io error)) ∧ ∃ gone left, pieces = gone ++ left ∧
        (∀ piece ∈ gone, piece.seg.lastIndex < through) ∧ left ≠ [] ∧
        wal' = { wal with segments := left.map Piece.seg } ∧
        Lined (segmentFiles after) left ∧ SegmentsOnly disk after) wal disk := by
  set count := Wal.keepFrom through wal.opts.compactSlackBytes wal.totalBytes wal.segments 0
    with countIs
  have spec := Wal.keepFrom_spec through wal.opts.compactSlackBytes wal.totalBytes wal.segments 0
  rw [← countIs, stocked.segments, ← map_take, length_map] at spec
  have split : pieces = pieces.take count ++ pieces.drop count := (take_append_drop ..).symm
  have superseded : ∀ piece ∈ pieces.take count, piece.seg.lastIndex < through :=
    fun piece member =>
    spec.2 piece.seg (mem_map_of_mem member)
  have still (shorter : List Piece) (after : Disk FileName)
      (isSuffix : shorter <:+ pieces.take count)
      (lined : Lined (segmentFiles after) (shorter ++ pieces.drop count))
      (only : SegmentsOnly disk after) : crash after := by
    rcases isSuffix with ⟨gone, isTake⟩
    refine holds gone _ after ?_ (fun piece member => superseded piece ?_) lined only
    · rw [← append_assoc, isTake, ← split]
    · rw [← isTake]
      exact mem_append_left _ member
  have lined : Lined (segmentFiles disk) (pieces.take count ++ pieces.drop count) :=
    split ▸ stocked.lined
  have here := still _ disk (suffix_refl _) lined (.refl disk)
  unfold Wal.compactThrough
  refine .bind (.get here (.bind (.set here (.bind ?_))))
  rw [← countIs, stocked.segments, ← map_take, ← map_drop]
  refine (removeSegments_lined steadfast lined (.refl disk) still).follow ?_
  rintro _ _ after here ⟨rfl, rfl, left, only⟩
  have nonempty : pieces.drop count ≠ [] := by
    have inside := spec.1 (by simp [stocked.nonempty])
    simp only [ne_eq, drop_eq_nil_iff]
    omega
  by_cases some : count > 0
  · rw [if_pos some]
    refine .attempt here ?_
    intro reply synced answers
    rcases steadfast.syncDir answers with ⟨rfl, rfl | ⟨_, error, isBarred, rfl⟩⟩
    · exact ⟨here, Or.inl rfl, _, _, split, superseded, nonempty, rfl, left, only⟩
    · exact ⟨here, Or.inr ⟨error, isBarred, rfl⟩, _, _, split, superseded, nonempty, rfl, left,
        only⟩
  · rw [if_neg some]
    exact .pure here ⟨Or.inl rfl, _, _, split, superseded, nonempty, rfl, left, only⟩

theorem compactThrough_runs (honest : ¬ faults.any) {promise : Promise} {base : Option Saved}
    {through : ℕ} (running : Running promise wal disk pieces base)
    (keeps : promise.Keeps (pieces.map Piece.part) base)
    (spared : ∀ entry, promise.kept entry → entry.index < through → promise.spared base entry) :
    Routine.Runs (Disk.Answers faults) (Guarded promise base disk) (Wal.compactThrough through)
      (fun result wal' after => result = .ok () ∧ ∃ gone left, pieces = gone ++ left ∧
        (∀ piece ∈ gone, piece.seg.lastIndex < through) ∧
        wal' = { wal with segments := left.map Piece.seg } ∧
        Running promise wal' after left base ∧ promise.Keeps (left.map Piece.part) base ∧
        SegmentsOnly disk after) wal disk := by
  have known (gone left : List Piece) (split : pieces = gone ++ left) : ∀ entry ∈ contents left,
      entry ∈ contents pieces ∨ entry.Storable ∧ promise.appended entry := by
    intro entry member
    rw [split, contents_append]
    exact Or.inl (mem_append_right _ member)
  have keepsLeft (gone left : List Piece) (split : pieces = gone ++ left)
      (superseded : ∀ piece ∈ gone, piece.seg.lastIndex < through) :
      promise.Keeps (left.map Piece.part) base := by
    refine keeps.imp fun entry isKept isSecure => ?_
    rw [split, map_append] at isSecure
    rcases mem_of_mem_secure_append isSecure with isGone | stays
    · right
      rcases mem_flatMap.mp (mem_contents_of_secure isGone) with ⟨piece, isPiece, isEntry⟩
      have isTaken : piece ∈ pieces := split ▸ mem_append_left _ isPiece
      have sound := running.sound.pieced.sound piece isTaken
      have := (sound.numbered.index_bounds isEntry).2
      have := sound.lastIndex
      have := superseded piece isPiece
      exact spared entry isKept (by omega)
    · exact Or.inl stays
  refine (compactThrough_lined (steadfast_of_honest honest) running.stocked ?_).follow ?_
  · intro gone left after split superseded lined only
    exact (running.sound.of_lined lined only (known gone left split)).guarded
      (keepsLeft gone left split superseded) only
  · rintro _ _ after _ ⟨rfl | ⟨_, ⟨⟩, _⟩, gone, left, split, superseded, nonempty, rfl, lined, only⟩
    exact ⟨rfl, gone, left, split, superseded, rfl,
      running.of_lined lined nonempty only (known gone left split),
      keepsLeft gone left split superseded, only⟩

end Truncate

end ChronoScope.Chronolog
