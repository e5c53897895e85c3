import ChronoScope.Chronolog.ReadBack
import ChronoScope.Chronolog.Stock

/-!
# The log as a list

Seen from outside, the segments and their files are a plain list of entries and
the index of the last of them. Appending adds to the list or, if a write or the
start of a new segment fails, leaves it alone; truncating, starting over and
compacting shorten it; and reading an index looks it up in the list.

A log rolls over to a new segment beside those it has, whereas one that starts over
begins its first. This is how a disk that refuses the former and not the latter is
told apart here.

All this rests on the segments being contiguous. Recovery may leave a hole behind
an empty segment, and then even truncating ends the log in the wrong place.
-/

namespace ChronoScope.Chronolog

open List

open Sim

open Disk (carryOut returns_carryOut)

/-- Writes may be refused, and new segments beside others. -/
def Declines (disk : Disk FileName) : {β : Type} → Request FileName β → β → Prop
  | _, .writeAt .., reply => ∃ error, reply = .error error
  | _, .openFile (.segment _), reply =>
    (∃ other, (segmentFiles disk other).isSome = true) ∧ ∃ error, reply = .error error
  | _, .syncDir, reply =>
    (∃ first other, first ≠ other ∧ (segmentFiles disk first).isSome = true ∧
      (segmentFiles disk other).isSome = true) ∧ ∃ error, reply = .error error
  | _, _, _ => False

/-- The disk answers as computed, or declines. -/
def Reluctant {β : Type} (op : Request FileName β) (disk : Disk FileName) (reply : β)
    (after : Disk FileName) : Prop :=
  disk.perform op = (reply, after) ∨ Declines disk op reply ∧ after = disk

theorem steadfast_reluctant : Steadfast Reluctant (fun _ => True) (fun _ => True) where
  openFile answers := by
    refine answers.imp_right ?_
    rintro ⟨⟨others, error, rfl⟩, same⟩
    exact ⟨others, ⟨error, trivial, rfl⟩, same⟩
  syncDir answers := by
    rcases answers with performed | ⟨⟨two, error, rfl⟩, same⟩
    · cases performed
      exact ⟨rfl, Or.inl rfl⟩
    · exact ⟨same, Or.inr ⟨two, error, trivial, rfl⟩⟩
  remove answers := answers.resolve_right fun declined => declined.1
  truncate answers := answers.resolve_right fun declined => declined.1
  fsync answers := answers.resolve_right fun declined => declined.1
  writeAt answers := by
    refine answers.imp_right ?_
    rintro ⟨⟨error, rfl⟩, same⟩
    exact ⟨⟨error, trivial, rfl⟩, same⟩

/-- What a log stands for. -/
structure Ledger where
  entries : List Entry
  lastIndex : ℕ

/-- An operation on the entries of a log. -/
inductive Edit where
  | append (entries : List Entry)
  | sync
  | truncateFrom (start : ℕ)
  | resetTo (index : ℕ)
  | compactThrough (through : ℕ)
  deriving DecidableEq

def Edit.program : Edit → WalM Unit
  | append entries => Wal.append entries
  | sync => Wal.sync
  | truncateFrom start => Wal.truncateFrom start
  | resetTo index => Wal.resetTo index
  | compactThrough through => Wal.compactThrough through

/-- Records are no longer than the log can read, and their fields fit their types. -/
def Edit.Storable : Edit → Prop
  | append entries => ∀ entry ∈ entries, entry.Storable
  | _ => True

namespace Ledger

def get (ledger : Ledger) (index : ℕ) : Option Entry :=
  ledger.entries.find? fun entry => decide (entry.index = index)

/-- What becomes of the list when an operation returns. -/
inductive Step (ledger : Ledger) : Edit → Except Failure Unit → Ledger → Prop where
  | appended {batch : List Entry} (follows : Numbered (ledger.lastIndex + 1) batch) :
      Step ledger (.append batch) (.ok ())
        ⟨ledger.entries ++ batch, ledger.lastIndex + batch.length⟩
  | refused {batch : List Entry} {failure : Failure} :
      Step ledger (.append batch) (.error failure) ledger
  | synced : Step ledger .sync (.ok ()) ledger
  | truncated {start : ℕ} :
      Step ledger (.truncateFrom start) (.ok ())
        ⟨ledger.entries.filter fun entry => decide (entry.index < start),
          min ledger.lastIndex (start - 1)⟩
  | reset {index : ℕ} : Step ledger (.resetTo index) (.ok ()) ⟨[], index⟩
  | compacted {through : ℕ} {result : Except Failure Unit} {gone left : List Entry}
      (split : ledger.entries = gone ++ left) (covered : ∀ entry ∈ gone, entry.index < through) :
      Step ledger (.compactThrough through) result ⟨left, ledger.lastIndex⟩

inductive Steps : Ledger → List (Edit × Except Failure Unit) → Ledger → Prop where
  | done (ledger : Ledger) : Steps ledger [] ledger
  | next {ledger between final : Ledger} {edit : Edit} {result : Except Failure Unit}
      {rest : List (Edit × Except Failure Unit)} (step : ledger.Step edit result between)
      (steps : Steps between rest final) : Steps ledger ((edit, result) :: rest) final

end Ledger

namespace Wal

/-- Operations that are called one after the other, with what each of them returns. -/
inductive Edits : Wal → Disk FileName → List (Edit × Except Failure Unit) → Wal →
    Disk FileName → Prop where
  | done (wal : Wal) (disk : Disk FileName) : Edits wal disk [] wal disk
  | next {wal between final : Wal} {disk after last : Disk FileName} {edit : Edit}
      {result : Except Failure Unit} {rest : List (Edit × Except Failure Unit)}
      (returns : Prog.Returns Reluctant (edit.program.run.run wal) disk (result, between) after)
      (edits : Edits between after rest final last) :
      Edits wal disk ((edit, result) :: rest) final last

/-- Each segment starts right behind the one before. -/
def Contiguous (wal : Wal) : Prop :=
  wal.segments.IsChain fun seg next => next.firstIndex = seg.lastIndex + 1

/-- There is a segment, they are contiguous, and each has the records of a part of the entries: its
offsets are the running sums of their lengths, and its size is their total. -/
structure WellFormed (wal : Wal) (entries : List Entry) : Prop where
  nonempty : wal.segments ≠ []
  contiguous : wal.Contiguous
  parts : ∃ parts : List (List Entry), parts.flatten = entries ∧
    List.Forall₂ (fun (seg : Segment) (part : List Entry) =>
      seg.lastIndex + 1 = seg.firstIndex + part.length ∧ Numbered seg.firstIndex part ∧
      seg.offsets = runningOffsets 0 part ∧
      seg.size = (part.map fun entry => header + entry.toBytes.length).sum) wal.segments parts

/-- The log stands for the list, and its records can be read. -/
structure Refines (wal : Wal) (disk : Disk FileName) (ledger : Ledger) : Prop where
  carries : wal.Carries disk ledger.entries
  lastIndex : wal.lastIndex = ledger.lastIndex
  storable : ∀ entry ∈ ledger.entries, entry.Storable

section

variable {wal wal' : Wal} {disk after : Disk FileName} {ledger : Ledger}

theorem length_records (entries : List Entry) :
    (records entries).length = (entries.map fun entry => header + entry.toBytes.length).sum := by
  induction entries with
  | nil => rfl
  | cons entry rest ih =>
    rw [records_cons, length_append, ih, record, length_frame, map_cons, sum_cons]

theorem Refines.wellFormed (refines : wal.Refines disk ledger) : wal.WellFormed ledger.entries := by
  rcases refines.carries with ⟨pieces, stocked, joined, same⟩
  have intact := stocked.lined.intact
  refine ⟨?_, ?_, pieces.map Piece.all, ?_, ?_⟩
  · simpa [stocked.segments] using stocked.nonempty
  · rw [Contiguous, stocked.segments, isChain_map]
    refine joined.imp_of_mem_imp ?_
    intro piece next isPiece _ meets
    have last := (intact piece isPiece).lastIndex
    omega
  · rw [← same]
    exact (flatMap_def ..).symm
  · rw [stocked.segments, forall₂_map_left_iff, forall₂_map_right_iff, forall₂_same]
    intro piece isPiece
    have here := intact piece isPiece
    exact ⟨here.lastIndex, here.numbered, here.offsets, here.size.trans (length_records _)⟩

theorem Refines.step (refines : wal.Refines disk ledger) (positive : 0 < wal.opts.segmentBytes)
    {edit : Edit} (storable : edit.Storable) {result : Except Failure Unit}
    (returns : Prog.Returns Reluctant (edit.program.run.run wal) disk (result, wal') after) :
    wal'.opts = wal.opts ∧ ∃ ledger', ledger.Step edit result ledger' ∧
      wal'.Refines after ledger' := by
  have carries := refines.carries
  cases edit with
  | append batch =>
    have done := (append_carries steadfast_reluctant positive carries batch).returned returns
    rcases done with ⟨sameOpts, outcome⟩
    refine ⟨sameOpts, ?_⟩
    rw [refines.lastIndex] at outcome
    cases result with
    | ok =>
      rcases outcome with ⟨follows, carries', last⟩
      refine ⟨_, .appended follows, carries', last, ?_⟩
      intro entry member
      exact (mem_append.mp member).elim (refines.storable entry) (storable entry)
    | error failure => exact ⟨_, .refused, outcome.1, outcome.2, refines.storable⟩
  | sync =>
    have done := (sync_carries steadfast_reluctant carries).returned returns
    rcases done with ⟨rfl, sameOpts, carries', last⟩
    exact ⟨sameOpts, _, .synced, carries', last.trans refines.lastIndex, refines.storable⟩
  | truncateFrom start =>
    have done := (truncateFrom_carries steadfast_reluctant carries start).returned returns
    rcases done with ⟨rfl, sameOpts, carries', last⟩
    refine ⟨sameOpts, _, .truncated, carries', ?_, ?_⟩
    · rw [last, refines.lastIndex]
    · exact fun entry member => refines.storable entry (mem_of_mem_filter member)
  | resetTo index =>
    have done := (resetTo_carries steadfast_reluctant carries index).returned returns
    rcases done with ⟨rfl, sameOpts, carries', last⟩
    exact ⟨sameOpts, _, .reset, carries', last, by simp⟩
  | compactThrough through =>
    have done := (compactThrough_carries steadfast_reluctant carries through).returned returns
    rcases done with ⟨sameOpts, last, gone, left, split, covered, carries'⟩
    refine ⟨sameOpts, _, .compacted split covered, carries', last.trans refines.lastIndex, ?_⟩
    intro entry member
    exact refines.storable entry (split ▸ mem_append_right _ member)

theorem find?_holds_eq_none {pieces : List Piece} (stocked : Stocked wal disk pieces) {index : ℕ}
    (absent : ∀ entry ∈ contents pieces, entry.index ≠ index) :
    wal.segments.find? (fun seg => !seg.isEmpty && decide (index ≥ seg.firstIndex) &&
      decide (index ≤ seg.lastIndex)) = none := by
  rw [find?_eq_none]
  intro seg isSegment holds
  rw [stocked.segments] at isSegment
  rcases mem_map.mp isSegment with ⟨piece, isPiece, rfl⟩
  have intact := stocked.lined.intact piece isPiece
  have last := intact.lastIndex
  simp only [Segment.isEmpty, Bool.and_eq_true, Bool.not_eq_true', decide_eq_true_eq,
    decide_eq_false_iff_not] at holds
  have inside : index - piece.seg.firstIndex < piece.all.length := by omega
  have found := getElem?_eq_getElem inside
  refine absent _ (mem_contents isPiece (getElem_mem inside)) ?_
  rw [intact.numbered.index_eq found]
  omega

theorem Refines.read (refines : wal.Refines disk ledger) (index : ℕ) :
    Prog.Ends (Disk.Answers .none) (wal.read index).run (· = .ok (ledger.get index)) disk := by
  refine ⟨Disk.exists_returns .none _ disk, ?_⟩
  rcases refines.carries with ⟨pieces, stocked, joined, same⟩
  cases found : ledger.get index with
  | none =>
    intro value final returns
    have absent : ∀ entry ∈ contents pieces, entry.index ≠ index := by
      rw [same]
      simpa [Ledger.get] using found
    unfold Wal.read at returns
    simp only [find?_holds_eq_none stocked absent] at returns
    cases returns
    rfl
  | some entry =>
    have isIndex : entry.index = index := by
      have := find?_some found
      simpa using this
    have member : entry ∈ contents pieces := same ▸ mem_of_find?_eq_some found
    have pieced : Pieced (segmentFiles disk) pieces := stocked.lined.pieced
      fun piece isPiece other isOther => refines.storable other
        (same ▸ mem_contents isPiece isOther)
    have safe := pieced.read_safe
      (fun failing : Faults.none.any => failing) stocked.segments member
    rw [isIndex] at safe
    exact fun value final returns => safe.returns value final returns

/-- The log refines a list: whatever is called on it, in whatever order, and whichever writes and
new segments are refused, the segments are well formed, the last index is the list's, and reading
an index looks it up in the list. -/
def RefinesList (wal : Wal) (disk : Disk FileName) (ledger : Ledger) : Prop :=
  ∀ history wal' after, (∀ step ∈ history, step.1.Storable) → Edits wal disk history wal' after →
    ∃ ledger', ledger.Steps history ledger' ∧ wal'.WellFormed ledger'.entries ∧
      wal'.lastIndex = ledger'.lastIndex ∧
      ∀ index, Prog.Ends (Disk.Answers .none) (wal'.read index).run
        (· = .ok (ledger'.get index)) after

theorem Refines.refinesList (refines : wal.Refines disk ledger)
    (positive : 0 < wal.opts.segmentBytes) : wal.RefinesList disk ledger := by
  intro history wal' after storable edits
  induction edits generalizing ledger with
  | done => exact ⟨ledger, .done _, refines.wellFormed, refines.lastIndex, refines.read⟩
  | next returns _ ih =>
    rcases refines.step positive (storable _ mem_cons_self) returns with
      ⟨sameOpts, between, step, refines'⟩
    rcases ih refines' (sameOpts ▸ positive) fun step member =>
      storable step (mem_cons_of_mem _ member) with ⟨final, steps, rest⟩
    exact ⟨final, .next step steps, rest⟩

theorem refines_of_opened {opts : WalOptions} {recovered : Recovered} {pieces : List Piece}
    {appended must : Entry → Prop}
    (opened : Opened opts appended must disk after recovered pieces)
    (contiguous : recovered.wal.Contiguous) :
    recovered.wal.Refines after ⟨contents pieces, recovered.wal.lastIndex⟩ := by
  have sound := opened.pieced.sound
  refine ⟨⟨pieces, ⟨opened.pieced.lined, opened.nonempty, opened.segments⟩, ?_, rfl⟩, rfl, ?_⟩
  · rw [Contiguous, opened.segments, isChain_map] at contiguous
    refine contiguous.imp_of_mem_imp ?_
    intro piece next isPiece _ meets
    have last := (sound piece isPiece).lastIndex
    omega
  · intro entry member
    rcases mem_flatMap.mp member with ⟨piece, isPiece, isEntry⟩
    exact (sound piece isPiece).storable entry isEntry

end

/-- Carry out operations one after the other on a disk that refuses nothing. -/
def carryEdits (wal : Wal) (disk : Disk FileName) :
    List Edit → List (Edit × Except Failure Unit) × Wal × Disk FileName
  | [] => ([], wal, disk)
  | edit :: rest =>
    let done := carryOut (edit.program.run.run wal) disk
    let later := carryEdits done.1.2 done.2 rest
    ((edit, done.1.1) :: later.1, later.2)

theorem edits_carryEdits (wal : Wal) (disk : Disk FileName) (edits : List Edit) :
    Edits wal disk (carryEdits wal disk edits).1 (carryEdits wal disk edits).2.1
      (carryEdits wal disk edits).2.2 := by
  induction edits generalizing wal disk with
  | nil => exact .done wal disk
  | cons edit rest ih => exact .next (Prog.returns_run (fun _ _ => Or.inl rfl) _ disk) (ih ..)

/-- Three entries are appended, two of them are cut off, and one comes back. -/
def sampleEdits : List Edit :=
  [.append [LogRun.noop 1, LogRun.noop 2, LogRun.noop 3], .sync, .truncateFrom 2,
    .append [LogRun.noop 2], .compactThrough 2]

end Wal

end ChronoScope.Chronolog
