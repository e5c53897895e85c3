import ChronoScope.Chronolog.LogHistory
import ChronoScope.Chronolog.SlotHistory

/-!
# Reading any disk twice

Nothing is assumed about the bytes of the files here. A scan of a segment takes
the longest prefix that is made of records whose indices follow each other, and
nothing else. Recovery cuts a segment back to that prefix and removes the
segments after it, so what it leaves behind is what it has read: reading again
finds the same, and no reason to stop early. Which index follows another depends
on how indices are counted: the last `u64` is followed by zero.
-/

namespace ChronoScope.Chronolog

open List

open Sim

open Disk (carryOut returns_carryOut)

section Files

variable {faults : Faults} {disk : Disk FileName}

theorem reading_opened {opened : Disk FileName} {name : FileName} (slot : ℕ)
    (isOpened : opened = if (disk.get name).isSome then disk else disk.insert name .new) :
    readings opened slot = readings disk slot := by
  subst isOpened
  split_ifs with there
  · rfl
  · by_cases same : FileName.snapshot slot = name
    · subst same
      have missing : slotFiles disk slot = none := by simpa [slotFiles] using there
      rw [readings, readings, missing, show slotFiles (disk.insert (.snapshot slot) .new) slot =
        some .new by simp [slotFiles]]
      rfl
    · have untouched : slotFiles (disk.insert name .new) slot = slotFiles disk slot := by
        simp [slotFiles, same]
      rw [readings, readings, untouched]

theorem exists_opened_file {opened : Disk FileName} {name : FileName}
    (isOpened : opened = if (disk.get name).isSome then disk else disk.insert name .new) :
    ∃ file, opened.get name = some file := by
  subst isOpened
  split_ifs with there
  · exact Option.isSome_iff_exists.mp there
  · exact ⟨.new, by simp⟩

theorem readSlot_reads {α : Type} (honest : ¬ faults.any) {newest : Wal.Newest} {slot : ℕ}
    {next : Wal.Newest → Wal.Opening α} {post : Except Failure α → Disk FileName → Prop}
    (continues : ∀ opened, (opened = if (disk.get (.snapshot slot)).isSome then disk
        else disk.insert (.snapshot slot) .new) →
      Prog.Safe (Disk.Answers faults) (fun _ => True)
        (next (newest.consider slot (readings disk slot))).run post opened) :
    Prog.Safe (Disk.Answers faults) (fun _ => True)
      (Wal.readSlot newest slot >>= next).run post disk := by
  unfold Wal.readSlot
  refine .except_bind (openFile_safe honest trivial ?_)
  intro opened isOpened
  rcases exists_opened_file isOpened with ⟨file, found⟩
  refine .except_bind (.except_lift ((readSnapshot_safe honest found trivial).follow ?_))
  rintro _ later _ ⟨rfl, rfl⟩
  rw [← readings_eq found, reading_opened slot isOpened]
  exact .except_pure trivial (continues _ isOpened)

def stateBytes (disk : Disk FileName) : Bytes := ((disk.get .state).map FileState.view).getD []

/-- Files that are not segments may have been opened. -/
structure Touched (disk after : Disk FileName) : Prop where
  segments : segmentFiles after = segmentFiles disk
  state : stateBytes after = stateBytes disk
  slots : readings after = readings disk

variable {after : Disk FileName}

theorem Touched.trans {next : Disk FileName} (first : Touched disk next)
    (second : Touched next after) : Touched disk after :=
  ⟨second.segments.trans first.segments, second.state.trans first.state,
    second.slots.trans first.slots⟩

theorem Touched.opened {opened : Disk FileName} {name : FileName}
    (notSegment : ∀ first, name ≠ .segment first)
    (isOpened : opened = if (disk.get name).isSome then disk else disk.insert name .new) :
    Touched disk opened := by
  refine ⟨?_, ?_, funext fun slot => reading_opened slot isOpened⟩
  · subst isOpened
    split_ifs
    · rfl
    · funext first
      simp [segmentFiles, BTreeMap.get_insert, (notSegment first).symm]
  · subst isOpened
    split_ifs with there
    · rfl
    · rw [stateBytes, stateBytes, BTreeMap.get_insert]
      split_ifs with same
      · subst same
        simp only [Bool.not_eq_true, Option.isSome_eq_false_iff, Option.isNone_iff_eq_none] at there
        rw [there]
        rfl
      · rfl

theorem ensureSegment_leaves (honest : ¬ faults.any) (first : ℕ) (wal : Wal) :
    Routine.Ensures (Disk.Answers faults) (Wal.ensureSegment first)
      (fun result _ after => result = .ok () ∧ (wal.segments ≠ [] → after = disk) ∧
        (after = disk ∨ (segmentFiles after first).map FileState.view = some [] ∧
          ∀ name, name ≠ .segment first → after.get name = disk.get name)) wal disk := by
  unfold Wal.ensureSegment
  refine .bind (.get trivial ?_)
  dsimp only
  split_ifs with none
  swap
  · exact .pure trivial ⟨rfl, fun _ => rfl, .inl rfl⟩
  unfold Wal.openSegment
  refine .attempt_bind trivial fun reply opened answers => ⟨trivial, ?_⟩
  rcases Disk.answers_openFile answers with ⟨rfl, isOpened⟩ | ⟨failing, _⟩
  swap
  · exact absurd failing honest
  rcases exists_opened_file isOpened with ⟨file, found⟩
  refine .bind (.request trivial fun reply cut answers => ⟨trivial, .bind (.update trivial ?_)⟩)
  rcases Disk.answers_truncate found answers with ⟨_, rfl⟩ | ⟨failing, _⟩
  swap
  · exact absurd failing honest
  refine .attempt trivial fun reply after answers => ⟨trivial, ?_⟩
  rcases Disk.answers_syncDir answers with ⟨rfl | ⟨failing, _⟩, rfl⟩
  swap
  · exact absurd failing honest
  refine ⟨rfl, fun some => absurd none some, .inr ⟨?_, fun name distinct => ?_⟩⟩
  · simp [segmentFiles, BTreeMap.get_insert, FileState.truncate, FileState.issue, PendingOp.apply]
  · rw [BTreeMap.get_insert, if_neg distinct]
    subst isOpened
    split_ifs
    · rfl
    · rw [BTreeMap.get_insert, if_neg distinct]

end Files

theorem carryOut_of_safe {α : Type} {program : Prog (Request FileName) α} {disk : Disk FileName}
    {post : α → Disk FileName → Prop}
    (safe : Prog.Safe (Disk.Answers .none) (fun _ => True) program post disk) :
    post (carryOut program disk).1 (carryOut program disk).2 :=
  safe.returns _ _ (returns_carryOut rfl)

/-- Bytes that are records of entries whose indices follow each other. -/
inductive Parses [Counting] : ℕ → Bytes → List Entry → Prop where
  | nil (expected : ℕ) : Parses expected [] []
  | cons {expected : ℕ} {body rest left : Bytes} {entry : Entry} {entries : List Entry}
      (isPlausible : Plausible maxRecord body) (decoded : Entry.decode body = .ok (entry, left))
      (isNext : entry.index = expected) (parses : Parses (Counting.next expected) rest entries) :
      Parses expected (frame body ++ rest) (entry :: entries)

/-- The entries of the longest prefix that parses, its length, and whether there is more. -/
structure ScansTo [Counting] (buf : Bytes) (expected : ℕ) (entries : List Entry)
    (reason : TailReason) (valid : ℕ) : Prop where
  inside : valid ≤ buf.length
  parses : Parses expected (buf.take valid) entries
  longest : ∀ length others, length ≤ buf.length → Parses expected (buf.take length) others →
    length ≤ valid ∧ others <+: entries
  clean_iff : reason = .clean ↔ valid = buf.length

section

variable [Counting]

/-- What the bytes start with: nothing, a record that is taken, or something that stops a scan. -/
theorem scan_cases (buf : Bytes) (expected : ℕ) :
    buf = [] ∨
      (∃ body rest left entry, buf = frame body ++ rest ∧ Plausible maxRecord body ∧
        Entry.decode body = .ok (entry, left) ∧ entry.index = expected) ∨
      ∃ reason, reason ≠ .clean ∧ scan buf expected = ([], reason, 0) ∧
        ∀ body rest left entry, buf = frame body ++ rest → Plausible maxRecord body →
          Entry.decode body = .ok (entry, left) → entry.index ≠ expected := by
  by_cases empty : buf = []
  · exact .inl empty
  right
  have nonempty : ¬ buf.length = 0 := fun none => empty (length_eq_zero_iff.mp none)
  cases read : unframe maxRecord buf with
  | error reason =>
    refine .inr ⟨reason, unframe_ne_clean read, scan_of_error empty read expected, ?_⟩
    rintro body rest left entry rfl isPlausible
    rw [unframe_frame maxRecord_lt isPlausible] at read
    cases read
  | ok body =>
    rcases frame_of_unframe read with ⟨isPlausible, rest, rfl⟩
    have same {other more : Bytes} (split : frame body ++ rest = frame other ++ more)
        (sound : Plausible maxRecord other) : other = body :=
      frame_unique sound isPlausible ⟨more, split.symm⟩ ⟨rest, rfl⟩
    cases decoded : Entry.decode body with
    | error reason =>
      refine .inr ⟨.undecodable, by simp, ?_, ?_⟩
      · simp only [scan, scanLoop, if_neg nonempty, read, decoded]
      · intro other more left entry split sound found
        rw [same split sound, decoded] at found
        cases found
    | ok found =>
      rcases found with ⟨entry, left⟩
      by_cases isNext : entry.index = expected
      · exact .inl ⟨body, rest, left, entry, rfl, isPlausible, decoded, isNext⟩
      · refine .inr ⟨.indexGap expected entry.index, by simp, ?_, ?_⟩
        · simp only [scan, scanLoop, if_neg nonempty, read, decoded, if_pos isNext]
        · intro other more left' entry' split sound found
          rw [same split sound, decoded] at found
          cases found
          exact isNext

variable {buf : Bytes} {expected : ℕ}

theorem Parses.starts {entries : List Entry} (parses : Parses expected buf entries) :
    buf = [] ∧ entries = [] ∨ ∃ body rest left entry others, buf = frame body ++ rest ∧
      entries = entry :: others ∧ Plausible maxRecord body ∧
      Entry.decode body = .ok (entry, left) ∧ entry.index = expected ∧
      Parses (Counting.next expected) rest others := by
  cases parses with
  | nil => exact .inl ⟨rfl, rfl⟩
  | cons isPlausible decoded isNext parses =>
    exact .inr ⟨_, _, _, _, _, rfl, rfl, isPlausible, decoded, isNext, parses⟩

theorem ScansTo.nil (expected : ℕ) : ScansTo [] expected [] .clean 0 := by
  refine ⟨le_rfl, .nil expected, ?_, by simp⟩
  intro length others within parses
  rw [take_nil] at parses
  cases parses
  exact ⟨within, prefix_rfl⟩

theorem ScansTo.broken {reason : TailReason} (nonempty : buf ≠ []) (notClean : reason ≠ .clean)
    (none : ∀ body rest left entry, buf = frame body ++ rest → Plausible maxRecord body →
      Entry.decode body = .ok (entry, left) → entry.index ≠ expected) :
    ScansTo buf expected [] reason 0 := by
  refine ⟨Nat.zero_le _, .nil expected, ?_, ?_⟩
  · intro length others within parses
    rcases parses.starts with ⟨empty, rfl⟩ |
      ⟨body, rest, left, entry, others', taken, rfl, isPlausible, decoded, isNext, _⟩
    · rcases take_eq_nil_iff.mp empty with rfl | noBytes
      · exact ⟨le_rfl, prefix_rfl⟩
      · exact absurd noBytes nonempty
    · have split : buf = frame body ++ (rest ++ buf.drop length) := by
        rw [← append_assoc, ← taken, take_append_drop]
      exact absurd isNext (none body _ left entry split isPlausible decoded)
  · refine ⟨fun clean => absurd clean notClean, fun whole => ?_⟩
    exact absurd (length_eq_zero_iff.mp whole.symm) nonempty

theorem ScansTo.cons {body rest left : Bytes} {entry : Entry} {valid : ℕ} {entries : List Entry}
    {reason : TailReason} (isPlausible : Plausible maxRecord body)
    (decoded : Entry.decode body = .ok (entry, left)) (isNext : entry.index = expected)
    (scans : ScansTo rest (Counting.next expected) entries reason valid) :
    ScansTo (frame body ++ rest) expected (entry :: entries) reason
      ((frame body).length + valid) := by
  refine ⟨?_, ?_, ?_, ?_⟩
  · have := scans.inside
    rw [length_append]
    omega
  · rw [take_length_add_append]
    exact .cons isPlausible decoded isNext scans.parses
  · intro length others within parses
    rcases parses.starts with ⟨empty, rfl⟩ |
      ⟨body', rest', left', entry', others', taken, rfl, isPlausible', decoded', _, parses'⟩
    · rcases take_eq_nil_iff.mp empty with rfl | noBytes
      · exact ⟨Nat.zero_le _, nil_prefix⟩
      · exact absurd (append_eq_nil_iff.mp noBytes).1 (frame_ne_nil body)
    · have same : body' = body := by
        have starts : frame body' <+: (frame body ++ rest).take length := by
          rw [taken]
          exact prefix_append ..
        exact frame_unique isPlausible' isPlausible (starts.trans (List.take_prefix ..))
          (prefix_append ..)
      subst same
      rw [decoded] at decoded'
      cases decoded'
      have long : (frame body').length ≤ length := by
        have := congrArg List.length taken
        rw [length_take_of_le within, length_append] at this
        omega
      obtain ⟨more, rfl⟩ := Nat.exists_eq_add_of_le long
      rw [take_length_add_append, append_cancel_left_eq] at taken
      rw [length_append] at within
      rw [← taken] at parses'
      rcases scans.longest more others' (by omega) parses' with ⟨shorter, isPrefix⟩
      exact ⟨by omega, cons_prefix_cons.mpr ⟨rfl, isPrefix⟩⟩
  · rw [scans.clean_iff, length_append]
    omega

theorem scansTo (buf : Bytes) (expected : ℕ) :
    ScansTo buf expected (scan buf expected).1 (scan buf expected).2.1 (scan buf expected).2.2 := by
  induction size : buf.length using Nat.strong_induction_on generalizing buf expected with
  | _ count ih =>
    rcases scan_cases buf expected with
      rfl | ⟨body, rest, left, entry, rfl, isPlausible, decoded, isNext⟩ |
        ⟨reason, broken, scans, none⟩
    · exact .nil expected
    · rw [scan_frame isPlausible decoded isNext]
      have shorter : rest.length < count := by
        rw [← size, length_append, length_frame, header]
        omega
      exact .cons isPlausible decoded isNext (ih _ shorter rest (Counting.next expected) rfl)
    · rw [scans]
      refine .broken ?_ broken none
      rintro rfl
      rw [scan_nil] at scans
      cases scans
      exact broken rfl

theorem Parses.scan {entries : List Entry} (parses : Parses expected buf entries) :
    scan buf expected = (entries, .clean, buf.length) := by
  induction parses with
  | nil => exact scan_nil _
  | cons isPlausible decoded isNext _ ih =>
    rw [scan_frame isPlausible decoded isNext, ih, length_append]

theorem scan_take (buf : Bytes) (expected : ℕ) :
    scan (buf.take (scan buf expected).2.2) expected =
      ((scan buf expected).1, .clean, (scan buf expected).2.2) := by
  have scans := scansTo buf expected
  rw [scans.parses.scan, length_take_of_le scans.inside]

/-- The index that the first entry of the next segment should have. -/
def expectedFirst (entries : List Entry) (first : ℕ) : ℕ :=
  (entries.getLast?.map (Counting.next ·.index)).getD first

/-- There is a hole between the entries and the next segment. -/
abbrev Detached (entries : List Entry) (first : ℕ) : Prop :=
  first ≠ expectedFirst entries first ∧ entries ≠ []

/-- What reading segments comes to: the entries, why it stopped, and the segments that stay, with
their bytes. The entries found before are at hand. -/
def salvage (views : ℕ → Bytes) : List ℕ → List Entry →
    List Entry × TailReason × List (ℕ × Bytes)
  | [], entries => (entries, .clean, [])
  | first :: rest, entries =>
    if Detached entries first then (entries, .indexGap (expectedFirst entries first) first, [])
    else
      let scanned := scan (views first) (expectedFirst entries first)
      if scanned.2.1.isClean then
        let later := salvage views rest (entries ++ scanned.1)
        (later.1, later.2.1, (first, views first) :: later.2.2)
      else (entries ++ scanned.1, scanned.2.1, [(first, (views first).take scanned.2.2)])

section Salvage

variable {views views' : ℕ → Bytes} {first : ℕ} {rest names : List ℕ} {entries : List Entry}

theorem salvage_detached (detached : Detached entries first) :
    salvage views (first :: rest) entries =
      (entries, .indexGap (expectedFirst entries first) first, []) :=
  if_pos detached

theorem salvage_clean (attached : ¬ Detached entries first)
    (clean : (scan (views first) (expectedFirst entries first)).2.1.isClean = true) :
    salvage views (first :: rest) entries =
      let later := salvage views rest
        (entries ++ (scan (views first) (expectedFirst entries first)).1)
      (later.1, later.2.1, (first, views first) :: later.2.2) :=
  (if_neg attached).trans (if_pos clean)

theorem salvage_broken (attached : ¬ Detached entries first)
    (broken : ¬ (scan (views first) (expectedFirst entries first)).2.1.isClean = true) :
    salvage views (first :: rest) entries =
      let scanned := scan (views first) (expectedFirst entries first)
      (entries ++ scanned.1, scanned.2.1, [(first, (views first).take scanned.2.2)]) :=
  (if_neg attached).trans (if_neg broken)

theorem salvage_sublist (views : ℕ → Bytes) (names : List ℕ) (entries : List Entry) :
    ((salvage views names entries).2.2.map Prod.fst).Sublist names := by
  induction names generalizing entries with
  | nil => exact List.Sublist.slnil
  | cons first rest ih =>
    unfold salvage
    simp only
    split_ifs
    · exact nil_sublist _
    · exact (ih _).cons_cons first
    · exact (nil_sublist rest).cons_cons first

theorem salvage_again
    (same : ∀ binding ∈ (salvage views names entries).2.2, views' binding.1 = binding.2) :
    salvage views' ((salvage views names entries).2.2.map Prod.fst) entries =
      ((salvage views names entries).1, .clean, (salvage views names entries).2.2) := by
  induction names generalizing entries with
  | nil => rfl
  | cons first rest ih =>
    by_cases attached : Detached entries first
    · rw [salvage_detached attached]
      rfl
    by_cases clean : (scan (views first) (expectedFirst entries first)).2.1.isClean = true
    · rw [salvage_clean attached clean] at same ⊢
      have isSame : views' first = views first := same _ mem_cons_self
      have later := ih fun binding member => same binding (mem_cons_of_mem _ member)
      rw [← isSame] at clean
      rw [map_cons, salvage_clean attached clean, isSame, later]
    · rw [salvage_broken attached clean] at same ⊢
      have isCut : views' first =
          (views first).take (scan (views first) (expectedFirst entries first)).2.2 :=
        same _ mem_cons_self
      have again := scan_take (views first) (expectedFirst entries first)
      rw [← isCut] at again
      have whole : (scan (views' first) (expectedFirst entries first)).2.1.isClean = true := by
        rw [again]
        rfl
      rw [map_cons, salvage_clean attached whole, again, isCut]
      rfl

end Salvage

section Recovery

variable {faults : Faults} {disk : Disk FileName}

def segmentBytes (disk : Disk FileName) (first : ℕ) : Bytes :=
  ((segmentFiles disk first).map FileState.view).getD []

theorem readSegments_removes (honest : ¬ faults.any) (names : List ℕ) {replay : Wal.Replay}
    (broken : replay.tail ≠ .clean) :
    Prog.Safe (Disk.Answers faults) (fun _ => True) (Wal.readSegments names replay).run
      (fun result after => result = .ok replay ∧
        (∀ first ∈ names, segmentFiles after first = none) ∧
        ∀ name, (∀ first ∈ names, name ≠ .segment first) →
          after.get name = disk.get name) disk := by
  induction names generalizing disk with
  | nil => exact .except_pure trivial ⟨rfl, by simp, fun _ _ => rfl⟩
  | cons first rest ih =>
    unfold Wal.readSegments
    refine openFile_safe honest trivial ?_
    intro opened isOpened
    dsimp only
    rw [if_pos (by simpa [TailReason.isClean] using broken)]
    refine remove_safe honest trivial (ih.follow ?_)
    rintro _ after _ ⟨rfl, gone, same⟩
    refine ⟨rfl, ?_, ?_⟩
    · intro other member
      by_cases later : other ∈ rest
      · exact gone other later
      · have isFirst : other = first := (mem_cons.mp member).resolve_right later
        have here := same (.segment other) fun next isNext sameName => by
          cases sameName
          exact later isNext
        rw [segmentFiles, here, isFirst]
        simp [BTreeMap.get_remove]
    · intro name distinct
      have notFirst := distinct first mem_cons_self
      rw [same name fun other later => distinct other (mem_cons_of_mem _ later)]
      subst isOpened
      split_ifs <;> simp [BTreeMap.get_remove, BTreeMap.get_insert, notFirst]

theorem readSegment_reads (honest : ¬ faults.any) {first : ℕ} {file : FileState}
    (found : disk.get (.segment first) = some file) (replay : Wal.Replay) :
    Prog.Safe (Disk.Answers faults) (fun _ => True) (Wal.readSegment first replay)
      (fun result after =>
        let scanned := scan file.view (expectedFirst replay.entries first)
        result.entries = replay.entries ++ scanned.1 ∧ result.segments ≠ [] ∧
          if scanned.2.1.isClean then result.tail = replay.tail ∧ after = disk
          else result.tail = scanned.2.1 ∧
            (segmentFiles after first).map FileState.view = some (file.view.take scanned.2.2) ∧
            ∀ name, name ≠ .segment first → after.get name = disk.get name) disk := by
  have expected : ((replay.entries.getLast?.map Entry.index).map Counting.next).getD first =
      expectedFirst replay.entries first := by
    rw [expectedFirst, Option.map_map]
    rfl
  unfold Wal.readSegment
  refine .bind ((Replayed.scanSegment_safe honest found trivial _ _).follow ?_)
  rintro _ later _ ⟨unchanged, rfl⟩
  rw [unchanged, expected]
  dsimp only
  split_ifs with clean
  · exact .pure trivial ⟨rfl, by simp, rfl, rfl⟩
  · refine .bind (.ask trivial fun reply cut answers => ⟨trivial, ?_⟩)
    rcases Disk.answers_truncate found answers with ⟨_, rfl⟩ | ⟨failing, _⟩
    swap
    · exact absurd failing honest
    refine .bind (.ask trivial fun reply synced answers => ⟨trivial, ?_⟩)
    rcases Disk.answers_fsync (BTreeMap.get_insert.trans (if_pos rfl)) answers with
      ⟨_, rfl⟩ | ⟨failing, _⟩
    swap
    · exact absurd failing honest
    refine .pure trivial ⟨rfl, by simp, rfl, ?_, fun name distinct => ?_⟩
    · simp [segmentFiles, BTreeMap.get_insert]
      rfl
    · simp [BTreeMap.get_insert, distinct]

/-- Files after segments have been read: some segments may be gone or cut, according to what is to
stay, and everything else is as before. -/
structure Leaves (disk after : Disk FileName) (names : List ℕ) (kept : List (ℕ × Bytes)) :
    Prop where
  segments : ∀ first ∈ names, ∀ bytes,
    (segmentFiles after first).map FileState.view = some bytes ↔ (first, bytes) ∈ kept
  others : ∀ name, (∀ first ∈ names, name ≠ .segment first) → after.get name = disk.get name

theorem readSegments_salvages (honest : ¬ faults.any) {names : List ℕ} (nodup : names.Nodup)
    (present : ∀ first ∈ names, (segmentFiles disk first).isSome = true) {replay : Wal.Replay}
    (clean : replay.tail = .clean) (started : replay.entries = [] ∨ replay.segments ≠ []) :
    Prog.Safe (Disk.Answers faults) (fun _ => True) (Wal.readSegments names replay).run
      (fun result after => ∃ found, result = .ok found ∧
        found.entries = (salvage (segmentBytes disk) names replay.entries).1 ∧
        found.tail = (salvage (segmentBytes disk) names replay.entries).2.1 ∧
        (names ≠ [] ∨ replay.segments ≠ [] → found.segments ≠ []) ∧
        Leaves disk after names (salvage (segmentBytes disk) names replay.entries).2.2) disk := by
  induction names generalizing replay with
  | nil =>
    refine .except_pure trivial ⟨replay, rfl, rfl, clean, ?_, by simp, fun _ _ => rfl⟩
    rintro (impossible | segments)
    · exact absurd rfl impossible
    · exact segments
  | cons first rest ih =>
    rcases Option.isSome_iff_exists.mp (present first mem_cons_self) with ⟨file, found⟩
    rcases nodup_cons.mp nodup with ⟨notLater, nodup'⟩
    have bytes : segmentBytes disk first = file.view := by simp [segmentBytes, found]
    unfold Wal.readSegments
    refine openFile_there_safe honest found ?_
    dsimp only
    rw [if_neg (by simp [TailReason.isClean, clean])]
    have apart : ∀ other ∈ rest, FileName.segment first ≠ .segment other := by
      rintro other later ⟨⟩
      exact notLater later
    by_cases detached : Detached replay.entries first
    · have isDetached : first ≠ (replay.entries.getLast?.map (Counting.next ·.index)).getD first ∧
          replay.entries ≠ [] := detached
      rw [salvage_detached detached, if_pos isDetached]
      refine remove_safe honest trivial ((readSegments_removes honest rest ?_).follow ?_)
      · simp
      rintro _ after _ ⟨rfl, gone, same⟩
      have removed : segmentFiles after first = none := by
        rw [segmentFiles, same _ apart]
        simp [BTreeMap.get_remove]
      refine ⟨_, rfl, rfl, rfl, fun _ => started.resolve_left detached.2, ?_, ?_⟩
      · intro other member bytes
        rcases mem_cons.mp member with rfl | later
        · simp [removed]
        · simp [gone other later]
      · intro name distinct
        rw [same name fun other later => distinct other (mem_cons_of_mem _ later)]
        simp [BTreeMap.get_remove, distinct first mem_cons_self]
    have attached : ¬ (first ≠ (replay.entries.getLast?.map (Counting.next ·.index)).getD first ∧
        replay.entries ≠ []) := detached
    rw [if_neg attached]
    refine .except_bind (.except_lift ((readSegment_reads honest found replay).follow ?_))
    rintro replay' next _ ⟨entries, segments, tail⟩
    rw [← bytes] at entries tail
    by_cases whole : (scan (segmentBytes disk first)
        (expectedFirst replay.entries first)).2.1.isClean = true
    · rw [if_pos whole] at tail
      rcases tail with ⟨sameTail, unchanged⟩
      rw [unchanged, salvage_clean detached whole, ← entries]
      refine (ih nodup' (fun other later => present other (mem_cons_of_mem _ later))
        (sameTail.trans clean) (.inr segments)).follow ?_
      rintro _ after _ ⟨later, rfl, foundEntries, foundTail, stays, leaves⟩
      refine ⟨later, rfl, foundEntries, foundTail, fun _ => stays (.inr segments), ?_, ?_⟩
      · intro other member view
        have keptLater (binding : ℕ × Bytes) (isKept : binding ∈ (salvage (segmentBytes disk) rest
            replay'.entries).2.2) : binding.1 ∈ rest :=
          (salvage_sublist ..).subset (mem_map_of_mem isKept)
        rcases mem_cons.mp member with rfl | isLater
        · have here : segmentFiles after other = some file := (leaves.others _ apart).trans found
          have notKept : (other, view) ∉
              (salvage (segmentBytes disk) rest replay'.entries).2.2 :=
            fun isKept => notLater (keptLater _ isKept)
          simp [here, bytes, notKept, eq_comm]
        · have notFirst : other ≠ first := fun same => notLater (same ▸ isLater)
          simp [leaves.segments other isLater, notFirst]
      · intro name distinct
        exact leaves.others name fun other isLater =>
          distinct other (mem_cons_of_mem _ isLater)
    · rw [if_neg whole] at tail
      rcases tail with ⟨isTail, cut, sameOthers⟩
      rw [salvage_broken detached whole]
      have broken : replay'.tail ≠ .clean := by
        rw [isTail]
        simpa [TailReason.isClean] using whole
      refine (readSegments_removes honest rest broken).follow ?_
      rintro _ after _ ⟨rfl, gone, same⟩
      refine ⟨_, rfl, entries, isTail, fun _ => segments, ?_, ?_⟩
      · intro other member view
        rcases mem_cons.mp member with rfl | isLater
        · have here : segmentFiles after other = segmentFiles next other := same _ apart
          simp [here, cut, eq_comm]
        · have notFirst : other ≠ first := fun same => notLater (same ▸ isLater)
          simp [gone other isLater, notFirst]
      · intro name distinct
        rw [same name fun other later => distinct other (mem_cons_of_mem _ later)]
        exact sameOthers name (distinct first mem_cons_self)

variable {after : Disk FileName}

def salvaged (disk : Disk FileName) : List Entry × TailReason × List (ℕ × Bytes) :=
  salvage (segmentBytes disk) (Wal.segmentNames disk.keys) []

theorem salvaged_congr (same : segmentFiles after = segmentFiles disk) :
    salvaged after = salvaged disk := by
  have names : Wal.segmentNames after.keys = Wal.segmentNames disk.keys := by
    refine segmentNames_eq (segmentNames_rising disk) fun first => ?_
    rw [mem_segmentNames_keys, same]
  have bytes : segmentBytes after = segmentBytes disk := by
    funext first
    rw [segmentBytes, segmentBytes, same]
  rw [salvaged, salvaged, names, bytes]

theorem Leaves.found_again
    (leaves : Leaves disk after (Wal.segmentNames disk.keys) (salvaged disk).2.2) :
    (salvaged after).1 = (salvaged disk).1 ∧ (salvaged after).2.1 = .clean := by
  have few := salvage_sublist (segmentBytes disk) (Wal.segmentNames disk.keys) []
  have names : Wal.segmentNames after.keys = (salvaged disk).2.2.map Prod.fst := by
    refine segmentNames_eq ((segmentNames_rising disk).sublist few) fun first => ?_
    by_cases listed : first ∈ Wal.segmentNames disk.keys
    · have exact := leaves.segments first listed
      rw [mem_map]
      constructor
      · intro isThere
        rcases Option.isSome_iff_exists.mp isThere with ⟨file, found⟩
        exact ⟨_, (exact file.view).mp (by rw [found]; rfl), rfl⟩
      · rintro ⟨binding, isKept, rfl⟩
        have found := (exact binding.2).mpr isKept
        rw [← Option.isSome_map, found]
        rfl
    · have gone : segmentFiles after first = none := by
        have absent : segmentFiles disk first = none := by
          rwa [mem_segmentNames_keys, Bool.not_eq_true, Option.isSome_eq_false_iff,
            Option.isNone_iff_eq_none] at listed
        refine (leaves.others (.segment first) ?_).trans absent
        rintro other isListed ⟨⟩
        exact listed isListed
      rw [gone]
      exact ⟨nofun, fun isKept => absurd (few.subset isKept) listed⟩
  have same : ∀ binding ∈ (salvaged disk).2.2, segmentBytes after binding.1 = binding.2 := by
    intro binding isKept
    have listed := few.subset (mem_map_of_mem isKept)
    rw [segmentBytes, (leaves.segments _ listed _).mpr isKept]
    rfl
  have again : salvaged after = ((salvaged disk).1, .clean, (salvaged disk).2.2) := by
    rw [salvaged, names]
    exact salvage_again same
  rw [again]
  exact ⟨rfl, rfl⟩

theorem salvaged_started {next : Disk FileName} {first : ℕ}
    (none : Wal.segmentNames next.keys = [])
    (started : after = next ∨ (segmentFiles after first).map FileState.view = some [] ∧
      ∀ name, name ≠ .segment first → after.get name = next.get name) :
    (salvaged after).1 = [] ∧ (salvaged after).2.1 = .clean := by
  rcases started with rfl | ⟨isEmpty, others⟩
  · rw [salvaged, none]
    exact ⟨rfl, rfl⟩
  · have names : Wal.segmentNames after.keys = [first] := by
      refine segmentNames_eq (pairwise_singleton _ _) fun other => ?_
      rw [mem_singleton]
      by_cases same : other = first
      · subst same
        rw [← Option.isSome_map, isEmpty]
        simp
      · have absent : other ∉ Wal.segmentNames next.keys := by simp [none]
        rw [mem_segmentNames_keys] at absent
        have here : segmentFiles after other = segmentFiles next other :=
          others _ fun sameName => same (by cases sameName; rfl)
        rw [here]
        exact ⟨fun isThere => absurd isThere absent, fun isFirst => absurd isFirst same⟩
    have bytes : segmentBytes after first = [] := by rw [segmentBytes, isEmpty]; rfl
    rw [salvaged, names, salvage_clean (by simp [Detached]) (by rw [bytes]; rfl), bytes]
    exact ⟨rfl, rfl⟩

def uncovered (snapshot : Option Snapshot) (entries : List Entry) : List Entry :=
  let snapIndex := (snapshot.map Snapshot.lastIndex).getD 0
  if snapIndex > 0 then entries.filter fun entry => decide (entry.index > snapIndex) else entries

/-- What recovery makes of a disk. -/
structure Salvages (disk : Disk FileName) (recovered : Recovered) : Prop where
  hardState : recovered.hardState = (newestState (stateBytes disk)).1
  snapshot : recovered.snapshot = (newestOf (readings disk)).snapshot
  entries : recovered.entries = uncovered recovered.snapshot (salvaged disk).1
  tail : recovered.tail = (salvaged disk).2.1

/-- Recovery finds what there is on any disk, and leaves a disk on which it would find the same
and no reason to stop. -/
theorem open_finds (honest : ¬ faults.any) (opts : WalOptions) :
    Prog.Safe (Disk.Answers faults) (fun _ => True) (Wal.open opts).run
      (fun result after => (∃ recovered, result = .ok recovered ∧ Salvages disk recovered) ∧
        stateBytes after = stateBytes disk ∧ readings after = readings disk ∧
        (salvaged after).1 = (salvaged disk).1 ∧ (salvaged after).2.1 = .clean) disk := by
  unfold Wal.open
  refine openFile_safe honest trivial ?_
  intro opened isOpened
  rcases exists_opened_file isOpened with ⟨file, found⟩
  have touched := Touched.opened (by simp) isOpened
  have state : file.view = stateBytes disk := by
    rw [← touched.state, stateBytes, found]
    rfl
  refine .except_bind (.except_lift ((readHardState_safe honest found trivial).follow ?_))
  rintro _ _ _ ⟨unchanged, rfl⟩
  rw [unchanged, state]
  refine readSlot_reads honest ?_
  intro first isFirst
  refine readSlot_reads honest ?_
  intro second isSecond
  replace touched := (touched.trans (.opened (by simp) isFirst)).trans (.opened (by simp) isSecond)
  rw [reading_opened 1 isFirst, reading_opened 0 isOpened, reading_opened 1 isOpened]
  refine .except_bind (.bind (.ask trivial ?_))
  intro reply ready answers
  rcases Disk.answers_list answers with ⟨rfl | ⟨failing, _⟩, same⟩
  swap
  · exact absurd failing honest
  rw [same]
  refine ⟨trivial, .pure trivial ?_⟩
  have nodup : (Wal.segmentNames second.keys).Nodup := (segmentNames_rising second).imp ne_of_lt
  refine .except_bind ((readSegments_salvages honest nodup
    (fun _ => mem_segmentNames_keys.mp) ?_ ?_).follow ?_)
  · rfl
  · exact .inl rfl
  rintro _ next _ ⟨replay, rfl, entries, tail, started, leaves⟩
  refine .except_bind (.except_lift (Prog.Safe.mono (ensureSegment_leaves honest _ _)
    (fun _ => id) ?_))
  rintro ⟨_, wal⟩ after _ ⟨rfl, unchanged, ensured⟩
  have found : salvaged second = salvaged disk := salvaged_congr touched.segments
  have others (name : FileName) (notSegment : ∀ first, name ≠ .segment first) :
      after.get name = second.get name := by
    rw [← leaves.others name fun first _ => notSegment first]
    rcases ensured with rfl | ⟨_, same⟩
    · rfl
    · exact same name (notSegment _)
  refine .except_pure trivial ⟨⟨_, rfl, rfl, rfl, ?_, ?_⟩, ?_, ?_, ?_⟩
  · rw [← found]
    exact congrArg (uncovered _) entries
  · rw [← found]
    exact tail
  · rw [← touched.state, stateBytes, stateBytes, others _ (by simp)]
  · rw [← touched.slots]
    funext slot
    rw [readings, readings, slotFiles, slotFiles, others _ (by simp)]
  · rw [← found]
    by_cases none : Wal.segmentNames second.keys = []
    · have noNext : Wal.segmentNames next.keys = [] := by
        refine segmentNames_eq List.Pairwise.nil fun first => ?_
        have same : segmentFiles next first = segmentFiles second first :=
          leaves.others _ (by simp [none])
        rw [same, ← mem_segmentNames_keys, none]
      have nothing : (salvaged second).1 = [] := by
        rw [salvaged, none]
        rfl
      rw [nothing]
      exact salvaged_started noNext ensured
    · rw [unchanged (started (.inl none))]
      exact leaves.found_again

end Recovery

/-- Recovery, done twice in a row, finds the same both times, and the second time the log ends
cleanly. -/
theorem open_again (opts : WalOptions) (disk : Disk FileName) : ∃ recovered again,
    (carryOut (Wal.open opts).run disk).1 = .ok recovered ∧
    (carryOut (Wal.open opts).run (carryOut (Wal.open opts).run disk).2).1 = .ok again ∧
    again.entries = recovered.entries ∧ again.snapshot = recovered.snapshot ∧
    again.hardState = recovered.hardState ∧ again.tail = .clean := by
  have honest : ¬ Faults.none.any := id
  rcases carryOut_of_safe (open_finds honest opts) with
    ⟨⟨recovered, isFirst, first⟩, sameState, sameSlots, sameEntries, clean⟩
  rcases carryOut_of_safe (open_finds honest opts) with ⟨⟨again, isSecond, second⟩, _⟩
  refine ⟨recovered, again, isFirst, isSecond, ?_, ?_, ?_, second.tail.trans clean⟩
  · rw [second.entries, first.entries, sameEntries, second.snapshot, first.snapshot, sameSlots]
  · rw [second.snapshot, first.snapshot, sameSlots]
  · rw [second.hardState, first.hardState, sameState]

theorem scanSegment_scans {disk : Disk FileName} {name : FileName} {file : FileState}
    (found : disk.get name = some file) (firstIndex : ℕ) (prevIndex : Option ℕ) :
    (carryOut (Wal.scanSegment name firstIndex prevIndex) disk).1 =
      scan file.view ((prevIndex.map Counting.next).getD firstIndex) :=
  (carryOut_of_safe (Replayed.scanSegment_safe id found trivial firstIndex prevIndex)).2

end

theorem Parses.wraps {entries : List Entry} (parses : @Parses .unbounded expected buf entries) :
    @Parses .wrapping expected buf entries := by
  induction parses with
  | nil expected => exact @Parses.nil .wrapping expected
  | @cons expected _ _ _ _ _ isPlausible decoded isNext later ih =>
    refine @Parses.cons .wrapping _ _ _ _ _ _ isPlausible decoded isNext ?_
    cases later with
    | nil => exact @Parses.nil .wrapping _
    | cons _ decoded' isNext' _ =>
      rcases Entry.decode_accepts _ _ _ decoded' with ⟨_, _, fits, _⟩
      have below : expected + 1 < 2 ^ 64 := isNext'.symm.trans_lt fits.index
      rwa [show @Counting.next .wrapping expected = expected + 1 from Nat.mod_eq_of_lt below]

theorem Parses.counts {entries : List Entry} (parses : @Parses .wrapping expected buf entries)
    (below : ∀ entry ∈ entries, entry.index + 1 < 2 ^ 64) :
    @Parses .unbounded expected buf entries := by
  induction parses with
  | nil expected => exact @Parses.nil .unbounded expected
  | @cons expected _ _ _ entry _ isPlausible decoded isNext _ ih =>
    refine @Parses.cons .unbounded _ _ _ _ _ _ isPlausible decoded isNext ?_
    have here : expected + 1 < 2 ^ 64 := isNext ▸ below entry mem_cons_self
    have later := ih fun other member => below other (mem_cons_of_mem _ member)
    rwa [show @Counting.next .wrapping expected = expected + 1 from Nat.mod_eq_of_lt here] at later

theorem ScansTo.counts {entries : List Entry} {reason : TailReason} {valid : ℕ}
    (scans : @ScansTo .wrapping buf expected entries reason valid)
    (below : ∀ entry ∈ entries, entry.index + 1 < 2 ^ 64) :
    @ScansTo .unbounded buf expected entries reason valid := by
  rcases scans with ⟨inside, parses, longest, clean_iff⟩
  exact ⟨inside, parses.counts below,
    fun length others within parses => longest length others within parses.wraps, clean_iff⟩

end ChronoScope.Chronolog
