import ChronoScope.Chronolog.Saving
import ChronoScope.Chronolog.StateSlots
import ChronoScope.Chronolog.Steady

/-!
# Recovery

Recovery reads the segments that power loss has left in order of their first
indices. It takes a segment over as far as its records verify, cuts off the
rest, and removes every segment behind the first break. Whatever was secure
before is then in the log. Recovery may be interrupted as well: at every moment
the disk is one that it can start from again.
-/

namespace ChronoScope.Chronolog

open List

open Function (update update_of_ne update_self)

open Sim

/-- The records of the part that are firm are those a scan of its file returns. If the scan
stops before the end, nothing is pending. -/
def Readable (files : ℕ → Option FileState) (part : Part) : Prop :=
  ∃ file reason, files part.first = some file ∧ SegmentImage file.view part.all ∧
    Scanned file.view part.first part.all part.firm reason ∧
    (reason = .clean → Stores file part.firm []) ∧
    (reason ≠ .clean → file = .rebooted file.view)

theorem Stores.readable {files : ℕ → Option FileState} {first : ℕ} {file : FileState}
    {got : List Entry} (found : files first = some file) (stores : Stores file got [])
    (numbered : Numbered first got) (storable : ∀ entry ∈ got, entry.Storable) :
    Readable files { first, firm := got, all := got } := by
  have viewIs : file.view = records got := by simpa using stores.view
  have isImage : SegmentImage (records got) got := by
    have image := (Stores.rebooted got).yields storable first |>.image _ (survives_durable _)
    simpa [FileState.rebooted] using image
  rcases exists_scanned numbered storable isImage with ⟨found', reason, scanned⟩
  have everything : found' = got :=
    (scanned.most got prefix_rfl prefix_rfl).eq_of_length_le
    scanned.isPrefix.length_le |>.symm
  subst everything
  have clean : reason = .clean := scanned.clean_of_all isImage rfl
  rw [← viewIs] at isImage scanned
  exact ⟨file, reason, found, isImage, scanned, fun _ => stores, fun broken => absurd clean broken⟩

/-- More records of a part are firm. -/
def Part.raise (part : Part) (firm : List Entry) : Part := { part with firm }

variable {parts : List Part}

theorem secure_raise_map {firm : Part → List Entry}
    (raises : ∀ part ∈ parts, part.firm <+: firm part ∧ firm part <+: part.all)
    {expected : Option ℕ} {entry : Entry} (member : entry ∈ secure expected parts) :
    entry ∈ secure expected (parts.map fun part => part.raise (firm part)) := by
  refine mem_secure_raises ?_ member
  rw [forall₂_map_right_iff, forall₂_same]
  exact fun part isPart => ⟨rfl, rfl, raises part isPart⟩

theorem Laid.crash {disk after : Disk FileName} {sector : ℕ}
    (laid : Laid (segmentFiles disk) parts) (crash : Crash sector disk after) :
    ∃ firm : Part → List Entry,
      (∀ part ∈ parts, part.firm <+: firm part ∧ firm part <+: part.all) ∧
      Laid (segmentFiles after) (parts.map fun part => part.raise (firm part)) ∧
      ∀ part ∈ parts, Readable (segmentFiles after) (part.raise (firm part)) := by
  have each (part : Part) : ∃ got, part ∈ parts → part.firm <+: got ∧ got <+: part.all ∧
      (∃ file, segmentFiles after part.first = some file ∧ Yields file part.first got part.all) ∧
      Readable (segmentFiles after) (part.raise got) := by
    by_cases isPart : part ∈ parts
    · rcases laid.yields part isPart with ⟨file, found, yields⟩
      rcases crash.get found with ⟨image, survives, isRebooted⟩
      rcases yields.reboot (laid.numbered part isPart) (laid.storable part isPart) survives with
        ⟨got, reason, scanned, firm, yieldsNow⟩
      exact ⟨got, fun _ => ⟨firm, scanned.isPrefix, ⟨_, isRebooted, yieldsNow⟩, _, reason,
        isRebooted, yields.image image survives, scanned, scanned.stores_clean, fun _ => rfl⟩⟩
    · exact ⟨[], fun member => absurd member isPart⟩
  choose firm spec using each
  refine ⟨firm, fun part isPart => ⟨(spec part isPart).1, (spec part isPart).2.1⟩, ?_,
    fun part isPart => (spec part isPart).2.2.2⟩
  refine ⟨?_, ?_, ?_, ?_, ?_, ?_⟩
  · intro first
    have sameFirsts : (parts.map fun part => part.raise (firm part)).map Part.first =
        parts.map Part.first := by simp [Function.comp_def, Part.raise]
    rw [sameFirsts, ← laid.exact]
    cases found : segmentFiles disk first with
    | none =>
      have gone : segmentFiles after first = none := crash.get_none found
      rw [gone]
    | some file =>
      rcases crash.get found with ⟨image, _, isRebooted⟩
      have there : segmentFiles after first = some (.rebooted image) := isRebooted
      rw [there]
      simp
  · intro raised member
    rcases mem_map.mp member with ⟨part, isPart, rfl⟩
    exact (spec part isPart).2.2.1
  · rw [pairwise_map]
    exact laid.rising
  all_goals
    intro raised member
    rcases mem_map.mp member with ⟨part, isPart, rfl⟩
  · exact laid.positive part isPart
  · exact laid.numbered part isPart
  · exact laid.storable part isPart

theorem Numbered.getLast_index {first : ℕ} {entries : List Entry}
    (numbered : Numbered first entries)
    {last : Entry} (isLast : entries.getLast? = some last) :
    last.index + 1 = first + entries.length := by
  rw [getLast?_eq_getElem?] at isLast
  have index := numbered.index_eq isLast
  have bound := (List.getElem?_eq_some_iff.mp isLast).1
  omega

namespace Piece

/-- A segment as recovery takes it over. -/
def recovered (first : ℕ) (got : List Entry) : Piece where
  seg :=
    { firstIndex := first
      lastIndex := (got.getLast?.map Entry.index).getD (first - 1)
      size := (records got).length
      offsets := Wal.runningOffsets 0 got
      dirty := false }
  done := got
  rest := []

theorem recovered_all (first : ℕ) (got : List Entry) : (recovered first got).all = got :=
  append_nil got

theorem recovered_part (first : ℕ) (got : List Entry) :
    (recovered first got).part = { first, firm := got, all := got } := by
  rw [part, recovered_all]
  rfl

theorem sound_recovered {files : ℕ → Option FileState} {first : ℕ} {got : List Entry}
    {file : FileState} (found : files first = some file) (stores : Stores file got [])
    (positive : 0 < first) (numbered : Numbered first got)
    (storable : ∀ entry ∈ got, entry.Storable) : (recovered first got).Sound files := by
  refine ⟨⟨⟨file, found, stores⟩, positive, ?_, ?_, ?_, fun _ => rfl, ?_⟩, ?_⟩
  · rw [recovered_all]
    cases isLast : got.getLast? with
    | none =>
      cases getLast?_eq_none_iff.mp isLast
      simp only [recovered, getLast?_nil, Option.map_none, Option.getD_none, length_nil]
      omega
    | some last =>
      simp only [recovered, isLast, Option.map_some, Option.getD_some]
      exact numbered.getLast_index isLast
  · rw [recovered_all]
    rfl
  · rw [recovered_all]
    rfl
  · rw [recovered_all]
    exact numbered
  · rw [recovered_all]
    exact storable

end Piece

/-- Recovery as far as it has come: the segments taken over, and those still to be read. -/
structure Replaying (files : ℕ → Option FileState) (pieces : List Piece) (rest : List Part) :
    Prop where
  laid : Laid files (pieces.map Piece.part ++ rest)
  sound : ∀ piece ∈ pieces, piece.Sound files
  whole : ∀ piece ∈ pieces, piece.rest = []
  chain : Chain none (pieces.map Piece.part)
  expects : expectAfter none (pieces.map Piece.part) =
    (contents pieces).getLast?.map fun entry => entry.index + 1
  readable : ∀ part ∈ rest, Readable files part

theorem expectAfter_append (expected : Option ℕ) (parts more : List Part) :
    expectAfter expected (parts ++ more) = expectAfter (expectAfter expected parts) more := by
  induction parts generalizing expected with
  | nil => rfl
  | cons part rest ih => exact ih _

namespace Replaying

variable {files : ℕ → Option FileState} {pieces : List Piece} {part : Part} {rest : List Part}

theorem pieced (replaying : Replaying files pieces []) : Pieced files pieces := by
  have laid := replaying.laid
  rw [append_nil] at laid
  exact ⟨laid.exact, replaying.sound, laid.rising, replaying.chain⟩

theorem secure_eq (replaying : Replaying files pieces rest) (more : List Part) :
    secure none (pieces.map Piece.part ++ more) =
      contents pieces ++ secure (expectAfter none (pieces.map Piece.part)) more := by
  rw [secure_append_of_whole replaying.chain]
  · simp [contents, flatMap_map, Piece.part]
  · intro part member
    rcases mem_map.mp member with ⟨piece, isPiece, rfl⟩
    simp [Piece.part, Piece.all, replaying.whole piece isPiece]

theorem readable_later (replaying : Replaying files pieces (part :: rest))
    (file : Option FileState) :
    ∀ later ∈ rest, Readable (update files part.first file) later := by
  intro later isLater
  rcases replaying.readable later (mem_cons_of_mem _ isLater) with ⟨file, reason, found, rest⟩
  refine ⟨file, reason, ?_, rest⟩
  rw [update_of_ne (replaying.laid.first_ne (mem_append_right _ isLater)), found]

theorem skip (replaying : Replaying files pieces (part :: rest)) :
    Replaying (update files part.first none) pieces rest := by
  have other {piece : Piece} (isPiece : piece ∈ pieces) : piece.seg.firstIndex ≠ part.first :=
    replaying.laid.first_ne (mem_append_left _ (mem_map_of_mem isPiece))
  refine ⟨replaying.laid.remove, ?_, replaying.whole, replaying.chain, replaying.expects, ?_⟩
  · exact fun piece isPiece => (replaying.sound piece isPiece).frame (other isPiece) none
  · exact replaying.readable_later _

theorem take (replaying : Replaying files pieces (part :: rest)) {file : FileState}
    (stores : Stores file part.firm []) (isPrefix : part.firm <+: part.all)
    (connects : Connects (expectAfter none (pieces.map Piece.part)) part.first) :
    Replaying (update files part.first (some file))
      (pieces ++ [.recovered part.first part.firm]) rest := by
  have isPart : part ∈ pieces.map Piece.part ++ part :: rest := by simp
  have numbered := (replaying.laid.numbered part isPart).isPrefix isPrefix
  have storable : ∀ entry ∈ part.firm, entry.Storable := fun entry member =>
    replaying.laid.storable part isPart entry (isPrefix.subset member)
  have mapped : (pieces ++ [Piece.recovered part.first part.firm]).map Piece.part =
      pieces.map Piece.part ++ [{ first := part.first, firm := part.firm, all := part.firm }] := by
    simp [Piece.recovered_part]
  have other {piece : Piece} (isPiece : piece ∈ pieces) : piece.seg.firstIndex ≠ part.first :=
    replaying.laid.first_ne (mem_append_left _ (mem_map_of_mem isPiece))
  have sound : (Piece.recovered part.first part.firm).Sound
      (update files part.first (some file)) :=
    Piece.sound_recovered (update_self ..) stores (replaying.laid.positive part isPart)
      numbered storable
  refine ⟨?_, ?_, ?_, ?_, ?_, ?_⟩
  · rw [mapped, append_assoc]
    have yields := stores.yields storable part.first
    rw [append_nil] at yields
    exact replaying.laid.set yields numbered storable (Or.inr isPrefix.length_le)
  · intro piece member
    rcases mem_append.mp member with old | isNew
    · exact (replaying.sound piece old).frame (other old) _
    · cases mem_singleton.mp isNew
      exact sound
  · intro piece member
    rcases mem_append.mp member with old | isNew
    · exact replaying.whole piece old
    · cases mem_singleton.mp isNew
      rfl
  · rw [mapped, chain_append]
    exact ⟨replaying.chain, connects, trivial⟩
  · rw [mapped, expectAfter_append, replaying.expects]
    simp only [contents, flatMap_append, flatMap_singleton, Piece.recovered_all,
      expectAfter, expectNext]
    split_ifs with nothing
    · simp [nothing]
    · rcases Option.ne_none_iff_exists'.mp (mt getLast?_eq_none_iff.mp nothing) with
        ⟨last, isLast⟩
      rw [getLast?_append, isLast]
      simp [numbered.getLast_index isLast]
  · exact replaying.readable_later _

end Replaying

section Requests

variable {faults : Faults} {α : Type} {crash : Disk FileName → Prop} {disk : Disk FileName}
  {name : FileName} {post : Except Failure α → Disk FileName → Prop}

variable {next : Unit → Wal.Opening α}

theorem openFile_safe (honest : ¬ faults.any) (holds : crash disk)
    (opened : ∀ after, (after = if (disk.get name).isSome then disk else disk.insert name .new) →
      Prog.Safe (Disk.Answers faults) crash (next ()).run post after) :
    Prog.Safe (Disk.Answers faults) crash (Wal.ask (.openFile name) >>= next).run post disk := by
  refine .except_bind (.bind (.ask holds ?_))
  intro reply after answers
  rcases Disk.answers_openFile answers with ⟨rfl, isOpened⟩ | ⟨failing, _⟩
  · have safe := opened after isOpened
    exact ⟨safe.crash_here, .pure safe.crash_here safe⟩
  · exact absurd failing honest

theorem openFile_there_safe (honest : ¬ faults.any) {file : FileState}
    (found : disk.get name = some file)
    (safe : Prog.Safe (Disk.Answers faults) crash (next ()).run post disk) :
    Prog.Safe (Disk.Answers faults) crash (Wal.ask (.openFile name) >>= next).run post disk := by
  refine openFile_safe honest safe.crash_here ?_
  rintro after rfl
  rw [if_pos (by simp [found])]
  exact safe

theorem remove_safe (honest : ¬ faults.any) {next : Wal.Opening α} (holds : crash disk)
    (safe : Prog.Safe (Disk.Answers faults) crash next.run post (BTreeMap.remove disk name)) :
    Prog.Safe (Disk.Answers faults) crash
      (do
        let _ ← (Prog.ask (.remove name) : Storage _)
        next : Wal.Opening α).run post disk := by
  refine .except_bind (.except_lift (.ask holds ?_))
  intro reply after answers
  rcases Disk.answers_remove answers with ⟨rfl, rfl⟩ | ⟨failing, _⟩
  · exact ⟨safe.crash_here, safe⟩
  · exact absurd failing honest

end Requests

/-- A disk on which recovery may be repeated: nothing but segment files has changed, and what
must be found is secure. -/
structure Regained (appended must : Entry → Prop) (disk after : Disk FileName) : Prop where
  slots : slotFiles after = slotFiles disk
  state : after.get .state = disk.get .state
  laid : ∃ parts, Laid (segmentFiles after) parts ∧
    (∀ part ∈ parts, ∀ entry ∈ part.all, appended entry) ∧
    ∀ entry, must entry → entry ∈ secure none parts

/-- What recovery knows while it reads the segments. -/
structure Replayed (appended must : Entry → Prop) (disk after : Disk FileName)
    (replay : Wal.Replay) (pieces : List Piece) (rest : List Part) : Prop where
  slots : slotFiles after = slotFiles disk
  state : after.get .state = disk.get .state
  replaying : Replaying (segmentFiles after) pieces rest
  appended : ∀ part ∈ pieces.map Piece.part ++ rest, ∀ entry ∈ part.all, appended entry
  kept : ∀ entry, must entry → entry ∈ contents pieces ∨
    replay.tail = .clean ∧ entry ∈ secure (expectAfter none (pieces.map Piece.part)) rest
  segments : replay.segments = pieces.map Piece.seg
  entries : replay.entries = contents pieces

namespace Replayed

variable {faults : Faults} {appended must : Entry → Prop} {disk after : Disk FileName}
  {replay : Wal.Replay} {pieces : List Piece} {part : Part} {rest : List Part}

theorem regained (replayed : Replayed appended must disk after replay pieces rest) :
    Regained appended must disk after := by
  refine ⟨replayed.slots, replayed.state, _, replayed.replaying.laid, replayed.appended, ?_⟩
  intro entry isKept
  rw [replayed.replaying.secure_eq]
  rcases replayed.kept entry isKept with here | ⟨_, later⟩
  · exact mem_append_left _ here
  · exact mem_append_right _ later

theorem skip (replayed : Replayed appended must disk after replay pieces (part :: rest))
    {reason : TailReason} (broken : ∀ entry, must entry → entry ∈ contents pieces) :
    Replayed appended must disk (BTreeMap.remove after (.segment part.first))
      { replay with tail := reason } pieces rest := by
  have changes := Changes.remove after part.first
  refine ⟨changes.slots.trans replayed.slots, changes.state.trans replayed.state, ?_, ?_, ?_,
    replayed.segments, replayed.entries⟩
  · rw [changes.segments]
    exact replayed.replaying.skip
  · intro other member
    refine replayed.appended other ?_
    simp only [mem_append, mem_cons] at member ⊢
    tauto
  · exact fun entry isKept => Or.inl (broken entry isKept)

theorem take (replayed : Replayed appended must disk after replay pieces (part :: rest))
    {next : Disk FileName} {file : FileState} (changes : Changes after next part.first (some file))
    (stores : Stores file part.firm []) (isPrefix : part.firm <+: part.all)
    (connects : Connects (expectAfter none (pieces.map Piece.part)) part.first)
    (tail : TailReason) (tailIs : part.firm = part.all → tail = .clean) :
    Replayed appended must disk next
      { segments := replay.segments ++ [(Piece.recovered part.first part.firm).seg]
        entries := replay.entries ++ part.firm
        tail } (pieces ++ [.recovered part.first part.firm]) rest := by
  have mapped : (pieces ++ [Piece.recovered part.first part.firm]).map Piece.part =
      pieces.map Piece.part ++ [{ first := part.first, firm := part.firm, all := part.firm }] := by
    simp [Piece.recovered_part]
  have grows : contents (pieces ++ [Piece.recovered part.first part.firm]) =
      contents pieces ++ part.firm := by
    simp [contents, Piece.recovered_all]
  refine ⟨changes.slots.trans replayed.slots, changes.state.trans replayed.state, ?_, ?_, ?_, ?_,
    ?_⟩
  · rw [changes.segments]
    exact replayed.replaying.take stores isPrefix connects
  · intro other member
    rw [mapped] at member
    simp only [append_assoc, singleton_append, mem_append, mem_cons] at member
    rcases member with old | rfl | later
    · exact replayed.appended other (by simp [old])
    · exact fun entry isFirm => replayed.appended part (by simp) entry (isPrefix.subset isFirm)
    · exact replayed.appended other (by simp [later])
  · intro entry isKept
    rw [grows]
    rcases replayed.kept entry isKept with old | ⟨_, later⟩
    · exact Or.inl (mem_append_left _ old)
    · rw [secure_cons connects] at later
      rcases mem_append.mp later with isFirm | behind
      · exact Or.inl (mem_append_right _ isFirm)
      · split_ifs at behind with everything
        · right
          refine ⟨tailIs everything, ?_⟩
          rw [mapped, expectAfter_append]
          rw [← everything] at behind
          exact behind
        · cases behind
  · simp [replayed.segments]
  · rw [grows, replayed.entries]

theorem expects (replayed : Replayed appended must disk after replay pieces rest) :
    expectAfter none (pieces.map Piece.part) =
      replay.entries.getLast?.map fun entry => entry.index + 1 := by
  rw [replayed.entries, replayed.replaying.expects]

theorem scanSegment_safe [Counting] (honest : ¬ faults.any) {crash : Disk FileName → Prop}
    {name : FileName} {file : FileState} (found : after.get name = some file) (holds : crash after)
    (first : ℕ) (prevIndex : Option ℕ) :
    Prog.Safe (Disk.Answers faults) crash (Wal.scanSegment name first prevIndex)
      (fun result next => next = after ∧
        result = scan file.view ((prevIndex.map Counting.next).getD first)) after := by
  unfold Wal.scanSegment
  refine .bind (.ask holds ?_)
  intro size next answers
  rcases Disk.answers_len found answers with ⟨rfl, rfl⟩
  refine ⟨holds, .bind (.ask holds ?_)⟩
  intro reply next answers
  rcases Disk.answers_readAt found answers with ⟨rfl | ⟨failing, _⟩, rfl⟩
  · refine ⟨holds, .pure holds ⟨rfl, ?_⟩⟩
    simp [FileState.readAt]
  · exact absurd failing honest

theorem readSegment_safe (honest : ¬ faults.any)
    (replayed : Replayed appended must disk after replay pieces (part :: rest))
    (connects : Connects (expectAfter none (pieces.map Piece.part)) part.first)
    (wasClean : replay.tail = .clean) :
    Prog.Safe (Disk.Answers faults) (Regained appended must disk)
      (Wal.readSegment part.first replay)
      (fun replay' next => Replayed appended must disk next replay'
        (pieces ++ [.recovered part.first part.firm]) rest) after := by
  rcases replayed.replaying.readable part (mem_cons_self ..) with
    ⟨file, reason, found, isImage, scanned, isClean, isBroken⟩
  have expected : ((replay.entries.getLast?.map Entry.index).map Counting.next).getD part.first =
      part.first := by
    rw [Option.map_map]
    have expects := replayed.expects
    rcases connects with nothing | exactly
    · rw [nothing] at expects
      rw [show (replay.entries.getLast?.map (Counting.next ∘ Entry.index)) = none from expects.symm]
      rfl
    · rw [exactly] at expects
      rw [show (replay.entries.getLast?.map (Counting.next ∘ Entry.index)) = some part.first from
        expects.symm]
      rfl
  have regained := replayed.regained
  unfold Wal.readSegment
  refine .bind ((scanSegment_safe honest found regained _ _).follow ?_)
  rintro _ next _ ⟨same, rfl⟩
  rw [same, expected, scanned.scan_eq]
  simp only [TailReason.isClean, decide_eq_true_eq]
  split_ifs with clean
  · refine .pure regained ?_
    exact replayed.take (.same found) (isClean clean) scanned.isPrefix connects
      _ fun _ => wasClean
  · generalize file.view = image at isBroken isImage scanned
    cases isBroken clean
    refine .bind (.ask regained ?_)
    intro reply cut answers
    rcases Disk.answers_truncate found answers with ⟨rfl, rfl⟩ | ⟨failing, _⟩
    swap
    · exact absurd failing honest
    have changes := Changes.insert after part.first
      ((FileState.rebooted image).truncate (records part.firm).length)
    have cutOff : Regained appended must disk (after.insert (.segment part.first)
        ((FileState.rebooted image).truncate (records part.firm).length)) := by
      refine ⟨changes.slots.trans replayed.slots, changes.state.trans replayed.state, _, ?_,
        replayed.appended, ?_⟩
      · rw [changes.segments]
        have isPart : part ∈ pieces.map Piece.part ++ part :: rest := by simp
        exact replayed.replaying.laid.set (scanned.yields_truncate isImage)
          (replayed.replaying.laid.numbered part isPart)
          (replayed.replaying.laid.storable part isPart) (Or.inr le_rfl)
      · intro entry isKept
        rw [replayed.replaying.secure_eq]
        rcases replayed.kept entry isKept with here | ⟨_, later⟩
        · exact mem_append_left _ here
        · exact mem_append_right _ later
    refine ⟨cutOff, .bind (.ask cutOff ?_)⟩
    intro reply synced answers
    rcases Disk.answers_fsync changes.get answers with ⟨rfl, rfl⟩ | ⟨failing, _⟩
    swap
    · exact absurd failing honest
    have taken := replayed.take (changes.again _) scanned.stores_fsync scanned.isPrefix connects
      reason (scanned.clean_of_all isImage)
    exact ⟨taken.regained, .pure taken.regained taken⟩

/-- The first of the segments are taken over, and none once the tail is broken. -/
def TakesOver (appended must : Entry → Prop) (disk : Disk FileName) (tail : TailReason)
    (pieces : List Piece) (rest : List Part) (result : Except Failure Wal.Replay)
    (next : Disk FileName) : Prop :=
  ∃ replay taken, result = .ok replay ∧ taken <+: rest ∧ (tail ≠ .clean → taken = []) ∧
    Replayed appended must disk next replay
      (pieces ++ taken.map fun part => .recovered part.first part.firm) []

theorem readSegments_safe (honest : ¬ faults.any)
    (replayed : Replayed appended must disk after replay pieces rest) :
    Prog.Safe (Disk.Answers faults) (Regained appended must disk)
      (Wal.readSegments (rest.map Part.first) replay).run
      (TakesOver appended must disk replay.tail pieces rest) after := by
  induction rest generalizing after replay pieces with
  | nil =>
    refine .except_pure replayed.regained ⟨replay, [], rfl, prefix_rfl, fun _ => rfl, ?_⟩
    rw [map_nil, append_nil]
    exact replayed
  | cons part rest ih =>
    have regained := replayed.regained
    rcases replayed.replaying.readable part (mem_cons_self ..) with ⟨file, _, found, _⟩
    -- Behind a break nothing is taken over any more.
    have skipped {reason : TailReason} (lost : ∀ entry, must entry → entry ∈ contents pieces)
        (broken : reason ≠ .clean) :
        Prog.Safe (Disk.Answers faults) (Regained appended must disk)
          (Wal.readSegments (rest.map Part.first) { replay with tail := reason }).run
          (TakesOver appended must disk replay.tail pieces (part :: rest))
          (BTreeMap.remove after (.segment part.first)) := by
      refine (ih (replayed.skip lost)).follow ?_
      rintro _ next _ ⟨replay', taken, rfl, _, nothing, replayed'⟩
      cases nothing broken
      exact ⟨replay', [], rfl, nil_prefix, fun _ => rfl, replayed'⟩
    rw [map_cons, Wal.readSegments]
    refine openFile_there_safe honest found ?_
    simp only [TailReason.isClean, decide_eq_true_eq]
    split_ifs with wasClean gap
    · have unconnected : ¬ Connects (expectAfter none (pieces.map Piece.part)) part.first := by
        rw [replayed.expects]
        rcases Option.ne_none_iff_exists'.mp (mt getLast?_eq_none_iff.mp gap.2) with
          ⟨last, isLast⟩
        simpa [Connects, isLast, Counting.next, eq_comm] using gap.1
      have lost : ∀ entry, must entry → entry ∈ contents pieces := by
        intro entry isKept
        rcases replayed.kept entry isKept with here | ⟨_, later⟩
        · exact here
        · rw [secure, if_neg unconnected] at later
          cases later
      exact remove_safe honest regained (skipped lost (by simp))
    · have connects : Connects (expectAfter none (pieces.map Piece.part)) part.first := by
        rw [replayed.expects]
        cases isLast : replay.entries.getLast? with
        | none => exact Or.inl rfl
        | some last =>
          have nonempty : replay.entries ≠ [] := by
            rintro empty
            simp [empty] at isLast
          right
          by_contra differs
          exact gap ⟨by simpa [isLast, Counting.next, eq_comm] using differs, nonempty⟩
      refine .except_bind (.except_lift ?_)
      refine (replayed.readSegment_safe honest connects wasClean).follow ?_
      intro replay' next _ replayed'
      refine (ih replayed').follow ?_
      rintro _ final _ ⟨replay'', taken, rfl, isPrefix, _, replayed''⟩
      refine ⟨replay'', part :: taken, rfl, (prefix_cons_inj part).mpr isPrefix, ?_, ?_⟩
      · exact fun broken => absurd wasClean broken
      · simpa using replayed''
    · have lost : ∀ entry, must entry → entry ∈ contents pieces := fun entry isKept =>
        (replayed.kept entry isKept).resolve_right fun later => wasClean later.1
      exact remove_safe honest regained (skipped lost wasClean)

end Replayed

theorem mem_segmentNames {names : List FileName} {first : ℕ} :
    first ∈ Wal.segmentNames names ↔ .segment first ∈ names := by
  rw [Wal.segmentNames, (perm_insertionSort ..).mem_iff, mem_filterMap]
  constructor
  · rintro ⟨name, member, isSegment⟩
    cases name <;> simp_all
  · exact fun member => ⟨_, member, rfl⟩

theorem segmentNames_rising (disk : Disk FileName) :
    (Wal.segmentNames disk.keys).Pairwise (· < ·) := by
  have nodup : (Wal.segmentNames disk.keys).Nodup := by
    rw [Wal.segmentNames, (perm_insertionSort ..).nodup_iff]
    refine List.Pairwise.filterMap _ ?_ (disk.keys_sorted.imp ne_of_lt)
    intro name other distinct first isFirst second isSecond
    cases name <;> cases other <;> simp_all
  have sorted : (Wal.segmentNames disk.keys).Pairwise (· ≤ ·) := pairwise_insertionSort ..
  exact (sorted.and nodup).imp fun both => lt_of_le_of_ne both.1 both.2

theorem mem_segmentNames_keys {disk : Disk FileName} {first : ℕ} :
    first ∈ Wal.segmentNames disk.keys ↔ (segmentFiles disk first).isSome = true := by
  rw [mem_segmentNames, BTreeMap.mem_keys]
  rfl

theorem segmentNames_eq {disk : Disk FileName} {names : List ℕ} (rising : names.Pairwise (· < ·))
    (exact : ∀ first, (segmentFiles disk first).isSome = true ↔ first ∈ names) :
    Wal.segmentNames disk.keys = names := by
  have listed := segmentNames_rising disk
  have same : (Wal.segmentNames disk.keys).Perm names := by
    refine (perm_ext_iff_of_nodup (listed.imp ne_of_lt) (rising.imp ne_of_lt)).mpr ?_
    intro first
    rw [mem_segmentNames_keys, exact]
  exact same.eq_of_pairwise (fun _ _ _ _ less more => absurd more (lt_asymm less)) listed rising

theorem Laid.segmentNames_eq {disk : Disk FileName} (laid : Laid (segmentFiles disk) parts) :
    Wal.segmentNames disk.keys = parts.map Part.first :=
  Chronolog.segmentNames_eq (pairwise_map.mpr (laid.rising.imp And.left)) laid.exact

/-- A disk that carries out what shortens the log and what makes it durable. It may refuse a write,
with an error like `denied`, and a segment beside those there are, with one like `barred`. What it
refuses has no effect. -/
structure Steadfast (device : Device (Request FileName) (Disk FileName))
    (denied barred : IoError → Prop) : Prop where
  openFile : ∀ {first : ℕ} {disk after : Disk FileName} {reply : Except IoError Unit},
    device (.openFile (.segment first)) disk reply after →
      disk.perform (.openFile (.segment first)) = (reply, after) ∨
      (∃ other, (segmentFiles disk other).isSome = true) ∧
        (∃ error, barred error ∧ reply = .error error) ∧ after = disk
  syncDir : ∀ {disk after : Disk FileName} {reply : Except IoError Unit},
    device .syncDir disk reply after → after = disk ∧ (reply = .ok () ∨
      (∃ first other, first ≠ other ∧ (segmentFiles disk first).isSome = true ∧
        (segmentFiles disk other).isSome = true) ∧ ∃ error, barred error ∧ reply = .error error)
  remove : ∀ {first : ℕ} {disk after : Disk FileName} {reply : Except IoError Unit},
    device (.remove (.segment first)) disk reply after →
      disk.perform (.remove (.segment first)) = (reply, after)
  truncate : ∀ {first len : ℕ} {disk after : Disk FileName} {reply : Except IoError Unit},
    device (.truncate (.segment first) len) disk reply after →
      disk.perform (.truncate (.segment first) len) = (reply, after)
  fsync : ∀ {first : ℕ} {disk after : Disk FileName} {reply : Except IoError Unit},
    device (.fsync (.segment first)) disk reply after →
      disk.perform (.fsync (.segment first)) = (reply, after)
  writeAt : ∀ {first offset : ℕ} {data : Bytes} {disk after : Disk FileName}
    {reply : Except IoError Unit}, device (.writeAt (.segment first) offset data) disk reply after →
      disk.perform (.writeAt (.segment first) offset data) = (reply, after) ∨
      (∃ error, denied error ∧ reply = .error error) ∧ after = disk

/-- The errors of a disk that is full. -/
def OutOfSpace (faults : Faults) (error : IoError) : Prop := faults.full ∧ error = .enospc

theorem steadfast_of_honest {faults : Faults} (honest : ¬ faults.any) :
    Steadfast (Disk.Answers faults) (OutOfSpace faults) (fun _ => False) where
  openFile answers := answers.imp_right fun refused => absurd refused.1.1 honest
  syncDir answers := by
    rcases Disk.answers_syncDir answers with ⟨rfl | ⟨failing, _⟩, rfl⟩
    · exact ⟨rfl, Or.inl rfl⟩
    · exact absurd failing honest
  remove answers := answers.resolve_right fun refused => honest refused.1.1
  truncate answers := answers.resolve_right fun refused => honest refused.1.1
  fsync answers := answers.resolve_right fun refused => honest refused.1.1
  writeAt answers := by
    refine answers.imp_right ?_
    rintro ⟨⟨full, rfl⟩ | ⟨failing, _⟩, same⟩
    · exact ⟨⟨_, ⟨full, rfl⟩, rfl⟩, same⟩
    · exact absurd failing honest

namespace Steadfast

variable {device : Device (Request FileName) (Disk FileName)} {denied barred : IoError → Prop}
  {disk after : Disk FileName} {first : ℕ} {file : FileState} {reply : Except IoError Unit}

section

variable (steadfast : Steadfast device denied barred)

include steadfast

theorem removed (answers : device (.remove (.segment first)) disk reply after) :
    reply = .ok () ∧ after = BTreeMap.remove disk (.segment first) := by
  cases steadfast.remove answers
  exact ⟨rfl, rfl⟩

section

variable (found : segmentFiles disk first = some file)

include found

theorem truncated {len : ℕ} (answers : device (.truncate (.segment first) len) disk reply after) :
    reply = .ok () ∧ after = disk.insert (.segment first) (file.truncate len) := by
  have answers' : Disk.Answers .none _ disk reply after := Or.inl (steadfast.truncate answers)
  exact (Disk.answers_truncate found answers').resolve_right fun refused => refused.1

theorem fsynced (answers : device (.fsync (.segment first)) disk reply after) :
    reply = .ok () ∧ after = disk.insert (.segment first) file.fsync := by
  have answers' : Disk.Answers .none _ disk reply after := Or.inl (steadfast.fsync answers)
  exact (Disk.answers_fsync found answers').resolve_right fun refused => refused.1

theorem written {offset : ℕ} {data : Bytes}
    (answers : device (.writeAt (.segment first) offset data) disk reply after) :
    (reply = .ok () ∧ after = disk.insert (.segment first) (file.writeAt offset data)) ∨
      (∃ error, denied error ∧ reply = .error error) ∧ after = disk := by
  refine (steadfast.writeAt answers).imp_left fun performed => ?_
  have answers' : Disk.Answers .none _ disk reply after := Or.inl performed
  refine (Disk.answers_writeAt found answers').resolve_right ?_
  rintro ⟨⟨full, _⟩ | ⟨failing, _⟩, _⟩
  · exact full
  · exact failing

end

/-- What comes of beginning a segment: a file without records, unless there are other segments and
the disk bars this one, or its entry in the directory. -/
theorem openSegment_runs {wal : Wal} {crash : Disk FileName → Prop}
    {post : Except Failure Unit → Wal → Disk FileName → Prop}
    (absent : segmentFiles disk first = none) (holds : crash disk)
    (created : ∀ after file, Changes disk after first (some file) → Stores file [] [] →
      crash after ∧ post (.ok ()) { wal with segments := wal.segments ++ [.fresh first] } after)
    (refused : ∀ error, barred error → (∃ other, (segmentFiles disk other).isSome = true) →
      post (.error (.io error)) wal disk ∧ ∀ after file, Changes disk after first (some file) →
        Stores file [] [] → post (.error (.io error))
          { wal with segments := wal.segments ++ [.fresh first] } after) :
    Routine.Runs device crash (Wal.openSegment first) post wal disk := by
  unfold Wal.openSegment
  refine .attempt_bind holds ?_
  intro reply opened answers
  rcases steadfast.openFile answers with performed | ⟨others, ⟨error, isBarred, rfl⟩, rfl⟩
  swap
  · exact ⟨holds, (refused error isBarred others).1⟩
  have notThere : ¬ (disk.get (.segment first)).isSome = true := by
    rw [show disk.get (.segment first) = none from absent]
    simp
  simp only [Disk.perform, if_neg notThere] at performed
  cases performed
  have changes := Changes.insert disk first .new
  have isNew := (created _ _ changes .new).1
  refine ⟨isNew, .bind (.request isNew ?_)⟩
  intro reply emptied answers
  obtain ⟨rfl, rfl⟩ := steadfast.truncated changes.get answers
  have emptied := changes.again (FileState.new.truncate 0)
  rcases created _ _ emptied Stores.new.truncate_zero with ⟨isEmpty, done⟩
  refine ⟨isEmpty, .bind (.update isEmpty (.attempt isEmpty ?_))⟩
  intro reply synced answers
  rcases steadfast.syncDir answers with ⟨rfl, rfl | ⟨two, error, isBarred, rfl⟩⟩
  · exact ⟨isEmpty, done⟩
  · refine ⟨isEmpty, (refused error isBarred ?_).2 _ _ emptied Stores.new.truncate_zero⟩
    rcases two with ⟨one, other, distinct, isOne, isOther⟩
    rw [emptied.segments] at isOne isOther
    by_cases same : one = first
    · rw [update_of_ne (fun isFirst => distinct (same.trans isFirst.symm))] at isOther
      exact ⟨other, isOther⟩
    · rw [update_of_ne same] at isOne
      exact ⟨one, isOne⟩

end

end Steadfast

/-- The file is the same, unless it was missing and has been created. -/
def Grown (old new : Option FileState) : Prop := new = old ∨ old = none ∧ new = some .new

theorem Grown.refl (file : Option FileState) : Grown file file := Or.inl rfl

namespace Slotted

variable {fresh : Saved → Prop} {files files' : ℕ → Option FileState} {target : ℕ}
  {base : Option Saved}

theorem grown (slotted : Slotted fresh files target base)
    (grown : ∀ slot, Grown (files slot) (files' slot)) : Slotted fresh files' target base := by
  refine ⟨slotted.isSlot, ?_, ?_, ?_, ?_, ?_⟩
  · intro missing
    rcases grown (1 - target) with same | ⟨_, isNew⟩
    · exact slotted.missing (same.symm.trans missing)
    · cases isNew.symm.trans missing
  · intro file found
    rcases grown (1 - target) with same | ⟨missing, isNew⟩
    · exact slotted.firm file (same.symm.trans found)
    · cases isNew.symm.trans found
      exact ⟨[], rfl, (slotted.missing missing).symm⟩
  · intro file found
    rcases grown target with same | ⟨_, isNew⟩
    · exact slotted.replays file (same.symm.trans found)
    · cases isNew.symm.trans found
      exact FileState.replays_new
  · intro file found op member
    rcases grown target with same | ⟨_, isNew⟩
    · exact slotted.pending file (same.symm.trans found) op member
    · cases isNew.symm.trans found
      cases member
  · intro file found saved isSaved
    rcases grown target with same | ⟨_, isNew⟩
    · exact slotted.durable file (same.symm.trans found) saved isSaved
    · cases isNew.symm.trans found
      cases isSaved

end Slotted

/-- Recovery has begun, and may be repeated. -/
structure Reopening (appended must : Entry → Prop) (disk after : Disk FileName) : Prop where
  slots : ∀ slot, Grown (slotFiles disk slot) (slotFiles after slot)
  state : Grown (disk.get .state) (after.get .state)
  laid : ∃ parts, Laid (segmentFiles after) parts ∧
    (∀ part ∈ parts, ∀ entry ∈ part.all, appended entry) ∧
    ∀ entry, must entry → entry ∈ secure none parts

theorem Reopening.openFile {appended must : Entry → Prop} {disk after opened : Disk FileName}
    (reopening : Reopening appended must disk after) {name : FileName}
    (noSegment : ∀ first, name ≠ .segment first)
    (isOpened : opened = if (after.get name).isSome then after else after.insert name .new) :
    Reopening appended must disk opened ∧ segmentFiles opened = segmentFiles after ∧
      (∀ other, other ≠ name → opened.get other = after.get other) ∧
      ∃ file, opened.get name = some file ∧ Grown (after.get name) (some file) := by
  cases found : after.get name with
  | some file =>
    rw [if_pos (by simp [found])] at isOpened
    subst isOpened
    exact ⟨reopening, rfl, fun _ _ => rfl, file, found, Or.inl rfl⟩
  | none =>
    rw [if_neg (by simp [found])] at isOpened
    subst isOpened
    have untouched : segmentFiles (after.insert name .new) = segmentFiles after := by
      funext first
      simp [segmentFiles, (noSegment first).symm]
    refine ⟨⟨?_, ?_, ?_⟩, untouched, ?_, .new, by simp, Or.inr ⟨rfl, rfl⟩⟩
    · intro slot
      by_cases same : FileName.snapshot slot = name
      · have was := reopening.slots slot
        rw [show slotFiles after slot = none by rw [slotFiles, same, found]] at was
        rcases was with unchanged | ⟨_, ⟨⟩⟩
        exact Or.inr ⟨unchanged.symm, by simp [slotFiles, same]⟩
      · have untouched : slotFiles (after.insert name .new) slot = slotFiles after slot := by
          simp [slotFiles, same]
        rw [untouched]
        exact reopening.slots slot
    · by_cases same : FileName.state = name
      · have was := reopening.state
        rw [show after.get .state = none by rw [same, found]] at was
        rcases was with unchanged | ⟨_, ⟨⟩⟩
        exact Or.inr ⟨unchanged.symm, by simp [same]⟩
      · have untouched : (after.insert name .new).get .state = after.get .state := by
          simp [same]
        rw [untouched]
        exact reopening.state
    · rw [untouched]
      exact reopening.laid
    · intro other distinct
      simp [distinct]

theorem readSnapshot_safe {faults : Faults} (honest : ¬ faults.any) {crash : Disk FileName → Prop}
    {disk : Disk FileName} {name : FileName} {file : FileState}
    (found : disk.get name = some file) (holds : crash disk) :
    Prog.Safe (Disk.Answers faults) crash (Wal.readSnapshot name)
      (fun result after => after = disk ∧ result = snapshotOf file.view) disk := by
  unfold Wal.readSnapshot
  refine .bind (.ask holds ?_)
  intro size after answers
  rcases Disk.answers_len found answers with ⟨rfl, rfl⟩
  refine ⟨holds, ?_⟩
  split_ifs with short
  · refine .pure holds ⟨rfl, ?_⟩
    have failed : unframe maxRecord file.view = .error .shortHeader := if_pos short
    simp [snapshotOf, failed]
  · refine .bind (.ask holds ?_)
    intro reply next answers
    rcases Disk.answers_readAt found answers with ⟨rfl | ⟨failing, _⟩, rfl⟩
    swap
    · exact absurd failing honest
    refine ⟨holds, .pure holds ⟨rfl, ?_⟩⟩
    simp [FileState.readAt]

def stateImage (disk : Disk FileName) : Bytes := ((disk.get .state).map FileState.view).getD []

section Open

variable {faults : Faults} {appended must : Entry → Prop} {disk after : Disk FileName}

theorem readSlot_safe {α : Type} (honest : ¬ faults.any)
    (reopening : Reopening appended must disk after) (newest : Wal.Newest) (slot : ℕ)
    {next : Wal.Newest → Wal.Opening α} {post : Except Failure α → Disk FileName → Prop}
    (continues : ∀ opened, Reopening appended must disk opened →
      segmentFiles opened = segmentFiles after → opened.get .state = after.get .state →
      Prog.Safe (Disk.Answers faults) (Reopening appended must disk)
        (next (newest.consider slot (readings disk slot))).run post opened) :
    Prog.Safe (Disk.Answers faults) (Reopening appended must disk)
      (Wal.readSlot newest slot >>= next).run post after := by
  have reading {file : FileState} (grown : Grown (slotFiles disk slot) (some file)) :
      snapshotOf file.view = readings disk slot := by
    rcases grown with same | ⟨missing, isNew⟩
    · exact (readings_eq same.symm).symm
    · cases isNew
      rw [readings, missing]
      rfl
  unfold Wal.readSlot
  refine .except_bind (openFile_safe honest reopening ?_)
  intro opened isOpened
  rcases reopening.openFile (by simp) isOpened with ⟨reopening', segments, others, file, found, _⟩
  have grown := reopening'.slots slot
  rw [show slotFiles opened slot = some file from found] at grown
  refine .except_bind (.except_lift ((readSnapshot_safe honest found reopening').follow ?_))
  rintro _ later _ ⟨same, rfl⟩
  rw [same, reading grown]
  exact .except_pure reopening' (continues opened reopening' segments (others _ (by simp)))

/-- What recovery returns, and the disk it leaves. -/
structure Opened (opts : WalOptions) (appended must : Entry → Prop) (disk after : Disk FileName)
    (recovered : Recovered) (pieces : List Piece) : Prop where
  opts : recovered.wal.opts = opts
  segments : recovered.wal.segments = pieces.map Piece.seg
  slot : recovered.wal.snapshotSlot = (newestOf (readings disk)).slot
  seq : recovered.wal.snapshotSeq = (newestOf (readings disk)).seq
  snapshot : recovered.snapshot = (newestOf (readings disk)).snapshot
  hardState : (recovered.hardState, recovered.wal.stateSeq) = newestState (stateImage disk)
  entries : recovered.entries = (contents pieces).filter fun entry =>
    decide (entry.index > ((newestOf (readings disk)).snapshot.map Snapshot.lastIndex).getD 0)
  slots : ∀ slot, Grown (slotFiles disk slot) (slotFiles after slot)
  state : ∃ file, after.get .state = some file ∧ Grown (disk.get .state) (some file)
  pieced : Pieced (segmentFiles after) pieces
  whole : ∀ piece ∈ pieces, piece.rest = []
  nonempty : pieces ≠ []
  appended : ∀ piece ∈ pieces, ∀ entry ∈ piece.all, appended entry
  kept : ∀ entry, must entry → entry ∈ contents pieces

/-- The segments of the log after recovery has taken over these. -/
def takenOver (taken : List Part) (first : ℕ) : List Piece :=
  if taken = [] then [.fresh first] else taken.map fun part => .recovered part.first part.firm

theorem contents_takenOver (taken : List Part) (first : ℕ) :
    contents (takenOver taken first) = taken.flatMap Part.firm := by
  unfold takenOver
  split_ifs with nothing
  · simp [nothing, contents, Piece.fresh, Piece.all]
  · simp [contents, flatMap_map, Piece.recovered_all]

variable {files : ℕ → Option FileState} {pieces : List Piece}

theorem Pieced.index_pos (pieced : Pieced files pieces) {entry : Entry}
    (member : entry ∈ contents pieces) : 0 < entry.index := by
  rcases mem_flatMap.mp member with ⟨piece, isPiece, isEntry⟩
  have sound := pieced.sound piece isPiece
  exact sound.positive.trans_le (sound.numbered.index_bounds isEntry).1

theorem Regained.reopening {next : Disk FileName} (reopening : Reopening appended must disk after)
    (regained : Regained appended must after next) : Reopening appended must disk next := by
  refine ⟨?_, ?_, regained.laid⟩
  · rw [regained.slots]
    exact reopening.slots
  · rw [regained.state]
    exact reopening.state

theorem ensureSegment_runs (honest : ¬ faults.any) {first : ℕ} (positive : 0 < first) {wal : Wal}
    (segments : wal.segments = pieces.map Piece.seg) (pieced : Pieced (segmentFiles after) pieces)
    (reopening : Reopening appended must disk after)
    (kept : ∀ entry, must entry → entry ∈ contents pieces) :
    Routine.Runs (Disk.Answers faults) (Reopening appended must disk) (Wal.ensureSegment first)
      (fun result wal' next => result = .ok () ∧ ∃ pieces',
        wal' = { wal with segments := pieces'.map Piece.seg } ∧
        (pieces' = pieces ∨ pieces = [] ∧ pieces' = [.fresh first]) ∧ pieces' ≠ [] ∧
        Pieced (segmentFiles next) pieces' ∧ slotFiles next = slotFiles after ∧
        next.get .state = after.get .state) wal after := by
  unfold Wal.ensureSegment
  refine .bind (.get reopening ?_)
  dsimp only
  split_ifs with none
  · rw [segments, map_eq_nil_iff] at none
    subst none
    have absent : segmentFiles after first = none := by
      have noFile := (pieced.exact first).not.mpr (by simp)
      simpa using noFile
    refine (steadfast_of_honest honest).openSegment_runs absent reopening ?_ nofun
    intro next file changes stores
    have pieced' : Pieced (segmentFiles next) [.fresh first] := by
      have lined := pieced.lined.start (by simp) (Or.inl rfl) positive changes stores
      exact lined.pieced (by simp [Piece.fresh, Piece.all])
    refine ⟨⟨?_, ?_, _, pieced'.laid, ?_, ?_⟩, rfl, [.fresh first], ?_, Or.inr ⟨rfl, rfl⟩, by simp,
      pieced', changes.slots, changes.state⟩
    · rw [changes.slots]
      exact reopening.slots
    · rw [changes.state]
      exact reopening.state
    · simp [Piece.fresh, Piece.part, Piece.all]
    · intro entry isMust
      exact absurd (kept entry isMust) (by simp [contents])
    · simp [segments, Piece.fresh]
  · refine .pure reopening ⟨rfl, pieces, ?_, Or.inl rfl, ?_, pieced, rfl, rfl⟩
    · rw [← segments]
    · rintro rfl
      exact none segments

theorem open_safe (honest : ¬ faults.any) (laid : Laid (segmentFiles disk) parts)
    (readable : ∀ part ∈ parts, Readable (segmentFiles disk) part)
    (isAppended : ∀ part ∈ parts, ∀ entry ∈ part.all, appended entry)
    (isKept : ∀ entry, must entry → entry ∈ secure none parts) (opts : WalOptions) :
    Prog.Safe (Disk.Answers faults) (Reopening appended must disk) (Wal.open opts).run
      (fun result after => ∃ recovered pieces taken, result = .ok recovered ∧ taken <+: parts ∧
        pieces = takenOver taken
          (((newestOf (readings disk)).snapshot.map Snapshot.lastIndex).getD 0 + 1) ∧
        Opened opts appended must disk after recovered pieces) disk := by
  have start : Reopening appended must disk disk :=
    ⟨fun _ => .refl _, .refl _, parts, laid, isAppended, isKept⟩
  unfold Wal.open
  refine openFile_safe honest start ?_
  intro stateOpened isOpened
  rcases start.openFile (by simp) isOpened with ⟨reopening, segments, _, file, found, grown⟩
  have stateIs : file.view = stateImage disk := by
    rcases grown with same | ⟨missing, isNew⟩
    · rw [stateImage, ← same]
      rfl
    · cases isNew
      rw [stateImage, missing]
      rfl
  refine .except_bind (.except_lift ((readHardState_safe honest found reopening).follow ?_))
  rintro _ later _ ⟨same, rfl⟩
  rw [same, stateIs]
  refine readSlot_safe honest reopening _ 0 ?_
  intro firstOpened reopening segments' state'
  refine readSlot_safe honest reopening _ 1 ?_
  intro bothOpened reopening segments'' state''
  have sameSegments : segmentFiles bothOpened = segmentFiles disk :=
    (segments''.trans segments').trans segments
  have stateFound : bothOpened.get .state = some file := (state''.trans state').trans found
  refine .except_bind (.bind (.ask reopening ?_))
  intro reply ready answers
  rcases Disk.answers_list answers with ⟨rfl | ⟨failing, _⟩, rfl⟩
  swap
  · exact absurd failing honest
  refine ⟨reopening, .pure reopening ?_⟩
  rw [← sameSegments] at laid readable
  have replayed : Replayed appended must ready ready
      { segments := [], entries := [], tail := .clean } [] parts := by
    refine ⟨rfl, rfl, ⟨laid, by simp, by simp, trivial, rfl, readable⟩, isAppended, ?_, rfl, rfl⟩
    exact fun entry isMust => Or.inr ⟨rfl, isKept entry isMust⟩
  have reads := replayed.readSegments_safe honest
  rw [← laid.segmentNames_eq] at reads
  refine .except_bind (reads.mono (fun _ regained => regained.reopening reopening) ?_)
  rintro _ next regained ⟨replay, taken, rfl, isPrefix, _, replayed⟩
  rw [nil_append] at replayed
  have reopening := regained.reopening reopening
  have lost (entry : Entry) (isMust : must entry) :=
    (replayed.kept entry isMust).resolve_right (by simp [secure])
  refine .except_bind (.except_lift (Prog.Safe.mono (ensureSegment_runs honest (Nat.succ_pos _)
    (by exact replayed.segments) replayed.replaying.pieced reopening lost) (fun _ => id) ?_))
  rintro ⟨result, wal⟩ final reopening ⟨rfl, pieces', rfl, origin, nonempty, pieced, slots, state⟩
  have isTaken : pieces' = takenOver taken
      (((newestOf (readings disk)).snapshot.map Snapshot.lastIndex).getD 0 + 1) := by
    unfold takenOver
    rcases origin with rfl | ⟨nothing, rfl⟩
    · rw [if_neg (by simpa using nonempty)]
    · rw [if_pos (by simpa using nothing)]
      rfl
  have sameContents : contents pieces' =
      contents (taken.map fun part => .recovered part.first part.firm) := by
    rw [isTaken, contents_takenOver]
    simp [contents, flatMap_map, Piece.recovered_all]
  refine .except_pure reopening ⟨_, pieces', taken, rfl, isPrefix, isTaken, rfl, rfl,
    rfl, rfl, rfl, rfl, ?_, ?_, ?_, pieced, ?_, nonempty, ?_, ?_⟩
  · rw [sameContents, ← replayed.entries]
    by_cases fromStart : ((newestOf (readings disk)).snapshot.map Snapshot.lastIndex).getD 0 > 0
    · exact if_pos fromStart
    · refine (if_neg fromStart).trans (filter_eq_self.mpr ?_).symm
      intro entry member
      rw [replayed.entries] at member
      exact decide_eq_true (lt_of_le_of_lt (Nat.le_of_not_gt fromStart)
        (replayed.replaying.pieced.index_pos member))
  · exact reopening.slots
  · exact ⟨file, by rw [state, regained.state, stateFound], grown⟩
  · rcases origin with rfl | ⟨_, rfl⟩
    · exact replayed.replaying.whole
    · simp [Piece.fresh]
  · rcases origin with rfl | ⟨_, rfl⟩
    · intro piece isPiece
      exact replayed.appended _ (mem_append_left _ (mem_map_of_mem isPiece))
    · simp [Piece.fresh, Piece.all]
  · rw [sameContents]
    exact lost

theorem open_spec (laid : Laid (segmentFiles disk) parts)
    (readable : ∀ part ∈ parts, Readable (segmentFiles disk) part) (opts : WalOptions) :
    Prog.Safe (Disk.Answers .none) (Reopening (fun _ => True) (fun _ => False) disk)
      (Wal.open opts).run
      (fun result after => ∃ recovered pieces, result = .ok recovered ∧
        Opened opts (fun _ => True) (fun _ => False) disk after recovered pieces) disk := by
  refine (open_safe (fun failing => failing) laid readable (fun _ _ _ _ => trivial)
    (fun _ (impossible : False) => impossible.elim) opts).follow ?_
  rintro _ after _ ⟨recovered, pieces, _, rfl, _, _, opened⟩
  exact ⟨recovered, pieces, rfl, opened⟩

theorem Pieced.readable (pieced : Pieced files pieces) (whole : ∀ piece ∈ pieces, piece.rest = []) :
    ∀ part ∈ pieces.map Piece.part, Readable files part := by
  intro part isPart
  rcases mem_map.mp isPart with ⟨piece, isPiece, rfl⟩
  have sound := pieced.sound piece isPiece
  have nothing := whole piece isPiece
  rcases sound.stored with ⟨file, found, stores⟩
  have all : piece.all = piece.done := by simp [Piece.all, nothing]
  rw [nothing] at stores
  rw [Piece.part, all]
  exact stores.readable found (all ▸ sound.numbered) (all ▸ sound.storable)

theorem Opened.readable {opts : WalOptions} {recovered : Recovered}
    (opened : Opened opts appended must disk after recovered pieces) :
    ∀ part ∈ pieces.map Piece.part, Readable (segmentFiles after) part :=
  opened.pieced.readable opened.whole

end Open

end ChronoScope.Chronolog
