import ChronoScope.Chronolog.Syncing

/-!
# Restarting after a power loss

From any moment of any operation, a power loss leads to a disk that recovery can
read, and recovery leads to a log in use again. What it returns is a run of
entries without a gap. Where that run starts depends on the lowest segments: if
they have lost all their records, it starts further up.
-/

namespace ChronoScope.Chronolog

open List

open Sim

/-- A disk after a power loss, and the snapshot recovery takes from it. -/
structure Crashed (promise : Promise) (disk : Disk FileName) (parts : List Part) (target : ℕ)
    (base : Option Saved) : Prop where
  recoverable : RecoverableBy promise disk parts target base
  readable : ∀ part ∈ parts, Readable (segmentFiles disk) part
  newest : newestOf (readings disk) = { snapshot := base.map Prod.snd,
                                        seq := (base.map Prod.fst).getD 0, slot := target }
  rebooted : Rebooted disk

/-- The snapshot is the one that was newest, or one saved since. -/
def Succeeds (promise : Promise) (base recovered : Option Saved) : Prop :=
  recovered = base ∨ ∃ found, recovered = some found ∧ promise.Allows base found

theorem RecoverableBy.crash {promise : Promise} {disk after : Disk FileName} {parts : List Part}
    {target sector : ℕ} {base : Option Saved}
    (recoverable : RecoverableBy promise disk parts target base) (crash : Crash sector disk after) :
    ∃ (firm : Part → List Entry) (target' : ℕ) (recovered : Option Saved),
      Crashed promise after (parts.map fun part => part.raise (firm part)) target' recovered ∧
      Succeeds promise base recovered ∧
      ∀ part ∈ parts, part.firm <+: firm part ∧ firm part <+: part.all := by
  rcases recoverable.laid.crash crash with ⟨firm, raises, laid, readable⟩
  rcases recoverable.slotted.crash crash with ⟨recovered, target', recovers⟩
  have succeeds : Succeeds promise base recovered := recovers.origin
  have slotted := recovers.slotted (fun slot file found => crash.rebooted _ file found)
    (promise.Allows recovered)
  refine ⟨firm, target', recovered, ⟨⟨laid, slotted, ?_, ?_, ?_⟩, ?_, recovers.newest,
    crash.rebooted⟩, succeeds, raises⟩
  · intro raised member
    rcases mem_map.mp member with ⟨part, isPart, rfl⟩
    exact recoverable.appended part isPart
  · intro entry isKept
    refine (recoverable.keeps entry isKept).imp (secure_raise_map raises) fun spared => ?_
    rcases succeeds with rfl | ⟨found, rfl, allowed⟩
    · exact spared
    · exact promise.spares base found entry allowed.2 spared
  · rcases succeeds with rfl | ⟨found, rfl, allowed⟩
    · exact recoverable.snaps
    · exact allowed.1
  · intro raised member
    rcases mem_map.mp member with ⟨part, isPart, rfl⟩
    exact readable part isPart

/-- The log in use again. -/
structure Reopened (promise : Promise) (opts : WalOptions) (after : Disk FileName)
    (recovered : Recovered) (pieces : List Piece) (base : Option Saved) : Prop where
  running : Running promise recovered.wal after pieces base
  keeps : promise.Keeps (pieces.map Piece.part) base
  opts : recovered.wal.opts = opts
  snapshot : recovered.snapshot = base.map Prod.snd
  entries : recovered.entries = (contents pieces).filter fun entry =>
    decide (entry.index > coveredTo base)

variable {pieces : List Piece}

namespace Crashed

variable {faults : Faults} {promise : Promise} {disk after : Disk FileName} {parts : List Part}
  {target : ℕ} {base : Option Saved}

theorem reopened (crashed : Crashed promise disk parts target base) {opts : WalOptions}
    {recovered : Recovered}
    (opened : Opened opts promise.appended (· ∈ secure none parts) disk after recovered pieces) :
    Reopened promise opts after recovered pieces base := by
  rcases opened.state with ⟨file, found, grown⟩
  have state : ∃ image, after.get .state = some (.rebooted image) := by
    rcases grown with same | ⟨_, isNew⟩
    · exact ⟨file.durable, by rw [found, ← crashed.rebooted _ file same.symm]⟩
    · cases isNew
      exact ⟨[], found⟩
  have target' : recovered.wal.snapshotSlot = target := by rw [opened.slot, crashed.newest]
  have slotted := crashed.recoverable.slotted.grown opened.slots
  rw [← target'] at slotted
  have running : Running promise recovered.wal after pieces base := by
    refine ⟨⟨opened.pieced, slotted, state, opened.appended, crashed.recoverable.snaps⟩,
      opened.nonempty, opened.segments, ?_⟩
    rintro newest rfl
    rw [opened.seq, crashed.newest]
    exact le_rfl
  refine ⟨running, ?_, opened.opts, ?_, ?_⟩
  · intro entry isKept
    refine (crashed.recoverable.keeps entry isKept).imp_left fun isSecure => ?_
    rw [running.sound.pieced.secure_eq opened.whole]
    exact opened.kept entry isSecure
  · rw [opened.snapshot, crashed.newest]
  · rw [opened.entries, crashed.newest, Option.map_map]
    rfl

theorem open_safe (honest : ¬ faults.any) (crashed : Crashed promise disk parts target base)
    (opts : WalOptions) :
    Prog.Safe (Disk.Answers faults) (Recoverable promise base) (Wal.open opts).run
      (fun result after => ∃ recovered pieces taken, result = .ok recovered ∧ taken <+: parts ∧
        pieces = takenOver taken (coveredTo base + 1) ∧
        Reopened promise opts after recovered pieces base) disk := by
  refine (Chronolog.open_safe honest crashed.recoverable.laid crashed.readable
    crashed.recoverable.appended (fun _ => id) opts).mono ?_ ?_
  · intro visited reopening
    rcases reopening.laid with ⟨parts', laid, appended, isSecure⟩
    refine ⟨parts', target, laid, crashed.recoverable.slotted.grown reopening.slots, appended, ?_,
      crashed.recoverable.snaps⟩
    exact fun entry isKept => (crashed.recoverable.keeps entry isKept).imp_left (isSecure entry)
  · rintro _ after _ ⟨recovered, pieces, taken, rfl, isPrefix, takes, opened⟩
    refine ⟨recovered, pieces, taken, rfl, isPrefix, ?_, crashed.reopened opened⟩
    rw [takes, crashed.newest, Option.map_map]
    rfl

end Crashed

theorem Chain.numbered {expected : Option ℕ} (chain : Chain expected (pieces.map Piece.part))
    (numbered : ∀ piece ∈ pieces, Numbered piece.seg.firstIndex piece.all) :
    ∃ first, Connects expected first ∧ Numbered first (contents pieces) := by
  induction pieces generalizing expected with
  | nil =>
    cases expected with
    | none => exact ⟨0, Or.inl rfl, trivial⟩
    | some first => exact ⟨first, Or.inr rfl, trivial⟩
  | cons piece rest ih =>
    rcases chain with ⟨connects, later⟩
    have here := numbered piece (mem_cons_self ..)
    rcases ih later (fun other member => numbered other (mem_cons_of_mem _ member)) with
      ⟨first, follows, numberedLater⟩
    rw [contents_cons]
    by_cases nothing : piece.part.all = []
    · rw [expectNext, if_pos nothing] at follows
      rw [show piece.all = [] from nothing]
      exact ⟨first, follows, numberedLater⟩
    · rw [expectNext, if_neg nothing] at follows
      rcases follows with impossible | isNext
      · cases impossible
      · refine ⟨piece.seg.firstIndex, connects, numbered_append.mpr ⟨here, ?_⟩⟩
        cases isNext
        exact numberedLater

variable {first : ℕ}

theorem Numbered.eq_of_subset {entries shorter : List Entry} (numbered : Numbered first entries)
    (isPrefix : shorter <+: entries) (all : ∀ entry ∈ entries, entry ∈ shorter) :
    shorter = entries := by
  rcases isPrefix with ⟨rest, rfl⟩
  cases rest with
  | nil => exact (append_nil _).symm
  | cons entry rest =>
    exfalso
    rw [numbered_append] at numbered
    have := (numbered.1.index_bounds (all entry (by simp))).2
    have := numbered.2.1
    omega

theorem Pieced.open_safe {faults : Faults} (honest : ¬ faults.any) {disk : Disk FileName}
    (pieced : Pieced (segmentFiles disk) pieces) (whole : ∀ piece ∈ pieces, piece.rest = [])
    (opts : WalOptions) :
    Prog.Safe (Disk.Answers faults) (fun _ => True) (Wal.open opts).run
      (fun result after => ∃ recovered found, result = .ok recovered ∧
        contents found = contents pieces ∧
        Opened opts (· ∈ contents pieces) (· ∈ contents pieces) disk after recovered found)
          disk := by
  have isAppended : ∀ part ∈ pieces.map Piece.part, ∀ entry ∈ part.all,
      entry ∈ contents pieces := by
    intro part isPart entry member
    rcases mem_map.mp isPart with ⟨piece, isPiece, rfl⟩
    exact mem_flatMap.mpr ⟨piece, isPiece, member⟩
  have isSecure : ∀ entry, entry ∈ contents pieces →
      entry ∈ secure none (pieces.map Piece.part) := by
    intro entry member
    rwa [pieced.secure_eq whole]
  refine (Chronolog.open_safe honest pieced.laid
    (pieced.readable whole) isAppended isSecure opts).mono
    (fun _ _ => trivial) ?_
  rintro _ after _ ⟨recovered, found, taken, rfl, isPrefix, takes, opened⟩
  refine ⟨recovered, found, rfl, ?_, opened⟩
  rcases pieced.chain.numbered fun piece isPiece => (pieced.sound piece isPiece).numbered with
    ⟨first, _, numbered⟩
  refine numbered.eq_of_subset ?_ opened.kept
  have all : contents pieces = (pieces.map Piece.part).flatMap Part.firm := by
    rw [flatMap_map]
    refine flatMap_congr fun piece isPiece => ?_
    simp [Piece.all, Piece.part, whole piece isPiece]
  rcases isPrefix with ⟨rest, split⟩
  rw [takes, contents_takenOver, all, ← split, flatMap_append]
  exact prefix_append ..

theorem Numbered.filter_gt {through : ℕ} {entries : List Entry} (numbered : Numbered first entries)
    (starts : first ≤ through + 1) :
    Numbered (through + 1) (entries.filter fun entry => decide (entry.index > through)) := by
  induction entries generalizing first with
  | nil => trivial
  | cons entry rest ih =>
    rcases numbered with ⟨rfl, numbered⟩
    by_cases behind : entry.index > through
    · rw [filter_cons_of_pos (by simpa using behind)]
      have here : entry.index = through + 1 := by omega
      rw [here] at numbered
      refine ⟨here, ?_⟩
      have all : rest.filter (fun entry => decide (entry.index > through)) = rest := by
        rw [filter_eq_self]
        intro other member
        have := (numbered.index_bounds member).1
        exact decide_eq_true (by omega)
      rw [all]
      exact numbered
    · rw [filter_cons_of_neg (by simpa using behind)]
      exact ih numbered (by omega)

/-- Of the segments below which nothing is found, the first that has something to find starts
right behind the snapshot, or before. -/
def Begins (through : ℕ) (parts : List Part) : Prop :=
  ∀ lower part rest, parts = lower ++ part :: rest → (∀ other ∈ lower, other.firm = []) →
    part.firm ≠ [] → part.first ≤ through + 1

theorem exists_first_firm {parts : List Part} (some : parts.flatMap Part.firm ≠ []) :
    ∃ lower part rest, parts = lower ++ part :: rest ∧ (∀ other ∈ lower, other.firm = []) ∧
      part.firm ≠ [] := by
  induction parts with
  | nil => exact absurd rfl some
  | cons part parts ih =>
    by_cases nothing : part.firm = []
    · rw [flatMap_cons, nothing, nil_append] at some
      rcases ih some with ⟨lower, next, rest, rfl, empty, isNext⟩
      refine ⟨part :: lower, next, rest, rfl, ?_, isNext⟩
      intro other member
      rcases mem_cons.mp member with rfl | isLower
      · exact nothing
      · exact empty other isLower
    · exact ⟨[], part, parts, rfl, by simp, nothing⟩

theorem Reopened.numbered {promise : Promise} {opts : WalOptions} {disk after : Disk FileName}
    {recovered : Recovered} {base : Option Saved} {parts taken : List Part} {target : ℕ}
    (reopened : Reopened promise opts after recovered pieces base)
    (crashed : Crashed promise disk parts target base) (isPrefix : taken <+: parts)
    (takes : pieces = takenOver taken first) (begins : Begins (coveredTo base) parts) :
    Numbered ((recovered.snapshot.map Snapshot.lastIndex).getD 0 + 1) recovered.entries := by
  have takes : contents pieces = taken.flatMap Part.firm := by rw [takes, contents_takenOver]
  rw [reopened.entries, reopened.snapshot, Option.map_map]
  rcases reopened.running.sound.pieced.chain.numbered fun piece isPiece =>
    (reopened.running.sound.pieced.sound piece isPiece).numbered with ⟨first, _, numbered⟩
  by_cases nothing : contents pieces = []
  · rw [nothing]
    trivial
  have some : taken.flatMap Part.firm ≠ [] := takes ▸ nothing
  rcases exists_first_firm some with ⟨lower, part, rest, rfl, empty, isFirm⟩
  have starts : first = part.first := by
    have lowest : lower.flatMap Part.firm = [] := by simpa using empty
    rw [takes, flatMap_append, lowest, nil_append, flatMap_cons] at numbered
    have isPart : part ∈ parts := isPrefix.subset (by simp)
    rcases crashed.readable part isPart with ⟨_, _, _, _, scanned, _⟩
    have own := (crashed.recoverable.laid.numbered part isPart).isPrefix scanned.isPrefix
    cases isList : part.firm with
    | nil => exact absurd isList isFirm
    | cons entry entries =>
      rw [isList] at numbered own
      exact numbered.1.symm.trans own.1
  rcases isPrefix with ⟨more, rfl⟩
  have le := begins lower part (rest ++ more) (by simp) empty isFirm
  exact numbered.filter_gt (starts ▸ le)

end ChronoScope.Chronolog
