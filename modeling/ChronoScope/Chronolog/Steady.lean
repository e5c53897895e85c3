import Mathlib.Data.List.Chain
import ChronoScope.Chronolog.Slots

/-!
# A log in use

Between storage operations, most of the time, every segment file stores just the
records the log thinks it does, some of them durable and the others pending
(`Sound`). What recovery needs at any moment is less (`Recoverable`): some
layout of the segments, the slots, and that everything to be kept is secure or
covered by the snapshot.
-/

namespace ChronoScope.Chronolog

open List

open Function (update update_eq_self update_idem update_of_ne update_self)

open Sim

variable {entries : List Entry}

theorem numbered_append {first : ℕ} {more : List Entry} :
    Numbered first (entries ++ more) ↔
      Numbered first entries ∧ Numbered (first + entries.length) more := by
  induction entries generalizing first with
  | nil => simp [Numbered]
  | cons entry rest ih =>
    simp only [cons_append, Numbered, ih, length_cons, and_assoc]
    rw [show first + 1 + rest.length = first + (rest.length + 1) by omega]

theorem Numbered.isPrefix {first : ℕ} {shorter : List Entry} (numbered : Numbered first entries)
    (isPrefix : shorter <+: entries) : Numbered first shorter := by
  rcases isPrefix with ⟨rest, rfl⟩
  exact (numbered_append.mp numbered).1

theorem Numbered.index_eq {first : ℕ} (numbered : Numbered first entries) {position : ℕ}
    {entry : Entry} (found : entries[position]? = some entry) : entry.index = first + position := by
  induction entries generalizing first position with
  | nil => simp at found
  | cons head rest ih =>
    cases position with
    | zero =>
      cases found
      exact numbered.1
    | succ position =>
      have := ih numbered.2 (by simpa using found)
      omega

theorem Numbered.index_bounds {first : ℕ} (numbered : Numbered first entries) {entry : Entry}
    (member : entry ∈ entries) : first ≤ entry.index ∧ entry.index < first + entries.length := by
  rcases getElem?_of_mem member with ⟨position, found⟩
  have := numbered.index_eq found
  have := (List.getElem?_eq_some_iff.mp found).1
  omega

theorem length_record (entry : Entry) : (record entry).length = header + entry.toBytes.length :=
  length_frame _

namespace Wal

theorem length_runningOffsets (start : ℕ) (entries : List Entry) :
    (runningOffsets start entries).length = entries.length := by
  induction entries generalizing start with
  | nil => rfl
  | cons entry rest ih => simp [runningOffsets, ih]

theorem runningOffsets_append (start : ℕ) (entries more : List Entry) :
    runningOffsets start (entries ++ more) =
      runningOffsets start entries ++ runningOffsets (start + (records entries).length) more := by
  induction entries generalizing start with
  | nil => simp [runningOffsets]
  | cons entry rest ih =>
    simp [runningOffsets, ih, length_record, Nat.add_assoc]

theorem getElem?_runningOffsets {position : ℕ} (inside : position < entries.length) :
    (runningOffsets 0 entries)[position]? = some (records (entries.take position)).length := by
  have split := take_append_drop position entries
  have long : (runningOffsets 0 (entries.take position)).length = position := by
    rw [length_runningOffsets, length_take]
    omega
  have rest : entries.drop position = entries[position] :: entries.drop (position + 1) :=
    drop_eq_getElem_cons inside
  rw [← split, runningOffsets_append, getElem?_append_right (by omega), long, Nat.sub_self,
    split, rest]
  simp [runningOffsets]

theorem take_runningOffsets (entries : List Entry) (count : ℕ) :
    (runningOffsets 0 entries).take count = runningOffsets 0 (entries.take count) := by
  by_cases inside : count ≤ entries.length
  · have split := take_append_drop count entries
    have long : (runningOffsets 0 (entries.take count)).length = count := by
      rw [length_runningOffsets, length_take]
      omega
    rw [← split, runningOffsets_append, take_left' long, split]
  · rw [take_of_length_le (by rw [length_runningOffsets]; omega),
      take_of_length_le (by omega)]

end Wal

/-- A segment of the log with its records, first those that are durable. -/
structure Piece where
  seg : Segment
  done : List Entry
  rest : List Entry

namespace Piece

def all (piece : Piece) : List Entry := piece.done ++ piece.rest

def part (piece : Piece) : Part :=
  { first := piece.seg.firstIndex, firm := piece.done, all := piece.all }

def fresh (first : ℕ) : Piece := { seg := .fresh first, done := [], rest := [] }

/-- The file stores the records of a segment, whether or not recovery can read them. -/
structure Intact (files : ℕ → Option FileState) (piece : Piece) : Prop where
  stored : ∃ file, files piece.seg.firstIndex = some file ∧ Stores file piece.done piece.rest
  positive : 0 < piece.seg.firstIndex
  lastIndex : piece.seg.lastIndex + 1 = piece.seg.firstIndex + piece.all.length
  size : piece.seg.size = (records piece.all).length
  offsets : piece.seg.offsets = Wal.runningOffsets 0 piece.all
  clean : piece.seg.dirty = false → piece.rest = []
  numbered : Numbered piece.seg.firstIndex piece.all

variable {files : ℕ → Option FileState} {piece : Piece} {first : ℕ}

theorem Intact.frame (intact : piece.Intact files) (other : piece.seg.firstIndex ≠ first)
    (file : Option FileState) : piece.Intact (update files first file) := by
  rcases intact with ⟨stored, positive, lastIndex, size, offsets, clean, numbered⟩
  refine ⟨?_, positive, lastIndex, size, offsets, clean, numbered⟩
  rwa [update_of_ne other]

theorem intact_fresh {file : FileState} (positive : 0 < first) (found : files first = some file)
    (stores : Stores file [] []) : (fresh first).Intact files := by
  refine ⟨⟨file, found, stores⟩, positive, ?_, rfl, rfl, fun _ => rfl, trivial⟩
  simp only [fresh, all, Segment.fresh, append_nil, length_nil]
  omega

/-- The file stores what the segment says. -/
structure Sound (files : ℕ → Option FileState) (piece : Piece) : Prop
    extends intact : Intact files piece where
  storable : ∀ entry ∈ piece.all, entry.Storable

theorem Intact.sound (intact : piece.Intact files)
    (storable : ∀ entry ∈ piece.all, entry.Storable) :
    piece.Sound files :=
  ⟨intact, storable⟩

theorem Sound.yields (sound : piece.Sound files) :
    ∃ file, files piece.part.first = some file ∧
      Yields file piece.part.first piece.part.firm piece.part.all := by
  rcases sound.stored with ⟨file, found, stores⟩
  refine ⟨file, found, stores.yields (fun entry member => sound.storable entry ?_) _⟩
  exact mem_append_left _ member

theorem Sound.frame (sound : piece.Sound files) (other : piece.seg.firstIndex ≠ first)
    (file : Option FileState) : piece.Sound (update files first file) :=
  (sound.intact.frame other file).sound sound.storable

end Piece

/-- The segment files store these pieces, which connect. -/
structure Lined (files : ℕ → Option FileState) (pieces : List Piece) : Prop where
  exact : ∀ first, (files first).isSome = true ↔ first ∈ (pieces.map Piece.part).map Part.first
  intact : ∀ piece ∈ pieces, piece.Intact files
  rising : (pieces.map Piece.part).Pairwise Part.Below
  chain : Chain none (pieces.map Piece.part)

theorem Piece.map_split (before : List Piece) (piece : Piece) (after : List Piece) :
    (before ++ piece :: after).map Piece.part =
      before.map Piece.part ++ piece.part :: after.map Piece.part := by
  simp

namespace Lined

variable {files : ℕ → Option FileState} {pieces before after : List Piece} {piece : Piece}

section

variable (lined : Lined files (before ++ piece :: after))

include lined

theorem first_ne {other : Piece} (member : other ∈ before ++ after) :
    other.seg.firstIndex ≠ piece.seg.firstIndex := by
  have rising := lined.rising
  rw [Piece.map_split, pairwise_append, pairwise_cons] at rising
  rcases mem_append.mp member with isBefore | isAfter
  · exact (rising.2.2 _ (mem_map_of_mem isBefore) piece.part (mem_cons_self ..)).1.ne
  · exact (rising.2.1.1 _ (mem_map_of_mem isAfter)).1.ne'

theorem frame (file : Option FileState) {other : Piece} (member : other ∈ before ++ after) :
    other.Intact (update files piece.seg.firstIndex file) := by
  refine (lined.intact other ?_).frame (lined.first_ne member) file
  simp only [mem_append, mem_cons] at member ⊢
  tauto

theorem set {new : Piece} {file : FileState}
    (sameFirst : new.seg.firstIndex = piece.seg.firstIndex)
    (intact : new.Intact (update files piece.seg.firstIndex (some file)))
    (sameAll : after = [] ∨ new.all = piece.all) :
    Lined (update files piece.seg.firstIndex (some file)) (before ++ new :: after) := by
  have samePart : new.part.first = piece.part.first := sameFirst
  refine ⟨?_, ?_, ?_, ?_⟩
  · intro first
    by_cases same : first = piece.seg.firstIndex
    · subst same
      simp [Piece.part, sameFirst]
    · rw [update_of_ne same, lined.exact]
      simp [Piece.part, sameFirst]
  · intro other member
    rcases mem_append.mp member with isBefore | isAfter
    · exact lined.frame _ (mem_append_left _ isBefore)
    · rcases mem_cons.mp isAfter with rfl | isAfter
      · exact intact
      · exact lined.frame _ (mem_append_right _ isAfter)
  · have rising := lined.rising
    rw [Piece.map_split, pairwise_append, pairwise_cons] at rising ⊢
    rcases rising with ⟨early, ⟨ahead, late⟩, across⟩
    refine ⟨early, ⟨?_, late⟩, ?_⟩
    · rcases sameAll with rfl | sameAll
      · simp
      · intro other member
        have below := ahead other member
        simpa [Part.Below, Piece.part, sameFirst, sameAll] using below
    · intro other isBefore last isLast
      rcases mem_cons.mp isLast with rfl | isAfter
      · have below := across other isBefore piece.part (mem_cons_self ..)
        simpa [Part.Below, samePart] using below
      · exact across other isBefore last (mem_cons_of_mem _ isAfter)
  · have chain := lined.chain
    rw [Piece.map_split] at chain ⊢
    refine chain.set sameFirst ?_
    rcases sameAll with rfl | sameAll
    · exact Or.inl rfl
    · exact Or.inr sameAll

end

theorem snoc (lined : Lined files pieces) {new : Piece} {file : FileState}
    (below : ∀ other ∈ pieces, other.part.Below new.part)
    (intact : new.Intact (update files new.seg.firstIndex (some file)))
    (connects : Connects (expectAfter none (pieces.map Piece.part)) new.seg.firstIndex) :
    Lined (update files new.seg.firstIndex (some file)) (pieces ++ [new]) := by
  have mapped : (pieces ++ [new]).map Piece.part = pieces.map Piece.part ++ [new.part] := by simp
  refine ⟨?_, ?_, ?_, ?_⟩
  · intro first
    by_cases same : first = new.seg.firstIndex
    · subst same
      simp [Piece.part]
    · rw [update_of_ne same, lined.exact, mapped]
      simp [Piece.part, same]
  · intro other member
    rcases mem_append.mp member with old | isNew
    · exact (lined.intact other old).frame (below other old).1.ne _
    · cases mem_singleton.mp isNew
      exact intact
  · rw [mapped, pairwise_append]
    refine ⟨lined.rising, by simp, ?_⟩
    intro part isPart last isLast
    cases mem_singleton.mp isLast
    rcases mem_map.mp isPart with ⟨other, isOther, rfl⟩
    exact below other isOther
  · rw [mapped, chain_append]
    exact ⟨lined.chain, connects, trivial⟩

theorem remove (lined : Lined files (before ++ piece :: after))
    (chain : Chain none ((before ++ after).map Piece.part)) :
    Lined (update files piece.seg.firstIndex none) (before ++ after) := by
  refine ⟨?_, fun other member => lined.frame none member, ?_, chain⟩
  · intro first
    by_cases same : first = piece.seg.firstIndex
    · subst same
      simp only [update_self, Option.isSome_none, Bool.false_eq_true, false_iff]
      intro member
      rcases mem_map.mp member with ⟨part, isPart, isFirst⟩
      rcases mem_map.mp isPart with ⟨other, isOther, rfl⟩
      exact lined.first_ne isOther isFirst
    · rw [update_of_ne same, lined.exact]
      simp [Piece.part, same]
  · refine lined.rising.sublist ?_
    exact (((sublist_cons_self ..).append_left before).map _)

end Lined

/-- The segment files store these pieces, which connect and can be read by recovery. -/
structure Pieced (files : ℕ → Option FileState) (pieces : List Piece) : Prop where
  exact : ∀ first, (files first).isSome = true ↔ first ∈ (pieces.map Piece.part).map Part.first
  sound : ∀ piece ∈ pieces, piece.Sound files
  rising : (pieces.map Piece.part).Pairwise Part.Below
  chain : Chain none (pieces.map Piece.part)

namespace Pieced

variable {files : ℕ → Option FileState} {pieces before after : List Piece} {piece : Piece}

theorem lined (pieced : Pieced files pieces) : Lined files pieces :=
  ⟨pieced.exact, fun piece member => (pieced.sound piece member).intact, pieced.rising,
    pieced.chain⟩

theorem laid (pieced : Pieced files pieces) : Laid files (pieces.map Piece.part) := by
  refine ⟨pieced.exact, ?_, pieced.rising, ?_, ?_, ?_⟩
  all_goals
    intro part member
    rcases mem_map.mp member with ⟨piece, isPiece, rfl⟩
  · exact (pieced.sound piece isPiece).yields
  · exact (pieced.sound piece isPiece).positive
  · exact (pieced.sound piece isPiece).numbered
  · exact (pieced.sound piece isPiece).storable

end Pieced

theorem Lined.pieced {files : ℕ → Option FileState} {pieces : List Piece}
    (lined : Lined files pieces)
    (storable : ∀ piece ∈ pieces, ∀ entry ∈ piece.all, entry.Storable) : Pieced files pieces :=
  ⟨lined.exact, fun piece member => (lined.intact piece member).sound (storable piece member),
    lined.rising, lined.chain⟩

/-- The snapshot supersedes the entry. -/
def Covered (base : Option Saved) (entry : Entry) : Prop :=
  ∃ newest, base = some newest ∧ entry.index ≤ newest.2.lastIndex

/-- The last index that the snapshot covers. -/
def coveredTo (base : Option Saved) : ℕ := (base.map fun saved => saved.2.lastIndex).getD 0

/-- It reaches at least as far as the newest snapshot. -/
def Reaches (base : Option Saved) (found : Saved) : Prop :=
  ∀ old, base = some old → old.2.lastIndex ≤ found.2.lastIndex

/-- What is expected of recovery. -/
structure Promise where
  /-- The entries it may find. -/
  appended : Entry → Prop
  /-- The entries it has to find. -/
  kept : Entry → Prop
  /-- The entries it need not find with this snapshot. -/
  spared : Option Saved → Entry → Prop
  /-- The snapshots it may find. -/
  snaps : Option Saved → Prop
  /-- With a snapshot that reaches further, it need not find more. -/
  spares : ∀ base found entry, Reaches base found → spared base entry → spared (some found) entry

namespace Promise

/-- A snapshot that may take the place of the newest. -/
def Allows (promise : Promise) (base : Option Saved) (found : Saved) : Prop :=
  promise.snaps (some found) ∧ Reaches base found

/-- Recovery finds what is to be kept. -/
def Keeps (promise : Promise) (parts : List Part) (base : Option Saved) : Prop :=
  ∀ entry, promise.kept entry → entry ∈ secure none parts ∨ promise.spared base entry

end Promise

/-- A disk from which recovery fulfils the promise. -/
structure RecoverableBy (promise : Promise) (disk : Disk FileName) (parts : List Part)
    (target : ℕ) (base : Option Saved) : Prop where
  laid : Laid (segmentFiles disk) parts
  slotted : Slotted (promise.Allows base) (slotFiles disk) target base
  appended : ∀ part ∈ parts, ∀ entry ∈ part.all, promise.appended entry
  keeps : promise.Keeps parts base
  snaps : promise.snaps base

def Recoverable (promise : Promise) (base : Option Saved) (disk : Disk FileName) : Prop :=
  ∃ parts target, RecoverableBy promise disk parts target base

/-- Nothing but one segment file changed. -/
structure Changes (disk after : Disk FileName) (first : ℕ) (file : Option FileState) : Prop where
  segments : segmentFiles after = update (segmentFiles disk) first file
  slots : slotFiles after = slotFiles disk
  state : after.get .state = disk.get .state

namespace Changes

variable {disk after : Disk FileName} {first : ℕ}

theorem insert (disk : Disk FileName) (first : ℕ) (file : FileState) :
    Changes disk (disk.insert (.segment first) file) first (some file) :=
  ⟨segmentFiles_insert_segment .., slotFiles_insert_segment .., by simp⟩

theorem remove (disk : Disk FileName) (first : ℕ) :
    Changes disk (BTreeMap.remove disk (.segment first)) first none :=
  ⟨segmentFiles_remove .., slotFiles_remove .., by simp⟩

theorem same {file : FileState} (found : segmentFiles disk first = some file) :
    Changes disk disk first (some file) :=
  ⟨by rw [← found, update_eq_self], rfl, rfl⟩

theorem again {old : Option FileState} (changes : Changes disk after first old) (file : FileState) :
    Changes disk (after.insert (.segment first) file) first (some file) := by
  rcases changes with ⟨segments, slots, state⟩
  refine ⟨?_, ?_, ?_⟩
  · rw [segmentFiles_insert_segment, segments, update_idem]
  · rw [slotFiles_insert_segment, slots]
  · rw [← state]
    simp

theorem get {file : FileState} (changes : Changes disk after first (some file)) :
    after.get (.segment first) = some file := by
  have found := congrFun changes.segments first
  rwa [update_self] at found

end Changes

def contents (pieces : List Piece) : List Entry := pieces.flatMap Piece.all

/-- Each segment starts where the one before it ends. -/
def Joined (pieces : List Piece) : Prop :=
  pieces.IsChain fun piece next => piece.seg.firstIndex + piece.all.length = next.seg.firstIndex

structure SegmentsOnly (disk after : Disk FileName) : Prop where
  slots : slotFiles after = slotFiles disk
  state : after.get .state = disk.get .state

namespace SegmentsOnly

variable {disk after next : Disk FileName}

theorem refl (disk : Disk FileName) : SegmentsOnly disk disk := ⟨rfl, rfl⟩

theorem trans (first : SegmentsOnly disk after) (second : SegmentsOnly after next) :
    SegmentsOnly disk next :=
  ⟨second.slots.trans first.slots, second.state.trans first.state⟩

end SegmentsOnly

theorem Changes.only {disk after : Disk FileName} {first : ℕ} {file : Option FileState}
    (changes : Changes disk after first file) : SegmentsOnly disk after :=
  ⟨changes.slots, changes.state⟩

namespace Lined

variable {disk after : Disk FileName} {pieces before behind : List Piece} {piece new : Piece}
  {file : FileState}

theorem change (lined : Lined (segmentFiles disk) (before ++ piece :: behind))
    (changes : Changes disk after piece.seg.firstIndex (some file))
    (sameFirst : new.seg.firstIndex = piece.seg.firstIndex)
    (intact : new.Intact (update (segmentFiles disk) piece.seg.firstIndex (some file)))
    (sameAll : behind = [] ∨ new.all = piece.all) :
    Lined (segmentFiles after) (before ++ new :: behind) := by
  rw [changes.segments]
  exact lined.set sameFirst intact sameAll

theorem start {first : ℕ} (lined : Lined (segmentFiles disk) pieces)
    (below : ∀ piece ∈ pieces, piece.part.Below (Piece.fresh first).part)
    (connects : Connects (expectAfter none (pieces.map Piece.part)) first) (positive : 0 < first)
    (changes : Changes disk after first (some file)) (stores : Stores file [] []) :
    Lined (segmentFiles after) (pieces ++ [.fresh first]) := by
  have intact : (Piece.fresh first).Intact (segmentFiles after) :=
    Piece.intact_fresh positive changes.get stores
  have segments : segmentFiles after =
      update (segmentFiles disk) (Piece.fresh first).seg.firstIndex (some file) :=
    changes.segments
  rw [segments] at intact ⊢
  exact lined.snoc below intact connects

theorem dropFront (lined : Lined (segmentFiles disk) (piece :: behind))
    (changes : Changes disk after piece.seg.firstIndex none) :
    Lined (segmentFiles after) behind := by
  rw [changes.segments]
  have front : Lined (segmentFiles disk) ([] ++ piece :: behind) := lined
  exact front.remove lined.chain.2.none

theorem dropBack (lined : Lined (segmentFiles disk) (before ++ [piece]))
    (changes : Changes disk after piece.seg.firstIndex none) :
    Lined (segmentFiles after) before := by
  rw [changes.segments]
  have chain := lined.chain
  rw [map_append, chain_append] at chain
  have removed := lined.remove (by simpa using chain.1)
  rwa [append_nil] at removed

end Lined

/-- A log in use whose files store what its segments say. -/
structure Stocked (wal : Wal) (disk : Disk FileName) (pieces : List Piece) : Prop where
  lined : Lined (segmentFiles disk) pieces
  nonempty : pieces ≠ []
  segments : wal.segments = pieces.map Piece.seg

/-- The files of a log in use. -/
structure SoundDisk (promise : Promise) (disk : Disk FileName) (pieces : List Piece)
    (target : ℕ) (base : Option Saved) : Prop where
  pieced : Pieced (segmentFiles disk) pieces
  slotted : Slotted (promise.Allows base) (slotFiles disk) target base
  state : ∃ image, disk.get .state = some (.rebooted image)
  appended : ∀ piece ∈ pieces, ∀ entry ∈ piece.all, promise.appended entry
  snaps : promise.snaps base

variable {base : Option Saved} {promise : Promise}

theorem SoundDisk.recoverable {disk : Disk FileName}
    {pieces : List Piece} {target : ℕ}
    (sound : SoundDisk promise disk pieces target base)
    (keeps : promise.Keeps (pieces.map Piece.part) base) : Recoverable promise base disk := by
  refine ⟨pieces.map Piece.part, target, sound.pieced.laid, sound.slotted, ?_, keeps,
    sound.snaps⟩
  intro part member
  rcases mem_map.mp member with ⟨piece, isPiece, rfl⟩
  exact sound.appended piece isPiece

theorem SoundDisk.of_lined {disk after : Disk FileName}
    {pieces pieces' : List Piece} {target : ℕ}
    (sound : SoundDisk promise disk pieces target base) (lined : Lined (segmentFiles after) pieces')
    (only : SegmentsOnly disk after)
    (known : ∀ entry ∈ contents pieces', entry ∈ contents pieces ∨
      entry.Storable ∧ promise.appended entry) : SoundDisk promise after pieces' target base := by
  have both : ∀ piece ∈ pieces', ∀ entry ∈ piece.all, entry.Storable ∧ promise.appended entry := by
    intro piece isPiece entry isEntry
    rcases known entry (mem_flatMap.mpr ⟨piece, isPiece, isEntry⟩) with old | new
    · rcases mem_flatMap.mp old with ⟨other, isOther, isEntry⟩
      exact ⟨(sound.pieced.sound other isOther).storable entry isEntry,
        sound.appended other isOther entry isEntry⟩
    · exact new
  refine ⟨lined.pieced fun piece isPiece entry isEntry => (both piece isPiece entry isEntry).1, ?_,
    ?_, fun piece isPiece entry isEntry => (both piece isPiece entry isEntry).2, sound.snaps⟩
  · rw [only.slots]
    exact sound.slotted
  · rw [only.state]
    exact sound.state

structure Running (promise : Promise) (wal : Wal) (disk : Disk FileName)
    (pieces : List Piece) (base : Option Saved) : Prop where
  sound : SoundDisk promise disk pieces wal.snapshotSlot base
  nonempty : pieces ≠ []
  segments : wal.segments = pieces.map Piece.seg
  seq : ∀ newest, base = some newest → newest.1 ≤ wal.snapshotSeq

theorem Running.stocked {wal : Wal} {disk : Disk FileName}
    {pieces : List Piece} (running : Running promise wal disk pieces base) :
    Stocked wal disk pieces :=
  ⟨running.sound.pieced.lined, running.nonempty, running.segments⟩

theorem Running.of_lined {wal : Wal} {disk after : Disk FileName}
    {pieces pieces' : List Piece}
    (running : Running promise wal disk pieces base) (lined : Lined (segmentFiles after) pieces')
    (nonempty : pieces' ≠ []) (only : SegmentsOnly disk after)
    (known : ∀ entry ∈ contents pieces', entry ∈ contents pieces ∨
      entry.Storable ∧ promise.appended entry) :
    Running promise { wal with segments := pieces'.map Piece.seg } after pieces' base :=
  ⟨running.sound.of_lined lined only known, nonempty, rfl, running.seq⟩

/-- What holds at any moment of an operation on the segments. -/
structure Guarded (promise : Promise) (base : Option Saved) (disk after : Disk FileName) :
    Prop where
  recoverable : Recoverable promise base after
  only : SegmentsOnly disk after

end ChronoScope.Chronolog
