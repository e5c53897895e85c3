import Mathlib.Data.Prod.Lex
import ChronoScope.Chronolog.Types
import ChronoScope.Sim.Disk

/-!
# The segmented write-ahead log

A segment file is a sequence of records, each framed by its length and a
checksum of its body. Recovery reads segments in order of their first index and
stops at the first record that is missing, damaged or out of sequence. The hard
state has two slots in one file, and a snapshot goes to the file the last one
did not use.

Every function is a program on the disk with the `Wal` as its state. An error
ends it and leaves the state as it is at that point.
-/

namespace ChronoScope.Chronolog

open Sim (IoError Request)
open Routine (request attempt)

/-- Bytes of framing per record: the length and the checksum. -/
def header : ℕ := 8

/-- A record longer than this is a corrupt length field, not a record. -/
def maxRecord : ℕ := 32 * 1024 * 1024

/-- Each hard-state slot is padded to this, so that the two never share a sector. -/
def stateSlot : ℕ := 4096

structure WalOptions where
  /-- Roll to a new segment once the active one has this size. -/
  segmentBytes : ℕ
  /-- Keep this many bytes of log when compacting. -/
  compactSlackBytes : ℕ
  deriving DecidableEq

def WalOptions.default : WalOptions := { segmentBytes := 2 ^ 20, compactSlackBytes := 2 ^ 18 }

inductive FileName where
  | snapshot (slot : ℕ)
  | state
  /-- A segment, named after the first index it holds. -/
  | segment (first : ℕ)
  deriving DecidableEq

/-- The alphabetical order of the names. -/
def FileName.rank : FileName → ℕ ×ₗ ℕ
  | snapshot slot => toLex (0, slot)
  | state => toLex (1, 0)
  | segment first => toLex (2, first)

instance : LinearOrder FileName := LinearOrder.lift' FileName.rank (by
  intro left right same
  cases left <;> cases right <;> simp_all [FileName.rank])

inductive TailReason where
  | clean
  | shortHeader
  | shortBody
  | badChecksum
  | undecodable
  | indexGap (expected found : ℕ)
  | badLength
  deriving DecidableEq

def TailReason.isClean (reason : TailReason) : Bool := decide (reason = .clean)

structure Segment where
  firstIndex : ℕ
  /-- Index of the last entry, or `firstIndex - 1` when empty. -/
  lastIndex : ℕ
  size : ℕ
  /-- Byte offset of entry `firstIndex + i`. -/
  offsets : List ℕ
  /-- Written to since the last `sync`. -/
  dirty : Bool
  deriving DecidableEq

def Segment.fresh (firstIndex : ℕ) : Segment :=
  { firstIndex, lastIndex := firstIndex - 1, size := 0, offsets := [], dirty := false }

def Segment.isEmpty (seg : Segment) : Bool := decide (seg.lastIndex < seg.firstIndex)

structure Wal where
  opts : WalOptions
  segments : List Segment
  stateSeq : ℕ
  /-- Which snapshot slot to write next. -/
  snapshotSlot : ℕ
  snapshotSeq : ℕ
  deriving DecidableEq

/-- What was on disk when the process came back. -/
structure Recovered where
  wal : Wal
  hardState : HardState
  snapshot : Option Snapshot
  /-- Entries after the snapshot point. -/
  entries : List Entry
  tail : TailReason
  deriving DecidableEq

inductive Failure where
  | io (error : IoError)
  | panic (message : String)
  deriving DecidableEq

def frame (body : Bytes) : Bytes :=
  Writer.u32 body.length ++ (Writer.u32 (crc32c body).toNat ++ body)

/-- The body of the record the bytes start with, if its length is plausible and its checksum
right. -/
def unframe (limit : ℕ) (buf : Bytes) : Except TailReason Bytes :=
  if buf.length < header then .error .shortHeader
  else
    let len := leValue (buf.take 4)
    let crc := leValue ((buf.drop 4).take 4)
    if len = 0 ∨ len > limit then .error .badLength
    else if buf.length < header + len then .error .shortBody
    else
      let body := (buf.drop header).take len
      if (crc32c body).toNat ≠ crc then .error .badChecksum else .ok body

/-- The loop of `scanSegment` over the bytes not yet read: the entries, why it stopped, and how
many bytes verified. Every turn but the last consumes a record, so as many turns as bytes do. -/
def scanLoop [Counting] : ℕ → Bytes → ℕ → List Entry × TailReason × ℕ
  | 0, _, _ => ([], .clean, 0)
  | turns + 1, buf, expected =>
    if buf.length = 0 then ([], .clean, 0)
    else
      match unframe maxRecord buf with
      | .error reason => ([], reason, 0)
      | .ok body =>
        match Entry.decode body with
        | .error _ => ([], .undecodable, 0)
        | .ok (entry, _) =>
          if entry.index ≠ expected then ([], .indexGap expected entry.index, 0)
          else
            let read := header + body.length
            let rest := scanLoop turns (buf.drop read) (Counting.next entry.index)
            (entry :: rest.1, rest.2.1, read + rest.2.2)

def scan [Counting] (buf : Bytes) (expected : ℕ) : List Entry × TailReason × ℕ :=
  scanLoop (buf.length + 1) buf expected

/-- The sequence number and the snapshot in the bytes of a slot. -/
def snapshotOf (buf : Bytes) : Option (ℕ × Snapshot) :=
  match unframe maxRecord buf with
  | .error _ => none
  | .ok body =>
    match Reader.bind Reader.u64 (fun seq => Reader.map (seq, ·) Snapshot.decode) body with
    | .error _ => none
    | .ok (found, _) => some found

abbrev Storage := Prog (Request FileName)

/-- Operations of the log: programs on its files with the log as state. -/
abbrev WalM := Routine (Request FileName) Wal Failure

namespace Wal

def firstIndex (wal : Wal) : ℕ := (wal.segments.head?.map Segment.firstIndex).getD 1

/-- Index of the last entry, or `firstIndex - 1` when empty. -/
def lastIndex (wal : Wal) : ℕ :=
  (wal.segments.getLast?.map Segment.lastIndex).getD (wal.firstIndex - 1)

def totalBytes (wal : Wal) : ℕ := (wal.segments.map Segment.size).sum

def mapLast (wal : Wal) (change : Segment → Segment) : Wal :=
  { wal with segments := wal.segments.modify (wal.segments.length - 1) change }

def openSegment (firstIndex : ℕ) : WalM Unit := do
  attempt .io (.openFile (.segment firstIndex))
  let _ ← request (.truncate (.segment firstIndex) 0)
  modify fun wal => { wal with segments := wal.segments ++ [.fresh firstIndex] }
  attempt .io .syncDir

def removeSegments : List Segment → WalM Unit
  | [] => pure ()
  | seg :: rest => do
      attempt .io (.remove (.segment seg.firstIndex))
      removeSegments rest

/-- Discard the entire log and restart it immediately after `index`. -/
def resetTo (index : ℕ) : WalM Unit := do
  let wal ← get
  set { wal with segments := [] }
  removeSegments wal.segments
  openSegment (index + 1)

/-- Remove whole segments from the end, for as many turns as there are segments. -/
def popSegments (start : ℕ) : ℕ → WalM Unit
  | 0 => pure ()
  | turns + 1 => do
      let wal ← get
      match wal.segments.getLast? with
      | none => pure ()
      | some seg =>
        if seg.firstIndex ≥ start ∧ wal.segments.length > 1 then do
          set { wal with segments := wal.segments.dropLast }
          attempt .io (.remove (.segment seg.firstIndex))
          popSegments start turns
        else pure ()

/-- Truncate the active segment before the entry at `start`. -/
def cutLast (start : ℕ) : WalM Unit := do
  let wal ← get
  match wal.segments.getLast? with
  | none => pure ()
  | some seg =>
    if start ≤ seg.lastIndex then do
      let keep := start - seg.firstIndex
      let cut := seg.offsets[keep]?.getD seg.size
      attempt .io (.truncate (.segment seg.firstIndex) cut)
      modify fun wal => wal.mapLast fun seg =>
        { seg with
          offsets := seg.offsets.take keep
          size := cut
          lastIndex := if keep = 0 then seg.firstIndex - 1 else seg.firstIndex + keep - 1 }
      attempt .io (.fsync (.segment seg.firstIndex))
      modify fun wal => wal.mapLast fun seg => { seg with dirty := false }
    else pure ()

/-- Drop every entry with index at or above `start`. -/
def truncateFrom (start : ℕ) : WalM Unit := do
  let wal ← get
  if start > wal.lastIndex then pure ()
  else if start ≤ wal.firstIndex then resetTo (start - 1)
  else do
    popSegments start wal.segments.length
    cutLast start

/-- How many segments a compaction drops: not the active one, and only while enough is left. -/
def keepFrom (through slack total : ℕ) : List Segment → ℕ → ℕ
  | [], _ => 0
  | [_], _ => 0
  | seg :: rest, freed =>
    if seg.lastIndex < through then
      if total - freed - seg.size < slack then 0
      else keepFrom through slack total rest (freed + seg.size) + 1
    else 0

/-- Delete whole segments that the snapshot at `through` has superseded. -/
def compactThrough (through : ℕ) : WalM Unit := do
  let wal ← get
  let count := keepFrom through wal.opts.compactSlackBytes wal.totalBytes wal.segments 0
  set { wal with segments := wal.segments.drop count }
  removeSegments (wal.segments.take count)
  if count > 0 then attempt .io .syncDir else pure ()

def gapText (got expected first last segments batchFirst batchLast : ℕ) : String :=
  s!"WAL appends must be contiguous: got {got}, expected {expected} " ++
    s!"(wal first={first} last={last} segments={segments} batch={batchFirst}..={batchLast})"

def writeRecord (entry : Entry) : WalM Unit := do
  let wal ← get
  match wal.segments.getLast? with
  | none => throw (.panic "always at least one segment")
  | some seg =>
    let record := frame entry.toBytes
    modify fun wal => wal.mapLast fun seg => { seg with dirty := true }
    attempt .io (.writeAt (.segment seg.firstIndex) seg.size record)
    modify fun wal => wal.mapLast fun seg =>
      { seg with
        offsets := seg.offsets ++ [seg.size]
        size := seg.size + record.length
        lastIndex := entry.index }

/-- Roll to a new segment if the active one is full. -/
def rollOver (index : ℕ) : WalM Unit := do
  let wal ← get
  if (wal.segments.getLast?.map Segment.size).getD 0 ≥ wal.opts.segmentBytes then openSegment index
  else pure ()

def appendInner (batch : List Entry) : List Entry → WalM Unit
  | [] => pure ()
  | entry :: rest => do
      let wal ← get
      if entry.index ≠ wal.lastIndex + 1 then
        throw (.io (.invalidData (gapText entry.index (wal.lastIndex + 1) wal.firstIndex
          wal.lastIndex wal.segments.length ((batch.head?.map Entry.index).getD 0)
          ((batch.getLast?.map Entry.index).getD 0))))
      else do
        rollOver entry.index
        writeRecord entry
        appendInner batch rest

/-- Append entries, all or nothing. Does not make them durable. -/
def append (entries : List Entry) : WalM Unit := do
  if entries = [] then pure ()
  else do
    let wal ← get
    tryCatch (appendInner entries entries) fun failure =>
      match failure with
      | .io error => do
          tryCatch (truncateFrom (wal.lastIndex + 1)) fun
            | .io _ => pure ()
            | .panic message => throw (.panic message)
          throw (.io error)
      | .panic message => throw (.panic message)

def syncSegments : List Segment → Storage (Except Failure Unit × List Segment)
  | [] => pure (.ok (), [])
  | seg :: rest => do
      let reply ← if seg.dirty then .ask (.fsync (.segment seg.firstIndex)) else pure (.ok ())
      match reply with
      | .error error => pure (.error (.io error), seg :: rest)
      | .ok () => do
          let (result, rest) ← syncSegments rest
          pure (result, { seg with dirty := false } :: rest)

/-- The durability barrier: every segment written since the last one. -/
def sync : WalM Unit := fun wal => do
  let (result, segments) ← syncSegments wal.segments
  pure (result, { wal with segments })

/-- Persist term, vote and commit to the inactive slot. -/
def saveHardState (hs : HardState) : WalM Unit := do
  modify fun wal => { wal with stateSeq := wal.stateSeq + 1 }
  let wal ← get
  let slot := (wal.stateSeq % 2) * stateSlot
  let body := Writer.u64 wal.stateSeq ++
    (Writer.u64 hs.term ++ (Writer.u64 hs.commit ++ Writer.opt Writer.u32 hs.vote))
  attempt .io (.writeAt .state slot (frame body))
  attempt .io (.fsync .state)

def snapshotBody (seq : ℕ) (snap : Snapshot) : Bytes := Writer.u64 seq ++ snap.encode

/-- Write a snapshot to the slot the last one did not use. -/
def saveSnapshot (snap : Snapshot) : WalM Unit := do
  modify fun wal => { wal with snapshotSeq := wal.snapshotSeq + 1 }
  let wal ← get
  let name := FileName.snapshot wal.snapshotSlot
  attempt .io (.openFile name)
  attempt .io (.truncate name 0)
  attempt .io (.writeAt name 0 (frame (snapshotBody wal.snapshotSeq snap)))
  attempt .io (.fsync name)
  attempt .io .syncDir
  modify fun wal => { wal with snapshotSlot := 1 - wal.snapshotSlot }

/-- Read every valid record of a segment. -/
def scanSegment [Counting] (name : FileName) (firstIndex : ℕ) (prevIndex : Option ℕ) :
    Storage (List Entry × TailReason × ℕ) := do
  let size ← .ask (.len name)
  match ← .ask (.readAt name 0 size) with
  | .error _ => pure ([], .shortHeader, 0)
  | .ok buf => pure (scan buf ((prevIndex.map Counting.next).getD firstIndex))

def decodeHardState : Decoder (ℕ × HardState) :=
  Reader.bind Reader.u64 fun seq => Reader.bind Reader.u64 fun term =>
    Reader.bind Reader.u64 fun commit =>
      Reader.map (fun vote => (seq, { term, vote, commit })) (Reader.opt Reader.u32)

/-- Look at one slot; the higher sequence number wins. -/
def readHardStateSlot (best : HardState × ℕ) (slot : ℕ) : Storage (HardState × ℕ) := do
  let start := slot * stateSlot
  match ← .ask (.readAt .state start header) with
  | .error _ => pure best
  | .ok head =>
    let len := leValue (head.take 4)
    let crc := leValue ((head.drop 4).take 4)
    if head.length < header ∨ len = 0 ∨ len > 256 then pure best
    else
      match ← .ask (.readAt .state (start + header) len) with
      | .error _ => pure best
      | .ok body =>
        if body.length ≠ len ∨ (crc32c body).toNat ≠ crc then pure best
        else
          match decodeHardState body with
          | .error _ => pure best
          | .ok ((seq, hs), _) => if seq ≥ best.2 then pure (hs, seq) else pure best

def readHardState : Storage (HardState × ℕ) := do
  let best ← readHardStateSlot (.default, 0) 0
  readHardStateSlot best 1

def readSnapshot (name : FileName) : Storage (Option (ℕ × Snapshot)) := do
  let size ← .ask (.len name)
  if size < header then pure none
  else
    match ← .ask (.readAt name 0 size) with
    | .error _ => pure none
    | .ok buf => pure (snapshotOf buf)

/-- The newest snapshot so far, its sequence number, and the slot to write next. -/
structure Newest where
  snapshot : Option Snapshot
  seq : ℕ
  slot : ℕ

/-- Prefer what a slot holds, unless its sequence number is lower. -/
def Newest.consider (newest : Newest) (slot : ℕ) (found : Option (ℕ × Snapshot)) : Newest :=
  match found with
  | none => newest
  | some (seq, snap) =>
    if seq ≥ newest.seq then { snapshot := some snap, seq, slot := 1 - slot } else newest

/-- What is known after some of the segments were read. -/
structure Replay where
  segments : List Segment
  entries : List Entry
  tail : TailReason

abbrev Opening := ExceptT Failure Storage

def ask {α : Type} (op : Request FileName (Except IoError α)) : Opening α :=
  ExceptT.mk (Prog.ask op >>= fun reply => pure (reply.mapError .io))

def readSlot (newest : Newest) (slot : ℕ) : Opening Newest := do
  ask (.openFile (.snapshot slot))
  let found ← (readSnapshot (.snapshot slot) : Storage _)
  pure (newest.consider slot found)

/-- The offsets of records that follow each other. -/
def runningOffsets : ℕ → List Entry → List ℕ
  | _, [] => []
  | running, entry :: rest =>
    running :: runningOffsets (running + (header + entry.toBytes.length)) rest

/-- Take over a segment whose first index is the one expected. -/
def readSegment [Counting] (firstIndex : ℕ) (replay : Replay) : Storage Replay := do
  let name := FileName.segment firstIndex
  let (entries, tail, validBytes) ←
    scanSegment name firstIndex (replay.entries.getLast?.map Entry.index)
  let seg : Segment :=
    { firstIndex
      lastIndex := (entries.getLast?.map Entry.index).getD (firstIndex - 1)
      size := validBytes
      offsets := runningOffsets 0 entries
      dirty := false }
  let replayed : Replay :=
    { replay with segments := replay.segments ++ [seg], entries := replay.entries ++ entries }
  if tail.isClean then pure replayed
  else do
    let _ ← .ask (.truncate name validBytes)
    let _ ← .ask (.fsync name)
    pure { replayed with tail := tail }

/-- Read the segments in order; nothing is taken over once the tail is broken. -/
def readSegments [Counting] : List ℕ → Replay → Opening Replay
  | [], replay => pure replay
  | firstIndex :: rest, replay => do
      ask (.openFile (.segment firstIndex))
      if ¬ replay.tail.isClean then do
        let _ ← (Prog.ask (.remove (.segment firstIndex)) : Storage _)
        readSegments rest replay
      else
        let expectedFirst := (replay.entries.getLast?.map (Counting.next ·.index)).getD firstIndex
        if firstIndex ≠ expectedFirst ∧ replay.entries ≠ [] then do
          let _ ← (Prog.ask (.remove (.segment firstIndex)) : Storage _)
          readSegments rest { replay with tail := .indexGap expectedFirst firstIndex }
        else do
          let replay ← (readSegment firstIndex replay : Storage _)
          readSegments rest replay

def segmentNames (names : List FileName) : List ℕ :=
  (names.filterMap fun
    | .segment first => some first
    | _ => none).insertionSort (· ≤ ·)

/-- Start a first segment if there is none. -/
def ensureSegment (first : ℕ) : WalM Unit := do
  let wal ← get
  if wal.segments = [] then openSegment first else pure ()

/-- Open the log, replaying whatever survived. -/
def «open» [Counting] (opts : WalOptions) : Opening Recovered := do
  ask (.openFile .state)
  let (hardState, stateSeq) ← (readHardState : Storage _)
  let newest ← readSlot { snapshot := none, seq := 0, slot := 0 } 0
  let newest ← readSlot newest 1
  let names ← ask .list
  let snapIndex := (newest.snapshot.map Snapshot.lastIndex).getD 0
  let replay ← readSegments (segmentNames names)
    { segments := [], entries := [], tail := .clean }
  -- Discard anything at or below the snapshot point: the snapshot supersedes it.
  let entries := if snapIndex > 0 then
      replay.entries.filter fun entry => decide (entry.index > snapIndex)
    else replay.entries
  let wal : Wal :=
    { opts
      segments := replay.segments
      stateSeq
      snapshotSlot := newest.slot
      snapshotSeq := newest.seq }
  let (result, wal) ← ((ensureSegment (Counting.next snapIndex)).run.run wal : Storage _)
  match result with
  | .error failure => throw failure
  | .ok () =>
    pure
      { wal
        hardState
        snapshot := newest.snapshot
        entries
        tail := replay.tail }

def read (wal : Wal) (index : ℕ) : Opening (Option Entry) :=
  let holds (seg : Segment) : Bool :=
    !seg.isEmpty && decide (index ≥ seg.firstIndex) && decide (index ≤ seg.lastIndex)
  match wal.segments.find? holds with
  | none => pure none
  | some seg =>
    match seg.offsets[index - seg.firstIndex]? with
    | none => pure none
    | some start => do
        let head ← ask (.readAt (.segment seg.firstIndex) start header)
        let len := leValue (head.take 4)
        let crc := leValue ((head.drop 4).take 4)
        if head.length < header ∨ len = 0 ∨ len > maxRecord then pure none
        else
          let body ← ask (.readAt (.segment seg.firstIndex) (start + header) len)
          if body.length ≠ len ∨ (crc32c body).toNat ≠ crc then pure none
          else
            match Entry.decode body with
            | .error _ => pure none
            | .ok (entry, _) => pure (some entry)

end Wal

end ChronoScope.Chronolog
