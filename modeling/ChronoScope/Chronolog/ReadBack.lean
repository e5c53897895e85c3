import ChronoScope.Chronolog.Salvage

/-!
# Reading back what was written

The write path takes a record of any size, and stores its length modulo `2 ^ 32`.
Every reader refuses a record longer than `maxRecord`. So whatever is read was
short enough when it was written, and an entry or a snapshot that is longer is
accepted and never found again.
-/

namespace ChronoScope.Chronolog

open List

open Sim

theorem Entry.storable_of_decode {body rest : Bytes} {entry : Entry}
    (short : body.length ≤ maxRecord)
    (decoded : Entry.decode body = .ok (entry, rest)) : entry.Storable := by
  rcases Entry.decode_accepts _ _ _ decoded with ⟨used, counts, fits, shorter⟩
  refine ⟨fits, ?_⟩
  rw [Entry.toBytes]
  omega

theorem storable_of_snapshotOf {buf : Bytes} {found : Saved} (read : snapshotOf buf = some found) :
    Storable found := by
  have accepts : Accepts (Reader.bind Reader.u64 fun seq => Reader.map (seq, ·) Snapshot.decode)
      fun found used => found.1 < 2 ^ 64 ∧ found.2.Fits ∧ 8 + found.2.encode.length ≤ used := by
    refine Accepts.bind (Accepts.u64.mono ?_)
    rintro seq _ ⟨seqFits, rfl⟩
    refine Accepts.map (Snapshot.decode_accepts.mono ?_)
    rintro snap used ⟨fits, shorter⟩
    exact ⟨seqFits, fits, Nat.add_le_add_left shorter 8⟩
  unfold snapshotOf at read
  cases framed : unframe maxRecord buf with
  | error reason =>
    rw [framed] at read
    cases read
  | ok body =>
    simp only [framed] at read
    split at read
    · cases read
    · rename_i found' rest decoded
      cases read
      have short := (frame_of_unframe framed).1.2
      rcases accepts body _ _ decoded with ⟨used, counts, seqFits, fits, shorter⟩
      refine ⟨seqFits, fits, ?_⟩
      rw [Wal.snapshotBody, length_append, Writer.u64, length_leBytes]
      omega

section Reads

variable {faults : Faults} {disk : Disk FileName}

theorem read_storable (wal : Wal) (index : ℕ) :
    Prog.Safe (Disk.Answers faults) (fun _ => True) (wal.read index).run
      (fun result _ => ∀ entry, result = .ok (some entry) → entry.Storable) disk := by
  have nothing {disk : Disk FileName} : Prog.Safe (Disk.Answers faults) (fun _ => True)
      (pure none : Wal.Opening (Option Entry)).run
      (fun result _ => ∀ entry, result = .ok (some entry) → entry.Storable) disk :=
    .except_pure trivial fun _ impossible => nomatch impossible
  unfold Wal.read
  dsimp only
  split
  · exact nothing
  split
  · exact nothing
  refine .except_bind (.bind (.ask trivial ?_))
  intro head _ _
  refine ⟨trivial, .pure trivial ?_⟩
  cases head with
  | error _ => exact fun _ impossible => nomatch impossible
  | ok head =>
    change Prog.Safe _ _ (ExceptT.run (if _ then _ else _)) _ _
    split_ifs with outOfRange
    · exact nothing
    refine .except_bind (.bind (.ask trivial ?_))
    intro body _ _
    refine ⟨trivial, .pure trivial ?_⟩
    cases body with
    | error _ => exact fun _ impossible => nomatch impossible
    | ok body =>
      change Prog.Safe _ _ (ExceptT.run (if _ then _ else _)) _ _
      split_ifs with damaged
      · exact nothing
      cases decoded : Entry.decode body with
      | error _ => exact nothing
      | ok found =>
        refine .except_pure trivial ?_
        rintro entry ⟨⟩
        exact Entry.storable_of_decode (by omega) decoded

end Reads

variable {entry : Entry} {pieces : List Piece} {snap : Snapshot}

theorem Numbered.eq_of_index {first : ℕ} {entries : List Entry} (numbered : Numbered first entries)
    {other : Entry} (member : entry ∈ entries) (member' : other ∈ entries)
    (same : entry.index = other.index) : entry = other := by
  rcases getElem?_of_mem member with ⟨position, found⟩
  rcases getElem?_of_mem member' with ⟨position', found'⟩
  have here := numbered.index_eq found
  have here' := numbered.index_eq found'
  have samePosition : position = position' := by omega
  subst samePosition
  exact Option.some.inj (found.symm.trans found')

theorem Pieced.lookup {files : ℕ → Option FileState}
    (pieced : Pieced files pieces) (member : entry ∈ contents pieces)
    {piece : Piece}
    (isPiece : piece ∈ pieces) (inside : piece.seg.firstIndex ≤ entry.index)
    (inside' : entry.index ≤ piece.seg.lastIndex) :
    piece.all[entry.index - piece.seg.firstIndex]? = some entry := by
  have sound := pieced.sound piece isPiece
  have last := sound.lastIndex
  have long : entry.index - piece.seg.firstIndex < piece.all.length := by omega
  have found : piece.all[entry.index - piece.seg.firstIndex]? =
      some piece.all[entry.index - piece.seg.firstIndex] := List.getElem?_eq_getElem long
  have index := sound.numbered.index_eq found
  rcases pieced.chain.numbered fun piece isPiece => (pieced.sound piece isPiece).numbered with
    ⟨first, _, numbered⟩
  rw [found]
  refine congrArg some (numbered.eq_of_index ?_ member (by omega))
  exact mem_flatMap.mpr ⟨piece, isPiece, getElem_mem long⟩

theorem drop_records {entries : List Entry} {position : ℕ}
    (found : entries[position]? = some entry) :
    (records entries).drop (records (entries.take position)).length =
      record entry ++ records (entries.drop (position + 1)) := by
  rcases List.getElem?_eq_some_iff.mp found with ⟨inside, rfl⟩
  have split : records entries = records (entries.take position) ++
      records (entries.drop position) := by
    rw [← records_append, take_append_drop]
  rw [split, drop_left, drop_eq_getElem_cons inside, records_cons]

theorem readAt_frame {file : FileState} {start : ℕ} {body rest : Bytes}
    (buf : file.view.drop start = frame body ++ rest) (fits : body.length < 2 ^ 32) :
    (file.readAt start header).length = header ∧
      leValue ((file.readAt start header).take 4) = body.length ∧
      leValue (((file.readAt start header).drop 4).take 4) = (crc32c body).toNat ∧
      file.readAt (start + header) body.length = body := by
  rcases frame_fields fits rest with ⟨lenIs, crcIs, bodyIs⟩
  rw [← buf] at lenIs crcIs bodyIs
  have headIs : file.readAt start header = (file.view.drop start).take header := rfl
  refine ⟨?_, ?_, ?_, ?_⟩
  · rw [headIs, buf, length_take, length_append, length_frame]
    omega
  · rw [headIs, take_take]
    exact lenIs
  · rw [headIs, drop_take, take_take]
    exact crcIs
  · rw [FileState.readAt, ← drop_drop, bodyIs]

theorem Pieced.read_safe {faults : Faults} (honest : ¬ faults.any) {disk : Disk FileName}
    (pieced : Pieced (segmentFiles disk) pieces) {wal : Wal}
    (segments : wal.segments = pieces.map Piece.seg)
    (member : entry ∈ contents pieces) :
    Prog.Safe (Disk.Answers faults) (fun _ => True) (wal.read entry.index).run
      (fun result _ => result = .ok (some entry)) disk := by
  unfold Wal.read
  dsimp only
  cases lookup : wal.segments.find? _ with
  | none =>
    rcases mem_flatMap.mp member with ⟨piece, isPiece, isEntry⟩
    have sound := pieced.sound piece isPiece
    have bounds := sound.numbered.index_bounds isEntry
    have last := sound.lastIndex
    have outside := find?_eq_none.mp lookup piece.seg
      (segments ▸ mem_map_of_mem isPiece)
    simp only [Segment.isEmpty, Bool.and_eq_true, Bool.not_eq_true', decide_eq_true_eq,
      decide_eq_false_iff_not] at outside
    omega
  | some seg =>
    have holds := find?_some lookup
    have isSegment := mem_of_find?_eq_some lookup
    simp only [Segment.isEmpty, Bool.and_eq_true, Bool.not_eq_true', decide_eq_true_eq,
      decide_eq_false_iff_not] at holds
    rw [segments] at isSegment
    rcases mem_map.mp isSegment with ⟨piece, isPiece, rfl⟩
    have sound := pieced.sound piece isPiece
    have found := pieced.lookup member isPiece (by omega) (by omega)
    have inside := (List.getElem?_eq_some_iff.mp found).1
    have storable := sound.storable entry (mem_of_getElem? found)
    rcases sound.stored with ⟨file, isFile, stores⟩
    have view : file.view = records piece.all := stores.view
    have buf := drop_records found
    rw [← view] at buf
    simp only [sound.offsets, Wal.getElem?_runningOffsets inside]
    generalize (records (piece.all.take (entry.index - piece.seg.firstIndex))).length =
      start at buf
    generalize records (piece.all.drop (entry.index - piece.seg.firstIndex + 1)) = rest at buf
    rw [record] at buf
    rcases readAt_frame buf (storable.isPlausible.2.trans_lt maxRecord_lt) with
      ⟨headLength, lenIs, crcIs, bodyIs⟩
    have decoded : Entry.decode entry.toBytes = .ok (entry, []) := by
      simpa [Entry.toBytes] using Entry.decode_inverts storable.fits []
    have inRange : ¬ ((file.readAt start header).length < header ∨ entry.toBytes.length = 0 ∨
        entry.toBytes.length > maxRecord) := by
      have := storable.isPlausible
      rw [Plausible] at this
      omega
    refine .except_bind (.bind (.ask trivial ?_))
    intro reply after answers
    rcases Disk.answers_readAt isFile answers with ⟨rfl | ⟨failing, _⟩, rfl⟩
    swap
    · exact absurd failing honest
    refine ⟨trivial, .pure trivial ?_⟩
    change Prog.Safe _ _ (ExceptT.run (if _ then _ else _)) _ _
    rw [lenIs, crcIs, if_neg inRange]
    refine .except_bind (.bind (.ask trivial ?_))
    intro reply final answers
    rcases Disk.answers_readAt isFile answers with ⟨rfl | ⟨failing, _⟩, rfl⟩
    swap
    · exact absurd failing honest
    refine ⟨trivial, .pure trivial ?_⟩
    change Prog.Safe _ _ (ExceptT.run (if _ then _ else _)) _ _
    rw [bodyIs, if_neg (by simp), decoded]
    exact .except_pure trivial rfl

theorem Pieced.open_finds {disk : Disk FileName}
    (pieced : Pieced (segmentFiles disk) pieces) (whole : ∀ piece ∈ pieces, piece.rest = [])
    (member : entry ∈ contents pieces) (opts : WalOptions) :
    Prog.Safe (Disk.Answers .none) (fun _ => True) (Wal.open opts).run
      (fun result _ => ∃ recovered, result = .ok recovered ∧ (entry ∈ recovered.entries ∨
        ∃ snap, recovered.snapshot = some snap ∧ entry.index ≤ snap.lastIndex)) disk := by
  refine (pieced.open_safe (fun failing => failing) whole opts).follow ?_
  rintro _ after _ ⟨recovered, found, rfl, same, opened⟩
  refine ⟨recovered, rfl, ?_⟩
  rw [opened.entries, same, opened.snapshot]
  by_cases behind : entry.index >
    ((newestOf (readings disk)).snapshot.map Snapshot.lastIndex).getD 0
  · exact Or.inl (List.mem_filter.mpr ⟨member, by simpa using behind⟩)
  · right
    cases newest : (newestOf (readings disk)).snapshot with
    | none =>
      rw [newest] at behind
      exact absurd (pieced.index_pos member) behind
    | some snap =>
      rw [newest] at behind
      exact ⟨snap, rfl, Nat.le_of_not_gt behind⟩

theorem newest_saved {fresh : Saved → Prop} {disk after : Disk FileName} {target seq : ℕ}
    {base : Option Saved} (newer : Newer base (seq, snap))
    (storable : Storable (seq, snap)) (underway : SaveUnderway fresh target base disk after)
    (saved : slotFiles after target = some (.rebooted (frame (Wal.snapshotBody seq snap)))) :
    (newestOf (readings after)).snapshot = some snap := by
  have isSlot := underway.slotted.isSlot
  have read := snapshotOf_frame storable
  have here : readings after (1 - (1 - target)) = some (seq, snap) := by
    rw [show 1 - (1 - target) = target by omega, readings_eq saved]
    exact read
  have lower : ∀ found, readings after (1 - target) = some found →
      ∃ newest, some (seq, snap) = some newest ∧ found.1 < newest.1 := by
    intro found isFound
    rw [underway.slotted.reading_firm] at isFound
    exact ⟨_, rfl, newer found isFound⟩
  rw [newestOf_of_lower (by omega) here lower (by simp)]
  rfl

/-- The entry is read back, now and by the next recovery unless a snapshot covers it. -/
def ReadsBack (wal : Wal) (disk : Disk FileName) (entry : Entry) : Prop :=
  Prog.Ends (Disk.Answers .none) (wal.read entry.index).run (· = .ok (some entry)) disk ∧
    ∀ opts, Prog.Ends (Disk.Answers .none) (Wal.open opts).run
      (fun result => ∃ recovered, result = .ok recovered ∧ (entry ∈ recovered.entries ∨
        ∃ snap, recovered.snapshot = some snap ∧ entry.index ≤ snap.lastIndex)) disk

/-- The next recovery returns this snapshot. -/
def Finds (disk : Disk FileName) (snap : Snapshot) : Prop :=
  ∀ opts, Prog.Ends (Disk.Answers .none) (Wal.open opts).run
    (fun result => ∃ recovered, result = .ok recovered ∧ recovered.snapshot = some snap) disk

theorem ReadsBack.storable {wal : Wal} {disk : Disk FileName}
    (reads : ReadsBack wal disk entry) : entry.Storable := by
  rcases reads.1 with ⟨⟨result, final, returns⟩, isEntry⟩
  exact (read_storable wal entry.index).returns _ _ returns entry (isEntry _ _ returns)

theorem exists_reading {found : ℕ → Option Saved}
    (isNewest : (newestOf found).snapshot = some snap) :
    ∃ slot seq, found slot = some (seq, snap) := by
  have considered (newest : Wal.Newest) (slot : ℕ)
      (isSnap : (newest.consider slot (found slot)).snapshot = some snap) :
      newest.snapshot = some snap ∨ ∃ seq, found slot = some (seq, snap) := by
    unfold Wal.Newest.consider at isSnap
    split at isSnap
    · exact Or.inl isSnap
    · rename_i seq other reading
      split_ifs at isSnap
      · cases isSnap
        exact Or.inr ⟨seq, reading⟩
      · exact Or.inl isSnap
  rcases considered _ 1 isNewest with first | ⟨seq, reading⟩
  · rcases considered _ 0 first with nothing | ⟨seq, reading⟩
    · cases nothing
    · exact ⟨0, seq, reading⟩
  · exact ⟨1, seq, reading⟩

theorem Finds.storable {disk : Disk FileName} (finds : Finds disk snap) :
    ∃ seq, Storable (seq, snap) := by
  rcases finds .default with ⟨⟨result, final, returns⟩, isFound⟩
  rcases isFound _ _ returns with ⟨recovered, rfl, isSnap⟩
  rcases (open_finds id .default).returns _ _ returns with ⟨⟨_, ⟨⟩, found⟩, _⟩
  rcases exists_reading (found.snapshot.symm.trans isSnap) with ⟨slot, seq, reading⟩
  rw [readings, Option.bind_eq_some_iff] at reading
  rcases reading with ⟨file, _, read⟩
  exact ⟨seq, storable_of_snapshotOf read⟩

namespace LogRun

variable {run : LogRun} {wal : Wal}

theorem UpBy.append_sync_runs {base : Option Saved} (up : run.UpBy wal pieces base)
    {batch : List Entry} (storable : ∀ entry ∈ batch, entry.Storable) :
    Routine.Runs (Disk.Answers .none) (fun _ => True) (Wal.append batch >>= fun _ => Wal.sync)
      (fun result wal' after => result = .ok () → ∃ pieces',
        Pieced (segmentFiles after) pieces' ∧ wal'.segments = pieces'.map Piece.seg ∧
        (∀ piece ∈ pieces', piece.rest = []) ∧ ∀ entry ∈ batch, entry ∈ contents pieces')
      wal run.disk := by
  have running : Running (run.issue (.append batch)).promise wal run.disk pieces base :=
    up.running.imp (fun entry member => mem_append_left _ member) fun _ => id
  have appends : Routine.Runs (Disk.Answers .none) (fun _ => True)
      (Wal.append batch) _ wal run.disk :=
    Chronolog.append_runs (fun failing => failing) up.positive running up.keeps storable
      (fun entry member => mem_append_right _ member) fun _ _ => trivial
  refine .bind (appends.follow ?_)
  rintro result _ written _ ⟨pieces', rfl, running', _, _, outcome⟩
  cases result with
  | error failure => exact fun impossible => nomatch impossible
  | ok =>
    have syncs : Routine.Runs (Disk.Answers .none) (fun _ => True) Wal.sync _ _ written :=
      Chronolog.sync_runs (fun failing => failing) running' fun _ _ _ _ _ _ => trivial
    refine syncs.follow ?_
    rintro _ _ after _ ⟨rfl, rfl, running'', _⟩ _
    refine ⟨_, running''.sound.pieced, rfl, ?_, ?_⟩
    · intro piece isPiece
      rcases mem_map.mp isPiece with ⟨_, _, rfl⟩
      rfl
    · intro entry member
      rw [contents_synced, outcome.contents_eq]
      exact mem_append_right _ member

theorem exists_first_save (snap : Snapshot) : ∃ run wal wal' after,
    Relation.ReflTransGen (Step fun _ _ => True) start run ∧ run.up = some wal ∧
    wal.snapshotSeq = 0 ∧
    Prog.Returns (Disk.Answers .none) ((Wal.saveSnapshot snap).run.run wal) run.disk
      (.ok (), wal') after ∧
    ∀ slot found, readings after slot = some found →
      snapshotOf (frame (Wal.snapshotBody 1 snap)) = some found := by
  rcases Disk.exists_returns .space (Wal.open .default).run start.disk with ⟨_, opened, opens⟩
  have down := @crashed_start
  rcases (Chronolog.open_safe (fun failing => failing) down.recoverable.laid down.readable
    down.recoverable.appended (fun _ => id) .default).returns _ _ opens with
    ⟨recovered, _, _, rfl, _, _, isOpened⟩
  have seq : recovered.wal.snapshotSeq = 0 := isOpened.seq
  have blank (slot : ℕ) : Saves.Blank opened slot :=
    (isOpened.slots slot).imp id And.right
  rcases Saves.saveSnapshot_completes snap .none (blank recovered.wal.snapshotSlot) with
    ⟨after, saves, saved, others⟩
  rw [seq] at saved
  refine ⟨_, recovered.wal, _, after, .tail .refl (.opens rfl (by decide) opens), rfl, seq, saves,
    ?_⟩
  intro slot found reading
  by_cases same : slot = recovered.wal.snapshotSlot
  · subst same
    exact (readings_eq saved).symm.trans reading
  · rw [readings, others slot same] at reading
    rcases blank slot with missing | isNew
    · rw [missing] at reading
      cases reading
    · rw [isNew] at reading
      cases reading

/-- A snapshot with `maxRecord` bytes of data. -/
def large : Snapshot :=
  { lastIndex := 1, lastTerm := 1, config := .default, data := List.replicate maxRecord 0 }

theorem snapshotOf_large : snapshotOf (frame (Wal.snapshotBody 1 large)) = none := by
  have long : (Wal.snapshotBody 1 large).length = maxRecord + 40 := by
    simp only [Wal.snapshotBody, Snapshot.encode, large, Config.encode, Config.default, encodeNodes,
      Writer.seq, Writer.bytes, Writer.u64, Writer.u32, length_append, length_leBytes,
      length_replicate]
    simp
    omega
  have fits : (Wal.snapshotBody 1 large).length < 2 ^ 32 := by
    rw [long]
    decide
  rcases frame_fields fits [] with ⟨len, _, _⟩
  rw [append_nil, long] at len
  have refused : unframe maxRecord (frame (Wal.snapshotBody 1 large)) = .error .badLength := by
    unfold unframe
    rw [if_neg (by rw [length_frame]; omega)]
    simp only [len]
    rw [if_pos (Or.inr (by omega))]
  rw [snapshotOf, refused]

end LogRun

end ChronoScope.Chronolog
