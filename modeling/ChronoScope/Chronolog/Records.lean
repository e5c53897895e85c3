import ChronoScope.Chronolog.Wal

/-!
# Reading records back

A scan returns what was written as far as it survived. `SegmentImage` says what
is known of the bytes of a segment after a power loss: they are no longer than
all its records together, and where a record was written, whatever passes for a
record is that one. Such bytes are scanned to a prefix of the records, with all
that are whole up to the first that is not, and the scan is clean exactly if
nothing else is left (`exists_scanned`).
-/

namespace ChronoScope.Chronolog

open List

theorem leBytes_leValue (bytes : Bytes) : leBytes bytes.length (leValue bytes) = bytes := by
  induction bytes with
  | nil => rfl
  | cons byte rest ih =>
    have small : byte.toNat < 256 := byte.toNat_lt
    have low : (byte.toNat + 256 * leValue rest) % 256 = byte.toNat := by omega
    have high : (byte.toNat + 256 * leValue rest) / 256 = leValue rest := by omega
    rw [length_cons, leBytes, leValue, low, high, ih]
    simp

@[simp]
theorem length_frame (body : Bytes) : (frame body).length = header + body.length := by
  simp [frame, Writer.u32, header]
  omega

theorem drop_frame (body : Bytes) : (frame body).drop header = body := by
  have prologue : frame body =
      (Writer.u32 body.length ++ Writer.u32 (crc32c body).toNat) ++ body := by
    simp [frame]
  rw [prologue]
  exact drop_left' (by simp [Writer.u32, header])

variable {body buf : Bytes} {entry : Entry}

theorem frame_injective {other : Bytes} (same : frame body = frame other) : body = other := by
  rw [← drop_frame body, same, drop_frame]

theorem frame_ne_nil (body : Bytes) : frame body ≠ [] := by
  intro empty
  have := congrArg List.length empty
  simp [header] at this

theorem maxRecord_lt : maxRecord < 2 ^ 32 := by decide

/-- A body that a reader with this limit accepts. -/
def Plausible (limit : ℕ) (body : Bytes) : Prop := 0 < body.length ∧ body.length ≤ limit

theorem frame_fields (fits : body.length < 2 ^ 32) (rest : Bytes) :
    leValue ((frame body ++ rest).take 4) = body.length ∧
      leValue (((frame body ++ rest).drop 4).take 4) = (crc32c body).toNat ∧
      ((frame body ++ rest).drop header).take body.length = body :=
  checksummed_fields fits rest rfl

variable {limit : ℕ}

theorem unframe_frame (small : limit < 2 ^ 32) (isPlausible : Plausible limit body) (rest : Bytes) :
    unframe limit (frame body ++ rest) = .ok body := by
  rcases frame_fields (isPlausible.2.trans_lt small) rest with ⟨len, crc, bodyTaken⟩
  have long : ¬ (frame body ++ rest).length < header + body.length := by
    rw [length_append, length_frame]
    omega
  have longHeader : ¬ (frame body ++ rest).length < header := by
    rw [length_append, length_frame]
    omega
  have lenFits : ¬ (body.length = 0 ∨ body.length > limit) := by
    have := isPlausible.1
    have := isPlausible.2
    omega
  simp only [unframe, len, crc, bodyTaken, if_neg long, if_neg longHeader, if_neg lenFits]
  simp

theorem frame_of_unframe (read : unframe limit buf = .ok body) :
    Plausible limit body ∧ frame body <+: buf := by
  unfold unframe at read
  simp only at read
  split_ifs at read with short isPlausible cut differs
  cases read
  have lenBytes : (buf.take 4).length = 4 := by
    rw [length_take]
    simp only [header] at short
    omega
  have crcBytes : ((buf.drop 4).take 4).length = 4 := by
    rw [length_take, length_drop]
    simp only [header] at short
    omega
  have bodyLength : ((buf.drop header).take (leValue (buf.take 4))).length =
      leValue (buf.take 4) := by
    rw [length_take, length_drop]
    omega
  refine ⟨⟨by omega, by omega⟩, ?_⟩
  have framed : frame ((buf.drop header).take (leValue (buf.take 4))) =
      buf.take 4 ++ ((buf.drop 4).take 4 ++ (buf.drop header).take (leValue (buf.take 4))) := by
    rw [frame, bodyLength, not_not.mp differs]
    congr 1
    · simpa only [lenBytes, Writer.u32] using leBytes_leValue (buf.take 4)
    · congr 1
      simpa only [crcBytes, Writer.u32] using leBytes_leValue ((buf.drop 4).take 4)
  rw [framed]
  refine ⟨(buf.drop header).drop (leValue (buf.take 4)), ?_⟩
  rw [append_assoc, append_assoc, take_append_drop]
  have joined : (buf.drop 4).take 4 ++ buf.drop header = buf.drop 4 := by
    rw [header, show buf.drop 8 = (buf.drop 4).drop 4 by rw [drop_drop],
      take_append_drop]
  rw [joined, take_append_drop]

theorem frame_unique {other : Bytes} (isPlausible : Plausible maxRecord body)
    (isPlausible' : Plausible maxRecord other) (starts : frame body <+: buf)
    (starts' : frame other <+: buf) : body = other := by
  rcases starts with ⟨rest, rfl⟩
  rcases starts' with ⟨rest', same⟩
  have read := unframe_frame maxRecord_lt isPlausible rest
  rw [← same, unframe_frame maxRecord_lt isPlausible' rest'] at read
  cases read
  rfl

theorem unframe_ne_clean {reason : TailReason} (failed : unframe limit buf = .error reason) :
    reason ≠ .clean := by
  unfold unframe at failed
  simp only at failed
  split_ifs at failed <;> cases failed <;> simp

theorem scanLoop_congr [Counting] {turns turns' : ℕ} (expected : ℕ) (enough : buf.length < turns)
    (enough' : buf.length < turns') :
      scanLoop turns buf expected = scanLoop turns' buf expected := by
  induction turns generalizing turns' buf expected with
  | zero => omega
  | succ turns ih =>
    cases turns' with
    | zero => omega
    | succ turns' =>
      have shorter (body : Bytes) (nonempty : ¬ buf.length = 0) :
          (buf.drop (header + body.length)).length < turns ∧
            (buf.drop (header + body.length)).length < turns' := by
        rw [length_drop, header]
        omega
      unfold scanLoop
      split_ifs with empty
      · rfl
      · cases unframe maxRecord buf with
        | error reason => rfl
        | ok body =>
          rcases shorter body empty with ⟨first, second⟩
          cases decoded : Entry.decode body with
          | error _ => simp only [decoded]
          | ok read => simp only [decoded, ih (Counting.next read.1.index) first second]

theorem scan_nil [Counting] (expected : ℕ) : scan [] expected = ([], .clean, 0) := rfl

theorem scan_of_error [Counting] {reason : TailReason} (nonempty : buf ≠ [])
    (failed : unframe maxRecord buf = .error reason) (expected : ℕ) :
    scan buf expected = ([], reason, 0) := by
  have : ¬ buf.length = 0 := fun empty => nonempty (length_eq_zero_iff.mp empty)
  simp [scan, scanLoop, failed, this]

/-- An entry that the log can hold. -/
structure Entry.Storable (entry : Entry) : Prop where
  fits : entry.Fits
  short : entry.toBytes.length ≤ maxRecord

theorem Entry.Storable.isPlausible (storable : entry.Storable) :
    Plausible maxRecord entry.toBytes := by
  refine ⟨?_, storable.short⟩
  simp only [Entry.toBytes, Entry.encode, Writer.u64, length_append, length_leBytes]
  omega

def record (entry : Entry) : Bytes := frame entry.toBytes

/-- Entries one after the other, as in a segment. -/
def records (entries : List Entry) : Bytes := entries.flatMap record

@[simp]
theorem records_nil : records [] = [] := rfl

@[simp]
theorem records_cons (entry : Entry) (rest : List Entry) :
    records (entry :: rest) = record entry ++ records rest := rfl

@[simp]
theorem records_append (first second : List Entry) :
    records (first ++ second) = records first ++ records second :=
  flatMap_append ..

theorem length_record_pos (entry : Entry) : 0 < (record entry).length := by
  rw [record, length_frame, header]
  omega

theorem records_isPrefix {first second : List Entry} (isPrefix : first <+: second) :
    records first <+: records second := by
  rcases isPrefix with ⟨rest, rfl⟩
  rw [records_append]
  exact prefix_append ..

/-- Consecutive indices, starting at the first. -/
def Numbered : ℕ → List Entry → Prop
  | _, [] => True
  | index, entry :: rest => entry.index = index ∧ Numbered (index + 1) rest

theorem scan_frame [Counting] {left : Bytes} {expected : ℕ}
    (isPlausible : Plausible maxRecord body) (decoded : Entry.decode body = .ok (entry, left))
    (isNext : entry.index = expected) (rest : Bytes) :
    scan (frame body ++ rest) expected =
      (entry :: (scan rest (Counting.next expected)).1, (scan rest (Counting.next expected)).2.1,
        (frame body).length + (scan rest (Counting.next expected)).2.2) := by
  have framed := unframe_frame maxRecord_lt isPlausible rest
  have nonempty : ¬ (frame body ++ rest).length = 0 := by
    simp [header]
  have dropped : (frame body ++ rest).drop (header + body.length) = rest := by
    rw [← length_frame, drop_left]
  have again : scanLoop (frame body ++ rest).length rest (Counting.next expected) =
      scan rest (Counting.next expected) := by
    apply scanLoop_congr
    · rw [length_append, length_frame, header]
      omega
    · exact Nat.lt_succ_self _
  rw [scan, scanLoop, if_neg nonempty]
  simp only [framed, decoded, isNext, dropped, again]
  simp

theorem scan_record (storable : entry.Storable) (rest : Bytes) :
    scan (record entry ++ rest) entry.index =
      (entry :: (scan rest (entry.index + 1)).1, (scan rest (entry.index + 1)).2.1,
        (record entry).length + (scan rest (entry.index + 1)).2.2) := by
  have decoded : Entry.decode entry.toBytes = .ok (entry, []) := by
    simpa [Entry.toBytes] using Entry.decode_inverts storable.fits []
  exact scan_frame storable.isPlausible decoded rfl rest

/-- What is known of the bytes of a segment: where a record was written, whatever passes for a
record is that one. -/
structure SegmentImage (image : Bytes) (all : List Entry) : Prop where
  short : image.length ≤ (records all).length
  same : ∀ before entry after, all = before ++ entry :: after →
    ∀ body, Plausible maxRecord body → frame body <+: image.drop (records before).length →
      body = entry.toBytes

theorem SegmentImage.tail {image : Bytes} {rest : List Entry}
    (faithful : SegmentImage (record entry ++ image) (entry :: rest)) :
      SegmentImage image rest := by
  refine ⟨?_, ?_⟩
  · have short := faithful.short
    simp only [records_cons, length_append] at short
    omega
  · intro before other after split body isPlausible framed
    refine faithful.same (entry :: before) other after (by simp [split]) body isPlausible ?_
    rw [records_cons, length_append, ← drop_drop, drop_left]
    exact framed

/-- The result of a scan of such bytes. -/
structure Scanned (image : Bytes) (first : ℕ) (all got : List Entry) (reason : TailReason) :
    Prop where
  scan_eq : scan image first = (got, reason, (records got).length)
  isPrefix : got <+: all
  present : records got <+: image
  clean_iff : reason = .clean ↔ image = records got
  most : ∀ firm, firm <+: all → records firm <+: image → firm <+: got

theorem exists_scanned {image : Bytes} {first : ℕ} {all : List Entry}
    (numbered : Numbered first all)
    (storable : ∀ entry ∈ all, entry.Storable) (faithful : SegmentImage image all) :
    ∃ got reason, Scanned image first all got reason := by
  have nothing {image : Bytes} {first : ℕ} {all : List Entry} {reason : TailReason}
      (scanned : scan image first = ([], reason, 0)) (clean_iff : reason = .clean ↔ image = [])
      (none_firm : ∀ entry rest, all = entry :: rest → ¬ record entry <+: image) :
      Scanned image first all [] reason := by
    refine ⟨scanned, nil_prefix, nil_prefix, clean_iff, ?_⟩
    intro firm isPrefix present
    cases firm with
    | nil => exact nil_prefix
    | cons entry firm =>
      rcases isPrefix with ⟨rest, rfl⟩
      exact absurd ((prefix_append ..).trans present) (none_firm entry _ rfl)
  induction all generalizing image first with
  | nil =>
    have empty : image = [] := by simpa using faithful.short
    subst empty
    exact ⟨[], .clean, nothing (scan_nil _) (by simp) (by simp)⟩
  | cons entry rest ih =>
    rcases numbered with ⟨rfl, numbered⟩
    by_cases empty : image = []
    · subst empty
      refine ⟨[], .clean, nothing (scan_nil _) (by simp) ?_⟩
      intro other others _ starts
      exact frame_ne_nil _ (prefix_nil.mp starts)
    · have isStorable := storable entry (mem_cons_self ..)
      cases read : unframe maxRecord image with
      | error reason =>
        refine ⟨[], reason, nothing (scan_of_error empty read _) ?_ ?_⟩
        · exact ⟨fun clean => absurd clean (unframe_ne_clean read),
            fun isNil => absurd isNil empty⟩
        · rintro _ _ ⟨⟩ ⟨more, rfl⟩
          rw [record, unframe_frame maxRecord_lt isStorable.isPlausible] at read
          cases read
      | ok body =>
        rcases frame_of_unframe read with ⟨isPlausible, framed⟩
        have isEntry := faithful.same [] entry rest rfl body isPlausible (by simpa using framed)
        subst isEntry
        rcases framed with ⟨more, rfl⟩
        rcases ih numbered (fun other member => storable other (mem_cons_of_mem _ member))
          (SegmentImage.tail faithful) with ⟨got, reason, scanned⟩
        refine ⟨entry :: got, reason, ?_, ?_, ?_, ?_, ?_⟩
        · have step := scan_record isStorable more
          rw [scanned.scan_eq] at step
          simpa [record] using step
        · exact (prefix_cons_inj entry).mpr scanned.isPrefix
        · exact (prefix_append_right_inj _).mpr scanned.present
        · rw [scanned.clean_iff, records_cons, record, append_cancel_left_eq]
        · intro firm isPrefix present
          cases firm with
          | nil => exact nil_prefix
          | cons other firm =>
            rcases cons_prefix_cons.mp isPrefix with ⟨rfl, isPrefix'⟩
            refine (prefix_cons_inj _).mpr (scanned.most firm isPrefix' ?_)
            exact (prefix_append_right_inj _).mp present

end ChronoScope.Chronolog
