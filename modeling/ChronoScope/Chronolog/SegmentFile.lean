import ChronoScope.Chronolog.Records

/-!
# Segment files under power loss

A file may come back from a power loss in many ways. The one assumption is that
the checksum does its work (`Authentic`): where a record was being written, an
image that passes for a record is one that was written there, or that was there
before.

`Stores` describes a segment file while the log is in use: some records are
durable, the others are pending writes. `Yields` describes it at any moment by
what a power loss can leave, so it is what recovery needs to know.
-/

namespace ChronoScope.Chronolog

open List

open Sim

/-- Where a write is pending, what passes for a record was written there or was there before. -/
def Authentic (file : FileState) (image : Bytes) : Prop :=
  ∀ offset data, .write offset data ∈ file.pending →
    ∀ body, Plausible maxRecord body → frame body <+: image.drop offset →
      .write offset (frame body) ∈ file.pending ∨ frame body <+: file.durable.drop offset

/-- A power loss after which no damaged record has a matching checksum. -/
structure Crash (sector : ℕ) (disk after : Disk FileName) : Prop where
  powerLoss : disk.PowerLoss sector after
  authentic : ∀ name file file', disk.get name = some file → after.get name = some file' →
    Authentic file file'.durable

/-- What a power loss may leave of a file. -/
def Survives (file : FileState) (image : Bytes) : Prop :=
  (∃ sector, Lands sector file.pending file.durable image) ∧ Authentic file image

variable {disk : Disk FileName} {sector : ℕ}

theorem Crash.get {after : Disk FileName} (crash : Crash sector disk after) {name : FileName}
    {file : FileState} (found : disk.get name = some file) :
    ∃ image, Survives file image ∧ after.get name = some (.rebooted image) := by
  have lands := crash.powerLoss name
  rw [found] at lands
  rcases lands with ⟨image, lands, rebooted⟩
  exact ⟨image, ⟨⟨_, lands⟩, crash.authentic name file _ found rebooted⟩, rebooted⟩

theorem Crash.get_none {after : Disk FileName} (crash : Crash sector disk after) {name : FileName}
    (missing : disk.get name = none) : after.get name = none := by
  have gone := crash.powerLoss name
  rwa [missing] at gone

theorem crash_mapValues (image : FileName → FileState → Bytes)
    (survives : ∀ name file, disk.get name = some file →
      Lands (max sector 1) file.pending file.durable (image name file) ∧
        Authentic file (image name file)) :
    Crash sector disk (disk.mapValues fun name file => .rebooted (image name file)) := by
  refine ⟨?_, ?_⟩
  · intro name
    cases found : disk.get name with
    | none => simp [found]
    | some file => exact ⟨image name file, (survives name file found).1, by simp [found]⟩
  · intro name file file' found found'
    rw [BTreeMap.get_mapValues, found] at found'
    cases found'
    exact (survives name file found).2

theorem survives_rebooted {image image' : Bytes} (survives : Survives (.rebooted image) image') :
    image' = image := by
  rcases survives with ⟨⟨_, lands⟩, _⟩
  cases lands
  rfl

theorem survives_durable (file : FileState) : Survives file file.durable :=
  ⟨⟨1, Lands.all_lost ..⟩, fun _ _ _ _ _ framed => Or.inr framed⟩

theorem crash_durable (sector : ℕ) (disk : Disk FileName) :
    Crash sector disk (disk.mapValues fun _ file => .rebooted file.durable) :=
  crash_mapValues _ fun _ file _ => ⟨.all_lost .., (survives_durable file).2⟩

theorem SegmentImage.of_isPrefix {image shorter : Bytes} {all : List Entry}
    (isImage : SegmentImage image all) (isPrefix : shorter <+: image) :
      SegmentImage shorter all := by
  refine ⟨isPrefix.length_le.trans isImage.short, ?_⟩
  intro before entry after split body isPlausible framed
  exact isImage.same before entry after split body isPlausible (framed.trans (isPrefix.drop _))

theorem SegmentImage.of_parts {image whole : Bytes} {done rest : List Entry}
    (storable : ∀ entry ∈ done, entry.Storable) (isPrefix : image <+: whole)
    (durable : records done <+: whole) (short : whole.length ≤ (records (done ++ rest)).length)
    (written : ∀ before entry after, rest = before ++ entry :: after →
      ∀ body, Plausible maxRecord body →
        frame body <+: image.drop (records (done ++ before)).length → body = entry.toBytes) :
    SegmentImage image (done ++ rest) := by
  refine ⟨isPrefix.length_le.trans short, ?_⟩
  intro before entry after split body isPlausible framed
  rcases append_eq_append_iff.mp split with ⟨middle, rfl, restIs⟩ | ⟨middle, doneIs, afterIs⟩
  · exact written middle entry after restIs body isPlausible framed
  · cases middle with
    | nil =>
      rw [append_nil] at doneIs
      subst doneIs
      exact written [] entry after (by simpa using afterIs.symm) body isPlausible
        (by simpa using framed)
    | cons head middle =>
      cases afterIs
      have isStorable : entry.Storable := storable entry (by simp [doneIs])
      refine frame_unique isPlausible isStorable.isPlausible
        (framed.trans (isPrefix.drop _)) ?_
      rcases durable with ⟨more, rfl⟩
      rw [doneIs, records_append, records_cons, append_assoc, drop_left,
        append_assoc]
      exact prefix_append ..

def writesFrom : ℕ → List Entry → List PendingOp
  | _, [] => []
  | offset, entry :: rest =>
    .write offset (record entry) :: writesFrom (offset + (record entry).length) rest

theorem writesFrom_append (offset : ℕ) (first second : List Entry) :
    writesFrom offset (first ++ second) =
      writesFrom offset first ++ writesFrom (offset + (records first).length) second := by
  induction first generalizing offset with
  | nil => simp [writesFrom]
  | cons entry rest ih => simp [writesFrom, ih, Nat.add_assoc]

theorem mem_writesFrom {start : ℕ} {op : PendingOp} {rest : List Entry}
    (member : op ∈ writesFrom start rest) :
    ∃ before entry after, rest = before ++ entry :: after ∧
      op = .write (start + (records before).length) (record entry) := by
  induction rest generalizing start with
  | nil => cases member
  | cons entry rest ih =>
    rcases mem_cons.mp member with rfl | later
    · exact ⟨[], entry, rest, rfl, rfl⟩
    · rcases ih later with ⟨before, other, after, rfl, rfl⟩
      refine ⟨entry :: before, other, after, rfl, ?_⟩
      rw [records_cons, length_append, Nat.add_assoc]

theorem writesFrom_mem (start : ℕ) (before : List Entry) (entry : Entry) (after : List Entry) :
    .write (start + (records before).length) (record entry) ∈
      writesFrom start (before ++ entry :: after) := by
  rw [writesFrom_append]
  exact mem_append_right _ (mem_cons_self ..)

theorem entry_eq_of_offset {before before' : List Entry} {entry entry' : Entry}
    {after after' : List Entry} (same : before ++ entry :: after = before' ++ entry' :: after')
    (offsets : (records before).length = (records before').length) : entry = entry' := by
  have nothing (before middle : List Entry)
      (same : (records (before ++ middle)).length = (records before).length) : middle = [] := by
    cases middle with
    | nil => rfl
    | cons head middle =>
      have := length_record_pos head
      simp only [records_append, records_cons, length_append] at same
      omega
  rcases append_eq_append_iff.mp same with ⟨middle, rfl, restIs⟩ | ⟨middle, rfl, restIs⟩
  · cases nothing before middle offsets.symm
    exact (List.cons.inj restIs).1
  · cases nothing before' middle offsets
    exact (List.cons.inj restIs).1.symm

/-- A segment file with some records durable and the rest pending. Truncates that cut nothing
off may be pending as well. -/
structure Stores (file : FileState) (done rest : List Entry) : Prop where
  durable : file.durable = records done
  view : file.view = records (done ++ rest)
  pending : ∃ idle, (∀ op ∈ idle, ∃ len, op = .truncate len ∧ (records done).length ≤ len) ∧
    file.pending = idle ++ writesFrom (records done).length rest

namespace Stores

variable {file : FileState} {done rest : List Entry}

theorem new : Stores .new [] [] := ⟨rfl, rfl, [], by simp, rfl⟩

theorem rebooted (entries : List Entry) : Stores (.rebooted (records entries)) entries [] :=
  ⟨rfl, by simp [FileState.rebooted], [], by simp, rfl⟩

theorem truncate_zero (stores : Stores file [] []) : Stores (file.truncate 0) [] [] := by
  rcases stores.pending with ⟨idle, trivial, pendingIs⟩
  refine ⟨stores.durable, ?_, idle ++ [.truncate 0], ?_, ?_⟩
  · simp [FileState.truncate, FileState.issue, PendingOp.apply]
  · intro op member
    rcases mem_append.mp member with old | new
    · exact trivial op old
    · exact ⟨0, by simpa using new, by simp⟩
  · simp [FileState.truncate, FileState.issue, pendingIs, writesFrom]

section

variable (stores : Stores file done rest)

include stores

theorem writeAt (entry : Entry) :
    Stores (file.writeAt (records (done ++ rest)).length (record entry)) done
      (rest ++ [entry]) := by
  rcases stores.pending with ⟨idle, trivial, pendingIs⟩
  refine ⟨stores.durable, ?_, idle, trivial, ?_⟩
  · simp only [FileState.writeAt, FileState.issue, PendingOp.apply, stores.view]
    rw [splice_length, ← append_assoc, records_append (done ++ rest)]
    simp
  · simp only [FileState.writeAt, FileState.issue, pendingIs, writesFrom_append, append_assoc]
    simp [writesFrom]

theorem replays : file.Replays := by
  rcases stores.pending with ⟨idle, trivial, pendingIs⟩
  have skipped : idle.foldl PendingOp.apply (records done) = records done := by
    clear pendingIs
    induction idle with
    | nil => rfl
    | cons op idle ih =>
      rcases trivial op (mem_cons_self ..) with ⟨len, rfl, enough⟩
      rw [foldl_cons, PendingOp.apply, take_of_length_le enough]
      exact ih fun op member => trivial op (mem_cons_of_mem _ member)
  have written (done rest : List Entry) :
      (writesFrom (records done).length rest).foldl PendingOp.apply (records done) =
        records (done ++ rest) := by
    induction rest generalizing done with
    | nil => simp [writesFrom]
    | cons entry rest ih =>
      have next := ih (done ++ [entry])
      simp only [records_append, records_cons, records_nil, append_nil, length_append]
        at next
      simp only [writesFrom, foldl_cons, PendingOp.apply, splice_length, next]
      simp
  rw [FileState.Replays, stores.view, pendingIs, stores.durable, foldl_append, skipped,
    written]

theorem fsync : Stores file.fsync (done ++ rest) [] := by
  rw [stores.replays.fsync, stores.view]
  exact rebooted _

theorem within :
    ∀ op ∈ file.pending, op.Within (records done).length (records (done ++ rest)).length := by
  rcases stores.pending with ⟨idle, trivial, pendingIs⟩
  intro op member
  rw [pendingIs] at member
  rcases mem_append.mp member with isIdle | isWrite
  · rcases trivial op isIdle with ⟨len, rfl, enough⟩
    exact enough
  · rcases mem_writesFrom isWrite with ⟨before, entry, after, rfl, rfl⟩
    refine ⟨Nat.le_add_right .., ?_⟩
    simp only [records_append, records_cons, length_append]
    omega

theorem written {pending : List PendingOp}
    (same : ∀ offset data, .write offset data ∈ pending ↔ .write offset data ∈ file.pending)
    {image view : Bytes} (authentic : Authentic { durable := file.durable, view, pending } image) :
    ∀ before entry after, rest = before ++ entry :: after → ∀ body, Plausible maxRecord body →
      frame body <+: image.drop (records (done ++ before)).length → body = entry.toBytes := by
  rcases stores.pending with ⟨idle, trivial, pendingIs⟩
  have isPending {offset : ℕ} {data : Bytes} :
      .write offset data ∈ pending ↔
        .write offset data ∈ writesFrom (records done).length rest := by
    rw [same, pendingIs, mem_append]
    refine ⟨?_, Or.inr⟩
    rintro (isIdle | isWrite)
    · rcases trivial _ isIdle with ⟨len, impossible, _⟩
      cases impossible
    · exact isWrite
  intro before entry after split body isPlausible framed
  have offset : (records (done ++ before)).length =
      (records done).length + (records before).length := by
    rw [records_append, length_append]
  rw [offset] at framed
  have mine :
      .write ((records done).length + (records before).length) (record entry) ∈ pending := by
    rw [isPending, split]
    exact writesFrom_mem ..
  rcases authentic _ _ mine body isPlausible framed with isWritten | wasThere
  · rcases mem_writesFrom (isPending.mp isWritten) with ⟨before', entry', after', split', written⟩
    rcases PendingOp.write.inj written with ⟨sameOffset, sameRecord⟩
    rw [entry_eq_of_offset (split.symm.trans split') (Nat.add_left_cancel sameOffset)]
    exact frame_injective sameRecord
  · exfalso
    have short : file.durable.drop ((records done).length + (records before).length) = [] := by
      rw [stores.durable]
      exact drop_eq_nil_of_le (by omega)
    have wasThere' : frame body <+: [] := short ▸ wasThere
    exact frame_ne_nil body (prefix_nil.mp wasThere')

theorem survives_view (storable : ∀ entry ∈ rest, entry.Storable) (sector : ℕ) :
    Lands sector file.pending file.durable file.view ∧ Authentic file file.view := by
  refine ⟨?_, ?_⟩
  · rw [stores.replays]
    exact .all_kept ..
  · intro offset data isPending body isPlausible framed
    left
    rcases stores.pending with ⟨idle, trivial, pendingIs⟩
    have isPending' := isPending
    rw [pendingIs] at isPending'
    rcases mem_append.mp isPending' with isIdle | isWrite
    · rcases trivial _ isIdle with ⟨len, impossible, _⟩
      cases impossible
    rcases mem_writesFrom isWrite with ⟨before, entry, after, rfl, isRecord⟩
    cases isRecord
    have starts : record entry <+:
        file.view.drop ((records done).length + (records before).length) := by
      rw [stores.view, ← append_assoc, records_append, records_append, records_cons,
        ← length_append, drop_left]
      exact prefix_append ..
    have isStorable : entry.Storable := storable entry (by simp)
    rw [frame_unique isPlausible isStorable.isPlausible framed starts]
    exact isPending

end

end Stores

/-- What a power loss can leave of the file: the firm records for sure, and of all its records
a prefix. -/
structure Yields (file : FileState) (first : ℕ) (firm all : List Entry) : Prop where
  isPrefix : firm <+: all
  image : ∀ image, Survives file image → SegmentImage image all
  present : ∀ image, Survives file image → records firm <+: image
  /-- Nothing is firm only if there is no durable record. -/
  starts : firm = [] → (scan file.durable first).1 = []

theorem Stores.length_durable {file : FileState} {done rest : List Entry}
    (stores : Stores file done rest) :
    file.durable.length ≤ (records (done ++ rest)).length := by
  rw [stores.durable]
  exact (records_isPrefix (prefix_append ..)).length_le

theorem Stores.yields {file : FileState} {done rest : List Entry} (stores : Stores file done rest)
    (storable : ∀ entry ∈ done, entry.Storable) (first : ℕ) :
    Yields file first done (done ++ rest) := by
  have lands (image : Bytes) (survives : Survives file image) :
      records done <+: image ∧ image.length ≤ (records (done ++ rest)).length := by
    rcases survives.1 with ⟨sector, lands⟩
    exact lands.within stores.within (stores.durable ▸ prefix_rfl) stores.length_durable
  refine ⟨prefix_append .., ?_, fun image survives => (lands image survives).1, ?_⟩
  · intro image survives
    rcases lands image survives with ⟨durable, short⟩
    exact .of_parts storable prefix_rfl durable short
      (stores.written (fun _ _ => Iff.rfl) survives.2)
  · rintro rfl
    rw [stores.durable]
    exact congrArg Prod.fst (scan_nil first)

theorem Stores.yields_truncate {file : FileState} {done rest kept firm : List Entry}
    (stores : Stores file done rest) (storable : ∀ entry ∈ done, entry.Storable) (first : ℕ)
    (firmDone : firm <+: done) (firmKept : firm <+: kept) (starts : firm = [] → done = []) :
    Yields (file.truncate (records kept).length) first firm (done ++ rest) := by
  have lands (image : Bytes) (survives : Survives (file.truncate (records kept).length) image) :
      ∃ whole, image <+: whole ∧ records firm <+: image ∧ records done <+: whole ∧
        whole.length ≤ (records (done ++ rest)).length := by
    rcases survives.1 with ⟨sector, lands⟩
    rcases lands.append with ⟨whole, before, last⟩
    have durable := before.within stores.within (stores.durable ▸ prefix_rfl)
      stores.length_durable
    refine ⟨whole, ?_, ?_, durable⟩
    · exact last.isPrefix_of_truncates fun op member => ⟨_, by simpa using member⟩
    · refine (last.within ?_ ((records_isPrefix firmDone).trans durable.1) le_rfl).1
      intro op member
      cases mem_singleton.mp member
      exact (records_isPrefix firmKept).length_le
  refine ⟨firmDone.trans (prefix_append ..), ?_, ?_, ?_⟩
  · intro image survives
    rcases lands image survives with ⟨whole, isPrefix, _, durable, short⟩
    refine .of_parts storable isPrefix durable short (stores.written ?_ survives.2)
    intro offset data
    simp
  · intro image survives
    rcases lands image survives with ⟨_, _, isFirm, _⟩
    exact isFirm
  · intro nothing
    rw [FileState.truncate, FileState.issue, stores.durable, starts nothing]
    exact congrArg Prod.fst (scan_nil first)

theorem Yields.reboot {file : FileState} {first : ℕ} {firm all : List Entry}
    (yields : Yields file first firm all) (numbered : Numbered first all)
    (storable : ∀ entry ∈ all, entry.Storable) {image : Bytes} (survives : Survives file image) :
    ∃ got reason, Scanned image first all got reason ∧ firm <+: got ∧
      Yields (.rebooted image) first got all := by
  have isImage := yields.image image survives
  rcases exists_scanned numbered storable isImage with ⟨got, reason, scanned⟩
  refine ⟨got, reason, scanned, scanned.most firm yields.isPrefix (yields.present image survives),
    scanned.isPrefix, ?_, ?_, ?_⟩
  · intro image' survives'
    rw [survives_rebooted survives']
    exact isImage
  · intro image' survives'
    rw [survives_rebooted survives']
    exact scanned.present
  · intro nothing
    simpa [FileState.rebooted, scanned.scan_eq] using nothing

namespace Scanned

variable {image : Bytes} {first : ℕ} {all got : List Entry} {reason : TailReason}

section

variable (scanned : Scanned image first all got reason)

include scanned

theorem yields_truncate (isImage : SegmentImage image all) :
    Yields ((FileState.rebooted image).truncate (records got).length) first got all := by
  have lands (image' : Bytes)
      (survives : Survives ((FileState.rebooted image).truncate (records got).length) image') :
      image' <+: image ∧ records got <+: image' := by
    rcases survives.1 with ⟨sector, lands⟩
    have isTruncate (op : PendingOp)
        (member : op ∈ ((FileState.rebooted image).truncate (records got).length).pending) :
        op = .truncate (records got).length := by
      simpa [FileState.truncate, FileState.issue, FileState.rebooted] using member
    refine ⟨lands.isPrefix_of_truncates fun op member => ⟨_, isTruncate op member⟩, ?_⟩
    refine (lands.within ?_ scanned.present le_rfl).1
    intro op member
    rw [isTruncate op member]
    exact le_refl (records got).length
  refine ⟨scanned.isPrefix, ?_, fun image' survives => (lands image' survives).2, ?_⟩
  · exact fun image' survives => isImage.of_isPrefix (lands image' survives).1
  · intro nothing
    simpa [FileState.truncate, FileState.issue, FileState.rebooted, scanned.scan_eq] using nothing

theorem stores_fsync :
    Stores ((FileState.rebooted image).truncate (records got).length).fsync got [] := by
  have replays := (FileState.replays_rebooted image).issue (.truncate (records got).length)
  have viewIs : image.take (records got).length = records got :=
    (prefix_iff_eq_take.mp scanned.present).symm
  have fsynced : ((FileState.rebooted image).truncate (records got).length).fsync =
      .rebooted (records got) := by
    rw [FileState.truncate, replays.fsync]
    simp [FileState.issue, PendingOp.apply, FileState.rebooted, viewIs]
  rw [fsynced]
  exact .rebooted got

theorem stores_clean (clean : reason = .clean) : Stores (.rebooted image) got [] := by
  rw [scanned.clean_iff.mp clean]
  exact .rebooted got

theorem clean_of_all (isImage : SegmentImage image all) (everything : got = all) :
    reason = .clean := by
  subst everything
  exact scanned.clean_iff.mpr (scanned.present.eq_of_length_le isImage.short).symm

end

end Scanned

end ChronoScope.Chronolog
