import ChronoScope.Collections
import ChronoScope.Programs

/-!
# The simulated disk

A file is what is on the platter, what the page cache shows, and the operations
in between, issued but not yet covered by an `fsync`. Power loss applies each of
these exactly, not at all, or, for a write, up to a sector boundary. The
creation and removal of files takes effect at once.

A disk answers every request as computed by `Disk.perform`. Depending on what
may go wrong (`Faults`) a write may also be refused because the disk is full, or
any request with an error of any kind; a request that is refused has no effect.
-/

namespace ChronoScope.Sim

open List

inductive IoError where
  | eio (reason : String)
  | enospc
  | invalidData (reason : String)
  deriving DecidableEq

/-- Overwrite bytes from an offset on, filling up with zeros. -/
def splice (buf : List UInt8) (offset : ℕ) (data : List UInt8) : List UInt8 :=
  let sized := buf ++ List.replicate (offset + data.length - buf.length) 0
  sized.take offset ++ (data ++ sized.drop (offset + data.length))

inductive PendingOp where
  | write (offset : ℕ) (data : List UInt8)
  | truncate (len : ℕ)
  deriving DecidableEq

def PendingOp.apply (buf : List UInt8) : PendingOp → List UInt8
  | write offset data => splice buf offset data
  | truncate len => buf.take len

structure FileState where
  /-- Survives power loss. -/
  durable : List UInt8
  /-- What reads see. -/
  view : List UInt8
  /-- Issued, acknowledged, not yet fsynced. -/
  pending : List PendingOp
  deriving DecidableEq

namespace FileState

def new : FileState := { durable := [], view := [], pending := [] }

/-- Issue an operation: visible at once, durable only after an `fsync`. -/
def issue (file : FileState) (op : PendingOp) : FileState :=
  { file with view := op.apply file.view, pending := file.pending ++ [op] }

def writeAt (file : FileState) (offset : ℕ) (data : List UInt8) : FileState :=
  file.issue (.write offset data)

def truncate (file : FileState) (len : ℕ) : FileState := file.issue (.truncate len)

def fsync (file : FileState) : FileState :=
  { file with durable := file.pending.foldl PendingOp.apply file.durable, pending := [] }

def readAt (file : FileState) (offset len : ℕ) : List UInt8 := (file.view.drop offset).take len

end FileState

/-- What becomes of a pending operation when the power fails. -/
inductive Fate where
  | lost
  /-- Only the first sectors of a write reach the platter. -/
  | torn (keepSectors : ℕ)
  | kept
  deriving DecidableEq

/-- The bytes of a write that lie in the first sectors it touches. -/
def keepBytes (sector offset total keepSectors : ℕ) : ℕ :=
  if keepSectors = 0 then 0 else min ((offset / sector + keepSectors) * sector - offset) total

/-- A truncate cannot tear, and a torn write loses at least one of the sectors it touches. -/
def Fate.Possible (sector : ℕ) : PendingOp → Fate → Prop
  | .write offset data, .torn keepSectors => 0 < data.length ∧
      keepSectors < (offset + data.length - 1) / sector - offset / sector + 1
  | .truncate _, .torn _ => False
  | _, _ => True

def PendingOp.land (sector : ℕ) (durable : List UInt8) : PendingOp → Fate → List UInt8
  | _, .lost => durable
  | .write offset data, .torn keepSectors =>
    let keep := keepBytes sector offset data.length keepSectors
    if keep > 0 then splice durable offset (data.take keep) else durable
  | op, _ => op.apply durable

/-- The bytes on the platter after pending operations have met their fates, one after the other. -/
inductive Lands (sector : ℕ) : List PendingOp → List UInt8 → List UInt8 → Prop where
  | done (durable : List UInt8) : Lands sector [] durable durable
  | next {op : PendingOp} {rest : List PendingOp} {durable image : List UInt8} (fate : Fate)
      (possible : fate.Possible sector op)
      (lands : Lands sector rest (op.land sector durable fate) image) :
      Lands sector (op :: rest) durable image

/-- The file after a reboot: the page cache is gone. -/
def FileState.rebooted (image : List UInt8) : FileState :=
  { durable := image, view := image, pending := [] }

variable {N : Type} [LinearOrder N]

abbrev Disk (N : Type) [LinearOrder N] := BTreeMap N FileState

inductive Request (N : Type) : Type → Type where
  | openFile (name : N) : Request N (Except IoError Unit)
  | list : Request N (Except IoError (List N))
  | remove (name : N) : Request N (Except IoError Unit)
  | syncDir : Request N (Except IoError Unit)
  | len (name : N) : Request N ℕ
  | writeAt (name : N) (offset : ℕ) (data : List UInt8) : Request N (Except IoError Unit)
  | readAt (name : N) (offset len : ℕ) : Request N (Except IoError (List UInt8))
  | fsync (name : N) : Request N (Except IoError Unit)
  | truncate (name : N) (len : ℕ) : Request N (Except IoError Unit)

/-- What may go wrong with a disk that has power. -/
structure Faults where
  /-- It may be full. -/
  full : Prop
  /-- Any request may fail. -/
  any : Prop

def Faults.none : Faults := { full := False, any := False }

/-- Writes may be refused for lack of space. -/
def Faults.space : Faults := { full := True, any := False }

def Faults.all : Faults := { full := True, any := True }

variable {offset : ℕ}

namespace Disk

def change (disk : Disk N) (name : N) (gone : String) (next : FileState → FileState) :
    Except IoError Unit × Disk N :=
  match disk.get name with
  | none => (.error (.eio gone), disk)
  | some file => (.ok (), disk.insert name (next file))

def perform (disk : Disk N) : {β : Type} → Request N β → β × Disk N
  | _, .openFile name =>
    (.ok (), if (disk.get name).isSome then disk else disk.insert name .new)
  | _, .list => (.ok disk.keys, disk)
  | _, .remove name => (.ok (), BTreeMap.remove disk name)
  | _, .syncDir => (.ok (), disk)
  | _, .len name => (((disk.get name).map fun file => file.view.length).getD 0, disk)
  | _, .writeAt name offset data => disk.change name "file closed" (·.writeAt offset data)
  | _, .readAt name offset len =>
    match disk.get name with
    | none => (.error (.eio "file gone"), disk)
    | some file => (.ok (file.readAt offset len), disk)
  | _, .fsync name => disk.change name "file gone" (·.fsync)
  | _, .truncate name len => disk.change name "file gone" (·.truncate len)

/-- The disk may refuse this request, with this reply. -/
def Refuses (faults : Faults) : {β : Type} → Request N β → β → Prop
  | _, .writeAt .., reply =>
    faults.full ∧ reply = .error .enospc ∨ faults.any ∧ ∃ error, reply = .error error
  | _, .openFile _, reply => faults.any ∧ ∃ error, reply = .error error
  | _, .list, reply => faults.any ∧ ∃ error, reply = .error error
  | _, .remove _, reply => faults.any ∧ ∃ error, reply = .error error
  | _, .syncDir, reply => faults.any ∧ ∃ error, reply = .error error
  | _, .readAt .., reply => faults.any ∧ ∃ error, reply = .error error
  | _, .fsync _, reply => faults.any ∧ ∃ error, reply = .error error
  | _, .truncate .., reply => faults.any ∧ ∃ error, reply = .error error
  | _, .len _, _ => False

/-- How the disk may answer: as computed, or by refusing. -/
def Answers (faults : Faults) {β : Type} (op : Request N β) (disk : Disk N) (reply : β)
    (after : Disk N) : Prop :=
  disk.perform op = (reply, after) ∨ Refuses faults op reply ∧ after = disk

/-- Follow a program on a disk that carries out every request. -/
def carryOut {α : Type} (program : Prog (Request N) α) (disk : Disk N) : α × Disk N :=
  program.run (fun op disk => disk.perform op) disk

theorem returns_carryOut {faults : Faults} {α : Type} {program : Prog (Request N) α}
    {disk : Disk N} {value : α} (done : (carryOut program disk).1 = value) :
    Prog.Returns (Answers faults) program disk value (carryOut program disk).2 := by
  subst done
  exact Prog.returns_run (fun _ _ => Or.inl rfl : ∀ {β : Type} (op : Request N β) (disk : Disk N),
    Answers faults op disk (disk.perform op).1 (disk.perform op).2) program disk

theorem returns_carryOut_run {faults : Faults} {α σ : Type} {program : Prog (Request N) (α × σ)}
    {disk : Disk N} {value : α} (done : (carryOut program disk).1.1 = value) :
    Prog.Returns (Answers faults) program disk (value, (carryOut program disk).1.2)
      (carryOut program disk).2 :=
  returns_carryOut (Prod.ext done rfl)

theorem exists_returns (faults : Faults) {α : Type} (program : Prog (Request N) α) (disk : Disk N) :
    ∃ value final, Prog.Returns (Answers faults) program disk value final :=
  ⟨_, _, returns_carryOut rfl⟩

/-- How a request is refused with an error. Asking for a length cannot fail. -/
def refusal (error : IoError) : {β : Type} → Request N β → Option β
  | _, .openFile _ => some (.error error)
  | _, .list => some (.error error)
  | _, .remove _ => some (.error error)
  | _, .syncDir => some (.error error)
  | _, .len _ => none
  | _, .writeAt .. => some (.error error)
  | _, .readAt .. => some (.error error)
  | _, .fsync _ => some (.error error)
  | _, .truncate .. => some (.error error)

/-- A disk that counts the requests and refuses those a script has an error for. -/
def scripted (script : ℕ → Option IoError) {β : Type} (op : Request N β) (counted : ℕ × Disk N) :
    β × (ℕ × Disk N) :=
  match (script counted.1).bind fun error => refusal error op with
  | some reply => (reply, counted.1 + 1, counted.2)
  | none => ((counted.2.perform op).1, counted.1 + 1, (counted.2.perform op).2)

variable {script : ℕ → Option IoError}

theorem scripted_of_none {calls : ℕ} (spared : script calls = none) {β : Type} (op : Request N β)
    (disk : Disk N) :
    scripted script op (calls, disk) = ((disk.perform op).1, calls + 1, (disk.perform op).2) := by
  simp [scripted, spared]

theorem scripted_of_some {calls : ℕ} {error : IoError} (struck : script calls = some error)
    {β : Type} {op : Request N β} {reply : β} (refused : refusal error op = some reply)
    (disk : Disk N) : scripted script op (calls, disk) = (reply, calls + 1, disk) := by
  simp [scripted, struck, refused]

/-- What power loss may leave of a disk. -/
def PowerLoss (sector : ℕ) (disk after : Disk N) : Prop :=
  ∀ name, match disk.get name with
    | none => after.get name = none
    | some file => ∃ image, Lands (max sector 1) file.pending file.durable image ∧
        after.get name = some (.rebooted image)

section Answers

variable {faults : Faults} {disk after : Disk N} {name : N} {file : FileState}

theorem isSome_change (disk : Disk N) (name other : N) (gone : String)
    (next : FileState → FileState) :
    ((disk.change name gone next).2.get other).isSome = (disk.get other).isSome := by
  unfold change
  cases found : disk.get name with
  | none => rfl
  | some file =>
    rw [BTreeMap.get_insert]
    split_ifs with same
    · rw [same, found]
      rfl
    · rfl

theorem isSome_openFile (disk : Disk N) (name : N) :
    ((disk.perform (.openFile name)).2.get name).isSome = true := by
  simp only [perform]
  split_ifs with isThere
  · exact isThere
  · simp [BTreeMap.get_insert]

variable {reply : Except IoError Unit}

theorem answers_openFile
    (answers : Answers faults (.openFile name) disk reply after) :
    (reply = .ok () ∧ after = if (disk.get name).isSome then disk else disk.insert name .new) ∨
      faults.any ∧ (∃ error, reply = .error error) ∧ after = disk := by
  rcases answers with performed | ⟨⟨failing, error⟩, same⟩
  · cases performed
    exact Or.inl ⟨rfl, rfl⟩
  · exact Or.inr ⟨failing, error, same⟩

theorem answers_list {reply : Except IoError (List N)}
    (answers : Answers faults .list disk reply after) :
    (reply = .ok disk.keys ∨ faults.any ∧ ∃ error, reply = .error error) ∧ after = disk := by
  rcases answers with performed | ⟨refused, same⟩
  · cases performed
    exact ⟨Or.inl rfl, rfl⟩
  · exact ⟨Or.inr refused, same⟩

theorem answers_remove
    (answers : Answers faults (.remove name) disk reply after) :
    (reply = .ok () ∧ after = BTreeMap.remove disk name) ∨
      faults.any ∧ (∃ error, reply = .error error) ∧ after = disk := by
  rcases answers with performed | ⟨⟨failing, error⟩, same⟩
  · cases performed
    exact Or.inl ⟨rfl, rfl⟩
  · exact Or.inr ⟨failing, error, same⟩

theorem answers_syncDir
    (answers : Answers faults .syncDir disk reply after) :
    (reply = .ok () ∨ faults.any ∧ ∃ error, reply = .error error) ∧ after = disk := by
  rcases answers with performed | ⟨refused, same⟩
  · cases performed
    exact ⟨Or.inl rfl, rfl⟩
  · exact ⟨Or.inr refused, same⟩

theorem answers_len {reply : ℕ} (found : disk.get name = some file)
    (answers : Answers faults (.len name) disk reply after) :
    reply = file.view.length ∧ after = disk := by
  rcases answers with performed | ⟨⟨⟩, _⟩
  cases performed
  exact ⟨by simp [found], rfl⟩

theorem answers_readAt {reply : Except IoError (List UInt8)} {len : ℕ}
    (found : disk.get name = some file)
    (answers : Answers faults (.readAt name offset len) disk reply after) :
    (reply = .ok (file.readAt offset len) ∨ faults.any ∧ ∃ error, reply = .error error) ∧
      after = disk := by
  rcases answers with performed | ⟨refused, same⟩
  · simp only [perform, found] at performed
    cases performed
    exact ⟨Or.inl rfl, rfl⟩
  · exact ⟨Or.inr refused, same⟩

theorem answers_fsync (found : disk.get name = some file)
    (answers : Answers faults (.fsync name) disk reply after) :
    (reply = .ok () ∧ after = disk.insert name file.fsync) ∨
      faults.any ∧ (∃ error, reply = .error error) ∧ after = disk := by
  rcases answers with performed | ⟨⟨failing, error⟩, same⟩
  · simp only [perform, change, found] at performed
    cases performed
    exact Or.inl ⟨rfl, rfl⟩
  · exact Or.inr ⟨failing, error, same⟩

theorem answers_truncate {len : ℕ}
    (found : disk.get name = some file)
    (answers : Answers faults (.truncate name len) disk reply after) :
    (reply = .ok () ∧ after = disk.insert name (file.truncate len)) ∨
      faults.any ∧ (∃ error, reply = .error error) ∧ after = disk := by
  rcases answers with performed | ⟨⟨failing, error⟩, same⟩
  · simp only [perform, change, found] at performed
    cases performed
    exact Or.inl ⟨rfl, rfl⟩
  · exact Or.inr ⟨failing, error, same⟩

theorem answers_writeAt {data : List UInt8} (found : disk.get name = some file)
    (answers : Answers faults (.writeAt name offset data) disk reply after) :
    (reply = .ok () ∧ after = disk.insert name (file.writeAt offset data)) ∨
      (faults.full ∧ reply = .error .enospc ∨ faults.any ∧ ∃ error, reply = .error error) ∧
        after = disk := by
  rcases answers with performed | ⟨refused, same⟩
  · simp only [perform, change, found] at performed
    cases performed
    exact Or.inl ⟨rfl, rfl⟩
  · exact Or.inr ⟨refused, same⟩

/-! Requests that are performed. -/

theorem performs_openFile (faults : Faults) (found : disk.get name = some file) :
    Answers faults (.openFile name) disk (.ok ()) disk :=
  Or.inl (by simp [perform, found])

theorem performs_writeAt (faults : Faults) (found : disk.get name = some file) (offset : ℕ)
    (data : List UInt8) : Answers faults (.writeAt name offset data) disk (.ok ())
      (disk.insert name (file.writeAt offset data)) :=
  Or.inl (by simp [perform, change, found])

theorem performs_fsync (faults : Faults) (found : disk.get name = some file) :
    Answers faults (.fsync name) disk (.ok ()) (disk.insert name file.fsync) :=
  Or.inl (by simp [perform, change, found])

theorem performs_truncate (faults : Faults) (found : disk.get name = some file) (len : ℕ) :
    Answers faults (.truncate name len) disk (.ok ()) (disk.insert name (file.truncate len)) :=
  Or.inl (by simp [perform, change, found])

end Answers

end Disk

theorem length_splice (buf : List UInt8) (offset : ℕ) (data : List UInt8) :
    (splice buf offset data).length = max buf.length (offset + data.length) := by
  simp only [splice, length_append, length_take, length_drop, length_replicate]
  omega

@[simp]
theorem splice_length (buf data : List UInt8) : splice buf buf.length data = buf ++ data := by
  simp [splice]

variable {base : List UInt8}

theorem isPrefix_splice {buf data : List UInt8} (isPrefix : base <+: buf)
    (before : base.length ≤ offset) : base <+: splice buf offset data := by
  refine List.IsPrefix.trans ?_ (prefix_append ..)
  exact prefix_take_iff.mpr ⟨isPrefix.trans (prefix_append ..), before⟩

namespace FileState

/-- The page cache shows the platter with everything pending replayed. -/
def Replays (file : FileState) : Prop :=
  file.view = file.pending.foldl PendingOp.apply file.durable

theorem replays_new : new.Replays := rfl

theorem replays_rebooted (image : List UInt8) : (rebooted image).Replays := rfl

theorem Replays.issue {file : FileState} (replays : file.Replays) (op : PendingOp) :
    (file.issue op).Replays := by
  simp only [Replays, FileState.issue, foldl_append, foldl_cons, foldl_nil]
  rw [← replays]

theorem Replays.fsync {file : FileState} (replays : file.Replays) :
    file.fsync = rebooted file.view := by
  rw [FileState.fsync, ← replays, rebooted]

end FileState

/-- The operation changes nothing below `low` and does not reach beyond `high`. -/
def PendingOp.Within (low high : ℕ) : PendingOp → Prop
  | write offset data => low ≤ offset ∧ offset + data.length ≤ high
  | truncate len => low ≤ len

theorem PendingOp.Within.land {op : PendingOp} {durable : List UInt8} {high : ℕ}
    (within : op.Within base.length high) (isPrefix : base <+: durable)
    (short : durable.length ≤ high) (sector : ℕ) (fate : Fate) :
    base <+: op.land sector durable fate ∧ (op.land sector durable fate).length ≤ high := by
  have written {offset : ℕ} {data : List UInt8}
      (within : (write offset data).Within base.length high)
      (part : List UInt8) (le : part.length ≤ data.length) :
      base <+: splice durable offset part ∧ (splice durable offset part).length ≤ high := by
    refine ⟨isPrefix_splice isPrefix within.1, ?_⟩
    have := within.2
    rw [length_splice]
    omega
  cases op with
  | write offset data =>
    cases fate with
    | lost => exact ⟨isPrefix, short⟩
    | kept => exact written within data le_rfl
    | torn keepSectors =>
      simp only [PendingOp.land]
      split_ifs
      · exact written within _ (by simp)
      · exact ⟨isPrefix, short⟩
  | truncate len =>
    have cut : base <+: durable.take len ∧ (durable.take len).length ≤ high := by
      refine ⟨(prefix_take_iff).mpr ⟨isPrefix, within⟩, ?_⟩
      rw [length_take]
      omega
    cases fate with
    | lost => exact ⟨isPrefix, short⟩
    | kept => exact cut
    | torn => exact cut

namespace Lands

variable {sector : ℕ} {pending : List PendingOp} {durable image : List UInt8}

theorem within (lands : Lands sector pending durable image) {high : ℕ}
    (within : ∀ op ∈ pending, op.Within base.length high) (isPrefix : base <+: durable)
    (short : durable.length ≤ high) : base <+: image ∧ image.length ≤ high := by
  induction lands with
  | done => exact ⟨isPrefix, short⟩
  | next fate _ _ ih =>
    rcases (within _ (mem_cons_self ..)).land isPrefix short sector fate with ⟨keeps, fits⟩
    exact ih (fun op member => within op (mem_cons_of_mem _ member)) keeps fits

theorem all_lost (sector : ℕ) (pending : List PendingOp) (durable : List UInt8) :
    Lands sector pending durable durable := by
  induction pending with
  | nil => exact .done _
  | cons op rest ih =>
    refine .next .lost ?_ ih
    cases op <;> trivial

theorem all_kept (sector : ℕ) (pending : List PendingOp) (durable : List UInt8) :
    Lands sector pending durable (pending.foldl PendingOp.apply durable) := by
  induction pending generalizing durable with
  | nil => exact .done _
  | cons op rest ih =>
    refine .next .kept ?_ ?_
    · cases op <;> trivial
    · cases op <;> exact ih _

theorem isPrefix_of_truncates (lands : Lands sector pending durable image)
    (truncates : ∀ op ∈ pending, ∃ len, op = .truncate len) : image <+: durable := by
  induction lands with
  | done => exact prefix_rfl
  | next fate _ _ ih =>
    refine (ih fun op member => truncates op (mem_cons_of_mem _ member)).trans ?_
    rcases truncates _ (mem_cons_self ..) with ⟨len, rfl⟩
    cases fate with
    | lost => exact prefix_rfl
    | kept => exact take_prefix ..
    | torn => exact take_prefix ..

theorem append {more : List PendingOp} (lands : Lands sector (pending ++ more) durable image) :
    ∃ between, Lands sector pending durable between ∧ Lands sector more between image := by
  induction pending generalizing durable with
  | nil => exact ⟨durable, .done _, lands⟩
  | cons op rest ih =>
    cases lands with
    | next fate possible lands =>
      rcases ih lands with ⟨between, first, second⟩
      exact ⟨between, .next fate possible first, second⟩

end Lands

end ChronoScope.Sim
