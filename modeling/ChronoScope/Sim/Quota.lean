import ChronoScope.Sim.Barrier

/-!
# Disk usage

A node counts the bytes its files occupy, so that a write can be refused when the
disk is full: writes add what they grow a file by, truncation and removal give it
back. Two things are not accounted for. A write through a handle whose file has
been removed is counted before it is found that there is nothing to write to, and
when the power fails, files get shorter, or longer, without the count.
-/

namespace ChronoScope.Sim

variable {N : Type} [LinearOrder N]

structure Store (N : Type) [LinearOrder N] where
  files : Disk N
  usedBytes : ℕ
  up : Bool

namespace Store

def usage (files : Disk N) : ℕ := files.total fun file => file.view.length

def initial : Store N := { files := ∅, usedBytes := 0, up := false }

def growth (store : Store N) (name : N) (offset : ℕ) (data : List UInt8) : ℕ :=
  offset + data.length - ((store.files.get name).map fun file => file.view.length).getD 0

def writeAt (quota : Option ℕ) (store : Store N) (name : N) (offset : ℕ) (data : List UInt8) :
    Except IoError Unit × Store N :=
  if !store.up then (.error (.eio "node down"), store)
  else
    let growth := store.growth name offset data
    if quota.any fun limit => store.usedBytes + growth > limit then (.error .enospc, store)
    else
      let store := { store with usedBytes := store.usedBytes + growth }
      match store.files.get name with
      | none => (.error (.eio "file closed"), store)
      | some file =>
        (.ok (), { store with files := store.files.insert name (file.writeAt offset data) })

def openFile (store : Store N) (name : N) : Store N :=
  match store.files.get name with
  | none => { store with files := store.files.insert name .new }
  | some _ => store

def truncate (store : Store N) (name : N) (len : ℕ) : Except IoError Unit × Store N :=
  match store.files.get name with
  | none => (.error (.eio "file gone"), store)
  | some file =>
    (.ok (), { store with
      files := store.files.insert name (file.truncate len)
      usedBytes := store.usedBytes - (file.view.length - len) })

def remove (store : Store N) (name : N) : Store N :=
  match store.files.get name with
  | none => store
  | some file =>
    { store with
      files := store.files.remove name
      usedBytes := store.usedBytes - file.view.length }

/-- An `fsync` that covers so many operations ends. -/
def finishFsync (store : Store N) (name : N) (covered : ℕ) : Except IoError Unit × Store N :=
  if !store.up then (.error (.eio "crashed during fsync"), store)
  else
    match store.files.get name with
    | none => (.error (.eio "file gone"), store)
    | some file => (.ok (), { store with files := store.files.insert name (file.drain covered) })

def survived (files : Disk N) (images : N → List UInt8) : Disk N :=
  files.mapValues fun name _ => .rebooted (images name)

inductive Op (N : Type) where
  | openFile (name : N)
  | writeAt (name : N) (offset : ℕ) (data : List UInt8)
  | truncate (name : N) (len : ℕ)
  | remove (name : N)
  | finishFsync (name : N) (covered : ℕ)
  /-- The power fails, and this is left of the files. -/
  | crash (images : N → List UInt8)
  | restart

def perform (quota : Option ℕ) (store : Store N) : Op N → Store N
  | .openFile name => store.openFile name
  | .writeAt name offset data => (store.writeAt quota name offset data).2
  | .truncate name len => (store.truncate name len).2
  | .remove name => store.remove name
  | .finishFsync name covered => (store.finishFsync name covered).2
  | .crash images => { store with files := survived store.files images, up := false }
  | .restart => { store with up := true }

/-- What is left by a power loss has landed. -/
def Possible (sector : ℕ) (store : Store N) : Op N → Prop
  | .crash images => ∀ name file, store.files.get name = some file →
      Lands sector file.pending file.durable (images name)
  | _ => True

/-- Writes go to files that are there, and a power loss leaves as much as there was. -/
def Accounted (store : Store N) : Op N → Prop
  | .writeAt name _ _ => (store.files.get name).isSome = true
  | .crash images => usage (survived store.files images) = usage store.files
  | _ => True

/-- A store that operations of one kind may lead to. -/
inductive Reached (sector : ℕ) (quota : Option ℕ) (only : Store N → Op N → Prop) :
    Store N → Prop where
  | initial : Reached sector quota only .initial
  | step {store : Store N} {op : Op N} (reached : Reached sector quota only store)
      (possible : store.Possible sector op) (meets : only store op) :
      Reached sector quota only (store.perform quota op)

variable {quota : Option ℕ} {store : Store N} {name : N} {file : FileState}

section

variable (found : store.files.get name = some file)

include found

theorem usage_insert (changed : FileState) :
    usage (store.files.insert name changed) + file.view.length =
      usage store.files + changed.view.length := by
  have before := BTreeMap.total_remove found fun file => file.view.length
  have after := store.files.total_insert (fun file => file.view.length) name changed
  simp only [usage]
  omega

theorem length_le_usage : file.view.length ≤ usage store.files := by
  have total := BTreeMap.total_remove found fun file => file.view.length
  simp only [usage]
  omega

theorem usage_writeAt (offset : ℕ) (data : List UInt8) :
    usage (store.files.insert name (file.writeAt offset data)) =
      usage store.files + store.growth name offset data := by
  have inserted := usage_insert found (file.writeAt offset data)
  have grown : (file.writeAt offset data).view.length =
      max file.view.length (offset + data.length) := length_splice ..
  simp only [growth, found, Option.map_some, Option.getD_some]
  omega

end

theorem perform_usedBytes {op : Op N} (accurate : store.usedBytes = usage store.files)
    (accounted : store.Accounted op) :
    (store.perform quota op).usedBytes = usage (store.perform quota op).files := by
  cases op with
  | openFile name =>
    simp only [perform, openFile]
    split
    · next missing =>
        have total := store.files.total_insert (fun file => file.view.length) name .new
        rw [BTreeMap.remove_of_none missing] at total
        simp only [usage, total, accurate]
        simp [FileState.new]
    · exact accurate
  | writeAt name offset data =>
    rcases Option.isSome_iff_exists.mp accounted with ⟨file, found⟩
    simp only [perform, writeAt]
    split_ifs
    · exact accurate
    · exact accurate
    · simp only [found, usage_writeAt found, accurate]
  | truncate name len =>
    simp only [perform, truncate]
    split
    · exact accurate
    · next file found =>
        have inserted := usage_insert found (file.truncate len)
        have within := length_le_usage found
        have shortened : (file.truncate len).view.length = min len file.view.length :=
          List.length_take
        show store.usedBytes - (file.view.length - len) =
          usage (store.files.insert name (file.truncate len))
        rw [accurate]
        omega
  | remove name =>
    simp only [perform, remove]
    split
    · exact accurate
    · next file found =>
        have total := BTreeMap.total_remove found fun file => file.view.length
        show store.usedBytes - file.view.length = usage (store.files.remove name)
        rw [accurate, usage, total, Nat.add_sub_cancel_left]
        rfl
  | finishFsync name covered =>
    simp only [perform, finishFsync]
    split_ifs
    · exact accurate
    · split
      · exact accurate
      · next file found =>
          have inserted := usage_insert found (file.drain covered)
          have same : (file.drain covered).view = file.view := rfl
          rw [same] at inserted
          show store.usedBytes = usage (store.files.insert name (file.drain covered))
          omega
  | crash images => exact accurate.trans accounted.symm
  | restart => exact accurate

/-- In every run without such operations the count is what the files hold, and a write is refused
just if it would bring that above the quota. -/
theorem used_bytes_live {sector : ℕ} (reached : Reached sector quota Accounted store) :
    store.usedBytes = usage store.files ∧ ∀ limit name file offset data, quota = some limit →
      store.up = true → store.files.get name = some file →
      ((store.writeAt quota name offset data).1 = .error .enospc ↔
        limit < usage (store.files.insert name (file.writeAt offset data))) := by
  have accurate : store.usedBytes = usage store.files := by
    induction reached with
    | initial => rfl
    | step _ _ accounted ih => exact perform_usedBytes ih accounted
  refine ⟨accurate, ?_⟩
  rintro limit name file offset data rfl isUp found
  rw [usage_writeAt found, ← accurate]
  by_cases full : limit < store.usedBytes + store.growth name offset data
  · simp [writeAt, isUp, full]
  · simp [writeAt, isUp, full, found]

def threeBytes : Store ℕ :=
  ((initial.perform (some 3) .restart).perform (some 3) (.openFile 0)).perform (some 3)
    (.writeAt 0 0 [1, 2, 3])

theorem reached_threeBytes {only : Store ℕ → Op ℕ → Prop}
    (meets : ∀ store op, Accounted store op → only store op) :
    Reached 1 (some 3) only threeBytes :=
  .step (.step (.step .initial trivial (meets _ _ trivial)) trivial (meets _ _ trivial)) trivial
    (meets _ _ rfl)

theorem threeBytes_live :
    threeBytes.usedBytes = usage threeBytes.files ∧ ∀ limit name file offset data,
      some 3 = some limit → threeBytes.up = true → threeBytes.files.get name = some file →
      ((threeBytes.writeAt (some 3) name offset data).1 = .error .enospc ↔
        limit < usage (threeBytes.files.insert name (file.writeAt offset data))) :=
  used_bytes_live (reached_threeBytes fun _ _ => id)

/-- The bytes are lost in a power loss, and the disk is still full. -/
theorem lost_bytes_counted :
    ∃ store, Reached 1 (some 3) (fun _ _ => True) store ∧ usage store.files = 0 ∧
      store.usedBytes = 3 ∧ (store.writeAt (some 3) 0 0 [1]).1 = .error .enospc := by
  refine ⟨(threeBytes.perform (some 3) (.crash fun _ => [])).perform (some 3) .restart,
    .step (.step (reached_threeBytes fun _ _ _ => trivial) ?_ trivial) trivial trivial, rfl, rfl,
    rfl⟩
  intro name file found
  have isFile : file = FileState.new.writeAt 0 [1, 2, 3] := by
    have member := BTreeMap.mem_toList.mpr found
    simpa using congrArg Prod.snd (List.mem_singleton.mp member)
  subst isFile
  exact .next .lost trivial (.done _)

end Store

end ChronoScope.Sim
