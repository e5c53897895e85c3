import ChronoScope.Sim.Disk
import Mathlib.Logic.Relation

/-!
# Fsyncs that take time

An `fsync` remembers how many operations are pending when it starts. When its
timer has fired it moves that many from the front of the queue to the platter, or
all that are left. In between, other operations are issued, other fsyncs start
and finish, and the power may fail.

The queue is emptied from the front only, so what an `fsync` is responsible for
is at most its count away from the front, however many others finish first: when
it is over, everything issued before it started is on the platter. This needs
that the power has not failed meanwhile. The tasks of the node itself do not live
to see an `fsync` end that the power failed on; a task of another node, awaiting
it with a borrowed handle, does.
-/

namespace ChronoScope.Sim

open List

structure Flight where
  /-- How many operations it is responsible for, counted from the front of the queue. -/
  covered : ℕ
  /-- It is awaited by a task of the node itself, which is reaped when the node crashes. -/
  own : Bool
  /-- How many operations had been issued since the last power loss when it started. -/
  since : ℕ
  /-- The power has failed since it started. -/
  outlived : Bool
  deriving DecidableEq

/-- A file of a node, with an account of what was issued since the node last lost power. -/
structure Served where
  file : FileState
  up : Bool
  flights : List Flight
  /-- The bytes the last power loss left on the platter. -/
  base : List UInt8
  /-- Everything issued since. -/
  issued : List PendingOp
  deriving DecidableEq

/-- Move operations from the front of the queue to the platter. -/
def FileState.drain (file : FileState) (covered : ℕ) : FileState :=
  { file with
    durable := (file.pending.take covered).foldl PendingOp.apply file.durable
    pending := file.pending.drop covered }

variable {sector : ℕ}

namespace Served

def new : Served := { file := .new, up := true, flights := [], base := [], issued := [] }

def issue (served : Served) (op : PendingOp) : Served :=
  { served with file := served.file.issue op, issued := served.issued ++ [op] }

def startFsync (served : Served) (own : Bool) : Served :=
  { served with flights := served.flights ++
      [{ covered := served.file.pending.length, own := own, since := served.issued.length,
         outlived := false }] }

/-- What is left to do when the timer of an `fsync` has fired. -/
def finishFsync (served : Served) (flight : Flight) : Except IoError Unit × Served :=
  let served := { served with flights := served.flights.erase flight }
  if !served.up then (.error (.eio "crashed during fsync"), served)
  else (.ok (), { served with file := served.file.drain flight.covered })

theorem finishFsync_base (served : Served) (flight : Flight) :
    (served.finishFsync flight).2.base = served.base := by
  cases up : served.up <;> simp [finishFsync, up]

theorem finishFsync_issued (served : Served) (flight : Flight) :
    (served.finishFsync flight).2.issued = served.issued := by
  cases up : served.up <;> simp [finishFsync, up]

/-- The node loses power, which leaves this image on the platter. -/
def crash (served : Served) (image : List UInt8) : Served where
  file := .rebooted image
  up := false
  flights := (served.flights.filter fun flight => !flight.own).map fun flight =>
    { flight with outlived := true }
  base := image
  issued := []

/-- What can happen to a file that is not removed. A call that is refused changes nothing. -/
inductive Step (sector : ℕ) (served : Served) : Served → Prop where
  | writeAt (offset : ℕ) (data : List UInt8) (running : served.up = true) :
      Step sector served (served.issue (.write offset data))
  | truncate (len : ℕ) : Step sector served (served.issue (.truncate len))
  | startFsync (own : Bool) : Step sector served (served.startFsync own)
  | finishFsync {flight : Flight} (underWay : flight ∈ served.flights) :
      Step sector served (served.finishFsync flight).2
  | crash {image : List UInt8} (running : served.up = true)
      (lands : Lands (max sector 1) served.file.pending served.file.durable image) :
      Step sector served (served.crash image)
  | restart : Step sector served { served with up := true }

def Reached (sector : ℕ) : Served → Prop := Relation.ReflTransGen (Step sector) new

/-- The first `count` operations are on the platter, the others are pending, and every `fsync`
that the power has not failed on covers what was issued before it. -/
structure Accounts (served : Served) (count : ℕ) : Prop where
  inside : count ≤ served.issued.length
  durable : served.file.durable = (served.issued.take count).foldl PendingOp.apply served.base
  pending : served.file.pending = served.issued.drop count
  view : served.file.view = served.issued.foldl PendingOp.apply served.base
  covers : ∀ flight ∈ served.flights, flight.outlived = false →
    flight.since ≤ served.issued.length ∧ flight.since ≤ count + flight.covered
  own : ∀ flight ∈ served.flights, flight.own = true → flight.outlived = false

variable {served : Served} {count : ℕ}

theorem accounts_new : Accounts new 0 where
  inside := le_rfl
  durable := rfl
  pending := rfl
  view := rfl
  covers _ member := nomatch member
  own _ member := nomatch member

theorem Accounts.issue (accounts : Accounts served count) (op : PendingOp) :
    Accounts (served.issue op) count where
  inside := accounts.inside.trans (by simp [Served.issue])
  durable := by
    simp only [Served.issue, FileState.issue, take_append_of_le_length accounts.inside]
    exact accounts.durable
  pending := by
    simp only [Served.issue, FileState.issue, drop_append_of_le_length accounts.inside,
      accounts.pending]
  view := by
    simp only [Served.issue, FileState.issue, foldl_append, foldl_cons, foldl_nil,
      accounts.view]
  covers flight member fresh := by
    rcases accounts.covers flight member fresh with ⟨started, covered⟩
    exact ⟨by simp only [Served.issue, length_append]; omega, covered⟩
  own := accounts.own

theorem Accounts.startFsync (accounts : Accounts served count) (own : Bool) :
    Accounts (served.startFsync own) count where
  inside := accounts.inside
  durable := accounts.durable
  pending := accounts.pending
  view := accounts.view
  covers flight member fresh := by
    rcases mem_append.mp member with before | isNew
    · exact accounts.covers flight before fresh
    · rw [mem_singleton.mp isNew]
      refine ⟨le_rfl, ?_⟩
      simp only [accounts.pending, length_drop]
      omega
  own flight member isOwn := by
    rcases mem_append.mp member with before | isNew
    · exact accounts.own flight before isOwn
    · rw [mem_singleton.mp isNew]

/-- However the others went, a finished `fsync` leaves the operations before it on the platter. -/
theorem Accounts.finishFsync (accounts : Accounts served count) (up : served.up = true)
    (flight : Flight) :
    Accounts (served.finishFsync flight).2
      (min (count + flight.covered) served.issued.length) := by
  have isOk : (served.finishFsync flight).2 = { served with
      flights := served.flights.erase flight, file := served.file.drain flight.covered } := by
    simp [Served.finishFsync, up]
  rw [isOk]
  refine ⟨min_le_right _ _, ?_, ?_, accounts.view, ?_, ?_⟩
  · simp only [FileState.drain]
    rw [accounts.durable, accounts.pending, ← foldl_append, ← take_add,
      ← take_eq_take_min]
  · simp only [FileState.drain]
    rw [accounts.pending, drop_drop]
    rcases Nat.le_total (count + flight.covered) served.issued.length with within | beyond
    · rw [min_eq_left within]
    · rw [min_eq_right beyond, drop_eq_nil_of_le beyond, drop_length]
  · intro other member fresh
    rcases accounts.covers other (mem_of_mem_erase member) fresh with ⟨started, covered⟩
    exact ⟨started, by omega⟩
  · exact fun other member => accounts.own other (mem_of_mem_erase member)

theorem accounts_crash (served : Served) (image : List UInt8) :
    Accounts (served.crash image) 0 where
  inside := le_rfl
  durable := rfl
  pending := rfl
  view := rfl
  covers flight member fresh := by
    rcases mem_map.mp member with ⟨_, _, rfl⟩
    cases fresh
  own flight member isOwn := by
    rcases mem_map.mp member with ⟨before, kept, rfl⟩
    have foreign := (List.mem_filter.mp kept).2
    simp only at isOwn
    simp [isOwn] at foreign

theorem Reached.accounts (reached : Reached sector served) : ∃ count, Accounts served count := by
  induction reached with
  | refl => exact ⟨0, accounts_new⟩
  | @tail before after _ step ih =>
    rcases ih with ⟨count, accounts⟩
    cases step with
    | writeAt offset data running => exact ⟨count, accounts.issue _⟩
    | truncate len => exact ⟨count, accounts.issue _⟩
    | startFsync own => exact ⟨count, accounts.startFsync own⟩
    | finishFsync underWay =>
      cases up : before.up with
      | true => exact ⟨_, accounts.finishFsync up _⟩
      | false =>
        refine ⟨count, ?_⟩
        simp only [Served.finishFsync, up]
        exact ⟨accounts.inside, accounts.durable, accounts.pending, accounts.view,
          fun other member => accounts.covers other (mem_of_mem_erase member),
          fun other member => accounts.own other (mem_of_mem_erase member)⟩
    | crash running lands => exact ⟨0, accounts_crash before _⟩
    | restart =>
      exact ⟨count, accounts.inside, accounts.durable, accounts.pending, accounts.view,
        accounts.covers, accounts.own⟩

end Served

/-- What power loss may make of the platter with one operation pending: the operation takes
effect, it does not, or the part of a write before some sector boundary inside it does. -/
def PendingOp.MayLand (sector : ℕ) (op : PendingOp) (before after : List UInt8) : Prop :=
  after = op.apply before ∨ after = before ∨
    ∃ offset data kept, op = .write offset data ∧ 0 < kept ∧ kept < data.length ∧
      sector ∣ offset + kept ∧ after = splice before offset (data.take kept)

/-- What it may make of the platter with several pending, in this order. -/
def MayLandAll (sector : ℕ) : List PendingOp → List UInt8 → List UInt8 → Prop
  | [], before, after => after = before
  | op :: rest, before, after =>
    ∃ between, op.MayLand sector before between ∧ MayLandAll sector rest between after

theorem keepBytes_spec {offset total keepSectors : ℕ} (positive : 0 < sector)
    (nonempty : 0 < total)
    (torn : keepSectors < (offset + total - 1) / sector - offset / sector + 1)
    (some_kept : 0 < keepSectors) :
    0 < keepBytes sector offset total keepSectors ∧
      keepBytes sector offset total keepSectors < total ∧
      sector ∣ offset + keepBytes sector offset total keepSectors := by
  have ordered : offset / sector ≤ (offset + total - 1) / sector := Nat.div_le_div_right (by omega)
  have above : offset < (offset / sector + keepSectors) * sector := by
    calc offset < (offset / sector + 1) * sector := by
          rw [Nat.add_one_mul]
          exact Nat.lt_div_mul_add positive
      _ ≤ (offset / sector + keepSectors) * sector := Nat.mul_le_mul_right _ (by omega)
  have below : (offset / sector + keepSectors) * sector ≤ offset + total - 1 := by
    calc (offset / sector + keepSectors) * sector
        ≤ (offset + total - 1) / sector * sector := Nat.mul_le_mul_right _ (by omega)
      _ ≤ offset + total - 1 := Nat.div_mul_le_self _ _
  rw [keepBytes, if_neg some_kept.ne', min_eq_left (by omega)]
  refine ⟨by omega, by omega, offset / sector + keepSectors, ?_⟩
  rw [Nat.mul_comm sector]
  omega

theorem PendingOp.mayLand_land (positive : 0 < sector) {op : PendingOp} {fate : Fate}
    (possible : fate.Possible sector op) (before : List UInt8) :
    op.MayLand sector before (op.land sector before fate) := by
  cases fate with
  | lost => exact Or.inr (Or.inl (by cases op <;> rfl))
  | kept => exact Or.inl (by cases op <;> rfl)
  | torn keepSectors =>
    cases op with
    | truncate len => exact possible.elim
    | write offset data =>
      rcases possible with ⟨nonempty, torn⟩
      rcases Nat.eq_zero_or_pos keepSectors with rfl | some_kept
      · exact Or.inr (Or.inl (by simp [PendingOp.land, keepBytes]))
      · rcases keepBytes_spec positive nonempty torn some_kept with ⟨kept, short, aligned⟩
        refine Or.inr (Or.inr ⟨offset, data, _, rfl, kept, short, aligned, ?_⟩)
        simp only [PendingOp.land, if_pos kept]

theorem Lands.mayLandAll (positive : 0 < sector) {pending : List PendingOp}
    {before after : List UInt8} (lands : Lands sector pending before after) :
    MayLandAll sector pending before after := by
  induction lands with
  | done => rfl
  | next fate possible _ ih => exact ⟨_, PendingOp.mayLand_land positive possible _, ih⟩

namespace Served

structure KeepsPromise (sector : ℕ) (served : Served) : Prop where
  /-- Reads see the platter with everything pending replayed. -/
  view : served.file.view = served.file.pending.foldl PendingOp.apply served.file.durable
  /-- No task of the node itself awaits an `fsync` that the power has failed on. -/
  own : ∀ flight ∈ served.flights, flight.own = true → flight.outlived = false
  /-- An `fsync` that ends well leaves everything issued before it started on the platter. -/
  fsync : ∀ flight ∈ served.flights, flight.outlived = false →
    (served.finishFsync flight).1 = .ok () →
      ∃ count, flight.since ≤ count ∧ count ≤ served.issued.length ∧
        (served.finishFsync flight).2.file.durable =
          (served.issued.take count).foldl PendingOp.apply served.base
  /-- Power loss leaves what was on the platter and, of what is pending and in this order, all,
  nothing, or the first sectors of a write. -/
  powerLoss : ∀ image, Lands (max sector 1) served.file.pending served.file.durable image →
    (served.crash image).file.view = (served.crash image).file.durable ∧
      MayLandAll (max sector 1) served.file.pending served.file.durable
        (served.crash image).file.durable

/-- The promise is kept whatever overlaps. -/
theorem promise_kept (sector : ℕ) (served : Served) (reached : Reached sector served) :
    served.KeepsPromise sector := by
  rcases reached.accounts with ⟨count, accounts⟩
  refine ⟨?_, accounts.own, ?_, ?_⟩
  · rw [accounts.view, accounts.durable, accounts.pending, ← foldl_append,
      take_append_drop]
  · intro flight underWay fresh finished
    have up : served.up = true := by
      cases up : served.up with
      | true => rfl
      | false => simp [finishFsync, up] at finished
    have after := (accounts.finishFsync up flight).durable
    rw [finishFsync_base, finishFsync_issued] at after
    rcases accounts.covers flight underWay fresh with ⟨started, covered⟩
    exact ⟨_, by omega, min_le_right _ _, after⟩
  · intro image lands
    exact ⟨rfl, lands.mayLandAll (by omega)⟩

/-- A file with one write issued and an `fsync` under way for it, the write lost when the power
failed. A task of the node itself has started the `fsync` if `own`. -/
def interrupted (own : Bool) : Served :=
  { ((new.issue (.write 0 [1])).startFsync own).crash [] with up := true }

theorem reached_interrupted (own : Bool) : Reached 512 (interrupted own) := by
  have written : Reached 512 (new.issue (.write 0 [1])) := .single (.writeAt 0 [1] rfl)
  refine ((written.tail (.startFsync own)).tail (.crash rfl ?_)).tail .restart
  exact .all_lost _ _ _

/-- To a task of another node, the `fsync` ends well although the write before it is lost. -/
theorem interrupted_false_breaks_promise :
    Reached 512 (interrupted false) ∧
      ∃ flight ∈ (interrupted false).flights, flight.since = 1 ∧
        ((interrupted false).finishFsync flight).1 = .ok () ∧
        ((interrupted false).finishFsync flight).2.file.durable = [] :=
  ⟨reached_interrupted false, ⟨1, false, 1, true⟩, by decide, rfl, rfl, rfl⟩

/-- Two fsyncs overlap, and a write comes in between. -/
def overlapping : Served :=
  (((new.issue (.write 0 [1])).startFsync true).issue (.write 1 [2])).startFsync true

theorem overlapping_keeps_promise : overlapping.KeepsPromise 512 := by
  apply promise_kept 512 overlapping
  have written : Reached 512 (new.issue (.write 0 [1])) := .single (.writeAt 0 [1] rfl)
  exact ((written.tail (.startFsync true)).tail (.writeAt 1 [2] rfl)).tail (.startFsync true)

/-- How many of the operations issued are on the platter. -/
def settled (served : Served) : ℕ := served.issued.length - served.file.pending.length

def moved (served : Served) (flight : Flight) : List PendingOp :=
  served.file.pending.take flight.covered

/-- All that is moved was issued before the `fsync` started. -/
def Barred (served : Served) (flight : Flight) : Prop :=
  served.moved flight = [] ∨ served.settled + (served.moved flight).length ≤ flight.since

/-- What was on the platter when an `fsync` started, together with what it covers, is all that
had been issued. -/
def Begun (served : Served) : Prop :=
  ∀ flight ∈ served.flights, flight.outlived = false →
    flight.covered ≤ flight.since ∧ flight.since - flight.covered ≤ served.settled

theorem Begun.step {before after : Served} (begun : Begun before)
    (accounts : ∃ count, Accounts before count) (step : Step sector before after) :
    Begun after := by
  rcases accounts with ⟨count, accounts⟩
  have pending := congrArg List.length accounts.pending
  have inside := accounts.inside
  rw [length_drop] at pending
  intro flight member fresh
  cases step with
  | writeAt | truncate | restart =>
    have := begun flight member fresh
    simp only [settled, Served.issue, FileState.issue, length_append] at this ⊢
    omega
  | startFsync own =>
    rcases mem_append.mp member with old | isNew
    · exact begun flight old fresh
    · rw [mem_singleton.mp isNew]
      simp only [settled, Served.startFsync]
      omega
  | @finishFsync ended underWay =>
    have kept : flight ∈ before.flights := by
      cases up : before.up <;> simp only [finishFsync, up] at member <;>
        exact mem_of_mem_erase member
    have := begun flight kept fresh
    cases up : before.up <;>
      simp only [settled, finishFsync, up, FileState.drain] at this ⊢
    · exact this
    · refine ⟨this.1, ?_⟩
      simp only [Bool.not_true, Bool.false_eq_true, if_false, length_drop]
      omega
  | crash =>
    rcases mem_map.mp member with ⟨_, _, rfl⟩
    cases fresh

theorem Reached.begun (reached : Reached sector served) : Begun served := by
  induction reached with
  | refl => exact fun _ member => nomatch member
  | tail before step ih => exact ih.step (Reached.accounts before) step

/-- An `fsync` that the power has not failed on is an exact barrier just if nothing has been issued
since it started, or no other has made anything durable since, or it has nothing to move. -/
theorem fsync_barred_iff {sector : ℕ} (reached : Reached sector served) {flight : Flight}
    (underWay : flight ∈ served.flights) (fresh : flight.outlived = false) :
    served.Barred flight ↔ served.issued.length = flight.since ∨
      served.settled = flight.since - flight.covered ∨ served.moved flight = [] := by
  rcases reached.accounts with ⟨count, accounts⟩
  have covers := accounts.covers flight underWay fresh
  have begun := reached.begun flight underWay fresh
  have pending := congrArg List.length accounts.pending
  have inside := accounts.inside
  rw [length_drop] at pending
  have long : (served.moved flight).length = min flight.covered served.file.pending.length := by
    simp [moved]
  have nothing : served.moved flight = [] ↔ (served.moved flight).length = 0 :=
    length_eq_zero_iff.symm
  unfold settled at begun
  simp only [Barred, settled, nothing, long]
  omega

theorem overlapping_barred_iff :
    overlapping.Barred ⟨1, true, 1, false⟩ ↔ overlapping.issued.length = 1 ∨
      overlapping.settled = 1 - 1 ∨ overlapping.moved ⟨1, true, 1, false⟩ = [] := by
  have written : Reached 512 (new.issue (.write 0 [1])) := .single (.writeAt 0 [1] rfl)
  have reached : Reached 512 overlapping :=
    ((written.tail (.startFsync true)).tail (.writeAt 1 [2] rfl)).tail (.startFsync true)
  exact fsync_barred_iff reached (by decide) rfl

/-- Two fsyncs have started for one write, the first has ended, and another write has come in. -/
def overtaken : Served :=
  ((((new.issue (.write 0 [1])).startFsync true).startFsync true).finishFsync
    ⟨1, true, 1, false⟩).2.issue (.write 1 [2])

/-- The second moves the write that was issued after it started. -/
theorem overtaken_not_barred :
    Reached 512 overtaken ∧ ∃ flight ∈ overtaken.flights, flight.outlived = false ∧
      flight.since = 1 ∧ overtaken.moved flight = [.write 1 [2]] ∧
      (overtaken.finishFsync flight).2.file.durable = [1, 2] ∧ ¬ overtaken.Barred flight := by
  have written : Reached 512 (new.issue (.write 0 [1])) := .single (.writeAt 0 [1] rfl)
  refine ⟨?_, ⟨1, true, 1, false⟩, by decide, rfl, rfl, by decide, by decide, ?_⟩
  · exact ((((written.tail (.startFsync true)).tail (.startFsync true)).tail
      (.finishFsync (by decide))).tail (.writeAt 1 [2] rfl))
  · rintro (nothing | early)
    · cases nothing
    · exact absurd early (by decide)

end Served

end ChronoScope.Sim
