import ChronoScope.Collections

/-!
# Client histories

What was asked, when, and what came back. An operation whose outcome the client
never learned (`unknown`) may have taken effect or not.
-/

namespace ChronoScope.Oracle

abbrev Key := List UInt8

/-- A value in the store; `none` is absent. -/
abbrev Value := Option (List UInt8)

inductive Op where
  | read (key : Key)
  | write (key : Key) (value : List UInt8)
  | delete (key : Key)
  /-- Succeeds only if the current value is `expect`. -/
  | cas (key : Key) (expect value : Value)
  deriving DecidableEq

def Op.key : Op → Key
  | read key => key
  | write key _ => key
  | delete key => key
  | cas key _ _ => key

/-- What the client observed. -/
inductive Ret where
  | value (value : Value)
  | ok
  | casFailed
  | unknown
  deriving DecidableEq

structure Event where
  client : ℕ
  op : Op
  ret : Ret
  invoked : ℕ
  returned : ℕ
  deriving DecidableEq

namespace Event

def isUnknown (event : Event) : Bool := decide (event.ret = .unknown)

/-- Whether the windows of the two operations overlap. -/
def concurrentWith (event other : Event) : Bool :=
  decide (event.invoked < other.returned) && decide (other.invoked < event.returned)

/-- The order of `sorted`: by invocation, then return, then client. -/
def NotAfter (left right : Event) : Prop :=
  left.invoked < right.invoked ∨ left.invoked = right.invoked ∧
    (left.returned < right.returned ∨
      left.returned = right.returned ∧ left.client ≤ right.client)

instance : DecidableRel NotAfter := fun left right => by
  unfold NotAfter
  infer_instance

instance : IsTrans Event NotAfter := ⟨by
  intro left middle right first second
  unfold NotAfter at *
  omega⟩

instance : Std.Total NotAfter := ⟨by
  intro left right
  unfold NotAfter
  omega⟩

theorem NotAfter.invoked_le {left right : Event} (ordered : left.NotAfter right) :
    left.invoked ≤ right.invoked := by
  unfold NotAfter at ordered
  omega

end Event

structure History where
  events : List Event
  deriving DecidableEq

namespace History

def new : History := { events := [] }

def push (history : History) (event : Event) : History := { events := history.events ++ [event] }

/-- Sort by invocation time; the sort is stable. -/
def sorted (history : History) : History :=
  { events := history.events.insertionSort Event.NotAfter }

def file (out : BTreeMap Key History) (event : Event) : BTreeMap Key History :=
  out.insert event.op.key (((out.get event.op.key).getD new).push event)

/-- Split into one sub-history per key. -/
def byKey (history : History) : BTreeMap Key History :=
  (history.events.foldl file ∅).mapValues fun _ sub => sub.sorted

/-- The widest number of operations concurrent at any instant. -/
def maxConcurrency (history : History) : ℕ :=
  let points := history.events.flatMap fun event => [(event.invoked, (1 : ℤ)), (event.returned, -1)]
  let sweep := (points.insertionSort fun left right =>
    left.1 < right.1 ∨ left.1 = right.1 ∧ left.2 ≤ right.2).foldl
    (fun (counts : ℤ × ℤ) point => (counts.1 + point.2, max counts.2 (counts.1 + point.2))) (0, 0)
  sweep.2.toNat

theorem sorted_perm (history : History) : history.sorted.events.Perm history.events :=
  List.perm_insertionSort ..

theorem sorted_pairwise (history : History) :
    history.sorted.events.Pairwise fun left right => left.invoked ≤ right.invoked :=
  (List.pairwise_insertionSort Event.NotAfter _).imp Event.NotAfter.invoked_le

def onKey (history : History) (key : Key) : History :=
  { events := history.events.filter fun event => decide (event.op.key = key) }

private theorem get_foldl_file (events : List Event) (out : BTreeMap Key History) (key : Key) :
    (events.foldl file out).get key =
      if events.any (fun event => decide (event.op.key = key)) then
        some { events := ((out.get key).getD new).events ++
          events.filter fun event => decide (event.op.key = key) }
      else out.get key := by
  induction events generalizing out with
  | nil => simp
  | cons event rest ih =>
    rw [List.foldl_cons, ih, file, BTreeMap.get_insert]
    by_cases isKey : event.op.key = key
    · by_cases more : rest.any (fun event => decide (event.op.key = key))
      · simp [isKey, more, push, new]
      · have none_left : rest.filter (fun event => decide (event.op.key = key)) = [] := by
          simpa [List.filter_eq_nil_iff] using more
        simp [isKey, more, none_left, push]
    · have notKey : key ≠ event.op.key := fun same => isKey same.symm
      simp [isKey, notKey]

theorem get_byKey (history : History) (key : Key) :
    history.byKey.get key =
      if (history.onKey key).events = [] then none else some (history.onKey key).sorted := by
  rw [byKey, BTreeMap.get_mapValues, get_foldl_file]
  by_cases some_there : history.events.any (fun event => decide (event.op.key = key)) = true
  · have nonempty : (history.onKey key).events ≠ [] := by
      simpa [onKey, List.filter_eq_nil_iff] using some_there
    rw [if_pos some_there, if_neg nonempty]
    simp [onKey, new]
  · have empty : (history.onKey key).events = [] := by
      simpa [onKey, List.filter_eq_nil_iff] using some_there
    rw [if_neg some_there, if_pos empty]
    rfl

end History

end ChronoScope.Oracle
