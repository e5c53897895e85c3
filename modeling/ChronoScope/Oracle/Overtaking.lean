import ChronoScope.Oracle.Guides

/-!
# Overtaking

With a frontier operation that stays open long enough, an operation between the
frontier and the candidate can be overtaken although it returned before the
candidate was invoked. Whenever the invocation and return times allow this, some
observations at these times pass although they are not linearizable: the
overtaken operation is a write, the overtaking one reads the value from before
it, and nothing else has an effect. So the times alone decide whether all
verdicts `linearizable` are right (`sound_iff_noOvertaking`).
-/

namespace ChronoScope.Oracle

open List

/-- Nothing on the key can change the value it has. -/
def Sticks (events : List Event) (key : Key) (value : Value) : Prop :=
  ∀ event ∈ events, event.op.key = key → ∀ model,
    Model.step { value := value } event = some model → model.value = value

theorem Sticks.foldlM {events order : List Event} {key : Key} {value : Value}
    (sticks : Sticks events key value) (inside : ∀ event ∈ order, event ∈ events)
    {before after : Registers} (isValue : before key = value)
    (ran : order.foldlM Registers.step before = some after) : after key = value := by
  induction order generalizing before with
  | nil =>
    cases ran
    exact isValue
  | cons event rest ih =>
    rw [foldlM_cons] at ran
    rcases Option.bind_eq_some_iff.mp ran with ⟨between, stepped, ran⟩
    refine ih (fun other member => inside other (mem_cons_of_mem _ member)) ?_ ran
    rcases Option.map_eq_some_iff.mp stepped with ⟨model, accepted, rfl⟩
    by_cases same : event.op.key = key
    · subst same
      rw [isValue] at accepted
      simpa using sticks event (inside event (mem_cons_self ..)) rfl model accepted
    · rw [Function.update_of_ne fun isKey => same isKey.symm]
      exact isValue

theorem exists_split {α : Type*} {r : α → α → Prop} {order : List α} (ordered : order.Pairwise r)
    {first second : α} (isFirst : first ∈ order) (isSecond : second ∈ order)
    (distinct : first ≠ second) (notBefore : ¬ r second first) :
    ∃ pre mid post, order = pre ++ first :: (mid ++ second :: post) := by
  rcases append_of_mem isFirst with ⟨pre, rest, rfl⟩
  rw [pairwise_append] at ordered
  rcases mem_append.mp isSecond with earlier | later
  · exact absurd (ordered.2.2 second earlier first (mem_cons_self ..)) notBefore
  · rcases mem_cons.mp later with same | later
    · exact absurd same.symm distinct
    · rcases append_of_mem later with ⟨mid, post, rfl⟩
      exact ⟨pre, mid, post, rfl⟩

theorem Covers.mem_of_known {order events : List Event} (covers : Covers order events)
    {event : Event} (member : event ∈ events) (known : event.isUnknown = false) :
    event ∈ order := by
  rcases covers with ⟨skipped, perm, unknown⟩
  rcases mem_append.mp (perm.mem_iff.mpr member) with isTaken | isSkipped
  · exact isTaken
  · simp [unknown event isSkipped] at known

/-- A write that has returned, and a later read that finds its key absent although nothing
removes what was written. -/
structure Misses (history : History) (write read : Event) (key : Key) (value : List UInt8) :
    Prop where
  isWrite : write ∈ history.events ∧ write.op = .write key value ∧ write.ret = .ok
  isRead : read ∈ history.events ∧ read.op = .read key ∧ read.ret = .value none
  before : write.returned < read.invoked
  sticks : Sticks history.events key (some value)

theorem Misses.not_linearizable {history : History} {write read : Event} {key : Key}
    {value : List UInt8} (misses : Misses history write read key value) :
    ¬ history.Linearizable := by
  rintro ⟨order, linearizes⟩
  rcases misses.isWrite with ⟨writeMember, writeOp, writeRet⟩
  rcases misses.isRead with ⟨readMember, readOp, readRet⟩
  have distinct : write ≠ read := by
    intro same
    rw [same, readOp] at writeOp
    cases writeOp
  have writeTaken := linearizes.covers.mem_of_known writeMember
    (by simp [Event.isUnknown, writeRet])
  have readTaken := linearizes.covers.mem_of_known readMember (by simp [Event.isUnknown, readRet])
  rcases exists_split linearizes.realTime writeTaken readTaken distinct
    (Nat.not_le.mpr misses.before) with ⟨pre, mid, post, rfl⟩
  rcases Option.isSome_iff_exists.mp linearizes.accepted with ⟨final, ran⟩
  simp only [execute, foldlM_append, foldlM_cons] at ran
  rcases Option.bind_eq_some_iff.mp ran with ⟨registers, _, ran⟩
  rcases Option.bind_eq_some_iff.mp ran with ⟨written, wrote, ran⟩
  rcases Option.bind_eq_some_iff.mp ran with ⟨found, kept, ran⟩
  rcases Option.bind_eq_some_iff.mp ran with ⟨_, observed, _⟩
  have isWritten : written key = some value := by
    simp only [Registers.step, Model.step, writeOp, writeRet, Op.key, Option.map_some,
      Option.some.injEq] at wrote
    simp [← wrote]
  have stillThere : found key = some value :=
    misses.sticks.foldlM
      (fun event member => linearizes.covers.mem (by simp [member])) isWritten kept
  simp [Registers.step, Model.step, readOp, readRet, Op.key, stillThere] at observed

section Paths

variable {events : List Event}

/-- A write between an open operation and a candidate that reads what was before it. -/
structure Overtakes (events : List Event) (first early late : ℕ)
    (blocking write read : Event) : Prop where
  positions : 0 < early ∧ early < late ∧ late ≤ ahead
  isBlocking : events[first]? = some blocking
  isWrite : events[first + early]? = some write
  isRead : events[first + late]? = some read
  open_ : write.invoked ≤ blocking.returned ∧ read.invoked ≤ blocking.returned
  accepts : ∃ model, Model.step { value := none } write = some model
  misses : Model.step { value := none } read = some { value := none }
  others : ∀ index event, index ≠ first + early → index ≠ first + late →
    events[index]? = some event → event.isUnknown = true

theorem Overtakes.exists_path
    (sorted : events.Pairwise fun left right => left.invoked ≤ right.invoked)
    (proper : ∀ event ∈ events, event.invoked ≤ event.returned) {first early late : ℕ}
    {blocking write read : Event}
    (overtakes : Overtakes events first early late blocking write read) :
    ∃ last : Config, Search.Path (moves events) root last ∧ last.2.1 = events.length := by
  rcases overtakes.positions with ⟨early_pos, early_lt, late_le⟩
  rcases overtakes.accepts with ⟨model, accepts⟩
  have lateInside := (List.getElem?_eq_some_iff.mp overtakes.isRead).1
  have leftOut (index : ℕ) (inside : index < events.length) (notEarly : index ≠ first + early)
      (notLate : index ≠ first + late) :
      ∃ event, events[index]? = some event ∧ event.isUnknown = true :=
    ⟨_, List.getElem?_eq_getElem inside,
      overtakes.others index _ notEarly notLate (List.getElem?_eq_getElem inside)⟩
  have replays : Replays events none
      (detour events.length first (first + late) (first + early)) model.value := by
    refine (Replays.unknown none ?_).append
      (.next overtakes.isRead (Or.inr overtakes.misses)
        (.next overtakes.isWrite (Or.inr accepts) (Replays.unknown _ ?_)))
    · intro index member
      rw [mem_range] at member
      exact leftOut index (by omega) (by omega) (by omega)
    · intro index member
      rw [List.mem_filter, List.mem_range'_1, decide_eq_true_eq] at member
      exact leftOut index (by omega) (by omega) (by omega)
  exact exists_path_of_detour sorted proper overtakes.isBlocking overtakes.isRead overtakes.isWrite
    (by omega) ⟨overtakes.open_.2, overtakes.open_.1⟩ replays

end Paths

/-- What does not depend on what was asked of the key and observed. -/
def Event.window (event : Event) : ℕ × Key × ℕ × ℕ :=
  (event.client, event.op.key, event.invoked, event.returned)

namespace History

/-- The histories differ only in what was asked of the keys and what was observed. -/
def SameWindows (history other : History) : Prop :=
  history.events.map Event.window = other.events.map Event.window

/-- The events of a key, sorted, with their positions in the history. -/
def tagged (history : History) (key : Key) : List (Event × ℕ) :=
  (history.events.zipIdx.filter fun event => decide (event.1.op.key = key)).insertionSort
    fun left right => left.1.NotAfter right.1

/-- The history with every event replaced, position by position. -/
def relabel (history : History) (replace : Event × ℕ → Event) : History :=
  { events := history.events.zipIdx.map replace }

variable {history other : History}

theorem SameWindows.exists_mem (same : history.SameWindows other) {event : Event}
    (member : event ∈ history.events) : ∃ event' ∈ other.events, event'.window = event.window := by
  have inBoth : event.window ∈ other.events.map Event.window := same ▸ mem_map_of_mem member
  simpa using inBoth

theorem SameWindows.proper (same : history.SameWindows other)
    (proper : ∀ event ∈ other.events, event.invoked ≤ event.returned) :
    ∀ event ∈ history.events, event.invoked ≤ event.returned := by
  intro event member
  rcases same.exists_mem member with ⟨event', member', sameWindow⟩
  have times := proper event' member'
  simp only [Event.window, Prod.mk.injEq] at sameWindow
  omega

/-- The windows decide which events are looked at for a key, and in which order. -/
theorem map_window_keyEvents (history : History) (key : Key) :
    (history.keyEvents key).map Event.window =
      ((history.events.map Event.window).filter fun window =>
        decide (window.2.1 = key)).insertionSort
        fun left right => left.2.2.1 < right.2.2.1 ∨ left.2.2.1 = right.2.2.1 ∧
          (left.2.2.2 < right.2.2.2 ∨ left.2.2.2 = right.2.2.2 ∧ left.1 ≤ right.1) := by
  rw [filter_map]
  exact map_insertionSort _ _ Event.window _ fun _ _ _ _ => Iff.rfl

theorem SameWindows.noOvertaking (same : history.SameWindows other)
    (noOvertaking : other.NoOvertaking) : history.NoOvertaking := by
  intro key first second third blocking overtaken overtaking lt lt' le isBlocking isOvertaken
    isOvertaking
  have sameKey : (history.keyEvents key).map Event.window =
      (other.keyEvents key).map Event.window := by
    rw [map_window_keyEvents, map_window_keyEvents, same]
  have counterpart {index : ℕ} {event : Event}
      (found : (history.keyEvents key)[index]? = some event) :
      ∃ event', (other.keyEvents key)[index]? = some event' ∧ event'.window = event.window := by
    have atIndex := congrArg (fun windows => windows[index]?) sameKey
    simpa [found] using atIndex.symm
  rcases counterpart isBlocking with ⟨blocking', isBlocking', windowBlocking⟩
  rcases counterpart isOvertaken with ⟨overtaken', isOvertaken', windowOvertaken⟩
  rcases counterpart isOvertaking with ⟨overtaking', isOvertaking', windowOvertaking⟩
  have never := noOvertaking key first second third blocking' overtaken' overtaking' lt lt' le
    isBlocking' isOvertaken' isOvertaking'
  simp only [Event.window, Prod.mk.injEq] at windowBlocking windowOvertaken windowOvertaking
  omega

variable {replace : Event × ℕ → Event}

theorem sameWindows_relabel (history : History)
    (keeps : ∀ event, (replace event).window = event.1.window) :
    (history.relabel replace).SameWindows history := by
  simp only [SameWindows, relabel, map_map]
  rw [← zipIdx_map_fst 0 history.events, map_map, zipIdx_map_fst]
  exact map_congr_left fun event _ => keeps event

theorem relabel_fst (history : History) : history.relabel Prod.fst = history :=
  congrArg History.mk (zipIdx_map_fst ..)

theorem mem_tagged {key : Key} {event : Event} {tag : ℕ} :
    (event, tag) ∈ history.tagged key ↔ history.events[tag]? = some event ∧ event.op.key = key := by
  rw [tagged, (perm_insertionSort ..).mem_iff, List.mem_filter, mem_zipIdx_iff_getElem?]
  simp

theorem tagged_nodup (history : History) (key : Key) :
    ((history.tagged key).map Prod.snd).Nodup := by
  have perm := (perm_insertionSort (fun left right : Event × ℕ => left.1.NotAfter right.1)
    (history.events.zipIdx.filter fun event => decide (event.1.op.key = key))).map Prod.snd
  refine perm.nodup_iff.mpr (List.Nodup.sublist (filter_sublist.map _) ?_)
  simp [nodup_range']

theorem tagged_index_eq {key : Key} {index index' : ℕ} {event event' : Event × ℕ}
    (found : (history.tagged key)[index]? = some event)
    (found' : (history.tagged key)[index']? = some event') (same : event.2 = event'.2) :
    index = index' := by
  have inside : index < ((history.tagged key).map Prod.snd).length := by
    simpa using (List.getElem?_eq_some_iff.mp found).1
  refine (getElem?_inj inside (history.tagged_nodup key)).mp ?_
  simp [found, found', same]

theorem keyEvents_relabel (history : History)
    (keeps : ∀ event, (replace event).window = event.1.window) (key : Key) :
    (history.relabel replace).keyEvents key = (history.tagged key).map replace := by
  have fields (event : Event × ℕ) : (replace event).client = event.1.client ∧
      (replace event).op.key = event.1.op.key ∧ (replace event).invoked = event.1.invoked ∧
      (replace event).returned = event.1.returned := by
    simpa [Event.window] using keeps event
  rw [tagged, map_insertionSort _ Event.NotAfter replace]
  · simp only [keyEvents, sorted, onKey, relabel, filter_map]
    congr 2
    refine filter_congr fun event _ => ?_
    simp [(fields event).2.1]
  · intro left _ right _
    simp [Event.NotAfter, fields]

end History

/-- Observations that miss a write: one event writes, one finds its key absent, and of the
others the outcome is not known. -/
def missing (write read : ℕ) (event : Event × ℕ) : Event :=
  let key := event.1.op.key
  if event.2 = write then { event.1 with op := .write key [0], ret := .ok }
  else if event.2 = read then { event.1 with op := .read key, ret := .value none }
  else { event.1 with op := .read key, ret := .unknown }

section Missing

variable {write read : ℕ} {event : Event}

theorem missing_window (write read : ℕ) (event : Event × ℕ) :
    (missing write read event).window = event.1.window := by
  unfold missing
  split_ifs <;> rfl

theorem missing_other {tag : ℕ} (notWrite : tag ≠ write) (notRead : tag ≠ read) :
    (missing write read (event, tag)).isUnknown = true := by
  simp [missing, notWrite, notRead, Event.isUnknown]

theorem missing_sticks (events : List (Event × ℕ)) (key : Key) :
    Sticks (events.map (missing write read)) key (some [0]) := by
  intro event member _ model stepped
  rcases mem_map.mp member with ⟨original, _, rfl⟩
  unfold missing at stepped
  split_ifs at stepped
  · cases stepped
    rfl
  · simp [Model.step] at stepped
  · cases stepped
    rfl

end Missing

/-- Searches that reach their ends for every key pass under any limit that lets them. -/
theorem check_of_paths {history : History} {limits : Limits}
    (uncut : ∀ key, history.keyEvents key ≠ [] → ∀ goal,
      Search.dfs (moves (history.keyEvents key)) goal limits.maxStates []
        [(root, moves (history.keyEvents key) root)] ≠ .cut)
    (paths : ∀ key, ∃ last : Config, Search.Path (moves (history.keyEvents key)) root last ∧
      last.2.1 = (history.keyEvents key).length) :
    check history limits = .linearizable := by
  refine check_eq_linearizable_iff.mpr ?_
  intro key occurs
  rcases paths key with ⟨last, path, done⟩
  exact Search.found_of_path (uncut key occurs _) path (by simpa [isDone] using done)

/-- An operation that can overtake another, with their positions in the history. -/
structure Overtaking (history : History) (key : Key) (first early late : ℕ)
    (blocking overtaken overtaking : Event × ℕ) : Prop where
  positions : 0 < early ∧ early < late ∧ late ≤ ahead
  isBlocking : (history.tagged key)[first]? = some blocking
  isOvertaken : (history.tagged key)[first + early]? = some overtaken
  isOvertaking : (history.tagged key)[first + late]? = some overtaking
  returned : overtaken.1.returned < overtaking.1.invoked
  open_ : overtaking.1.invoked ≤ blocking.1.returned

theorem exists_overtaking {history : History} (overtaking : ¬ history.NoOvertaking) :
    ∃ key first early late blocking overtaken overtaking,
      Overtaking history key first early late blocking overtaken overtaking := by
  simp only [History.NoOvertaking, NoOvertaking, not_forall, not_not] at overtaking
  rcases overtaking with ⟨key, first, second, third, blocking, overtaken, overtaking, lt, lt', le,
    isBlocking, isOvertaken, isOvertaking, returned, stillOpen⟩
  have keyIs : history.keyEvents key = (history.tagged key).map Prod.fst := by
    rw [← History.keyEvents_relabel history (fun _ => rfl), History.relabel_fst]
  rw [keyIs, getElem?_map, Option.map_eq_some_iff] at isBlocking isOvertaken isOvertaking
  rcases isBlocking with ⟨blocking, isBlocking, rfl⟩
  rcases isOvertaken with ⟨overtaken, isOvertaken, rfl⟩
  rcases isOvertaking with ⟨overtaking, isOvertaking, rfl⟩
  rcases Nat.exists_eq_add_of_lt lt with ⟨early, rfl⟩
  rcases Nat.exists_eq_add_of_lt (lt.trans lt') with ⟨late, rfl⟩
  exact ⟨key, first, early + 1, late + 1, blocking, overtaken, overtaking, by omega, isBlocking,
    isOvertaken, isOvertaking, returned, stillOpen⟩

section Wrong

variable {history : History} {key : Key} {first early late : ℕ}
  {blocking overtaken overtaking : Event × ℕ}
  (overtakable : Overtaking history key first early late blocking overtaken overtaking)

include overtakable

theorem Overtaking.distinct : overtaking.2 ≠ overtaken.2 := by
  intro same
  have := History.tagged_index_eq overtakable.isOvertaking overtakable.isOvertaken same
  have := overtakable.positions
  omega

theorem Overtaking.misses :
    Misses (history.relabel (missing overtaken.2 overtaking.2))
      (missing overtaken.2 overtaking.2 overtaken) (missing overtaken.2 overtaking.2 overtaking)
      key [0] := by
  have mem {event : Event × ℕ} (isTagged : event ∈ history.tagged key) :
      missing overtaken.2 overtaking.2 event ∈
        (history.relabel (missing overtaken.2 overtaking.2)).events ∧ event.1.op.key = key := by
    rcases History.mem_tagged.mp isTagged with ⟨found, isKey⟩
    exact ⟨mem_map_of_mem (mem_zipIdx_iff_getElem?.mpr found), isKey⟩
  rcases mem (mem_of_getElem? overtakable.isOvertaken) with ⟨written, writtenKey⟩
  rcases mem (mem_of_getElem? overtakable.isOvertaking) with ⟨read, readKey⟩
  refine ⟨⟨written, ?_, ?_⟩, ⟨read, ?_, ?_⟩, ?_, missing_sticks _ _⟩
  · simp [missing, writtenKey]
  · simp [missing]
  · simp [missing, overtakable.distinct, readKey]
  · simp [missing, overtakable.distinct]
  · simpa [missing, overtakable.distinct] using overtakable.returned

theorem Overtaking.overtakes (proper : ∀ event ∈ history.events, event.invoked ≤ event.returned) :
    Overtakes ((history.relabel (missing overtaken.2 overtaking.2)).keyEvents key) first early late
      (missing overtaken.2 overtaking.2 blocking) (missing overtaken.2 overtaking.2 overtaken)
      (missing overtaken.2 overtaking.2 overtaking) := by
  have properTagged : overtaken.1.invoked ≤ overtaken.1.returned := by
    have isTagged := History.mem_tagged.mp (mem_of_getElem? overtakable.isOvertaken)
    exact proper _ (mem_of_getElem? isTagged.1)
  have window (event : Event × ℕ) := missing_window overtaken.2 overtaking.2 event
  simp only [Event.window, Prod.mk.injEq] at window
  have returned := overtakable.returned
  have stillOpen := overtakable.open_
  rw [History.keyEvents_relabel _ (missing_window _ _)]
  refine ⟨overtakable.positions, ?_, ?_, ?_, ⟨?_, ?_⟩, ?_, ?_, ?_⟩
  · simp [overtakable.isBlocking]
  · simp [overtakable.isOvertaken]
  · simp [overtakable.isOvertaking]
  · rw [(window overtaken).2.2.1, (window blocking).2.2.2]
    omega
  · rw [(window overtaking).2.2.1, (window blocking).2.2.2]
    omega
  · exact ⟨{ value := some [0] }, by simp [missing, Model.step]⟩
  · simp [missing, overtakable.distinct, Model.step]
  · intro index event notEarly notLate found
    rw [getElem?_map, Option.map_eq_some_iff] at found
    rcases found with ⟨original, found, rfl⟩
    refine missing_other ?_ ?_
    · exact fun same => notEarly (History.tagged_index_eq found overtakable.isOvertaken same)
    · exact fun same => notLate (History.tagged_index_eq found overtakable.isOvertaking same)

theorem Overtaking.unknown {other : Key} (distinct : other ≠ key) {event : Event}
    (member : event ∈ (history.relabel (missing overtaken.2 overtaking.2)).keyEvents other) :
    event.isUnknown = true := by
  rw [History.keyEvents_relabel _ (missing_window _ _)] at member
  rcases mem_map.mp member with ⟨⟨original, tag⟩, isTagged, rfl⟩
  rcases History.mem_tagged.mp isTagged with ⟨found, isOther⟩
  have elsewhere {there : Event × ℕ} (isThere : there ∈ history.tagged key) : tag ≠ there.2 := by
    rintro rfl
    rcases History.mem_tagged.mp isThere with ⟨found', isKey⟩
    cases found.symm.trans found'
    exact distinct (isOther.symm.trans isKey)
  exact missing_other (elsewhere (mem_of_getElem? overtakable.isOvertaken))
    (elsewhere (mem_of_getElem? overtakable.isOvertaking))

end Wrong

/-- Times that allow overtaking allow observations that pass but are not linearizable. -/
theorem exists_wrongly_passed {history : History}
    (proper : ∀ event ∈ history.events, event.invoked ≤ event.returned)
    (overtaking : ¬ history.NoOvertaking) :
    ∃ other : History, other.SameWindows history ∧
      (∃ limits, check other limits = .linearizable) ∧ ¬ other.Linearizable := by
  rcases exists_overtaking overtaking with
    ⟨key, first, early, late, blocking, overtaken, overtaking,
    overtakes⟩
  let other := history.relabel (missing overtaken.2 overtaking.2)
  have sameWindows : other.SameWindows history := history.sameWindows_relabel (missing_window _ _)
  have properKey (key : Key) : ∀ event ∈ other.keyEvents key, event.invoked ≤ event.returned :=
    fun event member => sameWindows.proper proper event (mem_keyEvents.mp member).1
  rcases exists_limits other with ⟨limits, uncut⟩
  refine ⟨other, sameWindows, ⟨limits, check_of_paths uncut ?_⟩, overtakes.misses.not_linearizable⟩
  intro key'
  by_cases same : key' = key
  · subst same
    exact (overtakes.overtakes proper).exists_path (keyEvents_sorted _) (properKey _)
  · exact exists_path_of_unknown (keyEvents_sorted _) (properKey _)
      fun event member => overtakes.unknown same member

/-- For given invocation and return times, whatever passes is linearizable exactly if no
operation can overtake another. -/
theorem sound_iff_noOvertaking (history : History)
    (proper : ∀ event ∈ history.events, event.invoked ≤ event.returned) :
    (∀ other : History, other.SameWindows history → ∀ limits,
      check other limits = .linearizable → other.Linearizable) ↔ history.NoOvertaking := by
  refine ⟨?_, ?_⟩
  · intro sound
    by_contra overtaking
    rcases exists_wrongly_passed proper overtaking with ⟨other, same, ⟨limits, passes⟩, wrong⟩
    exact wrong (sound other same limits passes)
  · intro noOvertaking other same limits passes
    exact linearizable_of_check (same.proper proper) (same.noOvertaking noOvertaking) passes

/-- A read during which a write returns, and a read after both. -/
def readAroundWrite : History :=
  { events := [⟨1, .read [107], .value (some [97]), 0, 10⟩, ⟨2, .write [107] [97], .ok, 1, 2⟩,
      ⟨3, .read [107], .value (some [97]), 11, 12⟩] }

theorem noOvertaking_readAroundWrite : readAroundWrite.NoOvertaking := by
  intro key first second third blocking overtaken overtaking lt lt' _ isFirst _ isThird
  have inside := (List.getElem?_eq_some_iff.mp isThird).1
  have isKey : [107] = key := by
    have member := mem_keyEvents.mp (mem_of_getElem? isThird)
    rw [← member.2]
    exact (by decide : ∀ event ∈ readAroundWrite.events, [107] = event.op.key) _ member.1
  subst isKey
  have atMost : (readAroundWrite.keyEvents [107]).length = 3 := by decide
  obtain rfl : first = 0 := by omega
  obtain rfl : third = 2 := by omega
  cases isFirst.symm.trans (by decide : _ = some (⟨1, .read [107], .value (some [97]), 0, 10⟩))
  cases isThird.symm.trans (by decide : _ = some (⟨3, .read [107], .value (some [97]), 11, 12⟩))
  simp

/-- Nothing that passes at the times of `readAroundWrite` is wrong. -/
theorem sound_readAroundWrite :
    (∀ event ∈ readAroundWrite.events, event.invoked ≤ event.returned) ∧
      ∀ other : History, other.SameWindows readAroundWrite → ∀ limits,
        check other limits = .linearizable → other.Linearizable :=
  ⟨by decide, (sound_iff_noOvertaking readAroundWrite (by decide)).mpr noOvertaking_readAroundWrite⟩

/-- A long read, a write that returns during it, and after that a read of the value before. -/
def overtakenWrite : History :=
  { events := [⟨1, .read [107], .value (some [97]), 0, 100⟩, ⟨2, .write [107] [97], .ok, 1, 2⟩,
      ⟨3, .read [107], .value none, 3, 4⟩] }

theorem overtakenWrite_passes :
    (∀ event ∈ overtakenWrite.events, event.invoked ≤ event.returned) ∧
      check overtakenWrite .default = .linearizable ∧ ¬ overtakenWrite.Linearizable := by
  refine ⟨by decide, by decide +kernel, ?_⟩
  have misses : Misses overtakenWrite ⟨2, .write [107] [97], .ok, 1, 2⟩
      ⟨3, .read [107], .value none, 3, 4⟩ [107] [97] := by
    refine ⟨by decide, by decide, by decide, ?_⟩
    intro event member _ model stepped
    simp only [overtakenWrite, mem_cons, not_mem_nil, or_false] at member
    rcases member with rfl | rfl | rfl
    · cases stepped
      rfl
    · cases stepped
      rfl
    · simp [Model.step] at stepped
  exact misses.not_linearizable

end ChronoScope.Oracle
