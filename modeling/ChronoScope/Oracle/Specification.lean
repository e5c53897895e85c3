import ChronoScope.Oracle.Linearizability
import ChronoScope.Intervals

/-!
# What linearizable means

A history is linearizable if all operations with a known outcome, and some of
the others, can be put in one order that respects real time and is accepted by
one register per key. It is enough to find such an order for every key
(`linearizable_of_keys`).
-/

namespace ChronoScope.Oracle

open List

/-- Real time allows the first operation to take effect before the second. -/
def MayPrecede : Event → Event → Prop := Intervals.MayPrecede Event.invoked Event.returned

/-- One register per key. -/
abbrev Registers := Key → Value

def Registers.step (registers : Registers) (event : Event) : Option Registers :=
  (Model.step { value := registers event.op.key } event).map fun model =>
    Function.update registers event.op.key model.value

/-- Execute operations one at a time, starting with all registers absent. -/
def execute (order : List Event) : Option Registers :=
  order.foldlM Registers.step fun _ => none

/-- The order is made of these events, up to some with unknown outcome that are left out. -/
def Covers (order events : List Event) : Prop :=
  ∃ skipped, (order ++ skipped).Perm events ∧ ∀ event ∈ skipped, event.isUnknown = true

structure Linearization (events order : List Event) : Prop where
  covers : Covers order events
  realTime : order.Pairwise MayPrecede
  accepted : (execute order).isSome = true

def History.Linearizable (history : History) : Prop :=
  ∃ order, Linearization history.events order

/-- A linearization of the operations of one key, on its register alone. -/
structure KeyLinearization (events order : List Event) : Prop where
  covers : Covers order events
  realTime : order.Pairwise MayPrecede
  accepted : (order.foldlM Model.step Model.new).isSome = true

variable {events order : List Event} {keys : List Key}

theorem Covers.mem (covers : Covers order events) {event : Event}
    (member : event ∈ order) : event ∈ events := by
  rcases covers with ⟨skipped, perm, _⟩
  exact perm.mem_iff.mp (mem_append_left _ member)

theorem Covers.perm {others : List Event} (covers : Covers order events)
    (same : events.Perm others) : Covers order others := by
  rcases covers with ⟨skipped, perm, unknown⟩
  exact ⟨skipped, perm.trans same, unknown⟩

theorem execute_isSome {registers : Registers}
    (accepted : ∀ key, ((order.filter fun event => decide (event.op.key = key)).foldlM Model.step
      { value := registers key }).isSome = true) :
    (order.foldlM Registers.step registers).isSome = true := by
  induction order generalizing registers with
  | nil => rfl
  | cons event rest ih =>
    have own := accepted event.op.key
    rw [filter_cons_of_pos (by simp), foldlM_cons] at own
    rw [foldlM_cons]
    cases stepped : Model.step { value := registers event.op.key } event with
    | none => simp [stepped] at own
    | some model =>
      have stepIs : registers.step event =
          some (Function.update registers event.op.key model.value) := by
        simp [Registers.step, stepped]
      rw [stepIs]
      refine ih ?_
      intro key
      by_cases same : key = event.op.key
      · subst same
        simpa [stepped] using own
      · have others := accepted key
        rw [filter_cons_of_neg (by simpa using fun isKey => same isKey.symm)] at others
        simpa [same] using others

theorem perm_flatMap_filter (distinct : keys.Nodup)
    (complete : ∀ event ∈ events, event.op.key ∈ keys) :
    (keys.flatMap fun key => events.filter fun event => decide (event.op.key = key)).Perm
      events := by
  induction keys generalizing events with
  | nil =>
    have empty : events = [] :=
      eq_nil_iff_forall_not_mem.mpr fun event member => by simpa using complete event member
    simp [empty]
  | cons key keys ih =>
    rw [nodup_cons] at distinct
    let others := events.filter fun event => !decide (event.op.key = key)
    have completeOthers : ∀ event ∈ others, event.op.key ∈ keys := by
      intro event member
      rcases List.mem_filter.mp member with ⟨inEvents, notKey⟩
      have := complete event inEvents
      simpa [show event.op.key ≠ key by simpa using notKey] using this
    have rest := ih distinct.2 completeOthers
    have sameParts : keys.flatMap (fun other =>
        events.filter fun event => decide (event.op.key = other)) =
        keys.flatMap fun other => others.filter fun event => decide (event.op.key = other) := by
      refine flatMap_congr ?_
      intro other inKeys
      rw [List.filter_filter]
      refine filter_congr ?_
      intro event _
      have distinctKey : other ≠ key := fun same => distinct.1 (same ▸ inKeys)
      by_cases isOther : event.op.key = other
      · simp [isOther, distinctKey]
      · simp [isOther]
    rw [flatMap_cons, sameParts]
    exact (List.Perm.append_left _ rest).trans (filter_append_perm _ events)

theorem filter_flatMap_key (distinct : keys.Nodup) {order : Key → List Event}
    (own : ∀ key ∈ keys, ∀ event ∈ order key, event.op.key = key) (key : Key) :
    (keys.flatMap order).filter (fun event => decide (event.op.key = key)) =
      if key ∈ keys then order key else [] := by
  induction keys with
  | nil => simp
  | cons head keys ih =>
    rw [nodup_cons] at distinct
    have ownHead := own head (mem_cons_self ..)
    have rest := ih distinct.2 fun other inKeys => own other (mem_cons_of_mem _ inKeys)
    rw [flatMap_cons, filter_append, rest]
    by_cases isHead : key = head
    · subst isHead
      rw [if_neg distinct.1, if_pos (mem_cons_self ..), append_nil]
      refine filter_eq_self.mpr ?_
      exact fun event member => by simpa using ownHead event member
    · have none_there : (order head).filter (fun event => decide (event.op.key = key)) = [] := by
        refine filter_eq_nil_iff.mpr ?_
        intro event member
        rw [ownHead event member]
        simpa using fun same => isHead same.symm
      simp [none_there, isHead]

theorem linearizable_of_keys {history : History}
    (proper : ∀ event ∈ history.events, event.invoked ≤ event.returned)
    (distinct : keys.Nodup) (complete : ∀ event ∈ history.events, event.op.key ∈ keys)
    (each : ∀ key ∈ keys, ∃ order, KeyLinearization (history.onKey key).events order) :
    history.Linearizable := by
  choose! order linearizes using each
  choose! skipped partition unknown using fun key (inKeys : key ∈ keys) =>
    (linearizes key inKeys).covers
  have inHistory : ∀ key ∈ keys, ∀ event ∈ order key,
      event ∈ history.events ∧ event.op.key = key := by
    intro key inKeys event member
    simpa [History.onKey] using (linearizes key inKeys).covers.mem member
  have own : ∀ key ∈ keys, ∀ event ∈ order key, event.op.key = key :=
    fun key inKeys event member => (inHistory key inKeys event member).2
  rcases Intervals.exists_merge Event.invoked Event.returned (keys.map order)
      (by
        intro group inOrders event member
        rcases mem_map.mp inOrders with ⟨key, inKeys, rfl⟩
        exact proper event (inHistory key inKeys event member).1)
      (by
        intro group inOrders
        rcases mem_map.mp inOrders with ⟨key, inKeys, rfl⟩
        exact (linearizes key inKeys).realTime) with ⟨merged, perm, realTime, contains⟩
  refine ⟨merged, ⟨keys.flatMap skipped, ?_, ?_⟩, realTime, ?_⟩
  · have together := flatMap_append_perm keys order skipped
    have parts : (keys.flatMap fun key => order key ++ skipped key).Perm
        (keys.flatMap fun key => (history.onKey key).events) :=
      List.Perm.flatMap_left keys fun key inKeys => partition key inKeys
    exact ((perm.append_right _).trans together).trans
      (parts.trans (perm_flatMap_filter distinct complete))
  · intro event member
    rcases mem_flatMap.mp member with ⟨key, inKeys, isSkipped⟩
    exact unknown key inKeys event isSkipped
  · apply execute_isSome
    intro key
    have filtered := perm.filter fun event => decide (event.op.key = key)
    have flat : (keys.map order).flatten = keys.flatMap order := rfl
    rw [flat, filter_flatMap_key distinct own] at filtered
    by_cases inKeys : key ∈ keys
    · rw [if_pos inKeys] at filtered
      have kept : (order key).Sublist (merged.filter fun event => decide (event.op.key = key)) := by
        have := (contains (order key) (mem_map_of_mem inKeys)).filter
          fun event => decide (event.op.key = key)
        rwa [filter_eq_self.mpr fun event member => by simpa using own key inKeys event member]
          at this
      rw [← kept.eq_of_length filtered.length_eq.symm]
      exact (linearizes key inKeys).accepted
    · rw [if_neg inKeys] at filtered
      rw [filtered.eq_nil]
      rfl

end ChronoScope.Oracle
