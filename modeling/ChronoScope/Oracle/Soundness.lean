import ChronoScope.Oracle.Placement
import ChronoScope.Oracle.Specification

/-!
# What the checker passes

A path of the search that places everything is an order of the operations that
the register accepts. The search compares a candidate with the frontier
operation only, so the order respects real time if no operation can overtake one
that returned before it was invoked. Then the verdict `linearizable` is right
(`linearizable_of_check`).
-/

namespace ChronoScope.Oracle

open List

def taken (events : List Event) (trace : List (ℕ × Bool)) : List Event :=
  (trace.filter fun choice => !choice.2).filterMap fun choice => events[choice.1]?

def leftOut (events : List Event) (trace : List (ℕ × Bool)) : List Event :=
  (trace.filter fun choice => choice.2).filterMap fun choice => events[choice.1]?

/-- The choices that led to a configuration. -/
structure Traces (events : List Event) (config : Config) (trace : List (ℕ × Bool)) : Prop where
  narrow : Narrow config.2.2
  placed : ∀ index, index ∈ trace.map Prod.fst ↔ Placed config.2.1 config.2.2 index
  distinct : (trace.map Prod.fst).Nodup
  inside : ∀ index ∈ trace.map Prod.fst, index < events.length
  skipped : ∀ index event, (index, true) ∈ trace → events[index]? = some event →
    event.isUnknown = true
  value : (taken events trace).foldlM Model.step Model.new = some { value := config.1 }

def root : Config := (none, 0, 0)

variable {events : List Event}

theorem Traces.root : Traces events root [] where
  narrow := narrow_zero
  placed index := by simp [Oracle.root, Placed]
  distinct := .nil
  inside _ member := nomatch member
  skipped _ _ member := nomatch member
  value := rfl

variable {skip : Bool} {config : Config} {event : Event} {limits : Limits} {trace : List (ℕ × Bool)}
  {model : Model}

theorem taken_append {index : ℕ}
    (found : events[index]? = some event) :
    taken events (trace ++ [(index, skip)]) =
      taken events trace ++ if skip then [] else [event] := by
  cases skip <;> simp [taken, found]

variable {offset : ℕ}

theorem Traces.move (traces : Traces events config trace)
    (admits : Admits events config offset skip event model) :
    Traces events (config.after offset model) (trace ++ [(config.2.1 + offset, skip)]) where
  narrow := narrow_place traces.narrow admits.window
  placed index := by
    rw [map_append, mem_append, traces.placed, Config.after,
      placed_place traces.narrow]
    simp
  distinct := by
    rw [map_append, nodup_append]
    refine ⟨traces.distinct, by simp, ?_⟩
    intro index member other isNew same
    have newIs : other = config.2.1 + offset := by simpa using isNew
    rw [same, newIs, traces.placed] at member
    exact admits.unplaced member
  inside index member := by
    rw [map_append, mem_append] at member
    rcases member with before | isNew
    · exact traces.inside index before
    · have newIs : index = config.2.1 + offset := by simpa using isNew
      rw [newIs]
      exact (List.getElem?_eq_some_iff.mp admits.present).1
  skipped index other member found := by
    rcases mem_append.mp member with before | isNew
    · exact traces.skipped index other before found
    · have newIs : index = config.2.1 + offset ∧ true = skip := by simpa using isNew
      have effect := admits.effect
      rw [newIs.1, admits.present] at found
      cases found
      rw [if_pos newIs.2.symm] at effect
      exact effect.1
  value := by
    have effect := admits.effect
    rw [taken_append admits.present, foldlM_append, traces.value]
    cases skip with
    | true =>
      rw [if_pos rfl] at effect
      simp [Config.after, effect.2]
    | false =>
      rw [if_neg (by simp)] at effect
      simp [Config.after, effect]

theorem map_range (events : List Event) :
    (List.range events.length).map (fun index => events[index]?) = events.map some := by
  apply ext_getElem
  · simp
  · intro index inRange inEvents
    simp at inEvents ⊢

theorem filterMap_range (events : List Event) :
    (List.range events.length).filterMap (fun index => events[index]?) = events := by
  have := congrArg (List.filterMap id) (map_range events)
  simpa [filterMap_map, Function.comp_def] using this

theorem Traces.perm
    (traces : Traces events config trace) (done : config.2.1 = events.length) :
    (taken events trace ++ leftOut events trace).Perm events := by
  have indices : (trace.map Prod.fst).Perm (List.range events.length) := by
    refine (perm_ext_iff_of_nodup traces.distinct nodup_range).mpr ?_
    intro index
    rw [mem_range]
    refine ⟨traces.inside index, ?_⟩
    intro below
    rw [traces.placed, done]
    exact Or.inl below
  have split : (taken events trace ++ leftOut events trace).Perm
      (trace.filterMap fun choice => events[choice.1]?) := by
    rw [taken, leftOut, ← filterMap_append]
    refine List.Perm.filterMap _ ?_
    exact (perm_append_comm).trans (filter_append_perm _ trace)
  have chosen := indices.filterMap fun index => events[index]?
  rw [filterMap_map, filterMap_range] at chosen
  exact split.trans chosen

/-- No operation within the window of an open one overtakes another that has returned. -/
def NoOvertaking (events : List Event) : Prop :=
  ∀ (first second third : ℕ) (blocking overtaken overtaking : Event),
    first < second → second < third → third ≤ first + ahead →
    events[first]? = some blocking → events[second]? = some overtaken →
    events[third]? = some overtaking →
      ¬ (overtaken.returned < overtaking.invoked ∧ overtaking.invoked ≤ blocking.returned)

/-- Real time allows the operation at one index before that at the other. -/
def MayPrecedeAt (events : List Event) (index later : ℕ) : Prop :=
  ∀ first second, events[index]? = some first → events[later]? = some second →
    MayPrecede first second

/-- The choices respect real time, and nothing that is still to come should have come first. -/
structure Timely (events : List Event) (config : Config) (trace : List (ℕ × Bool)) : Prop where
  ordered : (trace.map Prod.fst).Pairwise (MayPrecedeAt events)
  ahead : ∀ index ∈ trace.map Prod.fst, ∀ later, ¬ Placed config.2.1 config.2.2 later →
    MayPrecedeAt events index later

section

variable (sorted : events.Pairwise fun left right => left.invoked ≤ right.invoked)
  (proper : ∀ event ∈ events, event.invoked ≤ event.returned) (noOvertaking : NoOvertaking events)

include sorted proper noOvertaking

theorem mayPrecedeAt_of_admits (admits : Admits events config offset skip event model) {later : ℕ}
    (unplaced : ¬ Placed config.2.1 config.2.2 later) :
    MayPrecedeAt events (config.2.1 + offset) later := by
  intro first second isFirst isSecond
  rw [admits.present] at isFirst
  cases isFirst
  have notBefore : config.2.1 ≤ later := by
    by_contra before
    exact unplaced (Or.inl (Nat.not_le.mp before))
  rcases notBefore.eq_or_lt with atFrontier | behind
  · subst atFrontier
    exact admits.inTime second isSecond
  · rcases Nat.lt_or_ge later (config.2.1 + offset) with between | beyond
    · rcases exists_blocking notBefore isSecond with ⟨blocking, blocks⟩
      have window := admits.window
      have allowed := noOvertaking config.2.1 later (config.2.1 + offset) blocking second event
        behind between (by omega) blocks isSecond admits.present
      by_contra overtakes
      exact allowed ⟨Nat.not_le.mp overtakes, admits.inTime blocking blocks⟩
    · have proper' := proper second (mem_of_getElem? isSecond)
      refine le_trans ?_ proper'
      rcases List.getElem?_eq_some_iff.mp admits.present with ⟨inside, rfl⟩
      rcases List.getElem?_eq_some_iff.mp isSecond with ⟨inside', rfl⟩
      rcases beyond.eq_or_lt with same | strictly
      · simp only [← same]
        exact le_rfl
      · exact pairwise_iff_getElem.mp sorted _ _ inside inside' strictly

theorem Timely.move (traces : Traces events config trace) (timely : Timely events config trace)
    (admits : Admits events config offset skip event model) :
    Timely events (config.after offset model) (trace ++ [(config.2.1 + offset, skip)]) := by
  have stillToCome {later : ℕ}
      (unplaced : ¬ Placed (config.after offset model).2.1 (config.after offset model).2.2 later) :
      ¬ Placed config.2.1 config.2.2 later := by
    intro placed
    exact unplaced ((placed_place traces.narrow later).mpr (Or.inl placed))
  refine ⟨?_, ?_⟩
  · rw [map_append, pairwise_append]
    refine ⟨timely.ordered, by simp, ?_⟩
    intro index member other isNew
    have newIs : other = config.2.1 + offset := by simpa using isNew
    subst newIs
    exact timely.ahead index member _ admits.unplaced
  · intro index member later unplaced
    rw [map_append, mem_append] at member
    rcases member with before | isNew
    · exact timely.ahead index before later (stillToCome unplaced)
    · have newIs : index = config.2.1 + offset := by simpa using isNew
      subst newIs
      exact mayPrecedeAt_of_admits sorted proper noOvertaking admits (stillToCome unplaced)

theorem exists_trace (path : Search.Path (moves events) root config) :
    ∃ trace, Traces events config trace ∧ Timely events config trace := by
  induction path with
  | refl => exact ⟨[], .root, ⟨.nil, fun _ member => nomatch member⟩⟩
  | tail _ edge ih =>
    rcases ih with ⟨trace, traces, timely⟩
    rcases mem_moves edge with ⟨offset, skip, event, model, admits, rfl⟩
    exact ⟨_, traces.move admits, timely.move sorted proper noOvertaking traces admits⟩

theorem keyLinearization_of_path (path : Search.Path (moves events) root config)
    (done : config.2.1 = events.length) : ∃ order, KeyLinearization events order := by
  rcases exists_trace sorted proper noOvertaking path with ⟨trace, traces, timely⟩
  refine ⟨taken events trace, ⟨leftOut events trace, traces.perm done, ?_⟩, ?_, ?_⟩
  · intro event member
    rcases mem_filterMap.mp member with ⟨⟨index, skip⟩, isChoice, found⟩
    rcases List.mem_filter.mp isChoice with ⟨inTrace, isSkip⟩
    have skipped : skip = true := isSkip
    subst skipped
    exact traces.skipped index event inTrace found
  · have ordered := (pairwise_map.mp timely.ordered).filter fun choice => !choice.2
    refine List.Pairwise.filterMap _ ?_ ordered
    intro choice later allowed first isFirst second isSecond
    exact allowed first second isFirst isSecond
  · rw [traces.value]
    rfl

end

theorem checkOneKey_eq_linearizable_iff {history : History} (nonempty : history.events ≠ [])
    (limits : Limits) :
    checkOneKey history limits = .linearizable ↔
      Search.dfs (moves history.sorted.events) (isDone history.sorted.events) limits.maxStates []
        [(root, moves history.sorted.events root)] = .found := by
  rw [checkOneKey]
  split
  · rename_i empty
    have := history.sorted_perm
    rw [empty] at this
    exact absurd this.symm.eq_nil nonempty
  · rename_i first rest sortedIs
    rw [sortedIs, loop_eq_linearizable_iff]
    rfl

theorem checkKeys_eq_linearizable_iff {keys : List (Key × History)} :
    checkKeys limits keys = .linearizable ↔
      ∀ binding ∈ keys, checkOneKey binding.2 limits = .linearizable := by
  induction keys with
  | nil => simp [checkKeys]
  | cons binding rest ih =>
    rw [checkKeys, forall_mem_cons]
    cases verdict : checkOneKey binding.2 limits with
    | linearizable => simp [ih]
    | notLinearizable => simp
    | inconclusive => simp

def History.keyEvents (history : History) (key : Key) : List Event :=
  (history.onKey key).sorted.events

variable {history : History}

theorem mem_keyEvents {key : Key} :
    event ∈ history.keyEvents key ↔ event ∈ history.events ∧ event.op.key = key := by
  rw [History.keyEvents, (History.sorted_perm _).mem_iff]
  simp [History.onKey]

theorem keyEvents_eq_nil {key : Key} :
    history.keyEvents key = [] ↔ (history.onKey key).events = [] := by
  have sameLength := (history.onKey key).sorted_perm.length_eq
  rw [← length_eq_zero_iff, ← length_eq_zero_iff, ← sameLength, History.keyEvents]

theorem keyEvents_sorted (key : Key) :
    (history.keyEvents key).Pairwise fun left right => left.invoked ≤ right.invoked :=
  (history.onKey key).sorted_pairwise

theorem sorted_sorted (history : History) : history.sorted.sorted = history.sorted :=
  congrArg History.mk (pairwise_insertionSort Event.NotAfter _).insertionSort_eq

def searchKey (history : History) (key : Key) (budget : ℕ) : Search.Outcome :=
  Search.dfs (moves (history.keyEvents key)) (isDone (history.keyEvents key)) budget []
    [(root, moves (history.keyEvents key) root)]

theorem check_eq_linearizable_iff :
    check history limits = .linearizable ↔
      ∀ key, history.keyEvents key ≠ [] → searchKey history key limits.maxStates = .found := by
  have perKey (key : Key) (occurs : history.keyEvents key ≠ []) :
      checkOneKey (history.onKey key).sorted limits = .linearizable ↔
        searchKey history key limits.maxStates = .found := by
    rw [checkOneKey_eq_linearizable_iff occurs, sorted_sorted]
    rfl
  rw [check, checkKeys_eq_linearizable_iff]
  refine ⟨?_, ?_⟩
  · intro passes key occurs
    apply (perKey key occurs).mp
    apply passes (key, (history.onKey key).sorted)
    rw [BTreeMap.mem_toList, History.get_byKey, if_neg (keyEvents_eq_nil.not.mp occurs)]
  · rintro passes ⟨key, sub⟩ member
    rw [BTreeMap.mem_toList, History.get_byKey] at member
    split_ifs at member with empty
    cases member
    have occurs := keyEvents_eq_nil.not.mpr empty
    exact (perKey key occurs).mpr (passes key occurs)

/-- On no key can an operation overtake another. -/
def History.NoOvertaking (history : History) : Prop :=
  ∀ key, Oracle.NoOvertaking (history.keyEvents key)

/-- Without overtaking, what passes is linearizable. -/
theorem linearizable_of_check
    (proper : ∀ event ∈ history.events, event.invoked ≤ event.returned)
    (noOvertaking : history.NoOvertaking)
    (passes : check history limits = .linearizable) : history.Linearizable := by
  rw [check_eq_linearizable_iff] at passes
  refine linearizable_of_keys proper
    (nodup_dedup (history.events.map fun event => event.op.key))
    (fun event member => mem_dedup.mpr (mem_map_of_mem member)) ?_
  intro key inKeys
  rcases mem_map.mp (mem_dedup.mp inKeys) with ⟨event, member, isKey⟩
  have occurs : history.keyEvents key ≠ [] :=
    ne_nil_of_mem (mem_keyEvents.mpr ⟨member, isKey⟩)
  rcases Search.exists_path_of_found (Search.grounded_root root) (passes key occurs) with
    ⟨config, path, done⟩
  rcases keyLinearization_of_path (keyEvents_sorted key)
    (fun event member => proper event (mem_keyEvents.mp member).1) (noOvertaking key) path
    (by simpa [isDone] using done) with ⟨order, linearizes⟩
  exact ⟨order, linearizes.covers.perm (history.onKey key).sorted_perm, linearizes.realTime,
    linearizes.accepted⟩

end ChronoScope.Oracle
