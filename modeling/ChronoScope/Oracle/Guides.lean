import Mathlib.Algebra.Order.BigOperators.Group.List
import Mathlib.Algebra.Order.Ring.Nat
import ChronoScope.Oracle.Soundness

/-!
# Guides for the search

Seen from outside, a configuration is a value and the set of operations that are
left. Whatever says for every such pair which operation comes next, in time and
in the window, guides the search to its end (`exists_path_of_guide`). An order
of the operations that goes along the frontier, with one detour to two
operations ahead of it, is such a guide (`exists_path_of_detour`).
-/

namespace ChronoScope.Oracle

open List

variable {events : List Event}

/-- The operations a configuration has still to place. -/
def unplaced (events : List Event) (config : Config) : Finset ℕ :=
  (Finset.range events.length).filter fun index => ¬ Placed config.2.1 config.2.2 index

variable {config : Config} {order : List ℕ} {final value : Value}

theorem mem_unplaced {index : ℕ} :
    index ∈ unplaced events config ↔
      index < events.length ∧ ¬ Placed config.2.1 config.2.2 index := by
  simp [unplaced]

theorem unplaced_after (narrow : Narrow config.2.2) (offset : ℕ) (model : Model) :
    unplaced events (config.after offset model) =
      (unplaced events config).erase (config.2.1 + offset) := by
  have placed := @placed_place config.2.1 config.2.2 offset narrow
  ext index
  rw [Finset.mem_erase, mem_unplaced, mem_unplaced, Config.after, placed index]
  tauto

/-- The next operation is one of those left and invoked before the first of them returns. -/
structure Next (events : List Event) (value : Value) (left : Finset ℕ) (first index : ℕ)
    (model : Model) : Prop where
  isLeft : index ∈ left
  inTime : ∀ event blocking, events[index]? = some event → events[first]? = some blocking →
    event.invoked ≤ blocking.returned
  effect : ∀ event, events[index]? = some event →
    event.isUnknown = true ∧ model = { value := value } ∨
      Model.step { value := value } event = some model

/-- What holds of every configuration the search enters. -/
structure Fits (events : List Event) (config : Config) : Prop where
  narrow : Narrow config.2.2
  inside : ∀ index, Placed config.2.1 config.2.2 index → index < events.length

theorem fits_root : Fits events root where
  narrow := narrow_zero
  inside index placed := by simp [root, Placed] at placed

theorem Fits.move (fits : Fits events config) {offset : ℕ} {skip : Bool}
    {event : Event} {model : Model} (admits : Admits events config offset skip event model) :
    Fits events (config.after offset model) := by
  refine ⟨narrow_place fits.narrow admits.window, ?_⟩
  intro index isPlaced
  rcases (placed_place fits.narrow index).mp isPlaced with already | rfl
  · exact fits.inside index already
  · exact (List.getElem?_eq_some_iff.mp admits.present).1

theorem fits_of_path (path : Search.Path (moves events) root config) :
    Fits events config := by
  induction path with
  | refl => exact fits_root
  | tail _ edge ih =>
    rcases mem_moves edge with ⟨offset, skip, event, model, admits, rfl⟩
    exact ih.move admits

theorem Fits.frontier (fits : Fits events config) :
    config.2.1 = events.length ∨ config.2.1 ∈ unplaced events config ∧
      ∀ index ∈ unplaced events config, config.2.1 ≤ index := by
  have atMost : config.2.1 ≤ events.length := by
    by_contra beyond
    have := fits.inside (config.2.1 - 1) (Or.inl (by omega))
    omega
  rcases atMost.eq_or_lt with atEnd | before
  · exact Or.inl atEnd
  · refine Or.inr ⟨mem_unplaced.mpr ⟨before, not_placed_frontier _ _⟩, ?_⟩
    intro index member
    by_contra below
    exact (mem_unplaced.mp member).2 (Or.inl (Nat.not_le.mp below))

theorem Fits.frontier_eq (fits : Fits events config) {index : ℕ}
    (isLeft : index ∈ unplaced events config)
    (least : ∀ other ∈ unplaced events config, index ≤ other) : config.2.1 = index := by
  rcases fits.frontier with atEnd | ⟨isFirst, below⟩
  · exact absurd (Or.inl (atEnd ▸ (mem_unplaced.mp isLeft).1)) (mem_unplaced.mp isLeft).2
  · exact le_antisymm (below index isLeft) (least _ isFirst)

theorem Next.move (sorted : events.Pairwise fun left right => left.invoked ≤ right.invoked)
    (fits : Fits events config) {index : ℕ} {model : Model}
    (isNext : Next events config.1 (unplaced events config) config.2.1 index model)
    (least : config.2.1 ≤ index) (within : index ≤ config.2.1 + ahead) :
    ∃ next ∈ moves events config, Fits events next ∧ next.1 = model.value ∧
      unplaced events next = (unplaced events config).erase index := by
  rcases mem_unplaced.mp isNext.isLeft with ⟨inEvents, notPlaced⟩
  have found : events[index]? = some events[index] := List.getElem?_eq_getElem inEvents
  have indexIs : config.2.1 + (index - config.2.1) = index := by omega
  have admits : ∃ skip, Admits events config (index - config.2.1) skip events[index] model := by
    have within' : index - config.2.1 ≤ ahead := by omega
    have inTime : ∀ blocking, events[config.2.1]? = some blocking →
        events[index].invoked ≤ blocking.returned :=
      fun blocking isBlocking => isNext.inTime _ _ found isBlocking
    rcases isNext.effect _ found with skipped | stepped
    · exact ⟨true, by rwa [indexIs], within', by rwa [indexIs], inTime, skipped⟩
    · exact ⟨false, by rwa [indexIs], within', by rwa [indexIs], inTime, stepped⟩
  rcases admits with ⟨skip, admits⟩
  have leftIs := @unplaced_after events _ fits.narrow (index - config.2.1) model
  rw [indexIs] at leftIs
  exact ⟨_, moves_mem sorted admits, fits.move admits, rfl, leftIs⟩

/-- Whatever says which operation in the window comes next guides the search to its end. -/
theorem exists_path_of_guide
    (sorted : events.Pairwise fun left right => left.invoked ≤ right.invoked)
    (guide : Value → Finset ℕ → Prop)
    (next : ∀ value left first, guide value left → first ∈ left → (∀ index ∈ left, first ≤ index) →
      ∃ index model, Next events value left first index model ∧ index ≤ first + ahead ∧
        guide model.value (left.erase index))
    (config : Config) (fits : Fits events config)
    (guided : guide config.1 (unplaced events config)) :
    ∃ last, Search.Path (moves events) config last ∧ last.2.1 = events.length := by
  induction count : (unplaced events config).card using Nat.strong_induction_on
    generalizing config with
  | _ count ih =>
    subst count
    rcases fits.frontier with atEnd | ⟨isFirst, least⟩
    · exact ⟨config, .refl, atEnd⟩
    · rcases next _ _ _ guided isFirst least with ⟨index, model, isNext, within, guided'⟩
      rcases isNext.move sorted fits (least index isNext.isLeft) within with
        ⟨after, isMove, fits', valueIs, leftIs⟩
      rw [← valueIs, ← leftIs] at guided'
      rcases ih _ (by rw [leftIs]; exact Finset.card_erase_lt_of_mem isNext.isLeft) after fits'
        guided' rfl with ⟨last, path, done⟩
      exact ⟨last, .head isMove path, done⟩


theorem exists_path_of_unknown
    (sorted : events.Pairwise fun left right => left.invoked ≤ right.invoked)
    (proper : ∀ event ∈ events, event.invoked ≤ event.returned)
    (unknown : ∀ event ∈ events, event.isUnknown = true) :
    ∃ last, Search.Path (moves events) root last ∧ last.2.1 = events.length := by
  refine exists_path_of_guide sorted (fun _ _ => True) ?_ root fits_root trivial
  intro value left first _ isFirst _
  refine ⟨first, { value := value }, ⟨isFirst, ?_, ?_⟩, Nat.le_add_right .., trivial⟩
  · intro event blocking found blocks
    cases found.symm.trans blocks
    exact proper event (mem_of_getElem? found)
  · exact fun event found => Or.inl ⟨unknown event (mem_of_getElem? found), rfl⟩

/-- The operations at these indices lead from one value to another, in this order; those with
unknown outcome may be left out. -/
inductive Replays (events : List Event) : Value → List ℕ → Value → Prop where
  | done (value : Value) : Replays events value [] value
  | next {value final : Value} {index : ℕ} {rest : List ℕ} {event : Event} {model : Model}
      (found : events[index]? = some event)
      (effect : event.isUnknown = true ∧ model = { value := value } ∨
        Model.step { value := value } event = some model)
      (later : Replays events model.value rest final) : Replays events value (index :: rest) final

theorem Replays.append {middle : Value} {more : List ℕ}
    (replays : Replays events value order middle) (later : Replays events middle more final) :
    Replays events value (order ++ more) final := by
  induction replays with
  | done => exact later
  | next found effect _ ih => exact .next found effect (ih later)

theorem Replays.split {more : List ℕ}
    (replays : Replays events value (order ++ more) final) :
    ∃ middle, Replays events value order middle ∧ Replays events middle more final := by
  induction order generalizing value with
  | nil => exact ⟨value, .done value, replays⟩
  | cons index rest ih =>
    cases replays with
    | next found effect later =>
      rcases ih later with ⟨middle, before, after⟩
      exact ⟨middle, .next found effect before, after⟩

theorem Replays.unknown (value : Value)
    (unknown : ∀ index ∈ order, ∃ event, events[index]? = some event ∧ event.isUnknown = true) :
    Replays events value order value := by
  induction order with
  | nil => exact .done value
  | cons index rest ih =>
    rcases unknown index (mem_cons_self ..) with ⟨event, found, isUnknown⟩
    exact .next found (Or.inl ⟨isUnknown, rfl⟩) (ih fun other member =>
      unknown other (mem_cons_of_mem _ member))

theorem Replays.effect {index : ℕ} {rest : List ℕ}
    (replays : Replays events value (index :: rest) final) :
    ∃ model : Model, (∀ event, events[index]? = some event →
        event.isUnknown = true ∧ model = { value := value } ∨
          Model.step { value := value } event = some model) ∧
      Replays events model.value rest final := by
  cases replays with
  | next found effect later =>
    refine ⟨_, ?_, later⟩
    intro event isEvent
    cases found.symm.trans isEvent
    exact effect

theorem exists_path_of_increasing
    (sorted : events.Pairwise fun left right => left.invoked ≤ right.invoked)
    (proper : ∀ event ∈ events, event.invoked ≤ event.returned) (fits : Fits events config)
    (increasing : order.Pairwise (· < ·))
    (isLeft : ∀ index ∈ order, index ∈ unplaced events config)
    (initial : ∀ index ∈ order, ∀ other ∈ unplaced events config, other ∉ order → index < other)
    (replays : Replays events config.1 order final) :
    ∃ next, Search.Path (moves events) config next ∧ Fits events next ∧ next.1 = final ∧
      unplaced events next = unplaced events config \ order.toFinset := by
  induction order generalizing config with
  | nil =>
    cases replays
    exact ⟨config, .refl, fits, rfl, by simp⟩
  | cons index rest ih =>
    rw [pairwise_cons] at increasing
    have member := isLeft index (mem_cons_self ..)
    have least : ∀ other ∈ unplaced events config, index ≤ other := by
      intro other otherLeft
      by_cases inOrder : other ∈ index :: rest
      · rcases mem_cons.mp inOrder with rfl | later
        · exact le_rfl
        · exact (increasing.1 other later).le
      · exact (initial index (mem_cons_self ..) other otherLeft inOrder).le
    have frontierIs := fits.frontier_eq member least
    rcases replays.effect with ⟨model, effect, replays⟩
    have isNext : Next events config.1 (unplaced events config) config.2.1 index model := by
      refine ⟨member, ?_, effect⟩
      intro event blocking found blocks
      rw [frontierIs] at blocks
      cases found.symm.trans blocks
      exact proper event (mem_of_getElem? found)
    rcases isNext.move sorted fits frontierIs.le (by omega) with
      ⟨after, isMove, fits', valueIs, leftIs⟩
    rw [← valueIs] at replays
    have notRest : index ∉ rest := fun inRest => lt_irrefl _ (increasing.1 index inRest)
    rcases ih fits' increasing.2 (by
        intro other inRest
        rw [leftIs, Finset.mem_erase]
        exact ⟨fun same => notRest (same ▸ inRest), isLeft other (mem_cons_of_mem _ inRest)⟩)
      (by
        intro other inRest further isFurther notInRest
        rw [leftIs, Finset.mem_erase] at isFurther
        exact initial other (mem_cons_of_mem _ inRest) further isFurther.2
          (by simp [isFurther.1, notInRest]))
      replays with ⟨next, path, fits'', finalIs, left'⟩
    refine ⟨next, .head isMove path, fits'', finalIs, ?_⟩
    rw [left', leftIs, toFinset_cons, Finset.sdiff_insert, Finset.erase_sdiff_comm]

/-- Along the frontier, but at some point first two operations ahead of it. -/
def detour (count start early late : ℕ) : List ℕ :=
  List.range start ++ early :: late ::
    (List.range' start (count - start)).filter fun index => decide (index ≠ early ∧ index ≠ late)

section Detour

variable {count start early late : ℕ}

theorem mem_detour (positions : start ≤ early ∧ start ≤ late ∧ early < count ∧ late < count)
    (index : ℕ) : index ∈ detour count start early late ↔ index < count := by
  simp only [detour, mem_append, mem_range, mem_cons, List.mem_filter,
    List.mem_range'_1, decide_eq_true_eq]
  omega

theorem detour_nodup (positions : start ≤ early ∧ start ≤ late ∧ late ≠ early) :
    (detour count start early late).Nodup := by
  simp only [detour, nodup_append, nodup_range, nodup_cons, mem_cons,
    List.mem_filter, List.mem_range'_1, decide_eq_true_eq, mem_range]
  refine ⟨trivial, ⟨by omega, by omega, List.Nodup.filter _ (nodup_range' ..)⟩, ?_⟩
  intro index below other inRest
  omega

theorem detour_before {index : ℕ} (below : index < start) :
    (detour count start early late)[index]? = some index := by
  rw [detour, getElem?_append_left (by simpa using below)]
  simp [below]

theorem detour_early : (detour count start early late)[start]? = some early := by
  rw [detour, getElem?_append_right (by simp)]
  simp

theorem detour_late : (detour count start early late)[start + 1]? = some late := by
  rw [detour, getElem?_append_right (by simp)]
  simp

theorem idxOf_of_getElem? {order : List ℕ} (distinct : order.Nodup) {place index : ℕ}
    (found : order[place]? = some index) : order.idxOf index = place := by
  rcases List.getElem?_eq_some_iff.mp found with ⟨inside, rfl⟩
  exact distinct.idxOf_getElem place inside

theorem detour_behind {index : ℕ} (positions : start ≤ early ∧ start ≤ late ∧ early < count ∧
      late < count) (inside : index < count) (notBefore : start ≤ index)
    (others : index ≠ early ∧ index ≠ late) :
    start + 2 ≤ (detour count start early late).idxOf index := by
  have found := getElem?_idxOf ((mem_detour positions index).mpr inside)
  by_contra before
  rcases Nat.lt_or_ge ((detour count start early late).idxOf index) start with below | atLeast
  · rw [detour_before below] at found
    have := Option.some.inj found
    omega
  · rcases (show (detour count start early late).idxOf index = start ∨
      (detour count start early late).idxOf index = start + 1 by omega) with isStart | isNext
    · rw [isStart, detour_early] at found
      exact others.1 (Option.some.inj found).symm
    · rw [isNext, detour_late] at found
      exact others.2 (Option.some.inj found).symm

end Detour

theorem exists_path_of_detour
    (sorted : events.Pairwise fun left right => left.invoked ≤ right.invoked)
    (proper : ∀ event ∈ events, event.invoked ≤ event.returned) {start early late : ℕ}
    {blocking first second : Event} {final : Value} (blocks : events[start]? = some blocking)
    (isFirst : events[early]? = some first) (isSecond : events[late]? = some second)
    (positions : start < early ∧ start ≤ late ∧ late ≠ early ∧ early ≤ start + ahead ∧
      late ≤ start + ahead)
    (inTime : first.invoked ≤ blocking.returned ∧ second.invoked ≤ blocking.returned)
    (replays : Replays events none (detour events.length start early late) final) :
    ∃ last, Search.Path (moves events) root last ∧ last.2.1 = events.length := by
  have insideStart := (List.getElem?_eq_some_iff.mp blocks).1
  have insideEarly := (List.getElem?_eq_some_iff.mp isFirst).1
  have insideLate := (List.getElem?_eq_some_iff.mp isSecond).1
  have isRoot (index : ℕ) : index ∈ unplaced events root ↔ index < events.length := by
    simp [mem_unplaced, root, Placed]
  rcases replays.split with ⟨middle, toStart, fromStart⟩
  rcases exists_path_of_increasing sorted proper fits_root pairwise_lt_range
    (by simp only [mem_range, isRoot]; omega)
    (by simp only [mem_range, isRoot]; omega) toStart with
    ⟨atStart, pathStart, fitsStart, rfl, leftStart⟩
  have memStart (index : ℕ) : index ∈ unplaced events atStart ↔
      start ≤ index ∧ index < events.length := by
    rw [leftStart, Finset.mem_sdiff, isRoot, mem_toFinset, mem_range]
    omega
  have frontierStart : atStart.2.1 = start :=
    fitsStart.frontier_eq ((memStart start).mpr ⟨le_rfl, insideStart⟩)
      fun other member => ((memStart other).mp member).1
  rcases fromStart.effect with ⟨model, effect, fromEarly⟩
  have nextEarly : Next events atStart.1 (unplaced events atStart) atStart.2.1 early model := by
    refine ⟨(memStart early).mpr ⟨positions.1.le, insideEarly⟩, ?_, effect⟩
    intro event other found isBlocking
    rw [frontierStart] at isBlocking
    cases blocks.symm.trans isBlocking
    cases isFirst.symm.trans found
    exact inTime.1
  rcases nextEarly.move sorted fitsStart (by omega) (by omega) with
    ⟨atEarly, moveEarly, fitsEarly, valueEarly, leftEarly⟩
  have memEarly (index : ℕ) : index ∈ unplaced events atEarly ↔
      index ≠ early ∧ start ≤ index ∧ index < events.length := by
    rw [leftEarly, Finset.mem_erase, memStart]
  have frontierEarly : atEarly.2.1 = start :=
    fitsEarly.frontier_eq ((memEarly start).mpr ⟨by omega, le_rfl, insideStart⟩)
      fun other member => ((memEarly other).mp member).2.1
  rw [← valueEarly] at fromEarly
  rcases fromEarly.effect with ⟨model', effect', fromLate⟩
  have nextLate : Next events atEarly.1 (unplaced events atEarly) atEarly.2.1 late model' := by
    refine ⟨(memEarly late).mpr ⟨positions.2.2.1, positions.2.1, insideLate⟩, ?_, effect'⟩
    intro event other found isBlocking
    rw [frontierEarly] at isBlocking
    cases blocks.symm.trans isBlocking
    cases isSecond.symm.trans found
    exact inTime.2
  rcases nextLate.move sorted fitsEarly (by omega) (by omega) with
    ⟨atLate, moveLate, fitsLate, valueLate, leftLate⟩
  have memLate (index : ℕ) : index ∈ unplaced events atLate ↔
      index ∈ (List.range' start (events.length - start)).filter fun index =>
        decide (index ≠ early ∧ index ≠ late) := by
    rw [leftLate, Finset.mem_erase, memEarly, List.mem_filter, List.mem_range'_1, decide_eq_true_eq]
    omega
  rw [← valueLate] at fromLate
  rcases exists_path_of_increasing sorted proper fitsLate ((pairwise_lt_range' ..).filter _)
    (fun index member => (memLate index).mpr member)
    (fun _ _ other otherLeft notIn => absurd ((memLate other).mp otherLeft) notIn) fromLate with
    ⟨last, pathLast, fitsLast, _, leftLast⟩
  refine ⟨last, ((pathStart.tail moveEarly).tail moveLate).trans pathLast, ?_⟩
  rcases fitsLast.frontier with done | ⟨isLeft, _⟩
  · exact done
  · rw [leftLast, Finset.mem_sdiff, memLate, mem_toFinset] at isLeft
    exact absurd isLeft.1 isLeft.2

theorem exists_enough (events : List Event) :
    ∃ enough, ∀ budget, enough ≤ budget → ∀ goal,
      Search.dfs (moves events) goal budget [] [(root, moves events root)] ≠ .cut := by
  have keeps : ∀ config next : Config, Fits events config → next ∈ moves events config →
      Fits events next := by
    intro config next fits isNext
    rcases mem_moves isNext with ⟨offset, skip, event, model, admits, rfl⟩
    exact fits.move admits
  have decreases : ∀ config next : Config, Fits events config → next ∈ moves events config →
      (unplaced events next).card < (unplaced events config).card := by
    intro config next fits isNext
    rcases mem_moves isNext with ⟨offset, skip, event, model, admits, rfl⟩
    rw [unplaced_after fits.narrow]
    apply Finset.card_erase_lt_of_mem
    exact mem_unplaced.mpr ⟨(List.getElem?_eq_some_iff.mp admits.present).1, admits.unplaced⟩
  rcases Search.exists_closed keeps decreases fits_root with ⟨nodes, isNode, closed⟩
  refine ⟨Search.enough nodes [] [(root, moves events root)], ?_⟩
  intro budget le goal
  refine Search.not_cut closed ?_ le
  intro frame member
  rw [mem_singleton] at member
  subst member
  exact ⟨isNode, closed root isNode⟩

theorem exists_limits (history : History) :
    ∃ limits : Limits, ∀ key, history.keyEvents key ≠ [] → ∀ goal,
      Search.dfs (moves (history.keyEvents key)) goal limits.maxStates []
        [(root, moves (history.keyEvents key) root)] ≠ .cut := by
  choose enough uncut using fun key => exists_enough (history.keyEvents key)
  let budgets := history.events.map fun event => enough event.op.key
  refine ⟨{ maxStates := budgets.sum }, ?_⟩
  intro key occurs
  rcases exists_mem_of_ne_nil _ occurs with ⟨event, member⟩
  rcases mem_keyEvents.mp member with ⟨inEvents, rfl⟩
  exact uncut event.op.key _
    (single_le_sum (fun _ _ => Nat.zero_le _) _ (mem_map.mpr ⟨event, inEvents, rfl⟩))

end ChronoScope.Oracle
