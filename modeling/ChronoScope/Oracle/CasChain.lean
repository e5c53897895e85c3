import ChronoScope.Oracle.Postponement

/-!
# Chains of compare-and-swap

If every operation swaps the value the one before it wrote, only one order is
accepted. At the positions where a later time makes a difference, such a chain
is accepted in an order that the later search can take and the earlier one
cannot: there the operation that is invoked after the client gave up has to wait
for the one given up on, and after that the chain is broken.
-/

namespace ChronoScope.Oracle

open List

def chainValue (place : ℕ) : Value := if place = 0 then none else some (List.replicate place 0)

theorem chainValue_injective : Function.Injective chainValue := by
  intro left right same
  unfold chainValue at same
  split_ifs at same with isZero isZero'
  · omega
  · simpa using congrArg (Option.map List.length) same

/-- On one key, compare-and-swap operations with places in a chain. Of some the outcome is
unknown, as it is of all operations on other keys. -/
def linked (key : Key) (link : ℕ → ℕ) (moved : ℕ → Bool) (event : Event × ℕ) : Event :=
  if event.1.op.key = key then
    { event.1 with
      op := .cas key (chainValue (link event.2)) (chainValue (link event.2 + 1))
      ret := if moved event.2 then .unknown else .ok }
  else { event.1 with op := .read event.1.op.key, ret := .unknown }

variable {event : Event × ℕ}

section Links

variable {key : Key} {link : ℕ → ℕ} {moved : ℕ → Bool}

theorem linked_window (event : Event × ℕ) :
    (linked key link moved event).window = event.1.window := by
  unfold linked
  by_cases isKey : event.1.op.key = key
  · rw [if_pos isKey]
    subst isKey
    rfl
  · rw [if_neg isKey]
    rfl

theorem linked_times (event : Event × ℕ) :
    (linked key link moved event).invoked = event.1.invoked ∧
      (linked key link moved event).returned = event.1.returned := by
  have := @linked_window key link moved event
  simp only [Event.window, Prod.mk.injEq] at this
  exact this.2.2

theorem linked_isUnknown (isKey : event.1.op.key = key) :
    (linked key link moved event).isUnknown = moved event.2 := by
  unfold linked
  rw [if_pos isKey]
  cases moved event.2 <;> rfl

theorem linked_step (isKey : event.1.op.key = key) (value : Value) :
    Model.step { value := value } (linked key link moved event) =
      if chainValue (link event.2) = value then some { value := chainValue (link event.2 + 1) }
      else if moved event.2 then some { value := value } else none := by
  unfold linked
  rw [if_pos isKey]
  cases moved event.2 <;> simp [Model.step]

theorem postponed_linked {history later : History} (postponed : history.Postponed later)
    (isMoved : ∀ (tag : ℕ) (event event' : Event), history.events[tag]? = some event →
      later.events[tag]? = some event' → event.returned < event'.returned → moved tag = true) :
    (history.relabel (linked key link moved)).Postponed
    (later.relabel (linked key link moved)) := by
  rcases forall₂_iff_get.mp postponed with ⟨sameLength, each⟩
  refine forall₂_iff_get.mpr ⟨by simpa [History.relabel] using sameLength, ?_⟩
  intro tag inside inside'
  have insideEvents : tag < history.events.length := by simpa [History.relabel] using inside
  have insideLater : tag < later.events.length := by simpa [History.relabel] using inside'
  have isPostponed : history.events[tag].Postponed later.events[tag] :=
    each tag insideEvents insideLater
  have isMoved' := isMoved tag _ _ (List.getElem?_eq_getElem insideEvents)
    (List.getElem?_eq_getElem insideLater)
  have sameKey := isPostponed.key_eq
  have same := isPostponed.same
  simp only [History.relabel, get_eq_getElem, getElem_map, getElem_zipIdx, zero_add]
  refine ⟨?_, ?_, ?_⟩
  · unfold linked
    simp only [sameKey]
    rw [same]
    split_ifs <;> rfl
  · rw [(linked_times _).2, (linked_times _).2]
    exact isPostponed.notEarlier
  · rw [(linked_times _).2, (linked_times _).2]
    intro later
    by_cases isKey : history.events[tag].op.key = key
    · rw [linked_isUnknown isKey]
      exact isMoved' later
    · unfold linked
      rw [if_neg isKey]
      rfl

theorem Replays.chain {events : List Event} {order : List ℕ} (place : ℕ)
    (inPlace : ∀ (offset index : ℕ), order[offset]? = some index → ∃ event : Event × ℕ,
      events[index]? = some (linked key link moved event) ∧ event.1.op.key = key ∧
        link event.2 = place + offset) :
    Replays events (chainValue place) order (chainValue (place + order.length)) := by
  induction order generalizing place with
  | nil => exact .done _
  | cons index rest ih =>
    rcases inPlace 0 index rfl with ⟨event, found, isKey, linkIs⟩
    have stepped : Model.step { value := chainValue place } (linked key link moved event) =
        some { value := chainValue (place + 1) } := by
      rw [linked_step isKey, if_pos (by rw [linkIs]; rfl), linkIs]
    have later := ih (place + 1) (by
      intro offset other isOther
      rcases inPlace (offset + 1) other isOther with ⟨event, found, isKey, linkIs⟩
      exact ⟨event, found, isKey, by omega⟩)
    rw [length_cons, show place + (rest.length + 1) = place + 1 + rest.length by omega]
    exact .next found (Or.inr stepped) later

end Links

/-- The place in the chain of the event with a tag. -/
def chainPlace (later : History) (key : Key) (start late open_ tag : ℕ) : ℕ :=
  (detour (later.tagged key).length start late open_).idxOf
    (((later.tagged key).map Prod.snd).idxOf tag)

def movedAt (history later : History) (tag : ℕ) : Bool :=
  decide (history.events[tag]?.map Event.returned ≠ later.events[tag]?.map Event.returned)

variable {index : ℕ}

theorem chainPlace_eq {later : History} {key : Key} {start late open_ : ℕ}
    (found : (later.tagged key)[index]? = some event) :
    chainPlace later key start late open_ event.2 =
      (detour (later.tagged key).length start late open_).idxOf index := by
  have isTag : ((later.tagged key).map Prod.snd)[index]? = some event.2 := by simp [found]
  rw [chainPlace, idxOf_of_getElem? (later.tagged_nodup key) isTag]

theorem tagged_lt_of_invoked {history : History} {key : Key} {other : ℕ} {second : Event × ℕ}
    (found : (history.tagged key)[index]? = some event)
    (isSecond : (history.tagged key)[other]? = some second)
    (lt : event.1.invoked < second.1.invoked) : index < other := by
  by_contra notBefore
  rcases (Nat.not_lt.mp notBefore).eq_or_lt with same | after
  · subst same
    cases found.symm.trans isSecond
    exact lt_irrefl _ lt
  · have := (History.tagged_notAfter isSecond found after).invoked_le
    omega

section Disturbed

variable {history later : History} {key : Key} {start late open_ other : ℕ}
  {blocking early gaveUp known : Event × ℕ} {before : Event}
  (postponed : history.Postponed later)
  (proper : ∀ event ∈ history.events, event.invoked ≤ event.returned)
  (disturbs : history.Disturbs later key start late open_ other blocking early gaveUp known before)

include postponed proper disturbs

theorem disturbs_times : gaveUp.1.invoked = before.invoked ∧ before.invoked ≤ before.returned ∧
    blocking.1.invoked ≤ blocking.1.returned := by
  have isGaveUp := (History.mem_tagged.mp (mem_of_getElem? disturbs.isOpen)).1
  have isBlocking := (History.mem_tagged.mp (mem_of_getElem? disturbs.isBlocking)).1
  rcases postponed.get disturbs.wasOpen with ⟨event', isEvent', isPostponed⟩
  cases isGaveUp.symm.trans isEvent'
  rcases postponed.get_later isBlocking with ⟨event, isEvent, blockingPostponed⟩
  refine ⟨isPostponed.invoked_eq, proper before (mem_of_getElem? disturbs.wasOpen), ?_⟩
  have := proper event (mem_of_getElem? isEvent)
  have := blockingPostponed.notEarlier
  have := blockingPostponed.invoked_eq
  omega

theorem disturbs_positions : start < late ∧ open_ < late ∧ late < (later.tagged key).length ∧
    other < (later.tagged key).length := by
  have times := disturbs_times postponed proper disturbs
  have between := disturbs.between
  have sameTime := disturbs.sameTime
  refine ⟨tagged_lt_of_invoked disturbs.isBlocking disturbs.isEarly (by omega),
    tagged_lt_of_invoked disturbs.isOpen disturbs.isEarly (by omega),
    (List.getElem?_eq_some_iff.mp disturbs.isEarly).1,
    (List.getElem?_eq_some_iff.mp disturbs.isKnown).1⟩

theorem exists_path_chain (link : ℕ → ℕ) (moved : ℕ → Bool)
    (linkIs : link = chainPlace later key start late open_) :
    ∃ last, Search.Path (moves ((later.relabel (linked key link moved)).keyEvents key)) root last ∧
      last.2.1 = ((later.relabel (linked key link moved)).keyEvents key).length := by
  have times := disturbs_times postponed proper disturbs
  have positions := disturbs_positions postponed proper disturbs
  have positions' := disturbs.positions
  have between := disturbs.between
  have sameTime := disturbs.sameTime
  have eventsIs := History.keyEvents_relabel later (@linked_window key link moved) key
  have found {index : ℕ} {event : Event × ℕ} (isEvent : (later.tagged key)[index]? = some event) :
      ((later.relabel (linked key link moved)).keyEvents key)[index]? =
        some (linked key link moved event) := by
    rw [eventsIs, getElem?_map, isEvent]
    rfl
  have lengthIs : ((later.relabel (linked key link moved)).keyEvents key).length =
      (later.tagged key).length := by rw [eventsIs, length_map]
  have proper' : ∀ event ∈ (later.relabel (linked key link moved)).keyEvents key,
      event.invoked ≤ event.returned := by
    intro event member
    rw [eventsIs] at member
    rcases mem_map.mp member with ⟨⟨original, tag⟩, isTagged, rfl⟩
    rw [(linked_times _).1, (linked_times _).2]
    rcases postponed.get_later (History.mem_tagged.mp isTagged).1 with ⟨event, isEvent, isPostponed⟩
    have := proper event (mem_of_getElem? isEvent)
    have := isPostponed.notEarlier
    have := isPostponed.invoked_eq
    simp only
    omega
  have distinct : (detour (later.tagged key).length start late open_).Nodup :=
    detour_nodup (by omega)
  have replays := @Replays.chain key link moved
    ((later.relabel (linked key link moved)).keyEvents key)
    (detour (later.tagged key).length start late open_) 0 (by
      intro offset index isIndex
      have inside : index < (later.tagged key).length :=
        (mem_detour (by omega) index).mp (mem_of_getElem? isIndex)
      refine ⟨_, found (List.getElem?_eq_getElem inside), ?_, ?_⟩
      · exact (History.mem_tagged.mp (getElem_mem inside)).2
      · rw [linkIs, chainPlace_eq (List.getElem?_eq_getElem inside), zero_add]
        exact idxOf_of_getElem? distinct isIndex)
  refine exists_path_of_detour (keyEvents_sorted key) proper' (found disturbs.isBlocking)
    (found disturbs.isEarly) (found disturbs.isOpen) (by omega) ?_ (lengthIs.symm ▸ replays)
  simp only [linked_times]
  omega

omit postponed proper disturbs in
/-- How far the chain has come: up to the operation that has to wait, or right behind it, and then
the one it waits for was passed over. -/
structure Broken (history : History) (key : Key) (link : ℕ → ℕ) (moved : ℕ → Bool) (start tag : ℕ)
    (config : Config) (place : ℕ) : Prop where
  value : config.1 = chainValue place
  below : ∀ index event, (history.tagged key)[index]? = some event → link event.2 < place →
    Placed config.2.1 config.2.2 index
  above : ∀ index event, (history.tagged key)[index]? = some event →
    Placed config.2.1 config.2.2 index → link event.2 < place ∨ moved event.2 = true
  waits : place ≤ start ∨ place = start + 1 ∧
    ∀ index event, (history.tagged key)[index]? = some event →
    event.2 = tag → Placed config.2.1 config.2.2 index

variable {link : ℕ → ℕ} {config : Config}

theorem placed_of_early (linkIs : link = chainPlace later key start late open_)
    (below : ∀ index event, (history.tagged key)[index]? = some event → link event.2 < start →
      Placed config.2.1 config.2.2 index)
    (inTime : ∀ blocking : Event × ℕ, (history.tagged key)[config.2.1]? = some blocking →
      early.1.invoked ≤ blocking.1.returned)
    (found : (history.tagged key)[index]? = some event) (isTag : event.2 = gaveUp.2) :
    Placed config.2.1 config.2.2 index := by
  have times := disturbs_times postponed proper disturbs
  have positions := disturbs_positions postponed proper disturbs
  have between := disturbs.between
  by_contra unplaced
  have atMost : config.2.1 ≤ index := by
    by_contra beyond
    exact unplaced (Or.inl (Nat.not_le.mp beyond))
  have isBefore : event.1 = before := by
    have := (History.mem_tagged.mp (mem_of_getElem? found)).1
    rw [isTag] at this
    cases this.symm.trans disturbs.wasOpen
    rfl
  obtain ⟨first, isFirst⟩ : ∃ first, (history.tagged key)[config.2.1]? = some first :=
    ⟨_, List.getElem?_eq_getElem (atMost.trans_lt (List.getElem?_eq_some_iff.mp found).1)⟩
  have stillOpen := inTime first isFirst
  -- The frontier operation was invoked before the one given up on, so it comes before the detour.
  have sooner : first.1.invoked < before.invoked := by
    rcases atMost.eq_or_lt with same | strictly
    · subst same
      cases isFirst.symm.trans found
      rw [isBefore] at stillOpen
      omega
    · have notAfter := History.tagged_notAfter isFirst found strictly
      rw [isBefore] at notAfter
      unfold Event.NotAfter at notAfter
      omega
  rcases postponed.tagged isFirst with ⟨index', first', isFirst', sameTag, isPostponed⟩
  have beforeStart : index' < start := by
    have sameInvoked := isPostponed.invoked_eq
    have sameTime := disturbs.sameTime
    exact tagged_lt_of_invoked isFirst' disturbs.isBlocking (by omega)
  refine not_placed_frontier _ _ (below config.2.1 first isFirst ?_)
  rw [linkIs, ← sameTag, chainPlace_eq isFirst',
    idxOf_of_getElem? (detour_nodup (by have := disturbs.positions; omega))
      (detour_before beforeStart)]
  exact beforeStart

omit proper disturbs in
theorem chainPlace_injective (positions : start ≤ late ∧ start ≤ open_ ∧
      late < (later.tagged key).length ∧ open_ < (later.tagged key).length) {index index' : ℕ}
    {event event' : Event × ℕ} (found : (history.tagged key)[index]? = some event)
    (found' : (history.tagged key)[index']? = some event')
    (same : chainPlace later key start late open_ event.2 =
      chainPlace later key start late open_ event'.2) : index = index' := by
  rcases postponed.tagged found with ⟨place, event₁, isEvent₁, sameTag₁, _⟩
  rcases postponed.tagged found' with ⟨place', event₂, isEvent₂, sameTag₂, _⟩
  rw [← sameTag₁, ← sameTag₂, chainPlace_eq isEvent₁, chainPlace_eq isEvent₂] at same
  have inside (index : ℕ) (event : Event × ℕ) (isEvent : (later.tagged key)[index]? = some event) :
      index ∈ detour (later.tagged key).length start late open_ :=
    (mem_detour positions index).mpr (List.getElem?_eq_some_iff.mp isEvent).1
  have samePlace : place = place' := by
    have first := getElem?_idxOf (inside _ _ isEvent₁)
    have second := getElem?_idxOf (inside _ _ isEvent₂)
    rw [same, second] at first
    exact (Option.some.inj first).symm
  subst samePlace
  cases isEvent₁.symm.trans isEvent₂
  exact History.tagged_index_eq found found' (sameTag₁.symm.trans sameTag₂)

omit proper disturbs in
theorem tag_of_chainPlace (positions : start ≤ late ∧ start ≤ open_ ∧
      late < (later.tagged key).length ∧ open_ < (later.tagged key).length) {index index' : ℕ}
    {event event' : Event × ℕ} (found : (history.tagged key)[index]? = some event)
    (found' : (later.tagged key)[index']? = some event')
    (same : chainPlace later key start late open_ event.2 =
      (detour (later.tagged key).length start late open_).idxOf index') : event'.2 = event.2 := by
  rcases postponed.tagged_later found' with ⟨index₀, event₀, isEvent₀, sameTag, _⟩
  rw [← chainPlace_eq found', sameTag] at same
  cases chainPlace_injective postponed positions found isEvent₀ same
  cases found.symm.trans isEvent₀
  exact sameTag

theorem Broken.move {moved : ℕ → Bool} {place : ℕ}
    (linkIs : link = chainPlace later key start late open_) (narrow : Narrow config.2.2)
    (broken : Broken history key link moved start gaveUp.2 config place) {offset : ℕ} {skip : Bool}
    {event : Event} {model : Model}
    (admits : Admits ((history.relabel (linked key link moved)).keyEvents key) config offset skip
      event model) :
    ∃ place', Broken history key link moved start gaveUp.2 (config.after offset model) place' := by
  have positions := disturbs_positions postponed proper disturbs
  have positions' := disturbs.positions
  have distinct : (detour (later.tagged key).length start late open_).Nodup :=
    detour_nodup (by omega)
  have eventsIs := History.keyEvents_relabel history (@linked_window key link moved) key
  have present := admits.present
  rw [eventsIs, getElem?_map, Option.map_eq_some_iff] at present
  rcases present with ⟨original, found, rfl⟩
  have isKey : original.1.op.key = key := (History.mem_tagged.mp (mem_of_getElem? found)).2
  have placed := @placed_place config.2.1 config.2.2 offset narrow
  have grows {index : ℕ} (already : Placed config.2.1 config.2.2 index) :
      Placed (config.after offset model).2.1 (config.after offset model).2.2 index :=
    (placed index).mpr (Or.inl already)
  have effect : (moved original.2 = true ∧ model.value = config.1) ∨
      link original.2 = place ∧ model.value = chainValue (place + 1) := by
    have effect := admits.effect
    rw [linked_isUnknown isKey, linked_step isKey, broken.value] at effect
    rw [broken.value]
    cases skip with
    | true => exact Or.inl ⟨effect.1, by rw [effect.2]⟩
    | false =>
      simp only [Bool.false_eq_true, if_false] at effect
      split_ifs at effect with inPlace isMoved
      · cases effect
        rw [chainValue_injective inPlace]
        exact Or.inr ⟨rfl, rfl⟩
      · cases effect
        exact Or.inl ⟨isMoved, rfl⟩
  rcases effect with ⟨isMoved, sameValue⟩ | ⟨inPlace, nextValue⟩
  · refine ⟨place, sameValue.trans broken.value, ?_, ?_, ?_⟩
    · exact fun index other isOther lt => grows (broken.below index other isOther lt)
    · intro index other isOther isPlaced
      rcases (placed index).mp isPlaced with already | rfl
      · exact broken.above index other isOther already
      · cases found.symm.trans isOther
        exact Or.inr isMoved
    · rcases broken.waits with before | ⟨behind, passed⟩
      · exact Or.inl before
      · exact Or.inr ⟨behind, fun index other isOther isTag =>
          grows (passed index other isOther isTag)⟩
  · refine ⟨place + 1, nextValue, ?_, ?_, ?_⟩
    · intro index other isOther lt
      rcases Nat.lt_succ_iff_lt_or_eq.mp lt with below | same
      · exact grows (broken.below index other isOther below)
      · refine (placed index).mpr (Or.inr ?_)
        rw [← inPlace, linkIs] at same
        exact chainPlace_injective postponed (by omega) isOther found same
    · intro index other isOther isPlaced
      rcases (placed index).mp isPlaced with already | rfl
      · rcases broken.above index other isOther already with lt | isMoved
        · exact Or.inl (by omega)
        · exact Or.inr isMoved
      · cases found.symm.trans isOther
        exact Or.inl (by omega)
    · rcases broken.waits with before' | ⟨behind, passed⟩
      · rcases before'.eq_or_lt with atStart | strictly
        · refine Or.inr ⟨by omega, ?_⟩
          intro index other isOther isTag
          refine grows (placed_of_early postponed proper disturbs linkIs (atStart ▸ broken.below) ?_
            isOther isTag)
          intro first isFirst
          have isEarly : early.1.invoked = original.1.invoked := by
            have samePlace : link original.2 = (detour (later.tagged key).length start late
                open_).idxOf late := by
              rw [inPlace, atStart, idxOf_of_getElem? distinct detour_early]
            rw [linkIs] at samePlace
            have sameTag := tag_of_chainPlace postponed (by omega) found disturbs.isEarly samePlace
            exact (postponed_of_tag postponed found disturbs.isEarly sameTag).invoked_eq
          have inTime := admits.inTime (linked key link moved first) (by
            rw [eventsIs, getElem?_map, isFirst]
            rfl)
          rwa [(linked_times _).1, (linked_times _).2, ← isEarly] at inTime
        · exact Or.inl (by omega)
      · exfalso
        refine admits.unplaced (passed _ original found ?_)
        have samePlace : link original.2 = (detour (later.tagged key).length start late
            open_).idxOf open_ := by
          rw [inPlace, behind, idxOf_of_getElem? distinct detour_late]
        rw [linkIs] at samePlace
        exact (tag_of_chainPlace postponed (by omega) found disturbs.isOpen samePlace).symm

theorem not_isDone_chain {moved : ℕ → Bool} (linkIs : link = chainPlace later key start late open_)
    (movedIs : moved = movedAt history later)
    (path : Search.Path (moves ((history.relabel (linked key link moved)).keyEvents key)) root
      config) :
    config.2.1 ≠ ((history.relabel (linked key link moved)).keyEvents key).length := by
  have positions := disturbs_positions postponed proper disturbs
  have positions' := disturbs.positions
  have holds : ∃ place, Broken history key link moved start gaveUp.2 config place := by
    induction path with
    | refl =>
      refine ⟨0, rfl, ?_, ?_, Or.inl (Nat.zero_le _)⟩
      · exact fun _ _ _ impossible => absurd impossible (Nat.not_lt_zero _)
      · intro index event _ placed
        simp [root, Placed] at placed
    | tail path edge ih =>
      rcases ih with ⟨place, broken⟩
      rcases mem_moves edge with ⟨offset, skip, event, model, admits, rfl⟩
      exact broken.move postponed proper disturbs linkIs (fits_of_path path).narrow admits
  intro done
  rcases holds with ⟨place, broken⟩
  rcases postponed.tagged_later disturbs.isKnown with ⟨index, event, isEvent, sameTag, _⟩
  have inside := (List.getElem?_eq_some_iff.mp isEvent).1
  rw [History.keyEvents_relabel history (@linked_window key link moved), length_map] at done
  rcases broken.above index event isEvent (Or.inl (by omega)) with early | isMoved
  · rw [linkIs, ← sameTag, chainPlace_eq disturbs.isKnown] at early
    have behind := @detour_behind (later.tagged key).length start late open_ other (by omega)
      (by omega) (by omega) (by omega)
    rcases broken.waits with before | ⟨atEnd, _⟩
    · omega
    · omega
  · have wasKnown := (History.mem_tagged.mp (mem_of_getElem? isEvent)).1
    have isKnown := (History.mem_tagged.mp (mem_of_getElem? disturbs.isKnown)).1
    rw [← sameTag] at wasKnown isMoved
    have unmoved := disturbs.unmoved event.1 wasKnown
    simp [movedIs, movedAt, wasKnown, isKnown, unmoved] at isMoved

end Disturbed

/-- The window cuts nothing off on any key. -/
def History.WithinWindow (history : History) : Prop :=
  ∀ key index event blocking, (history.keyEvents key)[index + (ahead + 1)]? = some event →
    (history.keyEvents key)[index]? = some blocking → blocking.returned < event.invoked

/-- Nothing with these times is rejected, and passes when the clients gave up at the later
times. -/
def TimesAgree (history later : History) : Prop :=
  ∀ other other' : History, other.SameWindows history → other'.SameWindows later →
    other.Postponed other' → ∀ limits limits', (check other limits).isViolation = true →
      check other' limits' ≠ .linearizable

theorem History.SameWindows.tagged {history other : History} (same : history.SameWindows other)
    {key : Key} (found : (history.tagged key)[index]? = some event) :
    ∃ event' : Event, (other.tagged key)[index]? = some (event', event.2) ∧
      event'.window = event.1.window := by
  have windows (history : History) : (history.tagged key).map
      (fun event => (event.1.window, event.2)) =
      ((history.events.map Event.window).zipIdx.filter fun window =>
        decide (window.1.2.1 = key)).insertionSort fun left right =>
          left.1.2.2.1 < right.1.2.2.1 ∨ left.1.2.2.1 = right.1.2.2.1 ∧
            (left.1.2.2.2 < right.1.2.2.2 ∨ left.1.2.2.2 = right.1.2.2.2 ∧
              left.1.1 ≤ right.1.1) := by
    rw [zipIdx_map, filter_map]
    exact map_insertionSort _ _ (fun event : Event × ℕ => (event.1.window, event.2)) _
      fun _ _ _ _ => Iff.rfl
  have atIndex : ((other.tagged key).map fun event => (event.1.window, event.2))[index]? =
      some (event.1.window, event.2) := by
    rw [windows, ← same, ← windows, getElem?_map, found]
    rfl
  rw [getElem?_map, Option.map_eq_some_iff] at atIndex
  rcases atIndex with ⟨⟨event', tag⟩, found', sameWindow⟩
  simp only [Prod.mk.injEq] at sameWindow
  exact ⟨event', sameWindow.2 ▸ found', sameWindow.1⟩

theorem History.SameWindows.get {history other : History} (same : history.SameWindows other)
    {tag : ℕ}
    {event : Event} (found : history.events[tag]? = some event) :
    ∃ event', other.events[tag]? = some event' ∧ event'.window = event.window := by
  have atTag := congrArg (fun windows => windows[tag]?) same
  simpa [found] using atTag.symm

theorem History.Undisturbed.sameWindows {history later other other' : History}
    (undisturbed : history.Undisturbed later) (same : other.SameWindows history)
    (same' : other'.SameWindows later) : other.Undisturbed other' := by
  intro key start late open_ place blocking early gaveUp known before disturbs
  rcases same'.tagged disturbs.isBlocking with ⟨blocking', isBlocking, windowBlocking⟩
  rcases same'.tagged disturbs.isEarly with ⟨early', isEarly, windowEarly⟩
  rcases same'.tagged disturbs.isOpen with ⟨gaveUp', isOpen, windowOpen⟩
  rcases same'.tagged disturbs.isKnown with ⟨known', isKnown, windowKnown⟩
  rcases same.get disturbs.wasOpen with ⟨before', wasOpen, windowBefore⟩
  have between := disturbs.between
  have sameTime := disturbs.sameTime
  simp only [Event.window, Prod.mk.injEq] at windowBlocking windowEarly windowOpen
  simp only [Event.window, Prod.mk.injEq] at windowKnown windowBefore
  refine undisturbed key start late open_ place _ _ _ _ before'
    ⟨isBlocking, isEarly, isOpen, isKnown,
    disturbs.positions, ?_, wasOpen, ?_, ?_⟩
  · simp only
    omega
  · simp only
    omega
  · intro event isEvent
    have sameBack : history.SameWindows other := same.symm
    rcases sameBack.get isEvent with ⟨event', isEvent', windowEvent⟩
    have unmoved := disturbs.unmoved event' isEvent'
    simp only [Event.window, Prod.mk.injEq] at windowEvent ⊢
    omega

theorem check_of_rejected {history : History} {limits : Limits} {key : Key}
    (occurs : history.keyEvents key ≠ [])
    (uncut : ∀ key, history.keyEvents key ≠ [] → ∀ goal,
      Search.dfs (moves (history.keyEvents key)) goal limits.maxStates []
        [(root, moves (history.keyEvents key) root)] ≠ .cut)
    (rejected : ∀ config, Search.Path (moves (history.keyEvents key)) root config →
      isEnd (history.keyEvents key) config = false)
    (passes : ∀ other, other ≠ key → ∃ last : Config,
      Search.Path (moves (history.keyEvents other)) root last ∧
        last.2.1 = (history.keyEvents other).length) :
    (check history limits).isViolation = true := by
  have nonempty := keyEvents_eq_nil.not.mp occurs
  have sortedIs (key : Key) : (history.onKey key).sorted.sorted.events = history.keyEvents key := by
    rw [sorted_sorted, History.keyEvents]
  have violates : (checkOneKey (history.onKey key).sorted limits).isViolation = true := by
    rw [checkOneKey_isViolation_iff occurs, sortedIs]
    exact Search.exhausted_of_not_goal (uncut key occurs _) rejected
  rcases Verdict.isViolation_iff.mp violates with ⟨violation, verdict⟩
  refine Verdict.isViolation_iff.mpr ⟨violation, check_eq_notLinearizable_iff.mpr
    ⟨key, (history.onKey key).sorted, ?_, verdict, ?_⟩⟩
  · rw [History.get_byKey, if_neg nonempty]
  · intro other masking below isOther
    rw [History.get_byKey] at isOther
    split_ifs at isOther with empty
    cases isOther
    have otherOccurs := keyEvents_eq_nil.not.mpr empty
    rcases passes other below.ne with ⟨last, path, done⟩
    rw [checkOneKey_eq_linearizable_iff otherOccurs, sortedIs]
    exact Search.found_of_path (uncut other otherOccurs _) path (by simpa [isDone] using done)

theorem linked_unknown_elsewhere {history : History} {key other : Key} {link : ℕ → ℕ}
    {moved : ℕ → Bool} (distinct : other ≠ key) :
    ∀ event ∈ (history.relabel (linked key link moved)).keyEvents other,
      event.isUnknown = true := by
  intro event member
  rw [History.keyEvents_relabel _ linked_window] at member
  rcases mem_map.mp member with ⟨⟨original, tag⟩, isTagged, rfl⟩
  have isOther := (History.mem_tagged.mp isTagged).2
  unfold linked
  rw [if_neg (fun isKey => distinct (isOther.symm.trans isKey))]
  rfl

/-- Where the later time makes a difference, a chain is rejected that passes with it. -/
theorem undisturbed_of_agree {history later : History} (postponed : history.Postponed later)
    (proper : ∀ event ∈ history.events, event.invoked ≤ event.returned)
    (within : history.WithinWindow) (agree : TimesAgree history later) :
    history.Undisturbed later := by
  intro key start late open_ other blocking early gaveUp known before disturbs
  let replace := linked key (chainPlace later key start late open_) (movedAt history later)
  have isWindow : ∀ event, (replace event).window = event.1.window := linked_window
  have same := history.sameWindows_relabel isWindow
  have same' := later.sameWindows_relabel isWindow
  have properLater : ∀ event ∈ later.events, event.invoked ≤ event.returned := by
    intro event member
    rcases getElem?_of_mem member with ⟨tag, found⟩
    rcases postponed.get_later found with ⟨event', isEvent', isPostponed⟩
    have := proper event' (mem_of_getElem? isEvent')
    have := isPostponed.notEarlier
    have := isPostponed.invoked_eq
    omega
  have isPostponed : (history.relabel replace).Postponed (later.relabel replace) := by
    refine postponed_linked postponed ?_
    intro tag event event' found found' lt
    simp [movedAt, found, found', lt.ne]
  have properKey {relabelled original : History} (same : relabelled.SameWindows original)
      (proper : ∀ event ∈ original.events, event.invoked ≤ event.returned) (key : Key) :
      ∀ event ∈ relabelled.keyEvents key, event.invoked ≤ event.returned :=
    fun event member => same.proper proper event (mem_keyEvents.mp member).1
  rcases exists_limits (history.relabel replace) with ⟨limits, uncut⟩
  rcases exists_limits (later.relabel replace) with ⟨limits', uncut'⟩
  refine agree _ _ same same' isPostponed limits limits' ?_ (check_of_paths uncut' ?_)
  · refine @check_of_rejected _ _ key ?_ uncut ?_ ?_
    · rcases postponed.tagged_later disturbs.isOpen with ⟨index, event, isEvent, _, _⟩
      rw [History.keyEvents_relabel _ isWindow]
      exact ne_nil_of_mem (mem_map_of_mem (mem_of_getElem? isEvent))
    · intro config path
      have notDone : config.2.1 ≠ ((history.relabel replace).keyEvents key).length :=
        not_isDone_chain postponed proper disturbs rfl rfl path
      have notCutOff : isCutOff ((history.relabel replace).keyEvents key) config = false := by
        by_contra cutOff
        rcases isCutOff_iff.mp (by simpa using cutOff) with ⟨event, blocking, found, blocks, inTime⟩
        rcases History.exists_tagged found with ⟨_, isEvent⟩
        rcases History.exists_tagged blocks with ⟨_, isBlocking⟩
        rcases same.tagged isEvent with ⟨event', isEvent', windowEvent⟩
        rcases same.tagged isBlocking with ⟨blocking', isBlocking', windowBlocking⟩
        have apart := within key config.2.1 event' blocking' (History.keyEvents_getElem? isEvent')
          (History.keyEvents_getElem? isBlocking')
        simp only [Event.window, Prod.mk.injEq] at windowEvent windowBlocking
        omega
      simp [isEnd, isDone, notDone, notCutOff]
    · intro other distinct
      exact exists_path_of_unknown (keyEvents_sorted other) (properKey same proper other)
        (linked_unknown_elsewhere distinct)
  · intro key'
    by_cases isKey : key' = key
    · subst isKey
      exact exists_path_chain postponed proper disturbs _ _ rfl
    · exact exists_path_of_unknown (keyEvents_sorted key') (properKey same' properLater key')
        (linked_unknown_elsewhere isKey)

/-- For given times, no rejected history passes because clients gave up later if the later times
make no difference, and only then, as far as the window cuts nothing off. -/
theorem postponed_verdict_iff {history later : History} (postponed : history.Postponed later)
    (proper : ∀ event ∈ history.events, event.invoked ≤ event.returned) :
    (history.Undisturbed later → TimesAgree history later) ∧
      (history.WithinWindow → TimesAgree history later → history.Undisturbed later) := by
  refine ⟨?_, undisturbed_of_agree postponed proper⟩
  intro undisturbed other other' same same' isPostponed limits limits' rejected
  exact not_passes_of_undisturbed isPostponed (same.proper proper)
    (undisturbed.sameWindows same same') rejected

/-- A write the client gave up on, and two reads after that: the first finds nothing, the second
what was written. -/
def slowWrite (gaveUp : ℕ) : History :=
  { events := [⟨1, .write [107] [97], .unknown, 0, gaveUp⟩, ⟨2, .read [107], .value none, 2, 3⟩,
      ⟨3, .read [107], .value (some [97]), 4, 5⟩] }

theorem slowWrite_postponed {gaveUp later : ℕ} (notEarlier : gaveUp ≤ later) :
    (slowWrite gaveUp).Postponed (slowWrite later) :=
  .cons ⟨rfl, notEarlier, fun _ => rfl⟩ (.cons ⟨rfl, le_rfl, fun lt => absurd lt (lt_irrefl _)⟩
    (.cons ⟨rfl, le_rfl, fun lt => absurd lt (lt_irrefl _)⟩ .nil))

/-- If the client gives up at time 1, the history is rejected, and at time 9 it passes. -/
theorem slowWrite_passes_later :
    (slowWrite 1).Postponed (slowWrite 9) ∧
      (check (slowWrite 1) .default).isViolation = true ∧
      check (slowWrite 9) .default = .linearizable :=
  ⟨slowWrite_postponed (by decide), by decide +kernel, by decide +kernel⟩

/-- Once both reads have been invoked, it does not matter when the client gives up. -/
theorem slowWrite_agrees :
    (∀ event ∈ (slowWrite 4).events, event.invoked ≤ event.returned) ∧
      TimesAgree (slowWrite 4) (slowWrite 9) := by
  have postponed : (slowWrite 4).Postponed (slowWrite 9) := slowWrite_postponed (by decide)
  refine ⟨by decide, (postponed_verdict_iff postponed (by decide)).1 ?_⟩
  intro key start late open_ other blocking early gaveUp known before disturbs
  have invoked : early.1.invoked ≤ 4 := by
    have isEarly := (History.mem_tagged.mp (mem_of_getElem? disturbs.isEarly)).1
    exact (by decide : ∀ event ∈ (slowWrite 9).events, event.invoked ≤ 4) _
      (mem_of_getElem? isEarly)
  have isOpen := (History.mem_tagged.mp (mem_of_getElem? disturbs.isOpen)).1
  have between := disturbs.between
  have sameTime := disturbs.sameTime
  have isRead : before = ⟨2, .read [107], .value none, 2, 3⟩ := by
    have member := mem_of_getElem? disturbs.wasOpen
    simp only [slowWrite, mem_cons, not_mem_nil, or_false] at member
    rcases member with rfl | rfl | rfl
    · simp only at between
      omega
    · rfl
    · simp only at between
      omega
  subst isRead
  rcases postponed.get disturbs.wasOpen with ⟨event', isEvent', isPostponed⟩
  cases isOpen.symm.trans isEvent'
  have isBlocking := (History.mem_tagged.mp (mem_of_getElem? disturbs.isBlocking)).1
  have short := (by decide : ∀ event ∈ (slowWrite 9).events, event.invoked = 2 → event.returned = 3)
    _ (mem_of_getElem? isBlocking) (by
      have := isPostponed.invoked_eq
      simp only at this
      omega)
  simp only at between
  omega

end ChronoScope.Oracle
