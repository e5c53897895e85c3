import ChronoScope.Oracle.Exhaustiveness
import ChronoScope.Oracle.Overtaking

/-!
# Giving up later

When a client gives up on an operation says nothing about when it took effect,
but the checker compares the candidates with this time while the operation is at
the frontier. A later time can let an operation come first that could not
before, and a rejected history pass.

It is a matter of the times only whether this can happen
(`postponed_verdict_iff`): some operation is invoked after the client gave up,
but in the later history no later than the operation at the frontier returns,
and another operation with a known outcome comes after both.
-/

namespace ChronoScope.Oracle

open List

/-- The client gave up later, and nothing else is different. -/
structure Event.Postponed (event later : Event) : Prop where
  same : later = { event with returned := later.returned }
  notEarlier : event.returned ≤ later.returned
  unknown : event.returned < later.returned → event.isUnknown = true

namespace Event.Postponed

variable {event later : Event} (postponed : event.Postponed later)

include postponed

theorem invoked_eq : later.invoked = event.invoked := by rw [postponed.same]

theorem key_eq : later.op.key = event.op.key := by rw [postponed.same]

theorem isUnknown_eq : later.isUnknown = event.isUnknown := by
  rw [postponed.same]
  rfl

theorem step_eq (model : Model) : model.step later = model.step event := by
  rw [postponed.same]
  rfl

end Event.Postponed

variable {event' : Event × ℕ} {index index' : ℕ}

namespace History

/-- The clients gave up later on some of the operations whose outcome they never learned. -/
def Postponed (history later : History) : Prop :=
  List.Forall₂ Event.Postponed history.events later.events

variable {history later : History} {key : Key}

theorem tagged_pairwise (history : History) (key : Key) :
    (history.tagged key).Pairwise fun left right => left.1.NotAfter right.1 := by
  have : IsTrans (Event × ℕ) fun left right => left.1.NotAfter right.1 :=
    ⟨fun _ _ _ first second => IsTrans.trans _ _ _ first second⟩
  have : Std.Total fun left right : Event × ℕ => left.1.NotAfter right.1 :=
    ⟨fun left right => Std.Total.total left.1 right.1⟩
  exact pairwise_insertionSort _ _

variable {event : Event × ℕ}

theorem tagged_notAfter (found : (history.tagged key)[index]? = some event)
    (found' : (history.tagged key)[index']? = some event') (lt : index < index') :
    event.1.NotAfter event'.1 := by
  rcases List.getElem?_eq_some_iff.mp found with ⟨_, rfl⟩
  rcases List.getElem?_eq_some_iff.mp found' with ⟨_, rfl⟩
  exact pairwise_iff_getElem.mp (history.tagged_pairwise key) _ _ _ _ lt

theorem map_fst_tagged (history : History) (key : Key) :
    (history.tagged key).map Prod.fst = history.keyEvents key := by
  rw [← keyEvents_relabel history (fun _ => rfl), relabel_fst]

theorem keyEvents_getElem? (found : (history.tagged key)[index]? = some event) :
    (history.keyEvents key)[index]? = some event.1 := by
  rw [← map_fst_tagged, getElem?_map, found]
  rfl

theorem exists_tagged {event : Event} (found : (history.keyEvents key)[index]? = some event) :
    ∃ tag, (history.tagged key)[index]? = some (event, tag) := by
  rw [← map_fst_tagged, getElem?_map, Option.map_eq_some_iff] at found
  rcases found with ⟨⟨_, tag⟩, found, rfl⟩
  exact ⟨tag, found⟩

theorem length_tagged (history : History) (key : Key) :
    (history.tagged key).length = (history.keyEvents key).length := by
  rw [← map_fst_tagged, length_map]

namespace Postponed

section

variable (postponed : history.Postponed later)

include postponed

theorem get {tag : ℕ} {event : Event} (found : history.events[tag]? = some event) :
    ∃ event', later.events[tag]? = some event' ∧ event.Postponed event' := by
  rcases forall₂_iff_get.mp postponed with ⟨sameLength, each⟩
  rcases List.getElem?_eq_some_iff.mp found with ⟨inside, rfl⟩
  exact ⟨later.events[tag], List.getElem?_eq_getElem (sameLength ▸ inside),
    each tag inside (sameLength ▸ inside)⟩

theorem get_later {tag : ℕ} {event' : Event} (found : later.events[tag]? = some event') :
    ∃ event, history.events[tag]? = some event ∧ event.Postponed event' := by
  rcases forall₂_iff_get.mp postponed with ⟨sameLength, each⟩
  rcases List.getElem?_eq_some_iff.mp found with ⟨inside, rfl⟩
  exact ⟨history.events[tag], List.getElem?_eq_getElem (sameLength ▸ inside),
    each tag (sameLength ▸ inside) inside⟩

theorem tagged (found : (history.tagged key)[index]? = some event) :
    ∃ (index' : ℕ) (event' : Event × ℕ), (later.tagged key)[index']? = some event' ∧
      event'.2 = event.2 ∧ event.1.Postponed event'.1 := by
  rcases event with ⟨event, tag⟩
  rcases mem_tagged.mp (mem_of_getElem? found) with ⟨isEvent, isKey⟩
  rcases postponed.get isEvent with ⟨event', isEvent', isPostponed⟩
  have member : (event', tag) ∈ later.tagged key :=
    mem_tagged.mpr ⟨isEvent', isPostponed.key_eq.trans isKey⟩
  rcases getElem?_of_mem member with ⟨index', found'⟩
  exact ⟨index', (event', tag), found', rfl, isPostponed⟩

theorem tagged_later (found : (later.tagged key)[index']? = some event') :
    ∃ (index : ℕ) (event : Event × ℕ), (history.tagged key)[index]? = some event ∧
      event'.2 = event.2 ∧ event.1.Postponed event'.1 := by
  rcases event' with ⟨event', tag⟩
  rcases mem_tagged.mp (mem_of_getElem? found) with ⟨isEvent, isKey⟩
  rcases postponed.get_later isEvent with ⟨event, isEvent', isPostponed⟩
  have member : (event, tag) ∈ history.tagged key :=
    mem_tagged.mpr ⟨isEvent', isPostponed.key_eq.symm.trans isKey⟩
  rcases getElem?_of_mem member with ⟨index, found'⟩
  exact ⟨index, (event, tag), found', rfl, isPostponed⟩

end

end Postponed

/-- Positions on a key of the later history where the later time makes a difference: an operation
`early`, invoked after the client gave up on `open_`, can now be placed before it, while
`blocking` is at the frontier. That is `open_` itself or one invoked at the same time. One of the
operations from the frontier on, other than these, keeps its time. -/
structure Disturbs (history later : History) (key : Key) (start late open_ other : ℕ)
    (blocking early gaveUp known : Event × ℕ) (before : Event) : Prop where
  isBlocking : (later.tagged key)[start]? = some blocking
  isEarly : (later.tagged key)[late]? = some early
  isOpen : (later.tagged key)[open_]? = some gaveUp
  isKnown : (later.tagged key)[other]? = some known
  positions : start ≤ open_ ∧ late ≤ start + ahead ∧ start ≤ other ∧ other ≠ open_ ∧ other ≠ late
  sameTime : blocking.1.invoked = gaveUp.1.invoked
  wasOpen : history.events[gaveUp.2]? = some before
  between : before.returned < early.1.invoked ∧ early.1.invoked ≤ blocking.1.returned
  unmoved : ∀ event, history.events[known.2]? = some event → event.returned = known.1.returned

/-- Nowhere does the later time make a difference. -/
def Undisturbed (history later : History) : Prop :=
  ∀ key start late open_ other blocking early gaveUp known before,
    ¬ Disturbs history later key start late open_ other blocking early gaveUp known before

end History

/-- All that is left has an unknown outcome, except for one operation that the register accepts
now. -/
def Finishes (events : List Event) (value : Value) (left : Finset ℕ) : Prop :=
  ∃ last, ∀ index ∈ left, ∀ event, events[index]? = some event →
    event.isUnknown = true ∨ index = last ∧ (Model.step { value := value } event).isSome = true

theorem Finishes.next {events : List Event}
    (proper : ∀ event ∈ events, event.invoked ≤ event.returned) {value : Value} {left : Finset ℕ}
    {first : ℕ} (finishes : Finishes events value left) (isFirst : first ∈ left) :
    ∃ index model, Next events value left first index model ∧
      Finishes events model.value (left.erase index) := by
  rcases finishes with ⟨last, each⟩
  have inTime (event blocking : Event) (found : events[first]? = some event)
      (blocks : events[first]? = some blocking) : event.invoked ≤ blocking.returned := by
    cases found.symm.trans blocks
    exact proper event (mem_of_getElem? found)
  by_cases unknown : ∀ event, events[first]? = some event → event.isUnknown = true
  · refine ⟨first, { value := value }, ⟨isFirst, inTime, ?_⟩, last, ?_⟩
    · exact fun event found => Or.inl ⟨unknown event found, rfl⟩
    · exact fun index stillLeft => each index (Finset.mem_of_mem_erase stillLeft)
  · push Not at unknown
    rcases unknown with ⟨event, found, known⟩
    rcases each first isFirst event found with impossible | ⟨rfl, accepted⟩
    · exact absurd impossible known
    · rcases Option.isSome_iff_exists.mp accepted with ⟨model, stepped⟩
      refine ⟨first, model, ⟨isFirst, inTime, ?_⟩, first, ?_⟩
      · intro other isOther
        cases found.symm.trans isOther
        exact Or.inr stepped
      · intro index stillLeft other isOther
        rcases Finset.mem_erase.mp stillLeft with ⟨notFirst, isLeft⟩
        rcases each index isLeft other isOther with isUnknown | ⟨isLast, _⟩
        · exact Or.inl isUnknown
        · exact absurd isLast notFirst

/-- The operations left are those left in a configuration of the later search, from which it
gets to its end. -/
structure Follows (history later : History) (key : Key) (config : Config) (value : Value)
    (left : Finset ℕ) : Prop where
  fits : Fits (later.keyEvents key) config
  valueIs : config.1 = value
  inside : ∀ index ∈ left, index < (history.tagged key).length
  matched : ∀ index event index' event', (history.tagged key)[index]? = some event →
    (later.tagged key)[index']? = some event' → event'.2 = event.2 →
    (index ∈ left ↔ index' ∈ unplaced (later.keyEvents key) config)
  reaches : ∃ last, Search.Path (moves (later.keyEvents key)) config last ∧
    last.2.1 = (later.keyEvents key).length

section Following

variable {history later : History} {key : Key} (postponed : history.Postponed later)

include postponed

theorem postponed_of_tag {event : Event × ℕ} (found : (history.tagged key)[index]? = some event)
    (found' : (later.tagged key)[index']? = some event') (same : event'.2 = event.2) :
    event.1.Postponed event'.1 := by
  rcases postponed.tagged found with ⟨_, other, isOther, same', isPostponed⟩
  cases History.tagged_index_eq found' isOther (same.trans same'.symm)
  cases found'.symm.trans isOther
  exact isPostponed

/-- Of two operations in one order in the history and not in the other order in the later
history, neither is invoked first, and the first does not return first. -/
theorem sameTime_of_swapped {other other' : ℕ} {event second second' : Event × ℕ}
    (found : (history.tagged key)[index]? = some event)
    (isSecond : (history.tagged key)[other]? = some second)
    (found' : (later.tagged key)[index']? = some event')
    (isSecond' : (later.tagged key)[other']? = some second') (same : event'.2 = event.2)
    (same' : second'.2 = second.2) (notAfter : index ≤ other) (notBefore : other' ≤ index') :
    second'.1.invoked = event'.1.invoked ∧ second'.1.returned ≤ event'.1.returned := by
  have sameEvent := (postponed_of_tag postponed found found' same).invoked_eq
  have sameSecond := (postponed_of_tag postponed isSecond isSecond' same').invoked_eq
  rcases notBefore.eq_or_lt with rfl | before
  · cases found'.symm.trans isSecond'
    exact ⟨rfl, le_rfl⟩
  · have swapped := History.tagged_notAfter isSecond' found' before
    rcases notAfter.eq_or_lt with rfl | after
    · cases found.symm.trans isSecond
      have := History.tagged_index_eq found' isSecond' (same.trans same'.symm)
      omega
    · have inOrder := (History.tagged_notAfter found isSecond after).invoked_le
      unfold Event.NotAfter at swapped
      omega

omit postponed in
theorem Follows.move {config : Config} {left : Finset ℕ} {offset : ℕ} {skip : Bool} {early : Event}
    {model : Model} {tag index : ℕ} {event : Event × ℕ}
    (follows : Follows history later key config config.1 left)
    (admits : Admits (later.keyEvents key) config offset skip early model)
    (reaches : ∃ last, Search.Path (moves (later.keyEvents key)) (config.after offset model) last ∧
      last.2.1 = (later.keyEvents key).length)
    (foundEarly : (later.tagged key)[config.2.1 + offset]? = some (early, tag))
    (found : (history.tagged key)[index]? = some event) (same : tag = event.2) :
    Follows history later key (config.after offset model) model.value (left.erase index) := by
  refine ⟨follows.fits.move admits, rfl, ?_, ?_, reaches⟩
  · exact fun other stillLeft => follows.inside other (Finset.mem_of_mem_erase stillLeft)
  · intro other second other' second' isSecond isSecond' tags
    rw [unplaced_after follows.fits.narrow, Finset.mem_erase, Finset.mem_erase,
      follows.matched other second other' second' isSecond isSecond' tags]
    refine and_congr_left' (not_congr ⟨?_, ?_⟩)
    · rintro rfl
      cases found.symm.trans isSecond
      exact History.tagged_index_eq isSecond' foundEarly (tags.trans same.symm)
    · rintro rfl
      cases foundEarly.symm.trans isSecond'
      exact History.tagged_index_eq isSecond found (tags.symm.trans same)

/-- As long as the later time makes no difference, what the later search places next is in time
here, or all that is left can be left out. -/
theorem Follows.next (undisturbed : history.Undisturbed later) {config : Config} {value : Value}
    {left : Finset ℕ} {first : ℕ} (follows : Follows history later key config value left)
    (isFirst : first ∈ left) (least : ∀ index ∈ left, first ≤ index) :
    (∃ index model, Next (history.keyEvents key) value left first index model ∧
      ∃ config', Follows history later key config' model.value (left.erase index)) ∨
    Finishes (history.keyEvents key) value left := by
  cases follows.valueIs
  rcases follows.reaches with ⟨last, path, done⟩
  have matched := follows.matched
  obtain ⟨front, foundFirst⟩ : ∃ front, (history.tagged key)[first]? = some front :=
    ⟨_, List.getElem?_eq_getElem (follows.inside first isFirst)⟩
  rcases postponed.tagged foundFirst with ⟨first', front', foundFirst', tagFirst, _⟩
  have firstLeft := (matched _ _ _ _ foundFirst foundFirst' tagFirst).mp isFirst
  have frontierLe {index : ℕ} (isLeft : index ∈ unplaced (later.keyEvents key) config) :
      config.2.1 ≤ index := by
    by_contra below
    exact (mem_unplaced.mp isLeft).2 (Or.inl (Nat.not_le.mp below))
  rcases Relation.ReflTransGen.cases_head path with rfl | ⟨next, edge, path'⟩
  · have := frontierLe firstLeft
    have := (mem_unplaced.mp firstLeft).1
    omega
  rcases mem_moves edge with ⟨offset, skip, early, model, admits, rfl⟩
  rcases History.exists_tagged admits.present with ⟨tag, foundEarly'⟩
  rcases postponed.tagged_later foundEarly' with
    ⟨index, event, foundEarly, tagEarly, earlyPostponed⟩
  have earlyLeft : config.2.1 + offset ∈ unplaced (later.keyEvents key) config :=
    mem_unplaced.mpr ⟨(List.getElem?_eq_some_iff.mp admits.present).1, admits.unplaced⟩
  have indexLeft := (matched _ _ _ _ foundEarly foundEarly' tagEarly).mpr earlyLeft
  have effect : event.1.isUnknown = true ∧ model = { value := config.1 } ∨
      Model.step { value := config.1 } event.1 = some model := by
    have effect := admits.effect
    rw [earlyPostponed.isUnknown_eq, earlyPostponed.step_eq] at effect
    cases skip with
    | true => exact Or.inl effect
    | false => exact Or.inr effect
  by_cases inTime : event.1.invoked ≤ front.1.returned
  · left
    refine ⟨index, model, ⟨indexLeft, ?_, ?_⟩, config.after offset model,
      follows.move admits ⟨last, path', done⟩ foundEarly' foundEarly tagEarly⟩
    · intro other blocking isOther blocks
      cases (History.keyEvents_getElem? foundEarly).symm.trans isOther
      cases (History.keyEvents_getElem? foundFirst).symm.trans blocks
      exact inTime
    · intro other isOther
      cases (History.keyEvents_getElem? foundEarly).symm.trans isOther
      exact effect
  · right
    rcases exists_blocking (Nat.le_add_right ..) admits.present with ⟨blocking, blocks⟩
    rcases History.exists_tagged blocks with ⟨tagBlocking, foundBlocking'⟩
    rcases postponed.tagged_later foundBlocking' with ⟨frontier, _, foundBlocking, sameBlocking, _⟩
    have frontierLeft : config.2.1 ∈ unplaced (later.keyEvents key) config :=
      mem_unplaced.mpr ⟨(List.getElem?_eq_some_iff.mp blocks).1, not_placed_frontier _ _⟩
    have isLeft := (matched _ _ _ _ foundBlocking foundBlocking' sameBlocking).mpr frontierLeft
    have swapped := sameTime_of_swapped postponed foundFirst foundBlocking foundFirst'
      foundBlocking'
      tagFirst sameBlocking (least _ isLeft) (frontierLe firstLeft)
    have stillOpen := admits.inTime blocking blocks
    have sameInvoked : early.invoked = event.1.invoked := earlyPostponed.invoked_eq
    refine ⟨index, ?_⟩
    intro other otherLeft known isKnown
    by_cases same : other = index
    · subst same
      cases (History.keyEvents_getElem? foundEarly).symm.trans isKnown
      rcases effect with ⟨unknown, _⟩ | stepped
      · exact Or.inl unknown
      · exact Or.inr ⟨rfl, by simp [stepped]⟩
    · -- An operation with a known outcome keeps its time, and the later time makes a difference.
      left
      by_contra notUnknown
      rcases History.exists_tagged isKnown with ⟨tagKnown, foundKnown⟩
      rcases postponed.tagged foundKnown with
        ⟨other', known', foundKnown', sameKnown, knownPostponed⟩
      have unmoved : known.returned = known'.1.returned := by
        by_contra moved
        exact notUnknown (knownPostponed.unknown (lt_of_le_of_ne knownPostponed.notEarlier moved))
      refine undisturbed key config.2.1 (config.2.1 + offset) first' other' _ _ _ _ front.1
        ⟨foundBlocking', foundEarly', foundFirst', foundKnown',
          ⟨frontierLe firstLeft, ?_, ?_, ?_, ?_⟩,
          swapped.1, ?_, ⟨?_, stillOpen⟩, ?_⟩
      · exact Nat.add_le_add_left admits.window _
      · exact frontierLe ((matched _ _ _ _ foundKnown foundKnown' sameKnown).mp otherLeft)
      · rintro rfl
        cases foundFirst'.symm.trans foundKnown'
        cases History.tagged_index_eq foundKnown foundFirst (sameKnown.symm.trans tagFirst)
        cases foundFirst.symm.trans foundKnown
        have := swapped.2
        simp only at inTime unmoved this
        omega
      · rintro rfl
        cases foundEarly'.symm.trans foundKnown'
        exact same (History.tagged_index_eq foundKnown foundEarly (sameKnown.symm.trans tagEarly))
      · rw [tagFirst]
        exact (History.mem_tagged.mp (mem_of_getElem? foundFirst)).1
      · have := Nat.not_le.mp inTime
        rwa [← sameInvoked] at this
      · intro unchanged isUnchanged
        rw [sameKnown] at isUnchanged
        have := (History.mem_tagged.mp (mem_of_getElem? foundKnown)).1
        cases this.symm.trans isUnchanged
        exact unmoved

section

variable (proper : ∀ event ∈ history.events, event.invoked ≤ event.returned)
  (undisturbed : history.Undisturbed later)

include proper undisturbed

/-- If the later search gets to its end, so does this one, unless something is cut off. -/
theorem exists_end_of_later
    (reaches : ∃ last, Search.Path (moves (later.keyEvents key)) root last ∧
      last.2.1 = (later.keyEvents key).length) :
    ∃ last, Search.Path (moves (history.keyEvents key)) root last ∧
      isEnd (history.keyEvents key) last = true := by
  have proper' : ∀ event ∈ history.keyEvents key, event.invoked ≤ event.returned :=
    fun event member => proper event (mem_keyEvents.mp member).1
  have isRoot {events : List Event} {index : ℕ} :
      index ∈ unplaced events root ↔ index < events.length := by
    simp [mem_unplaced, root, Placed]
  refine exists_end_of_guide (keyEvents_sorted key) (fun value left =>
    (∃ config, Follows history later key config value left) ∨
      Finishes (history.keyEvents key) value left) ?_
        (Or.inl ⟨root, fits_root, rfl, ?_, ?_, reaches⟩)
  · rintro value left first (⟨config, follows⟩ | finishes) isFirst least
    · rcases follows.next postponed undisturbed isFirst least with
        ⟨index, model, isNext, follows'⟩ | finishes
      · exact ⟨index, model, isNext, Or.inl follows'⟩
      · rcases finishes.next proper' isFirst with ⟨index, model, isNext, finishes'⟩
        exact ⟨index, model, isNext, Or.inr finishes'⟩
    · rcases finishes.next proper' isFirst with ⟨index, model, isNext, finishes'⟩
      exact ⟨index, model, isNext, Or.inr finishes'⟩
  · intro index isLeft
    rw [History.length_tagged]
    exact isRoot.mp isLeft
  · intro index event index' event' found found' _
    rw [isRoot, isRoot, ← History.length_tagged, ← History.length_tagged]
    exact iff_of_true (List.getElem?_eq_some_iff.mp found).1 (List.getElem?_eq_some_iff.mp found').1

/-- Where the later time makes no difference, a rejected history does not pass with it. -/
theorem not_passes_of_undisturbed {limits limits' : Limits}
    (rejected : (check history limits).isViolation = true) :
    check later limits' ≠ .linearizable := by
  intro passes
  rcases Verdict.isViolation_iff.mp rejected with ⟨violation, verdict⟩
  rcases check_eq_notLinearizable_iff.mp verdict with ⟨key, sub, found, violates, _⟩
  rw [History.get_byKey] at found
  split_ifs at found with empty
  cases found
  have occurs : later.keyEvents key ≠ [] := by
    rcases exists_mem_of_ne_nil _ (keyEvents_eq_nil.not.mpr empty) with ⟨event, member⟩
    rcases getElem?_of_mem member with ⟨index, isEvent⟩
    rcases History.exists_tagged isEvent with ⟨tag, isTagged⟩
    rcases postponed.tagged isTagged with ⟨index', event', isTagged', _, _⟩
    exact ne_nil_of_mem (mem_of_getElem? (History.keyEvents_getElem? isTagged'))
  rcases Search.exists_path_of_found (Search.grounded_root root)
    (check_eq_linearizable_iff.mp passes key occurs) with ⟨last, path, done⟩
  rcases exists_end_of_later postponed proper undisturbed
    ⟨last, path, by simpa [isDone] using done⟩ with ⟨last, path, ends⟩
  have sortedIs : (history.onKey key).sorted.sorted.events = history.keyEvents key := by
    rw [sorted_sorted, History.keyEvents]
  rw [← sortedIs] at path ends
  rw [not_reachable_of_rejected (Verdict.isViolation_iff.mpr ⟨_, violates⟩) path] at ends
  cases ends

end

end Following

end ChronoScope.Oracle
