import ChronoScope.Oracle.Guides
import ChronoScope.Oracle.Locality

/-!
# What the checker rejects

A search that comes to its end has seen every configuration it can reach, and a
configuration where the window cut off a candidate makes the verdict
inconclusive. So after a rejection nothing was cut off and nothing reachable has
everything placed (`not_reachable_of_rejected`).

A linearization guides the search: next comes the frontier operation, if it is
to be left out, and otherwise the first operation of the order that is not
placed. The search follows as long as the window does not cut it off, so what is
rejected has no linearization.
-/

namespace ChronoScope.Oracle

open List

/-- The operation right behind the window could be ordered before the frontier operation. -/
def isCutOff (events : List Event) (config : Config) : Bool :=
  match events[config.2.1 + (ahead + 1)]?, events[config.2.1]? with
  | some event, some blocking => decide (event.invoked ≤ blocking.returned)
  | _, _ => false

theorem isCutOff_iff {events : List Event} {config : Config} :
    isCutOff events config = true ↔
      ∃ event blocking, events[config.2.1 + (ahead + 1)]? = some event ∧
        events[config.2.1]? = some blocking ∧ event.invoked ≤ blocking.returned := by
  unfold isCutOff
  split
  · rename_i event blocking found blocks
    simp [found, blocks]
  · rename_i missing
    constructor
    · intro impossible
      cases impossible
    · rintro ⟨event, blocking, found, blocks, _⟩
      exact absurd blocks (missing event blocking found)

/-- The cursors of candidates in the window end here. -/
def windowEnd : ℕ := 2 * (ahead + 1)

section Window

variable {events : List Event} {frame : Frame}

theorem cursor_of_move {index : ℕ} {model : Model} {frontier mask : ℕ}
    (moved : turn events frame = .move index model frontier mask) :
    frame.cursor + 1 ≤ windowEnd := by
  rcases admits_of_turn moved with ⟨event, admits, _⟩
  have window := admits.window
  rw [windowEnd]
  omega

theorem turn_windowEnd (atEnd : frame.cursor = windowEnd) :
    turn events frame = .halt (isCutOff events frame.config) := by
  have offsetIs : frame.cursor / 2 = ahead + 1 := by
    rw [atEnd, windowEnd]
    omega
  cases found : events[frame.frontier + (ahead + 1)]? with
  | none => simp [turn, isCutOff, Frame.config, offsetIs, found]
  | some event =>
    rcases exists_blocking (Nat.le_add_right ..) found with ⟨blocking, blocks⟩
    rw [turn_of_present (by rwa [offsetIs]) blocks, if_pos (by omega)]
    simp [isCutOff, Frame.config, found, blocks]

theorem turn_ne_halt_true (before : frame.cursor < windowEnd) : turn events frame ≠ .halt true := by
  have within : frame.cursor / 2 ≤ ahead := by
    rw [windowEnd] at before
    omega
  cases found : events[frame.frontier + frame.cursor / 2]? with
  | none => simp [turn, found]
  | some event =>
    rcases exists_blocking (Nat.le_add_right ..) found with ⟨blocking, blocks⟩
    rw [turn_of_present found blocks, if_neg (Nat.not_lt.mpr within)]
    split_ifs
    · simp
    · simp
    · simp
    · split <;> simp
    · split <;> simp

theorem turn_of_cutOff (sorted : events.Pairwise fun left right => left.invoked ≤ right.invoked)
    (cutOff : isCutOff events frame.config = true) (before : frame.cursor < windowEnd)
    (boundedOut : Bool) : turn events frame ≠ .halt boundedOut := by
  rcases isCutOff_iff.mp cutOff with ⟨event, blocking, found, blocks, inTime⟩
  have found' : events[frame.frontier + (ahead + 1)]? = some event := found
  rw [windowEnd] at before
  have within : frame.cursor / 2 ≤ ahead := by omega
  rcases exists_blocking (Nat.add_le_add_left (show frame.cursor / 2 ≤ ahead + 1 by omega)
    frame.frontier) found' with ⟨candidate, isCandidate⟩
  have earlier : candidate.invoked ≤ blocking.returned := by
    refine le_trans ?_ inTime
    rcases List.getElem?_eq_some_iff.mp isCandidate with ⟨_, rfl⟩
    rcases List.getElem?_eq_some_iff.mp found' with ⟨_, rfl⟩
    exact pairwise_iff_getElem.mp sorted _ _ _ _ (by omega)
  rw [turn_of_present isCandidate blocks, if_neg (Nat.not_lt.mpr within)]
  split_ifs with isPlaced late known
  · simp
  · omega
  · simp
  · split <;> simp
  · split <;> simp

theorem scan_frame (visited : List Config) (turns : ℕ) (frame : Frame) :
    (scan events visited turns frame).frame.config = frame.config ∧
      ((scan events visited turns frame).move ≠ none →
        (scan events visited turns frame).frame.cursor ≤ windowEnd) := by
  induction turns generalizing frame with
  | zero => simp [scan]
  | succ turns ih =>
    have rest := ih { frame with cursor := frame.cursor + 1 }
    rw [scan]
    cases taken : turn events frame with
    | halt boundedOut => simp [Frame.config]
    | pass => exact rest
    | move index model frontier mask =>
      simp only
      split_ifs with seen
      · exact rest
      · exact ⟨rfl, fun _ => cursor_of_move taken⟩

theorem scan_boundedOut_of_move {visited : List Config} {turns : ℕ} {move : ℕ × Model × ℕ × ℕ}
    (moved : (scan events visited turns frame).move = some move) :
    (scan events visited turns frame).boundedOut = false := by
  induction turns generalizing frame with
  | zero => cases moved
  | succ turns ih =>
    rw [scan] at moved ⊢
    cases taken : turn events frame with
    | halt boundedOut => simp [taken] at moved
    | pass =>
      rw [taken] at moved
      exact ih moved
    | move index model frontier mask =>
      simp only [taken] at moved ⊢
      split_ifs at moved ⊢ with seen
      · exact ih moved
      · rfl

theorem scan_boundedOut (sorted : events.Pairwise fun left right => left.invoked ≤ right.invoked)
    (visited : List Config) (turns : ℕ) (frame : Frame) (early : frame.cursor ≤ windowEnd)
    (left : turns = cursorEnd - frame.cursor)
    (stays : (scan events visited turns frame).move = none) :
    (scan events visited turns frame).boundedOut = isCutOff events frame.config := by
  induction turns generalizing frame with
  | zero =>
    rw [windowEnd] at early
    rw [cursorEnd] at left
    omega
  | succ turns ih =>
    have left' : turns = cursorEnd - (frame.cursor + 1) := by omega
    rw [scan] at stays ⊢
    rcases early.eq_or_lt with atEnd | before
    · rw [turn_windowEnd atEnd]
    · have rest := ih { frame with cursor := frame.cursor + 1 } before left'
      cases taken : turn events frame with
      | halt boundedOut =>
        have notTrue : boundedOut = false := by
          by_contra isTrue
          exact turn_ne_halt_true before (by rw [taken]; simpa using isTrue)
        have notCutOff : isCutOff events frame.config = false := by
          by_contra cutOff
          exact turn_of_cutOff sorted (by simpa using cutOff) before boundedOut taken
        rw [notTrue, notCutOff]
      | pass =>
        rw [taken] at stays
        exact rest stays
      | move index model frontier mask =>
        simp only [taken] at stays ⊢
        split_ifs at stays ⊢ with seen
        exact rest stays

end Window

theorem Verdict.isViolation_iff {verdict : Verdict} :
    verdict.isViolation = true ↔ ∃ violation, verdict = .notLinearizable violation := by
  cases verdict <;> simp [isViolation]

variable {history : History} {limits : Limits}

section Rejections

variable {events : List Event} {first : Event} {maxConcurrency : ℕ}

theorem loop_of_boundedOut (budget : ℕ) (progress : Progress)
    (boundedOut : progress.boundedOut = true) :
    (loop events first maxConcurrency budget progress).isViolation = false := by
  induction budget generalizing progress with
  | zero =>
    unfold loop
    split
    · simp [conclude, boundedOut, Verdict.isViolation]
    · rfl
  | succ budget ih =>
    unfold loop
    split
    · simp [conclude, boundedOut, Verdict.isViolation]
    · simp only
      split_ifs
      · rfl
      · split
        · exact ih _ (by simp [enter, boundedOut])
        · exact ih _ (by simp [boundedOut])

theorem loop_of_cutOff (sorted : events.Pairwise fun left right => left.invoked ≤ right.invoked)
    (budget : ℕ) (progress : Progress) {frame : Frame} (onStack : frame ∈ progress.stack)
    (cutOff : isCutOff events frame.config = true) (early : frame.cursor ≤ windowEnd) :
    (loop events first maxConcurrency budget progress).isViolation = false := by
  induction budget generalizing progress frame with
  | zero =>
    unfold loop
    split
    · rename_i empty
      simp [empty] at onStack
    · rfl
  | succ budget ih =>
    unfold loop
    split
    · rename_i empty
      simp [empty] at onStack
    · rename_i top rest stackIs
      rw [stackIs, mem_cons] at onStack
      simp only
      split_ifs
      · rfl
      · have left := @scan_frame events progress.visited (cursorEnd - top.cursor) top
        split
        · rename_i move moved
          rcases onStack with rfl | below
          · have stillCutOff : isCutOff events (scan events progress.visited
                (cursorEnd - frame.cursor) frame).frame.config = true := by
              rw [left.1]
              exact cutOff
            exact ih _ (by simp [enter]) stillCutOff (left.2 (by simp [moved]))
          · exact ih _ (by simp [enter, below]) cutOff early
        · rename_i stays
          rcases onStack with rfl | below
          · refine loop_of_boundedOut _ _ ?_
            simp [scan_boundedOut sorted progress.visited _ frame early rfl stays, cutOff]
          · exact ih _ below cutOff early

/-- What ends the search other than its budget: everything is placed, or something is cut off. -/
def isEnd (events : List Event) (config : Config) : Bool :=
  isDone events config || isCutOff events config

/-- The checker rejects exactly when the search is exhausted without coming to an end. -/
theorem loop_isViolation_iff
    (sorted : events.Pairwise fun left right => left.invoked ≤ right.invoked)
    (budget : ℕ) (progress : Progress) (early : ∀ frame ∈ progress.stack, frame.cursor ≤ windowEnd)
    (notBoundedOut : progress.boundedOut = false) :
    (loop events first maxConcurrency budget progress).isViolation = true ↔
      Search.dfs (moves events) (isEnd events) budget progress.visited
        (progress.stack.map (Frame.pending events)) = .exhausted := by
  induction budget generalizing progress with
  | zero =>
    unfold loop
    cases progress.stack with
    | nil => simp [conclude, notBoundedOut, Verdict.isViolation, Search.dfs]
    | cons frame rest => simp [Verdict.isViolation, Search.dfs]
  | succ budget ih =>
    cases stackIs : progress.stack with
    | nil => simp [loop, stackIs, conclude, notBoundedOut, Verdict.isViolation, Search.dfs]
    | cons frame rest =>
      have onStack : frame ∈ progress.stack := by simp [stackIs]
      have earlyRest : ∀ frame ∈ rest, frame.cursor ≤ windowEnd := fun other below =>
        early other (by simp [stackIs, below])
      cases cutOff : isCutOff events frame.config with
      | true =>
        rw [loop_of_cutOff sorted _ _ onStack cutOff (early frame onStack)]
        have ends : isEnd events frame.config = true := by simp [isEnd, cutOff]
        simp [Search.dfs, Frame.pending, ends]
      | false =>
        have left := @scan_frame events progress.visited (cursorEnd - frame.cursor) frame
        have given := scan_boundedOut sorted progress.visited _ frame
          (early frame onStack) rfl
        have scanned := scan_spec events progress.visited _ frame rfl
        unfold loop
        simp only [stackIs, map_cons, Frame.pending, Search.dfs]
        by_cases done : frame.frontier = events.length
        · have ends : isEnd events frame.config = true := by
            simp [isEnd, isDone, Frame.config, done]
          simp [done, ends, Verdict.isViolation]
        · have goesOn : isEnd events frame.config = false := by
            rw [isEnd, cutOff, Bool.or_false]
            simp [isDone, Frame.config, done]
          rw [if_neg done, goesOn]
          cases fresh : Search.firstFresh progress.visited
              (movesFrom events (cursorEnd - frame.cursor) frame) with
          | none =>
            rw [fresh] at scanned
            rw [scanned]
            refine ih _ earlyRest ?_
            simp [notBoundedOut, given scanned, cutOff]
          | some taken =>
            rcases taken with ⟨next, rest'⟩
            rw [fresh] at scanned
            rcases scanned with ⟨index, model, frontier, mask, moved, rfl, pending⟩
            rw [moved]
            refine (ih _ ?_ ?_).trans ?_
            · intro other member
              simp only [enter, mem_cons] at member
              rcases member with rfl | rfl | below
              · exact Nat.zero_le _
              · exact left.2 (by simp [moved])
              · exact earlyRest other below
            · simp [enter, notBoundedOut, scan_boundedOut_of_move moved]
            · simp [enter, pending_entered, pending, Frame.config]

theorem checkOneKey_isViolation_iff (nonempty : history.events ≠ []) (limits : Limits) :
    (checkOneKey history limits).isViolation = true ↔
      Search.dfs (moves history.sorted.events) (isEnd history.sorted.events) limits.maxStates []
        [(root, moves history.sorted.events root)] = .exhausted := by
  rw [checkOneKey]
  split
  · rename_i empty
    have := history.sorted_perm
    rw [empty] at this
    exact absurd this.symm.eq_nil nonempty
  · rename_i first rest sortedIs
    have sorted := history.sorted_pairwise
    rw [sortedIs] at sorted ⊢
    rw [loop_isViolation_iff sorted _ start (by
      intro frame onStack
      rw [start, mem_singleton] at onStack
      subst onStack
      exact Nat.zero_le _) rfl]
    rfl

/-- After a rejection nothing that can be reached has everything placed, and nothing was cut
off. -/
theorem not_reachable_of_rejected (rejected : (checkOneKey history limits).isViolation = true)
    {config : Config} (path : Search.Path (moves history.sorted.events) root config) :
    isEnd history.sorted.events config = false := by
  have nonempty : history.events ≠ [] := by
    intro empty
    simp [checkOneKey, History.sorted, empty, Verdict.isViolation] at rejected
  rw [checkOneKey_isViolation_iff nonempty] at rejected
  exact Search.not_goal_of_exhausted (Search.covered_root root) rejected config path

end Rejections

section Guides

variable {events : List Event}

/-- If the guide asks for operations behind the window, something is cut off. -/
theorem exists_end_of_guide
    (sorted : events.Pairwise fun left right => left.invoked ≤ right.invoked)
    (guide : Value → Finset ℕ → Prop)
    (next : ∀ value left first, guide value left → first ∈ left → (∀ index ∈ left, first ≤ index) →
      ∃ index model, Next events value left first index model ∧
        guide model.value (left.erase index))
    (guided : guide none (unplaced events root)) :
    ∃ last, Search.Path (moves events) root last ∧ isEnd events last = true := by
  by_contra never
  have goesOn (config : Config) (path : Search.Path (moves events) root config) :
      isEnd events config = false := by
    by_contra ends
    exact never ⟨config, path, by simpa using ends⟩
  have reaches := exists_path_of_guide sorted (fun value left => guide value left ∧
    ∃ config, Search.Path (moves events) root config ∧ config.1 = value ∧
      unplaced events config = left) ?_ root fits_root ⟨guided, root, .refl, rfl, rfl⟩
  · rcases reaches with ⟨last, path, done⟩
    have := goesOn last path
    simp [isEnd, isDone, done] at this
  rintro _ _ first ⟨guided, config, path, rfl, rfl⟩ isFirst least
  rcases next _ _ first guided isFirst least with ⟨index, model, isNext, guided'⟩
  have fits := fits_of_path path
  have frontierIs : config.2.1 = first := by
    rcases fits.frontier with atEnd | ⟨isLeft, below⟩
    · have := goesOn config path
      simp [isEnd, isDone, atEnd] at this
    · exact le_antisymm (below first isFirst) (least _ isLeft)
  subst frontierIs
  have atLeast := least index isNext.isLeft
  by_cases within : index ≤ config.2.1 + ahead
  · rcases isNext.move sorted fits atLeast within with ⟨after, isMove, _, valueIs, leftIs⟩
    exact ⟨index, model, isNext, within, guided', after, path.tail isMove, valueIs, leftIs⟩
  · -- What is just behind the window was invoked before what the guide asks for.
    have inEvents := (mem_unplaced.mp isNext.isLeft).1
    have behind : config.2.1 + (ahead + 1) < events.length := by omega
    have earlier : events[config.2.1 + (ahead + 1)].invoked ≤ events[index].invoked := by
      rcases (show config.2.1 + (ahead + 1) ≤ index by omega).eq_or_lt with same | strictly
      · simp only [same]
        exact le_rfl
      · exact pairwise_iff_getElem.mp sorted _ _ _ _ strictly
    have blocks : events[config.2.1]? = some events[config.2.1] :=
      List.getElem?_eq_getElem (by omega)
    have inTime := isNext.inTime _ _ (List.getElem?_eq_getElem inEvents) blocks
    have cutOff : isCutOff events config = true :=
      isCutOff_iff.mpr ⟨_, _, List.getElem?_eq_getElem behind, blocks, earlier.trans inTime⟩
    have := goesOn config path
    simp [isEnd, cutOff] at this

end Guides

section Linearizations

variable {events : List Event}

/-- An order of operations that are left, which the register accepts from a value on. The others
can be left out. -/
structure Completes (events : List Event) (order : List ℕ) (value : Value) (left : Finset ℕ) :
    Prop where
  distinct : order.Nodup
  isLeft : ∀ index ∈ order, index ∈ left
  inside : ∀ index ∈ left, index < events.length
  realTime : order.Pairwise (MayPrecedeAt events)
  accepted : ((order.filterMap fun index => events[index]?).foldlM Model.step
    { value := value }).isSome = true
  others : ∀ index ∈ left, index ∉ order → ∀ event, events[index]? = some event →
    event.isUnknown = true

theorem Completes.next (proper : ∀ event ∈ events, event.invoked ≤ event.returned)
    (value : Value) (left : Finset ℕ) (first : ℕ)
    (guided : ∃ order, Completes events order value left) (isFirst : first ∈ left) :
    ∃ index model, Next events value left first index model ∧
      ∃ order, Completes events order model.value (left.erase index) := by
  rcases guided with ⟨order, distinct, isLeft, inside, realTime, accepted, others⟩
  have itself (event blocking : Event) (found : events[first]? = some event)
      (blocks : events[first]? = some blocking) : event.invoked ≤ blocking.returned := by
    rw [found] at blocks
    cases blocks
    exact proper event (mem_of_getElem? found)
  by_cases inOrder : first ∈ order
  · cases order with
    | nil => cases inOrder
    | cons index rest =>
      rw [nodup_cons] at distinct
      rw [pairwise_cons] at realTime
      have member : index ∈ left := isLeft index (mem_cons_self ..)
      have inEvents : index < events.length := inside index member
      have found : events[index]? = some events[index] := List.getElem?_eq_getElem inEvents
      rw [filterMap_cons, found, foldlM_cons] at accepted
      cases stepped : Model.step { value := value } events[index] with
      | none => simp [stepped] at accepted
      | some model =>
        refine ⟨index, model, ⟨member, ?_, ?_⟩, rest, distinct.2, ?_, ?_, realTime.2, ?_, ?_⟩
        · intro event blocking isEvent blocks
          rcases mem_cons.mp inOrder with rfl | later
          · exact itself event blocking isEvent blocks
          · exact realTime.1 first later event blocking isEvent blocks
        · intro event isEvent
          rw [found] at isEvent
          cases isEvent
          exact Or.inr stepped
        · intro other inRest
          refine Finset.mem_erase.mpr ⟨?_, isLeft other (mem_cons_of_mem _ inRest)⟩
          rintro rfl
          exact distinct.1 inRest
        · exact fun other stillLeft => inside other (Finset.mem_of_mem_erase stillLeft)
        · simpa [stepped] using accepted
        · intro other stillLeft notInRest
          rcases Finset.mem_erase.mp stillLeft with ⟨notIndex, isLeft'⟩
          exact others other isLeft' (by simp [notIndex, notInRest])
  · refine ⟨first, { value := value }, ⟨isFirst, itself, ?_⟩, order, distinct, ?_, ?_, realTime,
      accepted, ?_⟩
    · exact fun event found => Or.inl ⟨others first isFirst inOrder event found, rfl⟩
    · intro other member
      refine Finset.mem_erase.mpr ⟨?_, isLeft other member⟩
      rintro rfl
      exact inOrder member
    · exact fun other stillLeft => inside other (Finset.mem_of_mem_erase stillLeft)
    · exact fun other stillLeft => others other (Finset.mem_of_mem_erase stillLeft)

theorem exists_indices {others : List Event} (perm : others.Perm events) :
    ∃ indices : List ℕ, indices.Perm (List.range events.length) ∧
      others.map some = indices.map fun index => events[index]? := by
  have mapped : (others.map some).Perm
      ((List.range events.length).map fun index => events[index]?) := by
    rw [map_range]
    exact perm.map some
  have swapped := congrFun (congrFun (eq_map_comp_perm fun index : ℕ => events[index]?)
    (others.map some)) (List.range events.length)
  rcases swapped.mpr mapped with ⟨indices, same, permuted⟩
  exact ⟨indices, permuted, same⟩

theorem filterMap_of_map {indices : List ℕ} {others : List Event}
    (same : others.map some = indices.map fun index => events[index]?) :
    indices.filterMap (fun index => events[index]?) = others := by
  have := congrArg (List.filterMap id) same
  simpa [filterMap_map, Function.comp_def] using this.symm

theorem KeyLinearization.completes {order : List Event}
    (linearizes : KeyLinearization events order) :
    ∃ indices, Completes events indices none (unplaced events root) := by
  rcases linearizes with ⟨⟨skipped, perm, unknown⟩, realTime, accepted⟩
  rcases exists_indices perm with ⟨indices, permuted, same⟩
  rw [map_append, eq_comm, map_eq_append_iff] at same
  rcases same with ⟨taken, leftOut, rfl, isTaken, isLeftOut⟩
  have isAll (index : ℕ) : index ∈ unplaced events root ↔ index ∈ taken ++ leftOut := by
    rw [permuted.mem_iff, mem_unplaced]
    simp [root, Placed]
  have distinct : (taken ++ leftOut).Nodup := permuted.nodup_iff.mpr nodup_range
  refine ⟨taken, (nodup_append.mp distinct).1, ?_, ?_, ?_, ?_, ?_⟩
  · exact fun index member => (isAll index).mpr (mem_append_left _ member)
  · exact fun index member => (mem_unplaced.mp member).1
  · rw [← filterMap_of_map isTaken.symm] at realTime
    have paired := pairwise_filterMap.mp realTime
    refine paired.imp ?_
    exact fun allowed first second isFirst isSecond => allowed first isFirst second isSecond
  · rw [filterMap_of_map isTaken.symm]
    exact accepted
  · intro index member notTaken event found
    have isLeftOut' : index ∈ leftOut := by
      rcases mem_append.mp ((isAll index).mp member) with isTaken | isLeftOut
      · exact absurd isTaken notTaken
      · exact isLeftOut
    refine unknown event ?_
    rw [← filterMap_of_map isLeftOut.symm]
    exact mem_filterMap.mpr ⟨index, isLeftOut', found⟩

theorem not_keyLinearization_of_rejected
    (proper : ∀ event ∈ history.events, event.invoked ≤ event.returned)
    (rejected : (checkOneKey history limits).isViolation = true) (order : List Event) :
    ¬ KeyLinearization history.sorted.events order := by
  intro linearizes
  have proper' : ∀ event ∈ history.sorted.events, event.invoked ≤ event.returned :=
    fun event member => proper event (history.sorted_perm.mem_iff.mp member)
  rcases exists_end_of_guide history.sorted_pairwise
      (fun value left => ∃ order, Completes history.sorted.events order value left)
      (fun value left first guided isFirst _ =>
        Completes.next proper' value left first guided isFirst)
      linearizes.completes with ⟨last, path, ends⟩
  rw [not_reachable_of_rejected rejected path] at ends
  cases ends

end Linearizations

theorem checkKeys_eq_notLinearizable_iff {keys : List (Key × History)}
    (increasing : keys.Pairwise fun left right => left.1 < right.1) {violation : Violation} :
    checkKeys limits keys = .notLinearizable violation ↔
      ∃ binding ∈ keys, checkOneKey binding.2 limits = .notLinearizable violation ∧
        ∀ other ∈ keys, other.1 < binding.1 → checkOneKey other.2 limits = .linearizable := by
  induction keys with
  | nil => simp [checkKeys]
  | cons head rest ih =>
    rw [pairwise_cons] at increasing
    have first (binding : Key × History) (member : binding ∈ head :: rest)
        (linearizable : ∀ other ∈ head :: rest, other.1 < binding.1 →
          checkOneKey other.2 limits = .linearizable) :
        binding = head ∨ checkOneKey head.2 limits = .linearizable := by
      rcases mem_cons.mp member with isHead | later
      · exact Or.inl isHead
      · exact Or.inr (linearizable head (mem_cons_self ..) (increasing.1 binding later))
    rw [checkKeys]
    cases verdict : checkOneKey head.2 limits with
    | linearizable =>
      simp only
      rw [ih increasing.2]
      constructor
      · rintro ⟨binding, member, violates, before⟩
        refine ⟨binding, mem_cons_of_mem _ member, violates, ?_⟩
        intro other isOther below
        rcases mem_cons.mp isOther with rfl | later
        · exact verdict
        · exact before other later below
      · rintro ⟨binding, member, violates, before⟩
        rcases mem_cons.mp member with rfl | later
        · rw [verdict] at violates
          cases violates
        · exact ⟨binding, later, violates, fun other isOther =>
            before other (mem_cons_of_mem _ isOther)⟩
    | notLinearizable reported =>
      simp only
      constructor
      · rintro ⟨rfl⟩
        refine ⟨head, mem_cons_self .., verdict, ?_⟩
        intro other isOther below
        rcases mem_cons.mp isOther with rfl | later
        · exact absurd below (lt_irrefl _)
        · exact absurd (below.trans (increasing.1 other later)) (lt_irrefl _)
      · rintro ⟨binding, member, violates, before⟩
        rcases first binding member before with rfl | linearizable
        · rw [← verdict, violates]
        · rw [verdict] at linearizable
          cases linearizable
    | inconclusive explored widest =>
      simp only [reduceCtorEq, false_iff]
      rintro ⟨binding, member, violates, before⟩
      rcases first binding member before with rfl | linearizable
      · rw [verdict] at violates
        cases violates
      · rw [verdict] at linearizable
        cases linearizable

theorem check_eq_notLinearizable_iff {violation : Violation} :
    check history limits = .notLinearizable violation ↔
      ∃ key sub, history.byKey.get key = some sub ∧
        checkOneKey sub limits = .notLinearizable violation ∧
        ∀ other masking, other < key → history.byKey.get other = some masking →
          checkOneKey masking limits = .linearizable := by
  rw [check, checkKeys_eq_notLinearizable_iff history.byKey.sorted]
  constructor
  · rintro ⟨⟨key, sub⟩, member, violates, before⟩
    refine ⟨key, sub, BTreeMap.mem_toList.mp member, violates, ?_⟩
    exact fun other masking below found =>
      before (other, masking) (BTreeMap.mem_toList.mpr found) below
  · rintro ⟨key, sub, found, violates, before⟩
    refine ⟨(key, sub), BTreeMap.mem_toList.mpr found, violates, ?_⟩
    exact fun other member below =>
      before other.1 other.2 below (BTreeMap.mem_toList.mp member)

/-- A history that is rejected is not linearizable. -/
theorem not_linearizable_of_check {history : History}
    (proper : ∀ event ∈ history.events, event.invoked ≤ event.returned) {limits : Limits}
    {violation : Violation} (rejected : check history limits = .notLinearizable violation) :
    ¬ history.Linearizable := by
  rintro ⟨order, linearizes⟩
  rcases check_eq_notLinearizable_iff.mp rejected with ⟨key, sub, found, violates, _⟩
  rw [History.get_byKey] at found
  split_ifs at found
  cases found
  have onKey := linearizes.onKey key
  rw [History.keyEvents, ← sorted_sorted] at onKey
  refine not_keyLinearization_of_rejected ?_ (Verdict.isViolation_iff.mpr ⟨_, violates⟩) _ onKey
  exact fun event member => proper event (mem_keyEvents.mp member).1

def readOfNothing : History :=
  { events := [⟨1, .write [107] [97], .ok, 0, 2⟩, ⟨2, .read [107], .value (some [98]), 1, 3⟩] }

theorem not_linearizable_readOfNothing :
    (∀ event ∈ readOfNothing.events, event.invoked ≤ event.returned) ∧
      ¬ readOfNothing.Linearizable := by
  refine ⟨by decide, ?_⟩
  have rejected : check readOfNothing .default = .notLinearizable {
      culprit := ⟨2, .read [107], .value (some [98]), 1, 3⟩
      linearized := [⟨1, .write [107] [97], .ok, 0, 2⟩]
      modelValue := some [97]
      concurrent := [⟨1, .write [107] [97], .ok, 0, 2⟩] } := by
    decide +kernel
  exact not_linearizable_of_check (by decide) rejected

theorem Verdict.not_isLinearizable_of_isViolation {verdict : Verdict}
    (isViolation : verdict.isViolation = true) : verdict.isLinearizable = false := by
  rcases isViolation_iff.mp isViolation with ⟨violation, rfl⟩
  rfl

theorem exists_first_failing {key : Key} {sub : History}
    (projection : history.byKey.get key = some sub)
    (fails : (checkOneKey sub limits).isLinearizable = false) :
    ∃ first sub', first ≤ key ∧ history.byKey.get first = some sub' ∧
      (checkOneKey sub' limits).isLinearizable = false ∧
      ∀ other masking, other < first → history.byKey.get other = some masking →
        checkOneKey masking limits = .linearizable := by
  let failing := history.byKey.toList.filter fun binding =>
    decide ((checkOneKey binding.2 limits).isLinearizable = false)
  have isFailing {other : Key} {masking : History} : (other, masking) ∈ failing ↔
      history.byKey.get other = some masking ∧
        (checkOneKey masking limits).isLinearizable = false := by
    simp [failing, BTreeMap.mem_toList]
  have increasing : failing.Pairwise fun left right => left.1 < right.1 :=
    history.byKey.sorted.filter _
  have keyFails : (key, sub) ∈ failing := isFailing.mpr ⟨projection, fails⟩
  rcases exists_cons_of_ne_nil (ne_nil_of_mem keyFails) with
    ⟨⟨first, sub'⟩, rest, failingIs⟩
  have smallest : ∀ binding ∈ failing, first ≤ binding.1 := by
    rw [failingIs, pairwise_cons] at increasing
    intro binding member
    rw [failingIs] at member
    rcases mem_cons.mp member with rfl | later
    · exact le_rfl
    · exact (increasing.1 binding later).le
  rcases isFailing.mp (by simp [failingIs] : (first, sub') ∈ failing) with ⟨isFirst, firstFails⟩
  refine ⟨first, sub', smallest _ keyFails, isFirst, firstFails, ?_⟩
  intro other masking below isOther
  by_contra otherFails
  have := smallest (other, masking)
    (isFailing.mpr ⟨isOther, by simpa [Verdict.isLinearizable] using otherFails⟩)
  exact absurd (lt_of_lt_of_le below this) (lt_irrefl _)

/-- A violation on one key is reported, unless a search is given up on a key before it and
before every other key with a violation. -/
theorem check_reports_iff (history : History) (limits : Limits) {key : Key} {sub : History}
    (projection : history.byKey.get key = some sub)
    (violates : (checkOneKey sub limits).isViolation = true) :
    (check history limits).isViolation = true ↔
      ∀ other masking, other < key → history.byKey.get other = some masking →
        (checkOneKey masking limits).isLinearizable = false →
        ∃ earlier sub', earlier ≤ other ∧ history.byKey.get earlier = some sub' ∧
          (checkOneKey sub' limits).isViolation = true := by
  constructor
  · intro reported other masking _ isOther fails
    rcases Verdict.isViolation_iff.mp reported with ⟨violation, verdict⟩
    rcases check_eq_notLinearizable_iff.mp verdict with ⟨first, sub', isFirst, violates', before⟩
    refine ⟨first, sub', ?_, isFirst, Verdict.isViolation_iff.mpr ⟨violation, violates'⟩⟩
    by_contra below
    have passes := before other masking (not_le.mp below) isOther
    simp [Verdict.isLinearizable, passes] at fails
  · intro unmasked
    rcases exists_first_failing projection
      (Verdict.not_isLinearizable_of_isViolation violates) with
      ⟨first, sub', atMost, isFirst, fails, before⟩
    have isViolation : (checkOneKey sub' limits).isViolation = true := by
      rcases atMost.eq_or_lt with rfl | below
      · rw [projection] at isFirst
        cases isFirst
        exact violates
      · rcases unmasked first sub' below isFirst fails with
          ⟨earlier, sub'', le, isEarlier, violates'⟩
        rcases le.eq_or_lt with rfl | sooner
        · rw [isFirst] at isEarlier
          cases isEarlier
          exact violates'
        · have passes := before earlier sub'' sooner isEarlier
          rw [passes] at violates'
          cases violates'
    rcases Verdict.isViolation_iff.mp isViolation with ⟨violation, verdict⟩
    exact Verdict.isViolation_iff.mpr ⟨violation, check_eq_notLinearizable_iff.mpr
      ⟨first, sub', isFirst, verdict, before⟩⟩

/-- A read of a value that was never written, on a key behind one with some writes. -/
def writesThenRead : History :=
  { events := [⟨1, .write [97] [1], .ok, 0, 1⟩, ⟨1, .write [97] [2], .ok, 2, 3⟩,
      ⟨1, .write [97] [3], .ok, 4, 5⟩, ⟨2, .read [98], .value (some [0]), 0, 1⟩] }

theorem writesThenRead_reports :
    (check writesThenRead .default).isViolation = true := by
  refine (@check_reports_iff writesThenRead .default [98] (writesThenRead.onKey [98]).sorted
    (by decide +kernel) (by decide +kernel)).mpr ?_
  intro other masking _ isOther fails
  have passes : ∀ binding ∈ writesThenRead.byKey.toList, binding.1 < [98] →
      (checkOneKey binding.2 .default).isLinearizable = true := by decide +kernel
  rw [passes (other, masking) (BTreeMap.mem_toList.mpr isOther) (by assumption)] at fails
  cases fails

/-- With three configurations per key the search on the first key is given up, and the second is
not looked at. -/
theorem writesThenRead_masked :
    ((writesThenRead.byKey.get [98]).map fun sub =>
        (checkOneKey sub { maxStates := 3 }).isViolation) = some true ∧
      check writesThenRead { maxStates := 3 } = .inconclusive 4 1 := by
  decide +kernel

end ChronoScope.Oracle
