import ChronoScope.Consensus.Invariant

/-!
# The safety argument

What follows from the invariant without taking a step: every later leader holds
every committed prefix, no two logs that could win one term do so with disjoint
quorums, and any two certified prefixes are comparable.

A quorum that decided and a quorum that elected need not belong to one
configuration. They meet because the logs they were counted under share every
change but, on either side, the last one: below a change all others had been
committed, and a committed change is what completeness is about. So completeness
is proved by strong induction on the term of the election and, within it, on the
decision, those before it coming first.
-/

namespace ChronoScope.Consensus

open List

universe u v

variable {N : Type u} {E : Type v}

theorem exists_shared (left right : List E) :
    ∃ shared, left.take shared = right.take shared ∧
      (∀ index < left.length, left.take (index + 1) <+: right → index < shared) ∧
      ∀ index < right.length, right.take (index + 1) <+: left → index < shared := by
  induction left generalizing right with
  | nil =>
    refine ⟨0, rfl, by simp, ?_⟩
    intro index bound inside
    have := inside.length_le
    simp only [length_take, length_nil] at this
    omega
  | cons first left ih =>
    cases right with
    | nil => exact ⟨0, rfl, by simp, by simp⟩
    | cons head right =>
      by_cases same : first = head
      · subst same
        rcases ih right with ⟨shared, agree, leftMost, rightMost⟩
        refine ⟨shared + 1, by simp [agree], ?_, ?_⟩
        · intro index bound inside
          cases index with
          | zero => omega
          | succ index =>
            simp only [take_succ_cons, cons_prefix_cons, true_and] at inside
            have := leftMost index (by simpa using bound) inside
            omega
        · intro index bound inside
          cases index with
          | zero => omega
          | succ index =>
            simp only [take_succ_cons, cons_prefix_cons, true_and] at inside
            have := rightMost index (by simpa using bound) inside
            omega
      · refine ⟨0, rfl, ?_, ?_⟩
        · intro index _ inside
          simp [same] at inside
        · intro index _ inside
          simp [Ne.symm same] at inside

variable {log left right : List E} {start : ℕ}

namespace Rules

variable (rules : Rules N E)

/-- No entry from `start` on changes the configuration. -/
def Calm (log : List E) (start : ℕ) : Prop :=
  ∀ index entry, start ≤ index → log[index]? = some entry → ¬rules.Changes entry

/-- Every change in `left`, the last one apart, is at the same place in `right`. -/
def Shares (left right : List E) : Prop :=
  ∀ below index earlier entry, below < index → left[below]? = some earlier →
    rules.Changes earlier → left[index]? = some entry → rules.Changes entry →
      left.take (below + 1) <+: right

variable {rules}

theorem Calm.take (calm : rules.Calm log start) (bound : ℕ) :
    rules.Calm (log.take bound) start :=
  fun index entry after present =>
    calm index entry after (getElem?_of_isPrefix (List.take_prefix bound log) present)

theorem Calm.config (calm : rules.Calm log start) :
    rules.config log = rules.config (log.take start) := by
  induction log using List.reverseRecOn with
  | nil => simp
  | append_singleton log entry ih =>
    rcases Nat.lt_or_ge log.length start with beyond | within
    · rw [take_of_length_le (by simp; omega)]
    · have kept : ¬rules.Changes entry := calm log.length entry within (by simp)
      rw [rules.config_keeps kept, take_append_of_le_length within]
      exact ih (by simpa using calm.take log.length)

theorem exists_last_change (changed : ¬rules.Calm log start) :
    ∃ index entry, start ≤ index ∧ log[index]? = some entry ∧ rules.Changes entry ∧
      rules.Calm log (index + 1) := by
  induction log using List.reverseRecOn with
  | nil => exact absurd (fun _ _ _ present => by simp at present) changed
  | append_singleton log entry ih =>
    by_cases last : start ≤ log.length ∧ rules.Changes entry
    · refine ⟨log.length, entry, last.1, by simp, last.2, ?_⟩
      intro index found beyond present
      have := (List.getElem?_eq_some_iff.mp present).1
      simp at this
      omega
    · have old : ∀ index found, start ≤ index → (log ++ [entry])[index]? = some found →
          rules.Changes found → log[index]? = some found := by
        intro index found after present changes
        rcases Nat.lt_or_ge index log.length with below | atEnd
        · rwa [getElem?_append_left below] at present
        · rw [getElem?_append_right atEnd, getElem?_singleton] at present
          split_ifs at present with isLast
          cases present
          exact absurd ⟨by omega, changes⟩ last
      have before : ¬rules.Calm log start := fun calm => changed fun index found after present
        changes => calm index found after (old index found after present changes) changes
      rcases ih before with ⟨index, found, after, present, changes, calm⟩
      refine ⟨index, found, after, ?_, changes, ?_⟩
      · exact getElem?_of_isPrefix (prefix_append log [entry]) present
      · intro later other beyond otherPresent otherChanges
        exact calm later other beyond (old later other (by omega) otherPresent otherChanges)
          otherChanges

theorem Shares.single (shares : rules.Shares left right) {shared : ℕ}
    (most : ∀ index < left.length, left.take (index + 1) <+: right → index < shared) (index : ℕ)
    (entry : E) (_ : shared ≤ index) (present : left[index]? = some entry)
    (changes : rules.Changes entry) : rules.Calm (left.take index) shared := by
  intro below earlier notBefore held changed
  have inside := (List.getElem?_eq_some_iff.mp held).1
  rw [length_take] at inside
  have heldIn := getElem?_of_isPrefix (List.take_prefix _ _) held
  have := most below (by omega)
    (shares below index earlier entry (by omega) heldIn changed present changes)
  omega

end Rules

variable {term index : ℕ}

namespace Invariant

variable [Termed E] {rules : Rules N E} {state : State N E}

section

variable (inv : Invariant rules state)

include inv

theorem electLog_prefix (led : state.leader term ≠ none) :
    state.electLog term <+: state.leaderLog term := by
  rcases inv.leaderLog_opens led with ⟨opened, _, shape, _⟩
  exact ⟨opened, shape.symm⟩

theorem termOf_leaderLog_eq_iff {entry : E} (led : state.leader term ≠ none)
    (present : (state.leaderLog term)[index]? = some entry) :
    termOf entry = term ↔ (state.electLog term).length ≤ index := by
  rcases inv.leaderLog_opens led with ⟨opened, _, shape, openedTerm⟩
  rw [shape] at present
  rcases Nat.lt_or_ge index (state.electLog term).length with old | new
  · rw [getElem?_append_left old] at present
    have := inv.electLog_below led (mem_of_getElem? present)
    omega
  · rw [getElem?_append_right new] at present
    exact iff_of_true (openedTerm entry (mem_of_getElem? present)) new

theorem electLog_prefix_decided {length : ℕ} (decision : state.Decision rules term length index) :
    state.electLog term <+: (state.leaderLog term).take length := by
  obtain ⟨place, rfl⟩ := Nat.exists_eq_succ_of_ne_zero decision.positive.ne'
  rcases Option.map_eq_some_iff.mp decision.ownTerm with ⟨entry, present, entryTerm⟩
  have past := (inv.termOf_leaderLog_eq_iff decision.led present).mp entryTerm
  have within := decision.within
  refine prefix_of_prefix_length_le (inv.electLog_prefix decision.led)
    (List.take_prefix _ _) ?_
  rw [length_take, Nat.min_eq_left decision.reached]
  omega

theorem change_quorate (rooted : state.Rooted log) {entry : E} (present : log[index]? = some entry)
    (changes : rules.Changes entry) :
    ∃ votes, rules.IsQuorum (rules.config (log.take index)) votes := by
  rcases inv.conforms_of_rooted rooted index entry present with ⟨led, isPrefix⟩
  have bound := (List.getElem?_eq_some_iff.mp present).1
  have same : log.take index = (state.leaderLog (termOf entry)).take index := by
    rw [take_eq_of_isPrefix isPrefix (by simp; omega), take_take, Nat.min_eq_left (by omega)]
  have placed : (state.leaderLog (termOf entry))[index]? = some entry := by
    apply getElem?_of_isPrefix isPrefix
    rwa [getElem?_take_of_lt (by omega)]
  have opened := (inv.termOf_leaderLog_eq_iff led placed).mp rfl
  rw [same]
  by_cases calm : rules.Calm ((state.leaderLog (termOf entry)).take index)
      (state.electLog (termOf entry)).length
  · rcases Option.ne_none_iff_exists'.mp led with ⟨node, elected⟩
    rcases inv.elected elected with ⟨voters, quorum, _⟩
    refine ⟨voters, ?_⟩
    rw [calm.config, take_take, Nat.min_eq_left opened,
      take_eq_of_isPrefix (inv.electLog_prefix led) le_rfl, take_length]
    exact quorum
  · rcases Rules.exists_last_change calm with ⟨below, earlier, own, held, changed, after⟩
    have isBelow : below < index := by
      have := (List.getElem?_eq_some_iff.mp held).1
      simp at this
      omega
    have heldIn := getElem?_of_isPrefix (List.take_prefix _ _) held
    rcases inv.leaderLog_covered led placed changes isBelow heldIn changed with
      ⟨commitTerm, length, decided, decision, order, covers⟩
    have ownTerm := (inv.termOf_leaderLog_eq_iff led heldIn).mpr own
    have inside : earlier ∈ (state.leaderLog commitTerm).take decided := by
      apply covers.subset
      rw [take_add_one, heldIn]
      simp
    have notLater := inv.leaderLog_term_le decision.led (mem_of_mem_take inside)
    obtain ⟨rfl, shorter⟩ : commitTerm = termOf entry ∧ length ≤ index := by omega
    have reaches : below + 1 ≤ length := by
      have covered := covers.length_le
      have present := (List.getElem?_eq_some_iff.mp heldIn).1
      have within := decision.within
      rw [length_take, length_take] at covered
      omega
    rcases decision.quorum with ⟨ackers, quorum, _⟩
    refine ⟨ackers, ?_⟩
    have shortCalm := after.take length
    rw [take_take, Nat.min_eq_left shorter] at shortCalm
    rw [shortCalm.config, take_take, Nat.min_eq_left reaches] at quorum
    rw [after.config, take_take, Nat.min_eq_left (by omega)]
    exact quorum

/-- What one change, or none, past `start` makes of the configuration; where there is one, it was
put on a log with quorums. -/
theorem near_of_single (rooted : state.Rooted log)
    (single : ∀ index entry, start ≤ index → log[index]? = some entry → rules.Changes entry →
      rules.Calm (log.take index) start) :
    rules.config log = rules.config (log.take start) ∨
      rules.Next (rules.config (log.take start)) (rules.config log) ∧
        ∃ votes, rules.IsQuorum (rules.config (log.take start)) votes := by
  by_cases calm : rules.Calm log start
  · exact Or.inl calm.config
  · rcases Rules.exists_last_change calm with ⟨index, entry, after, present, changes, rest⟩
    have before := (single index entry after present changes).config
    rw [take_take, Nat.min_eq_left after] at before
    have next := rules.config_next changes (inv.fits_of_rooted rooted present)
    have added : log.take (index + 1) = log.take index ++ [entry] := by
      rw [take_add_one, present]
      rfl
    rw [← added, ← rest.config, before] at next
    have quorate := inv.change_quorate rooted present changes
    rw [before] at quorate
    exact Or.inr ⟨next, quorate⟩

/-- Quorums under two logs meet if each shares every change but its last with the other. -/
theorem meet (leftRooted : state.Rooted left) (rightRooted : state.Rooted right)
    (leftShares : rules.Shares left right) (rightShares : rules.Shares right left)
    {leftVotes rightVotes : Set N} (leftQuorum : rules.IsQuorum (rules.config left) leftVotes)
    (rightQuorum : rules.IsQuorum (rules.config right) rightVotes) :
    ∃ node ∈ leftVotes, node ∈ rightVotes := by
  rcases exists_shared left right with ⟨shared, agree, leftMost, rightMost⟩
  have leftNear := inv.near_of_single leftRooted (leftShares.single leftMost)
  have rightNear := inv.near_of_single rightRooted (rightShares.single rightMost)
  rw [← agree] at rightNear
  have quorate : ∃ votes, rules.IsQuorum (rules.config (left.take shared)) votes := by
    rcases leftNear with same | ⟨_, quorate⟩
    · exact ⟨leftVotes, same ▸ leftQuorum⟩
    · exact quorate
  rcases quorate with ⟨votes, quorum⟩
  exact rules.meet quorum (leftNear.imp_right And.left) (rightNear.imp_right And.left) leftQuorum
    rightQuorum

end

end Invariant

/-- A log that a quorum of its own configuration voted for in `term`. -/
structure State.Backed [Termed E] (state : State N E) (rules : Rules N E) (term bound : ℕ)
    (log : List E) : Prop where
  rooted : state.Rooted log
  below : ∀ entry ∈ log, termOf entry < term
  quorum : ∃ voters, rules.IsQuorum (rules.config log) voters ∧
    ∀ voter ∈ voters, state.Ballot voter term bound log

namespace Invariant

variable [Termed E] {rules : Rules N E} {state : State N E}

section

variable (inv : Invariant rules state)

include inv

theorem electLog_backed (led : state.leader term ≠ none) :
    state.Backed rules term term (state.electLog term) := by
  rcases Option.ne_none_iff_exists'.mp led with ⟨node, elected⟩
  rcases inv.elected elected with ⟨voters, quorum, voted⟩
  exact ⟨Or.inr ⟨term, led, inv.electLog_prefix led⟩,
    fun _ present => inv.electLog_below led present,
    voters, quorum, fun voter member => (voted voter member).2⟩

/-- A log that is backed holds a decision of an earlier term, provided the leaders elected before
hold theirs and it holds the decisions before this one itself. -/
theorem prefix_of_backed_of_previous {bound : ℕ} (backed : state.Backed rules term bound log)
    (reaches : term ≤ bound) {decidedTerm length : ℕ}
    (decision : state.Decision rules decidedTerm length index) (earlier : decidedTerm < term)
    (leaders : ∀ later < bound, state.leader later ≠ none →
      ∀ {before reached upTo : ℕ}, state.Decision rules before reached upTo → before < later →
        (state.leaderLog before).take upTo <+: state.electLog later)
    (previous : ∀ {before reached upTo : ℕ}, state.Decision rules before reached upTo →
      before < decidedTerm ∨ before = decidedTerm ∧ reached < length →
        (state.leaderLog before).take upTo <+: log) :
    (state.leaderLog decidedTerm).take index <+: log := by
  by_contra lacks
  have leaderHolds : ∀ later, decidedTerm < later → later < bound → state.leader later ≠ none →
      (state.leaderLog decidedTerm).take index <+: state.leaderLog later :=
    fun later after before led =>
      (leaders later before led decision after).trans (inv.electLog_prefix led)
  have lastBelow : log ≠ [] → lastTerm log < term := by
    intro nonempty
    obtain ⟨initial, entry, rfl⟩ := eq_nil_or_concat log |>.resolve_left nonempty
    simpa using backed.below entry (by simp)
  have lastLe : lastTerm log ≤ decidedTerm := by
    by_contra later
    apply lacks
    apply inv.prefix_of_lastTerm_gt backed.rooted decision.led (by omega)
    apply leaderHolds _ (by omega)
    have := lastBelow (by rintro rfl; simp at later)
    omega
  have decidedRooted : state.Rooted ((state.leaderLog decidedTerm).take length) :=
    Or.inr ⟨decidedTerm, decision.led, take_prefix _ _⟩
  have decidedShares : rules.Shares ((state.leaderLog decidedTerm).take length) log := by
    intro below place old new isBelow held changed present changes
    rcases inv.covered_of_rooted decidedRooted present changes isBelow held changed with
      ⟨before, reached, upTo, earlierDecision, order, covers⟩
    have newTerm := inv.leaderLog_term_le decision.led
      (mem_of_mem_take (mem_of_getElem? present))
    have placeLt := (List.getElem?_eq_some_iff.mp present).1
    rw [length_take] at placeLt
    exact covers.trans (previous earlierDecision (by omega))
  have logShares : rules.Shares log ((state.leaderLog decidedTerm).take length) := by
    intro below place old new isBelow held changed present changes
    rcases inv.covered_of_rooted backed.rooted present changes isBelow held changed with
      ⟨before, reached, upTo, earlierDecision, order, covers⟩
    have newTerm := inv.termOf_le_lastTerm backed.rooted (mem_of_getElem? present)
    rcases (show before < decidedTerm ∨ before = decidedTerm by omega) with isBefore | same
    · exact (covers.trans (leaders decidedTerm (by omega) decision.led earlierDecision
        isBefore)).trans (inv.electLog_prefix_decided decision)
    · have nonempty : log ≠ [] := by
        rintro rfl
        simp at present
      have inside := (inv.prefix_leaderLog_lastTerm backed.rooted nonempty).2
      rw [show lastTerm log = decidedTerm by omega] at inside
      have shorter : log.length ≤ index := by
        by_contra longer
        exact lacks (prefix_of_prefix_length_le (List.take_prefix _ _) inside
          (by rw [length_take]; omega))
      refine (List.take_prefix _ _).trans
        (prefix_of_prefix_length_le inside (List.take_prefix _ _) ?_)
      have := decision.within
      have := decision.reached
      rw [length_take]
      omega
  rcases decision.quorum with ⟨ackers, ackersQuorum, acked⟩
  rcases backed.quorum with ⟨voters, votersQuorum, voted⟩
  rcases inv.meet decidedRooted backed.rooted decidedShares logShares ackersQuorum votersQuorum with
    ⟨shared, sharedAcker, sharedVoter⟩
  rcases acked shared sharedAcker with ⟨reach, enough, ack⟩
  rcases voted shared sharedVoter with ⟨voterLog, voterRooted, upToDate, kept⟩
  apply lacks
  apply inv.prefix_of_upToDate decision voterRooted backed.rooted upToDate
  · rcases kept decidedTerm reach ack earlier index enough with held | ⟨between, after, before,
      betweenLed, lost⟩
    · exact held
    · exact absurd (leaderHolds between after before betweenLed) lost
  · intro later
    omega

/-- A log that is backed in a term holds every decision of an earlier term. -/
theorem prefix_of_backed {bound : ℕ} :
    ∀ {term : ℕ} {log : List E}, state.Backed rules term bound log → term ≤ bound →
      ∀ {decidedTerm length index : ℕ}, state.Decision rules decidedTerm length index →
        decidedTerm < term → (state.leaderLog decidedTerm).take index <+: log := by
  induction bound using Nat.strong_induction_on with
  | _ bound elections =>
    intro term log backed reaches decidedTerm
    induction decidedTerm using Nat.strong_induction_on with
    | _ decidedTerm terms =>
      intro length
      induction length using Nat.strong_induction_on with
      | _ length lengths =>
        intro index decision earlier
        apply inv.prefix_of_backed_of_previous backed reaches decision earlier
        · exact fun later before led =>
            elections later before (inv.electLog_backed led) le_rfl
        · intro before reached upTo previous order
          rcases order with isBefore | ⟨rfl, shorter⟩
          · exact terms before isBefore previous (by omega)
          · exact lengths reached shorter previous earlier

theorem shares_of_backed {leftBound rightBound : ℕ}
    (leftBacked : state.Backed rules term leftBound left)
    (rightBacked : state.Backed rules term rightBound right) (reaches : term ≤ rightBound) :
    rules.Shares left right := by
  intro below index earlier entry isBelow held changed present changes
  rcases inv.covered_of_rooted leftBacked.rooted present changes isBelow held changed with
    ⟨before, reached, upTo, decision, order, covers⟩
  have newTerm := leftBacked.below entry (mem_of_getElem? present)
  exact covers.trans (inv.prefix_of_backed rightBacked reaches decision (by omega))

/-- Leader completeness: every leader of a later term holds every committed prefix. -/
theorem leader_completeness (decided : (term, index) ∈ state.commits) {later : ℕ}
    (isLater : term < later) (led : state.leader later ≠ none) :
    (state.leaderLog term).take index <+: state.leaderLog later := by
  rcases inv.committed decided with ⟨length, decision⟩
  exact (inv.prefix_of_backed (inv.electLog_backed led) le_rfl decision isLater).trans
    (inv.electLog_prefix led)

theorem decision_lt {later own : ℕ} (decided : (term, index) ∈ state.commits)
    (isLater : term < later) (ownDecided : (later, own) ∈ state.commits) : index < own := by
  by_contra notBeyond
  have below : own ≤ index := Nat.not_lt.mp notBeyond
  rcases inv.committed decided with ⟨_, decision⟩
  rcases inv.committed ownDecided with ⟨_, laterDecision⟩
  have held := inv.leader_completeness decided isLater laterDecision.led
  have bound := le_length_of_termAt decision.ownTerm
  have laterTerm := laterDecision.ownTerm
  rw [termAt_of_isPrefix held (by rw [length_take]; omega), termAt_take below] at laterTerm
  obtain ⟨place, rfl⟩ := Nat.exists_eq_succ_of_ne_zero laterDecision.positive.ne'
  rcases Option.map_eq_some_iff.mp laterTerm with ⟨entry, present, entryTerm⟩
  have := inv.leaderLog_term_le decision.led (mem_of_getElem? present)
  omega

theorem prefix_leaderLog_of_certified {committed : List E}
    (certified : state.Certified term committed) (led : state.leader term ≠ none) :
    committed <+: state.leaderLog term := by
  rcases certified with rfl | ⟨commitTerm, index, decided, notLater, covered⟩
  · exact nil_prefix
  · rcases notLater.eq_or_lt with rfl | earlier
    · exact covered.trans (List.take_prefix _ _)
    · exact covered.trans (inv.leader_completeness decided earlier led)

theorem certified_comparable {leftTerm rightTerm : ℕ}
    (leftCertified : state.Certified leftTerm left)
    (rightCertified : state.Certified rightTerm right) : left <+: right ∨ right <+: left := by
  rcases leftCertified with rfl | ⟨leftCommit, leftIndex, leftDecided, _, leftCovered⟩
  · exact Or.inl nil_prefix
  rcases rightCertified with rfl | ⟨rightCommit, rightIndex, rightDecided, _, rightCovered⟩
  · exact Or.inr nil_prefix
  rcases inv.committed leftDecided with ⟨_, leftDecision⟩
  rcases inv.committed rightDecided with ⟨_, rightDecision⟩
  rcases Nat.le_total leftCommit rightCommit with order | order
  · have leftHeld := inv.prefix_leaderLog_of_certified
      (Or.inr ⟨leftCommit, leftIndex, leftDecided, order, leftCovered⟩) rightDecision.led
    exact prefix_or_prefix_of_prefix leftHeld (rightCovered.trans (List.take_prefix _ _))
  · have rightHeld := inv.prefix_leaderLog_of_certified
      (Or.inr ⟨rightCommit, rightIndex, rightDecided, order, rightCovered⟩) leftDecision.led
    exact prefix_or_prefix_of_prefix (leftCovered.trans (List.take_prefix _ _)) rightHeld

theorem certified_eq {leftTerm rightTerm : ℕ} (leftCertified : state.Certified leftTerm left)
    (rightCertified : state.Certified rightTerm right) (sameLength : left.length = right.length) :
    left = right := by
  rcases inv.certified_comparable leftCertified rightCertified with below | below
  · exact below.eq_of_length sameLength
  · exact (below.eq_of_length sameLength.symm).symm

end

end Invariant

end ChronoScope.Consensus
