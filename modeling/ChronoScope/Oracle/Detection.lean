import ChronoScope.Oracle.Invariants

/-!
# What the safety oracles catch

Two of the oracles compare a view with what earlier views have shown, and for
both the record of violations is characterised exactly. Leader Completeness
compares entries that nodes have committed, so a leader that has overwritten a
committed entry goes unnoticed as long as its own commit index has not reached
it. Durability compares a process with the one directly before it, so a process
that crashed before it was ever seen hides the loss.

Each check leaves alone what the others remember and record (`Keeps`).
-/

namespace ChronoScope.Oracle

open List

open Chronolog (NodeId Role)

variable {nodes : List (NodeId × PublicState)}

namespace Invariants

/-- What concerns a property is as it was: its record and what its check remembers. -/
structure Keeps (property : Property) (before after : Invariants) : Prop where
  records : after.records property = before.records property
  committedTerms : property = .leaderCompleteness → after.committedTerms = before.committedTerms
  persisted : property = .durability → after.persisted = before.persisted

section

variable {property other : Property} {inv before after later : Invariants} {view : ClusterView}

theorem Keeps.refl (inv : Invariants) : Keeps property inv inv :=
  ⟨rfl, fun _ => rfl, fun _ => rfl⟩

theorem Keeps.trans (first : Keeps property before after) (second : Keeps property after later) :
    Keeps property before later :=
  ⟨second.records.trans first.records,
    fun isIt => (second.committedTerms isIt).trans (first.committedTerms isIt),
    fun isIt => (second.persisted isIt).trans (first.persisted isIt)⟩

theorem Keeps.foldl {α : Type} {items : List α} {step : Invariants → α → Invariants}
    (keeps : ∀ inv item, Keeps property inv (step inv item)) (inv : Invariants) :
    Keeps property inv (items.foldl step inv) := by
  induction items generalizing inv with
  | nil => exact .refl inv
  | cons item items ih => exact (keeps inv item).trans (ih _)

theorem records_fail (inv : Invariants) (detail : String) :
    (inv.fail other detail).records property =
    (inv.records property || decide (other = property)) := by
  unfold fail
  split_ifs with known
  · by_cases same : other = property
    · subst same
      simp [known]
    · simp [same]
  · simp [Invariants.records]

theorem fail_keeps (inv : Invariants) (detail : String) (differs : other ≠ property) :
    Keeps property inv (inv.fail other detail) := by
  refine ⟨?_, ?_, ?_⟩
  · simp [records_fail, differs]
  · intro _
    unfold fail
    split_ifs <;> rfl
  · intro _
    unfold fail
    split_ifs <;> rfl

theorem failIf_keeps (inv : Invariants) (detail : String) (differs : other ≠ property)
    (condition : Prop) [Decidable condition] :
    Keeps property inv (if condition then inv.fail other detail else inv) := by
  split_ifs
  · exact fail_keeps inv detail differs
  · exact .refl inv

theorem driverAlive_keeps (differs : Property.driverStopped ≠ property) :
    Keeps property inv (inv.driverAlive view) := by
  refine .foldl (fun inv node => ?_) inv
  split
  · exact fail_keeps inv _ differs
  · exact .refl inv

theorem durability_keeps (differs : Property.durability ≠ property) :
    Keeps property inv (inv.durability view) := by
  refine .foldl (fun inv node => ?_) inv
  split_ifs
  · exact .refl inv
  · have checked : Keeps property inv (inv.checkRecovered node.1 node.2) := by
      unfold checkRecovered
      split_ifs
      · split
        · exact failIf_keeps inv _ differs _
        · exact .refl inv
      · exact .refl inv
    exact checked.trans ⟨rfl, fun _ => rfl, fun isIt => absurd isIt.symm differs⟩

theorem electionSafety_keeps (differs : Property.electionSafety ≠ property) :
    Keeps property inv (inv.electionSafety view) := by
  refine .foldl (fun inv leader => ?_) inv
  split
  · split_ifs
    · exact fail_keeps inv _ differs
    · exact ⟨rfl, fun _ => rfl, fun _ => rfl⟩
  · exact ⟨rfl, fun _ => rfl, fun _ => rfl⟩

theorem monotonicity_keeps (differs : Property.commitMonotonicity ≠ property)
    (differs' : Property.applyMonotonicity ≠ property) :
    Keeps property inv (inv.monotonicity view) := by
  refine .foldl (fun inv node => ?_) inv
  have committed : Keeps property inv (inv.commitMonotone node.1 node.2) :=
    (failIf_keeps inv _ differs _).trans ⟨rfl, fun _ => rfl, fun _ => rfl⟩
  exact committed.trans ((failIf_keeps _ _ differs' _).trans ⟨rfl, fun _ => rfl, fun _ => rfl⟩)

theorem logMatching_keeps (differs : Property.logMatching ≠ property) :
    Keeps property inv (inv.logMatching view) := by
  simp only [logMatching]
  split
  · exact fail_keeps inv _ differs
  · exact .refl inv

theorem stateMachineSafety_keeps (differs : Property.stateMachineSafety ≠ property) :
    Keeps property inv (inv.stateMachineSafety view) := by
  simp only [stateMachineSafety]
  split
  · exact fail_keeps inv _ differs
  · exact .refl inv

/-- What every step of a loop keeps, the loop keeps, wherever it stops. -/
theorem foldlM_related {α : Type} {items : List α}
    {step : Invariants → α → Except Invariants Invariants}
    {related : Invariants → Invariants → Prop} (refl : ∀ inv, related inv inv)
    (trans : ∀ {first second third}, related first second → related second third →
      related first third)
    (steps : ∀ inv item, related inv (final (step inv item))) (inv : Invariants) :
    related inv (final (items.foldlM step inv)) := by
  induction items generalizing inv with
  | nil => exact refl inv
  | cons item items ih =>
    rw [foldlM_cons]
    have here := steps inv item
    cases result : step inv item with
    | error after =>
      rw [result] at here
      exact here
    | ok after =>
      rw [result] at here
      exact trans here (ih after)

theorem recordCommitted_keeps (differs : Property.leaderCompleteness ≠ property) (s : PublicState)
    (entries : List (ℕ × ℕ)) (inv : Invariants) :
    Keeps property inv (final (recordCommitted s entries inv)) := by
  induction entries generalizing inv with
  | nil => exact .refl inv
  | cons entry rest ih =>
    rcases entry with ⟨index, term⟩
    have recorded : Keeps property inv
        { inv with committedTerms := inv.committedTerms.insert index term } :=
      ⟨rfl, fun isIt => absurd isIt.symm differs, fun _ => rfl⟩
    unfold recordCommitted
    split_ifs
    · exact .refl inv
    · split
      · split_ifs
        · exact fail_keeps inv _ differs
        · exact recorded.trans (ih _)
      · exact recorded.trans (ih _)

theorem leaderCompleteness_keeps (differs : Property.leaderCompleteness ≠ property) :
    Keeps property inv (inv.leaderCompleteness view) := by
  unfold leaderCompleteness
  refine foldlM_related Keeps.refl Keeps.trans (fun inv node => ?_) inv
  exact recordCommitted_keeps differs node.2 node.2.logTerms inv

theorem commitIsBackedByALog_keeps (differs : Property.commitBeyondLog ≠ property)
    (differs' : Property.appliedBeyondCommit ≠ property) :
    Keeps property inv (inv.commitIsBackedByALog view) := by
  refine .foldl (fun inv node => ?_) inv
  exact (failIf_keeps inv _ differs _).trans (failIf_keeps _ _ differs' _)

end

/-- The record of committed terms is what was shown. -/
def Knows (inv : Invariants) (shown : ℕ → ℕ → Prop) : Prop :=
  ∀ index term, inv.committedTerms.get index = some term ↔ shown index term

/-- One index was shown with two terms. -/
def Contradicts (shown : ℕ → ℕ → Prop) : Prop :=
  ∃ index first second, first ≠ second ∧ shown index first ∧ shown index second

/-- The check has come to an end or has been cut short by a violation. -/
def Outcome (inv : Invariants) (shown : ℕ → ℕ → Prop) : Except Invariants Invariants → Prop
  | .ok after => after.Knows shown ∧ after.records .leaderCompleteness =
      inv.records .leaderCompleteness
  | .error after => after.records .leaderCompleteness = true ∧ Contradicts shown

section

variable {inv : Invariants} {shown : ℕ → ℕ → Prop}

variable {more : ℕ → ℕ → Prop}

theorem Contradicts.mono (contradicts : Contradicts shown)
    (included : ∀ index term, shown index term → more index term) : Contradicts more := by
  rcases contradicts with ⟨index, first, second, differ, isFirst, isSecond⟩
  exact ⟨index, first, second, differ, included _ _ isFirst, included _ _ isSecond⟩

theorem Knows.not_contradicts (knows : inv.Knows shown) : ¬ Contradicts shown := by
  rintro ⟨index, first, second, differ, isFirst, isSecond⟩
  rw [← knows] at isFirst isSecond
  exact differ (Option.some.inj (isFirst.symm.trans isSecond))

theorem Knows.congr (knows : inv.Knows shown)
    (same : ∀ index term, shown index term ↔ more index term) : inv.Knows more :=
  fun index term => (knows index term).trans (same index term)

theorem Knows.insert (knows : inv.Knows shown) {index term : ℕ}
    (fits : ∀ known, inv.committedTerms.get index = some known → known = term) :
    Knows { inv with committedTerms := inv.committedTerms.insert index term }
      fun other value => shown other value ∨ (other, value) = (index, term) := by
  intro other value
  change _ ↔ shown other value ∨ (other, value) = (index, term)
  rw [BTreeMap.get_insert, ← knows, Prod.mk.injEq]
  split_ifs with same
  · subst same
    constructor
    · rintro ⟨⟩
      exact Or.inr ⟨rfl, rfl⟩
    · rintro (known | ⟨_, rfl⟩)
      · rw [fits value known]
      · rfl
  · simp [same]

theorem recordCommitted_outcome (s : PublicState) {entries : List (ℕ × ℕ)}
    (sorted : entries.Pairwise fun left right => left.1 ≤ right.1) (knows : inv.Knows shown) :
    Outcome inv (fun index term => shown index term ∨
      (index, term) ∈ entries ∧ index ≤ s.commitIndex) (recordCommitted s entries inv) := by
  induction entries generalizing inv shown with
  | nil => exact ⟨knows.congr (by simp), rfl⟩
  | cons entry rest ih =>
    rcases entry with ⟨index, term⟩
    rw [pairwise_cons] at sorted
    rcases sorted with ⟨ahead, sorted⟩
    unfold recordCommitted
    split_ifs with past
    · refine ⟨knows.congr fun other value => ?_, rfl⟩
      have none : ¬ ((other, value) ∈ (index, term) :: rest ∧ other ≤ s.commitIndex) := by
        rintro ⟨member, upTo⟩
        rcases mem_cons.mp member with same | later
        · cases same
          omega
        · have := ahead _ later
          omega
      exact (or_iff_left none).symm
    · have within : index ≤ s.commitIndex := Nat.not_lt.mp past
      have go (fits : ∀ known, inv.committedTerms.get index = some known → known = term) :
          Outcome inv (fun other value => shown other value ∨
            (other, value) ∈ (index, term) :: rest ∧ other ≤ s.commitIndex)
            (recordCommitted s rest
              { inv with committedTerms := inv.committedTerms.insert index term }) := by
        have same : (fun other value => shown other value ∨
            (other, value) ∈ (index, term) :: rest ∧ other ≤ s.commitIndex) =
            fun other value => (shown other value ∨ (other, value) = (index, term)) ∨
              (other, value) ∈ rest ∧ other ≤ s.commitIndex := by
          funext other value
          rw [mem_cons, or_assoc]
          apply propext
          apply or_congr_right
          constructor
          · rintro ⟨same | later, upTo⟩
            · exact Or.inl same
            · exact Or.inr ⟨later, upTo⟩
          · rintro (same | ⟨later, upTo⟩)
            · cases same
              exact ⟨Or.inl rfl, within⟩
            · exact ⟨Or.inr later, upTo⟩
        rw [same]
        exact ih sorted (knows.insert fits)
      cases found : inv.committedTerms.get index with
      | none => exact go (by simp [found])
      | some known =>
        simp only
        split_ifs with differs
        · refine ⟨by simp [records_fail], index, known, term, differs, ?_, ?_⟩
          · exact Or.inl ((knows index known).mp found)
          · exact Or.inr ⟨mem_cons_self, within⟩
        · refine go fun other isKnown => ?_
          rw [found] at isKnown
          cases isKnown
          exact not_not.mp differs

theorem foldlM_outcome
    (sorted : ∀ node ∈ nodes, node.2.logTerms.Pairwise fun left right => left.1 ≤ right.1)
    (knows : inv.Knows shown) :
    Outcome inv (fun index term => shown index term ∨ ∃ node ∈ nodes,
        (index, term) ∈ node.2.logTerms ∧ index ≤ node.2.commitIndex)
      (nodes.foldlM (fun inv node => recordCommitted node.2 node.2.logTerms inv) inv) := by
  induction nodes generalizing inv shown with
  | nil => exact ⟨knows.congr (by simp), rfl⟩
  | cons node nodes ih =>
    have first := recordCommitted_outcome node.2 (sorted node mem_cons_self) knows
    rw [foldlM_cons]
    cases result : recordCommitted node.2 node.2.logTerms inv with
    | error after =>
      rw [result] at first
      refine ⟨first.1, first.2.mono ?_⟩
      rintro index term (early | now)
      · exact Or.inl early
      · exact Or.inr ⟨node, mem_cons_self, now⟩
    | ok after =>
      rw [result] at first
      rcases first with ⟨knowsNext, sameRecord⟩
      have rest := ih (fun other member => sorted other (mem_cons_of_mem _ member))
        knowsNext
      have same : (fun index term => shown index term ∨ ∃ other ∈ node :: nodes,
          (index, term) ∈ other.2.logTerms ∧ index ≤ other.2.commitIndex) =
          fun index term => (shown index term ∨
            (index, term) ∈ node.2.logTerms ∧ index ≤ node.2.commitIndex) ∨
            ∃ other ∈ nodes, (index, term) ∈ other.2.logTerms ∧
              index ≤ other.2.commitIndex := by
        funext index term
        simp [or_assoc]
      rw [same]
      change Outcome inv _ (nodes.foldlM (fun inv node =>
        recordCommitted node.2 node.2.logTerms inv) after)
      cases final : nodes.foldlM (fun inv node =>
          recordCommitted node.2 node.2.logTerms inv) after with
      | ok done =>
        rw [final] at rest
        exact ⟨rest.1, rest.2.trans sameRecord⟩
      | error done =>
        rw [final] at rest
        exact rest

/-- What is on record stays there. -/
def Grows (before after : Invariants) : Prop :=
  ∀ property, before.records property = true → after.records property = true

theorem recordCommitted_grows (s : PublicState) (entries : List (ℕ × ℕ)) (inv : Invariants) :
    Grows inv (final (recordCommitted s entries inv)) := by
  induction entries generalizing inv with
  | nil => exact fun _ => id
  | cons entry rest ih =>
    intro property recorded
    unfold recordCommitted
    split_ifs
    · exact recorded
    · split
      · split_ifs
        · simp [final, records_fail, recorded]
        · exact ih _ property recorded
      · exact ih _ property recorded

theorem leaderCompleteness_grows (inv : Invariants) (view : ClusterView) :
    Grows inv (inv.leaderCompleteness view) := by
  unfold leaderCompleteness
  refine foldlM_related (fun _ _ => id) (fun first second property recorded => ?_) ?_ inv
  · exact second property (first property recorded)
  · exact fun inv node => recordCommitted_grows node.2 node.2.logTerms inv

end

theorem check_leaderCompleteness (inv : Invariants) (view : ClusterView) :
    ∃ before, Keeps .leaderCompleteness inv before ∧
      Keeps .leaderCompleteness (before.leaderCompleteness view) (inv.check view) := by
  refine ⟨_, ?_, commitIsBackedByALog_keeps (by decide) (by decide)⟩
  have counted : Keeps .leaderCompleteness inv { inv with checks := inv.checks + 1 } :=
    ⟨rfl, fun _ => rfl, fun _ => rfl⟩
  exact counted.trans <| (driverAlive_keeps (by decide)).trans <|
    (durability_keeps (by decide)).trans <| (electionSafety_keeps (by decide)).trans <|
    (monotonicity_keeps (by decide) (by decide)).trans <| (logMatching_keeps (by decide)).trans <|
    stateMachineSafety_keeps (by decide)

end Invariants

open Invariants (Contradicts observe)

/-- Some view shows a node that holds this entry and has committed it. -/
def Shown (views : List ClusterView) (index term : ℕ) : Prop :=
  ∃ view ∈ views, ∃ id s, view.nodes.get id = some s ∧ (index, term) ∈ s.logTerms ∧
    index ≤ s.commitIndex

/-- Every log is listed in the order of its indices. -/
def Sorted (views : List ClusterView) : Prop :=
  ∀ view ∈ views, ∀ id s, view.nodes.get id = some s →
    s.logTerms.Pairwise fun left right => left.1 ≤ right.1

variable {views : List ClusterView}

/-- Leader Completeness is violated on record just if two terms were shown as committed at one
index; until then all that was shown is known. -/
theorem observe_leaderCompleteness (sorted : Sorted views) :
    ((observe views).records .leaderCompleteness = true ↔ Contradicts (Shown views)) ∧
      ((observe views).records .leaderCompleteness = false →
        (observe views).Knows (Shown views)) := by
  induction views using List.reverseRecOn with
  | nil =>
    have nothing : (observe []).Knows (Shown []) := by
      intro index term
      simp [observe, Invariants.new, Shown]
    refine ⟨?_, fun _ => nothing⟩
    constructor
    · intro recorded
      cases recorded
    · exact fun contradicts => absurd contradicts nothing.not_contradicts
  | append_singleton views view ih =>
    rcases ih fun other member => sorted other (mem_append_left _ member) with
      ⟨recorded_iff, knows⟩
    have split : (fun index term => Shown views index term ∨ ∃ node ∈ view.nodes.toList,
        (index, term) ∈ node.2.logTerms ∧ index ≤ node.2.commitIndex) =
        Shown (views ++ [view]) := by
      funext index term
      simp [Shown, BTreeMap.mem_toList, or_and_right, exists_or]
    have included : ∀ index term, Shown views index term →
        Shown (views ++ [view]) index term := by
      intro index term early
      rw [← split]
      exact Or.inl early
    have observed : observe (views ++ [view]) = (observe views).check view := by
      simp [observe]
    rcases Invariants.check_leaderCompleteness (observe views) view with ⟨before, early, late⟩
    rw [observed, late.records]
    cases recorded : (observe views).records .leaderCompleteness with
    | true =>
      have still := Invariants.leaderCompleteness_grows before view _
        (early.records.trans recorded)
      rw [still]
      exact ⟨⟨fun _ => (recorded_iff.mp recorded).mono included, fun _ => rfl⟩, nofun⟩
    | false =>
      have knowsBefore : before.Knows (Shown views) := by
        intro index term
        rw [early.committedTerms rfl]
        exact knows recorded index term
      have outcome := Invariants.foldlM_outcome (fun node member =>
        sorted view (by simp) node.1 node.2 (BTreeMap.mem_toList.mp member)) knowsBefore
      rw [split] at outcome
      unfold Invariants.leaderCompleteness at late ⊢
      cases result : view.nodes.toList.foldlM (fun inv node =>
          Invariants.recordCommitted node.2 node.2.logTerms inv) before with
      | error after =>
        rw [result] at outcome
        rcases outcome with ⟨records, contradicts⟩
        change (after.records _ = true ↔ _) ∧ (after.records _ = false → _)
        rw [records]
        exact ⟨⟨fun _ => contradicts, fun _ => rfl⟩, nofun⟩
      | ok after =>
        rw [result] at outcome late
        rcases outcome with ⟨knowsAfter, sameRecord⟩
        change (after.records _ = true ↔ _) ∧ (after.records _ = false → _)
        rw [sameRecord, early.records, recorded]
        refine ⟨⟨nofun, fun contradicts => absurd contradicts knowsAfter.not_contradicts⟩, ?_⟩
        intro _ index term
        rw [late.committedTerms rfl]
        exact knowsAfter index term

/-- The last view shows a leader of a later term that holds another entry where one was shown as
committed. -/
def Overwritten (views : List ClusterView) : Prop :=
  ∃ before view, views = before ++ [view] ∧ ∃ index term, Shown views index term ∧
    ∃ id s, view.nodes.get id = some s ∧ s.role = .leader ∧ term < s.term ∧
      ∃ other ≠ term, (index, other) ∈ s.logTerms

/-- A leader that has overwritten a committed entry is caught just if the views show two terms at
one index as committed, each by a node whose own commit index has reached it. -/
theorem overwriting_leader_caught_iff {views : List ClusterView} (sorted : Sorted views) :
    (Overwritten views → (observe views).records .leaderCompleteness = true) ↔
      (Overwritten views → Contradicts (Shown views)) := by
  rw [(observe_leaderCompleteness sorted).1]

/-- Three nodes: the first leads a term and commits an entry, then the third leads the next term
with another entry in its place and has committed up to `commit`. -/
def overwritingViews (commit : ℕ) : List ClusterView :=
  let deposed : PublicState := { PublicState.initial 0 with
    role := .leader, term := 1, commitIndex := 1, lastIndex := 1, persistedIndex := 1
    recovered := true, logTerms := [(1, 1)] }
  let witness : PublicState := { PublicState.initial 1 with
    term := 1, lastIndex := 1, persistedIndex := 1, recovered := true, logTerms := [(1, 1)] }
  let leader : PublicState := { PublicState.initial 2 with
    role := .leader, term := 2, commitIndex := commit, lastIndex := 1, persistedIndex := 1
    recovered := true, logTerms := [(1, 2)] }
  [⟨.collect [(0, deposed), (1, witness), (2, { PublicState.initial 2 with recovered := true })]⟩,
    ⟨.collect [(0, deposed), (1, witness), (2, leader)]⟩]

theorem sorted_overwritingViews (commit : ℕ) : Sorted (overwritingViews commit) := by
  intro view isView id s found
  have member := BTreeMap.mem_toList.mpr found
  simp only [overwritingViews, mem_cons, not_mem_nil, or_false] at isView
  rcases isView with rfl | rfl
  · have listed := BTreeMap.mem_collect member
    simp only [mem_cons, not_mem_nil, or_false, Prod.mk.injEq] at listed
    rcases listed with ⟨-, rfl⟩ | ⟨-, rfl⟩ | ⟨-, rfl⟩ <;> simp [PublicState.initial]
  · have listed := BTreeMap.mem_collect member
    simp only [mem_cons, not_mem_nil, or_false, Prod.mk.injEq] at listed
    rcases listed with ⟨-, rfl⟩ | ⟨-, rfl⟩ | ⟨-, rfl⟩ <;> simp

theorem shown_overwritingViews (commit : ℕ) : Shown (overwritingViews commit) 1 1 :=
  ⟨_, mem_cons_self, 0, _, rfl, by simp, by decide⟩

theorem overwritten_overwritingViews (commit : ℕ) : Overwritten (overwritingViews commit) :=
  ⟨[_], _, rfl, 1, 1, shown_overwritingViews commit, 2, _, rfl, rfl, by simp, 2, by decide, by simp⟩

/-- As long as the new leader has not committed its entry, it is not caught. -/
theorem overwriting_leader_missed :
    Sorted (overwritingViews 0) ∧ Overwritten (overwritingViews 0) ∧
      (observe (overwritingViews 0)).records .leaderCompleteness = false :=
  ⟨sorted_overwritingViews 0, overwritten_overwritingViews 0, by decide⟩

/-- Once it has, it is. -/
theorem overwriting_leader_caught :
    Sorted (overwritingViews 1) ∧
      (observe (overwritingViews 1)).records .leaderCompleteness = true := by
  refine ⟨sorted_overwritingViews 1, ?_⟩
  refine (overwriting_leader_caught_iff (sorted_overwritingViews 1)).mpr (fun _ => ?_)
    (overwritten_overwritingViews 1)
  refine ⟨1, 1, 2, by decide, shown_overwritingViews 1, ?_⟩
  exact ⟨_, mem_cons_of_mem _ mem_cons_self, 2, _, rfl, by simp, by decide⟩

namespace Invariants

/-- What was durable and committed in a process, in terms of what lies below it. -/
def Remembers (inv : Invariants) (durable : NodeId → ℕ → ℕ → Prop) : Prop :=
  ∀ id generation index,
    (∃ was, inv.persisted.get (toLex (id, generation)) = some was ∧ index < was) ↔
    durable id generation index

/-- A node shows that it holds less than its last process had made durable. -/
def Setback (durable : NodeId → ℕ → ℕ → Prop) (id : NodeId) (s : PublicState) : Prop :=
  s.recovered = true ∧ ∃ generation, s.generation = generation + 1 ∧
    durable id generation (max s.lastIndex s.snapshotIndex)

/-- What a sighting adds to what is durable. -/
def Adds (id : NodeId) (s : PublicState) (other : NodeId) (generation index : ℕ) : Prop :=
  other = id ∧ s.recovered = true ∧ s.generation = generation ∧
    index < min s.persistedIndex s.commitIndex

section

variable {inv : Invariants} {durable : NodeId → ℕ → ℕ → Prop} {id : NodeId} {s : PublicState}

theorem checkRecovered_persisted (inv : Invariants) (id : NodeId) (s : PublicState) :
    (inv.checkRecovered id s).persisted = inv.persisted := by
  have failed (detail : String) : (inv.fail .durability detail).persisted = inv.persisted := by
    unfold fail
    split_ifs <;> rfl
  unfold checkRecovered
  split_ifs
  · split
    · split_ifs
      · exact failed _
      · rfl
    · rfl
  · rfl

theorem checkRecovered_records (remembers : inv.Remembers durable)
    (recovered : s.recovered = true) :
    (inv.checkRecovered id s).records .durability = true ↔
      inv.records .durability = true ∨ Setback durable id s := by
  cases isGeneration : s.generation with
  | zero => simp [checkRecovered, isGeneration, Setback]
  | succ generation =>
    have setback : Setback durable id s ↔
        ∃ was, inv.persisted.get (toLex (id, generation)) = some was ∧
          s.lastIndex < was ∧ s.snapshotIndex < was := by
      simp only [Setback, recovered, isGeneration, true_and, Nat.add_right_cancel_iff,
        exists_eq_left']
      rw [← remembers]
      simp only [max_lt_iff]
    rw [setback]
    cases found : inv.persisted.get (toLex (id, generation)) with
    | none => simp [checkRecovered, isGeneration, found]
    | some was =>
      by_cases short : s.lastIndex < was ∧ s.snapshotIndex < was
      · simp [checkRecovered, isGeneration, found, short, records_fail]
      · have unchanged : inv.checkRecovered id s = inv := by
          simp only [checkRecovered, isGeneration, Nat.add_one_sub_one, found, if_neg short,
            ite_self]
        simp only [unchanged, Option.some.injEq, exists_eq_left', short, or_false]

theorem rememberDurable_remembers (remembers : inv.Remembers durable)
    (recovered : s.recovered = true) :
    (inv.rememberDurable id s).Remembers fun other generation index =>
      durable other generation index ∨ Adds id s other generation index := by
  intro other generation index
  change _ ↔ durable other generation index ∨ Adds id s other generation index
  simp only [rememberDurable, BTreeMap.get_insert]
  split_ifs with same
  · rw [PublicState.lifetime, toLex_inj, Prod.mk.injEq] at same
    rcases same with ⟨rfl, rfl⟩
    rw [← remembers]
    simp only [PublicState.lifetime, Option.some.injEq, exists_eq_left', Adds, recovered, true_and]
    cases found : inv.persisted.get (toLex (other, s.generation)) with
    | none => simp
    | some high => simp
  · have differs : ¬ Adds id s other generation index := by
      rintro ⟨rfl, -, rfl, -⟩
      exact same rfl
    rw [remembers, or_iff_left differs]

theorem durability_fold (distinct : nodes.Pairwise fun left right => left.1 ≠ right.1)
    (remembers : inv.Remembers durable) : let after := nodes.foldl (fun inv node =>
      if !node.2.recovered then inv
      else (inv.checkRecovered node.1 node.2).rememberDurable node.1 node.2) inv
    (after.records .durability = true ↔ inv.records .durability = true ∨
      ∃ node ∈ nodes, Setback durable node.1 node.2) ∧
    after.Remembers fun id generation index => durable id generation index ∨
      ∃ node ∈ nodes, Adds node.1 node.2 id generation index := by
  induction nodes generalizing inv durable with
  | nil => exact ⟨by simp, by simpa using remembers⟩
  | cons node nodes ih =>
    rw [pairwise_cons] at distinct
    rcases distinct with ⟨others, distinct⟩
    have setback_iff (more : NodeId → ℕ → ℕ → Prop)
        (same : ∀ id generation index, id ≠ node.1 →
          (more id generation index ↔ durable id generation index)) :
        (∃ other ∈ nodes, Setback more other.1 other.2) ↔
          ∃ other ∈ nodes, Setback durable other.1 other.2 := by
      refine exists_congr fun other => and_congr_right fun member => ?_
      simp only [Setback, same _ _ _ (others other member).symm]
    by_cases recovered : node.2.recovered = true
    · have sameAfter := checkRecovered_persisted inv node.1 node.2
      have checked : (inv.checkRecovered node.1 node.2).Remembers durable := by
        intro id generation index
        rw [sameAfter]
        exact remembers id generation index
      rcases ih distinct (rememberDurable_remembers checked recovered) with
        ⟨records, remembersAll⟩
      simp only [foldl_cons, recovered, Bool.not_true, Bool.false_eq_true, if_false]
      refine ⟨?_, ?_⟩
      · rw [records, setback_iff _ ?_]
        · change (inv.checkRecovered node.1 node.2).records .durability = true ∨ _ ↔ _
          rw [checkRecovered_records remembers recovered, exists_mem_cons_iff, or_assoc]
        · intro id generation index differs
          simp [Adds, differs]
      · intro id generation index
        refine (remembersAll id generation index).trans ?_
        simp only [exists_mem_cons_iff, or_assoc]
    · rcases ih distinct remembers with ⟨records, remembersAll⟩
      have unseen : node.2.recovered = false := by simpa using recovered
      simp only [foldl_cons, unseen, Bool.not_false, if_true]
      refine ⟨?_, ?_⟩
      · rw [records]
        simp [Setback, unseen]
      · intro id generation index
        refine (remembersAll id generation index).trans ?_
        simp [Adds, unseen]

end

theorem check_durability (inv : Invariants) (view : ClusterView) :
    ∃ before, Keeps .durability inv before ∧
      Keeps .durability (before.durability view) (inv.check view) := by
  have counted : Keeps .durability inv { inv with checks := inv.checks + 1 } :=
    ⟨rfl, fun _ => rfl, fun _ => rfl⟩
  have alive : Keeps .durability inv (driverAlive { inv with checks := inv.checks + 1 } view) :=
    counted.trans (driverAlive_keeps (by decide))
  refine ⟨_, alive, ?_⟩
  exact (electionSafety_keeps (by decide)).trans <|
    (monotonicity_keeps (by decide) (by decide)).trans <| (logMatching_keeps (by decide)).trans <|
    (stateMachineSafety_keeps (by decide)).trans <|
    (leaderCompleteness_keeps (by decide)).trans <|
    commitIsBackedByALog_keeps (by decide) (by decide)

end Invariants

/-- Some view shows the node recovered in this process, with more than `index` durable and
committed. -/
def Durable (views : List ClusterView) (id : NodeId) (generation index : ℕ) : Prop :=
  ∃ view ∈ views, ∃ s, view.nodes.get id = some s ∧ s.recovered = true ∧
    s.generation = generation ∧ index < min s.persistedIndex s.commitIndex

/-- Some view shows a node recovered whose log and snapshot end below what earlier views have shown
as durable and committed in the process directly before. -/
def LostAtOnce (views : List ClusterView) : Prop :=
  ∃ before view after, views = before ++ view :: after ∧ ∃ id s, view.nodes.get id = some s ∧
    s.recovered = true ∧ ∃ generation, s.generation = generation + 1 ∧
      Durable before id generation (max s.lastIndex s.snapshotIndex)

theorem lostAtOnce_concat {view : ClusterView} :
    LostAtOnce (views ++ [view]) ↔ LostAtOnce views ∨
      ∃ node ∈ view.nodes.toList, Invariants.Setback (Durable views) node.1 node.2 := by
  constructor
  · rintro ⟨before, shown, after, split, id, s, found, lost⟩
    rcases eq_nil_or_concat after with rfl | ⟨rest, last, rfl⟩
    · rcases append_inj' split rfl with ⟨rfl, same⟩
      cases same
      exact Or.inr ⟨(id, s), BTreeMap.mem_toList.mpr found, lost⟩
    · rw [concat_eq_append, ← cons_append, ← append_assoc] at split
      rcases append_inj' split rfl with ⟨rfl, -⟩
      exact Or.inl ⟨before, shown, rest, rfl, id, s, found, lost⟩
  · rintro (⟨before, shown, after, rfl, lost⟩ | ⟨⟨id, s⟩, member, lost⟩)
    · exact ⟨before, shown, after ++ [view], by simp, lost⟩
    · exact ⟨views, view, [], rfl, id, s, BTreeMap.mem_toList.mp member, lost⟩

/-- A loss is on record just if it was shown from one process to the next. -/
theorem observe_durability (views : List ClusterView) :
    ((observe views).records .durability = true ↔ LostAtOnce views) ∧
      (observe views).Remembers (Durable views) := by
  induction views using List.reverseRecOn with
  | nil =>
    refine ⟨?_, ?_⟩
    · simp [observe, Invariants.new, Invariants.records, LostAtOnce]
    · intro id generation index
      simp [observe, Invariants.new, Durable]
  | append_singleton views view ih =>
    rcases ih with ⟨records, remembers⟩
    have observed : observe (views ++ [view]) = (observe views).check view := by
      simp [observe]
    rcases Invariants.check_durability (observe views) view with ⟨before, early, late⟩
    have remembersBefore : before.Remembers (Durable views) := by
      intro id generation index
      rw [early.persisted rfl]
      exact remembers id generation index
    have distinct : view.nodes.toList.Pairwise fun left right => left.1 ≠ right.1 :=
      view.nodes.sorted.imp fun below => below.ne
    rcases Invariants.durability_fold distinct remembersBefore with ⟨recordsAfter, remembersAfter⟩
    rw [observed]
    refine ⟨?_, ?_⟩
    · rw [late.records, lostAtOnce_concat, ← records, ← early.records]
      exact recordsAfter
    · intro id generation index
      rw [late.persisted rfl]
      refine (remembersAfter id generation index).trans ?_
      simp [Durable, Invariants.Adds, BTreeMap.mem_toList, or_and_right, exists_or]

/-- The last view shows a node recovered whose log and snapshot end below what an earlier view has
shown as durable and committed in an earlier process, whatever was shown in between. -/
def Lost (views : List ClusterView) : Prop :=
  ∃ before view, views = before ++ [view] ∧ ∃ id s, view.nodes.get id = some s ∧
    s.recovered = true ∧ ∃ generation < s.generation, ∃ earlier ∈ before, ∃ old,
      earlier.nodes.get id = some old ∧ old.recovered = true ∧ old.generation = generation ∧
      s.lastIndex < min old.persistedIndex old.commitIndex ∧
      s.snapshotIndex < min old.persistedIndex old.commitIndex

/-- Data lost over any number of restarts is noticed just if some loss was shown from one process
to the next. -/
theorem lost_data_noticed_iff (views : List ClusterView) :
    (Lost views → (observe views).records .durability = true) ↔
    (Lost views → LostAtOnce views) := by
  rw [(observe_durability views).1]

/-- A node had three entries durable and committed. It crashed, crashed again before it had
recovered, and came back with nothing. -/
def crashLoopViews : List ClusterView :=
  let healthy : PublicState := { PublicState.initial 0 with
    term := 1, commitIndex := 3, appliedIndex := 3, lastIndex := 3, persistedIndex := 3
    recovered := true, logTerms := [(1, 1), (2, 1), (3, 1)] }
  [⟨.collect [(0, healthy)]⟩,
    ⟨.collect [(0, { PublicState.initial 0 with generation := 1 })]⟩,
    ⟨.collect [(0, { PublicState.initial 0 with generation := 2, recovered := true })]⟩]

theorem crash_loop_unnoticed :
    Lost crashLoopViews ∧ (observe crashLoopViews).records .durability = false := by
  refine ⟨⟨[_, _], _, rfl, 0, _, rfl, rfl, 0, by decide, ?_⟩, by decide⟩
  exact ⟨_, mem_cons_self, _, rfl, rfl, rfl, by decide, by decide⟩

end ChronoScope.Oracle
