import ChronoScope.Oracle.Detection

/-!
# The Log Matching oracle is exact

Of two logs the oracle looks at the highest index they agree at, and below that
for an index they differ at. A lower agreement can neither hide a difference nor
make one up: whatever lies below it lies below the highest one too.
-/

namespace ChronoScope.Oracle

open List

open Chronolog (NodeId)

/-- Both logs hold an entry with one term, and below it entries with two. -/
def PublicState.Clash (a b : PublicState) : Prop :=
  ∃ low high term left right, low < high ∧ (high, term) ∈ a.logTerms ∧ (high, term) ∈ b.logTerms ∧
    (low, left) ∈ a.logTerms ∧ (low, right) ∈ b.logTerms ∧ left ≠ right

/-- The indices of the log are strictly increasing. -/
def PublicState.Rising (s : PublicState) : Prop := s.logTerms.Pairwise fun x y => x.1 < y.1

theorem PublicState.Clash.symm {a b : PublicState} (clash : a.Clash b) : b.Clash a := by
  rcases clash with ⟨low, high, term, left, right, below, inA, inB, lowA, lowB, differ⟩
  exact ⟨low, high, term, right, left, below, inB, inA, lowB, lowA, differ.symm⟩

namespace Invariants

section Pairs

variable {α : Type} {items : List α} {first second : α}

theorem mem_of_mem_pairs (nodup : items.Nodup) (paired : (first, second) ∈ pairs items) :
    first ∈ items ∧ second ∈ items ∧ first ≠ second := by
  induction items with
  | nil => cases paired
  | cons head rest ih =>
    rcases nodup_cons.mp nodup with ⟨fresh, nodup⟩
    rcases mem_append.mp paired with isHead | later
    · rcases mem_map.mp isHead with ⟨other, member, same⟩
      cases same
      exact ⟨by simp, by simp [member], fun same => fresh (same ▸ member)⟩
    · rcases ih nodup later with ⟨inFirst, inSecond, distinct⟩
      exact ⟨by simp [inFirst], by simp [inSecond], distinct⟩

theorem mem_pairs (inFirst : first ∈ items) (inSecond : second ∈ items)
    (distinct : first ≠ second) :
    (first, second) ∈ pairs items ∨ (second, first) ∈ pairs items := by
  induction items with
  | nil => cases inFirst
  | cons head rest ih =>
    simp only [pairs, mem_append, mem_map]
    rcases mem_cons.mp inFirst with rfl | laterFirst <;>
      rcases mem_cons.mp inSecond with rfl | laterSecond
    · exact absurd rfl distinct
    · exact .inl (.inl ⟨second, laterSecond, rfl⟩)
    · exact .inr (.inl ⟨first, laterFirst, rfl⟩)
    · exact (ih laterFirst laterSecond).imp .inr .inr

end Pairs

section Logs

variable {a b : PublicState} {index term : ℕ}

theorem get_collect (rising : a.Rising) :
    (BTreeMap.collect a.logTerms).get index = some term ↔ (index, term) ∈ a.logTerms := by
  have same : BTreeMap.collect a.logTerms = ⟨a.logTerms, rising⟩ :=
    BTreeMap.collect_toList ⟨a.logTerms, rising⟩
  rw [same, ← BTreeMap.mem_toList]

theorem exists_agreeAt (risingA : a.Rising) (risingB : b.Rising)
    (inA : (index, term) ∈ a.logTerms) (inB : (index, term) ∈ b.logTerms) :
    ∃ shared, agreeAt a b = some shared ∧ index ≤ shared := by
  have isFound : (b.logTerms.reverse.find? fun held =>
      decide ((BTreeMap.collect a.logTerms).get held.1 = some held.2)).isSome = true := by
    rw [find?_isSome]
    exact ⟨(index, term), by simpa using inB, by simpa using (get_collect risingA).mpr inA⟩
  rcases Option.isSome_iff_exists.mp isFound with ⟨held, found⟩
  refine ⟨held.1, by rw [agreeAt, found]; rfl, ?_⟩
  rcases find?_eq_some_iff_append.mp found with ⟨_, above, below, split, none⟩
  have falling : (above ++ held :: below).Pairwise fun x y => y.1 < x.1 :=
    split ▸ pairwise_reverse.mpr risingB
  have member : (index, term) ∈ above ++ held :: below := split ▸ mem_reverse.mpr inB
  rcases mem_append.mp member with early | late
  · have := none _ early
    simp [(get_collect risingA).mpr inA] at this
  · rcases mem_cons.mp late with same | later
    · rw [← same]
    · exact ((pairwise_cons.mp (pairwise_append.mp falling).2.1).1 _ later).le

theorem agreeAt_eq_some (risingA : a.Rising) {shared : ℕ} (found : agreeAt a b = some shared) :
    ∃ term, (shared, term) ∈ a.logTerms ∧ (shared, term) ∈ b.logTerms := by
  rcases Option.map_eq_some_iff.mp found with ⟨held, isFound, rfl⟩
  have agrees := find?_some isFound
  exact ⟨held.2, (get_collect risingA).mp (by simpa using agrees),
    by simpa using mem_of_find?_eq_some isFound⟩

theorem differAt_isSome_iff (risingA : a.Rising) {upTo : ℕ} :
    (differAt a b upTo).isSome = true ↔ ∃ low left right, low ≤ upTo ∧
      (low, left) ∈ a.logTerms ∧ (low, right) ∈ b.logTerms ∧ left ≠ right := by
  rw [differAt, findSome?_isSome_iff]
  constructor
  · rintro ⟨⟨low, right⟩, member, isSome⟩
    by_cases beyond : low > upTo
    · simp [beyond] at isSome
    · cases held : (BTreeMap.collect a.logTerms).get low with
      | none => simp [held] at isSome
      | some left =>
        have differ : left ≠ right := by
          rintro rfl
          simp [held] at isSome
        exact ⟨low, left, right, not_lt.mp beyond, (get_collect risingA).mp held, member, differ⟩
  · rintro ⟨low, left, right, within, inA, inB, differ⟩
    exact ⟨(low, right), inB, by simp [not_lt.mpr within, (get_collect risingA).mpr inA, differ]⟩

theorem mismatch_isSome_iff (risingA : a.Rising) (risingB : b.Rising) (left right : NodeId) :
    (mismatch (left, a) (right, b)).isSome = true ↔ a.Clash b := by
  constructor
  · intro isSome
    cases found : agreeAt a b with
    | none => simp [mismatch, found] at isSome
    | some shared =>
      rcases agreeAt_eq_some risingA found with ⟨term, inA, inB⟩
      have differs : (differAt a b shared).isSome = true := by
        simpa [mismatch, found] using isSome
      rcases (differAt_isSome_iff risingA).mp differs with
        ⟨low, termA, termB, within, lowA, lowB, differ⟩
      have apart : low ≠ shared := by
        rintro rfl
        have sameA := Option.some.inj (((get_collect risingA).mpr lowA).symm.trans
          ((get_collect risingA).mpr inA))
        have sameB := Option.some.inj (((get_collect risingB).mpr lowB).symm.trans
          ((get_collect risingB).mpr inB))
        exact differ (sameA.trans sameB.symm)
      exact ⟨low, shared, term, termA, termB, by omega, inA, inB, lowA, lowB, differ⟩
  · rintro ⟨low, high, term, termA, termB, below, inA, inB, lowA, lowB, differ⟩
    rcases exists_agreeAt risingA risingB inA inB with ⟨shared, found, above⟩
    have differs : (differAt a b shared).isSome = true :=
      (differAt_isSome_iff risingA).mpr ⟨low, termA, termB, by omega, lowA, lowB, differ⟩
    simpa [mismatch, found] using differs

end Logs

/-- The oracle is exact: in a view whose logs have strictly increasing indices it records a
violation just if two nodes agree at an index and differ at a lower one. -/
theorem log_matching_exact (inv : Invariants) (view : ClusterView)
    (rising : ∀ node ∈ view.nodes.toList, node.2.Rising)
    (unrecorded : inv.records .logMatching = false) :
    (inv.logMatching view).records .logMatching = true ↔
      ∃ left right a b, left ≠ right ∧ view.nodes.get left = some a ∧
        view.nodes.get right = some b ∧ a.Clash b := by
  have nodup : (view.nodes.toList.filter fun node => !node.2.logTerms.isEmpty).Nodup :=
    (view.nodes.sorted.imp fun below same => below.ne (congrArg Prod.fst same)).filter _
  unfold logMatching
  constructor
  · intro recorded
    cases found : (pairs (view.nodes.toList.filter fun node =>
        !node.2.logTerms.isEmpty)).findSome? fun pair => mismatch pair.1 pair.2 with
    | none => simp [found, unrecorded] at recorded
    | some detail =>
      rcases exists_of_findSome?_eq_some found with
        ⟨⟨⟨left, a⟩, ⟨right, b⟩⟩, paired, mismatched⟩
      rcases mem_of_mem_pairs nodup paired with ⟨inLeft, inRight, distinct⟩
      have isLeft := mem_of_mem_filter inLeft
      have isRight := mem_of_mem_filter inRight
      have clash := (mismatch_isSome_iff (rising _ isLeft) (rising _ isRight) left right).mp
        (by simp only [mismatched, Option.isSome_some])
      refine ⟨left, right, a, b, ?_, BTreeMap.mem_toList.mp isLeft,
        BTreeMap.mem_toList.mp isRight, clash⟩
      rintro rfl
      have same := (BTreeMap.mem_toList.mp isLeft).symm.trans (BTreeMap.mem_toList.mp isRight)
      cases same
      exact distinct rfl
  · rintro ⟨left, right, a, b, distinct, isLeft, isRight, clash⟩
    have inLeft := BTreeMap.mem_toList.mpr isLeft
    have inRight := BTreeMap.mem_toList.mpr isRight
    have risingA := rising _ inLeft
    have risingB := rising _ inRight
    rcases clash with ⟨low, high, term, termA, termB, below, highA, highB, rest⟩
    have kept {id : NodeId} {s : PublicState} {held : ℕ × ℕ} (isNode : (id, s) ∈ view.nodes.toList)
        (holds : held ∈ s.logTerms) :
        (id, s) ∈ view.nodes.toList.filter fun node => !node.2.logTerms.isEmpty := by
      simpa using ⟨isNode, ne_nil_of_mem holds⟩
    have clash : a.Clash b := ⟨low, high, term, termA, termB, below, highA, highB, rest⟩
    have apart : (left, a) ≠ (right, b) := fun same => distinct (congrArg Prod.fst same)
    have found : ((pairs (view.nodes.toList.filter fun node =>
        !node.2.logTerms.isEmpty)).findSome? fun pair =>
          mismatch pair.1 pair.2).isSome = true := by
      rw [findSome?_isSome_iff]
      rcases mem_pairs (kept inLeft highA) (kept inRight highB) apart with paired | paired
      · exact ⟨_, paired, (mismatch_isSome_iff risingA risingB left right).mpr clash⟩
      · exact ⟨_, paired, (mismatch_isSome_iff risingB risingA right left).mpr clash.symm⟩
    rcases Option.isSome_iff_exists.mp found with ⟨detail, isFound⟩
    simp only [isFound]
    simp [records_fail]

/-- Two nodes that agree at index 2 and differ at index 1. -/
def clashing : ClusterView where
  nodes := .collect [(0, { PublicState.initial 0 with logTerms := [(1, 1), (2, 3)] }),
    (1, { PublicState.initial 1 with logTerms := [(1, 2), (2, 3)] })]

theorem clashing_recorded :
    (new.logMatching clashing).records .logMatching = true ↔
      ∃ left right a b, left ≠ right ∧ clashing.nodes.get left = some a ∧
        clashing.nodes.get right = some b ∧ a.Clash b := by
  refine log_matching_exact new clashing ?_ rfl
  intro node member
  have isOne : node = (0, { PublicState.initial 0 with logTerms := [(1, 1), (2, 3)] }) ∨
      node = (1, { PublicState.initial 1 with logTerms := [(1, 2), (2, 3)] }) := by
    simpa using BTreeMap.mem_collect member
  rcases isOne with rfl | rfl <;> simp [PublicState.Rising]

end Invariants

end ChronoScope.Oracle
