import Mathlib.Data.Finset.Card
import Mathlib.Data.Finset.Union
import Mathlib.Logic.Relation

/-!
# Depth-first search with an explicit stack

Each frame of the stack is a node with those of its successors that are still to
be tried. A successor that was pushed before is passed over. The search stops at
the first goal, when the stack is empty, or when its budget of rounds is used
up.

A goal that is found can be reached, an exhausted search has no goal it could
reach, and a search over finitely many nodes with enough budget is never cut
short.
-/

namespace ChronoScope

open List

universe u

namespace Search

variable {C : Type u}

inductive Outcome where
  | found
  | exhausted
  | cut
  deriving DecidableEq

def Edge (moves : C → List C) (node next : C) : Prop := next ∈ moves node

def Path (moves : C → List C) : C → C → Prop := Relation.ReflTransGen (Edge moves)

variable [DecidableEq C]

/-- The first node not pushed before, and what comes after it. -/
def firstFresh (visited : List C) : List C → Option (C × List C)
  | [] => none
  | next :: rest => if next ∈ visited then firstFresh visited rest else some (next, rest)

def dfs (moves : C → List C) (goal : C → Bool) :
    ℕ → List C → List (C × List C) → Outcome
  | _, _, [] => .exhausted
  | 0, _, _ :: _ => .cut
  | budget + 1, visited, (node, rest) :: stack =>
    if goal node then .found
    else
      match firstFresh visited rest with
      | some (next, rest') =>
        dfs moves goal budget (next :: visited) ((next, moves next) :: (node, rest') :: stack)
      | none => dfs moves goal budget visited stack

variable {stack : List (C × List C)} {visited : List C}

theorem firstFresh_eq_none {rest : List C} (none_fresh : firstFresh visited rest = none) :
    ∀ next ∈ rest, next ∈ visited := by
  induction rest with
  | nil => simp
  | cons head tail ih =>
    unfold firstFresh at none_fresh
    split_ifs at none_fresh with seen
    simpa using ⟨seen, ih none_fresh⟩

theorem firstFresh_eq_some {rest rest' : List C} {next : C}
    (fresh : firstFresh visited rest = some (next, rest')) :
    next ∉ visited ∧ next ∈ rest ∧ (∀ later ∈ rest', later ∈ rest) ∧
      ∀ other ∈ rest, other ∈ visited ∨ other = next ∨ other ∈ rest' := by
  induction rest with
  | nil => simp [firstFresh] at fresh
  | cons head tail ih =>
    unfold firstFresh at fresh
    split_ifs at fresh with seen
    · rcases ih fresh with ⟨isFresh, member, later, passed⟩
      refine ⟨isFresh, mem_cons_of_mem _ member, ?_, ?_⟩
      · exact fun other inRest => mem_cons_of_mem _ (later other inRest)
      · intro other inRest
        rcases mem_cons.mp inRest with rfl | inTail
        · exact Or.inl seen
        · exact passed other inTail
    · cases fresh
      refine ⟨seen, mem_cons_self .., fun other => mem_cons_of_mem _, ?_⟩
      intro other inRest
      rcases mem_cons.mp inRest with rfl | inTail
      · exact Or.inr (Or.inl rfl)
      · exact Or.inr (Or.inr inTail)

variable {moves : C → List C} {goal : C → Bool}

/-- Every frame is reachable and tries successors only. -/
def Grounded (moves : C → List C) (root : C) (stack : List (C × List C)) : Prop :=
  ∀ frame ∈ stack, Path moves root frame.1 ∧ ∀ next ∈ frame.2, next ∈ moves frame.1

omit [DecidableEq C] in
theorem grounded_root (root : C) : Grounded moves root [(root, moves root)] := by
  intro frame isTop
  rw [mem_singleton] at isTop
  subst isTop
  exact ⟨.refl, fun _ => id⟩

variable {root : C} {budget : ℕ}

theorem exists_path_of_found (grounded : Grounded moves root stack)
    (found : dfs moves goal budget visited stack = .found) :
    ∃ node, Path moves root node ∧ goal node = true := by
  induction budget generalizing visited stack with
  | zero =>
    cases stack with
    | nil => simp [dfs] at found
    | cons frame stack => simp [dfs] at found
  | succ budget ih =>
    match stack with
    | [] => simp [dfs] at found
    | (node, rest) :: stack =>
      rcases grounded (node, rest) (mem_cons_self ..) with ⟨path, successors⟩
      have below : Grounded moves root stack := fun frame member =>
        grounded frame (mem_cons_of_mem _ member)
      unfold dfs at found
      split_ifs at found with isGoal
      · exact ⟨node, path, isGoal⟩
      · cases fresh : firstFresh visited rest with
        | none =>
          rw [fresh] at found
          exact ih below found
        | some taken =>
          rcases taken with ⟨next, rest'⟩
          rw [fresh] at found
          rcases firstFresh_eq_some fresh with ⟨_, member, later, _⟩
          refine ih ?_ found
          intro frame inStack
          rcases mem_cons.mp inStack with rfl | inStack
          · exact ⟨path.tail (successors next member), fun _ => id⟩
          · rcases mem_cons.mp inStack with rfl | inStack
            · exact ⟨path, fun other inRest => successors other (later other inRest)⟩
            · exact below frame inStack

/-- Every known node is on the stack or done: it is no goal and its successors are known.
Successors of a node on the stack are known or still to be tried. -/
structure Covered (moves : C → List C) (goal : C → Bool) (root : C) (visited : List C)
    (stack : List (C × List C)) : Prop where
  known : ∀ node, node = root ∨ node ∈ visited →
    (∃ rest, (node, rest) ∈ stack) ∨
      (goal node = false ∧ ∀ next ∈ moves node, next ∈ visited)
  trying : ∀ frame ∈ stack, ∀ next ∈ moves frame.1, next ∈ visited ∨ next ∈ frame.2

omit [DecidableEq C] in
theorem covered_root (root : C) : Covered moves goal root [] [(root, moves root)] := by
  refine ⟨?_, ?_⟩
  · rintro node (rfl | impossible)
    · exact Or.inl ⟨moves node, by simp⟩
    · cases impossible
  · intro frame member next isNext
    rw [mem_singleton] at member
    subst member
    exact Or.inr isNext

theorem not_goal_of_exhausted (covered : Covered moves goal root visited stack)
    (exhausted : dfs moves goal budget visited stack = .exhausted) :
    ∀ node, Path moves root node → goal node = false := by
  have done (visited : List C) (covered : Covered moves goal root visited []) :
      ∀ node, Path moves root node → goal node = false := by
    have closed : ∀ node, Path moves root node → node = root ∨ node ∈ visited := by
      intro node path
      induction path with
      | refl => exact Or.inl rfl
      | tail _ edge ih =>
        rcases covered.known _ ih with ⟨_, onStack⟩ | ⟨_, successors⟩
        · cases onStack
        · exact Or.inr (successors _ edge)
    intro node path
    rcases covered.known node (closed node path) with ⟨_, onStack⟩ | ⟨notGoal, _⟩
    · cases onStack
    · exact notGoal
  induction budget generalizing visited stack with
  | zero =>
    cases stack with
    | nil => exact done visited covered
    | cons frame stack => simp [dfs] at exhausted
  | succ budget ih =>
    match stack with
    | [] => exact done visited covered
    | (node, rest) :: stack =>
      unfold dfs at exhausted
      split_ifs at exhausted with isGoal
      cases fresh : firstFresh visited rest with
      | none =>
        rw [fresh] at exhausted
        refine ih ⟨?_, ?_⟩ exhausted
        · intro other isKnown
          rcases covered.known other isKnown with ⟨rest', onStack⟩ | finished
          · rcases mem_cons.mp onStack with isTop | below
            · cases isTop
              refine Or.inr ⟨by simpa using isGoal, ?_⟩
              intro next isNext
              rcases covered.trying (node, rest) (mem_cons_self ..) next isNext with
                seen | untried
              · exact seen
              · exact firstFresh_eq_none fresh next untried
            · exact Or.inl ⟨rest', below⟩
          · exact Or.inr finished
        · exact fun frame member => covered.trying frame (mem_cons_of_mem _ member)
      | some taken =>
        rcases taken with ⟨next, rest'⟩
        rw [fresh] at exhausted
        rcases firstFresh_eq_some fresh with ⟨_, _, _, passed⟩
        refine ih ⟨?_, ?_⟩ exhausted
        · intro other isKnown
          by_cases isNext : other = next
          · exact Or.inl ⟨moves next, by simp [isNext]⟩
          · have wasKnown : other = root ∨ other ∈ visited := by
              simpa [isNext] using isKnown
            rcases covered.known other wasKnown with ⟨rest'', onStack⟩ | ⟨notGoal, closed⟩
            · rcases mem_cons.mp onStack with isTop | below
              · cases isTop
                exact Or.inl ⟨rest', by simp⟩
              · exact Or.inl ⟨rest'', by simp [below]⟩
            · exact Or.inr ⟨notGoal, fun after isAfter =>
                mem_cons_of_mem _ (closed after isAfter)⟩
        · intro frame member after isAfter
          rcases mem_cons.mp member with rfl | member
          · exact Or.inr isAfter
          · rcases mem_cons.mp member with rfl | member
            · rcases covered.trying (node, rest) (mem_cons_self ..) after isAfter with
                seen | untried
              · exact Or.inl (mem_cons_of_mem _ seen)
              · rcases passed after untried with seen | isNext | later
                · exact Or.inl (mem_cons_of_mem _ seen)
                · exact Or.inl (by simp [isNext])
                · exact Or.inr later
            · rcases covered.trying frame (mem_cons_of_mem _ member) after isAfter with
                seen | untried
              · exact Or.inl (mem_cons_of_mem _ seen)
              · exact Or.inr untried

/-- Enough rounds for pushing every node that was not pushed yet and popping everything. -/
def enough (nodes : Finset C) (visited : List C) (stack : List (C × List C)) : ℕ :=
  2 * (nodes.filter fun node => node ∉ visited).card + stack.length

theorem not_cut {nodes : Finset C} (closed : ∀ node ∈ nodes, ∀ next ∈ moves node, next ∈ nodes)
    (inside : ∀ frame ∈ stack, frame.1 ∈ nodes ∧ ∀ next ∈ frame.2, next ∈ nodes)
    (sufficient : enough nodes visited stack ≤ budget) :
    dfs moves goal budget visited stack ≠ .cut := by
  induction budget generalizing visited stack with
  | zero =>
    have empty : stack = [] := by
      rw [enough] at sufficient
      exact eq_nil_of_length_eq_zero (by omega)
    simp [empty, dfs]
  | succ budget ih =>
    match stack with
    | [] => simp [dfs]
    | (node, rest) :: stack =>
      rcases inside (node, rest) (mem_cons_self ..) with ⟨isNode, restInside⟩
      have below : ∀ frame ∈ stack, frame.1 ∈ nodes ∧ ∀ next ∈ frame.2, next ∈ nodes :=
        fun frame member => inside frame (mem_cons_of_mem _ member)
      unfold dfs
      split_ifs with isGoal
      · simp
      · cases fresh : firstFresh visited rest with
        | none =>
          refine ih below ?_
          rw [enough] at sufficient ⊢
          rw [length_cons] at sufficient
          omega
        | some taken =>
          rcases taken with ⟨next, rest'⟩
          rcases firstFresh_eq_some fresh with ⟨unseen, member, later, _⟩
          have isNode' : next ∈ nodes := restInside next member
          have fewer : (nodes.filter fun node => node ∉ next :: visited).card <
              (nodes.filter fun node => node ∉ visited).card := by
            apply Finset.card_lt_card
            rw [Finset.ssubset_iff_of_subset]
            · exact ⟨next, by simp [isNode', unseen], by simp⟩
            · intro other
              simp only [Finset.mem_filter, mem_cons, not_or]
              exact fun unpushed => ⟨unpushed.1, unpushed.2.2⟩
          refine ih ?_ ?_
          · intro frame inStack
            rcases mem_cons.mp inStack with rfl | inStack
            · exact ⟨isNode', closed next isNode'⟩
            · rcases mem_cons.mp inStack with rfl | inStack
              · exact ⟨isNode, fun other inRest => restInside other (later other inRest)⟩
              · exact below frame inStack
          · rw [enough] at sufficient ⊢
            simp only [length_cons] at sufficient ⊢
            omega

theorem found_of_path {goalNode : C} (uncut : dfs moves goal budget [] [(root, moves root)] ≠ .cut)
    (path : Path moves root goalNode) (isGoal : goal goalNode = true) :
    dfs moves goal budget [] [(root, moves root)] = .found := by
  cases outcome : dfs moves goal budget [] [(root, moves root)] with
  | found => rfl
  | cut => exact absurd outcome uncut
  | exhausted =>
    have notGoal := not_goal_of_exhausted (covered_root root) outcome goalNode path
    rw [isGoal] at notGoal
    cases notGoal

theorem exhausted_of_not_goal (uncut : dfs moves goal budget [] [(root, moves root)] ≠ .cut)
    (notGoal : ∀ node, Path moves root node → goal node = false) :
    dfs moves goal budget [] [(root, moves root)] = .exhausted := by
  cases outcome : dfs moves goal budget [] [(root, moves root)] with
  | exhausted => rfl
  | cut => exact absurd outcome uncut
  | found =>
    rcases exists_path_of_found (grounded_root root) outcome with ⟨node, path, isGoal⟩
    rw [notGoal node path] at isGoal
    cases isGoal

/-- Nodes from which every step goes down can reach finitely many nodes only. -/
theorem exists_closed {holds : C → Prop} {rank : C → ℕ}
    (keeps : ∀ node next, holds node → next ∈ moves node → holds next)
    (decreases : ∀ node next, holds node → next ∈ moves node → rank next < rank node)
    (holdsRoot : holds root) :
    ∃ nodes : Finset C, root ∈ nodes ∧ ∀ node ∈ nodes, ∀ next ∈ moves node, next ∈ nodes := by
  induction bound : rank root using Nat.strong_induction_on generalizing root with
  | _ bound ih =>
    subst bound
    have below : ∀ next ∈ moves root, ∃ nodes : Finset C, next ∈ nodes ∧
        ∀ node ∈ nodes, ∀ after ∈ moves node, after ∈ nodes := fun next isNext =>
      ih (rank next) (decreases root next holdsRoot isNext) (keeps root next holdsRoot isNext) rfl
    choose! nodes contains closed using below
    refine ⟨insert root ((moves root).toFinset.biUnion nodes), Finset.mem_insert_self .., ?_⟩
    intro node member next isNext
    rw [Finset.mem_insert, Finset.mem_biUnion] at member ⊢
    rcases member with rfl | ⟨child, isChild, member⟩
    · exact Or.inr ⟨next, mem_toFinset.mpr isNext, contains next isNext⟩
    · exact Or.inr ⟨child, isChild,
        closed child (mem_toFinset.mp isChild) node member next isNext⟩

end Search

end ChronoScope
