import Mathlib.Data.List.Sort

/-!
# Merging orders of intervals

Operations are intervals of time. An order of some of them respects real time if
none is placed before another that ended before it began. Orders of several
groups of operations, each respecting real time, can be merged into one that
respects real time across the groups: give every operation the latest beginning
up to its place in its group, which falls into its own interval, and sort by
that point.
-/

namespace ChronoScope.Intervals

open List

universe u

variable {α : Type u} (start stop : α → ℕ)

/-- Real time allows the first to be placed before the second. -/
def MayPrecede (first second : α) : Prop := start first ≤ stop second

instance : DecidableRel (MayPrecede start stop) := fun _ _ => Nat.decLe _ _

/-- Every operation with the latest beginning up to its place. -/
def points : ℕ → List α → List (ℕ × α)
  | _, [] => []
  | latest, item :: rest =>
    (max latest (start item), item) :: points (max latest (start item)) rest

theorem map_snd_points (latest : ℕ) (order : List α) :
    (points start latest order).map Prod.snd = order := by
  induction order generalizing latest with
  | nil => rfl
  | cons item rest ih => simp [points, ih]

theorem le_points {latest : ℕ} {order : List α} {point : ℕ × α}
    (member : point ∈ points start latest order) : latest ≤ point.1 ∧ start point.2 ≤ point.1 := by
  induction order generalizing latest with
  | nil => cases member
  | cons item rest ih =>
    rcases mem_cons.mp member with rfl | later
    · exact ⟨le_max_left _ _, le_max_right _ _⟩
    · rcases ih later with ⟨above, begun⟩
      exact ⟨(le_max_left _ _).trans above, begun⟩

theorem points_pairwise (latest : ℕ) (order : List α) :
    (points start latest order).Pairwise fun left right => left.1 ≤ right.1 := by
  induction order generalizing latest with
  | nil => exact .nil
  | cons item rest ih =>
    refine .cons ?_ (ih _)
    intro point member
    exact (le_points start member).1

theorem points_le {latest : ℕ} {order : List α}
    (proper : ∀ item ∈ order, start item ≤ stop item)
    (before : ∀ item ∈ order, latest ≤ stop item)
    (ordered : order.Pairwise (MayPrecede start stop)) :
    ∀ point ∈ points start latest order, point.1 ≤ stop point.2 := by
  induction order generalizing latest with
  | nil => simp [points]
  | cons item rest ih =>
    rw [pairwise_cons] at ordered
    intro point member
    rcases mem_cons.mp member with rfl | later
    · exact max_le (before item (mem_cons_self ..)) (proper item (mem_cons_self ..))
    · refine ih (fun other inRest => proper other (mem_cons_of_mem _ inRest)) ?_ ordered.2
        point later
      intro other inRest
      exact max_le (before other (mem_cons_of_mem _ inRest)) (ordered.1 other inRest)

/-- Orders that each respect real time have a common one that does. -/
theorem exists_merge (orders : List (List α))
    (proper : ∀ order ∈ orders, ∀ item ∈ order, start item ≤ stop item)
    (ordered : ∀ order ∈ orders, order.Pairwise (MayPrecede start stop)) :
    ∃ merged : List α, merged.Perm orders.flatten ∧ merged.Pairwise (MayPrecede start stop) ∧
      ∀ order ∈ orders, order.Sublist merged := by
  let all := orders.flatMap (points start 0)
  let sorted := all.insertionSort fun left right => left.1 ≤ right.1
  have sortedPerm : sorted.Perm all := perm_insertionSort ..
  have within : ∀ point ∈ sorted, start point.2 ≤ point.1 ∧ point.1 ≤ stop point.2 := by
    intro point member
    rcases mem_flatMap.mp (sortedPerm.mem_iff.mp member) with ⟨order, inOrders, isPoint⟩
    refine ⟨(le_points start isPoint).2, ?_⟩
    exact points_le start stop (proper order inOrders) (fun _ _ => Nat.zero_le _)
      (ordered order inOrders) point isPoint
  have ascending : sorted.Pairwise fun left right => left.1 ≤ right.1 := by
    have : IsTrans (ℕ × α) fun left right => left.1 ≤ right.1 := ⟨fun _ _ _ => le_trans⟩
    have : Std.Total fun left right : ℕ × α => left.1 ≤ right.1 := ⟨fun _ _ => le_total _ _⟩
    exact pairwise_insertionSort ..
  refine ⟨sorted.map Prod.snd, ?_, ?_, ?_⟩
  · have flat : all.map Prod.snd = orders.flatten := by
      simp only [all, map_flatMap, map_snd_points]
      simp
    rw [← flat]
    exact sortedPerm.map _
  · rw [pairwise_map]
    refine ascending.imp_of_mem ?_
    intro left right leftIn rightIn notAfter
    exact (within left leftIn).1.trans (notAfter.trans (within right rightIn).2)
  · intro order inOrders
    have : IsTrans (ℕ × α) fun left right => left.1 ≤ right.1 := ⟨fun _ _ _ => le_trans⟩
    have kept : (points start 0 order).Sublist sorted := by
      apply sublist_insertionSort (points_pairwise start 0 order)
      exact sublist_flatten_of_mem (mem_map_of_mem inOrders)
    have := kept.map Prod.snd
    rwa [map_snd_points] at this

end ChronoScope.Intervals
