import ChronoScope.Chronolog.Stances
import ChronoScope.Consensus.Rollback

/-!
# Crashes between two cycles

A node that crashes loses what it was fed since its last cycle. Nothing of that
has left it yet: what it sends and what it applies comes out of a cycle, and a
cycle is made durable as a whole. So a crash at any time is no different from a
restart of a node that was not fed since its last cycle.
-/

namespace ChronoScope.Chronolog

open Consensus (Rollback WithCrashes)

variable {σ : Type}

theorem Node.restart_feed (machine : StateMachine σ) (bootstrap : Config) (node : Node σ)
    (input : Input) (busy : Bool) :
    Node.restart machine bootstrap { node with raft := Node.feed node.raft input, busy := busy } =
      node.restart machine bootstrap := by
  have same : (Node.feed node.raft input).id = node.raft.id ∧
      (Node.feed node.raft input).opts = node.raft.opts := by
    have shifts : Raft.Shifts _ node.raft node.raft (Node.feed node.raft input) := .feed 0 input
    generalize Node.feed node.raft input = fed at shifts ⊢
    induction shifts with
    | refl => exact ⟨rfl, rfl⟩
    | tail _ shift ih => exact ⟨shift.id_eq.trans ih.1, shift.opts_eq.trans ih.2⟩
  simp only [Node.restart, same]

namespace Setup

variable (setup : Setup σ)

/-- A node crashes and comes back from its disk. -/
def Crash (id : NodeId) (before after : Cluster σ) : Prop :=
  after = place before id ((before.node id).restart setup.machine setup.config)

/-- Any number of actions and crashes. -/
def Endures : Cluster σ → Cluster σ → Prop :=
  Relation.ReflTransGen (WithCrashes setup.Step setup.Crash)

/-- The cluster as it is if a node was not fed since its last cycle. -/
def RolledBack (id : NodeId) (back cluster : Cluster σ) : Prop :=
  ∃ node : Node σ, back = place cluster id node ∧ node.busy = false ∧
    node.restart setup.machine setup.config =
      (cluster.node id).restart setup.machine setup.config ∧
    ((cluster.node id).busy = false → node = cluster.node id)

/-- The nodes between cycles are the same. -/
def SameIdle (back cluster : Cluster σ) : Prop :=
  ∀ id, (cluster.node id).busy = false → back.node id = cluster.node id

variable {setup} {cluster after : Cluster σ} {node : Node σ} {id : NodeId} {action : Action}

theorem place_place (first second : Node σ) :
    place (place cluster id first) id second = place cluster id second := by
  simp [place]

theorem rolledBack_of_idle (idle : (cluster.node id).busy = false) :
    setup.RolledBack id cluster cluster :=
  ⟨cluster.node id, by simp [place], idle, rfl, fun _ => rfl⟩

theorem RolledBack.sameIdle {back : Cluster σ} (rolled : setup.RolledBack id back cluster) :
    SameIdle back cluster := by
  rcases rolled with ⟨node, rfl, _, _, same⟩
  intro other idle
  by_cases isThis : other = id
  · subst isThis
    simp [place, same idle]
  · simp [place, isThis]

/-- What others do, they do as well beside another node in the place of one. -/
theorem act_place (other : action.actor ≠ id) :
    setup.act (place cluster id node) action =
      (setup.act cluster action).map (place · id node) := by
  have same : (place cluster id node).node action.actor = cluster.node action.actor :=
    Function.update_of_ne other _ _
  have comm (mine : Node σ) : place (place cluster id node) action.actor mine =
      place (place cluster action.actor mine) id node := by
    simp [place, Function.update_comm other]
  cases action with
  | input actor input =>
    have sent : deliverable (place cluster id node) actor input =
        deliverable cluster actor input := by
      cases input <;> rfl
    simp only [Action.actor] at same comm
    simp only [act, same, comm, sent]
    split_ifs <;> rfl
  | cycle actor =>
    simp only [Action.actor] at same comm
    simp only [act, same, comm]
    rfl
  | stepDown actor =>
    simp only [Action.actor] at same comm
    simp only [act, same, comm]
    split_ifs <;> rfl
  | restart actor =>
    simp only [Action.actor] at same comm
    simp only [act, same, comm]
    split_ifs <;> rfl
  | _ =>
    simp only [Action.actor] at same comm
    simp only [act, same]
    split_ifs
    · rfl
    · rw [Option.map_map]
      exact congrArg (Option.map · _) (funext comm)

/-- What a node does by itself leaves it between cycles, unless it is fed. -/
theorem RolledBack.along {back : Cluster σ} (rolled : setup.RolledBack id back cluster)
    (stepped : setup.Step cluster after) :
    (∃ ahead, Relation.ReflTransGen setup.Step back ahead ∧ setup.RolledBack id ahead after) ∨
      setup.RolledBack id after after := by
  rcases stepped with ⟨action, acted⟩
  rcases rolled with ⟨node, rfl, idle, restarts, same⟩
  by_cases other : action.actor = id
  · subst other
    cases setup.event_of_act acted with
    | input =>
      refine Or.inl ⟨_, .refl, node, (place_place ..).symm, idle, ?_, ?_⟩
      · simp [place, Action.actor, restarts, Node.restart_feed]
      · simp [place, Action.actor]
    | cycle => exact Or.inr (rolledBack_of_idle (by simp [place, Action.actor, Node.cycle]))
    | compact isIdle done =>
      rcases Option.map_eq_some_iff.mp done with ⟨_, _, rfl⟩
      exact Or.inr (rolledBack_of_idle (by simp [place, Action.actor, isIdle]))
    | ship isIdle done =>
      unfold Node.ship at done
      split_ifs at done
      rcases Option.map_eq_some_iff.mp done with ⟨_, _, rfl⟩
      exact Or.inr (rolledBack_of_idle (by simp [place, Action.actor, isIdle]))
    | stepDown isIdle => exact Or.inr (rolledBack_of_idle (by simp [place, Action.actor, isIdle]))
    | restart => exact Or.inr (rolledBack_of_idle (by simp [place, Action.actor, Node.restart]))
  · have untouched := (setup.event_of_act acted).node_eq (Ne.symm other)
    rw [← untouched] at restarts same
    exact Or.inl ⟨place after id node, .single ⟨action, by rw [act_place other, acted]; rfl⟩, node,
      rfl, idle, restarts, same⟩

theorem rollback (setup : Setup σ) :
    Rollback setup.Step setup.Crash setup.RolledBack SameIdle setup.initial where
  initially _ := rolledBack_of_idle rfl
  along := RolledBack.along
  recovers := by
    rintro id _ cluster _ ⟨node, rfl, idle, restarts, _⟩ rfl
    refine .single ⟨.restart id, ?_⟩
    simp [act, place, idle, restarts]
  refl _ _ _ := rfl
  trans first second id idle := by
    have same := second id idle
    exact (first id (same ▸ idle)).trans same
  keeps := RolledBack.sameIdle

theorem Reaches.endures (reached : setup.Reaches cluster after) : setup.Endures cluster after :=
  Relation.ReflTransGen.mono (fun _ _ => Or.inl) _ _ reached

/-- Crashes at any time lead nowhere else than restarts between cycles. -/
theorem reaches_of_endures (endured : setup.Endures setup.initial cluster) :
    setup.Reaches setup.initial cluster :=
  (rollback setup).reaches endured

end Setup

end ChronoScope.Chronolog
