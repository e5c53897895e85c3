import ChronoScope.Chronolog.Cluster

/-!
# Runs in which the membership changes

A run of a cluster whose operators may ask any node to change the membership and
whose drivers complete such a change, beside everything a cluster of fixed
membership does. A crash is more than a restart here: the node may come back from
any disk at all, so that nothing depends on what a crash in the middle of a write
leaves behind.

A run is the list of its states, the latest first, so that what it has been
through can be spoken about. `allowed` restricts what may happen in it.
-/

namespace ChronoScope.Chronolog

/-- Something that happens to a cluster whose membership may change. -/
inductive Deed where
  | act (action : Action)
  /-- An operator asks a node for a change. -/
  | proposeConfig (id : NodeId) (change : ConfigChange)
  /-- A node's driver asks it to complete a change. -/
  | finishConfig (id : NodeId)
  /-- A node crashes and comes back from what is on its disk then. -/
  | crash (id : NodeId) (disk : Durable)

def Deed.actor : Deed → NodeId
  | .act action => action.actor
  | .proposeConfig id _ => id
  | .finishConfig id => id
  | .crash id _ => id

def Deed.heard : Deed → Option (NodeId × Message)
  | .act (.input _ (.message sender msg)) => some (sender, msg)
  | _ => none

namespace Setup

variable {σ : Type} (setup : Setup σ)

/-- What comes of a deed, if it is possible. -/
def perform (cluster : Cluster σ) : Deed → Option (Cluster σ)
  | .act action => setup.act cluster action
  | .proposeConfig id change =>
    let node := cluster.node id
    some (place cluster id { node with raft := (node.raft.proposeConfig change).2, busy := true })
  | .finishConfig id =>
    let node := cluster.node id
    some (place cluster id { node with raft := node.raft.maybeFinishConfigChange.2 })
  | .crash id disk =>
    let node := { cluster.node id with disk := disk }
    some (place cluster id (node.restart setup.machine setup.config))

/-- The states of a run, the latest first. -/
inductive Run (allowed : Cluster σ → Deed → Prop) : List (Cluster σ) → Prop where
  | start : Run allowed [setup.initial]
  | step {now next : Cluster σ} {past : List (Cluster σ)} {deed : Deed}
      (run : Run allowed (now :: past)) (allows : allowed now deed)
      (done : setup.perform now deed = some next) : Run allowed (next :: now :: past)

variable {setup} in
theorem Run.holds {allowed : Cluster σ → Deed → Prop}
    {P : Cluster σ → List (Cluster σ) → Prop} (initially : P setup.initial [])
    (kept : ∀ {now next : Cluster σ} {past : List (Cluster σ)} {deed : Deed}, P now past →
      allowed now deed → setup.perform now deed = some next → P next (now :: past))
    {now : Cluster σ} {past : List (Cluster σ)} (run : setup.Run allowed (now :: past)) :
    P now past := by
  have throughout : ∀ states, setup.Run allowed states →
      ∃ now past, states = now :: past ∧ P now past := by
    intro states run
    induction run with
    | start => exact ⟨_, _, rfl, initially⟩
    | step _ allows done ih =>
      rcases ih with ⟨_, _, same, holds⟩
      cases same
      exact ⟨_, _, rfl, kept holds allows done⟩
  rcases throughout _ run with ⟨_, _, same, holds⟩
  cases same
  exact holds

/-- Carry out a script from the start, passing over what is not allowed or not possible: where it
leads, and the states before. -/
def trail (allowed : Cluster σ → Deed → Prop) [∀ now deed, Decidable (allowed now deed)]
    (script : List Deed) : Cluster σ × List (Cluster σ) :=
  script.foldl (fun (now, past) deed =>
    match (if allowed now deed then setup.perform now deed else none) with
    | some next => (next, now :: past)
    | none => (now, past)) (setup.initial, [])

theorem run_trail (allowed : Cluster σ → Deed → Prop) [∀ now deed, Decidable (allowed now deed)]
    (script : List Deed) :
    setup.Run allowed ((setup.trail allowed script).1 :: (setup.trail allowed script).2) := by
  unfold trail
  have starts : setup.Run allowed [setup.initial] := .start
  generalize setup.initial = now at starts ⊢
  generalize [] = past at starts ⊢
  induction script generalizing now past with
  | nil => exact starts
  | cons deed script ih =>
    simp only [List.foldl_cons]
    cases done : if allowed now deed then setup.perform now deed else none with
    | none => exact ih _ _ starts
    | some next =>
      split_ifs at done with allows
      exact ih _ _ (.step starts allows done)

end Setup

end ChronoScope.Chronolog
