import ChronoScope.Oracle.Invariants
import ChronoScope.Chronolog.Quorum

/-!
# The health of a cluster

Progress may be asked of a cluster only while a quorum of its nodes is up. The
nodes counted are the voters that the leader publishes, and there a joint
configuration shows as a single group: its two halves, merged. Whether a majority
of the merged group is a quorum depends on how much one half adds to the other.
-/

namespace ChronoScope.Oracle

open Chronolog (NodeId Config)

/-- Membership as the current leader understands it, or else the union of what the nodes say. -/
def ClusterView.members (view : ClusterView) : BTreeSet NodeId :=
  let states := view.nodes.toList.map Prod.snd
  let leads (s : PublicState) := s.up && decide (s.role = .leader) && !s.voters.isEmpty
  match states.find? leads with
  | some s => .ofList s.voters
  | none => .ofList (states.flatMap PublicState.voters)

/-- The voters that a node publishes: both halves, sorted, each node once. -/
def published (cfg : Config) : List NodeId := (Config.merged cfg.voters cfg.outgoing).toList

/-- Whether a majority of the current voter set is running. -/
def quorumAlive (view : ClusterView) (up : BTreeSet NodeId) (aliveServers fallback : ℕ) : Bool :=
  let members := view.members
  if members.isEmpty then decide (aliveServers * 2 > fallback)
  else
    let alive := (members.toList.filter (fun id => decide (id ∈ up))).length
    decide (alive * 2 > members.len)

/-- One node that is up leads, and it has published its configuration. -/
structure Leads (view : ClusterView) (up : BTreeSet NodeId) (leader : NodeId) (cfg : Config) :
    Prop where
  /-- The view says of each node whether it is up. -/
  live : ∀ {id s}, view.nodes.get id = some s → (s.up = true ↔ id ∈ up)
  isUp : leader ∈ up
  shows : ∃ s, view.nodes.get leader = some s ∧ s.role = .leader ∧ s.voters = published cfg
  alone : ∀ {id s}, view.nodes.get id = some s → id ∈ up → s.role = .leader → id = leader

variable {view : ClusterView} {up : BTreeSet NodeId} {leader : NodeId} {cfg : Config}

theorem published_ne_nil (someVoter : cfg.voters ≠ ∅ ∨ cfg.outgoing ≠ ∅) :
    published cfg ≠ [] := by
  intro none
  apply Config.merged_ne_empty someVoter
  rw [← BTreeSet.isEmpty_iff, BTreeSet.isEmpty, List.isEmpty_iff]
  exact none

section

variable (leads : Leads view up leader cfg) (someVoter : cfg.voters ≠ ∅ ∨ cfg.outgoing ≠ ∅)

include leads someVoter

theorem Leads.members_eq : view.members = Config.merged cfg.voters cfg.outgoing := by
  rcases leads.shows with ⟨s, atLeader, isLeader, voters⟩
  have found : ∃ found ∈ view.nodes.toList.map Prod.snd,
      (found.up && decide (found.role = .leader) && !found.voters.isEmpty) = true := by
    refine ⟨s, List.mem_map.mpr ⟨_, BTreeMap.mem_toList.mpr atLeader, rfl⟩, ?_⟩
    simp [(leads.live atLeader).mpr leads.isUp, isLeader, voters, published_ne_nil someVoter]
  rcases List.find?_isSome.mpr found |> Option.isSome_iff_exists.mp with ⟨other, finds⟩
  have same : other = s := by
    rcases List.mem_map.mp (List.mem_of_find?_eq_some finds) with ⟨⟨id, _⟩, inView, rfl⟩
    have atId := BTreeMap.mem_toList.mp inView
    have passes := List.find?_some finds
    simp only [Bool.and_eq_true, decide_eq_true_eq] at passes
    have isLeader := leads.alone atId ((leads.live atId).mp passes.1.1) passes.1.2
    rw [isLeader, atLeader] at atId
    exact (Option.some.inj atId).symm
  apply BTreeSet.ext
  intro id
  simp only [ClusterView.members, finds, same, voters, published]
  exact BTreeSet.mem_ofList

theorem Leads.quorumAlive_eq (aliveServers fallback : ℕ) :
    quorumAlive view up aliveServers fallback =
      Config.majority (Config.merged cfg.voters cfg.outgoing) up := by
  have occupied : ¬(Config.merged cfg.voters cfg.outgoing).isEmpty = true := by
    simpa using Config.merged_ne_empty someVoter
  simp only [quorumAlive, Config.majority, leads.members_eq someVoter, if_neg occupied]

end

def onlyLeader (leader : NodeId) (cfg : Config) : ClusterView where
  nodes := BTreeMap.insert ∅ leader
    { PublicState.initial leader with role := .leader, voters := published cfg, up := true }

theorem leads_onlyLeader (cfg : Config) (isUp : leader ∈ up) :
    Leads (onlyLeader leader cfg) up leader cfg := by
  have isLeader {id : NodeId} {s : PublicState}
      (inView : (onlyLeader leader cfg).nodes.get id = some s) : id = leader ∧ s.up = true := by
    rw [onlyLeader, BTreeMap.get_insert] at inView
    split_ifs at inView with same
    · cases inView
      exact ⟨same, rfl⟩
    · cases inView
  refine ⟨?_, isUp, ⟨_, by rw [onlyLeader, BTreeMap.get_insert, if_pos rfl], rfl, rfl⟩, ?_⟩
  · intro id s inView
    rcases isLeader inView with ⟨rfl, shownUp⟩
    exact iff_of_true shownUp isUp
  · intro id s inView _ _
    exact (isLeader inView).1

/-- A quorum of the leader's configuration is up whenever the cluster counts as healthy, just if
there are voters and neither half adds much to the other. -/
theorem quorumAlive_sound_iff :
    (∀ view up leader aliveServers fallback, Leads view up leader cfg →
        quorumAlive view up aliveServers fallback = true → cfg.hasQuorum up = true) ↔
      (cfg.voters ≠ ∅ ∨ cfg.outgoing ≠ ∅) ∧ Config.Covers cfg.voters cfg.outgoing ∧
        Config.Covers cfg.outgoing cfg.voters := by
  constructor
  · intro sound
    have someVoter : cfg.voters ≠ ∅ ∨ cfg.outgoing ≠ ∅ := by
      by_contra noVoter
      simp only [not_or, ne_eq, not_not] at noVoter
      have unsound := sound (onlyLeader 0 cfg) (.ofList [0]) 0 1 1
        (leads_onlyLeader cfg (by simp))
      simp only [Config.hasQuorum_iff, noVoter, ne_eq, not_true, or_self, false_and, imp_false]
        at unsound
      apply unsound
      rcases cfg with ⟨voters, outgoing, learners⟩
      rcases noVoter with ⟨rfl, rfl⟩
      rfl
    have quorate (votes : BTreeSet NodeId)
        (most : Config.majority (Config.merged cfg.voters cfg.outgoing) votes = true) :
        cfg.hasQuorum votes = true := by
      rcases Config.majority_meet (Config.merged_ne_empty someVoter) most most with
        ⟨leader, _, isUp, _⟩
      have leads := leads_onlyLeader cfg isUp
      apply sound _ votes leader 0 0 leads
      rw [leads.quorumAlive_eq someVoter, most]
    refine ⟨someVoter, Config.majority_of_merged_iff.mp ?_, Config.majority_of_merged_iff.mp ?_⟩
    · intro votes most
      exact (Config.hasQuorum_iff.mp (quorate votes most)).2.1
    · intro votes most
      rw [Config.merged_comm] at most
      exact (Config.hasQuorum_iff.mp (quorate votes most)).2.2
  · rintro ⟨someVoter, voters, outgoing⟩ view up leader aliveServers fallback leads healthy
    rw [leads.quorumAlive_eq someVoter] at healthy
    refine Config.hasQuorum_iff.mpr ⟨someVoter, ?_, ?_⟩
    · exact Config.majority_of_merged_iff.mpr voters up healthy
    · rw [Config.merged_comm] at healthy
      exact Config.majority_of_merged_iff.mpr outgoing up healthy

/-- Five voters are about to become four. -/
def shrinking : Config where
  voters := .ofList [0, 1, 2, 3]
  outgoing := .ofList [0, 1, 2, 3, 4]
  learners := ∅

/-- Three of five nodes are up, and only two of the four that stay. -/
theorem healthy_without_quorum :
    Leads (onlyLeader 0 shrinking) (.ofList [0, 1, 4]) 0 shrinking ∧
      quorumAlive (onlyLeader 0 shrinking) (.ofList [0, 1, 4]) 3 5 = true ∧
      shrinking.hasQuorum (.ofList [0, 1, 4]) = false :=
  ⟨leads_onlyLeader shrinking (by decide), by decide, by decide⟩

end ChronoScope.Oracle
