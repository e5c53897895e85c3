import Mathlib.Data.Prod.Lex
import ChronoScope.Chronolog.Raft

/-!
# The safety oracles

An observer that sees every node at once looks at the cluster again and again.
It checks each view by itself and against what it remembers of earlier ones:
who led a term, how far a process has got, which entries were seen committed and
what a process had made durable. It records the first violation of each
property.

A loop that returns out of the middle of a check is a fold that stops with an
error; the error is the observer's state at that point.
-/

namespace ChronoScope.Oracle

open Chronolog (NodeId Role)

/-- What the oracles read of the state a node publishes. -/
structure PublicState where
  node : NodeId
  /-- Which process lifetime this is; the observer counts the boots. -/
  generation : ℕ
  role : Role
  term : ℕ
  commitIndex : ℕ
  appliedIndex : ℕ
  lastIndex : ℕ
  persistedIndex : ℕ
  snapshotIndex : ℕ
  voters : List NodeId
  up : Bool
  /-- Whether the driver has finished recovering and published anything. -/
  recovered : Bool
  driverError : Option String
  /-- Index and term of every entry still in the log. -/
  logTerms : List (ℕ × ℕ)
  /-- Digests of what was applied, by index. -/
  applyCheckpoints : List (ℕ × UInt64)

/-- What a handle shows before its driver has published. -/
def PublicState.initial (node : NodeId) : PublicState where
  node := node
  generation := 0
  role := .follower
  term := 0
  commitIndex := 0
  appliedIndex := 0
  lastIndex := 0
  persistedIndex := 0
  snapshotIndex := 0
  voters := []
  up := false
  recovered := false
  driverError := none
  logTerms := []
  applyCheckpoints := []

structure ClusterView where
  nodes : BTreeMap NodeId PublicState

def ClusterView.leaders (view : ClusterView) : List (NodeId × ℕ) :=
  (view.nodes.toList.filter fun node => decide (node.2.role = .leader)).map
    fun node => (node.1, node.2.term)

inductive Property where
  | driverStopped
  | durability
  | electionSafety
  | commitMonotonicity
  | applyMonotonicity
  | logMatching
  | stateMachineSafety
  | leaderCompleteness
  | commitBeyondLog
  | appliedBeyondCommit
  deriving DecidableEq

structure Violated where
  property : Property
  detail : String

abbrev Lifetime := NodeId ×ₗ ℕ

def PublicState.lifetime (s : PublicState) (id : NodeId) : Lifetime := toLex (id, s.generation)

structure Invariants where
  /-- The leader seen in a term. -/
  leadersByTerm : BTreeMap ℕ NodeId
  highCommit : BTreeMap Lifetime ℕ
  highApplied : BTreeMap Lifetime ℕ
  /-- The term of every index that some node has committed. -/
  committedTerms : BTreeMap ℕ ℕ
  /-- The highest index that was both durable and committed. -/
  persisted : BTreeMap Lifetime ℕ
  violations : List Violated
  checks : ℕ

namespace Invariants

def new : Invariants where
  leadersByTerm := ∅
  highCommit := ∅
  highApplied := ∅
  committedTerms := ∅
  persisted := ∅
  violations := []
  checks := 0

def records (inv : Invariants) (property : Property) : Bool :=
  inv.violations.any fun violated => decide (violated.property = property)

/-- Record a violation, but each property once. -/
def fail (inv : Invariants) (property : Property) (detail : String) : Invariants :=
  if inv.records property then inv
  else { inv with violations := inv.violations ++ [⟨property, detail⟩] }

/-- A node whose driver loop has terminated. -/
def driverAlive (inv : Invariants) (view : ClusterView) : Invariants :=
  view.nodes.toList.foldl (fun inv node =>
    match node.2.driverError with
    | some error => inv.fail .driverStopped s!"n{node.1}: {error}"
    | none => inv) inv

/-- Compare a node that has restarted with what the process before it had made durable. -/
def checkRecovered (inv : Invariants) (id : NodeId) (s : PublicState) : Invariants :=
  if s.generation > 0 then
    match inv.persisted.get (toLex (id, s.generation - 1)) with
    | some was =>
      if s.lastIndex < was ∧ s.snapshotIndex < was then
        inv.fail .durability (s!"n{id} had committed data durable through {was} before " ++
          s!"restarting but came back with last={s.lastIndex} (snapshot {s.snapshotIndex}) — " ++
          "acknowledged data was lost")
      else inv
    | none => inv
  else inv

/-- Remember what is durable on the node and committed. -/
def rememberDurable (inv : Invariants) (id : NodeId) (s : PublicState) : Invariants :=
  let high := (inv.persisted.get (s.lifetime id)).getD 0
  let safe := min s.persistedIndex s.commitIndex
  { inv with persisted := inv.persisted.insert (s.lifetime id) (max high safe) }

/-- A restart must recover everything that was both fsynced and committed. -/
def durability (inv : Invariants) (view : ClusterView) : Invariants :=
  view.nodes.toList.foldl (fun inv node =>
    if !node.2.recovered then inv
    else (inv.checkRecovered node.1 node.2).rememberDurable node.1 node.2) inv

/-- At most one leader per term. -/
def electionSafety (inv : Invariants) (view : ClusterView) : Invariants :=
  view.leaders.foldl (fun inv leader =>
    match inv.leadersByTerm.get leader.2 with
    | some prev =>
      if prev ≠ leader.1 then
        inv.fail .electionSafety
          s!"term {leader.2} has two leaders: n{prev} and n{leader.1}"
      else { inv with leadersByTerm := inv.leadersByTerm.insert leader.2 leader.1 }
    | none => { inv with leadersByTerm := inv.leadersByTerm.insert leader.2 leader.1 }) inv

def commitMonotone (inv : Invariants) (id : NodeId) (s : PublicState) : Invariants :=
  let prev := (inv.highCommit.get (s.lifetime id)).getD 0
  let inv := if s.commitIndex < prev then
      inv.fail .commitMonotonicity
        s!"n{id} commit index went {prev} -> {s.commitIndex} without restarting"
    else inv
  { inv with highCommit := inv.highCommit.insert (s.lifetime id) (max prev s.commitIndex) }

def appliedMonotone (inv : Invariants) (id : NodeId) (s : PublicState) : Invariants :=
  let prev := (inv.highApplied.get (s.lifetime id)).getD 0
  let inv := if s.appliedIndex < prev then
      inv.fail .applyMonotonicity
        s!"n{id} applied index went {prev} -> {s.appliedIndex} without restarting"
    else inv
  { inv with highApplied := inv.highApplied.insert (s.lifetime id) (max prev s.appliedIndex) }

/-- Commit and applied indices never move backwards within a lifetime. -/
def monotonicity (inv : Invariants) (view : ClusterView) : Invariants :=
  view.nodes.toList.foldl (fun inv node =>
    (inv.commitMonotone node.1 node.2).appliedMonotone node.1 node.2) inv

def pairs {α : Type} : List α → List (α × α)
  | [] => []
  | first :: rest => rest.map (fun second => (first, second)) ++ pairs rest

/-- The highest index of `b` at which the logs agree. -/
def agreeAt (a b : PublicState) : Option ℕ :=
  (b.logTerms.reverse.find? fun held =>
    decide ((BTreeMap.collect a.logTerms).get held.1 = some held.2)).map Prod.fst

/-- The first index up to `upTo` at which the logs differ, with both terms. -/
def differAt (a b : PublicState) (upTo : ℕ) : Option (ℕ × ℕ × ℕ) :=
  b.logTerms.findSome? fun held =>
    if held.1 > upTo then none
    else match (BTreeMap.collect a.logTerms).get held.1 with
      | some term => if term ≠ held.2 then some (held.1, term, held.2) else none
      | none => none

/-- What is wrong with two logs, if anything. -/
def mismatch (a b : NodeId × PublicState) : Option String :=
  (agreeAt a.2 b.2).bind fun shared =>
    (differAt a.2 b.2 shared).map fun found =>
      s!"n{a.1} and n{b.1} agree at index {shared} but differ at index {found.1}: " ++
        s!"terms {found.2.1} vs {found.2.2}"

/-- Logs that share an entry are identical in every preceding one. -/
def logMatching (inv : Invariants) (view : ClusterView) : Invariants :=
  let nodes := view.nodes.toList.filter fun node => !node.2.logTerms.isEmpty
  match (pairs nodes).findSome? fun pair => mismatch pair.1 pair.2 with
  | some detail => inv.fail .logMatching detail
  | none => inv

def hex (digest : UInt64) : String :=
  let digits := Nat.toDigits 16 digest.toNat
  "0x" ++ String.ofList (List.replicate (16 - digits.length) '0' ++ digits)

/-- The first index at which two nodes applied something different. -/
def divergence (a b : NodeId × PublicState) : Option String :=
  b.2.applyCheckpoints.findSome? fun held =>
    match (BTreeMap.collect a.2.applyCheckpoints).get held.1 with
    | some digest =>
      if digest ≠ held.2 then
        some (s!"n{a.1} and n{b.1} applied different histories through index {held.1} " ++
          s!"(digests {hex digest} vs {hex held.2})")
      else none
    | none => none

/-- No two nodes apply different entries at the same index. -/
def stateMachineSafety (inv : Invariants) (view : ClusterView) : Invariants :=
  let nodes := view.nodes.toList.filter fun node => !node.2.applyCheckpoints.isEmpty
  match (pairs nodes).findSome? fun pair => divergence pair.1 pair.2 with
  | some detail => inv.fail .stateMachineSafety detail
  | none => inv

/-- Record the terms of what a node has committed, up to the first that contradicts the record. -/
def recordCommitted (s : PublicState) : List (ℕ × ℕ) → Invariants → Except Invariants Invariants
  | [], inv => .ok inv
  | (index, term) :: rest, inv =>
    if index > s.commitIndex then .ok inv
    else
      match inv.committedTerms.get index with
      | some known =>
        if known ≠ term then
          .error (inv.fail .leaderCompleteness
            (s!"index {index} was committed in term {known} but n{s.node} now holds " ++
              s!"term {term} there — a committed entry was overwritten"))
        else recordCommitted s rest
          { inv with committedTerms := inv.committedTerms.insert index term }
      | none => recordCommitted s rest
          { inv with committedTerms := inv.committedTerms.insert index term }

/-- The state at the end of a check, whether it was cut short or not. -/
def final : Except Invariants Invariants → Invariants
  | .ok inv => inv
  | .error inv => inv

/-- A committed index never changes its term. -/
def leaderCompleteness (inv : Invariants) (view : ClusterView) : Invariants :=
  final (view.nodes.toList.foldlM (fun inv node => recordCommitted node.2 node.2.logTerms inv) inv)

/-- A node must not claim to have committed past the end of its own log. -/
def commitIsBackedByALog (inv : Invariants) (view : ClusterView) : Invariants :=
  view.nodes.toList.foldl (fun inv node =>
    let s := node.2
    let inv := if s.commitIndex > s.lastIndex then
        inv.fail .commitBeyondLog
          s!"n{node.1} reports commit index {s.commitIndex} but its log ends at {s.lastIndex}"
      else inv
    if s.appliedIndex > s.commitIndex then
      inv.fail .appliedBeyondCommit
        s!"n{node.1} applied {s.appliedIndex} but has only committed {s.commitIndex}"
    else inv) inv

def check (inv : Invariants) (view : ClusterView) : Invariants :=
  let inv := { inv with checks := inv.checks + 1 }
  ((((((((inv.driverAlive view).durability view).electionSafety view).monotonicity view).logMatching
    view).stateMachineSafety view).leaderCompleteness view).commitIsBackedByALog view)

def observe (views : List ClusterView) : Invariants := views.foldl check new

end Invariants

end ChronoScope.Oracle
