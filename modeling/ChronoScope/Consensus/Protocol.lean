import Mathlib.Data.Set.Insert
import Mathlib.Data.List.Infix
import Mathlib.Logic.Function.Basic

/-!
# Leader-based replication, abstractly

A protocol in which nodes elect at most one leader per term, leaders extend
their own log, followers adopt prefixes of a leader's log, and a leader commits
an index once a quorum has acknowledged it. Nothing here fixes a message
format: a message is represented by the fact it carries (a granted vote, an
acknowledgement), and those facts are only ever added.

Besides the state of the nodes, `State` records history: who led each term, the
log that leader built, the log it was elected with, every vote and
acknowledgement given, and every commit decision taken. An implementation
refines the protocol by exhibiting, for each of its steps, a sequence of the
actions below.

Who decides may itself change. A node reads the configuration off its own log,
committed or not, and counts votes and acknowledgements under it; a leader puts a
change on its log only once it knows every earlier one to be committed.
-/

namespace ChronoScope.Consensus

universe u v

/-- Log entries carry the term of the leader that created them. -/
class Termed (E : Type v) where
  termOf : E → ℕ

export Termed (termOf)

inductive Role where
  | follower
  | candidate
  | leader
  deriving DecidableEq, Repr

/-- What an instance of the protocol fixes: the configuration a log stands for, the sets of nodes
that decide under a configuration, which entries change it, and which entries a leader may put on
which log. Quorums meet within a configuration and across the changes that may follow it. -/
structure Rules (N : Type u) (E : Type v) where
  Config : Type
  config : List E → Config
  IsQuorum : Config → Set N → Prop
  Changes : E → Prop
  Fits : List E → E → Prop
  /-- A change that fits leads from one configuration to another. -/
  Next : Config → Config → Prop
  config_keeps : ∀ {log entry}, ¬Changes entry → config (log ++ [entry]) = config log
  config_next : ∀ {log entry}, Changes entry → Fits log entry →
    Next (config log) (config (log ++ [entry]))
  meet : ∀ {base left right : Config} {any leftVotes rightVotes : Set N}, IsQuorum base any →
    left = base ∨ Next base left → right = base ∨ Next base right →
    IsQuorum left leftVotes → IsQuorum right rightVotes → ∃ node ∈ leftVotes, node ∈ rightVotes

/-- Every change in the log lies within the first `commit` entries. -/
def Rules.Settled {N : Type u} {E : Type v} (rules : Rules N E) (log : List E) (commit : ℕ) :
    Prop :=
  ∀ index entry, log[index]? = some entry → rules.Changes entry → index < commit

/-- Node states together with the history of the run. -/
structure State (N : Type u) (E : Type v) where
  term : N → ℕ
  vote : N → Option N
  role : N → Role
  log : N → List E
  commit : N → ℕ
  /-- The node that led a term. -/
  leader : ℕ → Option N
  /-- The log built by the leader of a term. -/
  leaderLog : ℕ → List E
  /-- The log the leader of a term held when it was elected. -/
  electLog : ℕ → List E
  /-- Votes given: voter, candidate, term. -/
  grants : Set (N × N × ℕ)
  /-- Acknowledgements: term, node, index. -/
  acks : Set (ℕ × N × ℕ)
  /-- Commit decisions of leaders: term, index. -/
  commits : Set (ℕ × ℕ)

section Logs

variable {E : Type v} [Termed E]

/-- The term of the last entry, zero for the empty log. -/
def lastTerm (log : List E) : ℕ := (log.getLast?.map termOf).getD 0

/-- The term at a one-based index; index zero is a sentinel of term zero. -/
def termAt (log : List E) : ℕ → Option ℕ
  | 0 => some 0
  | index + 1 => log[index]?.map termOf

/-- The election restriction: a log described by its last term and length is at
least as up to date as `log`. -/
def UpToDate (candidateTerm candidateLength : ℕ) (log : List E) : Prop :=
  lastTerm log < candidateTerm ∨
    (lastTerm log = candidateTerm ∧ log.length ≤ candidateLength)

@[simp]
theorem lastTerm_nil : lastTerm ([] : List E) = 0 := rfl

@[simp]
theorem lastTerm_append_singleton (log : List E) (entry : E) :
    lastTerm (log ++ [entry]) = termOf entry := by
  simp [lastTerm]

variable {log long short : List E}

theorem termAt_length (nonempty : log ≠ []) :
    termAt log log.length = some (lastTerm log) := by
  obtain ⟨initial, entry, rfl⟩ := List.eq_nil_or_concat log |>.resolve_left nonempty
  simp [termAt]

variable {index : ℕ}

theorem termAt_isSome_of_le (bound : index ≤ log.length) :
    ∃ term, termAt log index = some term := by
  cases index with
  | zero => exact ⟨0, rfl⟩
  | succ index =>
    have present : index < log.length := by omega
    exact ⟨termOf log[index], by simp [termAt, List.getElem?_eq_getElem present]⟩

theorem le_length_of_termAt {term : ℕ} (holds : termAt log index = some term) :
    index ≤ log.length := by
  cases index with
  | zero => omega
  | succ index =>
    simp only [termAt, Option.map_eq_some_iff] at holds
    rcases holds with ⟨entry, present, _⟩
    have := (List.getElem?_eq_some_iff.mp present).1
    omega

theorem termAt_take {bound : ℕ} (below : index ≤ bound) :
    termAt (log.take bound) index = termAt log index := by
  cases index with
  | zero => rfl
  | succ index => simp [termAt, List.getElem?_take_of_lt (show index < bound by omega)]

theorem termAt_of_isPrefix (isPrefix : short <+: long) (bound : index ≤ short.length) :
    termAt long index = termAt short index := by
  obtain ⟨rest, rfl⟩ := isPrefix
  cases index with
  | zero => rfl
  | succ index => simp [termAt, List.getElem?_append_left (show index < short.length by omega)]

omit [Termed E] in
theorem getElem?_of_isPrefix {index : ℕ} {entry : E}
    (isPrefix : short <+: long) (present : short[index]? = some entry) :
    long[index]? = some entry := by
  rcases isPrefix with ⟨rest, rfl⟩
  rw [List.getElem?_append_left (List.getElem?_eq_some_iff.mp present).1, present]

omit [Termed E] in
theorem take_eq_of_isPrefix {bound : ℕ} (isPrefix : short <+: long)
    (below : bound ≤ short.length) : long.take bound = short.take bound := by
  obtain ⟨rest, rfl⟩ := isPrefix
  exact List.take_append_of_le_length below

end Logs

variable {N : Type u} {E : Type v} [Termed E] [DecidableEq N]

namespace State

/-- A log is rooted when it is a prefix of the log of some leader. -/
def Rooted (state : State N E) (log : List E) : Prop :=
  log = [] ∨ ∃ term, state.leader term ≠ none ∧ log <+: state.leaderLog term

/-- Each entry of the log comes with the prefix its own leader had below it. -/
def Conforms (state : State N E) (log : List E) : Prop :=
  ∀ index entry, log[index]? = some entry →
    state.leader (termOf entry) ≠ none ∧
      log.take (index + 1) <+: state.leaderLog (termOf entry)

/-- A log still holds what the leader of `term` had up to `index`, unless some
leader of a term in between had already been elected without it. -/
def Kept (state : State N E) (term index : ℕ) (log : List E) (bound : ℕ) : Prop :=
  (state.leaderLog term).take index <+: log ∨
    ∃ later, term < later ∧ later < bound ∧ state.leader later ≠ none ∧
      ¬(state.leaderLog term).take index <+: state.leaderLog later

/-- What a counted vote says about the log of the voter when it voted: it was no
more up to date than the candidate's, and it kept everything acknowledged, but
for what the leaders below `bound` had already lost. -/
def Ballot (state : State N E) (voter : N) (term bound : ℕ) (candidateLog : List E) : Prop :=
  ∃ voterLog, state.Rooted voterLog ∧
    UpToDate (lastTerm candidateLog) candidateLog.length voterLog ∧
    ∀ ackTerm index, (ackTerm, voter, index) ∈ state.acks → ackTerm < term →
      ∀ below ≤ index, state.Kept ackTerm below voterLog bound

/-- The leader of `term` decided `index` when its log had reached `length`: a quorum of the
configuration it had then acknowledged that much. -/
def Decision (state : State N E) (rules : Rules N E) (term length index : ℕ) : Prop :=
  state.leader term ≠ none ∧ 0 < index ∧ index ≤ length ∧
    length ≤ (state.leaderLog term).length ∧
    termAt (state.leaderLog term) index = some term ∧
    ∃ ackers, rules.IsQuorum (rules.config ((state.leaderLog term).take length)) ackers ∧
      ∀ acker ∈ ackers, ∃ reach, index ≤ reach ∧ (term, acker, reach) ∈ state.acks

/-- A decision reaches over `done`; it was taken in a term before `term`, or in `term` before the
log of the leader grew past `length`. -/
def Covered (state : State N E) (rules : Rules N E) (term length : ℕ) (done : List E) : Prop :=
  ∃ commitTerm reached index, state.Decision rules commitTerm reached index ∧
    (commitTerm < term ∨ commitTerm = term ∧ reached ≤ length) ∧
    done <+: (state.leaderLog commitTerm).take index

/-- A prefix is certified in a term when a commit decision of that term or an
earlier one covers it. -/
def Certified (state : State N E) (term : ℕ) (committed : List E) : Prop :=
  committed = [] ∨ ∃ commitTerm index, (commitTerm, index) ∈ state.commits ∧
    commitTerm ≤ term ∧ committed <+: (state.leaderLog commitTerm).take index

/-- A vote request by `candidate`: while it is still campaigning in that term,
its log is the one the request describes. -/
def Requested (state : State N E) (candidate : N) (term lastLogTerm lastIndex : ℕ) : Prop :=
  term ≤ state.term candidate ∧
    (state.term candidate = term → state.role candidate = .candidate →
      (state.log candidate).length = lastIndex ∧ lastTerm (state.log candidate) = lastLogTerm)

/-- Enter a later term as a follower without a vote. -/
def bump (state : State N E) (node : N) (term : ℕ) : State N E :=
  { state with
    term := Function.update state.term node term
    vote := Function.update state.vote node none
    role := Function.update state.role node .follower }

/-- Give up any candidacy or leadership. -/
def retire (state : State N E) (node : N) : State N E :=
  { state with role := Function.update state.role node .follower }

/-- Enter the next term as a candidate, voting for oneself. -/
def campaign (state : State N E) (node : N) : State N E :=
  { state with
    term := Function.update state.term node (state.term node + 1)
    vote := Function.update state.vote node (some node)
    role := Function.update state.role node .candidate
    grants := insert (node, node, state.term node + 1) state.grants }

def grant (state : State N E) (voter candidate : N) : State N E :=
  { state with
    vote := Function.update state.vote voter (some candidate)
    grants := insert (voter, candidate, state.term voter) state.grants }

/-- Take the leadership of the current term and open it with one entry. -/
def elect (state : State N E) (node : N) (entry : E) : State N E :=
  { state with
    role := Function.update state.role node .leader
    log := Function.update state.log node (state.log node ++ [entry])
    leader := Function.update state.leader (state.term node) (some node)
    leaderLog := Function.update state.leaderLog (state.term node) (state.log node ++ [entry])
    electLog := Function.update state.electLog (state.term node) (state.log node) }

def append (state : State N E) (node : N) (entry : E) : State N E :=
  { state with
    log := Function.update state.log node (state.log node ++ [entry])
    leaderLog := Function.update state.leaderLog (state.term node) (state.log node ++ [entry]) }

open Classical in
/-- The log after taking over `source`: unchanged when it already extends it. -/
noncomputable def adoptLog (log source : List E) : List E :=
  if source <+: log then log else source

omit [Termed E] in
theorem adoptLog_eq_self {log source : List E} (held : source <+: log) :
    adoptLog log source = log :=
  if_pos held

omit [Termed E] in
theorem adoptLog_eq_source {log source : List E} (lacks : ¬source <+: log) :
    adoptLog log source = source :=
  if_neg lacks

omit [Termed E] in
theorem isPrefix_adoptLog (log source : List E) : source <+: adoptLog log source := by
  by_cases held : source <+: log
  · rw [adoptLog_eq_self held]
    exact held
  · rw [adoptLog_eq_source held]

omit [Termed E] in
theorem take_adoptLog {log source : List E} {bound : ℕ}
    (shared : log.take bound = source.take bound) :
    (adoptLog log source).take bound = log.take bound := by
  by_cases held : source <+: log
  · rw [adoptLog_eq_self held]
  · rw [adoptLog_eq_source held, shared]

/-- Take over the first `index` entries of the current leader and acknowledge them. -/
noncomputable def adopt (state : State N E) (node : N) (index : ℕ) : State N E :=
  { state with
    log := Function.update state.log node
      (adoptLog (state.log node) ((state.leaderLog (state.term node)).take index))
    acks := insert (state.term node, node, index) state.acks }

/-- Acknowledge an index that is already committed here. -/
def acknowledge (state : State N E) (node : N) (index : ℕ) : State N E :=
  { state with acks := insert (state.term node, node, index) state.acks }

/-- Decide, as a leader, that an index is committed. -/
def advance (state : State N E) (node : N) (index : ℕ) : State N E :=
  { state with
    commit := Function.update state.commit node index
    acks := insert (state.term node, node, index) state.acks
    commits := insert (state.term node, index) state.commits }

/-- Set the commit index of a node. -/
def learn (state : State N E) (node : N) (index : ℕ) : State N E :=
  { state with commit := Function.update state.commit node index }

end State

/-- One action of the protocol, taken by `node`. -/
inductive Step (rules : Rules N E) (node : N) : State N E → State N E → Prop where
  | bump {state : State N E} (term : ℕ) (later : state.term node < term) :
      Step rules node state (state.bump node term)
  | retire {state : State N E} : Step rules node state (state.retire node)
  | campaign {state : State N E} : Step rules node state (state.campaign node)
  | grant {state : State N E} (candidate : N) (lastLogTerm lastIndex : ℕ)
      (free : state.vote node = none ∨ state.vote node = some candidate)
      (requested : state.Requested candidate (state.term node) lastLogTerm lastIndex)
      (upToDate : UpToDate lastLogTerm lastIndex (state.log node)) :
      Step rules node state (state.grant node candidate)
  | elect {state : State N E} (entry : E) (voters : Set N)
      (candidacy : state.role node = .candidate)
      (entryTerm : termOf entry = state.term node)
      (fits : rules.Fits (state.log node) entry)
      (ordinary : ¬rules.Changes entry)
      (quorum : rules.IsQuorum (rules.config (state.log node)) voters)
      (granted : ∀ voter ∈ voters, (voter, node, state.term node) ∈ state.grants) :
      Step rules node state (state.elect node entry)
  | append {state : State N E} (entry : E) (leads : state.role node = .leader)
      (entryTerm : termOf entry = state.term node)
      (fits : rules.Fits (state.log node) entry)
      (settled : rules.Changes entry → rules.Settled (state.log node) (state.commit node)) :
      Step rules node state (state.append node entry)
  | adopt {state : State N E} (index : ℕ) (follows : state.role node = .follower)
      (led : state.leader (state.term node) ≠ none)
      (bound : index ≤ (state.leaderLog (state.term node)).length) :
      Step rules node state (state.adopt node index)
  | acknowledge {state : State N E} (index : ℕ)
      (led : state.leader (state.term node) ≠ none)
      (bound : index ≤ state.commit node) :
      Step rules node state (state.acknowledge node index)
  | advance {state : State N E} (index : ℕ) (ackers : Set N)
      (leads : state.role node = .leader)
      (positive : 0 < index)
      (ownTerm : termAt (state.log node) index = some (state.term node))
      (quorum : rules.IsQuorum (rules.config (state.log node)) ackers)
      (acked : ∀ acker ∈ ackers, acker = node ∨
        ∃ reach, index ≤ reach ∧ (state.term node, acker, reach) ∈ state.acks) :
      Step rules node state (state.advance node index)
  | learn {state : State N E} (index : ℕ)
      (bound : index ≤ (state.log node).length)
      (certified : state.Certified (state.term node) ((state.log node).take index)) :
      Step rules node state (state.learn node index)

def Steps (rules : Rules N E) (node : N) : State N E → State N E → Prop :=
  Relation.ReflTransGen (Step rules node)

end ChronoScope.Consensus
