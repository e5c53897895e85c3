import ChronoScope.Oracle.Health

/-!
# Stalls

The watchdog notes when it last saw a leader, when the highest commit index last moved and when each
node last got further, and calls it a stall when one of these is too long ago. For a stall to be
justified, the environment must have been healthy and the cluster must have looked the same for as
long, from one observation to another. The clocks start earlier, though: at zero, or at the
observation that was the last to look different.
-/

namespace ChronoScope.Oracle

open Chronolog (NodeId)

inductive Stall where
  | noLeader (healthyFor alive quorum : ℕ)
  | noCommitProgress (leader : NodeId) (stuckAt healthyFor : ℕ)
  | noConvergence (leader laggard : NodeId) (gap healthyFor : ℕ)
  deriving DecidableEq

def Stall.sameKind : Stall → Stall → Bool
  | .noLeader .., .noLeader .. => true
  | .noCommitProgress .., .noCommitProgress .. => true
  | .noConvergence .., .noConvergence .. => true
  | _, _ => false

structure Budget where
  electWithin : ℕ
  commitWithin : ℕ
  convergeWithin : ℕ

def Budget.default : Budget where
  electWithin := 30000000000
  commitWithin := 30000000000
  convergeWithin := 60000000000

structure Observation where
  now : ℕ
  view : ClusterView
  /-- No partitions are in force, and a quorum of nodes is running. -/
  healthy : Bool
  /-- A client is waiting on something. -/
  workPending : Bool
  voters : ℕ

namespace Observation

/-- The nodes that are running, and members as far as is known. -/
def live (o : Observation) : List (NodeId × PublicState) :=
  let members := o.view.members
  o.view.nodes.toList.filter fun node =>
    node.2.up && (members.isEmpty || decide (node.1 ∈ members))

def quorum (o : Observation) : ℕ :=
  let members := o.view.members
  (if members.isEmpty then o.voters else members.len) / 2 + 1

def leaders (o : Observation) : List (NodeId × ℕ) :=
  (o.live.filter fun node => decide (node.2.role = .leader)).map fun node => (node.1, node.2.term)

def best (o : Observation) : ℕ := (o.live.map fun node => node.2.commitIndex).foldl max 0

def Serves (o : Observation) (id : NodeId) (s : PublicState) : Prop :=
  o.view.nodes.get id = some s ∧ s.up = true ∧ id ∈ o.view.members

end Observation

structure Watchdog where
  budget : Budget
  /-- When the environment last became healthy. -/
  healthySince : Option ℕ
  bestCommit : ℕ
  commitMovedAt : ℕ
  sawLeaderAt : ℕ
  /-- The highest last index seen of each node, and when it was first seen. -/
  progress : BTreeMap NodeId (ℕ × ℕ)
  stalls : List Stall

namespace Watchdog

def new (budget : Budget) : Watchdog where
  budget := budget
  healthySince := none
  bestCommit := 0
  commitMovedAt := 0
  sawLeaderAt := 0
  progress := ∅
  stalls := []

/-- Of each kind, the first stall is kept. -/
def record (stalls : List Stall) (stall : Stall) : List Stall :=
  if stalls.any stall.sameKind then stalls else stalls ++ [stall]

def advance (now : ℕ) (progress : BTreeMap NodeId (ℕ × ℕ)) (node : NodeId × PublicState) :
    BTreeMap NodeId (ℕ × ℕ) :=
  let entry := (progress.get node.1).getD (node.2.lastIndex, now)
  progress.insert node.1 (if node.2.lastIndex > entry.1 then (node.2.lastIndex, now) else entry)

/-- A follower that is behind and frozen. -/
def laggard (within now : ℕ) (progress : BTreeMap NodeId (ℕ × ℕ)) (leader : NodeId)
    (leaderLast healthyFor : ℕ) (node : NodeId × PublicState) : Option Stall :=
  let gap := leaderLast - node.2.lastIndex
  let frozenSince := ((progress.get node.1).map Prod.snd).getD now
  if node.1 ≠ leader ∧ gap ≠ 0 ∧ now - frozenSince > within then
    some (.noConvergence leader node.1 gap healthyFor)
  else none

/-- The stalls found at a healthy observation, in this order. -/
def found (w : Watchdog) (o : Observation) (healthyFor : ℕ)
    (progress : BTreeMap NodeId (ℕ × ℕ)) : List Stall :=
  match o.leaders with
  | [] =>
    if o.now - w.sawLeaderAt > w.budget.electWithin then
      [.noLeader healthyFor o.live.length o.quorum]
    else []
  | (leader, _) :: _ =>
    let leaderLast := match o.live.find? fun node => node.1 == leader with
      | some node => node.2.lastIndex
      | none => 0
    (if o.best = w.bestCommit ∧ o.workPending = true ∧
        o.now - w.commitMovedAt > w.budget.commitWithin then
      [.noCommitProgress leader o.best healthyFor]
    else []) ++
      o.live.filterMap
        (laggard w.budget.convergeWithin o.now progress leader leaderLast healthyFor)

def observe (w : Watchdog) (o : Observation) : Watchdog :=
  if o.healthy then
    let since := w.healthySince.getD o.now
    let healthyFor := o.now - since
    let progress := o.live.foldl (advance o.now) w.progress
    { budget := w.budget
      healthySince := some since
      bestCommit := o.best
      commitMovedAt := if o.best = w.bestCommit then w.commitMovedAt else o.now
      sawLeaderAt := if o.leaders.isEmpty then w.sawLeaderAt else o.now
      progress := progress
      stalls := (w.found o healthyFor progress).foldl record w.stalls }
  else
    -- the clocks only run while the environment is cooperating
    { w with
      healthySince := none
      commitMovedAt := o.now
      sawLeaderAt := o.now
      progress := w.progress.mapValues fun _ noted => (noted.1, o.now) }

/-- The last observations, all of them healthy, have been made in more than this since then. -/
def Lasts (past : List Observation) (since within : ℕ) (span : List Observation) : Prop :=
  span <:+ past ∧ (∀ o ∈ span, o.healthy = true) ∧
    ∃ last, past.getLast? = some last ∧ since + within < last.now

/-- No leader was seen, and the highest commit index was the same, from one observation to another
that came too late. A node was up, a member, and got no further after such an observation. -/
def Justified (budget : Budget) (past : List Observation) : Stall → Prop
  | .noLeader .. => ∃ first span, Lasts past first.now budget.electWithin (first :: span) ∧
      ∀ o ∈ first :: span, o.leaders = []
  | .noCommitProgress _ stuckAt _ =>
    ∃ first span, Lasts past first.now budget.commitWithin (first :: span) ∧
      ∀ o ∈ first :: span, o.best = stuckAt
  | .noConvergence _ laggard .. =>
    ∃ start span, start :: span <:+ past ∧ Lasts past start.now budget.convergeWithin span ∧
      (∀ o ∈ span, ∃ s, o.Serves laggard s) ∧
      span.Pairwise fun early late => ∀ s s', early.Serves laggard s → late.Serves laggard s' →
        s'.lastIndex ≤ s.lastIndex

/-- A watchdog and what it has observed, on a condition. -/
inductive Watched (budget : Budget) (only : Watchdog → List Observation → Observation → Prop) :
    Watchdog → List Observation → Prop where
  | new : Watched budget only (new budget) []
  | observe {w : Watchdog} {past : List Observation} {o : Observation}
      (watched : Watched budget only w past) (meets : only w past o) :
      Watched budget only (w.observe o) (past ++ [o])

/-- If what came before the last observations that were healthy and alike, or else the start, is
longer ago than this, then so is the first of them. -/
def Prompt (within : ℕ) (breaks shows : Observation → Prop) (past : List Observation)
    (o : Observation) : Prop :=
  ∀ before first span, past ++ [o] = before ++ first :: span →
    (∀ x ∈ first :: span, x.healthy = true ∧ shows x) →
    (∀ last, before.getLast? = some last → breaks last) →
    (before.getLast?.map Observation.now).getD 0 + within < o.now → first.now + within < o.now

/-- A healthy observation without a leader is prompt, and so is one with a leader and work pending.
Of the nodes in question it shows those seen before as members that are up and have lost nothing. -/
def Fair (among : NodeId → Prop) (w : Watchdog) (past : List Observation) (o : Observation) :
    Prop :=
  o.healthy = true →
    (o.leaders = [] → Prompt w.budget.electWithin (fun x => x.healthy = true → x.leaders ≠ [])
      (fun x => x.leaders = []) past o) ∧
    (o.leaders ≠ [] → o.workPending = true → Prompt w.budget.commitWithin
      (fun x => x.healthy = false) (fun x => x.best = o.best) past o) ∧
    ∀ id mark stamp, among id → w.progress.get id = some (mark, stamp) →
      ∃ s, o.Serves id s ∧ mark ≤ s.lastIndex

/-- Only the lack of convergence is about a node. -/
def About (among : NodeId → Prop) : Stall → Prop
  | .noConvergence _ laggard .. => among laggard
  | _ => True

/-- The time of an observation after which all were healthy and showed the same. -/
def Since (past : List Observation) (stamp : ℕ) (shows : Observation → Prop) : Prop :=
  ∃ before start span, past = before ++ start :: span ∧ start.now = stamp ∧
    ∀ o ∈ span, o.healthy = true ∧ shows o

/-- The time of the first of the last observations that were healthy and showed the same, or of the
one before them. -/
def Clock (past : List Observation) (stamp : ℕ) (breaks shows : Observation → Prop) : Prop :=
  ∃ before span, past = before ++ span ∧ (∀ o ∈ span, o.healthy = true ∧ shows o) ∧
    (span.head?.map Observation.now = some stamp ∨
      (∀ last, before.getLast? = some last → breaks last) ∧
        (before.getLast?.map Observation.now).getD 0 = stamp)

variable {budget : Budget} {among : NodeId → Prop} {w : Watchdog} {past : List Observation}
  {o : Observation} {stamp within : ℕ} {breaks shows : Observation → Prop} {stall : Stall}

theorem Since.anew (past : List Observation) (o : Observation) (shows : Observation → Prop) :
    Since (past ++ [o]) o.now shows :=
  ⟨past, o, [], rfl, rfl, by simp⟩

theorem Since.extend (since : Since past stamp shows) (healthy : o.healthy = true)
    (shown : shows o) : Since (past ++ [o]) stamp shows := by
  rcases since with ⟨before, start, span, rfl, atStart, same⟩
  refine ⟨before, start, span ++ [o], by simp, atStart, ?_⟩
  simpa [or_imp, forall_and, healthy, shown] using same

theorem Since.lasts (since : Since (past ++ [o]) stamp shows) (long : o.now - stamp > within) :
    ∃ start span, start :: span <:+ past ++ [o] ∧ Lasts (past ++ [o]) start.now within span ∧
      ∀ o ∈ span, shows o := by
  rcases since with ⟨before, start, span, shape, rfl, same⟩
  have isSuffix : start :: span <:+ past ++ [o] := ⟨before, shape.symm⟩
  exact ⟨start, span, isSuffix, ⟨(List.suffix_cons ..).trans isSuffix,
    fun o member => (same o member).1, o, by simp, by omega⟩, fun o member => (same o member).2⟩

theorem Clock.broken (past : List Observation) (shows : Observation → Prop) (broken : breaks o) :
    Clock (past ++ [o]) o.now breaks shows :=
  ⟨past ++ [o], [], by simp, by simp, Or.inr ⟨by simpa using broken, by simp⟩⟩

theorem Clock.extend (clock : Clock past stamp breaks shows) (healthy : o.healthy = true)
    (shown : shows o) : Clock (past ++ [o]) stamp breaks shows := by
  rcases clock with ⟨before, span, rfl, same, starts⟩
  refine ⟨before, span ++ [o], by simp, ?_, starts.imp_left fun first => ?_⟩
  · simpa [or_imp, forall_and, healthy, shown] using same
  · cases span with
    | nil => cases first
    | cons => exact first

theorem Clock.lasts (clock : Clock (past ++ [o]) stamp breaks shows)
    (prompt : Prompt within breaks shows past o) (long : o.now - stamp > within) :
    ∃ first span, Lasts (past ++ [o]) first.now within (first :: span) ∧
      ∀ o ∈ first :: span, shows o := by
  rcases clock with ⟨before, span, shape, same, starts⟩
  cases span with
  | nil =>
    rcases starts with impossible | ⟨_, rfl⟩
    · cases impossible
    · rw [List.append_nil] at shape
      simp [← shape] at long
  | cons first span =>
    refine ⟨first, span, ⟨⟨before, shape.symm⟩, fun o member => (same o member).1, o, by simp, ?_⟩,
      fun o member => (same o member).2⟩
    rcases starts with isFirst | ⟨broken, rfl⟩
    · cases isFirst
      omega
    · exact prompt before first span shape same broken (by omega)

theorem mem_record {stalls found : List Stall} (member : stall ∈ found.foldl record stalls) :
    stall ∈ stalls ∨ stall ∈ found := by
  induction found generalizing stalls with
  | nil => exact Or.inl member
  | cons noted found ih =>
    rcases ih member with earlier | later
    · unfold record at earlier
      split_ifs at earlier
      · exact Or.inl earlier
      · simpa [or_assoc] using Or.inl (List.mem_append.mp earlier)
    · exact Or.inr (List.mem_cons_of_mem noted later)

theorem get_advance {nodes : List (NodeId × PublicState)} {progress : BTreeMap NodeId (ℕ × ℕ)}
    {now mark : ℕ} {id : NodeId}
    (noted : (nodes.foldl (advance now) progress).get id = some (mark, stamp)) :
    stamp = now ∨ progress.get id = some (mark, stamp) ∧
      ∀ s, (id, s) ∈ nodes → s.lastIndex ≤ mark := by
  induction nodes generalizing progress with
  | nil => exact Or.inr ⟨noted, by simp⟩
  | cons node nodes ih =>
    rcases ih noted with isNow | ⟨before, rest⟩
    · exact Or.inl isNow
    · rcases node with ⟨other, state⟩
      rw [advance, BTreeMap.get_insert] at before
      by_cases same : id = other
      · subst same
        rw [if_pos rfl, Option.some.injEq] at before
        cases noted : progress.get id with
        | none => simp_all [eq_comm]
        | some entry =>
          simp only [noted, Option.getD_some] at before
          split_ifs at before with further
          · exact Or.inl (congrArg Prod.snd before).symm
          · subst before
            refine Or.inr ⟨rfl, ?_⟩
            rintro s (_ | ⟨_, later⟩)
            · exact not_lt.mp further
            · exact rest s later
      · rw [if_neg same] at before
        refine Or.inr ⟨before, ?_⟩
        rintro s (_ | ⟨_, later⟩)
        · exact absurd rfl same
        · exact rest s later

theorem mem_stalls_observe (healthy : o.healthy = true) (member : stall ∈ (w.observe o).stalls) :
    stall ∈ w.stalls ∨
      (∃ healthyFor alive quorum, stall = .noLeader healthyFor alive quorum ∧ o.leaders = [] ∧
        o.now - w.sawLeaderAt > w.budget.electWithin) ∨
      (∃ leader healthyFor, stall = .noCommitProgress leader o.best healthyFor ∧
        o.leaders ≠ [] ∧ o.best = w.bestCommit ∧ o.workPending = true ∧
        o.now - w.commitMovedAt > w.budget.commitWithin) ∨
      ∃ leader laggard gap healthyFor mark stamp,
        stall = .noConvergence leader laggard gap healthyFor ∧
          (w.observe o).progress.get laggard = some (mark, stamp) ∧
          o.now - stamp > w.budget.convergeWithin := by
  simp only [observe, healthy, if_true] at member ⊢
  refine (mem_record member).imp_right fun isFound => ?_
  unfold found at isFound
  split at isFound
  · next leaderless =>
      split_ifs at isFound with long
      · exact Or.inl ⟨_, _, _, List.mem_singleton.mp isFound, leaderless, long⟩
      · cases isFound
  · next led =>
    refine Or.inr ((List.mem_append.mp isFound).imp ?_ ?_)
    · intro isStuck
      split_ifs at isStuck with stuck
      · exact ⟨_, _, List.mem_singleton.mp isStuck, by simp [led], stuck⟩
      · cases isStuck
    · intro lags
      rcases List.mem_filterMap.mp lags with ⟨node, _, isLaggard⟩
      unfold laggard at isLaggard
      dsimp only at isLaggard
      split_ifs at isLaggard with frozen
      cases noted : (o.live.foldl (advance o.now) w.progress).get node.1 with
      | none => simp [noted] at frozen
      | some entry =>
        rw [noted] at frozen
        exact ⟨_, _, _, _, entry.1, entry.2, (Option.some.inj isLaggard).symm, noted, frozen.2.2⟩

/-- Every clock tells the time since which nothing changed. -/
structure Sound (budget : Budget) (among : NodeId → Prop) (w : Watchdog)
    (past : List Observation) : Prop where
  budget_eq : w.budget = budget
  leader : Clock past w.sawLeaderAt (fun o => o.healthy = true → o.leaders ≠ [])
    fun o => o.leaders = []
  commit : Clock past w.commitMovedAt (fun o => o.healthy = false) fun o => o.best = w.bestCommit
  progress : ∀ {id mark stamp}, among id → w.progress.get id = some (mark, stamp) →
    Since past stamp fun o => ∃ s, o.Serves id s ∧ s.lastIndex = mark
  stalls : ∀ stall ∈ w.stalls, About among stall → ∃ seen, seen <+: past ∧
    Justified budget seen stall

theorem Sound.frozen (sound : Sound budget among w past) (fair : Fair among w past o)
    (healthy : o.healthy = true) {id : NodeId} {mark stamp : ℕ} (isAmong : among id)
    (noted : (w.observe o).progress.get id = some (mark, stamp)) :
    Since (past ++ [o]) stamp fun o => ∃ s, o.Serves id s ∧ s.lastIndex = mark := by
  simp only [Watchdog.observe, healthy, if_true] at noted
  rcases get_advance noted with rfl | ⟨before, bounded⟩
  · exact .anew ..
  · rcases (fair healthy).2.2 id mark stamp isAmong before with ⟨s, serves, reached⟩
    refine (sound.progress isAmong before).extend healthy ⟨s, serves, ?_⟩
    refine le_antisymm (bounded s ?_) reached
    rcases serves with ⟨found, isUp, isMember⟩
    simp [Observation.live, isUp, isMember, BTreeMap.mem_toList.mpr found]

theorem Sound.observe (sound : Sound budget among w past) (fair : Fair among w past o) :
    Sound budget among (w.observe o) (past ++ [o]) := by
  have earlier : ∀ stall ∈ w.stalls, About among stall → ∃ seen, seen <+: past ++ [o] ∧
      Justified budget seen stall := by
    intro stall member about
    rcases sound.stalls stall member about with ⟨seen, isPrefix, justified⟩
    exact ⟨seen, isPrefix.trans (List.prefix_append ..), justified⟩
  cases healthy : o.healthy with
  | false =>
    refine ⟨?_, ?_, ?_, ?_, ?_⟩ <;> simp only [Watchdog.observe, healthy]
    · exact sound.budget_eq
    · exact .broken _ _ (by simp [healthy])
    · exact .broken _ _ healthy
    · intro id mark stamp _ noted
      simp only [Bool.false_eq_true, if_false, BTreeMap.get_mapValues, Option.map_eq_some_iff,
        Prod.mk.injEq] at noted
      rcases noted with ⟨_, _, _, rfl⟩
      exact .anew ..
    · exact earlier
  | true =>
    rcases fair healthy with ⟨promptly, promptly', _⟩
    have leaderless := sound.leader.extend (o := o) healthy
    have stuck := sound.commit.extend (o := o) healthy
    refine ⟨?_, ?_, ?_, sound.frozen fair healthy, ?_⟩
    · simpa [Watchdog.observe, healthy] using sound.budget_eq
    · simp only [Watchdog.observe, healthy, if_true]
      split_ifs with missing
      · exact leaderless (List.isEmpty_iff.mp missing)
      · exact .broken _ _ fun _ => mt List.isEmpty_iff.mpr missing
    · simp only [Watchdog.observe, healthy, if_true]
      split_ifs with same
      · rw [same]
        exact stuck same
      · exact ⟨past, [o], rfl, by simp [healthy], Or.inl rfl⟩
    · intro stall member about
      rcases mem_stalls_observe healthy member with old | new
      · exact earlier stall old about
      · refine ⟨_, List.prefix_rfl, ?_⟩
        rw [← sound.budget_eq]
        rcases new with ⟨_, _, _, rfl, missing, long⟩ | ⟨_, _, rfl, led, same, pending, long⟩ |
          ⟨_, laggard, _, _, mark, stamp, rfl, noted, long⟩
        · exact (leaderless missing).lasts (promptly missing) long
        · rw [Justified]
          rw [same] at promptly' ⊢
          exact (stuck same).lasts (promptly' led pending) long
        · rcases (sound.frozen fair healthy about noted).lasts long with
            ⟨start, span, isSuffix, lasts, serve⟩
          refine ⟨start, span, isSuffix, lasts, ?_, ?_⟩
          · intro o member
            rcases serve o member with ⟨s, serves, _⟩
            exact ⟨s, serves⟩
          · refine List.pairwise_of_forall_mem_list
              fun early isEarly late isLate s s' serves serves' => ?_
            rcases serve early isEarly with ⟨_, found, rfl⟩
            rcases serve late isLate with ⟨_, found', same⟩
            cases found.1.symm.trans serves.1
            cases found'.1.symm.trans serves'.1
            exact same.le

def nothing (now : ℕ) : Observation := ⟨now, ⟨∅⟩, true, true, 3⟩

end Watchdog

end ChronoScope.Oracle
