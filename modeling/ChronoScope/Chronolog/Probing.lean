import ChronoScope.Chronolog.Handlers

/-!
# Probing for the point where two logs part

A leader that does not know what a follower holds sends an append at `next` and
lowers `next` when it is rejected, using the hint in the reply. A follower whose
log is too short names its end. One that holds another term at the probed index
looks for its own last entry of *that* term at or below the index, which is the
entry it started from: its hint is always the probed index and the term there.

So the leader only moves if that term is below its own at the probed index and
if the index lies above its snapshot point, where its search begins. In every
other case `next` stays where it was and the same append is sent and rejected
again.
-/

namespace ChronoScope.Chronolog

open Consensus (termAt)

namespace Log

variable {log : Log} {term index : ℕ}

theorem conflictLoop_le (log : Log) (term index : ℕ) : log.conflictLoop term index ≤ index := by
  induction index with
  | zero => simp [conflictLoop]
  | succ index ih =>
    unfold conflictLoop
    split_ifs
    · split
      · split_ifs
        · exact le_rfl
        · exact Nat.le_succ_of_le ih
      · exact le_rfl
    · exact le_rfl

theorem conflictLoop_eq_self (low : ∀ found, log.snapshotIndex < index →
    log.termAt index = some found → found ≤ term) : log.conflictLoop term index = index := by
  cases index with
  | zero => rfl
  | succ index =>
    unfold conflictLoop
    split_ifs with above
    · cases known : log.termAt (index + 1) with
      | none => rfl
      | some found => simp [low found above known]
    · rfl

theorem conflictLoop_lt {found : ℕ} (above : log.snapshotIndex < index)
    (known : log.termAt index = some found) (high : term < found) :
    log.conflictLoop term index < index := by
  cases index with
  | zero => omega
  | succ index =>
    have below := log.conflictLoop_le term index
    rw [conflictLoop, if_pos above, known]
    simp only [if_neg (Nat.not_le.mpr high)]
    omega

theorem le_conflictLoop {low : ℕ} (below : low ≤ index) (known : log.snapshotIndex < low →
    ∃ found, log.termAt low = some found ∧ found ≤ term) : low ≤ log.conflictLoop term index := by
  induction index with
  | zero => exact below
  | succ index ih =>
    rcases Nat.lt_or_ge index low with start | lower
    · rw [conflictLoop_eq_self]
      · exact below
      · intro found above foundThere
        have same : low = index + 1 := by omega
        rw [← same] at above foundThere
        rcases known above with ⟨other, otherThere, small⟩
        rw [foundThere, Option.some.injEq] at otherThere
        omega
    · unfold conflictLoop
      split_ifs with above
      · split
        · split_ifs
          · exact below
          · exact ih lower
        · exact below
      · exact below

end Log

/-- The two logs hold an entry of the same term at an index. -/
def Agree (ours theirs : List Entry) (index : ℕ) : Prop :=
  ∃ term, termAt ours index = some term ∧ termAt theirs index = some term

/-- Entries of one index and term have the same log before them. -/
def LogMatching (ours theirs : List Entry) : Prop :=
  ∀ index, Agree ours theirs index → ours.take index = theirs.take index

theorem LogMatching.agree {ours theirs : List Entry} (matching : LogMatching ours theirs)
    {index lower : ℕ} (agree : Agree ours theirs index) (below : lower ≤ index) :
    Agree ours theirs lower := by
  have within : index ≤ ours.length := by
    rcases agree with ⟨term, known, _⟩
    exact Consensus.le_length_of_termAt known
  rcases Consensus.termAt_isSome_of_le (below.trans within) with ⟨term, known⟩
  refine ⟨term, known, ?_⟩
  calc termAt theirs lower
      _ = termAt (theirs.take index) lower := (Consensus.termAt_take below).symm
      _ = termAt (ours.take index) lower := by rw [matching index agree]
      _ = some term := by rw [Consensus.termAt_take below, known]

theorem termAt_le_termAt {log : List Entry}
    (sorted : log.Pairwise fun left right => left.term ≤ right.term) {low high lower upper : ℕ}
    (below : low ≤ high) (atLow : termAt log low = some lower)
    (atHigh : termAt log high = some upper) : lower ≤ upper := by
  rcases below.eq_or_lt with same | before
  · rw [same, atHigh, Option.some.injEq] at atLow
    exact atLow.ge
  · cases low with
    | zero =>
      cases atLow
      exact Nat.zero_le upper
    | succ low =>
      cases high with
      | zero => omega
      | succ high =>
        simp only [termAt, Option.map_eq_some_iff] at atLow atHigh
        rcases atLow with ⟨early, earlyThere, rfl⟩
        rcases atHigh with ⟨late, lateThere, rfl⟩
        rcases List.getElem?_eq_some_iff.mp earlyThere with ⟨lowBound, rfl⟩
        rcases List.getElem?_eq_some_iff.mp lateThere with ⟨highBound, rfl⟩
        exact List.pairwise_iff_getElem.mp sorted low high lowBound highBound (by omega)

namespace Raft

/-- A handler has queued this one message and no other. -/
def Queues (before after : Raft) (peer : NodeId) (body : Body) : Prop :=
  after.pending.messages =
    before.pending.messages ++ [(peer, { term := before.term, body := body })]

/-- The leader can move: nothing shared would be skipped, and where the follower holds the
probed index, its term there is below the leader's and the leader's search does not start at
its snapshot point. -/
def Recedes (ours theirs : Log) (p : Progress) : Prop :=
  p.matched + 1 < p.next ∧ ∀ term ∈ theirs.termAt (p.next - 1), term = 0 ∨
    (ours.snapshotIndex < p.next - 1 ∧ ∀ own ∈ ours.termAt (p.next - 1), term < own)

variable {r : Raft} {p : Progress} {peer sender : NodeId}
  {prevIndex prevTerm commit matchIndex conflictIndex conflictTerm : ℕ} {entries : List Entry}

theorem queues_send {before : Raft} {body other : Body}
    (sameQueue : r.pending.messages = before.pending.messages)
    (queues : Queues before (r.send peer body) peer other) : body = other := by
  simp only [Queues, Raft.send, Raft.post, sameQueue, List.append_cancel_left_eq, List.cons.injEq,
    Prod.mk.injEq, Message.mk.injEq, true_and, and_true] at queues
  exact queues.2

theorem sendAppendTo_of_queues (tracked : r.progress.get peer = some p)
    (asked : Queues r (r.sendAppendTo peer) peer (.appendReq prevIndex prevTerm entries commit)) :
    r.log.snapshotIndex < p.next ∧ prevIndex = p.next - 1 ∧
      r.log.termAt (p.next - 1) = some prevTerm ∧
      r.sendAppendTo peer = r.send peer (.appendReq prevIndex prevTerm entries commit) := by
  by_cases shipping : p.state = .snapshot ∧ p.pendingSnapshot > 0
  · simp [Queues, sendAppendTo, tracked, shipping] at asked
  · cases known : r.log.termAt (p.next - 1) with
    | none => simp [Queues, sendAppendTo, tracked, shipping, known, needSnapshot] at asked
    | some term =>
      by_cases behind : p.next < r.log.firstIndex
      · simp [Queues, sendAppendTo, tracked, shipping, known, behind, needSnapshot] at asked
      · simp only [sendAppendTo, tracked, if_neg shipping, known, if_neg behind] at asked ⊢
        have sent := queues_send rfl asked
        rw [Log.firstIndex] at behind
        refine ⟨by omega, ?_, ?_, by rw [sent]⟩
        · cases sent
          rfl
        · cases sent
          rfl

theorem followLeader_log (r : Raft) (sender : NodeId) :
    (r.followLeader sender).log = r.log := by
  rcases followLeader_cases r sender with ⟨_, same⟩ | stoodDown
  · rw [same]
  · simp [stoodDown, becomeFollower]

theorem followLeader_messages (r : Raft) (sender : NodeId) :
    (r.followLeader sender).pending.messages = r.pending.messages := by
  rcases followLeader_cases r sender with ⟨_, same⟩ | stoodDown
  · rw [same]
  · simp [stoodDown, becomeFollower]

theorem clampCommit_messages (r : Raft) :
    r.clampCommit.pending.messages = r.pending.messages := by
  unfold clampCommit
  split_ifs <;> rfl

theorem raiseCommit_messages (r : Raft) (commit : ℕ) :
    (r.raiseCommit commit).pending.messages = r.pending.messages := by
  unfold raiseCommit
  split_ifs <;> rfl

theorem mergeEntries_messages (r : Raft) (prevIndex : ℕ) (entries : List Entry) :
    (r.mergeEntries prevIndex entries).pending.messages = r.pending.messages := by
  unfold mergeEntries
  split <;> rfl

theorem handleAppend_of_queues (refused : Queues r
      (r.handleAppend sender prevIndex prevTerm entries commit) sender
      (.appendResp false matchIndex conflictIndex conflictTerm)) :
    r.log.snapshotIndex ≤ prevIndex ∧
      ((r.log.termAt prevIndex = none ∧ conflictIndex = r.log.lastIndex + 1 ∧ conflictTerm = 0) ∨
        (r.log.termAt prevIndex = some conflictTerm ∧ conflictTerm ≠ prevTerm ∧
          conflictIndex = r.log.findConflictByTerm prevIndex conflictTerm)) := by
  have sameQueue := followLeader_messages r sender
  simp only [handleAppend, followLeader_log] at refused
  split_ifs at refused with covered
  · cases queues_send sameQueue refused
  · refine ⟨Nat.not_lt.mp covered, ?_⟩
    cases known : r.log.termAt prevIndex with
    | none =>
      simp only [known] at refused
      cases queues_send sameQueue refused
      exact Or.inl ⟨rfl, rfl, rfl⟩
    | some term =>
      simp only [known] at refused
      split_ifs at refused with same
      · have untouched : ((((r.followLeader sender).mergeEntries prevIndex entries).raiseCommit
            (min commit ((r.followLeader sender).log.merge prevIndex
              entries).2)).clampCommit).pending.messages = r.pending.messages := by
          rw [clampCommit_messages, raiseCommit_messages, mergeEntries_messages, sameQueue]
        cases queues_send untouched refused
      · cases queues_send sameQueue refused
        exact Or.inr ⟨rfl, same, rfl⟩

theorem sendAppendTo_progress (tracked : r.progress.get peer = some p)
    (probing : p.state = .probe) : ∃ q, (r.sendAppendTo peer).progress.get peer = some q ∧
      q.next = p.next ∧ (q.state = .snapshot →
        p.next < r.log.firstIndex ∨ r.log.termAt (p.next - 1) = none) := by
  have idle : ¬ (p.state = .snapshot ∧ p.pendingSnapshot > 0) := by simp [probing]
  have flagged : ∃ q, (r.needSnapshot peer).progress.get peer = some q ∧ q.next = p.next := by
    exact ⟨{ p with state := .snapshot }, by simp [needSnapshot, BTreeMap.get_modify, tracked], rfl⟩
  rcases flagged with ⟨q, found, sameNext⟩
  cases known : r.log.termAt (p.next - 1) with
  | none =>
    refine ⟨q, ?_, sameNext, fun _ => Or.inr rfl⟩
    simp only [sendAppendTo, tracked, if_neg idle, known, found]
  | some term =>
    by_cases behind : p.next < r.log.firstIndex
    · refine ⟨q, ?_, sameNext, fun _ => Or.inl behind⟩
      simp only [sendAppendTo, tracked, if_neg idle, known, if_pos behind, found]
    · refine ⟨p, ?_, rfl, fun flagged => ?_⟩
      · simp only [sendAppendTo, tracked, if_neg idle, known, if_neg behind]
        exact tracked
      · rw [probing] at flagged
        cases flagged

/-- Where a leader resumes after a rejection, before it is kept within bounds. -/
def resume (log : Log) (conflictIndex conflictTerm : ℕ) : ℕ :=
  if conflictTerm > 0 then log.findConflictByTerm conflictIndex conflictTerm + 1
  else max conflictIndex 1

end Raft

/-- A probe of a leader's log that a follower's log rejects, and the hint it gives. -/
structure Rejection (leader follower : Log) (prevIndex prevTerm conflictIndex conflictTerm : ℕ) :
    Prop where
  held : leader.snapshotIndex ≤ prevIndex
  known : leader.termAt prevIndex = some prevTerm
  above : follower.snapshotIndex ≤ prevIndex
  answer : (follower.termAt prevIndex = none ∧ conflictIndex = follower.lastIndex + 1 ∧
      conflictTerm = 0) ∨
    (follower.termAt prevIndex = some conflictTerm ∧ conflictTerm ≠ prevTerm ∧
      conflictIndex = follower.findConflictByTerm prevIndex conflictTerm)

namespace Rejection

variable {leader follower : Log} {ours theirs : List Entry}
  {prevIndex prevTerm conflictIndex conflictTerm : ℕ}

theorem prev_le
    (rejection : Rejection leader follower prevIndex prevTerm conflictIndex conflictTerm)
    (leaderLog : leader.Represents ours) : prevIndex ≤ leader.lastIndex := by
  rw [leaderLog.lastIndex]
  exact Consensus.le_length_of_termAt (leaderLog.termAt_of_eq_some rejection.known)

theorem hint_eq (followerLog : follower.Represents theirs)
    (other : follower.termAt prevIndex = some conflictTerm) :
    follower.findConflictByTerm prevIndex conflictTerm = prevIndex := by
  have within : prevIndex ≤ follower.lastIndex := by
    rw [followerLog.lastIndex]
    exact Consensus.le_length_of_termAt (followerLog.termAt_of_eq_some other)
  rw [Log.findConflictByTerm, min_eq_left within]
  apply Log.conflictLoop_eq_self
  intro found _ foundThere
  rw [other, Option.some.injEq] at foundThere
  exact foundThere.ge

section

variable (rejection : Rejection leader follower prevIndex prevTerm conflictIndex conflictTerm)
  (leaderLog : leader.Represents ours) (followerLog : follower.Represents theirs)

include rejection leaderLog followerLog

theorem lt_resume (matching : LogMatching ours theirs)
    (sorted : theirs.Pairwise fun left right => left.term ≤ right.term) {index : ℕ}
    (agree : Agree ours theirs index) : index < Raft.resume leader conflictIndex conflictTerm := by
  rcases rejection.answer with ⟨_, rfl, rfl⟩ | ⟨other, differs, rfl⟩
  · rcases agree with ⟨term, _, theirsHolds⟩
    have within := Consensus.le_length_of_termAt theirsHolds
    rw [Raft.resume, if_neg (by omega), followerLog.lastIndex]
    omega
  · have otherThere := followerLog.termAt_of_eq_some other
    have ownThere := leaderLog.termAt_of_eq_some rejection.known
    have before : index < prevIndex := by
      by_contra reaches
      rcases matching.agree agree (Nat.not_lt.mp reaches) with ⟨term, ourTerm, theirTerm⟩
      rw [ownThere, Option.some.injEq] at ourTerm
      rw [otherThere, Option.some.injEq] at theirTerm
      exact differs (theirTerm.trans ourTerm.symm)
    rw [hint_eq followerLog other, Raft.resume]
    split_ifs with positive
    · rw [Log.findConflictByTerm, min_eq_left (rejection.prev_le leaderLog), Nat.lt_succ_iff]
      apply Log.le_conflictLoop before.le
      intro retained
      rcases agree with ⟨term, ourTerm, theirTerm⟩
      refine ⟨term, ?_, termAt_le_termAt sorted before.le theirTerm otherThere⟩
      rw [leaderLog.termAt retained.le, ourTerm]
    · omega

theorem resume_le_iff :
    Raft.resume leader conflictIndex conflictTerm ≤ prevIndex ↔
      ∀ term ∈ follower.termAt prevIndex, term = 0 ∨
        (leader.snapshotIndex < prevIndex ∧ term < prevTerm) := by
  have within := rejection.prev_le leaderLog
  rcases rejection.answer with ⟨missing, rfl, rfl⟩ | ⟨other, differs, rfl⟩
  · have short : follower.lastIndex < prevIndex := by
      by_contra reaches
      rw [Nat.not_lt, followerLog.lastIndex] at reaches
      rcases Consensus.termAt_isSome_of_le reaches with ⟨term, held⟩
      rw [followerLog.termAt rejection.above, held] at missing
      cases missing
    rw [Raft.resume, if_neg (by omega), missing]
    simp
    omega
  · rw [hint_eq followerLog other, Raft.resume, Log.findConflictByTerm, min_eq_left within, other]
    simp only [Option.mem_def, Option.some.injEq, forall_eq']
    split_ifs with positive
    · by_cases moves : leader.snapshotIndex < prevIndex ∧ conflictTerm < prevTerm
      · have lower := Log.conflictLoop_lt moves.1 rejection.known moves.2
        exact iff_of_true lower (Or.inr moves)
      · rw [Log.conflictLoop_eq_self]
        · refine iff_of_false (by omega) ?_
          rintro (zero | both)
          · omega
          · exact moves both
        · intro found above foundThere
          rw [rejection.known, Option.some.injEq] at foundThere
          by_contra high
          exact moves ⟨above, by omega⟩
    · have inside : 0 < prevIndex := by
        by_contra atZero
        have zero : prevIndex = 0 := by omega
        have knownThere := rejection.known
        rw [zero] at knownThere other
        simp only [Log.termAt, if_true, Option.some.injEq] at knownThere other
        exact differs (other.symm.trans knownThere)
      exact iff_of_true (by omega) (Or.inl (by omega))

end

end Rejection

namespace Raft

/-- The leader probes the follower, is rejected and has handled the reply. -/
def Probed (follower leader after : Raft) : Prop :=
  ∃ prevIndex prevTerm entries commit matchIndex conflictIndex conflictTerm,
    Queues leader (leader.sendAppendTo follower.id) follower.id
      (.appendReq prevIndex prevTerm entries commit) ∧
    Queues follower (follower.handleAppend leader.id prevIndex prevTerm entries commit) leader.id
      (.appendResp false matchIndex conflictIndex conflictTerm) ∧
    after = (leader.sendAppendTo follower.id).handleAppendResp follower.id false matchIndex
      conflictIndex conflictTerm

/-- The leader has moved down without skipping what the logs share, or asks for a snapshot. -/
def Advances (ours theirs : List Entry) (p q : Progress) : Prop :=
  (q.next < p.next ∧ ∀ index, Agree ours theirs index → index < q.next) ∨ q.state = .snapshot

variable {leader follower after : Raft} {p : Progress} {ours theirs : List Entry}

/-- What one rejected probe does: the leader stays the same up to its progress, which moves
below the probe exactly if the follower's answer lets it. -/
theorem Probed.progress (probed : Probed follower leader after) (leads : leader.role = .leader)
    (tracked : leader.progress.get follower.id = some p)
    (leaderLog : leader.log.Represents ours) (followerLog : follower.log.Represents theirs)
    (matching : LogMatching ours theirs)
    (sorted : theirs.Pairwise fun left right => left.term ≤ right.term) :
    after.role = .leader ∧ after.log = leader.log ∧
      ∃ q, after.progress.get follower.id = some q ∧
        (∀ index, Agree ours theirs index → index < q.next) ∧
        (q.next < p.next ↔ Recedes leader.log follower.log p) ∧
        (q.state = .snapshot → q.next < p.next) := by
  rcases probed with ⟨prevIndex, prevTerm, entries, commit, matchIndex, conflictIndex,
    conflictTerm, asked, refused, rfl⟩
  rcases sendAppendTo_of_queues tracked asked with ⟨retained, rfl, known, sent⟩
  rcases handleAppend_of_queues refused with ⟨above, answer⟩
  have rejection : Rejection leader.log follower.log (p.next - 1) prevTerm conflictIndex
    conflictTerm := ⟨by omega, known, above, answer⟩
  have within := rejection.prev_le leaderLog
  set q := leader.rejectedProgress p conflictIndex conflictTerm with rejected
  have nextIs : q.next = min (max (resume leader.log conflictIndex conflictTerm) (p.matched + 1))
      (leader.log.lastIndex + 1) := rfl
  have handled : (leader.sendAppendTo follower.id).handleAppendResp follower.id false matchIndex
      conflictIndex conflictTerm =
      ((leader.sendAppendTo follower.id).setProgress follower.id q).sendAppendTo follower.id := by
    rw [sent]
    simp [handleAppendResp, Raft.send, Raft.post, leads, tracked, rejected, rejectedProgress]
  have trackedNow : ((leader.sendAppendTo follower.id).setProgress follower.id q).progress.get
      follower.id = some q := by
    rw [sent]
    simp [setProgress, Raft.send, Raft.post, BTreeMap.get_modify, tracked]
  rw [handled]
  refine ⟨?_, ?_, ?_⟩
  · rw [sendAppendTo_role]
    exact (sendAppendTo_role leader follower.id).trans leads
  · rw [sendAppendTo_log]
    exact sendAppendTo_log leader follower.id
  · rcases sendAppendTo_progress trackedNow rfl with ⟨shown, found, sameNext, flagged⟩
    have sameLog : ((leader.sendAppendTo follower.id).setProgress follower.id q).log =
      leader.log := sendAppendTo_log leader follower.id
    refine ⟨shown, found, ?_, ?_, ?_⟩
    · intro index agree
      have resumes := rejection.lt_resume leaderLog followerLog matching sorted agree
      rcases agree with ⟨term, ourTerm, _⟩
      have short := Consensus.le_length_of_termAt ourTerm
      rw [sameNext, nextIs, leaderLog.lastIndex]
      omega
    · have moves := rejection.resume_le_iff leaderLog followerLog
      simp only [Recedes, known, Option.mem_some_iff, forall_eq'] at moves ⊢
      rw [← moves, sameNext, nextIs]
      omega
    · intro asksSnapshot
      rw [sameLog] at flagged
      rcases flagged asksSnapshot with behind | unknown
      · rw [sameNext]
        rw [Log.firstIndex] at behind
        omega
      · by_contra stays
        have reach : q.next - 1 ≤ ours.length := by
          rw [nextIs, ← leaderLog.lastIndex]
          omega
        rcases Consensus.termAt_isSome_of_le reach with ⟨term, held⟩
        rw [leaderLog.termAt (by omega), held] at unknown
        cases unknown

/-- After a rejected probe the leader has moved down to no less than what the logs share, or
flags the follower for a snapshot, exactly if the answer lets it recede; and it cannot be
rejected for ever by answers that do. -/
theorem probing_advances_iff (leads : leader.role = .leader)
    (tracked : leader.progress.get follower.id = some p)
    (leaderLog : leader.log.Represents ours) (followerLog : follower.log.Represents theirs)
    (matching : LogMatching ours theirs)
    (sorted : theirs.Pairwise fun left right => left.term ≤ right.term) :
    (∀ after, Probed follower leader after →
      ((∃ q, after.progress.get follower.id = some q ∧ Advances ours theirs p q) ↔
        Recedes leader.log follower.log p)) ∧
      ¬ ∃ run : ℕ → Raft, run 0 = leader ∧ ∀ step, Probed follower (run step) (run (step + 1)) ∧
        ∃ q, (run step).progress.get follower.id = some q ∧
          Recedes (run step).log follower.log q := by
  refine ⟨fun after probed => ?_, ?_⟩
  · rcases probed.progress leads tracked leaderLog followerLog matching sorted with
      ⟨_, _, q, found, shared, lower, asks⟩
    rw [← lower]
    constructor
    · rintro ⟨other, foundThere, ⟨moved, _⟩ | asked⟩
      · rw [found, Option.some.injEq] at foundThere
        rwa [foundThere]
      · rw [found, Option.some.injEq] at foundThere
        exact asks (foundThere ▸ asked)
    · intro moved
      exact ⟨q, found, Or.inl ⟨moved, shared⟩⟩
  · rintro ⟨run, starts, goes⟩
    have descends : ∀ step, (run step).role = .leader ∧ (run step).log = leader.log ∧
        ∃ q, (run step).progress.get follower.id = some q ∧ q.next + step ≤ p.next := by
      intro step
      induction step with
      | zero =>
        rw [starts]
        exact ⟨leads, rfl, p, tracked, le_rfl⟩
      | succ step ih =>
        rcases ih with ⟨stillLeads, sameLog, q, found, bound⟩
        rcases goes step with ⟨probed, other, foundThere, recedes⟩
        rw [found, Option.some.injEq] at foundThere
        rw [← foundThere] at recedes
        rcases probed.progress stillLeads found (sameLog ▸ leaderLog) followerLog matching
          sorted with ⟨leadsAfter, logAfter, lowered, foundAfter, _, lower, _⟩
        have moved := lower.mpr recedes
        exact ⟨leadsAfter, logAfter.trans sameLog, lowered, foundAfter, by omega⟩
    rcases descends (p.next + 1) with ⟨_, _, q, _, bound⟩
    omega

end Raft

/-- Entries of these terms, from index one on. -/
def ofTerms (terms : List ℕ) : List Entry :=
  terms.zipIdx.map fun item => { term := item.1, index := item.2 + 1, kind := .noop }

/-- The log that holds entries of these terms. -/
def logOfTerms (terms : List ℕ) : Log :=
  { Log.bootstrap (.simple [0, 1, 2]) with entries := ofTerms terms }

theorem represents_ofTerms (terms : List ℕ) : (logOfTerms terms).Represents (ofTerms terms) where
  indexed := by
    intro position entry present
    simp only [ofTerms, List.getElem?_map, List.getElem?_zipIdx, Option.map_map,
      Option.map_eq_some_iff] at present
    rcases present with ⟨term, _, rfl⟩
    simp
  bound := Nat.zero_le _
  entries := rfl
  snapshotTerm := rfl

/-- A leader of term three that is about to probe node 1 at index two, below its own entry. -/
def probingLeader : Raft :=
  { Raft.new 0 (.simple [0, 1, 2]) .default with
    role := .leader
    term := 3
    log := logOfTerms [1, 1, 3]
    progress := (∅ : BTreeMap NodeId Progress).insert 1 (.new 3) }

def probedFollower (terms : List ℕ) : Raft :=
  { Raft.new 1 (.simple [0, 1, 2]) .default with log := logOfTerms terms }

theorem logMatching_short : LogMatching (ofTerms [1, 1, 3]) (ofTerms [1]) := by
  rintro index ⟨term, _, theirTerm⟩
  have within : index ≤ 1 := Consensus.le_length_of_termAt theirTerm
  rcases Nat.le_one_iff_eq_zero_or_eq_one.mp within with rfl | rfl
  · rfl
  · rfl

theorem logMatching_diverged : LogMatching (ofTerms [1, 1, 3]) (ofTerms [1, 2]) := by
  rintro index ⟨term, ourTerm, theirTerm⟩
  have within : index ≤ 2 := Consensus.le_length_of_termAt theirTerm
  rcases index with _ | _ | _ | index
  · rfl
  · rfl
  · cases ourTerm
    cases theirTerm
  · omega

/-- A follower whose log ends at index one is found there. -/
theorem probing_short_advances :
    ∃ q, ((probingLeader.sendAppendTo 1).handleAppendResp 1 false 0 2 0).progress.get 1 = some q ∧
      Raft.Advances (ofTerms [1, 1, 3]) (ofTerms [1]) (.new 3) q := by
  have probed : Raft.Probed (probedFollower [1]) probingLeader
      ((probingLeader.sendAppendTo 1).handleAppendResp 1 false 0 2 0) := by
    refine ⟨2, 1, _, _, 0, 2, 0, rfl, ?_, rfl⟩
    unfold Raft.Queues
    decide +kernel
  have tracked : probingLeader.progress.get (probedFollower [1]).id = some (Progress.new 3) := rfl
  have advances := (Raft.probing_advances_iff rfl tracked (represents_ofTerms [1, 1, 3])
    (represents_ofTerms [1]) logMatching_short (List.pairwise_singleton _ _)).1 _ probed
  apply advances.mpr
  exact ⟨by decide, by rintro term ⟨⟩⟩

/-- A follower that holds an entry of term two at index two is asked the same again. -/
theorem probing_diverged_stuck :
    LogMatching (ofTerms [1, 1, 3]) (ofTerms [1, 2]) ∧
      Raft.Probed (probedFollower [1, 2]) probingLeader
        ((probingLeader.sendAppendTo 1).handleAppendResp 1 false 0 2 2) ∧
      ¬ ∃ q, ((probingLeader.sendAppendTo 1).handleAppendResp 1 false 0 2 2).progress.get 1 =
        some q ∧ Raft.Advances (ofTerms [1, 1, 3]) (ofTerms [1, 2]) (.new 3) q := by
  have unmoved : ((probingLeader.sendAppendTo 1).handleAppendResp 1 false 0 2 2).progress.get 1 =
      some { Progress.new 3 with active := true } := by
    decide +kernel
  refine ⟨logMatching_diverged, ⟨2, 1, _, _, 0, 2, 2, rfl, ?_, rfl⟩, ?_⟩
  · unfold Raft.Queues
    decide +kernel
  · rintro ⟨q, found, advances⟩
    rw [unmoved, Option.some.injEq] at found
    subst found
    rcases advances with ⟨lower, _⟩ | ⟨⟨⟩⟩
    exact absurd lower (lt_irrefl 3)

end ChronoScope.Chronolog
