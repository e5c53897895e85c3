import ChronoScope.Chronolog.Moves

/-!
# A write that failed

When the disk is full the driver has a node stand down and goes on to the next
cycle, counting on `ready` to hand out again what was not written. That holds of
the entries, which are recomputed from a watermark only `advance` clears, and of
the committed entries. It does not hold of the hard state, whose flag `ready`
clears, nor of a snapshot, which it takes out of `pending`.

Inputs are arbitrary here: nothing is assumed about who sends what.
-/

namespace ChronoScope.Chronolog

namespace Raft

/-- Neither what waits for the driver nor the snapshot point has changed, messages and reads
apart. -/
structure Quiet (r r' : Raft) : Prop where
  hardState : r'.pending.hardState = r.pending.hardState
  snapshot : r'.pending.snapshot = r.pending.snapshot
  snapshotIndex : r'.log.snapshotIndex = r.log.snapshotIndex

namespace Quiet

variable {r r' r'' : Raft}

theorem refl (r : Raft) : Quiet r r := ⟨rfl, rfl, rfl⟩

theorem trans (first : Quiet r r') (second : Quiet r' r'') : Quiet r r'' :=
  ⟨second.hardState.trans first.hardState, second.snapshot.trans first.snapshot,
    second.snapshotIndex.trans first.snapshotIndex⟩

theorem after (second : Quiet r' r'') (first : Quiet r r') : Quiet r r'' := first.trans second

theorem ite {condition : Prop} [Decidable condition] (yes : condition → Quiet r r')
    (no : ¬ condition → Quiet r r'') : Quiet r (if condition then r' else r'') := by
  by_cases holds : condition
  · rw [if_pos holds]
    exact yes holds
  · rw [if_neg holds]
    exact no holds

end Quiet

variable {heard : Option (NodeId × Message)}

section Quiet

variable (r : Raft)

theorem quiet_becomeFollower (term : ℕ) (leader : Option NodeId) :
    Quiet r (r.becomeFollower term leader) := by
  unfold becomeFollower
  split_ifs <;> exact ⟨rfl, rfl, rfl⟩

theorem quiet_maybeAdvanceCommit : Quiet r r.maybeAdvanceCommit := by
  simp only [maybeAdvanceCommit]
  split_ifs <;> exact ⟨rfl, rfl, rfl⟩

variable {r}

/-- Only an accepted snapshot is added to what waits, moves the snapshot point and changes what
is applied. -/
theorem Move.quiet_or_install {r' : Raft} (move : Move heard r r') :
    (Quiet r r' ∧ r'.applied = r.applied) ∨
      ∃ sender snap, r.commit < snap.lastIndex ∧ r' = r.acceptSnapshot sender snap := by
  cases move with
  | install _ _ news => exact Or.inr ⟨_, _, news, rfl⟩
  | follow term leader =>
    refine Or.inl ⟨quiet_becomeFollower r term leader, ?_⟩
    unfold becomeFollower
    split_ifs <;> rfl
  | decide =>
    refine Or.inl ⟨quiet_maybeAdvanceCommit r, ?_⟩
    obtain ⟨_, _, _, _, advanced⟩ := maybeAdvanceCommit_eq r
    rw [advanced]
  | @accept sender prevIndex prevTerm commit entries =>
    obtain ⟨_, accepted⟩ := acceptAppend_eq r sender prevIndex entries commit
    rw [accepted]
    exact Or.inl ⟨⟨rfl, rfl, (Log.Represents.merge_base r.log prevIndex entries).1⟩, rfl⟩
  | @raise _ commit =>
    obtain ⟨_, raised⟩ := raiseCommit_eq r (min commit r.log.lastIndex)
    rw [raised]
    exact Or.inl ⟨⟨rfl, rfl, rfl⟩, rfl⟩
  | _ => exact Or.inl ⟨⟨rfl, rfl, rfl⟩, rfl⟩

variable (r)

theorem quiet_advance (ready : Ready) : Quiet r (r.advance ready) := by
  let noted := { r with
    persistedHardState := ready.hardState.getD r.persistedHardState
    progress := r.progress.modify r.id fun p =>
      { p with matched := r.persisted, next := r.persisted + 1 } }
  have advanced : Quiet r (if noted.role = .leader then noted.maybeAdvanceCommit else noted) :=
    .ite (fun _ => (quiet_maybeAdvanceCommit _).after ⟨rfl, rfl, rfl⟩) fun _ => ⟨rfl, rfl, rfl⟩
  exact ⟨advanced.hardState, advanced.snapshot, advanced.snapshotIndex⟩

end Quiet

/-- Everything waiting in `pending` is accounted for: no hard state waits there, and a
snapshot only once the log has been replaced by it. -/
structure Accounted (r : Raft) : Prop where
  hardState : r.pending.hardState = none
  snapshot : ∀ snap, r.pending.snapshot = some snap → snap.lastIndex ≤ r.log.snapshotIndex

namespace Accounted

variable {r r' : Raft}

theorem of_quiet (accounted : Accounted r) (quiet : Quiet r r') : Accounted r' where
  hardState := quiet.hardState.trans accounted.hardState
  snapshot snap waiting := by
    rw [quiet.snapshotIndex]
    exact accounted.snapshot snap (quiet.snapshot.symm.trans waiting)

theorem move (accounted : Accounted r) (move : Move heard r r') : Accounted r' := by
  rcases move.quiet_or_install with ⟨quiet, _⟩ | ⟨sender, snap, _, rfl⟩
  · exact accounted.of_quiet quiet
  · refine ⟨accounted.hardState, ?_⟩
    intro waiting isWaiting
    cases isWaiting
    exact Log.le_installSnapshot _ _

theorem feed (accounted : Accounted r) (input : Input) : Accounted (Node.feed r input) := by
  apply (feed_moves r input).keeps _ accounted
  exact fun next accounted => accounted.move next

theorem compact (accounted : Accounted r) {data : Bytes} {snap : Snapshot}
    (taken : r.snapshotAtApplied data = some snap) : Accounted (r.compact snap) := by
  rcases Option.map_eq_some_iff.mp taken with ⟨term, known, rfl⟩
  refine ⟨accounted.hardState, fun waiting isWaiting => ?_⟩
  apply (accounted.snapshot waiting isWaiting).trans
  simp only [Raft.compact, Log.compactThrough]
  split_ifs with covered
  · exact le_rfl
  · have above := Nat.not_le.mp covered
    exact le_min above.le (above.le.trans (Log.le_of_termAt_eq_some above known))

end Accounted

/-- The states of a node, new or restored, under any inputs and any driver: a `Ready` may be
advanced or not. -/
inductive Arises : Raft → Prop where
  | new (id : NodeId) (cfg : Config) (opts : RaftOptions) : Arises (.new id cfg opts)
  | restore (id : NodeId) (opts : RaftOptions) (hard : HardState) (snapshot : Option Snapshot)
      (entries : List Entry) (bootstrap : Config) :
      Arises (.restore id opts hard snapshot entries bootstrap)
  | feed {r : Raft} (input : Input) (arises : Arises r) : Arises (Node.feed r input)
  | ready {r : Raft} (arises : Arises r) : Arises r.ready.2
  | setPersisted {r : Raft} (index : ℕ) (arises : Arises r) : Arises (r.setPersisted index)
  | advance {r : Raft} (ready : Ready) (arises : Arises r) : Arises (r.advance ready)
  | stepDown {r : Raft} (arises : Arises r) : Arises r.stepDown
  | compact {r : Raft} {data : Bytes} {snap : Snapshot} (arises : Arises r)
      (taken : r.snapshotAtApplied data = some snap) : Arises (r.compact snap)
  | sendSnapshot {r : Raft} (peer : NodeId) (snap : Snapshot) (arises : Arises r) :
      Arises (r.sendSnapshot peer snap)

theorem Arises.accounted {r : Raft} (arises : Arises r) : Accounted r := by
  induction arises with
  | new => exact ⟨rfl, fun _ waiting => nomatch waiting⟩
  | restore => exact ⟨rfl, fun _ waiting => nomatch waiting⟩
  | feed input _ ih => exact ih.feed input
  | ready => exact ⟨rfl, fun _ waiting => nomatch waiting⟩
  | setPersisted index _ ih => exact ih.of_quiet ⟨rfl, rfl, rfl⟩
  | advance ready _ ih => exact ih.of_quiet (quiet_advance _ ready)
  | stepDown _ ih => exact ih.of_quiet (.ite (fun _ => quiet_becomeFollower _ _ _) fun _ => .refl _)
  | compact _ taken ih => exact ih.compact taken
  | sendSnapshot peer snap _ ih => exact ih.of_quiet ⟨rfl, rfl, rfl⟩

/-- The node some inputs after a cycle whose write failed. -/
def afterFailure (r : Raft) (inputs : List Input) : Raft :=
  inputs.foldl Node.feed r.ready.2.stepDown

/-- The hard state handed out is handed out again as long as it is not the one last advanced
over. -/
def RemembersHardState (r : Raft) (inputs : List Input) : Prop :=
  let later := r.afterFailure inputs
  r.ready.1.hardState ≠ none →
    (later.term ≠ later.persistedHardState.term ∨ later.vote ≠ later.persistedHardState.vote) →
      later.ready.1.hardState = some later.hardState

/-- The snapshot handed out is handed out again as long as the log is based on it. -/
def RemembersSnapshot (r : Raft) (inputs : List Input) : Prop :=
  let later := r.afterFailure inputs
  ∀ snap, r.ready.1.snapshot = some snap → snap.lastIndex ≤ later.log.snapshotIndex →
    ∃ again, later.ready.1.snapshot = some again ∧ snap.lastIndex ≤ again.lastIndex

theorem hardState_ready {r : Raft} (accounted : Accounted r) :
    r.ready.1.hardState =
      if r.hardStateDirty = true ∧
          (r.term ≠ r.persistedHardState.term ∨ r.vote ≠ r.persistedHardState.vote)
      then some r.hardState else none := by
  simp only [ready, accounted.hardState, Bool.and_eq_true, Bool.or_eq_true, decide_eq_true_eq]

theorem stepDown_ready (r : Raft) :
    r.ready.2.stepDown.term = r.term ∧ r.ready.2.stepDown.vote = r.vote ∧
      r.ready.2.stepDown.persistedHardState = r.persistedHardState ∧
      r.ready.2.stepDown.hardStateDirty = false ∧ r.ready.2.stepDown.pending = .default ∧
      r.ready.2.stepDown.log = r.log := by
  unfold stepDown becomeFollower
  split_ifs with isLeader later
  · exact absurd later (lt_irrefl _)
  · exact ⟨rfl, rfl, rfl, rfl, rfl, rfl⟩
  · exact ⟨rfl, rfl, rfl, rfl, rfl, rfl⟩

/-- A node remembers what a failed write was to make durable exactly if that was neither a
hard state nor a snapshot: whenever there is one, the very next `Ready` comes without it. -/
theorem remembers_iff {r : Raft} (arises : Arises r) :
    (∀ inputs, r.RemembersHardState inputs ∧ r.RemembersSnapshot inputs) ↔
      ¬ (r.hardStateDirty = true ∧
          (r.term ≠ r.persistedHardState.term ∨ r.vote ≠ r.persistedHardState.vote)) ∧
        r.pending.snapshot = none := by
  have accounted := arises.accounted
  rcases stepDown_ready r with ⟨sameTerm, sameVote, samePersisted, clean, emptied, sameLog⟩
  constructor
  · intro remembers
    rcases remembers [] with ⟨hardState, snapshot⟩
    have nextAccounted : Accounted r.ready.2.stepDown := arises.ready.stepDown.accounted
    refine ⟨?_, ?_⟩
    · rintro ⟨dirty, differs⟩
      have handed : r.ready.1.hardState ≠ none := by
        rw [hardState_ready accounted, if_pos ⟨dirty, differs⟩]
        simp
      have again := hardState handed (by
        simp only [afterFailure, List.foldl_nil, sameTerm, sameVote, samePersisted]
        exact differs)
      simp only [afterFailure, List.foldl_nil] at again
      rw [hardState_ready nextAccounted, if_neg (by simp [clean])] at again
      cases again
    · cases waiting : r.pending.snapshot with
      | none => rfl
      | some snap =>
        have covered : snap.lastIndex ≤ (r.afterFailure []).log.snapshotIndex := by
          simp only [afterFailure, List.foldl_nil, sameLog]
          exact accounted.snapshot snap waiting
        rcases snapshot snap waiting covered with ⟨again, isAgain, _⟩
        have : r.ready.2.stepDown.pending.snapshot = some again := isAgain
        rw [emptied] at this
        cases this
  · rintro ⟨nothing, noSnapshot⟩ inputs
    refine ⟨?_, ?_⟩
    · intro handed
      rw [hardState_ready accounted, if_neg nothing] at handed
      exact absurd rfl handed
    · intro snap handed
      exact absurd (noSnapshot.symm.trans handed) (by simp)

/-- A follower that has just granted its vote in term 1. -/
def voted : Raft := (new 1 (.simple [0, 1, 2]) .default).step 0 { term := 1, body := .voteReq 0 0 }

/-- If the vote could not be written, the next cycle does not ask for it again, although the
node still stands by it. -/
theorem voted_forgets :
    (voted.afterFailure []).term = 1 ∧ (voted.afterFailure []).vote = some 0 ∧
      ¬ voted.RemembersHardState [] := by
  refine ⟨by decide +kernel, by decide +kernel, ?_⟩
  intro remembers
  exact absurd (remembers (by decide +kernel) (by decide +kernel)) (by decide +kernel)

/-- Once the vote is handed out there is nothing left to forget. -/
theorem voted_remembers :
    ¬(∀ inputs, voted.RemembersHardState inputs ∧ voted.RemembersSnapshot inputs) ∧
      ∀ inputs, voted.ready.2.RemembersHardState inputs ∧
        voted.ready.2.RemembersSnapshot inputs := by
  have arises : Arises voted := .feed (.message 0 _) (.new 1 (.simple [0, 1, 2]) .default)
  exact ⟨mt (remembers_iff arises).mp (by decide +kernel),
    (remembers_iff arises.ready).mpr (by decide +kernel)⟩

end Raft

end ChronoScope.Chronolog
