import ChronoScope.Consensus.Completeness

/-!
# Every action keeps the invariant

History only grows, so the facts recorded about it are stable; what is left for
each action is the part of the state it writes. The actions that touch logs are
the delicate ones: an adopted prefix never removes what was acknowledged to the
current leader, and a leader's log only gains entries of its own term.
-/

namespace ChronoScope.Consensus

open List

open Function (update update_of_ne update_self)

universe u v

variable {N : Type u} {E : Type v} [Termed E]

/-- The history of `after` extends the history of `before`. -/
structure State.Grows (before after : State N E) : Prop where
  leader : ∀ {term}, before.leader term ≠ none → after.leader term = before.leader term
  leaderLog : ∀ {term}, before.leader term ≠ none →
    ∃ added, after.leaderLog term = before.leaderLog term ++ added ∧
      ∀ entry ∈ added, termOf entry = term
  grants : before.grants ⊆ after.grants
  acks : before.acks ⊆ after.acks
  commits : before.commits ⊆ after.commits

variable {committed : List E} {term index : ℕ}

namespace State.Grows

variable {before after last : State N E} {rules : Rules N E}

theorem refl (state : State N E) : state.Grows state where
  leader _ := rfl
  leaderLog _ := ⟨[], by simp, by simp⟩
  grants := subset_rfl
  acks := subset_rfl
  commits := subset_rfl

theorem led (grows : before.Grows after) (led : before.leader term ≠ none) :
    after.leader term ≠ none := by
  rwa [grows.leader led]

theorem trans (first : before.Grows after) (second : after.Grows last) : before.Grows last where
  leader led := (second.leader (first.led led)).trans (first.leader led)
  leaderLog led := by
    rcases first.leaderLog led with ⟨firstAdded, firstShape, firstTerm⟩
    rcases second.leaderLog (first.led led) with ⟨secondAdded, secondShape, secondTerm⟩
    refine ⟨firstAdded ++ secondAdded, by rw [secondShape, firstShape, append_assoc], ?_⟩
    intro entry present
    rcases mem_append.mp present with old | new
    · exact firstTerm entry old
    · exact secondTerm entry new
  grants := first.grants.trans second.grants
  acks := first.acks.trans second.acks
  commits := first.commits.trans second.commits

section

variable (grows : before.Grows after)

include grows

theorem prefix_leaderLog (led : before.leader term ≠ none) :
    before.leaderLog term <+: after.leaderLog term := by
  rcases grows.leaderLog led with ⟨added, shape, _⟩
  exact ⟨added, shape.symm⟩

theorem take_leaderLog (led : before.leader term ≠ none)
    (bound : index ≤ (before.leaderLog term).length) :
    (after.leaderLog term).take index = (before.leaderLog term).take index :=
  take_eq_of_isPrefix (grows.prefix_leaderLog led) bound

variable {log : List E}

theorem rooted (rooted : before.Rooted log) : after.Rooted log := by
  rcases rooted with empty | ⟨term, led, isPrefix⟩
  · exact Or.inl empty
  · exact Or.inr ⟨term, grows.led led, isPrefix.trans (grows.prefix_leaderLog led)⟩

theorem conforms (conforms : before.Conforms log) : after.Conforms log := by
  intro index entry present
  rcases conforms index entry present with ⟨led, isPrefix⟩
  exact ⟨grows.led led, isPrefix.trans (grows.prefix_leaderLog led)⟩

theorem certified (inv : Invariant rules before) (certified : before.Certified term committed) :
    after.Certified term committed := by
  rcases certified with empty | ⟨commitTerm, index, decided, notLater, covered⟩
  · exact Or.inl empty
  · rcases inv.committed decided with ⟨_, decision⟩
    refine Or.inr ⟨commitTerm, index, grows.commits decided, notLater, ?_⟩
    rwa [grows.take_leaderLog decision.led (le_length_of_termAt decision.ownTerm)]

theorem decision {length : ℕ} (decision : before.Decision rules term length index) :
    after.Decision rules term length index := by
  have grown := grows.prefix_leaderLog decision.led
  rcases decision.quorum with ⟨ackers, quorum, acked⟩
  refine ⟨grows.led decision.led, decision.positive, decision.within,
    decision.reached.trans grown.length_le, ?_, ackers, ?_, ?_⟩
  · rw [termAt_of_isPrefix grown (le_length_of_termAt decision.ownTerm), decision.ownTerm]
  · rwa [grows.take_leaderLog decision.led decision.reached]
  · intro acker member
    rcases acked acker member with ⟨reach, enough, ack⟩
    exact ⟨reach, enough, grows.acks ack⟩

theorem covered {length : ℕ} {done : List E} (covered : before.Covered rules term length done) :
    after.Covered rules term length done := by
  rcases covered with ⟨commitTerm, reached, index, decision, order, covers⟩
  refine ⟨commitTerm, reached, index, grows.decision decision, order, ?_⟩
  rwa [grows.take_leaderLog decision.led (le_length_of_termAt decision.ownTerm)]

theorem not_isPrefix (inv : Invariant rules before) {later : ℕ} (led : before.leader term ≠ none)
    (laterLed : before.leader later ≠ none) (isLater : term < later)
    (lacks : ¬(before.leaderLog term).take index <+: before.leaderLog later) :
    ¬(before.leaderLog term).take index <+: after.leaderLog later := by
  intro gained
  rcases grows.leaderLog laterLed with ⟨added, shape, addedTerm⟩
  rw [shape] at gained
  rcases Nat.le_total ((before.leaderLog term).take index).length
      (before.leaderLog later).length with short | long
  · exact lacks (prefix_of_prefix_length_le gained (prefix_append _ _) short)
  · have oldPrefix : before.leaderLog later <+: (before.leaderLog term).take index :=
      prefix_of_prefix_length_le (prefix_append _ _) gained long
    obtain ⟨rest, restShape⟩ := oldPrefix
    cases rest with
    | nil =>
      apply lacks
      rw [← restShape]
      simp
    | cons entry rest =>
      have earlier : termOf entry ≤ term := by
        apply inv.leaderLog_term_le led
        apply mem_of_mem_take (i := index)
        rw [← restShape]
        simp
      have own : termOf entry = later := by
        apply addedTerm
        rw [← restShape, prefix_append_right_inj] at gained
        exact gained.subset (by simp)
      omega

theorem kept (inv : Invariant rules before) {bound wider : ℕ} (led : before.leader term ≠ none)
    (reach : index ≤ (before.leaderLog term).length) (wide : bound ≤ wider)
    (kept : before.Kept term index log bound) : after.Kept term index log wider := by
  simp only [State.Kept, grows.take_leaderLog led reach]
  rcases kept with held | ⟨later, isLater, inBound, laterLed, lacks⟩
  · exact Or.inl held
  · exact Or.inr ⟨later, isLater, by omega, grows.led laterLed,
      grows.not_isPrefix inv led laterLed isLater lacks⟩

/-- A ballot stays valid: whatever its voter acknowledges later is in a later term. -/
theorem ballot (inv : Invariant rules before) {voter : N} {bound : ℕ} {candidateLog : List E}
    (fresh : ∀ ackTerm index, (ackTerm, voter, index) ∈ after.acks →
    (ackTerm, voter, index) ∈ before.acks ∨ term ≤ ackTerm)
    (ballot : before.Ballot voter term bound candidateLog) :
    after.Ballot voter term bound candidateLog := by
  rcases ballot with ⟨voterLog, voterRooted, upToDate, keeps⟩
  refine ⟨voterLog, grows.rooted voterRooted, upToDate, ?_⟩
  intro ackTerm index ack earlier below isBelow
  rcases fresh ackTerm index ack with old | notEarlier
  · rcases inv.acked old with ⟨led, _, reach, _⟩
    exact grows.kept inv led (by omega) le_rfl (keeps ackTerm index old earlier below isBelow)
  · omega

end

end State.Grows

variable {candidate : N} {lastLogTerm lastIndex : ℕ}

namespace Invariant

variable [DecidableEq N] {rules : Rules N E} {state : State N E}

section

variable (inv : Invariant rules state)

include inv

theorem bump {node : N} (later : state.term node < term) :
    Invariant rules (state.bump node term) := by
  have termLe : ∀ other, state.term other ≤ (state.bump node term).term other := by
    intro other
    rcases eq_or_ne other node with rfl | distinct
    · simpa [State.bump] using later.le
    · simp [State.bump, distinct]
  refine { inv with
    log_term := ?_, acked := ?_, commit_certified := ?_, grant_term := ?_, grant_vote := ?_,
    leader_term := ?_, leader_role := ?_, candidate_fresh := ?_, ballots := ?_ }
  · intro other entry present
    exact (inv.log_term present).trans (termLe other)
  · intro given other index ack
    rcases inv.acked ack with ⟨led, notLater, reach, kept⟩
    refine ⟨led, notLater.trans (termLe other), reach, ?_⟩
    intro below isBelow
    exact (State.Grows.refl state).kept inv led (by omega)
      (Nat.add_le_add_right (termLe other) 1) (kept below isBelow)
  · intro other
    rcases inv.commit_certified other with ⟨bound, certified⟩
    exact ⟨bound, certified.mono (termLe other)⟩
  · intro voter candidate given granted
    rcases inv.grant_term granted with ⟨voterTerm, candidateTerm⟩
    exact ⟨voterTerm.trans (termLe voter), candidateTerm.trans (termLe candidate)⟩
  · intro voter candidate granted
    rcases eq_or_ne voter node with rfl | distinct
    · simp only [State.bump, update_self] at granted
      have := (inv.grant_term granted).1
      omega
    · simp only [State.bump, update_of_ne distinct] at granted ⊢
      exact inv.grant_vote granted
  · intro given leader led
    exact (inv.leader_term led).trans (termLe leader)
  · intro other leads
    rcases eq_or_ne other node with rfl | distinct
    · simp [State.bump] at leads
    · simp only [State.bump, update_of_ne distinct] at leads ⊢
      exact inv.leader_role leads
  · intro other candidacy
    rcases eq_or_ne other node with rfl | distinct
    · simp [State.bump] at candidacy
    · simp only [State.bump, update_of_ne distinct] at candidacy ⊢
      exact inv.candidate_fresh candidacy
  · intro voter candidate granted candidacy
    rcases eq_or_ne candidate node with rfl | distinct
    · simp [State.bump] at candidacy
    · simp only [State.bump, update_of_ne distinct] at granted candidacy ⊢
      exact inv.ballots granted candidacy

theorem retire (node : N) : Invariant rules (state.retire node) := by
  refine { inv with leader_role := ?_, candidate_fresh := ?_, ballots := ?_ }
  · intro other leads
    rcases eq_or_ne other node with rfl | distinct
    · simp [State.retire] at leads
    · simp only [State.retire, update_of_ne distinct] at leads ⊢
      exact inv.leader_role leads
  · intro other candidacy
    rcases eq_or_ne other node with rfl | distinct
    · simp [State.retire] at candidacy
    · simp only [State.retire, update_of_ne distinct] at candidacy ⊢
      exact inv.candidate_fresh candidacy
  · intro voter candidate granted candidacy
    rcases eq_or_ne candidate node with rfl | distinct
    · simp [State.retire] at candidacy
    · simp only [State.retire, update_of_ne distinct] at candidacy
      exact inv.ballots granted candidacy

theorem grant {voter : N} (free : state.vote voter = none ∨ state.vote voter = some candidate)
    (requested : state.Requested candidate (state.term voter) lastLogTerm lastIndex)
    (upToDate : UpToDate lastLogTerm lastIndex (state.log voter)) :
    Invariant rules (state.grant voter candidate) := by
  have sameCandidate : ∀ {other}, (voter, other, state.term voter) ∈ state.grants →
      other = candidate := by
    intro other granted
    have voted := inv.grant_vote granted
    rcases free with none | same
    · rw [none] at voted
      cases voted
    · rw [same] at voted
      exact (Option.some.inj voted).symm
  refine { inv with
    grant_term := ?_, grant_vote := ?_, grant_unique := ?_, ballots := ?_, elected := ?_ }
  · intro other chosen given granted
    rcases granted with new | old
    · cases new
      exact ⟨le_rfl, requested.1⟩
    · exact inv.grant_term old
  · intro other chosen granted
    rcases eq_or_ne other voter with rfl | distinct
    · simp only [State.grant, update_self] at granted ⊢
      rcases granted with new | old
      · cases new
        rfl
      · rw [sameCandidate old]
    · simp only [State.grant, update_of_ne distinct] at granted ⊢
      rcases granted with new | old
      · exact absurd (congrArg (·.1) new) distinct
      · exact inv.grant_vote old
  · intro other left right given leftGranted rightGranted
    rcases leftGranted with leftNew | leftOld <;> rcases rightGranted with rightNew | rightOld
    · cases leftNew
      cases rightNew
      rfl
    · cases leftNew
      exact (sameCandidate rightOld).symm
    · cases rightNew
      exact sameCandidate leftOld
    · exact inv.grant_unique leftOld rightOld
  · intro other chosen granted candidacy
    rcases granted with new | old
    · have sameTerm : state.term chosen = state.term voter := congrArg (·.2.2) new
      have sameVoter : other = voter := congrArg (·.1) new
      have sameChosen : chosen = candidate := congrArg (·.2.1) new
      subst sameVoter sameChosen
      rcases requested.2 sameTerm candidacy with ⟨sameLength, sameLast⟩
      refine ⟨state.log other, inv.log_rooted other, ?_, ?_⟩
      · simpa [State.grant, sameLength, sameLast] using upToDate
      · intro ackTerm index ack _ below isBelow
        change state.Kept ackTerm below (state.log other) (state.term chosen + 1)
        rw [sameTerm]
        exact (inv.acked ack).2.2.2 below isBelow
    · exact inv.ballots old candidacy
  · intro given leader led
    rcases inv.elected led with ⟨voters, quorum, voted⟩
    refine ⟨voters, quorum, ?_⟩
    intro other member
    exact ⟨Or.inr (voted other member).1, (voted other member).2⟩

theorem stand {node : N} (later : state.term node < term) :
    Invariant rules { state.bump node term with
      role := update state.role node .candidate } := by
  refine { inv.bump later with leader_role := ?_, candidate_fresh := ?_, ballots := ?_ }
  · intro other leads
    rcases eq_or_ne other node with rfl | distinct
    · simp at leads
    · simp only [State.bump, update_of_ne distinct] at leads ⊢
      exact inv.leader_role leads
  · intro other candidacy
    rcases eq_or_ne other node with rfl | distinct
    · simp only [State.bump, update_self]
      refine ⟨?_, ?_⟩
      · intro led
        have := inv.leader_term led
        omega
      · intro entry present
        exact (inv.log_term present).trans_lt later
    · simp only [State.bump, update_of_ne distinct] at candidacy ⊢
      exact inv.candidate_fresh candidacy
  · intro voter candidate granted candidacy
    rcases eq_or_ne candidate node with rfl | distinct
    · simp only [State.bump, update_self] at granted
      have := (inv.grant_term granted).2
      omega
    · simp only [State.bump, update_of_ne distinct] at granted candidacy ⊢
      exact inv.ballots granted candidacy

theorem campaign (node : N) : Invariant rules (state.campaign node) := by
  have shape : state.campaign node = State.grant { state.bump node (state.term node + 1) with
      role := update state.role node .candidate } node node := by
    simp [State.campaign, State.grant, State.bump]
  rw [shape]
  exact (inv.stand (Nat.lt_succ_self _)).grant (Or.inl (update_self ..))
    ⟨le_rfl, fun _ _ => ⟨rfl, rfl⟩⟩ (Or.inr ⟨rfl, le_rfl⟩)

end

omit [DecidableEq N] in
theorem candidate_backed (inv : Invariant rules state) {node : N} {voters : Set N}
    (candidacy : state.role node = .candidate)
    (quorum : rules.IsQuorum (rules.config (state.log node)) voters)
    (granted : ∀ voter ∈ voters, (voter, node, state.term node) ∈ state.grants) :
    state.Backed rules (state.term node) (state.term node + 1) (state.log node) :=
  ⟨inv.log_rooted node, (inv.candidate_fresh candidacy).2, voters, quorum,
    fun voter member => inv.ballots (granted voter member) candidacy⟩

omit [DecidableEq N] in
theorem unled_of_quorum (inv : Invariant rules state) {node : N} {voters : Set N}
    (candidacy : state.role node = .candidate)
    (quorum : rules.IsQuorum (rules.config (state.log node)) voters)
    (granted : ∀ voter ∈ voters, (voter, node, state.term node) ∈ state.grants) :
    state.leader (state.term node) = none := by
  by_contra led
  obtain ⟨other, elected⟩ := Option.ne_none_iff_exists'.mp led
  rcases inv.elected elected with ⟨otherVoters, otherQuorum, voted⟩
  have backed := inv.candidate_backed candidacy quorum granted
  have otherBacked := inv.electLog_backed led
  rcases inv.meet backed.rooted otherBacked.rooted
    (inv.shares_of_backed backed otherBacked le_rfl)
    (inv.shares_of_backed otherBacked backed (Nat.le_succ _)) quorum otherQuorum with
    ⟨shared, member, otherMember⟩
  have same := inv.grant_unique (granted shared member) (voted shared otherMember).1
  rw [same] at candidacy elected
  exact (inv.candidate_fresh candidacy).1 elected

omit [DecidableEq N] in
theorem ballot_of_unled {voter : N} {term : ℕ} {candidateLog : List E}
    (unled : state.leader term = none) (ballot : state.Ballot voter term (term + 1) candidateLog) :
    state.Ballot voter term term candidateLog := by
  rcases ballot with ⟨voterLog, rooted, upToDate, keeps⟩
  refine ⟨voterLog, rooted, upToDate, ?_⟩
  intro ackTerm index ack earlier below isBelow
  rcases keeps ackTerm index ack earlier below isBelow with
    held | ⟨later, after, before, led, lacks⟩
  · exact Or.inl held
  · refine Or.inr ⟨later, after, lt_of_le_of_ne (Nat.lt_succ_iff.mp before) ?_, led, lacks⟩
    rintro rfl
    exact led unled

omit [DecidableEq N] in
theorem conforms_append {log : List E} {entry : E} (conforms : state.Conforms log)
    (led : state.leader (termOf entry) ≠ none)
    (shape : state.leaderLog (termOf entry) = log ++ [entry]) :
    state.Conforms (log ++ [entry]) := by
  intro index found present
  rcases Nat.lt_or_ge index log.length with old | new
  · rw [getElem?_append_left old] at present
    rw [take_append_of_le_length (by omega)]
    exact conforms index found present
  · have atEnd : index = log.length := by
      have := (List.getElem?_eq_some_iff.mp present).1
      simp at this
      omega
    subst atEnd
    simp only [getElem?_concat_length, Option.some.injEq] at present
    subst present
    refine ⟨led, ?_⟩
    rw [shape, take_of_length_le (by simp)]

omit [Termed E] [DecidableEq N] in
theorem kept_of_isPrefix {term index bound : ℕ} {short long : List E} (isPrefix : short <+: long)
    (kept : state.Kept term index short bound) : state.Kept term index long bound := by
  rcases kept with held | lost
  · exact Or.inl (held.trans isPrefix)
  · exact Or.inr lost

variable {entry : E}

theorem elect_grows {node : N} (unled : state.leader (state.term node) = none) :
    state.Grows (state.elect node entry) := by
  have other : ∀ {term}, state.leader term ≠ none → term ≠ state.term node := by
    rintro term led rfl
    exact led unled
  refine ⟨?_, ?_, subset_rfl, subset_rfl, subset_rfl⟩
  · intro term led
    simp [State.elect, other led]
  · intro term led
    exact ⟨[], by simp [State.elect, other led], by simp⟩

theorem logged (inv : Invariant rules state) {node : N} {role : N → Role} {leader : ℕ → Option N}
    {electLog : ℕ → List E} (entryTerm : termOf entry = state.term node)
    (fits : rules.Fits (state.log node) entry)
    (covered : rules.Changes entry → ∀ below earlier, (state.log node)[below]? = some earlier →
      rules.Changes earlier → state.Covered rules (termOf entry) (state.log node).length
        ((state.log node).take (below + 1)))
    (grows : state.Grows { state.append node entry with
      role := role, leader := leader, electLog := electLog })
    (led : leader (state.term node) ≠ none)
    (ledBefore : ∀ {term}, term ≠ state.term node → leader term ≠ none →
      state.leader term ≠ none) :
    Logged rules { state.append node entry with
      role := role, leader := leader, electLog := electLog } := by
  constructor
  case log_rooted =>
    intro other
    rcases eq_or_ne other node with rfl | distinct
    · exact Or.inr ⟨state.term other, led, by simp [State.append]⟩
    · simpa [State.append, distinct] using grows.rooted (inv.log_rooted other)
  case log_term =>
    intro other found present
    rcases eq_or_ne other node with rfl | distinct
    · simp only [State.append, update_self, mem_append, mem_singleton] at present
      rcases present with old | rfl
      · exact inv.log_term old
      · exact entryTerm.le
    · simp only [State.append, update_of_ne distinct] at present
      exact inv.log_term present
  case leaderLog_conforms =>
    intro term isLed
    rcases eq_or_ne term (state.term node) with rfl | distinct
    · have conforms := grows.conforms (inv.conforms_of_rooted (inv.log_rooted node))
      simp only [State.append, update_self]
      apply conforms_append conforms
      · simpa [entryTerm] using led
      · simp [State.append, entryTerm]
    · simpa [State.append, distinct] using
        grows.conforms (inv.leaderLog_conforms (ledBefore distinct isLed))
  case leaderLog_sorted =>
    intro term isLed
    rcases eq_or_ne term (state.term node) with rfl | distinct
    · simp only [State.append, update_self, pairwise_append, pairwise_cons]
      refine ⟨inv.sorted_of_rooted (inv.log_rooted node), by simp, ?_⟩
      intro old present new isNew
      obtain rfl : new = entry := by simpa using isNew
      rw [entryTerm]
      exact inv.log_term present
    · simpa [State.append, distinct] using inv.leaderLog_sorted (ledBefore distinct isLed)
  case leaderLog_fits =>
    intro term index found isLed present
    rcases eq_or_ne term (state.term node) with rfl | distinct
    · simp only [State.append, update_self] at present ⊢
      exact inv.fits_append (inv.log_rooted node) fits present
    · simp only [State.append, update_of_ne distinct] at present ⊢
      exact inv.leaderLog_fits (ledBefore distinct isLed) present
  case leaderLog_covered =>
    intro term index below found earlier isLed present changes isBelow held changed
    apply grows.covered
    rcases eq_or_ne term (state.term node) with rfl | distinct
    · simp only [State.append, update_self] at present held ⊢
      exact inv.covered_append (inv.log_rooted node) covered present changes isBelow held changed
    · simp only [State.append, update_of_ne distinct] at present held ⊢
      exact inv.leaderLog_covered (ledBefore distinct isLed) present changes isBelow held changed
  case acked =>
    intro term other index ack
    rcases inv.acked ack with ⟨wasLed, notLater, reach, kept⟩
    refine ⟨grows.led wasLed, notLater, reach.trans (grows.prefix_leaderLog wasLed).length_le, ?_⟩
    intro below isBelow
    have stays := grows.kept inv wasLed (by omega) le_rfl (kept below isBelow)
    rcases eq_or_ne other node with rfl | differs
    · exact kept_of_isPrefix (by simp [State.append]) stays
    · simpa [State.append, differs] using stays
  case committed =>
    intro term index decided
    rcases inv.committed decided with ⟨length, decision⟩
    exact ⟨length, grows.decision decision⟩
  case commit_certified =>
    intro other
    rcases inv.commit_certified other with ⟨bound, certified⟩
    have stays := grows.certified inv certified
    rcases eq_or_ne other node with rfl | distinct
    · constructor
      · simp only [State.append, update_self, length_append]
        omega
      · simpa [State.append, take_append_of_le_length bound] using stays
    · simpa [State.append, distinct] using ⟨bound, stays⟩

theorem elect (inv : Invariant rules state) {node : N} {voters : Set N}
    (candidacy : state.role node = .candidate) (entryTerm : termOf entry = state.term node)
    (fits : rules.Fits (state.log node) entry) (ordinary : ¬rules.Changes entry)
    (quorum : rules.IsQuorum (rules.config (state.log node)) voters)
    (granted : ∀ voter ∈ voters, (voter, node, state.term node) ∈ state.grants) :
    Invariant rules (state.elect node entry) := by
  have unled := inv.unled_of_quorum candidacy quorum granted
  have grows : state.Grows (state.elect node entry) := elect_grows unled
  have otherTerm : ∀ {term}, state.leader term ≠ none → term ≠ state.term node := by
    rintro term led rfl
    exact led unled
  have ledBefore : ∀ {term}, term ≠ state.term node →
      (state.elect node entry).leader term ≠ none → state.leader term ≠ none := by
    intro term distinct led
    simpa [State.elect, distinct] using led
  have belowTerm := (inv.candidate_fresh candidacy).2
  have logged : Logged rules (state.elect node entry) :=
    inv.logged entryTerm fits (fun changes => absurd changes ordinary) grows (by simp) ledBefore
  refine { logged, inv with
    leader_term := ?_, leader_role := ?_, candidate_fresh := ?_, electLog_below := ?_,
    leaderLog_opens := ?_, ballots := ?_, elected := ?_ }
  · intro term leader led
    rcases eq_or_ne term (state.term node) with rfl | distinct
    · obtain rfl : node = leader := by simpa [State.elect] using led
      exact le_rfl
    · simp only [State.elect, update_of_ne distinct] at led
      exact inv.leader_term led
  · intro other leads
    rcases eq_or_ne other node with rfl | distinct
    · simp [State.elect]
    · simp only [State.elect, update_of_ne distinct] at leads ⊢
      rcases inv.leader_role leads with ⟨leaderIs, logIs⟩
      have differs : state.term other ≠ state.term node := otherTerm (by simp [leaderIs])
      simp [differs, leaderIs, logIs]
  · intro other candidate
    rcases eq_or_ne other node with rfl | distinct
    · simp [State.elect] at candidate
    · simp only [State.elect, update_of_ne distinct] at candidate
      rcases inv.candidate_fresh candidate with ⟨fresh, below⟩
      refine ⟨?_, by simpa [State.elect, distinct] using below⟩
      rcases eq_or_ne (state.term other) (state.term node) with same | differs
      · simpa [State.elect, same] using distinct.symm
      · simpa [State.elect, differs] using fresh
  · intro term old led present
    rcases eq_or_ne term (state.term node) with rfl | distinct
    · simp only [State.elect, update_self] at present
      exact belowTerm old present
    · simp only [State.elect, update_of_ne distinct] at present
      exact inv.electLog_below (ledBefore distinct led) present
  · intro term led
    rcases eq_or_ne term (state.term node) with rfl | distinct
    · exact ⟨[entry], by simp, by simp [State.elect], by simpa using entryTerm⟩
    · simpa [State.elect, distinct] using inv.leaderLog_opens (ledBefore distinct led)
  · intro voter candidate voted standing
    rcases eq_or_ne candidate node with rfl | distinct
    · simp [State.elect] at standing
    · simp only [State.elect, update_of_ne distinct] at voted standing
      simpa [State.elect, distinct] using grows.ballot inv
        (fun _ _ ack => Or.inl ack) (inv.ballots voted standing)
  · intro term leader led
    rcases eq_or_ne term (state.term node) with rfl | distinct
    · obtain rfl : node = leader := by simpa [State.elect] using led
      refine ⟨voters, by simpa [State.elect] using quorum,
        fun voter member => ⟨granted voter member, ?_⟩⟩
      simpa [State.elect] using grows.ballot inv (fun _ _ ack => Or.inl ack)
        (ballot_of_unled unled (inv.ballots (granted voter member) candidacy))
    · simp only [State.elect, update_of_ne distinct] at led
      rcases inv.elected led with ⟨oldVoters, oldQuorum, voted⟩
      refine ⟨oldVoters, by simpa [State.elect, distinct] using oldQuorum,
        fun voter member => ⟨(voted voter member).1, ?_⟩⟩
      simpa [State.elect, distinct] using grows.ballot inv (fun _ _ ack => Or.inl ack)
        (voted voter member).2

theorem append_grows (inv : Invariant rules state) {node : N} (leads : state.role node = .leader)
    (entryTerm : termOf entry = state.term node) : state.Grows (state.append node entry) := by
  refine ⟨fun _ => rfl, ?_, subset_rfl, subset_rfl, subset_rfl⟩
  intro term led
  rcases eq_or_ne term (state.term node) with rfl | distinct
  · refine ⟨[entry], ?_, by simpa using entryTerm⟩
    simp [State.append, (inv.leader_role leads).2]
  · exact ⟨[], by simp [State.append, distinct], by simp⟩

omit [DecidableEq N] in
/-- What a leader knows to be committed was decided before its log grew any further. -/
theorem covered_of_settled (inv : Invariant rules state) {node : N}
    (leads : state.role node = .leader)
    (settled : rules.Settled (state.log node) (state.commit node)) (below : ℕ) (earlier : E)
    (held : (state.log node)[below]? = some earlier) (changed : rules.Changes earlier) :
    state.Covered rules (state.term node) (state.log node).length
      ((state.log node).take (below + 1)) := by
  have committed := settled below earlier held changed
  have bound := (List.getElem?_eq_some_iff.mp held).1
  rcases (inv.commit_certified node).2 with empty | ⟨commitTerm, index, decided, notLater, covers⟩
  · have := congrArg List.length empty
    simp only [length_take, length_nil] at this
    omega
  · rcases inv.committed decided with ⟨length, decision⟩
    refine ⟨commitTerm, length, index, decision, ?_, ?_⟩
    · rcases notLater.lt_or_eq with earlierTerm | rfl
      · exact Or.inl earlierTerm
      · exact Or.inr ⟨rfl, (inv.leader_role leads).2 ▸ decision.reached⟩
    · exact (take_prefix_take_left (by omega)).trans covers

theorem append (inv : Invariant rules state) {node : N} (leads : state.role node = .leader)
    (entryTerm : termOf entry = state.term node) (fits : rules.Fits (state.log node) entry)
    (settled : rules.Changes entry → rules.Settled (state.log node) (state.commit node)) :
    Invariant rules (state.append node entry) := by
  have grows : state.Grows (state.append node entry) := inv.append_grows leads entryTerm
  rcases inv.leader_role leads with ⟨leaderIs, logIs⟩
  have ledNow : state.leader (state.term node) ≠ none := by simp [leaderIs]
  have logged : Logged rules (state.append node entry) :=
    inv.logged entryTerm fits (fun changes => entryTerm ▸ inv.covered_of_settled leads
      (settled changes)) grows ledNow fun _ => id
  refine { logged, inv with
    leader_role := ?_, candidate_fresh := ?_, leaderLog_opens := ?_, ballots := ?_, elected := ?_ }
  · intro other otherLeads
    rcases eq_or_ne other node with rfl | distinct
    · exact ⟨leaderIs, by simp [State.append]⟩
    · rcases inv.leader_role otherLeads with ⟨otherLeaderIs, otherLogIs⟩
      refine ⟨otherLeaderIs, ?_⟩
      have differs : state.term other ≠ state.term node := by
        intro same
        rw [same, leaderIs] at otherLeaderIs
        exact distinct (Option.some.inj otherLeaderIs).symm
      simpa [State.append, differs, distinct] using otherLogIs
  · intro other candidacy
    have distinct : other ≠ node := by
      rintro rfl
      have : state.role other = .candidate := candidacy
      rw [leads] at this
      cases this
    simpa [State.append, distinct] using inv.candidate_fresh candidacy
  · intro term led
    rcases eq_or_ne term (state.term node) with rfl | distinct
    · rcases inv.leaderLog_opens led with ⟨opened, nonempty, shape, openedTerm⟩
      refine ⟨opened ++ [entry], by simp, ?_, ?_⟩
      · simp [State.append, ← logIs, shape]
      · intro found present
        rcases mem_append.mp present with old | new
        · exact openedTerm found old
        · rw [mem_singleton.mp new, entryTerm]
    · simpa [State.append, distinct] using inv.leaderLog_opens led
  · intro voter candidate voted standing
    rcases eq_or_ne candidate node with rfl | distinct
    · have : state.role candidate = .candidate := standing
      rw [leads] at this
      cases this
    · simpa [State.append, distinct] using grows.ballot inv (fun _ _ ack => Or.inl ack)
        (inv.ballots voted standing)
  · intro term leader led
    rcases inv.elected led with ⟨voters, quorum, voted⟩
    refine ⟨voters, quorum, fun voter member => ⟨(voted voter member).1, ?_⟩⟩
    exact grows.ballot inv (fun _ _ ack => Or.inl ack) (voted voter member).2

omit [DecidableEq N] in
theorem acknowledge_of_isPrefix (inv : Invariant rules state) (node : N) (index : ℕ)
    (led : state.leader (state.term node) ≠ none)
    (bound : index ≤ (state.leaderLog (state.term node)).length)
    (held : (state.leaderLog (state.term node)).take index <+: state.log node) :
    Invariant rules (state.acknowledge node index) := by
  have grows : state.Grows (state.acknowledge node index) :=
    { State.Grows.refl state with acks := Set.subset_insert _ _ }
  have fresh : ∀ {voter candidate term}, (voter, candidate, term) ∈ state.grants →
      ∀ ackTerm reach, (ackTerm, voter, reach) ∈ (state.acknowledge node index).acks →
        (ackTerm, voter, reach) ∈ state.acks ∨ term ≤ ackTerm := by
    intro voter candidate term granted ackTerm reach ack
    rcases ack with new | old
    · right
      have sameTerm : ackTerm = state.term node := congrArg (·.1) new
      have sameNode : voter = node := congrArg (·.2.1) new
      rw [sameTerm, ← sameNode]
      exact (inv.grant_term granted).1
    · exact Or.inl old
  refine { inv with
    leaderLog_covered := ?_, acked := ?_, committed := ?_, ballots := ?_, elected := ?_ }
  · intro term place below entry earlier isLed present changes isBelow held changed
    exact grows.covered (inv.leaderLog_covered isLed present changes isBelow held changed)
  · intro term other reach ack
    rcases ack with new | old
    · cases new
      refine ⟨led, le_rfl, bound, ?_⟩
      intro below isBelow
      exact Or.inl ((take_prefix_take_left isBelow).trans held)
    · exact inv.acked old
  · intro term reach decided
    rcases inv.committed decided with ⟨length, decision⟩
    exact ⟨length, grows.decision decision⟩
  · intro voter candidate granted candidacy
    exact grows.ballot inv (fresh granted) (inv.ballots granted candidacy)
  · intro term leader isLed
    rcases inv.elected isLed with ⟨voters, quorum, voted⟩
    refine ⟨voters, quorum, fun voter member => ⟨(voted voter member).1, ?_⟩⟩
    exact grows.ballot inv (fresh (voted voter member).1) (voted voter member).2

omit [DecidableEq N] in
theorem acknowledge (inv : Invariant rules state) {node : N} {index : ℕ}
    (led : state.leader (state.term node) ≠ none) (bound : index ≤ state.commit node) :
    Invariant rules (state.acknowledge node index) := by
  rcases inv.commit_certified node with ⟨commitBound, certified⟩
  have committedHeld := inv.prefix_leaderLog_of_certified certified led
  have reach := committedHeld.length_le
  simp only [length_take, Nat.min_eq_left commitBound] at reach
  apply inv.acknowledge_of_isPrefix node index led (by omega)
  rw [take_eq_of_isPrefix committedHeld (by simpa [commitBound] using bound), take_take,
    Nat.min_eq_left bound]
  exact take_prefix _ _

section

variable (inv : Invariant rules state)

include inv

theorem relog {node : N} (index : ℕ) (follows : state.role node = .follower)
    (led : state.leader (state.term node) ≠ none) :
    Invariant rules { state with
      log := update state.log node (State.adoptLog (state.log node)
        ((state.leaderLog (state.term node)).take index)) } := by
  by_cases held : (state.leaderLog (state.term node)).take index <+: state.log node
  · have unchanged : update state.log node (State.adoptLog (state.log node)
        ((state.leaderLog (state.term node)).take index)) = state.log := by
      simp [State.adoptLog, held]
    rw [unchanged]
    exact inv
  · have replaced : State.adoptLog (state.log node)
        ((state.leaderLog (state.term node)).take index) =
          (state.leaderLog (state.term node)).take index := by
      simp [State.adoptLog, held]
    rw [replaced]
    have survives : ∀ {short : List E}, short <+: state.log node →
        short <+: state.leaderLog (state.term node) →
          short <+: (state.leaderLog (state.term node)).take index := by
      intro short inOld inLeader
      rcases prefix_or_prefix_of_prefix inLeader
          (List.take_prefix index (state.leaderLog (state.term node))) with ok | longer
      · exact ok
      · exact absurd (longer.trans inOld) held
    refine { inv with
      log_rooted := ?_, log_term := ?_, acked := ?_, commit_certified := ?_, leader_role := ?_,
      candidate_fresh := ?_, ballots := ?_ }
    · intro other
      rcases eq_or_ne other node with rfl | distinct
      · exact Or.inr ⟨state.term other, led, by simp [List.take_prefix]⟩
      · simp only [update_of_ne distinct]
        exact inv.log_rooted other
    · intro other entry present
      rcases eq_or_ne other node with rfl | distinct
      · simp only [update_self] at present
        exact inv.leaderLog_term_le led (mem_of_mem_take present)
      · simp only [update_of_ne distinct] at present
        exact inv.log_term present
    · intro term other reach ack
      rcases inv.acked ack with ⟨ackLed, notLater, inLog, kept⟩
      refine ⟨ackLed, notLater, inLog, ?_⟩
      intro below isBelow
      rcases eq_or_ne other node with rfl | distinct
      · simp only [update_self]
        rcases kept below isBelow with inOld | lost
        · by_cases inLeader : (state.leaderLog term).take below <+:
              state.leaderLog (state.term other)
          · exact Or.inl (survives inOld inLeader)
          · -- The current leader is the one that lacks the acknowledged prefix.
            refine Or.inr ⟨state.term other, ?_, Nat.lt_succ_self _, led, inLeader⟩
            refine lt_of_le_of_ne notLater ?_
            rintro rfl
            exact inLeader (List.take_prefix _ _)
        · exact Or.inr lost
      · simp only [update_of_ne distinct]
        exact kept below isBelow
    · intro other
      rcases eq_or_ne other node with rfl | distinct
      · rcases inv.commit_certified other with ⟨bound, certified⟩
        have kept := survives (List.take_prefix _ _)
          (inv.prefix_leaderLog_of_certified certified led)
        have keptLength := kept.length_le
        simp only [length_take, Nat.min_eq_left bound] at keptLength
        constructor
        · simpa using keptLength
        · simp only [update_self]
          rw [take_eq_of_isPrefix kept (by simp [bound]), take_take, Nat.min_self]
          exact certified
      · simp only [update_of_ne distinct]
        exact inv.commit_certified other
    · intro other leads
      rcases eq_or_ne other node with rfl | distinct
      · rw [follows] at leads
        cases leads
      · simpa [distinct] using inv.leader_role leads
    · intro other candidacy
      rcases eq_or_ne other node with rfl | distinct
      · rw [follows] at candidacy
        cases candidacy
      · simpa [distinct] using inv.candidate_fresh candidacy
    · intro voter candidate granted candidacy
      rcases eq_or_ne candidate node with rfl | distinct
      · rw [follows] at candidacy
        cases candidacy
      · simp only [update_of_ne distinct]
        exact inv.ballots granted candidacy

theorem adopt {node : N} (follows : state.role node = .follower)
    (led : state.leader (state.term node) ≠ none)
    (bound : index ≤ (state.leaderLog (state.term node)).length) :
    Invariant rules (state.adopt node index) := by
  refine (inv.relog index follows led).acknowledge_of_isPrefix node index led bound ?_
  simpa using State.isPrefix_adoptLog _ _

theorem learn {node : N} (bound : index ≤ (state.log node).length)
    (certified : state.Certified (state.term node) ((state.log node).take index)) :
    Invariant rules (state.learn node index) := by
  refine { inv with commit_certified := ?_ }
  intro other
  rcases eq_or_ne other node with rfl | distinct
  · simpa [State.learn] using ⟨bound, certified⟩
  · simp only [State.learn, update_of_ne distinct]
    exact inv.commit_certified other

theorem advance {node : N} {ackers : Set N} (leads : state.role node = .leader)
    (positive : 0 < index) (ownTerm : termAt (state.log node) index = some (state.term node))
    (quorum : rules.IsQuorum (rules.config (state.log node)) ackers)
    (acked : ∀ acker ∈ ackers, acker = node ∨ ∃ reach, index ≤ reach ∧
    (state.term node, acker, reach) ∈ state.acks) :
    Invariant rules (state.advance node index) := by
  rcases inv.leader_role leads with ⟨leaderIs, logIs⟩
  have led : state.leader (state.term node) ≠ none := by simp [leaderIs]
  have bound := le_length_of_termAt ownTerm
  have self := inv.acknowledge_of_isPrefix node index led (by rwa [logIs])
    (by rw [logIs]; exact take_prefix _ _)
  refine { self with committed := ?_, commit_certified := ?_ }
  · intro term reach decided
    rcases decided with new | old
    · cases new
      refine ⟨(state.log node).length, led, positive, bound, (congrArg List.length logIs).ge,
        by rw [← logIs] at ownTerm; exact ownTerm, ackers, ?_, ?_⟩
      · simpa [State.advance, logIs] using quorum
      intro acker member
      rcases acked acker member with rfl | ⟨far, reaches, ack⟩
      · exact ⟨index, le_rfl, Or.inl rfl⟩
      · exact ⟨far, reaches, Or.inr ack⟩
    · exact self.committed old
  · intro other
    rcases eq_or_ne other node with rfl | distinct
    · refine ⟨by simpa [State.advance] using bound, ?_⟩
      refine Or.inr ⟨state.term other, index, Or.inl rfl, le_rfl, ?_⟩
      simp [State.advance, logIs]
    · rcases inv.commit_certified other with ⟨otherBound, certified⟩
      refine ⟨by simpa [State.advance, distinct] using otherBound, ?_⟩
      rcases certified with empty | ⟨commitTerm, covered, decided, notLater, isPrefix⟩
      · exact Or.inl (by simpa [State.advance, distinct] using empty)
      · exact Or.inr ⟨commitTerm, covered, Or.inr decided, notLater,
          by simpa [State.advance, distinct] using isPrefix⟩

end

end Invariant

variable [DecidableEq N] {rules : Rules N E} {node : N} {before after : State N E}

variable {other : N}

section

variable (step : Step rules node before after)

include step

theorem Step.invariant (inv : Invariant rules before) : Invariant rules after := by
  cases step with
  | bump term later => exact inv.bump later
  | retire => exact inv.retire node
  | campaign => exact inv.campaign node
  | grant candidate lastLogTerm lastIndex free requested upToDate =>
    exact inv.grant free requested upToDate
  | elect entry voters candidacy entryTerm fits ordinary quorum granted =>
    exact inv.elect candidacy entryTerm fits ordinary quorum granted
  | append entry leads entryTerm fits settled => exact inv.append leads entryTerm fits settled
  | adopt index follows led bound => exact inv.adopt follows led bound
  | acknowledge index led bound => exact inv.acknowledge led bound
  | advance index ackers leads positive ownTerm quorum acked =>
    exact inv.advance leads positive ownTerm quorum acked
  | learn index bound certified => exact inv.learn bound certified

theorem Step.grows (inv : Invariant rules before) : before.Grows after := by
  have base := State.Grows.refl before
  cases step with
  | bump term later => exact { base with }
  | retire => exact { base with }
  | campaign => exact { base with grants := Set.subset_insert _ _ }
  | grant candidate lastLogTerm lastIndex free requested upToDate =>
    exact { base with grants := Set.subset_insert _ _ }
  | elect entry voters candidacy entryTerm fits ordinary quorum granted =>
    exact Invariant.elect_grows (inv.unled_of_quorum candidacy quorum granted)
  | append entry leads entryTerm fits => exact inv.append_grows leads entryTerm
  | adopt index follows led bound => exact { base with acks := Set.subset_insert _ _ }
  | acknowledge index led bound => exact { base with acks := Set.subset_insert _ _ }
  | advance index ackers leads positive ownTerm quorum acked =>
    exact { base with acks := Set.subset_insert _ _, commits := Set.subset_insert _ _ }
  | learn index bound certified => exact { base with }

theorem Step.frame (distinct : other ≠ node) :
    after.term other = before.term other ∧ after.vote other = before.vote other ∧
      after.role other = before.role other ∧ after.log other = before.log other ∧
      after.commit other = before.commit other := by
  cases step <;>
    simp [State.bump, State.retire, State.campaign, State.grant, State.elect, State.append,
      State.adopt, State.acknowledge, State.advance, State.learn, distinct]

theorem Step.commits_frame (inv : Invariant rules before) (distinct : other ≠ node)
    (leads : before.role other = .leader) (decided : (before.term other, index) ∈ after.commits) :
    (before.term other, index) ∈ before.commits := by
  cases step with
  | advance _ _ decides =>
    rcases decided with new | earlier
    · have own := (inv.leader_role leads).1
      rw [(Prod.mk.inj new).1, (inv.leader_role decides).1] at own
      exact absurd (Option.some.inj own).symm distinct
    · exact earlier
  | _ => exact decided

theorem Step.term_le (other : N) : before.term other ≤ after.term other := by
  rcases eq_or_ne other node with rfl | distinct
  · cases step with
    | bump term later => simpa [State.bump] using later.le
    | campaign => simp [State.campaign]
    | _ => exact le_rfl
  · exact (step.frame distinct).1.ge

theorem Step.take_commit (inv : Invariant rules before) (committed : index ≤ before.commit node)
    (stillCommitted : index ≤ after.commit node) :
    (after.log node).take index = (before.log node).take index := by
  have invAfter := step.invariant inv
  rcases inv.commit_certified node with ⟨bound, certified⟩
  rcases invAfter.commit_certified node with ⟨boundAfter, certifiedAfter⟩
  apply invAfter.certified_eq
  · exact certifiedAfter.of_isPrefix (take_prefix_take_left stillCommitted)
  · exact (step.grows inv).certified inv
      (certified.of_isPrefix (take_prefix_take_left committed))
  · simp only [length_take]
    omega

theorem Step.isPrefix_of_certified (inv : Invariant rules before)
    (certified : before.Certified term committed) (notLater : term ≤ before.term other)
    (held : committed <+: before.log other) : committed <+: after.log other := by
  rcases eq_or_ne other node with rfl | distinct
  · cases step with
    | elect entry => simpa [State.elect] using held.trans (prefix_append _ _)
    | append entry => simpa [State.append] using held.trans (prefix_append _ _)
    | adopt index follows led bound =>
      have leaders := inv.prefix_leaderLog_of_certified (certified.mono notLater) led
      simp only [State.adopt, update_self]
      rcases prefix_or_prefix_of_prefix leaders (List.take_prefix index _) with
        covered | shorter
      · exact covered.trans (State.isPrefix_adoptLog _ _)
      · rwa [State.adoptLog_eq_self (shorter.trans held)]
    | _ => exact held
  · rwa [(step.frame distinct).2.2.2.1]

theorem Step.candidate_before (sameTerm : after.term node = before.term node)
    (candidacy : after.role node = .candidate) :
    before.role node = .candidate ∧ after.log node = before.log node := by
  cases step with
  | bump term later => simp [State.bump] at candidacy
  | retire => simp [State.retire] at candidacy
  | campaign => simp [State.campaign] at sameTerm
  | grant => exact ⟨candidacy, rfl⟩
  | elect => simp [State.elect] at candidacy
  | append entry leads =>
    have : before.role node = .candidate := candidacy
    rw [leads] at this
    cases this
  | adopt index follows =>
    have : before.role node = .candidate := candidacy
    rw [follows] at this
    cases this
  | acknowledge => exact ⟨candidacy, rfl⟩
  | advance => exact ⟨candidacy, rfl⟩
  | learn => exact ⟨candidacy, rfl⟩

theorem Step.requested (requested : before.Requested candidate term lastLogTerm lastIndex) :
    after.Requested candidate term lastLogTerm lastIndex := by
  rcases requested with ⟨reached, describes⟩
  refine ⟨reached.trans (step.term_le candidate), ?_⟩
  intro sameTerm candidacy
  have unchanged : before.term candidate = term := by
    have := step.term_le candidate
    omega
  rcases eq_or_ne candidate node with rfl | distinct
  · rcases step.candidate_before (by omega) candidacy with ⟨candidateBefore, sameLog⟩
    rw [sameLog]
    exact describes unchanged candidateBefore
  · rcases step.frame distinct with ⟨_, _, sameRole, sameLog, _⟩
    rw [sameLog]
    exact describes unchanged (sameRole ▸ candidacy)

end

namespace Steps

theorem single (step : Step rules node before after) : Steps rules node before after :=
  Relation.ReflTransGen.single step

section

variable (steps : Steps rules node before after)

include steps

theorem invariant (inv : Invariant rules before) : Invariant rules after := by
  induction steps with
  | refl => exact inv
  | tail _ step ih => exact step.invariant ih

theorem grows (inv : Invariant rules before) : before.Grows after := by
  induction steps with
  | refl => exact State.Grows.refl before
  | tail initial step ih => exact ih.trans (step.grows (Steps.invariant initial inv))

theorem frame (distinct : other ≠ node) :
    after.term other = before.term other ∧ after.vote other = before.vote other ∧
      after.role other = before.role other ∧ after.log other = before.log other ∧
      after.commit other = before.commit other := by
  induction steps with
  | refl => simp
  | tail _ step ih =>
    rcases ih with ⟨term, vote, role, log, commit⟩
    rcases step.frame distinct with ⟨term', vote', role', log', commit'⟩
    exact ⟨term'.trans term, vote'.trans vote, role'.trans role, log'.trans log,
      commit'.trans commit⟩

theorem commits_frame (inv : Invariant rules before) (distinct : other ≠ node)
    (leads : before.role other = .leader) (decided : (before.term other, index) ∈ after.commits) :
    (before.term other, index) ∈ before.commits := by
  induction steps with
  | refl => exact decided
  | tail steps step ih =>
    rcases frame steps distinct with ⟨sameTerm, _, sameRole, _, _⟩
    apply ih
    rw [← sameTerm] at decided ⊢
    exact step.commits_frame (Steps.invariant steps inv) distinct (sameRole.trans leads) decided

theorem term_le (other : N) : before.term other ≤ after.term other := by
  induction steps with
  | refl => exact le_rfl
  | tail _ step ih => exact ih.trans (step.term_le other)

theorem isPrefix_of_certified (inv : Invariant rules before)
    (certified : before.Certified term committed) (notLater : term ≤ before.term other)
    (held : committed <+: before.log other) : committed <+: after.log other := by
  induction steps with
  | refl => exact held
  | tail steps step ih =>
    exact step.isPrefix_of_certified (Steps.invariant steps inv)
      ((Steps.grows steps inv).certified inv certified)
      (notLater.trans (Steps.term_le steps other)) ih

theorem requested (requested : before.Requested candidate term lastLogTerm lastIndex) :
    after.Requested candidate term lastLogTerm lastIndex := by
  induction steps with
  | refl => exact requested
  | tail _ step ih => exact step.requested ih

end

end Steps

def State.initial (N : Type u) (E : Type v) : State N E where
  term _ := 0
  vote _ := none
  role _ := .follower
  log _ := []
  commit _ := 0
  leader _ := none
  leaderLog _ := []
  electLog _ := []
  grants := ∅
  acks := ∅
  commits := ∅

omit [DecidableEq N] in
theorem Invariant.initial (rules : Rules N E) :
    Invariant rules (State.initial N E) := by
  constructor
  case toLogged => constructor <;> simp [State.initial, State.Rooted, State.Certified]
  all_goals simp [State.initial]

end ChronoScope.Consensus
