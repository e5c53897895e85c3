import ChronoScope.Consensus.Protocol

/-!
# The invariant of the protocol

What every action keeps, and what it says about logs without taking a step: logs
that agree on the term of an index agree up to it, and the election restriction
carries what a voter holds over to the candidate.
-/

namespace ChronoScope.Consensus

open List

universe u v

variable {N : Type u} {E : Type v} [Termed E]

/-- The part of the invariant that an entry put on the log of a leader has to do with. -/
structure Logged (rules : Rules N E) (state : State N E) : Prop where
  log_rooted : ∀ node, state.Rooted (state.log node)
  log_term : ∀ {node entry}, entry ∈ state.log node → termOf entry ≤ state.term node
  leaderLog_conforms : ∀ {term}, state.leader term ≠ none →
    state.Conforms (state.leaderLog term)
  leaderLog_sorted : ∀ {term}, state.leader term ≠ none →
    (state.leaderLog term).Pairwise (fun left right => termOf left ≤ termOf right)
  leaderLog_fits : ∀ {term index entry}, state.leader term ≠ none →
    (state.leaderLog term)[index]? = some entry →
      rules.Fits ((state.leaderLog term).take index) entry
  /-- Below a change, every earlier one had been committed when it was made. -/
  leaderLog_covered : ∀ {term index below : ℕ} {entry earlier : E}, state.leader term ≠ none →
    (state.leaderLog term)[index]? = some entry → rules.Changes entry → below < index →
    (state.leaderLog term)[below]? = some earlier → rules.Changes earlier →
      state.Covered rules (termOf entry) index ((state.leaderLog term).take (below + 1))
  acked : ∀ {term node index}, (term, node, index) ∈ state.acks →
    state.leader term ≠ none ∧ term ≤ state.term node ∧
      index ≤ (state.leaderLog term).length ∧
      ∀ below ≤ index, state.Kept term below (state.log node) (state.term node + 1)
  committed : ∀ {term index}, (term, index) ∈ state.commits →
    ∃ length, state.Decision rules term length index
  commit_certified : ∀ node, state.commit node ≤ (state.log node).length ∧
    state.Certified (state.term node) ((state.log node).take (state.commit node))

structure Invariant (rules : Rules N E) (state : State N E) : Prop
    extends Logged rules state where
  grant_term : ∀ {voter candidate term}, (voter, candidate, term) ∈ state.grants →
    term ≤ state.term voter ∧ term ≤ state.term candidate
  grant_vote : ∀ {voter candidate}, (voter, candidate, state.term voter) ∈ state.grants →
    state.vote voter = some candidate
  grant_unique : ∀ {voter left right term}, (voter, left, term) ∈ state.grants →
    (voter, right, term) ∈ state.grants → left = right
  leader_term : ∀ {term node}, state.leader term = some node → term ≤ state.term node
  leader_role : ∀ {node}, state.role node = .leader →
    state.leader (state.term node) = some node ∧
      state.leaderLog (state.term node) = state.log node
  candidate_fresh : ∀ {node}, state.role node = .candidate →
    state.leader (state.term node) ≠ some node ∧
      ∀ entry ∈ state.log node, termOf entry < state.term node
  electLog_below : ∀ {term entry}, state.leader term ≠ none → entry ∈ state.electLog term →
    termOf entry < term
  leaderLog_opens : ∀ {term}, state.leader term ≠ none →
    ∃ opened, opened ≠ [] ∧ state.leaderLog term = state.electLog term ++ opened ∧
      ∀ entry ∈ opened, termOf entry = term
  ballots : ∀ {voter candidate}, (voter, candidate, state.term candidate) ∈ state.grants →
    state.role candidate = .candidate →
      state.Ballot voter (state.term candidate) (state.term candidate + 1) (state.log candidate)
  elected : ∀ {term node}, state.leader term = some node →
    ∃ voters, rules.IsQuorum (rules.config (state.electLog term)) voters ∧ ∀ voter ∈ voters,
      (voter, node, term) ∈ state.grants ∧ state.Ballot voter term term (state.electLog term)

namespace State

theorem Conforms.of_isPrefix {state : State N E} {short long : List E}
    (conforms : state.Conforms long) (isPrefix : short <+: long) : state.Conforms short := by
  intro index entry present
  rcases conforms index entry (getElem?_of_isPrefix isPrefix present) with ⟨led, below⟩
  refine ⟨led, ?_⟩
  have bound := (List.getElem?_eq_some_iff.mp present).1
  rwa [take_eq_of_isPrefix isPrefix (by omega)] at below

omit [Termed E] in
theorem Rooted.take {state : State N E} {log : List E} (rooted : state.Rooted log)
    (bound : ℕ) : state.Rooted (log.take bound) := by
  rcases rooted with rfl | ⟨term, led, isPrefix⟩
  · left
    simp
  · exact Or.inr ⟨term, led, (List.take_prefix bound log).trans isPrefix⟩

omit [Termed E] in
theorem Certified.of_isPrefix {state : State N E} {term : ℕ} {short long : List E}
    (certified : state.Certified term long) (isPrefix : short <+: long) :
    state.Certified term short := by
  rcases certified with rfl | ⟨commitTerm, index, decided, notLater, covered⟩
  · exact Or.inl (prefix_nil.mp isPrefix)
  · exact Or.inr ⟨commitTerm, index, decided, notLater, isPrefix.trans covered⟩

omit [Termed E] in
theorem Certified.mono {state : State N E} {term later : ℕ} {committed : List E}
    (certified : state.Certified term committed) (notEarlier : term ≤ later) :
    state.Certified later committed := by
  rcases certified with empty | ⟨commitTerm, index, decided, notLater, covered⟩
  · exact Or.inl empty
  · exact Or.inr ⟨commitTerm, index, decided, notLater.trans notEarlier, covered⟩

namespace Decision

variable {rules : Rules N E} {state : State N E} {term length index : ℕ}

section

variable (decision : state.Decision rules term length index)

include decision

theorem led : state.leader term ≠ none :=
  decision.1

theorem positive : 0 < index :=
  decision.2.1

theorem within : index ≤ length :=
  decision.2.2.1

theorem reached : length ≤ (state.leaderLog term).length :=
  decision.2.2.2.1

theorem ownTerm : termAt (state.leaderLog term) index = some term :=
  decision.2.2.2.2.1

theorem quorum :
    ∃ ackers, rules.IsQuorum (rules.config ((state.leaderLog term).take length)) ackers ∧
      ∀ acker ∈ ackers, ∃ reach, index ≤ reach ∧ (term, acker, reach) ∈ state.acks :=
  decision.2.2.2.2.2

end

end Decision

end State

namespace Invariant

variable {rules : Rules N E} {state : State N E}

variable {log : List E}

section

variable (inv : Invariant rules state)

include inv

theorem conforms_of_rooted (rooted : state.Rooted log) : state.Conforms log := by
  rcases rooted with rfl | ⟨term, led, isPrefix⟩
  · intro index entry present
    simp at present
  · exact (inv.leaderLog_conforms led).of_isPrefix isPrefix

theorem sorted_of_rooted (rooted : state.Rooted log) :
    log.Pairwise (fun left right => termOf left ≤ termOf right) := by
  rcases rooted with rfl | ⟨term, led, isPrefix⟩
  · exact .nil
  · exact (inv.leaderLog_sorted led).sublist isPrefix.sublist

variable {entry : E} {term : ℕ}

theorem leaderLog_term_le (led : state.leader term ≠ none)
    (present : entry ∈ state.leaderLog term) :
    termOf entry ≤ term := by
  rcases inv.leaderLog_opens led with ⟨opened, _, shape, openedTerm⟩
  rw [shape] at present
  rcases mem_append.mp present with old | new
  · exact (inv.electLog_below led old).le
  · exact (openedTerm entry new).le

variable {index : ℕ}

section

variable (rooted : state.Rooted log)

include rooted

theorem fits_of_rooted (present : log[index]? = some entry) :
    rules.Fits (log.take index) entry := by
  rcases rooted with rfl | ⟨term, led, isPrefix⟩
  · simp at present
  · have bound := (List.getElem?_eq_some_iff.mp present).1
    have fits := inv.leaderLog_fits led (getElem?_of_isPrefix isPrefix present)
    rwa [take_eq_of_isPrefix isPrefix bound.le] at fits

theorem covered_of_rooted {below : ℕ} {earlier : E} (present : log[index]? = some entry)
    (changes : rules.Changes entry) (isBelow : below < index) (held : log[below]? = some earlier)
    (changed : rules.Changes earlier) :
    state.Covered rules (termOf entry) index (log.take (below + 1)) := by
  rcases rooted with rfl | ⟨term, led, isPrefix⟩
  · simp at present
  · have bound := (List.getElem?_eq_some_iff.mp present).1
    have covered := inv.leaderLog_covered led (getElem?_of_isPrefix isPrefix present) changes
      isBelow (getElem?_of_isPrefix isPrefix held) changed
    rwa [take_eq_of_isPrefix isPrefix (by omega)] at covered

theorem fits_append {added : E} (fits : rules.Fits log added)
    (present : (log ++ [added])[index]? = some entry) :
    rules.Fits ((log ++ [added]).take index) entry := by
  rcases Nat.lt_or_ge index log.length with below | atEnd
  · rw [getElem?_append_left below] at present
    rw [take_append_of_le_length below.le]
    exact inv.fits_of_rooted rooted present
  · rw [getElem?_append_right atEnd, getElem?_singleton] at present
    split_ifs at present with last
    · obtain rfl : index = log.length := by omega
      rw [take_append_of_le_length le_rfl, take_length]
      exact Option.some.inj present ▸ fits

theorem covered_append {added : E}
    (onTop : rules.Changes added → ∀ below earlier, log[below]? = some earlier →
      rules.Changes earlier → state.Covered rules (termOf added) log.length (log.take (below + 1)))
    {below : ℕ} {earlier : E} (present : (log ++ [added])[index]? = some entry)
    (changes : rules.Changes entry) (isBelow : below < index)
    (held : (log ++ [added])[below]? = some earlier) (changed : rules.Changes earlier) :
    state.Covered rules (termOf entry) index ((log ++ [added]).take (below + 1)) := by
  have bound := (List.getElem?_eq_some_iff.mp present).1
  rw [length_append, length_singleton] at bound
  rw [getElem?_append_left (by omega)] at held
  rw [take_append_of_le_length (by omega)]
  rcases Nat.lt_or_ge index log.length with old | new
  · rw [getElem?_append_left old] at present
    exact inv.covered_of_rooted rooted present changes isBelow held changed
  · obtain rfl : index = log.length := by omega
    rw [getElem?_concat_length] at present
    cases present
    exact onTop changes below earlier held changed

/-- A rooted log reaches index `index` in some term exactly as the leader of that term does. -/
theorem take_prefix_leaderLog (positive : 0 < index) (holds : termAt log index = some term) :
    state.leader term ≠ none ∧ log.take index <+: state.leaderLog term := by
  obtain ⟨index, rfl⟩ : ∃ prior, index = prior + 1 := ⟨index - 1, by omega⟩
  simp only [termAt, Option.map_eq_some_iff] at holds
  rcases holds with ⟨entry, present, rfl⟩
  exact inv.conforms_of_rooted rooted index entry present

end

/-- Log matching: rooted logs with the same term at an index agree up to it. -/
theorem take_eq_take_of_termAt {left right : List E} (leftRooted : state.Rooted left)
    (rightRooted : state.Rooted right) (leftHolds : termAt left index = some term)
    (rightHolds : termAt right index = some term) : left.take index = right.take index := by
  rcases Nat.eq_zero_or_pos index with rfl | positive
  · simp
  · have leftPrefix := (inv.take_prefix_leaderLog leftRooted positive leftHolds).2
    have rightPrefix := (inv.take_prefix_leaderLog rightRooted positive rightHolds).2
    have leftBound := le_length_of_termAt leftHolds
    have rightBound := le_length_of_termAt rightHolds
    have sameLength : (left.take index).length = (right.take index).length := by
      simp [Nat.min_eq_left leftBound, Nat.min_eq_left rightBound]
    exact (prefix_of_prefix_length_le leftPrefix rightPrefix sameLength.le).eq_of_length
      sameLength

section

variable (rooted : state.Rooted log)

include rooted

theorem lastTerm_le_of_isPrefix {short : List E} (isPrefix : short <+: log) :
    lastTerm short ≤ lastTerm log := by
  rcases eq_nil_or_concat short with rfl | ⟨initial, entry, rfl⟩
  · simp
  · have sorted := inv.sorted_of_rooted rooted
    obtain ⟨rest, rfl⟩ := isPrefix
    rcases eq_nil_or_concat rest with rfl | ⟨middle, last, rfl⟩
    · simp
    · rw [pairwise_append] at sorted
      simp only [concat_eq_append, ← append_assoc, lastTerm_append_singleton]
      exact sorted.2.2 entry (by simp) last (by simp)

theorem termOf_le_lastTerm (present : entry ∈ log) : termOf entry ≤ lastTerm log := by
  rcases getElem?_of_mem present with ⟨index, found⟩
  have below := inv.lastTerm_le_of_isPrefix rooted (List.take_prefix (index + 1) log)
  rwa [take_add_one, found, Option.toList_some, lastTerm_append_singleton] at below

/-- A log that is not empty is part of the log of the leader its last entry comes from. -/
theorem prefix_leaderLog_lastTerm (nonempty : log ≠ []) :
    state.leader (lastTerm log) ≠ none ∧ log <+: state.leaderLog (lastTerm log) := by
  have reached := inv.take_prefix_leaderLog rooted (length_pos_iff.mpr nonempty)
    (termAt_length nonempty)
  rwa [take_length] at reached

/-- A log that ends in a term after that of a leader holds what the leader of the term it ends in
holds of it. -/
theorem prefix_of_lastTerm_gt (led : state.leader term ≠ none) (later : term < lastTerm log)
    (held : state.leader (lastTerm log) ≠ none →
    (state.leaderLog term).take index <+: state.leaderLog (lastTerm log)) :
    (state.leaderLog term).take index <+: log := by
  have nonempty : log ≠ [] := by
    rintro rfl
    simp at later
  rcases inv.prefix_leaderLog_lastTerm rooted nonempty with ⟨lastLed, isPrefix⟩
  rcases Nat.le_total ((state.leaderLog term).take index).length log.length with short | long
  · exact prefix_of_prefix_length_le (held lastLed) isPrefix short
  · have inside := prefix_of_prefix_length_le isPrefix (held lastLed) long
    exfalso
    obtain ⟨initial, entry, rfl⟩ := eq_nil_or_concat log |>.resolve_left nonempty
    have present : entry ∈ state.leaderLog term :=
      mem_of_mem_take (inside.subset (by simp))
    have := inv.leaderLog_term_le led present
    simp at later
    omega

end

/-- The election restriction carries a committed prefix from the voter to the
candidate, provided the leaders of the terms in between hold it. -/
theorem prefix_of_upToDate {length : ℕ} {voterLog candidateLog : List E}
    (decision : state.Decision rules term length index) (voterRooted : state.Rooted voterLog)
    (candidateRooted : state.Rooted candidateLog)
    (upToDate : UpToDate (lastTerm candidateLog) candidateLog.length voterLog)
    (held : (state.leaderLog term).take index <+: voterLog)
    (between : term < lastTerm candidateLog → state.leader (lastTerm candidateLog) ≠ none →
    (state.leaderLog term).take index <+: state.leaderLog (lastTerm candidateLog)) :
    (state.leaderLog term).take index <+: candidateLog := by
  have positive := decision.positive
  have takenLength : ((state.leaderLog term).take index).length = index := by
    simp [Nat.min_eq_left (le_length_of_termAt decision.ownTerm)]
  have takenNonempty : (state.leaderLog term).take index ≠ [] := by
    intro empty
    rw [empty] at takenLength
    simp at takenLength
    omega
  have takenTerm : lastTerm ((state.leaderLog term).take index) = term := by
    have last := termAt_length takenNonempty
    rw [takenLength, termAt_take le_rfl, decision.ownTerm] at last
    exact (Option.some.inj last).symm
  have voterLast := inv.lastTerm_le_of_isPrefix voterRooted held
  rw [takenTerm] at voterLast
  have voterReach := held.length_le
  rw [takenLength] at voterReach
  have candidateNonempty : candidateLog ≠ [] := by
    rintro rfl
    rcases upToDate with earlier | ⟨_, longer⟩
    · simp at earlier
    · simp at longer
      subst longer
      simp at voterReach
      omega
  have lastAtLeast : term ≤ lastTerm candidateLog := by
    rcases upToDate with earlier | ⟨same, _⟩ <;> omega
  rcases lastAtLeast.eq_or_lt with same | later
  · -- Both logs end in the term of the commit, so the longer one covers it.
    have longer : voterLog.length ≤ candidateLog.length := by
      rcases upToDate with earlier | ⟨_, longer⟩
      · omega
      · exact longer
    have candidatePrefix := (inv.prefix_leaderLog_lastTerm candidateRooted candidateNonempty).2
    rw [← same] at candidatePrefix
    exact prefix_of_prefix_length_le (List.take_prefix _ _) candidatePrefix (by omega)
  · -- The candidate's last entry belongs to a later leader, which holds the prefix.
    exact inv.prefix_of_lastTerm_gt candidateRooted decision.led later (between later)

end

end Invariant

end ChronoScope.Consensus
