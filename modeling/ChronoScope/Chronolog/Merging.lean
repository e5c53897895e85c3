import ChronoScope.Chronolog.Log

/-!
# Appends that come late, twice or out of order

A follower merges slices of a leader's log into its own. The network delivers
them in any order and any number of times, and the follower may hold a tail of
its own that contradicts the leader. Only Log Matching relates the two logs:
where they have an entry of one term in common, they agree up to there.

`mergeLoop_cases` says once what a merge can do. Everything else is read off the
entries before and after it.
-/

namespace ChronoScope.Chronolog

open List

namespace Log

/-- The logs have the same term at an index, and the same entry if both still hold one. -/
structure Agree (left right : Log) (index : ℕ) : Prop where
  term : ∃ term, left.termAt index = some term ∧ right.termAt index = some term
  entry : ∀ first second, left.get index = some first → right.get index = some second →
    first = second

/-- Log Matching: logs that have the same term at an index agree on everything up to it that both
of them know. -/
def Matching (left right : Log) : Prop :=
  ∀ index term, left.termAt index = some term → right.termAt index = some term →
    ∀ below ≤ index, ∀ first second, left.termAt below = some first →
      right.termAt below = some second → left.Agree right below

/-- Two contiguous logs that satisfy Log Matching with each other. -/
structure Related (leader follower : Log) : Prop where
  leaderIndexed : Indexed leader.snapshotIndex leader.entries
  followerIndexed : Indexed follower.snapshotIndex follower.entries
  matching : follower.Matching leader

/-- Some of the entries contradict the log. -/
def Conflicts (log : Log) (entries : List Entry) : Prop :=
  ∃ entry ∈ entries, ∃ term, log.termAt entry.index = some term ∧ term ≠ entry.term

/-- Entries a leader may send and a follower takes: a slice of the leader's log, behind an entry
that the follower has too and that is not below its snapshot. -/
structure Fits (leader follower : Log) (prev : ℕ) (entries : List Entry) : Prop where
  kept : leader.snapshotIndex ≤ prev
  slice : ∃ stop, entries = leader.slice (prev + 1) stop
  above : follower.snapshotIndex ≤ prev
  known : ∃ term, follower.termAt prev = some term ∧ leader.termAt prev = some term

section

variable {log : Log}

variable {index : ℕ}

theorem termAt_of_lt (above : log.snapshotIndex < index) :
    log.termAt index = (log.get index).map Entry.term := by
  rw [Log.termAt, if_neg (by omega), if_neg (by omega)]

theorem get_isSome_iff (indexed : Indexed log.snapshotIndex log.entries) :
    (log.get index).isSome = true ↔ log.snapshotIndex < index ∧ index ≤ log.lastIndex := by
  rw [lastIndex_of_indexed indexed]
  by_cases above : log.snapshotIndex < index
  · rw [get_of_indexed indexed above, isSome_getElem?]
    omega
  · simp [Represents.get_eq_none log (Nat.not_lt.mp above), above]

theorem ext_of_get {left right : Log} (leftIndexed : Indexed left.snapshotIndex left.entries)
    (rightIndexed : Indexed right.snapshotIndex right.entries)
    (sameIndex : left.snapshotIndex = right.snapshotIndex)
    (sameTerm : left.snapshotTerm = right.snapshotTerm)
    (sameConfig : left.snapshotConfig = right.snapshotConfig)
    (same : ∀ index, left.get index = right.get index) : left = right := by
  have sameEntries : left.entries = right.entries := by
    apply ext_getElem?
    intro position
    have equal := same (left.snapshotIndex + position + 1)
    rw [get_of_indexed leftIndexed (by omega), get_of_indexed rightIndexed (by omega),
      ← sameIndex] at equal
    rwa [show left.snapshotIndex + position + 1 - left.snapshotIndex - 1 = position by omega]
      at equal
  cases left
  cases right
  simp_all

end

section

variable {log : Log} {prev : ℕ} {entries : List Entry}

/-- The entries a merge skips are those up to the first that the log does not have. If the log has
them all it stays as it is; otherwise the rest takes the place of whatever the log has there. -/
theorem mergeLoop_cases (indexed : Indexed log.snapshotIndex log.entries)
    (follows : Indexed prev entries) (above : log.snapshotIndex ≤ prev)
    (present : prev ≤ log.lastIndex) :
    ∃ skipped ≤ entries.length, prev + skipped ≤ log.lastIndex ∧
      (∀ entry ∈ entries.take skipped, log.termAt entry.index = some entry.term) ∧
      (¬ log.Conflicts entries ∧ skipped = entries.length ∧ log.mergeLoop entries = log ∨
        (log.Conflicts entries ∨ ¬ log.Conflicts entries ∧ prev + skipped = log.lastIndex) ∧
          (log.mergeLoop entries).entries =
            log.entries.take (prev + skipped - log.snapshotIndex) ++ entries.drop skipped) := by
  induction entries generalizing prev with
  | nil => exact ⟨0, le_rfl, present, by simp, Or.inl ⟨by simp [Conflicts], rfl, rfl⟩⟩
  | cons entry rest ih =>
    have headIndex : entry.index = prev + 1 := follows 0 entry rfl
    have restFollows : Indexed (prev + 1) rest := by simpa using follows.drop 1
    cases known : log.termAt entry.index with
    | none =>
      have past := lt_of_termAt_eq_none indexed (by omega) known
      have clean : ¬ log.Conflicts (entry :: rest) := by
        rintro ⟨other, member, term, isKnown, _⟩
        rcases getElem?_of_mem member with ⟨position, found⟩
        have otherIndex := follows position other found
        have := le_of_termAt_eq_some (by omega) isKnown
        omega
      refine ⟨0, by omega, by omega, by simp, Or.inr ⟨Or.inr ⟨clean, by omega⟩, ?_⟩⟩
      rw [lastIndex_of_indexed indexed] at past present
      rw [take_of_length_le (by omega)]
      simp [mergeLoop, known, Log.append]
    | some term =>
      have within : prev + 1 ≤ log.lastIndex :=
        headIndex ▸ le_of_termAt_eq_some (by omega) known
      by_cases same : term = entry.term
      · subst same
        rcases ih restFollows (by omega) within with ⟨skipped, bound, reaches, matched, outcome⟩
        have skips : log.mergeLoop (entry :: rest) = log.mergeLoop rest := by
          simp [mergeLoop, known]
        have conflicts : log.Conflicts (entry :: rest) ↔ log.Conflicts rest := by
          simp [Conflicts, known]
        refine ⟨skipped + 1, by simpa using bound, by omega, by simpa [known] using matched, ?_⟩
        rw [skips, conflicts, length_cons, drop_succ_cons,
          show prev + (skipped + 1) = prev + 1 + skipped by omega]
        simpa using outcome
      · refine ⟨0, by omega, by omega, by simp, Or.inr ⟨?_, ?_⟩⟩
        · exact Or.inl ⟨entry, by simp, term, known, same⟩
        · simp only [mergeLoop, known, if_neg same]
          rw [headIndex, truncateFrom_of_indexed indexed above]
          rfl

end

section

variable {leader follower : Log} {prev : ℕ} {entries : List Entry}

theorem Fits.numbered (fits : leader.Fits follower prev entries)
    (leaderIndexed : Indexed leader.snapshotIndex leader.entries) :
    Indexed prev entries ∧ ∀ position < entries.length,
      entries[position]? = leader.get (prev + position + 1) := by
  rcases fits.slice with ⟨stop, rfl⟩
  have kept := fits.kept
  rw [slice_of_indexed leaderIndexed, Log.firstIndex, Nat.add_sub_add_right]
  constructor
  · simpa [Nat.add_sub_cancel' kept] using (leaderIndexed.take _).drop (prev - leader.snapshotIndex)
  · intro position inside
    rw [length_drop, length_take] at inside
    rw [getElem?_drop, getElem?_take_of_lt (by omega), get_of_indexed leaderIndexed (by omega)]
    congr 1
    omega

theorem Fits.present (fits : leader.Fits follower prev entries)
    (followerIndexed : Indexed follower.snapshotIndex follower.entries) :
    prev ≤ follower.lastIndex := by
  rcases fits.known with ⟨term, known, _⟩
  exact le_lastIndex_of_termAt followerIndexed known

/-- What the follower holds after a merge: what it held up to the previous entry, what the leader
holds up to the last one given, and behind that what it held before unless it was contradicted. -/
theorem get_merge (related : leader.Related follower)
    (fits : leader.Fits follower prev entries) (index : ℕ) :
    (index ≤ prev → (follower.merge prev entries).1.get index = follower.get index) ∧
    (prev < index → index ≤ prev + entries.length →
      (follower.merge prev entries).1.get index = leader.get index) ∧
    (prev + entries.length < index → (follower.Conflicts entries →
        (follower.merge prev entries).1.get index = none) ∧
      (¬ follower.Conflicts entries →
        (follower.merge prev entries).1.get index = follower.get index)) := by
  rcases related with ⟨leaderIndexed, followerIndexed, matching⟩
  rcases fits.numbered leaderIndexed with ⟨follows, given⟩
  have above := fits.above
  have mergedIndexed := indexed_mergeLoop followerIndexed follows above
    (fits.present followerIndexed)
  have sameIndex := (Represents.mergeLoop_base follower entries).1
  rcases mergeLoop_cases followerIndexed follows above (fits.present followerIndexed) with
    ⟨skipped, bound, reaches, matched, outcome⟩
  have shared : prev < index → index ≤ prev + skipped → follower.get index = leader.get index := by
    intro after upTo
    have inside : index - prev - 1 < entries.length := by omega
    have isLeaders := given _ inside
    rw [show prev + (index - prev - 1) + 1 = index by omega, List.getElem?_eq_getElem inside]
      at isLeaders
    have entryIndex := follows _ _ (List.getElem?_eq_getElem inside)
    have skips : entries[index - prev - 1] ∈ entries.take skipped :=
      mem_take_iff_getElem.mpr ⟨index - prev - 1, by omega, rfl⟩
    have known := matched _ skips
    have kept := fits.kept
    rw [show entries[index - prev - 1].index = index by omega] at known
    have leaderKnown : leader.termAt index = some entries[index - prev - 1].term := by
      rw [termAt_of_lt (by omega), ← isLeaders]
      rfl
    have agree := matching index _ known leaderKnown index le_rfl _ _ known leaderKnown
    rw [termAt_of_lt (by omega)] at known
    cases held : follower.get index with
    | none => simp [held] at known
    | some entry => rw [← isLeaders, agree.entry entry _ held isLeaders.symm]
  rw [merge_eq]
  rcases outcome with ⟨clean, rfl, same⟩ | ⟨graft, grafted⟩
  · rw [same]
    exact ⟨fun _ => rfl, shared, fun _ => ⟨fun conflict => absurd conflict clean, fun _ => rfl⟩⟩
  · rw [lastIndex_of_indexed followerIndexed] at reaches graft
    have before : index ≤ prev + skipped →
        (follower.mergeLoop entries).get index = follower.get index := by
      intro upTo
      rcases Nat.lt_or_ge follower.snapshotIndex index with beyond | covered
      · rw [get_of_indexed mergedIndexed (sameIndex ▸ beyond), sameIndex, grafted,
          get_of_indexed followerIndexed beyond, getElem?_append_left
            (by rw [length_take]; omega), getElem?_take_of_lt (by omega)]
      · rw [Represents.get_eq_none _ covered, Represents.get_eq_none _ (sameIndex ▸ covered)]
    have behind : prev + skipped < index →
        (follower.mergeLoop entries).get index = entries[index - prev - 1]? := by
      intro after
      rw [get_of_indexed mergedIndexed (by omega), sameIndex, grafted, getElem?_append_right
        (by rw [length_take]; omega), length_take, getElem?_drop]
      congr 1
      omega
    refine ⟨fun upTo => before (by omega), ?_, ?_⟩
    · intro after upTo
      rcases Nat.lt_or_ge (prev + skipped) index with beyond | skips
      · rw [behind beyond, given _ (by omega)]
        congr 1
        omega
      · rw [before skips, shared after skips]
    · intro beyond
      have nothing : (follower.mergeLoop entries).get index = none := by
        rw [behind (by omega), List.getElem?_eq_none (by omega)]
      refine ⟨fun _ => nothing, fun clean => ?_⟩
      rcases graft with conflict | ⟨_, atEnd⟩
      · exact absurd conflict clean
      · rw [nothing, get_of_indexed followerIndexed (by omega), List.getElem?_eq_none (by omega)]

theorem merge_eq_self (followerIndexed : Indexed follower.snapshotIndex follower.entries)
    (follows : Indexed prev entries) (above : follower.snapshotIndex ≤ prev)
    (clean : ¬ follower.Conflicts entries) (has : prev + entries.length ≤ follower.lastIndex) :
    (follower.merge prev entries).1 = follower := by
  rw [merge_eq]
  rcases mergeLoop_cases followerIndexed follows above (by omega) with
    ⟨skipped, bound, _, _, ⟨_, _, same⟩ | ⟨conflict | ⟨_, atEnd⟩, grafted⟩⟩
  · exact same
  · exact absurd conflict clean
  · rw [lastIndex_of_indexed followerIndexed] at has atEnd
    obtain rfl : skipped = entries.length := by omega
    rw [take_of_length_le (by omega), drop_length, append_nil] at grafted
    rcases Represents.mergeLoop_base follower entries with ⟨sameIndex, sameTerm, sameConfig⟩
    generalize follower.mergeLoop entries = merged at *
    cases merged
    cases follower
    simp_all

end

section

variable {leader follower merged : Log} {prev index : ℕ} {entries : List Entry}

theorem Agree.congr (agree : follower.Agree leader index)
    (sameTerm : merged.termAt index = follower.termAt index)
    (sameEntry : merged.get index = follower.get index) : merged.Agree leader index :=
  ⟨sameTerm ▸ agree.term, sameEntry ▸ agree.entry⟩

theorem termAt_congr (sameIndex : merged.snapshotIndex = follower.snapshotIndex)
    (sameTerm : merged.snapshotTerm = follower.snapshotTerm)
    (sameEntry : merged.get index = follower.get index) :
    merged.termAt index = follower.termAt index := by
  simp only [termAt, sameIndex, sameTerm, sameEntry]

theorem agree_of_get {entry : Entry} (followerAbove : follower.snapshotIndex < index)
    (leaderAbove : leader.snapshotIndex < index) (held : follower.get index = some entry)
    (same : leader.get index = some entry) : follower.Agree leader index := by
  refine ⟨⟨entry.term, ?_, ?_⟩, ?_⟩
  · rw [termAt_of_lt followerAbove, held]
    rfl
  · rw [termAt_of_lt leaderAbove, same]
    rfl
  · intro first second isFirst isSecond
    rw [held] at isFirst
    rw [same] at isSecond
    exact (Option.some.inj isFirst).symm.trans (Option.some.inj isSecond)

theorem Agree.get_eq (agree : follower.Agree leader index)
    (followerAbove : follower.snapshotIndex < index) (leaderAbove : leader.snapshotIndex < index) :
    follower.get index = leader.get index := by
  rcases agree.term with ⟨term, known, leaderKnown⟩
  rw [termAt_of_lt followerAbove] at known
  rw [termAt_of_lt leaderAbove] at leaderKnown
  rcases Option.map_eq_some_iff.mp known with ⟨first, held, _⟩
  rcases Option.map_eq_some_iff.mp leaderKnown with ⟨second, leaderHeld, _⟩
  rw [held, leaderHeld, agree.entry first second held leaderHeld]

section

variable (fits : leader.Fits follower prev entries)
  (leaderIndexed : Indexed leader.snapshotIndex leader.entries)

include fits leaderIndexed

theorem Fits.given (after : prev < index) (upTo : index ≤ prev + entries.length) :
    ∃ entry ∈ entries, leader.get index = some entry ∧ entry.index = index := by
  rcases fits.numbered leaderIndexed with ⟨follows, given⟩
  have inside : index - prev - 1 < entries.length := by omega
  have isLeaders := given _ inside
  have numbered := follows _ _ (List.getElem?_eq_getElem inside)
  rw [show prev + (index - prev - 1) + 1 = index by omega, List.getElem?_eq_getElem inside]
    at isLeaders
  exact ⟨_, getElem_mem inside, isLeaders.symm, by omega⟩

theorem Fits.conflicts_iff :
    follower.Conflicts entries ↔ ∃ index, prev < index ∧ index ≤ prev + entries.length ∧
      ∃ term, follower.termAt index = some term ∧ leader.termAt index ≠ some term := by
  have kept := fits.kept
  constructor
  · rintro ⟨entry, member, term, known, differs⟩
    rcases fits.numbered leaderIndexed with ⟨follows, given⟩
    rcases getElem?_of_mem member with ⟨position, found⟩
    have inside := (List.getElem?_eq_some_iff.mp found).1
    have numbered := follows position entry found
    refine ⟨entry.index, by omega, by omega, term, known, ?_⟩
    rw [termAt_of_lt (by omega), show entry.index = prev + position + 1 by omega,
      ← given position inside, found]
    exact fun same => differs (Option.some.inj same).symm
  · rintro ⟨index, after, upTo, term, known, differs⟩
    rcases fits.given leaderIndexed after upTo with ⟨entry, member, isLeaders, rfl⟩
    refine ⟨entry, member, term, known, ?_⟩
    rintro rfl
    rw [termAt_of_lt (by omega), isLeaders] at differs
    exact differs rfl

end

end

namespace Related

variable {leader follower : Log} {prev index : ℕ} {entries : List Entry}

theorem agree_prev (related : leader.Related follower) (fits : leader.Fits follower prev entries) :
    follower.Agree leader prev := by
  rcases fits.known with ⟨term, known, leaderKnown⟩
  exact related.matching prev term known leaderKnown prev le_rfl _ _ known leaderKnown

theorem agree_below (related : leader.Related follower) {shared : ℕ}
    (agree : follower.Agree leader shared) (below : index ≤ shared)
    (followerAbove : follower.snapshotIndex < index) (leaderAbove : leader.snapshotIndex < index) :
    follower.Agree leader index := by
  rcases agree.term with ⟨term, known, leaderKnown⟩
  have held := (get_isSome_iff related.followerIndexed).mpr
    ⟨followerAbove, below.trans (le_of_termAt_eq_some (by omega) known)⟩
  have leaderHeld := (get_isSome_iff related.leaderIndexed).mpr
    ⟨leaderAbove, below.trans (le_of_termAt_eq_some (by omega) leaderKnown)⟩
  rcases Option.isSome_iff_exists.mp held with ⟨first, isFirst⟩
  rcases Option.isSome_iff_exists.mp leaderHeld with ⟨second, isSecond⟩
  exact related.matching shared term known leaderKnown index below first.term second.term
    (by simp [termAt_of_lt followerAbove, isFirst]) (by simp [termAt_of_lt leaderAbove, isSecond])

theorem termAt_merge (sameEntry : (follower.merge prev entries).1.get index = follower.get index) :
    (follower.merge prev entries).1.termAt index = follower.termAt index := by
  rcases Represents.merge_base follower prev entries with ⟨sameIndex, sameTerm, _⟩
  exact termAt_congr sameIndex sameTerm sameEntry

section

variable (related : leader.Related follower) (fits : leader.Fits follower prev entries)

include related fits

theorem agree_given (notBefore : prev ≤ index) (upTo : index ≤ prev + entries.length) :
    (follower.merge prev entries).1.Agree leader index := by
  rcases get_merge related fits index with ⟨before, between, _⟩
  have above := fits.above
  have kept := fits.kept
  rcases notBefore.eq_or_lt with rfl | after
  · exact (related.agree_prev fits).congr (termAt_merge (before le_rfl)) (before le_rfl)
  · rcases fits.given related.leaderIndexed after upTo with ⟨entry, _, isLeaders, _⟩
    have sameIndex := (Represents.merge_base follower prev entries).1
    exact agree_of_get (by omega) (by omega) ((between after upTo).trans isLeaders) isLeaders

theorem agree_merge (agree : follower.Agree leader index) :
    (follower.merge prev entries).1.Agree leader index := by
  rcases get_merge related fits index with ⟨before, _, behind⟩
  rcases Nat.lt_or_ge index prev with early | notEarly
  · exact agree.congr (termAt_merge (before early.le)) (before early.le)
  · rcases Nat.lt_or_ge (prev + entries.length) index with late | given
    swap
    · exact related.agree_given fits notEarly given
    have clean : ¬ follower.Conflicts entries := by
      rw [fits.conflicts_iff related.leaderIndexed]
      rintro ⟨other, after, upTo, term, known, differs⟩
      have above := fits.above
      have kept := fits.kept
      rcases (related.agree_below agree (by omega) (by omega) (by omega) :
        follower.Agree leader other).term with ⟨shared, isShared, leaderShared⟩
      rw [known] at isShared
      exact differs (leaderShared.trans isShared.symm)
    have same := (behind late).2 clean
    exact agree.congr (termAt_merge same) same

theorem merge : leader.Related (follower.merge prev entries).1 := by
  refine ⟨related.leaderIndexed, ?_, ?_⟩
  · rw [merge_eq]
    exact indexed_mergeLoop related.followerIndexed (fits.numbered related.leaderIndexed).1
      fits.above (fits.present related.followerIndexed)
  · intro index term known leaderKnown below isBelow first second isFirst isSecond
    rcases get_merge related fits below with ⟨before, _, behindBelow⟩
    rcases get_merge related fits index with ⟨_, _, behind⟩
    rcases Nat.lt_or_ge below prev with early | notEarly
    · apply related.agree_merge fits
      rcases fits.known with ⟨shared, isShared, leaderShared⟩
      exact related.matching prev shared isShared leaderShared below early.le _ _
        (termAt_merge (before early.le) ▸ isFirst) isSecond
    · rcases Nat.lt_or_ge (prev + entries.length) below with late | given
      swap
      · exact related.agree_given fits notEarly given
      have above := fits.above
      have sameIndex := (Represents.merge_base follower prev entries).1
      have clean : ¬ follower.Conflicts entries := by
        intro conflict
        rw [termAt_of_lt (by omega), (behind (by omega)).1 conflict] at known
        cases known
      apply related.agree_merge fits
      exact related.matching index term (termAt_merge ((behind (by omega)).2 clean) ▸ known)
        leaderKnown below isBelow _ _ (termAt_merge ((behindBelow late).2 clean) ▸ isFirst) isSecond

theorem fits_again : leader.Fits (follower.merge prev entries).1 prev entries := by
  refine ⟨fits.kept, fits.slice, ?_, ?_⟩
  · rw [(Represents.merge_base follower prev entries).1]
    exact fits.above
  · exact (related.agree_given fits le_rfl (by omega)).term

theorem merge_again :
    ((follower.merge prev entries).1.merge prev entries).1 = (follower.merge prev entries).1 := by
  have merged := related.merge fits
  have fitsAgain := related.fits_again fits
  refine merge_eq_self merged.followerIndexed (fits.numbered related.leaderIndexed).1
    fitsAgain.above ?_ ?_
  · rw [fitsAgain.conflicts_iff related.leaderIndexed]
    rintro ⟨index, after, upTo, term, known, differs⟩
    rcases (related.agree_given fits after.le upTo).term with ⟨shared, isShared, leaderShared⟩
    rw [known] at isShared
    exact differs (leaderShared.trans isShared.symm)
  · rcases (related.agree_given fits (Nat.le_add_right _ _) le_rfl).term with ⟨term, known, _⟩
    exact le_lastIndex_of_termAt merged.followerIndexed known

end

section Twice

variable {prev' : ℕ} {entries' : List Entry}

section

variable (related : leader.Related follower) (fits : leader.Fits follower prev entries)

include related fits

theorem agree_twice (other : leader.Fits follower prev' entries')
    (next : leader.Fits (follower.merge prev entries).1 prev' entries')
    (after : min prev prev' < index)
    (upTo : index ≤ max (prev + entries.length) (prev' + entries'.length)) :
    ((follower.merge prev entries).1.merge prev' entries').1.Agree leader index := by
  have merged := related.merge fits
  by_cases second : prev' ≤ index ∧ index ≤ prev' + entries'.length
  · exact merged.agree_given next second.1 second.2
  apply merged.agree_merge next
  by_cases first : prev ≤ index ∧ index ≤ prev + entries.length
  · exact related.agree_given fits first.1 first.2
  apply related.agree_merge fits
  -- In a gap between the two, the follower has all along had what the leader has.
  have above := fits.above
  have kept := fits.kept
  have otherAbove := other.above
  have otherKept := other.kept
  rcases Nat.lt_or_ge index prev with early | notEarly
  · exact related.agree_below (related.agree_prev fits) early.le (by omega) (by omega)
  · exact related.agree_below (related.agree_prev other) (by omega) (by omega) (by omega)

theorem get_twice (next : leader.Fits (follower.merge prev entries).1 prev' entries')
    (other : leader.Fits follower prev' entries') (behind : prev + entries.length < index)
    (behind' : prev' + entries'.length < index) :
    (follower.Conflicts entries ∨ follower.Conflicts entries' →
      ((follower.merge prev entries).1.merge prev' entries').1.get index = none) ∧
    (¬ (follower.Conflicts entries ∨ follower.Conflicts entries') →
      ((follower.merge prev entries).1.merge prev' entries').1.get index = follower.get index) := by
  rcases (get_merge related fits index).2.2 behind with ⟨cut, kept⟩
  rcases (get_merge (related.merge fits) next index).2.2 behind' with ⟨cutAgain, keptAgain⟩
  have none_of_none : (follower.merge prev entries).1.get index = none →
      ((follower.merge prev entries).1.merge prev' entries').1.get index = none := by
    intro nothing
    by_cases conflict : (follower.merge prev entries).1.Conflicts entries'
    · exact cutAgain conflict
    · exact (keptAgain conflict).trans nothing
  by_cases conflict : follower.Conflicts entries
  · exact ⟨fun _ => none_of_none (cut conflict), fun clean => absurd (Or.inl conflict) clean⟩
  cases held : follower.get index with
  | none =>
    have nothing := none_of_none ((kept conflict).trans held)
    exact ⟨fun _ => nothing, fun _ => nothing⟩
  | some entry =>
    have has := ((get_isSome_iff related.followerIndexed).mp (by rw [held]; rfl)).2
    have same := merge_eq_self related.followerIndexed (fits.numbered related.leaderIndexed).1
      fits.above conflict (by omega)
    rw [same]
    rcases (get_merge related other index).2.2 behind' with ⟨cut', kept'⟩
    refine ⟨fun either => cut' (either.resolve_left conflict), fun clean => ?_⟩
    rw [kept' fun conflict' => clean (Or.inr conflict'), held]

theorem merge_comm (fits' : leader.Fits follower prev' entries')
    (next : leader.Fits (follower.merge prev entries).1 prev' entries')
    (next' : leader.Fits (follower.merge prev' entries').1 prev entries) :
    ((follower.merge prev entries).1.merge prev' entries').1 =
      ((follower.merge prev' entries').1.merge prev entries).1 := by
  have merged := related.merge fits
  have merged' := related.merge fits'
  rcases Represents.merge_base follower prev entries with ⟨index₁, term₁, config₁⟩
  rcases Represents.merge_base follower prev' entries' with ⟨index₂, term₂, config₂⟩
  rcases Represents.merge_base (follower.merge prev entries).1 prev' entries' with
    ⟨index₁₂, term₁₂, config₁₂⟩
  rcases Represents.merge_base (follower.merge prev' entries').1 prev entries with
    ⟨index₂₁, term₂₁, config₂₁⟩
  refine ext_of_get (merged.merge next).followerIndexed (merged'.merge next').followerIndexed
    (by omega) (by omega) (by rw [config₁₂, config₁, config₂₁, config₂]) fun index => ?_
  rcases Nat.lt_or_ge (min prev prev') index with after | early
  swap
  · rw [(get_merge merged next index).1 (by omega), (get_merge related fits index).1 (by omega),
      (get_merge merged' next' index).1 (by omega), (get_merge related fits' index).1 (by omega)]
  rcases Nat.lt_or_ge (max (prev + entries.length) (prev' + entries'.length)) index with late | upTo
  · have behind : prev + entries.length < index := by omega
    have behind' : prev' + entries'.length < index := by omega
    rcases related.get_twice fits next fits' behind behind' with ⟨cut, kept⟩
    rcases related.get_twice fits' next' fits behind' behind with ⟨cut', kept'⟩
    by_cases conflict : follower.Conflicts entries ∨ follower.Conflicts entries'
    · rw [cut conflict, cut' conflict.symm]
    · rw [kept conflict, kept' fun either => conflict either.symm]
  · have above := fits.above
    have above' := fits'.above
    have kept := fits.kept
    have kept' := fits'.kept
    rw [(related.agree_twice fits fits' next after upTo).get_eq (by omega) (by omega),
      (related.agree_twice fits' fits next' (by omega) (by omega)).get_eq (by omega) (by omega)]

end

end Twice

end Related

/-- Stale, duplicated and reordered appends never undo progress. A follower that takes a slice of
a leader's log agrees with it on all of the slice and wherever it agreed before. Its own entries
behind the slice survive just if nothing in the slice contradicts it. Taking the slice again
changes nothing, and the order of two slices does not matter. -/
theorem merge_never_undoes {leader follower : Log} (related : leader.Related follower) {prev : ℕ}
    {entries : List Entry} (fits : leader.Fits follower prev entries) :
    let merged := (follower.merge prev entries).1
    (∀ index, prev ≤ index → index ≤ prev + entries.length → merged.Agree leader index) ∧
    (∀ index, follower.Agree leader index → merged.Agree leader index) ∧
    (∀ index entry, prev + entries.length < index → follower.get index = some entry →
      (merged.get index = some entry ↔ ¬ follower.Conflicts entries)) ∧
    (merged.merge prev entries).1 = merged ∧
    ∀ prev' entries', leader.Fits follower prev' entries' → leader.Fits merged prev' entries' →
      leader.Fits (follower.merge prev' entries').1 prev entries →
      (merged.merge prev' entries').1 =
        ((follower.merge prev' entries').1.merge prev entries).1 := by
  intro merged
  refine ⟨fun _ => related.agree_given fits, fun _ => related.agree_merge fits, ?_,
    related.merge_again fits, fun _ _ => related.merge_comm fits⟩
  intro index entry behind held
  rcases (get_merge related fits index).2.2 behind with ⟨cut, kept⟩
  constructor
  · intro survives conflict
    rw [cut conflict] at survives
    cases survives
  · exact fun clean => (kept clean).trans held

/-- A follower with two entries of a deposed leader learns the first that replaces them. -/
theorem merge_never_undoes_contradicted :
    let leader : Log := { new with entries := [⟨1, 1, .noop⟩, ⟨2, 2, .noop⟩, ⟨2, 3, .noop⟩] }
    let follower : Log := { new with entries := [⟨1, 1, .noop⟩, ⟨1, 2, .noop⟩, ⟨1, 3, .noop⟩] }
    leader.Related follower ∧ leader.Fits follower 1 [⟨2, 2, .noop⟩] ∧
      (follower.merge 1 [⟨2, 2, .noop⟩]).1.get 3 ≠ some ⟨1, 3, .noop⟩ := by
  intro leader follower
  have related : leader.Related follower := by
    refine ⟨?_, ?_, ?_⟩
    · rintro (_ | _ | _ | position) entry found <;> simp [leader] at found <;> subst found <;> rfl
    · rintro (_ | _ | _ | position) entry found <;> simp [follower] at found <;> subst found <;> rfl
    · intro index term known leaderKnown below isBelow first second isFirst isSecond
      have early : index ≤ 1 := by
        by_contra late
        have last := le_of_termAt_eq_some (show follower.snapshotIndex < index from by
          change 0 < index
          omega) known
        change index ≤ 3 at last
        obtain rfl | rfl : index = 2 ∨ index = 3 := by omega
        · exact absurd (known.trans leaderKnown.symm) (by decide)
        · exact absurd (known.trans leaderKnown.symm) (by decide)
      obtain rfl | rfl : below = 0 ∨ below = 1 := by omega
      · exact ⟨⟨0, rfl, rfl⟩, nofun⟩
      · exact agree_of_get (by decide) (by decide) rfl rfl
  have fits : leader.Fits follower 1 [⟨2, 2, .noop⟩] :=
    ⟨by decide, ⟨3, by decide⟩, by decide, ⟨1, rfl, rfl⟩⟩
  refine ⟨related, fits, ?_⟩
  intro survives
  refine ((merge_never_undoes related fits).2.2.1 3 ⟨1, 3, .noop⟩ (by decide) rfl).mp survives ?_
  exact ⟨⟨2, 2, .noop⟩, by simp, 1, rfl, by decide⟩

end Log

end ChronoScope.Chronolog
