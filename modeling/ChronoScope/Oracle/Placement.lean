import ChronoScope.Oracle.Linearizability

/-!
# What the frontier and the mask stand for

A configuration stands for the set of operations placed so far: all those before
the frontier, and those ahead of it whose bit is set. Placing an operation adds
exactly that one. A candidate is admitted if it is invoked before the frontier
operation returns, and this is the only thing that is asked of it.
-/

namespace ChronoScope.Oracle

def Placed (frontier mask index : ℕ) : Prop :=
  index < frontier ∨ frontier < index ∧ mask.testBit (index - frontier - 1) = true

instance (frontier mask index : ℕ) : Decidable (Placed frontier mask index) :=
  inferInstanceAs (Decidable (_ ∨ _ ∧ _))

/-- Only the bits of the window are ever set. -/
def Narrow (mask : ℕ) : Prop := ∀ bit, mask.testBit bit = true → bit < ahead

theorem not_placed_frontier (frontier mask : ℕ) : ¬ Placed frontier mask frontier := by
  unfold Placed
  omega

theorem narrow_zero : Narrow 0 := by
  intro bit isSet
  simp at isSet

theorem trailingOnes_spec (mask : ℕ) :
    (∀ bit < trailingOnes mask, mask.testBit bit = true) ∧
      (trailingOnes mask < 64 → mask.testBit (trailingOnes mask) = false) := by
  have general : ∀ (count start : ℕ),
      let run := ((List.range' start count).takeWhile fun bit => mask.testBit bit).length
      (∀ bit < run, mask.testBit (start + bit) = true) ∧
        (run < count → mask.testBit (start + run) = false) := by
    intro count
    induction count with
    | zero => simp
    | succ count ih =>
      intro start
      rw [List.range'_succ, List.takeWhile_cons]
      by_cases isSet : mask.testBit start = true
      · rcases ih (start + 1) with ⟨below, stop⟩
        simp only [isSet, if_true, List.length_cons]
        refine ⟨?_, ?_⟩
        · intro bit inRun
          cases bit with
          | zero => exact isSet
          | succ bit =>
            have := below bit (by omega)
            rwa [Nat.add_right_comm] at this
        · intro ends
          have := stop (by omega)
          rwa [Nat.add_right_comm] at this
      · simp [isSet]
  have := general 64 0
  simpa [trailingOnes, List.range_eq_range'] using this

theorem trailingOnes_le_ahead {mask : ℕ} (narrow : Narrow mask) : trailingOnes mask ≤ ahead := by
  by_contra beyond
  have isSet := (trailingOnes_spec mask).1 ahead (by omega)
  exact absurd (narrow ahead isSet) (lt_irrefl _)

theorem testBit_trailingOnes {mask : ℕ} (narrow : Narrow mask) :
    mask.testBit (trailingOnes mask) = false := by
  apply (trailingOnes_spec mask).2
  have := trailingOnes_le_ahead narrow
  rw [ahead] at this
  omega

theorem testBit_shifted {mask : ℕ} (narrow : Narrow mask) (bit : ℕ) :
    (if trailingOnes mask + 1 ≥ 64 then 0 else mask >>> (trailingOnes mask + 1)).testBit bit =
      mask.testBit (trailingOnes mask + 1 + bit) := by
  split_ifs with wide
  · rw [Nat.zero_testBit]
    by_contra isSet
    have := narrow _ (by simpa using isSet)
    rw [ahead] at this
    omega
  · rw [Nat.testBit_shiftRight]

theorem narrow_place {frontier mask offset : ℕ} (narrow : Narrow mask) (window : offset ≤ ahead) :
    Narrow (place frontier mask offset).2 := by
  intro bit isSet
  unfold place at isSet
  split_ifs at isSet with atFrontier
  · simp only [testBit_shifted narrow] at isSet
    have := narrow _ isSet
    omega
  · simp only [Nat.testBit_or, Bool.or_eq_true, Nat.one_shiftLeft, Nat.testBit_two_pow] at isSet
    rcases isSet with before | added
    · exact narrow bit before
    · have : offset - 1 = bit := by simpa using added
      omega

theorem placed_place {frontier mask offset : ℕ} (narrow : Narrow mask) (index : ℕ) :
    Placed (place frontier mask offset).1 (place frontier mask offset).2 index ↔
      Placed frontier mask index ∨ index = frontier + offset := by
  unfold place
  split_ifs with atFrontier
  · subst atFrontier
    simp only [Placed, testBit_shifted narrow, Nat.add_zero]
    have run := (trailingOnes_spec mask).1
    have stop := testBit_trailingOnes narrow
    generalize trailingOnes mask = count at run stop
    constructor
    · rintro (below | ⟨above, isSet⟩)
      · rcases Nat.lt_trichotomy index frontier with before | rfl | after
        · exact Or.inl (Or.inl before)
        · exact Or.inr rfl
        · exact Or.inl (Or.inr ⟨after, run _ (by omega)⟩)
      · refine Or.inl (Or.inr ⟨by omega, ?_⟩)
        rwa [show count + 1 + (index - (frontier + 1 + count) - 1) = index - frontier - 1 by omega]
          at isSet
    · rintro ((before | ⟨after, isSet⟩) | rfl)
      · exact Or.inl (by omega)
      · rcases Nat.lt_trichotomy index (frontier + 1 + count) with inRun | atStop | beyond
        · exact Or.inl inRun
        · rw [atStop, show frontier + 1 + count - frontier - 1 = count by omega, stop] at isSet
          cases isSet
        · refine Or.inr ⟨beyond, ?_⟩
          rwa [show count + 1 + (index - (frontier + 1 + count) - 1) = index - frontier - 1
            by omega]
      · exact Or.inl (by omega)
  · simp only [Placed, Nat.testBit_or, Bool.or_eq_true, Nat.one_shiftLeft, Nat.testBit_two_pow,
      decide_eq_true_eq]
    constructor
    · rintro (before | ⟨after, isSet | isNew⟩)
      · exact Or.inl (Or.inl before)
      · exact Or.inl (Or.inr ⟨after, isSet⟩)
      · exact Or.inr (by omega)
    · rintro ((before | ⟨after, isSet⟩) | rfl)
      · exact Or.inl before
      · exact Or.inr ⟨after, Or.inl isSet⟩
      · exact Or.inr ⟨by omega, Or.inr (by omega)⟩

/-- The operation at an offset from the frontier may be placed next, with the model after it;
if it is skipped, it takes no effect. -/
structure Admits (events : List Event) (config : Config) (offset : ℕ) (skip : Bool)
    (event : Event) (model : Model) : Prop where
  present : events[config.2.1 + offset]? = some event
  window : offset ≤ ahead
  unplaced : ¬ Placed config.2.1 config.2.2 (config.2.1 + offset)
  inTime : ∀ blocking, events[config.2.1]? = some blocking → event.invoked ≤ blocking.returned
  effect : if skip then event.isUnknown = true ∧ model = { value := config.1 }
    else Model.step { value := config.1 } event = some model

/-- The configuration after a move. -/
def Config.after (config : Config) (offset : ℕ) (model : Model) : Config :=
  (model.value, place config.2.1 config.2.2 offset)

section Turns

variable {events : List Event} {frame : Frame}

theorem placed_offset_iff {frontier mask offset : ℕ} :
    Placed frontier mask (frontier + offset) ↔ offset > 0 ∧ mask.testBit (offset - 1) = true := by
  unfold Placed
  rw [show frontier + offset - frontier - 1 = offset - 1 by omega]
  constructor
  · rintro (impossible | ⟨ahead, isSet⟩)
    · omega
    · exact ⟨by omega, isSet⟩
  · exact fun ⟨positive, isSet⟩ => Or.inr ⟨by omega, isSet⟩

theorem turn_of_present {event blocking : Event}
    (found : events[frame.frontier + frame.cursor / 2]? = some event)
    (blocks : events[frame.frontier]? = some blocking) :
    turn events frame =
      if frame.cursor / 2 > ahead then .halt (decide (event.invoked ≤ blocking.returned))
      else if frame.cursor / 2 > 0 ∧ frame.mask.testBit (frame.cursor / 2 - 1) = true then .pass
      else if event.invoked > blocking.returned then .halt false
      else if frame.cursor % 2 = 1 ∧ event.isUnknown = false then .pass
      else
        match if frame.cursor % 2 = 1 then some frame.model else frame.model.step event with
        | none => .pass
        | some model =>
          .move (frame.frontier + frame.cursor / 2) model
            (place frame.frontier frame.mask (frame.cursor / 2)).1
            (place frame.frontier frame.mask (frame.cursor / 2)).2 := by
  unfold turn
  dsimp only
  generalize events[frame.frontier + frame.cursor / 2]? = read at found ⊢
  generalize events[frame.frontier]? = head at blocks ⊢
  subst found blocks
  rfl

theorem exists_blocking {index : ℕ} {event : Event} {frontier : ℕ} (below : frontier ≤ index)
    (found : events[index]? = some event) : ∃ blocking, events[frontier]? = some blocking := by
  have inside : frontier < events.length :=
    below.trans_lt (List.getElem?_eq_some_iff.mp found).1
  exact ⟨events[frontier], List.getElem?_eq_getElem inside⟩

theorem admits_of_turn {index : ℕ} {model : Model} {frontier mask : ℕ}
    (moved : turn events frame = .move index model frontier mask) :
    ∃ event, Admits events frame.config (frame.cursor / 2) (decide (frame.cursor % 2 = 1)) event
        model ∧
      (frontier, mask) = place frame.frontier frame.mask (frame.cursor / 2) := by
  cases found : events[frame.frontier + frame.cursor / 2]? with
  | none => simp [turn, found] at moved
  | some event =>
    rcases exists_blocking (Nat.le_add_right ..) found with ⟨blocking, blocks⟩
    rw [turn_of_present found blocks] at moved
    by_cases beyond : frame.cursor / 2 > ahead
    · rw [if_pos beyond] at moved
      cases moved
    rw [if_neg beyond] at moved
    by_cases isPlaced : frame.cursor / 2 > 0 ∧
        frame.mask.testBit (frame.cursor / 2 - 1) = true
    · rw [if_pos isPlaced] at moved
      cases moved
    rw [if_neg isPlaced] at moved
    by_cases late : event.invoked > blocking.returned
    · rw [if_pos late] at moved
      cases moved
    rw [if_neg late] at moved
    by_cases known : frame.cursor % 2 = 1 ∧ event.isUnknown = false
    · rw [if_pos known] at moved
      cases moved
    rw [if_neg known] at moved
    have admitted (model : Model) (effect : if decide (frame.cursor % 2 = 1) = true then
          event.isUnknown = true ∧ model = { value := frame.model.value }
        else Model.step { value := frame.model.value } event = some model) :
        Admits events frame.config (frame.cursor / 2) (decide (frame.cursor % 2 = 1)) event
          model := by
      refine ⟨found, Nat.not_lt.mp beyond, mt placed_offset_iff.mp isPlaced, ?_, effect⟩
      intro other isOther
      rw [Frame.config] at isOther
      rw [blocks] at isOther
      cases isOther
      exact Nat.not_lt.mp late
    by_cases skipped : frame.cursor % 2 = 1
    · rw [if_pos skipped] at moved
      cases moved
      refine ⟨event, admitted _ ?_, rfl⟩
      rw [if_pos (by simpa using skipped)]
      exact ⟨by simpa [skipped] using known, rfl⟩
    · rw [if_neg skipped] at moved
      cases stepped : frame.model.step event with
      | none => simp [stepped] at moved
      | some model =>
        rw [stepped] at moved
        cases moved
        refine ⟨event, admitted _ ?_, rfl⟩
        rw [if_neg (by simpa using skipped)]
        exact stepped

theorem turn_of_admits {skip : Bool} {event : Event} {model : Model}
    (admits : Admits events frame.config (frame.cursor / 2) skip event model)
    (cursorIs : skip = decide (frame.cursor % 2 = 1)) :
    turn events frame = .move (frame.frontier + frame.cursor / 2) model
      (place frame.frontier frame.mask (frame.cursor / 2)).1
      (place frame.frontier frame.mask (frame.cursor / 2)).2 := by
  have found : events[frame.frontier + frame.cursor / 2]? = some event := admits.present
  rcases exists_blocking (Nat.le_add_right ..) found with ⟨blocking, blocks⟩
  have inTime := admits.inTime blocking blocks
  have effect := admits.effect
  have unplaced : ¬ Placed frame.frontier frame.mask (frame.frontier + frame.cursor / 2) :=
    admits.unplaced
  rw [turn_of_present found blocks, if_neg (Nat.not_lt.mpr admits.window),
    if_neg (mt placed_offset_iff.mpr unplaced), if_neg (Nat.not_lt.mpr inTime)]
  by_cases skipped : frame.cursor % 2 = 1
  · rw [cursorIs, if_pos (by simpa using skipped)] at effect
    rw [if_neg (by simp [effect.1]), if_pos skipped, effect.2]
    rfl
  · rw [cursorIs, if_neg (by simpa using skipped)] at effect
    rw [if_neg (fun both => skipped both.1), if_neg skipped]
    have stepped : frame.model.step event = some model := effect
    rw [stepped]

theorem turn_ne_halt {skip : Bool} {event : Event} {model : Model} {offset : ℕ}
    (sorted : events.Pairwise fun left right => left.invoked ≤ right.invoked)
    (admits : Admits events frame.config offset skip event model)
    (earlier : frame.cursor / 2 ≤ offset) (boundedOut : Bool) :
    turn events frame ≠ .halt boundedOut := by
  have found : events[frame.frontier + offset]? = some event := admits.present
  rcases exists_blocking (Nat.le_add_right ..) found with ⟨blocking, blocks⟩
  rcases exists_blocking (Nat.add_le_add_left earlier frame.frontier) found with
    ⟨candidate, isCandidate⟩
  have inTime : candidate.invoked ≤ blocking.returned := by
    apply le_trans _ (admits.inTime blocking blocks)
    rcases earlier.eq_or_lt with same | strictly
    · rw [same, found] at isCandidate
      cases isCandidate
      exact le_rfl
    · rcases List.getElem?_eq_some_iff.mp isCandidate with ⟨_, rfl⟩
      rcases List.getElem?_eq_some_iff.mp found with ⟨_, rfl⟩
      exact List.pairwise_iff_getElem.mp sorted _ _ _ _ (by omega)
  rw [turn_of_present isCandidate blocks,
    if_neg (Nat.not_lt.mpr (earlier.trans admits.window))]
  split_ifs with isPlaced late known
  · simp
  · omega
  · simp
  · split <;> simp
  · split <;> simp

end Turns

section Moves

variable {events : List Event}

theorem mem_movesFrom {turns : ℕ} {frame : Frame} {next : Config}
    (member : next ∈ movesFrom events turns frame) :
    ∃ offset skip event model, Admits events frame.config offset skip event model ∧
      next = Config.after frame.config offset model := by
  induction turns generalizing frame with
  | zero => cases member
  | succ turns ih =>
    simp only [movesFrom] at member
    cases taken : turn events frame with
    | halt boundedOut => simp [taken] at member
    | pass =>
      rw [taken] at member
      exact @ih { frame with cursor := frame.cursor + 1 } member
    | move index model frontier mask =>
      rw [taken] at member
      rcases List.mem_cons.mp member with rfl | later
      · rcases admits_of_turn taken with ⟨event, admits, placed⟩
        exact ⟨_, _, event, model, admits, congrArg (Prod.mk model.value) placed⟩
      · exact @ih { frame with cursor := frame.cursor + 1 } later

theorem movesFrom_mem (sorted : events.Pairwise fun left right => left.invoked ≤ right.invoked)
    (turns : ℕ) (frame : Frame) {offset : ℕ} {skip : Bool} {event : Event} {model : Model}
    (admits : Admits events frame.config offset skip event model)
    (ahead_of : frame.cursor ≤ 2 * offset + skip.toNat)
    (reaches : 2 * offset + skip.toNat < frame.cursor + turns) :
    Config.after frame.config offset model ∈ movesFrom events turns frame := by
  induction turns generalizing frame with
  | zero => omega
  | succ turns ih =>
    have skipBound : skip.toNat ≤ 1 := Bool.toNat_le skip
    simp only [movesFrom]
    rcases ahead_of.eq_or_lt with here | later
    · have offsetIs : frame.cursor / 2 = offset := by omega
      have skipIs : skip = decide (frame.cursor % 2 = 1) := by
        cases skip <;> simp at here ⊢ <;> omega
      subst offsetIs
      rw [turn_of_admits admits skipIs]
      exact List.mem_cons_self ..
    · have rest := ih { frame with cursor := frame.cursor + 1 } admits later
        (by simp only; omega)
      cases taken : turn events frame with
      | halt boundedOut => exact absurd taken (turn_ne_halt sorted admits (by omega) boundedOut)
      | pass => exact rest
      | move => exact List.mem_cons_of_mem _ rest

/-- The moves of a configuration are admitted, and over sorted events all that is admitted is
a move. -/
theorem mem_moves {config next : Config} (member : next ∈ moves events config) :
    ∃ offset skip event model, Admits events config offset skip event model ∧
      next = Config.after config offset model :=
  mem_movesFrom member

theorem moves_mem (sorted : events.Pairwise fun left right => left.invoked ≤ right.invoked)
    {config : Config} {offset : ℕ} {skip : Bool} {event : Event} {model : Model}
    (admits : Admits events config offset skip event model) :
    Config.after config offset model ∈ moves events config := by
  refine movesFrom_mem sorted cursorEnd (Config.frame config none) admits (Nat.zero_le _) ?_
  have window := admits.window
  have skipBound : skip.toNat ≤ 1 := Bool.toNat_le skip
  simp only [Config.frame, cursorEnd]
  omega

end Moves

end ChronoScope.Oracle
