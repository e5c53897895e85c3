import Mathlib.Logic.Relation

/-!
# Crashes that lose what was not put down

A part of a system forgets in a crash what it has taken in since it last put
everything down. It is rolled back if it has not taken that in yet. Whatever the
rest of the system does meanwhile can be done beside the part rolled back, so that
every run in which parts crash at any time can be replaced by one in which nothing
is ever forgotten.
-/

namespace ChronoScope.Consensus

open Relation (ReflTransGen)

variable {α ι : Type}

def WithCrashes (step : α → α → Prop) (crash : ι → α → α → Prop) (before after : α) : Prop :=
  step before after ∨ ∃ part, crash part before after

/-- What is asked of `rolled`, which relates a state with a part rolled back to the state itself:
it goes along with every step, or has an end with it; and a crash takes the part where it can go by
itself when it is rolled back. What is not rolled back is `kept`. -/
structure Rollback (step : α → α → Prop) (crash rolled : ι → α → α → Prop)
    (kept : α → α → Prop) (start : α) : Prop where
  initially : ∀ part, rolled part start start
  along : ∀ {part back state after}, rolled part back state → step state after →
    (∃ ahead, ReflTransGen step back ahead ∧ rolled part ahead after) ∨ rolled part after after
  recovers : ∀ {part back state after}, rolled part back state → crash part state after →
    ReflTransGen step back after
  refl : ∀ state, kept state state
  trans : ∀ {first second third}, kept first second → kept second third → kept first third
  keeps : ∀ {part back state}, rolled part back state → kept back state

namespace Rollback

variable {step : α → α → Prop} {crash rolled : ι → α → α → Prop} {kept : α → α → Prop}
  {start state early late : α} (rollback : Rollback step crash rolled kept start)

include rollback

theorem exists_rolled (reached : ReflTransGen step start state) (part : ι) :
    ∃ back, ReflTransGen step start back ∧ rolled part back state := by
  induction reached with
  | refl => exact ⟨start, .refl, rollback.initially part⟩
  | tail reached stepped ih =>
    rcases ih with ⟨back, reachedBack, isBack⟩
    rcases rollback.along isBack stepped with ⟨ahead, steps, isAhead⟩ | idle
    · exact ⟨ahead, reachedBack.trans steps, isAhead⟩
    · exact ⟨_, reached.tail stepped, idle⟩

theorem exists_rolled_since (earlyReached : ReflTransGen step start early)
    (lateReached : ReflTransGen step early late) (part : ι) :
    ∃ since back, ReflTransGen step start since ∧ kept since early ∧
      ReflTransGen step since back ∧ rolled part back late := by
  induction lateReached with
  | refl =>
    rcases rollback.exists_rolled earlyReached part with ⟨back, reachedBack, isBack⟩
    exact ⟨back, back, reachedBack, rollback.keeps isBack, .refl, isBack⟩
  | tail reached stepped ih =>
    rcases ih with ⟨since, back, sinceReached, isKept, reachedBack, isBack⟩
    rcases rollback.along isBack stepped with ⟨ahead, steps, isAhead⟩ | idle
    · exact ⟨since, ahead, sinceReached, isKept, reachedBack.trans steps, isAhead⟩
    · exact ⟨early, _, earlyReached, rollback.refl early, reached.tail stepped, idle⟩

theorem reaches (reached : ReflTransGen (WithCrashes step crash) start state) :
    ReflTransGen step start state := by
  induction reached with
  | refl => exact .refl
  | tail _ happens ih =>
    rcases happens with stepped | ⟨part, crashed⟩
    · exact ih.tail stepped
    · rcases rollback.exists_rolled ih part with ⟨back, reachedBack, isBack⟩
      exact reachedBack.trans (rollback.recovers isBack crashed)

/-- Of two moments of a run with crashes, the later one can be reached without crashes from the
earlier one with some parts rolled back. -/
theorem reaches_since (earlyReached : ReflTransGen (WithCrashes step crash) start early)
    (lateReached : ReflTransGen (WithCrashes step crash) early late) :
    ∃ since, ReflTransGen step start since ∧ kept since early ∧ ReflTransGen step since late := by
  induction lateReached with
  | refl => exact ⟨early, rollback.reaches earlyReached, rollback.refl early, .refl⟩
  | tail _ happens ih =>
    rcases ih with ⟨since, sinceReached, isKept, reached⟩
    rcases happens with stepped | ⟨part, crashed⟩
    · exact ⟨since, sinceReached, isKept, reached.tail stepped⟩
    · rcases rollback.exists_rolled_since sinceReached reached part with
        ⟨since', back, sinceReached', isKept', reachedBack, isBack⟩
      exact ⟨since', sinceReached', rollback.trans isKept' isKept,
        reachedBack.trans (rollback.recovers isBack crashed)⟩

end Rollback

end ChronoScope.Consensus
