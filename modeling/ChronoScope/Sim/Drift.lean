import Mathlib.Algebra.Order.Group.Abs
import Mathlib.Algebra.Order.Ring.Int

/-!
# Clocks that drift

A node's crystal runs fast or slow by a number of parts per million. Its clock
scales the true time by that rate, and a sleep, which the node measures on its own
clock, is scaled by the inverse before it is scheduled. Both divisions truncate.
-/

namespace ChronoScope.Sim

/-- `u64::MAX`, the end of time. -/
def nanosMax : ℕ := 2 ^ 64 - 1

/-- `t * (1 + ppm / 1e6)`, before it is clamped. -/
def drifted (t : ℕ) (ppm : ℤ) : ℤ := t + (t * ppm).tdiv 1000000

def applyDrift (t : ℕ) (ppm : ℤ) : ℕ :=
  if ppm = 0 then t else (min (max (drifted t ppm) 0) nanosMax).toNat

/-- How long a sleep is in true time, before it is cut to 64 bits. -/
def trueDur (dur : ℕ) (ppm : ℤ) : ℕ :=
  if ppm = 0 then dur else (max ((dur * 1000000 : ℤ).tdiv (1000000 + ppm)) 0).toNat

/-- When the timer of a sleep goes off. -/
def sleepUntil (now dur : ℕ) (ppm : ℤ) : ℕ := min (now + trueDur dur ppm % 2 ^ 64) nanosMax

/-- Truncation is towards zero: fast clocks are rounded down, slow ones up. -/
theorem drifted_rounded (t : ℕ) (ppm : ℤ) :
    (0 ≤ ppm → 1000000 * drifted t ppm ≤ t * (1000000 + ppm) ∧
      t * (1000000 + ppm) < 1000000 * drifted t ppm + 1000000) ∧
    (ppm ≤ 0 → t * (1000000 + ppm) ≤ 1000000 * drifted t ppm ∧
      1000000 * drifted t ppm < t * (1000000 + ppm) + 1000000) := by
  rw [drifted, mul_add (t : ℤ)]
  refine ⟨fun fast => ?_, fun slow => ?_⟩
  · have positive : 0 ≤ t * ppm := Int.mul_nonneg (Int.natCast_nonneg t) fast
    rw [Int.tdiv_eq_ediv_of_nonneg positive]
    generalize t * ppm = gained at *
    omega
  · have positive : 0 ≤ t * -ppm := Int.mul_nonneg (Int.natCast_nonneg t) (by omega)
    rw [← neg_neg (t * ppm), ← mul_neg, Int.neg_tdiv, Int.tdiv_eq_ediv_of_nonneg positive]
    generalize t * -ppm = lost at *
    omega

section Rate

variable {ppm : ℤ} (rate : |ppm| < 1000000)
include rate

theorem drifted_mono {t later : ℕ} (le : t ≤ later) : drifted t ppm ≤ drifted later ppm := by
  rw [abs_lt] at rate
  have scaled : t * (1000000 + ppm) ≤ later * (1000000 + ppm) :=
    Int.mul_le_mul_of_nonneg_right (Int.ofNat_le.mpr le) (by omega)
  have earlier := drifted_rounded t ppm
  have late := drifted_rounded later ppm
  generalize t * (1000000 + ppm) = scaledEarlier at *
  generalize later * (1000000 + ppm) = scaledLater at *
  omega

theorem applyDrift_of_fits {t : ℕ} (fits : drifted t ppm ≤ nanosMax) :
    (applyDrift t ppm : ℤ) = drifted t ppm := by
  have positive : 0 ≤ drifted t ppm := by simpa [drifted] using drifted_mono rate (Nat.zero_le t)
  unfold applyDrift
  split_ifs with exact
  · simp [drifted, exact]
  · rw [max_eq_left positive, min_eq_left fits, Int.toNat_of_nonneg positive]

theorem applyDrift_mono {t later : ℕ} (le : t ≤ later) :
    applyDrift t ppm ≤ applyDrift later ppm := by
  unfold applyDrift
  split_ifs
  · exact le
  · have := drifted_mono rate le
    omega

theorem trueDur_rounded (dur : ℕ) :
    trueDur dur ppm * (1000000 + ppm) ≤ dur * 1000000 ∧
      dur * 1000000 < trueDur dur ppm * (1000000 + ppm) + (1000000 + ppm) := by
  rw [abs_lt] at rate
  have quotient : (trueDur dur ppm : ℤ) = dur * 1000000 / (1000000 + ppm) := by
    unfold trueDur
    split_ifs with exact
    · simp [exact]
    · have positive : 0 ≤ dur * 1000000 / (1000000 + ppm) := Int.ediv_nonneg (by omega) (by omega)
      rw [Int.tdiv_eq_ediv_of_nonneg (by omega), max_eq_left positive, Int.toNat_of_nonneg positive]
  rw [quotient, mul_comm]
  exact ⟨Int.mul_ediv_self_le (by omega), Int.lt_mul_ediv_self_add (by omega)⟩

end Rate

/-- Drifting clocks never run backwards, and as long as all times fit, a sleep takes as long as it
should on the clock of the sleeper, up to two nanoseconds. -/
theorem drift_faithful (ppm : ℤ) (rate : |ppm| < 1000000) :
    (∀ t later, t ≤ later → applyDrift t ppm ≤ applyDrift later ppm) ∧
    ∀ start dur, start + trueDur dur ppm ≤ nanosMax →
      drifted (start + trueDur dur ppm) ppm ≤ nanosMax →
      |(applyDrift (sleepUntil start dur ppm) ppm : ℤ) - applyDrift start ppm - dur| ≤ 2 := by
  refine ⟨fun t later le => applyDrift_mono rate le, ?_⟩
  intro start dur fits driftedFits
  have startFits := (drifted_mono rate (Nat.le_add_right start (trueDur dur ppm))).trans driftedFits
  have instant : sleepUntil start dur ppm = start + trueDur dur ppm := by
    have small : trueDur dur ppm < 2 ^ 64 := by unfold nanosMax at fits; omega
    rw [sleepUntil, Nat.mod_eq_of_lt small, min_eq_left fits]
  rw [instant, applyDrift_of_fits rate driftedFits, applyDrift_of_fits rate startFits, abs_le]
  have begun := drifted_rounded start ppm
  have woken := drifted_rounded (start + trueDur dur ppm) ppm
  have slept := trueDur_rounded rate dur
  rw [Nat.cast_add, add_mul] at woken
  rw [abs_lt] at rate
  generalize start * (1000000 + ppm) = scaledStart at *
  generalize trueDur dur ppm * (1000000 + ppm) = scaledDur at *
  omega

theorem drift_faithful_fast :
    |(applyDrift (sleepUntil 1000 10000 3000) 3000 : ℤ) - applyDrift 1000 3000 - 10000| ≤ 2 :=
  (drift_faithful 3000 (by decide)).2 1000 10000 (by decide) (by decide)

end ChronoScope.Sim
