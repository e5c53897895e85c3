import Mathlib.Algebra.Group.Even
import Mathlib.Algebra.Ring.Parity
import Mathlib.Logic.Relation
import ChronoScope.Chronolog.Recovery

/-!
# A history of hard states

A node saves its hard state any number of times. Some saves fail without a
trace, except that they use up a sequence number. Then the power fails during
one more save. Recovery finds the record saved last, or the one that was being
written, in every case exactly if the number of failures since the last success
is even, or nothing was ever saved.
-/

namespace ChronoScope.Chronolog

open Sim

def Holding (image : Bytes) : Option SavedState → Prop
  | none => slotState image 0 = none ∧ slotState image 1 = none
  | some newest => 0 < newest.1 ∧ StateFits newest ∧
      frame (stateBody newest) <+: image.drop (newest.1 % 2 * stateSlot) ∧
      ∀ found, slotState image (1 - newest.1 % 2) = some found → found.1 < newest.1

def seqOf (newest : Option SavedState) : ℕ := (newest.map Prod.fst).getD 0

variable {slot : ℕ}

theorem newestState_of_lower {image : Bytes} (isSlot : slot = 0 ∨ slot = 1) {newest : SavedState}
    (here : slotState image slot = some newest)
    (lower : ∀ found, slotState image (1 - slot) = some found → found.1 < newest.1) :
    newestState image = (newest.2, newest.1) := by
  rcases isSlot with rfl | rfl
  · cases other : slotState image 1 with
    | none => simp [newestState, preferState, here, other]
    | some found =>
      have less := lower found other
      simp [newestState, preferState, here, other, Nat.not_le.mpr less]
  · cases other : slotState image 0 with
    | none => simp [newestState, preferState, here, other]
    | some found =>
      have less := lower found other
      simp [newestState, preferState, here, other, less.le]

theorem newestState_lt {image : Bytes} {bound : ℕ} (isSlot : slot = 0 ∨ slot = 1)
    (positive : 0 < bound) (lost : slotState image slot = none)
    (lower : ∀ found, slotState image (1 - slot) = some found → found.1 < bound) :
    (newestState image).2 < bound := by
  rcases isSlot with rfl | rfl
  · cases other : slotState image 1 with
    | none => simpa [newestState, preferState, lost, other] using positive
    | some found => simpa [newestState, preferState, lost, other] using lower found other
  · cases other : slotState image 0 with
    | none => simpa [newestState, preferState, lost, other] using positive
    | some found => simpa [newestState, preferState, lost, other] using lower found other

namespace Holding

variable {image : Bytes} {newest : Option SavedState}

section

variable (holding : Holding image newest)

include holding

theorem newestState_eq :
    newestState image = ((newest.map Prod.snd).getD .default, seqOf newest) := by
  cases newest with
  | none =>
    rcases holding with ⟨first, second⟩
    simp [newestState, preferState, first, second, seqOf]
  | some newest =>
    rcases holding with ⟨_, fits, framed, lower⟩
    exact newestState_of_lower (Nat.mod_two_eq_zero_or_one _) (slotState_of_isPrefix fits framed)
      lower

theorem seq_le (isSlot : slot = 0 ∨ slot = 1) {found : SavedState}
    (read : slotState image slot = some found) : found.1 ≤ seqOf newest := by
  cases newest with
  | none =>
    rcases holding with ⟨first, second⟩
    rcases isSlot with rfl | rfl
    · cases first.symm.trans read
    · cases second.symm.trans read
  | some newest =>
    rcases holding with ⟨_, fits, framed, lower⟩
    by_cases same : slot = newest.1 % 2
    · subst same
      cases (slotState_of_isPrefix fits framed).symm.trans read
      exact le_rfl
    · have other : slot = 1 - newest.1 % 2 := by omega
      rw [other] at read
      exact (lower found read).le

theorem splice (stable : Stable image) {saved : SavedState} (fits : StateFits saved)
    (newer : seqOf newest < saved.1) :
    Holding (Sim.splice image (saved.1 % 2 * stateSlot) (frame (stateBody saved)))
      (some saved) := by
  refine ⟨by omega, fits, isPrefix_drop_splice .., ?_⟩
  intro found read
  rw [slotState_splice_other (Nat.mod_two_eq_zero_or_one _) stable (length_frame_stateBody saved)]
    at read
  exact (holding.seq_le (by omega) read).trans_lt newer

theorem read_after {saved : SavedState} {image' : Bytes} (newer : seqOf newest < saved.1)
    (apart : ∀ record, newest = some record → record.1 % 2 = 1 - saved.1 % 2)
    (other : slotState image' (1 - saved.1 % 2) = slotState image (1 - saved.1 % 2))
    (target : slotState image' (saved.1 % 2) = some saved ∨
      slotState image' (saved.1 % 2) = slotState image (saved.1 % 2) ∨
        slotState image' (saved.1 % 2) = none) :
    newestState image' = ((newest.map Prod.snd).getD .default, seqOf newest) ∨
      newestState image' = (saved.2, saved.1) := by
  have isSlot := Nat.mod_two_eq_zero_or_one saved.1
  rcases target with complete | old
  · right
    refine newestState_of_lower isSlot complete ?_
    intro found read
    exact (holding.seq_le (by omega) (other.symm.trans read)).trans_lt newer
  · left
    cases newest with
    | none =>
      rcases holding with ⟨first, second⟩
      have nothing : slotState image' 0 = none ∧ slotState image' 1 = none := by
        rcases isSlot with even | odd
        · rw [even] at other old
          exact ⟨old.elim (fun same => same.trans first) id, other.trans second⟩
        · rw [odd] at other old
          exact ⟨other.trans first, old.elim (fun same => same.trans second) id⟩
      simp [newestState, preferState, nothing, seqOf]
    | some record =>
      rcases holding with ⟨_, fits, framed, lower⟩
      have slot := apart record rfl
      have back : 1 - record.1 % 2 = saved.1 % 2 := by omega
      have here := slotState_of_isPrefix fits framed
      rw [slot] at here
      rw [back] at lower
      refine newestState_of_lower (by omega) (other.trans here) ?_
      intro found read
      rw [show 1 - (1 - saved.1 % 2) = saved.1 % 2 by omega] at read
      rcases old with same | gone
      · exact lower found (same.symm.trans read)
      · cases gone.symm.trans read

end

end Holding

theorem slotState_eq_none {image : Bytes}
    (unreadable : ∀ body, Plausible maxRecord body →
      ¬ frame body <+: image.drop (slot * stateSlot)) :
    slotState image slot = none := by
  cases reading : slotState image slot with
  | none => rfl
  | some record =>
    rcases exists_frame_of_slotState reading with ⟨body, isPlausible, framed⟩
    exact absurd framed (unreadable body ⟨isPlausible.1, isPlausible.2.trans (by decide)⟩)

theorem crash_torn (disk : Disk FileName) {image torn data : Bytes} {offset : ℕ}
    (lands : Lands 1 [.write offset data] image torn)
    (unreadable : ∀ body, Plausible maxRecord body → ¬ frame body <+: torn.drop offset) :
    ∃ after, Crash 1 (disk.insert .state ((FileState.rebooted image).writeAt offset data)) after ∧
      after.get .state = some (.rebooted torn) := by
  refine ⟨_, crash_mapValues (fun name file => if name = .state then torn else file.durable) ?_,
    by simp⟩
  intro name file found
  rw [BTreeMap.get_insert] at found
  split_ifs at found ⊢ with isState
  · cases found
    refine ⟨lands, ?_⟩
    intro offset' data' member body isPlausible framed
    have here : offset' = offset := by
      have same : PendingOp.write offset' data' = .write offset data := by
        simpa [FileState.writeAt, FileState.issue, FileState.rebooted] using member
      exact (PendingOp.write.inj same).1
    rw [here] at framed
    exact absurd framed (unreadable body isPlausible)
  · exact ⟨.all_lost .., (survives_durable file).2⟩

structure StateSaves where
  /-- The log, while it is open. -/
  up : Option Wal
  disk : Disk FileName
  /-- The record whose save has succeeded last. -/
  newest : Option SavedState
  /-- How many saves have failed since, or since the log was opened. -/
  failures : ℕ

namespace StateSaves

def start : StateSaves := { up := none, disk := ∅, newest := none, failures := 0 }

/-- What may happen before the power fails. The values fit their integer types. -/
inductive Step : StateSaves → StateSaves → Prop where
  | succeeds {saves : StateSaves} {wal wal' : Wal} {hs : HardState} {after : Disk FileName}
      (isUp : saves.up = some wal) (fits : StateFits (wal.stateSeq + 1, hs))
      (returns : Prog.Returns (Disk.Answers .all) ((Wal.saveHardState hs).run.run wal) saves.disk
        (.ok (), wal') after) :
      Step saves { up := some wal', disk := after, newest := some (wal.stateSeq + 1, hs),
                   failures := 0 }
  | fails {saves : StateSaves} {wal wal' : Wal} {hs : HardState} {failure : Failure}
      (isUp : saves.up = some wal)
      (returns : Prog.Returns (Disk.Answers .all) ((Wal.saveHardState hs).run.run wal) saves.disk
        (.error failure, wal') saves.disk) :
      Step saves { saves with up := some wal', failures := saves.failures + 1 }
  | opens {saves : StateSaves} {opts : WalOptions} {recovered : Recovered} {after : Disk FileName}
      (returns : Prog.Returns (Disk.Answers .none) (Wal.open opts).run saves.disk
        (.ok recovered) after) :
      Step saves { saves with up := some recovered.wal, disk := after, failures := 0 }

structure HoldsBy (saves : StateSaves) (image : Bytes) (parts : List Part) : Prop where
  file : saves.disk.get .state = none ∧ image = [] ∨
    saves.disk.get .state = some (.rebooted image)
  holding : Holding image saves.newest
  stable : Stable image
  laid : Laid (segmentFiles saves.disk) parts
  readable : ∀ part ∈ parts, Readable (segmentFiles saves.disk) part
  rests : ∀ wal, saves.up = some wal → saves.disk.get .state = some (.rebooted image)
  seq : ∀ wal, saves.up = some wal → wal.stateSeq = seqOf saves.newest + saves.failures

def Holds (saves : StateSaves) : Prop := ∃ image parts, saves.HoldsBy image parts

theorem holds_start : start.Holds := by
  refine ⟨[], [], Or.inl ⟨rfl, rfl⟩, ⟨rfl, rfl⟩, stable_nil, .nil fun _ => rfl, by simp, ?_, ?_⟩
  · rintro _ ⟨⟩
  · rintro _ ⟨⟩

namespace HoldsBy

variable {saves : StateSaves} {image : Bytes} {parts : List Part} {wal wal' : Wal}
  {hs : HardState} {after : Disk FileName}

theorem succeeds (holds : saves.HoldsBy image parts) (isUp : saves.up = some wal)
    (fits : StateFits (wal.stateSeq + 1, hs))
    (returns : Prog.Returns (Disk.Answers .all) ((Wal.saveHardState hs).run.run wal) saves.disk
      (.ok (), wal') after) :
    Holds { up := some wal', disk := after, newest := some (wal.stateSeq + 1, hs),
            failures := 0 } := by
  rcases (saveHardState_runs (holds.rests wal isUp) hs).returns _ _ returns with ⟨rfl, only, done⟩
  have newer : seqOf saves.newest < wal.stateSeq + 1 := by
    have := holds.seq wal isUp
    omega
  have holding := holds.holding.splice holds.stable fits newer
  refine ⟨_, parts, Or.inr done, holding, stable_splice image (wal.stateSeq + 1, hs), ?_, ?_,
    fun _ _ => done, ?_⟩
  · exact only.segments ▸ holds.laid
  · exact only.segments ▸ holds.readable
  · rintro _ ⟨⟩
    rfl

theorem fails (holds : saves.HoldsBy image parts) (isUp : saves.up = some wal) {failure : Failure}
    (returns : Prog.Returns (Disk.Answers .all) ((Wal.saveHardState hs).run.run wal) saves.disk
      (.error failure, wal') saves.disk) :
    Holds { saves with up := some wal', failures := saves.failures + 1 } := by
  rcases (saveHardState_runs (holds.rests wal isUp) hs).returns _ _ returns with ⟨rfl, _⟩
  refine ⟨image, parts, holds.file, holds.holding, holds.stable, holds.laid, holds.readable,
    fun _ _ => holds.rests wal isUp, ?_⟩
  rintro _ ⟨⟩
  have seq := holds.seq wal isUp
  show wal.stateSeq + 1 = seqOf saves.newest + (saves.failures + 1)
  omega

theorem opens (holds : saves.HoldsBy image parts) {opts : WalOptions} {recovered : Recovered}
    (returns : Prog.Returns (Disk.Answers .none) (Wal.open opts).run saves.disk
      (.ok recovered) after) :
    Holds { saves with up := some recovered.wal, disk := after, failures := 0 } := by
  rcases (open_spec holds.laid holds.readable opts).returns _ _ returns with
    ⟨_, pieces, ⟨⟩, opened⟩
  have imageIs : stateImage saves.disk = image := by
    rcases holds.file with ⟨missing, rfl⟩ | found
    · simp [stateImage, missing]
    · simp [stateImage, found, FileState.rebooted]
  have rests : after.get .state = some (.rebooted image) := by
    rcases opened.state with ⟨file, found, same | ⟨missing, isNew⟩⟩
    · rcases holds.file with ⟨missing, _⟩ | wasThere
      · cases missing.symm.trans same.symm
      · rw [found, same, wasThere]
    · rcases holds.file with ⟨_, rfl⟩ | wasThere
      · rw [found, isNew]
        rfl
      · cases missing.symm.trans wasThere
  refine ⟨image, _, Or.inr rests, holds.holding, holds.stable, opened.pieced.laid, opened.readable,
    fun _ _ => rests, ?_⟩
  rintro _ ⟨⟩
  have read := opened.hardState
  rw [imageIs, holds.holding.newestState_eq] at read
  exact congrArg Prod.snd read

end HoldsBy

theorem Holds.step {saves saves' : StateSaves} (holds : saves.Holds) (step : Step saves saves') :
    saves'.Holds := by
  rcases holds with ⟨image, parts, holds⟩
  cases step with
  | succeeds isUp fits returns => exact holds.succeeds isUp fits returns
  | fails isUp returns => exact holds.fails isUp returns
  | opens returns => exact holds.opens returns

theorem holds_of_reachable {saves : StateSaves}
    (reachable : Relation.ReflTransGen Step start saves) : saves.Holds := by
  induction reachable with
  | refl => exact holds_start
  | tail _ step ih => exact ih.step step

/-- Whenever the power fails during this save, recovery finds the record saved last or the one
that was being written. -/
def CutIntact (saves : StateSaves) (wal : Wal) (hs : HardState) : Prop :=
  ∀ visited after sector opts result final,
    Prog.Visits (Disk.Answers .all) ((Wal.saveHardState hs).run.run wal) saves.disk visited →
    Crash sector visited after →
    Prog.Returns (Disk.Answers .none) (Wal.open opts).run after result final →
    ∃ recovered, result = .ok recovered ∧
      ((recovered.wal.stateSeq, recovered.hardState) = saves.newest.getD (0, .default) ∨
        (recovered.wal.stateSeq, recovered.hardState) = (wal.stateSeq + 1, hs))

namespace HoldsBy

variable {saves : StateSaves} {image : Bytes} {parts : List Part} {wal : Wal} {hs : HardState}

theorem open_after_crash (holds : saves.HoldsBy image parts) {visited after final : Disk FileName}
    (only : StateOnly saves.disk visited) {sector : ℕ} (crash : Crash sector visited after)
    {image' : Bytes} (found : after.get .state = some (.rebooted image')) {opts : WalOptions}
    {result : Except Failure Recovered}
    (returns : Prog.Returns (Disk.Answers .none) (Wal.open opts).run after result final) :
    ∃ recovered, result = .ok recovered ∧
      (recovered.hardState, recovered.wal.stateSeq) = newestState image' := by
  have laid := holds.laid
  rw [← only.segments] at laid
  rcases laid.crash crash with ⟨firm, _, raised, readable⟩
  have canRead : ∀ part ∈ _, Readable (segmentFiles after) part := List.forall_mem_map.mpr readable
  rcases (open_spec raised canRead opts).returns _ _ returns with ⟨recovered, _, rfl, opened⟩
  refine ⟨recovered, rfl, ?_⟩
  rw [opened.hardState, stateImage, found]
  rfl

theorem cutIntact (holds : saves.HoldsBy image parts) (isUp : saves.up = some wal)
    (fits : StateFits (wal.stateSeq + 1, hs))
    (even : saves.newest = none ∨ Even saves.failures) : saves.CutIntact wal hs := by
  intro visited after sector opts result final visits crash returns
  have seq := holds.seq wal isUp
  have underway := (saveHardState_runs (holds.rests wal isUp) hs).visits visited visits
  rcases underway.crash crash holds.stable fits with ⟨image', found, other, target⟩
  rcases holds.open_after_crash underway.only crash found returns with ⟨recovered, rfl, read⟩
  refine ⟨recovered, rfl, ?_⟩
  have newer : seqOf saves.newest < wal.stateSeq + 1 := by omega
  have apart : ∀ record, saves.newest = some record →
      record.1 % 2 = 1 - (wal.stateSeq + 1) % 2 := by
    intro record isNewest
    rcases even with none | even
    · cases none.symm.trans isNewest
    · rw [isNewest] at seq
      have seq : wal.stateSeq = record.1 + saves.failures := seq
      have := Nat.even_iff.mp even
      omega
  rcases holds.holding.read_after newer apart other target with old | new
  · left
    rcases Prod.mk.inj (read.trans old) with ⟨sameState, sameSeq⟩
    rw [sameState, sameSeq]
    cases saves.newest <;> rfl
  · right
    rcases Prod.mk.inj (read.trans new) with ⟨sameState, sameSeq⟩
    rw [sameState, sameSeq]

theorem not_cutIntact (holds : saves.HoldsBy image parts) (isUp : saves.up = some wal)
    {newest : SavedState} (isNewest : saves.newest = some newest) (odd : ¬ Even saves.failures)
    (room : wal.stateSeq + 1 < 2 ^ 64) :
    ∃ hs, StateFits (wal.stateSeq + 1, hs) ∧ ¬ saves.CutIntact wal hs := by
  rcases exists_torn image room with ⟨hs, fits, torn, lands, unreadable⟩
  refine ⟨hs, fits, ?_⟩
  intro intact
  have seq : wal.stateSeq = newest.1 + saves.failures := by
    have seq := holds.seq wal isUp
    rwa [isNewest] at seq
  have sameSlot : newest.1 % 2 = (wal.stateSeq + 1) % 2 := by
    have := Nat.not_even_iff.mp odd
    omega
  have rests := holds.rests wal isUp
  have visits : Prog.Visits (Disk.Answers .all) ((Wal.saveHardState hs).run.run wal) saves.disk
      (saves.disk.insert .state ((FileState.rebooted image).writeAt
        ((wal.stateSeq + 1) % 2 * stateSlot) (frame (stateBody (wal.stateSeq + 1, hs))))) :=
    .later (Disk.performs_writeAt _ rests _ _) (.here _ _)
  rcases crash_torn saves.disk lands unreadable with ⟨after, crash, found⟩
  have underway := (saveHardState_runs rests hs).visits _ visits
  rcases underway.crash crash holds.stable fits with ⟨image', found', other, _⟩
  cases found.symm.trans found'
  have lost : slotState torn (newest.1 % 2) = none := by
    rw [sameSlot]
    exact slotState_eq_none unreadable
  have holding := holds.holding
  rw [isNewest] at holding
  rcases holding with ⟨positive, _, _, lower⟩
  have older : (newestState torn).2 < newest.1 := by
    refine newestState_lt (Nat.mod_two_eq_zero_or_one newest.1) positive lost ?_
    intro record read
    rw [sameSlot] at read lower
    exact lower record (other.symm.trans read)
  rcases Disk.exists_returns .none (Wal.open .default).run after with ⟨result, final, returns⟩
  rcases holds.open_after_crash underway.only crash found returns with ⟨recovered, rfl, read⟩
  have readSeq : recovered.wal.stateSeq < newest.1 := by
    rw [← congrArg Prod.snd read] at older
    exact older
  rcases intact _ _ _ _ _ _ visits crash returns with ⟨_, ⟨⟩, kept | written⟩
  · rw [isNewest] at kept
    have := congrArg Prod.fst kept
    simp only [Option.getD_some] at this
    omega
  · have := congrArg Prod.fst written
    simp only at this
    omega

end HoldsBy

/-- Exactly if an even number of saves has failed since the last success, or nothing was ever
saved, no power loss during a save loses the record saved last. -/
theorem cut_intact_iff {saves : StateSaves} {wal : Wal}
    (reachable : Relation.ReflTransGen Step start saves) (isUp : saves.up = some wal)
    (room : wal.stateSeq + 1 < 2 ^ 64) :
    (∀ hs, StateFits (wal.stateSeq + 1, hs) → saves.CutIntact wal hs) ↔
      saves.newest = none ∨ Even saves.failures := by
  rcases holds_of_reachable reachable with ⟨image, parts, holds⟩
  constructor
  · intro intact
    by_contra neither
    rw [not_or] at neither
    rcases Option.ne_none_iff_exists'.mp neither.1 with ⟨newest, isNewest⟩
    rcases holds.not_cutIntact isUp isNewest neither.2 room with ⟨hs, fits, lost⟩
    exact lost (intact hs fits)
  · exact fun even hs fits => holds.cutIntact isUp fits even

def voted : HardState := { term := 1, vote := some 1, commit := 0 }

theorem fits_voted : StateFits (1, voted) := by
  refine ⟨by simp, by simp [voted], by simp [voted], ?_⟩
  rintro _ ⟨⟩
  decide

theorem exists_saved : ∃ saves wal, Relation.ReflTransGen Step start saves ∧
    saves.up = some wal ∧ wal.stateSeq = 1 ∧ saves.newest = some (1, voted) ∧ saves.failures = 0 ∧
    saves.disk.get .state =
      some (.rebooted (splice [] (1 % 2 * stateSlot) (frame (stateBody (1, voted))))) := by
  rcases Disk.exists_returns .none (Wal.open .default).run start.disk with ⟨result, disk, opens⟩
  rcases (open_spec (.nil fun _ => rfl) (by simp) .default).returns _ _ opens with
    ⟨recovered, pieces, rfl, opened⟩
  have seq : recovered.wal.stateSeq = 0 := congrArg Prod.snd opened.hardState
  have rests : disk.get .state = some (.rebooted []) := by
    rcases opened.state with ⟨file, found, same | ⟨_, isNew⟩⟩
    · have missing : start.disk.get .state = none := rfl
      cases missing.symm.trans same.symm
    · rw [found, isNew]
      rfl
  have fits : StateFits (recovered.wal.stateSeq + 1, voted) := by
    rw [seq]
    exact fits_voted
  have written (offset : ℕ) (data : Bytes) :
      (disk.insert .state ((FileState.rebooted []).writeAt offset data)).get .state =
        some ((FileState.rebooted []).writeAt offset data) := by simp
  have returns : Prog.Returns (Disk.Answers .all) ((Wal.saveHardState voted).run.run recovered.wal)
      disk (.ok (), { recovered.wal with stateSeq := recovered.wal.stateSeq + 1 }) _ :=
    .call (Disk.performs_writeAt _ rests _ _) (.call (Disk.performs_fsync _ (written _ _))
      (.pure _ _))
  have done := ((saveHardState_runs rests voted).returns _ _ returns).2.2
  have reachable := (Relation.ReflTransGen.single (Step.opens opens)).tail
    (.succeeds rfl fits returns)
  simp only [seq] at reachable done
  exact ⟨_, _, reachable, rfl, rfl, rfl, rfl, done⟩

/-- After a save that succeeded nothing can be lost. -/
theorem saved_cut_intact : ∃ saves wal, Relation.ReflTransGen Step start saves ∧
    saves.up = some wal ∧ saves.newest = some (1, voted) ∧
    ∀ hs, StateFits (wal.stateSeq + 1, hs) → saves.CutIntact wal hs := by
  rcases exists_saved with ⟨saves, wal, reachable, isUp, seq, newest, failures, _⟩
  have room : wal.stateSeq + 1 < 2 ^ 64 := by
    rw [seq]
    decide
  refine ⟨saves, wal, reachable, isUp, newest, (cut_intact_iff reachable isUp room).mpr (Or.inr ?_)⟩
  rw [failures]
  exact .zero

/-- A save succeeds, the next one fails, and the power fails during the third: the vote is
forgotten. -/
theorem failed_save_cut_loses : ∃ saves wal hs visited after recovered final,
    Relation.ReflTransGen Step start saves ∧ saves.up = some wal ∧
    saves.newest = some (1, voted) ∧ StateFits (wal.stateSeq + 1, hs) ∧
    Prog.Visits (Disk.Answers .all) ((Wal.saveHardState hs).run.run wal) saves.disk visited ∧
    Crash 1 visited after ∧
    Prog.Returns (Disk.Answers .none) (Wal.open .default).run after (.ok recovered) final ∧
    recovered.hardState = .default := by
  rcases exists_saved with ⟨saved, wal, reachable, isUp, seq, newest, failures, rests⟩
  set image := splice [] (1 % 2 * stateSlot) (frame (stateBody (1, voted))) with imageIs
  have refuses : Disk.Refuses .all
      (.writeAt FileName.state ((wal.stateSeq + 1) % 2 * stateSlot)
        (frame (stateBody (wal.stateSeq + 1, voted)))) (.error .enospc) := Or.inl ⟨trivial, rfl⟩
  have returns : Prog.Returns (Disk.Answers .all) ((Wal.saveHardState voted).run.run wal)
      saved.disk (.error (.io .enospc), { wal with stateSeq := wal.stateSeq + 1 }) saved.disk :=
    .call (Or.inr ⟨refuses, rfl⟩) (.pure _ _)
  have reachable := reachable.tail (.fails isUp returns)
  rcases exists_torn image (by decide : 3 < 2 ^ 64) with ⟨hs, fits, torn, lands, unreadable⟩
  rcases crash_torn saved.disk lands unreadable with ⟨after, crash, found⟩
  have visits : Prog.Visits (Disk.Answers .all) ((Wal.saveHardState hs).run.run
      { wal with stateSeq := 2 }) saved.disk (saved.disk.insert .state
        ((FileState.rebooted image).writeAt (3 % 2 * stateSlot) (frame (stateBody (3, hs))))) :=
    .later (Disk.performs_writeAt _ rests _ _) (.here _ _)
  have underway := (saveHardState_runs rests hs).visits _ visits
  rcases underway.crash crash (stable_splice [] (1, voted)) fits with ⟨image', found', other, _⟩
  cases found.symm.trans found'
  have untouched : slotState image 0 = slotState [] 0 :=
    slotState_splice_other (Or.inr rfl) stable_nil (length_frame_stateBody (1, voted))
  have empty : slotState [] 0 = none := rfl
  have same : slotState torn 0 = slotState image 0 := by simpa using other
  have first : slotState torn 0 = none := by rw [same, untouched, empty]
  have second : slotState torn 1 = none := slotState_eq_none unreadable
  have read : newestState torn = (.default, 0) := by
    simp [newestState, preferState, first, second]
  rcases holds_of_reachable reachable with ⟨_, _, holds⟩
  rcases Disk.exists_returns .none (Wal.open .default).run after with ⟨result, final, opens⟩
  rcases holds.open_after_crash underway.only crash found opens with ⟨recovered, rfl, recovers⟩
  simp only [seq] at reachable
  refine ⟨_, _, hs, _, after, recovered, final, reachable, rfl, newest, fits, visits, crash, opens,
    ?_⟩
  exact congrArg Prod.fst (recovers.trans read)

end StateSaves

end ChronoScope.Chronolog
