import ChronoScope.Chronolog.Syncing

/-!
# What the log stores

As long as the process lives, the log is a list of consecutive entries: some
are taken from its end, others added, and a compaction drops some from the
front. A write that is refused for lack of space leaves the list as it was.
Nothing here depends on the size of a record, since nothing is read back.
-/

namespace ChronoScope.Chronolog

open Sim

namespace Wal

/-- The log has these entries, durable or not. -/
def Carries (wal : Wal) (disk : Disk FileName) (entries : List Entry) : Prop :=
  ∃ pieces, Stocked wal disk pieces ∧ Joined pieces ∧ contents pieces = entries

section

variable {device : Device (Request FileName) (Disk FileName)} {denied barred : IoError → Prop}
  {wal : Wal} {disk : Disk FileName} {entries : List Entry}
  (steadfast : Steadfast device denied barred)

include steadfast

theorem truncateFrom_carries (carries : wal.Carries disk entries) (start : ℕ) :
    Routine.Ensures device (truncateFrom start)
      (fun result wal' after => result = .ok () ∧ wal'.opts = wal.opts ∧
        wal'.Carries after (entries.filter fun entry => decide (entry.index < start)) ∧
        wal'.lastIndex = min wal.lastIndex (start - 1)) wal disk := by
  rcases carries with ⟨pieces, stocked, joined, rfl⟩
  refine (truncateFrom_lined steadfast stocked fun _ _ => trivial).follow ?_
  rintro _ wal' after _ ⟨rfl, pieces', shortened⟩
  rcases shortened.joined joined with ⟨joined', last⟩
  refine ⟨rfl, ?_, ⟨pieces', shortened.stocked, joined', shortened.contents⟩, last⟩
  rw [shortened.own]

theorem resetTo_carries (carries : wal.Carries disk entries) (index : ℕ) :
    Routine.Ensures device (resetTo index)
      (fun result wal' after => result = .ok () ∧ wal'.opts = wal.opts ∧ wal'.Carries after [] ∧
        wal'.lastIndex = index) wal disk := by
  rcases carries with ⟨pieces, stocked, joined, rfl⟩
  refine (resetTo_lined steadfast stocked index fun _ _ _ _ _ => trivial).follow ?_
  rintro _ _ after _ ⟨rfl, rfl, lined, _⟩
  exact ⟨rfl, rfl, ⟨[.fresh (index + 1)], ⟨lined, by simp, rfl⟩, by simp [Joined], rfl⟩, rfl⟩

theorem append_carries (positive : 0 < wal.opts.segmentBytes) (carries : wal.Carries disk entries)
    (batch : List Entry) :
    Routine.Ensures device (append batch)
      (fun result wal' after => wal'.opts = wal.opts ∧
        match result with
        | .ok () => Numbered (wal.lastIndex + 1) batch ∧ wal'.Carries after (entries ++ batch) ∧
            wal'.lastIndex = wal.lastIndex + batch.length
        | .error _ => wal'.Carries after entries ∧ wal'.lastIndex = wal.lastIndex) wal disk := by
  rcases carries with ⟨pieces, stocked, joined, rfl⟩
  refine (append_lined steadfast positive stocked (fun _ _ _ _ => trivial)
    fun _ _ _ _ _ _ _ => trivial).follow ?_
  rintro result wal' after _ ⟨pieces', rfl, stocked', _, outcome⟩
  rw [stocked.lastIndex_eq_lastOf, stocked'.lastIndex_eq_lastOf]
  cases result with
  | ok =>
    exact ⟨rfl, outcome.lastOf_eq.2, ⟨pieces', stocked', outcome.joined joined,
      outcome.contents_eq⟩, outcome.lastOf_eq.1⟩
  | error failure =>
    rcases outcome with ⟨_, undone⟩
    rcases undone.joined joined with ⟨joined', last⟩
    exact ⟨rfl, ⟨pieces', stocked', joined', undone.contents⟩, last⟩

theorem sync_carries (carries : wal.Carries disk entries) :
    Routine.Ensures device sync
      (fun result wal' after => result = .ok () ∧ wal'.opts = wal.opts ∧
        wal'.Carries after entries ∧ wal'.lastIndex = wal.lastIndex) wal disk := by
  rcases carries with ⟨pieces, stocked, joined, rfl⟩
  refine (sync_lined steadfast stocked fun _ _ _ _ _ _ => trivial).follow ?_
  rintro _ _ after _ ⟨rfl, rfl, lined, _⟩
  have nonempty : pieces.map Piece.synced ≠ [] := by simpa using stocked.nonempty
  have stocked' : Stocked { wal with segments := (pieces.map Piece.synced).map Piece.seg } after
      (pieces.map Piece.synced) := ⟨lined, nonempty, rfl⟩
  refine ⟨rfl, rfl, ⟨_, stocked', ?_, contents_synced _⟩, ?_⟩
  · rw [Joined, List.isChain_map]
    simp only [Piece.synced_all]
    exact joined
  · rw [stocked'.lastIndex_eq_lastOf, stocked.lastIndex_eq_lastOf]
    simp only [lastOf, List.getLast?_map, Option.map_map]
    rfl

theorem compactThrough_carries (carries : wal.Carries disk entries) (through : ℕ) :
    Routine.Ensures device (compactThrough through)
      (fun _ wal' after => wal'.opts = wal.opts ∧ wal'.lastIndex = wal.lastIndex ∧
        ∃ gone left, entries = gone ++ left ∧ (∀ entry ∈ gone, entry.index < through) ∧
          wal'.Carries after left) wal disk := by
  rcases carries with ⟨pieces, stocked, joined, rfl⟩
  refine (compactThrough_lined steadfast stocked fun _ _ _ _ _ _ _ => trivial).follow ?_
  rintro _ _ after _ ⟨_, gone, left, rfl, superseded, nonempty, rfl, lined, _⟩
  have stocked' : Stocked { wal with segments := left.map Piece.seg } after left :=
    ⟨lined, nonempty, rfl⟩
  rw [Joined, List.isChain_append] at joined
  refine ⟨rfl, ?_, contents gone, contents left, contents_append .., ?_, left, stocked',
    joined.2.1, rfl⟩
  · rw [stocked'.lastIndex_eq_lastOf, stocked.lastIndex_eq_lastOf]
    simp [lastOf, List.getLast?_append_of_ne_nil _ nonempty]
  · intro entry member
    rcases List.mem_flatMap.mp member with ⟨piece, isPiece, isEntry⟩
    have intact := stocked.lined.intact piece (List.mem_append_left _ isPiece)
    have := (intact.numbered.index_bounds isEntry).2
    have := intact.lastIndex
    have := superseded piece isPiece
    omega

end

end Wal

end ChronoScope.Chronolog
