import ChronoScope.Chronolog.Types

/-!
# The digest of what was applied

Each entry that is applied is hashed by itself, and the oracle for State Machine
Safety compares the hashes of two nodes at one index. The hash runs over the
bytes of some integers: index, term, a tag for the kind, and the bytes of a
command, each widened to eight. There are no length prefixes, and none are
needed, as the command comes last. Of a change of membership only the tag goes
in.
-/

namespace ChronoScope.Chronolog

namespace ApplyDigest

def kindStream : EntryKind → Bytes
  | .noop => leBytes 8 1
  | .config _ => leBytes 8 2
  | .normal data => leBytes 8 3 ++ data.flatMap fun byte => leBytes 8 byte.toNat

/-- The bytes an entry is hashed as. -/
def stream (entry : Entry) : Bytes :=
  leBytes 8 entry.index ++ (leBytes 8 entry.term ++ kindStream entry.kind)

def mixByte (hash : UInt64) (byte : UInt8) : UInt64 :=
  (hash ^^^ byte.toUInt64) * 0x00000100000001b3

def hash (entry : Entry) : UInt64 := (stream entry).foldl mixByte 0xcbf29ce484222325

theorem leBytes_inj {left right : ℕ} (leftFits : left < 2 ^ 64) (rightFits : right < 2 ^ 64) :
    leBytes 8 left = leBytes 8 right ↔ left = right := by
  refine ⟨fun same => ?_, congrArg _⟩
  rw [← leValue_leBytes (show left < 256 ^ 8 by omega), same,
    leValue_leBytes (show right < 256 ^ 8 by omega)]

theorem leBytes_append_inj {left right : ℕ} (leftFits : left < 2 ^ 64) (rightFits : right < 2 ^ 64)
    (leftRest rightRest : Bytes) :
    leBytes 8 left ++ leftRest = leBytes 8 right ++ rightRest ↔
      left = right ∧ leftRest = rightRest := by
  constructor
  · intro same
    rcases List.append_inj same (by simp only [length_leBytes]) with ⟨front, back⟩
    exact ⟨(leBytes_inj leftFits rightFits).mp front, back⟩
  · rintro ⟨rfl, rfl⟩
    rfl

theorem command_inj {left right : Bytes} :
    (left.flatMap fun byte => leBytes 8 byte.toNat) =
      (right.flatMap fun byte => leBytes 8 byte.toNat) ↔ left = right := by
  refine ⟨fun same => ?_, congrArg _⟩
  induction left generalizing right with
  | nil =>
    cases right with
    | nil => rfl
    | cons byte rest => simp [leBytes] at same
  | cons byte rest ih =>
    cases right with
    | nil => simp [leBytes] at same
    | cons other more =>
      simp only [List.flatMap_cons] at same
      have small (byte : UInt8) : byte.toNat < 2 ^ 64 := byte.toNat_lt.trans (by decide)
      rcases (leBytes_append_inj (small byte) (small other) _ _).mp same with ⟨first, later⟩
      rw [UInt8.toNat_inj.mp first, ih later]

theorem kindStream_eq_iff {left right : EntryKind} :
    kindStream left = kindStream right ↔ left = right ∨
      ∃ one other, left = .config one ∧ right = .config other := by
  cases left with
  | normal data =>
    cases right with
    | normal other =>
      have three : 3 < 2 ^ 64 := by decide
      rw [kindStream, kindStream, leBytes_append_inj three three, command_inj]
      simp
    | config | noop => simp [kindStream, leBytes]
  | config | noop => cases right <;> simp [kindStream, leBytes]

/-- The digest covers the whole entry but for a change of membership: different entries are hashed
as different bytes, unless they are two changes at one index and in one term. -/
theorem stream_ne_iff {left right : Entry} (leftIndex : left.index < 2 ^ 64)
    (rightIndex : right.index < 2 ^ 64) (leftTerm : left.term < 2 ^ 64)
    (rightTerm : right.term < 2 ^ 64) (differ : left ≠ right) :
    stream left ≠ stream right ↔ ¬ (left.index = right.index ∧ left.term = right.term ∧
      ∃ one other, left.kind = .config one ∧ right.kind = .config other) := by
  rw [Ne, not_iff_not, stream, stream, leBytes_append_inj leftIndex rightIndex,
    leBytes_append_inj leftTerm rightTerm, kindStream_eq_iff]
  constructor
  · rintro ⟨sameIndex, sameTerm, sameKind | changes⟩
    · cases left
      cases right
      simp_all
    · exact ⟨sameIndex, sameTerm, changes⟩
  · rintro ⟨sameIndex, sameTerm, changes⟩
    exact ⟨sameIndex, sameTerm, .inr changes⟩

theorem commands_hashed_apart :
    stream ⟨1, 1, .normal [7]⟩ ≠ stream ⟨1, 1, .normal [7, 0]⟩ ↔
      ¬ ((1 : ℕ) = 1 ∧ (1 : ℕ) = 1 ∧ ∃ one other, EntryKind.normal [7] = .config one ∧
        EntryKind.normal [7, 0] = .config other) :=
  stream_ne_iff (by decide) (by decide) (by decide) (by decide) (by decide)

/-- Two changes of membership that differ are hashed alike. -/
theorem changes_hashed_alike :
    let one : Entry := ⟨1, 1, .config (.enterJoint (.ofList [0, 1, 2]) ∅)⟩
    let other : Entry := ⟨1, 1, .config .leaveJoint⟩
    one ≠ other ∧ stream one = stream other ∧ hash one = hash other := by
  intro one other
  exact ⟨by decide, rfl, rfl⟩

end ApplyDigest

end ChronoScope.Chronolog
