import ChronoScope.Chronolog.Types
import ChronoScope.Consensus.Protocol

/-!
# The in-memory log

Indices are one-based and contiguous; index zero is a sentinel of term zero. A
log keeps the entries above its snapshot point only.

`Represents` connects such a log with the full sequence of entries it stands
for, compacted or not. Every operation is specified by what it does to that
sequence; in particular `merge` takes over a slice of another log without
removing anything the two already share.
-/

namespace ChronoScope.Chronolog

open List

open Consensus (Termed)

instance : Termed Entry := ⟨Entry.term⟩

def applyChange (cfg : Config) : ConfigChange → Config
  | .enterJoint incoming learners =>
    { voters := incoming, outgoing := cfg.voters, learners := learners }
  | .leaveJoint => { cfg with outgoing := ∅ }

structure Log where
  snapshotIndex : ℕ
  snapshotTerm : ℕ
  snapshotConfig : Config
  entries : List Entry
  deriving DecidableEq

namespace Log

def new : Log :=
  { snapshotIndex := 0, snapshotTerm := 0, snapshotConfig := .default, entries := [] }

/-- A fresh log for a cluster whose membership is known up front. -/
def bootstrap (config : Config) : Log := { new with snapshotConfig := config }

/-- Rebuild from what recovery found on disk. -/
def restore (snapshot : Option Snapshot) (entries : List Entry) : Log :=
  match snapshot with
  | some snap =>
    { snapshotIndex := snap.lastIndex, snapshotTerm := snap.lastTerm,
      snapshotConfig := snap.config, entries := entries }
  | none => { new with entries := entries }

def firstIndex (log : Log) : ℕ := log.snapshotIndex + 1

def lastIndex (log : Log) : ℕ := (log.entries.getLast?.map Entry.index).getD log.snapshotIndex

def lastTerm (log : Log) : ℕ := (log.entries.getLast?.map Entry.term).getD log.snapshotTerm

def slot (log : Log) (index : ℕ) : Option ℕ :=
  if index ≤ log.snapshotIndex ∨ index > log.lastIndex then none
  else some (index - log.snapshotIndex - 1)

def get (log : Log) (index : ℕ) : Option Entry :=
  (log.slot index).bind fun position => log.entries[position]?

/-- The term at an index; `none` means compacted away or past the end. -/
def termAt (log : Log) (index : ℕ) : Option ℕ :=
  if index = 0 then some 0
  else if index = log.snapshotIndex then some log.snapshotTerm
  else (log.get index).map Entry.term

/-- Entries from `start` up to, but excluding, `stop`, clamped to what exists. -/
def slice (log : Log) (start stop : ℕ) : List Entry :=
  match log.slot (max start log.firstIndex) with
  | none => []
  | some lo =>
    match if stop > log.lastIndex then some log.entries.length else log.slot stop with
    | none => []
    | some hi => if lo ≥ hi then [] else (log.entries.take hi).drop lo

def entriesFrom (log : Log) (start : ℕ) : List Entry := log.slice start (log.lastIndex + 1)

/-- The election restriction: is the described log at least as up to date as this one? -/
def isUpToDate (log : Log) (term : ℕ) (index : ℕ) : Bool :=
  decide (term > log.lastTerm ∨ (term = log.lastTerm ∧ index ≥ log.lastIndex))

def append (log : Log) (entries : List Entry) : Log :=
  { log with entries := log.entries ++ entries }

/-- Drop every entry at or above `start`. -/
def truncateFrom (log : Log) (start : ℕ) : Log :=
  match log.slot start with
  | some position => { log with entries := log.entries.take position }
  | none => if start ≤ log.snapshotIndex then { log with entries := [] } else log

/-- The loop of `merge` over the entries not yet looked at. -/
def mergeLoop (log : Log) : List Entry → Log
  | [] => log
  | entry :: rest =>
    match log.termAt entry.index with
    | some term =>
      if term = entry.term then mergeLoop log rest
      else (log.truncateFrom entry.index).append (entry :: rest)
    | none => log.append (entry :: rest)

/-- Merge the entries of an append request; also returns the index of the last new entry. -/
def merge (log : Log) (prevIndex : ℕ) (entries : List Entry) : Log × ℕ :=
  match entries.getLast? with
  | none => (log, prevIndex)
  | some last => (log.mergeLoop entries, last.index)

/-- Discard entries at or below `through`. -/
def compactThrough (log : Log) (through : ℕ) (term : ℕ) (config : Config) : Log :=
  if through ≤ log.snapshotIndex then log
  else
    let keepFrom := min through log.lastIndex
    let dropCount := keepFrom - log.snapshotIndex
    { snapshotIndex := keepFrom, snapshotTerm := term, snapshotConfig := config,
      entries := log.entries.drop (min dropCount log.entries.length) }

/-- Replace the log with a snapshot; entries past it that agree with it are kept. -/
def installSnapshot (log : Log) (snap : Snapshot) : Log :=
  if log.termAt snap.lastIndex = some snap.lastTerm then
    log.compactThrough snap.lastIndex snap.lastTerm snap.config
  else
    { snapshotIndex := snap.lastIndex, snapshotTerm := snap.lastTerm,
      snapshotConfig := snap.config, entries := [] }

/-- Replay one entry on a configuration. -/
def applyEntry (cfg : Config) (entry : Entry) : Config :=
  match entry.kind with
  | .config change => applyChange cfg change
  | _ => cfg

/-- The snapshot's configuration with every config entry replayed on top. -/
def config (log : Log) : Config := log.entries.foldl applyEntry log.snapshotConfig

/-- Walk down from `index` to the last entry of a term at or below `term`. -/
def conflictLoop (log : Log) (term : ℕ) : ℕ → ℕ
  | 0 => 0
  | index + 1 =>
    if index + 1 > log.snapshotIndex then
      match log.termAt (index + 1) with
      | some found => if found ≤ term then index + 1 else conflictLoop log term index
      | none => index + 1
    else index + 1

/-- Where a rejecting follower's log diverges, from the hint it sent. -/
def findConflictByTerm (log : Log) (index : ℕ) (term : ℕ) : ℕ :=
  log.conflictLoop term (min index log.lastIndex)

/-- Consecutive entries: the one at a position carries the index after `base` there. -/
def Indexed (base : ℕ) (entries : List Entry) : Prop :=
  ∀ position entry, entries[position]? = some entry → entry.index = base + position + 1

/-- The log holds the part of `full` above its snapshot point. -/
structure Represents (log : Log) (full : List Entry) : Prop where
  indexed : Indexed 0 full
  bound : log.snapshotIndex ≤ full.length
  entries : log.entries = full.drop log.snapshotIndex
  snapshotTerm : Consensus.termAt full log.snapshotIndex = some log.snapshotTerm

variable {entries : List Entry}

variable {base : ℕ}

theorem Indexed.take (indexed : Indexed base entries) (count : ℕ) :
    Indexed base (entries.take count) := by
  intro position entry present
  rw [getElem?_take] at present
  split_ifs at present with within
  exact indexed position entry present

theorem Indexed.drop (indexed : Indexed base entries) (count : ℕ) :
    Indexed (base + count) (entries.drop count) := by
  intro position entry present
  rw [getElem?_drop] at present
  have found := indexed (count + position) entry present
  omega

theorem Indexed.append {left right : List Entry} (indexed : Indexed base left)
    (follows : Indexed (base + left.length) right) : Indexed base (left ++ right) := by
  intro position entry present
  rcases Nat.lt_or_ge position left.length with inLeft | inRight
  · rw [getElem?_append_left inLeft] at present
    exact indexed position entry present
  · rw [getElem?_append_right inRight] at present
    have found := follows (position - left.length) entry present
    omega

theorem Indexed.of_isPrefix {short long : List Entry} (indexed : Indexed base long)
    (isPrefix : short <+: long) : Indexed base short := by
  intro position entry present
  exact indexed position entry (Consensus.getElem?_of_isPrefix isPrefix present)

theorem Indexed.getLast? (indexed : Indexed base entries) :
    (entries.getLast?.map Entry.index).getD base = base + entries.length := by
  cases entries with
  | nil => simp
  | cons head tail =>
    have present : (head :: tail)[tail.length]? = some ((head :: tail).getLast (by simp)) := by
      rw [← getLast?_eq_some_getLast, getLast?_eq_getElem?]
      simp
    rw [getLast?_eq_some_getLast (by simp), Option.map_some, Option.getD_some,
      indexed _ _ present, length_cons]
    omega

theorem Indexed.filter_lt (indexed : Indexed base entries) (index : ℕ) :
    entries.filter (fun entry => decide (entry.index < index)) =
      entries.take (index - base - 1) := by
  induction entries generalizing base with
  | nil => simp
  | cons head tail ih =>
    have headIndex : head.index = base + 1 := indexed 0 head rfl
    have tailIndexed : Indexed (base + 1) tail := by
      simpa using indexed.drop 1
    rw [filter_cons, ih tailIndexed]
    by_cases below : base + 1 < index
    · rw [if_pos (by simpa [headIndex] using below),
        show index - base - 1 = index - (base + 1) - 1 + 1 by omega, take_succ_cons]
    · rw [if_neg (by simpa [headIndex] using below),
        show index - base - 1 = 0 by omega, show index - (base + 1) - 1 = 0 by omega]
      simp

theorem Indexed.filter_gt (indexed : Indexed base entries) (index : ℕ) :
    entries.filter (fun entry => decide (index < entry.index)) = entries.drop (index - base) := by
  induction entries generalizing base with
  | nil => simp
  | cons head tail ih =>
    have headIndex : head.index = base + 1 := indexed 0 head rfl
    have tailIndexed : Indexed (base + 1) tail := by
      simpa using indexed.drop 1
    rw [filter_cons, ih tailIndexed]
    by_cases covered : index ≤ base
    · rw [if_pos (by simpa [headIndex] using Nat.lt_succ_of_le covered),
        show index - base = 0 by omega, show index - (base + 1) = 0 by omega]
      rfl
    · rw [if_neg (by simp only [headIndex, decide_eq_true_eq]; omega),
        show index - base = index - (base + 1) + 1 by omega, drop_succ_cons]

variable {index term : ℕ}

theorem le_of_termAt_eq_some {log : Log} (above : log.snapshotIndex < index)
    (known : log.termAt index = some term) : index ≤ log.lastIndex := by
  by_contra past
  rw [Log.termAt, if_neg (by omega), if_neg (by omega), Log.get, Log.slot,
    if_pos (Or.inr (Nat.not_le.mp past))] at known
  cases known

theorem le_installSnapshot (log : Log) (snap : Snapshot) :
    snap.lastIndex ≤ (log.installSnapshot snap).snapshotIndex := by
  unfold Log.installSnapshot
  split_ifs with known
  · unfold Log.compactThrough
    split_ifs with covered
    · exact covered
    · exact le_min le_rfl (le_of_termAt_eq_some (Nat.not_le.mp covered) known)
  · exact le_rfl

theorem merge_eq (log : Log) (prevIndex : ℕ) (entries : List Entry) :
    log.merge prevIndex entries =
      (log.mergeLoop entries, (entries.getLast?.map Entry.index).getD prevIndex) := by
  cases entries with
  | nil => rfl
  | cons entry rest => simp [Log.merge, getLast?_cons]

variable {cfg : Config} {snap : Snapshot} {through prevIndex : ℕ}

section Contiguous

variable {log : Log}

section

variable (indexed : Indexed log.snapshotIndex log.entries)

include indexed

theorem lastIndex_of_indexed : log.lastIndex = log.snapshotIndex + log.entries.length :=
  indexed.getLast?

theorem snapshotIndex_le_lastIndex : log.snapshotIndex ≤ log.lastIndex := by
  rw [lastIndex_of_indexed indexed]
  exact Nat.le_add_right _ _

theorem le_lastIndex_of_termAt (known : log.termAt index = some term) :
    index ≤ log.lastIndex := by
  rcases Nat.lt_or_ge log.snapshotIndex index with above | covered
  · exact le_of_termAt_eq_some above known
  · exact covered.trans (snapshotIndex_le_lastIndex indexed)

theorem truncateFrom_of_indexed (above : log.snapshotIndex ≤ index) :
    log.truncateFrom (index + 1) =
      { log with entries := log.entries.take (index - log.snapshotIndex) } := by
  have notCompacted : ¬ index + 1 ≤ log.snapshotIndex := by omega
  unfold Log.truncateFrom Log.slot
  rw [lastIndex_of_indexed indexed, if_neg notCompacted]
  by_cases outside : index + 1 > log.snapshotIndex + log.entries.length
  · rw [if_pos (Or.inr outside), take_of_length_le (by omega)]
  · rw [if_neg (by omega)]
    simp only [show index + 1 - log.snapshotIndex - 1 = index - log.snapshotIndex by omega]

theorem compactThrough_of_indexed (above : log.snapshotIndex < through)
    (present : through ≤ log.lastIndex) :
    log.compactThrough through term cfg =
      { snapshotIndex := through, snapshotTerm := term, snapshotConfig := cfg,
        entries := log.entries.drop (through - log.snapshotIndex) } := by
  rw [lastIndex_of_indexed indexed] at present
  rw [Log.compactThrough, if_neg (by omega), lastIndex_of_indexed indexed]
  simp only [min_eq_left present]
  rw [min_eq_left (by omega)]

theorem get_of_indexed (above : log.snapshotIndex < index) :
    log.get index = log.entries[index - log.snapshotIndex - 1]? := by
  rw [Log.get, Log.slot, lastIndex_of_indexed indexed]
  split_ifs with outside
  · exact (getElem?_eq_none (by omega)).symm
  · rfl

theorem lt_of_termAt_eq_none (above : log.snapshotIndex < index)
    (unknown : log.termAt index = none) : log.lastIndex < index := by
  rw [Log.termAt, if_neg (by omega), if_neg (by omega), get_of_indexed indexed above,
    Option.map_eq_none_iff, getElem?_eq_none_iff] at unknown
  rw [lastIndex_of_indexed indexed]
  omega

theorem slice_of_indexed (start stop : ℕ) : log.slice start stop =
    (log.entries.take (stop - log.firstIndex)).drop (start - log.firstIndex) := by
  have lo : max start (log.snapshotIndex + 1) - log.snapshotIndex - 1 =
      start - (log.snapshotIndex + 1) := by omega
  rw [Log.slice, Log.slot, Log.slot, lastIndex_of_indexed indexed, Log.firstIndex, lo,
    Nat.sub_sub stop]
  by_cases beyond : log.snapshotIndex + log.entries.length < max start (log.snapshotIndex + 1)
  · rw [if_pos (Or.inr beyond), drop_eq_nil_of_le (by rw [length_take]; omega)]
  · rw [if_neg (by omega)]
    by_cases toEnd : stop > log.snapshotIndex + log.entries.length
    · rw [if_pos toEnd, take_of_length_le (by omega)]
      simp only [take_length]
      rw [if_neg (by omega)]
    · rw [if_neg toEnd]
      by_cases below : stop ≤ log.snapshotIndex
      · rw [if_pos (Or.inl below), drop_eq_nil_of_le (by rw [length_take]; omega)]
      · rw [if_neg (by omega)]
        simp only
        split_ifs with crossed
        · rw [drop_eq_nil_of_le (by rw [length_take]; omega)]
        · rfl

theorem entriesFrom_of_indexed (start : ℕ) :
    log.entriesFrom start = log.entries.drop (start - log.firstIndex) := by
  rw [Log.entriesFrom, slice_of_indexed indexed, take_of_length_le]
  rw [lastIndex_of_indexed indexed, Log.firstIndex]
  omega

theorem entriesFrom_one : log.entriesFrom 1 = log.entries := by
  rw [entriesFrom_of_indexed indexed, Log.firstIndex, Nat.sub_eq_zero_of_le (by omega), drop_zero]

theorem slice_append_entriesFrom (index : ℕ) :
    log.slice (log.snapshotIndex + 1) (index + 1) ++ log.entriesFrom (index + 1) = log.entries := by
  rw [slice_of_indexed indexed, entriesFrom_of_indexed indexed, Log.firstIndex, Nat.sub_self,
    drop_zero, take_append_drop]

theorem indexed_truncateFrom (start : ℕ) :
    Indexed (log.truncateFrom start).snapshotIndex (log.truncateFrom start).entries := by
  unfold Log.truncateFrom
  split
  · exact indexed.take _
  · split_ifs
    · exact fun _ _ present => nomatch present
    · exact indexed

end

section

variable (indexed : Indexed log.snapshotIndex log.entries)

include indexed

theorem indexed_mergeLoop (follows : Indexed prevIndex entries)
    (above : log.snapshotIndex ≤ prevIndex) (present : prevIndex ≤ log.lastIndex) :
    Indexed (log.mergeLoop entries).snapshotIndex (log.mergeLoop entries).entries := by
  induction entries generalizing prevIndex with
  | nil => exact indexed
  | cons entry rest ih =>
    have headIndex : entry.index = prevIndex + 1 := follows 0 entry rfl
    have restFollows : Indexed (prevIndex + 1) rest := by simpa using follows.drop 1
    rw [Log.mergeLoop, headIndex]
    cases known : log.termAt (prevIndex + 1) with
    | none =>
      have past := lt_of_termAt_eq_none indexed (by omega) known
      have atEnd : log.snapshotIndex + log.entries.length = prevIndex := by
        rw [lastIndex_of_indexed indexed] at past present
        omega
      exact indexed.append (by rwa [atEnd])
    | some term =>
      have within := le_of_termAt_eq_some (by omega) known
      simp only
      split_ifs
      · exact ih restFollows (by omega) within
      · rw [truncateFrom_of_indexed indexed above]
        rw [lastIndex_of_indexed indexed] at within
        have kept : log.snapshotIndex +
            (log.entries.take (prevIndex - log.snapshotIndex)).length = prevIndex := by
          rw [length_take]
          omega
        exact (indexed.take _).append (by rwa [kept])

end

end Contiguous

namespace Represents

variable {log : Log} {full : List Entry}

section

variable (represents : log.Represents full)

include represents

theorem contiguous : Indexed log.snapshotIndex log.entries := by
  simpa [← represents.entries] using represents.indexed.drop log.snapshotIndex

theorem filter_lt (index : ℕ) :
    log.entries.filter (fun entry => decide (entry.index < index)) =
      (full.take (index - 1)).drop log.snapshotIndex := by
  rw [represents.contiguous.filter_lt, represents.entries, drop_take]
  congr 1
  omega

theorem lastIndex : log.lastIndex = full.length := by
  rw [lastIndex_of_indexed represents.contiguous, represents.entries, length_drop,
    Nat.add_sub_cancel' represents.bound]

theorem lastTerm : log.lastTerm = Consensus.lastTerm full := by
  unfold Log.lastTerm
  rw [represents.entries]
  rcases Nat.lt_or_ge log.snapshotIndex full.length with more | compacted
  · rw [getLast?_drop, if_neg (by omega), Consensus.lastTerm]
    cases ending : full.getLast? with
    | none =>
      rw [getLast?_eq_none_iff] at ending
      simp [ending] at more
    | some entry => rfl
  · have atEnd : log.snapshotIndex = full.length := le_antisymm represents.bound compacted
    have snapshotTerm := represents.snapshotTerm
    rw [atEnd] at snapshotTerm
    rw [atEnd, drop_length]
    by_cases empty : full = []
    · subst empty
      simp only [length_nil, Consensus.termAt, Option.some.injEq] at snapshotTerm
      simp [← snapshotTerm]
    · rw [Consensus.termAt_length empty, Option.some.injEq] at snapshotTerm
      simp [snapshotTerm]

theorem get (above : log.snapshotIndex < index) : log.get index = full[index - 1]? := by
  rw [get_of_indexed represents.contiguous above, represents.entries, getElem?_drop]
  congr 1
  omega

end

theorem get_eq_none (log : Log) (covered : index ≤ log.snapshotIndex) : log.get index = none := by
  rw [Log.get, Log.slot, if_pos (Or.inl covered)]
  rfl

theorem lt_of_get {entry : Entry} (isEntry : log.get index = some entry) :
    log.snapshotIndex < index := by
  by_contra compacted
  rw [get_eq_none log (Nat.not_lt.mp compacted)] at isEntry
  cases isEntry

variable {start : ℕ}

section

variable (represents : log.Represents full)

include represents

theorem termAt (above : log.snapshotIndex ≤ index) :
    log.termAt index = Consensus.termAt full index := by
  unfold Log.termAt
  split_ifs with zero boundary
  · subst zero
    rfl
  · rw [boundary, represents.snapshotTerm]
  · rw [represents.get (by omega)]
    cases index with
    | zero => contradiction
    | succ index => rfl

theorem termAt_of_eq_some (known : log.termAt index = some term) :
    Consensus.termAt full index = some term := by
  rcases Nat.lt_or_ge index log.snapshotIndex with compacted | above
  · rw [Log.termAt, if_neg (by omega : index ≠ log.snapshotIndex),
      get_eq_none log compacted.le] at known
    split_ifs at known with zero
    · rw [zero, ← known]
      rfl
    · simp at known
  · rw [← represents.termAt above, known]

theorem isUpToDate : log.isUpToDate term index = true ↔ Consensus.UpToDate term index full := by
  simp only [Log.isUpToDate, decide_eq_true_eq, represents.lastTerm, represents.lastIndex,
    Consensus.UpToDate]
  constructor
  · rintro (later | ⟨same, longer⟩)
    · exact Or.inl later
    · exact Or.inr ⟨same.symm, longer⟩
  · rintro (later | ⟨same, longer⟩)
    · exact Or.inl later
    · exact Or.inr ⟨same.symm, longer⟩

theorem slice {stop : ℕ} (above : log.snapshotIndex < start) :
    log.slice start stop = (full.take (stop - 1)).drop (start - 1) := by
  have first : log.snapshotIndex + (start - log.firstIndex) = start - 1 := by
    rw [Log.firstIndex]
    omega
  have count : stop - log.firstIndex - (start - log.firstIndex) = stop - 1 - (start - 1) := by
    rw [Log.firstIndex]
    omega
  rw [slice_of_indexed represents.contiguous, represents.entries, drop_take, drop_take, drop_drop,
    first, count]

theorem entriesFrom (above : log.snapshotIndex < start) :
    log.entriesFrom start = full.drop (start - 1) := by
  rw [Log.entriesFrom, represents.slice above, represents.lastIndex]
  simp

end

variable {entries source : List Entry}

section

variable (represents : log.Represents full)

include represents

theorem append (follows : Indexed full.length entries) :
    (log.append entries).Represents (full ++ entries) where
  indexed := represents.indexed.append (by simpa using follows)
  bound := by
    have := represents.bound
    simp only [Log.append, length_append]
    omega
  entries := by
    simp only [Log.append, represents.entries]
    rw [drop_append_of_le_length represents.bound]
  snapshotTerm := by
    have unchanged := Consensus.termAt_of_isPrefix (prefix_append full entries)
      represents.bound
    exact unchanged.trans represents.snapshotTerm

theorem truncateFrom (above : log.snapshotIndex < start) :
    (log.truncateFrom start).Represents (full.take (start - 1)) := by
  obtain ⟨index, rfl⟩ := Nat.exists_eq_add_of_lt above
  rw [truncateFrom_of_indexed represents.contiguous (Nat.le_add_right _ index)]
  refine ⟨represents.indexed.take _, ?_, ?_, ?_⟩
  · simp [represents.bound]
  · simp [represents.entries, drop_take]
  · rw [Consensus.termAt_take (by simp)]
    exact represents.snapshotTerm

theorem compactThrough (present : through ≤ full.length)
    (known : Consensus.termAt full through = some term) :
    (log.compactThrough through term cfg).Represents full := by
  rcases Nat.lt_or_ge log.snapshotIndex through with above | covered
  · rw [compactThrough_of_indexed represents.contiguous above (by rwa [represents.lastIndex])]
    refine ⟨represents.indexed, present, ?_, known⟩
    simp [represents.entries, Nat.add_sub_cancel' above.le]
  · rwa [Log.compactThrough, if_pos covered]

theorem compactThrough_index (above : log.snapshotIndex ≤ through)
    (present : through ≤ full.length) :
    (log.compactThrough through term cfg).snapshotIndex = through := by
  unfold Log.compactThrough
  split_ifs with covered
  · exact le_antisymm above covered
  · simp only [represents.lastIndex]
    exact min_eq_left present

end

/-- Merging a slice of another log: the entries the two share are kept, and so is
everything after them unless the slice disagrees with it. -/
theorem mergeLoop (sourceIndexed : Indexed 0 source)
    (matching : ∀ index term, Consensus.termAt full index = some term →
      Consensus.termAt source index = some term → full.take index = source.take index)
    (represents : log.Represents full) (above : log.snapshotIndex ≤ prevIndex)
    (present : prevIndex ≤ full.length) (shared : full.take prevIndex = source.take prevIndex)
    (slice : entries <+: source.drop prevIndex) :
    (log.mergeLoop entries).Represents
      (Consensus.State.adoptLog full (source.take (prevIndex + entries.length))) := by
  -- Induction on the entries not yet looked at; everything before them is shared.
  induction entries generalizing prevIndex with
  | nil =>
    have held : source.take (prevIndex + 0) <+: full := by
      rw [Nat.add_zero, ← shared]
      exact take_prefix _ _
    rw [length_nil, Consensus.State.adoptLog_eq_self held]
    exact represents
  | cons entry rest ih =>
    have entryAt : source[prevIndex]? = some entry := by
      have first : (entry :: rest)[0]? = some entry := rfl
      simpa using Consensus.getElem?_of_isPrefix slice first
    have index : entry.index = prevIndex + 1 := by
      simpa using sourceIndexed prevIndex entry entryAt
    have sourceTerm : Consensus.termAt source (prevIndex + 1) = some entry.term := by
      simp only [Consensus.termAt, entryAt]
      rfl
    have whole : source.take (prevIndex + (entry :: rest).length) =
        source.take prevIndex ++ entry :: rest := by
      rw [take_add, prefix_iff_eq_take.mp slice]
      simp
    have follows : Indexed prevIndex (entry :: rest) := by
      have dropped := sourceIndexed.drop prevIndex
      rw [Nat.zero_add] at dropped
      exact dropped.of_isPrefix slice
    have takeLength : (full.take prevIndex).length = prevIndex := by
      rw [length_take]
      omega
    have reads := represents.termAt (show log.snapshotIndex ≤ prevIndex + 1 by omega)
    simp only [Log.mergeLoop, index, reads]
    cases known : Consensus.termAt full (prevIndex + 1) with
    | none =>
      have ended : full.length = prevIndex := by
        by_contra longer
        rcases Consensus.termAt_isSome_of_le (show prevIndex + 1 ≤ full.length by omega)
          with ⟨term, isKnown⟩
        rw [isKnown] at known
        cases known
      have lacks : ¬source.take (prevIndex + (entry :: rest).length) <+: full := by
        intro held
        have := held.length_le
        rw [whole, ← shared, length_append, takeLength, length_cons] at this
        omega
      have extended := represents.append (ended.symm ▸ follows)
      rw [Consensus.State.adoptLog_eq_source lacks, whole, ← shared,
        take_of_length_le ended.le]
      exact extended
    | some term =>
      simp only
      split_ifs with same
      · have sharedNext : full.take (prevIndex + 1) = source.take (prevIndex + 1) :=
          matching (prevIndex + 1) term known (by rw [sourceTerm, same])
        have sliceNext : rest <+: source.drop (prevIndex + 1) := by
          rw [← drop_drop]
          simpa using slice.drop 1
        have merged := ih (by omega) (Consensus.le_length_of_termAt known) sharedNext sliceNext
        rwa [length_cons, Nat.add_comm rest.length, ← Nat.add_assoc]
      · have lacks : ¬source.take (prevIndex + (entry :: rest).length) <+: full := by
          intro held
          have bound : prevIndex + 1 ≤
              (source.take (prevIndex + (entry :: rest).length)).length := by
            rw [whole, ← shared, length_append, takeLength, length_cons]
            omega
          rw [Consensus.termAt_of_isPrefix held bound,
            Consensus.termAt_take (by simp), sourceTerm] at known
          exact same (Option.some.inj known).symm
        have truncated := represents.truncateFrom
          (show log.snapshotIndex < prevIndex + 1 by omega)
        rw [Nat.add_sub_cancel] at truncated
        have replaced := truncated.append (takeLength.symm ▸ follows)
        rw [Consensus.State.adoptLog_eq_source lacks, whole, ← shared]
        exact replaced

theorem truncateFrom_base (log : Log) (start : ℕ) :
    (log.truncateFrom start).snapshotIndex = log.snapshotIndex ∧
      (log.truncateFrom start).snapshotTerm = log.snapshotTerm ∧
      (log.truncateFrom start).snapshotConfig = log.snapshotConfig := by
  unfold Log.truncateFrom
  split
  · exact ⟨rfl, rfl, rfl⟩
  · split_ifs <;> exact ⟨rfl, rfl, rfl⟩

theorem mergeLoop_base (log : Log) (entries : List Entry) :
    (log.mergeLoop entries).snapshotIndex = log.snapshotIndex ∧
      (log.mergeLoop entries).snapshotTerm = log.snapshotTerm ∧
      (log.mergeLoop entries).snapshotConfig = log.snapshotConfig := by
  induction entries with
  | nil => exact ⟨rfl, rfl, rfl⟩
  | cons entry rest ih =>
    unfold Log.mergeLoop
    split
    · split_ifs
      · exact ih
      · exact truncateFrom_base log entry.index
    · exact ⟨rfl, rfl, rfl⟩

theorem merge_base (log : Log) (prevIndex : ℕ) (entries : List Entry) :
    (log.merge prevIndex entries).1.snapshotIndex = log.snapshotIndex ∧
      (log.merge prevIndex entries).1.snapshotTerm = log.snapshotTerm ∧
      (log.merge prevIndex entries).1.snapshotConfig = log.snapshotConfig := by
  rw [merge_eq]
  exact mergeLoop_base log entries

theorem merge (sourceIndexed : Indexed 0 source)
    (matching : ∀ index term, Consensus.termAt full index = some term →
      Consensus.termAt source index = some term → full.take index = source.take index)
    (represents : log.Represents full) (above : log.snapshotIndex ≤ prevIndex)
    (present : prevIndex ≤ full.length) (shared : full.take prevIndex = source.take prevIndex)
    (slice : entries <+: source.drop prevIndex) :
    (log.merge prevIndex entries).1.Represents
        (Consensus.State.adoptLog full (source.take (prevIndex + entries.length))) ∧
      (log.merge prevIndex entries).2 = prevIndex + entries.length := by
  have follows := (sourceIndexed.drop prevIndex).of_isPrefix slice
  rw [Nat.zero_add] at follows
  rw [merge_eq]
  exact ⟨mergeLoop sourceIndexed matching represents above present shared slice, follows.getLast?⟩

theorem installSnapshot_base (represents : log.Represents full)
    (above : log.snapshotIndex < snap.lastIndex) :
    (log.installSnapshot snap).snapshotIndex = snap.lastIndex ∧
      (log.installSnapshot snap).snapshotTerm = snap.lastTerm ∧
      (log.installSnapshot snap).snapshotConfig = snap.config := by
  unfold Log.installSnapshot
  split_ifs with agrees
  · have bound := Consensus.le_length_of_termAt (represents.termAt_of_eq_some agrees)
    simp only [Log.compactThrough, if_neg (Nat.not_le.mpr above), represents.lastIndex,
      min_eq_left bound, and_self]
  · exact ⟨rfl, rfl, rfl⟩

/-- Installing a snapshot of another log keeps what agrees with it and takes over the rest. -/
theorem installSnapshot (sourceIndexed : Indexed 0 source)
    (matching : ∀ index term, Consensus.termAt full index = some term →
      Consensus.termAt source index = some term → full.take index = source.take index)
    (represents : log.Represents full) (above : log.snapshotIndex ≤ snap.lastIndex)
    (known : Consensus.termAt source snap.lastIndex = some snap.lastTerm) :
    (log.installSnapshot snap).Represents
      (Consensus.State.adoptLog full (source.take snap.lastIndex)) := by
  have bound := Consensus.le_length_of_termAt known
  have takeLength : (source.take snap.lastIndex).length = snap.lastIndex := by
    rw [length_take]
    omega
  unfold Log.installSnapshot
  split_ifs with agrees
  · have sameTerm := represents.termAt_of_eq_some agrees
    have held : source.take snap.lastIndex <+: full := by
      rw [← matching _ _ sameTerm known]
      exact take_prefix _ _
    rw [Consensus.State.adoptLog_eq_self held]
    exact represents.compactThrough (Consensus.le_length_of_termAt sameTerm) sameTerm
  · have lacks : ¬source.take snap.lastIndex <+: full := by
      intro held
      apply agrees
      rw [represents.termAt above, Consensus.termAt_of_isPrefix held takeLength.ge,
        Consensus.termAt_take le_rfl, known]
    rw [Consensus.State.adoptLog_eq_source lacks]
    refine ⟨sourceIndexed.take _, takeLength.ge, ?_, ?_⟩
    · rw [drop_eq_nil_of_le takeLength.le]
    · rw [Consensus.termAt_take le_rfl, known]

end Represents

theorem Indexed.filter_ge (indexed : Indexed base entries) (start : ℕ) :
    entries.filter (fun entry => decide (start ≤ entry.index)) =
      entries.drop (start - (base + 1)) := by
  cases start with
  | zero => simp
  | succ start =>
    rw [Nat.add_sub_add_right]
    exact indexed.filter_gt start

inductive Begins : Log → Prop
  | new : Begins new
  | bootstrap (config : Config) : Begins (bootstrap config)
  | restore (snapshot : Option Snapshot) {entries : List Entry}
      (follows : Indexed ((snapshot.map Snapshot.lastIndex).getD 0) entries) :
      Begins (restore snapshot entries)

inductive Edit (log : Log) : Log → Prop
  | append {entries : List Entry} (follows : Indexed log.lastIndex entries) :
      Edit log (log.append entries)
  | merge {prevIndex : ℕ} {entries : List Entry} (above : log.snapshotIndex ≤ prevIndex)
      (present : prevIndex ≤ log.lastIndex) (follows : Indexed prevIndex entries) :
      Edit log (log.merge prevIndex entries).1
  | truncateFrom (start : ℕ) : Edit log (log.truncateFrom start)
  | compactThrough {through : ℕ} (present : through ≤ log.lastIndex) (term : ℕ) (config : Config) :
      Edit log (log.compactThrough through term config)
  | installSnapshot (snap : Snapshot) : Edit log (log.installSnapshot snap)

section

variable {log : Log} (indexed : Indexed log.snapshotIndex log.entries)

include indexed

theorem indexed_compactThrough (present : through ≤ log.lastIndex) :
    Indexed (log.compactThrough through term cfg).snapshotIndex
      (log.compactThrough through term cfg).entries := by
  rcases Nat.lt_or_ge log.snapshotIndex through with above | covered
  · rw [compactThrough_of_indexed indexed above present]
    simpa [Nat.add_sub_cancel' above.le] using indexed.drop (through - log.snapshotIndex)
  · rwa [Log.compactThrough, if_pos covered]

theorem get_of_get_compactThrough (present : through ≤ log.lastIndex) {entry : Entry}
    (found : (log.compactThrough through term cfg).get index = some entry) :
    log.get index = some entry := by
  rcases Nat.lt_or_ge log.snapshotIndex through with above | covered
  · have past := Represents.lt_of_get found
    rw [get_of_indexed (indexed_compactThrough indexed present) past] at found
    rw [compactThrough_of_indexed indexed above present] at found past
    rw [getElem?_drop] at found
    rw [get_of_indexed indexed (above.trans past), ← found]
    congr 1
    simp only at past ⊢
    omega
  · rwa [Log.compactThrough, if_pos covered] at found

theorem indexed_edit {edited : Log} (edit : Edit log edited) :
    Indexed edited.snapshotIndex edited.entries := by
  cases edit with
  | append follows => exact indexed.append (lastIndex_of_indexed indexed ▸ follows)
  | merge above present follows =>
    rw [merge_eq]
    exact indexed_mergeLoop indexed follows above present
  | truncateFrom start => exact indexed_truncateFrom indexed start
  | compactThrough present => exact indexed_compactThrough indexed present
  | installSnapshot snap =>
    unfold Log.installSnapshot
    split_ifs with known
    · exact indexed_compactThrough indexed (le_lastIndex_of_termAt indexed known)
    · exact fun _ _ present => nomatch present

theorem slice_eq_filter (start stop : ℕ) : log.slice start stop =
    log.entries.filter fun entry =>
      decide (start ≤ entry.index) && decide (entry.index < stop) := by
  rw [slice_of_indexed indexed, ← filter_filter, indexed.filter_lt, (indexed.take _).filter_ge,
    Nat.sub_sub]
  rfl

theorem toList_get (index : ℕ) :
    (log.get index).toList = log.entries.filter fun entry => decide (entry.index = index) := by
  have single : (log.entries.filter fun entry => decide (entry.index = index)) =
      log.slice index (index + 1) := by
    rw [slice_eq_filter indexed]
    congr 1
    funext entry
    rw [← Bool.decide_and, decide_eq_decide]
    omega
  rw [single, slice_of_indexed indexed, Log.firstIndex, Nat.add_sub_add_right, drop_take]
  rcases Nat.lt_or_ge log.snapshotIndex index with above | covered
  · have one : index - log.snapshotIndex - (index - (log.snapshotIndex + 1)) = 1 := by omega
    rw [one, take_one, head?_drop, get_of_indexed indexed above, Nat.sub_sub]
  · rw [Represents.get_eq_none log covered, Nat.sub_eq_zero_of_le covered]
    simp

end

def restored : Log := restore (some ⟨3, 2, .default, []⟩) [⟨2, 4, .noop⟩]

def grown : Log := restored.append [⟨2, 5, .noop⟩, ⟨2, 6, .noop⟩]

def corrected : Log := (grown.merge 5 [⟨3, 6, .noop⟩, ⟨3, 7, .noop⟩]).1

/-- A log that has been through everything. -/
def edited : Log :=
  ((corrected.compactThrough 4 2 .default).installSnapshot ⟨5, 2, .default, []⟩).truncateFrom 7

end Log

end ChronoScope.Chronolog
