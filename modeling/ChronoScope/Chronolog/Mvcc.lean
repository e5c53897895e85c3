import Mathlib.Data.List.DropRight
import ChronoScope.Chronolog.ExactlyOnce

/-!
# Versions of a key

A request writes unless it is a repeat, a read, or a compare-and-swap that finds
something else. The store keeps the last sixteen writes of each key, each under
the index of its request, so a read at a version that is not older than what is
kept tells what the key held back then.

Everything the store keeps is in its snapshot, tombstones included.
-/

namespace ChronoScope.Chronolog

open List

open Client (Op Request Outcome)

namespace KvStore

variable {commands : List Command}

section Versions

variable {store : KvStore} {key : Bytes}

def versions (store : KvStore) (key : Bytes) : List Version := (store.data.get key).getD []

theorem get_eq (store : KvStore) (key : Bytes) :
    store.get key = (store.versions key).getLast?.bind Version.value := by
  unfold KvStore.get versions
  cases store.data.get key <;> rfl

theorem getAt_eq (store : KvStore) (key : Bytes) (version : ℕ) :
    store.getAt key version =
      ((store.versions key).reverse.find? fun other => decide (other.version ≤ version)).bind
        Version.value := by
  unfold KvStore.getAt versions
  cases store.data.get key <;> rfl

theorem versions_write (store : KvStore) (key other : Bytes) (value : Option Bytes) (version : ℕ) :
    (store.write key value version).versions other =
      if other = key then
        (store.versions key ++ [Version.mk version value]).rtake store.keepVersions
      else store.versions other := by
  unfold KvStore.write versions
  simp only [BTreeMap.get_insert]
  split_ifs with isKey long
  · rfl
  · rw [Option.getD_some, List.rtake, Nat.sub_eq_zero_of_le (not_lt.mp long), drop_zero]
  · rfl

/-- What an operation writes: a key, and its new version. -/
def written (store : KvStore) (index : ℕ) : Op → Option (Bytes × Version)
  | .get _ _ => none
  | .getAt _ _ => none
  | .put key value => some (key, ⟨index, some value⟩)
  | .delete key => some (key, ⟨index, none⟩)
  | .cas key expect value => if store.get key = expect then some (key, ⟨index, value⟩) else none

/-- What a request writes to a key, at most one version. A request served before writes nothing. -/
def effect (store : KvStore) (command : Command) (key : Bytes) : List Version :=
  match store.remembered command.2, store.written command.1 command.2.op with
  | none, some (target, version) => if key = target then [version] else []
  | _, _ => []

def writes (store : KvStore) (key : Bytes) : List Command → List Version
  | [] => []
  | command :: rest =>
    store.effect command key ++ writes (store.apply command.1 command.2).2 key rest

theorem writes_append (store : KvStore) (key : Bytes) (before after : List Command) :
    store.writes key (before ++ after) =
      store.writes key before ++ (store.replay before).writes key after := by
  induction before generalizing store with
  | nil => rfl
  | cons command rest ih =>
    rw [cons_append, writes, ih, ← append_assoc]
    rfl

theorem perform_eq (store : KvStore) (index : ℕ) (op : Op) :
    (store.perform index op).2 = match store.written index op with
      | none => store
      | some (key, version) => store.write key version.value version.version := by
  cases op with
  | cas key expect value =>
    simp only [KvStore.perform, written]
    split_ifs <;> rfl
  | _ => rfl

theorem versions_apply (short : (store.versions key).length ≤ store.keepVersions)
    (command : Command) :
    (store.apply command.1 command.2).2.versions key =
      (store.versions key ++ store.effect command key).rtake store.keepVersions := by
  have same : store.versions key = (store.versions key ++ []).rtake store.keepVersions := by
    rw [append_nil, List.rtake, Nat.sub_eq_zero_of_le short, drop_zero]
  unfold effect
  cases isOld : store.remembered command.2 with
  | some outcome =>
    rw [apply_of_remembered isOld]
    exact same
  | none =>
    rw [apply_of_fresh isOld]
    have moved : KvStore.written { store with applied := max store.applied command.1 }
        command.1 command.2.op = store.written command.1 command.2.op := by
      cases command.2.op <;> rfl
    change ((KvStore.perform _ _ _).2.versions key) = _
    rw [perform_eq, moved]
    rcases store.written command.1 command.2.op with _ | ⟨target, version⟩
    · exact same
    · dsimp only
      rw [versions_write]
      split_ifs with isTarget
      · rw [isTarget]
        rfl
      · exact same

theorem keepVersions_apply (store : KvStore) (command : Command) :
    (store.apply command.1 command.2).2.keepVersions = store.keepVersions := by
  cases isOld : store.remembered command.2 with
  | some outcome => rw [apply_of_remembered isOld]
  | none =>
    rw [apply_of_fresh isOld]
    dsimp only
    rw [perform_eq]
    split <;> rfl

theorem rtake_rtake_append {α : Type*} (kept : ℕ) (past more : List α) :
    ((past.rtake kept) ++ more).rtake kept = (past ++ more).rtake kept := by
  simp only [rtake_eq_reverse_take_reverse, reverse_append, reverse_reverse,
    take_append, take_take, min_eq_left (Nat.sub_le kept _)]

theorem versions_replay {past : List Version}
    (kept : store.versions key = past.rtake store.keepVersions) (commands : List Command) :
    (store.replay commands).versions key =
      (past ++ store.writes key commands).rtake store.keepVersions := by
  induction commands generalizing store past with
  | nil =>
    rw [writes, append_nil]
    exact kept
  | cons command rest ih =>
    have short : (store.versions key).length ≤ store.keepVersions := by
      rw [kept, List.rtake, length_drop]
      omega
    have next : (store.apply command.1 command.2).2.versions key =
        (past ++ store.effect command key).rtake
          (store.apply command.1 command.2).2.keepVersions := by
      rw [versions_apply short, kept, rtake_rtake_append, keepVersions_apply]
    rw [writes, ← append_assoc, ← keepVersions_apply store command]
    exact ih next

theorem versions_replay_new (key : Bytes) (commands : List Command) :
    (new.replay commands).versions key = (new.writes key commands).rtake 16 := by
  have nothing : new.versions key = ([] : List Version).rtake new.keepVersions := rfl
  exact versions_replay nothing commands

theorem writes_sublist (store : KvStore) (key : Bytes) (commands : List Command) :
    ((store.writes key commands).map Version.version).Sublist (commands.map Prod.fst) := by
  induction commands generalizing store with
  | nil => exact List.Sublist.slnil
  | cons command rest ih =>
    have single : ((store.effect command key).map Version.version).Sublist [command.1] := by
      unfold effect written
      rcases command with ⟨index, clientId, seq, op⟩
      cases op <;> split <;> grind
    rw [writes, map_append]
    exact single.append (ih _)

theorem writes_increasing (increasing : commands.Pairwise fun old later => old.1 < later.1)
    (store : KvStore) (key : Bytes) :
    (store.writes key commands).Pairwise fun old later => old.version < later.version :=
  pairwise_map.mp
    ((pairwise_map.mpr increasing).sublist (writes_sublist store key commands))

theorem index_of_mem_writes {version : Version} (member : version ∈ store.writes key commands) :
    ∃ command ∈ commands, command.1 = version.version :=
  mem_map.mp ((writes_sublist store key commands).subset (mem_map_of_mem member))

theorem find?_reverse_append {α : Type*} {test : α → Bool} {matching others : List α}
    (matches' : ∀ member ∈ matching, test member = true)
    (differ : ∀ member ∈ others, test member = false) :
    (matching ++ others).reverse.find? test = matching.getLast? := by
  have none : others.reverse.find? test = none := by
    simpa using differ
  rw [reverse_append, find?_append, none, Option.none_or, ← head?_reverse]
  cases back : matching.reverse with
  | nil => rfl
  | cons last rest =>
    have isMember : last ∈ matching := by
      rw [← mem_reverse, back]
      exact mem_cons_self
    simp [matches' last isMember]

/-- Where a kept version is old enough, the version looked for is kept too. -/
theorem getAt_replay {before after : List Command} {version : ℕ}
    (old : ∀ command ∈ before, command.1 ≤ version)
    (later : ∀ command ∈ after, version < command.1) {oldest : Version}
    (isOldest : ((new.replay (before ++ after)).versions key).head? = some oldest)
    (kept : oldest.version ≤ version) :
    (new.replay (before ++ after)).getAt key version = (new.replay before).get key := by
  have oldWrites : ∀ write ∈ new.writes key before, write.version ≤ version := by
    intro write member
    rcases index_of_mem_writes member with ⟨command, isCommand, sameIndex⟩
    rw [← sameIndex]
    exact old command isCommand
  have laterWrites : ∀ write ∈ (new.replay before).writes key after, version < write.version := by
    intro write member
    rcases index_of_mem_writes member with ⟨command, isCommand, sameIndex⟩
    rw [← sameIndex]
    exact later command isCommand
  rw [getAt_eq, get_eq, versions_replay_new] at *
  rw [versions_replay_new]
  rw [writes_append] at isOldest ⊢
  generalize new.writes key before = past at *
  generalize (new.replay before).writes key after = since at *
  unfold List.rtake at *
  have reaches : (past ++ since).length - 16 < past.length := by
    by_contra beyond
    have dropped := mem_of_mem_head? isOldest
    rw [drop_append, drop_eq_nil_of_le (by omega), nil_append] at dropped
    have := laterWrites oldest (mem_of_mem_drop dropped)
    omega
  rw [drop_append_of_le_length reaches.le, find?_reverse_append]
  · rw [getLast?_drop, getLast?_drop, if_neg (by omega), if_neg (by omega)]
  · intro write member
    exact decide_eq_true (oldWrites write (mem_of_mem_drop member))
  · intro write member
    exact decide_eq_false (not_le.mpr (laterWrites write member))

theorem splits_at (increasing : commands.Pairwise fun old later => old.1 < later.1) (version : ℕ) :
    (∀ command ∈ commands.takeWhile fun command => decide (command.1 ≤ version),
      command.1 ≤ version) ∧
    ∀ command ∈ commands.dropWhile fun command => decide (command.1 ≤ version),
      version < command.1 := by
  refine ⟨fun command member => ?_, ?_⟩
  · have := mem_takeWhile_imp member
    simpa using this
  have sorted := increasing.sublist
    (dropWhile_sublist fun command => decide (command.1 ≤ version))
  cases rest : commands.dropWhile fun command => decide (command.1 ≤ version) with
  | nil => simp
  | cons first later =>
    have above : version < first.1 := by
      have := head?_dropWhile_not
        (fun command : Command => decide (command.1 ≤ version)) commands
      rw [rest] at this
      simpa using this
    rw [rest, pairwise_cons] at sorted
    intro command member
    rcases mem_cons.mp member with rfl | isLater
    · exact above
    · exact above.trans (sorted.1 command isLater)

/-- The versions of a key are its last sixteen writes, in the order of their indices, and from
the oldest of them on a read at a version finds what the key held after the requests up to it. -/
theorem versions_tell_the_past {commands : List Command}
    (increasing : commands.Pairwise fun old later => old.1 < later.1) (key : Bytes) :
    ((new.replay commands).versions key).Pairwise (fun old later => old.version < later.version) ∧
    (new.replay commands).versions key = (new.writes key commands).rtake 16 ∧
    ∀ oldest, ((new.replay commands).versions key).head? = some oldest →
      ∀ version, oldest.version ≤ version →
        (new.replay commands).getAt key version =
          (new.replay (commands.takeWhile fun command =>
            decide (command.1 ≤ version))).get key := by
  refine ⟨?_, versions_replay_new key commands, ?_⟩
  · rw [versions_replay_new]
    exact (writes_increasing increasing new key).drop
  · intro oldest isOldest version kept
    rcases splits_at increasing version with ⟨old, later⟩
    have split := takeWhile_append_dropWhile (p := fun command : Command =>
      decide (command.1 ≤ version)) (l := commands)
    nth_rewrite 1 [← split]
    nth_rewrite 1 [← split] at isOldest
    exact getAt_replay old later isOldest kept

/-- A key that was set, read over, deleted and set again. -/
theorem versions_tell_a_deletion :
    let commands : List Command := [(1, ⟨1, 1, .put [97] [120]⟩), (4, ⟨1, 2, .delete [97]⟩),
      (5, ⟨1, 2, .put [97] [121]⟩), (7, ⟨2, 1, .cas [97] none (some [122])⟩)]
    (new.replay commands).versions [97] = [⟨1, some [120]⟩, ⟨4, none⟩, ⟨7, some [122]⟩] ∧
      (new.replay commands).getAt [97] 6 =
        (new.replay (commands.takeWhile fun command => decide (command.1 ≤ 6))).get [97] := by
  intro commands
  have increasing : commands.Pairwise fun old later => old.1 < later.1 := by decide
  exact ⟨by decide, (versions_tell_the_past increasing [97]).2.2 ⟨1, some [120]⟩ (by decide) 6
    (by decide)⟩

end Versions

/-- Whatever requests a store has been through, it is restored from its snapshot exactly, as long
as every count and every length fits its field. -/
theorem snapshot_faithful {commands : List Command}
    (inRange : ∀ command ∈ commands, command.1 < 2 ^ 64 ∧ command.2.InRange)
    (sized : (new.replay commands).Sized) :
    restore (new.replay commands).snapshot = .ok (new.replay commands) :=
  (typed_new.replay inRange).restore_snapshot sized

/-- A key that was set and deleted. -/
theorem snapshot_faithful_tombstone :
    let commands : List Command := [(1, ⟨1, 1, .put [97] [120]⟩), (4, ⟨1, 2, .delete [97]⟩)]
    restore (new.replay commands).snapshot = .ok (new.replay commands) := by
  intro commands
  have data : (new.replay commands).data.toList = [([97], [⟨1, some [120]⟩, ⟨4, none⟩])] := by
    decide
  have sessions : (new.replay commands).sessions.toList = [(1, ⟨2, .applied 4⟩)] := by decide
  apply snapshot_faithful
  · intro command member
    rcases mem_pair.mp member with rfl | rfl
    · exact ⟨by decide, by decide, by decide, trivial⟩
    · exact ⟨by decide, by decide, by decide, trivial⟩
  · constructor <;> simp only [data, sessions]
    all_goals simp [Client.Response.encode, Client.Outcome.encode, sessionResponse, Writer.u8,
      Writer.u64, length_leBytes]

end KvStore

end ChronoScope.Chronolog
