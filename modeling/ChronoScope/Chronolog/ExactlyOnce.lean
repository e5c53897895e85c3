import ChronoScope.Chronolog.Kv

/-!
# Requests take effect once

Requests reach the store in any order and any number of times, and between them
it may be replaced by what its own snapshot restores. A request takes effect if
its sequence number is above all those of its client so far. A repeat of the
latest one is answered from the session table; anything older changes nothing.

Restoring goes wrong only where a count or a length exceeds 32 bits.
-/

namespace ChronoScope.Chronolog

open List

open Client (Op Request Outcome)

namespace KvStore

inductive Event where
  /-- A request is applied at a log index. -/
  | apply (index : ℕ) (req : Request)
  /-- The store is replaced by what its snapshot restores. -/
  | reload

def step (store : KvStore) : Event → Except DecodeError KvStore
  | .apply index req => .ok (store.apply index req).2
  | .reload => restore store.snapshot

def run (store : KvStore) : List Event → Except DecodeError KvStore
  | [] => .ok store
  | event :: rest => do
      let next ← store.step event
      run next rest

theorem run_apply (store : KvStore) (index : ℕ) (req : Request) (rest : List Event) :
    run store (.apply index req :: rest) = run (store.apply index req).2 rest := rfl

theorem run_reload (store : KvStore) (rest : List Event) :
    run store (.reload :: rest) = restore store.snapshot >>= fun next => run next rest := rfl

/-- A request, and the index it is applied at. -/
abbrev Command := ℕ × Request

def commands (events : List Event) : List Command :=
  events.filterMap fun
    | .apply index req => some (index, req)
    | .reload => none

def replay (store : KvStore) (commands : List Command) : KvStore :=
  commands.foldl (fun store command => (store.apply command.1 command.2).2) store

/-- The sequence number is above all those of the same client before it. -/
def Fresh (seen : List Command) (req : Request) : Prop :=
  ∀ old ∈ seen, old.2.clientId = req.clientId → old.2.seq < req.seq

instance (seen : List Command) (req : Request) : Decidable (Fresh seen req) :=
  inferInstanceAs (Decidable (∀ old ∈ seen, _))

theorem fresh_nil (req : Request) : Fresh [] req :=
  fun _ member => absurd member not_mem_nil

/-- The requests that are fresh when it is their turn. -/
def firsts (seen : List Command) : List Command → List Command
  | [] => []
  | command :: rest =>
    if Fresh seen command.2 then command :: firsts (command :: seen) rest
    else firsts (command :: seen) rest

variable {binding : Bytes × List Version} {key : Bytes}

theorem mem_write {store : KvStore} {value : Option Bytes} {version : ℕ} {entry : Version}
    (member : binding ∈ (store.write key value version).data.toList) (isEntry : entry ∈ binding.2) :
    entry = ⟨version, value⟩ ∨ ∃ old ∈ store.data.toList, entry ∈ old.2 := by
  rcases BTreeMap.mem_insert member with rfl | old
  · have isEntry : entry ∈ (store.data.get key).getD [] ++ [⟨version, value⟩] := by
      dsimp only at isEntry
      split_ifs at isEntry
      · exact mem_of_mem_drop isEntry
      · exact isEntry
    rcases mem_append.mp isEntry with isOld | isNew
    · cases found : store.data.get key with
      | none => simp [found] at isOld
      | some versions =>
        exact .inr ⟨_, BTreeMap.mem_toList.mpr found, by simpa [found] using isOld⟩
    · exact .inl (mem_singleton.mp isNew)
  · exact .inr ⟨binding, old, isEntry⟩

theorem perform_sessions (store : KvStore) (index : ℕ) (op : Op) :
    (store.perform index op).2.sessions = store.sessions := by
  cases op with
  | cas key expect value =>
    simp only [KvStore.perform]
    split_ifs <;> rfl
  | _ => rfl

/-- The session table tells the highest sequence number of each client. -/
structure Tracks (store : KvStore) (seen : List Command) : Prop where
  missing : ∀ client, store.sessions.get client = none →
    ∀ old ∈ seen, old.2.clientId ≠ client
  served : ∀ client session, store.sessions.get client = some session →
    (∃ old ∈ seen, old.2.clientId = client ∧ old.2.seq = session.lastSeq) ∧
      ∀ old ∈ seen, old.2.clientId = client → old.2.seq ≤ session.lastSeq

theorem tracks_new : Tracks new [] :=
  ⟨fun _ _ _ member => absurd member not_mem_nil, fun _ _ impossible => nomatch impossible⟩

section Sessions

variable {store store' : KvStore} {seen : List Command} {req : Request} {index : ℕ}

theorem Tracks.fresh_iff (tracks : store.Tracks seen) :
    Fresh seen req ↔ store.remembered req = none := by
  unfold remembered
  cases found : store.sessions.get req.clientId with
  | none =>
    refine ⟨fun _ => rfl, fun _ old member same => ?_⟩
    exact absurd same (tracks.missing _ found old member)
  | some session =>
    rcases tracks.served _ session found with ⟨⟨old, member, same, isLast⟩, highest⟩
    dsimp only
    refine ⟨fun fresh => ?_, fun isNew => ?_⟩
    · have := fresh old member same
      rw [if_neg (by omega), if_neg (by omega)]
    · split_ifs at isNew
      intro other member' same'
      have := highest other member' same'
      omega

theorem apply_of_remembered {outcome : Outcome} (isOld : store.remembered req = some outcome) :
    store.apply index req = (outcome, { store with applied := max store.applied index }) := by
  have same : KvStore.remembered { store with applied := max store.applied index } req =
      some outcome := isOld
  unfold KvStore.apply
  simp only [same]

theorem apply_of_fresh (isNew : store.remembered req = none) :
    let performed := KvStore.perform { store with applied := max store.applied index } index req.op
    store.apply index req = (performed.1, { performed.2 with
      sessions := store.sessions.insert req.clientId
        { lastSeq := req.seq, lastOutcome := performed.1 } }) := by
  have same : KvStore.remembered { store with applied := max store.applied index } req = none :=
    isNew
  unfold KvStore.apply
  simp only [same, perform_sessions]

theorem Tracks.apply (tracks : store.Tracks seen) (index : ℕ) (req : Request) :
    (store.apply index req).2.Tracks ((index, req) :: seen) := by
  cases isOld : store.remembered req with
  | none =>
    have fresh := tracks.fresh_iff.mpr isOld
    rw [apply_of_fresh isOld]
    refine ⟨?_, ?_⟩
    · intro client missing old member
      rw [BTreeMap.get_insert] at missing
      split_ifs at missing with same
      rcases mem_cons.mp member with rfl | before
      · exact fun isClient => same isClient.symm
      · exact tracks.missing client missing old before
    · intro client session found
      rw [BTreeMap.get_insert] at found
      split_ifs at found with same
      · cases found
        refine ⟨⟨_, mem_cons_self .., same.symm, rfl⟩, ?_⟩
        intro old member isClient
        rcases mem_cons.mp member with rfl | before
        · exact le_rfl
        · exact (fresh old before (isClient.trans same)).le
      · rcases tracks.served client session found with ⟨⟨old, member, isClient, isLast⟩, highest⟩
        refine ⟨⟨old, mem_cons_of_mem _ member, isClient, isLast⟩, ?_⟩
        intro other member' isClient'
        rcases mem_cons.mp member' with rfl | before
        · exact absurd isClient'.symm same
        · exact highest other before isClient'
  | some outcome =>
    have stale : ¬ Fresh seen req := fun fresh => by
      rw [tracks.fresh_iff.mp fresh] at isOld
      cases isOld
    rw [apply_of_remembered isOld]
    have known : ∃ old ∈ seen, old.2.clientId = req.clientId ∧ req.seq ≤ old.2.seq := by
      simpa [Fresh] using stale
    rcases known with ⟨older, isSeen, sameClient, notAbove⟩
    refine ⟨?_, ?_⟩
    · intro client missing old member
      rcases mem_cons.mp member with rfl | before
      · exact fun isClient =>
          tracks.missing client missing older isSeen (sameClient.trans isClient)
      · exact tracks.missing client missing old before
    · intro client session found
      rcases tracks.served client session found with ⟨⟨old, member, isClient, isLast⟩, highest⟩
      refine ⟨⟨old, mem_cons_of_mem _ member, isClient, isLast⟩, ?_⟩
      intro other member' isClient'
      rcases mem_cons.mp member' with rfl | before
      · exact notAbove.trans (highest older isSeen (sameClient.trans isClient'))
      · exact highest other before isClient'

theorem Tracks.replay (tracks : store.Tracks seen) (commands : List Command) :
    (store.replay commands).Tracks (commands.reverse ++ seen) := by
  induction commands generalizing store seen with
  | nil => exact tracks
  | cons command rest ih =>
    have later := ih (tracks.apply command.1 command.2)
    rw [reverse_cons, append_assoc]
    exact later

/-- The stores differ only in the index applied last. -/
structure Alike (store store' : KvStore) : Prop where
  data : store.data = store'.data
  sessions : store.sessions = store'.sessions
  keepVersions : store.keepVersions = store'.keepVersions

theorem Alike.perform (alike : store.Alike store') (index : ℕ) (op : Op) :
    (store.perform index op).1 = (store'.perform index op).1 ∧
      (store.perform index op).2.Alike (store'.perform index op).2 := by
  rcases store with ⟨data, sessions, applied, keepVersions⟩
  rcases store' with ⟨data', sessions', applied', keepVersions'⟩
  rcases alike with ⟨rfl, rfl, rfl⟩
  have sameGet (key : Bytes) : KvStore.get ⟨data, sessions, applied, keepVersions⟩ key =
      KvStore.get ⟨data, sessions, applied', keepVersions⟩ key := rfl
  cases op with
  | cas key expect value =>
    simp only [KvStore.perform, sameGet]
    split_ifs
    · exact ⟨rfl, rfl, rfl, rfl⟩
    · exact ⟨rfl, rfl, rfl, rfl⟩
  | _ => exact ⟨rfl, rfl, rfl, rfl⟩

theorem Alike.apply (alike : store.Alike store') (index : ℕ) (req : Request) :
    (store.apply index req).2.Alike (store'.apply index req).2 := by
  have same : store'.remembered req = store.remembered req := by
    rw [remembered, remembered, alike.sessions]
  have moved : KvStore.Alike { store with applied := max store.applied index }
      { store' with applied := max store'.applied index } :=
    ⟨alike.data, alike.sessions, alike.keepVersions⟩
  cases isOld : store.remembered req with
  | none =>
    rcases moved.perform index req.op with ⟨sameOutcome, performed⟩
    rw [apply_of_fresh isOld, apply_of_fresh (same.trans isOld)]
    refine ⟨performed.data, ?_, performed.keepVersions⟩
    rw [sameOutcome, alike.sessions]
  | some outcome =>
    rw [apply_of_remembered isOld, apply_of_remembered (same.trans isOld)]
    exact moved

theorem Tracks.replay_firsts (tracks : store.Tracks seen) (alike : store.Alike store')
    (commands : List Command) :
    (store.replay commands).Alike (store'.replay (firsts seen commands)) := by
  induction commands generalizing store store' seen with
  | nil => exact alike
  | cons command rest ih =>
    have tracks' := tracks.apply command.1 command.2
    unfold firsts
    split_ifs with fresh
    · exact ih tracks' (alike.apply command.1 command.2)
    · refine ih tracks' ?_
      cases isOld : store.remembered command.2 with
      | none => exact absurd (tracks.fresh_iff.mpr isOld) fresh
      | some outcome =>
        dsimp only
        rw [apply_of_remembered isOld]
        exact ⟨alike.data, alike.sessions, alike.keepVersions⟩

theorem served_replay {client : ℕ} {session : Session}
    (served : store.sessions.get client = some session) {commands : List Command}
    (latest : ∀ command ∈ commands, command.2.clientId = client →
      command.2.seq ≤ session.lastSeq) :
    (store.replay commands).sessions.get client = some session := by
  induction commands generalizing store with
  | nil => exact served
  | cons command rest ih =>
    refine ih ?_ fun other member => latest other (mem_cons_of_mem _ member)
    dsimp only
    cases isOld : store.remembered command.2 with
    | none =>
      rw [apply_of_fresh isOld, BTreeMap.get_insert]
      have other : ¬ client = command.2.clientId := by
        intro isClient
        have notAbove := latest command (mem_cons_self ..) isClient.symm
        rw [remembered, ← isClient, served] at isOld
        dsimp only at isOld
        split_ifs at isOld
        omega
      rw [if_neg other]
      exact served
    | some outcome =>
      rw [apply_of_remembered isOld]
      exact served

/-- The answer to a retry is the one to the request. -/
theorem remembered_replay {req' : Request} (isNew : store.remembered req = none)
    (sameClient : req'.clientId = req.clientId) (sameSeq : req'.seq = req.seq)
    {commands : List Command} (latest : ∀ command ∈ commands,
      command.2.clientId = req.clientId → command.2.seq ≤ req.seq) :
    ((store.apply index req).2.replay commands).remembered req' =
      some (store.apply index req).1 := by
  have served : (store.apply index req).2.sessions.get req.clientId =
      some { lastSeq := req.seq, lastOutcome := (store.apply index req).1 } := by
    rw [apply_of_fresh isNew]
    simp
  rw [remembered, sameClient, served_replay served latest]
  exact if_pos sameSeq

end Sessions

section Reloads

variable {store : KvStore} {commands : List Command}

theorem typed_new : Typed new :=
  ⟨by decide, rfl, by simp [new], by simp [new]⟩

theorem Typed.write (typed : store.Typed) (key : Bytes) (value : Option Bytes) {version : ℕ}
    (inRange : version < 2 ^ 64) : (store.write key value version).Typed := by
  refine { typed with version := ?_ }
  intro binding member entry isEntry
  rcases mem_write member isEntry with rfl | ⟨old, isOld, isEntry⟩
  · exact inRange
  · exact typed.version old isOld entry isEntry

theorem Typed.perform (typed : store.Typed) {index : ℕ} (inRange : index < 2 ^ 64) (op : Op) :
    (store.perform index op).1.InRange ∧ (store.perform index op).2.Typed := by
  cases op with
  | get key mode => exact ⟨trivial, typed⟩
  | getAt key version => exact ⟨trivial, typed⟩
  | put key value => exact ⟨inRange, typed.write key _ inRange⟩
  | delete key => exact ⟨inRange, typed.write key _ inRange⟩
  | cas key expect value =>
    simp only [KvStore.perform]
    split_ifs
    · exact ⟨inRange, typed.write key _ inRange⟩
    · exact ⟨trivial, typed⟩

theorem Typed.apply (typed : store.Typed) {command : Command} (index : command.1 < 2 ^ 64)
    (inRange : command.2.InRange) : (store.apply command.1 command.2).2.Typed := by
  have moved : KvStore.Typed { store with applied := max store.applied command.1 } :=
    { typed with applied := max_lt typed.applied index }
  cases isOld : store.remembered command.2 with
  | some outcome =>
    rw [apply_of_remembered isOld]
    exact moved
  | none =>
    rw [apply_of_fresh isOld]
    rcases moved.perform index command.2.op with ⟨outcome, performed⟩
    refine { performed with session := ?_ }
    intro binding member
    rcases BTreeMap.mem_insert member with rfl | old
    · exact ⟨inRange.clientId, inRange.seq, outcome⟩
    · exact typed.session binding old

theorem Typed.replay (typed : store.Typed)
    (inRange : ∀ command ∈ commands, command.1 < 2 ^ 64 ∧ command.2.InRange) :
    (store.replay commands).Typed := by
  induction commands generalizing store with
  | nil => exact typed
  | cons command rest ih =>
    rcases inRange command mem_cons_self with ⟨index, isRequest⟩
    exact ih (typed.apply index isRequest) fun other member =>
      inRange other (mem_cons_of_mem _ member)

theorem Typed.run_eq (typed : store.Typed) {events : List Event}
    (inRange : ∀ command ∈ KvStore.commands events, command.1 < 2 ^ 64 ∧ command.2.InRange)
    (sized : ∀ before after current, events = before ++ .reload :: after →
      run store before = .ok current → current.Sized) :
    run store events = .ok (store.replay (KvStore.commands events)) := by
  induction events generalizing store with
  | nil => rfl
  | cons event rest ih =>
    cases event with
    | apply index req =>
      have isRequest := inRange (index, req) mem_cons_self
      refine ih (typed.apply isRequest.1 isRequest.2)
        (fun command member => inRange command (mem_cons_of_mem _ member)) ?_
      intro before after current split ran
      exact sized (.apply index req :: before) after current (by rw [split]; rfl) ran
    | reload =>
      have same (events : List Event) : run store (.reload :: events) = run store events := by
        rw [run_reload, typed.restore_snapshot (sized [] rest store rfl rfl)]
        rfl
      rw [same]
      refine ih typed inRange fun before after current split ran => ?_
      exact sized (.reload :: before) after current (by rw [split]; rfl) ((same before).trans ran)

end Reloads

theorem commands_append (events more : List Event) :
    commands (events ++ more) = commands events ++ commands more :=
  filterMap_append ..

theorem replay_append (store : KvStore) (before after : List Command) :
    store.replay (before ++ after) = (store.replay before).replay after :=
  foldl_append ..

/-- Every request takes effect once, through any number of repeats and any number of reloads of a
store that the format can hold. -/
theorem exactly_once {events : List Event}
    (inRange : ∀ command ∈ commands events, command.1 < 2 ^ 64 ∧ command.2.InRange)
    (sized : ∀ before after store, events = before ++ .reload :: after →
      run new before = .ok store → store.Sized) :
    (∃ store, run new events = .ok store ∧
      store.data = (new.replay (firsts [] (commands events))).data) ∧
    (∀ before index req between index' req' after,
      events = before ++ .apply index req :: (between ++ .apply index' req' :: after) →
      req'.clientId = req.clientId → req'.seq = req.seq →
      (∀ old ∈ commands before, ¬ (old.2.clientId = req.clientId ∧ old.2.seq = req.seq)) →
      (∀ old ∈ commands before ++ commands between,
        old.2.clientId = req.clientId → old.2.seq ≤ req.seq) →
      ∃ store store', run new before = .ok store ∧
        run new (before ++ .apply index req :: between) = .ok store' ∧
        (store'.apply index' req').1 = (store.apply index req).1) ∧
    ∀ before index req after, events = before ++ .apply index req :: after →
      (∃ old ∈ commands before, old.2.clientId = req.clientId ∧ req.seq < old.2.seq) →
      ∃ store, run new before = .ok store ∧ (store.apply index req).2.data = store.data ∧
        (store.apply index req).2.sessions = store.sessions := by
  have runs (before after : List Event) (split : events = before ++ after) :
      run new before = .ok (new.replay (commands before)) := by
    rw [split, commands_append] at inRange
    refine typed_new.run_eq (fun command member => inRange command (mem_append_left _ member)) ?_
    intro earlier later store isBefore
    exact sized earlier (later ++ after) store (by rw [split, isBefore]; simp)
  have tracks (commands : List Command) := tracks_new.replay commands
  refine ⟨⟨_, runs events [] (by simp), ?_⟩, ?_, ?_⟩
  · exact (tracks_new.replay_firsts ⟨rfl, rfl, rfl⟩ _).data
  · intro before index req between index' req' after split sameClient sameSeq isFirst latest
    refine ⟨_, _, runs before _ split, runs (before ++ .apply index req :: between)
      (.apply index' req' :: after) (by rw [split]; simp), ?_⟩
    have fresh : Fresh ((commands before).reverse ++ []) req := by
      intro old member isClient
      have member : old ∈ commands before := by simpa using member
      exact lt_of_le_of_ne (latest old (mem_append_left _ member) isClient)
        fun isSeq => isFirst old member ⟨isClient, isSeq⟩
    have isNew := (tracks (commands before)).fresh_iff.mp fresh
    have isOld : (new.replay (commands (before ++ .apply index req :: between))).remembered req' =
        some ((new.replay (commands before)).apply index req).1 := by
      rw [commands_append, replay_append]
      exact remembered_replay isNew sameClient sameSeq fun command member =>
        latest command (mem_append_right (commands before) member)
    rw [apply_of_remembered isOld]
  · rintro before index req after split ⟨old, member, sameClient, newer⟩
    refine ⟨_, runs before _ split, ?_⟩
    cases isOld : (new.replay (commands before)).remembered req with
    | none =>
      have fresh := (tracks (commands before)).fresh_iff.mpr isOld
      have := fresh old (by simpa using member) sameClient
      omega
    | some outcome =>
      rw [apply_of_remembered isOld]
      exact ⟨rfl, rfl⟩

/-- A request is retried after a reload. -/
theorem retried_once_applied :
    let req : Request := { clientId := 1, seq := 1, op := .put [97] [120] }
    ∃ store, run new [.apply 1 req, .reload, .apply 2 req] = .ok store ∧
      store.data = (new.replay [(1, req)]).data := by
  intro req
  have data : (new.apply 1 req).2.data.toList = [([97], [⟨1, some [120]⟩])] := by decide
  have sessions : (new.apply 1 req).2.sessions.toList = [(1, ⟨1, .applied 1⟩)] := by decide
  refine (@exactly_once [.apply 1 req, .reload, .apply 2 req] ?_ ?_).1
  · intro command member
    have inRange : req.InRange := ⟨by decide, by decide, trivial⟩
    rcases mem_pair.mp (show command ∈ [(1, req), (2, req)] from member) with rfl | rfl
    · exact ⟨by decide, inRange⟩
    · exact ⟨by decide, inRange⟩
  · intro before after store split ran
    rcases before with _ | ⟨_, _ | ⟨_, _ | ⟨_, _⟩⟩⟩
    · cases split
    · cases split
      cases ran
      constructor <;> simp only [data, sessions]
      all_goals simp [Client.Response.encode, Outcome.encode, sessionResponse, Writer.u8,
        Writer.u64, length_leBytes]
    · cases split
    · simp at split

theorem key_of_restore {buf : Bytes} {store : KvStore} (restored : restore buf = .ok store)
    (member : binding ∈ store.data.toList) : binding.1.length < 2 ^ 32 := by
  cases decoded : decodeStore buf with
  | error reason =>
    rw [restore, decoded] at restored
    cases restored
  | ok read =>
    rw [restore, decoded] at restored
    cases restored
    rcases Reader.bind_eq_ok decoded with ⟨applied, afterApplied, _, decoded⟩
    rcases Reader.bind_eq_ok decoded with ⟨data, afterData, decodedData, decoded⟩
    rcases Reader.map_eq_ok decoded with ⟨sessions, _, isStore⟩
    rw [isStore] at member
    rcases Reader.mem_seq decodedData (BTreeMap.mem_collect member) with ⟨_, _, decodedKey⟩
    rcases Reader.bind_eq_ok decodedKey with ⟨key, _, decodedBytes, decodedKey⟩
    rcases Reader.map_eq_ok decodedKey with ⟨versions, _, rfl⟩
    rcases Accepts.bytes _ _ _ decodedBytes with ⟨_, _, short, _⟩
    exact short

theorem long_key_lost (long : 2 ^ 32 ≤ key.length) {store : KvStore}
    (reloaded : run new [.apply 1 { clientId := 1, seq := 1, op := .put key [] }, .reload] =
      .ok store) :
    store.data ≠
      (new.replay (firsts [] [(1, { clientId := 1, seq := 1, op := .put key [] })])).data := by
  intro same
  rw [run_apply, run_reload] at reloaded
  cases restored : restore
    (new.apply 1 { clientId := 1, seq := 1, op := .put key [] }).2.snapshot with
  | error reason =>
    rw [restored] at reloaded
    cases reloaded
  | ok found =>
    rw [restored] at reloaded
    cases reloaded
    have written : (key, [⟨1, some []⟩]) ∈
        (new.replay [(1, { clientId := 1, seq := 1, op := .put key [] })]).data.toList :=
      mem_singleton.mpr rfl
    rw [firsts, if_pos (fresh_nil _), firsts] at same
    rw [← same] at written
    exact absurd (key_of_restore restored written) long.not_gt

/-- The length of this key is encoded as zero. -/
theorem huge_key_lost :
    let req : Request := { clientId := 1, seq := 1, op := .put (List.replicate (2 ^ 32) 0) [] }
    ∀ store, run new [.apply 1 req, .reload] = .ok store →
      store.data ≠ (new.replay (firsts [] [(1, req)])).data :=
  fun _ => long_key_lost (by rw [length_replicate])

end KvStore

end ChronoScope.Chronolog
