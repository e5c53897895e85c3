import ChronoScope.Chronolog.Client

/-!
# The replicated state machine

A key-value store that keeps the last versions of each key, stamped with the log
index that carried them, and a session per client that makes retries idempotent:
the sequence number served last, and its outcome.

A snapshot is an encoding of the whole store, the session table included. What
fits the 32-bit counts of the format is restored from it exactly.
-/

namespace ChronoScope.Chronolog

open Client (Op Request Outcome Response)

/-- One version of a key. Without a value it is a tombstone. -/
structure Version where
  version : ℕ
  value : Option Bytes
  deriving DecidableEq

structure Session where
  lastSeq : ℕ
  lastOutcome : Outcome
  deriving DecidableEq

structure KvStore where
  /-- Versions per key, oldest first. -/
  data : BTreeMap Bytes (List Version)
  sessions : BTreeMap ℕ Session
  applied : ℕ
  /-- How many versions to retain per key. -/
  keepVersions : ℕ

namespace KvStore

def new : KvStore := { data := ∅, sessions := ∅, applied := 0, keepVersions := 16 }

def get (store : KvStore) (key : Bytes) : Option Bytes := do
  let versions ← store.data.get key
  let last ← versions.getLast?
  last.value

/-- The value as of a version: the newest write at or below it. -/
def getAt (store : KvStore) (key : Bytes) (version : ℕ) : Option Bytes := do
  let versions ← store.data.get key
  let found ← versions.reverse.find? fun other => decide (other.version ≤ version)
  found.value

def write (store : KvStore) (key : Bytes) (value : Option Bytes) (version : ℕ) : KvStore :=
  let versions := (store.data.get key).getD [] ++ [⟨version, value⟩]
  let kept := if versions.length > store.keepVersions then
      versions.drop (versions.length - store.keepVersions)
    else versions
  { store with data := store.data.insert key kept }

/-- Carry out an operation, whoever asked for it. -/
def perform (store : KvStore) (index : ℕ) : Op → Outcome × KvStore
  | .get key _ => (.value (store.get key), store)
  | .getAt key version => (.value (store.getAt key version), store)
  | .put key value => (.applied index, store.write key (some value) index)
  | .delete key => (.applied index, store.write key none index)
  | .cas key expect value =>
    let actual := store.get key
    if actual = expect then (.applied index, store.write key value index)
    else (.casFailed actual, store)

/-- The answer to a request that is not new. -/
def remembered (store : KvStore) (req : Request) : Option Outcome :=
  match store.sessions.get req.clientId with
  | none => none
  | some session =>
    if req.seq = session.lastSeq then some session.lastOutcome
    else if req.seq < session.lastSeq then some .unavailable
    else none

def apply (store : KvStore) (index : ℕ) (req : Request) : Outcome × KvStore :=
  let store := { store with applied := max store.applied index }
  match store.remembered req with
  | some outcome => (outcome, store)
  | none =>
    let (outcome, store) := store.perform index req.op
    (outcome, { store with
      sessions := store.sessions.insert req.clientId
        { lastSeq := req.seq, lastOutcome := outcome } })

def encodeVersion (version : Version) : Bytes :=
  Writer.u64 version.version ++ Writer.opt Writer.bytes version.value

def encodeKey (binding : Bytes × List Version) : Bytes :=
  Writer.bytes binding.1 ++ Writer.seq encodeVersion binding.2

def sessionResponse (binding : ℕ × Session) : Response :=
  { clientId := binding.1, seq := binding.2.lastSeq, outcome := binding.2.lastOutcome }

def encodeSession (binding : ℕ × Session) : Bytes :=
  Writer.u64 binding.1 ++ (Writer.u64 binding.2.lastSeq ++
    Writer.bytes (sessionResponse binding).encode)

def snapshot (store : KvStore) : Bytes :=
  Writer.u64 store.applied ++ (Writer.seq encodeKey store.data.toList ++
    Writer.seq encodeSession store.sessions.toList)

def decodeVersion : Decoder Version :=
  Reader.bind Reader.u64 fun version =>
    Reader.map (⟨version, ·⟩) (Reader.opt Reader.bytes)

def decodeKey : Decoder (Bytes × List Version) :=
  Reader.bind Reader.bytes fun key => Reader.map (key, ·) (Reader.seq decodeVersion)

/-- The outcome in an encoded response. -/
def decodeOutcome (bytes : Bytes) : Except DecodeError Outcome :=
  (Response.decode bytes).map fun read => read.1.outcome

def decodeSession : Decoder (ℕ × Session) :=
  Reader.bind Reader.u64 fun id => Reader.bind Reader.u64 fun lastSeq =>
    Reader.bind Reader.bytes fun bytes rest =>
      (decodeOutcome bytes).map fun lastOutcome => ((id, { lastSeq, lastOutcome }), rest)

def decodeStore : Decoder KvStore :=
  Reader.bind Reader.u64 fun applied =>
    Reader.bind (Reader.seq decodeKey) fun data =>
      Reader.map (fun sessions => { data := .collect data, sessions := .collect sessions, applied,
                                    keepVersions := 16 }) (Reader.seq decodeSession)

def restore (buf : Bytes) : Except DecodeError KvStore := (decodeStore buf).map Prod.fst

/-- Every count and every length is one the format can hold. -/
structure Sized (store : KvStore) : Prop where
  keys : store.data.toList.length < 2 ^ 32
  sessions : store.sessions.toList.length < 2 ^ 32
  key : ∀ binding ∈ store.data.toList, binding.1.length < 2 ^ 32
  versions : ∀ binding ∈ store.data.toList, binding.2.length < 2 ^ 32
  value : ∀ binding ∈ store.data.toList, ∀ version ∈ binding.2, ∀ bytes,
    version.value = some bytes → bytes.length < 2 ^ 32
  response : ∀ binding ∈ store.sessions.toList, (sessionResponse binding).encode.length < 2 ^ 32

/-- Every number is one of 64 bits, and the retention is the default. -/
structure Typed (store : KvStore) : Prop where
  applied : store.applied < 2 ^ 64
  keepVersions : store.keepVersions = 16
  version : ∀ binding ∈ store.data.toList, ∀ version ∈ binding.2, version.version < 2 ^ 64
  session : ∀ binding ∈ store.sessions.toList, (sessionResponse binding).InRange

theorem decodeVersion_inverts {version : Version} (inRange : version.version < 2 ^ 64)
    (short : ∀ bytes, version.value = some bytes → bytes.length < 2 ^ 32) :
    Inverts decodeVersion (encodeVersion version) version :=
  (Inverts.u64 inRange).bind (Inverts.map (Inverts.opt fun bytes isValue =>
    Inverts.bytes (short bytes isValue)) _)

theorem decodeKey_inverts {binding : Bytes × List Version} (key : binding.1.length < 2 ^ 32)
    (versions : binding.2.length < 2 ^ 32)
    (inRange : ∀ version ∈ binding.2, version.version < 2 ^ 64)
    (short : ∀ version ∈ binding.2, ∀ bytes, version.value = some bytes → bytes.length < 2 ^ 32) :
    Inverts decodeKey (encodeKey binding) binding := by
  refine (Inverts.bytes key).bind (Inverts.map (Inverts.seq versions ?_ ?_) _)
  · intro version member
    exact decodeVersion_inverts (inRange version member) (short version member)
  · intro version _
    simp only [encodeVersion, Writer.u64, List.length_append, length_leBytes]
    omega

theorem decodeSession_inverts {binding : ℕ × Session} (inRange : (sessionResponse binding).InRange)
    (short : (sessionResponse binding).encode.length < 2 ^ 32) :
    Inverts decodeSession (encodeSession binding) binding := by
  have decoded := Client.Response.decode_inverts inRange short []
  rw [List.append_nil] at decoded
  refine (Inverts.u64 inRange.clientId).bind ((Inverts.u64 inRange.seq).bind ?_)
  intro rest
  rw [Reader.bind, Inverts.bytes short rest]
  simp only [decodeOutcome, decoded]
  rfl

variable {store : KvStore}

theorem Typed.restore_snapshot (typed : store.Typed) (sized : store.Sized) :
    restore store.snapshot = .ok store := by
  have keys : Inverts (Reader.seq decodeKey) (Writer.seq encodeKey store.data.toList)
      store.data.toList := by
    refine Inverts.seq sized.keys ?_ ?_
    · exact fun binding member => decodeKey_inverts (sized.key binding member)
        (sized.versions binding member) (typed.version binding member) (sized.value binding member)
    · intro binding _
      simp only [encodeKey, Writer.bytes, Writer.u32, List.length_append, length_leBytes]
      omega
  have sessions : Inverts (Reader.seq decodeSession)
      (Writer.seq encodeSession store.sessions.toList) store.sessions.toList := by
    refine Inverts.seq sized.sessions ?_ ?_
    · exact fun binding member => decodeSession_inverts (typed.session binding member)
        (sized.response binding member)
    · intro binding _
      simp only [encodeSession, Writer.u64, List.length_append, length_leBytes]
      omega
  have decoded : Inverts decodeStore store.snapshot _ :=
    (Inverts.u64 typed.applied).bind (keys.bind (sessions.map _))
  have whole := decoded []
  rw [List.append_nil] at whole
  rw [restore, whole]
  cases store
  cases typed.keepVersions
  simp only [BTreeMap.collect_toList]
  rfl

end KvStore

end ChronoScope.Chronolog
