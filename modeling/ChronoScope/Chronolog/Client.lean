import ChronoScope.Chronolog.Types

/-!
# The client protocol

A request carries the id of its client and a sequence number, so that the state
machine can tell a retry from a new request. Both directions have a fixed
encoding: a request is the payload of a log entry, and an outcome is part of the
snapshot of the session table.
-/

namespace ChronoScope.Chronolog.Client

/-- How much staleness the caller tolerates. -/
inductive ReadMode where
  | linearizable
  | lease
  | stale
  deriving DecidableEq

inductive Op where
  | get (key : Bytes) (mode : ReadMode)
  | put (key value : Bytes)
  | delete (key : Bytes)
  /-- Compare and swap. To expect `none` means "only if absent". -/
  | cas (key : Bytes) (expect value : Option Bytes)
  /-- The value at a version. -/
  | getAt (key : Bytes) (version : ℕ)
  deriving DecidableEq

structure Request where
  clientId : ℕ
  /-- Increasing per client. -/
  seq : ℕ
  op : Op
  deriving DecidableEq

inductive Outcome where
  /-- What was read. -/
  | value (found : Option Bytes)
  /-- A write was applied. The version is the log index. -/
  | applied (version : ℕ)
  /-- The value was not the one expected. -/
  | casFailed (actual : Option Bytes)
  | notLeader (hint : Option NodeId)
  | unavailable
  deriving DecidableEq

structure Response where
  clientId : ℕ
  seq : ℕ
  outcome : Outcome
  deriving DecidableEq

def modeTag : ReadMode → ℕ
  | .linearizable => 0
  | .lease => 1
  | .stale => 2

def tagMode : Decoder ReadMode :=
  Reader.bind Reader.u8 fun tag =>
    match tag.toNat with
    | 0 => Reader.pure .linearizable
    | 1 => Reader.pure .lease
    | 2 => Reader.pure .stale
    | _ => Reader.fail (.badTag tag)

def Op.encode : Op → Bytes
  | .get key mode => Writer.u8 0 ++ (Writer.bytes key ++ Writer.u8 (modeTag mode))
  | .put key value => Writer.u8 1 ++ (Writer.bytes key ++ Writer.bytes value)
  | .delete key => Writer.u8 2 ++ Writer.bytes key
  | .cas key expect value =>
    Writer.u8 3 ++ (Writer.bytes key ++
      (Writer.opt Writer.bytes expect ++ Writer.opt Writer.bytes value))
  | .getAt key version => Writer.u8 4 ++ (Writer.bytes key ++ Writer.u64 version)

def Op.decode : Decoder Op :=
  Reader.bind Reader.u8 fun tag =>
    match tag.toNat with
    | 0 => Reader.bind Reader.bytes fun key => Reader.map (.get key) tagMode
    | 1 => Reader.bind Reader.bytes fun key => Reader.map (.put key) Reader.bytes
    | 2 => Reader.map .delete Reader.bytes
    | 3 =>
      Reader.bind Reader.bytes fun key =>
        Reader.bind (Reader.opt Reader.bytes) fun expect =>
          Reader.map (.cas key expect) (Reader.opt Reader.bytes)
    | 4 => Reader.bind Reader.bytes fun key => Reader.map (.getAt key) Reader.u64
    | _ => Reader.fail (.badTag tag)

def Request.encode (req : Request) : Bytes :=
  Writer.u64 req.clientId ++ (Writer.u64 req.seq ++ req.op.encode)

def Request.decode : Decoder Request :=
  Reader.bind Reader.u64 fun clientId =>
    Reader.bind Reader.u64 fun seq => Reader.map (fun op => { clientId, seq, op }) Op.decode

def Outcome.encode : Outcome → Bytes
  | .value found => Writer.u8 0 ++ Writer.opt Writer.bytes found
  | .applied version => Writer.u8 1 ++ Writer.u64 version
  | .casFailed actual => Writer.u8 2 ++ Writer.opt Writer.bytes actual
  | .notLeader hint => Writer.u8 3 ++ Writer.opt Writer.u32 hint
  | .unavailable => Writer.u8 4

def Outcome.decode : Decoder Outcome :=
  Reader.bind Reader.u8 fun tag =>
    match tag.toNat with
    | 0 => Reader.map .value (Reader.opt Reader.bytes)
    | 1 => Reader.map .applied Reader.u64
    | 2 => Reader.map .casFailed (Reader.opt Reader.bytes)
    | 3 => Reader.map .notLeader (Reader.opt Reader.u32)
    | 4 => Reader.pure .unavailable
    | _ => Reader.fail (.badTag tag)

def Response.encode (resp : Response) : Bytes :=
  Writer.u64 resp.clientId ++ (Writer.u64 resp.seq ++ resp.outcome.encode)

def Response.decode : Decoder Response :=
  Reader.bind Reader.u64 fun clientId =>
    Reader.bind Reader.u64 fun seq =>
      Reader.map (fun outcome => { clientId, seq, outcome }) Outcome.decode

def Op.InRange : Op → Prop
  | .getAt _ version => version < 2 ^ 64
  | _ => True

structure Request.InRange (req : Request) : Prop where
  clientId : req.clientId < 2 ^ 64
  seq : req.seq < 2 ^ 64
  op : req.op.InRange

def Outcome.InRange : Outcome → Prop
  | .applied version => version < 2 ^ 64
  | .notLeader hint => ∀ node, hint = some node → node < 2 ^ 32
  | _ => True

structure Response.InRange (resp : Response) : Prop where
  clientId : resp.clientId < 2 ^ 64
  seq : resp.seq < 2 ^ 64
  outcome : resp.outcome.InRange

theorem tagMode_inverts (mode : ReadMode) : Inverts tagMode (Writer.u8 (modeTag mode)) mode := by
  cases mode <;> exact Inverts.u8.bind (Inverts.pure _)

theorem optBytes_inverts {value : Option Bytes}
    (short : (Writer.opt Writer.bytes value).length < 2 ^ 32) :
    Inverts (Reader.opt Reader.bytes) (Writer.opt Writer.bytes value) value := by
  refine Inverts.opt ?_
  rintro item rfl
  simp only [Writer.opt, Writer.bytes, List.length_append] at short
  exact Inverts.bytes (by omega)

theorem Op.decode_inverts {op : Op} (inRange : op.InRange) (short : op.encode.length < 2 ^ 32) :
    Inverts Op.decode op.encode op := by
  cases op with
  | get key mode =>
    simp only [Op.encode, Writer.bytes, List.length_append] at short
    exact Inverts.u8.bind ((Inverts.bytes (by omega)).bind ((tagMode_inverts mode).map _))
  | put key value =>
    simp only [Op.encode, Writer.bytes, List.length_append] at short
    exact Inverts.u8.bind ((Inverts.bytes (by omega)).bind ((Inverts.bytes (by omega)).map _))
  | delete key =>
    simp only [Op.encode, Writer.bytes, List.length_append] at short
    exact Inverts.u8.bind ((Inverts.bytes (by omega)).map _)
  | cas key expect value =>
    simp only [Op.encode, List.length_append] at short
    have keyShort : key.length < 2 ^ 32 := by
      have : key.length ≤ (Writer.bytes key).length := by simp [Writer.bytes]
      omega
    exact Inverts.u8.bind ((Inverts.bytes keyShort).bind ((optBytes_inverts (by omega)).bind
      ((optBytes_inverts (by omega)).map _)))
  | getAt key version =>
    simp only [Op.encode, Writer.bytes, List.length_append] at short
    exact Inverts.u8.bind ((Inverts.bytes (by omega)).bind ((Inverts.u64 inRange).map _))

theorem Request.decode_inverts {req : Request} (inRange : req.InRange)
    (short : req.encode.length < 2 ^ 32) : Inverts Request.decode req.encode req := by
  simp only [Request.encode, List.length_append] at short
  exact (Inverts.u64 inRange.clientId).bind ((Inverts.u64 inRange.seq).bind
    ((Op.decode_inverts inRange.op (by omega)).map _))

theorem Outcome.decode_inverts {outcome : Outcome} (inRange : outcome.InRange)
    (short : outcome.encode.length < 2 ^ 32) : Inverts Outcome.decode outcome.encode outcome := by
  cases outcome with
  | value found =>
    simp only [Outcome.encode, List.length_append] at short
    exact Inverts.u8.bind ((optBytes_inverts (by omega)).map _)
  | applied version => exact Inverts.u8.bind ((Inverts.u64 inRange).map _)
  | casFailed actual =>
    simp only [Outcome.encode, List.length_append] at short
    exact Inverts.u8.bind ((optBytes_inverts (by omega)).map _)
  | notLeader hint =>
    exact Inverts.u8.bind
      ((Inverts.opt fun node isHint => Inverts.u32 (inRange node isHint)).map _)
  | unavailable => exact Inverts.u8.bind (Inverts.pure _)

theorem Response.decode_inverts {resp : Response} (inRange : resp.InRange)
    (short : resp.encode.length < 2 ^ 32) : Inverts Response.decode resp.encode resp := by
  simp only [Response.encode, List.length_append] at short
  exact (Inverts.u64 inRange.clientId).bind ((Inverts.u64 inRange.seq).bind
    ((Outcome.decode_inverts inRange.outcome (by omega)).map _))

end ChronoScope.Chronolog.Client
