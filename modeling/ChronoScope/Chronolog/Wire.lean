import ChronoScope.Chronolog.Client
import ChronoScope.Chronolog.Message

/-!
# The wire format

A frame is a version, the length and the checksum of a payload, and the payload:
Raft traffic, a client request or its reply, or a membership change or its
result. What is encoded in at most `maxFrame` bytes is decoded again. The parts
that are also stored on disk can be decoded whatever follows them, provided no
length in them exceeds what its prefix can hold.
-/

namespace ChronoScope.Chronolog

open List

/-- Bumped whenever the encoding changes incompatibly. -/
def protocolVersion : ℕ := 1

/-- Anything longer than this is a corrupt length, not a message. -/
def maxFrame : ℕ := 64 * 1024 * 1024

def Body.encode : Body → Bytes
  | .preVoteReq lastIndex lastTerm => Writer.u8 1 ++ (Writer.u64 lastIndex ++ Writer.u64 lastTerm)
  | .preVoteResp granted => Writer.u8 2 ++ Writer.bool granted
  | .voteReq lastIndex lastTerm => Writer.u8 3 ++ (Writer.u64 lastIndex ++ Writer.u64 lastTerm)
  | .voteResp granted => Writer.u8 4 ++ Writer.bool granted
  | .appendReq prevIndex prevTerm entries commit =>
    Writer.u8 5 ++ (Writer.u64 prevIndex ++ (Writer.u64 prevTerm ++ (Writer.u64 commit ++
      Writer.seq Entry.encode entries)))
  | .appendResp success matchIndex conflictIndex conflictTerm =>
    Writer.u8 6 ++ (Writer.bool success ++ (Writer.u64 matchIndex ++
      (Writer.u64 conflictIndex ++ Writer.u64 conflictTerm)))
  | .snapshotReq snapshot => Writer.u8 7 ++ snapshot.encode
  | .snapshotResp success index => Writer.u8 8 ++ (Writer.bool success ++ Writer.u64 index)
  | .heartbeatReq commit ctx => Writer.u8 9 ++ (Writer.u64 commit ++ Writer.u64 ctx)
  | .heartbeatResp ctx => Writer.u8 10 ++ Writer.u64 ctx
  | .timeoutNow => Writer.u8 11

def Body.decode : Decoder Body :=
  Reader.bind Reader.u8 fun tag =>
    match tag.toNat with
    | 1 => Reader.bind Reader.u64 fun lastIndex => Reader.map (.preVoteReq lastIndex) Reader.u64
    | 2 => Reader.map .preVoteResp Reader.bool
    | 3 => Reader.bind Reader.u64 fun lastIndex => Reader.map (.voteReq lastIndex) Reader.u64
    | 4 => Reader.map .voteResp Reader.bool
    | 5 =>
      Reader.bind Reader.u64 fun prevIndex =>
        Reader.bind Reader.u64 fun prevTerm =>
          Reader.bind Reader.u64 fun commit =>
            Reader.map (fun entries => .appendReq prevIndex prevTerm entries commit)
              (Reader.seq Entry.decode)
    | 6 =>
      Reader.bind Reader.bool fun success =>
        Reader.bind Reader.u64 fun matchIndex =>
          Reader.bind Reader.u64 fun conflictIndex =>
            Reader.map (.appendResp success matchIndex conflictIndex) Reader.u64
    | 7 => Reader.map .snapshotReq Snapshot.decode
    | 8 => Reader.bind Reader.bool fun success => Reader.map (.snapshotResp success) Reader.u64
    | 9 => Reader.bind Reader.u64 fun commit => Reader.map (.heartbeatReq commit) Reader.u64
    | 10 => Reader.map .heartbeatResp Reader.u64
    | 11 => Reader.pure .timeoutNow
    | _ => Reader.fail (.badTag tag)

def Message.encode (msg : Message) : Bytes := Writer.u64 msg.term ++ msg.body.encode

def Message.decode : Decoder Message :=
  Reader.bind Reader.u64 fun term => Reader.map (fun body => { term, body }) Body.decode

/-- How a membership change turned out. -/
inductive AdminResult where
  /-- Appended to the leader's log at this index. -/
  | accepted (index : ℕ)
  | notLeader (hint : Option NodeId)
  | rejected
  deriving DecidableEq

def AdminResult.encode : AdminResult → Bytes
  | .accepted index => Writer.u8 0 ++ Writer.u64 index
  | .notLeader hint => Writer.u8 1 ++ Writer.opt Writer.u32 hint
  | .rejected => Writer.u8 2

def AdminResult.decode : Decoder AdminResult :=
  Reader.bind Reader.u8 fun tag =>
    match tag.toNat with
    | 0 => Reader.map .accepted Reader.u64
    | 1 => Reader.map .notLeader (Reader.opt Reader.u32)
    | 2 => Reader.pure .rejected
    | _ => Reader.fail (.badTag tag)

/-- Everything a peer can send. -/
inductive Wire where
  | raft (msg : Message)
  | client (req : Client.Request)
  | reply (resp : Client.Response)
  | admin (change : ConfigChange)
  | adminReply (result : AdminResult)
  deriving DecidableEq

namespace Wire

def frame (payload : Bytes) : Bytes :=
  Writer.u8 protocolVersion ++
    (Writer.u32 payload.length ++ (Writer.u32 (crc32c payload).toNat ++ payload))

/-- Decode a frame, verifying the version and the checksum. -/
def unframe (buf : Bytes) : Except DecodeError Bytes :=
  match buf with
  | [] => .error .truncated
  | version :: rest =>
    if buf.length < 9 then .error .truncated
    else if version.toNat ≠ protocolVersion then .error (.badTag version)
    else
      let len := leValue (rest.take 4)
      let crc := leValue ((rest.drop 4).take 4)
      if len > maxFrame then .error (.badLength len)
      else if buf.length < 9 + len then .error .truncated
      else
        let payload := (rest.drop 8).take len
        let actual := crc32c payload
        if actual.toNat ≠ crc then .error (.badChecksum (UInt32.ofNat crc) actual)
        else .ok payload

def payload : Wire → Bytes
  | .raft msg => 0 :: msg.encode
  | .client req => 1 :: req.encode
  | .reply resp => 2 :: resp.encode
  | .admin change => 3 :: change.encode
  | .adminReply result => 4 :: result.encode

def encode (wire : Wire) : Bytes := frame wire.payload

/-- What a decoder finds at the start of the bytes. -/
def whole {α : Type} (decode : Decoder α) (wrap : α → Wire) (buf : Bytes) :
    Except DecodeError Wire :=
  (decode buf).map fun read => wrap read.1

def decode (buf : Bytes) : Except DecodeError Wire :=
  match unframe buf with
  | .error reason => .error reason
  | .ok [] => .error .truncated
  | .ok (tag :: rest) =>
    match tag.toNat with
    | 0 => whole Message.decode .raft rest
    | 1 => whole Client.Request.decode .client rest
    | 2 => whole Client.Response.decode .reply rest
    | 3 => whole ConfigChange.decode .admin rest
    | 4 => whole AdminResult.decode .adminReply rest
    | _ => .error (.badTag tag)

end Wire

def Body.InRange : Body → Prop
  | .preVoteReq lastIndex lastTerm => lastIndex < 2 ^ 64 ∧ lastTerm < 2 ^ 64
  | .voteReq lastIndex lastTerm => lastIndex < 2 ^ 64 ∧ lastTerm < 2 ^ 64
  | .appendReq prevIndex prevTerm entries commit =>
    prevIndex < 2 ^ 64 ∧ prevTerm < 2 ^ 64 ∧ commit < 2 ^ 64 ∧ ∀ entry ∈ entries, entry.InRange
  | .appendResp _ matchIndex conflictIndex conflictTerm =>
    matchIndex < 2 ^ 64 ∧ conflictIndex < 2 ^ 64 ∧ conflictTerm < 2 ^ 64
  | .snapshotReq snapshot => snapshot.InRange
  | .snapshotResp _ index => index < 2 ^ 64
  | .heartbeatReq commit ctx => commit < 2 ^ 64 ∧ ctx < 2 ^ 64
  | .heartbeatResp ctx => ctx < 2 ^ 64
  | _ => True

structure Message.InRange (msg : Message) : Prop where
  term : msg.term < 2 ^ 64
  body : msg.body.InRange

def AdminResult.InRange : AdminResult → Prop
  | .accepted index => index < 2 ^ 64
  | .notLeader hint => ∀ node, hint = some node → node < 2 ^ 32
  | .rejected => True

/-- The integers are in the range of their types. -/
def Wire.InRange : Wire → Prop
  | .raft msg => msg.InRange
  | .client req => req.InRange
  | .reply resp => resp.InRange
  | .admin change => change.InRange
  | .adminReply result => result.InRange

theorem Entry.length_encode_pos (entry : Entry) : 0 < entry.encode.length := by
  simp only [Entry.encode, Writer.u64, length_append, length_leBytes]
  omega

theorem length_encode_le_flatMap {α : Type} {encode : α → Bytes} {items : List α} {item : α}
    (member : item ∈ items) : (encode item).length ≤ (items.flatMap encode).length := by
  rcases append_of_mem member with ⟨before, after, rfl⟩
  simp only [flatMap_append, flatMap_cons, length_append]
  omega

theorem entries_inverts {entries : List Entry} (inRange : ∀ entry ∈ entries, entry.InRange)
    (short : (Writer.seq Entry.encode entries).length < 2 ^ 32) :
    Inverts (Reader.seq Entry.decode) (Writer.seq Entry.encode entries) entries := by
  simp only [Writer.seq, length_append] at short
  have counted : entries.length ≤ (entries.flatMap Entry.encode).length :=
    Inverts.length_le_length_flatMap fun entry _ => entry.length_encode_pos
  refine Inverts.seq (by omega) ?_ fun entry _ => entry.length_encode_pos
  intro entry member
  have shorter : entry.encode.length ≤ (entries.flatMap Entry.encode).length :=
    length_encode_le_flatMap member
  exact Entry.decode_inverts ((inRange entry member).fits (by omega))

theorem Body.decode_inverts {body : Body} (inRange : body.InRange)
    (short : body.encode.length < 2 ^ 32) : Inverts Body.decode body.encode body := by
  cases body with
  | preVoteReq lastIndex lastTerm =>
    exact Inverts.u8.bind ((Inverts.u64 inRange.1).bind ((Inverts.u64 inRange.2).map _))
  | preVoteResp granted => exact Inverts.u8.bind (Inverts.bool.map _)
  | voteReq lastIndex lastTerm =>
    exact Inverts.u8.bind ((Inverts.u64 inRange.1).bind ((Inverts.u64 inRange.2).map _))
  | voteResp granted => exact Inverts.u8.bind (Inverts.bool.map _)
  | appendReq prevIndex prevTerm entries commit =>
    rcases inRange with ⟨prevIndexFits, prevTermFits, commitFits, entriesFit⟩
    simp only [Body.encode, length_append] at short
    exact Inverts.u8.bind ((Inverts.u64 prevIndexFits).bind ((Inverts.u64 prevTermFits).bind
      ((Inverts.u64 commitFits).bind ((entries_inverts entriesFit (by omega)).map _))))
  | appendResp success matchIndex conflictIndex conflictTerm =>
    rcases inRange with ⟨matchFits, indexFits, termFits⟩
    exact Inverts.u8.bind (Inverts.bool.bind ((Inverts.u64 matchFits).bind
      ((Inverts.u64 indexFits).bind ((Inverts.u64 termFits).map _))))
  | snapshotReq snapshot =>
    simp only [Body.encode, length_append] at short
    have fits := Snapshot.InRange.fits inRange (by omega)
    exact Inverts.u8.bind ((Snapshot.decode_inverts fits).map _)
  | snapshotResp success index =>
    exact Inverts.u8.bind (Inverts.bool.bind ((Inverts.u64 inRange).map _))
  | heartbeatReq commit ctx =>
    exact Inverts.u8.bind ((Inverts.u64 inRange.1).bind ((Inverts.u64 inRange.2).map _))
  | heartbeatResp ctx => exact Inverts.u8.bind ((Inverts.u64 inRange).map _)
  | timeoutNow => exact Inverts.u8.bind (Inverts.pure _)

theorem Message.decode_inverts {msg : Message} (inRange : msg.InRange)
    (short : msg.encode.length < 2 ^ 32) : Inverts Message.decode msg.encode msg := by
  simp only [Message.encode, length_append] at short
  exact (Inverts.u64 inRange.term).bind ((Body.decode_inverts inRange.body (by omega)).map _)

theorem AdminResult.decode_inverts {result : AdminResult} (inRange : result.InRange) :
    Inverts AdminResult.decode result.encode result := by
  cases result with
  | accepted index => exact Inverts.u8.bind ((Inverts.u64 inRange).map _)
  | notLeader hint =>
    exact Inverts.u8.bind
      ((Inverts.opt fun node isHint => Inverts.u32 (inRange node isHint)).map _)
  | rejected => exact Inverts.u8.bind (Inverts.pure _)

namespace Wire

theorem unframe_frame {payload : Bytes} (short : payload.length ≤ maxFrame) :
    unframe (frame payload) = .ok payload := by
  have small : maxFrame < 2 ^ 32 := by decide
  rcases checksummed_fields (short.trans_lt small) [] (by rw [append_nil]) with
    ⟨lenIs, crcIs, payloadIs⟩
  have length : (frame payload).length = 9 + payload.length := by
    simp only [frame, Writer.u8, Writer.u32, length_append, length_singleton,
      length_leBytes]
    omega
  simp only [frame, Writer.u8, singleton_append] at length ⊢
  simp only [unframe, length, lenIs, crcIs, payloadIs]
  rw [if_neg (by omega), if_neg (by decide), if_neg (by omega), if_neg (by omega), if_neg (by simp)]

theorem whole_of_inverts {α : Type} {decode : Decoder α} {encoded : Bytes} {value : α}
    (inverts : Inverts decode encoded value) (wrap : α → Wire) :
    whole decode wrap encoded = .ok (wrap value) := by
  have decoded := inverts []
  rw [append_nil] at decoded
  rw [whole, decoded]
  rfl

theorem decode_encode {wire : Wire} (inRange : wire.InRange)
    (short : wire.payload.length ≤ maxFrame) :
    decode wire.encode = .ok wire := by
  have small : maxFrame < 2 ^ 32 := by decide
  unfold decode encode
  rw [unframe_frame short]
  cases wire with
  | raft msg =>
    simp only [payload, length_cons] at short
    exact whole_of_inverts (Message.decode_inverts inRange (by omega)) .raft
  | client req =>
    simp only [payload, length_cons] at short
    exact whole_of_inverts (Client.Request.decode_inverts inRange (by omega)) .client
  | reply resp =>
    simp only [payload, length_cons] at short
    exact whole_of_inverts (Client.Response.decode_inverts inRange (by omega)) .reply
  | admin change =>
    simp only [payload, length_cons] at short
    exact whole_of_inverts (ConfigChange.decode_inverts
      (ConfigChange.InRange.fits inRange (by omega))) .admin
  | adminReply result => exact whole_of_inverts (AdminResult.decode_inverts inRange) .adminReply

end Wire

/-! Where a decoder returns the value whatever follows, the value fits, and conversely. -/

theorem Inverts.accepted {α : Type} {decode : Decoder α} {encoded : Bytes} {value : α}
    {post : α → ℕ → Prop} (inverts : Inverts decode encoded value) (accepts : Accepts decode post) :
    ∃ used, post value used := by
  rcases accepts _ _ _ (inverts []) with ⟨used, _, holds⟩
  exact ⟨used, holds⟩

/-- What is sent in a frame is received, and what is part of entries and snapshots can be decoded
whatever follows it if and only if its lengths fit. -/
theorem wire_round_trip :
    (∀ wire : Wire, wire.InRange → wire.payload.length ≤ maxFrame →
      Wire.decode wire.encode = .ok wire) ∧
    (∀ entry : Entry, Inverts Entry.decode entry.encode entry ↔ entry.Fits) ∧
    (∀ change : ConfigChange, Inverts ConfigChange.decode change.encode change ↔ change.Fits) ∧
    (∀ cfg : Config, Inverts Config.decode cfg.encode cfg ↔ cfg.Fits) ∧
    ∀ snapshot : Snapshot, Inverts Snapshot.decode snapshot.encode snapshot ↔ snapshot.Fits := by
  refine ⟨fun wire inRange short => Wire.decode_encode inRange short, ?_, ?_, ?_, ?_⟩
  · refine fun entry => ⟨fun inverts => ?_, Entry.decode_inverts⟩
    rcases inverts.accepted Entry.decode_accepts with ⟨_, fits, _⟩
    exact fits
  · refine fun change => ⟨fun inverts => ?_, ConfigChange.decode_inverts⟩
    rcases inverts.accepted ConfigChange.decode_accepts with ⟨_, fits, _⟩
    exact fits
  · refine fun cfg => ⟨fun inverts => ?_, Config.decode_inverts⟩
    rcases inverts.accepted Config.decode_accepts with ⟨_, fits, _⟩
    exact fits
  · refine fun snapshot => ⟨fun inverts => ?_, Snapshot.decode_inverts⟩
    rcases inverts.accepted Snapshot.decode_accepts with ⟨_, fits, _⟩
    exact fits

theorem appendReq_received :
    let msg : Message :=
      { term := 3, body := .appendReq 4 2 [⟨2, 5, .noop⟩, ⟨3, 6, .normal [97]⟩] 4 }
    Wire.decode (Wire.raft msg).encode = .ok (.raft msg) := by
  intro msg
  refine wire_round_trip.1 _ ⟨by decide, by decide, by decide, by decide, ?_⟩ (by decide)
  intro entry member
  rcases mem_pair.mp member with rfl | rfl
  · exact ⟨by decide, by decide, trivial⟩
  · exact ⟨by decide, by decide, trivial⟩

/-- The length of the payload of this entry is encoded as zero. -/
theorem huge_entry_lost :
    let huge : Entry := { term := 1, index := 1, kind := .normal (List.replicate (2 ^ 32) 0) }
    ¬ Inverts Entry.decode huge.encode huge := by
  intro huge inverts
  rcases inverts.accepted Entry.decode_accepts with ⟨_, fits, _⟩
  have short : (List.replicate (2 ^ 32) (0 : UInt8)).length < 2 ^ 32 := fits.kind
  rw [length_replicate] at short
  exact absurd short (lt_irrefl _)

end ChronoScope.Chronolog
