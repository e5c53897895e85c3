import ChronoScope.Chronolog.Wire

/-!
# Corrupted frames

Whichever bit of a frame is flipped, the frame is rejected. A flip in the payload
changes its checksum, because every step of the checksum is injective in the
remainder and in the byte. A flip in the length either asks for more bytes than
there are, or cuts the payload short; the checksum of the part that is left may
happen to be right, but no decoder takes a proper prefix of what it encodes.
-/

namespace ChronoScope.Chronolog

open List

theorem decodeNodes_oblivious : Oblivious decodeNodes := Oblivious.u32.seq.map _

theorem ConfigChange.decode_oblivious : Oblivious ConfigChange.decode := by
  apply Oblivious.u8.bind
  intro tag
  split_ifs
  · exact decodeNodes_oblivious.bind fun incoming => decodeNodes_oblivious.map _
  · exact .pure _
  · exact .fail _

theorem EntryKind.decode_oblivious : Oblivious EntryKind.decode := by
  apply Oblivious.u8.bind
  intro tag
  split_ifs
  · exact Oblivious.bytes.map _
  · exact ConfigChange.decode_oblivious.map _
  · exact .pure _
  · exact .fail _

theorem Entry.decode_oblivious : Oblivious Entry.decode :=
  Oblivious.u64.bind fun _ => Oblivious.u64.bind fun _ => EntryKind.decode_oblivious.map _

theorem Config.decode_oblivious : Oblivious Config.decode :=
  decodeNodes_oblivious.bind fun _ =>
    decodeNodes_oblivious.bind fun _ => decodeNodes_oblivious.map _

theorem Snapshot.decode_oblivious : Oblivious Snapshot.decode :=
  Oblivious.u64.bind fun _ => Oblivious.u64.bind fun _ =>
    Config.decode_oblivious.bind fun _ => Oblivious.bytes.map _

theorem Body.decode_oblivious : Oblivious Body.decode := by
  apply Oblivious.u8.bind
  intro tag
  split
  · exact Oblivious.u64.bind fun _ => Oblivious.u64.map _
  · exact Oblivious.bool.map _
  · exact Oblivious.u64.bind fun _ => Oblivious.u64.map _
  · exact Oblivious.bool.map _
  · exact Oblivious.u64.bind fun _ => Oblivious.u64.bind fun _ => Oblivious.u64.bind fun _ =>
      Entry.decode_oblivious.seq.map _
  · exact Oblivious.bool.bind fun _ => Oblivious.u64.bind fun _ => Oblivious.u64.bind fun _ =>
      Oblivious.u64.map _
  · exact Snapshot.decode_oblivious.map _
  · exact Oblivious.bool.bind fun _ => Oblivious.u64.map _
  · exact Oblivious.u64.bind fun _ => Oblivious.u64.map _
  · exact Oblivious.u64.map _
  · exact .pure _
  · exact .fail _

theorem Message.decode_oblivious : Oblivious Message.decode :=
  Oblivious.u64.bind fun _ => Body.decode_oblivious.map _

theorem AdminResult.decode_oblivious : Oblivious AdminResult.decode := by
  apply Oblivious.u8.bind
  intro tag
  split
  · exact Oblivious.u64.map _
  · exact Oblivious.u32.opt.map _
  · exact .pure _
  · exact .fail _

namespace Client

theorem tagMode_oblivious : Oblivious tagMode := by
  apply Oblivious.u8.bind
  intro tag
  split
  · exact .pure _
  · exact .pure _
  · exact .pure _
  · exact .fail _

theorem Op.decode_oblivious : Oblivious Op.decode := by
  apply Oblivious.u8.bind
  intro tag
  split
  · exact Oblivious.bytes.bind fun _ => tagMode_oblivious.map _
  · exact Oblivious.bytes.bind fun _ => Oblivious.bytes.map _
  · exact Oblivious.bytes.map _
  · exact Oblivious.bytes.bind fun _ => Oblivious.bytes.opt.bind fun _ =>
      Oblivious.bytes.opt.map _
  · exact Oblivious.bytes.bind fun _ => Oblivious.u64.map _
  · exact .fail _

theorem Request.decode_oblivious : Oblivious Request.decode :=
  Oblivious.u64.bind fun _ => Oblivious.u64.bind fun _ => Op.decode_oblivious.map _

theorem Outcome.decode_oblivious : Oblivious Outcome.decode := by
  apply Oblivious.u8.bind
  intro tag
  split
  · exact Oblivious.bytes.opt.map _
  · exact Oblivious.u64.map _
  · exact Oblivious.bytes.opt.map _
  · exact Oblivious.u32.opt.map _
  · exact .pure _
  · exact .fail _

theorem Response.decode_oblivious : Oblivious Response.decode :=
  Oblivious.u64.bind fun _ => Oblivious.u64.bind fun _ => Outcome.decode_oblivious.map _

end Client

def flipBit (buf : Bytes) (position : ℕ) (bit : Fin 8) : Bytes :=
  buf.modify position (· ^^^ (1 <<< UInt8.ofNat bit))

variable {buf : Bytes} {position : ℕ}

namespace flipBit

theorem ne_self (byte : UInt8) (bit : Fin 8) : byte ^^^ (1 <<< UInt8.ofNat bit) ≠ byte := by
  have shifted : ∀ bit : Fin 8, (1 : UInt8) <<< UInt8.ofNat bit ≠ 0 := by decide
  intro same
  apply shifted bit
  rw [← UInt8.xor_right_inj byte, same, UInt8.xor_zero]

theorem exists_byte (inside : position < buf.length) (bit : Fin 8) :
    ∃ front byte other rest, buf = front ++ byte :: rest ∧ byte ≠ other ∧
      flipBit buf position bit = front ++ other :: rest := by
  refine ⟨buf.take position, buf[position], _, buf.drop (position + 1), ?_,
    (ne_self buf[position] bit).symm, modify_eq_take_cons_drop inside⟩
  rw [← drop_eq_getElem_cons inside, take_append_drop]

theorem ne (inside : position < buf.length) (bit : Fin 8) : flipBit buf position bit ≠ buf := by
  rcases exists_byte inside bit with ⟨front, byte, other, rest, isBuf, differ, flipped⟩
  rw [flipped, isBuf]
  intro same
  exact differ (List.cons.inj (append_cancel_left same)).1.symm

@[simp]
theorem length (buf : Bytes) (position : ℕ) (bit : Fin 8) :
    (flipBit buf position bit).length = buf.length := length_modify ..

theorem append_left {left : Bytes} (right : Bytes) (inside : position < left.length) (bit : Fin 8) :
    flipBit (left ++ right) position bit = flipBit left position bit ++ right := by
  apply ext_getElem?
  intro slot
  simp only [flipBit, getElem?_modify, getElem?_append, length_modify]
  split_ifs <;> first | rfl | omega | simp

theorem append_right (left right : Bytes) (offset : ℕ) (bit : Fin 8) :
    flipBit (left ++ right) (left.length + offset) bit = left ++ flipBit right offset bit := by
  apply ext_getElem?
  intro slot
  simp only [flipBit, getElem?_modify, getElem?_append]
  split_ifs <;> first | rfl | omega | simp

end flipBit

theorem leValue_injective {left right : Bytes} (width : left.length = right.length)
    (same : leValue left = leValue right) : left = right := by
  induction left generalizing right with
  | nil => exact (length_eq_zero_iff.mp width.symm).symm
  | cons byte left ih =>
    cases right with
    | nil => cases width
    | cons other right =>
      have byteBound := byte.toNat_lt
      have otherBound := other.toNat_lt
      simp only [leValue] at same
      have low : byte.toNat = other.toNat := by omega
      rw [UInt8.toNat_inj.mp low, ih (by simpa using width) (by omega)]

namespace Wire

theorem unframe_eq_ok {version : UInt8} {lenBytes crcBytes body payload : Bytes}
    (lenWidth : lenBytes.length = 4) (crcWidth : crcBytes.length = 4)
    (accepted : unframe (version :: (lenBytes ++ (crcBytes ++ body))) = .ok payload) :
    version.toNat = protocolVersion ∧ leValue lenBytes ≤ body.length ∧
      payload = body.take (leValue lenBytes) ∧ (crc32c payload).toNat = leValue crcBytes := by
  have lenTaken : (lenBytes ++ (crcBytes ++ body)).take 4 = lenBytes := by simp [← lenWidth]
  have behind : (lenBytes ++ (crcBytes ++ body)).drop 4 = crcBytes ++ body := by simp [← lenWidth]
  have crcTaken : (crcBytes ++ body).take 4 = crcBytes := by simp [← crcWidth]
  have bodyIs : (lenBytes ++ (crcBytes ++ body)).drop 8 = body := by
    rw [show 8 = 4 + 4 from rfl, ← drop_drop, behind]
    simp [← crcWidth]
  simp only [unframe, lenTaken, behind, crcTaken, bodyIs] at accepted
  split_ifs at accepted with _ versionIs _ enough checksum
  cases accepted
  refine ⟨not_not.mp versionIs, ?_, rfl, not_not.mp checksum⟩
  simp only [length_cons, length_append, lenWidth, crcWidth] at enough
  omega

theorem exists_decoder {wire : Wire} (inRange : wire.InRange)
    (short : wire.payload.length ≤ maxFrame) :
    ∃ (α : Type) (part : Decoder α) (wrap : α → Wire) (tag : UInt8) (encoded : Bytes) (value : α),
      wire.payload = tag :: encoded ∧ Oblivious part ∧ Inverts part encoded value ∧
        ∀ buf rest, unframe buf = .ok (tag :: rest) → decode buf = whole part wrap rest := by
  have small : maxFrame < 2 ^ 32 := by decide
  cases wire with
  | raft msg =>
    simp only [payload, length_cons] at short
    exact ⟨_, _, .raft, 0, _, msg, rfl, Message.decode_oblivious,
      Message.decode_inverts inRange (by omega),
        fun _ _ accepted => by rw [decode, accepted]; rfl⟩
  | client req =>
    simp only [payload, length_cons] at short
    exact ⟨_, _, .client, 1, _, req, rfl, Client.Request.decode_oblivious,
      Client.Request.decode_inverts inRange (by omega),
      fun _ _ accepted => by rw [decode, accepted]; rfl⟩
  | reply resp =>
    simp only [payload, length_cons] at short
    exact ⟨_, _, .reply, 2, _, resp, rfl, Client.Response.decode_oblivious,
      Client.Response.decode_inverts inRange (by omega),
      fun _ _ accepted => by rw [decode, accepted]; rfl⟩
  | admin change =>
    simp only [payload, length_cons] at short
    exact ⟨_, _, .admin, 3, _, change, rfl, ConfigChange.decode_oblivious,
      ConfigChange.decode_inverts (ConfigChange.InRange.fits inRange (by omega)),
      fun _ _ accepted => by rw [decode, accepted]; rfl⟩
  | adminReply result =>
    exact ⟨_, _, .adminReply, 4, _, result, rfl, AdminResult.decode_oblivious,
      AdminResult.decode_inverts inRange, fun _ _ accepted => by rw [decode, accepted]; rfl⟩

theorem decode_cut_fails {wire : Wire} (inRange : wire.InRange)
    (short : wire.payload.length ≤ maxFrame) {count : ℕ} (cut : count < wire.payload.length)
    (accepted : unframe buf = .ok (wire.payload.take count)) :
    ∃ reason, decode buf = .error reason := by
  rcases exists_decoder inRange short with
    ⟨α, part, wrap, tag, encoded, value, payloadIs, oblivious, inverts, decodes⟩
  rw [payloadIs] at cut accepted
  cases count with
  | zero =>
    rw [take_zero] at accepted
    exact ⟨.truncated, by rw [decode, accepted]⟩
  | succ count =>
    rw [decodes buf _ accepted]
    have all := inverts []
    rw [append_nil, ← take_append_drop count encoded] at all
    have proper : encoded.drop count ≠ [] := by simpa using cut
    rcases oblivious.cut_fails all proper with ⟨reason, failed⟩
    exact ⟨reason, by rw [whole, failed]; rfl⟩

theorem unframe_flipBit {payload read : Bytes} (short : payload.length ≤ maxFrame)
    (inside : position < (frame payload).length) (bit : Fin 8)
    (accepted : unframe (flipBit (frame payload) position bit) = .ok read) :
    ∃ count < payload.length, read = payload.take count := by
  have small : maxFrame < 2 ^ 32 := by decide
  have lenIs : leValue (leBytes 4 payload.length) = payload.length :=
    leValue_leBytes (by simpa using short.trans_lt small)
  have crcIs : leValue (leBytes 4 (crc32c payload).toNat) = (crc32c payload).toNat :=
    leValue_leBytes (by simpa using (crc32c payload).toNat_lt)
  have width (value : ℕ) : (leBytes 4 value).length = 4 := length_leBytes 4 value
  simp only [frame, Writer.u8, Writer.u32, length_append, width, length_singleton]
    at inside accepted
  rcases Nat.lt_or_ge position 1 with inVersion | behindVersion
  · rw [flipBit.append_left _ (by simpa using inVersion)] at accepted
    obtain rfl : position = 0 := by omega
    have others : ∀ bit : Fin 8, (UInt8.ofNat protocolVersion ^^^ (1 <<< UInt8.ofNat bit)).toNat ≠
        protocolVersion := by decide
    exact absurd (unframe_eq_ok (width _) (width _) accepted).1 (others bit)
  obtain ⟨offset, rfl⟩ := Nat.exists_eq_add_of_le behindVersion
  have behind := flipBit.append_right [UInt8.ofNat protocolVersion]
    (leBytes 4 payload.length ++ (leBytes 4 (crc32c payload).toNat ++ payload)) offset bit
  rw [length_singleton] at behind
  rw [behind] at accepted
  rcases Nat.lt_or_ge offset 4 with inLen | behindLen
  · rw [flipBit.append_left _ (by rw [width]; exact inLen)] at accepted
    rcases unframe_eq_ok (by rw [flipBit.length, width]) (width _) accepted with
      ⟨_, bound, readIs, _⟩
    refine ⟨_, lt_of_le_of_ne bound fun same => ?_, readIs⟩
    exact flipBit.ne (by rw [width]; exact inLen) bit
      (leValue_injective (flipBit.length _ _ _) (same.trans lenIs.symm))
  obtain ⟨offset, rfl⟩ := Nat.exists_eq_add_of_le behindLen
  have behind := flipBit.append_right (leBytes 4 payload.length)
    (leBytes 4 (crc32c payload).toNat ++ payload) offset bit
  rw [width] at behind
  rw [behind] at accepted
  rcases Nat.lt_or_ge offset 4 with inCrc | behindCrc
  · rw [flipBit.append_left _ (by rw [width]; exact inCrc)] at accepted
    rcases unframe_eq_ok (width _) (by rw [flipBit.length, width]) accepted with
      ⟨_, _, readIs, checksum⟩
    rw [lenIs, take_length] at readIs
    rw [readIs] at checksum
    exact absurd (leValue_injective (flipBit.length _ _ _) (checksum.symm.trans crcIs.symm))
      (flipBit.ne (by rw [width]; exact inCrc) bit)
  · obtain ⟨offset, rfl⟩ := Nat.exists_eq_add_of_le behindCrc
    have behind := flipBit.append_right (leBytes 4 (crc32c payload).toNat) payload offset bit
    rw [width] at behind
    rw [behind] at accepted
    rcases unframe_eq_ok (width _) (width _) accepted with ⟨_, _, readIs, checksum⟩
    rw [lenIs, ← flipBit.length payload offset bit, take_length] at readIs
    rw [crcIs, readIs, UInt32.toNat_inj] at checksum
    have within : offset < payload.length := by omega
    rcases flipBit.exists_byte within bit with
      ⟨front, byte, other, rest, isPayload, differ, flipped⟩
    rw [flipped, isPayload] at checksum
    exact absurd (crc32c_byte_injective checksum).symm differ

/-- Whichever bit of a frame is flipped, it is rejected. -/
theorem decode_flipBit (wire : Wire) (inRange : wire.InRange)
    (short : wire.payload.length ≤ maxFrame) (position : ℕ)
    (inside : position < wire.encode.length) (bit : Fin 8) :
    ∃ reason, decode (flipBit wire.encode position bit) = .error reason := by
  cases accepted : unframe (flipBit wire.encode position bit) with
  | error reason => exact ⟨reason, by rw [decode, accepted]⟩
  | ok read =>
    rcases unframe_flipBit short inside bit accepted with ⟨count, cut, rfl⟩
    exact decode_cut_fails inRange short cut accepted

/-- The length of this frame becomes eight, and the tag of the message is cut off. -/
theorem timeoutNow_flipped :
    ∃ reason, decode (flipBit (raft { term := 1, body := .timeoutNow }).encode 1 1) =
      .error reason :=
  decode_flipBit (raft { term := 1, body := .timeoutNow }) ⟨by decide, trivial⟩ (by decide) 1
    (by decide) 1

end Wire

end ChronoScope.Chronolog
