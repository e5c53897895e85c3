import Mathlib.Algebra.GroupWithZero.Nat
import Mathlib.Data.Nat.Basic
import Mathlib.Logic.Function.Iterate

/-!
# The binary encoding

Everything is little-endian and fixed-width. The writer is a function from
values to bytes; the reader consumes a prefix of its input and is total: every
input either yields a value together with the bytes left over, or an error.
-/

namespace ChronoScope.Chronolog

open List

universe u

abbrev Bytes := List UInt8

inductive DecodeError where
  | truncated
  | badTag (tag : UInt8)
  | badLength (length : ℕ)
  | badChecksum (expected actual : UInt32)
  | invalid (reason : String)
  deriving DecidableEq, Repr

/-- The `width` low-order bytes of a number, least significant first. -/
def leBytes : ℕ → ℕ → Bytes
  | 0, _ => []
  | width + 1, value => UInt8.ofNat (value % 256) :: leBytes width (value / 256)

namespace Writer

def u8 (value : ℕ) : Bytes := [UInt8.ofNat value]

def u32 (value : ℕ) : Bytes := leBytes 4 value

def u64 (value : ℕ) : Bytes := leBytes 8 value

def bool (value : Bool) : Bytes := u8 value.toNat

def bytes (value : Bytes) : Bytes := u32 value.length ++ value

def seq {α : Type u} (encode : α → Bytes) (items : List α) : Bytes :=
  u32 items.length ++ items.flatMap encode

/-- `none` is a zero byte; `some` is a one byte followed by the value. -/
def opt {α : Type u} (encode : α → Bytes) : Option α → Bytes
  | none => u8 0
  | some value => u8 1 ++ encode value

end Writer

/-- A number from its little-endian bytes. -/
def leValue : Bytes → ℕ
  | [] => 0
  | byte :: rest => byte.toNat + 256 * leValue rest

/-- A decoder takes the unread bytes and returns a value with what is left. -/
abbrev Decoder (α : Type u) := Bytes → Except DecodeError (α × Bytes)

namespace Reader

def take (count : ℕ) : Decoder Bytes := fun buf =>
  if buf.length < count then .error .truncated else .ok (buf.take count, buf.drop count)

def map {α β : Type u} (change : α → β) (decode : Decoder α) : Decoder β := fun buf =>
  match decode buf with
  | .error reason => .error reason
  | .ok (value, rest) => .ok (change value, rest)

def bind {α β : Type u} (decode : Decoder α) (next : α → Decoder β) : Decoder β := fun buf =>
  match decode buf with
  | .error reason => .error reason
  | .ok (value, rest) => next value rest

def pure {α : Type u} (value : α) : Decoder α := fun buf => .ok (value, buf)

def fail {α : Type u} (reason : DecodeError) : Decoder α := fun _ => .error reason

def u8 : Decoder UInt8 := map (fun taken => taken.headD 0) (take 1)

def u32 : Decoder ℕ := map leValue (take 4)

def u64 : Decoder ℕ := map leValue (take 8)

/-- A byte that is neither zero nor one is corruption, not a value. -/
def bool : Decoder Bool :=
  bind u8 fun byte =>
    if byte = 0 then pure false else if byte = 1 then pure true else fail (.badTag byte)

def bytes : Decoder Bytes :=
  bind u32 fun length buf =>
    if buf.length < length then .error (.badLength length) else take length buf

def repeated {α : Type} (decode : Decoder α) : ℕ → Decoder (List α)
  | 0 => pure []
  | count + 1 => bind decode fun head => map (head :: ·) (repeated decode count)

def seq {α : Type} (decode : Decoder α) : Decoder (List α) :=
  bind u32 fun count buf =>
    if buf.length < count then .error (.badLength count) else repeated decode count buf

def opt {α : Type} (decode : Decoder α) : Decoder (Option α) :=
  bind u8 fun byte =>
    if byte = 0 then pure none
    else if byte = 1 then map some decode
    else fail (.badTag byte)

end Reader

@[simp]
theorem length_leBytes (width value : ℕ) : (leBytes width value).length = width := by
  induction width generalizing value with
  | zero => rfl
  | succ width ih => simp [leBytes, ih]

variable {value : ℕ}

theorem leValue_leBytes {width : ℕ} (fits : value < 256 ^ width) :
    leValue (leBytes width value) = value := by
  induction width generalizing value with
  | zero =>
    simp only [Nat.pow_zero] at fits
    simp [leBytes, leValue]
    omega
  | succ width ih =>
    have small : value / 256 < 256 ^ width := by
      rw [Nat.pow_succ] at fits
      omega
    simp only [leBytes, leValue, ih small]
    have byte : (UInt8.ofNat (value % 256)).toNat = value % 256 := by
      simp
    rw [byte]
    omega

/-- A decoder inverts an encoding when it recovers the value from the encoded
bytes, whatever follows them, and leaves exactly what follows. -/
def Inverts {α : Type u} (decode : Decoder α) (encoded : Bytes) (value : α) : Prop :=
  ∀ rest, decode (encoded ++ rest) = .ok (value, rest)

variable {α β : Type u}

variable {decode : Decoder α} {next : α → Decoder β}

namespace Inverts

theorem take (taken : Bytes) : Inverts (Reader.take taken.length) taken taken := by
  intro rest
  simp [Reader.take]

theorem pure (value : α) : Inverts (Reader.pure value) [] value := by
  intro rest
  rfl

theorem map {encoded : Bytes} {value : α} (inverts : Inverts decode encoded value)
    (change : α → β) :
    Inverts (Reader.map change decode) encoded (change value) := by
  intro rest
  simp [Reader.map, inverts rest]

theorem bind {first second : Bytes} {value : α} {result : β} (inverts : Inverts decode first value)
    (continues : Inverts (next value) second result) :
    Inverts (Reader.bind decode next) (first ++ second) result := by
  intro rest
  simp [Reader.bind, append_assoc, inverts (second ++ rest), continues rest]

theorem u8 : Inverts Reader.u8 (Writer.u8 value) (UInt8.ofNat value) :=
  (take [UInt8.ofNat value]).map _

theorem u32 (fits : value < 2 ^ 32) : Inverts Reader.u32 (Writer.u32 value) value := by
  have decoded := (take (leBytes 4 value)).map leValue
  rwa [length_leBytes, leValue_leBytes (by simpa using fits)] at decoded

theorem u64 (fits : value < 2 ^ 64) : Inverts Reader.u64 (Writer.u64 value) value := by
  have decoded := (take (leBytes 8 value)).map leValue
  rwa [length_leBytes, leValue_leBytes (by simpa using fits)] at decoded

theorem bool {value : Bool} : Inverts Reader.bool (Writer.bool value) value := by
  cases value with
  | false => exact u8.bind (pure false)
  | true => exact u8.bind (pure true)

theorem bytes {value : Bytes} (fits : value.length < 2 ^ 32) :
    Inverts Reader.bytes (Writer.bytes value) value := by
  refine (u32 fits).bind ?_
  intro rest
  have enough : ¬ (value ++ rest).length < value.length := by simp
  simp only [if_neg enough]
  exact take value rest

theorem repeated {α : Type} {decode : Decoder α} {encode : α → Bytes} {items : List α}
    (each : ∀ item ∈ items, Inverts decode (encode item) item) :
    Inverts (Reader.repeated decode items.length) (items.flatMap encode) items := by
  induction items with
  | nil => exact pure []
  | cons head tail ih =>
    have headInverts := each head (mem_cons_self ..)
    have tailInverts := ih fun item present => each item (mem_cons_of_mem _ present)
    exact headInverts.bind (tailInverts.map (head :: ·))

/-- The sanity check of `Reader.seq` on the element count passes on every encoding
whose elements take at least one byte each. -/
theorem length_le_length_flatMap {α : Type} {encode : α → Bytes} {items : List α}
    (nonempty : ∀ item ∈ items, 0 < (encode item).length) :
    items.length ≤ (items.flatMap encode).length := by
  induction items with
  | nil => simp
  | cons head tail ih =>
    have headPositive := nonempty head (mem_cons_self ..)
    have tailCounted := ih fun item present => nonempty item (mem_cons_of_mem _ present)
    simp only [length_cons, flatMap_cons, length_append]
    omega

theorem seq {α : Type} {decode : Decoder α} {encode : α → Bytes} {items : List α}
    (fits : items.length < 2 ^ 32)
    (each : ∀ item ∈ items, Inverts decode (encode item) item)
    (nonempty : ∀ item ∈ items, 0 < (encode item).length) :
    Inverts (Reader.seq decode) (Writer.seq encode items) items := by
  refine (u32 fits).bind ?_
  intro rest
  have counted := length_le_length_flatMap nonempty
  have enough : ¬ (items.flatMap encode ++ rest).length < items.length := by
    rw [length_append]
    omega
  simp only [if_neg enough]
  exact repeated each rest

theorem opt {α : Type} {decode : Decoder α} {encode : α → Bytes} {value : Option α}
    (each : ∀ item, value = some item → Inverts decode (encode item) item) :
    Inverts (Reader.opt decode) (Writer.opt encode value) value := by
  cases value with
  | none => exact u8.bind (pure none)
  | some item => exact u8.bind ((each item rfl).map some)

end Inverts

theorem leValue_lt (bytes : Bytes) : leValue bytes < 256 ^ bytes.length := by
  induction bytes with
  | nil => simp [leValue]
  | cons byte rest ih =>
    have small := byte.toNat_lt
    rw [leValue, length_cons, Nat.pow_succ]
    omega

variable {buf rest : Bytes}

namespace Reader

theorem map_eq_ok {change : α → β} {result : β}
    (decoded : map change decode buf = .ok (result, rest)) :
    ∃ value, decode buf = .ok (value, rest) ∧ result = change value := by
  unfold map at decoded
  cases read : decode buf with
  | error reason =>
    rw [read] at decoded
    cases decoded
  | ok found =>
    rw [read] at decoded
    cases decoded
    exact ⟨found.1, rfl, rfl⟩

theorem bind_eq_ok {result : β × Bytes} (decoded : bind decode next buf = .ok result) :
    ∃ value rest, decode buf = .ok (value, rest) ∧ next value rest = .ok result := by
  unfold bind at decoded
  cases read : decode buf with
  | error reason =>
    rw [read] at decoded
    cases decoded
  | ok found =>
    rw [read] at decoded
    exact ⟨found.1, found.2, rfl, decoded⟩

theorem mem_seq {α : Type} {decode : Decoder α} {items : List α}
    (decoded : seq decode buf = .ok (items, rest)) {item : α} (member : item ∈ items) :
    ∃ before after, decode before = .ok (item, after) := by
  have each (count : ℕ) (buf rest : Bytes) (items : List α)
      (decoded : repeated decode count buf = .ok (items, rest)) (member : item ∈ items) :
      ∃ before after, decode before = .ok (item, after) := by
    induction count generalizing buf items with
    | zero =>
      cases decoded
      cases member
    | succ count ih =>
      rcases bind_eq_ok decoded with ⟨head, between, read, decoded⟩
      rcases map_eq_ok decoded with ⟨tail, read', rfl⟩
      rcases mem_cons.mp member with rfl | later
      · exact ⟨buf, between, read⟩
      · exact ih between tail read' later
  rcases bind_eq_ok decoded with ⟨count, between, _, decoded⟩
  split_ifs at decoded
  exact each count between rest items decoded member

end Reader

/-- Whatever the decoder accepts has the property, together with the number of bytes taken. -/
def Accepts {α : Type u} (decode : Decoder α) (post : α → ℕ → Prop) : Prop :=
  ∀ buf value rest, decode buf = .ok (value, rest) →
    ∃ used, used + rest.length = buf.length ∧ post value used

namespace Accepts

theorem take (count : ℕ) :
    Accepts (Reader.take count) fun taken used => taken.length = count ∧ used = count := by
  intro buf value rest decoded
  unfold Reader.take at decoded
  split_ifs at decoded with short
  cases decoded
  refine ⟨count, ?_, ?_, rfl⟩
  · rw [length_drop]
    omega
  · rw [length_take]
    omega

variable {post : α → ℕ → Prop}

theorem pure {value : α} (done : post value 0) : Accepts (Reader.pure value) post := by
  intro buf found rest decoded
  cases decoded
  exact ⟨0, Nat.zero_add _, done⟩

theorem fail {reason : DecodeError} : Accepts (Reader.fail reason) post := by
  intro buf value rest decoded
  cases decoded

theorem mono {post' : α → ℕ → Prop} (accepts : Accepts decode post)
    (follows : ∀ value used, post value used → post' value used) : Accepts decode post' := by
  intro buf value rest decoded
  rcases accepts buf value rest decoded with ⟨used, counts, holds⟩
  exact ⟨used, counts, follows value used holds⟩

theorem map {change : α → β} {post : β → ℕ → Prop}
    (accepts : Accepts decode fun value => post (change value)) :
    Accepts (Reader.map change decode) post := by
  intro buf value rest decoded
  rcases Reader.map_eq_ok decoded with ⟨found, read, rfl⟩
  exact accepts buf found rest read

theorem bind {post : β → ℕ → Prop}
    (accepts : Accepts decode fun value used => Accepts (next value) fun result more =>
      post result (used + more)) :
    Accepts (Reader.bind decode next) post := by
  intro buf result rest decoded
  rcases Reader.bind_eq_ok decoded with ⟨value, between, read, decoded⟩
  rcases accepts buf value between read with ⟨used, counts, continues⟩
  rcases continues between result rest decoded with ⟨more, counts', done⟩
  exact ⟨used + more, by omega, done⟩

theorem u8 : Accepts Reader.u8 fun _ used => used = 1 :=
  map ((take 1).mono fun _ _ counted => counted.2)

theorem number (width : ℕ) : Accepts (Reader.map leValue (Reader.take width)) fun value used =>
    value < 256 ^ width ∧ used = width := by
  refine map ((take width).mono ?_)
  rintro taken used ⟨long, counted⟩
  exact ⟨long ▸ leValue_lt taken, counted⟩

theorem u32 : Accepts Reader.u32 fun value used => value < 2 ^ 32 ∧ used = 4 := number 4

theorem u64 : Accepts Reader.u64 fun value used => value < 2 ^ 64 ∧ used = 8 := number 8

theorem bytes : Accepts Reader.bytes fun value used =>
    value.length < 2 ^ 32 ∧ used = 4 + value.length := by
  refine bind (u32.mono ?_)
  rintro length _ ⟨fits, rfl⟩ buf value rest decoded
  dsimp only at decoded
  split_ifs at decoded
  rcases take length buf value rest decoded with ⟨_, counts, rfl, rfl⟩
  exact ⟨_, counts, fits, rfl⟩

theorem repeated {α : Type} {decode : Decoder α} {good : α → Prop} {size : α → ℕ}
    (each : Accepts decode fun item used => good item ∧ size item ≤ used) (count : ℕ) :
    Accepts (Reader.repeated decode count) fun items used =>
      (∀ item ∈ items, good item) ∧ items.length = count ∧ (items.map size).sum ≤ used := by
  induction count with
  | zero => exact pure ⟨by simp, rfl, by simp⟩
  | succ count ih =>
    refine bind (each.mono ?_)
    rintro head _ ⟨isGood, atLeast⟩
    refine map (ih.mono ?_)
    rintro tail _ ⟨areGood, rfl, atLeast'⟩
    refine ⟨?_, rfl, ?_⟩
    · intro item member
      rcases mem_cons.mp member with rfl | later
      · exact isGood
      · exact areGood item later
    · rw [map_cons, sum_cons]
      exact Nat.add_le_add atLeast atLeast'

theorem seq {α : Type} {decode : Decoder α} {good : α → Prop} {size : α → ℕ}
    (each : Accepts decode fun item used => good item ∧ size item ≤ used) :
    Accepts (Reader.seq decode) fun items used =>
      (∀ item ∈ items, good item) ∧ items.length < 2 ^ 32 ∧ 4 + (items.map size).sum ≤ used := by
  refine bind (u32.mono ?_)
  rintro count _ ⟨fits, rfl⟩ buf items rest decoded
  dsimp only at decoded
  split_ifs at decoded
  rcases repeated each count buf items rest decoded with ⟨_, counts, areGood, rfl, atLeast⟩
  exact ⟨_, counts, areGood, fits, Nat.add_le_add_left atLeast 4⟩

end Accepts

/-- What is read does not depend on what follows it. -/
def Oblivious {α : Type u} (decode : Decoder α) : Prop :=
  ∀ buf value rest, decode buf = .ok (value, rest) →
    ∀ more, decode (buf ++ more) = .ok (value, rest ++ more)

namespace Oblivious

theorem take (count : ℕ) : Oblivious (Reader.take count) := by
  intro buf value rest read more
  unfold Reader.take at read ⊢
  split_ifs at read with short
  cases read
  rw [if_neg (by rw [length_append]; omega), take_append_of_le_length (by omega),
    drop_append_of_le_length (by omega)]

theorem pure (value : α) : Oblivious (Reader.pure value) := by
  intro buf value rest read more
  cases read
  rfl

theorem fail (reason : DecodeError) : Oblivious (Reader.fail reason : Decoder α) := by
  intro buf value rest read
  cases read

theorem map (change : α → β) (oblivious : Oblivious decode) :
    Oblivious (Reader.map change decode) := by
  intro buf value rest read more
  rcases Reader.map_eq_ok read with ⟨raw, decoded, rfl⟩
  rw [Reader.map, oblivious buf raw rest decoded more]

theorem bind (oblivious : Oblivious decode) (others : ∀ value, Oblivious (next value)) :
    Oblivious (Reader.bind decode next) := by
  intro buf value rest read more
  rcases Reader.bind_eq_ok read with ⟨first, between, decoded, continued⟩
  rw [Reader.bind, oblivious buf first between decoded more]
  exact others first between value rest continued more

theorem u8 : Oblivious Reader.u8 := (take 1).map _

theorem u32 : Oblivious Reader.u32 := (take 4).map _

theorem u64 : Oblivious Reader.u64 := (take 8).map _

theorem bool : Oblivious Reader.bool := by
  apply u8.bind
  intro byte
  split_ifs
  · exact pure false
  · exact pure true
  · exact fail _

theorem checked (oblivious : Oblivious decode) (count : ℕ) (reason : DecodeError) :
    Oblivious fun buf => if buf.length < count then .error reason else decode buf := by
  intro buf value rest read more
  dsimp only at read ⊢
  split_ifs at read with short
  rw [if_neg (by rw [length_append]; omega)]
  exact oblivious buf value rest read more

theorem bytes : Oblivious Reader.bytes :=
  u32.bind fun length => (take length).checked length (.badLength length)

theorem repeated {α : Type} {decode : Decoder α} (oblivious : Oblivious decode) (count : ℕ) :
    Oblivious (Reader.repeated decode count) := by
  induction count with
  | zero => exact pure []
  | succ count ih => exact oblivious.bind fun head => ih.map _

theorem seq {α : Type} {decode : Decoder α} (oblivious : Oblivious decode) :
    Oblivious (Reader.seq decode) :=
  u32.bind fun count => (oblivious.repeated count).checked count (.badLength count)

theorem opt {α : Type} {decode : Decoder α} (oblivious : Oblivious decode) :
    Oblivious (Reader.opt decode) := by
  apply u8.bind
  intro byte
  split_ifs
  · exact pure none
  · exact oblivious.map _
  · exact fail _

theorem cut_fails {front back : Bytes} {value : α} (oblivious : Oblivious decode)
    (whole : decode (front ++ back) = .ok (value, [])) (proper : back ≠ []) :
    ∃ reason, decode front = .error reason := by
  cases read : decode front with
  | error reason => exact ⟨reason, rfl⟩
  | ok found =>
    have extended := oblivious front found.1 found.2 read back
    rw [whole] at extended
    have leftOver : [] = found.2 ++ back := congrArg Prod.snd (Except.ok.inj extended)
    exact absurd (append_eq_nil_iff.mp leftOver.symm).2 proper

end Oblivious

/-- One step of the reflected division by the Castagnoli polynomial. -/
def crcShift (c : UInt32) : UInt32 :=
  if c &&& 1 != 0 then (0x82F63B78 : UInt32) ^^^ (c >>> 1) else c >>> 1

/-- Entry of the lookup table for one byte. -/
def table (index : UInt32) : UInt32 :=
  crcShift (crcShift (crcShift (crcShift (crcShift (crcShift (crcShift (crcShift index)))))))

def crc32cUpdate (seed : UInt32) (data : Bytes) : UInt32 :=
  ~~~ data.foldl (fun crc byte => table ((crc ^^^ byte.toUInt32) &&& 0xFF) ^^^ (crc >>> 8))
    (~~~ seed)

def crc32c (data : Bytes) : UInt32 := crc32cUpdate 0 data

-- The check value of the polynomial: the checksum of "123456789".
example : crc32c [0x31, 0x32, 0x33, 0x34, 0x35, 0x36, 0x37, 0x38, 0x39] = 0xE3069283 := by
  decide +kernel

theorem checksummed_fields {body : Bytes} (fits : body.length < 2 ^ 32) (rest : Bytes)
    (isBuf : buf = Writer.u32 body.length ++ (Writer.u32 (crc32c body).toNat ++ body) ++ rest) :
    leValue (buf.take 4) = body.length ∧ leValue ((buf.drop 4).take 4) = (crc32c body).toNat ∧
      (buf.drop 8).take body.length = body := by
  have crcSmall : (crc32c body).toNat < 2 ^ 32 := UInt32.toNat_lt _
  have lenTaken : buf.take 4 = leBytes 4 body.length := by
    simp [isBuf, Writer.u32, append_assoc]
  have crcTaken : (buf.drop 4).take 4 = leBytes 4 (crc32c body).toNat := by
    simp [isBuf, Writer.u32, append_assoc]
  have parts : buf =
      (Writer.u32 body.length ++ Writer.u32 (crc32c body).toNat) ++ (body ++ rest) := by
    rw [isBuf]
    simp
  refine ⟨?_, ?_, ?_⟩
  · rw [lenTaken]
    exact leValue_leBytes (by simpa using fits)
  · rw [crcTaken]
    exact leValue_leBytes (by simpa using crcSmall)
  · rw [parts, drop_left' (by simp [Writer.u32]), take_left]

theorem toNat_shift (x : UInt32) : (x >>> 1).toNat = x.toNat / 2 := by
  simp [Nat.shiftRight_eq_div_pow]

theorem isOdd_iff (x : UInt32) : (x &&& 1 != 0) = decide (x.toNat % 2 = 1) := by
  have masked : (x &&& 1).toNat = x.toNat % 2 := by
    rw [UInt32.toNat_and]
    exact Nat.and_one_is_mod _
  have zero : x &&& 1 = 0 ↔ x.toNat % 2 = 0 := by
    rw [← UInt32.toNat_inj, masked]
    rfl
  rw [Bool.eq_iff_iff]
  simp only [bne_iff_ne, ne_eq, zero, decide_eq_true_eq]
  omega

theorem testBit_shifted (x : UInt32) : (x >>> 1).toNat.testBit 31 = false := by
  apply Nat.testBit_lt_two_pow
  have := x.toNat_lt
  rw [toNat_shift]
  omega

theorem testBit_divided (x : UInt32) :
    ((0x82F63B78 : UInt32) ^^^ (x >>> 1)).toNat.testBit 31 = true := by
  rw [UInt32.toNat_xor, Nat.testBit_xor, testBit_shifted]
  decide

theorem crcShift_injective : Function.Injective crcShift := by
  intro c d same
  have halves {x y : UInt32} (shifted : x >>> 1 = y >>> 1) : x.toNat / 2 = y.toNat / 2 := by
    rw [← toNat_shift, ← toNat_shift, shifted]
  unfold crcShift at same
  simp only [isOdd_iff, decide_eq_true_eq] at same
  apply UInt32.toNat_inj.mp
  split_ifs at same with cOdd dOdd dOdd
  · have := halves ((UInt32.xor_right_inj _).mp same)
    omega
  · have bit := congrArg (fun x => x.toNat.testBit 31) same
    simp only [testBit_divided, testBit_shifted] at bit
    cases bit
  · have bit := congrArg (fun x => x.toNat.testBit 31) same
    simp only [testBit_divided, testBit_shifted] at bit
    cases bit
  · have := halves same
    omega

theorem table_injective : Function.Injective table :=
  crcShift_injective.comp <| crcShift_injective.comp <| crcShift_injective.comp <|
    crcShift_injective.comp <| crcShift_injective.comp <| crcShift_injective.comp <|
      crcShift_injective.comp crcShift_injective

theorem crcShift_xor (x y : UInt32) : crcShift (x ^^^ y) = crcShift x ^^^ crcShift y := by
  have odd : (x ^^^ y).toNat.testBit 0 = (x.toNat.testBit 0 ^^ y.toNat.testBit 0) := by
    rw [UInt32.toNat_xor, Nat.testBit_xor]
  have halves : (x ^^^ y) >>> 1 = x >>> 1 ^^^ y >>> 1 := by
    apply UInt32.toNat_inj.mp
    simp [Nat.shiftRight_xor_distrib]
  simp only [crcShift, isOdd_iff, ← Nat.testBit_zero, odd, halves]
  cases x.toNat.testBit 0 <;> cases y.toNat.testBit 0
  · simp
  · simp only [Bool.false_xor, if_true, Bool.false_eq_true, if_false]
    ac_rfl
  · simp only [Bool.xor_false, if_true, Bool.false_eq_true, if_false]
    ac_rfl
  · have cancels (poly left right : UInt32) :
        (poly ^^^ left) ^^^ (poly ^^^ right) = (poly ^^^ poly) ^^^ (left ^^^ right) := by ac_rfl
    simp only [Bool.xor_self, if_true, Bool.false_eq_true, if_false]
    rw [cancels, UInt32.xor_self, UInt32.zero_xor]

theorem table_xor (x y : UInt32) : table (x ^^^ y) = table x ^^^ table y := by
  simp only [table, crcShift_xor]

theorem toNat_iterate_crcShift (count : ℕ) {x : UInt32} (clear : x.toNat % 2 ^ count = 0) :
    (crcShift^[count] x).toNat = x.toNat / 2 ^ count := by
  induction count with
  | zero => simp
  | succ count ih =>
    have lower : x.toNat % 2 ^ count = 0 := by
      rw [← Nat.mod_mod_of_dvd x.toNat (Nat.pow_dvd_pow 2 (Nat.le_succ count)), clear,
        Nat.zero_mod]
    have even : (crcShift^[count] x).toNat % 2 = 0 := by
      rw [ih lower]
      rw [Nat.pow_succ, Nat.mod_mul, lower, Nat.zero_add] at clear
      rcases Nat.mul_eq_zero.mp clear with impossible | even
      · exact absurd impossible (Nat.pos_iff_ne_zero.mp (Nat.two_pow_pos count))
      · exact even
    rw [Function.iterate_succ_apply', crcShift, isOdd_iff, if_neg (by simp [even]), toNat_shift,
      ih lower, Nat.div_div_eq_div_mul, Nat.pow_succ]

/-- The step for a byte divides the whole remainder, its low byte exchanged. -/
theorem crcStep_eq (crc : UInt32) (byte : UInt8) :
    table ((crc ^^^ byte.toUInt32) &&& 0xFF) ^^^ (crc >>> 8) = table (crc ^^^ byte.toUInt32) := by
  have shifted : (crc ^^^ byte.toUInt32).toNat >>> 8 = (crc >>> 8).toNat := by
    have small : byte.toUInt32.toNat >>> 8 = 0 := by
      have := byte.toNat_lt
      rw [Nat.shiftRight_eq_div_pow, UInt8.toNat_toUInt32]
      omega
    rw [UInt32.toNat_xor, Nat.shiftRight_xor_distrib, small]
    simp
  generalize crc ^^^ byte.toUInt32 = mixed at shifted ⊢
  have split : mixed = (mixed &&& 0xFF) ^^^ (mixed ^^^ (mixed &&& 0xFF)) := by
    have swapped : (mixed &&& 0xFF) ^^^ (mixed ^^^ (mixed &&& 0xFF)) =
        mixed ^^^ ((mixed &&& 0xFF) ^^^ (mixed &&& 0xFF)) := by ac_rfl
    simp [swapped]
  have low : (mixed &&& 0xFF).toNat = mixed.toNat % 2 ^ 8 := by
    rw [UInt32.toNat_and]
    exact Nat.and_two_pow_sub_one_eq_mod _ 8
  have clear : (mixed ^^^ (mixed &&& 0xFF)).toNat % 2 ^ 8 = 0 := by
    rw [UInt32.toNat_xor, Nat.xor_mod_two_pow, low, Nat.mod_mod, Nat.xor_self]
  have above : (mixed ^^^ (mixed &&& 0xFF)).toNat / 2 ^ 8 = (crc >>> 8).toNat := by
    rw [← Nat.shiftRight_eq_div_pow, UInt32.toNat_xor, Nat.shiftRight_xor_distrib, low,
      Nat.shiftRight_eq_div_pow (_ % _), Nat.div_eq_of_lt (Nat.mod_lt _ (by decide)), Nat.xor_zero,
      shifted]
  have moved : table (mixed ^^^ (mixed &&& 0xFF)) = crc >>> 8 :=
    UInt32.toNat_inj.mp ((toNat_iterate_crcShift 8 clear).trans above)
  calc table (mixed &&& 0xFF) ^^^ (crc >>> 8)
      = table (mixed &&& 0xFF) ^^^ table (mixed ^^^ (mixed &&& 0xFF)) := by rw [moved]
    _ = table ((mixed &&& 0xFF) ^^^ (mixed ^^^ (mixed &&& 0xFF))) := (table_xor _ _).symm
    _ = table mixed := by rw [← split]

theorem crc32c_byte_injective {front : Bytes} {byte other : UInt8}
    (same : crc32c (front ++ byte :: rest) = crc32c (front ++ other :: rest)) : byte = other := by
  simp only [crc32c, crc32cUpdate, crcStep_eq, foldl_append, foldl_cons,
    UInt32.not_inj] at same
  generalize front.foldl _ _ = crc at same
  have mixed : table (crc ^^^ byte.toUInt32) = table (crc ^^^ other.toUInt32) := by
    generalize table (crc ^^^ byte.toUInt32) = left at same ⊢
    generalize table (crc ^^^ other.toUInt32) = right at same ⊢
    induction rest generalizing left right with
    | nil => exact same
    | cons next rest ih =>
      exact (UInt32.xor_left_inj _).mp (table_injective (ih _ _ same))
  have extended := (UInt32.xor_right_inj _).mp (table_injective mixed)
  have bytes : byte.toNat = other.toNat := by simpa using congrArg UInt32.toNat extended
  exact UInt8.toNat_inj.mp bytes

theorem crc32c_last_injective {data : Bytes} {last other : UInt8}
    (same : crc32c (data ++ [last]) = crc32c (data ++ [other])) : last = other :=
  crc32c_byte_injective same

end ChronoScope.Chronolog
