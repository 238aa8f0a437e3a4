/-
# Storage.Record — the on-disk record of a partition segment

`internal/storage/record.go` and the reader of `internal/storage/compactor.go`.
A record is

    offset (8) | ts (8) | keyLen (2) | payloadLen (4) | crc (4) | codec (1) | key | payload

all words little-endian; version-1 segments have no codec byte.  The payload is
the JSON of the whole message, and the checksum covers the payload only.

JSON and decompression are library code outside the repository.  `Codecs` names
the three functions, with the law the development assumes about JSON: the
messages it represents exactly survive being marshalled and read back.

`decodeRecord` and `readRawRecord` of the source parse the same way and differ
in what they return, so both are views of one reader, `readRecord`.  What every
later proof uses about it is locality: a record that was read once is read again
from its own bytes, whatever follows them (`readRecord_local`).
-/
import PubsubBroker.Theory.Framed

namespace PubsubBroker.Storage

open Theory List

/-- `types.Message`.  Go strings are byte strings where the code handles their
bytes (`key`), and headers are an association list. -/
structure Message where
  id : String
  topic : String
  timestamp : Int
  payload : Bytes
  headers : List (String × String)
  key : Bytes
  partition : Int
  offset : Int
  codec : UInt8
deriving DecidableEq

def Message.setOffset (m : Message) (offset : Int) : Message := { m with offset := offset }

@[simp] theorem Message.setOffset_offset (m : Message) (o : Int) : (m.setOffset o).offset = o := rfl

@[simp] theorem Message.setOffset_setOffset (m : Message) (o p : Int) :
    (m.setOffset o).setOffset p = m.setOffset p := rfl

@[simp] theorem Message.setOffset_self (m : Message) : m.setOffset m.offset = m := rfl

def tombstoneHeaderKey : String := "_compaction"

def tombstoneHeaderValue : String := "delete"

/-- A message that marks its key as deleted. -/
def Message.tombstone (m : Message) : Bool :=
  m.headers.lookup tombstoneHeaderKey = some tombstoneHeaderValue

/-- JSON and decompression, with the messages that JSON represents exactly. -/
structure Codecs where
  marshal : Message → Bytes
  unmarshal : Bytes → Option Message
  decompress : UInt8 → Bytes → Option Bytes
  exact : Message → Prop
  exact_setOffset : ∀ m offset, IsInt64 offset → exact m → exact (m.setOffset offset)
  unmarshal_marshal : ∀ m, exact m → unmarshal (marshal m) = some m

/-! ## Format -/

def recV1HeaderSize : Nat := 26

def recV2HeaderSize : Nat := 27

/-- The record version written by new segments. -/
def recordVersion : UInt8 := 2

def recHeaderSize (version : UInt8) : Nat :=
  if version ≥ recordVersion then recV2HeaderSize else recV1HeaderSize

structure RecordHeader where
  offset : Int
  timestamp : Int
  keyLen : Nat
  payloadLen : Nat
  checksum : Nat
  codec : UInt8

def headerBytes (version : UInt8) (h : RecordHeader) : Bytes :=
  leBytes 8 (uint64 h.offset) ++ (leBytes 8 (uint64 h.timestamp) ++
    (leBytes 2 h.keyLen ++ (leBytes 4 h.payloadLen ++ (leBytes 4 h.checksum ++
      if version ≥ recordVersion then [h.codec] else []))))

def parseHeader (version : UInt8) (hdr : Bytes) : RecordHeader where
  offset := int64 (leNat (hdr.take 8))
  timestamp := int64 (leNat ((hdr.drop 8).take 8))
  keyLen := leNat ((hdr.drop 16).take 2)
  payloadLen := leNat ((hdr.drop 18).take 4)
  checksum := leNat ((hdr.drop 22).take 4)
  codec := if version ≥ recordVersion then (hdr.drop 26).headD 0 else 0

/-- `encodeRecord`, at the clock reading `now` in nanoseconds. -/
def encodeRecord (K : Codecs) (offset now : Int) (msg : Message) (version : UInt8) : Bytes :=
  let payload := K.marshal msg
  headerBytes version
      ⟨offset, now, msg.key.length, payload.length, (checksumIEEE payload).toNat, msg.codec⟩ ++
    (msg.key ++ payload)

/-! ## Reading -/

/-- Why a read failed.  The two end-of-file errors are those of `io.ReadFull`: no
byte was left, or too few; `seek` is a seek to a negative position. -/
inductive ReadError where
  | eof
  | unexpectedEOF
  | checksum (offset : Int)
  | decompress (offset : Int)
  | json
  | seek
deriving DecidableEq

/-- The errors at which a scan of a segment stops without failing. -/
def ReadError.isEnd : ReadError → Bool
  | .eof => true
  | .unexpectedEOF => true
  | _ => false

/-- The error of an `io.ReadFull` that found only `input`. -/
def shortRead (input : Bytes) : ReadError := if input = [] then .eof else .unexpectedEOF

@[simp] theorem shortRead_isEnd (input : Bytes) : (shortRead input).isEnd = true := by
  unfold shortRead
  split <;> rfl

/-- A record as a scan sees it: its decoded fields, the message of its payload
with the record's offset, and its exact bytes. -/
structure Record where
  offset : Int
  timestamp : Int
  key : Bytes
  msg : Message
  raw : Bytes
deriving DecidableEq

def Record.tombstone (r : Record) : Bool := r.msg.tombstone

/-- Checksum, decompression and JSON: from the payload bytes to the message. -/
def openPayload (K : Codecs) (h : RecordHeader) (payload : Bytes) : Except ReadError Message :=
  if (checksumIEEE payload).toNat ≠ h.checksum then .error (.checksum h.offset)
  else
    match if h.codec ≠ 0 then K.decompress h.codec payload else some payload with
    | none => .error (.decompress h.offset)
    | some decoded =>
      match K.unmarshal decoded with
      | none => .error .json
      | some msg => .ok (msg.setOffset h.offset)

def readRecord (K : Codecs) (version : UInt8) (input : Bytes) :
    Except ReadError (Record × Bytes) :=
  match readFull (recHeaderSize version) input with
  | none => .error (shortRead input)
  | some (hdr, tail) =>
    let h := parseHeader version hdr
    match readFull (h.keyLen + h.payloadLen) tail with
    | none => .error (shortRead tail)
    | some (body, rest) =>
      match openPayload K h (body.drop h.keyLen) with
      | .error e => .error e
      | .ok msg => .ok (⟨h.offset, h.timestamp, body.take h.keyLen, msg, hdr ++ body⟩, rest)

/-- `decodeRecord`: the message and its offset. -/
def decodeRecord (K : Codecs) (version : UInt8) (input : Bytes) :
    Except ReadError ((Message × Int) × Bytes) :=
  (readRecord K version input).map fun (r, rest) => ((r.msg, r.offset), rest)

/-! ## What the reader accepts -/

variable {K : Codecs} {version : UInt8} {r : Record}

theorem readRecord_cases {input rest : Bytes} (read : readRecord K version input = .ok (r, rest)) :
    ∃ hdr body msg, hdr.length = recHeaderSize version ∧
      body.length = (parseHeader version hdr).keyLen + (parseHeader version hdr).payloadLen ∧
      openPayload K (parseHeader version hdr)
        (body.drop (parseHeader version hdr).keyLen) = .ok msg ∧
      input = hdr ++ (body ++ rest) ∧
      r = ⟨(parseHeader version hdr).offset, (parseHeader version hdr).timestamp,
        body.take (parseHeader version hdr).keyLen, msg, hdr ++ body⟩ := by
  unfold readRecord at read
  split at read
  · cases read
  · grind [readFull_eq_some]

theorem readRecord_parts {hdr body : Bytes} {msg : Message}
    (headerLength : hdr.length = recHeaderSize version) (bodyLength : body.length =
      (parseHeader version hdr).keyLen + (parseHeader version hdr).payloadLen)
    (opened : openPayload K (parseHeader version hdr)
      (body.drop (parseHeader version hdr).keyLen) = .ok msg) (rest : Bytes) :
    readRecord K version (hdr ++ (body ++ rest)) =
      .ok (⟨(parseHeader version hdr).offset, (parseHeader version hdr).timestamp,
        body.take (parseHeader version hdr).keyLen, msg, hdr ++ body⟩, rest) := by
  unfold readRecord
  rw [readFull_append_of_length headerLength]
  simp only [readFull_append_of_length bodyLength, opened]

/-- A record whose own bytes are read back as that record. -/
def Readable (K : Codecs) (version : UInt8) (r : Record) : Prop :=
  ∀ rest, readRecord K version (r.raw ++ rest) = .ok (r, rest)

theorem readable_delimits (K : Codecs) (version : UInt8) :
    Delimits (readRecord K version) Record.raw (Readable K version) :=
  fun _ rest readable => readable rest

/-- **Reading is local.**  A record that was read consists of the bytes it was
read from, and those bytes alone determine it. -/
theorem readRecord_local {input rest : Bytes} (read : readRecord K version input = .ok (r, rest)) :
    input = r.raw ++ rest ∧ Readable K version r := by
  obtain ⟨hdr, body, msg, headerLength, bodyLength, opened, rfl, rfl⟩ := readRecord_cases read
  refine ⟨by simp, ?_⟩
  intro more
  rw [append_assoc]
  exact readRecord_parts headerLength bodyLength opened more

theorem recHeaderSize_pos (version : UInt8) : 26 ≤ recHeaderSize version := by
  unfold recHeaderSize recV1HeaderSize recV2HeaderSize
  split <;> omega

theorem Readable.length_ge (readable : Readable K version r) : 26 ≤ r.raw.length := by
  obtain ⟨hdr, body, msg, headerLength, -, -, -, rfl⟩ := readRecord_cases (readable [])
  have := recHeaderSize_pos version
  rw [length_append]
  omega

theorem Readable.length_pos (readable : Readable K version r) : 0 < r.raw.length :=
  Nat.lt_of_lt_of_le (by decide) readable.length_ge

theorem Readable.offset_word (readable : Readable K version r) :
    int64 (leNat (r.raw.take 8)) = r.offset := by
  obtain ⟨hdr, body, msg, headerLength, -, -, -, rfl⟩ := readRecord_cases (readable [])
  have := recHeaderSize_pos version
  simp only [parseHeader]
  rw [take_append_of_le_length (by omega)]

theorem Readable.msg_offset (readable : Readable K version r) : r.msg.offset = r.offset := by
  obtain ⟨hdr, body, msg, -, -, opened, -, rfl⟩ := readRecord_cases (readable [])
  unfold openPayload at opened
  split at opened
  · cases opened
  · split at opened
    · cases opened
    · split at opened
      · cases opened
      · cases opened
        rfl

theorem readRecord_progress (K : Codecs) (version : UInt8) : Progress (readRecord K version) := by
  intro input r rest read
  obtain ⟨rfl, readable⟩ := readRecord_local read
  grind [Readable.length_pos]

/-- **A cut record is never read.**  Every strict prefix of a record is refused
with an end-of-file error. -/
theorem Readable.torn (readable : Readable K version r) {k : Nat} (cut : k < r.raw.length) :
    ∃ e, readRecord K version (r.raw.take k) = .error e ∧ e.isEnd = true := by
  obtain ⟨hdr, body, msg, headerLength, bodyLength, -, -, rfl⟩ := readRecord_cases (readable [])
  simp only [length_append] at cut ⊢
  unfold readRecord
  by_cases inHeader : k < hdr.length
  · -- too few bytes for the header
    have short : ((hdr ++ body).take k).length < recHeaderSize version := by simp; omega
    rw [readFull_short short]
    exact ⟨_, rfl, shortRead_isEnd _⟩
  · -- the header is there and announces more than is left
    have parts : (hdr ++ body).take k = hdr ++ body.take (k - hdr.length) := by
      rw [take_append, take_of_length_le (by omega)]
    have short : (body.take (k - hdr.length)).length <
        (parseHeader version hdr).keyLen + (parseHeader version hdr).payloadLen := by
      rw [length_take, ← bodyLength]
      omega
    rw [parts, readFull_append_of_length headerLength]
    simp only [readFull_short short]
    exact ⟨_, rfl, shortRead_isEnd _⟩

/-! ## Written records are read back -/

/-- The messages the format can represent: the key fits its 2-byte length field,
the payload is not marked as compressed, and JSON represents the message exactly
in fewer than 4 GiB. -/
structure Writable (K : Codecs) (m : Message) : Prop where
  key : m.key.length < 2 ^ 16
  codec : m.codec = 0
  exact : K.exact m
  payload : ∀ offset, IsInt64 offset → (K.marshal (m.setOffset offset)).length < 2 ^ 32

theorem Writable.setOffset {m : Message} {offset : Int} (writable : Writable K m)
    (offset64 : IsInt64 offset) : Writable K (m.setOffset offset) where
  key := writable.key
  codec := writable.codec
  exact := K.exact_setOffset m offset offset64 writable.exact
  payload := writable.payload

/-- With short encodings the format's bounds can be tested. -/
def Writable.decidable (K : Codecs) [DecidablePred K.exact]
    (short : ∀ m, (K.marshal m).length < 2 ^ 32) : DecidablePred (Writable K) := fun m =>
  decidable_of_iff (m.key.length < 2 ^ 16 ∧ m.codec = 0 ∧ K.exact m)
    ⟨fun ⟨key, codec, exact⟩ => ⟨key, codec, exact, fun _ _ => short _⟩,
      fun ⟨key, codec, exact, _⟩ => ⟨key, codec, exact⟩⟩

structure RecordHeader.Fits (h : RecordHeader) : Prop where
  offset : IsInt64 h.offset
  timestamp : IsInt64 h.timestamp
  keyLen : h.keyLen < 256 ^ 2
  payloadLen : h.payloadLen < 256 ^ 4
  checksum : h.checksum < 256 ^ 4

theorem headerBytes_length (version : UInt8) (h : RecordHeader) :
    (headerBytes version h).length = recHeaderSize version := by
  unfold headerBytes recHeaderSize
  split <;> simp [recV1HeaderSize, recV2HeaderSize]

/-- **What is read back of a header**: the key length modulo 64 Ki, and the codec
only from a version that has it. -/
theorem parseHeader_headerBytes_mod {h : RecordHeader} (offset64 : IsInt64 h.offset)
    (timestamp64 : IsInt64 h.timestamp) (payloadLen : h.payloadLen < 256 ^ 4)
    (checksum : h.checksum < 256 ^ 4) :
    parseHeader version (headerBytes version h) =
      { h with
        keyLen := h.keyLen % 256 ^ 2
        codec := if version ≥ recordVersion then h.codec else 0 } := by
  have d8 : (headerBytes version h).drop 8 = _ := drop_leBytes 8 _ _
  have d16 : (headerBytes version h).drop 16 = _ := drop_add_leBytes d8
  have d18 : (headerBytes version h).drop 18 = _ := drop_add_leBytes d16
  have d22 : (headerBytes version h).drop 22 = _ := drop_add_leBytes d18
  have d26 : (headerBytes version h).drop 26 = _ := drop_add_leBytes d22
  have offset : (headerBytes version h).take 8 = _ := take_leBytes 8 _ _
  simp only [parseHeader, d8, d16, d18, d22, d26, offset, take_leBytes,
    int64_leNat_leBytes offset64.1 offset64.2, int64_leNat_leBytes timestamp64.1 timestamp64.2,
    leNat_leBytes_mod 2, leNat_leBytes payloadLen, leNat_leBytes checksum]
  split <;> rfl

/-- A header whose codec the version does not store, or is none, reads back with
no codec. -/
theorem parseHeader_headerBytes {h : RecordHeader} (fits : h.Fits)
    (plain : version < recordVersion ∨ h.codec = 0) :
    parseHeader version (headerBytes version h) = { h with codec := 0 } := by
  rw [parseHeader_headerBytes_mod fits.offset fits.timestamp fits.payloadLen fits.checksum,
    Nat.mod_eq_of_lt fits.keyLen]
  rcases plain with old | none
  · rw [if_neg (UInt8.not_le.mpr old)]
  · rw [none, ite_self]

/-- The record `encodeRecord` produces for a message. -/
def recordOf (K : Codecs) (offset now : Int) (msg : Message) (version : UInt8) : Record where
  offset := offset
  timestamp := now
  key := msg.key
  msg := msg.setOffset offset
  raw := encodeRecord K offset now (msg.setOffset offset) version

/-- **Written records are read back exactly**, if the key fits and no codec is
stored with them. -/
theorem recordOf_readable {m : Message} {offset now : Int} (key : m.key.length < 2 ^ 16)
    (plain : version < recordVersion ∨ m.codec = 0) (exact : K.exact (m.setOffset offset))
    (length : (K.marshal (m.setOffset offset)).length < 2 ^ 32) (offset64 : IsInt64 offset)
    (now64 : IsInt64 now) : Readable K version (recordOf K offset now m version) := by
  intro rest
  let payload := K.marshal (m.setOffset offset)
  let h : RecordHeader :=
    ⟨offset, now, m.key.length, payload.length, (checksumIEEE payload).toNat, m.codec⟩
  have fits : h.Fits := ⟨offset64, now64, key, length, checksumIEEE_lt _⟩
  have parsed : parseHeader version (headerBytes version h) = { h with codec := 0 } :=
    parseHeader_headerBytes fits plain
  have opened : openPayload K { h with codec := 0 } payload = .ok (m.setOffset offset) := by
    have back := K.unmarshal_marshal _ exact
    simp [openPayload, h, payload, back]
  have read := @readRecord_parts K version (headerBytes version h) (m.key ++ payload)
    (m.setOffset offset) (headerBytes_length version h)
    (by rw [parsed]; simp [h]) (by rw [parsed]; simpa [h] using opened) rest
  rw [parsed] at read
  simpa [recordOf, encodeRecord, h, payload, Message.setOffset] using read

theorem encodeRecord_readable {m : Message} (writable : Writable K m) {offset now : Int}
    (offset64 : IsInt64 offset) (now64 : IsInt64 now) (version : UInt8) :
    Readable K version (recordOf K offset now m version) := by
  apply recordOf_readable writable.key (.inr writable.codec) _ (writable.payload offset offset64)
    offset64 now64
  exact K.exact_setOffset m offset offset64 writable.exact

end PubsubBroker.Storage
