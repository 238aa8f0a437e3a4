/-
# Protocol.Frame — the wire format and its three implementations

`internal/protocol/protocol.go`, its copy for the Go SDK in
`pkg/protocol/protocol.go`, and `python-client/pubsub/protocol.py`.  A frame is

    magic (4) | version (1) | command (1) | request id (8) | length (4) | body

with all words little-endian.  The Go encoders refuse a body above `MaxBodySize`,
after a conversion of its length to 32 bits; the Python encoder refuses commands it
does not know and leaves the length to `struct.pack`.  The Go decoders check the
magic, the version and the length, the Python decoder only the magic.

`frames_exchanged` says that all of them agree on streams of frames: what any of the
encoders writes, each of the decoders reads back, and a stream that is cut anywhere is
read up to the last complete frame.
-/
import PubsubBroker.Theory.Framed

namespace PubsubBroker.Protocol

open Theory List

structure Frame where
  command : UInt8
  requestID : UInt64
  body : Bytes
deriving DecidableEq

structure Constants where
  magic : Nat
  version : UInt8
  maxBodySize : Nat

/-- `internal/protocol`. -/
def brokerConstants : Constants := ⟨0x50534201, 1, 16 * 1024 * 1024⟩

/-- `pkg/protocol`. -/
def sdkConstants : Constants := ⟨0x50534201, 1, 16 * 1024 * 1024⟩

def headerSize : Nat := 4 + 1 + 1 + 8 + 4

/-! ## Encoders -/

inductive EncodeError where
  | body (err : String)
  | bodyTooLarge (length : Nat)
  | unknownCommand (command : UInt8)
  | lengthFormat (length : Nat)

/-- The header, with the length cut to 32 bits. -/
def header (magic : Nat) (version command : UInt8) (requestID : UInt64) (length : Nat) : Bytes :=
  leBytes 4 magic ++ ([version] ++ ([command] ++ (leBytes 8 requestID.toNat ++ leBytes 4 length)))

/-- `writeFrame`. -/
def Constants.writeFrame (c : Constants) (f : Frame) : Bytes :=
  header c.magic c.version f.command f.requestID f.body.length ++ f.body

/-- `Encoder.Encode`, for a body that `marshal` turns into bytes. -/
def Constants.encode {β : Type} (c : Constants) (marshal : β → Except String Bytes)
    (command : UInt8) (requestID : UInt64) (body : Option β) : Except EncodeError Bytes :=
  let bodyBytes : Except String Bytes :=
    match body with
    | none => .ok []
    | some value => marshal value
  match bodyBytes with
  | .error err => .error (.body err)
  | .ok bytes =>
    if bytes.length % 2 ^ 32 > c.maxBodySize then .error (.bodyTooLarge bytes.length)
    else .ok (c.writeFrame ⟨command, requestID, bytes⟩)

namespace Python

def magic : Nat := 0x50534201

def version : UInt8 := 0x01

/-- `_KNOWN_CMDS`. -/
def knownCmds : List UInt8 :=
  [0x01, 0x02, 0x03, 0x04, 0x05, 0x06, 0x07, 0x08, 0x09, 0x0A, 0x0B, 0x0C, 0x0D, 0x0E, 0x0F,
    0x10, 0x20, 0x30, 0x31]

/-- `encode_frame`, for a request id in the range of 64 bits. -/
def encodeFrame {β : Type} (dumps : β → Bytes) (cmd : UInt8) (requestID : UInt64)
    (body : Option β) : Except EncodeError Bytes :=
  if cmd ∉ knownCmds then .error (.unknownCommand cmd)
  else
    let bodyBytes :=
      match body with
      | none => []
      | some value => dumps value
    -- `struct.pack` takes no length above 32 bits
    if bodyBytes.length ≥ 2 ^ 32 then .error (.lengthFormat bodyBytes.length)
    else .ok (header magic version cmd requestID bodyBytes.length ++ bodyBytes)

end Python

/-! ## Decoders -/

inductive DecodeError where
  | readHeader
  | invalidMagic (magic : Nat)
  | unsupportedVersion (version : UInt8)
  | bodyTooLarge (length : Nat)
  | bodyLengthOverflow
  | readBody
  | connectionClosed (got want : Nat)

structure Header where
  magic : Nat
  version : UInt8
  command : UInt8
  requestID : UInt64
  length : Nat

def parseHeader (hdr : Bytes) : Header where
  magic := leNat (hdr.take 4)
  version := (hdr.drop 4).headD 0
  command := (hdr.drop 5).headD 0
  requestID := UInt64.ofNat (leNat ((hdr.drop 6).take 8))
  length := leNat ((hdr.drop 14).take 4)

/-- `Decoder.Decode` on the bytes that are left. -/
def Constants.decode (c : Constants) (input : Bytes) : Except DecodeError (Frame × Bytes) :=
  match readFull headerSize input with
  | none => .error .readHeader
  | some (hdr, rest) =>
    let h := parseHeader hdr
    if h.magic ≠ c.magic then .error (.invalidMagic h.magic)
    else if h.version ≠ c.version then .error (.unsupportedVersion h.version)
    else if h.length > c.maxBodySize then .error (.bodyTooLarge h.length)
    else if h.length > 2 ^ 31 - 1 then .error .bodyLengthOverflow
    else if h.length > 0 then
      match readFull h.length rest with
      | none => .error .readBody
      | some (body, rest) => .ok (⟨h.command, h.requestID, body⟩, rest)
    else .ok (⟨h.command, h.requestID, []⟩, rest)

namespace Python

/-- `_recv_exact` on a stream that ends with its bytes. -/
def recvExact (n : Nat) (input : Bytes) : Except DecodeError (Bytes × Bytes) :=
  if input.length < n then .error (.connectionClosed input.length n)
  else .ok (input.take n, input.drop n)

/-- `read_frame`; the version is returned, not checked. -/
def readFrame (input : Bytes) : Except DecodeError ((UInt8 × Frame) × Bytes) :=
  match recvExact headerSize input with
  | .error e => .error e
  | .ok (rawHeader, rest) =>
    let h := parseHeader rawHeader
    if h.magic ≠ magic then .error (.invalidMagic h.magic)
    else if h.length > 0 then
      match recvExact h.length rest with
      | .error e => .error e
      | .ok (body, rest) => .ok ((h.version, ⟨h.command, h.requestID, body⟩), rest)
    else .ok ((h.version, ⟨h.command, h.requestID, []⟩), rest)

end Python

/-! ## The three implementations -/

inductive Implementation where
  | broker
  | sdk
  | python
deriving DecidableEq

/-- The encoder, on a body as it comes out of `json.Marshal` or `json.dumps`. -/
def Implementation.encode (i : Implementation) (f : Frame) : Except EncodeError Bytes :=
  match i with
  | .broker => brokerConstants.encode .ok f.command f.requestID (some f.body)
  | .sdk => sdkConstants.encode .ok f.command f.requestID (some f.body)
  | .python => Python.encodeFrame id f.command f.requestID (some f.body)

def Implementation.decode (i : Implementation) (input : Bytes) :
    Except DecodeError (Frame × Bytes) :=
  match i with
  | .broker => brokerConstants.decode input
  | .sdk => sdkConstants.decode input
  | .python => (Python.readFrame input).map fun next => (next.1.2, next.2)

def maxBodySize : Nat := 16 * 1024 * 1024

/-- The frames the encoder is asked to send: the body is in the limit, and the command
is one it takes. -/
def Implementation.Accepts (i : Implementation) (f : Frame) : Prop :=
  f.body.length ≤ maxBodySize ∧ (i = .python → f.command ∈ Python.knownCmds)

/-- Frames encoded one after the other, each by any of the encoders. -/
def encodeAll : List (Implementation × Frame) → Except EncodeError Bytes
  | [] => .ok []
  | (i, f) :: rest => do
    let first ← i.encode f
    let later ← encodeAll rest
    return first ++ later

/-- Frames decoded until the decoder fails, and the error. -/
def Implementation.decodeAll (i : Implementation) (stream : Bytes) :
    List Frame × Option DecodeError :=
  let scanned := scan i.decode stream
  (scanned.1,
    match i.decode scanned.2 with
    | .error e => some e
    | .ok _ => none)

/-! ## One format -/

/-- What every encoder writes. -/
def wire (f : Frame) : Bytes := header 0x50534201 1 f.command f.requestID f.body.length ++ f.body

theorem header_length (magic : Nat) (version command : UInt8) (requestID : UInt64) (length : Nat) :
    (header magic version command requestID length).length = headerSize := by
  simp [header, headerSize]

theorem wire_length (f : Frame) : (wire f).length = headerSize + f.body.length := by
  simp [wire, header_length]

theorem parseHeader_header {magic length : Nat} {version command : UInt8} {requestID : UInt64}
    (small : magic < 2 ^ 32) (short : length < 2 ^ 32) :
    parseHeader (header magic version command requestID length) =
      ⟨magic, version, command, requestID, length⟩ := by
  have d0 : (header magic version command requestID length).drop 0 = leBytes 4 magic ++
      ([version] ++ ([command] ++ (leBytes 8 requestID.toNat ++ leBytes 4 length))) := rfl
  have d4 := drop_add_leBytes d0
  have d5 : (header magic version command requestID length).drop 5 =
      [command] ++ (leBytes 8 requestID.toNat ++ leBytes 4 length) := by
    rw [← drop_drop (i := 1) (j := 4), d4]
    rfl
  have d6 : (header magic version command requestID length).drop 6 =
      leBytes 8 requestID.toNat ++ leBytes 4 length := by
    rw [← drop_drop (i := 1) (j := 5), d5]
    rfl
  have d14 : (header magic version command requestID length).drop 14 = leBytes 4 length :=
    drop_add_leBytes d6
  unfold parseHeader
  rw [d6, d14, d5, show (header magic version command requestID length).drop 4 = _ from d4,
    take_leBytes, header, take_leBytes, take_of_length_le (by simp),
    leNat_leBytes (show magic < 256 ^ 4 by omega), leNat_leBytes requestID.toNat_lt,
    leNat_leBytes (show length < 256 ^ 4 by omega), UInt64.ofNat_toNat]
  rfl

theorem encode_accepted {i : Implementation} {f : Frame} (ok : i.Accepts f) :
    i.encode f = .ok (wire f) := by
  have short : f.body.length % 2 ^ 32 ≤ maxBodySize :=
    le_trans (Nat.mod_le _ _) ok.1
  cases i with
  | broker | sdk =>
    show (if f.body.length % 2 ^ 32 > maxBodySize then _ else _) = _
    rw [if_neg (by omega)]
    rfl
  | python =>
    have known := ok.2 rfl
    have fits : ¬ f.body.length ≥ 2 ^ 32 := by
      have := ok.1
      unfold maxBodySize at this
      omega
    show (if f.command ∉ Python.knownCmds then _ else
      if f.body.length ≥ 2 ^ 32 then _ else _) = _
    rw [if_neg fun unknown => unknown known, if_neg fits]
    rfl

theorem encodeAll_accepted {sent : List (Implementation × Frame)}
    (ok : ∀ x ∈ sent, x.1.Accepts x.2) :
    encodeAll sent = .ok (frames wire (sent.map Prod.snd)) := by
  induction sent with
  | nil => rfl
  | cons x rest ih =>
    have first := encode_accepted (ok x (by simp))
    have later := ih fun y mem => ok y (by simp [mem])
    rw [encodeAll, first, later]
    rfl

/-! ## Decoders on written frames -/

theorem recvExact_eq (n : Nat) (input : Bytes) :
    Python.recvExact n input =
      match readFull n input with
      | none => .error (.connectionClosed input.length n)
      | some next => .ok next := by
  unfold Python.recvExact readFull
  split
  · rfl
  · rfl

section

variable {f : Frame}

theorem readFull_zero (input : Bytes) : readFull 0 input = some ([], input) := rfl

theorem go_decode_header (fits : f.body.length ≤ maxBodySize) (rest : Bytes) :
    brokerConstants.decode (header 0x50534201 1 f.command f.requestID f.body.length ++ rest) =
      match readFull f.body.length rest with
      | none => .error .readBody
      | some (body, rest) => .ok (⟨f.command, f.requestID, body⟩, rest) := by
  have short : f.body.length < 2 ^ 31 := by
    unfold maxBodySize at fits
    omega
  unfold Constants.decode
  rw [readFull_append_of_length (header_length ..)]
  simp only [parseHeader_header (show 0x50534201 < 2 ^ 32 by decide)
    (show f.body.length < 2 ^ 32 by omega)]
  rw [if_neg fun differ => differ rfl, if_neg fun differ => differ rfl,
    if_neg (show ¬ f.body.length > brokerConstants.maxBodySize from not_lt.mpr fits),
    if_neg (show ¬ f.body.length > 2 ^ 31 - 1 by omega)]
  by_cases empty : f.body.length = 0
  · rw [empty, readFull_zero]
    rfl
  · simp [empty]

theorem python_decode_header (fits : f.body.length ≤ maxBodySize) (rest : Bytes) :
    Python.readFrame (header 0x50534201 1 f.command f.requestID f.body.length ++ rest) =
      match readFull f.body.length rest with
      | none => .error (.connectionClosed rest.length f.body.length)
      | some (body, rest) => .ok ((1, ⟨f.command, f.requestID, body⟩), rest) := by
  have short : f.body.length < 2 ^ 31 := by
    unfold maxBodySize at fits
    omega
  unfold Python.readFrame
  rw [recvExact_eq, readFull_append_of_length (header_length ..)]
  simp only [parseHeader_header (show 0x50534201 < 2 ^ 32 by decide)
    (show f.body.length < 2 ^ 32 by omega)]
  rw [if_neg fun differ => differ rfl]
  by_cases empty : f.body.length = 0
  · rw [empty, readFull_zero]
    rfl
  · rw [if_pos (show f.body.length > 0 by omega), recvExact_eq]
    grind

theorem decode_header (i : Implementation) (fits : f.body.length ≤ maxBodySize) (rest : Bytes) :
    ∃ stop, i.decode (header 0x50534201 1 f.command f.requestID f.body.length ++ rest) =
      match readFull f.body.length rest with
      | none => .error stop
      | some (body, rest) => .ok (⟨f.command, f.requestID, body⟩, rest) := by
  cases i with
  | broker | sdk => exact ⟨_, go_decode_header fits rest⟩
  | python =>
    refine ⟨.connectionClosed rest.length f.body.length, ?_⟩
    show (Python.readFrame _).map _ = _
    rw [python_decode_header fits rest]
    cases readFull f.body.length rest with
    | none | some next => rfl

theorem decode_short (i : Implementation) {input : Bytes} (short : input.length < headerSize) :
    ∃ stop, i.decode input = .error stop := by
  have none := readFull_short short
  cases i with
  | broker | sdk =>
    refine ⟨.readHeader, ?_⟩
    show Constants.decode _ _ = _
    rw [Constants.decode, none]
  | python =>
    refine ⟨.connectionClosed input.length headerSize, ?_⟩
    show (Python.readFrame _).map _ = _
    rw [Python.readFrame, recvExact_eq, none]
    rfl

end

/-- The bodies in the limit. -/
def Frame.Fits (f : Frame) : Prop := f.body.length ≤ maxBodySize

/-- **Every decoder reads a written frame back**, whatever follows it. -/
theorem decode_delimits (i : Implementation) : Delimits i.decode wire Frame.Fits := by
  intro f rest fits
  obtain ⟨stop, decoded⟩ := decode_header i fits (f.body ++ rest)
  rw [wire, append_assoc, decoded, readFull_append]

/-- **No decoder reads a strict prefix of a frame.** -/
theorem decode_prefixFree (i : Implementation) : PrefixFree i.decode wire Frame.Fits := by
  intro f k fits cut
  rw [wire_length] at cut
  by_cases inHeader : k < headerSize
  · apply decode_short
    rw [length_take]
    omega
  · have split : (wire f).take k =
        header 0x50534201 1 f.command f.requestID f.body.length ++
          f.body.take (k - headerSize) := by
      rw [wire, take_append, header_length,
        take_of_length_le (by rw [header_length]; omega)]
    have short : (f.body.take (k - headerSize)).length < f.body.length := by
      rw [length_take]
      omega
    obtain ⟨stop, decoded⟩ := decode_header i fits (f.body.take (k - headerSize))
    grind [readFull_short]

theorem readFull_length {n : Nat} {input field rest : Bytes}
    (read : readFull n input = some (field, rest)) : input.length = n + rest.length := by
  obtain ⟨rfl, len⟩ := readFull_eq_some read
  rw [length_append, len]

theorem go_progress (c : Constants) : Progress c.decode := by
  intro input f rest decoded
  unfold Constants.decode at decoded
  split at decoded
  · cases decoded
  · rename_i hdr body first
    have header := readFull_length first
    grind [headerSize, readFull_length]

theorem python_progress : Progress Python.readFrame := by
  intro input f rest decoded
  unfold Python.readFrame at decoded
  rw [recvExact_eq] at decoded
  grind [headerSize, readFull_length, recvExact_eq]

theorem decode_progress (i : Implementation) : Progress i.decode := by
  cases i with
  | broker => exact go_progress brokerConstants
  | sdk => exact go_progress sdkConstants
  | python =>
    intro input f rest decoded
    have decoded : (Python.readFrame input).map (fun next => (next.1.2, next.2)) =
      .ok (f, rest) := decoded
    cases read : Python.readFrame input with
    | error e =>
      rw [read] at decoded
      cases decoded
    | ok next =>
      rw [read] at decoded
      cases decoded
      exact python_progress _ _ _ read

theorem decodeAll_error (i : Implementation) (stream : Bytes) :
    ∃ e, i.decodeAll stream = ((scan i.decode stream).1, some e) := by
  obtain ⟨e, stopped⟩ := scan_stop (decode_progress i) stream
  refine ⟨e, ?_⟩
  unfold Implementation.decodeAll
  simp only [stopped]

/-! ## Streams of frames -/

/-- **The three implementations agree on streams of frames.**  What is sent by any of
the encoders is read back by each of the decoders; a stream that is cut anywhere is
read up to the last complete frame and then fails; and a Go encoder fails exactly on
bodies above the limit. -/
theorem frames_exchanged (sent : List (Implementation × Frame))
    (accepted : ∀ x ∈ sent, x.1.Accepts x.2) :
    ∃ stream, encodeAll sent = .ok stream ∧
      (∀ i : Implementation, ∃ e, i.decodeAll stream = (sent.map Prod.snd, some e)) ∧
      (∀ (i : Implementation) (k : Nat), ∃ got e, i.decodeAll (stream.take k) = (got, some e) ∧
        CompleteBefore wire (sent.map Prod.snd) k got) ∧
      ∀ i : Implementation, i ≠ .python → ∀ f : Frame, f.body.length < 2 ^ 32 →
        ((∃ e, i.encode f = .error e) ↔ maxBodySize < f.body.length) := by
  have good : ∀ f ∈ sent.map Prod.snd, f.Fits := by
    intro f mem
    obtain ⟨x, listed, rfl⟩ := mem_map.mp mem
    exact (accepted x listed).1
  refine ⟨_, encodeAll_accepted accepted, ?_, ?_, ?_⟩
  · intro i
    obtain ⟨e, decoded⟩ := decodeAll_error i (frames wire (sent.map Prod.snd))
    obtain ⟨stop, empty⟩ := @decode_short i [] (by decide)
    have all := scan_torn (decode_progress i) (decode_delimits i) empty _ good
    grind
  · intro i k
    obtain ⟨e, decoded⟩ := decodeAll_error i ((frames wire (sent.map Prod.snd)).take k)
    grind [scan_cut, decode_progress, decode_delimits, decode_prefixFree]
  · intro i go f short
    have size : f.body.length % 2 ^ 32 = f.body.length := Nat.mod_eq_of_lt short
    have encoded : i.encode f =
        if f.body.length > maxBodySize then .error (.bodyTooLarge f.body.length)
        else .ok (wire f) := by
      cases i with
      | python => exact absurd rfl go
      | broker | sdk =>
        show (if f.body.length % 2 ^ 32 > maxBodySize then _ else _) = _
        rw [size]
        rfl
    grind

/-- A push without a name among the commands, a subscription and a ping. -/
def sampleSent : List (Implementation × Frame) :=
  [(.broker, ⟨0x7F, 18446744073709551615, [123, 125]⟩), (.sdk, ⟨0x02, 1, [110]⟩),
    (.python, ⟨0x0C, 2, []⟩)]

theorem frames_exchanged_sample : (∀ x ∈ sampleSent, x.1.Accepts x.2) ∧
    ∃ stream, encodeAll sampleSent = .ok stream ∧
      ∀ i : Implementation, ∃ e, i.decodeAll stream = (sampleSent.map Prod.snd, some e) := by
  have accepted : ∀ x ∈ sampleSent, x.1.Accepts x.2 := by
    unfold Implementation.Accepts
    decide
  obtain ⟨stream, encoded, decoded, -, -⟩ := frames_exchanged sampleSent accepted
  exact ⟨accepted, stream, encoded, decoded⟩

end PubsubBroker.Protocol
