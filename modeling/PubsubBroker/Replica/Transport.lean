/-
# Replica.Transport — cluster messages on a connection

`writeMsg`, `readMsg` and `readLoop` in `internal/cluster/transport.go`.  A message is JSON
behind a header with two magic bytes, the type and the length of the body as 32 bits.  The
reader refuses a body over 4 MiB and the loop ends at the first refusal; the writer has no
limit, and the replicator fills a message with up to 256 records of any size a publish
accepts.

The JSON codec is a parameter.  What is used of it: a message comes back from its text, and a
text that was cut off is refused, as the text of an object always is.  The second matters for
bodies of 4 GiB and more, whose length does not fit the header.

`transport_round_trip`: what was sent arrives, exactly when every body is within the
reader's limit.
-/
import PubsubBroker.Storage.Record
import PubsubBroker.Theory.Framed

namespace PubsubBroker.Replica.Transport

open Theory List
open Storage (Message)

def wireMagic0 : UInt8 := 0xCB

def wireMagic1 : UInt8 := 0x01

/-- 4 MiB. -/
def maxMsgBody : Nat := 4 * 1024 * 1024

structure ClusterMsg where
  msgType : UInt8
  sender : String
  term : Nat
  body : Bytes

def msgReplicaData : UInt8 := 10

structure ReplicaDataBody where
  topic : String
  partition : Int
  messages : List Message

/-- The message `leaderTick` and `handleFetch` send for a batch. -/
def replicaData (marshal : ReplicaDataBody → Bytes) (self : String) (batch : ReplicaDataBody) :
    ClusterMsg :=
  ⟨msgReplicaData, self, 0, marshal batch⟩

/-- JSON for cluster messages. -/
structure Json where
  marshal : ClusterMsg → Except String Bytes
  unmarshal : Bytes → Except String ClusterMsg
  roundTrip : ∀ {m body}, marshal m = .ok body → unmarshal body = .ok m
  /-- No text is complete before its end. -/
  cutOff : ∀ {m body k}, marshal m = .ok body → k < body.length →
    ∃ err, unmarshal (body.take k) = .error err

section

variable (J : Json)

/-- The bytes of a message; `PutUint32` keeps the low 32 bits of the length. -/
def frame (m : ClusterMsg) (body : Bytes) : Bytes :=
  [wireMagic0, wireMagic1, m.msgType] ++ beBytes 4 body.length ++ body

def writeMsg (m : ClusterMsg) : Except String Bytes :=
  match J.marshal m with
  | .error err => .error ("cluster: marshal msg: " ++ err)
  | .ok body => .ok (frame m body)

inductive ReadError where
  | eof
  | invalidMagic (b0 b1 : UInt8)
  | tooLarge (bodyLen : Nat)
  | unmarshal (err : String)

def readMsg (input : Bytes) : Except ReadError (ClusterMsg × Bytes) :=
  match readFull 7 input with
  | none => .error .eof
  | some (hdr, rest) =>
    if hdr.headD 0 ≠ wireMagic0 ∨ (hdr.drop 1).headD 0 ≠ wireMagic1 then
      .error (.invalidMagic (hdr.headD 0) ((hdr.drop 1).headD 0))
    else
      let bodyLen := beNat (hdr.drop 3)
      if bodyLen > maxMsgBody then .error (.tooLarge bodyLen)
      else
        match readFull bodyLen rest with
        | none => .error .eof
        | some (body, rest) =>
          match J.unmarshal body with
          | .error err => .error (.unmarshal err)
          | .ok m => .ok (m, rest)

/-- The bytes on a connection on which `writeMsg` has sent messages. -/
def writeAll : List ClusterMsg → Except String Bytes
  | [] => .ok []
  | m :: ms =>
    match writeMsg J m with
    | .error err => .error err
    | .ok bytes =>
      match writeAll ms with
      | .error err => .error err
      | .ok rest => .ok (bytes ++ rest)

/-- `readLoop`: the messages up to the first refusal, and what is left unread. -/
def readLoop (input : Bytes) : List ClusterMsg × Bytes := scan (readMsg J) input

/-! ## One message -/

variable {J}

theorem readMsg_progress : Progress (readMsg J) := by
  intro input m rest ok
  unfold readMsg at ok
  cases header : readFull 7 input with
  | none => simp [header] at ok
  | some fields =>
    obtain ⟨hdr, behind⟩ := fields
    obtain ⟨rfl, len⟩ := readFull_eq_some header
    simp only [header] at ok
    split at ok
    · cases ok
    split at ok
    · cases ok
    cases whole : readFull (beNat (hdr.drop 3)) behind with
    | none => simp [whole] at ok
    | some fields =>
      obtain ⟨body, tail⟩ := fields
      obtain ⟨rfl, -⟩ := readFull_eq_some whole
      grind

theorem readMsg_frame (m : ClusterMsg) (body rest : Bytes) :
    readMsg J (frame m body ++ rest) =
      if body.length % 256 ^ 4 > maxMsgBody then .error (.tooLarge (body.length % 256 ^ 4))
      else
        match readFull (body.length % 256 ^ 4) (body ++ rest) with
        | none => .error .eof
        | some (text, rest) =>
          match J.unmarshal text with
          | .error err => .error (.unmarshal err)
          | .ok m => .ok (m, rest) := by
  have header : readFull 7 (frame m body ++ rest) =
      some ([wireMagic0, wireMagic1, m.msgType] ++ beBytes 4 body.length, body ++ rest) := by
    rw [frame, append_assoc]
    exact readFull_append_of_length (by simp) (body ++ rest)
  rw [readMsg, header]
  simp [beNat_beBytes_mod]

theorem readMsg_ok {m : ClusterMsg} {body : Bytes} (marshalled : J.marshal m = .ok body)
    (within : body.length ≤ maxMsgBody) (rest : Bytes) :
    readMsg J (frame m body ++ rest) = .ok (m, rest) := by
  have short : body.length % 256 ^ 4 = body.length := by
    unfold maxMsgBody at within
    omega
  rw [readMsg_frame, short, if_neg (by omega), readFull_append]
  simp [J.roundTrip marshalled]

/-- A body over the limit is refused: by its length, or because the header's length cuts
the text off. -/
theorem readMsg_refused {m : ClusterMsg} {body : Bytes} (marshalled : J.marshal m = .ok body)
    (tooLong : maxMsgBody < body.length) (rest : Bytes) :
    ∃ err, readMsg J (frame m body ++ rest) = .error err := by
  rw [readMsg_frame]
  by_cases large : body.length % 256 ^ 4 > maxMsgBody
  · exact ⟨_, if_pos large⟩
  · rw [if_neg large]
    have short : body.length % 256 ^ 4 < body.length := by omega
    obtain ⟨err, cut⟩ := J.cutOff marshalled short
    have text : readFull (body.length % 256 ^ 4) (body ++ rest) =
        some (body.take (body.length % 256 ^ 4), (body ++ rest).drop (body.length % 256 ^ 4)) := by
      rw [readFull, if_neg (by simp; omega), take_append_of_le_length (by omega)]
    exact ⟨.unmarshal err, by simp only [text, cut]⟩

/-! ## A connection -/

theorem readLoop_nil : readLoop J [] = ([], []) := by
  have refused : readMsg J [] = .error .eof := by
    rw [readMsg, readFull_short (by decide)]
  exact scan_error refused

theorem writeAll_cons {m : ClusterMsg} {ms : List ClusterMsg} {stream : Bytes}
    (sent : writeAll J (m :: ms) = .ok stream) :
    ∃ body rest, J.marshal m = .ok body ∧ writeAll J ms = .ok rest ∧ stream = frame m body ++ rest := by
  rw [writeAll, writeMsg] at sent
  cases marshalled : J.marshal m with
  | error err => simp [marshalled] at sent
  | ok body => grind

end

/-- **What was sent arrives** on a connection, in order and completely, if and only if the
text of every message is within the limit of the reader. -/
theorem transport_round_trip (J : Json) (msgs : List ClusterMsg) (stream : Bytes)
    (sent : writeAll J msgs = .ok stream) :
    readLoop J stream = (msgs, []) ↔
      ∀ m ∈ msgs, ∀ body, J.marshal m = .ok body → body.length ≤ maxMsgBody := by
  induction msgs generalizing stream with
  | nil =>
    cases sent
    simp [readLoop_nil]
  | cons m ms ih =>
    obtain ⟨body, rest, marshalled, later, rfl⟩ := writeAll_cons sent
    by_cases within : body.length ≤ maxMsgBody
    · have first : readLoop J (frame m body ++ rest) =
          (m :: (readLoop J rest).1, (readLoop J rest).2) :=
        scan_ok readMsg_progress (readMsg_ok marshalled within rest)
      grind
    · obtain ⟨err, refused⟩ := readMsg_refused marshalled (Nat.lt_of_not_le within) rest
      simp [readLoop, scan_error, marshalled, within, refused]

section Sample

/-- A text for a byte string that doubles it and marks its end. -/
def spell : Bytes → Bytes
  | [] => [1]
  | b :: bs => 0 :: b :: spell bs

def unspell : Bytes → Option Bytes
  | [1] => some []
  | 0 :: b :: rest => (unspell rest).map (b :: ·)
  | _ => none

theorem unspell_spell (bs : Bytes) : unspell (spell bs) = some bs := by
  induction bs with
  | nil => rfl
  | cons b bs ih => simp [spell, unspell, ih]

theorem unspell_take (bs : Bytes) (k : Nat) (short : k < (spell bs).length) :
    unspell ((spell bs).take k) = none := by
  induction bs generalizing k with
  | nil =>
    obtain rfl : k = 0 := by simpa [spell] using short
    rfl
  | cons b bs ih =>
    match k with
    | 0 => rfl
    | 1 => rfl
    | k + 2 => grind [spell, unspell]

@[simp] theorem spell_length (bs : Bytes) : (spell bs).length = 2 * bs.length + 1 := by
  induction bs with
  | nil => rfl
  | cons b bs ih =>
    simp [spell, ih]
    omega

/-- A codec for the replica data of one node. -/
def sampleJson : Json where
  marshal m :=
    if m.msgType = msgReplicaData ∧ m.sender = "n1" ∧ m.term = 0 then .ok (spell m.body)
    else .error "unsupported"
  unmarshal text :=
    match unspell text with
    | none => .error "unexpected end of input"
    | some body => .ok ⟨msgReplicaData, "n1", 0, body⟩
  roundTrip := by
    rintro ⟨msgType, sender, term, content⟩ body marshalled
    simp only at marshalled
    split at marshalled
    case isFalse => cases marshalled
    case isTrue supported =>
      cases marshalled
      obtain ⟨rfl, rfl, rfl⟩ := supported
      simp [unspell_spell]
  cutOff := by
    intro m body k marshalled short
    split at marshalled
    case isFalse => cases marshalled
    case isTrue =>
      cases marshalled
      exact ⟨_, by rw [unspell_take m.body k short]⟩

/-- The payloads of a batch, as a stand-in for its text. -/
def payloads (batch : ReplicaDataBody) : Bytes := batch.messages.flatMap (·.payload)

def sampleBatch (payload : Bytes) : ReplicaDataBody :=
  ⟨"t", 0, [⟨"m", "t", 0, payload, [], [], 0, 0, 0⟩]⟩

theorem transport_round_trip_sample :
    ∃ stream, writeAll sampleJson [replicaData payloads "n1" (sampleBatch [1, 2]),
        replicaData payloads "n1" (sampleBatch [])] = .ok stream ∧
      readLoop sampleJson stream = ([replicaData payloads "n1" (sampleBatch [1, 2]),
        replicaData payloads "n1" (sampleBatch [])], []) := by
  refine ⟨_, rfl, (transport_round_trip sampleJson _ _ rfl).mpr ?_⟩
  intro m mem body marshalled
  simp only [mem_cons, not_mem_nil, or_false] at mem
  rcases mem with rfl | rfl <;> cases marshalled <;> decide

/-- **A batch is sent and refused.**  One message of 2 MiB, which a publish accepts, makes a
body over the reader's limit; the loop ends without it. -/
theorem batch_refused :
    ∃ (payload stream : Bytes), payload.length = 2 * 1024 * 1024 ∧
      writeAll sampleJson [replicaData payloads "n1" (sampleBatch payload)] = .ok stream ∧
      (readLoop sampleJson stream).1 = [] := by
  have marshalled : ∀ payload,
      sampleJson.marshal (replicaData payloads "n1" (sampleBatch payload)) =
        .ok (spell (payload ++ [])) := fun payload => rfl
  let payload : Bytes := List.replicate (2 * 1024 * 1024) 7
  have tooLong : maxMsgBody < (spell (payload ++ [])).length := by
    rw [spell_length, append_nil, length_replicate]
    decide
  obtain ⟨err, refused⟩ := readMsg_refused (marshalled payload) tooLong []
  refine ⟨payload, _, length_replicate, rfl, ?_⟩
  exact congrArg Prod.fst (scan_error refused)

end Sample

end PubsubBroker.Replica.Transport
