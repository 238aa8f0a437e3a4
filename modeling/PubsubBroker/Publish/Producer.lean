/-
# Publish.Producer — partition assignment, deduplication and `Producer.Publish`

`internal/partition/partition.go`, `internal/producer/dedup.go` and
`internal/producer/producer.go`.  A message with a key goes to the partition its
hash selects; one without takes the next partition of a round robin, so two
calls of `Assign` for the same message return different partitions.  An
exactly-once message whose sequence number is recorded is not written again: the
recorded result is returned.

`Publish` is split where it touches the partition log: `prepare` is everything in
front of the append and decides whether there is one, `Producer.record` is what
follows it.  The broker model runs the two with the append in between.

Message ids and timestamps come from the random source and the clock; they enter
as a `Stamp`.  Compression is library code and enters as a function.
-/
import PubsubBroker.Storage.PartitionLog

namespace PubsubBroker.Publish

open Theory
open Storage (Message wrap64)

structure PublishRequest where
  topic : String
  key : Bytes
  payload : Bytes
  headers : List (String × String)
  deliveryMode : UInt8
  seqNum : Nat
  codec : UInt8
  targetOffset : Option Int
deriving DecidableEq

def atMostOnce : UInt8 := 0

def atLeastOnce : UInt8 := 1

def exactlyOnce : UInt8 := 2

structure PublishResult where
  messageID : String
  partition : Int
  offset : Int
deriving DecidableEq

/-! ## Topics and partitions -/

/-- What the publish path reads of a topic's configuration.  `Create` raises a
partition count below one to one. -/
structure TopicConfig where
  partitions : Nat
  compressionCodec : UInt8
  positive : 0 < partitions

abbrev Topics := String → Option TopicConfig

abbrev Counters := String → Int

/-- FNV-1a with 32 bits. -/
def fnv32a (bytes : Bytes) : UInt32 :=
  bytes.foldl (fun h b => (h ^^^ b.toUInt32) * 16777619) 2166136261

def hashPartition (key : Bytes) (n : Nat) : Int := (fnv32a key).toNat % n

/-- `Assign`: the partition, and the counters behind the call. -/
def assign (topics : Topics) (counters : Counters) (topic : String) (key : Bytes) :
    Option Int × Counters :=
  match topics topic with
  | none => (none, counters)
  | some cfg =>
    if key ≠ [] then (some (hashPartition key cfg.partitions), counters)
    else
      (some ((counters topic).tmod cfg.partitions),
        Function.update counters topic (wrap64 (counters topic + 1)))

/-! ## Deduplication -/

structure SeqEntry where
  seqNum : Nat
  offset : Int
  valid : Bool

/-- The ring buffer of one client; `head` is the slot to overwrite next. -/
structure ClientWindow where
  ring : List SeqEntry
  head : Nat
  size : Nat
  full : ring.length = size
  inRing : head < size

def newClientWindow (size : Nat) (positive : 0 < size) : ClientWindow :=
  ⟨List.replicate size ⟨0, 0, false⟩, 0, size, List.length_replicate, positive⟩

def ClientWindow.lookup (cw : ClientWindow) (seqNum : Nat) : Option Int :=
  (cw.ring.find? fun e => e.valid ∧ e.seqNum = seqNum).map SeqEntry.offset

def ClientWindow.mark (cw : ClientWindow) (seqNum : Nat) (offset : Int) : ClientWindow where
  ring := cw.ring.set cw.head ⟨seqNum, offset, true⟩
  head := (cw.head + 1) % cw.size
  size := cw.size
  full := by rw [List.length_set, cw.full]
  inRing := Nat.mod_lt _ (Nat.zero_lt_of_lt cw.inRing)

structure DedupWindow where
  perClient : String → Option ClientWindow
  size : Nat
  positive : 0 < size

def newDedupWindow (size : Int) : DedupWindow :=
  if h : 0 < size then ⟨fun _ => none, size.toNat, by omega⟩ else ⟨fun _ => none, 10000, by decide⟩

def DedupWindow.lookupOffset (d : DedupWindow) (clientID : String) (seqNum : Nat) : Option Int :=
  (d.perClient clientID).bind fun cw => cw.lookup seqNum

def DedupWindow.mark (d : DedupWindow) (clientID : String) (seqNum : Nat) (offset : Int) :
    DedupWindow :=
  let cw := (d.perClient clientID).getD (newClientWindow d.size d.positive)
  { d with perClient := Function.update d.perClient clientID (some (cw.mark seqNum offset)) }

/-! ## Publishing -/

/-- A producer; the idempotency store is keyed by producer id and sequence
number. -/
structure Producer where
  producerID : String
  dedup : DedupWindow
  idempotencyStore : String × Nat → Option PublishResult

def newProducer (producerID : String) : Producer :=
  ⟨producerID, newDedupWindow 10000, fun _ => none⟩

/-- The recorded result of a sequence number.  The handlers pass no client id, so
the producer's own id stands for every client. -/
def Producer.lookup (p : Producer) (seqNum : Nat) (partID : Int) : Option PublishResult :=
  match p.dedup.lookupOffset p.producerID seqNum with
  | some offset => some ((p.idempotencyStore (p.producerID, seqNum)).getD ⟨"", partID, offset⟩)
  | none => p.idempotencyStore (p.producerID, seqNum)

/-- The sequence number has a recorded result. -/
def Producer.Recorded (p : Producer) (seqNum : Nat) : Prop := (p.lookup seqNum 0).isSome = true
deriving Decidable

/-- What `Publish` records behind an append. -/
def Producer.record (p : Producer) (req : PublishRequest) (result : PublishResult) : Producer :=
  if req.deliveryMode = exactlyOnce then
    { p with
      dedup := p.dedup.mark p.producerID req.seqNum result.offset
      idempotencyStore :=
        Function.update p.idempotencyStore (p.producerID, req.seqNum) (some result) }
  else p

/-- The random id and the clock reading of a new message. -/
structure Stamp where
  id : String
  timestamp : Int

def newMessage (req : PublishRequest) (stamp : Stamp) (partID : Int) : Message where
  id := stamp.id
  topic := req.topic
  timestamp := stamp.timestamp
  payload := req.payload
  headers := req.headers
  key := req.key
  partition := partID
  offset := 0
  codec := 0

/-- The payload is compressed with the request's codec, or else the topic's. -/
def compressed (compress : UInt8 → Bytes → Option Bytes) (cfg : TopicConfig)
    (req : PublishRequest) (msg : Message) : Option Message :=
  let codec := if req.codec > 0 then req.codec else cfg.compressionCodec
  if codec ≠ 0 then
    (compress codec req.payload).map fun payload => { msg with payload := payload, codec := codec }
  else some msg

inductive PublishError where
  | topicNotFound
  | notRegistered
  | partitionOutOfRange
  | compress
  | seqNumRequired
  | unsupportedMode
deriving DecidableEq

/-- What `Publish` does next: fail, return a recorded result, or append. -/
inductive Prepared where
  | failed (error : PublishError)
  | duplicate (result : PublishResult)
  | write (partID : Int) (msg : Message)

def byMode (p : Producer) (req : PublishRequest) (partID : Int) (msg : Message) : Prepared :=
  if req.deliveryMode = atMostOnce ∨ req.deliveryMode = atLeastOnce then .write partID msg
  else if req.deliveryMode = exactlyOnce then
    if req.seqNum = 0 then .failed .seqNumRequired
    else
      match p.lookup req.seqNum partID with
      | some result => .duplicate result
      | none => .write partID msg
  else .failed .unsupportedMode

/-- `Publish` in front of the append. -/
def prepare (compress : UInt8 → Bytes → Option Bytes) (topics : Topics) (counters : Counters)
    (p : Producer) (req : PublishRequest) (stamp : Stamp) : Prepared × Counters :=
  match topics req.topic with
  | none => (.failed .topicNotFound, counters)
  | some cfg =>
    let assigned := assign topics counters req.topic req.key
    (match assigned.1 with
      | none => .failed .notRegistered
      | some partID =>
        if 0 ≤ partID ∧ partID < cfg.partitions then
          match compressed compress cfg req (newMessage req stamp partID) with
          | none => .failed .compress
          | some msg => byMode p req partID msg
        else .failed .partitionOutOfRange,
      assigned.2)

variable {compress : UInt8 → Bytes → Option Bytes} {req : PublishRequest}

theorem compressed_topic {cfg : TopicConfig} {before after : Message}
    (done : compressed compress cfg req before = some after) : after.topic = before.topic := by
  unfold compressed at done
  generalize (if req.codec > 0 then req.codec else cfg.compressionCodec) = codec at done
  simp only at done
  split at done
  · obtain ⟨payload, -, rfl⟩ := Option.map_eq_some_iff.mp done
    rfl
  · cases done
    rfl

theorem byMode_write {p : Producer} {part partID : Int} {before msg : Message}
    (written : byMode p req part before = .write partID msg) : before = msg := by
  unfold byMode at written
  grind

theorem prepare_write {topics : Topics} {counters : Counters} {p : Producer} {stamp : Stamp}
    {partID : Int} {msg : Message}
    (prepared : (prepare compress topics counters p req stamp).1 = .write partID msg) :
    msg.topic = req.topic := by
  unfold prepare at prepared
  split at prepared
  case h_1 => cases prepared
  case h_2 cfg found =>
    simp only at prepared
    split at prepared
    case h_1 => cases prepared
    case h_2 part assigned =>
      split at prepared
      case isFalse => cases prepared
      case isTrue =>
        split at prepared
        case h_1 => cases prepared
        case h_2 m done =>
          rw [← byMode_write prepared, compressed_topic done]
          rfl

/-! ## Requests with one possible partition -/

structure PartitionId where
  topic : String
  partition : Int
deriving DecidableEq

/-- The partition of a request that does not depend on the round robin. -/
def home (topics : Topics) (req : PublishRequest) : PartitionId where
  topic := req.topic
  partition :=
    match topics req.topic with
    | some cfg => if req.key ≠ [] then hashPartition req.key cfg.partitions else 0
    | none => 0

/-- The topic exists, the request has a key or the topic one partition, and
nothing is compressed. -/
def Plain (topics : Topics) (req : PublishRequest) : Prop :=
  ∃ cfg ∈ topics req.topic, (req.key ≠ [] ∨ cfg.partitions = 1) ∧ req.codec = 0 ∧
    cfg.compressionCodec = 0
deriving Decidable

/-- The requests that `Publish` refuses whatever the state. -/
def Refused (req : PublishRequest) : Prop :=
  req.deliveryMode > exactlyOnce ∨ req.deliveryMode = exactlyOnce ∧ req.seqNum = 0

section

variable {topics : Topics} {req : PublishRequest}

theorem hashPartition_range (key : Bytes) {n : Nat} (positive : 0 < n) :
    0 ≤ hashPartition key n ∧ hashPartition key n < n := by
  unfold hashPartition
  constructor
  · omega
  · exact Int.emod_lt_of_pos _ (by omega)

/-- **Both calls of `Assign` return the home partition**, whatever the counters. -/
theorem assign_plain (plain : Plain topics req) (counters : Counters) :
    (assign topics counters req.topic req.key).1 = some (home topics req).partition := by
  obtain ⟨cfg, found, keyed, -⟩ := plain
  have found : topics req.topic = some cfg := found
  unfold assign home
  simp only [found]
  split
  · rfl
  · rename_i keyless
    have one : cfg.partitions = 1 := keyed.resolve_left keyless
    simp [one]

theorem home_range (plain : Plain topics req) :
    ∃ cfg, topics req.topic = some cfg ∧ 0 ≤ (home topics req).partition ∧
      (home topics req).partition < cfg.partitions := by
  obtain ⟨cfg, found, -⟩ := plain
  have found : topics req.topic = some cfg := found
  refine ⟨cfg, found, ?_⟩
  unfold home
  simp only [found]
  split
  · exact hashPartition_range req.key cfg.positive
  · simp [TopicConfig.positive]

/-- A plain request reaches the switch with an uncompressed message for its home
partition. -/
theorem prepare_plain (plain : Plain topics req) (compress : UInt8 → Bytes → Option Bytes)
    (counters : Counters) (p : Producer) (stamp : Stamp) :
    (prepare compress topics counters p req stamp).1 =
      byMode p req (home topics req).partition
        (newMessage req stamp (home topics req).partition) := by
  obtain ⟨cfg, found, range⟩ := home_range plain
  have assigned := assign_plain plain counters
  obtain ⟨cfg', found', -, noCodec, noDefault⟩ := plain
  have same : cfg' = cfg := Option.some.inj (found'.symm.trans found)
  subst same
  have uncompressed : ∀ msg, compressed compress cfg' req msg = some msg := by simp [compressed, noCodec, noDefault]
  unfold prepare
  simp only [found, assigned, if_pos range, uncompressed]

theorem recorded_of_lookup {p : Producer} {seqNum : Nat} {partID : Int} {r : PublishResult}
    (found : p.lookup seqNum partID = some r) : p.Recorded seqNum := by
  unfold Producer.Recorded Producer.lookup
  unfold Producer.lookup at found
  cases window : p.dedup.lookupOffset p.producerID seqNum with
  | some offset => rfl
  | none => grind

theorem byMode_cases (p : Producer) (partID : Int) (msg : Message) :
    (∃ e, byMode p req partID msg = .failed e ∧ Refused req) ∨
      (∃ r, byMode p req partID msg = .duplicate r ∧ req.deliveryMode = exactlyOnce ∧
        p.Recorded req.seqNum) ∨
      byMode p req partID msg = .write partID msg := by
  unfold byMode Refused
  split
  · exact .inr (.inr rfl)
  · rename_i notOnce
    split
    · rename_i mode
      grind [recorded_of_lookup]
    · rename_i notExactly
      refine .inl ⟨_, rfl, .inl ?_⟩
      simp only [atMostOnce, atLeastOnce, exactlyOnce, ← UInt8.toNat_inj, UInt8.lt_iff_toNat_lt,
        GT.gt] at *
      simp at *
      omega

theorem byMode_refused (refused : Refused req) (p : Producer) (partID : Int) (msg : Message) :
    ∃ e, byMode p req partID msg = .failed e := by
  unfold byMode
  rcases refused with high | ⟨mode, zero⟩
  · have unequal : ∀ m : UInt8, m ≤ exactlyOnce → req.deliveryMode ≠ m := by grind
    have notOther : ¬ (req.deliveryMode = atMostOnce ∨ req.deliveryMode = atLeastOnce) := by
      rintro (eq | eq)
      · exact unequal atMostOnce (by decide) eq
      · exact unequal atLeastOnce (by decide) eq
    rw [if_neg notOther, if_neg (unequal exactlyOnce (by decide))]
    exact ⟨_, rfl⟩
  · have notOther : ¬ (req.deliveryMode = atMostOnce ∨ req.deliveryMode = atLeastOnce) := by
      rw [mode]
      decide
    rw [if_neg notOther, if_pos mode, if_pos zero]
    exact ⟨_, rfl⟩

end

end PubsubBroker.Publish
