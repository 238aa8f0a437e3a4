/-
# Publish.Broker — the publish handlers, crashes and `Start`

`internal/broker/handlers_publish.go`, `replayMessageWAL` of
`internal/broker/lifecycle.go` and the part of `Start` around it.  A handler takes
the messages of its request one after the other.  For each it asks the
partitioner for a partition, locks it, notes the partition's next offset as the
message's target, appends the message to the WAL, and calls `Producer.Publish`,
which asks the partitioner again and appends to the log of the partition it is
told; then it unlocks, and after the last message it replies.

Handlers run side by side, so each of these is a step of its own (`Event`).  A
crash is possible between any two steps.  It loses the handlers, the round-robin
counters and the recorded sequence numbers, and keeps the WAL and the partition
logs, which are the byte-level models of `Wal` and `Storage`.  `Start` then reads
the WAL entry by entry, skips the entries whose target lies below the next offset
of the partition the partitioner names, and publishes the others; at the end it
empties the WAL.

A reply goes together with the dispatch of the message to the consumer groups of
its topic.  Groups are never removed, so the state keeps the list of them.

The state also has the history the properties speak about: the records that
handlers appended, the results that were acknowledged, the dispatches, and the
requests that were in flight at a crash.
-/
import PubsubBroker.Publish.Producer
import PubsubBroker.Wal.Json
import PubsubBroker.Theory.Transition

namespace PubsubBroker.Publish

open Theory
open Storage (Message Codecs PartitionLog openPartitionLog)

def PublishRequest.withTarget (req : PublishRequest) (target : Int) : PublishRequest :=
  { req with targetOffset := some target }

/-- JSON of publish requests; noting an `int64` target leaves a request
representable. -/
structure PublishJson extends Wal.JsonCodec PublishRequest where
  exact_withTarget : ∀ req target, IsInt64 target → exact req → exact (req.withTarget target)

/-- The library code and the configuration the broker runs with. -/
structure Setup where
  codecs : Codecs
  json : PublishJson
  compress : UInt8 → Bytes → Option Bytes
  segMaxBytes : Int
  indexEvery : Int

/-! ## State -/

/-- How far a handler is with its current message.  From `captured` on it holds
the lock of the partition it was first told. -/
inductive Phase where
  | ready
  | assigned (part : Int)
  | captured (part : Int)
  | logged (part : Int)
  | producing (part : Int) (partID : Int) (msg : Message)

def Phase.locked : Phase → Option Int
  | .ready => none
  | .assigned _ => none
  | .captured part => some part
  | .logged part => some part
  | .producing part _ _ => some part

/-- What became of a request: the result of its `Publish`, if there is one. -/
abbrev Fate := PublishRequest × Option PublishResult

/-- A result with the request and the client it belongs to. -/
structure Ack where
  client : String
  request : PublishRequest
  result : PublishResult
deriving DecidableEq

/-- `handlePublish` or `handleBatchPublish` at work for a client. -/
structure Handler where
  client : String
  batch : Bool
  done : List Fate
  todo : List PublishRequest
  phase : Phase

def Handler.lock (h : Handler) : Option PartitionId :=
  match h.todo with
  | [] => none
  | req :: _ => h.phase.locked.map fun part => ⟨req.topic, part⟩

/-- The messages of the request, with their results so far. -/
def Handler.fates (h : Handler) : List Fate := h.done ++ h.todo.map fun req => (req, none)

/-- The results among the fates. -/
def placed (fates : List Fate) : List (PublishRequest × PublishResult) :=
  fates.filterMap fun fate => fate.2.map fun result => (fate.1, result)

def Handler.acks (h : Handler) : List Ack :=
  (placed h.done).map fun claim => ⟨h.client, claim.1, claim.2⟩

structure GroupKey where
  group : String
  topic : String
deriving DecidableEq

structure Dispatch where
  key : GroupKey
  ack : Ack

structure Broker where
  topics : Topics
  logs : PartitionId → PartitionLog
  wal : Wal.WAL
  counters : Counters
  producer : Producer
  handlers : List Handler
  groups : List GroupKey
  recovering : Option (List PublishRequest)
  written : List Ack
  acks : List Ack
  dispatched : List Dispatch
  interrupted : List PublishRequest

/-- A broker on an empty data directory. -/
def boot (S : Setup) (producerID : String) : Broker where
  topics _ := none
  logs _ := openPartitionLog S.codecs S.segMaxBytes S.indexEvery []
  wal := ⟨[], 0⟩
  counters _ := 0
  producer := newProducer producerID
  handlers := []
  groups := []
  recovering := none
  written := []
  acks := []
  dispatched := []
  interrupted := []

/-- `Topic.PartitionLog`. -/
def Broker.partitionLog (s : Broker) (topic : String) (id : Int) : Option PartitionLog :=
  match s.topics topic with
  | none => none
  | some cfg => if 0 ≤ id ∧ id < cfg.partitions then some (s.logs ⟨topic, id⟩) else none

/-- The message with the next offset of that partition as its target, if there is
such a partition. -/
def Broker.capture (s : Broker) (req : PublishRequest) (part : Int) : PublishRequest :=
  match s.partitionLog req.topic part with
  | none => req
  | some pl => req.withTarget pl.nextOffset

/-- The append of `Publish` and what follows it, at the clock reading `now`. -/
def Broker.write (S : Setup) (s : Broker) (req : PublishRequest) (partID : Int) (msg : Message)
    (now : Int) : Broker × PublishResult :=
  let appended := (s.logs ⟨req.topic, partID⟩).append S.codecs now msg
  let result : PublishResult := ⟨msg.id, partID, appended.2⟩
  ({ s with
      logs := Function.update s.logs ⟨req.topic, partID⟩ appended.1
      producer := s.producer.record req result }, result)

/-! ## Start -/

/-- Whether the replay skips an entry, and the counters behind the test. -/
def Broker.alreadyWritten (s : Broker) (req : PublishRequest) : Bool × Counters :=
  match req.targetOffset, s.topics req.topic with
  | some target, some _ =>
    let assigned := assign s.topics s.counters req.topic req.key
    (match s.partitionLog req.topic (assigned.1.getD 0) with
      | none => false
      | some pl => decide (pl.nextOffset > target), assigned.2)
  | _, _ => (false, s.counters)

/-- One iteration of `replayMessageWAL`. -/
def Broker.replayEntry (S : Setup) (s : Broker) (req : PublishRequest) (stamp : Stamp)
    (now : Int) : Broker :=
  let tested := s.alreadyWritten req
  if tested.1 then { s with counters := tested.2 }
  else
    let prepared := prepare S.compress s.topics tested.2 s.producer req stamp
    match prepared.1 with
    | .failed _ => { s with counters := prepared.2 }
    | .duplicate _ => { s with counters := prepared.2 }
    | .write partID msg => { (s.write S req partID msg now).1 with counters := prepared.2 }

/-! ## Steps -/

inductive Event where
  | createTopic (name : String) (cfg : TopicConfig)
  | subscribe (key : GroupKey)
  | publish (client : String) (req : PublishRequest)
  | batchPublish (client : String) (messages : List PublishRequest)
  | refuse (handler : Nat)
  | assign (handler : Nat)
  | capture (handler : Nat)
  | log (handler : Nat)
  | produce (handler : Nat) (stamp : Stamp)
  | append (handler : Nat) (now : Int)
  | reply (handler : Nat) (quorum : Bool)
  | crash (producerID : String)
  | replay (stamp : Stamp) (now : Int)
  | serve

def Handler.finish (h : Handler) (req : PublishRequest) (rest : List PublishRequest)
    (result : Option PublishResult) : Handler :=
  { h with done := h.done ++ [(req, result)], todo := rest, phase := .ready }

/-- The checks in front of the WAL append that turn a request down: permissions,
ownership and the rate limit, and for a single publish the backpressure test
under the lock.  A batch is turned down as a whole, before its first message. -/
def Handler.refusable (h : Handler) : Bool :=
  h.done.isEmpty &&
    match h.phase with
    | .ready => true
    | .assigned _ => !h.batch
    | .captured _ => !h.batch
    | _ => false

/-- A crash: what is on disk is opened again. -/
def Broker.crash (S : Setup) (s : Broker) (producerID : String) : Broker :=
  { s with
    logs := fun p => (s.logs p).reopen S.codecs
    wal := (Wal.openFile s.wal.file).1
    counters := fun _ => 0
    producer := newProducer producerID
    handlers := []
    groups := []
    recovering := some (Wal.storedRecords S.json.toJsonCodec s.wal)
    interrupted := s.interrupted ++ (s.handlers.flatMap Handler.fates).map Prod.fst }

def Broker.locked (s : Broker) (p : PartitionId) : Bool := p ∈ s.handlers.filterMap Handler.lock

/-- `Manager.Dispatch`: the groups of the topic that get a message. -/
def Broker.dispatch (s : Broker) (ack : Ack) : List Dispatch :=
  (s.groups.filter fun key => key.topic = ack.request.topic).map fun key => ⟨key, ack⟩

def handlerStep (S : Setup) (s : Broker) (i : Nat) (h : Handler) : Event → Option Broker
  | .refuse _ =>
    if h.refusable then some { s with handlers := s.handlers.eraseIdx i } else none
  | .assign _ =>
    match h.todo, h.phase with
    | req :: _, .ready =>
      let assigned := assign s.topics s.counters req.topic req.key
      some { s with
        counters := assigned.2
        handlers := s.handlers.set i { h with phase := .assigned (assigned.1.getD 0) } }
    | _, _ => none
  | .capture _ =>
    match h.todo, h.phase with
    | req :: rest, .assigned part =>
      if s.locked ⟨req.topic, part⟩ then none
      else some { s with
        handlers := s.handlers.set i
          { h with todo := s.capture req part :: rest, phase := .captured part } }
    | _, _ => none
  | .log _ =>
    match h.todo, h.phase with
    | req :: _, .captured part =>
      some { s with
        wal := Wal.appendRecord S.json.toJsonCodec s.wal req
        handlers := s.handlers.set i { h with phase := .logged part } }
    | _, _ => none
  | .produce _ stamp =>
    match h.todo, h.phase with
    | req :: rest, .logged part =>
      let prepared := prepare S.compress s.topics s.counters s.producer req stamp
      some { s with
        counters := prepared.2
        handlers := s.handlers.set i
          (match prepared.1 with
          | .failed _ => h.finish req rest none
          | .duplicate result => h.finish req rest (some result)
          | .write partID msg => { h with phase := .producing part partID msg }) }
    | _, _ => none
  | .append _ now =>
    match h.todo, h.phase with
    | req :: rest, .producing _ partID msg =>
      let written := s.write S req partID msg now
      some { written.1 with
        handlers := s.handlers.set i (h.finish req rest (some written.2))
        written := s.written ++ [⟨h.client, req, written.2⟩] }
    | _, _ => none
  | .reply _ quorum =>
    -- only a single publish waits for a quorum, and reports an error without one
    if h.todo = [] then
      if h.batch ∨ quorum then
        some { s with
          handlers := s.handlers.eraseIdx i
          acks := s.acks ++ h.acks
          dispatched := s.dispatched ++ h.acks.flatMap s.dispatch }
      else some { s with handlers := s.handlers.eraseIdx i }
    else none
  | _ => none

def Event.handler : Event → Option Nat
  | .refuse i => some i
  | .assign i => some i
  | .capture i => some i
  | .log i => some i
  | .produce i _ => some i
  | .append i _ => some i
  | .reply i _ => some i
  | _ => none

def step (S : Setup) (s : Broker) (e : Event) : Option Broker :=
  match e with
  | .createTopic name cfg =>
    if s.recovering.isSome then none
    else if (s.topics name).isSome then some s
    else some { s with topics := Function.update s.topics name (some cfg) }
  | .subscribe key =>
    if s.recovering.isSome then none
    else if key ∈ s.groups then some s
    else some { s with groups := s.groups ++ [key] }
  | .publish client req =>
    if s.recovering.isSome then none
    else if req.topic = "" then some s
    else some { s with handlers := s.handlers ++ [⟨client, false, [], [req], .ready⟩] }
  | .batchPublish client messages =>
    if s.recovering.isSome then none
    else
      match messages with
      | [] => some s
      | first :: rest =>
        if ∃ m ∈ rest, m.topic ≠ first.topic then some s
        else some { s with handlers := s.handlers ++ [⟨client, true, [], messages, .ready⟩] }
  | .crash producerID => some (s.crash S producerID)
  | .replay stamp now =>
    match s.recovering with
    | some (req :: rest) => some { s.replayEntry S req stamp now with recovering := some rest }
    | _ => none
  | .serve =>
    match s.recovering with
    | some [] => some { s with wal := Wal.truncate s.wal [], recovering := none }
    | _ => none
  | e =>
    match e.handler with
    | none => none
    | some i =>
      match s.handlers[i]? with
      | none => none
      | some h => handlerStep S s i h e

end PubsubBroker.Publish
