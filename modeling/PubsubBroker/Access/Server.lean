/-
# Access.Server — the handlers of all frames and of the dead-letter endpoints

`internal/broker/handlers_*.go` and `http_dlq.go`, with what they do to the topics, the
consumer groups, the committed offsets and the dead-letter queue, and what they answer.
A connection has the identity its `Auth` frame was accepted with; most handlers first ask
`Identity.can` about the topic of the request, some do not ask at all.

A publish goes on after its frame was read: its messages are appended one by one, each
result is dispatched to the groups of the topic and to the explorer, and the answer comes
last.  A push subscription leaves a delivery loop and, for a new group, a replay behind.
These are processes of the state, each with the identity it works for.  A dispatch goes
through its groups one after the other; here its deliveries are separate, so that any
order of the groups is a run.

Partitions are sparse logs, which `Storage.Refinement` justifies.  The message WAL, the
offset WAL and the topic WAL are left out, and so are retention, compaction and
replication, which no request runs.  Library and cluster errors enter with the events.
The other endpoints return counters, metadata and settings, and no payload.
-/
import PubsubBroker.Consumers.DeadLetters
import PubsubBroker.Consumers.Group
import PubsubBroker.Explorer.Session
import PubsubBroker.Publish.Producer
import PubsubBroker.Theory.SparseLog
import PubsubBroker.Topics.Registry

namespace PubsubBroker.Access

open Theory Auth Consumers Publish
open Storage (Message)
open Topics (validTopicName)

structure Config where
  authEnabled : Bool
  maxRetries : Nat
  /-- The flow-control pause as it is printed. -/
  pause : String
  explorer : Explorer.Config
  compress : UInt8 → Bytes → Option Bytes
  toLower : Bytes → Bytes

/-! ## Requests and replies -/

structure SubscribeRequest where
  topic : String
  group : String
  consumerID : String
  push : Bool

structure FetchRequest where
  topic : String
  group : String
  partition : Int
  offset : Int
  maxCount : Int
  rawTransfer : Bool

structure CommitOffsetRequest where
  group : String
  consumerID : String
  topic : String
  partition : Int
  offset : Int

structure AckRequest where
  consumerID : String
  topic : String
  partition : Int
  offset : Int

structure NackRequest where
  consumerID : String
  topic : String
  partition : Int
  offset : Int
  group : String
  requeue : Bool

structure SeekRequest where
  topic : String
  group : String
  timestampNs : Int
  toEnd : Bool
  offset : Option Int

inductive Body where
  | error (text : String)
  /-- The rows of a listing: the message and its attempts. -/
  | rows (rows : List (Message × Nat))
  | purged (count : Nat)
  | replayed (count : Nat) (remaining : Nat)
  /-- `dlq replay:` with the text of the error. -/
  | replayFailed (error : PublishError)
  | deleted
  | entry (message : Message) (group reason : String) (attempts : Nat)
deriving DecidableEq

inductive Reply where
  | ok
  | pong
  | error (code text : String)
  | denied (reason : AuthError)
  | authenticated (perms : List Permission)
  | topicList (topics : List (String × Nat))
  | published (result : PublishResult)
  /-- `INTERNAL_ERROR` with the text of the error. -/
  | publishFailed (error : PublishError)
  /-- A message that failed has no result. -/
  | batchPublished (results : List (Option PublishResult))
  | fetched (topic : String) (partition : Int) (messages : List Message) (rawBytes : Bool)
  /-- Records streamed in front of a fetch response. -/
  | streamed (messages : List Message)
  | offsets (moved : List (Nat × Int))
  | push (group consumerID : String) (message : Message)
  | http (status : Nat) (body : Body)
  /-- The handler panicked, and the connection was closed without an answer. -/
  | aborted
deriving DecidableEq

def Body.messages : Body → List Message
  | .rows listed => listed.map Prod.fst
  | .entry message _ _ _ => [message]
  | _ => []

def Reply.messages : Reply → List Message
  | .fetched _ _ messages _ => messages
  | .streamed messages => messages
  | .push _ _ message => [message]
  | .http _ body => body.messages
  | _ => []

/-- `types.BrokerError.Error`. -/
def brokerError (code message : String) : String := "[" ++ code ++ "] " ++ message

def topicNotFound (name : String) : Reply :=
  .error "TOPIC_NOT_FOUND" (brokerError "TOPIC_NOT_FOUND" ("topic " ++ name.quote ++ " not found"))

def partitionNotFound (topic : String) (partition : Int) : Reply :=
  .error "PARTITION_NOT_FOUND"
    ("partition " ++ toString partition ++ " out of range for topic " ++ topic)

def forbidden (what : String) : Reply :=
  .error "FORBIDDEN" ("insufficient permissions to " ++ what)

/-! ## State -/

/-- `handlePublish` or `handleBatchPublish` behind its checks. -/
structure Publishing where
  owner : Identity
  batch : Bool
  todo : List PublishRequest
  /-- Published, and not yet dispatched. -/
  done : List (PublishRequest × PublishResult)
  results : List (Option PublishResult)

def Publishing.finish (x : Publishing) (req : PublishRequest) (result : PublishResult) :
    Publishing :=
  { x with
    todo := x.todo.tail
    done := x.done ++ [(req, result)]
    results := x.results ++ [some result] }

def Publishing.answer (x : Publishing) : Reply :=
  match x.batch, x.results with
  | false, [some result] => .published result
  | _, results => .batchPublished results

/-- `Group.Dispatch` of one message.  `retry` is the slow consumer and the number of
retries behind the next one. -/
structure Delivery where
  owner : Identity
  group : String
  topic : String
  msg : Message
  retry : Option (String × Nat)

/-- `replayToConsumer`: the partition it is in, and the offset of its next read. -/
structure Replay where
  owner : Identity
  group : String
  topic : String
  partCount : Nat
  partition : Nat
  offset : Int

/-- `pushDeliveryLoop`.  `left` is what remains in the channel of its consumer once that
has left the group. -/
structure Loop where
  owner : Identity
  group : String
  consumerID : String
  topic : String
  left : Option (List Message)
  paused : Option Message

structure Broker where
  /-- The identity of each connection; one without has not authenticated. -/
  conns : List (Option Identity)
  topics : AList fun _ : String => TopicConfig
  logs : PartitionId → SparseLog Message
  counters : Counters
  producer : Producer
  manager : Manager
  dlq : DeadLetterQueue
  publishes : List Publishing
  deliveries : List Delivery
  replays : List Replay
  loops : List Loop
  hub : Explorer.Hub
  /-- Everything written so far, with the identity it was written for. -/
  sent : List (Option Identity × Reply)

def boot (producerID : String) (dlqSize : Int) (bufferSize : Nat) : Broker where
  conns := []
  topics := ∅
  logs _ := .empty
  counters _ := 0
  producer := newProducer producerID
  manager := ⟨[], ∅, bufferSize⟩
  dlq := newDLQ dlqSize
  publishes := []
  deliveries := []
  replays := []
  loops := []
  hub := .init
  sent := []

namespace Broker

def reply (s : Broker) (who : Option Identity) (r : Reply) : Broker :=
  { s with sent := s.sent ++ [(who, r)] }

def registered (s : Broker) : Topics := fun name => s.topics.lookup name

/-- `Topic.PartitionLog`. -/
def partitionLog (s : Broker) (topic : String) (cfg : TopicConfig) (partition : Int) :
    Option (SparseLog Message) :=
  if 0 ≤ partition ∧ partition < cfg.partitions then some (s.logs ⟨topic, partition⟩) else none

/-- `PartitionLog.Read`. -/
def readLog (log : SparseLog Message) (offset maxCount : Int) : List Message :=
  (log.read offset maxCount).map Prod.snd

/-- `PartitionLog.Append`. -/
def appendLog (s : Broker) (id : PartitionId) (msg : Message) : Broker :=
  { s with
    logs := Function.update s.logs id ((s.logs id).append (msg.setOffset (s.logs id).next)) }

/-! ## Topics -/

def validName (name : String) : Bool := validTopicName name.toList

def handleCreateTopic (s : Broker) (id : Identity) (name : String) (partitions : Int) : Broker :=
  if name = "" then s.reply id (.error "BAD_REQUEST" "topic name required")
  else if !id.can .createTopic name then s.reply id (forbidden "create topic")
  else if !validName name then
    s.reply id (.error "BAD_REQUEST" ("invalid topic name " ++ name.quote ++
      ": must match [a-zA-Z0-9][a-zA-Z0-9._-]\x7b0,248\x7d"))
  else if name ∈ s.topics then
    s.reply id (.error "TOPIC_EXISTS"
      (brokerError "TOPIC_EXISTS" ("topic " ++ name.quote ++ " already exists")))
  else
    -- a count below one is raised to one, and the records of a deleted topic of that
    -- name are still in its directory
    let count := if partitions ≤ 0 then 1 else partitions.toNat
    { s with topics := s.topics.insert name ⟨count, 0, by unfold count; split <;> omega⟩ }.reply
      id .ok

def handleDeleteTopic (s : Broker) (id : Identity) (name : String) : Broker :=
  if !id.can .deleteTopic name then s.reply id (forbidden "delete topic")
  else if name ∈ s.topics then { s with topics := s.topics.erase name }.reply id .ok
  else s.reply id (topicNotFound name)

def handleListTopics (s : Broker) (id : Identity) : Broker :=
  if !id.can .listTopics "" then s.reply id (forbidden "list topics")
  else s.reply id (.topicList (s.topics.entries.map fun e => (e.1, e.2.partitions)))

/-! ## Publishing -/

/-- `stopped` is the error of a check that this model leaves out: the owner of the
partition, the rate limit, the size of the WAL. -/
def handlePublish (s : Broker) (id : Identity) (req : PublishRequest)
    (stopped : Option (String × String)) : Broker :=
  if req.topic = "" then s.reply id (.error "BAD_REQUEST" "topic required")
  else if !id.can .publish req.topic then s.reply id (forbidden "publish")
  else
    let s := { s with counters := (assign s.registered s.counters req.topic req.key).2 }
    match stopped with
    | some (code, text) => s.reply id (.error code text)
    | none => { s with publishes := s.publishes ++ [⟨id, false, [req], [], []⟩] }

def handleBatchPublish (s : Broker) (id : Identity) (reqs : List PublishRequest)
    (stopped : Option (String × String)) : Broker :=
  match reqs with
  | [] => s.reply id (.error "BAD_REQUEST" "batch is empty")
  | first :: rest =>
    match rest.find? fun m => m.topic ≠ first.topic with
    | some m =>
      s.reply id (.error "BAD_REQUEST" ("mixed-topic batches not supported: " ++
        first.topic.quote ++ " vs " ++ m.topic.quote))
    | none =>
      if !id.can .publish first.topic then s.reply id (forbidden "publish")
      else
        match stopped with
        | some (code, text) => s.reply id (.error code text)
        | none => { s with publishes := s.publishes ++ [⟨id, true, reqs, [], []⟩] }

/-- `Producer.Publish` of the next message. -/
def produce (cfg : Config) (s : Broker) (i : Nat) (x : Publishing) (req : PublishRequest)
    (stamp : Stamp) : Broker :=
  -- a batch asks the partitioner here, a single publish has done so before its checks
  let counters :=
    if x.batch then (assign s.registered s.counters req.topic req.key).2 else s.counters
  let prepared := prepare cfg.compress s.registered counters s.producer req stamp
  let s := { s with counters := prepared.2 }
  match prepared.1 with
  | .failed error =>
    if x.batch then
      { s with
        publishes :=
          s.publishes.set i { x with todo := x.todo.tail, results := x.results ++ [none] } }
    else { s with publishes := s.publishes.eraseIdx i }.reply x.owner (.publishFailed error)
  | .duplicate result => { s with publishes := s.publishes.set i (x.finish req result) }
  | .write partID msg =>
    let id : PartitionId := ⟨req.topic, partID⟩
    let result : PublishResult := ⟨msg.id, partID, (s.logs id).next⟩
    { s.appendLog id msg with
      producer := s.producer.record req result
      publishes := s.publishes.set i (x.finish req result) }

def outgoing (req : PublishRequest) (result : PublishResult) (now : Int) : Message :=
  ⟨result.messageID, req.topic, now, req.payload, req.headers, req.key, result.partition,
    result.offset, 0⟩

/-- `Manager.Dispatch`. -/
def dispatch (s : Broker) (id : Identity) (msg : Message) : Broker :=
  { s with
    deliveries := s.deliveries ++
      (s.manager.groups.filter fun g => g.topic = msg.topic).map fun g =>
        ⟨id, g.id, g.topic, msg, none⟩ }

/-- `Manager.DispatchToGroup`; for a group that is not there the delivery reaches nobody. -/
def dispatchToGroup (s : Broker) (id : Identity) (group topic : String) (partition : Int)
    (msg : Message) : Broker :=
  { s with
    deliveries := s.deliveries ++
      [⟨id, group, topic, { msg with partition := partition }, none⟩] }

/-- `Manager.Dispatch` and `ExplorerHub.Publish` of the next result. -/
def publishOut (cfg : Config) (s : Broker) (i : Nat) (x : Publishing) (req : PublishRequest)
    (result : PublishResult) (now : Int) (order : List Nat) : Option Broker :=
  let msg := outgoing req result now
  (Explorer.step cfg.toLower cfg.explorer s.hub (.publish ⟨msg, x.owner.clientID⟩ order)).map
    fun hub =>
      { s.dispatch x.owner msg with
        hub := hub
        publishes := s.publishes.set i { x with done := x.done.tail } }

/-! ## Delivery to groups -/

/-- `handleSlowConsumer` with `left` retries to go. -/
def slow (cfg : Config) (s : Broker) (j : Nat) (d : Delivery) (consumerID : String) :
    Nat → Broker
  | 0 =>
    { s with
      deliveries := s.deliveries.eraseIdx j
      dlq := s.dlq.push
        ⟨some d.msg, d.group, "consumer channel full after retries", cfg.maxRetries⟩ }
  | left + 1 =>
    { s with deliveries := s.deliveries.set j { d with retry := some (consumerID, left) } }

/-- One attempt of a delivery.  A retry goes to the consumer that has the id by then. -/
def deliver (cfg : Config) (s : Broker) (j : Nat) (d : Delivery) : Broker :=
  match d.retry with
  | none =>
    let dispatched := s.manager.dispatchToGroup d.group d.topic d.msg.partition d.msg
    match dispatched.2 with
    | none => { s with manager := dispatched.1, deliveries := s.deliveries.eraseIdx j }
    | some consumerID =>
      { s with manager := dispatched.1 }.slow cfg j d consumerID cfg.maxRetries
  | some (consumerID, left) =>
    match s.manager.redeliver d.group d.topic consumerID d.msg with
    | some manager => { s with manager := manager, deliveries := s.deliveries.eraseIdx j }
    | none => s.slow cfg j d consumerID left

/-! ## Subscriptions -/

def channel (m : Manager) (group topic consumerID : String) : List Message :=
  match m.find group topic with
  | none => []
  | some g =>
    match g.consumers.find? fun c => c.id = consumerID with
    | none => []
    | some c => c.pushCh.getD []

def handleSubscribe (s : Broker) (id : Identity) (req : SubscribeRequest) : Broker :=
  if !id.can .subscribe req.topic then s.reply id (forbidden "subscribe")
  else
    match s.topics.lookup req.topic with
    | none => s.reply id (topicNotFound req.topic)
    | some cfg =>
      if !validName req.group then
        s.reply id (.error "BAD_REQUEST" ("invalid group name " ++ req.group.quote ++
          ": must match [a-zA-Z0-9][a-zA-Z0-9._-]\x7b0,248\x7d"))
      else
        let joined := s.manager.subscribe req.group req.consumerID req.topic cfg.partitions
        if !joined.2 then
          { s with manager := joined.1 }.reply id (.error "INTERNAL_ERROR"
            ("consumer " ++ req.consumerID.quote ++ " already in group " ++ req.group.quote))
        else if !req.push then { s with manager := joined.1 }.reply id .ok
        else
          let s : Broker := { s with
            manager := joined.1.update req.group req.topic fun g =>
              g.update req.consumerID Consumer.setSink
            loops := s.loops ++ [⟨id, req.group, req.consumerID, req.topic, none, none⟩] }
          let s := s.reply id .ok
          if s.manager.hasCommittedOffset req.group req.topic 0 then s
          else
            { s with
              replays := s.replays ++ [⟨id, req.group, req.topic, cfg.partitions, 0, 0⟩] }

/-- The next read of `replayToConsumer`, and the dispatch of what it returns. -/
def replay (s : Broker) (k : Nat) (r : Replay) : Broker :=
  if r.partition < r.partCount then
    let next := { r with partition := r.partition + 1, offset := 0 }
    match s.topics.lookup r.topic with
    | none => { s with replays := s.replays.set k next }
    | some cfg =>
      match s.partitionLog r.topic cfg r.partition with
      | none => { s with replays := s.replays.set k next }
      | some log =>
        let msgs := readLog log r.offset 100
        match msgs.getLast? with
        | none => { s with replays := s.replays.set k next }
        | some last =>
          let s := msgs.foldl
            (fun s msg => s.dispatchToGroup r.owner r.group r.topic r.partition msg) s
          { s with replays := s.replays.set k { r with offset := last.offset + 1 } }
  else { s with replays := s.replays.eraseIdx k }

/-- `Manager.Unsubscribe`.  The loop of the consumer keeps its channel. -/
def unsubscribe (s : Broker) (group consumerID topic : String) : Broker :=
  { s with
    loops := s.loops.map fun l =>
      if l.left = none ∧ l.group = group ∧ l.consumerID = consumerID ∧ l.topic = topic then
        { l with left := some (channel s.manager group topic consumerID) }
      else l
    manager := s.manager.unsubscribe group consumerID topic }

def handleUnsubscribe (s : Broker) (id : Identity) (req : SubscribeRequest) : Broker :=
  (s.unsubscribe req.group req.consumerID req.topic).reply id .ok

def queue (s : Broker) (l : Loop) : List Message :=
  l.left.getD (channel s.manager l.group l.topic l.consumerID)

/-- The groups after the loop has received a message. -/
def received (s : Broker) (l : Loop) : Manager :=
  match l.left with
  | some _ => s.manager
  | none =>
    s.manager.update l.group l.topic fun g =>
      g.update l.consumerID fun c => { c with pushCh := c.pushCh.map List.tail }

/-- `pushDeliveryLoop` receives a message. -/
def push (s : Broker) (i : Nat) (l : Loop) : Option Broker :=
  match l.paused, s.queue l with
  | none, msg :: rest =>
    let l := { l with left := l.left.map List.tail }
    if rest.length = pushCapacity then
      some { s with
        manager := s.received l
        loops := s.loops.set i { l with paused := some msg } }
    else
      some ({ s with manager := s.received l, loops := s.loops.set i l }.reply l.owner
        (.push l.group l.consumerID msg))
  | _, _ => none

/-- The pause of the flow control is over. -/
def resume (cfg : Config) (s : Broker) (i : Nat) (l : Loop) : Option Broker :=
  match l.paused with
  | none => none
  | some msg =>
    let full := (s.queue l).length = pushCapacity
    let s := { s with loops := s.loops.set i { l with paused := none } }
    if full then
      some { s with
        dlq := s.dlq.push ⟨some msg, "",
          "push channel full after " ++ cfg.pause ++ " pause, consumer " ++ l.consumerID, 1⟩ }
    else some (s.reply l.owner (.push l.group l.consumerID msg))

/-- The loop ends: its consumer was cancelled, a write failed, or the broker stops. -/
def stop (s : Broker) (i : Nat) (l : Loop) : Broker :=
  { s with loops := s.loops.eraseIdx i }.unsubscribe l.group l.consumerID l.topic

/-! ## Fetching and committing -/

/-- `streamed` is the number of records that `SendTo` wrote to the socket, and whether it
succeeded.  A poll of a group waits while there is nothing to read. -/
def handleFetch (s : Broker) (id : Identity) (req : FetchRequest) (streamed : Nat × Bool) :
    Option Broker :=
  if !id.can .fetch req.topic then some (s.reply id (forbidden "fetch"))
  else
    match s.topics.lookup req.topic with
    | none => some (s.reply id (topicNotFound req.topic))
    | some cfg =>
      match s.partitionLog req.topic cfg req.partition with
      | none => some (s.reply id (partitionNotFound req.topic req.partition))
      | some log =>
        let maxCount := if req.maxCount ≤ 0 ∨ req.maxCount > 1000 then 100 else req.maxCount
        let start :=
          if req.group = "" then req.offset
          else startOffset s.manager.offsets req.group req.topic req.partition
        let msgs := readLog log start maxCount
        if req.group ≠ "" ∧ msgs = [] then none
        else if req.rawTransfer then
          let s := s.reply id (.streamed (readLog log req.offset streamed.1))
          if streamed.2 then some (s.reply id (.fetched req.topic req.partition [] true))
          else some (s.reply id (.fetched req.topic req.partition msgs false))
        else some (s.reply id (.fetched req.topic req.partition msgs false))

def handleCommitOffset (s : Broker) (id : Identity) (req : CommitOffsetRequest) : Broker :=
  match s.manager.commitOffset req.group req.consumerID req.topic req.partition req.offset with
  | some manager => { s with manager := manager }.reply id .ok
  | none =>
    s.reply id (.error "INTERNAL_ERROR"
      (match s.manager.find req.group req.topic with
        | none => "group " ++ req.group.quote ++ "/" ++ req.topic ++ " not found"
        | some _ => "consumer " ++ req.consumerID.quote ++ " not in group " ++ req.group.quote))

/-- The offset is committed under the consumer's id, as if it were a group. -/
def handleAck (s : Broker) (id : Identity) (req : AckRequest) : Broker :=
  { s with
    manager := { s.manager with
      offsets := commit s.manager.offsets req.consumerID req.topic req.partition req.offset }
    }.reply id .ok

def handleNack (s : Broker) (id : Identity) (req : NackRequest) : Broker :=
  match s.topics.lookup req.topic with
  | none => s.reply id (topicNotFound req.topic)
  | some cfg =>
    match s.partitionLog req.topic cfg req.partition with
    | none => s.reply id (partitionNotFound req.topic req.partition)
    | some log =>
      let msg := (readLog log req.offset 1).head?
      let s :=
        if req.requeue then
          match msg with
          | none => s
          | some msg =>
            if req.group ≠ "" then s.dispatchToGroup id req.group req.topic req.partition msg
            else s.dispatch id msg
        else
          { s with dlq := s.dlq.push ⟨msg, "", "nack from consumer " ++ req.consumerID, 1⟩ }
      s.reply id .ok

/-- The offset a seek commits for one partition.  `found` is what `OffsetForTimestamp`
returns, which depends on the clock readings of the appends. -/
def seekTarget (req : SeekRequest) (log : SparseLog Message) (found : Int) : Int :=
  if req.offset.any fun offset => 0 ≤ offset then
    if req.offset.getD 0 - 1 < -1 then -1 else req.offset.getD 0 - 1
  else if req.toEnd then if 0 < log.next then log.next - 1 else 0
  else if req.timestampNs = 0 then -1
  else if 0 < found then found - 1
  else -1

/-- `SeekGroupOffset` for one partition after the other. -/
def seekGroup (m : Manager) (group topic : String) (targets : List (Nat × Int)) : Manager :=
  { m with
    offsets := targets.foldl
      (fun offsets target => commit offsets group topic target.1 target.2) m.offsets }

def handleSeek (s : Broker) (id : Identity) (req : SeekRequest) (found : Nat → Int) : Broker :=
  if req.topic = "" ∨ req.group = "" then
    s.reply id (.error "BAD_REQUEST" "topic and group are required")
  else if !id.can .seek req.topic then s.reply id (forbidden "seek")
  else
    match s.topics.lookup req.topic with
    | none => s.reply id (topicNotFound req.topic)
    | some cfg =>
      let targets := (List.range cfg.partitions).map fun (p : Nat) =>
        (p, seekTarget req (s.logs ⟨req.topic, p⟩) (found p))
      { s with manager := seekGroup s.manager req.group req.topic targets }.reply id
        (.offsets (targets.map fun (t : Nat × Int) => (t.1, if t.2 + 1 < 0 then 0 else t.2 + 1)))

def handleResetGroup (s : Broker) (id : Identity) (group topic : String) : Broker :=
  if topic = "" ∨ group = "" then
    s.reply id (.error "BAD_REQUEST" "topic and group are required")
  else if !id.can .seek topic then s.reply id (forbidden "reset group")
  else
    match s.topics.lookup topic with
    | none => s.reply id (topicNotFound topic)
    | some cfg =>
      let targets := (List.range cfg.partitions).map fun (p : Nat) => (p, (-1 : Int))
      { s with manager := seekGroup s.manager group topic targets }.reply id .ok

/-! ## The dead-letter endpoints -/

/-- `GET /dlq`; an entry without an original makes the handler panic. -/
def httpDLQ (s : Broker) (who : Option Identity) (group topic : String) (limit : Int) : Broker :=
  let entries := s.dlq.select group topic limit
  if entries = [] then s.reply who (.http 404 (.error "no DLQ entries found"))
  else
    match entries.mapM fun e => e.original.map fun m => (m, e.attempts) with
    | none => s.reply who .aborted
    | some rows => s.reply who (.http 200 (.rows rows))

/-- `DELETE /dlq` -/
def httpDLQPurge (s : Broker) (who : Option Identity) (group topic : String) : Broker :=
  let purged := s.dlq.purge group topic
  { s with dlq := purged.1 }.reply who (.http 200 (.purged purged.2))

/-- The request `httpDLQReplay` makes of a message: the codec stands in for the mode. -/
def republishRequest (msg : Message) : PublishRequest :=
  ⟨msg.topic, msg.key, msg.payload, msg.headers, msg.codec, 0, 0, none⟩

/-- How the loop of `DLQReplay` ends. -/
inductive ReplayEnd where
  | finished (replayed : Nat)
  | failed (error : PublishError)
  | panicked

/-- The loop of `DLQReplay` over the removed entries. -/
def republish (cfg : Config) (stamps : Nat → Stamp) :
    Nat → List DLQEntry → Broker → Broker × ReplayEnd
  | replayed, [], s => (s, .finished replayed)
  | replayed, e :: es, s =>
    match e.original with
    | none => (s, .panicked)
    | some msg =>
      let req := republishRequest msg
      let prepared :=
        prepare cfg.compress s.registered s.counters s.producer req (stamps replayed)
      let s := { s with counters := prepared.2 }
      match prepared.1 with
      | .failed error => (s, .failed error)
      | .duplicate _ => republish cfg stamps (replayed + 1) es s
      | .write partID msg =>
        let id : PartitionId := ⟨req.topic, partID⟩
        let result : PublishResult := ⟨msg.id, partID, (s.logs id).next⟩
        republish cfg stamps (replayed + 1) es
          { s.appendLog id msg with producer := s.producer.record req result }

/-- `POST /dlq/replay` -/
def httpDLQReplay (cfg : Config) (s : Broker) (who : Option Identity) (group topic : String)
    (limit : Int) (stamps : Nat → Stamp) : Broker :=
  let removed := s.dlq.replay group topic limit
  let ended := republish cfg stamps 0 removed.2 { s with dlq := removed.1 }
  match ended.2 with
  | .panicked => ended.1.reply who .aborted
  | .failed error => ended.1.reply who (.http 500 (.replayFailed error))
  | .finished replayed =>
    ended.1.reply who
      (.http 200 (.replayed replayed (ended.1.dlq.select group topic 0).length))

/-- `DELETE /dlq/{id}` -/
def httpDLQDelete (s : Broker) (who : Option Identity) (id group topic : String) : Broker :=
  let deleted := s.dlq.delete group topic id
  if deleted.2 then { s with dlq := deleted.1 }.reply who (.http 200 .deleted)
  else s.reply who (.http 404 (.error "DLQ entry not found"))

/-- `GET /dlq/{id}/export` -/
def httpDLQExport (s : Broker) (who : Option Identity) (id group topic : String) : Broker :=
  match s.dlq.get group topic id with
  | none => s.reply who (.http 404 (.error "DLQ entry not found"))
  | some e =>
    match e.original with
    | none => s.reply who .aborted
    | some m => s.reply who (.http 200 (.entry m e.group e.reason e.attempts))

end Broker

/-! ## The server -/

/-- A frame from a client.  What the broker learns from outside while it handles the frame
is part of it. -/
inductive Frame where
  /-- A body that is not the JSON of the named request. -/
  | malformed (request : String)
  | unknown (command : String)
  /-- What `Authenticate` returns for the key. -/
  | auth (found : Except AuthError Identity)
  | ping
  | createTopic (name : String) (partitions : Int)
  | deleteTopic (name : String)
  | listTopics
  | publish (req : PublishRequest) (stopped : Option (String × String))
  | batchPublish (reqs : List PublishRequest) (stopped : Option (String × String))
  | subscribe (req : SubscribeRequest)
  | unsubscribe (req : SubscribeRequest)
  | fetch (req : FetchRequest) (streamed : Nat × Bool)
  | commitOffset (req : CommitOffsetRequest)
  | ack (req : AckRequest)
  | nack (req : NackRequest)
  | seek (req : SeekRequest) (found : Nat → Int)
  | resetGroup (group topic : String)

/-- A request to one of the dead-letter endpoints; an absent limit is 0. -/
inductive HttpRequest where
  | dlq (group topic : String) (limit : Int)
  | dlqPurge (group topic : String)
  /-- `/dlq` with another method. -/
  | dlqOther
  | dlqReplay (group topic : String) (limit : Int) (stamps : Nat → Stamp)
  | dlqDelete (id group topic : String)
  | dlqExport (id group topic : String)

inductive Event where
  | connect
  | frame (conn : Nat) (f : Frame)
  /-- A request the middleware lets through, with the identity it found. -/
  | http (who : Option Identity) (r : HttpRequest)
  | produce (i : Nat) (stamp : Stamp)
  /-- A publish ends with an error before it is dispatched: the WAL or the quorum. -/
  | abandon (i : Nat) (code text : String)
  | dispatch (i : Nat) (now : Int) (order : List Nat)
  | answer (i : Nat)
  | deliver (j : Nat)
  | replay (k : Nat)
  | push (l : Nat)
  | resume (l : Nat)
  | stop (l : Nat)
  | explorer (e : Explorer.Event)

namespace Broker

/-- `handleAuth` -/
def handleAuth (s : Broker) (c : Nat) (was : Option Identity) :
    Except AuthError Identity → Broker
  | .error reason => s.reply was (.denied reason)
  | .ok id =>
    { s with conns := s.conns.set c (some id) }.reply id
      (.authenticated (rolePermissions id.role))

/-- `dispatch` of a frame from an authenticated connection. -/
def dispatchFrame (s : Broker) (c : Nat) (id : Identity) : Frame → Option Broker
  | .malformed request =>
    some (s.reply id (.error "BAD_REQUEST" ("invalid " ++ request ++ " body")))
  | .unknown command =>
    some (s.reply id (.error "UNKNOWN_COMMAND" ("unknown command: " ++ command)))
  | .auth found => some (s.handleAuth c id found)
  | .ping => some (s.reply id .pong)
  | .createTopic name partitions => some (s.handleCreateTopic id name partitions)
  | .deleteTopic name => some (s.handleDeleteTopic id name)
  | .listTopics => some (s.handleListTopics id)
  | .publish req stopped => some (s.handlePublish id req stopped)
  | .batchPublish reqs stopped => some (s.handleBatchPublish id reqs stopped)
  | .subscribe req => some (s.handleSubscribe id req)
  | .unsubscribe req => some (s.handleUnsubscribe id req)
  | .fetch req streamed => s.handleFetch id req streamed
  | .commitOffset req => some (s.handleCommitOffset id req)
  | .ack req => some (s.handleAck id req)
  | .nack req => some (s.handleNack id req)
  | .seek req found => some (s.handleSeek id req found)
  | .resetGroup group topic => some (s.handleResetGroup id group topic)

/-- A frame from a connection that has not authenticated. -/
def refuseFrame (s : Broker) (c : Nat) : Frame → Broker
  | .auth found => s.handleAuth c none found
  | .ping => s.reply none .pong
  | .malformed "auth" => s.reply none (.error "BAD_REQUEST" "invalid auth body")
  | _ => s.reply none (.error "UNAUTHORIZED" "authentication required")

def serve (cfg : Config) (s : Broker) (who : Option Identity) : HttpRequest → Broker
  | .dlq group topic limit => s.httpDLQ who group topic limit
  | .dlqPurge group topic => s.httpDLQPurge who group topic
  | .dlqOther => s.reply who (.http 405 (.error "method not allowed"))
  | .dlqReplay group topic limit stamps => s.httpDLQReplay cfg who group topic limit stamps
  | .dlqDelete id group topic => s.httpDLQDelete who id group topic
  | .dlqExport id group topic => s.httpDLQExport who id group topic

/-- What an explorer stream sees of the broker; publishes reach the hub through
`publishOut` only. -/
def explorerInput (s : Broker) : Explorer.Event → Bool
  | .open r => r.topicExists = decide (r.topic ∈ s.topics)
  | .publish _ _ => false
  | _ => true

end Broker

def step (cfg : Config) (s : Broker) : Event → Option Broker
  | .connect =>
    some { s with conns := s.conns ++ [if cfg.authEnabled then none else some anonymous] }
  | .frame c f =>
    match s.conns[c]? with
    | none => none
    | some none => some (s.refuseFrame c f)
    | some (some id) => s.dispatchFrame c id f
  | .http who r => some (s.serve cfg who r)
  | .produce i stamp =>
    match s.publishes[i]? with
    | none => none
    | some x =>
      match x.todo with
      | [] => none
      | req :: _ => some (s.produce cfg i x req stamp)
  | .abandon i code text =>
    match s.publishes[i]? with
    | none => none
    | some x =>
      if x.todo ≠ [] ∨ x.batch = false ∧ x.done ≠ [] then
        some ({ s with publishes := s.publishes.eraseIdx i }.reply x.owner (.error code text))
      else none
  | .dispatch i now order =>
    match s.publishes[i]? with
    | none => none
    | some x =>
      match x.todo, x.done with
      | [], (req, result) :: _ => s.publishOut cfg i x req result now order
      | _, _ => none
  | .answer i =>
    match s.publishes[i]? with
    | none => none
    | some x =>
      if x.todo = [] ∧ x.done = [] then
        some ({ s with publishes := s.publishes.eraseIdx i }.reply x.owner x.answer)
      else none
  | .deliver j =>
    match s.deliveries[j]? with
    | none => none
    | some d => some (s.deliver cfg j d)
  | .replay k =>
    match s.replays[k]? with
    | none => none
    | some r => some (s.replay k r)
  | .push l =>
    match s.loops[l]? with
    | none => none
    | some x => s.push l x
  | .resume l =>
    match s.loops[l]? with
    | none => none
    | some x => s.resume cfg l x
  | .stop l =>
    match s.loops[l]? with
    | none => none
    | some x => some (s.stop l x)
  | .explorer e =>
    if s.explorerInput e then
      (Explorer.step cfg.toLower cfg.explorer s.hub e).map fun hub => { s with hub := hub }
    else none

end PubsubBroker.Access
