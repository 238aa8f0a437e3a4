/-
# Consumers.Push — a push subscription beside concurrent publishes

`handleSubscribe`, `replayToConsumer` and `pushDeliveryLoop` of
`internal/broker/handlers_consumer.go`, and the end of the publish handlers, which
dispatch outside the partition lock.  A subscription joins the group, sets the
sink, answers and starts the delivery loop; if the group has no committed offset
on partition 0, it then reads every partition from offset 0 and dispatches what it
reads.  All the while publishes append to the partitions and dispatch to the
group, each as a step of its own.

The model follows one subscription to its end, from any logs, committed offsets
and publishes under way.  The group has no other consumer.  A dispatch that finds
the consumer's channel full is tried again and ends in the dead-letter queue.  The
delivery loop of an earlier subscription with the same consumer id may still be
running; when it ends, it takes that id out of the group.

A publish that repeats a recorded sequence number dispatches without an append,
and one that misses its quorum appends without a dispatch.  A dispatched message
has a timestamp of its own, so messages are compared up to their timestamps.
-/
import PubsubBroker.Consumers.DeadLetters
import PubsubBroker.Consumers.Group
import PubsubBroker.Storage.Refinement
import PubsubBroker.Theory.CatchUp
import PubsubBroker.Theory.Transition

namespace PubsubBroker.Consumers.Push

open Theory Storage
open Offsets (OffsetStore)

/-! ## State -/

/-- The request and the configuration; `pause` is the printed flow-control pause. -/
structure Config where
  codecs : Codecs
  group : String
  topic : String
  consumerID : String
  partCount : Nat
  maxRetries : Nat
  pause : String

/-- How far `handleSubscribe` is.  A replay has a partition, the offset of its next
read, the rest of the batch it read, and the failed deliveries of the first of it. -/
inductive Phase where
  | received
  | refused
  | joined
  | sinkSet
  | answered
  | replaying (partition : Nat) (offset : Int) (batch : List Message) (attempts : Nat)
  | finished
deriving DecidableEq

/-- The delivery loop; `paused` is its flow control. -/
inductive Loop where
  | off
  | waiting
  | paused (msg : Message)
  | ended
deriving DecidableEq

/-- A publish that has its result and has yet to deliver to the group.  It is `live`
if it appended its record after the last read of that partition by the replay. -/
structure Publish where
  msg : Message
  live : Bool
  attempts : Nat
deriving DecidableEq

/-- `earlier` counts the delivery loops of earlier subscriptions, and `sent` is what
the loop wrote to the connection. -/
structure State where
  logs : Int → PartitionLog
  manager : Manager
  publishes : List Publish
  phase : Phase
  loop : Loop
  earlier : Nat
  dlq : DeadLetterQueue
  sent : List Message

def channel (cfg : Config) (m : Manager) : List Message :=
  match m.find cfg.group cfg.topic with
  | none => []
  | some g =>
    match g.consumers.find? fun c => c.id = cfg.consumerID with
    | none => []
    | some c => c.pushCh.getD []

/-- The replay has read the partition to its end, or is skipped. -/
def State.replayed (s : State) (p : Int) : Bool :=
  match s.phase with
  | .replaying q _ _ _ => p < q
  | .finished => true
  | _ => false

/-! ## Steps -/

inductive Event where
  | append (partition : Int) (now : Int) (msg : Message)
  | repeated (msg : Message)
  | abandon (publish : Nat)
  | deliver (publish : Nat) (now : Int)
  | join
  | setSink
  | answer
  | check
  | read
  | replay
  | push
  | resume
  | commit (partition offset : Int)
  | earlierEnds
deriving DecidableEq

/-- An attempt to deliver: the first one dispatches, the later ones go to the slow
consumer. -/
def offer (cfg : Config) (m : Manager) (attempts : Nat) (partition : Int) (msg : Message) :
    Manager × Bool :=
  if attempts = 0 then
    let dispatched := m.dispatchToGroup cfg.group cfg.topic partition msg
    (dispatched.1, dispatched.2.isNone)
  else
    match m.redeliver cfg.group cfg.topic cfg.consumerID { msg with partition := partition } with
    | some m' => (m', true)
    | none => (m, false)

/-- The next attempt of `handleSlowConsumer`, if there is one. -/
def nextAttempt (cfg : Config) (attempts : Nat) : Option Nat :=
  if attempts < cfg.maxRetries then some (attempts + 1) else none

def slowEntry (cfg : Config) (msg : Message) : DLQEntry :=
  ⟨some msg, cfg.group, "consumer channel full after retries", cfg.maxRetries⟩

def pauseEntry (cfg : Config) (msg : Message) : DLQEntry :=
  ⟨some msg, "", "push channel full after " ++ cfg.pause ++ " pause, consumer " ++ cfg.consumerID, 1⟩

def replayFrom (cfg : Config) (q : Nat) : Phase :=
  if q < cfg.partCount then .replaying q 0 [] 0 else .finished

/-- The loop takes the first message out of the push channel. -/
def take (cfg : Config) (m : Manager) : Manager :=
  m.update cfg.group cfg.topic fun g =>
    g.update cfg.consumerID fun c => { c with pushCh := c.pushCh.map (List.drop 1) }

/-- The message of a publish, stamped at its dispatch. -/
def Publish.outgoing (x : Publish) (now : Int) : Message :=
  if x.attempts = 0 then { x.msg with timestamp := now } else x.msg

def State.deliver (cfg : Config) (s : State) (i : Nat) (x : Publish) (now : Int) : State :=
  let msg := x.outgoing now
  let offered := offer cfg s.manager x.attempts msg.partition msg
  if offered.2 then { s with manager := offered.1, publishes := s.publishes.eraseIdx i }
  else
    match nextAttempt cfg x.attempts with
    | some k =>
      { s with
        manager := offered.1
        publishes := s.publishes.set i { x with msg := msg, attempts := k } }
    | none =>
      { s with
        manager := offered.1
        publishes := s.publishes.eraseIdx i
        dlq := s.dlq.push (slowEntry cfg msg) }

/-- The replay tries to deliver the first message of its batch. -/
def State.replay (cfg : Config) (s : State) (q : Nat) (offset : Int) (msg : Message)
    (rest : List Message) (attempts : Nat) : State :=
  let offered := offer cfg s.manager attempts q msg
  if offered.2 then { s with manager := offered.1, phase := .replaying q offset rest 0 }
  else
    match nextAttempt cfg attempts with
    | some k => { s with manager := offered.1, phase := .replaying q offset (msg :: rest) k }
    | none =>
      { s with
        manager := offered.1
        phase := .replaying q offset rest 0
        dlq := s.dlq.push (slowEntry cfg { msg with partition := q }) }

def step (cfg : Config) (s : State) : Event → Option State
  | .append p now msg =>
    if 0 ≤ p ∧ p < cfg.partCount then
      let appended := (s.logs p).append cfg.codecs now { msg with partition := p }
      some { s with
        logs := Function.update s.logs p appended.1
        publishes := s.publishes ++
          [⟨({ msg with partition := p } : Message).setOffset appended.2, s.replayed p, 0⟩] }
    else none
  | .repeated msg => some { s with publishes := s.publishes ++ [⟨msg, false, 0⟩] }
  | .abandon i =>
    match s.publishes[i]? with
    | some ⟨_, _, 0⟩ => some { s with publishes := s.publishes.eraseIdx i }
    | _ => none
  | .deliver i now =>
    match s.publishes[i]? with
    | some x => some (s.deliver cfg i x now)
    | none => none
  | .join =>
    match s.phase with
    | .received =>
      let joined := s.manager.subscribe cfg.group cfg.consumerID cfg.topic cfg.partCount
      some { s with
        manager := joined.1
        phase := if joined.2 then .joined else .refused }
    | _ => none
  | .setSink =>
    match s.phase with
    | .joined =>
      some { s with
        manager := s.manager.update cfg.group cfg.topic fun g =>
          g.update cfg.consumerID Consumer.setSink
        phase := .sinkSet }
    | _ => none
  | .answer =>
    match s.phase with
    | .sinkSet => some { s with phase := .answered, loop := .waiting }
    | _ => none
  | .check =>
    match s.phase with
    | .answered =>
      some { s with
        phase :=
          if s.manager.hasCommittedOffset cfg.group cfg.topic 0 then .finished
          else replayFrom cfg 0 }
    | _ => none
  | .read =>
    match s.phase with
    | .replaying q offset [] _ =>
      match (s.logs q).read cfg.codecs offset 100 with
      | .error _ => some { s with phase := replayFrom cfg (q + 1) }
      | .ok msgs =>
        match msgs.getLast? with
        | none => some { s with phase := replayFrom cfg (q + 1) }
        | some last => some { s with phase := .replaying q (last.offset + 1) msgs 0 }
    | _ => none
  | .replay =>
    match s.phase with
    | .replaying q offset (msg :: rest) attempts => some (s.replay cfg q offset msg rest attempts)
    | _ => none
  | .push =>
    match s.loop, channel cfg s.manager with
    | .waiting, msg :: rest =>
      if rest.length = pushCapacity then
        some { s with manager := take cfg s.manager, loop := .paused msg }
      else some { s with manager := take cfg s.manager, sent := s.sent ++ [msg] }
    | _, _ => none
  | .resume =>
    match s.loop with
    | .paused msg =>
      if (channel cfg s.manager).length = pushCapacity then
        some { s with loop := .waiting, dlq := s.dlq.push (pauseEntry cfg msg) }
      else some { s with loop := .waiting, sent := s.sent ++ [msg] }
    | _ => none
  | .commit p offset =>
    match s.phase with
    | .finished =>
      match s.manager.commitOffset cfg.group cfg.consumerID cfg.topic p offset with
      | none => some s
      | some manager => some { s with manager := manager }
    | _ => none
  | .earlierEnds =>
    match s.earlier with
    | 0 => none
    | k + 1 =>
      some { s with
        earlier := k
        manager := s.manager.unsubscribe cfg.group cfg.consumerID cfg.topic
        loop := if s.phase = .received then s.loop else .ended }

/-! ## Schedules -/

/-- The consumer has no push channel yet. -/
def Phase.sinkless : Phase → Bool
  | .received => true
  | .joined => true
  | _ => false

/-- The publish is live, and no live one in front of it is for the same partition. -/
def State.First (s : State) (i : Nat) : Prop :=
  ∃ x ∈ s.publishes[i]?, x.live = true ∧
    ∀ y ∈ s.publishes.take i, y.live = true → y.msg.partition ≠ x.msg.partition
deriving Decidable

/-- The push channel does not fill up with one more message. -/
def State.Room (cfg : Config) (s : State) : Prop :=
  (channel cfg s.manager).length + 1 < pushCapacity
deriving Decidable

/-- The steps that keep publishes and the subscription apart.  A publish delivers
before the sink is set, or else has appended its record after the replay's last
read of that partition and delivers in the order of the appends; a publish of that
kind does not miss its quorum.  The join comes after the end of earlier delivery
loops, and the push channel does not fill up.  Appends are of messages the storage
format represents. -/
def Orderly (cfg : Config) (s : State) : Event → Prop
  | .append p now msg =>
    Op.Admissible cfg.codecs (.append now { msg with partition := p }) ∧
      IsInt64 (s.logs p).nextOffset
  | .abandon i => ∀ x ∈ s.publishes[i]?, x.live = false
  | .deliver i _ => s.phase.sinkless = true ∨ s.First i ∧ s.Room cfg
  | .join => s.earlier = 0
  | .replay => s.Room cfg
  | _ => True

/-- Where the group is to go on in a partition. -/
def start (cfg : Config) (offsets : OffsetStore) (p : Int) : Int :=
  startOffset offsets cfg.group cfg.topic p

/-- If partition 0 has a committed offset, no partition has a record behind its
committed one; otherwise none has a record up to it.  No committed offset lies
behind the end of its partition. -/
def State.Resumable (cfg : Config) (s : State) : Prop :=
  ∀ p < cfg.partCount,
    start cfg s.manager.offsets p ≤ (s.logs p).nextOffset ∧
      ∀ r ∈ (s.logs p).records cfg.codecs,
        if s.manager.hasCommittedOffset cfg.group cfg.topic 0 then
          r.offset < start cfg s.manager.offsets p
        else start cfg s.manager.offsets p ≤ r.offset

/-- The steps after which a group goes on where it stopped. -/
def Allowed (cfg : Config) (s : State) (e : Event) : Prop :=
  Orderly cfg s e ∧ (e = .check → s.Resumable cfg)

section

variable (cfg : Config) [DecidablePred (Writable cfg.codecs)] (s : State)

instance : DecidablePred (Orderly cfg s) := by
  rintro (_ | _) <;> unfold Orderly <;> infer_instance

instance : Decidable (s.Resumable cfg) := Nat.decidableBallLT _ _

instance : DecidablePred (Allowed cfg s) := fun _ =>
  inferInstanceAs (Decidable (_ ∧ (_ = _ → _)))

end

/-! ## What the consumer is to be sent -/

/-- A message up to its timestamp, as the consumer of a partition gets it. -/
def shown (p : Int) (m : Message) : Message := { m with partition := p, timestamp := 0 }

def State.received (s : State) (p : Int) : List Message :=
  (s.sent.filter fun m => m.partition = p).map (shown p)

/-- The retained messages of a partition from an offset on. -/
def State.retained (cfg : Config) (s : State) (p : Int) (start : Int) : List Message :=
  (((s.logs p).records cfg.codecs).filter fun r => start ≤ r.offset).map fun r => shown p r.msg

/-- The subscription is complete, and nothing is under way to the consumer. -/
structure State.Settled (cfg : Config) (s : State) : Prop where
  finished : s.phase = .finished
  published : s.publishes = []
  pushed : channel cfg s.manager = []
  written : s.loop = .waiting

/-- The state a subscription begins in: the group has no consumer, no publish under
way is live, and offsets are not negative. -/
structure Ready (cfg : Config) (s : State) : Prop where
  phase : s.phase = .received
  loop : s.loop = .off
  sent : s.sent = []
  publishes : ∀ x ∈ s.publishes, x.live = false
  vacant : ∀ g, s.manager.find cfg.group cfg.topic = some g →
    g.consumers = [] ∧ g.partCount = cfg.partCount
  logs : ∀ p < cfg.partCount, (s.logs p).WellFormed cfg.codecs
  next : ∀ p < cfg.partCount, 0 ≤ (s.logs p).nextOffset
  offsets : ∀ p < cfg.partCount, ∀ r ∈ (s.logs p).records cfg.codecs, 0 ≤ r.offset

end PubsubBroker.Consumers.Push
