/-
# Publish.ExactlyOnce — deduplication at the grain of its shared memory

The publish handlers again, with the accesses of `Producer.Publish` to its shared
memory as steps of their own: the lookup in the dedup window, the load from the
idempotency store, the append, the mark in the window and the store.  Between any
two of them other handlers run; the partition lock does not keep them apart, since
it is that of the partition a first call of `Assign` named.  A message is
dispatched to the consumer groups of its topic behind the publish, before the
reply, and so is a message whose result was only looked up.

`Publish.Broker` takes the lookup as one step and the append with what follows as
another; `lookup_eq` and `record_eq` say that this is what the finer steps do when
nothing comes between them.  A partition is the sparse log that
`Storage.Refinement` shows it to be.  The write-ahead log and restarts are in
`Publish.Broker`; here a handler may be turned down or fail at any step in front
of the append.
-/
import PubsubBroker.Publish.Broker
import PubsubBroker.Theory.SparseLog

namespace PubsubBroker.Publish.ExactlyOnce

open Theory
open Storage (Message)

/-! ## The accesses of `Publish` -/

/-- `Publish` in front of the switch over the mode: the partition and the message. -/
def route (compress : UInt8 → Bytes → Option Bytes) (topics : Topics) (counters : Counters)
    (req : PublishRequest) (stamp : Stamp) : Except PublishError (Int × Message) × Counters :=
  match topics req.topic with
  | none => (.error .topicNotFound, counters)
  | some cfg =>
    let assigned := assign topics counters req.topic req.key
    (match assigned.1 with
      | none => .error .notRegistered
      | some partID =>
        if 0 ≤ partID ∧ partID < cfg.partitions then
          match compressed compress cfg req (newMessage req stamp partID) with
          | none => .error .compress
          | some msg => .ok (partID, msg)
        else .error .partitionOutOfRange,
      assigned.2)

def window (p : Producer) (seqNum : Nat) : Option Int := p.dedup.lookupOffset p.producerID seqNum

def stored (p : Producer) (seqNum : Nat) : Option PublishResult :=
  p.idempotencyStore (p.producerID, seqNum)

def mark (p : Producer) (seqNum : Nat) (offset : Int) : Producer :=
  { p with dedup := p.dedup.mark p.producerID seqNum offset }

def store (p : Producer) (seqNum : Nat) (result : PublishResult) : Producer :=
  { p with
    idempotencyStore := Function.update p.idempotencyStore (p.producerID, seqNum) (some result) }

theorem prepare_eq (compress : UInt8 → Bytes → Option Bytes) (topics : Topics)
    (counters : Counters) (p : Producer) (req : PublishRequest) (stamp : Stamp) :
    prepare compress topics counters p req stamp =
      (match (route compress topics counters req stamp).1 with
        | .error e => .failed e
        | .ok (partID, msg) => byMode p req partID msg,
        (route compress topics counters req stamp).2) := by
  unfold prepare route
  cases topics req.topic with
  | none => rfl
  | some cfg => grind

/-- Lookups with nothing in between return what the lookup of `Publish.Producer`
does. -/
theorem lookup_eq (p : Producer) (seqNum : Nat) (partID : Int) :
    p.lookup seqNum partID =
      match window p seqNum with
      | some offset => some ((stored p seqNum).getD ⟨"", partID, offset⟩)
      | none => stored p seqNum := rfl

/-- The mark and the store are what is recorded behind an append. -/
theorem record_eq {req : PublishRequest} (mode : req.deliveryMode = exactlyOnce) (p : Producer)
    (result : PublishResult) :
    p.record req result = store (mark p req.seqNum result.offset) req.seqNum result := by
  unfold Producer.record
  rw [if_pos mode]
  rfl

/-! ## State -/

/-- How far a handler is with its current message.  From `locked` on it holds the
lock of the partition it was first told; from the lookup to the store it works on
its sequence number. -/
inductive Phase where
  | ready
  | assigned (part : Int)
  | locked (part : Int)
  | routed (part partID : Int) (msg : Message)
  | found (part partID : Int) (msg : Message)
  | missed (part partID : Int) (msg : Message)
  | evicted (part partID : Int)
  | writing (part partID : Int) (msg : Message)
  | appended (part : Int) (result : PublishResult)
  | marked (part : Int) (result : PublishResult)

def Phase.lock : Phase → Option Int
  | .ready => none
  | .assigned _ => none
  | .locked part => some part
  | .routed part _ _ => some part
  | .found part _ _ => some part
  | .missed part _ _ => some part
  | .evicted part _ => some part
  | .writing part _ _ => some part
  | .appended part _ => some part
  | .marked part _ => some part

/-- From the lookup to the store. -/
def Phase.working : Phase → Bool
  | .found _ _ _ => true
  | .missed _ _ _ => true
  | .evicted _ _ => true
  | .writing _ _ _ => true
  | .appended _ _ => true
  | .marked _ _ => true
  | _ => false

/-- A publish handler; `sent` counts the results whose messages were dispatched. -/
structure Handler where
  client : String
  batch : Bool
  done : List Fate
  todo : List PublishRequest
  phase : Phase
  sent : Nat

def Handler.lock (h : Handler) : Option PartitionId :=
  match h.todo with
  | [] => none
  | req :: _ => h.phase.lock.map fun part => ⟨req.topic, part⟩

def Handler.holds (h : Handler) : Option Nat :=
  match h.todo with
  | [] => none
  | req :: _ =>
    if req.deliveryMode = exactlyOnce ∧ h.phase.working = true then some req.seqNum else none

def Handler.acks (h : Handler) : List Ack :=
  (placed h.done).map fun claim => ⟨h.client, claim.1, claim.2⟩

/-- The handler is done with its current message, and the lock is released. -/
def Handler.finish (h : Handler) (req : PublishRequest) (rest : List PublishRequest)
    (result : Option PublishResult) : Handler :=
  { h with done := h.done ++ [(req, result)], todo := rest, phase := .ready }

structure Broker where
  topics : Topics
  logs : PartitionId → SparseLog Message
  counters : Counters
  producer : Producer
  handlers : List Handler
  groups : List GroupKey
  written : List Ack
  acks : List Ack
  dispatched : List Dispatch

/-- A broker that has just started, with any topics, logs and groups. -/
def boot (topics : Topics) (logs : PartitionId → SparseLog Message) (counters : Counters)
    (producerID : String) (dedupWindow : Int) (groups : List GroupKey) : Broker where
  topics := topics
  logs := logs
  counters := counters
  producer := ⟨producerID, newDedupWindow dedupWindow, fun _ => none⟩
  handlers := []
  groups := groups
  written := []
  acks := []
  dispatched := []

def Broker.locked (s : Broker) (p : PartitionId) : Bool := p ∈ s.handlers.filterMap Handler.lock

/-- `Manager.Dispatch`: the groups of the topic that get a message. -/
def Broker.dispatch (s : Broker) (ack : Ack) : List Dispatch :=
  (s.groups.filter fun key => key.topic = ack.request.topic).map fun key => ⟨key, ack⟩

/-! ## Steps -/

inductive Event where
  | createTopic (name : String) (cfg : TopicConfig)
  | subscribe (key : GroupKey)
  | publish (client : String) (req : PublishRequest)
  | batchPublish (client : String) (messages : List PublishRequest)
  | refuse (handler : Nat)
  | assign (handler : Nat)
  | lock (handler : Nat)
  | route (handler : Nat) (stamp : Stamp)
  | lookup (handler : Nat)
  | load (handler : Nat)
  | again (handler : Nat)
  | append (handler : Nat)
  | fail (handler : Nat)
  | mark (handler : Nat)
  | store (handler : Nat)
  | dispatch (handler : Nat)
  | timeout (handler : Nat)
  | reply (handler : Nat)

def Event.handler : Event → Option Nat
  | .refuse i => some i
  | .assign i => some i
  | .lock i => some i
  | .route i _ => some i
  | .lookup i => some i
  | .load i => some i
  | .again i => some i
  | .append i => some i
  | .fail i => some i
  | .mark i => some i
  | .store i => some i
  | .dispatch i => some i
  | .timeout i => some i
  | .reply i => some i
  | _ => none

/-- The handler behind the routing: modes without deduplication go on to write. -/
def Handler.routed (h : Handler) (req : PublishRequest) (rest : List PublishRequest) (part : Int) :
    Except PublishError (Int × Message) → Handler
  | .error _ => h.finish req rest none
  | .ok (partID, msg) =>
    if req.deliveryMode = atMostOnce ∨ req.deliveryMode = atLeastOnce then
      { h with phase := .writing part partID msg }
    else if req.deliveryMode = exactlyOnce then
      if req.seqNum = 0 then h.finish req rest none
      else { h with phase := .routed part partID msg }
    else h.finish req rest none

theorem routed_eq (req : PublishRequest) (rest : List PublishRequest) (part : Int)
    (routed : Except PublishError (Int × Message)) :
    (∀ h : Handler, h.routed req rest part routed = h.finish req rest none) ∨
      (∃ partID msg, req.deliveryMode ≠ exactlyOnce ∧ ∀ h : Handler,
        h.routed req rest part routed = { h with phase := .writing part partID msg }) ∨
      ∃ partID msg, req.deliveryMode = exactlyOnce ∧ ∀ h : Handler,
        h.routed req rest part routed = { h with phase := .routed part partID msg } := by
  obtain error | ⟨partID, msg⟩ := routed
  · exact .inl fun _ => rfl
  simp only [Handler.routed]
  split
  · rename_i plain
    refine .inr (.inl ⟨partID, msg, ?_, fun _ => rfl⟩)
    intro mode
    rw [mode] at plain
    revert plain
    decide
  split
  · rename_i mode
    split
    · exact .inl fun _ => rfl
    · exact .inr (.inr ⟨partID, msg, mode, fun _ => rfl⟩)
  · exact .inl fun _ => rfl

/-- A step of handler `i` at its current message `req`. -/
def messageStep (compress : UInt8 → Bytes → Option Bytes) (s : Broker) (i : Nat) (h : Handler)
    (req : PublishRequest) (rest : List PublishRequest) : Event → Phase → Option Broker
  | .refuse _, .ready => some { s with handlers := s.handlers.eraseIdx i }
  | .refuse _, .assigned _ => some { s with handlers := s.handlers.eraseIdx i }
  | .refuse _, .locked _ => some { s with handlers := s.handlers.eraseIdx i }
  | .assign _, .ready =>
    let assigned := assign s.topics s.counters req.topic req.key
    some { s with
      counters := assigned.2
      handlers := s.handlers.set i { h with phase := .assigned (assigned.1.getD 0) } }
  | .lock _, .assigned part =>
    if s.locked ⟨req.topic, part⟩ then none
    else some { s with handlers := s.handlers.set i { h with phase := .locked part } }
  | .route _ stamp, .locked part =>
    let routed := route compress s.topics s.counters req stamp
    some { s with
      counters := routed.2
      handlers := s.handlers.set i (h.routed req rest part routed.1) }
  | .lookup _, .routed part partID msg =>
    some { s with
      handlers := s.handlers.set i
        { h with
          phase :=
            if (window s.producer req.seqNum).isSome then .found part partID msg
            else .missed part partID msg } }
  | .load _, .found part partID _ =>
    some { s with
      handlers := s.handlers.set i
        (match stored s.producer req.seqNum with
        | some result => h.finish req rest (some result)
        | none => { h with phase := .evicted part partID }) }
  | .load _, .missed part partID msg =>
    some { s with
      handlers := s.handlers.set i
        (match stored s.producer req.seqNum with
        | some result => h.finish req rest (some result)
        | none => { h with phase := .writing part partID msg }) }
  | .again _, .evicted _ partID =>
    some { s with
      handlers := s.handlers.set i
        (h.finish req rest
          (some ⟨"", partID, (window s.producer req.seqNum).getD 0⟩)) }
  | .append _, .writing part partID msg =>
    let log := s.logs ⟨req.topic, partID⟩
    let result : PublishResult := ⟨msg.id, partID, log.next⟩
    some { s with
      logs := Function.update s.logs ⟨req.topic, partID⟩ (log.append (msg.setOffset log.next))
      handlers := s.handlers.set i
        (if req.deliveryMode = exactlyOnce then { h with phase := .appended part result }
        else h.finish req rest (some result))
      written := s.written ++ [⟨h.client, req, result⟩] }
  | .fail _, .writing _ _ _ =>
    some { s with handlers := s.handlers.set i (h.finish req rest none) }
  | .mark _, .appended part result =>
    some { s with
      producer := mark s.producer req.seqNum result.offset
      handlers := s.handlers.set i { h with phase := .marked part result } }
  | .store _, .marked _ result =>
    some { s with
      producer := store s.producer req.seqNum result
      handlers := s.handlers.set i (h.finish req rest (some result)) }
  | _, _ => none

/-- A step of handler `i` behind its last message.  A single publish may miss its
quorum and is then answered with an error. -/
def replyStep (s : Broker) (i : Nat) (h : Handler) : Event → Option Broker
  | .dispatch _ =>
    match h.acks[h.sent]? with
    | none => none
    | some ack =>
      some { s with
        handlers := s.handlers.set i { h with sent := h.sent + 1 }
        dispatched := s.dispatched ++ s.dispatch ack }
  | .timeout _ =>
    if h.batch = false ∧ h.sent = 0 then some { s with handlers := s.handlers.eraseIdx i }
    else none
  | .reply _ =>
    if h.sent = h.acks.length then
      some { s with handlers := s.handlers.eraseIdx i, acks := s.acks ++ h.acks }
    else none
  | _ => none

def step (compress : UInt8 → Bytes → Option Bytes) (s : Broker) (e : Event) : Option Broker :=
  match e with
  | .createTopic name cfg =>
    if (s.topics name).isSome then some s
    else some { s with topics := Function.update s.topics name (some cfg) }
  | .subscribe key =>
    if key ∈ s.groups then some s else some { s with groups := s.groups ++ [key] }
  | .publish client req =>
    if req.topic = "" then some s
    else some { s with handlers := s.handlers ++ [⟨client, false, [], [req], .ready, 0⟩] }
  | .batchPublish client messages =>
    match messages with
    | [] => some s
    | first :: rest =>
      if ∃ m ∈ rest, m.topic ≠ first.topic then some s
      else some { s with handlers := s.handlers ++ [⟨client, true, [], messages, .ready, 0⟩] }
  | e =>
    match e.handler with
    | none => none
    | some i =>
      match s.handlers[i]? with
      | none => none
      | some h =>
        match h.todo with
        | req :: rest => messageStep compress s i h req rest e h.phase
        | [] => replyStep s i h e

/-! ## What a step can do -/

section

variable {compress : UInt8 → Bytes → Option Bytes} {s s' : Broker} {i : Nat} {h : Handler}
variable {req : PublishRequest} {rest : List PublishRequest} {e : Event}

/-- The steps of a handler at its current message. -/
inductive Move (compress : UInt8 → Bytes → Option Bytes) (s : Broker) (i : Nat) (h : Handler)
    (req : PublishRequest) (rest : List PublishRequest) : Event → Broker → Prop where
  | refuse {k : Nat} (early : h.phase.working = false)
      (unrouted : ∀ part partID msg, h.phase ≠ .routed part partID msg) :
      Move compress s i h req rest (.refuse k) { s with handlers := s.handlers.eraseIdx i }
  | assign {k : Nat} (phase : h.phase = .ready) :
      Move compress s i h req rest (.assign k) { s with
        counters := (assign s.topics s.counters req.topic req.key).2
        handlers := s.handlers.set i { h with
          phase := .assigned ((assign s.topics s.counters req.topic req.key).1.getD 0) } }
  | lock {k : Nat} {part : Int} (phase : h.phase = .assigned part)
      (free : s.locked ⟨req.topic, part⟩ = false) :
      Move compress s i h req rest (.lock k) { s with
        handlers := s.handlers.set i { h with phase := .locked part } }
  | route {k : Nat} {part : Int} {stamp : Stamp} (phase : h.phase = .locked part) :
      Move compress s i h req rest (.route k stamp) { s with
        counters := (route compress s.topics s.counters req stamp).2
        handlers := s.handlers.set i
          (h.routed req rest part (route compress s.topics s.counters req stamp).1) }
  | lookup {k : Nat} {part partID : Int} {msg : Message}
      (phase : h.phase = .routed part partID msg) :
      Move compress s i h req rest (.lookup k) { s with
        handlers := s.handlers.set i { h with
          phase :=
            if (window s.producer req.seqNum).isSome then .found part partID msg
            else .missed part partID msg } }
  | loadFound {k : Nat} {part partID : Int} {msg : Message}
      (phase : h.phase = .found part partID msg) :
      Move compress s i h req rest (.load k) { s with
        handlers := s.handlers.set i
          (match stored s.producer req.seqNum with
          | some result => h.finish req rest (some result)
          | none => { h with phase := .evicted part partID }) }
  | loadMissed {k : Nat} {part partID : Int} {msg : Message}
      (phase : h.phase = .missed part partID msg) :
      Move compress s i h req rest (.load k) { s with
        handlers := s.handlers.set i
          (match stored s.producer req.seqNum with
          | some result => h.finish req rest (some result)
          | none => { h with phase := .writing part partID msg }) }
  | again {k : Nat} {part partID : Int} (phase : h.phase = .evicted part partID) :
      Move compress s i h req rest (.again k) { s with
        handlers := s.handlers.set i
          (h.finish req rest (some ⟨"", partID, (window s.producer req.seqNum).getD 0⟩)) }
  | append {k : Nat} {part partID : Int} {msg : Message} {log : SparseLog Message}
      {result : PublishResult} (phase : h.phase = .writing part partID msg)
      (here : log = s.logs ⟨req.topic, partID⟩) (placed : result = ⟨msg.id, partID, log.next⟩) :
      Move compress s i h req rest (.append k) { s with
        logs := Function.update s.logs ⟨req.topic, partID⟩ (log.append (msg.setOffset log.next))
        handlers := s.handlers.set i
          (if req.deliveryMode = exactlyOnce then { h with phase := .appended part result }
          else h.finish req rest (some result))
        written := s.written ++ [⟨h.client, req, result⟩] }
  | fail {k : Nat} {part partID : Int} {msg : Message}
      (phase : h.phase = .writing part partID msg) :
      Move compress s i h req rest (.fail k) { s with
        handlers := s.handlers.set i (h.finish req rest none) }
  | mark {k : Nat} {part : Int} {result : PublishResult}
      (phase : h.phase = .appended part result) :
      Move compress s i h req rest (.mark k) { s with
        producer := mark s.producer req.seqNum result.offset
        handlers := s.handlers.set i { h with phase := .marked part result } }
  | store {k : Nat} {part : Int} {result : PublishResult}
      (phase : h.phase = .marked part result) :
      Move compress s i h req rest (.store k) { s with
        producer := store s.producer req.seqNum result
        handlers := s.handlers.set i (h.finish req rest (some result)) }

theorem messageStep_move (taken : messageStep compress s i h req rest e h.phase = some s') :
    Move compress s i h req rest e s' := by
  generalize same : h.phase = phase at taken
  revert taken
  fun_cases messageStep compress s i h req rest e phase <;> rintro ⟨⟩
  · exact .refuse (by rw [same]; rfl) (by rw [same]; nofun)
  · exact .refuse (by rw [same]; rfl) (by rw [same]; nofun)
  · exact .refuse (by rw [same]; rfl) (by rw [same]; nofun)
  · exact .assign same
  · rename_i free
    exact .lock same (Bool.not_eq_true _ ▸ free)
  · exact .route same
  · exact .lookup same
  · exact .loadFound same
  · exact .loadMissed same
  · exact .again same
  · exact .append same rfl rfl
  · exact .fail same
  · exact .mark same
  · exact .store same

end

end PubsubBroker.Publish.ExactlyOnce
