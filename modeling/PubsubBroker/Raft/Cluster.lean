/-
# Raft.Cluster — n nodes, a lossy network, crashes

The world is the memory of every node, its disk, every packet ever sent, and the
history of elections and applied entries.  The network keeps everything: a
packet that is never delivered was lost, one that is delivered late was delayed
or overtaken, one that is delivered twice was duplicated.

A node reacts to one stimulus at a time (the lock `n.mu`).  `Propose` releases
the lock between its sections, so its sections are separate stimuli, and a
broadcast may also come from the heartbeat ticker.  A crash may hit a reaction
after any of its effects: the effects so far have happened, the memory is gone,
and the node starts again from what its disk holds (`Event.crash`).
-/
import PubsubBroker.Raft.Node
import PubsubBroker.Theory.Transition

namespace PubsubBroker.Raft

open Theory

/-- One fixed, symmetric peer set. -/
structure Cluster where
  ids : List NodeID
  peers : NodeID → List NodeID
  ids_nodup : ids.Nodup
  id_ne : "" ∉ ids
  peers_nodup : ∀ i ∈ ids, (peers i).Nodup
  mem_peers : ∀ i ∈ ids, ∀ p, p ∈ peers i ↔ p ∈ ids ∧ p ≠ i

/-- A message on its way to `dest`. -/
structure Packet where
  dest : NodeID
  msg : RaftMessage
deriving DecidableEq

/-- Everything a crash does not erase. -/
structure Durable where
  disk : NodeID → PersistentState
  sent : List Packet
  elected : List (NodeID × Nat)
  applied : List (NodeID × Nat × LogEntry)

/-- Carry out one effect of node `i`. -/
def Durable.perform (i : NodeID) (d : Durable) : Effect → Durable
  | .save s => { d with disk := fun j => if j = i then s else d.disk j }
  | .send addr msg => { d with sent := d.sent ++ [⟨addr, msg⟩] }
  | .becameLeader term => { d with elected := d.elected ++ [(i, term)] }
  | .apply index entry => { d with applied := d.applied ++ [(i, index, entry)] }
  | .signal _ => d
  | .close _ => d

def Durable.performAll (i : NodeID) (d : Durable) (effects : List Effect) : Durable :=
  effects.foldl (Durable.perform i) d

/-- A packet for the network, or the start of a leadership. -/
def Effect.outward : Effect → Option (Packet ⊕ Nat)
  | .send addr msg => some (.inl ⟨addr, msg⟩)
  | .becameLeader term => some (.inr term)
  | _ => none

theorem performAll_outward (i : NodeID) (effects : List Effect) (d : Durable) :
    (d.performAll i effects).sent =
        d.sent ++ (effects.filterMap Effect.outward).filterMap Sum.getLeft? ∧
      (d.performAll i effects).elected =
        d.elected ++ ((effects.filterMap Effect.outward).filterMap Sum.getRight?).map (i, ·) := by
  induction effects generalizing d with
  | nil => simp [Durable.performAll]
  | cons e effects ih =>
    rw [Durable.performAll, List.foldl_cons, ← Durable.performAll]
    obtain ⟨sent, elected⟩ := ih (d.perform i e)
    rw [sent, elected]
    cases e <;> simp [Durable.perform, Effect.outward, List.filterMap_cons]

structure World extends Durable where
  nodes : NodeID → Node

/-- What a node reacts to. -/
inductive Stimulus where
  | timeout
  | deliver (packet : Nat)
  | propose (cmd : Bytes) (ticket : Nat)
  | heartbeat
  | advance
  | start

inductive Event where
  | run (i : NodeID) (stimulus : Stimulus)
  | crash (i : NodeID) (stimulus : Stimulus) (effects : Nat)

namespace World

variable (C : Cluster)

/-- The reaction of node `i`; a packet only reaches the node it is addressed to. -/
def react (w : World) (i : NodeID) : Stimulus → Option (Node × List Effect)
  | .timeout => some (handleElectionTimeout (w.nodes i))
  | .deliver k =>
    match w.sent[k]? with
    | some p => if p.dest = i then some (onMessage (w.nodes i) p.msg) else none
    | none => none
  | .propose cmd ticket =>
    some ((propose (w.nodes i) cmd ticket).1, (propose (w.nodes i) cmd ticket).2.1)
  | .heartbeat => some (sendAppendEntriesToAll (w.nodes i))
  | .advance => some (advanceCommitIndexLocked (w.nodes i))
  | .start => some (Raft.start i (C.peers i) (w.disk i))

/-- Node `i` after a reaction whose effects have all happened. -/
def settle (w : World) (i : NodeID) (r : Node × List Effect) : World where
  toDurable := w.toDurable.performAll i r.2
  nodes := fun j => if j = i then r.1 else w.nodes j

/-- Node `i` after `effects` effects of a reaction and a restart from disk. -/
def recoverFrom (w : World) (i : NodeID) (r : Node × List Effect) (effects : Nat) : World :=
  let cut : World := { w with toDurable := w.toDurable.performAll i (r.2.take effects) }
  cut.settle i (Raft.start i (C.peers i) (cut.disk i))

def step (w : World) : Event → Option World
  | .run i s => if i ∈ C.ids then (w.react C i s).map (w.settle i) else none
  | .crash i s k =>
    if i ∈ C.ids then (w.react C i s).map fun r => w.recoverFrom C i r k else none

/-- Nothing has run, nothing was saved. -/
def blank : World where
  disk := fun _ => .zero
  sent := []
  elected := []
  applied := []
  nodes := fun i => newNode i (C.peers i)

/-- Every node has been started once. -/
def init : World :=
  C.ids.foldl (fun w i => w.settle i (Raft.start i (C.peers i) (w.disk i))) (blank C)

/-- No term has two leaders. -/
def OneLeaderPerTerm (w : World) : Prop :=
  ∀ i j t, (i, t) ∈ w.elected → (j, t) ∈ w.elected → i = j

end World

end PubsubBroker.Raft
