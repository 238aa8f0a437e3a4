/-
# Consumers.Backlog — what a pull subscription leaves in its channel

`handleSubscribe` without `push`, `handleFetch` and `handleCommitOffset` of
`internal/broker/handlers_consumer.go`, and `Manager.Dispatch` with `handleSlowConsumer` of
`internal/consumer/consumer.go`, for the groups of one topic.

A publish appends to the log and is then dispatched to every group, which puts the message into
the channel of the consumer that has the partition.  A fetch reads the log.  So nothing ever
takes a message out of the channel of a consumer that fetches: the channel holds the messages
handed to the consumer since it joined, up to its capacity, and what comes after that is
retried in vain and goes to the dead-letter queue.

A dispatch goes through the groups one after the other, in the order of a map, and sleeps
between its retries, so many are under way at a time.  `handed` records for the present
consumers whom a dispatch has tried since they joined, `peak` the largest number of messages
any consumer was handed, and `dead` the entries made for messages of the topic.  A partition's
log is its list of messages.

`dead_letters_iff` says when a run makes no dead letter; `healthy_dead_letter` is a run in which
the only consumer fetches and commits every message at once and the dead letter comes anyway.
-/
import PubsubBroker.Consumers.Assignment
import PubsubBroker.Consumers.DeadLetters
import PubsubBroker.Theory.Transition

namespace PubsubBroker.Consumers.Backlog

open Theory List Option
open Offsets (OffsetStore)
open Storage (Message)

/-! ## States -/

/-- A consumer whose channel was full; it may have left since. -/
structure Slow where
  group : String
  consumerID : String
  attempts : Nat
  left : Bool
deriving DecidableEq

/-- A dispatch under way: the groups it has not come to, and the consumer it retries. -/
structure Delivery where
  msg : Message
  waiting : List String
  slow : Option Slow
deriving DecidableEq

structure Broker where
  manager : Manager
  logs : List (List Message)
  deliveries : List Delivery
  dlq : DeadLetterQueue
  panicked : Bool
  received : List (String × Message)
  handed : List (String × String)
  peak : Nat
  dead : List DLQEntry

structure Topic where
  name : String
  partitions : Nat
  maxRetries : Nat

def boot (t : Topic) (bufferSize : Nat) (offsets : OffsetStore) (dlq : DeadLetterQueue) : Broker :=
  { manager := ⟨[], offsets, bufferSize⟩
    logs := List.replicate t.partitions []
    deliveries := []
    dlq := dlq
    panicked := false
    received := []
    handed := []
    peak := 0
    dead := [] }

/-- The messages a consumer was handed since it joined. -/
def Broker.count (s : Broker) (group consumerID : String) : Nat :=
  s.handed.count (group, consumerID)

/-! ## Steps -/

inductive Event where
  | subscribe (group consumerID : String)
  | unsubscribe (group consumerID : String)
  | publish (partition : Nat) (msg : Message)
  | serve (delivery : Nat) (group : String)
  | retry (delivery : Nat)
  | giveUp (delivery : Nat)
  | finish (delivery : Nat)
  | fetch (group : String) (partition : Nat) (maxCount : Int)
  | commit (group consumerID : String) (partition offset : Int)
  | deadLetters (dlq : DeadLetterQueue)

/-- A consumer that joins has been handed nothing. -/
def Broker.subscribe (t : Topic) (s : Broker) (group consumerID : String) : Broker :=
  let subscribed := s.manager.subscribe group consumerID t.name t.partitions
  { s with
    manager := subscribed.1
    handed := if subscribed.2 then s.handed.filter (· ≠ (group, consumerID)) else s.handed }

/-- The dispatches that retry the consumer hold a closed channel. -/
def Delivery.leave (group consumerID : String) (d : Delivery) : Delivery :=
  { d with
    slow := d.slow.map fun w =>
      if w.group = group ∧ w.consumerID = consumerID then { w with left := true } else w }

def Broker.unsubscribe (t : Topic) (s : Broker) (group consumerID : String) : Broker :=
  { s with
    manager := s.manager.unsubscribe group consumerID t.name
    deliveries := s.deliveries.map (Delivery.leave group consumerID) }

def Broker.target (t : Topic) (s : Broker) (group : String) (partition : Int) : Option Consumer :=
  (s.manager.find group t.name).bind fun g =>
    g.consumers.find? fun c => partition ∈ c.assignments

def Broker.serve (t : Topic) (s : Broker) (i : Nat) (d : Delivery) (group : String) : Broker :=
  let dispatched := s.manager.dispatchToGroup group t.name d.msg.partition d.msg
  let tried := s.target t group d.msg.partition
  { s with
    manager := dispatched.1
    deliveries := s.deliveries.set i
      { d with
        waiting := d.waiting.erase group
        slow := dispatched.2.map fun consumerID => ⟨group, consumerID, 0, false⟩ }
    handed := tried.elim s.handed fun c => (group, c.id) :: s.handed
    peak := tried.elim s.peak fun c => max s.peak (s.count group c.id + 1) }

/-- A retry; the send panics on a closed channel. -/
def Broker.retry (t : Topic) (s : Broker) (i : Nat) (d : Delivery) (w : Slow) : Broker :=
  if w.left then { s with panicked := true }
  else
    match s.manager.redeliver w.group t.name w.consumerID d.msg with
    | some manager =>
      { s with manager := manager, deliveries := s.deliveries.set i { d with slow := none } }
    | none =>
      { s with
        deliveries :=
          s.deliveries.set i { d with slow := some { w with attempts := w.attempts + 1 } } }

def Broker.giveUp (t : Topic) (s : Broker) (i : Nat) (d : Delivery) (w : Slow) : Broker :=
  let entry : DLQEntry :=
    ⟨some d.msg, w.group, "consumer channel full after retries", t.maxRetries⟩
  { s with
    dlq := s.dlq.push entry
    dead := s.dead ++ [entry]
    deliveries := s.deliveries.set i { d with slow := none } }

/-- The limit of `handleFetch`. -/
def fetchLimit (maxCount : Int) : Nat := if maxCount ≤ 0 ∨ 1000 < maxCount then 100 else maxCount.toNat

/-- `PollPartitionLog`: from the committed offset on. -/
def Broker.poll (t : Topic) (s : Broker) (group : String) (partition : Nat) (maxCount : Int) :
    List Message :=
  let start := startOffset s.manager.offsets group t.name partition
  (((s.logs[partition]?).getD []).filter fun m => start ≤ m.offset).take (fetchLimit maxCount)

def step (t : Topic) (s : Broker) (e : Event) : Option Broker :=
  if s.panicked then none
  else
    match e with
    | .subscribe group consumerID => some (s.subscribe t group consumerID)
    | .unsubscribe group consumerID => some (s.unsubscribe t group consumerID)
    | .publish partition msg =>
      (s.logs[partition]?).map fun log =>
        let msg := { msg with topic := t.name, partition := partition, offset := log.length }
        { s with
          logs := s.logs.set partition (log ++ [msg])
          deliveries := s.deliveries ++ [⟨msg, s.manager.groups.map Group.id, none⟩] }
    | .serve i group =>
      (s.deliveries[i]?).bind fun d =>
        if d.slow = none ∧ group ∈ d.waiting then some (s.serve t i d group) else none
    | .retry i =>
      (s.deliveries[i]?).bind fun d => d.slow.bind fun w =>
        if w.attempts < t.maxRetries then some (s.retry t i d w) else none
    | .giveUp i =>
      (s.deliveries[i]?).bind fun d => d.slow.bind fun w =>
        if w.attempts < t.maxRetries then none else some (s.giveUp t i d w)
    | .finish i =>
      (s.deliveries[i]?).bind fun d =>
        if d.slow = none ∧ d.waiting = [] then
          some { s with deliveries := s.deliveries.eraseIdx i }
        else none
    | .fetch group partition maxCount =>
      some { s with
        received := s.received ++ (s.poll t group partition maxCount).map fun m => (group, m) }
    | .commit group consumerID partition offset =>
      some { s with
        manager :=
          (s.manager.commitOffset group consumerID t.name partition offset).getD s.manager }
    | .deadLetters dlq => some { s with dlq := dlq }

/-! ## Full channels -/

/-- The channel of a pull consumer that was handed `k` messages. -/
structure Filled (n k : Nat) (c : Consumer) : Prop where
  pull : c.pushCh = none
  size : c.bufferSize = n
  length : c.msgCh.length = min k n

section

variable {n k : Nat} {c c' : Consumer}

theorem Filled.deliver (filled : Filled n k c) (room : k < n) (msg : Message) :
    ∃ c', c.deliver msg = some c' ∧ c'.id = c.id ∧ Filled n (k + 1) c' := by
  have length := filled.length
  have fits : c.msgCh.length < c.bufferSize := by
    rw [filled.size]
    omega
  have delivered : c.deliver msg = some { c with msgCh := c.msgCh ++ [msg] } := by
    simp only [Consumer.deliver, filled.pull, if_pos fits]
  refine ⟨_, delivered, rfl, filled.pull, filled.size, ?_⟩
  simp only [length_append, length_singleton]
  omega

theorem Filled.full (filled : Filled n k c) (full : n ≤ k) (msg : Message) :
    c.deliver msg = none := by
  have length := filled.length
  have noRoom : ¬ c.msgCh.length < c.bufferSize := by
    rw [filled.size]
    omega
  simp only [Consumer.deliver, filled.pull, if_neg noRoom]

theorem Filled.more (filled : Filled n k c) (full : n ≤ k) : Filled n (k + 1) c where
  pull := filled.pull
  size := filled.size
  length := by
    have length := filled.length
    omega

theorem filled_rebalance {partCount : Nat} {cs : List Consumer}
    (mem : c ∈ rebalance partCount cs) :
    ∃ d ∈ cs, d.id = c.id ∧ ∀ n k, Filled n k d → Filled n k c := by
  obtain ⟨i, bound, rfl⟩ := mem_mapIdx.mp mem
  exact ⟨cs[i], getElem_mem bound, rfl, fun n k filled =>
    ⟨filled.pull, filled.size, filled.length⟩⟩

end

/-! ## The invariant -/

def Member (m : Manager) (topic group consumerID : String) : Prop :=
  ∃ g, m.find group topic = some g ∧ consumerID ∈ g.ids

def Broker.Retrying (s : Broker) : Prop := ∃ d ∈ s.deliveries, d.slow ≠ none

/-- A group of the topic whose channels hold what the consumers were handed, as far as it fits. -/
structure Seated (t : Topic) (n : Nat) (handed : List (String × String)) (g : Group) : Prop where
  named : g.topic = t.name
  dealt : g.Dealt
  filled : ∀ c ∈ g.consumers, Filled n (handed.count (g.id, c.id)) c

/-- Whoever is retried has a full channel, and somebody was handed too much exactly when that
shows. -/
structure Broker.Counted (t : Topic) (n : Nat) (s : Broker) : Prop where
  size : s.manager.bufferSize = n
  seated : ∀ g ∈ s.manager.groups, Seated t n s.handed g
  slow : ∀ d ∈ s.deliveries, ∀ w ∈ d.slow, w.left = false →
    n ≤ s.count w.group w.consumerID ∧ Member s.manager t.name w.group w.consumerID
  peak : s.panicked = false → (n < s.peak ↔ s.dead ≠ [] ∨ s.Retrying)

theorem counted_boot (t : Topic) (n : Nat) (offsets : OffsetStore) (dlq : DeadLetterQueue) :
    (boot t n offsets dlq).Counted t n where
  size := rfl
  seated := by simp [boot]
  slow := by simp [boot]
  peak := by simp [boot, Broker.Retrying]

section

variable {t : Topic} {n : Nat} {s s' : Broker} {group consumerID : String}

/-! ## Joining and leaving -/

theorem member_update {m : Manager} {f : Group → Group} {group' id : String}
    (keeps : ∀ g, g.id = group → g.topic = t.name → (f g).id = group ∧ (f g).topic = t.name)
    (stays : ∀ g, m.find group t.name = some g → group' = group → id ∈ g.ids → id ∈ (f g).ids)
    (member : Member m t.name group' id) : Member (m.update group t.name f) t.name group' id := by
  obtain ⟨g, found, old⟩ := member
  refine ⟨_, (Manager.find_update_any keeps ..).trans (congrArg _ found), ?_⟩
  obtain ⟨rfl, -⟩ := Manager.find_names found
  dsimp only
  split
  · grind
  · exact old

variable {g : Group}

theorem mem_ensure {m : Manager} {topic : String} {partCount : Nat}
    (mem : g ∈ (m.ensure group topic partCount).groups) :
    g ∈ m.groups ∨ g = newGroup group topic partCount := by
  unfold Manager.ensure at mem
  split at mem
  · exact .inl mem
  · grind

theorem member_ensure {m : Manager} {group' id : String} {partCount : Nat}
    (member : Member m t.name group' id) :
    Member (m.ensure group t.name partCount) t.name group' id := by
  obtain ⟨g, found, old⟩ := member
  refine ⟨g, ?_, old⟩
  unfold Manager.ensure
  split
  · exact found
  · grind [Manager.find]

/-- A group that was made and not joined changes nothing. -/
theorem Broker.Counted.ensure (counted : s.Counted t n) (group : String) :
    Broker.Counted t n { s with manager := s.manager.ensure group t.name t.partitions } where
  size := by
    grind [size, Manager.ensure]
  seated := by
    intro g mem
    rcases mem_ensure mem with old | rfl
    · exact counted.seated g old
    · exact ⟨rfl, Group.dealt_newGroup .., fun c mem => absurd mem not_mem_nil⟩
  slow := by
    intro d mem w retried left
    obtain ⟨full, member⟩ := counted.slow d mem w retried left
    exact ⟨full, member_ensure member⟩
  peak := counted.peak

variable {handed : List (String × String)}

theorem count_forget {who other : String × String} (differ : other ≠ who) :
    (handed.filter (· ≠ who)).count other = handed.count other :=
  count_filter (decide_eq_true differ)

theorem join_filled {g' : Group} {bufferSize : Nat} (dealt : g.Dealt)
    (joined : g.join consumerID bufferSize = some g') :
    consumerID ∉ g.ids ∧ (g'.id = g.id ∧ g'.topic = g.topic) ∧ g'.Dealt ∧
      (∀ id ∈ g.ids, id ∈ g'.ids) ∧
      ∀ c ∈ g'.consumers, c.id = consumerID ∧ Filled bufferSize 0 c ∨
        c.id ≠ consumerID ∧ ∃ d ∈ g.consumers, d.id = c.id ∧ ∀ n k, Filled n k d → Filled n k c := by
  have called : g.call (.join consumerID bufferSize) = g' := by
    rw [Group.call, joined, getD_some]
  unfold Group.join at joined
  obtain ⟨absent, rfl⟩ := ite_none_left_eq_some.mp joined |>.imp_right some.inj
  rw [Group.member_iff] at absent
  refine ⟨absent, ⟨rfl, rfl⟩, called ▸ dealt.call _, ?_, ?_⟩
  · intro id old
    rw [← called]
    exact Group.mem_ids_join.mpr (.inr old)
  · intro c mem
    obtain ⟨d, mem, sameId, filled⟩ := filled_rebalance mem
    rcases Group.mem_insertById.mp mem with rfl | old
    · exact .inl ⟨sameId.symm, filled _ _ ⟨rfl, rfl, (Nat.zero_min _).symm⟩⟩
    · refine .inr ⟨?_, d, old, sameId, filled⟩
      rw [← sameId]
      exact fun same => absent (same ▸ mem_map_of_mem old)

theorem Broker.Counted.join (counted : s.Counted t n) {g' : Group}
    (found : s.manager.find group t.name = some g)
    (joined : g.join consumerID s.manager.bufferSize = some g') :
    Broker.Counted t n { s with
      manager := s.manager.update group t.name fun _ => g'
      handed := s.handed.filter (· ≠ (group, consumerID)) } := by
  have mem : g ∈ s.manager.groups := mem_of_find?_eq_some found
  obtain ⟨groupId, topic⟩ := Manager.find_names found
  obtain ⟨absent, ⟨sameId, sameTopic⟩, dealt, more, filled⟩ :=
    join_filled (counted.seated g mem).dealt joined
  refine ⟨counted.size, ?_, ?_, counted.peak⟩
  · intro h mem'
    rcases Manager.mem_update mem' with ⟨-, -, -, rfl⟩ | ⟨old, other⟩
    · refine ⟨sameTopic.trans topic, dealt, fun c memC => ?_⟩
      rcases filled c memC with ⟨new, empty⟩ | ⟨differ, d, old, sameC, kept⟩
      · have none : (s.handed.filter (· ≠ (group, consumerID))).count (h.id, c.id) = 0 := by
          simp [count_eq_zero, groupId, sameId, new]
        grind [size]
      · rw [count_forget fun both => differ (congrArg Prod.snd both), sameId, ← sameC]
        exact kept _ _ ((counted.seated g mem).filled d old)
    · have seated := counted.seated h old
      refine { seated with filled := fun c memC => ?_ }
      rw [count_forget fun both => other ⟨congrArg Prod.fst both, seated.named⟩]
      exact seated.filled c memC
  · intro d memD w retried left
    obtain ⟨full, member⟩ := counted.slow d memD w retried left
    have differ : (w.group, w.consumerID) ≠ (group, consumerID) := by
      intro both
      obtain ⟨sameGroup, sameConsumer⟩ := Prod.mk.injEq .. ▸ both
      obtain ⟨h, found', old⟩ := member
      grind
    constructor
    · change n ≤ List.count (w.group, w.consumerID) (s.handed.filter (· ≠ (group, consumerID)))
      rw [count_forget differ]
      exact full
    refine member_update (fun _ _ _ => ⟨sameId.trans groupId, sameTopic.trans topic⟩) ?_ member
    grind

theorem Broker.Counted.subscribe (counted : s.Counted t n) (group consumerID : String) :
    (s.subscribe t group consumerID).Counted t n := by
  have ensured := counted.ensure group
  have size : (s.manager.ensure group t.name t.partitions).bufferSize = s.manager.bufferSize :=
    ensured.size.trans counted.size.symm
  unfold Broker.subscribe Manager.subscribe
  cases found : (s.manager.ensure group t.name t.partitions).find group t.name with
  | none => exact ensured
  | some g =>
    cases joined : g.join consumerID s.manager.bufferSize with
    | none => simp [ensured, joined]
    | some g' =>
      rw [← size] at joined
      simp only [size ▸ joined]
      exact ensured.join found joined

theorem Broker.Counted.unsubscribe (counted : s.Counted t n) (group consumerID : String) :
    (s.unsubscribe t group consumerID).Counted t n := by
  have keeps (g : Group) : (g.leave consumerID).id = g.id ∧ (g.leave consumerID).topic = g.topic :=
    (Group.holds_leave g consumerID).1
  refine ⟨counted.size, ?_, ?_, ?_⟩
  · intro h mem
    rcases Manager.mem_update mem with ⟨g, old, -, rfl⟩ | ⟨old, -⟩
    · have seated := counted.seated g old
      refine ⟨(keeps g).2.trans seated.named, seated.dealt.call (.leave consumerID), ?_⟩
      intro c memC
      have stays : ∃ d ∈ g.consumers, d.id = c.id ∧ ∀ n k, Filled n k d → Filled n k c := by
        grind [Group.leave, filled_rebalance]
      obtain ⟨d, memD, sameId, kept⟩ := stays
      rw [(keeps g).1, ← sameId]
      exact kept _ _ (seated.filled d memD)
    · exact counted.seated h old
  · intro d' mem w' retried left
    obtain ⟨d, memD, rfl⟩ := mem_map.mp mem
    obtain ⟨w, slow, rfl⟩ := map_eq_some_iff.mp retried
    by_cases leaves : w.group = group ∧ w.consumerID = consumerID
    · simp [leaves] at left
    · rw [if_neg leaves] at left ⊢
      obtain ⟨full, member⟩ := counted.slow d memD w slow left
      refine ⟨full, member_update (fun g named topic => ?_) ?_ member⟩
      · simp [keeps, named, topic]
      · intro g _ same old
        exact Group.mem_ids_leave.mpr ⟨fun both => leaves ⟨same, both⟩, old⟩
  · intro alive
    rw [show (s.unsubscribe t group consumerID).Retrying ↔ s.Retrying by
      simp [Broker.unsubscribe, Broker.Retrying, Delivery.leave]]
    exact counted.peak alive

/-! ## Dispatching -/

variable {i : Nat} {d : Delivery}

theorem slow_split {ds : List Delivery} (at_i : ds[i]? = some d) :
    ∃ others : Prop, ((∃ e ∈ ds, e.slow ≠ none) ↔ d.slow ≠ none ∨ others) ∧
      ((∃ e ∈ ds.eraseIdx i, e.slow ≠ none) ↔ others) ∧
      ∀ d', (∃ e ∈ ds.set i d', e.slow ≠ none) ↔ d'.slow ≠ none ∨ others := by
  obtain ⟨before, after, split, erased, replaced⟩ := pool_split at_i
  refine ⟨∃ e ∈ before ++ after, e.slow ≠ none, ?_, by rw [erased], fun d' => ?_⟩
  · grind
  · grind

/-- A group in which some were handed more, by a dispatch that may retry one of them now. -/
theorem Broker.Counted.handMore (counted : s.Counted t n)
    (found : s.manager.find group t.name = some g) (g' : Group)
    (same : g'.id = g.id ∧ g'.topic = g.topic) (dealt : g'.Dealt) (ids : g'.ids = g.ids)
    (grows : ∀ who, s.handed.count who ≤ handed.count who)
    (others : ∀ who, who.1 ≠ group → handed.count who = s.handed.count who)
    (filled : ∀ c ∈ g'.consumers, Filled n (handed.count (group, c.id)) c)
    {deliveries : List Delivery}
    (slow : ∀ d ∈ deliveries, d ∈ s.deliveries ∨ ∀ w ∈ d.slow, w.group = group ∧
      w.consumerID ∈ g.ids ∧ n ≤ handed.count (group, w.consumerID)) {peak : Nat}
    (peaked : s.panicked = false →
      (n < peak ↔ s.dead ≠ [] ∨ ∃ d ∈ deliveries, d.slow ≠ none)) :
    Broker.Counted t n { s with
      manager := s.manager.update group t.name fun _ => g'
      deliveries := deliveries
      handed := handed
      peak := peak } := by
  have mem : g ∈ s.manager.groups := mem_of_find?_eq_some found
  obtain ⟨groupId, topic⟩ := Manager.find_names found
  have names : g'.id = group ∧ g'.topic = t.name := ⟨same.1.trans groupId, same.2.trans topic⟩
  refine ⟨counted.size, ?_, ?_, peaked⟩
  · intro h mem
    rcases Manager.mem_update mem with ⟨-, -, -, rfl⟩ | ⟨old, other⟩
    · exact ⟨names.2, dealt, names.1 ▸ filled⟩
    · have seated := counted.seated h old
      refine { seated with filled := fun c memC => ?_ }
      rw [others (h.id, c.id) fun here => other ⟨here, seated.named⟩]
      exact seated.filled c memC
  · intro d memD w retried left
    have keeps : ∀ {group' id : String}, Member s.manager t.name group' id →
        Member (s.manager.update group t.name fun _ => g') t.name group' id := by
      refine member_update (fun _ _ _ => names) ?_
      intro h found' _ old
      rw [found, some.injEq] at found'
      rw [ids, found']
      exact old
    rcases slow d memD with old | new
    · obtain ⟨full, member⟩ := counted.slow d old w retried left
      exact ⟨full.trans (grows _), keeps member⟩
    · obtain ⟨rfl, there, full⟩ := new w retried
      exact ⟨full, keeps ⟨g, found, there⟩⟩

/-- A consumer of the group is handed one more message: its channel has room exactly if it was
handed less than its capacity. -/
theorem Broker.Counted.hand (counted : s.Counted t n) {c : Consumer} {msg : Message}
    (found : s.manager.find group t.name = some g) (memC : c ∈ g.consumers)
    (owns : msg.partition ∈ c.assignments) {waiting : List String} {others : Prop}
    (replaced : ∀ d' : Delivery,
      (∃ e ∈ s.deliveries.set i d', e.slow ≠ none) ↔ d'.slow ≠ none ∨ others)
    (peak : s.panicked = false → (n < s.peak ↔ s.dead ≠ [] ∨ others)) :
    Broker.Counted t n { s with
      manager := s.manager.update group t.name fun _ => (g.dispatch msg).1
      deliveries := s.deliveries.set i
        ⟨msg, waiting, (g.dispatch msg).2.map fun consumerID => ⟨group, consumerID, 0, false⟩⟩
      handed := (group, c.id) :: s.handed
      peak := max s.peak (s.count group c.id + 1) } := by
  have mem : g ∈ s.manager.groups := mem_of_find?_eq_some found
  have dealt := (counted.seated g mem).dealt
  have seats := g.seats_dispatch msg
  have ids : (g.dispatch msg).1.ids = g.ids := by simp [Group.ids_eq_seats, seats]
  have held : ∀ e ∈ g.consumers, Filled n (s.handed.count (group, e.id)) e := by
    intro e memE
    rw [← (Manager.find_names found).1]
    exact (counted.seated g mem).filled e memE
  have one : ((group, c.id) :: s.handed).count (group, c.id) = s.count group c.id + 1 :=
    count_cons_self
  have same : ∀ e : Consumer, e.id ≠ c.id →
      ((group, c.id) :: s.handed).count (group, e.id) = s.handed.count (group, e.id) :=
    fun e other => count_cons_of_ne fun both => other (congrArg Prod.snd both).symm
  have grows (who : String × String) :
      s.handed.count who ≤ ((group, c.id) :: s.handed).count who := count_le_count_cons
  have elsewhere (who : String × String) (other : who.1 ≠ group) :
      ((group, c.id) :: s.handed).count who = s.handed.count who := by
    refine count_cons_of_ne ?_
    rintro rfl
    exact other rfl
  have dealt' : (g.dispatch msg).1.Dealt := dealt.of_seats rfl seats
  have more := counted.handMore found (g.dispatch msg).1 ⟨rfl, rfl⟩ dealt' ids grows elsewhere
  by_cases room : s.count group c.id < n
  · obtain ⟨c', delivered, sameId, filled⟩ := (held c memC).deliver room msg
    rw [dealt.dispatch_delivered memC owns delivered] at more ⊢
    refine more ?_ ?_ ?_
    · intro e memE
      obtain ⟨e, old, rfl⟩ := mem_map.mp memE
      grind
    · grind
    · intro alive
      rw [replaced, lt_max_iff, or_iff_left (by omega)]
      simpa using peak alive
  · have full := not_lt.mp room
    rw [dealt.dispatch_slow memC owns ((held c memC).full full msg)] at more ⊢
    refine more ?_ ?_ ?_
    · intro e memE
      by_cases here : e.id = c.id
      · rw [here, one]
        exact (here ▸ held e memE).more full
      simp [held, same, memE, here]
    · intro d' mem
      refine (mem_or_eq_of_mem_set mem).imp_right ?_
      rintro rfl w retried
      cases retried
      exact ⟨rfl, mem_map_of_mem memC, full.trans (grows _)⟩
    · intro alive
      rw [replaced, lt_max_iff]
      simp; omega

/-- **The attempt of one group.** -/
theorem Broker.Counted.serve (counted : s.Counted t n) (at_i : s.deliveries[i]? = some d)
    (idle : d.slow = none) (group : String) : (s.serve t i d group).Counted t n := by
  obtain ⟨others, before, -, after⟩ := slow_split at_i
  have peak : s.panicked = false → (n < s.peak ↔ s.dead ≠ [] ∨ others) := by
    intro alive
    grind [peak, Retrying]
  cases found : s.manager.find group t.name with
  | none =>
    simp only [Broker.serve, Broker.target, Manager.dispatchToGroup, found, bind_none,
      elim_none, map_none]
    refine ⟨counted.size, counted.seated, forall_mem_set counted.slow nofun, ?_⟩
    · intro alive
      rw [Broker.Retrying, after]
      simpa using peak alive
  | some g =>
    have mem : g ∈ s.manager.groups := mem_of_find?_eq_some found
    simp only [Broker.serve, Broker.target, Manager.dispatchToGroup, found, bind_some]
    cases tried : g.consumers.find? fun c => decide (d.msg.partition ∈ c.assignments) with
    | none =>
      have unowned : ∀ c ∈ g.consumers, d.msg.partition ∉ c.assignments := by grind
      simp only [Group.dispatch_unowned unowned, elim_none, map_none]
      have seated := counted.seated g mem
      refine counted.handMore found g ⟨rfl, rfl⟩ seated.dealt rfl (fun _ => le_rfl)
        (fun _ _ => rfl) ?_ ?_ ?_
      · intro c memC
        rw [← (Manager.find_names found).1]
        exact seated.filled c memC
      · grind
      · intro alive
        rw [after]
        simpa using peak alive
    | some c =>
      have owns := find?_some tried
      have owns : d.msg.partition ∈ c.assignments := of_decide_eq_true owns
      exact counted.hand found (mem_of_find?_eq_some tried) owns after peak

/-! ## Retrying -/

theorem Broker.Counted.redeliver (counted : s.Counted t n) {w : Slow}
    (full : n ≤ s.count w.group w.consumerID)
    (member : Member s.manager t.name w.group w.consumerID) (msg : Message) :
    s.manager.redeliver w.group t.name w.consumerID msg = none := by
  obtain ⟨g, found, there⟩ := member
  have mem : g ∈ s.manager.groups := mem_of_find?_eq_some found
  obtain ⟨e, memE, named⟩ := mem_map.mp there
  unfold Manager.redeliver Group.redeliver
  cases held : g.consumers.find? fun c => decide (c.id = w.consumerID) with
  | none => exact absurd (decide_eq_true named) (find?_eq_none.mp held e memE)
  | some c =>
    have named := find?_some held
    have named : c.id = w.consumerID := of_decide_eq_true named
    have filled := (counted.seated g mem).filled c (mem_of_find?_eq_some held)
    rw [(Manager.find_names found).1, named] at filled
    simp only [found, held, filled.full full msg, map_none]

theorem Broker.Counted.retry (counted : s.Counted t n) {w : Slow} (at_i : s.deliveries[i]? = some d)
    (slow : d.slow = some w) : (s.retry t i d w).Counted t n := by
  have mem : d ∈ s.deliveries := mem_of_getElem? at_i
  unfold Broker.retry
  cases left : w.left with
  | true =>
    exact ⟨counted.size, counted.seated, counted.slow, fun alive => absurd alive (by simp)⟩
  | false =>
    obtain ⟨full, member⟩ := counted.slow d mem w slow left
    simp only [Bool.false_eq_true, if_false, counted.redeliver full member]
    obtain ⟨others, before, -, after⟩ := slow_split at_i
    refine ⟨counted.size, counted.seated, forall_mem_set counted.slow ?_, ?_⟩
    · rintro _ ⟨⟩ _
      exact ⟨full, member⟩
    · intro alive
      have old := counted.peak alive
      rw [Broker.Retrying, before, slow] at old
      rw [Broker.Retrying, after]
      simpa using old

/-- Giving up shows that somebody was handed too much. -/
theorem Broker.Counted.giveUp (counted : s.Counted t n) {w : Slow}
    (at_i : s.deliveries[i]? = some d) (slow : d.slow = some w) :
    (s.giveUp t i d w).Counted t n := by
  refine ⟨counted.size, counted.seated, forall_mem_set counted.slow nofun, fun alive => ?_⟩
  have retrying : s.Retrying := ⟨d, mem_of_getElem? at_i, slow ▸ some_ne_none w⟩
  exact iff_of_true ((counted.peak alive).mpr (.inr retrying)) (.inl (by simp [Broker.giveUp]))

/-! ## Runs -/

theorem Broker.Counted.aside (counted : s.Counted t n) (groups : s'.manager.groups = s.manager.groups)
    (size : s'.manager.bufferSize = s.manager.bufferSize) (handed : s'.handed = s.handed)
    (state : s'.panicked = s.panicked ∧ s'.peak = s.peak ∧ s'.dead = s.dead)
    (fewer : ∀ d ∈ s'.deliveries, d ∈ s.deliveries ∨ d.slow = none)
    (retrying : s'.Retrying ↔ s.Retrying) : s'.Counted t n where
  size := size.trans counted.size
  seated := by
    rw [groups, handed]
    exact counted.seated
  slow := by
    intro d mem w retried left
    unfold Broker.count Member Manager.find
    rw [handed, groups]
    rcases fewer d mem with old | none
    · exact counted.slow d old w retried left
    grind
  peak := by
    grind [peak]

/-- **Every step keeps the count.** -/
theorem Broker.Counted.step (counted : s.Counted t n) {e : Event} (taken : step t s e = some s') :
    s'.Counted t n := by
  unfold Backlog.step at taken
  split at taken
  · cases taken
  · cases e with
    | subscribe group consumerID => grind [subscribe]
    | unsubscribe group consumerID => grind [unsubscribe]
    | publish partition msg =>
      obtain ⟨log, -, rfl⟩ := map_eq_some_iff.mp taken
      refine counted.aside rfl rfl rfl ⟨rfl, rfl, rfl⟩ ?_ ?_
      · grind
      simp [Retrying]
    | serve i group => grind [serve]
    | retry i =>
      obtain ⟨d, at_i, taken⟩ := bind_eq_some_iff.mp taken
      obtain ⟨w, slow, taken⟩ := bind_eq_some_iff.mp taken
      grind [retry]
    | giveUp i =>
      obtain ⟨d, at_i, taken⟩ := bind_eq_some_iff.mp taken
      obtain ⟨w, slow, taken⟩ := bind_eq_some_iff.mp taken
      grind [giveUp]
    | finish i =>
      obtain ⟨d, at_i, taken⟩ := bind_eq_some_iff.mp taken
      obtain ⟨⟨idle, -⟩, rfl⟩ :=
        ite_none_right_eq_some.mp taken |>.imp_right some.inj
      grind [slow_split, aside, mem_of_mem_eraseIdx, Retrying]
    | fetch group partition maxCount | deadLetters dlq =>
      cases taken
      exact counted.aside rfl rfl rfl ⟨rfl, rfl, rfl⟩ (fun d mem => .inl mem) Iff.rfl
    | commit group consumerID partition offset =>
      cases taken
      have kept : ∀ m, s.manager.commitOffset group consumerID t.name partition offset = some m →
          m.groups = s.manager.groups ∧ m.bufferSize = s.manager.bufferSize := by
        intro m done
        rw [Manager.commitOffset_eq done]
        exact ⟨rfl, rfl⟩
      cases done : s.manager.commitOffset group consumerID t.name partition offset with
      | none => exact counted
      | some m =>
        exact counted.aside (kept m done).1 (kept m done).2 rfl ⟨rfl, rfl, rfl⟩
          (fun d mem => .inl mem) Iff.rfl

theorem counted_reached {offsets : OffsetStore} {dlq : DeadLetterQueue}
    (run : Reaches (Backlog.step t) (fun _ _ => True) (boot t n offsets dlq) s) : s.Counted t n := by
  induction run with
  | init => exact counted_boot t n offsets dlq
  | step _ _ taken ih => exact ih.step taken

end

/-- **When a topic read by pull groups makes no dead letter**, in every interleaving of
subscriptions, publishes, fetches, commits and the dispatches with their retries: once the
dispatches have ended, no message of the topic was put into the dead-letter queue exactly if no
consumer was handed more messages between its joining and its leaving than its channel holds,
whatever it fetched and committed. -/
theorem dead_letters_iff (t : Topic) (bufferSize : Nat) (offsets : OffsetStore)
    (dlq : DeadLetterQueue) {s : Broker}
    (run : Reaches (step t) (fun _ _ => True) (boot t bufferSize offsets dlq) s)
    (alive : s.panicked = false) (quiet : s.deliveries = []) :
    s.dead = [] ↔ s.peak ≤ bufferSize := by
  have peak := (counted_reached run).peak alive
  have idle : ¬ s.Retrying := by simp [Broker.Retrying, quiet]
  rw [← not_lt, peak, or_iff_left idle, not_not]

/-! ## A consumer that keeps up -/

def sampleTopic : Topic := ⟨"t", 1, 3⟩

def note (offset : Nat) : Message := ⟨"m", "t", 0, [1], [], [], 0, offset, 0⟩

def keepUp (k : Nat) : List Event := [.fetch "g" 0 1, .commit "g" "c" 0 k]

/-- A message is published and dispatched, and the consumer fetches and commits it. -/
def round (k : Nat) : List Event :=
  [.publish 0 (note k), .serve 0 "g", .finish 0] ++ keepUp k

def lastRound (k : Nat) : List Event :=
  [.publish 0 (note k), .serve 0 "g", .retry 0, .retry 0, .retry 0, .giveUp 0, .finish 0] ++ keepUp k

/-- The consumer keeps up for `k` rounds. -/
def rounds : Nat → List Event
  | 0 => [.subscribe "g" "c"]
  | k + 1 => rounds k ++ round k

/-- What the consumer was given, what is under way and what is in the dead-letter queue. -/
def Broker.outcome (s : Broker) : List (String × Message) × List Delivery × List DLQEntry :=
  (s.received, s.deliveries, s.dlq.entries)

/-- **A consumer that keeps up, and a dead letter.**  One consumer in pull mode fetches and
commits each of three messages right after it was published.  Its channel holds two, and the last
message is in the dead-letter queue. -/
theorem healthy_dead_letter :
    (runAll (step sampleTopic) (fun _ _ => True) (boot sampleTopic 2 ∅ (newDLQ 10000))
        (rounds 2 ++ lastRound 2)).map Broker.outcome =
      some ([("g", note 0), ("g", note 1), ("g", note 2)], [],
        [⟨some (note 2), "g", "consumer channel full after retries", 3⟩]) := by
  decide +kernel

/-- As many messages as the channel holds. -/
theorem dead_letters_full :
    ∃ s, Reaches (step sampleTopic) (fun _ _ => True) (boot sampleTopic 2 ∅ (newDLQ 10000)) s ∧
      s.received = [("g", note 0), ("g", note 1)] ∧ s.dead = [] := by
  refine Reaches.exists_run_of (P := fun s => s.received = [("g", note 0), ("g", note 1)] ∧
    s.panicked = false ∧ s.deliveries = [] ∧ s.peak ≤ 2) (rounds 2) (by decide +kernel) ?_
  rintro s reached ⟨received, alive, quiet, peak⟩
  exact ⟨received,
    (dead_letters_iff sampleTopic 2 ∅ (newDLQ 10000) reached alive quiet).mpr peak⟩

end PubsubBroker.Consumers.Backlog
