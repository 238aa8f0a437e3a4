/-
# Consumers.Group — consumer groups, partition assignment and dispatch

`internal/consumer/consumer.go`.  A group is subscribed to one topic.  Each join
and leave deals the partitions out again, round robin over the consumers in the
order of their ids, so a partition has exactly one consumer as long as the group
has any.  A message is delivered into the push channel of that consumer if it has
one, and into its pull channel otherwise; a full channel is backpressure, and the
consumer is then reported as slow.

The manager keeps the groups and the committed offsets.  Group and topic names
hold no slash (`validGroupName`, `validTopicName`), so the key `group/topic` of
the source stands for the pair.
-/
import PubsubBroker.Offsets.Store
import PubsubBroker.Storage.Record

namespace PubsubBroker.Consumers

open List
open Storage (Message)
open Offsets (OffsetStore OffsetRecord offsetKey)

/-! ## Consumers -/

def pushCapacity : Nat := 512

/-- A consumer; `pushCh` is there once a sink was set. -/
structure Consumer where
  id : String
  assignments : List Int
  bufferSize : Nat
  msgCh : List Message
  pushCh : Option (List Message)
deriving DecidableEq

def newConsumer (id : String) (bufferSize : Nat) : Consumer := ⟨id, [], bufferSize, [], none⟩

/-- `SetSink` with a connection: the push channel is made once. -/
def Consumer.setSink (c : Consumer) : Consumer := { c with pushCh := some (c.pushCh.getD []) }

/-- `deliver`; `none` is backpressure. -/
def Consumer.deliver (c : Consumer) (msg : Message) : Option Consumer :=
  match c.pushCh with
  | some queue =>
    if queue.length < pushCapacity then some { c with pushCh := some (queue ++ [msg]) } else none
  | none =>
    if c.msgCh.length < c.bufferSize then some { c with msgCh := c.msgCh ++ [msg] } else none

/-! ## Groups -/

/-- A group; the consumers are in the order of their ids. -/
structure Group where
  id : String
  topic : String
  partCount : Nat
  consumers : List Consumer

def newGroup (id topic : String) (partCount : Nat) : Group := ⟨id, topic, partCount, []⟩

/-- The partitions of the consumer at place `i` of `n`. -/
def share (partCount n i : Nat) : List Int :=
  ((List.range partCount).filter fun p => p % n = i).map Int.ofNat

/-- Partition `p` goes to the consumer at place `p % n` of `n`. -/
def rebalance (partCount : Nat) (cs : List Consumer) : List Consumer :=
  cs.mapIdx fun i c => { c with assignments := share partCount cs.length i }

def insertById (c : Consumer) : List Consumer → List Consumer
  | [] => [c]
  | d :: ds => if c.id.toList < d.id.toList then c :: d :: ds else d :: insertById c ds

def Group.member (g : Group) (consumerID : String) : Bool :=
  g.consumers.any fun c => c.id = consumerID

/-- `Join`; `none` when the id is taken. -/
def Group.join (g : Group) (consumerID : String) (bufferSize : Nat) : Option Group :=
  if g.member consumerID then none
  else
    some { g with
      consumers :=
        rebalance g.partCount (insertById (newConsumer consumerID bufferSize) g.consumers) }

def Group.leave (g : Group) (consumerID : String) : Group :=
  if g.member consumerID then
    { g with
      consumers := rebalance g.partCount (g.consumers.filter fun c => c.id ≠ consumerID) }
  else g

/-- The loop of `Dispatch`: the consumers behind it, and the slow one if a delivery
failed. -/
def deliverTo (msg : Message) : List Consumer → List Consumer × Option String
  | [] => ([], none)
  | c :: cs =>
    if msg.partition ∈ c.assignments then
      match c.deliver msg with
      | some c' => (c' :: (deliverTo msg cs).1, (deliverTo msg cs).2)
      | none => (c :: cs, some c.id)
    else (c :: (deliverTo msg cs).1, (deliverTo msg cs).2)

def Group.dispatch (g : Group) (msg : Message) : Group × Option String :=
  ({ g with consumers := (deliverTo msg g.consumers).1 }, (deliverTo msg g.consumers).2)

/-- `deliver` on the consumer a dispatch found slow; what is sent to one that has
left reaches nobody. -/
def Group.redeliver (g : Group) (consumerID : String) (msg : Message) : Option Group :=
  match g.consumers.find? fun c => c.id = consumerID with
  | none => some g
  | some c =>
    (c.deliver msg).map fun c' =>
      { g with consumers := g.consumers.map fun d => if d.id = consumerID then c' else d }

/-- Apply `f` to the consumer with the given id. -/
def Group.update (g : Group) (consumerID : String) (f : Consumer → Consumer) : Group :=
  { g with consumers := g.consumers.map fun c => if c.id = consumerID then f c else c }

/-! ## Committed offsets -/

/-- `OffsetStore.Load`. -/
def load (offsets : OffsetStore) (group topic : String) (partition : Int) : Int :=
  (offsets.lookup (offsetKey group.toList topic.toList partition)).getD (-1)

/-- `OffsetStore.Commit`. -/
def commit (offsets : OffsetStore) (group topic : String) (partition offset : Int) : OffsetStore :=
  offsets.commit ⟨group.toList, topic.toList, partition, offset⟩

theorem load_commit (offsets : OffsetStore) (group topic : String) (partition offset : Int) :
    load (commit offsets group topic partition offset) group topic partition = offset := by
  unfold load commit
  have found := offsets.lookup_commit_self ⟨group.toList, topic.toList, partition, offset⟩
  rw [show offsetKey group.toList topic.toList partition =
    OffsetRecord.key ⟨group.toList, topic.toList, partition, offset⟩ from rfl, found]
  rfl

/-- The offset a poll starts at: behind the committed one, or 0. -/
def startOffset (offsets : OffsetStore) (group topic : String) (partition : Int) : Int :=
  if load offsets group topic partition < 0 then 0 else load offsets group topic partition + 1

/-! ## The manager -/

structure Manager where
  groups : List Group
  offsets : OffsetStore
  bufferSize : Nat

namespace Manager

def find (m : Manager) (group topic : String) : Option Group :=
  m.groups.find? fun g => g.id = group ∧ g.topic = topic

/-- Apply `f` to the group. -/
def update (m : Manager) (group topic : String) (f : Group → Group) : Manager :=
  { m with groups := m.groups.map fun g => if g.id = group ∧ g.topic = topic then f g else g }

def ensure (m : Manager) (group topic : String) (partCount : Nat) : Manager :=
  match m.find group topic with
  | some _ => m
  | none => { m with groups := m.groups ++ [newGroup group topic partCount] }

/-- `Subscribe`; the group is there afterwards even if the join fails. -/
def subscribe (m : Manager) (group consumerID topic : String) (partCount : Nat) : Manager × Bool :=
  match (m.ensure group topic partCount).find group topic with
  | none => (m.ensure group topic partCount, false)
  | some g =>
    match g.join consumerID m.bufferSize with
    | none => (m.ensure group topic partCount, false)
    | some g' => ((m.ensure group topic partCount).update group topic fun _ => g', true)

def unsubscribe (m : Manager) (group consumerID topic : String) : Manager :=
  m.update group topic fun g => g.leave consumerID

/-- `CommitOffset`; `none` when the consumer is not in the group. -/
def commitOffset (m : Manager) (group consumerID topic : String) (partition offset : Int) :
    Option Manager :=
  match m.find group topic with
  | none => none
  | some g =>
    if g.member consumerID then
      some { m with offsets := commit m.offsets group topic partition offset }
    else none

/-- `HasCommittedOffset`. -/
def hasCommittedOffset (m : Manager) (group topic : String) (partition : Int) : Bool :=
  0 ≤ load m.offsets group topic partition

/-- `DispatchToGroup`, and what `Dispatch` does for one group: the manager behind
it, and the slow consumer if there is one. -/
def dispatchToGroup (m : Manager) (group topic : String) (partition : Int) (msg : Message) :
    Manager × Option String :=
  match m.find group topic with
  | none => (m, none)
  | some g =>
    let dispatched := g.dispatch { msg with partition := partition }
    (m.update group topic fun _ => dispatched.1, dispatched.2)

/-- A retry of `handleSlowConsumer`; `none` when the channel is still full. -/
def redeliver (m : Manager) (group topic consumerID : String) (msg : Message) : Option Manager :=
  match m.find group topic with
  | none => some m
  | some g => (g.redeliver consumerID msg).map fun g' => m.update group topic fun _ => g'

end Manager

/-! ## The share of a consumer -/

theorem mem_share {partCount n i : Nat} {p : Int} :
    p ∈ share partCount n i ↔ 0 ≤ p ∧ p < partCount ∧ p.toNat % n = i := by
  unfold share
  simp only [mem_map, mem_filter, mem_range, decide_eq_true_eq]
  constructor
  · grind
  · grind

/-! ## Finding a group -/

namespace Manager

variable {m : Manager} {group topic : String}
variable {f : Group → Group}

theorem find_update_any
    (keeps : ∀ g, g.id = group → g.topic = topic → (f g).id = group ∧ (f g).topic = topic)
    (group' topic' : String) :
    (m.update group topic f).find group' topic' =
      (m.find group' topic').map fun g => if g.id = group ∧ g.topic = topic then f g else g := by
  have same : ∀ g : Group, (if g.id = group ∧ g.topic = topic then f g else g).id = g.id ∧
      (if g.id = group ∧ g.topic = topic then f g else g).topic = g.topic := by
    intro g
    split
    · grind
    · exact ⟨rfl, rfl⟩
  unfold find update
  simp only [find?_map, Function.comp_def, same]

theorem find_update
    (keeps : ∀ g, g.id = group → g.topic = topic → (f g).id = group ∧ (f g).topic = topic) :
    (m.update group topic f).find group topic = (m.find group topic).map f := by
  rw [find_update_any keeps]
  refine Option.map_congr fun g found => ?_
  have named := find?_some found
  exact if_pos (of_decide_eq_true named)

theorem mem_update {g' : Group} (mem : g' ∈ (m.update group topic f).groups) :
    (∃ g ∈ m.groups, (g.id = group ∧ g.topic = topic) ∧ g' = f g) ∨
      g' ∈ m.groups ∧ ¬ (g'.id = group ∧ g'.topic = topic) := by
  obtain ⟨g, old, rfl⟩ := mem_map.mp mem
  by_cases here : g.id = group ∧ g.topic = topic
  · grind
  · simp [old, here]

theorem find_ensure (partCount : Nat) :
    (m.ensure group topic partCount).find group topic =
      some ((m.find group topic).getD (newGroup group topic partCount)) := by
  unfold ensure
  cases found : m.find group topic with
  | some g => exact found
  | none => grind [find, newGroup]

theorem find_names {g : Group} (found : m.find group topic = some g) :
    g.id = group ∧ g.topic = topic := by
  have named := find?_some found
  exact of_decide_eq_true named

theorem subscribe_offsets (m : Manager) (group consumerID topic : String) (n : Nat) :
    (m.subscribe group consumerID topic n).1.offsets = m.offsets := by
  have ensured : (m.ensure group topic n).offsets = m.offsets := by
    unfold ensure
    split <;> rfl
  unfold subscribe
  split
  · exact ensured
  · split
    · exact ensured
    · exact ensured

theorem dispatchToGroup_offsets (m : Manager) (group topic : String) (partition : Int)
    (msg : Message) : (m.dispatchToGroup group topic partition msg).1.offsets = m.offsets := by
  unfold dispatchToGroup
  split <;> rfl

theorem redeliver_offsets {m' : Manager} {consumerID : String} {msg : Message}
    (done : m.redeliver group topic consumerID msg = some m') : m'.offsets = m.offsets := by
  unfold redeliver at done
  split at done
  · cases done
    rfl
  · obtain ⟨g', -, rfl⟩ := Option.map_eq_some_iff.mp done
    rfl

theorem commitOffset_eq {m' : Manager} {consumerID : String} {partition offset : Int}
    (done : m.commitOffset group consumerID topic partition offset = some m') :
    m' = { m with offsets := commit m.offsets group topic partition offset } := by
  unfold commitOffset at done
  split at done
  · cases done
  · grind

end Manager

/-! ## Messages waiting in a group -/

def Consumer.queued (c : Consumer) : List Message := c.msgCh ++ c.pushCh.getD []

theorem Consumer.queued_deliver {c c' : Consumer} {msg m : Message}
    (done : c.deliver msg = some c') (mem : m ∈ c'.queued) : m ∈ c.queued ∨ m = msg := by
  unfold deliver at done
  split at done
  case h_1 queue pushed => grind [queued]
  case h_2 pulled => grind [queued]

namespace Group

/-- The message waits for one of the consumers. -/
def Holds (g : Group) (m : Message) : Prop := ∃ c ∈ g.consumers, m ∈ c.queued

variable {g g' : Group} {msg m : Message} {consumerID : String}
variable {cs : List Consumer}

theorem mem_rebalance {partCount : Nat} {c : Consumer} (mem : c ∈ rebalance partCount cs) :
    ∃ d ∈ cs, d.queued = c.queued := by
  obtain ⟨i, bound, rfl⟩ := mem_mapIdx.mp mem
  exact ⟨cs[i], getElem_mem bound, rfl⟩

theorem mem_insertById {c d : Consumer} : d ∈ insertById c cs ↔ d = c ∨ d ∈ cs := by
  induction cs with
  | nil => simp [insertById]
  | cons e es ih => grind [insertById]

theorem holds_join {bufferSize : Nat} (joined : g.join consumerID bufferSize = some g') :
    (g'.id = g.id ∧ g'.topic = g.topic) ∧ ∀ m, g'.Holds m → g.Holds m := by
  unfold join at joined
  obtain ⟨-, rfl⟩ := Option.ite_none_left_eq_some.mp joined |>.imp_right Option.some.inj
  refine ⟨⟨rfl, rfl⟩, ?_⟩
  rintro m ⟨c, mem, waits⟩
  obtain ⟨d, old, same⟩ := mem_rebalance mem
  rw [← same] at waits
  rcases mem_insertById.mp old with rfl | old
  · simp [newConsumer, Consumer.queued] at waits
  · exact ⟨d, old, waits⟩

theorem holds_leave (g : Group) (consumerID : String) :
    ((g.leave consumerID).id = g.id ∧ (g.leave consumerID).topic = g.topic) ∧
      ∀ m, (g.leave consumerID).Holds m → g.Holds m := by
  unfold leave
  split
  · refine ⟨⟨rfl, rfl⟩, ?_⟩
    rintro m ⟨c, mem, waits⟩
    obtain ⟨d, old, same⟩ := mem_rebalance mem
    exact ⟨d, (mem_filter.mp old).1, same ▸ waits⟩
  · simp

theorem mem_deliverTo {c : Consumer} (mem : c ∈ (deliverTo msg cs).1) (waits : m ∈ c.queued) :
    m = msg ∨ ∃ d ∈ cs, m ∈ d.queued := by
  induction cs with
  | nil => simp [deliverTo] at mem
  | cons d ds ih => grind [deliverTo, Consumer.queued_deliver, mem_cons_self]

theorem holds_dispatch (g : Group) (msg : Message) :
    ∀ m, (g.dispatch msg).1.Holds m → m = msg ∨ g.Holds m := by
  rintro m ⟨c, mem, waits⟩
  exact mem_deliverTo mem waits

theorem holds_redeliver (done : g.redeliver consumerID msg = some g') :
    (g'.id = g.id ∧ g'.topic = g.topic) ∧ ∀ m, g'.Holds m → m = msg ∨ g.Holds m := by
  unfold redeliver at done
  split at done
  case h_1 => grind
  case h_2 c found =>
    obtain ⟨c', delivered, rfl⟩ := Option.map_eq_some_iff.mp done
    refine ⟨⟨rfl, rfl⟩, ?_⟩
    rintro m ⟨d', mem, waits⟩
    obtain ⟨d, old, rfl⟩ := mem_map.mp mem
    split at waits
    · rcases Consumer.queued_deliver delivered waits with waits | new
      · exact .inr ⟨c, mem_of_find?_eq_some found, waits⟩
      · exact .inl new
    · exact .inr ⟨d, old, waits⟩

theorem holds_update {f : Consumer → Consumer} (fewer : ∀ c, ∀ m ∈ (f c).queued, m ∈ c.queued) :
    ∀ m, (g.update consumerID f).Holds m → g.Holds m := by
  rintro m ⟨c, mem, waits⟩
  obtain ⟨d, old, rfl⟩ := mem_map.mp mem
  refine ⟨d, old, ?_⟩
  split at waits
  · exact fewer d m waits
  · exact waits

end Group

/-! ## Groups by topic -/

namespace Manager

def ofTopic (m : Manager) (topic : String) : List Group :=
  m.groups.filter fun g => g.topic = topic

/-- Topics of groups hold no slash, and a group holds messages of its topic only. -/
structure Tidy (m : Manager) : Prop where
  named : ∀ g ∈ m.groups, ∀ c ∈ g.topic.toList, c ≠ '/'
  held : ∀ g ∈ m.groups, ∀ msg, g.Holds msg → msg.topic = g.topic

variable {m m' : Manager} {group other topic consumerID : String} {msg : Message}

theorem update_ofTopic {f : Group → Group} (keeps : ∀ g, g.topic = other → (f g).topic = other)
    (differ : other ≠ topic) : (m.update group other f).ofTopic topic = m.ofTopic topic := by
  unfold update ofTopic
  simp only
  generalize m.groups = groups
  induction groups with
  | nil => rfl
  | cons g rest ih => grind

theorem Tidy.update (tidy : m.Tidy) {f : Group → Group}
    (keeps : ∀ g ∈ m.groups, g.topic = topic →
      (f g).topic = topic ∧ ∀ msg, (f g).Holds msg → msg.topic = topic) :
    (m.update group topic f).Tidy := by
  constructor
  all_goals
    intro g mem
    obtain ⟨old, was, rfl⟩ := mem_map.mp mem
    split
    case isTrue here => grind [named]
    case isFalse =>
      first
        | exact tidy.named old was
        | exact tidy.held old was

theorem ensure_ofTopic (partCount : Nat) (differ : other ≠ topic) :
    (m.ensure group other partCount).ofTopic topic = m.ofTopic topic := by
  unfold ensure
  split
  · rfl
  · simp [ofTopic, newGroup, differ]

theorem Tidy.ensure (tidy : m.Tidy) (named : ∀ c ∈ topic.toList, c ≠ '/') (partCount : Nat) :
    (m.ensure group topic partCount).Tidy := by
  unfold Manager.ensure
  split
  · exact tidy
  · constructor
    · intro g mem
      rcases mem_append.mp mem with old | new
      · exact tidy.named g old
      · obtain rfl := mem_singleton.mp new
        exact named
    · intro g mem msg holds
      rcases mem_append.mp mem with old | new
      · exact tidy.held g old msg holds
      · obtain rfl := mem_singleton.mp new
        obtain ⟨c, none, -⟩ := holds
        cases none

theorem Tidy.find (tidy : m.Tidy) {g : Group} (found : m.find group topic = some g) :
    g.topic = topic ∧ ∀ msg, g.Holds msg → msg.topic = topic := by
  have same := (find_names found).2
  exact ⟨same, same ▸ tidy.held g (mem_of_find?_eq_some found)⟩

theorem subscribe_ofTopic (partCount : Nat) (differ : other ≠ topic) :
    (m.subscribe group consumerID other partCount).1.ofTopic topic = m.ofTopic topic := by
  have ensured : (m.ensure group other partCount).ofTopic topic = m.ofTopic topic :=
    ensure_ofTopic partCount differ
  unfold subscribe
  split
  · exact ensured
  case h_2 g found =>
    split
    · exact ensured
    case h_2 g' joined =>
      have kept : g'.topic = other := (Group.holds_join joined).1.2.trans (find_names found).2
      simp [update_ofTopic, differ, ensured, kept]

theorem Tidy.subscribe (tidy : m.Tidy) (named : ∀ c ∈ topic.toList, c ≠ '/') (partCount : Nat) :
    (m.subscribe group consumerID topic partCount).1.Tidy := by
  have ensured : (m.ensure group topic partCount).Tidy := tidy.ensure named partCount
  unfold Manager.subscribe
  split
  · exact ensured
  case h_2 g found =>
    split
    · exact ensured
    case h_2 g' joined =>
      obtain ⟨names, fewer⟩ := Group.holds_join joined
      grind [find, update]

theorem unsubscribe_ofTopic (differ : other ≠ topic) :
    (m.unsubscribe group consumerID other).ofTopic topic = m.ofTopic topic :=
  update_ofTopic (fun g same => (Group.holds_leave g consumerID).1.2.trans same) differ

theorem Tidy.unsubscribe (tidy : m.Tidy) : (m.unsubscribe group consumerID topic).Tidy := by
  refine Tidy.update tidy fun g mem same => ?_
  grind [Group.holds_leave, held]

theorem dispatchToGroup_ofTopic (partition : Int) (differ : other ≠ topic) :
    (m.dispatchToGroup group other partition msg).1.ofTopic topic = m.ofTopic topic := by
  unfold dispatchToGroup
  split
  · rfl
  case h_2 g found =>
    exact update_ofTopic (fun _ _ => (find_names found).2) differ

theorem Tidy.dispatchToGroup (tidy : m.Tidy) (partition : Int) (same : msg.topic = topic) :
    (m.dispatchToGroup group topic partition msg).1.Tidy := by
  unfold Manager.dispatchToGroup
  split
  · exact tidy
  case h_2 g found =>
    obtain ⟨names, held⟩ := tidy.find found
    refine tidy.update fun _ _ _ => ⟨names, fun m holds => ?_⟩
    grind [Group.holds_dispatch]

theorem redeliver_ofTopic (done : m.redeliver group other consumerID msg = some m')
    (differ : other ≠ topic) : m'.ofTopic topic = m.ofTopic topic := by
  unfold redeliver at done
  split at done
  case h_1 =>
    cases done
    rfl
  case h_2 g found =>
    obtain ⟨g', delivered, rfl⟩ := Option.map_eq_some_iff.mp done
    have kept := (Group.holds_redeliver delivered).1.2.trans (find_names found).2
    simp [update_ofTopic, differ, kept]

theorem Tidy.redeliver (tidy : m.Tidy) (same : msg.topic = topic)
    (done : m.redeliver group topic consumerID msg = some m') : m'.Tidy := by
  unfold Manager.redeliver at done
  split at done
  case h_1 =>
    cases done
    exact tidy
  case h_2 g found =>
    obtain ⟨g', delivered, rfl⟩ := Option.map_eq_some_iff.mp done
    obtain ⟨names, held⟩ := tidy.find found
    obtain ⟨kept, more⟩ := Group.holds_redeliver delivered
    grind [update]

end Manager

end PubsubBroker.Consumers
