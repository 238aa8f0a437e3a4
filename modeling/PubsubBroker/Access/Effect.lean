/-
# Access.Effect — what a step of an identity may change

An identity that holds a permission on a topic, apart from listing topics, is *concerned*
with it.  `Effect who s t` lists the changes a handler is made of, each with the topic it is
about and the demand that the identity behind it is concerned with that topic.  Two things
follow from the list, and nothing else looks at it: an identity leaves everything about a
topic it is not concerned with as it is (`effect_view`), and the state stays in order
(`effect_inv`), which is what the next handler relies on.

`Access.Isolation` shows that every step is a sequence of effects, if the requests that
the handlers do not check are ones they could have let through.
-/
import Mathlib.Logic.Relation
import PubsubBroker.Access.Server

namespace PubsubBroker.Access

open Theory Auth Consumers Publish List
open Storage (Message)

/-! ## Concern -/

/-- Every permission but the one to list topics. -/
def topicPermissions : List Permission :=
  [.publish, .subscribe, .fetch, .commit, .createTopic, .deleteTopic, .seek, .admin]

def concerned (id : Identity) (topic : String) : Bool :=
  topicPermissions.any fun perm => id.can perm topic

variable {id : Identity} {topic : String}

theorem concerned_of_can {perm : Permission} (may : id.can perm topic = true)
    (real : perm ≠ .listTopics) : concerned id topic = true := by
  apply any_eq_true.mpr
  refine ⟨perm, ?_, may⟩
  cases perm <;> simp_all [topicPermissions]

theorem concerned_of_unlisted (all : id.topics = []) (may : concerned id topic = true)
    (other : String) : concerned id other = true := by
  obtain ⟨perm, mem, can⟩ := any_eq_true.mp may
  exact any_eq_true.mpr ⟨perm, mem, Identity.can_of_unlisted all can other⟩

/-- Whoever is behind a step is concerned with the topic. -/
def Allows (who : Option Identity) (topic : String) : Prop :=
  ∀ id ∈ who, concerned id topic = true

theorem Allows.of (may : concerned id topic = true) : Allows (some id) topic := by
  rintro _ ⟨⟩
  exact may

/-! ## The view of a topic -/

/-- Everything the broker has about one topic: its registration, records, committed
offsets, groups and dead letters. -/
structure View where
  config : Option TopicConfig
  records : Int → SparseLog Message
  committed : String → Int → Int
  groups : List Group
  deadLetters : List DLQEntry

def Broker.view (s : Broker) (topic : String) : View where
  config := s.topics.lookup topic
  records partition := s.logs ⟨topic, partition⟩
  committed group partition := load s.manager.offsets group topic partition
  groups := s.manager.ofTopic topic
  deadLetters := s.dlq.ofTopic topic

/-- A name without a slash, as every topic has. -/
def SlashFree (name : String) : Prop := ∀ c ∈ name.toList, c ≠ '/'

theorem slashFree_of_valid {name : String} (valid : Broker.validName name = true) :
    SlashFree name :=
  Topics.noSlash_of_valid valid

/-- The messages of the publish are of topics its owner is concerned with. -/
structure Publishing.Permitted (x : Publishing) : Prop where
  todo : ∀ req ∈ x.todo, concerned x.owner req.topic = true
  done : ∀ y ∈ x.done, concerned x.owner y.1.topic = true

structure Delivery.Permitted (d : Delivery) : Prop where
  topic : d.msg.topic = d.topic
  owner : concerned d.owner d.topic = true

def Replay.Permitted (r : Replay) : Prop := concerned r.owner r.topic = true

/-- The messages a loop has outside of its group. -/
def Loop.held (l : Loop) : List Message := l.left.getD [] ++ l.paused.toList

structure Loop.Permitted (l : Loop) : Prop where
  owner : concerned l.owner l.topic = true
  held : ∀ m ∈ l.held, m.topic = l.topic

/-! ## Effects -/

/-- One change that `who` makes.  The constructors name what is changed; the premises say
which topic it is about. -/
inductive Effect (who : Option Identity) (s : Broker) : Broker → Prop where
  | reply (receiver : Option Identity) (r : Reply)
      (may : ∀ m ∈ r.messages, Allows receiver m.topic) : Effect who s (s.reply receiver r)
  | conns (conns : List (Option Identity)) : Effect who s { s with conns := conns }
  | counters (counters : Counters) : Effect who s { s with counters := counters }
  | producer (producer : Producer) : Effect who s { s with producer := producer }
  | create (topic : String) (cfg : TopicConfig) (plain : SlashFree topic)
      (may : Allows who topic) : Effect who s { s with topics := s.topics.insert topic cfg }
  | delete (topic : String) (may : Allows who topic) :
      Effect who s { s with topics := s.topics.erase topic }
  | append (id : PartitionId) (msg : Message) (same : msg.topic = id.topic)
      (may : Allows who id.topic) : Effect who s (s.appendLog id msg)
  | groups (m : Manager) (topic : String) (may : Allows who topic)
      (offsets : m.offsets = s.manager.offsets)
      (others : ∀ other, topic ≠ other → m.ofTopic other = s.manager.ofTopic other)
      (tidy : m.Tidy) : Effect who s { s with manager := m }
  | commit (group topic : String) (partition offset : Int) (plain : SlashFree topic)
      (may : Allows who topic) :
      Effect who s { s with manager := { s.manager with
        offsets := commit s.manager.offsets group topic partition offset } }
  | deadLetters (q : DeadLetterQueue)
      (others : ∀ topic, ¬ Allows who topic → q.ofTopic topic = s.dlq.ofTopic topic) :
      Effect who s { s with dlq := q }
  | publishes (xs : List Publishing) (permitted : ∀ x ∈ xs, x.Permitted) :
      Effect who s { s with publishes := xs }
  | deliveries (ds : List Delivery) (permitted : ∀ d ∈ ds, d.Permitted) :
      Effect who s { s with deliveries := ds }
  | replays (rs : List Replay) (permitted : ∀ r ∈ rs, r.Permitted) :
      Effect who s { s with replays := rs }
  | loops (ls : List Loop) (permitted : ∀ l ∈ ls, l.Permitted) :
      Effect who s { s with loops := ls }
  | hub (hub : Explorer.Hub) (confined : Explorer.Inv hub) : Effect who s { s with hub := hub }

/-- A sequence of effects. -/
abbrev Effects (who : Option Identity) : Broker → Broker → Prop :=
  Relation.ReflTransGen (Effect who)

section

variable {who : Option Identity} {id : Identity} {topic : String} {s t : Broker}

/-- What is in the state belongs where it is: records and waiting messages to their topic,
processes and everything written to an identity that is concerned with it. -/
structure Inv (s : Broker) : Prop where
  named : ∀ name ∈ s.topics, SlashFree name
  logged : ∀ id, ∀ e ∈ (s.logs id).entries, e.2.topic = id.topic
  manager : s.manager.Tidy
  publishes : ∀ x ∈ s.publishes, x.Permitted
  deliveries : ∀ d ∈ s.deliveries, d.Permitted
  replays : ∀ r ∈ s.replays, r.Permitted
  loops : ∀ l ∈ s.loops, l.Permitted
  hub : Explorer.Inv s.hub
  sent : ∀ w ∈ s.sent, ∀ m ∈ w.2.messages, Allows w.1 m.topic

theorem Inv.boot (producerID : String) (dlqSize : Int) (bufferSize : Nat) :
    Inv (boot producerID dlqSize bufferSize) where
  named := by simp [Access.boot]
  logged := by simp [Access.boot, SparseLog.empty]
  manager := ⟨by simp [Access.boot], by simp [Access.boot]⟩
  publishes := by simp [Access.boot]
  deliveries := by simp [Access.boot]
  replays := by simp [Access.boot]
  loops := by simp [Access.boot]
  hub := .init
  sent := by simp [Access.boot]

theorem effect_inv (effect : Effect who s t) (inv : Inv s) : Inv t := by
  cases effect with
  | reply receiver r may =>
    refine { inv with sent := ?_ }
    intro w mem
    rcases mem_append.mp mem with old | new
    · exact inv.sent w old
    grind
  | create topic cfg plain may =>
    refine { inv with named := ?_ }
    grind [AList.mem_insert, Inv.named]
  | delete topic may =>
    exact { inv with named := fun name mem => inv.named name (AList.mem_erase.mp mem).2 }
  | append id msg same may =>
    refine { inv with logged := ?_ }
    intro id' e mem
    by_cases here : id' = id
    · subst here
      simp only [Broker.appendLog, Function.update_self, SparseLog.append] at mem
      rcases mem_append.mp mem with old | new
      · exact inv.logged id' e old
      · obtain rfl := mem_singleton.mp new
        exact same
    · simp only [Broker.appendLog, Function.update_of_ne here] at mem
      exact inv.logged id' e mem
  | groups m topic may offsets others tidy => exact { inv with manager := tidy }
  | commit group topic partition offset plain may =>
    exact { inv with manager := ⟨inv.manager.named, inv.manager.held⟩ }
  | publishes xs permitted => exact { inv with publishes := permitted }
  | deliveries ds permitted => exact { inv with deliveries := permitted }
  | replays rs permitted => exact { inv with replays := permitted }
  | loops ls permitted => exact { inv with loops := permitted }
  | hub hub confined => exact { inv with hub := confined }
  | _ => exact { inv with }

theorem effects_inv (effects : Effects who s t) (inv : Inv s) : Inv t := by
  induction effects with
  | refl => exact inv
  | tail _ effect ih => exact effect_inv effect ih

end

end PubsubBroker.Access
