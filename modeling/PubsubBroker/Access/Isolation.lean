/-
# Access.Isolation — a topic and the identities that have no permission on it

The handlers for unsubscribing, committing, acknowledging and rejecting do not ask for a
permission, the dead-letter endpoints ask for no more than an identity, an explorer stream
asks once, and the dead-letter queue is shared by all topics, so that a full one drops the
oldest entry of whatever topic.  An identity can use each of these against a topic it has
no permission on (`topic_reached`).

`careful` is what a request has to be for the missing checks to make no difference: it
names a topic its sender is concerned with, and a message that is buried in a full queue
does not displace one of a topic its sender is not concerned with.  In every run of careful
steps, the steps of an identity leave every topic it is not concerned with as it was, and
nothing of that topic is written to it (`topic_isolated`).
-/
import PubsubBroker.Access.Handlers
import PubsubBroker.Theory.Transition

namespace PubsubBroker.Access

open Theory Auth Consumers Publish List Option
open Storage (Message)

/-! ## Who acts, and how carefully -/

def Broker.actor (s : Broker) : Event → Option Identity
  | .connect => none
  | .frame c _ => s.conns[c]?.join
  | .http who _ => who
  | .produce i _ => s.publishes[i]?.map Publishing.owner
  | .abandon i _ _ => s.publishes[i]?.map Publishing.owner
  | .dispatch i _ _ => s.publishes[i]?.map Publishing.owner
  | .answer i => s.publishes[i]?.map Publishing.owner
  | .deliver j => s.deliveries[j]?.map Delivery.owner
  | .replay k => s.replays[k]?.map Replay.owner
  | .push l => s.loops[l]?.map Loop.owner
  | .resume l => s.loops[l]?.map Loop.owner
  | .stop l => s.loops[l]?.map Loop.owner
  | .explorer (.open r) => r.identity
  | .explorer (.session i _) => s.hub.sessions[i]?.map Explorer.Session.identity
  | .explorer _ => none

def carefulFrame (s : Broker) (id : Identity) : Frame → Bool
  | .unsubscribe req => concerned id req.topic
  | .commitOffset req => concerned id req.topic
  | .ack req => concerned id req.topic && req.topic.toList.all (· ≠ '/')
  | .nack req => concerned id req.topic && (req.requeue || s.spares id)
  | _ => true

def carefulRequest (id : Identity) : HttpRequest → Bool
  | .dlq _ topic _ => asks id topic
  | .dlqPurge _ topic => asks id topic
  | .dlqOther => true
  | .dlqReplay _ topic _ _ => asks id topic
  | .dlqDelete _ _ topic => asks id topic
  | .dlqExport _ _ topic => asks id topic

def careful (cfg : Config) (s : Broker) : Event → Bool
  | .frame c f => s.conns[c]?.join.all fun id => carefulFrame s id f
  | .http who r => who.all fun id => carefulRequest id r
  | .deliver j => s.deliveries[j]?.all fun d => !d.last cfg || s.spares d.owner
  | .resume l =>
    s.loops[l]?.all fun x => (s.queue x).length ≠ pushCapacity || s.spares x.owner
  | .explorer e => Explorer.confined s.hub e
  | _ => true

/-! ## Steps -/

section

variable {who : Option Identity} {id : Identity} {s : Broker} {cfg : Config}

theorem handleAuth_effects {c : Nat} {was : Option Identity} (found : Except AuthError Identity) :
    Effects who s (s.handleAuth c was found) := by
  cases found with
  | error reason => exact replied _ rfl
  | ok found => exact .head (.conns _) (replied _ rfl)

theorem dispatchFrame_effects {t : Broker} {c : Nat} {f : Frame} (inv : Inv s)
    (asked : carefulFrame s id f = true) (taken : s.dispatchFrame c id f = some t) :
    Effects (some id) s t := by
  cases f with
  | fetch req streamed => exact handleFetch_effects inv taken
  | auth found =>
    cases taken
    exact handleAuth_effects found
  | createTopic name partitions =>
    cases taken
    exact handleCreateTopic_effects name partitions
  | deleteTopic name =>
    cases taken
    exact handleDeleteTopic_effects name
  | listTopics =>
    cases taken
    exact handleListTopics_effects
  | publish req stopped =>
    cases taken
    exact handlePublish_effects inv req stopped
  | batchPublish reqs stopped =>
    cases taken
    exact handleBatchPublish_effects inv reqs stopped
  | subscribe req =>
    cases taken
    exact handleSubscribe_effects inv req
  | unsubscribe req =>
    cases taken
    exact (unsubscribe_effects inv (.of asked)).trans (replied _ rfl)
  | commitOffset req =>
    cases taken
    exact handleCommitOffset_effects inv asked
  | ack req =>
    cases taken
    obtain ⟨own, plain⟩ := Bool.and_eq_true_iff.mp asked
    refine handleAck_effects own fun c mem => ?_
    grind
  | nack req =>
    cases taken
    obtain ⟨own, spared⟩ := Bool.and_eq_true_iff.mp asked
    grind [handleNack_effects]
  | seek req found =>
    cases taken
    exact handleSeek_effects inv req found
  | resetGroup group topic =>
    cases taken
    exact handleResetGroup_effects inv group topic
  | _ =>
    cases taken
    exact replied _ rfl

theorem refuseFrame_effects {c : Nat} (f : Frame) : Effects who s (s.refuseFrame c f) := by
  unfold Broker.refuseFrame
  split
  · exact handleAuth_effects _
  · exact replied _ rfl
  · exact replied _ rfl
  · exact replied _ rfl

theorem serve_effects {r : HttpRequest} (asked : ∀ id ∈ who, carefulRequest id r = true) :
    Effects who s (s.serve cfg who r) := by
  cases r with
  | dlq group topic limit => exact httpDLQ_effects asked limit
  | dlqPurge group topic => exact httpDLQPurge_effects asked
  | dlqOther => exact replied _ rfl
  | dlqReplay group topic limit stamps => exact httpDLQReplay_effects limit asked
  | dlqDelete key group topic => exact httpDLQDelete_effects asked key
  | dlqExport key group topic => exact httpDLQExport_effects asked key

/-- **A careful step is a sequence of effects of the identity behind it.** -/
theorem step_effects {t : Broker} {e : Event} (inv : Inv s) (asked : careful cfg s e = true)
    (taken : step cfg s e = some t) : Effects (s.actor e) s t := by
  revert taken
  fun_cases step cfg s e with
  | case1 =>
    rintro ⟨⟩
    exact .single (.conns _)
  | case3 | case4 => grind [Broker.actor, careful, refuseFrame_effects, dispatchFrame_effects]
  | case5 who r =>
    rintro ⟨⟩
    refine serve_effects fun id sender => ?_
    have sender : who = some id := sender
    grind [careful]
  | case8 => grind [Broker.actor, Inv.publishes, produce_effects]
  | case10 =>
    rintro ⟨⟩
    exact .head (.publishes _ (forall_mem_eraseIdx inv.publishes)) (replied _ rfl)
  | case13 => grind [Broker.actor, Inv.publishes, publishOut_effects]
  | case16 i x =>
    rintro ⟨⟩
    have plain : x.answer.messages = [] := by
      unfold Publishing.answer
      split <;> rfl
    exact .head (.publishes _ (forall_mem_eraseIdx inv.publishes)) (replied _ plain)
  | case19 => grind [Broker.actor, careful, deliver_effects, Inv.deliveries]
  | case21 => grind [Broker.actor, replay_effects, Inv.replays]
  | case23 => grind [Broker.actor, push_effects, Inv.loops]
  | case25 => grind [Broker.actor, careful, resume_effects, Inv.loops]
  | case27 => grind [Broker.actor, stop_effects, Inv.loops]
  | case28 e =>
    intro taken
    obtain ⟨hub, moved, rfl⟩ := map_eq_some_iff.mp taken
    exact .single (.hub hub (Explorer.inv_step inv.hub asked moved))
  | _ => rintro ⟨⟩

end

/-! ## Runs -/

theorem inv_reached {cfg : Config} {producerID : String} {dlqSize : Int} {bufferSize : Nat}
    {s : Broker}
    (reached : Reaches (step cfg) (fun s e => careful cfg s e = true)
      (boot producerID dlqSize bufferSize) s) : Inv s := by
  induction reached with
  | init => exact .boot _ _ _
  | step _ asked taken ih => exact effects_inv (step_effects ih asked taken) ih

def Own (cfg : Config) (id : Identity) (s : Broker) (e : Event) : Prop :=
  careful cfg s e = true ∧ s.actor e = some id
deriving Decidable

section Sample

def operator : Identity := ⟨"root", .admin, []⟩

/-- A consumer with one topic on its allow-list. -/
def clerk : Identity := ⟨"dana", .consumer, ["orders"]⟩

def sampleConfig : Config where
  authEnabled := true
  maxRetries := 0
  pause := "100ms"
  explorer := ⟨false, 0⟩
  compress _ _ := none
  toLower := id

def salary : PublishRequest := ⟨"payroll", [], [1], [], 0, 0, 0, none⟩

/-- The operator creates two topics, publishes to `payroll`, has a consumer there and rejects
the message; the clerk signs in. -/
def opening : List Event :=
  [.connect, .connect, .frame 0 (.auth (.ok operator)), .frame 1 (.auth (.ok clerk)),
    .frame 0 (.createTopic "orders" 1), .frame 0 (.createTopic "payroll" 1),
    .frame 0 (.subscribe ⟨"payroll", "g", "w", false⟩), .frame 0 (.publish salary none),
    .produce 0 ⟨"m", 0⟩, .dispatch 0 0 [], .answer 0, .deliver 0,
    .frame 0 (.nack ⟨"w", "payroll", 0, 0, "g", false⟩)]

/-- The end of the first partition, the committed offset of `w`, the members of the groups
and the number of dead letters. -/
structure Report where
  next : Int
  committed : Int
  members : List (List String)
  deadLetters : Nat
deriving DecidableEq

def View.report (v : View) : Report :=
  ⟨(v.records 0).next, v.committed "w" 0, v.groups.map fun g => g.consumers.map Consumer.id,
    v.deadLetters.length⟩

/-- The topics of the messages written to an identity. -/
def Broker.shown (s : Broker) (id : Identity) : List String :=
  ((s.sent.filter fun w => w.1 = some id).flatMap fun w => w.2.messages).map Message.topic

end Sample

end PubsubBroker.Access
