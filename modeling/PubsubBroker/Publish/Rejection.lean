/-
# Publish.Rejection — what becomes of a publish that was answered with an error

The handlers of `internal/broker/handlers_publish.go` append a message to the WAL before
`Producer.Publish` finds out whether it can be published.  The entry of a message that
`Publish` turns down stays in the WAL until the next start, and `replayMessageWAL` then
publishes it against the topics that exist by then.

The model is that of `Publish.Broker`, with an account of the WAL entries kept beside it
(`Traced`): which entry belongs to which handler, and how its message was answered.
`traces` collects the messages that were turned down for one of four reasons and were
appended to a partition log afterwards.  Three of the reasons come from the request and
the configuration of its topic and hold at the replay too; an unknown topic may have been
created in the meantime (`rejected_appears`).  `rejected_leaves_no_trace` is what holds
when it has not.
-/
import PubsubBroker.Publish.Recovery

namespace PubsubBroker.Publish.Rejection

open Theory List Option
open Storage (Message)

/-! ## The account of the WAL -/

/-- How the message of a WAL entry was answered. -/
inductive Tag where
  | pending
  | published
  | rejected (error : PublishError)
deriving DecidableEq

/-- An unknown topic, an unsupported mode, a missing sequence number, or a payload that
cannot be compressed. -/
def Tag.turnedDown : Tag → Bool
  | .rejected .topicNotFound | .rejected .unsupportedMode => true
  | .rejected .seqNumRequired | .rejected .compress => true
  | _ => false

structure Traced where
  broker : Broker
  /-- One for each entry of the WAL. -/
  tags : List Tag
  /-- The entry of each handler's current message, once it is in the WAL. -/
  slots : List (Option Nat)
  /-- The tags of the entries that are still to be replayed. -/
  left : List Tag
  /-- The messages that were turned down and appended to a log afterwards. -/
  traces : List PublishRequest

def boot (S : Setup) (producerID : String) : Traced := ⟨Publish.boot S producerID, [], [], [], []⟩

def Traced.settle (t : Traced) (i : Nat) (tag : Tag) : Traced :=
  match t.slots[i]? with
  | some (some k) => { t with tags := t.tags.set k tag, slots := t.slots.set i none }
  | _ => t

/-- What `Publish` decides for the current message of a handler. -/
def outcome (S : Setup) (s : Broker) (i : Nat) (stamp : Stamp) : Option Prepared :=
  ((s.handlers[i]?).bind fun h => h.todo.head?).map fun req =>
    (prepare S.compress s.topics s.counters s.producer req stamp).1

def replayWrites (S : Setup) (s : Broker) (req : PublishRequest) (stamp : Stamp) : Bool :=
  !(s.alreadyWritten req).1 &&
    match (prepare S.compress s.topics (s.alreadyWritten req).2 s.producer req stamp).1 with
    | .write _ _ => true
    | _ => false

/-- The account behind an event that leads to the broker `b`. -/
def Traced.track (S : Setup) (t : Traced) (b : Broker) : Event → Traced
  | .publish _ _ | .batchPublish _ _ =>
    { t with
      broker := b
      slots := if t.broker.handlers.length < b.handlers.length then t.slots ++ [none]
        else t.slots }
  | .refuse i | .reply i _ => { t with broker := b, slots := t.slots.eraseIdx i }
  | .log i =>
    { t with
      broker := b
      tags := t.tags ++ [.pending]
      slots := t.slots.set i (some t.tags.length) }
  | .produce i stamp =>
    match outcome S t.broker i stamp with
    | some (.failed error) => { t.settle i (.rejected error) with broker := b }
    | some (.duplicate _) => { t.settle i .published with broker := b }
    | _ => { t with broker := b }
  | .append i _ => { t.settle i .published with broker := b }
  | .crash _ => { t with broker := b, slots := [], left := t.tags }
  | .replay stamp _ =>
    match t.broker.recovering, t.left with
    | some (req :: _), tag :: later =>
      { t with
        broker := b
        left := later
        traces := if tag.turnedDown && replayWrites S t.broker req stamp
          then t.traces ++ [req] else t.traces }
    | _, _ => { t with broker := b }
  | .serve => { t with broker := b, tags := [] }
  | _ => { t with broker := b }

def step (S : Setup) (t : Traced) (e : Event) : Option Traced :=
  (Publish.step S t.broker e).map fun b => t.track S b e

theorem replayEntry_logs {S : Setup} {s : Broker} {req : PublishRequest} {stamp : Stamp}
    (unwritten : replayWrites S s req stamp = false) (now : Int) :
    (s.replayEntry S req stamp now).logs = s.logs := by
  unfold replayWrites at unwritten
  unfold Broker.replayEntry
  cases tested : (s.alreadyWritten req).1 with
  | true => simp [tested]
  | false => grind

/-! ## The condition -/

/-- When an entry whose topic was unknown is replayed, the topic is still unknown. -/
def Unopened (t : Traced) : Event → Prop
  | .replay _ _ =>
    t.left.head? = some (.rejected .topicNotFound) →
      ∀ rest ∈ t.broker.recovering, ∀ req ∈ rest.head?, t.broker.topics req.topic = none
  | _ => True

/-- Requests that reach the WAL are ones that JSON represents, and the WAL offsets are
`int64`. -/
def Representable (S : Setup) (t : Traced) : Event → Prop
  | .log i => ∀ h ∈ t.broker.handlers[i]?, ∀ req ∈ h.todo.head?, S.json.exact req
  | .crash _ => t.broker.wal.nextOffset ≤ 2 ^ 63
  | _ => True

def Allowed (S : Setup) (t : Traced) (e : Event) : Prop := Unopened t e ∧ Representable S t e

instance (topics : Topics) (name : String) : Decidable (topics name = none) :=
  decidable_of_iff ((topics name).isNone = true) isNone_iff_eq_none

instance (t : Traced) : (e : Event) → Decidable (Unopened t e) := by
  rintro (_ | _) <;> unfold Unopened <;> infer_instance

instance (S : Setup) [DecidablePred S.json.exact] (t : Traced) :
    (e : Event) → Decidable (Representable S t e) := by
  rintro (_ | _) <;> unfold Representable <;> infer_instance

instance (S : Setup) [DecidablePred S.json.exact] (t : Traced) (e : Event) :
    Decidable (Allowed S t e) :=
  inferInstanceAs (Decidable (_ ∧ _))

/-! ## Reasons that last -/

/-- The reason for which a message was turned down, as far as it is about the request and
its topic. -/
def Justified (S : Setup) (topics : Topics) (req : PublishRequest) : Tag → Prop
  | .rejected .unsupportedMode | .rejected .seqNumRequired => Refused req
  | .rejected .compress =>
    ∃ cfg, topics req.topic = some cfg ∧ ∀ msg, compressed S.compress cfg req msg = none
  | _ => True

section

variable {S : Setup} {topics : Topics} {req : PublishRequest} {stamp : Stamp} {p : Producer}
variable {counters : Counters}

theorem compressed_none {cfg : TopicConfig} {msg : Message}
    (failed : compressed S.compress cfg req msg = none) (other : Message) :
    compressed S.compress cfg req other = none := by
  simp only [compressed] at failed ⊢
  generalize (if req.codec > 0 then req.codec else cfg.compressionCodec) = codec at failed ⊢
  by_cases uses : codec ≠ 0
  · rw [if_pos uses, map_eq_none_iff] at failed ⊢
    exact failed
  · grind

theorem byMode_failed {partID : Int} {msg : Message} {e : PublishError}
    (failed : byMode p req partID msg = .failed e) :
    Refused req ∧ (e = .seqNumRequired ∨ e = .unsupportedMode) := by
  constructor
  · have cases : (∃ e, byMode p req partID msg = .failed e ∧ Refused req) ∨ _ :=
      byMode_cases p partID msg
    grind
  · grind [byMode]

theorem prepare_failed {e : PublishError}
    (failed : (prepare S.compress topics counters p req stamp).1 = .failed e) :
    Justified S topics req (.rejected e) := by
  unfold prepare at failed
  cases found : topics req.topic with
  | none =>
    simp only [found] at failed
    cases failed
    trivial
  | some cfg =>
    simp only [found] at failed
    split at failed
    · cases failed
      trivial
    · split at failed
      · split at failed
        · rename_i uncompressed
          cases failed
          exact ⟨cfg, found, compressed_none uncompressed⟩
        · obtain ⟨refused, rfl | rfl⟩ := byMode_failed failed
          · exact refused
          · exact refused
      · cases failed
        trivial

/-- **The reasons last.**  A message that was turned down is turned down again, if its
topic is still unknown in case that was the reason. -/
theorem justified_unwritten {tag : Tag} (down : tag.turnedDown = true)
    (justified : Justified S topics req tag)
    (unknown : tag = .rejected .topicNotFound → topics req.topic = none) (partID : Int)
    (msg : Message) : (prepare S.compress topics counters p req stamp).1 ≠ .write partID msg := by
  intro writes
  unfold prepare at writes
  cases found : topics req.topic with
  | none => grind
  | some cfg =>
    simp only [found] at writes
    split at writes
    · cases writes
    · split at writes
      · split at writes
        · cases writes
        · rename_i compresses
          have unrefused : ¬ Refused req := by
            intro refused
            obtain ⟨e, failed⟩ := byMode_refused refused p _ _
            rw [failed] at writes
            cases writes
          cases tag with
          | pending | published => cases down
          | rejected e =>
            cases e with
            | topicNotFound => grind
            | unsupportedMode | seqNumRequired => exact unrefused justified
            | compress =>
              obtain ⟨cfg', found', none⟩ := justified
              grind
            | notRegistered | partitionOutOfRange => cases down
      · cases writes

theorem replayWrites_justified {s : Broker} {tag : Tag} (down : tag.turnedDown = true)
    (justified : Justified S s.topics req tag)
    (unknown : tag = .rejected .topicNotFound → s.topics req.topic = none) :
    replayWrites S s req stamp = false := by
  unfold replayWrites
  rw [Bool.and_eq_false_iff]
  right
  split
  · grind [justified_unwritten]
  · rfl

theorem Justified.create {name : String} (new : topics name = none) (cfg : TopicConfig) {tag : Tag}
    (justified : Justified S topics req tag) :
    Justified S (Function.update topics name (some cfg)) req tag := by
  cases tag with
  | pending | published => trivial
  | rejected e =>
    cases e with
    | compress =>
      obtain ⟨cfg', found, none⟩ := justified
      have other : req.topic ≠ name := by grind
      exact ⟨cfg', by rw [Function.update_of_ne other, found], none⟩
    | _ => exact justified

end

/-! ## The invariant -/

/-- A handler whose message is in the WAL knows its entry. -/
def SlotOk (entries : List PublishRequest) (h : Handler) (slot : Option Nat) : Prop :=
  match h.entry with
  | some req => ∃ k, slot = some k ∧ entries[k]? = some req
  | none => slot = none

/-- `entries` are the records of the WAL.  Every tag is justified, in the WAL and in what
is left to replay, and there are no traces. -/
structure Inv (S : Setup) (t : Traced) (entries : List PublishRequest) : Prop where
  wal : t.broker.wal = Wal.written S.json.toJsonCodec entries
  exact : ∀ e ∈ entries, S.json.exact e
  tagged : Forall₂ (Justified S t.broker.topics) entries t.tags
  slots : Forall₂ (SlotOk entries) t.broker.handlers t.slots
  idle : t.broker.recovering.isSome = true → t.broker.handlers = []
  left : ∀ rest, t.broker.recovering = some rest →
    Forall₂ (Justified S t.broker.topics) rest t.left
  clean : t.traces = []

section

variable {S : Setup} {t : Traced} {entries : List PublishRequest} {i : Nat} {h h' : Handler}

theorem inv_boot (S : Setup) (producerID : String) : Inv S (boot S producerID) [] where
  wal := rfl
  exact := by simp
  tagged := .nil
  slots := .nil
  idle := nofun
  left := nofun
  clean := rfl

theorem SlotOk.entry_eq (same : h'.entry = h.entry) {slot : Option Nat}
    (ok : SlotOk entries h slot) : SlotOk entries h' slot := by
  unfold SlotOk
  rw [same]
  exact ok

theorem SlotOk.append {slot : Option Nat} (ok : SlotOk entries h slot) (more : List PublishRequest) :
    SlotOk (entries ++ more) h slot := by
  unfold SlotOk at ok ⊢
  split
  · grind
  · grind

theorem replayEntry_frame (S : Setup) (s : Broker) (req : PublishRequest) (stamp : Stamp)
    (now : Int) :
    (s.replayEntry S req stamp now).topics = s.topics ∧
      (s.replayEntry S req stamp now).wal = s.wal ∧
      (s.replayEntry S req stamp now).handlers = s.handlers := by
  unfold Broker.replayEntry
  simp only
  split
  · exact ⟨rfl, rfl, rfl⟩
  · split
    · exact ⟨rfl, rfl, rfl⟩
    · exact ⟨rfl, rfl, rfl⟩
    · exact ⟨rfl, rfl, rfl⟩

section

variable {b : Broker} {req : PublishRequest} {rest : List PublishRequest} (inv : Inv S t entries)
include inv

theorem Inv.handled {entries' : List PublishRequest} {tags : List Tag} {slots : List (Option Nat)}
    (topics : b.topics = t.broker.topics) (recovering : b.recovering = t.broker.recovering)
    (wal : b.wal = Wal.written S.json.toJsonCodec entries') (exact : ∀ e ∈ entries', S.json.exact e)
    (tagged : Forall₂ (Justified S t.broker.topics) entries' tags)
    (held : Forall₂ (SlotOk entries') b.handlers slots)
    (fewer : b.handlers.length ≤ t.broker.handlers.length) :
    Inv S { t with broker := b, tags := tags, slots := slots } entries' where
  wal := wal
  exact := exact
  tagged := by
    simp [topics, tagged]
  slots := held
  idle := by
    show b.recovering.isSome = true → b.handlers = []
    rw [recovering]
    intro serving
    rw [inv.idle serving] at fewer
    exact length_eq_zero_iff.mp (Nat.le_zero.mp fewer)
  left := by
    show ∀ rest, b.recovering = some rest → Forall₂ (Justified S b.topics) rest t.left
    grind [left]
  clean := inv.clean

theorem Inv.move (at_i : t.broker.handlers[i]? = some h) (same : h'.entry = h.entry)
    (handlers : b.handlers = t.broker.handlers.set i h') (wal : b.wal = t.broker.wal)
    (topics : b.topics = t.broker.topics) (recovering : b.recovering = t.broker.recovering) :
    Inv S { t with broker := b } entries := by
  obtain ⟨slot, held, ok⟩ := forall₂_getElem inv.slots at_i
  refine inv.handled topics recovering (wal.trans inv.wal) inv.exact inv.tagged ?_
    (by simp [handlers])
  rw [handlers, ← set_getElem_self held]
  exact forall₂_set inv.slots at_i fun slot' held' ok' => by grind [SlotOk.entry_eq]

theorem Inv.settle (at_i : t.broker.handlers[i]? = some h) (entry : h.entry = some req)
    (done : h'.entry = none) {tag : Tag} (justified : Justified S t.broker.topics req tag)
    (handlers : b.handlers = t.broker.handlers.set i h') (wal : b.wal = t.broker.wal)
    (topics : b.topics = t.broker.topics) (recovering : b.recovering = t.broker.recovering) :
    Inv S { t.settle i tag with broker := b } entries := by
  obtain ⟨slot, held, ok⟩ := forall₂_getElem inv.slots at_i
  unfold SlotOk at ok
  rw [entry] at ok
  obtain ⟨k, rfl, known⟩ := ok
  have settled : t.settle i tag =
      { t with tags := t.tags.set k tag, slots := t.slots.set i none } := by
    rw [Traced.settle, held]
  rw [settled]
  refine inv.handled topics recovering (wal.trans inv.wal) inv.exact ?_ ?_ (by simp [handlers])
  · rw [← set_getElem_self known]
    exact forall₂_set inv.tagged known fun _ _ _ => justified
  · rw [handlers]
    grind [forall₂_set, slots, SlotOk]

theorem Inv.leave (i : Nat) (handlers : b.handlers = t.broker.handlers.eraseIdx i)
    (wal : b.wal = t.broker.wal) (topics : b.topics = t.broker.topics)
    (recovering : b.recovering = t.broker.recovering) :
    Inv S { t with broker := b, slots := t.slots.eraseIdx i } entries := by
  refine inv.handled topics recovering (wal.trans inv.wal) inv.exact inv.tagged ?_ ?_
  · rw [handlers]
    exact forall₂_eraseIdx inv.slots i
  · grind

theorem Inv.log (at_i : t.broker.handlers[i]? = some h) (exact : S.json.exact req)
    (entry : h'.entry = some req) (handlers : b.handlers = t.broker.handlers.set i h')
    (wal : b.wal = Wal.appendRecord S.json.toJsonCodec t.broker.wal req)
    (topics : b.topics = t.broker.topics) (recovering : b.recovering = t.broker.recovering) :
    Inv S { t with
      broker := b
      tags := t.tags ++ [.pending]
      slots := t.slots.set i (some t.tags.length) } (entries ++ [req]) := by
  refine inv.handled topics recovering ?_ (forall_mem_append_singleton inv.exact exact)
    (rel_append inv.tagged (.cons trivial .nil)) ?_ (by simp [handlers])
  · rw [← Wal.appendRecord_written, ← inv.wal, ← wal]
  · rw [handlers]
    have grown : Forall₂ (SlotOk (entries ++ [req])) t.broker.handlers t.slots :=
      inv.slots.imp fun _ _ ok => ok.append [req]
    refine forall₂_set grown at_i fun _ _ _ => ?_
    unfold SlotOk
    rw [entry]
    refine ⟨t.tags.length, rfl, ?_⟩
    rw [← inv.tagged.length_eq, getElem?_concat_length]

theorem Inv.arrive (serving : t.broker.recovering = none) (client : String) (batch : Bool)
    (messages : List PublishRequest) :
    Inv S { t with
      broker := { t.broker with
        handlers := t.broker.handlers ++ [⟨client, batch, [], messages, .ready⟩] }
      slots := t.slots ++ [none] } entries where
  wal := inv.wal
  exact := inv.exact
  tagged := inv.tagged
  slots := rel_append inv.slots (.cons rfl .nil)
  idle := by
    simp [serving]
  left := inv.left
  clean := inv.clean

theorem Inv.create {name : String} (new : t.broker.topics name = none) (cfg : TopicConfig) :
    Inv S { t with
      broker := { t.broker with
        topics := Function.update t.broker.topics name (some cfg) } } entries where
  wal := inv.wal
  exact := inv.exact
  tagged := inv.tagged.imp fun _ _ justified => justified.create new cfg
  slots := inv.slots
  idle := inv.idle
  left rest recovering := (inv.left rest recovering).imp fun _ _ justified =>
    justified.create new cfg
  clean := inv.clean

theorem Inv.crash (count : t.broker.wal.nextOffset ≤ 2 ^ 63) (producerID : String) :
    Inv S { t with broker := t.broker.crash S producerID, slots := [], left := t.tags }
      entries := by
  have count : (entries.length : Int) ≤ 2 ^ 63 := by
    rw [← Wal.written_nextOffset S.json.toJsonCodec, ← inv.wal]
    exact count
  refine ⟨?_, inv.exact, inv.tagged, .nil, fun _ => rfl, ?_, inv.clean⟩
  · show (Wal.openFile t.broker.wal.file).1 = _
    rw [inv.wal, Wal.openFile_written inv.exact count]
  · intro rest recovering
    have all : Wal.storedRecords S.json.toJsonCodec t.broker.wal = rest :=
      some.inj recovering
    rw [inv.wal, Wal.storedRecords_written inv.exact count] at all
    rw [← all]
    exact inv.tagged

theorem Inv.unwritten (recovering : t.broker.recovering = some (req :: rest)) {stamp : Stamp}
    {now : Int} (unopened : Unopened t (.replay stamp now)) {tag : Tag}
    (next : t.left.head? = some tag) (down : tag.turnedDown = true) :
    replayWrites S t.broker req stamp = false := by
  have left := inv.left _ recovering
  cases tags : t.left with
  | nil =>
    rw [tags] at left
    cases left
  | cons first later =>
    rw [tags] at left next
    obtain rfl : first = tag := some.inj next
    obtain ⟨justified, -⟩ := forall₂_cons.mp left
    refine replayWrites_justified down justified fun unknown => ?_
    have head : t.left.head? = some (.rejected .topicNotFound) := by
      rw [tags, unknown]
      rfl
    exact unopened head _ recovering req rfl

theorem Inv.replay (recovering : t.broker.recovering = some (req :: rest)) {stamp : Stamp}
    {now : Int} (unopened : Unopened t (.replay stamp now)) :
    Inv S (t.track S { t.broker.replayEntry S req stamp now with recovering := some rest }
      (.replay stamp now)) entries := by
  obtain ⟨topics, wal, handlers⟩ := replayEntry_frame S t.broker req stamp now
  have left := inv.left _ recovering
  cases tags : t.left with
  | nil =>
    rw [tags] at left
    cases left
  | cons tag later =>
    rw [tags] at left
    obtain ⟨-, left⟩ := forall₂_cons.mp left
    have untraced : (tag.turnedDown && replayWrites S t.broker req stamp) = false := by
      rw [Bool.and_eq_false_iff]
      cases down : tag.turnedDown with
      | false => exact .inl rfl
      | true => exact .inr (inv.unwritten recovering unopened (by rw [tags]; rfl) down)
    have tracked : t.track S { t.broker.replayEntry S req stamp now with recovering := some rest }
        (.replay stamp now) =
        { t with
          broker := { t.broker.replayEntry S req stamp now with recovering := some rest }
          left := later } := by
      simp only [Traced.track, recovering, tags, untraced, Bool.false_eq_true, if_false]
    rw [tracked]
    refine ⟨wal.trans inv.wal, inv.exact, ?_, ?_, ?_, ?_, inv.clean⟩
    · show Forall₂ (Justified S (t.broker.replayEntry S req stamp now).topics) _ _
      rw [topics]
      exact inv.tagged
    · show Forall₂ _ (t.broker.replayEntry S req stamp now).handlers _
      rw [handlers]
      exact inv.slots
    · intro _
      show (t.broker.replayEntry S req stamp now).handlers = []
      grind [idle]
    simp [topics, left]

theorem Inv.serve (recovering : t.broker.recovering = some []) :
    Inv S { t with
      broker := { t.broker with wal := Wal.truncate t.broker.wal [], recovering := none }
      tags := [] } [] := by
  have idle := inv.idle (by rw [recovering]; rfl)
  have slots := inv.slots
  rw [idle] at slots
  have empty : t.slots = [] := forall₂_nil_left_iff.mp slots
  refine ⟨rfl, by simp, .nil, ?_, nofun, nofun, inv.clean⟩
  show Forall₂ _ t.broker.handlers t.slots
  rw [idle, empty]
  exact .nil

end

/-! ## Runs -/

theorem inv_handlerStep {e : Event} {b : Broker} (inv : Inv S t entries)
    (at_i : t.broker.handlers[i]? = some h) (index : e.handler = some i)
    (representable : Representable S t e) (taken : handlerStep S t.broker i h e = some b) :
    ∃ entries', Inv S (t.track S b e) entries' := by
  revert taken
  fun_cases handlerStep S t.broker i h e with
  | case1 j refusable =>
    cases index
    rintro ⟨⟩
    exact ⟨_, inv.leave i rfl rfl rfl rfl⟩
  | case3 j req rest ready todo assigned =>
    rintro ⟨⟩
    have none : ({ h with phase := .assigned (assigned.1.getD 0) } : Handler).entry = h.entry := by
      unfold Handler.entry
      rw [ready]
    exact ⟨_, inv.move at_i none rfl rfl rfl rfl⟩
  | case6 j req rest part assigned todo free =>
    rintro ⟨⟩
    have none : ({ h with
        todo := t.broker.capture req part :: rest
        phase := .captured part } : Handler).entry = h.entry := by
      unfold Handler.entry
      rw [assigned]
    exact ⟨_, inv.move at_i none rfl rfl rfl rfl⟩
  | case8 j req rest part captured todo =>
    cases index
    rintro ⟨⟩
    have head : req ∈ h.todo.head? := by simp [todo]
    have entry : ({ h with phase := .logged part } : Handler).entry = some req := head
    exact ⟨_, inv.log at_i (representable h at_i req head) entry rfl rfl rfl rfl⟩
  | case10 j stamp req rest part logged todo prepared =>
    cases index
    rintro ⟨⟩
    have entry : h.entry = some req := by simp [Handler.entry, todo, logged]
    have decided : outcome S t.broker i stamp = some prepared.1 := by
      rw [outcome, at_i, bind_some, todo]
      rfl
    simp only [Traced.track, decided]
    cases result : prepared.1 with
    | failed error =>
      exact ⟨_, inv.settle at_i entry rfl (prepare_failed result) rfl rfl rfl rfl⟩
    | duplicate answer =>
      have published : Justified S t.broker.topics req .published := trivial
      exact ⟨_, inv.settle at_i entry rfl published rfl rfl rfl rfl⟩
    | write partID msg =>
      have same : ({ h with phase := .producing part partID msg } : Handler).entry = h.entry := by
        rw [entry]
        unfold Handler.entry
        rw [todo]
        rfl
      exact ⟨_, inv.move at_i same rfl rfl rfl rfl⟩
  | case12 j now req rest part partID msg producing todo written =>
    cases index
    rintro ⟨⟩
    have entry : h.entry = some req := by simp [Handler.entry, todo, producing]
    have published : Justified S t.broker.topics req .published := trivial
    exact ⟨_, inv.settle at_i entry rfl published rfl rfl rfl rfl⟩
  | case14 j quorum | case15 j quorum =>
    cases index
    rintro ⟨⟩
    exact ⟨_, inv.leave i rfl rfl rfl rfl⟩
  | _ => rintro ⟨⟩

theorem inv_step {e : Event} {t' : Traced} (inv : Inv S t entries) (allowed : Allowed S t e)
    (traced : step S t e = some t') : ∃ entries', Inv S t' entries' := by
  obtain ⟨b, taken, rfl⟩ := map_eq_some_iff.mp traced
  obtain ⟨unopened, representable⟩ := allowed
  revert taken
  fun_cases Publish.step S t.broker e with
  | case2 | case5 =>
    rintro ⟨⟩
    exact ⟨_, inv⟩
  | case3 name cfg serving new =>
    rintro ⟨⟩
    exact ⟨_, inv.create (by simpa using new) cfg⟩
  | case6 key serving new =>
    rintro ⟨⟩
    exact ⟨entries, { inv with }⟩
  -- a request that gets no handler
  | case8 | case11 | case12 =>
    rintro ⟨⟩
    simp only [Traced.track, lt_irrefl, if_false]
    exact ⟨_, inv⟩
  | case9 client req serving | case13 client serving first rest =>
    rintro ⟨⟩
    simp only [Traced.track, length_append, length_singleton, Nat.lt_succ_self, if_true]
    exact ⟨_, inv.arrive (by simpa using serving) client _ _⟩
  | case14 producerID =>
    rintro ⟨⟩
    exact ⟨_, inv.crash representable producerID⟩
  | case15 stamp now req rest recovering =>
    rintro ⟨⟩
    exact ⟨_, inv.replay recovering unopened⟩
  | case17 recovering =>
    rintro ⟨⟩
    exact ⟨_, inv.serve recovering⟩
  | case21 e _ _ _ _ _ _ _ i acts h at_i =>
    exact inv_handlerStep inv at_i acts representable
  | _ => rintro ⟨⟩

theorem inv_reached {producerID : String}
    (reached : Reaches (step S) (Allowed S) (boot S producerID) t) : ∃ entries, Inv S t entries := by
  induction reached with
  | init => exact ⟨_, inv_boot S producerID⟩
  | step before allowed taken ih =>
    obtain ⟨entries, inv⟩ := ih
    exact inv_step inv allowed taken

/-- **Rejected publishes leave no trace**, in every run with any requests side by side and
any number of restarts, in which an entry whose topic was unknown is replayed only while
the topic is still unknown: no message that was turned down has been appended to a log,
and the replay of its entry leaves every log as it is. -/
theorem rejected_leaves_no_trace {producerID : String}
    (reached : Reaches (step S) (Allowed S) (boot S producerID) t) :
    t.traces = [] ∧
      ∀ stamp now t' tag, Allowed S t (.replay stamp now) → step S t (.replay stamp now) = some t' →
        t.left.head? = some tag → tag.turnedDown = true → t'.broker.logs = t.broker.logs := by
  obtain ⟨entries, inv⟩ := inv_reached reached
  refine ⟨inv.clean, ?_⟩
  intro stamp now t' tag allowed traced next down
  obtain ⟨b, taken, rfl⟩ := map_eq_some_iff.mp traced
  simp only [Publish.step] at taken
  split at taken
  · rename_i req rest recovering
    cases taken
    have kept := replayEntry_logs (inv.unwritten recovering allowed.1 next down) now
    grind [Traced.track]
  · cases taken

end

/-! ## Runs on one topic -/

section Samples

/-- A message that is turned down, from its arrival to its reply. -/
def sampleRejected (req : PublishRequest) : List Event :=
  [.publish "c" req, .assign 0, .capture 0, .log 0, .produce 0 sampleStamp, .reply 0 true]

/-- A message for an unknown topic and a restart; then the topic is created, a message
with an unsupported mode is turned down and another one is published, and the broker
restarts again. -/
def sampleKept : List Event :=
  [sampleRejected (sampleRequest [107] 1 0 0), sampleRestart 1, [sampleTopic 1 Nat.one_pos],
    sampleRejected (sampleRequest [107] 9 0 0), samplePublish (sampleRequest [107] 1 0 0),
    sampleRestart 2].flatten

theorem rejected_leaves_no_trace_sample :
    ∃ t, Reaches (step sampleSetup) (Allowed sampleSetup) (boot sampleSetup "p") t ∧
      t.broker.acks.length = 1 ∧ t.broker.recovering = none ∧ t.traces = [] :=
  Reaches.exists_run_of (P := fun t => t.broker.acks.length = 1 ∧ t.broker.recovering = none)
    sampleKept (by decide +kernel) fun _ reached shown =>
      ⟨shown.1, shown.2, (rejected_leaves_no_trace reached).1⟩

/-- The topic is created between the error and the restart. -/
def sampleReopened : List Event :=
  [sampleRejected (sampleRequest [107] 1 0 0), [sampleTopic 1 Nat.one_pos],
    sampleRestart 1].flatten

/-- **A rejected message appears.**  Nothing was acknowledged, and the partition holds the
message that was answered with an error. -/
theorem rejected_appears :
    (runAll (step sampleSetup) (fun _ _ => True) (boot sampleSetup "p") sampleReopened).map
      (fun t => (t.traces, t.broker.acks,
        (t.broker.contents sampleSetup ⟨"t", 0⟩).toOption.map (List.map Message.payload))) =
      some ([sampleRequest [107] 1 0 0], [], some [[9]]) := by
  decide +kernel

end Samples

end PubsubBroker.Publish.Rejection
