/-
# Publish.Recovery — acknowledged messages survive a crash

The runs of `Publish.Broker` in which every request has one possible partition
and nothing is compressed, no recorded sequence number is published again, and no
publish ends without a quorum (`Orderly`).  In these runs the WAL entry of a
message names the place the message will have in its partition's log, and the
entries are intents in the sense of `Theory.Ledger`: an entry is settled once its
log has grown past its target, and until then the handler that made it, or the
request that was interrupted, answers for it.

The claims of the ledger are the acknowledged results, the results handlers have
yet to report, and the results of interrupted requests.  `Inv` is the invariant,
`inv_step` the step lemma, and `publish_recovers` says what it means for a
restarted broker.

The conditions are needed: `publish_unrecovered` shows a keyless message on two
partitions, a repeated sequence number and a compressed message, each acknowledged
once before a crash.
-/
import PubsubBroker.Publish.Broker
import PubsubBroker.Theory.Ledger

namespace PubsubBroker.Publish

open Theory List
open Storage (Message Codecs PartitionLog Writable ReadError)

/-! ## What is claimed -/

/-- A request and the result it got. -/
abbrev Claim := PublishRequest × PublishResult

def Claim.place (c : Claim) : Place PartitionId := ⟨⟨c.1.topic, c.2.partition⟩, c.2.offset.toNat⟩

def Ack.claim (a : Ack) : Claim := (a.request, a.result)

/-- The record of a claim: the message that was published, under the id, the
partition and the offset that were returned. -/
structure Carries (c : Claim) (msg : Message) : Prop where
  id : msg.id = c.2.messageID
  partition : msg.partition = c.2.partition
  offset : msg.offset = c.2.offset
  topic : msg.topic = c.1.topic
  key : msg.key = c.1.key
  payload : msg.payload = c.1.payload
  headers : msg.headers = c.1.headers

/-- Everything a consumer can read from a partition. -/
def Broker.contents (S : Setup) (s : Broker) (p : PartitionId) : Except ReadError (List Message) :=
  (s.logs p).read S.codecs 0 (s.logs p).nextOffset

/-- The record a consumer reads at a place. -/
def Broker.Stored (S : Setup) (s : Broker) (place : Place PartitionId) (msg : Message) : Prop :=
  ∃ msgs, s.contents S place.log = .ok msgs ∧ msgs[place.index]? = some msg

/-- **What a restart has to bring back.**  Every partition is readable up to its
next offset; every acknowledged result is there; and every other record belongs
to a request that was in flight at a crash, at most one to each. -/
structure Recovered (S : Setup) (s : Broker) : Prop where
  readable : ∀ p, ∃ msgs, s.contents S p = .ok msgs ∧ (s.logs p).nextOffset = msgs.length ∧
    ∀ (n : Nat) (msg : Message), msgs[n]? = some msg → msg.offset = n
  acknowledged : ∀ a ∈ s.acks, ∃ msg, s.Stored S a.claim.place msg ∧ Carries a.claim msg
  accounted : ∃ fates : List Fate, fates.map Prod.fst = s.interrupted ∧
    ∀ place msg, s.Stored S place msg →
      (∃ a ∈ s.acks, a.claim.place = place ∧ Carries a.claim msg) ∨
      ∃ claim ∈ placed fates, Claim.place claim = place ∧ Carries claim msg

/-! ## The conditions -/

/-- The steps that keep the WAL and the logs together. -/
def Orderly (s : Broker) : Event → Prop
  | .publish _ req => Plain s.topics req
  | .batchPublish _ messages => ∀ req ∈ messages, Plain s.topics req
  | .produce i _ =>
    ∀ h ∈ s.handlers[i]?, ∀ req ∈ h.todo.head?,
      req.deliveryMode = exactlyOnce → ¬ s.producer.Recorded req.seqNum
  | .reply _ quorum => quorum = true
  | _ => True

/-- There is a next offset for one more record. -/
def Broker.Room (s : Broker) (req : PublishRequest) : Prop :=
  (s.logs (home s.topics req)).nextOffset < 2 ^ 63 - 1
deriving Decidable

/-- What the formats can represent: requests and messages that JSON represents,
keys below 64 KiB, `int64` clock readings and offsets. -/
def Representable (S : Setup) (s : Broker) : Event → Prop
  | .publish _ req => S.json.exact req
  | .batchPublish _ messages => ∀ req ∈ messages, S.json.exact req
  | .produce i stamp =>
    ∀ h ∈ s.handlers[i]?, ∀ req ∈ h.todo.head?,
      Writable S.codecs (newMessage req stamp (home s.topics req).partition)
  | .append i now => IsInt64 now ∧ ∀ h ∈ s.handlers[i]?, ∀ req ∈ h.todo.head?, s.Room req
  | .replay stamp now =>
    IsInt64 now ∧ ∀ rest ∈ s.recovering, ∀ req ∈ rest.head?,
      s.Room req ∧ Writable S.codecs (newMessage req stamp (home s.topics req).partition)
  | .crash _ => s.wal.nextOffset ≤ 2 ^ 63
  | _ => True

def Allowed (S : Setup) (s : Broker) (e : Event) : Prop := Orderly s e ∧ Representable S s e

instance (s : Broker) : (e : Event) → Decidable (Orderly s e) := by
  rintro (_ | _) <;> unfold Orderly <;> infer_instance

instance (S : Setup) [DecidablePred S.json.exact] [DecidablePred (Writable S.codecs)] (s : Broker) :
    (e : Event) → Decidable (Representable S s e) := by
  rintro (_ | _) <;> unfold Representable <;> infer_instance

instance (S : Setup) [DecidablePred S.json.exact] [DecidablePred (Writable S.codecs)] (s : Broker)
    (e : Event) : Decidable (Allowed S s e) :=
  inferInstanceAs (Decidable (_ ∧ _))

/-! ## The invariant -/

/-- The WAL entry a handler is working on. -/
def Handler.entry (h : Handler) : Option PublishRequest :=
  match h.phase with
  | .logged _ => h.todo.head?
  | .producing _ _ _ => h.todo.head?
  | _ => none

/-- Someone who may still write the record of an entry. -/
def Owned (handlers : List Handler) (fates : List Fate) (e : PublishRequest) : Prop :=
  (∃ h ∈ handlers, h.entry = some e) ∨ (e, none) ∈ fates

/-- The target is the end of the home partition's log. -/
def Targeted (topics : Topics) (view : PartitionId → List Message) (req : PublishRequest) : Prop :=
  req.targetOffset = some ((view (home topics req)).length : Int)

/-- What a phase says about the current message. -/
def Phase.Ok (K : Codecs) (topics : Topics) (view : PartitionId → List Message)
    (req : PublishRequest) : Phase → Prop
  | .ready => True
  | .assigned part => part = (home topics req).partition
  | .captured part => part = (home topics req).partition ∧ Targeted topics view req
  | .logged part => part = (home topics req).partition ∧ Targeted topics view req
  | .producing part partID msg =>
    part = (home topics req).partition ∧ partID = part ∧ Targeted topics view req ∧
      Writable K msg ∧ ∃ stamp, msg = newMessage req stamp partID

structure Handler.Ok (S : Setup) (topics : Topics) (view : PartitionId → List Message)
    (h : Handler) : Prop where
  plain : ∀ req ∈ h.todo, Plain topics req
  exact : ∀ req ∈ h.todo, S.json.exact req
  phase : ∀ req ∈ h.todo.head?, h.phase.Ok S.codecs topics view req

/-- The claims on the records. -/
def Broker.claims (s : Broker) (fates : List Fate) : List Claim :=
  s.acks.map Ack.claim ++ (placed (s.handlers.flatMap Handler.done) ++ placed fates)

/-- `entries` are the records of the WAL, `view` the messages of the logs, and
`fates` what became of the interrupted requests. -/
structure Inv (S : Setup) (s : Broker) (entries : List PublishRequest)
    (view : PartitionId → List Message) (fates : List Fate) : Prop where
  dense : ∀ p, PartitionLog.Dense S.codecs (s.logs p) (view p)
  small : ∀ p, ((view p).length : Int) < 2 ^ 63
  wal : s.wal = Wal.written S.json.toJsonCodec entries
  exact : ∀ e ∈ entries, S.json.exact e
  plain : ∀ e ∈ entries, Plain s.topics e
  answered : ∀ e ∈ entries, ∃ target : Nat, e.targetOffset = some (target : Int) ∧
    Answered view (home s.topics e) target (Refused e ∨ Owned s.handlers fates e)
  handlers : ∀ h ∈ s.handlers, h.Ok S s.topics view
  locks : (s.handlers.filterMap Handler.lock).Nodup
  ledger : Ledger Claim.place Carries view (s.claims fates)
  interrupted : fates.map Prod.fst = s.interrupted
  recovering : ∀ rest, s.recovering = some rest → s.handlers = [] ∧ ∀ e ∈ rest, e ∈ entries

/-! ## Pools of handlers -/

section Pool

variable {pool : List Handler} {i : Nat} {h h' : Handler} {fates : List Fate}

theorem placed_append (left right : List Fate) : placed (left ++ right) = placed left ++ placed right :=
  filterMap_append

theorem locks_erase (nodup : (pool.filterMap Handler.lock).Nodup) (i : Nat) :
    ((pool.eraseIdx i).filterMap Handler.lock).Nodup :=
  nodup.sublist ((eraseIdx_sublist pool i).filterMap _)

variable (at_i : pool[i]? = some h)
include at_i

theorem mem_placed_set (more : List Fate) (done : h'.done = h.done ++ more) (c : Claim) :
    c ∈ placed ((pool.set i h').flatMap Handler.done) ↔
      c ∈ placed more ∨ c ∈ placed (pool.flatMap Handler.done) := by
  obtain ⟨before, after, split, -, set⟩ := pool_split at_i
  rw [set, split]
  simp only [flatMap_append, flatMap_cons, placed_append, mem_append, done]
  tauto

theorem mem_placed_erase (c : Claim) :
    c ∈ placed (pool.flatMap Handler.done) ↔
      c ∈ placed h.done ∨ c ∈ placed ((pool.eraseIdx i).flatMap Handler.done) := by
  obtain ⟨before, after, split, erased, -⟩ := pool_split at_i
  rw [erased, split]
  simp only [flatMap_append, flatMap_cons, placed_append, mem_append]
  tauto

theorem Owned.erase {e : PublishRequest} (owned : Owned pool fates e) :
    h.entry = some e ∨ Owned (pool.eraseIdx i) fates e := by
  rcases owned with ⟨g, mem, entry⟩ | waiting
  · rcases (mem_iff_eraseIdx at_i).mp mem with rfl | mem
    · exact .inl entry
    · exact .inr (.inl ⟨g, mem, entry⟩)
  · exact .inr (.inr waiting)

theorem Owned.set {e : PublishRequest} (owned : Owned pool fates e) :
    h.entry = some e ∨ Owned (pool.set i h') fates e := by
  rcases owned.erase at_i with here | ⟨g, mem, entry⟩ | waiting
  · exact .inl here
  · exact .inr (.inl ⟨g, (mem_set_iff_eraseIdx at_i).mpr (.inr mem), entry⟩)
  · exact .inr (.inr waiting)

theorem owned_set_self {e : PublishRequest} (entry : h'.entry = some e) :
    Owned (pool.set i h') fates e :=
  .inl ⟨h', mem_set_self at_i, entry⟩

variable (nodup : (pool.filterMap Handler.lock).Nodup)
include nodup

theorem locks_set (kept : h'.lock = none ∨ h'.lock = h.lock) :
    ((pool.set i h').filterMap Handler.lock).Nodup := by
  obtain ⟨before, after, split, erased, set⟩ := pool_split at_i
  cases kept with
  | inl free =>
    have same : (pool.set i h').filterMap Handler.lock =
        (pool.eraseIdx i).filterMap Handler.lock := by
      rw [set, erased, filterMap_append, filterMap_append, filterMap_cons, free]
    rw [same]
    exact locks_erase nodup i
  | inr same => grind

theorem locks_acquire {p : PartitionId} (held : h'.lock = some p)
    (free : p ∉ pool.filterMap Handler.lock) : ((pool.set i h').filterMap Handler.lock).Nodup := by
  obtain ⟨before, after, split, erased, set⟩ := pool_split at_i
  have rest : ((before ++ after).filterMap Handler.lock).Nodup := erased ▸ locks_erase nodup i
  have fewer : (before ++ after).filterMap Handler.lock ⊆ pool.filterMap Handler.lock :=
    ((erased ▸ eraseIdx_sublist pool i).filterMap _).subset
  rw [set, filterMap_append, filterMap_cons, held]
  rw [filterMap_append] at rest fewer
  refine nodup_middle.mpr (nodup_cons.mpr ⟨?_, rest⟩)
  intro mem
  exact free (fewer mem)

theorem locks_unique {p : PartitionId} (held : h.lock = some p) {g : Handler}
    (mem : g ∈ pool.eraseIdx i) : g.lock ≠ some p := by
  obtain ⟨before, after, split, erased, -⟩ := pool_split at_i
  rw [split, filterMap_append, filterMap_cons, held] at nodup
  have absent := (nodup_cons.mp (nodup_middle.mp nodup)).1
  intro other
  refine absent ?_
  rw [← filterMap_append, ← erased]
  exact mem_filterMap.mpr ⟨g, mem, other⟩

end Pool

/-! ## Steps that leave the logs alone -/

section Steps

variable {S : Setup} {s t : Broker} {entries : List PublishRequest}
  {view : PartitionId → List Message} {fates : List Fate} {i : Nat} {h h' : Handler}
  {req : PublishRequest} {rest : List PublishRequest}

theorem inv_boot (S : Setup) (limit : (Storage.segFileHeaderSize : Int) < S.segMaxBytes)
    (fits : S.segMaxBytes < 2 ^ 63) (producerID : String) :
    Inv S (boot S producerID) [] (fun _ => []) [] where
  dense _ := PartitionLog.Dense.nil S.indexEvery limit fits
  small := by simp
  wal := rfl
  exact := by simp
  plain := by simp
  answered := by simp
  handlers := by simp [boot]
  locks := by simp [boot]
  ledger := Ledger.nil
  interrupted := rfl
  recovering := by simp [boot]

theorem partitionLog_home (plain : Plain s.topics req) :
    s.partitionLog req.topic (home s.topics req).partition = some (s.logs (home s.topics req)) := by
  obtain ⟨cfg, found, range⟩ := home_range plain
  simp only [Broker.partitionLog, found, if_pos range]
  rfl

theorem Handler.lock_eq (todo : h.todo = req :: rest) :
    h.lock = h.phase.locked.map fun part => ⟨req.topic, part⟩ := by
  unfold Handler.lock
  rw [todo]

theorem Handler.lock_phase {phase : Phase} (same : phase.locked = h.phase.locked) :
    (⟨h.client, h.batch, h.done, h.todo, phase⟩ : Handler).lock = h.lock := by
  simp only [Handler.lock, same]

theorem Handler.Ok.lock_home (ok : h.Ok S s.topics view) (todo : h.todo = req :: rest) {part : Int}
    (locked : h.phase.locked = some part) : h.lock = some (home s.topics req) := by
  have phase := ok.phase req (by simp [todo])
  have part_eq : part = (home s.topics req).partition := by
    cases at_phase : h.phase with
    | ready | assigned part' => rw [at_phase] at locked; cases locked
    | _ => rw [at_phase] at locked phase; cases locked; exact phase.1
  rw [Handler.lock_eq todo, locked, part_eq]
  rfl

theorem Handler.Ok.finish (ok : h.Ok S s.topics view) (todo : h.todo = req :: rest)
    (result : Option PublishResult) (view' : PartitionId → List Message) :
    (h.finish req rest result).Ok S s.topics view' where
  plain req' mem := ok.plain req' (by rw [todo]; exact mem_cons_of_mem _ mem)
  exact req' mem := ok.exact req' (by rw [todo]; exact mem_cons_of_mem _ mem)
  phase _ _ := trivial

theorem Handler.finish_lock (result : Option PublishResult) :
    (h.finish req rest result).lock = none := by
  unfold Handler.lock Handler.finish
  cases rest <;> rfl

theorem Handler.entry_logged (todo : h.todo = req :: rest) {part : Int}
    (locked : h.phase = .logged part ∨ ∃ partID msg, h.phase = .producing part partID msg) :
    h.entry = some req := by
  rcases locked with at_phase | ⟨partID, msg, at_phase⟩ <;> simp [Handler.entry, at_phase, todo]

section

variable (inv : Inv S s entries view fates)
include inv

theorem Inv.capture_eq (plain : Plain s.topics req) :
    s.capture req (home s.topics req).partition =
      req.withTarget (view (home s.topics req)).length := by
  simp only [Broker.capture, partitionLog_home plain, (inv.dense (home s.topics req)).next]

variable (at_i : s.handlers[i]? = some h)
include at_i

/-- While a handler is at work the broker is not recovering. -/
theorem Inv.serving (rest : List PublishRequest) : s.recovering ≠ some rest := by
  grind [recovering]

theorem Inv.handler : h.Ok S s.topics view :=
  inv.handlers h (mem_of_getElem? at_i)

theorem Inv.move (more : List Fate) (ok : h'.Ok S s.topics view)
    (locks : ((s.handlers.set i h').filterMap Handler.lock).Nodup) (done : h'.done = h.done ++ more)
    (noResult : placed more = []) (entry : ∀ e, h.entry = some e → Refused e ∨ h'.entry = some e)
    (counters : Counters) :
    Inv S { s with counters := counters, handlers := s.handlers.set i h' } entries view fates where
  dense := inv.dense
  small := inv.small
  wal := inv.wal
  exact := inv.exact
  plain := inv.plain
  answered := by
    intro e mem
    obtain ⟨target, eq, answered⟩ := inv.answered e mem
    refine ⟨target, eq, answered.mono ?_⟩
    rintro (refused | owned)
    · exact .inl refused
    grind [Owned.set, owned_set_self]
  handlers := by
    grind [handlers]
  locks := locks
  ledger := by
    refine inv.ledger.congr fun c => ?_
    simp only [Broker.claims, mem_append, mem_placed_set at_i more done, noResult,
      not_mem_nil, false_or]
  interrupted := inv.interrupted
  recovering := fun rest recovering => absurd recovering (inv.serving at_i rest)

theorem Inv.leave (noEntry : h.entry = none) (acks : List Ack)
    (acked : acks.map Ack.claim = placed h.done) (dispatched : List Dispatch) :
    Inv S { s with
      handlers := s.handlers.eraseIdx i
      acks := s.acks ++ acks
      dispatched := dispatched } entries view fates where
  dense := inv.dense
  small := inv.small
  wal := inv.wal
  exact := inv.exact
  plain := inv.plain
  answered := by
    intro e mem
    obtain ⟨target, eq, answered⟩ := inv.answered e mem
    refine ⟨target, eq, answered.mono ?_⟩
    rintro (refused | owned)
    · exact .inl refused
    · rcases owned.erase at_i with here | owned
      · rw [noEntry] at here
        cases here
      · exact .inr owned
  handlers g mem := inv.handlers g (mem_of_mem_eraseIdx mem)
  locks := locks_erase inv.locks i
  ledger := by
    refine inv.ledger.congr fun c => ?_
    grind [Broker.claims, mem_placed_erase]
  interrupted := inv.interrupted
  recovering := fun rest recovering => absurd recovering (inv.serving at_i rest)

variable (todo : h.todo = req :: rest)
include todo

theorem Inv.assign (ready : h.phase = .ready) :
    Inv S { s with
      counters := (Publish.assign s.topics s.counters req.topic req.key).2
      handlers := s.handlers.set i { h with
        phase := .assigned ((Publish.assign s.topics s.counters req.topic req.key).1.getD 0) } }
      entries view fates := by
  have ok := inv.handler at_i
  have plain := ok.plain req (by simp [todo])
  rw [assign_plain plain s.counters]
  have free : ∀ part, (⟨h.client, h.batch, h.done, h.todo, .assigned part⟩ : Handler).lock =
      none := by
    intro part
    unfold Handler.lock
    split <;> rfl
  refine inv.move at_i [] ⟨?_, ?_, ?_⟩ (locks_set at_i inv.locks ?_) ?_ rfl ?_ _
  · exact ok.plain
  · exact ok.exact
  · intro req' head
    rw [todo] at head
    cases head
    rfl
  · exact .inl (free _)
  · exact (append_nil _).symm
  · simp [Handler.entry, ready]

theorem Inv.capture {part : Int} (assigned : h.phase = .assigned part)
    (unlocked : s.locked ⟨req.topic, part⟩ = false) :
    Inv S { s with
      handlers := s.handlers.set i
        { h with todo := s.capture req part :: rest, phase := .captured part } }
      entries view fates := by
  have ok := inv.handler at_i
  have plain := ok.plain req (by simp [todo])
  have here : part = (home s.topics req).partition := by
    have := ok.phase req (by simp [todo])
    rwa [assigned] at this
  subst here
  have fits : IsInt64 ((view (home s.topics req)).length : Int) := by
    have := inv.small (home s.topics req)
    constructor <;> omega
  rw [inv.capture_eq plain]
  refine inv.move at_i [] ⟨?_, ?_, ?_⟩ ?_ ?_ rfl ?_ s.counters
  · intro req' mem
    rcases mem_cons.mp mem with rfl | later
    · exact plain
    grind [Handler.Ok.plain]
  · intro req' mem
    rcases mem_cons.mp mem with rfl | later
    · exact S.json.exact_withTarget req _ fits (ok.exact req (by simp [todo]))
    grind [Handler.Ok.exact]
  · intro req' head
    cases head
    exact ⟨rfl, rfl⟩
  · refine locks_acquire (p := ⟨req.topic, _⟩) at_i inv.locks rfl ?_
    simpa [Broker.locked] using unlocked
  · exact (append_nil _).symm
  · simp [Handler.entry, assigned]

theorem Inv.log {part : Int} (captured : h.phase = .captured part) :
    Inv S { s with
      wal := Wal.appendRecord S.json.toJsonCodec s.wal req
      handlers := s.handlers.set i { h with phase := .logged part } }
      (entries ++ [req]) view fates := by
  have ok := inv.handler at_i
  have phase := ok.phase req (by simp [todo])
  rw [captured] at phase
  have entry : (⟨h.client, h.batch, h.done, h.todo, .logged part⟩ : Handler).entry = some req := by
    simp [Handler.entry, todo]
  have moved : Inv S { s with handlers := s.handlers.set i { h with phase := .logged part } }
      entries view fates := by
    refine inv.move at_i [] ⟨?_, ?_, ?_⟩ (locks_set at_i inv.locks (.inr ?_)) ?_ rfl ?_ s.counters
    · exact ok.plain
    · exact ok.exact
    · intro req' head
      rw [todo] at head
      cases head
      exact phase
    · exact Handler.lock_phase (by rw [captured]; rfl)
    · exact (append_nil _).symm
    · simp [Handler.entry, captured]
  refine { moved with wal := ?_, exact := ?_, plain := ?_, answered := ?_, recovering := ?_ }
  · rw [inv.wal, Wal.appendRecord_written]
  · exact forall_mem_append_singleton inv.exact (ok.exact req (by simp [todo]))
  · exact forall_mem_append_singleton inv.plain (ok.plain req (by simp [todo]))
  · apply forall_mem_append_singleton moved.answered
    exact ⟨_, phase.2, le_refl _, fun _ => .inr (owned_set_self at_i entry)⟩
  · grind [serving]

theorem Inv.produce {part : Int} (logged : h.phase = .logged part) (stamp : Stamp)
    (fresh : req.deliveryMode = exactlyOnce → ¬ s.producer.Recorded req.seqNum)
    (writable : Writable S.codecs (newMessage req stamp (home s.topics req).partition)) :
    Inv S { s with
      counters := (prepare S.compress s.topics s.counters s.producer req stamp).2
      handlers := s.handlers.set i
        (match (prepare S.compress s.topics s.counters s.producer req stamp).1 with
        | .failed _ => h.finish req rest none
        | .duplicate result => h.finish req rest (some result)
        | .write partID msg => { h with phase := .producing part partID msg }) }
      entries view fates := by
  have ok := inv.handler at_i
  have plain := ok.plain req (by simp [todo])
  have phase := ok.phase req (by simp [todo])
  rw [logged] at phase
  have entry := Handler.entry_logged todo (.inl logged)
  rw [prepare_plain plain]
  rcases byMode_cases s.producer (home s.topics req).partition
      (newMessage req stamp (home s.topics req).partition) with
    ⟨error, failed, refused⟩ | ⟨r, -, mode, recorded⟩ | write
  · rw [failed]
    refine inv.move at_i [(req, none)] (ok.finish todo none view)
      (locks_set at_i inv.locks (.inl (Handler.finish_lock none))) rfl rfl ?_ _
    simp [entry, refused]
  · exact absurd recorded (fresh mode)
  · rw [write]
    refine inv.move at_i [] ⟨?_, ?_, ?_⟩ (locks_set at_i inv.locks (.inr ?_)) ?_ rfl ?_ _
    · exact ok.plain
    · exact ok.exact
    · intro req' head
      rw [todo] at head
      cases head
      exact ⟨phase.1, phase.1.symm, phase.2, writable, stamp, rfl⟩
    · exact Handler.lock_phase (by rw [logged]; rfl)
    · exact (append_nil _).symm
    · grind [Handler.entry_logged]

end

/-! ## Steps that write -/

theorem Handler.Ok.push (ok : h.Ok S s.topics view) {p : PartitionId} (msg : Message)
    (unlocked : h.lock ≠ some p) : h.Ok S s.topics (Theory.push view p msg) where
  plain := ok.plain
  exact := ok.exact
  phase := by
    intro req head
    have todo : h.todo = req :: h.todo.tail := (cons_head?_tail head).symm
    have phase := ok.phase req head
    have elsewhere : ∀ part, h.phase.locked = some part →
        Targeted s.topics view req → Targeted s.topics (Theory.push view p msg) req := by
      intro part locked targeted
      have other : home s.topics req ≠ p := by
        rintro rfl
        exact unlocked (ok.lock_home todo locked)
      unfold Targeted
      rw [push_of_ne other]
      exact targeted
    cases at_phase : h.phase with
    | ready => trivial
    | assigned part =>
      rw [at_phase] at phase
      exact phase
    | captured part | logged part =>
      rw [at_phase] at phase elsewhere
      exact ⟨phase.1, elsewhere part rfl phase.2⟩
    | producing part partID m =>
      rw [at_phase] at phase elsewhere
      exact ⟨phase.1, phase.2.1, elsewhere part rfl phase.2.2.1, phase.2.2.2⟩

/-- The record that a plain request leaves at the end of its home partition. -/
def stored (view : PartitionId → List Message) (p : PartitionId) (req : PublishRequest)
    (stamp : Stamp) : Message :=
  (newMessage req stamp p.partition).setOffset (view p).length

/-- The result of that write. -/
def resultAt (view : PartitionId → List Message) (p : PartitionId) (stamp : Stamp) :
    PublishResult :=
  ⟨stamp.id, p.partition, (view p).length⟩

theorem stored_carries (topics : Topics) (stamp : Stamp) :
    Carries (req, resultAt view (home topics req) stamp) (stored view (home topics req) req stamp) :=
  ⟨rfl, rfl, rfl, rfl, rfl, rfl, rfl⟩

theorem place_resultAt (topics : Topics) (stamp : Stamp) :
    Claim.place (req, resultAt view (home topics req) stamp) =
      ⟨home topics req, (view (home topics req)).length⟩ := by
  simp [Claim.place, resultAt, home]

section

variable (inv : Inv S s entries view fates)
include inv

theorem Inv.write {stamp : Stamp} {now : Int}
    (writable : Writable S.codecs (newMessage req stamp (home s.topics req).partition))
    (now64 : IsInt64 now) :
    (s.write S req (home s.topics req).partition
        (newMessage req stamp (home s.topics req).partition) now).2 =
      resultAt view (home s.topics req) stamp ∧
    ∀ q, PartitionLog.Dense S.codecs ((s.write S req (home s.topics req).partition
        (newMessage req stamp (home s.topics req).partition) now).1.logs q)
      (Theory.push view (home s.topics req) (stored view (home s.topics req) req stamp) q) := by
  have dense := inv.dense (home s.topics req)
  have next64 : IsInt64 (s.logs (home s.topics req)).nextOffset := by
    have := inv.small (home s.topics req)
    rw [dense.next]
    constructor <;> omega
  obtain ⟨written, offset⟩ := dense.append writable now64 next64
  have here : (⟨req.topic, (home s.topics req).partition⟩ : PartitionId) = home s.topics req := rfl
  constructor
  · simp only [Broker.write, here, offset]
    rfl
  · intro q
    simp only [Broker.write, here]
    by_cases same : q = home s.topics req
    · rw [same, push_self, Function.update_self]
      exact written
    grind [push_of_ne, dense]

theorem small_push (room : s.Room req) (msg : Message) (q : PartitionId) :
    ((Theory.push view (home s.topics req) msg q).length : Int) < 2 ^ 63 := by
  by_cases same : q = home s.topics req
  · have next := (inv.dense (home s.topics req)).next
    grind [Broker.Room, push_self]
  · rw [push_of_ne same]
    exact inv.small q

variable (at_i : s.handlers[i]? = some h) (todo : h.todo = req :: rest)
include at_i todo

theorem Inv.append {part partID : Int} {msg : Message}
    (producing : h.phase = .producing part partID msg) {now : Int} (now64 : IsInt64 now)
    (room : s.Room req) (written : List Ack) :
    ∃ view', Inv S { (s.write S req partID msg now).1 with
      handlers := s.handlers.set i (h.finish req rest (some (s.write S req partID msg now).2))
      written := written } entries view' fates := by
  have ok := inv.handler at_i
  have locked : h.phase.locked = some part := by
    rw [producing]
    rfl
  have lock := ok.lock_home todo locked
  have entry := Handler.entry_logged todo (.inr ⟨partID, msg, producing⟩)
  have phase := ok.phase req (by simp [todo])
  rw [producing] at phase
  obtain ⟨rfl, rfl, targeted, writable, stamp, rfl⟩ := phase
  obtain ⟨result, dense⟩ := inv.write writable now64
  refine ⟨_, dense, small_push inv room _, inv.wal, inv.exact, inv.plain, ?_, ?_, ?_, ?_,
    inv.interrupted, ?_⟩
  · intro e mem
    obtain ⟨target, eq, answered⟩ := inv.answered e mem
    refine ⟨target, eq, answered.push ?_⟩
    rintro elsewhere (refused | owned)
    · exact .inl refused
    · rcases owned.set at_i with here | owned
      · grind
      · exact .inr owned
  · intro g mem
    rcases (mem_set_iff_eraseIdx at_i).mp mem with rfl | old
    · exact ok.finish todo _ _
    · exact (inv.handlers g (mem_of_mem_eraseIdx old)).push _
        (locks_unique at_i inv.locks lock old)
  · exact locks_set at_i inv.locks (.inl (Handler.finish_lock _))
  · rw [result]
    refine (inv.ledger.push (place_resultAt s.topics stamp) (stored_carries s.topics stamp)).congr ?_
    intro c
    have done : (h.finish req rest (some (resultAt view (home s.topics req) stamp))).done =
        h.done ++ [(req, some (resultAt view (home s.topics req) stamp))] := rfl
    have one : placed [(req, some (resultAt view (home s.topics req) stamp))] =
        [(req, resultAt view (home s.topics req) stamp)] := rfl
    have handed := mem_placed_set at_i _ done c
    rw [one, mem_singleton] at handed
    show _ ↔ c ∈ s.acks.map Ack.claim ++ (placed ((s.handlers.set i _).flatMap _) ++ placed fates)
    simp only [Broker.claims, mem_append, mem_cons, handed]
    rw [or_assoc]
    exact or_left_comm
  · exact fun rest recovering => absurd recovering (inv.serving at_i rest)

end

/-! ## Crashes and restarts -/

theorem placed_fates (pool : List Handler) :
    placed (pool.flatMap Handler.fates) = placed (pool.flatMap Handler.done) := by
  have one : ∀ h : Handler, placed h.fates = placed h.done := by simp [placed, Handler.fates]
  simp only [placed, filterMap_flatMap] at one ⊢
  simp only [one]

theorem Handler.mem_fates_of_entry {e : PublishRequest} (entry : h.entry = some e) :
    (e, none) ∈ h.fates := by
  have head : h.todo.head? = some e := by grind [entry]
  exact mem_append_right _ (mem_map.mpr ⟨e, mem_of_mem_head? head, rfl⟩)

section

variable (inv : Inv S s entries view fates)
include inv

theorem Inv.crash (count : s.wal.nextOffset ≤ 2 ^ 63) (producerID : String) :
    Inv S (s.crash S producerID) entries view (fates ++ s.handlers.flatMap Handler.fates) := by
  have count : (entries.length : Int) ≤ 2 ^ 63 := by
    rw [← Wal.written_nextOffset S.json.toJsonCodec, ← inv.wal]
    exact count
  refine ⟨fun p => (inv.dense p).reopen, inv.small, ?_, inv.exact, inv.plain, ?_, ?_, nodup_nil,
    ?_, ?_, ?_⟩
  · show (Wal.openFile s.wal.file).1 = _
    rw [inv.wal, Wal.openFile_written inv.exact count]
  · intro e mem
    obtain ⟨target, eq, answered⟩ := inv.answered e mem
    refine ⟨target, eq, answered.mono ?_⟩
    rintro (refused | ⟨h, held, entry⟩ | waiting)
    · exact .inl refused
    · refine .inr (.inr (mem_append_right _ ?_))
      grind [Handler.mem_fates_of_entry]
    · exact .inr (.inr (mem_append_left _ waiting))
  · intro h mem
    cases mem
  · refine inv.ledger.congr fun c => ?_
    simp only [Broker.claims, Broker.crash, mem_append, placed_append, placed_fates,
      flatMap_nil]
    show _ ↔ _ ∨ c ∈ ([] : List Claim) ∨ _
    grind
  · rw [map_append, inv.interrupted]
    rfl
  · intro rest recovering
    refine ⟨rfl, ?_⟩
    have all : Wal.storedRecords S.json.toJsonCodec s.wal = rest := Option.some.inj recovering
    rw [inv.wal, Wal.storedRecords_written inv.exact count] at all
    rw [all]
    exact fun e mem => mem

theorem Inv.alreadyWritten_eq (plain : Plain s.topics req) {target : Nat}
    (targeted : req.targetOffset = some (target : Int)) :
    (s.alreadyWritten req).1 = decide (target < (view (home s.topics req)).length) := by
  obtain ⟨cfg, found, -⟩ := home_range plain
  simp only [Broker.alreadyWritten, targeted, found, assign_plain plain, Option.getD_some,
    partitionLog_home plain, (inv.dense _).next]
  simp

theorem Inv.rewrite (idle : s.handlers = []) {stamp : Stamp} {now : Int}
    (writable : Writable S.codecs (newMessage req stamp (home s.topics req).partition))
    (now64 : IsInt64 now) (room : s.Room req) (waiting : (req, none) ∈ fates) (counters : Counters)
    (rest : List PublishRequest) (left : ∀ e ∈ rest, e ∈ entries) :
    ∃ view' fates', Inv S { (s.write S req (home s.topics req).partition
      (newMessage req stamp (home s.topics req).partition) now).1 with
        counters := counters, recovering := some rest } entries view' fates' := by
  obtain ⟨before, after, rfl⟩ := append_of_mem waiting
  obtain ⟨-, dense⟩ := inv.write writable now64
  refine ⟨_, before ++ (req, some (resultAt view (home s.topics req) stamp)) :: after, dense,
    small_push inv room _, inv.wal, inv.exact, inv.plain, ?_, ?_, inv.locks, ?_, ?_, ?_⟩
  · intro e mem
    obtain ⟨target, eq, answered⟩ := inv.answered e mem
    refine ⟨target, eq, answered.push ?_⟩
    rintro elsewhere (refused | ⟨h, held, -⟩ | other)
    · exact .inl refused
    · rw [idle] at held
      cases held
    · have different : e ≠ req := fun same => elsewhere (same ▸ rfl)
      refine .inr (.inr ?_)
      grind
  · intro h mem
    have mem : h ∈ s.handlers := mem
    rw [idle] at mem
    cases mem
  · refine (inv.ledger.push (place_resultAt s.topics stamp) (stored_carries s.topics stamp)).congr ?_
    intro c
    have one : placed ((req, some (resultAt view (home s.topics req) stamp)) :: after) =
        (req, resultAt view (home s.topics req) stamp) :: placed after := rfl
    have zero : placed ((req, none) :: after) = placed after := rfl
    show _ ↔ c ∈ s.acks.map Ack.claim ++ (placed (s.handlers.flatMap _) ++ placed _)
    grind [Broker.claims, placed_append]
  · show _ = s.interrupted
    rw [← inv.interrupted]
    simp
  · intro rest' recovering
    cases recovering
    exact ⟨idle, left⟩

theorem Inv.replay (recovering : s.recovering = some (req :: rest)) {stamp : Stamp} {now : Int}
    (writable : Writable S.codecs (newMessage req stamp (home s.topics req).partition))
    (now64 : IsInt64 now) (room : s.Room req) :
    ∃ view' fates', Inv S { s.replayEntry S req stamp now with recovering := some rest }
      entries view' fates' := by
  obtain ⟨idle, mem⟩ := inv.recovering _ recovering
  have left : ∀ e ∈ rest, e ∈ entries := fun e later => mem e (mem_cons_of_mem _ later)
  have plain := inv.plain req (mem req mem_cons_self)
  obtain ⟨target, targeted, bound, due⟩ := inv.answered req (mem req mem_cons_self)
  have skipped : ∀ counters, ∃ view' fates', Inv S
      { s with counters := counters, recovering := some rest } entries view' fates' := by
    intro counters
    refine ⟨view, fates, { inv with recovering := ?_ }⟩
    intro rest' recovering'
    cases recovering'
    exact ⟨idle, left⟩
  simp only [Broker.replayEntry, inv.alreadyWritten_eq plain targeted]
  split
  · exact skipped _
  · rename_i notPast
    have reached : target = (view (home s.topics req)).length := by grind
    rw [prepare_plain plain]
    split
    · exact skipped _
    · exact skipped _
    · rename_i partID msg prepared
      rcases due reached with refused | ⟨h, held, -⟩ | waiting
      · obtain ⟨e, failed⟩ := byMode_refused refused s.producer (home s.topics req).partition
          (newMessage req stamp (home s.topics req).partition)
        grind
      · rw [idle] at held
        cases held
      · rcases byMode_cases s.producer (home s.topics req).partition
          (newMessage req stamp (home s.topics req).partition) with
          ⟨e, failed, -⟩ | ⟨r, duplicate, -⟩ | write
        · rw [failed] at prepared
          cases prepared
        · grind
        · rw [write] at prepared
          cases prepared
          exact inv.rewrite idle writable now64 room waiting _ rest left

theorem Inv.serve :
    Inv S { s with wal := Wal.truncate s.wal [], recovering := none } [] view fates :=
  { inv with
    wal := rfl
    exact := by simp
    plain := by simp
    answered := by simp
    recovering := by simp }

end

/-! ## Requests and topics -/

theorem Plain.create {topics : Topics} {name : String} (new : topics name = none)
    (cfg : TopicConfig) (plain : Plain topics req) :
    Plain (Function.update topics name (some cfg)) req ∧
      home (Function.update topics name (some cfg)) req = home topics req := by
  obtain ⟨cfg', found, rest⟩ := plain
  have found : topics req.topic = some cfg' := found
  have other : req.topic ≠ name := by grind
  have same : Function.update topics name (some cfg) req.topic = topics req.topic :=
    Function.update_of_ne other ..
  constructor
  · exact ⟨cfg', by rw [same]; exact found, rest⟩
  · simp only [home, same]

theorem Inv.create (inv : Inv S s entries view fates) {name : String} (new : s.topics name = none)
    (cfg : TopicConfig) :
    Inv S { s with topics := Function.update s.topics name (some cfg) } entries view fates :=
  { inv with
    plain := fun e mem => ((inv.plain e mem).create new cfg).1
    answered := by
      intro e mem
      obtain ⟨target, eq, answered⟩ := inv.answered e mem
      refine ⟨target, eq, ?_⟩
      show Answered view (home (Function.update s.topics name (some cfg)) e) _ _
      rw [((inv.plain e mem).create new cfg).2]
      exact answered
    handlers := by
      intro h mem
      have ok := inv.handlers h mem
      refine ⟨fun req held => ((ok.plain req held).create new cfg).1, ok.exact, ?_⟩
      intro req head
      have phase := ok.phase req head
      have same := ((ok.plain req (mem_of_mem_head? head)).create new cfg).2
      cases at_phase : h.phase <;> rw [at_phase] at phase <;>
        simp only [Phase.Ok, Targeted, same] at phase ⊢ <;> exact phase }

theorem Inv.arrive (inv : Inv S s entries view fates) (serving : s.recovering = none)
    {messages : List PublishRequest} (plain : ∀ req ∈ messages, Plain s.topics req)
    (exact : ∀ req ∈ messages, S.json.exact req) (client : String) (batch : Bool) :
    Inv S { s with handlers := s.handlers ++ [⟨client, batch, [], messages, .ready⟩] }
      entries view fates := by
  have free : (⟨client, batch, [], messages, .ready⟩ : Handler).lock = none := by
    unfold Handler.lock
    cases messages <;> rfl
  refine { inv with answered := ?_, handlers := ?_, locks := ?_, ledger := ?_, recovering := ?_ }
  · intro e mem
    obtain ⟨target, eq, answered⟩ := inv.answered e mem
    refine ⟨target, eq, answered.mono ?_⟩
    rintro (refused | ⟨h, held, entry⟩ | waiting)
    · exact .inl refused
    · exact .inr (.inl ⟨h, mem_append_left _ held, entry⟩)
    · exact .inr (.inr waiting)
  · exact forall_mem_append_singleton inv.handlers ⟨plain, exact, fun _ _ => trivial⟩
  · have same : (s.handlers ++ [(⟨client, batch, [], messages, .ready⟩ : Handler)]).filterMap
        Handler.lock = s.handlers.filterMap Handler.lock := by
      rw [filterMap_append, filterMap_cons, free, filterMap_nil, append_nil]
    rw [same]
    exact inv.locks
  · refine inv.ledger.congr fun c => ?_
    simp [Broker.claims]
  · simp [serving]

/-! ## Runs -/

theorem Handler.refusable_spec (refusable : h.refusable = true) :
    h.done = [] ∧ h.entry = none := by
  unfold Handler.refusable at refusable
  rw [Bool.and_eq_true, List.isEmpty_iff] at refusable
  refine ⟨refusable.1, ?_⟩
  unfold Handler.entry
  cases at_phase : h.phase <;> simp [at_phase] at refusable ⊢

theorem inv_handlerStep {e : Event} (inv : Inv S s entries view fates)
    (at_i : s.handlers[i]? = some h) (index : e.handler = some i) (allowed : Allowed S s e)
    (taken : handlerStep S s i h e = some t) :
    ∃ entries' view' fates', Inv S t entries' view' fates' := by
  obtain ⟨orderly, representable⟩ := allowed
  revert taken
  fun_cases handlerStep S s i h e with
  | case1 j refusable =>
    rintro ⟨⟩
    obtain ⟨done, entry⟩ := Handler.refusable_spec refusable
    have left := inv.leave at_i entry [] (by rw [done]; rfl) s.dispatched
    grind
  | case3 j req rest ready todo =>
    rintro ⟨⟩
    exact ⟨_, _, _, inv.assign at_i todo ready⟩
  | case6 j req rest part assigned todo unlocked =>
    rintro ⟨⟩
    exact ⟨_, _, _, inv.capture at_i todo assigned (by simpa using unlocked)⟩
  | case8 j req rest part captured todo =>
    rintro ⟨⟩
    exact ⟨_, _, _, inv.log at_i todo captured⟩
  | case10 j stamp req rest part logged todo =>
    cases index
    rintro ⟨⟩
    have head : req ∈ h.todo.head? := by simp [todo]
    exact ⟨_, _, _, inv.produce at_i todo logged stamp (orderly h at_i req head)
      (representable h at_i req head)⟩
  | case12 j now req rest part partID msg producing todo =>
    cases index
    rintro ⟨⟩
    have head : req ∈ h.todo.head? := by simp [todo]
    obtain ⟨view', inv'⟩ := inv.append at_i todo producing representable.1
      (representable.2 h at_i req head) (s.written ++ [⟨h.client, req, _⟩])
    exact ⟨_, view', _, inv'⟩
  | case14 j quorum finished =>
    rintro ⟨⟩
    have entry : h.entry = none := by grind [Handler.entry]
    have acked : h.acks.map Ack.claim = placed h.done := by
      rw [Handler.acks, map_map]
      exact map_id _
    exact ⟨_, _, _, inv.leave at_i entry h.acks acked _⟩
  | case15 j quorum finished alone =>
    obtain rfl : quorum = true := orderly
    exact absurd (.inr rfl) alone
  | _ => rintro ⟨⟩

/-- **One step.** -/
theorem inv_step {e : Event} (inv : Inv S s entries view fates) (allowed : Allowed S s e)
    (taken : step S s e = some t) : ∃ entries' view' fates', Inv S t entries' view' fates' := by
  have ⟨orderly, representable⟩ := allowed
  revert taken
  fun_cases step S s e with
  | case2 | case5 | case8 | case11 | case12 =>
    rintro ⟨⟩
    exact ⟨_, _, _, inv⟩
  | case3 name cfg serving new =>
    rintro ⟨⟩
    exact ⟨_, _, _, inv.create (by simpa using new) cfg⟩
  | case6 key serving new =>
    rintro ⟨⟩
    exact ⟨_, _, _, { inv with }⟩
  | case9 client req serving named =>
    rintro ⟨⟩
    exact ⟨_, _, _, inv.arrive (by simpa using serving) (forall_mem_singleton.mpr orderly)
      (forall_mem_singleton.mpr representable) client false⟩
  | case13 client serving first rest uniform =>
    rintro ⟨⟩
    exact ⟨_, _, _, inv.arrive (by simpa using serving) orderly representable client true⟩
  | case14 producerID =>
    rintro ⟨⟩
    exact ⟨_, _, _, inv.crash representable producerID⟩
  | case15 stamp now req rest recovering =>
    rintro ⟨⟩
    obtain ⟨room, writable⟩ := representable.2 _ recovering req rfl
    obtain ⟨view', fates', inv'⟩ := inv.replay recovering writable representable.1 room
    exact ⟨_, view', fates', inv'⟩
  | case17 recovering =>
    rintro ⟨⟩
    exact ⟨_, _, _, inv.serve⟩
  | case21 e _ _ _ _ _ _ _ i acts h at_i => exact inv_handlerStep inv at_i acts allowed
  | _ => rintro ⟨⟩

theorem inv_reached (limit : (Storage.segFileHeaderSize : Int) < S.segMaxBytes)
    (fits : S.segMaxBytes < 2 ^ 63) {producerID : String}
    (reached : Reaches (step S) (Allowed S) (boot S producerID) s) :
    ∃ entries view fates, Inv S s entries view fates := by
  induction reached with
  | init => exact ⟨_, _, _, inv_boot S limit fits producerID⟩
  | step _ allowed taken ih => grind [inv_step]

/-- **Acknowledged messages survive crashes.**  In every run from an empty
directory whose steps are all allowed, with any requests side by side, any number
of crashes between any two steps and any of them during a restart: whenever the
broker serves and no request is in flight, as right behind a restart, every
acknowledged message is in the log of the partition and at the offset that were
acknowledged, and every further record belongs to a request that was in flight at
a crash, at most one to each. -/
theorem publish_recovers (limit : (Storage.segFileHeaderSize : Int) < S.segMaxBytes)
    (fits : S.segMaxBytes < 2 ^ 63) {producerID : String}
    (reached : Reaches (step S) (Allowed S) (boot S producerID) s) (idle : s.handlers = []) :
    Recovered S s := by
  obtain ⟨entries, view, fates, inv⟩ := inv_reached limit fits reached
  have contents : ∀ p, s.contents S p = .ok (view p) := fun p => (inv.dense p).read
  have stored_iff : ∀ place msg, s.Stored S place msg ↔ At view place msg := by
    intro place msg
    constructor
    · rintro ⟨msgs, read, held⟩
      rw [contents] at read
      cases read
      exact held
    · exact fun held => ⟨_, contents _, held⟩
  have claims : s.claims fates = s.acks.map Ack.claim ++ placed fates := by
    simp [Broker.claims, idle, placed]
  have ledger := inv.ledger
  rw [claims] at ledger
  refine ⟨?_, ?_, fates, inv.interrupted, ?_⟩
  · intro p
    exact ⟨view p, contents p, (inv.dense p).next, (inv.dense p).offset⟩
  · intro a mem
    obtain ⟨msg, held, carries⟩ := ledger.sound a.claim
      (mem_append_left _ (mem_map_of_mem mem))
    grind
  · intro place msg held
    obtain ⟨c, mem, here, carries⟩ := ledger.claimed ((stored_iff _ _).mp held)
    grind

end Steps

/-! ## Runs on one topic -/

section Samples

/-- A format for messages of topic "t" with one payload byte. -/
def sampleMessages : Codecs where
  marshal m :=
    leBytes 8 (uint64 m.offset) ++
      UInt8.ofNat m.partition.toNat :: m.codec :: m.payload.headD 0 :: m.key
  unmarshal bytes :=
    match bytes.drop 8 with
    | p :: c :: b :: key =>
      some ⟨"m", "t", 0, [b], [], key, p.toNat, int64 (leNat (bytes.take 8)), c⟩
    | _ => none
  decompress _ _ := none
  exact m :=
    m = ⟨"m", "t", 0, [m.payload.headD 0], [], m.key, m.partition, m.offset, m.codec⟩ ∧
      (0 ≤ m.partition ∧ m.partition < 256) ∧ IsInt64 m.offset
  exact_setOffset := by
    rintro m offset fits ⟨same, range, -⟩
    refine ⟨?_, range, fits⟩
    exact congrArg (fun m' => m'.setOffset offset) same
  unmarshal_marshal := by
    rintro m ⟨same, range, fits⟩
    have partition : ((UInt8.ofNat m.partition.toNat).toNat : Int) = m.partition := by
      rw [UInt8.toNat_ofNat']
      omega
    rw [take_leBytes, drop_leBytes, int64_leNat_leBytes fits.1 fits.2]
    simp only [partition]
    exact congrArg some same.symm

instance : DecidablePred (Writable sampleMessages) := fun m =>
  decidable_of_iff (m.key.length < 2 ^ 16 ∧ m.codec = 0 ∧
    (m = ⟨"m", "t", 0, [m.payload.headD 0], [], m.key, m.partition, m.offset, m.codec⟩ ∧
      (0 ≤ m.partition ∧ m.partition < 256) ∧ IsInt64 m.offset)) <| by
  constructor
  · rintro ⟨key, codec, exact⟩
    refine ⟨key, codec, exact, ?_⟩
    intro offset _
    simp only [sampleMessages, Message.setOffset, length_append, leBytes_length,
      length_cons]
    omega
  · rintro ⟨key, codec, exact, -⟩
    exact ⟨key, codec, exact⟩

/-- A format for requests on topic "t" with one payload byte. -/
def sampleRequests : PublishJson where
  marshal r :=
    r.deliveryMode :: UInt8.ofNat r.seqNum :: r.codec :: r.payload.headD 0 ::
      (if r.targetOffset.isSome then 1 else 0) ::
        (leBytes 8 (uint64 (r.targetOffset.getD 0)) ++ r.key)
  unmarshal bytes :=
    match bytes with
    | m :: n :: c :: b :: f :: rest =>
      some ⟨"t", rest.drop 8, [b], [], m, n.toNat, c,
        if f = 1 then some (int64 (leNat (rest.take 8))) else none⟩
    | _ => none
  exact r :=
    r = ⟨"t", r.key, [r.payload.headD 0], [], r.deliveryMode, r.seqNum, r.codec, r.targetOffset⟩ ∧
      r.key.length < 2 ^ 16 ∧ r.seqNum < 256 ∧ ∀ target ∈ r.targetOffset, IsInt64 target
  unmarshal_marshal := by
    rintro r ⟨same, -, small, fits⟩
    have seqNum : (UInt8.ofNat r.seqNum).toNat = r.seqNum := by
      rw [UInt8.toNat_ofNat']
      omega
    simp only [take_leBytes, drop_leBytes, seqNum]
    cases target : r.targetOffset with
    | none =>
      rw [target] at same
      exact congrArg some same.symm
    | some offset =>
      have fits := fits offset target
      rw [target] at same
      simp only [Option.isSome_some, if_true, Option.getD_some,
        int64_leNat_leBytes fits.1 fits.2]
      exact congrArg some same.symm
  marshal_length := by
    rintro r ⟨-, key, -⟩
    simp only [length_cons, length_append, leBytes_length]
    omega
  exact_withTarget := by
    rintro req target fits ⟨same, key, small, -⟩
    refine ⟨congrArg (fun r => r.withTarget target) same, key, small, ?_⟩
    intro target' noted
    cases noted
    exact fits

instance : DecidablePred sampleRequests.exact := fun r =>
  inferInstanceAs (Decidable (_ = _ ∧ r.key.length < 2 ^ 16 ∧ r.seqNum < 256 ∧
    ∀ target ∈ r.targetOffset, IsInt64 target))

def sampleSetup : Setup := ⟨sampleMessages, sampleRequests, fun _ payload => some payload, 600, 40⟩

instance : DecidablePred sampleSetup.json.exact := inferInstanceAs (DecidablePred sampleRequests.exact)

instance : DecidablePred (Writable sampleSetup.codecs) :=
  inferInstanceAs (DecidablePred (Writable sampleMessages))

def sampleRequest (key : Bytes) (mode codec : UInt8) (seqNum : Nat) : PublishRequest :=
  ⟨"t", key, [9], [], mode, seqNum, codec, none⟩

def sampleStamp : Stamp := ⟨"m", 0⟩

def sampleTopic (partitions : Nat) (positive : 0 < partitions) : Event :=
  .createTopic "t" ⟨partitions, 0, positive⟩

/-- A request that runs alone, from its arrival to its reply. -/
def samplePublish (req : PublishRequest) : List Event :=
  [.publish "c" req, .assign 0, .capture 0, .log 0, .produce 0 sampleStamp, .append 0 1,
    .reply 0 true]

/-- The broker crashes, and the restart replays that many entries. -/
def sampleRestart (entries : Nat) : List Event :=
  .crash "q" :: (List.replicate entries (.replay sampleStamp 2)).concat .serve

/-- One message is acknowledged, a second one is in the WAL when the broker
crashes, and the restart is interrupted once. -/
def sampleCrashes : List Event :=
  [[sampleTopic 2 Nat.two_pos], samplePublish (sampleRequest [108] 1 0 0),
    [.publish "c" (sampleRequest [108] 2 0 5), .assign 0, .capture 0, .log 0, .crash "q",
      .replay sampleStamp 2], sampleRestart 2].flatten

theorem publish_recovers_crash :
    ∃ s, Reaches (step sampleSetup) (Allowed sampleSetup) (boot sampleSetup "p") s ∧
      s.handlers = [] ∧ s.acks.length = 1 ∧ s.interrupted.length = 1 ∧
      ((s.contents sampleSetup ⟨"t", 1⟩).toOption.map List.length) = some 2 ∧
      Recovered sampleSetup s := by
  refine Reaches.exists_run_of (P := fun s => s.handlers = [] ∧ s.acks.length = 1 ∧
    s.interrupted.length = 1 ∧
    ((s.contents sampleSetup ⟨"t", 1⟩).toOption.map List.length) = some 2) sampleCrashes
    (by decide +kernel) ?_
  rintro s reached ⟨idle, acked, cut, read⟩
  exact ⟨idle, acked, cut, read, publish_recovers (by decide) (by decide) reached idle⟩

/-- What a run leaves: the requests in flight at a crash, the places that were
acknowledged, and the offsets of the records in a partition. -/
def sampleOutcome (partition : Int) (events : List Event) :
    Option (List PublishRequest × List (Place PartitionId) × Option (List Int)) :=
  (runAll (step sampleSetup) (fun _ _ => True) (boot sampleSetup "p") events).map fun s =>
    (s.interrupted, s.acks.map fun a => a.claim.place,
      (s.contents sampleSetup ⟨"t", partition⟩).toOption.map (List.map Message.offset))

/-- A keyless message on two partitions. -/
def sampleKeyless : List Event :=
  [[sampleTopic 2 Nat.two_pos], samplePublish (sampleRequest [] 1 0 0), sampleRestart 1].flatten

/-- An exactly-once message that is sent twice. -/
def sampleRepeated : List Event :=
  [[sampleTopic 1 Nat.one_pos], samplePublish (sampleRequest [107] 2 0 5),
    [.publish "c" (sampleRequest [107] 2 0 5), .assign 0, .capture 0, .log 0,
      .produce 0 sampleStamp, .reply 0 true], sampleRestart 2].flatten

/-- A compressed message. -/
def sampleCompressed : List Event :=
  [[sampleTopic 1 Nat.one_pos], samplePublish (sampleRequest [107] 1 2 0), sampleRestart 1].flatten

/-- **What the conditions exclude.**  No request is in flight at the crash.  A
keyless message on two partitions was acknowledged at offset 0 of partition 1, and
there are two records of it behind the restart.  A repeated exactly-once message
was acknowledged twice at offset 0, and there is a second record.  A compressed
message was acknowledged at offset 0, and the partition cannot be read. -/
theorem publish_unrecovered :
    sampleOutcome 1 sampleKeyless = some ([], [⟨⟨"t", 1⟩, 0⟩], some [0, 1]) ∧
    sampleOutcome 0 sampleRepeated =
      some ([], [⟨⟨"t", 0⟩, 0⟩, ⟨⟨"t", 0⟩, 0⟩], some [0, 1]) ∧
    sampleOutcome 0 sampleCompressed = some ([], [⟨⟨"t", 0⟩, 0⟩], none) := by
  constructor
  · decide +kernel
  · constructor
    · decide +kernel
    · decide +kernel

end Samples

end PubsubBroker.Publish
