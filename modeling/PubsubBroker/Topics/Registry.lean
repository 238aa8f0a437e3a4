/-
# Topics.Registry — the topic registry and its write-ahead log

`Create` and `Delete` of `internal/topic/manager.go`, `handleCreateTopic` and
`handleDeleteTopic` of `internal/broker/handlers_topic.go`, `internal/wal/wal_topic.go`
and `replayTopicWAL`.  A request changes the registry under the manager's lock and then
appends one entry to the topic WAL under the WAL's lock; `Replay` folds the entries, the
last one of a name deciding.

Between its two steps a request holds no lock, so of two requests on one name the one
that is first in the registry may be last in the WAL (`topics_diverge`).  `Orderly`
excludes these appends, and then the WAL replays to the registry whenever no request is
in flight (`topics_durable`).

The permission checks are left out: a request that fails them changes nothing.
-/
import Mathlib.Data.List.AList
import PubsubBroker.Theory.Materialise
import PubsubBroker.Theory.Transition
import PubsubBroker.Wal.Json

namespace PubsubBroker.Topics

open Theory List

/-- A Go string, as its characters. -/
abbrev Name := List Char

/-- What the handlers set of `types.TopicConfig`. -/
structure TopicConfig where
  name : Name
  partitions : Int
  replicationFactor : Int
  retentionHours : Int
  compactionMode : String
deriving DecidableEq

/-! ## The registry -/

/-- `^[a-zA-Z0-9][a-zA-Z0-9._-]{0,248}$` -/
def validTopicName : Name → Bool
  | [] => false
  | first :: rest =>
    first.isAlphanum && rest.length ≤ 248 &&
      rest.all fun c => c.isAlphanum || c = '.' || c = '_' || c = '-'

theorem noSlash_of_valid {name : Name} (valid : validTopicName name = true) :
    ∀ c ∈ name, c ≠ '/' := by
  intro c mem slash
  subst slash
  cases name with
  | nil => cases mem
  | cons first rest =>
    simp only [validTopicName, Bool.and_eq_true, all_eq_true] at valid
    rcases mem_cons.mp mem with rfl | later
    · exact absurd valid.1.1 (by decide)
    grind

abbrev Registry := AList fun _ : Name => TopicConfig

/-- A partition count or replication factor below one is raised to one. -/
def TopicConfig.raised (cfg : TopicConfig) : TopicConfig :=
  { cfg with
    partitions := if cfg.partitions ≤ 0 then 1 else cfg.partitions
    replicationFactor := if cfg.replicationFactor ≤ 0 then 1 else cfg.replicationFactor }

inductive TopicError where
  | nameRequired
  | invalidName (name : Name)
  | topicExists (name : Name)
  | topicNotFound (name : Name)

/-- `Manager.Create`, when the partition logs open. -/
def create (topics : Registry) (cfg : TopicConfig) : Except TopicError Registry :=
  let cfg := cfg.raised
  if !validTopicName cfg.name then .error (.invalidName cfg.name)
  else if cfg.name ∈ topics then .error (.topicExists cfg.name)
  else .ok (topics.insert cfg.name cfg)

/-- `Manager.Delete`. -/
def delete (topics : Registry) (name : Name) : Except TopicError Registry :=
  if name ∈ topics then .ok (topics.erase name) else .error (.topicNotFound name)

/-! ## The topic WAL -/

inductive OpKind where
  | create
  | delete
  /-- Any other text in the field. -/
  | other
deriving DecidableEq

/-- `topicOp`; of a deletion only the name counts. -/
structure TopicOp where
  op : OpKind
  config : TopicConfig
deriving DecidableEq

/-- JSON of WAL records. -/
structure TopicJson extends Wal.JsonCodec TopicOp where
  decidableExact : DecidablePred exact

attribute [instance] TopicJson.decidableExact

def createOp (cfg : TopicConfig) : TopicOp := ⟨.create, cfg⟩

def deleteOp (name : Name) : TopicOp := ⟨.delete, ⟨name, 0, 0, 0, ""⟩⟩

/-- One round of the loop of `Replay`: the map of live topics and the deleted names. -/
def replayOp (acc : Registry × List Name) (op : TopicOp) : Registry × List Name :=
  match op.op with
  | .create => (acc.1.insert op.config.name op.config, acc.2)
  | .delete => (acc.1.erase op.config.name, acc.2 ++ [op.config.name])
  | .other => acc

def replayOps (ops : List TopicOp) : Registry × List Name := ops.foldl replayOp (∅, [])

/-- `TopicWAL.Replay`. -/
def replay (J : TopicJson) (w : Wal.WAL) : Registry × List Name :=
  replayOps (Wal.storedRecords J.toJsonCodec w)

/-- `creates` lists the live topics in the order in which the range over the map visits
them. -/
def Lists (creates : List TopicConfig) (live : Registry) : Prop :=
  creates.Perm (live.entries.map Sigma.snd)

/-- `replayTopicWAL`: deletions and creations that fail are skipped. -/
def replayTopicWAL (topics : Registry) (creates : List TopicConfig) (deletes : List Name) :
    Registry :=
  creates.foldl (fun topics cfg => (create topics cfg).toOption.getD topics)
    (deletes.foldl (fun topics name => (delete topics name).toOption.getD topics) topics)

/-! ## Requests -/

inductive Request where
  | createTopic (cfg : TopicConfig)
  | deleteTopic (name : Name)
deriving DecidableEq

/-- The WAL entry of a request; the handler raises the counts first. -/
def Request.op : Request → TopicOp
  | .createTopic cfg => createOp cfg.raised
  | .deleteTopic name => deleteOp name

def Request.update (topics : Registry) : Request → Except TopicError Registry
  | .createTopic cfg => if cfg.name = [] then .error .nameRequired else create topics cfg.raised
  | .deleteTopic name => delete topics name

/-- A request being carried out, and whether it has updated the registry. -/
structure InFlight where
  request : Request
  updated : Bool
deriving DecidableEq

structure System where
  topics : Registry
  wal : Wal.WAL
  inFlight : List InFlight

/-- The broker after a start from a WAL with the given entries. -/
def boot (J : TopicJson) (ops : List TopicOp) (creates : List TopicConfig) : System :=
  ⟨replayTopicWAL ∅ creates (replayOps ops).2, Wal.written J.toJsonCodec ops, []⟩

inductive Event where
  | arrive (request : Request)
  | update (i : Nat)
  | append (i : Nat)

/-- One atomic step.  A request that the registry refuses is answered with the error. -/
def step (J : TopicJson) (s : System) : Event → Option System
  | .arrive request => some { s with inFlight := s.inFlight ++ [⟨request, false⟩] }
  | .update i =>
    match s.inFlight[i]? with
    | some ⟨request, false⟩ =>
      match request.update s.topics with
      | .ok topics =>
        some { s with topics := topics, inFlight := s.inFlight.set i ⟨request, true⟩ }
      | .error _ => some { s with inFlight := s.inFlight.eraseIdx i }
    | _ => none
  | .append i =>
    match s.inFlight[i]? with
    | some ⟨request, true⟩ =>
      some { s with
        wal := Wal.appendRecord J.toJsonCodec s.wal request.op
        inFlight := s.inFlight.eraseIdx i }
    | _ => none

/-! ## The condition -/

/-- What the entry says about its topic. -/
def TopicOp.value (op : TopicOp) : Option TopicConfig :=
  if op.op = .create then some op.config else none

/-- The registry holds what the entry says. -/
def System.Current (s : System) (op : TopicOp) : Prop :=
  s.topics.lookup op.config.name = op.value
deriving Decidable

/-- One of these requests has brought the topic into its current state and has yet to
append its entry. -/
def System.Awaits (s : System) (pool : List InFlight) (name : Name) : Prop :=
  ∃ f ∈ pool, f.updated = true ∧ f.request.op.config.name = name ∧ s.Current f.request.op
deriving Decidable

/-- A WAL append is of an entry that the registry agrees with, or the entry that it
agrees with has yet to be appended by another request. -/
def Orderly (s : System) : Event → Prop
  | .append i =>
    ∀ f ∈ s.inFlight[i]?, s.Current f.request.op ∨
      s.Awaits (s.inFlight.eraseIdx i) f.request.op.config.name
  | _ => True

instance (s : System) : (e : Event) → Decidable (Orderly s e)
  | .append i => inferInstanceAs (Decidable (∀ f ∈ s.inFlight[i]?, _ ∨ _))
  | .arrive _ => inferInstanceAs (Decidable True)
  | .update _ => inferInstanceAs (Decidable True)

/-- The entry a request writes is one that JSON represents. -/
def Event.Admissible (J : TopicJson) : Event → Prop
  | .arrive request => J.exact request.op
  | _ => True

instance (J : TopicJson) : (e : Event) → Decidable (e.Admissible J)
  | .arrive request => inferInstanceAs (Decidable (J.exact request.op))
  | .update _ => inferInstanceAs (Decidable True)
  | .append _ => inferInstanceAs (Decidable True)

def Allowed (J : TopicJson) (s : System) (e : Event) : Prop := e.Admissible J ∧ Orderly s e
deriving Decidable

/-! ## Registry operations -/

theorem TopicConfig.raised_raised (cfg : TopicConfig) : cfg.raised.raised = cfg.raised := by
  simp [raised]; omega

/-- An entry as the handlers write it. -/
structure TopicOp.Proper (op : TopicOp) : Prop where
  known : op.op ≠ .other
  valid : op.op = .create → validTopicName op.config.name = true
  raised : op.op = .create → op.config.raised = op.config

/-- **What a successful request does**: its topic is as the WAL entry says, and no other
topic changes. -/
structure Updates (topics : Registry) (request : Request) (topics' : Registry) : Prop where
  proper : request.op.Proper
  here : topics'.lookup request.op.config.name = request.op.value
  other : ∀ name, name ≠ request.op.config.name → topics'.lookup name = topics.lookup name

variable {topics : Registry}

theorem create_ok {topics' : Registry} {cfg : TopicConfig}
    (created : create topics cfg = .ok topics') :
    validTopicName cfg.raised.name = true ∧ topics' = topics.insert cfg.raised.name cfg.raised := by
  unfold create at created
  simp only at created
  split at created
  · cases created
  · grind

theorem create_new {cfg : TopicConfig} (raised : cfg.raised = cfg)
    (valid : validTopicName cfg.name = true) (absent : cfg.name ∉ topics) :
    create topics cfg = .ok (topics.insert cfg.name cfg) := by
  unfold create
  simp only [raised]
  rw [if_neg (by rw [valid]; decide), if_neg absent]

theorem update_updates {topics' : Registry} {request : Request}
    (updated : request.update topics = .ok topics') : Updates topics request topics' := by
  cases request with
  | createTopic cfg =>
    have updated : (if cfg.name = [] then .error .nameRequired else create topics cfg.raised) =
      .ok topics' := updated
    split at updated
    · cases updated
    · obtain ⟨valid, rfl⟩ := create_ok updated
      rw [TopicConfig.raised_raised] at valid
      refine ⟨⟨OpKind.noConfusion, fun _ => valid, fun _ => cfg.raised_raised⟩, ?_, ?_⟩
      · rw [TopicConfig.raised_raised]
        exact AList.lookup_insert topics
      · intro name differ
        rw [TopicConfig.raised_raised]
        exact AList.lookup_insert_ne differ
  | deleteTopic name =>
    have updated : delete topics name = .ok topics' := updated
    unfold delete at updated
    split at updated
    · cases updated
      refine ⟨⟨OpKind.noConfusion, nofun, nofun⟩, AList.lookup_erase name topics, ?_⟩
      intro other differ
      exact AList.lookup_erase_ne differ
    · cases updated

/-! ## Replay -/

/-- The last word of the WAL on each topic. -/
def latest (ops : List TopicOp) : Name → Option TopicConfig :=
  materialise (fun op => op.config.name) TopicOp.value ops

theorem latest_concat (ops : List TopicOp) (op : TopicOp) :
    latest (ops ++ [op]) = Function.update (latest ops) op.config.name op.value :=
  materialise_concat ops op

theorem replayOps_concat (ops : List TopicOp) (op : TopicOp) :
    replayOps (ops ++ [op]) = replayOp (replayOps ops) op := by
  simp [replayOps]

theorem lookup_replayOp {acc : Registry × List Name} {op : TopicOp} (proper : op.Proper)
    (name : Name) : (replayOp acc op).1.lookup name =
      if name = op.config.name then op.value else acc.1.lookup name := by
  obtain ⟨kind, cfg⟩ := op
  cases kind with
  | create =>
    by_cases same : name = cfg.name
    · rw [if_pos same, same]
      exact AList.lookup_insert acc.1
    · rw [if_neg same]
      exact AList.lookup_insert_ne same
  | delete =>
    by_cases same : name = cfg.name
    · rw [if_pos same, same]
      exact AList.lookup_erase cfg.name acc.1
    · rw [if_neg same]
      exact AList.lookup_erase_ne same
  | other => exact absurd rfl proper.known

theorem lookup_replayOps {ops : List TopicOp} (proper : ∀ op ∈ ops, op.Proper) (name : Name) :
    (replayOps ops).1.lookup name = latest ops name := by
  induction ops using List.reverseRecOn with
  | nil => rfl
  | append_singleton ops op ih =>
    rw [replayOps_concat, latest_concat, lookup_replayOp (proper op (by simp)),
      ih fun op' mem => proper op' (by simp [mem])]
    grind

/-- Live topics are stored under their names and can be created as they are. -/
def Creatable (live : Registry) : Prop :=
  ∀ name cfg, live.lookup name = some cfg →
    cfg.name = name ∧ validTopicName name = true ∧ cfg.raised = cfg

theorem creatable_replayOps {ops : List TopicOp} (proper : ∀ op ∈ ops, op.Proper) :
    Creatable (replayOps ops).1 := by
  induction ops using List.reverseRecOn with
  | nil =>
    intro name cfg held
    cases held
  | append_singleton ops op ih =>
    intro name cfg held
    have last := proper op (by simp)
    rw [replayOps_concat, lookup_replayOp last] at held
    split at held
    · grind [TopicOp.value, TopicOp.Proper.valid, TopicOp.Proper.raised]
    · exact ih (fun op' mem => proper op' (by simp [mem])) name cfg held

theorem deletes_empty (deletes : List Name) :
    deletes.foldl (fun topics name => (delete topics name).toOption.getD topics) ∅ =
      (∅ : Registry) := by
  induction deletes with
  | nil => rfl
  | cons name deletes ih => exact ih

theorem lookup_creates {creates : List TopicConfig} (unique : (creates.map TopicConfig.name).Nodup)
    (good : ∀ cfg ∈ creates, validTopicName cfg.name = true ∧ cfg.raised = cfg) :
    ∀ {topics : Registry}, (∀ cfg ∈ creates, cfg.name ∉ topics) → ∀ name,
      (creates.foldl (fun topics cfg => (create topics cfg).toOption.getD topics) topics).lookup
          name =
        (creates.find? fun cfg => cfg.name = name).or (topics.lookup name) := by
  induction creates with
  | nil =>
    intro topics absent name
    rfl
  | cons cfg creates ih =>
    intro topics absent name
    obtain ⟨fresh, unique⟩ := nodup_cons.mp unique
    obtain ⟨valid, raised⟩ := good cfg (by simp)
    have created := create_new raised valid (absent cfg (by simp))
    rw [foldl_cons, created]
    have later : ∀ cfg' ∈ creates, cfg'.name ∉ topics.insert cfg.name cfg := by
      grind [AList.mem_insert]
    refine (ih unique (fun cfg' mem => good cfg' (by simp [mem])) later name).trans ?_
    rw [find?_cons]
    by_cases same : cfg.name = name
    · subst same
      have none : (creates.find? fun cfg' => cfg'.name = cfg.name) = none := by grind
      rw [none, AList.lookup_insert]
      simp
    · rw [AList.lookup_insert_ne (Ne.symm same)]
      simp [same]

/-- **Replay into an empty registry** gives the live topics, in whatever order they are
created. -/
theorem replayTopicWAL_lookup {live : Registry} (good : Creatable live)
    {creates : List TopicConfig} (lists : Lists creates live) (deletes : List Name) (name : Name) :
    (replayTopicWAL ∅ creates deletes).lookup name = live.lookup name := by
  have held : ∀ cfg, cfg ∈ creates ↔ live.lookup cfg.name = some cfg := by
    intro cfg
    rw [lists.mem_iff, mem_map]
    constructor
    · rintro ⟨entry, mem, rfl⟩
      have found := AList.mem_lookup_iff.mpr mem
      rwa [(good _ _ found).1]
    · intro found
      exact ⟨_, AList.mem_lookup_iff.mp found, rfl⟩
  have unique : (creates.map TopicConfig.name).Nodup := by
    have names : (live.entries.map Sigma.snd).map TopicConfig.name = live.keys := by
      rw [map_map]
      refine map_congr_left fun entry mem => ?_
      exact (good _ _ (AList.mem_lookup_iff.mpr mem)).1
    refine ((lists.map TopicConfig.name).nodup_iff).mpr ?_
    rw [names]
    exact live.nodupKeys
  rw [replayTopicWAL, deletes_empty, lookup_creates unique ?_ ?_]
  · cases found : creates.find? fun cfg => cfg.name = name with
    | none =>
      cases held' : live.lookup name with
      | none => rfl
      | some cfg =>
        have same := (good _ _ held').1
        grind
    | some cfg => grind
  · intro cfg mem
    obtain ⟨-, valid, raised⟩ := good _ _ ((held cfg).mp mem)
    exact ⟨valid, raised⟩
  · simp

/-! ## The invariant -/

/-- Every topic is as the WAL says, or as an entry says that has yet to be appended. -/
structure Inv (J : TopicJson) (s : System) (ops : List TopicOp) : Prop where
  wal : s.wal = Wal.written J.toJsonCodec ops
  exact : ∀ op ∈ ops, J.exact op
  proper : ∀ op ∈ ops, op.Proper
  flight : ∀ f ∈ s.inFlight, J.exact f.request.op ∧ (f.updated = true → f.request.op.Proper)
  agree : ∀ name, s.topics.lookup name = latest ops name ∨ s.Awaits s.inFlight name

section Invariant

variable {J : TopicJson} {s t : System} {ops : List TopicOp} {i : Nat} {f : InFlight}

theorem inv_boot (exact : ∀ op ∈ ops, J.exact op) (proper : ∀ op ∈ ops, op.Proper)
    {creates : List TopicConfig} (lists : Lists creates (replayOps ops).1) :
    Inv J (boot J ops creates) ops where
  wal := rfl
  exact := exact
  proper := proper
  flight := by simp [boot]
  agree := by
    intro name
    left
    rw [← lookup_replayOps proper]
    exact replayTopicWAL_lookup (creatable_replayOps proper) lists _ name

theorem System.Awaits.mono {pool more : List InFlight} {name : Name} (awaits : s.Awaits pool name)
    (kept : ∀ f ∈ pool, f.updated = true → f.request.op.config.name = name → f ∈ more) :
    s.Awaits more name := by
  obtain ⟨f, mem, updated, named, current⟩ := awaits
  exact ⟨f, kept f mem updated named, updated, named, current⟩

variable {request : Request}

theorem Inv.arrive (inv : Inv J s ops) (exact : J.exact request.op) :
    Inv J { s with inFlight := s.inFlight ++ [⟨request, false⟩] } ops where
  wal := inv.wal
  exact := inv.exact
  proper := inv.proper
  flight := by
    grind [flight]
  agree name := (inv.agree name).imp_right fun awaits =>
    awaits.mono fun f mem _ _ => mem_append_left _ mem

theorem Inv.update (inv : Inv J s ops) (at_i : s.inFlight[i]? = some ⟨request, false⟩)
    {topics : Registry} (updates : Updates s.topics request topics) :
    Inv J { s with topics := topics, inFlight := s.inFlight.set i ⟨request, true⟩ } ops where
  wal := inv.wal
  exact := inv.exact
  proper := inv.proper
  flight := forall_mem_set inv.flight
    ⟨(inv.flight _ (mem_of_getElem? at_i)).1, fun _ => updates.proper⟩
  agree := by
    intro name
    obtain ⟨before, after, split, -, set⟩ := pool_split at_i
    by_cases same : name = request.op.config.name
    · subst same
      refine .inr ⟨⟨request, true⟩, ?_, rfl, rfl, updates.here⟩
      rw [set]
      simp
    · rcases inv.agree name with held | ⟨f, mem, updated, named, current⟩
      · grind [Updates.other]
      · refine .inr ⟨f, ?_, updated, named, ?_⟩
        · grind
        · subst named
          exact (updates.other _ same).trans current

theorem mem_eraseIdx_of_ne {pool : List InFlight} (at_i : pool[i]? = some f) {g : InFlight}
    (mem : g ∈ pool) (differ : g ≠ f) : g ∈ pool.eraseIdx i := by
  obtain ⟨before, after, split, erased, -⟩ := pool_split at_i
  rw [split] at mem
  rw [erased]
  simp only [mem_append, mem_cons] at mem ⊢
  rcases mem with front | same | back
  · exact .inl front
  · exact absurd same differ
  · exact .inr back

theorem Inv.refused (inv : Inv J s ops) (at_i : s.inFlight[i]? = some ⟨request, false⟩) :
    Inv J { s with inFlight := s.inFlight.eraseIdx i } ops where
  wal := inv.wal
  exact := inv.exact
  proper := inv.proper
  flight := forall_mem_eraseIdx inv.flight
  agree name := (inv.agree name).imp_right fun awaits => by
    refine awaits.mono fun g mem updated _ => mem_eraseIdx_of_ne at_i mem ?_
    rintro rfl
    cases updated

theorem Inv.append (inv : Inv J s ops) (at_i : s.inFlight[i]? = some ⟨request, true⟩)
    (orderly : s.Current request.op ∨ s.Awaits (s.inFlight.eraseIdx i) request.op.config.name) :
    Inv J { s with
      wal := Wal.appendRecord J.toJsonCodec s.wal request.op
      inFlight := s.inFlight.eraseIdx i } (ops ++ [request.op]) where
  wal := by rw [inv.wal, Wal.appendRecord_written]
  exact := by
    intro op mem
    rcases mem_append.mp mem with old | new
    · exact inv.exact op old
    · rw [mem_singleton.mp new]
      exact (inv.flight _ (mem_of_getElem? at_i)).1
  proper := by
    intro op mem
    rcases mem_append.mp mem with old | new
    · exact inv.proper op old
    · rw [mem_singleton.mp new]
      exact (inv.flight _ (mem_of_getElem? at_i)).2 rfl
  flight := forall_mem_eraseIdx inv.flight
  agree := by
    intro name
    rw [latest_concat]
    by_cases same : name = request.op.config.name
    · subst same
      rw [Function.update_self]
      exact orderly
    · rw [Function.update_of_ne same]
      refine (inv.agree name).imp_right fun awaits => ?_
      refine awaits.mono fun g mem _ named => mem_eraseIdx_of_ne at_i mem ?_
      grind

theorem inv_step {e : Event} (inv : Inv J s ops) (allowed : Allowed J s e)
    (taken : step J s e = some t) : ∃ ops', Inv J t ops' := by
  obtain ⟨admissible, orderly⟩ := allowed
  revert taken
  fun_cases step J s e with
  | case1 request =>
    rintro ⟨⟩
    exact ⟨ops, inv.arrive admissible⟩
  | case2 i request at_i topics updated =>
    rintro ⟨⟩
    exact ⟨ops, inv.update at_i (update_updates updated)⟩
  | case3 i request at_i =>
    rintro ⟨⟩
    exact ⟨ops, inv.refused at_i⟩
  | case5 i request at_i =>
    rintro ⟨⟩
    exact ⟨_, inv.append at_i (orderly _ at_i)⟩
  | _ => rintro ⟨⟩

theorem inv_reached (start : ∃ ops, Inv J s ops) (reached : Reaches (step J) (Allowed J) s t) :
    ∃ ops, Inv J t ops := by
  induction reached with
  | init => exact start
  | step before allowed taken ih =>
    obtain ⟨ops, inv⟩ := ih
    exact inv_step inv allowed taken

/-- **The topic WAL replays to the registry.**  In every run from a start with any WAL
that the handlers have written, in which every append is orderly, whenever no request is
in flight, replaying the WAL into an empty registry gives exactly the registered topics
with their configurations, in whatever order the live topics are visited. -/
theorem topics_durable (exact : ∀ op ∈ ops, J.exact op) (proper : ∀ op ∈ ops, op.Proper)
    {booted : List TopicConfig} (start : Lists booted (replayOps ops).1)
    (reached : Reaches (step J) (Allowed J) (boot J ops booted) s) (idle : s.inFlight = [])
    (entries : s.wal.nextOffset ≤ 2 ^ 63) {creates : List TopicConfig}
    (lists : Lists creates (replay J s.wal).1) (name : Name) :
    (replayTopicWAL ∅ creates (replay J s.wal).2).lookup name = s.topics.lookup name := by
  obtain ⟨ops', inv⟩ := inv_reached ⟨ops, inv_boot exact proper start⟩ reached
  have count : (ops'.length : Int) ≤ 2 ^ 63 := by
    rw [← Wal.written_nextOffset J.toJsonCodec, ← inv.wal]
    exact entries
  have stored : replay J s.wal = replayOps ops' := by
    rw [replay, inv.wal, Wal.storedRecords_written inv.exact count]
  rw [stored] at lists ⊢
  rw [replayTopicWAL_lookup (creatable_replayOps inv.proper) lists, lookup_replayOps inv.proper]
  rcases inv.agree name with held | ⟨f, mem, -⟩
  · exact held.symm
  · rw [idle] at mem
    cases mem

end Invariant

/-! ## Two requests on one topic -/

def sampleConfig : TopicConfig := ⟨['t'], 2, 1, 24, "compact"⟩

/-- A format for two entries. -/
def sampleJson : TopicJson where
  marshal op := if op.op = .create then [1] else [0]
  unmarshal bytes :=
    if bytes = [1] then some (createOp sampleConfig)
    else if bytes = [0] then some (deleteOp ['t'])
    else none
  exact op := op = createOp sampleConfig ∨ op = deleteOp ['t']
  decidableExact _ := inferInstanceAs (Decidable (_ ∨ _))
  unmarshal_marshal := by
    rintro op (rfl | rfl)
    · rfl
    · rfl
  marshal_length := by
    rintro op (rfl | rfl)
    · decide
    · decide

def sampleCreate : Event := .arrive (.createTopic sampleConfig)

def sampleDelete : Event := .arrive (.deleteTopic ['t'])

/-- The topic is created, deleted and created again, two requests at a time. -/
def sampleRun : List Event :=
  [sampleCreate, sampleDelete, .update 0, .append 0, .update 0, sampleCreate, .append 0,
    .update 0, .append 0]

theorem topics_durable_sample :
    ∃ s, Reaches (step sampleJson) (Allowed sampleJson) (boot sampleJson [] []) s ∧
      s.inFlight = [] ∧ s.topics.lookup ['t'] = some sampleConfig ∧
      (replayTopicWAL ∅ [sampleConfig] (replay sampleJson s.wal).2).lookup ['t'] =
        s.topics.lookup ['t'] := by
  refine Reaches.exists_run_of (P := fun s => s.inFlight = [] ∧ s.wal.nextOffset = 3 ∧
    s.topics.lookup ['t'] = some sampleConfig ∧
    (replay sampleJson s.wal).1.entries.map Sigma.snd = [sampleConfig]) sampleRun
    (by decide +kernel) ?_
  rintro s reached ⟨idle, next, held, live⟩
  have lists : Lists [sampleConfig] (replay sampleJson s.wal).1 := by
    unfold Lists
    rw [live]
  have start : Lists [] (replayOps []).1 := List.Perm.refl []
  refine ⟨idle, held, ?_⟩
  exact topics_durable (by simp) (by simp) start reached idle (by rw [next]; decide) lists ['t']

/-- **The WAL and the registry disagree**: the topic is created and deleted in the
registry and deleted and created in the WAL, so a restart brings it back. -/
theorem topics_diverge :
    (runAll (step sampleJson) (fun _ _ => True) (boot sampleJson [] [])
        [sampleCreate, sampleDelete, .update 0, .update 1, .append 1, .append 0]).map
      (fun s => (s.inFlight, s.topics.lookup ['t'],
        (replayTopicWAL ∅ ((replay sampleJson s.wal).1.entries.map Sigma.snd)
          (replay sampleJson s.wal).2).lookup ['t'])) =
      some ([], none, some sampleConfig) := by
  decide +kernel

end PubsubBroker.Topics
