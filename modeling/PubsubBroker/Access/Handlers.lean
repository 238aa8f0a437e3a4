/-
# Access.Handlers — every handler is a sequence of effects

One lemma for each handler and each process of `Access.Server`.  The handlers that ask for
a permission need no more than the invariant.  The others need a hypothesis in its place:
that the sender is concerned with the topic (`handleAck_effects` and its like), that a
dead-letter request selects what the sender is concerned with (`asks`), or that a push into
a full dead-letter queue drops nothing of another's (`spares`).
-/
import PubsubBroker.Access.Effect

namespace PubsubBroker.Access

open Theory Auth Consumers Publish List Option
open Storage (Message)

/-! ## What the handlers do not check -/

/-- An entry that a push into the full queue drops is of a topic the identity is concerned
with. -/
def Broker.spares (s : Broker) (id : Identity) : Bool :=
  s.dlq.oldest.all fun e => e.original.all fun m => concerned id m.topic

/-- A request to a dead-letter endpoint selects entries of topics the identity is concerned
with: of the topic it names, and of all of them when it names none. -/
def asks (id : Identity) (topic : String) : Bool :=
  concerned id topic && (topic ≠ "" || id.topics = [])

/-- The next attempt of the delivery is its last. -/
def Delivery.last (cfg : Config) (d : Delivery) : Bool :=
  match d.retry with
  | none => cfg.maxRetries = 0
  | some (_, left) => left = 0

/-! ## Building blocks -/

section

variable {who : Option Identity} {id : Identity} {s : Broker}

theorem replied {receiver : Option Identity} (r : Reply) (plain : r.messages = []) :
    Effects who s (s.reply receiver r) :=
  .single (.reply receiver r (by simp [plain]))

variable {topic : String}

theorem allows_of_can {perm : Permission} (may : id.can perm topic = true)
    (real : perm ≠ .listTopics) : Allows (some id) topic :=
  .of (concerned_of_can may real)

theorem spares_spec (spared : s.spares id = true) :
    ∀ e ∈ s.dlq.oldest, ∀ m ∈ e.original, concerned id m.topic = true := by
  intro e oldest m original
  unfold Broker.spares at spared
  rw [mem_def.mp oldest] at spared
  simpa [mem_def.mp original] using spared

theorem buried {entry : DLQEntry} (own : ∀ m ∈ entry.original, concerned id m.topic = true)
    (spared : s.spares id = true) :
    Effect (some id) s { s with dlq := s.dlq.push entry } := by
  have off : ∀ (e : DLQEntry) (topic : String), (∀ m ∈ e.original, concerned id m.topic = true) →
      ¬ Allows (some id) topic → e.of topic = false := by
    intro e topic own out
    cases original : e.original with
    | none => simp [DLQEntry.of, original]
    | some m =>
      have may := Allows.of (own m original)
      have differ : m.topic ≠ topic := fun same => out (same ▸ may)
      simp [DLQEntry.of, original, differ]
  refine .deadLetters _ fun topic out => DeadLetterQueue.push_ofTopic (off _ _ own out) ?_
  intro e oldest
  exact off e topic (spares_spec spared e oldest) out

/-! ## Topics and publishing -/

theorem handleCreateTopic_effects (name : String) (partitions : Int) :
    Effects (some id) s (s.handleCreateTopic id name partitions) := by
  unfold Broker.handleCreateTopic
  split
  · exact replied _ rfl
  split
  · exact replied _ rfl
  split
  · exact replied _ rfl
  split
  · exact replied _ rfl
  case isFalse may valid _ =>
    have may : id.can .createTopic name = true := by simpa using may
    have valid : Broker.validName name = true := by simpa using valid
    exact .tail (.single (.create name _ (slashFree_of_valid valid) (allows_of_can may nofun)))
      (.reply _ .ok nofun)

theorem handleDeleteTopic_effects (name : String) :
    Effects (some id) s (s.handleDeleteTopic id name) := by
  unfold Broker.handleDeleteTopic
  split
  · exact replied _ rfl
  case isFalse may =>
    have may : id.can .deleteTopic name = true := by simpa using may
    split
    · exact .tail (.single (.delete name (allows_of_can may nofun))) (.reply _ .ok nofun)
    · exact replied _ rfl

theorem handleListTopics_effects : Effects (some id) s (s.handleListTopics id) := by
  unfold Broker.handleListTopics
  split
  · exact replied _ rfl
  · exact replied _ rfl

theorem handlePublish_effects (inv : Inv s) (req : PublishRequest)
    (stopped : Option (String × String)) :
    Effects (some id) s (s.handlePublish id req stopped) := by
  unfold Broker.handlePublish
  split
  · exact replied _ rfl
  split
  · exact replied _ rfl
  case isFalse may =>
    have may : id.can .publish req.topic = true := by simpa using may
    extract_lets s'
    have counted : Effect (some id) s s' := .counters _
    refine .head counted ?_
    split
    · exact replied _ rfl
    · refine .single (.publishes _ (forall_mem_append_singleton inv.publishes ⟨?_, nofun⟩))
      grind [concerned_of_can]

theorem handleBatchPublish_effects (inv : Inv s) (reqs : List PublishRequest)
    (stopped : Option (String × String)) :
    Effects (some id) s (s.handleBatchPublish id reqs stopped) := by
  unfold Broker.handleBatchPublish
  split
  · exact replied _ rfl
  case h_2 first rest =>
    split
    · exact replied _ rfl
    case h_2 alike =>
      split
      · exact replied _ rfl
      case isFalse may =>
        have may : id.can .publish first.topic = true := by simpa using may
        split
        · exact replied _ rfl
        · refine .single (.publishes _ (forall_mem_append_singleton inv.publishes ⟨?_, nofun⟩))
          intro other mem
          have same : other.topic = first.topic := by grind
          exact same ▸ concerned_of_can may nofun

variable {cfg : Config} {i : Nat} {x : Publishing} {req : PublishRequest} {result : PublishResult}

theorem Publishing.Permitted.tail (permitted : x.Permitted)
    (results : List (Option PublishResult)) :
    Publishing.Permitted { x with todo := x.todo.tail, results := results } :=
  ⟨fun req mem => permitted.todo req (mem_of_mem_tail mem), permitted.done⟩

theorem Publishing.Permitted.finish (permitted : x.Permitted)
    (own : concerned x.owner req.topic = true) : (x.finish req result).Permitted :=
  ⟨fun req mem => permitted.todo req (mem_of_mem_tail mem),
    forall_mem_append_singleton permitted.done own⟩

theorem produce_effects (inv : Inv s) (permitted : x.Permitted) (next : req ∈ x.todo)
    (stamp : Stamp) : Effects (some x.owner) s (s.produce cfg i x req stamp) := by
  have own := permitted.todo req next
  unfold Broker.produce
  extract_lets counters prepared s'
  have counted : Effect (some x.owner) s s' := .counters prepared.2
  have inv' : Inv s' := effect_inv counted inv
  refine .head counted ?_
  split
  case h_1 error _ =>
    split
    · exact .single (.publishes _ (forall_mem_set inv'.publishes (permitted.tail _)))
    · exact .tail (.single (.publishes _ (forall_mem_eraseIdx inv'.publishes)))
        (.reply _ _ nofun)
  case h_2 result _ =>
    exact .single (.publishes _ (forall_mem_set inv'.publishes (permitted.finish own)))
  case h_3 partID msg written =>
    have same : msg.topic = req.topic := prepare_write written
    extract_lets place result
    refine .head (.append place msg same (.of own)) ?_
    refine .head (.producer (s'.producer.record req result)) ?_
    exact .single (.publishes (s'.publishes.set i (x.finish req result))
      (forall_mem_set inv'.publishes (permitted.finish own)))

/-! ## Dispatch and delivery -/

variable {msg : Message}

theorem dispatch_effect (inv : Inv s) (own : concerned id msg.topic = true) :
    Effect (some id) s (s.dispatch id msg) := by
  refine .deliveries _ fun d mem => ?_
  rcases mem_append.mp mem with old | new
  · exact inv.deliveries d old
  · obtain ⟨g, here, rfl⟩ := mem_map.mp new
    have same : g.topic = msg.topic := by simpa using (mem_filter.mp here).2
    exact ⟨same.symm, same ▸ own⟩

theorem dispatchToGroup_effect (inv : Inv s) (same : msg.topic = topic)
    (own : concerned id topic = true) (group : String) (partition : Int) :
    Effect (some id) s (s.dispatchToGroup id group topic partition msg) :=
  .deliveries _ (forall_mem_append_singleton inv.deliveries ⟨same, own⟩)

variable {t : Broker}

theorem publishOut_effects {now : Int} {order : List Nat} (inv : Inv s) (permitted : x.Permitted)
    (next : (req, result) ∈ x.done) (taken : s.publishOut cfg i x req result now order = some t) :
    Effects (some x.owner) s t := by
  obtain ⟨hub, published, rfl⟩ := map_eq_some_iff.mp taken
  have own : concerned x.owner (Broker.outgoing req result now).topic = true :=
    permitted.done _ next
  refine .head (dispatch_effect inv own) ?_
  refine .head (.hub hub (Explorer.inv_step inv.hub rfl published)) ?_
  refine .single (.publishes _ (forall_mem_set inv.publishes ⟨permitted.todo, ?_⟩))
  exact fun y mem => permitted.done y (mem_of_mem_tail mem)

variable {consumerID : String}

theorem slow_effects {j : Nat} {d : Delivery} {left : Nat} (inv : Inv s) (permitted : d.Permitted)
    (spared : left = 0 → s.spares d.owner = true) :
    Effects (some d.owner) s (s.slow cfg j d consumerID left) := by
  cases left with
  | zero =>
    refine .head (.deliveries (s.deliveries.eraseIdx j) (forall_mem_eraseIdx inv.deliveries)) ?_
    refine .single (buried ?_ ?_)
    · rintro m ⟨⟩
      exact permitted.topic ▸ permitted.owner
    · exact spared rfl
  | succ left =>
    exact .single (.deliveries _
      (forall_mem_set inv.deliveries ⟨permitted.topic, permitted.owner⟩))

theorem deliver_effects {j : Nat} {d : Delivery} (inv : Inv s) (permitted : d.Permitted)
    (spared : d.last cfg = true → s.spares d.owner = true) :
    Effects (some d.owner) s (s.deliver cfg j d) := by
  have may := Allows.of permitted.owner
  unfold Broker.deliver
  split
  case h_1 first =>
    extract_lets dispatched
    have grouped : Effect (some d.owner) s { s with manager := dispatched.1 } :=
      .groups _ d.topic may (Manager.dispatchToGroup_offsets ..)
        (fun other differ => Manager.dispatchToGroup_ofTopic _ differ)
        (inv.manager.dispatchToGroup _ permitted.topic)
    refine .head grouped ?_
    split
    · exact .single (.deliveries _ (forall_mem_eraseIdx inv.deliveries))
    · refine slow_effects (effect_inv grouped inv) permitted fun none => spared ?_
      simp [Delivery.last, first, none]
  case h_2 consumerID left again =>
    split
    case h_1 manager delivered =>
      have grouped : Effect (some d.owner) s { s with manager := manager } :=
        .groups _ d.topic may (Manager.redeliver_offsets delivered)
          (fun other differ => Manager.redeliver_ofTopic delivered differ)
          (inv.manager.redeliver permitted.topic delivered)
      exact .head grouped (.single (.deliveries _ (forall_mem_eraseIdx inv.deliveries)))
    grind [slow_effects, Delivery.last]

/-! ## Subscriptions -/

theorem readLog_topic (inv : Inv s) {cfg : TopicConfig} {partition : Int} {log : SparseLog Message}
    (opened : s.partitionLog topic cfg partition = some log) {offset maxCount : Int} {m : Message}
    (mem : m ∈ Broker.readLog log offset maxCount) : m.topic = topic := by
  obtain ⟨-, same⟩ := ite_none_right_eq_some.mp opened
  obtain rfl := some.inj same
  obtain ⟨e, read, rfl⟩ := mem_map.mp mem
  exact inv.logged _ e ((SparseLog.read_sublist ..).subset read)

theorem slashFree_of_lookup (inv : Inv s) {cfg : TopicConfig}
    (found : s.topics.lookup topic = some cfg) : SlashFree topic :=
  inv.named topic (AList.lookup_isSome.mp (by simp [found]))

theorem handleSubscribe_effects (inv : Inv s) (req : SubscribeRequest) :
    Effects (some id) s (s.handleSubscribe id req) := by
  unfold Broker.handleSubscribe
  split
  · exact replied _ rfl
  case isFalse may =>
    have may : id.can .subscribe req.topic = true := by simpa using may
    have own : concerned id req.topic = true := concerned_of_can may nofun
    split
    · exact replied _ rfl
    case h_2 topicCfg found =>
      split
      · exact replied _ rfl
      · extract_lets joined s₁ s₂
        have tidy : joined.1.Tidy :=
          inv.manager.subscribe (slashFree_of_lookup inv found) topicCfg.partitions
        have grouped : Effect (some id) s { s with manager := joined.1 } :=
          .groups _ req.topic (.of own) (Manager.subscribe_offsets ..)
            (fun other differ => Manager.subscribe_ofTopic _ differ) tidy
        split
        · exact .head grouped (replied _ rfl)
        split
        · exact .head grouped (replied _ rfl)
        · have looped : Effects (some id) s s₂ := by
            refine .head grouped (.head (.groups (joined.1.update req.group req.topic fun g =>
              g.update req.consumerID Consumer.setSink) req.topic (.of own) rfl ?_ ?_) ?_)
            · exact fun other differ => Manager.update_ofTopic (fun _ same => same) differ
            · refine tidy.update fun g mem same => ⟨same, fun msg holds => ?_⟩
              rw [← same]
              have fewer : ∀ c : Consumer, ∀ m ∈ c.setSink.queued, m ∈ c.queued :=
                fun c m mem => mem
              exact tidy.held g mem msg (Group.holds_update fewer msg holds)
            · have fresh : Loop.Permitted ⟨id, req.group, req.consumerID, req.topic, none, none⟩ :=
                ⟨own, by simp [Loop.held]⟩
              exact .head (.loops _ (forall_mem_append_singleton inv.loops fresh)) (replied _ rfl)
          split
          · exact looped
          · exact .tail looped (.replays _ (forall_mem_append_singleton inv.replays own))

theorem dispatchAll_effects (own : concerned id topic = true) (group : String) (partition : Int)
    (msgs : List Message) (same : ∀ m ∈ msgs, m.topic = topic) (inv : Inv s) :
    Effects (some id) s
      (msgs.foldl (fun s msg => s.dispatchToGroup id group topic partition msg) s) := by
  induction msgs generalizing s with
  | nil => exact .refl
  | cons msg msgs ih =>
    have first :=
      dispatchToGroup_effect inv (same msg (mem_cons_self ..)) own group partition
    exact .head first
      (ih (fun m mem => same m (mem_cons_of_mem msg mem)) (effect_inv first inv))

theorem replay_effects {k : Nat} {r : Replay} (inv : Inv s) (permitted : r.Permitted) :
    Effects (some r.owner) s (s.replay k r) := by
  have moved : ∀ (partition : Nat) (offset : Int),
      Replay.Permitted { r with partition := partition, offset := offset } :=
    fun _ _ => permitted
  have skipped : Effects (some r.owner) s { s with
      replays := s.replays.set k { r with partition := r.partition + 1, offset := 0 } } :=
    .single (.replays _ (forall_mem_set inv.replays (moved _ _)))
  unfold Broker.replay
  split
  case isFalse => exact .single (.replays _ (forall_mem_eraseIdx inv.replays))
  case isTrue =>
    extract_lets next
    split
    · exact skipped
    case h_2 cfg found =>
      split
      · exact skipped
      case h_2 log opened =>
        extract_lets msgs s'
        split
        · exact skipped
        case h_2 last _ =>
          have same : ∀ m ∈ msgs, m.topic = r.topic := fun m mem => readLog_topic inv opened mem
          have all : Effects (some r.owner) s s' :=
            dispatchAll_effects permitted r.group r.partition msgs same inv
          exact .tail all (.replays _ (forall_mem_set (effects_inv all inv).replays (moved _ _)))

variable {group : String}

theorem channel_topic {m : Manager} (tidy : m.Tidy)
    (mem : msg ∈ Broker.channel m group topic consumerID) : msg.topic = topic := by
  unfold Broker.channel at mem
  split at mem
  · cases mem
  case h_2 g found =>
    split at mem
    · cases mem
    case h_2 c here =>
      refine (tidy.find found).2 msg ⟨c, mem_of_find?_eq_some here, ?_⟩
      exact mem_append_right _ mem

theorem unsubscribe_effects (inv : Inv s) (may : Allows who topic) :
    Effects who s (s.unsubscribe group consumerID topic) := by
  have gone : Effect who s { s with manager := s.manager.unsubscribe group consumerID topic } :=
    .groups _ topic may rfl (fun other differ => Manager.unsubscribe_ofTopic differ)
      inv.manager.unsubscribe
  unfold Broker.unsubscribe
  refine .head gone (.single (.loops _ ?_))
  intro l mem
  obtain ⟨old, was, rfl⟩ := mem_map.mp mem
  have permitted := inv.loops old was
  split
  case isFalse => exact permitted
  case isTrue here =>
    refine ⟨permitted.owner, fun m held => ?_⟩
    rcases mem_append.mp held with waiting | paused
    · grind [channel_topic, Inv.manager]
    · exact permitted.held m (mem_append_right _ paused)

variable {l : Loop}

theorem queue_topic (inv : Inv s) (permitted : l.Permitted) (mem : msg ∈ s.queue l) :
    msg.topic = l.topic := by
  unfold Broker.queue at mem
  cases left : l.left with
  | none => grind [channel_topic, Inv.manager]
  | some rest => grind [Loop.Permitted.held, Loop.held]

theorem received_effect (inv : Inv s) (may : Allows who l.topic) :
    Effect who s { s with manager := s.received l } := by
  unfold Broker.received
  split
  · exact .groups _ l.topic may rfl (fun _ _ => rfl) inv.manager
  · refine .groups _ l.topic may rfl
      (fun other differ => Manager.update_ofTopic (fun _ same => same) differ) ?_
    refine inv.manager.update fun g mem same => ⟨same, fun msg holds => ?_⟩
    have fewer : ∀ c : Consumer, ∀ m ∈ Consumer.queued { c with pushCh := c.pushCh.map List.tail },
        m ∈ c.queued := by
      intro c m mem
      rcases mem_append.mp mem with pull | push
      · exact mem_append_left _ pull
      · refine mem_append_right _ ?_
        cases pushed : c.pushCh with
        | none => simp [pushed] at push
        | some queue => exact mem_of_mem_tail (by simpa [pushed] using push)
    exact same ▸ inv.manager.held g mem msg (Group.holds_update fewer msg holds)

theorem push_effects (inv : Inv s) (permitted : l.Permitted) (taken : s.push i l = some t) :
    Effects (some l.owner) s t := by
  unfold Broker.push at taken
  split at taken
  case h_2 => cases taken
  case h_1 msg rest running queued =>
    have same : msg.topic = l.topic :=
      queue_topic inv permitted (queued ▸ mem_cons_self ..)
    have shorter : Loop.Permitted { l with left := l.left.map List.tail } := by
      refine ⟨permitted.owner, fun m held => permitted.held m ?_⟩
      rcases mem_append.mp held with waiting | paused
      · refine mem_append_left _ ?_
        cases left : l.left with
        | none => simp [left] at waiting
        | some rest => exact mem_of_mem_tail (by simpa [left] using waiting)
      · exact mem_append_right _ paused
    have moved : Effect (some l.owner) s { s with
        manager := s.received { l with left := l.left.map List.tail } } :=
      received_effect inv (.of permitted.owner)
    simp only at taken
    split at taken
    · cases taken
      refine .head moved (.single (.loops _ (forall_mem_set inv.loops ⟨permitted.owner, ?_⟩)))
      intro m held
      rcases mem_append.mp held with waiting | paused
      · exact shorter.held m (mem_append_left _ waiting)
      grind
    · cases taken
      refine .head moved (.head (.loops (s.loops.set i _) (forall_mem_set inv.loops shorter)) ?_)
      refine .single (.reply _ _ ?_)
      intro m only
      obtain rfl := mem_singleton.mp only
      exact .of (same ▸ permitted.owner)

theorem resume_effects (inv : Inv s) (permitted : l.Permitted)
    (spared : (s.queue l).length = pushCapacity → s.spares l.owner = true)
    (taken : s.resume cfg i l = some t) : Effects (some l.owner) s t := by
  unfold Broker.resume at taken
  split at taken
  case h_1 => cases taken
  case h_2 msg paused =>
    have own : concerned l.owner msg.topic = true := by
      grind [Loop.Permitted.held, Loop.held, Loop.Permitted.owner]
    have woken : Loop.Permitted { l with paused := none } :=
      ⟨permitted.owner, fun m held => permitted.held m (by
        simp only [Loop.held, toList_none, append_nil] at held
        exact mem_append_left _ held)⟩
    have resumed : Effect (some l.owner) s { s with
        loops := s.loops.set i { l with paused := none } } :=
      .loops _ (forall_mem_set inv.loops woken)
    simp only at taken
    split at taken
    case isTrue full =>
      cases taken
      refine .head resumed (.single (buried ?_ (spared full)))
      rintro m ⟨⟩
      exact own
    case isFalse =>
      cases taken
      refine .head resumed (.single (.reply _ _ ?_))
      intro m only
      obtain rfl := mem_singleton.mp only
      exact .of own

theorem stop_effects (inv : Inv s) (permitted : l.Permitted) :
    Effects (some l.owner) s (s.stop i l) := by
  have ended : Effect (some l.owner) s { s with loops := s.loops.eraseIdx i } :=
    .loops _ (forall_mem_eraseIdx inv.loops)
  exact .head ended (unsubscribe_effects (effect_inv ended inv) (.of permitted.owner))

/-! ## Fetching and committing -/

theorem handleFetch_effects (inv : Inv s) {req : FetchRequest} {streamed : Nat × Bool}
    (taken : s.handleFetch id req streamed = some t) : Effects (some id) s t := by
  unfold Broker.handleFetch at taken
  split at taken
  · cases taken
    exact replied _ rfl
  case isFalse may =>
    have may : id.can .fetch req.topic = true := by simpa using may
    have own : concerned id req.topic = true := concerned_of_can may nofun
    split at taken
    · cases taken
      exact replied _ rfl
    case h_2 topicCfg found =>
      split at taken
      · cases taken
        exact replied _ rfl
      case h_2 log opened =>
        have read : ∀ offset maxCount : Int, ∀ m ∈ Broker.readLog log offset maxCount,
            Allows (some id) m.topic :=
          fun _ _ m mem => .of ((readLog_topic inv opened mem).symm ▸ own)
        extract_lets maxCount start msgs s' at taken
        have shown : ∀ m ∈ msgs, Allows (some id) m.topic := read start maxCount
        clear_value msgs
        split at taken
        · cases taken
        split at taken
        · have streaming : Effect (some id) s s' := .reply _ _ (read _ _)
          split at taken
          · cases taken
            exact .head streaming (replied _ rfl)
          · cases taken
            exact .head streaming (.single (.reply _ _ shown))
        · cases taken
          exact .single (.reply _ _ shown)

theorem handleCommitOffset_effects (inv : Inv s) {req : CommitOffsetRequest}
    (own : concerned id req.topic = true) :
    Effects (some id) s (s.handleCommitOffset id req) := by
  unfold Broker.handleCommitOffset
  split
  case h_2 => exact replied _ rfl
  case h_1 manager done =>
    -- the group exists, so its topic is one without a slash
    have plain : SlashFree req.topic := by
      unfold Manager.commitOffset at done
      split at done
      · cases done
      case h_2 g found =>
        rw [← (Manager.find_names found).2]
        exact inv.manager.named g (mem_of_find?_eq_some found)
    rw [Manager.commitOffset_eq done]
    exact .head (.commit _ _ _ _ plain (.of own)) (replied _ rfl)

theorem handleAck_effects {req : AckRequest} (own : concerned id req.topic = true)
    (plain : SlashFree req.topic) : Effects (some id) s (s.handleAck id req) :=
  .head (.commit _ _ _ _ plain (.of own)) (replied _ rfl)

theorem handleNack_effects (inv : Inv s) {req : NackRequest}
    (own : concerned id req.topic = true)
    (spared : req.requeue = false → s.spares id = true) :
    Effects (some id) s (s.handleNack id req) := by
  unfold Broker.handleNack
  split
  · exact replied _ rfl
  case h_2 topicCfg found =>
    split
    · exact replied _ rfl
    case h_2 log opened =>
      extract_lets msg s'
      have same : ∀ m ∈ msg, m.topic = req.topic :=
        fun m mem => readLog_topic inv opened (mem_of_mem_head? mem)
      clear_value msg
      have rejected : Effects (some id) s s' := by
        unfold s'
        cases requeue : req.requeue with
        | true =>
          rw [if_pos rfl]
          cases msg with
          | none => exact .refl
          | some m => grind [dispatchToGroup_effect, dispatch_effect]
        | false =>
          rw [if_neg Bool.false_ne_true]
          grind [buried]
      exact .tail rejected (.reply _ .ok (by simp [Reply.messages]))

theorem seekGroup_effects (plain : SlashFree topic) (may : Allows who topic)
    (targets : List (Nat × Int)) :
    Effects who s { s with manager := Broker.seekGroup s.manager group topic targets } := by
  induction targets generalizing s with
  | nil => exact .refl
  | cons target targets ih =>
    exact .head (.commit group topic target.1 target.2 plain may) ih

theorem handleSeek_effects (inv : Inv s) (req : SeekRequest) (found : Nat → Int) :
    Effects (some id) s (s.handleSeek id req found) := by
  unfold Broker.handleSeek
  split
  · exact replied _ rfl
  split
  · exact replied _ rfl
  case isFalse may =>
    have may : id.can .seek req.topic = true := by simpa using may
    split
    · exact replied _ rfl
    case h_2 topicCfg here =>
      exact .trans (seekGroup_effects (slashFree_of_lookup inv here) (allows_of_can may nofun) _)
        (replied _ rfl)

theorem handleResetGroup_effects (inv : Inv s) (group topic : String) :
    Effects (some id) s (s.handleResetGroup id group topic) := by
  unfold Broker.handleResetGroup
  split
  · exact replied _ rfl
  split
  · exact replied _ rfl
  case isFalse may =>
    have may : id.can .seek topic = true := by simpa using may
    split
    · exact replied _ rfl
    case h_2 topicCfg here =>
      exact .trans (seekGroup_effects (slashFree_of_lookup inv here) (allows_of_can may nofun) _)
        (replied _ rfl)

/-! ## The dead-letter endpoints -/

section

variable {group topic : String} (asked : ∀ id ∈ who, asks id topic = true)

include asked

omit asked in
theorem mem_of_mapM {α β : Type} {f : α → Option β} {xs : List α} {ys : List β}
    (done : xs.mapM f = some ys) {y : β} (mem : y ∈ ys) : ∃ x ∈ xs, f x = some y := by
  induction xs generalizing ys with
  | nil => grind
  | cons x xs ih => grind [bind_eq_some_iff, some.injEq]

theorem allows_selected {e : DLQEntry} (selected : e.selected group topic = true) :
    ∀ m ∈ e.original, Allows who m.topic := by
  intro m original id sender
  have asked := asked id sender
  simp only [asks, Bool.and_eq_true, Bool.or_eq_true, decide_eq_true_eq] at asked
  obtain ⟨own, named⟩ := asked
  by_cases unnamed : topic = ""
  · exact concerned_of_unlisted (named.resolve_left fun h => h unnamed) own m.topic
  · have same : m.topic = topic := by
      have := (of_decide_eq_true selected).2.resolve_left unnamed
      exact this m original
    exact same ▸ own

theorem named_of_asks {other : String} (out : ¬ Allows who other) :
    topic ≠ "" ∧ topic ≠ other := by
  have : ∃ id ∈ who, concerned id other = false := by
    simpa [Allows] using out
  obtain ⟨id, sender, off⟩ := this
  have asked := asked id sender
  simp only [asks, Bool.and_eq_true, Bool.or_eq_true, decide_eq_true_eq] at asked
  obtain ⟨own, named⟩ := asked
  constructor
  · rintro rfl
    have all := concerned_of_unlisted (named.resolve_left fun h => h rfl) own other
    rw [off] at all
    cases all
  · grind

theorem httpDLQ_effects (limit : Int) : Effects who s (s.httpDLQ who group topic limit) := by
  unfold Broker.httpDLQ
  extract_lets entries
  split
  · exact replied _ rfl
  split
  · exact replied _ rfl
  case h_2 rows listed =>
    refine .single (.reply _ _ fun m mem => ?_)
    obtain ⟨row, here, rfl⟩ := mem_map.mp mem
    -- a row comes from one of the selected entries
    obtain ⟨e, entry, shown⟩ := mem_of_mapM listed here
    obtain ⟨m, original, rfl⟩ := map_eq_some_iff.mp shown
    have selected := (mem_filter.mp (mem_of_mem_take entry)).2
    grind [allows_selected]

theorem httpDLQPurge_effects : Effects who s (s.httpDLQPurge who group topic) := by
  refine .head (.deadLetters _ fun other out => ?_) (replied _ rfl)
  obtain ⟨named, differ⟩ := named_of_asks asked out
  exact DeadLetterQueue.purge_ofTopic named differ

theorem httpDLQDelete_effects (key : String) :
    Effects who s (s.httpDLQDelete who key group topic) := by
  unfold Broker.httpDLQDelete
  extract_lets deleted
  split
  · refine .head (.deadLetters deleted.1 fun other out => ?_) (replied _ rfl)
    obtain ⟨named, differ⟩ := named_of_asks asked out
    exact DeadLetterQueue.delete_ofTopic named differ
  · exact replied _ rfl

theorem httpDLQExport_effects (key : String) :
    Effects who s (s.httpDLQExport who key group topic) := by
  unfold Broker.httpDLQExport
  split
  · exact replied _ rfl
  case h_2 e found =>
    split
    · exact replied _ rfl
    case h_2 m original =>
      have named := find?_some found
      refine .single (.reply _ _ fun m' only => ?_)
      obtain rfl := mem_singleton.mp only
      exact allows_selected asked (of_decide_eq_true named).2 m' original

end

theorem republish_effects {stamps : Nat → Stamp} (es : List DLQEntry)
    (own : ∀ e ∈ es, ∀ m ∈ e.original, Allows who m.topic) (replayed : Nat) :
    Effects who s (Broker.republish cfg stamps replayed es s).1 := by
  induction es generalizing s replayed with
  | nil => exact .refl
  | cons e es ih =>
    have rest := fun e mem => own e (mem_cons_of_mem _ mem)
    unfold Broker.republish
    split
    · exact .refl
    case h_2 msg original =>
      have may := own e (mem_cons_self ..) msg original
      extract_lets req prepared s'
      have counted : Effect who s s' := .counters prepared.2
      refine .head counted ?_
      split
      · exact .refl
      · exact ih rest _
      case h_3 partID out written =>
        have same : out.topic = req.topic := prepare_write written
        extract_lets place result
        exact .head (.append place out same may) (.head (.producer _) (ih rest _))

theorem httpDLQReplay_effects {stamps : Nat → Stamp} (limit : Int)
    (asked : ∀ id ∈ who, asks id topic = true) :
    Effects who s (s.httpDLQReplay cfg who group topic limit stamps) := by
  unfold Broker.httpDLQReplay
  extract_lets removed ended
  have taken : Effect who s { s with dlq := removed.1 } := by
    refine .deadLetters _ fun other out => ?_
    obtain ⟨named, differ⟩ := named_of_asks asked out
    exact DeadLetterQueue.replay_ofTopic limit named differ
  have all : Effects who s ended.1 :=
    .head taken (republish_effects removed.2
      (fun e mem => allows_selected asked (DeadLetterQueue.sift_removed mem)) 0)
  split
  · exact all.trans (replied _ rfl)
  · exact all.trans (replied _ rfl)
  · exact all.trans (replied _ rfl)

end

end PubsubBroker.Access
