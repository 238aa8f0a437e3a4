/-
# Publish.Balance — how keyless messages are spread over the partitions

Every call of `Assign` for a keyless message advances the round robin of its topic, and a
publish makes two: the handler asks for the partition to lock, and `Producer.Publish` asks
again for the partition to write to (`internal/broker/handlers_publish.go`,
`internal/producer/producer.go`).  Only the second answer counts, so that a message goes two
places further than the one before it.

`Passed` is what one message can do to the counter of a topic and to the keyless messages
stored there, through either handler; `Broker.run_passes` is the same for any calls.  The
partitions of the stored messages are therefore a stride of two (`Passes.keyless_eq`), and
`Theory.RoundRobin` says when such a stride is fair: for an odd number of partitions, or until
the first partition comes up again (`keyless_balanced_iff`).  On an even number of partitions
half of them stay empty (`keyless_one_sided`).
-/
import Mathlib.Data.Nat.Prime.Basic
import PubsubBroker.Publish.Sequential
import PubsubBroker.Theory.RoundRobin

namespace PubsubBroker.Publish

open Theory List
open Storage (Message wrap64 wrap64_eq)

/-! ## Calls -/

inductive Call where
  | single (cluster : Option Node) (may : Bool) (client : String) (req : PublishRequest) (w : World)
  | batch (may : Bool) (client : String) (messages : List (PublishRequest × World))

def Call.messages : Call → List PublishRequest
  | .single _ _ _ req _ => [req]
  | .batch _ _ messages => messages.map Prod.fst

def Broker.call (S : Setup) (s : Broker) : Call → Broker
  | .single cluster may client req w => (s.handlePublish S cluster may client req w).1
  | .batch may client messages => (s.handleBatchPublish S may client messages).1

def Broker.run (S : Setup) (s : Broker) (calls : List Call) : Broker := calls.foldl (Broker.call S) s

def keyless (topic : String) (req : PublishRequest) : Bool := req.topic = topic && req.key = []

/-- The partitions of the keyless messages of the topic that were stored, in order. -/
def Broker.keyless (s : Broker) (topic : String) : List Int :=
  (s.written.filter fun a => Publish.keyless topic a.request).map fun a => a.result.partition

/-! ## One message -/

/-- What one message can do to the round robin of a topic and the keyless messages there. -/
structure Passed (topic : String) (s t : Broker) (req : PublishRequest) : Prop where
  topics : t.topics = s.topics
  other : keyless topic req = false →
    t.counters topic = s.counters topic ∧ t.keyless topic = s.keyless topic
  own : keyless topic req = true → t.keyless topic = s.keyless topic ∨
    ∃ cfg, s.topics topic = some cfg ∧
      t.counters topic = wrap64 (wrap64 (s.counters topic + 1) + 1) ∧
      t.keyless topic =
        s.keyless topic ++ [(wrap64 (s.counters topic + 1)).tmod cfg.partitions]

theorem Passed.refl (topic : String) (s : Broker) (req : PublishRequest) : Passed topic s s req :=
  ⟨rfl, fun _ => ⟨rfl, rfl⟩, fun _ => .inl rfl⟩

section

variable {S : Setup} {client topic : String} {s t : Broker} {req : PublishRequest} {w : World}

theorem assign_counters (topics : Topics) (counters : Counters) (topic : String)
    (req : PublishRequest) :
    (assign topics counters req.topic req.key).2 topic =
      if keyless topic req ∧ (topics topic).isSome then wrap64 (counters topic + 1)
      else counters topic := by
  unfold assign keyless
  by_cases same : req.topic = topic
  · subst same
    cases found : topics req.topic with
    | none => simp
    | some cfg =>
      by_cases keyed : req.key = []
      · simp [keyed]
      · simp [keyed]
  · have other : (Function.update counters req.topic (wrap64 (counters req.topic + 1))) topic =
        counters topic := Function.update_of_ne (Ne.symm same) _ _
    simp only [same, decide_false, Bool.false_and, Bool.false_eq_true, false_and, if_false]
    split
    · rfl
    · split
      · rfl
      · exact other

theorem prepare_counters (compress : UInt8 → Bytes → Option Bytes) (topics : Topics)
    (counters : Counters) (p : Producer) (req : PublishRequest) (stamp : Stamp) :
    (prepare compress topics counters p req stamp).2 =
      (assign topics counters req.topic req.key).2 := by
  unfold prepare assign
  cases topics req.topic <;> rfl

theorem prepare_partition {compress : UInt8 → Bytes → Option Bytes} {topics : Topics}
    {counters : Counters} {p : Producer} {stamp : Stamp} {partID : Int} {msg : Message}
    (prepared : (prepare compress topics counters p req stamp).1 = .write partID msg) :
    (assign topics counters req.topic req.key).1 = some partID := by
  unfold prepare at prepared
  split at prepared
  · cases prepared
  · grind [byMode]

theorem publish_spec (published : (s.publish S client req w).1 = t) :
    t.topics = s.topics ∧ t.counters = (assign s.topics s.counters req.topic req.key).2 ∧
      (t.written = s.written ∨ ∃ result : PublishResult,
        (assign s.topics s.counters req.topic req.key).1 = some result.partition ∧
        t.written = s.written ++ [⟨client, req, result⟩]) := by
  subst published
  rw [← prepare_counters S.compress s.topics s.counters s.producer req w.stamp, Broker.publish]
  cases prepared : (prepare S.compress s.topics s.counters s.producer req w.stamp).1 with
  | failed error | duplicate result => exact ⟨rfl, rfl, .inl rfl⟩
  | write partID msg => exact ⟨rfl, rfl, .inr ⟨_, prepare_partition prepared, rfl⟩⟩

theorem capture_same (s : Broker) (req : PublishRequest) (part : Int) :
    (s.capture req part).topic = req.topic ∧ (s.capture req part).key = req.key := by
  unfold Broker.capture
  split <;> exact ⟨rfl, rfl⟩

theorem logAndPublish_cases (S : Setup) (client : String) (s : Broker) (req : PublishRequest)
    (part : Int) (w : World) :
    ∃ wal, (s.logAndPublish S client req part w).1 = { s with wal := wal } ∨
      (s.logAndPublish S client req part w).1 =
        (({ s with wal := wal } : Broker).publish S client (s.capture req part) w).1 := by
  unfold Broker.logAndPublish
  simp only
  split
  case isFalse => exact ⟨s.wal, .inl rfl⟩
  case isTrue =>
    split
    · simp
    · rename_i wal _ _
      refine ⟨wal, .inr ?_⟩
      grind

theorem Passed.unstored (topics : t.topics = s.topics)
    (counters : keyless topic req = false → t.counters topic = s.counters topic)
    (written : t.written = s.written) : Passed topic s t req := by
  have same : t.keyless topic = s.keyless topic := by simp [Broker.keyless, written]
  exact ⟨topics, fun keyed => ⟨counters keyed, same⟩, fun _ => .inl same⟩

theorem assign_other (topics : Topics) (counters : Counters) (keyed : keyless topic req = false) :
    (assign topics counters req.topic req.key).2 topic = counters topic := by
  rw [assign_counters, if_neg (by simp [keyed])]

theorem assign_keyless {topics : Topics} {counters : Counters} {partID : Int}
    (own : keyless topic req = true)
    (assigned : (assign topics counters req.topic req.key).1 = some partID) :
    ∃ cfg, topics topic = some cfg ∧ partID = (counters topic).tmod cfg.partitions := by
  simp only [keyless, Bool.and_eq_true, decide_eq_true_eq] at own
  obtain ⟨rfl, noKey⟩ := own
  unfold assign at assigned
  cases found : topics req.topic with
  | none => simp [found] at assigned
  | some cfg => grind

theorem logAndPublish_passed (S : Setup) (client topic : String) (s : Broker)
    (req : PublishRequest) (part : Int) (w : World) :
    Passed topic s ((s.assignFirst req).2.logAndPublish S client req part w).1 req := by
  obtain ⟨sameTopic, sameKey⟩ := capture_same (s.assignFirst req).2 req part
  obtain ⟨wal, stopped | published⟩ :=
    logAndPublish_cases S client (s.assignFirst req).2 req part w
  · rw [stopped]
    exact .unstored rfl (assign_other s.topics s.counters) rfl
  · obtain ⟨topics, counters, written⟩ := publish_spec published.symm
    rw [sameTopic, sameKey] at counters written
    rcases written with unwritten | ⟨result, assigned, written⟩
    · refine .unstored topics (fun keyed => ?_) unwritten
      rw [counters, assign_other _ _ keyed]
      exact assign_other _ _ keyed
    · have kind : keyless topic ((s.assignFirst req).2.capture req part) = keyless topic req := by
        simp [keyless, sameTopic, sameKey]
      have stored := congrArg (fun written => (written.filter fun a : Ack =>
        keyless topic a.request).map fun a => a.result.partition) written
      simp only [filter_append, map_append] at stored
      refine ⟨topics, ?_, ?_⟩
      · intro keyed
        rw [filter_singleton, kind, keyed] at stored
        constructor
        · rw [counters, assign_other _ _ keyed]
          exact assign_other _ _ keyed
        · exact stored.trans (append_nil _)
      · intro own
        rw [filter_singleton, kind, own] at stored
        obtain ⟨cfg, found, place⟩ := assign_keyless own assigned
        have known : (s.topics topic).isSome = true := Option.isSome_of_eq_some found
        -- the counter has been advanced once already
        have advanced : (s.assignFirst req).2.counters topic = wrap64 (s.counters topic + 1) := by
          show (assign s.topics s.counters req.topic req.key).2 topic = _
          rw [assign_counters, if_pos ⟨own, known⟩]
        right
        refine ⟨cfg, found, ?_, ?_⟩
        · rw [counters, assign_counters, if_pos ⟨own, known⟩]
          simp [advanced]
        · refine stored.trans ?_
          rw [← advanced, ← place]
          rfl

theorem handlePublish_passed (cluster : Option Node) (may : Bool) :
    Passed topic s (s.handlePublish S cluster may client req w).1 req := by
  unfold Broker.handlePublish
  split
  · exact .refl ..
  · split
    · exact .refl ..
    · simp only
      split
      · exact .unstored rfl (assign_other s.topics s.counters) rfl
      grind [logAndPublish_passed]

end

/-! ## Any calls -/

/-- One message after the other. -/
inductive Passes (topic : String) : Broker → List PublishRequest → Broker → Prop where
  | nil (s : Broker) : Passes topic s [] s
  | cons {s t u : Broker} {req : PublishRequest} {rest : List PublishRequest}
      (first : Passed topic s t req) (later : Passes topic t rest u) :
      Passes topic s (req :: rest) u

section

variable {S : Setup} {topic : String} {s t u : Broker} {reqs more : List PublishRequest}

theorem Passes.idle (topic : String) (s : Broker) (reqs : List PublishRequest) :
    Passes topic s reqs s := by
  induction reqs with
  | nil => exact .nil s
  | cons req rest ih => exact .cons (.refl topic s req) ih

theorem Passes.append (first : Passes topic s reqs t) (later : Passes topic t more u) :
    Passes topic s (reqs ++ more) u := by
  induction first with
  | nil => exact later
  | cons passed _ ih => exact .cons passed (ih later)

theorem batchLoop_passes (client : String) (messages : List (PublishRequest × World)) :
    Passes topic s (messages.map Prod.fst) (s.batchLoop S client messages).1 := by
  induction messages generalizing s with
  | nil => exact .nil s
  | cons m rest ih =>
    obtain ⟨m, w⟩ := m
    have passed := logAndPublish_passed S client topic s m (s.assignFirst m).1 w
    unfold Broker.batchLoop
    simp only
    split
    · rename_i failed
      rw [failed] at passed
      exact .cons passed ih
    · rename_i stopped
      rw [stopped] at passed
      exact .cons passed (.idle ..)
    · rename_i published
      rw [published] at passed
      exact .cons passed ih

theorem handleBatchPublish_passes (may : Bool) (client : String)
    (messages : List (PublishRequest × World)) :
    Passes topic s (messages.map Prod.fst) (s.handleBatchPublish S may client messages).1 := by
  unfold Broker.handleBatchPublish
  split
  · exact .nil s
  · split
    · exact .idle ..
    · split
      · exact .idle ..
      · exact batchLoop_passes client _

theorem Broker.run_passes (S : Setup) (topic : String) (s : Broker) (calls : List Call) :
    Passes topic s (calls.flatMap Call.messages) (s.run S calls) := by
  induction calls generalizing s with
  | nil => exact .nil s
  | cons c calls ih =>
    have first : Passes topic s c.messages (s.call S c) := by
      cases c with
      | single cluster may client req w => exact .cons (handlePublish_passed cluster may) (.nil _)
      | batch may client messages => exact handleBatchPublish_passes may client messages
    exact first.append (ih (s.call S c))

theorem Passes.keyless_length (passes : Passes topic s reqs t) :
    (t.keyless topic).length ≤ (s.keyless topic).length + reqs.countP (Publish.keyless topic) := by
  induction passes with
  | nil => exact Nat.le_add_right _ _
  | cons passed _ ih =>
    rw [countP_cons]
    cases kind : Publish.keyless topic _ with
    | false =>
      rw [(passed.other kind).2] at ih
      simpa using ih
    | true =>
      simp only [if_true]
      grind [Passed.own]

/-- **The partitions are a stride of two**, when every keyless message is stored. -/
theorem Passes.keyless_eq {cfg : TopicConfig} {c : Nat} (passes : Passes topic s reqs t)
    (known : s.topics topic = some cfg) (counter : s.counters topic = c)
    (room : c + 2 * reqs.countP (Publish.keyless topic) < 2 ^ 63)
    (all : (t.keyless topic).length =
      (s.keyless topic).length + reqs.countP (Publish.keyless topic)) :
    t.keyless topic = s.keyless topic ++
      (strided (c + 1) 2 cfg.partitions (reqs.countP (Publish.keyless topic))).map Int.ofNat := by
  induction passes generalizing c with
  | nil => simp [strided]
  | @cons s t u req rest passed later ih =>
    rw [countP_cons] at room all ⊢
    rw [← passed.topics] at known
    cases kind : Publish.keyless topic req with
    | false =>
      obtain ⟨sameCounter, same⟩ := passed.other kind
      grind
    | true =>
      simp only [kind, if_true] at room all ⊢
      have bound := later.keyless_length
      rcases passed.own kind with same | ⟨cfg', found, next, stored⟩
      · rw [same] at bound
        omega
      · obtain rfl : cfg = cfg' := Option.some.inj (known.symm.trans (passed.topics ▸ found))
        have once : wrap64 (s.counters topic + 1) = ((c + 1 : Nat) : Int) := by
          rw [counter]
          exact wrap64_eq ⟨by omega, by omega⟩
        have twice : t.counters topic = ((c + 2 : Nat) : Int) := by
          rw [next, once]
          exact wrap64_eq ⟨by omega, by omega⟩
        rw [once] at stored
        have tail := ih known twice (by omega) (by
          rw [all, stored, length_append, length_singleton]
          omega)
        rw [tail, stored, strided_succ, map_cons, append_assoc]
        rfl

end

/-! ## Balance -/

/-- No partition has two keyless messages more than another. -/
def Broker.Even (s : Broker) (topic : String) (partitions : Nat) : Prop :=
  ∀ p < partitions, ∀ q < partitions,
    (s.keyless topic).count (p : Int) ≤ (s.keyless topic).count (q : Int) + 1

/-- **Keyless balance.**  On a topic without keyless messages so far, any calls of the two
handlers that store all their keyless messages spread them evenly if and only if the number of
partitions is odd, or is at least twice the number of these messages. -/
theorem keyless_balanced_iff (S : Setup) (s : Broker) (topic : String) (cfg : TopicConfig)
    (calls : List Call) (known : s.topics topic = some cfg) (none : s.keyless topic = [])
    (counter : 0 ≤ s.counters topic)
    (room : s.counters topic + 2 * (calls.flatMap Call.messages).countP (keyless topic) < 2 ^ 63)
    (all : ((s.run S calls).keyless topic).length =
      (calls.flatMap Call.messages).countP (keyless topic)) :
    (s.run S calls).Even topic cfg.partitions ↔
      cfg.partitions % 2 = 1 ∨
        2 * (calls.flatMap Call.messages).countP (keyless topic) ≤ cfg.partitions := by
  have partitions := (Broker.run_passes S topic s calls).keyless_eq known
    (Int.toNat_of_nonneg counter).symm (by omega) (by rw [all, none]; simp)
  rw [none, nil_append] at partitions
  have even : (s.run S calls).Even topic cfg.partitions ↔ Theory.Balanced cfg.partitions
      (strided ((s.counters topic).toNat + 1) 2 cfg.partitions
        ((calls.flatMap Call.messages).countP (keyless topic))) := by
    rw [Broker.Even, partitions, Theory.Balanced]
    simp only [← Int.ofNat_eq_natCast, count_map_of_injective _ _ Int.ofNat_injective]
  rw [even, strided_balanced_iff _ _ cfg.positive]
  rcases Nat.mod_two_eq_zero_or_one cfg.partitions with pairs | odd
  · grind [Nat.gcd_eq_right]
  · have coprime : cfg.partitions.gcd 2 = 1 := Nat.coprime_two_right.mpr (Nat.odd_iff.mpr odd)
    omega

/-- A keyless publish, alone or as a batch. -/
def sampleSingle : Call := .single none true "c" (sampleRequest [] 1 0 0) (sampleWorld true)

def sampleBatch (count : Nat) : Call :=
  .batch true "c" (List.replicate count (sampleRequest [] 1 0 0, sampleWorld true))

def sampleKeyed : Call := .single none true "c" (sampleRequest [107] 1 0 0) (sampleWorld true)

/-- **One of two partitions gets everything.**  Three keyless messages, two of them in a batch,
are published on two partitions.  All are stored, and all in partition 1. -/
theorem keyless_one_sided :
    let s := (sampleBroker 2 Nat.two_pos).run sampleSetup [sampleSingle, sampleBatch 2]
    s.keyless "t" = [1, 1, 1] ∧ (s.logs ⟨"t", 0⟩).nextOffset = 0 ∧
      (s.logs ⟨"t", 1⟩).nextOffset = 3 ∧ ¬ s.Even "t" 2 := by
  intro s
  have stored : s.keyless "t" = [1, 1, 1] := by decide +kernel
  refine ⟨stored, by decide +kernel, by decide +kernel, ?_⟩
  intro even
  have loads := even 1 (by decide) 0 (by decide)
  rw [stored] at loads
  exact absurd loads (by decide)

theorem keyless_balanced_three :
    let s := (sampleBroker 3 (Nat.succ_pos 2)).run sampleSetup [sampleSingle, sampleKeyed, sampleBatch 3]
    s.keyless "t" = [1, 0, 2, 1] ∧ s.Even "t" 3 := by
  intro s
  have stored : s.keyless "t" = [1, 0, 2, 1] := by decide +kernel
  refine ⟨stored, ?_⟩
  exact (keyless_balanced_iff sampleSetup (sampleBroker 3 (Nat.succ_pos 2)) "t" ⟨3, 0, Nat.succ_pos 2⟩
    [sampleSingle, sampleKeyed, sampleBatch 3] rfl rfl (by decide) (by decide)
    ((congrArg List.length stored).trans (by decide))).mpr (.inl (by decide))

end PubsubBroker.Publish
