/-
# Consumers.Pull — polling a partition and committing what was received

`PollPartitionLog` and `CommitOffset` of `internal/consumer/consumer.go`.  A poll
takes its start offset from the committed one and reads until it finds something
or is cancelled; the group then commits the last offset it received and polls
again.  Between any two steps the partition may grow, lose sealed records to a
retention sweep or a key compaction, or be reopened.

The committed offset splits the log: the group has received every retained record
up to it and none behind it.  `Theory.SparseLog.Follows` is that invariant on the
abstract log, and `Inv` ties it to the files, the offset store and the poll.
-/
import PubsubBroker.Consumers.Group
import PubsubBroker.Storage.Refinement
import PubsubBroker.Theory.Transition

namespace PubsubBroker.Consumers

open Theory Storage List

structure Subscription where
  group : String
  topic : String
  partition : Int

/-- Where the group is in its loop.  A poll keeps the start offset it began with. -/
inductive Phase where
  | idle
  | polling (startOff batchSize : Int)
  | fetched (last : Int)
deriving DecidableEq

structure Pull where
  log : PartitionLog
  manager : Manager
  phase : Phase
  received : List Message

inductive Event where
  | op (op : Op)
  | subscribe (consumerID : String) (partCount : Nat)
  | unsubscribe (consumerID : String)
  | poll (batchSize : Int)
  | read
  | cancel
  | commit (consumerID : String)

/-- One step.  A commit that is refused is tried again. -/
def Pull.step (K : Codecs) (sub : Subscription) (s : Pull) : Event → Option Pull
  | .op op => some { s with log := (s.log.step K op).1 }
  | .subscribe consumerID partCount =>
    some { s with
      manager := (s.manager.subscribe sub.group consumerID sub.topic partCount).1 }
  | .unsubscribe consumerID =>
    some { s with manager := s.manager.unsubscribe sub.group consumerID sub.topic }
  | .poll batchSize =>
    match s.phase with
    | .idle =>
      some { s with
        phase := .polling (startOffset s.manager.offsets sub.group sub.topic sub.partition)
          batchSize }
    | _ => none
  | .read =>
    match s.phase with
    | .polling startOff batchSize =>
      match s.log.read K startOff batchSize with
      | .error _ => some { s with phase := .idle }
      | .ok msgs =>
        match msgs.getLast? with
        | none => some s
        | some last =>
          some { s with phase := .fetched last.offset, received := s.received ++ msgs }
    | _ => none
  | .cancel =>
    match s.phase with
    | .polling _ _ => some { s with phase := .idle }
    | _ => none
  | .commit consumerID =>
    match s.phase with
    | .fetched last =>
      match s.manager.commitOffset sub.group consumerID sub.topic sub.partition last with
      | none => some s
      | some manager => some { s with manager := manager, phase := .idle }
    | _ => none

/-- The operations the storage can carry out, and batch sizes of at least one. -/
def Pull.Allowed (K : Codecs) (s : Pull) : Event → Prop
  | .op op => op.Admissible K ∧ IsInt64 s.log.nextOffset
  | .poll batchSize => 1 ≤ batchSize
  | _ => True

/-! ## The committed offset splits the log -/

section

variable {K : Codecs} {sub : Subscription}

/-- Up to `frontier` everything was received, and the next poll starts behind it. -/
structure Inv (K : Codecs) (sub : Subscription) (s : Pull) (frontier : Int) : Prop where
  wf : s.log.WellFormed K
  follows : wf.view.Follows frontier (s.received.map entry)
  low : -1 ≤ frontier
  phase : match s.phase with
    | .idle =>
      startOffset s.manager.offsets sub.group sub.topic sub.partition = frontier + 1
    | .polling startOff batchSize =>
      startOffset s.manager.offsets sub.group sub.topic sub.partition = frontier + 1 ∧
        startOff = frontier + 1 ∧ 1 ≤ batchSize
    | .fetched last => last = frontier ∧ 0 ≤ frontier

variable {frontier : Int}

theorem follows_spec {log log' : SparseLog Message} {op : Op} {out : Outcome}
    {seen : List (Int × Message)} (spec : Spec log op out log')
    (follows : log.Follows frontier seen) : log'.Follows frontier seen := by
  cases spec with
  | append now msg step => exact follows.extends step
  | compact sweep step | compactPartition sweep step => exact follows.trims step
  | _ => exact follows

theorem startOffset_commit (m : Manager) {offset : Int} (low : 0 ≤ offset) :
    startOffset (commit m.offsets sub.group sub.topic sub.partition offset) sub.group sub.topic
      sub.partition = offset + 1 := by
  unfold startOffset
  rw [load_commit, if_neg (not_lt.mpr low)]

variable {s : Pull}

theorem Inv.read_eq {startOff batchSize : Int} (inv : Inv K sub s frontier)
    (polling : s.phase = .polling startOff batchSize) :
    ∃ msgs, s.log.read K startOff batchSize = .ok msgs ∧
      msgs.map entry = inv.wf.view.read (frontier + 1) batchSize := by
  have phase := inv.phase
  rw [polling] at phase
  rw [phase.2.1]
  exact inv.wf.read_view (frontier + 1) batchSize

/-- **Every step keeps the split.** -/
theorem inv_step {s' : Pull} {e : Event} (inv : Inv K sub s frontier) (allowed : s.Allowed K e)
    (taken : s.step K sub e = some s') : ∃ frontier', Inv K sub s' frontier' := by
  have phase := inv.phase
  revert taken
  fun_cases Pull.step K sub s e with
  | case1 op =>
    rintro ⟨⟩
    obtain ⟨wf, spec⟩ := step_refines inv.wf op allowed.1 allowed.2
    exact ⟨frontier, wf, follows_spec spec inv.follows, inv.low, phase⟩
  | case2 consumerID n =>
    rintro ⟨⟩
    refine ⟨frontier, inv.wf, inv.follows, inv.low, ?_⟩
    grind [Manager.subscribe_offsets]
  | case4 batchSize idle =>
    rintro ⟨⟩
    rw [idle] at phase
    exact ⟨frontier, inv.wf, inv.follows, inv.low, phase, phase, allowed⟩
  | case6 startOff batchSize polling _ failed =>
    obtain ⟨msgs, read, -⟩ := inv.read_eq polling
    cases failed.symm.trans read
  | case8 startOff batchSize polling msgs read last final =>
    rintro ⟨⟩
    obtain ⟨_, read', entries⟩ := inv.read_eq polling
    cases read.symm.trans read'
    have final' : (inv.wf.view.read (frontier + 1) batchSize).getLast? = some (entry last) := by
      grind
    have ahead : frontier + 1 ≤ last.offset :=
      SparseLog.le_of_mem_read (mem_of_getLast? final')
    have low := inv.low
    refine ⟨last.offset, inv.wf, ?_, by omega, rfl, by omega⟩
    rw [map_append, entries]
    exact inv.follows.read final'
  | case10 startOff batchSize polling =>
    rintro ⟨⟩
    rw [polling] at phase
    exact ⟨frontier, inv.wf, inv.follows, inv.low, phase.1⟩
  | case13 consumerID last fetched manager done =>
    rintro ⟨⟩
    rw [fetched] at phase
    obtain ⟨rfl, low⟩ := phase
    refine ⟨last, inv.wf, inv.follows, inv.low, ?_⟩
    rw [Manager.commitOffset_eq done]
    exact startOffset_commit s.manager low
  | case3 | case7 | case12 =>
    rintro ⟨⟩
    exact ⟨frontier, inv.wf, inv.follows, inv.low, phase⟩
  | _ => rintro ⟨⟩

def Pull.start (pl : PartitionLog) (manager : Manager) : Pull := ⟨pl, manager, .idle, []⟩

theorem inv_start {pl : PartitionLog} (wf : pl.WellFormed K) (next : 0 ≤ pl.nextOffset)
    (offsets : ∀ r ∈ pl.records K, 0 ≤ r.offset) {manager : Manager}
    (fresh : load manager.offsets sub.group sub.topic sub.partition < 0) :
    Inv K sub (Pull.start pl manager) (-1) where
  wf := wf
  follows := by
    apply SparseLog.follows_nil
    · show -1 < pl.nextOffset
      omega
    · intro e mem
      obtain ⟨r, held, rfl⟩ := mem_map.mp mem
      have := offsets r held
      show -1 < r.offset
      omega
  low := le_refl _
  phase := if_pos fresh

theorem inv_reached {start : Pull} (inv : Inv K sub start frontier)
    (run : Reaches (Pull.step K sub) (Pull.Allowed K) start s) :
    ∃ frontier', Inv K sub s frontier' := by
  induction run with
  | init => exact ⟨frontier, inv⟩
  | step before allowed taken ih =>
    obtain ⟨frontier', inv'⟩ := ih
    exact inv_step inv' allowed taken

theorem Inv.increasing (inv : Inv K sub s frontier) :
    (s.received.map Message.offset).Pairwise (· < ·) := by
  have sorted := inv.follows.sorted
  rw [pairwise_map] at sorted ⊢
  exact sorted

theorem Inv.drained {startOff batchSize : Int} (inv : Inv K sub s frontier)
    (polling : s.phase = .polling startOff batchSize)
    (nothing : s.log.read K startOff batchSize = .ok []) :
    ∀ r ∈ s.log.records K, r.msg ∈ s.received := by
  intro r mem
  have phase := inv.phase
  rw [polling] at phase
  obtain ⟨msgs, read, entries⟩ := inv.read_eq polling
  cases nothing.symm.trans read
  have held : entry r.msg ∈ inv.wf.view.entries := by
    rw [inv.wf.view_entries]
    exact mem_map.mpr ⟨r, mem, rfl⟩
  have seen := inv.follows.drained phase.2.2 entries.symm (entry r.msg) held
  obtain ⟨m, got, same⟩ := mem_map.mp seen
  have same : m = r.msg := congrArg Prod.snd same
  exact same ▸ got

/-- **Polling and committing misses nothing and repeats nothing.**  A group without
a committed offset polls and commits, while the partition grows, is swept and is
reopened.  It receives messages in strictly increasing offset order, so none
twice; a read of a poll does not fail; and whenever one finds nothing, every
record that is then retained was received. -/
theorem pull_complete {pl : PartitionLog} (wf : pl.WellFormed K) (next : 0 ≤ pl.nextOffset)
    (offsets : ∀ r ∈ pl.records K, 0 ≤ r.offset) {manager : Manager}
    (fresh : load manager.offsets sub.group sub.topic sub.partition < 0) {s : Pull}
    (run : Reaches (Pull.step K sub) (Pull.Allowed K) (Pull.start pl manager) s) :
    (s.received.map Message.offset).Pairwise (· < ·) ∧
      ∀ startOff batchSize, s.phase = .polling startOff batchSize →
        (∃ msgs, s.log.read K startOff batchSize = .ok msgs) ∧
          (s.log.read K startOff batchSize = .ok [] →
            ∀ r ∈ s.log.records K, r.msg ∈ s.received) := by
  obtain ⟨frontier, inv⟩ := inv_reached (inv_start wf next offsets fresh) run
  refine ⟨inv.increasing, ?_⟩
  intro startOff batchSize polling
  constructor
  · grind [Inv.read_eq]
  · exact inv.drained polling

end

instance (s : Pull) : DecidablePred (s.Allowed sampleCodecs) := by
  rintro (_ | _) <;> unfold Pull.Allowed <;> infer_instance

def samplePartition : Subscription := ⟨"g", "t", 0⟩

def sampleStart : Pull := Pull.start (openPartitionLog sampleCodecs 60 40 []) ⟨[], ∅, 1⟩

/-- The first record is fetched, and compacted away before it is committed; the
last poll finds nothing. -/
def samplePolls : List Event :=
  [.subscribe "c" 1, .op (.append 1 sampleMessage), .poll 1, .read,
    .op (.append 2 sampleMessage), .op (.append 3 sampleMessage),
    .op (.compactPartition ⟨10, 5⟩), .commit "c", .poll 2, .read, .commit "c", .poll 2]

theorem pull_complete_sample :
    ∃ s, Reaches (Pull.step sampleCodecs samplePartition) (Pull.Allowed sampleCodecs) sampleStart s ∧
      s.received.map Message.offset = [0, 1, 2] ∧ s.phase = .polling 3 2 ∧
      s.log.read sampleCodecs 3 2 = .ok [] ∧
      ∀ r ∈ s.log.records sampleCodecs, r.msg ∈ s.received := by
  refine Reaches.exists_run_of (P := fun s => s.received.map Message.offset = [0, 1, 2] ∧
    s.phase = .polling 3 2 ∧ s.log.read sampleCodecs 3 2 = .ok []) samplePolls (by decide +kernel) ?_
  rintro s reached ⟨received, phase, read⟩
  obtain ⟨wf, none⟩ := @PartitionLog.openPartitionLog_nil sampleCodecs 60 40 (by decide) (by decide)
  refine ⟨received, phase, read, ?_⟩
  exact ((pull_complete wf (by decide) (by simp [none]) (by decide) reached).2 3 2 phase).2 read

end PubsubBroker.Consumers
