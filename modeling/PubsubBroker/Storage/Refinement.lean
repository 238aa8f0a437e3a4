/-
# Storage.Refinement — a partition log is a sparse log

The operations of a partition (`Op`) are run on the model of the code
(`PartitionLog.step`) and specified on the abstract log of `Theory.SparseLog`
(`Spec`).  The two are connected by `PartitionLog.view`, the abstract log whose
entries are the records in the files.

`step_refines` is the step lemma: one operation of the code is one step of the
specification between the views.  `partitionLog_refines` is the run lemma, for
every history from an empty directory.
-/
import PubsubBroker.Storage.Compactor
import PubsubBroker.Theory.SparseLog

namespace PubsubBroker.Storage

open Theory List

/-- The operations on one partition; `reopen` is `Close` and `OpenPartitionLog`
with the same configuration. -/
inductive Op where
  | append (now : Int) (msg : Message)
  | read (startOffset maxCount : Int)
  | nextOffset
  | compact (sweep : Retention)
  | compactPartition (sweep : Sweep)
  | reopen

inductive Outcome where
  | offset (offset : Int)
  | messages (msgs : List Message)
  | done
  | readFailed (error : ReadError)
  | compactFailed (error : CompactError)
deriving DecidableEq

def PartitionLog.step (K : Codecs) (pl : PartitionLog) : Op → PartitionLog × Outcome
  | .append now msg => ((pl.append K now msg).1, .offset (pl.append K now msg).2)
  | .read startOffset maxCount =>
    match pl.read K startOffset maxCount with
    | .ok msgs => (pl, .messages msgs)
    | .error e => (pl, .readFailed e)
  | .nextOffset => (pl, .offset pl.nextOffset)
  | .compact sweep => ((pl.compact sweep).1, .done)
  | .compactPartition sweep =>
    let swept := Storage.compactPartition K pl sweep fun _ => none
    (swept.1, match swept.2.2 with
      | none => .done
      | some e => .compactFailed e)
  | .reopen => (pl.reopen K, .done)

def PartitionLog.run (K : Codecs) : PartitionLog → List Op → List Outcome × PartitionLog
  | pl, [] => ([], pl)
  | pl, op :: ops =>
    let rest := (pl.step K op).1.run K ops
    ((pl.step K op).2 :: rest.1, rest.2)

/-- What an operation may do to a sparse log, and what it returns. -/
inductive Spec : SparseLog Message → Op → Outcome → SparseLog Message → Prop
  | append {log log' : SparseLog Message} (now : Int) (msg : Message)
      (step : log.Extends log' (msg.setOffset log.next)) :
      Spec log (.append now msg) (.offset log.next) log'
  | read {log : SparseLog Message} (startOffset maxCount : Int) :
      Spec log (.read startOffset maxCount)
        (.messages ((log.read startOffset maxCount).map Prod.snd)) log
  | nextOffset {log : SparseLog Message} : Spec log .nextOffset (.offset log.next) log
  | compact {log log' : SparseLog Message} (sweep : Retention) (step : log.Trims log') :
      Spec log (.compact sweep) .done log'
  | compactPartition {log log' : SparseLog Message} (sweep : Sweep) (step : log.Trims log') :
      Spec log (.compactPartition sweep) .done log'
  | reopen {log : SparseLog Message} : Spec log .reopen .done log

/-- What an operation does to the log, whatever it returns. -/
def Effect (log log' : SparseLog Message) : Op → Prop
  | .append _ msg => log.Extends log' (msg.setOffset log.next)
  | .compact _ => log.Trims log'
  | .compactPartition _ => log.Trims log'
  | _ => log' = log

theorem Spec.effect {log log' : SparseLog Message} {op : Op} {out : Outcome}
    (spec : Spec log op out log') : Effect log log' op := by
  cases spec with
  | append now msg step | compact sweep step | compactPartition sweep step => exact step
  | _ => rfl

inductive SpecRun : SparseLog Message → List Op → List Outcome → SparseLog Message → Prop
  | nil {log : SparseLog Message} : SpecRun log [] [] log
  | cons {log mid log' : SparseLog Message} {op : Op} {ops : List Op} {out : Outcome}
      {outs : List Outcome} (first : Spec log op out mid) (rest : SpecRun mid ops outs log') :
      SpecRun log (op :: ops) (out :: outs) log'

/-- The appends the code can carry out: the format represents the message, and the
clock reading is an `int64`. -/
def Op.Admissible (K : Codecs) : Op → Prop
  | .append now msg => Writable K msg ∧ IsInt64 now
  | _ => True

instance (K : Codecs) [DecidablePred (Writable K)] : DecidablePred (Op.Admissible K) := by
  rintro (_ | _) <;> unfold Op.Admissible <;> infer_instance

/-- The offsets the appends of a history returned, in order. -/
def assigned : List Op → List Outcome → List Int
  | .append _ _ :: ops, .offset o :: outs => o :: assigned ops outs
  | _ :: ops, _ :: outs => assigned ops outs
  | _, _ => []

/-! ## The view of a log -/

section View

variable {K : Codecs} {pl : PartitionLog}

/-- The sparse log whose entries are the records in the files. -/
def PartitionLog.WellFormed.view (wf : pl.WellFormed K) : SparseLog Message where
  head := pl.active.baseOffset
  next := pl.nextOffset
  entries := (pl.records K).map fun r => (r.offset, r.msg)
  sorted := pairwise_map.mpr wf.records_sorted
  below := by
    intro e mem
    obtain ⟨r, held, rfl⟩ := mem_map.mp mem
    exact wf.records_lt held

theorem PartitionLog.WellFormed.view_congr {pl' : PartitionLog} (wf : pl.WellFormed K)
    (wf' : pl'.WellFormed K) (head : pl'.active.baseOffset = pl.active.baseOffset)
    (next : pl'.nextOffset = pl.nextOffset) (records : pl'.records K = pl.records K) :
    wf'.view = wf.view := by
  simp only [PartitionLog.WellFormed.view, head, next, records]

theorem PartitionLog.WellFormed.view_messages (wf : pl.WellFormed K) (start maxCount : Int) :
    (wf.view.read start maxCount).map Prod.snd =
      (Segment.messagesFrom start (pl.records K)).take maxCount.toNat := by
  simp only [SparseLog.read, PartitionLog.WellFormed.view, Segment.messagesFrom,
    filter_map, map_take, map_map]
  rfl

/-- A message with its offset, as the abstract log holds it. -/
def entry (m : Message) : Int × Message := (m.offset, m)

theorem PartitionLog.WellFormed.view_entries (wf : pl.WellFormed K) :
    wf.view.entries = (pl.records K).map fun r => entry r.msg := by
  show (pl.records K).map _ = _
  apply map_congr_left
  intro r mem
  rw [entry, (wf.records_readable mem).msg_offset]

/-- **A read returns what the abstract log returns.** -/
theorem PartitionLog.WellFormed.read_view (wf : pl.WellFormed K) (start maxCount : Int) :
    ∃ msgs, pl.read K start maxCount = .ok msgs ∧
      msgs.map entry = wf.view.read start maxCount := by
  refine ⟨_, wf.read_eq start maxCount, ?_⟩
  rw [← wf.view_messages, map_map]
  conv_rhs => rw [← map_id (wf.view.read start maxCount)]
  apply map_congr_left
  intro e mem
  have held := (wf.view.read_sublist _ _).subset mem
  rw [wf.view_entries] at held
  obtain ⟨r, -, rfl⟩ := mem_map.mp held
  rfl

theorem PartitionLog.WellFormed.sealed_lt_head (wf : pl.WellFormed K) {r : Record}
    (mem : r ∈ pl.records K) (head : pl.active.baseOffset ≤ r.offset) :
    r ∈ pl.active.records K := by
  rw [PartitionLog.records_eq] at mem
  cases mem_append.mp mem with
  | inl old =>
    obtain ⟨s, sealed, held⟩ := mem_flatMap.mp old
    have high := ((wf.clean s (by simp [PartitionLog.segments, sealed])).range r held).2
    have order := (wf.precedes_active sealed).1
    omega
  | inr active => exact active

theorem PartitionLog.WellFormed.trims {pl' : PartitionLog} (wf : pl.WellFormed K)
    (wf' : pl'.WellFormed K) (fewer : (pl'.records K).Sublist (pl.records K))
    (active : pl'.active = pl.active) : wf.view.Trims wf'.view where
  next := by simp only [view, PartitionLog.nextOffset, active]
  head := by simp only [view, active]
  sublist := fewer.map _
  kept := by
    intro e mem head
    obtain ⟨r, held, rfl⟩ := mem_map.mp mem
    have inActive := wf.sealed_lt_head held head
    refine mem_map.mpr ⟨r, ?_, rfl⟩
    rw [PartitionLog.records_eq, active]
    exact mem_append_right _ inActive

theorem PartitionLog.WellFormed.extends (wf : pl.WellFormed K) {now : Int} {msg : Message}
    (wf' : (pl.append K now msg).1.WellFormed K)
    (records : (pl.append K now msg).1.records K =
      pl.records K ++ [recordOf K pl.nextOffset now msg recordVersion])
    (next : (pl.append K now msg).1.nextOffset = pl.nextOffset + 1) :
    wf.view.Extends wf'.view (msg.setOffset wf.view.next) where
  next := next
  head := by
    show (pl.append K now msg).1.active.baseOffset = _ ∨ _
    simp only [PartitionLog.append, Segment.write_baseOffset, PartitionLog.roll]
    split
    · refine .inr ?_
      show (createSegment K _ _ _ _ _).baseOffset = _
      unfold createSegment
      split <;> rfl
    · exact .inl rfl
  entries := by
    simp only [view, records, map_append, map_cons, map_nil]
    rfl

end View

/-! ## Refinement -/

section Refinement

variable {K : Codecs} {pl : PartitionLog}

/-- **One operation of the code is one step of the specification.** -/
theorem step_refines (wf : pl.WellFormed K) (op : Op) (admissible : op.Admissible K)
    (next64 : IsInt64 pl.nextOffset) :
    ∃ wf' : (pl.step K op).1.WellFormed K, Spec wf.view op (pl.step K op).2 wf'.view := by
  cases op with
  | append now msg =>
    obtain ⟨wf', records, next, offset⟩ := wf.append admissible.1 admissible.2 next64
    refine ⟨wf', ?_⟩
    simp only [PartitionLog.step, offset]
    exact Spec.append now msg (wf.extends wf' records next)
  | read startOffset maxCount =>
    simp only [PartitionLog.step, wf.read_eq, ← wf.view_messages]
    exact ⟨wf, Spec.read startOffset maxCount⟩
  | nextOffset => exact ⟨wf, Spec.nextOffset⟩
  | compact sweep =>
    obtain ⟨wf', fewer, active⟩ := wf.compact sweep
    exact ⟨wf', Spec.compact sweep (wf.trims wf' fewer active)⟩
  | compactPartition sweep =>
    obtain ⟨wf', fewer, active⟩ := wf.compactPartition sweep
    have noError := wf.compactPartition_noError sweep
    simp only [PartitionLog.step, noError]
    exact ⟨wf', Spec.compactPartition sweep (wf.trims wf' fewer active)⟩
  | reopen =>
    obtain ⟨wf', records, next, head⟩ := wf.reopen
    refine ⟨wf', ?_⟩
    have same := wf.view_congr wf' head next records
    simp only [PartitionLog.step]
    rw [same]
    exact Spec.reopen

theorem Spec.next_bounds {log log' : SparseLog Message} {op : Op} {out : Outcome}
    (spec : Spec log op out log') : log.next ≤ log'.next ∧ log'.next ≤ log.next + 1 := by
  cases spec with
  | append now msg step | compact sweep step | compactPartition sweep step => rw [step.next]; omega
  | _ => omega

/-- **A run of the code is a run of the specification**, from any well-formed
log. -/
theorem run_refines (ops : List Op) :
    ∀ (pl : PartitionLog) (wf : pl.WellFormed K), (∀ op ∈ ops, op.Admissible K) →
      0 ≤ pl.nextOffset → pl.nextOffset + ops.length ≤ 2 ^ 63 →
      ∃ wf' : (pl.run K ops).2.WellFormed K,
        SpecRun wf.view ops (pl.run K ops).1 wf'.view := by
  induction ops with
  | nil => intro pl wf _ _ _; exact ⟨wf, SpecRun.nil⟩
  | cons op ops ih =>
    intro pl wf admissible low high
    have length : ((op :: ops).length : Int) = ops.length + 1 := by simp
    obtain ⟨wf', first⟩ := step_refines wf op (admissible op (by simp)) ⟨by omega, by omega⟩
    have bounds := first.next_bounds
    have here : wf.view.next = pl.nextOffset := rfl
    have there : wf'.view.next = (pl.step K op).1.nextOffset := rfl
    obtain ⟨last, rest⟩ := ih (pl.step K op).1 wf'
      (fun op' mem => admissible op' (by simp [mem])) (by omega) (by omega)
    exact ⟨last, SpecRun.cons first rest⟩

theorem SpecRun.next_bounds {log log' : SparseLog Message} {ops : List Op} {outs : List Outcome}
    (run : SpecRun log ops outs log') :
    log.next ≤ log'.next ∧ log'.next ≤ log.next + ops.length := by
  induction run with
  | nil => simp
  | cons first rest ih =>
    have := first.next_bounds
    simp only [length_cons]
    omega

theorem openPartitionLog_run (K : Codecs) {segMaxBytes : Int} (indexEvery : Int)
    (limit : (segFileHeaderSize : Int) < segMaxBytes) (fits : segMaxBytes < 2 ^ 63)
    (ops : List Op) (admissible : ∀ op ∈ ops, op.Admissible K)
    (few : (ops.length : Int) ≤ 2 ^ 63) :
    ∃ wf : ((openPartitionLog K segMaxBytes indexEvery []).run K ops).2.WellFormed K,
      SpecRun SparseLog.empty ops
        ((openPartitionLog K segMaxBytes indexEvery []).run K ops).1 wf.view := by
  obtain ⟨wf, none⟩ := PartitionLog.openPartitionLog_nil (K := K) indexEvery limit fits
  have fields : (openPartitionLog K segMaxBytes indexEvery []).nextOffset = 0 ∧
      (openPartitionLog K segMaxBytes indexEvery []).active.baseOffset = 0 := by
    simp [openPartitionLog, PartitionLog.nextOffset, createSegment]
  have start : wf.view = SparseLog.empty := by simp [PartitionLog.WellFormed.view, SparseLog.empty, none, fields]
  obtain ⟨wf', run⟩ := run_refines ops _ wf admissible (by omega) (by omega)
  exact ⟨wf', start ▸ run⟩

/-- The offsets assigned along a history of the specification increase, from the
next offset of its start. -/
theorem SpecRun.assigned_increasing {log log' : SparseLog Message} {ops : List Op}
    {outs : List Outcome} (run : SpecRun log ops outs log') :
    (assigned ops outs).Pairwise (· < ·) ∧ ∀ o ∈ assigned ops outs, log.next ≤ o := by
  induction run with
  | nil => exact ⟨Pairwise.nil, by simp [assigned]⟩
  | cons first rest ih =>
    have bounds := first.next_bounds
    have later := ih.2
    cases first with
    | append now msg step =>
      have next := step.next
      refine ⟨pairwise_cons.mpr ⟨?_, ih.1⟩, ?_⟩
      · grind
      · intro o mem
        cases mem with
        | head => exact le_refl _
        | tail _ mem =>
          have := later o mem
          omega
    | _ =>
      refine ⟨ih.1, fun o mem => ?_⟩
      have := later o mem
      omega

/-- **A partition log refines a sparse log.**  For every segment size limit above
the file header, every index interval and every fault-free history of appends,
reads, retention and compaction sweeps and reopenings from an empty directory,
the outcomes are those of the specification: an append returns the next offset
and raises it by one, a read returns the first retained messages at or behind its
start, reopening changes nothing, and no offset is assigned twice. -/
theorem partitionLog_refines (K : Codecs) {segMaxBytes : Int} (indexEvery : Int)
    (limit : (segFileHeaderSize : Int) < segMaxBytes) (fits : segMaxBytes < 2 ^ 63)
    (ops : List Op) (admissible : ∀ op ∈ ops, op.Admissible K)
    (few : (ops.length : Int) ≤ 2 ^ 63) :
    ∃ log', SpecRun SparseLog.empty ops
        ((openPartitionLog K segMaxBytes indexEvery []).run K ops).1 log' ∧
      (assigned ops ((openPartitionLog K segMaxBytes indexEvery []).run K ops).1).Pairwise
        (· < ·) := by
  obtain ⟨wf, run⟩ := openPartitionLog_run K indexEvery limit fits ops admissible few
  exact ⟨wf.view, run, run.assigned_increasing.1⟩

/-- A codec for one message at every offset, to run the model with. -/
def sampleMessage : Message := ⟨"m", "t", 0, [1], [], [107], 0, 0, 0⟩

def sampleCodecs : Codecs where
  marshal m := leBytes 8 (uint64 m.offset)
  unmarshal b := some (sampleMessage.setOffset (int64 (leNat b)))
  decompress _ _ := none
  exact m := m = sampleMessage.setOffset m.offset ∧ IsInt64 m.offset
  exact_setOffset := by
    rintro m offset fits ⟨same, -⟩
    refine ⟨?_, fits⟩
    rw [same]
    rfl
  unmarshal_marshal := by
    rintro m ⟨same, low, high⟩
    rw [int64_leNat_leBytes low high, ← same]

instance : DecidablePred sampleCodecs.exact := fun m =>
  inferInstanceAs (Decidable (m = sampleMessage.setOffset m.offset ∧ IsInt64 m.offset))

instance : DecidablePred (Writable sampleCodecs) :=
  Writable.decidable sampleCodecs fun m => by simp [sampleCodecs]

theorem sampleMessage_writable : Writable sampleCodecs sampleMessage where
  key := by decide
  codec := rfl
  exact := ⟨rfl, by decide, by decide⟩
  payload := by
    intro offset _
    simp [sampleCodecs]

/-- Three appends over two segments, a sweep that drops the first, a reopening and
a read. -/
def sampleHistory : List Op :=
  [.append 1 sampleMessage, .append 2 sampleMessage, .append 3 sampleMessage,
    .compactPartition ⟨10, 5⟩, .reopen, .read 0 10, .nextOffset]

theorem partitionLog_refines_sample :
    ((openPartitionLog sampleCodecs 60 40 []).run sampleCodecs sampleHistory).1 =
        [.offset 0, .offset 1, .offset 2, .done, .done,
          .messages [sampleMessage.setOffset 1, sampleMessage.setOffset 2], .offset 3] ∧
      ∃ log', SpecRun SparseLog.empty sampleHistory
          ((openPartitionLog sampleCodecs 60 40 []).run sampleCodecs sampleHistory).1 log' ∧
        (assigned sampleHistory ((openPartitionLog sampleCodecs 60 40 []).run sampleCodecs
          sampleHistory).1).Pairwise (· < ·) := by
  have now64 : IsInt64 1 ∧ IsInt64 2 ∧ IsInt64 3 := by unfold IsInt64; decide
  refine ⟨by decide +kernel, ?_⟩
  refine partitionLog_refines sampleCodecs 40 (by decide) (by decide) sampleHistory ?_ (by decide)
  simp [sampleHistory, Op.Admissible, sampleMessage_writable, now64]

end Refinement

end PubsubBroker.Storage
