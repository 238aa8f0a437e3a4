/-
# Storage.TornTail — a crash in the middle of an append

An append writes the record to the log file and then, when one is due, its entry
to the index file.  A crash leaves a byte-prefix of the record, or the record and
a byte-prefix of the entry (`Tear`), and the partition is opened from the files.

Opening never cuts a torn tail.  Reads stop in front of it, so right after the
crash every complete record is still there.  But `createSegment` takes the file
size as the append position, and the next record goes behind the torn bytes,
where no scan reaches it (`tornAppend_lost`).  A torn index entry shifts the
entries behind it in the same way.  `tornAppend_recovers` gives both halves: reads
are right after every crash, and the log goes on as specified when the crash left
none or all of the bytes of either file.
-/
import PubsubBroker.Storage.Refinement

namespace PubsubBroker.Storage

open Theory List

/-- How far an append came: so many bytes of the record, or the record and so many
bytes of its index entry. -/
inductive Tear where
  | record (written : Nat)
  | index (written : Nat)

namespace Segment

/-- The bytes `Write` adds to the log file. -/
def newRecord (K : Codecs) (s : Segment) (now : Int) (msg : Message) : Bytes :=
  encodeRecord K s.nextOffset now (msg.setOffset s.nextOffset) s.version

/-- The bytes `Write` adds to the index file. -/
def newEntry (K : Codecs) (s : Segment) (now : Int) (msg : Message) : Bytes :=
  if s.indexDue (s.newRecord K now msg).length then indexEntryBytes (s.nextOffset, s.logSize)
  else []

def tornRecord (K : Codecs) (s : Segment) (now : Int) (msg : Message) : Tear → Bytes
  | .record written => (s.newRecord K now msg).take written
  | .index _ => s.newRecord K now msg

def tornEntry (K : Codecs) (s : Segment) (now : Int) (msg : Message) : Tear → Bytes
  | .record _ => []
  | .index written => (s.newEntry K now msg).take written

def tornFiles (K : Codecs) (s : Segment) (now : Int) (msg : Message) (tear : Tear) :
    SegmentFiles :=
  ⟨s.baseOffset, s.log ++ s.tornRecord K now msg tear, s.index ++ s.tornEntry K now msg tear⟩

/-- The crash left the whole record. -/
def completes (K : Codecs) (s : Segment) (now : Int) (msg : Message) : Tear → Bool
  | .record written => (s.newRecord K now msg).length ≤ written
  | .index _ => true

/-- The crash left none or all of the bytes it was writing. -/
def Untorn (K : Codecs) (s : Segment) (now : Int) (msg : Message) : Tear → Prop
  | .record written => written = 0 ∨ (s.newRecord K now msg).length ≤ written
  | .index written => written = 0 ∨ (s.newEntry K now msg).length ≤ written

end Segment

/-- The directory after a crash in `Append`. -/
def PartitionLog.tornAppend (K : Codecs) (pl : PartitionLog) (now : Int) (msg : Message)
    (tear : Tear) : List SegmentFiles :=
  (pl.roll K).sealed.map Segment.files ++ [(pl.roll K).active.tornFiles K now msg tear]

def PartitionLog.restart (K : Codecs) (pl : PartitionLog) (now : Int) (msg : Message)
    (tear : Tear) : PartitionLog :=
  openPartitionLog K pl.segMaxBytes pl.indexEvery (pl.tornAppend K now msg tear)

/-! ## The torn segment -/

section TornSegment

variable {K : Codecs} {s : Segment} {rs : List Record} {now : Int} {msg : Message} {tear : Tear}

namespace Segment

/-- The records of the append that survive the crash. -/
def survivors (K : Codecs) (s : Segment) (now : Int) (msg : Message) (tear : Tear) : List Record :=
  if s.completes K now msg tear then [recordOf K s.nextOffset now msg recordVersion] else []

/-- A segment with the files after the crash. -/
def torn (K : Codecs) (s : Segment) (now : Int) (msg : Message) (tear : Tear) : Segment :=
  { s with
    log := s.log ++ s.tornRecord K now msg tear
    logSize := (s.log ++ s.tornRecord K now msg tear).length
    index := s.index ++ s.tornEntry K now msg tear
    nextOffset := if s.completes K now msg tear then s.nextOffset + 1 else s.nextOffset }

variable (clean : s.Clean K rs)
include clean

theorem Clean.newRecord_eq (now : Int) (msg : Message) :
    s.newRecord K now msg = (recordOf K s.nextOffset now msg recordVersion).raw := by
  simp only [newRecord, recordOf, clean.version]

/-- The index behind a crash is sound for the complete records, up to a part of
an entry; an untorn index has none. -/
theorem Clean.torn_index (next64 : IsInt64 s.nextOffset) (size64 : (s.logSize : Int) < 2 ^ 63)
    (now : Int) (msg : Message) (tear : Tear) :
    ∃ es tail, s.index ++ s.tornEntry K now msg tear = frames indexEntryBytes es ++ tail ∧
      tail.length < 16 ∧ Indexed (rs ++ s.survivors K now msg tear) es ∧
      (s.Untorn K now msg tear → tail = []) := by
  obtain ⟨es, index, indexed⟩ := clean.index
  cases tear with
  | record written =>
    exact ⟨es, [], by simp [tornEntry, index], by simp, indexed.append _, fun _ => rfl⟩
  | index written =>
    have complete : s.survivors K now msg (.index written) =
        [recordOf K s.nextOffset now msg recordVersion] := rfl
    rw [complete]
    simp only [tornEntry, Untorn, newEntry]
    split
    · by_cases enough : 16 ≤ written
      · -- the whole entry is there
        have size : s.logSize = segFileHeaderSize + (frames Record.raw rs).length := by
          grind [logSize, log, segHeader_length]
        have fits : IsInt64 (s.logSize : Int) := ⟨by omega, size64⟩
        have last : ∀ r ∈ rs, r.offset < s.nextOffset := fun r mem => (clean.range r mem).2
        refine ⟨es ++ [(s.nextOffset, (s.logSize : Int))], [], ?_, by simp, ?_, fun _ => rfl⟩
        · rw [take_of_length_le (by rw [indexEntryBytes_length]; exact enough), index]
          simp
        · exact indexed.concat last rfl (by rw [size]) ⟨next64, fits⟩
      · refine ⟨es, (indexEntryBytes (s.nextOffset, (s.logSize : Int))).take written,
          by rw [index], ?_, indexed.append _, ?_⟩
        · simp; omega
        simp [indexEntryBytes_length]; omega
    · exact ⟨es, [], by simp [index], by simp, indexed.append _, fun _ => rfl⟩

variable (readable : Readable K recordVersion (recordOf K s.nextOffset now msg recordVersion))
include readable

/-- Behind the complete records the log has a tail that every read refuses; an
untorn log has none. -/
theorem Clean.torn_log (tear : Tear) :
    ∃ tail e, s.log ++ s.tornRecord K now msg tear =
        segHeader ++ (frames Record.raw (rs ++ s.survivors K now msg tear) ++ tail) ∧
      readRecord K recordVersion tail = .error e ∧ e.isEnd = true ∧
      (s.Untorn K now msg tear → tail = []) := by
  have bytes := clean.newRecord_eq now msg
  cases complete : s.completes K now msg tear with
  | true =>
    have all : s.tornRecord K now msg tear = s.newRecord K now msg := by
      cases tear with
      | record written =>
        have enough : (s.newRecord K now msg).length ≤ written := by
          simpa [completes] using complete
        exact take_of_length_le enough
      | index written => rfl
    refine ⟨[], .eof, ?_, readRecord_nil K _, rfl, fun _ => rfl⟩
    simp [survivors, complete, all, bytes, clean.log]
  | false =>
    cases tear with
    | record written =>
      have cut : written < (s.newRecord K now msg).length := by
        simpa [completes] using complete
      obtain ⟨e, refused, isEnd⟩ := readable.torn (bytes ▸ cut)
      refine ⟨_, e, ?_, refused, isEnd, ?_⟩
      · simp [survivors, complete, tornRecord, bytes, clean.log]
      · intro untorn
        cases untorn with
        | inl none => simp [none]
        | inr enough => omega
    | index written => cases complete

theorem Clean.survivors_spec (tear : Tear) :
    (∀ r ∈ rs ++ s.survivors K now msg tear, Readable K recordVersion r) ∧
      ((rs ++ s.survivors K now msg tear).Pairwise fun a b => a.offset < b.offset) ∧
      (∀ r ∈ rs ++ s.survivors K now msg tear, s.baseOffset ≤ r.offset ∧
        r.offset < (s.torn K now msg tear).nextOffset) ∧
      s.baseOffset ≤ (s.torn K now msg tear).nextOffset := by
  have base := clean.base_le
  cases complete : s.completes K now msg tear with
  | false =>
    simp only [survivors, torn, complete, Bool.false_eq_true, if_false, append_nil]
    exact ⟨clean.readable, clean.sorted, clean.range, base⟩
  | true =>
    simp only [survivors, torn, complete, if_true]
    refine ⟨?_, ?_, ?_, by omega⟩
    · grind [readable]
    · refine pairwise_append.mpr ⟨clean.sorted, pairwise_singleton _ _, ?_⟩
      intro r mem r' mem'
      rw [mem_singleton.mp mem']
      exact (clean.range r mem).2
    · intro r mem
      cases mem_append.mp mem with
      | inl old =>
        have := clean.range r old
        omega
      | inr new => grind [recordOf]

variable (next64 : IsInt64 s.nextOffset) (size64 : (s.logSize : Int) < 2 ^ 63)
include next64 size64

theorem Clean.torn_holds (tear : Tear) :
    (s.torn K now msg tear).Holds K (rs ++ s.survivors K now msg tear) := by
  obtain ⟨tail, e, log, refused, isEnd, -⟩ := clean.torn_log readable tear
  obtain ⟨es, entryTail, index, short, indexed, -⟩ :=
    clean.torn_index next64 size64 now msg tear
  obtain ⟨readableAll, sorted, range, base⟩ := clean.survivors_spec readable tear
  exact ⟨clean.version, ⟨tail, e, log, refused, isEnd⟩, ⟨es, entryTail, index, short, indexed⟩,
    readableAll, sorted, range, base⟩

theorem Clean.torn_clean (untorn : s.Untorn K now msg tear) :
    (s.torn K now msg tear).Clean K (rs ++ s.survivors K now msg tear) := by
  obtain ⟨tail, e, log, -, -, noTail⟩ := clean.torn_log readable tear
  obtain ⟨es, entryTail, index, -, indexed, noEntryTail⟩ :=
    clean.torn_index next64 size64 now msg tear
  obtain ⟨readableAll, sorted, range, base⟩ := clean.survivors_spec readable tear
  rw [noTail untorn, append_nil] at log
  rw [noEntryTail untorn, append_nil] at index
  have addressable : Addressable (rs ++ s.survivors K now msg tear) := by
    unfold survivors
    split
    · refine clean.addressable.concat ?_ _
      rw [← segHeader_length, ← length_append, ← clean.log, ← clean.logSize]
      exact ⟨by omega, size64⟩
    grind [addressable]
  exact ⟨clean.version, log, rfl, ⟨es, index, indexed⟩, addressable, readableAll, sorted, range, base⟩

end Segment

end TornSegment

/-! ## The partition after the crash -/

section Restart

variable {K : Codecs} {pl : PartitionLog} {now : Int} {msg : Message} {tear : Tear}

namespace PartitionLog

/-- A log with the files after the crash. -/
def torn (K : Codecs) (pl : PartitionLog) (now : Int) (msg : Message) (tear : Tear) :
    PartitionLog :=
  { pl.roll K with active := (pl.roll K).active.torn K now msg tear }

theorem restart_eq (K : Codecs) (pl : PartitionLog) (now : Int) (msg : Message) (tear : Tear) :
    pl.restart K now msg tear = (pl.torn K now msg tear).reopen K := by
  have config : (pl.roll K).segMaxBytes = pl.segMaxBytes ∧
      (pl.roll K).indexEvery = pl.indexEvery := by
    unfold roll
    split <;> exact ⟨rfl, rfl⟩
  unfold restart reopen torn
  rw [config.1, config.2, tornAppend, files, segments, map_append]
  rfl

/-- The complete records: those of the log, and the new one if it was written. -/
def complete (K : Codecs) (pl : PartitionLog) (now : Int) (msg : Message) (tear : Tear) :
    List Record :=
  pl.records K ++ (pl.roll K).active.survivors K now msg tear

variable (wf : pl.WellFormed K)
include wf

theorem WellFormed.torn_sorted (now : Int) (msg : Message) (tear : Tear) :
    (pl.torn K now msg tear).segments.Pairwise fun a b => a.baseOffset < b.baseOffset := by
  have order := pairwise_append.mp wf.roll.1.ordered
  refine pairwise_append.mpr ⟨order.1.imp fun before => before.2,
    pairwise_singleton _ _, ?_⟩
  intro s mem t memT
  rw [mem_singleton.mp memT]
  exact (wf.roll.1.precedes_active mem).2

variable (writable : Writable K msg) (now64 : IsInt64 now) (next64 : IsInt64 pl.nextOffset)
include writable now64 next64

theorem WellFormed.torn_holds (tear : Tear) :
    (∀ s ∈ (pl.torn K now msg tear).segments, s.Holds K (s.records K)) ∧
      (pl.torn K now msg tear).records K = pl.complete K now msg tear := by
  obtain ⟨rolled, same, next, size64⟩ := wf.roll
  rw [← next] at next64
  have readable := encodeRecord_readable writable next64 now64 recordVersion
  have active := rolled.active_clean.torn_holds readable next64 size64 tear
  have held := active.records_eq
  refine ⟨?_, ?_⟩
  · intro s mem
    cases mem_append.mp mem with
    | inl old =>
      have sealed : s ∈ (pl.roll K).sealed := old
      exact (rolled.clean s (by simp [segments, sealed])).holds
    | inr last =>
      rw [mem_singleton.mp last]
      exact held.symm ▸ active
  · rw [records_eq, complete, ← same, records_eq K (pl.roll K), append_assoc]
    exact congrArg _ held

/-- **After every crash the complete records are read.** -/
theorem WellFormed.restart_read (start maxCount : Int) :
    (pl.restart K now msg tear).read K start maxCount =
      .ok ((Segment.messagesFrom start (pl.complete K now msg tear)).take maxCount.toNat) := by
  obtain ⟨holds, records⟩ := wf.torn_holds writable now64 next64 tear
  have reopened := fun s mem => (holds s mem).reopened (pl.torn K now msg tear).segMaxBytes
    (pl.torn K now msg tear).indexEvery
  have segments_eq := reopen_segments (K := K) (wf.torn_sorted now msg tear)
  have flat : ((pl.torn K now msg tear).reopen K).segments.flatMap (Segment.records K) =
      pl.complete K now msg tear := by
    rw [segments_eq, flatMap_map, ← records]
    exact flatMap_congr fun s mem => (reopened s mem).records_eq
  rw [restart_eq, read, readSegments_eq, flat]
  intro s mem
  rw [segments_eq] at mem
  obtain ⟨t, memT, rfl⟩ := mem_map.mp mem
  have here := reopened t memT
  exact here.records_eq.symm ▸ here

theorem WellFormed.torn (untorn : (pl.roll K).active.Untorn K now msg tear) :
    (pl.torn K now msg tear).WellFormed K := by
  obtain ⟨rolled, -, next, size64⟩ := wf.roll
  rw [← next] at next64
  have readable := encodeRecord_readable writable next64 now64 recordVersion
  have active := rolled.active_clean.torn_clean readable next64 size64 untorn
  have held := active.holds.records_eq
  have order := pairwise_append.mp rolled.ordered
  refine ⟨?_, ?_, ?_, rolled.limit, rolled.room⟩
  · intro s mem
    cases mem_append.mp mem with
    | inl old =>
      have sealed : s ∈ (pl.roll K).sealed := old
      exact rolled.clean s (by simp [segments, sealed])
    | inr last =>
      rw [mem_singleton.mp last]
      exact held.symm ▸ active
  · refine pairwise_append.mpr ⟨order.1, pairwise_singleton _ _, ?_⟩
    intro s mem t memT
    rw [mem_singleton.mp memT]
    exact rolled.precedes_active mem
  · show ((pl.roll K).active.torn K now msg tear).nextOffset = _
    rw [show (pl.torn K now msg tear).active.records K = _ from held]
    unfold Segment.survivors Segment.torn
    split
    · rw [Segment.lastOffset_concat]
      rfl
    · rw [append_nil]
      exact rolled.recovered

end PartitionLog

/-- The sparse log a crash leaves: the append took place, or it did not. -/
def AfterCrash (log crashed : SparseLog Message) (msg : Message) (completed : Bool) : Prop :=
  if completed then log.Extends crashed (msg.setOffset log.next)
  else crashed.next = log.next ∧ crashed.entries = log.entries

theorem PartitionLog.WellFormed.crashed (wf : pl.WellFormed K) (writable : Writable K msg)
    (now64 : IsInt64 now) (next64 : IsInt64 pl.nextOffset) (tear : Tear) :
    ∃ (pl' : PartitionLog) (wf' : pl'.WellFormed K),
      pl'.records K = pl.complete K now msg tear ∧
      pl'.nextOffset = (pl.torn K now msg tear).nextOffset ∧
      pl'.active.baseOffset = (pl.torn K now msg tear).active.baseOffset ∧
      AfterCrash wf.view wf'.view msg ((pl.roll K).active.completes K now msg tear) := by
  obtain ⟨rolled, same, next, -⟩ := wf.roll
  cases completed : (pl.roll K).active.completes K now msg tear with
  | true =>
    obtain ⟨wf', records, next', -⟩ := wf.append writable now64 next64
    refine ⟨_, wf', ?_, ?_, rfl, wf.extends wf' records next'⟩
    · rw [records, PartitionLog.complete, Segment.survivors, if_pos completed, ← next]
      rfl
    grind [nextOffset, PartitionLog.torn, Segment.torn]
  | false =>
    refine ⟨pl.roll K, rolled, ?_, ?_, rfl, next, ?_⟩
    · simp [complete, Segment.survivors, same, completed]
    · simp [PartitionLog.nextOffset, PartitionLog.torn, Segment.torn, completed]
    simp [view, same]

/-- **Recovery after a crash in an append.**  For every history and every crash of
the next append, reads of the reopened partition return exactly the complete
records.  If the crash left none or all of the bytes of the record, and none or
all of the bytes of its index entry, every later history is that of the sparse log
with the complete records: what is appended is read back and survives
reopening. -/
theorem tornAppend_recovers (K : Codecs) {segMaxBytes : Int} (indexEvery : Int)
    (limit : (segFileHeaderSize : Int) < segMaxBytes) (fits : segMaxBytes < 2 ^ 63)
    (ops later : List Op) (admissible : ∀ op ∈ ops ++ later, op.Admissible K)
    {now : Int} {msg : Message} (writable : Writable K msg) (now64 : IsInt64 now) (tear : Tear)
    (few : (ops.length : Int) + 1 + later.length ≤ 2 ^ 63) {pl : PartitionLog}
    (history : ((openPartitionLog K segMaxBytes indexEvery []).run K ops).2 = pl) :
    ∃ log crashed, SpecRun SparseLog.empty ops
        ((openPartitionLog K segMaxBytes indexEvery []).run K ops).1 log ∧
      AfterCrash log crashed msg ((pl.roll K).active.completes K now msg tear) ∧
      (∀ start maxCount, (pl.restart K now msg tear).read K start maxCount =
        .ok ((crashed.read start maxCount).map Prod.snd)) ∧
      ((pl.roll K).active.Untorn K now msg tear →
        ∃ log', SpecRun crashed later ((pl.restart K now msg tear).run K later).1 log') := by
  subst history
  obtain ⟨wf, run⟩ := openPartitionLog_run K indexEvery limit fits ops
    (fun op mem => admissible op (by simp [mem])) (by omega)
  generalize ((openPartitionLog K segMaxBytes indexEvery []).run K ops).2 = pl at wf run ⊢
  have bounds := run.next_bounds
  have start : (SparseLog.empty : SparseLog Message).next = 0 := rfl
  have here : wf.view.next = pl.nextOffset := rfl
  have next64 : IsInt64 pl.nextOffset := ⟨by omega, by omega⟩
  obtain ⟨pl', wf', records, next, head, crash⟩ := wf.crashed writable now64 next64 tear
  refine ⟨wf.view, wf'.view, run, crash, ?_, ?_⟩
  · intro start maxCount
    rw [wf.restart_read writable now64 next64, wf'.view_messages, records]
  · intro untorn
    have torn := wf.torn writable now64 next64 untorn
    obtain ⟨wfR, recordsR, nextR, headR⟩ := torn.reopen
    have held := (wf.torn_holds writable now64 next64 tear).2
    have same : wfR.view = wf'.view :=
      wf'.view_congr wfR (headR.trans head.symm) (nextR.trans next.symm)
        (by rw [recordsR, held, records])
    have low : pl.nextOffset ≤ (pl.torn K now msg tear).nextOffset ∧
        (pl.torn K now msg tear).nextOffset ≤ pl.nextOffset + 1 := by
      have rolled := wf.roll.2.2.1
      simp only [PartitionLog.nextOffset, PartitionLog.torn, Segment.torn] at rolled ⊢
      split <;> omega
    grind [run_refines, PartitionLog.restart_eq]

/-- A partition with one record. -/
def oneRecord : PartitionLog :=
  ((openPartitionLog sampleCodecs 600 40 []).run sampleCodecs [.append 1 sampleMessage]).2

theorem tornAppend_recovers_sample :
    ∃ crashed log', SpecRun crashed [.append 5 sampleMessage, .reopen, .read 0 10]
      ((oneRecord.restart sampleCodecs 2 sampleMessage (.record 0)).run sampleCodecs
        [.append 5 sampleMessage, .reopen, .read 0 10]).1 log' := by
  have now64 : IsInt64 1 ∧ IsInt64 2 ∧ IsInt64 5 := by unfold IsInt64; decide
  obtain ⟨log, crashed, -, -, -, later⟩ := tornAppend_recovers sampleCodecs 40 (by decide)
    (by decide) [.append 1 sampleMessage] [.append 5 sampleMessage, .reopen, .read 0 10]
    (by simp [Op.Admissible, sampleMessage_writable, now64]) sampleMessage_writable now64.2.1
    (.record 0) (by decide) (show _ = oneRecord from rfl)
  exact ⟨crashed, later (.inl rfl)⟩

/-- **A record appended behind a torn tail is lost.**  The crash leaves ten bytes
of the second record.  The next append after the restart is acknowledged at
offset 1, but reading it fails; after another restart it is not there, and its
offset is assigned again.  When the crash leaves eight bytes of the second
record's index entry, two more appends are acknowledged and no read from offset 1
on finds anything. -/
theorem tornAppend_lost :
    ((oneRecord.restart sampleCodecs 2 sampleMessage (.record 10)).run sampleCodecs
        [.append 5 sampleMessage, .read 1 10, .reopen, .read 1 10, .nextOffset]).1 =
      [.offset 1, .readFailed (.checksum 1), .done, .messages [], .offset 1] ∧
    ((oneRecord.restart sampleCodecs 2 sampleMessage (.index 8)).run sampleCodecs
        [.append 5 sampleMessage, .append 6 sampleMessage, .read 1 10, .reopen, .read 1 10]).1 =
      [.offset 2, .offset 3, .messages [], .done, .messages []] := by
  constructor
  · decide +kernel
  · decide +kernel

end Restart

end PubsubBroker.Storage
