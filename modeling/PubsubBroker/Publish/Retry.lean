/-
# Publish.Retry — an append that fails and is tried again

`publishWithRetry` in `internal/producer/producer.go` over `PartitionLog.Append` and
`Segment.Write`, with every operation of an append that can fail (`Fault`).  The loop
takes any error for "nothing was written".  But `Write` has the record in the file
and has moved on to the next offset when the sync or the index write fails, so the
next attempt writes the message a second time (`publish_twice`); and a log write that
was cut off leaves bytes that the next record goes behind.

`publish_single_iff`: as long as no failed write leaves bytes in front of another
attempt, the log holds the message once after an offset and not at all after an
error, exactly if no attempt failed in its sync or in its index write.

* An attempt that is not such a failure leaves a well-formed log with the same
  records (`append_harmless`).
* A record that is in the log file stays there, whatever the later attempts do
  (`append_keeps`), and they are given larger offsets (`append_sane`).

Left out: the delay between two attempts, which is only waited for.
-/
import PubsubBroker.Storage.TornTail

namespace PubsubBroker.Publish.Retry

open Storage Theory List Option

/-! ## An append that can fail -/

/-- The operation an append fails in.  A write that fails has written some of its
bytes, but not all. -/
inductive Fault where
  /-- The files of the next segment cannot be opened. -/
  | openSegment
  /-- The header of the next segment. -/
  | header (bytes : Nat)
  | encode
  | write (bytes : Nat)
  | sync
  | index (bytes : Nat)
deriving DecidableEq

/-- A partition log, and the bytes a failed roll has left in the file of the next
segment. -/
structure Partition where
  log : PartitionLog
  stray : Bytes

/-- The files `createSegment` finds when the active segment is full. -/
def Partition.nextFiles (p : Partition) : Bytes × Bytes :=
  ((p.log.filesAt p.log.active.nextOffset).1 ++ p.stray,
    (p.log.filesAt p.log.active.nextOffset).2)

/-- The rollover of `Append`. -/
def Partition.roll (K : Codecs) (p : Partition) : Partition :=
  if p.log.active.isFull then
    { log :=
        { p.log with
          sealed := p.log.segments
          active := createSegment K p.log.active.nextOffset p.log.segMaxBytes p.log.indexEvery
            p.nextFiles.1 p.nextFiles.2 }
      stray := [] }
  else p

/-- What a rollover that fails leaves; none if it cannot fail in that way. -/
def Partition.failRoll (p : Partition) : Fault → Option Partition
  | .openSegment => if p.log.active.isFull then some p else none
  | .header bytes =>
    if p.log.active.isFull ∧ p.nextFiles.1 = [] then
      some { p with stray := segHeader.dropLast.take bytes }
    else none
  | _ => none

/-- What a `Write` that fails leaves; none if it cannot fail in that way.  `syncs` is
`syncPolicy != "os"`. -/
def failWrite (K : Codecs) (syncs : Bool) (s : Segment) (now : Int) (msg : Message) :
    Fault → Option Segment
  | .encode => some s
  | .write bytes => some { s with log := s.log ++ (s.newRecord K now msg).dropLast.take bytes }
  | .sync =>
    if syncs then
      some { s with
        log := s.log ++ s.newRecord K now msg
        logSize := s.logSize + (s.newRecord K now msg).length
        nextOffset := s.nextOffset + 1 }
    else none
  | .index bytes =>
    if s.indexDue (s.newRecord K now msg).length then
      some { s with
        log := s.log ++ s.newRecord K now msg
        logSize := s.logSize + (s.newRecord K now msg).length
        nextOffset := s.nextOffset + 1
        index := s.index ++ (s.newEntry K now msg).dropLast.take bytes
        byteSinceIndex := s.byteSinceIndex + (s.newRecord K now msg).length }
    else none
  | _ => none

def Partition.setActive (p : Partition) (s : Segment) : Partition :=
  { p with log := { p.log with active := s } }

/-- `Append`, with the fault that occurs in it; none if that fault cannot occur. -/
def Partition.append (K : Codecs) (syncs : Bool) (p : Partition) (now : Int) (msg : Message) :
    Option Fault → Option (Partition × Except Fault Int)
  | none =>
    let written := (p.roll K).log.active.write K now msg
    some ((p.roll K).setActive written.1, .ok written.2)
  | some fault =>
    match p.failRoll fault with
    | some left => some (left, .error fault)
    | none =>
      (failWrite K syncs (p.roll K).log.active now msg fault).map fun s =>
        ((p.roll K).setActive s, .error fault)

/-! ## The retry loop -/

/-- One round of the loop: the clock, what fails, and whether the context is done
before the delay is over. -/
structure Attempt where
  now : Int
  fault : Option Fault
  cancelled : Bool

inductive PublishError where
  /-- "publish failed after %d attempts: %w" -/
  | failed (attempts : Int) (last : Option Fault)
  | cancelled
deriving DecidableEq

/-- `publishWithRetry` from an attempt on, with the attempts that are made; none if
they are not the attempts of one call. -/
def publishFrom (K : Codecs) (syncs : Bool) (maxRetries : Int) (msg : Message) :
    Nat → Partition → List Attempt → Option (Partition × Except PublishError Int)
  | attempt, p, [] =>
    if attempt ≤ maxRetries then none else some (p, .error (.failed (maxRetries + 1) none))
  | attempt, p, a :: rest =>
    if attempt ≤ maxRetries then
      match p.append K syncs a.now msg a.fault with
      | none => none
      | some (p, .ok offset) => if rest = [] then some (p, .ok offset) else none
      | some (p, .error fault) =>
        if attempt < maxRetries then
          if a.cancelled then if rest = [] then some (p, .error .cancelled) else none
          else publishFrom K syncs maxRetries msg (attempt + 1) p rest
        else if rest = [] then some (p, .error (.failed (maxRetries + 1) (some fault)))
        else none
    else none

def publishWithRetry (K : Codecs) (syncs : Bool) (maxRetries : Int) (pl : PartitionLog)
    (msg : Message) (attempts : List Attempt) : Option (Partition × Except PublishError Int) :=
  publishFrom K syncs maxRetries msg 0 ⟨pl, []⟩ attempts

/-! ## What a caller expects -/

def copies (K : Codecs) (msg : Message) (p : Partition) : List Record :=
  (p.log.records K).filter fun r => r.msg.id = msg.id

/-- One record at the offset that was returned; none after an error. -/
def Single (K : Codecs) (msg : Message) (p : Partition) : Except PublishError Int → Prop
  | .ok offset => (copies K msg p).map Record.offset = [offset]
  | .error _ => copies K msg p = []

/-- The record has been written when these fail. -/
def Fault.afterWrite : Fault → Bool
  | .sync | .index _ => true
  | _ => false

/-- A failed write that leaves some of its bytes. -/
def Fault.leavesBytes : Fault → Bool
  | .header bytes | .write bytes => bytes ≠ 0
  | _ => false

/-! ## What stays in the files -/

section Files

variable {K : Codecs} {syncs : Bool} {p p' : Partition} {now : Int} {msg : Message}

theorem scan_extended (version : UInt8) (input more : Bytes) :
    (scan (readRecord K version) input).1 <+: (scan (readRecord K version) (input ++ more)).1 := by
  induction input using scan_induction (readRecord_progress K version) with
  | stop input e refused => simp [scan_error, refused]
  | step input r rest read ih =>
    obtain ⟨split, readable⟩ := readRecord_local read
    have again : readRecord K version (input ++ more) = .ok (r, rest ++ more) := by
      rw [split, append_assoc]
      exact readable (rest ++ more)
    rw [scan_ok (readRecord_progress K version) read,
      scan_ok (readRecord_progress K version) again]
    simp [ih]

variable {s : Segment}

theorem records_extended {t : Segment} {more : Bytes} (version : t.version = s.version)
    (log : t.log = s.log ++ more) : s.records K <+: t.records K := by
  have dataStart : t.dataStart = s.dataStart := by rw [s.laidOut, t.laidOut, version]
  unfold Segment.records
  rw [version, log, dataStart]
  by_cases inside : s.dataStart ≤ s.log.length
  · grind [scan_extended]
  · rw [drop_eq_nil_of_le (by omega), scan_error (Segment.readRecord_nil K s.version)]
    exact nil_prefix

variable {fault : Fault}

theorem failRoll_cases (failed : p.failRoll fault = some p') :
    (fault = .openSegment ∧ p' = p) ∨
      ∃ bytes, fault = .header bytes ∧ p' = { p with stray := segHeader.dropLast.take bytes } := by
  cases fault with
  | openSegment =>
    obtain ⟨-, ⟨⟩⟩ := ite_none_right_eq_some.mp failed
    exact .inl ⟨rfl, rfl⟩
  | header bytes =>
    obtain ⟨-, ⟨⟩⟩ := ite_none_right_eq_some.mp failed
    exact .inr ⟨bytes, rfl, rfl⟩
  | _ => cases failed

/-- The ways a `Write` can fail: before its record is complete in the log file, or
after it has moved on. -/
theorem failWrite_cases {t : Segment} (failed : failWrite K syncs s now msg fault = some t) :
    (∃ bytes, (fault = .encode ∧ bytes = 0 ∨ fault = .write bytes) ∧
        t = { s with log := s.log ++ (s.newRecord K now msg).dropLast.take bytes }) ∨
      (fault.afterWrite = true ∧ t.version = s.version ∧
        t.log = s.log ++ s.newRecord K now msg ∧ t.baseOffset = s.baseOffset ∧
        t.maxBytes = s.maxBytes ∧ t.nextOffset = s.nextOffset + 1) := by
  cases fault with
  | openSegment | header bytes => cases failed
  | encode =>
    cases failed
    simp
  | write bytes =>
    cases failed
    exact .inl ⟨bytes, .inr rfl, rfl⟩
  | sync | index bytes =>
    obtain ⟨-, ⟨⟩⟩ := ite_none_right_eq_some.mp failed
    exact .inr ⟨rfl, rfl, rfl, rfl, rfl, rfl⟩

theorem failWrite_log {t : Segment} (failed : failWrite K syncs s now msg fault = some t) :
    t.version = s.version ∧ ∃ more, t.log = s.log ++ more := by
  rcases failWrite_cases failed with ⟨bytes, -, rfl⟩ | ⟨-, version, log, -⟩
  · exact ⟨rfl, _, rfl⟩
  · exact ⟨version, _, log⟩

theorem roll_keeps {r : Record} (mem : r ∈ p.log.records K) : r ∈ (p.roll K).log.records K := by
  unfold Partition.roll
  split
  · rw [PartitionLog.records_eq]
    exact mem_append_left _ mem
  · exact mem

theorem setActive_keeps {r : Record} (mem : r ∈ p.log.records K)
    (kept : r ∈ p.log.active.records K → r ∈ s.records K) : r ∈ (p.setActive s).log.records K := by
  rw [PartitionLog.records_eq] at mem ⊢
  exact mem_append.mpr ((mem_append.mp mem).imp_right kept)

theorem failRoll_log (failed : p.failRoll fault = some p') : p'.log = p.log := by
  grind [failRoll_cases]

theorem append_cases {fault : Option Fault} {result : Except Fault Int}
    (ran : p.append K syncs now msg fault = some (p', result)) :
    (fault = none ∧ p' = (p.roll K).setActive ((p.roll K).log.active.write K now msg).1 ∧
        result = .ok (p.roll K).log.active.nextOffset) ∨
      ∃ f, fault = some f ∧ result = .error f ∧
        (p.failRoll f = some p' ∨ ∃ s, failWrite K syncs (p.roll K).log.active now msg f = some s ∧
          p' = (p.roll K).setActive s) := by
  cases fault with
  | none =>
    cases ran
    exact .inl ⟨rfl, rfl, rfl⟩
  | some f =>
    refine .inr ⟨f, rfl, ?_⟩
    simp only [Partition.append] at ran
    cases rolled : p.failRoll f with
    | some left => grind
    | none =>
      rw [rolled] at ran
      obtain ⟨s, failed, eq⟩ := map_eq_some_iff.mp ran
      grind

/-- **A record that is in the log stays there.** -/
theorem append_keeps {fault : Option Fault} {result : Except Fault Int}
    (ran : p.append K syncs now msg fault = some (p', result)) {r : Record}
    (mem : r ∈ p.log.records K) : r ∈ p'.log.records K := by
  rcases append_cases ran with ⟨-, rfl, -⟩ | ⟨f, -, -, left | ⟨s, failed, rfl⟩⟩
  · refine setActive_keeps (roll_keeps mem) fun here => ?_
    exact (@records_extended K (p.roll K).log.active ((p.roll K).log.active.write K now msg).1
      ((p.roll K).log.active.newRecord K now msg) rfl rfl).subset here
  · rw [failRoll_log left]
    exact mem
  · obtain ⟨version, more, log⟩ := failWrite_log failed
    exact setActive_keeps (roll_keeps mem) fun here => (records_extended version log).subset here

end Files

/-! ## Offsets -/

/-- The next offset is that of no segment's file, unless the active segment is new. -/
structure Sane (p : Partition) : Prop where
  stray : p.stray.length < segFileHeaderSize
  base : ∀ s ∈ p.log.segments, s.baseOffset ≤ p.log.nextOffset
  full : p.log.active.isFull = true → ∀ s ∈ p.log.segments, s.baseOffset < p.log.nextOffset
  limit : p.log.active.maxBytes = p.log.segMaxBytes
  room : (segFileHeaderSize : Int) < p.log.segMaxBytes

section Offsets

variable {K : Codecs} {syncs : Bool} {p p' : Partition} {now : Int} {msg : Message}

theorem sane_of_wellFormed {pl : PartitionLog} (wf : pl.WellFormed K) : Sane ⟨pl, []⟩ where
  stray := show ([] : Bytes).length < segFileHeaderSize by decide
  base := fun s mem => le_trans (wf.clean s mem).base_le (wf.next_le mem)
  full := by
    intro full s mem
    have active := wf.base_lt_of_full full
    rcases mem_append.mp mem with old | here
    · exact lt_trans (wf.precedes_active old).2 active
    · rw [mem_singleton.mp here]
      exact active
  limit := wf.limit
  room := wf.room.1

theorem createSegment_stray {stray : Bytes} (short : stray.length < segFileHeaderSize)
    (base maxBytes indexEvery : Int) :
    (createSegment K base maxBytes indexEvery stray []).baseOffset = base ∧
      (createSegment K base maxBytes indexEvery stray []).nextOffset = base ∧
      (createSegment K base maxBytes indexEvery stray []).maxBytes = maxBytes ∧
      (createSegment K base maxBytes indexEvery stray []).logSize ≤ segFileHeaderSize := by
  by_cases empty : stray.length = 0
  · simp [createSegment, empty]
  · have other : ¬ (stray.length ≥ segFileHeaderSize ∧ stray.take segFileHeaderSize = segHeader) :=
      fun header => by omega
    have none : readRecord K 1 stray = .error (shortRead stray) := by
      have := recHeaderSize_pos 1
      grind [segFileHeaderSize, readRecord, readFull_short]
    simp only [createSegment, empty, if_false, other, decide_false, Bool.false_eq_true,
      Segment.recoverNextOffset, Segment.records, drop_zero, scan_error none,
      Segment.lastOffset_nil, true_and]
    exact ⟨by omega, by omega⟩

theorem Sane.roll (sane : Sane p) :
    Sane (p.roll K) ∧ (p.roll K).log.nextOffset = p.log.nextOffset := by
  by_cases full : p.log.active.isFull = true
  · have below := sane.full full
    have files : p.nextFiles = (p.stray, []) := by
      have fresh : p.log.segments.find? (fun s => s.baseOffset = p.log.active.nextOffset) = none := by
        refine find?_eq_none.mpr fun s mem => ?_
        have := below s mem
        simp only [PartitionLog.nextOffset] at this
        simp; omega
      simp [Partition.nextFiles, PartitionLog.filesAt, fresh]
    obtain ⟨base, next, limit, size⟩ := @createSegment_stray K p.stray sane.stray
      p.log.active.nextOffset p.log.segMaxBytes p.log.indexEvery
    have rolled : p.roll K = ⟨{ p.log with
        sealed := p.log.segments
        active := createSegment K p.log.active.nextOffset p.log.segMaxBytes p.log.indexEvery
          p.stray [] }, []⟩ := by
      rw [Partition.roll, if_pos full, files]
    rw [rolled]
    have bases : ∀ s ∈ p.log.segments ++ [createSegment K p.log.active.nextOffset
        p.log.segMaxBytes p.log.indexEvery p.stray []], s.baseOffset ≤ p.log.nextOffset := by
      intro s mem
      rcases mem_append.mp mem with old | new
      · exact le_of_lt (below s old)
      · rw [mem_singleton.mp new, base]
        exact le_rfl
    refine ⟨⟨show ([] : Bytes).length < segFileHeaderSize by decide, ?_, ?_, limit, sane.room⟩,
      next⟩
    · exact fun s mem => le_of_le_of_eq (bases s mem) next.symm
    · intro again
      have room := sane.room
      simp only [Segment.isFull, limit, decide_eq_true_eq] at again
      omega
  · simp [Partition.roll, sane, full]

theorem Sane.setActive (sane : Sane p) {s : Segment} (base : s.baseOffset = p.log.active.baseOffset)
    (limit : s.maxBytes = p.log.active.maxBytes)
    (next : (s.nextOffset = p.log.nextOffset ∧ s.logSize = p.log.active.logSize) ∨
      s.nextOffset = p.log.nextOffset + 1) :
    Sane (p.setActive s) ∧ p.log.nextOffset ≤ (p.setActive s).log.nextOffset := by
  have bases : ∀ t ∈ (p.setActive s).log.segments, ∃ u ∈ p.log.segments,
      u.baseOffset = t.baseOffset := by
    intro t mem
    rcases mem_append.mp mem with old | new
    · exact ⟨t, mem_append_left _ old, rfl⟩
    · rw [mem_singleton.mp new]
      exact ⟨p.log.active, by simp [PartitionLog.segments], base.symm⟩
  have here : (p.setActive s).log.nextOffset = s.nextOffset := rfl
  refine ⟨⟨sane.stray, ?_, ?_, limit.trans sane.limit, sane.room⟩, by omega⟩
  · intro t mem
    obtain ⟨u, memU, same⟩ := bases t mem
    have := sane.base u memU
    omega
  · intro full t mem
    obtain ⟨u, memU, same⟩ := bases t mem
    rcases next with ⟨still, size⟩ | moved
    · have before : p.log.active.isFull = true := by grind [Segment.isFull, Partition.setActive]
      have := sane.full before u memU
      omega
    · have := sane.base u memU
      omega

theorem failWrite_next {s t : Segment} {fault : Fault}
    (failed : failWrite K syncs s now msg fault = some t) :
    t.baseOffset = s.baseOffset ∧ t.maxBytes = s.maxBytes ∧
      ((t.nextOffset = s.nextOffset ∧ t.logSize = s.logSize) ∨ t.nextOffset = s.nextOffset + 1) := by
  rcases failWrite_cases failed with ⟨bytes, -, rfl⟩ | ⟨-, -, -, base, limit, next⟩
  · simp
  · exact ⟨base, limit, .inr next⟩

theorem failRoll_sane (sane : Sane p) {fault : Fault} (failed : p.failRoll fault = some p') :
    Sane p' := by
  rcases failRoll_cases failed with ⟨-, rfl⟩ | ⟨bytes, -, rfl⟩
  · exact sane
  · refine { sane with stray := ?_ }
    rw [length_take]
    exact lt_of_le_of_lt (Nat.min_le_right _ _) (by decide)

/-- **Offsets only grow**: what an append returns is at or behind the next offset. -/
theorem append_sane (sane : Sane p) {fault : Option Fault} {result : Except Fault Int}
    (ran : p.append K syncs now msg fault = some (p', result)) :
    Sane p' ∧ p.log.nextOffset ≤ p'.log.nextOffset ∧
      ∀ offset, result = .ok offset → p.log.nextOffset ≤ offset := by
  obtain ⟨rolled, next⟩ := @Sane.roll K p sane
  rcases append_cases ran with ⟨-, rfl, rfl⟩ | ⟨f, -, rfl, left | ⟨s, failed, rfl⟩⟩
  · obtain ⟨kept, grown⟩ := @Sane.setActive (p.roll K) rolled
      ((p.roll K).log.active.write K now msg).1 rfl rfl (.inr rfl)
    refine ⟨kept, by omega, fun offset same => ?_⟩
    cases same
    exact le_of_eq next.symm
  · grind [failRoll_log, failRoll_sane]
  · obtain ⟨base, limit, moved⟩ := failWrite_next failed
    obtain ⟨kept, grown⟩ := rolled.setActive base limit moved
    simp [kept]; omega

end Offsets

/-! ## A log without torn writes -/

section Tidy

variable {K : Codecs} {syncs : Bool} {pl : PartitionLog} {p' : Partition} {now : Int}
  {msg : Message}

theorem roll_tidy (pl : PartitionLog) : (Partition.mk pl []).roll K = ⟨pl.roll K, []⟩ := by
  unfold Partition.roll PartitionLog.roll Partition.nextFiles
  split <;> simp

theorem torn_records {s : Segment} (clean : s.Clean K (s.records K)) (writable : Writable K msg)
    (now64 : IsInt64 now) (next64 : IsInt64 s.nextOffset) (bytes : Nat) :
    Segment.records K { s with log := s.log ++ (s.newRecord K now msg).dropLast.take bytes } =
      s.records K := by
  have readable := encodeRecord_readable writable next64 now64 recordVersion
  have positive := readable.length_pos
  rw [clean.newRecord_eq, dropLast_eq_take, take_take]
  obtain ⟨e, refused, -⟩ := readable.torn (k := min bytes
    ((recordOf K s.nextOffset now msg recordVersion).raw.length - 1)) (by omega)
  have scanned := scan_torn (readRecord_progress K recordVersion)
    (readable_delimits K recordVersion) refused (s.records K) clean.readable
  conv_lhs => unfold Segment.records
  simp only [clean.version, Segment.dataStart_eq clean.version]
  rw [clean.log, append_assoc, ← segHeader_length, drop_left, scanned]

/-- **A failure before the record is written** leaves the records as they were, and a
well-formed log unless a write was cut off. -/
theorem append_unwritten (wf : pl.WellFormed K) (writable : Writable K msg)
    (now64 : IsInt64 now) (next64 : IsInt64 pl.nextOffset) {fault : Fault}
    {result : Except Fault Int} (early : fault.afterWrite = false)
    (ran : (Partition.mk pl []).append K syncs now msg (some fault) = some (p', result)) :
    p'.log.records K = pl.records K ∧
      (fault.leavesBytes = false →
        ∃ log, p' = ⟨log, []⟩ ∧ log.WellFormed K ∧ log.nextOffset = pl.nextOffset) := by
  obtain ⟨rolled, records, next, -⟩ := wf.roll
  rcases append_cases ran with ⟨none, -⟩ | ⟨f, ⟨rfl⟩, rfl, left | ⟨s, failed, rfl⟩⟩
  · cases none
  · grind [failRoll_cases, Fault.leavesBytes]
  · rw [roll_tidy] at failed ⊢
    rcases failWrite_cases failed with ⟨bytes, kind, rfl⟩ | ⟨late, -⟩
    · constructor
      · have torn := @torn_records K now msg (pl.roll K).active rolled.active_clean writable now64
          (show IsInt64 (pl.roll K).nextOffset from next ▸ next64) bytes
        rw [← records, PartitionLog.records_eq, PartitionLog.records_eq]
        exact congrArg _ torn
      · intro quiet
        have zero : bytes = 0 := by grind [Fault.leavesBytes]
        refine ⟨pl.roll K, ?_, rolled, next⟩
        simp [Partition.setActive, zero]
    grind

/-- **A failure after the record is written** leaves the record in the log. -/
theorem append_written (wf : pl.WellFormed K) (writable : Writable K msg)
    (now64 : IsInt64 now) (next64 : IsInt64 pl.nextOffset) {fault : Fault}
    {result : Except Fault Int} (late : fault.afterWrite = true)
    (ran : (Partition.mk pl []).append K syncs now msg (some fault) = some (p', result)) :
    recordOf K pl.nextOffset now msg recordVersion ∈ p'.log.records K ∧
      pl.nextOffset < p'.log.nextOffset := by
  obtain ⟨-, records, -, -⟩ := wf.append writable now64 next64
  have next := wf.roll.2.2.1
  have inside : recordOf K pl.nextOffset now msg recordVersion ∈
      (pl.append K now msg).1.records K := by simp [records]
  -- the log file is that of a complete append
  have same : ∀ s : Segment, s.version = (pl.roll K).active.version →
      s.log = (pl.roll K).active.log ++ (pl.roll K).active.newRecord K now msg →
      recordOf K pl.nextOffset now msg recordVersion ∈
        ((Partition.mk (pl.roll K) []).setActive s).log.records K := by
    intro s version log
    have held : s.records K = ((pl.roll K).active.write K now msg).1.records K := by
      have dataStart : s.dataStart = (pl.roll K).active.dataStart := by simp [Segment.laidOut, version]
      unfold Segment.records
      rw [log, version, dataStart]
      rfl
    rw [PartitionLog.records_eq] at inside ⊢
    rw [show ((Partition.mk (pl.roll K) []).setActive s).log.active.records K = _ from held]
    exact inside
  rcases append_cases ran with ⟨none, -⟩ | ⟨f, ⟨rfl⟩, rfl, left | ⟨s, failed, rfl⟩⟩
  · cases none
  · rcases failRoll_cases left with ⟨rfl, -⟩ | ⟨bytes, rfl, -⟩ <;> cases late
  · rw [roll_tidy] at failed ⊢
    rcases failWrite_cases failed with ⟨bytes, ⟨rfl, -⟩ | rfl, -⟩ | ⟨-, version, log, -, -, moved⟩
    · cases late
    · cases late
    · refine ⟨same s version log, ?_⟩
      rw [← next]
      exact lt_of_lt_of_eq (Int.lt_succ _) moved.symm

end Tidy

/-! ## The whole call -/

section Run

variable {K : Codecs} {syncs : Bool} {maxRetries : Int} {msg : Message}
variable {p : Partition} {result : Except PublishError Int}

theorem publishFrom_cons {a : Attempt} {rest : List Attempt} {attempt : Nat} {p' : Partition}
    (run : publishFrom K syncs maxRetries msg attempt p (a :: rest) = some (p', result)) :
    ∃ after outcome, p.append K syncs a.now msg a.fault = some (after, outcome) ∧
      ((rest = [] ∧ p' = after ∧
          ((∃ offset, outcome = .ok offset ∧ result = .ok offset) ∨
            ∃ fault e, outcome = .error fault ∧ result = .error e)) ∨
        ((∃ fault, outcome = .error fault) ∧ rest ≠ [] ∧
          publishFrom K syncs maxRetries msg (attempt + 1) after rest = some (p', result))) := by
  rw [publishFrom] at run
  split at run
  · cases ran : p.append K syncs a.now msg a.fault with
    | none =>
      rw [ran] at run
      cases run
    | some next =>
      obtain ⟨after, outcome⟩ := next
      rw [ran] at run
      refine ⟨after, outcome, rfl, ?_⟩
      cases outcome with
      | ok offset => grind
      | error fault =>
        simp only at run
        split at run
        · rename_i more
          split at run
          · grind
          · refine .inr ⟨⟨fault, rfl⟩, fun none => ?_, run⟩
            -- a further attempt is due
            rw [none, publishFrom, if_pos (by push_cast; omega)] at run
            cases run
        grind
  · cases run

theorem single_of_fresh (fresh : ∀ r ∈ p.log.records K, r.msg.id ≠ msg.id) (e : PublishError) :
    Single K msg p (.error e) :=
  filter_eq_nil_iff.mpr fun r mem => by simpa using fresh r mem

theorem not_single_error {r : Record} (mem : r ∈ p.log.records K) (copy : r.msg.id = msg.id)
    (e : PublishError) : ¬ Single K msg p (.error e) := by
  intro single
  have found : r ∈ copies K msg p := mem_filter.mpr ⟨mem, by simpa using copy⟩
  rw [show copies K msg p = [] from single] at found
  cases found

/-- Once a record of the message is in the log, behind which the offsets go on, no
result is right. -/
theorem not_single_of_copy {attempts : List Attempt} {attempt : Nat} {p' : Partition} {r : Record}
    (sane : Sane p) (mem : r ∈ p.log.records K) (copy : r.msg.id = msg.id)
    (older : r.offset < p.log.nextOffset)
    (run : publishFrom K syncs maxRetries msg attempt p attempts = some (p', result)) :
    ¬ Single K msg p' result := by
  induction attempts generalizing attempt p with
  | nil => grind [publishFrom, not_single_error]
  | cons a rest ih =>
    obtain ⟨after, outcome, ran, ended⟩ := publishFrom_cons run
    have kept := append_keeps ran mem
    obtain ⟨saneAfter, grown, returned⟩ := append_sane sane ran
    rcases ended with ⟨-, rfl, ⟨offset, rfl, rfl⟩ | ⟨fault, e, -, rfl⟩⟩ | ⟨-, -, more⟩
    · intro single
      have found : r.offset ∈ (copies K msg p').map Record.offset :=
        mem_map_of_mem (mem_filter.mpr ⟨kept, by simpa using copy⟩)
      rw [show (copies K msg p').map Record.offset = [offset] from single] at found
      grind
    · exact not_single_error kept copy e
    grind

theorem single_of_append {pl : PartitionLog} {now offset : Int} (wf : pl.WellFormed K)
    (writable : Writable K msg) (now64 : IsInt64 now) (next64 : IsInt64 pl.nextOffset)
    (fresh : ∀ r ∈ pl.records K, r.msg.id ≠ msg.id)
    (ran : (Partition.mk pl []).append K syncs now msg none = some (p, .ok offset)) :
    Single K msg p (.ok offset) := by
  obtain ⟨-, records, -, returned⟩ := wf.append writable now64 next64
  have same : p.log = (pl.append K now msg).1 ∧ offset = pl.nextOffset := by
    simp only [Partition.append, roll_tidy, some.injEq, Prod.mk.injEq, Except.ok.injEq] at ran
    exact ⟨ran.1 ▸ rfl, ran.2 ▸ returned⟩
  have old : (pl.records K).filter (fun r => r.msg.id = msg.id) = [] :=
    filter_eq_nil_iff.mpr fun r mem => by simpa using fresh r mem
  unfold Single copies
  rw [same.1, same.2, records, filter_append, old]
  simp [recordOf, Message.setOffset]

theorem publishFrom_single {attempts : List Attempt} {attempt : Nat} {pl : PartitionLog}
    (wf : pl.WellFormed K) (writable : Writable K msg) (next64 : IsInt64 pl.nextOffset)
    (fresh : ∀ r ∈ pl.records K, r.msg.id ≠ msg.id) (clock : ∀ a ∈ attempts, IsInt64 a.now)
    (tidy : ∀ a ∈ attempts.dropLast, ∀ f ∈ a.fault, f.leavesBytes = false)
    (run : publishFrom K syncs maxRetries msg attempt ⟨pl, []⟩ attempts = some (p, result)) :
    Single K msg p result ↔ ∀ a ∈ attempts, ∀ f ∈ a.fault, f.afterWrite = false := by
  induction attempts generalizing attempt pl with
  | nil =>
    rw [publishFrom] at run
    split at run
    · cases run
    · cases run
      exact iff_of_true (single_of_fresh fresh _) (by simp)
  | cons a rest ih =>
    obtain ⟨after, outcome, ran, ended⟩ := publishFrom_cons run
    have now64 := clock a (by simp)
    cases fault : a.fault with
    | none =>
      rw [fault] at ran
      rcases append_cases ran with ⟨-, -, rfl⟩ | ⟨f, impossible, -⟩
      · rcases ended with ⟨rfl, rfl, ⟨offset, ⟨rfl⟩, rfl⟩ | ⟨f, e, failed, -⟩⟩ | ⟨⟨f, failed⟩, -⟩
        · exact iff_of_true (single_of_append wf writable now64 next64 fresh ran) (by simp [fault])
        · cases failed
        · cases failed
      · cases impossible
    | some f =>
      rw [fault] at ran
      cases late : f.afterWrite with
      | true =>
        -- the record is in the log for good
        obtain ⟨inside, moved⟩ := append_written wf writable now64 next64 late ran
        refine iff_of_false ?_ fun none => ?_
        · have sane := (append_sane (sane_of_wellFormed wf) ran).1
          rcases ended with ⟨-, rfl, ⟨offset, ok, -⟩ | ⟨g, e, -, rfl⟩⟩ | ⟨-, -, more⟩
          · rcases append_cases ran with ⟨impossible, -⟩ | ⟨g, -, failed, -⟩
            · cases impossible
            grind
          · exact not_single_error inside rfl e
          · exact not_single_of_copy sane inside rfl moved more
        · grind
      | false =>
        obtain ⟨records, clean⟩ := append_unwritten wf writable now64 next64 late ran
        have still : ∀ r ∈ after.log.records K, r.msg.id ≠ msg.id := records ▸ fresh
        have here : (∀ b ∈ a :: rest, ∀ g ∈ b.fault, g.afterWrite = false) ↔
            ∀ b ∈ rest, ∀ g ∈ b.fault, g.afterWrite = false := by
          simp [fault, late]
        rw [here]
        rcases ended with ⟨rfl, rfl, ⟨offset, ok, -⟩ | ⟨g, e, -, rfl⟩⟩ | ⟨-, some, more⟩
        · rcases append_cases ran with ⟨impossible, -⟩ | ⟨g, -, failed, -⟩
          · cases impossible
          grind
        · exact iff_of_true (single_of_fresh still e) (by simp)
        grind [dropLast_cons_of_ne_nil]

end Run

/-- **When a retried message is in the log once.**  From a well-formed log without the
message, as long as no failed write leaves bytes in front of a further attempt: after
an offset the log holds one record of the message, at that offset, and after an error
none, exactly if no attempt failed in its sync or in its index write. -/
theorem publish_single_iff (K : Codecs) (syncs : Bool) (maxRetries : Int) (pl : PartitionLog)
    (wf : pl.WellFormed K) (next64 : IsInt64 pl.nextOffset) (msg : Message)
    (writable : Writable K msg) (fresh : ∀ r ∈ pl.records K, r.msg.id ≠ msg.id)
    (attempts : List Attempt) (clock : ∀ a ∈ attempts, IsInt64 a.now)
    (tidy : ∀ a ∈ attempts.dropLast, ∀ f ∈ a.fault, f.leavesBytes = false)
    (p : Partition) (result : Except PublishError Int)
    (run : publishWithRetry K syncs maxRetries pl msg attempts = some (p, result)) :
    Single K msg p result ↔ ∀ a ∈ attempts, ∀ f ∈ a.fault, f.afterWrite = false :=
  publishFrom_single wf writable next64 fresh clock tidy run

section Sample

def emptyLog : PartitionLog := openPartitionLog sampleCodecs 60 40 []

/-- The result of a call and the offsets of the copies it leaves. -/
def outcomeOf (maxRetries : Int) (attempts : List Attempt) :
    Option (Except PublishError Int × List Int) :=
  (publishWithRetry sampleCodecs true maxRetries emptyLog sampleMessage attempts).map
    fun ended => (ended.2, (copies sampleCodecs sampleMessage ended.1).map Record.offset)

/-- **A message in the log twice.**  The first sync fails and the retry succeeds; and
without a retry the call fails with the record in the log. -/
theorem publish_twice :
    (∃ p, publishWithRetry sampleCodecs true 3 emptyLog sampleMessage
        [⟨1, some .sync, false⟩, ⟨2, none, false⟩] = some (p, .ok 1) ∧
      (copies sampleCodecs sampleMessage p).map Record.offset = [0, 1] ∧
      ¬ Single sampleCodecs sampleMessage p (.ok 1)) ∧
    ∃ p, publishWithRetry sampleCodecs true 0 emptyLog sampleMessage
        [⟨1, some .sync, false⟩] = some (p, .error (.failed 1 (some .sync))) ∧
      ¬ Single sampleCodecs sampleMessage p (.error (.failed 1 (some .sync))) := by
  constructor
  · have twice : outcomeOf 3 [⟨1, some .sync, false⟩, ⟨2, none, false⟩] =
        some (.ok 1, [0, 1]) := by decide +kernel
    obtain ⟨⟨p, result⟩, run, eq⟩ := map_eq_some_iff.mp twice
    grind [Single]
  · have once : outcomeOf 0 [⟨1, some .sync, false⟩] =
        some (.error (.failed 1 (some .sync)), [0]) := by decide +kernel
    obtain ⟨⟨p, result⟩, run, eq⟩ := map_eq_some_iff.mp once
    obtain ⟨rfl, offsets⟩ := Prod.mk.inj eq
    refine ⟨p, run, fun single => ?_⟩
    rw [show copies sampleCodecs sampleMessage p = [] from single] at offsets
    cases offsets

/-- A write that wrote nothing, and a retry that succeeds. -/
theorem publish_single_retried :
    ∃ p, publishWithRetry sampleCodecs true 3 emptyLog sampleMessage
        [⟨1, some (.write 0), false⟩, ⟨2, none, false⟩] = some (p, .ok 0) ∧
      Single sampleCodecs sampleMessage p (.ok 0) := by
  have retried : (outcomeOf 3 [⟨1, some (.write 0), false⟩, ⟨2, none, false⟩]).map Prod.fst =
      some (.ok 0) := by decide +kernel
  obtain ⟨⟨p, result⟩, run, eq⟩ := map_eq_some_iff.mp
    ((map_map _ _ _).symm.trans retried)
  obtain rfl : result = .ok 0 := eq
  have start := @PartitionLog.openPartitionLog_nil sampleCodecs 60 40 (by decide) (by decide)
  refine ⟨p, run, (publish_single_iff sampleCodecs true 3 emptyLog start.1 (by decide +kernel)
    sampleMessage sampleMessage_writable (by decide +kernel) _ (by decide) (by decide) p _
    run).mpr (by decide)⟩

end Sample

end PubsubBroker.Publish.Retry
