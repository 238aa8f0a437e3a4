/-
# Storage.Rewrite — a segment rewrite that stops half-way

`rewriteSegment` as the list of its file operations (`rewriteOps`): two temporary
files are written and synced, the log and then the index is renamed over the old
one, and both are opened again.  A rewrite stops when an operation fails or when the
process crashes (`Stop`); `stopped_files` says which files are found afterwards.

The two renames are not one: between them the new log stands beside the old index.
A read starts where the index sends it, so it may start behind records that it should
return, or inside of one.  `rewrite_reads` says when it does not: every entry of the
old index has to fall on a record of the new log with only smaller offsets in front,
or behind the end of the log.

* `Segment.Sound`: the files hold the records, and no index entry skips one.
* `stopped_files`: which pair of files a stopped rewrite leaves.
* `rewrite_reads`: the reads on such a pair.
-/
import PubsubBroker.Storage.Refinement

namespace PubsubBroker.Storage

open Theory List

/-! ## File operations -/

/-- The files of a segment and the temporary ones beside them. -/
structure Disk where
  log : Bytes
  index : Bytes
  tmpLog : Option Bytes
  tmpIndex : Option Bytes

inductive FileOp where
  | createLog
  | createIndex
  | writeLog (bytes : Bytes)
  | writeIndex (bytes : Bytes)
  | syncLog
  | syncIndex
  | renameLog
  | renameIndex
  | openLog
  | openIndex

def Disk.perform (d : Disk) : FileOp → Disk
  | .createLog => { d with tmpLog := some [] }
  | .createIndex => { d with tmpIndex := some [] }
  | .writeLog bytes => { d with tmpLog := d.tmpLog.map (· ++ bytes) }
  | .writeIndex bytes => { d with tmpIndex := d.tmpIndex.map (· ++ bytes) }
  | .renameLog => { d with log := d.tmpLog.getD d.log, tmpLog := none }
  | .renameIndex => { d with index := d.tmpIndex.getD d.index, tmpIndex := none }
  | .syncLog | .syncIndex | .openLog | .openIndex => d

/-- What an operation that is cut off leaves: the first bytes of a write. -/
def Disk.torn (d : Disk) (bytes : Nat) : FileOp → Disk
  | .writeLog b => d.perform (.writeLog (b.take bytes))
  | .writeIndex b => d.perform (.writeIndex (b.take bytes))
  | _ => d

/-- The clean-up after a failed operation; a removal may fail as well.  After a rename
nothing is removed, and `reopenOriginal` changes no contents. -/
def Disk.cleanUp (d : Disk) (removedLog removedIndex : Bool) : FileOp → Disk
  | .createIndex => { d with tmpLog := if removedLog then none else d.tmpLog }
  | .writeLog _ | .writeIndex _ | .syncLog | .syncIndex =>
    { d with
      tmpLog := if removedLog then none else d.tmpLog
      tmpIndex := if removedIndex then none else d.tmpIndex }
  | .createLog | .renameLog | .renameIndex | .openLog | .openIndex => d

/-- The loop of `rewriteSegment` from a position in the temporary log on. -/
def recordOps (indexEvery : Int) : Nat → Nat → List Bytes → List FileOp
  | _, _, [] => []
  | pos, byteSinceIndex, raw :: rest =>
    let due : Bool := ((byteSinceIndex + raw.length : Nat) : Int) ≥ indexEvery
    .writeLog raw ::
      ((if due then [.writeIndex (Segment.indexEntryBytes (int64 (leNat (raw.take 8)), pos))]
        else []) ++
        recordOps indexEvery (pos + raw.length)
          (if due then 0 else byteSinceIndex + raw.length) rest)

/-- The operations in front of the renames. -/
def buildOps (seg : Segment) (keptRaw : List Bytes) : List FileOp :=
  [.createLog, .createIndex] ++
    (if seg.version ≥ recordVersion then [.writeLog segHeader] else []) ++
    recordOps seg.indexEvery (fileHeader seg.version).length 0 keptRaw ++ [.syncLog, .syncIndex]

def rewriteOps (seg : Segment) (keptRaw : List Bytes) : List FileOp :=
  buildOps seg keptRaw ++ [.renameLog, .renameIndex, .openLog, .openIndex]

/-! ## Stopping -/

/-- How a rewrite ends early, with the number of operations that were completed and the
bytes the next one wrote. -/
inductive Stop where
  | crash (completed bytes : Nat)
  | failure (completed bytes : Nat) (removedLog removedIndex : Bool)

def Stop.completed : Stop → Nat
  | .crash completed _ => completed
  | .failure completed _ _ _ => completed

/-- A process that crashed reads nothing before it has opened the segment again. -/
def Stop.survives : Stop → Bool
  | .crash _ _ => false
  | .failure _ _ _ _ => true

/-- The files a stopped rewrite leaves. -/
def stopped (ops : List FileOp) (d : Disk) : Stop → Disk
  | .crash completed bytes =>
    (ops[completed]?).elim ((ops.take completed).foldl Disk.perform d) fun op =>
      ((ops.take completed).foldl Disk.perform d).torn bytes op
  | .failure completed bytes removedLog removedIndex =>
    (ops[completed]?).elim ((ops.take completed).foldl Disk.perform d) fun op =>
      (((ops.take completed).foldl Disk.perform d).torn bytes op).cleanUp removedLog removedIndex op

/-- The files before a rewrite; temporary files of an earlier one may be left. -/
def Segment.disk (seg : Segment) (tmpLog tmpIndex : Option Bytes) : Disk :=
  ⟨seg.log, seg.index, tmpLog, tmpIndex⟩

/-- The step of `rewriteSegment` that a stop counts as. -/
def Stop.fault (seg : Segment) (keptRaw : List Bytes) (stop : Stop) : RewriteFault :=
  if stop.completed < (buildOps seg keptRaw).length then .temp
  else if stop.completed = (buildOps seg keptRaw).length then .renameLog
  else if stop.completed = (buildOps seg keptRaw).length + 1 then .renameIndex
  else .reopen

section Files

variable {d : Disk} {seg : Segment} {keptRaw : List Bytes}

/-- Only a rename changes the files a reader opens. -/
def FileOp.isRename : FileOp → Bool
  | .renameLog | .renameIndex => true
  | _ => false

theorem perform_visible {op : FileOp} (quiet : op.isRename = false) :
    (d.perform op).log = d.log ∧ (d.perform op).index = d.index := by
  cases op <;> first | exact ⟨rfl, rfl⟩ | cases quiet

theorem performAll_visible {ops : List FileOp} (quiet : ∀ op ∈ ops, op.isRename = false) :
    (ops.foldl Disk.perform d).log = d.log ∧ (ops.foldl Disk.perform d).index = d.index := by
  induction ops generalizing d with
  | nil => exact ⟨rfl, rfl⟩
  | cons op ops ih =>
    have here := @perform_visible d op (quiet op (by simp))
    have later := @ih (d.perform op) fun op' mem => quiet op' (by simp [mem])
    simp [here, later]

theorem torn_visible (bytes : Nat) (op : FileOp) :
    (d.torn bytes op).log = d.log ∧ (d.torn bytes op).index = d.index := by
  cases op <;> exact ⟨rfl, rfl⟩

theorem cleanUp_visible (removedLog removedIndex : Bool) (op : FileOp) :
    (d.cleanUp removedLog removedIndex op).log = d.log ∧
      (d.cleanUp removedLog removedIndex op).index = d.index := by
  cases op <;> exact ⟨rfl, rfl⟩

theorem stopped_visible (ops : List FileOp) (stop : Stop) :
    (stopped ops d stop).log = ((ops.take stop.completed).foldl Disk.perform d).log ∧
      (stopped ops d stop).index = ((ops.take stop.completed).foldl Disk.perform d).index := by
  cases stop with
  | crash completed bytes => grind [stopped, Stop.completed, torn_visible]
  | failure completed bytes removedLog removedIndex =>
    grind [stopped, Stop.completed, cleanUp_visible, torn_visible]

theorem recordOps_quiet (indexEvery : Int) :
    ∀ (raws : List Bytes) (pos byteSinceIndex : Nat),
      ∀ op ∈ recordOps indexEvery pos byteSinceIndex raws, op.isRename = false := by
  intro raws
  induction raws with
  | nil => intro _ _ op mem; cases mem
  | cons raw raws ih =>
    intro pos byteSinceIndex op mem
    rw [recordOps] at mem
    simp only [mem_cons, mem_append] at mem
    rcases mem with rfl | entry | later
    · rfl
    · split at entry
      · rw [mem_singleton.mp entry]
        rfl
      · cases entry
    · exact ih _ _ op later

theorem buildOps_quiet : ∀ op ∈ buildOps seg keptRaw, op.isRename = false := by
  intro op mem
  simp only [buildOps, mem_append, mem_cons, not_mem_nil, or_false] at mem
  rcases mem with (((rfl | rfl) | header) | records) | rfl | rfl
  · rfl
  · rfl
  · split at header
    · rw [mem_singleton.mp header]
      rfl
    · cases header
  · exact recordOps_quiet _ _ _ _ op records
  · rfl
  · rfl

theorem write_due {indexEvery : Int} {t : TempFiles} {raw : Bytes}
    (due : ((t.byteSinceIndex + raw.length : Nat) : Int) ≥ indexEvery) :
    t.write indexEvery raw = ⟨t.log ++ raw,
      t.index ++ Segment.indexEntryBytes (int64 (leNat (raw.take 8)), t.log.length), 0⟩ := by
  simp only [TempFiles.write, due, decide_true, if_true]

theorem write_early {indexEvery : Int} {t : TempFiles} {raw : Bytes}
    (early : ¬ ((t.byteSinceIndex + raw.length : Nat) : Int) ≥ indexEvery) :
    t.write indexEvery raw = ⟨t.log ++ raw, t.index, t.byteSinceIndex + raw.length⟩ := by
  simp only [TempFiles.write, early, decide_false, Bool.false_eq_true, if_false]

theorem recordOps_perform (indexEvery : Int) :
    ∀ (raws : List Bytes) (t : TempFiles) (d : Disk), d.tmpLog = some t.log →
      d.tmpIndex = some t.index →
      (recordOps indexEvery t.log.length t.byteSinceIndex raws).foldl Disk.perform d =
        { d with
          tmpLog := some (raws.foldl (TempFiles.write indexEvery) t).log
          tmpIndex := some (raws.foldl (TempFiles.write indexEvery) t).index } := by
  intro raws
  induction raws with
  | nil =>
    intro t d log index
    simp [recordOps, ← log, ← index]
  | cons raw raws ih =>
    intro t d log index
    rw [recordOps, foldl_cons, foldl_append, foldl_cons]
    by_cases due : ((t.byteSinceIndex + raw.length : Nat) : Int) ≥ indexEvery
    · simp only [due, decide_true, if_true, foldl_cons, foldl_nil, write_due due]
      rw [← length_append, ih ⟨t.log ++ raw,
        t.index ++ Segment.indexEntryBytes (int64 (leNat (raw.take 8)), t.log.length), 0⟩ _
        (by simp [Disk.perform, log]) (by simp [Disk.perform, index])]
      rfl
    · simp only [due, decide_false, Bool.false_eq_true, if_false, foldl_nil,
        write_early due]
      rw [← length_append, ih ⟨t.log ++ raw, t.index, _⟩ _ (by simp [Disk.perform, log])
        (by simp [Disk.perform, index])]
      rfl

theorem buildOps_perform :
    (buildOps seg keptRaw).foldl Disk.perform d =
      { d with
        tmpLog := some (rewritten seg keptRaw).log
        tmpIndex := some (rewritten seg keptRaw).index } := by
  have records := recordOps_perform seg.indexEvery keptRaw ⟨fileHeader seg.version, [], 0⟩
    { d with tmpLog := some (fileHeader seg.version), tmpIndex := some [] } rfl rfl
  have header : ((if seg.version ≥ recordVersion then [FileOp.writeLog segHeader] else []).foldl
      Disk.perform { d with tmpLog := some [], tmpIndex := some [] }) =
        { d with tmpLog := some (fileHeader seg.version), tmpIndex := some [] } := by
    unfold fileHeader
    split <;> rfl
  simp only [buildOps, foldl_append]
  change List.foldl Disk.perform (List.foldl Disk.perform (List.foldl Disk.perform
    { d with tmpLog := some [], tmpIndex := some [] } _) _) _ = _
  rw [header, records]
  rfl

/-- **What a stopped rewrite leaves**: the old files, the new ones, or the new log beside
the old index. -/
theorem stopped_files (tmpLog tmpIndex : Option Bytes) (stop : Stop) :
    (stopped (rewriteOps seg keptRaw) (seg.disk tmpLog tmpIndex) stop).log =
        (rewriteSegment seg keptRaw (some (stop.fault seg keptRaw))).log ∧
      (stopped (rewriteOps seg keptRaw) (seg.disk tmpLog tmpIndex) stop).index =
        (rewriteSegment seg keptRaw (some (stop.fault seg keptRaw))).index := by
  obtain ⟨log, index⟩ :=
    @stopped_visible (seg.disk tmpLog tmpIndex) (rewriteOps seg keptRaw) stop
  rw [log, index, rewriteOps, take_append, foldl_append]
  unfold Stop.fault
  split
  · rename_i early
    rw [show stop.completed - (buildOps seg keptRaw).length = 0 by omega]
    exact performAll_visible fun op mem => buildOps_quiet op (mem_of_mem_take mem)
  · rename_i built
    rw [take_of_length_le (by omega), buildOps_perform]
    split
    · rename_i here
      rw [here, Nat.sub_self]
      exact ⟨rfl, rfl⟩
    · split
      · rename_i here
        rw [here, Nat.add_sub_cancel_left]
        exact ⟨rfl, rfl⟩
      · obtain ⟨more, eq⟩ : ∃ more, stop.completed - (buildOps seg keptRaw).length = more + 2 :=
          ⟨stop.completed - (buildOps seg keptRaw).length - 2, by omega⟩
        rw [eq]
        simp only [take_succ_cons, foldl_cons]
        refine performAll_visible fun op mem => ?_
        have opens := mem_of_mem_take mem
        simp only [mem_cons, not_mem_nil, or_false] at opens
        rcases opens with rfl | rfl <;> rfl

end Files

/-! ## Reading with any index -/

/-- The entries of the index file. -/
def Segment.entries (s : Segment) : List (Int × Int) := (scan Segment.readIndexEntry s.index).1

/-- A read from that byte on finds the records `after`: it starts between the two parts,
or nothing is left and it starts behind the end. -/
def Lands (dataStart : Nat) (before after : List Record) (pos : Int) : Prop :=
  pos = ((dataStart + (frames Record.raw before).length : Nat) : Int) ∨
    after = [] ∧ ((dataStart + (frames Record.raw before).length : Nat) : Int) ≤ pos

/-- The entry does not fall inside of a record. -/
def Aligned (dataStart : Nat) (rs : List Record) (e : Int × Int) : Prop :=
  ∃ before after, rs = before ++ after ∧ Lands dataStart before after e.2

/-- The entry falls between records, and no record in front has its offset or a larger
one. -/
def Points (dataStart : Nat) (rs : List Record) (e : Int × Int) : Prop :=
  ∃ before after, rs = before ++ after ∧ Lands dataStart before after e.2 ∧
    ∀ r ∈ before, r.offset < e.1

/-- The log holds the records, and no entry of the index skips one. -/
structure Segment.Sound (K : Codecs) (s : Segment) (rs : List Record) : Prop where
  log : s.log = fileHeader s.version ++ frames Record.raw rs
  readable : ∀ r ∈ rs, Readable K s.version r
  points : ∀ e ∈ s.entries, Points s.dataStart rs e

section Reading

variable {K : Codecs} {s : Segment} {rs before after : List Record} {start maxCount : Int}

theorem Lands.nonneg {dataStart : Nat} {pos : Int} (lands : Lands dataStart before after pos) :
    0 ≤ pos := by
  rcases lands with here | ⟨-, behind⟩ <;> omega

theorem Lands.drop {header : Bytes} {pos : Int} (lands : Lands header.length before after pos) :
    (header ++ frames Record.raw (before ++ after)).drop pos.toNat = frames Record.raw after := by
  rw [frames_append, ← append_assoc]
  rcases lands with here | ⟨rfl, behind⟩
  · grind [Int.toNat_natCast]
  · grind [frames, drop_eq_nil_of_le]

theorem Segment.readLoop_landed {pos : Int}
    (log : s.log = fileHeader s.version ++ frames Record.raw (before ++ after))
    (readable : ∀ r ∈ after, Readable K s.version r) (lands : Lands s.dataStart before after pos)
    (room : Nat) :
    Segment.readLoop K s.version start ((s.log.drop pos.toNat).length + 1) room
        (s.log.drop pos.toNat) = .ok ((messagesFrom start after).take room) := by
  have input : s.log.drop pos.toNat = frames Record.raw after ++ [] := by
    rw [s.laidOut] at lands
    rw [log, lands.drop, append_nil]
  rw [input]
  exact readLoop_frames (readRecord_nil K s.version) rfl _ _ after readable (by omega)

theorem Segment.read_landed (log : s.log = fileHeader s.version ++ frames Record.raw (before ++ after))
    (readable : ∀ r ∈ after, Readable K s.version r)
    (lands : Lands s.dataStart before after (s.findPosition start)) :
    s.read K start maxCount = .ok ((messagesFrom start after).take maxCount.toNat) := by
  unfold Segment.read
  simp only [if_neg (not_lt.mpr lands.nonneg)]
  exact readLoop_landed log readable lands _

/-- An index that skips nothing sends a read to a place with only smaller offsets in front. -/
theorem Segment.findPosition_lands (points : ∀ e ∈ s.entries, Points s.dataStart rs e)
    (start : Int) :
    ∃ before after, rs = before ++ after ∧ Lands s.dataStart before after (s.findPosition start) ∧
      ∀ r ∈ before, r.offset < start := by
  rcases Segment.bestPos_cases start s.dataStart s.entries with first | ⟨e, mem, le, found⟩
  · refine ⟨[], rs, rfl, .inl ?_, by simp⟩
    rw [show s.findPosition start = s.dataStart from first]
    rfl
  · obtain ⟨before, after, split, lands, early⟩ := points e mem
    refine ⟨before, after, split, ?_, fun r inside => lt_of_lt_of_le (early r inside) le⟩
    rw [show s.findPosition start = e.2 from found]
    exact lands

/-- **A read of a sound segment** returns the records from `start` on. -/
theorem Segment.Sound.read_eq (sound : s.Sound K rs) :
    s.read K start maxCount = .ok ((messagesFrom start rs).take maxCount.toNat) := by
  obtain ⟨before, after, rfl, lands, early⟩ := Segment.findPosition_lands sound.points start
  rw [read_landed sound.log (fun r mem => sound.readable r (by simp [mem])) lands,
    PartitionLog.messagesFrom_append, PartitionLog.messagesFrom_eq_nil early, nil_append]

end Reading

/-! ## The new files -/

/-- The entry is the offset and the position of a record. -/
def Marks (dataStart : Nat) (rs : List Record) (e : Int × Int) : Prop :=
  ∃ before r after, rs = before ++ r :: after ∧
    e = (r.offset, ((dataStart + (frames Record.raw before).length : Nat) : Int))

section Rewritten

variable {K : Codecs} {seg : Segment} {kept rs : List Record} {dataStart : Nat} {e : Int × Int}

theorem Marks.append (marks : Marks dataStart rs e) (more : List Record) :
    Marks dataStart (rs ++ more) e := by
  obtain ⟨before, r, after, rfl, eq⟩ := marks
  exact ⟨before, r, after ++ more, by simp, eq⟩

theorem Marks.points (sorted : rs.Pairwise fun a b => a.offset < b.offset)
    (marks : Marks dataStart rs e) : Points dataStart rs e := by
  obtain ⟨before, r, after, rfl, rfl⟩ := marks
  exact ⟨before, r :: after, rfl, .inl rfl, fun r' mem =>
    (pairwise_append.mp sorted).2.2 r' mem r (by simp)⟩

theorem TempFiles.foldl_marks (indexEvery : Int) {version : UInt8} (kept : List Record) :
    ∀ (done : List Record) (t : TempFiles),
      t.log.length = dataStart + (frames Record.raw done).length →
      (∃ es, t.index = frames Segment.indexEntryBytes es ∧ ∀ e ∈ es, Marks dataStart done e) →
      (∀ r ∈ kept, Readable K version r) →
      ∃ es, ((kept.map Record.raw).foldl (TempFiles.write indexEvery) t).index =
        frames Segment.indexEntryBytes es ∧ ∀ e ∈ es, Marks dataStart (done ++ kept) e := by
  induction kept with
  | nil => simp
  | cons r kept ih =>
    rintro done t size ⟨es, index, marks⟩ readable
    have offset := (readable r (by simp)).offset_word
    rw [show done ++ r :: kept = (done ++ [r]) ++ kept by simp, map_cons, foldl_cons]
    refine ih (done ++ [r]) (t.write indexEvery r.raw) ?_ ?_
      fun r' mem => readable r' (by simp [mem])
    · simp [TempFiles.write, size]
      omega
    · by_cases due : ((t.byteSinceIndex + r.raw.length : Nat) : Int) ≥ indexEvery
      · rw [write_due due, offset]
        refine ⟨es ++ [(r.offset, (t.log.length : Int))], by simp [index], fun e mem => ?_⟩
        rcases mem_append.mp mem with old | new
        · exact (marks e old).append [r]
        · rw [mem_singleton.mp new, size]
          exact ⟨done, r, [], rfl, rfl⟩
      · rw [write_early due]
        exact ⟨es, index, fun e mem => (marks e mem).append [r]⟩

/-- **The new files are sound.** -/
theorem rewritten_sound (readable : ∀ r ∈ kept, Readable K seg.version r)
    (sorted : kept.Pairwise fun a b => a.offset < b.offset)
    (size : ((rewritten seg (kept.map Record.raw)).log.length : Int) < 2 ^ 63) :
    (rewriteSegment seg (kept.map Record.raw) none).Sound K kept := by
  have log := rewritten_log seg kept
  obtain ⟨es, index, marks⟩ := @TempFiles.foldl_marks K seg.dataStart seg.indexEvery seg.version
    kept [] ⟨fileHeader seg.version, [], 0⟩ (by simp [seg.laidOut, frames])
    ⟨[], rfl, by simp⟩ readable
  rw [nil_append] at marks
  refine ⟨log, readable, ?_⟩
  have fits : ∀ e ∈ es, IsInt64 e.1 ∧ IsInt64 e.2 := by
    intro e mem
    obtain ⟨before, r, after, rfl, rfl⟩ := marks e mem
    have word := (readable r (by simp)).offset_word
    have offset : IsInt64 r.offset := word ▸ int64_range _
    grind [frames_append, Segment.laidOut, IsInt64]
  have walked : (rewriteSegment seg (kept.map Record.raw) none).entries = es := by
    have torn := scan_torn Segment.readIndexEntry_progress Segment.readIndexEntry_delimits
      (Segment.readIndexEntry_short (show ([] : Bytes).length < 16 by decide)) es fits
    grind [Segment.entries, rewriteSegment, rewritten]
  rw [walked]
  exact fun e mem => (marks e mem).points sorted

end Rewritten

/-! ## Opening the files again -/

def Segment.withFiles (s : Segment) (log index : Bytes) : Segment :=
  { s with log := log, index := index }

/-- `createSegment` takes a log for one of that version. -/
def Detected (version : UInt8) (log : Bytes) : Prop :=
  (version = recordVersion ∧ log.take segFileHeaderSize = segHeader) ∨
    (version = 1 ∧ log.take segFileHeaderSize ≠ segHeader)

section Reopening

variable {K : Codecs} {s t : Segment} {start maxCount : Int}

theorem Segment.read_congr (version : s.version = t.version) (log : s.log = t.log)
    (index : s.index = t.index) : s.read K start maxCount = t.read K start maxCount := by
  have dataStart : s.dataStart = t.dataStart := by rw [s.laidOut, t.laidOut, version]
  unfold Segment.read Segment.findPosition
  rw [version, log, index, dataStart]

theorem Segment.findPosition_nonneg (seekable : ∀ e ∈ s.entries, 0 ≤ e.2) :
    0 ≤ s.findPosition start := by
  rcases Segment.bestPos_cases start s.dataStart s.entries with first | ⟨e, mem, -, found⟩
  · rw [show s.findPosition start = s.dataStart from first]
    exact Int.natCast_nonneg _
  · rw [show s.findPosition start = e.2 from found]
    exact seekable e mem

theorem Segment.read_short (short : s.log.length < recHeaderSize s.version)
    (seekable : ∀ e ∈ s.entries, 0 ≤ e.2) : s.read K start maxCount = .ok [] := by
  have rest : (s.log.drop (s.findPosition start).toNat).length < recHeaderSize s.version := by
    rw [length_drop]
    omega
  unfold Segment.read
  simp only [if_neg (not_lt.mpr (Segment.findPosition_nonneg seekable))]
  cases maxCount.toNat with
  | zero => rfl
  | succ room => simp [readLoop, decodeRecord, readRecord, readFull_short rest, shortRead_isEnd, Except.map]

/-- **A segment opened again reads as before**, if its version is detected. -/
theorem reopened_read {baseOffset maxBytes indexEvery : Int} (detected : Detected s.version s.log)
    (seekable : s.log = [] → ∀ e ∈ s.entries, 0 ≤ e.2) :
    (createSegment K baseOffset maxBytes indexEvery s.log s.index).read K start maxCount =
      s.read K start maxCount := by
  by_cases empty : s.log = []
  · -- a new header is written in front of nothing
    have here : s.read K start maxCount = .ok [] :=
      Segment.read_short (by have := recHeaderSize_pos s.version; simp [empty]; omega)
        (seekable empty)
    rw [here, empty]
    exact Segment.read_short (show segHeader.length < recHeaderSize recordVersion by decide)
      (seekable empty)
  · have nonempty : ¬ s.log.length = 0 := fun zero => empty (length_eq_zero_iff.mp zero)
    refine Segment.read_congr ?_ ?_ ?_
    · unfold createSegment Segment.recoverNextOffset
      rw [if_neg nonempty]
      rcases detected with ⟨version, header⟩ | ⟨version, other⟩
      · have long : segFileHeaderSize ≤ s.log.length := by
          have len := congrArg List.length header
          grind [segHeader_length]
        simp [version, header, long]
      simp [version, other]
    · unfold createSegment Segment.recoverNextOffset
      rw [if_neg nonempty]
    · unfold createSegment Segment.recoverNextOffset
      rw [if_neg nonempty]

end Reopening

/-! ## The reads after a stop -/

/-- Every read returns what it returned before the rewrite, or what it returns after a
complete one. -/
def OldOrNew (K : Codecs) (seg : Segment) (keptRaw : List Bytes) (s : Segment) : Prop :=
  ∀ start maxCount, s.read K start maxCount = seg.read K start maxCount ∨
    s.read K start maxCount = (rewriteSegment seg keptRaw none).read K start maxCount

/-- The reads on the segment after a stop, by the process if it survived, and by one that
has opened the files again. -/
def StopSafe (K : Codecs) (seg : Segment) (keptRaw : List Bytes) (left : Disk) (stop : Stop) :
    Prop :=
  (stop.survives = true → OldOrNew K seg keptRaw (seg.withFiles left.log left.index)) ∧
    ∀ maxBytes indexEvery, OldOrNew K seg keptRaw
      (createSegment K seg.baseOffset maxBytes indexEvery left.log left.index)

section Safety

variable {K : Codecs} {seg : Segment} {kept : List Record} {keptRaw : List Bytes} {left : Disk}
  {stop : Stop}

theorem stopSafe_of_reads (reads : OldOrNew K seg keptRaw (seg.withFiles left.log left.index))
    (detected : Detected seg.version left.log)
    (seekable : left.log = [] → ∀ e ∈ (seg.withFiles left.log left.index).entries, 0 ≤ e.2) :
    StopSafe K seg keptRaw left stop := by
  refine ⟨fun _ => reads, fun maxBytes indexEvery start maxCount => ?_⟩
  have again := @reopened_read K (seg.withFiles left.log left.index) start maxCount seg.baseOffset
    maxBytes indexEvery detected seekable
  rw [show (createSegment K seg.baseOffset maxBytes indexEvery left.log left.index).read K start
    maxCount = _ from again]
  exact reads start maxCount

theorem reads_of_points (readable : ∀ r ∈ kept, Readable K seg.version r)
    (new : (rewriteSegment seg (kept.map Record.raw) none).Sound K kept) {index : Bytes}
    (points : ∀ e ∈ (seg.withFiles (rewritten seg (kept.map Record.raw)).log index).entries,
      Points seg.dataStart kept e) :
    OldOrNew K seg (kept.map Record.raw)
      (seg.withFiles (rewritten seg (kept.map Record.raw)).log index) := by
  intro start maxCount
  have sound : (seg.withFiles (rewritten seg (kept.map Record.raw)).log index).Sound K kept :=
    ⟨rewritten_log seg kept, readable, points⟩
  exact .inr (sound.read_eq.trans new.read_eq.symm)

theorem Points.nonneg {dataStart : Nat} {rs : List Record} {e : Int × Int}
    (points : Points dataStart rs e) : 0 ≤ e.2 := by
  obtain ⟨before, after, -, lands, -⟩ := points
  exact lands.nonneg

/-- **When a stopped rewrite is safe**: it did not stop between the renames, or the old
index points into the new log. -/
theorem stopSafe_of_points (readable : ∀ r ∈ kept, Readable K seg.version r)
    (new : (rewriteSegment seg (kept.map Record.raw) none).Sound K kept)
    (nonempty : seg.log ≠ []) (detected : Detected seg.version seg.log)
    (detectedNew : Detected seg.version (rewritten seg (kept.map Record.raw)).log)
    (log : left.log = (rewriteSegment seg (kept.map Record.raw)
      (some (stop.fault seg (kept.map Record.raw)))).log)
    (index : left.index = (rewriteSegment seg (kept.map Record.raw)
      (some (stop.fault seg (kept.map Record.raw)))).index)
    (points : stop.fault seg (kept.map Record.raw) = .renameIndex →
      ∀ e ∈ seg.entries, Points seg.dataStart kept e) :
    StopSafe K seg (kept.map Record.raw) left stop := by
  cases fault : stop.fault seg (kept.map Record.raw) with
  | temp | renameLog =>
    rw [fault] at log index
    refine stopSafe_of_reads (fun start maxCount => .inl ?_) (log ▸ detected)
      fun empty => absurd (log.symm.trans empty) nonempty
    exact Segment.read_congr rfl log index
  | renameIndex =>
    rw [fault] at log index
    have entries : ∀ e ∈ (seg.withFiles left.log left.index).entries,
        Points seg.dataStart kept e := by
      rw [index]
      exact points fault
    refine stopSafe_of_reads ?_ (log ▸ detectedNew) fun _ e mem => (entries e mem).nonneg
    rw [log] at entries ⊢
    exact reads_of_points readable new entries
  | reopen =>
    rw [fault] at log index
    have entries : ∀ e ∈ (seg.withFiles left.log left.index).entries,
        Points seg.dataStart kept e := by
      rw [index]
      exact new.points
    refine stopSafe_of_reads ?_ (log ▸ detectedNew) fun _ e mem => (entries e mem).nonneg
    rw [log] at entries ⊢
    exact reads_of_points readable new entries

theorem bestPos_of_mem {best : Int} {es : List (Int × Int)}
    (order : es.Pairwise fun a b => a.1 < b.1) {e : Int × Int} (mem : e ∈ es) :
    Segment.bestPos e.1 best es = e.2 := by
  induction es generalizing best with
  | nil => cases mem
  | cons first es ih =>
    obtain ⟨behind, order⟩ := pairwise_cons.mp order
    rw [Segment.bestPos]
    rcases mem_cons.mp mem with rfl | later
    · rw [if_pos le_rfl]
      -- the next entry lies behind
      cases es with
      | nil => rfl
      | cons next es => rw [Segment.bestPos, if_neg (not_le.mpr (behind next (by simp)))]
    grind

theorem early_of_length {start : Int} {before after : List Record}
    (le : (Segment.messagesFrom start (before ++ after)).length ≤
      (Segment.messagesFrom start after).length) : ∀ r ∈ before, r.offset < start := by
  rw [PartitionLog.messagesFrom_append, length_append] at le
  have none : Segment.messagesFrom start before = [] := length_eq_zero_iff.mp (by omega)
  intro r mem
  have out := filter_eq_nil_iff.mp (map_eq_nil_iff.mp none) r mem
  simpa using out

/-- **Between the renames nothing less will do**, if the entries fall between records. -/
theorem points_of_reads (sub : kept.Sublist (seg.records K))
    (new : (rewriteSegment seg (kept.map Record.raw) none).Sound K kept)
    (readable : ∀ r ∈ kept, Readable K seg.version r)
    (order : seg.entries.Pairwise fun a b => a.1 < b.1)
    (old : ∀ start maxCount, seg.read K start maxCount =
      .ok ((Segment.messagesFrom start (seg.records K)).take maxCount.toNat))
    (reads : OldOrNew K seg (kept.map Record.raw)
      (seg.withFiles (rewritten seg (kept.map Record.raw)).log seg.index))
    {e : Int × Int} (mem : e ∈ seg.entries) (aligned : Aligned seg.dataStart kept e) :
    Points seg.dataStart kept e := by
  obtain ⟨before, after, split, lands⟩ := aligned
  have found : (seg.withFiles (rewritten seg (kept.map Record.raw)).log seg.index).findPosition
      e.1 = e.2 := bestPos_of_mem order mem
  have fewer : (Segment.messagesFrom e.1 kept).length ≤
      (Segment.messagesFrom e.1 (seg.records K)).length :=
    ((sub.filter _).map _).length_le
  have room : (Segment.messagesFrom e.1 (seg.records K)).length ≤ (seg.records K).length := by
    grind [Segment.messagesFrom]
  -- a read with room for every record
  have here := @Segment.read_landed K (seg.withFiles (rewritten seg (kept.map Record.raw)).log
    seg.index) before after e.1 (seg.records K).length (split ▸ rewritten_log seg kept)
    (fun r inside => readable r (by rw [split]; simp [inside])) (found ▸ lands)
  have whole : (Segment.messagesFrom e.1 (before ++ after)).length ≤
      (Segment.messagesFrom e.1 after).length := by
    rw [← split]
    rcases reads e.1 (seg.records K).length with same | same
    · rw [here, old, Except.ok.injEq] at same
      have length := congrArg List.length same
      grind
    · rw [here, new.read_eq, Except.ok.injEq] at same
      have length := congrArg List.length same
      grind
  exact ⟨before, after, split, lands, early_of_length whole⟩

end Safety

/-- **The reads after a rewrite that failed or crashed.**  For every segment in offset
order and every choice of kept records, wherever the rewrite stops: if it does not stop
between the renames, or if every entry of the old index falls between records of the new
log with only smaller offsets in front, then every read, also of the files opened again,
is one of the old or of the new contents.  And where the entries fall between records, an
entry with a larger offset in front does make a read go wrong. -/
theorem rewrite_reads (K : Codecs) (seg : Segment) (kept : List Record)
    (sub : kept.Sublist (seg.records K))
    (sorted : (seg.records K).Pairwise fun a b => a.offset < b.offset)
    (size : ((rewritten seg (kept.map Record.raw)).log.length : Int) < 2 ^ 63)
    (nonempty : seg.log ≠ []) (detected : Detected seg.version seg.log)
    (detectedNew : Detected seg.version (rewritten seg (kept.map Record.raw)).log)
    (tmpLog tmpIndex : Option Bytes) (stop : Stop) :
    ((stop.fault seg (kept.map Record.raw) = .renameIndex →
        ∀ e ∈ seg.entries, Points seg.dataStart kept e) →
      StopSafe K seg (kept.map Record.raw) (stopped (rewriteOps seg (kept.map Record.raw))
        (seg.disk tmpLog tmpIndex) stop) stop) ∧
    ((∀ e ∈ seg.entries, Aligned seg.dataStart kept e) →
      (seg.entries.Pairwise fun a b => a.1 < b.1) →
      (∀ start maxCount, seg.read K start maxCount =
        .ok ((Segment.messagesFrom start (seg.records K)).take maxCount.toNat)) →
      StopSafe K seg (kept.map Record.raw) (stopped (rewriteOps seg (kept.map Record.raw))
        (seg.disk tmpLog tmpIndex) stop) stop →
      stop.fault seg (kept.map Record.raw) = .renameIndex →
        ∀ e ∈ seg.entries, Points seg.dataStart kept e) := by
  have readable : ∀ r ∈ kept, Readable K seg.version r := fun r mem =>
    seg.records_readable r (sub.subset mem)
  have new := rewritten_sound readable (sorted.sublist sub) size
  obtain ⟨log, index⟩ := @stopped_files seg (kept.map Record.raw) tmpLog tmpIndex stop
  refine ⟨stopSafe_of_points readable new nonempty detected detectedNew log index, ?_⟩
  intro aligned order old safe fault e mem
  rw [fault] at log index
  refine points_of_reads sub new readable order old (fun start maxCount => ?_) mem (aligned e mem)
  -- the process that opens the files again sees the same as one that survived
  have again := @reopened_read K (seg.withFiles (rewritten seg (kept.map Record.raw)).log seg.index)
    start maxCount seg.baseOffset seg.maxBytes seg.indexEvery detectedNew fun _ e mem => by
      obtain ⟨before, after, -, lands⟩ := aligned e mem
      exact lands.nonneg
  have reads := safe.2 seg.maxBytes seg.indexEvery start maxCount
  rw [log, index] at reads
  rwa [← again]

/-- One key written twice, each record with an index entry. -/
def twoVersions : Segment :=
  (((createSegment sampleCodecs 0 1000 1 [] []).write sampleCodecs 1 sampleMessage).1.write
    sampleCodecs 2 sampleMessage).1

/-- What a sweep keeps of it. -/
def newVersion : List Record := (twoVersions.records sampleCodecs).drop 1

/-- The rename of the index fails. -/
def staleIndex : Stop :=
  .failure ((buildOps twoVersions (newVersion.map Record.raw)).length + 1) 0 false false

def staleFiles : Disk :=
  stopped (rewriteOps twoVersions (newVersion.map Record.raw)) (twoVersions.disk none none) staleIndex

/-- **A stale index hides a record.**  The record at offset 1 is in the old and in the new
contents; after the failed rename a read from offset 1 returns nothing. -/
theorem rewrite_hides_record :
    (twoVersions.withFiles staleFiles.log staleFiles.index).read sampleCodecs 1 10 = .ok [] ∧
      twoVersions.read sampleCodecs 1 10 = .ok [sampleMessage.setOffset 1] ∧
      (rewriteSegment twoVersions (newVersion.map Record.raw) none).read sampleCodecs 1 10 =
        .ok [sampleMessage.setOffset 1] ∧
      ¬ StopSafe sampleCodecs twoVersions (newVersion.map Record.raw) staleFiles staleIndex := by
  have hidden : (twoVersions.withFiles staleFiles.log staleFiles.index).read sampleCodecs 1 10 =
      .ok [] := by decide +kernel
  have old : twoVersions.read sampleCodecs 1 10 = .ok [sampleMessage.setOffset 1] := by
    decide +kernel
  have new : (rewriteSegment twoVersions (newVersion.map Record.raw) none).read sampleCodecs 1 10 =
      .ok [sampleMessage.setOffset 1] := by decide +kernel
  refine ⟨hidden, old, new, fun safe => ?_⟩
  rcases safe.1 rfl 1 10 with same | same
  · rw [hidden, old] at same
    cases same
  · rw [hidden, new] at same
    cases same

/-- The first version is kept, and the process crashes between the renames. -/
theorem rewrite_reads_first :
    StopSafe sampleCodecs twoVersions (((twoVersions.records sampleCodecs).take 1).map Record.raw)
      (stopped (rewriteOps twoVersions (((twoVersions.records sampleCodecs).take 1).map Record.raw))
        (twoVersions.disk none none)
        (.crash ((buildOps twoVersions
          (((twoVersions.records sampleCodecs).take 1).map Record.raw)).length + 1) 0))
      (.crash ((buildOps twoVersions
        (((twoVersions.records sampleCodecs).take 1).map Record.raw)).length + 1) 0) := by
  refine (rewrite_reads sampleCodecs twoVersions ((twoVersions.records sampleCodecs).take 1)
    (take_sublist _ _) (by decide +kernel) (by decide +kernel) (by decide +kernel)
    (.inl (by decide +kernel)) (.inl (by decide +kernel)) none none _).1 fun _ e mem => ?_
  have entries : twoVersions.entries = [(0, 5), (1, 41)] := by decide +kernel
  rw [entries] at mem
  have first : (frames Record.raw ((twoVersions.records sampleCodecs).take 1)).length = 36 := by
    decide +kernel
  have dataStart : twoVersions.dataStart = 5 := by decide +kernel
  rw [dataStart]
  simp only [mem_cons, not_mem_nil, or_false] at mem
  rcases mem with rfl | rfl
  · exact ⟨[], _, (nil_append _).symm, .inl rfl, by simp⟩
  · refine ⟨(twoVersions.records sampleCodecs).take 1, [], by simp, .inl ?_, by decide +kernel⟩
    rw [first]
    rfl

end PubsubBroker.Storage
