/-
# Storage.PartitionLog — the ordered segments of one topic-partition

`internal/storage/partition_log.go`.  A partition log is a non-empty list of
segments in base-offset order; the last one is active and takes the appends, the
others are sealed.  `Append` rolls over to a new segment when the active one is
full, `Read` visits the segments from old to new, `Compact` drops whole sealed
segments by age or total size, and `OpenPartitionLog` rebuilds the list from the
files in the directory.

`PartitionLog.WellFormed` is the invariant that ties the parts together: every
segment is clean, each segment's offsets lie before the next one's base offset,
and the active segment's next offset is the one its files determine.  The
operations keep it, and say what they do to the records of the log.
-/
import Mathlib.Data.List.Flatten
import Mathlib.Data.List.Sort
import PubsubBroker.Storage.Segment

namespace PubsubBroker.Storage

open Theory List

structure PartitionLog where
  sealed : List Segment
  active : Segment
  segMaxBytes : Int
  indexEvery : Int

/-- The two files of a segment, as `OpenPartitionLog` finds them. -/
structure SegmentFiles where
  baseOffset : Int
  log : Bytes
  index : Bytes

def Segment.files (s : Segment) : SegmentFiles := ⟨s.baseOffset, s.log, s.index⟩

/-- `OpenPartitionLog`: the segments sorted by base offset, or a first segment in
an empty directory. -/
def openPartitionLog (K : Codecs) (segMaxBytes indexEvery : Int) (dir : List SegmentFiles) :
    PartitionLog :=
  let segments := (dir.map fun f =>
    createSegment K f.baseOffset segMaxBytes indexEvery f.log f.index).insertionSort
      fun a b => a.baseOffset ≤ b.baseOffset
  match segments.getLast? with
  | none => ⟨[], createSegment K 0 segMaxBytes indexEvery [] [], segMaxBytes, indexEvery⟩
  | some active => ⟨segments.dropLast, active, segMaxBytes, indexEvery⟩

/-- A retention sweep: the configured limits, the clock, and the modification
time of each segment's log file (none when it cannot be read). -/
structure Retention where
  maxAgeHours : Int
  maxSizeMB : Int
  now : Int
  modTime : Int → Option Int

/-- Arithmetic on Go's `int64`. -/
def wrap64 (z : Int) : Int := Int.bmod z (2 ^ 64)

theorem wrap64_eq {z : Int} (fits : IsInt64 z) : wrap64 z = z :=
  Int.bmod_eq_of_le (by have := fits.1; omega) (by have := fits.2; omega)

def hourNs : Int := 3600 * 10 ^ 9

namespace PartitionLog

def segments (pl : PartitionLog) : List Segment := pl.sealed ++ [pl.active]

def nextOffset (pl : PartitionLog) : Int := pl.active.nextOffset

/-- The directory after `Close`. -/
def files (pl : PartitionLog) : List SegmentFiles := pl.segments.map Segment.files

def reopen (K : Codecs) (pl : PartitionLog) : PartitionLog :=
  openPartitionLog K pl.segMaxBytes pl.indexEvery pl.files

/-! ## Appending -/

/-- The contents of the files a new segment of that base offset would open. -/
def filesAt (pl : PartitionLog) (base : Int) : Bytes × Bytes :=
  match pl.segments.find? (fun s => s.baseOffset = base) with
  | none => ([], [])
  | some s => (s.log, s.index)

/-- The rollover of `Append`: a full active segment is sealed and a new one takes
its place. -/
def roll (K : Codecs) (pl : PartitionLog) : PartitionLog :=
  if pl.active.isFull then
    { pl with
      sealed := pl.segments
      active := createSegment K pl.active.nextOffset pl.segMaxBytes pl.indexEvery
        (pl.filesAt pl.active.nextOffset).1 (pl.filesAt pl.active.nextOffset).2 }
  else pl

def append (K : Codecs) (pl : PartitionLog) (now : Int) (msg : Message) : PartitionLog × Int :=
  let written := (pl.roll K).active.write K now msg
  ({ pl.roll K with active := written.1 }, written.2)

/-! ## Reading -/

/-- The loop of `Read` over the segments, with room for that many more
messages. -/
def readSegments (K : Codecs) (startOffset : Int) :
    Int → List Segment → Except ReadError (List Message)
  | _, [] => .ok []
  | room, seg :: segs =>
    if seg.nextOffset ≤ startOffset then readSegments K startOffset room segs
    else
      match seg.read K startOffset room with
      | .error e => .error e
      | .ok batch =>
        if (batch.length : Int) ≥ room then .ok batch
        else (readSegments K startOffset (room - batch.length) segs).map (batch ++ ·)

def read (K : Codecs) (pl : PartitionLog) (startOffset maxCount : Int) :
    Except ReadError (List Message) :=
  readSegments K startOffset maxCount pl.segments

/-! ## Retention -/

def totalLogSize (pl : PartitionLog) : Int := (pl.segments.map fun s => (s.logSize : Int)).sum

/-- Whether `Compact` evicts a sealed segment.  The total size is that of all
segments of the log before the sweep. -/
def evicts (pl : PartitionLog) (sweep : Retention) (seg : Segment) : Bool :=
  match sweep.modTime seg.baseOffset with
  | none => false
  | some modTime =>
    let cutoffTime := sweep.now + wrap64 (-sweep.maxAgeHours * hourNs)
    let maxBytes := wrap64 (sweep.maxSizeMB * 1024 * 1024)
    let tooOld := sweep.maxAgeHours > 0 ∧ modTime < cutoffTime
    let tooBig := maxBytes > 0 ∧ pl.totalLogSize > maxBytes
    tooOld ∨ tooBig

/-- `Compact`: the log that is left, and the number of deleted segments. -/
def compact (pl : PartitionLog) (sweep : Retention) : PartitionLog × Nat :=
  let keep := pl.sealed.filter fun s => !pl.evicts sweep s
  ({ pl with sealed := keep }, pl.sealed.length - keep.length)

/-! ## The records of a log -/

def records (K : Codecs) (pl : PartitionLog) : List Record :=
  pl.segments.flatMap (Segment.records K)

/-- The offsets of a segment lie before the segments that follow it. -/
def Precedes (a b : Segment) : Prop := a.nextOffset ≤ b.baseOffset ∧ a.baseOffset < b.baseOffset

structure WellFormed (K : Codecs) (pl : PartitionLog) : Prop where
  clean : ∀ s ∈ pl.segments, s.Clean K (s.records K)
  ordered : pl.segments.Pairwise Precedes
  recovered : pl.active.nextOffset =
    Segment.lastOffset (pl.active.baseOffset - 1) (pl.active.records K) + 1
  limit : pl.active.maxBytes = pl.segMaxBytes
  room : (segFileHeaderSize : Int) < pl.segMaxBytes ∧ pl.segMaxBytes < 2 ^ 63

section Read

variable {K : Codecs}

theorem messagesFrom_append (start : Int) (rs rs' : List Record) :
    Segment.messagesFrom start (rs ++ rs') =
      Segment.messagesFrom start rs ++ Segment.messagesFrom start rs' := by
  simp [Segment.messagesFrom]

theorem messagesFrom_eq_nil {start : Int} {rs : List Record} (early : ∀ r ∈ rs, r.offset < start) :
    Segment.messagesFrom start rs = [] := by
  simp only [Segment.messagesFrom, map_eq_nil_iff, filter_eq_nil_iff,
    decide_eq_true_eq, not_le]
  exact early

theorem readSegments_eq (start : Int) :
    ∀ (room : Int) (segs : List Segment), (∀ s ∈ segs, s.Holds K (s.records K)) →
      readSegments K start room segs =
        .ok ((Segment.messagesFrom start (segs.flatMap (Segment.records K))).take room.toNat) := by
  intro room segs
  induction segs generalizing room with
  | nil => intro _; simp [readSegments, Segment.messagesFrom]
  | cons seg segs ih =>
    intro holds
    have here := holds seg (by simp)
    have later := fun room => ih room (fun s mem => holds s (by simp [mem]))
    rw [readSegments, flatMap_cons, messagesFrom_append]
    by_cases behind : seg.nextOffset ≤ start
    · have early : ∀ r ∈ seg.records K, r.offset < start := fun r mem =>
        lt_of_lt_of_le (here.range r mem).2 behind
      rw [if_pos behind, later, messagesFrom_eq_nil early, nil_append]
    · rw [if_neg behind, here.read_eq]
      simp only [length_take]
      split
      · grind
      · rename_i short
        rw [later, Except.map, take_append,
          take_of_length_le (by omega)]
        congr 3
        omega

end Read

section Invariant

variable {K : Codecs} {pl : PartitionLog}

theorem records_eq (K : Codecs) (pl : PartitionLog) :
    pl.records K = pl.sealed.flatMap (Segment.records K) ++ pl.active.records K := by
  simp [records, segments]

theorem WellFormed.active_clean (wf : pl.WellFormed K) :
    pl.active.Clean K (pl.active.records K) :=
  wf.clean pl.active (by simp [segments])

theorem WellFormed.precedes_active (wf : pl.WellFormed K) {s : Segment} (mem : s ∈ pl.sealed) :
    Precedes s pl.active :=
  (pairwise_append.mp wf.ordered).2.2 s mem pl.active (by simp)

theorem WellFormed.next_le (wf : pl.WellFormed K) {s : Segment} (mem : s ∈ pl.segments) :
    s.nextOffset ≤ pl.nextOffset := by
  cases mem_append.mp mem with
  | inl old =>
    have order := (wf.precedes_active old).1
    have base := wf.active_clean.base_le
    unfold nextOffset
    omega
  | inr active =>
    rw [mem_singleton.mp active]
    exact le_refl _

theorem WellFormed.records_lt (wf : pl.WellFormed K) {r : Record} (mem : r ∈ pl.records K) :
    r.offset < pl.nextOffset := by
  obtain ⟨s, segment, held⟩ := mem_flatMap.mp mem
  exact lt_of_lt_of_le ((wf.clean s segment).range r held).2 (wf.next_le segment)

theorem WellFormed.records_readable (wf : pl.WellFormed K) {r : Record}
    (mem : r ∈ pl.records K) : Readable K recordVersion r := by
  obtain ⟨s, segment, held⟩ := mem_flatMap.mp mem
  exact (wf.clean s segment).readable r held

/-- **The offsets of a log increase** from record to record, across segments. -/
theorem WellFormed.records_sorted (wf : pl.WellFormed K) :
    (pl.records K).Pairwise fun a b => a.offset < b.offset := by
  refine pairwise_flatMap.mpr ⟨fun s mem => (wf.clean s mem).sorted, ?_⟩
  refine Pairwise.imp_of_mem ?_ wf.ordered
  intro s t memS memT order r inS r' inT
  have high := ((wf.clean s memS).range r inS).2
  have low := ((wf.clean t memT).range r' inT).1
  have := order.1
  omega

theorem WellFormed.read_eq (wf : pl.WellFormed K) (start maxCount : Int) :
    pl.read K start maxCount =
      .ok ((Segment.messagesFrom start (pl.records K)).take maxCount.toNat) :=
  readSegments_eq start maxCount pl.segments fun s mem => (wf.clean s mem).holds

end Invariant

section Append

variable {K : Codecs} {pl : PartitionLog}

/-- A full segment holds a record, so its next offset is not its base offset. -/
theorem WellFormed.base_lt_of_full (wf : pl.WellFormed K) (full : pl.active.isFull = true) :
    pl.active.baseOffset < pl.active.nextOffset := by
  have clean := wf.active_clean
  have size : pl.segMaxBytes ≤ (pl.active.logSize : Int) := by
    have : pl.active.maxBytes ≤ (pl.active.logSize : Int) := by simpa [Segment.isFull] using full
    rwa [wf.limit] at this
  cases held : pl.active.records K with
  | nil =>
    have log := clean.log
    rw [held, frames_nil, append_nil] at log
    have := clean.logSize
    have := wf.room.1
    rw [log, segHeader_length] at *
    omega
  | cons r rs =>
    have := clean.range r (by rw [held]; simp)
    omega

theorem WellFormed.filesAt_next (wf : pl.WellFormed K) (full : pl.active.isFull = true) :
    pl.filesAt pl.active.nextOffset = ([], []) := by
  have rolled := wf.base_lt_of_full full
  have fresh : pl.segments.find? (fun s => s.baseOffset = pl.active.nextOffset) = none := by
    rw [find?_eq_none]
    intro s mem
    have below : s.baseOffset < pl.active.nextOffset := by
      cases mem_append.mp mem with
      | inl old =>
        have := (wf.precedes_active old).2
        omega
      | inr active => grind
    simp; omega
  simp [filesAt, fresh]

theorem WellFormed.roll (wf : pl.WellFormed K) :
    (pl.roll K).WellFormed K ∧ (pl.roll K).records K = pl.records K ∧
      (pl.roll K).nextOffset = pl.nextOffset ∧ ((pl.roll K).active.logSize : Int) < 2 ^ 63 := by
  unfold PartitionLog.roll
  split
  · rename_i full
    have rolled := wf.base_lt_of_full full
    rw [wf.filesAt_next full]
    have new := Segment.createSegment_new K pl.active.nextOffset pl.segMaxBytes pl.indexEvery
    have empty := new.holds.records_eq
    have small : ((segFileHeaderSize : Nat) : Int) < 2 ^ 63 := by decide
    refine ⟨⟨?_, ?_, ?_, rfl, wf.room⟩, ?_, rfl, small⟩
    · intro s mem
      cases mem_append.mp mem with
      | inl old => exact wf.clean s old
      | inr active => grind
    · refine pairwise_append.mpr ⟨wf.ordered, pairwise_singleton _ _, ?_⟩
      intro s mem t memT
      rw [mem_singleton.mp memT]
      refine ⟨wf.next_le mem, ?_⟩
      cases mem_append.mp mem with
      | inl old =>
        have := (wf.precedes_active old).2
        exact lt_trans this rolled
      | inr active =>
        rw [mem_singleton.mp active]
        exact rolled
    · rw [empty]
      show pl.active.nextOffset = pl.active.nextOffset - 1 + 1
      omega
    · rw [records_eq, empty, append_nil]
      rfl
  · rename_i notFull
    refine ⟨wf, rfl, rfl, ?_⟩
    have size : (pl.active.logSize : Int) < pl.active.maxBytes := by
      simpa [Segment.isFull] using notFull
    have := wf.room.2
    rw [wf.limit] at size
    omega

/-- **An append adds one record at the next offset.** -/
theorem WellFormed.append (wf : pl.WellFormed K) {now : Int} {m : Message}
    (writable : Writable K m) (now64 : IsInt64 now) (next64 : IsInt64 pl.nextOffset) :
    (pl.append K now m).1.WellFormed K ∧
      (pl.append K now m).1.records K =
        pl.records K ++ [recordOf K pl.nextOffset now m recordVersion] ∧
      (pl.append K now m).1.nextOffset = pl.nextOffset + 1 ∧
      (pl.append K now m).2 = pl.nextOffset := by
  obtain ⟨rolled, same, next, room⟩ := wf.roll
  rw [← next] at next64 ⊢
  rw [← same]
  have written := rolled.active_clean.write writable now64 next64 room
  have held := written.holds.records_eq
  refine ⟨⟨?_, ?_, ?_, rolled.limit, rolled.room⟩, ?_, rfl, rfl⟩
  · intro s mem
    cases mem_append.mp mem with
    | inl old => exact rolled.clean s (by simp [segments, show s ∈ (pl.roll K).sealed from old])
    | inr active =>
      rw [mem_singleton.mp active]
      exact held.symm ▸ written
  · have order := pairwise_append.mp rolled.ordered
    refine pairwise_append.mpr ⟨order.1, pairwise_singleton _ _, ?_⟩
    intro s mem t memT
    rw [mem_singleton.mp memT]
    exact rolled.precedes_active mem
  · show (pl.roll K).active.nextOffset + 1 = _
    rw [show ((pl.append K now m).1.active.records K) = _ from held, Segment.lastOffset_concat]
    rfl
  · rw [records_eq, records_eq K (pl.roll K), append_assoc, ← nextOffset] at *
    exact congrArg _ held

end Append

section Reopen

variable {K : Codecs} {pl : PartitionLog}

/-- What `OpenPartitionLog` makes of the files of a segment. -/
def reopened (K : Codecs) (pl : PartitionLog) (s : Segment) : Segment :=
  createSegment K s.baseOffset pl.segMaxBytes pl.indexEvery s.log s.index

theorem reopened_baseOffset (s : Segment) : (pl.reopened K s).baseOffset = s.baseOffset := by
  unfold reopened createSegment
  split <;> rfl

theorem reopen_eq (sorted : pl.segments.Pairwise fun a b => a.baseOffset < b.baseOffset) :
    pl.reopen K = ⟨pl.sealed.map (pl.reopened K), pl.reopened K pl.active, pl.segMaxBytes,
      pl.indexEvery⟩ := by
  have inOrder : (pl.segments.map (pl.reopened K)).Pairwise
      fun a b => a.baseOffset ≤ b.baseOffset := by
    refine pairwise_map.mpr (sorted.imp ?_)
    intro s t before
    rw [reopened_baseOffset, reopened_baseOffset]
    omega
  have opened : pl.files.map (fun f =>
      createSegment K f.baseOffset pl.segMaxBytes pl.indexEvery f.log f.index) =
      pl.segments.map (pl.reopened K) := by
    rw [files, map_map]
    rfl
  unfold reopen openPartitionLog
  rw [opened, inOrder.insertionSort_eq]
  simp [segments]

theorem reopen_segments (sorted : pl.segments.Pairwise fun a b => a.baseOffset < b.baseOffset) :
    (pl.reopen K).segments = pl.segments.map (pl.reopened K) := by
  rw [reopen_eq sorted]
  simp [segments]

/-- **Reopening changes nothing** a client of the log can see. -/
theorem WellFormed.reopen (wf : pl.WellFormed K) :
    (pl.reopen K).WellFormed K ∧ (pl.reopen K).records K = pl.records K ∧
      (pl.reopen K).nextOffset = pl.nextOffset ∧
      (pl.reopen K).active.baseOffset = pl.active.baseOffset := by
  have clean : ∀ s ∈ pl.segments, (pl.reopened K s).Clean K (s.records K) := fun s mem =>
    (wf.clean s mem).reopened pl.segMaxBytes pl.indexEvery
  have held : ∀ s ∈ pl.segments, (pl.reopened K s).records K = s.records K := fun s mem =>
    (clean s mem).holds.records_eq
  have fields : ∀ s ∈ pl.segments, (pl.reopened K s).baseOffset = s.baseOffset ∧
      (pl.reopened K s).nextOffset = Segment.lastOffset (s.baseOffset - 1) (s.records K) + 1 ∧
      (pl.reopened K s).maxBytes = pl.segMaxBytes := by
    intro s mem
    have eq := (wf.clean s mem).holds.createSegment_eq pl.segMaxBytes pl.indexEvery
    simp only [reopened, eq, and_self]
  have sorted := wf.ordered.imp fun order => order.2
  have opened := reopen_eq (K := K) sorted
  have segments_eq := reopen_segments (K := K) sorted
  have active : pl.active ∈ pl.segments := by simp [segments]
  refine ⟨⟨?_, ?_, ?_, ?_, ?_⟩, ?_, ?_, ?_⟩
  · rw [segments_eq]
    grind
  · -- a recovered next offset is at most the old one
    rw [segments_eq]
    refine pairwise_map.mpr (Pairwise.imp_of_mem ?_ wf.ordered)
    intro s t memS memT order
    have cleanS := wf.clean s memS
    have bound := (Segment.lastOffset_bounds cleanS.sorted cleanS.range cleanS.base_le).2.1
    obtain ⟨baseS, nextS, -⟩ := fields s memS
    obtain ⟨baseT, -, -⟩ := fields t memT
    refine ⟨?_, ?_⟩
    · rw [nextS, baseT]
      exact le_trans bound order.1
    · rw [baseS, baseT]
      exact order.2
  · simp [held, fields, opened, active]
  · simp [fields, opened, active]
  · rw [opened]
    exact wf.room
  · grind [records, flatMap_congr]
  · rw [opened]
    show (pl.reopened K pl.active).nextOffset = _
    rw [(fields _ active).2.1, nextOffset, wf.recovered]
  · simp [fields, opened, active]

theorem openPartitionLog_nil {segMaxBytes : Int} (indexEvery : Int)
    (limit : (segFileHeaderSize : Int) < segMaxBytes) (fits : segMaxBytes < 2 ^ 63) :
    (openPartitionLog K segMaxBytes indexEvery []).WellFormed K ∧
      (openPartitionLog K segMaxBytes indexEvery []).records K = [] := by
  have new := Segment.createSegment_new K 0 segMaxBytes indexEvery
  have empty := new.holds.records_eq
  have opened : openPartitionLog K segMaxBytes indexEvery [] =
      ⟨[], createSegment K 0 segMaxBytes indexEvery [] [], segMaxBytes, indexEvery⟩ := by
    simp [openPartitionLog]
  rw [opened]
  refine ⟨⟨?_, ?_, ?_, rfl, limit, fits⟩, ?_⟩
  · intro s mem
    rw [mem_singleton.mp mem, empty]
    exact new
  · exact pairwise_singleton _ _
  · rw [empty]
    rfl
  · rw [records_eq, empty]
    rfl

end Reopen

section Compact

variable {K : Codecs} {pl : PartitionLog}

/-- **Retention only removes records**, and none of the active segment. -/
theorem WellFormed.compact (wf : pl.WellFormed K) (sweep : Retention) :
    (pl.compact sweep).1.WellFormed K ∧
      ((pl.compact sweep).1.records K).Sublist (pl.records K) ∧
      (pl.compact sweep).1.active = pl.active := by
  have fewer : (pl.compact sweep).1.segments.Sublist pl.segments :=
    Sublist.append_right filter_sublist [pl.active]
  refine ⟨⟨?_, ?_, wf.recovered, wf.limit, wf.room⟩, ?_, rfl⟩
  · grind [clean]
  · exact wf.ordered.sublist fewer
  · exact fewer.flatMap _

end Compact

/-! ## Logs without holes -/

section Dense

variable {K : Codecs} {pl : PartitionLog} {msgs : List Message}

def Consecutive (first : Int) : List Record → Prop
  | [] => True
  | r :: rs => r.offset = first ∧ Consecutive (first + 1) rs

theorem Consecutive.concat {rs : List Record} :
    ∀ {first : Int}, Consecutive first rs → ∀ {r : Record}, r.offset = first + rs.length →
      Consecutive first (rs ++ [r]) := by
  induction rs with
  | nil =>
    intro first _ r last
    exact ⟨by simpa using last, trivial⟩
  | cons r₀ rs ih =>
    intro first consecutive r last
    refine ⟨consecutive.1, ih consecutive.2 ?_⟩
    simp [last]; omega

theorem Consecutive.le {rs : List Record} :
    ∀ {first : Int}, Consecutive first rs → ∀ r ∈ rs, first ≤ r.offset := by
  induction rs with
  | nil => intro first _ r mem; cases mem
  | cons r₀ rs ih =>
    intro first consecutive r mem
    cases mem with
    | head => exact consecutive.1.symm.le
    | tail _ later =>
      have := ih consecutive.2 r later
      omega

/-- A log from which nothing was removed: it holds `msgs` at the offsets 0, 1 and
so on. -/
structure Dense (K : Codecs) (pl : PartitionLog) (msgs : List Message) : Prop where
  wellFormed : pl.WellFormed K
  messages : (pl.records K).map Record.msg = msgs
  consecutive : Consecutive 0 (pl.records K)
  next : pl.nextOffset = msgs.length
  offset : ∀ (n : Nat) (m : Message), msgs[n]? = some m → m.offset = n

theorem Dense.read (dense : Dense K pl msgs) : pl.read K 0 pl.nextOffset = .ok msgs := by
  have all : Segment.messagesFrom 0 (pl.records K) = msgs := by
    have kept : (pl.records K).filter (fun r => 0 ≤ r.offset) = pl.records K :=
      filter_eq_self.mpr fun r mem => by simpa using dense.consecutive.le r mem
    rw [Segment.messagesFrom, kept, dense.messages]
  rw [dense.wellFormed.read_eq, all, dense.next, Int.toNat_natCast, take_length]

theorem Dense.append (dense : Dense K pl msgs) {now : Int} {m : Message}
    (writable : Writable K m) (now64 : IsInt64 now) (next64 : IsInt64 pl.nextOffset) :
    Dense K (pl.append K now m).1 (msgs ++ [m.setOffset msgs.length]) ∧
      (pl.append K now m).2 = msgs.length := by
  obtain ⟨wf, records, next, offset⟩ := dense.wellFormed.append writable now64 next64
  have length : (pl.records K).length = msgs.length := by
    rw [← dense.messages, length_map]
  refine ⟨⟨wf, ?_, ?_, ?_, ?_⟩, offset.trans dense.next⟩
  · rw [records, map_append, dense.messages, dense.next]
    rfl
  · rw [records]
    refine dense.consecutive.concat ?_
    show pl.nextOffset = _
    rw [dense.next, length, zero_add]
  · grind [next]
  · intro n m' held
    rw [getElem?_append] at held
    split at held
    · exact dense.offset n m' held
    · rw [getElem?_singleton] at held
      split at held
      · cases held
        show (msgs.length : Int) = n
        omega
      · cases held

theorem Dense.reopen (dense : Dense K pl msgs) : Dense K (pl.reopen K) msgs := by
  obtain ⟨wf, records, next, -⟩ := dense.wellFormed.reopen
  exact ⟨wf, records ▸ dense.messages, records ▸ dense.consecutive, next.trans dense.next,
    dense.offset⟩

theorem Dense.nil {segMaxBytes : Int} (indexEvery : Int)
    (limit : (segFileHeaderSize : Int) < segMaxBytes) (fits : segMaxBytes < 2 ^ 63) :
    Dense K (openPartitionLog K segMaxBytes indexEvery []) [] := by
  obtain ⟨wf, none⟩ := openPartitionLog_nil (K := K) indexEvery limit fits
  refine ⟨wf, by rw [none]; rfl, by rw [none]; trivial, ?_, by simp⟩
  simp [openPartitionLog, nextOffset, createSegment]

end Dense

end PartitionLog

end PubsubBroker.Storage
