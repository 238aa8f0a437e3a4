/-
# Storage.Segment — one log file and its sparse index

`internal/storage/segment.go`.  A segment is a `.log` file of records behind a
five-byte file header, and an `.index` file of sixteen-byte entries
`offset (8) | position (8)`, one for the record that crosses each interval of
`indexEvery` bytes.  The files' contents are fields of the model, so closing a
segment loses exactly the other fields and `createSegment` has to recover them.

`Segment.Holds s rs` says which records a segment's files hold for a reader: the
log is the header, the records, and possibly a tail that no read accepts; every
index entry points at the start of a record.  `Segment.Clean` is the same
without a torn tail in either file, which is what appending needs.  The three
specifications are `Holds.read_eq`, `Clean.write` and `Holds.createSegment`.
-/
import PubsubBroker.Storage.Record

namespace PubsubBroker.Storage

open Theory List

def segMagic : Bytes := [0x50, 0x53, 0x47, 0x32]

def segFileHeaderSize : Nat := 5

/-- The header written at the start of a version-2 segment file. -/
def segHeader : Bytes := segMagic ++ [recordVersion]

@[simp] theorem segHeader_length : segHeader.length = segFileHeaderSize := rfl

/-- What a segment file of that version starts with: version-1 files have no
header. -/
def fileHeader (version : UInt8) : Bytes := if version ≥ recordVersion then segHeader else []

structure Segment where
  baseOffset : Int
  nextOffset : Int
  log : Bytes
  index : Bytes
  logSize : Nat
  maxBytes : Int
  indexEvery : Int
  byteSinceIndex : Nat
  version : UInt8
  dataStart : Nat
  /-- Records begin behind the file header. -/
  laidOut : dataStart = (fileHeader version).length
deriving DecidableEq

namespace Segment

/-! ## Opening -/

/-- The records a scan of the log file finds, from `dataStart` to the first
error. -/
def records (K : Codecs) (s : Segment) : List Record :=
  (scan (readRecord K s.version) (s.log.drop s.dataStart)).1

/-- The offset of the last record of a scan, or the given start value. -/
def lastOffset (start : Int) (rs : List Record) : Int :=
  rs.foldl (fun _ r => r.offset) start

def recoverNextOffset (K : Codecs) (s : Segment) : Segment :=
  { s with nextOffset := lastOffset (s.baseOffset - 1) (s.records K) + 1 }

end Segment

/-- `createSegment` on files with the given contents; a new file is empty. -/
def createSegment (K : Codecs) (baseOffset maxBytes indexEvery : Int) (log index : Bytes) :
    Segment :=
  if log.length = 0 then
    { baseOffset := baseOffset, nextOffset := baseOffset, log := log ++ segHeader, index := index,
      logSize := segFileHeaderSize, maxBytes := maxBytes, indexEvery := indexEvery,
      byteSinceIndex := 0, version := recordVersion, dataStart := segFileHeaderSize,
      laidOut := rfl }
  else
    let current : Bool := log.length ≥ segFileHeaderSize ∧ log.take segFileHeaderSize = segHeader
    Segment.recoverNextOffset K
      { baseOffset := baseOffset, nextOffset := baseOffset, log := log, index := index,
        logSize := log.length, maxBytes := maxBytes, indexEvery := indexEvery,
        byteSinceIndex := 0, version := if current then recordVersion else 1,
        dataStart := if current then segFileHeaderSize else 0,
        laidOut := by cases current <;> rfl }

namespace Segment

/-! ## Writing -/

def indexEntryBytes (e : Int × Int) : Bytes := leBytes 8 (uint64 e.1) ++ leBytes 8 (uint64 e.2)

/-- Whether a record of `size` bytes gets an index entry: `indexEvery` bytes have
passed since the last one. -/
def indexDue (s : Segment) (size : Nat) : Bool :=
  ((s.byteSinceIndex + size : Nat) : Int) ≥ s.indexEvery

/-- `Write` at the clock reading `now`: the record goes to the log, and its
position to the index when an entry is due. -/
def write (K : Codecs) (s : Segment) (now : Int) (msg : Message) : Segment × Int :=
  let offset := s.nextOffset
  let bytes := encodeRecord K offset now (msg.setOffset offset) s.version
  let due := s.indexDue bytes.length
  ({ s with
      log := s.log ++ bytes
      logSize := s.logSize + bytes.length
      nextOffset := s.nextOffset + 1
      index := if due then s.index ++ indexEntryBytes (offset, s.logSize) else s.index
      byteSinceIndex := if due then 0 else s.byteSinceIndex + bytes.length }, offset)

def isFull (s : Segment) : Bool := (s.logSize : Int) ≥ s.maxBytes

/-! ## Reading -/

/-- One iteration of the index walk: sixteen bytes, or nothing. -/
def readIndexEntry (input : Bytes) : Except Unit ((Int × Int) × Bytes) :=
  match readFull 16 input with
  | none => .error ()
  | some (e, rest) => .ok ((int64 (leNat (e.take 8)), int64 (leNat ((e.drop 8).take 8))), rest)

/-- The walk over the index entries: the position of the last entry before the
first one that lies behind `startOffset`. -/
def bestPos (startOffset : Int) : Int → List (Int × Int) → Int
  | best, [] => best
  | best, (idxOff, filePos) :: es =>
    if idxOff ≤ startOffset then bestPos startOffset filePos es else best

def findPosition (s : Segment) (startOffset : Int) : Int :=
  bestPos startOffset s.dataStart (scan readIndexEntry s.index).1

/-- The loop of `Read`, with room for that many more messages. -/
def readLoop (K : Codecs) (version : UInt8) (startOffset : Int) :
    Nat → Nat → Bytes → Except ReadError (List Message)
  | 0, _, _ => .ok []
  | _ + 1, 0, _ => .ok []
  | fuel + 1, room + 1, input =>
    match decodeRecord K version input with
    | .error e => if e.isEnd then .ok [] else .error e
    | .ok ((msg, offset), rest) =>
      if offset < startOffset then readLoop K version startOffset fuel (room + 1) rest
      else (readLoop K version startOffset fuel room rest).map (msg :: ·)

/-- `Read`. -/
def read (K : Codecs) (s : Segment) (startOffset maxCount : Int) :
    Except ReadError (List Message) :=
  let pos := s.findPosition startOffset
  if pos < 0 then .error .seek
  else
    let input := s.log.drop pos.toNat
    readLoop K s.version startOffset (input.length + 1) maxCount.toNat input

/-! ## The index walk -/

theorem readIndexEntry_progress : Progress readIndexEntry := by
  intro input e rest read
  unfold readIndexEntry at read
  split at read
  · cases read
  · rename_i entry tail entryRead
    obtain ⟨rfl, length⟩ := readFull_eq_some entryRead
    grind

theorem indexEntryBytes_length (e : Int × Int) : (indexEntryBytes e).length = 16 := by
  simp [indexEntryBytes]

theorem readIndexEntry_delimits :
    Delimits readIndexEntry indexEntryBytes (fun e => IsInt64 e.1 ∧ IsInt64 e.2) := by
  rintro e rest ⟨first, second⟩
  have front : (indexEntryBytes e).take 8 = leBytes 8 (uint64 e.1) := take_leBytes 8 _ _
  have back : ((indexEntryBytes e).drop 8).take 8 = leBytes 8 (uint64 e.2) := by
    simp [indexEntryBytes, take_of_length_le]
  unfold readIndexEntry
  rw [readFull_append_of_length (indexEntryBytes_length e)]
  simp only [front, back, int64_leNat_leBytes first.1 first.2,
    int64_leNat_leBytes second.1 second.2]

theorem readIndexEntry_short {tail : Bytes} (short : tail.length < 16) :
    readIndexEntry tail = .error () := by
  simp [readIndexEntry, readFull_short short]

/-- The walk returns the start value or the position of an entry at or before
`startOffset`. -/
theorem bestPos_cases (startOffset best : Int) (es : List (Int × Int)) :
    bestPos startOffset best es = best ∨
      ∃ e ∈ es, e.1 ≤ startOffset ∧ bestPos startOffset best es = e.2 := by
  induction es generalizing best with
  | nil => exact .inl rfl
  | cons e es ih => grind [bestPos]

/-! ## What a segment holds -/

theorem dataStart_eq {s : Segment} (version : s.version = recordVersion) :
    s.dataStart = segFileHeaderSize := by
  rw [s.laidOut, version]
  rfl

/-- Every index entry is the offset and the byte position of a record, and the
entries are in offset order. -/
structure Indexed (rs : List Record) (es : List (Int × Int)) : Prop where
  sorted : es.Pairwise fun a b => a.1 < b.1
  points : ∀ e ∈ es, ∃ before r after, rs = before ++ r :: after ∧ e.1 = r.offset ∧
    e.2 = ((segFileHeaderSize + (frames Record.raw before).length : Nat) : Int)
  fits : ∀ e ∈ es, IsInt64 e.1 ∧ IsInt64 e.2

/-- The records `rs` are what a reader of the segment's files finds: behind them
the log may have a tail at which every read ends, and the index a part of an
entry. -/
structure Holds (K : Codecs) (s : Segment) (rs : List Record) : Prop where
  version : s.version = recordVersion
  log : ∃ tail e, s.log = segHeader ++ (frames Record.raw rs ++ tail) ∧
    readRecord K recordVersion tail = .error e ∧ e.isEnd = true
  index : ∃ es tail, s.index = frames indexEntryBytes es ++ tail ∧ tail.length < 16 ∧
    Indexed rs es
  readable : ∀ r ∈ rs, Readable K recordVersion r
  sorted : rs.Pairwise fun a b => a.offset < b.offset
  range : ∀ r ∈ rs, s.baseOffset ≤ r.offset ∧ r.offset < s.nextOffset
  base_le : s.baseOffset ≤ s.nextOffset

/-- Every record starts at a position that a signed 64-bit number can hold. -/
def Addressable (rs : List Record) : Prop :=
  ∀ before r after, rs = before ++ r :: after →
    IsInt64 ((segFileHeaderSize + (frames Record.raw before).length : Nat) : Int)

/-- A segment whose files hold exactly the records `rs`, with nothing behind
them. -/
structure Clean (K : Codecs) (s : Segment) (rs : List Record) : Prop where
  version : s.version = recordVersion
  log : s.log = segHeader ++ frames Record.raw rs
  logSize : s.logSize = s.log.length
  index : ∃ es, s.index = frames indexEntryBytes es ∧ Indexed rs es
  addressable : Addressable rs
  readable : ∀ r ∈ rs, Readable K recordVersion r
  sorted : rs.Pairwise fun a b => a.offset < b.offset
  range : ∀ r ∈ rs, s.baseOffset ≤ r.offset ∧ r.offset < s.nextOffset
  base_le : s.baseOffset ≤ s.nextOffset

theorem readRecord_nil (K : Codecs) (version : UInt8) : readRecord K version [] = .error .eof := by
  have short : ([] : Bytes).length < recHeaderSize version := by
    have := recHeaderSize_pos version
    simp only [length_nil]
    omega
  simp [readRecord, readFull_short short, shortRead]

theorem Clean.holds {K : Codecs} {s : Segment} {rs : List Record} (clean : s.Clean K rs) :
    s.Holds K rs where
  version := clean.version
  log := ⟨[], .eof, by rw [clean.log, append_nil], readRecord_nil K _, rfl⟩
  index := by
    obtain ⟨es, eq, indexed⟩ := clean.index
    exact ⟨es, [], by rw [eq, append_nil], by simp, indexed⟩
  readable := clean.readable
  sorted := clean.sorted
  range := clean.range
  base_le := clean.base_le

section Reading

variable {K : Codecs} {s : Segment} {rs : List Record}

/-- The messages of the records at or behind `start`. -/
def messagesFrom (start : Int) (rs : List Record) : List Message :=
  (rs.filter fun r => start ≤ r.offset).map Record.msg

theorem readLoop_frames {version : UInt8} {start : Int} {tail : Bytes} {e : ReadError}
    (refused : readRecord K version tail = .error e) (isEnd : e.isEnd = true) :
    ∀ (fuel room : Nat) (rs : List Record), (∀ r ∈ rs, Readable K version r) →
      (frames Record.raw rs ++ tail).length < fuel →
      readLoop K version start fuel room (frames Record.raw rs ++ tail) =
        .ok ((messagesFrom start rs).take room) := by
  intro fuel
  induction fuel with
  | zero => intro room rs _ short; omega
  | succ fuel ih =>
    intro room rs readable short
    cases room with
    | zero => simp [readLoop]
    | succ room =>
      cases rs with
      | nil => simp [readLoop, decodeRecord, refused, isEnd, messagesFrom, Except.map]
      | cons r rs =>
        have here := readable r (by simp)
        have positive := here.length_pos
        simp only [frames_cons, append_assoc, length_append] at short ⊢
        have later := fun room => ih room rs (fun r' mem => readable r' (by simp [mem]))
          (by simp only [length_append]; omega)
        rw [readLoop, decodeRecord, here]
        simp only [Except.map]
        by_cases before : r.offset < start
        · rw [if_pos before, later]
          simp [messagesFrom, show ¬ start ≤ r.offset by omega]
        · rw [if_neg before, later]
          simp [messagesFrom, show start ≤ r.offset by omega]

/-- The index walk lands on a record boundary, behind records that all lie
before `start`. -/
theorem Holds.findPosition_cases (holds : s.Holds K rs) (start : Int) :
    ∃ before after, rs = before ++ after ∧ (∀ r ∈ before, r.offset < start) ∧
      s.findPosition start =
        ((segFileHeaderSize + (frames Record.raw before).length : Nat) : Int) := by
  obtain ⟨es, tail, eq, short, indexed⟩ := holds.index
  have walked : (scan readIndexEntry s.index).1 = es := by
    rw [eq, scan_torn readIndexEntry_progress readIndexEntry_delimits
      (readIndexEntry_short short) es indexed.fits]
  unfold findPosition
  rw [walked, dataStart_eq holds.version]
  cases bestPos_cases start (segFileHeaderSize : Int) es with
  | inl start => exact ⟨[], rs, rfl, by simp, by simpa using start⟩
  | inr found =>
    obtain ⟨e, mem, le, pos⟩ := found
    obtain ⟨before, r, after, rfl, offset, position⟩ := indexed.points e mem
    refine ⟨before, r :: after, rfl, ?_, by rw [pos, position]⟩
    intro r' mem'
    have := (pairwise_append.mp holds.sorted).2.2 r' mem' r (by simp)
    omega

/-- **A segment read returns the retained records.**  It returns the first
`maxCount` of the messages at or behind `start`, wherever the index sends it. -/
theorem Holds.read_eq (holds : s.Holds K rs) (start maxCount : Int) :
    s.read K start maxCount = .ok ((messagesFrom start rs).take maxCount.toNat) := by
  obtain ⟨before, after, rfl, early, position⟩ := holds.findPosition_cases start
  obtain ⟨tail, e, log, refused, isEnd⟩ := holds.log
  have skipped : messagesFrom start (before ++ after) = messagesFrom start after := by
    have none : before.filter (fun r => decide (start ≤ r.offset)) = [] := by
      simp only [filter_eq_nil_iff, decide_eq_true_eq, not_le]
      exact early
    simp [messagesFrom, none]
  have input : s.log.drop (segFileHeaderSize + (frames Record.raw before).length) =
      frames Record.raw after ++ tail := by
    rw [log, ← drop_drop, ← segHeader_length, drop_left, frames_append,
      append_assoc, drop_left]
  unfold read
  rw [position]
  simp only [Int.toNat_natCast, input, holds.version]
  rw [if_neg (by omega), skipped]
  exact readLoop_frames refused isEnd _ _ after (fun r mem => holds.readable r (by simp [mem]))
    (Nat.lt_succ_self _)

end Reading

section Writing

variable {K : Codecs} {s : Segment} {rs : List Record}

@[simp] theorem write_baseOffset (now : Int) (msg : Message) :
    (s.write K now msg).1.baseOffset = s.baseOffset := rfl

@[simp] theorem write_nextOffset (now : Int) (msg : Message) :
    (s.write K now msg).1.nextOffset = s.nextOffset + 1 := rfl

theorem Indexed.append {es : List (Int × Int)} (indexed : Indexed rs es) (more : List Record) :
    Indexed (rs ++ more) es where
  sorted := indexed.sorted
  points := by
    grind [points]
  fits := indexed.fits

theorem Indexed.offset_mem {es : List (Int × Int)} (indexed : Indexed rs es) {e : Int × Int}
    (mem : e ∈ es) : ∃ r ∈ rs, e.1 = r.offset := by
  obtain ⟨before, r, after, rfl, offset, -⟩ := indexed.points e mem
  exact ⟨r, by simp, offset⟩

theorem Indexed.concat {es : List (Int × Int)} (indexed : Indexed rs es) {r : Record} {e : Int × Int}
    (last : ∀ r' ∈ rs, r'.offset < r.offset) (offset : e.1 = r.offset)
    (position : e.2 = ((segFileHeaderSize + (frames Record.raw rs).length : Nat) : Int))
    (fits : IsInt64 e.1 ∧ IsInt64 e.2) : Indexed (rs ++ [r]) (es ++ [e]) where
  sorted := by
    grind [sorted, offset_mem]
  points := by
    intro e' mem'
    grind [points]
  fits := by
    intro e' mem'
    grind [fits]

theorem Addressable.concat (addressable : Addressable rs)
    (size : IsInt64 ((segFileHeaderSize + (frames Record.raw rs).length : Nat) : Int)) (r : Record) :
    Addressable (rs ++ [r]) := by
  intro before r' after split
  rcases eq_nil_or_concat' after with rfl | ⟨init, last, rfl⟩
  · rwa [(append_inj_left' split rfl).symm]
  · have longer : rs ++ [r] = (before ++ r' :: init) ++ [last] := by simpa using split
    exact addressable before r' init (append_inj_left' longer rfl)

/-- **A write adds one record.**  It goes behind the records the segment holds,
at `nextOffset`. -/
theorem Clean.write (clean : s.Clean K rs) {now : Int} {m : Message} (writable : Writable K m)
    (now64 : IsInt64 now) (next64 : IsInt64 s.nextOffset) (size64 : (s.logSize : Int) < 2 ^ 63) :
    (s.write K now m).1.Clean K (rs ++ [recordOf K s.nextOffset now m recordVersion]) := by
  have readable := encodeRecord_readable writable next64 now64 recordVersion
  have size : s.logSize = segFileHeaderSize + (frames Record.raw rs).length := by
    grind [logSize, log, segHeader_length]
  have last : ∀ r ∈ rs, r.offset < s.nextOffset := fun r mem => (clean.range r mem).2
  obtain ⟨es, index, indexed⟩ := clean.index
  have fits : IsInt64 (s.logSize : Int) := ⟨by omega, size64⟩
  refine ⟨clean.version, ?_, ?_, ?_, clean.addressable.concat (size ▸ fits) _,
    ?_, ?_, ?_, ?_⟩
  · simp [Segment.write, clean.log, clean.version, recordOf]
  · simp [Segment.write, clean.logSize]
  · simp only [Segment.write]
    split
    · refine ⟨es ++ [(s.nextOffset, (s.logSize : Int))], by simp [index], ?_⟩
      exact indexed.concat last rfl (by rw [size]) ⟨next64, fits⟩
    · exact ⟨es, index, indexed.append _⟩
  · grind [readable]
  · refine pairwise_append.mpr ⟨clean.sorted, pairwise_singleton _ _, ?_⟩
    intro r mem r' mem'
    rw [mem_singleton.mp mem']
    exact last r mem
  · intro r mem
    rw [write_baseOffset, write_nextOffset]
    have base := clean.base_le
    cases mem_append.mp mem with
    | inl old =>
      have := clean.range r old
      omega
    | inr new => grind [recordOf]
  · rw [write_baseOffset, write_nextOffset]
    have := clean.base_le
    omega

end Writing

section Opening

variable {K : Codecs} {s : Segment} {rs : List Record}

@[simp] theorem lastOffset_nil (start : Int) : lastOffset start [] = start := rfl

@[simp] theorem lastOffset_concat (start : Int) (rs : List Record) (r : Record) :
    lastOffset start (rs ++ [r]) = r.offset := by
  simp [lastOffset]

/-- The recovered next offset lies behind every record and not behind the one
the segment had. -/
theorem lastOffset_bounds {base next : Int} (sorted : rs.Pairwise fun a b => a.offset < b.offset)
    (range : ∀ r ∈ rs, base ≤ r.offset ∧ r.offset < next) (base_le : base ≤ next) :
    base ≤ lastOffset (base - 1) rs + 1 ∧ lastOffset (base - 1) rs + 1 ≤ next ∧
      ∀ r ∈ rs, r.offset < lastOffset (base - 1) rs + 1 := by
  rcases eq_nil_or_concat' rs with rfl | ⟨init, last, rfl⟩
  · simp [base_le]
  · grind [lastOffset_concat]

theorem Holds.records_eq (holds : s.Holds K rs) : s.records K = rs := by
  obtain ⟨tail, e, log, refused, -⟩ := holds.log
  unfold records
  rw [dataStart_eq holds.version, holds.version, log, ← segHeader_length, drop_left,
    scan_torn (readRecord_progress K _) (readable_delimits K _) refused rs holds.readable]

/-- **Reopening a segment's files** finds its records again and recovers the next
offset from the last of them. -/
theorem Holds.createSegment_eq (holds : s.Holds K rs) (maxBytes indexEvery : Int) :
    createSegment K s.baseOffset maxBytes indexEvery s.log s.index =
      { s with
        nextOffset := lastOffset (s.baseOffset - 1) rs + 1, logSize := s.log.length,
        maxBytes := maxBytes, indexEvery := indexEvery, byteSinceIndex := 0 } := by
  have scanned := holds.records_eq
  obtain ⟨tail, e, log, -, -⟩ := holds.log
  have long : segFileHeaderSize ≤ s.log.length := by simp [log]
  have front : s.log.take segFileHeaderSize = segHeader := by
    rw [log, ← segHeader_length, take_left]
  have nonempty : ¬ s.log.length = 0 := by simp [segFileHeaderSize, log]
  unfold createSegment
  rw [if_neg nonempty]
  simp only [front, long, and_self, decide_true, if_true, recoverNextOffset]
  unfold records at scanned ⊢
  rw [dataStart_eq holds.version, holds.version] at scanned
  simp only [scanned, holds.version, dataStart_eq holds.version]

/-- The fields reopening changes are those that are not in the files. -/
theorem Holds.reopened (holds : s.Holds K rs) (maxBytes indexEvery : Int) :
    (createSegment K s.baseOffset maxBytes indexEvery s.log s.index).Holds K rs := by
  obtain ⟨low, -, behind⟩ := lastOffset_bounds holds.sorted holds.range holds.base_le
  rw [holds.createSegment_eq]
  exact ⟨holds.version, holds.log, holds.index, holds.readable, holds.sorted,
    fun r mem => ⟨(holds.range r mem).1, behind r mem⟩, low⟩

theorem Clean.reopened (clean : s.Clean K rs) (maxBytes indexEvery : Int) :
    (createSegment K s.baseOffset maxBytes indexEvery s.log s.index).Clean K rs := by
  obtain ⟨low, -, behind⟩ := lastOffset_bounds clean.sorted clean.range clean.base_le
  rw [clean.holds.createSegment_eq]
  exact ⟨clean.version, clean.log, rfl, clean.index, clean.addressable,
    clean.readable, clean.sorted,
    fun r mem => ⟨(clean.range r mem).1, behind r mem⟩, low⟩

theorem createSegment_new (K : Codecs) (baseOffset maxBytes indexEvery : Int) :
    (createSegment K baseOffset maxBytes indexEvery [] []).Clean K [] := by
  refine ⟨rfl, rfl, rfl, ⟨[], rfl, ?_⟩, by simp [Addressable], by simp, Pairwise.nil,
    by simp, ?_⟩
  · exact ⟨Pairwise.nil, by simp, by simp⟩
  · exact le_refl baseOffset

end Opening

end Segment

end PubsubBroker.Storage
