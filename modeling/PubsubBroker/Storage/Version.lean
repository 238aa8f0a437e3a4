/-
# Storage.Version — which version `createSegment` takes a file for

A file of version 2 starts with five bytes of magic and version, one of version 1 with the
little-endian offset of its first record.  `createSegment` writes the header into an empty file and
otherwise compares the first five bytes, so a crash that leaves a part of the header makes a new
file one of version 1 with a few bytes in front of its records, and a version-1 file is taken for
version 2 when the low bytes of its first offset are those of the header.

In every other case, and in no other, the file is laid out as the segment takes it to be
(`version_detected_iff`), and everything that is appended is found by a scan.
-/
import PubsubBroker.Storage.Refinement

namespace PubsubBroker.Storage

open Theory List

/-- What may be in a log file when it is opened: records of one of the versions, or the part of
the header that a crash in its creation has left. -/
inductive Leftover (K : Codecs) where
  | written (version : UInt8) (rs : List Record) (known : version = 1 ∨ version = recordVersion)
    (readable : ∀ r ∈ rs, Readable K version r)
  | torn (k : Nat)

namespace Leftover

variable {K : Codecs}

def log : Leftover K → Bytes
  | .written version rs _ _ => fileHeader version ++ frames Record.raw rs
  | .torn k => segHeader.take k

def records : Leftover K → List Record
  | .written _ rs _ _ => rs
  | .torn _ => []

/-- Nothing or all of a header is there, and no version-1 file starts like one. -/
def Clear : Leftover K → Prop
  | .written version rs _ _ =>
    version = 1 → ∀ r ∈ rs.head?, r.raw.take segFileHeaderSize ≠ segHeader
  | .torn k => k = 0 ∨ segFileHeaderSize ≤ k

end Leftover

/-- The segment has the version and the data start with which the records in its file were
written. -/
structure Segment.Detected (K : Codecs) (s : Segment) (rs : List Record) : Prop where
  laid : s.log = fileHeader s.version ++ frames Record.raw rs
  readable : ∀ r ∈ rs, Readable K s.version r

/-- The messages appended one after the other, and their records. -/
def Segment.writeAll (K : Codecs) : Segment → List (Int × Message) → Segment × List Record
  | s, [] => (s, [])
  | s, (now, m) :: appends =>
    let (last, rs) := writeAll K (s.write K now m).1 appends
    (last, recordOf K s.nextOffset now m s.version :: rs)

section

variable {K : Codecs} {s : Segment} {rs : List Record}

theorem Segment.Detected.records_eq (detected : s.Detected K rs) : s.records K = rs := by
  have all := scan_torn (readRecord_progress K s.version) (readable_delimits K s.version)
    (Segment.readRecord_nil K s.version) rs detected.readable
  rw [append_nil] at all
  rw [Segment.records, s.laidOut, detected.laid, drop_left, all]

theorem Segment.Detected.writeAll {appends : List (Int × Message)} (detected : s.Detected K rs)
    (low : -2 ^ 63 ≤ s.nextOffset) (high : s.nextOffset + appends.length ≤ 2 ^ 63)
    (writable : ∀ a ∈ appends, IsInt64 a.1 ∧ Writable K a.2) :
    (s.writeAll K appends).1.Detected K (rs ++ (s.writeAll K appends).2) := by
  induction appends generalizing s rs with
  | nil => simpa [Segment.writeAll] using detected
  | cons a appends ih =>
    obtain ⟨⟨now64, message⟩, rest⟩ := forall_mem_cons.mp writable
    rw [length_cons] at high
    have readable := encodeRecord_readable message ⟨low, by omega⟩ now64 s.version
    have first : (s.write K a.1 a.2).1.Detected K
        (rs ++ [recordOf K s.nextOffset a.1 a.2 s.version]) := by
      refine ⟨?_, ?_⟩
      · simp [Segment.write, detected.laid, recordOf]
      · simpa [or_imp, forall_and] using ⟨detected.readable, readable⟩
    have later := ih first (by simp; omega) (by simp; omega) rest
    rw [append_assoc] at later
    exact later

end

section

variable (K : Codecs) (baseOffset maxBytes indexEvery : Int) (index : Bytes)

/-- Any file that is not empty keeps its bytes, and its first five decide the version. -/
theorem detected_of_ne_nil {log : Bytes} {rs : List Record} (some : log ≠ []) :
    (createSegment K baseOffset maxBytes indexEvery log index).Detected K rs ↔
      let version := if log.take segFileHeaderSize = segHeader then recordVersion else 1
      log = fileHeader version ++ frames Record.raw rs ∧ ∀ r ∈ rs, Readable K version r := by
  have long : log.take segFileHeaderSize = segHeader → segFileHeaderSize ≤ log.length := by
    intro front
    have := congrArg length front
    rw [length_take, segHeader_length] at this
    omega
  have taken : (createSegment K baseOffset maxBytes indexEvery log index).log = log ∧
      (createSegment K baseOffset maxBytes indexEvery log index).version =
        if log.take segFileHeaderSize = segHeader then recordVersion else 1 := by
    rw [createSegment, if_neg (by simpa using some)]
    refine ⟨rfl, ?_⟩
    simp only [Segment.recoverNextOffset, ge_iff_le, decide_eq_true_eq]
    congr 1
    exact propext ⟨fun both => both.2, fun front => ⟨long front, front⟩⟩
  constructor
  · rintro ⟨laid, readable⟩
    rw [taken.1, taken.2] at laid
    rw [taken.2] at readable
    exact ⟨laid, readable⟩
  · rintro ⟨laid, readable⟩
    exact ⟨by rw [taken.1, taken.2]; exact laid, by rw [taken.2]; exact readable⟩

/-- A file with a whole header. -/
theorem detected_current {rs : List Record} (readable : ∀ r ∈ rs, Readable K recordVersion r) :
    (createSegment K baseOffset maxBytes indexEvery (segHeader ++ frames Record.raw rs)
      index).Detected K rs := by
  have front : (segHeader ++ frames Record.raw rs).take segFileHeaderSize = segHeader :=
    take_left' segHeader_length
  have some : segHeader ++ frames Record.raw rs ≠ [] := by simp [segHeader]
  rw [detected_of_ne_nil K _ _ _ _ some]
  simp only [front, if_true]
  exact ⟨rfl, readable⟩

theorem detected_iff (left : Leftover K) :
    (createSegment K baseOffset maxBytes indexEvery left.log index).Detected K left.records ↔
      left.Clear := by
  have empty : (createSegment K baseOffset maxBytes indexEvery [] index).Detected K [] := ⟨rfl, by simp⟩
  cases left with
  | torn k =>
    by_cases none : k = 0
    · subst none
      exact iff_of_true empty (.inl rfl)
    by_cases whole : segFileHeaderSize ≤ k
    · have all : segHeader.take k = segHeader ++ frames Record.raw [] := take_of_length_le whole
      refine iff_of_true ?_ (.inr whole)
      rw [Leftover.log, all]
      exact detected_current K _ _ _ _ (by simp)
    · refine iff_of_false ?_ (by simp [Leftover.Clear, none, whole])
      have some : segHeader.take k ≠ [] := by simpa [segHeader, segMagic] using none
      have part : (segHeader.take k).take segFileHeaderSize ≠ segHeader := by
        intro front
        have := congrArg length front
        simp at this
        omega
      rw [Leftover.log, detected_of_ne_nil K _ _ _ _ some]
      simp only [if_neg part]
      exact fun both => some both.1
  | written version rs known readable =>
    rcases known with rfl | rfl
    · cases rs with
      | nil => exact iff_of_true empty (by simp [Leftover.Clear])
      | cons r rs =>
        have long := (readable r (.head _)).length_ge
        have front : (frames Record.raw (r :: rs)).take segFileHeaderSize =
            r.raw.take segFileHeaderSize :=
          take_append_of_le_length (Nat.le_trans (by decide) long)
        have some : frames Record.raw (r :: rs) ≠ [] :=
          append_ne_nil_of_left_ne_nil (ne_nil_of_length_pos (by omega)) _
        refine (detected_of_ne_nil K _ _ _ _ some).trans ?_
        simp only [front, Leftover.Clear, head?_cons, Option.mem_some_iff, forall_eq', true_imp_iff]
        constructor
        · rintro ⟨laid, -⟩ same
          rw [if_pos same] at laid
          have := congrArg length laid
          simp [fileHeader, segFileHeaderSize, Leftover.records] at this
        · intro other
          simp only [if_neg other]
          exact ⟨rfl, readable⟩
    · exact iff_of_true (detected_current K _ _ _ _ readable) (by simp [Leftover.Clear, recordVersion])

/-- **Version detection.**  The segment has the version and data start of the records in its file,
and everything appended is found behind them, exactly when the file was left with no or all of the
header and is no version-1 file that starts like one. -/
theorem version_detected_iff (left : Leftover K) :
    let s := createSegment K baseOffset maxBytes indexEvery left.log index
    s.Detected K left.records ∧
        (∀ appends : List (Int × Message), -2 ^ 63 ≤ s.nextOffset →
          s.nextOffset + appends.length ≤ 2 ^ 63 →
          (∀ a ∈ appends, IsInt64 a.1 ∧ Writable K a.2) →
          (s.writeAll K appends).1.records K = left.records ++ (s.writeAll K appends).2) ↔
      left.Clear := by
  intro s
  have detected := detected_iff K baseOffset maxBytes indexEvery index left
  refine ⟨fun both => detected.mp both.1, fun clear => ⟨detected.mpr clear, ?_⟩⟩
  intro appends low high writable
  exact ((detected.mpr clear).writeAll low high writable).records_eq

end

/-- A message appended behind one byte of a header is not found again, and a version-1 file whose
first offset has the bytes of the header is taken for version 2. -/
theorem version_misdetected :
    ((createSegment sampleCodecs 0 600 40 [0x50] []).write sampleCodecs 1
        sampleMessage).1.records sampleCodecs = [] ∧
      (createSegment sampleCodecs 9433469776 600 40
        (encodeRecord sampleCodecs 9433469776 1 sampleMessage 1) []).version = recordVersion := by
  constructor
  · decide +kernel
  · decide +kernel

end PubsubBroker.Storage
