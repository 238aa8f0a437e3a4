/-
# Wal.Log — the write-ahead log file and its operations

`internal/wal/wal.go`.  An entry on disk is

    offset (8) | length (4) | crc32 (4) | data (length)

all words little-endian.  `writeEntry` seeks to the end of the file, writes the
header, writes the data and syncs; each of the four calls may fail, and a failed
`Write` leaves any prefix of its argument behind (`Fault`).  `append` advances
`nextOffset` only when all four succeeded, and does nothing about the bytes a
failed call left: the next call seeks to the physical end again.

`recover` reads entries from the start of the file until one is incomplete or
fails its checksum, and truncates the file to the start of that entry.  The loop
is `recoverLoop`, translated with its accumulators; `recover_eq_scan` says what
it computes in terms of the generic frame scan.
-/
import PubsubBroker.Theory.Framed

namespace PubsubBroker.Wal

open Theory List

/-- 8 (offset) + 4 (length) + 4 (crc32). -/
def headerSize : Nat := 16

structure Entry where
  offset : Int
  data : Bytes
deriving DecidableEq

/-- An open WAL: the contents of its file, and the offset the next `append`
assigns. -/
structure WAL where
  file : Bytes
  nextOffset : Int

def crc32sum (data : Bytes) : Nat := (checksumIEEE data).toNat

/-! ## Writing -/

def header (offset : Int) (data : Bytes) : Bytes :=
  leBytes 8 (uint64 offset) ++ leBytes 4 data.length ++ leBytes 4 (crc32sum data)

/-- What `writeEntry` leaves in the file when every call succeeds. -/
def entryBytes (e : Entry) : Bytes := header e.offset e.data ++ e.data

/-- The call of `writeEntry` that failed, and how many bytes of its argument
reached the file. -/
inductive Fault where
  | seek
  | writeHeader (written : Nat)
  | writeData (written : Nat)
  | sync

def Fault.message : Fault → String
  | .seek => "wal: seek"
  | .writeHeader _ => "wal: write header"
  | .writeData _ => "wal: write data"
  | .sync => "wal: sync"

/-- The bytes a call of `writeEntry` adds to the file. -/
def writtenBytes (offset : Int) (data : Bytes) : Option Fault → Bytes
  | some .seek => []
  | some (.writeHeader n) => (header offset data).take n
  | some (.writeData n) => header offset data ++ data.take n
  | some .sync => header offset data ++ data
  | none => header offset data ++ data

def writeEntry (w : WAL) (offset : Int) (data : Bytes) (fault : Option Fault) :
    WAL × Except String Unit :=
  ({ w with file := w.file ++ writtenBytes offset data fault },
    match fault with
    | none => .ok ()
    | some f => .error f.message)

def append (w : WAL) (data : Bytes) (fault : Option Fault) : WAL × Except String Int :=
  let offset := w.nextOffset
  match writeEntry w offset data fault with
  | (w, .error e) => (w, .error e)
  | (w, .ok ()) => ({ w with nextOffset := w.nextOffset + 1 }, .ok offset)

/-- `Truncate`: the file is cut to zero bytes, then `newEntries` are appended. -/
def truncate (_w : WAL) (newEntries : List Bytes) : WAL :=
  newEntries.foldl (fun w data => (append w data none).1) ⟨[], 0⟩

theorem append_ok (w : WAL) (data : Bytes) :
    append w data none =
      (⟨w.file ++ entryBytes ⟨w.nextOffset, data⟩, w.nextOffset + 1⟩, .ok w.nextOffset) := rfl

theorem append_fault (w : WAL) (data : Bytes) (f : Fault) :
    append w data (some f) =
      ({ w with file := w.file ++ writtenBytes w.nextOffset data (some f) },
        .error f.message) := rfl

/-! ## Recovery -/

/-- Why the recovery loop stopped at an entry. -/
inductive Stop where
  | header
  | data
  | checksum

/-- One iteration of the recovery loop: the entry at the front of `input`. -/
def readEntry (input : Bytes) : Except Stop (Entry × Bytes) :=
  match readFull headerSize input with
  | none => .error .header
  | some (hdr, body) =>
    let offset := int64 (leNat (hdr.take 8))
    let length := leNat ((hdr.drop 8).take 4)
    let checksum := leNat ((hdr.drop 12).take 4)
    match readFull length body with
    | none => .error .data
    | some (data, rest) =>
      if crc32sum data ≠ checksum then .error .checksum
      else .ok (⟨offset, data⟩, rest)

/-- The loop of `recover`: `truncateTo` is the position behind the last
validated entry, which is also where the next one starts. -/
def recoverLoop : Nat → Bytes → List Entry → Int → Nat → List Entry × Int × Nat
  | 0, _, entries, maxOffset, truncateTo => (entries, maxOffset, truncateTo)
  | fuel + 1, input, entries, maxOffset, truncateTo =>
    match readEntry input with
    | .error _ => (entries, maxOffset, truncateTo)
    | .ok (e, rest) =>
      recoverLoop fuel rest (entries ++ [e])
        (if e.offset > maxOffset then e.offset else maxOffset)
        (truncateTo + headerSize + e.data.length)

def recover (w : WAL) : WAL × List Entry :=
  match recoverLoop (w.file.length + 1) w.file [] (-1) 0 with
  | (entries, maxOffset, truncateTo) =>
    (⟨w.file.take truncateTo, if maxOffset ≥ 0 then maxOffset + 1 else w.nextOffset⟩, entries)

/-- `Open` on a file with the given contents. -/
def openFile (file : Bytes) : WAL × List Entry := recover ⟨file, 0⟩

/-! ## What the reader accepts -/

theorem header_length (offset : Int) (data : Bytes) :
    (header offset data).length = headerSize := by
  simp [header, headerSize]

theorem entryBytes_length (e : Entry) :
    (entryBytes e).length = headerSize + e.data.length := by
  simp [entryBytes, header_length]

theorem readEntry_length {input rest : Bytes} {e : Entry}
    (read : readEntry input = .ok (e, rest)) :
    input.length = headerSize + e.data.length + rest.length := by
  unfold readEntry at read
  split at read
  · cases read
  · rename_i hdr body hread
    obtain ⟨rfl, hlen⟩ := readFull_eq_some hread
    simp only at read
    split at read
    · cases read
    · rename_i data rest' dread
      obtain ⟨rfl, -⟩ := readFull_eq_some dread
      grind

theorem readEntry_progress : Progress readEntry := by
  intro input e rest read
  have := readEntry_length read
  simp only [headerSize] at this
  omega

/-- The entries the format can represent: the length fits its 4-byte field and
the offset is a signed 64-bit number. -/
structure Entry.Fits (e : Entry) : Prop where
  length : e.data.length < 2 ^ 32
  low : -2 ^ 63 ≤ e.offset
  high : e.offset < 2 ^ 63

theorem readEntry_header {e : Entry} (fits : e.Fits) (body : Bytes) :
    readEntry (header e.offset e.data ++ body) =
      match readFull e.data.length body with
      | none => .error .data
      | some (data, rest) =>
        if crc32sum data ≠ crc32sum e.data then .error .checksum
        else .ok (⟨e.offset, data⟩, rest) := by
  have h0 : (header e.offset e.data).take 8 = leBytes 8 (uint64 e.offset) := by
    simp [header]
  have h8 : ((header e.offset e.data).drop 8).take 4 = leBytes 4 e.data.length := by
    simp [header]
  have h12 : ((header e.offset e.data).drop 12).take 4 = leBytes 4 (crc32sum e.data) := by
    have hlen : (leBytes 8 (uint64 e.offset) ++ leBytes 4 e.data.length).length = 12 := by simp
    rw [header, ← hlen, drop_left, take_of_length_le (by simp)]
  have hlength : leNat (leBytes 4 e.data.length) = e.data.length :=
    leNat_leBytes (by have := fits.length; omega)
  have hcrc : leNat (leBytes 4 (crc32sum e.data)) = crc32sum e.data :=
    leNat_leBytes (checksumIEEE_lt _)
  unfold readEntry
  rw [readFull_append_of_length (header_length _ _)]
  simp only [h0, h8, h12, hlength, hcrc, int64_leNat_leBytes fits.low fits.high]

theorem readEntry_delimits : Delimits readEntry entryBytes Entry.Fits := by
  intro e rest fits
  rw [entryBytes, append_assoc, readEntry_header fits, readFull_append]
  simp

/-- **A cut entry is never read as an entry.**  The reader refuses every strict
prefix of a written entry: inside the header there are too few header bytes, and
behind it the header announces more data than is left. -/
theorem readEntry_prefix {e : Entry} (fits : e.Fits) {k : Nat}
    (cut : k < (entryBytes e).length) :
    ∃ stop, readEntry ((entryBytes e).take k) = .error stop := by
  rw [entryBytes_length] at cut
  by_cases inHeader : k < headerSize
  · refine ⟨.header, ?_⟩
    simp [readEntry, readFull_short, inHeader]
  · refine ⟨.data, ?_⟩
    have split : (entryBytes e).take k =
        header e.offset e.data ++ e.data.take (k - headerSize) := by
      rw [entryBytes, take_append, header_length,
        take_of_length_le (by rw [header_length]; omega)]
    have short : (e.data.take (k - headerSize)).length < e.data.length := by
      rw [length_take]
      omega
    rw [split, readEntry_header fits, readFull_short short]

/-! ## The recovery loop is a scan -/

/-- The highest offset of the entries, or the given start value. -/
def maxOffset (start : Int) (entries : List Entry) : Int :=
  entries.foldl (fun m e => if e.offset > m then e.offset else m) start

theorem recoverLoop_eq_scan :
    ∀ (fuel : Nat) (input : Bytes) (entries : List Entry) (m : Int) (pos : Nat),
      input.length < fuel →
      recoverLoop fuel input entries m pos =
        (entries ++ (scan readEntry input).1, maxOffset m (scan readEntry input).1,
          pos + (input.length - (scan readEntry input).2.length)) := by
  intro fuel
  induction fuel with
  | zero => intro input entries m pos short; omega
  | succ fuel ih =>
    intro input entries m pos short
    rw [recoverLoop]
    cases step : readEntry input with
    | error stop =>
      rw [scan_error step]
      simp [maxOffset]
    | ok next =>
      obtain ⟨e, rest⟩ := next
      have len := readEntry_length step
      grind [scan_length_le, readEntry_progress, scan_ok, headerSize, maxOffset]

/-- What `recover` does: it returns the entries a scan reads and keeps exactly
the bytes the scan consumed. -/
theorem recover_eq_scan (w : WAL) :
    recover w =
      (⟨w.file.take (w.file.length - (scan readEntry w.file).2.length),
        if maxOffset (-1) (scan readEntry w.file).1 ≥ 0
        then maxOffset (-1) (scan readEntry w.file).1 + 1 else w.nextOffset⟩,
        (scan readEntry w.file).1) := by
  unfold recover
  rw [recoverLoop_eq_scan _ _ _ _ _ (Nat.lt_succ_self _)]
  simp

end PubsubBroker.Wal
