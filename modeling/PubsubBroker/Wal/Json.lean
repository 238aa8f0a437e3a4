/-
# Wal.Json — a write-ahead log of JSON records

The offset WAL and the message WAL of the broker store one JSON document in each
entry, and read them back skipping what is not one.  JSON is library code:
`JsonCodec` names its two functions, the records it represents exactly, and the
law the development assumes.

`written` is the log that holds a list of records.  Appending, rewriting and
reopening are operations on that list, which is all that the modules about
offsets and messages need to know about the file.
-/
import PubsubBroker.Wal.Recovery

namespace PubsubBroker.Wal

open Theory List

/-- JSON of records of one type: those that are `exact` are read back as they
were written, from fewer than 4 GiB. -/
structure JsonCodec (α : Type) where
  marshal : α → Bytes
  unmarshal : Bytes → Option α
  exact : α → Prop
  unmarshal_marshal : ∀ r, exact r → unmarshal (marshal r) = some r
  marshal_length : ∀ r, exact r → (marshal r).length < 2 ^ 32

section

variable {α : Type} (J : JsonCodec α)

def appendRecord (w : WAL) (r : α) : WAL := (append w (J.marshal r) none).1

/-- The records `Open` reads back; entries that are not records are skipped. -/
def storedRecords (w : WAL) : List α :=
  (openFile w.file).2.filterMap fun e => J.unmarshal e.data

/-- The log that holds the given records. -/
def written (records : List α) : WAL := appendAll ⟨[], 0⟩ (records.map J.marshal)

theorem appendRecord_written (records : List α) (r : α) :
    appendRecord J (written J records) r = written J (records ++ [r]) := by
  simp [appendRecord, written, appendAll]

theorem written_nextOffset (records : List α) :
    (written J records).nextOffset = records.length := by
  rw [written, appendAll_eq]
  simp

variable {J} {records : List α}

theorem unmarshal_numbered (exact : ∀ r ∈ records, J.exact r) (n : Int) :
    (numbered n (records.map J.marshal)).filterMap (fun e => J.unmarshal e.data) = records := by
  induction records generalizing n with
  | nil => rfl
  | cons r records ih => grind [numbered, JsonCodec.unmarshal_marshal]

theorem data_mem_of_numbered {n : Int} {ds : List Bytes} {e : Entry} (mem : e ∈ numbered n ds) :
    e.data ∈ ds := by
  induction ds generalizing n with
  | nil => cases mem
  | cons d ds ih =>
    rcases mem_cons.mp mem with rfl | later
    · exact mem_cons_self ..
    · exact mem_cons_of_mem d (ih later)

theorem openFile_written (exact : ∀ r ∈ records, J.exact r)
    (count : (records.length : Int) ≤ 2 ^ 63) :
    openFile (written J records).file =
      (written J records, numbered 0 (records.map J.marshal)) := by
  have small : ∀ d ∈ records.map J.marshal, d.length < 2 ^ 32 := by grind [JsonCodec.marshal_length]
  have recovered := recover_appendAll small (by simpa using count) readEntry_nil (n := 0)
    fun _ => rfl
  rw [append_nil] at recovered
  have file : (written J records).file =
      frames entryBytes (numbered 0 (records.map J.marshal)) := by
    rw [written, appendAll_eq]
    rfl
  rw [file, openFile, recovered]
  rfl

/-- **What was appended is read back.** -/
theorem storedRecords_written (exact : ∀ r ∈ records, J.exact r)
    (count : (records.length : Int) ≤ 2 ^ 63) :
    storedRecords J (written J records) = records := by
  rw [storedRecords, openFile_written exact count]
  exact unmarshal_numbered exact 0

theorem uint64_int64 {n : Nat} (word : n < 2 ^ 64) : uint64 (int64 n) = n := by
  have power : ((2 ^ 64 : Nat) : Int) = 2 ^ 64 := by norm_num
  have reduced : int64 n % 2 ^ 64 = n := by
    rw [← power]
    exact Int.bmod_emod.trans
      (Int.emod_eq_of_lt (Int.natCast_nonneg n) (Int.ofNat_lt.mpr word))
  rw [uint64, reduced, Int.toNat_natCast]

theorem wrapped_fits (n : Int) {data : Bytes} (small : data.length < 2 ^ 32) :
    Entry.Fits ⟨int64 (uint64 n), data⟩ := by
  have range := int64_range (uint64 n)
  generalize int64 (uint64 n) = offset at range ⊢
  exact ⟨small, range.1, range.2⟩

theorem entryBytes_wrapped (n : Int) (data : Bytes) :
    entryBytes ⟨int64 (uint64 n), data⟩ = entryBytes ⟨n, data⟩ := by
  have word : uint64 n < 2 ^ 64 := lt_of_lt_of_eq (uint64_lt n) (by norm_num)
  simp only [entryBytes, header, uint64_int64 word]

/-- For that the offsets of the entries do not matter: they may even have wrapped. -/
theorem storedRecords_any (exact : ∀ r ∈ records, J.exact r) :
    storedRecords J (written J records) = records := by
  let read : Entry → Entry := fun e => ⟨int64 (uint64 e.offset), e.data⟩
  have fits : ∀ e ∈ (numbered 0 (records.map J.marshal)).map read, e.Fits := by
    intro e mem
    obtain ⟨e, held, rfl⟩ := mem_map.mp mem
    obtain ⟨r, held, data⟩ := mem_map.mp (data_mem_of_numbered held)
    exact wrapped_fits e.offset (data ▸ J.marshal_length r (exact r held))
  have file : (written J records).file =
      frames entryBytes ((numbered 0 (records.map J.marshal)).map read) ++ [] := by
    rw [written, appendAll_eq, append_nil, nil_append, frames, frames, flatMap_map]
    exact flatMap_congr fun e _ => (entryBytes_wrapped e.offset e.data).symm
  rw [storedRecords, file, openFile, recover_eq_scan]
  simp only [scan_torn readEntry_progress readEntry_delimits readEntry_nil _ fits]
  rw [filterMap_map]
  exact unmarshal_numbered exact 0

end

end PubsubBroker.Wal
