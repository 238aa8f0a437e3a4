/-
# Offsets.Checkpoint — a crash during an offset checkpoint

`OffsetWAL.Checkpoint` in `internal/wal/wal_offset.go` replaces the offset WAL by one
record for each key of a snapshot, through `Truncate`.  `checkpoint_atomic` states when
such a replacement is atomic, for any write-ahead log, and that then no committed offset
is lost; `checkpoint_torn` are two crashes that leave neither the old nor the new
contents, the second one without the committed offset.

What goes wrong when commits run during a checkpoint is in `Offsets.Durability`; here the
snapshot holds what the WAL holds.
-/
import PubsubBroker.Offsets.Durability
import PubsubBroker.Wal.Replacement

namespace PubsubBroker.Offsets

open Theory List

section

variable {J : OffsetJson} {records : List OffsetRecord}

theorem replay_congr {w w' : Wal.WAL} (same : (Wal.openFile w.file).2 = (Wal.openFile w'.file).2) :
    replay J w = replay J w' := by
  rw [replay, replay, Wal.storedRecords, Wal.storedRecords, same]

/-- The WAL holds for each key what the snapshot holds. -/
def Agrees (J : OffsetJson) (w : Wal.WAL) (order : Snapshot) : Prop :=
  ∀ key, replay J w key = order.dlookup key

theorem latest_snapshot {order : Snapshot} (nodup : order.NodupKeys)
    (same : (records.map fun r => (⟨r.key, r.offset⟩ : Sigma fun _ : Name => Int)) = order)
    (key : Name) : latest records key = order.dlookup key := by
  have keys : records.map OffsetRecord.key = order.keys := by
    rw [← same, List.keys, map_map]
    rfl
  have unique : (records.map OffsetRecord.key).Nodup := by
    rw [keys]
    exact nodup
  cases held : order.dlookup key with
  | none =>
    refine latest_eq_none fun r mem found => ?_
    refine dlookup_eq_none.mp held ?_
    grind
  | some offset =>
    have mem := of_mem_dlookup held
    grind [latest_of_nodup]

theorem replay_crash {w : Wal.WAL} {order : Snapshot} (nodup : order.NodupKeys)
    (printed : ∀ e ∈ order, Printed J e) (agrees : Agrees J w order)
    (parsed : (order.mapM fun e => parseOffsetKey e.1 e.2) = some records) {c : Wal.Crash}
    (replaced : Wal.Replaced w (records.map J.marshal) c) (key : Name) (n : Int) :
    replay J ⟨Wal.crashFile w (records.map J.marshal) c, n⟩ key = replay J w key := by
  obtain ⟨records', parsed', same, exact⟩ := parse_snapshot printed
  obtain rfl : records = records' := Option.some.inj (parsed.symm.trans parsed')
  rcases replaced with old | new
  · exact congrFun (@replay_congr J ⟨_, n⟩ w old) key
  · have stored : Wal.storedRecords J.toJsonCodec
        ⟨Wal.crashFile w (records.map J.marshal) c, n⟩ = records := by
      rw [Wal.storedRecords, new, Wal.unmarshal_numbered exact]
    rw [agrees key, replay, stored, latest_snapshot nodup same]

end

/-- **When a replacement is atomic.**  A crash in `Truncate` leaves the old or the new
entries exactly when the process dies before the file is cut, or when all new entries are
completely written, or when the ones that are written happen to be the old ones.  A crash
like that in a checkpoint loses no committed offset. -/
theorem checkpoint_atomic (w : Wal.WAL) {newEntries : List Bytes}
    (small : ∀ d ∈ newEntries, d.length < 2 ^ 32) (count : (newEntries.length : Int) ≤ 2 ^ 63)
    (c : Wal.Crash) :
    (Wal.Replaced w newEntries c ↔ Wal.Harmless w newEntries c) ∧
      ∀ (J : OffsetJson) (order : Snapshot) (records : List OffsetRecord),
        order.NodupKeys → (∀ e ∈ order, Printed J e) → Agrees J w order →
        (order.mapM fun e => parseOffsetKey e.1 e.2) = some records →
        newEntries = records.map J.marshal → Wal.Harmless w newEntries c → ∀ key n,
          replay J ⟨Wal.crashFile w newEntries c, n⟩ key = replay J w key := by
  have iff := Wal.replaced_iff w small count c
  refine ⟨iff, ?_⟩
  rintro J order records nodup printed agrees parsed rfl harmless key n
  exact replay_crash nodup printed agrees parsed (iff.mpr harmless) key n

/-- A log with two entries, replaced by three others. -/
def sampleLog : Wal.WAL := Wal.truncate ⟨[], 0⟩ [[1], [2]]

/-- The process dies behind the data of the last entry, before the sync. -/
theorem checkpoint_atomic_sample :
    Wal.Harmless sampleLog [[3], [4], []] (.writing 2 .sync) ∧
      Wal.Replaced sampleLog [[3], [4], []] (.writing 2 .sync) := by
  have harmless : Wal.Harmless sampleLog [[3], [4], []] (.writing 2 .sync) :=
    .inl (by decide +kernel)
  exact ⟨harmless,
    (checkpoint_atomic sampleLog (by decide) (by decide) (.writing 2 .sync)).1.mpr harmless⟩

/-- **A crash can leave neither.**  Of three new entries the first and four bytes of the
second are on disk, and recovery returns the first; and a checkpoint that dies behind the
cut has lost the committed offset 5. -/
theorem checkpoint_torn :
    (Wal.openFile sampleLog.file).2 = [⟨0, [1]⟩, ⟨1, [2]⟩] ∧
      (Wal.openFile (Wal.crashFile sampleLog [[3], [4], []] (.writing 1 (.writeHeader 4)))).2 =
        [⟨0, [3]⟩] ∧
      replay sampleJson (Wal.written sampleJson.toJsonCodec [sampleRecord 5])
          (offsetKey ['g'] ['t'] 0) = some 5 ∧
      replay sampleJson
          ⟨Wal.crashFile (Wal.written sampleJson.toJsonCodec [sampleRecord 5])
            [sampleJson.marshal (sampleRecord 5)] (.writing 0 .seek), 0⟩
          (offsetKey ['g'] ['t'] 0) = none := by
  refine ⟨by decide +kernel, by decide +kernel, by decide +kernel, by decide +kernel⟩

end PubsubBroker.Offsets
