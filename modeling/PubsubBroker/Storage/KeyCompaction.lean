/-
# Storage.KeyCompaction — a sweep preserves the materialised view

A client of a compacted topic folds the log into a map from key to latest value.
A sweep may remove any record that is overwritten later, and a tombstone once
nothing is left for it to hide; and it may stop between two rewrites.

The argument rests on the rewrite order.  In every state of a sweep a front part
of the sealed records has been filtered and the rest is untouched
(`compactSegments_records`), so when the tombstone of a key has been dropped, the
older records of that key, which lie in front of it, have been dropped before.
-/
import PubsubBroker.Storage.Refinement

namespace PubsubBroker.Storage

open Theory List

/-- The value a record gives its key; a tombstone gives none. -/
def Record.value (r : Record) : Option Message := if r.tombstone then none else some r.msg

/-- The map from key to latest value that the records fold to. -/
def materialised (rs : List Record) : Bytes → Option Message :=
  materialise Record.key Record.value rs

section

variable {before after : List Record} {r : Record}

theorem keyLatest_last (keyed : r.key ≠ [])
    (last : ∀ r' ∈ after, r'.key ≠ r.key) :
    keyLatest (before ++ r :: after) r.key = some r.offset := by
  have none : updatesOf Record.key r.key (after.filter fun r' => r'.key ≠ []) = [] := by
    refine filter_eq_nil_iff.mpr ?_
    grind
  have here : updatesOf Record.key r.key ([r].filter fun r' => r'.key ≠ []) = [r] := by
    simp [updatesOf, keyed]
  rw [keyLatest, materialise_apply, ← singleton_append, filter_append,
    filter_append, updatesOf_append, updatesOf_append, here, none, append_nil,
    getLast?_concat]
  rfl

variable {latest : Bytes → Option Int} {now graceNs : Int}

theorem keeps_of_empty (empty : r.key = []) : keeps latest now graceNs r = true := by
  simp [keeps, empty]

theorem keeps_of_older {offset : Int} (keyed : r.key ≠ []) (noted : latest r.key = some offset)
    (older : r.offset ≠ offset) : keeps latest now graceNs r = false := by
  simp [keeps, keyed, noted, older]

/-- The last record of a key is dropped only when it is a tombstone. -/
theorem tombstone_of_dropped (noted : latest r.key = some r.offset)
    (dropped : keeps latest now graceNs r = false) : r.tombstone = true := by
  by_contra value
  simp [keeps, noted, value] at dropped

/-- **A dropped record is not missed.**  A record of its key follows it, or it is
a tombstone and every older record of its key is dropped as well. -/
theorem dropped_cases (sorted : (before ++ r :: after).Pairwise fun a b => a.offset < b.offset)
    (dropped : keeps (keyLatest (before ++ r :: after)) now graceNs r = false) :
    (∃ r' ∈ after, r'.key = r.key) ∨
      (r.value = none ∧ ∀ r' ∈ before, r'.key = r.key →
        keeps (keyLatest (before ++ r :: after)) now graceNs r' = false) := by
  have keyed : r.key ≠ [] := by grind [keeps_of_empty]
  by_cases later : ∃ r' ∈ after, r'.key = r.key
  · exact .inl later
  · have noted := @keyLatest_last before after r keyed fun r' mem same => later ⟨r', mem, same⟩
    refine .inr ⟨?_, ?_⟩
    · simp [Record.value, tombstone_of_dropped noted dropped]
    · intro r' mem same
      have older := (pairwise_append.mp sorted).2.2 r' mem r (by simp)
      grind [keeps_of_older]

end

/-- **Key compaction preserves the materialised view.**  Whether a sweep runs to
the end, stops at a segment it cannot scan, or fails in any step of any rewrite:
the records in the log files fold to the same map as before, they are a
subsequence of those before, and the records without a key are all there. -/
theorem compactPartition_preserves_view (K : Codecs) (pl : PartitionLog)
    (increasing : (pl.records K).Pairwise fun a b => a.offset < b.offset) (sweep : Sweep)
    (faults : Int → Option RewriteFault) :
    materialised ((compactPartition K pl sweep faults).1.records K) =
        materialised (pl.records K) ∧
      ((compactPartition K pl sweep faults).1.records K).Sublist (pl.records K) ∧
      ((compactPartition K pl sweep faults).1.records K).filter (fun r => r.key = []) =
        (pl.records K).filter (fun r => r.key = []) := by
  rcases compactPartition_cases K pl sweep faults with same | ⟨graceNs, eq⟩
  · simp [same]
  · let keep := keeps (keyLatest (pl.sealed.flatMap (Segment.records K))) sweep.now graceNs
    obtain ⟨front, back, all, filtered⟩ := compactSegments_records (K := K) keep faults pl.sealed
    have before : pl.records K = front ++ (back ++ pl.active.records K) := by
      rw [PartitionLog.records_eq, all, append_assoc]
    have after : (compactPartition K pl sweep faults).1.records K =
        front.filter keep ++ (back ++ pl.active.records K) := by
      rw [eq, PartitionLog.records_eq]
      simp only
      rw [filtered, append_assoc]
    rw [before] at increasing
    rw [after, before]
    refine ⟨?_, ?_, ?_⟩
    · apply materialise_filter_append
      intro older r newer split dropped
      have sealed : pl.sealed.flatMap (Segment.records K) = older ++ r :: (newer ++ back) := by
        rw [all, split]
        simp
      have sorted : (older ++ r :: (newer ++ back)).Pairwise fun a b => a.offset < b.offset := by
        grind
      simp only [keep, sealed] at dropped ⊢
      cases dropped_cases sorted dropped with
      | inl later =>
        obtain ⟨r', mem, same⟩ := later
        grind
      | inr hidden => exact .inr hidden
    · simp
    · have keyless : front.filter (fun r => decide (r.key = []) && keep r) =
          front.filter fun r => r.key = [] := by
        refine filter_congr ?_
        intro r _
        by_cases empty : r.key = []
        · simp [empty, keep, keeps_of_empty empty]
        · simp [empty]
      simp [keyless]

/-- Two segments of one key, and a sweep that fails after renaming the log. -/
def sampleLog : PartitionLog :=
  ((openPartitionLog sampleCodecs 60 40 []).run sampleCodecs
    [.append 1 sampleMessage, .append 2 sampleMessage, .append 3 sampleMessage]).2

theorem compactPartition_preserves_view_sample :
    ((compactPartition sampleCodecs sampleLog ⟨10, 5⟩ fun _ => some .renameIndex).1.records
        sampleCodecs).length < (sampleLog.records sampleCodecs).length ∧
      materialised ((compactPartition sampleCodecs sampleLog ⟨10, 5⟩
        fun _ => some .renameIndex).1.records sampleCodecs) =
          materialised (sampleLog.records sampleCodecs) := by
  refine ⟨by decide +kernel, ?_⟩
  exact (compactPartition_preserves_view sampleCodecs sampleLog (by decide +kernel) ⟨10, 5⟩
    fun _ => some .renameIndex).1

end PubsubBroker.Storage
