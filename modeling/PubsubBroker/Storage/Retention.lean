/-
# Storage.Retention — how much a size limit removes

`Compact` decides about each closed segment with the total size of the log as it
was before the sweep; the segments already chosen for deletion still count.  So a
log over its limit loses every closed segment at once, and not the oldest ones
until the rest fits (`ShortestPrefix`).

* `compact_sealed`: with age retention off a sweep keeps all closed segments or none.
* `compact_shortest_iff`: the logs and limits for which that is what was wanted.
-/
import Mathlib.Algebra.Order.BigOperators.Group.List
import PubsubBroker.Storage.PartitionLog

namespace PubsubBroker.Storage

open List

namespace PartitionLog

variable {pl : PartitionLog} {sweep : Retention}

/-- The size of the log without its `k` oldest closed segments. -/
def sizeWithout (pl : PartitionLog) (k : Nat) : Int :=
  { pl with sealed := pl.sealed.drop k }.totalLogSize

/-- The closed segments left are those without the shortest front part that has to
go for the log to be of size `limit`, or without all of them. -/
def ShortestPrefix (pl : PartitionLog) (limit : Int) (kept : List Segment) : Prop :=
  ∃ k ≤ pl.sealed.length, kept = pl.sealed.drop k ∧
    (pl.sizeWithout k ≤ limit ∨ k = pl.sealed.length) ∧ ∀ j < k, limit < pl.sizeWithout j

/-- The test of `Compact`, on 64-bit integers. -/
def oversized (pl : PartitionLog) (maxSizeMB : Int) : Bool :=
  0 < wrap64 (maxSizeMB * 1024 * 1024) ∧ wrap64 (maxSizeMB * 1024 * 1024) < pl.totalLogSize

theorem sizeWithout_zero (pl : PartitionLog) : pl.sizeWithout 0 = pl.totalLogSize := by
  simp [sizeWithout]

theorem sizeWithout_eq (pl : PartitionLog) (k : Nat) :
    pl.sizeWithout k =
      ((pl.sealed.drop k).map fun s => (s.logSize : Int)).sum + pl.active.logSize := by
  simp [sizeWithout, totalLogSize, segments]

theorem sizeWithout_anti {j k : Nat} (le : j ≤ k) : pl.sizeWithout k ≤ pl.sizeWithout j := by
  have front : (pl.sealed.drop j).take (k - j) ++ pl.sealed.drop k = pl.sealed.drop j := by
    have whole := take_append_drop (k - j) (pl.sealed.drop j)
    rwa [drop_drop, Nat.add_sub_cancel' le] at whole
  have gone : 0 ≤ (((pl.sealed.drop j).take (k - j)).map fun s => (s.logSize : Int)).sum :=
    sum_nonneg fun size mem => by grind
  grind [sizeWithout_eq]

theorem sizeWithout_last {s : Segment} (last : pl.sealed.getLast? = some s) :
    pl.sizeWithout (pl.sealed.length - 1) = s.logSize + pl.active.logSize := by
  obtain ⟨front, eq⟩ := getLast?_eq_some_iff.mp last
  simp [sizeWithout_eq, eq]

/-- **All closed segments or none.** -/
theorem compact_sealed (off : sweep.maxAgeHours ≤ 0)
    (readable : ∀ s ∈ pl.sealed, (sweep.modTime s.baseOffset).isSome) :
    (pl.compact sweep).1.sealed = if pl.oversized sweep.maxSizeMB then [] else pl.sealed := by
  have each : ∀ s ∈ pl.sealed, pl.evicts sweep s = pl.oversized sweep.maxSizeMB := by
    grind [evicts, oversized]
  unfold compact
  simp only
  split
  · rename_i exceeds
    exact filter_eq_nil_iff.mpr fun s mem => by simp [each s mem, exceeds]
  · rename_i fits
    exact filter_eq_self.mpr fun s mem => by simp [each s mem, fits]

theorem shortestPrefix_self {limit : Int} :
    pl.ShortestPrefix limit pl.sealed ↔ pl.sealed = [] ∨ pl.totalLogSize ≤ limit := by
  constructor
  · rintro ⟨k, le, same, enough, -⟩
    have zero : k = 0 := by grind
    grind [sizeWithout_zero]
  · intro enough
    refine ⟨0, Nat.zero_le _, rfl, ?_, by simp⟩
    grind [sizeWithout_zero]

theorem shortestPrefix_nil {limit : Int} :
    pl.ShortestPrefix limit [] ↔
      ∀ s ∈ pl.sealed.getLast?, limit < s.logSize + pl.active.logSize := by
  constructor
  · rintro ⟨k, le, none, -, needed⟩ s last
    have all : k = pl.sealed.length :=
      le_antisymm le (drop_eq_nil_iff.mp none.symm)
    have some : pl.sealed ≠ [] := fun empty => by simp [empty] at last
    grind [sizeWithout_last]
  · intro large
    refine ⟨pl.sealed.length, le_rfl, by simp, .inr rfl, fun j lt => ?_⟩
    obtain ⟨s, last⟩ := Option.isSome_iff_exists.mp
      (getLast?_isSome.mpr (length_pos_iff.mp (Nat.zero_lt_of_lt lt)))
    have exceeds := large s last
    rw [← sizeWithout_last last] at exceeds
    exact lt_of_lt_of_le exceeds (sizeWithout_anti (by omega))

/-- **When a size limit removes no more than needed.**  With age retention off, a
sweep removes the shortest front part that makes the log fit exactly if the log is
not over the limit and the sweep sees that, or if even the newest closed segment and
the active one are over the limit together. -/
theorem compact_shortest_iff (off : sweep.maxAgeHours ≤ 0)
    (readable : ∀ s ∈ pl.sealed, (sweep.modTime s.baseOffset).isSome) :
    pl.ShortestPrefix (sweep.maxSizeMB * 2 ^ 20) (pl.compact sweep).1.sealed ∧
        (pl.compact sweep).1.active = pl.active ↔
      if pl.oversized sweep.maxSizeMB then
        ∀ s ∈ pl.sealed.getLast?, sweep.maxSizeMB * 2 ^ 20 < s.logSize + pl.active.logSize
      else pl.sealed = [] ∨ pl.totalLogSize ≤ sweep.maxSizeMB * 2 ^ 20 := by
  rw [compact_sealed off readable, and_iff_left (show (pl.compact sweep).1.active = pl.active from rfl)]
  split
  · exact shortestPrefix_nil
  · exact shortestPrefix_self

/-- A segment of one message behind the file header, its log file of `size` bytes. -/
def bulkSegment (baseOffset : Int) (size : Nat) : Segment where
  baseOffset := baseOffset
  nextOffset := baseOffset + 1
  log := segHeader ++ List.replicate (size - segFileHeaderSize) 0
  index := []
  logSize := size
  maxBytes := 300000
  indexEvery := 4096
  byteSinceIndex := 0
  version := recordVersion
  dataStart := segFileHeaderSize
  laidOut := rfl

/-- Two closed segments and an active one of that size, as messages larger than a
segment leave them. -/
def bulkLog (size : Nat) : PartitionLog :=
  ⟨[bulkSegment 0 size, bulkSegment 1 size], bulkSegment 2 size, 300000, 4096⟩

/-- A limit of one MiB, no age limit. -/
def oneMiB : Retention := ⟨0, 1, 0, fun _ => some 0⟩

/-- **One MiB, three segments of 400000 bytes.**  Without the oldest one the log
fits; the sweep removes both closed segments. -/
theorem compact_removes_too_much :
    (bulkLog 400000).sizeWithout 1 ≤ oneMiB.maxSizeMB * 2 ^ 20 ∧
      ((bulkLog 400000).compact oneMiB).1.sealed = [] ∧
      ¬ (bulkLog 400000).ShortestPrefix (oneMiB.maxSizeMB * 2 ^ 20)
          ((bulkLog 400000).compact oneMiB).1.sealed := by
  have emptied : ((bulkLog 400000).compact oneMiB).1.sealed = [] := by
    rw [compact_sealed (by decide) (by simp [oneMiB])]
    decide
  refine ⟨by decide, emptied, ?_⟩
  rw [emptied, shortestPrefix_nil]
  exact fun large => absurd (large (bulkSegment 1 400000) rfl) (by decide)

/-- Segments of 600000 bytes: two of them are already over the limit. -/
theorem compact_shortest_bulk :
    (bulkLog 600000).ShortestPrefix (oneMiB.maxSizeMB * 2 ^ 20)
        ((bulkLog 600000).compact oneMiB).1.sealed ∧
      ((bulkLog 600000).compact oneMiB).1.active = (bulkLog 600000).active := by
  refine (compact_shortest_iff (by decide) (by simp [oneMiB])).mpr ?_
  have exceeds : (bulkLog 600000).oversized oneMiB.maxSizeMB = true := by decide
  rw [if_pos exceeds]
  rintro s ⟨rfl⟩
  decide

end PartitionLog

end PubsubBroker.Storage
