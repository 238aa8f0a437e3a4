/-
# Storage.Effectiveness — what a finished sweep leaves

A sweep that returns without an error has condensed the closed segments: of every
key the record with the highest offset is left, or nothing when that record is a
tombstone whose grace period is over (`Condensed`).  It reports how many records
went, and a second sweep at the same time finds nothing to do.

The age of a tombstone is a difference of two 64-bit clock readings, and the sweep
compares the difference as it comes out of 64-bit subtraction (`AgeExact`).

* `compactPartition_done`: the result of such a sweep, segment by segment.
* `compactPartition_condensed_iff`: for which tombstones the result is as wanted.
-/
import PubsubBroker.Storage.KeyCompaction

namespace PubsubBroker.Storage

open Theory List

/-! ## The purpose of a sweep -/

/-- No record of its key has a higher offset. -/
def Highest (rs : List Record) (r : Record) : Prop :=
  ∀ r' ∈ rs, r'.key = r.key → r'.offset ≤ r.offset
deriving Decidable

/-- A tombstone whose age is not below the grace period. -/
def Expired (now graceNs : Int) (r : Record) : Prop :=
  r.tombstone = true ∧ graceNs ≤ now - r.timestamp

/-- What a sweep is for: one record of each key stays, or none. -/
structure Condensed (now graceNs : Int) (before after : List Record) : Prop where
  sublist : after.Sublist before
  latest : ∀ r ∈ before, r.key ≠ [] → Highest before r → ¬ Expired now graceNs r →
    after.filter (fun r' => r'.key = r.key) = [r]
  expired : ∀ r ∈ before, r.key ≠ [] → Highest before r → Expired now graceNs r →
    ∀ r' ∈ after, r'.key ≠ r.key

/-- The age of the record as a 64-bit integer stands in the same relation to the
grace period as the age itself. -/
def AgeExact (now graceNs : Int) (r : Record) : Prop :=
  now - r.timestamp < 2 ^ 63 ∧
    (-2 ^ 63 ≤ now - r.timestamp ∨ now - r.timestamp + 2 ^ 64 < graceNs)
deriving Decidable

def PartitionLog.sealedRecords (K : Codecs) (pl : PartitionLog) : List Record :=
  pl.sealed.flatMap (Segment.records K)

/-- The grace period of a sweep; a negative one counts as zero. -/
def Sweep.graceNs (sweep : Sweep) : Int := max sweep.tombstoneTTL 0

/-- What the second pass keeps of a log. -/
def Sweep.keep (K : Codecs) (sweep : Sweep) (pl : PartitionLog) : Record → Bool :=
  keeps (keyLatest (pl.sealedRecords K)) sweep.now sweep.graceNs

/-! ## The decision about one record -/

section Decision

variable {rs : List Record} {r : Record} {now graceNs : Int}

variable (sorted : rs.Pairwise fun a b => a.offset < b.offset)
include sorted

theorem Record.eq_of_offset {r' : Record} (mem : r ∈ rs) (mem' : r' ∈ rs)
    (same : r.offset = r'.offset) : r = r' := by
  have nodup : (rs.map Record.offset).Nodup :=
    pairwise_map.mpr (sorted.imp fun lt => ne_of_lt lt)
  exact inj_on_of_nodup_map nodup mem mem' same

theorem Highest.split (mem : r ∈ rs) (highest : Highest rs r) :
    ∃ before after, rs = before ++ r :: after ∧ ∀ r' ∈ after, r'.key ≠ r.key := by
  obtain ⟨before, after, rfl⟩ := append_of_mem mem
  refine ⟨before, after, rfl, fun r' later same => ?_⟩
  have behind := (pairwise_cons.mp (pairwise_append.mp sorted).2.1).1 r' later
  have below := highest r' (by simp [later]) same
  omega

theorem Highest.keyLatest (mem : r ∈ rs) (keyed : r.key ≠ []) (highest : Highest rs r) :
    keyLatest rs r.key = some r.offset := by
  obtain ⟨before, after, rfl, last⟩ := highest.split sorted mem
  exact keyLatest_last keyed last

theorem exists_highest (mem : r ∈ rs) : ∃ r' ∈ rs, r'.key = r.key ∧ Highest rs r' := by
  have some : updatesOf Record.key r.key rs ≠ [] :=
    ne_nil_of_mem (mem_updatesOf.mpr ⟨mem, rfl⟩)
  obtain ⟨init, top, eq⟩ := (eq_nil_or_concat' _).resolve_left some
  have key := (mem_updatesOf.mp (eq ▸ mem_concat_self : top ∈ updatesOf _ _ _)).2
  -- the last record of the key: what lies in front is lower, behind there is none
  obtain ⟨before, after, rfl, -, none⟩ := updatesOf_eq_concat eq
  refine ⟨top, by simp, key, fun r' mem' same => ?_⟩
  rcases mem_append.mp mem' with front | back
  · exact le_of_lt ((pairwise_append.mp sorted).2.2 r' front top (by simp))
  · rcases mem_cons.mp back with rfl | later
    · exact le_rfl
    · have found := mem_updatesOf.mpr ⟨later, same.trans key⟩
      grind

/-- **What the second pass keeps of a key**: the highest record, unless it is a
tombstone and its age in 64 bits has reached the grace period. -/
theorem keeps_iff (mem : r ∈ rs) (keyed : r.key ≠ []) :
    keeps (keyLatest rs) now graceNs r = true ↔
      Highest rs r ∧ (r.tombstone = true → wrap64 (now - r.timestamp) < graceNs) := by
  obtain ⟨top, memTop, key, highest⟩ := exists_highest sorted mem
  have noted := highest.keyLatest sorted memTop (key ▸ keyed)
  rw [key] at noted
  by_cases same : r.offset = top.offset
  · grind [Record.eq_of_offset, keeps]
  · have low : ¬ Highest rs r := fun also =>
      same (le_antisymm (highest r mem key.symm) (also top memTop key))
    simp [keeps_of_older keyed noted same, low]

end Decision

/-! ## The result of a sweep without an error -/

section Done

variable {K : Codecs} {pl : PartitionLog} {sweep : Sweep} {faults : Int → Option RewriteFault}

theorem compactSegments_done {keep : Record → Bool} {targets : List (Segment × List Record)}
    (ok : (compactSegments keep faults targets).2.2 = none) :
    compactSegments keep faults targets = compactSegments keep (fun _ => none) targets := by
  induction targets with
  | nil => rfl
  | cons target targets ih => grind [compactSegments]

theorem compactSegments_count (keep : Record → Bool) (segs : List Segment) :
    (compactSegments keep (fun _ => none) (segs.map fun s => (s, s.records K))).2.1 +
        ((segs.flatMap (Segment.records K)).filter keep).length =
      (segs.flatMap (Segment.records K)).length := by
  induction segs with
  | nil => rfl
  | cons seg segs ih => grind [compactSegments]

/-- A pass that keeps everything leaves the segments as they are, whatever would
fail. -/
theorem compactSegments_idle {keep : Record → Bool} {targets : List (Segment × List Record)}
    (all : ∀ target ∈ targets, ∀ r ∈ target.2, keep r = true) :
    compactSegments keep faults targets = (targets.map Prod.fst, 0, none) := by
  induction targets with
  | nil => rfl
  | cons target targets ih =>
    obtain ⟨seg, recs⟩ := target
    have kept : recs.filter keep = recs :=
      filter_eq_self.mpr (all (seg, recs) (by simp))
    rw [compactSegments]
    simp only [kept, Nat.sub_self, if_true]
    rw [ih fun target mem => all target (by simp [mem])]
    rfl

theorem Segment.swept_records (keep : Record → Bool) (s : Segment) :
    (s.swept K keep).records K = (s.records K).filter keep := by
  unfold Segment.swept
  split
  · rename_i nothing
    exact (filter_sublist.eq_of_length_le (by omega)).symm
  · grind [rewriteSegment_records_ok]

theorem Segment.swept_scan (keep : Record → Bool) {s : Segment}
    (scanned : scanSegment K s = .ok (s.records K)) :
    scanSegment K (s.swept K keep) = .ok ((s.records K).filter keep) := by
  have held := s.swept_records (K := K) keep
  unfold Segment.swept at held ⊢
  split
  · grind
  · have readable : ∀ r ∈ (s.records K).filter keep, Readable K s.version r := fun r mem =>
      s.records_readable r (mem_filter.mp mem).1
    have whole := scan_torn (readRecord_progress K s.version) (readable_delimits K s.version)
      (readRecord_nil K s.version) _ readable
    rw [append_nil] at whole
    unfold scanSegment rewriteSegment
    simp only [rewritten_log, s.laidOut, drop_left, whole, readRecord_nil]
    rfl

theorem compactPartition_eq (each : ∀ s ∈ pl.sealed, scanSegment K s = .ok (s.records K)) :
    compactPartition K pl sweep faults =
      ({ pl with sealed := (compactSegments (sweep.keep K pl) faults
          (pl.sealed.map fun s => (s, s.records K))).1 },
        (compactSegments (sweep.keep K pl) faults (pl.sealed.map fun s => (s, s.records K))).2) := by
  have grace : (if sweep.tombstoneTTL < 0 then 0 else sweep.tombstoneTTL) = sweep.graceNs := by
    unfold Sweep.graceNs
    split <;> omega
  unfold compactPartition
  rw [scanSegments_of_each each]
  simp only [zip_records, grace, ← flatMap_def]
  rfl

section

variable (ok : (compactPartition K pl sweep faults).2.2 = none)
include ok

theorem scanned_of_done : ∀ s ∈ pl.sealed, scanSegment K s = .ok (s.records K) := by
  grind [compactPartition, each_of_scanSegments]

/-- **The result of a sweep without an error**: every closed segment has been
filtered, and the removed records have been counted. -/
theorem compactPartition_done :
    (compactPartition K pl sweep faults).1 =
        { pl with sealed := pl.sealed.map (Segment.swept K (sweep.keep K pl)) } ∧
      (compactPartition K pl sweep faults).2.1 +
        ((pl.sealedRecords K).filter (sweep.keep K pl)).length = (pl.sealedRecords K).length := by
  have eq := @compactPartition_eq K pl sweep faults (scanned_of_done ok)
  rw [eq] at ok ⊢
  simp only at ok ⊢
  rw [compactSegments_done ok]
  exact ⟨by rw [compactSegments_ok], compactSegments_count _ _⟩

theorem sealedRecords_done :
    (compactPartition K pl sweep faults).1.sealedRecords K =
      (pl.sealedRecords K).filter (sweep.keep K pl) := by
  rw [(compactPartition_done ok).1]
  unfold PartitionLog.sealedRecords
  rw [flatMap_map, filter_flatMap]
  exact flatMap_congr fun s _ => s.swept_records _

variable (sorted : (pl.sealedRecords K).Pairwise fun a b => a.offset < b.offset)
include sorted

theorem Sweep.keep_again :
    ∀ r ∈ (compactPartition K pl sweep faults).1.sealedRecords K,
      sweep.keep K (compactPartition K pl sweep faults).1 r = true := by
  intro r mem
  have left := mem
  rw [sealedRecords_done ok, mem_filter] at left
  by_cases empty : r.key = []
  · exact keeps_of_empty empty
  · obtain ⟨highest, young⟩ := (keeps_iff sorted left.1 empty).mp left.2
    have sub : ((compactPartition K pl sweep faults).1.sealedRecords K).Sublist
        (pl.sealedRecords K) := by
      rw [sealedRecords_done ok]
      exact filter_sublist
    exact (keeps_iff (sorted.sublist sub) mem empty).mpr
      ⟨fun r' mem' => highest r' (sub.subset mem'), young⟩

/-- **A second sweep at the same time does nothing.** -/
theorem compactPartition_again (later : Int → Option RewriteFault) :
    compactPartition K (compactPartition K pl sweep faults).1 sweep later =
      ((compactPartition K pl sweep faults).1, 0, none) := by
  have scanned : ∀ s ∈ (compactPartition K pl sweep faults).1.sealed,
      scanSegment K s = .ok (s.records K) := by
    rw [(compactPartition_done ok).1]
    intro s mem
    obtain ⟨old, memOld, rfl⟩ := mem_map.mp mem
    rw [Segment.swept_scan _ (scanned_of_done ok old memOld), Segment.swept_records]
  have all : ∀ target ∈ (compactPartition K pl sweep faults).1.sealed.map fun s => (s, s.records K),
      ∀ r ∈ target.2, sweep.keep K (compactPartition K pl sweep faults).1 r = true := by
    intro target mem r held
    obtain ⟨s, memS, rfl⟩ := mem_map.mp mem
    exact Sweep.keep_again ok sorted r (mem_flatMap.mpr ⟨s, memS, held⟩)
  rw [compactPartition_eq scanned, compactSegments_idle all, map_map]
  simp only [Function.comp_def, map_id']

end

end Done

/-! ## When the result is as wanted -/

section Exact

variable {K : Codecs} {pl : PartitionLog} {rs : List Record} {r : Record} {now graceNs : Int}

theorem Readable.timestamp_range {version : UInt8} (readable : Readable K version r) :
    IsInt64 r.timestamp := by
  obtain ⟨hdr, body, msg, -, -, -, -, rfl⟩ := readRecord_cases (readable [])
  simp only [parseHeader]
  exact int64_range _

theorem PartitionLog.timestamp_range (mem : r ∈ pl.sealedRecords K) : IsInt64 r.timestamp := by
  obtain ⟨s, -, held⟩ := mem_flatMap.mp mem
  exact (s.records_readable r held).timestamp_range

theorem ageExact_iff (now64 : IsInt64 now) (stamp64 : IsInt64 r.timestamp) (pos : 0 ≤ graceNs)
    (grace64 : IsInt64 graceNs) :
    AgeExact now graceNs r ↔
      (wrap64 (now - r.timestamp) < graceNs ↔ now - r.timestamp < graceNs) := by
  unfold AgeExact wrap64 IsInt64 at *
  rw [Int.bmod_def]
  split <;> omega

/-- **The records left are as wanted** exactly if the age of every key's last
tombstone is. -/
theorem condensed_iff (sorted : rs.Pairwise fun a b => a.offset < b.offset) :
    Condensed now graceNs rs (rs.filter (keeps (keyLatest rs) now graceNs)) ↔
      ∀ r ∈ rs, r.key ≠ [] → Highest rs r → r.tombstone = true →
        (wrap64 (now - r.timestamp) < graceNs ↔ now - r.timestamp < graceNs) := by
  constructor
  · intro condensed r mem keyed highest stone
    have kept := @keeps_iff rs r now graceNs sorted mem keyed
    constructor
    · intro young
      by_contra old
      have stays := kept.mpr ⟨highest, fun _ => young⟩
      exact condensed.expired r mem keyed highest ⟨stone, by omega⟩ r
        (mem_filter.mpr ⟨mem, stays⟩) rfl
    · intro young
      have left := condensed.latest r mem keyed highest fun old => by
        have := old.2
        omega
      have found : r ∈ rs.filter (keeps (keyLatest rs) now graceNs) :=
        (mem_filter.mp (left ▸ mem_singleton_self r :
          r ∈ List.filter (fun r' => decide (r'.key = r.key)) _)).1
      grind
  · intro exact
    refine ⟨filter_sublist, ?_, ?_⟩
    · intro r mem keyed highest live
      have stays : keeps (keyLatest rs) now graceNs r = true := by
        refine (keeps_iff sorted mem keyed).mpr ⟨highest, fun stone => ?_⟩
        refine (exact r mem keyed highest stone).mpr ?_
        by_contra old
        exact live ⟨stone, by omega⟩
      obtain ⟨before, after, rfl, last⟩ := highest.split sorted mem
      generalize noted : keyLatest (before ++ r :: after) = latest at stays ⊢
      have front : before.filter
          (fun r' => decide (r'.key = r.key) && keeps latest now graceNs r') = [] := by
        refine filter_eq_nil_iff.mpr fun r' mem' => ?_
        by_cases same : r'.key = r.key
        · have below := (pairwise_append.mp sorted).2.2 r' mem' r (by simp)
          have offset : latest r'.key = some r.offset := by
            rw [← noted, same, keyLatest_last keyed last]
          grind [keeps_of_older]
        · simp [same]
      have back : after.filter
          (fun r' => decide (r'.key = r.key) && keeps latest now graceNs r') = [] :=
        filter_eq_nil_iff.mpr fun r' mem' => by simp [last r' mem']
      simp [stays, front, back]
    · intro r mem keyed highest old r' mem' same
      obtain ⟨inside, stays⟩ := mem_filter.mp mem'
      obtain ⟨also, young⟩ := (keeps_iff sorted inside (same ▸ keyed)).mp stays
      have offset : r'.offset = r.offset :=
        le_antisymm (highest r' inside same) (also r mem same.symm)
      obtain rfl := Record.eq_of_offset sorted inside mem offset
      have := (exact r' inside keyed highest old.1).mp (young old.1)
      have := old.2
      omega

end Exact

/-- **When a finished sweep has condensed the log.**  In every log whose closed
segments hold their records in offset order, a sweep that returns without an error
leaves of each key what it should, reports the number of records that went, and
leaves nothing to a second sweep at the same time, exactly if no key ends in a
tombstone whose age is distorted by 64-bit subtraction. -/
theorem compactPartition_condensed_iff (K : Codecs) (pl : PartitionLog)
    (sorted : (pl.sealedRecords K).Pairwise fun a b => a.offset < b.offset) (sweep : Sweep)
    (now64 : IsInt64 sweep.now) (ttl64 : IsInt64 sweep.tombstoneTTL)
    (faults : Int → Option RewriteFault)
    (ok : (compactPartition K pl sweep faults).2.2 = none) :
    (Condensed sweep.now sweep.graceNs (pl.sealedRecords K)
          ((compactPartition K pl sweep faults).1.sealedRecords K) ∧
        (compactPartition K pl sweep faults).2.1 =
          (pl.sealedRecords K).length -
            ((compactPartition K pl sweep faults).1.sealedRecords K).length ∧
        ∀ later, compactPartition K (compactPartition K pl sweep faults).1 sweep later =
          ((compactPartition K pl sweep faults).1, 0, none)) ↔
      ∀ r ∈ pl.sealedRecords K, r.key ≠ [] → Highest (pl.sealedRecords K) r →
        r.tombstone = true → AgeExact sweep.now sweep.graceNs r := by
  have grace64 : 0 ≤ sweep.graceNs ∧ IsInt64 sweep.graceNs := by
    unfold Sweep.graceNs IsInt64 at *
    omega
  have count := (compactPartition_done ok).2
  have again := compactPartition_again ok sorted
  rw [sealedRecords_done ok, and_iff_left ⟨by omega, again⟩]
  refine (condensed_iff sorted).trans (forall₂_congr fun r mem => ?_)
  rw [ageExact_iff now64 (PartitionLog.timestamp_range mem) grace64.1 grace64.2]

/-- The deletion of the key `[107]`, as `Producer.Tombstone` publishes it. -/
def deletion : Message :=
  ⟨"m", "t", 0, [], [(tombstoneHeaderKey, tombstoneHeaderValue)], [107], 0, 0, 0⟩

/-- A stand-in for JSON on a topic with that message only. -/
def deletionCodecs : Codecs where
  marshal m := leBytes 8 (uint64 m.offset)
  unmarshal b := some (deletion.setOffset (int64 (leNat b)))
  decompress _ _ := none
  exact m := m = deletion.setOffset m.offset ∧ IsInt64 m.offset
  exact_setOffset := by
    rintro m offset fits ⟨same, -⟩
    exact ⟨congrArg (fun m' => m'.setOffset offset) same, fits⟩
  unmarshal_marshal := by
    rintro m ⟨same, low, high⟩
    rw [int64_leNat_leBytes low high, ← same]

/-- Three deletions at that time; the first two are in a closed segment. -/
def deletions (time : Int) : PartitionLog :=
  ((openPartitionLog deletionCodecs 60 40 []).run deletionCodecs
    (List.replicate 3 (.append time deletion))).2

/-- **A tombstone of 292 years.**  It was written at time -1 and is swept, without
a grace period, at the largest time: the difference wraps and the tombstone stays. -/
theorem tombstone_outlives_grace :
    (compactPartition deletionCodecs (deletions (-1)) ⟨2 ^ 63 - 1, 0⟩ fun _ => none).2.2 = none ∧
      ¬ Condensed (2 ^ 63 - 1) 0 ((deletions (-1)).sealedRecords deletionCodecs)
        ((compactPartition deletionCodecs (deletions (-1)) ⟨2 ^ 63 - 1, 0⟩
          fun _ => none).1.sealedRecords deletionCodecs) := by
  have ok : (compactPartition deletionCodecs (deletions (-1)) ⟨2 ^ 63 - 1, 0⟩
      fun _ => none).2.2 = none := by decide +kernel
  refine ⟨ok, ?_⟩
  rw [sealedRecords_done ok]
  exact fun condensed => absurd ((condensed_iff (by decide +kernel)).mp condensed)
    (by decide +kernel)

/-- The same log swept a second later. -/
theorem compactPartition_condensed_deletions :
    Condensed (10 ^ 9) 0 ((deletions (-1)).sealedRecords deletionCodecs)
        ((compactPartition deletionCodecs (deletions (-1)) ⟨10 ^ 9, 0⟩
          fun _ => none).1.sealedRecords deletionCodecs) ∧
      (compactPartition deletionCodecs (deletions (-1)) ⟨10 ^ 9, 0⟩ fun _ => none).2.1 = 2 := by
  have done := (compactPartition_condensed_iff deletionCodecs (deletions (-1)) (by decide +kernel)
    ⟨10 ^ 9, 0⟩ (by decide) (by decide) (fun _ => none) (by decide +kernel)).mpr
    (by decide +kernel)
  exact ⟨done.1, by decide +kernel⟩

end PubsubBroker.Storage
