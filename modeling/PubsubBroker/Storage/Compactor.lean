/-
# Storage.Compactor — key compaction of the sealed segments

`internal/storage/compactor.go`.  A sweep scans every sealed segment, notes the
offset of the last record of each key, and then rewrites the segments one by one,
oldest first, keeping the records without a key, the last record of each key, and
of those only the tombstones that are younger than the grace period.  A rewrite
writes temporary files with the kept records and a rebuilt index, and renames
the log and then the index over the old files.

Any of these steps may fail (`RewriteFault`), and the sweep then stops where it
is.  `compactSegments_records` says what is in the log files in every case: a
front part of the records has been filtered, the rest is as it was.
-/
import PubsubBroker.Storage.PartitionLog
import PubsubBroker.Theory.Materialise

namespace PubsubBroker.Storage

open Theory List

/-- The clock and the configured grace period of a sweep, in nanoseconds. -/
structure Sweep where
  now : Int
  tombstoneTTL : Int

/-! ## First pass -/

/-- `scanSegment`: the records up to the end of the file, or the error a record
in front of it gives. -/
def scanSegment (K : Codecs) (seg : Segment) : Except ReadError (List Record) :=
  let scanned := scan (readRecord K seg.version) (seg.log.drop seg.dataStart)
  match readRecord K seg.version scanned.2 with
  | .ok _ => .ok scanned.1
  | .error e => if e.isEnd then .ok scanned.1 else .error e

/-- The step of a rewrite that failed: writing the temporary files, one of the
two renames, or opening the new files. -/
inductive RewriteFault where
  | temp
  | renameLog
  | renameIndex
  | reopen
deriving DecidableEq

/-- Why a sweep stopped, with the base offset of the segment. -/
inductive CompactError where
  | scan (segment : Int) (error : ReadError)
  | rewrite (segment : Int) (fault : RewriteFault)
deriving DecidableEq

def scanSegments (K : Codecs) : List Segment → Except (Int × ReadError) (List (List Record))
  | [] => .ok []
  | seg :: segs =>
    match scanSegment K seg with
    | .error e => .error (seg.baseOffset, e)
    | .ok recs => (scanSegments K segs).map (recs :: ·)

/-- The offset of the last record of each key.  Records without a key take no
part. -/
def keyLatest (recs : List Record) : Bytes → Option Int :=
  materialise Record.key (fun r => some r.offset) (recs.filter fun r => r.key ≠ [])

/-! ## Second pass -/

def keeps (latest : Bytes → Option Int) (now graceNs : Int) (r : Record) : Bool :=
  if r.key = [] then true
  else if r.offset ≠ (latest r.key).getD 0 then false
  else if r.tombstone then wrap64 (now - r.timestamp) < graceNs
  else true

structure TempFiles where
  log : Bytes
  index : Bytes
  byteSinceIndex : Nat

/-- One iteration of the rewrite loop; the position of the record is the size of
the temporary log so far. -/
def TempFiles.write (indexEvery : Int) (t : TempFiles) (raw : Bytes) : TempFiles :=
  let recOffset := int64 (leNat (raw.take 8))
  let due : Bool := ((t.byteSinceIndex + raw.length : Nat) : Int) ≥ indexEvery
  { log := t.log ++ raw
    index := if due then t.index ++ Segment.indexEntryBytes (recOffset, t.log.length) else t.index
    byteSinceIndex := if due then 0 else t.byteSinceIndex + raw.length }

def rewritten (seg : Segment) (keptRaw : List Bytes) : TempFiles :=
  keptRaw.foldl (TempFiles.write seg.indexEvery) ⟨fileHeader seg.version, [], 0⟩

/-- `rewriteSegment`, up to the step that failed. -/
def rewriteSegment (seg : Segment) (keptRaw : List Bytes) : Option RewriteFault → Segment
  | none =>
    { seg with
      log := (rewritten seg keptRaw).log, index := (rewritten seg keptRaw).index,
      logSize := (rewritten seg keptRaw).log.length, byteSinceIndex := 0 }
  | some .temp => seg
  | some .renameLog => { seg with logSize := seg.log.length, byteSinceIndex := 0 }
  | some .renameIndex =>
    { seg with
      log := (rewritten seg keptRaw).log, logSize := (rewritten seg keptRaw).log.length,
      byteSinceIndex := 0 }
  | some .reopen =>
    { seg with log := (rewritten seg keptRaw).log, index := (rewritten seg keptRaw).index }

/-- The loop of the second pass: the segments, the number of removed records, and
the error it stopped with. -/
def compactSegments (keep : Record → Bool) (faults : Int → Option RewriteFault) :
    List (Segment × List Record) → List Segment × Nat × Option CompactError
  | [] => ([], 0, none)
  | (seg, recs) :: rest =>
    let kept := recs.filter keep
    let droppedHere := recs.length - kept.length
    if droppedHere = 0 then
      let later := compactSegments keep faults rest
      (seg :: later.1, later.2)
    else
      match faults seg.baseOffset with
      | some fault =>
        (rewriteSegment seg (kept.map Record.raw) (some fault) :: rest.map Prod.fst, 0,
          some (.rewrite seg.baseOffset fault))
      | none =>
        let later := compactSegments keep faults rest
        (rewriteSegment seg (kept.map Record.raw) none :: later.1, droppedHere + later.2.1,
          later.2.2)

/-- `CompactPartition`. -/
def compactPartition (K : Codecs) (pl : PartitionLog) (sweep : Sweep)
    (faults : Int → Option RewriteFault) :
    PartitionLog × Nat × Option CompactError :=
  match scanSegments K pl.sealed with
  | .error (segment, e) => (pl, 0, some (.scan segment e))
  | .ok allRecords =>
    let graceNs := if sweep.tombstoneTTL < 0 then 0 else sweep.tombstoneTTL
    let swept := compactSegments (keeps (keyLatest allRecords.flatten) sweep.now graceNs) faults
      (pl.sealed.zip allRecords)
    ({ pl with sealed := swept.1 }, swept.2)

/-! ## What a scan returns -/

variable {K : Codecs}

theorem scanSegment_ok {seg : Segment} {recs : List Record} (ok : scanSegment K seg = .ok recs) :
    recs = seg.records K := by
  unfold scanSegment at ok
  simp only at ok
  split at ok
  · cases ok
    rfl
  · split at ok
    · cases ok
      rfl
    · cases ok

variable {segs : List Segment}

theorem scanSegments_of_each (each : ∀ s ∈ segs, scanSegment K s = .ok (s.records K)) :
    scanSegments K segs = .ok (segs.map (Segment.records K)) := by
  induction segs with
  | nil => rfl
  | cons seg segs ih => grind [scanSegments, Except.map]

theorem each_of_scanSegments {all : List (List Record)} (ok : scanSegments K segs = .ok all) :
    ∀ s ∈ segs, scanSegment K s = .ok (s.records K) := by
  induction segs generalizing all with
  | nil => simp
  | cons seg segs ih =>
    rw [scanSegments] at ok
    split at ok
    · cases ok
    · rename_i recs here
      cases later : scanSegments K segs with
      | error e => rw [later] at ok; cases ok
      | ok rest => grind [scanSegment_ok]

theorem scanSegments_ok {all : List (List Record)} (ok : scanSegments K segs = .ok all) :
    all = segs.map (Segment.records K) :=
  Except.ok.inj (ok.symm.trans (scanSegments_of_each (each_of_scanSegments ok)))

theorem zip_records (K : Codecs) (segs : List Segment) :
    segs.zip (segs.map (Segment.records K)) = segs.map fun s => (s, s.records K) := by
  rw [zip_map_right, zip_eq_zipWith, zipWith_self, map_map]
  rfl

/-- Every case of a sweep: nothing was touched, or the sealed segments went
through the second pass with the records they hold. -/
theorem compactPartition_cases (K : Codecs) (pl : PartitionLog) (sweep : Sweep)
    (faults : Int → Option RewriteFault) :
    (compactPartition K pl sweep faults).1 = pl ∨
      ∃ graceNs, (compactPartition K pl sweep faults).1 =
        { pl with sealed := (compactSegments
            (keeps (keyLatest (pl.sealed.flatMap (Segment.records K))) sweep.now graceNs) faults
            (pl.sealed.map fun s => (s, s.records K))).1 } := by
  unfold compactPartition
  split
  · exact .inl rfl
  · grind [scanSegments_ok, zip_records]

/-! ## What a rewrite leaves -/

section Rewrite

variable {K : Codecs}

theorem Segment.records_readable (s : Segment) :
    ∀ r ∈ s.records K, Readable K s.version r := by
  unfold Segment.records
  induction s.log.drop s.dataStart using scan_induction (readRecord_progress K s.version) with
  | stop input e refused => rw [scan_error refused]; simp
  | step input r rest read ih =>
    rw [scan_ok (readRecord_progress K s.version) read]
    intro r' mem
    cases mem with
    | head => exact (readRecord_local read).2
    | tail _ later => exact ih r' later

theorem Segment.records_of_log {s : Segment} {rs : List Record}
    (log : s.log = fileHeader s.version ++ frames Record.raw rs)
    (readable : ∀ r ∈ rs, Readable K s.version r) : s.records K = rs := by
  have scanned := scan_torn (readRecord_progress K s.version) (readable_delimits K s.version)
    (readRecord_nil K s.version) rs readable
  rw [append_nil] at scanned
  rw [Segment.records, log, s.laidOut, drop_left, scanned]

theorem TempFiles.log_foldl (indexEvery : Int) (raws : List Bytes) (t : TempFiles) :
    (raws.foldl (TempFiles.write indexEvery) t).log = t.log ++ raws.flatten := by
  induction raws generalizing t with
  | nil => simp
  | cons raw raws ih => rw [foldl_cons, ih]; simp [TempFiles.write]

theorem rewritten_log (seg : Segment) (kept : List Record) :
    (rewritten seg (kept.map Record.raw)).log =
      fileHeader seg.version ++ frames Record.raw kept := by
  rw [rewritten, TempFiles.log_foldl, frames, flatMap_def]

theorem rewriteSegment_records {seg : Segment} {kept : List Record}
    (subset : ∀ r ∈ kept, r ∈ seg.records K) (fault : Option RewriteFault) :
    (rewriteSegment seg (kept.map Record.raw) fault).records K = seg.records K ∨
      (rewriteSegment seg (kept.map Record.raw) fault).records K = kept := by
  have readable : ∀ r ∈ kept, Readable K seg.version r := fun r mem =>
    seg.records_readable r (subset r mem)
  cases fault with
  | none => exact .inr (Segment.records_of_log (rewritten_log seg kept) readable)
  | some fault =>
    cases fault with
    | temp | renameLog => exact .inl rfl
    | renameIndex | reopen => exact .inr (Segment.records_of_log (rewritten_log seg kept) readable)

theorem rewriteSegment_records_ok {seg : Segment} {kept : List Record}
    (subset : ∀ r ∈ kept, r ∈ seg.records K) :
    (rewriteSegment seg (kept.map Record.raw) none).records K = kept :=
  Segment.records_of_log (rewritten_log seg kept) fun r mem =>
    seg.records_readable r (subset r mem)

/-- **A sweep filters a front part of the records.**  The segments it reached
hold the kept ones, the segments behind hold what they held. -/
theorem compactSegments_records (keep : Record → Bool) (faults : Int → Option RewriteFault)
    (segs : List Segment) :
    ∃ front back, segs.flatMap (Segment.records K) = front ++ back ∧
      (compactSegments keep faults (segs.map fun s => (s, s.records K))).1.flatMap
        (Segment.records K) = front.filter keep ++ back := by
  induction segs with
  | nil => exact ⟨[], [], rfl, rfl⟩
  | cons seg segs ih =>
    have subset : ∀ r ∈ (seg.records K).filter keep, r ∈ seg.records K := fun r mem =>
      (mem_filter.mp mem).1
    obtain ⟨front, back, split, filtered⟩ := ih
    rw [map_cons, compactSegments, flatMap_cons, split]
    simp only
    split
    · -- nothing to drop in this segment
      rename_i nothing
      have all : (seg.records K).filter keep = seg.records K := by
        refine filter_sublist.eq_of_length_le ?_
        omega
      grind
    · split
      · rename_i fault failed
        rw [flatMap_cons, map_map]
        have rest : (segs.map (Prod.fst ∘ fun s => (s, s.records K))).flatMap
            (Segment.records K) = front ++ back := by
          rw [show (Prod.fst ∘ fun s : Segment => (s, s.records K)) = id from rfl, map_id,
            split]
        rw [rest]
        cases rewriteSegment_records subset (some fault) with
        | inl old => exact ⟨[], seg.records K ++ (front ++ back), rfl, by rw [old]; rfl⟩
        | inr new => exact ⟨seg.records K, front ++ back, rfl, by rw [new]⟩
      · refine ⟨seg.records K ++ front, back, by simp, ?_⟩
        grind [rewriteSegment_records_ok]

end Rewrite

/-! ## A sweep without faults keeps the log well-formed -/

section Invariant

variable {K : Codecs}
variable {rs : List Record}

theorem Segment.Addressable.sublist {kept : List Record} (addressable : Segment.Addressable rs)
    (sub : kept.Sublist rs) : Segment.Addressable kept := by
  intro before r after split
  subst split
  -- a kept record starts no later than it did
  obtain ⟨front, back, rfl, frontSub, backSub⟩ := append_sublist_iff.mp sub
  obtain ⟨skipped, rest, rfl, mem, -⟩ := cons_sublist_iff.mp backSub
  obtain ⟨skippedFront, skippedBack, rfl⟩ := append_of_mem mem
  have old := addressable (front ++ skippedFront) r (skippedBack ++ rest) (by simp)
  have shorter : (frames Record.raw before).length ≤
      (frames Record.raw (front ++ skippedFront)).length := by
    rw [frames_append, length_append]
    have := (frontSub.flatMap Record.raw).length_le
    exact le_trans this (Nat.le_add_right _ _)
  unfold IsInt64 at old ⊢
  omega

theorem TempFiles.foldl_indexed (indexEvery : Int) {version : UInt8} (kept : List Record) :
    ∀ (done : List Record) (t : TempFiles), t.log = segHeader ++ frames Record.raw done →
      (∃ es, t.index = frames Segment.indexEntryBytes es ∧ Segment.Indexed done es) →
      (∀ r ∈ kept, Readable K version r) →
      ((done ++ kept).Pairwise fun a b => a.offset < b.offset) →
      Segment.Addressable (done ++ kept) →
      ∃ es, ((kept.map Record.raw).foldl (TempFiles.write indexEvery) t).index =
        frames Segment.indexEntryBytes es ∧ Segment.Indexed (done ++ kept) es := by
  induction kept with
  | nil => grind
  | cons r kept ih =>
    intro done t log index readable sorted addressable
    obtain ⟨es, indexEq, indexed⟩ := index
    have offset := (readable r (by simp)).offset_word
    have last : ∀ r' ∈ done, r'.offset < r.offset := fun r' mem =>
      (pairwise_append.mp sorted).2.2 r' mem r (by simp)
    have regroup : done ++ r :: kept = (done ++ [r]) ++ kept := by simp
    have fits : IsInt64 r.offset := offset ▸ int64_range _
    have position := addressable done r kept rfl
    have size : t.log.length = segFileHeaderSize + (frames Record.raw done).length := by
      rw [log, length_append, segHeader_length]
    rw [regroup] at sorted addressable ⊢
    rw [map_cons, foldl_cons]
    refine ih (done ++ [r]) (t.write indexEvery r.raw) ?_ ?_
      (fun r' mem => readable r' (by simp [mem])) sorted addressable
    · simp [TempFiles.write, log]
    · simp only [TempFiles.write, offset, size]
      split
      · refine ⟨es ++ [(r.offset,
          ((segFileHeaderSize + (frames Record.raw done).length : Nat) : Int))],
          by simp [indexEq], ?_⟩
        exact indexed.concat last rfl rfl ⟨fits, position⟩
      · exact ⟨es, indexEq, indexed.append [r]⟩

/-- **A rewritten segment is clean** and holds the kept records. -/
theorem Segment.Clean.rewrite {seg : Segment} {kept : List Record} (clean : seg.Clean K rs)
    (sub : kept.Sublist rs) : (rewriteSegment seg (kept.map Record.raw) none).Clean K kept := by
  have header : fileHeader seg.version = segHeader := by
    rw [clean.version]
    rfl
  have log := rewritten_log seg kept
  rw [header] at log
  have readable : ∀ r ∈ kept, Readable K recordVersion r := fun r mem =>
    clean.readable r (sub.subset mem)
  have empty : ∃ es, ([] : Bytes) = frames Segment.indexEntryBytes es ∧ Segment.Indexed [] es :=
    ⟨[], rfl, ⟨Pairwise.nil, by simp, by simp⟩⟩
  have index := TempFiles.foldl_indexed seg.indexEvery kept [] ⟨fileHeader seg.version, [], 0⟩
    (by simp [header]) empty readable (clean.sorted.sublist sub) (clean.addressable.sublist sub)
  exact ⟨clean.version, log, rfl, index, clean.addressable.sublist sub, readable,
    clean.sorted.sublist sub, fun r mem => clean.range r (sub.subset mem), clean.base_le⟩

theorem Segment.Holds.scanSegment_eq {s : Segment} (holds : s.Holds K rs) :
    scanSegment K s = .ok rs := by
  obtain ⟨tail, e, log, refused, isEnd⟩ := holds.log
  have scanned := scan_torn (readRecord_progress K recordVersion)
    (readable_delimits K recordVersion) refused rs holds.readable
  unfold scanSegment
  rw [Segment.dataStart_eq holds.version, holds.version, log, ← segHeader_length, drop_left, scanned]
  simp only [refused, isEnd, if_true]

theorem scanSegments_eq {segs : List Segment} (holds : ∀ s ∈ segs, s.Holds K (s.records K)) :
    scanSegments K segs = .ok (segs.map (Segment.records K)) :=
  scanSegments_of_each fun s mem => (holds s mem).scanSegment_eq

theorem compactSegments_noError (keep : Record → Bool) (targets : List (Segment × List Record)) :
    (compactSegments keep (fun _ => none) targets).2.2 = none := by
  induction targets with
  | nil => rfl
  | cons target targets ih => grind [compactSegments]

theorem PartitionLog.WellFormed.compactPartition_noError {pl : PartitionLog}
    (wf : pl.WellFormed K) (sweep : Sweep) :
    (Storage.compactPartition K pl sweep fun _ => none).2.2 = none := by
  have scanned := @scanSegments_eq K pl.sealed fun s mem =>
    (wf.clean s (by simp [PartitionLog.segments, mem])).holds
  unfold Storage.compactPartition
  rw [scanned]
  exact compactSegments_noError _ _

/-- What the second pass makes of one segment when nothing fails. -/
def Segment.swept (K : Codecs) (keep : Record → Bool) (s : Segment) : Segment :=
  if (s.records K).length - ((s.records K).filter keep).length = 0 then s
  else rewriteSegment s (((s.records K).filter keep).map Record.raw) none

theorem compactSegments_ok (keep : Record → Bool) (segs : List Segment) :
    (compactSegments keep (fun _ => none) (segs.map fun s => (s, s.records K))).1 =
      segs.map (Segment.swept K keep) := by
  induction segs with
  | nil => rfl
  | cons seg segs ih => grind [compactSegments, Segment.swept]

theorem Segment.swept_spec (keep : Record → Bool) {s : Segment}
    (clean : s.Clean K (s.records K)) :
    (s.swept K keep).Clean K ((s.records K).filter keep) ∧
      (s.swept K keep).baseOffset = s.baseOffset ∧
      (s.swept K keep).nextOffset = s.nextOffset := by
  unfold Segment.swept
  split
  · rename_i nothing
    have all : (s.records K).filter keep = s.records K :=
      filter_sublist.eq_of_length_le (by omega)
    simp [clean, all]
  · exact ⟨clean.rewrite filter_sublist, rfl, rfl⟩

/-- **Key compaction keeps the log well-formed**, only removes records, and none
of the active segment. -/
theorem PartitionLog.WellFormed.compactPartition {pl : PartitionLog} (wf : pl.WellFormed K)
    (sweep : Sweep) :
    (Storage.compactPartition K pl sweep fun _ => none).1.WellFormed K ∧
      ((Storage.compactPartition K pl sweep fun _ => none).1.records K).Sublist (pl.records K) ∧
      (Storage.compactPartition K pl sweep fun _ => none).1.active = pl.active := by
  rcases compactPartition_cases K pl sweep fun _ => none with same | ⟨graceNs, eq⟩
  · simp [wf, same]
  · rw [eq, compactSegments_ok]
    generalize keeps _ sweep.now graceNs = keep
    have sealed : ∀ s ∈ pl.sealed, s.Clean K (s.records K) := fun s mem =>
      wf.clean s (by simp [PartitionLog.segments, mem])
    have held : ∀ s ∈ pl.sealed, (s.swept K keep).records K = (s.records K).filter keep :=
      fun s mem => (Segment.swept_spec keep (sealed s mem)).1.holds.records_eq
    have order := pairwise_append.mp wf.ordered
    refine ⟨⟨?_, ?_, wf.recovered, wf.limit, wf.room⟩, ?_, rfl⟩
    · intro s mem
      cases mem_append.mp mem with
      | inl old =>
        obtain ⟨t, memT, rfl⟩ := mem_map.mp old
        rw [held t memT]
        exact (Segment.swept_spec keep (sealed t memT)).1
      | inr active =>
        rw [mem_singleton.mp active]
        exact wf.active_clean
    · refine pairwise_append.mpr ⟨?_, pairwise_singleton _ _, ?_⟩
      · refine pairwise_map.mpr (Pairwise.imp_of_mem ?_ order.1)
        intro s t memS memT before
        obtain ⟨-, baseS, nextS⟩ := Segment.swept_spec keep (sealed s memS)
        obtain ⟨-, baseT, -⟩ := Segment.swept_spec keep (sealed t memT)
        exact ⟨by rw [nextS, baseT]; exact before.1, by rw [baseS, baseT]; exact before.2⟩
      · intro s mem t memT
        obtain ⟨s, memS, rfl⟩ := mem_map.mp mem
        obtain ⟨-, base, next⟩ := Segment.swept_spec keep (sealed s memS)
        rw [mem_singleton.mp memT]
        have before := wf.precedes_active memS
        exact ⟨by rw [next]; exact before.1, by rw [base]; exact before.2⟩
    · rw [PartitionLog.records_eq, PartitionLog.records_eq, flatMap_map]
      refine Sublist.append_right ?_ _
      refine Sublist.flatMap_right pl.sealed ?_
      intro s mem
      rw [held s mem]
      exact filter_sublist

end Invariant

end PubsubBroker.Storage
