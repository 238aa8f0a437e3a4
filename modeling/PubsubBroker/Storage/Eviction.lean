/-
# Storage.Eviction — a read beside a retention sweep

`Read`, `Compact` and `Append` of `internal/storage/partition_log.go` and `Segment.Read` of
`segment.go`, step by step.  A sweep takes the evicted segments out of the list under the lock and
then closes and removes their files, one after the other and without a lock.  A read copies the
list under the lock and goes through the copy: for each segment it looks at the next offset, then
takes the segment's lock, reads the index, opens the log file by its name and reads it.  Appends
go to the last segment, under its lock.

A segment that is evicted stays an object for the reads that have it in their copy, so `all` keeps
every segment and `listed` is the partition log without the evicted ones.  An index file that is
gone sends a read to the first record.  A log file that is gone makes it fail, unless the read has
opened it before.

`read_beside_sweep_iff` says when a read that runs beside one sweep and any appends returns what
it should; `read_loses_file` is a schedule in which it does not.
-/
import PubsubBroker.Storage.Rewrite
import PubsubBroker.Theory.Transition

namespace PubsubBroker.Storage.Eviction

open Theory List

/-! ## States -/

/-- What a sweep does to the files of an evicted segment, by its base offset. -/
inductive Removal where
  | closeLog (base : Int)
  | closeIndex (base : Int)
  | removeLog (base : Int)
  | removeIndex (base : Int)

inductive Sweeper where
  | idle
  | removing (todo : List Removal)

/-- Where a read is: the segments of its copy that it has not come to, by their base offsets, and
the messages it has.  From `seeking` to `reading` it has the lock of the segment `base`. -/
inductive Reader where
  | idle
  | next (segs : List Int) (msgs : List Message)
  | seeking (base : Int) (segs : List Int) (msgs : List Message)
  | opening (base pos : Int) (segs : List Int) (msgs : List Message)
  | reading (base pos : Int) (content : Bytes) (segs : List Int) (msgs : List Message)
  | returned (msgs : List Message)
  | failed
deriving DecidableEq

/-- The segment whose lock the read has. -/
def Reader.held : Reader → Option Int
  | .seeking base _ _ => some base
  | .opening base _ _ _ => some base
  | .reading base _ _ _ _ => some base
  | _ => none

def Reader.finished : Reader → Bool
  | .returned _ => true
  | .failed => true
  | _ => false

/-- The partition with a read and a sweep; `before` are the records in the log when the read
began. -/
structure World where
  all : PartitionLog
  evicted : List Int
  removedLogs : List Int
  removedIndexes : List Int
  sweeper : Sweeper
  reader : Reader
  before : List Record

def boot (pl : PartitionLog) : World := ⟨pl, [], [], [], .idle, .idle, []⟩

/-- The partition log: the segments that are not evicted. -/
def World.listed (w : World) : PartitionLog :=
  { w.all with sealed := w.all.sealed.filter fun s => decide (s.baseOffset ∉ w.evicted) }

/-- The segment with a base offset, evicted or not. -/
def object (pl : PartitionLog) (base : Int) : Option Segment :=
  pl.segments.find? fun s => decide (s.baseOffset = base)

/-! ## Steps -/

inductive Event where
  | append (now : Int) (msg : Message)
  | sweep (retention : Retention)
  | remove
  | copy
  | check
  | seek
  | openLog
  | readLog

def World.victims (w : World) (retention : Retention) : List Segment :=
  w.listed.sealed.filter fun s => w.listed.evicts retention s

def removals (s : Segment) : List Removal :=
  [.closeLog s.baseOffset, .closeIndex s.baseOffset, .removeLog s.baseOffset,
    .removeIndex s.baseOffset]

/-- A closed file can still be opened by its name. -/
def World.perform (w : World) : Removal → World
  | .closeLog _ => w
  | .closeIndex _ => w
  | .removeLog base => { w with removedLogs := base :: w.removedLogs }
  | .removeIndex base => { w with removedIndexes := base :: w.removedIndexes }

/-- The read has the messages of one more segment. -/
def afterSegment (maxCount : Int) (segs : List Int) (msgs : List Message) : Reader :=
  if maxCount ≤ msgs.length then .returned msgs else .next segs msgs

/-- What the read does next, and `none` if it is not at that point. -/
def World.read (K : Codecs) (start maxCount : Int) (w : World) : Event → Option Reader
  | .copy =>
    match w.reader with
    | .idle => some (.next (w.listed.segments.map Segment.baseOffset) [])
    | _ => none
  | .check =>
    match w.reader with
    | .next [] msgs => some (.returned msgs)
    | .next (base :: segs) msgs =>
      (object w.all base).map fun seg =>
        if seg.nextOffset ≤ start then .next segs msgs else .seeking base segs msgs
    | _ => none
  | .seek =>
    match w.reader with
    | .seeking base segs msgs =>
      (object w.all base).map fun seg =>
        let pos := if base ∈ w.removedIndexes then (seg.dataStart : Int) else seg.findPosition start
        .opening base pos segs msgs
    | _ => none
  | .openLog =>
    match w.reader with
    | .opening base pos segs msgs =>
      (object w.all base).map fun seg =>
        if base ∈ w.removedLogs then .failed else .reading base pos seg.log segs msgs
    | _ => none
  | .readLog =>
    match w.reader with
    | .reading base pos content segs msgs =>
      (object w.all base).map fun seg =>
        if pos < 0 then .failed
        else
          let input := content.drop pos.toNat
          match Segment.readLoop K seg.version start (input.length + 1)
              (maxCount - msgs.length).toNat input with
          | .error _ => .failed
          | .ok batch => afterSegment maxCount segs (msgs ++ batch)
    | _ => none
  | _ => none

def step (K : Codecs) (start maxCount : Int) (w : World) (e : Event) : Option World :=
  match e with
  | .append now msg =>
    -- The write waits for a read that has the lock of the segment it goes to.
    if w.reader.held = some (w.all.roll K).active.baseOffset then none
    else some { w with all := (w.all.append K now msg).1 }
  | .sweep retention =>
    match w.sweeper with
    | .idle =>
      some { w with
        evicted := w.evicted ++ (w.victims retention).map Segment.baseOffset
        sweeper := .removing ((w.victims retention).flatMap removals) }
    | _ => none
  | .remove =>
    match w.sweeper with
    | .removing (op :: todo) => some { w.perform op with sweeper := .removing todo }
    | _ => none
  | .copy =>
    (w.read K start maxCount .copy).map fun reader =>
      { w with reader := reader, before := w.listed.records K }
  | e => (w.read K start maxCount e).map fun reader => { w with reader := reader }

/-- Messages the record format represents, at int64 clock readings and offsets. -/
def Allowed (K : Codecs) (w : World) : Event → Prop
  | .append now msg => Writable K msg ∧ IsInt64 now ∧ IsInt64 w.all.nextOffset
  | _ => True

/-- What a read should return: records of the log by offset, and each record from the start on
that was there when the read began, unless the read is full of smaller ones. -/
structure Complete (K : Codecs) (start maxCount : Int) (all : PartitionLog) (before : List Record)
    (msgs : List Message) : Prop where
  sorted : msgs.Pairwise fun a b => a.offset < b.offset
  ours : ∀ m ∈ msgs, ∃ r ∈ all.records K, r.msg = m
  complete : ∀ r ∈ before, start ≤ r.offset →
    r.msg ∈ msgs ∨ maxCount ≤ msgs.length ∧ ∀ m ∈ msgs, m.offset < r.offset

/-- The read has returned that, and no error. -/
def World.Good (K : Codecs) (start maxCount : Int) (w : World) : Prop :=
  ∃ msgs, w.reader = .returned msgs ∧ Complete K start maxCount w.all w.before msgs

/-- The read is about to open a file that is gone. -/
def World.Missing (w : World) : Prop :=
  ∃ base pos segs msgs, w.reader = .opening base pos segs msgs ∧ base ∈ w.removedLogs

/-! ## Segments by their base offset -/

section

variable {K : Codecs} {pl : PartitionLog} {seg seg' : Segment} {base base' : Int}

theorem bases_nodup (wf : pl.WellFormed K) : (pl.segments.map Segment.baseOffset).Nodup :=
  pairwise_map.mpr (wf.ordered.imp fun order => order.2.ne)

theorem object_iff (wf : pl.WellFormed K) :
    object pl base = some seg ↔ seg ∈ pl.segments ∧ seg.baseOffset = base := by
  constructor
  · intro found
    have named := find?_some found
    exact ⟨mem_of_find?_eq_some found, of_decide_eq_true named⟩
  · rintro ⟨mem, rfl⟩
    cases found : object pl seg.baseOffset with
    | none => exact absurd (decide_eq_true rfl) (find?_eq_none.mp found seg mem)
    | some other =>
      have named := find?_some found
      have named : other.baseOffset = seg.baseOffset := of_decide_eq_true named
      rw [inj_on_of_nodup_map (bases_nodup wf) (mem_of_find?_eq_some found) mem named]

theorem next_le_base (wf : pl.WellFormed K) (found : object pl base = some seg)
    (found' : object pl base' = some seg') (before : base < base') : seg.nextOffset ≤ base' := by
  obtain ⟨mem, rfl⟩ := (object_iff wf).mp found
  obtain ⟨mem', rfl⟩ := (object_iff wf).mp found'
  obtain ⟨i, boundI, rfl⟩ := getElem_of_mem mem
  obtain ⟨j, boundJ, rfl⟩ := getElem_of_mem mem'
  have ordered := pairwise_iff_getElem.mp wf.ordered
  rcases lt_trichotomy i j with less | rfl | more
  · exact (ordered i j boundI boundJ less).1
  · exact absurd before (lt_irrefl _)
  · exact absurd (ordered j i boundJ boundI more).2 (not_lt.mpr before.le)

theorem object_clean (wf : pl.WellFormed K) (found : object pl base = some seg) :
    seg.Clean K (seg.records K) ∧ seg.baseOffset = base ∧ ∀ r ∈ seg.records K, r ∈ pl.records K := by
  obtain ⟨mem, named⟩ := (object_iff wf).mp found
  exact ⟨wf.clean seg mem, named, fun r held => mem_flatMap.mpr ⟨seg, mem, held⟩⟩

theorem mem_roll (mem : seg ∈ pl.segments) : seg ∈ (pl.roll K).segments := by
  unfold PartitionLog.roll
  split
  · exact mem_append_left _ mem
  · exact mem

/-- The log grows in one segment: all segments are there and keep their records, and no other
changes. -/
structure Grows (K : Codecs) (all all' : PartitionLog) (grown : Int) : Prop where
  records : ∀ r ∈ all.records K, r ∈ all'.records K
  object : ∀ {base : Int} {seg : Segment}, object all base = some seg →
    ∃ seg', object all' base = some seg' ∧ (∀ r ∈ seg.records K, r ∈ seg'.records K) ∧
      (base ≠ grown → seg' = seg)

/-- **An append changes one segment**, the one whose lock it has, and adds to its records. -/
theorem grows_append (wf : pl.WellFormed K) {now : Int} {msg : Message} (writable : Writable K msg)
    (now64 : IsInt64 now) (next64 : IsInt64 pl.nextOffset) :
    Grows K pl (pl.append K now msg).1 (pl.roll K).active.baseOffset := by
  obtain ⟨rolled, -, next, room⟩ := wf.roll
  obtain ⟨wf', records, -⟩ := wf.append writable now64 next64
  refine ⟨?_, ?_⟩
  · grind
  · intro base seg found
    obtain ⟨mem, rfl⟩ := (object_iff wf).mp found
    rcases mem_append.mp (mem_roll mem) with sealed | active
    · exact ⟨seg, (object_iff wf').mpr ⟨mem_append_left _ sealed, rfl⟩, fun r held => held,
        fun _ => rfl⟩
    · obtain rfl := mem_singleton.mp active
      rw [← next] at next64
      have written := (rolled.active_clean.write writable now64 next64 room).holds.records_eq
      refine ⟨((pl.roll K).active.write K now msg).1, ?_, ?_, fun other => absurd rfl other⟩
      · exact (object_iff wf').mpr ⟨mem_append_right _ (mem_singleton_self _), rfl⟩
      grind

end

/-! ## The sweep -/

theorem listed_sweep {K : Codecs} {w : World} (wf : w.all.WellFormed K) (retention : Retention) :
    World.listed { w with
      evicted := w.evicted ++ (w.victims retention).map Segment.baseOffset } =
      (w.listed.compact retention).1 := by
  have same : ∀ s ∈ w.all.sealed,
      decide (s.baseOffset ∉ w.evicted ++ (w.victims retention).map Segment.baseOffset) =
        (!w.listed.evicts retention s && decide (s.baseOffset ∉ w.evicted)) := by
    intro s mem
    by_cases gone : s.baseOffset ∈ w.evicted
    · simp [gone]
    · have victim : s.baseOffset ∈ (w.victims retention).map Segment.baseOffset ↔
          w.listed.evicts retention s = true := by
        constructor
        · intro evicted
          obtain ⟨t, chosen, named⟩ := mem_map.mp evicted
          obtain ⟨sealed, evicts⟩ := mem_filter.mp chosen
          have memT := (mem_filter.mp sealed).1
          rwa [← inj_on_of_nodup_map (bases_nodup wf) (mem_append_left _ memT)
            (mem_append_left _ mem) named]
        · intro evicts
          exact mem_map_of_mem (mem_filter.mpr
            ⟨mem_filter.mpr ⟨mem, decide_eq_true gone⟩, evicts⟩)
      simp [gone, victim]
  have kept : w.all.sealed.filter (fun s => decide (s.baseOffset ∉
      w.evicted ++ (w.victims retention).map Segment.baseOffset)) =
      (w.listed.sealed.filter fun s => !w.listed.evicts retention s) := by
    rw [World.listed, filter_filter, filter_congr same]
    rfl
  simp only [PartitionLog.compact, ← kept]
  rfl

/-! ## What a read has -/

/-- The read has the messages of the segments in front of `segs`. -/
structure Collected (K : Codecs) (start : Int) (all : PartitionLog) (before : List Record)
    (segs : List Int) (msgs : List Message) : Prop where
  ordered : segs.Pairwise (· < ·)
  there : ∀ base ∈ segs, ∃ seg, object all base = some seg
  sorted : msgs.Pairwise fun a b => a.offset < b.offset
  ours : ∀ m ∈ msgs, ∃ r ∈ all.records K, r.msg = m
  below : ∀ m ∈ msgs, ∀ base ∈ segs, m.offset < base
  complete : ∀ r ∈ before, start ≤ r.offset → r.msg ∈ msgs ∨
    ∃ base ∈ segs, ∃ seg, object all base = some seg ∧ r ∈ seg.records K

/-- The read starts in front of every record of the segment that it should return. -/
def Placed (K : Codecs) (start : Int) (all : PartitionLog) (base pos : Int) : Prop :=
  ∃ seg before after, object all base = some seg ∧ seg.records K = before ++ after ∧
    Lands seg.dataStart before after pos ∧ ∀ r ∈ before, r.offset < start

section

variable {K : Codecs} {start maxCount : Int} {all : PartitionLog} {before : List Record}
  {segs : List Int} {msgs : List Message} {base : Int} {seg : Segment}

theorem mem_messagesFrom {rs : List Record} (readable : ∀ r ∈ rs, Readable K recordVersion r)
    {m : Message} (mem : m ∈ Segment.messagesFrom start rs) :
    ∃ r ∈ rs, r.msg = m ∧ m.offset = r.offset := by
  obtain ⟨r, held, rfl⟩ := mem_map.mp mem
  have held := (mem_filter.mp held).1
  exact ⟨r, held, rfl, (readable r held).msg_offset⟩

theorem messagesFrom_sorted {rs : List Record} (readable : ∀ r ∈ rs, Readable K recordVersion r)
    (sorted : rs.Pairwise fun a b => a.offset < b.offset) :
    (Segment.messagesFrom start rs).Pairwise fun a b => a.offset < b.offset := by
  refine pairwise_map.mpr ((sorted.filter _).imp_of_mem ?_)
  intro a b memA memB less
  rw [(readable a (mem_filter.mp memA).1).msg_offset,
    (readable b (mem_filter.mp memB).1).msg_offset]
  exact less

theorem take_messagesFrom {rs : List Record} (readable : ∀ r ∈ rs, Readable K recordVersion r)
    (sorted : rs.Pairwise fun a b => a.offset < b.offset) {r : Record} (held : r ∈ rs)
    (reached : start ≤ r.offset) (room : Nat) :
    r.msg ∈ (Segment.messagesFrom start rs).take room ∨
      ((Segment.messagesFrom start rs).take room).length = room ∧
        ∀ m ∈ (Segment.messagesFrom start rs).take room, m.offset < r.offset := by
  have mem : r.msg ∈ Segment.messagesFrom start rs :=
    mem_map_of_mem (mem_filter.mpr ⟨held, decide_eq_true reached⟩)
  have ordered : (Segment.messagesFrom start rs).Pairwise fun a b => a.offset < b.offset :=
    messagesFrom_sorted readable sorted
  rw [← take_append_drop room (Segment.messagesFrom start rs)] at mem ordered
  rcases mem_append.mp mem with early | late
  · exact .inl early
  · right
    constructor
    · grind [length_drop]
    · intro m first
      rw [← (readable r held).msg_offset]
      grind

theorem Collected.extend (wf : all.WellFormed K) (collected : Collected K start all before (base :: segs) msgs)
    (found : object all base = some seg) (room : Nat) :
    let batch := (Segment.messagesFrom start (seg.records K)).take room
    (msgs ++ batch).Pairwise (fun a b => a.offset < b.offset) ∧
      (∀ m ∈ msgs ++ batch, ∃ r ∈ all.records K, r.msg = m) ∧
      (∀ m ∈ msgs ++ batch, ∀ base' ∈ segs, m.offset < base') ∧
      ∀ r ∈ before, start ≤ r.offset →
        r.msg ∈ msgs ++ batch ∨
          (batch.length = room ∧ ∀ m ∈ msgs ++ batch, m.offset < r.offset) ∨
          ∃ base' ∈ segs, ∃ seg', object all base' = some seg' ∧ r ∈ seg'.records K := by
  intro batch
  obtain ⟨clean, named, inside⟩ := object_clean wf found
  have readable := clean.readable
  have fromBatch : ∀ m ∈ batch, ∃ r ∈ seg.records K, r.msg = m ∧ m.offset = r.offset :=
    fun m mem => mem_messagesFrom readable (mem_of_mem_take mem)
  obtain ⟨first, ordered⟩ := pairwise_cons.mp collected.ordered
  refine ⟨?_, ?_, ?_, ?_⟩
  · refine pairwise_append.mpr ⟨collected.sorted, ?_, ?_⟩
    · exact (messagesFrom_sorted readable clean.sorted).sublist (take_sublist ..)
    · intro m old m' new
      obtain ⟨r, held, -, offset⟩ := fromBatch m' new
      have low := collected.below m old base (mem_cons_self ..)
      have high := (clean.range r held).1
      omega
  · grind [ours]
  · intro m mem base' later
    rcases mem_append.mp mem with old | new
    · exact collected.below m old base' (mem_cons_of_mem _ later)
    · obtain ⟨r, held, -, offset⟩ := fromBatch m new
      obtain ⟨seg', found'⟩ := collected.there base' (mem_cons_of_mem _ later)
      have high := next_le_base wf found found' (first base' later)
      have low := (clean.range r held).2
      omega
  · intro r mem reached
    rcases collected.complete r mem reached with old | ⟨base', mem, seg', found', held⟩
    · exact .inl (mem_append_left _ old)
    · rcases mem_cons.mp mem with rfl | later
      · rw [found, Option.some.injEq] at found'
        subst found'
        rcases take_messagesFrom readable clean.sorted held reached room with new | ⟨full, small⟩
        · exact .inl (mem_append_right _ new)
        · refine .inr (.inl ⟨full, fun m mem => ?_⟩)
          rcases mem_append.mp mem with old | new
          · have low := collected.below m old base' (mem_cons_self ..)
            have high := (clean.range r held).1
            omega
          · exact small m new
      grind

/-- **A segment is read**: the read is full and ends, or goes on with the next segment. -/
theorem Collected.afterSegment (wf : all.WellFormed K)
    (collected : Collected K start all before (base :: segs) msgs)
    (found : object all base = some seg) (maxCount : Int) :
    let msgs' := msgs ++ (Segment.messagesFrom start (seg.records K)).take
      (maxCount - msgs.length).toNat
    (afterSegment maxCount segs msgs' = .returned msgs' ∧
        Complete K start maxCount all before msgs') ∨
      afterSegment maxCount segs msgs' = .next segs msgs' ∧ Collected K start all before segs msgs' := by
  intro msgs'
  obtain ⟨sorted, ours, below, complete⟩ :=
    collected.extend wf found (maxCount - msgs.length).toNat
  by_cases full : maxCount ≤ msgs'.length
  · refine .inl ⟨if_pos full, sorted, ours, ?_⟩
    intro r mem reached
    rcases complete r mem reached with mem | ⟨-, small⟩ | ⟨base', later, seg', found', held⟩
    · exact .inl mem
    · exact .inr ⟨full, small⟩
    · refine .inr ⟨full, fun m mem => ?_⟩
      obtain ⟨clean, named, -⟩ := object_clean wf found'
      have low := below m mem base' later
      have high := (clean.range r held).1
      omega
  · refine .inr ⟨if_neg full, (pairwise_cons.mp collected.ordered).2, ?_, sorted, ours, below, ?_⟩
    · grind [there]
    grind

theorem Collected.skip (wf : all.WellFormed K)
    (collected : Collected K start all before (base :: segs) msgs) (found : object all base = some seg)
    (passed : seg.nextOffset ≤ start) : Collected K start all before segs msgs where
  ordered := (pairwise_cons.mp collected.ordered).2
  there base' later := collected.there base' (mem_cons_of_mem _ later)
  sorted := collected.sorted
  ours := collected.ours
  below m mem base' later := collected.below m mem base' (mem_cons_of_mem _ later)
  complete := by
    intro r mem reached
    refine (collected.complete r mem reached).imp_right ?_
    rintro ⟨base', mem, seg', found', held⟩
    rcases mem_cons.mp mem with rfl | later
    · rw [found, Option.some.injEq] at found'
      subst found'
      have small := ((object_clean wf found).1.range r held).2
      omega
    grind

theorem collected_copy {w : World} (wf : w.all.WellFormed K) :
    Collected K start w.all (w.listed.records K) (w.listed.segments.map Segment.baseOffset) [] := by
  have fewer : w.listed.segments.Sublist w.all.segments :=
    Sublist.append_right filter_sublist [w.all.active]
  have there : ∀ seg ∈ w.listed.segments, object w.all seg.baseOffset = some seg := fun seg mem =>
    (object_iff wf).mpr ⟨fewer.subset mem, rfl⟩
  refine ⟨?_, ?_, .nil, by simp, by simp, ?_⟩
  · exact pairwise_map.mpr ((wf.ordered.sublist fewer).imp fun order => order.2)
  · grind
  · intro r mem _
    obtain ⟨seg, listed, held⟩ := mem_flatMap.mp mem
    grind

/-- With the index or without it, a read starts in front of what it should return. -/
theorem placed_seek (wf : all.WellFormed K) (found : object all base = some seg)
    (unindexed : Prop) [Decidable unindexed] :
    Placed K start all base (if unindexed then (seg.dataStart : Int) else seg.findPosition start) := by
  obtain ⟨clean, -, -⟩ := object_clean wf found
  split
  · exact ⟨seg, [], seg.records K, found, rfl, .inl rfl, by simp⟩
  · obtain ⟨before, after, split, small, place⟩ := clean.holds.findPosition_cases start
    refine ⟨seg, before, after, found, split, .inl ?_, small⟩
    rw [place, Segment.dataStart_eq clean.version]

theorem Placed.readLoop (wf : all.WellFormed K) {pos : Int} (placed : Placed K start all base pos)
    (found : object all base = some seg) (room : Nat) :
    0 ≤ pos ∧
      Segment.readLoop K seg.version start ((seg.log.drop pos.toNat).length + 1) room
          (seg.log.drop pos.toNat) =
        .ok ((Segment.messagesFrom start (seg.records K)).take room) := by
  obtain ⟨seg', before, after, found', split, lands, small⟩ := placed
  rw [found, Option.some.injEq] at found'
  subst found'
  obtain ⟨clean, -, -⟩ := object_clean wf found
  have log : seg.log = fileHeader seg.version ++ frames Record.raw (before ++ after) := by
    rw [clean.log, clean.version, split]
    rfl
  have readable : ∀ r ∈ after, Readable K seg.version r := by
    rw [clean.version]
    grind [Segment.Clean.readable]
  refine ⟨lands.nonneg, ?_⟩
  rw [Segment.readLoop_landed log readable lands, split, PartitionLog.messagesFrom_append,
    PartitionLog.messagesFrom_eq_nil small, nil_append]

end

/-! ## The invariant -/

/-- What holds of a read at each point. -/
def Reader.Sound (K : Codecs) (start maxCount : Int) (all : PartitionLog) (before : List Record) :
    Reader → Prop
  | .idle => True
  | .next segs msgs => Collected K start all before segs msgs
  | .seeking base segs msgs => Collected K start all before (base :: segs) msgs
  | .opening base pos segs msgs =>
    Collected K start all before (base :: segs) msgs ∧ Placed K start all base pos
  | .reading base pos content segs msgs =>
    (Collected K start all before (base :: segs) msgs ∧ Placed K start all base pos) ∧
      ∀ seg, object all base = some seg → content = seg.log
  | .returned msgs => Complete K start maxCount all before msgs
  | .failed => True

structure World.Inv (K : Codecs) (start maxCount : Int) (w : World) : Prop where
  wf : w.all.WellFormed K
  reader : w.reader.Sound K start maxCount w.all w.before

section

variable {K : Codecs} {start maxCount : Int} {w w' : World} {all : PartitionLog}
  {before : List Record} {segs : List Int} {msgs : List Message} {base : Int}

/-! ### Appends -/

section

variable {all' : PartitionLog} {grown : Int} (grows : Grows K all all' grown)
include grows

theorem Complete.grow (complete : Complete K start maxCount all before msgs) :
    Complete K start maxCount all' before msgs where
  sorted := complete.sorted
  ours := by
    grind [ours, Grows.records]
  complete := complete.complete

theorem Collected.grow (collected : Collected K start all before segs msgs) :
    Collected K start all' before segs msgs where
  ordered := collected.ordered
  there := by
    grind [there, Grows.object]
  sorted := collected.sorted
  ours := by
    grind [ours, Grows.records]
  below := collected.below
  complete := by
    grind [complete, Grows.object]

theorem Grows.object_held {seg : Segment} (found : Eviction.object all base = some seg)
    (other : base ≠ grown) : Eviction.object all' base = some seg := by
  obtain ⟨seg', found', -, same⟩ := grows.object found
  rw [found', same other]

theorem Placed.grow {pos : Int} (placed : Placed K start all base pos) (other : base ≠ grown) :
    Placed K start all' base pos := by
  obtain ⟨seg, early, late, found, rest⟩ := placed
  exact ⟨seg, early, late, grows.object_held found other, rest⟩

theorem Reader.Sound.grow {reader : Reader} (sound : reader.Sound K start maxCount all before)
    (free : reader.held ≠ some grown) : reader.Sound K start maxCount all' before := by
  cases reader with
  | idle | failed => trivial
  | returned msgs => exact Complete.grow grows sound
  | next segs msgs | seeking base segs msgs => exact Collected.grow grows sound
  | opening base pos segs msgs =>
    have other : base ≠ grown := fun same => free (congrArg some same)
    exact ⟨sound.1.grow grows, sound.2.grow grows other⟩
  | reading base pos content segs msgs =>
    have other : base ≠ grown := fun same => free (congrArg some same)
    refine ⟨⟨sound.1.1.grow grows, sound.1.2.grow grows other⟩, ?_⟩
    intro seg found
    obtain ⟨old, -, -, found', -⟩ := sound.1.2
    rw [grows.object_held found' other, Option.some.injEq] at found
    subst found
    exact sound.2 old found'

end

/-! ### The read -/

theorem complete_of_collected (collected : Collected K start all before [] msgs) :
    Complete K start maxCount all before msgs where
  sorted := collected.sorted
  ours := collected.ours
  complete := by
    grind [Collected.complete]

/-- **One step of the read**, behind the copy.  It fails exactly if it is about to open a file
that is gone. -/
theorem World.Inv.read (inv : w.Inv K start maxCount) {e : Event} {reader : Reader}
    (behind : e ≠ .copy) (taken : w.read K start maxCount e = some reader) :
    reader.Sound K start maxCount w.all w.before ∧ (reader = .failed ↔ w.Missing) := by
  have sound := inv.reader
  cases e with
  | copy => exact absurd rfl behind
  | check =>
    cases point : w.reader with
    | next segs msgs =>
      rw [point] at sound
      have present : ¬ w.Missing := by simp [World.Missing, point]
      cases segs with
      | nil =>
        simp only [World.read, point, Option.some.injEq] at taken
        subst taken
        exact ⟨complete_of_collected sound, iff_of_false (by simp) present⟩
      | cons base segs =>
        simp only [World.read, point] at taken
        obtain ⟨seg, found, rfl⟩ := Option.map_eq_some_iff.mp taken
        split
        · rename_i passed
          exact ⟨Collected.skip inv.wf sound found passed, iff_of_false (by simp) present⟩
        · exact ⟨sound, iff_of_false (by simp) present⟩
    | _ => simp [World.read, point] at taken
  | seek =>
    cases point : w.reader with
    | seeking base segs msgs =>
      rw [point] at sound
      have present : ¬ w.Missing := by simp [World.Missing, point]
      simp only [World.read, point] at taken
      obtain ⟨seg, found, rfl⟩ := Option.map_eq_some_iff.mp taken
      exact ⟨⟨sound, placed_seek inv.wf found _⟩, iff_of_false (by simp) present⟩
    | _ => simp [World.read, point] at taken
  | openLog =>
    cases point : w.reader with
    | opening base pos segs msgs =>
      rw [point] at sound
      simp only [World.read, point] at taken
      obtain ⟨seg, found, rfl⟩ := Option.map_eq_some_iff.mp taken
      split
      · rename_i gone
        exact ⟨trivial, iff_of_true rfl ⟨base, pos, segs, msgs, point, gone⟩⟩
      · rename_i present
        refine ⟨⟨sound, ?_⟩, iff_of_false (by simp) ?_⟩
        · simp [found]
        · rintro ⟨base', pos', segs', msgs', point', gone⟩
          grind
    | _ => simp [World.read, point] at taken
  | readLog =>
    cases point : w.reader with
    | reading base pos content segs msgs =>
      rw [point] at sound
      have present : ¬ w.Missing := by simp [World.Missing, point]
      obtain ⟨⟨collected, placed⟩, same⟩ := sound
      simp only [World.read, point] at taken
      obtain ⟨seg, found, rfl⟩ := Option.map_eq_some_iff.mp taken
      obtain ⟨low, batch⟩ := placed.readLoop inv.wf found (maxCount - msgs.length).toNat
      rw [same seg found, if_neg (not_lt.mpr low), batch]
      dsimp only
      rcases collected.afterSegment inv.wf found maxCount with ⟨ended, complete⟩ | ⟨goes, collected⟩
      · rw [ended]
        exact ⟨complete, iff_of_false (by simp) present⟩
      · rw [goes]
        exact ⟨collected, iff_of_false (by simp) present⟩
    | _ => simp [World.read, point] at taken
  | _ => cases taken

theorem step_cases {e : Event} (taken : Eviction.step K start maxCount w e = some w') :
    (∃ now msg, e = .append now msg ∧ w.reader.held ≠ some (w.all.roll K).active.baseOffset ∧
        w' = { w with all := (w.all.append K now msg).1 }) ∨
      (w'.all = w.all ∧ w'.reader = w.reader ∧ w'.before = w.before) ∨
      w' = { w with
        reader := .next (w.listed.segments.map Segment.baseOffset) []
        before := w.listed.records K } ∨
      e ≠ .copy ∧ ∃ reader, w.read K start maxCount e = some reader ∧
        w' = { w with reader := reader } := by
  cases e with
  | append now msg =>
    obtain ⟨free, rfl⟩ := Option.ite_none_left_eq_some.mp taken |>.imp_right Option.some.inj
    simp [free]
  | sweep retention => grind [step]
  | remove =>
    simp only [Eviction.step] at taken
    split at taken
    · rename_i op todo _
      cases taken
      cases op <;> exact .inr (.inl ⟨rfl, rfl, rfl⟩)
    · cases taken
  | copy =>
    obtain ⟨reader, read, rfl⟩ := Option.map_eq_some_iff.mp taken
    grind [World.read]
  | _ =>
    obtain ⟨reader, read, rfl⟩ := Option.map_eq_some_iff.mp taken
    simp [read]

/-- **Every step keeps the invariant.** -/
theorem World.Inv.step (inv : w.Inv K start maxCount) {e : Event} (allowed : Allowed K w e)
    (taken : step K start maxCount w e = some w') : w'.Inv K start maxCount := by
  rcases step_cases taken with ⟨now, msg, rfl, free, rfl⟩ | ⟨all, reader, before⟩ | rfl |
    ⟨behind, reader, read, rfl⟩
  · obtain ⟨writable, now64, next64⟩ := allowed
    exact ⟨(inv.wf.append writable now64 next64).1,
      inv.reader.grow (grows_append inv.wf writable now64 next64) free⟩
  · refine ⟨all ▸ inv.wf, ?_⟩
    rw [all, reader, before]
    exact inv.reader
  · exact ⟨inv.wf, collected_copy inv.wf⟩
  · exact ⟨inv.wf, (inv.read behind read).1⟩

theorem World.Inv.moves (inv : w.Inv K start maxCount) (going : w.reader.finished = false) :
    ∃ e ∈ [Event.copy, .check, .seek, .openLog, .readLog],
      (Eviction.step K start maxCount w e).isSome := by
  have sound := inv.reader
  cases point : w.reader with
  | idle => exact ⟨.copy, by simp, by simp [Eviction.step, World.read, point]⟩
  | next segs msgs =>
    rw [point] at sound
    refine ⟨.check, by simp, ?_⟩
    cases segs with
    | nil => simp [Eviction.step, World.read, point]
    | cons base segs =>
      obtain ⟨seg, found⟩ := sound.there base (mem_cons_self ..)
      simp [Eviction.step, World.read, point, found]
  | seeking base segs msgs =>
    rw [point] at sound
    obtain ⟨seg, found⟩ := sound.there base (mem_cons_self ..)
    exact ⟨.seek, by simp, by simp [Eviction.step, World.read, point, found]⟩
  | opening base pos segs msgs =>
    rw [point] at sound
    obtain ⟨seg, found⟩ := sound.1.there base (mem_cons_self ..)
    exact ⟨.openLog, by simp, by simp [Eviction.step, World.read, point, found]⟩
  | reading base pos content segs msgs =>
    rw [point] at sound
    obtain ⟨seg, found⟩ := sound.1.1.there base (mem_cons_self ..)
    exact ⟨.readLog, by simp, by simp [Eviction.step, World.read, point, found]⟩
  | returned | failed => simp [Reader.finished, point] at going

theorem inv_reached {pl : PartitionLog} (wf : pl.WellFormed K)
    (run : Reaches (Eviction.step K start maxCount) (Allowed K) (boot pl) w) :
    w.Inv K start maxCount := by
  induction run with
  | init => exact ⟨wf, trivial⟩
  | step _ allowed taken ih => exact ih.step allowed taken

end

/-- **When a read beside a sweep is right**, in every interleaving of its steps with those of one
sweep and with appends, from any well-formed log: the step that ends the read leaves it without an
error and with the records it should return, exactly if the read was not about to open a log file
that the sweep had removed. -/
theorem read_beside_sweep_iff (K : Codecs) {pl : PartitionLog} (wf : pl.WellFormed K)
    (start maxCount : Int) {w w' : World} {e : Event}
    (run : Reaches (step K start maxCount) (Allowed K) (boot pl) w) (allowed : Allowed K w e)
    (going : w.reader.finished = false) (taken : step K start maxCount w e = some w')
    (done : w'.reader.finished = true) : w'.Good K start maxCount ↔ ¬ w.Missing := by
  have inv := inv_reached wf run
  have inv' := inv.step allowed taken
  have good : w'.Good K start maxCount ↔ w'.reader ≠ .failed := by
    constructor
    · rintro ⟨msgs, returned, -⟩ failed
      grind
    · intro alive
      cases point : w'.reader with
      | returned msgs =>
        have complete := inv'.reader
        rw [point] at complete
        exact ⟨msgs, point, complete⟩
      | failed => exact absurd point alive
      | _ => simp [Reader.finished, point] at done
  rw [good, not_iff_not]
  rcases step_cases taken with ⟨now, msg, -, -, rfl⟩ | ⟨-, same, -⟩ | rfl |
    ⟨behind, reader, read, rfl⟩
  · rw [going] at done
    cases done
  · rw [same, going] at done
    cases done
  · cases done
  · exact (inv.read behind read).2

/-! ## Schedules -/

instance (w : World) : DecidablePred (Allowed sampleCodecs w) := by
  rintro (_ | _) <;> unfold Allowed <;> infer_instance

/-- An hour of retention, long after all files were written. -/
def sampleRetention : Retention := ⟨1, 0, 10000000000000, fun _ => some 0⟩

/-- Two segments of one record, the first of which will be evicted. -/
def twoSegments : List Event := [.append 1 sampleMessage, .append 2 sampleMessage]

def runSchedule (events : List Event) : Option World :=
  runAll (step sampleCodecs 0 10) (Allowed sampleCodecs) (boot (openPartitionLog sampleCodecs 30 40 []))
    (twoSegments ++ events)

/-- **A read fails** because the sweep removes the log file of the first segment between the copy
of the list and the opening of the file. -/
theorem read_loses_file :
    (runSchedule [.copy, .check, .seek, .sweep sampleRetention, .remove, .remove, .remove,
      .openLog]).map (·.reader) = some .failed := by
  decide +kernel

/-- The file is opened in time, and the index of the first segment is not needed. -/
def inTime : List Event :=
  [.copy, .check, .sweep sampleRetention, .seek, .remove, .openLog, .remove, .remove, .remove,
    .append 3 sampleMessage, .readLog, .check, .seek, .openLog, .readLog]

theorem read_beside_sweep_inTime :
    ∃ w w', runSchedule inTime = some w ∧ step sampleCodecs 0 10 w .check = some w' ∧
      w'.Good sampleCodecs 0 10 := by
  have ran : (runSchedule inTime).bind (fun w => (step sampleCodecs 0 10 w .check).map fun w' =>
      (w.reader.finished, w'.reader.finished)) = some (false, true) := by
    decide +kernel
  obtain ⟨w, run, last⟩ := Option.bind_eq_some_iff.mp ran
  obtain ⟨w', taken, ends⟩ := Option.map_eq_some_iff.mp last
  obtain ⟨going, done⟩ := Prod.ext_iff.mp ends
  obtain ⟨wf, -⟩ := @PartitionLog.openPartitionLog_nil sampleCodecs 30 40 (by decide) (by decide)
  refine ⟨w, w', run, taken, ?_⟩
  have allowed : Allowed sampleCodecs w .check := trivial
  refine (read_beside_sweep_iff sampleCodecs wf 0 10 (Reaches.init.run run) allowed going taken
    done).mpr ?_
  rintro ⟨base, pos, segs, msgs, point, -⟩
  simp [step, World.read, point] at taken

end PubsubBroker.Storage.Eviction
