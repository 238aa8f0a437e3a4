/-
# Consumers.Seek — where a group continues after a seek

`handleSeek` of `internal/broker/handlers_seek.go` with `OffsetForTimestamp` of
`internal/storage/partition_log.go`, and the polls of `PollPartitionLog` that follow.  A seek
stores, for each partition of the topic, the offset in front of the one it wants, as if that
one had been consumed; -1 stands for none.  A poll turns this back: it starts behind the stored
offset, or at 0.

`Target.first` says which record a seek asks for: the first one at or behind an offset, the
first one that is appended later, the first one there is, or the first one with a late enough
timestamp.  After a seek the group runs through the machine of `Consumers.Pull`, while the
partition grows; the first message it receives is the one at or behind the stored offset plus
one (`Sought.reached`).  This is the record the seek asked for, with one exception: a seek to the
end of a partition that never held a record stores 0 instead of -1, and the first record that
is appended is skipped (`seek_then_poll_iff`, `seek_end_skips`).
-/
import PubsubBroker.Consumers.Pull
import PubsubBroker.Offsets.Durability

/-! ## Timestamps -/

namespace PubsubBroker.Storage.PartitionLog

/-- The loop of `OffsetForTimestamp` over the segments. -/
def firstSince (K : Codecs) (ts : Int) : List Segment → Option Int
  | [] => none
  | seg :: segs =>
    match (seg.records K).find? fun r => ts ≤ r.msg.timestamp with
    | some r => some r.offset
    | none => firstSince K ts segs

/-- `OffsetForTimestamp`. -/
def offsetForTimestamp (K : Codecs) (pl : PartitionLog) (ts : Int) : Int :=
  (firstSince K ts pl.segments).getD pl.nextOffset

theorem firstSince_eq (K : Codecs) (ts : Int) (segs : List Segment) :
    firstSince K ts segs = ((segs.flatMap (Segment.records K)).find? fun r =>
      ts ≤ r.msg.timestamp).map Record.offset := by
  induction segs with
  | nil => rfl
  | cons seg segs ih =>
    rw [firstSince, List.flatMap_cons, List.find?_append]
    grind

end PubsubBroker.Storage.PartitionLog

namespace PubsubBroker.Consumers

open Theory Storage List Option
open Offsets (SeekRequest seekOffset OffsetStore OffsetRecord offsetKey)

/-! ## The handler -/

/-- The offset `handleSeek` stores for a partition. -/
def seekPartition (K : Codecs) (req : SeekRequest) (p : Nat) (pl : PartitionLog) : OffsetRecord :=
  ⟨req.group, req.topic, p,
    seekOffset req ⟨p, pl.nextOffset, pl.offsetForTimestamp K req.timestampNs⟩⟩

/-- The offset `handleSeek` reports for it. -/
def reportOff (newOff : Int) : Int := if newOff + 1 < 0 then 0 else newOff + 1

/-- The loop of `handleSeek` over the partitions of the topic: the offset store behind it, and
the reported offsets. -/
def handleSeek (K : Codecs) (req : SeekRequest) (logs : List PartitionLog) (offsets : OffsetStore) :
    OffsetStore × List Int :=
  let targets := logs.mapIdx (seekPartition K req)
  (targets.foldl OffsetStore.commit offsets, targets.map fun r => reportOff r.offset)

theorem offsetKey_partition {group topic : Offsets.Name} {p q : Int}
    (same : offsetKey group topic p = offsetKey group topic q) : p = q := by
  have split : ∀ p : Int, offsetKey group topic p =
      (group ++ '/' :: topic ++ ['/']) ++ Offsets.decimal p := by
    intro p
    simp [offsetKey]
  rw [split, split] at same
  have numbers := congrArg Offsets.scanDecimal (append_cancel_left same)
  rw [Offsets.scanDecimal_decimal, Offsets.scanDecimal_decimal] at numbers
  exact some.inj numbers

theorem handleSeek_lookup (K : Codecs) (req : SeekRequest) {logs : List PartitionLog}
    (offsets : OffsetStore) {p : Nat} {pl : PartitionLog} (at_p : logs[p]? = some pl) :
    (handleSeek K req logs offsets).1.lookup (offsetKey req.group req.topic p) =
      some (seekPartition K req p pl).offset := by
  have mem : seekPartition K req p pl ∈ logs.mapIdx (seekPartition K req) := by grind
  have unique : ((logs.mapIdx (seekPartition K req)).map OffsetRecord.key).Nodup := by
    rw [nodup_iff_injective_getElem]
    intro i j same
    simp only [getElem_map, getElem_mapIdx] at same
    exact Fin.ext (Int.ofNat_inj.mp (offsetKey_partition same))
  have last := Offsets.latest_of_nodup unique mem
  rw [handleSeek, Offsets.lookup_foldl_commit,
    show offsetKey req.group req.topic p = (seekPartition K req p pl).key from rfl, last]
  rfl

/-! ## The group after a seek -/

/-- The partition grows, and the group polls, is cancelled and commits. -/
def Growing (K : Codecs) (s : Pull) : Event → Prop
  | .op (.append now msg) => Writable K msg ∧ IsInt64 now ∧ IsInt64 s.log.nextOffset
  | .op _ => False
  | .poll batchSize => 1 ≤ batchSize
  | _ => True

/-- A log with records added at its end, the first of them at the old next offset. -/
structure Grown (K : Codecs) (old new : PartitionLog) (later : List Record) : Prop where
  wf : new.WellFormed K
  records : new.records K = old.records K ++ later
  next : old.nextOffset + later.length = new.nextOffset
  first : ∀ r ∈ later.head?, r.offset = old.nextOffset

section

variable {K : Codecs} {old new : PartitionLog} {later : List Record}

theorem Grown.append (grown : Grown K old new later) {now : Int} {msg : Message}
    (writable : Writable K msg) (now64 : IsInt64 now) (next64 : IsInt64 new.nextOffset) :
    Grown K old (new.append K now msg).1
      (later ++ [recordOf K new.nextOffset now msg recordVersion]) := by
  obtain ⟨wf, records, next, -⟩ := grown.wf.append writable now64 next64
  refine ⟨wf, ?_, ?_, ?_⟩
  · grind [records]
  · grind [next]
  · intro r head
    cases later with
    | nil =>
      cases head
      have same := grown.next
      simp only [length_nil] at same
      show new.nextOffset = _
      omega
    | cons r' rest => exact grown.first r head

theorem Grown.later_ge (grown : Grown K old new later) {r : Record} (mem : r ∈ later) :
    old.nextOffset ≤ r.offset := by
  have sorted := grown.wf.records_sorted
  rw [grown.records] at sorted
  have sorted := (pairwise_append.mp sorted).2.1
  cases later with
  | nil => cases mem
  | cons first rest =>
    have here := grown.first first rfl
    rcases mem_cons.mp mem with rfl | inRest
    · exact here.ge
    · have behind := (pairwise_cons.mp sorted).1 r inRest
      omega

end

/-- The first record at or behind an offset. -/
def firstFrom (start : Int) (rs : List Record) : Option Record := rs.find? fun r => start ≤ r.offset

theorem firstFrom_self {rs : List Record} (sorted : rs.Pairwise fun a b => a.offset < b.offset)
    {r : Record} (mem : r ∈ rs) : firstFrom r.offset rs = some r := by
  obtain ⟨before, after, rfl⟩ := append_of_mem mem
  refine find?_eq_some_iff_append.mpr ⟨by simp, before, after, rfl, ?_⟩
  intro r' inFront
  have less := (pairwise_append.mp sorted).2.2 r' inFront r (mem_cons_self ..)
  simpa using less

theorem firstFrom_head {start : Int} {rs : List Record} (behind : ∀ r ∈ rs, start ≤ r.offset) :
    firstFrom start rs = rs.head? := by
  cases rs with
  | nil => rfl
  | cons r rest => exact find?_cons_of_pos (decide_eq_true (behind r (mem_cons_self ..)))

theorem firstFrom_later {start : Int} {rs later : List Record}
    (early : ∀ r ∈ rs, r.offset < start) (late : ∀ r ∈ later, start ≤ r.offset) :
    firstFrom start (rs ++ later) = later.head? := by
  have none : rs.find? (fun r => start ≤ r.offset) = none := by simp; omega
  rw [firstFrom, find?_append, none, none_or]
  exact firstFrom_head late

theorem firstFrom_append {start : Int} {rs later : List Record} {r : Record}
    (found : firstFrom start rs = some r) : firstFrom start (rs ++ later) = some r := by
  rw [firstFrom, find?_append, show rs.find? _ = some r from found]
  rfl

theorem head_messagesFrom (start : Int) (rs : List Record) :
    (Segment.messagesFrom start rs).head? = (firstFrom start rs).map Record.msg := by
  rw [Segment.messagesFrom, head?_map, head?_filter]
  rfl

/-- The group has received nothing and will start at that offset, or the first message it
received is that of the first record from there on. -/
inductive Sought (K : Codecs) (sub : Subscription) (start : Int) (s : Pull) : Prop where
  | waiting (nothing : s.received = [])
      (stored : startOffset s.manager.offsets sub.group sub.topic sub.partition = start)
      (phase : s.phase = .idle ∨ ∃ batchSize, s.phase = .polling start batchSize)
  | received {r : Record} (found : firstFrom start (s.log.records K) = some r)
      (first : s.received.head? = some r.msg)

section

variable {K : Codecs} {sub : Subscription} {start : Int} {s s' : Pull} {old : PartitionLog}
variable {later : List Record}

theorem Sought.keep {r : Record} (found : firstFrom start (s.log.records K) = some r)
    (first : s.received.head? = some r.msg) {more : List Record} {msgs : List Message}
    (records : s'.log.records K = s.log.records K ++ more)
    (received : s'.received = s.received ++ msgs) : Sought K sub start s' := by
  refine .received (r := r) ?_ ?_
  · rw [records]
    exact firstFrom_append found
  · simp [first, received]

theorem Sought.read (wf : s.log.WellFormed K) (sought : Sought K sub start s)
    {batchSize startOff : Int} {msgs : List Message} {last : Message}
    (polling : s.phase = .polling startOff batchSize)
    (read : s.log.read K startOff batchSize = .ok msgs) (some : msgs.getLast? = some last) :
    Sought K sub start { s with phase := .fetched last.offset, received := s.received ++ msgs } := by
  cases sought with
  | received found first => exact .keep found first (append_nil _).symm rfl
  | waiting nothing stored phase =>
    have started : startOff = start := by grind
    subst started
    cases (wf.read_eq startOff batchSize).symm.trans read
    have head : ((Segment.messagesFrom startOff (s.log.records K)).take batchSize.toNat).head? =
        (Segment.messagesFrom startOff (s.log.records K)).head? := by
      rw [head?_take, if_neg]
      intro zero
      rw [zero] at some
      cases some
    rw [head_messagesFrom] at head
    cases found : firstFrom startOff (s.log.records K) with
    | none => grind [head?_eq_none_iff]
    | some r =>
      rw [found] at head
      exact .received found (by rw [nothing, nil_append, head]; rfl)

/-- **One step of the group or of the partition.** -/
theorem Sought.step {e : Event} (grown : Grown K old s.log later) (sought : Sought K sub start s)
    (ok : Growing K s e) (taken : s.step K sub e = some s') :
    ∃ later', Grown K old s'.log later' ∧ Sought K sub start s' := by
  -- what is received stays received; what differs is a group that still waits
  revert taken
  fun_cases Pull.step K sub s e with
  | case1 op =>
    rintro ⟨⟩
    cases op with
    | append now msg =>
      refine ⟨_, grown.append ok.1 ok.2.1 ok.2.2, ?_⟩
      obtain ⟨-, records, -⟩ := grown.wf.append ok.1 ok.2.1 ok.2.2
      cases sought with
      | waiting nothing stored phase => exact .waiting nothing stored phase
      | received found first => exact .keep found first records (append_nil _).symm
    | _ => exact ok.elim
  | case2 =>
    rintro ⟨⟩
    refine ⟨later, grown, ?_⟩
    cases sought with
    | waiting nothing stored phase =>
      exact .waiting nothing (by rw [Manager.subscribe_offsets]; exact stored) phase
    | received found first => exact .received found first
  | case3 =>
    rintro ⟨⟩
    refine ⟨later, grown, ?_⟩
    cases sought with
    | waiting nothing stored phase => exact .waiting nothing stored phase
    | received found first => exact .received found first
  | case4 batchSize =>
    rintro ⟨⟩
    refine ⟨later, grown, ?_⟩
    cases sought with
    | waiting nothing stored phase =>
      exact .waiting nothing stored (.inr ⟨batchSize, by rw [stored]⟩)
    | received found first => exact .received found first
  | case6 startOff batchSize polling _ failed =>
    rw [grown.wf.read_eq] at failed
    cases failed
  | case7 | case8 => grind [read, Grown.wf]
  | case10 =>
    rintro ⟨⟩
    refine ⟨later, grown, ?_⟩
    cases sought with
    | waiting nothing stored phase => exact .waiting nothing stored (.inl rfl)
    | received found first => exact .received found first
  | case12 | case13 =>
    rintro ⟨⟩
    cases sought with
    | waiting nothing stored phase => grind
    | received found first => exact ⟨later, grown, .received found first⟩
  | _ => rintro ⟨⟩

theorem Sought.idle (pl : PartitionLog) {manager : Manager} {offset : Int}
    (stored : startOffset manager.offsets sub.group sub.topic sub.partition = offset) :
    Sought K sub offset (Pull.start pl manager) :=
  .waiting rfl stored (.inl rfl)

theorem Sought.reached {origin : Pull} (sought : Sought K sub start origin)
    (grown : Grown K old origin.log [])
    (run : Reaches (Pull.step K sub) (Growing K) origin s) :
    ∃ later, Grown K old s.log later ∧ Sought K sub start s := by
  induction run with
  | init => exact ⟨[], grown, sought⟩
  | step _ ok taken ih =>
    obtain ⟨later, grown, sought⟩ := ih
    exact sought.step grown ok taken

end

/-! ## What a seek asks for -/

inductive Target where
  | offset (offset : Int)
  | toEnd
  | toBeginning
  | timestamp (ts : Int)

/-- An offset takes precedence over the end, and the end over a timestamp; the timestamp 0
stands for the beginning. -/
def target (req : SeekRequest) : Target :=
  match req.offset.filter (0 ≤ ·) with
  | some offset => .offset offset
  | none =>
    if req.toEnd then .toEnd
    else if req.timestampNs = 0 then .toBeginning
    else .timestamp req.timestampNs

/-- The record a seek asks for, when the log holds `rs` and `later` is appended. -/
def Target.first (rs later : List Record) : Target → Option Record
  | .offset wanted => firstFrom wanted (rs ++ later)
  | .toEnd => later.head?
  | .toBeginning => (rs ++ later).head?
  | .timestamp ts => (rs.find? fun r => ts ≤ r.msg.timestamp).or later.head?

/-- The offset the next poll starts at. -/
def Target.start (K : Codecs) (pl : PartitionLog) : Target → Int
  | .offset wanted => wanted
  | .toEnd => if pl.nextOffset > 0 then pl.nextOffset else 1
  | .toBeginning => 0
  | .timestamp ts =>
    if pl.offsetForTimestamp K ts > 0 then pl.offsetForTimestamp K ts else 0

section

variable {K : Codecs} {pl new : PartitionLog} {later : List Record}

theorem reportOff_seek (K : Codecs) (req : SeekRequest) (p : Nat) (pl : PartitionLog) :
    reportOff (seekPartition K req p pl).offset = (target req).start K pl ∧
      -1 ≤ (seekPartition K req p pl).offset := by
  unfold reportOff seekPartition seekOffset target
  cases given : req.offset.filter (0 ≤ ·) with
  | some offset =>
    have nonneg : 0 ≤ offset := by
      have := (filter_eq_some_iff.mp given).2
      simpa using this
    simp only [Target.start]
    omega
  | none => grind [Target.start]

theorem offset_nonneg (wf : pl.WellFormed K) (low : ∀ s ∈ pl.segments, 0 ≤ s.baseOffset) :
    (∀ r ∈ pl.records K, 0 ≤ r.offset) ∧ 0 ≤ pl.nextOffset := by
  constructor
  · intro r mem
    obtain ⟨s, held, inside⟩ := mem_flatMap.mp mem
    exact (low s held).trans ((wf.clean s held).range r inside).1
  · have mem : pl.active ∈ pl.segments := by simp [PartitionLog.segments]
    exact (low _ mem).trans (wf.clean _ mem).base_le

theorem offsetForTimestamp_eq (K : Codecs) (pl : PartitionLog) (ts : Int) :
    pl.offsetForTimestamp K ts = (((pl.records K).find? fun r =>
      ts ≤ r.msg.timestamp).map Record.offset).getD pl.nextOffset := by
  rw [PartitionLog.offsetForTimestamp, PartitionLog.firstSince_eq]
  rfl

theorem timestamp_start (wf : pl.WellFormed K) (low : ∀ s ∈ pl.segments, 0 ≤ s.baseOffset)
    (ts : Int) : (Target.timestamp ts).start K pl = pl.offsetForTimestamp K ts := by
  obtain ⟨nonneg, next⟩ := offset_nonneg wf low
  have low : 0 ≤ pl.offsetForTimestamp K ts := by
    rw [offsetForTimestamp_eq]
    cases late : (pl.records K).find? fun r => ts ≤ r.msg.timestamp with
    | none => exact next
    | some r => exact nonneg r (mem_of_find?_eq_some late)
  rw [Target.start]
  split
  · rfl
  · omega

/-- **The first record from the start on is the one asked for**, but for the end of a
partition that never held one. -/
theorem first_eq_iff (wf : pl.WellFormed K) (low : ∀ s ∈ pl.segments, 0 ≤ s.baseOffset)
    (grown : Grown K pl new later) (t : Target) {r : Record}
    (found : firstFrom (t.start K pl) (new.records K) = some r) :
    t.first (pl.records K) later = some r ↔ ¬ (t = .toEnd ∧ pl.nextOffset = 0) := by
  obtain ⟨nonneg, next⟩ := offset_nonneg wf low
  have appended := firstFrom_later (fun r mem => wf.records_lt mem)
    fun r mem => grown.later_ge mem
  have sorted := grown.wf.records_sorted
  rw [grown.records] at found sorted
  cases t with
  | offset wanted =>
    refine iff_of_true found ?_
    rintro ⟨no, -⟩
    cases no
  | toBeginning =>
    refine iff_of_true ?_ ?_
    · rw [Target.start, firstFrom_head] at found
      · exact found
      intro q mem
      rcases mem_append.mp mem with old | new
      · exact nonneg q old
      · exact next.trans (grown.later_ge new)
    · rintro ⟨no, -⟩
      cases no
  | toEnd =>
    simp only [Target.start] at found
    split at found
    · refine iff_of_true (appended.symm.trans found) ?_
      rintro ⟨-, zero⟩
      omega
    · refine iff_of_false ?_ fun no => no ⟨rfl, by omega⟩
      intro first
      have zero := grown.first r first
      have one : (1 : Int) ≤ r.offset := by simpa using find?_some found
      omega
  | timestamp ts =>
    refine iff_of_true ?_ (by rintro ⟨no, -⟩; cases no)
    rw [timestamp_start wf low, offsetForTimestamp_eq] at found
    rw [Target.first]
    cases late : (pl.records K).find? fun r => ts ≤ r.msg.timestamp with
    | none => grind
    | some q => grind [firstFrom_self]

end

section

variable {K : Codecs} {pl new : PartitionLog} {later : List Record}

theorem Target.first_mem {t : Target} {rs : List Record} {q : Record}
    (asked : t.first rs later = some q) : q ∈ rs ++ later := by
  cases t with
  | offset wanted => exact mem_of_find?_eq_some asked
  | toEnd => exact mem_append_right rs (mem_of_head? asked)
  | toBeginning => exact mem_of_head? asked
  | timestamp ts =>
    rcases or_eq_some_iff.mp asked with late | ⟨-, head⟩
    · grind
    simp [mem_of_head?, head]

theorem first_msg_iff (grown : Grown K pl new later) {t : Target} {start : Int} {r : Record}
    (found : firstFrom start (new.records K) = some r) :
    (t.first (pl.records K) later).map Record.msg = some r.msg ↔
      t.first (pl.records K) later = some r := by
  constructor
  · intro same
    obtain ⟨q, asked, msg⟩ := map_eq_some_iff.mp same
    have memQ : q ∈ new.records K := grown.records ▸ Target.first_mem asked
    have memR : r ∈ new.records K := mem_of_find?_eq_some found
    have offset : q.offset = r.offset := by
      rw [← (grown.wf.records_readable memQ).msg_offset, msg,
        (grown.wf.records_readable memR).msg_offset]
    have self := firstFrom_self grown.wf.records_sorted memQ
    rw [offset, firstFrom_self grown.wf.records_sorted memR] at self
    rw [asked, self]
  · intro same
    rw [same]
    rfl

end

/-- **Seek, then poll.**  After a seek, the reported offset of a partition is the one the next
poll starts from.  While the partition grows and the group polls it, the first message the
group receives is the one the seek asked for, if and only if the seek was not to the end of a
partition that never held a record. -/
theorem seek_then_poll_iff (K : Codecs) (group topic : String) (offset : Option Int) (toEnd : Bool)
    (timestampNs : Int) (logs : List PartitionLog) (manager : Manager) (p : Nat)
    (pl : PartitionLog) (at_p : logs[p]? = some pl) (wf : pl.WellFormed K)
    (low : ∀ s ∈ pl.segments, 0 ≤ s.baseOffset) (s : Pull)
    (run : Reaches (Pull.step K ⟨group, topic, p⟩) (Growing K)
      (Pull.start pl { manager with offsets :=
        (handleSeek K ⟨group.toList, topic.toList, offset, toEnd, timestampNs⟩ logs
          manager.offsets).1 }) s) :
    let req : SeekRequest := ⟨group.toList, topic.toList, offset, toEnd, timestampNs⟩
    let sought := handleSeek K req logs manager.offsets
    sought.2[p]? = some (startOffset sought.1 group topic p) ∧
      ∃ later, s.log.records K = pl.records K ++ later ∧
        (s.received ≠ [] →
          (s.received.head? = ((target req).first (pl.records K) later).map Record.msg ↔
            ¬ (target req = .toEnd ∧ pl.nextOffset = 0))) := by
  intro req sought
  change Reaches _ _ (Pull.start pl { manager with offsets := sought.1 }) s at run
  have stored : load sought.1 group topic p = (seekPartition K req p pl).offset := by
    rw [load, handleSeek_lookup K req manager.offsets at_p]
    rfl
  obtain ⟨report, bound⟩ := reportOff_seek K req p pl
  have starts : startOffset sought.1 group topic p = reportOff (seekPartition K req p pl).offset := by
    simp [startOffset, reportOff]; omega
  have reported : sought.2[p]? = some (startOffset sought.1 group topic p) := by grind [handleSeek]
  refine ⟨reported, ?_⟩
  -- from here on only the offset the poll starts at matters
  clear_value sought
  have origin : Grown K pl pl [] := ⟨wf, by simp, by simp, by simp⟩
  have waiting : Sought K ⟨group, topic, p⟩ ((target req).start K pl)
      (Pull.start pl { manager with offsets := sought.1 }) := .idle pl (starts.trans report)
  obtain ⟨later, grown, outcome⟩ := waiting.reached origin run
  refine ⟨later, grown.records, ?_⟩
  intro some
  cases outcome with
  | waiting nothing _ _ => exact absurd nothing some
  | @received r found first =>
    rw [first, ← first_eq_iff wf low grown (target req) found, eq_comm]
    exact first_msg_iff grown found

instance (s : Pull) : DecidablePred (Growing sampleCodecs s)
  | .op (.append _ _) => inferInstanceAs (Decidable (_ ∧ _ ∧ _))
  | .op (.read _ _) => inferInstanceAs (Decidable False)
  | .op .nextOffset => inferInstanceAs (Decidable False)
  | .op (.compact _) => inferInstanceAs (Decidable False)
  | .op (.compactPartition _) => inferInstanceAs (Decidable False)
  | .op .reopen => inferInstanceAs (Decidable False)
  | .poll _ => inferInstanceAs (Decidable (_ ≤ _))
  | .subscribe _ _ => inferInstanceAs (Decidable True)
  | .unsubscribe _ => inferInstanceAs (Decidable True)
  | .read => inferInstanceAs (Decidable True)
  | .cancel => inferInstanceAs (Decidable True)
  | .commit _ => inferInstanceAs (Decidable True)

/-- The group behind a seek in a topic with one partition. -/
def sampleSeek (req : SeekRequest) (pl : PartitionLog) : Pull :=
  Pull.start pl ⟨[], (handleSeek sampleCodecs req [pl] ∅).1, 1⟩

def sampleEnd : SeekRequest := ⟨['g'], ['t'], none, true, 0⟩

def sampleEmpty : PartitionLog := openPartitionLog sampleCodecs 60 40 []

/-- **The first record is skipped.**  A group seeks to the end of a partition that never held
a record.  Two messages are appended, and a poll returns the second one only. -/
theorem seek_end_skips :
    (handleSeek sampleCodecs sampleEnd [sampleEmpty] ∅).2 = [1] ∧
      ∃ s, Reaches (Pull.step sampleCodecs samplePartition) (Growing sampleCodecs)
          (sampleSeek sampleEnd sampleEmpty) s ∧
        s.received.map Message.offset = [1] ∧
        (s.log.records sampleCodecs).map Record.offset = [0, 1] ∧
        ((target sampleEnd).first (sampleEmpty.records sampleCodecs)
          (s.log.records sampleCodecs)).map Record.offset = some 0 := by
  refine ⟨by decide +kernel, Reaches.exists_run [.op (.append 1 sampleMessage),
    .op (.append 2 sampleMessage), .poll 5, .read] (by decide +kernel)⟩

/-- A partition whose first record was compacted away. -/
def sampleGap : PartitionLog :=
  ((openPartitionLog sampleCodecs 60 40 []).run sampleCodecs (sampleHistory.take 4)).2

/-- A seek to the offset that is gone; a message is appended while the group polls. -/
theorem seek_then_poll_gap :
    ∃ s, Reaches (Pull.step sampleCodecs samplePartition) (Growing sampleCodecs)
        (sampleSeek ⟨['g'], ['t'], some 0, false, 0⟩ sampleGap) s ∧
      s.received.map Message.offset = [1, 2] ∧
      ∃ later, s.log.records sampleCodecs = sampleGap.records sampleCodecs ++ later ∧
        s.received.head? =
          (firstFrom 0 (sampleGap.records sampleCodecs ++ later)).map Record.msg := by
  refine Reaches.exists_run_of (P := fun s => s.received.map Message.offset = [1, 2])
    [.poll 2, .op (.append 4 sampleMessage), .read] (by decide +kernel) fun s reached received =>
      ⟨received, ?_⟩
  obtain ⟨wf, -⟩ := openPartitionLog_run sampleCodecs 40 (show (_ : Int) < 60 by decide) (by decide)
    (sampleHistory.take 4) (by
      simp [sampleHistory, Op.Admissible, sampleMessage_writable, IsInt64]) (by decide)
  obtain ⟨-, later, records, first⟩ := seek_then_poll_iff sampleCodecs "g" "t" (some 0) false 0
    [sampleGap] ⟨[], ∅, 1⟩ 0 sampleGap rfl wf (by decide +kernel) s reached
  refine ⟨later, records, (first ?_).mpr ?_⟩
  · grind
  · rintro ⟨no, -⟩
    cases no

end PubsubBroker.Consumers
