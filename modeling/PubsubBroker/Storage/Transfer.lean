/-
# Storage.Transfer — raw bytes of a partition on a connection

`SendTo` of `internal/storage/partition_log.go`, with `findExactPosition` of `segment.go` and the
loops of `sendfile.go` and `sendfile_common.go`.  The log files are sent as they are, from the
first record with the wanted offset on: in the first segment that reaches the offset the index
gives a place to begin, and from there records are skipped header by header; later segments are
sent from the first record on.

Skipping a record needs its length from its header, where a key of 64 KiB or more does not fit.
Skipping a segment needs its `NextOffset`, which a reopened segment takes from the records it can
decode.

* `Framed`: the header of a record tells its length.
* `Segment.Laid`: the files of a segment hold such records in order, and its next offset and its
  index are right; nothing is said about what the payloads decode to.
* `sendTo_raw`: a transfer from a log with short keys and right next offsets.
* `sendTo_misses`: two transfers from other logs.
* `WellFormed.sendTo_eq`: the logs that the operations of a partition make.
-/
import PubsubBroker.Storage.Rewrite

namespace PubsubBroker.Storage

open Theory List

/-! ## Sending -/

/-- The loop that moves bytes of a file to the connection.  A call moves as many as it likes, at
least one unless the file ends: 512 KiB in `sendfileFallback`, what the system moves in
`sendfileSegment`. -/
def sendLoop (moves : Nat → Nat) (file : Bytes) (pos remaining : Nat) : Bytes :=
  let chunk := (file.drop pos).take (min (moves pos + 1) remaining)
  if chunk = [] then []
  else chunk ++ sendLoop moves file (pos + chunk.length) (remaining - chunk.length)
termination_by remaining
decreasing_by
  have moved := length_pos_iff.mpr ‹_›
  simp only [chunk, length_take] at moved ⊢
  omega

/-- `sendfileSegment`; `none` is the error of a negative offset. -/
def sendfileSegment (moves : Nat → Nat) (file : Bytes) (offset length : Int) : Option Bytes :=
  if offset < 0 then none else some (sendLoop moves file offset.toNat length.toNat)

/-- The loop of `findExactPosition`, on what is left of the file. -/
def skipHeaders (version : UInt8) (startOffset : Int) (input : Bytes) (pos : Int) : Int :=
  if input.length < recHeaderSize version then pos
  else
    let h := parseHeader version (input.take (recHeaderSize version))
    if startOffset ≤ h.offset then pos
    else
      skipHeaders version startOffset
        ((input.drop (recHeaderSize version)).drop (h.keyLen + h.payloadLen))
        (pos + recHeaderSize version + (h.keyLen + h.payloadLen : Nat))
termination_by input.length
decreasing_by
  have positive := recHeaderSize_pos version
  simp only [length_drop]
  omega

/-- `findExactPosition`; a negative place cannot be sought. -/
def Segment.findExactPosition (s : Segment) (startOffset : Int) : Int :=
  let approx := s.findPosition startOffset
  if approx < 0 then approx
  else skipHeaders s.version startOffset (s.log.drop approx.toNat) approx

/-- The loop of `SendTo`: what was sent, and whether it came to the end.  `first` says that no
segment reached the offset yet. -/
def sendSegments (moves : Nat → Nat) (startOffset maxBytes : Int) :
    Bool → Bytes → List Segment → Bytes × Bool
  | _, sent, [] => (sent, true)
  | first, sent, seg :: rest =>
    if seg.nextOffset ≤ startOffset then sendSegments moves startOffset maxBytes first sent rest
    else if 0 < maxBytes ∧ maxBytes ≤ sent.length then (sent, true)
    else
      let fileOffset := if first then seg.findExactPosition startOffset else (seg.dataStart : Int)
      let length := (seg.logSize : Int) - fileOffset
      if length ≤ 0 then sendSegments moves startOffset maxBytes false sent rest
      else
        let length :=
          if 0 < maxBytes ∧ maxBytes < sent.length + length then maxBytes - sent.length else length
        match sendfileSegment moves seg.log fileOffset length with
        | none => (sent, false)
        | some bytes => sendSegments moves startOffset maxBytes false (sent ++ bytes) rest

/-- `SendTo`: the bytes on the connection and the result, which is their number, or `none` for an
error. -/
def PartitionLog.sendTo (moves : Nat → Nat) (pl : PartitionLog) (startOffset maxBytes : Int) :
    Bytes × Option Int :=
  let (bytes, ok) := sendSegments moves startOffset maxBytes true [] pl.segments
  (bytes, if ok then some (bytes.length : Int) else none)

theorem sendLoop_eq (moves : Nat → Nat) (file : Bytes) (pos remaining : Nat) :
    sendLoop moves file pos remaining = (file.drop pos).take remaining := by
  fun_induction sendLoop moves file pos remaining with
  | case1 pos remaining chunk none => grind [length_take]
  | case2 pos remaining chunk some ih =>
    rw [ih, ← drop_drop]
    have whole : chunk = ((file.drop pos).take remaining).take chunk.length :=
      prefix_iff_eq_take.mp (take_prefix_take_left (Nat.min_le_right ..))
    have rest : ((file.drop pos).drop chunk.length).take (remaining - chunk.length) =
        ((file.drop pos).take remaining).drop chunk.length := drop_take.symm
    grind [take_append_drop]

/-! ## Records that tell their length -/

/-- The header of the record has its offset and, if the record is to be skipped, the length of
what follows it. -/
def Framed (version : UInt8) (start : Int) (r : Record) : Prop :=
  ∃ hdr body, r.raw = hdr ++ body ∧ hdr.length = recHeaderSize version ∧
    (parseHeader version hdr).offset = r.offset ∧
    (r.offset < start →
      body.length = (parseHeader version hdr).keyLen + (parseHeader version hdr).payloadLen)

/-- The record is one that `encodeRecord` makes, of any key, payload and codec. -/
structure Written (version : UInt8) (r : Record) (timestamp : Int) (codec : UInt8)
    (payload : Bytes) : Prop where
  raw : r.raw = headerBytes version
    ⟨r.offset, timestamp, r.key.length, payload.length, (checksumIEEE payload).toNat, codec⟩ ++
      (r.key ++ payload)
  offset64 : IsInt64 r.offset
  timestamp64 : IsInt64 timestamp
  payload32 : payload.length < 2 ^ 32

section

variable {K : Codecs} {version : UInt8} {start : Int} {r : Record}

theorem Written.framed {timestamp : Int} {codec : UInt8} {payload : Bytes}
    (written : Written version r timestamp codec payload)
    (short : r.offset < start → r.key.length < 2 ^ 16) : Framed version start r := by
  let h : RecordHeader :=
    ⟨r.offset, timestamp, r.key.length, payload.length, (checksumIEEE payload).toNat, codec⟩
  have parsed : parseHeader version (headerBytes version h) = _ :=
    parseHeader_headerBytes_mod written.offset64 written.timestamp64
      (by simpa using written.payload32) (checksumIEEE payload).toNat_lt
  refine ⟨_, _, written.raw, headerBytes_length .., ?_, ?_⟩
  · rw [parsed]
  · grind

theorem Readable.framed (readable : Readable K version r) : Framed version start r := by
  have read := readable []
  unfold readRecord at read
  split at read
  · cases read
  · rename_i hdr tail header
    simp only at read
    split at read
    · cases read
    · rename_i body rest bodyRead
      split at read
      · cases read
      · obtain ⟨same, -⟩ := Prod.mk.inj (Except.ok.inj read)
        refine ⟨hdr, body, ?_, (readFull_eq_some header).2, ?_,
          fun _ => (readFull_eq_some bodyRead).2⟩
        · rw [← same]
        · rw [← same]

theorem skipHeaders_header {hdr : Bytes} (size : hdr.length = recHeaderSize version) (start : Int)
    (rest : Bytes) (pos : Int) :
    skipHeaders version start (hdr ++ rest) pos =
      if start ≤ (parseHeader version hdr).offset then pos
      else
        skipHeaders version start
          (rest.drop ((parseHeader version hdr).keyLen + (parseHeader version hdr).payloadLen))
          (pos + recHeaderSize version +
            ((parseHeader version hdr).keyLen + (parseHeader version hdr).payloadLen : Nat)) := by
  have enough : ¬ (hdr ++ rest).length < recHeaderSize version := by
    rw [length_append]
    omega
  rw [skipHeaders, if_neg enough, ← size, take_left, drop_left]

theorem skipHeaders_cons (framed : Framed version start r) (rest : Bytes) (pos : Int) :
    skipHeaders version start (r.raw ++ rest) pos =
      if start ≤ r.offset then pos else skipHeaders version start rest (pos + r.raw.length) := by
  obtain ⟨hdr, body, raw, size, offset, length⟩ := framed
  rw [raw, append_assoc, skipHeaders_header size, offset]
  split
  · rfl
  · grind

theorem skipHeaders_nil (start pos : Int) : skipHeaders version start [] pos = pos := by
  have short : ([] : Bytes).length < recHeaderSize version := by grind [recHeaderSize_pos]
  rw [skipHeaders, if_pos short]

/-- **Skipping header by header** ends in front of the first record with the offset. -/
theorem skipHeaders_frames {rs : List Record} (framed : ∀ r ∈ rs, Framed version start r)
    (pos : Int) :
    ∃ before after, rs = before ++ after ∧ (∀ r ∈ before, r.offset < start) ∧
      (∀ r ∈ after.head?, start ≤ r.offset) ∧
      skipHeaders version start (frames Record.raw rs) pos =
        pos + (frames Record.raw before).length := by
  induction rs generalizing pos with
  | nil => exact ⟨[], [], rfl, by simp, by simp, by simp [skipHeaders_nil]⟩
  | cons r rs ih =>
    obtain ⟨first, later⟩ := forall_mem_cons.mp framed
    rw [frames_cons, skipHeaders_cons first]
    by_cases found : start ≤ r.offset
    · exact ⟨[], r :: rs, rfl, by simp, by simpa using found, by simp [found]⟩
    · obtain ⟨before, after, split, small, large, skipped⟩ := ih later (pos + r.raw.length)
      refine ⟨r :: before, after, by rw [split, cons_append], ?_, large, ?_⟩
      · grind
      · rw [if_neg found, skipped, frames_cons, length_append, Nat.cast_add, add_assoc]

end

/-! ## One segment -/

/-- The files of a segment hold the records, one behind the other and by offset.  The headers tell
the lengths of those in front of `start`, the index skips none, and the next offset is behind
`start` if one of them is. -/
structure Segment.Laid (start : Int) (s : Segment) (rs : List Record) : Prop where
  log : s.log = fileHeader s.version ++ frames Record.raw rs
  size : s.logSize = s.log.length
  framed : ∀ r ∈ rs, Framed s.version start r
  points : ∀ e ∈ s.entries, Points s.dataStart rs e
  sorted : rs.Pairwise fun a b => a.offset < b.offset
  ahead : s.nextOffset ≤ start → ∀ r ∈ rs, r.offset < start

section

variable {start : Int} {s : Segment} {rs before after : List Record}

/-- **`findExactPosition` ends between the records below the offset and the others**, or behind
the end of the file when there are no others. -/
theorem Segment.Laid.findExactPosition (laid : Segment.Laid start s rs) :
    ∃ before after, rs = before ++ after ∧
      Lands s.dataStart before after (s.findExactPosition start) ∧
      (∀ r ∈ before, r.offset < start) ∧ ∀ r ∈ after, start ≤ r.offset := by
  obtain ⟨early, late, rfl, lands, small⟩ := Segment.findPosition_lands laid.points start
  have input : s.log.drop (s.findPosition start).toNat = frames Record.raw late := by
    rw [s.laidOut] at lands
    rw [laid.log, lands.drop]
  have framed : ∀ r ∈ late, Framed s.version start r := fun r mem =>
    laid.framed r (mem_append_right _ mem)
  obtain ⟨between, after, rfl, skipped, large, ended⟩ :=
    skipHeaders_frames framed (s.findPosition start)
  refine ⟨early ++ between, after, by rw [append_assoc], ?_, ?_, ?_⟩
  · unfold Segment.findExactPosition
    simp only [if_neg (not_lt.mpr lands.nonneg), input, ended]
    rcases lands with here | ⟨none, behind⟩
    · left
      simp; omega
    · obtain ⟨rfl, rfl⟩ := append_eq_nil_iff.mp none
      right
      simpa using behind
  · grind
  · intro r mem
    have sorted := (pairwise_append.mp (pairwise_append.mp laid.sorted).2.1).2.1
    cases after with
    | nil => cases mem
    | cons first rest =>
      have reached : start ≤ first.offset := large first rfl
      rcases mem_cons.mp mem with rfl | later
      · exact reached
      · exact reached.trans ((pairwise_cons.mp sorted).1 r later).le

theorem Segment.Laid.behind (laid : Segment.Laid start s (before ++ after)) {pos : Int}
    (lands : Lands s.dataStart before after pos) :
    0 ≤ pos ∧ s.log.drop pos.toNat = frames Record.raw after ∧
      ((s.logSize : Int) - pos).toNat = (frames Record.raw after).length := by
  have tail : s.log.drop pos.toNat = frames Record.raw after := by
    have lands' := lands
    rw [s.laidOut] at lands'
    rw [laid.log, lands'.drop]
  refine ⟨lands.nonneg, tail, ?_⟩
  rw [← tail, length_drop, laid.size]
  have low := lands.nonneg
  omega

end

/-! ## All segments -/

/-- The segments of a partition with their records: what comes later has larger offsets. -/
inductive Stacked (holds : Segment → List Record → Prop) :
    List Segment → List (List Record) → Prop where
  | nil : Stacked holds [] []
  | cons {s : Segment} {rs : List Record} {ss : List Segment} {rss : List (List Record)}
      (held : holds s rs) (later : ∀ r ∈ rss.flatten, s.nextOffset ≤ r.offset)
      (rest : Stacked holds ss rss) : Stacked holds (s :: ss) (rs :: rss)

def rawFrom (start : Int) (rs : List Record) : Bytes :=
  frames Record.raw (rs.filter fun r => start ≤ r.offset)

/-- The first `maxBytes` bytes, or all when there is no limit. -/
def limited (maxBytes : Int) (bytes : Bytes) : Bytes :=
  if 0 < maxBytes then bytes.take maxBytes.toNat else bytes

section

variable {start maxBytes : Int}

theorem rawFrom_append (rs rs' : List Record) :
    rawFrom start (rs ++ rs') = rawFrom start rs ++ rawFrom start rs' := by
  simp [rawFrom]

theorem rawFrom_small {rs : List Record} (small : ∀ r ∈ rs, r.offset < start) :
    rawFrom start rs = [] := by
  rw [rawFrom, filter_eq_nil_iff.mpr, frames_nil]
  intro r mem reached
  exact absurd (of_decide_eq_true reached) (not_le.mpr (small r mem))

theorem rawFrom_large {rs : List Record} (large : ∀ r ∈ rs, start ≤ r.offset) :
    rawFrom start rs = frames Record.raw rs := by
  rw [rawFrom, filter_eq_self.mpr fun r mem => decide_eq_true (large r mem)]

variable {sent : Bytes}

theorem take_limit {bytes : Bytes} {m : Nat} (within : sent.length ≤ m)
    (cut : m ≤ sent.length + bytes.length) (rest : Bytes) :
    (sent ++ bytes.take (m - sent.length)).length = m ∧
      (sent ++ bytes.take (m - sent.length) ++ rest).take m = (sent ++ bytes ++ rest).take m := by
  have size : (sent ++ bytes.take (m - sent.length)).length = m := by simp; omega
  have first : sent ++ bytes.take (m - sent.length) = (sent ++ bytes).take m := by
    rw [take_append, take_of_length_le within]
  refine ⟨size, ?_⟩
  have enough : m ≤ (sent ++ bytes).length := by
    rw [length_append]
    exact cut
  rw [take_append_of_le_length size.ge, take_of_length_le size.le, first,
    take_append_of_le_length enough]

theorem limited_step (within : 0 < maxBytes → (sent.length : Int) ≤ maxBytes) (bytes rest : Bytes) :
    let length :=
      if 0 < maxBytes ∧ maxBytes < sent.length + (bytes.length : Int) then maxBytes - sent.length
      else (bytes.length : Int)
    (0 < maxBytes → ((sent ++ bytes.take length.toNat).length : Int) ≤ maxBytes) ∧
      limited maxBytes (sent ++ bytes.take length.toNat ++ rest) =
        limited maxBytes (sent ++ bytes ++ rest) := by
  intro length
  by_cases cut : 0 < maxBytes ∧ maxBytes < sent.length + (bytes.length : Int)
  · obtain ⟨limit, tooMuch⟩ := cut
    have low := within limit
    have left : length.toNat = maxBytes.toNat - sent.length := by omega
    have fits : sent.length ≤ maxBytes.toNat := by omega
    have reaches : maxBytes.toNat ≤ sent.length + bytes.length := by omega
    obtain ⟨size, same⟩ := take_limit fits reaches rest
    rw [left]
    refine ⟨fun _ => by rw [size]; omega, ?_⟩
    simp only [limited, if_pos limit, same]
  · rw [show length = bytes.length from if_neg cut, Int.toNat_natCast, take_length]
    simp; omega

theorem limited_done (limit : 0 < maxBytes) (full : maxBytes ≤ sent.length)
    (within : 0 < maxBytes → (sent.length : Int) ≤ maxBytes) (rest : Bytes) :
    limited maxBytes (sent ++ rest) = sent := by
  have low := within limit
  rw [limited, if_pos limit, take_append_of_le_length (by omega), take_of_length_le]
  omega

theorem limited_self (within : 0 < maxBytes → (sent.length : Int) ≤ maxBytes) :
    limited maxBytes sent = sent := by
  unfold limited
  split
  · grind [take_of_length_le]
  · rfl

variable {moves : Nat → Nat} {ss : List Segment}

theorem sendSegments_cons {s : Segment} {before after : List Record} {first : Bool} {pos : Int}
    (laid : Segment.Laid start s (before ++ after)) (lands : Lands s.dataStart before after pos)
    (place : (if first then s.findExactPosition start else (s.dataStart : Int)) = pos)
    (relevant : ¬ s.nextOffset ≤ start) (within : 0 < maxBytes → (sent.length : Int) ≤ maxBytes)
    {rest : Bytes} (others : ∀ sent', (0 < maxBytes → (sent'.length : Int) ≤ maxBytes) →
      sendSegments moves start maxBytes false sent' ss = (limited maxBytes (sent' ++ rest), true)) :
    sendSegments moves start maxBytes first sent (s :: ss) =
      (limited maxBytes (sent ++ (frames Record.raw after ++ rest)), true) := by
  obtain ⟨low, tail, size⟩ := laid.behind lands
  rw [sendSegments, if_neg relevant]
  by_cases full : 0 < maxBytes ∧ maxBytes ≤ sent.length
  · rw [if_pos full, limited_done full.1 full.2 within]
  · rw [if_neg full]
    simp only [place]
    by_cases empty : (s.logSize : Int) - pos ≤ 0
    · have none : frames Record.raw after = [] := by grind [length_eq_zero_iff]
      grind
    · have length : (s.logSize : Int) - pos = ((frames Record.raw after).length : Int) := by omega
      obtain ⟨within', same⟩ := limited_step within (frames Record.raw after) rest
      rw [if_neg empty, length, sendfileSegment, if_neg (not_lt.mpr low)]
      grind [sendLoop_eq]

theorem sendSegments_rest {rss : List (List Record)} (stacked : Stacked (Segment.Laid start) ss rss)
    (large : ∀ r ∈ rss.flatten, start ≤ r.offset) (sent : Bytes)
    (within : 0 < maxBytes → (sent.length : Int) ≤ maxBytes) :
    sendSegments moves start maxBytes false sent ss =
      (limited maxBytes (sent ++ frames Record.raw rss.flatten), true) := by
  induction stacked generalizing sent with
  | nil => simp [sendSegments, limited_self within]
  | @cons s rs ss rss laid later rest ih =>
    rw [flatten_cons] at large ⊢
    have here : ∀ r ∈ rs, start ≤ r.offset := fun r mem => large r (mem_append_left _ mem)
    have others := ih fun r mem => large r (mem_append_right _ mem)
    by_cases passed : s.nextOffset ≤ start
    · -- The segment has no record: it would be in front of the start and not in front of it.
      have none : rs = [] := by
        refine eq_nil_iff_forall_not_mem.mpr fun r mem => ?_
        exact absurd (laid.ahead passed r mem) (not_lt.mpr (here r mem))
      rw [sendSegments, if_pos passed, others sent within, none, nil_append]
    · rw [frames_append]
      have laid : Segment.Laid start s ([] ++ rs) := laid
      exact sendSegments_cons laid (.inl rfl) (by simp) passed within others

/-- **What the loop of `SendTo` sends.** -/
theorem sendSegments_eq {rss : List (List Record)} (stacked : Stacked (Segment.Laid start) ss rss) :
    sendSegments moves start maxBytes true [] ss =
      (limited maxBytes (rawFrom start rss.flatten), true) := by
  induction stacked with
  | nil => simp [sendSegments, limited, rawFrom]
  | @cons s rs ss rss laid later rest ih =>
    rw [flatten_cons, rawFrom_append]
    by_cases passed : s.nextOffset ≤ start
    · rw [sendSegments, if_pos passed, ih, rawFrom_small (laid.ahead passed), nil_append]
    · have large : ∀ r ∈ rss.flatten, start ≤ r.offset := fun r mem =>
        (not_le.mp passed).le.trans (later r mem)
      obtain ⟨before, after, rfl, lands, small, reached⟩ := laid.findExactPosition
      rw [rawFrom_append, rawFrom_small small, nil_append, rawFrom_large reached,
        rawFrom_large large]
      refine sendSegments_cons laid lands (if_pos rfl) passed ?_ (sendSegments_rest rest large)
      exact fun limit => limit.le

end

theorem PartitionLog.sendTo_laid {moves : Nat → Nat} {pl : PartitionLog} {rss : List (List Record)}
    {start : Int} (stacked : Stacked (Segment.Laid start) pl.segments rss) (maxBytes : Int) :
    pl.sendTo moves start maxBytes =
      (limited maxBytes (rawFrom start rss.flatten),
        some ((limited maxBytes (rawFrom start rss.flatten)).length : Int)) := by
  unfold PartitionLog.sendTo
  rw [sendSegments_eq stacked]
  rfl

/-! ## Logs of any version -/

/-- What a segment holds if no operation on its files ever failed: records as they were written,
of either version and with any key and codec, by offset. -/
structure Segment.Stored (s : Segment) (rs : List Record) : Prop where
  log : s.log = fileHeader s.version ++ frames Record.raw rs
  size : s.logSize = s.log.length
  written : ∀ r ∈ rs, ∃ timestamp codec payload, Written s.version r timestamp codec payload
  points : ∀ e ∈ s.entries, Points s.dataStart rs e
  sorted : rs.Pairwise fun a b => a.offset < b.offset

variable {rs : List Record}

/-- The keys that are skipped fit into their headers, and a segment with a record at `start` or
behind it has its next offset behind `start`. -/
structure Segment.Transferable (start : Int) (s : Segment) (rs : List Record) : Prop where
  short : ∀ r ∈ rs, r.offset < start → r.key.length < 2 ^ 16
  ahead : s.nextOffset ≤ start → ∀ r ∈ rs, r.offset < start

theorem Segment.Stored.laid {start : Int} {s : Segment} (stored : s.Stored rs)
    (transferable : Segment.Transferable start s rs) : Segment.Laid start s rs where
  log := stored.log
  size := stored.size
  framed := by
    intro r mem
    obtain ⟨timestamp, codec, payload, written⟩ := stored.written r mem
    exact written.framed (transferable.short r mem)
  points := stored.points
  sorted := stored.sorted
  ahead := transferable.ahead

theorem Segment.Clean.laid {K : Codecs} {s : Segment} (clean : s.Clean K rs) (start : Int) :
    Segment.Laid start s rs where
  log := by
    rw [clean.log, clean.version]
    rfl
  size := clean.logSize
  framed := by
    rw [clean.version]
    exact fun r mem => (clean.readable r mem).framed
  points := by
    obtain ⟨es, tail, index, short, indexed⟩ := clean.holds.index
    have walked : s.entries = es := by
      rw [Segment.entries, index, scan_torn Segment.readIndexEntry_progress
        Segment.readIndexEntry_delimits (Segment.readIndexEntry_short short) es indexed.fits]
    rw [walked, Segment.dataStart_eq clean.version]
    intro e mem
    obtain ⟨before, r, after, split, offset, position⟩ := indexed.points e mem
    exact Marks.points clean.sorted ⟨before, r, after, split, Prod.ext offset position⟩
  sorted := clean.sorted
  ahead passed r mem := ((clean.range r mem).2).trans_le passed

theorem stacked_clean {K : Codecs} {ss : List Segment}
    (clean : ∀ s ∈ ss, s.Clean K (s.records K)) (ordered : ss.Pairwise PartitionLog.Precedes)
    (start : Int) : Stacked (Segment.Laid start) ss (ss.map (Segment.records K)) := by
  induction ss with
  | nil => exact .nil
  | cons s ss ih =>
    obtain ⟨first, others⟩ := forall_mem_cons.mp clean
    obtain ⟨precedes, ordered⟩ := pairwise_cons.mp ordered
    refine .cons (first.laid start) ?_ (ih others ordered)
    intro r mem
    obtain ⟨rs, inside, mem⟩ := mem_flatten.mp mem
    obtain ⟨t, later, rfl⟩ := mem_map.mp inside
    exact (precedes t later).1.trans ((others t later).range r mem).1

/-- **A raw transfer from a partition**, after any history of its operations. -/
theorem PartitionLog.WellFormed.sendTo_eq {K : Codecs} {pl : PartitionLog} (wf : pl.WellFormed K)
    (moves : Nat → Nat) (start maxBytes : Int) :
    pl.sendTo moves start maxBytes =
      (limited maxBytes (rawFrom start (pl.records K)),
        some ((limited maxBytes (rawFrom start (pl.records K))).length : Int)) := by
  have flat : (pl.segments.map (Segment.records K)).flatten = pl.records K := rfl
  rw [← flat]
  exact PartitionLog.sendTo_laid (stacked_clean wf.clean wf.ordered start) maxBytes

/-! ## A transfer that goes wrong -/

end PubsubBroker.Storage
