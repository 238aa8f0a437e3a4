/-
# Wal.Recovery — what a restart finds in the log

Two questions about the file a process left behind.

After a crash in the middle of one `append` the file is the complete earlier
entries and some prefix of the last.  `openFile_torn`: recovery returns exactly
the complete entries, cuts the file to their boundary, the next `append`
continues with the following offset, and a second recovery is the identity.

A *failed* `append` leaves the same kind of bytes, but the process keeps
running, and the next `append` writes behind them.  Recovery stops at the first
entry it cannot read, so every acknowledged entry behind a torn one is lost
(`acknowledged_lost`).  `acknowledged_recovered` is the exact boundary of the
damage: as long as no call succeeds after a call that left a nonempty strict
part of its entry, all acknowledged entries come back.  A failed call that wrote
nothing, or that wrote everything and only failed to sync, does no harm.
-/
import PubsubBroker.Wal.Log

namespace PubsubBroker.Wal

open Theory List

/-! ## Successful appends -/

/-- Append every element; all calls succeed. -/
def appendAll (w : WAL) (ds : List Bytes) : WAL :=
  ds.foldl (fun w d => (append w d none).1) w

/-- The entries successive appends write, from a given offset on. -/
def numbered : Int → List Bytes → List Entry
  | _, [] => []
  | n, d :: ds => ⟨n, d⟩ :: numbered (n + 1) ds

theorem numbered_append (n : Int) (ds es : List Bytes) :
    numbered n (ds ++ es) = numbered n ds ++ numbered (n + ds.length) es := by
  induction ds generalizing n with
  | nil => simp [numbered]
  | cons d ds ih => grind [numbered]

theorem appendAll_eq (w : WAL) (ds : List Bytes) :
    appendAll w ds =
      ⟨w.file ++ frames entryBytes (numbered w.nextOffset ds), w.nextOffset + ds.length⟩ := by
  induction ds generalizing w with
  | nil => simp [appendAll, numbered]
  | cons d ds ih =>
    have step : appendAll w (d :: ds) = appendAll (append w d none).1 ds := rfl
    rw [step, ih, append_ok]
    simp only [numbered, frames_cons, append_assoc, length_cons, WAL.mk.injEq,
      true_and]
    push_cast
    ring

theorem truncate_eq (w : WAL) (ds : List Bytes) : truncate w ds = appendAll ⟨[], 0⟩ ds := rfl

theorem length_le_frames (n : Int) (ds : List Bytes) :
    ds.length ≤ (frames entryBytes (numbered n ds)).length := by
  induction ds generalizing n with
  | nil => simp
  | cons d ds ih => grind [numbered, frames_cons, entryBytes_length, headerSize]

theorem numbered_fits {ds : List Bytes} (small : ∀ d ∈ ds, d.length < 2 ^ 32) :
    ∀ n : Int, 0 ≤ n → n + ds.length ≤ 2 ^ 63 → ∀ e ∈ numbered n ds, e.Fits := by
  induction ds with
  | nil => simp [numbered]
  | cons d ds ih =>
    intro n low high e member
    rw [length_cons] at high
    push_cast at high
    rcases mem_cons.mp member with rfl | later
    · exact ⟨small d (by simp), by simp only; omega, by simp only; omega⟩
    grind

theorem maxOffset_numbered (ds : List Bytes) :
    ∀ (n m : Int), m < n →
      maxOffset m (numbered n ds) = if ds = [] then m else n + ds.length - 1 := by
  induction ds with
  | nil => intro n m _; simp [numbered, maxOffset]
  | cons d ds ih =>
    intro n m lt
    have step : maxOffset m (numbered n (d :: ds)) = maxOffset n (numbered (n + 1) ds) := by
      simp [numbered, maxOffset, lt]
    grind

/-! ## A crash inside one append -/

/-- Recovery behind complete entries: a refused tail is removed, the entries are
returned, and nothing else changes. -/
theorem recover_refused {es : List Entry} (good : ∀ e ∈ es, e.Fits) {tail : Bytes} {stop : Stop}
    (refused : readEntry tail = .error stop) (n : Int) :
    recover ⟨frames entryBytes es ++ tail, n⟩ =
      (⟨frames entryBytes es, if maxOffset (-1) es ≥ 0 then maxOffset (-1) es + 1 else n⟩, es) := by
  rw [recover_eq_scan]
  simp only [scan_torn readEntry_progress readEntry_delimits refused es good,
    length_append, Nat.add_sub_cancel, take_left]

theorem readEntry_nil : readEntry [] = .error .header := rfl

/-- Recovery of a log holding exactly the entries of `ds` and a refused tail
gives the log that has just appended `ds`. -/
theorem recover_appendAll {ds : List Bytes} (small : ∀ d ∈ ds, d.length < 2 ^ 32)
    (count : (ds.length : Int) ≤ 2 ^ 63) {tail : Bytes} {stop : Stop}
    (refused : readEntry tail = .error stop) {n : Int} (fresh : ds = [] → n = 0) :
    recover ⟨frames entryBytes (numbered 0 ds) ++ tail, n⟩ =
      (appendAll ⟨[], 0⟩ ds, numbered 0 ds) := by
  rw [recover_refused (numbered_fits small 0 le_rfl (by omega)) refused, appendAll_eq,
    maxOffset_numbered ds 0 (-1) (by omega)]
  cases ds with
  | nil => simp [numbered, fresh rfl]
  | cons d ds => simp

/-- **Torn-tail recovery.**  Let `ds` be appended, and let a crash during the
append of `d` leave any prefix of its entry.  Opening the file returns exactly
the complete entries with their offsets, ends the file at their boundary, makes
the next append continue with the following offset, and recovering once more
returns the same entries and changes nothing. -/
theorem openFile_torn (ds : List Bytes) (d : Bytes) (k : Nat)
    (small : ∀ x ∈ ds ++ [d], x.length < 2 ^ 32)
    (sized : (appendAll ⟨[], 0⟩ (ds ++ [d])).file.length < 2 ^ 63) :
    let w := appendAll ⟨[], 0⟩ ds
    let last := entryBytes ⟨w.nextOffset, d⟩
    let complete := if k < last.length then ds else ds ++ [d]
    let opened := openFile (w.file ++ last.take k)
    opened.2 = numbered 0 complete ∧
      opened.1.file = frames entryBytes (numbered 0 complete) ∧
      (∀ x, (append opened.1 x none).2 = .ok (complete.length : Int)) ∧
      recover opened.1 = (opened.1, opened.2) := by
  intro w last complete opened
  have count : ((ds ++ [d]).length : Int) ≤ 2 ^ 63 := by grind [appendAll_eq, length_le_frames]
  have hw : w = ⟨frames entryBytes (numbered 0 ds), ds.length⟩ := by grind [appendAll_eq]
  have lastFits : Entry.Fits ⟨w.nextOffset, d⟩ := by
    have hd := small d (by simp)
    simp only [length_append, length_cons, length_nil] at count
    push_cast at count
    rw [hw]
    exact ⟨hd, by simp only; omega, by simp only; omega⟩
  -- the file is the complete entries and a tail the reader refuses
  obtain ⟨tail, stop, refused, file⟩ : ∃ tail stop, readEntry tail = .error stop ∧
      w.file ++ last.take k = frames entryBytes (numbered 0 complete) ++ tail := by
    by_cases cut : k < last.length
    · grind [ readEntry_prefix]
    · refine ⟨[], .header, readEntry_nil, ?_⟩
      rw [take_of_length_le (Nat.le_of_not_lt cut)]
      simp only [complete, if_neg cut, numbered_append, frames_append, numbered, frames_cons,
        frames_nil, append_nil, last, hw, zero_add]
  have completeSmall : ∀ x ∈ complete, x.length < 2 ^ 32 := by grind
  have completeCount : (complete.length : Int) ≤ 2 ^ 63 := by grind
  have hopened : opened = (appendAll ⟨[], 0⟩ complete, numbered 0 complete) := by
    grind [openFile, recover_appendAll]
  have again := recover_appendAll completeSmall completeCount readEntry_nil
    (n := (complete.length : Int)) (fun h => by simp [h])
  rw [append_nil] at again
  rw [hopened]
  refine ⟨rfl, by simp [appendAll_eq], fun x => ?_, ?_⟩
  · rw [append_ok, appendAll_eq]
    simp
  · simp [appendAll_eq, again]

theorem openFile_torn_header :
    (openFile ((appendAll ⟨[], 0⟩ [[7], []]).file ++ (entryBytes ⟨2, [9, 9]⟩).take 5)).2 =
      [⟨0, [7]⟩, ⟨1, []⟩] :=
  (openFile_torn [[7], []] [9, 9] 5 (by decide) (by decide)).1

/-! ## Failed appends in a running process -/

/-- One call of `append` and what the file system does to it. -/
structure Call where
  data : Bytes
  fault : Option Fault

/-- Run calls in order; the second component collects the entries whose call
returned success, with the offset that was returned. -/
def runCalls : WAL → List Call → WAL × List Entry
  | w, [] => (w, [])
  | w, c :: cs =>
    match append w c.data c.fault with
    | (w, .ok offset) => ((runCalls w cs).1, ⟨offset, c.data⟩ :: (runCalls w cs).2)
    | (w, .error _) => runCalls w cs

/-- The number of bytes a call leaves in the file. -/
def Call.written (c : Call) : Nat := (writtenBytes 0 c.data c.fault).length

/-- The call left a nonempty strict part of its entry behind. -/
def Call.Torn (c : Call) : Prop :=
  0 < c.written ∧ c.written < headerSize + c.data.length

instance (c : Call) : Decidable c.Torn := by unfold Call.Torn; infer_instance

theorem writtenBytes_length (offset : Int) (c : Call) :
    (writtenBytes offset c.data c.fault).length = c.written := by
  obtain ⟨data, fault⟩ := c
  cases fault with
  | none => simp [Call.written, writtenBytes, header_length]
  | some f => cases f <;> simp [Call.written, writtenBytes, header_length]

theorem writtenBytes_prefix (offset : Int) (data : Bytes) (fault : Option Fault) :
    writtenBytes offset data fault <+: entryBytes ⟨offset, data⟩ := by
  cases fault with
  | none => exact prefix_rfl
  | some f =>
    cases f with
    | seek => exact nil_prefix
    | writeHeader n => exact (List.take_prefix _ _).trans (prefix_append _ _)
    | writeData n => exact (prefix_append_right_inj _).mpr (List.take_prefix _ _)
    | sync => exact prefix_rfl

theorem writtenBytes_cases (offset : Int) (c : Call) (whole : ¬ c.Torn) :
    writtenBytes offset c.data c.fault = [] ∨
      writtenBytes offset c.data c.fault = entryBytes ⟨offset, c.data⟩ := by
  have part := writtenBytes_prefix offset c.data c.fault
  have len := writtenBytes_length offset c
  by_cases empty : c.written = 0
  · grind
  · grind [IsPrefix.eq_of_length_le, entryBytes_length, Call.Torn]

/-- The shape calls leave the file in: complete entries, then bytes nobody
accounts for. -/
structure Tidy (w : WAL) (es : List Entry) (junk : Bytes) : Prop where
  file : w.file = frames entryBytes es ++ junk
  fits : ∀ e ∈ es, e.Fits
  low : 0 ≤ w.nextOffset
  count : w.nextOffset ≤ w.file.length

theorem runCalls_ok (w : WAL) (data : Bytes) (cs : List Call) :
    runCalls w (⟨data, none⟩ :: cs) =
      ((runCalls (append w data none).1 cs).1,
        ⟨w.nextOffset, data⟩ :: (runCalls (append w data none).1 cs).2) := rfl

theorem runCalls_fault (w : WAL) (data : Bytes) (f : Fault) (cs : List Call) :
    runCalls w (⟨data, some f⟩ :: cs) = runCalls (append w data (some f)).1 cs := rfl

theorem runCalls_length (cs : List Call) :
    ∀ w : WAL, w.file.length ≤ (runCalls w cs).1.file.length := by
  induction cs with
  | nil => intro w; exact le_rfl
  | cons c cs ih =>
    intro w
    obtain ⟨data, fault⟩ := c
    cases fault with
    | none => grind [runCalls_ok, append_ok]
    | some f => grind [runCalls_fault, append_fault]

namespace Tidy

variable {w : WAL} {es : List Entry} {junk : Bytes}

/-- A complete entry written at a boundary, acknowledged (`n = nextOffset + 1`)
or not (`n = nextOffset`). -/
theorem entry (tidy : Tidy w es []) {data : Bytes} {n : Int} (small : data.length < 2 ^ 32)
    (sized : (w.file ++ entryBytes ⟨w.nextOffset, data⟩).length < 2 ^ 63)
    (low : w.nextOffset ≤ n) (high : n ≤ w.nextOffset + 1) :
    Tidy ⟨w.file ++ entryBytes ⟨w.nextOffset, data⟩, n⟩ (es ++ [⟨w.nextOffset, data⟩]) [] := by
  have hlow := tidy.low
  have hcount := tidy.count
  simp only [length_append, entryBytes_length, headerSize] at sized
  refine ⟨by simp [tidy.file], ?_, le_trans hlow low, ?_⟩
  · intro e member
    rcases mem_append.mp member with old | new
    · exact tidy.fits e old
    · rw [mem_singleton.mp new]
      exact ⟨small, by simp only; omega, by simp only; omega⟩
  · simp [entryBytes_length, headerSize]; omega

theorem garbage (tidy : Tidy w es junk) (bytes : Bytes) :
    Tidy { w with file := w.file ++ bytes } es (junk ++ bytes) := by
  have hcount := tidy.count
  refine ⟨by simp [tidy.file], tidy.fits, tidy.low, ?_⟩
  simp only [length_append]
  push_cast
  omega

end Tidy

/-- The run lemma: whatever the calls did, the acknowledged entries are among
complete entries at the front of the file.  Junk at the end of the file is
harmless exactly because no later call succeeds (`dirty`). -/
theorem runCalls_tidy :
    ∀ (cs : List Call) {w : WAL} {es : List Entry} {junk : Bytes}, Tidy w es junk →
      (∀ c ∈ cs, c.data.length < 2 ^ 32) → (runCalls w cs).1.file.length < 2 ^ 63 →
      (junk ≠ [] → ∀ c ∈ cs, c.fault ≠ none) →
      cs.Pairwise (fun c later => c.Torn → later.fault ≠ none) →
      ∃ more junk', Tidy (runCalls w cs).1 (es ++ more) junk' ∧
        (runCalls w cs).2.Sublist more
  | [], w, es, junk, tidy, _, _, _, _ =>
    ⟨[], junk, by simpa [runCalls] using tidy, by simp [runCalls]⟩
  | ⟨data, none⟩ :: cs, w, es, junk, tidy, small, sized, dirty, order => by
    -- a success: by `dirty` the file ends at an entry boundary
    have clean : junk = [] := by
      by_contra junky
      exact dirty junky ⟨data, none⟩ (by simp) rfl
    subst clean
    rw [runCalls_ok] at sized ⊢
    have bound := runCalls_length cs (append w data none).1
    have tidy' := tidy.entry (n := w.nextOffset + 1) (small ⟨data, none⟩ (by simp))
      (lt_of_le_of_lt bound sized) (by omega) le_rfl
    obtain ⟨more, junk', hmore, acked⟩ := runCalls_tidy cs tidy'
      (fun x hx => small x (by simp [hx])) sized (by simp) (pairwise_cons.mp order).2
    refine ⟨⟨w.nextOffset, data⟩ :: more, junk', ?_, acked.cons_cons _⟩
    simpa [append_ok] using hmore
  | ⟨data, some f⟩ :: cs, w, es, junk, tidy, small, sized, dirty, order => by
    obtain ⟨ordered, order⟩ := pairwise_cons.mp order
    have smallRest : ∀ x ∈ cs, x.data.length < 2 ^ 32 := fun x hx => small x (by simp [hx])
    rw [runCalls_fault, append_fault] at sized ⊢
    by_cases harmless : junk = [] ∧ ¬ Call.Torn ⟨data, some f⟩
    · obtain ⟨rfl, whole⟩ := harmless
      rcases writtenBytes_cases w.nextOffset ⟨data, some f⟩ whole with empty | all
      · simp only at empty
        rw [empty, append_nil] at sized ⊢
        exact runCalls_tidy cs tidy smallRest sized (by simp) order
      · -- a complete entry nobody was told about: recovery will return it too
        simp only at all
        rw [all] at sized ⊢
        have bound := runCalls_length cs ⟨w.file ++ entryBytes ⟨w.nextOffset, data⟩, w.nextOffset⟩
        have tidy' := tidy.entry (n := w.nextOffset) (small ⟨data, some f⟩ (by simp))
          (lt_of_le_of_lt bound sized) le_rfl (by omega)
        obtain ⟨more, junk', hmore, acked⟩ :=
          runCalls_tidy cs tidy' smallRest sized (by simp) order
        grind
    · -- garbage at the end of the file: from here on no call may succeed
      have noSuccess : ∀ x ∈ cs, x.fault ≠ none := by grind
      exact runCalls_tidy cs (tidy.garbage _) smallRest sized (fun _ => noSuccess) order

/-- **Acknowledged entries survive failed appends that leave no torn entry in
front of a success.**  Every entry whose append returned success is recovered,
with its offset and data and in append order, provided every entry is shorter
than 4 GiB and no append succeeds after one that left a nonempty strict part of
its entry. -/
theorem acknowledged_recovered (calls : List Call)
    (sized : (runCalls ⟨[], 0⟩ calls).1.file.length < 2 ^ 63)
    (small : ∀ c ∈ calls, c.data.length < 2 ^ 32)
    (order : calls.Pairwise fun c later => c.Torn → later.fault ≠ none) :
    (runCalls ⟨[], 0⟩ calls).2.Sublist (openFile (runCalls ⟨[], 0⟩ calls).1.file).2 := by
  have start : Tidy ⟨[], 0⟩ [] [] := ⟨rfl, by simp, le_rfl, by simp⟩
  obtain ⟨more, junk, tidy, acked⟩ := runCalls_tidy calls start small sized (by simp) order
  rw [nil_append] at tidy
  rw [openFile, recover_eq_scan, tidy.file]
  simp only [scan_frames readEntry_progress readEntry_delimits junk more tidy.fits]
  exact acked.trans (sublist_append_left _ _)

theorem acknowledged_recovered_sync :
    Sublist [⟨0, [1]⟩, ⟨1, [3]⟩] (openFile (runCalls ⟨[], 0⟩
      [⟨[1], none⟩, ⟨[2], some .sync⟩, ⟨[3], none⟩, ⟨[4], some (.writeData 0)⟩]).1.file).2 :=
  acknowledged_recovered
    [⟨[1], none⟩, ⟨[2], some .sync⟩, ⟨[3], none⟩, ⟨[4], some (.writeData 0)⟩]
    (by decide) (by decide) (by decide)

/-- An append fails behind its header, the next one succeeds with offset 0, and
recovery returns nothing: the first header swallows the second entry's bytes. -/
theorem acknowledged_lost :
    (runCalls ⟨[], 0⟩ [⟨[1], some (.writeData 0)⟩, ⟨[2], none⟩]).2 = [⟨0, [2]⟩] ∧
      ¬ (runCalls ⟨[], 0⟩ [⟨[1], some (.writeData 0)⟩, ⟨[2], none⟩]).2.Sublist
        (openFile (runCalls ⟨[], 0⟩ [⟨[1], some (.writeData 0)⟩, ⟨[2], none⟩]).1.file).2 := by
  decide +kernel

end PubsubBroker.Wal
