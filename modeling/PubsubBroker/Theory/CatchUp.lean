/-
# Theory.CatchUp — a log relayed to a reader, first by reads and then live

A reader is to get the entries of a sparse log at or behind an offset `start`,
each once and in order.  It first catches up: batches are read from a cursor and
handed out.  After the first read that finds nothing it follows live: each append
is due from then on, and what is due is handed out in order.

`Relays` says what was handed out at each stage, and the lemmas say how the
operations of the log and of the relay move from stage to stage.  What a reader
gets is a value computed from the entry, so the log's values are seen through a
function.
-/
import PubsubBroker.Theory.SparseLog

namespace PubsubBroker.Theory

open List

namespace SparseLog

variable {α β : Type}

/-- What the reader gets of the entries from `start` on. -/
def since (log : SparseLog α) (seen : α → β) (start : Int) : List β :=
  (log.entries.filter fun e => start ≤ e.1).map fun e => seen e.2

/-- What the reader gets of the entries in front of `cursor`. -/
def upTo (log : SparseLog α) (seen : α → β) (cursor : Int) : List β :=
  (log.entries.filter fun e => e.1 < cursor).map fun e => seen e.2

/-- No entry lies in front of `start`, and none will. -/
structure Above (log : SparseLog α) (start : Int) : Prop where
  next : start ≤ log.next
  entries : ∀ e ∈ log.entries, start ≤ e.1

end SparseLog

/-- Where a relay is: not begun, catching up with the rest of a batch in hand, or
live with appends that are due. -/
inductive Stage (β : Type) where
  | idle
  | reading (cursor : Int) (batch : List β)
  | live (due : List β)

/-- The stage after an append, which is due if the relay is live. -/
def Stage.append {β : Type} (x : β) : Stage β → Stage β
  | .live due => .live (due ++ [x])
  | stage => stage

/-- What was handed out at each stage. -/
def Relays {α β : Type} (log : SparseLog α) (seen : α → β) (start : Int) (out : List β) :
    Stage β → Prop
  | .idle => out = []
  | .reading cursor batch =>
    cursor ≤ log.next ∧ log.Above start ∧ out ++ batch = log.upTo seen cursor
  | .live due => start ≤ log.next ∧ out ++ due = log.since seen start

namespace SparseLog

variable {α β : Type} {log log' : SparseLog α} {seen : α → β} {start cursor : Int} {value : α}

theorem Above.extends (above : log.Above start) (step : log.Extends log' value) :
    log'.Above start where
  next := by
    have := above.next
    rw [step.next]
    omega
  entries := by
    intro e mem
    rw [step.entries] at mem
    cases mem_append.mp mem with
    | inl old => exact above.entries e old
    | inr new =>
      rw [mem_singleton.mp new]
      exact above.next

theorem since_extends (low : start ≤ log.next) (step : log.Extends log' value) :
    log'.since seen start = log.since seen start ++ [seen value] := by
  unfold since
  rw [step.entries, filter_append, map_append]
  simp [low]

theorem upTo_extends (low : cursor ≤ log.next) (step : log.Extends log' value) :
    log'.upTo seen cursor = log.upTo seen cursor := by
  unfold upTo
  rw [step.entries, filter_append, map_append]
  simp [low]

theorem since_above (above : log.Above start) :
    log.since seen start = log.entries.map fun e => seen e.2 := by
  unfold since
  rw [filter_eq_self.mpr]
  intro e mem
  exact decide_eq_true (above.entries e mem)

theorem upTo_eq_nil (early : ∀ e ∈ log.entries, cursor ≤ e.1) : log.upTo seen cursor = [] := by
  unfold upTo
  rw [filter_eq_nil_iff.mpr]
  · rfl
  grind

theorem since_eq_nil (late : ∀ e ∈ log.entries, e.1 < start) : log.since seen start = [] := by
  unfold since
  rw [filter_eq_nil_iff.mpr]
  · rfl
  grind

/-- A cursor splits the entries. -/
theorem split_at (log : SparseLog α) (cursor : Int) :
    log.entries =
      log.entries.filter (fun e => e.1 < cursor) ++ log.entries.filter fun e => cursor ≤ e.1 := by
  have sorted := log.sorted
  generalize log.entries = entries at sorted
  induction entries with
  | nil => rfl
  | cons e rest ih =>
    obtain ⟨first, sorted⟩ := pairwise_cons.mp sorted
    by_cases low : e.1 < cursor
    · grind
    · have all : ∀ x ∈ e :: rest, cursor ≤ x.1 := by
        intro x mem
        grind
      rw [filter_eq_nil_iff.mpr, filter_eq_self.mpr, nil_append]
      · grind
      grind

/-- What lies in front of the cursor is a beginning of the whole. -/
theorem upTo_prefix (above : log.Above start) : log.upTo seen cursor <+: log.since seen start := by
  rw [since_above above]
  apply List.IsPrefix.map
  conv_rhs => rw [log.split_at cursor]
  exact prefix_append _ _

/-- A batch read at the cursor continues what lies in front of it. -/
theorem upTo_read {maxCount : Int} {last : Int × α}
    (final : (log.read cursor maxCount).getLast? = some last) :
    log.upTo seen (last.1 + 1) =
      log.upTo seen cursor ++ (log.read cursor maxCount).map fun e => seen e.2 := by
  have returned := mem_of_getLast? final
  have behind := le_of_mem_read returned
  have parts : log.entries = log.entries.filter (fun e => e.1 < cursor) ++
      (log.read cursor maxCount ++
        (log.entries.filter fun e => cursor ≤ e.1).drop maxCount.toNat) := by
    unfold read
    rw [take_append_drop]
    exact log.split_at cursor
  have late : ∀ e ∈ (log.entries.filter fun e => cursor ≤ e.1).drop maxCount.toNat,
      last.1 < e.1 := by
    intro e mem
    have sorted := log.sorted
    rw [parts] at sorted
    exact (pairwise_append.mp (pairwise_append.mp sorted).2.1).2.2 last returned e mem
  have kept : ∀ part : List (Int × α), (∀ e ∈ part, e.1 ≤ last.1) →
      part.filter (fun e => e.1 < last.1 + 1) = part := by
    intro part low
    rw [filter_eq_self]
    intro e mem
    have := low e mem
    exact decide_eq_true (by omega)
  have front := kept (log.entries.filter fun e => e.1 < cursor) <| by grind
  have middle := kept (log.read cursor maxCount) fun e mem => le_last_of_mem_read final mem
  have back : ((log.entries.filter fun e => cursor ≤ e.1).drop maxCount.toNat).filter
      (fun e => e.1 < last.1 + 1) = [] := by
    rw [filter_eq_nil_iff]
    intro e mem
    have := late e mem
    simp only [decide_eq_true_eq]
    omega
  unfold upTo
  rw [← map_append]
  conv_lhs => rw [parts]
  rw [filter_append, filter_append, front, middle, back, append_nil]

/-- A read at the cursor that finds nothing shows that all lies in front of it. -/
theorem upTo_drained {maxCount : Int} (some : 1 ≤ maxCount)
    (none : log.read cursor maxCount = []) :
    log.upTo seen cursor = log.entries.map fun e => seen e.2 := by
  have rest : log.entries.filter (fun e => cursor ≤ e.1) = [] := by
    cases take_eq_nil_iff.mp none with
    | inl zero => omega
    | inr rest => exact rest
  unfold upTo
  conv_rhs => rw [log.split_at cursor, rest, append_nil]

end SparseLog

/-! ## The stages of a relay -/

namespace Relays

variable {α β : Type} {log log' : SparseLog α} {seen : α → β} {start cursor : Int} {value : α}
variable {out due batch : List β}

/-- **An append** is due if the relay is live, and left to the reads otherwise. -/
theorem append {stage : Stage β} (relays : Relays log seen start out stage)
    (step : log.Extends log' value) : Relays log' seen start out (stage.append (seen value)) := by
  have next := step.next
  cases stage with
  | idle => exact relays
  | reading cursor batch =>
    obtain ⟨low, above, eq⟩ := relays
    refine ⟨by omega, above.extends step, ?_⟩
    rw [SparseLog.upTo_extends low step]
    exact eq
  | live due =>
    obtain ⟨low, eq⟩ := relays
    refine ⟨by omega, ?_⟩
    grind [SparseLog.since_extends]

/-- Catching up begins at an offset with nothing in front of it. -/
theorem begin (relays : Relays log seen start out .idle) (above : log.Above start)
    (first : log.Above cursor) : Relays log seen start out (.reading cursor []) := by
  refine ⟨first.next, above, ?_⟩
  rw [append_nil, SparseLog.upTo_eq_nil first.entries]
  exact relays

/-- A relay without history is live at once. -/
theorem skip (relays : Relays log seen start out .idle) (low : start ≤ log.next)
    (late : ∀ e ∈ log.entries, e.1 < start) : Relays log seen start out (.live []) := by
  refine ⟨low, ?_⟩
  rw [append_nil, SparseLog.since_eq_nil late]
  exact relays

/-- **A read** moves the cursor behind the last entry returned. -/
theorem read {maxCount : Int} {last : Int × α} (relays : Relays log seen start out (.reading cursor []))
    (final : (log.read cursor maxCount).getLast? = some last) :
    Relays log seen start out
      (.reading (last.1 + 1) ((log.read cursor maxCount).map fun e => seen e.2)) := by
  obtain ⟨-, above, eq⟩ := relays
  refine ⟨?_, above, ?_⟩
  · have held := (log.read_sublist _ _).subset (mem_of_getLast? final)
    have := log.below last held
    omega
  · rw [SparseLog.upTo_read final, ← eq, append_nil]

/-- **The first read that finds nothing** ends the catching up. -/
theorem drained {maxCount : Int} (relays : Relays log seen start out (.reading cursor []))
    (some : 1 ≤ maxCount) (none : log.read cursor maxCount = []) :
    Relays log seen start out (.live []) := by
  obtain ⟨-, above, eq⟩ := relays
  refine ⟨above.next, ?_⟩
  rw [eq, SparseLog.upTo_drained some none, SparseLog.since_above above]

/-- The next of the batch is handed out. -/
theorem hand {x : β} (relays : Relays log seen start out (.reading cursor (x :: batch))) :
    Relays log seen start (out ++ [x]) (.reading cursor batch) := by
  obtain ⟨low, above, eq⟩ := relays
  refine ⟨low, above, ?_⟩
  rw [append_assoc]
  exact eq

/-- The first append that is due is handed out. -/
theorem deliver {x : β} (relays : Relays log seen start out (.live (x :: due))) :
    Relays log seen start (out ++ [x]) (.live due) := by
  obtain ⟨low, eq⟩ := relays
  refine ⟨low, ?_⟩
  rw [append_assoc]
  exact eq

/-- **At every stage** what was handed out is a beginning of what is to be. -/
theorem isPrefix {stage : Stage β} (relays : Relays log seen start out stage) :
    out <+: log.since seen start := by
  cases stage with
  | idle =>
    rw [show out = [] from relays]
    exact nil_prefix
  | reading cursor batch =>
    obtain ⟨-, above, eq⟩ := relays
    exact (eq ▸ prefix_append out batch).trans (SparseLog.upTo_prefix above)
  | live due => exact relays.2 ▸ prefix_append out due

/-- **Live with nothing due**, it is all of it. -/
theorem complete (relays : Relays log seen start out (.live [])) :
    out = log.since seen start := by
  rw [← relays.2, append_nil]

end Relays

end PubsubBroker.Theory
