/-
# Theory.SparseLog — an append-only log with holes

What a partition is for, without files: a finite map from offsets to values, and
the next offset.  Values are added at the next offset only, so offsets are never
reused; they may be removed anywhere in front of the `head`, which leaves holes;
and a read returns the first values at or behind an offset, in offset order.

`Extends` is what an append does and `Trims` what a removal may do.  The
structure itself says that the next offset lies behind every entry, so a value
is never added at an offset in use.

A reader that follows a log has seen everything up to some offset (`Follows`).
Appends and removals do not change that, and a read from behind that offset moves
it to the last entry returned, or shows that nothing is left.
-/
import Mathlib.Data.Int.Order.Basic
import Mathlib.Data.List.Basic

namespace PubsubBroker.Theory

open List

/-- The entries are in offset order, and none is at or behind the next offset. -/
structure SparseLog (α : Type) where
  head : Int
  next : Int
  entries : List (Int × α)
  sorted : entries.Pairwise fun a b => a.1 < b.1
  below : ∀ e ∈ entries, e.1 < next

namespace SparseLog

variable {α : Type}

def empty : SparseLog α := ⟨0, 0, [], Pairwise.nil, by simp⟩

/-- The first `maxCount` entries at or behind `start`. -/
def read (log : SparseLog α) (start maxCount : Int) : List (Int × α) :=
  (log.entries.filter fun e => start ≤ e.1).take maxCount.toNat

/-- `log'` is `log` with one value at the next offset; the head may move up to
it. -/
structure Extends (log log' : SparseLog α) (value : α) : Prop where
  next : log'.next = log.next + 1
  head : log'.head = log.head ∨ log'.head = log.next
  entries : log'.entries = log.entries ++ [(log.next, value)]

/-- The log with one value at the next offset. -/
def append (log : SparseLog α) (value : α) : SparseLog α where
  head := log.head
  next := log.next + 1
  entries := log.entries ++ [(log.next, value)]
  sorted := pairwise_append.mpr ⟨log.sorted, pairwise_singleton _ _, by
    intro a mem b last
    rw [mem_singleton.mp last]
    exact log.below a mem⟩
  below := by
    intro e mem
    cases mem_append.mp mem with
    | inl old =>
      have := log.below e old
      omega
    | inr new =>
      rw [mem_singleton.mp new]
      show log.next < log.next + 1
      omega

/-- `log'` is `log` with some entries in front of the head removed. -/
structure Trims (log log' : SparseLog α) : Prop where
  next : log'.next = log.next
  head : log'.head = log.head
  sublist : log'.entries.Sublist log.entries
  kept : ∀ e ∈ log.entries, log.head ≤ e.1 → e ∈ log'.entries

/-! ## Following a log -/

/-- The entries `seen` are in offset order and reach up to `frontier`, and no entry
of the log up to there is missing from them. -/
structure Follows (log : SparseLog α) (frontier : Int) (seen : List (Int × α)) : Prop where
  sorted : seen.Pairwise fun a b => a.1 < b.1
  upto : ∀ e ∈ seen, e.1 ≤ frontier
  behind : frontier < log.next
  complete : ∀ e ∈ log.entries, e.1 ≤ frontier → e ∈ seen

section

variable {log log' : SparseLog α} {frontier : Int} {seen : List (Int × α)}

theorem follows_nil (behind : frontier < log.next) (front : ∀ e ∈ log.entries, frontier < e.1) :
    log.Follows frontier [] where
  sorted := Pairwise.nil
  upto := by simp
  behind := behind
  complete e mem le := absurd (front e mem) (not_lt.mpr le)

theorem Follows.extends {value : α} (follows : log.Follows frontier seen)
    (step : log.Extends log' value) : log'.Follows frontier seen where
  sorted := follows.sorted
  upto := follows.upto
  behind := by
    have := follows.behind
    rw [step.next]
    omega
  complete := by
    intro e mem le
    rw [step.entries] at mem
    cases mem_append.mp mem with
    | inl old => exact follows.complete e old le
    | inr new =>
      rw [mem_singleton.mp new] at le
      exact absurd follows.behind (not_lt.mpr le)

theorem Follows.trims (follows : log.Follows frontier seen) (step : log.Trims log') :
    log'.Follows frontier seen where
  sorted := follows.sorted
  upto := follows.upto
  behind := by
    rw [step.next]
    exact follows.behind
  complete e mem le := follows.complete e (step.sublist.subset mem) le

theorem read_sublist (log : SparseLog α) (start maxCount : Int) :
    (log.read start maxCount).Sublist log.entries :=
  (take_sublist _ _).trans filter_sublist

theorem le_of_mem_read {start maxCount : Int} {e : Int × α} (mem : e ∈ log.read start maxCount) :
    start ≤ e.1 :=
  of_decide_eq_true (mem_filter.mp (mem_of_mem_take mem)).2

/-- An entry between the start and the last entry returned is returned. -/
theorem mem_read {start maxCount : Int} {e last : Int × α} (mem : e ∈ log.entries)
    (low : start ≤ e.1) (returned : last ∈ log.read start maxCount) (high : e.1 ≤ last.1) :
    e ∈ log.read start maxCount := by
  have found : e ∈ log.entries.filter fun e => start ≤ e.1 := by
    simp [mem, low]
  have order := log.sorted.filter fun e => start ≤ e.1
  rw [← take_append_drop maxCount.toNat (log.entries.filter _)] at found order
  cases mem_append.mp found with
  | inl front => exact front
  | inr back =>
    have := (pairwise_append.mp order).2.2 last returned e back
    omega

/-- The last entry read bounds the others. -/
theorem le_last_of_mem_read {start maxCount : Int} {last e : Int × α}
    (final : (log.read start maxCount).getLast? = some last)
    (mem : e ∈ log.read start maxCount) : e.1 ≤ last.1 := by
  have sorted := log.sorted.sublist (log.read_sublist start maxCount)
  obtain ⟨front, eq⟩ := getLast?_eq_some_iff.mp final
  rw [eq] at sorted mem
  cases mem_append.mp mem with
  | inl early => exact le_of_lt ((pairwise_append.mp sorted).2.2 e early last (by simp))
  | inr here => rw [mem_singleton.mp here]

/-- **A read moves the frontier** to the last entry returned. -/
theorem Follows.read {maxCount : Int} {last : Int × α} (follows : log.Follows frontier seen)
    (final : (log.read (frontier + 1) maxCount).getLast? = some last) :
    log.Follows last.1 (seen ++ log.read (frontier + 1) maxCount) := by
  have sorted := log.sorted.sublist (log.read_sublist (frontier + 1) maxCount)
  have returned := mem_of_getLast? final
  have new : ∀ e ∈ log.read (frontier + 1) maxCount, frontier < e.1 := by
    intro e mem
    have := le_of_mem_read mem
    omega
  refine ⟨pairwise_append.mpr ⟨follows.sorted, sorted, ?_⟩, ?_, ?_, ?_⟩
  · intro a old b mem
    exact lt_of_le_of_lt (follows.upto a old) (new b mem)
  · intro e mem
    cases mem_append.mp mem with
    | inl old => exact le_trans (follows.upto e old) (le_of_lt (new last returned))
    | inr mem => exact le_last_of_mem_read final mem
  · exact log.below last ((log.read_sublist _ _).subset returned)
  · grind [complete, mem_read]

/-- **A read that returns nothing shows that everything was seen.** -/
theorem Follows.drained {maxCount : Int} (follows : log.Follows frontier seen)
    (some : 1 ≤ maxCount) (empty : log.read (frontier + 1) maxCount = []) :
    ∀ e ∈ log.entries, e ∈ seen := by
  intro e mem
  apply follows.complete e mem
  have none : log.entries.filter (fun e => frontier + 1 ≤ e.1) = [] := by
    cases take_eq_nil_iff.mp empty with
    | inl zero => omega
    | inr none => exact none
  have := filter_eq_nil_iff.mp none e mem
  simp only [decide_eq_true_eq] at this
  omega

end

end SparseLog

end PubsubBroker.Theory
