/-
# Theory.Circular — a ring buffer keeps the last writes

A ring of a fixed number of cells with a head that walks round.  Read from the head on
(`Circular.contents`), it is a queue of fixed length: a write drops the oldest element and appends
the new one (`contents_push`), so after any history the ring holds the last writes, with the
cells it was made with before them (`contents_foldl`).
-/
import Mathlib.Data.List.DropRight
import Mathlib.Data.List.Rotate

namespace PubsubBroker.Theory

open List

structure Circular (α : Type) where
  cells : List α
  /-- The cell to overwrite next. -/
  head : Nat
  inRing : head < cells.length

namespace Circular

variable {α : Type}

def push (r : Circular α) (x : α) : Circular α where
  cells := r.cells.set r.head x
  head := (r.head + 1) % r.cells.length
  inRing := by
    rw [length_set]
    exact Nat.mod_lt _ (Nat.zero_lt_of_lt r.inRing)

/-- The cells, the oldest first. -/
def contents (r : Circular α) : List α := r.cells.rotate r.head

theorem length_contents (r : Circular α) : r.contents.length = r.cells.length :=
  length_rotate r.cells r.head

theorem mem_contents {r : Circular α} {x : α} : x ∈ r.contents ↔ x ∈ r.cells := mem_rotate

/-- The cell that was written `i` writes before the last one. -/
theorem getElem?_reverse_contents (r : Circular α) {i : Nat} (old : i < r.cells.length) :
    r.contents.reverse[i]? = r.cells[(r.head + r.cells.length - 1 - i) % r.cells.length]? := by
  have bound := r.length_contents
  rw [getElem?_reverse (by omega), bound, contents, getElem?_rotate (by omega)]
  congr 2
  omega

theorem contents_push (r : Circular α) (x : α) : (r.push x).contents = r.contents.tail ++ [x] := by
  have inRing := r.inRing
  have longer : r.head + 1 ≤ (r.cells.set r.head x).length := by rw [length_set]; omega
  have rotated : (r.push x).contents = (r.cells.set r.head x).rotate (r.head + 1) := by
    rw [contents, ← rotate_mod _ (r.head + 1), length_set]
    rfl
  have written : (r.cells.set r.head x).take (r.head + 1) = r.cells.take r.head ++ [x] := by
    rw [take_set, ← take_concat_get' _ _ inRing, set_append_right _ _ (length_take_le _ _),
      length_take_of_le inRing.le, Nat.sub_self]
    rfl
  rw [rotated, contents, rotate_eq_drop_append_take longer, written, drop_set_of_lt (by omega),
    rotate_eq_drop_append_take inRing.le, drop_eq_getElem_cons inRing, cons_append, tail_cons,
    append_assoc]

/-- **A ring keeps the last writes.**  For any state that has a ring in it and steps that write
to it. -/
theorem contents_foldl {σ β : Type} {view : σ → Circular α} {step : σ → β → σ} {value : β → α}
    (pushes : ∀ s b, view (step s b) = (view s).push (value b)) (s : σ) (xs : List β) :
    (view (xs.foldl step s)).contents =
      ((view s).contents ++ xs.map value).rtake (view s).cells.length := by
  have last : ∀ ys : List α, ((view s).contents ++ ys).rtake (view s).cells.length =
      ((view s).contents ++ ys).drop ys.length := by
    intro ys
    simp [rtake, length_contents]
  rw [last, length_map]
  induction xs using reverseRecOn with
  | nil => exact (append_nil _).symm
  | append_singleton xs x ih =>
    have inRing := (view s).inRing
    have room : xs.length + 1 ≤ ((view s).contents ++ xs.map value).length := by
      rw [length_append, length_contents, length_map]
      omega
    rw [foldl_append, foldl_cons, foldl_nil, pushes, contents_push, ih, tail_drop, map_append,
      ← append_assoc, length_append, length_singleton, drop_append_of_le_length room]
    rfl

end Circular

end PubsubBroker.Theory
