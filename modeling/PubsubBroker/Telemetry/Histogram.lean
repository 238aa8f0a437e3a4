/-
# Telemetry.Histogram — the bucket lines of a histogram

`internal/metrics/metrics.go`.  `Observe` counts a value in every bucket whose bound is not below
it, so the counts are cumulative already, and `Expose` adds them up once more.  Values are taken
from any linear order; the sum of the values, the names and the labels are left out, and the
counters do not wrap.

The printed values are the ones they should be exactly when every value lies above every bound but
the last (`expose_exact_iff`).
-/
import Mathlib.Data.List.Sort
import Mathlib.Order.Defs.LinearOrder

namespace PubsubBroker.Telemetry

open List

structure Histogram (α : Type) where
  buckets : List α
  counts : List Nat
  count : Nat

/-- The lines of `Expose`: one for each bucket, the one for `+Inf`, and the count. -/
structure Exposition (α : Type) where
  buckets : List (α × Nat)
  inf : Nat
  count : Nat

variable {α : Type}

namespace Histogram

/-- The loop over the buckets, with its running sum. -/
def bucketLines : Nat → List α → List Nat → List (α × Nat)
  | cumulative, bound :: buckets, n :: counts =>
    (bound, cumulative + n) :: bucketLines (cumulative + n) buckets counts
  | _, _, _ => []

def expose (h : Histogram α) : Exposition α :=
  ⟨bucketLines 0 h.buckets h.counts, h.count, h.count⟩

/-- The running sum adds nothing exactly when all counts but the last are zero. -/
theorem bucketLines_eq_iff (f : α → Nat) : ∀ (buckets : List α) (cumulative : Nat),
    (∀ line ∈ bucketLines cumulative buckets (buckets.map f), line.2 = f line.1) ↔
      (buckets ≠ [] → cumulative = 0) ∧ ∀ b ∈ buckets.dropLast, f b = 0
  | [], cumulative => by simp [bucketLines]
  | [b], cumulative => by simp [bucketLines]
  | b :: b' :: buckets, cumulative => by
    have rest := bucketLines_eq_iff f (b' :: buckets) (cumulative + f b)
    rw [map_cons, bucketLines, forall_mem_cons, rest, dropLast_cons_cons, forall_mem_cons]
    simp
    omega

theorem bucketLines_fst (f : α → Nat) : ∀ (buckets : List α) (cumulative : Nat),
    (bucketLines cumulative buckets (buckets.map f)).map Prod.fst = buckets
  | [], _ => rfl
  | b :: buckets, cumulative => congrArg (b :: ·) (bucketLines_fst f buckets (cumulative + f b))

end Histogram

open Histogram

variable [LinearOrder α]

def newHistogram (bounds : List α) : Histogram α :=
  ⟨bounds.insertionSort (· ≤ ·), replicate bounds.length 0, 0⟩

def Histogram.observe (h : Histogram α) (v : α) : Histogram α where
  buckets := h.buckets
  counts := zipWith (fun bound n => if v ≤ bound then n + 1 else n) h.buckets h.counts
  count := h.count + 1

/-- What a histogram should say about the values it has seen. -/
structure Exposition.Exact (x : Exposition α) (values : List α) : Prop where
  counted : ∀ line ∈ x.buckets, line.2 = values.countP (· ≤ line.1)
  ascending : x.buckets.Pairwise fun l r => l.1 ≤ r.1 ∧ l.2 ≤ r.2
  bounded : ∀ line ∈ x.buckets, line.2 ≤ x.count

theorem observe_all (values : List α) (h : Histogram α) (f : α → Nat)
    (counts : h.counts = h.buckets.map f) :
    values.foldl observe h =
      ⟨h.buckets, h.buckets.map fun b => f b + values.countP (· ≤ b), h.count + values.length⟩ := by
  induction values generalizing h f with
  | nil =>
    obtain ⟨buckets, _, count⟩ := h
    simp [← counts]
  | cons v values ih =>
    rw [foldl_cons, ih (h.observe v) fun b => if v ≤ b then f b + 1 else f b]
    · simp only [observe, countP_cons, length_cons, Histogram.mk.injEq, true_and]
      refine ⟨map_congr_left fun b _ => ?_, by omega⟩
      by_cases below : v ≤ b <;> simp [below]
      omega
    · simp [observe, counts, zipWith_map_right, zipWith_self]

/-- **Histogram exposition.**  The bucket lines are right exactly when no value is counted in a
bucket before the last. -/
theorem expose_exact_iff (bounds values : List α) :
    (values.foldl observe (newHistogram bounds)).expose.Exact values ↔
      ∀ b ∈ (bounds.insertionSort (· ≤ ·)).dropLast, ∀ v ∈ values, b < v := by
  have seen := observe_all values (newHistogram bounds) (fun _ => 0) (by simp [newHistogram])
  simp only [newHistogram, Nat.zero_add] at seen
  have lines := bucketLines_eq_iff (fun b => values.countP (· ≤ b)) (bounds.insertionSort (· ≤ ·)) 0
  have none : (∀ b ∈ (bounds.insertionSort (· ≤ ·)).dropLast, values.countP (· ≤ b) = 0) ↔
      ∀ b ∈ (bounds.insertionSort (· ≤ ·)).dropLast, ∀ v ∈ values, b < v := by
    simp [countP_eq_zero]
  rw [newHistogram, seen, ← none]
  refine ⟨fun exact => (lines.mp exact.counted).2, fun zero => ?_⟩
  have counted := lines.mpr ⟨fun _ => rfl, zero⟩
  refine ⟨counted, ?_, fun line mem => (counted line mem).trans_le countP_le_length⟩
  have sorted : (bucketLines 0 (bounds.insertionSort (· ≤ ·)) ((bounds.insertionSort (· ≤ ·)).map
      fun b => values.countP (· ≤ b))).Pairwise fun l r => l.1 ≤ r.1 := by
    rw [← pairwise_map, bucketLines_fst]
    exact pairwise_insertionSort _ _
  refine sorted.imp_of_mem fun {l r} hl hr le => ⟨le, ?_⟩
  rw [counted l hl, counted r hr]
  exact countP_mono_left fun v _ below => by simpa using (of_decide_eq_true below).trans le

/-- One value below both bounds: the second line says two, and the count one. -/
theorem histogram_overcounts : ¬ ([0].foldl observe (newHistogram [1, 2])).expose.Exact [0] := by
  intro exact
  have bounded := exact.bounded (2, 2) (by decide)
  exact absurd bounded (by decide)

end PubsubBroker.Telemetry
