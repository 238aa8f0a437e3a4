/-
# Theory.Materialise — folding keyed updates into a map

A log of keyed updates is read by folding it into a map: each update sets its
key, or removes it when it carries no value.  The map depends on the last update
of each key only (`materialise_apply`), so updates that are overwritten later may
be dropped.

Dropping a removal is different: it is harmless only when no older update of its
key comes back.  `materialise_filter_append` states when a filter of a front part
of the log leaves the map as it is, with the rest of the log untouched.
-/
import Mathlib.Data.List.Basic
import Mathlib.Data.List.Induction
import Mathlib.Logic.Function.Basic

namespace PubsubBroker.Theory

open List

section

variable {ρ κ ν : Type} [DecidableEq κ] (key : ρ → κ) (value : ρ → Option ν)

/-- The map a log of updates leaves, from an empty one. -/
def materialise (log : List ρ) : κ → Option ν :=
  log.foldl (fun view r => Function.update view (key r) (value r)) fun _ => none

variable {key value}

theorem materialise_concat (log : List ρ) (r : ρ) :
    materialise key value (log ++ [r]) =
      Function.update (materialise key value log) (key r) (value r) := by
  simp [materialise]

/-- The updates of one key, in log order. -/
def updatesOf (key : ρ → κ) (k : κ) (log : List ρ) : List ρ := log.filter fun r => key r = k

@[simp] theorem updatesOf_append (k : κ) (log more : List ρ) :
    updatesOf key k (log ++ more) = updatesOf key k log ++ updatesOf key k more := by
  simp [updatesOf]

theorem mem_updatesOf {k : κ} {log : List ρ} {r : ρ} :
    r ∈ updatesOf key k log ↔ r ∈ log ∧ key r = k := by
  simp [updatesOf]

/-- A key's value is that of its last update. -/
theorem materialise_apply (log : List ρ) (k : κ) :
    materialise key value log k = (updatesOf key k log).getLast?.bind value := by
  induction log using List.reverseRecOn with
  | nil => rfl
  | append_singleton log r ih =>
    rw [materialise_concat, updatesOf_append]
    by_cases same : key r = k
    · simp [updatesOf, same]
    · have none : updatesOf key k [r] = [] := by simp [updatesOf, same]
      grind

/-- The last update of a key splits the log: none of the key follows it. -/
theorem updatesOf_eq_concat {k : κ} {log init : List ρ} {r : ρ}
    (eq : updatesOf key k log = init ++ [r]) :
    ∃ before after, log = before ++ r :: after ∧ updatesOf key k before = init ∧
      updatesOf key k after = [] := by
  obtain ⟨front, back, rfl, frontEq, backEq⟩ := filter_eq_append_iff.mp eq
  obtain ⟨skipped, after, rfl, none, -, afterEq⟩ := filter_eq_cons_iff.mp backEq
  refine ⟨front ++ skipped, after, by simp, ?_, afterEq⟩
  have empty : updatesOf key k skipped = [] := filter_eq_nil_iff.mpr none
  rw [updatesOf_append, empty, append_nil]
  exact frontEq

/-- **Filtering a front part preserves the map** when every dropped update is
overwritten later, or is a removal in front of which no update of its key is
kept. -/
theorem materialise_filter_append (keep : ρ → Bool) (front back : List ρ)
    (droppable : ∀ before r after, front = before ++ r :: after → keep r = false →
      (∃ r' ∈ after ++ back, key r' = key r) ∨
        (value r = none ∧ ∀ r' ∈ before, key r' = key r → keep r' = false)) :
    materialise key value (front.filter keep ++ back) =
      materialise key value (front ++ back) := by
  funext k
  have commute : updatesOf key k (front.filter keep) = (updatesOf key k front).filter keep := by
    simp only [updatesOf, filter_filter, Bool.and_comm]
  rw [materialise_apply, materialise_apply, updatesOf_append, updatesOf_append, commute]
  by_cases later : updatesOf key k back = []
  · rw [later, append_nil, append_nil]
    rcases eq_nil_or_concat' (updatesOf key k front) with empty | ⟨init, r, last⟩
    · rw [empty, filter_nil]
    · -- `r` is the last update of `k` in the whole log
      obtain ⟨before, after, split, rfl, noneAfter⟩ := updatesOf_eq_concat last
      have sameKey : key r = k := (mem_updatesOf.mp (last ▸ mem_concat_self)).2
      rw [last, filter_append, getLast?_concat]
      cases kept : keep r with
      | true => simp [kept]
      | false =>
        rw [filter_cons_of_neg (by simp [kept]), filter_nil, append_nil]
        cases droppable before r after split kept with
        | inl overwritten =>
          obtain ⟨r', mem, same⟩ := overwritten
          have mem' : r' ∈ updatesOf key k (after ++ back) :=
            mem_updatesOf.mpr ⟨mem, same.trans sameKey⟩
          grind [updatesOf_append]
        | inr removal =>
          have dropped : (updatesOf key k before).filter keep = [] := by
            refine filter_eq_nil_iff.mpr ?_
            intro r' mem
            obtain ⟨mem, same⟩ := mem_updatesOf.mp mem
            simp [sameKey, removal, mem, same]
          simp [removal, dropped]
  · grind [getLast?_append_of_ne_nil]

end

end PubsubBroker.Theory
