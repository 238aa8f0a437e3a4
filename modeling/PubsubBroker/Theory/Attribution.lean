/-
# Theory.Attribution — logs written by one owner per term

Replicated logs are compared by position and term.  Fix for every term one
*owner* log.  A log is attributed when each of its entries sits in it exactly as
in the owner log of the entry's term, with everything before it.  Attribution is
closed under cutting, under growth of the owners and under the owner's own
appends; two attributed logs that agree on the term of one position agree on
every position up to it.
-/
import Mathlib.Data.List.Basic

namespace PubsubBroker.Theory

open List

/-! ## Prefixes -/

theorem take_eq_of_isPre {α : Type} {l m : List α} (pre : l <+: m) {n : Nat}
    (short : n ≤ l.length) : m.take n = l.take n := by
  obtain ⟨x, rfl⟩ := pre
  exact take_append_of_le_length short

theorem getElem?_of_isPre {α : Type} {l m : List α} (pre : l <+: m) {n : Nat} {a : α}
    (at_n : l[n]? = some a) : m[n]? = some a := by
  obtain ⟨x, rfl⟩ := pre
  rw [List.getElem?_append_left (List.getElem?_eq_some_iff.mp at_n).1, at_n]

theorem getElem?_take_succ {α : Type} {l : List α} {n : Nat} :
    (l.take (n + 1))[n]? = l[n]? :=
  getElem?_take_of_lt (Nat.lt_succ_self n)

/-! ## Attribution -/

section

variable {α τ : Type} (term : α → τ) (owner owner' : τ → List α)

def Attributed (l : List α) : Prop :=
  ∀ k a, l[k]? = some a → l.take (k + 1) = (owner (term a)).take (k + 1)

variable {term owner owner'} {l m : List α}

namespace Attributed

theorem nil : Attributed term owner [] := by
  intro k a h
  simp at h

/-- The owner log holds the entry at the same position. -/
theorem owner_getElem? (hl : Attributed term owner l) {k : Nat} {a : α} (at_k : l[k]? = some a) :
    (owner (term a))[k]? = some a := by
  rw [← getElem?_take_succ, ← hl k a at_k, getElem?_take_succ, at_k]

/-- **Matching.** -/
theorem agree (hl : Attributed term owner l) (hm : Attributed term owner m) {k : Nat} {a b : α}
    (at_l : l[k]? = some a) (at_m : m[k]? = some b) (same : term a = term b) :
    l.take (k + 1) = m.take (k + 1) := by
  rw [hl k a at_l, hm k b at_m, same]

theorem take (hl : Attributed term owner l) (n : Nat) : Attributed term owner (l.take n) := by
  intro k a at_k
  obtain ⟨short, -⟩ := List.getElem?_eq_some_iff.mp at_k
  rw [length_take] at short
  have lt : k < n := by omega
  rw [getElem?_take_of_lt lt] at at_k
  rw [take_take, Nat.min_eq_left (Nat.succ_le_of_lt lt), hl k a at_k]

theorem mono (hl : Attributed term owner l) (grown : ∀ t, owner t <+: owner' t) :
    Attributed term owner' l := by
  intro k a at_k
  obtain ⟨short, -⟩ := List.getElem?_eq_some_iff.mp (hl.owner_getElem? at_k)
  rw [take_eq_of_isPre (grown _) (Nat.succ_le_of_lt short), hl k a at_k]

/-- The owner of a term appends an entry of that term to its own log. -/
theorem concat {a : α} (hl : Attributed term owner l) (own : owner (term a) = l ++ [a]) :
    Attributed term owner (l ++ [a]) := by
  intro k b at_k
  rcases Nat.lt_or_ge k l.length with lt | ge
  · rw [getElem?_append_left lt] at at_k
    rw [take_append_of_le_length (Nat.succ_le_of_lt lt), hl k b at_k]
  · grind

theorem eq_take_owner (hl : Attributed term owner l) {a : α} (last : l.getLast? = some a) :
    l = (owner (term a)).take l.length := by
  rw [getLast?_eq_getElem?] at last
  obtain ⟨lt, -⟩ := List.getElem?_eq_some_iff.mp last
  have whole : l.length - 1 + 1 = l.length := by omega
  have := hl _ a last
  rwa [whole, take_length] at this

theorem pairwise {r : α → α → Prop} (hl : Attributed term owner l)
    (owners : ∀ t, (owner t).Pairwise r) : l.Pairwise r := by
  cases last : l.getLast? with
  | none =>
    rw [getLast?_eq_none_iff.mp last]
    exact .nil
  | some a => grind [eq_take_owner]

end Attributed

end

end PubsubBroker.Theory
