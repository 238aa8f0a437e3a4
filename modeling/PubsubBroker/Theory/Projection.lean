/-
# Theory.Projection — comparing a run with a part of itself

Noninterference for event systems.  `purge` takes out of a run the events that are
not one's own and renames those that are, since what an event refers to may be
somewhere else when the others are not there.  `purge_related` is the unwinding
rule: a relation that own steps keep on both sides at once, and that other steps
keep on the side of the whole run alone, holds at the end of the two runs.

Where the parties of a system are a pool that events address by position, one's own
parties are those that satisfy a test, and `rank` is the position a party has among
them.  The lemmas about `Forall₂` say what a change of one party does to the pool
and to a list that is related to one's own part of it.
-/
import PubsubBroker.Theory.Transition
import Mathlib.Data.List.Forall2

namespace PubsubBroker.Theory

open List

/-! ## Purging -/

section

variable {S E : Type} {step : S → E → Option S}

/-- The part of a run that `own` keeps. -/
def purge (step : S → E → Option S) (own : S → E → Option E) : S → List E → List E
  | _, [] => []
  | s, e :: es =>
    match step s e with
    | none => []
    | some t => (own s e).toList ++ purge step own t es

/-- **Unwinding.** -/
theorem purge_related {allowed : S → E → Prop} [∀ s e, Decidable (allowed s e)]
    {own : S → E → Option E} {R : S → S → Prop}
    (owned : ∀ s e e' s' t, allowed s e → own s e = some e' → step s e = some s' → R s t →
      ∃ t', step t e' = some t' ∧ R s' t')
    (others : ∀ s e s' t, allowed s e → own s e = none → step s e = some s' → R s t → R s' t)
    {es : List E} {s s' t : S} (ran : runAll step allowed s es = some s') (related : R s t) :
    ∃ t', runAll step (fun _ _ => True) t (purge step own s es) = some t' ∧ R s' t' := by
  induction es generalizing s t with
  | nil =>
    cases ran
    exact ⟨t, rfl, related⟩
  | cons e es ih =>
    rw [runAll] at ran
    split at ran
    case isFalse => cases ran
    case isTrue ok =>
      obtain ⟨u, taken, rest⟩ := Option.bind_eq_some_iff.mp ran
      rw [purge, taken]
      cases mine : own s e with
      | none => exact ih rest (others s e u t ok mine taken related)
      | some e' => grind [runAll]

end

/-! ## One's own part of a pool -/

section

variable {α β : Type} {p : α → Bool} {R : α → β → Prop} {pool : List α} {paired : List β} {i : Nat}
variable {x x' : α} {z' : β}

/-- The position among those that satisfy the test. -/
def rank (p : α → Bool) (pool : List α) (i : Nat) : Nat := ((pool.take i).filter p).length

section

variable (alike : Forall₂ R (pool.filter p) paired) (at_i : pool[i]? = some x)
  (own : p x = true)
include alike at_i own

/-- A process of one's own, with its partner and what is on either side. -/
theorem paired_split : ∃ before z after, paired = before ++ z :: after ∧
    before.length = rank p pool i ∧ R x z ∧ Forall₂ R ((pool.take i).filter p) before ∧
      Forall₂ R ((pool.drop (i + 1)).filter p) after := by
  obtain ⟨bound, rfl⟩ := List.getElem?_eq_some_iff.mp at_i
  have split : pool.filter p =
      (pool.take i).filter p ++ pool[i] :: (pool.drop (i + 1)).filter p := by
    rw [← filter_cons_of_pos own, ← filter_append, getElem_cons_drop,
      take_append_drop]
  rw [split] at alike
  have front := forall₂_take (rank p pool i) alike
  have back := forall₂_drop (rank p pool i) alike
  rw [rank, take_left] at front
  rw [rank, drop_left] at back
  obtain ⟨z, after, same, behind, here⟩ := forall₂_cons_left_iff.mp back
  exact ⟨_, z, after, by rw [← here, take_append_drop], front.length_eq.symm, same, front, behind⟩

theorem paired_get : ∃ z, paired[rank p pool i]? = some z ∧ R x z := by
  obtain ⟨before, z, after, rfl, here, same, -, -⟩ := paired_split alike at_i own
  exact ⟨z, by simp [← here], same⟩

theorem paired_set (own' : p x' = true) (same : R x' z') :
    Forall₂ R ((pool.set i x').filter p) (paired.set (rank p pool i) z') := by
  obtain ⟨before, z, after, rfl, here, -, front, behind⟩ := paired_split alike at_i own
  rw [← here, set_append_right _ _ (Nat.le_refl _), Nat.sub_self, set_cons_zero,
    List.set_eq_take_append_cons_drop, if_pos (List.getElem?_eq_some_iff.mp at_i).1,
    filter_append, filter_cons_of_pos own']
  exact rel_append front (.cons same behind)

theorem paired_erase :
    Forall₂ R ((pool.eraseIdx i).filter p) (paired.eraseIdx (rank p pool i)) := by
  obtain ⟨before, z, after, rfl, here, -, front, behind⟩ := paired_split alike at_i own
  rw [← here, eraseIdx_append_of_length_le (Nat.le_refl _), Nat.sub_self, eraseIdx_cons_zero,
    eraseIdx_eq_take_drop_succ, filter_append]
  exact rel_append front behind

end

theorem paired_mem {z : β} (alike : Forall₂ R (pool.filter p) paired) (mem : z ∈ paired) :
    ∃ x ∈ pool, R x z := by
  have found : ∀ {xs : List α} {zs : List β}, Forall₂ R xs zs → z ∈ zs →
      ∃ x ∈ xs, R x z := by
    intro xs zs pairs mem
    induction pairs with
    | nil => cases mem
    | cons same _ ih => grind
  obtain ⟨x, listed, related⟩ := found alike mem
  exact ⟨x, mem_of_mem_filter listed, related⟩

theorem filter_set_other (at_i : pool[i]? = some x) (other : p x = false) (other' : p x' = false) :
    (pool.set i x').filter p = pool.filter p := by
  obtain ⟨before, after, here, -, set⟩ := pool_split at_i
  rw [set, here]
  simp [other, other']

theorem filter_erase_other (at_i : pool[i]? = some x) (other : p x = false) :
    (pool.eraseIdx i).filter p = pool.filter p := by
  obtain ⟨before, after, here, erased, -⟩ := pool_split at_i
  rw [erased, here]
  simp [other]

end

end PubsubBroker.Theory
