/-
# Theory.Transition — guarded moves, event runs and forward simulation

Two ways to present a state machine, and the rule that connects them.

A *guarded* system is a set of atomic moves, each with a guard and an effect; a
proof obligation per move is what an invariant costs (`Steps.invariant`).  An
*event* system is a partial step function, the shape a model translated from
code has; its runs may be restricted by a condition on every step (`Reaches`).

`Reaches.simulate` carries an invariant argument from the first to the second:
when every event step is matched by finitely many moves, every state an event
run reaches is related to a state the moves reach.

Processes that run side by side are a list, a *pool*; a step of one of them
replaces it or takes it out, and `pool_split` says what the rest of the pool is.
-/
import Mathlib.Data.List.Basic
import Mathlib.Data.List.Forall2

namespace PubsubBroker.Theory

open List

/-! ## Guarded moves -/

structure Guarded (S M : Type) where
  enabled : S → M → Prop
  apply : S → M → S

/-- Finitely many enabled moves, each satisfying the side condition `G`. -/
inductive Steps {S M : Type} (sys : Guarded S M) (G : S → M → Prop) : S → S → Prop where
  | refl (s : S) : Steps sys G s s
  | tail {s t : S} {m : M} (before : Steps sys G s t) (enabled : sys.enabled t m)
      (side : G t m) : Steps sys G s (sys.apply t m)

namespace Steps

variable {S M : Type} {sys : Guarded S M} {G H : S → M → Prop} {s t u : S}

theorem trans (first : Steps sys G s t) (second : Steps sys G t u) : Steps sys G s u := by
  induction second with
  | refl => exact first
  | tail _ enabled side ih => exact ih.tail enabled side

theorem mono (weaker : ∀ s m, G s m → H s m) (steps : Steps sys G s t) : Steps sys H s t := by
  induction steps with
  | refl => exact .refl _
  | tail _ enabled side ih => exact ih.tail enabled (weaker _ _ side)

/-- **The invariant rule.** -/
theorem invariant (Inv : S → Prop)
    (preserved : ∀ s m, sys.enabled s m → G s m → Inv s → Inv (sys.apply s m))
    (steps : Steps sys G s t) (start : Inv s) : Inv t := by
  induction steps with
  | refl => exact start
  | tail _ enabled side ih => exact preserved _ _ enabled side ih

end Steps

/-! ## Event runs -/

/-- The states an event system reaches from `init` by steps that satisfy
`allowed` in the state before them. -/
inductive Reaches {S E : Type} (step : S → E → Option S) (allowed : S → E → Prop) (init : S) :
    S → Prop where
  | init : Reaches step allowed init init
  | step {s t : S} {e : E} (before : Reaches step allowed init s) (ok : allowed s e)
      (taken : step s e = some t) : Reaches step allowed init t

/-- Run a list of events, all of which must be possible and allowed. -/
def runAll {S E : Type} (step : S → E → Option S) (allowed : S → E → Prop)
    [∀ s e, Decidable (allowed s e)] : S → List E → Option S
  | s, [] => some s
  | s, e :: es =>
    if allowed s e then (step s e).bind fun t => runAll step allowed t es else none

namespace Reaches

variable {S E : Type} {step : S → E → Option S} {allowed : S → E → Prop} {init s t : S}

theorem run [∀ s e, Decidable (allowed s e)] (before : Reaches step allowed init s) :
    ∀ {es : List E}, runAll step allowed s es = some t → Reaches step allowed init t := by
  intro es
  induction es generalizing s with
  | nil =>
    intro h
    cases h
    exact before
  | cons e es ih =>
    intro h
    rw [runAll] at h
    split at h
    case isFalse => cases h
    case isTrue ok =>
      obtain ⟨u, taken, rest⟩ := Option.bind_eq_some_iff.mp h
      exact ih (before.step ok taken) rest

/-- **A state that given events lead to**, with what can be computed of it. -/
theorem exists_run [∀ s e, Decidable (allowed s e)] {P : S → Prop} [DecidablePred P] (es : List E)
    (ran : (runAll step allowed init es).any (fun s => decide (P s)) = true) :
    ∃ s, Reaches step allowed init s ∧ P s := by
  obtain ⟨s, run, holds⟩ := (Option.any_eq_true _ _).mp ran
  exact ⟨s, Reaches.init.run run, of_decide_eq_true holds⟩

/-- The same, with what follows for every state that is reached. -/
theorem exists_run_of [∀ s e, Decidable (allowed s e)] {P Q : S → Prop} [DecidablePred P]
    (es : List E) (ran : (runAll step allowed init es).any (fun s => decide (P s)) = true)
    (also : ∀ s, Reaches step allowed init s → P s → Q s) :
    ∃ s, Reaches step allowed init s ∧ Q s := by
  obtain ⟨s, reached, holds⟩ := exists_run es ran
  exact ⟨s, reached, also s reached holds⟩

theorem trans (first : Reaches step allowed init s) (second : Reaches step allowed s t) :
    Reaches step allowed init t := by
  induction second with
  | init => exact first
  | step _ ok taken ih => exact ih.step ok taken

theorem mono {weaker : S → E → Prop} (imp : ∀ s e, allowed s e → weaker s e)
    (reached : Reaches step allowed init s) : Reaches step weaker init s := by
  induction reached with
  | init => exact .init
  | step _ ok taken ih => exact ih.step (imp _ _ ok) taken

/-- **Forward simulation.**  `R` relates the initial state to one the moves
reach, and every allowed event step from related states is matched by moves into
related states. -/
theorem simulate {A M : Type} {sys : Guarded A M} {G : A → M → Prop} {R : S → A → Prop} {a₀ : A}
    (start : ∃ a, Steps sys G a₀ a ∧ R init a)
    (matched : ∀ s e t a, allowed s e → step s e = some t → Steps sys G a₀ a → R s a →
      ∃ b, Steps sys G a b ∧ R t b)
    (reached : Reaches step allowed init s) : ∃ a, Steps sys G a₀ a ∧ R s a := by
  induction reached with
  | init => exact start
  | step _ ok taken ih => grind [Steps.trans]

end Reaches

/-! ## Pools -/

/-- A process in a pool, with what replacing it and taking it out leave. -/
theorem pool_split {α : Type} {pool : List α} {i : Nat} {x : α} (at_i : pool[i]? = some x) :
    ∃ before after, pool = before ++ x :: after ∧ pool.eraseIdx i = before ++ after ∧
      ∀ y, pool.set i y = before ++ y :: after := by
  obtain ⟨bound, rfl⟩ := List.getElem?_eq_some_iff.mp at_i
  refine ⟨pool.take i, pool.drop (i + 1), ?_, eraseIdx_eq_take_drop_succ .., ?_⟩
  · rw [getElem_cons_drop, take_append_drop]
  · intro y
    rw [set_eq_take_append_cons_drop, if_pos bound]

section

variable {α : Type} {p : α → Prop} {R : α → α → Prop} {xs : List α} {i : Nat} {x x' y : α}

/-- What holds of every process still does after one joins, moves or leaves. -/
theorem forall_mem_append_singleton (old : ∀ y ∈ xs, p y) (new : p x) : ∀ y ∈ xs ++ [x], p y := by
  grind

theorem forall_mem_set (old : ∀ y ∈ xs, p y) (new : p x) : ∀ y ∈ xs.set i x, p y := by
  grind

theorem forall_mem_eraseIdx (old : ∀ y ∈ xs, p y) : ∀ y ∈ xs.eraseIdx i, p y :=
  fun y mem => old y (mem_of_mem_eraseIdx mem)

theorem mem_iff_eraseIdx (at_i : xs[i]? = some x) : y ∈ xs ↔ y = x ∨ y ∈ xs.eraseIdx i := by
  obtain ⟨before, after, split, erased, -⟩ := pool_split at_i
  grind

theorem mem_set_iff_eraseIdx (at_i : xs[i]? = some x) :
    y ∈ xs.set i x' ↔ y = x' ∨ y ∈ xs.eraseIdx i := by
  obtain ⟨before, after, -, erased, set⟩ := pool_split at_i
  rw [erased, set]
  simp only [mem_append, mem_cons]
  tauto

theorem mem_set_self (at_i : xs[i]? = some x) : x' ∈ xs.set i x' :=
  (mem_set_iff_eraseIdx at_i).mpr (.inl rfl)

/-- What holds of every process after a move or without one held of all before, if it held
of the one. -/
theorem forall_mem_of_set (at_i : xs[i]? = some x) (all : ∀ y ∈ xs.set i x', p y)
    (back : p x' → p x) : ∀ y ∈ xs, p y := by
  obtain ⟨before, after, split, -, set⟩ := pool_split at_i
  rw [set, forall_mem_append, forall_mem_cons] at all
  rw [split, forall_mem_append, forall_mem_cons]
  exact ⟨all.1, back all.2.1, all.2.2⟩

theorem forall_mem_of_eraseIdx (at_i : xs[i]? = some x) (all : ∀ y ∈ xs.eraseIdx i, p y)
    (here : p x) : ∀ y ∈ xs, p y := by
  obtain ⟨before, after, split, erased, -⟩ := pool_split at_i
  rw [erased, forall_mem_append] at all
  rw [split, forall_mem_append, forall_mem_cons]
  exact ⟨all.1, here, all.2⟩

/-- In a pool of processes that are apart, the others are apart from the one that moves. -/
theorem mem_set_apart (symm : ∀ y z, R y z → R z y) (apart : xs.Pairwise R)
    (at_i : xs[i]? = some x) (mem : y ∈ xs.set i x') : y = x' ∨ y ∈ xs ∧ R y x := by
  obtain ⟨before, after, split, -, set⟩ := pool_split at_i
  rw [split, pairwise_append, pairwise_cons] at apart
  rw [set, mem_append, mem_cons] at mem
  rcases mem with front | rfl | back
  · simp [apart, split, front]
  · exact .inl rfl
  · simp [symm, apart, split, back]

/-- They stay so if it keeps apart from them. -/
theorem pairwise_set (symm : ∀ y z, R y z → R z y) (apart : xs.Pairwise R)
    (at_i : xs[i]? = some x) (keeps : ∀ y ∈ xs, R y x → R y x') : (xs.set i x').Pairwise R := by
  obtain ⟨before, after, split, -, set⟩ := pool_split at_i
  rw [split, pairwise_append, pairwise_cons] at apart
  obtain ⟨front, ⟨behind, back⟩, across⟩ := apart
  rw [split] at keeps
  rw [set, pairwise_append, pairwise_cons]
  refine ⟨front, ⟨?_, back⟩, ?_⟩
  · grind
  · grind

end

section

variable {α β : Type} {R : α → β → Prop} {xs : List α} {ys : List β} {i : Nat} {x x' : α} {y' : β}

/-- A pool and what is kept about each of its processes, after a step of one of them. -/
theorem forall₂_set (all : Forall₂ R xs ys) (at_i : xs[i]? = some x)
    (changed : ∀ y, ys[i]? = some y → R x y → R x' y') :
    Forall₂ R (xs.set i x') (ys.set i y') := by
  induction all generalizing i with
  | nil => cases at_i
  | cons first rest ih =>
    cases i with
    | zero =>
      cases at_i
      exact .cons (changed _ rfl first) rest
    | succ i => exact .cons first (ih at_i changed)

theorem forall₂_getElem (all : Forall₂ R xs ys) (at_i : xs[i]? = some x) :
    ∃ y, ys[i]? = some y ∧ R x y := by
  induction all generalizing i with
  | nil => cases at_i
  | cons first rest ih => grind

theorem forall₂_eraseIdx (all : Forall₂ R xs ys) (i : Nat) :
    Forall₂ R (xs.eraseIdx i) (ys.eraseIdx i) := by
  induction all generalizing i with
  | nil => exact .nil
  | cons first rest ih =>
    cases i with
    | zero => exact rest
    | succ i => exact .cons first (ih i)

theorem set_getElem_self {y : β} (at_i : ys[i]? = some y) : ys.set i y = ys := by
  obtain ⟨before, after, split, -, set⟩ := pool_split at_i
  rw [set, ← split]

end

end PubsubBroker.Theory
