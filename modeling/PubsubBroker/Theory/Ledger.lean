/-
# Theory.Ledger — whose record is it

A family of append-only logs, and a list of claims: each claim names a place in
one of the logs and says something about the record there.  A `Ledger` is a
family with claims that are *sound*, what is claimed is there, and *complete*,
what is there is claimed.  Only `push` changes the logs, and it keeps a ledger
when the new record is claimed by whoever pushed it (`Ledger.push`); handing a
claim on from one party to another changes nothing (`Ledger.congr`).

The second half is about intents: a note, made before the record is pushed, of
the place it is meant for.  `Answered` says that an intent is settled once its log
has grown past the place, and that until then someone answers for it.  A push
settles the intents of its own log and does not touch the others
(`Answered.push`).
-/
import Mathlib.Data.List.Basic
import Mathlib.Logic.Function.Basic

namespace PubsubBroker.Theory

open List

/-- A place in a family of logs. -/
structure Place (P : Type) where
  log : P
  index : Nat
deriving DecidableEq

section Logs

variable {P M : Type}

/-- The record at a place. -/
def At (logs : P → List M) (place : Place P) (m : M) : Prop :=
  (logs place.log)[place.index]? = some m

theorem At.unique {logs : P → List M} {place : Place P} {m m' : M} (first : At logs place m)
    (second : At logs place m') : m = m' :=
  Option.some.inj (first.symm.trans second)

variable [DecidableEq P]

/-- Append a record to one log. -/
def push (logs : P → List M) (p : P) (m : M) : P → List M :=
  Function.update logs p (logs p ++ [m])

theorem push_self (logs : P → List M) (p : P) (m : M) : push logs p m p = logs p ++ [m] :=
  Function.update_self ..

theorem push_of_ne {logs : P → List M} {p q : P} (other : q ≠ p) (m : M) :
    push logs p m q = logs q :=
  Function.update_of_ne other ..

/-- Records stay where they are, and the new one is at the end. -/
theorem at_push_iff {logs : P → List M} {p : P} {m x : M} {place : Place P} :
    At (push logs p x) place m ↔ At logs place m ∨ place = ⟨p, (logs p).length⟩ ∧ m = x := by
  obtain ⟨q, n⟩ := place
  unfold At
  by_cases same : q = p
  · subst same
    simp only [push_self, getElem?_append, getElem?_singleton, Place.mk.injEq, true_and]
    grind
  · simp [push_of_ne same, same]

end Logs

/-! ## Claims -/

section Claims

variable {P M C : Type}

/-- Every claim is right, and every record is claimed. -/
structure Ledger (place : C → Place P) (fits : C → M → Prop) (logs : P → List M)
    (claims : List C) : Prop where
  sound : ∀ c ∈ claims, ∃ m, At logs (place c) m ∧ fits c m
  complete : ∀ at_ m, At logs at_ m → ∃ c ∈ claims, place c = at_

namespace Ledger

variable {place : C → Place P} {fits : C → M → Prop} {logs : P → List M} {claims claims' : List C}

theorem nil : Ledger place fits (fun _ => ([] : List M)) [] where
  sound := by simp
  complete := by
    intro at_ m held
    cases held

theorem congr (same : ∀ c, c ∈ claims ↔ c ∈ claims') (ledger : Ledger place fits logs claims) :
    Ledger place fits logs claims' where
  sound c mem := ledger.sound c ((same c).mpr mem)
  complete at_ m held := by
    obtain ⟨c, mem, eq⟩ := ledger.complete at_ m held
    exact ⟨c, (same c).mp mem, eq⟩

/-- A record is claimed by someone who is right about it. -/
theorem claimed (ledger : Ledger place fits logs claims) {at_ : Place P} {m : M}
    (held : At logs at_ m) : ∃ c ∈ claims, place c = at_ ∧ fits c m := by
  obtain ⟨c, mem, rfl⟩ := ledger.complete at_ m held
  obtain ⟨m', held', right⟩ := ledger.sound c mem
  exact ⟨c, mem, rfl, held.unique held' ▸ right⟩

/-- **A pushed record is claimed by whoever pushed it.** -/
theorem push [DecidableEq P] (ledger : Ledger place fits logs claims) {p : P} {x : M} {c : C}
    (here : place c = ⟨p, (logs p).length⟩) (right : fits c x) :
    Ledger place fits (push logs p x) (c :: claims) where
  sound := by
    intro d mem
    cases mem with
    | head => exact ⟨x, at_push_iff.mpr (.inr ⟨here, rfl⟩), right⟩
    | tail _ old =>
      obtain ⟨m, held, right⟩ := ledger.sound d old
      exact ⟨m, at_push_iff.mpr (.inl held), right⟩
  complete := by
    intro at_ m held
    rcases at_push_iff.mp held with old | ⟨rfl, -⟩
    · obtain ⟨d, mem, eq⟩ := ledger.complete at_ m old
      grind
    · exact ⟨c, mem_cons_self, here⟩

end Ledger

end Claims

/-! ## Intents -/

section Intents

variable {P M : Type} {logs : P → List M} {p home : P} {target : Nat} {answer answer' : Prop}

/-- The log has grown past the target, or is about to reach it and someone
answers for it. -/
def Answered (logs : P → List M) (home : P) (target : Nat) (answer : Prop) : Prop :=
  target ≤ (logs home).length ∧ (target = (logs home).length → answer)

theorem Answered.mono (imp : answer → answer') (old : Answered logs home target answer) :
    Answered logs home target answer' :=
  ⟨old.1, fun due => imp (old.2 due)⟩

/-- **A push settles the intents of its log.**  Only those of other logs still
need an answer. -/
theorem Answered.push [DecidableEq P] {x : M} (old : Answered logs home target answer)
    (elsewhere : home ≠ p → answer → answer') :
    Answered (push logs p x) home target answer' := by
  by_cases same : home = p
  · subst same
    have bound := old.1
    refine ⟨?_, ?_⟩
    · rw [push_self, length_append]
      omega
    simp [push_self]; omega
  · grind [Answered, push_of_ne]

end Intents

end PubsubBroker.Theory
