/-
# Theory.RoundRobin — a round robin that is advanced in strides

A round robin over `n` places whose counter goes up by `step` between two uses.  The places it
names are `(start + step * j) % n`; two uses name the same place when their numbers agree
modulo `n / gcd n step` (`strided_eq_iff`).

With a stride that is coprime to `n` the places are used evenly, however often the round robin
is used.  With any other stride the places of the other residue classes are never used, and the
loads differ by two as soon as a place comes up again (`strided_balanced_iff`).
-/
import Mathlib.Data.Int.CardIntervalMod
import Mathlib.Data.Fintype.EquivFin
import Mathlib.Data.Nat.ModEq

namespace PubsubBroker.Theory

open List

/-- The places of the first `count` uses. -/
def strided (start step n count : Nat) : List Nat :=
  (List.range count).map fun j => (start + step * j) % n

/-- No place has two uses more than another. -/
def Balanced (n : Nat) (places : List Nat) : Prop :=
  ∀ p < n, ∀ q < n, places.count p ≤ places.count q + 1

theorem strided_succ (start step n count : Nat) :
    strided start step n (count + 1) = start % n :: strided (start + step) step n count := by
  rw [strided, range_succ_eq_map, map_cons, map_map, mul_zero, add_zero]
  refine congrArg _ (map_congr_left ?_)
  intro j _
  rw [Function.comp_apply, Nat.mul_succ, add_comm (step * j), add_assoc]

section

variable (start step : Nat) {n : Nat} (positive : 0 < n)
include positive

/-- **When a place comes up again.** -/
theorem strided_eq_iff (i j : Nat) :
    (start + step * i) % n = (start + step * j) % n ↔ i ≡ j [MOD n / n.gcd step] := by
  constructor
  · intro same
    have same : step * i ≡ step * j [MOD n] := Nat.ModEq.add_left_cancel' start same
    exact same.cancel_left_div_gcd positive
  · intro same
    have divides : n ∣ n / n.gcd step * step := by
      obtain ⟨k, eq⟩ := Nat.gcd_dvd_right n step
      refine ⟨k, ?_⟩
      grind [Nat.div_mul_cancel, Nat.gcd_dvd_left]
    have scaled : i * step ≡ j * step [MOD n] := (same.mul_right' step).of_dvd divides
    rw [mul_comm i, mul_comm j] at scaled
    exact scaled.add_left start

theorem period_pos : 0 < n / n.gcd step :=
  Nat.div_pos (Nat.le_of_dvd positive (Nat.gcd_dvd_left n step))
    (Nat.gcd_pos_of_pos_left step positive)

/-- How often a place is used that comes up at all. -/
theorem count_strided (i count : Nat) :
    (strided start step n count).count ((start + step * i) % n) =
      count / (n / n.gcd step) + if i % (n / n.gcd step) < count % (n / n.gcd step) then 1 else 0 := by
  rw [← Nat.count_modEq_card count (period_pos step positive) i, strided, Nat.count, List.count, countP_map]
  refine countP_congr ?_
  intro j _
  simp only [Function.comp_apply, beq_iff_eq, decide_eq_true_eq]
  exact strided_eq_iff start step positive j i

/-- A coprime stride comes to every place. -/
theorem strided_surjective (coprime : n.gcd step = 1) {p : Nat} (place : p < n) :
    ∃ i, (start + step * i) % n = p := by
  have injective : Function.Injective fun i : Fin n =>
      (⟨(start + step * i) % n, Nat.mod_lt _ positive⟩ : Fin n) := by
    intro i j same
    have agree := (strided_eq_iff start step positive i.val j.val).mp (congrArg Fin.val same)
    rw [coprime, Nat.div_one] at agree
    exact Fin.ext (agree.eq_of_lt_of_lt i.isLt j.isLt)
  obtain ⟨i, eq⟩ := Finite.surjective_of_injective injective ⟨p, place⟩
  exact ⟨i, congrArg Fin.val eq⟩

/-- A place is used a second time only after a whole period. -/
theorem count_strided_le_one {count : Nat} (once : count * n.gcd step ≤ n) (p : Nat) :
    (strided start step n count).count p ≤ 1 := by
  have short : count ≤ n / n.gcd step :=
    (Nat.le_div_iff_mul_le (Nat.gcd_pos_of_pos_left step positive)).mpr once
  by_cases mem : p ∈ strided start step n count
  · obtain ⟨i, -, rfl⟩ := mem_map.mp mem
    rw [count_strided start step positive]
    rcases short.lt_or_eq with less | same
    · rw [Nat.div_eq_of_lt less]
      split <;> omega
    · rw [← same, Nat.mod_self, if_neg (Nat.not_lt_zero _), add_zero]
      rcases Nat.eq_zero_or_pos count with rfl | some
      · exact Nat.zero_le 1
      · exact (Nat.div_self some).le
  · grind

omit positive in
/-- Any other stride leaves the next place out. -/
theorem next_not_mem_strided (common : n.gcd step ≠ 1) (count : Nat) :
    (start + 1) % n ∉ strided start step n count := by
  intro mem
  obtain ⟨j, -, same⟩ := mem_map.mp mem
  have same : step * j ≡ 1 [MOD n] := Nat.ModEq.add_left_cancel' start same
  have divides := same.of_dvd (Nat.gcd_dvd_left n step)
  have zero : step * j ≡ 0 [MOD n.gcd step] :=
    (Nat.modEq_zero_iff_dvd.mpr ((Nat.gcd_dvd_right n step).mul_right j))
  exact common (Nat.dvd_one.mp (Nat.modEq_zero_iff_dvd.mp (divides.symm.trans zero)))

/-- **Which strides are fair.**  The loads of two places differ by at most one if and only if
the stride is coprime to the number of places, or no place has come up again yet. -/
theorem strided_balanced_iff (count : Nat) :
    Balanced n (strided start step n count) ↔ n.gcd step = 1 ∨ count * n.gcd step ≤ n := by
  have gcdPos : 0 < n.gcd step := Nat.gcd_pos_of_pos_left step positive
  constructor
  · intro balanced
    by_contra neither
    obtain ⟨common, again⟩ := not_or.mp neither
    have period : n / n.gcd step < count := (Nat.div_lt_iff_lt_mul gcdPos).mpr (not_le.mp again)
    have first := count_strided start step positive 0 count
    have twice : 2 ≤ (strided start step n count).count (start % n) := by
      rw [mul_zero, add_zero, Nat.zero_mod] at first
      rw [first]
      have whole := Nat.div_add_mod count (n / n.gcd step)
      split
      · have once := Nat.div_pos period.le (period_pos step positive)
        omega
      · have more : n / n.gcd step * 1 < n / n.gcd step * (count / (n / n.gcd step)) := by omega
        exact Nat.lt_of_mul_lt_mul_left more
    have loads := balanced _ (Nat.mod_lt start positive) _ (Nat.mod_lt (start + 1) positive)
    grind [next_not_mem_strided]
  · rintro (coprime | once) p hp q hq
    · obtain ⟨i, rfl⟩ := strided_surjective start step positive coprime hp
      obtain ⟨j, rfl⟩ := strided_surjective start step positive coprime hq
      grind [count_strided]
    · exact (count_strided_le_one start step positive once p).trans (Nat.le_add_left 1 _)

end

end PubsubBroker.Theory
