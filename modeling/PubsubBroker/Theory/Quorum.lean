/-
# Theory.Quorum — majorities of a finite membership

A quorum of a membership list is a duplicate-free part of it with more than half
of its members.  Two quorums share a member, and that is the only fact about
counting a consensus argument needs.
-/
import Mathlib.Data.List.Nodup
import Mathlib.Data.List.Perm.Subperm

namespace PubsubBroker.Theory

structure Quorum {α : Type} (members q : List α) : Prop where
  nodup : q.Nodup
  subset : q ⊆ members
  majority : members.length / 2 + 1 ≤ q.length

namespace Quorum

variable {α : Type} {members q r : List α}

/-- **Quorum intersection.** -/
theorem inter (hq : Quorum members q) (hr : Quorum members r) : ∃ v, v ∈ q ∧ v ∈ r := by
  by_contra disjoint
  push Not at disjoint
  have nodup : (q ++ r).Nodup :=
    hq.nodup.append hr.nodup fun v hv hv' => disjoint v hv hv'
  have within : q ++ r ⊆ members := List.append_subset.mpr ⟨hq.subset, hr.subset⟩
  have count := (nodup.subperm within).length_le
  rw [List.length_append] at count
  have := hq.majority
  have := hr.majority
  omega

end Quorum

end PubsubBroker.Theory
