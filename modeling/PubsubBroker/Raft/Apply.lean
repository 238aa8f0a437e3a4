/-
# Raft.Apply — what the apply loop does

`applyCommittedLocked` walks from `lastApplied` to `commitIndex`.  Both callers
set a commit index inside the log first, so the walk never leaves it, and the
loop is one assignment: the applied index moves, the waiting proposals it passed
are gone, and each passed position gave one applied entry and the signals of the
callers that waited for it (`applyLoop_eq`).
-/
import PubsubBroker.Raft.Node
import Mathlib.Data.List.Basic

namespace PubsubBroker.Raft

open List

/-- The entry at a 1-based position is applied and whoever waits for it is woken. -/
def applyAt (n : Node) (index : Nat) (entry : LogEntry) : List Effect :=
  .apply index entry :: (n.proposals.filter (·.1 = index)).map (.signal ·.2)

/-- The effects of walking over these entries, from the position behind `index` on. -/
def applyRange (n : Node) : Nat → List LogEntry → List Effect
  | _, [] => []
  | index, entry :: rest => applyAt n (index + 1) entry ++ applyRange n (index + 1) rest

/-- The node after a walk to `index`. -/
def appliedTo (n : Node) (index : Nat) : Node :=
  { n with
    lastApplied := index
    proposals := n.proposals.filter fun p => ¬ (n.lastApplied < p.1 ∧ p.1 ≤ index) }

theorem appliedTo_self (n : Node) : appliedTo n n.lastApplied = n := by
  simp [appliedTo]

theorem applyLoop_eq : ∀ (k : Nat) (n : Node), n.lastApplied + k ≤ n.state.log.length →
    applyLoop k n = (appliedTo n (n.lastApplied + k),
      applyRange n n.lastApplied ((n.state.log.drop n.lastApplied).take k))
  | 0, n, _ => by
    rw [Nat.add_zero, appliedTo_self]
    rfl
  | k + 1, n, room => by
    have lt : n.lastApplied < n.state.log.length := by omega
    let next : Node := { n with
      lastApplied := n.lastApplied + 1
      proposals := n.proposals.filter (·.1 ≠ n.lastApplied + 1) }
    have later := applyLoop_eq k next (show n.lastApplied + 1 + k ≤ n.state.log.length by omega)
    have front : (n.state.log.drop n.lastApplied).take (k + 1) =
        n.state.log[n.lastApplied] :: (n.state.log.drop (n.lastApplied + 1)).take k := by
      rw [drop_eq_getElem_cons lt, take_succ_cons]
    -- a proposal passed later is not one of those woken here
    have same : ∀ (rest : List LogEntry) (index : Nat), n.lastApplied + 1 ≤ index →
        applyRange next index rest = applyRange n index rest := by
      intro rest
      induction rest with
      | nil => exact fun _ _ => rfl
      | cons entry rest ih =>
        intro index passed
        have waiting : (next.proposals.filter (·.1 = index + 1)) =
            n.proposals.filter (·.1 = index + 1) := by
          simp only [next, filter_filter]
          refine filter_congr fun p _ => ?_
          by_cases here : p.1 = index + 1
          · simp [here]
            omega
          · simp [here]
        grind [applyRange, applyAt]
    have kept : appliedTo next (next.lastApplied + k) =
        appliedTo n (n.lastApplied + (k + 1)) := by
      have filtered : (n.proposals.filter (·.1 ≠ n.lastApplied + 1)).filter
            (fun p => ¬ (n.lastApplied + 1 < p.1 ∧ p.1 ≤ n.lastApplied + 1 + k)) =
          n.proposals.filter fun p => ¬ (n.lastApplied < p.1 ∧ p.1 ≤ n.lastApplied + (k + 1)) := by
        rw [filter_filter]
        refine filter_congr fun p _ => ?_
        simp only [← Bool.decide_and, decide_eq_decide]
        omega
      unfold appliedTo
      simp only [next, filtered, Node.mk.injEq, true_and, and_true]
      omega
    have step : applyLoop (k + 1) n = ((applyLoop k next).1,
        applyAt n (n.lastApplied + 1) n.state.log[n.lastApplied] ++ (applyLoop k next).2) := by
      simp [applyLoop, getElem?_eq_getElem lt, applyAt, next]
    grind [applyRange]

theorem applyCommittedLocked_eq {n : Node} (within : n.commitIndex ≤ n.state.log.length) :
    applyCommittedLocked n = (appliedTo n (max n.lastApplied n.commitIndex),
      applyRange n n.lastApplied
        ((n.state.log.take n.commitIndex).drop n.lastApplied)) := by
  unfold applyCommittedLocked
  by_cases behind : n.lastApplied ≤ n.commitIndex
  · grind [applyLoop_eq]
  · rw [Nat.sub_eq_zero_of_le (by omega), Nat.max_eq_left (by omega), appliedTo_self,
      drop_of_length_le (by rw [length_take]; omega)]
    rfl

end PubsubBroker.Raft
