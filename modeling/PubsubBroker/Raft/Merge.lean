/-
# Raft.Merge — what a follower's log becomes

`appendEntriesFromLeader` seen from both ends.  Whatever the logs are, an
accepted request is contained in the result (`appendEntriesFromLeader_contains`).
When the follower's log `F` and the leader's log `G` match wherever they agree on
a term, the result is `F` itself, holding everything that was sent, or exactly
the part of `G` the request covers, and then `F` really differed from `G` there
(`Merged`).  In particular whatever `F` and `G` have in common at the front
survives.
-/
import PubsubBroker.Raft.Protocol
import PubsubBroker.Theory.Attribution

namespace PubsubBroker.Raft

open Theory List

/-! ## Terms by position -/

@[simp] theorem termAt_zero (log : Log) : termAt log 0 = 0 := rfl

variable {log : Log}

theorem termAt_succ {k : Nat} {e : LogEntry} (at_k : log[k]? = some e) :
    termAt log (k + 1) = e.term := by
  simp [termAt, at_k]

variable {log' : Log}

theorem termAt_congr {k n : Nat} (same : log.take n = log'.take n) (le : k ≤ n) :
    termAt log k = termAt log' k := by
  rcases k with _ | k
  · rfl
  · have at_k : ∀ l : Log, l[k]? = (l.take n)[k]? := fun l =>
      (getElem?_take_of_lt (Nat.lt_of_succ_le le)).symm
    simp [termAt, at_k log, at_k log', same]

theorem termAt_append_right (log more : Log) (k : Nat) :
    termAt (log ++ more) (log.length + k + 1) = termAt more (k + 1) := by
  simp [termAt, getElem?_append_right]

/-! ## Containment -/

/-- What the loop leaves behind: the front is untouched and the terms of all
entries from position `idx` on are those sent. -/
theorem mergeEntries_terms (log : Log) : ∀ (idx : Nat) (entries : List LogEntry),
    1 ≤ idx → idx - 1 ≤ log.length →
    (mergeEntries log idx entries).take (idx - 1) = log.take (idx - 1) ∧
      idx - 1 + entries.length ≤ (mergeEntries log idx entries).length ∧
      ∀ k < entries.length, termAt (mergeEntries log idx entries) (idx + k) = termAt entries (k + 1)
  | idx, [], pos, short => ⟨rfl, by simpa [mergeEntries] using short, by simp⟩
  | idx, newEntry :: rest, pos, short => by
    obtain ⟨p, rfl⟩ : ∃ p, idx = p + 1 := ⟨idx - 1, by omega⟩
    simp only [Nat.add_sub_cancel] at short ⊢
    have cut : ∀ front : Log, front.length = p → front = log.take p →
        (front ++ newEntry :: rest).take p = log.take p ∧
          p + (newEntry :: rest).length ≤ (front ++ newEntry :: rest).length ∧
          ∀ k < (newEntry :: rest).length,
            termAt (front ++ newEntry :: rest) (p + 1 + k) = termAt (newEntry :: rest) (k + 1) := by
      rintro front rfl front_eq
      refine ⟨by rw [take_left, ← front_eq], by simp, fun k _ => ?_⟩
      rw [show front.length + 1 + k = front.length + k + 1 by omega, termAt_append_right]
    unfold mergeEntries
    split
    case isTrue full => exact cut log (by omega) (take_of_length_le (by omega)).symm
    case isFalse inside =>
      rw [Nat.add_sub_cancel]
      split
      case h_2 none => simp at none; omega
      case h_1 existing at_p =>
        split
        case isTrue => exact cut (log.take p) (by simp; omega) rfl
        case isFalse same =>
          obtain ⟨front, len, terms⟩ :=
            mergeEntries_terms log (p + 1 + 1) rest (by omega) (by omega)
          simp only [Nat.add_sub_cancel] at front len
          refine ⟨?_, by simp only [length_cons]; omega, ?_⟩
          · have := congrArg (List.take p) front
            simpa [take_take] using this
          · rintro (_ | k) lt
            · rw [Nat.add_zero, termAt_congr front le_rfl, termAt_succ at_p]
              exact (not_not.mp same).trans (by simp [termAt])
            · have := terms k (by simpa using lt)
              grind [termAt]

theorem appendEntriesFromLeader_ok {prev prevTerm : Nat} {entries : List LogEntry}
    (accepted : appendEntriesFromLeader log prev prevTerm entries = .ok log') :
    prev ≤ log.length ∧ termAt log prev = (if prev = 0 then 0 else prevTerm) ∧
      log' = mergeEntries log (prev + 1) entries := by
  unfold appendEntriesFromLeader at accepted
  split at accepted
  case isTrue => cases accepted
  case isFalse short =>
    split at accepted
    case isTrue zero =>
      subst zero
      exact ⟨by omega, by simp, by simpa using accepted.symm⟩
    case isFalse nonzero =>
      split at accepted
      case h_2 => cases accepted
      case h_1 entry at_prev =>
        split at accepted
        case isTrue => cases accepted
        case isFalse same =>
          obtain ⟨k, rfl⟩ : ∃ k, prev = k + 1 := ⟨prev - 1, by omega⟩
          refine ⟨by omega, ?_, by simpa using accepted.symm⟩
          rw [termAt_succ (by simpa using at_prev), if_neg nonzero, not_not.mp same]

variable {args : AppendEntriesArgs}

/-- **An accepted request is contained in the follower's new log.** -/
theorem appendEntriesFromLeader_contains
    (accepted : appendEntriesFromLeader log args.prevLogIndex args.prevLogTerm args.entries =
      .ok log') : Contains log' args := by
  obtain ⟨short, prev, rfl⟩ := appendEntriesFromLeader_ok accepted
  obtain ⟨front, len, terms⟩ :=
    mergeEntries_terms log (args.prevLogIndex + 1) args.entries (by omega) (by simpa using short)
  simp only [Nat.add_sub_cancel] at front len
  refine ⟨len, ?_, fun k lt => ?_⟩
  · rw [termAt_congr front le_rfl, prev]
  · grind

theorem appendEntriesFromLeader_of {prev prevTerm : Nat} (short : prev ≤ log.length)
    (agree : termAt log prev = if prev = 0 then 0 else prevTerm) (entries : List LogEntry) :
    appendEntriesFromLeader log prev prevTerm entries = .ok (mergeEntries log (prev + 1) entries) := by
  unfold appendEntriesFromLeader
  rw [if_neg (not_lt.mpr short)]
  rcases prev with _ | k
  · rfl
  · have at_k := getElem?_eq_getElem (Nat.lt_of_succ_le short)
    rw [termAt_succ at_k, if_neg (Nat.succ_ne_zero k)] at agree
    simp [at_k, agree]

theorem mergeEntries_same : ∀ (p : Nat) (entries : List LogEntry),
    p + entries.length ≤ log.length →
    (∀ k < entries.length, termAt log (p + k + 1) = termAt entries (k + 1)) →
    mergeEntries log (p + 1) entries = log
  | _, [], _, _ => rfl
  | p, newEntry :: rest, len, terms => by
    rw [length_cons] at len
    have at_p := getElem?_eq_getElem (show p < log.length by omega)
    have first := terms 0 (by simp)
    rw [Nat.add_zero, termAt_succ at_p] at first
    unfold mergeEntries
    rw [if_neg (by omega), Nat.add_sub_cancel, at_p]
    simp only
    rw [if_neg (by rw [not_not, first]; simp [termAt])]
    refine mergeEntries_same (p + 1) rest (by omega) fun k lt => ?_
    have later := terms (k + 1) (by simpa using lt)
    grind [termAt]

/-- **A contained request changes nothing.** -/
theorem appendEntriesFromLeader_again (contains : Contains log args) :
    appendEntriesFromLeader log args.prevLogIndex args.prevLogTerm args.entries = .ok log := by
  have len := contains.len
  rw [appendEntriesFromLeader_of (by omega) contains.prev,
    mergeEntries_same _ _ len contains.terms]

/-! ## Length -/

theorem mergeEntries_length (log : Log) : ∀ (p : Nat) (entries : List LogEntry), p ≤ log.length →
    mergeEntries log (p + 1) entries = log ∨
      (mergeEntries log (p + 1) entries).length = p + entries.length
  | _, [], _ => .inl rfl
  | p, newEntry :: rest, short => by
    unfold mergeEntries
    split
    case isTrue full => simp; omega
    case isFalse inside =>
      rw [Nat.add_sub_cancel]
      split
      case h_2 => exact .inl rfl
      case h_1 existing at_p =>
        split
        case isTrue => simp [short]
        case isFalse =>
          refine (mergeEntries_length log (p + 1) rest (by omega)).imp_right fun len => ?_
          simp; omega

/-- One of the entries sent meets an entry of another term. -/
def Conflicts (log : Log) (args : AppendEntriesArgs) : Prop :=
  ∃ k < args.entries.length, args.prevLogIndex + k < log.length ∧
    termAt log (args.prevLogIndex + k + 1) ≠ termAt args.entries (k + 1)

/-- The accepted log ends where the request ends, unless nothing was cut off: then
it is the old log, and no entry conflicted. -/
theorem appendEntriesFromLeader_length
    (accepted : appendEntriesFromLeader log args.prevLogIndex args.prevLogTerm args.entries =
      .ok log') :
    log'.length = args.prevLogIndex + args.entries.length ∨
      log' = log ∧ ¬ Conflicts log args := by
  have contains := appendEntriesFromLeader_contains accepted
  obtain ⟨short, -, rfl⟩ := appendEntriesFromLeader_ok accepted
  rcases mergeEntries_length log args.prevLogIndex args.entries short with same | len
  · rw [same] at contains ⊢
    right
    refine ⟨rfl, ?_⟩
    rintro ⟨k, lt, -, differ⟩
    exact differ (contains.terms k lt)
  · exact .inl len

/-! ## The leader's side -/

/-- `F` after taking in the first `n` entries of `G`. -/
inductive Merged (F G : Log) (n : Nat) : Log → Prop where
  | kept (same : F.take n = G.take n) (long : n ≤ F.length) : Merged F G n F
  | replaced (j : Nat) (lt : j < n) (same : F.take j = G.take j)
      (differ : F.take (j + 1) ≠ G.take (j + 1)) : Merged F G n (G.take n)

variable {F G : Log}

/-- **Common fronts survive a merge.** -/
theorem Merged.keeps {P : Log} {n : Nat} (merged : Merged F G n log') (hF : P <+: F) (hG : P <+: G)
    : P <+: log' := by
  cases merged with
  | kept => exact hF
  | replaced j lt same differ =>
    have short : P.length ≤ j := by
      by_contra long
      refine differ ?_
      rw [take_eq_of_isPre hF (by omega), take_eq_of_isPre hG (by omega)]
    grind

theorem Merged.take_eq {n : Nat} (merged : Merged F G n log') : log'.take n = G.take n := by
  cases merged with
  | kept same => exact same
  | replaced => rw [take_take, Nat.min_self]

/-- Two logs that match wherever they agree on a term. -/
def Matching (F G : Log) : Prop :=
  ∀ k a b, F[k]? = some a → G[k]? = some b → a.term = b.term → F.take (k + 1) = G.take (k + 1)

theorem Matching.of_termAt (matching : Matching F G) {k : Nat} (hF : k ≤ F.length)
    (hG : k ≤ G.length) (same : termAt F k = termAt G k) : F.take k = G.take k := by
  rcases k with _ | k
  · rfl
  · have hF' := getElem?_eq_getElem (Nat.lt_of_succ_le hF)
    have hG' := getElem?_eq_getElem (Nat.lt_of_succ_le hG)
    rw [termAt_succ hF', termAt_succ hG'] at same
    exact matching k _ _ hF' hG' same

theorem Matching.take_left (matching : Matching F G) (n : Nat) : Matching (F.take n) G := by
  intro k a b at_F at_G same
  obtain ⟨short, -⟩ := List.getElem?_eq_some_iff.mp at_F
  rw [length_take] at short
  rw [getElem?_take_of_lt (by omega)] at at_F
  rw [take_take, Nat.min_eq_left (by omega)]
  exact matching k a b at_F at_G same

theorem Matching.refl (G : Log) : Matching G G := fun _ _ _ _ _ _ => rfl

/-- **A merge keeps the logs matching.** -/
theorem Merged.matching {n : Nat} (merged : Merged F G n log') (matching : Matching F G) :
    Matching log' G := by
  cases merged with
  | kept => exact matching
  | replaced => exact (Matching.refl G).take_left n

theorem mergeEntries_merged (matching : Matching F G) :
    ∀ (p : Nat) (entries : List LogEntry), p ≤ F.length → F.take p = G.take p → p ≤ G.length →
      G.take p ++ entries <+: G → Merged F G (p + entries.length) (mergeEntries F (p + 1) entries)
  | p, [], short, same, _, _ => .kept (by simpa using same) (by simpa using short)
  | p, newEntry :: rest, short, same, len, sent => by
    have at_p : G[p]? = some newEntry := by
      refine getElem?_of_isPre sent ?_
      simp [len]
    obtain ⟨lt, -⟩ := List.getElem?_eq_some_iff.mp at_p
    have covered : G.take (p + (newEntry :: rest).length) = G.take p ++ newEntry :: rest := by
      have := prefix_iff_eq_take.mp sent
      rw [this, length_append, length_take, Nat.min_eq_left len]
    unfold mergeEntries
    split
    case isTrue full =>
      -- the follower's log ends where the new entry goes
      have whole : F = G.take p := by rw [← same, take_of_length_le (by omega)]
      rw [whole, ← covered, ← whole]
      refine .replaced p (by simp) same fun eq => ?_
      have := congrArg List.length eq
      simp only [length_take] at this
      omega
    case isFalse inside =>
      rw [Nat.add_sub_cancel]
      split
      case h_2 none => simp at none; omega
      case h_1 existing at_F =>
        split
        case isTrue conflict =>
          rw [same, ← covered]
          refine .replaced p (by simp) same fun eq => conflict ?_
          have := congrArg (·[p]?) eq
          grind
        case isFalse agree =>
          have next := matching p _ _ at_F at_p (not_not.mp agree)
          have := mergeEntries_merged matching (p + 1) rest (by omega) next (by omega) (by
            rwa [take_add_one, at_p, Option.toList_some, append_assoc,
              singleton_append])
          simpa [Nat.add_assoc, Nat.add_comm 1] using this

/-- The request is a piece of the log `G`. -/
structure Slice (G : Log) (args : AppendEntriesArgs) : Prop where
  len : args.prevLogIndex ≤ G.length
  prev : termAt G args.prevLogIndex = if args.prevLogIndex = 0 then 0 else args.prevLogTerm
  sent : G.take args.prevLogIndex ++ args.entries <+: G

namespace Slice

variable {F G log' : Log} {args : AppendEntriesArgs}

theorem total (slice : Slice G args) :
    args.prevLogIndex + args.entries.length ≤ G.length := by
  have := slice.sent.length_le
  rwa [length_append, length_take, Nat.min_eq_left slice.len] at this

theorem mono (slice : Slice F args) (grown : F <+: G) : Slice G args where
  len := slice.len.trans grown.length_le
  prev := by
    rw [← slice.prev]
    exact termAt_congr (take_eq_of_isPre grown slice.len) le_rfl
  sent := by
    rw [take_eq_of_isPre grown slice.len]
    exact slice.sent.trans grown

theorem merged (slice : Slice G args) (matching : Matching F G)
    (accepted : appendEntriesFromLeader F args.prevLogIndex args.prevLogTerm args.entries =
      .ok log') : Merged F G (args.prevLogIndex + args.entries.length) log' := by
  obtain ⟨short, prev, rfl⟩ := appendEntriesFromLeader_ok accepted
  have same := matching.of_termAt short slice.len (prev.trans slice.prev.symm)
  exact mergeEntries_merged matching _ _ short same slice.len slice.sent

theorem take_eq (slice : Slice G args) (matching : Matching F G) (contains : Contains F args) :
    F.take (args.prevLogIndex + args.entries.length) =
      G.take (args.prevLogIndex + args.entries.length) := by
  refine matching.of_termAt contains.len slice.total ?_
  rcases hk : args.entries.length with _ | k
  · rw [Nat.add_zero, contains.prev, slice.prev]
  · have lt : k < args.entries.length := by omega
    have whole := termAt_congr (k := args.prevLogIndex + k + 1)
      (take_eq_of_isPre slice.sent le_rfl) (by
        rw [length_append, length_take, Nat.min_eq_left slice.len]
        omega)
    rw [← Nat.add_assoc, contains.terms k lt, whole]
    have := termAt_append_right (G.take args.prevLogIndex) args.entries k
    rw [length_take, Nat.min_eq_left slice.len] at this
    exact this.symm

end Slice

end PubsubBroker.Raft
