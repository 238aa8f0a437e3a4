/-
# Raft.LogMatching — every log is attributed to the leaders of its terms

Log Matching for the moves of `Raft.Protocol`, in every run in which no term has
two leaders.  The owner log of a term is `leaderLog`; the invariant says that
every log of a node, and every slice of a log inside a request still in flight,
is attributed to those owners (`Theory.Attribution`).
-/
import PubsubBroker.Raft.Ballots
import PubsubBroker.Raft.Merge

namespace PubsubBroker.Raft

open Theory List

variable {C : Cluster} {s : Proto} {m : Move}

/-! ## What a move does to logs -/

theorem log_move (s : Proto) (m : Move) (j : NodeID) :
    ((s.move m).party j).log = (s.party j).log ∨
      (∃ args log, m = .accept j args log ∧ ((s.move m).party j).log = log) ∨
      ∃ cmd, m = .propose j cmd ∧ ((s.move m).party j).log =
        (s.party j).log ++ [⟨(s.party j).term, (s.party j).log.length + 1, cmd⟩] := by
  by_cases other : j = m.actor
  · subst other
    cases m <;> simp [Proto.move, Move.actor, Party.follow]
  · rw [s.move_party_of_ne m other]
    exact .inl rfl

/-- A leader log changes when its owner wins or proposes; it is then the log
that node holds. -/
theorem leaderLog_move (s : Proto) (m : Move) (t : Nat) :
    (s.move m).leaderLog t = s.leaderLog t ∨
      (∃ i, t = (s.party i).term ∧ m = .win i ∧ (s.move m).leaderLog t = (s.party i).log) ∨
      ∃ i cmd, t = (s.party i).term ∧ m = .propose i cmd ∧ (s.move m).leaderLog t =
        (s.party i).log ++ [⟨(s.party i).term, (s.party i).log.length + 1, cmd⟩] := by
  cases m
  case win i =>
      by_cases own : t = (s.party i).term
      · subst own
        simp [Proto.move]
      · exact .inl (by simp [Proto.move, own])
  case propose i cmd =>
      by_cases own : t = (s.party i).term
      · subst own
        simp [Proto.move]
      · exact .inl (by simp [Proto.move, own])
  all_goals exact .inl rfl

/-! ## The invariant -/

structure Logs (s : Proto) : Prop where
  attributed : ∀ i, Attributed LogEntry.term s.leaderLog (s.party i).log
  owner : ∀ t, Attributed LogEntry.term s.leaderLog (s.leaderLog t)
  sorted : ∀ t, (s.leaderLog t).Pairwise fun a b => a.term ≤ b.term
  indexed : ∀ t k e, (s.leaderLog t)[k]? = some e → e.index = k + 1
  unelected : ∀ t, (∀ e ∈ s.elected, e.term ≠ t) → s.leaderLog t = []
  /-- A leader log starts with the log its owner was elected with, all of older
  terms, and goes on with entries of its own term. -/
  base : ∀ e ∈ s.elected, e.log <+: s.leaderLog e.term
  base_term : ∀ e ∈ s.elected, ∀ x ∈ e.log, x.term < e.term
  own : ∀ e ∈ s.elected, ∀ k x, e.log.length ≤ k → (s.leaderLog e.term)[k]? = some x →
    x.term = e.term
  leader : ∀ i, (s.party i).role = .leader → (s.party i).log = s.leaderLog (s.party i).term
  bound : ∀ i, ∀ x ∈ (s.party i).log, x.term ≤ (s.party i).term
  candidate : ∀ i, (s.party i).role = .candidate → ∀ x ∈ (s.party i).log,
    x.term < (s.party i).term
  append : ∀ v args, .append v args ∈ s.msgs → Slice (s.leaderLog args.term) args

namespace Logs

theorem initial : Logs .initial where
  attributed := fun _ => .nil
  owner := fun _ => .nil
  sorted := fun _ => .nil
  indexed := by simp [Proto.initial]
  unelected := fun _ _ => rfl
  base := by simp [Proto.initial]
  base_term := by simp [Proto.initial]
  own := by simp [Proto.initial]
  leader := by simp [Proto.initial, Party.initial]
  bound := by simp [Proto.initial, Party.initial]
  candidate := by simp [Proto.initial, Party.initial]
  append := by simp [Proto.initial]

theorem matching (inv : Logs s) (i : NodeID) (t : Nat) :
    Matching (s.party i).log (s.leaderLog t) :=
  fun _ _ _ hF hG same => (inv.attributed i).agree (inv.owner t) hF hG same

theorem elected_of_mem (inv : Logs s) {t : Nat} {x : LogEntry} (hx : x ∈ s.leaderLog t) :
    ∃ e ∈ s.elected, e.term = t := by
  by_contra none
  push Not at none
  rw [inv.unelected t none] at hx
  cases hx

theorem owner_bound (inv : Logs s) {t : Nat} {x : LogEntry} (hx : x ∈ s.leaderLog t) :
    x.term ≤ t := by
  obtain ⟨e, he, rfl⟩ := inv.elected_of_mem hx
  obtain ⟨k, at_k⟩ := mem_iff_getElem?.mp hx
  by_cases front : k < e.log.length
  · have same := getElem?_of_isPre (inv.base e he) (getElem?_eq_getElem front)
    rw [at_k, Option.some.injEq] at same
    exact (inv.base_term e he x (same ▸ getElem_mem front)).le
  · grind [own]

theorem fresh_of_win (base : Ballots C s) {i : NodeID} (enabled : C.Enabled s (.win i))
    (one : (s.move (.win i)).OneLeaderPerTerm) : ∀ e ∈ s.elected, e.term ≠ (s.party i).term := by
  intro e he same
  have leader : e.leader = i :=
    one e (Proto.mem_elected_move.mpr (.inr he)) ⟨i, (s.party i).term, (s.party i).log⟩
      (Proto.mem_elected_move.mpr (.inl rfl)) same
  subst leader
  exact base.elected_role e he same enabled.2.1

/-- **Leader logs only grow.** -/
theorem grown (inv : Logs s) (base : Ballots C s) (enabled : C.Enabled s m)
    (one : (s.move m).OneLeaderPerTerm) (t : Nat) : s.leaderLog t <+: (s.move m).leaderLog t := by
  rcases leaderLog_move s m t with same | ⟨i, rfl, rfl, new⟩ | ⟨i, cmd, rfl, rfl, new⟩
  · exact same ▸ prefix_rfl
  · grind [unelected, fresh_of_win]
  · rw [new, inv.leader i enabled.2]
    exact prefix_append _ _

theorem accept_cases (inv : Logs s) {i : NodeID} {args : AppendEntriesArgs} {log : Log}
    (enabled : C.Enabled s (.accept i args log)) :
    Merged (s.party i).log (s.leaderLog args.term) (args.prevLogIndex + args.entries.length) log :=
  (inv.append i args enabled.2.2.1).merged (inv.matching i args.term) enabled.2.2.2.2

section step

variable (inv : Logs s) (base : Ballots C s) (enabled : C.Enabled s m)
  (one : (s.move m).OneLeaderPerTerm)
include inv base enabled one

theorem move_attributed (j : NodeID) :
    Attributed LogEntry.term (s.move m).leaderLog ((s.move m).party j).log := by
  have grown := inv.grown base enabled one
  rcases log_move s m j with same | ⟨args, log, rfl, new⟩ | ⟨cmd, rfl, new⟩
  · rw [same]
    exact (inv.attributed j).mono grown
  · rw [new]
    cases inv.accept_cases enabled with
    | kept => exact (inv.attributed j).mono grown
    | replaced => exact ((inv.owner _).take _).mono grown
  · rw [new]
    exact ((inv.attributed j).mono grown).concat (by simp [Proto.move])

theorem move_owner (t : Nat) :
    Attributed LogEntry.term (s.move m).leaderLog ((s.move m).leaderLog t) := by
  rcases leaderLog_move s m t with same | ⟨i, rfl, rfl, new⟩ | ⟨i, cmd, rfl, rfl, new⟩
  · rw [same]
    exact (inv.owner t).mono (inv.grown base enabled one)
  · have := inv.move_attributed base enabled one i
    rwa [show ((s.move (.win i)).party i).log = (s.party i).log by simp [Proto.move], ← new] at this
  · have := inv.move_attributed base enabled one i
    rwa [show ((s.move (.propose i cmd)).party i).log = _ by simp [Proto.move]; rfl, ← new] at this

theorem move_leader (i : NodeID) (role : ((s.move m).party i).role = .leader) :
    ((s.move m).party i).log = (s.move m).leaderLog ((s.move m).party i).term := by
  rcases leader_move role with rfl | ⟨was, term⟩
  · simp [Proto.move]
  · obtain ⟨e, he, leader, current⟩ := base.leader_elected i was
    rw [term]
    rcases log_move s m i with same | ⟨args, log, rfl, -⟩ | ⟨cmd, rfl, new⟩
    · rw [same, inv.leader i was]
      rcases leaderLog_move s m (s.party i).term with
        kept | ⟨j, term', rfl, -⟩ | ⟨j, cmd, term', rfl, new⟩
      · exact kept.symm
      · exact absurd (current.trans term') (fresh_of_win base enabled one e he)
      · -- the proposer leads the same term, so it is the node itself
        obtain ⟨e', he', leader', current'⟩ := base.leader_elected j enabled.2
        have := one.of_move e he e' he' (current.trans (term'.trans current'.symm))
        obtain rfl : i = j := leader.symm.trans (this.trans leader')
        simp [Proto.move] at same
    · rw [enabled.2.1] at was
      cases was
    · rw [new]
      simp [Proto.move]

omit base one in
theorem move_bound (i : NodeID) :
    ∀ x ∈ ((s.move m).party i).log, x.term ≤ ((s.move m).party i).term := by
  intro x hx
  refine le_trans ?_ (term_le_move enabled i)
  rcases log_move s m i with same | ⟨args, log, rfl, new⟩ | ⟨cmd, rfl, new⟩
  · exact inv.bound i x (same ▸ hx)
  · rw [new] at hx
    cases inv.accept_cases enabled with
    | kept => exact inv.bound i x hx
    | replaced => exact enabled.2.2.2.1 ▸ inv.owner_bound (mem_of_mem_take hx)
  · rw [new, mem_append, mem_singleton] at hx
    rcases hx with old | rfl
    · exact inv.bound i x old
    · exact le_rfl

theorem move_own (e : Election) (he : e ∈ (s.move m).elected) (k : Nat) (x : LogEntry)
    (beyond : e.log.length ≤ k) (at_k : ((s.move m).leaderLog e.term)[k]? = some x) :
    x.term = e.term := by
  rcases Proto.mem_elected_move.mp he with won | old
  · obtain ⟨rfl, term, log⟩ := elects_win won
    rw [show (s.move (.win e.leader)).leaderLog e.term = e.log by simp [Proto.move, term, log],
      getElem?_eq_none beyond] at at_k
    cases at_k
  · rcases leaderLog_move s m e.term with kept | ⟨i, term, rfl, -⟩ | ⟨i, cmd, term, rfl, new⟩
    · grind [own]
    · grind [fresh_of_win]
    · rw [new] at at_k
      rcases Nat.lt_trichotomy k (s.party i).log.length with lt | rfl | gt
      · rw [getElem?_append_left lt, inv.leader i enabled.2, ← term] at at_k
        grind [own]
      · grind
      grind

omit one in
theorem move_unelected (t : Nat) (none : ∀ e ∈ (s.move m).elected, e.term ≠ t) :
    (s.move m).leaderLog t = [] := by
  have before : ∀ e ∈ s.elected, e.term ≠ t := fun e he =>
    none e (Proto.mem_elected_move.mpr (.inr he))
  rcases leaderLog_move s m t with kept | ⟨i, rfl, rfl, -⟩ | ⟨i, cmd, rfl, rfl, -⟩
  · rw [kept, inv.unelected t before]
  · exact absurd rfl (none _ (Proto.mem_elected_move.mpr (.inl rfl)))
  · obtain ⟨e, he, -, current⟩ := base.leader_elected i enabled.2
    exact absurd current (before e he)

theorem move_append (v : NodeID) (args : AppendEntriesArgs)
    (hmsg : .append v args ∈ (s.move m).msgs) : Slice ((s.move m).leaderLog args.term) args := by
  rcases Proto.mem_msgs_move.mp hmsg with sent | old
  · cases m <;> simp only [Proto.sends, reduceCtorEq, Option.some.injEq, Msg.append.injEq] at sent
    case sendAppend i w prev =>
      obtain ⟨rfl, rfl⟩ := sent
      have log : (s.party i).log = s.leaderLog (s.party i).term := inv.leader i enabled.2.2.1
      change Slice (s.leaderLog (s.party i).term) (appendArgs i (s.party i) prev)
      rw [← log]
      refine ⟨enabled.2.2.2, ?_, by simp [appendArgs]⟩
      by_cases zero : prev = 0 <;> simp [appendArgs, zero]
  · exact (inv.append v args old).mono (inv.grown base enabled one _)

end step

theorem move_sorted (inv : Logs s) (m : Move) (t : Nat) :
    ((s.move m).leaderLog t).Pairwise fun a b => a.term ≤ b.term := by
  rcases leaderLog_move s m t with same | ⟨i, rfl, rfl, new⟩ | ⟨i, cmd, rfl, rfl, new⟩
  · rw [same]
    exact inv.sorted t
  · rw [new]
    exact (inv.attributed i).pairwise inv.sorted
  · rw [new, pairwise_append]
    refine ⟨(inv.attributed i).pairwise inv.sorted, by simp, fun a ha b hb => ?_⟩
    rw [mem_singleton.mp hb]
    exact inv.bound i a ha

theorem move_indexed (inv : Logs s) (m : Move) (t k : Nat) (x : LogEntry)
    (at_k : ((s.move m).leaderLog t)[k]? = some x) : x.index = k + 1 := by
  have old : ∀ i, (s.party i).log[k]? = some x → x.index = k + 1 := fun i h =>
    inv.indexed _ k x ((inv.attributed i).owner_getElem? h)
  rcases leaderLog_move s m t with same | ⟨i, rfl, rfl, new⟩ | ⟨i, cmd, rfl, rfl, new⟩
  · exact inv.indexed t k x (same ▸ at_k)
  · exact old i (new ▸ at_k)
  · grind

theorem move (inv : Logs s) (base : Ballots C s) (enabled : C.Enabled s m)
    (one : (s.move m).OneLeaderPerTerm) : Logs (s.move m) where
  attributed := inv.move_attributed base enabled one
  owner := inv.move_owner base enabled one
  sorted := inv.move_sorted m
  indexed := inv.move_indexed m
  unelected := inv.move_unelected base enabled
  base := by
    intro e he
    rcases Proto.mem_elected_move.mp he with won | old
    · obtain ⟨rfl, term, log⟩ := elects_win won
      simp [Proto.move, term, log]
    · exact (inv.base e old).trans (inv.grown base enabled one _)
  base_term := by
    intro e he
    rcases Proto.mem_elected_move.mp he with won | old
    · obtain ⟨rfl, term, log⟩ := elects_win won
      rw [term, log]
      exact inv.candidate _ enabled.2.1
    · exact inv.base_term e old
  own := inv.move_own base enabled one
  leader := inv.move_leader base enabled one
  bound := inv.move_bound enabled
  candidate := by
    intro i role x hx
    rcases candidate_move enabled role with rfl | ⟨was, term, log⟩
    · simp only [Proto.move, Proto.setParty_party, Function.update_self] at hx ⊢
      exact Nat.lt_succ_of_le (inv.bound i x hx)
    · rw [log] at hx
      rw [term]
      exact inv.candidate i was x hx
  append := inv.move_append base enabled one

/-- **Log Matching** in one state. -/
theorem agree (inv : Logs s) {i j : NodeID} {k : Nat} {a b : LogEntry}
    (at_i : (s.party i).log[k]? = some a) (at_j : (s.party j).log[k]? = some b)
    (same : a.term = b.term) : (s.party i).log.take (k + 1) = (s.party j).log.take (k + 1) :=
  (inv.attributed i).agree (inv.attributed j) at_i at_j same

theorem log_sorted (inv : Logs s) (i : NodeID) :
    (s.party i).log.Pairwise fun a b => a.term ≤ b.term :=
  (inv.attributed i).pairwise inv.sorted

theorem term_mono (inv : Logs s) {i : NodeID} {k n : Nat} {a b : LogEntry}
    (at_k : (s.party i).log[k]? = some a) (at_n : (s.party i).log[n]? = some b) (le : k ≤ n) :
    a.term ≤ b.term := by
  obtain ⟨hk, rfl⟩ := List.getElem?_eq_some_iff.mp at_k
  obtain ⟨hn, rfl⟩ := List.getElem?_eq_some_iff.mp at_n
  rcases Nat.lt_or_ge k n with before | same
  · exact pairwise_iff_getElem.mp (inv.log_sorted i) k n hk hn before
  · grind

theorem log_indexed (inv : Logs s) {i : NodeID} {k : Nat} {e : LogEntry}
    (at_k : (s.party i).log[k]? = some e) : e.index = k + 1 :=
  inv.indexed _ k e ((inv.attributed i).owner_getElem? at_k)

end Logs

theorem logs_of_steps {G : Proto → Move → Prop} {t : Proto}
    (steps : Steps (protocol C) G .initial t) (one : t.OneLeaderPerTerm) :
    Ballots C t ∧ Logs t := by
  have inv : Ballots C t ∧ (t.OneLeaderPerTerm → Logs t) :=
    steps.invariant (fun s => Ballots C s ∧ (s.OneLeaderPerTerm → Logs s))
      (fun s m enabled _ inv => ⟨inv.1.move enabled, fun one =>
        (inv.2 one.of_move).move inv.1 enabled one⟩)
      ⟨.initial, fun _ => .initial⟩
  exact ⟨inv.1, inv.2 one⟩

end PubsubBroker.Raft
