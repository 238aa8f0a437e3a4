/-
# Raft.ElectionSafety — at most one leader per term, when votes are kept

Election Safety for the moves of `Raft.Protocol` under the side condition
`VoteOnce`: a node whose recorded vote is empty has not granted its vote of the
current term to another candidate.  Without the condition the protocol has runs
with two leaders in one term, because `dropVote` erases a granted vote.

A leader never loses its own vote: only a second leader of its term could make
it drop it, and that is what the induction excludes.
-/
import PubsubBroker.Raft.Ballots

namespace PubsubBroker.Raft

open Theory

variable {C : Cluster} {s : Proto} {m : Move}

theorem votedFor_move (enabled : C.Enabled s m) (j : NodeID) :
    (s.party j).term < ((s.move m).party j).term ∨
      ((s.move m).party j).term = (s.party j).term ∧
        (((s.move m).party j).votedFor = (s.party j).votedFor ∨
          (((s.move m).party j).votedFor = "" ∧ ∃ args, m = .dropVote j args) ∨
          ∃ c lastIndex lastTerm,
            m = .vote j c lastIndex lastTerm ∧ ((s.move m).party j).votedFor = c) := by
  by_cases other : j = m.actor
  · subst other
    cases m <;> simp_all [Proto.move, Move.actor, Party.follow, Cluster.Enabled]
  · simp [Proto.move_party_of_ne, other]

structure OneVote (s : Proto) : Prop where
  /-- A recorded vote is the one that was granted. -/
  recorded : ∀ v c, .grant v c (s.party v).term ∈ s.msgs → (s.party v).votedFor ≠ "" →
    (s.party v).votedFor = c
  single : ∀ v c c' t, .grant v c t ∈ s.msgs → .grant v c' t ∈ s.msgs → c = c'
  candidate : ∀ i, (s.party i).role = .candidate → (s.party i).votedFor = i
  leader : ∀ e ∈ s.elected, e.term = (s.party e.leader).term →
    (s.party e.leader).votedFor = e.leader
  /-- The winner of a term granted nobody a vote in it. -/
  loyal : ∀ e ∈ s.elected, ∀ c, .grant e.leader c e.term ∉ s.msgs

namespace OneVote

theorem initial : OneVote .initial where
  recorded := by simp [Proto.initial]
  single := by simp [Proto.initial]
  candidate := by simp [Proto.initial, Party.initial]
  leader := by simp [Proto.initial]
  loyal := by simp [Proto.initial]

/-- **Election Safety** in one state: the two quorums share a voter. -/
theorem oneLeader (inv : OneVote s) (base : Ballots C s) : s.OneLeaderPerTerm := by
  intro e he e' he' same
  obtain ⟨q, hq, support⟩ := base.electors e he
  obtain ⟨q', hq', support'⟩ := base.electors e' he'
  obtain ⟨v, hv, hv'⟩ := hq.inter hq'
  rcases support v hv with rfl | granted
  · rcases support' _ hv' with leader | granted'
    · exact leader
    grind [loyal]
  · rcases support' v hv' with rfl | granted'
    · grind [loyal]
    grind [single]

theorem ne_of_self {j : NodeID} (member : j ∈ C.ids) (self : (s.party j).votedFor = j) :
    (s.party j).votedFor ≠ "" := by
  rw [self]
  rintro rfl
  exact C.id_ne member

/-- A node that records its own vote votes for nobody else. -/
theorem no_vote_of_self (base : Ballots C s) {j c : NodeID} {lastIndex lastTerm : Nat}
    (enabled : C.Enabled s (.vote j c lastIndex lastTerm)) : (s.party j).votedFor ≠ j := by
  intro self
  have route := base.route _ enabled.2.1
  rcases enabled.2.2.1 with none | own
  · exact ne_of_self enabled.1 self none
  · exact route.2.2 (own.symm.trans self)

theorem grant_move (enabled : C.Enabled s m) {v c : NodeID} {t : Nat}
    (granted : .grant v c t ∈ (s.move m).msgs) :
    .grant v c t ∈ s.msgs ∨
      t = (s.party v).term ∧ (s.party v).votedFor = c ∧ (s.move m).party = s.party ∧
        ∃ lastIndex lastTerm, .request c v t lastIndex lastTerm ∈ s.msgs := by
  rcases Proto.mem_msgs_move.mp granted with sent | old
  · cases m <;> simp only [Proto.sends, reduceCtorEq, Option.some.injEq, Msg.grant.injEq] at sent
    obtain ⟨rfl, rfl, rfl⟩ := sent
    exact .inr ⟨rfl, enabled.2.2.1, rfl, _, _, enabled.2.1⟩
  · exact .inl old

theorem move_recorded (inv : OneVote s) (base : Ballots C s) (enabled : C.Enabled s m)
    (once : VoteOnce s m) (v c : NodeID)
    (granted : .grant v c ((s.move m).party v).term ∈ (s.move m).msgs)
    (voted : ((s.move m).party v).votedFor ≠ "") : ((s.move m).party v).votedFor = c := by
  rcases grant_move enabled granted with old | ⟨-, recorded, frame, -⟩
  · have bound := base.term_le _ old
    rcases votedFor_move enabled v with raised | ⟨term, same | ⟨dropped, -⟩ | ⟨c', li, lt, rfl, new⟩⟩
    · grind [Msg.term, Msg.sender]
    · grind [recorded]
    · exact absurd dropped voted
    · rw [new]
      rw [term] at old
      by_cases none : (s.party v).votedFor = ""
      · exact (once none c old).symm
      · have own := enabled.2.2.1.resolve_left none
        exact own.symm.trans (inv.recorded v c old none)
  · rw [frame]
    exact recorded

theorem move (inv : OneVote s) (base : Ballots C s) (enabled : C.Enabled s m)
    (once : VoteOnce s m) : OneVote (s.move m) where
  recorded := inv.move_recorded base enabled once
  single := by
    intro v c c' t granted granted'
    have new : ∀ {c c'}, (s.party v).votedFor = c → .grant v c' t ∈ s.msgs →
        t = (s.party v).term → (∃ li lt, .request c v t li lt ∈ s.msgs) → c = c' := by
      rintro c c' voted old rfl ⟨li, lt, asked⟩
      rw [← voted]
      refine inv.recorded v c' old fun none => C.id_ne ?_
      have member : c ∈ C.ids := (base.route _ asked).1
      rwa [← voted, none] at member
    grind [grant_move, single]
  candidate := by
    intro i role
    rcases candidate_move enabled role with rfl | ⟨was, term, -⟩
    · simp [Proto.move]
    · have self := inv.candidate i was
      rcases votedFor_move enabled i with raised | ⟨-, same | ⟨-, args, rfl⟩ | ⟨c, li, lt, rfl, -⟩⟩
      · omega
      · exact same.trans self
      · simp [Proto.move, Party.follow] at role
      grind [no_vote_of_self]
  leader := by
    intro e he current
    rcases Proto.mem_elected_move.mp he with won | old
    · obtain ⟨rfl, -, -⟩ := elects_win won
      simpa [Proto.move] using inv.candidate _ enabled.2.1
    · have bound := base.elected_term e old
      rcases votedFor_move enabled e.leader with
        raised | ⟨term, same | ⟨-, args, rfl⟩ | ⟨c, li, lt, rfl, -⟩⟩
      · omega
      · exact same.trans (inv.leader e old (current.trans term))
      · -- a second leader of the term would have sent the request
        obtain ⟨e', he', leader, term'⟩ := base.append_elected _ _ enabled.2.1
        have same := inv.oneLeader base e' he' e old
          (term'.trans (enabled.2.2.trans (term.symm.trans current.symm)))
        exact absurd (leader.symm.trans same) (base.route _ enabled.2.1).2.2
      · exact absurd (inv.leader e old (current.trans term)) (no_vote_of_self base enabled)
  loyal := by
    intro e he c granted
    rcases Proto.mem_elected_move.mp he with won | old
    · obtain ⟨rfl, term, -⟩ := elects_win won
      have self := inv.candidate _ enabled.2.1
      have old : .grant e.leader c e.term ∈ s.msgs := granted
      have voted := inv.recorded _ c (term ▸ old) (ne_of_self enabled.1 self)
      exact (base.route _ old).2.2 (self.symm.trans voted)
    · rcases grant_move enabled granted with before | ⟨term, voted, -, li, lt, asked⟩
      · exact inv.loyal e old c before
      · exact (base.route _ asked).2.2 (voted.symm.trans (inv.leader e old term))

end OneVote

/-- **Election Safety.**  No run of moves whose votes are kept elects two leaders
in one term. -/
theorem oneLeader_of_voteOnce {soundReplies : Prop} {t : Proto}
    (steps : Steps (protocol C) (Policy True soundReplies) .initial t) : t.OneLeaderPerTerm := by
  have inv : Ballots C t ∧ OneVote t :=
    steps.invariant (fun s => Ballots C s ∧ OneVote s)
      (fun s m enabled side inv =>
        ⟨inv.1.move enabled, inv.2.move inv.1 enabled (side.1 trivial)⟩)
      ⟨.initial, .initial⟩
  exact inv.2.oneLeader inv.1

end PubsubBroker.Raft
