/-
# Raft.Ballots — terms, roles and the votes behind an election

The invariants of `Raft.Protocol` that hold in every run whatever the side
conditions are: a message never carries a term its sender has not reached, a
leader has won its term, and behind every election stands a quorum of nodes
each of which is the winner itself or sent it a vote.
-/
import PubsubBroker.Raft.Protocol
import PubsubBroker.Theory.Quorum

namespace PubsubBroker.Raft

open Theory

variable {C : Cluster} {s : Proto} {m : Move}

/-! ## One move, seen from one node -/

theorem sends_actor {msg : Msg} (sent : s.sends m = some msg) :
    msg.sender = m.actor ∧ msg.term = (s.party m.actor).term := by
  cases m <;> simp only [Proto.sends, reduceCtorEq, Option.some.injEq] at sent
  all_goals subst sent; exact ⟨rfl, rfl⟩

theorem elects_win {e : Election} (won : s.elects m = some e) :
    m = .win e.leader ∧ e.term = (s.party e.leader).term ∧ e.log = (s.party e.leader).log := by
  cases m <;> simp only [Proto.elects, reduceCtorEq, Option.some.injEq] at won
  subst won
  exact ⟨rfl, rfl, rfl⟩

/-- A candidate started its campaign just now, or was one before with the same
term and log. -/
theorem candidate_move (enabled : C.Enabled s m) {j : NodeID}
    (role : ((s.move m).party j).role = .candidate) :
    m = .campaign j ∨
      (s.party j).role = .candidate ∧ ((s.move m).party j).term = (s.party j).term ∧
        ((s.move m).party j).log = (s.party j).log := by
  by_cases other : j = m.actor
  · subst other
    cases m <;> simp_all [Proto.move, Move.actor, Party.follow, Cluster.Enabled]
  · grind [Proto.move_party_of_ne]

theorem leader_move {j : NodeID} (role : ((s.move m).party j).role = .leader) :
    m = .win j ∨
      (s.party j).role = .leader ∧ ((s.move m).party j).term = (s.party j).term := by
  by_cases other : j = m.actor
  · subst other
    cases m <;> simp_all [Proto.move, Move.actor, Party.follow]
  · grind [Proto.move_party_of_ne]

/-! ## The invariants -/

/-- The votes counted by `i` in term `t`: each is its own or was granted to it. -/
def Supports (s : Proto) (i : NodeID) (t : Nat) (v : NodeID) : Prop :=
  v = i ∨ .grant v i t ∈ s.msgs

structure Ballots (C : Cluster) (s : Proto) : Prop where
  term_le : ∀ msg ∈ s.msgs, msg.term ≤ (s.party msg.sender).term
  route : ∀ msg ∈ s.msgs, msg.sender ∈ C.ids ∧ msg.dest ∈ C.ids ∧ msg.sender ≠ msg.dest
  elected_term : ∀ e ∈ s.elected, e.term ≤ (s.party e.leader).term
  elected_role : ∀ e ∈ s.elected, e.term = (s.party e.leader).term →
    (s.party e.leader).role ≠ .candidate
  leader_elected : ∀ i, (s.party i).role = .leader →
    ∃ e ∈ s.elected, e.leader = i ∧ e.term = (s.party i).term
  append_elected : ∀ v args, .append v args ∈ s.msgs →
    ∃ e ∈ s.elected, e.leader = args.leaderID ∧ e.term = args.term
  votes_nodup : ∀ i, (s.party i).role = .candidate → (s.party i).votes.Nodup
  votes : ∀ i, (s.party i).role = .candidate → ∀ v ∈ (s.party i).votes,
    v ∈ C.ids ∧ Supports s i (s.party i).term v
  electors : ∀ e ∈ s.elected, ∃ q, Quorum C.ids q ∧ ∀ v ∈ q, Supports s e.leader e.term v

theorem Supports.move {i v : NodeID} {t : Nat} (h : Supports s i t v) : Supports (s.move m) i t v :=
  h.imp_right fun sent => Proto.mem_msgs_move.mpr (.inr sent)

namespace Ballots

theorem initial : Ballots C .initial where
  term_le := by simp [Proto.initial]
  route := by simp [Proto.initial]
  elected_term := by simp [Proto.initial]
  elected_role := by simp [Proto.initial]
  leader_elected := by simp [Proto.initial, Party.initial]
  append_elected := by simp [Proto.initial]
  votes_nodup := by simp [Proto.initial, Party.initial]
  votes := by simp [Proto.initial, Party.initial]
  electors := by simp [Proto.initial]

theorem sends_route (inv : Ballots C s) (enabled : C.Enabled s m) {msg : Msg}
    (sent : s.sends m = some msg) :
    msg.sender ∈ C.ids ∧ msg.dest ∈ C.ids ∧ msg.sender ≠ msg.dest := by
  cases m <;> simp only [Proto.sends, reduceCtorEq, Option.some.injEq] at sent
  all_goals subst sent
  case askVote i v =>
      have peer := (C.mem_peers i enabled.1 v).mp enabled.2.1
      exact ⟨enabled.1, peer.1, fun h => peer.2 h.symm⟩
  case sendGrant i c lastIndex lastTerm =>
      have asked := inv.route _ enabled.2.1
      exact ⟨asked.2.1, asked.1, fun h => asked.2.2 h.symm⟩
  case sendAck i args =>
      have asked := inv.route _ enabled.2.1
      exact ⟨asked.2.1, asked.1, fun h => asked.2.2 h.symm⟩
  case sendAppend i v prev =>
      have peer := (C.mem_peers i enabled.1 v).mp enabled.2.1
      exact ⟨enabled.1, peer.1, fun h => peer.2 h.symm⟩

theorem quorum_of_win (inv : Ballots C s) {i : NodeID} (enabled : C.Enabled s (.win i)) :
    Quorum C.ids (s.party i).votes where
  nodup := inv.votes_nodup i enabled.2.1
  subset := fun v hv => (inv.votes i enabled.2.1 v hv).1
  majority := enabled.2.2

/-- The votes after a move: those of a new campaign, or the old ones with one
granted vote added. -/
theorem votes_move (enabled : C.Enabled s m) {j : NodeID}
    (role : ((s.move m).party j).role = .candidate) :
    m = .campaign j ∧ ((s.move m).party j).votes = [j] ∨
      (s.party j).role = .candidate ∧ ((s.move m).party j).term = (s.party j).term ∧
        ∃ v, (((s.move m).party j).votes = (s.party j).votes ∨
          ((s.move m).party j).votes = (s.party j).votes.insert v ∧
            .grant v j (s.party j).term ∈ s.msgs) := by
  by_cases other : j = m.actor
  · subst other
    cases m <;> simp_all [Proto.move, Move.actor, Party.follow, Cluster.Enabled]
    grind
  · rw [s.move_party_of_ne m other] at role ⊢
    exact .inr ⟨role, rfl, j, .inl rfl⟩

theorem move (inv : Ballots C s) (enabled : C.Enabled s m) : Ballots C (s.move m) where
  term_le := by
    intro msg hmsg
    rcases Proto.mem_msgs_move.mp hmsg with sent | old
    · obtain ⟨sender, term⟩ := sends_actor sent
      grind [term_le_move]
    · exact (inv.term_le msg old).trans (term_le_move enabled _)
  route := by
    intro msg hmsg
    rcases Proto.mem_msgs_move.mp hmsg with sent | old
    · exact inv.sends_route enabled sent
    · exact inv.route msg old
  elected_term := by
    intro e he
    rcases Proto.mem_elected_move.mp he with won | old
    · rw [(elects_win won).2.1]
      exact term_le_move enabled _
    · exact (inv.elected_term e old).trans (term_le_move enabled _)
  elected_role := by
    intro e he same role
    rcases Proto.mem_elected_move.mp he with won | old
    · obtain ⟨rfl, -, -⟩ := elects_win won
      simp [Proto.move] at role
    · have before := inv.elected_term e old
      rcases candidate_move enabled role with rfl | ⟨was, term, -⟩
      · simp only [Proto.move, Proto.setParty_party, Function.update_self] at same
        omega
      · exact inv.elected_role e old (same.trans term) was
  leader_elected := by
    intro i role
    rcases leader_move role with rfl | ⟨was, term⟩
    · simp [Proto.move]
    · obtain ⟨e, he, leader, same⟩ := inv.leader_elected i was
      exact ⟨e, Proto.mem_elected_move.mpr (.inr he), leader, same.trans term.symm⟩
  append_elected := by
    intro v args hmsg
    rcases Proto.mem_msgs_move.mp hmsg with sent | old
    · cases m <;> simp only [Proto.sends, reduceCtorEq, Option.some.injEq, Msg.append.injEq] at sent
      obtain ⟨rfl, rfl⟩ := sent
      obtain ⟨e, he, leader, same⟩ := inv.leader_elected _ enabled.2.2.1
      exact ⟨e, he, leader, same⟩
    · obtain ⟨e, he, h⟩ := inv.append_elected v args old
      exact ⟨e, Proto.mem_elected_move.mpr (.inr he), h⟩
  votes_nodup := by
    intro j role
    rcases votes_move enabled role with ⟨-, votes⟩ | ⟨was, -, v, votes | ⟨votes, -⟩⟩
    · simp [votes]
    · rw [votes]
      exact inv.votes_nodup j was
    grind [votes_nodup]
  votes := by
    intro j role v hv
    rcases votes_move enabled role with ⟨rfl, votes⟩ | ⟨was, term, w, votes | ⟨votes, granted⟩⟩
    · rw [votes, List.mem_singleton] at hv
      subst hv
      exact ⟨enabled.1, .inl rfl⟩
    · grind [votes, Supports.move]
    · rw [votes, List.mem_insert_iff] at hv
      rw [term]
      rcases hv with rfl | hv
      · exact ⟨(inv.route _ granted).1, .inr (Proto.mem_msgs_move.mpr (.inr granted))⟩
      grind [votes, Supports.move]
  electors := by
    intro e he
    rcases Proto.mem_elected_move.mp he with won | old
    · obtain ⟨rfl, term, -⟩ := elects_win won
      refine ⟨_, inv.quorum_of_win enabled, fun v hv => ?_⟩
      rw [term]
      exact (inv.votes _ enabled.2.1 v hv).2.move
    · obtain ⟨q, hq, support⟩ := inv.electors e old
      exact ⟨q, hq, fun v hv => (support v hv).move⟩

end Ballots

end PubsubBroker.Raft
