/-
# Raft.Replication — proposals, appends and commits as chains of moves

The second half of the simulation of `Raft.Simulation`: the handlers that move
log entries and commit indexes.  Applying entries and waking proposers changes
nothing a party is made of, so the apply loop is a chain of `apply` moves with
the signals in between.
-/
import PubsubBroker.Raft.Simulation

namespace PubsubBroker.Raft

open Theory List

variable {C : Cluster} {P Q : Prop} {i : NodeID} {s : Proto} {d : Durable} {n : Node}

/-! ## Proposals -/

theorem simulate_propose (here : At C i s n) (backs : Backs s d) (member : i ∈ C.ids)
    (cmd : Bytes) (ticket : Nat) :
    ∃ t, Chain C (Policy P Q) i s d (propose n cmd ticket).2.1 t ∧
      At C i t (propose n cmd ticket).1 := by
  unfold propose
  split
  case isTrue => exact ⟨s, .nil backs, here⟩
  case isFalse role =>
    have leader : n.role = .leader := not_not.mp role
    refine ⟨s.move (.propose i cmd), ?_, ⟨?_, here.self, here.peers, here.next⟩⟩
    · refine .effect ⟨member, here.party ▸ leader⟩ ⟨fun _ => trivial, fun _ => trivial⟩ rfl ?_
      simp only [Proto.move, here.party]
      exact (backs.save _).leaderLog _ _
    · simp [Proto.move, here.party, Party.ofNode]

/-! ## Applying committed entries -/

theorem chain_signals {G : Proto → Move → Prop} (backs : Backs s d) : ∀ (signals : List Effect),
    (∀ e ∈ signals, ∃ ticket, e = .signal ticket ∨ e = .close ticket) →
    Chain C G i s d signals s ∧ d.performAll i signals = d
  | [], _ => ⟨.nil backs, rfl⟩
  | e :: es, only => by
    have same : d.perform i e = d := by
      obtain ⟨ticket, rfl | rfl⟩ := only e mem_cons_self <;> rfl
    obtain ⟨rest, kept⟩ := chain_signals backs es fun x hx => only x (mem_cons_of_mem _ hx)
    refine ⟨⟨s, .refl s, same.symm ▸ backs, same.symm ▸ rest⟩, ?_⟩
    grind [Durable.performAll]

theorem simulate_applyLoop (member : i ∈ C.ids) : ∀ (k : Nat) {s : Proto} {d : Durable} {n : Node},
    At C i s n → Backs s d → k ≤ n.commitIndex - n.lastApplied →
    ∃ t, Chain C (Policy P Q) i s d (applyLoop k n).2 t ∧ At C i t (applyLoop k n).1 ∧
      t.msgs = s.msgs ∧ (applyLoop k n).1.state = n.state
  | 0, s, _, _, here, backs, _ => ⟨s, .nil backs, here, rfl, rfl⟩
  | k + 1, s, d, n, here, backs, room => by
    simp only [applyLoop, Nat.add_sub_cancel]
    split
    case h_1 => exact ⟨s, .nil backs, ⟨here.party, here.self, here.peers, here.next⟩, rfl, rfl⟩
    case h_2 entry at_index =>
      have applied : Chain C (Policy P Q) i s d [.apply (n.lastApplied + 1) entry]
          (s.move (.apply i n.lastApplied entry)) := by
        refine .effect ⟨member, ?_, here.party ▸ at_index⟩ ⟨fun _ => trivial, fun _ => trivial⟩
          rfl (backs.apply _ _)
        rw [here.party]
        exact (show n.lastApplied < n.commitIndex by omega)
      obtain ⟨woken, kept⟩ := chain_signals (C := C) (G := Policy P Q) (i := i) applied.backs
        ((n.proposals.filter (·.1 = n.lastApplied + 1)).map (.signal ·.2))
        (by simp)
      obtain ⟨t, rest, here', msgs, state⟩ := simulate_applyLoop member k
        (s := s.move (.apply i n.lastApplied entry)) (n := { n with
          lastApplied := n.lastApplied + 1
          proposals := n.proposals.filter (·.1 ≠ n.lastApplied + 1) })
        ⟨here.party, here.self, here.peers, here.next⟩ applied.backs
        (show k ≤ n.commitIndex - (n.lastApplied + 1) by omega)
      refine ⟨t, ?_, here', msgs, state⟩
      exact applied.append (woken.append (kept.symm ▸ rest))

/-! ## The leader's commit index -/

theorem commitCandidate_some : ∀ {k index : Nat}, k ≤ n.state.log.length →
    commitCandidate n k = some index →
    index ≠ 0 ∧ index ≤ n.state.log.length ∧ termAt n.state.log index = n.state.currentTerm ∧
      quorum n ≤ replicated n index
  | 0, _, _, found => by cases found
  | k + 1, index, short, found => by
    rw [commitCandidate] at found
    split at found
    case isFalse => cases found
    case isTrue =>
      split at found
      case h_2 => cases found
      case h_1 e at_k =>
        split at found
        case isFalse => exact commitCandidate_some (by omega) found
        grind [termAt_succ]

theorem At.replicated_eq (here : At C i s n) (leader : n.role = .leader) (index : Nat) :
    replicated n index = (C.matched i (s.party i) index).length := by
  rw [replicated, Cluster.matched, length_cons, Nat.add_comm, ← here.peers]
  congr 2
  refine filter_congr fun v hv => ?_
  simp [here.party, Party.ofNode, leader, hv]

theorem simulate_advanceCommitIndexLocked (here : At C i s n) (backs : Backs s d)
    (member : i ∈ C.ids) :
    ∃ t, Chain C (Policy P Q) i s d (advanceCommitIndexLocked n).2 t ∧
      At C i t (advanceCommitIndexLocked n).1 := by
  unfold advanceCommitIndexLocked
  split
  case isTrue => exact ⟨s, .nil backs, here⟩
  case isFalse role =>
    have leader : n.role = .leader := not_not.mp role
    split
    case h_2 => exact ⟨s, .nil backs, here⟩
    case h_1 index found =>
      obtain ⟨nonzero, short, own, majority⟩ := commitCandidate_some le_rfl found
      have commit : Chain C (Policy P Q) i s d [] (s.move (.commit i index)) := by
        refine .silent ⟨member, here.party ▸ leader, nonzero, here.party ▸ short,
          here.party ▸ own, ?_⟩ ⟨fun _ => trivial, fun _ => trivial⟩ rfl (backs.volatile rfl)
        grind [At.quorum_eq, At.replicated_eq]
      have here' : At C i (s.move (.commit i index)) { n with commitIndex := index } := by
        refine ⟨?_, here.self, here.peers, here.next⟩
        simp [Proto.move, here.party, Party.ofNode]
      obtain ⟨t, applied, here'', -⟩ :=
        simulate_applyLoop (P := P) (Q := Q) member _ here' commit.backs le_rfl
      exact ⟨t, commit.append applied, here''⟩

/-- If a leader counts the reply, it was sent in the leader's term, or it covers
only entries of older terms. -/
def ReplyTimely (n : Node) (reply : AppendEntriesReply) : Prop :=
  n.role = .leader → reply.success = true → reply.term ≤ n.state.currentTerm →
    reply.term = n.state.currentTerm ∨ reply.matchIndex ≤ n.state.log.length ∧
      ∀ e ∈ n.state.log.take reply.matchIndex, e.term ≠ n.state.currentTerm

theorem simulate_handleAppendResponse (here : At C i s n) (backs : Backs s d) (member : i ∈ C.ids)
    (base : Ballots C s) {sender : NodeID} {reply : AppendEntriesReply}
    (acked : reply.success = true → .ack sender i reply.term reply.matchIndex ∈ s.msgs)
    (timely : Q → ReplyTimely n reply) :
    ∃ t, Chain C (Policy P Q) i s d (handleAppendResponse n sender reply).2.1 t ∧
      At C i t (handleAppendResponse n sender reply).1 := by
  unfold handleAppendResponse
  split
  case isTrue higher => exact simulate_stepDown here backs member higher "" false
  case isFalse low =>
    split
    case isTrue => exact ⟨s, .nil backs, here⟩
    case isFalse role =>
      have leader : n.role = .leader := not_not.mp role
      split
      case isTrue success =>
        have ack := acked success
        have peer : sender ∈ n.peers := by
          have route := base.route _ ack
          rw [here.peers]
          exact (C.mem_peers i member sender).mpr ⟨route.1, route.2.2⟩
        let counted : Node := { n with
          matchIndex := setKey n.matchIndex sender reply.matchIndex
          nextIndex := setKey n.nextIndex sender (reply.matchIndex + 1) }
        have count : Chain C (Policy P Q) i s d []
            (s.move (.countMatch i sender reply.term reply.matchIndex)) := by
          refine .silent ⟨member, here.party ▸ leader, ack, ?_⟩
            ⟨fun _ => trivial, fun h => ?_⟩ rfl (backs.volatile rfl)
          · rw [here.party]
            exact not_lt.mp low
          · simpa [SoundReplies, here.party] using timely h leader success (not_lt.mp low)
        have here' : At C i (s.move (.countMatch i sender reply.term reply.matchIndex)) counted := by
          refine ⟨?_, here.self, here.peers, fun _ p hp => ?_⟩
          · simp only [Proto.move, Proto.setParty_party, Function.update_self, here.party,
              Party.ofNode, counted, leader, true_and, and_true, Party.mk.injEq]
            grind [setKey]
          grind [setKey, At.next]
        obtain ⟨t, advanced, here''⟩ :=
          simulate_advanceCommitIndexLocked (P := P) (Q := Q) here' count.backs member
        exact ⟨t, count.append advanced, here''⟩
      case isFalse =>
        have clamped : ∀ next : Nat, 1 ≤ if next < 1 then 1 else next := by grind
        refine ⟨s, .nil backs, ⟨here.party, here.self, here.peers, fun _ p hp => ?_⟩⟩
        grind [setKey, At.next]

/-! ## Followers -/

theorem refusal_append {leaderID : NodeID} {sender : NodeID} {term : Nat}
    {reply : AppendEntriesReply} (failed : reply.success = false) :
    Refusal ⟨leaderID, ⟨sender, term, .appendResponse reply⟩⟩ :=
  .inr ⟨reply, rfl, failed⟩

/-- If the follower accepts the request, its log is no longer than what the
request covers, or is cut at a conflict, or ends in the leader's own term. -/
def ReplySound (log : Log) (args : AppendEntriesArgs) : Prop :=
  args.prevLogIndex ≤ log.length →
    termAt log args.prevLogIndex = (if args.prevLogIndex = 0 then 0 else args.prevLogTerm) →
    log.length ≤ args.prevLogIndex + args.entries.length ∨ Conflicts log args ∨
      lastTerm log = args.term

variable {args : AppendEntriesArgs}

theorem ReplySound.accepted {log log' : Log} (sound : ReplySound log args)
    (accepted : appendEntriesFromLeader log args.prevLogIndex args.prevLogTerm args.entries =
      .ok log') :
    log'.length ≤ args.prevLogIndex + args.entries.length ∨ lastTerm log' = args.term := by
  obtain ⟨short, prev, -⟩ := appendEntriesFromLeader_ok accepted
  rcases appendEntriesFromLeader_length accepted with len | ⟨rfl, agree⟩
  · exact .inl len.le
  · exact (sound short prev).imp_right fun h => h.resolve_left agree

variable (here : At C i s n) (backs : Backs s d) (member : i ∈ C.ids)
include here backs member

theorem simulate_learnCommit (received : .append i args ∈ s.msgs)
    (current : args.term = n.state.currentTerm) (contains : Contains n.state.log args) :
    ∃ t, Chain C (Policy P Q) i s d (if args.leaderCommit > n.commitIndex then
          applyCommittedLocked
            { n with commitIndex := min args.leaderCommit n.state.log.length }
        else (n, [])).2 t ∧
      At C i t (if args.leaderCommit > n.commitIndex then
          applyCommittedLocked
            { n with commitIndex := min args.leaderCommit n.state.log.length }
        else (n, [])).1 ∧ t.msgs = s.msgs ∧ (t.party i).persistent = n.state := by
  split
  case isFalse => exact ⟨s, .nil backs, here, rfl, by rw [here.party]; rfl⟩
  case isTrue =>
    have learn : Chain C (Policy P Q) i s d [] (s.move (.learnCommit i args)) := by
      refine .silent ⟨member, received, ?_, here.party ▸ contains⟩
        ⟨fun _ => trivial, fun _ => trivial⟩ rfl (backs.volatile rfl)
      rw [here.party]
      exact current
    have here' : At C i (s.move (.learnCommit i args))
        { n with commitIndex := min args.leaderCommit n.state.log.length } := by
      refine ⟨?_, here.self, here.peers, here.next⟩
      simp [Proto.move, here.party, Party.ofNode]
    obtain ⟨t, applied, here'', msgs, state⟩ :=
      simulate_applyLoop (P := P) (Q := Q) member _ here' learn.backs le_rfl
    exact ⟨t, learn.append applied, here'', msgs, by rw [here''.party]; exact state⟩

theorem simulate_takeEntries (addr : args.leaderID ≠ "") (follower : n.role = .follower)
    (received : .append i args ∈ s.msgs) (current : args.term = n.state.currentTerm)
    (sound : Q → ReplySound n.state.log args) :
    ∃ t, Chain C (Policy P Q) i s d (takeEntries n n.state.currentTerm args).2 t ∧
      At C i t (takeEntries n n.state.currentTerm args).1 := by
  unfold takeEntries
  split
  case h_1 conflictIndex conflictTerm rejected =>
    rw [respondAppend, sendRaft_eq addr]
    exact ⟨s, .skip (backs.refuse (refusal_append rfl)), here⟩
  case h_2 log accepted =>
    let merged : Node := { n with state := { n.state with log := log } }
    have moved : s.move (.accept i args log) = s.setParty i (.ofNode merged) := by
      simp [Proto.move, here.party, Party.ofNode, merged]
    have accept : Chain C (Policy P Q) i s d (persistLocked merged)
        (s.setParty i (.ofNode merged)) := by
      rw [← moved]
      refine .effect ⟨member, here.party ▸ follower, received, ?_, here.party ▸ accepted⟩
        ⟨fun _ => trivial, fun _ => trivial⟩ rfl (moved ▸ backs.save _)
      rw [here.party]
      exact current
    have here' : At C i (s.setParty i (.ofNode merged)) merged :=
      ⟨by simp, here.self, here.peers, here.next⟩
    obtain ⟨t, learned, here'', msgs, state⟩ := simulate_learnCommit (P := P) (Q := Q) here'
      accept.backs member received current (appendEntriesFromLeader_contains accepted)
    have term : (t.party i).term = n.state.currentTerm := congrArg (·.currentTerm) state
    have log_eq : (t.party i).log = log := congrArg (·.log) state
    have acked : t.move (.sendAck i args) =
        t.post (.ack i args.leaderID n.state.currentTerm log.length) := by
      rw [Proto.move, term, log_eq]
    have wire : (⟨merged.selfID, merged.state.currentTerm, .appendResponse
        ⟨n.state.currentTerm, true, log.length, 0, 0⟩⟩ : RaftMessage) =
        (Msg.ack i args.leaderID n.state.currentTerm log.length).packet.msg := by
      rw [show merged.selfID = i from here.self]
      rfl
    have ack : ∀ {d' : Durable}, Backs t d' → Chain C (Policy P Q) i t d'
        [.send args.leaderID (Msg.ack i args.leaderID n.state.currentTerm log.length).packet.msg]
        (t.move (.sendAck i args)) := by
      intro d' backs'
      refine .effect ⟨member, ?_, current.trans term.symm, ?_⟩ ⟨fun _ => trivial, fun h => ?_⟩ rfl
        (acked ▸ backs'.post _)
      · rw [msgs]
        exact received
      · rw [log_eq]
        exact appendEntriesFromLeader_contains accepted
      · rw [SoundReplies, log_eq]
        exact (sound h).accepted accepted
    simp only [respondAppend]
    rw [sendRaft_eq addr, wire]
    have front := accept.append learned
    refine ⟨_, front.append (ack front.backs), ⟨?_, here''.self, here''.peers, here''.next⟩⟩
    rw [acked]
    exact here''.party

theorem simulate_handleAppendEntries (base : Ballots C s) (received : .append i args ∈ s.msgs)
    (sound : Q → n.state.currentTerm ≤ args.term → ReplySound n.state.log args) :
    ∃ t, Chain C (Policy P Q) i s d (handleAppendEntries n args).2.1 t ∧
      At C i t (handleAppendEntries n args).1 := by
  have addr : args.leaderID ≠ "" := C.ne_of_mem (base.route _ received).1
  obtain ⟨t, observed, here', same⟩ :=
    simulate_observeTerm (P := P) (Q := Q) here backs member args.term args.leaderID true
  have low := observeTerm_term n args.term args.leaderID true
  have log : (observeTerm n args.term args.leaderID true).1.state.log = n.state.log := by
    unfold observeTerm
    split <;> rfl
  unfold handleAppendEntries
  simp only
  split
  case isTrue stale =>
    rw [respondAppend, sendRaft_eq addr]
    exact ⟨t, observed.append (.skip (observed.backs.refuse (refusal_append rfl))), here'⟩
  case isFalse current =>
    have term : args.term = (observeTerm n args.term args.leaderID true).1.state.currentTerm :=
      le_antisymm low (not_lt.mp current)
    have fresh : n.state.currentTerm ≤ args.term := by
      by_contra older
      rw [observeTerm, if_neg (by omega)] at current
      exact current (not_le.mp older)
    generalize observeTerm n args.term args.leaderID true = obs at *
    rw [← same] at received
    have moved : t.move (.dropVote i args) =
        t.setParty i (.ofNode (stepDown obs.1 args.term args.leaderID true)) := by
      rw [ofNode_stepDown, term, ← ofNode_term, ← here'.party]
      rfl
    have dropped : Chain C (Policy P Q) i t (d.performAll i obs.2)
        (persistLocked (stepDown obs.1 args.term args.leaderID true)) (t.move (.dropVote i args)) := by
      refine .effect ⟨member, received, ?_⟩ ⟨fun _ => trivial, fun _ => trivial⟩ rfl
        (moved ▸ observed.backs.save _)
      rw [here'.party]
      exact term
    have here'' : At C i (t.move (.dropVote i args))
        (stepDown obs.1 args.term args.leaderID true) := by
      refine ⟨by simp [moved], here'.self, here'.peers, fun h => ?_⟩
      cases h
    obtain ⟨u, taken, final⟩ := simulate_takeEntries (P := P) (Q := Q) here'' dropped.backs member
      addr rfl (show .append i args ∈ (t.move (.dropVote i args)).msgs from received) rfl
      (fun h => show ReplySound obs.1.state.log args by
        rw [log]
        exact sound h fresh)
    rw [← term]
    exact ⟨u, observed.append (dropped.append taken), final⟩

end PubsubBroker.Raft
