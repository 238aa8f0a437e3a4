/-
# Raft.Refinement — the cluster refines the protocol

Every run of `Raft.Cluster` is matched, event by event, by moves of
`Raft.Protocol`: a reaction by its chain, a crash by the part of the chain that
had happened and a restart.  The side conditions of the moves become conditions
on the events, stated on the world before them.
-/
import PubsubBroker.Raft.Replication

namespace PubsubBroker.Raft

open Theory List

/-! ## Conditions on events -/

/-- A vote request of the current term that finds no recorded vote finds no vote
granted to another candidate in that term either. -/
def VoteKept (w : World) (i : NodeID) : Stimulus → Prop
  | .deliver k => ∀ p ∈ w.sent[k]?, ∀ args ∈ p.msg.body.requestVote?,
      args.term = (w.nodes i).state.currentTerm → (w.nodes i).state.votedFor = "" →
      ∀ q ∈ w.sent, q.msg = ⟨i, args.term, .voteResponse ⟨args.term, true⟩⟩ →
        q.dest = args.candidateID
  | _ => True

/-- A request that is accepted leaves no divergent tail behind, and a reply is
counted in the term it was sent in. -/
def RepliesSound (w : World) (i : NodeID) : Stimulus → Prop
  | .deliver k => ∀ p ∈ w.sent[k]?,
      (∀ args ∈ p.msg.body.appendEntries?, (w.nodes i).state.currentTerm ≤ args.term →
        ReplySound (w.nodes i).state.log args) ∧
      ∀ reply ∈ p.msg.body.appendResponse?, ReplyTimely (w.nodes i) reply
  | _ => True

/-- A condition on the reaction an event starts. -/
def Event.Meets (condition : World → NodeID → Stimulus → Prop) (w : World) : Event → Prop
  | .run i stimulus => condition w i stimulus
  | .crash i stimulus _ => condition w i stimulus

instance (w : World) (i : NodeID) : (stimulus : Stimulus) → Decidable (VoteKept w i stimulus) :=
  fun e => by cases e <;> unfold VoteKept <;> infer_instance

instance (log : Log) (args : AppendEntriesArgs) : Decidable (Conflicts log args) :=
  inferInstanceAs (Decidable (∃ k < _, _ ∧ _))

instance (log : Log) (args : AppendEntriesArgs) : Decidable (ReplySound log args) :=
  inferInstanceAs (Decidable (_ → _ → _ ∨ _ ∨ _))

instance (n : Node) (reply : AppendEntriesReply) : Decidable (ReplyTimely n reply) :=
  inferInstanceAs (Decidable (_ → _ → _ → _ ∨ _ ∧ ∀ e ∈ _, _))

instance (w : World) (i : NodeID) : (stimulus : Stimulus) → Decidable (RepliesSound w i stimulus) :=
  fun e => by cases e <;> unfold RepliesSound <;> infer_instance

instance (condition : World → NodeID → Stimulus → Prop)
    [∀ w i stimulus, Decidable (condition w i stimulus)] (w : World) :
    (e : Event) → Decidable (e.Meets condition w)
  | .run i stimulus => inferInstanceAs (Decidable (condition w i stimulus))
  | .crash i stimulus _ => inferInstanceAs (Decidable (condition w i stimulus))

/-- The conditions in force: each is asked for or not. -/
def Allowed (P Q : Prop) (w : World) (i : NodeID) (stimulus : Stimulus) : Prop :=
  (P → VoteKept w i stimulus) ∧ (Q → RepliesSound w i stimulus)

/-! ## The refinement -/

structure Refines (C : Cluster) (w : World) (s : Proto) : Prop where
  backs : Backs s w.toDurable
  node : ∀ i ∈ C.ids, At C i s (w.nodes i)

variable {C : Cluster} {P Q : Prop} {i : NodeID} {s t : Proto} {w : World}
variable {G : Proto → Move → Prop}

theorem Refines.settle (h : Refines C w s) {r : Node × List Effect}
    (chain : Chain C G i s w.toDurable r.2 t) (here : At C i t r.1) :
    Refines C (w.settle i r) t where
  backs := chain.backs
  node := by
    intro j member
    by_cases own : j = i
    · simp [World.settle, here, own]
    · have old := h.node j member
      have same := chain.moves.party_of_ne own
      simp only [World.settle, own, if_false]
      exact ⟨same.trans old.party, old.self, old.peers, old.next⟩

theorem blank_refines (C : Cluster) : Refines C (World.blank C) .initial where
  backs := ⟨fun _ => rfl, by simp [World.blank], by simp [Proto.initial],
    by simp [World.blank, Proto.initial], by simp [World.blank]⟩
  node := fun i _ => ⟨by simp [World.blank, Proto.initial, Party.initial, Party.ofNode, newNode,
    PersistentState.zero], rfl, rfl, fun h => by cases h⟩

theorem Moves.steps (moves : Moves C G i s t) : Steps (protocol C) G s t :=
  moves.mono fun _ _ side => side.1

theorem Refines.restart (h : Refines C w s) (member : i ∈ C.ids) :
    ∃ t, Steps (protocol C) (Policy P Q) s t ∧
      Refines C (w.settle i (Raft.start i (C.peers i) (w.disk i))) t := by
  obtain ⟨t, chain, here⟩ := simulate_start (P := P) (Q := Q) h.backs member
  exact ⟨t, chain.moves.steps, h.settle chain here⟩

theorem init_refines (C : Cluster) :
    ∃ s, Steps (protocol C) (Policy P Q) .initial s ∧ Refines C (World.init C) s := by
  have started : ∀ (ids : List NodeID), ids ⊆ C.ids → ∀ {w s}, Refines C w s →
      ∃ t, Steps (protocol C) (Policy P Q) s t ∧ Refines C
        (ids.foldl (fun w i => w.settle i (Raft.start i (C.peers i) (w.disk i))) w) t := by
    intro ids
    induction ids with
    | nil => exact fun _ _ s h => ⟨s, .refl s, h⟩
    | cons i ids ih =>
      intro within w s h
      rw [cons_subset] at within
      obtain ⟨t, first, h'⟩ := h.restart (P := P) (Q := Q) within.1
      grind [Steps.trans]
  exact started C.ids (List.Subset.refl _) (blank_refines C)

/-! ## Messages -/

/-- What a packet that reaches its destination tells about the messages sent. -/
def Informs (s : Proto) (p : Packet) : Prop :=
  match p.msg.body with
  | .requestVote args =>
    .request args.candidateID p.dest args.term args.lastLogIndex args.lastLogTerm ∈ s.msgs
  | .voteResponse reply =>
    reply.voteGranted = true → .grant p.msg.sender p.dest reply.term ∈ s.msgs
  | .appendEntries args => .append p.dest args ∈ s.msgs
  | .appendResponse reply =>
    reply.success = true → .ack p.msg.sender p.dest reply.term reply.matchIndex ∈ s.msgs

theorem informs_of_carried {p : Packet} (carried : Refusal p ∨ ∃ msg ∈ s.msgs, p = msg.packet) :
    Informs s p := by
  unfold Informs
  rcases carried with (⟨reply, body, no⟩ | ⟨reply, body, no⟩) | ⟨msg, sent, rfl⟩
  · simp [body, no]
  · simp [body, no]
  · cases msg with
    | request | append => exact sent
    | grant | ack => exact fun _ => sent

theorem simulate_dispatchMsg {n : Node} {d : Durable} {p : Packet} (here : At C p.dest s n)
    (backs : Backs s d) (member : p.dest ∈ C.ids) (base : Ballots C s) (informs : Informs s p)
    (kept : P → ∀ args, p.msg.body = .requestVote args → args.term = n.state.currentTerm →
      n.state.votedFor = "" → ∀ c, .grant p.dest c args.term ∈ s.msgs → c = args.candidateID)
    (covered : Q → ∀ args, p.msg.body = .appendEntries args → n.state.currentTerm ≤ args.term →
      ReplySound n.state.log args)
    (timely : Q → ∀ reply, p.msg.body = .appendResponse reply → ReplyTimely n reply) :
    ∃ t, Chain C (Policy P Q) p.dest s d (dispatchMsg n p.msg).2.1 t ∧
      At C p.dest t (dispatchMsg n p.msg).1 := by
  unfold dispatchMsg
  unfold Informs at informs
  cases body : p.msg.body with
  | requestVote args =>
    rw [body] at informs
    exact simulate_handleRequestVote here backs member base informs fun h => kept h args body
  | voteResponse reply =>
    rw [body] at informs
    exact simulate_handleVoteResponse here backs member informs
  | appendEntries args =>
    rw [body] at informs
    exact simulate_handleAppendEntries here backs member base informs fun h => covered h args body
  | appendResponse reply =>
    rw [body] at informs
    exact simulate_handleAppendResponse here backs member base informs fun h =>
      timely h reply body

/-- Closing the channels of waiting proposers is invisible to the protocol. -/
theorem simulate_onMessage {n : Node} {d : Durable} {msg : RaftMessage}
    (dispatched : ∃ t, Chain C G i s d (dispatchMsg n msg).2.1 t ∧
      At C i t (dispatchMsg n msg).1) :
    ∃ t, Chain C G i s d (onMessage n msg).2 t ∧ At C i t (onMessage n msg).1 := by
  obtain ⟨t, chain, here⟩ := dispatched
  unfold onMessage
  simp only
  split
  case isFalse => exact ⟨t, chain, here⟩
  case isTrue =>
    have closes : ∀ e ∈ (dispatchMsg n msg).1.proposals.map (fun x => Effect.close x.2),
        ∃ ticket, e = .signal ticket ∨ e = .close ticket := by
      intro e he
      obtain ⟨waiting, -, rfl⟩ := mem_map.mp he
      exact ⟨waiting.2, .inr rfl⟩
    obtain ⟨closed, -⟩ := chain_signals (C := C) (G := G) (i := i) chain.backs _ closes
    exact ⟨t, chain.append closed, ⟨here.party, here.self, here.peers, here.next⟩⟩

/-! ## Events -/

theorem simulate_react (h : Refines C w s) (base : Ballots C s) (member : i ∈ C.ids)
    {stimulus : Stimulus} (allowed : Allowed P Q w i stimulus) {r : Node × List Effect}
    (reaction : w.react C i stimulus = some r) :
    ∃ t, Chain C (Policy P Q) i s w.toDurable r.2 t ∧ At C i t r.1 := by
  have here := h.node i member
  cases stimulus with
  | timeout =>
    cases reaction
    exact simulate_handleElectionTimeout here h.backs member
  | propose cmd ticket =>
    cases reaction
    exact simulate_propose here h.backs member cmd ticket
  | heartbeat =>
    cases reaction
    exact simulate_sendAppendEntriesToAll here h.backs member
  | advance =>
    cases reaction
    exact simulate_advanceCommitIndexLocked here h.backs member
  | start =>
    cases reaction
    exact simulate_start h.backs member
  | deliver k =>
    simp only [World.react] at reaction
    split at reaction
    case h_2 => cases reaction
    case h_1 p found =>
      split at reaction
      case isFalse => cases reaction
      case isTrue dest =>
        cases reaction
        subst dest
        have informs := informs_of_carried (h.backs.carried p (mem_of_getElem? found))
        refine simulate_onMessage (simulate_dispatchMsg here h.backs member base informs ?_ ?_ ?_)
        · intro kept args body term none c granted
          exact allowed.1 kept p found args (by rw [body]; rfl) term none _
            (h.backs.sent _ granted) rfl
        · exact fun sound args body => (allowed.2 sound p found).1 args (by rw [body]; rfl)
        · exact fun sound reply body => (allowed.2 sound p found).2 reply (by rw [body]; rfl)

/-- **Every event is matched by moves.** -/
theorem simulate_step (h : Refines C w s) (base : Ballots C s) {e : Event} {w' : World}
    (allowed : e.Meets (Allowed P Q) w) (taken : w.step C e = some w') :
    ∃ t, Steps (protocol C) (Policy P Q) s t ∧ Refines C w' t := by
  cases e with
  | run i stimulus =>
    simp only [World.step] at taken
    split at taken
    case isFalse => cases taken
    case isTrue member =>
      obtain ⟨r, reaction, rfl⟩ := Option.map_eq_some_iff.mp taken
      obtain ⟨t, chain, here⟩ := simulate_react h base member allowed reaction
      exact ⟨t, chain.moves.steps, h.settle chain here⟩
  | crash i stimulus k =>
    simp only [World.step] at taken
    split at taken
    case isFalse => cases taken
    case isTrue member =>
      obtain ⟨r, reaction, rfl⟩ := Option.map_eq_some_iff.mp taken
      obtain ⟨t, chain, -⟩ := simulate_react h base member allowed reaction
      obtain ⟨u, moves, backs⟩ := chain.cut h.backs k
      -- the memory of node `i` is irrelevant from here on: it is read from disk again
      obtain ⟨v, start, here⟩ := simulate_start (P := P) (Q := Q) backs member
      refine ⟨v, moves.steps.trans start.moves.steps, ⟨start.backs, fun j member' => ?_⟩⟩
      by_cases own : j = i
      · simp [World.recoverFrom, World.settle, here, own]
      · have old := h.node j member'
        have same := (start.moves.party_of_ne own).trans (moves.party_of_ne own)
        simp only [World.recoverFrom, World.settle, own, if_false]
        exact ⟨same.trans old.party, old.self, old.peers, old.next⟩

theorem ballots_of_steps (steps : Steps (protocol C) G .initial s) : Ballots C s :=
  steps.invariant (Ballots C) (fun _ _ enabled _ inv => inv.move enabled) .initial

/-- **The cluster refines the protocol.**  Every world a run of allowed events
reaches stands for a state that the protocol reaches under the same conditions. -/
theorem refines_of_reaches
    (reached : Reaches (World.step C) (fun w e => e.Meets (Allowed P Q) w) (World.init C) w) :
    ∃ s, Steps (protocol C) (Policy P Q) .initial s ∧ Refines C w s :=
  reached.simulate (init_refines C) fun _ _ _ _ allowed taken steps h =>
    simulate_step h (ballots_of_steps steps) allowed taken

theorem Refines.oneLeader (h : Refines C w s) :
    s.OneLeaderPerTerm ↔ w.OneLeaderPerTerm := by
  constructor
  · intro one i j t hi hj
    obtain ⟨e, he, rfl, rfl⟩ := (h.backs.elected i t).mp hi
    obtain ⟨e', he', rfl, same⟩ := (h.backs.elected j _).mp hj
    exact one e he e' he' same.symm
  · intro one e he e' he' same
    exact one _ _ e.term ((h.backs.elected _ _).mpr ⟨e, he, rfl, rfl⟩)
      ((h.backs.elected _ _).mpr ⟨e', he', rfl, same.symm⟩)

end PubsubBroker.Raft
