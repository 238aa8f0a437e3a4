/-
# Raft.Simulation — each handler is a chain of moves

The code model of `Raft.Node` against the moves of `Raft.Protocol`.  A handler
has a list of effects; a chain gives, for every one of them, a protocol state
that agrees with the outside world right after it (`Chain`).  So the handler as
a whole is a run of moves, and so is every prefix of it that a crash may leave.
-/
import PubsubBroker.Raft.Ballots
import PubsubBroker.Raft.Merge

namespace PubsubBroker.Raft

open Theory List

/-! ## Agreement with the outside world -/

/-- A packet that refuses a vote or rejects entries. -/
def Refusal (p : Packet) : Prop :=
  (∃ reply, p.msg.body = .voteResponse reply ∧ reply.voteGranted = false) ∨
    ∃ reply, p.msg.body = .appendResponse reply ∧ reply.success = false

structure Backs (s : Proto) (d : Durable) : Prop where
  disk : ∀ i, d.disk i = (s.party i).persistent
  carried : ∀ p ∈ d.sent, Refusal p ∨ ∃ msg ∈ s.msgs, p = msg.packet
  sent : ∀ msg ∈ s.msgs, msg.packet ∈ d.sent
  elected : ∀ i t, (i, t) ∈ d.elected ↔ ∃ e ∈ s.elected, e.leader = i ∧ e.term = t
  applied : ∀ x ∈ d.applied, x ∈ s.applied

namespace Backs

variable {s : Proto} {d : Durable} {i : NodeID}

theorem save (h : Backs s d) (p : Party) :
    Backs (s.setParty i p) (d.perform i (.save p.persistent)) where
  disk := by
    intro j
    by_cases own : j = i
    · subst own
      simp [Durable.perform]
    · simp [Durable.perform, own, h.disk j]
  carried := h.carried
  sent := h.sent
  elected := h.elected
  applied := h.applied

theorem volatile (h : Backs s d) {p : Party} (kept : p.persistent = (s.party i).persistent) :
    Backs (s.setParty i p) d where
  disk := by
    intro j
    by_cases own : j = i
    · subst own
      simp [kept, h.disk j]
    · simp [own, h.disk j]
  carried := h.carried
  sent := h.sent
  elected := h.elected
  applied := h.applied

theorem leaderLog (h : Backs s d) (t : Nat) (log : Log) : Backs (s.setLeaderLog t log) d :=
  ⟨h.disk, h.carried, h.sent, h.elected, h.applied⟩

theorem post (h : Backs s d) (msg : Msg) :
    Backs (s.post msg) (d.perform i (.send msg.packet.dest msg.packet.msg)) where
  disk := h.disk
  carried := by
    intro p hp
    rcases mem_append.mp hp with old | new
    · exact (h.carried p old).imp_right fun ⟨m, hm, eq⟩ => ⟨m, mem_cons_of_mem _ hm, eq⟩
    · exact .inr ⟨msg, mem_cons_self, mem_singleton.mp new⟩
  sent := by
    intro m hm
    rcases mem_cons.mp hm with rfl | old
    · exact mem_append_right _ (mem_singleton.mpr rfl)
    · exact mem_append_left _ (h.sent m old)
  elected := h.elected
  applied := h.applied

theorem refuse (h : Backs s d) {addr : NodeID} {msg : RaftMessage} (refusal : Refusal ⟨addr, msg⟩) :
    Backs s (d.perform i (.send addr msg)) where
  disk := h.disk
  carried := by
    intro p hp
    rcases mem_append.mp hp with old | new
    · exact h.carried p old
    grind
  sent := fun m hm => mem_append_left _ (h.sent m hm)
  elected := h.elected
  applied := h.applied

theorem becameLeader (h : Backs s d) (t : Nat) (log : Log) :
    Backs (s.addElection ⟨i, t, log⟩) (d.perform i (.becameLeader t)) where
  disk := h.disk
  carried := h.carried
  sent := h.sent
  elected := by
    intro j t'
    have new : (j, t') ∈ (d.perform i (.becameLeader t)).elected ↔
        (j, t') ∈ d.elected ∨ j = i ∧ t' = t := by
      simp [Durable.perform]
    rw [new, h.elected]
    simp only [Proto.addElection_elected, mem_cons, exists_eq_or_imp]
    constructor
    · grind
    grind
  applied := h.applied

theorem apply (h : Backs s d) (index : Nat) (entry : LogEntry) :
    Backs { s with applied := (i, index, entry) :: s.applied }
      (d.perform i (.apply index entry)) where
  disk := h.disk
  carried := h.carried
  sent := h.sent
  elected := h.elected
  applied := by
    intro x hx
    rcases mem_append.mp hx with old | new
    · grind [applied]
    grind

end Backs

/-! ## Chains -/

section chain

variable (C : Cluster) (G : Proto → Move → Prop) (i : NodeID)

/-- Finitely many moves of node `i`. -/
abbrev Moves : Proto → Proto → Prop :=
  Steps (protocol C) fun s m => G s m ∧ m.actor = i

/-- The effects happen one after the other, with a protocol state for each. -/
def Chain : Proto → Durable → List Effect → Proto → Prop
  | s, d, [], t => Moves C G i s t ∧ Backs t d
  | s, d, e :: es, t =>
    ∃ u, Moves C G i s u ∧ Backs u (d.perform i e) ∧ Chain u (d.perform i e) es t

end chain

namespace Chain

variable {C : Cluster} {G : Proto → Move → Prop} {i : NodeID} {s t u : Proto} {d : Durable}

theorem nil (backs : Backs s d) : Chain C G i s d [] s := ⟨.refl s, backs⟩

theorem silent {m : Move} (enabled : C.Enabled s m) (side : G s m) (actor : m.actor = i)
    (backs : Backs (s.move m) d) : Chain C G i s d [] (s.move m) :=
  ⟨.tail (.refl s) enabled ⟨side, actor⟩, backs⟩

theorem effect {m : Move} {e : Effect} (enabled : C.Enabled s m) (side : G s m)
    (actor : m.actor = i) (backs : Backs (s.move m) (d.perform i e)) :
    Chain C G i s d [e] (s.move m) :=
  ⟨s.move m, .tail (.refl s) enabled ⟨side, actor⟩, backs, .refl _, backs⟩

theorem skip {e : Effect} (backs : Backs s (d.perform i e)) : Chain C G i s d [e] s :=
  ⟨s, .refl s, backs, .refl s, backs⟩

theorem moves : ∀ {es : List Effect} {s : Proto} {d : Durable}, Chain C G i s d es t →
    Moves C G i s t
  | [], _, _, h => h.1
  | _ :: _, _, _, ⟨_, first, _, rest⟩ => first.trans rest.moves

theorem backs : ∀ {es : List Effect} {s : Proto} {d : Durable}, Chain C G i s d es t →
    Backs t (d.performAll i es)
  | [], _, _, h => h.2
  | _ :: _, _, _, ⟨_, _, _, rest⟩ => rest.backs

/-- **A crash after any effect leaves a state the moves reach.** -/
theorem cut : ∀ {es : List Effect} {s : Proto} {d : Durable}, Backs s d → Chain C G i s d es t →
    ∀ k, ∃ u, Moves C G i s u ∧ Backs u (d.performAll i (es.take k))
  | _, s, _, start, _, 0 => ⟨s, .refl s, start⟩
  | [], s, _, start, _, _ + 1 => ⟨s, .refl s, start⟩
  | _ :: _, _, _, _, ⟨_, first, here, rest⟩, k + 1 => by
    obtain ⟨v, more, backs⟩ := rest.cut here k
    exact ⟨v, first.trans more, backs⟩

theorem prepend : ∀ {es : List Effect}, Moves C G i s u → Chain C G i u d es t →
    Chain C G i s d es t
  | [], first, h => ⟨first.trans h.1, h.2⟩
  | _ :: _, first, ⟨v, more, here, rest⟩ => ⟨v, first.trans more, here, rest⟩

theorem append : ∀ {es es' : List Effect} {s : Proto} {d : Durable}, Chain C G i s d es t →
    Chain C G i t (d.performAll i es) es' u → Chain C G i s d (es ++ es') u
  | [], _, _, _, first, second => second.prepend first.1
  | _ :: _, _, _, _, ⟨v, more, here, rest⟩, second => ⟨v, more, here, rest.append second⟩

end Chain

theorem Moves.party_of_ne {C : Cluster} {G : Proto → Move → Prop} {i j : NodeID} {s t : Proto}
    (moves : Moves C G i s t) (other : j ≠ i) : t.party j = s.party j := by
  induction moves with
  | refl => rfl
  | tail _ _ side ih => exact (Proto.move_party_of_ne _ _ (side.2 ▸ other)).trans ih

/-! ## Nodes and parties -/

/-- The protocol state sees node `i` as the memory `n`. -/
structure At (C : Cluster) (i : NodeID) (s : Proto) (n : Node) : Prop where
  party : s.party i = .ofNode n
  self : n.selfID = i
  peers : n.peers = C.peers i
  next : n.role = .leader → ∀ p ∈ n.peers, 1 ≤ n.nextIndex p

@[simp] theorem ofNode_term (n : Node) : (Party.ofNode n).term = n.state.currentTerm := rfl
@[simp] theorem ofNode_log (n : Node) : (Party.ofNode n).log = n.state.log := rfl
@[simp] theorem ofNode_role (n : Node) : (Party.ofNode n).role = n.role := rfl
@[simp] theorem ofNode_commitIndex (n : Node) : (Party.ofNode n).commitIndex = n.commitIndex := rfl

theorem ofNode_stepDown (n : Node) (term : Nat) (leaderID : NodeID) (leaderKnown : Bool) :
    Party.ofNode (stepDown n term leaderID leaderKnown) = (Party.ofNode n).follow term := by
  simp [Party.ofNode, stepDown, Party.follow]

theorem sendRaft_eq {p : NodeID} (addr : p ≠ "") (msg : RaftMessage) :
    sendRaft p msg = [.send p msg] := if_pos addr

theorem Cluster.ne_of_mem {C : Cluster} {i : NodeID} (member : i ∈ C.ids) : i ≠ "" := by
  rintro rfl
  exact C.id_ne member

theorem Cluster.length_peers (C : Cluster) {i : NodeID} (member : i ∈ C.ids) :
    (C.peers i).length + 1 = C.ids.length := by
  have perm : (i :: C.peers i).Perm C.ids := by grind [ids_nodup, peers_nodup, mem_peers]
  simpa using perm.length_eq

theorem Cluster.quorum_alone (C : Cluster) {i : NodeID} (member : i ∈ C.ids)
    (alone : C.peers i = []) : C.quorum ≤ 1 := by
  rw [Cluster.quorum, ← C.length_peers member, alone]
  simp

section handlers

variable {C : Cluster} {P Q : Prop} {i : NodeID} {s : Proto} {d : Durable}
  {n : Node}

theorem At.quorum_eq (here : At C i s n) (member : i ∈ C.ids) : quorum n = C.quorum := by
  rw [quorum, here.peers, C.length_peers member, Cluster.quorum]

theorem broadcast {G : Proto → Move → Prop} {f : NodeID → Move} {g : NodeID → Msg}
    {w : NodeID → RaftMessage} : ∀ (ps : List NodeID) {s : Proto} {d : Durable},
    (∀ u, u.party = s.party → ∀ p ∈ ps, C.Enabled u (f p) ∧ G u (f p) ∧ (f p).actor = i ∧
      u.move (f p) = u.post (g p)) →
    (∀ p ∈ ps, p ≠ "" ∧ (g p).packet = ⟨p, w p⟩) → Backs s d →
    ∃ t, Chain C G i s d (ps.flatMap fun p => sendRaft p (w p)) t ∧ t.party = s.party
  | [], s, _, _, _, backs => ⟨s, .nil backs, rfl⟩
  | p :: ps, s, d, ready, packets, backs => by
    obtain ⟨addr, packet⟩ := packets p mem_cons_self
    obtain ⟨enabled, side, actor, post⟩ := ready s rfl p mem_cons_self
    have sent : Backs (s.move (f p)) (d.perform i (.send p (w p))) := by
      rw [post]
      simpa [packet] using backs.post (i := i) (g p)
    have kept : (s.move (f p)).party = s.party := by rw [post, Proto.post_party]
    obtain ⟨t, rest, same⟩ := broadcast ps
      (fun u hu q hq => ready u (hu.trans kept) q (mem_cons_of_mem _ hq))
      (fun q hq => packets q (mem_cons_of_mem _ hq)) sent
    refine ⟨t, ?_, same.trans kept⟩
    rw [flatMap_cons, sendRaft_eq addr]
    exact (Chain.effect enabled side actor sent).append rest

theorem ofNode_becomeLeader (n : Node) : Party.ofNode (becomeLeaderLocked n).1 =
    { Party.ofNode n with role := .leader, votes := [], matchIndex := fun _ => 0 } := by
  simp only [Party.ofNode, becomeLeaderLocked, reduceCtorEq, if_false, Party.mk.injEq, true_and,
    and_true]
  funext p
  by_cases peer : p ∈ n.peers <;> simp [peer]

/-- `s` may still see the winner as a follower: a node without peers never
was a candidate in memory. -/
theorem simulate_becomeLeader {v : List NodeID} {k : NodeID → Nat}
    (party : s.party i =
      { Party.ofNode n with role := .candidate, votes := v, matchIndex := k })
    (self : n.selfID = i) (peers : n.peers = C.peers i) (backs : Backs s d) (member : i ∈ C.ids)
    (majority : C.quorum ≤ v.length) :
    ∃ t, Chain C (Policy P Q) i s d (becomeLeaderLocked n).2 t ∧
      At C i t (becomeLeaderLocked n).1 ∧ t.msgs = s.msgs := by
  refine ⟨s.move (.win i), ?_, ⟨?_, self, peers, fun _ p hp => ?_⟩, rfl⟩
  · refine .effect ⟨member, by simp [party], by simpa [party] using majority⟩
      ⟨fun _ => trivial, fun _ => trivial⟩ rfl ?_
    have term : (s.party i).term = n.state.currentTerm := by simp [party, Party.ofNode]
    rw [← term]
    exact ((backs.volatile (i := i) (p := { s.party i with
      role := .leader, votes := [], matchIndex := fun _ => 0 }) rfl).becameLeader _ _).leaderLog _ _
  · simp [Proto.move, ofNode_becomeLeader, party]
  · simp only [becomeLeaderLocked] at hp ⊢
    rw [if_pos hp]
    omega

/-- The request the code builds for a peer is the leader's log from one position on. -/
theorem appendEntriesFor_eq {p : NodeID} (next : 1 ≤ n.nextIndex p) :
    1 ≤ (appendEntriesFor n p).1 ∧ (appendEntriesFor n p).1 - 1 ≤ n.state.log.length ∧
      (appendEntriesFor n p).2 =
        appendArgs n.selfID (.ofNode n) ((appendEntriesFor n p).1 - 1) := by
  unfold appendEntriesFor
  by_cases beyond : n.nextIndex p > n.state.log.length
  · simp only [beyond, if_true]
    refine ⟨by omega, by omega, ?_⟩
    by_cases empty : n.state.log = []
    · simp [appendArgs, Party.ofNode, termAt, empty]
    simp [appendArgs, termAt, empty]
  · simp only [beyond, if_false]
    refine ⟨next, by omega, ?_⟩
    have nonzero : n.nextIndex p ≠ 0 := by omega
    have within : n.nextIndex p ≤ n.state.log.length := by omega
    by_cases first : n.nextIndex p = 1
    · simp [appendArgs, Party.ofNode, termAt, first]
    · have : 0 < n.nextIndex p - 1 := by omega
      have : n.nextIndex p - 1 ≤ n.state.log.length := by omega
      have : n.nextIndex p - 1 ≠ 0 := by omega
      simp [appendArgs, Party.ofNode, termAt, *]

theorem observeTerm_term (n : Node) (term : Nat) (leaderID : NodeID) (leaderKnown : Bool) :
    term ≤ (observeTerm n term leaderID leaderKnown).1.state.currentTerm := by
  unfold observeTerm
  split
  case isTrue => exact le_rfl
  case isFalse low => exact not_lt.mp low

theorem grantsVote_iff {n : Node} {args : RequestVoteArgs} (grants : grantsVote n args = true)
    (low : args.term ≤ n.state.currentTerm) :
    args.term = n.state.currentTerm ∧
      (n.state.votedFor = "" ∨ n.state.votedFor = args.candidateID) ∧
      UpToDate args.lastLogIndex args.lastLogTerm n.state.log := by
  simp only [grantsVote, Bool.and_eq_true, Bool.or_eq_true, decide_eq_true_eq] at grants
  exact ⟨le_antisymm low grants.1.1, grants.1.2, grants.2⟩

theorem simulate_start (backs : Backs s d) (member : i ∈ C.ids) :
    ∃ t, Chain C (Policy P Q) i s d (Raft.start i (C.peers i) (d.disk i)).2 t ∧
      At C i t (Raft.start i (C.peers i) (d.disk i)).1 := by
  have backs' : Backs (s.move (.restart i)) d := backs.volatile rfl
  have restarted : Chain C (Policy P Q) i s d [] (s.move (.restart i)) :=
    .silent member ⟨fun _ => trivial, fun _ => trivial⟩ rfl backs'
  have fresh : At C i (s.move (.restart i))
      { newNode i (C.peers i) with state := (s.party i).persistent } := by
    refine ⟨?_, rfl, rfl, fun h => ?_⟩
    · simp [Proto.move, Party.ofNode, newNode, Party.persistent]
    · cases h
  rw [backs.disk i]
  unfold Raft.start
  simp only
  split
  case isTrue alone =>
    -- the saved state is that of a campaign, although the role is never set
    have party : ((s.move (.restart i)).move (.campaign i)).party i =
        ⟨(s.party i).term + 1, i, (s.party i).log, .candidate, [i], fun _ => 0, 0⟩ := by
      simp [Proto.move]
    have saved : Backs ((s.move (.restart i)).move (.campaign i))
        (d.perform i (.save ⟨(s.party i).term + 1, i, (s.party i).log⟩)) := by
      have := backs'.save (i := i)
        ⟨(s.party i).term + 1, i, (s.party i).log, .candidate, [i], fun _ => 0, 0⟩
      simpa [Proto.move, Party.persistent] using this
    have campaign : Chain C (Policy P Q) i s d
        [.save ⟨(s.party i).term + 1, i, (s.party i).log⟩]
        ((s.move (.restart i)).move (.campaign i)) :=
      restarted.append (.effect ⟨member, by simp [fresh.party, Party.ofNode, newNode]⟩
        ⟨fun _ => trivial, fun _ => trivial⟩ rfl saved)
    obtain ⟨u, won, here, -⟩ := simulate_becomeLeader (P := P) (Q := Q) (v := [i])
      (k := fun _ => 0) (n := { newNode i (C.peers i) with
        state := ⟨(s.party i).term + 1, i, (s.party i).log⟩ })
      (party.trans (by simp [Party.ofNode, newNode])) rfl rfl campaign.backs member
      (C.quorum_alone member alone)
    exact ⟨u, campaign.append won, here⟩
  case isFalse => exact ⟨_, restarted, fresh⟩

section

variable (here : At C i s n) (backs : Backs s d) (member : i ∈ C.ids)
include here backs member

theorem simulate_observeTerm (term : Nat) (leaderID : NodeID) (leaderKnown : Bool) :
    ∃ t, Chain C (Policy P Q) i s d
        (observeTerm n term leaderID leaderKnown).2 t ∧
      At C i t (observeTerm n term leaderID leaderKnown).1 ∧ t.msgs = s.msgs := by
  unfold observeTerm
  split
  case isTrue higher =>
    have moved : s.move (.raiseTerm i term) =
        s.setParty i (.ofNode (stepDown n term leaderID leaderKnown)) := by
      rw [ofNode_stepDown, ← here.party]
      rfl
    refine ⟨s.move (.raiseTerm i term), ?_, ⟨?_, here.self, here.peers, fun h => ?_⟩, rfl⟩
    · exact .effect ⟨member, by simpa [here.party, Party.ofNode] using higher⟩
        ⟨fun _ => trivial, fun _ => trivial⟩ rfl (moved ▸ backs.save _)
    · simp [moved]
    · cases h
  case isFalse => exact ⟨s, .nil backs, here, rfl⟩

theorem simulate_stepDown {term : Nat} (higher : term > n.state.currentTerm) (leaderID : NodeID)
    (leaderKnown : Bool) :
    ∃ t, Chain C (Policy P Q) i s d (persistLocked (stepDown n term leaderID leaderKnown)) t ∧
      At C i t (stepDown n term leaderID leaderKnown) := by
  obtain ⟨t, chain, here', -⟩ :=
    simulate_observeTerm (P := P) (Q := Q) here backs member term leaderID leaderKnown
  rw [observeTerm, if_pos higher] at chain here'
  exact ⟨t, chain, here'⟩

theorem simulate_sendAppendEntriesToAll :
    ∃ t, Chain C (Policy P Q) i s d (sendAppendEntriesToAll n).2 t ∧
      At C i t (sendAppendEntriesToAll n).1 := by
  unfold sendAppendEntriesToAll
  split
  case isTrue => exact ⟨s, .nil backs, here⟩
  case isFalse role =>
    have leader : n.role = .leader := not_not.mp role
    have built : ∀ p ∈ n.peers, _ := fun p hp => appendEntriesFor_eq (here.next leader p hp)
    have ready : ∀ u, u.party = s.party → ∀ p ∈ n.peers,
        C.Enabled u (.sendAppend i p ((appendEntriesFor n p).1 - 1)) ∧
        Policy P Q u (.sendAppend i p ((appendEntriesFor n p).1 - 1)) ∧ i = i ∧
        u.move (.sendAppend i p ((appendEntriesFor n p).1 - 1)) =
          u.post (.append p (appendEntriesFor n p).2) := by
      intro u hu p hp
      obtain ⟨-, short, args⟩ := built p hp
      have party : u.party i = .ofNode n := by rw [hu, here.party]
      refine ⟨⟨member, here.peers ▸ hp, party ▸ leader, party ▸ short⟩,
        ⟨fun _ => trivial, fun _ => trivial⟩, rfl, ?_⟩
      rw [args, here.self]
      simp only [Proto.move, party]
    have packets : ∀ p ∈ n.peers, p ≠ "" ∧ (Msg.append p (appendEntriesFor n p).2).packet =
        ⟨p, ⟨n.selfID, n.state.currentTerm, .appendEntries (appendEntriesFor n p).2⟩⟩ :=
      fun p hp => ⟨C.ne_of_mem ((C.mem_peers i member p).mp (here.peers ▸ hp)).1, rfl⟩
    obtain ⟨t, chain, same⟩ := broadcast n.peers ready packets backs
    refine ⟨t, chain, ⟨?_, here.self, here.peers, fun _ p hp => ?_⟩⟩
    · rw [same, here.party]
      rfl
    simp [built, hp]

/-! ### Elections -/

theorem simulate_becomeCandidate (role : n.role ≠ .leader) :
    ∃ t, Chain C (Policy P Q) i s d (persistLocked (becomeCandidate n)) t ∧
      At C i t (becomeCandidate n) := by
  have moved : s.move (.campaign i) = s.setParty i (.ofNode (becomeCandidate n)) := by
    simp [Proto.move, here.party, Party.ofNode, becomeCandidate, here.self]
  refine ⟨s.move (.campaign i), ?_, ⟨?_, here.self, here.peers, fun h => ?_⟩⟩
  · exact .effect ⟨member, here.party ▸ role⟩ ⟨fun _ => trivial, fun _ => trivial⟩ rfl
      (moved ▸ backs.save _)
  · simp [moved]
  · cases h

theorem simulate_handleElectionTimeout :
    ∃ t, Chain C (Policy P Q) i s d (handleElectionTimeout n).2 t ∧
      At C i t (handleElectionTimeout n).1 := by
  unfold handleElectionTimeout
  split
  case isTrue => exact ⟨s, .nil backs, here⟩
  case isFalse role =>
    obtain ⟨t, saved, here'⟩ :=
      simulate_becomeCandidate (P := P) (Q := Q) here backs member role
    simp only
    split
    case isTrue alone =>
      have single : C.quorum ≤ [i].length := C.quorum_alone member (here'.peers ▸ alone)
      obtain ⟨u, won, here'', -⟩ := simulate_becomeLeader (v := [i]) (k := fun _ => 0)
        (by rw [here'.party]; simp [Party.ofNode, becomeCandidate, here.self])
        here'.self here'.peers saved.backs member single
      exact ⟨u, saved.append won, here''⟩
    case isFalse =>
      have ready : ∀ u, u.party = t.party → ∀ p ∈ (becomeCandidate n).peers,
          C.Enabled u (.askVote i p) ∧ Policy P Q u (.askVote i p) ∧ i = i ∧
          u.move (.askVote i p) = u.post (.request i p (becomeCandidate n).state.currentTerm
            (becomeCandidate n).state.log.length (lastTerm (becomeCandidate n).state.log)) := by
        intro u hu p hp
        have party : u.party i = .ofNode (becomeCandidate n) := by rw [hu, here'.party]
        refine ⟨⟨member, here'.peers ▸ hp, party ▸ rfl⟩, ⟨fun _ => trivial, fun _ => trivial⟩, rfl, ?_⟩
        simp only [Proto.move, party]
        rfl
      obtain ⟨u, sent, same⟩ := broadcast _ ready
        (w := fun _ => ⟨i, (becomeCandidate n).state.currentTerm, .requestVote
          ⟨(becomeCandidate n).state.currentTerm, i, (becomeCandidate n).state.log.length,
            lastTerm (becomeCandidate n).state.log⟩⟩)
        (fun p hp => ⟨C.ne_of_mem ((C.mem_peers i member p).mp (here'.peers ▸ hp)).1, rfl⟩) saved.backs
      rw [here'.self]
      exact ⟨u, saved.append sent, ⟨same ▸ here'.party, here'.self, here'.peers, here'.next⟩⟩

theorem simulate_vote {c : NodeID} {lastIndex lastTerm : Nat} (addr : c ≠ "")
    (asked : .request c i n.state.currentTerm lastIndex lastTerm ∈ s.msgs)
    (free : n.state.votedFor = "" ∨ n.state.votedFor = c)
    (upToDate : UpToDate lastIndex lastTerm n.state.log)
    (once : P → n.state.votedFor = "" → ∀ c', .grant i c' n.state.currentTerm ∈ s.msgs → c' = c) :
    ∃ t, Chain C (Policy P Q) i s d
        (persistLocked { n with state := { n.state with votedFor := c } } ++
          sendRaft c ⟨n.selfID, n.state.currentTerm,
            .voteResponse ⟨n.state.currentTerm, true⟩⟩) t ∧
      At C i t { n with state := { n.state with votedFor := c } } := by
  let voted : Node := { n with state := { n.state with votedFor := c } }
  have moved : s.move (.vote i c lastIndex lastTerm) = s.setParty i (.ofNode voted) := by
    simp only [Proto.move, here.party]
    rfl
  have vote : Chain C (Policy P Q) i s d (persistLocked voted) (s.setParty i (.ofNode voted)) := by
    rw [← moved]
    refine .effect ⟨member, here.party ▸ asked, here.party ▸ free, here.party ▸ upToDate⟩
      ⟨fun h => ?_, fun _ => trivial⟩ rfl (moved ▸ backs.save _)
    simpa [VoteOnce, here.party, Party.ofNode] using once h
  have granted : (s.setParty i (.ofNode voted)).move (.sendGrant i c lastIndex lastTerm) =
      (s.setParty i (.ofNode voted)).post (.grant i c n.state.currentTerm) := by
    simp [Proto.move, Party.ofNode, voted]
  have wire : (⟨n.selfID, n.state.currentTerm, .voteResponse ⟨n.state.currentTerm, true⟩⟩ :
      RaftMessage) = (Msg.grant i c n.state.currentTerm).packet.msg := by
    rw [here.self]
    rfl
  have grant : Chain C (Policy P Q) i (s.setParty i (.ofNode voted))
      (d.performAll i (persistLocked voted))
      [.send c (Msg.grant i c n.state.currentTerm).packet.msg]
      ((s.setParty i (.ofNode voted)).move (.sendGrant i c lastIndex lastTerm)) := by
    refine .effect ⟨member, ?_, ?_, ?_⟩ ⟨fun _ => trivial, fun _ => trivial⟩ rfl
      (granted ▸ vote.backs.post _)
    · simpa [Party.ofNode, voted] using asked
    · simp [Party.ofNode, voted]
    · simpa [Party.ofNode, voted] using upToDate
  rw [sendRaft_eq addr, wire]
  refine ⟨_, vote.append grant, ⟨?_, here.self, here.peers, here.next⟩⟩
  simp [granted, voted]

theorem simulate_handleRequestVote (base : Ballots C s) {args : RequestVoteArgs}
    (asked : .request args.candidateID i args.term args.lastLogIndex args.lastLogTerm ∈ s.msgs)
    (kept : P → args.term = n.state.currentTerm → n.state.votedFor = "" →
      ∀ c, .grant i c args.term ∈ s.msgs → c = args.candidateID) :
    ∃ t, Chain C (Policy P Q) i s d (handleRequestVote n args).2.1 t ∧
      At C i t (handleRequestVote n args).1 := by
  have addr : args.candidateID ≠ "" := C.ne_of_mem (base.route _ asked).1
  obtain ⟨t, observed, here', same⟩ :=
    simulate_observeTerm (P := P) (Q := Q) here backs member args.term "" false
  have low := observeTerm_term n args.term "" false
  -- a node that has just reached the term has granted nothing in it
  have once : args.term = (observeTerm n args.term "" false).1.state.currentTerm → P →
      (observeTerm n args.term "" false).1.state.votedFor = "" →
      ∀ c, .grant i c args.term ∈ t.msgs → c = args.candidateID := by
    intro current h none c granted
    rw [same] at granted
    have bound := base.term_le _ granted
    simp only [Msg.term, Msg.sender, here.party] at bound
    have unchanged : observeTerm n args.term "" false = (n, []) := if_neg (not_lt.mpr bound)
    rw [unchanged] at none current
    exact kept h current none c granted
  unfold handleRequestVote
  simp only
  cases grants : grantsVote (observeTerm n args.term "" false).1 args with
  | false =>
    simp only [Bool.false_eq_true, if_false, append_nil, sendRaft_eq addr]
    exact ⟨t, observed.append (.skip (observed.backs.refuse (.inl ⟨_, rfl, rfl⟩))), here'⟩
  | true =>
    obtain ⟨term, free, upToDate⟩ := grantsVote_iff grants low
    rw [← same, term] at asked
    obtain ⟨u, voted, here''⟩ := simulate_vote (P := P) (Q := Q) here' observed.backs member addr
      asked free upToDate (fun h none c granted => once term h none c (by rwa [term]))
    simp only [if_true, append_assoc]
    grind [Chain.append]

theorem simulate_handleVoteResponse {sender : NodeID} {reply : RequestVoteReply}
    (granted : reply.voteGranted = true → .grant sender i reply.term ∈ s.msgs) :
    ∃ t, Chain C (Policy P Q) i s d (handleVoteResponse n sender reply).2.1 t ∧
      At C i t (handleVoteResponse n sender reply).1 := by
  unfold handleVoteResponse
  split
  case isTrue higher => exact simulate_stepDown here backs member higher "" false
  case isFalse low =>
    split
    case isTrue => exact ⟨s, .nil backs, here⟩
    case isFalse current =>
      rw [not_or, not_not, not_not] at current
      obtain ⟨candidate, term⟩ := current
      split
      case isFalse => exact ⟨s, .nil backs, here⟩
      case isTrue yes =>
        let counted : Node := { n with voteGranted := n.voteGranted.insert sender }
        have moved : s.move (.countVote i sender) = s.setParty i (.ofNode counted) := by
          simp [Proto.move, here.party, Party.ofNode, counted, candidate]
        have here' : At C i (s.move (.countVote i sender)) counted :=
          ⟨by simp [moved], here.self, here.peers, here.next⟩
        have count : Chain C (Policy P Q) i s d [] (s.move (.countVote i sender)) := by
          refine .silent ⟨member, here.party ▸ candidate, ?_⟩
            ⟨fun _ => trivial, fun _ => trivial⟩ rfl (backs.volatile rfl)
          rw [here.party, ofNode_term, ← term]
          exact granted yes
        simp only
        split
        case isFalse => exact ⟨_, count, here'⟩
        case isTrue enough =>
          obtain ⟨u, won, led, -⟩ := simulate_becomeLeader (P := P) (Q := Q) (n := counted)
            (v := counted.voteGranted) (k := (Party.ofNode counted).matchIndex)
            (by rw [here'.party]; simp [Party.ofNode, counted, candidate])
            here'.self here'.peers count.backs member (here'.quorum_eq member ▸ enough)
          obtain ⟨w, sent, led'⟩ :=
            simulate_sendAppendEntriesToAll (P := P) (Q := Q) led won.backs member
          exact ⟨w, (count.append won).append sent, led'⟩

end

end handlers

end PubsubBroker.Raft
