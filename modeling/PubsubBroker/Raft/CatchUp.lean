/-
# Raft.CatchUp — a leader brings a follower's log up to date

One round is a heartbeat of the leader, the follower's answer to it and the
leader's reaction to the answer.  A rejected request lowers the leader's
`nextIndex` for that follower, an accepted one leaves the leader's whole log at
the front of the follower's.

Lowering needs more than the two logs.  The leader jumps behind its last entry of
the conflicting term, and that this is in front of the rejected position rests on
Log Matching: were the leader's entry of that term behind it, both logs would
agree there with the log of that term's leader (`before_of_conflict`).
-/
import PubsubBroker.Raft.Staleness
import PubsubBroker.Raft.Safety

namespace PubsubBroker.Raft

open Theory List

/-! ## What the handlers show to others -/

theorem applyRange_outward (n : Node) (entries : List LogEntry) (index : Nat) :
    (applyRange n index entries).filterMap Effect.outward = [] := by
  induction entries generalizing index with
  | nil => rfl
  | cons entry entries ih =>
    simp only [applyRange, applyAt, filterMap_append, ih, append_nil,
      filterMap_cons, Effect.outward, filterMap_map]
    exact filterMap_eq_nil_iff.mpr fun _ _ => rfl

theorem sendRaft_outward {peer : NodeID} (addr : peer ≠ "") (msg : RaftMessage) :
    (sendRaft peer msg).filterMap Effect.outward = [.inl ⟨peer, msg⟩] := by
  rw [sendRaft_eq addr]
  rfl

variable {n : Node}

theorem sendAppendEntriesToAll_outward (leader : n.role = .leader) (addr : ∀ p ∈ n.peers, p ≠ "") :
    (sendAppendEntriesToAll n).2.filterMap Effect.outward = n.peers.map fun p =>
      .inl ⟨p, ⟨n.selfID, n.state.currentTerm, .appendEntries (appendEntriesFor n p).2⟩⟩ := by
  unfold sendAppendEntriesToAll
  rw [if_neg (not_not.mpr leader), filterMap_flatMap, map_eq_flatMap]
  exact flatMap_congr fun p mem => sendRaft_outward (addr p mem) _

/-! ## The follower's answer -/

/-- The answer of a follower with this log to a request that is not stale. -/
def appendReply (log : Log) (args : AppendEntriesArgs) : AppendEntriesReply :=
  match appendEntriesFromLeader log args.prevLogIndex args.prevLogTerm args.entries with
  | .error (conflictIndex, conflictTerm) => ⟨args.term, false, 0, conflictIndex, conflictTerm⟩
  | .ok log => ⟨args.term, true, log.length, 0, 0⟩

theorem appendReply_term (log : Log) (args : AppendEntriesArgs) :
    (appendReply log args).term = args.term := by
  unfold appendReply
  split <;> rfl

variable {args : AppendEntriesArgs}

theorem appendReply_success (fresh : n.state.currentTerm ≤ args.term) :
    (appendReply n.state.log args).success = accepts n args := by
  unfold appendReply accepts
  cases appendEntriesFromLeader n.state.log args.prevLogIndex args.prevLogTerm args.entries <;>
    simp [fresh, Except.isOk, Except.toBool]

theorem takeEntries_outward (addr : args.leaderID ≠ "") :
    (takeEntries n args.term args).2.filterMap Effect.outward =
      [.inl ⟨args.leaderID, ⟨n.selfID, n.state.currentTerm,
        .appendResponse (appendReply n.state.log args)⟩⟩] := by
  unfold takeEntries appendReply
  cases appendEntriesFromLeader n.state.log args.prevLogIndex args.prevLogTerm args.entries with
  | error conflict => exact sendRaft_outward addr _
  | ok log =>
    have quiet : (if args.leaderCommit > n.commitIndex then
        applyCommittedLocked { n with
          state := { n.state with log := log }
          commitIndex := min args.leaderCommit log.length }
      else ({ n with state := { n.state with log := log } }, [])).2.filterMap
          Effect.outward = [] := by
      split
      · rw [applyCommittedLocked_eq (Nat.min_le_right _ _), applyRange_outward]
      · rfl
    simp only [filterMap_append, quiet, append_nil]
    exact sendRaft_outward addr _

theorem handleAppendEntries_outward (fresh : n.state.currentTerm ≤ args.term)
    (addr : args.leaderID ≠ "") :
    (handleAppendEntries n args).2.1.filterMap Effect.outward =
      [.inl ⟨args.leaderID, ⟨n.selfID, args.term,
        .appendResponse (appendReply n.state.log args)⟩⟩] := by
  have answered : ∀ (m : Node) (replyTerm : Nat), m.selfID = n.selfID →
      m.state.log = n.state.log → replyTerm = args.term →
      (takeEntries (stepDown m args.term args.leaderID true) replyTerm args).2.filterMap
          Effect.outward =
        [.inl ⟨args.leaderID, ⟨n.selfID, args.term,
        .appendResponse (appendReply n.state.log args)⟩⟩] := by
    rintro m replyTerm self log rfl
    rw [takeEntries_outward addr]
    simp only [stepDown, self, log]
  unfold handleAppendEntries
  by_cases higher : args.term > n.state.currentTerm
  · simp only [observeTerm, higher, if_true, stepDown, lt_irrefl, if_false, filterMap_append]
    exact answered (stepDown n args.term args.leaderID true) args.term rfl rfl rfl
  · have same : n.state.currentTerm = args.term := by omega
    simp only [observeTerm, if_false, same, lt_irrefl, filterMap_append]
    exact answered n args.term rfl rfl rfl

theorem handleAppendEntries_term (fresh : n.state.currentTerm ≤ args.term) :
    (handleAppendEntries n args).1.state.currentTerm = args.term := by
  rw [handleAppendEntries_fresh fresh]
  cases outcome : appendEntriesFromLeader n.state.log args.prevLogIndex args.prevLogTerm
      args.entries with
  | error conflict =>
    rw [takeEntries_error (by exact outcome)]
    rfl
  | ok log =>
    rw [takeEntries_ok (by exact outcome), adopted_state]
    rfl

/-! ## The leader's reaction -/

theorem advanceCommitIndexLocked_keeps (n : Node) :
    (advanceCommitIndexLocked n).1.state = n.state ∧
      (advanceCommitIndexLocked n).1.role = n.role ∧
      (advanceCommitIndexLocked n).1.nextIndex = n.nextIndex ∧
      (advanceCommitIndexLocked n).2.filterMap Effect.outward = [] := by
  unfold advanceCommitIndexLocked
  split
  case isTrue => exact ⟨rfl, rfl, rfl, rfl⟩
  case isFalse =>
    split
    case h_2 => exact ⟨rfl, rfl, rfl, rfl⟩
    case h_1 index found =>
      obtain ⟨-, short, -⟩ := commitCandidate_some le_rfl found
      rw [applyCommittedLocked_eq (by exact short)]
      exact ⟨rfl, rfl, rfl, applyRange_outward ..⟩

/-- Where the leader goes on after this answer. -/
def nextAfterReply (log : Log) (reply : AppendEntriesReply) : Nat :=
  if reply.success then reply.matchIndex + 1
  else max 1 (if reply.conflictTerm > 0 then
      nextAfterTerm log reply.conflictTerm reply.conflictIndex log.length
    else reply.conflictIndex)

theorem handleAppendResponse_leader {sender : NodeID} {reply : AppendEntriesReply}
    (leader : n.role = .leader) (current : reply.term = n.state.currentTerm) :
    (handleAppendResponse n sender reply).1.state = n.state ∧
      (handleAppendResponse n sender reply).1.role = .leader ∧
      (handleAppendResponse n sender reply).1.nextIndex =
        setKey n.nextIndex sender (nextAfterReply n.state.log reply) ∧
      (handleAppendResponse n sender reply).2.1.filterMap Effect.outward = [] := by
  unfold handleAppendResponse nextAfterReply
  rw [if_neg (by omega), if_neg (not_not.mpr leader)]
  cases success : reply.success with
  | true =>
    simp only [if_true]
    obtain ⟨state, role, next, quiet⟩ := advanceCommitIndexLocked_keeps { n with
      matchIndex := setKey n.matchIndex sender reply.matchIndex
      nextIndex := setKey n.nextIndex sender (reply.matchIndex + 1) }
    grind
  | false => grind

/-! ## Backing up -/

theorem conflictStart_bounds (log : Log) (ct : Nat) : ∀ ci, 1 ≤ ci →
    1 ≤ conflictStart log ct ci ∧ conflictStart log ct ci ≤ ci
  | 0, pos => absurd pos (by omega)
  | 1, _ => ⟨le_rfl, le_rfl⟩
  | ci + 2, _ => by
    rw [conflictStart]
    split
    · split
      · have := conflictStart_bounds log ct (ci + 1) (by omega)
        exact ⟨this.1, by omega⟩
      · exact ⟨by omega, le_rfl⟩
    · exact ⟨by omega, le_rfl⟩

theorem nextAfterTerm_cases (log : Log) (ct default : Nat) : ∀ k,
    nextAfterTerm log ct default k = default ∨
      ∃ i e, log[i]? = some e ∧ e.term = ct ∧ nextAfterTerm log ct default k = i + 2
  | 0 => .inl rfl
  | k + 1 => by
    rw [nextAfterTerm]
    split
    · rename_i e at_k
      split
      · simp [at_k]; omega
      · exact nextAfterTerm_cases log ct default k
    · exact .inl rfl

/-- Two logs attributed to the same owners: where the follower's entry of term `ct`
meets one of another term, every entry of that term in the leader's log lies in
front of it. -/
theorem before_of_conflict {owner : Nat → Log} {F G : Log} {p i : Nat} {a b e : LogEntry}
    (attrF : Attributed LogEntry.term owner F) (attrG : Attributed LogEntry.term owner G)
    (at_F : F[p]? = some a) (at_G : G[p]? = some b) (differ : a.term ≠ b.term)
    (held : G[i]? = some e) (same : e.term = a.term) : i < p := by
  by_contra behind
  -- both logs have the owner's entry at `p`
  have left := attrF p a at_F
  have right := attrG i e held
  rw [same] at right
  have agree : F.take (p + 1) = G.take (p + 1) := by
    have cut := congrArg (List.take (p + 1)) right
    grind
  have entry : F[p]? = G[p]? := by grind [getElem?_take_succ]
  rw [at_F, at_G, Option.some.injEq] at entry
  exact differ (congrArg LogEntry.term entry)

/-- **A rejection moves the leader back**, in front of the rejected position and
not before the first entry. -/
theorem nextAfterReply_lt {owner : Nat → Log} {F G : Log} (attrF : Attributed LogEntry.term owner F)
    (attrG : Attributed LogEntry.term owner G) (slice : Slice G args)
    (rejected : (appendReply F args).success = false) :
    1 ≤ nextAfterReply G (appendReply F args) ∧
      nextAfterReply G (appendReply F args) ≤ args.prevLogIndex := by
  refine ⟨?_, ?_⟩
  · unfold nextAfterReply
    simp [rejected]
  · unfold nextAfterReply
    rw [rejected]
    simp only [Bool.false_eq_true, if_false]
    unfold appendReply appendEntriesFromLeader at rejected ⊢
    by_cases beyond : args.prevLogIndex > F.length
    · grind
    · simp only [beyond, if_false] at rejected ⊢
      by_cases zero : args.prevLogIndex = 0
      · simp [zero] at rejected
      · obtain ⟨p, prev⟩ : ∃ p, args.prevLogIndex = p + 1 := ⟨args.prevLogIndex - 1, by omega⟩
        have lt : p < F.length := by omega
        have at_F := getElem?_eq_getElem lt
        simp only [prev, Nat.add_sub_cancel, at_F, Nat.succ_ne_zero, if_false] at rejected ⊢
        by_cases differ : F[p].term = args.prevLogTerm
        · simp [differ] at rejected
        · simp only [ne_eq, differ, not_false_eq_true, if_true]
          have start := conflictStart_bounds F F[p].term (p + 1) (by omega)
          split
          · rcases nextAfterTerm_cases G F[p].term (conflictStart F F[p].term (p + 1)) G.length with
              none | ⟨i, e, held, same, next⟩
            · omega
            · have short := slice.len
              have at_G := getElem?_eq_getElem (show p < G.length by omega)
              have prevTerm := slice.prev
              rw [prev, termAt_succ at_G, if_neg (Nat.succ_ne_zero p)] at prevTerm
              have := before_of_conflict attrF attrG at_F at_G (prevTerm ▸ differ) held same
              omega
          · omega

/-! ## Rounds -/

/-- A round between the leader `l` and `f`, with whether the follower accepted: the
leader sends, `f` gets the packet addressed to it, the leader gets the answer. -/
def exchange (C : Cluster) (l f : NodeID) (w : World) : Option (World × Bool) :=
  (w.step C (.run l .heartbeat)).bind fun w₁ =>
    (w₁.step C (.run f (.deliver (w.sent.length + (C.peers l).idxOf f)))).bind fun w₂ =>
      (w₂.step C (.run l (.deliver w₁.sent.length))).map fun w₃ =>
        (w₃, (w₂.sent[w₁.sent.length]?.bind (·.msg.body.appendResponse?)).any (·.success))

def rounds (C : Cluster) (l f : NodeID) : Nat → World → Option World
  | 0, w => some w
  | k + 1, w => (exchange C l f w).bind fun r => rounds C l f k r.1

/-- `l` leads, with this log, and `f` is one of its peers and has not reached a
later term. -/
structure Leads (C : Cluster) (l f : NodeID) (G : Log) (w : World) : Prop where
  reached : Reaches (World.step C) (fun _ _ => True) (World.init C) w
  one : w.OneLeaderPerTerm
  member : l ∈ C.ids
  peer : f ∈ C.peers l
  leader : (w.nodes l).role = .leader
  log : (w.nodes l).state.log = G
  behind : (w.nodes f).state.currentTerm ≤ (w.nodes l).state.currentTerm

structure Round (C : Cluster) (l f : NodeID) (G : Log) (w w' : World) (accepted : Bool) : Prop where
  leads : Leads C l f G w'
  taken : accepted = true → G <+: (w'.nodes f).state.log
  kept : accepted = false → (w'.nodes f).state.log = (w.nodes f).state.log
  lowered : accepted = false → 1 ≤ (w'.nodes l).nextIndex f ∧
    (w'.nodes l).nextIndex f < (w.nodes l).nextIndex f

section round

variable {C : Cluster} {l f : NodeID} {G : Log} {w : World}

theorem step_run {w' : World} {i : NodeID} {stimulus : Stimulus} {r : Node × List Effect}
    (member : i ∈ C.ids) (reaction : w.react C i stimulus = some r) (eq : w.settle i r = w') :
    w.step C (.run i stimulus) = some w' := by
  simp [World.step, member, reaction, eq]

theorem react_deliver {i : NodeID} {k : Nat} {msg : RaftMessage}
    (packet : w.sent[k]? = some ⟨i, msg⟩) :
    w.react C i (.deliver k) = some (onMessage (w.nodes i) msg) := by
  simp [World.react, packet]

theorem onMessage_state (n : Node) (msg : RaftMessage) :
    (onMessage n msg).1.state = (dispatchMsg n msg).1.state := by
  unfold onMessage
  simp only
  split <;> rfl

theorem onMessage_outward (n : Node) (msg : RaftMessage) :
    (onMessage n msg).2.filterMap Effect.outward = (dispatchMsg n msg).2.1.filterMap Effect.outward := by
  unfold onMessage
  simp only
  split
  · simp [Effect.outward]
  · rfl

theorem onMessage_leader {n : Node} {msg : RaftMessage} (leader : (dispatchMsg n msg).1.role = .leader) :
    (onMessage n msg).1 = (dispatchMsg n msg).1 := by
  unfold onMessage
  simp [leader]

/-- The two ends of a round: who they are, and that their logs come from the same
leaders. -/
theorem Leads.ends (h : Leads C l f G w) : f ∈ C.ids ∧ f ≠ l ∧ (w.nodes l).selfID = l ∧
    (w.nodes l).peers = C.peers l ∧ 1 ≤ (w.nodes l).nextIndex f ∧ (w.nodes f).selfID = f ∧
      ∃ owner, Attributed LogEntry.term owner G ∧
        Attributed LogEntry.term owner (w.nodes f).state.log := by
  obtain ⟨member, differ⟩ := (C.mem_peers l h.member f).mp h.peer
  obtain ⟨s, steps, refines⟩ := refines_of_reaches (h.reached.mono fun w e _ => Allowed.any w e)
  obtain ⟨-, logs⟩ := logs_of_steps steps (refines.oneLeader.mpr h.one)
  have left := refines.node l h.member
  have right := refines.node f member
  have next := left.next h.leader
  rw [left.peers] at next
  refine ⟨member, differ, left.self, left.peers, next f h.peer, right.self, s.leaderLog, ?_, ?_⟩
  · have attributed := logs.attributed l
    rwa [left.party, ofNode_log, h.log] at attributed
  · have attributed := logs.attributed f
    rwa [right.party, ofNode_log] at attributed

variable {args : AppendEntriesArgs}

theorem Leads.request (h : Leads C l f G w) (eq : (appendEntriesFor (w.nodes l) f).2 = args) :
    args.leaderID = l ∧ args.term = (w.nodes l).state.currentTerm ∧ Slice G args ∧
      args.last = G.length ∧ args.prevLogIndex < (w.nodes l).nextIndex f := by
  obtain ⟨-, -, self, -, next, -⟩ := h.ends
  have built : BuiltFrom G (w.nodes l).state.currentTerm args := by
    grind [appendEntriesFor_builtFrom, log]
  obtain ⟨pos, short, shape⟩ := appendEntriesFor_eq next
  rw [eq, self] at shape
  rw [h.log] at short
  have clamped : (appendEntriesFor (w.nodes l) f).1 ≤ (w.nodes l).nextIndex f := by
    grind [appendEntriesFor]
  have prev : args.prevLogIndex = (appendEntriesFor (w.nodes l) f).1 - 1 := by rw [shape]; rfl
  have entries : args.entries = G.drop args.prevLogIndex := by
    rw [prev, shape, ← h.log]
    rfl
  refine ⟨by rw [shape]; rfl, built.term, built.slice, ?_, by omega⟩
  rw [AppendEntriesArgs.last, entries, length_drop]
  omega

/-- **Acceptance is completion**: a request that reaches to the end of the leader's
log leaves all of it in the follower's. -/
theorem prefix_of_accepted {owner : Nat → Log} {F log : Log}
    (attrF : Attributed LogEntry.term owner F) (attrG : Attributed LogEntry.term owner G)
    (slice : Slice G args) (whole : args.last = G.length)
    (accepted : appendEntriesFromLeader F args.prevLogIndex args.prevLogTerm args.entries =
      .ok log) : G <+: log := by
  have merged := slice.merged (fun _ _ _ at_F at_G => attrF.agree attrG at_F at_G) accepted
  have front := merged.take_eq
  rw [show args.prevLogIndex + args.entries.length = G.length from whole, take_length]
    at front
  exact front ▸ take_prefix _ _

theorem Leads.asked (h : Leads C l f G w) : ∃ w₁, w.step C (.run l .heartbeat) = some w₁ ∧
    w₁.sent[w.sent.length + (C.peers l).idxOf f]? = some ⟨f, ⟨l, (w.nodes l).state.currentTerm,
      .appendEntries (appendEntriesFor (w.nodes l) f).2⟩⟩ ∧
    w₁.elected = w.elected ∧ w₁.nodes f = w.nodes f ∧
    (w₁.nodes l).state = (w.nodes l).state ∧ (w₁.nodes l).role = .leader := by
  obtain ⟨member, differ, self, peers, -⟩ := h.ends
  have addr : ∀ p ∈ (w.nodes l).peers, p ≠ "" := fun p mem =>
    C.ne_of_mem ((C.mem_peers l h.member p).mp (peers ▸ mem)).1
  obtain ⟨sent, elected⟩ := performAll_outward l (sendAppendEntriesToAll (w.nodes l)).2 w.toDurable
  rw [sendAppendEntriesToAll_outward h.leader addr] at sent elected
  refine ⟨_, step_run h.member rfl rfl, ?_, ?_, by simp [World.settle, differ], ?_, ?_⟩
  · have position : (C.peers l)[(C.peers l).idxOf f]? = some f := by grind [peer]
    simp only [World.settle, sent, filterMap_map, peers]
    rw [getElem?_append_right (Nat.le_add_right _ _), Nat.add_sub_cancel_left]
    simp [Function.comp_def, position, self]
  · simp [World.settle, elected, filterMap_map, Function.comp_def]
  · simp [World.settle, sendAppendEntriesToAll, h.leader]
  · simp [World.settle, sendAppendEntriesToAll, h.leader]

theorem answered {w₁ : World} {k term : Nat} (member : f ∈ C.ids) (differ : f ≠ l) (addr : l ≠ "")
    (self : (w₁.nodes f).selfID = f)
    (packet : w₁.sent[k]? = some ⟨f, ⟨l, term, .appendEntries args⟩⟩)
    (fresh : (w₁.nodes f).state.currentTerm ≤ args.term) (leaderID : args.leaderID = l) :
    ∃ w₂, w₁.step C (.run f (.deliver k)) = some w₂ ∧
      w₂.sent = w₁.sent ++ [⟨l, ⟨f, args.term,
        .appendResponse (appendReply (w₁.nodes f).state.log args)⟩⟩] ∧
      w₂.elected = w₁.elected ∧ w₂.nodes l = w₁.nodes l ∧
      (w₂.nodes f).state = (handleAppendEntries (w₁.nodes f) args).1.state := by
  obtain ⟨sent, elected⟩ := performAll_outward f
    (onMessage (w₁.nodes f) ⟨l, term, .appendEntries args⟩).2 w₁.toDurable
  rw [onMessage_outward, dispatchMsg, handleAppendEntries_outward fresh (leaderID ▸ addr),
    leaderID, self] at sent elected
  refine ⟨_, step_run member (react_deliver packet) rfl, sent, ?_, ?_, ?_⟩
  · exact elected.trans (append_nil _)
  · simp [World.settle, differ.symm]
  · simp only [World.settle, if_true]
    exact onMessage_state ..

theorem heard {w₂ : World} {k term : Nat} {reply : AppendEntriesReply} (member : l ∈ C.ids)
    (differ : f ≠ l) (packet : w₂.sent[k]? = some ⟨l, ⟨f, term, .appendResponse reply⟩⟩)
    (leader : (w₂.nodes l).role = .leader)
    (current : reply.term = (w₂.nodes l).state.currentTerm) :
    ∃ w₃, w₂.step C (.run l (.deliver k)) = some w₃ ∧ w₃.elected = w₂.elected ∧
      w₃.nodes f = w₂.nodes f ∧ (w₃.nodes l).state = (w₂.nodes l).state ∧
      (w₃.nodes l).role = .leader ∧
      (w₃.nodes l).nextIndex f = nextAfterReply (w₂.nodes l).state.log reply := by
  obtain ⟨state, role, next, quiet⟩ := @handleAppendResponse_leader _ f _ leader current
  have stays := @onMessage_leader (w₂.nodes l) ⟨f, term, .appendResponse reply⟩ role
  obtain ⟨-, elected⟩ := performAll_outward l
    (onMessage (w₂.nodes l) ⟨f, term, .appendResponse reply⟩).2 w₂.toDurable
  rw [onMessage_outward, dispatchMsg, quiet] at elected
  refine ⟨_, step_run member (react_deliver packet) rfl, ?_, ?_, ?_, ?_, ?_⟩
  · exact elected.trans (append_nil _)
  · simp [World.settle, differ]
  all_goals simp only [World.settle, if_true, stays, dispatchMsg]
  · exact state
  · exact role
  · rw [next]
    simp [setKey]

/-- **A round happens**, and leaves the leader's log in the follower's or the
leader's position lower. -/
theorem Leads.round (h : Leads C l f G w) :
    ∃ w' accepted, exchange C l f w = some (w', accepted) ∧ Round C l f G w w' accepted := by
  obtain ⟨member, differ, self, peers, next, selfF, owner, attrG, attrF⟩ := h.ends
  obtain ⟨w₁, step₁, packet₁, elected₁, nodes₁, state₁, role₁⟩ := h.asked
  generalize request : (appendEntriesFor (w.nodes l) f).2 = args at packet₁
  obtain ⟨leaderID, term, slice, whole, prev⟩ := h.request request
  have fresh : (w.nodes f).state.currentTerm ≤ args.term := term ▸ h.behind
  obtain ⟨w₂, step₂, sent₂, elected₂, nodes₂, state₂⟩ := answered member differ
    (C.ne_of_mem h.member) (by rw [nodes₁, selfF]) packet₁ (by rw [nodes₁]; exact fresh) leaderID
  rw [nodes₁] at sent₂ state₂
  have packet₂ := getElem?_concat_length (l := w₁.sent) (a := (⟨l, ⟨f, args.term,
    .appendResponse (appendReply (w.nodes f).state.log args)⟩⟩ : Packet))
  rw [← sent₂] at packet₂
  obtain ⟨w₃, step₃, elected₃, nodes₃, state₃, role₃, next₃⟩ := heard h.member differ packet₂
    (by rw [nodes₂, role₁]) (by rw [nodes₂, state₁, appendReply_term, term])
  have stateL : (w₃.nodes l).state = (w.nodes l).state := by rw [state₃, nodes₂, state₁]
  rw [nodes₂, state₁, h.log] at next₃
  refine ⟨w₃, (appendReply (w.nodes f).state.log args).success, ?_, ?_, ?_, ?_, ?_⟩
  · simp [exchange, Body.appendResponse?, step₁, step₂, packet₂, step₃]
  · exact {
      reached := ((h.reached.step trivial step₁).step trivial step₂).step trivial step₃
      one := by
        unfold World.OneLeaderPerTerm
        rw [elected₃, elected₂, elected₁]
        exact h.one
      member := h.member
      peer := h.peer
      leader := role₃
      log := by rw [stateL, h.log]
      behind := by rw [nodes₃, state₂, handleAppendEntries_term fresh, stateL, term] }
  · intro accepted
    rw [appendReply_success fresh] at accepted
    rcases handleAppendEntries_log (w.nodes f) args with ⟨-, outcome⟩ | ⟨refused, -⟩
    · grind [prefix_of_accepted]
    grind
  · intro rejected
    rw [appendReply_success fresh] at rejected
    rcases handleAppendEntries_log (w.nodes f) args with ⟨accepted, -⟩ | ⟨-, unchanged⟩
    · grind
    · rw [nodes₃, state₂, unchanged]
  · grind [nextAfterReply_lt]

theorem Round.keeps {w' : World} {accepted : Bool} (round : Round C l f G w w' accepted)
    (held : G <+: (w.nodes f).state.log) : G <+: (w'.nodes f).state.log := by
  cases accepted with
  | true => exact round.taken rfl
  | false =>
    rw [round.kept rfl]
    exact held

theorem Leads.rounds : ∀ (k : Nat) {w : World}, Leads C l f G w →
    ∃ w', rounds C l f k w = some w' ∧ Leads C l f G w' ∧
      (G <+: (w.nodes f).state.log → G <+: (w'.nodes f).state.log)
  | 0, w, h => ⟨w, rfl, h, id⟩
  | k + 1, w, h => by
    obtain ⟨w₁, accepted, once, round⟩ := h.round
    obtain ⟨w', more, leads, keeps⟩ := Leads.rounds k round.leads
    grind [rounds, Round.keeps]

/-- The position is the measure: each round accepts or lowers it. -/
theorem Leads.completes : ∀ (k : Nat) {w : World}, Leads C l f G w →
    (w.nodes l).nextIndex f ≤ k →
    ∃ w', Raft.rounds C l f k w = some w' ∧ G <+: (w'.nodes f).state.log
  | 0, w, h, spent => by
    obtain ⟨-, -, -, -, next, -⟩ := h.ends
    omega
  | k + 1, w, h, enough => by
    obtain ⟨w₁, accepted, once, round⟩ := h.round
    cases accepted with
    | true =>
      obtain ⟨w', more, -, keeps⟩ := Leads.rounds k round.leads
      grind [Raft.rounds, Round.taken]
    | false =>
      obtain ⟨-, lower⟩ := round.lowered rfl
      obtain ⟨w', more, held⟩ := Leads.completes k round.leads (by omega)
      simp [Raft.rounds, once, more, held]

end round

/-! ## Catching up -/

/-- **Log catch-up.**  From every state of a run without a second leader in a term,
a leader and a follower of no later term can repeat the round for ever.  Every
rejection lowers the leader's position, which stays at least one, and after as many
rounds as that position the leader's whole log is at the front of the follower's. -/
theorem logCatchUp {C : Cluster} {w : World} {l f : NodeID}
    (reached : Reaches (World.step C) (fun _ _ => True) (World.init C) w)
    (one : w.OneLeaderPerTerm) (hl : l ∈ C.ids) (hf : f ∈ C.ids) (differ : f ≠ l)
    (leader : (w.nodes l).role = .leader)
    (behind : (w.nodes f).state.currentTerm ≤ (w.nodes l).state.currentTerm) (k : Nat) :
    ∃ w', rounds C l f k w = some w' ∧
      (w'.nodes l).role = .leader ∧ (w'.nodes l).state.log = (w.nodes l).state.log ∧
      (∀ w'' accepted, exchange C l f w' = some (w'', accepted) → accepted = false →
        1 ≤ (w''.nodes l).nextIndex f ∧
          (w''.nodes l).nextIndex f < (w'.nodes l).nextIndex f) ∧
      ((w.nodes l).nextIndex f ≤ k → (w.nodes l).state.log <+: (w'.nodes f).state.log) := by
  have leads : Leads C l f (w.nodes l).state.log w :=
    ⟨reached, one, hl, (C.mem_peers l hl f).mpr ⟨hf, differ⟩, leader, rfl, behind⟩
  obtain ⟨w', run, leads', -⟩ := leads.rounds k
  refine ⟨w', run, leads'.leader, leads'.log, ?_, fun enough => ?_⟩
  · grind [Leads.round, Round.lowered]
  · grind [Leads.completes]

/-- Node `c` has missed `a`'s command, which `b` holds when it is elected in term 2. -/
def missedCommand : List Event :=
  oneCommand ++ [.run "b" .timeout, .run "a" (.deliver 8), .run "b" (.deliver 10)]

theorem logCatchUp_missedCommand : ∃ w,
    Reaches (World.step trio) (fun _ _ => True) (World.init trio) w ∧ w.OneLeaderPerTerm ∧
      (w.nodes "b").role = .leader ∧ (w.nodes "c").state.log = [] ∧
      ∃ w', rounds trio "b" "c" 2 w = some w' ∧ [⟨1, 1, [1]⟩] <+: (w'.nodes "c").state.log := by
  refine Reaches.exists_run_of (P := fun w => (w.elected.map Prod.snd).Nodup ∧
    (w.nodes "b").role = .leader ∧ (w.nodes "b").state.log = [⟨1, 1, [1]⟩] ∧
    (w.nodes "c").state.log = [] ∧
    (w.nodes "c").state.currentTerm ≤ (w.nodes "b").state.currentTerm ∧
    (w.nodes "b").nextIndex "c" = 2) missedCommand (by decide +kernel) ?_
  rintro w reached ⟨elected, leader, log_b, log_c, terms, next⟩
  have one := oneLeader_of_nodup elected
  obtain ⟨w', rounds, -, -, -, held⟩ := logCatchUp reached one (l := "b") (f := "c") (by decide)
    (by decide) (by decide) leader terms 2
  exact ⟨one, leader, log_c, w', rounds, log_b ▸ held (by rw [next])⟩

end PubsubBroker.Raft
