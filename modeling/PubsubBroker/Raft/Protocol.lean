/-
# Raft.Protocol — the protocol as guarded moves

What the nodes of `Raft.Node` do, cut into atomic moves on an abstract state.
A party is the part of a node that safety depends on; the messages are those
that carry information (a refused vote or a rejected append carries none).

Two ghost components make the invariants statable: `elected` keeps the log each
leader started with, and `leaderLog t` is the log of the leader of term `t`, as
long as it grows.

The moves follow the code, not the textbook protocol: `dropVote` forgets the
vote at an unchanged term, `ack` reports the whole length of the follower's log,
and `countMatch` counts a reply of any term up to the leader's own.
-/
import PubsubBroker.Raft.Cluster
import Mathlib.Logic.Function.Basic

namespace PubsubBroker.Raft

open Theory

/-! ## State -/

inductive Msg where
  | request (c v : NodeID) (term lastIndex lastTerm : Nat)
  | grant (v c : NodeID) (term : Nat)
  | append (v : NodeID) (args : AppendEntriesArgs)
  | ack (v c : NodeID) (term matchIndex : Nat)

namespace Msg

def sender : Msg → NodeID
  | .request c _ _ _ _ => c
  | .grant v _ _ => v
  | .append _ args => args.leaderID
  | .ack v _ _ _ => v

def dest : Msg → NodeID
  | .request _ v _ _ _ => v
  | .grant _ c _ => c
  | .append v _ => v
  | .ack _ c _ _ => c

def term : Msg → Nat
  | .request _ _ t _ _ => t
  | .grant _ _ t => t
  | .append _ args => args.term
  | .ack _ _ t _ => t

def body : Msg → Body
  | .request c _ t lastIndex lastTerm => .requestVote ⟨t, c, lastIndex, lastTerm⟩
  | .grant _ _ t => .voteResponse ⟨t, true⟩
  | .append _ args => .appendEntries args
  | .ack _ _ t matchIndex => .appendResponse ⟨t, true, matchIndex, 0, 0⟩

def packet (m : Msg) : Packet := ⟨m.dest, ⟨m.sender, m.term, m.body⟩⟩

end Msg

structure Party where
  term : Nat
  votedFor : NodeID
  log : Log
  role : Role
  /-- The votes counted by a candidate. -/
  votes : List NodeID
  /-- The match indexes of a leader. -/
  matchIndex : NodeID → Nat
  commitIndex : Nat

namespace Party

/-- Follow in term `t` with no vote recorded. -/
def follow (p : Party) (t : Nat) : Party :=
  { p with term := t, votedFor := "", role := .follower, votes := [], matchIndex := fun _ => 0 }

def persistent (p : Party) : PersistentState := ⟨p.term, p.votedFor, p.log⟩

/-- The party a node's memory stands for.  Counted votes matter to a candidate
only and match indexes to a leader only. -/
def ofNode (n : Node) : Party where
  term := n.state.currentTerm
  votedFor := n.state.votedFor
  log := n.state.log
  role := n.role
  votes := if n.role = .candidate then n.voteGranted else []
  matchIndex := fun p => if n.role = .leader ∧ p ∈ n.peers then n.matchIndex p else 0
  commitIndex := n.commitIndex

end Party

structure Election where
  leader : NodeID
  term : Nat
  /-- The leader's log when it was elected. -/
  log : Log

structure Proto where
  party : NodeID → Party
  msgs : List Msg
  elected : List Election
  leaderLog : Nat → Log
  applied : List (NodeID × Nat × LogEntry)

def Party.initial : Party := ⟨0, "", [], .follower, [], fun _ => 0, 0⟩

def Proto.initial : Proto := ⟨fun _ => .initial, [], [], fun _ => [], []⟩

/-! ## Moves -/

inductive Move where
  | raiseTerm (i : NodeID) (t : Nat)
  | dropVote (i : NodeID) (args : AppendEntriesArgs)
  | campaign (i : NodeID)
  | askVote (i v : NodeID)
  | vote (i c : NodeID) (lastIndex lastTerm : Nat)
  | sendGrant (i c : NodeID) (lastIndex lastTerm : Nat)
  | countVote (i v : NodeID)
  | win (i : NodeID)
  | accept (i : NodeID) (args : AppendEntriesArgs) (log : Log)
  | sendAck (i : NodeID) (args : AppendEntriesArgs)
  | learnCommit (i : NodeID) (args : AppendEntriesArgs)
  | apply (i : NodeID) (index : Nat) (entry : LogEntry)
  | countMatch (i v : NodeID) (t matchIndex : Nat)
  | commit (i : NodeID) (index : Nat)
  | propose (i : NodeID) (cmd : Bytes)
  | sendAppend (i v : NodeID) (prev : Nat)
  | restart (i : NodeID)

def Move.actor : Move → NodeID
  | .raiseTerm i _ | .dropVote i _ | .campaign i | .askVote i _ | .vote i _ _ _
  | .sendGrant i _ _ _ | .countVote i _ | .win i | .accept i _ _ | .sendAck i _
  | .learnCommit i _ | .apply i _ _ | .countMatch i _ _ _ | .commit i _ | .propose i _
  | .sendAppend i _ _ | .restart i => i

/-- The term of the entry at 1-based position `k`, `0` before the first. -/
def termAt (log : Log) (k : Nat) : Nat :=
  if k = 0 then 0 else (log[k - 1]?.map (·.term)).getD 0

/-- The log agrees with the request on the term of the previous entry and on
the terms of all the entries sent. -/
structure Contains (log : Log) (args : AppendEntriesArgs) : Prop where
  len : args.prevLogIndex + args.entries.length ≤ log.length
  prev : termAt log args.prevLogIndex = if args.prevLogIndex = 0 then 0 else args.prevLogTerm
  terms : ∀ k < args.entries.length,
    termAt log (args.prevLogIndex + k + 1) = termAt args.entries (k + 1)

/-- A log whose last entry is `(lastTerm, lastIndex)` is at least as up to date
as `log`. -/
def UpToDate (lastIndex lastTerm : Nat) (log : Log) : Prop :=
  logUpToDate ⟨0, "", lastIndex, lastTerm⟩ log = true

/-- The request a leader with this log sends from `prev` on. -/
def appendArgs (i : NodeID) (p : Party) (prev : Nat) : AppendEntriesArgs where
  term := p.term
  leaderID := i
  prevLogIndex := prev
  prevLogTerm := termAt p.log prev
  entries := p.log.drop prev
  leaderCommit := p.commitIndex

namespace Cluster

variable (C : Cluster)

def quorum : Nat := C.ids.length / 2 + 1

/-- The leader and the peers whose match index has reached `index`. -/
def matched (i : NodeID) (p : Party) (index : Nat) : List NodeID :=
  i :: (C.peers i).filter fun v => decide (index ≤ p.matchIndex v)

def Enabled (s : Proto) : Move → Prop
  | .raiseTerm i t => i ∈ C.ids ∧ (s.party i).term < t
  | .dropVote i args =>
    i ∈ C.ids ∧ .append i args ∈ s.msgs ∧ args.term = (s.party i).term
  | .campaign i => i ∈ C.ids ∧ (s.party i).role ≠ .leader
  | .askVote i v => i ∈ C.ids ∧ v ∈ C.peers i ∧ (s.party i).role = .candidate
  | .vote i c lastIndex lastTerm =>
    i ∈ C.ids ∧ .request c i (s.party i).term lastIndex lastTerm ∈ s.msgs ∧
      ((s.party i).votedFor = "" ∨ (s.party i).votedFor = c) ∧
      UpToDate lastIndex lastTerm (s.party i).log
  | .sendGrant i c lastIndex lastTerm =>
    i ∈ C.ids ∧ .request c i (s.party i).term lastIndex lastTerm ∈ s.msgs ∧
      (s.party i).votedFor = c ∧ UpToDate lastIndex lastTerm (s.party i).log
  | .countVote i v =>
    i ∈ C.ids ∧ (s.party i).role = .candidate ∧ .grant v i (s.party i).term ∈ s.msgs
  | .win i =>
    i ∈ C.ids ∧ (s.party i).role = .candidate ∧ C.quorum ≤ (s.party i).votes.length
  | .accept i args log =>
    i ∈ C.ids ∧ (s.party i).role = .follower ∧ .append i args ∈ s.msgs ∧
      args.term = (s.party i).term ∧
      appendEntriesFromLeader (s.party i).log args.prevLogIndex args.prevLogTerm args.entries =
        .ok log
  | .sendAck i args | .learnCommit i args =>
    i ∈ C.ids ∧ .append i args ∈ s.msgs ∧ args.term = (s.party i).term ∧
      Contains (s.party i).log args
  | .apply i index entry =>
    i ∈ C.ids ∧ index < (s.party i).commitIndex ∧ (s.party i).log[index]? = some entry
  | .countMatch i v t matchIndex =>
    i ∈ C.ids ∧ (s.party i).role = .leader ∧ .ack v i t matchIndex ∈ s.msgs ∧
      t ≤ (s.party i).term
  | .commit i index =>
    i ∈ C.ids ∧ (s.party i).role = .leader ∧ index ≠ 0 ∧ index ≤ (s.party i).log.length ∧
      termAt (s.party i).log index = (s.party i).term ∧
      C.quorum ≤ (C.matched i (s.party i) index).length
  | .propose i _ => i ∈ C.ids ∧ (s.party i).role = .leader
  | .sendAppend i v prev =>
    i ∈ C.ids ∧ v ∈ C.peers i ∧ (s.party i).role = .leader ∧ prev ≤ (s.party i).log.length
  | .restart i => i ∈ C.ids

end Cluster

namespace Proto

def setParty (s : Proto) (i : NodeID) (p : Party) : Proto :=
  { s with party := Function.update s.party i p }

def post (s : Proto) (m : Msg) : Proto := { s with msgs := m :: s.msgs }

def setLeaderLog (s : Proto) (t : Nat) (log : Log) : Proto :=
  { s with leaderLog := Function.update s.leaderLog t log }

def addElection (s : Proto) (e : Election) : Proto := { s with elected := e :: s.elected }

def move (s : Proto) : Move → Proto
  | .raiseTerm i t => s.setParty i ((s.party i).follow t)
  | .dropVote i _ => s.setParty i ((s.party i).follow (s.party i).term)
  | .campaign i =>
    s.setParty i { s.party i with
      term := (s.party i).term + 1
      votedFor := i
      role := .candidate
      votes := [i]
      matchIndex := fun _ => 0 }
  | .askVote i v =>
    s.post (.request i v (s.party i).term (s.party i).log.length (lastTerm (s.party i).log))
  | .vote i c _ _ => s.setParty i { s.party i with votedFor := c }
  | .sendGrant i c _ _ => s.post (.grant i c (s.party i).term)
  | .countVote i v => s.setParty i { s.party i with votes := (s.party i).votes.insert v }
  | .win i =>
    ((s.setParty i { s.party i with
        role := .leader, votes := [], matchIndex := fun _ => 0 }).addElection
      ⟨i, (s.party i).term, (s.party i).log⟩).setLeaderLog (s.party i).term (s.party i).log
  | .accept i _ log => s.setParty i { s.party i with log := log }
  | .sendAck i args =>
    s.post (.ack i args.leaderID (s.party i).term (s.party i).log.length)
  | .learnCommit i args =>
    s.setParty i { s.party i with
      commitIndex := min args.leaderCommit (s.party i).log.length }
  | .apply i index entry => { s with applied := (i, index + 1, entry) :: s.applied }
  | .countMatch i v _ matchIndex =>
    s.setParty i { s.party i with
      matchIndex := Function.update (s.party i).matchIndex v matchIndex }
  | .commit i index => s.setParty i { s.party i with commitIndex := index }
  | .propose i cmd =>
    let log := (s.party i).log ++ [⟨(s.party i).term, (s.party i).log.length + 1, cmd⟩]
    (s.setParty i { s.party i with log := log }).setLeaderLog (s.party i).term log
  | .sendAppend i v prev => s.post (.append v (appendArgs i (s.party i) prev))
  | .restart i =>
    s.setParty i { s.party i with
      role := .follower, votes := [], matchIndex := fun _ => 0, commitIndex := 0 }

/-- No term has two leaders. -/
def OneLeaderPerTerm (s : Proto) : Prop :=
  ∀ e ∈ s.elected, ∀ e' ∈ s.elected, e.term = e'.term → e.leader = e'.leader

end Proto

def protocol (C : Cluster) : Guarded Proto Move where
  enabled := C.Enabled
  apply := Proto.move

/-! ## What a move touches -/

namespace Proto

section frame

variable (s : Proto) (i : NodeID) (p : Party) (msg : Msg) (t : Nat) (log : Log) (e : Election)

@[simp] theorem setParty_party : (s.setParty i p).party = Function.update s.party i p := rfl
@[simp] theorem setParty_msgs : (s.setParty i p).msgs = s.msgs := rfl
@[simp] theorem setParty_elected : (s.setParty i p).elected = s.elected := rfl
@[simp] theorem setParty_leaderLog : (s.setParty i p).leaderLog = s.leaderLog := rfl
@[simp] theorem setParty_applied : (s.setParty i p).applied = s.applied := rfl
@[simp] theorem post_party : (s.post msg).party = s.party := rfl
@[simp] theorem post_msgs : (s.post msg).msgs = msg :: s.msgs := rfl
@[simp] theorem post_elected : (s.post msg).elected = s.elected := rfl
@[simp] theorem post_leaderLog : (s.post msg).leaderLog = s.leaderLog := rfl
@[simp] theorem post_applied : (s.post msg).applied = s.applied := rfl
@[simp] theorem setLeaderLog_party : (s.setLeaderLog t log).party = s.party := rfl
@[simp] theorem setLeaderLog_msgs : (s.setLeaderLog t log).msgs = s.msgs := rfl
@[simp] theorem setLeaderLog_elected : (s.setLeaderLog t log).elected = s.elected := rfl
@[simp] theorem setLeaderLog_leaderLog :
    (s.setLeaderLog t log).leaderLog = Function.update s.leaderLog t log := rfl
@[simp] theorem setLeaderLog_applied : (s.setLeaderLog t log).applied = s.applied := rfl
@[simp] theorem addElection_party : (s.addElection e).party = s.party := rfl
@[simp] theorem addElection_msgs : (s.addElection e).msgs = s.msgs := rfl
@[simp] theorem addElection_elected : (s.addElection e).elected = e :: s.elected := rfl
@[simp] theorem addElection_leaderLog : (s.addElection e).leaderLog = s.leaderLog := rfl
@[simp] theorem addElection_applied : (s.addElection e).applied = s.applied := rfl

end frame

def sends (s : Proto) : Move → Option Msg
  | .askVote i v =>
    some (.request i v (s.party i).term (s.party i).log.length (lastTerm (s.party i).log))
  | .sendGrant i c _ _ => some (.grant i c (s.party i).term)
  | .sendAck i args => some (.ack i args.leaderID (s.party i).term (s.party i).log.length)
  | .sendAppend i v prev => some (.append v (appendArgs i (s.party i) prev))
  | _ => none

def elects (s : Proto) : Move → Option Election
  | .win i => some ⟨i, (s.party i).term, (s.party i).log⟩
  | _ => none

theorem move_msgs (s : Proto) (m : Move) : (s.move m).msgs = (s.sends m).toList ++ s.msgs := by
  cases m <;> rfl

theorem move_elected (s : Proto) (m : Move) :
    (s.move m).elected = (s.elects m).toList ++ s.elected := by
  cases m <;> rfl

theorem mem_msgs_move {s : Proto} {m : Move} {msg : Msg} :
    msg ∈ (s.move m).msgs ↔ s.sends m = some msg ∨ msg ∈ s.msgs := by
  simp [move_msgs]

theorem mem_elected_move {s : Proto} {m : Move} {e : Election} :
    e ∈ (s.move m).elected ↔ s.elects m = some e ∨ e ∈ s.elected := by
  simp [move_elected]

theorem move_party_of_ne (s : Proto) (m : Move) {j : NodeID} (other : j ≠ m.actor) :
    (s.move m).party j = s.party j := by
  cases m <;> simp_all [move, Move.actor]

theorem OneLeaderPerTerm.of_move {s : Proto} {m : Move} (one : (s.move m).OneLeaderPerTerm) :
    s.OneLeaderPerTerm :=
  fun e he e' he' => one e (mem_elected_move.mpr (.inr he)) e' (mem_elected_move.mpr (.inr he'))

end Proto

theorem term_le_move {C : Cluster} {s : Proto} {m : Move} (enabled : C.Enabled s m) (j : NodeID) :
    (s.party j).term ≤ ((s.move m).party j).term := by
  by_cases other : j = m.actor
  · subst other
    cases m
    case raiseTerm i t => simpa [Proto.move, Move.actor, Party.follow] using enabled.2.le
    all_goals simp [Proto.move, Move.actor, Party.follow]
  · rw [s.move_party_of_ne m other]

/-! ## Side conditions -/

/-- A node without a recorded vote has not granted one to another candidate in
the same term. -/
def VoteOnce (s : Proto) : Move → Prop
  | .vote i c _ _ =>
    (s.party i).votedFor = "" → ∀ c', .grant i c' (s.party i).term ∈ s.msgs → c' = c
  | _ => True

/-- An acknowledged log is no longer than what the request covers, or ends in
the leader's own term; and a leader only counts a reply of its own term, or one
that covers no entry of its term. -/
def SoundReplies (s : Proto) : Move → Prop
  | .sendAck i args =>
    (s.party i).log.length ≤ args.prevLogIndex + args.entries.length ∨
      lastTerm (s.party i).log = args.term
  | .countMatch i _ t matchIndex =>
    t = (s.party i).term ∨
      matchIndex ≤ (s.party i).log.length ∧
        ∀ e ∈ (s.party i).log.take matchIndex, e.term ≠ (s.party i).term
  | _ => True

/-- The side conditions in force: each is asked for or not. -/
def Policy (voteOnce soundReplies : Prop) (s : Proto) (m : Move) : Prop :=
  (voteOnce → VoteOnce s m) ∧ (soundReplies → SoundReplies s m)

end PubsubBroker.Raft
