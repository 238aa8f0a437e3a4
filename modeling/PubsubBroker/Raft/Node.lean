/-
# Raft.Node — one Raft node: state, log helpers and message handlers

`internal/cluster/raft`.  A handler takes the node and a decoded message and
returns the node it leaves behind together with the list of effects it had on
the outside, in the order the code has them: every `Save`, every `SendRaft`,
every applied entry, every signal to a waiting proposer.  A crash in the middle
of a handler is then a prefix of that list (`Raft.Cluster`).

The wire encoding is JSON on both sides and is not modelled: a message carries
its decoded body.  Terms and indexes are natural numbers; the one subtraction
that can wrap in the source (`nextIdx - 1`) wraps here too.  Addresses are node
identifiers (`peerAddr` without an address map).
-/
import PubsubBroker.Theory.Bytes

namespace PubsubBroker.Raft

open Theory

/-- `""` is the absent node. -/
abbrev NodeID := String

inductive Role where
  | follower
  | candidate
  | leader
deriving DecidableEq

structure LogEntry where
  term : Nat
  /-- 1-based position in the log. -/
  index : Nat
  command : Bytes
deriving DecidableEq

abbrev Log := List LogEntry

/-- The state that survives a restart.  `votedFor = ""` means no vote was cast
in the current term. -/
structure PersistentState where
  currentTerm : Nat
  votedFor : NodeID
  log : Log

/-- What `Load` returns when nothing was ever saved. -/
def PersistentState.zero : PersistentState := ⟨0, "", []⟩

/-! ## Messages -/

structure RequestVoteArgs where
  term : Nat
  candidateID : NodeID
  lastLogIndex : Nat
  lastLogTerm : Nat
deriving DecidableEq

structure RequestVoteReply where
  term : Nat
  voteGranted : Bool
deriving DecidableEq

structure AppendEntriesArgs where
  term : Nat
  leaderID : NodeID
  prevLogIndex : Nat
  prevLogTerm : Nat
  entries : List LogEntry
  leaderCommit : Nat
deriving DecidableEq

structure AppendEntriesReply where
  term : Nat
  success : Bool
  matchIndex : Nat
  conflictIndex : Nat
  conflictTerm : Nat
deriving DecidableEq

inductive Body where
  | requestVote (args : RequestVoteArgs)
  | voteResponse (reply : RequestVoteReply)
  | appendEntries (args : AppendEntriesArgs)
  | appendResponse (reply : AppendEntriesReply)
deriving DecidableEq

namespace Body

def requestVote? : Body → Option RequestVoteArgs
  | .requestVote args => some args
  | _ => none

def appendEntries? : Body → Option AppendEntriesArgs
  | .appendEntries args => some args
  | _ => none

def appendResponse? : Body → Option AppendEntriesReply
  | .appendResponse reply => some reply
  | _ => none

end Body

structure RaftMessage where
  sender : NodeID
  term : Nat
  body : Body
deriving DecidableEq

/-! ## Node and effects -/

structure Node where
  selfID : NodeID
  peers : List NodeID
  state : PersistentState
  role : Role
  commitIndex : Nat
  lastApplied : Nat
  leaderID : NodeID
  leaderKnown : Bool
  nextIndex : NodeID → Nat
  matchIndex : NodeID → Nat
  voteGranted : List NodeID
  /-- Waiting `Propose` calls: log index and the caller's ticket. -/
  proposals : List (Nat × Nat)

/-- An effect of a handler on the world outside the node's memory. -/
inductive Effect where
  | save (state : PersistentState)
  | send (addr : NodeID) (msg : RaftMessage)
  | becameLeader (term : Nat)
  | apply (index : Nat) (entry : LogEntry)
  | signal (ticket : Nat)
  | close (ticket : Nat)

/-- `NewNode`. -/
def newNode (selfID : NodeID) (peers : List NodeID) : Node where
  selfID := selfID
  peers := peers
  state := .zero
  role := .follower
  commitIndex := 0
  lastApplied := 0
  leaderID := ""
  leaderKnown := false
  nextIndex := fun _ => 0
  matchIndex := fun _ => 0
  voteGranted := []
  proposals := []

def persistLocked (n : Node) : List Effect := [.save n.state]

def peerAddr (peerID : NodeID) : NodeID := peerID

/-- Send unless the peer has no address. -/
def sendRaft (peer : NodeID) (msg : RaftMessage) : List Effect :=
  if peerAddr peer ≠ "" then [.send (peerAddr peer) msg] else []

def quorum (n : Node) : Nat := (n.peers.length + 1) / 2 + 1

/-- Assignment to a Go map entry. -/
def setKey (m : NodeID → Nat) (key : NodeID) (value : Nat) : NodeID → Nat :=
  fun k => if k = key then value else m k

/-! ## Log helpers (log.go) -/

def lastTerm (log : Log) : Nat :=
  match log.getLast? with
  | none => 0
  | some last => last.term

def lastLogIndexAndTermLocked (log : Log) : Nat × Nat :=
  match log.getLast? with
  | none => (0, 0)
  | some last => (last.index, last.term)

/-- The first index of the run of entries of term `ct` that ends at `ci`. -/
def conflictStart (log : Log) (ct : Nat) : Nat → Nat
  | 0 => 0
  | 1 => 1
  | ci + 2 =>
    match log[ci]? with
    | some e => if e.term = ct then conflictStart log ct (ci + 1) else ci + 2
    | none => ci + 2

/-- The loop over the new entries: `idx` is the log position of the next one. -/
def mergeEntries (log : Log) : Nat → List LogEntry → Log
  | _, [] => log
  | idx, newEntry :: rest =>
    if idx > log.length then log ++ (newEntry :: rest)
    else
      match log[idx - 1]? with
      | some existing =>
        if existing.term ≠ newEntry.term then log.take (idx - 1) ++ (newEntry :: rest)
        else mergeEntries log (idx + 1) rest
      | none => log

/-- The new log, or the conflict index and term of a rejection. -/
def appendEntriesFromLeader (log : Log) (prevIndex prevTerm : Nat) (entries : List LogEntry) :
    Except (Nat × Nat) Log :=
  if prevIndex > log.length then .error (log.length + 1, 0)
  else if prevIndex = 0 then .ok (mergeEntries log 1 entries)
  else
    match log[prevIndex - 1]? with
    | some entry =>
      if entry.term ≠ prevTerm then
        .error (conflictStart log entry.term prevIndex, entry.term)
      else .ok (mergeEntries log (prevIndex + 1) entries)
    | none => .error (log.length + 1, 0)

/-! ## Committing (replication.go) -/

def applyLoop : Nat → Node → Node × List Effect
  | 0, n => (n, [])
  | k + 1, n =>
    let n := { n with lastApplied := n.lastApplied + 1 }
    match n.state.log[n.lastApplied - 1]? with
    | none => (n, [])
    | some entry =>
      let waiting := n.proposals.filter (·.1 = n.lastApplied)
      let n' := { n with proposals := n.proposals.filter (·.1 ≠ n.lastApplied) }
      let later := applyLoop k n'
      (later.1, .apply n.lastApplied entry :: waiting.map (.signal ·.2) ++ later.2)

def applyCommittedLocked (n : Node) : Node × List Effect :=
  applyLoop (n.commitIndex - n.lastApplied) n

/-- The leader itself and every peer whose match index has reached `idx`. -/
def replicated (n : Node) (idx : Nat) : Nat :=
  1 + (n.peers.filter fun peer => decide (n.matchIndex peer ≥ idx)).length

/-- The highest index above the commit index, from `idx` down, that holds an
entry of the current term on a quorum. -/
def commitCandidate (n : Node) : Nat → Option Nat
  | 0 => none
  | idx + 1 =>
    if idx + 1 > n.commitIndex then
      match n.state.log[idx]? with
      | some e =>
        if e.term = n.state.currentTerm ∧ replicated n (idx + 1) ≥ quorum n then some (idx + 1)
        else commitCandidate n idx
      | none => none
    else none

def advanceCommitIndexLocked (n : Node) : Node × List Effect :=
  if n.role ≠ .leader then (n, [])
  else
    match commitCandidate n n.state.log.length with
    | some idx => applyCommittedLocked { n with commitIndex := idx }
    | none => (n, [])

/-! ## Sending AppendEntries (replication.go) -/

/-- The request for one peer and the clamped `nextIndex` entry. -/
def appendEntriesFor (n : Node) (peer : NodeID) : Nat × AppendEntriesArgs :=
  let logLen := n.state.log.length
  let nextIdx := if n.nextIndex peer > logLen then logLen + 1 else n.nextIndex peer
  let prevIdx := if nextIdx = 0 then 2 ^ 64 - 1 else nextIdx - 1
  let prevTerm :=
    if prevIdx > 0 ∧ prevIdx ≤ logLen then (n.state.log[prevIdx - 1]?.map (·.term)).getD 0 else 0
  let entries := if nextIdx ≤ logLen ∧ nextIdx ≥ 1 then n.state.log.drop (nextIdx - 1) else []
  (nextIdx,
    { term := n.state.currentTerm
      leaderID := n.selfID
      prevLogIndex := prevIdx
      prevLogTerm := prevTerm
      entries := entries
      leaderCommit := n.commitIndex })

def sendAppendEntriesToAll (n : Node) : Node × List Effect :=
  if n.role ≠ .leader then (n, [])
  else
    ({ n with
        nextIndex := fun p => if p ∈ n.peers then (appendEntriesFor n p).1 else n.nextIndex p },
      n.peers.flatMap fun peer =>
        sendRaft peer ⟨n.selfID, n.state.currentTerm, .appendEntries (appendEntriesFor n peer).2⟩)

/-! ## Elections (election.go) -/

def becomeLeaderLocked (n : Node) : Node × List Effect :=
  let lastIdx := n.state.log.length
  ({ n with
      role := .leader
      leaderID := n.selfID
      leaderKnown := true
      nextIndex := fun p => if p ∈ n.peers then lastIdx + 1 else n.nextIndex p
      matchIndex := fun p => if p ∈ n.peers then 0 else n.matchIndex p },
    [.becameLeader n.state.currentTerm])

/-- The assignments of an election timeout. -/
def becomeCandidate (n : Node) : Node :=
  { n with
    state := { n.state with currentTerm := n.state.currentTerm + 1, votedFor := n.selfID }
    role := .candidate
    leaderID := ""
    leaderKnown := false
    voteGranted := [n.selfID] }

def handleElectionTimeout (n : Node) : Node × List Effect :=
  if n.role = .leader then (n, [])
  else
    let n := becomeCandidate n
    if n.peers = [] then
      let elected := becomeLeaderLocked n
      (elected.1, persistLocked n ++ elected.2)
    else
      let args : RequestVoteArgs :=
        { term := n.state.currentTerm
          candidateID := n.selfID
          lastLogIndex := n.state.log.length
          lastLogTerm := lastTerm n.state.log }
      (n, persistLocked n ++ n.peers.flatMap fun peer =>
        sendRaft peer ⟨n.selfID, n.state.currentTerm, .requestVote args⟩)

/-- The common reaction to a higher term: adopt it, forget the vote, follow. -/
def stepDown (n : Node) (term : Nat) (leaderID : NodeID) (leaderKnown : Bool) : Node :=
  { n with
    state := { n.state with currentTerm := term, votedFor := "" }
    role := .follower
    leaderID := leaderID
    leaderKnown := leaderKnown }

/-- `stepDown` and persist, when the message's term is higher. -/
def observeTerm (n : Node) (term : Nat) (leaderID : NodeID) (leaderKnown : Bool) :
    Node × List Effect :=
  if term > n.state.currentTerm then
    let n := stepDown n term leaderID leaderKnown
    (n, persistLocked n)
  else (n, [])

def logUpToDate (args : RequestVoteArgs) (log : Log) : Bool :=
  let last := lastLogIndexAndTermLocked log
  decide (args.lastLogTerm > last.2) ||
    (decide (args.lastLogTerm = last.2) && decide (args.lastLogIndex ≥ last.1))

/-- The nested conditions under which `handleRequestVote` grants its vote. -/
def grantsVote (n : Node) (args : RequestVoteArgs) : Bool :=
  decide (args.term ≥ n.state.currentTerm) &&
    (decide (n.state.votedFor = "") || decide (n.state.votedFor = args.candidateID)) &&
    logUpToDate args n.state.log

def handleRequestVote (n : Node) (args : RequestVoteArgs) : Node × List Effect × Bool :=
  let observed := observeTerm n args.term "" false
  let n := observed.1
  let granted := grantsVote n args
  let voted :=
    if granted then
      let n := { n with state := { n.state with votedFor := args.candidateID } }
      (n, persistLocked n)
    else (n, [])
  let reply : RequestVoteReply := { term := n.state.currentTerm, voteGranted := granted }
  let n := voted.1
  (n, observed.2 ++ voted.2 ++
      sendRaft args.candidateID ⟨n.selfID, n.state.currentTerm, .voteResponse reply⟩,
    reply.voteGranted || decide (reply.term > n.state.currentTerm))

def handleVoteResponse (n : Node) (sender : NodeID) (reply : RequestVoteReply) :
    Node × List Effect × Bool :=
  if reply.term > n.state.currentTerm then
    let n := stepDown n reply.term "" false
    (n, persistLocked n, true)
  else if n.role ≠ .candidate ∨ reply.term ≠ n.state.currentTerm then (n, [], false)
  else if reply.voteGranted then
    let n := { n with voteGranted := n.voteGranted.insert sender }
    if n.voteGranted.length ≥ quorum n then
      let elected := becomeLeaderLocked n
      let sent := sendAppendEntriesToAll elected.1
      (sent.1, elected.2 ++ sent.2, false)
    else (n, [], false)
  else (n, [], false)

/-! ## Replication (replication.go) -/

def respondAppend (n : Node) (leaderID : NodeID) (reply : AppendEntriesReply) : List Effect :=
  sendRaft leaderID ⟨n.selfID, n.state.currentTerm, .appendResponse reply⟩

/-- The second half of `handleAppendEntries`: merge the entries, follow the
leader's commit index and answer. -/
def takeEntries (n : Node) (replyTerm : Nat) (args : AppendEntriesArgs) : Node × List Effect :=
  match appendEntriesFromLeader n.state.log args.prevLogIndex args.prevLogTerm args.entries with
  | .error (conflictIndex, conflictTerm) =>
    (n, respondAppend n args.leaderID
      { term := replyTerm
        success := false
        matchIndex := 0
        conflictIndex := conflictIndex
        conflictTerm := conflictTerm })
  | .ok log =>
    let n := { n with state := { n.state with log := log } }
    let committed :=
      if args.leaderCommit > n.commitIndex then
        applyCommittedLocked { n with commitIndex := min args.leaderCommit log.length }
      else (n, [])
    (committed.1, persistLocked n ++ committed.2 ++ respondAppend n args.leaderID
      { term := replyTerm
        success := true
        matchIndex := log.length
        conflictIndex := 0
        conflictTerm := 0 })

def handleAppendEntries (n : Node) (args : AppendEntriesArgs) : Node × List Effect × Bool :=
  let observed := observeTerm n args.term args.leaderID true
  let n := observed.1
  let replyTerm := n.state.currentTerm
  if args.term < n.state.currentTerm then
    (n, observed.2 ++ respondAppend n args.leaderID
      { term := replyTerm
        success := false
        matchIndex := 0
        conflictIndex := 0
        conflictTerm := 0 }, false)
  else
    let n := stepDown n args.term args.leaderID true
    let taken := takeEntries n replyTerm args
    (taken.1, observed.2 ++ (persistLocked n ++ taken.2), true)

/-- The highest index of an entry of term `ct`, plus one, or the default. -/
def nextAfterTerm (log : Log) (ct default : Nat) : Nat → Nat
  | 0 => default
  | i + 1 =>
    match log[i]? with
    | some e => if e.term = ct then i + 2 else nextAfterTerm log ct default i
    | none => default

def handleAppendResponse (n : Node) (sender : NodeID) (reply : AppendEntriesReply) :
    Node × List Effect × Bool :=
  if reply.term > n.state.currentTerm then
    let n := stepDown n reply.term "" false
    (n, persistLocked n, true)
  else if n.role ≠ .leader then (n, [], false)
  else if reply.success then
    let n := { n with
      matchIndex := setKey n.matchIndex sender reply.matchIndex
      nextIndex := setKey n.nextIndex sender (reply.matchIndex + 1) }
    let advanced := advanceCommitIndexLocked n
    (advanced.1, advanced.2, false)
  else
    let next :=
      if reply.conflictTerm > 0 then
        nextAfterTerm n.state.log reply.conflictTerm reply.conflictIndex n.state.log.length
      else reply.conflictIndex
    ({ n with nextIndex := setKey n.nextIndex sender (if next < 1 then 1 else next) }, [], false)

/-! ## The node's entry points (node.go) -/

/-- `Start`: load the saved state; a node without peers leads at once. -/
def start (selfID : NodeID) (peers : List NodeID) (saved : PersistentState) :
    Node × List Effect :=
  let n := { newNode selfID peers with state := saved }
  if n.peers = [] then
    let n := { n with
      state := { n.state with currentTerm := n.state.currentTerm + 1, votedFor := n.selfID } }
    let elected := becomeLeaderLocked n
    (elected.1, persistLocked n ++ elected.2)
  else (n, [])

/-- The first locked section of `Propose`; `none` is `ErrNotLeader`.  The other
two are `sendAppendEntriesToAll` and `advanceCommitIndexLocked`. -/
def propose (n : Node) (cmd : Bytes) (ticket : Nat) : Node × List Effect × Option Nat :=
  if n.role ≠ .leader then (n, [], none)
  else
    let index := n.state.log.length + 1
    let entry : LogEntry := ⟨n.state.currentTerm, index, cmd⟩
    let n := { n with state := { n.state with log := n.state.log ++ [entry] } }
    ({ n with proposals := (index, ticket) :: n.proposals.filter (·.1 ≠ index) },
      persistLocked n, some index)

def dispatchMsg (n : Node) (msg : RaftMessage) : Node × List Effect × Bool :=
  match msg.body with
  | .requestVote args => handleRequestVote n args
  | .voteResponse reply => handleVoteResponse n msg.sender reply
  | .appendEntries args => handleAppendEntries n args
  | .appendResponse reply => handleAppendResponse n msg.sender reply

/-- The message case of the event loop: a leader that stepped down closes the
channels of its waiting proposers. -/
def onMessage (n : Node) (msg : RaftMessage) : Node × List Effect :=
  let dispatched := dispatchMsg n msg
  let n' := dispatched.1
  if n.role = .leader ∧ n'.role ≠ .leader then
    ({ n' with proposals := [] }, dispatched.2.1 ++ n'.proposals.map (.close ·.2))
  else (n', dispatched.2.1)

end PubsubBroker.Raft
