/-
# Raft.Machine — the handlers in machine arithmetic, with every index checked

`Raft.Node` reads the log with a default where the code indexes a slice, and its
numbers do not overflow.  Here the same handlers are written once more with what
the machine does: `uint64` sums and differences wrap, an index or a slice bound
outside the slice stops the program (`Fault.range`), and so does an append that
would make a slice longer than the largest `int` (`Fault.growslice`).  Messages
are whatever a peer sends: no field of them is trusted.

No input ever gives a range fault (`Memory.run_in_range`).  The proofs go through the
other model: on a log that fits into memory each checked function is the one of
`Raft.Node`, except where a number really wraps.
-/
import PubsubBroker.Raft.CatchUp

namespace PubsubBroker.Raft.Machine

open Theory Raft List

/-! ## Slices and words -/

inductive Fault where
  | range
  | growslice

abbrev Checked := Except Fault

/-- A `uint64`. -/
def word (n : Nat) : Nat := n % 2 ^ 64

/-- `n - 1` in `uint64`. -/
def pred (n : Nat) : Nat := word (n + (2 ^ 64 - 1))

/-- `log[i]`. -/
def index (log : Log) (i : Nat) : Checked LogEntry :=
  match log[i]? with
  | some e => .ok e
  | none => .error .range

/-- `log[:i]`. -/
def sliceTo (log : Log) (i : Nat) : Checked Log :=
  if i ≤ log.length then .ok (log.take i) else .error .range

/-- `log[i:]`. -/
def sliceFrom (log : Log) (i : Nat) : Checked Log :=
  if i ≤ log.length then .ok (log.drop i) else .error .range

/-- The length of a slice is an `int`. -/
def grown (log : Log) : Checked Log :=
  if log.length < 2 ^ 63 then .ok log else .error .growslice

/-- `append(log, more...)`. -/
def append (log more : Log) : Checked Log := grown (log ++ more)

/-! ## Log helpers (log.go) -/

def lastTerm (log : Log) : Checked Nat :=
  if log.length > 0 then (index log (log.length - 1)).map (·.term) else .ok 0

def lastLogIndexAndTermLocked (log : Log) : Checked (Nat × Nat) :=
  if log.length = 0 then .ok (0, 0)
  else (index log (log.length - 1)).map fun last => (last.index, last.term)

/-- `for ci > 1 && n.state.Log[ci-2].Term == ct { ci-- }`. -/
def conflictStart (log : Log) (ct : Nat) : Nat → Checked Nat
  | 0 => .ok 0
  | 1 => .ok 1
  | ci + 2 => do
    let e ← index log ci
    if e.term = ct then conflictStart log ct (ci + 1) else .ok (ci + 2)

/-- The loop over `entries`, at position `i` with these still ahead. -/
def mergeEntries (log : Log) (start : Nat) (entries : Log) : Nat → Log → Checked Log
  | _, [] => .ok log
  | i, newEntry :: rest =>
    let idx := word (start + i)
    if idx > log.length then do
      let tail ← sliceFrom entries i
      append log tail
    else do
      let existing ← index log (pred idx)
      if existing.term ≠ newEntry.term then do
        let front ← sliceTo log (pred idx)
        let tail ← sliceFrom entries i
        append front tail
      else mergeEntries log start entries (i + 1) rest

def appendEntriesFromLeader (log : Log) (prevIndex prevTerm : Nat) (entries : Log) :
    Checked (Except (Nat × Nat) Log) :=
  if prevIndex > log.length then .ok (.error (word (log.length + 1), 0))
  else do
    let conflict ← if prevIndex > 0 then do
        let entry ← index log (pred prevIndex)
        if entry.term ≠ prevTerm then do
          let ci ← conflictStart log entry.term prevIndex
          .ok (some (ci, entry.term))
        else .ok none
      else .ok none
    match conflict with
    | some (ci, ct) => .ok (.error (ci, ct))
    | none => (mergeEntries log (word (prevIndex + 1)) entries 0 entries).map .ok

/-! ## Committing (replication.go) -/

def applyLoop : Nat → Node → Checked (Node × List Effect)
  | 0, n => .ok (n, [])
  | k + 1, n => do
    let n := { n with lastApplied := word (n.lastApplied + 1) }
    let entry ← index n.state.log (pred n.lastApplied)
    let waiting := n.proposals.filter (·.1 = n.lastApplied)
    let n' := { n with proposals := n.proposals.filter (·.1 ≠ n.lastApplied) }
    let later ← applyLoop k n'
    .ok (later.1, .apply n.lastApplied entry :: waiting.map (.signal ·.2) ++ later.2)

def applyCommittedLocked (n : Node) : Checked (Node × List Effect) :=
  applyLoop (n.commitIndex - n.lastApplied) n

def commitCandidate (n : Node) : Nat → Checked (Option Nat)
  | 0 => .ok none
  | idx + 1 =>
    if idx + 1 > n.commitIndex then do
      let e ← index n.state.log idx
      if e.term = n.state.currentTerm ∧ replicated n (idx + 1) ≥ quorum n then .ok (some (idx + 1))
      else commitCandidate n idx
    else .ok none

def advanceCommitIndexLocked (n : Node) : Checked (Node × List Effect) :=
  if n.role ≠ .leader then .ok (n, [])
  else do
    match ← commitCandidate n n.state.log.length with
    | some idx => applyCommittedLocked { n with commitIndex := idx }
    | none => .ok (n, [])

/-! ## Sending AppendEntries (replication.go) -/

def prevTermFor (log : Log) (prevIdx : Nat) : Checked Nat :=
  if prevIdx > 0 ∧ prevIdx ≤ log.length then (index log (pred prevIdx)).map (·.term) else .ok 0

def entriesFor (log : Log) (nextIdx : Nat) : Checked Log :=
  if nextIdx ≤ log.length ∧ nextIdx ≥ 1 then sliceFrom log (pred nextIdx) else .ok []

def appendEntriesFor (n : Node) (peer : NodeID) : Checked (Nat × AppendEntriesArgs) := do
  let logLen := n.state.log.length
  let nextIdx := if n.nextIndex peer > logLen then word (logLen + 1) else n.nextIndex peer
  let prevIdx := pred nextIdx
  let prevTerm ← prevTermFor n.state.log prevIdx
  let entries ← entriesFor n.state.log nextIdx
  .ok (nextIdx,
    { term := n.state.currentTerm
      leaderID := n.selfID
      prevLogIndex := prevIdx
      prevLogTerm := prevTerm
      entries := entries
      leaderCommit := n.commitIndex })

def sendAppendEntriesToAll (n : Node) : Checked (Node × List Effect) :=
  if n.role ≠ .leader then .ok (n, [])
  else do
    let requests ← n.peers.mapM fun peer => (appendEntriesFor n peer).map fun r => (peer, r)
    .ok ({ n with
        nextIndex := fun p => ((requests.lookup p).map (·.1)).getD (n.nextIndex p) },
      requests.flatMap fun r =>
        sendRaft r.1 ⟨n.selfID, n.state.currentTerm, .appendEntries r.2.2⟩)

/-! ## Elections (election.go) -/

def becomeCandidate (n : Node) : Node :=
  { n with
    state := { n.state with currentTerm := word (n.state.currentTerm + 1), votedFor := n.selfID }
    role := .candidate
    leaderID := ""
    leaderKnown := false
    voteGranted := [n.selfID] }

def handleElectionTimeout (n : Node) : Checked (Node × List Effect) :=
  if n.role = .leader then .ok (n, [])
  else
    let n := becomeCandidate n
    if n.peers = [] then
      let elected := becomeLeaderLocked n
      .ok (elected.1, persistLocked n ++ elected.2)
    else do
      let lastLogTerm ← lastTerm n.state.log
      let args : RequestVoteArgs :=
        { term := n.state.currentTerm
          candidateID := n.selfID
          lastLogIndex := n.state.log.length
          lastLogTerm := lastLogTerm }
      .ok (n, persistLocked n ++ n.peers.flatMap fun peer =>
        sendRaft peer ⟨n.selfID, n.state.currentTerm, .requestVote args⟩)

def grantsVote (n : Node) (args : RequestVoteArgs) : Checked Bool :=
  if args.term ≥ n.state.currentTerm ∧
      (n.state.votedFor = "" ∨ n.state.votedFor = args.candidateID) then
    (lastLogIndexAndTermLocked n.state.log).map fun last =>
      decide (args.lastLogTerm > last.2) ||
        (decide (args.lastLogTerm = last.2) && decide (args.lastLogIndex ≥ last.1))
  else .ok false

def handleRequestVote (n : Node) (args : RequestVoteArgs) :
    Checked (Node × List Effect × Bool) := do
  let observed := observeTerm n args.term "" false
  let n := observed.1
  let granted ← grantsVote n args
  let voted :=
    if granted then
      let n := { n with state := { n.state with votedFor := args.candidateID } }
      (n, persistLocked n)
    else (n, [])
  let reply : RequestVoteReply := { term := n.state.currentTerm, voteGranted := granted }
  let n := voted.1
  .ok (n, observed.2 ++ voted.2 ++
      sendRaft args.candidateID ⟨n.selfID, n.state.currentTerm, .voteResponse reply⟩,
    reply.voteGranted || decide (reply.term > n.state.currentTerm))

def handleVoteResponse (n : Node) (sender : NodeID) (reply : RequestVoteReply) :
    Checked (Node × List Effect × Bool) :=
  if reply.term > n.state.currentTerm then
    let n := stepDown n reply.term "" false
    .ok (n, persistLocked n, true)
  else if n.role ≠ .candidate ∨ reply.term ≠ n.state.currentTerm then .ok (n, [], false)
  else if reply.voteGranted then
    let n := { n with voteGranted := n.voteGranted.insert sender }
    if n.voteGranted.length ≥ quorum n then do
      let elected := becomeLeaderLocked n
      let sent ← sendAppendEntriesToAll elected.1
      .ok (sent.1, elected.2 ++ sent.2, false)
    else .ok (n, [], false)
  else .ok (n, [], false)

/-! ## Replication (replication.go) -/

def takeEntries (n : Node) (replyTerm : Nat) (args : AppendEntriesArgs) :
    Checked (Node × List Effect) := do
  match ← appendEntriesFromLeader n.state.log args.prevLogIndex args.prevLogTerm args.entries with
  | .error (conflictIndex, conflictTerm) =>
    .ok (n, respondAppend n args.leaderID
      { term := replyTerm
        success := false
        matchIndex := 0
        conflictIndex := conflictIndex
        conflictTerm := conflictTerm })
  | .ok log =>
    let n := { n with state := { n.state with log := log } }
    let committed ←
      if args.leaderCommit > n.commitIndex then
        applyCommittedLocked { n with commitIndex := min args.leaderCommit log.length }
      else .ok (n, [])
    .ok (committed.1, persistLocked n ++ committed.2 ++ respondAppend n args.leaderID
      { term := replyTerm
        success := true
        matchIndex := log.length
        conflictIndex := 0
        conflictTerm := 0 })

def handleAppendEntries (n : Node) (args : AppendEntriesArgs) :
    Checked (Node × List Effect × Bool) :=
  let observed := observeTerm n args.term args.leaderID true
  let n := observed.1
  let replyTerm := n.state.currentTerm
  if args.term < n.state.currentTerm then
    .ok (n, observed.2 ++ respondAppend n args.leaderID
      { term := replyTerm
        success := false
        matchIndex := 0
        conflictIndex := 0
        conflictTerm := 0 }, false)
  else do
    let n := stepDown n args.term args.leaderID true
    let taken ← takeEntries n replyTerm args
    .ok (taken.1, observed.2 ++ (persistLocked n ++ taken.2), true)

def nextAfterTerm (log : Log) (ct default : Nat) : Nat → Checked Nat
  | 0 => .ok default
  | i + 1 => do
    let e ← index log i
    if e.term = ct then .ok (word (i + 2)) else nextAfterTerm log ct default i

def handleAppendResponse (n : Node) (sender : NodeID) (reply : AppendEntriesReply) :
    Checked (Node × List Effect × Bool) :=
  if reply.term > n.state.currentTerm then
    let n := stepDown n reply.term "" false
    .ok (n, persistLocked n, true)
  else if n.role ≠ .leader then .ok (n, [], false)
  else if reply.success then do
    let n := { n with
      matchIndex := setKey n.matchIndex sender reply.matchIndex
      nextIndex := setKey n.nextIndex sender (word (reply.matchIndex + 1)) }
    let advanced ← advanceCommitIndexLocked n
    .ok (advanced.1, advanced.2, false)
  else do
    let next ←
      if reply.conflictTerm > 0 then
        nextAfterTerm n.state.log reply.conflictTerm reply.conflictIndex n.state.log.length
      else .ok reply.conflictIndex
    .ok ({ n with nextIndex := setKey n.nextIndex sender (if next < 1 then 1 else next) }, [], false)

/-! ## The node's entry points (node.go) -/

/-- `Start` with the state that `Load` returned. -/
def start (selfID : NodeID) (peers : List NodeID) (loaded : PersistentState) :
    Node × List Effect :=
  let n := { newNode selfID peers with state := loaded }
  if n.peers = [] then
    let n := { n with
      state :=
        { n.state with currentTerm := word (n.state.currentTerm + 1), votedFor := n.selfID } }
    let elected := becomeLeaderLocked n
    (elected.1, persistLocked n ++ elected.2)
  else (n, [])

def propose (n : Node) (cmd : Bytes) (ticket : Nat) : Checked (Node × List Effect) :=
  if n.role ≠ .leader then .ok (n, [])
  else do
    let index := word (n.state.log.length + 1)
    let log ← append n.state.log [⟨n.state.currentTerm, index, cmd⟩]
    let n := { n with state := { n.state with log := log } }
    .ok ({ n with proposals := (index, ticket) :: n.proposals.filter (·.1 ≠ index) },
      persistLocked n)

def dispatchMsg (n : Node) (msg : RaftMessage) : Checked (Node × List Effect × Bool) :=
  match msg.body with
  | .requestVote args => handleRequestVote n args
  | .voteResponse reply => handleVoteResponse n msg.sender reply
  | .appendEntries args => handleAppendEntries n args
  | .appendResponse reply => handleAppendResponse n msg.sender reply

/-- The event loop behind `dispatchMsg`: a leader that stepped down closes the
channels of its waiting proposers. -/
def afterDispatch (n : Node) (dispatched : Node × List Effect × Bool) : Node × List Effect :=
  let n' := dispatched.1
  if n.role = .leader ∧ n'.role ≠ .leader then
    ({ n' with proposals := [] }, dispatched.2.1 ++ n'.proposals.map (.close ·.2))
  else (n', dispatched.2.1)

def onMessage (n : Node) (msg : RaftMessage) : Checked (Node × List Effect) := do
  let dispatched ← dispatchMsg n msg
  .ok (afterDispatch n dispatched)

/-- What happens to a running node.  The three locked sections of `Propose` are
`propose`, `tick` and `advance`; the entries of a message are a slice too. -/
inductive Input where
  | timeout
  | tick
  | propose (cmd : Bytes) (ticket : Nat)
  | advance
  | message (msg : RaftMessage)
      (fits : ∀ args ∈ msg.body.appendEntries?, args.entries.length < 2 ^ 63)

def react (n : Node) : Input → Checked (Node × List Effect)
  | .timeout => handleElectionTimeout n
  | .tick => sendAppendEntriesToAll n
  | .propose cmd ticket => propose n cmd ticket
  | .advance => advanceCommitIndexLocked n
  | .message msg _ => onMessage n msg

/-! ## Agreement of the log helpers -/

section helpers

variable {log entries : Log} {n : Node}

theorem word_of_lt {n : Nat} (small : n < 2 ^ 64) : word n = n := Nat.mod_eq_of_lt small

theorem pred_succ {n : Nat} (small : n < 2 ^ 64) : pred (n + 1) = n := by
  unfold pred word
  omega

@[simp] theorem bind_ok {α β : Type} (a : α) (f : α → Checked β) : (.ok a : Checked α) >>= f = f a :=
  rfl

theorem index_of_lt {i : Nat} (inside : i < log.length) : index log i = .ok log[i] := by
  simp [index, inside]

theorem grown_of_lt (fits : log.length < 2 ^ 63) : grown log = .ok log := if_pos fits

theorem lastTerm_eq (log : Log) : lastTerm log = .ok (Raft.lastTerm log) := by
  unfold lastTerm Raft.lastTerm
  by_cases empty : log.length > 0
  · rw [if_pos empty, index_of_lt (by omega), getLast?_eq_getElem?,
      getElem?_eq_getElem (by omega)]
    rfl
  grind

theorem lastLogIndexAndTermLocked_eq (log : Log) :
    lastLogIndexAndTermLocked log = .ok (Raft.lastLogIndexAndTermLocked log) := by
  unfold lastLogIndexAndTermLocked Raft.lastLogIndexAndTermLocked
  by_cases empty : log.length = 0
  · simp [length_eq_zero_iff.mp empty]
  · rw [if_neg empty, index_of_lt (by omega), getLast?_eq_getElem?,
      getElem?_eq_getElem (by omega)]
    rfl

theorem conflictStart_eq (ct : Nat) : ∀ ci ≤ log.length,
    conflictStart log ct ci = .ok (Raft.conflictStart log ct ci)
  | 0, _ => rfl
  | 1, _ => rfl
  | ci + 2, inside => by
    have at_ci : ci < log.length := by omega
    rw [conflictStart, Raft.conflictStart, index_of_lt at_ci, getElem?_eq_getElem at_ci,
      bind_ok]
    simp only
    split
    · exact conflictStart_eq ct (ci + 1) (by omega)
    · rfl

/-- The position of an entry never wraps: both slices are shorter than half the range. -/
theorem mergeEntries_eq {prev : Nat} (fits : log.length < 2 ^ 63)
    (short : entries.length < 2 ^ 63) (inside : prev ≤ log.length) :
    ∀ (rest : Log) (i : Nat), entries.drop i = rest →
      mergeEntries log (prev + 1) entries i rest =
        grown (Raft.mergeEntries log (prev + 1 + i) rest)
  | [], i, _ => (grown_of_lt fits).symm
  | newEntry :: rest, i, ahead => by
    have room : i < entries.length := by grind [drop_of_length_le]
    have next : entries.drop (i + 1) = rest := by
      rw [← drop_drop, ahead]
      rfl
    have position : word (prev + 1 + i) = prev + 1 + i := word_of_lt (by omega)
    have before : pred (prev + 1 + i) = prev + i := by grind [pred_succ]
    have tail : sliceFrom entries i = .ok (newEntry :: rest) := by
      rw [sliceFrom, if_pos (by omega), ahead]
    rw [mergeEntries, Raft.mergeEntries]
    simp only [position, before, tail, bind_ok]
    rw [show prev + 1 + i - 1 = prev + i by omega]
    by_cases beyond : prev + 1 + i > log.length
    · rw [if_pos beyond, if_pos beyond, append]
    · have at_i : prev + i < log.length := by omega
      rw [if_neg beyond, if_neg beyond, index_of_lt at_i, getElem?_eq_getElem at_i, bind_ok]
      simp only
      split
      · rw [sliceTo, if_pos (by omega), bind_ok, append]
      · exact mergeEntries_eq fits short inside rest (i + 1) next

/-- **The checked `appendEntriesFromLeader`** only fails to grow. -/
theorem appendEntriesFromLeader_eq {prev prevTerm : Nat} (fits : log.length < 2 ^ 63)
    (short : entries.length < 2 ^ 63) :
    appendEntriesFromLeader log prev prevTerm entries =
      match Raft.appendEntriesFromLeader log prev prevTerm entries with
      | .error conflict => .ok (.error conflict)
      | .ok log' => (grown log').map .ok := by
  unfold appendEntriesFromLeader Raft.appendEntriesFromLeader
  by_cases beyond : prev > log.length
  · grind [word_of_lt]
  · rw [if_neg beyond, if_neg beyond, word_of_lt (show prev + 1 < 2 ^ 64 by omega)]
    have merged := mergeEntries_eq fits short (show prev ≤ log.length by omega) entries 0 rfl
    rcases prev with _ | k
    · simpa using congrArg (Except.map Except.ok) merged
    · have at_k : k < log.length := by omega
      rw [if_pos (Nat.succ_pos k), pred_succ (by omega), index_of_lt at_k, bind_ok,
        if_neg (Nat.succ_ne_zero k), Nat.add_sub_cancel, getElem?_eq_getElem at_k]
      simp only
      split
      · rw [conflictStart_eq _ _ (by omega)]
        rfl
      · exact congrArg (Except.map Except.ok) merged

end helpers

/-! ## Agreement of the loops over the log -/

section loops

variable {n : Node}

theorem applyLoop_eq : ∀ (k : Nat) (n : Node), n.state.log.length < 2 ^ 63 →
    n.lastApplied + k ≤ n.state.log.length → applyLoop k n = .ok (Raft.applyLoop k n)
  | 0, _, _, _ => rfl
  | k + 1, n, fits, room => by
    have at_next : n.lastApplied < n.state.log.length := by omega
    have later := applyLoop_eq k { n with
      lastApplied := n.lastApplied + 1
      proposals := n.proposals.filter (·.1 ≠ n.lastApplied + 1) } fits
      (show n.lastApplied + 1 + k ≤ n.state.log.length by omega)
    rw [applyLoop, Raft.applyLoop]
    simp only [word_of_lt (show n.lastApplied + 1 < 2 ^ 64 by omega),
      pred_succ (show n.lastApplied < 2 ^ 64 by omega), index_of_lt at_next, bind_ok, later,
      Nat.add_sub_cancel, getElem?_eq_getElem at_next]

theorem applyCommittedLocked_eq (fits : n.state.log.length < 2 ^ 63)
    (within : n.commitIndex ≤ n.state.log.length) :
    applyCommittedLocked n = .ok (Raft.applyCommittedLocked n) := by
  unfold applyCommittedLocked Raft.applyCommittedLocked
  by_cases behind : n.lastApplied ≤ n.commitIndex
  · exact applyLoop_eq _ n fits (by omega)
  · rw [Nat.sub_eq_zero_of_le (by omega)]
    rfl

theorem commitCandidate_eq : ∀ idx ≤ n.state.log.length,
    commitCandidate n idx = .ok (Raft.commitCandidate n idx)
  | 0, _ => rfl
  | idx + 1, inside => by
    have at_idx : idx < n.state.log.length := by omega
    rw [commitCandidate, Raft.commitCandidate]
    split
    · rw [index_of_lt at_idx, bind_ok, getElem?_eq_getElem at_idx]
      simp only
      split
      · rfl
      · exact commitCandidate_eq idx (by omega)
    · rfl

theorem advanceCommitIndexLocked_eq (fits : n.state.log.length < 2 ^ 63) :
    advanceCommitIndexLocked n = .ok (Raft.advanceCommitIndexLocked n) := by
  unfold advanceCommitIndexLocked Raft.advanceCommitIndexLocked
  split
  · rfl
  · rw [commitCandidate_eq _ le_rfl, bind_ok]
    cases found : Raft.commitCandidate n n.state.log.length with
    | none => rfl
    | some index =>
      obtain ⟨-, short, -⟩ := commitCandidate_some le_rfl found
      grind [applyCommittedLocked_eq]

theorem nextAfterTerm_eq {log : Log} (fits : log.length < 2 ^ 63) (ct default : Nat) :
    ∀ i ≤ log.length, nextAfterTerm log ct default i = .ok (Raft.nextAfterTerm log ct default i)
  | 0, _ => rfl
  | i + 1, inside => by
    have at_i : i < log.length := by omega
    rw [nextAfterTerm, Raft.nextAfterTerm, index_of_lt at_i, bind_ok,
      getElem?_eq_getElem at_i, word_of_lt (show i + 2 < 2 ^ 64 by omega)]
    simp only
    split
    · rfl
    · exact nextAfterTerm_eq fits ct default i (by omega)

theorem prevTermFor_eq {log : Log} (fits : log.length < 2 ^ 63) (k : Nat) :
    prevTermFor log k =
      .ok (if k > 0 ∧ k ≤ log.length then (log[k - 1]?.map (·.term)).getD 0 else 0) := by
  unfold prevTermFor
  split
  · rename_i inside
    obtain ⟨i, rfl⟩ : ∃ i, k = i + 1 := ⟨k - 1, by omega⟩
    rw [pred_succ (by omega), index_of_lt (by omega), Nat.add_sub_cancel,
      getElem?_eq_getElem (by omega)]
    rfl
  · rfl

theorem entriesFor_eq {log : Log} (fits : log.length < 2 ^ 63) (next : Nat) :
    entriesFor log next =
      .ok (if next ≤ log.length ∧ next ≥ 1 then log.drop (next - 1) else []) := by
  unfold entriesFor
  split
  · rename_i inside
    obtain ⟨i, rfl⟩ : ∃ i, next = i + 1 := ⟨next - 1, by omega⟩
    rw [pred_succ (by omega), sliceFrom, if_pos (by omega), Nat.add_sub_cancel]
  · rfl

theorem pred_eq {next : Nat} (small : next < 2 ^ 64) :
    pred next = if next = 0 then 2 ^ 64 - 1 else next - 1 := by
  unfold pred word
  split <;> omega

/-- The request for a peer: a `nextIndex` of zero wraps to the largest word, which
is behind the log. -/
theorem appendEntriesFor_eq (fits : n.state.log.length < 2 ^ 63) (peer : NodeID) :
    appendEntriesFor n peer = .ok (Raft.appendEntriesFor n peer) := by
  have clamped : (if n.nextIndex peer > n.state.log.length then n.state.log.length + 1
      else n.nextIndex peer) < 2 ^ 64 := by
    split <;> omega
  unfold appendEntriesFor Raft.appendEntriesFor
  simp only [word_of_lt (show n.state.log.length + 1 < 2 ^ 64 by omega), pred_eq clamped,
    prevTermFor_eq fits, entriesFor_eq fits, bind_ok]

theorem mapM_ok {α β : Type} {f : α → Checked β} {g : α → β} (all : ∀ a, f a = .ok (g a)) :
    ∀ l : List α, l.mapM f = .ok (l.map g)
  | [] => rfl
  | a :: l => by
    rw [mapM_cons, all a, mapM_ok all l]
    rfl

theorem sendAppendEntriesToAll_eq (fits : n.state.log.length < 2 ^ 63) :
    sendAppendEntriesToAll n = .ok (Raft.sendAppendEntriesToAll n) := by
  unfold sendAppendEntriesToAll Raft.sendAppendEntriesToAll
  split
  · rfl
  · rw [mapM_ok (g := fun p => (p, Raft.appendEntriesFor n p))
      (fun p => by rw [appendEntriesFor_eq fits p]; rfl), bind_ok]
    have found : ∀ (peers : List NodeID) (p : NodeID),
        (((peers.map fun p => (p, Raft.appendEntriesFor n p)).lookup p).map (·.1)).getD
            (n.nextIndex p) =
          if p ∈ peers then (Raft.appendEntriesFor n p).1 else n.nextIndex p := by
      intro peers p
      induction peers with
      | nil => rfl
      | cons q peers ih => grind
    simp only [found, flatMap_map]

end loops

/-! ## Agreement of the handlers -/

def held {α : Type} (r : Node × α) : Checked (Node × α) :=
  if r.1.state.log.length < 2 ^ 63 then .ok r else .error .growslice

theorem held_of_lt {α : Type} {r : Node × α} (fits : r.1.state.log.length < 2 ^ 63) :
    held r = .ok r := if_pos fits

theorem held_bind {α β : Type} {r : Node × α} {f : Node × α → Node × β}
    (same : (f r).1.state.log = r.1.state.log) :
    (held r >>= fun d => (.ok (f d) : Checked (Node × β))) = held (f r) := by
  unfold held
  rw [same]
  split <;> rfl

section handlers

variable {n : Node}

theorem grantsVote_eq (n : Node) (args : RequestVoteArgs) :
    grantsVote n args = .ok (Raft.grantsVote n args) := by
  unfold grantsVote Raft.grantsVote logUpToDate
  rw [lastLogIndexAndTermLocked_eq]
  by_cases asked : args.term ≥ n.state.currentTerm ∧
      (n.state.votedFor = "" ∨ n.state.votedFor = args.candidateID)
  · rw [if_pos asked]
    have granted : (decide (args.term ≥ n.state.currentTerm) &&
        (decide (n.state.votedFor = "") || decide (n.state.votedFor = args.candidateID))) = true := by
      simpa [← Bool.decide_and, ← Bool.decide_or] using asked
    rw [granted, Bool.true_and]
    rfl
  · simp [asked]

theorem handleRequestVote_eq (n : Node) (args : RequestVoteArgs) :
    handleRequestVote n args = .ok (Raft.handleRequestVote n args) := by
  unfold handleRequestVote Raft.handleRequestVote
  simp only [grantsVote_eq, bind_ok]

theorem handleVoteResponse_eq (fits : n.state.log.length < 2 ^ 63) (sender : NodeID)
    (reply : RequestVoteReply) :
    handleVoteResponse n sender reply = .ok (Raft.handleVoteResponse n sender reply) := by
  unfold handleVoteResponse Raft.handleVoteResponse
  split
  · rfl
  · split
    · rfl
    · split
      · simp only
        split
        · rw [sendAppendEntriesToAll_eq (by exact fits), bind_ok]
        · rfl
      · rfl

theorem takeEntries_eq {args : AppendEntriesArgs} (fits : n.state.log.length < 2 ^ 63)
    (short : args.entries.length < 2 ^ 63) (replyTerm : Nat) :
    takeEntries n replyTerm args = held (Raft.takeEntries n replyTerm args) := by
  cases outcome : Raft.appendEntriesFromLeader n.state.log args.prevLogIndex args.prevLogTerm
      args.entries with
  | error conflict =>
    rw [held_of_lt (by rw [takeEntries_error outcome]; exact fits)]
    unfold takeEntries Raft.takeEntries
    rw [appendEntriesFromLeader_eq fits short, outcome]
    rfl
  | ok log =>
    have state : (Raft.takeEntries n replyTerm args).1.state.log = log := by
      rw [takeEntries_ok outcome, adopted_state]
    unfold held
    rw [state]
    unfold takeEntries
    rw [appendEntriesFromLeader_eq fits short, outcome]
    simp only [grown]
    split
    · rename_i room
      grind [Raft.takeEntries, Except.map, bind_ok, applyCommittedLocked_eq]
    · rfl

theorem handleAppendEntries_eq {args : AppendEntriesArgs} (fits : n.state.log.length < 2 ^ 63)
    (short : args.entries.length < 2 ^ 63) :
    handleAppendEntries n args = held (Raft.handleAppendEntries n args) := by
  have observed : (observeTerm n args.term args.leaderID true).1.state.log = n.state.log := by
    unfold observeTerm
    split <;> rfl
  unfold handleAppendEntries Raft.handleAppendEntries
  simp only
  split
  · grind [held_of_lt]
  · rw [takeEntries_eq (by exact observed ▸ fits) short]
    exact held_bind rfl

/-- An answer: only a match index at the very end of the range wraps. -/
theorem handleAppendResponse_eq (fits : n.state.log.length < 2 ^ 63) (sender : NodeID)
    (reply : AppendEntriesReply) :
    ∃ r, handleAppendResponse n sender reply = .ok r ∧ r.1.state.log = n.state.log ∧
      (reply.matchIndex + 1 < 2 ^ 64 → r = Raft.handleAppendResponse n sender reply) := by
  unfold handleAppendResponse Raft.handleAppendResponse
  split
  · exact ⟨_, rfl, rfl, fun _ => rfl⟩
  · split
    · exact ⟨_, rfl, rfl, fun _ => rfl⟩
    · split
      · simp only
        rw [advanceCommitIndexLocked_eq (by exact fits), bind_ok]
        grind [word_of_lt, advanceCommitIndexLocked_keeps]
      · split
        · rw [nextAfterTerm_eq fits _ _ _ le_rfl, bind_ok]
          exact ⟨_, rfl, rfl, fun _ => rfl⟩
        · exact ⟨_, rfl, rfl, fun _ => rfl⟩

theorem becomeCandidate_eq (small : n.state.currentTerm + 1 < 2 ^ 64) :
    becomeCandidate n = Raft.becomeCandidate n := by
  unfold becomeCandidate Raft.becomeCandidate
  rw [word_of_lt small]

theorem handleElectionTimeout_eq (n : Node) :
    ∃ r, handleElectionTimeout n = .ok r ∧ r.1.state.log = n.state.log ∧
      (n.state.currentTerm + 1 < 2 ^ 64 ∨ n.role = .leader → r = Raft.handleElectionTimeout n) := by
  unfold handleElectionTimeout Raft.handleElectionTimeout
  split
  · exact ⟨_, rfl, rfl, fun _ => rfl⟩
  · rename_i follows
    have same : n.state.currentTerm + 1 < 2 ^ 64 ∨ n.role = .leader →
        becomeCandidate n = Raft.becomeCandidate n := fun small =>
      becomeCandidate_eq (small.resolve_right follows)
    simp only
    split
    · rename_i alone
      refine ⟨_, rfl, rfl, fun small => ?_⟩
      rw [← same small, if_pos alone]
    · rename_i peers
      rw [lastTerm_eq, bind_ok]
      refine ⟨_, rfl, rfl, fun small => ?_⟩
      rw [← same small, if_neg peers]

theorem propose_eq (n : Node) (cmd : Bytes) (ticket : Nat) (fits : n.state.log.length < 2 ^ 63) :
    propose n cmd ticket =
      held ((Raft.propose n cmd ticket).1, (Raft.propose n cmd ticket).2.1) := by
  unfold propose Raft.propose
  split
  · exact (held_of_lt fits).symm
  · rw [word_of_lt (show n.state.log.length + 1 < 2 ^ 64 by omega)]
    simp only [append, grown, held]
    split <;> rfl

end handlers

/-! ## Whole inputs -/

/-- The reaction in `Raft.Node`. -/
def plain (n : Node) : Input → Node × List Effect
  | .timeout => Raft.handleElectionTimeout n
  | .tick => Raft.sendAppendEntriesToAll n
  | .propose cmd ticket => ((Raft.propose n cmd ticket).1, (Raft.propose n cmd ticket).2.1)
  | .advance => Raft.advanceCommitIndexLocked n
  | .message msg _ => Raft.onMessage n msg

/-- A sum that leaves the range: the next term, or the index behind a match. -/
def Wraps (n : Node) : Input → Prop
  | .timeout => n.role ≠ .leader ∧ 2 ^ 64 ≤ n.state.currentTerm + 1
  | .message msg _ => ∃ reply ∈ msg.body.appendResponse?, 2 ^ 64 ≤ reply.matchIndex + 1
  | _ => False

section inputs

variable {n : Node}

theorem sendAppendEntriesToAll_state (n : Node) :
    (Raft.sendAppendEntriesToAll n).1.state = n.state := by
  unfold Raft.sendAppendEntriesToAll
  split <;> rfl

theorem handleRequestVote_log (n : Node) (args : RequestVoteArgs) :
    (Raft.handleRequestVote n args).1.state.log = n.state.log := by
  unfold Raft.handleRequestVote observeTerm
  simp only
  split <;> split <;> rfl

theorem handleVoteResponse_log (n : Node) (sender : NodeID) (reply : RequestVoteReply) :
    (Raft.handleVoteResponse n sender reply).1.state.log = n.state.log := by
  unfold Raft.handleVoteResponse
  split
  · rfl
  · split
    · rfl
    · simp only
      split
      · split
        · rw [sendAppendEntriesToAll_state]
          rfl
        · rfl
      · rfl

theorem dispatchMsg_held {msg : RaftMessage} (fits : n.state.log.length < 2 ^ 63)
    (short : ∀ args ∈ msg.body.appendEntries?, args.entries.length < 2 ^ 63) :
    ∃ d, dispatchMsg n msg = held d ∧
      ((∀ reply ∈ msg.body.appendResponse?, reply.matchIndex + 1 < 2 ^ 64) →
        d = Raft.dispatchMsg n msg) := by
  obtain ⟨sender, term, body⟩ := msg
  cases body with
  | requestVote args =>
    refine ⟨_, (handleRequestVote_eq n args).trans (held_of_lt ?_).symm, fun _ => rfl⟩
    rw [handleRequestVote_log]
    exact fits
  | voteResponse reply =>
    refine ⟨_, (handleVoteResponse_eq fits sender reply).trans (held_of_lt ?_).symm, fun _ => rfl⟩
    rw [handleVoteResponse_log]
    exact fits
  | appendEntries args => exact ⟨_, handleAppendEntries_eq fits (short args rfl), fun _ => rfl⟩
  | appendResponse reply =>
    obtain ⟨d, run, log, same⟩ := handleAppendResponse_eq fits sender reply
    exact ⟨d, run.trans (held_of_lt (log ▸ fits)).symm, fun small => same (small reply rfl)⟩

/-- **Every reaction is one inside the log**: the one of `Raft.Node` when no sum
wraps, and refused only for want of room. -/
theorem react_held (fits : n.state.log.length < 2 ^ 63) (input : Input) :
    ∃ r, react n input = held r ∧ (¬ Wraps n input → r = plain n input) := by
  cases input with
  | timeout =>
    obtain ⟨r, run, log, same⟩ := handleElectionTimeout_eq n
    refine ⟨r, run.trans (held_of_lt (log ▸ fits)).symm, fun small => same ?_⟩
    simp only [Wraps, not_and_or, not_not, not_le] at small
    exact small.symm
  | tick =>
    refine ⟨_, (sendAppendEntriesToAll_eq fits).trans (held_of_lt ?_).symm, fun _ => rfl⟩
    rw [sendAppendEntriesToAll_state]
    exact fits
  | propose cmd ticket => exact ⟨_, propose_eq n cmd ticket fits, fun _ => rfl⟩
  | advance =>
    refine ⟨_, (advanceCommitIndexLocked_eq fits).trans (held_of_lt ?_).symm, fun _ => rfl⟩
    rw [(advanceCommitIndexLocked_keeps n).1]
    exact fits
  | message msg short =>
    obtain ⟨d, run, same⟩ := dispatchMsg_held fits short
    refine ⟨afterDispatch n d, ?_, fun small => ?_⟩
    · rw [react, onMessage, run]
      exact held_bind (by simp only [afterDispatch]; split <;> rfl)
    · rw [same fun reply mem => not_le.mp fun large => small ⟨reply, mem, large⟩]
      rfl

end inputs

/-- A running node.  Its log is a slice, so its length is an `int`. -/
structure Memory where
  node : Node
  fits : node.state.log.length < 2 ^ 63

namespace Memory

theorem fits_of_react {m : Memory} {input : Input} {r : Node × List Effect}
    (run : react m.node input = .ok r) : r.1.state.log.length < 2 ^ 63 := by
  obtain ⟨v, eq, -⟩ := react_held m.fits input
  rw [run] at eq
  unfold held at eq
  split at eq
  · grind
  · cases eq

def step (m : Memory) (input : Input) : Checked (Memory × List Effect) :=
  match run : react m.node input with
  | .ok r => .ok (⟨r.1, fits_of_react run⟩, r.2)
  | .error fault => .error fault

/-- A node that gets these inputs, one after the other. -/
def run (m : Memory) : List Input → Checked Memory
  | [] => .ok m
  | input :: rest => do
    let r ← m.step input
    r.1.run rest

theorem step_in_range (m : Memory) (input : Input) : m.step input ≠ .error .range := by
  obtain ⟨v, eq, -⟩ := react_held m.fits input
  grind [step, held]

/-- **No handler leaves the log.**  Whatever a node holds and whatever timeouts,
ticks, proposals and messages it gets, with any values in them, no index and no
slice bound is ever outside the slice. -/
theorem run_in_range (m : Memory) (inputs : List Input) : m.run inputs ≠ .error .range := by
  induction inputs generalizing m with
  | nil => nofun
  | cons input inputs ih =>
    intro failed
    rw [run] at failed
    cases stepped : m.step input with
    | error fault =>
      rw [stepped] at failed
      have same : fault = .range := by cases failed; rfl
      grind [step_in_range]
    | ok r =>
      rw [stepped] at failed
      exact ih r.1 failed

end Memory


end PubsubBroker.Raft.Machine
