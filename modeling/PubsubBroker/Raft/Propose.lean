/-
# Raft.Propose — what a returned index means

`Propose` appends an entry, registers a channel under the entry's index and waits
for it.  The apply loop sends on the channel when it passes the index, the event
loop closes every channel after a message has made a leader step down.  So the
caller learns that *an* entry was applied at its index, and whether it is its own
depends on what the log held there at that moment.

The cluster's run is followed together with what each process has applied, which
calls it has taken and which channels it has signalled.  A process begins at
`Start`, with nothing applied.
-/
import PubsubBroker.Raft.Apply
import PubsubBroker.Raft.Staleness
import PubsubBroker.Raft.Safety

namespace PubsubBroker.Raft

open Theory List Option

/-! ## Processes and their callers -/

/-- One process of a node, since it was started.  A call is named by its position
among the calls that were not refused. -/
structure Process where
  applied : List (Nat × LogEntry)
  /-- The entry each call created. -/
  calls : List LogEntry
  /-- The channels that hold a value. -/
  woken : List Nat
  closed : List Nat
deriving DecidableEq

namespace Process

def fresh : Process := ⟨[], [], [], []⟩

def note (p : Process) : Effect → Process
  | .apply index entry => { p with applied := p.applied ++ [(index, entry)] }
  | .signal ticket => { p with woken := p.woken ++ [ticket] }
  | .close ticket => { p with closed := p.closed ++ [ticket] }
  | _ => p

def noteAll (p : Process) (effects : List Effect) : Process := effects.foldl note p

/-- The call that a stimulus is, unless it is refused. -/
def take (p : Process) (n : Node) : Stimulus → Process
  | .propose cmd ticket =>
    match (propose n cmd ticket).2.2 with
    | some index => { p with calls := p.calls ++ [⟨n.state.currentTerm, index, cmd⟩] }
    | none => p
  | .start => fresh
  | _ => p

end Process

/-- What `Propose` returns: the index, `ErrNotLeader`, the context's error or `ErrStopped`. -/
inductive Outcome where
  | ok (index : Nat)
  | notLeader
  | cancelled
  | stopped
deriving DecidableEq

/-- The cases the final `select` of a call may take. -/
def Process.select (p : Process) (ticket : Nat) (cancelled stopped : Bool) : List Outcome :=
  match p.calls[ticket]? with
  | none => []
  | some entry =>
    (if ticket ∈ p.woken then [.ok entry.index] else []) ++
    (if ticket ∈ p.closed then [.notLeader] else []) ++
    (if cancelled then [.cancelled] else []) ++ (if stopped then [.stopped] else [])

/-- A run of the cluster with its processes. -/
structure Traced where
  world : World
  process : NodeID → Process

namespace Traced

variable (C : Cluster)

def init : Traced := ⟨World.init C, fun _ => .fresh⟩

/-- Every call makes a channel of its own. -/
def Named (t : Traced) (i : NodeID) : Stimulus → Prop
  | .propose _ ticket => ticket = (t.process i).calls.length
  | _ => True

instance (t : Traced) (i : NodeID) : (stimulus : Stimulus) → Decidable (t.Named i stimulus)
  | .propose _ ticket => inferInstanceAs (Decidable (ticket = _))
  | .timeout | .deliver _ | .heartbeat | .advance | .start => inferInstanceAs (Decidable True)

def setProcess (t : Traced) (i : NodeID) (p : Process) (w : World) : Traced :=
  ⟨w, fun j => if j = i then p else t.process j⟩

def step (t : Traced) : Event → Option Traced
  | .run i stimulus =>
    if i ∈ C.ids ∧ t.Named i stimulus then
      (t.world.react C i stimulus).map fun r =>
        t.setProcess i (((t.process i).take (t.world.nodes i) stimulus).noteAll r.2)
          (t.world.settle i r)
    else none
  | .crash i stimulus k =>
    (t.world.step C (.crash i stimulus k)).map (t.setProcess i .fresh)

end Traced

/-- The entry a request carries for this index. -/
def AppendEntriesArgs.entryAt (args : AppendEntriesArgs) (index : Nat) : Option LogEntry :=
  if args.prevLogIndex < index then args.entries[index - args.prevLogIndex - 1]? else none

/-- A request of a later term that reaches a leader brings no foreign entry for an
index that it also commits and that a caller of this leader waits for. -/
def CommitsOwn (w : World) : Event → Prop
  | .run i (.deliver k) => ∀ p ∈ w.sent[k]?, ∀ args ∈ p.msg.body.appendEntries?,
      (w.nodes i).role = .leader → args.term > (w.nodes i).state.currentTerm →
      ∀ waiting ∈ (w.nodes i).proposals, waiting.1 ≤ args.leaderCommit →
        ∀ e ∈ args.entryAt waiting.1, e.term = (w.nodes i).state.currentTerm
  | _ => True

instance (w : World) : (e : Event) → Decidable (CommitsOwn w e)
  | .run i (.deliver k) =>
    inferInstanceAs (Decidable (∀ p ∈ w.sent[k]?, ∀ args ∈ p.msg.body.appendEntries?,
      (w.nodes i).role = .leader → args.term > (w.nodes i).state.currentTerm →
      ∀ waiting ∈ (w.nodes i).proposals, waiting.1 ≤ args.leaderCommit →
        ∀ e ∈ args.entryAt waiting.1, e.term = (w.nodes i).state.currentTerm))
  | .run _ .timeout | .run _ (.propose _ _) | .run _ .heartbeat | .run _ .advance | .run _ .start =>
    inferInstanceAs (Decidable True)
  | .crash _ _ _ => inferInstanceAs (Decidable True)

/-! ## What the effects of a handler leave in the record -/

/-- Leaves no mark in the process's record. -/
def Effect.silent : Effect → Bool
  | .save _ => true
  | .send _ _ => true
  | .becameLeader _ => true
  | _ => false

variable {n : Node} {p : Process}

theorem noteAll_append (p : Process) (first second : List Effect) :
    p.noteAll (first ++ second) = (p.noteAll first).noteAll second := by
  simp [Process.noteAll]

theorem noteAll_silent {effects : List Effect} (p : Process)
    (silent : ∀ e ∈ effects, e.silent = true) : p.noteAll effects = p := by
  induction effects with
  | nil => rfl
  | cons e effects ih =>
    obtain ⟨here, rest⟩ := forall_mem_cons.mp silent
    have same : p.note e = p := by
      cases e with
      | apply | signal | close => cases here
      | _ => rfl
    grind [Process.noteAll]

theorem persistLocked_silent (n : Node) : ∀ e ∈ persistLocked n, e.silent = true := by
  simp [persistLocked, Effect.silent]

theorem sendRaft_silent (peer : NodeID) (msg : RaftMessage) :
    ∀ e ∈ sendRaft peer msg, e.silent = true := by
  unfold sendRaft
  split <;> simp [Effect.silent]

theorem respondAppend_silent (n : Node) (leaderID : NodeID) (reply : AppendEntriesReply) :
    ∀ e ∈ respondAppend n leaderID reply, e.silent = true :=
  sendRaft_silent _ _

theorem noteAll_closes (p : Process) : ∀ waiting : List (Nat × Nat),
    ∃ closed, p.noteAll (waiting.map (.close ·.2)) = { p with closed := closed }
  | [] => ⟨p.closed, rfl⟩
  | x :: waiting => noteAll_closes { p with closed := p.closed ++ [x.2] } waiting

theorem noteAll_signals (p : Process) : ∀ waiting : List (Nat × Nat),
    p.noteAll (waiting.map (.signal ·.2)) = { p with woken := p.woken ++ waiting.map (·.2) }
  | [] => by simp [Process.noteAll]
  | x :: waiting => by
    have rest := noteAll_signals { p with woken := p.woken ++ [x.2] } waiting
    grind [Process.noteAll, Process.note]

theorem noteAll_applyRange (n : Node) : ∀ (entries : List LogEntry) (index : Nat) (p : Process),
    ∃ woken, p.noteAll (applyRange n index entries) =
        { p with
          applied := p.applied ++ (List.range' (index + 1) entries.length).zip entries
          woken := p.woken ++ woken } ∧
      ∀ ticket ∈ woken, ∃ x ∈ n.proposals, x.2 = ticket ∧ index < x.1 ∧
        x.1 ≤ index + entries.length
  | [], index, p => ⟨[], by simp [Process.noteAll, applyRange], by simp⟩
  | entry :: rest, index, p => by
    obtain ⟨woken, noted, sources⟩ := noteAll_applyRange n rest (index + 1)
      { p with
        applied := p.applied ++ [(index + 1, entry)]
        woken := p.woken ++ (n.proposals.filter (·.1 = index + 1)).map (·.2) }
    refine ⟨(n.proposals.filter (·.1 = index + 1)).map (·.2) ++ woken, ?_, ?_⟩
    · have here : p.noteAll (applyAt n (index + 1) entry) =
          { p with
            applied := p.applied ++ [(index + 1, entry)]
            woken := p.woken ++ (n.proposals.filter (·.1 = index + 1)).map (·.2) } :=
        noteAll_signals { p with applied := p.applied ++ [(index + 1, entry)] } _
      simp [applyRange, noteAll_append, range'_succ, noted, here]
    grind

/-! ## The invariant -/

/-- The process has applied the indexes up to `lastApplied` once each, in order,
and a woken caller's own entry is among them. -/
structure Accounted (lastApplied : Nat) (p : Process) : Prop where
  applied : p.applied.map (·.1) = List.range' 1 lastApplied
  woken : ∀ ticket ∈ p.woken, ∃ e, p.calls[ticket]? = some e ∧ (e.index, e) ∈ p.applied

/-- The log holds the entry of the caller that waits at `x`. -/
def Serves (log : Log) (p : Process) (x : Nat × Nat) : Prop :=
  ∃ e k, p.calls[x.2]? = some e ∧ e.index = x.1 ∧ x.1 = k + 1 ∧ log[k]? = some e

theorem Accounted.unique {last index : Nat} {a b : LogEntry} (h : Accounted last p)
    (ha : (index, a) ∈ p.applied) (hb : (index, b) ∈ p.applied) : a = b := by
  have nodup : (p.applied.map (·.1)).Nodup := by
    rw [h.applied]
    exact nodup_range'
  exact congrArg Prod.snd (inj_on_of_nodup_map nodup ha hb rfl)

/-- **The apply loop keeps the account**, when the log holds the entries of the
callers it passes. -/
theorem Accounted.apply (h : Accounted n.lastApplied p)
    (within : n.commitIndex ≤ n.state.log.length)
    (own : ∀ x ∈ n.proposals, x.1 ≤ n.commitIndex → Serves n.state.log p x) :
    Accounted (applyCommittedLocked n).1.lastApplied (p.noteAll (applyCommittedLocked n).2) ∧
      (p.noteAll (applyCommittedLocked n).2).calls = p.calls := by
  rw [applyCommittedLocked_eq within]
  generalize passed : (n.state.log.take n.commitIndex).drop n.lastApplied = entries
  have count : entries.length = n.commitIndex - n.lastApplied := by grind
  obtain ⟨woken, noted, sources⟩ := noteAll_applyRange n entries n.lastApplied p
  simp only [noted]
  refine ⟨⟨?_, ?_⟩, trivial⟩
  · rw [map_append, h.applied, map_fst_zip (by simp)]
    have joined := @List.range'_append 1 n.lastApplied entries.length 1
    rw [Nat.one_mul, Nat.add_comm 1] at joined
    grind [appliedTo]
  · intro ticket mem
    rcases mem_append.mp mem with before | now
    · grind [woken]
    · obtain ⟨x, waits, rfl, lower, upper⟩ := sources ticket now
      obtain ⟨e, k, call, index, pos, at_k⟩ := own x waits (by omega)
      refine ⟨e, call, mem_append_right _ ?_⟩
      -- the caller's entry is the one the walk passes at its index
      rw [mem_iff_getElem?]
      refine ⟨k - n.lastApplied, ?_⟩
      have entry : entries[k - n.lastApplied]? = some e := by
        rw [← passed, getElem?_drop, getElem?_take_of_lt (by omega), ← at_k]
        congr 1
        omega
      have place : (List.range' (n.lastApplied + 1) entries.length)[k - n.lastApplied]? =
          some e.index := by
        rw [getElem?_range' (by omega)]
        congr 1
        omega
      grind

/-- Only a leader has waiting callers, and their entries are in its log, of its term. -/
structure Tends (n : Node) (p : Process) : Prop where
  account : Accounted n.lastApplied p
  leads : ∀ x ∈ n.proposals, n.role = .leader
  serves : ∀ x ∈ n.proposals, Serves n.state.log p x
  own : ∀ x ∈ n.proposals, termAt n.state.log x.1 = n.state.currentTerm

theorem start_silent (selfID : NodeID) (peers : List NodeID) (saved : PersistentState) :
    ∀ e ∈ (Raft.start selfID peers saved).2, e.silent = true := by
  unfold Raft.start
  simp only
  split <;> simp [persistLocked, becomeLeaderLocked, Effect.silent]

theorem Tends.start (selfID : NodeID) (peers : List NodeID) (saved : PersistentState) :
    Tends (Raft.start selfID peers saved).1 .fresh := by
  unfold Raft.start newNode
  simp only
  split <;> exact ⟨⟨rfl, by simp [Process.fresh]⟩, by simp [becomeLeaderLocked],
    by simp [becomeLeaderLocked], by simp [becomeLeaderLocked]⟩

/-- A reaction that applies nothing. -/
structure Rests (n : Node) (r : Node × List Effect) : Prop where
  lastApplied : r.1.lastApplied = n.lastApplied
  proposals : r.1.proposals = n.proposals
  silent : ∀ e ∈ r.2, e.silent = true
  /-- A leader that stays one keeps its log and its term. -/
  kept : n.role = .leader → r.1.role = .leader →
    r.1.state.log = n.state.log ∧ r.1.state.currentTerm = n.state.currentTerm

theorem Tends.rests {r : Node × List Effect} (h : Tends n p) (rests : Rests n r)
    (leader : n.role = .leader → r.1.role = .leader) : Tends r.1 (p.noteAll r.2) := by
  rw [noteAll_silent p rests.silent]
  have kept : ∀ x ∈ r.1.proposals, x ∈ n.proposals ∧ r.1.role = .leader ∧
      r.1.state.log = n.state.log ∧ r.1.state.currentTerm = n.state.currentTerm := by
    intro x mem
    rw [rests.proposals] at mem
    have leads := h.leads x mem
    exact ⟨mem, leader leads, rests.kept leads (leader leads)⟩
  refine ⟨?_, fun x mem => (kept x mem).2.1, ?_, ?_⟩
  · rw [rests.lastApplied]
    simp [account, h]
  · grind [serves]
  · intro x mem
    grind [own]

theorem Tends.applies (h : Tends n p) {index : Nat} (within : index ≤ n.state.log.length) :
    Tends (applyCommittedLocked { n with commitIndex := index }).1
      (p.noteAll (applyCommittedLocked { n with commitIndex := index }).2) := by
  obtain ⟨account, calls⟩ := h.account.apply (n := { n with commitIndex := index }) within
    fun x mem _ => h.serves x mem
  have shape := applyCommittedLocked_eq (n := { n with commitIndex := index }) within
  have fewer : ∀ x ∈ (applyCommittedLocked { n with commitIndex := index }).1.proposals,
      x ∈ n.proposals := by
    rw [shape]
    exact fun x mem => (mem_filter.mp mem).1
  have state : (applyCommittedLocked { n with commitIndex := index }).1.state = n.state := by
    rw [shape]
    rfl
  have role : (applyCommittedLocked { n with commitIndex := index }).1.role = n.role := by
    rw [shape]
    rfl
  refine ⟨account, fun x mem => role.trans (h.leads x (fewer x mem)), fun x mem => ?_,
    fun x mem => ?_⟩
  · rw [state]
    obtain ⟨e, k, call, rest⟩ := h.serves x (fewer x mem)
    exact ⟨e, k, by rw [calls, call], rest⟩
  · grind [own]

theorem Tends.advance (h : Tends n p) :
    Tends (advanceCommitIndexLocked n).1 (p.noteAll (advanceCommitIndexLocked n).2) := by
  unfold advanceCommitIndexLocked
  split
  case isTrue => exact h
  case isFalse =>
    split
    case h_2 => exact h
    case h_1 index found =>
      obtain ⟨-, short, -⟩ := commitCandidate_some le_rfl found
      exact h.applies short

theorem Tends.propose (h : Tends n p) (cmd : Bytes) {ticket : Nat}
    (named : ticket = p.calls.length) :
    Tends (Raft.propose n cmd ticket).1
      ((p.take n (.propose cmd ticket)).noteAll (Raft.propose n cmd ticket).2.1) := by
  unfold Process.take Raft.propose
  split
  case isTrue => exact h
  case isFalse leader =>
    rw [not_not] at leader
    simp only
    rw [noteAll_silent _ (persistLocked_silent _)]
    have older : ∀ {x : Nat × Nat}, x ∈ n.proposals →
        ∃ e k, (p.calls ++ [⟨n.state.currentTerm, n.state.log.length + 1, cmd⟩])[x.2]? = some e ∧
          e.index = x.1 ∧ x.1 = k + 1 ∧ n.state.log[k]? = some e := by
      intro x mem
      obtain ⟨e, k, call, rest⟩ := h.serves x mem
      exact ⟨e, k, getElem?_of_isPre (prefix_append _ _) call, rest⟩
    refine ⟨⟨h.account.applied, ?_⟩, fun _ _ => leader, ?_, ?_⟩
    · intro woken mem
      obtain ⟨e, call, held⟩ := h.account.woken woken mem
      grind
    · intro x mem
      rcases mem_cons.mp mem with rfl | old
      · exact ⟨_, n.state.log.length, by rw [named, getElem?_concat_length], rfl, rfl,
          getElem?_concat_length⟩
      · obtain ⟨e, k, call, index, pos, at_k⟩ := older (mem_filter.mp old).1
        exact ⟨e, k, call, index, pos, getElem?_of_isPre (prefix_append _ _) at_k⟩
    · intro x mem
      rcases mem_cons.mp mem with rfl | old
      · exact termAt_succ getElem?_concat_length
      · have held := (mem_filter.mp old).1
        obtain ⟨e, k, -, -, pos, at_k⟩ := h.serves x held
        have own := h.own x held
        rw [pos, termAt_succ at_k] at own
        grind [termAt_succ]

/-! ## Messages -/

theorem Tends.timeout (h : Tends n p) : Tends (handleElectionTimeout n).1
    (p.noteAll (handleElectionTimeout n).2) := by
  refine h.rests ?_ ?_
  · unfold handleElectionTimeout
    split
    case isTrue => exact ⟨rfl, rfl, by simp, fun _ _ => ⟨rfl, rfl⟩⟩
    case isFalse follows =>
      simp only
      split
      · exact ⟨rfl, rfl, by simp [persistLocked, becomeLeaderLocked, Effect.silent],
          fun leader => absurd leader follows⟩
      · refine ⟨rfl, rfl, ?_, fun leader => absurd leader follows⟩
        grind [persistLocked_silent, sendRaft_silent]
  · grind [handleElectionTimeout]

theorem rests_sendAppendEntriesToAll (n : Node) : Rests n (sendAppendEntriesToAll n) := by
  unfold sendAppendEntriesToAll
  split
  · exact ⟨rfl, rfl, by simp, fun _ _ => ⟨rfl, rfl⟩⟩
  · refine ⟨rfl, rfl, ?_, fun _ _ => ⟨rfl, rfl⟩⟩
    grind [sendRaft_silent]

theorem rests_handleRequestVote (n : Node) (args : RequestVoteArgs) :
    Rests n ((handleRequestVote n args).1, (handleRequestVote n args).2.1) := by
  have silent : ∀ (saved voted sent : List Effect), (∀ e ∈ saved, e.silent = true) →
      (∀ e ∈ voted, e.silent = true) → (∀ e ∈ sent, e.silent = true) →
      ∀ e ∈ saved ++ voted ++ sent, e.silent = true := by
    simp only [mem_append]
    rintro saved voted sent h₁ h₂ h₃ e ((mem | mem) | mem)
    exacts [h₁ e mem, h₂ e mem, h₃ e mem]
  unfold handleRequestVote observeTerm
  by_cases higher : args.term > n.state.currentTerm
  · simp only [higher, if_true]
    split
    · exact ⟨rfl, rfl, silent _ _ _ (persistLocked_silent _) (persistLocked_silent _)
        (sendRaft_silent _ _), fun _ leader => by cases leader⟩
    · exact ⟨rfl, rfl, silent _ _ _ (persistLocked_silent _) (by simp) (sendRaft_silent _ _),
        fun _ leader => by cases leader⟩
  · simp only [higher, if_false]
    split
    · exact ⟨rfl, rfl, silent _ _ _ (by simp) (persistLocked_silent _) (sendRaft_silent _ _),
        fun _ _ => ⟨rfl, rfl⟩⟩
    · exact ⟨rfl, rfl, silent _ _ _ (by simp) (by simp) (sendRaft_silent _ _),
        fun _ _ => ⟨rfl, rfl⟩⟩

theorem rests_handleVoteResponse (n : Node) (sender : NodeID) (reply : RequestVoteReply) :
    Rests n ((handleVoteResponse n sender reply).1, (handleVoteResponse n sender reply).2.1) := by
  unfold handleVoteResponse
  split
  · exact ⟨rfl, rfl, persistLocked_silent _, fun _ leader => by cases leader⟩
  · split
    · exact ⟨rfl, rfl, by simp, fun _ _ => ⟨rfl, rfl⟩⟩
    · rename_i candidate
      have follows : n.role ≠ .leader := by grind
      simp only
      split
      · split
        · have sent := rests_sendAppendEntriesToAll (becomeLeaderLocked
            { n with voteGranted := n.voteGranted.insert sender }).1
          refine ⟨sent.lastApplied, sent.proposals, ?_, fun leader => absurd leader follows⟩
          intro e mem
          rcases mem_append.mp mem with elected | mem
          · simp only [becomeLeaderLocked, mem_singleton] at elected
            rw [elected]
            rfl
          · exact sent.silent e mem
        · exact ⟨rfl, rfl, by simp, fun leader => absurd leader follows⟩
      · exact ⟨rfl, rfl, by simp, fun _ _ => ⟨rfl, rfl⟩⟩

variable {args : AppendEntriesArgs}

theorem noteAll_takeEntries_error {conflict : Nat × Nat} {replyTerm : Nat} (p : Process)
    (refused : appendEntriesFromLeader n.state.log args.prevLogIndex args.prevLogTerm args.entries =
      .error conflict) : p.noteAll (takeEntries n replyTerm args).2 = p := by
  unfold takeEntries
  rw [refused]
  exact noteAll_silent p (respondAppend_silent _ _ _)

/-- Taking over a log keeps the account, when it holds the entries of the callers
that the commit index of the request reaches. -/
theorem Accounted.takeEntries (replyTerm : Nat) (h : Accounted n.lastApplied p)
    (own : ∀ log, appendEntriesFromLeader n.state.log args.prevLogIndex args.prevLogTerm
      args.entries = .ok log → ∀ x ∈ n.proposals, x.1 ≤ args.leaderCommit → x.1 ≤ log.length →
        Serves log p x) :
    Accounted (Raft.takeEntries n replyTerm args).1.lastApplied
      (p.noteAll (Raft.takeEntries n replyTerm args).2) := by
  cases outcome : appendEntriesFromLeader n.state.log args.prevLogIndex args.prevLogTerm
      args.entries with
  | error conflict => simp [takeEntries_error, noteAll_takeEntries_error, h, outcome]
  | ok log =>
    unfold Raft.takeEntries
    rw [outcome]
    simp only [noteAll_append]
    rw [noteAll_silent p (persistLocked_silent _),
      noteAll_silent _ (respondAppend_silent _ _ _)]
    split
    · exact (h.apply (n := { n with
        state := { n.state with log := log }
        commitIndex := min args.leaderCommit log.length }) (Nat.min_le_right _ _)
        fun x mem reached => own log outcome x mem (reached.trans (Nat.min_le_left _ _))
          (reached.trans (Nat.min_le_right _ _))).1
    · exact h

theorem takeEntries_role (n : Node) (replyTerm : Nat) (args : AppendEntriesArgs) :
    (Raft.takeEntries n replyTerm args).1.role = n.role ∧
      (Raft.takeEntries n replyTerm args).1.proposals ⊆ n.proposals := by
  cases outcome : appendEntriesFromLeader n.state.log args.prevLogIndex args.prevLogTerm
      args.entries with
  | error conflict => simp [takeEntries_error, outcome]
  | ok log =>
    rw [takeEntries_ok outcome, adopted_eq]
    split
    · exact ⟨rfl, fun x mem => (mem_filter.mp mem).1⟩
    simp

theorem noteAll_handleAppendEntries (p : Process) (fresh : n.state.currentTerm ≤ args.term) :
    p.noteAll (handleAppendEntries n args).2.1 =
      p.noteAll (Raft.takeEntries (stepDown n args.term args.leaderID true) args.term args).2 := by
  have observed : ∀ e ∈ (observeTerm n args.term args.leaderID true).2, e.silent = true := by
    grind [observeTerm, persistLocked_silent]
  unfold handleAppendEntries
  simp only
  have same : (observeTerm n args.term args.leaderID true).1.state.currentTerm = args.term := by
    unfold observeTerm
    split
    · rfl
    · dsimp only
      omega
  have again : stepDown (observeTerm n args.term args.leaderID true).1 args.term args.leaderID true =
      stepDown n args.term args.leaderID true := by
    unfold observeTerm
    split <;> rfl
  rw [same, if_neg (lt_irrefl _)]
  simp only [noteAll_append]
  rw [noteAll_silent p observed, noteAll_silent p (persistLocked_silent _), again]

theorem Slice.entryAt {G : Log} (slice : Slice G args) {k : Nat} {e : LogEntry}
    (carried : args.entryAt (k + 1) = some e) : G[k]? = some e := by
  unfold AppendEntriesArgs.entryAt at carried
  split at carried
  case isFalse => cases carried
  case isTrue behind =>
    have place := (List.getElem?_eq_some_iff.mp carried).1
    have held : (G.take args.prevLogIndex ++ args.entries)[k]? = some e := by grind [len]
    obtain ⟨lt, eq⟩ := List.getElem?_eq_some_iff.mp held
    rw [prefix_iff_getElem?.mp slice.sent k lt, eq]

/-- **A caller's entry survives the request**, unless the request has an entry of
another term for its index. -/
theorem Slice.serves {F G log : Log} {T : Nat} {x : Nat × Nat} (slice : Slice G args)
    (matching : Matching F G) (held : Serves F p x) (own : termAt F x.1 = T)
    (accepted : appendEntriesFromLeader F args.prevLogIndex args.prevLogTerm args.entries = .ok log)
    (within : x.1 ≤ log.length) (same : ∀ e ∈ args.entryAt x.1, e.term = T) : Serves log p x := by
  obtain ⟨e, k, call, index, pos, at_k⟩ := held
  obtain ⟨short, prev, -⟩ := appendEntriesFromLeader_ok accepted
  rw [pos] at own within same
  rw [termAt_succ at_k] at own
  refine ⟨e, k, call, index, pos, ?_⟩
  cases slice.merged matching accepted with
  | kept => exact at_k
  | replaced =>
    rw [length_take] at within
    rw [getElem?_take_of_lt (by omega)]
    have common : F.take (k + 1) = G.take (k + 1) := by
      by_cases front : k + 1 ≤ args.prevLogIndex
      · have agree := matching.of_termAt short slice.len (prev.trans slice.prev.symm)
        rw [← Nat.min_eq_left front, ← take_take, agree, take_take]
      · have carried : args.entryAt (k + 1) = some args.entries[k - args.prevLogIndex] := by
          unfold AppendEntriesArgs.entryAt
          grind
        exact matching k e _ at_k (slice.entryAt carried) (own.trans (same _ carried).symm)
    grind [getElem?_take_succ]

/-- The event loop's message case: a leader that steps down closes its callers'
channels, so only one that stays has to tend them. -/
theorem tends_onMessage {msg : RaftMessage}
    (account : Accounted (dispatchMsg n msg).1.lastApplied (p.noteAll (dispatchMsg n msg).2.1))
    (idle : n.role ≠ .leader → (dispatchMsg n msg).1.proposals = [])
    (stays : n.role = .leader → (dispatchMsg n msg).1.role = .leader →
      Tends (dispatchMsg n msg).1 (p.noteAll (dispatchMsg n msg).2.1)) :
    Tends (onMessage n msg).1 (p.noteAll (onMessage n msg).2) := by
  unfold onMessage
  simp only
  split
  case isTrue =>
    obtain ⟨closed, noted⟩ :=
      noteAll_closes (p.noteAll (dispatchMsg n msg).2.1) (dispatchMsg n msg).1.proposals
    rw [noteAll_append, noted]
    exact ⟨⟨account.applied, account.woken⟩, by simp, by simp, by simp⟩
  case isFalse keeps =>
    by_cases leader : n.role = .leader
    · grind
    · exact ⟨account, by simp [idle leader], by simp [idle leader], by simp [idle leader]⟩

theorem Tends.idle (h : Tends n p) (follows : n.role ≠ .leader) : n.proposals = [] :=
  eq_nil_iff_forall_not_mem.mpr fun x mem => follows (h.leads x mem)

theorem Tends.onMessage_rests {msg : RaftMessage} (h : Tends n p)
    (rests : Rests n ((dispatchMsg n msg).1, (dispatchMsg n msg).2.1)) :
    Tends (onMessage n msg).1 (p.noteAll (onMessage n msg).2) := by
  refine tends_onMessage ?_ (fun follows => rests.proposals.trans (h.idle follows)) fun _ stays =>
    h.rests rests fun _ => stays
  have account := h.account
  rw [← rests.lastApplied] at account
  rw [noteAll_silent p rests.silent]
  exact account

theorem Tends.appendResponse (h : Tends n p) (sender : NodeID) (reply : AppendEntriesReply) :
    (n.role = .leader ∧ Tends (handleAppendResponse n sender reply).1
        (p.noteAll (handleAppendResponse n sender reply).2.1)) ∨
      Rests n ((handleAppendResponse n sender reply).1, (handleAppendResponse n sender reply).2.1) := by
  unfold handleAppendResponse
  split
  · exact .inr ⟨rfl, rfl, persistLocked_silent _, fun _ leader => by cases leader⟩
  · split
    · exact .inr ⟨rfl, rfl, by simp, fun _ _ => ⟨rfl, rfl⟩⟩
    · rename_i leader
      split
      · exact .inl ⟨not_not.mp leader, Tends.advance (n := { n with
          matchIndex := setKey n.matchIndex sender reply.matchIndex
          nextIndex := setKey n.nextIndex sender (reply.matchIndex + 1) })
          ⟨h.account, h.leads, h.serves, h.own⟩⟩
      · exact .inr ⟨rfl, rfl, by simp, fun _ _ => ⟨rfl, rfl⟩⟩

theorem rests_handleAppendEntries (stale : args.term < n.state.currentTerm) :
    Rests n ((handleAppendEntries n args).1, (handleAppendEntries n args).2.1) := by
  unfold handleAppendEntries observeTerm
  rw [if_neg (show ¬ args.term > n.state.currentTerm by omega)]
  simp only [stale, if_true, nil_append]
  exact ⟨rfl, rfl, respondAppend_silent _ _ _, fun _ _ => ⟨rfl, rfl⟩⟩

/-- A request that is not stale makes a follower, and the callers it wakes are
those whose entries the log still holds. -/
theorem Tends.appendEntries {sender : NodeID} {term : Nat} (h : Tends n p)
    (fresh : n.state.currentTerm ≤ args.term)
    (own : ∀ log, appendEntriesFromLeader n.state.log args.prevLogIndex args.prevLogTerm
      args.entries = .ok log → ∀ x ∈ n.proposals, x.1 ≤ args.leaderCommit → x.1 ≤ log.length →
        Serves log p x) :
    Tends (onMessage n ⟨sender, term, .appendEntries args⟩).1
      (p.noteAll (onMessage n ⟨sender, term, .appendEntries args⟩).2) := by
  have taken := Accounted.takeEntries (n := stepDown n args.term args.leaderID true) args.term
    h.account own
  obtain ⟨role, fewer⟩ :=
    takeEntries_role (stepDown n args.term args.leaderID true) args.term args
  rw [← handleAppendEntries_fresh fresh] at role fewer taken
  rw [← noteAll_handleAppendEntries p fresh] at taken
  refine tends_onMessage taken (fun follows => ?_) fun _ leader => ?_
  · have none : n.proposals = [] := h.idle follows
    exact subset_nil.mp (none ▸ fewer)
  · rw [dispatchMsg, role] at leader
    cases leader

/-! ## Runs -/

section run

variable {C : Cluster} {t t' : Traced} {i : NodeID}

theorem step_world {e : Event} (taken : t.step C e = some t') :
    t.world.step C e = some t'.world := by
  cases e with
  | run i stimulus =>
    rw [Traced.step] at taken
    split at taken
    case isFalse => cases taken
    case isTrue ok =>
      obtain ⟨r, reaction, rfl⟩ := map_eq_some_iff.mp taken
      simp [World.step, ok.1, reaction, Traced.setProcess]
  | crash i stimulus k =>
    obtain ⟨w, stepped, rfl⟩ := map_eq_some_iff.mp taken
    exact stepped

theorem reaches_world {allowed : Traced → Event → Prop}
    (reached : Reaches (Traced.step C) allowed (Traced.init C) t) :
    Reaches (World.step C) (fun _ _ => True) (World.init C) t.world := by
  induction reached with
  | init => exact .init
  | step _ _ taken ih => exact ih.step trivial (step_world taken)

theorem performAll_elected (i : NodeID) (d : Durable) (effects : List Effect) :
    d.elected ⊆ (d.performAll i effects).elected := by
  rw [(performAll_outward i effects d).2]
  exact subset_append_left _ _

theorem elected_step {w w' : World} {e : Event} (taken : w.step C e = some w') :
    w.elected ⊆ w'.elected := by
  cases e with
  | run i stimulus =>
    rw [World.step] at taken
    split at taken
    case isFalse => cases taken
    case isTrue =>
      obtain ⟨r, -, rfl⟩ := map_eq_some_iff.mp taken
      exact performAll_elected i _ _
  | crash i stimulus k =>
    rw [World.step] at taken
    split at taken
    case isFalse => cases taken
    case isTrue =>
      obtain ⟨r, -, rfl⟩ := map_eq_some_iff.mp taken
      exact List.Subset.trans (performAll_elected i _ _) (performAll_elected i _ _)

theorem Tends.react {w : World} {s : Proto} {stimulus : Stimulus} {r : Node × List Effect}
    (h : Tends (w.nodes i) p) (member : i ∈ C.ids) (refines : Refines C w s) (logs : Logs s)
    (named : ∀ cmd ticket, stimulus = .propose cmd ticket → ticket = p.calls.length)
    (commits : CommitsOwn w (.run i stimulus)) (reaction : w.react C i stimulus = some r) :
    Tends r.1 ((p.take (w.nodes i) stimulus).noteAll r.2) := by
  cases stimulus with
  | timeout =>
    cases reaction
    exact h.timeout
  | propose cmd ticket =>
    cases reaction
    simp [propose, h, named]
  | heartbeat =>
    cases reaction
    exact h.rests (rests_sendAppendEntriesToAll _) fun leader => by
      simp [sendAppendEntriesToAll, leader]
  | advance =>
    cases reaction
    exact h.advance
  | start =>
    cases reaction
    rw [noteAll_silent _ (start_silent _ _ _)]
    exact Tends.start ..
  | deliver k =>
    rw [World.react] at reaction
    cases packet : w.sent[k]? with
    | none => simp [packet] at reaction
    | some q =>
      simp only [packet] at reaction
      split at reaction
      case isFalse => cases reaction
      case isTrue dest =>
        cases reaction
        obtain ⟨dest', sender, term, body⟩ := q
        obtain rfl : dest' = i := dest
        cases body with
        | requestVote args => exact h.onMessage_rests (rests_handleRequestVote _ args)
        | voteResponse reply => exact h.onMessage_rests (rests_handleVoteResponse _ sender reply)
        | appendResponse reply =>
          rcases h.appendResponse sender reply with ⟨leader, tends⟩ | rests
          · exact tends_onMessage tends.account (fun follows => absurd leader follows)
              fun _ _ => tends
          · exact h.onMessage_rests rests
        | appendEntries args =>
          by_cases stale : args.term < (w.nodes dest').state.currentTerm
          · exact h.onMessage_rests (rests_handleAppendEntries stale)
          · have informs := informs_of_carried
              (refines.backs.carried _ (mem_of_getElem? packet))
            have slice := logs.append _ _ informs
            have here := refines.node _ member
            have log : (s.party dest').log = (w.nodes dest').state.log := by
              rw [here.party, ofNode_log]
            have matching := logs.matching dest' args.term
            rw [log] at matching
            refine h.appendEntries (by omega) fun log' accepted x mem reached within =>
              slice.serves matching (h.serves x mem) (h.own x mem) accepted within ?_
            intro e carried
            have leader := h.leads x mem
            by_cases higher : args.term > (w.nodes dest').state.currentTerm
            · exact commits _ packet args rfl leader higher x mem reached e carried
            · -- a request of the leader's own term is a piece of its own log
              have term : args.term = (s.party dest').term := by
                rw [here.party, ofNode_term]
                omega
              have own := logs.leader dest' (by rw [here.party, ofNode_role, leader])
              obtain ⟨-, k', -, -, pos, -⟩ := h.serves x mem
              rw [pos] at carried
              have at_k := slice.entryAt carried
              rw [term, ← own, log] at at_k
              have ownTerm := h.own x mem
              grind [termAt_succ]

/-- Every member of the cluster tends its callers. -/
def AllTend (C : Cluster) (t : Traced) : Prop :=
  ∀ i ∈ C.ids, Tends (t.world.nodes i) (t.process i)

theorem allTend_init (C : Cluster) : AllTend C (Traced.init C) := by
  have started : ∀ (ids : List NodeID) (w : World), (∀ j, Tends (w.nodes j) .fresh) →
      ∀ j, Tends ((ids.foldl (fun w i => w.settle i (Raft.start i (C.peers i) (w.disk i))) w).nodes j)
        .fresh := by
    intro ids
    induction ids with
    | nil => exact fun _ h => h
    | cons i ids ih =>
      intro w h
      refine ih _ fun j => ?_
      by_cases own : j = i
      · simp only [World.settle, own, if_true]
        exact Tends.start ..
      · simp only [World.settle, own, if_false]
        exact h j
  exact fun j _ => started C.ids (World.blank C)
    (fun _ => ⟨⟨rfl, by simp [Process.fresh]⟩, by simp [World.blank, newNode],
      by simp [World.blank, newNode], by simp [World.blank, newNode]⟩) j

theorem AllTend.step {e : Event} {s : Proto} (h : AllTend C t) (refines : Refines C t.world s)
    (logs : Logs s) (commits : CommitsOwn t.world e) (taken : t.step C e = some t') :
    AllTend C t' := by
  intro j member
  cases e with
  | run i stimulus =>
    rw [Traced.step] at taken
    split at taken
    case isFalse => cases taken
    case isTrue ok =>
      obtain ⟨r, reaction, rfl⟩ := map_eq_some_iff.mp taken
      by_cases own : j = i
      · subst own
        simp only [Traced.setProcess, World.settle, if_true]
        refine (h j member).react member refines logs ?_ commits reaction
        rintro cmd ticket rfl
        exact ok.2
      · simp only [Traced.setProcess, World.settle, own, if_false]
        exact h j member
  | crash i stimulus k =>
    obtain ⟨w, stepped, rfl⟩ := map_eq_some_iff.mp taken
    rw [World.step] at stepped
    split at stepped
    case isFalse => cases stepped
    case isTrue =>
      obtain ⟨r, -, rfl⟩ := map_eq_some_iff.mp stepped
      by_cases own : j = i
      · subst own
        simp [Traced.setProcess, World.recoverFrom, World.settle, Tends.start]
      · simp only [Traced.setProcess, World.recoverFrom, World.settle, own, if_false]
        exact h j member

theorem allTend_of_reaches
    (reached : Reaches (Traced.step C) (fun t e => CommitsOwn t.world e) (Traced.init C) t)
    (one : t.world.OneLeaderPerTerm) : AllTend C t := by
  induction reached with
  | init => exact allTend_init C
  | step before commits taken ih =>
    have earlier := elected_step (step_world taken)
    have one' := fun i j t hi hj => one i j t (earlier hi) (earlier hj)
    obtain ⟨s, steps, refines⟩ :=
      refines_of_reaches ((reaches_world before).mono fun w e _ => Allowed.any w e)
    obtain ⟨-, logs⟩ := logs_of_steps steps (refines.oneLeader.mpr one')
    exact (ih one').step refines logs commits taken

end run

/-! ## The meaning of a returned index -/

/-- **What `Propose` promises.**  In every run without a second leader in a term, and
in which no deposing request commits a foreign entry at a waited-for index, a call
that returns an index returns that of its own entry, and the process has applied
this entry and no other there. -/
theorem propose_applied {C : Cluster} {t : Traced}
    (reached : Reaches (Traced.step C) (fun t e => CommitsOwn t.world e) (Traced.init C) t)
    (one : t.world.OneLeaderPerTerm) {i : NodeID} (hi : i ∈ C.ids) {ticket index : Nat}
    {cancelled stopped : Bool}
    (returned : .ok index ∈ (t.process i).select ticket cancelled stopped) :
    ∃ e, (t.process i).calls[ticket]? = some e ∧ e.index = index ∧
      ∀ e', (index, e') ∈ (t.process i).applied ↔ e' = e := by
  have tends := allTend_of_reaches reached one i hi
  unfold Process.select at returned
  cases call : (t.process i).calls[ticket]? with
  | none => simp [call] at returned
  | some e =>
    simp only [call] at returned
    by_cases woken : ticket ∈ (t.process i).woken
    · obtain ⟨e', call', held⟩ := tends.account.woken ticket woken
      rw [call, some.injEq] at call'
      subst call'
      have index_eq : index = e.index := by
        rcases cancelled <;> rcases stopped <;>
          by_cases closed : ticket ∈ (t.process i).closed <;> simpa [woken, closed] using returned
      subst index_eq
      exact ⟨e, rfl, rfl, fun e' =>
        ⟨fun applied => tends.account.unique applied held, fun same => same ▸ held⟩⟩
    · exfalso
      rcases cancelled <;> rcases stopped <;>
        by_cases closed : ticket ∈ (t.process i).closed <;> simp [woken, closed] at returned

/-- Node `a` leads term 1 and its caller waits at index 1 while `c` is elected in
term 2 and commits its own command there with `b`; `c`'s next heartbeat reaches `a`. -/
def supersededCall : List Event :=
  oneElection ++ [.run "a" (.propose [1] 0), .run "c" .timeout, .run "c" .timeout,
    .run "b" (.deliver 8), .run "c" (.deliver 9), .run "c" (.propose [2] 0), .run "c" .heartbeat,
    .run "b" (.deliver 13), .run "c" (.deliver 14), .run "c" .heartbeat, .run "a" (.deliver 15)]

/-- **A returned index with another leader's command**: one leader per term, `a`'s
call for `[1]` can return index 1, and what `a` has applied there is `[2]`. -/
theorem propose_superseded : ∃ t,
    Reaches (Traced.step trio) (fun _ _ => True) (Traced.init trio) t ∧
      t.world.OneLeaderPerTerm ∧ .ok 1 ∈ (t.process "a").select 0 false false ∧
      (t.process "a").calls[0]? = some ⟨1, 1, [1]⟩ ∧
      (t.process "a").applied = [(1, ⟨2, 1, [2]⟩)] := by
  refine Reaches.exists_run_of (P := fun t => (t.world.elected.map Prod.snd).Nodup ∧
    t.process "a" = ⟨[(1, ⟨2, 1, [2]⟩)], [⟨1, 1, [1]⟩], [0], []⟩) supersededCall (by decide +kernel) ?_
  rintro t - ⟨elected, process⟩
  exact ⟨oneLeader_of_nodup elected, by rw [process]; decide, by rw [process]; rfl, by rw [process]⟩

/-- The same promise kept: `a` replicates its caller's command to `b` and commits. -/
theorem propose_applied_sample : ∃ t,
    Reaches (Traced.step trio) (fun t e => CommitsOwn t.world e) (Traced.init trio) t ∧
      t.world.OneLeaderPerTerm ∧ .ok 1 ∈ (t.process "a").select 0 false false ∧
      ∃ e, (t.process "a").calls[0]? = some e ∧ e.index = 1 ∧
        ∀ e', (1, e') ∈ (t.process "a").applied ↔ e' = e := by
  refine Reaches.exists_run_of (P := fun t => (t.world.elected.map Prod.snd).Nodup ∧
    .ok 1 ∈ (t.process "a").select 0 false false) oneCommand (by decide +kernel) ?_
  rintro t reached ⟨elected, returned⟩
  have one := oneLeader_of_nodup elected
  exact ⟨one, returned, propose_applied reached one (by decide) returned⟩

end PubsubBroker.Raft
