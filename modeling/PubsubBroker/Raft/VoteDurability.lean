/-
# Raft.VoteDurability — one node, a store that fails, and crashes

`persistLocked` logs a failed `Save` and goes on, `Start` logs a failed `Load` and
goes on from term 0, and both leave promises on the network that the next process
does not know.  This module follows one node through its processes: the state file
apart from the memory, every `Save` and `Load` with its outcome, every message in
the order it is sent, and a crash after any effect.

A broadcast of `Propose` is built under the lock and sent behind it, from the
caller's goroutine, so it waits in an outbox while the event loop goes on.

What holds is one property of every handler: a state is handed to `Save` before any
message speaks for it (`Orderly`).  With that, a run is sound as long as the file
holds what was last saved whenever the memory is lost.
-/
import PubsubBroker.Raft.Machine

namespace PubsubBroker.Raft.Machine

open Theory Raft List Option

/-! ## The state file (store.go) -/

/-- The state file, and the temporary file while it is written. -/
structure Directory where
  file : Option PersistentState
  temp : Option PersistentState

inductive SaveStep where
  | createTemp
  | marshal
  | write
  | sync
  | close
  | rename
deriving DecidableEq

def SaveStep.run (dir : Directory) (state : PersistentState) : SaveStep → Directory
  | .write => { dir with temp := some state }
  | .rename => { file := dir.temp, temp := none }
  | .createTemp | .marshal | .sync | .close => dir

/-- `Save`, with the step that fails.  A failure removes the temporary file. -/
def saveFrom (dir : Directory) (state : PersistentState) (fault : Option SaveStep) :
    List SaveStep → Directory × Bool
  | [] => (dir, true)
  | step :: rest =>
    if fault = some step then ({ dir with temp := none }, false)
    else saveFrom (step.run dir state) state fault rest

def save (dir : Directory) (state : PersistentState) (fault : Option SaveStep) : Directory × Bool :=
  saveFrom dir state fault [.createTemp, .marshal, .write, .sync, .close, .rename]

/-- `Load`: no file is the initial state, a file that cannot be read an error. -/
def load (dir : Directory) (readable : Bool) : Option PersistentState :=
  if readable then some (dir.file.getD .zero) else none

theorem save_failed (dir : Directory) (state : PersistentState) (step : SaveStep) :
    save dir state (some step) = (⟨dir.file, none⟩, false) := by
  cases step <;> rfl

/-! ## The node and what is left of it -/

/-- What survives a process. -/
structure Journal where
  dir : Directory
  /-- The file holds the last state that was to be saved, or the one loaded. -/
  saved : Bool
  sent : List Packet

/-- The effects of a handler, with the outcomes of its calls of `Save` in order. -/
def Journal.perform (j : Journal) : List Effect → List (Option SaveStep) → Journal
  | [], _ => j
  | .save state :: effects, faults =>
    let r := Machine.save j.dir state faults.head?.join
    Journal.perform { j with dir := r.1, saved := r.2 } effects faults.tail
  | .send addr msg :: effects, faults =>
    Journal.perform { j with sent := j.sent ++ [⟨addr, msg⟩] } effects faults
  | _ :: effects, faults => j.perform effects faults

structure Host extends Journal where
  memory : Option Node
  /-- Broadcasts of `Propose` that are built and not yet sent. -/
  outbox : List Packet

/-- What happens to the node.  A crash comes after so many effects of a reaction. -/
inductive Incident where
  | run (input : Input) (faults : List (Option SaveStep))
  | crash (input : Input) (faults : List (Option SaveStep)) (effects : Nat)
  | start (readable : Bool) (faults : List (Option SaveStep))
  | crashStart (readable : Bool) (faults : List (Option SaveStep)) (effects : Nat)
  | broadcast
  | flush (k : Nat)

namespace Host

variable (selfID : NodeID) (peers : List NodeID)

/-- Nothing has run and nothing was saved. -/
def fresh : Host := ⟨⟨⟨none, none⟩, true, []⟩, none, []⟩

/-- The state a process begins with: after a failed `Load`, the zero value. -/
def loaded (h : Host) (readable : Bool) : PersistentState :=
  (load h.dir readable).getD .zero

def begun (h : Host) (readable : Bool) : Journal := { h.toJournal with saved := readable }

def packets (effects : List Effect) : List Packet :=
  effects.filterMap fun e => e.outward.bind Sum.getLeft?

def step (h : Host) : Incident → Option Host
  | .run input faults => h.memory.bind fun n => (react n input).toOption.map fun r =>
    ⟨h.toJournal.perform r.2 faults, some r.1, h.outbox⟩
  | .crash input faults k => h.memory.bind fun n => (react n input).toOption.map fun r =>
    ⟨h.toJournal.perform (r.2.take k) faults, none, []⟩
  | .start readable faults =>
    if h.memory.isSome then none
    else
      let r := Machine.start selfID peers (h.loaded readable)
      some ⟨(h.begun readable).perform r.2 faults, some r.1, []⟩
  | .crashStart readable faults k =>
    if h.memory.isSome then none
    else
      let r := Machine.start selfID peers (h.loaded readable)
      some ⟨(h.begun readable).perform (r.2.take k) faults, none, []⟩
  | .broadcast => h.memory.bind fun n => (sendAppendEntriesToAll n).toOption.map fun r =>
    { h with memory := some r.1, outbox := h.outbox ++ packets r.2 }
  | .flush k => h.outbox[k]?.map fun p =>
    { h with sent := h.sent ++ [p], outbox := h.outbox.eraseIdx k }

end Host

/-! ## What is asked of a run -/

/-- The input is an AppendEntries request. -/
def Input.appends : Input → Bool
  | .message msg _ => msg.body.appendEntries?.isSome
  | _ => false

def Incident.appends : Incident → Bool
  | .run input _ => input.appends
  | .crash input _ _ => input.appends
  | _ => false

/-- The term is below the end of the range, when it is about to be raised. -/
def Input.roomy (n : Node) : Input → Bool
  | .timeout => decide (n.role = .leader) || decide (n.state.currentTerm + 1 < 2 ^ 64)
  | _ => true

/-- The last `Save` of these effects succeeded, or there was none and the file was current. -/
def savedLast (saved : Bool) : List Effect → List (Option SaveStep) → Bool
  | [], _ => saved
  | .save _ :: effects, faults => savedLast faults.head?.join.isNone effects faults.tail
  | _ :: effects, faults => savedLast saved effects faults

/-- **The condition.**  The memory is only lost while the file holds what was last
saved, it is always read back, a delayed broadcast is sent in the term it was built
in, and no term is counted beyond the largest word. -/
def Reliable (selfID : NodeID) (peers : List NodeID) (h : Host) : Incident → Prop
  | .run input _ => ∀ n ∈ h.memory, input.roomy n = true
  | .crash input faults k => ∀ n ∈ h.memory, input.roomy n = true ∧
      ∀ r ∈ (react n input).toOption, savedLast h.saved (r.2.take k) faults = true
  | .start readable _ => readable = true ∧
      (peers = [] → (h.loaded true).currentTerm + 1 < 2 ^ 64)
  | .crashStart readable faults k => readable = true ∧
      (peers = [] → (h.loaded true).currentTerm + 1 < 2 ^ 64) ∧
      savedLast true ((Machine.start selfID peers (h.loaded true)).2.take k) faults = true
  | .broadcast => True
  | .flush k => ∀ p ∈ h.outbox[k]?, ∀ n ∈ h.memory, p.msg.term = n.state.currentTerm

instance (selfID : NodeID) (peers : List NodeID) (h : Host) :
    (e : Incident) → Decidable (Reliable selfID peers h e) := by
  rintro (_ | _) <;> unfold Reliable <;> infer_instance

/-! ## Saved before said -/

/-- The promises in a state: its term, and the vote in it. -/
structure Pledge where
  term : Nat
  vote : NodeID

def pledge (state : PersistentState) : Pledge := ⟨state.currentTerm, state.votedFor⟩

/-- The term in which a packet grants a vote. -/
def grant? (p : Packet) : Option Nat :=
  match p.msg.body with
  | .voteResponse reply => if reply.voteGranted then some reply.term else none
  | _ => none

/-- A later pledge: of a later term, or with a vote where there was none. -/
def Pledge.Extends (a b : Pledge) : Prop :=
  a.term < b.term ∨ (a.term = b.term ∧ (a.vote = "" ∨ a.vote = b.vote))

/-- A packet that speaks for this pledge. -/
structure Pledge.Backs (a : Pledge) (p : Packet) : Prop where
  term : p.msg.term = a.term
  addr : p.dest ≠ ""
  vote : ∀ T ∈ grant? p, T = a.term ∧ a.vote = p.dest

/-- The effects of a handler, from one pledge to another: every pledge is handed to
`Save` when it is made, and a packet speaks for the last one saved. -/
def Orderly : Pledge → List Effect → Pledge → Prop
  | a, [], b => a = b
  | a, .save state :: effects, b => a.Extends (pledge state) ∧ Orderly (pledge state) effects b
  | a, .send addr msg :: effects, b => a.Backs ⟨addr, msg⟩ ∧ Orderly a effects b
  | a, _ :: effects, b => Orderly a effects b

namespace Orderly

variable {a b c : Pledge}

theorem append {first second : List Effect} (left : Orderly a first b) (right : Orderly b second c) :
    Orderly a (first ++ second) c := by
  induction first generalizing a with
  | nil =>
    obtain rfl : a = b := left
    exact right
  | cons e first ih =>
    cases e with
    | save | send => exact ⟨left.1, ih left.2⟩
    | _ => exact ih left

theorem take {effects : List Effect} (whole : Orderly a effects b) (k : Nat) :
    ∃ c, Orderly a (effects.take k) c := by
  induction effects generalizing a k with
  | nil => exact ⟨a, by rw [take_nil]; rfl⟩
  | cons e effects ih =>
    rcases k with _ | k
    · exact ⟨a, rfl⟩
    · cases e with
      | save | send =>
        obtain ⟨c, rest⟩ := ih whole.2 k
        exact ⟨c, whole.1, rest⟩
      | _ => exact ih whole k

theorem send {peer : NodeID} {msg : RaftMessage} (backs : peer ≠ "" → a.Backs ⟨peer, msg⟩) :
    Orderly a (sendRaft peer msg) a := by
  unfold sendRaft
  split
  · rename_i addr
    exact ⟨backs addr, rfl⟩
  · rfl

theorem sends {α : Type} {dest : α → NodeID} {msg : α → RaftMessage}
    (backs : ∀ x, dest x ≠ "" → a.Backs ⟨dest x, msg x⟩) :
    ∀ l : List α, Orderly a (l.flatMap fun x => sendRaft (dest x) (msg x)) a
  | [] => rfl
  | x :: l => by
    rw [flatMap_cons]
    exact (send (backs x)).append (sends backs l)

theorem quiet {effects : List Effect}
    (none : ∀ e ∈ effects, (∃ i x, e = .apply i x) ∨ ∃ ticket, e = .signal ticket ∨ e = .close ticket) :
    Orderly a effects a := by
  induction effects with
  | nil => rfl
  | cons e effects ih =>
    obtain ⟨here, rest⟩ := forall_mem_cons.mp none
    rcases here with ⟨i, x, rfl⟩ | ⟨ticket, rfl | rfl⟩ <;> exact ih rest

end Orderly

/-! ## The handlers are orderly -/

section handlers

variable {n : Node}

theorem bind_eq_ok {α β : Type} {x : Checked α} {f : α → Checked β} {b : β}
    (run : x >>= f = .ok b) : ∃ a, x = .ok a ∧ f a = .ok b := by
  cases x with
  | error fault => cases run
  | ok a => exact ⟨a, rfl, run⟩

theorem ok_of_toOption {α : Type} {x : Checked α} {a : α} (some : x.toOption = some a) :
    x = .ok a := by
  cases x with
  | error fault => cases some
  | ok b =>
    cases some
    rfl

theorem Pledge.extends_self (a : Pledge) : a.Extends a := .inr ⟨rfl, .inr rfl⟩

theorem applyLoop_quiet : ∀ (k : Nat) {n : Node} {r : Node × List Effect}, applyLoop k n = .ok r →
    r.1.state = n.state ∧ Orderly (pledge n.state) r.2 (pledge n.state)
  | 0, n, r, run => by
    cases run
    exact ⟨rfl, rfl⟩
  | k + 1, n, r, run => by
    obtain ⟨entry, -, rest⟩ := bind_eq_ok run
    obtain ⟨later, walked, done⟩ := bind_eq_ok rest
    cases done
    obtain ⟨state, orderly⟩ := applyLoop_quiet k walked
    refine ⟨state, Orderly.append (Orderly.quiet ?_) orderly⟩
    simp

variable {r : Node × List Effect}

theorem orderly_advance (run : advanceCommitIndexLocked n = .ok r) :
    r.1.state = n.state ∧ Orderly (pledge n.state) r.2 (pledge n.state) := by
  unfold advanceCommitIndexLocked at run
  split at run
  · cases run
    exact ⟨rfl, rfl⟩
  · obtain ⟨found, -, rest⟩ := bind_eq_ok run
    cases found with
    | none =>
      cases rest
      exact ⟨rfl, rfl⟩
    | some index => exact applyLoop_quiet _ (n := { n with commitIndex := index }) rest

theorem orderly_sendAppendEntriesToAll (run : sendAppendEntriesToAll n = .ok r) :
    r.1.state = n.state ∧ Orderly (pledge n.state) r.2 (pledge n.state) := by
  unfold sendAppendEntriesToAll at run
  split at run
  · cases run
    exact ⟨rfl, rfl⟩
  · obtain ⟨requests, -, rest⟩ := bind_eq_ok run
    cases rest
    refine ⟨rfl, Orderly.sends ?_ requests⟩
    exact fun x addr => ⟨rfl, addr, by simp [grant?]⟩

theorem orderly_timeout (roomy : Input.roomy n .timeout = true)
    (run : handleElectionTimeout n = .ok r) : Orderly (pledge n.state) r.2 (pledge r.1.state) := by
  unfold handleElectionTimeout at run
  split at run
  · cases run
    rfl
  · rename_i follows
    have small : n.state.currentTerm + 1 < 2 ^ 64 := by simpa [Input.roomy, follows] using roomy
    have later : (pledge n.state).Extends (pledge (becomeCandidate n).state) := by
      refine .inl ?_
      grind [pledge, becomeCandidate, word_of_lt]
    simp only at run
    split at run
    · cases run
      exact ⟨later, rfl⟩
    · obtain ⟨last, -, rest⟩ := bind_eq_ok run
      cases rest
      refine Orderly.append (b := pledge (becomeCandidate n).state) ⟨later, rfl⟩ ?_
      refine Orderly.sends ?_ (becomeCandidate n).peers
      exact fun x addr => ⟨rfl, addr, by simp [grant?]⟩

theorem orderly_observeTerm (n : Node) (term : Nat) (leaderID : NodeID) (known : Bool) :
    Orderly (pledge n.state) (observeTerm n term leaderID known).2
      (pledge (observeTerm n term leaderID known).1.state) := by
  unfold observeTerm
  split
  · rename_i higher
    exact ⟨.inl higher, rfl⟩
  · rfl

theorem orderly_requestVote {args : RequestVoteArgs} {r : Node × List Effect × Bool}
    (run : handleRequestVote n args = .ok r) :
    Orderly (pledge n.state) r.2.1 (pledge r.1.state) := by
  have first := orderly_observeTerm n args.term "" false
  unfold handleRequestVote at run
  generalize observeTerm n args.term "" false = m at first run
  simp only [grantsVote_eq, bind_ok] at run
  cases granted : Raft.grantsVote m.1 args with
  | false =>
    simp only [granted, Bool.false_eq_true, if_false, append_nil] at run
    cases run
    refine first.append (Orderly.send fun addr => ⟨rfl, addr, ?_⟩)
    simp [grant?]
  | true =>
    simp only [granted, if_true] at run
    cases run
    have free : m.1.state.votedFor = "" ∨ m.1.state.votedFor = args.candidateID := by
      simp only [Raft.grantsVote, Bool.and_eq_true, Bool.or_eq_true, decide_eq_true_eq] at granted
      exact granted.1.2
    have saved : Orderly (pledge m.1.state)
        (persistLocked { m.1 with state := { m.1.state with votedFor := args.candidateID } })
        ⟨m.1.state.currentTerm, args.candidateID⟩ := ⟨.inr ⟨rfl, free⟩, rfl⟩
    refine (first.append saved).append (Orderly.send fun addr => ⟨rfl, addr, ?_⟩)
    simp [grant?]

theorem orderly_voteResponse {sender : NodeID} {reply : RequestVoteReply}
    {r : Node × List Effect × Bool} (run : handleVoteResponse n sender reply = .ok r) :
    Orderly (pledge n.state) r.2.1 (pledge r.1.state) := by
  unfold handleVoteResponse at run
  split at run
  · rename_i higher
    cases run
    exact ⟨.inl higher, rfl⟩
  · split at run
    · cases run
      rfl
    · split at run
      · simp only at run
        split at run
        · obtain ⟨sent, broadcast, rest⟩ := bind_eq_ok run
          cases rest
          obtain ⟨state, orderly⟩ := orderly_sendAppendEntriesToAll broadcast
          simp only [state]
          exact orderly
        · cases run
          rfl
      · cases run
        rfl

theorem orderly_appendResponse {sender : NodeID} {reply : AppendEntriesReply}
    {r : Node × List Effect × Bool} (run : handleAppendResponse n sender reply = .ok r) :
    Orderly (pledge n.state) r.2.1 (pledge r.1.state) := by
  unfold handleAppendResponse at run
  split at run
  · rename_i higher
    cases run
    exact ⟨.inl higher, rfl⟩
  · split at run
    · cases run
      rfl
    · split at run
      · obtain ⟨advanced, done, rest⟩ := bind_eq_ok run
        cases rest
        obtain ⟨state, orderly⟩ := orderly_advance done
        simp [state, orderly]
      · split at run
        · obtain ⟨next, -, rest⟩ := bind_eq_ok run
          cases rest
          rfl
        · cases run
          rfl

theorem orderly_propose {cmd : Bytes} {ticket : Nat} (run : propose n cmd ticket = .ok r) :
    Orderly (pledge n.state) r.2 (pledge r.1.state) := by
  unfold propose at run
  split at run
  · cases run
    rfl
  · obtain ⟨log, -, rest⟩ := bind_eq_ok run
    cases rest
    exact ⟨Pledge.extends_self _, rfl⟩

theorem orderly_message {msg : RaftMessage} (other : msg.body.appendEntries? = none)
    (run : onMessage n msg = .ok r) : Orderly (pledge n.state) r.2 (pledge r.1.state) := by
  obtain ⟨d, dispatched, rest⟩ := bind_eq_ok run
  cases rest
  have handled : Orderly (pledge n.state) d.2.1 (pledge d.1.state) := by
    obtain ⟨sender, term, body⟩ := msg
    cases body with
    | requestVote args => exact orderly_requestVote dispatched
    | voteResponse reply => exact orderly_voteResponse dispatched
    | appendEntries args => cases other
    | appendResponse reply => exact orderly_appendResponse dispatched
  simp only [afterDispatch]
  split
  · grind [Orderly.append, Orderly.quiet]
  · exact handled

/-- **Every handler but one saves before it speaks.** -/
theorem orderly_react {input : Input} (other : input.appends = false) (roomy : input.roomy n = true)
    (run : react n input = .ok r) : Orderly (pledge n.state) r.2 (pledge r.1.state) := by
  cases input with
  | timeout => exact orderly_timeout roomy run
  | tick =>
    obtain ⟨state, orderly⟩ := orderly_sendAppendEntriesToAll run
    rw [state]
    exact orderly
  | propose cmd ticket => exact orderly_propose run
  | advance =>
    obtain ⟨state, orderly⟩ := orderly_advance run
    rw [state]
    exact orderly
  | message msg fits => exact orderly_message (by simpa [Input.appends] using other) run

theorem orderly_start {selfID : NodeID} {peers : List NodeID} {state : PersistentState}
    (roomy : peers = [] → state.currentTerm + 1 < 2 ^ 64) :
    Orderly (pledge state) (Machine.start selfID peers state).2
      (pledge (Machine.start selfID peers state).1.state) := by
  unfold Machine.start
  simp only
  split
  · rename_i alone
    refine ⟨.inl ?_, rfl⟩
    simp only [pledge, word_of_lt (roomy alone)]
    omega
  · rfl

end handlers

/-! ## The invariant -/

/-- Messages go out in the order of their terms, and a term has one vote. -/
structure Faithful (sent : List Packet) : Prop where
  terms : sent.Pairwise fun p q => p.msg.term ≤ q.msg.term
  votes : ∀ p ∈ sent, ∀ q ∈ sent, ∀ T ∈ grant? p, T ∈ grant? q → p.dest = q.dest

/-- The pledge covers everything that was sent. -/
structure Pledge.Covers (a : Pledge) (sent : List Packet) : Prop where
  bound : ∀ p ∈ sent, p.msg.term ≤ a.term
  votes : ∀ p ∈ sent, ∀ T ∈ grant? p, T ≤ a.term ∧ p.dest ≠ "" ∧ (T = a.term → a.vote = p.dest)

section invariant

variable {a b : Pledge} {sent : List Packet} {p : Packet}

theorem Pledge.Covers.extend (covers : a.Covers sent) (later : a.Extends b) : b.Covers sent where
  bound := by
    intro p mem
    have old := covers.bound p mem
    rcases later with more | ⟨same, -⟩ <;> omega
  votes := by
    intro p mem T granted
    obtain ⟨le, addr, vote⟩ := covers.votes p mem T granted
    rcases later with more | ⟨same, kept⟩
    · simp [addr]; omega
    grind

theorem Pledge.Covers.send (covers : a.Covers sent) (backs : a.Backs p) : a.Covers (sent ++ [p]) where
  bound := by
    rw [forall_mem_append]
    grind [bound, Backs.term]
  votes := by
    rw [forall_mem_append]
    refine ⟨covers.votes, ?_⟩
    intro q mem T granted
    obtain rfl := mem_singleton.mp mem
    obtain ⟨eq, vote⟩ := backs.vote T granted
    exact ⟨by omega, backs.addr, fun _ => vote⟩

theorem Faithful.send (faithful : Faithful sent) (covers : a.Covers sent) (backs : a.Backs p) :
    Faithful (sent ++ [p]) where
  terms := by
    rw [pairwise_append]
    refine ⟨faithful.terms, pairwise_singleton _ _, fun q mem p' here => ?_⟩
    obtain rfl := mem_singleton.mp here
    rw [backs.term]
    exact covers.bound q mem
  votes := by
    have meets : ∀ q ∈ sent, ∀ T ∈ grant? q, T ∈ grant? p → q.dest = p.dest := by
      intro q mem T early late
      obtain ⟨term, vote⟩ := backs.vote T late
      exact ((covers.votes q mem T early).2.2 term).symm.trans vote
    grind [votes]

/-- The journal under a pledge: what was sent is covered, and the file holds the
pledge unless the last `Save` failed. -/
structure Journal.Under (a : Pledge) (j : Journal) : Prop where
  faithful : Faithful j.sent
  covers : a.Covers j.sent
  file : j.saved = true → pledge (j.dir.file.getD .zero) = a

/-- **Orderly effects keep the journal under its pledge**, whichever saves fail. -/
theorem under_perform : ∀ (effects : List Effect) {a : Pledge} (j : Journal)
    (faults : List (Option SaveStep)), j.Under a → Orderly a effects b →
      (j.perform effects faults).Under b
  | [], a, j, _, under, orderly => by
    obtain rfl : a = b := orderly
    exact under
  | .save state :: effects, a, j, faults, under, orderly => by
    rw [Journal.perform]
    refine under_perform effects _ _ ⟨under.faithful, under.covers.extend orderly.1, ?_⟩ orderly.2
    cases faults.head?.join with
    | none => exact fun _ => rfl
    | some step =>
      rw [save_failed]
      nofun
  | .send addr msg :: effects, a, j, faults, under, orderly => by
    rw [Journal.perform]
    exact under_perform effects _ _ ⟨under.faithful.send under.covers orderly.1,
      under.covers.send orderly.1, under.file⟩ orderly.2
  | .becameLeader _ :: effects, _, j, faults, under, orderly
  | .apply _ _ :: effects, _, j, faults, under, orderly
  | .signal _ :: effects, _, j, faults, under, orderly
  | .close _ :: effects, _, j, faults, under, orderly => under_perform effects j faults under orderly

theorem perform_saved : ∀ (effects : List Effect) (j : Journal) (faults : List (Option SaveStep)),
    (j.perform effects faults).saved = savedLast j.saved effects faults
  | [], _, _ => rfl
  | .save state :: effects, j, faults => by
    rw [Journal.perform, perform_saved effects, savedLast]
    cases faults.head?.join with
    | none => rfl
    | some step => rw [save_failed]; rfl
  | .send _ _ :: effects, j, faults => perform_saved effects _ faults
  | .becameLeader _ :: effects, j, faults
  | .apply _ _ :: effects, j, faults
  | .signal _ :: effects, j, faults
  | .close _ :: effects, j, faults => perform_saved effects j faults

end invariant

/-! ## Runs -/

/-- The packets a broadcast waits with. -/
def Idle (p : Packet) : Prop := p.dest ≠ "" ∧ grant? p = none

theorem idle_broadcast {n : Node} {r : Node × List Effect}
    (run : sendAppendEntriesToAll n = .ok r) : ∀ p ∈ Host.packets r.2, Idle p := by
  unfold sendAppendEntriesToAll at run
  split at run
  · cases run
    simp [Host.packets]
  · obtain ⟨requests, -, rest⟩ := bind_eq_ok run
    cases rest
    intro p mem
    obtain ⟨e, sent, packet⟩ := mem_filterMap.mp mem
    obtain ⟨x, -, here⟩ := mem_flatMap.mp sent
    unfold sendRaft at here
    split at here
    · rename_i addr
      obtain rfl := mem_singleton.mp here
      cases packet
      exact ⟨addr, rfl⟩
    · cases here

/-- A running node's memory, or a stopped node's file, carries the pledge. -/
structure Host.Sound (h : Host) : Prop where
  up : ∀ n ∈ h.memory, h.toJournal.Under (pledge n.state)
  down : h.memory = none → h.toJournal.Under (pledge (h.dir.file.getD .zero))
  stopped : h.memory = none → h.outbox = []
  outbox : ∀ p ∈ h.outbox, Idle p

section run

variable {selfID : NodeID} {peers : List NodeID} {h h' : Host}

theorem sound_fresh : Host.fresh.Sound where
  up := by simp [Host.fresh]
  down := fun _ => ⟨⟨.nil, by simp [Host.fresh]⟩, ⟨by simp [Host.fresh], by simp [Host.fresh]⟩,
    fun _ => rfl⟩
  stopped := fun _ => rfl
  outbox := by simp [Host.fresh]

theorem sound_crash {j : Journal} {a b : Pledge} {effects : List Effect}
    {faults : List (Option SaveStep)} (under : j.Under a) (orderly : Orderly a effects b) (k : Nat)
    (saved : savedLast j.saved (effects.take k) faults = true) :
    Host.Sound ⟨j.perform (effects.take k) faults, none, []⟩ := by
  obtain ⟨c, part⟩ := orderly.take k
  have after := under_perform _ j faults under part
  have file := after.file (by rw [perform_saved, saved])
  exact ⟨by simp, fun _ => file ▸ after, fun _ => rfl, by simp⟩

theorem sound_up {j : Journal} {n : Node} {outbox : List Packet} (under : j.Under (pledge n.state))
    (idle : ∀ p ∈ outbox, Idle p) : Host.Sound ⟨j, some n, outbox⟩ :=
  ⟨by simpa using under, by simp, by simp, idle⟩

theorem Host.Sound.begun (sound : h.Sound) (stopped : h.memory.isSome = false) :
    (h.begun true).Under (pledge (h.loaded true)) := by
  have under := sound.down (by simpa using stopped)
  exact ⟨under.faithful, under.covers, fun _ => rfl⟩

theorem Host.Sound.step {e : Incident} (sound : h.Sound) (other : e.appends = false)
    (reliable : Reliable selfID peers h e) (taken : h.step selfID peers e = some h') : h'.Sound := by
  cases e with
  | run input faults =>
    obtain ⟨n, running, rest⟩ := bind_eq_some_iff.mp taken
    obtain ⟨r, reacted, rfl⟩ := map_eq_some_iff.mp rest
    have orderly := orderly_react other (reliable n running) (ok_of_toOption reacted)
    exact sound_up (under_perform _ _ faults (sound.up n running) orderly) sound.outbox
  | crash input faults k =>
    obtain ⟨n, running, rest⟩ := bind_eq_some_iff.mp taken
    obtain ⟨r, reacted, rfl⟩ := map_eq_some_iff.mp rest
    obtain ⟨roomy, saved⟩ := reliable n running
    have orderly := orderly_react other roomy (ok_of_toOption reacted)
    exact sound_crash (sound.up n running) orderly k (saved r reacted)
  | start readable faults =>
    obtain ⟨rfl, roomy⟩ := reliable
    grind [step, sound_up, under_perform, begun, orderly_start]
  | crashStart readable faults k =>
    obtain ⟨rfl, roomy, saved⟩ := reliable
    rw [Host.step] at taken
    split at taken
    case isTrue => cases taken
    case isFalse stopped =>
      cases taken
      exact sound_crash (sound.begun (by simpa using stopped)) (orderly_start roomy) k saved
  | broadcast =>
    obtain ⟨n, running, rest⟩ := bind_eq_some_iff.mp taken
    obtain ⟨r, built, rfl⟩ := map_eq_some_iff.mp rest
    have built := ok_of_toOption built
    obtain ⟨state, -⟩ := orderly_sendAppendEntriesToAll built
    grind [sound_up, up, outbox, idle_broadcast]
  | flush k =>
    obtain ⟨p, waiting, rfl⟩ := map_eq_some_iff.mp taken
    have mem := mem_of_getElem? waiting
    obtain ⟨addr, plain⟩ := sound.outbox p mem
    have remaining : ∀ q ∈ h.outbox.eraseIdx k, Idle q := fun q mem =>
      sound.outbox q (mem_of_mem_eraseIdx mem)
    cases running : h.memory with
    | none => grind [stopped]
    | some n =>
      have under := sound.up n running
      have backs : (pledge n.state).Backs p :=
        ⟨reliable p waiting n running, addr, by simp [plain]⟩
      exact sound_up ⟨under.faithful.send under.covers backs, under.covers.send backs,
        under.file⟩ remaining

end run

/-- **A node keeps its word.**  In every run of one node that receives no
AppendEntries and in which the file is current whenever the memory is lost and always
read back, delayed broadcasts are sent in their term and no term passes the largest
word: the terms of the messages never fall and no term sees votes for two candidates. -/
theorem votes_durable {selfID : NodeID} {peers : List NodeID} {h : Host}
    (reached : Reaches (Host.step selfID peers)
      (fun h e => e.appends = false ∧ Reliable selfID peers h e) Host.fresh h) :
    Faithful h.sent := by
  have sound : h.Sound := by
    induction reached with
    | init => exact sound_fresh
    | step _ ok taken ih => exact ih.step ok.1 ok.2 taken
  cases running : h.memory with
  | none => exact (sound.down running).faithful
  | some n => exact (sound.up n running).faithful

/-! ## Schedules -/

/-- A request for a vote in term 1 from a candidate with an empty log. -/
def askVote (candidate : NodeID) : Input :=
  .message ⟨candidate, 1, .requestVote ⟨1, candidate, 0, 0⟩⟩ (by simp [Body.appendEntries?])

/-- The `Save` of the vote for `b` fails, the vote is sent, the process ends and the
next one is asked by `c` in the same term. -/
def lostVote : List Incident :=
  [.start true [], .run (askVote "b") [none, some .sync], .crash .advance [] 0, .start true [],
    .run (askVote "c") []]

/-- **Two votes in one term** behind one failed `Save`. -/
theorem votes_lost : ∃ h,
    Reaches (Host.step "a" ["b", "c"]) (fun _ e => e.appends = false) Host.fresh h ∧
      ⟨"b", ⟨"a", 1, .voteResponse ⟨1, true⟩⟩⟩ ∈ h.sent ∧
      ⟨"c", ⟨"a", 1, .voteResponse ⟨1, true⟩⟩⟩ ∈ h.sent ∧ ¬ Faithful h.sent := by
  refine Reaches.exists_run_of (P := fun h => ⟨"b", ⟨"a", 1, .voteResponse ⟨1, true⟩⟩⟩ ∈ h.sent ∧
    ⟨"c", ⟨"a", 1, .voteResponse ⟨1, true⟩⟩⟩ ∈ h.sent) lostVote (by decide +kernel) ?_
  rintro h - ⟨first, second⟩
  exact ⟨first, second, fun faithful =>
    absurd (faithful.votes _ first _ second 1 rfl rfl) (by decide)⟩

/-- A leader's caller builds its broadcast in term 1 and is overtaken by the answer
to a request of term 2. -/
def overtakenBroadcast : List Incident :=
  [.start true [], .run .timeout [],
    .run (.message ⟨"b", 1, .voteResponse ⟨1, true⟩⟩ (by simp [Body.appendEntries?])) [],
    .run (.propose [1] 0) [], .broadcast,
    .run (.message ⟨"c", 2, .requestVote ⟨2, "c", 5, 1⟩⟩ (by simp [Body.appendEntries?])) [],
    .flush 0]

-- no `Save` fails here, and the last message is of an earlier term than the one before it
example : (runAll (Host.step "a" ["b", "c"]) (fun _ e => e.appends = false) Host.fresh
    overtakenBroadcast).map (fun h => h.sent.map (·.msg.term)) = some [1, 1, 1, 1, 2, 1] := by
  decide +kernel

/-- The same questions with a disk that works. -/
def keptVote : List Incident :=
  [.start true [], .run (askVote "b") [], .crash .advance [] 0, .start true [],
    .run (askVote "c") []]

theorem votes_durable_sample : ∃ h,
    Reaches (Host.step "a" ["b", "c"])
      (fun h e => e.appends = false ∧ Reliable "a" ["b", "c"] h e) Host.fresh h ∧
      h.sent = [⟨"b", ⟨"a", 1, .voteResponse ⟨1, true⟩⟩⟩,
        ⟨"c", ⟨"a", 1, .voteResponse ⟨1, false⟩⟩⟩] ∧ Faithful h.sent :=
  Reaches.exists_run_of (P := fun h => h.sent = [⟨"b", ⟨"a", 1, .voteResponse ⟨1, true⟩⟩⟩,
    ⟨"c", ⟨"a", 1, .voteResponse ⟨1, false⟩⟩⟩]) keptVote (by decide +kernel)
    fun _ reached sent => ⟨sent, votes_durable reached⟩

end PubsubBroker.Raft.Machine
