/-
# Raft.Wiring — the Raft node inside a cluster node

`internal/cluster/node.go` with consensus algorithm "raft".  `NewNode` computes the
Raft peers from a membership that holds the node itself and nothing else; joins,
join acknowledgements and member syncs fill the membership later and never reach
the Raft node.  So every Raft node has no peers (`alone`), leads as soon as it is
started, and sends nothing (`quiet`): what decides whether two of them lead in one
term is only what their disks hold when they start.

A packet is addressed to a listener address and stays in the network; delivery is
possible at any time after that, any number of times.  The broker makes no
proposals through the cluster node, so a Raft node acts on timeouts, heartbeats
and messages.
-/
import PubsubBroker.Raft.Cluster

namespace PubsubBroker.Raft.Wiring

open Theory List Option

/-! ## Membership -/

structure Member where
  nodeID : NodeID
  addr : String

/-- The registry of a node, one member for each node id. -/
abbrev Membership := List Member

def Membership.add (ms : Membership) (m : Member) : Membership :=
  m :: ms.filter fun m' => m'.nodeID ≠ m.nodeID

/-- Removing the node itself does nothing. -/
def Membership.remove (ms : Membership) (self nodeID : NodeID) : Membership :=
  if nodeID = self then ms else ms.filter fun m => m.nodeID ≠ nodeID

def Membership.others (ms : Membership) (nodeID : NodeID) : List Member :=
  ms.filter fun m => m.nodeID ≠ nodeID

/-! ## The cluster node -/

/-- The configuration `NewNode` reads. -/
structure Config where
  nodeID : NodeID
  bindAddr : String
  seeds : List String

/-- A cluster node.  `running` is the dispatch loop and the Raft event loop. -/
structure Process where
  self : Member
  seeds : List String
  membership : Membership
  raft : Node
  running : Bool

inductive ClusterMsg where
  | join (joiner : Member)
  | joinAck (members : List Member)
  | metaSync (member : Member)
  | leave (nodeID : NodeID)
  | raft (msg : RaftMessage)

structure Envelope where
  addr : String
  msg : ClusterMsg

/-- `NewNode`; the peers are the members known at this moment. -/
def newProcess (cfg : Config) : Process :=
  let self : Member := ⟨cfg.nodeID, cfg.bindAddr⟩
  let membership : Membership := [self]
  { self := self
    seeds := cfg.seeds
    membership := membership
    raft := newNode cfg.nodeID ((membership.others self.nodeID).map Member.nodeID)
    running := false }

/-- The joins that `Start` sends. -/
def Process.joins (p : Process) : List Envelope :=
  (p.seeds.filter fun seed => seed ≠ p.self.addr).map fun seed => ⟨seed, .join p.self⟩

/-- `Start`, with the state that was loaded. -/
def Process.start (p : Process) (saved : PersistentState) : Process × List Effect :=
  ({ p with raft := (Raft.start p.self.nodeID p.raft.peers saved).1, running := true },
    (Raft.start p.self.nodeID p.raft.peers saved).2)

/-- `handleJoin`: answer with the members, and tell the others. -/
def Process.handleJoin (p : Process) (joiner : Member) : Process × List Envelope :=
  let membership := p.membership.add joiner
  ({ p with membership := membership },
    ⟨joiner.addr, .joinAck membership⟩ ::
      ((membership.others p.self.nodeID).filter fun m => m.nodeID ≠ joiner.nodeID).map
        fun m => ⟨m.addr, .metaSync joiner⟩)

/-- `dispatch`: the node, what it sends, and the effects of its Raft node. -/
def Process.dispatch (p : Process) : ClusterMsg → Process × List Envelope × List Effect
  | .join joiner => ((p.handleJoin joiner).1, (p.handleJoin joiner).2, [])
  | .joinAck members => ({ p with membership := members.foldl Membership.add p.membership }, [], [])
  | .metaSync member => ({ p with membership := p.membership.add member }, [], [])
  | .leave nodeID => ({ p with membership := p.membership.remove p.self.nodeID nodeID }, [], [])
  | .raft msg => ({ p with raft := (onMessage p.raft msg).1 }, [], (onMessage p.raft msg).2)

/-! ## The cluster -/

/-- The processes, their disks, and everything ever sent. -/
structure World where
  processes : NodeID → Option Process
  disk : NodeID → PersistentState
  sent : List Envelope

/-- No process runs yet; the disks may hold the state of earlier runs. -/
def World.init (disk : NodeID → PersistentState) : World := ⟨fun _ => none, disk, []⟩

inductive Event where
  | new (cfg : Config)
  | start (i : NodeID) (loaded : Bool)
  | deliver (i : NodeID) (k : Nat)
  | timeout (i : NodeID)
  | heartbeat (i : NodeID)
  | stop (i : NodeID)

def packets (effects : List Effect) : List Envelope :=
  effects.filterMap fun
    | .send addr msg => some ⟨addr, .raft msg⟩
    | _ => none

/-- The last state saved, or the old one. -/
def saved (old : PersistentState) (effects : List Effect) : PersistentState :=
  effects.foldl (fun state effect =>
    match effect with
    | .save new => new
    | _ => state) old

/-- Process `i` after a reaction. -/
def World.settle (w : World) (i : NodeID) (p : Process) (envelopes : List Envelope)
    (effects : List Effect) : World where
  processes := Function.update w.processes i (some p)
  disk := Function.update w.disk i (saved (w.disk i) effects)
  sent := w.sent ++ (envelopes ++ packets effects)

/-- What `Start` finds; a state that cannot be loaded is the empty one. -/
def World.stored (w : World) (i : NodeID) (loaded : Bool) : PersistentState :=
  if loaded then w.disk i else .zero

/-- A reaction of a running process. -/
def World.react (w : World) (i : NodeID)
    (f : Process → Option (Process × List Envelope × List Effect)) : Option World :=
  match w.processes i with
  | none => none
  | some p =>
    if p.running then (f p).map fun r => w.settle i r.1 r.2.1 r.2.2 else none

def World.step (w : World) : Event → Option World
  | .new cfg =>
    if cfg.nodeID = "" ∨ cfg.bindAddr = "" then none
    else some { w with processes := Function.update w.processes cfg.nodeID (some (newProcess cfg)) }
  | .start i loaded =>
    match w.processes i with
    | none => none
    | some p =>
      if p.running then none
      else
        some (w.settle i (p.start (w.stored i loaded)).1 p.joins
          (p.start (w.stored i loaded)).2)
  | .deliver i k =>
    w.react i fun p =>
      match w.sent[k]? with
      | some e => if e.addr = p.self.addr then some (p.dispatch e.msg) else none
      | none => none
  | .timeout i =>
    w.react i fun p =>
      some ({ p with raft := (handleElectionTimeout p.raft).1 }, [],
        (handleElectionTimeout p.raft).2)
  | .heartbeat i =>
    w.react i fun p =>
      some ({ p with raft := (sendAppendEntriesToAll p.raft).1 }, [],
        (sendAppendEntriesToAll p.raft).2)
  | .stop i =>
    w.react i fun p =>
      some ({ p with running := false },
        (p.membership.others p.self.nodeID).map fun m => ⟨m.addr, .leave p.self.nodeID⟩, [])

/-- The node is a member in the registry of the process. -/
def Process.Knows (p : Process) (i : NodeID) : Prop := ∃ m ∈ p.membership, m.nodeID = i

def Process.isLeader (p : Process) : Prop := p.raft.role = .leader

def Process.term (p : Process) : Nat := p.raft.state.currentTerm

/-- No two nodes that know each other lead in one term. -/
def World.NoSplit (w : World) : Prop :=
  ∀ i j p q, i ≠ j → w.processes i = some p → w.processes j = some q → p.Knows j → q.Knows i →
    p.isLeader → q.isLeader → p.term ≠ q.term

/-- A node starts only when no other node leads in the term behind its stored
one. -/
def Allowed (w : World) : Event → Prop
  | .start i loaded =>
    ∀ j q, j ≠ i → w.processes j = some q → q.isLeader →
      q.term ≠ (w.stored i loaded).currentTerm + 1
  | _ => True

/-! ## Every node is alone -/

section

variable {w w' : World} {i : NodeID} {p p' : Process}

/-- No Raft node has peers or sends; running nodes lead, in terms of their own. -/
structure Inv (w : World) : Prop where
  alone : ∀ i p, w.processes i = some p → p.raft.peers = []
  leads : ∀ i p, w.processes i = some p → p.running = true → p.isLeader
  quiet : ∀ e ∈ w.sent, ∀ msg, e.msg ≠ .raft msg
  distinct : ∀ i j p q, i ≠ j → w.processes i = some p → w.processes j = some q →
    p.isLeader → q.isLeader → p.term ≠ q.term

/-- The process of node `i` is replaced, by one that is alone and whose term no
other leader has. -/
theorem Inv.replace (inv : Inv w) (alone : p'.raft.peers = [])
    (leads : p'.running = true → p'.isLeader)
    (fresh : p'.isLeader → ∀ j q, j ≠ i → w.processes j = some q → q.isLeader → q.term ≠ p'.term)
    {disk : NodeID → PersistentState} {more : List Envelope}
    (quiet : ∀ e ∈ more, ∀ msg, e.msg ≠ .raft msg) :
    Inv ⟨Function.update w.processes i (some p'), disk, w.sent ++ more⟩ := by
  have cases : ∀ j q, Function.update w.processes i (some p') j = some q →
      (j = i ∧ q = p') ∨ (j ≠ i ∧ w.processes j = some q) := by
    intro j q at_j
    by_cases same : j = i
    · grind
    · grind
  constructor
  · grind [alone]
  · intro j q at_j
    grind [leads]
  · grind [quiet]
  · intro j k q r ne at_j at_k leadsQ leadsR
    obtain ⟨rfl, rfl⟩ | ⟨neJ, oldJ⟩ := cases j q at_j
    · grind
    grind [distinct]

/-- A reaction that leaves the Raft node's peers, role and term alone and makes it
send nothing. -/
theorem Inv.keep (inv : Inv w) (at_i : w.processes i = some p) (peers : p'.raft.peers = p.raft.peers)
    (role : p'.raft.role = p.raft.role) (term : p'.term = p.term)
    (running : p'.running = true → p.running = true) {envelopes : List Envelope}
    {effects : List Effect} (quiet : ∀ e ∈ envelopes, ∀ msg, e.msg ≠ .raft msg)
    (silent : packets effects = []) : Inv (w.settle i p' envelopes effects) := by
  have leader : p'.isLeader → p.isLeader := fun leads => role.symm.trans leads
  apply inv.replace (peers.trans (inv.alone i p at_i))
  · intro runs
    exact role.trans (inv.leads i p at_i (running runs))
  · grind [distinct]
  · simp [silent]; omega

theorem Inv.membership (inv : Inv w) (at_i : w.processes i = some p) (ms : Membership) :
    Inv (w.settle i { p with membership := ms } [] []) := by
  apply inv.keep at_i
  · rfl
  · rfl
  · rfl
  · exact id
  · intro e mem
    cases mem
  · rfl

theorem joins_quiet (p : Process) : ∀ e ∈ p.joins, ∀ msg, e.msg ≠ .raft msg := by
  intro e mem msg
  obtain ⟨seed, -, rfl⟩ := mem_map.mp mem
  exact ClusterMsg.noConfusion

theorem handleJoin_quiet (p : Process) (joiner : Member) :
    ∀ e ∈ (p.handleJoin joiner).2, ∀ msg, e.msg ≠ .raft msg := by
  intro e mem msg
  cases mem with
  | head => exact ClusterMsg.noConfusion
  | tail _ mem =>
    obtain ⟨m, -, rfl⟩ := mem_map.mp mem
    exact ClusterMsg.noConfusion

theorem start_alone (selfID : NodeID) (state : PersistentState) :
    (Raft.start selfID [] state).1.peers = [] ∧ (Raft.start selfID [] state).1.role = .leader ∧
      (Raft.start selfID [] state).1.state.currentTerm = state.currentTerm + 1 ∧
      packets (Raft.start selfID [] state).2 = [] :=
  ⟨rfl, rfl, rfl, rfl⟩

theorem Inv.start (inv : Inv w) {loaded : Bool} (at_i : w.processes i = some p)
    (fresh : Allowed w (.start i loaded)) :
    Inv (w.settle i (p.start (w.stored i loaded)).1 p.joins (p.start (w.stored i loaded)).2) := by
  have alone := inv.alone i p at_i
  obtain ⟨peers, role, term, silent⟩ := start_alone p.self.nodeID (w.stored i loaded)
  unfold Process.start
  rw [alone]
  apply inv.replace peers
  · intro _
    exact role
  · intro _ j q ne at_j leads
    show q.term ≠ (Raft.start p.self.nodeID [] (w.stored i loaded)).1.state.currentTerm
    rw [term]
    exact fresh j q ne at_j leads
  · grind [joins_quiet]

/-- A leader ignores its election timer. -/
theorem timeout_leader {n : Node} (leads : n.role = .leader) : handleElectionTimeout n = (n, []) :=
  if_pos leads

theorem heartbeat_alone {n : Node} (alone : n.peers = []) :
    (sendAppendEntriesToAll n).1.peers = n.peers ∧ (sendAppendEntriesToAll n).1.role = n.role ∧
      (sendAppendEntriesToAll n).1.state = n.state ∧ (sendAppendEntriesToAll n).2 = [] := by
  unfold sendAppendEntriesToAll
  split
  · exact ⟨rfl, rfl, rfl, rfl⟩
  · simp [alone]

theorem Inv.dispatch (inv : Inv w) (at_i : w.processes i = some p) {e : Envelope}
    (sent : e ∈ w.sent) :
    Inv (w.settle i (p.dispatch e.msg).1 (p.dispatch e.msg).2.1 (p.dispatch e.msg).2.2) := by
  have quiet := inv.quiet e sent
  obtain ⟨addr, msg⟩ := e
  cases msg with
  | join joiner =>
    apply inv.keep at_i
    · rfl
    · rfl
    · rfl
    · exact id
    · exact handleJoin_quiet p joiner
    · rfl
  | joinAck members => exact inv.membership at_i (members.foldl Membership.add p.membership)
  | metaSync member => exact inv.membership at_i (p.membership.add member)
  | leave nodeID => exact inv.membership at_i (p.membership.remove p.self.nodeID nodeID)
  | raft msg => exact absurd rfl (quiet msg)

theorem react_cases {f : Process → Option (Process × List Envelope × List Effect)}
    (taken : w.react i f = some w') :
    ∃ p r, w.processes i = some p ∧ p.running = true ∧ f p = some r ∧
      w' = w.settle i r.1 r.2.1 r.2.2 := by
  unfold World.react at taken
  split at taken
  · cases taken
  · rename_i p at_i
    split at taken
    · rename_i running
      obtain ⟨r, done, rfl⟩ := map_eq_some_iff.mp taken
      exact ⟨p, r, at_i, running, done, rfl⟩
    · cases taken

/-- **Every step leaves every node alone.** -/
theorem inv_step {e : Event} (inv : Inv w) (allowed : Allowed w e) (taken : w.step e = some w') :
    Inv w' := by
  cases e with
  | new cfg =>
    simp only [World.step] at taken
    split at taken
    · cases taken
    · cases taken
      have alone : (newProcess cfg).raft.peers = [] := by
        simp [newProcess, newNode, Membership.others]
      have added := @Inv.replace w cfg.nodeID (newProcess cfg) inv alone
        (fun runs => nomatch runs) (fun leads => nomatch leads) w.disk [] (by simp)
      rwa [append_nil] at added
  | start i loaded => grind [World.step, Inv.start]
  | deliver i k =>
    obtain ⟨p, r, at_i, running, done, rfl⟩ := react_cases taken
    grind [Inv.dispatch]
  | timeout i =>
    obtain ⟨p, r, at_i, running, done, rfl⟩ := react_cases taken
    cases done
    have idle := timeout_leader (inv.leads i p at_i running)
    rw [idle]
    exact inv.membership at_i p.membership
  | heartbeat i =>
    obtain ⟨p, r, at_i, running, done, rfl⟩ := react_cases taken
    cases done
    obtain ⟨peers, role, state, silent⟩ := heartbeat_alone (inv.alone i p at_i)
    apply inv.keep at_i
    · exact peers
    · exact role
    · exact congrArg PersistentState.currentTerm state
    · exact id
    · intro e mem
      cases mem
    · rw [silent]
      rfl
  | stop i =>
    obtain ⟨p, r, at_i, running, done, rfl⟩ := react_cases taken
    cases done
    apply inv.keep at_i
    · rfl
    · rfl
    · rfl
    · intro runs
      cases runs
    · simp
    · rfl

theorem inv_init (disk : NodeID → PersistentState) : Inv (World.init disk) where
  alone _ _ at_i := nomatch at_i
  leads _ _ at_i := nomatch at_i
  quiet _ mem := nomatch mem
  distinct _ _ _ _ _ at_i := nomatch at_i

/-- **Cluster nodes share a term only through their disks.**  Whatever the disks
hold and however nodes are created, started, joined, synced and stopped, no two
nodes that know each other lead in one term, if no node is started while another
one leads in the term behind its stored one. -/
theorem wired_noSplit {disk : NodeID → PersistentState}
    (run : Reaches World.step Allowed (World.init disk) w) : w.NoSplit := by
  have inv : Inv w := by
    induction run with
    | init => exact inv_init disk
    | step _ allowed taken ih => exact inv_step ih allowed taken
  intro i j p q ne at_i at_j _ _ leadsP leadsQ
  exact inv.distinct i j p q ne at_i at_j leadsP leadsQ

end

/-! ## Runs of the model -/

def sampleA : Config := ⟨"a", "a:1", []⟩

def sampleB : Config := ⟨"b", "b:1", ["a:1"]⟩

/-- Node `b` joins node `a`, and both know each other. -/
def sampleJoin : List Event :=
  [.new sampleA, .new sampleB, .start "a" true, .start "b" true, .deliver "a" 0, .deliver "b" 1]

/-- What a node knows and reports. -/
def World.report (w : World) (i : NodeID) : Option (List NodeID × Role × Nat) :=
  (w.processes i).map fun p => (p.membership.map Member.nodeID, p.raft.role, p.term)

/-- Node `b` was started five times before. -/
def sampleDisk (i : NodeID) : PersistentState := if i = "b" then ⟨5, "b", []⟩ else .zero

/-- The worlds of that run from these disks. -/
def sampleWorld : Nat → World
  | 0 => World.init sampleDisk
  | k + 1 =>
    match sampleJoin[k]? with
    | some e => ((sampleWorld k).step e).getD (sampleWorld k)
    | none => sampleWorld k

theorem sampleWorld_startA : Allowed (sampleWorld 2) (.start "a" true) := by
  intro j q ne at_j leads
  by_cases b : j = "b"
  · subst b
    cases (some.inj at_j : newProcess sampleB = q)
    cases leads
  · have none : (sampleWorld 2).processes j = none :=
      (Function.update_of_ne b _ _).trans (Function.update_of_ne ne _ _)
    rw [none] at at_j
    cases at_j

theorem sampleWorld_startB : Allowed (sampleWorld 3) (.start "b" true) := by
  intro j q ne at_j _
  by_cases a : j = "a"
  · subst a
    have term : ((sampleWorld 3).processes "a").map Process.term = some 1 := rfl
    rw [at_j] at term
    have term : q.term = 1 := some.inj term
    rw [term]
    decide
  · have none : (sampleWorld 3).processes j = none :=
      (Function.update_of_ne a _ _).trans
        ((Function.update_of_ne ne _ _).trans (Function.update_of_ne a _ _))
    rw [none] at at_j
    cases at_j

theorem wired_noSplit_joined :
    (sampleWorld 6).report "a" = some (["b", "a"], .leader, 1) ∧
      (sampleWorld 6).report "b" = some (["a", "b"], .leader, 6) ∧ (sampleWorld 6).NoSplit := by
  have created : Reaches World.step Allowed (World.init sampleDisk) (sampleWorld 2) :=
    (Reaches.init.step (show Allowed _ (.new sampleA) from trivial) rfl).step
      (show Allowed _ (.new sampleB) from trivial) rfl
  have started : Reaches World.step Allowed (World.init sampleDisk) (sampleWorld 4) :=
    (created.step sampleWorld_startA rfl).step sampleWorld_startB rfl
  have joined : Reaches World.step Allowed (World.init sampleDisk) (sampleWorld 6) :=
    (started.step (show Allowed _ (.deliver "a" 0) from trivial) rfl).step
      (show Allowed _ (.deliver "b" 1) from trivial) rfl
  exact ⟨rfl, rfl, wired_noSplit joined⟩

theorem World.report_eq {w : World} {i : NodeID} {known : List NodeID} {role : Role} {term : Nat}
    (report : w.report i = some (known, role, term)) :
    ∃ p, w.processes i = some p ∧ (∀ j ∈ known, p.Knows j) ∧ p.raft.role = role ∧ p.term = term := by
  obtain ⟨p, at_i, eq⟩ := map_eq_some_iff.mp report
  simp only [Prod.mk.injEq] at eq
  obtain ⟨rfl, rfl, rfl⟩ := eq
  refine ⟨p, at_i, ?_, rfl, rfl⟩
  intro j mem
  obtain ⟨m, held, same⟩ := mem_map.mp mem
  exact ⟨m, held, same⟩

/-- **Two leaders in term 1.**  Two fresh nodes, one of which joins the other,
know each other and both lead in term 1. -/
theorem wired_split :
    ∃ w, runAll World.step (fun _ _ => True) (World.init fun _ => .zero) sampleJoin = some w ∧
      w.report "a" = some (["b", "a"], .leader, 1) ∧
      w.report "b" = some (["a", "b"], .leader, 1) ∧ ¬ w.NoSplit := by
  have run : (runAll World.step (fun _ _ => True) (World.init fun _ => .zero) sampleJoin).map
      (fun w => (w.report "a", w.report "b")) =
      some (some (["b", "a"], .leader, 1), some (["a", "b"], .leader, 1)) := by
    decide +kernel
  obtain ⟨w, ran, eq⟩ := map_eq_some_iff.mp run
  simp only [Prod.mk.injEq] at eq
  refine ⟨w, ran, eq.1, eq.2, ?_⟩
  intro noSplit
  obtain ⟨p, at_a, knowsP, leadsP, termP⟩ := World.report_eq eq.1
  obtain ⟨q, at_b, knowsQ, leadsQ, termQ⟩ := World.report_eq eq.2
  exact noSplit "a" "b" p q (by decide) at_a at_b (knowsP "b" (by decide)) (knowsQ "a" (by decide))
    leadsP leadsQ (termP.trans termQ.symm)

end PubsubBroker.Raft.Wiring
