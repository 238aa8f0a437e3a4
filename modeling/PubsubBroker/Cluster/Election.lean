/-
# Cluster.Election — the terms of the Bully election

`internal/cluster/election.go` for one node.  The other nodes, the network and the membership
registry are whatever they are: every event comes with the members known at that moment, and
any message may arrive at any time.

A node takes over the term of a message that is ahead of its own.  But `setLeaderLocked`
assigns the term of a heartbeat without comparing it, so a heartbeat of a higher node that was
delayed sets the term back, and the node can win an election a second time in a term it has led
before (`term_falls`).  `terms_monotone` is what holds while no such heartbeat arrives and the
term does not run over.

`led` records the terms in which `becomeLeaderLocked` was called.
-/
import PubsubBroker.Theory.Transition
import Mathlib.Order.Basic

namespace PubsubBroker.Cluster

open Theory List

inductive Role where
  | follower
  | candidate
  | leader
deriving DecidableEq

inductive MsgType where
  | heartbeat
  | voteRequest
  | voteGrant
  | voteDeny
deriving DecidableEq

structure ClusterMsg where
  type : MsgType
  sender : String
  term : UInt64

structure Election where
  self : String
  role : Role
  term : UInt64
  leader : Option String
  grantsNeeded : List String
  grantsHad : List String
  led : List UInt64
deriving DecidableEq

def newElection (self : String) : Election := ⟨self, .follower, 0, none, [], [], []⟩

/-- A message and the member it is sent to. -/
abbrev MsgEffect := String × ClusterMsg

namespace Election

def broadcast (e : Election) (members : List String) (type : MsgType) : List MsgEffect :=
  (members.filter (· ≠ e.self)).map fun m => (m, ⟨type, e.self, e.term⟩)

def becomeLeaderLocked (e : Election) (members : List String) : Election × List MsgEffect :=
  ({ e with
      role := .leader, leader := some e.self, grantsNeeded := [], grantsHad := []
      led := e.led ++ [e.term] },
    e.broadcast members .heartbeat)

/-- A leader that is not a member is followed, but not remembered. -/
def setLeaderLocked (e : Election) (members : List String) (nodeID : String) (term : UInt64) :
    Election :=
  { e with
    term := term, role := .follower, grantsNeeded := [], grantsHad := []
    leader := if nodeID ∈ members then some nodeID else e.leader }

def handleElectionTimeout (e : Election) (members : List String) : Election × List MsgEffect :=
  let e := { e with
    term := e.term + 1, role := .candidate, grantsHad := []
    grantsNeeded := members.filter (· < e.self) }
  if e.grantsNeeded = [] then e.becomeLeaderLocked members
  else (e, e.broadcast members .voteRequest)

def answer (e : Election) (members : List String) (peer : String) (type : MsgType) (term : UInt64) :
    List MsgEffect :=
  if peer ∈ members then [(peer, ⟨type, e.self, term⟩)] else []

/-- The term of a message that is ahead is taken over. -/
def advance (e : Election) (term : UInt64) : Election :=
  if e.term < term then { e with term := term } else e

/-- Whether the timer is reset is left out: timeouts come at any time. -/
def handleMsg (e : Election) (members : List String) (msg : ClusterMsg) :
    Election × List MsgEffect :=
  let e := e.advance msg.term
  match msg.type with
  | .heartbeat =>
    if e.self < msg.sender then (e.setLeaderLocked members msg.sender msg.term, []) else (e, [])
  | .voteRequest =>
    if e.self < msg.sender ∧ e.term ≤ msg.term then
      ({ e with term := msg.term, role := .follower, grantsNeeded := [], grantsHad := [] },
        e.answer members msg.sender .voteGrant msg.term)
    else (e, e.answer members msg.sender .voteDeny e.term)
  | .voteGrant =>
    if e.role = .candidate ∧ msg.term = e.term then
      let e := { e with grantsHad := msg.sender :: e.grantsHad }
      if ∀ id ∈ e.grantsNeeded, id ∈ e.grantsHad then e.becomeLeaderLocked members else (e, [])
    else (e, [])
  | .voteDeny => (e, [])

def forceBecomeLeader (e : Election) (members : List String) : Election :=
  if e.role = .leader then e
  else ({ e with term := e.term + 1 }.becomeLeaderLocked members).1

end Election

inductive Event where
  | timeout (members : List String)
  | message (members : List String) (msg : ClusterMsg)
  | force (members : List String)

def step (e : Election) : Event → Option Election
  | .timeout members => some (e.handleElectionTimeout members).1
  | .message members msg => some (e.handleMsg members msg).1
  | .force members => some (e.forceBecomeLeader members)

/-- The term has room for one more election, and a heartbeat of a higher node is not behind. -/
def Current (e : Election) : Event → Prop
  | .timeout _ => e.term < e.term + 1
  | .message _ msg => msg.type = .heartbeat → e.self < msg.sender → e.term ≤ msg.term
  | .force _ => e.role = .leader ∨ e.term < e.term + 1

instance (e : Election) : DecidablePred (Current e) := fun
  | .timeout _ => inferInstanceAs (Decidable (_ < _))
  | .message _ _ => inferInstanceAs (Decidable (_ → _))
  | .force _ => inferInstanceAs (Decidable (_ ∨ _))

/-- No term was led twice, and a candidate has not led the term it stands in. -/
structure Inv (e : Election) : Prop where
  increasing : e.led.Pairwise (· < ·)
  past : ∀ t ∈ e.led, t ≤ e.term
  standing : e.role = .candidate → ∀ t ∈ e.led, t < e.term

variable {e e' : Election} {members : List String}

theorem inv_becomeLeader (inv : Inv e) (new : ∀ t ∈ e.led, t < e.term) :
    Inv (e.becomeLeaderLocked members).1 where
  increasing := by
    refine pairwise_append.mpr ⟨inv.increasing, pairwise_singleton _ _, ?_⟩
    simp; omega
  past := by
    intro t mem
    rcases mem_append.mp mem with old | last
    · exact inv.past t old
    · exact mem_singleton.mp last ▸ UInt64.le_refl _
  standing := nofun

/-- A step in a later term or the same one, without an election. -/
theorem Inv.move (inv : Inv e) (same : e'.led = e.led) (later : e.term ≤ e'.term)
    (stands : e'.role = .candidate → e.role = .candidate ∨ e.term < e'.term) : Inv e' where
  increasing := same ▸ inv.increasing
  past := fun t mem => UInt64.le_trans (inv.past t (same ▸ mem)) later
  standing := by
    intro candidate t mem
    rw [same] at mem
    rcases stands candidate with before | raised
    · exact UInt64.lt_of_lt_of_le (inv.standing before t mem) later
    · exact UInt64.lt_of_le_of_lt (inv.past t mem) raised

theorem le_advance (e : Election) (term : UInt64) : e.term ≤ (e.advance term).term := by
  grind [Election.advance]

theorem inv_advance (inv : Inv e) (term : UInt64) : Inv (e.advance term) := by
  grind [Inv.move, Election.advance]

theorem lt_succ_iff {t : UInt64} : t ≤ t + 1 ↔ t < t + 1 := by
  grind

/-- **A step sets the term back** exactly if it is not current. -/
theorem step_term (event : Event) (taken : step e event = some e') :
    e.term ≤ e'.term ↔ Current e event := by
  cases event with
  | timeout members =>
    cases taken
    have same : (e.handleElectionTimeout members).1.term = e.term + 1 := by
      unfold Election.handleElectionTimeout
      dsimp only
      split <;> rfl
    rw [same, lt_succ_iff]
    rfl
  | message members msg =>
    cases taken
    have ahead := le_advance e msg.term
    have self : (e.advance msg.term).self = e.self := by unfold Election.advance; split <;> rfl
    simp only [Election.handleMsg, Current]
    cases msg.type with
    | heartbeat =>
      simp only [self, true_imp_iff]
      grind [Election.setLeaderLocked]
    | voteRequest => grind
    | voteGrant =>
      refine iff_of_true ?_ nofun
      dsimp only
      (repeat' split) <;> exact ahead
    | voteDeny => exact iff_of_true ahead nofun
  | force members =>
    cases taken
    unfold Election.forceBecomeLeader
    split
    case isTrue leads => exact iff_of_true (UInt64.le_refl _) (.inl leads)
    case isFalse leads => exact lt_succ_iff.trans (or_iff_right leads).symm

theorem inv_step {event : Event} (inv : Inv e) (current : Current e event)
    (taken : step e event = some e') : Inv e' := by
  cases event with
  | timeout members =>
    cases taken
    unfold Election.handleElectionTimeout
    extract_lets stands
    have moved : Inv stands := inv.move rfl (UInt64.le_of_lt current) fun _ => .inr current
    split
    · exact inv_becomeLeader moved (moved.standing rfl)
    · exact moved
  | message members msg =>
    cases taken
    have moved := inv_advance inv msg.term
    have self : (e.advance msg.term).self = e.self := by unfold Election.advance; split <;> rfl
    have led : (e.advance msg.term).led = e.led := by unfold Election.advance; split <;> rfl
    simp only [Election.handleMsg, Current] at current ⊢
    cases type : msg.type with
    | heartbeat =>
      dsimp only
      split
      case isTrue higher => exact inv.move led (current type (self ▸ higher)) nofun
      case isFalse => exact moved
    | voteRequest => grind [Inv.move]
    | voteGrant =>
      dsimp only
      split
      case isTrue stands =>
        have granted : ∀ had, Inv { e.advance msg.term with grantsHad := had } := fun had =>
          moved.move rfl (UInt64.le_refl _) .inl
        grind [inv_becomeLeader, Inv.standing]
      case isFalse => exact moved
    | voteDeny => exact moved
  | force members =>
    cases taken
    unfold Election.forceBecomeLeader
    split
    case isTrue => exact inv
    case isFalse leads =>
      have room := current.resolve_left leads
      exact inv_becomeLeader (inv.move rfl (UInt64.le_of_lt room) fun _ => .inr room)
        fun t mem => UInt64.lt_of_le_of_lt (inv.past t mem) room

/-- **Terms do not fall, and no term is led twice**, as long as every step is current; a step that
is not sets the term back. -/
theorem terms_monotone (self : String) (e : Election)
    (reached : Reaches step Current (newElection self) e) :
    e.led.Pairwise (· < ·) ∧ (∀ e', Reaches step Current e e' → e.term ≤ e'.term) ∧
      ∀ event e', step e event = some e' → (e.term ≤ e'.term ↔ Current e event) := by
  have inv : Inv e := by
    induction reached with
    | init => exact ⟨.nil, nofun, nofun⟩
    | step _ current taken ih => exact inv_step ih current taken
  refine ⟨inv.increasing, fun e' later => ?_, fun event e' taken => step_term event taken⟩
  induction later with
  | init => exact UInt64.le_refl _
  | step _ current taken ih => exact UInt64.le_trans ih ((step_term _ taken).mpr current)

/-- A node alone wins the first term, hears of a leader of term 2, and is elected in term 3. -/
def sampleEvents : List Event :=
  [.timeout ["a"], .message ["a", "b"] ⟨.heartbeat, "b", 2⟩, .timeout ["a"]]

theorem terms_monotone_sample : ∃ e, Reaches step Current (newElection "a") e ∧
    e.led = [1, 3] ∧ e.led.Pairwise (· < ·) :=
  Reaches.exists_run_of (P := fun e => e.led = [1, 3]) sampleEvents (by decide +kernel)
    fun e reached led => ⟨led, (terms_monotone "a" e reached).1⟩

/-- **A late heartbeat sets the term back.**  The first heartbeat of `b` arrives a second time,
and `a` leads term 3 twice. -/
theorem term_falls : ∃ e e', Reaches step (fun _ _ => True) (newElection "a") e ∧
    step e (.message ["a", "b"] ⟨.heartbeat, "b", 2⟩) = some e' ∧ e.term = 3 ∧ e'.term = 2 ∧
    (e'.handleElectionTimeout ["a"]).1.led = [1, 3, 3] := by
  have ran : (runAll step (fun _ _ => True) (newElection "a") sampleEvents).map (fun e =>
      (e, (e.handleMsg ["a", "b"] ⟨.heartbeat, "b", 2⟩).1)) =
        some (⟨"a", .leader, 3, some "a", [], [], [1, 3]⟩,
          ⟨"a", .follower, 2, some "b", [], [], [1, 3]⟩) := by decide +kernel
  obtain ⟨e, run, shown⟩ := Option.map_eq_some_iff.mp ran
  obtain ⟨rfl, late⟩ := Prod.mk.inj shown
  exact ⟨_, _, Reaches.init.run run, congrArg some late, rfl, rfl, by decide⟩

end PubsubBroker.Cluster
