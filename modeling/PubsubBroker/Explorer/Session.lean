/-
# Explorer.Session — the live message tap and its filter

`internal/broker/explorer.go` and `explorer_endpoint.go`.  A stream is opened for one
topic, on which the caller has to hold the subscribe or the admin permission.  After
that the session is a filter, a bounded channel and a drain goroutine: every publish
copies the list of sessions and offers the message to each of them, and control frames
pause the session, resume it or replace its filter by any other.

Nothing locks the filter, so the comparisons of one publish are separate steps here and
may each see a different filter.

The permission is not asked again when the filter is replaced, and a filter without a
topic matches every message (`explorer_leaks`).  `explorer_confined` is what holds in
the runs in which a client only asks for what it may see.

Left out: the counters of the hub that only the metrics read, and the JSON and base64
text of the frames.  A write to a connection that is still open is taken to succeed.
-/
import Mathlib.Data.List.Infix
import PubsubBroker.Http.Authentication
import PubsubBroker.Storage.Record

namespace PubsubBroker.Explorer

open Theory Auth List Option
open Http (Refusal)
open Storage (Message)

def explorerChanCap : Nat := 256

def explorerMaxConnDefault : Int := 50

/-! ## Filters -/

structure ExplorerEvent where
  message : Message
  clientID : String
deriving DecidableEq

structure ExplorerFilter where
  topic : String
  /-- Negative means all partitions. -/
  partition : Int
  key : Bytes
  producer : String
  search : Bytes

/-- The comparisons of `matches` and `matchesPayload`, in the order `Publish` makes
them. -/
inductive Check where
  | topic
  | partition
  | key
  | producer
  | search
deriving DecidableEq

def Check.next : Check → Option Check
  | .topic => some .partition
  | .partition => some .key
  | .key => some .producer
  | .producer => some .search
  | .search => none

/-- One comparison.  `toLower` is `strings.ToLower` on the bytes of a string. -/
def ExplorerFilter.passes (toLower : Bytes → Bytes) (f : ExplorerFilter) (topic : String)
    (partition : Int) (ev : ExplorerEvent) : Check → Bool
  | .topic => !(f.topic ≠ "" && f.topic ≠ topic)
  | .partition => !(f.partition ≥ 0 && f.partition ≠ partition)
  | .key => !(f.key ≠ [] && f.key ≠ ev.message.key)
  | .producer => !(f.producer ≠ "" && f.producer ≠ ev.clientID)
  | .search => f.search = [] || decide (toLower f.search <:+: toLower ev.message.payload)

/-! ## Opening a stream -/

structure Config where
  explorerEnabled : Bool
  explorerMaxConnections : Int

/-- A `GET /explorer/stream` request, with what the broker finds out about it. -/
structure OpenRequest where
  topic : String
  key : Bytes
  producer : String
  search : Bytes
  /-- The number `Sscanf` reads from the partition parameter, if it reads one. -/
  partition : Option Int
  /-- What `resolveIdentity` returns. -/
  identity : Option Identity
  topicExists : Bool
  /-- The error of the WebSocket upgrade, if it fails. -/
  upgradeError : Option String

def explores (id : Identity) (topic : String) : Bool :=
  id.can .subscribe topic || id.can .admin topic

/-- The checks of `httpExplorerStream`, and the session's first filter. -/
def httpExplorerStream (cfg : Config) (activeConns : Int) (r : OpenRequest) :
    Except Refusal (Identity × ExplorerFilter) :=
  let maxConns :=
    if cfg.explorerMaxConnections ≤ 0 then explorerMaxConnDefault else cfg.explorerMaxConnections
  if !cfg.explorerEnabled then .error ⟨403, "explorer is disabled"⟩
  else if activeConns ≥ maxConns then .error ⟨503, "too many explorer connections"⟩
  else if r.topic = "" then .error ⟨400, "topic parameter is required"⟩
  else
    match r.identity with
    | none => .error ⟨401, "authentication required"⟩
    | some id =>
      if !id.can .subscribe r.topic && !id.can .admin r.topic then
        .error ⟨403, "insufficient permissions to explore this topic"⟩
      else if !r.topicExists then .error ⟨400, "topic " ++ r.topic.quote ++ " not found"⟩
      else
        match r.upgradeError with
        | some err => .error ⟨400, err⟩
        | none =>
          -- the parsed number is cut to 32 bits
          let partition := (r.partition.map (Int.bmod · (2 ^ 32))).getD (-1)
          .ok (id, ⟨r.topic, partition, r.key, r.producer, r.search⟩)

/-! ## Sessions -/

structure MsgFrame where
  topic : String
  partition : Int
  offset : Int
  key : Bytes
  payload : Bytes
  timestampNs : Int
  producer : String
deriving DecidableEq

inductive Frame where
  | msg (m : MsgFrame)
  | status (droppedSinceLast : Nat)
deriving DecidableEq

def ExplorerEvent.frame (ev : ExplorerEvent) : MsgFrame :=
  ⟨ev.message.topic, ev.message.partition, ev.message.offset, ev.message.key, ev.message.payload,
    ev.message.timestamp, ev.clientID⟩

inductive Action where
  | pause
  | resume
  | updateFilter
  | other (name : String)

inductive Control where
  | malformed
  | frame (action : Action) (filter : Option ExplorerFilter)

/-- How far the deferred cleanup of the endpoint has come. -/
inductive Life where
  | serving
  | closed
  | removed
  | released
  | hungUp
deriving DecidableEq

/-- Where `drainLoop` is. -/
inductive Drain where
  | top
  | receiving
  /-- An event was dequeued; `paused` is loaded once more. -/
  | holding (ev : ExplorerEvent)
  | stopped
deriving DecidableEq

structure Session where
  identity : Identity
  filter : ExplorerFilter
  ch : List ExplorerEvent
  droppedCount : Nat
  paused : Bool
  life : Life
  drain : Drain
  lastDropped : Nat
  /-- The frames written to the connection. -/
  written : List Frame

def newExplorerSession (id : Identity) (filter : ExplorerFilter) : Session :=
  ⟨id, filter, [], 0, false, .serving, .top, 0, []⟩

inductive Move where
  | control (c : Control)
  /-- The next step of the cleanup, after the read loop has failed. -/
  | leave
  /-- The ticker of the status goroutine. -/
  | status
  | drain
  /-- The drain goroutine's receive finds the session closed. -/
  | stop

namespace Session

def control (x : Session) : Control → Session
  | .frame .pause _ => { x with paused := true }
  | .frame .resume _ => { x with paused := false }
  | .frame .updateFilter (some f) => { x with filter := f }
  | _ => x

def write (x : Session) (frame : Frame) : Session :=
  if x.life = .hungUp then x else { x with written := x.written ++ [frame] }

def leave (x : Session) : Option Session :=
  match x.life with
  | .serving => some { x with life := .closed }
  | .closed => some { x with life := .removed }
  | .removed => some { x with life := .released }
  | .released => some { x with life := .hungUp }
  | .hungUp => none

def drainStep (x : Session) : Option Session :=
  match x.drain with
  | .top =>
    if x.life ≠ .serving then some { x with drain := .stopped }
    else if x.paused then some x
    else some { x with drain := .receiving }
  | .receiving =>
    match x.ch with
    | [] => none
    | ev :: rest => some { x with ch := rest, drain := .holding ev }
  | .holding ev =>
    if x.paused then some { x with drain := .top }
    else some { x.write (.msg ev.frame) with drain := .top }
  | .stopped => none

def move (x : Session) : Move → Option Session
  | .control c => if x.life = .serving then some (x.control c) else none
  | .leave => x.leave
  | .status =>
    if x.droppedCount ≠ x.lastDropped then
      some { x.write (.status (x.droppedCount - x.lastDropped)) with lastDropped := x.droppedCount }
    else some x
  | .drain => x.drainStep
  | .stop =>
    if x.drain = .receiving ∧ x.life ≠ .serving then some { x with drain := .stopped } else none

/-- The non-blocking send of `Publish`. -/
def offer (x : Session) (ev : ExplorerEvent) : Session :=
  if x.ch.length < explorerChanCap then { x with ch := x.ch ++ [ev] }
  else { x with droppedCount := x.droppedCount + 1 }

end Session

/-! ## The hub -/

/-- A call of `Publish` that is on its way through the copied list of sessions. -/
structure Fanout where
  topic : String
  partition : Int
  event : ExplorerEvent
  /-- The session in hand and those behind it. -/
  sessions : List Nat
  /-- The next comparison with the session in hand; `none` is the send. -/
  check : Option Check

def Fanout.skip (p : Fanout) : Fanout := { p with sessions := p.sessions.tail, check := some .topic }

structure Hub where
  /-- Every session ever opened, in order. -/
  sessions : List Session
  fanouts : List Fanout

def Hub.init : Hub := ⟨[], []⟩

/-- The connections counted in `explorerActiveConns`. -/
def Hub.activeConns (s : Hub) : Int :=
  (s.sessions.filter fun x => x.life = .serving ∨ x.life = .closed ∨ x.life = .removed).length

def Hub.registered (s : Hub) : List Nat :=
  (List.range s.sessions.length).filter fun i =>
    s.sessions[i]?.any fun x => x.life = .serving ∨ x.life = .closed

inductive Event where
  | open (r : OpenRequest)
  | session (i : Nat) (m : Move)
  /-- `Publish` copies the map's keys, in any order.  Its callers take the topic and the
  partition from the message. -/
  | publish (ev : ExplorerEvent) (order : List Nat)
  /-- The next step of one of the running `Publish` calls. -/
  | fanout (j : Nat)

section

variable (toLower : Bytes → Bytes)

/-- One step of a `Publish` call: a comparison with the session in hand, or the send. -/
def Hub.advance (s : Hub) (j : Nat) (p : Fanout) : Option Hub :=
  match p.sessions with
  | [] => some { s with fanouts := s.fanouts.eraseIdx j }
  | i :: _ =>
    match s.sessions[i]? with
    | none => none
    | some x =>
      match p.check with
      | some c =>
        if x.filter.passes toLower p.topic p.partition p.event c then
          some { s with fanouts := s.fanouts.set j { p with check := c.next } }
        else some { s with fanouts := s.fanouts.set j p.skip }
      | none =>
        some { s with
          sessions := s.sessions.set i (x.offer p.event)
          fanouts := s.fanouts.set j p.skip }

def step (cfg : Config) (s : Hub) : Event → Option Hub
  | .open r =>
    match httpExplorerStream cfg s.activeConns r with
    | .error _ => some s
    | .ok (id, filter) =>
      some { s with sessions := s.sessions ++ [newExplorerSession id filter] }
  | .session i m =>
    match s.sessions[i]? with
    | none => none
    | some x => (x.move m).map fun x => { s with sessions := s.sessions.set i x }
  | .publish ev order =>
    if order.Perm s.registered then
      let p : Fanout := ⟨ev.message.topic, ev.message.partition, ev, order, some .topic⟩
      some { s with fanouts := s.fanouts ++ [p] }
    else none
  | .fanout j =>
    match s.fanouts[j]? with
    | none => none
    | some p => s.advance toLower j p

end

/-! ## What a filter may ask for -/

/-- The identity holds the permission on every topic the filter lets through: on its
topic, and on all of them when it names none. -/
def admits (id : Identity) (f : ExplorerFilter) : Bool :=
  explores id f.topic && (f.topic ≠ "" || id.topics = [])

/-- Every new filter asks only for what its client may see. -/
def confined (s : Hub) : Event → Bool
  | .session i (.control (.frame .updateFilter (some f))) =>
    s.sessions[i]?.all fun x => admits x.identity f
  | _ => true

theorem explores_of_unlisted {id : Identity} {topic : String} (all : id.topics = [])
    (may : explores id topic = true) (other : String) : explores id other = true := by
  simp only [explores, Bool.or_eq_true] at may ⊢
  rcases may with subscribe | admin
  · grind [Identity.can_of_unlisted]
  · exact .inr (Identity.can_of_unlisted all admin other)

theorem explores_of_passes {toLower : Bytes → Bytes} {id : Identity} {f : ExplorerFilter}
    {topic : String} {partition : Int} {ev : ExplorerEvent} (admitted : admits id f = true)
    (passes : f.passes toLower topic partition ev .topic = true) : explores id topic = true := by
  simp only [admits, Bool.and_eq_true, Bool.or_eq_true, decide_eq_true_eq] at admitted
  obtain ⟨may, named⟩ := admitted
  by_cases unnamed : f.topic = ""
  · have all : id.topics = [] := named.resolve_left fun h => h unnamed
    exact explores_of_unlisted all may topic
  · have same : f.topic = topic := by simpa [ExplorerFilter.passes, unnamed] using passes
    exact same ▸ may

theorem admits_opened {cfg : Config} {activeConns : Int} {r : OpenRequest} {id : Identity}
    {f : ExplorerFilter} (opened : httpExplorerStream cfg activeConns r = .ok (id, f)) :
    admits id f = true := by
  unfold httpExplorerStream at opened
  by_cases enabled : (!cfg.explorerEnabled) = true
  · simp [enabled] at opened
  by_cases full : activeConns ≥ if cfg.explorerMaxConnections ≤ 0 then explorerMaxConnDefault
      else cfg.explorerMaxConnections
  · simp [enabled, full] at opened
  by_cases named : r.topic = ""
  · simp [enabled, full, named] at opened
  simp only [enabled, full, named, if_false] at opened
  cases who : r.identity with
  | none => simp [who] at opened
  | some caller =>
    simp only [who] at opened
    by_cases denied : (!caller.can .subscribe r.topic && !caller.can .admin r.topic) = true
    · simp [denied] at opened
    by_cases missing : (!r.topicExists) = true
    · simp [denied, missing] at opened
    simp only [denied, missing] at opened
    cases upgrade : r.upgradeError with
    | some err => simp [upgrade] at opened
    | none =>
      simp only [upgrade] at opened
      obtain ⟨rfl, rfl⟩ := opened
      have may : explores id r.topic = true := by
        simp only [explores]
        grind
      simp [admits, may, named]

/-! ## The invariant -/

/-- Everything in a session is about topics its identity may explore. -/
structure Session.Confined (x : Session) : Prop where
  filter : admits x.identity x.filter = true
  queued : ∀ ev ∈ x.ch, explores x.identity ev.message.topic = true
  held : ∀ ev, x.drain = .holding ev → explores x.identity ev.message.topic = true
  written : ∀ m, .msg m ∈ x.written → explores x.identity m.topic = true

namespace Session.Confined

variable {x y : Session}

theorem write (confined : x.Confined) {frame : Frame}
    (may : ∀ m, frame = .msg m → explores x.identity m.topic = true) :
    (x.write frame).Confined := by
  unfold Session.write
  split
  case isTrue => exact confined
  case isFalse =>
    refine { confined with written := fun m mem => ?_ }
    grind [written]

theorem drain {d : Drain} (confined : x.Confined)
    (held : ∀ ev, d = .holding ev → explores x.identity ev.message.topic = true) :
    Session.Confined { x with drain := d } :=
  { confined with held := held }

theorem leave (confined : x.Confined) (moved : x.leave = some y) :
    y.Confined ∧ y.identity = x.identity := by
  unfold Session.leave at moved
  cases at_life : x.life <;> simp only [at_life, some.injEq, reduceCtorEq] at moved
  all_goals
    subst moved
    exact ⟨{ confined with }, rfl⟩

end Session.Confined

theorem Session.write_identity (x : Session) (frame : Frame) :
    (x.write frame).identity = x.identity := by
  unfold Session.write
  split <;> rfl

theorem Session.Confined.drainStep {x y : Session} (confined : x.Confined)
    (moved : x.drainStep = some y) : y.Confined ∧ y.identity = x.identity := by
  unfold Session.drainStep at moved
  cases at_drain : x.drain with
  | top =>
    simp only [at_drain] at moved
    by_cases serving : x.life ≠ .serving
    · rw [if_pos serving] at moved
      grind [drain]
    rw [if_neg serving] at moved
    by_cases paused : x.paused = true
    · grind
    · rw [if_neg paused] at moved
      grind [drain]
  | receiving =>
    simp only [at_drain] at moved
    cases queue : x.ch with
    | nil => simp [queue] at moved
    | cons ev rest =>
      simp only [queue, some.injEq] at moved
      subst moved
      have queued := confined.queued
      rw [queue] at queued
      refine ⟨{ confined with queued := ?_, held := ?_ }, rfl⟩
      · grind
      simp [queued]
  | holding ev =>
    simp only [at_drain] at moved
    have may := confined.held ev at_drain
    by_cases paused : x.paused = true
    · rw [if_pos paused] at moved
      grind [drain]
    · rw [if_neg paused] at moved
      cases moved
      refine ⟨Session.Confined.drain (confined.write ?_) nofun, x.write_identity _⟩
      rintro m ⟨⟩
      exact may
  | stopped => simp [at_drain] at moved

theorem Session.Confined.control {x : Session} (confined : x.Confined) (c : Control)
    (asked : ∀ f, c = .frame .updateFilter (some f) → admits x.identity f = true) :
    (x.control c).Confined ∧ (x.control c).identity = x.identity := by
  cases c with
  | malformed => exact ⟨confined, rfl⟩
  | frame action filter =>
    cases action with
    | pause | resume => exact ⟨{ confined with }, rfl⟩
    | other name => exact ⟨confined, rfl⟩
    | updateFilter =>
      cases filter with
      | none => exact ⟨confined, rfl⟩
      | some f => exact ⟨{ confined with filter := asked f rfl }, rfl⟩

/-- **One step of a session.** -/
theorem Session.Confined.move {x y : Session} (confined : x.Confined) {m : Move}
    (asked : ∀ f, m = .control (.frame .updateFilter (some f)) → admits x.identity f = true)
    (moved : x.move m = some y) : y.Confined ∧ y.identity = x.identity := by
  cases m with
  | control c =>
    simp only [Session.move, ite_none_right_eq_some, some.injEq] at moved
    obtain ⟨-, rfl⟩ := moved
    exact confined.control c fun f h => asked f (congrArg Move.control h)
  | leave => exact confined.leave moved
  | status =>
    simp only [Session.move] at moved
    by_cases more : x.droppedCount ≠ x.lastDropped
    · rw [if_pos more] at moved
      cases moved
      have kept : (x.write (.status (x.droppedCount - x.lastDropped))).Confined :=
        confined.write nofun
      exact ⟨{ kept with }, x.write_identity _⟩
    grind
  | drain => exact confined.drainStep moved
  | stop =>
    simp only [Session.move, ite_none_right_eq_some, some.injEq] at moved
    grind [drain]

theorem Session.Confined.offer {x : Session} (confined : x.Confined) {ev : ExplorerEvent}
    (may : explores x.identity ev.message.topic = true) : (x.offer ev).Confined := by
  unfold Session.offer
  split
  case isTrue =>
    refine { confined with queued := fun later mem => ?_ }
    grind [queued]
  case isFalse => exact { confined with }

theorem Session.offer_identity (x : Session) (ev : ExplorerEvent) :
    (x.offer ev).identity = x.identity := by
  unfold Session.offer
  split <;> rfl

/-- Past the topic comparison, the session in hand belongs to someone who may explore the
topic.  Later comparisons may see other filters. -/
structure Fanout.Cleared (sessions : List Session) (p : Fanout) : Prop where
  topic : p.event.message.topic = p.topic
  cleared : p.check ≠ some .topic → ∀ i later, p.sessions = i :: later →
    ∃ x, sessions[i]? = some x ∧ explores x.identity p.topic = true

/-- Sessions stay where they are and keep their identity. -/
def Kept (before after : List Session) : Prop :=
  ∀ (i : Nat) (x : Session), before[i]? = some x →
    ∃ y : Session, after[i]? = some y ∧ y.identity = x.identity

theorem Kept.set {sessions : List Session} {i : Nat} {x y : Session} (at_i : sessions[i]? = some x)
    (same : y.identity = x.identity) : Kept sessions (sessions.set i y) := by
  intro j z at_j
  by_cases here : i = j
  · grind
  · simp [at_j, here]

theorem Kept.append (sessions : List Session) (x : Session) : Kept sessions (sessions ++ [x]) := by
  intro i z at_i
  grind

theorem Fanout.Cleared.kept {before after : List Session} {p : Fanout}
    (cleared : p.Cleared before) (kept : Kept before after) : p.Cleared after := by
  refine ⟨cleared.topic, fun past i later split => ?_⟩
  obtain ⟨x, at_i, may⟩ := cleared.cleared past i later split
  obtain ⟨y, at_i', same⟩ := kept i x at_i
  exact ⟨y, at_i', same ▸ may⟩

theorem Fanout.Cleared.skip {sessions : List Session} {p : Fanout}
    (cleared : p.Cleared sessions) : p.skip.Cleared sessions :=
  ⟨cleared.topic, fun past => absurd rfl past⟩

structure Inv (s : Hub) : Prop where
  sessions : ∀ x ∈ s.sessions, x.Confined
  fanouts : ∀ p ∈ s.fanouts, p.Cleared s.sessions

theorem Inv.init : Inv Hub.init := by
  constructor <;> simp [Hub.init]

section

variable {s t : Hub} {i j : Nat} {x y : Session} {p : Fanout}

theorem Inv.set (inv : Inv s) (at_i : s.sessions[i]? = some x) (confined : y.Confined)
    (same : y.identity = x.identity) : Inv { s with sessions := s.sessions.set i y } := by
  constructor
  · exact forall_mem_set inv.sessions confined
  · exact fun p mem => (inv.fanouts p mem).kept (.set at_i same)

theorem Inv.setFanout (inv : Inv s) (cleared : p.Cleared s.sessions) :
    Inv { s with fanouts := s.fanouts.set j p } :=
  { inv with fanouts := forall_mem_set inv.fanouts cleared }

/-- **One step of a publish.**  The topic comparison clears the session in hand; the send
is only reached behind it. -/
theorem inv_advance {toLower : Bytes → Bytes} (inv : Inv s) (at_j : s.fanouts[j]? = some p)
    (moved : s.advance toLower j p = some t) : Inv t := by
  have cleared := inv.fanouts p (mem_of_getElem? at_j)
  revert moved
  fun_cases Hub.advance toLower s j p with
  | case1 =>
    rintro ⟨⟩
    exact { inv with fanouts := forall_mem_eraseIdx inv.fanouts }
  | case2 => rintro ⟨⟩
  | case3 i later rest x at_i c stage passes =>
    rintro ⟨⟩
    refine inv.setFanout ⟨cleared.topic, fun _ k more split => ?_⟩
    obtain ⟨rfl, -⟩ := List.cons.inj (rest.symm.trans split)
    refine ⟨x, at_i, ?_⟩
    by_cases first : c = .topic
    · subst first
      exact explores_of_passes (inv.sessions x (mem_of_getElem? at_i)).filter passes
    · obtain ⟨z, at_i', may⟩ := cleared.cleared (by simpa [stage] using first) i later rest
      grind
  | case4 =>
    rintro ⟨⟩
    exact inv.setFanout cleared.skip
  | case5 i later rest x at_i stage =>
    rintro ⟨⟩
    obtain ⟨z, at_i', may⟩ := cleared.cleared (by simp [stage]) i later rest
    obtain rfl : x = z := some.inj (at_i.symm.trans at_i')
    have sent := (inv.sessions x (mem_of_getElem? at_i)).offer (cleared.topic ▸ may)
    have kept : Inv { s with sessions := s.sessions.set i (x.offer p.event) } :=
      inv.set at_i sent (x.offer_identity _)
    exact kept.setFanout (cleared.skip.kept (.set at_i (x.offer_identity _)))

theorem inv_step {toLower : Bytes → Bytes} {cfg : Config} {e : Event} (inv : Inv s)
    (asked : confined s e = true) (taken : step toLower cfg s e = some t) : Inv t := by
  revert taken
  fun_cases step toLower cfg s e with
  | case1 =>
    rintro ⟨⟩
    exact inv
  | case2 r id filter opened =>
    rintro ⟨⟩
    constructor
    · intro x mem
      rcases mem_append.mp mem with old | new
      · exact inv.sessions x old
      · obtain rfl := mem_singleton.mp new
        exact ⟨admits_opened opened, nofun, nofun, nofun⟩
    · exact fun p mem => (inv.fanouts p mem).kept (.append _ _)
  | case4 i m x at_i =>
    intro taken
    obtain ⟨y, moved, rfl⟩ := map_eq_some_iff.mp taken
    have admitted : ∀ f, m = .control (.frame .updateFilter (some f)) →
        admits x.identity f = true := by
      rintro f rfl
      simpa [confined, at_i] using asked
    obtain ⟨kept, same⟩ := (inv.sessions x (mem_of_getElem? at_i)).move admitted moved
    exact inv.set at_i kept same
  | case5 ev order =>
    rintro ⟨⟩
    refine { inv with fanouts := fun p mem => ?_ }
    rcases mem_append.mp mem with old | new
    · exact inv.fanouts p old
    · obtain rfl := mem_singleton.mp new
      exact ⟨rfl, fun past => absurd rfl past⟩
  | case8 j p at_j => exact fun taken => inv_advance inv at_j taken
  | _ => rintro ⟨⟩

theorem inv_reached {toLower : Bytes → Bytes} {cfg : Config}
    (reached : Reaches (step toLower cfg) (fun s e => confined s e = true) Hub.init s) : Inv s := by
  induction reached with
  | init => exact .init
  | step _ asked taken ih => exact inv_step ih asked taken

end

/-- **What an explorer session shows.**  In every run in which each new filter asks only
for topics its client may explore, every message written to a session is of a topic on
which the session's identity holds the subscribe or the admin permission. -/
theorem explorer_confined (toLower : Bytes → Bytes) (cfg : Config) (s : Hub)
    (reached : Reaches (step toLower cfg) (fun s e => confined s e = true) Hub.init s) :
    ∀ x ∈ s.sessions, ∀ m, .msg m ∈ x.written →
      x.identity.can .subscribe m.topic = true ∨ x.identity.can .admin m.topic = true := by
  intro x mem m written
  have may := ((inv_reached reached).sessions x mem).written m written
  simpa [explores] using may

section Sample

/-- A consumer that may only see `orders`, and its stream. -/
def reader : Identity := ⟨"dana", .consumer, ["orders"]⟩

def readerStream : OpenRequest := ⟨"orders", [], "", [], none, some reader, true, none⟩

def sampleMessage (topic : String) (offset : Int) : ExplorerEvent :=
  ⟨⟨"m", topic, 0, [1], [], [], 0, offset, 0⟩, "p"⟩

/-- A publish to one session and the drain that writes it. -/
def delivery (ev : ExplorerEvent) : List Event :=
  .publish ev [0] :: List.replicate 6 (.fanout 0) ++ List.replicate 3 (.session 0 .drain)

def sampleRun : List Event :=
  .open readerStream :: delivery (sampleMessage "orders" 0)
    ++ [.fanout 0, .session 0 (.control (.frame .updateFilter (some ⟨"orders", 0, [], "", []⟩)))]
    ++ delivery (sampleMessage "orders" 1)

def enabledConfig : Config := ⟨true, 0⟩

/-- What each session's identity is and what was written to it. -/
def report (s : Hub) : List (Identity × List Frame) := s.sessions.map fun x => (x.identity, x.written)

theorem explorer_confined_sample :
    ∃ s, Reaches (step id enabledConfig) (fun s e => confined s e = true) Hub.init s ∧
      report s = [(reader, [.msg (sampleMessage "orders" 0).frame,
        .msg (sampleMessage "orders" 1).frame])] ∧
      ∀ x ∈ s.sessions, ∀ m, .msg m ∈ x.written →
        x.identity.can .subscribe m.topic = true ∨ x.identity.can .admin m.topic = true := 
  Reaches.exists_run_of (P := fun s => report s = [(reader, [.msg (sampleMessage "orders" 0).frame,
    .msg (sampleMessage "orders" 1).frame])]) sampleRun (by decide +kernel)
    fun s reached shown => ⟨shown, explorer_confined id enabledConfig s reached⟩

/-- **The filter is not checked again.**  The reader's stream is open for `orders`; a
control frame replaces the filter by the empty one, and a message of `payroll` is
written to the session. -/
theorem explorer_leaks :
    ∃ s, Reaches (step id enabledConfig) (fun _ _ => True) Hub.init s ∧
      ∃ x ∈ s.sessions, ∃ m, .msg m ∈ x.written ∧
        x.identity.can .subscribe m.topic = false ∧ x.identity.can .admin m.topic = false := by
  refine Reaches.exists_run_of (P := fun s => report s =
    [(reader, [.msg (sampleMessage "payroll" 0).frame])]) (.open readerStream ::
      .session 0 (.control (.frame .updateFilter (some ⟨"", 0, [], "", []⟩))) ::
      delivery (sampleMessage "payroll" 0)) (by decide +kernel) fun s _ shown => ?_
  obtain ⟨x, only, who⟩ := map_eq_singleton_iff.mp shown
  have mem : x ∈ s.sessions := only ▸ mem_singleton_self x
  obtain ⟨identity, written⟩ := Prod.mk.inj who
  refine ⟨x, mem, (sampleMessage "payroll" 0).frame, ?_, ?_⟩
  · simp [written]
  · rw [identity]
    decide

end Sample

end PubsubBroker.Explorer
