/-
# Client.Close — closing a consumer of the Go SDK

`Consumer.Close` in `pkg/client/consumer.go`, over the goroutines of `Client.Subscribe`.
It sets `closed`, closes `closedCh`, closes `msgCh` and removes the router.  `handlePush`
looks at `closed` before anything else, and the loops that deliver select between the send
and `closedCh`.

That does not protect the channel.  A frame that passed the check may reach its select
when both channels are closed, and then the send may be chosen (`close_panics`);
`Subscribe` does not look at `closed` at all.  `close_safe` is what holds when nothing is
left to deliver at the moment `msgCh` is closed.
-/
import PubsubBroker.Client.Subscribe

namespace PubsubBroker.Client

open Theory List

/-- How far `Close` has come. -/
inductive Stage where
  | live
  | marked
  | signalled
  /-- `msgCh` is closed. -/
  | shut
  | deregistered
deriving DecidableEq

def Stage.closes : Stage → Bool
  | .shut | .deregistered => true
  | _ => false

/-- A consumer that may be closed. -/
structure Closing (μ : Type) where
  state : State μ
  stage : Stage
  /-- Someone has sent on the closed channel. -/
  panicked : Bool

def Closing.init {μ : Type} : Closing μ := ⟨Client.init, .live, false⟩

inductive CloseEvent (μ : Type) where
  | work (e : Event μ)
  /-- The next statement of `Close`. -/
  | close
  /-- The select of `Subscribe` takes `closedCh`. -/
  | stopCaller
  /-- The select of `handlePush` takes `closedCh`. -/
  | stopHandler

section

variable {μ : Type}

/-- The event is a new frame; `handlePush` refuses it once `closed` is set. -/
def Event.pushes : Event μ → Bool
  | .push _ => true
  | _ => false

/-- The event chooses the send of a select. -/
def State.sends (s : State μ) : Event μ → Bool
  | .move .deliver => !s.caller.buf.isEmpty
  | .move .send =>
    match s.handler with
    | .direct (_ :: _) => true
    | _ => false
  | _ => false

def closeStep (cs : Consumer) (s : Closing μ) : CloseEvent μ → Option (Closing μ)
  | .work e =>
    if s.stage.closes && s.state.sends e then some { s with panicked := true }
    else if e.pushes ∧ s.stage ≠ .live then some s
    else (step cs s.state e).map fun state => { s with state := state }
  | .close =>
    match s.stage with
    | .live => some { s with stage := .marked }
    | .marked => some { s with stage := .signalled }
    | .signalled => some { s with stage := .shut }
    | .shut => some { s with stage := .deregistered, state := { s.state with registered := false } }
    | .deregistered => none
  | .stopCaller =>
    match s.state.caller, s.stage with
    | .delivering (_ :: _), .signalled | .delivering (_ :: _), .shut
    | .delivering (_ :: _), .deregistered => some { s with state := { s.state with caller := .done } }
    | _, _ => none
  | .stopHandler =>
    match s.state.handler, s.stage with
    | .direct (_ :: _), .signalled | .direct (_ :: _), .shut | .direct (_ :: _), .deregistered =>
      some { s with state := { s.state with handler := .idle } }
    | _, _ => none

/-- Nobody has a message to deliver, and none will come out of the buffer. -/
def Settled (s : State μ) : Prop :=
  s.caller.buf = [] ∧ s.handler.messages = [] ∧ (s.caller.early = true → s.pushBuf = [])
deriving Decidable

/-- `msgCh` is closed when nothing is left to deliver. -/
def Quietly (s : Closing μ) : CloseEvent μ → Prop
  | .close => s.stage = .signalled → Settled s.state
  | _ => True

instance (s : Closing μ) : DecidablePred (Quietly s) := by
  rintro (_ | _) <;> unfold Quietly <;> infer_instance

/-- **Work that is not a new frame** brings no message to deliver. -/
theorem Settled.step {cs : Consumer} {s t : State μ} {e : Event μ} (settled : Settled s)
    (old : ¬ e.pushes = true) (taken : step cs s e = some t) : Settled t := by
  obtain ⟨caller, handler, buffer⟩ := settled
  cases e with
  | push frame => exact absurd rfl old
  | fail =>
    simp only [Client.step] at taken
    split at taken <;> cases taken
    all_goals exact ⟨rfl, handler, by simp [Caller.early]⟩
  | move m =>
    cases moveStep_moveTo taken with
    | reset here => exact ⟨rfl, handler, fun _ => rfl⟩
    | register here | reply here =>
      exact ⟨rfl, handler, fun _ => buffer (by rw [here]; rfl)⟩
    | drain here => exact ⟨buffer (by rw [here]; rfl), handler, by simp [Caller.early]⟩
    | deliver here sent => simp [here, Caller.buf] at caller
    | returns here => exact ⟨rfl, handler, by simp [Caller.early]⟩
    | loadSet here | loadUnset here =>
      rw [here] at handler
      exact ⟨caller, handler, buffer⟩
    | append here =>
      rw [here] at handler
      obtain rfl : _ = [] := handler
      exact ⟨caller, rfl, by simpa using buffer⟩
    | send here sent => simp [here, Handler.messages] at handler
    | finish here => exact ⟨caller, rfl, buffer⟩
    | receive here => exact ⟨caller, handler, buffer⟩

theorem Settled.sends {s : State μ} (settled : Settled s) (e : Event μ) : s.sends e = false := by
  unfold State.sends
  split
  · simp [settled.1]
  · split
    · rename_i here
      simpa [here, Handler.messages] using settled.2.1
    · rfl
  · rfl

/-- No panic so far, and nothing to deliver behind the close of the channel. -/
structure Safe (s : Closing μ) : Prop where
  calm : s.panicked = false
  settled : s.stage.closes = true → Settled s.state

theorem Safe.step {cs : Consumer} {s t : Closing μ} {e : CloseEvent μ} (safe : Safe s)
    (quiet : Quietly s e) (taken : closeStep cs s e = some t) : Safe t := by
  obtain ⟨calm, settled⟩ := safe
  revert taken
  fun_cases closeStep cs s e with
  | case1 e both =>
    obtain ⟨closes, sends⟩ := Bool.and_eq_true_iff.mp both
    rw [(settled closes).sends] at sends
    cases sends
  | case2 =>
    rintro ⟨⟩
    exact ⟨calm, settled⟩
  | case3 e _ old =>
    intro taken
    obtain ⟨state, moved, rfl⟩ := Option.map_eq_some_iff.mp taken
    refine ⟨calm, fun closes => (settled closes).step (fun pushes => old ⟨pushes, ?_⟩) moved⟩
    rintro live
    rw [live] at closes
    cases closes
  | case4 | case5 =>
    rintro ⟨⟩
    exact ⟨calm, nofun⟩
  | case6 here =>
    rintro ⟨⟩
    exact ⟨calm, fun _ => quiet here⟩
  | case7 here =>
    rintro ⟨⟩
    exact ⟨calm, fun _ => settled (by rw [here]; rfl)⟩
  | case9 | case10 | case11 =>
    rintro ⟨⟩
    exact ⟨calm, fun closes => ⟨rfl, (settled closes).2.1, nofun⟩⟩
  | case13 | case14 | case15 =>
    rintro ⟨⟩
    exact ⟨calm, fun closes => ⟨(settled closes).1, rfl, (settled closes).2.2⟩⟩
  | _ => rintro ⟨⟩

end

end PubsubBroker.Client
