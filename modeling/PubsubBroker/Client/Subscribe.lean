/-
# Client.Subscribe — push delivery in the Go SDK

`Consumer.Subscribe` and `Consumer.handlePush` in `pkg/client/consumer.go`, with
`readLoop` and `routePush` in `client.go`.  Two goroutines: the caller of `Subscribe`,
which resets the buffer, registers the router, sends the request, waits for the reply,
takes the buffer and sets `subscribed` under `pushBufMu`, and then delivers what it took
without the lock; and the read loop, which handles replies and push frames one after the
other.  `handlePush` loads `subscribed` outside the lock, and then either sends to
`msgCh` or appends to the buffer under the lock.

The lock is not held from the load to what follows it, so two things can go wrong: the
buffer is taken between the load and the append, and the message stays in a buffer that
nobody reads again; or the read loop sends new messages while the caller is still
delivering the old ones (`push_unordered`).  `push_delivered` is what holds in the runs
in which neither happens.

`Close` is left out: the channel stays open.
-/
import PubsubBroker.Theory.Transition

namespace PubsubBroker.Client

open Theory List

/-- The fields of a `Consumer` that do not change. -/
structure Consumer where
  topic : String
  group : String
  id : String
  bufferSize : Nat

structure PushFrame (μ : Type) where
  topic : String
  group : String
  consumerID : String
  messages : List μ

def PushFrame.matches {μ : Type} (cs : Consumer) (push : PushFrame μ) : Bool :=
  push.topic = cs.topic ∧ push.group = cs.group ∧ push.consumerID = cs.id

/-- Where `Subscribe` is. -/
inductive Caller (μ : Type) where
  | start
  | reset
  /-- The router is registered and the request is sent. -/
  | waiting
  | replied
  /-- The buffer was taken and `subscribed` set; what is still to be delivered. -/
  | delivering (buf : List μ)
  | done
  | failed
deriving DecidableEq

/-- Where `handlePush` is, in the read loop. -/
inductive Handler (μ : Type) where
  | idle
  /-- The frame matches; `subscribed` is not yet loaded. -/
  | called (messages : List μ)
  | direct (messages : List μ)
  | buffering (messages : List μ)
deriving DecidableEq

structure State (μ : Type) where
  caller : Caller μ
  handler : Handler μ
  registered : Bool
  subscribed : Bool
  pushBuf : List μ
  msgCh : List μ
  /-- What the application has received from `Messages()`. -/
  received : List μ
  /-- The messages of all matching frames the read loop was given. -/
  pushed : List μ
deriving DecidableEq

def init {μ : Type} : State μ := ⟨.start, .idle, false, false, [], [], [], []⟩

/-- The steps of the two goroutines and of the application. -/
inductive Move where
  | reset
  | register
  | reply
  | drain
  | deliver
  | returns
  | load
  | append
  | send
  | finish
  | receive

inductive Event (μ : Type) where
  /-- The read loop decodes a push frame and `routePush` calls the handler. -/
  | push (frame : PushFrame μ)
  /-- The request is answered with an error, or given up. -/
  | fail
  | move (m : Move)

section

variable {μ : Type}

/-- A send on `msgCh`; without a buffer it is taken by the receiver at once. -/
def State.sendTo (cap : Nat) (s : State μ) (m : μ) : Option (State μ) :=
  if s.msgCh.length < cap then some { s with msgCh := s.msgCh ++ [m] }
  else if cap = 0 then some { s with received := s.received ++ [m] }
  else none

def moveStep (cs : Consumer) (s : State μ) : Move → Option (State μ)
  | .reset =>
    match s.caller with
    | .start => some { s with caller := .reset, pushBuf := [] }
    | _ => none
  | .register =>
    match s.caller with
    | .reset => some { s with caller := .waiting, registered := true }
    | _ => none
  | .reply =>
    -- the reply is handled by the read loop
    match s.caller, s.handler with
    | .waiting, .idle => some { s with caller := .replied }
    | _, _ => none
  | .drain =>
    match s.caller with
    | .replied => some { s with caller := .delivering s.pushBuf, pushBuf := [], subscribed := true }
    | _ => none
  | .deliver =>
    match s.caller with
    | .delivering (m :: rest) =>
      (s.sendTo cs.bufferSize m).map fun s => { s with caller := .delivering rest }
    | _ => none
  | .returns =>
    match s.caller with
    | .delivering [] => some { s with caller := .done }
    | _ => none
  | .load =>
    match s.handler with
    | .called messages =>
      some { s with handler := if s.subscribed then .direct messages else .buffering messages }
    | _ => none
  | .append =>
    match s.handler with
    | .buffering messages => some { s with handler := .idle, pushBuf := s.pushBuf ++ messages }
    | _ => none
  | .send =>
    match s.handler with
    | .direct (m :: rest) =>
      (s.sendTo cs.bufferSize m).map fun s => { s with handler := .direct rest }
    | _ => none
  | .finish =>
    match s.handler with
    | .direct [] => some { s with handler := .idle }
    | _ => none
  | .receive =>
    match s.msgCh with
    | m :: rest => some { s with msgCh := rest, received := s.received ++ [m] }
    | [] => none

def step (cs : Consumer) (s : State μ) : Event μ → Option (State μ)
  | .push frame =>
    match s.handler with
    | .idle =>
      if frame.matches cs then
        some { s with
          handler := if s.registered then .called frame.messages else .idle
          pushed := s.pushed ++ frame.messages }
      else some s
    | _ => none
  | .fail =>
    match s.caller with
    | .waiting | .replied => some { s with caller := .failed, registered := false }
    | _ => none
  | .move m => moveStep cs s m

/-! ## The interleavings that are safe -/

def Caller.buf : Caller μ → List μ
  | .delivering buf => buf
  | _ => []

def Handler.messages : Handler μ → List μ
  | .idle => []
  | .called messages | .direct messages | .buffering messages => messages

def Handler.buffers : Handler μ → Bool
  | .buffering _ => true
  | _ => false

/-- Matching frames come when the router is registered, the subscription does not fail,
the buffer is not taken between a load of `subscribed` and the append, and nothing is
sent directly while there are messages of the buffer to deliver. -/
def Allowed (cs : Consumer) (s : State μ) : Event μ → Prop
  | .push frame => frame.matches cs = true → s.registered = true
  | .fail => False
  | .move .drain => s.handler.buffers = false
  | .move .send => s.caller.buf.isEmpty = true
  | .move _ => True

instance (cs : Consumer) (s : State μ) (e : Event μ) : Decidable (Allowed cs s e) :=
  match e with
  | .push frame =>
    inferInstanceAs (Decidable (frame.matches cs = true → s.registered = true))
  | .fail => inferInstanceAs (Decidable False)
  | .move .drain => inferInstanceAs (Decidable (_ = false))
  | .move .send => inferInstanceAs (Decidable (_ = true))
  | .move .reset | .move .register | .move .reply | .move .deliver | .move .returns
  | .move .load | .move .append | .move .finish | .move .receive =>
    inferInstanceAs (Decidable True)

/-- Only the goroutines and the application move. -/
def Allowed.internal (cs : Consumer) (s : State μ) (e : Event μ) : Prop :=
  Allowed cs s e ∧ ∃ m, e = .move m

/-- Nothing more is possible without a new frame. -/
def Quiet (cs : Consumer) (s : State μ) : Prop :=
  ∀ m, Allowed cs s (.move m) → moveStep cs s m = none

/-! ## The invariant -/

/-- Before `subscribed` is set. -/
def Caller.early : Caller μ → Bool
  | .start | .reset | .waiting | .replied => true
  | _ => false

/-- The router is not yet registered. -/
def Caller.fresh : Caller μ → Bool
  | .start | .reset => true
  | _ => false

/-- What may be in the handler, by `subscribed`. -/
def Handler.Fits (subscribed : Bool) : Handler μ → Prop
  | .idle | .called _ => True
  | .direct _ => subscribed = true
  | .buffering _ => subscribed = false

/-- What was handed to the application or is in the channel, then what the caller is
delivering, then the buffer, then what the read loop holds: these are the messages that
were pushed, in order. -/
structure Inv (cs : Consumer) (s : State μ) : Prop where
  order : s.received ++ s.msgCh ++ s.caller.buf ++ s.pushBuf ++ s.handler.messages = s.pushed
  room : s.msgCh.length ≤ cs.bufferSize
  flag : s.subscribed = !s.caller.early
  taken : s.subscribed = true → s.pushBuf = []
  fits : s.handler.Fits s.subscribed
  registered : s.registered = !s.caller.fresh
  unused : s.registered = false → s.handler = .idle ∧ s.pushBuf = []
  going : s.caller ≠ .failed

theorem inv_init (cs : Consumer) : Inv cs (init : State μ) :=
  ⟨rfl, Nat.zero_le _, rfl, fun _ => rfl, trivial, rfl, fun _ => ⟨rfl, rfl⟩,
    fun failed => by cases failed⟩

/-- `t` is `s` after a send of `m`. -/
structure Sent (cap : Nat) (s : State μ) (m : μ) (t : State μ) : Prop where
  frame : t = { s with msgCh := t.msgCh, received := t.received }
  out : t.received ++ t.msgCh = s.received ++ s.msgCh ++ [m]
  room : t.msgCh.length ≤ cap
  fewer : t.msgCh.length ≤ s.msgCh.length + 1

theorem sendTo_sent {cap : Nat} {s t : State μ} {m : μ} (room : s.msgCh.length ≤ cap)
    (sent : s.sendTo cap m = some t) : Sent cap s m t := by
  unfold State.sendTo at sent
  split at sent
  · cases sent
    refine ⟨rfl, (append_assoc _ _ _).symm, ?_, ?_⟩
    · simp; omega
    · exact Nat.le_of_eq length_append
  · split at sent
    · rename_i unbuffered
      cases sent
      have empty : s.msgCh = [] := length_eq_zero_iff.mp (by omega)
      refine ⟨rfl, ?_, room, Nat.le_succ _⟩
      simp [empty]
    · cases sent

/-- The application can always make room. -/
theorem sendTo_free {cap : Nat} {s : State μ} (m : μ) (free : s.msgCh = []) :
    ∃ t, s.sendTo cap m = some t := by
  unfold State.sendTo
  rw [free]
  by_cases unbuffered : cap = 0
  · exact ⟨_, by rw [if_neg (by simp [unbuffered]), if_pos unbuffered]⟩
  · exact ⟨_, by rw [if_pos (by simpa using Nat.pos_of_ne_zero unbuffered)]⟩

/-- What a move does, with the place it starts from. -/
inductive MoveTo (cs : Consumer) (s : State μ) : Move → State μ → Prop where
  | reset (here : s.caller = .start) :
      MoveTo cs s .reset { s with caller := .reset, pushBuf := [] }
  | register (here : s.caller = .reset) :
      MoveTo cs s .register { s with caller := .waiting, registered := true }
  | reply (here : s.caller = .waiting) (idle : s.handler = .idle) :
      MoveTo cs s .reply { s with caller := .replied }
  | drain (here : s.caller = .replied) :
      MoveTo cs s .drain { s with caller := .delivering s.pushBuf, pushBuf := [], subscribed := true }
  | deliver {m : μ} {rest : List μ} {t : State μ} (here : s.caller = .delivering (m :: rest))
      (sent : s.sendTo cs.bufferSize m = some t) :
      MoveTo cs s .deliver { t with caller := .delivering rest }
  | returns (here : s.caller = .delivering []) : MoveTo cs s .returns { s with caller := .done }
  | loadSet {messages : List μ} (here : s.handler = .called messages) (set : s.subscribed = true) :
      MoveTo cs s .load { s with handler := .direct messages }
  | loadUnset {messages : List μ} (here : s.handler = .called messages)
      (unset : s.subscribed = false) : MoveTo cs s .load { s with handler := .buffering messages }
  | append {messages : List μ} (here : s.handler = .buffering messages) :
      MoveTo cs s .append { s with handler := .idle, pushBuf := s.pushBuf ++ messages }
  | send {m : μ} {rest : List μ} {t : State μ} (here : s.handler = .direct (m :: rest))
      (sent : s.sendTo cs.bufferSize m = some t) :
      MoveTo cs s .send { t with handler := .direct rest }
  | finish (here : s.handler = .direct []) : MoveTo cs s .finish { s with handler := .idle }
  | receive {m : μ} {rest : List μ} (here : s.msgCh = m :: rest) :
      MoveTo cs s .receive { s with msgCh := rest, received := s.received ++ [m] }

theorem moveStep_moveTo {cs : Consumer} {s t : State μ} {m : Move}
    (taken : moveStep cs s m = some t) : MoveTo cs s m t := by
  revert taken
  fun_cases moveStep cs s m with
  | case1 here =>
    rintro ⟨⟩
    exact .reset here
  | case3 here =>
    rintro ⟨⟩
    exact .register here
  | case5 idle here =>
    rintro ⟨⟩
    exact .reply here idle
  | case7 here =>
    rintro ⟨⟩
    exact .drain here
  | case9 m rest here =>
    intro taken
    obtain ⟨t, sent, rfl⟩ := Option.map_eq_some_iff.mp taken
    exact .deliver here sent
  | case11 here =>
    rintro ⟨⟩
    exact .returns here
  | case13 messages here =>
    rintro ⟨⟩
    by_cases set : s.subscribed = true
    · rw [if_pos set]
      exact .loadSet here set
    · rw [if_neg set]
      exact .loadUnset here (Bool.eq_false_iff.mpr set)
  | case15 messages here =>
    rintro ⟨⟩
    exact .append here
  | case17 m rest here =>
    intro taken
    obtain ⟨t, sent, rfl⟩ := Option.map_eq_some_iff.mp taken
    exact .send here sent
  | case19 here =>
    rintro ⟨⟩
    exact .finish here
  | case21 m rest here =>
    rintro ⟨⟩
    exact .receive here
  | _ => rintro ⟨⟩

/-! ## Every step keeps the invariant -/

variable {cs : Consumer} {s t : State μ}

theorem inv_move (inv : Inv cs s) {m : Move} (ok : Allowed cs s (.move m))
    (moved : MoveTo cs s m t) : Inv cs t := by
  have order := inv.order
  have flag := inv.flag
  have registered := inv.registered
  cases moved with
  | reset here =>
    rw [here] at order flag registered
    obtain ⟨idle, empty⟩ := inv.unused registered
    refine { inv with
        order := ?_
        flag := flag
        taken := fun _ => rfl
        registered := registered
        unused := fun _ => ⟨idle, rfl⟩
        going := fun failed => nomatch failed }
    rw [empty] at order
    exact order
  | register here =>
    rw [here] at order flag registered
    exact { inv with
        order := order
        flag := flag
        registered := rfl
        unused := fun unset => nomatch unset
        going := fun failed => nomatch failed }
  | reply here idle | returns here =>
    rw [here] at order flag registered
    exact { inv with
        order := order
        flag := flag
        registered := registered
        going := fun failed => nomatch failed }
  | drain here =>
    rw [here] at order flag registered
    refine { inv with
        order := ?_
        flag := rfl
        taken := fun _ => rfl
        fits := ?_
        registered := registered
        unused := ?_
        going := fun failed => nomatch failed }
    · show s.received ++ s.msgCh ++ s.pushBuf ++ [] ++ s.handler.messages = s.pushed
      rw [append_nil]
      rwa [show (Caller.replied : Caller μ).buf = [] from rfl, append_nil] at order
    · have fits := inv.fits
      have free : s.handler.buffers = false := ok
      show s.handler.Fits true
      rw [show s.subscribed = false from flag] at fits
      cases held : s.handler with
      | idle | called messages => trivial
      | direct messages =>
        rw [held] at fits
        cases fits
      | buffering messages =>
        rw [held] at free
        cases free
    · intro unset
      rw [registered] at unset
      cases unset
  | deliver here sent =>
    have sent := sendTo_sent inv.room sent
    rw [here] at order flag registered
    rw [sent.frame]
    refine { inv with
        order := ?_
        room := sent.room
        flag := flag
        registered := registered
        going := fun failed => nomatch failed }
    rw [← order]
    show _ ++ _ ++ _ ++ s.pushBuf ++ s.handler.messages = _
    rw [sent.out]
    simp [Caller.buf]
  | loadSet here set =>
    rw [here] at order
    refine { inv with order := order, fits := set, unused := fun unset => ?_ }
    grind [Inv.unused]
  | loadUnset here unset =>
    rw [here] at order
    refine { inv with order := order, fits := unset, unused := fun gone => ?_ }
    grind [Inv.unused]
  | append here =>
    rw [here] at order
    have fits := inv.fits
    rw [here] at fits
    refine { inv with order := ?_, taken := ?_, fits := trivial, unused := fun gone => ?_ }
    · show _ ++ (s.pushBuf ++ _) ++ [] = _
      rw [append_nil, ← append_assoc]
      exact order
    · intro set
      rw [show s.subscribed = false from fits] at set
      cases set
    grind [Inv.unused]
  | send here sent =>
    have sent := sendTo_sent inv.room sent
    have fits := inv.fits
    rw [here] at order fits
    have empty := inv.taken fits
    have delivered : s.caller.buf = [] := isEmpty_iff.mp ok
    rw [sent.frame]
    refine { inv with order := ?_, room := sent.room, fits := fits, unused := fun gone => ?_ }
    · show _ ++ _ ++ s.caller.buf ++ s.pushBuf ++ _ = _
      grind [Sent.out, Handler.messages]
    grind [Inv.unused]
  | finish here =>
    rw [here] at order
    exact { inv with order := order, fits := trivial, unused := fun gone => ⟨rfl, (inv.unused gone).2⟩ }
  | receive here =>
    have room := inv.room
    rw [here] at order room
    refine { inv with order := ?_, room := Nat.le_of_succ_le room }
    rw [← order]
    simp

theorem inv_step {e : Event μ} (inv : Inv cs s) (ok : Allowed cs s e)
    (taken : step cs s e = some t) : Inv cs t := by
  cases e with
  | fail => exact ok.elim
  | move m => exact inv_move inv ok (moveStep_moveTo taken)
  | push frame =>
    unfold step at taken
    cases held : s.handler with
    | idle =>
      simp only [held] at taken
      by_cases matched : frame.matches cs = true
      · have set : s.registered = true := ok matched
        have order := inv.order
        rw [if_pos matched, if_pos set] at taken
        cases taken
        rw [held] at order
        refine { inv with order := ?_, fits := trivial, unused := fun unset => ?_ }
        · show _ ++ frame.messages = _ ++ frame.messages
          rw [← order, Handler.messages, append_nil]
        grind
      grind
    | _ => simp only [held] at taken; cases taken

theorem inv_reaches (run : Reaches (step cs) (Allowed cs) init s) : Inv cs s := by
  induction run with
  | init => exact inv_init cs
  | step before ok taken ih => exact inv_step ih ok taken

/-! ## Everything is delivered -/

def Caller.stage : Caller μ → Nat
  | .start => 5
  | .reset => 4
  | .waiting => 3
  | .replied => 2
  | .delivering _ => 1
  | .done | .failed => 0

def Handler.stage : Handler μ → Nat
  | .idle => 0
  | .called _ => 2
  | .direct _ | .buffering _ => 1

/-- A bound on the moves that are left. -/
def State.work (s : State μ) : Nat :=
  s.caller.stage + s.handler.stage + 4 * s.handler.messages.length + 3 * s.pushBuf.length +
    2 * s.caller.buf.length + s.msgCh.length

theorem work_move (inv : Inv cs s) {m : Move} (moved : MoveTo cs s m t) :
    t.work < s.work ∧ t.pushed = s.pushed := by
  cases moved with
  | reset here | drain here | returns here =>
    simp only [State.work, here, Caller.stage, Caller.buf, length_nil, and_true]
    omega
  | register here | reply here idle =>
    simp only [State.work, here, Caller.stage, Caller.buf, and_true]
    omega
  | deliver here sent =>
    have sent := sendTo_sent inv.room sent
    have fewer := sent.fewer
    rw [sent.frame]
    simp only [State.work, here, Caller.stage, Caller.buf, length_cons, and_true]
    omega
  | loadSet here set | loadUnset here unset | finish here =>
    simp only [State.work, here, Handler.stage, Handler.messages, and_true]
    omega
  | append here =>
    simp only [State.work, here, Handler.stage, Handler.messages, length_append,
      length_nil, and_true]
    omega
  | send here sent =>
    have sent := sendTo_sent inv.room sent
    have fewer := sent.fewer
    rw [sent.frame]
    simp only [State.work, here, Handler.stage, Handler.messages, length_cons, and_true]
    omega
  | receive here =>
    simp only [State.work, here, length_cons, and_true]
    omega

theorem Quiet.settled (inv : Inv cs s) (quiet : Quiet cs s) :
    s.caller = .done ∧ s.handler = .idle ∧ s.msgCh = [] := by
  have empty : s.msgCh = [] := by
    cases held : s.msgCh with
    | nil => rfl
    | cons m rest =>
      have stuck := quiet .receive trivial
      grind [moveStep]
  have fits := inv.fits
  -- the read loop is idle, unless it waits for the caller to deliver the buffer
  have waits : s.handler = .idle ∨ s.subscribed = true ∧ s.caller.buf ≠ [] := by
    cases held : s.handler with
    | idle => exact .inl rfl
    | called messages =>
      have stuck := quiet .load trivial
      grind [moveStep]
    | buffering messages =>
      have stuck := quiet .append trivial
      grind [moveStep]
    | direct messages =>
      rw [held] at fits
      refine .inr ⟨fits, fun delivered => ?_⟩
      cases messages with
      | nil =>
        have stuck := quiet .finish trivial
        grind [moveStep]
      | cons m rest =>
        obtain ⟨t, sent⟩ := @sendTo_free μ cs.bufferSize s m empty
        have stuck := quiet .send (show s.caller.buf.isEmpty = true by rw [delivered]; rfl)
        grind [moveStep]
  have flag := inv.flag
  cases here : s.caller with
  | start =>
    have stuck := quiet .reset trivial
    grind [moveStep]
  | reset =>
    have stuck := quiet .register trivial
    grind [moveStep]
  | waiting =>
    have stuck := quiet .reply trivial
    rw [here] at flag waits
    rcases waits with idle | ⟨-, waits⟩
    · grind [moveStep]
    · exact absurd rfl waits
  | replied =>
    rw [here] at flag waits
    rcases waits with idle | ⟨-, waits⟩
    · have stuck := quiet .drain (show s.handler.buffers = false by rw [idle]; rfl)
      grind [moveStep]
    · exact absurd rfl waits
  | delivering buf =>
    cases buf with
    | nil =>
      have stuck := quiet .returns trivial
      grind [moveStep]
    | cons m rest =>
      obtain ⟨t, sent⟩ := @sendTo_free μ cs.bufferSize s m empty
      have stuck := quiet .deliver trivial
      grind [moveStep]
  | done =>
    rw [here] at waits
    rcases waits with idle | ⟨-, waits⟩
    · exact ⟨rfl, idle, empty⟩
    · exact absurd rfl waits
  | failed => exact absurd here inv.going

theorem Quiet.received_all (inv : Inv cs s) (quiet : Quiet cs s) : s.received = s.pushed := by
  obtain ⟨here, idle, empty⟩ := quiet.settled inv
  have order := inv.order
  have flag := inv.flag
  rw [here] at order flag
  rw [idle, empty, inv.taken flag] at order
  simpa [Caller.buf, Handler.messages] using order

/-- The goroutines and the application, left alone, keep the invariant and the list of
what was pushed. -/
theorem internal_run (inv : Inv cs s) (run : Reaches (step cs) (Allowed.internal cs) s t) :
    Inv cs t ∧ t.pushed = s.pushed := by
  induction run with
  | init => exact ⟨inv, rfl⟩
  | step before ok taken ih =>
    obtain ⟨allowed, m, rfl⟩ := ok
    have moved := moveStep_moveTo taken
    exact ⟨inv_move ih.1 allowed moved, (work_move ih.1 moved).2.trans ih.2⟩

/-- **Pushed messages are delivered once and in order**, in every run in which matching
frames come after the registration, the subscription succeeds, the buffer is not taken
between a load of `subscribed` and the append, and nothing is sent directly while the
buffer is being delivered.  What the application has received and what is in the channel
is always a prefix of what was pushed; every move lowers `work`; and when no move is left
the application has received everything. -/
theorem push_delivered (run : Reaches (step cs) (Allowed cs) init s) :
    s.received ++ s.msgCh <+: s.pushed ∧
      (∀ m t, moveStep cs s m = some t → t.work < s.work) ∧
      ∀ t, Reaches (step cs) (Allowed.internal cs) s t → Quiet cs t → t.received = s.pushed := by
  have inv := inv_reaches run
  refine ⟨?_, ?_, ?_⟩
  · rw [← inv.order, append_assoc _ _ s.handler.messages, append_assoc _ s.caller.buf]
    exact prefix_append _ _
  · intro m t taken
    exact (work_move inv (moveStep_moveTo taken)).1
  · intro t later quiet
    obtain ⟨inv, same⟩ := internal_run inv later
    rw [← same]
    exact quiet.received_all inv

end

/-! ## Samples -/

def sampleConsumer : Consumer := ⟨"t", "g", "sdk-consumer-1", 2⟩

def sampleFrame (messages : List Nat) : PushFrame Nat := ⟨"t", "g", "sdk-consumer-1", messages⟩

/-- Frames before the reply, between the reply and the drain, and behind it, and one for
another consumer. -/
def sampleEvents : List (Event Nat) :=
  [.move .reset, .move .register, .push (sampleFrame [1, 2]), .move .load, .move .append,
    .move .reply, .push ⟨"t", "g", "sdk-consumer-2", [9]⟩, .push (sampleFrame [3]), .move .load,
    .move .append, .move .drain, .push (sampleFrame [4]), .move .load, .move .deliver,
    .move .deliver, .move .receive, .move .deliver, .move .receive, .move .returns, .move .send,
    .move .finish, .move .receive, .move .receive]

theorem push_delivered_sample : ∃ s : State Nat,
    Reaches (step sampleConsumer) (Allowed sampleConsumer) init s ∧ s.pushed = [1, 2, 3, 4] ∧
    s.received ++ s.msgCh <+: [1, 2, 3, 4] ∧ Quiet sampleConsumer s ∧ s.received = [1, 2, 3, 4] := by
  have ran : (runAll (step sampleConsumer) (Allowed sampleConsumer) init sampleEvents) =
      some ⟨.done, .idle, true, true, [], [], [1, 2, 3, 4], [1, 2, 3, 4]⟩ := by decide +kernel
  have run := Reaches.init.run ran
  have quiet : Quiet sampleConsumer
      (⟨.done, .idle, true, true, [], [], [1, 2, 3, 4], [1, 2, 3, 4]⟩ : State Nat) := by
    intro m ok
    cases m <;> rfl
  obtain ⟨ordered, -, all⟩ := push_delivered run
  exact ⟨_, run, rfl, ordered, quiet, all _ .init quiet⟩

/-- The buffer is taken between the load and the append. -/
def sampleLost : List (Event Nat) :=
  [.move .reset, .move .register, .move .reply, .push (sampleFrame [1]), .move .load,
    .move .drain, .move .append, .move .returns]

/-- The read loop overtakes the caller. -/
def sampleOvertaken : List (Event Nat) :=
  [.move .reset, .move .register, .push (sampleFrame [1]), .move .load, .move .append,
    .move .reply, .move .drain, .push (sampleFrame [2]), .move .load, .move .send, .move .deliver,
    .move .finish, .move .returns, .move .receive, .move .receive]

/-- **A message can be lost, and messages can be reordered.**  In both runs the
subscription succeeds, the application receives all it can get, and nothing more can
happen. -/
theorem push_unordered :
    (∃ s : State Nat, Reaches (step sampleConsumer) (fun _ _ => True) init s ∧
      (∀ m, moveStep sampleConsumer s m = none) ∧ s.caller = .done ∧ s.pushed = [1] ∧
      s.received = []) ∧
    ∃ s : State Nat, Reaches (step sampleConsumer) (fun _ _ => True) init s ∧
      (∀ m, moveStep sampleConsumer s m = none) ∧ s.caller = .done ∧ s.pushed = [1, 2] ∧
      s.received = [2, 1] := by
  constructor
  · have ran : runAll (step sampleConsumer) (fun _ _ => True) init sampleLost =
        some ⟨.done, .idle, true, true, [1], [], [], [1]⟩ := by decide +kernel
    exact ⟨_, Reaches.init.run ran, fun m => by cases m <;> rfl, rfl, rfl, rfl⟩
  · have ran : runAll (step sampleConsumer) (fun _ _ => True) init sampleOvertaken =
        some ⟨.done, .idle, true, true, [], [], [2, 1], [1, 2]⟩ := by decide +kernel
    exact ⟨_, Reaches.init.run ran, fun m => by cases m <;> rfl, rfl, rfl, rfl⟩

end PubsubBroker.Client
