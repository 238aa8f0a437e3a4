/-
# Consumers.Departure — a consumer that leaves while a message is dispatched to it

`Group.Dispatch` with `handleSlowConsumer` against `Join` and `Leave`, all of
`internal/consumer/consumer.go`.  `Dispatch` tries the consumer of the partition under the
group's lock.  If its channel is full, the lock is given up and the consumer is tried again a
number of times, with sleeps in between; then the message goes to the dead-letter queue.

The retries work on the object they found.  A consumer that leaves in the meantime is closed:
its pull channel is, on which a send panics, while its push channel takes messages that nobody
reads any more.  So the model keeps the consumers that have left (`gone`), and what a dispatch
holds is a `Ref` to a member or to one of those.  A consumer that joins again under the same id
is another object.

The lock makes the first attempt one step, and each retry is a step.  In between, consumers
join, leave, get a push channel and receive, other messages are dispatched, and others work on
the dead-letter queue.  `sent` records the consumers whose channel got the message, `dead` the
entries made for it.

`dispatch_safe_iff` says when the end of a dispatch is the wanted one; `dispatch_unsafe` shows
the ways in which it is not.
-/
import PubsubBroker.Consumers.Assignment
import PubsubBroker.Consumers.DeadLetters
import PubsubBroker.Theory.Transition

namespace PubsubBroker.Consumers.Departure

open Theory List Option
open Storage (Message)

/-! ## States -/

/-- A consumer: a member of the group, or one that has left, by its place among those. -/
inductive Ref where
  | member (consumerID : String)
  | gone (place : Nat)
deriving DecidableEq

inductive Phase where
  | start
  | slow (c : Ref) (attempts : Nat)
  | ended
  | panicked
deriving DecidableEq

structure Dispatching where
  group : Group
  gone : List Consumer
  dlq : DeadLetterQueue
  phase : Phase
  sent : List Ref
  dead : List DLQEntry

def start (g : Group) (gone : List Consumer) (dlq : DeadLetterQueue) : Dispatching :=
  ⟨g, gone, dlq, .start, [], []⟩

/-- The member that leaves becomes the last of those that have left. -/
def Ref.leave (consumerID : String) (place : Nat) : Ref → Ref
  | .member id => if id = consumerID then .gone place else .member id
  | .gone k => .gone k

def Phase.leave (consumerID : String) (place : Nat) : Phase → Phase
  | .slow c attempts => .slow (c.leave consumerID place) attempts
  | phase => phase

/-- A consumer receives from the channel its messages go to. -/
def receive (c : Consumer) : Consumer :=
  match c.pushCh with
  | some queue => { c with pushCh := some (queue.drop 1) }
  | none => { c with msgCh := c.msgCh.drop 1 }

/-- The consumers a dispatch puts the message into the channel of, before it finds a full one. -/
def reached (msg : Message) : List Consumer → List Ref
  | [] => []
  | c :: cs =>
    if msg.partition ∈ c.assignments then
      match c.deliver msg with
      | some _ => .member c.id :: reached msg cs
      | none => []
    else reached msg cs

/-! ## Steps -/

inductive Event where
  | join (consumerID : String) (bufferSize : Nat)
  | leave (consumerID : String)
  | setSink (consumerID : String)
  | receive (consumerID : String)
  | receiveGone (place : Nat)
  | other (msg : Message)
  | deadLetters (dlq : DeadLetterQueue)
  | dispatch
  | retry
  | giveUp

def deadLetter (g : Group) (msg : Message) (maxRetries : Nat) : DLQEntry :=
  ⟨some msg, g.id, "consumer channel full after retries", maxRetries⟩

/-- One retry of `handleSlowConsumer`. -/
def Dispatching.retry (msg : Message) (s : Dispatching) (attempts : Nat) : Ref → Option Dispatching
  | .member id =>
    match s.group.consumers.find? fun c => c.id = id with
    | none => none
    | some c =>
      match c.deliver msg with
      | some _ =>
        some { s with
          group := s.group.update id fun c => (c.deliver msg).getD c
          phase := .ended
          sent := s.sent ++ [.member id] }
      | none => some { s with phase := .slow (.member id) (attempts + 1) }
  | .gone place =>
    match s.gone[place]? with
    | none => none
    | some c =>
      match c.pushCh, c.deliver msg with
      | none, _ => some { s with phase := .panicked }
      | some _, some c' =>
        some { s with
          gone := s.gone.set place c'
          phase := .ended
          sent := s.sent ++ [.gone place] }
      | some _, none => some { s with phase := .slow (.gone place) (attempts + 1) }

def step (msg : Message) (maxRetries : Nat) (s : Dispatching) : Event → Option Dispatching
  | .join consumerID bufferSize =>
    some { s with group := s.group.call (.join consumerID bufferSize) }
  | .leave consumerID =>
    match s.group.consumers.find? fun c => c.id = consumerID with
    | none => some s
    | some c =>
      some { s with
        group := s.group.call (.leave consumerID)
        gone := s.gone ++ [c]
        phase := s.phase.leave consumerID s.gone.length
        sent := s.sent.map (Ref.leave consumerID s.gone.length) }
  | .setSink consumerID => some { s with group := s.group.update consumerID Consumer.setSink }
  | .receive consumerID => some { s with group := s.group.update consumerID receive }
  | .receiveGone place => some { s with gone := s.gone.modify place receive }
  | .other msg' => some { s with group := (s.group.dispatch msg').1 }
  | .deadLetters dlq => some { s with dlq := dlq }
  | .dispatch =>
    match s.phase with
    | .start =>
      let dispatched := s.group.dispatch msg
      some { s with
        group := dispatched.1
        sent := reached msg s.group.consumers
        phase :=
          match dispatched.2 with
          | none => .ended
          | some consumerID => .slow (.member consumerID) 0 }
    | _ => none
  | .retry =>
    match s.phase with
    | .slow c attempts => if attempts < maxRetries then s.retry msg attempts c else none
    | _ => none
  | .giveUp =>
    match s.phase with
    | .slow _ attempts =>
      if attempts < maxRetries then none
      else
        let entry := deadLetter s.group msg maxRetries
        some { s with dlq := s.dlq.push entry, phase := .ended, dead := s.dead ++ [entry] }
    | _ => none

def Dispatching.finished (s : Dispatching) : Bool := s.phase = .ended ∨ s.phase = .panicked

/-- The wanted end of a dispatch: the message is in the channel of one consumer, a member, or it
is in the dead-letter queue once. -/
def Dispatching.Safe (msg : Message) (maxRetries : Nat) (s : Dispatching) : Prop :=
  s.phase = .ended ∧
    ((∃ c ∈ s.group.consumers, s.sent = [.member c.id] ∧ msg ∈ c.queued) ∧ s.dead = [] ∨
      s.sent = [] ∧ s.dead = [deadLetter s.group msg maxRetries] ∧
        deadLetter s.group msg maxRetries ∈ s.dlq.entries)

/-! ## The attempt under the lock -/

section

variable {msg : Message}

theorem mem_queued_deliver {c c' : Consumer} (done : c.deliver msg = some c') :
    msg ∈ c'.queued := by
  unfold Consumer.deliver at done
  split at done
  · grind [Consumer.queued]
  · grind [Consumer.queued]

theorem reached_unowned {cs : List Consumer} (unowned : ∀ c ∈ cs, msg.partition ∉ c.assignments) :
    reached msg cs = [] := by
  induction cs with
  | nil => rfl
  | cons c cs ih =>
    obtain ⟨first, later⟩ := forall_mem_cons.mp unowned
    simp only [reached, if_neg first, ih later]

theorem reached_owned {cs : List Consumer} {c : Consumer}
    (disjoint : cs.Pairwise fun c d => ∀ p ∈ c.assignments, p ∉ d.assignments)
    (mem : c ∈ cs) (owns : msg.partition ∈ c.assignments) :
    reached msg cs = (c.deliver msg).elim [] fun _ => [.member c.id] := by
  induction cs with
  | nil => exact absurd mem not_mem_nil
  | cons d ds ih =>
    obtain ⟨first, later⟩ := pairwise_cons.mp disjoint
    rcases mem_cons.mp mem with rfl | mem
    · simp only [reached, if_pos owns, reached_unowned fun e mem => first e mem _ owns]
      cases c.deliver msg <;> rfl
    · have other : msg.partition ∉ d.assignments := fun both => first c mem _ both owns
      simp only [reached, if_neg other, ih later mem]

end

/-! ## The invariant -/

/-- The object is there. -/
def Ref.Valid (s : Dispatching) : Ref → Prop
  | .member id => id ∈ s.group.ids
  | .gone place => place < s.gone.length

/-- Until a dispatch ends, nobody has its message. -/
structure Dispatching.Waits (s : Dispatching) : Prop where
  dealt : s.group.Dealt
  unsent : s.finished = false → s.sent = [] ∧ s.dead = []
  held : ∀ c attempts, s.phase = .slow c attempts → c.Valid s

theorem receive_seat (c : Consumer) :
    (receive c).id = c.id ∧ (receive c).assignments = c.assignments := by
  unfold receive
  split <;> exact ⟨rfl, rfl⟩

theorem redelivered_seat (msg : Message) (c : Consumer) :
    ((c.deliver msg).getD c).id = c.id ∧ ((c.deliver msg).getD c).assignments = c.assignments := by
  cases delivered : c.deliver msg with
  | none => exact ⟨rfl, rfl⟩
  | some c' => exact Consumer.deliver_seat delivered

section

variable {msg : Message} {maxRetries : Nat} {s s' : Dispatching}

theorem waits_start {g : Group} (dealt : g.Dealt) (gone : List Consumer) (dlq : DeadLetterQueue) :
    (start g gone dlq).Waits where
  dealt := dealt
  unsent _ := ⟨rfl, rfl⟩
  held c attempts slow := absurd slow (by simp [start])

theorem Dispatching.Waits.moved (waits : s.Waits) {g : Group} {gone : List Consumer}
    (count : g.partCount = s.group.partCount) (same : g.seats = s.group.seats)
    (size : gone.length = s.gone.length) :
    Dispatching.Waits { s with group := g, gone := gone } where
  dealt := waits.dealt.of_seats count same
  unsent := waits.unsent
  held := by
    intro c attempts slow
    have valid := waits.held c attempts slow
    cases c with
    | member id =>
      change id ∈ g.ids
      rw [Group.ids_eq_seats, same, ← Group.ids_eq_seats]
      exact valid
    | gone place =>
      change place < gone.length
      rw [size]
      exact valid

theorem Dispatching.Waits.join (waits : s.Waits) (consumerID : String) (bufferSize : Nat) :
    Dispatching.Waits { s with group := s.group.call (.join consumerID bufferSize) } where
  dealt := waits.dealt.call (.join consumerID bufferSize)
  unsent := waits.unsent
  held := by
    intro c attempts slow
    have valid := waits.held c attempts slow
    cases c with
    | member id => exact Group.mem_ids_join.mpr (.inr valid)
    | gone place => exact valid

theorem Dispatching.Waits.leave (waits : s.Waits) (consumerID : String) (c : Consumer) :
    Dispatching.Waits { s with
      group := s.group.call (.leave consumerID)
      gone := s.gone ++ [c]
      phase := s.phase.leave consumerID s.gone.length
      sent := s.sent.map (Ref.leave consumerID s.gone.length) } where
  dealt := waits.dealt.call (.leave consumerID)
  unsent := by
    intro going
    have before : s.finished = false := by
      revert going
      simp only [Dispatching.finished]
      cases s.phase <;> exact id
    simp [unsent, waits, before]
  held := by
    intro c' attempts slow
    cases phase : s.phase with
    | slow c attempts' =>
      rw [phase] at slow
      cases slow
      have valid := waits.held c _ phase
      cases c with
      | member id =>
        by_cases same : id = consumerID
        · rw [show Ref.leave consumerID s.gone.length (.member id) = .gone s.gone.length from
            if_pos same]
          change s.gone.length < (s.gone ++ [_]).length
          simp
        · rw [show Ref.leave consumerID s.gone.length (.member id) = .member id from
            if_neg same]
          exact Group.mem_ids_leave.mpr ⟨same, valid⟩
      | gone place =>
        change place < (s.gone ++ [_]).length
        have valid : place < s.gone.length := valid
        simp; omega
    | _ => rw [phase] at slow; cases slow

theorem Dispatching.Waits.dispatch (waits : s.Waits) (phase : s.phase = .start)
    (taken : step msg maxRetries s .dispatch = some s') :
    s'.Waits ∧ s'.dead = [] ∧
      ((∀ c ∈ s.group.consumers, msg.partition ∉ c.assignments) ∧ s'.phase = .ended ∧ s'.sent = [] ∨
        (∃ c ∈ s.group.consumers, msg.partition ∈ c.assignments) ∧
          ((∃ c ∈ s'.group.consumers, s'.sent = [.member c.id] ∧ msg ∈ c.queued) ∧
              s'.phase = .ended ∨
            ∃ id, s'.phase = .slow (.member id) 0)) := by
  obtain ⟨-, undead⟩ := waits.unsent (by simp [finished, phase])
  simp only [step, phase, some.injEq] at taken
  subst taken
  have dealt : (s.group.dispatch msg).1.Dealt := waits.dealt.of_seats rfl (s.group.seats_dispatch msg)
  by_cases owned : ∃ c ∈ s.group.consumers, msg.partition ∈ c.assignments
  · obtain ⟨c, mem, owns⟩ := owned
    have sent := reached_owned waits.dealt.disjoint mem owns
    cases delivered : c.deliver msg with
    | some c' =>
      have dispatched := waits.dealt.dispatch_delivered mem owns delivered
      rw [delivered, elim_some] at sent
      refine ⟨⟨dealt, ?_, ?_⟩, undead, .inr ⟨⟨c, mem, owns⟩, .inl ⟨⟨c', ?_, ?_, ?_⟩, ?_⟩⟩⟩
      · simp [finished, dispatched]
      · simp [dispatched]
      · rw [dispatched]
        exact mem_map.mpr ⟨c, mem, if_pos rfl⟩
      · rw [(Consumer.deliver_seat delivered).1]
        exact sent
      · exact mem_queued_deliver delivered
      · simp only [dispatched]
    | none =>
      have dispatched := waits.dealt.dispatch_slow mem owns delivered
      rw [delivered, elim_none] at sent
      refine ⟨⟨dealt, fun _ => ⟨sent, undead⟩, ?_⟩, undead,
        .inr ⟨⟨c, mem, owns⟩, .inr ⟨c.id, by simp only [dispatched]⟩⟩⟩
      intro held attempts held_eq
      simp only [dispatched, Phase.slow.injEq] at held_eq ⊢
      obtain ⟨rfl, -⟩ := held_eq
      exact mem_map_of_mem mem
  · have unowned : ∀ c ∈ s.group.consumers, msg.partition ∉ c.assignments :=
      fun c mem owns => owned ⟨c, mem, owns⟩
    have unsent := reached_unowned unowned
    have dispatched := Group.dispatch_unowned unowned
    refine ⟨⟨dealt, fun _ => ⟨unsent, undead⟩, ?_⟩, undead, .inl ⟨unowned, ?_, unsent⟩⟩
    · simp [dispatched]
    · simp only [dispatched]

theorem Dispatching.Waits.retry_member (waits : s.Waits) {id : String} {attempts : Nat}
    (phase : s.phase = .slow (.member id) attempts)
    (taken : s.retry msg attempts (.member id) = some s') :
    s'.Waits ∧
      ((∃ c ∈ s'.group.consumers, s'.sent = [.member c.id] ∧ msg ∈ c.queued) ∧ s'.dead = [] ∧
          s'.phase = .ended ∨
        s'.phase = .slow (.member id) (attempts + 1)) := by
  obtain ⟨unsent, undead⟩ := waits.unsent (by simp [finished, phase])
  have valid := waits.held _ _ phase
  simp only [retry] at taken
  cases found : s.group.consumers.find? fun c => decide (c.id = id) with
  | none => simp [found] at taken
  | some c =>
    have named := find?_some found
    have named : c.id = id := of_decide_eq_true named
    cases delivered : c.deliver msg with
    | none =>
      simp only [found, delivered, some.injEq] at taken
      subst taken
      refine ⟨⟨waits.dealt, fun _ => ⟨unsent, undead⟩, ?_⟩, .inr rfl⟩
      intro held attempts' held_eq
      cases held_eq
      exact valid
    | some c' =>
      simp only [found, delivered, some.injEq] at taken
      subst taken
      have moved := waits.moved (g := s.group.update id fun c => (c.deliver msg).getD c) rfl
        (Group.seats_update (redelivered_seat msg)) rfl
      refine ⟨⟨moved.dealt, ?_, ?_⟩, .inl ⟨⟨c', ?_, ?_, mem_queued_deliver delivered⟩, undead, rfl⟩⟩
      · simp [finished]
      · simp
      · refine mem_map.mpr ⟨c, mem_of_find?_eq_some found, ?_⟩
        simp [named, delivered]
      grind [Consumer.deliver_seat]

/-- A retry of one that has left panics, or its channel takes the message, or it counts. -/
theorem Dispatching.Waits.retry_gone (waits : s.Waits) {place attempts : Nat}
    (phase : s.phase = .slow (.gone place) attempts)
    (taken : s.retry msg attempts (.gone place) = some s') :
    s'.Waits ∧
      (s'.phase = .panicked ∨ s'.sent = [.gone place] ∧ s'.phase = .ended ∨
        s'.phase = .slow (.gone place) (attempts + 1)) := by
  obtain ⟨unsent, undead⟩ := waits.unsent (by simp [finished, phase])
  have valid := waits.held _ _ phase
  simp only [retry] at taken
  split at taken
  · cases taken
  · split at taken
    · cases taken
      refine ⟨⟨waits.dealt, ?_, ?_⟩, .inl rfl⟩
      · simp [finished]
      · simp
    · cases taken
      refine ⟨⟨waits.dealt, ?_, ?_⟩, .inr (.inl ⟨?_, rfl⟩)⟩
      · simp [finished]
      · simp
      · simp [unsent]
    · cases taken
      refine ⟨⟨waits.dealt, fun _ => ⟨unsent, undead⟩, ?_⟩, .inr (.inr rfl)⟩
      intro held attempts' held_eq
      cases held_eq
      exact valid

theorem Dispatching.Waits.retried (waits : s.Waits) {c : Ref} {attempts : Nat}
    (phase : s.phase = .slow c attempts) (taken : s.retry msg attempts c = some s') : s'.Waits := by
  cases c with
  | member id => exact (waits.retry_member phase taken).1
  | gone place => exact (waits.retry_gone phase taken).1

theorem Dispatching.Waits.giveUp (waits : s.Waits)
    (taken : step msg maxRetries s .giveUp = some s') :
    s'.Waits ∧ s'.Safe msg maxRetries := by
  simp only [step] at taken
  split at taken
  · rename_i c attempts phase
    obtain ⟨unsent, undead⟩ := waits.unsent (by simp [finished, phase])
    split at taken
    · cases taken
    · cases taken
      refine ⟨⟨waits.dealt, by simp [finished], by simp⟩, rfl, .inr ⟨unsent, ?_, ?_⟩⟩
      · rw [undead]
        rfl
      · exact mem_append_right _ (mem_singleton_self _)
  · cases taken

/-- **Every step keeps the invariant.** -/
theorem Dispatching.Waits.step (waits : s.Waits) {e : Event}
    (taken : step msg maxRetries s e = some s') : s'.Waits := by
  cases e with
  | join consumerID bufferSize =>
    cases taken
    simp [join, waits]
  | leave consumerID => grind [step, leave]
  | setSink consumerID =>
    cases taken
    exact waits.moved rfl (Group.seats_update fun c => ⟨rfl, rfl⟩) rfl
  | receive consumerID =>
    cases taken
    exact waits.moved rfl (Group.seats_update receive_seat) rfl
  | receiveGone place =>
    cases taken
    simp [moved, waits]
  | other msg' =>
    cases taken
    exact waits.moved rfl (Group.seats_dispatch ..) rfl
  | deadLetters dlq =>
    cases taken
    exact ⟨waits.dealt, waits.unsent, waits.held⟩
  | dispatch =>
    cases phase : s.phase with
    | start => exact (waits.dispatch phase taken).1
    | _ => simp [Departure.step, phase] at taken
  | retry =>
    simp only [Departure.step] at taken
    split at taken
    · rename_i phase
      split at taken
      · exact waits.retried phase taken
      · cases taken
    · cases taken
  | giveUp => exact (waits.giveUp taken).1

/-- What the last step of a dispatch needs: somebody who has the partition, under the lock, and
somebody who is still a member, at a retry. -/
def Fair (msg : Message) (s : Dispatching) : Event → Prop
  | .dispatch => ∃ c ∈ s.group.consumers, msg.partition ∈ c.assignments
  | .retry => ∃ consumerID attempts, s.phase = .slow (.member consumerID) attempts
  | _ => True

/-- **The last step of a dispatch**. -/
theorem Dispatching.Waits.last (waits : s.Waits) {e : Event} (going : s.finished = false)
    (taken : Departure.step msg maxRetries s e = some s') (done : s'.finished = true) :
    s'.Safe msg maxRetries ↔ Fair msg s e := by
  cases e with
  | leave consumerID =>
    simp only [Departure.step] at taken
    split at taken
    · grind
    · cases taken
      revert going done
      simp only [finished]
      cases s.phase <;> simp [Phase.leave]
  | dispatch =>
    cases phase : s.phase with
    | start =>
      obtain ⟨-, undead, outcome⟩ := waits.dispatch phase taken
      rcases outcome with ⟨unowned, ended, unsent⟩ | ⟨owned, ⟨sent, ended⟩ | ⟨id, slow⟩⟩
      · refine iff_of_false ?_ ?_
        · simp [Safe, unsent, undead]
        · rintro ⟨c, mem, owns⟩
          exact unowned c mem owns
      · exact iff_of_true ⟨ended, .inl ⟨sent, undead⟩⟩ owned
      · simp [finished, slow] at done
    | _ => simp [Departure.step, phase] at taken
  | retry =>
    simp only [Departure.step] at taken
    split at taken
    · rename_i c attempts phase
      split at taken
      · cases c with
        | member id =>
          rcases (waits.retry_member phase taken).2 with ⟨sent, undead, ended⟩ | slow
          · exact iff_of_true ⟨ended, .inl ⟨sent, undead⟩⟩ ⟨id, attempts, phase⟩
          · simp [finished, slow] at done
        | gone place =>
          have unfair : ¬ Fair msg s .retry := by
            rintro ⟨id, attempts', member⟩
            grind
          refine iff_of_false ?_ unfair
          rcases (waits.retry_gone phase taken).2 with panicked | ⟨sent, ended⟩ | slow
          · simp [Safe, panicked]
          · simp [Safe, sent]
          · simp [finished, slow] at done
      · cases taken
    · cases taken
  | giveUp => exact iff_of_true (waits.giveUp taken).2 trivial
  | _ =>
    cases taken
    exact absurd (going.symm.trans done) Bool.false_ne_true

theorem Dispatching.Waits.moves (waits : s.Waits) (msg : Message) (maxRetries : Nat)
    (going : s.finished = false) :
    ∃ e ∈ [Event.dispatch, .retry, .giveUp], (Departure.step msg maxRetries s e).isSome := by
  cases phase : s.phase with
  | start => exact ⟨.dispatch, by simp, by simp [Departure.step, phase]⟩
  | slow c attempts =>
    by_cases more : attempts < maxRetries
    · refine ⟨.retry, by simp, ?_⟩
      have valid := waits.held _ _ phase
      simp only [Departure.step, phase, if_pos more]
      cases c with
      | member id =>
        obtain ⟨c, mem, named⟩ := mem_map.mp valid
        cases found : s.group.consumers.find? fun c => decide (c.id = id) with
        | none => exact absurd (decide_eq_true named) (find?_eq_none.mp found c mem)
        | some c => grind [retry]
      | gone place =>
        simp only [retry, getElem?_eq_getElem valid]
        split <;> rfl
    · exact ⟨.giveUp, by simp, by simp [Departure.step, phase, more]⟩
  | ended | panicked => simp [finished, phase] at going

end

theorem waits_reached {msg : Message} {maxRetries : Nat} {g : Group} {gone : List Consumer}
    {dlq : DeadLetterQueue} {s : Dispatching} (dealt : g.Dealt)
    (run : Reaches (step msg maxRetries) (fun _ _ => True) (start g gone dlq) s) : s.Waits := by
  induction run with
  | init => exact waits_start dealt gone dlq
  | step _ _ taken ih => exact ih.step taken

/-- **When a dispatch is safe**, in every interleaving.  A group begins empty; consumers join and
leave before and during the dispatch of a message.  The step that ends the dispatch leaves the
message in the channel of one member, or in the dead-letter queue once, exactly when it is not
the attempt of a group in which nobody has the partition, and not a retry of a consumer that has
left. -/
theorem dispatch_safe_iff (id topic : String) (partCount : Nat) (dlq : DeadLetterQueue)
    (msg : Message) (maxRetries : Nat) {s s' : Dispatching} {e : Event}
    (run : Reaches (step msg maxRetries) (fun _ _ => True)
      (start (newGroup id topic partCount) [] dlq) s)
    (going : s.finished = false) (taken : step msg maxRetries s e = some s')
    (done : s'.finished = true) : s'.Safe msg maxRetries ↔ Fair msg s e := by
  have waits : s.Waits := waits_reached (Group.dealt_newGroup id topic partCount) run
  exact waits.last going taken done

/-! ## Dispatches that go wrong, and one that goes well -/

def note (id : String) : Message := ⟨id, "t", 0, [1], [], [], 0, 0, 0⟩

def runNote (events : List Event) : Option Dispatching :=
  runAll (step (note "m") 3) (fun _ _ => True) (start (newGroup "g" "t" 1) [] (newDLQ 10)) events

/-- A consumer with a channel of one place, which another message has filled, is found slow. -/
def slowConsumer : List Event := [.join "c" 1, .other (note "o"), .dispatch]

/-- **The ways to lose a message.**  The slow consumer leaves and the retry sends on the closed
channel; the slow consumer gets a push channel, leaves, and its message goes into that; and a
group without consumers drops the message. -/
theorem dispatch_unsafe :
    (runNote (slowConsumer ++ [.leave "c", .retry])).map (·.phase) = some .panicked ∧
      (runNote (slowConsumer ++ [.setSink "c", .leave "c", .retry])).map
          (fun s => (s.phase, s.sent, s.dead, s.group.consumers)) =
        some (.ended, [.gone 0], [], []) ∧
      (runNote [.dispatch]).map (fun s => (s.phase, s.sent, s.dead)) = some (.ended, [], []) := by
  decide +kernel

/-- The slow consumer receives, and another one leaves, before the retry. -/
theorem dispatch_safe_received :
    ∃ s s', runNote (.join "d" 1 :: slowConsumer ++ [.receive "c", .leave "d"]) = some s ∧
      step (note "m") 3 s .retry = some s' ∧ s'.Safe (note "m") 3 := by
  have ran : (runNote (.join "d" 1 :: slowConsumer ++ [.receive "c", .leave "d"])).bind
      (fun s => (step (note "m") 3 s .retry).map fun s' => (s.phase, s'.phase)) =
        some (.slow (.member "c") 0, .ended) := by
    decide +kernel
  obtain ⟨s, run, last⟩ := bind_eq_some_iff.mp ran
  obtain ⟨s', taken, phases⟩ := map_eq_some_iff.mp last
  obtain ⟨slow, ended⟩ := Prod.ext_iff.mp phases
  have slow : s.phase = .slow (.member "c") 0 := slow
  have ended : s'.phase = .ended := ended
  refine ⟨s, s', run, taken, ?_⟩
  exact (dispatch_safe_iff "g" "t" 1 (newDLQ 10) (note "m") 3 (Reaches.init.run run)
    (by simp [Dispatching.finished, slow]) taken (by simp [Dispatching.finished, ended])).mpr
    ⟨"c", 0, slow⟩

end PubsubBroker.Consumers.Departure
