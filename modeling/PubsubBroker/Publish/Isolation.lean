/-
# Publish.Isolation — when clients do not interfere

Sequence numbers are remembered under the id of the broker's producer, not under
that of the client, so what one client publishes depends on the numbers of the
others.  Here a run is compared with the same run without the events of all other
clients (`Event.own`, `purge`).  The records of the client and its replies should be
the same, except that an offset is smaller by the number of the others' records in
front of it (`Alike`).

They are if a number is only looked up while no other client uses it or has a record
with it, and not between the mark and the store of another of the client's own
handlers (`Apart`).  The last is there because the marks of the others can push the
client's own mark out of the window.  Everything that is read from the shared memory
then agrees (`Related`): the window may remember less than in the run of the client
alone, but what it has forgotten is in the store.
-/
import PubsubBroker.Publish.Idempotence
import PubsubBroker.Theory.Projection

namespace PubsubBroker.Publish.ExactlyOnce

open Theory List
open Storage (Message)

/-! ## The run of one client -/

/-- The same step of another handler. -/
def Event.toHandler (j : Nat) : Event → Event
  | .refuse _ => .refuse j
  | .assign _ => .assign j
  | .lock _ => .lock j
  | .route _ stamp => .route j stamp
  | .lookup _ => .lookup j
  | .load _ => .load j
  | .again _ => .again j
  | .append _ => .append j
  | .fail _ => .fail j
  | .mark _ => .mark j
  | .store _ => .store j
  | .dispatch _ => .dispatch j
  | .timeout _ => .timeout j
  | .reply _ => .reply j
  | e => e

/-- The event, if it is not one of another client, as it addresses the handlers of the
client alone. -/
def Event.own (client : String) (s : Broker) : Event → Option Event
  | .publish sender req => if sender = client then some (.publish sender req) else none
  | .batchPublish sender messages =>
    if sender = client then some (.batchPublish sender messages) else none
  | e =>
    match e.handler with
    | none => some e
    | some i => s.handlers[i]?.bind fun h =>
      if h.client = client then
        some (e.toHandler (rank (fun g => g.client = client) s.handlers i))
      else none

def place (w : Ack) : PartitionId := ⟨w.request.topic, w.result.partition⟩

/-- How many records of other clients are in front of an offset. -/
def ahead (client : String) (written : List Ack) (p : PartitionId) (offset : Int) : Nat :=
  (written.filter fun w => w.client ≠ client ∧ place w = p ∧ w.result.offset < offset).length

/-- The record of a client without the shift that others cause. -/
def unshift (client : String) (written : List Ack) (w : Ack) : Ack :=
  { w with
    result := { w.result with
      offset := w.result.offset - ahead client written (place w) w.result.offset } }

/-- The results are those of a record of the client with this number, with the shift
and without it. -/
def Moved (client : String) (written : List Ack) (n : Nat) (r r' : PublishResult) : Prop :=
  ∃ w ∈ written, w.client = client ∧ Numbered n w ∧ w.result = r ∧
    (unshift client written w).result = r'

structure AckAlike (client : String) (written : List Ack) (a b : Ack) : Prop where
  sender : b.client = a.client
  request : b.request = a.request
  result : Moved client written a.request.seqNum a.result b.result

/-- What the client gets in `s` is what it gets in `t`: the records, with their
contents, and the replies. -/
structure Alike (client : String) (s t : Broker) : Prop where
  written : t.written =
    (s.written.filter fun w => w.client = client).map (unshift client s.written)
  contents : ∀ w ∈ s.written, w.client = client → ∃ msg,
    (w.result.offset, msg) ∈ (s.logs (place w)).entries ∧
      ((unshift client s.written w).result.offset,
        msg.setOffset (unshift client s.written w).result.offset) ∈ (t.logs (place w)).entries
  replies : Forall₂ (AckAlike client s.written)
    (s.acks.filter fun a => a.client = client) t.acks

/-! ## Conditions -/

/-- A keyed exactly-once request. -/
def Keyed (req : PublishRequest) : Prop := req.key ≠ [] ∧ req.deliveryMode = exactlyOnce
deriving Decidable

/-- The number the handler is between the mark and the store of. -/
def Handler.marking (h : Handler) : Option Nat :=
  match h.todo, h.phase with
  | req :: _, .marked _ _ => some req.seqNum
  | _, _ => none

/-- When a handler looks its number up, the number is the client's alone or it is not
the client's at all, and the client's handlers are not between a mark and a store of
it. -/
def Broker.Separate (client : String) (s : Broker) (i : Nat) : Prop :=
  ∀ h ∈ s.handlers[i]?, ∀ req ∈ h.todo.head?,
    (∀ g ∈ s.handlers, g.holds = some req.seqNum → (g.client = client ↔ h.client = client)) ∧
    (∀ w ∈ s.written, Numbered req.seqNum w → (w.client = client ↔ h.client = client)) ∧
    (h.client = client → ∀ g ∈ s.handlers, g.marking ≠ some req.seqNum)
deriving Decidable

def Apart (client : String) (s : Broker) : Event → Prop
  | .publish _ req => Keyed req
  | .batchPublish _ messages => ∀ req ∈ messages, Keyed req
  | .lookup i => s.Separate client i
  | _ => True

/-! ## Records -/

section Records

variable {client : String} {written : List Ack} {w last : Ack} {n : Nat} {r r' : PublishResult}

theorem ahead_append {p : PartitionId} {offset : Int}
    (later : place last = p → offset ≤ last.result.offset) :
    ahead client (written ++ [last]) p offset = ahead client written p offset := by
  unfold ahead
  rw [filter_append, length_append]
  have none : [last].filter (fun w =>
      w.client ≠ client ∧ place w = p ∧ w.result.offset < offset) = [] := by
    rw [filter_eq_nil_iff]
    intro w mem both
    rw [mem_singleton.mp mem] at both
    obtain ⟨-, here, less⟩ := of_decide_eq_true both
    have := later here
    omega
  rw [none]
  rfl

theorem unshift_append (later : place last = place w → w.result.offset ≤ last.result.offset) :
    unshift client (written ++ [last]) w = unshift client written w := by
  unfold unshift
  rw [ahead_append later]

theorem Moved.append (moved : Moved client written n r r')
    (later : ∀ w ∈ written, place last = place w → w.result.offset ≤ last.result.offset) :
    Moved client (written ++ [last]) n r r' := by
  obtain ⟨w, held, owner, numbered, rfl, rfl⟩ := moved
  refine ⟨w, mem_append_left _ held, owner, numbered, rfl, ?_⟩
  rw [unshift_append (later w held)]

def others (client : String) (written : List Ack) (p : PartitionId) : Nat :=
  (written.filter fun w => w.client ≠ client ∧ place w = p).length

theorem others_append (p : PartitionId) :
    others client (written ++ [last]) p = others client written p +
      if last.client ≠ client ∧ place last = p then 1 else 0 := by
  unfold others
  rw [filter_append, length_append, filter_cons, filter_nil]
  split
  · grind
  · grind

theorem ahead_end {p : PartitionId} {next : Int}
    (below : ∀ w ∈ written, place w = p → w.result.offset < next) :
    ahead client written p next = others client written p := by
  unfold ahead others
  congr 1
  apply filter_congr
  intro w held
  simp only [decide_eq_decide]
  constructor
  · exact fun both => ⟨both.1, both.2.1⟩
  · grind

end Records

/-! ## One run -/

section Sound

variable {compress : UInt8 → Bytes → Option Bytes} {s s' : Broker} {i : Nat} {h h' : Handler}
variable {req : PublishRequest} {rest : List PublishRequest} {e : Event} {n : Nat}

/-- Behind the append the handler's record is there. -/
def Recorded (written : List Ack) (h : Handler) : Prop :=
  ∀ req rest, h.todo = req :: rest → ∀ part result,
    h.phase = .appended part result ∨ h.phase = .marked part result →
      ⟨h.client, req, result⟩ ∈ written

/-- What holds in every run: a number in the window is stored or about to be, the
record of a handler is there behind its append, and records are in front of the
next offset. -/
structure Sound (s : Broker) : Prop where
  window : ∀ n, stored s.producer n = none → (∀ h ∈ s.handlers, h.marking ≠ some n) →
    window s.producer n = none
  recorded : ∀ h ∈ s.handlers, Recorded s.written h
  below : ∀ w ∈ s.written, w.result.offset < (s.logs (place w)).next

theorem marking_none_of_todo (todo : h.todo = []) : h.marking = none := by
  unfold Handler.marking
  rw [todo]

theorem marking_none_of_phase (unmarked : ∀ part result, h.phase ≠ .marked part result) :
    h.marking = none := by
  unfold Handler.marking
  split
  · grind
  · rfl

theorem marking_eq {part : Int} {result : PublishResult} (todo : h.todo = req :: rest)
    (phase : h.phase = .marked part result) : h.marking = some req.seqNum := by
  unfold Handler.marking
  rw [todo, phase]

theorem recorded_of_phase {written : List Ack}
    (early : ∀ part result, h.phase ≠ .appended part result ∧ h.phase ≠ .marked part result) :
    Recorded written h := by
  intro req rest _ part result late
  cases late with
  | inl phase => exact absurd phase (early part result).1
  | inr phase => exact absurd phase (early part result).2

theorem phase_routed {part : Int} {routed : Except PublishError (Int × Message)} (part' : Int)
    (result : PublishResult) :
    (h.routed req rest part routed).phase ≠ .appended part' result ∧
      (h.routed req rest part routed).phase ≠ .marked part' result := by
  rcases routed_eq req rest part routed with same | ⟨_, _, _, same⟩ | ⟨_, _, _, same⟩
  · rw [same]
    exact ⟨nofun, nofun⟩
  · rw [same]
    exact ⟨nofun, nofun⟩
  · rw [same]
    exact ⟨nofun, nofun⟩

section

variable (sound : Sound s) (at_i : s.handlers[i]? = some h)
include sound at_i

theorem Sound.handler {counters : Counters} {dispatched : List Dispatch}
    (marks : ∀ n, h.marking = some n → h'.marking = some n) (recorded : Recorded s.written h') :
    Sound { s with
      counters := counters
      handlers := s.handlers.set i h'
      dispatched := dispatched } := by
  refine ⟨?_, forall_mem_set sound.recorded recorded, sound.below⟩
  intro n missing free
  exact sound.window n missing (forall_mem_of_set at_i free fun gone marked => gone (marks n marked))

theorem Sound.remove {acks : List Ack} (unmarked : h.marking = none) :
    Sound { s with handlers := s.handlers.eraseIdx i, acks := acks } := by
  refine ⟨?_, forall_mem_eraseIdx sound.recorded, sound.below⟩
  intro n missing free
  exact sound.window n missing (forall_mem_of_eraseIdx at_i free (by rw [unmarked]; nofun))

theorem Sound.quiet {counters : Counters} (unmarked : ∀ part result, h.phase ≠ .marked part result)
    (early : ∀ part result, h'.phase ≠ .appended part result ∧ h'.phase ≠ .marked part result) :
    Sound { s with counters := counters, handlers := s.handlers.set i h' } := by
  apply sound.handler at_i
  · simp [marking_none_of_phase, unmarked]
  · exact recorded_of_phase early

theorem sound_reply (todo : h.todo = []) (taken : replyStep s i h e = some s') : Sound s' := by
  have unmarked := marking_none_of_todo todo
  revert taken
  fun_cases replyStep s i h e with
  | case2 =>
    rintro ⟨⟩
    exact sound.handler at_i (fun _ marked => marked) (sound.recorded h (mem_of_getElem? at_i))
  | case3 | case5 =>
    rintro ⟨⟩
    exact sound.remove at_i unmarked
  | _ => rintro ⟨⟩

variable (todo : h.todo = req :: rest)
include todo

variable {result : PublishResult}

theorem sound_append {part partID : Int} {msg : Message} {log : SparseLog Message}
    (phase : h.phase = .writing part partID msg) (here : log = s.logs ⟨req.topic, partID⟩)
    (placed : result = ⟨msg.id, partID, log.next⟩) :
    Sound { s with
      logs := Function.update s.logs ⟨req.topic, partID⟩ (log.append (msg.setOffset log.next))
      handlers := s.handlers.set i
        (if req.deliveryMode = exactlyOnce then { h with phase := .appended part result }
        else h.finish req rest (some result))
      written := s.written ++ [⟨h.client, req, result⟩] } := by
  have moved : ∀ p, (s.logs p).next ≤ (Function.update s.logs ⟨req.topic, partID⟩
      (log.append (msg.setOffset log.next)) p).next := by
    intro p
    rw [Function.update_apply]
    split
    · rename_i same
      rw [same, ← here]
      show log.next ≤ log.next + 1
      omega
    · exact le_refl _
  have unmarked : ∀ n, h.marking ≠ some n := by simp [marking_none_of_phase, phase]
  refine ⟨?_, ?_, ?_⟩
  · intro n missing free
    exact sound.window n missing (forall_mem_of_set at_i free fun _ => unmarked n)
  · refine forall_mem_set ?_ ?_
    · intro g old req rest todo part result late
      exact mem_append_left _ (sound.recorded g old req rest todo part result late)
    · split
      · intro req' rest' todo' part' result' late
        grind
      · exact recorded_of_phase fun _ _ => ⟨nofun, nofun⟩
  · refine forall_mem_append_singleton ?_ ?_
    · exact fun w old => lt_of_lt_of_le (sound.below w old) (moved _)
    · rw [placed]
      show log.next < (Function.update s.logs _ _ _).next
      rw [place, Function.update_self]
      show log.next < log.next + 1
      omega

theorem sound_mark {part : Int} (phase : h.phase = .appended part result) :
    Sound { s with
      producer := mark s.producer req.seqNum result.offset
      handlers := s.handlers.set i { h with phase := .marked part result } } := by
  have mem := mem_of_getElem? at_i
  have step : Sound { s with
      handlers := s.handlers.set i { h with phase := .marked part result } } := by
    apply sound.handler at_i
    · simp [marking_none_of_phase, phase]
    · intro req' rest' todo' part' result' late
      rcases late with late | late
      · cases late
      · cases late
        exact sound.recorded h mem req' rest' todo' part result (.inl phase)
  refine ⟨?_, step.recorded, step.below⟩
  intro n missing free
  have other : n ≠ req.seqNum := by grind [mem_set_self, marking_eq]
  exact window_mark other (step.window n missing free)

theorem sound_store {part : Int} (phase : h.phase = .marked part result) :
    Sound { s with
      producer := store s.producer req.seqNum result
      handlers := s.handlers.set i (h.finish req rest (some result)) } := by
  refine ⟨?_, ?_, sound.below⟩
  · intro n missing free
    have missing : stored (store s.producer req.seqNum result) n = none := missing
    rw [stored_store] at missing
    split at missing
    · cases missing
    · rename_i other
      apply sound.window n missing
      apply forall_mem_of_set at_i free
      grind [marking_eq]
  · exact forall_mem_set sound.recorded (recorded_of_phase fun _ _ => ⟨nofun, nofun⟩)

theorem sound_move (move : Move compress s i h req rest e s') : Sound s' := by
  cases move with
  | refuse early _ =>
    apply sound.remove at_i
    apply marking_none_of_phase
    intro part result phase
    rw [phase] at early
    cases early
  | assign phase | lock phase _ | again phase | fail phase =>
    exact sound.quiet at_i (by rw [phase]; nofun) fun _ _ => ⟨nofun, nofun⟩
  | route phase => exact sound.quiet at_i (by rw [phase]; nofun) phase_routed
  | lookup phase =>
    apply sound.quiet at_i (by rw [phase]; nofun)
    grind
  | loadFound phase | loadMissed phase =>
    apply sound.quiet at_i (by rw [phase]; nofun)
    cases stored s.producer req.seqNum with
    | none | some result => exact fun _ _ => ⟨nofun, nofun⟩
  | append phase here placed => exact sound_append sound at_i todo phase here placed
  | mark phase => exact sound_mark sound at_i todo phase
  | store phase => exact sound_store sound at_i todo phase

end

theorem sound_arrive (sound : Sound s) (ready : h.phase = .ready) :
    Sound { s with handlers := s.handlers ++ [h] } := by
  refine ⟨?_, ?_, sound.below⟩
  · exact fun n missing free => sound.window n missing fun g mem =>
      free g (mem_append_left _ mem)
  · apply forall_mem_append_singleton sound.recorded
    simp [recorded_of_phase, ready]

theorem sound_step (sound : Sound s) (taken : step compress s e = some s') : Sound s' := by
  revert taken
  fun_cases step compress s e with
  | case1 | case3 | case5 | case7 | case8 =>
    rintro ⟨⟩
    exact sound
  | case2 | case4 =>
    rintro ⟨⟩
    exact { sound with }
  | case6 | case9 =>
    rintro ⟨⟩
    exact sound_arrive sound rfl
  | case12 e _ _ _ _ i actor h at_i req rest todo =>
    exact fun taken => sound_move sound at_i todo (messageStep_move taken)
  | case13 e _ _ _ _ i actor h at_i todo =>
    exact fun taken => sound_reply sound at_i todo taken
  | _ => rintro ⟨⟩

theorem sound_boot {topics : Topics} {logs : PartitionId → SparseLog Message} {counters : Counters}
    {producerID : String} {dedupWindow : Int} {groups : List GroupKey} :
    Sound (boot topics logs counters producerID dedupWindow groups) where
  window := fun n _ _ => window_new n
  recorded := by simp [boot]
  below := by simp [boot]

end Sound

/-! ## Two runs -/

section Related

variable {client : String} {s t : Broker} {h h' g g' : Handler} {i j n : Nat}
variable {req : PublishRequest} {rest : List PublishRequest}

def FateAlike (client : String) (written : List Ack) (f f' : Fate) : Prop :=
  f'.1 = f.1 ∧ Option.Rel (Moved client written f.1.seqNum) f.2 f'.2

/-- The phases of a handler in the two runs.  What the lookup found may differ if the
result is stored. -/
inductive PhaseAlike (client : String) (written : List Ack) (p : Producer) (req : PublishRequest) :
    Phase → Phase → Prop where
  | ready : PhaseAlike client written p req .ready .ready
  | assigned (part : Int) : PhaseAlike client written p req (.assigned part) (.assigned part)
  | locked (part : Int) : PhaseAlike client written p req (.locked part) (.locked part)
  | routed (part partID : Int) (msg : Message) :
      PhaseAlike client written p req (.routed part partID msg) (.routed part partID msg)
  | looked {part partID : Int} {msg : Message} {phase phase' : Phase}
      (left : phase = .found part partID msg ∨ phase = .missed part partID msg)
      (right : phase' = .found part partID msg ∨ phase' = .missed part partID msg)
      (held : stored p req.seqNum ≠ none) : PhaseAlike client written p req phase phase'
  | missed (part partID : Int) (msg : Message) :
      PhaseAlike client written p req (.missed part partID msg) (.missed part partID msg)
  | writing (part partID : Int) (msg : Message) :
      PhaseAlike client written p req (.writing part partID msg) (.writing part partID msg)
  | appended {part : Int} {r r' : PublishResult} (moved : Moved client written req.seqNum r r') :
      PhaseAlike client written p req (.appended part r) (.appended part r')
  | marked {part : Int} {r r' : PublishResult} (moved : Moved client written req.seqNum r r') :
      PhaseAlike client written p req (.marked part r) (.marked part r')

structure HandlerAlike (client : String) (written : List Ack) (p : Producer) (h g : Handler) :
    Prop where
  sender : g.client = h.client
  batch : g.batch = h.batch
  done : Forall₂ (FateAlike client written) h.done g.done
  todo : g.todo = h.todo
  phase : ∀ req rest, h.todo = req :: rest → PhaseAlike client written p req h.phase g.phase
  sent : g.sent = h.sent

/-- Only the client uses the number. -/
structure Clear (client : String) (s : Broker) (n : Nat) : Prop where
  written : ∀ w ∈ s.written, Numbered n w → w.client = client
  handlers : ∀ g ∈ s.handlers, g.holds = some n → g.client = client

/-- The whole run is in `s` and the run of the client alone in `t`. -/
structure Related (client : String) (s t : Broker) : Prop where
  keyed : ∀ h ∈ s.handlers, ∀ req ∈ h.todo, Keyed req
  clear : ∀ h ∈ s.handlers, h.client = client → ∀ n, h.holds = some n → Clear client s n
  topics : t.topics = s.topics
  groups : t.groups = s.groups
  next : ∀ p, (t.logs p).next = (s.logs p).next - others client s.written p
  alike : Alike client s t
  handlers : Forall₂ (HandlerAlike client s.written s.producer)
    (s.handlers.filter fun h => h.client = client) t.handlers
  stores : ∀ n, (∀ w ∈ s.written, Numbered n w → w.client = client) →
    Option.Rel (Moved client s.written n) (stored s.producer n) (stored t.producer n)

variable {written written' : List Ack}

theorem PhaseAlike.transfer {p p' : Producer} {phase phase' : Phase}
    (alike : PhaseAlike client written p req phase phase')
    (moved : ∀ n r r', Moved client written n r r' → Moved client written' n r r')
    (held : ∀ n, stored p n ≠ none → stored p' n ≠ none) :
    PhaseAlike client written' p' req phase phase' := by
  cases alike with
  | ready => exact .ready
  | assigned part => exact .assigned part
  | locked part => exact .locked part
  | routed part partID msg => exact .routed part partID msg
  | looked left right found => exact .looked left right (held _ found)
  | missed part partID msg => exact .missed part partID msg
  | writing part partID msg => exact .writing part partID msg
  | appended result => exact .appended (moved _ _ _ result)
  | marked result => exact .marked (moved _ _ _ result)

theorem rel_moved {a b : Option PublishResult}
    (moved : ∀ n r r', Moved client written n r r' → Moved client written' n r r')
    (rel : Option.Rel (Moved client written n) a b) : Option.Rel (Moved client written' n) a b := by
  cases rel with
  | none => exact .none
  | some result => exact .some (moved _ _ _ result)

theorem HandlerAlike.transfer {p p' : Producer} (alike : HandlerAlike client written p h g)
    (moved : ∀ n r r', Moved client written n r r' → Moved client written' n r r')
    (held : ∀ n, stored p n ≠ none → stored p' n ≠ none) : HandlerAlike client written' p' h g := by
  refine { alike with done := ?_, phase := ?_ }
  · apply alike.done.imp
    exact fun f f' fate => ⟨fate.1, rel_moved moved fate.2⟩
  · exact fun req rest todo => (alike.phase req rest todo).transfer moved held

/-! ### Handlers -/

theorem clear_set (clear : Clear client s n)
    (taken : h'.holds = some n → h'.client = client) {counters : Counters}
    {dispatched : List Dispatch} :
    Clear client { s with
      counters := counters
      handlers := s.handlers.set i h'
      dispatched := dispatched } n :=
  ⟨clear.written, forall_mem_set clear.handlers taken⟩

theorem clear_erase {acks : List Ack} (clear : Clear client s n) :
    Clear client { s with handlers := s.handlers.eraseIdx i, acks := acks } n :=
  ⟨clear.written, fun g mem => clear.handlers g (mem_of_mem_eraseIdx mem)⟩

theorem clear_arrive (idle : h.holds = none) (clear : Clear client s n) :
    Clear client { s with handlers := s.handlers ++ [h] } n :=
  ⟨clear.written, forall_mem_append_singleton clear.handlers fun uses => holds_elim idle uses⟩

section

variable (related : Related client s t)
include related

theorem Related.otherArrives (idle : h.holds = none) (keyed : ∀ req ∈ h.todo, Keyed req)
    (theirs : h.client ≠ client) : Related client { s with handlers := s.handlers ++ [h] } t := by
  refine { related with keyed := ?_, clear := ?_, alike := ?_, handlers := ?_ }
  · exact forall_mem_append_singleton related.keyed keyed
  · exact forall_mem_append_singleton
      (fun k old own n uses => clear_arrive idle (related.clear k old own n uses))
      fun own => absurd own theirs
  · exact ⟨related.alike.written, related.alike.contents, related.alike.replies⟩
  · show Forall₂ _ ((s.handlers ++ [h]).filter fun h => h.client = client) _
    simp [handlers, related, theirs]

theorem Related.ownArrives (ready : h.phase = .ready) (keyed : ∀ req ∈ h.todo, Keyed req)
    (mine : h.client = client) (fresh : h.done = []) :
    Related client { s with handlers := s.handlers ++ [h] }
      { t with handlers := t.handlers ++ [h] } := by
  have idle : h.holds = none := holds_none_of_phase (by rw [ready]; rfl)
  refine { related with keyed := ?_, clear := ?_, alike := ?_, handlers := ?_ }
  · exact forall_mem_append_singleton related.keyed keyed
  · exact forall_mem_append_singleton
      (fun k old own n uses => clear_arrive idle (related.clear k old own n uses))
      fun _ n uses => holds_elim idle uses
  · exact ⟨related.alike.written, related.alike.contents, related.alike.replies⟩
  · show Forall₂ _ ((s.handlers ++ [h]).filter fun h => h.client = client) _
    rw [filter_append, filter_cons_of_pos (by simp [mine]), filter_nil]
    apply rel_append related.handlers
    refine .cons ⟨rfl, rfl, ?_, rfl, ?_, rfl⟩ .nil
    · rw [fresh]
      exact .nil
    · intro req rest _
      rw [ready]
      exact .ready

variable (at_i : s.handlers[i]? = some h)
include at_i

/-- **A step of one of the client's handlers in both runs.** -/
theorem Related.own {counters counters' : Counters} {dispatched dispatched' : List Dispatch}
    (mine : h.client = client) (mine' : h'.client = client) (keyed : ∀ req ∈ h'.todo, Keyed req)
    (clear : ∀ n, h'.holds = some n → h.holds = some n ∨ Clear client s n)
    (alike : HandlerAlike client s.written s.producer h' g') :
    Related client
      { s with
        counters := counters
        handlers := s.handlers.set i h'
        dispatched := dispatched }
      { t with
        counters := counters'
        handlers := t.handlers.set (rank (fun g => g.client = client) s.handlers i) g'
        dispatched := dispatched' } := by
  have mem := mem_of_getElem? at_i
  refine { related with keyed := ?_, clear := ?_, alike := ?_, handlers := ?_ }
  · exact forall_mem_set related.keyed keyed
  · grind [clear_set, clear]
  · exact ⟨related.alike.written, related.alike.contents, related.alike.replies⟩
  · simp [paired_set, handlers, related, at_i, mine, mine', alike]

/-- **A step of another client's handler.** -/
theorem Related.other {counters : Counters} {dispatched : List Dispatch}
    (theirs : h.client ≠ client) (theirs' : h'.client ≠ client) (keyed : ∀ req ∈ h'.todo, Keyed req)
    (taken : ∀ n, h'.holds = some n →
      h.holds = some n ∨ ∀ g ∈ s.handlers, g.client = client → g.holds ≠ some n) :
    Related client
      { s with
        counters := counters
        handlers := s.handlers.set i h'
        dispatched := dispatched } t := by
  have mem := mem_of_getElem? at_i
  refine { related with keyed := ?_, clear := ?_, alike := ?_, handlers := ?_ }
  · exact forall_mem_set related.keyed keyed
  · intro k listed own n uses
    cases mem_or_eq_of_mem_set listed with
    | inl old =>
      apply clear_set (related.clear k old own n uses)
      intro uses'
      cases taken n uses' with
      | inl before =>
        exact absurd ((related.clear k old own n uses).handlers h mem before) theirs
      | inr free => exact absurd uses (free k old own)
    | inr new => exact absurd (new ▸ own) theirs'
  · exact ⟨related.alike.written, related.alike.contents, related.alike.replies⟩
  · show Forall₂ _ ((s.handlers.set i h').filter fun h => h.client = client) _
    simp [filter_set_other, handlers, related, at_i, theirs, theirs']

theorem Related.ownDone {acks acks' : List Ack} (mine : h.client = client)
    (replies : Forall₂ (AckAlike client s.written)
      (acks.filter fun a => a.client = client) acks') :
    Related client { s with handlers := s.handlers.eraseIdx i, acks := acks }
      { t with
        handlers := t.handlers.eraseIdx (rank (fun g => g.client = client) s.handlers i)
        acks := acks' } := by
  refine { related with keyed := ?_, clear := ?_, alike := ?_, handlers := ?_ }
  · exact fun k listed => related.keyed k (mem_of_mem_eraseIdx listed)
  · exact fun k listed own n uses =>
      clear_erase (related.clear k (mem_of_mem_eraseIdx listed) own n uses)
  · exact ⟨related.alike.written, related.alike.contents, replies⟩
  · simp [paired_erase, handlers, related, at_i, mine]

theorem Related.otherDone {acks : List Ack} (theirs : h.client ≠ client)
    (same : (acks.filter fun a => a.client = client) = s.acks.filter fun a => a.client = client) :
    Related client { s with handlers := s.handlers.eraseIdx i, acks := acks } t := by
  refine { related with keyed := ?_, clear := ?_, alike := ?_, handlers := ?_ }
  · exact fun k listed => related.keyed k (mem_of_mem_eraseIdx listed)
  · exact fun k listed own n uses =>
      clear_erase (related.clear k (mem_of_mem_eraseIdx listed) own n uses)
  · refine ⟨related.alike.written, related.alike.contents, ?_⟩
    show Forall₂ _ (acks.filter fun a => a.client = client) _
    rw [same]
    exact related.alike.replies
  · show Forall₂ _ ((s.handlers.eraseIdx i).filter fun h => h.client = client) _
    simp [filter_erase_other, handlers, related, at_i, theirs]

end

/-! ### Memory -/

theorem held_store {p : Producer} {r : PublishResult} (m : Nat) (held : stored p m ≠ none) :
    stored (store p n r) m ≠ none := by
  rw [stored_store]
  split
  · nofun
  · exact held

section

variable (related : Related client s t)
include related

theorem Related.producers {p p' : Producer}
    (kept : ∀ n, stored s.producer n ≠ none → stored p n ≠ none)
    (stores : ∀ n, (∀ w ∈ s.written, Numbered n w → w.client = client) →
      Option.Rel (Moved client s.written n) (stored p n) (stored p' n)) :
    Related client { s with producer := p } { t with producer := p' } := by
  refine { related with clear := ?_, alike := ?_, handlers := ?_, stores := stores }
  · intro k listed own n uses
    have clear := related.clear k listed own n uses
    exact ⟨clear.written, clear.handlers⟩
  · exact ⟨related.alike.written, related.alike.contents, related.alike.replies⟩
  · exact related.handlers.imp fun h g alike => alike.transfer (fun _ _ _ moved => moved) kept

theorem Related.ownStores {r r' : PublishResult} (moved : Moved client s.written n r r') :
    Related client { s with producer := store s.producer n r }
      { t with producer := store t.producer n r' } := by
  apply related.producers held_store
  intro m free
  rw [stored_store, stored_store]
  split
  · rename_i same
    exact .some (same ▸ moved)
  · exact related.stores m free

theorem Related.otherStores {r : PublishResult}
    (foreign : ∃ w ∈ s.written, Numbered n w ∧ w.client ≠ client) :
    Related client { s with producer := store s.producer n r } t := by
  apply related.producers held_store
  intro m free
  rw [stored_store, if_neg]
  · exact related.stores m free
  · grind

end

variable {logs : PartitionId → SparseLog Message}

theorem mem_update_append {p q : PartitionId} {log : SparseLog Message} {msg : Message}
    {entry : Int × Message} (here : log = logs p) (mem : entry ∈ (logs q).entries) :
    entry ∈ (Function.update logs p (log.append msg) q).entries := by
  rw [Function.update_apply]
  split
  · rename_i same
    rw [same, ← here] at mem
    exact mem_append_left _ mem
  · exact mem

theorem next_update_append {p : PartitionId} {log : SparseLog Message} {msg : Message}
    (here : log = logs p) (q : PartitionId) :
    (Function.update logs p (log.append msg) q).next = (logs q).next + if p = q then 1 else 0 := by
  rw [Function.update_apply]
  split
  · rename_i same
    rw [if_pos same.symm, same, ← here]
    rfl
  · grind

section Append

variable {msg : Message} {partID : Int} {log log' : SparseLog Message} {result result' : PublishResult}
variable {last : Ack}

theorem later_of_below (sound : Sound s) (here : log = s.logs (place last))
    (offset : last.result.offset = log.next) :
    ∀ w ∈ s.written, place last = place w → w.result.offset ≤ last.result.offset := by
  intro w held same
  have below := sound.below w held
  rw [← same, ← here] at below
  omega

theorem Related.map_unshift (sound : Sound s) (here : log = s.logs (place last))
    (offset : last.result.offset = log.next) :
    (s.written.filter fun w => w.client = client).map (unshift client (s.written ++ [last])) =
      (s.written.filter fun w => w.client = client).map (unshift client s.written) := by
  apply map_congr_left
  intro w mem
  exact unshift_append (later_of_below sound here offset w (mem_of_mem_filter mem))

variable (related : Related client s t) (sound : Sound s) (here : log = s.logs (place last))
  (offset : last.result.offset = log.next)
include related sound here offset

theorem Related.replies_append :
    Forall₂ (AckAlike client (s.written ++ [last]))
      (s.acks.filter fun a => a.client = client) t.acks := by
  apply related.alike.replies.imp
  intro a b alike
  exact { alike with result := alike.result.append (later_of_below sound here offset) }

theorem Related.handlers_append :
    Forall₂ (HandlerAlike client (s.written ++ [last]) s.producer)
      (s.handlers.filter fun h => h.client = client) t.handlers := by
  apply related.handlers.imp
  intro h g alike
  exact alike.transfer (fun _ _ _ moved => moved.append (later_of_below sound here offset))
    fun _ held => held

theorem Related.stores_append (n : Nat)
    (free : ∀ w ∈ s.written ++ [last], Numbered n w → w.client = client) :
    Option.Rel (Moved client (s.written ++ [last]) n) (stored s.producer n)
      (stored t.producer n) := by
  apply rel_moved fun _ _ _ moved => moved.append (later_of_below sound here offset)
  exact related.stores n fun w held => free w (mem_append_left _ held)

theorem Related.unshift_last (here' : log' = t.logs (place last)) :
    unshift client (s.written ++ [last]) last =
      { last with result := { last.result with offset := log'.next } } := by
  have below : ∀ w ∈ s.written, place w = place last → w.result.offset < log.next := by
    intro w held same
    have := sound.below w held
    rwa [same, ← here] at this
  unfold unshift
  rw [ahead_append fun _ => le_refl _, offset, ahead_end below, here', related.next, here]

/-- **A record of the client**, in both runs. -/
theorem Related.ownAppends (mine : last.client = client) (here' : log' = t.logs (place last)) :
    Related client
      { s with
        logs := Function.update s.logs (place last) (log.append (msg.setOffset log.next))
        written := s.written ++ [last] }
      { t with
        logs := Function.update t.logs (place last) (log'.append (msg.setOffset log'.next))
        written := t.written ++
          [{ last with result := { last.result with offset := log'.next } }] } := by
  have unshifted := related.unshift_last sound here offset here'
  refine { related with clear := ?_, next := ?_, alike := ⟨?_, ?_, ?_⟩, handlers := ?_, stores := ?_ }
  · intro k listed own n uses
    have clear := related.clear k listed own n uses
    refine ⟨?_, clear.handlers⟩
    grind [Clear.written]
  · intro q
    show (Function.update t.logs _ _ q).next = (Function.update s.logs _ _ q).next - _
    have own : ¬ (last.client ≠ client ∧ place last = q) := fun both => both.1 mine
    rw [next_update_append here, next_update_append here', related.next, others_append, if_neg own]
    omega
  · show t.written ++ [_] = ((s.written ++ [last]).filter fun w => w.client = client).map _
    rw [filter_append, map_append, Related.map_unshift sound here offset,
      filter_cons_of_pos (by simp [mine]), filter_nil, map_singleton, unshifted,
      related.alike.written]
  · intro w held own
    show ∃ m, (w.result.offset, m) ∈ (Function.update s.logs _ _ _).entries ∧
      (_, _) ∈ (Function.update t.logs _ _ _).entries
    cases mem_append.mp held with
    | inl old =>
      obtain ⟨m, there, there'⟩ := related.alike.contents w old own
      grind [unshift_append, later_of_below, mem_update_append]
    | inr new =>
      rw [mem_singleton.mp new, unshifted, Function.update_self, Function.update_self, offset]
      exact ⟨msg.setOffset log.next, mem_append_right _ mem_cons_self,
        mem_append_right _ mem_cons_self⟩
  · simp [replies_append, related, sound, here, offset]
  · simp [handlers_append, related, sound, here, offset]
  · grind [stores_append]

/-- **A record of another client.** -/
theorem Related.otherAppends (theirs : last.client ≠ client)
    (unused : ∀ k ∈ s.handlers, k.client = client → ∀ n, Numbered n last → k.holds ≠ some n) :
    Related client
      { s with
        logs := Function.update s.logs (place last) (log.append msg)
        written := s.written ++ [last] } t := by
  refine { related with clear := ?_, next := ?_, alike := ⟨?_, ?_, ?_⟩, handlers := ?_, stores := ?_ }
  · intro k listed own n uses
    have clear := related.clear k listed own n uses
    refine ⟨?_, clear.handlers⟩
    grind [Clear.written]
  · intro q
    show _ = (Function.update s.logs _ _ q).next - _
    rw [next_update_append here, related.next, others_append]
    simp [theirs]
  · show t.written = ((s.written ++ [last]).filter fun w => w.client = client).map _
    rw [filter_append, filter_cons_of_neg (by simp [theirs]), filter_nil,
      append_nil, Related.map_unshift sound here offset]
    exact related.alike.written
  · intro w held own
    cases mem_append.mp held with
    | inl old =>
      obtain ⟨m, there, there'⟩ := related.alike.contents w old own
      grind [unshift_append, later_of_below, mem_update_append]
    | inr new => exact absurd (mem_singleton.mp new ▸ own) theirs
  · simp [replies_append, related, sound, here, offset]
  · simp [handlers_append, related, sound, here, offset]
  · grind [stores_append]

end Append

/-! ### Handlers in the two runs -/

section Alike

variable {written : List Ack} {p : Producer} {phase phase' : Phase} {part partID : Int}
variable {msg : Message} {result : PublishResult}

/-- The phases without a result or an outcome of the lookup. -/
def Phase.plain : Phase → Bool
  | .ready => true
  | .assigned _ => true
  | .locked _ => true
  | .routed _ _ _ => true
  | .writing _ _ _ => true
  | _ => false

theorem PhaseAlike.same (alike : PhaseAlike client written p req phase phase')
    (plain : phase.plain = true) : phase' = phase := by
  cases alike with
  | looked left right _ =>
    rcases left with rfl | rfl
    · cases plain
    · cases plain
  | missed part partID msg | appended moved | marked moved => cases plain
  | _ => rfl

theorem PhaseAlike.lock (alike : PhaseAlike client written p req phase phase') :
    phase'.lock = phase.lock := by
  cases alike with
  | looked left right _ =>
    rcases left with rfl | rfl
    · rcases right with rfl | rfl
      · rfl
      · rfl
    · rcases right with rfl | rfl
      · rfl
      · rfl
  | _ => rfl

theorem assign_keyed {topics : Topics} {counters counters' : Counters} {topic : String} {key : Bytes}
    (keyed : key ≠ []) :
    (assign topics counters topic key).1 = (assign topics counters' topic key).1 := by
  unfold assign
  split
  · rfl
  · rw [if_pos keyed, if_pos keyed]

theorem route_keyed {compress : UInt8 → Bytes → Option Bytes} {topics : Topics}
    {counters counters' : Counters} {stamp : Stamp} (keyed : req.key ≠ []) :
    (route compress topics counters req stamp).1 = (route compress topics counters' req stamp).1 := by
  unfold route
  cases topics req.topic with
  | none => rfl
  | some cfg =>
    simp only
    rw [@assign_keyed topics counters counters' req.topic req.key keyed]

theorem todo_routed (todo : h.todo = req :: rest) (routed : Except PublishError (Int × Message)) :
    ∀ r ∈ (h.routed req rest part routed).todo, r ∈ h.todo := by
  rcases routed_eq req rest part routed with same | ⟨_, _, _, same⟩ | ⟨_, _, _, same⟩
  · rw [same, todo]
    exact fun r mem => mem_cons_of_mem _ mem
  · rw [same]
    exact fun _ mem => mem
  · rw [same]
    exact fun _ mem => mem

variable (alike : HandlerAlike client written p h g)
include alike

theorem HandlerAlike.lock : g.lock = h.lock := by
  unfold Handler.lock
  rw [alike.todo]
  split
  · rfl
  · rename_i todo
    rw [(alike.phase _ _ todo).lock]

theorem HandlerAlike.marking : ∀ n, g.marking = some n → h.marking = some n := by
  intro n marked
  unfold Handler.marking at marked ⊢
  rw [alike.todo] at marked
  split at marked
  · rename_i req rest part result todo phase
    have same := alike.phase req rest todo
    rw [phase] at same
    generalize h.phase = left at same
    cases same with
    | looked _ right _ => grind
    | marked _ =>
      rw [todo]
      exact marked
  · cases marked

theorem HandlerAlike.acks : Forall₂ (AckAlike client written) h.acks g.acks := by
  unfold Handler.acks placed
  rw [map_filterMap, map_filterMap, alike.sender]
  apply rel_filterMap _ alike.done
  rintro ⟨req, a⟩ ⟨req', b⟩ ⟨rfl, results⟩
  cases results with
  | none => exact .none
  | some moved => exact .some ⟨rfl, rfl, moved⟩

theorem HandlerAlike.atPhase (todo : h.todo = req :: rest)
    (same : PhaseAlike client written p req phase phase') :
    HandlerAlike client written p { h with phase := phase } { g with phase := phase' } := by
  refine { alike with phase := ?_ }
  intro req' rest' todo'
  cases todo.symm.trans todo'
  exact same

theorem HandlerAlike.finish {a b : Option PublishResult}
    (results : Option.Rel (Moved client written req.seqNum) a b) :
    HandlerAlike client written p (h.finish req rest a) (g.finish req rest b) where
  sender := alike.sender
  batch := alike.batch
  done := rel_append alike.done (.cons ⟨rfl, results⟩ .nil)
  todo := rfl
  phase := fun _ _ _ => .ready
  sent := alike.sent

theorem HandlerAlike.routed (todo : h.todo = req :: rest)
    (routed : Except PublishError (Int × Message)) :
    HandlerAlike client written p (h.routed req rest part routed) (g.routed req rest part routed) := by
  rcases routed_eq req rest part routed with same | ⟨_, _, _, same⟩ | ⟨_, _, _, same⟩
  · rw [same, same]
    exact alike.finish .none
  · rw [same, same]
    exact alike.atPhase todo (.writing _ _ _)
  · rw [same, same]
    exact alike.atPhase todo (.routed _ _ _)

end Alike

/-! ### Steps of the client -/

section Own

variable {compress : UInt8 → Bytes → Option Bytes} {s' : Broker} {e : Event} {phase phase' : Phase}

theorem clear_of_separate (separate : s.Separate client i) (at_i : s.handlers[i]? = some h)
    (mine : h.client = client) (todo : h.todo = req :: rest) :
    Clear client s req.seqNum ∧ ∀ g ∈ s.handlers, g.marking ≠ some req.seqNum := by
  obtain ⟨handlers, written, unmarked⟩ := separate h at_i req (by rw [todo]; rfl)
  refine ⟨⟨?_, ?_⟩, unmarked mine⟩
  · grind
  · grind

theorem acks_client {a : Ack} (mem : a ∈ h.acks) : a.client = h.client := by
  obtain ⟨claim, -, rfl⟩ := mem_map.mp mem
  rfl

theorem alike_result (alike : PhaseAlike client s.written s.producer req phase phase') :
    (∀ part result, phase = .appended part result → ∃ result', phase' = .appended part result' ∧
      Moved client s.written req.seqNum result result') ∧
    ∀ part result, phase = .marked part result → ∃ result', phase' = .marked part result' ∧
      Moved client s.written req.seqNum result result' := by
  cases alike with
  | looked left _ _ => rcases left with rfl | rfl <;> exact ⟨nofun, nofun⟩
  | appended moved | marked moved => simp [moved]
  | _ => exact ⟨nofun, nofun⟩

variable (related : Related client s t)
include related

/-- **The lookups** of the two runs agree, or the result is stored. -/
theorem lookup_alike {part partID : Int} {msg : Message} (sound : Sound s) (alone : Sound t)
    (clear : ∀ w ∈ s.written, Numbered req.seqNum w → w.client = client)
    (unmarked : ∀ g ∈ s.handlers, g.marking ≠ some req.seqNum) :
    PhaseAlike client s.written s.producer req
      (if (window s.producer req.seqNum).isSome then .found part partID msg
        else .missed part partID msg)
      (if (window t.producer req.seqNum).isSome then .found part partID msg
        else .missed part partID msg) := by
  have unmarked' : ∀ g ∈ t.handlers, g.marking ≠ some req.seqNum := by
    intro g mem marked
    obtain ⟨h, listed, alike⟩ := paired_mem related.handlers mem
    exact unmarked h listed (alike.marking _ marked)
  have loads := related.stores req.seqNum clear
  cases missing : stored s.producer req.seqNum with
  | some result =>
    have either : ∀ found : Bool,
        (if found = true then Phase.found part partID msg else .missed part partID msg) =
            .found part partID msg ∨
          (if found = true then Phase.found part partID msg else .missed part partID msg) =
            .missed part partID msg := by
      intro found
      cases found with
      | true => exact .inl rfl
      | false => exact .inr rfl
    apply PhaseAlike.looked (either _) (either _)
    rw [missing]
    nofun
  | none =>
    rw [missing] at loads
    have missing' : stored t.producer req.seqNum = none := by
      generalize stored t.producer req.seqNum = b at loads
      cases loads
      rfl
    rw [sound.window _ missing unmarked, alone.window _ missing' unmarked']
    exact .missed part partID msg

theorem locked_alike {q : PartitionId} (free : s.locked q = false) : t.locked q = false := by
  unfold Broker.locked at free ⊢
  rw [decide_eq_false_iff_not] at free ⊢
  intro taken
  obtain ⟨g, mem, locks⟩ := mem_filterMap.mp taken
  obtain ⟨h, listed, alike⟩ := paired_mem related.handlers mem
  grind [HandlerAlike.lock]

theorem load_alike (mem : h ∈ s.handlers) (mine : h.client = client)
    (uses : h.holds = some req.seqNum) :
    Option.Rel (Moved client s.written req.seqNum) (stored s.producer req.seqNum)
      (stored t.producer req.seqNum) :=
  related.stores _ (related.clear h mem mine _ uses).written

variable (at_i : s.handlers[i]? = some h) (mine : h.client = client)
include at_i mine

/-- **A step of the client's handler behind its last message.** -/
theorem own_reply (alike : HandlerAlike client s.written s.producer h g)
    (taken : replyStep s i h e = some s') :
    ∃ t', replyStep t (rank (fun g => g.client = client) s.handlers i) g e = some t' ∧
      Related client s' t' := by
  revert taken
  fun_cases replyStep s i h e with
  | case2 k ack next =>
    rintro ⟨⟩
    have bound : g.sent < g.acks.length := by
      rw [alike.sent, ← alike.acks.length_eq]
      grind
    have next' := List.getElem?_eq_getElem bound
    refine ⟨_, by rw [replyStep, next'], ?_⟩
    apply related.own at_i mine
    · exact mine
    · exact related.keyed h (mem_of_getElem? at_i)
    · exact fun n uses => .inl uses
    · exact { alike with sent := congrArg (· + 1) alike.sent }
  | case3 k early =>
    rintro ⟨⟩
    refine ⟨_, by rw [replyStep, if_pos (by rw [alike.batch, alike.sent]; exact early)], ?_⟩
    exact related.ownDone at_i mine related.alike.replies
  | case5 k all =>
    rintro ⟨⟩
    have all' : g.sent = g.acks.length := by
      rw [alike.sent, ← alike.acks.length_eq]
      exact all
    refine ⟨_, by rw [replyStep, if_pos all'], ?_⟩
    apply related.ownDone at_i mine
    have own : (h.acks.filter fun a => a.client = client) = h.acks := by
      grind [filter_eq_self, acks_client]
    rw [filter_append, own]
    exact rel_append related.alike.replies alike.acks
  | _ => rintro ⟨⟩

variable (todo : h.todo = req :: rest) (alike : HandlerAlike client s.written s.producer h g)
include todo alike

theorem Related.ownPhase {counters counters' : Counters}
    (clear : ∀ n, ({ h with phase := phase } : Handler).holds = some n →
      h.holds = some n ∨ Clear client s n)
    (same : PhaseAlike client s.written s.producer req phase phase') :
    Related client
      { s with counters := counters, handlers := s.handlers.set i { h with phase := phase } }
      { t with
        counters := counters'
        handlers := t.handlers.set (rank (fun g => g.client = client) s.handlers i)
          { g with phase := phase' } } :=
  related.own at_i mine mine (related.keyed h (mem_of_getElem? at_i)) clear
    (alike.atPhase todo same)

theorem Related.ownFinish {a b : Option PublishResult}
    (results : Option.Rel (Moved client s.written req.seqNum) a b) :
    Related client { s with handlers := s.handlers.set i (h.finish req rest a) }
      { t with
        handlers := t.handlers.set (rank (fun g => g.client = client) s.handlers i)
          (g.finish req rest b) } := by
  apply related.own at_i mine
  · exact mine
  · intro r mem
    apply related.keyed h (mem_of_getElem? at_i)
    rw [todo]
    exact mem_cons_of_mem _ mem
  · simp [holds_finish]
  · exact alike.finish results

/-- The load of a result that is stored, whatever the lookup said. -/
theorem own_loaded {part partID : Int} {msg : Message} {result : PublishResult}
    (uses : h.holds = some req.seqNum) (held : stored s.producer req.seqNum = some result)
    (looked : g.phase = .found part partID msg ∨ g.phase = .missed part partID msg) (k : Nat) :
    ∃ t', messageStep compress t (rank (fun g => g.client = client) s.handlers i) g req rest
        (.load k) g.phase = some t' ∧
      Related client
        { s with handlers := s.handlers.set i (h.finish req rest (some result)) } t' := by
  have loads := load_alike related (mem_of_getElem? at_i) mine uses
  rw [held] at loads
  cases held' : stored t.producer req.seqNum with
  | none =>
    rw [held'] at loads
    cases loads
  | some result' =>
    rw [held'] at loads
    refine ⟨_, ?_, related.ownFinish at_i mine todo alike loads⟩
    grind [messageStep]

theorem own_append {part partID : Int} {msg : Message} {log : SparseLog Message}
    {result : PublishResult} (sound : Sound s) (mode : req.deliveryMode = exactlyOnce)
    (uses : h.holds = some req.seqNum) (phase : g.phase = .writing part partID msg)
    (here : log = s.logs ⟨req.topic, partID⟩) (placed : result = ⟨msg.id, partID, log.next⟩)
    (k : Nat) :
    ∃ t', messageStep compress t (rank (fun g => g.client = client) s.handlers i) g req rest
        (.append k) g.phase = some t' ∧
      Related client
        { s with
          logs := Function.update s.logs ⟨req.topic, partID⟩ (log.append (msg.setOffset log.next))
          handlers := s.handlers.set i { h with phase := .appended part result }
          written := s.written ++ [⟨h.client, req, result⟩] } t' := by
  subst placed
  have grown := @Related.ownAppends client s t msg log (t.logs ⟨req.topic, partID⟩)
    ⟨h.client, req, ⟨msg.id, partID, log.next⟩⟩ related sound here rfl mine rfl
  have last : unshift client (s.written ++ [⟨h.client, req, ⟨msg.id, partID, log.next⟩⟩])
      ⟨h.client, req, ⟨msg.id, partID, log.next⟩⟩ =
        ⟨h.client, req, ⟨msg.id, partID, (t.logs ⟨req.topic, partID⟩).next⟩⟩ :=
    related.unshift_last sound here rfl rfl
  have moved : Moved client (s.written ++ [⟨h.client, req, ⟨msg.id, partID, log.next⟩⟩]) req.seqNum
      ⟨msg.id, partID, log.next⟩ ⟨msg.id, partID, (t.logs ⟨req.topic, partID⟩).next⟩ :=
    ⟨_, mem_append_right _ mem_cons_self, mine, ⟨mode, rfl⟩, rfl, by rw [last]⟩
  have sender : (⟨g.client, req, ⟨msg.id, partID, (t.logs ⟨req.topic, partID⟩).next⟩⟩ : Ack) =
      ⟨h.client, req, ⟨msg.id, partID, (t.logs ⟨req.topic, partID⟩).next⟩⟩ := by
    rw [alike.sender]
  rw [phase]
  refine ⟨_, rfl, ?_⟩
  rw [if_pos mode, sender]
  apply grown.ownPhase at_i mine todo
  · apply alike.transfer _ fun _ held => held
    exact fun _ _ _ moved => moved.append (later_of_below sound here rfl)
  · grind [holds_phase]
  · exact .appended moved

/-- **A step of the client's handler at its message** is one of the run alone. -/
theorem own_move (sound : Sound s) (alone : Sound t) (move : Move compress s i h req rest e s')
    (apart : ∀ k, e = .lookup k → s.Separate client i) :
    ∃ t', messageStep compress t (rank (fun g => g.client = client) s.handlers i) g req rest e
        g.phase = some t' ∧ Related client s' t' := by
  have mem := mem_of_getElem? at_i
  have phases := alike.phase req rest todo
  obtain ⟨keyed, mode⟩ := related.keyed h mem req (by rw [todo]; exact mem_cons_self)
  cases move with
  | refuse early unrouted =>
    refine ⟨_, ?_, related.ownDone at_i mine related.alike.replies⟩
    cases phase : h.phase with
    | ready | assigned part | locked part =>
      rw [phases.same (by rw [phase]; rfl), phase]
      rfl
    | routed part partID msg => exact absurd phase (unrouted part partID msg)
    | _ =>
      rw [phase] at early
      cases early
  | assign phase =>
    have assigned : (assign t.topics t.counters req.topic req.key).1 =
        (assign s.topics s.counters req.topic req.key).1 := by
      rw [related.topics]
      exact assign_keyed keyed
    rw [phases.same (by rw [phase]; rfl), phase]
    refine ⟨_, rfl, ?_⟩
    rw [assigned]
    apply related.ownPhase at_i mine todo alike _ (.assigned _)
    intro n uses
    cases uses.symm.trans (holds_none_of_phase rfl)
  | lock phase free =>
    rw [phases.same (by rw [phase]; rfl), phase]
    refine ⟨_, if_neg (by rw [locked_alike related free]; nofun), ?_⟩
    apply related.ownPhase at_i mine todo alike _ (.locked _)
    intro n uses
    cases uses.symm.trans (holds_none_of_phase rfl)
  | @route _ _ stamp phase =>
    have routed : (route compress t.topics t.counters req stamp).1 =
        (route compress s.topics s.counters req stamp).1 := by
      rw [related.topics]
      exact route_keyed keyed
    rw [phases.same (by rw [phase]; rfl), phase]
    refine ⟨_, rfl, ?_⟩
    rw [routed]
    apply related.own at_i mine
    · exact client_routed.trans mine
    · grind [Related.keyed, todo_routed]
    · simp [holds_routed, todo]
    · exact alike.routed todo _
  | lookup phase =>
    rw [phases.same (by rw [phase]; rfl), phase]
    obtain ⟨clear, unmarked⟩ := clear_of_separate (apart _ rfl) at_i mine todo
    refine ⟨_, rfl, ?_⟩
    apply related.ownPhase at_i mine todo alike
    · grind [holds_phase]
    · exact lookup_alike related sound alone clear.written unmarked
  | loadFound phase =>
    have uses : h.holds = some req.seqNum := holds_eq todo mode (by rw [phase]; rfl)
    rw [phase] at phases
    generalize same : g.phase = gPhase at phases
    cases phases with
    | looked left right held =>
      cases found : stored s.producer req.seqNum with
      | none => exact absurd found held
      | some result =>
        rw [← same] at right ⊢
        exact own_loaded related at_i mine todo alike uses found right _
  | loadMissed phase =>
    have uses : h.holds = some req.seqNum := holds_eq todo mode (by rw [phase]; rfl)
    rw [phase] at phases
    generalize same : g.phase = gPhase at phases
    cases found : stored s.producer req.seqNum with
    | some result =>
      rw [← same]
      cases phases with
      | looked left right held =>
        exact own_loaded related at_i mine todo alike uses found (same ▸ right) _
      | missed part partID msg =>
        exact own_loaded related at_i mine todo alike uses found (.inr same) _
    | none =>
      cases phases with
      | looked left right held => exact absurd found held
      | missed part partID msg =>
        have loads := load_alike related mem mine uses
        rw [found] at loads
        have found' : stored t.producer req.seqNum = none := by
          generalize stored t.producer req.seqNum = b at loads
          cases loads
          rfl
        refine ⟨_, rfl, ?_⟩
        rw [found']
        apply related.ownPhase at_i mine todo alike
        · grind [holds_phase]
        · exact .writing _ _ _
  | again phase =>
    rw [phase] at phases
    generalize g.phase = gPhase at phases
    cases phases with
    | looked left _ _ => grind
  | append phase here placed =>
    have uses : h.holds = some req.seqNum := holds_eq todo mode (by rw [phase]; rfl)
    rw [if_pos mode]
    exact own_append related at_i mine todo alike sound mode uses
      ((phases.same (by rw [phase]; rfl)).trans phase) here placed _
  | fail phase =>
    rw [phases.same (by rw [phase]; rfl), phase]
    exact ⟨_, rfl, related.ownFinish at_i mine todo alike .none⟩
  | @mark _ part result phase =>
    have uses : h.holds = some req.seqNum := holds_eq todo mode (by rw [phase]; rfl)
    obtain ⟨result', phase', moved⟩ := (alike_result phases).1 part result phase
    rw [phase']
    refine ⟨_, rfl, ?_⟩
    have marked := @Related.producers client s t related (mark s.producer req.seqNum result.offset)
      (mark t.producer req.seqNum result'.offset) (fun _ held => held) related.stores
    apply marked.ownPhase at_i mine todo
    · exact alike.transfer (fun _ _ _ moved => moved) fun _ held => held
    · grind [holds_phase]
    · exact .marked moved
  | store phase =>
    obtain ⟨result', phase', moved⟩ := (alike_result phases).2 _ _ phase
    rw [phase']
    refine ⟨_, rfl, ?_⟩
    apply (related.ownStores moved).ownFinish at_i mine todo
    · exact alike.transfer (fun _ _ _ moved => moved) held_store
    · exact .some moved

end Own

/-! ### Steps of the others -/

section Other

variable {compress : UInt8 → Bytes → Option Bytes} {s' : Broker} {e : Event}
variable (related : Related client s t) (at_i : s.handlers[i]? = some h)
  (theirs : h.client ≠ client)
include related at_i theirs

theorem Related.otherPhase {counters : Counters} {phase : Phase}
    (taken : ∀ n, ({ h with phase := phase } : Handler).holds = some n →
      h.holds = some n ∨ ∀ g ∈ s.handlers, g.client = client → g.holds ≠ some n) :
    Related client
      { s with counters := counters, handlers := s.handlers.set i { h with phase := phase } } t :=
  related.other at_i theirs theirs (related.keyed h (mem_of_getElem? at_i)) taken

theorem other_reply (taken : replyStep s i h e = some s') : Related client s' t := by
  revert taken
  fun_cases replyStep s i h e with
  | case2 =>
    rintro ⟨⟩
    apply related.other at_i theirs
    · exact theirs
    · exact related.keyed h (mem_of_getElem? at_i)
    · exact fun n uses => .inl uses
  | case3 =>
    rintro ⟨⟩
    exact related.otherDone at_i theirs rfl
  | case5 =>
    rintro ⟨⟩
    apply related.otherDone at_i theirs
    have none : (h.acks.filter fun a => a.client = client) = [] := by
      rw [filter_eq_nil_iff]
      intro a mem own
      exact theirs ((acks_client mem).symm.trans (of_decide_eq_true own))
    simp [none]
  | _ => rintro ⟨⟩

variable (todo : h.todo = req :: rest)
include todo

theorem Related.otherFinish {a : Option PublishResult} :
    Related client { s with handlers := s.handlers.set i (h.finish req rest a) } t := by
  apply related.other at_i theirs
  · exact theirs
  · intro r mem
    apply related.keyed h (mem_of_getElem? at_i)
    rw [todo]
    exact mem_cons_of_mem _ mem
  · simp [holds_finish]

/-- **A step of another client's handler at its message** changes nothing for the
client. -/
theorem other_move (sound : Sound s) (move : Move compress s i h req rest e s')
    (apart : ∀ k, e = .lookup k → s.Separate client i) : Related client s' t := by
  have mem := mem_of_getElem? at_i
  obtain ⟨-, mode⟩ := related.keyed h mem req (by rw [todo]; exact mem_cons_self)
  -- the client's handlers do not use a number that this handler uses
  have unused : h.holds = some req.seqNum → ∀ k ∈ s.handlers, k.client = client →
      k.holds ≠ some req.seqNum := by
    intro uses k listed own same
    exact theirs ((related.clear k listed own _ same).handlers h mem uses)
  cases move with
  | refuse _ _ => exact related.otherDone at_i theirs rfl
  | assign phase | lock phase _ =>
    apply related.otherPhase at_i theirs
    intro n uses
    cases uses.symm.trans (holds_none_of_phase rfl)
  | route phase =>
    apply related.other at_i theirs
    · rw [client_routed]
      exact theirs
    · grind [Related.keyed, todo_routed]
    simp [holds_routed, todo]
  | lookup phase =>
    obtain ⟨handlers, -, -⟩ := apart _ rfl h at_i req (by rw [todo]; rfl)
    apply related.otherPhase at_i theirs
    intro n uses
    grind [holds_phase]
  | loadFound phase | loadMissed phase =>
    cases stored s.producer req.seqNum with
    | some result => exact related.otherFinish at_i theirs todo
    | none =>
      apply related.otherPhase at_i theirs
      intro n uses
      rw [← holds_phase todo uses]
      exact .inl (holds_eq todo mode (by rw [phase]; rfl))
  | again phase => exact related.otherFinish at_i theirs todo
  | @append _ part partID msg log result phase here placed =>
    subst placed
    have uses := holds_eq todo mode (by rw [phase]; rfl)
    rw [if_pos mode]
    have grown := @Related.otherAppends client s t (msg.setOffset log.next) log
      ⟨h.client, req, ⟨msg.id, partID, log.next⟩⟩ related sound here rfl theirs <| by
        intro k listed own n numbered same
        exact unused uses k listed own (numbered.2 ▸ same)
    apply grown.otherPhase at_i theirs
    grind [holds_phase]
  | fail phase => exact related.otherFinish at_i theirs todo
  | @mark _ part result phase =>
    have marked := @Related.producers client s t related (mark s.producer req.seqNum result.offset)
      t.producer (fun _ held => held) related.stores
    apply marked.otherPhase at_i theirs
    intro n uses
    rw [← holds_phase todo uses]
    exact .inl (holds_eq todo mode (by rw [phase]; rfl))
  | store phase =>
    have record := sound.recorded h mem req rest todo _ _ (.inr phase)
    exact (related.otherStores ⟨_, record, ⟨mode, rfl⟩, theirs⟩).otherFinish at_i theirs todo

end Other

/-! ### Whole steps -/

section Step

variable {compress : UInt8 → Bytes → Option Bytes} {s' : Broker} {e e' : Event}

/-- A step of a handler. -/
theorem step_actor (actor : e.handler = some i) (at_i : s.handlers[i]? = some h) :
    step compress s e = match h.todo with
      | req :: rest => messageStep compress s i h req rest e h.phase
      | [] => replyStep s i h e := by
  cases e with
  | createTopic | subscribe | publish | batchPublish => cases actor
  | _ =>
    cases actor
    cases todo : h.todo <;> simp only [step, Event.handler, at_i, todo]

theorem messageStep_toHandler {k : Nat} {phase : Phase} :
    messageStep compress t j g req rest (e.toHandler k) phase =
      messageStep compress t j g req rest e phase := by
  cases e with
  | _ =>
    cases phase with
    | _ => rfl

theorem replyStep_toHandler {k : Nat} : replyStep t j g (e.toHandler k) = replyStep t j g e := by
  cases e with
  | _ => rfl

theorem toHandler_handler (actor : e.handler = some i) : (e.toHandler j).handler = some j := by
  cases e with
  | createTopic | subscribe | publish | batchPublish => cases actor
  | _ => rfl

theorem own_of_actor (actor : e.handler = some i) (at_i : s.handlers[i]? = some h) :
    e.own client s = if h.client = client then
      some (e.toHandler (rank (fun g => g.client = client) s.handlers i)) else none := by
  cases e with
  | createTopic | subscribe | publish | batchPublish => cases actor
  | _ => simp [Event.own, at_i, actor]

theorem separate_of_apart (actor : e.handler = some i) (apart : Apart client s e) :
    ∀ k, e = .lookup k → s.Separate client i := by
  rintro k rfl
  cases actor
  exact apart

theorem related_boot {topics : Topics} {logs : PartitionId → SparseLog Message}
    {counters : Counters} {producerID : String} {dedupWindow : Int} {groups : List GroupKey} :
    Related client (boot topics logs counters producerID dedupWindow groups)
      (boot topics logs counters producerID dedupWindow groups) where
  keyed := by simp [boot]
  clear := by simp [boot]
  topics := rfl
  groups := rfl
  next := fun _ => (Int.sub_zero _).symm
  alike := ⟨rfl, by simp [boot], .nil⟩
  handlers := .nil
  stores := fun _ _ => .none

variable (related : Related client s t)
include related

theorem Related.outer {topics topics' : Topics} {groups groups' : List GroupKey}
    (same : topics' = topics) (same' : groups' = groups) :
    Related client { s with topics := topics, groups := groups }
      { t with topics := topics', groups := groups' } := by
  refine { related with clear := ?_, topics := same, groups := same', alike := ?_ }
  · intro k listed own n uses
    have clear := related.clear k listed own n uses
    exact ⟨clear.written, clear.handlers⟩
  · exact ⟨related.alike.written, related.alike.contents, related.alike.replies⟩

/-- The step of the client's handler that the run alone takes. -/
theorem own_actor (actor : e.handler = some i) (at_i : s.handlers[i]? = some h)
    (own : e.own client s = some e') :
    h.client = client ∧ ∃ g, HandlerAlike client s.written s.producer h g ∧
      step compress t e' = match h.todo with
        | req :: rest => messageStep compress t (rank (fun g => g.client = client) s.handlers i)
          g req rest e g.phase
        | [] => replyStep t (rank (fun g => g.client = client) s.handlers i) g e := by
  rw [own_of_actor actor at_i] at own
  obtain ⟨mine, ⟨⟩⟩ := Option.ite_none_right_eq_some.mp own
  obtain ⟨g, at_j, alike⟩ := paired_get related.handlers at_i (decide_eq_true mine)
  refine ⟨mine, g, alike, ?_⟩
  rw [step_actor (toHandler_handler actor) at_j, alike.todo]
  split
  · exact messageStep_toHandler
  · exact replyStep_toHandler

variable (sound : Sound s) (apart : Apart client s e) (taken : step compress s e = some s')
include sound apart taken

theorem own_step (alone : Sound t) (own : e.own client s = some e') :
    ∃ t', step compress t e' = some t' ∧ Related client s' t' := by
  revert taken
  fun_cases step compress s e with
  | case1 name cfg known =>
    rintro ⟨⟩
    cases own
    exact ⟨t, if_pos (by rwa [related.topics]), related⟩
  | case2 name cfg fresh =>
    rintro ⟨⟩
    cases own
    refine ⟨_, if_neg (by rwa [related.topics]), related.outer ?_ related.groups⟩
    rw [related.topics]
  | case3 key known =>
    rintro ⟨⟩
    cases own
    exact ⟨t, if_pos (by rwa [related.groups]), related⟩
  | case4 key fresh =>
    rintro ⟨⟩
    cases own
    refine ⟨_, if_neg (by rwa [related.groups]), related.outer related.topics ?_⟩
    rw [related.groups]
  | case5 sender req unnamed =>
    rintro ⟨⟩
    obtain ⟨-, ⟨⟩⟩ := Option.ite_none_right_eq_some.mp own
    exact ⟨t, if_pos unnamed, related⟩
  | case6 sender req named =>
    rintro ⟨⟩
    obtain ⟨mine, ⟨⟩⟩ := Option.ite_none_right_eq_some.mp own
    refine ⟨_, if_neg named, related.ownArrives rfl ?_ mine rfl⟩
    exact forall_mem_singleton.mpr apart
  | case7 sender =>
    rintro ⟨⟩
    obtain ⟨-, ⟨⟩⟩ := Option.ite_none_right_eq_some.mp own
    exact ⟨t, rfl, related⟩
  | case8 sender first rest mixed =>
    rintro ⟨⟩
    obtain ⟨-, ⟨⟩⟩ := Option.ite_none_right_eq_some.mp own
    exact ⟨t, if_pos mixed, related⟩
  | case9 sender first rest uniform =>
    rintro ⟨⟩
    obtain ⟨mine, ⟨⟩⟩ := Option.ite_none_right_eq_some.mp own
    exact ⟨_, if_neg uniform, related.ownArrives rfl apart mine rfl⟩
  | case12 e _ _ _ _ i actor h at_i req rest todo =>
    intro taken
    obtain ⟨mine, g, alike, same⟩ := own_actor related actor at_i own
    rw [todo] at same
    rw [same]
    exact own_move related at_i mine todo alike sound alone (messageStep_move taken)
      (separate_of_apart actor apart)
  | case13 e _ _ _ _ i actor h at_i todo =>
    intro taken
    obtain ⟨mine, g, alike, same⟩ := own_actor related actor at_i own
    rw [todo] at same
    rw [same]
    exact own_reply related at_i mine alike taken
  | _ => rintro ⟨⟩

theorem other_step (own : e.own client s = none) : Related client s' t := by
  revert taken
  fun_cases step compress s e with
  | case1 | case2 | case3 | case4 => cases own
  | case5 | case7 | case8 =>
    rintro ⟨⟩
    exact related
  | case6 sender req named =>
    rintro ⟨⟩
    exact related.otherArrives (holds_none_of_phase rfl) (forall_mem_singleton.mpr apart)
      (by simpa [Event.own] using own)
  | case9 sender first rest uniform =>
    rintro ⟨⟩
    exact related.otherArrives (holds_none_of_phase rfl) apart (by simpa [Event.own] using own)
  | case12 e _ _ _ _ i actor h at_i req rest todo =>
    intro taken
    have theirs : h.client ≠ client := by simpa [own_of_actor actor at_i] using own
    exact other_move related at_i theirs todo sound (messageStep_move taken)
      (separate_of_apart actor apart)
  | case13 e _ _ _ _ i actor h at_i todo =>
    intro taken
    have theirs : h.client ≠ client := by simpa [own_of_actor actor at_i] using own
    exact other_reply related at_i theirs taken
  | _ => rintro ⟨⟩

end Step

end Related

/-! ## Noninterference -/

instance (client : String) (s : Broker) : DecidablePred (Apart client s) := by
  rintro (_ | _) <;> unfold Apart <;> infer_instance

/-- **Clients do not interfere** in a run of keyed exactly-once requests in which the
client's numbers are its own.  The client's part of the run is a run, and it leaves
the client the same records and replies. -/
theorem publish_isolated {compress : UInt8 → Bytes → Option Bytes} {topics : Topics}
    {logs : PartitionId → SparseLog Message} {counters : Counters} {producerID : String}
    {dedupWindow : Int} {groups : List GroupKey} {client : String} {events : List Event} {s : Broker}
    (ran : runAll (step compress) (Apart client)
      (boot topics logs counters producerID dedupWindow groups) events = some s) :
    ∃ t, runAll (step compress) (fun _ _ => True)
        (boot topics logs counters producerID dedupWindow groups)
        (purge (step compress) (Event.own client)
          (boot topics logs counters producerID dedupWindow groups) events) = some t ∧
      Alike client s t := by
  have unwound := @purge_related Broker Event (step compress) (Apart client) _ (Event.own client)
    (fun s t => Sound s ∧ Sound t ∧ Related client s t)
  obtain ⟨t, alone, -, -, related⟩ := unwound
    (by
      intro s e e' s' t apart own taken ⟨sound, alone, related⟩
      obtain ⟨t', taken', related'⟩ := own_step related sound apart taken alone own
      exact ⟨t', taken', sound_step sound taken, sound_step alone taken', related'⟩)
    (by
      intro s e s' t apart own taken ⟨sound, alone, related⟩
      exact ⟨sound_step sound taken, alone, other_step related sound apart taken own⟩)
    ran ⟨sound_boot, sound_boot, related_boot⟩
  exact ⟨t, alone, related.alike⟩

/-! ## Runs -/

section Samples

def sampleKeyed (key : UInt8) (seqNum : Nat) : PublishRequest :=
  ⟨"t", [key], [1], [], exactlyOnce, seqNum, 0, none⟩

/-- Who has which record, and who was told which place. -/
structure Trace where
  written : List (String × Nat × Int × Int)
  replies : List (String × Nat × Int × Int)
deriving DecidableEq

def Broker.trace (s : Broker) : Trace :=
  let line (a : Ack) := (a.client, a.request.seqNum, a.result.partition, a.result.offset)
  ⟨s.written.map line, s.acks.map line⟩

/-- A broker with a window of one number. -/
def sampleNarrow : Broker :=
  boot (Function.update (fun _ => none) "t" (some ⟨2, 0, Nat.two_pos⟩)) (fun _ => SparseLog.empty)
    (fun _ => 0) "p" 1 []

/-- The run of the client `c` alone. -/
def sampleAlone (events : List Event) : List Event :=
  purge (step samplePack) (Event.own "c") sampleNarrow events

/-- Two messages of `c` with one of `d` between them, and a repeat of the first. -/
def sampleMixed : List Event :=
  [[.publish "c" (sampleKeyed 1 5)], sampleLookup 0, sampleStore 0,
    [.publish "d" (sampleKeyed 1 7), .publish "c" (sampleKeyed 1 6)], sampleLookup 0, sampleStore 0,
    sampleLookup 0, sampleStore 0,
    [.publish "c" (sampleKeyed 1 5)], sampleLookup 0, [.dispatch 0, .reply 0]].flatten

theorem publish_isolated_sample : ∃ s t,
    runAll (step samplePack) (Apart "c") sampleNarrow sampleMixed = some s ∧
    runAll (step samplePack) (fun _ _ => True) sampleNarrow (sampleAlone sampleMixed) = some t ∧
    s.trace = ⟨[("c", 5, 0, 0), ("d", 7, 0, 1), ("c", 6, 0, 2)],
      [("c", 5, 0, 0), ("d", 7, 0, 1), ("c", 6, 0, 2), ("c", 5, 0, 0)]⟩ ∧
    Alike "c" s t := by
  have ran : (runAll (step samplePack) (Apart "c") sampleNarrow sampleMixed).map Broker.trace =
      some ⟨[("c", 5, 0, 0), ("d", 7, 0, 1), ("c", 6, 0, 2)],
        [("c", 5, 0, 0), ("d", 7, 0, 1), ("c", 6, 0, 2), ("c", 5, 0, 0)]⟩ := by
    decide +kernel
  obtain ⟨s, ran, trace⟩ := Option.map_eq_some_iff.mp ran
  obtain ⟨t, alone, alike⟩ := publish_isolated ran
  exact ⟨s, t, ran, alone, trace, alike⟩

/-- Client `c` uses a number that `d` has used. -/
def sampleEqual : List Event :=
  [[.publish "d" (sampleKeyed 1 5)], sampleLookup 0, sampleStore 0,
    [.publish "c" (sampleKeyed 1 5)], sampleLookup 0, [.dispatch 0, .reply 0]].flatten

/-- The request of `c` without the other. -/
def sampleSingle : List Event :=
  [[.publish "c" (sampleKeyed 1 5)], sampleLookup 0, sampleStore 0].flatten

/-- Two requests of `c` with one number and different keys, up to the first mark. -/
def samplePair : List Event :=
  [[.publish "c" (sampleKeyed 1 5), .publish "c" (sampleKeyed 2 5)], sampleLookup 0,
    [.append 0, .mark 0]].flatten

/-- The mark of `d`, which has another number, pushes that of `c` out of the window. -/
def samplePushed : List Event :=
  [samplePair, [.publish "d" (sampleKeyed 4 7)], sampleLookup 2, [.append 2, .mark 2, .store 2],
    sampleLookup 1, sampleStore 1, [.store 0, .dispatch 0, .reply 0]].flatten

/-- The same requests of `c` without the other. -/
def sampleKept : List Event :=
  [samplePair, sampleLookup 1, [.again 1, .dispatch 1, .reply 1, .store 0, .dispatch 0,
    .reply 0]].flatten

theorem not_alike_of_length {s t : Broker}
    (differ : (s.trace.written.filter fun w => w.1 = "c").length ≠ t.trace.written.length) :
    ¬ Alike "c" s t := by
  intro alike
  apply differ
  have same := congrArg List.length alike.written
  rw [length_map] at same
  show ((s.written.map _).filter _).length = (t.written.map _).length
  rw [filter_map, length_map, length_map, same]
  rfl

def sampleTrace (events : List Event) : Option Trace :=
  (runAll (step samplePack) (fun _ _ => True) sampleNarrow events).map Broker.trace

theorem sampleTrace_reaches {events : List Event} {trace : Trace}
    (ran : sampleTrace events = some trace) :
    ∃ s, Reaches (step samplePack) (fun _ _ => True) sampleNarrow s ∧ s.trace = trace := by
  obtain ⟨s, ran, same⟩ := Option.map_eq_some_iff.mp ran
  exact ⟨s, Reaches.init.run ran, same⟩

/-- **What the conditions exclude.**  If `d` has used the number of `c`, the message
of `c` is not appended, and alone it is.  With a window of one number, the mark of `d`
between the mark and the store of `c` makes a second record of what is one record
alone. -/
theorem publish_interferes :
    (∃ s t, Reaches (step samplePack) (fun _ _ => True) sampleNarrow s ∧
      Reaches (step samplePack) (fun _ _ => True) sampleNarrow t ∧
      s.trace = ⟨[("d", 5, 0, 0)], [("d", 5, 0, 0), ("c", 5, 0, 0)]⟩ ∧
      t.trace = ⟨[("c", 5, 0, 0)], [("c", 5, 0, 0)]⟩ ∧ ¬ Alike "c" s t) ∧
    ∃ s t, Reaches (step samplePack) (fun _ _ => True) sampleNarrow s ∧
      Reaches (step samplePack) (fun _ _ => True) sampleNarrow t ∧
      s.trace = ⟨[("c", 5, 0, 0), ("d", 7, 1, 0), ("c", 5, 1, 1)],
        [("c", 5, 1, 1), ("c", 5, 0, 0)]⟩ ∧
      t.trace = ⟨[("c", 5, 0, 0)], [("c", 5, 1, 0), ("c", 5, 0, 0)]⟩ ∧ ¬ Alike "c" s t := by
  have equal : sampleTrace sampleEqual =
    some ⟨[("d", 5, 0, 0)], [("d", 5, 0, 0), ("c", 5, 0, 0)]⟩ := by decide +kernel
  have single : sampleTrace sampleSingle = some ⟨[("c", 5, 0, 0)], [("c", 5, 0, 0)]⟩ := by
    decide +kernel
  have pushed : sampleTrace samplePushed = some ⟨[("c", 5, 0, 0), ("d", 7, 1, 0), ("c", 5, 1, 1)],
    [("c", 5, 1, 1), ("c", 5, 0, 0)]⟩ := by decide +kernel
  have kept : sampleTrace sampleKept =
    some ⟨[("c", 5, 0, 0)], [("c", 5, 1, 0), ("c", 5, 0, 0)]⟩ := by decide +kernel
  constructor
  · grind [sampleTrace_reaches, not_alike_of_length]
  · grind [sampleTrace_reaches, not_alike_of_length]

end Samples

end PubsubBroker.Publish.ExactlyOnce
