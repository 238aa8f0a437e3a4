/-
# Publish.Idempotence — when an exactly-once publish is idempotent

A sequence number is in use while a handler is between its lookup and the store of
its result.  If no two handlers use a number at a time and only one client uses it
at all, then a number that is not in use is unused or has one record, whose result
is stored (`Inv.rest`), and a handler that uses a number finds what it should
(`Holding`).  So there is one record for each number, and every reply is about it.

The message reaches each group at most once only if a repeat is dispatched while
its topic has no group.  `publish_idempotent` puts the three together, and
`publish_repeated` shows a run against each.
-/
import PubsubBroker.Publish.ExactlyOnce

namespace PubsubBroker.Publish.ExactlyOnce

open Theory List
open Storage (Message)

/-- The result belongs to an exactly-once request with this sequence number. -/
def Numbered (seqNum : Nat) (a : Ack) : Prop :=
  a.request.deliveryMode = exactlyOnce ∧ a.request.seqNum = seqNum
deriving Decidable

/-- What exactly-once promises for the requests of one client with one number: at
most one record, replies that name its place, and at most one dispatch to each
group. -/
structure Idempotent (s : Broker) : Prop where
  once : ∀ client seqNum,
    (s.written.filter fun w => Numbered seqNum w ∧ w.client = client).length ≤ 1
  replies : ∀ a ∈ s.acks, a.request.deliveryMode = exactlyOnce →
    ∃ w ∈ s.written, Numbered a.request.seqNum w ∧ w.client = a.client ∧
      w.result.partition = a.result.partition ∧ w.result.offset = a.result.offset
  dispatches : ∀ client seqNum key,
    (s.dispatched.filter fun d =>
      Numbered seqNum d.ack ∧ d.ack.client = client ∧ d.key = key).length ≤ 1

/-- When a handler looks its number up, no other handler uses it and no other client
has a record with it. -/
def Broker.Exclusive (s : Broker) (i : Nat) : Prop :=
  ∀ h ∈ s.handlers[i]?, ∀ req ∈ h.todo.head?,
    (∀ g ∈ s.handlers, g.holds ≠ some req.seqNum) ∧
      ∀ w ∈ s.written, Numbered req.seqNum w → w.client = h.client
deriving Decidable

/-- A message that some group has got is dispatched again only while its topic has no
group. -/
def Broker.Unheard (s : Broker) (i : Nat) : Prop :=
  ∀ h ∈ s.handlers[i]?, ∀ ack ∈ h.acks[h.sent]?, ack.request.deliveryMode = exactlyOnce →
    ∀ d ∈ s.dispatched, Numbered ack.request.seqNum d.ack → d.ack.client = ack.client →
      ∀ key ∈ s.groups, key.topic ≠ ack.request.topic
deriving Decidable

def Orderly (s : Broker) : Event → Prop
  | .lookup i => s.Exclusive i
  | .dispatch i => s.Unheard i
  | _ => True

/-! ## Sequence numbers -/

section

variable {s s' : Broker} {h : Handler} {seqNum n : Nat} {w : Ack}

theorem lookup_mark_other {cw : ClientWindow} {offset : Int} (other : n ≠ seqNum)
    (missing : cw.lookup n = none) : (cw.mark seqNum offset).lookup n = none := by
  unfold ClientWindow.lookup at missing ⊢
  rw [Option.map_eq_none_iff, find?_eq_none] at missing ⊢
  intro e mem
  cases mem_or_eq_of_mem_set mem with
  | inl old => exact missing e old
  | inr new => simp [new]; omega

theorem window_mark {p : Producer} {offset : Int} (other : n ≠ seqNum)
    (missing : window p n = none) : window (mark p seqNum offset) n = none := by
  unfold window mark DedupWindow.lookupOffset DedupWindow.mark at *
  simp only [Function.update_self, Option.bind_some]
  apply lookup_mark_other other
  cases seen : p.dedup.perClient p.producerID with
  | some cw => grind
  | none =>
    simp [ClientWindow.lookup, newClientWindow]

theorem stored_store (p : Producer) (result : PublishResult) :
    stored (store p seqNum result) n = if n = seqNum then some result else stored p n := by
  unfold stored store
  simp only [Function.update_apply, Prod.mk.injEq, true_and]

/-- No record has the number, and nothing is recorded about it. -/
structure Unused (s : Broker) (n : Nat) : Prop where
  none : s.written.filter (Numbered n ·) = []
  stored : stored s.producer n = Option.none
  window : window s.producer n = Option.none

/-- One record has the number, and its result is stored. -/
structure Kept (s : Broker) (n : Nat) (w : Ack) : Prop where
  only : s.written.filter (Numbered n ·) = [w]
  stored : stored s.producer n = some w.result

theorem Kept.mem (kept : Kept s n w) : w ∈ s.written ∧ Numbered n w := by
  have mem : w ∈ s.written.filter (Numbered n ·) := by
    rw [kept.only]
    exact mem_singleton_self w
  grind

/-- What a handler that uses a number knows about it. -/
def Holding (s : Broker) (n : Nat) (client : String) (req : PublishRequest) : Phase → Prop
  | .found _ _ _ => ∃ w, Kept s n w ∧ w.client = client
  | .missed _ _ _ => Unused s n ∨ ∃ w, Kept s n w ∧ w.client = client
  | .evicted _ _ => False
  | .writing _ _ _ => Unused s n
  | .appended _ result =>
    s.written.filter (Numbered n ·) = [⟨client, req, result⟩] ∧ stored s.producer n = none ∧
      window s.producer n = none
  | .marked _ result =>
    s.written.filter (Numbered n ·) = [⟨client, req, result⟩] ∧ stored s.producer n = none
  | _ => True

/-- The phases that only exactly-once messages go through. -/
def Phase.deduped : Phase → Bool
  | .routed _ _ _ => true
  | .found _ _ _ => true
  | .missed _ _ _ => true
  | .evicted _ _ => true
  | .appended _ _ => true
  | .marked _ _ => true
  | _ => false

/-- The handler is in such a phase only at an exactly-once message. -/
def Handler.Moded (h : Handler) : Prop :=
  h.phase.deduped = true → ∀ req ∈ h.todo.head?, req.deliveryMode = exactlyOnce

/-- Results of exactly-once requests are those of the client's own record. -/
def Own (s : Broker) (client : String) (fate : Fate) : Prop :=
  fate.1.deliveryMode = exactlyOnce → ∀ result ∈ fate.2,
    ∃ w ∈ s.written, Numbered fate.1.seqNum w ∧ w.client = client ∧ w.result = result

structure Inv (s : Broker) : Prop where
  rest : ∀ n, (∀ h ∈ s.handlers, h.holds ≠ some n) → Unused s n ∨ ∃ w, Kept s n w
  alone : s.handlers.Pairwise fun g h => ∀ n, g.holds = some n → h.holds ≠ some n
  holding : ∀ h ∈ s.handlers, ∀ req rest, h.todo = req :: rest → ∀ n, h.holds = some n →
    Holding s n h.client req h.phase
  moded : ∀ h ∈ s.handlers, h.Moded
  fates : ∀ h ∈ s.handlers, ∀ fate ∈ h.done, Own s h.client fate
  acks : ∀ a ∈ s.acks, Own s a.client (a.request, some a.result)
  groups : s.groups.Nodup
  dispatched : ∀ client n key,
    (s.dispatched.filter fun d =>
      Numbered n d.ack ∧ d.ack.client = client ∧ d.key = key).length ≤ 1

/-! ## What a step leaves alone -/

/-- The records and what is recorded about the number are the same, except that the
window may have lost it. -/
structure Agrees (s s' : Broker) (n : Nat) : Prop where
  written : s'.written.filter (Numbered n ·) = s.written.filter (Numbered n ·)
  stored : stored s'.producer n = stored s.producer n
  window : window s.producer n = none → window s'.producer n = none

theorem Agrees.same (written : s'.written = s.written) (producer : s'.producer = s.producer)
    (n : Nat) : Agrees s s' n := by
  refine ⟨?_, ?_, ?_⟩
  · rw [written]
  · rw [producer]
  · rw [producer]
    exact id

theorem Unused.transfer (unused : Unused s n) (agrees : Agrees s s' n) : Unused s' n where
  none := agrees.written.trans unused.none
  stored := agrees.stored.trans unused.stored
  window := agrees.window unused.window

theorem Kept.transfer (kept : Kept s n w) (agrees : Agrees s s' n) : Kept s' n w where
  only := agrees.written.trans kept.only
  stored := agrees.stored.trans kept.stored

theorem settled_transfer (settled : Unused s n ∨ ∃ w, Kept s n w) (agrees : Agrees s s' n) :
    Unused s' n ∨ ∃ w, Kept s' n w := by
  cases settled with
  | inl unused => exact .inl (unused.transfer agrees)
  | inr held =>
    obtain ⟨w, kept⟩ := held
    exact .inr ⟨w, kept.transfer agrees⟩

variable {client : String}

theorem Holding.transfer {req : PublishRequest} {phase : Phase}
    (holding : Holding s n client req phase) (agrees : Agrees s s' n) :
    Holding s' n client req phase := by
  cases phase with
  | found part partID msg =>
    obtain ⟨w, kept, own⟩ := holding
    exact ⟨w, kept.transfer agrees, own⟩
  | missed part partID msg =>
    cases holding with
    | inl unused => exact .inl (unused.transfer agrees)
    | inr held =>
      obtain ⟨w, kept, own⟩ := held
      exact .inr ⟨w, kept.transfer agrees, own⟩
  | writing part partID msg => exact Unused.transfer holding agrees
  | appended part result =>
    exact ⟨agrees.written.trans holding.1, agrees.stored.trans holding.2.1,
      agrees.window holding.2.2⟩
  | marked part result =>
    exact ⟨agrees.written.trans holding.1, agrees.stored.trans holding.2⟩
  | _ => exact holding

theorem Own.mono {fate : Fate} (own : Own s client fate) (grows : ∀ w ∈ s.written, w ∈ s'.written) :
    Own s' client fate := by
  intro mode result placed
  obtain ⟨w, held, rest⟩ := own mode result placed
  exact ⟨w, grows w held, rest⟩

/-! ## Moves -/

variable {compress : UInt8 → Bytes → Option Bytes} {i : Nat} {req : PublishRequest}
variable {rest : List PublishRequest} {e : Event} {h' : Handler} {counters : Counters}

theorem holds_none_of_phase (idle : h.phase.working = false) : h.holds = none := by
  unfold Handler.holds
  grind

theorem holds_finish (result : Option PublishResult) : (h.finish req rest result).holds = none :=
  holds_none_of_phase rfl

theorem holds_eq (todo : h.todo = req :: rest) (mode : req.deliveryMode = exactlyOnce)
    (working : h.phase.working = true) : h.holds = some req.seqNum := by
  unfold Handler.holds
  rw [todo]
  exact if_pos ⟨mode, working⟩

theorem holds_some (todo : h.todo = req :: rest) (uses : h.holds = some n) :
    req.deliveryMode = exactlyOnce ∧ req.seqNum = n ∧ h.phase.working = true := by
  unfold Handler.holds at uses
  rw [todo] at uses
  simp only at uses
  split at uses
  · grind
  · cases uses

theorem holds_phase {phase : Phase} (todo : h.todo = req :: rest)
    (uses : ({ h with phase := phase } : Handler).holds = some n) : req.seqNum = n :=
  (@holds_some { h with phase := phase } n req rest todo uses).2.1

theorem holds_elim {P : Prop} (idle : h.holds = none) (uses : h.holds = some n) : P := by
  rw [idle] at uses
  cases uses

theorem moded_finish (result : Option PublishResult) : (h.finish req rest result).Moded := nofun

theorem moded_of {phase : Phase} (mode : req.deliveryMode = exactlyOnce)
    (todo : h.todo = req :: rest) : ({ h with phase := phase } : Handler).Moded := by
  intro _ first head
  simp only [todo, head?_cons, Option.mem_def, Option.some.injEq] at head
  exact head ▸ mode

section

variable (inv : Inv s) (at_i : s.handlers[i]? = some h)

include inv at_i

/-- **A step of one handler.**  Other numbers than the one it uses are left alone; a
number it takes up is used by nobody, and one it lets go of is settled. -/
theorem Inv.replace (there : s'.handlers = s.handlers.set i h')
    (agrees : ∀ n, h.holds ≠ some n → Agrees s s' n) (grows : ∀ w ∈ s.written, w ∈ s'.written)
    (released : ∀ n, h.holds = some n → h'.holds ≠ some n → Unused s' n ∨ ∃ w, Kept s' n w)
    (taken : ∀ n, h'.holds = some n → h.holds = some n ∨ ∀ g ∈ s.handlers, g.holds ≠ some n)
    (holding : ∀ req rest, h'.todo = req :: rest → ∀ n, h'.holds = some n →
      Holding s' n h'.client req h'.phase)
    (moded : h'.Moded) (fates : ∀ fate ∈ h'.done, Own s' h'.client fate) (acks : s'.acks = s.acks)
    (groups : s'.groups = s.groups)
    (dispatched : ∀ client n key, (s'.dispatched.filter fun d =>
      Numbered n d.ack ∧ d.ack.client = client ∧ d.key = key).length ≤ 1) : Inv s' := by
  have symm : ∀ g k : Handler, (∀ n, g.holds = some n → k.holds ≠ some n) →
      ∀ n, k.holds = some n → g.holds ≠ some n :=
    fun _ _ apart n uses same => apart n same uses
  -- the handler shares its number with nobody
  have members : ∀ g ∈ s'.handlers, g = h' ∨
      g ∈ s.handlers ∧ ∀ n, g.holds = some n → h.holds ≠ some n := by
    rw [there]
    exact fun g mem => mem_set_apart symm inv.alone at_i mem
  refine ⟨?_, ?_, ?_, ?_, ?_, ?_, groups ▸ inv.groups, dispatched⟩
  · intro n free
    rw [there] at free
    by_cases mine : h.holds = some n
    · exact released n mine (free h' (mem_set_self at_i))
    · exact settled_transfer (inv.rest n (forall_mem_of_set at_i free fun _ => mine))
        (agrees n mine)
  · rw [there]
    apply pairwise_set symm inv.alone at_i
    grind
  · intro g mem req rest todo n uses
    rcases members g mem with rfl | ⟨mem, apart⟩
    · exact holding req rest todo n uses
    · exact (inv.holding g mem req rest todo n uses).transfer (agrees n (apart n uses))
  · grind [moded]
  · intro g mem fate placed
    rcases members g mem with rfl | ⟨mem, -⟩
    · exact fates fate placed
    · exact (inv.fates g mem fate placed).mono grows
  · intro a mem
    rw [acks] at mem
    exact (inv.acks a mem).mono grows

theorem Inv.remove {acks : List Ack} (idle : h.holds = none)
    (acked : ∀ a ∈ acks, Own s a.client (a.request, some a.result)) :
    Inv { s with handlers := s.handlers.eraseIdx i, acks := acks } := by
  have agrees := @Agrees.same s { s with handlers := s.handlers.eraseIdx i, acks := acks } rfl rfl
  refine { inv with
    rest := ?_
    alone := inv.alone.sublist (eraseIdx_sublist ..)
    holding := ?_
    moded := forall_mem_eraseIdx inv.moded
    fates := forall_mem_eraseIdx inv.fates
    acks := acked }
  · intro n free
    have unused := forall_mem_of_eraseIdx at_i free fun uses => holds_elim idle uses
    exact settled_transfer (inv.rest n unused) (agrees n)
  · intro g mem req rest todo n uses
    exact (inv.holding g (mem_of_mem_eraseIdx mem) req rest todo n uses).transfer (agrees n)

theorem Inv.handler {dispatched : List Dispatch}
    (dispatches : ∀ client n key, (dispatched.filter fun d =>
      Numbered n d.ack ∧ d.ack.client = client ∧ d.key = key).length ≤ 1)
    (released : ∀ n, h.holds = some n → h'.holds ≠ some n → Unused s n ∨ ∃ w, Kept s n w)
    (taken : ∀ n, h'.holds = some n → h.holds = some n ∨ ∀ g ∈ s.handlers, g.holds ≠ some n)
    (holding : ∀ req rest, h'.todo = req :: rest → ∀ n, h'.holds = some n →
      Holding s n h'.client req h'.phase)
    (moded : h'.Moded) (fates : ∀ fate ∈ h'.done, Own s h'.client fate) :
    Inv { s with
      counters := counters
      handlers := s.handlers.set i h'
      dispatched := dispatched } := by
  have agrees := @Agrees.same s { s with
    counters := counters
    handlers := s.handlers.set i h'
    dispatched := dispatched } rfl rfl
  apply inv.replace at_i rfl (fun n _ => agrees n) (fun _ mem => mem)
  · grind [settled_transfer]
  · exact taken
  · exact fun req rest todo n uses => (holding req rest todo n uses).transfer (agrees n)
  · exact moded
  · exact fates
  · rfl
  · rfl
  · exact dispatches

theorem Inv.idle (released : ∀ n, h.holds = some n → Unused s n ∨ ∃ w, Kept s n w)
    (idle : h'.holds = none) (moded : h'.Moded) (fates : ∀ fate ∈ h'.done, Own s h'.client fate) :
    Inv { s with counters := counters, handlers := s.handlers.set i h' } := by
  apply inv.handler at_i inv.dispatched
  · exact fun n uses _ => released n uses
  · exact fun n uses => holds_elim idle uses
  · simp [idle]
  · exact moded
  · exact fates

theorem Inv.keep {phase : Phase} (todo : h.todo = req :: rest)
    (mode : req.deliveryMode = exactlyOnce) (working : h.phase.working = true)
    (working' : phase.working = true)
    (there : s'.handlers = s.handlers.set i { h with phase := phase })
    (agrees : ∀ n, n ≠ req.seqNum → Agrees s s' n) (grows : ∀ w ∈ s.written, w ∈ s'.written)
    (holding : Holding s' req.seqNum h.client req phase) (acks : s'.acks = s.acks)
    (groups : s'.groups = s.groups) (dispatched : s'.dispatched = s.dispatched) : Inv s' := by
  have uses := holds_eq todo mode working
  have still : ({ h with phase := phase } : Handler).holds = some req.seqNum :=
    holds_eq todo mode working'
  apply inv.replace at_i there
  · grind
  · exact grows
  · grind
  · grind
  · grind
  · exact moded_of mode todo
  · exact fun fate placed => (inv.fates h (mem_of_getElem? at_i) fate placed).mono grows
  · exact acks
  · exact groups
  · exact dispatched ▸ inv.dispatched

theorem Inv.finish {result : Option PublishResult}
    (there : s'.handlers = s.handlers.set i (h.finish req rest result))
    (agrees : ∀ n, h.holds ≠ some n → Agrees s s' n) (grows : ∀ w ∈ s.written, w ∈ s'.written)
    (released : ∀ n, h.holds = some n → Unused s' n ∨ ∃ w, Kept s' n w)
    (own : Own s' h.client (req, result)) (acks : s'.acks = s.acks)
    (groups : s'.groups = s.groups) (dispatched : s'.dispatched = s.dispatched) : Inv s' := by
  have idle := @holds_finish h req rest result
  apply inv.replace at_i there agrees grows
  · exact fun n uses _ => released n uses
  · exact fun n uses => holds_elim idle uses
  · simp [idle]
  · exact moded_finish result
  · have old := inv.fates h (mem_of_getElem? at_i)
    exact forall_mem_append_singleton (fun fate placed => (old fate placed).mono grows) own
  · exact acks
  · exact groups
  · exact dispatched ▸ inv.dispatched

end

theorem own_none (client : String) : Own s client (req, none) := by
  intro _ result placed
  cases placed

theorem own_kept (kept : Kept s req.seqNum w) (own : w.client = client) :
    Own s client (req, some w.result) := by
  intro _ result placed
  cases placed
  exact ⟨w, kept.mem.1, kept.mem.2, own, rfl⟩

section

variable {part : Int} {routed : Except PublishError (Int × Message)}

theorem holds_routed (todo : h.todo = req :: rest) :
    (h.routed req rest part routed).holds = none := by
  rcases routed_eq req rest part routed with same | ⟨_, _, mode, same⟩ | ⟨_, _, _, same⟩
  · rw [same, holds_finish]
  · rw [same]
    unfold Handler.holds
    simp [todo, mode]
  · rw [same]
    exact holds_none_of_phase rfl

theorem moded_routed (todo : h.todo = req :: rest) : (h.routed req rest part routed).Moded := by
  rcases routed_eq req rest part routed with same | ⟨_, _, _, same⟩ | ⟨_, _, mode, same⟩
  · exact same h ▸ moded_finish none
  · rw [same]
    nofun
  · exact same h ▸ moded_of mode todo

theorem client_routed : (h.routed req rest part routed).client = h.client := by
  rcases routed_eq req rest part routed with same | ⟨_, _, _, same⟩ | ⟨_, _, _, same⟩
  · rw [same]
    rfl
  · rw [same]
  · rw [same]

theorem done_routed (inv : Inv s) (mem : h ∈ s.handlers) :
    ∀ fate ∈ (h.routed req rest part routed).done, Own s h.client fate := by
  rcases routed_eq req rest part routed with same | ⟨_, _, _, same⟩ | ⟨_, _, _, same⟩
  · rw [same]
    exact forall_mem_append_singleton (inv.fates h mem) (own_none h.client)
  · rw [same]
    exact inv.fates h mem
  · rw [same]
    exact inv.fates h mem

end

section

variable {part partID : Int} {msg : Message} {result : PublishResult}
variable (inv : Inv s) (at_i : s.handlers[i]? = some h) (todo : h.todo = req :: rest)

include inv at_i todo

/-- **The lookup** takes up a number that nobody uses. -/
theorem inv_lookup (exclusive : s.Exclusive i) (phase : h.phase = .routed part partID msg) :
    Inv { s with
      handlers := s.handlers.set i { h with
        phase :=
          if (window s.producer req.seqNum).isSome then .found part partID msg
          else .missed part partID msg } } := by
  have mem := mem_of_getElem? at_i
  have mode : req.deliveryMode = exactlyOnce :=
    inv.moded h mem (by rw [phase]; rfl) req (by rw [todo]; rfl)
  obtain ⟨free, own⟩ := exclusive h at_i req (by rw [todo]; rfl)
  have idle : h.holds = none := holds_none_of_phase (by rw [phase]; rfl)
  apply inv.handler at_i inv.dispatched
  · exact fun n uses => holds_elim idle uses
  · grind [holds_phase]
  · intro req' rest' todo' n uses
    obtain rfl := holds_phase todo uses
    have settled : Unused s req.seqNum ∨ ∃ w, Kept s req.seqNum w ∧ w.client = h.client := by
      rcases inv.rest req.seqNum free with unused | ⟨w, kept⟩
      · exact .inl unused
      grind [Kept.mem]
    show Holding s req.seqNum h.client req' (if _ then _ else _)
    split
    · rename_i found
      exact settled.resolve_left fun unused => by simp [unused.window] at found
    · exact settled
  · exact moded_of mode todo
  · exact inv.fates h mem

/-- **The load** returns the result of the record, or finds the number unused. -/
theorem inv_load (mode : req.deliveryMode = exactlyOnce) (working : h.phase.working = true)
    (settled : Unused s req.seqNum ∨ ∃ w, Kept s req.seqNum w ∧ w.client = h.client)
    (loaded : ∀ result, stored s.producer req.seqNum = some result →
      h' = h.finish req rest (some result))
    (missing : Unused s req.seqNum → ∃ part partID msg,
      h' = { h with phase := .writing part partID msg }) :
    Inv { s with handlers := s.handlers.set i h' } := by
  have agrees := @Agrees.same s { s with handlers := s.handlers.set i h' } rfl rfl
  rcases settled with unused | ⟨w, kept, own⟩
  · obtain ⟨part, partID, msg, rfl⟩ := missing unused
    exact inv.keep at_i todo mode working rfl rfl (fun n _ => agrees n) (fun _ mem => mem)
      (unused.transfer (agrees _)) rfl rfl rfl
  · obtain rfl := loaded w.result kept.stored
    have kept := kept.transfer (agrees _)
    refine inv.finish at_i rfl (fun n _ => agrees n) (fun _ mem => mem) ?_ (own_kept kept own) rfl
      rfl rfl
    grind [holds_eq]

omit inv at_i todo in
theorem Agrees.append {last : Ack} (written : s'.written = s.written ++ [last])
    (producer : s'.producer = s.producer) (other : ¬ Numbered n last) : Agrees s s' n := by
  refine ⟨?_, ?_, ?_⟩
  · simp [written, other]
  · rw [producer]
  · rw [producer]
    exact id

/-- **The append** of an exactly-once message is the only one with its number. -/
theorem inv_append {logs : PartitionId → SparseLog Message}
    (phase : h.phase = .writing part partID msg) :
    Inv { s with
      logs := logs
      handlers := s.handlers.set i
        (if req.deliveryMode = exactlyOnce then { h with phase := .appended part result }
        else h.finish req rest (some result))
      written := s.written ++ [⟨h.client, req, result⟩] } := by
  have grows : ∀ w ∈ s.written, w ∈ s.written ++ [(⟨h.client, req, result⟩ : Ack)] :=
    fun w held => mem_append_left _ held
  by_cases mode : req.deliveryMode = exactlyOnce
  · rw [if_pos mode]
    have working : h.phase.working = true := by rw [phase]; rfl
    have unused := inv.holding h (mem_of_getElem? at_i) req rest todo req.seqNum
      (holds_eq todo mode working)
    rw [phase] at unused
    refine inv.keep at_i todo mode working rfl rfl ?_ grows ?_ rfl rfl rfl
    · intro n other
      refine Agrees.append rfl rfl ?_
      rintro ⟨-, same⟩
      exact other same.symm
    · refine ⟨?_, unused.stored, unused.window⟩
      rw [filter_append, unused.none]
      simp [Numbered, mode]
  · rw [if_neg mode]
    have idle : h.holds = none := by
      unfold Handler.holds
      simp [todo, mode]
    refine inv.finish at_i rfl ?_ grows ?_ ?_ rfl rfl rfl
    · exact fun n _ => Agrees.append rfl rfl fun numbered => mode numbered.1
    · simp [idle]
    · exact fun exactly => absurd exactly mode

theorem inv_mark (phase : h.phase = .appended part result) :
    Inv { s with
      producer := mark s.producer req.seqNum result.offset
      handlers := s.handlers.set i { h with phase := .marked part result } } := by
  have mem := mem_of_getElem? at_i
  have mode : req.deliveryMode = exactlyOnce :=
    inv.moded h mem (by rw [phase]; rfl) req (by rw [todo]; rfl)
  have working : h.phase.working = true := by rw [phase]; rfl
  have holding := inv.holding h mem req rest todo req.seqNum (holds_eq todo mode working)
  rw [phase] at holding
  exact inv.keep at_i todo mode working rfl rfl (fun n other => ⟨rfl, rfl, window_mark other⟩)
    (fun _ held => held) ⟨holding.1, holding.2.1⟩ rfl rfl rfl

theorem inv_store (phase : h.phase = .marked part result) :
    Inv { s with
      producer := store s.producer req.seqNum result
      handlers := s.handlers.set i (h.finish req rest (some result)) } := by
  have mem := mem_of_getElem? at_i
  have mode : req.deliveryMode = exactlyOnce :=
    inv.moded h mem (by rw [phase]; rfl) req (by rw [todo]; rfl)
  have uses := holds_eq todo mode (by rw [phase]; rfl)
  have holding := inv.holding h mem req rest todo req.seqNum uses
  rw [phase] at holding
  have kept : Kept { s with
      producer := store s.producer req.seqNum result
      handlers := s.handlers.set i (h.finish req rest (some result)) } req.seqNum
      ⟨h.client, req, result⟩ := by
    refine ⟨holding.1, ?_⟩
    show stored (store s.producer req.seqNum result) req.seqNum = some result
    rw [stored_store, if_pos rfl]
  refine inv.finish at_i rfl ?_ (fun _ held => held) ?_ (own_kept kept rfl) rfl rfl rfl
  · intro n free
    refine ⟨rfl, ?_, id⟩
    show stored (store s.producer req.seqNum result) n = _
    rw [stored_store, if_neg]
    rintro rfl
    exact free uses
  · grind

omit todo in
theorem inv_early (early : h.phase.working = false) (idle : h'.holds = none) (moded : h'.Moded)
    (client : h'.client = h.client) (fates : ∀ fate ∈ h'.done, Own s h.client fate) :
    Inv { s with counters := counters, handlers := s.handlers.set i h' } := by
  apply inv.idle at_i
  · exact fun n uses => holds_elim (holds_none_of_phase early) uses
  · exact idle
  · exact moded
  · rw [client]
    exact fates

theorem inv_move (move : Move compress s i h req rest e s')
    (orderly : ∀ k, e = .lookup k → s.Exclusive i) : Inv s' := by
  have mem := mem_of_getElem? at_i
  have moded : h.phase.deduped = true → req.deliveryMode = exactlyOnce :=
    fun deduped => inv.moded h mem deduped req (by rw [todo]; rfl)
  cases move with
  | refuse early _ => exact inv.remove at_i (holds_none_of_phase early) inv.acks
  | assign phase | lock phase _ =>
    exact inv_early inv at_i (by rw [phase]; rfl) (holds_none_of_phase rfl) nofun rfl
      (inv.fates h mem)
  | route phase =>
    exact inv_early inv at_i (by rw [phase]; rfl) (holds_routed todo) (moded_routed todo)
      client_routed (done_routed inv mem)
  | lookup phase => exact inv_lookup inv at_i todo (orderly _ rfl) phase
  | loadFound phase =>
    have mode := moded (by rw [phase]; rfl)
    have working : h.phase.working = true := by rw [phase]; rfl
    have holding := inv.holding h mem req rest todo _ (holds_eq todo mode working)
    rw [phase] at holding
    obtain ⟨w, kept, own⟩ := holding
    apply inv_load inv at_i todo mode working (.inr ⟨w, kept, own⟩)
    · intro result loaded
      rw [loaded]
    · intro unused
      cases unused.stored.symm.trans kept.stored
  | loadMissed phase =>
    have mode := moded (by rw [phase]; rfl)
    have working : h.phase.working = true := by rw [phase]; rfl
    have holding := inv.holding h mem req rest todo _ (holds_eq todo mode working)
    rw [phase] at holding
    apply inv_load inv at_i todo mode working holding
    · intro result loaded
      rw [loaded]
    · intro unused
      rw [unused.stored]
      exact ⟨_, _, _, rfl⟩
  | again phase =>
    -- the result of a record found in the window is still stored
    have mode := moded (by rw [phase]; rfl)
    have holding := inv.holding h mem req rest todo _
      (holds_eq todo mode (by rw [phase]; rfl))
    rw [phase] at holding
    exact holding.elim
  | append phase _ _ => exact inv_append inv at_i todo phase
  | fail phase =>
    refine inv.finish at_i rfl (fun n _ => ⟨rfl, rfl, id⟩) (fun _ held => held) ?_
      (own_none h.client) rfl rfl rfl
    intro n uses
    have holding := inv.holding h mem req rest todo n uses
    rw [phase] at holding
    exact .inl ⟨holding.none, holding.stored, holding.window⟩
  | mark phase => exact inv_mark inv at_i todo phase
  | store phase => exact inv_store inv at_i todo phase

end

/-! ## Replies -/

theorem dispatch_once {ack : Ack} (distinct : s.groups.Nodup) (key : GroupKey) :
    ((s.dispatch ack).filter fun d => d.key = key).length ≤ 1 := by
  unfold Broker.dispatch
  rw [filter_map, length_map, filter_filter, ← countP_eq_length_filter]
  calc
    _ ≤ s.groups.count key := by
      apply countP_mono_left
      grind
    _ ≤ 1 := nodup_iff_count_le_one.mp distinct key

theorem dispatch_ack {ack : Ack} {d : Dispatch} (mem : d ∈ s.dispatch ack) :
    d.ack = ack ∧ d.key ∈ s.groups ∧ d.key.topic = ack.request.topic := by
  obtain ⟨key, held, rfl⟩ := mem_map.mp mem
  obtain ⟨held, topic⟩ := mem_filter.mp held
  exact ⟨rfl, held, of_decide_eq_true topic⟩

theorem dispatched_once {ack : Ack} (inv : Inv s)
    (fresh : ack.request.deliveryMode = exactlyOnce →
      ∀ d ∈ s.dispatched, Numbered ack.request.seqNum d.ack → d.ack.client = ack.client →
        ∀ key ∈ s.groups, key.topic ≠ ack.request.topic) (client : String) (n : Nat)
    (key : GroupKey) :
    ((s.dispatched ++ s.dispatch ack).filter fun d =>
      Numbered n d.ack ∧ d.ack.client = client ∧ d.key = key).length ≤ 1 := by
  rw [filter_append, length_append]
  by_cases repeated : ∃ d ∈ s.dispatched, Numbered n d.ack ∧ d.ack.client = client ∧ d.key = key
  · have nothing : (s.dispatch ack).filter (fun d =>
        Numbered n d.ack ∧ d.ack.client = client ∧ d.key = key) = [] := by
      rw [filter_eq_nil_iff]
      intro d mem same
      obtain ⟨rfl, held, topic⟩ := dispatch_ack mem
      obtain ⟨⟨mode, number⟩, owner, -⟩ := of_decide_eq_true same
      obtain ⟨old, memOld, numbered, owned, -⟩ := repeated
      exact fresh mode old memOld (number ▸ numbered) (owned.trans owner.symm) d.key held topic
    rw [nothing]
    exact inv.dispatched client n key
  · have nothing : s.dispatched.filter (fun d =>
        Numbered n d.ack ∧ d.ack.client = client ∧ d.key = key) = [] := by
      rw [filter_eq_nil_iff]
      exact fun d mem same => repeated ⟨d, mem, of_decide_eq_true same⟩
    rw [nothing, length_nil, Nat.zero_add]
    calc
      _ ≤ ((s.dispatch ack).filter fun d => d.key = key).length := by
        rw [← countP_eq_length_filter, ← countP_eq_length_filter]
        simp [countP_mono_left]
      _ ≤ 1 := dispatch_once inv.groups key

theorem own_acks (inv : Inv s) (mem : h ∈ s.handlers) :
    ∀ a ∈ h.acks, Own s a.client (a.request, some a.result) := by
  intro a placed
  obtain ⟨claim, listed, rfl⟩ := mem_map.mp placed
  obtain ⟨fate, done, result⟩ := mem_filterMap.mp listed
  obtain ⟨res, some_res, rfl⟩ := Option.map_eq_some_iff.mp result
  have own := inv.fates h mem fate done
  intro mode r same
  cases same
  exact own mode res some_res

/-- **A step behind the last message.** -/
theorem inv_reply (inv : Inv s) (at_i : s.handlers[i]? = some h) (todo : h.todo = [])
    (taken : replyStep s i h e = some s') (orderly : ∀ k, e = .dispatch k → s.Unheard i) :
    Inv s' := by
  have mem := mem_of_getElem? at_i
  have idle : h.holds = none := by
    unfold Handler.holds
    rw [todo]
  revert taken
  fun_cases replyStep s i h e with
  | case2 k ack next =>
    rintro ⟨⟩
    have idle' : ({ h with sent := h.sent + 1 } : Handler).holds = none := idle
    apply inv.handler at_i (dispatched_once inv (orderly k rfl h at_i ack next))
    · exact fun n uses => holds_elim idle uses
    · grind
    · simp [idle']
    · exact inv.moded h mem
    · exact inv.fates h mem
  | case3 =>
    rintro ⟨⟩
    exact inv.remove at_i idle inv.acks
  | case5 =>
    rintro ⟨⟩
    exact inv.remove at_i idle (forall_mem_append.mpr ⟨inv.acks, own_acks inv mem⟩)
  | _ => rintro ⟨⟩

theorem inv_arrive (inv : Inv s) (idle : h.holds = none) (moded : h.Moded) (fresh : h.done = []) :
    Inv { s with handlers := s.handlers ++ [h] } := by
  have members : ∀ g ∈ s.handlers ++ [h], g ∈ s.handlers ∨ g = h := by simp
  have agrees := @Agrees.same s { s with handlers := s.handlers ++ [h] } rfl rfl
  refine { inv with rest := ?_, alone := ?_, holding := ?_, moded := ?_, fates := ?_ }
  · intro n free
    have settled := inv.rest n fun g mem => free g (mem_append_left _ mem)
    exact settled_transfer settled (agrees n)
  · grind [Inv.alone]
  · intro g mem req rest todo n uses
    cases members g mem with
    | inl old => exact (inv.holding g old req rest todo n uses).transfer (agrees n)
    | inr new => grind
  · grind [Inv.moded]
  · intro g mem fate placed
    cases members g mem with
    | inl old => exact inv.fates g old fate placed
    | inr new => grind

theorem Inv.outer {topics : Topics} {groups : List GroupKey} (inv : Inv s)
    (distinct : groups.Nodup) : Inv { s with topics := topics, groups := groups } := by
  have agrees := @Agrees.same s { s with topics := topics, groups := groups } rfl rfl
  refine { inv with rest := ?_, holding := ?_, groups := distinct }
  · exact fun n free => settled_transfer (inv.rest n free) (agrees n)
  · intro g mem req rest todo n uses
    exact (inv.holding g mem req rest todo n uses).transfer (agrees n)

theorem inv_step (inv : Inv s) (orderly : Orderly s e) (taken : step compress s e = some s') :
    Inv s' := by
  revert taken
  fun_cases step compress s e with
  | case1 | case3 | case5 | case7 | case8 =>
    rintro ⟨⟩
    exact inv
  | case2 name cfg new =>
    rintro ⟨⟩
    exact inv.outer inv.groups
  | case4 key new =>
    rintro ⟨⟩
    exact inv.outer (nodup_append.mpr ⟨inv.groups, nodup_singleton key, by grind⟩)
  | case6 | case9 =>
    rintro ⟨⟩
    exact inv_arrive inv (holds_none_of_phase rfl) nofun rfl
  | case12 e _ _ _ _ i actor h at_i req rest todo =>
    intro taken
    apply inv_move inv at_i todo (messageStep_move taken)
    rintro k rfl
    cases actor
    exact orderly
  | case13 e _ _ _ _ i actor h at_i todo =>
    intro taken
    apply inv_reply inv at_i todo taken
    rintro k rfl
    cases actor
    exact orderly
  | _ => rintro ⟨⟩

theorem window_new {producerID : String} {size : Int} {results : String × Nat → Option PublishResult}
    (n : Nat) : window ⟨producerID, newDedupWindow size, results⟩ n = none := by
  unfold window newDedupWindow DedupWindow.lookupOffset
  split
  · rfl
  · rfl

theorem inv_boot {topics : Topics} {logs : PartitionId → SparseLog Message} {producerID : String}
    {dedupWindow : Int} {groups : List GroupKey} (distinct : groups.Nodup) :
    Inv (boot topics logs counters producerID dedupWindow groups) where
  rest := fun n _ => .inl ⟨rfl, rfl, window_new n⟩
  alone := Pairwise.nil
  holding := by simp [boot]
  moded := by simp [boot]
  fates := by simp [boot]
  acks := by simp [boot]
  groups := distinct
  dispatched := fun _ _ _ => Nat.zero_le 1

/-! ## At most once -/

theorem Inv.once (inv : Inv s) (n : Nat) : (s.written.filter (Numbered n ·)).length ≤ 1 := by
  by_cases free : ∀ h ∈ s.handlers, h.holds ≠ some n
  · cases inv.rest n free with
    | inl unused => simp [unused.none]
    | inr held =>
      obtain ⟨w, kept⟩ := held
      simp [kept.only]
  · push Not at free
    obtain ⟨h, mem, uses⟩ := free
    cases todo : h.todo with
    | nil => grind [Handler.holds]
    | cons req rest =>
      obtain ⟨-, -, working⟩ := holds_some todo uses
      have holding := inv.holding h mem req rest todo n uses
      cases phase : h.phase with
      | found part partID msg =>
        rw [phase] at holding
        obtain ⟨w, kept, -⟩ := holding
        simp [kept.only]
      | missed part partID msg =>
        rw [phase] at holding
        cases holding with
        | inl unused => simp [unused.none]
        | inr held =>
          obtain ⟨w, kept, -⟩ := held
          simp [kept.only]
      | evicted part partID =>
        rw [phase] at holding
        exact holding.elim
      | writing part partID msg =>
        rw [phase] at holding
        simp [holding.none]
      | appended part result | marked part result =>
        rw [phase] at holding
        simp [holding.1]
      | _ =>
        rw [phase] at working
        cases working

theorem Inv.idempotent (inv : Inv s) : Idempotent s where
  once := by
    intro client seqNum
    calc
      _ ≤ (s.written.filter (Numbered seqNum ·)).length := by
        rw [← countP_eq_length_filter, ← countP_eq_length_filter]
        apply countP_mono_left
        grind
      _ ≤ 1 := inv.once seqNum
  replies := by
    intro a mem mode
    obtain ⟨w, held, numbered, own, same⟩ := inv.acks a mem mode a.result rfl
    grind
  dispatches := inv.dispatched

/-- **Exactly-once publishes are idempotent** in every run in which a number is looked
up only when no other handler uses it and no other client has used it, and a message
is not dispatched again to a topic with groups. -/
theorem publish_idempotent {topics : Topics} {logs : PartitionId → SparseLog Message}
    {counters : Counters} {producerID : String} {dedupWindow : Int} {groups : List GroupKey}
    (distinct : groups.Nodup)
    (reached : Reaches (step compress) Orderly
      (boot topics logs counters producerID dedupWindow groups) s) : Idempotent s := by
  apply Inv.idempotent
  induction reached with
  | init => exact inv_boot distinct
  | step _ orderly taken ih => exact inv_step ih orderly taken

end

/-! ## Runs -/

section Samples

instance (s : Broker) : DecidablePred (Orderly s) := by
  rintro (_ | _) <;> unfold Orderly <;> infer_instance

/-- A keyless exactly-once request to topic `t`. -/
def sampleRequest (seqNum : Nat) : PublishRequest := ⟨"t", [], [1], [], exactlyOnce, seqNum, 0, none⟩

/-- A broker with topic `t`. -/
def sampleBoot (partitions : Nat) (positive : 0 < partitions) (groups : List GroupKey) : Broker :=
  boot (Function.update (fun _ => none) "t" (some ⟨partitions, 0, positive⟩))
    (fun _ => SparseLog.empty) (fun _ => 0) "p" 8 groups

def samplePack : UInt8 → Bytes → Option Bytes := fun _ payload => some payload

/-- Handler `i` up to the lookup, and from the append to the reply. -/
def sampleLookup (i : Nat) : List Event :=
  [.assign i, .lock i, .route i ⟨"m", 0⟩, .lookup i, .load i]

def sampleStore (i : Nat) : List Event :=
  [.append i, .mark i, .store i, .dispatch i, .reply i]

/-- What a run leaves of the requests with number 5: how many records each of the
clients `c` and `d` has, the replies, and how often group `g` got `c`'s message. -/
structure Outcome where
  records : Nat × Nat
  replies : List (String × Int × Int)
  dispatches : Nat
deriving DecidableEq

def Broker.outcome (s : Broker) : Outcome where
  records := ((s.written.filter fun w => Numbered 5 w ∧ w.client = "c").length,
    (s.written.filter fun w => Numbered 5 w ∧ w.client = "d").length)
  replies := (s.acks.filter (Numbered 5 ·)).map fun a =>
    (a.client, a.result.partition, a.result.offset)
  dispatches := (s.dispatched.filter fun d =>
    Numbered 5 d.ack ∧ d.ack.client = "c" ∧ d.key = ⟨"g", "t"⟩).length

/-- A message, its repeat, and another message while a group is there. -/
def sampleOrderly : List Event :=
  [[.publish "c" (sampleRequest 5)], sampleLookup 0, sampleStore 0,
    [.publish "c" (sampleRequest 5)], sampleLookup 0, [.dispatch 0, .reply 0],
    [.subscribe ⟨"g", "t"⟩, .publish "c" (sampleRequest 6)], sampleLookup 0, sampleStore 0].flatten

theorem publish_idempotent_sample : ∃ s,
    Reaches (step samplePack) Orderly (sampleBoot 2 (by decide) []) s ∧
    s.outcome = ⟨(1, 0), [("c", 1, 0), ("c", 1, 0)], 0⟩ ∧ s.dispatched.length = 1 ∧
    Idempotent s :=
  Reaches.exists_run_of (P := fun s => s.outcome = ⟨(1, 0), [("c", 1, 0), ("c", 1, 0)], 0⟩ ∧
    s.dispatched.length = 1) sampleOrderly (by decide +kernel) fun _ reached shown =>
      ⟨shown.1, shown.2, publish_idempotent nodup_nil reached⟩

/-- Two handlers with one number, told different partitions. -/
def sampleRace : List Event :=
  [[.publish "c" (sampleRequest 5), .publish "c" (sampleRequest 5), .assign 0, .assign 1, .lock 0,
    .lock 1, .route 0 ⟨"m", 0⟩, .route 1 ⟨"n", 0⟩, .lookup 0, .lookup 1, .load 0, .load 1],
    sampleStore 0, sampleStore 0].flatten

/-- A repeat between the mark and the store. -/
def sampleGap : List Event :=
  [[.publish "c" (sampleRequest 5), .publish "c" (sampleRequest 5), .assign 0, .assign 1, .lock 0,
    .lock 1, .route 0 ⟨"m", 0⟩, .route 1 ⟨"n", 0⟩, .lookup 0, .load 0, .append 0, .mark 0,
    .lookup 1, .load 1, .again 1, .store 0, .dispatch 0, .reply 0, .dispatch 0, .reply 0]].flatten

/-- A repeat behind the reply. -/
def sampleRepeat : List Event :=
  [[.publish "c" (sampleRequest 5)], sampleLookup 0, sampleStore 0,
    [.publish "c" (sampleRequest 5)], sampleLookup 0, [.dispatch 0, .reply 0]].flatten

/-- The same number from another client. -/
def sampleOther : List Event :=
  [[.publish "c" (sampleRequest 5)], sampleLookup 0, sampleStore 0,
    [.publish "d" (sampleRequest 5)], sampleLookup 0, [.dispatch 0, .reply 0]].flatten

/-- A run without conditions, of a topic with two partitions. -/
def sampleRun (groups : List GroupKey) (events : List Event) : Option Broker :=
  runAll (step samplePack) (fun _ _ => True) (sampleBoot 2 (by decide) groups) events

theorem sampleRun_reaches {groups : List GroupKey} {events : List Event} {outcome : Outcome}
    (ran : (sampleRun groups events).map Broker.outcome = some outcome) : ∃ s,
    Reaches (step samplePack) (fun _ _ => True) (sampleBoot 2 (by decide) groups) s ∧
      s.outcome = outcome := by
  obtain ⟨s, ran, same⟩ := Option.map_eq_some_iff.mp ran
  exact ⟨s, Reaches.init.run ran, same⟩

variable {s : Broker}

theorem not_idempotent_of_records (twice : s.outcome.records.1 = 2) : ¬ Idempotent s := by
  intro holds
  have once := holds.once "c" 5
  have : (s.written.filter fun w => Numbered 5 w ∧ w.client = "c").length = 2 := twice
  omega

theorem not_idempotent_of_dispatches (twice : s.outcome.dispatches = 2) : ¬ Idempotent s := by
  intro holds
  have once := holds.dispatches "c" 5 ⟨"g", "t"⟩
  have : (s.dispatched.filter fun d =>
    Numbered 5 d.ack ∧ d.ack.client = "c" ∧ d.key = ⟨"g", "t"⟩).length = 2 := twice
  omega

theorem Idempotent.named (holds : Idempotent s) {client : String} {part off : Int}
    (mem : (client, part, off) ∈ s.outcome.replies) :
    ∃ w ∈ s.written.filter fun w => Numbered 5 w ∧ w.client = client, w.result.partition = part := by
  obtain ⟨a, listed, same⟩ := mem_map.mp mem
  obtain ⟨listed, numbered⟩ := mem_filter.mp listed
  obtain ⟨mode, number⟩ := of_decide_eq_true numbered
  obtain ⟨w, held, same', owner, part, -⟩ := holds.replies a listed mode
  cases same
  exact ⟨w, mem_filter.mpr ⟨held, decide_eq_true ⟨number ▸ same', owner⟩⟩, part⟩

theorem not_idempotent_of_partitions (replies : s.outcome.replies = [("c", 0, 0), ("c", 1, 0)]) :
    ¬ Idempotent s := by
  intro holds
  have first : ("c", 0, 0) ∈ s.outcome.replies := by simp [replies]
  have second : ("c", 1, 0) ∈ s.outcome.replies := by simp [replies]
  obtain ⟨v, memV, partV⟩ := holds.named first
  obtain ⟨w, memW, partW⟩ := holds.named second
  obtain ⟨x, only⟩ := length_eq_one_iff.mp
    (Nat.le_antisymm (holds.once "c" 5) (length_pos_of_mem memV))
  rw [only, mem_singleton] at memV memW
  rw [memV] at partV
  rw [memW, partV] at partW
  exact absurd partW (by decide)

theorem not_idempotent_of_absent (absent : s.outcome.records.2 = 0)
    (replied : ("d", 1, 0) ∈ s.outcome.replies) : ¬ Idempotent s := by
  intro holds
  obtain ⟨w, mem, -⟩ := holds.named replied
  exact absurd (length_pos_of_mem mem) (by
    show ¬ 0 < s.outcome.records.2
    omega)

/-- **What the conditions exclude.**  Two handlers with one number append a record
each.  A repeat between the mark and the store is told the partition it was itself
assigned.  A repeat behind the reply is dispatched a second time.  A client whose
number another client has used gets no record, and a reply about the other's. -/
theorem publish_repeated :
    (∃ s, Reaches (step samplePack) (fun _ _ => True) (sampleBoot 2 (by decide) []) s ∧
      s.outcome = ⟨(2, 0), [("c", 0, 0), ("c", 1, 0)], 0⟩ ∧ ¬ Idempotent s) ∧
    (∃ s, Reaches (step samplePack) (fun _ _ => True) (sampleBoot 2 (by decide) []) s ∧
      s.outcome = ⟨(1, 0), [("c", 0, 0), ("c", 1, 0)], 0⟩ ∧ ¬ Idempotent s) ∧
    (∃ s, Reaches (step samplePack) (fun _ _ => True) (sampleBoot 2 (by decide) [⟨"g", "t"⟩]) s ∧
      s.outcome = ⟨(1, 0), [("c", 1, 0), ("c", 1, 0)], 2⟩ ∧ ¬ Idempotent s) ∧
    ∃ s, Reaches (step samplePack) (fun _ _ => True) (sampleBoot 2 (by decide) []) s ∧
      s.outcome = ⟨(1, 0), [("c", 1, 0), ("d", 1, 0)], 0⟩ ∧ ¬ Idempotent s := by
  have race : (sampleRun [] sampleRace).map Broker.outcome =
    some ⟨(2, 0), [("c", 0, 0), ("c", 1, 0)], 0⟩ := by decide +kernel
  have gap : (sampleRun [] sampleGap).map Broker.outcome =
    some ⟨(1, 0), [("c", 0, 0), ("c", 1, 0)], 0⟩ := by decide +kernel
  have again : (sampleRun [⟨"g", "t"⟩] sampleRepeat).map Broker.outcome =
    some ⟨(1, 0), [("c", 1, 0), ("c", 1, 0)], 2⟩ := by decide +kernel
  have other : (sampleRun [] sampleOther).map Broker.outcome =
    some ⟨(1, 0), [("c", 1, 0), ("d", 1, 0)], 0⟩ := by decide +kernel
  refine ⟨?_, ?_, ?_, ?_⟩
  · grind [sampleRun_reaches, not_idempotent_of_records]
  · grind [sampleRun_reaches, not_idempotent_of_partitions]
  · grind [sampleRun_reaches, not_idempotent_of_dispatches]
  · grind [sampleRun_reaches, not_idempotent_of_absent]

end Samples

end PubsubBroker.Publish.ExactlyOnce
