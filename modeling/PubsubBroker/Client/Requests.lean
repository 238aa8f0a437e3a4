/-
# Client.Requests — matching responses with calls in the Go SDK

`sendRecv`, `readLoop`, `route` and `failAll` in `pkg/client/client.go`.  A call takes a
request id, makes a channel of one slot, puts it into `pending` under the id, writes the
request and waits for the slot, for its context or for the close of the client.  The read
loop takes the channel of an arriving frame out of `pending` and then sends without the
lock; when the connection fails it takes all of them and sends `nil` to each.

Whoever is to be sent to is thereby taken out of the map first, so no channel is the
target of two sends (`Inv.distinct`) and every send finds its slot empty.  Ids may wrap.

Push frames go to `routePush` and are left out here (`Client.Subscribe`), as are the texts
of errors: a call returns a frame, possibly one with the broker's error, or none.
-/
import Mathlib.Data.List.Nodup
import PubsubBroker.Protocol.Frame
import PubsubBroker.Theory.Transition

namespace PubsubBroker.Client.Requests

open Theory List Function
open Protocol (Frame)

def cmdPush : UInt8 := 0x20

/-- Where a call of `sendRecv` is. -/
inductive Phase where
  | idle
  /-- `closed` was not set. -/
  | checked
  | numbered
  /-- The channel is in `pending`; the request is being written. -/
  | registered
  | waiting
  /-- Cancelled, or the write has failed; the id is still to be deleted. -/
  | leaving
  | returned (answer : Option Frame)
deriving DecidableEq

structure Call where
  id : UInt64
  phase : Phase
  /-- The slot of the channel. -/
  box : Option (Option Frame)

inductive Loop where
  | reading
  /-- `route` has a frame for a call, the `n`-th that arrived. -/
  | sending (n k : Nat) (f : Frame)
  /-- The loop is over but for the channels that `failAll` has to send to. -/
  | ended (ks : List Nat)
deriving DecidableEq

structure State where
  calls : Nat → Call
  nextReq : UInt64
  pending : List (UInt64 × Nat)
  loop : Loop
  closed : Bool
  arrived : Nat
  /-- Which frame went to which call, by the number of its arrival. -/
  deliveries : List (Nat × Nat × Frame)

def State.init : State := ⟨fun _ => ⟨0, .idle, none⟩, 0, [], .reading, false, 0, []⟩

inductive Event where
  | enter (k : Nat)
  | number (k : Nat)
  | register (k : Nat)
  | write (k : Nat) (ok : Bool)
  | cancel (k : Nat)
  | forget (k : Nat)
  | receive (k : Nat)
  /-- The wait ends with the close of the client. -/
  | notice (k : Nat)
  | arrive (f : Frame)
  | send
  /-- The connection fails. -/
  | drop
  | fail (k : Nat)
  | close

def State.set (s : State) (k : Nat) (c : Call) : State := { s with calls := update s.calls k c }

def State.delete (s : State) (id : UInt64) : List (UInt64 × Nat) := s.pending.filter (·.1 ≠ id)

/-- A step of the `k`-th call, if it is at the phase. -/
def State.at (s : State) (k : Nat) (phase : Phase) (next : Call → Option State) : Option State :=
  if (s.calls k).phase = phase then next (s.calls k) else none

def step (s : State) : Event → Option State
  | .enter k => s.at k .idle fun c =>
    some (s.set k { c with phase := if s.closed then .returned none else .checked })
  | .number k => s.at k .checked fun c =>
    some { s.set k { c with id := s.nextReq + 1, phase := .numbered } with nextReq := s.nextReq + 1 }
  | .register k => s.at k .numbered fun c =>
    some { s.set k { c with phase := .registered } with pending := (c.id, k) :: s.delete c.id }
  | .write k ok => s.at k .registered fun c =>
    some (s.set k { c with phase := if ok then .waiting else .leaving })
  | .cancel k => s.at k .waiting fun c => some (s.set k { c with phase := .leaving })
  | .forget k => s.at k .leaving fun c =>
    some { s.set k { c with phase := .returned none } with pending := s.delete c.id }
  | .receive k => s.at k .waiting fun c =>
    c.box.map fun answer => s.set k { c with phase := .returned answer, box := none }
  | .notice k => s.at k .waiting fun c =>
    if s.closed then some (s.set k { c with phase := .returned none }) else none
  | .arrive f =>
    match s.loop with
    | .reading =>
      let s := { s with arrived := s.arrived + 1 }
      if f.command = cmdPush then some s
      else
        match s.pending.find? (·.1 = f.requestID) with
        | none => some s
        | some (id, k) =>
          some { s with pending := s.delete id, loop := .sending (s.arrived - 1) k f }
    | _ => none
  | .send =>
    match s.loop with
    | .sending n k f =>
      if (s.calls k).box = none then
        some { s.set k { s.calls k with box := some (some f) } with
          loop := .reading
          deliveries := s.deliveries ++ [(n, k, f)] }
      else none
    | _ => none
  | .drop =>
    match s.loop with
    | .reading =>
      if s.closed then some { s with loop := .ended [] }
      else some { s with loop := .ended (s.pending.map Prod.snd), pending := [] }
    | _ => none
  | .fail k =>
    match s.loop with
    | .ended ks =>
      if k ∈ ks then
        some { s.set k { s.calls k with box := (s.calls k).box.or (some none) } with
          loop := .ended (ks.erase k) }
      else none
    | _ => none
  | .close => some { s with closed := true }

/-! ## The invariant -/

/-- The call has put its channel into `pending`. -/
def Phase.past : Phase → Bool
  | .registered | .waiting | .leaving => true
  | .returned _ => true
  | _ => false

def Call.got (c : Call) (f : Frame) : Prop := c.box = some (some f) ∨ c.phase = .returned (some f)

def Loop.targets : Loop → List Nat
  | .reading => []
  | .sending _ k _ => [k]
  | .ended ks => ks

/-- The calls that will be sent to. -/
def State.targets (s : State) : List Nat := s.pending.map Prod.snd ++ s.loop.targets

structure Inv (s : State) : Prop where
  distinct : s.targets.Nodup
  ready : ∀ k ∈ s.targets, (s.calls k).box = none ∧ (s.calls k).phase.past = true
  fresh : ∀ k, (s.calls k).phase.past = false → (s.calls k).box = none
  keys : ∀ e ∈ s.pending, (s.calls e.2).id = e.1
  sending : ∀ n k f, s.loop = .sending n k f →
    (s.calls k).id = f.requestID ∧ n < s.arrived ∧ ∀ d ∈ s.deliveries, d.1 < n
  given : ∀ d ∈ s.deliveries, d.1 < s.arrived ∧ (s.calls d.2.1).id = d.2.2.requestID ∧
    (s.calls d.2.1).phase.past = true
  order : s.deliveries.Pairwise fun d d' => d.1 < d'.1
  got : ∀ k f, (s.calls k).got f → ∃ n, (n, k, f) ∈ s.deliveries

section

variable {s t : State} {k : Nat} {c : Call}

/-- **A step of one call** that keeps its id behind the registration, leaves its slot empty
while it is to be sent to, and has only frames that were given to it. -/
theorem Inv.set (inv : Inv s)
    (old : (s.calls k).phase.past = true → c.id = (s.calls k).id ∧ c.phase.past = true)
    (box : k ∈ s.targets → c.box = none) (fresh : c.phase.past = false → c.box = none)
    (got : ∀ f, c.got f → ∃ n, (n, k, f) ∈ s.deliveries) : Inv (s.set k c) := by
  have kept : ∀ j, (s.calls j).phase.past = true → ((s.set k c).calls j).id = (s.calls j).id ∧
      ((s.set k c).calls j).phase.past = true := by
    intro j past
    by_cases same : j = k
    · subst same
      simpa [State.set] using old past
    · simp [State.set, same, past]
  refine ⟨inv.distinct, fun j mem => ⟨?_, (kept j (inv.ready j mem).2).2⟩, fun j => ?_,
    fun e mem => ?_, fun n j f here => ?_, fun d mem => ?_, inv.order, fun j f new => ?_⟩
  · by_cases same : j = k
    · subst same
      simpa [State.set] using box mem
    · simpa [State.set, same] using (inv.ready j mem).1
  · by_cases same : j = k
    · subst same
      simpa [State.set] using fresh
    · simpa [State.set, same] using inv.fresh j
  · have past := (inv.ready e.2 (mem_append_left _ (mem_map_of_mem mem))).2
    exact (kept e.2 past).1.trans (inv.keys e mem)
  · obtain ⟨id, rest⟩ := inv.sending n j f here
    have here : s.loop = _ := here
    have past := (inv.ready j (mem_append_right _ (by simp [here, Loop.targets]))).2
    exact ⟨(kept j past).1.trans id, rest⟩
  · obtain ⟨early, id, past⟩ := inv.given d mem
    exact ⟨early, (kept _ past).1.trans id, (kept _ past).2⟩
  · by_cases same : j = k
    · subst same
      exact got f (by simpa [State.set] using new)
    · exact inv.got j f (by simpa [State.set, same] using new)

theorem Inv.move {phase : Phase} (inv : Inv s)
    (later : (s.calls k).phase.past = true → phase.past = true)
    (unanswered : ∀ f, phase ≠ .returned (some f)) :
    Inv (s.set k { s.calls k with phase := phase }) := by
  refine inv.set (fun past => ⟨rfl, later past⟩) (fun mem => (inv.ready k mem).1)
    (fun early => inv.fresh k ?_) fun f got => inv.got k f (.inl (got.resolve_right (unanswered f)))
  by_contra past
  rw [later (by simpa using past)] at early
  cases early

/-- Fewer targets. -/
theorem Inv.retarget {pending : List (UInt64 × Nat)} {loop : Loop} (inv : Inv s)
    (fewer : (pending.map Prod.snd ++ loop.targets).Nodup)
    (from_old : ∀ j ∈ pending.map Prod.snd ++ loop.targets, j ∈ s.targets)
    (keys : ∀ e ∈ pending, e ∈ s.pending)
    (sending : ∀ n k f, loop = .sending n k f →
      (s.calls k).id = f.requestID ∧ n < s.arrived ∧ ∀ d ∈ s.deliveries, d.1 < n) :
    Inv { s with pending := pending, loop := loop } :=
  ⟨fewer, fun j mem => inv.ready j (from_old j mem), inv.fresh, fun e mem => inv.keys e (keys e mem), sending,
    inv.given, inv.order, inv.got⟩

theorem at_eq {phase : Phase} {next : Call → Option State} (taken : s.at k phase next = some t) :
    (s.calls k).phase = phase ∧ next (s.calls k) = some t := by
  unfold State.at at taken
  split at taken
  · exact ⟨by assumption, taken⟩
  · cases taken

theorem delete_sublist (id : UInt64) : s.delete id <+ s.pending := filter_sublist

theorem inv_delete (inv : Inv s) (id : UInt64) : Inv { s with pending := s.delete id } := by
  have sub := ((delete_sublist (s := s) id).map Prod.snd).append_right s.loop.targets
  exact inv.retarget (inv.distinct.sublist sub) (fun j mem => sub.subset mem)
    (fun e mem => (delete_sublist id).subset mem) inv.sending

theorem inv_register (inv : Inv s) (here : (s.calls k).phase = .numbered) :
    Inv { s.set k { s.calls k with phase := .registered } with
      pending := ((s.calls k).id, k) :: s.delete (s.calls k).id } := by
  have empty := inv.fresh k (by rw [here]; rfl)
  have new : k ∉ s.targets := fun mem => by simpa [here, Phase.past] using (inv.ready k mem).2
  have less := inv_delete inv (s.calls k).id
  have set := less.set (k := k) (c := { s.calls k with phase := .registered })
    (by simp [here, Phase.past]) (fun _ => empty) (fun _ => empty) (by simp [Call.got, empty])
  refine { set with distinct := ?_, ready := ?_, keys := ?_ }
  · refine nodup_cons.mpr ⟨fun mem => new ?_, less.distinct⟩
    exact (((delete_sublist (s := s) _).map Prod.snd).append_right _).subset mem
  · intro j mem
    rcases mem_cons.mp mem with rfl | old
    · simp [State.set, empty, Phase.past]
    · exact set.ready j old
  · intro e mem
    rcases mem_cons.mp mem with rfl | old
    · simp [State.set]
    · exact set.keys e old

theorem inv_arrive (inv : Inv s) (reading : s.loop = .reading) :
    Inv { s with arrived := s.arrived + 1 } := by
  refine { inv with sending := by simp [reading], given := fun d held => ?_ }
  exact ⟨Nat.lt_succ_of_lt (inv.given d held).1, (inv.given d held).2⟩

/-- **A frame for a call** takes the call out of `pending`. -/
theorem inv_route {f : Frame} {id : UInt64} (inv : Inv s) (reading : s.loop = .reading)
    (found : s.pending.find? (·.1 = f.requestID) = some (id, k)) :
    Inv { s with arrived := s.arrived + 1, pending := s.delete id, loop := .sending s.arrived k f } := by
  have mem := mem_of_find?_eq_some found
  have same : id = f.requestID := by simpa using find?_some found
  have distinct : (s.pending.map Prod.snd).Nodup := (nodup_append.mp inv.distinct).1
  have gone : k ∉ (s.delete id).map Prod.snd := by grind [inj_on_of_nodup_map, State.delete]
  refine (inv_arrive inv reading).retarget ?_ ?_ ?_ ?_
  · refine nodup_append.mpr ⟨distinct.sublist ((delete_sublist id).map _), nodup_singleton k, ?_⟩
    rintro j old _ new rfl
    exact gone (mem_singleton.mp new ▸ old)
  · intro j held
    refine mem_append_left _ ?_
    rcases mem_append.mp held with old | new
    · exact ((delete_sublist id).map _).subset old
    · exact mem_singleton.mp new ▸ mem_map_of_mem mem
  · exact fun e held => (delete_sublist id).subset held
  · rintro n j g ⟨⟩
    exact ⟨(inv.keys _ mem).trans same, Nat.lt_succ_self _, fun d held => (inv.given d held).1⟩

/-- **A send of `route`** finds the slot empty and fills it. -/
theorem inv_send {n : Nat} {f : Frame} (inv : Inv s) (here : s.loop = .sending n k f) :
    (s.calls k).box = none ∧ Inv { s.set k { s.calls k with box := some (some f) } with
      loop := .reading
      deliveries := s.deliveries ++ [(n, k, f)] } := by
  have distinct : (s.pending.map Prod.snd ++ s.loop.targets).Nodup := inv.distinct
  rw [here] at distinct
  obtain ⟨empty, past⟩ := inv.ready k (mem_append_right _ (by simp [here, Loop.targets]))
  obtain ⟨id, arrived, after⟩ := inv.sending n k f here
  have noted : Inv { s with loop := .reading, deliveries := s.deliveries ++ [(n, k, f)] } := by
    have read : Inv { s with loop := .reading } :=
      inv.retarget (by simpa [Loop.targets] using (nodup_append.mp distinct).1)
        (by simpa [Loop.targets, State.targets] using fun j e held => .inl ⟨e, held⟩)
        (fun e held => held) nofun
    refine { read with sending := nofun, given := ?_, order := ?_, got := ?_ }
    · exact forall_mem_append_singleton inv.given ⟨arrived, id, past⟩
    · grind [Inv.order]
    grind [Inv.got]
  refine ⟨empty, noted.set (fun _ => ⟨rfl, past⟩) (fun mem => ?_) (by simp [past]) fun g got => ?_⟩
  · have listed : k ∈ s.pending.map Prod.snd := by simpa [State.targets, Loop.targets] using mem
    exact absurd rfl ((nodup_append.mp distinct).2.2 k listed k (mem_singleton_self k))
  · rcases got with box | returned
    · grind
    · exact noted.got k g (.inr returned)

/-- A call that gets a `nil`. -/
theorem inv_fail {ks : List Nat} (inv : Inv s) (here : s.loop = .ended ks) (mem : k ∈ ks) :
    Inv { s.set k { s.calls k with box := (s.calls k).box.or (some none) } with
      loop := .ended (ks.erase k) } := by
  have distinct : (s.pending.map Prod.snd ++ s.loop.targets).Nodup := inv.distinct
  rw [here] at distinct
  obtain ⟨empty, past⟩ := inv.ready k (mem_append_right _ (by simpa [here, Loop.targets] using mem))
  have sub : s.pending.map Prod.snd ++ ks.erase k <+ s.pending.map Prod.snd ++ ks :=
    erase_sublist.append_left _
  have less : Inv { s with loop := .ended (ks.erase k) } :=
    inv.retarget (distinct.sublist sub)
      (fun j held => by simpa [State.targets, here, Loop.targets] using sub.subset held)
      (fun e held => held) nofun
  refine less.set (fun _ => ⟨rfl, past⟩) (fun again => ?_) (by simp [past]) fun g got => ?_
  · rcases mem_append.mp again with listed | later
    · exact absurd rfl ((nodup_append.mp distinct).2.2 k listed k mem)
    · exact absurd later ((nodup_append.mp distinct).2.1.not_mem_erase)
  · rcases got with box | returned
    · simp [empty] at box
    · exact less.got k g (.inr returned)

theorem inv_step {e : Event} (inv : Inv s) (taken : step s e = some t) : Inv t := by
  revert taken
  fun_cases step s e with
  | case1 | case4 =>
    intro taken
    obtain ⟨here, taken⟩ := at_eq taken
    grind [Inv.move, Phase.past]
  | case2 k =>
    intro taken
    obtain ⟨here, ⟨⟩⟩ := at_eq taken
    have empty := inv.fresh k (by rw [here]; rfl)
    have set := inv.set (k := k) (c := { s.calls k with id := s.nextReq + 1, phase := .numbered })
      (by simp [here, Phase.past]) (fun _ => empty) (fun _ => empty) (by simp [Call.got, empty])
    exact { set with }
  | case3 =>
    intro taken
    obtain ⟨here, taken⟩ := at_eq taken
    grind [inv_register]
  | case5 =>
    intro taken
    obtain ⟨-, ⟨⟩⟩ := at_eq taken
    exact inv.move (fun _ => rfl) nofun
  | case6 k =>
    intro taken
    obtain ⟨-, ⟨⟩⟩ := at_eq taken
    exact inv_delete (inv.move (fun _ => rfl) (by simp)) (s.calls k).id
  | case7 k =>
    intro taken
    obtain ⟨answer, box, rfl⟩ := Option.map_eq_some_iff.mp (at_eq taken).2
    refine inv.set (fun _ => ⟨rfl, rfl⟩) (fun _ => rfl) nofun fun f got => inv.got k f (.inl ?_)
    grind [Call.got]
  | case8 =>
    intro taken
    have taken := (at_eq taken).2
    split at taken <;> cases taken
    exact inv.move (fun _ => rfl) nofun
  | case9 | case10 => grind [inv_arrive]
  | case11 f reading =>
    rintro ⟨⟩
    exact inv_route inv reading (by assumption)
  | case13 => grind [inv_send]
  | case16 reading | case17 reading =>
    rintro ⟨⟩
    have distinct : (s.pending.map Prod.snd ++ s.loop.targets).Nodup := inv.distinct
    rw [reading] at distinct
    exact inv.retarget (by simpa [Loop.targets] using distinct)
      (by simp [State.targets, reading, Loop.targets]) (by simp) nofun
  | case19 => grind [inv_fail]
  | case22 =>
    rintro ⟨⟩
    exact { inv with }
  | _ => rintro ⟨⟩

theorem inv_reached (reached : Reaches step (fun _ _ => True) State.init s) : Inv s := by
  induction reached with
  | init =>
    exact ⟨.nil, nofun, fun _ _ => rfl, nofun, nofun, nofun, .nil, by simp [State.init, Call.got]⟩
  | step _ _ taken ih => exact inv_step ih taken

def Loop.halted : Loop → Bool
  | .ended _ => true
  | _ => false

/-- Behind the failure nothing is given to a call any more. -/
theorem halted_step {e : Event} (halted : s.loop.halted = true) (taken : step s e = some t) :
    t.loop.halted = true ∧ t.deliveries = s.deliveries := by
  revert taken
  fun_cases step s e with
  | case7 =>
    intro taken
    obtain ⟨answer, -, rfl⟩ := Option.map_eq_some_iff.mp (at_eq taken).2
    exact ⟨halted, rfl⟩
  | case8 =>
    intro taken
    have taken := (at_eq taken).2
    split at taken <;> cases taken
    exact ⟨halted, rfl⟩
  | case1 | case2 | case3 | case4 | case5 | case6 =>
    intro taken
    cases (at_eq taken).2
    exact ⟨halted, rfl⟩
  | case19 =>
    rintro ⟨⟩
    exact ⟨rfl, rfl⟩
  | case22 =>
    rintro ⟨⟩
    exact ⟨halted, rfl⟩
  | _ => grind [Loop.halted]

end

/-- **Responses are matched with calls.**  A call returns a frame with its own id, one
that was given to it; no arrival is given twice; a send of the read loop always finds room;
and once the loop is over nothing more is given to a call. -/
theorem requests_matched (s : State) (reached : Reaches step (fun _ _ => True) State.init s) :
    (∀ k f, (s.calls k).phase = .returned (some f) →
      f.requestID = (s.calls k).id ∧ ∃ n, (n, k, f) ∈ s.deliveries) ∧
    (s.deliveries.Pairwise fun d d' => d.1 < d'.1) ∧
    (∀ n k f, s.loop = .sending n k f → ∃ t, step s .send = some t) ∧
    ∀ t, s.loop.halted = true → Reaches step (fun _ _ => True) s t → t.deliveries = s.deliveries := by
  have inv := inv_reached reached
  refine ⟨fun k f returned => ?_, inv.order, fun n k f here => ?_, fun t halted later => ?_⟩
  · obtain ⟨n, mem⟩ := inv.got k f (.inr returned)
    exact ⟨(inv.given _ mem).2.1.symm, n, mem⟩
  · have empty := (inv_send inv here).1
    exact ⟨_, by simp only [step, here, empty, if_true]; rfl⟩
  · suffices t.loop.halted = true ∧ t.deliveries = s.deliveries from this.2
    induction later with
    | init => exact ⟨halted, rfl⟩
    | step _ _ taken ih => grind [halted_step]

/-- Two calls whose answers arrive in the other order, and a third that fails. -/
theorem requests_matched_sample : ∃ s, Reaches step (fun _ _ => True) State.init s ∧
    (s.calls 0).phase = .returned (some ⟨0x10, 1, []⟩) ∧ s.loop = .ended [] ∧
    (Frame.mk 0x10 1 []).requestID = (s.calls 0).id := by
  refine Reaches.exists_run_of
    (P := fun s => (s.calls 0).phase = .returned (some ⟨0x10, 1, []⟩) ∧ s.loop = .ended [])
    [.enter 0, .number 0, .register 0, .write 0 true, .enter 1, .number 1, .register 1,
      .write 1 true, .arrive ⟨0x10, 2, []⟩, .send, .arrive ⟨0x10, 1, []⟩, .send, .receive 0,
      .receive 1, .enter 2, .number 2, .register 2, .write 2 true, .drop, .fail 2, .receive 2]
    (by decide +kernel) ?_
  rintro s reached ⟨returned, ended⟩
  exact ⟨returned, ended, ((requests_matched s reached).1 0 _ returned).1⟩

end PubsubBroker.Client.Requests
