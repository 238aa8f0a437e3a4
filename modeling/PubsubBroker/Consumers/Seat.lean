/-
# Consumers.Seat — the one consumer of a group

On the consumer's side of a push subscription a group with one seat is all there
is.  `Vacant` and `Seated` say whether the seat is taken and what its push channel
holds, and each operation of the manager has one lemma about it: a join takes the
seat, setting the sink opens the push channel, and an attempt to deliver adds to
the channel if it has room.
-/
import PubsubBroker.Consumers.Push

namespace PubsubBroker.Consumers.Push

open Theory Storage Option
open Offsets (OffsetStore)

/-! ## The seat of the consumer -/

section

variable {cfg : Config} {m : Manager} {ch : Option (List Message)} {queue : List Message}

/-- The group, if it is there, has no consumer. -/
def Vacant (cfg : Config) (m : Manager) : Prop :=
  ∀ g, m.find cfg.group cfg.topic = some g → g.consumers = [] ∧ g.partCount = cfg.partCount

/-- The consumer is alone in the group, with all partitions and this push channel. -/
def Seated (cfg : Config) (m : Manager) (ch : Option (List Message)) : Prop :=
  ∃ g c, m.find cfg.group cfg.topic = some g ∧ g.consumers = [c] ∧ c.id = cfg.consumerID ∧
    c.pushCh = ch ∧ ∀ p : Nat, p < cfg.partCount → (p : Int) ∈ c.assignments

theorem channel_vacant (vacant : Vacant cfg m) : channel cfg m = [] := by
  unfold channel
  cases found : m.find cfg.group cfg.topic with
  | none => rfl
  | some g => simp [(vacant g found).1]

theorem channel_seated (seated : Seated cfg m ch) : channel cfg m = ch.getD [] := by
  obtain ⟨g, c, found, alone, named, pushCh, -⟩ := seated
  simp [channel, found, alone, named, pushCh]

theorem Seated.own (seated : Seated cfg m (some queue)) :
    Seated cfg m (some (channel cfg m)) := by
  rw [channel_seated seated]
  exact seated

theorem Seated.update {ch' : Option (List Message)} (seated : Seated cfg m ch)
    {f : Group → Group} (names : ∀ g, (f g).id = g.id ∧ (f g).topic = g.topic)
    (keeps : ∀ g c, g.consumers = [c] → c.id = cfg.consumerID → c.pushCh = ch →
      ∃ c', (f g).consumers = [c'] ∧ c'.id = c.id ∧ c'.pushCh = ch' ∧
        c'.assignments = c.assignments) :
    Seated cfg (m.update cfg.group cfg.topic f) ch' := by
  obtain ⟨g, c, found, alone, named, pushCh, covers⟩ := seated
  obtain ⟨c', alone', named', pushCh', assigned⟩ := keeps g c alone named pushCh
  refine ⟨f g, c', ?_, alone', named'.trans named, pushCh', assigned ▸ covers⟩
  rw [Manager.find_update, found]
  · rfl
  · grind

theorem Seated.setSink (seated : Seated cfg m none) :
    Seated cfg (m.update cfg.group cfg.topic fun g => g.update cfg.consumerID Consumer.setSink)
      (some []) := by
  apply seated.update
  · exact fun g => ⟨rfl, rfl⟩
  · intro g c alone named pushCh
    simp [Consumer.setSink, Group.update, alone, named, pushCh]

theorem Seated.take (seated : Seated cfg m (some queue)) :
    Seated cfg (take cfg m) (some (queue.drop 1)) := by
  apply seated.update
  · exact fun g => ⟨rfl, rfl⟩
  · grind [Group.update]

/-- **The consumer is alone in the group once it has joined.** -/
theorem subscribe_vacant (vacant : Vacant cfg m) :
    (m.subscribe cfg.group cfg.consumerID cfg.topic cfg.partCount).2 = true ∧
      Seated cfg (m.subscribe cfg.group cfg.consumerID cfg.topic cfg.partCount).1 none := by
  have found := @Manager.find_ensure m cfg.group cfg.topic cfg.partCount
  generalize seat : (m.find cfg.group cfg.topic).getD
    (newGroup cfg.group cfg.topic cfg.partCount) = g at found
  have empty : g.consumers = [] ∧ g.partCount = cfg.partCount := by
    rw [← seat]
    cases held : m.find cfg.group cfg.topic with
    | none => exact ⟨rfl, rfl⟩
    | some h => exact vacant h held
  have names := Manager.find_names found
  have joined : g.join cfg.consumerID m.bufferSize = some { g with
      consumers := [{ newConsumer cfg.consumerID m.bufferSize with
        assignments := share cfg.partCount 1 0 }] } := by
    simp [Group.join, Group.member, empty, insertById, rebalance]
  unfold Manager.subscribe
  simp only [found, joined]
  refine ⟨trivial, { g with consumers := [{ newConsumer cfg.consumerID m.bufferSize with
    assignments := share cfg.partCount 1 0 }] }, _, ?_, rfl, rfl, rfl, ?_⟩
  · simp [Manager.find_update, found, names]
  · intro p below
    exact mem_share.mpr ⟨by omega, by omega, Nat.mod_one _⟩

theorem unsubscribe_vacant (vacant : Vacant cfg m) :
    Vacant cfg (m.unsubscribe cfg.group cfg.consumerID cfg.topic) := by
  intro g found
  unfold Manager.unsubscribe at found
  rw [Manager.find_update] at found
  · obtain ⟨h, held, rfl⟩ := map_eq_some_iff.mp found
    have empty := vacant h held
    simp only [Group.leave, Group.member, empty, List.any_nil, Bool.false_eq_true, if_false]
    exact ⟨trivial, trivial⟩
  · grind [Group.leave]

/-! ## Attempts to deliver -/

theorem dispatch_single {g : Group} {c : Consumer} (alone : g.consumers = [c]) (msg : Message) :
    g.dispatch msg =
      if msg.partition ∈ c.assignments then
        match c.deliver msg with
        | some c' => ({ g with consumers := [c'] }, none)
        | none => (g, some c.id)
      else (g, none) := by
  unfold Group.dispatch
  rw [alone]
  simp only [deliverTo]
  split
  · cases c.deliver msg with
    | some c' => rfl
    | none => simp only [← alone]
  · simp only [← alone]

theorem deliver_keeps {c c' : Consumer} {msg : Message} (delivered : c.deliver msg = some c') :
    c'.id = c.id ∧ c'.assignments = c.assignments ∧
      c'.pushCh = c.pushCh.map fun queue => queue ++ [msg] := by
  unfold Consumer.deliver at delivered
  split at delivered
  · grind
  · grind

theorem update_self {g : Group} (found : m.find cfg.group cfg.topic = some g) :
    (m.update cfg.group cfg.topic fun _ => g).find cfg.group cfg.topic = some g := by
  rw [Manager.find_update, found]
  · rfl
  · exact fun _ _ _ => Manager.find_names found

theorem offer_vacant (vacant : Vacant cfg m) (attempts : Nat) (p : Int) (msg : Message) :
    Vacant cfg (offer cfg m attempts p msg).1 := by
  unfold offer
  cases found : m.find cfg.group cfg.topic with
  | none => simp [Manager.dispatchToGroup, Manager.redeliver, vacant, found]
  | some g =>
    have empty := (vacant g found).1
    have still : Vacant cfg (m.update cfg.group cfg.topic fun _ => g) := by
      intro h held
      rw [update_self found] at held
      cases held
      exact vacant g found
    have dispatched : ∀ msg, g.dispatch msg = (g, none) := by
      intro msg
      unfold Group.dispatch
      rw [empty]
      simp only [deliverTo]
      rw [← empty]
    have redelivered : ∀ msg, g.redeliver cfg.consumerID msg = some g := by simp [Group.redeliver, empty]
    simp [Manager.dispatchToGroup, Manager.redeliver, found, still, dispatched, redelivered]

/-- What an attempt does to a seated consumer: nothing, if its channel is full or
the partition is not its own, and a delivery otherwise. -/
theorem offer_seated (seated : Seated cfg m ch) (attempts : Nat) (p : Int) (msg : Message) :
    (∃ c : Consumer, c.pushCh = ch ∧ (∀ q : Nat, q < cfg.partCount → (q : Int) ∈ c.assignments) ∧
        (c.deliver { msg with partition := p } = none ∨ p ∉ c.assignments) ∧
        Seated cfg (offer cfg m attempts p msg).1 ch) ∨
      (offer cfg m attempts p msg).2 = true ∧
        Seated cfg (offer cfg m attempts p msg).1
          (ch.map fun queue => queue ++ [{ msg with partition := p }]) := by
  obtain ⟨g, c, found, alone, named, pushCh, covers⟩ := seated
  have names := Manager.find_names found
  have same : Seated cfg m ch := ⟨g, c, found, alone, named, pushCh, covers⟩
  have same' : Seated cfg (m.update cfg.group cfg.topic fun _ => g) ch :=
    ⟨g, c, update_self found, alone, named, pushCh, covers⟩
  have seatedAs : ∀ c', c.deliver { msg with partition := p } = some c' →
      Seated cfg (m.update cfg.group cfg.topic fun _ => { g with consumers := [c'] })
        (ch.map fun queue => queue ++ [{ msg with partition := p }]) := by
    intro c' delivered
    obtain ⟨id, assigned, pushCh'⟩ := deliver_keeps delivered
    refine ⟨{ g with consumers := [c'] }, c', ?_, rfl, id.trans named, ?_, assigned ▸ covers⟩
    · simp [Manager.find_update, found, names]
    · rw [pushCh', pushCh]
  have dispatched := dispatch_single alone { msg with partition := p }
  have redelivered : g.redeliver cfg.consumerID { msg with partition := p } =
      (c.deliver { msg with partition := p }).map fun c' => { g with consumers := [c'] } := by
    simp [Group.redeliver, alone, named]
  simp only at dispatched
  simp only [offer, Manager.dispatchToGroup, Manager.redeliver, found, dispatched, redelivered]
  cases delivered : c.deliver { msg with partition := p } with
  | none | some c' => grind

theorem offer_pull (seated : Seated cfg m none) (attempts : Nat) (p : Int) (msg : Message) :
    Seated cfg (offer cfg m attempts p msg).1 none := by
  rcases offer_seated seated attempts p msg with ⟨c, -, -, -, still⟩ | ⟨-, still⟩
  · exact still
  · exact still

/-- **A push channel with room takes the message.** -/
theorem offer_push (seated : Seated cfg m (some queue)) (room : queue.length < pushCapacity)
    (attempts : Nat) {p : Nat} (below : p < cfg.partCount) (msg : Message) :
    (offer cfg m attempts p msg).2 = true ∧
      Seated cfg (offer cfg m attempts p msg).1
        (some (queue ++ [{ msg with partition := p }])) := by
  rcases offer_seated seated attempts p msg with ⟨c, pushCh, covers, full | other, -⟩ | done
  · simp [Consumer.deliver, pushCh, room] at full
  · exact absurd (covers p below) other
  · exact done

end

theorem offer_offsets (cfg : Config) (m : Manager) (attempts : Nat) (p : Int) (msg : Message) :
    (offer cfg m attempts p msg).1.offsets = m.offsets := by
  unfold offer
  split
  · exact Manager.dispatchToGroup_offsets ..
  · grind [Manager.redeliver_offsets]

end PubsubBroker.Consumers.Push
