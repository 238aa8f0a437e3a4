/-
# Consumers.Delivery — every step of a push subscription keeps its relays

Every partition is relayed to the consumer in the sense of `Theory.CatchUp`, with a
stage that the phase of the subscription determines (`stage`): idle in front of the
decision about the replay, reading while it is replayed, and live behind that.
`Inv` joins this to the seat of the consumer, there is one lemma for each step, and
`inv_step` collects them.
-/
import PubsubBroker.Consumers.Seat

namespace PubsubBroker.Consumers.Push

open Theory Storage List
open Offsets (OffsetStore)

/-! ## The invariant -/

/-- The appends to a partition that are yet to be delivered live. -/
def State.due (s : State) (p : Int) : List Message :=
  (s.publishes.filter fun x => x.live ∧ x.msg.partition = p).map fun x => shown p x.msg

/-- What was handed to the consumer of a partition. -/
def State.handed (cfg : Config) (s : State) (p : Int) : List Message :=
  ((s.sent ++ channel cfg s.manager).filter fun m => m.partition = p).map (shown p)

def State.stage (s : State) (p : Int) : Stage Message :=
  match s.phase with
  | .replaying q offset batch _ =>
    if p < q then .live (s.due p)
    else if p = q then .reading offset (batch.map (shown p))
    else .idle
  | .finished => .live (s.due p)
  | _ => .idle

def Phase.Seat (cfg : Config) (m : Manager) : Phase → Prop
  | .received => Vacant cfg m
  | .refused => False
  | .joined => Seated cfg m none
  | .replaying q _ _ attempts =>
    Seated cfg m (some (channel cfg m)) ∧ q < cfg.partCount ∧ attempts = 0
  | _ => Seated cfg m (some (channel cfg m))

/-- The delivery loop runs. -/
def Phase.serving : Phase → Bool
  | .answered => true
  | .replaying _ _ _ _ => true
  | .finished => true
  | _ => false

def Phase.isReplay : Phase → Bool
  | .replaying _ _ _ _ => true
  | _ => false

/-- One partition in a state, with the offset the group is to go on at. -/
structure Part (cfg : Config) (s : State) (p : Nat) (start : Int) : Prop where
  wf : (s.logs p).WellFormed cfg.codecs
  nonneg : wf.view.Above 0
  relays : Relays wf.view (shown p) start (s.handed cfg p) (s.stage p)
  above : s.phase.isReplay = true → wf.view.Above start

structure Inv (cfg : Config) (offsets : OffsetStore) (s : State) : Prop where
  seat : s.phase.Seat cfg s.manager
  earlier : s.phase ≠ .received → s.earlier = 0
  loop : s.loop = if s.phase.serving then .waiting else .off
  room : (channel cfg s.manager).length < pushCapacity
  committed : s.phase ≠ .finished → s.manager.offsets = offsets
  owed : ∀ x ∈ s.publishes, x.live = true → s.replayed x.msg.partition = true ∧
    0 ≤ x.msg.partition ∧ x.msg.partition < cfg.partCount
  parts : ∀ p : Nat, p < cfg.partCount → Part cfg s p (start cfg offsets p)

section

variable {cfg : Config} {offsets : OffsetStore} {s s' : State}

variable {i p : Nat} {x : Publish}

theorem sinkless_of_serving {phase : Phase} (serving : phase.serving = true) :
    phase.sinkless = false := by
  cases phase with
  | received | joined => cases serving
  | _ => rfl

theorem Phase.Seat.move {phase : Phase} {m m' : Manager} (seat : phase.Seat cfg m)
    (sink : phase.sinkless = false) (seated : Seated cfg m' (some (channel cfg m'))) :
    phase.Seat cfg m' := by
  cases phase with
  | received | joined => cases sink
  | refused => exact seat
  | replaying q offset batch attempts => exact ⟨seated, seat.2⟩
  | _ => exact seated

theorem handed_push {m : Manager} {msg : Message} {q : Nat}
    (pushed : channel cfg m = channel cfg s.manager ++ [{ msg with partition := (q : Int) }])
    (sent : s'.sent = s.sent) (manager : s'.manager = m) (p : Nat) :
    s'.handed cfg p =
      if p = q then s.handed cfg p ++ [shown p msg] else s.handed cfg p := by
  unfold State.handed
  rw [sent, manager, pushed, ← append_assoc, filter_append, map_append]
  by_cases same : p = q
  · subst same
    simp [shown]
  · simp [same]; omega

/-! ## Partitions -/

theorem Part.frame {start : Int} (part : Part cfg s p start) (log : s'.logs p = s.logs p)
    (handed : s'.handed cfg p = s.handed cfg p) (stage : s'.stage p = s.stage p)
    (replay : s'.phase.isReplay = true → s.phase.isReplay = true) : Part cfg s' p start := by
  obtain ⟨wf, nonneg, relays, above⟩ := part
  revert wf
  rw [← log, ← handed, ← stage]
  intro wf nonneg relays above
  exact ⟨wf, nonneg, relays, fun isReplay => above (replay isReplay)⟩

theorem stage_congr (phase : s'.phase = s.phase) (due : s'.due p = s.due p) :
    s'.stage p = s.stage p := by
  unfold State.stage
  rw [phase, due]

theorem due_append (publishes : s'.publishes = s.publishes ++ [x]) (p : Int) :
    s'.due p = if x.live = true ∧ x.msg.partition = p then s.due p ++ [shown p x.msg] else s.due p := by
  unfold State.due
  rw [publishes, filter_append, map_append]
  split
  · rename_i mine
    simp [mine]
  · rename_i other
    simp [other]

theorem due_erase (at_i : s.publishes[i]? = some x) (idle : x.live = false)
    (publishes : s'.publishes = s.publishes.eraseIdx i) (p : Int) : s'.due p = s.due p := by
  obtain ⟨before, after, here, erased, -⟩ := pool_split at_i
  unfold State.due
  rw [publishes, erased, here]
  simp [idle]

theorem Part.append {start : Int} {value : Message} {pl : PartitionLog} (part : Part cfg s p start)
    (log : s'.logs p = pl) (wf : pl.WellFormed cfg.codecs)
    (ext : part.wf.view.Extends wf.view value) (handed : s'.handed cfg p = s.handed cfg p)
    (phase : s'.phase = s.phase)
    (due : s'.due p = if s.replayed p = true then s.due p ++ [shown p value] else s.due p) :
    Part cfg s' p start := by
  subst log
  -- the stage moves as the relay does
  have stage : s'.stage p = (s.stage p).append (shown p value) := by
    unfold State.stage
    unfold State.replayed at due
    rw [phase, due]
    cases s.phase with
    | replaying q offset batch attempts => grind [Stage.append]
    | finished => simp [Stage.append]
    | _ => rfl
  refine ⟨wf, part.nonneg.extends ext, ?_, ?_⟩
  · rw [handed, stage]
    exact part.relays.append ext
  · intro isReplay
    rw [phase] at isReplay
    exact (part.above isReplay).extends ext

theorem stage_live (replayed : s.replayed p = true) : s.stage p = .live (s.due p) := by
  grind [State.replayed, State.stage]

/-- The first live publish of a partition is the first of what is due there. -/
theorem due_first (at_i : s.publishes[i]? = some x) (live : x.live = true)
    (here : x.msg.partition = p)
    (first : ∀ y ∈ s.publishes.take i, y.live = true → y.msg.partition ≠ x.msg.partition)
    (publishes : s'.publishes = s.publishes.eraseIdx i) : s.due p = shown p x.msg :: s'.due p := by
  have bound := (List.getElem?_eq_some_iff.mp at_i).1
  have parts : s.publishes = s.publishes.take i ++ x :: s.publishes.drop (i + 1) := by
    grind [getElem_cons_drop, take_append_drop]
  have none : (s.publishes.take i).filter (fun y => y.live ∧ y.msg.partition = (p : Int)) = [] := by
    rw [filter_eq_nil_iff]
    grind
  unfold State.due
  rw [publishes, eraseIdx_eq_take_drop_succ]
  conv_lhs => rw [parts]
  rw [filter_append, filter_append, none]
  simp [live, here]

theorem due_other (at_i : s.publishes[i]? = some x) (other : x.msg.partition ≠ p)
    (publishes : s'.publishes = s.publishes.eraseIdx i) : s'.due p = s.due p := by
  obtain ⟨before, after, here, erased, -⟩ := pool_split at_i
  unfold State.due
  rw [publishes, erased, here]
  simp [other]

theorem stage_idle (before : s.phase ≠ .finished) (noReplay : s.phase.isReplay = false) :
    s.stage p = .idle := by
  unfold State.stage
  cases phase : s.phase with
  | replaying q offset batch attempts => simp [phase, Phase.isReplay] at noReplay
  | finished => exact absurd phase before
  | _ => rfl

theorem replayed_false {p : Int} (before : s.phase ≠ .finished) (noReplay : s.phase.isReplay = false) :
    s.replayed p = false := by
  unfold State.replayed
  cases phase : s.phase with
  | replaying q offset batch attempts => simp [phase, Phase.isReplay] at noReplay
  | finished => exact absurd phase before
  | _ => rfl

theorem due_nil (idle : ∀ x ∈ s.publishes, x.live = true → s.replayed x.msg.partition = true)
    {p : Int} (notYet : s.replayed p = false) : s.due p = [] := by
  unfold State.due
  rw [filter_eq_nil_iff.mpr, map_nil]
  intro x mem
  simp only [Bool.decide_and, Bool.and_eq_true, decide_eq_true_eq, not_and]
  rintro live rfl
  rw [idle x mem live] at notYet
  cases notYet

/-- A partition at the beginning of the replay of partition `q`: those in front of it
are live, and the others have not begun. -/
structure Part.Entering (cfg : Config) (s : State) (q p : Nat) (start : Int) : Prop where
  wf : (s.logs p).WellFormed cfg.codecs
  nonneg : wf.view.Above 0
  above : wf.view.Above start
  relays : Relays wf.view (shown p) start (s.handed cfg p) (if p < q then .live (s.due p) else .idle)

theorem view_records {pl : PartitionLog} {K : Codecs} (wf : pl.WellFormed K) {P : Int → Prop}
    (records : ∀ r ∈ pl.records K, P r.offset) : ∀ e ∈ wf.view.entries, P e.1 := by
  intro e mem
  obtain ⟨r, held, rfl⟩ := mem_map.mp mem
  exact records r held

theorem stage_replaying {q p : Nat} {offset : Int} {batch : List Message} {attempts : Nat}
    (phase : s.phase = .replaying q offset batch attempts) :
    s.stage p =
      if p < q then .live (s.due p)
      else if p = q then .reading offset (batch.map (shown p)) else .idle := by
  unfold State.stage
  rw [phase]
  simp only [Nat.cast_lt, Nat.cast_inj]

theorem inv_ready (ready : Ready cfg s) : Inv cfg s.manager.offsets s where
  seat := by
    rw [ready.phase]
    exact ready.vacant
  earlier later := absurd ready.phase later
  loop := by
    rw [ready.loop, ready.phase]
    rfl
  room := by
    rw [channel_vacant ready.vacant]
    decide
  committed _ := rfl
  owed x mem live := by
    grind [Ready.publishes]
  parts p below := by
    have wf := ready.logs p below
    refine ⟨wf, ⟨ready.next p below, view_records wf (ready.offsets p below)⟩, ?_, ?_⟩
    · have idle : s.stage p = .idle := by
        apply stage_idle
        · rw [ready.phase]
          nofun
        · rw [ready.phase]
          rfl
      rw [idle]
      show s.handed cfg p = []
      unfold State.handed
      rw [ready.sent, channel_vacant ready.vacant]
      rfl
    · rw [ready.phase]
      nofun

/-! ## Publishes -/

variable (inv : Inv cfg offsets s)
include inv

theorem Inv.seated (sink : s.phase.sinkless = false) :
    Seated cfg s.manager (some (channel cfg s.manager)) := by
  have seat := inv.seat
  cases phase : s.phase with
  | received | joined => simp [phase, Phase.sinkless] at sink
  | refused =>
    rw [phase] at seat
    exact seat.elim
  | replaying q offset batch attempts =>
    rw [phase] at seat
    exact seat.1
  | _ =>
    rw [phase] at seat
    exact seat

/-- Before the sink is set nothing is live. -/
theorem Inv.not_live (sink : s.phase.sinkless = true) (mem : x ∈ s.publishes) : x.live = false := by
  cases live : x.live with
  | false => rfl
  | true =>
    have replayed := (inv.owed x mem live).1
    unfold State.replayed at replayed
    cases phase : s.phase with
    | received | joined => simp [phase] at replayed
    | _ => simp [phase, Phase.sinkless] at sink

theorem inv_append {p now : Int} {msg : Message} (orderly : Orderly cfg s (.append p now msg))
    (taken : step cfg s (.append p now msg) = some s') : Inv cfg offsets s' := by
  simp only [step] at taken
  split at taken
  · rename_i range
    cases taken
    obtain ⟨q, rfl⟩ := Int.eq_ofNat_of_zero_le range.1
    have below : q < cfg.partCount := by omega
    refine { inv with owed := ?_, parts := ?_ }
    · intro x mem live
      cases mem_append.mp mem with
      | inl old => exact inv.owed x old live
      | inr new =>
        cases mem_singleton.mp new
        exact ⟨live, range⟩
    · intro p inRange
      have part := inv.parts p inRange
      by_cases same : p = q
      · subst same
        obtain ⟨wf, records, next, offset⟩ := part.wf.append orderly.1.1 orderly.1.2 orderly.2
        apply part.append
        · exact Function.update_self _ _ _
        · exact part.wf.extends wf records next
        · rfl
        · rfl
        · rw [due_append rfl]
          simp [Message.setOffset, PartitionLog.WellFormed.view, offset]
      · apply part.frame
        · simp [same]
        · rfl
        · apply stage_congr
          · rfl
          · rw [due_append rfl, if_neg]
            rintro ⟨-, here⟩
            have here : (q : Int) = p := here
            omega
        · exact id
  · cases taken

theorem Inv.publishes {publishes : List Publish}
    (owed : ∀ x ∈ publishes, x.live = true → x ∈ s.publishes)
    (due : ∀ p, ({ s with publishes := publishes } : State).due p = s.due p) :
    Inv cfg offsets { s with publishes := publishes } := by
  refine { inv with owed := ?_, parts := ?_ }
  · intro x mem live
    exact inv.owed x (owed x mem live) live
  · intro p below
    apply (inv.parts p below).frame
    · rfl
    · rfl
    · grind [stage_congr]
    · exact id

theorem inv_repeated {msg : Message} (taken : step cfg s (.repeated msg) = some s') :
    Inv cfg offsets s' := by
  cases taken
  apply inv.publishes
  · grind
  · intro p
    rw [due_append rfl, if_neg]
    rintro ⟨live, -⟩
    cases live

theorem inv_abandon (orderly : Orderly cfg s (.abandon i))
    (taken : step cfg s (.abandon i) = some s') : Inv cfg offsets s' := by
  simp only [step] at taken
  split at taken
  · rename_i msg live at_i
    cases taken
    apply inv.publishes
    · intro x mem _
      exact mem_of_mem_eraseIdx mem
    · exact due_erase at_i (orderly _ at_i) rfl
  · cases taken

/-- Before the sink is set, an attempt to deliver leaves the push side alone. -/
theorem Inv.offer_sinkless (sink : s.phase.sinkless = true) (attempts : Nat) (p : Int)
    (msg : Message) :
    Inv cfg offsets { s with manager := (offer cfg s.manager attempts p msg).1 } := by
  have seat := inv.seat
  have kept : s.phase.Seat cfg (offer cfg s.manager attempts p msg).1 ∧
      channel cfg (offer cfg s.manager attempts p msg).1 = channel cfg s.manager := by
    cases phase : s.phase with
    | received =>
      rw [phase] at seat
      have still := offer_vacant seat attempts p msg
      exact ⟨still, (channel_vacant still).trans (channel_vacant seat).symm⟩
    | joined =>
      rw [phase] at seat
      have still := offer_pull seat attempts p msg
      exact ⟨still, (channel_seated still).trans (channel_seated seat).symm⟩
    | _ => simp [phase, Phase.sinkless] at sink
  refine { inv with seat := kept.1, room := ?_, committed := ?_, parts := ?_ }
  · rw [kept.2]
    exact inv.room
  · rw [offer_offsets]
    exact inv.committed
  · intro q below
    apply (inv.parts q below).frame
    · rfl
    · unfold State.handed
      rw [kept.2]
    · rfl
    · exact id

theorem inv_deliver_sinkless {now : Int} (sink : s.phase.sinkless = true)
    (at_i : s.publishes[i]? = some x) : Inv cfg offsets (s.deliver cfg i x now) := by
  have idle : ∀ y ∈ s.publishes, y.live = false := fun y mem => inv.not_live sink mem
  have none : ∀ t : State, (∀ y ∈ t.publishes, y.live = false) → ∀ p, t.due p = [] := by
    intro t idle p
    unfold State.due
    rw [filter_eq_nil_iff.mpr, map_nil]
    intro y mem
    simp [idle y mem]
  unfold State.deliver
  generalize x.outgoing now = msg
  have offered := inv.offer_sinkless sink x.attempts msg.partition msg
  have others : ∀ publishes : List Publish, (∀ y ∈ publishes, y.live = false) →
      Inv cfg offsets { s with
        manager := (offer cfg s.manager x.attempts msg.partition msg).1, publishes := publishes } := by
    intro publishes quiet
    apply offered.publishes
    · grind
    · grind
  have erased : ∀ y ∈ s.publishes.eraseIdx i, y.live = false := forall_mem_eraseIdx idle
  simp only
  split
  · exact others _ erased
  · split
    · grind
    · have inv' := others _ erased
      exact { inv' with
        parts := fun p below => (inv'.parts p below).frame rfl rfl rfl id }

/-- **A live publish hands out the first append that is due.** -/
theorem inv_deliver_live {now : Int} (at_i : s.publishes[i]? = some x) (live : x.live = true)
    (first : ∀ y ∈ s.publishes.take i, y.live = true → y.msg.partition ≠ x.msg.partition)
    (room : s.Room cfg) : Inv cfg offsets (s.deliver cfg i x now) := by
  have owed := inv.owed x (mem_of_getElem? at_i) live
  obtain ⟨r, here⟩ := Int.eq_ofNat_of_zero_le owed.2.1
  have below : r < cfg.partCount := by omega
  have replayed : s.replayed r = true := here ▸ owed.1
  have sink : s.phase.sinkless = false := by
    unfold State.replayed at replayed
    cases phase : s.phase with
    | received | joined => simp [phase] at replayed
    | _ => rfl
  have space : (channel cfg s.manager).length < pushCapacity := Nat.lt_of_succ_lt room
  have outgoing : (x.outgoing now).partition = r ∧ shown r (x.outgoing now) = shown r x.msg := by
    unfold Publish.outgoing
    split
    · exact ⟨here, rfl⟩
    · exact ⟨here, rfl⟩
  obtain ⟨taken, seated⟩ := offer_push (inv.seated sink) space x.attempts below (x.outgoing now)
  have delivered : s.deliver cfg i x now = { s with
      manager := (offer cfg s.manager x.attempts r (x.outgoing now)).1
      publishes := s.publishes.eraseIdx i } := by
    unfold State.deliver
    simp only [outgoing.1, taken, if_true]
  have pushed := channel_seated seated
  have seat := inv.seat.move sink seated.own
  rw [delivered]
  refine { inv with seat := seat, room := ?_, committed := ?_, owed := ?_, parts := ?_ }
  · simp only [pushed, Option.getD_some, length_append, length_singleton]
    exact room
  · rw [offer_offsets]
    exact inv.committed
  · intro y mem yLive
    exact inv.owed y (mem_of_mem_eraseIdx mem) yLive
  · intro p inRange
    have part := inv.parts p inRange
    have handed := @handed_push cfg s { s with
        manager := (offer cfg s.manager x.attempts r (x.outgoing now)).1
        publishes := s.publishes.eraseIdx i } _ _ r pushed rfl rfl p
    by_cases mine : p = r
    · subst mine
      rw [if_pos rfl] at handed
      have due := @due_first s { s with
        manager := (offer cfg s.manager x.attempts p (x.outgoing now)).1
        publishes := s.publishes.eraseIdx i } i p x at_i live here first rfl
      have relays := part.relays
      rw [stage_live replayed, due] at relays
      refine ⟨part.wf, part.nonneg, ?_, part.above⟩
      rw [handed, outgoing.2, stage_live]
      · exact relays.deliver
      · exact replayed
    · rw [if_neg mine] at handed
      apply part.frame
      · rfl
      · exact handed
      · grind [stage_congr, due_other]
      · exact id

theorem inv_deliver {now : Int} (orderly : Orderly cfg s (.deliver i now))
    (taken : step cfg s (.deliver i now) = some s') : Inv cfg offsets s' := by
  simp only [step] at taken
  split at taken
  · rename_i x at_i
    cases taken
    rcases orderly with sink | ⟨⟨y, at_i', live, first⟩, room⟩
    · exact inv_deliver_sinkless inv sink at_i
    · cases at_i.symm.trans at_i'
      exact inv_deliver_live inv at_i live first room
  · cases taken

/-! ## The subscription -/

theorem Inv.setUp {m : Manager} {phase : Phase} {loop : Loop}
    (before : s.phase ≠ .finished ∧ s.phase.isReplay = false)
    (after : phase ≠ .finished ∧ phase.isReplay = false) (seat : phase.Seat cfg m)
    (earlier : s.earlier = 0) (running : loop = if phase.serving then .waiting else .off)
    (empty : channel cfg m = channel cfg s.manager) (kept : m.offsets = s.manager.offsets) :
    Inv cfg offsets { s with manager := m, phase := phase, loop := loop } where
  seat := seat
  earlier _ := earlier
  loop := running
  room := by
    show (channel cfg m).length < pushCapacity
    rw [empty]
    exact inv.room
  committed _ := kept.trans (inv.committed before.1)
  owed x mem live := by
    have replayed := (inv.owed x mem live).1
    grind [replayed_false]
  parts p below := by
    apply (inv.parts p below).frame
    · rfl
    · unfold State.handed
      rw [empty]
    · simp [stage_idle, before, after]
    simp [after]

theorem inv_join (orderly : Orderly cfg s .join) (taken : step cfg s .join = some s') :
    Inv cfg offsets s' := by
  simp only [step] at taken
  split at taken
  · rename_i phase
    cases taken
    have seat := inv.seat
    rw [phase] at seat
    obtain ⟨joined, seated⟩ := subscribe_vacant seat
    rw [joined, if_pos rfl]
    apply inv.setUp
    · rw [phase]
      exact ⟨nofun, rfl⟩
    · exact ⟨nofun, rfl⟩
    · exact seated
    · exact orderly
    · rw [inv.loop, phase]
      rfl
    · exact (channel_seated seated).trans (channel_vacant seat).symm
    · exact Manager.subscribe_offsets ..
  · cases taken

theorem inv_setSink (taken : step cfg s .setSink = some s') : Inv cfg offsets s' := by
  simp only [step] at taken
  split at taken
  · rename_i phase
    cases taken
    have seat := inv.seat
    rw [phase] at seat
    have sink := Seated.setSink seat
    apply inv.setUp
    · rw [phase]
      exact ⟨nofun, rfl⟩
    · exact ⟨nofun, rfl⟩
    · exact sink.own
    · exact inv.earlier (by rw [phase]; nofun)
    · rw [inv.loop, phase]
      rfl
    · exact (channel_seated sink).trans (channel_seated seat).symm
    · rfl
  · cases taken

theorem inv_answer (taken : step cfg s .answer = some s') : Inv cfg offsets s' := by
  simp only [step] at taken
  split at taken
  · rename_i phase
    cases taken
    have seat := inv.seat
    rw [phase] at seat
    apply inv.setUp
    · rw [phase]
      exact ⟨nofun, rfl⟩
    · exact ⟨nofun, rfl⟩
    · exact seat
    · exact inv.earlier (by rw [phase]; nofun)
    · rfl
    · rfl
    · rfl
  · cases taken

/-- **The replay turns to a partition**, or is over. -/
theorem Inv.enter {q : Nat} (before : s.phase.serving = true) (unfinished : s.phase ≠ .finished)
    (owed : ∀ x ∈ s.publishes, x.live = true → x.msg.partition < q)
    (parts : ∀ p < cfg.partCount, Part.Entering cfg s q p (start cfg offsets p)) :
    Inv cfg offsets { s with phase := replayFrom cfg q } := by
  have earlier : s.earlier = 0 := by
    apply inv.earlier
    intro received
    rw [received] at before
    cases before
  have loop : s.loop = .waiting := by
    rw [inv.loop, before]
    rfl
  have seated := inv.seated (sinkless_of_serving before)
  unfold replayFrom
  split
  · rename_i more
    refine { inv with seat := ⟨seated, more, rfl⟩, earlier := fun _ => earlier, loop := loop,
                      committed := fun _ => inv.committed unfinished, owed := ?_, parts := ?_ }
    · intro x mem live
      exact ⟨decide_eq_true (owed x mem live), (inv.owed x mem live).2⟩
    · intro p below
      obtain ⟨wf, nonneg, above, relays⟩ := parts p below
      refine ⟨wf, nonneg, ?_, fun _ => above⟩
      show Relays wf.view (shown p) _ (s.handed cfg p)
        (if (p : Int) < q then .live (s.due p) else if (p : Int) = q then .reading 0 [] else .idle)
      by_cases passed : p < q
      · grind
      · rw [if_neg passed] at relays
        rw [if_neg (by omega)]
        grind [Relays.begin]
  · rename_i last
    refine { inv with seat := seated, earlier := fun _ => earlier, loop := loop,
                      committed := fun other => absurd rfl other, owed := ?_, parts := ?_ }
    · intro x mem live
      exact ⟨rfl, (inv.owed x mem live).2⟩
    · intro p below
      obtain ⟨wf, nonneg, above, relays⟩ := parts p below
      rw [if_pos (by omega)] at relays
      exact ⟨wf, nonneg, relays, Bool.noConfusion⟩

/-- **The decision about the replay** is right if the group can be resumed so. -/
theorem inv_check (resumable : s.Resumable cfg) (taken : step cfg s .check = some s') :
    Inv cfg offsets s' := by
  simp only [step] at taken
  split at taken
  · rename_i phase
    cases taken
    have unfinished : s.phase ≠ .finished := by
      rw [phase]
      nofun
    have noReplay : s.phase.isReplay = false := by rw [phase]; rfl
    have serving : s.phase.serving = true := by rw [phase]; rfl
    have idle : ∀ x ∈ s.publishes, x.live = false := by
      intro x mem
      cases live : x.live with
      | false => rfl
      | true =>
        have replayed := (inv.owed x mem live).1
        grind [replayed_false]
    have here := inv.committed unfinished
    unfold State.Resumable at resumable
    rw [here] at resumable
    split
    · rename_i committed
      refine { inv with seat := inv.seated (sinkless_of_serving serving), earlier := ?_, loop := ?_,
                        committed := nofun, owed := ?_, parts := ?_ }
      · intro _
        exact inv.earlier (by rw [phase]; nofun)
      · rw [inv.loop, serving]
        rfl
      · grind
      · intro p below
        have part := inv.parts p below
        have relays := part.relays
        rw [stage_idle unfinished noReplay] at relays
        obtain ⟨low, late⟩ := resumable p below
        simp only [committed, if_true] at late
        have none : s.due p = [] :=
          due_nil (fun x mem live => (inv.owed x mem live).1) (replayed_false unfinished noReplay)
        refine ⟨part.wf, part.nonneg, ?_, nofun⟩
        show Relays part.wf.view _ _ (s.handed cfg p) (.live (s.due p))
        rw [none]
        exact relays.skip low (@view_records _ _ part.wf (· < start cfg offsets p) late)
    · rename_i fresh
      apply inv.enter serving unfinished
      · intro x mem live
        rw [idle x mem] at live
        cases live
      · intro p below
        have part := inv.parts p below
        have relays := part.relays
        rw [stage_idle unfinished noReplay] at relays
        obtain ⟨low, early⟩ := resumable p below
        simp only [fresh, if_false, Bool.false_eq_true] at early
        exact ⟨part.wf, part.nonneg, ⟨low, view_records part.wf early⟩, relays⟩
  · cases taken

theorem Inv.replaying {q : Nat} {offset offset' : Int} {batch batch' : List Message}
    {attempts : Nat} {m : Manager} (phase : s.phase = .replaying q offset batch attempts)
    (seated : Seated cfg m (some (channel cfg m))) (room : (channel cfg m).length < pushCapacity)
    (kept : m.offsets = s.manager.offsets) (others : ∀ p : Nat, p ≠ q →
      ({ s with manager := m, phase := .replaying q offset' batch' 0 } : State).handed cfg p =
        s.handed cfg p) (relays : ∀ part : Part cfg s q (start cfg offsets q),
      Relays part.wf.view (shown q) (start cfg offsets q)
        (({ s with manager := m, phase := .replaying q offset' batch' 0 } : State).handed cfg q)
        (.reading offset' (batch'.map (shown q)))) :
    Inv cfg offsets { s with manager := m, phase := .replaying q offset' batch' 0 } := by
  have seat := inv.seat
  rw [phase] at seat
  have isReplay : s.phase.isReplay = true := by rw [phase]; rfl
  refine { seat := ⟨seated, seat.2.1, rfl⟩, earlier := ?_, loop := ?_, room := room,
           committed := ?_, owed := ?_, parts := ?_ }
  · grind [earlier]
  · rw [inv.loop, phase]
    rfl
  · intro _
    exact kept.trans (inv.committed (by rw [phase]; simp))
  · intro x mem live
    have owed := inv.owed x mem live
    grind [State.replayed]
  · intro p below
    have part := inv.parts p below
    by_cases same : p = q
    · subst same
      refine ⟨part.wf, part.nonneg, ?_, fun _ => part.above isReplay⟩
      rw [stage_replaying rfl, if_neg (lt_irrefl p), if_pos rfl]
      exact relays part
    · apply part.frame
      · rfl
      · exact others p same
      · rw [stage_replaying rfl, stage_replaying phase, if_neg same, if_neg same]
        rfl
      · exact fun _ => isReplay

/-- The first read that finds nothing ends the replay of a partition. -/
theorem Inv.partition_read {q : Nat} {offset : Int} {attempts : Nat}
    (phase : s.phase = .replaying q offset [] attempts)
    (nothing : ∀ part : Part cfg s q (start cfg offsets q), part.wf.view.read offset 100 = []) :
    Inv cfg offsets { s with phase := replayFrom cfg (q + 1) } := by
  have isReplay : s.phase.isReplay = true := by rw [phase]; rfl
  apply inv.enter (by rw [phase]; rfl) (by rw [phase]; nofun)
  · intro x mem live
    have replayed := (inv.owed x mem live).1
    grind [State.replayed]
  · intro p below
    have part := inv.parts p below
    have relays := part.relays
    rw [stage_replaying phase] at relays
    refine ⟨part.wf, part.nonneg, part.above isReplay, ?_⟩
    by_cases same : p = q
    · subst same
      rw [if_neg (lt_irrefl p), if_pos rfl] at relays
      have none : s.due p = [] := by
        apply due_nil fun x mem live => (inv.owed x mem live).1
        simp [State.replayed, phase]
      rw [if_pos (Nat.lt_succ_self p), none]
      exact relays.drained (by decide) (nothing part)
    grind

/-- **A read of the replay** hands on the partition, or ends it. -/
theorem inv_read (taken : step cfg s .read = some s') : Inv cfg offsets s' := by
  simp only [step] at taken
  split at taken
  · rename_i q offset attempts phase
    have seat := inv.seat
    rw [phase] at seat
    obtain ⟨seated, more, -⟩ := seat
    obtain ⟨msgs, read, entries⟩ := (inv.parts q more).wf.read_view offset 100
    simp only [read] at taken
    split at taken
    · rename_i nothing
      cases taken
      rw [getLast?_eq_none_iff.mp nothing, map_nil] at entries
      exact inv.partition_read phase fun _ => entries.symm
    · rename_i last final
      cases taken
      apply inv.replaying phase seated inv.room rfl
      · exact fun _ _ => rfl
      · intro part
        have final' : (part.wf.view.read offset 100).getLast? = some (entry last) := by grind
        have batch : (part.wf.view.read offset 100).map (fun e => shown q e.2) =
            msgs.map (shown q) := by
          rw [← entries, map_map]
          rfl
        have relays := part.relays
        rw [stage_replaying phase, if_neg (lt_irrefl q), if_pos rfl] at relays
        have moved := relays.read final'
        rw [batch] at moved
        exact moved
  · cases taken

/-- **The replay hands out the first of its batch.** -/
theorem inv_replay (room : s.Room cfg) (taken : step cfg s .replay = some s') :
    Inv cfg offsets s' := by
  simp only [step] at taken
  split at taken
  · rename_i q offset msg rest attempts phase
    cases taken
    have seat := inv.seat
    rw [phase] at seat
    obtain ⟨seated, more, rfl⟩ := seat
    have space : (channel cfg s.manager).length < pushCapacity := Nat.lt_of_succ_lt room
    obtain ⟨done, seated⟩ := offer_push seated space 0 more msg
    have pushed := channel_seated seated
    have replayed : s.replay cfg q offset msg rest 0 = { s with
        manager := (offer cfg s.manager 0 q msg).1
        phase := .replaying q offset rest 0 } := by
      unfold State.replay
      simp only [done, if_true]
    rw [replayed]
    have handed := fun p => @handed_push cfg s { s with
        manager := (offer cfg s.manager 0 q msg).1
        phase := .replaying q offset rest 0 } _ _ q pushed rfl rfl p
    apply inv.replaying phase seated.own
    · simp only [pushed, Option.getD_some, length_append, length_singleton]
      exact room
    · exact offer_offsets ..
    · simp [handed]
    · intro part
      have relays := part.relays
      rw [stage_replaying phase, if_neg (lt_irrefl q), if_pos rfl] at relays
      rw [handed q, if_pos rfl]
      exact relays.hand
  · cases taken

/-! ## The delivery loop -/

theorem sinkless_channel (sink : s.phase.sinkless = true) : channel cfg s.manager = [] := by
  have seat := inv.seat
  cases phase : s.phase with
  | received =>
    rw [phase] at seat
    exact channel_vacant seat
  | joined =>
    rw [phase] at seat
    exact channel_seated seat
  | _ => simp [phase, Phase.sinkless] at sink

theorem inv_push (taken : step cfg s .push = some s') : Inv cfg offsets s' := by
  simp only [step] at taken
  split at taken
  · rename_i msg rest waiting queue
    have sink : s.phase.sinkless = false := by
      cases sink : s.phase.sinkless with
      | false => rfl
      | true => simp [sinkless_channel inv sink] at queue
    have room := inv.room
    rw [queue, length_cons] at room
    rw [if_neg (by omega)] at taken
    cases taken
    have seated := inv.seated sink
    rw [queue] at seated
    have taken := seated.take
    have left := channel_seated taken
    refine { inv with seat := inv.seat.move sink taken.own, room := ?_, parts := ?_ }
    · simp [left]; omega
    · intro p below
      apply (inv.parts p below).frame
      · rfl
      · simp [State.handed, queue, left]
      · rfl
      · exact id
  · cases taken

theorem inv_resume (taken : step cfg s .resume = some s') : Inv cfg offsets s' := by
  grind [step, Inv.loop]

theorem inv_commit {p offset : Int} (taken : step cfg s (.commit p offset) = some s') :
    Inv cfg offsets s' := by
  simp only [step] at taken
  split at taken
  · rename_i phase
    split at taken
    · cases taken
      exact inv
    · rename_i manager done
      cases taken
      rw [Manager.commitOffset_eq done]
      have parts := inv.parts
      exact { inv with
        committed := fun unfinished => absurd phase unfinished
        parts := fun p below => (parts p below).frame rfl rfl rfl id }
  · cases taken

theorem inv_earlierEnds (taken : step cfg s .earlierEnds = some s') : Inv cfg offsets s' := by
  simp only [step] at taken
  split at taken
  · cases taken
  · rename_i k count
    have received : s.phase = .received := by grind [Inv.earlier]
    cases taken
    have seat := inv.seat
    rw [received] at seat
    have left := unsubscribe_vacant seat
    have empty := (channel_vacant left).trans (channel_vacant seat).symm
    refine { inv with seat := ?_, earlier := fun later => absurd received later, loop := ?_,
                      room := ?_, parts := ?_ }
    · rw [received]
      exact left
    · rw [if_pos received]
      exact inv.loop
    · rw [empty]
      exact inv.room
    · intro p below
      apply (inv.parts p below).frame
      · rfl
      · unfold State.handed
        rw [empty]
      · rfl
      · exact id

/-- **Every step keeps the invariant.** -/
theorem inv_step {e : Event} (allowed : Allowed cfg s e) (taken : step cfg s e = some s') :
    Inv cfg offsets s' := by
  obtain ⟨orderly, resumable⟩ := allowed
  cases e with
  | append p now msg => exact inv_append inv orderly taken
  | repeated msg => exact inv_repeated inv taken
  | abandon i => exact inv_abandon inv orderly taken
  | deliver i now => exact inv_deliver inv orderly taken
  | join => exact inv_join inv orderly taken
  | setSink => exact inv_setSink inv taken
  | answer => exact inv_answer inv taken
  | check => exact inv_check inv (resumable rfl) taken
  | read => exact inv_read inv taken
  | replay => exact inv_replay inv orderly taken
  | push => exact inv_push inv taken
  | resume => exact inv_resume inv taken
  | commit p offset => exact inv_commit inv taken
  | earlierEnds => exact inv_earlierEnds inv taken

end

end PubsubBroker.Consumers.Push
