/-
# Replica.Replicator — copying a partition from a leader to a follower

`internal/cluster/replicator.go`, for one partition and one follower.  The leader
remembers the next offset to send and pushes the records from there on; the
follower may also ask for them.  The follower skips records below its own next
offset and appends the others *at its own next offset*, without comparing the two:
the copy agrees with the leader only as long as the first record it does not have
is the one at its next offset.

Messages stay in the network until they are dropped, and any of them may be
delivered at any time and any number of times, so loss, duplication and reordering
are all runs.  `Inv` says why agreement survives them: whatever is in flight has no
hole at or behind the follower's next offset.  Holes come from sweeps of the leader
that outrun the follower, and from a failed append with a successful one behind it;
`Allowed` excludes both.
-/
import PubsubBroker.Storage.Refinement
import PubsubBroker.Theory.Transition

namespace PubsubBroker.Replica

open Theory Storage List

namespace Replicator

inductive Packet where
  | fetch (fromOffset : Int)
  | data (msgs : List Message)
  | ack (offset : Int)
deriving DecidableEq

/-- Both nodes and the network.  `followerOffset` is the leader's entry for the
follower; `written` is what the leader ever appended, in order. -/
structure System where
  leader : PartitionLog
  written : List Message
  followerOffset : Int
  follower : PartitionLog
  network : List Packet

def System.new (leader follower : PartitionLog) : System := ⟨leader, [], 0, follower, []⟩

def batchSize : Int := 256

/-- What the leader sends to a follower that is at `fromOffset`. -/
def push (K : Codecs) (leader : PartitionLog) (fromOffset : Int) : List Packet :=
  if fromOffset ≥ leader.nextOffset then []
  else
    match leader.read K fromOffset batchSize with
    | .ok (m :: ms) => [.data (m :: ms)]
    | _ => []

/-- The loop of `handleData`: the log and the highest offset behind it.  Each
append takes its outcome from the list: the clock reading, or a failure that
leaves the log as it was; where the list ends, appends fail. -/
def handleData (K : Codecs) : PartitionLog → Int → List Message → List (Option Int) →
    PartitionLog × Int
  | pl, highest, [], _ => (pl, highest)
  | pl, highest, m :: ms, outcomes =>
    if m.offset < pl.nextOffset then handleData K pl (max highest m.offset) ms outcomes
    else
      match outcomes.headD none with
      | some now =>
        handleData K (pl.append K now m).1 (max highest (pl.append K now m).2) ms outcomes.tail
      | none => handleData K pl highest ms outcomes.tail

/-- The acknowledgement, if anything was written or skipped. -/
def acknowledge (highest : Int) : List Packet := if highest < 0 then [] else [.ack highest]

inductive Event where
  | leader (op : Op)
  | push
  | fetch
  | deliver (i : Nat) (outcomes : List (Option Int))
  | drop (i : Nat)

/-- What an operation adds to the leader's history. -/
def appended (leader : PartitionLog) : Op → List Message
  | .append _ msg => [msg.setOffset leader.nextOffset]
  | _ => []

/-- `OnMessage` of the node the packet is for. -/
def receive (K : Codecs) (s : System) (outcomes : List (Option Int)) : Packet → System
  | .fetch fromOffset =>
    { s with
      followerOffset := fromOffset
      network := s.network ++ push K s.leader fromOffset }
  | .data msgs =>
    { s with
      follower := (handleData K s.follower (-1) msgs outcomes).1
      network := s.network ++ acknowledge (handleData K s.follower (-1) msgs outcomes).2 }
  | .ack offset => { s with followerOffset := offset + 1 }

def step (K : Codecs) (s : System) : Event → Option System
  | .leader op =>
    some { s with
      leader := (s.leader.step K op).1
      written := s.written ++ appended s.leader op }
  | .push => some { s with network := s.network ++ push K s.leader s.followerOffset }
  | .fetch => some { s with network := s.network ++ [.fetch s.follower.nextOffset] }
  | .deliver i outcomes => (s.network[i]?).map (receive K s outcomes)
  | .drop i => some { s with network := s.network.eraseIdx i }

/-- Behind a failed append nothing is appended. -/
def Orderly (outcomes : List (Option Int)) : Prop :=
  outcomes.Pairwise fun first later => first = none → later = none
deriving Decidable

/-- A sweep of the leader waits until the follower has all sealed records. -/
def CaughtUp (s : System) : Op → Prop
  | .compact _ => s.leader.active.baseOffset ≤ s.follower.nextOffset
  | .compactPartition _ => s.leader.active.baseOffset ≤ s.follower.nextOffset
  | _ => True

/-- What the storage can carry out, and the two conditions. -/
def Allowed (K : Codecs) (s : System) : Event → Prop
  | .leader op => op.Admissible K ∧ IsInt64 s.leader.nextOffset ∧ CaughtUp s op
  | .deliver _ outcomes => Orderly outcomes ∧ ∀ outcome ∈ outcomes, ∀ now ∈ outcome, IsInt64 now
  | _ => True

/-- **Agreement.**  Every record of the follower is the one the leader wrote at
that offset, and whoever acknowledged an offset has every record of the leader up
to it. -/
structure Agrees (K : Codecs) (s : System) : Prop where
  copies : ∀ r ∈ s.follower.records K, ∃ m ∈ s.written, m.offset = r.offset ∧ r.msg = m
  acks : ∀ o, .ack o ∈ s.network → ∀ r ∈ s.leader.records K, r.offset ≤ o →
    ∃ r' ∈ s.follower.records K, r'.offset = r.offset ∧ r'.msg = r.msg

/-! ## What is in flight -/

section Flight

variable {K : Codecs} {written : List Message} {m : Message} {ms msgs : List Message}

/-- Records of the leader in offset order, with no hole at or behind `next`. -/
structure Gapless (written : List Message) (next : Int) (msgs : List Message) : Prop where
  sorted : msgs.Pairwise fun a b => a.offset < b.offset
  written : ∀ m ∈ msgs, ∃ n : Nat, m.offset = n ∧ written[n]? = some m
  covers : ∀ m ∈ msgs, ∀ o, next ≤ o → o ≤ m.offset → ∃ m' ∈ msgs, m'.offset = o

def Packet.Good (written : List Message) (next : Int) : Packet → Prop
  | .fetch fromOffset => 0 ≤ fromOffset ∧ fromOffset ≤ next
  | .data msgs => Gapless written next msgs
  | .ack offset => 0 ≤ offset ∧ offset < next

theorem Packet.Good.mono {packet : Packet} {next next' : Int} (good : packet.Good written next)
    (le : next ≤ next') (more : List Message) : packet.Good (written ++ more) next' := by
  cases packet with
  | fetch fromOffset => exact ⟨good.1, le_trans good.2 le⟩
  | ack offset => exact ⟨good.1, lt_of_lt_of_le good.2 le⟩
  | data msgs =>
    refine ⟨good.sorted, ?_, ?_⟩
    · intro m mem
      obtain ⟨n, offset, at_n⟩ := good.written m mem
      grind
    · intro m mem o low
      exact good.covers m mem o (le_trans le low)

theorem Gapless.skip {next : Int} (gapless : Gapless written next (m :: ms))
    (old : m.offset < next) : Gapless written next ms where
  sorted := gapless.sorted.of_cons
  written m' mem := gapless.written m' (mem_cons_of_mem _ mem)
  covers := by
    grind [covers]

/-- **The first record that is not old is the next one.** -/
theorem Gapless.head_eq {next : Int} (gapless : Gapless written next (m :: ms))
    (new : next ≤ m.offset) : m.offset = next := by
  obtain ⟨found, at_next, offset⟩ := gapless.covers m mem_cons_self next (le_refl _) new
  cases at_next with
  | head => exact offset
  | tail _ later =>
    have := rel_of_pairwise_cons gapless.sorted later
    omega

theorem Gapless.take {next : Int} (gapless : Gapless written next (m :: ms))
    (here : m.offset = next) : Gapless written (next + 1) ms := by
  have wider : Gapless written (next + 1) (m :: ms) :=
    ⟨gapless.sorted, gapless.written,
      fun m' mem o low => gapless.covers m' mem o (by omega)⟩
  exact wider.skip (by omega)

theorem handleData_refused {pl : PartitionLog} {outcomes : List (Option Int)} {highest : Int}
    (refused : ∀ outcome ∈ outcomes, outcome = none)
    (bound : -1 ≤ highest ∧ highest < pl.nextOffset) :
    (handleData K pl highest msgs outcomes).1 = pl ∧
      -1 ≤ (handleData K pl highest msgs outcomes).2 ∧
      (handleData K pl highest msgs outcomes).2 < pl.nextOffset := by
  induction msgs generalizing highest outcomes with
  | nil => exact ⟨rfl, bound⟩
  | cons m ms ih =>
    rw [handleData]
    split
    · exact ih refused (by omega)
    · have fails : outcomes.headD none = none := by
        cases outcomes with
        | nil => rfl
        | cons outcome rest => exact refused outcome mem_cons_self
      rw [fails]
      exact ih (fun outcome mem => refused outcome (mem_of_mem_tail mem)) bound

theorem dense_append (writable : ∀ m ∈ written, Writable K m) (few : written.length ≤ 2 ^ 63)
    {pl : PartitionLog} {n : Nat} (dense : pl.Dense K (written.take n)) (le : n ≤ written.length)
    (known : ∃ k : Nat, m.offset = k ∧ written[k]? = some m) (here : m.offset = n) {now : Int}
    (now64 : IsInt64 now) :
    (pl.append K now m).1.Dense K (written.take (n + 1)) ∧ n + 1 ≤ written.length ∧
      (pl.append K now m).2 = n := by
  obtain ⟨k, offset, at_k⟩ := known
  have same : k = n := by omega
  subst same
  have inside : k < written.length := (List.getElem?_eq_some_iff.mp at_k).1
  have length : (written.take k).length = k := by rw [length_take, min_eq_left le]
  have next64 : IsInt64 pl.nextOffset := by
    rw [dense.next, length]
    exact ⟨by omega, by omega⟩
  obtain ⟨dense', assigned⟩ := dense.append (writable m (mem_of_getElem? at_k)) now64 next64
  have grown : written.take k ++ [m.setOffset (written.take k).length] =
      written.take (k + 1) := by
    rw [take_add_one, at_k, length, ← offset]
    rfl
  rw [grown] at dense'
  rw [length] at assigned
  exact ⟨dense', inside, assigned⟩

/-- **A data message extends the copy.**  The follower, which has the first `n`
records, has at least as many afterwards, and acknowledges one of them. -/
theorem handleData_dense (writable : ∀ m ∈ written, Writable K m)
    (few : written.length ≤ 2 ^ 63) {pl : PartitionLog} {n : Nat} {highest : Int}
    {outcomes : List (Option Int)} (dense : pl.Dense K (written.take n))
    (le : n ≤ written.length) (gapless : Gapless written n msgs) (orderly : Orderly outcomes)
    (clocks : ∀ outcome ∈ outcomes, ∀ now ∈ outcome, IsInt64 now) (bound : -1 ≤ highest ∧ highest < n) :
    ∃ n' : Nat, n ≤ n' ∧ n' ≤ written.length ∧
      (handleData K pl highest msgs outcomes).1.Dense K (written.take n') ∧
      -1 ≤ (handleData K pl highest msgs outcomes).2 ∧
      (handleData K pl highest msgs outcomes).2 < n' := by
  induction msgs generalizing pl n highest outcomes with
  | nil => exact ⟨n, le_refl _, le, dense, bound⟩
  | cons m ms ih =>
    have next : pl.nextOffset = n := by
      rw [dense.next, length_take, min_eq_left le]
    rw [handleData, next]
    split
    · rename_i old
      exact ih dense le (gapless.skip old) orderly clocks (by omega)
    · rename_i new
      have here := gapless.head_eq (not_lt.mp new)
      cases outcomes with
      | nil =>
        obtain ⟨same, low, high⟩ := @handleData_refused K ms pl [] highest (by simp)
          (by rw [next]; exact bound)
        rw [next] at high
        exact ⟨n, le_refl _, le, same.symm ▸ dense, low, high⟩
      | cons outcome rest =>
        cases outcome with
        | none =>
          -- nothing behind the failure is appended
          have refused : ∀ outcome ∈ rest, outcome = none := fun outcome mem =>
            rel_of_pairwise_cons orderly mem rfl
          obtain ⟨same, low, high⟩ := @handleData_refused K ms pl rest highest refused
            (by rw [next]; exact bound)
          rw [next] at high
          exact ⟨n, le_refl _, le, same.symm ▸ dense, low, high⟩
        | some now =>
          obtain ⟨dense', inside, assigned⟩ := dense_append writable few dense le
            (gapless.written m mem_cons_self) here (clocks _ mem_cons_self now rfl)
          have bound' : -1 ≤ max highest (pl.append K now m).2 ∧
              max highest (pl.append K now m).2 < ((n + 1 : Nat) : Int) := by
            rw [assigned]
            omega
          obtain ⟨n', more, rest⟩ := ih dense' inside (gapless.take here) orderly.of_cons
            (fun outcome mem => clocks outcome (mem_cons_of_mem _ mem)) bound'
          exact ⟨n', by omega, rest⟩

end Flight

/-! ## Agreement over a run -/

section Run

variable {K : Codecs} {s s' : System}

/-- The leader's log holds what it wrote, with holes only where the follower has
copies; the follower has the first part of it; and so does everything in flight. -/
structure Inv (K : Codecs) (s : System) : Prop where
  wf : s.leader.WellFormed K
  next : s.leader.nextOffset = s.written.length
  few : s.written.length ≤ 2 ^ 63
  writable : ∀ m ∈ s.written, Writable K m
  held : ∀ e ∈ wf.view.entries, ∃ n : Nat, e.1 = n ∧ s.written[n]? = some e.2
  present : ∀ n : Nat, s.follower.nextOffset ≤ n → n < s.written.length →
    ∃ e ∈ wf.view.entries, e.1 = n
  copied : ∃ n ≤ s.written.length, s.follower.Dense K (s.written.take n)
  followerOffset : 0 ≤ s.followerOffset ∧ s.followerOffset ≤ s.follower.nextOffset
  packets : ∀ packet ∈ s.network, packet.Good s.written s.follower.nextOffset

theorem Inv.network_append (inv : Inv K s) {more : List Packet}
    (good : ∀ packet ∈ more, packet.Good s.written s.follower.nextOffset) :
    Inv K { s with network := s.network ++ more } := by
  refine { inv with packets := ?_ }
  intro packet mem
  cases mem_append.mp mem with
  | inl old => exact inv.packets packet old
  | inr new => exact good packet new

/-- **What the leader sends has no hole** that the follower would see. -/
theorem Inv.push_good (inv : Inv K s) {fromOffset : Int}
    (behind : fromOffset ≤ s.follower.nextOffset) :
    ∀ packet ∈ push K s.leader fromOffset, packet.Good s.written s.follower.nextOffset := by
  intro packet mem
  obtain ⟨msgs, read, entries⟩ := inv.wf.read_view fromOffset batchSize
  have returned : ∀ m ∈ msgs, entry m ∈ inv.wf.view.read fromOffset batchSize := by grind
  unfold push at mem
  split at mem
  · cases mem
  · rw [read] at mem
    split at mem
    · rename_i m ms eq
      cases eq
      rw [mem_singleton.mp mem]
      refine ⟨?_, ?_, ?_⟩
      · have sorted := inv.wf.view.sorted.sublist (inv.wf.view.read_sublist fromOffset batchSize)
        rw [← entries, pairwise_map] at sorted
        exact sorted
      · intro m' mem'
        exact inv.held (entry m') ((inv.wf.view.read_sublist _ _).subset (returned m' mem'))
      · intro m' mem' o low high
        obtain ⟨n, offset, at_n⟩ :=
          inv.held (entry m') ((inv.wf.view.read_sublist _ _).subset (returned m' mem'))
        have below : n < s.written.length := (List.getElem?_eq_some_iff.mp at_n).1
        have offset : m'.offset = n := offset
        obtain ⟨k, dense⟩ := inv.copied
        have nonneg : 0 ≤ s.follower.nextOffset := by
          rw [dense.2.next]
          omega
        obtain ⟨e, at_e, same⟩ := inv.present o.toNat (by omega) (by omega)
        have same : e.1 = o := by omega
        have found : e ∈ inv.wf.view.read fromOffset batchSize :=
          SparseLog.mem_read at_e (by omega) (returned m' mem') (by rw [same]; exact high)
        rw [← entries] at found
        obtain ⟨m'', at_m'', rfl⟩ := mem_map.mp found
        exact ⟨m'', at_m'', same⟩
    · cases mem

theorem Inv.extends (inv : Inv K s) {leader : PartitionLog} {msg : Message}
    (wf : leader.WellFormed K) (step : inv.wf.view.Extends wf.view (msg.setOffset s.leader.nextOffset))
    (writable : Writable K msg) (next64 : IsInt64 s.leader.nextOffset) :
    Inv K { s with
      leader := leader
      written := s.written ++ [msg.setOffset s.leader.nextOffset] } := by
  have next : s.leader.nextOffset = s.written.length := inv.next
  have room := next64.2
  obtain ⟨n, le, dense⟩ := inv.copied
  refine ⟨wf, ?_, ?_, ?_, ?_, ?_, ?_, inv.followerOffset, ?_⟩
  · rw [length_append, length_singleton]
    show wf.view.next = _
    rw [step.next]
    push_cast
    exact congrArg (· + 1) next
  · simp; omega
  · grind [writable, Writable.setOffset]
  · intro e mem
    rw [step.entries] at mem
    cases mem_append.mp mem with
    | inl old =>
      obtain ⟨k, offset, at_k⟩ := inv.held e old
      grind
    | inr new =>
      rw [mem_singleton.mp new]
      exact ⟨s.written.length, next, getElem?_concat_length⟩
  · intro k low high
    rw [length_append, length_singleton] at high
    rw [step.entries]
    by_cases old : k < s.written.length
    · obtain ⟨e, mem, offset⟩ := inv.present k low old
      grind
    · refine ⟨_, mem_append_right _ (mem_singleton_self _), ?_⟩
      show s.leader.nextOffset = k
      omega
  · refine ⟨n, by rw [length_append]; omega, ?_⟩
    grind
  · intro packet mem
    exact (inv.packets packet mem).mono (le_refl _) _

theorem Inv.keeps (inv : Inv K s) {leader : PartitionLog} (wf : leader.WellFormed K)
    (next : leader.nextOffset = s.leader.nextOffset)
    (sublist : wf.view.entries.Sublist inv.wf.view.entries)
    (kept : ∀ e ∈ inv.wf.view.entries, s.follower.nextOffset ≤ e.1 → e ∈ wf.view.entries) :
    Inv K { s with leader := leader, written := s.written ++ [] } := by
  rw [append_nil]
  refine { inv with wf := wf, next := next.trans inv.next, held := ?_, present := ?_ }
  · grind [held]
  · grind [present]

theorem Inv.trims (inv : Inv K s) {leader : PartitionLog} (wf : leader.WellFormed K)
    (step : inv.wf.view.Trims wf.view)
    (caughtUp : s.leader.active.baseOffset ≤ s.follower.nextOffset) :
    Inv K { s with leader := leader, written := s.written ++ [] } :=
  inv.keeps wf step.next step.sublist fun e mem low =>
    step.kept e mem (le_trans caughtUp low)

theorem Inv.leader (inv : Inv K s) {op : Op} (admissible : op.Admissible K)
    (next64 : IsInt64 s.leader.nextOffset) (caughtUp : CaughtUp s op) :
    Inv K { s with
      leader := (s.leader.step K op).1
      written := s.written ++ appended s.leader op } := by
  obtain ⟨wf, spec⟩ := step_refines inv.wf op admissible next64
  have same : wf.view = inv.wf.view →
      Inv K { s with leader := (s.leader.step K op).1, written := s.written ++ [] } := by
    intro same
    refine inv.keeps wf (congrArg SparseLog.next same) ?_ ?_
    · rw [same]
    · grind
  cases op with
  | append now msg => exact inv.extends wf spec.effect admissible.1 next64
  | compact sweep | compactPartition sweep => exact inv.trims wf spec.effect caughtUp
  | _ => exact same spec.effect

theorem Inv.handleData (inv : Inv K s) {msgs : List Message} {outcomes : List (Option Int)}
    (gapless : Gapless s.written s.follower.nextOffset msgs) (orderly : Orderly outcomes)
    (clocks : ∀ outcome ∈ outcomes, ∀ now ∈ outcome, IsInt64 now) :
    Inv K (receive K s outcomes (.data msgs)) := by
  obtain ⟨n, le, dense⟩ := inv.copied
  have next : s.follower.nextOffset = n := by
    rw [dense.next, length_take, min_eq_left le]
  rw [next] at gapless
  obtain ⟨n', more, le', dense', low, high⟩ := handleData_dense inv.writable inv.few dense le
    gapless orderly clocks (show -1 ≤ (-1 : Int) ∧ (-1 : Int) < n by omega)
  have next' : (Replicator.handleData K s.follower (-1) msgs outcomes).1.nextOffset = n' := by
    rw [dense'.next, length_take, min_eq_left le']
  have grows : s.follower.nextOffset ≤
      (Replicator.handleData K s.follower (-1) msgs outcomes).1.nextOffset := by
    rw [next, next']
    exact_mod_cast more
  refine { inv with present := ?_, copied := ⟨n', le', dense'⟩, followerOffset := ?_, packets := ?_ }
  · intro k behind
    exact inv.present k (le_trans grows behind)
  · exact ⟨inv.followerOffset.1, le_trans inv.followerOffset.2 grows⟩
  · intro packet mem
    cases mem_append.mp mem with
    | inl old =>
      have good := (inv.packets packet old).mono grows []
      rwa [append_nil] at good
    | inr new =>
      unfold acknowledge at new
      split at new
      · cases new
      · rw [mem_singleton.mp new]
        exact ⟨by omega, lt_of_lt_of_eq high next'.symm⟩

/-- **Every step keeps the invariant.** -/
theorem inv_step {e : Event} (inv : Inv K s) (allowed : Allowed K s e)
    (taken : step K s e = some s') : Inv K s' := by
  cases e with
  | leader op =>
    cases taken
    exact inv.leader allowed.1 allowed.2.1 allowed.2.2
  | push =>
    cases taken
    exact inv.network_append (inv.push_good inv.followerOffset.2)
  | fetch =>
    cases taken
    apply inv.network_append
    intro packet mem
    rw [mem_singleton.mp mem]
    exact ⟨le_trans inv.followerOffset.1 inv.followerOffset.2, le_refl _⟩
  | deliver i outcomes =>
    obtain ⟨packet, at_i, rfl⟩ := Option.map_eq_some_iff.mp taken
    have good := inv.packets packet (mem_of_getElem? at_i)
    cases packet with
    | fetch fromOffset =>
      have moved : Inv K { s with followerOffset := fromOffset } :=
        { inv with followerOffset := good }
      exact moved.network_append (inv.push_good good.2)
    | data msgs => exact inv.handleData good allowed.1 allowed.2
    | ack offset =>
      have bounds : 0 ≤ offset ∧ offset < s.follower.nextOffset := good
      have moved : 0 ≤ offset + 1 ∧ offset + 1 ≤ s.follower.nextOffset := by omega
      exact { inv with followerOffset := moved }
  | drop i =>
    cases taken
    refine { inv with packets := ?_ }
    grind [Inv.packets, mem_of_mem_eraseIdx]

theorem Inv.agrees (inv : Inv K s) : Agrees K s := by
  obtain ⟨n, le, dense⟩ := inv.copied
  have next : s.follower.nextOffset = n := by
    rw [dense.next, length_take, min_eq_left le]
  constructor
  · intro r mem
    have copy : r.msg ∈ s.written.take n := by
      rw [← dense.messages]
      exact mem_map_of_mem mem
    exact ⟨r.msg, mem_of_mem_take copy, (dense.wellFormed.records_readable mem).msg_offset, rfl⟩
  · intro o acked r mem low
    have bound : 0 ≤ o ∧ o < s.follower.nextOffset := inv.packets _ acked
    have offset := (inv.wf.records_readable mem).msg_offset
    have entries : entry r.msg ∈ inv.wf.view.entries := by
      rw [inv.wf.view_entries]
      exact mem_map.mpr ⟨r, mem, rfl⟩
    obtain ⟨k, at_offset, at_k⟩ := inv.held _ entries
    have at_offset : r.msg.offset = k := at_offset
    have copy : r.msg ∈ s.written.take n := by
      refine mem_of_getElem? (i := k) ?_
      rw [getElem?_take_of_lt (by omega), at_k]
      rfl
    rw [← dense.messages] at copy
    obtain ⟨r', mem', same⟩ := mem_map.mp copy
    refine ⟨r', mem', ?_, same⟩
    rw [← (dense.wellFormed.records_readable mem').msg_offset, same, offset]

end Run

/-! ## Runs of the model -/

/-- A message with one byte of key and payload. -/
def sampleMessage (key payload : UInt8) (offset : Int) : Message :=
  ⟨"m", "t", 0, [payload], [], [key], 0, offset, 0⟩

def sampleCodecs : Codecs where
  marshal m := m.key.headD 0 :: m.payload.headD 0 :: leBytes 8 (uint64 m.offset)
  unmarshal bytes :=
    match bytes with
    | key :: payload :: rest => some (sampleMessage key payload (int64 (leNat rest)))
    | _ => none
  decompress _ _ := none
  exact m := m = sampleMessage (m.key.headD 0) (m.payload.headD 0) m.offset ∧ IsInt64 m.offset
  exact_setOffset := by
    rintro m offset fits ⟨same, -⟩
    exact ⟨congrArg (fun m' => m'.setOffset offset) same, fits⟩
  unmarshal_marshal := by
    rintro m ⟨same, low, high⟩
    simp only [int64_leNat_leBytes low high]
    exact congrArg some same.symm

instance : DecidablePred sampleCodecs.exact := fun m =>
  inferInstanceAs (Decidable (m = sampleMessage (m.key.headD 0) (m.payload.headD 0) m.offset ∧
    IsInt64 m.offset))

instance : DecidablePred (Writable sampleCodecs) :=
  Writable.decidable sampleCodecs fun m => by simp [sampleCodecs]

instance (s : System) : DecidablePred (CaughtUp s) := by
  rintro (_ | _) <;> unfold CaughtUp <;> infer_instance

instance (s : System) : DecidablePred (Allowed sampleCodecs s) := by
  rintro (_ | _) <;> unfold Allowed <;> infer_instance

/-- Segments of two records. -/
def sampleStart : System :=
  System.new (openPartitionLog sampleCodecs 60 40 []) (openPartitionLog sampleCodecs 60 40 [])

def sampleAppend (payload : UInt8) : Event := .leader (.append 1 (sampleMessage 107 payload 0))

/-- A compaction outruns the follower. -/
def sampleGap : List Event :=
  [sampleAppend 1, sampleAppend 2, sampleAppend 3, .leader (.compactPartition ⟨10, 5⟩), .push,
    .deliver 0 [some 5, some 6]]

theorem Agrees.copied {K : Codecs} {s : System} (agrees : Agrees K s) :
    ∀ m ∈ (s.follower.records K).map Record.msg, m ∈ s.written := by
  intro m mem
  obtain ⟨r, held, rfl⟩ := mem_map.mp mem
  obtain ⟨m, mem, -, same⟩ := agrees.copies r held
  exact same ▸ mem

end Replicator

end PubsubBroker.Replica
