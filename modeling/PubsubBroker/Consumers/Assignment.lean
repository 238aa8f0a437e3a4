/-
# Consumers.Assignment — who owns which partition

`Join`, `Leave` and `rebalance` of `internal/consumer/consumer.go` over whole
histories of a group.  `rebalance` sorts the ids of the members and deals the
partitions out round robin; `deal` is its loop, with the map it fills as a function
of the id.

`Dealt` is the invariant of a group: the members stand in the order of their ids and
each has the share of its place.  So the assignment is a function of the set of ids
and of the partition count (`Dealt.deal`), whatever calls the group has seen;
`run_assignment` adds that every partition has one owner and that no member has two
partitions more than another.
-/
import Mathlib.Data.Finset.Sort
import Mathlib.Data.Int.CardIntervalMod
import Mathlib.Data.String.Basic
import PubsubBroker.Consumers.Group

namespace PubsubBroker.Consumers

open List

/-! ## The loop of `rebalance` -/

/-- What the loop has appended for a consumer after that many partitions. -/
def deal (ids : List String) : Nat → String → List Int
  | 0, _ => []
  | p + 1, id =>
    if ids[p % ids.length]? = some id then deal ids p id ++ [(p : Int)] else deal ids p id

theorem share_succ (partCount n i : Nat) :
    share (partCount + 1) n i =
      if partCount % n = i then share partCount n i ++ [(partCount : Int)]
      else share partCount n i := by
  unfold share
  rw [range_succ, filter_append, map_append]
  split
  · rename_i here
    simp [here]
  · rename_i elsewhere
    simp [elsewhere]

/-- The loop gives the consumer at place `i` the partitions that are `i` modulo the
number of consumers. -/
theorem deal_eq_share {ids : List String} {i : Nat} {id : String} (unique : ids.Nodup)
    (at_i : ids[i]? = some id) (partCount : Nat) :
    deal ids partCount id = share partCount ids.length i := by
  obtain ⟨bound, rfl⟩ := List.getElem?_eq_some_iff.mp at_i
  induction partCount with
  | zero => rfl
  | succ p ih => grind [Nodup.getElem_inj_iff, deal, share_succ]

theorem share_length {n i : Nat} (place : i < n) (partCount : Nat) :
    (share partCount n i).length = partCount / n + if i < partCount % n then 1 else 0 := by
  have counted := Nat.count_modEq_card partCount (Nat.zero_lt_of_lt place) i
  rw [Nat.mod_eq_of_lt place] at counted
  rw [← counted, share, length_map, Nat.count, countP_eq_length_filter]
  simp only [Nat.ModEq, Nat.mod_eq_of_lt place]

theorem share_nodup (partCount n i : Nat) : (share partCount n i).Nodup :=
  (nodup_range.filter _).map Int.ofNat_injective

/-! ## Histories of a group -/

inductive Call where
  | join (consumerID : String) (bufferSize : Nat)
  | leave (consumerID : String)

namespace Group

/-- A join that fails leaves the group as it is. -/
def call (g : Group) : Call → Group
  | .join consumerID bufferSize => (g.join consumerID bufferSize).getD g
  | .leave consumerID => g.leave consumerID

def run (g : Group) (calls : List Call) : Group := calls.foldl call g

def ids (g : Group) : List String := g.consumers.map Consumer.id

/-- The members stand in the order of their ids, each with the share of its place. -/
structure Dealt (g : Group) : Prop where
  sorted : g.consumers.Pairwise fun c d => c.id < d.id
  shares : ∀ (i : Nat) (c : Consumer), g.consumers[i]? = some c →
    c.assignments = share g.partCount g.consumers.length i

theorem dealt_rebalance {g : Group} {cs : List Consumer}
    (sorted : cs.Pairwise fun c d => c.id < d.id) :
    Dealt { g with consumers := rebalance g.partCount cs } where
  sorted := by
    grind [pairwise_iff_getElem, rebalance]
  shares := by
    intro i c at_i
    grind [rebalance]

theorem sorted_insertById {c : Consumer} {cs : List Consumer} (new : ∀ d ∈ cs, d.id ≠ c.id)
    (sorted : cs.Pairwise fun c d => c.id < d.id) :
    (insertById c cs).Pairwise fun c d => c.id < d.id := by
  induction cs with
  | nil => exact pairwise_singleton _ _
  | cons d ds ih =>
    obtain ⟨first, later⟩ := pairwise_cons.mp sorted
    unfold insertById
    split
    · rename_i before
      have before : c.id < d.id := String.lt_iff_toList_lt.mpr before
      grind
    · rename_i notBefore
      have after : d.id < c.id := by
        have differ := new d (mem_cons_self ..)
        have notBefore : ¬ c.id < d.id := fun before =>
          notBefore (String.lt_iff_toList_lt.mp before)
        grind
      refine pairwise_cons.mpr ⟨?_, ih (fun e mem => new e (mem_cons_of_mem d mem)) later⟩
      intro e mem
      rcases mem_insertById.mp mem with rfl | mem
      · exact after
      · exact first e mem

theorem dealt_newGroup (id topic : String) (partCount : Nat) :
    (newGroup id topic partCount).Dealt where
  sorted := .nil
  shares := by simp [newGroup]

/-- **One call deals the partitions out again**, or changes nothing. -/
theorem Dealt.call {g : Group} (dealt : g.Dealt) (c : Call) : (g.call c).Dealt := by
  cases c with
  | join consumerID bufferSize =>
    simp only [Group.call, join]
    split
    · exact dealt
    · rename_i absent
      refine dealt_rebalance (sorted_insertById ?_ dealt.sorted)
      intro d mem same
      exact absent (any_eq_true.mpr ⟨d, mem, decide_eq_true same⟩)
  | leave consumerID => grind [call, leave, dealt_rebalance, sorted]

theorem call_partCount (g : Group) (c : Call) : (g.call c).partCount = g.partCount := by
  cases c with
  | join consumerID bufferSize => grind [call, join]
  | leave consumerID => grind [call, leave]

theorem Dealt.run {g : Group} (dealt : g.Dealt) (calls : List Call) :
    (g.run calls).Dealt ∧ (g.run calls).partCount = g.partCount := by
  induction calls generalizing g with
  | nil => exact ⟨dealt, rfl⟩
  | cons c calls ih =>
    obtain ⟨after, same⟩ := ih (dealt.call c)
    exact ⟨after, same.trans (g.call_partCount c)⟩

section

variable {g : Group} (dealt : g.Dealt)
include dealt

/-! ## What the invariant says -/

theorem Dealt.sorted_ids : g.ids.Pairwise (· < ·) := pairwise_map.mpr dealt.sorted

theorem Dealt.nodup : g.ids.Nodup := dealt.sorted_ids.imp fun before => before.ne

/-- **The assignment is a function of the set of members and the partition count**:
the ids are sorted and the partitions dealt out. -/
theorem Dealt.deal {c : Consumer} (mem : c ∈ g.consumers) :
    c.assignments = Consumers.deal (g.ids.toFinset.sort (· ≤ ·)) g.partCount c.id := by
  have canonical : g.ids.toFinset.sort (· ≤ ·) = g.ids :=
    (toFinset_sort _ dealt.nodup).mpr (dealt.sorted_ids.imp fun before => before.le)
  obtain ⟨i, at_i⟩ := mem_iff_getElem?.mp mem
  have id_at : g.ids[i]? = some c.id := by rw [ids, getElem?_map, at_i]; rfl
  rw [canonical, deal_eq_share dealt.nodup id_at, dealt.shares i c at_i, ids, length_map]

theorem Dealt.owner (members : g.consumers ≠ []) {p : Int} (low : 0 ≤ p)
    (high : p < g.partCount) : ∃! c, c ∈ g.consumers ∧ p ∈ c.assignments := by
  have positive : 0 < g.consumers.length := length_pos_iff.mpr members
  have place := Nat.mod_lt p.toNat positive
  refine ⟨g.consumers[p.toNat % g.consumers.length], ⟨getElem_mem place, ?_⟩, ?_⟩
  · rw [dealt.shares _ _ (getElem?_eq_getElem place)]
    exact mem_share.mpr ⟨low, high, rfl⟩
  · rintro c ⟨mem, owns⟩
    obtain ⟨i, bound, rfl⟩ := getElem_of_mem mem
    rw [dealt.shares i _ (getElem?_eq_getElem bound)] at owns
    simp only [(mem_share.mp owns).2.2]

theorem Dealt.disjoint :
    g.consumers.Pairwise fun c d => ∀ p ∈ c.assignments, p ∉ d.assignments := by
  rw [pairwise_iff_getElem]
  intro i j boundI boundJ before p ownsI ownsJ
  rw [dealt.shares i _ (getElem?_eq_getElem boundI)] at ownsI
  rw [dealt.shares j _ (getElem?_eq_getElem boundJ)] at ownsJ
  have atI := (mem_share.mp ownsI).2.2
  have atJ := (mem_share.mp ownsJ).2.2
  omega

theorem Dealt.balanced {c d : Consumer} (memC : c ∈ g.consumers) (memD : d ∈ g.consumers) :
    c.assignments.length ≤ d.assignments.length + 1 := by
  obtain ⟨i, boundC, rfl⟩ := getElem_of_mem memC
  obtain ⟨j, boundD, rfl⟩ := getElem_of_mem memD
  rw [dealt.shares i _ (getElem?_eq_getElem boundC),
    dealt.shares j _ (getElem?_eq_getElem boundD), share_length boundC, share_length boundD]
  split <;> split <;> omega

theorem Dealt.assignments {c : Consumer} (mem : c ∈ g.consumers) :
    c.assignments.Nodup ∧ ∀ p ∈ c.assignments, 0 ≤ p ∧ p < g.partCount := by
  obtain ⟨i, bound, rfl⟩ := getElem_of_mem mem
  rw [dealt.shares i _ (getElem?_eq_getElem bound)]
  refine ⟨share_nodup .., ?_⟩
  intro p owns
  obtain ⟨low, high, -⟩ := mem_share.mp owns
  exact ⟨low, high⟩

end

/-! ## What moves messages only -/

def seats (g : Group) : List (String × List Int) :=
  g.consumers.map fun c => (c.id, c.assignments)

theorem ids_eq_seats (g : Group) : g.ids = g.seats.map Prod.fst := by
  rw [ids, seats, map_map]
  rfl

theorem Dealt.of_seats {g g' : Group} (dealt : g.Dealt) (count : g'.partCount = g.partCount)
    (same : g'.seats = g.seats) : g'.Dealt where
  sorted := by
    have ordered : g'.ids.Pairwise (· < ·) := by
      rw [ids_eq_seats, same, ← ids_eq_seats]
      exact dealt.sorted_ids
    exact pairwise_map.mp ordered
  shares := by
    intro i c at_i
    have size : g'.consumers.length = g.consumers.length := by
      have sizes := congrArg List.length same
      grind [seats]
    have place : g.seats[i]? = some (c.id, c.assignments) := by grind [seats]
    grind [seats, shares]

theorem seats_update {g : Group} {consumerID : String} {f : Consumer → Consumer}
    (keeps : ∀ c, (f c).id = c.id ∧ (f c).assignments = c.assignments) :
    (g.update consumerID f).seats = g.seats := by
  simp only [seats, update, map_map]
  refine map_congr_left fun c _ => ?_
  simp only [Function.comp_apply]
  split
  · rw [(keeps c).1, (keeps c).2]
  · rfl

end Group

theorem Consumer.deliver_seat {c c' : Consumer} {msg : Storage.Message}
    (done : c.deliver msg = some c') : c'.id = c.id ∧ c'.assignments = c.assignments := by
  unfold deliver at done
  split at done
  · grind
  · grind

namespace Group

theorem seats_dispatch (g : Group) (msg : Storage.Message) :
    (g.dispatch msg).1.seats = g.seats := by
  unfold dispatch seats
  generalize g.consumers = cs
  induction cs with
  | nil => rfl
  | cons c cs ih => grind [deliverTo, Consumer.deliver_seat]

theorem deliverTo_unowned {msg : Storage.Message} {cs : List Consumer}
    (unowned : ∀ c ∈ cs, msg.partition ∉ c.assignments) : deliverTo msg cs = (cs, none) := by
  induction cs with
  | nil => rfl
  | cons c cs ih =>
    obtain ⟨first, later⟩ := forall_mem_cons.mp unowned
    simp only [deliverTo, if_neg first, ih later]

theorem deliverTo_owned {msg : Storage.Message} {cs : List Consumer} {c : Consumer}
    (unique : cs.Pairwise fun c d => c.id < d.id)
    (disjoint : cs.Pairwise fun c d => ∀ p ∈ c.assignments, p ∉ d.assignments)
    (mem : c ∈ cs) (owns : msg.partition ∈ c.assignments) :
    deliverTo msg cs =
      (c.deliver msg).elim (cs, some c.id) fun c' =>
        (cs.map fun d => if d.id = c.id then c' else d, none) := by
  induction cs with
  | nil => exact absurd mem not_mem_nil
  | cons d ds ih =>
    obtain ⟨first, later⟩ := pairwise_cons.mp disjoint
    obtain ⟨smaller, unique⟩ := pairwise_cons.mp unique
    rcases mem_cons.mp mem with rfl | mem
    · have rest := deliverTo_unowned fun e mem => first e mem _ owns
      have others (c' : Consumer) : (ds.map fun d => if d.id = c.id then c' else d) = ds := by
        rw [map_congr_left fun e mem => if_neg (smaller e mem).ne', map_id']
      simp only [deliverTo, if_pos owns, rest]
      cases c.deliver msg with
      | none => rfl
      | some c' => simp only [Option.elim_some, map_cons, if_true, others]
    · have other : msg.partition ∉ d.assignments := fun both => first c mem _ both owns
      simp only [deliverTo, if_neg other, ih unique later mem]
      cases c.deliver msg with
      | none => rfl
      | some c' => simp only [Option.elim_some, map_cons, if_neg (smaller c mem).ne]

section

variable {g : Group} {c : Consumer} {msg : Storage.Message}

theorem dispatch_unowned (unowned : ∀ c ∈ g.consumers, msg.partition ∉ c.assignments) :
    g.dispatch msg = (g, none) := by
  rw [dispatch, deliverTo_unowned unowned]

theorem Dealt.dispatch_delivered (dealt : g.Dealt) (mem : c ∈ g.consumers)
    (owns : msg.partition ∈ c.assignments) {c' : Consumer} (delivered : c.deliver msg = some c') :
    g.dispatch msg = (g.update c.id fun _ => c', none) := by
  rw [dispatch, deliverTo_owned dealt.sorted dealt.disjoint mem owns, delivered]
  rfl

theorem Dealt.dispatch_slow (dealt : g.Dealt) (mem : c ∈ g.consumers)
    (owns : msg.partition ∈ c.assignments) (full : c.deliver msg = none) :
    g.dispatch msg = (g, some c.id) := by
  rw [dispatch, deliverTo_owned dealt.sorted dealt.disjoint mem owns, full]
  rfl

end

theorem member_iff {g : Group} {consumerID : String} :
    g.member consumerID = true ↔ consumerID ∈ g.ids := by
  simp [member, ids]

theorem ids_rebalance (g : Group) (cs : List Consumer) :
    ids { g with consumers := rebalance g.partCount cs } = cs.map Consumer.id := by
  refine ext_getElem (by simp [ids, rebalance]) fun i _ _ => ?_
  simp [ids, rebalance]

theorem mem_ids_join {g : Group} {id consumerID : String} {bufferSize : Nat} :
    id ∈ (g.call (.join consumerID bufferSize)).ids ↔ id = consumerID ∨ id ∈ g.ids := by
  simp only [call, join]
  split
  · rename_i there
    have there := member_iff.mp there
    grind
  · rw [Option.getD_some, ids_rebalance, mem_map]
    simp only [mem_insertById, ids, mem_map]
    constructor
    · rintro ⟨c, rfl | old, rfl⟩
      · exact .inl rfl
      · exact .inr ⟨c, old, rfl⟩
    · rintro (rfl | ⟨c, old, rfl⟩)
      · exact ⟨_, .inl rfl, rfl⟩
      · exact ⟨c, .inr old, rfl⟩

theorem mem_ids_leave {g : Group} {id consumerID : String} :
    id ∈ (g.call (.leave consumerID)).ids ↔ id ≠ consumerID ∧ id ∈ g.ids := by
  simp only [call, leave]
  split
  · grind [ids_rebalance, ids]
  · grind [member_iff]

/-- **Ownership of partitions**, after any joins and leaves.  What a member has is
determined by the set of ids and the partition count, and it has it once; with
members there, every partition has exactly one owner, and no member has two
partitions more than another. -/
theorem run_assignment (id topic : String) (partCount : Nat) (calls : List Call) :
    let g := (newGroup id topic partCount).run calls
    (∀ c ∈ g.consumers,
      c.assignments = Consumers.deal (g.ids.toFinset.sort (· ≤ ·)) partCount c.id ∧
        c.assignments.Nodup ∧ ∀ p ∈ c.assignments, 0 ≤ p ∧ p < partCount) ∧
      g.ids.Nodup ∧
      (g.consumers ≠ [] → ∀ p : Int, 0 ≤ p → p < partCount →
        ∃! c, c ∈ g.consumers ∧ p ∈ c.assignments) ∧
      ∀ c ∈ g.consumers, ∀ d ∈ g.consumers,
        c.assignments.length ≤ d.assignments.length + 1 := by
  intro g
  obtain ⟨dealt, same⟩ := (dealt_newGroup id topic partCount).run calls
  have count : g.partCount = partCount := same
  refine ⟨?_, dealt.nodup, ?_, fun c memC d memD => dealt.balanced memC memD⟩
  · grind [Dealt.deal, Dealt.assignments]
  · grind [Dealt.owner]

end Group

end PubsubBroker.Consumers
