/-
# Offsets.Snapshot — a snapshot of the offset store, written and restored

`Snapshot` and `Restore` of `internal/partition/partition.go` around `Checkpoint` and
`Replay` of `internal/wal/wal_offset.go`.  The store is keyed by the joined string
`group/topic/partition`, and `Checkpoint` splits each key at its first and at its last
slash, which gives back another group and topic when the group contains a slash.

Two things make this harmless.  A topic contains no slash, so that joining is injective
(`offsetKey_inj`) and a stored value belongs to one triple (`load_committed`).  And the
parts are only joined again, which gives the key they came from.

`snapshot_restored` is the round trip.
-/
import PubsubBroker.Offsets.Store
import PubsubBroker.Topics.Registry

namespace PubsubBroker.Offsets

open Theory List Option
open Topics (validTopicName noSlash_of_valid)

/-! ## Loading and restoring -/

/-- `OffsetStore.Load`. -/
def OffsetStore.load (store : OffsetStore) (group topic : Name) (partition : Int) : Int :=
  (store.lookup (offsetKey group topic partition)).getD (-1)

/-- `Restore`, with the entries of the snapshot in the order in which the range over the
map visits them. -/
def OffsetStore.restore (store : OffsetStore) (order : Snapshot) : OffsetStore :=
  order.foldl (fun store e => store.insert e.1 e.2) store

/-- `Replay`, as the map it fills. -/
def replayed (J : OffsetJson) (w : Wal.WAL) : OffsetStore :=
  (Wal.storedRecords J.toJsonCodec w).foldl OffsetStore.commit ∅

def committed (history : List OffsetRecord) : OffsetStore := history.foldl OffsetStore.commit ∅

/-- The offset of the last commit for a triple, or -1. -/
def lastCommit (history : List OffsetRecord) (group topic : Name) (partition : Int) : Int :=
  let commits := history.filter fun r =>
    r.group = group ∧ r.topic = topic ∧ r.partition = partition
  (commits.getLast?.map OffsetRecord.offset).getD (-1)

/-! ## Keys -/

/-- **Joining is injective**, as long as topics hold no slash; the group may. -/
theorem offsetKey_inj {group group' topic topic' : Name} {partition partition' : Int}
    (noSlash : ∀ c ∈ topic, c ≠ '/') (noSlash' : ∀ c ∈ topic', c ≠ '/') :
    offsetKey group topic partition = offsetKey group' topic' partition' ↔
      group = group' ∧ topic = topic' ∧ partition = partition' := by
  constructor
  · intro same
    obtain rfl := offsetKey_topic same noSlash noSlash'
    -- the topic is the same on both sides, so the groups and the numbers are
    have split : ∀ (group : Name) (partition : Int), offsetKey group topic partition =
        (group ++ '/' :: topic) ++ '/' :: decimal partition := by
      intro group partition
      simp [offsetKey]
    rw [split, split] at same
    have last := congrArg cutLast same
    rw [cutLast_eq _ (decimal_noSlash _), cutLast_eq _ (decimal_noSlash _), some.injEq,
      Prod.mk.injEq] at last
    obtain ⟨front, number⟩ := last
    have scanned := congrArg scanDecimal number
    grind [scanDecimal_decimal, append_cancel_right]
  · rintro ⟨rfl, rfl, rfl⟩
    rfl

/-! ## What commits leave -/

theorem lookup_committed (history : List OffsetRecord) (key : Name) :
    (committed history).lookup key = latest history key := by
  rw [committed, lookup_foldl_commit]
  exact or_none

/-- **A stored value belongs to one triple**: it is the offset of the last commit for that
very group, topic and partition. -/
theorem load_committed {history : List OffsetRecord}
    (valid : ∀ r ∈ history, validTopicName r.topic = true) {topic : Name}
    (named : validTopicName topic = true) (group : Name) (partition : Int) :
    (committed history).load group topic partition =
      lastCommit history group topic partition := by
  have own : updatesOf OffsetRecord.key (offsetKey group topic partition) history =
      history.filter fun r => r.group = group ∧ r.topic = topic ∧ r.partition = partition := by
    refine filter_congr fun r mem => ?_
    rw [decide_eq_decide]
    exact offsetKey_inj (noSlash_of_valid (valid r mem)) (noSlash_of_valid named)
  rw [OffsetStore.load, lookup_committed, latest, materialise_apply, own, lastCommit,
    map_eq_bind]
  rfl

theorem OffsetStore.lookup_restore {store : OffsetStore} {order : Snapshot}
    (all : order.Perm store.entries) (key : Name) :
    (OffsetStore.restore ∅ order).lookup key = store.lookup key := by
  have unique : order.NodupKeys := (perm_nodupKeys all).mpr store.nodupKeys
  have restored : ∀ (order : Snapshot) (start : OffsetStore), order.NodupKeys →
      (start.restore order).lookup key = (order.dlookup key).orElse fun _ => start.lookup key := by
    intro order
    induction order with
    | nil => intro start _; rfl
    | cons e order ih =>
      intro start unique
      obtain ⟨fresh, unique⟩ := nodupKeys_cons.mp unique
      show (OffsetStore.restore (start.insert e.1 e.2) order).lookup key = _
      rw [ih _ unique]
      obtain ⟨k, v⟩ := e
      by_cases same : k = key
      · subst same
        rw [AList.lookup_insert, dlookup_cons_eq, dlookup_eq_none.mpr fresh]
        rfl
      · rw [AList.lookup_insert_ne (Ne.symm same), dlookup_cons_ne _ _ (Ne.symm same)]
  rw [restored order ∅ unique, perm_dlookup key unique all]
  show (store.lookup key).orElse _ = _
  cases store.lookup key <;> rfl

/-! ## The round trip -/

theorem committed_printed {J : OffsetJson} {history : List OffsetRecord}
    (json : ∀ r ∈ history, J.exact r) :
    ∀ e ∈ (committed history).entries, Printed J e := by
  rintro ⟨key, offset⟩ mem
  have held : latest history key = some offset := by
    rw [← lookup_committed]
    exact AList.mem_lookup_iff.mpr mem
  rw [latest, materialise_apply, bind_eq_some_iff] at held
  obtain ⟨r, last, eq⟩ := held
  obtain ⟨held, same⟩ := mem_updatesOf.mp (mem_of_getLast? last)
  exact ⟨r, json r held, same, some.inj eq⟩

theorem replayed_checkpoint {J : OffsetJson} {store : OffsetStore} {order : Snapshot}
    (printed : ∀ e ∈ store.entries, Printed J e) (all : order.Perm store.entries) (w : Wal.WAL) :
    ∃ w', checkpoint J w order = some w' ∧
      ∀ key, (replayed J w').lookup key = store.lookup key := by
  obtain ⟨records, written, same, exact⟩ :=
    checkpoint_eq (fun e mem => printed e (all.subset mem)) w
  refine ⟨_, written, ?_⟩
  intro key
  rw [replayed, Wal.storedRecords_any exact]
  show (committed records).lookup key = _
  have pairs : committed records = OffsetStore.restore ∅ order := by
    rw [← same, OffsetStore.restore, foldl_map]
    rfl
  rw [pairs, OffsetStore.lookup_restore all]

/-- **The snapshot round trip.**  After any commits with valid topic names, a load returns
the last offset committed for that very triple; and a checkpoint of the snapshot succeeds,
and its replay, restored into an empty store, loads the same for every triple. -/
theorem snapshot_restored (J : OffsetJson) (history : List OffsetRecord)
    (valid : ∀ r ∈ history, validTopicName r.topic = true) (json : ∀ r ∈ history, J.exact r)
    (w : Wal.WAL) (order : Snapshot) (all : order.Perm (committed history).entries) :
    (∀ group topic partition, validTopicName topic = true →
      (committed history).load group topic partition =
        lastCommit history group topic partition) ∧
    ∃ w', checkpoint J w order = some w' ∧
      ∀ order' : Snapshot, order'.Perm (replayed J w').entries → ∀ group topic partition,
        (OffsetStore.restore ∅ order').load group topic partition =
          (committed history).load group topic partition := by
  refine ⟨fun group topic partition named => load_committed valid named group partition, ?_⟩
  obtain ⟨w', written, same⟩ := replayed_checkpoint (committed_printed json) all w
  refine ⟨w', written, ?_⟩
  intro order' all' group topic partition
  rw [OffsetStore.load, OffsetStore.load, OffsetStore.lookup_restore all', same]

/-- A commit of a group with a slash in its name. -/
def slashedCommit : OffsetRecord := ⟨['a', '/', 'b'], ['t'], 0, 7⟩

/-- The record `Checkpoint` writes for it. -/
def regroupedCommit : OffsetRecord := ⟨['a'], ['b', '/', 't'], 0, 7⟩

/-- One byte for each of the two records. -/
def slashedJson : OffsetJson where
  marshal r := [if r = slashedCommit then 1 else 0]
  unmarshal text := if text = [1] then some slashedCommit else some regroupedCommit
  exact r := r = slashedCommit ∨ r = regroupedCommit
  unmarshal_marshal := by
    rintro r (rfl | rfl)
    · decide
    · decide
  marshal_length r _ := show 1 < 2 ^ 32 by decide
  decidableExact r := inferInstanceAs (Decidable (r = slashedCommit ∨ r = regroupedCommit))
  exact_parse := by
    rintro r p (rfl | rfl) parsed
    · exact .inr (some.inj (parsed.symm.trans (by decide)))
    · exact .inr (some.inj (parsed.symm.trans (by decide)))

theorem snapshot_restored_slashed :
    (committed [slashedCommit]).load ['a', '/', 'b'] ['t'] 0 = 7 ∧
    (committed [slashedCommit]).load ['a'] ['b'] 0 = -1 ∧
    parseOffsetKey slashedCommit.key 7 = some regroupedCommit ∧
    ∃ w', checkpoint slashedJson ⟨[], 0⟩ (committed [slashedCommit]).entries = some w' ∧
      ∀ order' : Snapshot, order'.Perm (replayed slashedJson w').entries →
        (OffsetStore.restore ∅ order').load ['a', '/', 'b'] ['t'] 0 = 7 := by
  have trip := snapshot_restored slashedJson [slashedCommit] (by decide)
    (fun r mem => .inl (mem_singleton.mp mem)) ⟨[], 0⟩ _ (List.Perm.refl _)
  obtain ⟨loads, w', written, same⟩ := trip
  refine ⟨?_, ?_, by decide, w', written, ?_⟩
  · exact loads ['a', '/', 'b'] ['t'] 0 (by decide)
  · exact loads ['a'] ['b'] 0 (by decide)
  · intro order' all
    rw [same order' all ['a', '/', 'b'] ['t'] 0]
    exact loads ['a', '/', 'b'] ['t'] 0 (by decide)

end PubsubBroker.Offsets
