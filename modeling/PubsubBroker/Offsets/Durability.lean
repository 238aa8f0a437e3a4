/-
# Offsets.Durability — commits, seeks, resets and checkpoints interleaved

`handleCommitOffset`, `handleSeek`, `handleResetGroup` and `runOffsetCheckpoint` of
`internal/broker`.  Each of the three requests is a list of offsets to set, and
sets each one first in the memory store and then in the WAL, under two different
locks.  A checkpoint takes a snapshot of the store and later replaces the WAL by
it.  Requests run concurrently, so these steps interleave freely (`Event`).

Memory and WAL can come apart in two ways.  A commit that appends between a
checkpoint's snapshot and its rewrite is dropped from the WAL; and of two commits
of one key the one that is first in memory may be last in the WAL
(`offsets_lost`).  `Orderly` excludes exactly these two steps, and then the WAL
replays to the memory store whenever no request is in flight
(`offsets_durable`).
-/
import PubsubBroker.Offsets.Store
import PubsubBroker.Theory.Transition

namespace PubsubBroker.Offsets

open Theory List

/-! ## Requests -/

structure SeekRequest where
  group : Name
  topic : Name
  offset : Option Int
  toEnd : Bool
  timestampNs : Int

/-- What `handleSeek` reads from a partition log: `NextOffset` and
`OffsetForTimestamp`. -/
structure PartitionView where
  partition : Int
  nextOffset : Int
  found : Int

/-- The offset `handleSeek` stores for a partition. -/
def seekOffset (req : SeekRequest) (view : PartitionView) : Int :=
  match req.offset.filter (0 ≤ ·) with
  | some offset => if offset - 1 < -1 then -1 else offset - 1
  | none =>
    if req.toEnd then if view.nextOffset > 0 then view.nextOffset - 1 else 0
    else if req.timestampNs = 0 then -1
    else if view.found > 0 then view.found - 1
    else -1

inductive Request where
  | commitOffset (member : Bool) (record : OffsetRecord)
  | seek (req : SeekRequest) (partitions : List PartitionView)
  | resetGroup (group topic : Name) (partitions : Nat)

/-- The offsets a request sets, in order.  A commit by a consumer that is not in
the group is refused. -/
def Request.writes : Request → List OffsetRecord
  | .commitOffset member record => if member then [record] else []
  | .seek req partitions =>
    partitions.map fun view => ⟨req.group, req.topic, view.partition, seekOffset req view⟩
  | .resetGroup group topic partitions =>
    (List.range partitions).map fun p => ⟨group, topic, p, -1⟩

/-- A request being carried out: the offsets it has yet to set, and whether the
first of them is already in memory. -/
structure InFlight where
  todo : List OffsetRecord
  stored : Bool
deriving DecidableEq

structure System where
  store : OffsetStore
  wal : Wal.WAL
  inFlight : List InFlight
  snapshot : Option Snapshot

/-- The broker after a start from a WAL with the given records. -/
def boot (J : OffsetJson) (records : List OffsetRecord) : System :=
  ⟨records.foldl OffsetStore.commit ∅, Wal.written J.toJsonCodec records, [], none⟩

inductive Event where
  | arrive (request : Request)
  | store (request : Nat)
  | append (request : Nat)
  | snapshot
  | rewrite (order : Snapshot)

/-- One atomic step.  A request without offsets to set returns at once, and so
does a checkpoint of an empty store. -/
def step (J : OffsetJson) (s : System) : Event → Option System
  | .arrive request =>
    some (if request.writes = [] then s
      else { s with inFlight := s.inFlight ++ [⟨request.writes, false⟩] })
  | .store i =>
    match s.inFlight[i]? with
    | some ⟨r :: rest, false⟩ =>
      some { s with
        store := s.store.commit r
        inFlight := s.inFlight.set i ⟨r :: rest, true⟩ }
    | _ => none
  | .append i =>
    match s.inFlight[i]? with
    | some ⟨r :: rest, true⟩ =>
      some { s with
        wal := commit J s.wal r
        inFlight :=
          if rest = [] then s.inFlight.eraseIdx i else s.inFlight.set i ⟨rest, false⟩ }
    | _ => none
  | .snapshot =>
    match s.snapshot with
    | some _ => none
    | none =>
      some (if s.store.entries = [] then s else { s with snapshot := some s.store.entries })
  | .rewrite order =>
    match s.snapshot with
    | none => none
    | some snap =>
      if order.Perm snap then
        some { s with wal := (checkpoint J s.wal order).getD s.wal, snapshot := none }
      else none

/-! ## The condition -/

/-- The offset a request has put into memory and not yet into the WAL. -/
def InFlight.waiting (f : InFlight) : Option OffsetRecord :=
  if f.stored then f.todo.head? else none

/-- The offsets that still wait for their WAL append. -/
def waiting (inFlight : List InFlight) : List OffsetRecord := inFlight.filterMap InFlight.waiting

/-- Memory holds the offset of this record. -/
def System.Current (s : System) (r : OffsetRecord) : Prop := s.store.lookup r.key = some r.offset
deriving Decidable

/-- Memory holds an offset for this key that one of these records has yet to
append. -/
def System.Awaits (s : System) (pending : List OffsetRecord) (key : Name) : Prop :=
  ∃ r ∈ pending, r.key = key ∧ s.Current r
deriving Decidable

/-- The steps that keep memory and WAL together.  A WAL append is of the offset
that memory holds, or the one that memory holds has yet to be appended by another
request.  A rewrite finds each offset in memory unchanged since the snapshot, or
yet to be appended. -/
def Orderly (s : System) : Event → Prop
  | .append i =>
    ∀ f ∈ s.inFlight[i]?, ∀ r ∈ f.waiting,
      s.Current r ∨ s.Awaits (waiting (s.inFlight.eraseIdx i)) r.key
  | .rewrite order =>
    ∀ e ∈ s.store.entries, e ∈ order ∨ s.Awaits (waiting s.inFlight) e.1
  | _ => True

instance (s : System) : (e : Event) → Decidable (Orderly s e) := by
  rintro (_ | _) <;> unfold Orderly <;> infer_instance

/-- The offsets a request sets are records that JSON represents. -/
def Event.Admissible (J : OffsetJson) : Event → Prop
  | .arrive request => ∀ r ∈ request.writes, J.exact r
  | _ => True

instance (J : OffsetJson) : (e : Event) → Decidable (e.Admissible J) := by
  rintro (_ | _) <;> unfold Event.Admissible <;> infer_instance

def Allowed (J : OffsetJson) (s : System) (e : Event) : Prop := e.Admissible J ∧ Orderly s e
deriving Decidable

/-! ## Requests in flight -/

section InFlight

variable {inFlight : List InFlight} {i : Nat} {f : InFlight}

theorem waiting_append (left right : List InFlight) :
    waiting (left ++ right) = waiting left ++ waiting right := by
  simp [waiting]

theorem waiting_cons (f : InFlight) (rest : List InFlight) :
    waiting (f :: rest) = f.waiting.toList ++ waiting rest := by
  unfold waiting
  rw [filterMap_cons]
  cases f.waiting <;> rfl

theorem mem_waiting_erase (at_i : inFlight[i]? = some f) {r : OffsetRecord}
    (mem : r ∈ waiting inFlight) : f.waiting = some r ∨ r ∈ waiting (inFlight.eraseIdx i) := by
  obtain ⟨before, after, split, erased, -⟩ := pool_split at_i
  rw [erased, waiting_append]
  rw [split, waiting_append, waiting_cons] at mem
  simp only [mem_append, Option.mem_toList] at mem ⊢
  tauto

theorem waiting_set_idle (at_i : inFlight[i]? = some f) (rest : List OffsetRecord) :
    waiting (inFlight.set i ⟨rest, false⟩) = waiting (inFlight.eraseIdx i) := by
  obtain ⟨before, after, -, erased, set⟩ := pool_split at_i
  rw [erased, set, waiting_append, waiting_append, waiting_cons]
  rfl

theorem mem_waiting_set_stored (at_i : inFlight[i]? = some f) (idle : f.waiting = none)
    (r : OffsetRecord) (rest : List OffsetRecord) (r' : OffsetRecord) :
    r' ∈ waiting (inFlight.set i ⟨r :: rest, true⟩) ↔ r' = r ∨ r' ∈ waiting inFlight := by
  obtain ⟨before, after, split, -, set⟩ := pool_split at_i
  have here : (⟨r :: rest, true⟩ : InFlight).waiting = some r := rfl
  rw [set, split, waiting_append, waiting_append, waiting_cons, waiting_cons, here, idle]
  simp only [mem_append, Option.toList, mem_singleton, nil_append]
  tauto

theorem mem_of_waiting_erase (at_i : inFlight[i]? = some f) {r : OffsetRecord}
    (mem : r ∈ waiting (inFlight.eraseIdx i)) : r ∈ waiting inFlight := by
  obtain ⟨before, after, split, erased, -⟩ := pool_split at_i
  rw [erased, waiting_append] at mem
  rw [split, waiting_append, waiting_cons]
  simp only [mem_append] at mem ⊢
  tauto

end InFlight

/-! ## The invariant -/

/-- Every offset in memory is the last one of its key in the WAL, or waits for
its append; a key that is not in memory is not in the WAL. -/
structure Inv (J : OffsetJson) (s : System) (records : List OffsetRecord) : Prop where
  wal : s.wal = Wal.written J.toJsonCodec records
  exact : ∀ r ∈ records, J.exact r
  todo : ∀ f ∈ s.inFlight, ∀ r ∈ f.todo, J.exact r
  printed : ∀ e ∈ s.store.entries, Printed J e
  snapshot : ∀ snap ∈ s.snapshot, snap.NodupKeys ∧ ∀ e ∈ snap, Printed J e ∧ e.1 ∈ s.store
  current : ∀ key offset, s.store.lookup key = some offset →
    latest records key = some offset ∨ s.Awaits (waiting s.inFlight) key
  absent : ∀ key, key ∉ s.store → latest records key = none
  pending : ∀ r ∈ waiting s.inFlight, r.key ∈ s.store

section Invariant

variable {J : OffsetJson} {s t : System} {records : List OffsetRecord}

theorem latest_concat (r : OffsetRecord) :
    latest (records ++ [r]) = Function.update (latest records) r.key (some r.offset) :=
  materialise_concat records r

theorem lookup_restore (records : List OffsetRecord) (key : Name) :
    (records.foldl OffsetStore.commit ∅).lookup key = latest records key := by
  induction records using List.reverseRecOn with
  | nil => rfl
  | append_singleton records r ih =>
    rw [foldl_append, latest_concat, foldl_cons, foldl_nil]
    grind [OffsetStore.lookup_commit_self, OffsetStore.lookup_commit_ne]

theorem printed_commit {store : OffsetStore} {r : OffsetRecord} (exact : J.exact r)
    (printed : ∀ e ∈ store.entries, Printed J e) :
    ∀ e ∈ (store.commit r).entries, Printed J e := by
  intro e mem
  rw [OffsetStore.commit, AList.entries_insert] at mem
  cases mem with
  | head => exact ⟨r, exact, rfl, rfl⟩
  | tail _ mem => exact printed e ((kerase_sublist _ _).subset mem)

theorem inv_boot (exact : ∀ r ∈ records, J.exact r) : Inv J (boot J records) records where
  wal := rfl
  exact := exact
  todo := by simp [boot]
  printed := by
    simp only [boot]
    induction records using List.reverseRecOn with
    | nil => intro e mem; cases mem
    | append_singleton records r ih =>
      rw [foldl_append]
      exact printed_commit (exact r (by simp)) (ih fun r' mem => exact r' (by simp [mem]))
  snapshot := by simp [boot]
  current := by
    intro key offset held
    left
    rw [← held]
    exact (lookup_restore records key).symm
  absent := by
    intro key missing
    rw [← lookup_restore]
    exact AList.lookup_eq_none.mpr missing
  pending := by simp [boot, waiting]

theorem Inv.arrive (inv : Inv J s records) {writes : List OffsetRecord}
    (exact : ∀ r ∈ writes, J.exact r) :
    Inv J { s with inFlight := s.inFlight ++ [⟨writes, false⟩] } records where
  wal := inv.wal
  exact := inv.exact
  todo := by
    grind [todo]
  printed := inv.printed
  snapshot := inv.snapshot
  current := by
    intro key offset held
    have none : waiting [⟨writes, false⟩] = [] := rfl
    rw [waiting_append, none, append_nil]
    exact inv.current key offset held
  absent := inv.absent
  pending := by
    have none : waiting [⟨writes, false⟩] = [] := rfl
    grind [waiting_append, pending]

theorem Inv.store (inv : Inv J s records) {i : Nat} {r : OffsetRecord} {rest : List OffsetRecord}
    (at_i : s.inFlight[i]? = some ⟨r :: rest, false⟩) :
    Inv J { s with
      store := s.store.commit r
      inFlight := s.inFlight.set i ⟨r :: rest, true⟩ } records where
  wal := inv.wal
  exact := inv.exact
  todo := forall_mem_set inv.todo fun r' held => inv.todo _ (mem_of_getElem? at_i) r' held
  printed := printed_commit (inv.todo _ (mem_of_getElem? at_i) r (by simp)) inv.printed
  snapshot := by
    intro snap taken
    obtain ⟨nodup, entries⟩ := inv.snapshot snap taken
    refine ⟨nodup, fun e mem => ⟨(entries e mem).1, ?_⟩⟩
    exact OffsetStore.mem_commit.mpr (.inr (entries e mem).2)
  current := by
    intro key offset held
    have after := mem_waiting_set_stored at_i rfl r rest
    by_cases same : key = r.key
    · subst same
      exact .inr ⟨r, (after r).mpr (.inl rfl), rfl, OffsetStore.lookup_commit_self s.store r⟩
    · rw [OffsetStore.lookup_commit_ne same] at held
      cases inv.current key offset held with
      | inl replayed => exact .inl replayed
      | inr awaited =>
        obtain ⟨r', mem, rfl, value⟩ := awaited
        refine .inr ⟨r', (after r').mpr (.inr mem), rfl, ?_⟩
        exact (OffsetStore.lookup_commit_ne same).trans value
  absent := by
    intro key missing
    exact inv.absent key fun mem => missing (OffsetStore.mem_commit.mpr (.inr mem))
  pending := by
    intro r' mem
    rcases (mem_waiting_set_stored at_i rfl r rest r').mp mem with rfl | old
    · exact OffsetStore.mem_commit.mpr (.inl rfl)
    · exact OffsetStore.mem_commit.mpr (.inr (inv.pending r' old))

theorem Inv.append (inv : Inv J s records) {i : Nat} {r : OffsetRecord} {rest : List OffsetRecord}
    (at_i : s.inFlight[i]? = some ⟨r :: rest, true⟩) {inFlight : List InFlight}
    (todo : ∀ f ∈ inFlight, ∀ r' ∈ f.todo, J.exact r')
    (left : waiting inFlight = waiting (s.inFlight.eraseIdx i))
    (orderly : s.Current r ∨ s.Awaits (waiting (s.inFlight.eraseIdx i)) r.key) :
    Inv J { s with wal := commit J s.wal r, inFlight := inFlight } (records ++ [r]) where
  wal := by rw [inv.wal, commit, Wal.appendRecord_written]
  exact := by
    intro r' mem
    cases mem_append.mp mem with
    | inl old => exact inv.exact r' old
    | inr new =>
      rw [mem_singleton.mp new]
      exact inv.todo _ (mem_of_getElem? at_i) r (by simp)
  todo := todo
  printed := inv.printed
  snapshot := inv.snapshot
  current := by
    intro key offset held
    rw [left, latest_concat]
    by_cases same : key = r.key
    · subst same
      cases orderly with
      | inl current =>
        left
        rw [Function.update_self]
        exact current.symm.trans held
      | inr awaited => exact .inr awaited
    · rw [Function.update_of_ne same]
      cases inv.current key offset held with
      | inl replayed => exact .inl replayed
      | inr awaited =>
        obtain ⟨r', mem, rfl, value⟩ := awaited
        cases mem_waiting_erase at_i mem with
        | inl self =>
          have eq : r = r' := Option.some.inj self
          grind
        | inr other => exact .inr ⟨r', other, rfl, value⟩
  absent := by
    intro key missing
    have stored : r.key ∈ s.store := by
      obtain ⟨before, after, split, -, -⟩ := pool_split at_i
      refine inv.pending r ?_
      rw [split, waiting_append, waiting_cons]
      exact mem_append_right _ (mem_append_left _ (mem_singleton.mpr rfl))
    have other : key ≠ r.key := fun same => missing (same ▸ stored)
    rw [latest_concat, Function.update_of_ne other]
    exact inv.absent key missing
  pending := by
    grind [pending, mem_of_waiting_erase]

theorem Inv.takeSnapshot (inv : Inv J s records) :
    Inv J { s with snapshot := some s.store.entries } records where
  wal := inv.wal
  exact := inv.exact
  todo := inv.todo
  printed := inv.printed
  snapshot := by
    intro snap taken
    obtain rfl : s.store.entries = snap := Option.some.inj taken
    exact ⟨s.store.nodupKeys, fun e mem =>
      ⟨inv.printed e mem, AList.mem_keys.mpr (mem_keys_of_mem mem)⟩⟩
  current := inv.current
  absent := inv.absent
  pending := inv.pending

theorem Inv.rewrite (inv : Inv J s records) {snap order : Snapshot}
    (taken : s.snapshot = some snap) (perm : order.Perm snap)
    (orderly : ∀ e ∈ s.store.entries, e ∈ order ∨ s.Awaits (waiting s.inFlight) e.1) :
    ∃ records', Inv J
      { s with wal := (checkpoint J s.wal order).getD s.wal, snapshot := none } records' := by
  obtain ⟨nodup, entries⟩ := inv.snapshot snap taken
  obtain ⟨records', done, same, exact⟩ := checkpoint_eq (J := J)
    (fun e mem => (entries e (perm.subset mem)).1) s.wal
  have keys : records'.map OffsetRecord.key = order.keys := by
    rw [← same, List.keys, map_map]
    rfl
  have unique : (records'.map OffsetRecord.key).Nodup := by
    rw [keys]
    exact (perm_nodupKeys perm).mpr nodup
  refine ⟨records', ?_, exact, inv.todo, inv.printed, by simp, ?_, ?_, inv.pending⟩
  · rw [done]
    rfl
  · intro key offset held
    have mem : ⟨key, offset⟩ ∈ s.store.entries := AList.mem_lookup_iff.mp held
    cases orderly _ mem with
    | inr awaited => exact .inr awaited
    | inl unchanged => grind [latest_of_nodup]
  · intro key missing
    refine latest_eq_none ?_
    rintro r mem rfl
    have inOrder : (⟨r.key, r.offset⟩ : Sigma fun _ : Name => Int) ∈ order := by grind
    grind

/-- **One step.** -/
theorem inv_step {e : Event} (inv : Inv J s records) (allowed : Allowed J s e)
    (taken : step J s e = some t) : ∃ records', Inv J t records' := by
  obtain ⟨admissible, orderly⟩ := allowed
  revert taken
  fun_cases step J s e with
  | case1 request =>
    rintro ⟨⟩
    split
    · exact ⟨records, inv⟩
    · exact ⟨records, inv.arrive admissible⟩
  | case2 i r rest at_i =>
    rintro ⟨⟩
    exact ⟨records, inv.store at_i⟩
  | case4 i r rest at_i =>
    rintro ⟨⟩
    have orderly := orderly _ at_i r rfl
    split
    · refine ⟨_, inv.append at_i ?_ rfl orderly⟩
      exact forall_mem_eraseIdx inv.todo
    · refine ⟨_, inv.append at_i ?_ (waiting_set_idle at_i rest) orderly⟩
      refine forall_mem_set inv.todo ?_
      intro r' held
      exact inv.todo _ (mem_of_getElem? at_i) r' (by simp [held])
  | case7 =>
    rintro ⟨⟩
    split
    · exact ⟨records, inv⟩
    · exact ⟨records, inv.takeSnapshot⟩
  | case9 order snap pending perm =>
    rintro ⟨⟩
    exact inv.rewrite pending perm orderly
  | _ => rintro ⟨⟩

theorem inv_reached (exact : ∀ r ∈ records, J.exact r)
    (reached : Reaches (step J) (Allowed J) (boot J records) s) :
    ∃ records', Inv J s records' := by
  induction reached with
  | init => exact ⟨records, inv_boot exact⟩
  | step _ allowed taken ih =>
    obtain ⟨records', inv⟩ := ih
    exact inv_step inv allowed taken

/-- **Committed offsets are durable.**  In every run from a boot whose steps are
all orderly, whenever no request is in flight, `Replay` of the offset WAL returns
for every key exactly what the memory store holds. -/
theorem offsets_durable (exact : ∀ r ∈ records, J.exact r)
    (reached : Reaches (step J) (Allowed J) (boot J records) s) (idle : s.inFlight = [])
    (entries : s.wal.nextOffset ≤ 2 ^ 63) (group topic : Name) (partition : Int) :
    replay J s.wal (offsetKey group topic partition) =
      s.store.lookup (offsetKey group topic partition) := by
  generalize offsetKey group topic partition = key
  obtain ⟨records', inv⟩ := inv_reached exact reached
  have count : (records'.length : Int) ≤ 2 ^ 63 := by
    rw [← Wal.written_nextOffset J.toJsonCodec, ← inv.wal]
    exact entries
  rw [replay, inv.wal, Wal.storedRecords_written inv.exact count]
  cases held : s.store.lookup key with
  | none => exact inv.absent key (AList.lookup_eq_none.mp held)
  | some offset =>
    cases inv.current key offset held with
    | inl replayed => exact replayed
    | inr awaited =>
      obtain ⟨r, mem, -, -⟩ := awaited
      rw [idle] at mem
      cases mem

/-! ## Runs of one group on one partition -/

def sampleRecord (offset : Int) : OffsetRecord := ⟨['g'], ['t'], 0, offset⟩

/-- A format for the records of one key: the offset as a word. -/
def sampleJson : OffsetJson where
  marshal r := leBytes 8 (uint64 r.offset)
  unmarshal bytes := some (sampleRecord (int64 (leNat bytes)))
  exact r := r = sampleRecord r.offset ∧ IsInt64 r.offset
  decidableExact _ := inferInstanceAs (Decidable (_ ∧ _))
  unmarshal_marshal := by
    rintro r ⟨one, range⟩
    rw [leNat_leBytes (uint64_lt _), int64_uint64 range.1 range.2, ← one]
  marshal_length := by
    intro r _
    rw [leBytes_length]
    decide
  exact_parse := by
    rintro r p ⟨one, range⟩ parsed
    rw [one] at parsed
    have parsed : some (sampleRecord r.offset) = some p := parsed
    cases parsed
    exact ⟨rfl, range⟩

def sampleCommit (offset : Int) : Event := .arrive (.commitOffset true (sampleRecord offset))

def sampleSnapshot (offset : Int) : Snapshot := [⟨(sampleRecord offset).key, offset⟩]

/-- A commit is in memory when the checkpoint rewrites the WAL, and is appended
afterwards. -/
theorem offsets_durable_checkpoint :
    ∃ s, Reaches (step sampleJson) (Allowed sampleJson) (boot sampleJson [sampleRecord 1]) s ∧
      s.inFlight = [] ∧ s.store.lookup (offsetKey ['g'] ['t'] 0) = some 5 ∧
      replay sampleJson s.wal (offsetKey ['g'] ['t'] 0) =
        s.store.lookup (offsetKey ['g'] ['t'] 0) := by
  refine Reaches.exists_run_of (P := fun s => s.inFlight = [] ∧ s.wal.nextOffset = 2 ∧
    s.store.lookup (offsetKey ['g'] ['t'] 0) = some 5)
    [sampleCommit 5, .snapshot, .store 0, .rewrite (sampleSnapshot 1), .append 0]
    (by decide +kernel) ?_
  rintro s reached ⟨idle, next, held⟩
  refine ⟨idle, held, ?_⟩
  exact offsets_durable (by decide) reached idle (by rw [next]; decide) ['g'] ['t'] 0

/-- **Offsets are lost**: a commit that appends between the snapshot and the
rewrite of a checkpoint, and two commits that are in one order in memory and in
the other in the WAL. -/
theorem offsets_lost :
    (runAll (step sampleJson) (fun _ _ => True) (boot sampleJson [sampleRecord 1])
        [sampleCommit 5, .snapshot, .store 0, .append 0, .rewrite (sampleSnapshot 1)]).map
      (fun s => (s.inFlight, s.snapshot.isSome, s.store.lookup (offsetKey ['g'] ['t'] 0),
        replay sampleJson s.wal (offsetKey ['g'] ['t'] 0))) =
      some ([], false, some 5, some 1) ∧
    (runAll (step sampleJson) (fun _ _ => True) (boot sampleJson [])
        [sampleCommit 5, sampleCommit 6, .store 0, .store 1, .append 1, .append 0]).map
      (fun s => (s.inFlight, s.snapshot.isSome, s.store.lookup (offsetKey ['g'] ['t'] 0),
        replay sampleJson s.wal (offsetKey ['g'] ['t'] 0))) =
      some ([], false, some 6, some 5) := by
  constructor
  · decide +kernel
  · decide +kernel

end Invariant

end PubsubBroker.Offsets
