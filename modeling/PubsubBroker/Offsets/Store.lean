/-
# Offsets.Store — committed offsets in memory and in the offset WAL

`OffsetStore` of `internal/partition/partition.go` and `internal/wal/wal_offset.go`.
The store maps the string `group/topic/partition` to an offset.  Every commit is
also a JSON entry of a write-ahead log, and `Replay` folds the entries into a map
with the same keys; `Checkpoint` replaces the entries by one for each key of a
snapshot, which it takes apart again with `parseOffsetKey`.

Keys are built and parsed as in the source.  A group or topic may contain a
slash, and the parts that `parseOffsetKey` returns may then differ from the ones
the key was built from; the key built from them is the same
(`parseOffsetKey_offsetKey`), which is what `Replay` needs.

The WAL is a `Wal.Json` log of offset records.
-/
import Mathlib.Data.List.AList
import Mathlib.Data.List.TakeWhile
import PubsubBroker.Theory.Materialise
import PubsubBroker.Wal.Json

namespace PubsubBroker.Offsets

open Theory List

/-- A Go string, as its characters. -/
abbrev Name := List Char

/-- A committed offset, as the WAL stores it. -/
structure OffsetRecord where
  group : Name
  topic : Name
  partition : Int
  offset : Int
deriving DecidableEq

/-! ## Keys -/

/-- A number as `%d` prints it. -/
def decimal : Int → Name
  | .ofNat n => Nat.toDigits 10 n
  | .negSucc n => '-' :: Nat.toDigits 10 (n + 1)

def offsetKey (group topic : Name) (partition : Int) : Name :=
  group ++ '/' :: (topic ++ '/' :: decimal partition)

def OffsetRecord.key (r : OffsetRecord) : Name := offsetKey r.group r.topic r.partition

/-- The digits `Sscanf` reads for `%d`, at least one. -/
def scanDigits (text : Name) : Option Nat :=
  match text.takeWhile Char.isDigit with
  | [] => none
  | digits => some (Nat.ofDigitChars 10 digits 0)

/-- `Sscanf(text, "%d", &partition)`.  The text was printed from an `int32`, so the
number fits. -/
def scanDecimal : Name → Option Int
  | '-' :: text => (scanDigits text).map fun n => -(n : Int)
  | text => (scanDigits text).map fun n => (n : Int)

/-- The text in front of the first slash and the text behind it. -/
def cutFirst (text : Name) : Option (Name × Name) :=
  match text.dropWhile (· ≠ '/') with
  | [] => none
  | _ :: rest => some (text.takeWhile (· ≠ '/'), rest)

/-- The text in front of the last slash and the text behind it. -/
def cutLast (text : Name) : Option (Name × Name) :=
  (cutFirst text.reverse).map fun (back, front) => (front.reverse, back.reverse)

def parseOffsetKey (key : Name) (offset : Int) : Option OffsetRecord :=
  match cutLast key with
  | none => none
  | some (groupTopic, partStr) =>
    match cutFirst groupTopic with
    | none => none
    | some (group, topic) =>
      match scanDecimal partStr with
      | none => none
      | some partition => some ⟨group, topic, partition, offset⟩

theorem cutFirst_eq {front : Name} (back : Name) (noSlash : ∀ c ∈ front, c ≠ '/') :
    cutFirst (front ++ '/' :: back) = some (front, back) := by
  have all : ∀ c ∈ front, (fun c => decide (c ≠ '/')) c = true := by simp; omega
  unfold cutFirst
  rw [dropWhile_append_of_pos all, takeWhile_append_of_pos all]
  simp

theorem cutFirst_some (text back : Name) :
    ∃ front rest, cutFirst (text ++ '/' :: back) = some (front, rest) ∧
      front ++ '/' :: rest = text ++ '/' :: back := by
  induction text with
  | nil => exact ⟨[], back, by simp [cutFirst], rfl⟩
  | cons c text ih =>
    by_cases slash : c = '/'
    · exact ⟨[], text ++ '/' :: back, by simp [cutFirst, slash], by simp [slash]⟩
    · obtain ⟨front, rest, cut, eq⟩ := ih
      refine ⟨c :: front, rest, ?_, by simp [eq]⟩
      unfold cutFirst at cut ⊢
      rw [cons_append, dropWhile_cons_of_pos (by simpa using slash),
        takeWhile_cons_of_pos (by simpa using slash)]
      split at cut
      · cases cut
      grind

theorem cutLast_eq (front : Name) {back : Name} (noSlash : ∀ c ∈ back, c ≠ '/') :
    cutLast (front ++ '/' :: back) = some (front, back) := by
  have reversed : (front ++ '/' :: back).reverse = back.reverse ++ '/' :: front.reverse := by
    simp
  unfold cutLast
  rw [reversed, cutFirst_eq _ fun c mem => noSlash c (mem_reverse.mp mem)]
  simp

theorem toDigits_isDigit {n : Nat} {c : Char} (mem : c ∈ Nat.toDigits 10 n) :
    c.isDigit = true :=
  Nat.isDigit_of_mem_toDigits (by decide) (by decide) mem

theorem decimal_noSlash (p : Int) : ∀ c ∈ decimal p, c ≠ '/' := by
  intro c mem slash
  subst slash
  cases p with
  | ofNat n => exact absurd (toDigits_isDigit mem) (by decide)
  | negSucc n =>
    cases mem with
    | tail _ mem => exact absurd (toDigits_isDigit mem) (by decide)

theorem scanDigits_toDigits (n : Nat) : scanDigits (Nat.toDigits 10 n) = some n := by
  have all : (Nat.toDigits 10 n).takeWhile Char.isDigit = Nat.toDigits 10 n :=
    takeWhile_eq_self_iff.mpr fun c mem => toDigits_isDigit mem
  unfold scanDigits
  rw [all]
  simp

theorem scanDecimal_decimal (p : Int) : scanDecimal (decimal p) = some p := by
  cases p with
  | ofNat n =>
    have digits := scanDigits_toDigits n
    unfold decimal scanDecimal
    split
    · rename_i text eq
      have printed : Nat.toDigits 10 n = '-' :: text := eq
      have minus : '-' ∈ Nat.toDigits 10 n := by rw [printed]; simp
      exact absurd (toDigits_isDigit minus) (by decide)
    · rw [digits]
      rfl
  | negSucc n =>
    simp only [decimal, scanDecimal, scanDigits_toDigits]
    rfl

/-- **A key survives being parsed and built again**, even when the group contains
a slash and the parts come out differently. -/
theorem parseOffsetKey_offsetKey (group topic : Name) (partition offset : Int) :
    ∃ r, parseOffsetKey (offsetKey group topic partition) offset = some r ∧
      r.key = offsetKey group topic partition ∧ r.offset = offset := by
  have last := cutLast_eq (group ++ '/' :: topic) (decimal_noSlash partition)
  have key : offsetKey group topic partition =
      (group ++ '/' :: topic) ++ '/' :: decimal partition := by
    simp [offsetKey]
  obtain ⟨front, rest, first, eq⟩ := cutFirst_some group topic
  refine ⟨⟨front, rest, partition, offset⟩, ?_, ?_, rfl⟩
  · grind [parseOffsetKey, scanDecimal_decimal]
  · rw [key, ← eq]
    simp [OffsetRecord.key, offsetKey]

theorem offsetKey_topic {group group' topic topic' : Name} {partition partition' : Int}
    (same : offsetKey group topic partition = offsetKey group' topic' partition')
    (noSlash : ∀ c ∈ topic, c ≠ '/') (noSlash' : ∀ c ∈ topic', c ≠ '/') : topic = topic' := by
  have split : ∀ (group topic : Name) (partition : Int), offsetKey group topic partition =
      (group ++ '/' :: topic) ++ '/' :: decimal partition := by
    intro group topic partition
    simp [offsetKey]
  rw [split, split] at same
  have last := congrArg cutLast same
  rw [cutLast_eq _ (decimal_noSlash _), cutLast_eq _ (decimal_noSlash _), Option.some.injEq,
    Prod.mk.injEq] at last
  have names := congrArg cutLast last.1
  rw [cutLast_eq _ noSlash, cutLast_eq _ noSlash', Option.some.injEq, Prod.mk.injEq] at names
  exact names.2

/-! ## The offset WAL -/

/-- JSON of offset records.  The records it represents are closed under the
regrouping of `parseOffsetKey`. -/
structure OffsetJson extends Wal.JsonCodec OffsetRecord where
  decidableExact : DecidablePred exact
  exact_parse : ∀ r p, exact r → parseOffsetKey r.key r.offset = some p → exact p

attribute [instance] OffsetJson.decidableExact

/-- The in-memory store: offsets by key. -/
abbrev OffsetStore := AList fun _ : Name => Int

/-- `Snapshot`: the keys with their offsets. -/
abbrev Snapshot := List (Sigma fun _ : Name => Int)

/-- `OffsetStore.Commit`. -/
def OffsetStore.commit (store : OffsetStore) (r : OffsetRecord) : OffsetStore :=
  store.insert r.key r.offset

theorem OffsetStore.lookup_commit_self (store : OffsetStore) (r : OffsetRecord) :
    (store.commit r).lookup r.key = some r.offset :=
  AList.lookup_insert store

theorem OffsetStore.lookup_commit_ne {store : OffsetStore} {r : OffsetRecord} {key : Name}
    (other : key ≠ r.key) : (store.commit r).lookup key = store.lookup key :=
  AList.lookup_insert_ne other

theorem OffsetStore.mem_commit {store : OffsetStore} {r : OffsetRecord} {key : Name} :
    key ∈ store.commit r ↔ key = r.key ∨ key ∈ store :=
  AList.mem_insert store

/-- `OffsetWAL.Commit`. -/
def commit (J : OffsetJson) (w : Wal.WAL) (r : OffsetRecord) : Wal.WAL :=
  Wal.appendRecord J.toJsonCodec w r

/-- The last offset of each key, in WAL order. -/
def latest (records : List OffsetRecord) : Name → Option Int :=
  materialise OffsetRecord.key (fun r => some r.offset) records

/-- `Replay`. -/
def replay (J : OffsetJson) (w : Wal.WAL) : Name → Option Int :=
  latest (Wal.storedRecords J.toJsonCodec w)

/-- `Checkpoint`, with the keys of the snapshot in the order in which the range
over the map visits them; none when a key cannot be parsed. -/
def checkpoint (J : OffsetJson) (w : Wal.WAL) (order : Snapshot) : Option Wal.WAL :=
  (order.mapM fun e => parseOffsetKey e.1 e.2).map fun records =>
    Wal.truncate w (records.map J.marshal)

/-- **What commits leave**: the last offset of each key, or what was there before. -/
theorem lookup_foldl_commit (start : OffsetStore) (history : List OffsetRecord) (key : Name) :
    (history.foldl OffsetStore.commit start).lookup key =
      (latest history key).or (start.lookup key) := by
  induction history using List.reverseRecOn with
  | nil => rfl
  | append_singleton history r ih =>
    rw [latest, materialise_concat, foldl_append]
    show ((history.foldl OffsetStore.commit start).commit r).lookup key = _
    by_cases same : key = r.key
    · grind [OffsetStore.lookup_commit_self]
    · rw [OffsetStore.lookup_commit_ne same, Function.update_of_ne same, ih]
      rfl

section

variable {J : OffsetJson} {records : List OffsetRecord}

theorem latest_of_nodup (unique : (records.map OffsetRecord.key).Nodup) {r : OffsetRecord}
    (mem : r ∈ records) : latest records r.key = some r.offset := by
  obtain ⟨before, after, rfl⟩ := append_of_mem mem
  rw [map_append, map_cons, nodup_append, nodup_cons] at unique
  have noneAfter : updatesOf OffsetRecord.key r.key after = [] := by
    refine filter_eq_nil_iff.mpr ?_
    grind
  have here : updatesOf OffsetRecord.key r.key [r] = [r] := by simp [updatesOf]
  rw [latest, materialise_apply, ← singleton_append, updatesOf_append, updatesOf_append,
    here, noneAfter, append_nil, getLast?_concat]
  rfl

theorem latest_eq_none {key : Name} (absent : ∀ r ∈ records, r.key ≠ key) :
    latest records key = none := by
  have none : updatesOf OffsetRecord.key key records = [] := by
    refine filter_eq_nil_iff.mpr ?_
    simp; omega
  rw [latest, materialise_apply, none]
  rfl

/-- An entry of the store that comes from a record JSON represents. -/
def Printed (J : OffsetJson) (e : Sigma fun _ : Name => Int) : Prop :=
  ∃ r, J.exact r ∧ r.key = e.1 ∧ r.offset = e.2

/-- Printed keys are parsed into one record for each entry, with the same key and
offset. -/
theorem parse_snapshot {order : Snapshot} (printed : ∀ e ∈ order, Printed J e) :
    ∃ records, (order.mapM fun e => parseOffsetKey e.1 e.2) = some records ∧
      (records.map fun r => (⟨r.key, r.offset⟩ : Sigma fun _ : Name => Int)) = order ∧
      ∀ r ∈ records, J.exact r := by
  induction order with
  | nil => exact ⟨[], rfl, rfl, by simp⟩
  | cons e order ih =>
    obtain ⟨records, parsed, same, exact⟩ := ih fun e' mem => printed e' (by simp [mem])
    obtain ⟨q, exactQ, keyQ, offsetQ⟩ := printed e (by simp)
    obtain ⟨r, parse, key, offset⟩ := parseOffsetKey_offsetKey q.group q.topic q.partition q.offset
    have keyE : r.key = e.1 := key.trans keyQ
    have offsetE : r.offset = e.2 := offset.trans offsetQ
    have parseE : parseOffsetKey e.1 e.2 = some r := by rw [← keyQ, ← offsetQ]; exact parse
    refine ⟨r :: records, ?_, ?_, ?_⟩
    · rw [mapM_cons, parseE, parsed]
      rfl
    · rw [map_cons, same, keyE, offsetE]
    grind [OffsetJson.exact_parse]

/-- **A checkpoint of printed keys succeeds** and writes one record for each
entry, with the same key and offset. -/
theorem checkpoint_eq {order : Snapshot} (printed : ∀ e ∈ order, Printed J e) (w : Wal.WAL) :
    ∃ records, checkpoint J w order = some (Wal.written J.toJsonCodec records) ∧
      (records.map fun r => (⟨r.key, r.offset⟩ : Sigma fun _ : Name => Int)) = order ∧
      ∀ r ∈ records, J.exact r := by
  obtain ⟨records, eq, rest⟩ := parse_snapshot printed
  exact ⟨records, by rw [checkpoint, eq]; rfl, rest⟩

end

end PubsubBroker.Offsets
