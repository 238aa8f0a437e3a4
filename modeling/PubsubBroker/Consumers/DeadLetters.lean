/-
# Consumers.DeadLetters — the dead-letter queue

The `DeadLetterQueue` of `internal/consumer/consumer.go`.  One queue holds the
entries of all groups and topics; a full queue loses its oldest entry.  The
operations select entries by a group and a topic, and an empty name selects all.
A message that was not found when it was rejected leaves an entry without an
original, which every topic selects, and entries made by the handlers carry no
group.

The time of arrival is left out.
-/
import PubsubBroker.Storage.Record

namespace PubsubBroker.Consumers

open List
open Storage (Message)

structure DLQEntry where
  original : Option Message
  group : String
  reason : String
  attempts : Nat
deriving DecidableEq

/-- The entry belongs to the group and topic, an empty name standing for all. -/
def DLQEntry.selected (e : DLQEntry) (group topic : String) : Bool :=
  (group = "" ∨ e.group = group) ∧ (topic = "" ∨ ∀ m ∈ e.original, m.topic = topic)

/-- The entry is also the one with this message id. -/
def DLQEntry.named (e : DLQEntry) (group topic id : String) : Bool :=
  (id = "" ∨ ∀ m ∈ e.original, m.id = id) ∧ e.selected group topic = true

structure DeadLetterQueue where
  entries : List DLQEntry
  maxSize : Nat

def newDLQ (maxSize : Int) : DeadLetterQueue := ⟨[], if maxSize ≤ 0 then 10000 else maxSize.toNat⟩

namespace DeadLetterQueue

def push (q : DeadLetterQueue) (entry : DLQEntry) : DeadLetterQueue :=
  { q with
    entries := (if q.maxSize ≤ q.entries.length then q.entries.drop 1 else q.entries) ++ [entry] }

/-- `Entries`: the newest first. -/
def select (q : DeadLetterQueue) (group topic : String) (limit : Int) : List DLQEntry :=
  (q.entries.reverse.filter fun e => e.selected group topic).take
    (if limit ≤ 0 then 100 else limit.toNat)

/-- The loop of `Replay`: what stays and what is removed, at most `limit`. -/
def sift (group topic : String) : Nat → List DLQEntry → List DLQEntry × List DLQEntry
  | _, [] => ([], [])
  | 0, es => (es, [])
  | limit + 1, e :: es =>
    if e.selected group topic then
      ((sift group topic limit es).1, e :: (sift group topic limit es).2)
    else (e :: (sift group topic (limit + 1) es).1, (sift group topic (limit + 1) es).2)

def replay (q : DeadLetterQueue) (group topic : String) (limit : Int) :
    DeadLetterQueue × List DLQEntry :=
  let sifted := sift group topic (if limit ≤ 0 then 10 else limit.toNat) q.entries
  ({ q with entries := sifted.1 }, sifted.2)

def purge (q : DeadLetterQueue) (group topic : String) : DeadLetterQueue × Nat :=
  ({ q with entries := q.entries.filter fun e => !e.selected group topic },
    (q.entries.filter fun e => e.selected group topic).length)

/-- `Get`: the newest entry with the id. -/
def get (q : DeadLetterQueue) (group topic id : String) : Option DLQEntry :=
  q.entries.reverse.find? fun e => e.named group topic id

/-- `Delete`: the newest entry with the id is removed. -/
def delete (q : DeadLetterQueue) (group topic id : String) : DeadLetterQueue × Bool :=
  match q.entries.reverse.findIdx? fun e => e.named group topic id with
  | none => (q, false)
  | some i => ({ q with entries := (q.entries.reverse.eraseIdx i).reverse }, true)

/-! ## The entries of one topic -/

end DeadLetterQueue

/-- The entry's message is of this topic. -/
def DLQEntry.of (e : DLQEntry) (topic : String) : Bool := e.original.any fun m => m.topic = topic

/-- What selects entries by another topic selects none of this one. -/
theorem DLQEntry.not_of_selected {e : DLQEntry} {group other topic : String}
    (selected : e.selected group other = true) (named : other ≠ "") (differ : other ≠ topic) :
    e.of topic = false := by
  cases original : e.original with
  | none => simp [DLQEntry.of, original]
  | some m =>
    have same : m.topic = other := by simpa [DLQEntry.selected, original, named] using
      (of_decide_eq_true selected).2
    simp [DLQEntry.of, original, same, differ]

namespace DeadLetterQueue

def ofTopic (q : DeadLetterQueue) (topic : String) : List DLQEntry :=
  q.entries.filter fun e => e.of topic

/-- The entry the next push drops. -/
def oldest (q : DeadLetterQueue) : Option DLQEntry :=
  if q.maxSize ≤ q.entries.length then q.entries.head? else none

variable {q : DeadLetterQueue} {group other topic : String}

theorem push_ofTopic {entry : DLQEntry} (new : entry.of topic = false)
    (dropped : ∀ e ∈ q.oldest, e.of topic = false) :
    (q.push entry).ofTopic topic = q.ofTopic topic := by
  unfold ofTopic push oldest at *
  split at dropped
  case isFalse room => simp [room, new]
  case isTrue full =>
    cases entries : q.entries with
    | nil => simp [new]
    | cons e rest => grind

theorem purge_ofTopic (named : other ≠ "") (differ : other ≠ topic) :
    (q.purge group other).1.ofTopic topic = q.ofTopic topic := by
  unfold ofTopic purge
  simp only [filter_filter]
  apply filter_congr
  intro e _
  cases selected : e.selected group other with
  | false => simp
  | true => simp [DLQEntry.not_of_selected selected named differ]

theorem sift_kept (named : other ≠ "") (differ : other ≠ topic) (es : List DLQEntry)
    (limit : Nat) :
    (sift group other limit es).1.filter (fun e => e.of topic) =
      es.filter fun e => e.of topic := by
  induction es generalizing limit with
  | nil => cases limit <;> rfl
  | cons e es ih =>
    cases limit with
    | zero => rfl
    | succ limit =>
      unfold sift
      grind [DLQEntry.not_of_selected]

theorem replay_ofTopic (limit : Int) (named : other ≠ "") (differ : other ≠ topic) :
    (q.replay group other limit).1.ofTopic topic = q.ofTopic topic :=
  sift_kept named differ q.entries _

/-- The removed entries are selected ones. -/
theorem sift_removed {es : List DLQEntry} {limit : Nat} {e : DLQEntry}
    (removed : e ∈ (sift group topic limit es).2) : e.selected group topic = true := by
  induction es generalizing limit with
  | nil => cases limit <;> simp [sift] at removed
  | cons d es ih =>
    cases limit with
    | zero => simp [sift] at removed
    | succ limit => grind [sift]

theorem delete_ofTopic {id : String} (named : other ≠ "") (differ : other ≠ topic) :
    (q.delete group other id).1.ofTopic topic = q.ofTopic topic := by
  unfold delete
  split
  case h_1 => rfl
  case h_2 i found =>
    -- the erased place holds an entry of the other topic
    obtain ⟨bound, hit, -⟩ := findIdx?_eq_some_iff_getElem.mp found
    have selected : (q.entries.reverse[i]).selected group other = true :=
      (of_decide_eq_true hit).2
    have off := DLQEntry.not_of_selected selected named differ
    unfold ofTopic
    simp only [filter_reverse]
    rw [← reverse_inj, reverse_reverse, ← filter_reverse,
      eraseIdx_eq_take_drop_succ, filter_append]
    conv_rhs => rw [← take_append_drop i q.entries.reverse, ← getElem_cons_drop bound]
    rw [filter_append, filter_cons_of_neg (by rw [off]; exact Bool.false_ne_true)]

end DeadLetterQueue

end PubsubBroker.Consumers
