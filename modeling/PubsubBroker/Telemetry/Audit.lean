/-
# Telemetry.Audit — the recent events of the audit log

`internal/audit/audit.go`.  The logger keeps the events it has written in a ring buffer of
fixed capacity; `Recent` walks it backwards from the head.

The buffer is a `Theory.Circular` with a count that saturates (`ring_add`, `count_logAll`), and a
snapshot is the newest part of what the ring holds (`snapshot_eq`).  So after any history
`Recent` answers with the last events, the newest first (`recent_eq`).
-/
import PubsubBroker.Theory.Circular

namespace PubsubBroker.Telemetry

open List Theory

/-- An audit event; the fields besides the time are in `body`. -/
structure Event (β : Type) where
  /-- `none` is the zero time. -/
  time : Option Int
  body : β

structure RingBuffer (β : Type) where
  buf : List (Event β)
  capacity : Nat
  head : Nat
  count : Nat
  full : buf.length = capacity
  inRing : head < capacity
  counted : count ≤ capacity

section

variable {β : Type}

def newRingBuffer [Inhabited β] (capacity : Nat) (positive : 0 < capacity) : RingBuffer β :=
  ⟨replicate capacity ⟨none, default⟩, capacity, 0, 0, length_replicate, positive, Nat.zero_le _⟩

namespace RingBuffer

def add (rb : RingBuffer β) (e : Event β) : RingBuffer β where
  buf := rb.buf.set rb.head e
  capacity := rb.capacity
  head := (rb.head + 1) % rb.capacity
  count := if rb.count < rb.capacity then rb.count + 1 else rb.count
  full := by rw [length_set, rb.full]
  inRing := Nat.mod_lt _ (Nat.zero_lt_of_lt rb.inRing)
  counted := by
    have counted := rb.counted
    split <;> omega

/-- All buffered events, the newest first. -/
def snapshot (rb : RingBuffer β) : List (Event β) :=
  (range rb.count).map fun i =>
    rb.buf.get ⟨(rb.head + rb.capacity - 1 - i) % rb.capacity, by
      rw [rb.full]
      exact Nat.mod_lt _ (Nat.zero_lt_of_lt rb.inRing)⟩

/-- `Recent` of the logger. -/
def recent (rb : RingBuffer β) (n : Int) : List (Event β) :=
  if 0 < n ∧ n < rb.snapshot.length then rb.snapshot.take n.toNat else rb.snapshot

end RingBuffer

/-- What is logged: an event without a time gets the current one. -/
def stamped (now : Int) (e : Event β) : Event β :=
  if e.time.isNone then { e with time := some now } else e

/-- `Log`, as far as the buffer goes: what becomes of the written line is ignored. -/
def log (rb : RingBuffer β) (entry : Int × Event β) : RingBuffer β :=
  rb.add (stamped entry.1 entry.2)

/-! ## The buffer as a ring -/

namespace RingBuffer

def ring (rb : RingBuffer β) : Circular (Event β) := ⟨rb.buf, rb.head, by rw [rb.full]; exact rb.inRing⟩

theorem ring_add (rb : RingBuffer β) (e : Event β) : (rb.add e).ring = rb.ring.push e := by
  simp only [ring, add, Circular.push, rb.full]

theorem snapshot_eq (rb : RingBuffer β) :
    rb.snapshot = rb.ring.contents.reverse.take rb.count := by
  apply ext_getElem?
  intro i
  rw [getElem?_take]
  split
  case isTrue shown =>
    have old : i < rb.ring.cells.length := Nat.lt_of_lt_of_le shown (rb.full.symm ▸ rb.counted)
    rw [rb.ring.getElem?_reverse_contents old]
    simp [snapshot, shown, ring, rb.full, ← getElem?_eq_getElem]
  case isFalse past => simpa [snapshot] using past

end RingBuffer

theorem count_logAll (rb : RingBuffer β) (history : List (Int × Event β)) :
    (history.foldl log rb).count = min rb.capacity (rb.count + history.length) := by
  induction history generalizing rb with
  | nil =>
    have counted := rb.counted
    simp [counted]
  | cons entry history ih =>
    have counted := rb.counted
    rw [foldl_cons, ih]
    simp only [log, RingBuffer.add, length_cons]
    split <;> omega

variable [Inhabited β]

theorem snapshot_logAll (capacity : Nat) (positive : 0 < capacity) (history : List (Int × Event β)) :
    (history.foldl log (newRingBuffer capacity positive)).snapshot =
      (history.map fun entry => stamped entry.1 entry.2).reverse.take
        (min capacity history.length) := by
  have count : (history.foldl log (newRingBuffer capacity positive)).count =
      min capacity history.length := by
    rw [count_logAll]
    simp [newRingBuffer]
  have cells : (newRingBuffer capacity positive : RingBuffer β).ring.cells.length = capacity :=
    length_replicate
  rw [RingBuffer.snapshot_eq, Circular.contents_foldl fun rb entry => rb.ring_add _, cells,
    rtake_eq_reverse_take_reverse, reverse_reverse, reverse_append, take_take, count,
    take_append_of_le_length (by rw [length_reverse, length_map]; omega)]
  congr 1
  omega

/-- **The recent events.**  They are the last ones logged, the newest first: as many as were
asked for, are buffered and were ever logged, or all buffered ones if no number is given. -/
theorem recent_eq (capacity : Nat) (positive : 0 < capacity) (history : List (Int × Event β))
    (n : Int) :
    (history.foldl log (newRingBuffer capacity positive)).recent n =
      ((history.map fun entry => stamped entry.1 entry.2).rtake
        (if 0 < n then min n.toNat (min capacity history.length)
          else min capacity history.length)).reverse := by
  rw [RingBuffer.recent, snapshot_logAll, rtake_eq_reverse_take_reverse, reverse_reverse]
  have length : ((history.map fun entry => stamped entry.1 entry.2).reverse.take
      (min capacity history.length)).length = min capacity history.length := by simp
  rw [length]
  split
  case isTrue fewer => rw [take_take, if_pos fewer.1]
  case isFalse more =>
    congr 1
    split <;> omega

end

theorem recent_eq_two :
    ([(7, ⟨none, 1⟩), (8, ⟨some 3, 2⟩), (9, ⟨none, 3⟩)].foldl log
      (newRingBuffer 2 Nat.two_pos : RingBuffer Nat)).recent 5 =
        [⟨some 9, 3⟩, ⟨some 3, 2⟩] :=
  (recent_eq 2 Nat.two_pos _ 5).trans rfl

end PubsubBroker.Telemetry
