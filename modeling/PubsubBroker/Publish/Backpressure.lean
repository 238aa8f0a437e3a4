/-
# Publish.Backpressure — the count of bytes on their way to the WAL

`handlePublish` and `handleBatchPublish` of `internal/broker/handlers_publish.go`, as far
as they touch `pendingWALBytes`.  A message's WAL entry is added to the counter before the
append and taken off behind `Publish`, or on the way out when something fails; the batch
handler rolls back by a running sum of its own, `batchPendingBytes`.

Each atomic operation on the counter is a step, and so is every call between two of them.
What json.Marshal, the WAL and `Publish` answer is part of the step, so that each of them may
fail at any message.  The partition lock is left out: the steps may interleave even where it
would keep them apart.

The counter and the running sum are `int64`.  A step that marshals a message needs memory
for the entry, and the entries that exist at a time share one address space (`Host`), which
is why nothing overflows.

`Request.act_spec` says what one step of a request does to the counter, and
`pendingWALBytes_accounted` what the counter is in every state.
-/
import Mathlib.Algebra.Order.BigOperators.Group.List
import PubsubBroker.Publish.Broker

namespace PubsubBroker.Publish.Backpressure

open Theory List Option
open Storage (wrap64 wrap64_eq)

/-- The JSON encoder, and the memory of the machine in bytes. -/
structure Host where
  marshal : PublishRequest → Bytes
  memory : Nat
  addressable : memory < 2 ^ 63

/-! ## One request -/

/-- How far a request is with its current message. -/
inductive Stage where
  | start
  | next
  | marshalled (walData : Bytes)
  | counted (walData : Bytes)
  | accepted (walData : Bytes)
  | logged (walData : Bytes)
  | published (walData : Bytes) (result : Option PublishResult)
  | failed (walData : Option Bytes)
deriving DecidableEq

/-- The WAL entry that is counted and not yet released. -/
def Stage.entry : Stage → Option Bytes
  | .start => none
  | .next => none
  | .marshalled _ => none
  | .counted walData => some walData
  | .accepted walData => some walData
  | .logged walData => some walData
  | .published walData _ => some walData
  | .failed walData => walData

/-- The WAL entry in memory. -/
def Stage.buffer : Stage → Option Bytes
  | .marshalled walData => some walData
  | stage => stage.entry

def size (walData : Option Bytes) : Nat := (walData.map List.length).getD 0

/-- A request with the threshold it read from the configuration. -/
structure Request where
  batch : Bool
  thresh : Int
  todo : List PublishRequest
  results : List (Option PublishResult)
  batchPendingBytes : Int
  stage : Stage

def Request.totalPayload (r : Request) : Int :=
  r.todo.foldl (fun total m => wrap64 (total + m.payload.length)) 0

/-- What a request does next, with what the world answers. -/
inductive Action where
  | refuse
  | enter
  | marshal (target : Option Int) (ok : Bool)
  | count
  | test
  | append (fault : Option Wal.Fault)
  | publish (result : Option PublishResult)
  | release
  | rollback
  | reply

/-- The counter, the WAL and the request behind a step, none when it has ended. -/
abbrev After := Int × Wal.WAL × Option Request

def Request.act (marshal : PublishRequest → Bytes) (pending : Int) (wal : Wal.WAL)
    (r : Request) : Action → Option After
  | .refuse =>
    -- permissions, ownership and the rate limit
    if r.stage = .start then some (pending, wal, none) else none
  | .enter =>
    if r.stage = .start then
      if r.batch ∧ 0 < r.thresh ∧ r.thresh < wrap64 (pending + r.totalPayload) then
        some (pending, wal, none)
      else some (pending, wal, some { r with stage := .next })
    else none
  | .marshal target ok =>
    match r.stage, r.todo with
    | .next, req :: _ =>
      if ok then
        let walData := marshal { req with targetOffset := target.or req.targetOffset }
        some (pending, wal, some { r with stage := .marshalled walData })
      else if r.batch then some (pending, wal, some { r with stage := .failed none })
      else some (pending, wal, none)
    | _, _ => none
  | .count =>
    match r.stage with
    | .marshalled walData =>
      let r' := if r.batch then
          { r with
            batchPendingBytes := wrap64 (r.batchPendingBytes + walData.length)
            stage := .accepted walData }
        else { r with stage := .counted walData }
      some (wrap64 (pending + walData.length), wal, some r')
    | _ => none
  | .test =>
    match r.stage with
    | .counted walData =>
      if 0 < r.thresh ∧ r.thresh < pending then
        some (pending, wal, some { r with stage := .failed (some walData) })
      else some (pending, wal, some { r with stage := .accepted walData })
    | _ => none
  | .append fault =>
    match r.stage with
    | .accepted walData =>
      match Wal.append wal walData fault with
      | (wal, .error _) => some (pending, wal, some { r with stage := .failed (some walData) })
      | (wal, .ok _) => some (pending, wal, some { r with stage := .logged walData })
    | _ => none
  | .publish result =>
    match r.stage with
    | .logged walData => some (pending, wal, some { r with stage := .published walData result })
    | _ => none
  | .release =>
    match r.stage with
    | .published walData result =>
      let r' := if r.batch then
          { r with batchPendingBytes := wrap64 (r.batchPendingBytes - walData.length) }
        else r
      some (wrap64 (pending - walData.length), wal,
        some { r' with todo := r.todo.tail, results := r.results ++ [result], stage := .next })
    | _ => none
  | .rollback =>
    match r.stage with
    | .failed walData =>
      let amount := if r.batch then r.batchPendingBytes else size walData
      some (wrap64 (pending - amount), wal, none)
    | _ => none
  | .reply => if r.stage = .next ∧ r.todo = [] then some (pending, wal, none) else none

def Request.counted (r : Request) : Nat := size r.stage.entry

def Request.allocated (r : Request) : Nat := size r.stage.buffer

/-- The running sum of a batch is what the batch has in the counter. -/
def Request.Balanced (r : Request) : Prop := r.batch = true → r.batchPendingBytes = r.counted

theorem Request.counted_le_allocated (r : Request) : r.counted ≤ r.allocated := by
  unfold counted allocated
  cases r.stage <;> simp [Stage.entry, Stage.buffer, size]

/-- What a step does to the counter and to the request. -/
structure Request.Step (r : Request) (pending : Int) (after : After) : Prop where
  balanced : ∀ r' ∈ after.2.2, r'.Balanced
  moved : after.1 = pending ∧ (after.2.2.map Request.counted).getD 0 = r.counted ∨
    after.1 = wrap64 (pending - r.counted + ((after.2.2.map Request.counted).getD 0 : Nat))

section

variable {r : Request} {pending : Int} {wal : Wal.WAL}

theorem Request.Step.keep (balanced : r.Balanced) {stage : Stage}
    (same : stage.entry = r.stage.entry) :
    r.Step pending (pending, wal, some { r with stage := stage }) := by
  have counted : Request.counted { r with stage := stage } = r.counted := by
    simp only [Request.counted, same]
  refine ⟨?_, .inl ⟨rfl, counted⟩⟩
  rintro r' ⟨⟩ isBatch
  rw [counted]
  exact balanced isBatch

theorem Request.Step.leave (nothing : r.stage.entry = none) :
    r.Step pending (pending, wal, none) := by
  refine ⟨by simp, .inl ⟨rfl, ?_⟩⟩
  simp [Request.counted, nothing, size]

/-- **The counter moves by what the request has in it.** -/
theorem Request.act_spec {marshal : PublishRequest → Bytes} {a : Action} {after : After}
    (balanced : r.Balanced) (fits : r.allocated < 2 ^ 63)
    (taken : r.act marshal pending wal a = some after) : r.Step pending after := by
  revert taken
  fun_cases Request.act marshal pending wal r a with
  | case1 at_stage | case3 at_stage | case8 _ _ _ _ _ at_stage =>
    rintro ⟨⟩
    exact .leave (by rw [at_stage]; rfl)
  | case24 at_stage =>
    rintro ⟨⟩
    exact .leave (by rw [at_stage.1]; rfl)
  | case4 at_stage | case6 _ _ _ _ at_stage | case7 _ _ _ _ _ at_stage
  | case12 _ at_stage | case13 _ at_stage | case15 _ _ at_stage | case16 _ _ at_stage
  | case18 _ _ at_stage =>
    rintro ⟨⟩
    exact .keep balanced (by rw [at_stage]; rfl)
  | case10 walData marshalled after =>
    subst after
    rintro ⟨⟩
    have before : r.counted = 0 := by rw [counted, marshalled]; rfl
    have exactly : wrap64 (walData.length : Int) = walData.length := by
      refine wrap64_eq ⟨by omega, ?_⟩
      rw [allocated, marshalled] at fits
      exact Int.ofNat_lt.mpr fits
    constructor
    · rintro r' ⟨⟩
      cases isBatch : r.batch with
      | false => exact fun isBatch => absurd isBatch Bool.false_ne_true
      | true =>
        have zero : r.batchPendingBytes = 0 := by rw [balanced isBatch, before]; rfl
        intro _
        simp only [if_true, zero, zero_add, exactly]
        rfl
    grind [counted, Stage.entry, size]
  | case20 walData result published after =>
    subst after
    rintro ⟨⟩
    have before : r.counted = walData.length := by rw [counted, published]; rfl
    constructor
    · rintro r' ⟨⟩ isBatch
      -- the running sum is back at zero
      have isBatch : r.batch = true := by grind
      simp only [isBatch, if_true, balanced isBatch, before, sub_self]
      rfl
    simp [counted, Stage.entry, size, published]
  | case22 walData failed amount =>
    subst amount
    rintro ⟨⟩
    have before : r.counted = size walData := by rw [counted, failed]; rfl
    refine ⟨by simp, .inr ?_⟩
    split
    · rename_i isBatch
      simp [balanced isBatch]
    · simp [before]
  | _ => rintro ⟨⟩

end

/-! ## All requests -/

structure Gauge where
  pendingWALBytes : Int
  wal : Wal.WAL
  requests : List Request

def boot (wal : Wal.WAL) : Gauge := ⟨0, wal, []⟩

inductive Event where
  | publish (thresh : Int) (req : PublishRequest)
  | batchPublish (thresh : Int) (messages : List PublishRequest)
  | act (request : Nat) (action : Action)

def Gauge.join (s : Gauge) (batch : Bool) (thresh : Int) (messages : List PublishRequest) : Gauge :=
  { s with requests := s.requests ++ [⟨batch, thresh, messages, [], 0, .start⟩] }

def replaceAt (requests : List Request) (i : Nat) : Option Request → List Request
  | none => requests.eraseIdx i
  | some r => requests.set i r

def step (H : Host) (s : Gauge) : Event → Option Gauge
  | .publish thresh req => some (s.join false thresh [req])
  | .batchPublish thresh messages => some (s.join true thresh messages)
  | .act i action =>
    match s.requests[i]? with
    | none => none
    | some r =>
      (r.act H.marshal s.pendingWALBytes s.wal action).map fun after =>
        ⟨after.1, after.2.1, replaceAt s.requests i after.2.2⟩

/-- The WAL entries of the messages that are counted and not yet released. -/
def Gauge.entries (s : Gauge) : List Bytes := s.requests.filterMap fun r => r.stage.entry

def Gauge.allocated (s : Gauge) : Nat := (s.requests.map Request.allocated).sum

/-- The step finds the memory for its entry. -/
def Allowed (H : Host) (s : Gauge) (e : Event) : Prop :=
  ((step H s e).map Gauge.allocated).getD 0 ≤ H.memory
deriving Decidable

/-- What the requests have in the counter together. -/
def Gauge.counted (s : Gauge) : Nat := (s.requests.map Request.counted).sum

theorem Gauge.counted_eq (s : Gauge) : s.counted = (s.entries.map List.length).sum := by
  unfold counted entries
  induction s.requests with
  | nil => rfl
  | cons r rest ih =>
    rw [map_cons, sum_cons, ih, Request.counted]
    cases entry : r.stage.entry with
    | none | some walData => simp [entry, size]

theorem Gauge.counted_le_allocated (s : Gauge) : s.counted ≤ s.allocated :=
  sum_le_sum fun r _ => r.counted_le_allocated

structure Gauge.Accounted (s : Gauge) : Prop where
  balanced : ∀ r ∈ s.requests, r.Balanced
  exact : s.pendingWALBytes = s.counted

theorem Gauge.Accounted.join {s : Gauge} (accounted : s.Accounted) (batch : Bool) (thresh : Int)
    (messages : List PublishRequest) : (s.join batch thresh messages).Accounted where
  balanced := forall_mem_append_singleton accounted.balanced fun _ => rfl
  exact := by
    rw [Gauge.join, accounted.exact, Gauge.counted, Gauge.counted, map_append, sum_append]
    rfl

theorem sum_replaceAt {requests : List Request} {i : Nat} {r : Request}
    (at_i : requests[i]? = some r) (r' : Option Request) :
    ((replaceAt requests i r').map Request.counted).sum + r.counted =
      (requests.map Request.counted).sum + (r'.map Request.counted).getD 0 := by
  obtain ⟨before, behind, split, erased, replaced⟩ := pool_split at_i
  cases r' with
  | none | some r' => grind [replaceAt]

theorem wrapped_move {total total' old new : Nat} {pending pending' : Int}
    (sum : total' + old = total + new) (within : total' < 2 ^ 63) (before : pending = total)
    (moved : pending' = pending ∧ new = old ∨ pending' = wrap64 (pending - old + new)) :
    pending' = total' := by
  rcases moved with ⟨same, kept⟩ | moved
  · omega
  · rw [moved, wrap64_eq ⟨by omega, by omega⟩]
    omega

/-- **One step keeps the account.** -/
theorem Gauge.Accounted.step {H : Host} {s t : Gauge} {e : Event} (accounted : s.Accounted)
    (inMemory : s.allocated ≤ H.memory) (inMemory' : t.allocated ≤ H.memory)
    (taken : step H s e = some t) : t.Accounted := by
  cases e with
  | publish thresh req | batchPublish thresh messages =>
    cases taken
    exact accounted.join ..
  | act i action =>
    simp only [Backpressure.step] at taken
    split at taken
    case h_1 => cases taken
    case h_2 r at_i =>
      obtain ⟨after, acted, rfl⟩ := map_eq_some_iff.mp taken
      obtain ⟨before, behind, split, erased, replaced⟩ := pool_split at_i
      have mem : r ∈ s.requests := mem_of_getElem? at_i
      have fits : r.allocated < 2 ^ 63 := by
        have one : r.allocated ≤ s.allocated :=
          single_le_sum (fun _ _ => Nat.zero_le _) _ (mem_map_of_mem mem)
        have := H.addressable
        omega
      obtain ⟨balanced, moved⟩ := Request.act_spec (accounted.balanced r mem) fits acted
      obtain ⟨pending, wal, r'⟩ := after
      constructor
      · cases r' with
        | none => exact forall_mem_eraseIdx accounted.balanced
        | some r' => exact forall_mem_set accounted.balanced (balanced r' rfl)
      · have within := (Gauge.counted_le_allocated _).trans_lt
          (inMemory'.trans_lt H.addressable)
        exact wrapped_move (sum_replaceAt at_i r') within accounted.exact moved

/-- **WAL byte accounting.**  In every state of every interleaving of single and batch
publishes, whatever fails, `pendingWALBytes` is the number of bytes of the WAL entries that
are counted and not yet released; so it is not negative, and zero when no publish is in
flight. -/
theorem pendingWALBytes_accounted (H : Host) (wal : Wal.WAL) {s : Gauge}
    (reached : Reaches (step H) (Allowed H) (boot wal) s) :
    s.pendingWALBytes = (s.entries.map List.length).sum ∧ 0 ≤ s.pendingWALBytes ∧
      (s.requests = [] → s.pendingWALBytes = 0) := by
  have invariant : s.Accounted ∧ s.allocated ≤ H.memory := by
    induction reached with
    | init => exact ⟨⟨by simp [boot], rfl⟩, Nat.zero_le _⟩
    | step _ ok taken ih =>
      rw [Allowed, taken] at ok
      exact ⟨ih.1.step ih.2 ok taken, ok⟩
  have sum := invariant.1.exact
  rw [Gauge.counted_eq] at sum
  refine ⟨sum, by omega, ?_⟩
  intro idle
  rw [sum, Gauge.entries, idle]
  rfl

/-- A machine with a hundred bytes, on which the entry of a message is its payload. -/
def sampleHost : Host := ⟨PublishRequest.payload, 100, by norm_num⟩

def sampleMessage (payload : Bytes) : PublishRequest := ⟨"t", [], payload, [], 1, 0, 0, none⟩

/-- The first message of a batch goes through while a single publish waits for its WAL
append; the WAL refuses the second message of the batch, and what the batch has in the counter
is about to be rolled back. -/
def sampleSchedule : List Event :=
  [.batchPublish 0 [sampleMessage [1, 2], sampleMessage [3, 4, 5]],
    .publish 0 (sampleMessage [6]),
    .act 0 .enter, .act 1 .enter, .act 0 (.marshal (some 0) true), .act 0 .count,
    .act 1 (.marshal (some 1) true), .act 1 .count, .act 0 (.append none),
    .act 0 (.publish (some ⟨"m", 0, 0⟩)), .act 0 .release, .act 0 (.marshal (some 1) true),
    .act 0 .count, .act 0 (.append (some .sync))]

theorem pendingWALBytes_accounted_rollback :
    ∃ s, Reaches (step sampleHost) (Allowed sampleHost) (boot ⟨[], 0⟩) s ∧
      s.requests.map Request.stage = [.failed (some [3, 4, 5]), .counted [6]] ∧
      s.entries = [[3, 4, 5], [6]] ∧ s.pendingWALBytes = 4 := by
  refine Reaches.exists_run_of (P := fun s =>
    s.requests.map Request.stage = [.failed (some [3, 4, 5]), .counted [6]] ∧
    s.entries = [[3, 4, 5], [6]]) sampleSchedule (by decide +kernel) ?_
  rintro s reached ⟨stages, entries⟩
  refine ⟨stages, entries, ?_⟩
  rw [(pendingWALBytes_accounted sampleHost ⟨[], 0⟩ reached).1, entries]
  rfl

end PubsubBroker.Publish.Backpressure
