/-
# Configuration.Patch — concurrent `PATCH /config` requests

`httpConfigPatch`, `applyConfigToLive` and `persistConfig` in
`internal/broker/http_config_patch.go`.  A request reads the current configuration, applies
its patch to a copy, pushes the copy to one live component after the other, makes it the
current configuration, writes it to a temporary file and renames that file.  No lock is held
from one of these steps to the next.

The broker was started with a `*Config` whose retention settings the topic manager keeps a
pointer to: until the first `Set`, pushing the retention settings changes the current
configuration in place (`Broker.get`).

Two requests that overlap lose one another's fields (`patch_lost`).  `patches_kept` is what
holds when every request reads after the earlier ones have set theirs, and writes after
they have written; the values of the compaction fields are also kept small enough for a
`time.Duration`, since a larger one is cut.

Left out: the reload of the file by its watcher, the audit record, and errors of the file
system.  A file is what `readFile` makes of it.
-/
import Mathlib.Algebra.Group.Nat.Defs
import PubsubBroker.Configuration.HotReload
import PubsubBroker.Auth.Rbac
import PubsubBroker.Theory.Transition

namespace PubsubBroker.Configuration

open Theory Auth List Option

/-! ## Live components -/

/-- In nanoseconds. -/
def millisecond : Int := 1000000

/-- `DurationMs`; a `time.Duration` has 64 bits. -/
def durationMs (ms : Int) : Int := Int.bmod (ms * millisecond) (2 ^ 64)

def defaultCompactionInterval : Int := 60 * 1000 * millisecond

inductive Level where
  | debug
  | info
  | warn
  | error

def Level.name : Level → String
  | .debug => "debug"
  | .info => "info"
  | .warn => "warn"
  | .error => "error"

structure Live where
  rateLimit : RateLimitConfig
  retention : RetentionConfig
  interval : Int
  tombstoneTTL : Int
  level : Level
  drainTimeoutMs : Int
  flowControlPauseMs : Int

/-- The components `applyConfigToLive` pushes to. -/
inductive Sink where
  | rateLimits
  | retention
  | compaction
  | level
  | drainTimeout
  | flowControlPause
deriving DecidableEq

def sinks : List Sink :=
  [.rateLimits, .retention, .compaction, .level, .drainTimeout, .flowControlPause]

section

variable (lower : String → String)

def parseLevel (s : String) : Level :=
  if lower s = "debug" then .debug
  else if lower s = "warn" then .warn
  else if lower s = "error" then .error
  else .info

/-- `KeyCompactor.UpdateConfig` -/
def Live.updateCompaction (live : Live) (interval graceMs : Int) : Live :=
  { live with
    interval := if interval ≤ 0 then defaultCompactionInterval else interval
    tombstoneTTL := durationMs (if graceMs < 0 then 0 else graceMs) }

def Live.push (cfg : Config) (live : Live) : Sink → Live
  | .rateLimits => { live with rateLimit := cfg.rateLimit }
  | .retention => { live with retention := cfg.retention }
  | .compaction =>
    live.updateCompaction (durationMs cfg.compaction.intervalMs) cfg.compaction.tombstoneGraceMs
  | .level => { live with level := parseLevel lower cfg.level }
  | .drainTimeout => { live with drainTimeoutMs := cfg.drainTimeoutMs }
  | .flowControlPause => { live with flowControlPauseMs := cfg.flowControlPauseMs }

/-- The components of a broker that starts with a configuration. -/
def Live.start (cfg : Config) : Live where
  rateLimit := cfg.rateLimit
  retention := cfg.retention
  interval :=
    let interval := durationMs cfg.compaction.intervalMs
    if interval ≤ 0 then defaultCompactionInterval else interval
  tombstoneTTL :=
    let grace := durationMs cfg.compaction.tombstoneGraceMs
    if grace < 0 then 0 else grace
  level := parseLevel lower cfg.level
  drainTimeoutMs := cfg.drainTimeoutMs
  flowControlPauseMs := cfg.flowControlPauseMs

/-! ## Requests -/

/-- Where `httpConfigPatch` is. -/
inductive Phase where
  /-- The changes passed the whitelist; the current configuration is not yet read. -/
  | fresh
  | pushing (candidate : Config) (sinks : List Sink)
  | persisting (candidate : Config)
  /-- The temporary file is written. -/
  | staged
  | done
  | refused (error : String)
deriving DecidableEq

def Phase.isPushing : Phase → Bool
  | .pushing _ _ => true
  | _ => false

structure Request where
  patch : Patch
  phase : Phase
deriving DecidableEq

structure Response where
  status : Nat
  error : String
  rejected : List String

/-- What is checked before the configuration is read.  `allowed` is the answer of the
rate limiter; the body is absent if it cannot be decoded. -/
def checkRequest (id : Option Identity) (allowed : Bool) (body : Option Patch) : Except Response Patch :=
  if !(id.any fun id => id.can .admin "") then .error ⟨403, "admin role required", []⟩
  else if !allowed then
    .error ⟨429, "rate limit exceeded: max 5 config changes per minute", []⟩
  else
    match body with
    | none => .error ⟨400, "invalid request body", []⟩
    | some patch =>
      if patch.entries = [] then
        .error ⟨400, "changes is required and must not be empty", []⟩
      else
        let rejected := (patch.entries.map Prod.fst).filter fun path => !path.isHotReloadable
        if rejected ≠ [] then
          .error ⟨400, "non-hot-reloadable fields require a restart", rejected.map (·.path)⟩
        else .ok patch

def candidate (cfg : Config) (patch : Patch) : Except String Config :=
  match applyPatch lower cfg patch with
  | .error err => .error err
  | .ok cfg =>
    match validate cfg with
    | .error err => .error ("validation: " ++ err)
    | .ok () => .ok cfg

structure Broker where
  /-- The configuration the broker was started with, but for its retention settings, which
  are those of the topic manager. -/
  initial : Config
  /-- What `Set` has stored. -/
  current : Option Config
  live : Live
  tmp : Option Config
  file : Config
  requests : List Request
  /-- The requests that have set their configuration, in that order. -/
  order : List (Nat × Patch)

def boot (cfg : Config) : Broker := ⟨cfg, none, .start lower cfg, none, cfg, [], []⟩

/-- `Loader.Get`, and the copy the request makes. -/
def Broker.get (s : Broker) : Config :=
  match s.current with
  | none => { s.initial with retention := s.live.retention }
  | some cfg => cfg

/-- The steps of an admitted request. -/
inductive Move where
  | read
  | push
  | set
  | write
  | rename

inductive Event where
  | patch (id : Option Identity) (allowed : Bool) (body : Option Patch)
  | move (i : Nat) (m : Move)

def Broker.goTo (s : Broker) (i : Nat) (r : Request) (phase : Phase) : Broker :=
  { s with requests := s.requests.set i { r with phase := phase } }

def advance (s : Broker) (i : Nat) (r : Request) : Move → Option Broker
  | .read =>
    match r.phase with
    | .fresh =>
      match candidate lower s.get r.patch with
      | .error err => some (s.goTo i r (.refused err))
      | .ok cfg => some (s.goTo i r (.pushing cfg sinks))
    | _ => none
  | .push =>
    match r.phase with
    | .pushing cfg (sink :: rest) =>
      some { s.goTo i r (.pushing cfg rest) with live := s.live.push lower cfg sink }
    | _ => none
  | .set =>
    match r.phase with
    | .pushing cfg [] =>
      some { s.goTo i r (.persisting cfg) with
        current := some cfg
        order := s.order ++ [(i, r.patch)] }
    | _ => none
  | .write =>
    match r.phase with
    | .persisting cfg => some { s.goTo i r .staged with tmp := some cfg }
    | _ => none
  | .rename =>
    match r.phase with
    | .staged =>
      match s.tmp with
      -- the rename fails; the broker logs a warning
      | none => some (s.goTo i r .done)
      | some cfg => some { s.goTo i r .done with tmp := none, file := cfg }
    | _ => none

def step (s : Broker) : Event → Option Broker
  | .patch id allowed body =>
    match checkRequest id allowed body with
    | .error _ => some s
    | .ok patch => some { s with requests := s.requests ++ [⟨patch, .fresh⟩] }
  | .move i m =>
    match s.requests[i]? with
    | none => none
    | some r => advance lower s i r m

/-! ## Orderly runs -/

/-- The most milliseconds a `time.Duration` holds. -/
def maxMs : Int := 9223372036854

/-- The compaction values of a patch fit a `time.Duration`. -/
def Patch.fits (patch : Patch) : Bool :=
  patch.entries.all fun
    | (.field .intervalMs, .number v) => v ≤ maxMs
    | (.field .tombstoneGraceMs, .number v) => v ≤ maxMs
    | _ => true

/-- A request reads when none is between its read and its `Set`, and writes when all that
set before it are done. -/
def orderly (s : Broker) : Event → Bool
  | .patch _ _ (some patch) => patch.fits
  | .move _ .read => s.requests.all fun r => !r.phase.isPushing
  | .move i .write =>
    (s.order.takeWhile fun x => x.1 ≠ i).all fun x =>
      s.requests[x.1]?.any fun r => r.phase = .done
  | _ => true

/-- What patches make of a configuration, one after the other. -/
def inOrder (base : Config) (order : List (Nat × Patch)) : Except String Config :=
  order.foldlM (fun cfg x => candidate lower cfg x.2) base

/-- The components after all pushes of a configuration. -/
def Live.of (cfg : Config) : Live := sinks.foldl (Live.push lower cfg) (.start lower cfg)

end

/-! ## The invariant of an orderly run -/

/-- The configuration `Set` has stored last, or that of the start. -/
def Broker.stored (s : Broker) : Config := s.current.getD s.initial

/-- `Set` is behind the request. -/
def Phase.isSet : Phase → Bool
  | .persisting _ | .staged | .done => true
  | _ => false

/-- The requests in `before` are in the file; those in `after` are on their way, the first
of them perhaps in the temporary file. -/
structure Written (lower : String → String) (base : Config) (s : Broker)
    (before after : List (Nat × Patch)) : Prop where
  split : s.order = before ++ after
  file : inOrder lower base before = .ok s.file
  finished : ∀ x ∈ before, ∃ r, s.requests[x.1]? = some r ∧ r.phase = .done
  pending : ∀ k x, after[k]? = some x → ∃ r cfg, s.requests[x.1]? = some r ∧
    inOrder lower base (before ++ after.take (k + 1)) = .ok cfg ∧
    (r.phase = .persisting cfg ∨ k = 0 ∧ r.phase = .staged ∧ s.tmp = some cfg)

structure Inv (lower : String → String) (base : Config) (s : Broker) : Prop where
  stored : inOrder lower base s.order = .ok s.stored
  pushing : ∀ (i : Nat) (r : Request) cfg rest, s.requests[i]? = some r →
    r.phase = .pushing cfg rest → candidate lower s.stored r.patch = .ok cfg ∧
      rest.foldl (Live.push lower cfg) s.live = .of lower cfg
  single : ∀ (i j : Nat) (r r' : Request), s.requests[i]? = some r → s.requests[j]? = some r' →
    r.phase.isPushing = true → r'.phase.isPushing = true → i = j
  quiet : (∀ r ∈ s.requests, r.phase.isPushing = false) → s.live = .of lower s.stored
  distinct : (s.order.map Prod.fst).Nodup
  listed : ∀ x ∈ s.order, ∃ r, s.requests[x.1]? = some r ∧ r.patch = x.2
  settled : ∀ i r, s.requests[i]? = some r → r.phase.isSet = true → i ∈ s.order.map Prod.fst
  written : ∃ before after, Written lower base s before after

section

variable {lower : String → String} {base cfg : Config} {s t : Broker} {i j : Nat}
  {r r' : Request} {phase : Phase} {before after : List (Nat × Patch)}

theorem push_all (cfg : Config) (live : Live) :
    sinks.foldl (Live.push lower cfg) live = .of lower cfg := rfl

theorem inOrder_snoc (ok : inOrder lower base before = .ok cfg) (x : Nat × Patch) :
    inOrder lower base (before ++ [x]) = candidate lower cfg x.2 := by
  simp only [inOrder, foldlM_append, foldlM_cons, foldlM_nil] at ok ⊢
  rw [ok]
  exact bind_pure (candidate lower cfg x.2)

theorem goTo_self (at_i : s.requests[i]? = some r) :
    (s.goTo i r phase).requests[i]? = some { r with phase := phase } :=
  List.getElem?_set_self (List.getElem?_eq_some_iff.mp at_i).1

theorem goTo_other (differ : j ≠ i) : (s.goTo i r phase).requests[j]? = s.requests[j]? :=
  getElem?_set_ne (Ne.symm differ)

theorem goTo_cases (at_i : s.requests[i]? = some r)
    (at_j : (s.goTo i r phase).requests[j]? = some r') :
    (j = i ∧ r' = { r with phase := phase }) ∨ (j ≠ i ∧ s.requests[j]? = some r') := by
  by_cases same : j = i
  · grind [goTo_self]
  · grind [goTo_other]

theorem Written.keep (written : Written lower base s before after) (order : t.order = s.order)
    (file : t.file = s.file) (tmp : t.tmp = s.tmp)
    (kept : ∀ j r, j ∈ s.order.map Prod.fst → s.requests[j]? = some r → t.requests[j]? = some r) :
    Written lower base t before after := by
  have listed : ∀ x ∈ before ++ after, x.1 ∈ s.order.map Prod.fst := by grind [split]
  refine ⟨order.trans written.split, file ▸ written.file, fun x mem => ?_, fun k x at_k => ?_⟩
  · grind [finished]
  · grind [pending]

theorem inv_boot (fits : Live.start lower base = .of lower base) :
    Inv lower base (boot lower base) where
  stored := rfl
  pushing := by simp [boot]
  single := by simp [boot]
  quiet := fun _ => fits
  distinct := by simp [boot]
  listed := by simp [boot]
  settled := by simp [boot]
  written := ⟨[], [], rfl, rfl, by simp, by simp⟩

theorem Written.snoc (written : Written lower base s before after) (at_i : s.requests[i]? = some r)
    (unlisted : i ∉ s.order.map Prod.fst)
    (ok : inOrder lower base (s.order ++ [(i, r.patch)]) = .ok cfg) :
    Written lower base
      { s.goTo i r (.persisting cfg) with
        current := some cfg
        order := s.order ++ [(i, r.patch)] } before (after ++ [(i, r.patch)]) := by
  have kept : ∀ x ∈ before ++ after,
      (s.goTo i r (.persisting cfg)).requests[x.1]? = s.requests[x.1]? := by
    intro x mem
    refine goTo_other fun here => unlisted ?_
    rw [written.split, ← here]
    exact mem_map_of_mem mem
  refine ⟨?_, written.file, fun x mem => ?_, fun k x at_k => ?_⟩
  · show s.order ++ _ = _
    rw [written.split, append_assoc]
  · grind [finished]
  · by_cases early : k < after.length
    · rw [getElem?_append_left early] at at_k
      obtain ⟨z, cfg', at_x, ok', stage⟩ := written.pending k x at_k
      have mem := mem_append_right before (mem_of_getElem? at_k)
      refine ⟨z, cfg', (kept x mem).trans at_x, ?_, stage⟩
      grind
    · have last : k = after.length := by grind
      subst last
      simp only [getElem?_concat_length, some.injEq] at at_k
      grind [goTo_self, split]

section

variable (inv : Inv lower base s)
include inv

theorem inv_patch (patch : Patch) :
    Inv lower base { s with requests := s.requests ++ [⟨patch, .fresh⟩] } := by
  have kept : ∀ (j : Nat) (r : Request), s.requests[j]? = some r →
      (s.requests ++ [(⟨patch, .fresh⟩ : Request)])[j]? = some r := by
    intro j r at_j
    rw [List.getElem?_append_left (List.getElem?_eq_some_iff.mp at_j).1, at_j]
  -- the new request is in none of the phases the invariant speaks about
  have old : ∀ (j : Nat) (r : Request),
      (s.requests ++ [(⟨patch, .fresh⟩ : Request)])[j]? = some r →
        s.requests[j]? = some r ∨ r.phase = .fresh := by
    intro j r at_j
    by_cases bound : j < s.requests.length
    · grind
    · grind
  refine { inv with
    pushing := ?_
    single := ?_
    quiet := ?_
    listed := ?_
    settled := ?_
    written := ?_ }
  · intro j r cfg rest at_j phase
    rcases old j r at_j with before | fresh
    · exact inv.pushing j r cfg rest before phase
    grind
  · intro j k r r' at_j at_k first second
    grind [Inv.single, Phase.isPushing]
  · exact fun none => inv.quiet fun r mem => none r (mem_append_left _ mem)
  · grind [Inv.listed]
  · grind [Inv.settled, Phase.isSet]
  · obtain ⟨before, after, written⟩ := inv.written
    exact ⟨before, after, written.keep rfl rfl rfl fun j r _ at_j => kept j r at_j⟩

theorem Inv.get_eq (none : ∀ r ∈ s.requests, r.phase.isPushing = false) : s.get = s.stored := by
  have live := inv.quiet none
  unfold Broker.get
  cases current : s.current with
  | some cfg => simp [Broker.stored, current]
  | none =>
    have retention : s.live.retention = s.initial.retention := by
      rw [live, Broker.stored, current]
      rfl
    simp [Broker.stored, current, retention]

/-- All that set before it are done, so the request is the first on its way. -/
theorem Inv.first_pending (written : Written lower base s before after) {k : Nat} {x : Nat × Patch}
    (at_k : after[k]? = some x) (waited : ((s.order.takeWhile fun y => y.1 ≠ x.1).all fun y =>
      s.requests[y.1]?.any fun r => r.phase = .done) = true) : k = 0 := by
  by_contra later
  obtain ⟨bound, here⟩ := List.getElem?_eq_some_iff.mp at_k
  obtain ⟨first, rest, rfl⟩ : ∃ first rest, after = first :: rest :=
    exists_cons_of_length_pos (by omega)
  have distinct := inv.distinct
  rw [written.split, map_append, map_cons, nodup_append, nodup_cons] at distinct
  obtain ⟨-, ⟨once, -⟩, apart⟩ := distinct
  have mem : x ∈ rest := by grind
  have differ : first.1 ≠ x.1 := fun same => once (same ▸ mem_map_of_mem mem)
  -- so `first` is among those that set before `x`
  have before_all : ∀ y ∈ before, decide (y.1 ≠ x.1) = true := by
    intro y early
    refine decide_eq_true fun same => ?_
    exact apart y.1 (mem_map_of_mem early) x.1
      (mem_cons_of_mem _ (mem_map_of_mem mem)) same
  have taken : first ∈ s.order.takeWhile fun y => y.1 ≠ x.1 := by
    rw [written.split, takeWhile_append_of_pos before_all,
      takeWhile_cons_of_pos (by simpa using differ)]
    simp
  have finished := all_eq_true.mp waited first taken
  obtain ⟨z, cfg, at_first, -, stage⟩ := written.pending 0 first rfl
  simp only [at_first, any_some, decide_eq_true_eq] at finished
  rcases stage with persisting | ⟨-, staged, -⟩
  · grind
  · grind

theorem Inv.first_apart (written : Written lower base s before after) {x : Nat × Patch}
    (at_zero : after[0]? = some x) :
    ∃ rest, after = x :: rest ∧ ∀ y ∈ before ++ rest, y.1 ≠ x.1 := by
  cases after with
  | nil => cases at_zero
  | cons first rest =>
    cases at_zero
    have distinct := inv.distinct
    rw [written.split, map_append, map_cons, nodup_append,
      nodup_cons] at distinct
    grind [mem_cons_self]

variable (at_i : s.requests[i]? = some r)
include at_i

theorem Inv.isSet_of_mem (mem : i ∈ s.order.map Prod.fst) : r.phase.isSet = true := by
  obtain ⟨before, after, written⟩ := inv.written
  obtain ⟨x, listed, rfl⟩ := mem_map.mp mem
  rw [written.split] at listed
  rcases mem_append.mp listed with early | late
  · obtain ⟨z, at_x, done⟩ := written.finished x early
    obtain rfl : r = z := some.inj (at_i.symm.trans at_x)
    rw [done]
    rfl
  · obtain ⟨k, at_k⟩ := mem_iff_getElem?.mp late
    obtain ⟨z, cfg, at_x, -, persisting | ⟨-, staged, -⟩⟩ := written.pending k x at_k
    · obtain rfl : r = z := some.inj (at_i.symm.trans at_x)
      rw [persisting]
      rfl
    · obtain rfl : r = z := some.inj (at_i.symm.trans at_x)
      rw [staged]
      rfl

theorem Inv.not_mem (unset : r.phase.isSet = false) : i ∉ s.order.map Prod.fst := by
  grind [isSet_of_mem]

theorem Inv.listed_goTo (x : Nat × Patch) (mem : x ∈ s.order) :
    ∃ r', (s.goTo i r phase).requests[x.1]? = some r' ∧ r'.patch = x.2 := by
  obtain ⟨z, at_x, same⟩ := inv.listed x mem
  by_cases here : x.1 = i
  · have found := here ▸ at_x
    obtain rfl : r = z := some.inj (at_i.symm.trans found)
    simp [goTo_self, here, same, found]
  · simp [goTo_other, at_x, same, here]

theorem Inv.written_goTo (unset : r.phase.isSet = false) (order : t.order = s.order)
    (file : t.file = s.file) (tmp : t.tmp = s.tmp)
    (requests : t.requests = (s.goTo i r phase).requests) :
    ∃ before after, Written lower base t before after := by
  obtain ⟨before, after, written⟩ := inv.written
  refine ⟨before, after, written.keep order file tmp fun j z mem at_j => ?_⟩
  have differ : j ≠ i := by grind [not_mem]
  rw [requests, goTo_other differ, at_j]

/-- **Read.**  Nobody is pushing, so the copy is of the stored configuration. -/
theorem inv_read (none : ∀ r ∈ s.requests, r.phase.isPushing = false)
    (fresh : r.phase.isSet = false) (chosen : phase.isSet = false)
    (copied : ∀ cfg rest, phase = .pushing cfg rest →
      candidate lower s.stored r.patch = .ok cfg ∧ rest = sinks) :
    Inv lower base (s.goTo i r phase) := by
  have alone : ∀ (j : Nat) (z : Request), (s.goTo i r phase).requests[j]? = some z →
      z.phase.isPushing = true → j = i ∧ z = { r with phase := phase } := by
    intro j z at_j pushing
    rcases goTo_cases at_i at_j with here | ⟨-, before⟩
    · exact here
    · grind
  refine ⟨inv.stored, ?_, ?_, ?_, inv.distinct, ?_, ?_, ?_⟩
  · intro j z cfg rest at_j pushing
    obtain ⟨-, rfl⟩ := alone j z at_j (by simp [pushing, Phase.isPushing])
    obtain ⟨ok, rfl⟩ := copied cfg rest pushing
    exact ⟨ok, push_all cfg s.live⟩
  · grind
  · exact fun _ => inv.quiet none
  · exact inv.listed_goTo at_i
  · intro j z at_j set
    rcases goTo_cases at_i at_j with ⟨-, rfl⟩ | ⟨-, before⟩
    · simp [chosen] at set
    · exact inv.settled j z before set
  · exact inv.written_goTo at_i fresh rfl rfl rfl rfl

/-- **Push.**  The components the request has still to push to are all that is left between
the live settings and its copy. -/
theorem inv_push {sink : Sink} {rest : List Sink} (at_phase : r.phase = .pushing cfg (sink :: rest)) :
    Inv lower base
      { s.goTo i r (.pushing cfg rest) with live := s.live.push lower cfg sink } := by
  have mine : r.phase.isPushing = true := by simp [at_phase, Phase.isPushing]
  have alone : ∀ (j : Nat) (z : Request), (s.goTo i r (.pushing cfg rest)).requests[j]? = some z →
      z.phase.isPushing = true → j = i ∧ z = { r with phase := .pushing cfg rest } := by
    intro j z at_j pushing
    rcases goTo_cases at_i at_j with here | ⟨differ, before⟩
    · exact here
    · grind [Inv.single]
  refine ⟨inv.stored, ?_, ?_, ?_, inv.distinct, ?_, ?_, ?_⟩
  · intro j z cfg' rest' at_j pushing
    obtain ⟨-, rfl⟩ := alone j z at_j (by simp [pushing, Phase.isPushing])
    cases pushing
    exact inv.pushing i r cfg (sink :: rest) at_i at_phase
  · grind
  · intro none
    have now := none _ (mem_of_getElem? (goTo_self at_i))
    simp [Phase.isPushing] at now
  · exact inv.listed_goTo at_i
  · intro j z at_j set
    rcases goTo_cases at_i at_j with ⟨-, rfl⟩ | ⟨-, before⟩
    · simp [Phase.isSet] at set
    · exact inv.settled j z before set
  · exact inv.written_goTo at_i (by simp [at_phase, Phase.isSet]) rfl rfl rfl rfl

/-- **Set.** -/
theorem inv_set (at_phase : r.phase = .pushing cfg []) :
    Inv lower base
      { s.goTo i r (.persisting cfg) with
        current := some cfg
        order := s.order ++ [(i, r.patch)] } := by
  have mine : r.phase.isPushing = true := by simp [at_phase, Phase.isPushing]
  have unlisted := inv.not_mem at_i (by simp [at_phase, Phase.isSet])
  obtain ⟨copied, pushed⟩ := inv.pushing i r cfg [] at_i at_phase
  have joined : inOrder lower base (s.order ++ [(i, r.patch)]) = .ok cfg :=
    (inOrder_snoc inv.stored _).trans copied
  have idle : ∀ (j : Nat) (z : Request), (s.goTo i r (.persisting cfg)).requests[j]? = some z →
      z.phase.isPushing = false := by
    intro j z at_j
    rcases goTo_cases at_i at_j with ⟨-, rfl⟩ | ⟨differ, before⟩
    · rfl
    · grind [Inv.single]
  refine ⟨joined, ?_, ?_, ?_, ?_, ?_, ?_, ?_⟩
  · grind [Phase.isPushing]
  · grind
  · exact fun _ => pushed
  · show ((s.order ++ [(i, r.patch)]).map Prod.fst).Nodup
    rw [map_append, nodup_append]
    grind [Inv.distinct]
  · intro x mem
    rcases mem_append.mp mem with old | new
    · exact inv.listed_goTo at_i x old
    grind [goTo_self]
  · intro j z at_j set
    show j ∈ (s.order ++ [(i, r.patch)]).map Prod.fst
    rw [map_append, mem_append]
    rcases goTo_cases at_i at_j with ⟨rfl, -⟩ | ⟨-, before⟩
    · exact .inr (by simp)
    grind [Inv.settled]
  · obtain ⟨before, after, written⟩ := inv.written
    exact ⟨before, _, written.snoc at_i unlisted joined⟩

theorem Inv.pending_at (written : Written lower base s before after) (set : r.phase.isSet = true)
    (undone : r.phase ≠ .done) : ∃ k : Nat, after[k]? = some (i, r.patch) := by
  obtain ⟨x, mem, rfl⟩ := mem_map.mp (inv.settled i r at_i set)
  obtain ⟨z, at_x, same⟩ := inv.listed x mem
  obtain rfl : r = z := some.inj (at_i.symm.trans at_x)
  rw [written.split] at mem
  rcases mem_append.mp mem with early | late
  · grind [Written.finished]
  · obtain ⟨k, at_k⟩ := mem_iff_getElem?.mp late
    exact ⟨k, by rw [at_k, same]⟩

/-- Moves behind `Set` keep what is known about the configuration and the components. -/
theorem Inv.behind (set : r.phase.isSet = true) (chosen : phase.isSet = true)
    (stored : t.stored = s.stored) (live : t.live = s.live) (order : t.order = s.order)
    (requests : t.requests = (s.goTo i r phase).requests)
    (written : ∃ before after, Written lower base t before after) : Inv lower base t := by
  have still : ∀ {p : Phase}, p.isSet = true → p.isPushing = false := by
    intro p set
    cases p <;> first | rfl | cases set
  have kept : ∀ (j : Nat) (z : Request), t.requests[j]? = some z →
      z.phase.isPushing = true → s.requests[j]? = some z := by
    intro j z at_j pushing
    rw [requests] at at_j
    rcases goTo_cases at_i at_j with ⟨-, rfl⟩ | ⟨-, before⟩
    · grind
    · exact before
  refine ⟨?_, ?_, ?_, ?_, order ▸ inv.distinct, ?_, ?_, written⟩
  · rw [order, stored]
    exact inv.stored
  · grind [pushing, Phase.isPushing]
  · grind [single]
  · intro none
    rw [live, stored]
    refine inv.quiet fun z mem => ?_
    obtain ⟨j, at_j⟩ := mem_iff_getElem?.mp mem
    by_cases here : j = i
    · grind
    · have moved : t.requests[j]? = some z := by rw [requests, goTo_other here, at_j]
      grind
  · intro x mem
    rw [requests]
    exact inv.listed_goTo at_i x (order ▸ mem)
  · intro j z at_j set'
    rw [requests] at at_j
    rw [order]
    rcases goTo_cases at_i at_j with ⟨rfl, -⟩ | ⟨-, before⟩
    · exact inv.settled j r at_i set
    · exact inv.settled j z before set'

/-- **Write.**  The request is the first on its way, so the temporary file is free. -/
theorem inv_write (at_phase : r.phase = .persisting cfg)
    (waited : ((s.order.takeWhile fun y => y.1 ≠ i).all fun y =>
      s.requests[y.1]?.any fun r => r.phase = .done) = true) :
    Inv lower base { s.goTo i r .staged with tmp := some cfg } := by
  have set : r.phase.isSet = true := by simp [at_phase, Phase.isSet]
  refine inv.behind at_i set rfl rfl rfl rfl rfl ?_
  obtain ⟨before, after, written⟩ := inv.written
  obtain ⟨k, at_k⟩ := inv.pending_at at_i written set (by simp [at_phase])
  obtain rfl : k = 0 := inv.first_pending written at_k waited
  obtain ⟨z, cfg', at_x, ok, stage⟩ := written.pending 0 _ at_k
  obtain rfl : r = z := some.inj (at_i.symm.trans at_x)
  have same : cfg' = cfg := by simpa [at_phase, eq_comm] using stage
  subst same
  obtain ⟨rest, rfl, elsewhere⟩ := inv.first_apart written at_k
  refine ⟨before, _, written.split, written.file, fun x mem => ?_, fun m x at_m => ?_⟩
  · obtain ⟨z, at_x, done⟩ := written.finished x mem
    simp [goTo_other, elsewhere, mem, at_x, done]
  · cases m with
    | zero => grind [goTo_self]
    | succ m =>
      obtain ⟨z, cfg, at_x, ok, stage⟩ := written.pending (m + 1) x at_m
      have late : x ∈ rest := mem_of_getElem? (by simpa using at_m)
      have persisting : z.phase = .persisting cfg := by simpa using stage
      grind [goTo_other]

/-- **Rename.**  Only the first request on its way has written the temporary file. -/
theorem inv_rename (at_phase : r.phase = .staged) :
    ∃ cfg, s.tmp = some cfg ∧
      Inv lower base { s.goTo i r .done with tmp := none, file := cfg } := by
  have set : r.phase.isSet = true := by simp [at_phase, Phase.isSet]
  obtain ⟨before, after, written⟩ := inv.written
  obtain ⟨k, at_k⟩ := inv.pending_at at_i written set (by simp [at_phase])
  obtain ⟨z, cfg, at_x, ok, stage⟩ := written.pending k _ at_k
  obtain rfl : r = z := some.inj (at_i.symm.trans at_x)
  obtain ⟨rfl, tmp⟩ : k = 0 ∧ s.tmp = some cfg := by simpa [at_phase] using stage
  refine ⟨cfg, tmp, inv.behind at_i set rfl rfl rfl rfl rfl ?_⟩
  obtain ⟨rest, rfl, elsewhere⟩ := inv.first_apart written at_k
  refine ⟨before ++ [(i, r.patch)], rest, ?_, ok, fun x mem => ?_, fun m x at_m => ?_⟩
  · rw [append_assoc]
    exact written.split
  · rcases mem_append.mp mem with early | last
    · grind [Written.finished, goTo_other]
    grind [goTo_self]
  · obtain ⟨z, cfg, at_x, ok, stage⟩ := written.pending (m + 1) x (by simpa using at_m)
    have late : x ∈ rest := mem_of_getElem? at_m
    have persisting : z.phase = .persisting cfg := by simpa using stage
    grind [goTo_other]

theorem inv_advance {m : Move} (ok : orderly s (.move i m) = true)
    (taken : advance lower s i r m = some t) : Inv lower base t := by
  cases m with
  | read =>
    have none : ∀ r ∈ s.requests, r.phase.isPushing = false := by simpa [orderly] using ok
    cases at_phase : r.phase <;> simp only [advance, at_phase, reduceCtorEq] at taken
    case fresh =>
      rw [inv.get_eq none] at taken
      cases copied : candidate lower s.stored r.patch with
      | error err =>
        simp only [copied, some.injEq] at taken
        subst taken
        refine inv_read inv at_i none (by simp [at_phase, Phase.isSet]) rfl ?_
        simp
      | ok cfg =>
        simp only [copied, some.injEq] at taken
        subst taken
        refine inv_read inv at_i none (by simp [at_phase, Phase.isSet]) rfl ?_
        simp [copied]
  | push =>
    cases at_phase : r.phase with
    | pushing cfg rest => grind [advance, inv_push]
    | _ => simp [advance, at_phase] at taken
  | set =>
    cases at_phase : r.phase with
    | pushing cfg rest => grind [advance, inv_set]
    | _ => simp [advance, at_phase] at taken
  | write =>
    cases at_phase : r.phase with
    | persisting cfg =>
      simp only [advance, at_phase, some.injEq] at taken
      exact taken ▸ inv_write inv at_i at_phase ok
    | _ => simp [advance, at_phase] at taken
  | rename =>
    cases at_phase : r.phase with
    | staged => grind [inv_rename, advance]
    | _ => simp [advance, at_phase] at taken

end

theorem inv_step (inv : Inv lower base s) {e : Event} (ok : orderly s e = true)
    (taken : step lower s e = some t) : Inv lower base t := by
  cases e with
  | patch id allowed body => grind [step, inv_patch]
  | move i m =>
    simp only [step] at taken
    cases at_i : s.requests[i]? with
    | none => simp [at_i] at taken
    | some r => grind [inv_advance]

end

/-! ## What the components hold -/

def Live.setting (live : Live) : Field → Setting
  | .rateLimitEnabled => .flag live.rateLimit.enabled
  | .perClientRPS => .int live.rateLimit.perClientRPS
  | .perTopicRPS => .int live.rateLimit.perTopicRPS
  | .maxAgeHours => .int live.retention.maxAgeHours
  | .maxSizeMB => .int live.retention.maxSizeMB
  | .intervalMs => .int live.interval
  | .tombstoneGraceMs => .int live.tombstoneTTL
  | .drainTimeoutMs => .int live.drainTimeoutMs
  | .flowControlPauseMs => .int live.flowControlPauseMs
  | .level => .text live.level.name

/-- What a component has to hold for a setting: the compactor counts in nanoseconds. -/
def Field.live : Field → Setting → Setting
  | .intervalMs, .int n => .int (n * millisecond)
  | .tombstoneGraceMs, .int n => .int (n * millisecond)
  | _, v => v

/-- What a component makes of a setting. -/
def Field.made (lower : String → String) : Field → Setting → Setting
  | .intervalMs, .int n =>
    .int (if durationMs n ≤ 0 then defaultCompactionInterval else durationMs n)
  | .tombstoneGraceMs, .int n => .int (durationMs (if n < 0 then 0 else n))
  | .level, .text t => .text (parseLevel lower t).name
  | _, v => v

def Field.Fits : Field → Setting → Prop
  | .intervalMs, .int n => n ≤ maxMs
  | .tombstoneGraceMs, .int n => n ≤ maxMs
  | _, _ => True

section

variable {lower : String → String} {base cfg : Config} {f : Field} {v : Setting}

theorem of_setting (cfg : Config) (f : Field) :
    (Live.of lower cfg).setting f = f.made lower (cfg.setting f) := by
  cases f <;> rfl

theorem durationMs_eq {n : Int} (least : -maxMs ≤ n) (most : n ≤ maxMs) :
    durationMs n = n * millisecond := by
  unfold maxMs at least most
  unfold durationMs millisecond
  rw [Int.bmod_eq_of_le] <;> omega

theorem parseLevel_name (idempotent : ∀ t, lower (lower t) = lower t) {t : String}
    (known : lower t ∈ ["debug", "info", "warn", "error"]) :
    (parseLevel lower (lower t)).name = lower t := by
  unfold parseLevel
  rw [idempotent t]
  simp only [mem_cons, not_mem_nil, or_false] at known
  rcases known with same | same | same | same <;> rw [same] <;> rfl

theorem made_eq (idempotent : ∀ t, lower (lower t) = lower t) (accepts : f.Accepts lower v)
    (fits : f.Fits v) : f.made lower v = f.live v := by
  cases f with
  | intervalMs =>
    obtain ⟨n, rfl, least⟩ := accepts
    have whole : durationMs n = n * millisecond := durationMs_eq (by unfold maxMs; omega) fits
    simp [millisecond, Field.made, Field.live, whole]; omega
  | tombstoneGraceMs =>
    obtain ⟨n, rfl, least⟩ := accepts
    have whole : durationMs n = n * millisecond := durationMs_eq (by unfold maxMs; omega) fits
    grind [Field.made, Field.live]
  | level =>
    obtain ⟨t, rfl, known⟩ := accepts
    simp [Field.made, Field.live, parseLevel_name idempotent known]
  | _ => rfl

theorem Patch.fits_setting {patch : Patch} (fits : patch.fits = true)
    (asked : patch.setting lower f = some v) : f.Fits v := by
  obtain ⟨raw, mem, asked⟩ := patch.mem_of_setting lower asked
  have small := all_eq_true.mp fits _ mem
  cases f with
  | intervalMs | tombstoneGraceMs =>
    cases raw <;> cases asked <;> first | trivial | simpa [Field.Fits] using small
  | _ => trivial

/-- A broker whose grace period fits starts as a push of its configuration would leave it. -/
theorem start_eq (least : -maxMs ≤ base.compaction.tombstoneGraceMs)
    (most : base.compaction.tombstoneGraceMs ≤ maxMs) :
    Live.start lower base = .of lower base := by
  have grace : (Live.start lower base).tombstoneTTL = (Live.of lower base).tombstoneTTL := by
    show (if durationMs _ < 0 then 0 else durationMs _) = durationMs (if _ < 0 then 0 else _)
    rw [durationMs_eq least most]
    unfold millisecond
    by_cases negative : base.compaction.tombstoneGraceMs < 0
    · rw [if_pos (by omega), if_pos negative]
      rfl
    · rw [if_neg (by omega), if_neg negative, durationMs_eq least most]
      rfl
  show Live.mk _ _ _ (Live.start lower base).tombstoneTTL _ _ _ = _
  rw [grace]
  rfl

end

/-! ## Two requests -/

/-- The current configuration, the file and the components hold the settings that were
asked for, and the rest is as it was at the start. -/
structure Holds (lower : String → String) (base : Config) (asked : Field → Option Setting)
    (s : Broker) : Prop where
  memory : ∀ f, s.get.setting f = (asked f).getD (base.setting f)
  file : ∀ f, s.file.setting f = (asked f).getD (base.setting f)
  live : ∀ f, s.live.setting f = ((asked f).map f.live).getD ((Live.start lower base).setting f)
  memoryOthers : s.get.others = base.others
  fileOthers : s.file.others = base.others
  liveOthers : s.live.rateLimit.burstMultiplier = base.rateLimit.burstMultiplier

/-- The request has not begun, or was refused. -/
def Phase.isIdle : Phase → Bool
  | .fresh | .refused _ => true
  | _ => false

section

variable {lower : String → String} {base cfg : Config} {s : Broker} {i j : Nat} {p q : Patch}

theorem applied_of_candidate (ok : candidate lower base p = .ok cfg) :
    applyPatch lower base p = .ok cfg := by
  unfold candidate at ok
  cases applied : applyPatch lower base p with
  | error err => simp [applied] at ok
  | ok copy => grind

/-- Two patches in a row. -/
structure Both (lower : String → String) (base cfg : Config) (p q : Patch) : Prop where
  setting : ∀ f, cfg.setting f =
    (q.setting lower f).getD ((p.setting lower f).getD (base.setting f))
  others : cfg.others = base.others
  accepts : ∀ f v, p.setting lower f = some v ∨ q.setting lower f = some v → f.Accepts lower v

theorem both_of_inOrder (ok : inOrder lower base [(i, p), (j, q)] = .ok cfg) :
    Both lower base cfg p q := by
  cases first : candidate lower base p with
  | error err =>
    simp only [inOrder, foldlM_cons, first] at ok
    cases ok
  | ok mid =>
    have one : inOrder lower base ([] ++ [(i, p)]) = .ok mid := (inOrder_snoc rfl (i, p)).trans first
    have second : candidate lower mid q = .ok cfg := (inOrder_snoc one (j, q)).symm.trans ok
    obtain ⟨mid_setting, mid_others⟩ := applyPatch_setting lower (applied_of_candidate first)
    obtain ⟨setting, others⟩ := applyPatch_setting lower (applied_of_candidate second)
    refine ⟨fun f => by rw [setting f, mid_setting f], others.trans mid_others, ?_⟩
    rintro f v (asked | asked)
    · exact accepts_of_applyPatch lower (applied_of_candidate first) asked
    · exact accepts_of_applyPatch lower (applied_of_candidate second) asked

theorem advance_requests {t : Broker} {r : Request} {m : Move}
    (taken : advance lower s i r m = some t) :
    ∃ phase, t.requests = s.requests.set i { r with phase := phase } := by
  cases m with
  | read =>
    cases at_phase : r.phase <;> simp only [advance, at_phase, reduceCtorEq] at taken
    cases copied : candidate lower s.get r.patch <;>
      simp only [copied, some.injEq] at taken <;> subst taken <;> exact ⟨_, rfl⟩
  | push | set =>
    cases at_phase : r.phase <;> simp only [advance, at_phase, reduceCtorEq] at taken
    split at taken <;> cases taken
    exact ⟨_, rfl⟩
  | write =>
    cases at_phase : r.phase <;> simp only [advance, at_phase, reduceCtorEq] at taken
    cases taken
    exact ⟨_, rfl⟩
  | rename =>
    cases at_phase : r.phase <;> simp only [advance, at_phase, reduceCtorEq] at taken
    split at taken <;> cases taken <;> exact ⟨_, rfl⟩

theorem checkRequest_ok {id : Option Identity} {allowed : Bool} {body : Option Patch}
    (ok : checkRequest id allowed body = .ok p) : body = some p := by
  unfold checkRequest at ok
  split at ok
  · cases ok
  split at ok
  · cases ok
  cases body with
  | none => cases ok
  | some patch => grind

theorem fits_reached
    (reached : Reaches (step lower) (fun s e => orderly s e = true) (boot lower base) s) :
    ∀ r ∈ s.requests, r.patch.fits = true := by
  induction reached with
  | init => simp [boot]
  | @step s t e _ ok taken ih =>
    cases e with
    | patch id allowed body =>
      simp only [step] at taken
      cases answer : checkRequest id allowed body with
      | error response => grind
      | ok patch =>
        simp only [answer, some.injEq] at taken
        subst taken
        intro r mem
        rcases mem_append.mp mem with old | new
        · exact ih r old
        · rw [mem_singleton.mp new]
          obtain rfl := checkRequest_ok answer
          exact ok
    | move i m =>
      simp only [step] at taken
      cases at_i : s.requests[i]? with
      | none => simp [at_i] at taken
      | some r => grind [advance_requests]

/-- When the two accepted requests are done and no other has begun, the order is one of the
two, and nothing is on its way. -/
theorem Inv.order_eq (inv : Inv lower base s) (first : s.requests[i]? = some ⟨p, .done⟩)
    (second : s.requests[j]? = some ⟨q, .done⟩) (apart : i ≠ j)
    (rest : ∀ (k : Nat) (r : Request), k ≠ i → k ≠ j → s.requests[k]? = some r →
      r.phase.isIdle = true) :
    s.order = [(i, p), (j, q)] ∨ s.order = [(j, q), (i, p)] := by
  have patchOf : ∀ x ∈ s.order, (x.1 = i → x.2 = p) ∧ (x.1 = j → x.2 = q) := by grind [listed]
  have only : ∀ k ∈ s.order.map Prod.fst, k = i ∨ k = j := by
    intro k mem
    by_contra other
    obtain ⟨x, listed, rfl⟩ := mem_map.mp mem
    obtain ⟨r, at_x, -⟩ := inv.listed x listed
    have idle := rest x.1 r (fun h => other (.inl h)) (fun h => other (.inr h)) at_x
    have set := inv.isSet_of_mem at_x mem
    cases phase : r.phase <;> simp [phase, Phase.isIdle, Phase.isSet] at idle set
  have perm : List.Perm (s.order.map Prod.fst) [i, j] := by
    refine (perm_ext_iff_of_nodup inv.distinct (by simpa using apart)).mpr fun k => ?_
    constructor
    · intro mem
      simpa using only k mem
    · intro mem
      rcases mem_pair.mp mem with rfl | rfl
      · exact inv.settled _ _ first rfl
      · exact inv.settled _ _ second rfl
  have two : s.order.length = 2 := by simpa using perm.length_eq
  obtain ⟨x, y, pair⟩ := length_eq_two.mp two
  have distinct := inv.distinct
  rw [pair] at patchOf only distinct
  have differ : x.1 ≠ y.1 := by simpa using distinct
  have first_of := patchOf x (by simp)
  have second_of := patchOf y (by simp)
  rw [pair]
  rcases only x.1 (by simp) with here | there
  · grind
  · grind

theorem Inv.file_eq (inv : Inv lower base s)
    (still : ∀ (k : Nat) (r : Request), s.requests[k]? = some r →
      r.phase = .done ∨ r.phase.isIdle = true) :
    s.file = s.stored := by
  obtain ⟨before, after, written⟩ := inv.written
  have none : after = [] := by
    cases after with
    | nil => rfl
    | cons x rest =>
      obtain ⟨r, cfg, at_x, -, persisting | ⟨-, staged, -⟩⟩ := written.pending 0 x rfl
      · grind [Phase.isIdle]
      grind [Phase.isIdle]
  subst none
  have all := inv.stored
  rw [written.split, append_nil, written.file] at all
  exact Except.ok.inj all

theorem holds_of_both {asked : Field → Option Setting} (both : Both lower base s.stored p q)
    (idempotent : ∀ t, lower (lower t) = lower t)
    (start : Live.start lower base = .of lower base) (get : s.get = s.stored)
    (file : s.file = s.stored) (live : s.live = .of lower s.stored)
    (together : ∀ f, asked f = (q.setting lower f).or (p.setting lower f))
    (fits : ∀ f v, asked f = some v → f.Fits v) : Holds lower base asked s := by
  have setting : ∀ f, s.stored.setting f = (asked f).getD (base.setting f) := by
    grind [Both.setting]
  refine ⟨get ▸ setting, file ▸ setting, fun f => ?_, get ▸ both.others, file ▸ both.others, ?_⟩
  · rw [live, of_setting, setting f, start]
    cases what : asked f with
    | none => exact (of_setting base f).symm
    | some v =>
      have mine : p.setting lower f = some v ∨ q.setting lower f = some v := by
        rw [together f] at what
        exact (or_eq_some_iff.mp what).symm.imp And.right id
      grind [made_eq, Both.accepts]
  · rw [live]
    exact congrArg Prod.fst both.others

theorem inv_reached (start : Live.start lower base = .of lower base)
    (reached : Reaches (step lower) (fun s e => orderly s e = true) (boot lower base) s) :
    Inv lower base s := by
  induction reached with
  | init => exact inv_boot start
  | step _ ok taken ih => exact inv_step ih ok taken

theorem disjoint_settings (disjoint : ∀ x ∈ p.entries, ∀ y ∈ q.entries, x.1 ≠ y.1) (f : Field) :
    (q.setting lower f).or (p.setting lower f) = (p.setting lower f).or (q.setting lower f) := by
  cases first : p.setting lower f with
  | none => simp
  | some v => grind [Patch.setting]

end

/-- **Patches are kept.**  Two requests that change different fields are accepted and done,
in a run in which every request reads after the earlier ones have set and writes after they
have written, with compaction times that fit a `time.Duration`.  Then the current
configuration, the file and the components hold the new values of both, and everything else
is as it was. -/
theorem patches_kept (lower : String → String) (idempotent : ∀ t, lower (lower t) = lower t)
    (base : Config) (least : -maxMs ≤ base.compaction.tombstoneGraceMs)
    (most : base.compaction.tombstoneGraceMs ≤ maxMs) (s : Broker)
    (reached : Reaches (step lower) (fun s e => orderly s e = true) (boot lower base) s)
    (i j : Nat) (p q : Patch) (first : s.requests[i]? = some ⟨p, .done⟩)
    (second : s.requests[j]? = some ⟨q, .done⟩) (apart : i ≠ j)
    (rest : ∀ (k : Nat) (r : Request), k ≠ i → k ≠ j → s.requests[k]? = some r →
      r.phase.isIdle = true)
    (disjoint : ∀ x ∈ p.entries, ∀ y ∈ q.entries, x.1 ≠ y.1) :
    Holds lower base (fun f => (p.setting lower f).or (q.setting lower f)) s := by
  have start : Live.start lower base = .of lower base := start_eq least most
  have inv := inv_reached start reached
  have still : ∀ (k : Nat) (r : Request), s.requests[k]? = some r →
      r.phase = .done ∨ r.phase.isIdle = true := by
    intro k r at_k
    by_cases here : k = i
    · grind
    · grind
  have quiet : ∀ r ∈ s.requests, r.phase.isPushing = false := by
    intro r mem
    obtain ⟨k, at_k⟩ := mem_iff_getElem?.mp mem
    have still := still k r at_k
    cases phase : r.phase <;> simp_all [Phase.isPushing, Phase.isIdle]
  have fits : ∀ f v, (p.setting lower f).or (q.setting lower f) = some v → f.Fits v := by
    intro f v asked
    have patches := fits_reached reached
    rcases or_eq_some_iff.mp asked with mine | ⟨-, mine⟩
    · exact Patch.fits_setting (patches _ (mem_of_getElem? first)) mine
    · exact Patch.fits_setting (patches _ (mem_of_getElem? second)) mine
  have get := inv.get_eq quiet
  have file := inv.file_eq still
  have live := inv.quiet quiet
  -- whichever of the two was set last
  rcases inv.order_eq first second apart rest with order | order
  · have both := both_of_inOrder (order ▸ inv.stored)
    grind [holds_of_both, disjoint_settings]
  · have both := both_of_inOrder (order ▸ inv.stored)
    exact holds_of_both both idempotent start get file live (fun f => rfl) fits

section Sample

def sampleConfig : Config :=
  ⟨⟨false, 10, 10, 2⟩, ⟨24, 1024⟩, ⟨60000, 1000⟩, 5000, 100, "info", 9000, 1, "wal", "data", ""⟩

def drainPatch : Patch := ⟨[(.field .drainTimeoutMs, .number 9000)], by decide⟩

def pausePatch : Patch :=
  ⟨[(.field .flowControlPauseMs, .number 50), (.field .intervalMs, .number 500)], by decide⟩

def operator : Identity := ⟨"ops", .admin, []⟩

/-- From the read to the rename. -/
def whole (i : Nat) : List Event :=
  .move i .read :: List.replicate 6 (.move i .push)
    ++ [.move i .set, .move i .write, .move i .rename]

def arrivals : List Event :=
  [.patch (some operator) true (some drainPatch), .patch (some operator) true (some pausePatch)]

theorem patches_kept_sample :
    ∃ s, Reaches (step id) (fun s e => orderly s e = true) (boot id sampleConfig) s ∧
      s.requests = [⟨drainPatch, .done⟩, ⟨pausePatch, .done⟩] ∧
      Holds id sampleConfig
        (fun f => (drainPatch.setting id f).or (pausePatch.setting id f)) s := by
  refine Reaches.exists_run_of (P := fun s => s.requests = [⟨drainPatch, .done⟩, ⟨pausePatch, .done⟩])
    (arrivals ++ whole 1 ++ whole 0) (by decide +kernel) fun s reached requests => ⟨requests, ?_⟩
  refine patches_kept id (fun _ => rfl) sampleConfig (by decide) (by decide) s reached 0 1 drainPatch
    pausePatch (by rw [requests]; rfl) (by rw [requests]; rfl) (by decide) ?_ (by decide)
  intro k r here there at_k
  rw [requests] at at_k
  have bound := (List.getElem?_eq_some_iff.mp at_k).1
  simp at bound
  omega

/-- **A patch is lost.**  Both requests read before either sets; the second to set brings
back the drain timeout of the start, in memory, in the component and in the file. -/
theorem patch_lost :
    ∃ s, Reaches (step id) (fun _ _ => True) (boot id sampleConfig) s ∧
      s.requests = [⟨drainPatch, .done⟩, ⟨pausePatch, .done⟩] ∧
      drainPatch.setting id .drainTimeoutMs = some (.int 9000) ∧
      s.get.drainTimeoutMs = 5000 ∧ s.live.drainTimeoutMs = 5000 ∧ s.file.drainTimeoutMs = 5000 :=
  Reaches.exists_run (arrivals ++ .move 1 .read :: whole 0 ++ (whole 1).tail) (by decide +kernel)

end Sample

end PubsubBroker.Configuration
