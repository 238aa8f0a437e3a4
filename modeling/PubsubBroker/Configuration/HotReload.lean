/-
# Configuration.HotReload — patching the fields that may change at run time

`internal/config/hotreload.go` and `validate` in `config.go`.  A patch is a map from field
paths to JSON values; `ApplyPatch` copies the configuration and sets one field after the
other, or refuses the whole patch.

A configuration is read through `setting`, one value per hot-reloadable field, and
`others`, what no patch may touch.  `applyPatch_setting` says what an accepted patch does in
these terms: the patch's values in its fields, and nothing else.

`broker.drain_timeout_ms` is on the whitelist, but `applyField` does not know it.

Left out: the fields of the configuration that neither a patch nor `validate` reads.
-/
import Mathlib.Data.List.Basic
import Mathlib.Data.List.Nodup

namespace PubsubBroker.Configuration

open List

structure RateLimitConfig where
  enabled : Bool
  perClientRPS : Int
  perTopicRPS : Int
  burstMultiplier : Int
deriving DecidableEq

structure RetentionConfig where
  maxAgeHours : Int
  maxSizeMB : Int
deriving DecidableEq

structure CompactionConfig where
  intervalMs : Int
  tombstoneGraceMs : Int
deriving DecidableEq

structure Config where
  rateLimit : RateLimitConfig
  retention : RetentionConfig
  compaction : CompactionConfig
  drainTimeoutMs : Int
  flowControlPauseMs : Int
  level : String
  port : Int
  factor : Int
  walPath : String
  dataPath : String
  syncPolicy : String
deriving DecidableEq

def validate (cfg : Config) : Except String Unit :=
  if cfg.port < 0 ∨ cfg.port > 65534 then
    .error ("network.port must be between 0 and 65534 (0 = OS-assigned; 65535 reserved for " ++
      "HTTP admin), got " ++ toString cfg.port)
  else if cfg.factor < 1 then .error "replication.factor must be >= 1"
  else if cfg.walPath = "" then .error "storage.wal_path must not be empty"
  else if cfg.dataPath = "" then .error "storage.data_path must not be empty"
  else if cfg.syncPolicy ∉ ["", "interval", "always", "os"] then
    .error ("storage.sync_policy must be \"always\", \"interval\", or \"os\", got " ++
      cfg.syncPolicy.quote)
  else .ok ()

/-! ## Fields and values -/

/-- The fields `applyField` can set. -/
inductive Field where
  | rateLimitEnabled
  | perClientRPS
  | perTopicRPS
  | maxAgeHours
  | maxSizeMB
  | intervalMs
  | tombstoneGraceMs
  | drainTimeoutMs
  | flowControlPauseMs
  | level
deriving DecidableEq

def Field.path : Field → String
  | .rateLimitEnabled => "rate_limit.enabled"
  | .perClientRPS => "rate_limit.per_client_rps"
  | .perTopicRPS => "rate_limit.per_topic_rps"
  | .maxAgeHours => "retention.max_age_hours"
  | .maxSizeMB => "retention.max_size_mb"
  | .intervalMs => "compaction.interval_ms"
  | .tombstoneGraceMs => "compaction.tombstone_grace_ms"
  | .drainTimeoutMs => "drain_timeout_ms"
  | .flowControlPauseMs => "flow_control_pause_ms"
  | .level => "logging.level"

inductive FieldPath where
  | field (f : Field)
  | brokerDrainTimeoutMs
  /-- Any other path, the two aliases the whitelist has as `false` among them. -/
  | other (path : String)
deriving DecidableEq

def FieldPath.path : FieldPath → String
  | .field f => f.path
  | .brokerDrainTimeoutMs => "broker.drain_timeout_ms"
  | .other path => path

def FieldPath.isHotReloadable : FieldPath → Bool
  | .field _ => true
  | .brokerDrainTimeoutMs => true
  | .other _ => false

/-- A decoded JSON value.  A number stands for what `int(v)` makes of it. -/
inductive Value where
  | null
  | bool (v : Bool)
  | number (v : Int)
  | text (v : String)
  | array
  | object
deriving DecidableEq

/-- What `%T` prints. -/
def Value.goType : Value → String
  | .null => "<nil>"
  | .bool _ => "bool"
  | .number _ => "float64"
  | .text _ => "string"
  | .array => "[]interface \x7b\x7d"
  | .object => "map[string]interface \x7b\x7d"

/-! ## Applying a patch -/

/-- A numeric field: `toInt` or `toInt64`, and the bound. -/
def number (name : String) (least : Int) (bound : String) (raw : Value) : Except String Int :=
  match raw with
  | .number v =>
    if v < least then .error (name ++ " must be " ++ bound ++ ", got " ++ toString v) else .ok v
  | _ => .error (name ++ ": expected numeric, got " ++ raw.goType)

def positive (name : String) (raw : Value) : Except String Int := number name 1 "> 0" raw

def nonNegative (name : String) (raw : Value) : Except String Int := number name 0 ">= 0" raw

section

variable (lower : String → String)

/-- `lower` is `strings.ToLower`. -/
def applyField (cfg : Config) (path : FieldPath) (raw : Value) : Except String Config :=
  match path with
  | .field .rateLimitEnabled =>
    match raw with
    | .bool v => .ok { cfg with rateLimit.enabled := v }
    | _ => .error ("expected bool, got " ++ raw.goType)
  | .field .perClientRPS =>
    (positive "per_client_rps" raw).map fun v => { cfg with rateLimit.perClientRPS := v }
  | .field .perTopicRPS =>
    (positive "per_topic_rps" raw).map fun v => { cfg with rateLimit.perTopicRPS := v }
  | .field .maxAgeHours =>
    (nonNegative "max_age_hours" raw).map fun v => { cfg with retention.maxAgeHours := v }
  | .field .maxSizeMB =>
    (nonNegative "max_size_mb" raw).map fun v => { cfg with retention.maxSizeMB := v }
  | .field .intervalMs =>
    (positive "interval_ms" raw).map fun v => { cfg with compaction.intervalMs := v }
  | .field .tombstoneGraceMs =>
    (nonNegative "tombstone_grace_ms" raw).map fun v =>
      { cfg with compaction.tombstoneGraceMs := v }
  | .field .drainTimeoutMs =>
    (positive "drain_timeout_ms" raw).map fun v => { cfg with drainTimeoutMs := v }
  | .field .flowControlPauseMs =>
    (nonNegative "flow_control_pause_ms" raw).map fun v => { cfg with flowControlPauseMs := v }
  | .field .level =>
    match raw with
    | .text v =>
      if lower v ∈ ["debug", "info", "warn", "error"] then .ok { cfg with level := lower v }
      else .error ("logging.level must be one of debug/info/warn/error, got " ++ v.quote)
    | _ => .error ("expected string, got " ++ raw.goType)
  | path => .error ("field " ++ path.path.quote ++ " is not hot-reloadable and requires a restart")

/-- The loop over the patch, in the order the map is visited. -/
def applyEntries (cfg : Config) : List (FieldPath × Value) → Except String Config
  | [] => .ok cfg
  | (path, raw) :: entries =>
    match applyField lower cfg path raw with
    | .error err => .error ("apply patch " ++ path.path.quote ++ ": " ++ err)
    | .ok cfg => applyEntries cfg entries

/-- The changes of a request: a map, so no path occurs twice. -/
structure Patch where
  entries : List (FieldPath × Value)
  distinct : (entries.map Prod.fst).Nodup
deriving DecidableEq

def applyPatch (base : Config) (patch : Patch) : Except String Config :=
  applyEntries lower base patch.entries

/-! ## What a patch does -/

inductive Setting where
  | flag (v : Bool)
  | int (v : Int)
  | text (v : String)
deriving DecidableEq

def Config.setting (cfg : Config) : Field → Setting
  | .rateLimitEnabled => .flag cfg.rateLimit.enabled
  | .perClientRPS => .int cfg.rateLimit.perClientRPS
  | .perTopicRPS => .int cfg.rateLimit.perTopicRPS
  | .maxAgeHours => .int cfg.retention.maxAgeHours
  | .maxSizeMB => .int cfg.retention.maxSizeMB
  | .intervalMs => .int cfg.compaction.intervalMs
  | .tombstoneGraceMs => .int cfg.compaction.tombstoneGraceMs
  | .drainTimeoutMs => .int cfg.drainTimeoutMs
  | .flowControlPauseMs => .int cfg.flowControlPauseMs
  | .level => .text cfg.level

def Config.others (cfg : Config) : Int × Int × Int × String × String × String :=
  (cfg.rateLimit.burstMultiplier, cfg.port, cfg.factor, cfg.walPath, cfg.dataPath, cfg.syncPolicy)

def Value.setting : Value → Option Setting
  | .bool v => some (.flag v)
  | .number v => some (.int v)
  | .text v => some (.text (lower v))
  | _ => none

/-- The setting a patch asks for in a field, if it mentions the field. -/
def Patch.setting (patch : Patch) (f : Field) : Option Setting :=
  (patch.entries.find? fun entry => entry.1 = .field f).bind fun entry => entry.2.setting lower

/-- `cfg'` is `cfg` with the setting of one field replaced. -/
structure Sets (cfg cfg' : Config) (f : Field) (v : Setting) : Prop where
  here : cfg'.setting f = v
  elsewhere : ∀ g, g ≠ f → cfg'.setting g = cfg.setting g
  others : cfg'.others = cfg.others

variable {name bound : String} {least : Int} {raw : Value}

theorem number_ok {v : Int} (ok : number name least bound raw = .ok v) : raw = .number v := by
  cases raw with
  | number w =>
    by_cases small : w < least
    · simp [number, small] at ok
    · simp only [number, small, if_false, Except.ok.injEq] at ok
      rw [ok]
  | _ => cases ok

theorem number_least {v : Int} (ok : number name least bound raw = .ok v) : least ≤ v := by
  obtain rfl := number_ok ok
  simpa [number] using ok

variable {cfg cfg' : Config} {f : Field}

theorem sets_number {put : Int → Config} (ok : (number name least bound raw).map put = .ok cfg')
    (sets : ∀ v, Sets cfg (put v) f (.int v)) :
    ∃ v, raw.setting lower = some v ∧ Sets cfg cfg' f v := by
  cases accepted : number name least bound raw with
  | error err => simp [accepted, Except.map] at ok
  | ok v =>
    simp only [accepted, Except.map, Except.ok.injEq] at ok
    subst ok
    exact ⟨.int v, by rw [number_ok accepted]; rfl, sets v⟩

/-- **One field.**  An accepted value is set in its field, and nothing else changes. -/
theorem applyField_ok {path : FieldPath} (ok : applyField lower cfg path raw = .ok cfg') :
    ∃ f v, path = .field f ∧ raw.setting lower = some v ∧ Sets cfg cfg' f v := by
  cases path with
  | brokerDrainTimeoutMs | other path => cases ok
  | field f =>
    refine ⟨f, ?_⟩
    suffices ∃ v, raw.setting lower = some v ∧ Sets cfg cfg' f v by simp [this]
    cases f with
    | rateLimitEnabled =>
      cases raw with
      | bool v =>
        cases ok
        exact ⟨.flag v, rfl, rfl, fun g differ => by cases g <;> first | rfl | contradiction, rfl⟩
      | _ => cases ok
    | level =>
      cases raw with
      | text v =>
        simp only [applyField] at ok
        split at ok
        case isFalse => cases ok
        case isTrue =>
          cases ok
          exact ⟨.text (lower v), rfl, rfl,
            fun g differ => by cases g <;> first | rfl | contradiction, rfl⟩
      | _ => cases ok
    | _ =>
      refine sets_number lower ok fun v => ⟨rfl, fun g differ => ?_, rfl⟩
      cases g <;> first | rfl | contradiction

variable {entries : List (FieldPath × Value)}

theorem applyEntries_ok (distinct : (entries.map Prod.fst).Nodup)
    (ok : applyEntries lower cfg entries = .ok cfg') :
    (∀ f, cfg'.setting f =
      ((entries.find? fun entry => entry.1 = .field f).bind fun entry =>
        entry.2.setting lower).getD (cfg.setting f)) ∧ cfg'.others = cfg.others := by
  induction entries generalizing cfg with
  | nil =>
    cases ok
    exact ⟨fun f => rfl, rfl⟩
  | cons entry entries ih =>
    obtain ⟨path, raw⟩ := entry
    rw [map_cons, nodup_cons] at distinct
    obtain ⟨once, distinct⟩ := distinct
    rw [applyEntries] at ok
    cases applied : applyField lower cfg path raw with
    | error err => simp [applied] at ok
    | ok mid =>
      simp only [applied] at ok
      obtain ⟨g, v, rfl, asked, sets⟩ := applyField_ok lower applied
      obtain ⟨later, others⟩ := ih distinct ok
      refine ⟨fun f => ?_, others.trans sets.others⟩
      rw [later f]
      by_cases here : g = f
      · -- the rest of the patch does not mention this field again
        subst here
        have absent : entries.find? (fun entry => entry.1 = .field g) = none := by grind
        simp [absent, asked, sets.here]
      · rw [sets.elsewhere f (Ne.symm here)]
        simp [here]

/-- What the bounds of the fields that are converted on their way to a live component
leave. -/
def Field.Accepts : Field → Setting → Prop
  | .intervalMs, v => ∃ n, v = .int n ∧ 1 ≤ n
  | .tombstoneGraceMs, v => ∃ n, v = .int n ∧ 0 ≤ n
  | .level, v => ∃ t, v = .text (lower t) ∧ lower t ∈ ["debug", "info", "warn", "error"]
  | _, _ => True

variable {v : Setting}

theorem asked_least {put : Int → Config} (ok : (number name least bound raw).map put = .ok cfg')
    (asked : raw.setting lower = some v) : ∃ n, v = .int n ∧ least ≤ n := by
  cases accepted : number name least bound raw with
  | error err => simp [accepted, Except.map] at ok
  | ok n =>
    have least := number_least accepted
    obtain rfl := number_ok accepted
    cases asked
    exact ⟨n, rfl, least⟩

theorem accepts_of_applyField (ok : applyField lower cfg (.field f) raw = .ok cfg')
    (asked : raw.setting lower = some v) : f.Accepts lower v := by
  cases f with
  | intervalMs | tombstoneGraceMs => exact asked_least lower ok asked
  | level =>
    cases raw with
    | text t =>
      cases asked
      refine ⟨t, rfl, ?_⟩
      by_contra unknown
      simp only [applyField, unknown, if_false, reduceCtorEq] at ok
    | _ => cases ok
  | _ => trivial

theorem applyField_of_applyEntries (ok : applyEntries lower cfg entries = .ok cfg')
    {entry : FieldPath × Value} (mem : entry ∈ entries) :
    ∃ before after, applyField lower before entry.1 entry.2 = .ok after := by
  induction entries generalizing cfg with
  | nil => cases mem
  | cons first entries ih => grind [applyEntries]

variable {patch : Patch}

theorem Patch.mem_of_setting (asked : patch.setting lower f = some v) :
    ∃ raw, (.field f, raw) ∈ patch.entries ∧ raw.setting lower = some v := by
  obtain ⟨⟨path, raw⟩, found, asked⟩ := Option.bind_eq_some_iff.mp asked
  have same : path = .field f := by simpa using find?_some found
  exact ⟨raw, same ▸ mem_of_find?_eq_some found, asked⟩

theorem applyField_of_applyPatch (ok : applyPatch lower cfg patch = .ok cfg')
    (asked : patch.setting lower f = some v) :
    ∃ raw before after, raw.setting lower = some v ∧
      applyField lower before (.field f) raw = .ok after := by
  obtain ⟨raw, mem, asked⟩ := patch.mem_of_setting lower asked
  obtain ⟨before, after, applied⟩ := applyField_of_applyEntries lower ok mem
  exact ⟨raw, before, after, asked, applied⟩

theorem accepts_of_applyPatch (ok : applyPatch lower cfg patch = .ok cfg')
    (asked : patch.setting lower f = some v) : f.Accepts lower v := by
  obtain ⟨raw, before, after, asked, applied⟩ := applyField_of_applyPatch lower ok asked
  exact accepts_of_applyField lower applied asked

/-- **What an accepted patch does.** -/
theorem applyPatch_setting (ok : applyPatch lower cfg patch = .ok cfg') :
    (∀ f, cfg'.setting f = (patch.setting lower f).getD (cfg.setting f)) ∧
      cfg'.others = cfg.others :=
  applyEntries_ok lower patch.distinct ok

end

end PubsubBroker.Configuration
