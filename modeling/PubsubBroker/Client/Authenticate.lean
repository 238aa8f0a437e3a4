/-
# Client.Authenticate — what a reported authentication is worth

`handleAuth` of the broker, `Authenticate` of the Go SDK, `_authenticate` of the Python client and
`connFor` of the gateway.  The broker refuses a key in a normal response with `OK` unset; both
libraries look for an error frame only, so they report success for a key that is not in the table
(`refused_reported`), and the gateway keeps such connections, as it keeps one without any key.

`authentication_honest` is what holds while every key presented is in the table of that moment.
-/
import PubsubBroker.Auth.Authenticator
import PubsubBroker.Theory.Transition

namespace PubsubBroker.Client.Authentication

open Auth Theory List

/-- What the broker answers. -/
inductive Frame where
  | response (ok : Bool) (reason : Option AuthError) (perms : List Permission)
  | error (code message : String)

section

variable {δ : Type} [DecidableEq δ] (H : KeyHash δ)

/-- The answer and the identity of the connection, which had one before or not; a body that does
not parse has no key. -/
def handleAuth (a : Authenticator δ) (was : Option Identity) : Option Bytes → Frame × Option Identity
  | none => (.error "BAD_REQUEST" "invalid auth body", was)
  | some key =>
    match a.authenticate H key with
    | .error reason => (.response false (some reason) [], was)
    | .ok id => (.response true none (rolePermissions id.role), some id)

/-- A request has an answer that is not an error; `none` is a connection that ends or a wait that
times out. -/
def answered : Option Frame → Bool
  | some (.response ..) => true
  | some (.error ..) | none => false

/-- `Authenticate` returns no error. -/
def authenticate (reply : Option Frame) : Bool := answered reply

/-- `_authenticate` raises nothing. -/
def pyAuthenticate (reply : Option Frame) : Bool := answered reply

/-- A success as it was reported: the key, the identity the broker then had for the connection,
and the one the table had for the key. -/
structure Success where
  key : Bytes
  marked : Option Identity
  bound : Option Identity

def Success.Honest (o : Success) : Prop := o.bound ≠ none ∧ o.marked = o.bound

structure World where
  cfg : AuthConfig
  /-- The connections of the Go SDK. -/
  conns : List (Option Identity)
  reported : List Success
  /-- Connections the gateway has made and not yet put into the pool. -/
  made : List Success
  pool : List Success

def init (cfg : AuthConfig) : World := ⟨cfg, [], [], [], []⟩

inductive Event where
  | reload (cfg : AuthConfig)
  | dial
  /-- `Authenticate` of the Go SDK; `reply` says whether the answer arrives. -/
  | authenticate (conn : Nat) (key : Bytes) (reply : Bool)
  /-- `connect` of the Python client. -/
  | connect (key : Bytes) (reply : Bool)
  /-- `connFor` up to its second look at the pool. -/
  | connFor (key : Bytes) (reply : Bool)
  /-- The second look. -/
  | keep (i : Nat)

/-- One request on a connection, and the success the library reports. -/
def World.attempt (s : World) (sdk : Option Frame → Bool) (was : Option Identity) (key : Bytes)
    (reply : Bool) : List Success × Option Identity :=
  let (frame, mark) := handleAuth H (newAuthenticator H s.cfg) was (some key)
  (if sdk (if reply then some frame else none) then [⟨key, mark, s.cfg.boundTo key⟩] else [], mark)

def step (s : World) : Event → Option World
  | .reload cfg => some { s with cfg := cfg }
  | .dial => some { s with conns := s.conns ++ [none] }
  | .authenticate c key reply => do
    let was ← s.conns[c]?
    let (success, mark) := s.attempt H authenticate was key reply
    some { s with conns := s.conns.set c mark, reported := s.reported ++ success }
  | .connect key reply =>
    some { s with reported := s.reported ++ (s.attempt H pyAuthenticate none key reply).1 }
  | .connFor key reply =>
    if s.pool.any (·.key = key) then some s
    else if key = [] then some { s with made := s.made ++ [⟨[], none, s.cfg.boundTo []⟩] }
    else some { s with made := s.made ++ (s.attempt H authenticate none key reply).1 }
  | .keep i => do
    let o ← s.made[i]?
    let made := s.made.eraseIdx i
    -- another request with the key may have been faster
    if s.pool.any (·.key = o.key) then some { s with made := made }
    else some { s with made := made, pool := s.pool ++ [o] }

/-- Authentication stays on, every key presented is in the table, and the gateway is not used
without a key. -/
def Known (s : World) : Event → Prop
  | .reload cfg => cfg.enabled = true
  | .dial | .keep _ => True
  | .authenticate _ key _ | .connect key _ => s.cfg.boundTo key ≠ none
  | .connFor key _ => s.cfg.boundTo key ≠ none ∧ key ≠ []

instance (s : World) : DecidablePred (Known s) := by
  rintro (_ | _) <;> unfold Known <;> infer_instance

structure Inv (s : World) : Prop where
  enabled : s.cfg.enabled = true
  reported : ∀ o ∈ s.reported, o.Honest
  made : ∀ o ∈ s.made, o.Honest
  pool : ∀ o ∈ s.pool, o.Honest

variable {H} {s t : World}

/-- The broker marks the connection with the identity of a key in the table. -/
theorem attempt_honest (enabled : s.cfg.enabled = true) {key : Bytes}
    (known : s.cfg.boundTo key ≠ none) {sdk : Option Frame → Bool} {was : Option Identity}
    {reply : Bool} : ∀ o ∈ (s.attempt H sdk was key reply).1, o.Honest := by
  obtain ⟨id, bound⟩ := Option.ne_none_iff_exists'.mp known
  have found := (authenticate_eq H enabled).mpr bound
  have honest : Success.Honest ⟨key, some id, some id⟩ := ⟨by simp, rfl⟩
  simp only [World.attempt, handleAuth, found, bound]
  intro o mem
  rw [mem_ite_nil_right, mem_singleton] at mem
  rw [mem.2]
  exact honest

theorem Inv.step {e : Event} (inv : Inv s) (known : Known s e) (taken : step H s e = some t) :
    Inv t := by
  obtain ⟨enabled, reported, made, pool⟩ := inv
  cases e with
  | reload cfg =>
    cases taken
    exact ⟨known, reported, made, pool⟩
  | dial =>
    cases taken
    exact ⟨enabled, reported, made, pool⟩
  | authenticate c key reply =>
    obtain ⟨was, -, taken⟩ := Option.bind_eq_some_iff.mp taken
    cases taken
    exact ⟨enabled, forall_mem_append.mpr ⟨reported, attempt_honest enabled known⟩, made, pool⟩
  | connect key reply =>
    cases taken
    exact ⟨enabled, forall_mem_append.mpr ⟨reported, attempt_honest enabled known⟩, made, pool⟩
  | connFor key reply =>
    simp only [Authentication.step, if_neg known.2] at taken
    split at taken
    · cases taken
      exact ⟨enabled, reported, made, pool⟩
    · cases taken
      exact ⟨enabled, reported, forall_mem_append.mpr ⟨made, attempt_honest enabled known.1⟩, pool⟩
  | keep i =>
    obtain ⟨o, at_i, taken⟩ := Option.bind_eq_some_iff.mp taken
    have rest := forall_mem_eraseIdx (i := i) made
    split at taken
    · cases taken
      exact ⟨enabled, reported, rest, pool⟩
    · cases taken
      exact ⟨enabled, reported, rest,
        forall_mem_append_singleton pool (made o (mem_of_getElem? at_i))⟩

/-- **Reported authentications.**  From an enabled table and along every run, reloads included, in
which the keys presented are in the table, each success that the Go SDK or the Python client
reported was for a connection that the broker had marked with the identity of the key, and so is
each connection in the gateway's pool. -/
theorem authentication_honest {cfg : AuthConfig} (enabled : cfg.enabled = true)
    (reached : Reaches (step H) Known (init cfg) s) : ∀ o ∈ s.reported ++ s.pool, o.Honest := by
  have inv : Inv s := by
    induction reached with
    | init => exact ⟨enabled, nofun, nofun, nofun⟩
    | step _ known taken ih => exact ih.step known taken
  exact forall_mem_append.mpr ⟨inv.reported, inv.pool⟩

end

/-- The identity as a hash. -/
def plainHash : KeyHash Bytes := ⟨id, Function.injective_id⟩

def sampleTable : AuthConfig := ⟨true, [⟨[1], "svc", "producer", [], []⟩]⟩

theorem authentication_honest_sample : ∃ s,
    Reaches (step plainHash) Known (init sampleTable) s ∧ s.reported.length = 1 ∧
      s.pool.length = 1 ∧ ∀ o ∈ s.reported ++ s.pool, o.Honest :=
  Reaches.exists_run_of (P := fun s => s.reported.length = 1 ∧ s.pool.length = 1)
    [.connect [1] true, .connFor [1] true, .keep 0] (by decide)
    fun _ reached counts => ⟨counts.1, counts.2, authentication_honest rfl reached⟩

/-- A key that is not in the table: the success is reported and the connection pooled, and the
broker has no identity for either. -/
theorem refused_reported :
    (runAll (step plainHash) (fun _ _ => True) (init sampleTable)
      [.dial, .authenticate 0 [2] true, .connFor [2] true, .keep 0]).map
        (fun s => (s.conns, s.reported.map (·.key), s.pool.map (·.marked))) =
      some ([none], [[2]], [none]) := by
  decide

end PubsubBroker.Client.Authentication
