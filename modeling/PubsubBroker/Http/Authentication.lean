/-
# Http.Authentication — who may call the admin endpoints

`middleware.go`, `session.go`, `http_dashboard_auth.go` and the route table of `http.go`
in `internal/broker`.  A wrapped handler runs with the identity `resolveIdentity` finds: that
of a bearer key, or that of a dashboard session named by a cookie.  Sessions are created by a
login with an API key, deleted by a logout, and run out.

`resolveIdentity` gives everybody the anonymous admin identity when dashboard
authentication is off, and a disabled dashboard turns it off whatever `auth.enabled` says
(`admin_endpoints_open`).  `admin_authenticated` says that this is the only way past it.

`Live` says what an unexpired and unrevoked session is by the history of logins and
logouts alone, without the store.

Left out: what the wrapped handlers do, the rate limiter of the login, audit records, and
the reload of the configuration file; the configuration is the one the broker was started
with.  Routing is `net/http`'s: a request comes with the pattern it was matched to.
-/
import PubsubBroker.Auth.Authenticator
import PubsubBroker.Theory.Transition

namespace PubsubBroker.Http

open Theory Auth Option

/-- The fields of the configuration the middleware reads. -/
structure Config where
  auth : AuthConfig
  dashboardEnabled : Bool
  /-- The override; absent in most configurations. -/
  dashboardAuthEnabled : Option Bool
  /-- In nanoseconds. -/
  dashboardSessionTTL : Int
  pprofEnabled : Bool

structure Refusal where
  status : Nat
  error : String
deriving DecidableEq

/-! ## Routes -/

/-- The patterns `buildHTTPServer` registers. -/
inductive Route where
  | health
  | status
  | metrics
  | healthzLive
  | healthzReady
  | healthzStartup
  | healthzDrain
  | postLogin
  | postLogout
  | login
  | session
  | topics
  | consumers
  | traces
  | clusterMembers
  | clusterPartitions
  | clusterISR
  | auditRecent
  | dlq
  | dlqReplay
  | dlqDelete
  | dlqExport
  | partitionDetail
  | partitionList
  | consumerGroupDetail
  | clusterRaft
  | metricsHistory
  | explorerStream
  | configEffective
  | configPatch
  | pprofIndex
  | pprofCmdline
  | pprofProfile
  | pprofSymbol
  | pprofTrace
  | dashboardAssets
  | dashboard
  /-- `/`, which is also where unknown paths end up. -/
  | root
deriving DecidableEq

namespace Route

def registered (cfg : Config) : Route → Bool
  | .postLogin | .postLogout | .login | .session | .dashboardAssets => cfg.dashboardEnabled
  | .pprofCmdline | .pprofProfile | .pprofSymbol | .pprofTrace => cfg.pprofEnabled
  | _ => true

/-- Whether the handler is wrapped by `requireAuth`. -/
def wrapped (cfg : Config) : Route → Bool
  | .topics | .consumers | .traces | .clusterMembers | .clusterPartitions | .clusterISR
  | .auditRecent | .dlq | .dlqReplay | .dlqDelete | .dlqExport | .partitionDetail
  | .partitionList | .consumerGroupDetail | .clusterRaft | .metricsHistory | .explorerStream
  | .configEffective | .configPatch | .dashboardAssets => true
  -- a disabled dashboard leaves a bare handler that only answers 404
  | .root => cfg.dashboardEnabled
  | _ => false

/-- Health, metrics, pprof, the dashboard page and the endpoints that sign a browser in and
out: the routes that are open on purpose. -/
def exempt : Route → Bool
  | .health | .status | .metrics | .healthzLive | .healthzReady | .healthzStartup | .healthzDrain
  | .postLogin | .postLogout | .login | .session
  | .pprofIndex | .pprofCmdline | .pprofProfile | .pprofSymbol | .pprofTrace
  | .dashboard => true
  | _ => false

theorem wrapped_of_not_exempt {cfg : Config} (on : cfg.dashboardEnabled = true) {r : Route}
    (closed : r.exempt = false) : r.wrapped cfg = true := by
  cases r <;> first | rfl | exact on | exact absurd closed (by decide)

end Route

/-! ## Sessions -/

structure DashboardSession where
  token : String
  identity : Identity
  createdAt : Int
  expiresAt : Int
  remoteAddr : String

abbrev Sessions := AList fun _ : String => DashboardSession

structure SessionStore where
  sessions : Sessions
  ttl : Int

/-- Twelve hours. -/
def dashboardSessionTTLDefault : Int := 12 * 60 * 60 * 1000000000

namespace SessionStore

def new (ttl : Int) : SessionStore where
  sessions := ∅
  ttl := if ttl ≤ 0 then dashboardSessionTTLDefault else ttl

/-- `Create`, with the random token. -/
def create (st : SessionStore) (now : Int) (identity : Identity) (token remoteAddr : String) :
    DashboardSession × SessionStore :=
  let sess : DashboardSession := ⟨token, identity, now, now + st.ttl, remoteAddr⟩
  (sess, { st with sessions := st.sessions.insert token sess })

/-- `Get`: a session that has run out is deleted on the way. -/
def get (st : SessionStore) (now : Int) (token : String) : Option DashboardSession × SessionStore :=
  match st.sessions.lookup token with
  | none => (none, st)
  | some sess =>
    if now > sess.expiresAt then (none, { st with sessions := st.sessions.erase token })
    else (some sess, st)

def revoke (st : SessionStore) (token : String) : SessionStore :=
  { st with sessions := st.sessions.erase token }

/-- The loop over the map, which deletes what has run out. -/
def evictExpired (st : SessionStore) (now : Int) : SessionStore :=
  let evict := fun (sessions : Sessions) (e : Sigma fun _ : String => DashboardSession) =>
    if now > e.2.expiresAt then sessions.erase e.1 else sessions
  { st with sessions := st.sessions.entries.foldl evict st.sessions }

end SessionStore

/-! ## Requests -/

structure Request where
  route : Route
  path : String
  /-- The `Authorization` header; empty when there is none. -/
  authorization : Bytes
  /-- The value of the cookie `pubsub_dashboard_session`. -/
  cookie : Option String

/-- `"Bearer "` -/
def bearer : Bytes := [66, 101, 97, 114, 101, 114, 32]

def dashboardAuthEnabled (cfg : Config) : Bool :=
  if !cfg.dashboardEnabled then false
  else if !cfg.auth.enabled then false
  else if cfg.dashboardAuthEnabled = some false then false
  else true

section

variable {δ : Type} [DecidableEq δ] (H : KeyHash δ)

def resolveFromHeader (a : Authenticator δ) (r : Request) : Option Identity :=
  if r.authorization = [] then none
  else if !bearer.isPrefixOf r.authorization then none
  else
    let apiKey := r.authorization.drop bearer.length
    if apiKey = [] then none
    else
      match a.authenticate H apiKey with
      | .error _ => none
      | .ok id => some id

/-- The cookie's session, if the cookie has a value; looking it up may delete it. -/
def cookieSession (st : SessionStore) (now : Int) (cookie : Option String) :
    Option DashboardSession × SessionStore :=
  match cookie with
  | none => (none, st)
  | some token => if token = "" then (none, st) else st.get now token

def resolveFromSessionCookie (st : SessionStore) (now : Int) (r : Request) :
    Option Identity × SessionStore :=
  let found := cookieSession st now r.cookie
  (found.1.map (·.identity), found.2)

def resolveIdentity (cfg : Config) (st : SessionStore) (now : Int) (r : Request) :
    Option Identity × SessionStore :=
  if !dashboardAuthEnabled cfg then (some anonymous, st)
  else
    match resolveFromHeader H (newAuthenticator H cfg.auth) r with
    | some id => (some id, st)
    | none => resolveFromSessionCookie st now r

inductive Outcome where
  /-- The handler runs, with the identity in its context. -/
  | ran (seen : Option Identity)
  | redirected (target : String)
  | refused (refusal : Refusal)
deriving DecidableEq

def requireAuth (cfg : Config) (st : SessionStore) (now : Int) (r : Request) :
    Outcome × SessionStore :=
  match resolveIdentity H cfg st now r with
  | (none, st) =>
    if r.path = "/dashboard" ∨ r.path = "/" then (.redirected "/dashboard", st)
    else (.refused ⟨401, "authentication required"⟩, st)
  | (some id, st) => (.ran (some id), st)

/-- A request to a registered route.  The dashboard page and the session endpoint look the
cookie up themselves. -/
def serve (cfg : Config) (st : SessionStore) (now : Int) (r : Request) : Outcome × SessionStore :=
  if r.route.wrapped cfg then requireAuth H cfg st now r
  else if (r.route = .dashboard ∨ r.route = .session) ∧ dashboardAuthEnabled cfg then
    (.ran none, (cookieSession st now r.cookie).2)
  else (.ran none, st)

/-- `httpDashboardLogin`: what the rate limiter says, the key of the body if it can be
read, and the token if random bytes can be had. -/
def httpDashboardLogin (cfg : Config) (st : SessionStore) (now : Int) (allowed : Bool)
    (apiKey : Option Bytes) (token : Option String) (remoteAddr : String) :
    Except Refusal (DashboardSession × SessionStore) :=
  if !allowed then .error ⟨429, "rate limit exceeded"⟩
  else
    match apiKey with
    | none => .error ⟨400, "invalid request body"⟩
    | some key =>
      if key = [] then .error ⟨400, "api_key is required"⟩
      else
        match (newAuthenticator H cfg.auth).authenticate H key with
        | .error _ => .error ⟨401, "invalid credentials"⟩
        | .ok id =>
          match token with
          | none => .error ⟨500, "failed to create session"⟩
          | some token => .ok (st.create now id token remoteAddr)

/-! ## Histories -/

inductive Record where
  | created (sess : DashboardSession)
  | revoked (token : String)

def Record.token : Record → String
  | .created sess => sess.token
  | .revoked token => token

structure State where
  store : SessionStore
  now : Int
  /-- The logins and logouts so far, the latest first. -/
  history : List Record

def boot (cfg : Config) : State := ⟨.new cfg.dashboardSessionTTL, 0, []⟩

inductive Event where
  | login (allowed : Bool) (apiKey : Option Bytes) (token : Option String) (remoteAddr : String)
  | logout (cookie : Option String)
  | request (r : Request)
  | evictExpired
  | tick (ns : Nat)

def step (cfg : Config) (s : State) : Event → Option State
  | .login allowed apiKey token remoteAddr =>
    if Route.login.registered cfg then
      match httpDashboardLogin H cfg s.store s.now allowed apiKey token remoteAddr with
      | .error _ => some s
      | .ok (sess, store) => some { s with store := store, history := .created sess :: s.history }
    else none
  | .logout cookie =>
    if Route.postLogout.registered cfg then
      match cookie with
      | none => some s
      | some token =>
        if token = "" then some s
        else
          some { s with store := s.store.revoke token, history := .revoked token :: s.history }
    else none
  | .request r =>
    if r.route.registered cfg ∧ r.route ∉ [.login, .postLogin, .postLogout] then
      some { s with store := (serve H cfg s.store s.now r).2 }
    else none
  | .evictExpired => some { s with store := s.store.evictExpired s.now }
  | .tick ns => some { s with now := s.now + ns }

end

/-- The last thing that happened to a token. -/
def lastOf (history : List Record) (token : String) : Option Record :=
  history.find? fun record => record.token = token

/-- The token of a session that was created for `id`, was not revoked since and has not
run out. -/
def Live (s : State) (token : String) (id : Identity) : Prop :=
  ∃ sess, lastOf s.history token = some (.created sess) ∧ sess.identity = id ∧
    s.now ≤ sess.expiresAt

/-- The request carries a configured API key of `id`, or the token of a live session of
`id`. -/
def Presents (cfg : Config) (s : State) (r : Request) (id : Identity) : Prop :=
  (∃ key, r.authorization = bearer ++ key ∧ cfg.auth.boundTo key = some id) ∨
    ∃ token, r.cookie = some token ∧ Live s token id

/-! ## The store agrees with the history -/

/-- Every session in the store is the last one created under its token. -/
def Inv (s : State) : Prop :=
  ∀ token sess, s.store.sessions.lookup token = some sess →
    lastOf s.history token = some (.created sess)

/-- The store has no session that `before` does not have. -/
def Within (after before : SessionStore) : Prop :=
  ∀ token sess, after.sessions.lookup token = some sess → before.sessions.lookup token = some sess

theorem Inv.within {s : State} (inv : Inv s) {store : SessionStore} (within : Within store s.store) :
    Inv { s with store := store } :=
  fun token sess held => inv token sess (within token sess held)

theorem Within.refl (st : SessionStore) : Within st st := fun _ _ held => held

theorem lookup_of_erase {sessions : Sessions} {gone token : String} {sess : DashboardSession}
    (held : (sessions.erase gone).lookup token = some sess) :
    gone ≠ token ∧ sessions.lookup token = some sess := by
  by_cases same : token = gone
  · grind [AList.lookup_erase]
  · grind [AList.lookup_erase_ne]

theorem within_get (st : SessionStore) (now : Int) (token : String) :
    Within (st.get now token).2 st := by
  unfold SessionStore.get
  cases st.sessions.lookup token with
  | none => exact .refl st
  | some sess =>
    by_cases late : now > sess.expiresAt
    · simp only [late, if_true]
      exact fun _ _ held => (lookup_of_erase held).2
    · simp only [late, if_false]
      exact .refl st

theorem within_cookieSession (st : SessionStore) (now : Int) (cookie : Option String) :
    Within (cookieSession st now cookie).2 st := by
  cases cookie with
  | none => exact .refl st
  | some token =>
    unfold cookieSession
    by_cases empty : token = ""
    · simp only [empty, if_true]
      exact .refl st
    · simp only [empty, if_false]
      exact within_get st now token

theorem within_evictExpired (st : SessionStore) (now : Int) : Within (st.evictExpired now) st := by
  intro token sess held
  unfold SessionStore.evictExpired at held
  generalize st.sessions.entries = entries at held
  generalize st.sessions = sessions at held ⊢
  -- the loop only ever erases
  induction entries generalizing sessions with
  | nil => exact held
  | cons e entries ih =>
    have before := ih _ held
    by_cases late : now > e.2.expiresAt
    · simp only [late, if_true] at before
      exact (lookup_of_erase before).2
    grind

section

variable {δ : Type} [DecidableEq δ] {H : KeyHash δ} {cfg : Config}

theorem within_resolveIdentity (st : SessionStore) (now : Int) (r : Request) :
    Within (resolveIdentity H cfg st now r).2 st := by
  unfold resolveIdentity
  by_cases off : (!dashboardAuthEnabled cfg) = true
  · simp only [off, if_true]
    exact .refl st
  · simp only [off]
    cases resolveFromHeader H (newAuthenticator H cfg.auth) r with
    | some id => exact .refl st
    | none => exact within_cookieSession st now r.cookie

theorem within_requireAuth (st : SessionStore) (now : Int) (r : Request) :
    Within (requireAuth H cfg st now r).2 st := by
  have within : Within (resolveIdentity H cfg st now r).2 st := within_resolveIdentity st now r
  unfold requireAuth
  generalize resolveIdentity H cfg st now r = resolved at within ⊢
  obtain ⟨found, store⟩ := resolved
  cases found with
  | some id => exact within
  | none => grind

theorem within_serve (st : SessionStore) (now : Int) (r : Request) :
    Within (serve H cfg st now r).2 st := by
  unfold serve
  split
  · exact within_requireAuth st now r
  · split
    · exact within_cookieSession st now r.cookie
    · exact .refl st

theorem inv_boot : Inv (boot cfg) := by
  intro token sess held
  cases held

theorem login_creates {st store : SessionStore} {now : Int} {allowed : Bool}
    {apiKey : Option Bytes} {token : Option String} {remoteAddr : String} {sess : DashboardSession}
    (ok : httpDashboardLogin H cfg st now allowed apiKey token remoteAddr = .ok (sess, store)) :
    store = { st with sessions := st.sessions.insert sess.token sess } := by
  unfold httpDashboardLogin at ok
  by_cases limited : (!allowed) = true
  · simp [limited] at ok
  simp only [limited] at ok
  cases apiKey with
  | none => cases ok
  | some key =>
    by_cases empty : key = []
    · simp [empty] at ok
    simp only [empty, if_false] at ok
    cases known : (newAuthenticator H cfg.auth).authenticate H key with
    | error e => simp [known] at ok
    | ok id => grind [SessionStore.create]

variable {s : State}

theorem inv_step {t : State} {e : Event} (inv : Inv s) (taken : step H cfg s e = some t) :
    Inv t := by
  cases e with
  | login allowed apiKey token remoteAddr =>
    simp only [step, ite_none_right_eq_some] at taken
    obtain ⟨-, taken⟩ := taken
    cases answer : httpDashboardLogin H cfg s.store s.now allowed apiKey token remoteAddr with
    | error refusal => grind
    | ok created =>
      obtain ⟨sess, store⟩ := created
      simp only [answer, some.injEq] at taken
      subst taken
      obtain rfl := login_creates answer
      intro other held at_other
      by_cases same : sess.token = other
      · grind [AList.lookup_insert, lastOf, Record.token]
      · rw [AList.lookup_insert_ne (Ne.symm same)] at at_other
        simpa [lastOf, Record.token, same] using inv other held at_other
  | logout cookie =>
    simp only [step, ite_none_right_eq_some] at taken
    obtain ⟨-, taken⟩ := taken
    cases cookie with
    | none =>
      cases taken
      exact inv
    | some token =>
      by_cases empty : token = ""
      · grind
      · simp only [empty, if_false, some.injEq] at taken
        subst taken
        intro other held at_other
        obtain ⟨apart, before⟩ := lookup_of_erase at_other
        simpa [lastOf, Record.token, apart] using inv other held before
  | request r =>
    simp only [step, ite_none_right_eq_some, some.injEq] at taken
    obtain ⟨-, rfl⟩ := taken
    exact inv.within (within_serve s.store s.now r)
  | evictExpired =>
    cases taken
    exact inv.within (within_evictExpired s.store s.now)
  | tick ns =>
    cases taken
    exact inv

theorem inv_reached (reached : Reaches (step H cfg) (fun _ _ => True) (boot cfg) s) : Inv s := by
  induction reached with
  | init => exact inv_boot
  | step _ _ taken ih => exact inv_step ih taken

/-! ## What a resolved identity rests on -/

variable {r : Request}

theorem presents_of_header {id : Identity} (on : cfg.auth.enabled = true)
    (found : resolveFromHeader H (newAuthenticator H cfg.auth) r = some id) :
    Presents cfg s r id := by
  unfold resolveFromHeader at found
  by_cases missing : r.authorization = []
  · simp [missing] at found
  by_cases other : (!bearer.isPrefixOf r.authorization) = true
  · simp [missing, other] at found
  by_cases empty : r.authorization.drop bearer.length = []
  · simp [missing, other, empty] at found
  simp only [missing, other, empty, if_false] at found
  have begins : bearer <+: r.authorization := by simpa using other
  obtain ⟨key, split⟩ := begins
  have after : r.authorization.drop bearer.length = key := by rw [← split, List.drop_left]
  rw [after] at found
  cases known : (newAuthenticator H cfg.auth).authenticate H key with
  | error e => simp [known] at found
  | ok caller =>
    simp only [known] at found
    cases found
    exact .inl ⟨key, split.symm, (authenticate_eq H on).mp known⟩

theorem presents_of_cookie (inv : Inv s) {id : Identity}
    (found : (resolveFromSessionCookie s.store s.now r).1 = some id) : Presents cfg s r id := by
  simp only [resolveFromSessionCookie, map_eq_some_iff] at found
  obtain ⟨sess, found, rfl⟩ := found
  cases cookie : r.cookie with
  | none => simp [cookieSession, cookie] at found
  | some token =>
    simp only [cookieSession, cookie] at found
    by_cases empty : token = ""
    · simp [empty] at found
    simp only [empty, if_false, SessionStore.get] at found
    cases held : s.store.sessions.lookup token with
    | none => simp [held] at found
    | some stored =>
      by_cases late : s.now > stored.expiresAt
      · simp [held, late] at found
      · simp only [held, late, if_false, some.injEq] at found
        subst found
        exact .inr ⟨token, cookie, stored, inv token stored held, rfl, by omega⟩

theorem ran_of_requireAuth {st : SessionStore} {now : Int} {seen : Option Identity}
    (ran : (requireAuth H cfg st now r).1 = .ran seen) :
    ∃ id, seen = some id ∧ (resolveIdentity H cfg st now r).1 = some id := by
  unfold requireAuth at ran
  generalize resolveIdentity H cfg st now r = resolved at ran ⊢
  obtain ⟨found, store⟩ := resolved
  cases found with
  | none | some id => grind

/-- With dashboard authentication on, a resolved identity rests on what the request
carries. -/
theorem presents_of_resolved (inv : Inv s) (on : dashboardAuthEnabled cfg = true)
    (enabled : cfg.auth.enabled = true) {id : Identity}
    (found : (resolveIdentity H cfg s.store s.now r).1 = some id) : Presents cfg s r id := by
  unfold resolveIdentity at found
  simp only [on, Bool.not_true, Bool.false_eq_true, if_false] at found
  cases header : resolveFromHeader H (newAuthenticator H cfg.auth) r with
  | some caller => grind [presents_of_header]
  | none => grind [presents_of_cookie]

/-- **Admin requests are authenticated exactly when the dashboard is on.**  The
configuration has authentication on and no override.  Then the handlers of all routes that
are not open on purpose run, after any history of logins, logouts and expiries, only for
requests that carry a configured key or the token of a live session, and see the identity
bound to it, if and only if the dashboard is enabled. -/
theorem admin_authenticated (H : KeyHash δ) (cfg : Config) (enabled : cfg.auth.enabled = true)
    (kept : cfg.dashboardAuthEnabled ≠ some false) :
    (∀ s, Reaches (step H cfg) (fun _ _ => True) (boot cfg) s →
      ∀ r : Request, r.route.registered cfg = true → r.route.exempt = false →
        ∀ seen, (serve H cfg s.store s.now r).1 = .ran seen →
          ∃ id, seen = some id ∧ Presents cfg s r id) ↔
      cfg.dashboardEnabled = true := by
  constructor
  · intro closed
    by_contra off
    have dark : cfg.dashboardEnabled = false := by simpa using off
    -- a request that carries nothing is served as the anonymous admin
    let bare : Request := ⟨.topics, "/topics", [], none⟩
    have served : (serve H cfg (boot cfg).store (boot cfg).now bare).1 = .ran (some anonymous) := by
      simp [serve, bare, Route.wrapped, requireAuth, resolveIdentity, dashboardAuthEnabled, dark]
    obtain ⟨id, -, carried⟩ := closed (boot cfg) .init bare rfl rfl _ served
    rcases carried with ⟨key, header, -⟩ | ⟨token, cookie, -⟩
    · simp [bare, bearer] at header
    · cases cookie
  · intro on s reached r registered closed seen ran
    have dashboard : dashboardAuthEnabled cfg = true := by
      simp [dashboardAuthEnabled, on, enabled, kept]
    have wrapped := Route.wrapped_of_not_exempt on closed
    rw [serve, if_pos wrapped] at ran
    grind [ran_of_requireAuth, presents_of_resolved, inv_reached]

end

section Sample

/-- The key itself stands for its hash. -/
def sampleHash : KeyHash Bytes := ⟨id, Function.injective_id⟩

def sampleConfig (dashboardEnabled : Bool) : Config :=
  ⟨⟨true, [⟨[7], "ops", "viewer", [], []⟩]⟩, dashboardEnabled, none, 100, false⟩

def ops : Identity := ⟨"ops", .viewer, []⟩

/-- A login, another request in between, and a logout of another token. -/
def sampleHistory : List Event :=
  [.login true (some [7]) (some "t1") "a", .tick 50, .request ⟨.topics, "/topics", [], none⟩,
    .logout (some "t2"), .evictExpired, .tick 50]

def cookieRequest : Request := ⟨.dlq, "/dlq", [], some "t1"⟩

theorem admin_authenticated_sample :
    ∃ s, Reaches (step sampleHash (sampleConfig true)) (fun _ _ => True) (boot (sampleConfig true)) s ∧
      (serve sampleHash (sampleConfig true) s.store s.now cookieRequest).1 = .ran (some ops) ∧
      (serve sampleHash (sampleConfig true) s.store (s.now + 1) cookieRequest).1 =
        .refused ⟨401, "authentication required"⟩ ∧
      ∃ id, some ops = some id ∧ Presents (sampleConfig true) s cookieRequest id := by
  have closed := (admin_authenticated sampleHash (sampleConfig true) rfl (by decide)).mpr rfl
  refine Reaches.exists_run_of (P := fun s =>
    (serve sampleHash (sampleConfig true) s.store s.now cookieRequest).1 = .ran (some ops) ∧
    (serve sampleHash (sampleConfig true) s.store (s.now + 1) cookieRequest).1 =
      .refused ⟨401, "authentication required"⟩) sampleHistory (by decide +kernel) ?_
  rintro s reached ⟨served, late⟩
  exact ⟨served, late, closed s reached cookieRequest rfl rfl _ served⟩

/-- **A disabled dashboard opens the admin endpoints.**  Authentication is on and nothing
overrides it; the dashboard is off.  A request that carries neither a key nor a cookie may
patch the configuration as an admin. -/
theorem admin_endpoints_open :
    ∃ r : Request, r.route = .configPatch ∧ r.authorization = [] ∧ r.cookie = none ∧
      (sampleConfig false).auth.enabled = true ∧ (sampleConfig false).dashboardAuthEnabled = none ∧
      (serve sampleHash (sampleConfig false) (boot (sampleConfig false)).store 0 r).1 =
        .ran (some ⟨"anonymous", .admin, []⟩) :=
  ⟨⟨.configPatch, "/config", [], none⟩, rfl, rfl, rfl, rfl, rfl, by decide +kernel⟩

end Sample

end PubsubBroker.Http
