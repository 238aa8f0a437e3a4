/-
# Auth.Authenticator — API keys and the identities bound to them

`internal/auth/auth.go`.  The authenticator keeps a map from the SHA-256 of a key to the
identity of its holder, filled from the configuration.  The hash is a parameter here; what
is used of it is that no two keys have the same one (`KeyHash`), so that looking a key up
by its hash finds the configured entry of that very key (`authenticate_eq`).

`AddKey` and `RemoveKey` are left out: the broker does not call them.
-/
import PubsubBroker.Auth.Rbac
import PubsubBroker.Theory.Bytes
import Mathlib.Data.List.AList

namespace PubsubBroker.Auth

open Theory

/-- SHA-256, taken to be free of collisions. -/
structure KeyHash (δ : Type) where
  hashKey : Bytes → δ
  collisionFree : Function.Injective hashKey

structure APIKey where
  key : Bytes
  clientID : String
  /-- The empty string when the entry still lists permissions. -/
  role : String
  permissions : List String
  topics : List String

structure AuthConfig where
  enabled : Bool
  apiKeys : List APIKey

/-- The conversion `Role(k.Role)`. -/
def Role.ofString (name : String) : Role :=
  if name = "admin" then .admin
  else if name = "producer" then .producer
  else if name = "consumer" then .consumer
  else if name = "viewer" then .viewer
  else .other name

def APIKey.identity (k : APIKey) : Identity where
  clientID := k.clientID
  role := if k.role ≠ "" then Role.ofString k.role else roleFromLegacy k.permissions
  topics := k.topics

structure Authenticator (δ : Type) where
  keys : AList fun _ : δ => Identity
  enabled : Bool

inductive AuthError where
  /-- `auth: unknown API key` -/
  | unknownKey
deriving DecidableEq

/-- The identity everybody has when authentication is off. -/
def anonymous : Identity := ⟨"anonymous", .admin, []⟩

section

variable {δ : Type} [DecidableEq δ] (H : KeyHash δ)

def newAuthenticator (cfg : AuthConfig) : Authenticator δ where
  keys := cfg.apiKeys.foldl (fun keys k => keys.insert (H.hashKey k.key) k.identity) ∅
  enabled := cfg.enabled

def Authenticator.authenticate (a : Authenticator δ) (key : Bytes) : Except AuthError Identity :=
  if !a.enabled then .ok anonymous
  else
    match a.keys.lookup (H.hashKey key) with
    | none => .error .unknownKey
    | some id => .ok id

/-- The identity the configuration binds to a key; a later entry for the same key wins. -/
def AuthConfig.boundTo (cfg : AuthConfig) (key : Bytes) : Option Identity :=
  cfg.apiKeys.foldl (fun found k => if k.key = key then some k.identity else found) none

theorem lookup_foldl (key : Bytes) (entries : List APIKey) (keys : AList fun _ : δ => Identity)
    (found : Option Identity) (agree : keys.lookup (H.hashKey key) = found) :
    (entries.foldl (fun keys k => keys.insert (H.hashKey k.key) k.identity) keys).lookup
        (H.hashKey key) =
      entries.foldl (fun found k => if k.key = key then some k.identity else found) found := by
  induction entries generalizing keys found with
  | nil => exact agree
  | cons k entries ih =>
    simp only [List.foldl_cons]
    apply ih
    by_cases same : k.key = key
    · rw [if_pos same, same]
      exact AList.lookup_insert keys
    · have apart : H.hashKey key ≠ H.hashKey k.key :=
        fun collide => same (H.collisionFree collide).symm
      rw [if_neg same, AList.lookup_insert_ne apart]
      exact agree

theorem lookup_newAuthenticator (cfg : AuthConfig) (key : Bytes) :
    (newAuthenticator H cfg).keys.lookup (H.hashKey key) = cfg.boundTo key :=
  lookup_foldl H key cfg.apiKeys ∅ none (AList.lookup_empty _)

/-- With authentication on, a key is accepted exactly when it is configured, as the
identity it is configured for. -/
theorem authenticate_eq {cfg : AuthConfig} (on : cfg.enabled = true) {key : Bytes} {id : Identity} :
    (newAuthenticator H cfg).authenticate H key = .ok id ↔ cfg.boundTo key = some id := by
  have enabled : (newAuthenticator H cfg).enabled = true := on
  rw [← lookup_newAuthenticator H cfg key, Authenticator.authenticate, enabled]
  cases (newAuthenticator H cfg).keys.lookup (H.hashKey key) <;> simp

end

end PubsubBroker.Auth
