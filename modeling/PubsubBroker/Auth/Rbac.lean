/-
# Auth.Rbac — roles, permissions and topic allow-lists

`internal/auth/rbac.go`.  `Identity.can` is the one gate that permission decisions go
through: the topic has to be on the identity's allow-list, when there is one and the
question names a topic, and the role has to include the permission.

`can_eq` splits it into the two gates; everything later asks one of them at a time.
-/
import Mathlib.Data.List.Basic

namespace PubsubBroker.Auth

/-- A role is a free string in the configuration; one the table does not know has no
permissions. -/
inductive Role where
  | admin
  | producer
  | consumer
  | viewer
  | other (name : String)
deriving DecidableEq

inductive Permission where
  | publish
  | subscribe
  | fetch
  | commit
  | createTopic
  | deleteTopic
  | listTopics
  | seek
  | admin
deriving DecidableEq

def rolePermissions : Role → List Permission
  | .admin =>
    [.publish, .subscribe, .fetch, .commit, .createTopic, .deleteTopic, .listTopics, .seek, .admin]
  | .producer => [.publish, .listTopics]
  | .consumer => [.subscribe, .fetch, .commit, .seek, .listTopics]
  | .viewer => [.listTopics]
  | .other _ => []

structure Identity where
  clientID : String
  role : Role
  /-- The allow-list; empty means every topic. -/
  topics : List String
deriving DecidableEq

namespace Identity

def can (id : Identity) (perm : Permission) (topic : String) : Bool :=
  -- an empty topic is a question that is not about one topic
  if topic ≠ "" ∧ 0 < id.topics.length ∧ topic ∉ id.topics then false
  else decide (perm ∈ rolePermissions id.role)

/-- The allow-list gate. -/
def Listed (id : Identity) (topic : String) : Prop :=
  topic = "" ∨ id.topics = [] ∨ topic ∈ id.topics

theorem can_eq {id : Identity} {perm : Permission} {topic : String} :
    id.can perm topic = true ↔ id.Listed topic ∧ perm ∈ rolePermissions id.role := by
  unfold can Listed
  split
  case isTrue off => grind
  case isFalse on => grind

theorem can_of_unlisted {id : Identity} {perm : Permission} {topic : String}
    (all : id.topics = []) (may : id.can perm topic = true) (other : String) :
    id.can perm other = true :=
  can_eq.mpr ⟨.inr (.inl all), (can_eq.mp may).2⟩

end Identity

/-- The role of an API key that still lists permissions: the first one that says
something decides. -/
def roleFromLegacy : List String → Role
  | [] => .viewer
  | p :: perms =>
    if p = "admin" then .admin
    else if p = "publish" then .producer
    else if p = "subscribe" then .consumer
    else roleFromLegacy perms

end PubsubBroker.Auth
