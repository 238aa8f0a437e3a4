/-
# Auth.Legacy — what a list of legacy permissions grants

`roleFromLegacy` collapses the permissions an API key lists to one role: the first permission it
knows decides, and the others are lost.  `legacyOperations` says what each permission is for.

A key gets what its list asks for, in whatever order the list is written, exactly when the list
names at most one permission (`legacy_honoured_iff`).  A key that may publish and subscribe, as
in the sample configuration, is one that cannot do both (`legacy_subscribe_lost`).
-/
import PubsubBroker.Auth.Authenticator

namespace PubsubBroker.Auth

open List

/-- What a legacy permission is for. -/
def legacyOperations (p : String) : List Permission :=
  if p = "admin" then rolePermissions .admin
  else if p = "publish" then [.publish]
  else if p = "subscribe" then [.subscribe, .fetch, .commit, .seek]
  else []

/-- The identity of the key may do what its list says, on the topics it may use at all, and list
topics. -/
def APIKey.Honoured (k : APIKey) : Prop :=
  ∀ topic perm, k.identity.Listed topic →
    (k.identity.can perm topic = true ↔
      perm = .listTopics ∨ ∃ p ∈ k.permissions, perm ∈ legacyOperations p)

def knownPermissions : List String := ["admin", "publish", "subscribe"]

theorem known_of_mem {p : String} {perm : Permission} (mem : perm ∈ legacyOperations p) :
    p ∈ knownPermissions := by
  by_contra unknown
  simp only [knownPermissions, mem_cons, not_mem_nil, or_false, not_or] at unknown
  simp [legacyOperations, unknown] at mem

/-- The first known permission decides. -/
theorem mem_roleFromLegacy (perm : Permission) : ∀ perms : List String,
    perm ∈ rolePermissions (roleFromLegacy perms) ↔
      perm = .listTopics ∨ ∃ p ∈ perms.find? (· ∈ knownPermissions), perm ∈ legacyOperations p
  | [] => by simp [roleFromLegacy, rolePermissions]
  | p :: perms => by
    by_cases known : p ∈ knownPermissions
    · simp only [find?_cons, known, decide_true, Option.mem_some_iff, exists_eq_left']
      simp only [knownPermissions, mem_cons, not_mem_nil, or_false] at known
      rcases known with rfl | rfl | rfl <;> cases perm <;>
        simp [roleFromLegacy, rolePermissions, legacyOperations]
    · have skipped : roleFromLegacy (p :: perms) = roleFromLegacy perms := by
        simp only [knownPermissions, mem_cons, not_mem_nil, or_false, not_or] at known
        simp [roleFromLegacy, known]
      rw [skipped, mem_roleFromLegacy perm perms]
      simp [known]

/-- The known permissions differ in these two operations. -/
theorem known_eq : ∀ p ∈ knownPermissions, ∀ q ∈ knownPermissions,
    (.admin ∈ legacyOperations p ↔ .admin ∈ legacyOperations q) →
      (.publish ∈ legacyOperations p ↔ .publish ∈ legacyOperations q) → p = q := by
  decide

theorem honoured_iff (k : APIKey) (listed : k.role = "") : k.Honoured ↔
    ∀ perm ≠ .listTopics, (∃ p ∈ k.permissions.find? (· ∈ knownPermissions),
      perm ∈ legacyOperations p) ↔ ∃ p ∈ k.permissions, perm ∈ legacyOperations p := by
  have role : k.identity.role = roleFromLegacy k.permissions := by simp [APIKey.identity, listed]
  unfold APIKey.Honoured
  simp only [Identity.can_eq, role, mem_roleFromLegacy]
  constructor
  · intro honoured perm other
    have here : k.identity.Listed "" := .inl rfl
    simpa [other, here] using honoured "" perm here
  · intro same topic perm on
    by_cases other : perm = .listTopics
    · simp [other, on]
    · simpa [other, on] using same perm other

/-- **Legacy permissions.**  A key is given what it lists, whatever the order of the list, exactly
when it lists at most one permission that is known. -/
theorem legacy_honoured_iff {k : APIKey} (listed : k.role = "") :
    (∀ perms, perms ~ k.permissions → APIKey.Honoured { k with permissions := perms }) ↔
      ∀ p ∈ k.permissions, ∀ q ∈ k.permissions, p ∈ knownPermissions → q ∈ knownPermissions →
        p = q := by
  constructor
  · intro honoured p hp q hq knownP knownQ
    -- with either of them in front, the key has the operations of that one
    have front : ∀ r ∈ k.permissions, r ∈ knownPermissions → ∀ perm ≠ .listTopics,
        perm ∈ legacyOperations r ↔ ∃ p ∈ k.permissions, perm ∈ legacyOperations p := by
      intro r hr known perm other
      have order := (perm_cons_erase hr).symm
      have first := (honoured_iff ⟨_, _, _, r :: k.permissions.erase r, _⟩ listed).mp
        (honoured _ order) perm other
      simp only [find?_cons, known, decide_true, Option.mem_some_iff, exists_eq_left'] at first
      rw [first]
      simp only [order.mem_iff]
    have same : ∀ perm ≠ .listTopics, perm ∈ legacyOperations p ↔ perm ∈ legacyOperations q :=
      fun perm other => (front p hp knownP perm other).trans (front q hq knownQ perm other).symm
    exact known_eq p knownP q knownQ (same .admin (by decide)) (same .publish (by decide))
  · intro single perms order
    refine (honoured_iff ⟨_, _, _, perms, _⟩ listed).mpr fun perm _ => ⟨?_, ?_⟩
    · rintro ⟨p, found, mem⟩
      exact ⟨p, mem_of_find?_eq_some found, mem⟩
    · rintro ⟨p, hp, mem⟩
      have known := known_of_mem mem
      cases found : perms.find? (· ∈ knownPermissions) with
      | none => exact absurd (decide_eq_true known) (find?_eq_none.mp found p hp)
      | some r =>
        have hr := mem_of_find?_eq_some found
        have knownR := find?_some found
        obtain rfl := single p (order.mem_iff.mp hp) r (order.mem_iff.mp hr) known
          (of_decide_eq_true knownR)
        exact ⟨p, rfl, mem⟩

theorem legacy_honoured_publisher :
    APIKey.Honoured ⟨[1], "svc", "", ["publish", "extra"], []⟩ :=
  (legacy_honoured_iff (k := ⟨[1], "svc", "", ["extra", "publish"], []⟩) rfl).mpr (by decide) _
    (.swap ..)

/-- A service that lists both permissions may publish and not subscribe. -/
theorem legacy_subscribe_lost :
    ¬ APIKey.Honoured ⟨[1], "svc", "", ["publish", "subscribe"], []⟩ := by
  intro honoured
  have may := (honoured "orders" .subscribe (.inr (.inl rfl))).mpr (.inr (by decide))
  exact absurd may (by decide)

end PubsubBroker.Auth
