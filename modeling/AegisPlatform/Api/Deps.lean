import AegisPlatform.Core.Exceptions
import AegisPlatform.Db.Models

/-! # Request dependencies

`get_current_user` and `require_roles` of `api/deps.py`, for a request whose token decodes to the
subject `userId`. The role in the token is not read; the role of the account is.
-/

namespace AegisPlatform.Api
open Foundations Domain Core Db
set_option autoImplicit false
set_option maxHeartbeats 250000

def invalidAccount : Failure :=
  .aegis (AegisError.init .unauthorized "User no longer exists or is inactive." "invalid_token")

def insufficientRole : Failure :=
  .aegis (AegisError.init .forbidden "Your role does not permit this action." "insufficient_role")

def currentUser (db : Database) (userId : Uuid) : Except Failure User :=
  match db.users.get? userId with
  | none => .error invalidAccount
  | some user => if user.isActive then .ok user else .error invalidAccount

/-- Admins always pass. -/
def requireRoles (roles : List UserRole) (user : User) : Except Failure User :=
  if user.role ≠ .admin ∧ user.role ∉ roles then .error insufficientRole else .ok user

-- the dependency `Engineer` of every mutating endpoint
def engineer (db : Database) (userId : Uuid) : Except Failure User :=
  match currentUser db userId with
  | .error e => .error e
  | .ok user => requireRoles [.engineer] user

theorem currentUser_ok {db : Database} {userId : Uuid} {user : User}
    (h : currentUser db userId = .ok user) :
    db.users.get? userId = some user ∧ user.isActive = true := by
  unfold currentUser at h
  cases hrow : db.users.get? userId with
  | none => simp [hrow] at h
  | some row =>
    simp only [hrow] at h
    split at h
    · next hactive =>
      obtain rfl := Except.ok.inj h
      exact ⟨rfl, hactive⟩
    · cases h

theorem engineer_ok {db : Database} {userId : Uuid} {user : User}
    (h : engineer db userId = .ok user) : db.users.get? userId = some user := by
  unfold engineer at h
  cases huser : currentUser db userId with
  | error e => simp [huser] at h
  | ok user' =>
    simp only [huser, requireRoles] at h
    split at h
    · cases h
    · obtain rfl := Except.ok.inj h
      exact (currentUser_ok huser).1

theorem engineer_error {db : Database} {userId : Uuid} {e : Failure}
    (h : engineer db userId = .error e) : ∃ a, e = .aegis a := by
  unfold engineer at h
  cases huser : currentUser db userId with
  | error e' =>
    simp only [huser, Except.error.injEq] at h
    subst h
    unfold currentUser at huser
    split at huser
    · exact ⟨_, (Except.error.inj huser).symm⟩
    · split at huser
      · cases huser
      · exact ⟨_, (Except.error.inj huser).symm⟩
  | ok user =>
    simp only [huser, requireRoles] at h
    split at h
    · exact ⟨_, (Except.error.inj h).symm⟩
    · cases h

end AegisPlatform.Api
