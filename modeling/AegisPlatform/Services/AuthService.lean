import AegisPlatform.Core.Security
import AegisPlatform.Services.AccountService

/-! # Login and refresh

`AuthService` of `services/auth_service.py`, registration apart. `Security` bundles the settings
with the libraries. The two `jti` of a pair of tokens are drawn outside.
-/

namespace AegisPlatform.Services
open Foundations Domain Core Db
set_option autoImplicit false
set_option maxHeartbeats 250000

structure Security where
  jwt : Jwt
  passwords : PasswordContext
  uuid : UuidText
  accessTokenTtlSeconds : ℤ := 60 * 15
  refreshTokenTtlSeconds : ℤ := 60 * 60 * 24 * 14

namespace Security

def ttl (sec : Security) : TokenType → ℤ
  | .access => sec.accessTokenTtlSeconds
  | .refresh => sec.refreshTokenTtlSeconds

/-- The payload of a token of the account. -/
def payload (sec : Security) (user : User) (type : TokenType) (jti : String) (now : ℚ) : Payload :=
  tokenPayload (sec.uuid.str user.id) user.role.value type (sec.ttl type) jti now

/-- The password of the account: the one its hash was made of. -/
def IsPassword (sec : Security) (user : User) (password : String) : Prop :=
  ∃ salt, user.hashedPassword = sec.passwords.hash salt password

end Security

/-- The `ValueError` of `uuid.UUID` is no error of the API, and the client sees it as a 500. -/
inductive AuthFailure
  | failure (failure : Failure)
  | valueError
deriving DecidableEq

structure Token where
  accessToken : String
  refreshToken : String
  tokenType : String := "bearer"
  expiresIn : ℤ

namespace AuthService

def invalidCredentials : Failure :=
  .aegis (AegisError.init .unauthorized "Invalid email or password." "invalid_credentials")

def accountDisabled : Failure :=
  .aegis (AegisError.init .forbidden "This account has been disabled.")

def accountNotValid : Failure :=
  .aegis (AegisError.init .unauthorized "Account is no longer valid." "invalid_token")

def authenticate [Unicode] (sec : Security) (db : Database) (email password : String) :
    Except Failure User :=
  match db.getByEmail email with
  | none => .error invalidCredentials
  | some user =>
    if !sec.passwords.verify password user.hashedPassword then .error invalidCredentials
    else if !user.isActive then .error accountDisabled
    else .ok user

def issueTokens (sec : Security) (user : User) (jtis : String × String) (now : ℚ) : Token where
  accessToken := sec.jwt.encode (sec.payload user .access jtis.1 now)
  refreshToken := sec.jwt.encode (sec.payload user .refresh jtis.2 now)
  expiresIn := sec.accessTokenTtlSeconds

/-- The account a refresh token names, as `refresh` looks it up. -/
def refreshed (sec : Security) (decode : String → Except JwtError Payload) (db : Database)
    (refreshToken : String) : Except AuthFailure User :=
  match decodeToken decode refreshToken (some .refresh) with
  | .error e => .error (.failure (.aegis e))
  | .ok data =>
    match sec.uuid.parse data.subject with
    | none => .error .valueError
    | some userId =>
      match db.users.get? userId with
      | none => .error (.failure accountNotValid)
      | some user => if user.isActive then .ok user else .error (.failure accountNotValid)

def refresh (sec : Security) (decode : String → Except JwtError Payload) (db : Database)
    (refreshToken : String) (jtis : String × String) (now : ℚ) : Except AuthFailure Token :=
  match refreshed sec decode db refreshToken with
  | .error e => .error e
  | .ok user => .ok (issueTokens sec user jtis now)

section
variable {sec : Security} {db : Database} {user : User}

theorem authenticate_ok [Unicode] {email password : String}
    (h : authenticate sec db email password = .ok user) :
    user ∈ db.users.rows ∧ sec.passwords.verify password user.hashedPassword = true ∧
      user.isActive = true := by
  unfold authenticate at h
  split at h
  · cases h
  · next row hrow =>
    split at h
    · cases h
    · next hverify =>
      split at h
      · cases h
      · next hactive =>
        obtain rfl := Except.ok.inj h
        exact ⟨List.mem_of_find?_eq_some hrow, by simpa using hverify, by simpa using hactive⟩

theorem refreshed_ok {decode : String → Except JwtError Payload} {token : String}
    (h : refreshed sec decode db token = .ok user) :
    ∃ payload, decode token = .ok payload ∧ payload.type = .refresh ∧
      sec.uuid.parse payload.sub = some user.id ∧ db.users.get? user.id = some user ∧
      user.isActive = true := by
  unfold refreshed at h
  split at h
  · cases h
  · next data hdata =>
    obtain ⟨payload, hdecode, htype, rfl⟩ := decodeToken_ok_iff.mp hdata
    split at h
    · cases h
    · next userId hparse =>
      split at h
      · cases h
      · next row hrow =>
        split at h
        · next hactive =>
          obtain rfl := Except.ok.inj h
          rw [← Table.get?_key hrow] at hparse hrow
          exact ⟨payload, hdecode, htype, hparse, hrow, hactive⟩
        · cases h

/-- An exact check finds the password of the account. -/
theorem isPassword_of_verify {password : String} (hknown : ∃ password, sec.IsPassword user password)
    (h : sec.passwords.verify password user.hashedPassword = true) :
    sec.IsPassword user password := by
  obtain ⟨known, salt, hhash⟩ := hknown
  rw [hhash, sec.passwords.verify_hash] at h
  rw [h]
  exact ⟨salt, hhash⟩

end

end AuthService

end AegisPlatform.Services
