import AegisPlatform.Core.Exceptions
import AegisPlatform.Domain.Schemas
import AegisPlatform.Foundations.PyNumber

/-! # Passwords and tokens

`core/security.py`. The libraries behind it are parameters with what they promise: `Jwt` signs and
reads back, `PasswordContext` hashes with a salt and verifies exactly, `UuidText` is the text of an
account's id. A time is the number of seconds since the epoch, as `datetime.timestamp()` gives it.
-/

namespace AegisPlatform.Core
open Foundations Domain
set_option autoImplicit false
set_option maxHeartbeats 250000

/-- `passlib`'s context: a hash depends on the password and on the salt drawn for it. -/
structure PasswordContext where
  hash : ℕ → String → String
  verify : String → String → Bool
  verify_hash : ∀ raw salt password, verify raw (hash salt password) = true ↔ raw = password

/-- `str` of a UUID and the constructor `uuid.UUID`, which raises `ValueError` on other texts. -/
structure UuidText where
  str : Uuid → String
  parse : String → Option Uuid
  parse_str : ∀ id, parse (str id) = some id

inductive TokenType
  | access | refresh
deriving DecidableEq, Repr

def TokenType.value : TokenType → String
  | .access => "access"
  | .refresh => "refresh"

/-- The claims of a token. -/
structure Payload where
  sub : String
  role : String
  type : TokenType
  iat : ℤ
  exp : ℤ
  jti : String
deriving DecidableEq

structure TokenData where
  subject : String
  role : String
  tokenType : TokenType
  jti : String
  expiresAt : ℤ

/-- Why `jwt.decode` refuses a token; every other refusal is a `PyJWTError` as well. -/
inductive JwtError
  | expiredSignature
  | invalid

/-- `jwt.encode` under the secret key of the platform. -/
structure Jwt where
  encode : Payload → String
  encode_injective : Function.Injective encode

/-- `jwt.decode` of an ideal signature, where `encoded` are the payloads signed so far. -/
def Jwt.decode (jwt : Jwt) (encoded : List Payload) (now : ℚ) (token : String) :
    Except JwtError Payload :=
  match encoded.find? fun payload => jwt.encode payload == token with
  | none => .error .invalid
  | some payload => if (payload.exp : ℚ) ≤ now then .error .expiredSignature else .ok payload

/-- The payload `_create_token` signs. -/
def tokenPayload (subject role : String) (type : TokenType) (ttlSeconds : ℤ) (jti : String)
    (now : ℚ) : Payload where
  sub := subject
  role := role
  type := type
  iat := truncate now
  exp := truncate (now + ttlSeconds)
  jti := jti

def tokenExpired : AegisError := AegisError.init .unauthorized "Token has expired." "token_expired"

def tokenInvalid : AegisError := AegisError.init .unauthorized "Token is invalid." "token_invalid"

def tokenWrongType (expected : TokenType) : AegisError :=
  AegisError.init .unauthorized ("Expected a " ++ expected.value ++ " token.") "token_wrong_type"

/-- `decode_token`, over what `jwt.decode` makes of a token now. -/
def decodeToken (decode : String → Except JwtError Payload) (token : String)
    (expectedType : Option TokenType := none) : Except AegisError TokenData :=
  match decode token with
  | .error .expiredSignature => .error tokenExpired
  | .error .invalid => .error tokenInvalid
  | .ok payload =>
    match expectedType with
    | some expected =>
      if payload.type ≠ expected then .error (tokenWrongType expected)
      else .ok ⟨payload.sub, payload.role, payload.type, payload.jti, payload.exp⟩
    | none => .ok ⟨payload.sub, payload.role, payload.type, payload.jti, payload.exp⟩

section
variable {jwt : Jwt} {encoded : List Payload} {now : ℚ} {token : String} {payload : Payload}

theorem Jwt.decode_ok_iff :
    jwt.decode encoded now token = .ok payload ↔
      payload ∈ encoded ∧ jwt.encode payload = token ∧ now < payload.exp := by
  unfold Jwt.decode
  constructor
  · intro h
    split at h
    · cases h
    · next found hfound =>
      split at h
      · cases h
      · next hlive =>
        obtain rfl := Except.ok.inj h
        exact ⟨List.mem_of_find?_eq_some hfound, by simpa using List.find?_some hfound,
          not_le.mp hlive⟩
  · rintro ⟨hmem, htoken, hlive⟩
    cases hfind : encoded.find? fun payload => jwt.encode payload == token with
    | none => exact absurd htoken (by simpa using List.find?_eq_none.mp hfind payload hmem)
    | some found =>
      have hfound : jwt.encode found = token := by simpa using List.find?_some hfind
      have hsame : found = payload := jwt.encode_injective (hfound.trans htoken.symm)
      subst hsame
      exact if_neg (not_le.mpr hlive)

theorem decodeToken_ok_iff {decode : String → Except JwtError Payload} {expected : TokenType}
    {data : TokenData} :
    decodeToken decode token (some expected) = .ok data ↔
      ∃ payload, decode token = .ok payload ∧ payload.type = expected ∧
        data = ⟨payload.sub, payload.role, payload.type, payload.jti, payload.exp⟩ := by
  unfold decodeToken
  constructor
  · intro h
    split at h
    · cases h
    · cases h
    · next payload hdecode =>
      dsimp only at h
      split at h
      · cases h
      · next htype => exact ⟨payload, hdecode, not_not.mp htype, (Except.ok.inj h).symm⟩
  · rintro ⟨payload, hdecode, htype, rfl⟩
    rw [hdecode]
    exact if_neg (not_not.mpr htype)

end

end AegisPlatform.Core
