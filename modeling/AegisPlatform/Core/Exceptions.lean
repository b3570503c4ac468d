import Mathlib.Data.Nat.Notation

/-! # Typed domain exceptions

`core/exceptions.py`: the class hierarchy as an enumeration with the class attributes, and an
error as its class with the message and the code the constructor settles on. `details` is never
passed by the modelled code and is left out.

An `AegisError` is the answer the API promises. `Failure.integrityError` is the database's own
refusal of a row, which no handler translates and which the client sees as a 500.
-/

namespace AegisPlatform.Core
set_option autoImplicit false
set_option maxHeartbeats 250000

inductive ErrorClass
  | aegisError | notFound | conflict | idempotencyConflict | unauthorized | forbidden
  | domainValidation | rateLimited | serviceUnavailable | healing
deriving DecidableEq, Repr

namespace ErrorClass

def httpStatus : ErrorClass → ℕ
  | aegisError => 500
  | notFound => 404
  | conflict => 409
  | idempotencyConflict => 409
  | unauthorized => 401
  | forbidden => 403
  | domainValidation => 422
  | rateLimited => 429
  | serviceUnavailable => 503
  | healing => 502

def code : ErrorClass → String
  | aegisError => "internal_error"
  | notFound => "not_found"
  | conflict => "conflict"
  | idempotencyConflict => "idempotency_conflict"
  | unauthorized => "unauthorized"
  | forbidden => "forbidden"
  | domainValidation => "validation_error"
  | rateLimited => "rate_limited"
  | serviceUnavailable => "service_unavailable"
  | healing => "healing_failed"

def message : ErrorClass → String
  | aegisError => "An unexpected error occurred."
  | notFound => "The requested resource was not found."
  | conflict => "The resource already exists or violates a uniqueness constraint."
  | idempotencyConflict => "A different request already used this idempotency key."
  | unauthorized => "Authentication is required or has failed."
  | forbidden => "You do not have permission to perform this action."
  | domainValidation => "The request is invalid."
  | rateLimited => "Too many requests; please slow down."
  | serviceUnavailable => "A downstream dependency is unavailable."
  | healing => "The self-healing engine could not produce a usable locator."

end ErrorClass

structure AegisError where
  cls : ErrorClass
  message : String
  code : String
deriving DecidableEq, Repr

-- `message or self.message` and `code or self.code`: an empty text counts as not given
def AegisError.init (cls : ErrorClass) (message : String := "") (code : String := "") :
    AegisError where
  cls := cls
  message := if message = "" then cls.message else message
  code := if code = "" then cls.code else code

def AegisError.httpStatus (e : AegisError) : ℕ := e.cls.httpStatus

inductive Failure
  | aegis (e : AegisError)
  | integrityError
deriving DecidableEq, Repr

end AegisPlatform.Core
