import AegisPlatform.Foundations.Expiring
import AegisPlatform.Foundations.JsonText

/-! # The store behind the cache

The commands that `CacheBackend` passes on to its client, as a parameter: the client is Redis, or
what stands in for it in one process. `Documented` is what Redis says of them. Redis keeps text
under its keys, a counter as its decimal text.
-/

namespace AegisPlatform.Cache
open Foundations
set_option autoImplicit false
set_option maxHeartbeats 250000

abbrev Store (T : Type) := ExpiringMap String String T

def decimal (n : ℤ) : String := String.ofList (JsonText.intText n)

/-- The integer a text is the decimal text of. -/
def integer? (text : String) : Option ℤ :=
  match JsonText.readInt text.toList with
  | some (n, []) => if decimal n = text then some n else none
  | _ => none

@[simp] theorem integer?_decimal (n : ℤ) : integer? (decimal n) = some n := by
  have hread := JsonText.readInt_intText n (show JsonText.NoDigit [] by simp [JsonText.NoDigit])
  rw [List.append_nil] at hread
  unfold integer? decimal
  rw [String.toList_ofList, hread]
  simp

/-- `set`, `incr` and `expire` of a Redis client, each at a moment; `none` is the error it raises. A
command that took effect although its answer is lost is one that returns, and a caller that is
aborted next. -/
structure RedisClient (S T : Type) where
  set : T → S → String → String → Option T → Option S
  incr : T → S → String → Option (ℤ × S)
  expire : T → S → String → T → Option S

/-- What counting finds: a key that is not there counts as 0. -/
def count? {T : Type} (found : Option (Expiring String T)) : Option ℤ :=
  match found with
  | none => some 0
  | some entry => integer? entry.value

section
variable {S T : Type} [AddCommGroup T] [LinearOrder T]

/-- What the documentation promises of commands that return, on the entries the client keeps. -/
structure Documented (redis : RedisClient S T) (entries : S → Store T) : Prop where
  set : ∀ now s key value ex s', redis.set now s key value ex = some s' →
    entries s' = (entries s).put key { value := value, expiresAt := ex.map fun ttl => now + ttl }
  incr : ∀ now s key n s', redis.incr now s key = some (n, s') →
    (∃ found ∈ count? ((entries s).find now key), n = found + 1) ∧
      entries s' = (entries s).write now key (decimal n)
  expire : ∀ now s key ttl s', redis.expire now s key ttl = some s' →
    entries s' = (entries s).touch now key (now + ttl)

namespace Documented
variable {redis : RedisClient S T} {entries : S → Store T} {now : T} {s s' : S}
  {key other value : String}

/-! ## One command, one key -/

theorem set_of_ne (hredis : Documented redis entries) {ex : Option T}
    (h : redis.set now s key value ex = some s') (hne : other ≠ key) :
    entries s' other = entries s other := by
  rw [hredis.set _ _ _ _ _ _ h]
  exact ExpiringMap.put_of_ne hne _

theorem incr_of_ne (hredis : Documented redis entries) {n : ℤ}
    (h : redis.incr now s key = some (n, s')) (hne : other ≠ key) :
    entries s' other = entries s other := by
  rw [(hredis.incr _ _ _ _ _ h).2]
  exact ExpiringMap.write_of_ne hne _

theorem expire_of_ne (hredis : Documented redis entries) {ttl : T}
    (h : redis.expire now s key ttl = some s') (hne : other ≠ key) :
    entries s' other = entries s other := by
  rw [hredis.expire _ _ _ _ _ h]
  exact ExpiringMap.touch_of_ne hne _

end Documented

/-! ## One process -/

/-- The client that keeps the entries itself. It refuses an expiry that is not in the future, and to
count on what is no integer. -/
def fakeRedis : RedisClient (Store T) T where
  set now store key value ex :=
    if ex.all fun ttl => decide (0 < ttl) then
      some (store.put key { value := value, expiresAt := ex.map fun ttl => now + ttl })
    else none
  incr now store key :=
    (count? (store.find now key)).map fun n => (n + 1, store.write now key (decimal (n + 1)))
  expire now store key ttl := some (store.touch now key (now + ttl))

theorem fakeRedis_documented : Documented (fakeRedis : RedisClient (Store T) T) id where
  set now store key value ex store' h := by
    unfold fakeRedis at h
    simp only at h
    split at h
    · exact (Option.some.inj h).symm
    · cases h
  incr now store key n store' h := by
    obtain ⟨found, hfound, heq⟩ := Option.map_eq_some_iff.mp h
    obtain ⟨rfl, rfl⟩ := Prod.mk.inj heq
    exact ⟨⟨found, hfound, rfl⟩, rfl⟩
  expire now store key ttl store' h := (Option.some.inj h).symm

end

end AegisPlatform.Cache
