import AegisPlatform.Core.Exceptions
import AegisPlatform.Foundations.FixedWindow
import AegisPlatform.Foundations.Runs

/-! # The fixed-window rate limit

`CacheBackend.allow_request` on one key, called by any number of requests at once, and the
`rate_limiter` dependency that waits for it. A call sends its commands one at a time, so those of
other calls come in between; it is aborted at any point. The commands touch no other key, and the
key of `rate_limiter` (client and path) is fixed here.

Beside the state the code has, `log` records which request was counted when, and in which lifetime
of the key: a lifetime begins where `INCR` finds no key.
-/

namespace AegisPlatform.Cache
open Foundations Core
set_option autoImplicit false
set_option maxHeartbeats 250000

/-- A counter of Redis: its value, and when the key vanishes. -/
structure Counter (T : Type) where
  count : ℕ
  expiresAt : Option T := none

inductive AllowPhase
  | received
  | counted (count : ℕ)
  | windowed (count : ℕ)
  | returned (allowed : Bool)
  | aborted
deriving DecidableEq

structure Call (T : Type) where
  phase : AllowPhase := .received
  arrivedAt : T
  endedAt : Option T := none

/-- One `INCR`: whose it was, in which lifetime of the key, and when. -/
structure Count (T : Type) where
  call : ℕ
  lifetime : ℕ
  time : T

structure Limiter (T : Type) where
  now : T
  key : Option (Counter T) := none
  calls : List (Call T) := []
  lifetime : ℕ := 0
  log : List (Count T) := []

inductive LimiterAction (T : Type)
  | tick (time : T)
  | arrive
  | resume (i : ℕ)
  | abort (i : ℕ)

def rateLimiter (allowed : Bool) : Except AegisError Unit :=
  if allowed then .ok () else .error (AegisError.init .rateLimited)

theorem rateLimiter_ok (allowed : Bool) : rateLimiter allowed = .ok () ↔ allowed = true := by
  cases allowed <;> simp [rateLimiter]

/-- What the dependency makes of a call that has returned. -/
def Call.answer {T : Type} (c : Call T) : Option (Except AegisError Unit) :=
  match c.phase with
  | .returned allowed => some (rateLimiter allowed)
  | _ => none

theorem Call.answer_some {T : Type} {c : Call T} {answer : Except AegisError Unit}
    (h : c.answer = some answer) :
    ∃ allowed, c.phase = .returned allowed ∧ answer = rateLimiter allowed := by
  unfold Call.answer at h
  split at h
  · next allowed hphase => exact ⟨allowed, hphase, (Option.some.inj h).symm⟩
  · cases h

section
variable {T : Type} [AddCommGroup T] [LinearOrder T]

namespace Redis

/-- What a command finds under the key: nothing, once the time of the key has come. -/
def find (now : T) (key : Option (Counter T)) : Option (Counter T) :=
  key.filter fun c => c.expiresAt.all fun time => decide (now < time)

def incr (now : T) (key : Option (Counter T)) : Counter T :=
  match find now key with
  | none => { count := 1 }
  | some c => { c with count := c.count + 1 }

def expire (now ttl : T) (key : Option (Counter T)) : Option (Counter T) :=
  (find now key).map fun c => { c with expiresAt := some (now + ttl) }

omit [AddCommGroup T] in
theorem find_some {now : T} {key : Option (Counter T)} {c : Counter T} (h : find now key = some c) :
    key = some c ∧ ∀ time ∈ c.expiresAt, now < time := by
  unfold find at h
  rw [Option.filter_eq_some_iff] at h
  refine ⟨h.1, ?_⟩
  intro time htime
  simpa [Option.mem_def.mp htime] using h.2

omit [AddCommGroup T] in
theorem find_none {now : T} {c : Counter T} (h : find now (some c) = none) :
    ∃ time ∈ c.expiresAt, time ≤ now := by
  cases hat : c.expiresAt with
  | none => simp [find, hat] at h
  | some time =>
    refine ⟨time, rfl, ?_⟩
    simpa [find, hat] using h

omit [AddCommGroup T] in
theorem find_of_no_expiry {now : T} {c : Counter T} (h : c.expiresAt = none) :
    find now (some c) = some c := by
  simp [find, h]

end Redis

namespace Limiter

def incr (i : ℕ) (call : Call T) (s : Limiter T) : Limiter T :=
  let key := Redis.incr s.now s.key
  let lifetime := if (Redis.find s.now s.key).isSome then s.lifetime else s.lifetime + 1
  { s with
    key := some key
    calls := s.calls.set i { call with phase := .counted key.count }
    lifetime := lifetime
    log := s.log ++ [⟨i, lifetime, s.now⟩] }

def finish (i : ℕ) (call : Call T) (phase : AllowPhase) (s : Limiter T) : Limiter T :=
  { s with calls := s.calls.set i { call with phase := phase, endedAt := some s.now } }

/-- The next command of the call, or its return. -/
def resume (limit : ℕ) (window : T) (i : ℕ) (call : Call T) (s : Limiter T) : Option (Limiter T) :=
  match call.phase with
  | .received => some (s.incr i call)
  | .counted count =>
    if count = 1 then
      some { s with
        key := Redis.expire s.now window s.key
        calls := s.calls.set i { call with phase := .windowed count } }
    else some (s.finish i call (.returned (decide (count ≤ limit))))
  | .windowed count => some (s.finish i call (.returned (decide (count ≤ limit))))
  | .returned _ | .aborted => none

def next (limit : ℕ) (window : T) (s : Limiter T) : LimiterAction T → Option (Limiter T)
  | .tick time => if s.now ≤ time then some { s with now := time } else none
  | .arrive => some { s with calls := s.calls ++ [{ arrivedAt := s.now }] }
  | .resume i =>
    match s.calls[i]? with
    | none => none
    | some call => s.resume limit window i call
  | .abort i =>
    match s.calls[i]? with
    | none => none
    | some call => if call.endedAt.isNone then some (s.finish i call .aborted) else none

/-! ## What one step can do -/

inductive Step (limit : ℕ) (window : T) (s : Limiter T) : LimiterAction T → Limiter T → Prop
  | tick (time : T) (hle : s.now ≤ time) : Step limit window s (.tick time) { s with now := time }
  | arrive : Step limit window s .arrive { s with calls := s.calls ++ [{ arrivedAt := s.now }] }
  | create {i : ℕ} {call : Call T} (hcall : s.calls[i]? = some call)
      (hphase : call.phase = .received) (hfind : Redis.find s.now s.key = none) :
      Step limit window s (.resume i)
        { s with
          key := some { count := 1 }
          calls := s.calls.set i { call with phase := .counted 1 }
          lifetime := s.lifetime + 1
          log := s.log ++ [⟨i, s.lifetime + 1, s.now⟩] }
  | count {i : ℕ} {call : Call T} {c : Counter T} (hcall : s.calls[i]? = some call)
      (hphase : call.phase = .received) (hfind : Redis.find s.now s.key = some c) :
      Step limit window s (.resume i)
        { s with
          key := some { c with count := c.count + 1 }
          calls := s.calls.set i { call with phase := .counted (c.count + 1) }
          log := s.log ++ [⟨i, s.lifetime, s.now⟩] }
  | expire {i : ℕ} {call : Call T} (hcall : s.calls[i]? = some call)
      (hphase : call.phase = .counted 1) :
      Step limit window s (.resume i)
        { s with
          key := Redis.expire s.now window s.key
          calls := s.calls.set i { call with phase := .windowed 1 } }
  | answer {i n : ℕ} {call : Call T} (hcall : s.calls[i]? = some call)
      (hphase : call.phase = .counted n ∧ n ≠ 1 ∨ call.phase = .windowed n) :
      Step limit window s (.resume i) (s.finish i call (.returned (decide (n ≤ limit))))
  | abort {i : ℕ} {call : Call T} (hcall : s.calls[i]? = some call) (hopen : call.endedAt = none) :
      Step limit window s (.abort i) (s.finish i call .aborted)

theorem resume_step {limit : ℕ} {window : T} {s t : Limiter T} {i : ℕ} {call : Call T}
    (hcall : s.calls[i]? = some call) (h : s.resume limit window i call = some t) :
    Step limit window s (.resume i) t := by
  unfold resume at h
  split at h
  · next hphase =>
    obtain rfl := Option.some.inj h
    unfold incr Redis.incr
    cases hfind : Redis.find s.now s.key with
    | none => exact Step.create hcall hphase hfind
    | some c => exact Step.count hcall hphase hfind
  · next count hphase =>
    split at h
    · next hone =>
      subst hone
      obtain rfl := Option.some.inj h
      exact Step.expire hcall hphase
    · next hone =>
      obtain rfl := Option.some.inj h
      exact Step.answer hcall (Or.inl ⟨hphase, hone⟩)
  · next count hphase =>
    obtain rfl := Option.some.inj h
    exact Step.answer hcall (Or.inr hphase)
  · cases h
  · cases h

theorem next_step {limit : ℕ} {window : T} {s t : Limiter T} {l : LimiterAction T}
    (h : s.next limit window l = some t) : Step limit window s l t := by
  cases l with
  | tick time =>
    simp only [next] at h
    split at h
    · next hle =>
      obtain rfl := Option.some.inj h
      exact Step.tick time hle
    · cases h
  | arrive =>
    obtain rfl := Option.some.inj h
    exact Step.arrive
  | resume i =>
    simp only [next] at h
    split at h
    · cases h
    · next call hcall => exact resume_step hcall h
  | abort i =>
    simp only [next] at h
    split at h
    · cases h
    · next call hcall =>
      split at h
      · next hopen =>
        obtain rfl := Option.some.inj h
        exact Step.abort hcall (Option.isNone_iff_eq_none.mp hopen)
      · cases h

end Limiter
end

end AegisPlatform.Cache
