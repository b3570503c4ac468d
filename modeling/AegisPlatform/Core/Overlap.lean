import AegisPlatform.Core.Resilience

/-! # Overlapping calls

`CircuitBreaker.call` as other tasks can interrupt it: the admission check under the lock, with
the invocation of `func` right behind it, the unlocked `await`, and the update under the lock. A
call is cancelled in any of its phases; then it records nothing.

An update does not look at the state it finds. A success that was admitted while the breaker was
CLOSED and ends after others have tripped it closes an OPEN breaker; `PromptSuccess` is the guard
that excludes this, and `opened_closes_iff` states that nothing else does it.
-/

namespace AegisPlatform.Core
open Foundations
set_option autoImplicit false
set_option maxHeartbeats 250000

inductive CallPhase (ε α : Type)
  | waiting
  | running
  | settling (outcome : Outcome ε α)
  | rejected (error : AegisError)
  | ended

/-- A breaker with its callers, the clock and the number of invocations of `func` so far. -/
structure Shared (T ε α : Type) where
  breaker : CircuitBreaker T
  now : T
  calls : List (CallPhase ε α) := []
  invocations : ℕ := 0

inductive SharedAction (T ε α : Type)
  | tick (time : T)
  | arrive
  | check (i : ℕ)
  | finish (i : ℕ) (outcome : Outcome ε α)
  | update (i : ℕ)
  | cancel (i : ℕ)

variable {T ε α : Type} [AddCommGroup T] [LinearOrder T]

namespace Shared

def check (i : ℕ) (s : Shared T ε α) : Shared T ε α :=
  let b := s.breaker.maybeHalfOpen s.now
  if b.state = .opened then
    { s with breaker := b, calls := s.calls.set i (.rejected (circuitOpen b.name)) }
  else
    { s with breaker := b, calls := s.calls.set i .running, invocations := s.invocations + 1 }

def next (s : Shared T ε α) : SharedAction T ε α → Option (Shared T ε α)
  | .tick time => if s.now ≤ time then some { s with now := time } else none
  | .arrive => some { s with calls := s.calls ++ [.waiting] }
  | .check i =>
    match s.calls[i]? with
    | some .waiting => some (s.check i)
    | _ => none
  | .finish i outcome =>
    match s.calls[i]? with
    | some .running => some { s with calls := s.calls.set i (.settling outcome) }
    | _ => none
  | .update i =>
    match s.calls[i]? with
    | some (.settling outcome) =>
      some { s with breaker := s.breaker.settle s.now outcome, calls := s.calls.set i .ended }
    | _ => none
  -- a cancelled `await func()` is `finish i .cancelled`
  | .cancel i =>
    match s.calls[i]? with
    | some .waiting | some (.settling _) => some { s with calls := s.calls.set i .ended }
    | _ => none

/-- Everything a step can do to the breaker, the clock and the number of invocations. -/
theorem next_cases {s t : Shared T ε α} {l : SharedAction T ε α} (h : s.next l = some t) :
    (t.breaker = s.breaker ∧ s.now ≤ t.now ∧ t.invocations = s.invocations) ∨
    (t.breaker = s.breaker.maybeHalfOpen s.now ∧ t.now = s.now ∧
      (t.breaker.state = .opened → t.invocations = s.invocations)) ∨
    (∃ i outcome, l = .update i ∧ s.calls[i]? = some (.settling outcome) ∧
      t.breaker = s.breaker.settle s.now outcome ∧ t.now = s.now ∧
      t.invocations = s.invocations) := by
  cases l with
  | tick time =>
    simp only [next] at h
    split at h
    · next hle =>
      obtain rfl := Option.some.inj h
      exact Or.inl ⟨rfl, hle, rfl⟩
    · cases h
  | arrive =>
    obtain rfl := Option.some.inj h
    exact Or.inl ⟨rfl, le_refl _, rfl⟩
  | check i =>
    simp only [next] at h
    split at h
    · obtain rfl := Option.some.inj h
      refine Or.inr (Or.inl ?_)
      unfold check
      dsimp only
      split
      · exact ⟨rfl, rfl, fun _ => rfl⟩
      · next hopen => exact ⟨rfl, rfl, fun hs => absurd hs hopen⟩
    · cases h
  | finish i outcome =>
    simp only [next] at h
    split at h
    · obtain rfl := Option.some.inj h
      exact Or.inl ⟨rfl, le_refl _, rfl⟩
    · cases h
  | update i =>
    simp only [next] at h
    split at h
    · next outcome hcall =>
      obtain rfl := Option.some.inj h
      exact Or.inr (Or.inr ⟨i, outcome, rfl, hcall, rfl, rfl, rfl⟩)
    · cases h
  | cancel i =>
    simp only [next] at h
    split at h
    · obtain rfl := Option.some.inj h
      exact Or.inl ⟨rfl, le_refl _, rfl⟩
    · obtain rfl := Option.some.inj h
      exact Or.inl ⟨rfl, le_refl _, rfl⟩
    · cases h

/-- Whether the step `l` records the success of a call. -/
def succeeds (s : Shared T ε α) (l : SharedAction T ε α) : Prop :=
  ∃ i result, l = .update i ∧ s.calls[i]? = some (.settling (.returned result))

/-- No success is recorded while the breaker is OPEN. -/
def PromptSuccess (s : Shared T ε α) (l : SharedAction T ε α) : Prop :=
  s.breaker.state = .opened → ¬ s.succeeds l

/-- The only step from OPEN to CLOSED is the record of a success. -/
theorem opened_closes_iff {s t : Shared T ε α} {l : SharedAction T ε α} (h : s.next l = some t)
    (hopen : s.breaker.state = .opened) : t.breaker.state = .closed ↔ s.succeeds l := by
  constructor
  · intro hclosed
    rcases next_cases h with ⟨hb, -⟩ | ⟨hb, -⟩ | ⟨i, outcome, hl, hcall, hb, -⟩
    · rw [hb, hopen] at hclosed
      exact BreakerState.noConfusion hclosed
    · rcases s.breaker.maybeHalfOpen_cases s.now with ⟨_, -, -, -, heq⟩ | ⟨-, heq⟩
      · rw [hb, heq] at hclosed
        exact BreakerState.noConfusion hclosed
      · rw [hb, heq, hopen] at hclosed
        exact BreakerState.noConfusion hclosed
    · cases outcome with
      | returned result => exact ⟨i, result, hl, hcall⟩
      | raised error =>
        rw [hb] at hclosed
        rcases s.breaker.onFailure_cases s.now with ⟨hs, -⟩ | ⟨hs, -⟩
        · exact BreakerState.noConfusion (hs.symm.trans hclosed)
        · exact BreakerState.noConfusion ((hs.trans hopen).symm.trans hclosed)
      | cancelled =>
        rw [hb] at hclosed
        exact BreakerState.noConfusion (hopen.symm.trans hclosed)
  · rintro ⟨i, result, rfl, hcall⟩
    simp only [next, hcall] at h
    obtain rfl := Option.some.inj h
    rfl

/-- The breaker becomes OPEN by the record of a failure, at the time of that record. -/
theorem opened_at {s t : Shared T ε α} {l : SharedAction T ε α} (h : s.next l = some t)
    (hnot : s.breaker.state ≠ .opened) (hopen : t.breaker.state = .opened) :
    t.breaker.openedMonotonic = some t.now := by
  rcases next_cases h with ⟨hb, -⟩ | ⟨hb, -⟩ | ⟨i, outcome, -, -, hb, hnow, -⟩
  · exact absurd (hb ▸ hopen) hnot
  · rcases s.breaker.maybeHalfOpen_cases s.now with ⟨_, -, hs, -, -⟩ | ⟨-, heq⟩
    · exact absurd hs hnot
    · rw [hb, heq] at hopen
      exact absurd hopen hnot
  · rw [hb] at hopen
    cases outcome with
    | returned result => exact BreakerState.noConfusion hopen
    | cancelled => exact absurd hopen hnot
    | raised error =>
      rcases s.breaker.onFailure_cases s.now with ⟨-, hat⟩ | ⟨hs, -⟩
      · rw [hb, hnow]
        exact hat
      · exact absurd (hs.symm.trans hopen) hnot

theorem config_next {s t : Shared T ε α} {l : SharedAction T ε α} (h : s.next l = some t) :
    t.breaker.config = s.breaker.config := by
  rcases next_cases h with ⟨hb, -⟩ | ⟨hb, -⟩ | ⟨i, outcome, -, -, hb, -⟩
  · rw [hb]
  · rw [hb, CircuitBreaker.config_maybeHalfOpen]
  · rw [hb, CircuitBreaker.config_settle]

theorem clock_next {s t : Shared T ε α} {l : SharedAction T ε α} (h : s.next l = some t) :
    s.now ≤ t.now := by
  rcases next_cases h with ⟨-, hle, -⟩ | ⟨-, hnow, -⟩ | ⟨i, outcome, -, -, -, hnow, -⟩
  · exact hle
  · exact hnow.ge
  · exact hnow.ge

/-- OPEN since `since` or later, with `count` invocations so far. -/
structure HeldOpen (since reset : T) (count : ℕ) (s : Shared T ε α) : Prop where
  state : s.breaker.state = .opened
  reset : s.breaker.resetTimeout = reset
  opened : ∃ t ∈ s.breaker.openedMonotonic, since ≤ t
  clock : since ≤ s.now
  invocations : s.invocations = count

variable [IsOrderedAddMonoid T] {s t : Shared T ε α} {l : SharedAction T ε α} {since reset : T}
  {count : ℕ}

omit [AddCommGroup T] [IsOrderedAddMonoid T] in
theorem heldOpen_update {outcome : Outcome ε α} (hs : HeldOpen since reset count s)
    (hreturned : ∀ result, outcome ≠ .returned result)
    (hb : t.breaker = s.breaker.settle s.now outcome) (hnow : t.now = s.now)
    (hinv : t.invocations = s.invocations) : HeldOpen since reset count t := by
  have hclock : since ≤ t.now := hnow ▸ hs.clock
  have hcount : t.invocations = count := hinv.trans hs.invocations
  cases outcome with
  | returned result => exact absurd rfl (hreturned result)
  | cancelled =>
    have heq : t.breaker = s.breaker := hb
    exact ⟨heq ▸ hs.state, heq ▸ hs.reset, heq ▸ hs.opened, hclock, hcount⟩
  | raised error =>
    have hconfig := s.breaker.config_settle s.now (Outcome.raised error : Outcome ε α)
    have hreset : t.breaker.resetTimeout = s.breaker.resetTimeout := by
      rw [hb]
      exact congrArg (fun c => c.2.2) hconfig
    have hfail : t.breaker = s.breaker.onFailure s.now := hb
    rcases s.breaker.onFailure_cases s.now with ⟨hopen, hat⟩ | ⟨hopen, hat⟩
    · rw [← hfail] at hopen hat
      exact ⟨hopen, hreset.trans hs.reset, ⟨s.now, hat, hs.clock⟩, hclock, hcount⟩
    · rw [← hfail] at hopen hat
      exact ⟨hopen.trans hs.state, hreset.trans hs.reset, hat ▸ hs.opened, hclock, hcount⟩

/-- Before its time is up, a step under the guard leaves an OPEN breaker OPEN. -/
theorem heldOpen_next (hs : HeldOpen since reset count s) (hguard : s.PromptSuccess l)
    (h : s.next l = some t) (hearly : t.now < since + reset) : HeldOpen since reset count t := by
  rcases next_cases h with ⟨hb, hnow, hinv⟩ | ⟨hb, hnow, hinv⟩ | ⟨i, outcome, hl, hcall, hb, hnow, hinv⟩
  · exact ⟨hb ▸ hs.state, hb ▸ hs.reset, hb ▸ hs.opened, hs.clock.trans hnow,
      hinv.trans hs.invocations⟩
  · have hsame : s.breaker.maybeHalfOpen s.now = s.breaker := by
      rcases s.breaker.maybeHalfOpen_cases s.now with ⟨time, hat, -, hup, -⟩ | ⟨-, heq⟩
      · obtain ⟨opened, hopened, hle⟩ := hs.opened
        have heq : time = opened := Option.some.inj (hat.symm.trans hopened)
        rw [heq, hs.reset, ← hnow] at hup
        have hlate : since + reset ≤ t.now := by
          calc since + reset ≤ opened + (t.now - opened) := add_le_add hle hup
            _ = t.now := add_sub_cancel opened t.now
        exact absurd hearly (not_lt.mpr hlate)
      · exact heq
    rw [hsame] at hb
    have hopen : t.breaker.state = .opened := hb ▸ hs.state
    exact ⟨hopen, hb ▸ hs.reset, hb ▸ hs.opened, hnow ▸ hs.clock,
      (hinv hopen).trans hs.invocations⟩
  · refine heldOpen_update hs ?_ hb hnow hinv
    intro result hreturned
    subst hreturned
    exact hguard hs.state ⟨i, result, hl, hcall⟩

end Shared

/-! ## The lifecycle -/

/-- Once OPEN, the breaker stays OPEN and starts no invocation until `reset` has passed. -/
def StaysOpen (step : Shared T ε α → SharedAction T ε α → Shared T ε α → Prop)
    (start : Shared T ε α) : Prop :=
  ∀ ls s l opened ms t, Run step start ls s → step s l opened →
    s.breaker.state ≠ .opened → opened.breaker.state = .opened → Run step opened ms t →
    t.now < opened.now + start.breaker.resetTimeout →
      t.breaker.state = .opened ∧ t.invocations = opened.invocations

/-- No step leads from OPEN to CLOSED. -/
def PassesHalfOpen (step : Shared T ε α → SharedAction T ε α → Shared T ε α → Prop)
    (start : Shared T ε α) : Prop :=
  ∀ ls s l t, Run step start ls s → step s l t → s.breaker.state = .opened →
    t.breaker.state ≠ .closed

def Shared.init (name : String) (threshold : ℕ) (reset now : T) : Shared T ε α :=
  { breaker := .init name threshold reset, now := now }

/-- In every interleaving in which no success is recorded while the breaker is OPEN, the
lifecycle is the documented one. -/
theorem lifecycle_of_promptSuccess [IsOrderedAddMonoid T] (name : String) (threshold : ℕ)
    (reset now : T) :
    StaysOpen (Under Shared.PromptSuccess (ofNext Shared.next))
        (Shared.init name threshold reset now : Shared T ε α) ∧
      PassesHalfOpen (Under Shared.PromptSuccess (ofNext Shared.next))
        (Shared.init name threshold reset now : Shared T ε α) := by
  constructor
  · intro ls s l opened ms t hrun hstep hnot hopen hafter hearly
    have hconfig : opened.breaker.config = (name, threshold, reset) := by
      have hkept := (hrun.trans (Run.single hstep)).invariant
        (I := fun u => u.breaker.config = (name, threshold, reset))
        (fun u _ v hu huv => (Shared.config_next huv.2).trans hu) rfl
      exact hkept
    have hreset : opened.breaker.resetTimeout = reset := congrArg (fun c => c.2.2) hconfig
    have hstart : Shared.HeldOpen opened.now reset opened.invocations opened :=
      { state := hopen
        reset := hreset
        opened := ⟨opened.now, Shared.opened_at hstep.2 hnot hopen, le_refl _⟩
        clock := le_refl _
        invocations := rfl }
    -- the clock only goes forward, so a state reached early was reached through early states
    have hheld : t.now < opened.now + reset →
        Shared.HeldOpen opened.now reset opened.invocations t := by
      refine hafter.invariant (I := fun u => u.now < opened.now + reset →
        Shared.HeldOpen opened.now reset opened.invocations u) ?_ fun _ => hstart
      intro u k v hu huv hv
      have hbefore : u.now < opened.now + reset := lt_of_le_of_lt (Shared.clock_next huv.2) hv
      exact Shared.heldOpen_next (hu hbefore) huv.1 huv.2 hv
    have hend := hheld hearly
    exact ⟨hend.state, hend.invocations⟩
  · intro ls s l t hrun hstep hopen hclosed
    have hsuccess := (Shared.opened_closes_iff hstep.2 hopen).mp hclosed
    exact hstep.1 hopen hsuccess

theorem provider_lifecycle :
    StaysOpen (Under Shared.PromptSuccess (ofNext Shared.next))
        (Shared.init "provider" 1 30 0 : Shared ℤ Unit Unit) ∧
      PassesHalfOpen (Under Shared.PromptSuccess (ofNext Shared.next))
        (Shared.init "provider" 1 30 0 : Shared ℤ Unit Unit) :=
  lifecycle_of_promptSuccess "provider" 1 30 0

/-- Two calls were admitted while the breaker was CLOSED; the first failed and tripped it, the
second is about to record its success. -/
def lateSuccess (now : ℤ) : Shared ℤ Unit Unit :=
  ⟨⟨"provider", 1, 30, 1, some 0, .opened⟩, now, [.ended, .settling (.returned ())], 2⟩

/-- Five seconds after it was tripped, a late success closes the breaker. -/
theorem late_success_counterexample :
    ¬ StaysOpen (ofNext Shared.next) (Shared.init "provider" 1 30 0 : Shared ℤ Unit Unit) ∧
      ¬ PassesHalfOpen (ofNext Shared.next)
        (Shared.init "provider" 1 30 0 : Shared ℤ Unit Unit) := by
  have hadmitted : Run (ofNext Shared.next) (Shared.init "provider" 1 30 0 : Shared ℤ Unit Unit)
      [.arrive, .arrive, .check 0, .check 1, .finish 0 (.raised ()), .finish 1 (.returned ())]
      ⟨.init "provider" 1 30, 0, [.settling (.raised ()), .settling (.returned ())], 2⟩ :=
    exec_run rfl
  have htrips : ofNext Shared.next
      (⟨.init "provider" 1 30, 0, [.settling (.raised ()), .settling (.returned ())], 2⟩ :
        Shared ℤ Unit Unit) (.update 0) (lateSuccess 0) := rfl
  have hwaits : Run (ofNext Shared.next) (lateSuccess 0) [.tick 5] (lateSuccess 5) := exec_run rfl
  have hcloses : ofNext Shared.next (lateSuccess 5) (.update 1)
      ⟨.init "provider" 1 30, 5, [.ended, .ended], 2⟩ := rfl
  constructor
  · intro hstays
    have hstate := hstays _ _ _ _ _ _ hadmitted htrips (by decide) rfl
      (hwaits.trans (Run.single hcloses)) (by decide)
    exact BreakerState.noConfusion hstate.1
  · intro hpasses
    exact hpasses _ _ _ _ ((hadmitted.trans (Run.single htrips)).trans hwaits) hcloses rfl rfl

end AegisPlatform.Core
