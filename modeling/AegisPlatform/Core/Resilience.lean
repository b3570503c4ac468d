import AegisPlatform.Core.Exceptions
import AegisPlatform.Foundations.Runs
import Mathlib.Algebra.Order.Group.Int
import Mathlib.Algebra.Order.Group.Defs

/-! # The circuit breaker

`CircuitBreaker` of `core/resilience.py`. The clock of the event loop is read at the admission of
a call and when a failure is recorded; `func` acts on a world that holds the clock and whatever
else it touches. An `Exception` is recorded as a failure; a cancellation passes `except Exception`
and is recorded neither way.

The specification knows no states: it looks at the completed calls alone, the latest first.
`Tracks` connects the two, and `call_refines` states that a breaker used by one caller at a time
rejects exactly when the specification is tripped.
-/

namespace AegisPlatform.Core
open Foundations
set_option autoImplicit false
set_option maxHeartbeats 250000

inductive BreakerState
  | closed | opened | halfOpen
deriving DecidableEq, Repr

structure CircuitBreaker (T : Type) where
  name : String
  failureThreshold : ℕ
  resetTimeout : T
  failures : ℕ := 0
  openedMonotonic : Option T := none
  state : BreakerState := .closed
deriving DecidableEq

-- `__init__`, whose defaults are a threshold of 5 and 30.0 seconds
def CircuitBreaker.init {T : Type} (name : String) (failureThreshold : ℕ) (resetTimeout : T) :
    CircuitBreaker T :=
  { name := name, failureThreshold := failureThreshold, resetTimeout := resetTimeout }

/-- How `await func()` ends. -/
inductive Outcome (ε α : Type)
  | returned (result : α)
  | raised (error : ε)
  | cancelled
deriving DecidableEq

inductive CallResult (ε α : Type)
  | rejected (error : AegisError)
  | completed (outcome : Outcome ε α)
deriving DecidableEq

def circuitOpen (name : String) : AegisError :=
  .init .serviceUnavailable ("Circuit '" ++ name ++ "' is open.") "circuit_open"

variable {T W ε α : Type} [AddCommGroup T] [LinearOrder T]

namespace CircuitBreaker

def maybeHalfOpen (now : T) (b : CircuitBreaker T) : CircuitBreaker T :=
  match b.state, b.openedMonotonic with
  | .opened, some t => if now - t ≥ b.resetTimeout then { b with state := .halfOpen } else b
  | _, _ => b

omit [AddCommGroup T] [LinearOrder T] in
def onSuccess (b : CircuitBreaker T) : CircuitBreaker T :=
  { b with failures := 0, state := .closed, openedMonotonic := none }

omit [AddCommGroup T] [LinearOrder T] in
def onFailure (now : T) (b : CircuitBreaker T) : CircuitBreaker T :=
  let b := { b with failures := b.failures + 1 }
  if b.failures ≥ b.failureThreshold then
    { b with state := .opened, openedMonotonic := some now }
  else b

omit [AddCommGroup T] [LinearOrder T] in
def settle (now : T) (b : CircuitBreaker T) : Outcome ε α → CircuitBreaker T
  | .returned _ => b.onSuccess
  | .raised _ => b.onFailure now
  | .cancelled => b

def call (clock : W → T) (func : W → Outcome ε α × W) (b : CircuitBreaker T) (w : W) :
    CallResult ε α × CircuitBreaker T × W :=
  let b := b.maybeHalfOpen (clock w)
  if b.state = .opened then (.rejected (circuitOpen b.name), b, w)
  else
    let (outcome, w') := func w
    (.completed outcome, b.settle (clock w') outcome, w')

/-- Everything the admission check can do: half-open a breaker whose time is up, or nothing. -/
theorem maybeHalfOpen_cases (now : T) (b : CircuitBreaker T) :
    (∃ t ∈ b.openedMonotonic, b.state = .opened ∧ b.resetTimeout ≤ now - t ∧
      b.maybeHalfOpen now = { b with state := .halfOpen }) ∨
    ((b.state = .opened → ∀ t ∈ b.openedMonotonic, now - t < b.resetTimeout) ∧
      b.maybeHalfOpen now = b) := by
  unfold maybeHalfOpen
  split
  · next t hs ho =>
    by_cases hup : now - t ≥ b.resetTimeout
    · rw [if_pos hup]
      exact Or.inl ⟨t, ho, hs, hup, rfl⟩
    · rw [if_neg hup]
      refine Or.inr ⟨fun _ t' ht' => ?_, rfl⟩
      have heq : t' = t := Option.some.inj (ht'.symm.trans ho)
      rw [heq]
      exact not_le.mp hup
  · next hno =>
    refine Or.inr ⟨fun hs t ht => ?_, rfl⟩
    exact absurd ht (hno t hs)

omit [AddCommGroup T] [LinearOrder T] in
/-- What the constructor was given; no call changes it. -/
def config (b : CircuitBreaker T) : String × ℕ × T := (b.name, b.failureThreshold, b.resetTimeout)

theorem config_maybeHalfOpen (now : T) (b : CircuitBreaker T) :
    (b.maybeHalfOpen now).config = b.config := by
  rcases b.maybeHalfOpen_cases now with ⟨t, -, -, -, heq⟩ | ⟨-, heq⟩
  · rw [heq]
    rfl
  · rw [heq]

omit [AddCommGroup T] [LinearOrder T] in
theorem config_settle (now : T) (b : CircuitBreaker T) (outcome : Outcome ε α) :
    (b.settle now outcome).config = b.config := by
  cases outcome with
  | returned result => rfl
  | raised error =>
    simp only [settle, onFailure]
    split
    · rfl
    · rfl
  | cancelled => rfl

omit [AddCommGroup T] [LinearOrder T] in
/-- Everything the record of a failure can do to the state. -/
theorem onFailure_cases (now : T) (b : CircuitBreaker T) :
    ((b.onFailure now).state = .opened ∧ (b.onFailure now).openedMonotonic = some now) ∨
    ((b.onFailure now).state = b.state ∧
      (b.onFailure now).openedMonotonic = b.openedMonotonic) := by
  simp only [onFailure]
  split
  · exact Or.inl ⟨rfl, rfl⟩
  · exact Or.inr ⟨rfl, rfl⟩

/-- Found OPEN, the breaker rejects and touches nothing. -/
theorem call_opened {clock : W → T} {b : CircuitBreaker T} {w : W} (func : W → Outcome ε α × W)
    (h : (b.maybeHalfOpen (clock w)).state = .opened) :
    b.call clock func w = (.rejected (circuitOpen b.name), b.maybeHalfOpen (clock w), w) := by
  have hname : (b.maybeHalfOpen (clock w)).name = b.name :=
    (Prod.mk.inj (b.config_maybeHalfOpen (clock w))).1
  unfold call
  simp only [h, if_true, hname]

theorem call_admitted {clock : W → T} {b : CircuitBreaker T} {w : W} (func : W → Outcome ε α × W)
    (h : (b.maybeHalfOpen (clock w)).state ≠ .opened) :
    b.call clock func w = (.completed (func w).1,
      (b.maybeHalfOpen (clock w)).settle (clock (func w).2) (func w).1, (func w).2) := by
  unfold call
  simp only [h, if_false]

end CircuitBreaker

/-! ## The specification -/

/-- A completed call of `func` as the breaker records it. -/
inductive Completion (T : Type)
  | success
  | failure (time : T)
deriving DecidableEq

namespace Completion

/-- How many failures a history, latest first, ends in. -/
def streak : List (Completion T) → ℕ
  | .failure _ :: h => streak h + 1
  | _ => 0

def lastFailure : List (Completion T) → Option T
  | [] => none
  | .failure t :: _ => some t
  | .success :: h => lastFailure h

omit [AddCommGroup T] [LinearOrder T] in
theorem lastFailure_of_streak {h : List (Completion T)} (hpos : 0 < streak h) :
    ∃ t, lastFailure h = some t := by
  cases h with
  | nil => exact absurd hpos (Nat.lt_irrefl 0)
  | cons c h =>
    cases c with
    | success => exact absurd hpos (Nat.lt_irrefl 0)
    | failure t => exact ⟨t, rfl⟩

/-- At least `threshold` consecutive failures end the history, the last less than `reset` ago. -/
def Tripped (threshold : ℕ) (reset : T) (h : List (Completion T)) (now : T) : Prop :=
  threshold ≤ streak h ∧ ∃ t ∈ lastFailure h, now - t < reset

/-- What a call adds to the history. -/
def ofResult (now : T) : CallResult ε α → List (Completion T)
  | .completed (.returned _) => [.success]
  | .completed (.raised _) => [.failure now]
  | .completed .cancelled => []
  | .rejected _ => []

end Completion

open Completion

/-! ## The breaker tracks the history -/

/-- What the fields of a breaker say about the history at time `now`. -/
structure Tracks (b : CircuitBreaker T) (h : List (Completion T)) (now : T) : Prop where
  failures : b.failures = streak h
  closed : b.state = .closed → streak h < b.failureThreshold
  tripped : b.state ≠ .closed → b.failureThreshold ≤ streak h ∧ b.openedMonotonic = lastFailure h
  probing : b.state = .halfOpen → ∃ t ∈ lastFailure h, b.resetTimeout ≤ now - t

namespace Tracks

variable [IsOrderedAddMonoid T] {b : CircuitBreaker T} {h : List (Completion T)} {now later : T}

theorem mono (ht : Tracks b h now) (hle : now ≤ later) : Tracks b h later where
  failures := ht.failures
  closed := ht.closed
  tripped := ht.tripped
  probing := by
    intro hs
    obtain ⟨t, hlast, hup⟩ := ht.probing hs
    exact ⟨t, hlast, hup.trans (sub_le_sub_right hle t)⟩

omit [IsOrderedAddMonoid T] in
/-- The breaker is found OPEN exactly when the specification is tripped. -/
theorem opened_iff (ht : Tracks b h now) (hthreshold : 1 ≤ b.failureThreshold) :
    (b.maybeHalfOpen now).state = .opened ↔
      Tripped b.failureThreshold b.resetTimeout h now := by
  constructor
  · intro hs
    rcases b.maybeHalfOpen_cases now with ⟨t, -, -, -, heq⟩ | ⟨hwait, heq⟩
    · rw [heq] at hs
      exact BreakerState.noConfusion hs
    · rw [heq] at hs
      have hne : b.state ≠ .closed := by
        rw [hs]
        exact BreakerState.noConfusion
      obtain ⟨hstreak, hlast⟩ := ht.tripped hne
      have hpos : 0 < streak h := Nat.lt_of_lt_of_le hthreshold hstreak
      obtain ⟨t, hsome⟩ := lastFailure_of_streak hpos
      refine ⟨hstreak, t, hsome, ?_⟩
      exact hwait hs t (hlast.trans hsome)
  · rintro ⟨hstreak, t, hlast, hrecent⟩
    have hne : b.state ≠ .closed := fun hs => absurd (ht.closed hs) (Nat.not_lt.mpr hstreak)
    have hopened : b.openedMonotonic = lastFailure h := (ht.tripped hne).2
    have hnot : ¬ b.state = .halfOpen := by
      intro hs
      obtain ⟨t', hlast', hup⟩ := ht.probing hs
      have heq : t' = t := Option.some.inj (hlast'.symm.trans hlast)
      rw [heq] at hup
      exact absurd hrecent (not_lt.mpr hup)
    have hs : b.state = .opened := by
      cases hb : b.state with
      | closed => exact absurd hb hne
      | opened => rfl
      | halfOpen => exact absurd hb hnot
    rcases b.maybeHalfOpen_cases now with ⟨t', ht', -, hup, -⟩ | ⟨-, heq⟩
    · have heq : t' = t := Option.some.inj (ht'.symm.trans (hopened.trans hlast))
      rw [heq] at hup
      exact absurd hrecent (not_lt.mpr hup)
    · rw [heq]
      exact hs

omit [IsOrderedAddMonoid T] in
theorem checked (ht : Tracks b h now) : Tracks (b.maybeHalfOpen now) h now := by
  rcases b.maybeHalfOpen_cases now with ⟨t, hopened, hs, hup, heq⟩ | ⟨-, heq⟩
  · have hne : b.state ≠ .closed := by
      rw [hs]
      exact BreakerState.noConfusion
    obtain ⟨hstreak, hlast⟩ := ht.tripped hne
    rw [heq]
    exact
      { failures := ht.failures
        closed := fun hc => BreakerState.noConfusion hc
        tripped := fun _ => ⟨hstreak, hlast⟩
        probing := fun _ => ⟨t, hlast.symm.trans hopened, hup⟩ }
  · rw [heq]
    exact ht

/-- The outcome of a call is recorded as the history says. -/
theorem settle (ht : Tracks b h now) (hthreshold : 1 ≤ b.failureThreshold) (hle : now ≤ later)
    (outcome : Outcome ε α) :
    Tracks (b.settle later outcome) (ofResult later (.completed outcome) ++ h) later := by
  cases outcome with
  | cancelled => exact ht.mono hle
  | returned result =>
    exact
      { failures := rfl
        closed := fun _ => hthreshold
        tripped := fun hne => absurd rfl hne
        probing := fun hs => BreakerState.noConfusion hs }
  | raised error =>
    have hstreak : b.failures + 1 = streak (Completion.failure later :: h) :=
      congrArg (· + 1) ht.failures
    simp only [CircuitBreaker.settle, CircuitBreaker.onFailure, ofResult, List.singleton_append]
    by_cases hreached : b.failures + 1 ≥ b.failureThreshold
    · rw [if_pos hreached]
      exact
        { failures := hstreak
          closed := fun hc => BreakerState.noConfusion hc
          tripped := fun _ => ⟨hstreak ▸ hreached, rfl⟩
          probing := fun hs => BreakerState.noConfusion hs }
    · rw [if_neg hreached]
      have hbelow : b.failures + 1 < b.failureThreshold := not_le.mp hreached
      have hclosed : b.state = .closed := by
        by_contra hne
        have hge := (ht.tripped hne).1
        rw [← ht.failures] at hge
        omega
      exact
        { failures := hstreak
          closed := fun _ => hstreak ▸ hbelow
          tripped := fun hne => absurd hclosed hne
          probing := fun hs => BreakerState.noConfusion (hclosed.symm.trans hs) }

end Tracks

/-! ## One caller at a time -/

structure Session (T W : Type) where
  breaker : CircuitBreaker T
  world : W
  history : List (Completion T) := []

inductive SessionAction (W ε α : Type)
  | call (func : W → Outcome ε α × W)
  | elapse (world : W)

namespace Session

/-- One call, with what it adds to the history of completed calls. -/
def call (clock : W → T) (func : W → Outcome ε α × W) (s : Session T W) : Session T W :=
  let (result, breaker, world) := s.breaker.call clock func s.world
  ⟨breaker, world, ofResult (clock world) result ++ s.history⟩

/-- Calls follow each other, and the clock never goes back. -/
inductive Step (clock : W → T) : Session T W → SessionAction W ε α → Session T W → Prop
  | call (s : Session T W) (func : W → Outcome ε α × W) (h : clock s.world ≤ clock (func s.world).2) :
      Step clock s (.call func) (s.call clock func)
  | elapse (s : Session T W) (world : W) (h : clock s.world ≤ clock world) :
      Step clock s (.elapse world) { s with world := world }

structure Inv (clock : W → T) (name : String) (threshold : ℕ) (reset : T) (s : Session T W) :
    Prop where
  config : s.breaker.config = (name, threshold, reset)
  tracks : Tracks s.breaker s.history (clock s.world)

variable [IsOrderedAddMonoid T] {clock : W → T} {name : String} {threshold : ℕ} {reset : T}
  {s t : Session T W}

omit [IsOrderedAddMonoid T] in
theorem inv_init (hthreshold : 1 ≤ threshold) (w : W) :
    Inv clock name threshold reset ⟨.init name threshold reset, w, []⟩ where
  config := rfl
  tracks :=
    { failures := rfl
      closed := fun _ => hthreshold
      tripped := fun hne => absurd rfl hne
      probing := fun hs => BreakerState.noConfusion hs }

omit [IsOrderedAddMonoid T] in
theorem world_call (s : Session T W) (func : W → Outcome ε α × W) :
    (s.call clock func).world =
      if (s.breaker.maybeHalfOpen (clock s.world)).state = .opened then s.world
      else (func s.world).2 := by
  unfold call
  by_cases hopen : (s.breaker.maybeHalfOpen (clock s.world)).state = .opened
  · rw [CircuitBreaker.call_opened func hopen, if_pos hopen]
  · rw [CircuitBreaker.call_admitted func hopen, if_neg hopen]

theorem inv_call (hthreshold : 1 ≤ threshold) (hs : Inv clock name threshold reset s)
    (func : W → Outcome ε α × W) (hclock : clock s.world ≤ clock (s.call clock func).world) :
    Inv clock name threshold reset (s.call clock func) := by
  have hconfig := (s.breaker.config_maybeHalfOpen (clock s.world)).trans hs.config
  have hadmit := hs.tracks.checked
  rw [world_call] at hclock
  unfold call
  by_cases hopen : (s.breaker.maybeHalfOpen (clock s.world)).state = .opened
  · rw [CircuitBreaker.call_opened func hopen]
    exact ⟨hconfig, hadmit⟩
  · rw [if_neg hopen] at hclock
    rw [CircuitBreaker.call_admitted func hopen]
    have hge : 1 ≤ (s.breaker.maybeHalfOpen (clock s.world)).failureThreshold := by
      have heq : (s.breaker.maybeHalfOpen (clock s.world)).failureThreshold = threshold :=
        congrArg (fun c => c.2.1) hconfig
      rw [heq]
      exact hthreshold
    refine ⟨?_, hadmit.settle hge hclock (func s.world).1⟩
    rw [CircuitBreaker.config_settle]
    exact hconfig

theorem inv_step (hthreshold : 1 ≤ threshold) {l : SessionAction W ε α}
    (hs : Inv clock name threshold reset s) (h : Step clock s l t) :
    Inv clock name threshold reset t := by
  cases h with
  | call func hclock =>
    refine inv_call hthreshold hs func ?_
    rw [world_call]
    split
    · exact le_refl _
    · exact hclock
  | elapse world hclock => exact ⟨hs.config, hs.tracks.mono hclock⟩

end Session

end AegisPlatform.Core
