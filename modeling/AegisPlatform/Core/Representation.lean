import AegisPlatform.Core.Overlap

/-! # What the fields of a breaker say

`_state`, `_failures` and `_opened_monotonic` are updated by four transitions, in any order when
calls overlap. They never disagree: CLOSED, fewer failures than the threshold, and no opening time
are the same. `_maybe_half_open` leaves the counter where it is, so a failure in HALF_OPEN finds it
at the threshold already.
-/

namespace AegisPlatform.Core
open Foundations
set_option autoImplicit false
set_option maxHeartbeats 250000

variable {T ε α : Type}

namespace CircuitBreaker

/-- The three fields agree. -/
structure Represents (b : CircuitBreaker T) : Prop where
  closed : b.state = .closed ↔ b.failures < b.failureThreshold
  unopened : b.failures < b.failureThreshold ↔ b.openedMonotonic = none

theorem init_represents (name : String) {threshold : ℕ} (reset : T) (hpos : 1 ≤ threshold) :
    (CircuitBreaker.init name threshold reset).Represents :=
  ⟨⟨fun _ => hpos, fun _ => rfl⟩, ⟨fun _ => rfl, fun _ => hpos⟩⟩

theorem onSuccess_represents {b : CircuitBreaker T} (hpos : 1 ≤ b.failureThreshold) :
    b.onSuccess.Represents :=
  ⟨⟨fun _ => hpos, fun _ => rfl⟩, ⟨fun _ => rfl, fun _ => hpos⟩⟩

namespace Represents

variable {b : CircuitBreaker T}

/-- Out of CLOSED, the counter is at the threshold. -/
theorem threshold_le (h : b.Represents) (hstate : b.state ≠ .closed) :
    b.failureThreshold ≤ b.failures := by
  have hnot : ¬ b.failures < b.failureThreshold := fun hfew => hstate (h.closed.mpr hfew)
  omega

/-- Out of CLOSED, there is an opening time. -/
theorem openedMonotonic (h : b.Represents) (hstate : b.state ≠ .closed) :
    ∃ opened, b.openedMonotonic = some opened := by
  apply Option.ne_none_iff_exists'.mp
  intro hnone
  exact hstate (h.closed.mpr (h.unopened.mpr hnone))

theorem maybeHalfOpen [AddCommGroup T] [LinearOrder T] (h : b.Represents) (now : T) :
    (b.maybeHalfOpen now).Represents := by
  rcases b.maybeHalfOpen_cases now with ⟨_, -, hopen, -, heq⟩ | ⟨-, heq⟩
  · have hstate : b.state ≠ .closed := by
      rw [hopen]
      exact BreakerState.noConfusion
    have hmany := h.threshold_le hstate
    rw [heq]
    exact ⟨⟨BreakerState.noConfusion, fun hfew => absurd hfew (not_lt.mpr hmany)⟩, h.unopened⟩
  · rw [heq]
    exact h

theorem onFailure (h : b.Represents) (now : T) : (b.onFailure now).Represents := by
  unfold CircuitBreaker.onFailure
  dsimp only
  split
  · next hmany =>
    exact ⟨⟨BreakerState.noConfusion, fun hfew => absurd hfew (not_lt.mpr hmany)⟩,
      ⟨fun hfew => absurd hfew (not_lt.mpr hmany), fun hnone => absurd hnone (Option.some_ne_none now)⟩⟩
  · next hfew =>
    have hafter : b.failures + 1 < b.failureThreshold := not_le.mp hfew
    have hbefore : b.failures < b.failureThreshold := by omega
    exact ⟨⟨fun _ => hafter, fun _ => h.closed.mpr hbefore⟩,
      ⟨fun _ => h.unopened.mp hbefore, fun _ => hafter⟩⟩

theorem settle (h : b.Represents) (hpos : 1 ≤ b.failureThreshold) (now : T)
    (outcome : Outcome ε α) : (b.settle now outcome).Represents := by
  cases outcome with
  | returned result => exact onSuccess_represents hpos
  | raised error => exact h.onFailure now
  | cancelled => exact h

/-- A failure out of CLOSED opens the breaker, whatever the threshold. -/
theorem reopens (h : b.Represents) (hstate : b.state ≠ .closed) (now : T) :
    (b.onFailure now).state = .opened ∧ (b.onFailure now).openedMonotonic = some now := by
  have hmany : b.failures + 1 ≥ b.failureThreshold := by
    have hle := h.threshold_le hstate
    omega
  unfold CircuitBreaker.onFailure
  rw [if_pos hmany]
  exact ⟨rfl, rfl⟩

end Represents

end CircuitBreaker

/-! ## Over every interleaving -/

namespace Shared

variable [AddCommGroup T] [LinearOrder T] {s t : Shared T ε α}

theorem represents_next {l : SharedAction T ε α} (hs : s.breaker.Represents)
    (hpos : 1 ≤ s.breaker.failureThreshold) (h : s.next l = some t) : t.breaker.Represents := by
  rcases next_cases h with ⟨hb, -⟩ | ⟨hb, -⟩ | ⟨i, outcome, -, -, hb, -⟩
  · rw [hb]
    exact hs
  · rw [hb]
    exact hs.maybeHalfOpen s.now
  · rw [hb]
    exact hs.settle hpos s.now outcome

theorem represents_run {name : String} {threshold : ℕ} {reset start : T}
    {ls : List (SharedAction T ε α)} (hpos : 1 ≤ threshold)
    (hrun : Run (ofNext Shared.next) (Shared.init name threshold reset start) ls s) :
    s.breaker.config = (name, threshold, reset) ∧ s.breaker.Represents := by
  refine hrun.invariant (I := fun s => s.breaker.config = (name, threshold, reset) ∧
    s.breaker.Represents) ?_ ⟨rfl, CircuitBreaker.init_represents name reset hpos⟩
  intro u l v hu huv
  have hthreshold : u.breaker.failureThreshold = threshold := congrArg (fun c => c.2.1) hu.1
  exact ⟨(config_next huv).trans hu.1, represents_next hu.2 (hthreshold.symm ▸ hpos) huv⟩

/-- By the actions `ls`, call `i` comes to run as the probe of a HALF_OPEN breaker. -/
def Probes (s : Shared T ε α) (ls : List (SharedAction T ε α)) (i : ℕ) : Prop :=
  ∃ t, Run (ofNext Shared.next) s ls t ∧ t.breaker.state = .halfOpen ∧ t.calls[i]? = some .running

theorem probes_check {i : ℕ} {opened : T} (hopen : s.breaker.state = .opened)
    (hat : s.breaker.openedMonotonic = some opened)
    (hup : s.breaker.resetTimeout ≤ s.now - opened) (hcall : s.calls[i]? = some .waiting) :
    s.Probes [.check i] i := by
  have hhalf : s.breaker.maybeHalfOpen s.now = { s.breaker with state := .halfOpen } := by
    rcases s.breaker.maybeHalfOpen_cases s.now with ⟨_, -, -, -, heq⟩ | ⟨hearly, -⟩
    · exact heq
    · exact absurd (hearly hopen opened hat) (not_lt.mpr hup)
  have hi : i < s.calls.length := by
    by_contra hout
    rw [List.getElem?_eq_none (not_lt.mp hout)] at hcall
    cases hcall
  refine ⟨s.check i, Run.single ?_, ?_, ?_⟩
  · simp only [ofNext, next, hcall]
  · simp [check, hhalf]
  · simp [check, hhalf, hi]

/-- Past the timeout, an OPEN breaker lets a waiting call through, and one that arrives. -/
theorem probes_late {opened time : T} (hopen : s.breaker.state = .opened)
    (hat : s.breaker.openedMonotonic = some opened) (htime : s.now ≤ time)
    (hup : s.breaker.resetTimeout ≤ time - opened) :
    (∀ i, s.calls[i]? = some .waiting → s.Probes [.tick time, .check i] i) ∧
      s.Probes [.tick time, .arrive, .check s.calls.length] s.calls.length := by
  have htick : ofNext Shared.next s (.tick time) { s with now := time } := by
    simp only [ofNext, next, if_pos htime]
  constructor
  · intro i hcall
    obtain ⟨t, ht, hprobe⟩ := probes_check (s := { s with now := time }) hopen hat hup hcall
    exact ⟨t, (Run.single htick).trans ht, hprobe⟩
  · have harrive : ofNext Shared.next { s with now := time } .arrive
        { s with now := time, calls := s.calls ++ [.waiting] } := rfl
    have hcall : (s.calls ++ [CallPhase.waiting])[s.calls.length]? = some .waiting := by simp
    obtain ⟨t, ht, hprobe⟩ := probes_check
      (s := { s with now := time, calls := s.calls ++ [.waiting] }) hopen hat hup hcall
    exact ⟨t, ((Run.single htick).trans (Run.single harrive)).trans ht, hprobe⟩

end Shared

/-- In every interleaving the three fields agree. So an OPEN breaker has an opening time; once the
timeout has passed since, it lets a waiting call or one that arrives through as a probe, and it
can always come to that. A failure recorded in HALF_OPEN opens it again. -/
theorem fields_agree [AddCommGroup T] [LinearOrder T] [IsOrderedAddMonoid T] (name : String)
    (threshold : ℕ) (reset start : T) (hpos : 1 ≤ threshold) {ls : List (SharedAction T ε α)}
    {s : Shared T ε α}
    (hrun : Run (ofNext Shared.next) (Shared.init name threshold reset start) ls s) :
    s.breaker.Represents ∧
    (s.breaker.state = .opened → ∃ opened, s.breaker.openedMonotonic = some opened ∧
      (∀ time, s.now ≤ time → reset ≤ time - opened →
        (∀ i, s.calls[i]? = some .waiting → s.Probes [.tick time, .check i] i) ∧
        s.Probes [.tick time, .arrive, .check s.calls.length] s.calls.length) ∧
      ∃ ms i, s.Probes ms i) ∧
    (s.breaker.state = .halfOpen → ∀ i error, s.calls[i]? = some (.settling (.raised error)) →
      ∃ t, s.next (.update i) = some t ∧
        t.breaker.state = .opened ∧ t.breaker.openedMonotonic = some s.now) := by
  obtain ⟨hconfig, hrep⟩ := Shared.represents_run hpos hrun
  obtain rfl : s.breaker.resetTimeout = reset := congrArg (fun c => c.2.2) hconfig
  refine ⟨hrep, ?_, ?_⟩
  · intro hopen
    have hstate : s.breaker.state ≠ .closed := by simp [hopen]
    obtain ⟨opened, hat⟩ := hrep.openedMonotonic hstate
    refine ⟨opened, hat, fun time htime hup => Shared.probes_late hopen hat htime hup, ?_⟩
    let late := max s.now (opened + s.breaker.resetTimeout)
    have hup : s.breaker.resetTimeout ≤ late - opened := le_sub_iff_add_le'.mpr (le_max_right _ _)
    exact ⟨_, _, (Shared.probes_late hopen hat (le_max_left _ _) hup).2⟩
  · intro hhalf i error hcall
    have hstate : s.breaker.state ≠ .closed := by simp [hhalf]
    simp only [Shared.next, hcall]
    exact ⟨_, rfl, hrep.reopens hstate s.now⟩

/-- A failure has tripped the breaker of the provider. -/
def tripped : Shared ℤ Unit Unit :=
  ⟨⟨"provider", 1, 30, 1, some 0, .opened⟩, 0, [.ended], 1⟩

/-- Thirty seconds later its probe is about to record another failure. -/
def failedProbe : Shared ℤ Unit Unit :=
  ⟨⟨"provider", 1, 30, 1, some 0, .halfOpen⟩, 30, [.ended, .settling (.raised ())], 2⟩

theorem provider_reopens :
    (∃ ms i, tripped.Probes ms i) ∧ ∃ t, failedProbe.next (.update 1) = some t ∧
      t.breaker.state = .opened ∧ t.breaker.openedMonotonic = some 30 := by
  have htrips : Run (ofNext Shared.next) (Shared.init "provider" 1 30 0 : Shared ℤ Unit Unit)
      [.arrive, .check 0, .finish 0 (.raised ()), .update 0] tripped := exec_run rfl
  have hprobes : Run (ofNext Shared.next) tripped
      [.tick 30, .arrive, .check 1, .finish 1 (.raised ())] failedProbe := exec_run rfl
  constructor
  · obtain ⟨-, hopened, -⟩ := fields_agree "provider" 1 30 0 (by decide) htrips
    obtain ⟨opened, -, -, hprobe⟩ := hopened rfl
    exact hprobe
  · obtain ⟨-, -, hfailure⟩ := fields_agree "provider" 1 30 0 (by decide) (htrips.trans hprobes)
    exact hfailure rfl 1 () rfl

end AegisPlatform.Core
