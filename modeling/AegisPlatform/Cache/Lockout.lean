import AegisPlatform.Cache.Lifetimes

/-! # Aborted calls and the expiry of the key

A call that is aborted after its `INCR` answered 1 leaves a key without an expiry, and no later
call sends one. `KeepsExpiry` excludes that step. Under it every request counted in a lifetime
arrived at most `window` after the first one of that lifetime ended, so one that arrives later
opens a new lifetime; without it `Orphaned` holds for good.

Calls are earlier on the key when Redis executed their `INCR` earlier.
-/

namespace AegisPlatform.Cache
open Foundations Core
set_option autoImplicit false
set_option maxHeartbeats 250000

variable {T : Type}

/-- The step aborts no call between an `INCR` that answered 1 and its `EXPIRE`. -/
def KeepsExpiry (s : Limiter T) : LimiterAction T → Prop
  | .abort i => ∀ call ∈ s.calls[i]?, call.phase ≠ .counted 1
  | .tick _ | .arrive | .resume _ => True

instance (s : Limiter T) (l : LimiterAction T) : Decidable (KeepsExpiry s l) :=
  match l with
  | .abort i => inferInstanceAs (Decidable (∀ call ∈ s.calls[i]?, call.phase ≠ .counted 1))
  | .tick _ | .arrive | .resume _ => isTrue trivial

def AllowPhase.isOpen : AllowPhase → Bool
  | .received | .counted _ | .windowed _ => true
  | .returned _ | .aborted => false

namespace Limiter

/-- Redis executed the `INCR` of call `j` before that of call `i`. -/
def CountedBefore (s : Limiter T) (j i : ℕ) : Prop := [j, i].Sublist (s.log.map Count.call)

variable [AddCommGroup T] [LinearOrder T]

/-- A request that arrived more than `window` after all earlier calls had ended is admitted. -/
def Recovers (window : T) (s : Limiter T) : Prop :=
  ∀ (i : ℕ) call answer, s.calls[i]? = some call → call.answer = some answer →
    (∀ j other, s.CountedBefore j i → s.calls[j]? = some other →
      ∃ ended ∈ other.endedAt, ended + window < call.arrivedAt) →
    answer = .ok ()

structure Awaited (window : T) (s : Limiter T) : Prop where
  running : ∀ (i : ℕ) call, s.calls[i]? = some call → call.phase.isOpen = true →
    call.endedAt = none
  arrived : ∀ (i : ℕ) call, s.calls[i]? = some call → call.arrivedAt ≤ s.now
  counted : ∀ r ∈ s.log, ∀ call, s.calls[r.call]? = some call → call.arrivedAt ≤ r.time
  owed : ∀ c ∈ s.key, c.expiresAt = none → ∀ first ∈ (s.life s.lifetime).head?,
    ∀ other, s.calls[first.call]? = some other → other.phase = .counted 1
  soon : ∀ c ∈ s.key, ∀ time ∈ c.expiresAt, time ≤ s.now + window
  horizon : ∀ c ∈ s.key, ∀ time ∈ c.expiresAt, ∀ first ∈ (s.life s.lifetime).head?,
    ∀ other, s.calls[first.call]? = some other → ∀ ended ∈ other.endedAt, time ≤ ended + window
  ended : ∀ n, ∀ first ∈ (s.life n).head?, ∀ other, s.calls[first.call]? = some other →
    ∀ ended ∈ other.endedAt, ∀ r ∈ s.life n, r.time ≤ ended + window

section
variable {limit : ℕ} {window : T} {s t : Limiter T} {i : ℕ} {call : Call T}

omit [AddCommGroup T] in
/-- A request in the log is not that of a call that has not sent its `INCR`, so its call is as
before when that one moves. -/
theorem getElem?_set_counted (hs : Logged limit s) (hcall : s.calls[i]? = some call)
    (hphase : call.phase = .received) {r : Count T} (hr : r ∈ s.log) {call' c : Call T}
    (hc : (s.calls.set i call')[r.call]? = some c) : s.calls[r.call]? = some c := by
  rcases getElem?_set_cases hc with ⟨heq, -⟩ | ⟨-, hold⟩
  · exact absurd heq (hs.not_counted hcall hphase r hr)
  · exact hold

omit [AddCommGroup T] [LinearOrder T] in
theorem head_mem_log {n : ℕ} {first : Count T} (h : first ∈ (s.life n).head?) : first ∈ s.log :=
  ((stamps.mem_inEpoch).mp (List.mem_of_head? h)).1

theorem Awaited.running_set (hs : Awaited window s) {call' : Call T}
    (hmoved : call'.phase.isOpen = true → call'.endedAt = none) :
    ∀ (j : ℕ) c, (s.calls.set i call')[j]? = some c → c.phase.isOpen = true → c.endedAt = none :=
  forall_set (Q := fun c : Call T => c.phase.isOpen = true → c.endedAt = none) hs.running hmoved

theorem Awaited.arrived_set (hs : Awaited window s) (hcall : s.calls[i]? = some call)
    {call' : Call T} (hmoved : call'.arrivedAt = call.arrivedAt) :
    ∀ (j : ℕ) c, (s.calls.set i call')[j]? = some c → c.arrivedAt ≤ s.now := by
  refine forall_set (Q := fun c : Call T => c.arrivedAt ≤ s.now) hs.arrived ?_
  rw [hmoved]
  exact hs.arrived i call hcall

theorem Awaited.counted_set (hs : Awaited window s) (hcall : s.calls[i]? = some call)
    {call' : Call T} (hmoved : call'.arrivedAt = call.arrivedAt) :
    ∀ r ∈ s.log, ∀ c, (s.calls.set i call')[r.call]? = some c → c.arrivedAt ≤ r.time := by
  intro r hr c hc
  rcases getElem?_set_cases hc with ⟨heq, rfl⟩ | ⟨-, hold⟩
  · rw [hmoved]
    exact hs.counted r hr call (heq ▸ hcall)
  · exact hs.counted r hr c hold

/-- Call `i` had arrived when it is counted. -/
theorem Awaited.counted_snoc (hs : Awaited window s) (hcall : s.calls[i]? = some call)
    {call' : Call T} {n : ℕ} (hmoved : call'.arrivedAt = call.arrivedAt) :
    ∀ r ∈ s.log ++ [⟨i, n, s.now⟩], ∀ c, (s.calls.set i call')[r.call]? = some c →
      c.arrivedAt ≤ r.time := by
  intro r hr c hc
  rcases List.mem_append.mp hr with hr | hr
  · exact hs.counted_set hcall hmoved r hr c hc
  · rw [List.mem_singleton.mp hr] at hc ⊢
    exact hs.arrived_set hcall hmoved i c hc

/-- A call that ends now was not the one that owed the `EXPIRE`. -/
theorem awaited_finish [IsOrderedAddMonoid T] (hwindow : 0 < window) (hlogged : Logged limit s)
    (hs : Awaited window s) (hcall : s.calls[i]? = some call) (hphase : call.phase ≠ .counted 1)
    {phase : AllowPhase} (hclosed : phase.isOpen = false) :
    Awaited window (s.finish i call phase) := by
  have hlater : ∀ {time : T}, time ≤ s.now → time ≤ s.now + window := fun h =>
    h.trans (le_add_of_nonneg_right hwindow.le)
  constructor
  case running =>
    refine hs.running_set fun hopen => ?_
    rw [hclosed] at hopen
    cases hopen
  case arrived => exact hs.arrived_set hcall rfl
  case counted => exact hs.counted_set hcall rfl
  case owed =>
    intro c hc hnever first hfirst other hother
    rcases getElem?_set_cases hother with ⟨heq, -⟩ | ⟨-, hold⟩
    · exact absurd (hs.owed c hc hnever first hfirst call (heq ▸ hcall)) hphase
    · exact hs.owed c hc hnever first hfirst other hold
  case soon => exact hs.soon
  case horizon =>
    intro c hc time htime first hfirst other hother ended hended
    rcases getElem?_set_cases hother with ⟨-, rfl⟩ | ⟨-, hold⟩
    · rw [← Option.some.inj hended]
      exact hs.soon c hc time htime
    · exact hs.horizon c hc time htime first hfirst other hold ended hended
  case ended =>
    intro n first hfirst other hother ended hended r hr
    rcases getElem?_set_cases hother with ⟨-, rfl⟩ | ⟨-, hold⟩
    · rw [← Option.some.inj hended]
      exact hlater (hlogged.times r ((stamps.mem_inEpoch).mp hr).1)
    · exact hs.ended n first hfirst other hold ended hended r hr

theorem awaited_expire (hs : Awaited window s) (hpaced : Paced window s)
    (hcall : s.calls[i]? = some call) (hphase : call.phase = .counted 1) :
    Awaited window
      { s with
        key := Redis.expire s.now window s.key
        calls := s.calls.set i { call with phase := .windowed 1 } } := by
  obtain ⟨⟨owner, howner, hcaller⟩, -⟩ := hpaced.owes i call hcall hphase
  have hrunning : call.endedAt = none := hs.running i call hcall (by rw [hphase]; rfl)
  have hexpiry : ∀ c ∈ Redis.expire s.now window s.key, c.expiresAt = some (s.now + window) := by
    intro c hc
    obtain ⟨c', -, rfl⟩ := Option.map_eq_some_iff.mp hc
    rfl
  constructor
  case running => exact hs.running_set fun _ => hrunning
  case arrived => exact hs.arrived_set hcall rfl
  case counted => exact hs.counted_set hcall rfl
  case owed =>
    intro c hc hnever
    rw [hexpiry c hc] at hnever
    cases hnever
  case soon =>
    intro c hc time htime
    rw [hexpiry c hc] at htime
    exact (Option.some.inj htime).ge
  case horizon =>
    intro c hc time htime first hfirst other hother ended hended
    have hsame : first = owner := Option.some.inj (hfirst.symm.trans howner)
    rw [hsame, hcaller] at hother
    rw [List.getElem?_set_self (List.getElem?_eq_some_iff.mp hcall).1] at hother
    obtain rfl := Option.some.inj hother
    rw [hrunning] at hended
    cases hended
  case ended =>
    intro n first hfirst other hother ended hended r hr
    rcases getElem?_set_cases hother with ⟨heq, rfl⟩ | ⟨-, hold⟩
    · exact hs.ended n first hfirst call (heq ▸ hcall) ended hended r hr
    · exact hs.ended n first hfirst other hold ended hended r hr

theorem awaited_count [IsOrderedAddMonoid T] (hlogged : Logged limit s) (hs : Awaited window s)
    {c : Counter T} (hcall : s.calls[i]? = some call) (hphase : call.phase = .received)
    (hfind : Redis.find s.now s.key = some c) :
    Awaited window
      { s with
        key := some { c with count := c.count + 1 }
        calls := s.calls.set i { call with phase := .counted (c.count + 1) }
        log := s.log ++ [⟨i, s.lifetime, s.now⟩] } := by
  obtain ⟨hkey, halive⟩ := Redis.find_some hfind
  obtain ⟨first₀, hfirst₀, -⟩ := hlogged.exists_first hkey
  have hheads : ∀ n, (stamps.inEpoch n (s.log ++ [⟨i, s.lifetime, s.now⟩])).head? =
      (s.life n).head? := head_life_snoc rfl hfirst₀
  have hsame : ∀ {n first other}, first ∈ (s.life n).head? →
      (s.calls.set i { call with phase := .counted (c.count + 1) })[first.call]? = some other →
      s.calls[first.call]? = some other := fun hfirst hother =>
    getElem?_set_counted hlogged hcall hphase (head_mem_log hfirst) hother
  have hrunning : call.endedAt = none := hs.running i call hcall (by rw [hphase]; rfl)
  constructor
  case running => exact hs.running_set fun _ => hrunning
  case arrived => exact hs.arrived_set hcall rfl
  case counted => exact hs.counted_snoc hcall rfl
  case owed =>
    intro c' hc' hnever first hfirst other hother
    obtain rfl := Option.some.inj hc'
    have hfirst : first ∈ (s.life s.lifetime).head? := (hheads s.lifetime) ▸ hfirst
    exact hs.owed c hkey hnever first hfirst other (hsame hfirst hother)
  case soon =>
    intro c' hc' time htime
    obtain rfl := Option.some.inj hc'
    exact hs.soon c hkey time htime
  case horizon =>
    intro c' hc' time htime first hfirst other hother ended hended
    obtain rfl := Option.some.inj hc'
    have hfirst : first ∈ (s.life s.lifetime).head? := (hheads s.lifetime) ▸ hfirst
    exact hs.horizon c hkey time htime first hfirst other (hsame hfirst hother) ended hended
  case ended =>
    intro n first hfirst other hother ended hended r hr
    have hfirst : first ∈ (s.life n).head? := (hheads n) ▸ hfirst
    have hother := hsame hfirst hother
    obtain ⟨hmem, hlife⟩ := (stamps.mem_inEpoch).mp hr
    rcases List.mem_append.mp hmem with hmem | hnew
    · exact hs.ended n first hfirst other hother ended hended r
        ((stamps.mem_inEpoch).mpr ⟨hmem, hlife⟩)
    · -- the key is alive, so it vanishes after now and at most `window` after the first call ended
      rw [List.mem_singleton.mp hnew] at hlife ⊢
      have hn : s.lifetime = n := hlife
      subst hn
      cases hat : c.expiresAt with
      | none =>
        have howes := hs.owed c hkey hat first hfirst other hother
        have hnone := hs.running first.call other hother (by rw [howes]; rfl)
        rw [hnone] at hended
        cases hended
      | some time =>
        have hlate := hs.horizon c hkey time hat first hfirst other hother ended hended
        exact (halive time hat).le.trans hlate

theorem awaited_create (hlogged : Logged limit s) (hs : Awaited window s)
    (hcall : s.calls[i]? = some call) (hphase : call.phase = .received) :
    Awaited window
      { s with
        key := some { count := 1 }
        calls := s.calls.set i { call with phase := .counted 1 }
        lifetime := s.lifetime + 1
        log := s.log ++ [⟨i, s.lifetime + 1, s.now⟩] } := by
  have hrunning : call.endedAt = none := hs.running i call hcall (by rw [hphase]; rfl)
  have hself : stamps.inEpoch (s.lifetime + 1) (s.log ++ [⟨i, s.lifetime + 1, s.now⟩]) =
      [⟨i, s.lifetime + 1, s.now⟩] := life_create hlogged
  constructor
  case running => exact hs.running_set fun _ => hrunning
  case arrived => exact hs.arrived_set hcall rfl
  case counted => exact hs.counted_snoc hcall rfl
  case owed =>
    intro c _ _ first hfirst other hother
    change first ∈ (stamps.inEpoch (s.lifetime + 1) _).head? at hfirst
    rw [hself] at hfirst
    obtain rfl := Option.some.inj hfirst
    rcases getElem?_set_cases hother with ⟨-, rfl⟩ | ⟨hne, -⟩
    · rfl
    · exact absurd rfl hne
  case soon =>
    intro c hc time htime
    obtain rfl := Option.some.inj hc
    cases htime
  case horizon =>
    intro c hc time htime
    obtain rfl := Option.some.inj hc
    cases htime
  case ended =>
    intro n first hfirst other hother ended hended r hr
    change first ∈ (stamps.inEpoch n _).head? at hfirst
    change r ∈ stamps.inEpoch n _ at hr
    by_cases hn : s.lifetime + 1 = n
    · subst hn
      rw [hself] at hfirst
      obtain rfl := Option.some.inj hfirst
      rcases getElem?_set_cases hother with ⟨-, rfl⟩ | ⟨hne, -⟩
      · rw [hrunning] at hended
        cases hended
      · exact absurd rfl hne
    · have hepoch : stamps.epoch ⟨i, s.lifetime + 1, s.now⟩ ≠ n := hn
      rw [stamps.inEpoch_snoc_of_ne s.log hepoch] at hfirst hr
      have hold := getElem?_set_counted hlogged hcall hphase (head_mem_log hfirst) hother
      exact hs.ended n first hfirst other hold ended hended r hr

theorem awaited_step [IsOrderedAddMonoid T] {l : LimiterAction T} (hwindow : 0 < window)
    (hlogged : Logged limit s) (hpaced : Paced window s) (hs : Awaited window s)
    (hguard : KeepsExpiry s l) (h : Step limit window s l t) : Awaited window t := by
  cases h with
  | tick time hle =>
    refine ⟨hs.running, fun j c hc => (hs.arrived j c hc).trans hle, hs.counted, hs.owed, ?_,
      hs.horizon, hs.ended⟩
    intro c hc expiry hexpiry
    exact (hs.soon c hc expiry hexpiry).trans (add_le_add hle (le_refl _))
  | arrive =>
    have hbefore : ∀ {r : Count T} {c}, r ∈ s.log →
        (s.calls ++ [{ arrivedAt := s.now }])[r.call]? = some c → s.calls[r.call]? = some c := by
      intro r c hr hc
      obtain ⟨c', -, hc', -⟩ := hlogged.of_mem hr
      rw [List.getElem?_append_left (List.getElem?_eq_some_iff.mp hc').1] at hc
      exact hc
    constructor
    case running =>
      intro j c hc hopen
      rcases getElem?_snoc_cases hc with hold | rfl
      · exact hs.running j c hold hopen
      · rfl
    case arrived =>
      intro j c hc
      rcases getElem?_snoc_cases hc with hold | rfl
      · exact hs.arrived j c hold
      · exact le_refl _
    case counted => exact fun r hr c hc => hs.counted r hr c (hbefore hr hc)
    case owed =>
      exact fun c hc hnever first hfirst other hother =>
        hs.owed c hc hnever first hfirst other (hbefore (head_mem_log hfirst) hother)
    case soon => exact hs.soon
    case horizon =>
      exact fun c hc time htime first hfirst other hother =>
        hs.horizon c hc time htime first hfirst other (hbefore (head_mem_log hfirst) hother)
    case ended =>
      exact fun n first hfirst other hother =>
        hs.ended n first hfirst other (hbefore (head_mem_log hfirst) hother)
  | create hcall hphase hfind => exact awaited_create hlogged hs hcall hphase
  | count hcall hphase hfind => exact awaited_count hlogged hs hcall hphase hfind
  | expire hcall hphase => exact awaited_expire hs hpaced hcall hphase
  | answer hcall hphase =>
    refine awaited_finish hwindow hlogged hs hcall ?_ rfl
    intro hone
    rcases hphase with ⟨hp, hn⟩ | hp
    · exact hn (AllowPhase.counted.inj (hp.symm.trans hone))
    · cases hp.symm.trans hone
  | abort hcall hopen =>
    exact awaited_finish hwindow hlogged hs hcall (hguard _ hcall) rfl

end

/-! ## Recovery -/

section
variable {limit : ℕ} {window : T} {s t : Limiter T}

omit [AddCommGroup T] [LinearOrder T] in
theorem countedBefore_of_life {n k : ℕ} {first r : Count T} (hfirst : (s.life n).head? = some first)
    (hr : (s.life n)[k]? = some r) (hk : k ≠ 0) : s.CountedBefore first.call r.call := by
  have hpair : [first, r].Sublist (s.life n) := by
    cases hlife : s.life n with
    | nil =>
      rw [hlife] at hfirst
      cases hfirst
    | cons head rest =>
      rw [hlife] at hfirst hr
      obtain rfl := Option.some.inj hfirst
      obtain ⟨m, rfl⟩ := Nat.exists_eq_succ_of_ne_zero hk
      rw [List.getElem?_cons_succ] at hr
      exact List.Sublist.cons_cons _ (List.singleton_sublist.mpr (List.mem_of_getElem? hr))
  exact (hpair.trans List.filter_sublist).map Count.call

theorem recovers_of_awaited (hlimit : 1 ≤ limit) (hlogged : Logged limit s)
    (hs : Awaited window s) : Recovers window s := by
  intro i call answer hcall hanswer hquiet
  obtain ⟨r, hr, rfl⟩ := hlogged.answered_mem hcall hanswer
  have hlife : r ∈ s.life r.lifetime := (stamps.mem_inEpoch).mpr ⟨hr, rfl⟩
  obtain ⟨k, hk⟩ := List.getElem?_of_mem hlife
  rw [hlogged.answer_iff hk hcall hanswer]
  by_cases hzero : k = 0
  · omega
  · -- the first request of its lifetime ended too late for the key to be alive
    obtain ⟨first, hfirst⟩ : ∃ first, (s.life r.lifetime).head? = some first := by
      cases hl : s.life r.lifetime with
      | nil =>
        rw [hl] at hlife
        cases hlife
      | cons first rest => exact ⟨first, rfl⟩
    obtain ⟨other, -, hother, -⟩ := hlogged.of_mem (head_mem_log hfirst)
    obtain ⟨ended, hended, hlate⟩ :=
      hquiet first.call other (countedBefore_of_life hfirst hk hzero) hother
    have hsoon : call.arrivedAt ≤ ended + window :=
      (hs.counted r hr call hcall).trans
        (hs.ended _ first hfirst other hother ended hended r hlife)
    exact absurd hlate (not_lt.mpr hsoon)

theorem awaited_init (window now : T) : Awaited window (init now) := by
  constructor
  case running =>
    intro i call hcall
    cases hcall
  case arrived =>
    intro i call hcall
    cases hcall
  case counted => exact fun r hr => absurd hr List.not_mem_nil
  case owed => exact fun c hc => by cases hc
  case soon => exact fun c hc => by cases hc
  case horizon => exact fun c hc => by cases hc
  case ended =>
    intro n first hfirst
    cases hfirst

/-- In every run in which no call is aborted between an `INCR` that answered 1 and its `EXPIRE`, a
request that arrives more than `window` after all earlier calls have ended is admitted. -/
theorem recovers_of_keepsExpiry [IsOrderedAddMonoid T] (limit : ℕ) (window now : T)
    (hlimit : 1 ≤ limit) (hwindow : 0 < window) (ls : List (LimiterAction T)) (t : Limiter T)
    (h : Run (Under KeepsExpiry (ofNext (next limit window))) (init now) ls t) :
    Recovers window t := by
  have hinv : Logged limit t ∧ Paced window t ∧ Awaited window t := by
    refine h.invariant (I := fun s => Logged limit s ∧ Paced window s ∧ Awaited window s) ?_
      ⟨logged_init limit now, paced_init window now, awaited_init window now⟩
    intro s l t hs hstep
    obtain ⟨hlogged, hpaced, hawaited⟩ := hs
    have hcases := next_step hstep.2
    exact ⟨logged_step hlogged hcases, paced_step hwindow hlogged hpaced hcases,
      awaited_step hwindow hlogged hpaced hawaited hstep.1 hcases⟩
  exact recovers_of_awaited hlimit hinv.1 hinv.2.2

end

/-- The second call comes 1000 seconds after the first was aborted behind its `INCR`. -/
def abortedCall : List (LimiterAction ℤ) :=
  [.arrive, .resume 0, .abort 0, .tick 1000, .arrive, .resume 1, .resume 1]

theorem aborted_call_locks_out :
    ∃ t, Run (ofNext (next 1 60)) (init (0 : ℤ)) abortedCall t ∧ ¬ Recovers 60 t := by
  refine ⟨_, exec_run rfl, ?_⟩
  intro hrecovers
  have hadmitted := hrecovers 1 ⟨.returned false, 1000, some 1000⟩ _ rfl rfl ?_
  · exact absurd ((rateLimiter_ok _).mp hadmitted) (by decide)
  · intro j other hbefore hother
    match j with
    | 0 =>
      obtain rfl := Option.some.inj hother
      exact ⟨0, rfl, by decide⟩
    | 1 =>
      have hsub : [1, 1].Sublist [0, 1] := hbefore
      exact absurd hsub (by decide)
    | j + 2 => cases hother

/-- The first call ends and its key expires, so a later call is admitted again. -/
theorem later_call_recovers :
    ∃ t, Run (Under KeepsExpiry (ofNext (next 1 60))) (init (0 : ℤ))
        [.arrive, .resume 0, .resume 0, .abort 0, .tick 1000, .arrive, .resume 1, .resume 1,
          .resume 1] t ∧
      t.calls.map Call.answer = [none, some (.ok ())] ∧ Recovers 60 t := by
  have hrun : ∃ t, Run (Under KeepsExpiry (ofNext (next 1 60))) (init (0 : ℤ))
      [.arrive, .resume 0, .resume 0, .abort 0, .tick 1000, .arrive, .resume 1, .resume 1,
        .resume 1] t ∧ t.calls.map Call.answer = [none, some (.ok ())] :=
    ⟨_, restrict_run rfl, rfl⟩
  obtain ⟨t, ht, hanswers⟩ := hrun
  exact ⟨t, ht, hanswers, recovers_of_keepsExpiry 1 60 0 (by decide) (by decide) _ t ht⟩

/-! ## A key without an expiry stays -/

/-- The key has no expiry, and no call is about to send one. -/
def Orphaned (s : Limiter T) : Prop :=
  (∃ c, s.key = some c ∧ c.expiresAt = none ∧ 0 < c.count) ∧
    ∀ (i : ℕ) call, s.calls[i]? = some call → call.phase ≠ .counted 1

section
variable {limit : ℕ} {window : T} {s t : Limiter T} {i : ℕ} {call : Call T}

/-- The abort `KeepsExpiry` excludes leaves such a key. -/
theorem orphaned_abort (hlogged : Logged limit s) (hpaced : Paced window s)
    (hcall : s.calls[i]? = some call) (hphase : call.phase = .counted 1) :
    Orphaned (s.finish i call .aborted) := by
  obtain ⟨-, c, hkey, hnever⟩ := hpaced.owes i call hcall hphase
  refine ⟨⟨c, hkey, hnever, (hlogged.key c hkey).2⟩, ?_⟩
  intro j other hother hcounted
  rcases getElem?_set_cases hother with ⟨-, rfl⟩ | ⟨hj, hold⟩
  · cases hcounted
  · exact hj (hpaced.owes_unique hcall hphase hold hcounted)

theorem orphaned_step {l : LimiterAction T} (hs : Orphaned s) (h : Step limit window s l t) :
    Orphaned t := by
  obtain ⟨⟨c, hkey, hnever, hpos⟩, hnobody⟩ := hs
  have hset : ∀ {i : ℕ} {call' : Call T}, call'.phase ≠ .counted 1 → ∀ (j : ℕ) other,
      (s.calls.set i call')[j]? = some other → other.phase ≠ .counted 1 := fun hphase =>
    forall_set (Q := fun call : Call T => call.phase ≠ .counted 1) hnobody hphase
  cases h with
  | tick time hle => exact ⟨⟨c, hkey, hnever, hpos⟩, hnobody⟩
  | arrive =>
    refine ⟨⟨c, hkey, hnever, hpos⟩, ?_⟩
    intro j other hother
    rcases getElem?_snoc_cases hother with hold | rfl
    · exact hnobody j other hold
    · exact AllowPhase.noConfusion
  | create hcall hphase hfind =>
    rw [hkey, Redis.find_of_no_expiry hnever] at hfind
    cases hfind
  | @count i call c' hcall hphase hfind =>
    rw [hkey, Redis.find_of_no_expiry hnever] at hfind
    obtain rfl := Option.some.inj hfind
    refine ⟨⟨_, rfl, hnever, Nat.succ_pos _⟩, hset ?_⟩
    intro hone
    have hcount : c.count + 1 = 1 := AllowPhase.counted.inj hone
    omega
  | expire hcall hphase => exact absurd hphase (hnobody _ _ hcall)
  | answer hcall hphase =>
    exact ⟨⟨c, hkey, hnever, hpos⟩, hset AllowPhase.noConfusion⟩
  | abort hcall hopen =>
    exact ⟨⟨c, hkey, hnever, hpos⟩, hset AllowPhase.noConfusion⟩

/-- From then on the key never vanishes, and no request is the first of a lifetime again. -/
theorem orphaned_run {ls : List (LimiterAction T)} (hs : Orphaned s)
    (h : Run (ofNext (next limit window)) s ls t) : Orphaned t :=
  h.invariant (fun _ _ _ hi hstep => orphaned_step hi (next_step hstep)) hs

end

end Limiter

end AegisPlatform.Cache
