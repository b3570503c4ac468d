import AegisPlatform.Cache.RateLimit
import Mathlib.Algebra.Order.Group.Int
import Mathlib.Data.List.Nodup

/-! # Lifetimes of a rate-limit key

`INCR` and `EXPIRE` are two commands, and only the call that was counted first sends the second.
`Logged` ties the counter to the log of the requests; `Paced` says who can still owe the `EXPIRE`
of the current lifetime, and that a lifetime lasts `window` at least. Both are kept by every step,
also by an aborted call.
-/

namespace AegisPlatform.Cache
open Foundations Core
set_option autoImplicit false
set_option maxHeartbeats 250000

/-- Where a call can be that was counted as the `n`-th request of its lifetime. -/
def AllowPhase.Saw (limit n : ℕ) : AllowPhase → Prop
  | .received => False
  | .counted m | .windowed m => m = n
  | .returned allowed => allowed = decide (n ≤ limit)
  | .aborted => True

variable {T : Type}

def stamps : Stamps (Count T) T := ⟨Count.lifetime, Count.time⟩

/-- The requests of the `n`-th lifetime of the key, in the order they were counted. -/
def Limiter.life (n : ℕ) (s : Limiter T) : List (Count T) := stamps.inEpoch n s.log

/-- The request was let through by `rate_limiter`. -/
def Limiter.admitted (s : Limiter T) (r : Count T) : Bool :=
  match s.calls[r.call]? with
  | none => false
  | some call => call.phase == .returned true

namespace Limiter
variable [AddCommGroup T] [LinearOrder T]

structure Logged (limit : ℕ) (s : Limiter T) : Prop where
  times : ∀ r ∈ s.log, r.time ≤ s.now
  lifetimes : ∀ r ∈ s.log, r.lifetime ≤ s.lifetime
  nodup : (s.log.map Count.call).Nodup
  key : ∀ c ∈ s.key, c.count = (s.life s.lifetime).length ∧ 0 < c.count
  saw : ∀ (n k : ℕ) r, (s.life n)[k]? = some r →
    ∃ call, s.calls[r.call]? = some call ∧ call.phase.Saw limit (k + 1)
  logged : ∀ (i : ℕ) call, s.calls[i]? = some call →
    call.phase = .received ∨ call.phase = .aborted ∨ ∃ r ∈ s.log, r.call = i

structure Paced (window : T) (s : Limiter T) : Prop where
  unborn : s.key = none → s.log = []
  owes : ∀ (i : ℕ) call, s.calls[i]? = some call → call.phase = .counted 1 →
    (∃ r ∈ (s.life s.lifetime).head?, r.call = i) ∧ ∃ c ∈ s.key, c.expiresAt = none
  expiry : ∀ c ∈ s.key, ∀ time ∈ c.expiresAt, (∀ r ∈ s.log, r.time < time) ∧
    ∀ r ∈ (s.life s.lifetime).head?, r.time + window ≤ time
  spaced : s.log.Pairwise (stamps.Follows window)
  starts : ∀ n first next, (s.life n).head? = some first → (s.life (n + 1)).head? = some next →
    first.time + window ≤ next.time

section
variable {limit : ℕ} {window : T} {s t : Limiter T} {i : ℕ} {call : Call T}

/-! ## The log -/

omit [AddCommGroup T] in
theorem Logged.of_mem (hs : Logged limit s) {r : Count T} (hr : r ∈ s.log) :
    ∃ call n, s.calls[r.call]? = some call ∧ call.phase.Saw limit n := by
  have hlife : r ∈ s.life r.lifetime := (stamps.mem_inEpoch).mpr ⟨hr, rfl⟩
  obtain ⟨k, hk⟩ := List.getElem?_of_mem hlife
  obtain ⟨call, hcall, hsaw⟩ := hs.saw _ k r hk
  exact ⟨call, k + 1, hcall, hsaw⟩

omit [AddCommGroup T] in
/-- A call that has not sent its `INCR` is in no lifetime. -/
theorem Logged.not_counted (hs : Logged limit s) (hcall : s.calls[i]? = some call)
    (hphase : call.phase = .received) : ∀ r ∈ s.log, r.call ≠ i := by
  intro r hr heq
  obtain ⟨call', n, hcall', hsaw⟩ := hs.of_mem hr
  rw [heq, hcall] at hcall'
  obtain rfl := Option.some.inj hcall'
  rw [hphase] at hsaw
  exact hsaw

omit [AddCommGroup T] [LinearOrder T] in
theorem saw_set {calls : List (Call T)} {call' : Call T} (hcall : calls[i]? = some call)
    (h : ∀ n, call.phase.Saw limit n → call'.phase.Saw limit n) {j n : ℕ} {c : Call T}
    (hc : calls[j]? = some c) (hsaw : c.phase.Saw limit n) :
    ∃ c', (calls.set i call')[j]? = some c' ∧ c'.phase.Saw limit n := by
  by_cases hij : i = j
  · subst hij
    obtain rfl := Option.some.inj (hcall.symm.trans hc)
    exact ⟨call', List.getElem?_set_self (List.getElem?_eq_some_iff.mp hcall).1, h n hsaw⟩
  · exact ⟨c, (List.getElem?_set_ne hij).trans hc, hsaw⟩

omit [AddCommGroup T] in
/-- A step that counts no request and moves one call. -/
theorem logged_set (hs : Logged limit s) (hcall : s.calls[i]? = some call) {call' : Call T}
    (h : ∀ n, call.phase.Saw limit n → call'.phase.Saw limit n)
    (hmoved : call'.phase ≠ .aborted → call.phase ≠ .received ∧ call.phase ≠ .aborted)
    (hcalls : t.calls = s.calls.set i call') (hlog : t.log = s.log)
    (hlifetime : t.lifetime = s.lifetime) (hnow : t.now = s.now)
    (hkey : ∀ c ∈ t.key, ∃ c' ∈ s.key, c.count = c'.count) : Logged limit t := by
  have hlife : ∀ n, t.life n = s.life n := fun n => by rw [life, life, hlog]
  constructor
  case times =>
    rw [hlog, hnow]
    exact hs.times
  case lifetimes =>
    rw [hlog, hlifetime]
    exact hs.lifetimes
  case nodup =>
    rw [hlog]
    exact hs.nodup
  case key =>
    intro c hc
    obtain ⟨c', hc', heq⟩ := hkey c hc
    rw [heq, hlifetime, hlife]
    exact hs.key c' hc'
  case saw =>
    intro n k r hr
    rw [hlife] at hr
    obtain ⟨c, hc, hsaw⟩ := hs.saw n k r hr
    rw [hcalls]
    exact saw_set hcall h hc hsaw
  case logged =>
    intro j c hc
    rw [hcalls] at hc
    rw [hlog]
    rcases getElem?_set_cases hc with ⟨rfl, rfl⟩ | ⟨-, hold⟩
    · by_cases haborted : c.phase = .aborted
      · exact Or.inr (Or.inl haborted)
      · obtain ⟨hreceived, hrunning⟩ := hmoved haborted
        have hbefore := hs.logged j call hcall
        simp only [hreceived, hrunning, false_or] at hbefore
        exact Or.inr (Or.inr hbefore)
    · exact hs.logged j c hold

omit [AddCommGroup T] in
/-- A step that counts a request, in the lifetime it found or in a new one. -/
theorem logged_incr (hs : Logged limit s) (hcall : s.calls[i]? = some call)
    (hphase : call.phase = .received) {count : ℕ} (hcount : count = (s.life t.lifetime).length + 1)
    (hcalls : t.calls = s.calls.set i { call with phase := .counted count })
    (hlog : t.log = s.log ++ [⟨i, t.lifetime, s.now⟩]) (hlifetime : s.lifetime ≤ t.lifetime)
    (hnow : t.now = s.now) (hkey : ∀ c ∈ t.key, c.count = count) : Logged limit t := by
  have hfresh := hs.not_counted hcall hphase
  constructor
  case times =>
    intro r hr
    rw [hlog, List.mem_append, List.mem_singleton] at hr
    rw [hnow]
    rcases hr with hr | rfl
    · exact hs.times r hr
    · exact le_refl _
  case lifetimes =>
    intro r hr
    rw [hlog, List.mem_append, List.mem_singleton] at hr
    rcases hr with hr | rfl
    · exact (hs.lifetimes r hr).trans hlifetime
    · exact le_refl _
  case nodup =>
    rw [hlog, List.map_append, List.nodup_append]
    refine ⟨hs.nodup, List.nodup_singleton _, ?_⟩
    intro j hj j' hj' heq
    obtain ⟨r, hr, rfl⟩ := List.mem_map.mp hj
    exact hfresh r hr (heq.trans (List.mem_singleton.mp hj'))
  case key =>
    intro c hc
    have hlife : t.life t.lifetime = s.life t.lifetime ++ [⟨i, t.lifetime, s.now⟩] := by
      rw [life, hlog]
      exact stamps.inEpoch_snoc_self s.log rfl
    rw [hkey c hc, hcount, hlife, List.length_append, List.length_singleton]
    exact ⟨rfl, Nat.succ_pos _⟩
  case saw =>
    intro n k r hr
    rw [life, hlog] at hr
    rw [hcalls]
    rcases stamps.inEpoch_snoc_cases hr with hold | ⟨hn, rfl, hk⟩
    · obtain ⟨c, hc, hsaw⟩ := hs.saw n k r hold
      have hne : r.call ≠ i := hfresh r ((stamps.mem_inEpoch).mp (List.mem_of_getElem? hold)).1
      exact ⟨c, (List.getElem?_set_ne hne.symm).trans hc, hsaw⟩
    · have hn' : t.lifetime = n := hn
      refine ⟨_, List.getElem?_set_self (List.getElem?_eq_some_iff.mp hcall).1, ?_⟩
      change count = k + 1
      rw [hcount, hk, hn']
      rfl
  case logged =>
    intro j c hc
    rw [hcalls] at hc
    rw [hlog]
    rcases getElem?_set_cases hc with ⟨rfl, -⟩ | ⟨-, hold⟩
    · exact Or.inr (Or.inr ⟨_, List.mem_append_right _ (List.mem_singleton_self _), rfl⟩)
    · rcases hs.logged j c hold with hreceived | haborted | ⟨r, hr, heq⟩
      · exact Or.inl hreceived
      · exact Or.inr (Or.inl haborted)
      · exact Or.inr (Or.inr ⟨r, List.mem_append_left _ hr, heq⟩)

theorem logged_step {l : LimiterAction T} (hs : Logged limit s) (h : Step limit window s l t) :
    Logged limit t := by
  cases h with
  | tick time hle =>
    exact ⟨fun r hr => (hs.times r hr).trans hle, hs.lifetimes, hs.nodup, hs.key, hs.saw, hs.logged⟩
  | arrive =>
    refine ⟨hs.times, hs.lifetimes, hs.nodup, hs.key, ?_, ?_⟩
    · intro n k r hr
      obtain ⟨c, hc, hsaw⟩ := hs.saw n k r hr
      refine ⟨c, ?_, hsaw⟩
      change (s.calls ++ _)[r.call]? = _
      rw [List.getElem?_append_left (List.getElem?_eq_some_iff.mp hc).1]
      exact hc
    · intro j c hc
      rcases getElem?_snoc_cases hc with hold | rfl
      · exact hs.logged j c hold
      · exact Or.inl rfl
  | @create i call hcall hphase hfind =>
    have hempty : s.life (s.lifetime + 1) = [] :=
      stamps.inEpoch_eq_nil fun r hr => Nat.lt_succ_of_le (hs.lifetimes r hr)
    refine logged_incr hs hcall hphase (by rw [hempty]; rfl) rfl rfl (Nat.le_succ _) rfl ?_
    intro c hc
    rw [← Option.some.inj hc]
  | @count i call c hcall hphase hfind =>
    obtain ⟨hkey, -⟩ := Redis.find_some hfind
    refine logged_incr hs hcall hphase (by rw [(hs.key c hkey).1]) rfl rfl (le_refl _) rfl ?_
    intro c' hc'
    rw [← Option.some.inj hc']
  | @expire i call hcall hphase =>
    refine logged_set hs hcall ?_ ?_ rfl rfl rfl rfl ?_
    · intro n hsaw
      rw [hphase] at hsaw
      exact hsaw
    · intro _
      rw [hphase]
      exact ⟨AllowPhase.noConfusion, AllowPhase.noConfusion⟩
    · intro c hc
      obtain ⟨c', hc', rfl⟩ := Option.map_eq_some_iff.mp hc
      exact ⟨c', (Redis.find_some hc').1, rfl⟩
  | @answer i n call hcall hphase =>
    refine logged_set hs hcall ?_ ?_ rfl rfl rfl rfl (fun c hc => ⟨c, hc, rfl⟩)
    · intro m hsaw
      rcases hphase with ⟨hp, -⟩ | hp
      · rw [hp] at hsaw
        obtain rfl : n = m := hsaw
        rfl
      · rw [hp] at hsaw
        obtain rfl : n = m := hsaw
        rfl
    · intro _
      rcases hphase with ⟨hp, -⟩ | hp
      · rw [hp]
        exact ⟨AllowPhase.noConfusion, AllowPhase.noConfusion⟩
      · rw [hp]
        exact ⟨AllowPhase.noConfusion, AllowPhase.noConfusion⟩
  | @abort i call hcall hopen =>
    refine logged_set hs hcall ?_ ?_ rfl rfl rfl rfl (fun c hc => ⟨c, hc, rfl⟩)
    · intro n _
      trivial
    · intro hne
      exact absurd rfl hne

/-! ## Who owes the expiry -/

omit [AddCommGroup T] in
/-- The first request of the current lifetime. -/
theorem Logged.exists_first (hs : Logged limit s) {c : Counter T} (hkey : s.key = some c) :
    ∃ first, (s.life s.lifetime).head? = some first ∧ first ∈ s.log ∧
      first.lifetime = s.lifetime := by
  have hpos := hs.key c hkey
  cases hlife : s.life s.lifetime with
  | nil =>
    rw [hlife] at hpos
    exact absurd hpos.2 (by rw [hpos.1]; exact lt_irrefl 0)
  | cons first rest =>
    have hmem : first ∈ s.life s.lifetime := by
      rw [hlife]
      exact List.mem_cons_self
    obtain ⟨hlog, hfirst⟩ := (stamps.mem_inEpoch).mp hmem
    exact ⟨first, rfl, hlog, hfirst⟩

/-- A step that counts no request, leaves the key alone and ends or starts no `EXPIRE`. -/
theorem paced_set (hs : Paced window s) {call' : Call T} (hphase : call'.phase ≠ .counted 1)
    (hcalls : t.calls = s.calls.set i call') (hlog : t.log = s.log)
    (hlifetime : t.lifetime = s.lifetime) (hkey : t.key = s.key) : Paced window t := by
  have hlife : ∀ n, t.life n = s.life n := fun n => by rw [life, life, hlog]
  constructor
  case unborn =>
    rw [hkey, hlog]
    exact hs.unborn
  case owes =>
    intro j c hc hcounted
    rw [hcalls] at hc
    rw [hlife, hlifetime, hkey]
    rcases getElem?_set_cases hc with ⟨-, rfl⟩ | ⟨-, hold⟩
    · exact absurd hcounted hphase
    · exact hs.owes j c hold hcounted
  case expiry =>
    rw [hkey, hlog, hlife, hlifetime]
    exact hs.expiry
  case spaced =>
    rw [hlog]
    exact hs.spaced
  case starts =>
    intro n first next
    rw [hlife, hlife]
    exact hs.starts n first next

/-- Two calls that owe the expiry are both the first request of the lifetime. -/
theorem Paced.owes_unique (hs : Paced window s) (hcall : s.calls[i]? = some call)
    (hphase : call.phase = .counted 1) {j : ℕ} {other : Call T} (hother : s.calls[j]? = some other)
    (hcounted : other.phase = .counted 1) : j = i := by
  obtain ⟨⟨first, hfirst, howner⟩, -⟩ := hs.owes i call hcall hphase
  obtain ⟨⟨first', hfirst', howner'⟩, -⟩ := hs.owes j other hother hcounted
  have hsame : first' = first := Option.some.inj (hfirst'.symm.trans hfirst)
  rw [hsame] at howner'
  exact howner'.symm.trans howner

/-- The `EXPIRE` of the call that owes it ends the lifetime `window` from now. -/
theorem paced_expire (hlogged : Logged limit s) (hs : Paced window s) (hwindow : 0 < window)
    [IsOrderedAddMonoid T] (hcall : s.calls[i]? = some call) (hphase : call.phase = .counted 1) :
    Paced window
      { s with
        key := Redis.expire s.now window s.key
        calls := s.calls.set i { call with phase := .windowed 1 } } := by
  obtain ⟨-, c, hkey, hnever⟩ := hs.owes i call hcall hphase
  have hexpire : Redis.expire s.now window s.key =
      some { c with expiresAt := some (s.now + window) } := by
    rw [Option.mem_def.mp hkey, Redis.expire, Redis.find_of_no_expiry hnever]
    rfl
  rw [hexpire]
  constructor
  case unborn =>
    intro hnone
    cases hnone
  case owes =>
    intro j c' hc' hcounted
    rcases getElem?_set_cases hc' with ⟨-, rfl⟩ | ⟨hj, hold⟩
    · cases hcounted
    · exact absurd (hs.owes_unique hcall hphase hold hcounted) hj
  case expiry =>
    intro c' hc' time htime
    obtain rfl := Option.some.inj hc'
    obtain rfl := Option.some.inj htime
    constructor
    · intro r hr
      exact lt_of_le_of_lt (hlogged.times r hr) (lt_add_of_pos_right _ hwindow)
    · intro r hr
      have hmem : r ∈ s.log := ((stamps.mem_inEpoch).mp (List.mem_of_head? hr)).1
      exact add_le_add (hlogged.times r hmem) (le_refl _)
  case spaced => exact hs.spaced
  case starts => exact hs.starts

omit [AddCommGroup T] [LinearOrder T] in
/-- A request counted in the current lifetime does not change where the lifetimes begin. -/
theorem head_life_snoc {new first : Count T} (hnew : new.lifetime = s.lifetime)
    (hfirst : (s.life s.lifetime).head? = some first) (n : ℕ) :
    (stamps.inEpoch n (s.log ++ [new])).head? = (s.life n).head? := by
  by_cases hn : new.lifetime = n
  · rw [stamps.inEpoch_snoc_self s.log hn]
    rw [hnew] at hn
    subst hn
    change (s.life s.lifetime ++ [new]).head? = _
    rw [List.head?_append, hfirst]
    rfl
  · rw [stamps.inEpoch_snoc_of_ne s.log hn]
    rfl

theorem paced_count (hlogged : Logged limit s) (hs : Paced window s) {c : Counter T}
    (hfind : Redis.find s.now s.key = some c) :
    Paced window
      { s with
        key := some { c with count := c.count + 1 }
        calls := s.calls.set i { call with phase := .counted (c.count + 1) }
        log := s.log ++ [⟨i, s.lifetime, s.now⟩] } := by
  obtain ⟨hkey, halive⟩ := Redis.find_some hfind
  obtain ⟨first, hfirst, hfirstlog, hfirstlife⟩ := hlogged.exists_first hkey
  have hheads : ∀ n, (stamps.inEpoch n (s.log ++ [⟨i, s.lifetime, s.now⟩])).head? =
      (s.life n).head? := head_life_snoc rfl hfirst
  constructor
  case unborn =>
    intro hnone
    cases hnone
  case owes =>
    intro j c' hc' hcounted
    rcases getElem?_set_cases hc' with ⟨-, rfl⟩ | ⟨-, hold⟩
    · have hpos := (hlogged.key c hkey).2
      have hone : c.count + 1 = 1 := AllowPhase.counted.inj hcounted
      omega
    · obtain ⟨howner, c'', hc'', hnever⟩ := hs.owes j c' hold hcounted
      have hsame : c'' = c := Option.some.inj (hc''.symm.trans hkey)
      rw [hsame] at hnever
      exact ⟨(hheads s.lifetime).symm ▸ howner, _, rfl, hnever⟩
  case expiry =>
    intro c' hc' time htime
    obtain rfl := Option.some.inj hc'
    obtain ⟨hbefore, hfar⟩ := hs.expiry c hkey time htime
    constructor
    · intro r hr
      rcases List.mem_append.mp hr with hr | hr
      · exact hbefore r hr
      · rw [List.mem_singleton.mp hr]
        exact halive time htime
    · intro r hr
      exact hfar r ((hheads s.lifetime) ▸ hr)
  case spaced =>
    refine Stamps.pairwise_snoc hs.spaced (Stamps.follows_same hs.spaced hfirstlog ?_ ?_ ?_)
    · exact hfirstlife.symm
    · intro r hr
      exact (hlogged.lifetimes r hr).trans hfirstlife.ge
    · exact hlogged.times
  case starts =>
    intro n first' next' hfirst' hnext'
    exact hs.starts n first' next' ((hheads n).symm.trans hfirst') ((hheads (n + 1)).symm.trans hnext')

omit [AddCommGroup T] in
/-- A request that finds no key is the first of a new lifetime. -/
theorem life_create (hlogged : Logged limit s) :
    stamps.inEpoch (s.lifetime + 1) (s.log ++ [⟨i, s.lifetime + 1, s.now⟩]) =
      [⟨i, s.lifetime + 1, s.now⟩] := by
  have hepoch : stamps.epoch ⟨i, s.lifetime + 1, s.now⟩ = s.lifetime + 1 := rfl
  have hempty : stamps.inEpoch (s.lifetime + 1) s.log = [] :=
    stamps.inEpoch_eq_nil fun r hr => Nat.lt_succ_of_le (hlogged.lifetimes r hr)
  rw [stamps.inEpoch_snoc_self s.log hepoch, hempty]
  rfl

/-- A key that is not found had an expiry, which has passed, or there never was one. -/
theorem Paced.lifetime_over (hs : Paced window s) (hfind : Redis.find s.now s.key = none) :
    (∀ r ∈ s.log, r.time < s.now) ∧
      ∀ first, (s.life s.lifetime).head? = some first → first.time + window ≤ s.now := by
  cases hkey : s.key with
  | none =>
    have hempty := hs.unborn hkey
    have hlife : s.life s.lifetime = [] := by
      rw [life, hempty]
      rfl
    rw [hempty, hlife]
    exact ⟨fun r hr => (by cases hr), fun first hfirst => (by cases hfirst)⟩
  | some c =>
    rw [hkey] at hfind
    obtain ⟨time, htime, hpast⟩ := Redis.find_none hfind
    obtain ⟨hbefore, hfar⟩ := hs.expiry c hkey time htime
    exact ⟨fun r hr => lt_of_lt_of_le (hbefore r hr) hpast,
      fun first hfirst => (hfar first hfirst).trans hpast⟩

/-- Nobody owes the expiry of a key that is not found. -/
theorem Paced.not_owed (hs : Paced window s) (hfind : Redis.find s.now s.key = none) {j : ℕ}
    {other : Call T} (hother : s.calls[j]? = some other) : other.phase ≠ .counted 1 := by
  intro hcounted
  obtain ⟨-, c, hkey, hnever⟩ := hs.owes j other hother hcounted
  rw [Option.mem_def.mp hkey, Redis.find_of_no_expiry hnever] at hfind
  cases hfind

theorem paced_create (hlogged : Logged limit s) (hs : Paced window s) [IsOrderedAddMonoid T]
    (hfind : Redis.find s.now s.key = none) :
    Paced window
      { s with
        key := some { count := 1 }
        calls := s.calls.set i { call with phase := .counted 1 }
        lifetime := s.lifetime + 1
        log := s.log ++ [⟨i, s.lifetime + 1, s.now⟩] } := by
  obtain ⟨hpast, hover⟩ := hs.lifetime_over hfind
  have hnew : ∀ n, s.lifetime < n → s.life n = [] := fun n hn =>
    stamps.inEpoch_eq_nil fun r hr => lt_of_le_of_lt (hlogged.lifetimes r hr) hn
  have hself : stamps.inEpoch (s.lifetime + 1) (s.log ++ [⟨i, s.lifetime + 1, s.now⟩]) =
      [⟨i, s.lifetime + 1, s.now⟩] := life_create hlogged
  have hother : ∀ n, n ≠ s.lifetime + 1 →
      stamps.inEpoch n (s.log ++ [⟨i, s.lifetime + 1, s.now⟩]) = s.life n :=
    fun n hn => stamps.inEpoch_snoc_of_ne s.log hn.symm
  constructor
  case unborn =>
    intro hnone
    cases hnone
  case owes =>
    intro j c' hc' hcounted
    rcases getElem?_set_cases hc' with ⟨rfl, -⟩ | ⟨-, hold⟩
    · refine ⟨⟨⟨j, s.lifetime + 1, s.now⟩, ?_, rfl⟩, _, rfl, rfl⟩
      change (stamps.inEpoch (s.lifetime + 1) _).head? = _
      rw [hself]
      rfl
    · exact absurd hcounted (hs.not_owed hfind hold)
  case expiry =>
    intro c' hc' time htime
    obtain rfl := Option.some.inj hc'
    cases htime
  case spaced =>
    cases hkey : s.key with
    | none =>
      change (s.log ++ [_]).Pairwise _
      rw [hs.unborn hkey]
      exact List.pairwise_singleton _ _
    | some c =>
      obtain ⟨first, hfirst, hfirstlog, hfirstlife⟩ := hlogged.exists_first hkey
      refine Stamps.pairwise_snoc hs.spaced (Stamps.follows_next hs.spaced hfirstlog ?_ ?_ hpast ?_)
      · exact congrArg (· + 1) hfirstlife.symm
      · intro r hr
        exact (hlogged.lifetimes r hr).trans hfirstlife.ge
      · exact hover first hfirst
  case starts =>
    intro n first next hfirst hnext
    change (stamps.inEpoch n _).head? = some first at hfirst
    change (stamps.inEpoch (n + 1) _).head? = some next at hnext
    by_cases hn : n = s.lifetime + 1
    · rw [hother (n + 1) (by omega), hnew (n + 1) (by omega)] at hnext
      cases hnext
    · rw [hother n hn] at hfirst
      by_cases hn' : n = s.lifetime
      · subst hn'
        rw [hself] at hnext
        obtain rfl := Option.some.inj hnext
        exact hover first hfirst
      · rw [hother (n + 1) (by omega)] at hnext
        exact hs.starts n first next hfirst hnext

theorem paced_step [IsOrderedAddMonoid T] {l : LimiterAction T} (hwindow : 0 < window)
    (hlogged : Logged limit s) (hs : Paced window s) (h : Step limit window s l t) :
    Paced window t := by
  cases h with
  | tick time hle => exact ⟨hs.unborn, hs.owes, hs.expiry, hs.spaced, hs.starts⟩
  | arrive =>
    refine ⟨hs.unborn, ?_, hs.expiry, hs.spaced, hs.starts⟩
    intro j c hc hcounted
    rcases getElem?_snoc_cases hc with hold | rfl
    · exact hs.owes j c hold hcounted
    · cases hcounted
  | create hcall hphase hfind => exact paced_create hlogged hs hfind
  | count hcall hphase hfind => exact paced_count hlogged hs hfind
  | expire hcall hphase => exact paced_expire hlogged hs hwindow hcall hphase
  | answer hcall hphase => exact paced_set hs AllowPhase.noConfusion rfl rfl rfl rfl
  | abort hcall hopen => exact paced_set hs AllowPhase.noConfusion rfl rfl rfl rfl

end

/-! ## The bound -/

def init (now : T) : Limiter T := { now := now }

/-- What the limit promises about the requests on one key. -/
structure Bounded (limit : ℕ) (window : T) (s : Limiter T) : Prop where
  once : (s.log.map Count.call).Nodup
  counted : ∀ (i : ℕ) call, s.calls[i]? = some call → call.answer.isSome = true →
    ∃ r ∈ s.log, r.call = i
  admits : ∀ (n k : ℕ) r call answer, (s.life n)[k]? = some r → s.calls[r.call]? = some call →
    call.answer = some answer → (answer = .ok () ↔ k < min (s.life n).length limit)
  starts : ∀ n first next, (s.life n).head? = some first → (s.life (n + 1)).head? = some next →
    first.time + window ≤ next.time
  rate : ∀ a, (s.log.filter fun r => s.admitted r &&
    (decide (a ≤ r.time) && decide (r.time ≤ a + window))).length ≤ 2 * limit

section
variable {limit : ℕ} {window : T} {s t : Limiter T}

omit [AddCommGroup T] in
theorem Logged.answered_mem (hs : Logged limit s) {i : ℕ} {call : Call T}
    {answer : Except AegisError Unit} (hcall : s.calls[i]? = some call)
    (hanswer : call.answer = some answer) : ∃ r ∈ s.log, r.call = i := by
  obtain ⟨allowed, hphase, -⟩ := Call.answer_some hanswer
  have hbefore := hs.logged i call hcall
  simpa [hphase] using hbefore

omit [AddCommGroup T] in
/-- The `k`-th request of a lifetime, once answered, was let through iff `k` is below the limit. -/
theorem Logged.answer_iff (hs : Logged limit s) {n k : ℕ} {r : Count T} {call : Call T}
    {answer : Except AegisError Unit} (hr : (s.life n)[k]? = some r)
    (hcall : s.calls[r.call]? = some call) (hanswer : call.answer = some answer) :
    answer = .ok () ↔ k < limit := by
  obtain ⟨call', hcall', hsaw⟩ := hs.saw n k r hr
  obtain rfl := Option.some.inj (hcall'.symm.trans hcall)
  obtain ⟨allowed, hphase, rfl⟩ := Call.answer_some hanswer
  rw [hphase] at hsaw
  have hallowed : allowed = decide (k + 1 ≤ limit) := hsaw
  rw [rateLimiter_ok, hallowed, decide_eq_true_iff]
  exact Nat.succ_le_iff

omit [AddCommGroup T] in
theorem Logged.admitted_lt (hs : Logged limit s) {n k : ℕ} {r : Count T}
    (hr : (s.life n)[k]? = some r) (hadmitted : s.admitted r = true) : k < limit := by
  obtain ⟨call, hcall, -⟩ := hs.saw n k r hr
  simp only [admitted, hcall, beq_iff_eq] at hadmitted
  have hanswer : call.answer = some (rateLimiter true) := by
    rw [Call.answer, hadmitted]
  exact (hs.answer_iff hr hcall hanswer).mp rfl

variable [IsOrderedAddMonoid T]

theorem bounded_of_invariant (hlogged : Logged limit s) (hpaced : Paced window s) :
    Bounded limit window s := by
  constructor
  case once => exact hlogged.nodup
  case counted =>
    intro i call hcall hanswer
    obtain ⟨answer, hanswer⟩ := Option.isSome_iff_exists.mp hanswer
    exact hlogged.answered_mem hcall hanswer
  case admits =>
    intro n k r call answer hr hcall hanswer
    have hk : k < (s.life n).length := (List.getElem?_eq_some_iff.mp hr).1
    rw [hlogged.answer_iff hr hcall hanswer, lt_min_iff]
    exact ⟨fun h => ⟨hk, h⟩, fun h => h.2⟩
  case starts => exact hpaced.starts
  case rate =>
    refine Stamps.card_window_le s.admitted hpaced.spaced ?_
    intro n
    exact length_filter_le_of_index fun k r hr hadmitted => hlogged.admitted_lt hr hadmitted

omit [AddCommGroup T] [IsOrderedAddMonoid T] in
theorem logged_init (limit : ℕ) (now : T) : Logged limit (init now) := by
  constructor
  case times => exact fun r hr => absurd hr List.not_mem_nil
  case lifetimes => exact fun r hr => absurd hr List.not_mem_nil
  case nodup => exact List.nodup_nil
  case key => exact fun c hc => by cases hc
  case saw =>
    intro n k r hr
    cases hr
  case logged =>
    intro i call hcall
    cases hcall

omit [IsOrderedAddMonoid T] in
theorem paced_init (window now : T) : Paced window (init now) := by
  constructor
  case unborn => exact fun _ => rfl
  case owes =>
    intro i call hcall
    cases hcall
  case expiry => exact fun c hc => by cases hc
  case spaced => exact List.Pairwise.nil
  case starts =>
    intro n first next hfirst
    cases hfirst

/-- The invariant of every run. -/
theorem run_invariant (hwindow : 0 < window) {now : T} {ls : List (LimiterAction T)}
    (h : Run (ofNext (next limit window)) (init now) ls t) : Logged limit t ∧ Paced window t := by
  refine h.invariant (I := fun s => Logged limit s ∧ Paced window s) ?_
    ⟨logged_init limit now, paced_init window now⟩
  intro s l t hs hstep
  have hcases := next_step hstep
  exact ⟨logged_step hs.1 hcases, paced_step hwindow hs.1 hs.2 hcases⟩

/-- However the commands of the calls interleave, each lifetime of the key admits its first `limit`
requests, lifetimes begin `window` apart, and no interval of that length sees more than twice
`limit` requests admitted. -/
theorem bounded_run (limit : ℕ) (window now : T) (hwindow : 0 < window)
    (ls : List (LimiterAction T)) (t : Limiter T)
    (h : Run (ofNext (next limit window)) (init now) ls t) : Bounded limit window t := by
  obtain ⟨hlogged, hpaced⟩ := run_invariant hwindow h
  exact bounded_of_invariant hlogged hpaced

end

/-- The second call overtakes the first between its two commands; the third comes in the next
lifetime of the key. -/
def overtaking : List (LimiterAction ℤ) :=
  [.arrive, .arrive, .resume 0, .resume 1, .resume 1, .tick 5, .resume 0, .resume 0, .tick 65,
    .arrive, .resume 2, .resume 2, .resume 2]

theorem overtaking_bounded :
    ∃ t, Run (ofNext (next 1 60)) (init (0 : ℤ)) overtaking t ∧
      t.calls.map Call.answer = [some (rateLimiter true), some (rateLimiter false),
        some (rateLimiter true)] ∧
      Bounded 1 60 t := by
  have hrun : ∃ t, Run (ofNext (next 1 60)) (init (0 : ℤ)) overtaking t ∧
      t.calls.map Call.answer = [some (rateLimiter true), some (rateLimiter false),
        some (rateLimiter true)] := ⟨_, exec_run rfl, rfl⟩
  obtain ⟨t, ht, hanswers⟩ := hrun
  exact ⟨t, ht, hanswers, bounded_run 1 60 0 (by decide) overtaking t ht⟩

end Limiter

end AegisPlatform.Cache
