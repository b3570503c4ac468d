import AegisPlatform.Api.Authentication
import AegisPlatform.Api.Platform

/-! # Who put it there

The platform behind its tokens: accounts register, log in, refresh and are switched off and on while
the clock advances, a request comes with a token, and workers and cancel requests take their
accesses in between.

Behind every suite and every run that is stored there is an account that logged in with its password.
-/

namespace AegisPlatform.Api
open Foundations Domain Core Db Services Workers
set_option autoImplicit false
set_option maxHeartbeats 250000

structure Service where
  now : ℚ
  now_nonneg : 0 ≤ now
  pool : Pool
  issued : List Issuance := []

inductive ServiceLabel
  | account (action : AccountAction)
  | request (token : String) (request : Request) (commits enqueues : Bool)
  | arrive (token : String) (runId : Uuid)
  | deliver (i : ℕ) (env : Env)
  | cancel (i : ℕ) (commits : Bool)

namespace Service

def accounts (s : Service) : Accounts where
  now := s.now
  now_nonneg := s.now_nonneg
  db := s.pool.world.db
  issued := s.issued

def withAccounts (s : Service) (a : Accounts) : Service where
  now := a.now
  now_nonneg := a.now_nonneg
  pool := { s.pool with world := { s.pool.world with db := a.db } }
  issued := a.issued

def withPool (s : Service) (pool : Pool) : Service := { s with pool := pool }

section
variable [Unicode]

def next (sec : Security) (s : Service) : ServiceLabel → Option Service
  | .account action => (s.accounts.next sec action).map s.withAccounts
  | .request token request commits enqueues =>
    match getCurrentUser sec (s.accounts.decode sec) s.pool.world.db token with
    | .error _ => some s
    | .ok user => (Platform.next s.pool (.request user.id request commits enqueues)).map s.withPool
  | .arrive token runId =>
    match getCurrentUser sec (s.accounts.decode sec) s.pool.world.db token with
    | .error _ => some s
    | .ok user => (Platform.next s.pool (.arrive user.id runId)).map s.withPool
  | .deliver i env => (Platform.next s.pool (.deliver i env)).map s.withPool
  | .cancel i commits => (Platform.next s.pool (.cancel i commits)).map s.withPool

end

end Service

/-! ## Logins -/

/-- The account logged in with its password. -/
def LoggedIn (sec : Security) (issued : List Issuance) (userId : Uuid) : Prop :=
  ∃ g ∈ issued, g.user.id = userId ∧
    ∃ password, g.cause = .login password ∧ sec.IsPassword g.user password

section
variable {sec : Security} {issued : List Issuance} {userId : Uuid}

theorem LoggedIn.mono {issued' : List Issuance} (hsub : ∀ g ∈ issued, g ∈ issued')
    (h : LoggedIn sec issued userId) : LoggedIn sec issued' userId := by
  obtain ⟨g, hg, hlogin⟩ := h
  exact ⟨g, hsub g hg, hlogin⟩

/-- Every granted pair of tokens goes back to a login of its account. -/
theorem Granted.loggedIn {g : Issuance} (h : Granted sec issued g) :
    LoggedIn sec issued g.user.id := by
  induction h with
  | @login g password hg hcause hpassword hactive => exact ⟨g, hg, rfl, password, hcause, hpassword⟩
  | refresh _ _ _ huser _ _ _ ih =>
    rw [huser]
    exact ih

/-- The account behind an accepted token logged in. -/
theorem loggedIn_of_token {a : Accounts} {token : String} {user : User} (ha : a.Sound sec)
    (h : getCurrentUser sec (a.decode sec) a.db token = .ok user) :
    LoggedIn sec a.issued user.id := by
  obtain ⟨payload, hdecode, htype, hparse, -, -⟩ := getCurrentUser_ok_iff.mp h
  obtain ⟨g, hg, rfl, -, -⟩ := Accounts.decode_access hdecode htype
  have hid : user.id = g.user.id :=
    Option.some.inj (hparse.symm.trans (sec.uuid.parse_str g.user.id))
  rw [hid]
  exact (ha.granted g hg).loggedIn

end

/-! ## Runs of the service -/

namespace Service

structure Attributed (sec : Security) (s : Service) : Prop where
  sound : s.accounts.Sound sec
  named : NamedIn (LoggedIn sec s.issued) s.pool.world.db

section
variable [Unicode] {sec : Security} {s t : Service}

omit [Unicode] in
/-- A step of the platform that leaves the accounts alone. -/
theorem attributed_pool (hs : Attributed sec s) {pool : Pool}
    (husers : pool.world.db.users = s.pool.world.db.users)
    (hnamed : NamedIn (LoggedIn sec s.issued) pool.world.db) :
    Attributed sec (s.withPool pool) := by
  refine ⟨⟨?_, hs.sound.granted, hs.sound.past⟩, hnamed⟩
  show ∀ user ∈ pool.world.db.users.rows, _
  rw [husers]
  exact hs.sound.known

theorem attributed_account (hs : Attributed sec s) {action : AccountAction} {a : Accounts}
    (h : s.accounts.next sec action = some a) : Attributed sec (s.withAccounts a) := by
  refine ⟨Accounts.sound_step hs.sound h, ?_⟩
  have hkept : (∀ g ∈ s.issued, g ∈ a.issued) ∧ a.db.suites = s.pool.world.db.suites ∧
      a.db.runs = s.pool.world.db.runs := by
    cases action with
    | register data salt =>
      simp only [Accounts.next] at h
      split at h
      · obtain rfl := Option.some.inj h
        exact ⟨fun _ hg => hg, rfl, rfl⟩
      · next hregister =>
        obtain rfl := Option.some.inj h
        obtain ⟨-, -, rfl⟩ := register_ok hregister
        exact ⟨fun _ hg => hg, rfl, rfl⟩
    | login username password jtis =>
      simp only [Accounts.next] at h
      split at h
      · obtain rfl := Option.some.inj h
        exact ⟨fun _ hg => hg, rfl, rfl⟩
      · obtain rfl := Option.some.inj h
        exact ⟨fun _ hg => List.mem_append_left _ hg, rfl, rfl⟩
    | refresh token jtis =>
      simp only [Accounts.next] at h
      split at h
      · obtain rfl := Option.some.inj h
        exact ⟨fun _ hg => hg, rfl, rfl⟩
      · obtain rfl := Option.some.inj h
        exact ⟨fun _ hg => List.mem_append_left _ hg, rfl, rfl⟩
    | advance time =>
      simp only [Accounts.next] at h
      split at h
      · obtain rfl := Option.some.inj h
        exact ⟨fun _ hg => hg, rfl, rfl⟩
      · cases h
    | setActive userId active =>
      obtain rfl := Option.some.inj h
      exact ⟨fun _ hg => hg, rfl, rfl⟩
  obtain ⟨hissued, hsuites, hruns⟩ := hkept
  have hnamed := hs.named.imp fun _ => LoggedIn.mono hissued
  refine ⟨?_, ?_⟩
  · show ∀ suite ∈ a.db.suites.rows, _
    rw [hsuites]
    exact hnamed.owners
  · show ∀ run ∈ a.db.runs.rows, _
    rw [hruns]
    exact hnamed.creators

theorem attributed_next {l : ServiceLabel} (hs : Attributed sec s) (h : s.next sec l = some t) :
    Attributed sec t := by
  cases l with
  | account action =>
    obtain ⟨a, ha, rfl⟩ := Option.map_eq_some_iff.mp h
    exact attributed_account hs ha
  | request token request commits enqueues =>
    simp only [next] at h
    split at h
    · obtain rfl := Option.some.inj h
      exact hs
    · next user huser =>
      obtain ⟨pool, hpool, rfl⟩ := Option.map_eq_some_iff.mp h
      obtain rfl := Option.some.inj hpool
      have heffect := handle_effect s.pool.world.db user.id commits enqueues request
      exact attributed_pool hs (effect_users heffect)
        (effect_named heffect hs.named fun _ _ => loggedIn_of_token hs.sound huser)
  | arrive token runId =>
    simp only [next] at h
    split at h
    · obtain rfl := Option.some.inj h
      exact hs
    · obtain ⟨pool, hpool, rfl⟩ := Option.map_eq_some_iff.mp h
      simp only [Platform.next] at hpool
      split at hpool
      · obtain rfl := Option.some.inj hpool
        exact attributed_pool hs rfl hs.named
      · obtain rfl := Option.some.inj hpool
        exact attributed_pool hs rfl hs.named
  | deliver i env =>
    obtain ⟨pool, hpool, rfl⟩ := Option.map_eq_some_iff.mp h
    obtain ⟨d, w, phase, hd, -, step, rfl⟩ := deliver_next (i := i) hpool
    exact attributed_pool hs (phase_users step) (phase_named step hs.named)
  | cancel i commits =>
    obtain ⟨pool, hpool, rfl⟩ := Option.map_eq_some_iff.mp h
    cases pool_step (l := .cancel i commits) hpool with
    | @cancel _ _ c db phase hc step =>
      generalize c.phase = old at step
      cases step with
      | refuse => exact attributed_pool hs rfl hs.named
      | load => exact attributed_pool hs rfl hs.named
      | fail => exact attributed_pool hs rfl hs.named
      | done => exact attributed_pool hs rfl hs.named
      | commit => exact attributed_pool hs rfl (hs.named.setRun _ _)

/-- Whatever happens between the accounts, the clock, the requests and the workers: who owns a stored
suite, and who created a stored run, has logged in with the password of the account. -/
theorem stored_by_logins {ls : List ServiceLabel} (hissued : s.issued = [])
    (hknown : ∀ user ∈ s.pool.world.db.users.rows, ∃ password, sec.IsPassword user password)
    (hsuites : s.pool.world.db.suites.rows = []) (hruns : s.pool.world.db.runs.rows = [])
    (hrun : Run (ofNext (next sec)) s ls t) :
    (∀ suite ∈ t.pool.world.db.suites.rows, LoggedIn sec t.issued suite.ownerId) ∧
      ∀ run ∈ t.pool.world.db.runs.rows, ∀ userId ∈ run.createdById,
        LoggedIn sec t.issued userId := by
  have hnone : ∀ g, g ∉ s.issued := by
    rw [hissued]
    exact fun g => List.not_mem_nil
  have hs : Attributed sec s := by
    refine ⟨⟨hknown, fun g hg => absurd hg (hnone g), fun g hg => absurd hg (hnone g)⟩, ?_, ?_⟩
    · rw [hsuites]
      exact fun suite hsuite => absurd hsuite List.not_mem_nil
    · rw [hruns]
      exact fun run hrun => absurd hrun List.not_mem_nil
  have ht : Attributed sec t := hrun.invariant (fun _ _ _ hs hstep => attributed_next hs hstep) hs
  exact ⟨ht.named.owners, ht.named.creators⟩

end

end Service

/-! ## Ada, and somebody without a token -/

def noService : Service where
  now := 100
  now_nonneg := noAccounts.now_nonneg
  pool := emptyPlatform

def adaServed : List ServiceLabel :=
  [.account (.register adaCreate 7), .account (.login "ada@EXAMPLE.com" "engine no. 1" ("a1", "r1")),
    .request (adaLogin.tokens plainSecurity).accessToken (.write (.createSuite
      { name := "Login", slug := "login", targetBaseUrl := "https://example.com"
        cases := [{ name := "Sign in", steps := loginSteps }] })) true true,
    .request (adaLogin.tokens plainSecurity).accessToken (.triggerRun 0 {} none) true true,
    .request "forged" (.triggerRun 0 {} none) true true]

theorem ada_served :
    (exec (@Service.next asciiUnicode plainSecurity) noService adaServed).map
        (fun s => (s.issued, s.pool.world.db.suites.rows.map TestSuite.ownerId,
          s.pool.world.db.runs.rows.map TestRun.createdById)) =
      some ([adaLogin], [0], [some 0]) := by
  decide +kernel

theorem ada_logged_in :
    ∃ s, Run (ofNext (@Service.next asciiUnicode plainSecurity)) noService adaServed s ∧
      s.issued = [adaLogin] ∧ s.pool.world.db.runs.rows.map TestRun.createdById = [some 0] ∧
      LoggedIn plainSecurity s.issued 0 := by
  obtain ⟨s, hexec, hs⟩ := Option.map_eq_some_iff.mp ada_served
  obtain ⟨hissued, -, hruns⟩ : s.issued = [adaLogin] ∧
      s.pool.world.db.suites.rows.map TestSuite.ownerId = [0] ∧
      s.pool.world.db.runs.rows.map TestRun.createdById = [some 0] := by simpa using hs
  have hrun := exec_run hexec
  obtain ⟨-, hcreators⟩ := @Service.stored_by_logins asciiUnicode plainSecurity noService s adaServed rfl
    (fun user huser => absurd huser List.not_mem_nil) rfl rfl hrun
  obtain ⟨run, hmem, hcreator⟩ := List.mem_map.mp (hruns ▸ List.mem_singleton_self (some 0))
  exact ⟨s, hrun, hissued, hruns, hcreators run hmem 0 hcreator⟩

end AegisPlatform.Api
