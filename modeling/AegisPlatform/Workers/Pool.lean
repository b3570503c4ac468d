import AegisPlatform.Foundations.Runs
import AegisPlatform.Services.RunService
import AegisPlatform.Workers.Faults

/-! # Workers and cancel requests on one database

Any number of deliveries to `execute_run` and of cancel requests, each taking one database access
at a time, in any order. Every session acts on the row it loaded, and a commit writes the columns
the session changed over whatever the row holds by then. Suites and cases may be edited or
disappear in between.

`PhaseStep` and `CancelStep` say once what one access can do; every invariant is read off them.
-/

namespace AegisPlatform.Workers
open Foundations Domain Core Db Services
set_option autoImplicit false
set_option maxHeartbeats 250000

/-! ## One access of a worker -/

section
variable [Unicode]

def missing (run : TestRun) : TestRun :=
  { run with status := .error, error := some "Suite no longer exists." }

/-- What one access of `execute_run` makes of the database and of its own phase. -/
inductive PhaseStep (env : Env) (runId : Uuid) (db : Database) :
    ExecutorPhase → Database → ExecutorPhase → Prop
  | skip : PhaseStep env runId db .created db (.exited none)
  | load {run : TestRun} (row : db.runs.get? runId = some run) (queued : run.status = .queued) :
      PhaseStep env runId db .created db (.loaded run)
  | find (run : TestRun) : PhaseStep env runId db (.loaded run) db
      (.suiteLoaded run (db.getWithCases run.suiteId))
  | miss {run row : TestRun} (hrow : db.runs.get? run.id = some row)
      (commit : env.faults.firstCommit = none) :
      PhaseStep env runId db (.suiteLoaded run none) (db.setRun run (missing run)) (.exited none)
  | missFails (run : TestRun) (raised : Raised) :
      PhaseStep env runId db (.suiteLoaded run none) db (.exited (some raised))
  | begin {run row : TestRun} (suite : TestSuite) (cases : List TestCase)
      (hrow : db.runs.get? run.id = some row) :
      PhaseStep env runId db (.suiteLoaded run (some (suite, cases)))
        (db.setRun run (begun env run)) (.running (begun env run) cases)
  | beginRaises {run row : TestRun} (suite : TestSuite) (cases : List TestCase) (raised : Raised)
      (hrow : db.runs.get? run.id = some row) :
      PhaseStep env runId db (.suiteLoaded run (some (suite, cases)))
        (db.setRun run (begun env run)) (.exited (some raised))
  | beginFails (run : TestRun) (suite : TestSuite) (cases : List TestCase) (raised : Raised) :
      PhaseStep env runId db (.suiteLoaded run (some (suite, cases))) db (.exited (some raised))
  | close {run row : TestRun} (cases : List TestCase) (raised : Option Raised)
      (hrow : db.runs.get? run.id = some row)
      (commits : Commits env (executeCases env runId cases {})) :
      PhaseStep env runId db (.running run cases)
        ((db.insertStepRows (Except.progress (executeCases env runId cases {})).results
          (Except.progress (executeCases env runId cases {})).healingEvents).setRun run
            (closeRun env run (executeCases env runId cases {}))) (.exited raised)
  | closeFails (run : TestRun) (cases : List TestCase) (raised : Option Raised) :
      PhaseStep env runId db (.running run cases) db (.exited raised)
  | done (raised : Option Raised) : PhaseStep env runId db (.exited raised) db (.exited raised)

theorem suiteMissing_step (env : Env) (runId : Uuid) (run : TestRun) (w : World) :
    PhaseStep env runId w.db (.suiteLoaded run none) (markSuiteMissing env run w).1.db
      (.exited (markSuiteMissing env run w).2) := by
  unfold markSuiteMissing World.updateRun
  cases hcommit : env.faults.firstCommit with
  | some raised => exact PhaseStep.missFails run raised
  | none =>
    cases hrow : w.db.runs.get? run.id with
    | none =>
      simp only [Database.updateRun, hrow, Option.map_none]
      exact PhaseStep.missFails run _
    | some row =>
      simp only [Database.updateRun_of_get? _ hrow, Option.map_some]
      exact PhaseStep.miss hrow hcommit

theorem begin_step (env : Env) (runId : Uuid) (run : TestRun) (suite : TestSuite)
    (cases : List TestCase) (w : World) :
    PhaseStep env runId w.db (.suiteLoaded run (some (suite, cases)))
      ((ExecutorPhase.suiteLoaded run (some (suite, cases))).next env runId w).1.db
      ((ExecutorPhase.suiteLoaded run (some (suite, cases))).next env runId w).2 := by
  unfold ExecutorPhase.next
  cases hrow : w.db.runs.get? run.id with
  | none =>
    have hfails : ∃ w' raised, beginRun env run suite w = (w', .error raised) ∧ w'.db = w.db := by
      unfold beginRun World.updateRun
      cases hcommit : env.faults.firstCommit with
      | some raised => exact ⟨_, _, rfl, rfl⟩
      | none =>
        have hnone : (w.incActiveRuns.db.updateRun run
            { run with status := .running, startedAt := some env.startedAt }) = none := by
          unfold Database.updateRun World.incActiveRuns
          rw [hrow]
        simp only [hnone, Option.map_none]
        exact ⟨_, _, rfl, rfl⟩
    obtain ⟨w', raised, hbegin, hdb⟩ := hfails
    simp only [hbegin, hdb]
    exact PhaseStep.beginFails run suite cases raised
  | some row =>
    by_cases hb : Begins env
    · simp only [beginRun_of_begins hb hrow]
      exact PhaseStep.begin suite cases hrow
    · obtain ⟨w', raised, hbegin, -, hdb, -⟩ := beginRun_of_not_begins suite hb hrow
      simp only [hbegin]
      rcases hdb with hdb | hdb
      · rw [hdb]
        exact PhaseStep.beginFails run suite cases raised
      · rw [hdb]
        exact PhaseStep.beginRaises suite cases raised hrow

theorem close_step (env : Env) (runId : Uuid) (run : TestRun) (cases : List TestCase) (w : World) :
    PhaseStep env runId w.db (.running run cases)
      (finishRun env run (executeCases env runId cases {}) w).1.db
      (.exited (finishRun env run (executeCases env runId cases {}) w).2) := by
  by_cases hc : Commits env (executeCases env runId cases {})
  · cases hrow : w.db.runs.get? run.id with
    | some row =>
      have hfinish := finishRun_of_commits hc hrow
      rw [hfinish]
      exact PhaseStep.close cases _ hrow hc
    | none =>
      have hsame : (finishRun env run (executeCases env runId cases {}) w).1.db = w.db := by
        unfold finishRun Database.updateRun Database.insertStepRows
        simp only [hc.usable, Bool.false_eq_true, if_false, hc.lastCommit, hrow]
      rw [hsame]
      exact PhaseStep.closeFails run cases _
  · have hfinish := finishRun_of_not_commits run w hc
    rw [hfinish]
    exact PhaseStep.closeFails run cases _

/-- Everything one access of a worker can do. -/
theorem next_step (env : Env) (runId : Uuid) (w : World) (phase : ExecutorPhase) :
    PhaseStep env runId w.db phase (phase.next env runId w).1.db
      (phase.next env runId w).2 := by
  cases phase with
  | created =>
    unfold ExecutorPhase.next
    cases hrow : w.db.runs.get? runId with
    | none => exact PhaseStep.skip
    | some run =>
      by_cases hq : run.status = .queued
      · simp only [hq, ne_eq, not_true, if_false]
        exact PhaseStep.load hrow hq
      · simp only [hq, ne_eq, not_false_eq_true, if_true]
        exact PhaseStep.skip
  | loaded run => exact PhaseStep.find run
  | suiteLoaded run found =>
    cases found with
    | none => exact suiteMissing_step env runId run w
    | some found => exact begin_step env runId run found.1 found.2 w
  | running run cases => exact close_step env runId run cases w
  | exited raised => exact PhaseStep.done raised

/-- Taken one after the other without interruption, the accesses are `execute_run`. -/
theorem executeRun_phases (env : Env) (runId : Uuid) (w : World) :
    ∃ n, ((fun s : World × ExecutorPhase => s.2.next env runId s.1)^[n] (w, .created)) =
      ((executeRun env runId w).1, .exited (executeRun env runId w).2) := by
  unfold executeRun
  cases hrow : w.db.runs.get? runId with
  | none => exact ⟨1, by simp [ExecutorPhase.next, hrow]⟩
  | some run =>
    by_cases hq : run.status = .queued
    · cases hsuite : w.db.getWithCases run.suiteId with
      | none => exact ⟨3, by simp [ExecutorPhase.next, hrow, hq, hsuite]⟩
      | some found =>
        obtain ⟨suite, cases⟩ := found
        cases hbegin : beginRun env run suite w with
        | mk w' result =>
          cases result with
          | error raised => exact ⟨3, by simp [ExecutorPhase.next, hrow, hq, hsuite, hbegin]⟩
          | ok run' => exact ⟨4, by simp [ExecutorPhase.next, hrow, hq, hsuite, hbegin]⟩
    · exact ⟨1, by simp [ExecutorPhase.next, hrow, hq]⟩

/-! ## One access of a cancel request -/

omit [Unicode] in
inductive CancelPhase
  | created
  | read (run : TestRun)
  | exited

omit [Unicode] in
def CancelPhase.next (runId : Uuid) (actor : User) (commits : Bool) (db : Database) :
    CancelPhase → Database × CancelPhase
  | .created =>
    match RunService.cancellable db runId actor with
    | .error _ => (db, .exited)
    | .ok run => if run.status.isTerminal then (db, .exited) else (db, .read run)
  | .read run =>
    if commits then
      match db.updateRun run (RunService.cancelled run) with
      | none => (db, .exited)
      | some db' => (db', .exited)
    else (db, .exited)
  | .exited => (db, .exited)

omit [Unicode] in
inductive CancelStep (runId : Uuid) (commits : Bool) (db : Database) :
    CancelPhase → Database → CancelPhase → Prop
  | refuse : CancelStep runId commits db .created db .exited
  | load {run : TestRun} (row : db.runs.get? runId = some run)
      (live : run.status.isTerminal = false) : CancelStep runId commits db .created db (.read run)
  | commit {run row : TestRun} (hrow : db.runs.get? run.id = some row) (hcommits : commits = true) :
      CancelStep runId commits db (.read run) (db.setRun run (RunService.cancelled run)) .exited
  | fail (run : TestRun) : CancelStep runId commits db (.read run) db .exited
  | done : CancelStep runId commits db .exited db .exited

omit [Unicode] in
/-- Everything one access of a cancel request can do. -/
theorem cancel_step (runId : Uuid) (actor : User) (commits : Bool) (db : Database)
    (phase : CancelPhase) :
    CancelStep runId commits db phase (phase.next runId actor commits db).1
      (phase.next runId actor commits db).2 := by
  cases phase with
  | created =>
    unfold CancelPhase.next
    cases hrow : RunService.cancellable db runId actor with
    | error e => exact CancelStep.refuse
    | ok run =>
      cases hlive : run.status.isTerminal with
      | true =>
        simp only [hlive, if_true]
        exact CancelStep.refuse
      | false =>
        simp only [hlive, Bool.false_eq_true, if_false]
        exact CancelStep.load (RunService.cancellable_ok hrow).1 hlive
  | read run =>
    unfold CancelPhase.next
    cases commits with
    | false => exact CancelStep.fail run
    | true =>
      cases hrow : db.runs.get? run.id with
      | none =>
        simp only [if_true, Database.updateRun, hrow]
        exact CancelStep.fail run
      | some row =>
        simp only [if_true, Database.updateRun_of_get? _ hrow]
        exact CancelStep.commit hrow rfl
  | exited => exact CancelStep.done

omit [Unicode] in
/-- Its two accesses without interruption are `RunService.cancel`. -/
theorem cancel_phases {db db' : Database} {runId : Uuid} {actor : User} {run : TestRun}
    (h : RunService.cancel db runId actor = .ok (run, db')) :
    ∃ n, ((fun s : Database × CancelPhase => s.2.next runId actor true s.1)^[n] (db, .created)) =
      (db', .exited) := by
  obtain ⟨row, hrow, hend⟩ := RunService.cancel_ok h
  rcases hend with ⟨hterminal, rfl⟩ | ⟨hlive, rfl⟩
  · exact ⟨1, by simp [CancelPhase.next, hrow, hterminal]⟩
  · have hget := (RunService.cancellable_ok hrow).1
    have hid := Table.get?_key hget
    have hstored : db.runs.get? row.id = some row := hid.symm ▸ hget
    have hupdate := Database.updateRun_of_get? (RunService.cancelled row) hstored
    exact ⟨2, by simp [CancelPhase.next, hrow, hlive, hupdate]⟩

/-! ## The pool -/

omit [Unicode] in
/-- A delivery of a run id to a worker; `executed` records that it went on to the steps. -/
structure Delivery where
  runId : Uuid
  phase : ExecutorPhase := .created
  executed : Bool := false

omit [Unicode] in
structure CancelSession where
  runId : Uuid
  actor : User
  phase : CancelPhase := .created

omit [Unicode] in
structure Pool where
  world : World
  deliveries : List Delivery
  cancels : List CancelSession

omit [Unicode] in
inductive PoolLabel
  | deliver (i : ℕ) (env : Env)
  | cancel (i : ℕ) (commits : Bool)
  | edit (suites : Table TestSuite TestSuite.id) (cases : Table TestCase TestCase.id)

omit [Unicode] in
def ExecutorPhase.isRunning : ExecutorPhase → Bool
  | .running .. => true
  | .created | .loaded _ | .suiteLoaded .. | .exited _ => false

def Delivery.next (env : Env) (w : World) (d : Delivery) : World × Delivery :=
  let (w', phase) := d.phase.next env d.runId w
  (w', { d with phase := phase, executed := d.executed || phase.isRunning })

def Pool.next (s : Pool) : PoolLabel → Option Pool
  | .deliver i env =>
    match s.deliveries[i]? with
    | none => none
    | some d =>
      let (w, d') := d.next env s.world
      some { s with world := w, deliveries := s.deliveries.set i d' }
  | .cancel i commits =>
    match s.cancels[i]? with
    | none => none
    | some c =>
      let (db, phase) := c.phase.next c.runId c.actor commits s.world.db
      some { s with
        world := { s.world with db := db }
        cancels := s.cancels.set i { c with phase := phase } }
  | .edit suites cases =>
    some { s with world := { s.world with db := { s.world.db with suites := suites, cases := cases } } }

/-- Everything one step of the pool can do. -/
inductive PoolStep (s : Pool) : PoolLabel → Pool → Prop
  | deliver {i : ℕ} {env : Env} {d : Delivery} {w : World} {phase : ExecutorPhase}
      (hd : s.deliveries[i]? = some d) (step : PhaseStep env d.runId s.world.db d.phase w.db phase) :
      PoolStep s (.deliver i env)
        { s with
          world := w
          deliveries := s.deliveries.set i
            { d with phase := phase, executed := d.executed || phase.isRunning } }
  | cancel {i : ℕ} {commits : Bool} {c : CancelSession} {db : Database} {phase : CancelPhase}
      (hc : s.cancels[i]? = some c) (step : CancelStep c.runId commits s.world.db c.phase db phase) :
      PoolStep s (.cancel i commits)
        { s with
          world := { s.world with db := db }
          cancels := s.cancels.set i { c with phase := phase } }
  | edit (suites : Table TestSuite TestSuite.id) (cases : Table TestCase TestCase.id) :
      PoolStep s (.edit suites cases)
        { s with
          world := { s.world with db := { s.world.db with suites := suites, cases := cases } } }

theorem pool_step {s t : Pool} {l : PoolLabel} (h : ofNext Pool.next s l t) : PoolStep s l t := by
  unfold ofNext at h
  cases l with
  | deliver i env =>
    simp only [Pool.next] at h
    split at h
    · cases h
    · next d hd =>
      obtain rfl := Option.some.inj h
      exact PoolStep.deliver hd (next_step env d.runId s.world d.phase)
  | cancel i commits =>
    simp only [Pool.next] at h
    split at h
    · cases h
    · next c hc =>
      obtain rfl := Option.some.inj h
      exact PoolStep.cancel hc (cancel_step c.runId c.actor commits s.world.db c.phase)
  | edit suites cases =>
    obtain rfl := Option.some.inj h
    exact PoolStep.edit suites cases

omit [Unicode] in
/-- Nobody has touched the database yet. -/
structure Pool.Initial (s : Pool) : Prop where
  deliveries : ∀ d ∈ s.deliveries, d.phase = .created ∧ d.executed = false
  cancels : ∀ c ∈ s.cancels, c.phase = .created

end

end AegisPlatform.Workers
