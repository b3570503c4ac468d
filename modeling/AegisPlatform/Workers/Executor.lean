import AegisPlatform.Db.Models
import AegisPlatform.Workers.Browser
import Mathlib.Algebra.Order.Floor.Defs
import Mathlib.Data.Rat.Floor

/-! # The run executor

`execute_run` of `workers/executor.py`, with everything outside the source as an input: the clock
readings, the answers of the healing engine, and what goes wrong. A fault is an `Exception` or
the task's cancellation (`asyncio.CancelledError`, which `except Exception` lets through); it can
strike at each commit, flush and publish, and at the construction of the engine. The engine's own
faults are answers of `heal`, which is asked with the position of the step in the run.

Step rows are written by flushes inside one transaction, so nothing of them is committed before
the closing commit. After a failed flush the session refuses that commit.

The pieces below are cut at the points where another client of the database can step in: the two
`SELECT`s, the commit of RUNNING and the closing commit. `executeRun` is their composition without
interruption, `ExecutorPhase.next` takes them one at a time.
-/

namespace AegisPlatform.Workers
open Foundations Domain Db
set_option autoImplicit false
set_option maxHeartbeats 250000

inductive Raised
  | exception (message : String)
  | cancelled
deriving DecidableEq, Repr

structure HealCall where
  originalSelector : String
  html : String
  context : Option String
deriving DecidableEq

structure Faults where
  firstCommit : Option Raised := none
  publishStarted : Option Raised := none
  newEngine : Option String := none
  flush : ℕ → Option Raised := fun _ => none
  publishStep : ℕ → Option Raised := fun _ => none
  lastCommit : Option Raised := none
  publishFinished : Option Raised := none

/-- What one execution meets outside the source. -/
structure Env where
  startedAt : DateTime
  finishedAt : DateTime
  elapsed : ℚ
  minConfidence : ℚ
  snapshotHash : String → String
  validationMessage : Json → String
  heal : ℕ → HealCall → Except Raised HealingProposal
  faults : Faults := {}

inductive RunEvent
  | started (runId : Uuid) (suite : String)
  | stepCompleted (case : String) (stepIndex : ℕ) (status : StepStatus)
      (healedSelector : Option String)
  | finished (status : RunStatus) (passed failed healed : ℕ) (durationMs : Option ℤ)
deriving DecidableEq

structure Metrics where
  activeRuns : ℤ := 0
  runsTotal : List RunStatus := []
  runDuration : List ℚ := []
  workerTasks : List (String × RunStatus) := []

/-- The database as committed, the messages published so far, the metrics. -/
structure World where
  db : Database
  published : List (Uuid × RunEvent) := []
  metrics : Metrics := {}

/-! ## The loop over cases and steps -/

/-- The local counters of `execute_run` with the rows flushed and the events published so far. -/
structure Progress where
  passed : ℕ := 0
  failed : ℕ := 0
  healed : ℕ := 0
  results : List StepResult := []
  healingEvents : List HealingEvent := []
  published : List RunEvent := []

/-- The loop left by a raise; `usable` tells whether the session can still commit. -/
structure Stopped where
  progress : Progress
  raised : Raised
  usable : Bool

/-- What the branches on the outcome of a step assign. -/
structure Verdict where
  status : StepStatus
  healedSelector : Option String := none
  message : Option String := none
  progress : Progress

section
variable [Unicode]

def healCall (pageHtml : String) (step : StepSpec) : HealCall :=
  ⟨step.selector.getD "", pageHtml, pyOr step.expected step.value⟩

def healStep (env : Env) (runId : Uuid) (pageHtml : String) (step : StepSpec)
    (proposal : HealingProposal) (p : Progress) : Verdict :=
  let event : HealingEvent :=
    { runId := runId
      originalSelector := step.selector.getD ""
      healedSelector := proposal.healedSelector
      strategy := proposal.strategy
      confidence := proposal.confidence
      domSnapshotHash := some (env.snapshotHash pageHtml)
      rationale := some proposal.rationale }
  match proposal.healedSelector with
  | some selector =>
    let event := { event with
      succeeded := true
      accepted := if proposal.confidence ≥ env.minConfidence then some true else none }
    { status := .healed
      healedSelector := some selector
      message := some ("Healed via " ++ proposal.strategy.value ++ ": " ++ proposal.rationale)
      progress := { p with healed := p.healed + 1, healingEvents := p.healingEvents ++ [event] } }
  | none =>
    let event := { event with succeeded := false }
    { status := .failed
      message := some "Selector drifted and could not be healed."
      progress := { p with failed := p.failed + 1, healingEvents := p.healingEvents ++ [event] } }

def judgeStep (env : Env) (runId : Uuid) (pageHtml : String) (index : ℕ) (step : StepSpec)
    (p : Progress) : Except Raised Verdict :=
  let outcome := runStep step index
  if outcome.drifted then
    match env.heal p.results.length (healCall pageHtml step) with
    | .error raised => .error raised
    | .ok proposal => .ok (healStep env runId pageHtml step proposal p)
  else if outcome.clean then
    .ok { status := .passed, progress := { p with passed := p.passed + 1 } }
  else
    .ok { status := .failed, progress := { p with failed := p.failed + 1 } }

def stepResult (runId : Uuid) (case : TestCase) (index : ℕ) (step : StepSpec) (v : Verdict) :
    StepResult :=
  { runId := runId
    caseId := some case.id
    caseName := case.name
    stepIndex := index
    action := step.action
    status := v.status
    originalSelector := step.selector
    healedSelector := v.healedSelector
    message := v.message
    durationMs := (runStep step index).durationMs }

def stepCompleted (r : StepResult) : RunEvent :=
  .stepCompleted r.caseName r.stepIndex r.status r.healedSelector

-- the position of the step in the run is the number of rows flushed before it
def executeStep (env : Env) (runId : Uuid) (case : TestCase) (pageHtml : String) (index : ℕ)
    (step : StepSpec) (p : Progress) : Except Stopped Progress :=
  match judgeStep env runId pageHtml index step p with
  | .error raised => .error ⟨p, raised, true⟩
  | .ok verdict =>
    let result := stepResult runId case index step verdict
    match env.faults.flush p.results.length with
    | some raised => .error ⟨verdict.progress, raised, false⟩
    | none =>
      let flushed := { verdict.progress with results := p.results ++ [result] }
      -- `_publish` swallows an `Exception`; a cancellation passes
      match env.faults.publishStep p.results.length with
      | some .cancelled => .error ⟨flushed, .cancelled, true⟩
      | some (.exception _) => .ok flushed
      | none => .ok { flushed with published := p.published ++ [stepCompleted result] }

def executeSteps (env : Env) (runId : Uuid) (case : TestCase) (pageHtml : String) :
    ℕ → List StepSpec → Progress → Except Stopped Progress
  | _, [], p => .ok p
  | index, step :: rest, p =>
    match executeStep env runId case pageHtml index step p with
    | .error stopped => .error stopped
    | .ok p' => executeSteps env runId case pageHtml (index + 1) rest p'

/-- `[StepSpec.model_validate(s) for s in case.steps]`: the first invalid step raises. -/
def validateSteps (env : Env) : List Json → Except Raised (List StepSpec)
  | [] => .ok []
  | s :: rest =>
    match StepSpec.modelValidate s with
    | none => .error (.exception (env.validationMessage s))
    | some step =>
      match validateSteps env rest with
      | .error raised => .error raised
      | .ok steps => .ok (step :: steps)

def executeCases (env : Env) (runId : Uuid) : List TestCase → Progress → Except Stopped Progress
  | [], p => .ok p
  | case :: rest, p =>
    match validateSteps env case.steps with
    | .error raised => .error ⟨p, raised, true⟩
    | .ok steps =>
      match executeSteps env runId case (buildPage steps) 0 steps p with
      | .error stopped => .error stopped
      | .ok p' => executeCases env runId rest p'

end

/-! ## Before and after the loop -/

def World.updateRun (w : World) (loaded current : TestRun) : Option World :=
  (w.db.updateRun loaded current).map fun db => { w with db := db }

def World.publish (w : World) (runId : Uuid) (event : RunEvent) : World :=
  { w with published := w.published ++ [(runId, event)] }

/-- The suite vanished: ERROR, without a timestamp and without an event. -/
def markSuiteMissing (env : Env) (run : TestRun) (w : World) : World × Option Raised :=
  let run' := { run with status := .error, error := some "Suite no longer exists." }
  match env.faults.firstCommit with
  | some raised => (w, some raised)
  | none =>
    match w.updateRun run run' with
    | none => (w, some (.exception "StaleDataError"))
    | some w' => (w', none)

def World.incActiveRuns (w : World) : World :=
  { w with metrics := { w.metrics with activeRuns := w.metrics.activeRuns + 1 } }

/-- From the gauge to the engine: commit RUNNING, publish `run.started`, build the engine. -/
def beginRun (env : Env) (run : TestRun) (suite : TestSuite) (w : World) :
    World × Except Raised TestRun :=
  let run' := { run with status := .running, startedAt := some env.startedAt }
  let w := w.incActiveRuns
  match env.faults.firstCommit with
  | some raised => (w, .error raised)
  | none =>
    match w.updateRun run run' with
    | none => (w, .error (.exception "StaleDataError"))
    | some w =>
      let built : Except Raised TestRun :=
        match env.faults.newEngine with
        | some message => .error (.exception message)
        | none => .ok run'
      match env.faults.publishStarted with
      | some .cancelled => (w, .error .cancelled)
      | some (.exception _) => (w, built)
      | none => (w.publish run.id (.started run.id suite.slug), built)

def Except.progress : Except Stopped Progress → Progress
  | .ok p => p
  | .error s => s.progress

/-- What the end of the `try`, the handler and the `finally` block assign to the row. -/
def closeRun (env : Env) (run : TestRun) (outcome : Except Stopped Progress) : TestRun :=
  let run :=
    match outcome with
    | .ok p =>
      { run with
        passedCount := p.passed
        failedCount := p.failed
        healedCount := p.healed
        status := if p.failed = 0 then .passed else .failed }
    | .error ⟨_, .exception message, _⟩ => { run with status := .error, error := some message }
    | .error ⟨_, .cancelled, _⟩ => run
  { run with
    finishedAt := some env.finishedAt
    durationMs := some ⌊env.elapsed * 1000⌋ }

def finishedEvent (run : TestRun) : RunEvent :=
  .finished run.status run.passedCount run.failedCount run.healedCount run.durationMs

def Metrics.finish (m : Metrics) (run : TestRun) : Metrics :=
  { activeRuns := m.activeRuns - 1
    runsTotal := m.runsTotal ++ [run.status]
    runDuration := m.runDuration ++ [(run.durationMs.getD 0 : ℚ) / 1000]
    workerTasks := m.workerTasks ++ [("execute_run", run.status)] }

/-- A failed flush expires the row. If its handler has not set the status again, as after a
cancellation, reading it raises before the counters. -/
def Metrics.close (m : Metrics) (run : TestRun) : Except Stopped Progress → Metrics
  | .error ⟨_, .cancelled, false⟩ => { m with activeRuns := m.activeRuns - 1 }
  | _ => m.finish run

/-- After a failed flush the session refuses to commit. -/
def refused : Except Stopped Progress → Bool
  | .ok _ => false
  | .error s => !s.usable

/-- What the coroutine raises once the `finally` block is through: only a cancellation is left. -/
def pending : Except Stopped Progress → Option Raised
  | .error ⟨_, .cancelled, _⟩ => some .cancelled
  | _ => none

def finishRun (env : Env) (run : TestRun) (outcome : Except Stopped Progress) (w : World) :
    World × Option Raised :=
  let run' := closeRun env run outcome
  let p := Except.progress outcome
  let w : World :=
    { w with
      published := w.published ++ p.published.map fun e => (run.id, e)
      metrics := w.metrics.close run' outcome }
  if refused outcome then (w, some (.exception "PendingRollbackError"))
  else
    match env.faults.lastCommit with
    | some raised => (w, some raised)
    | none =>
      match (w.db.insertStepRows p.results p.healingEvents).updateRun run run' with
      | none => (w, some (.exception "StaleDataError"))
      | some db =>
        let w := { w with db := db }
        match env.faults.publishFinished with
        | some .cancelled => (w, some .cancelled)
        | some (.exception _) => (w, pending outcome)
        | none => (w.publish run.id (finishedEvent run'), pending outcome)

section
variable [Unicode]

/-- `execute_run` without interruption by other clients of the database. -/
def executeRun (env : Env) (runId : Uuid) (w : World) : World × Option Raised :=
  match w.db.runs.get? runId with
  | none => (w, none)
  | some run =>
    if run.status ≠ .queued then (w, none)
    else
      match w.db.getWithCases run.suiteId with
      | none => markSuiteMissing env run w
      | some (suite, cases) =>
        match beginRun env run suite w with
        | (w, .error raised) => (w, some raised)
        | (w, .ok run) => finishRun env run (executeCases env runId cases {}) w

/-! ## One database access at a time -/

inductive ExecutorPhase
  | created
  | loaded (run : TestRun)
  | suiteLoaded (run : TestRun) (found : Option (TestSuite × List TestCase))
  | running (run : TestRun) (cases : List TestCase)
  | exited (raised : Option Raised)

def ExecutorPhase.next (env : Env) (runId : Uuid) (w : World) :
    ExecutorPhase → World × ExecutorPhase
  | .created =>
    match w.db.runs.get? runId with
    | none => (w, .exited none)
    | some run => if run.status ≠ .queued then (w, .exited none) else (w, .loaded run)
  | .loaded run => (w, .suiteLoaded run (w.db.getWithCases run.suiteId))
  | .suiteLoaded run none =>
    let (w, raised) := markSuiteMissing env run w
    (w, .exited raised)
  | .suiteLoaded run (some (suite, cases)) =>
    match beginRun env run suite w with
    | (w, .error raised) => (w, .exited (some raised))
    | (w, .ok run) => (w, .running run cases)
  | .running run cases =>
    let (w, raised) := finishRun env run (executeCases env runId cases {}) w
    (w, .exited raised)
  | .exited raised => (w, .exited raised)

end

end AegisPlatform.Workers
