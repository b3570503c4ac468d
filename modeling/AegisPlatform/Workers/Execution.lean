import AegisPlatform.Workers.Loop

/-! # What an execution commits and publishes

One lemma for each piece of `execute_run` and each way it can end. `Begins` and `Commits` are the
conditions under which a piece goes through; where they fail nothing of the piece is stored, or
only the row marked RUNNING.
-/

namespace AegisPlatform.Workers
open Foundations Domain Db
set_option autoImplicit false
set_option maxHeartbeats 250000

/-! ## Up to the engine -/

/-- The row as `execute_run` marks it before its first step. -/
def begun (env : Env) (run : TestRun) : TestRun :=
  { run with status := .running, startedAt := some env.startedAt }

@[simp] theorem id_begun (env : Env) (run : TestRun) : (begun env run).id = run.id := rfl

@[simp] theorem status_begun (env : Env) (run : TestRun) :
    (begun env run).status = .running := rfl

/-- Nothing between the gauge and the loop raises. -/
structure Begins (env : Env) : Prop where
  firstCommit : env.faults.firstCommit = none
  publishStarted : env.faults.publishStarted ≠ some .cancelled
  newEngine : env.faults.newEngine = none

def startedNews (env : Env) (run : TestRun) (suite : TestSuite) : List (Uuid × RunEvent) :=
  if env.faults.publishStarted = none then [(run.id, .started run.id suite.slug)] else []

section
variable {env : Env} {run row : TestRun} {suite : TestSuite} {w : World}

theorem mem_startedNews {e : Uuid × RunEvent} (h : e ∈ startedNews env run suite) :
    e = (run.id, .started run.id suite.slug) := by
  unfold startedNews at h
  split at h
  · exact List.mem_singleton.mp h
  · cases h

/-- The first commit stores the RUNNING row. -/
theorem updateRun_begun (env : Env) (hrow : w.db.runs.get? run.id = some row) :
    w.incActiveRuns.updateRun run (begun env run) =
      some { w.incActiveRuns with db := w.db.setRun run (begun env run) } := by
  unfold World.updateRun World.incActiveRuns
  rw [Database.updateRun_of_get? _ hrow]
  rfl

theorem beginRun_of_begins (h : Begins env) (hrow : w.db.runs.get? run.id = some row) :
    beginRun env run suite w =
      ({ w.incActiveRuns with
          db := w.db.setRun run (begun env run)
          published := w.published ++ startedNews env run suite }, .ok (begun env run)) := by
  have hupdate := updateRun_begun env hrow
  unfold begun at hupdate
  unfold beginRun startedNews
  simp only [h.firstCommit, h.newEngine, hupdate]
  cases hpub : env.faults.publishStarted with
  | none => rfl
  | some raised =>
    cases raised with
    | exception message =>
      simp only [reduceCtorEq, if_false, List.append_nil]
      rfl
    | cancelled => exact absurd hpub h.publishStarted

/-- A begin that raises leaves the gauge raised; at most the RUNNING row is stored. -/
theorem beginRun_of_not_begins (suite : TestSuite) (h : ¬ Begins env) (hrow : w.db.runs.get? run.id = some row) :
    ∃ w' raised, beginRun env run suite w = (w', .error raised) ∧
      w'.metrics.activeRuns = w.metrics.activeRuns + 1 ∧
      (w'.db = w.db ∨ w'.db = w.db.setRun run (begun env run)) ∧
      (w'.published = w.published ∨
        w'.published = w.published ++ [(run.id, .started run.id suite.slug)]) := by
  have hupdate := updateRun_begun env hrow
  unfold begun at hupdate
  unfold beginRun
  cases hcommit : env.faults.firstCommit with
  | some raised => exact ⟨_, raised, rfl, rfl, Or.inl rfl, Or.inl rfl⟩
  | none =>
    simp only [hupdate]
    cases hpub : env.faults.publishStarted with
    | none =>
      cases hengine : env.faults.newEngine with
      | none => exact absurd ⟨hcommit, by simp [hpub], hengine⟩ h
      | some message => exact ⟨_, _, rfl, rfl, Or.inr rfl, Or.inr rfl⟩
    | some raised =>
      cases raised with
      | cancelled => exact ⟨_, _, rfl, rfl, Or.inr rfl, Or.inl rfl⟩
      | exception message =>
        cases hengine : env.faults.newEngine with
        | none => exact absurd ⟨hcommit, by simp [hpub], hengine⟩ h
        | some message => exact ⟨_, _, rfl, rfl, Or.inr rfl, Or.inl rfl⟩

end

/-! ## The `finally` block -/

/-- The closing commit goes through: the session is usable and the commit itself succeeds. -/
structure Commits (env : Env) (outcome : Except Stopped Progress) : Prop where
  usable : refused outcome = false
  lastCommit : env.faults.lastCommit = none

def finishedNews (env : Env) (run : TestRun) : List (Uuid × RunEvent) :=
  if env.faults.publishFinished = none then [(run.id, finishedEvent run)] else []

def stepNews (run : TestRun) (outcome : Except Stopped Progress) : List (Uuid × RunEvent) :=
  (Except.progress outcome).published.map fun e => (run.id, e)

@[simp] theorem id_closeRun (env : Env) (run : TestRun) (outcome : Except Stopped Progress) :
    (closeRun env run outcome).id = run.id := by
  cases outcome with
  | ok p => rfl
  | error s =>
    obtain ⟨p, raised, usable⟩ := s
    cases raised with
    | exception message => rfl
    | cancelled => rfl

@[simp] theorem finishedAt_closeRun (env : Env) (run : TestRun)
    (outcome : Except Stopped Progress) :
    (closeRun env run outcome).finishedAt = some env.finishedAt := rfl

theorem closeRun_writeBack (env : Env) (run : TestRun) (outcome : Except Stopped Progress) :
    run.writeBack (closeRun env run outcome) run = closeRun env run outcome := by
  apply TestRun.writeBack_loaded
  cases outcome with
  | ok p => rfl
  | error s =>
    obtain ⟨p, raised, usable⟩ := s
    cases raised with
    | exception message => rfl
    | cancelled => rfl

/-- Only a cancellation leaves the row without a terminal status. -/
theorem isTerminal_closeRun (env : Env) {run : TestRun} (hrun : run.status = .running)
    (outcome : Except Stopped Progress) :
    (closeRun env run outcome).status.isTerminal = true ↔
      ∀ s, outcome = .error s → s.raised ≠ .cancelled := by
  cases outcome with
  | ok p =>
    simp only [closeRun, reduceCtorEq, IsEmpty.forall_iff, implies_true, iff_true]
    split
    · rfl
    · rfl
  | error s =>
    obtain ⟨p, raised, usable⟩ := s
    cases raised with
    | exception message => simp [closeRun, RunStatus.isTerminal]
    | cancelled => simp [closeRun, hrun, RunStatus.isTerminal]

@[simp] theorem activeRuns_close (m : Metrics) (run : TestRun) (outcome : Except Stopped Progress) :
    (m.close run outcome).activeRuns = m.activeRuns - 1 := by
  cases outcome with
  | ok p => rfl
  | error s =>
    obtain ⟨p, raised, usable⟩ := s
    cases raised with
    | exception message => rfl
    | cancelled =>
      cases usable with
      | true => rfl
      | false => rfl

section
variable {env : Env} {run row : TestRun} {outcome : Except Stopped Progress} {w : World}

theorem finishRun_of_commits (h : Commits env outcome) (hrow : w.db.runs.get? run.id = some row) :
    (finishRun env run outcome w).1 =
      { db := (w.db.insertStepRows (Except.progress outcome).results
            (Except.progress outcome).healingEvents).setRun run (closeRun env run outcome)
        published := w.published ++ stepNews run outcome ++
            finishedNews env (closeRun env run outcome)
        metrics := w.metrics.close (closeRun env run outcome) outcome } := by
  have hstored : (w.db.insertStepRows (Except.progress outcome).results
      (Except.progress outcome).healingEvents).runs.get? run.id = some row := hrow
  have hupdate := Database.updateRun_of_get? (closeRun env run outcome) hstored
  unfold finishRun finishedNews stepNews
  simp only [h.usable, Bool.false_eq_true, if_false, h.lastCommit, hupdate]
  cases hpub : env.faults.publishFinished with
  | none => simp [World.publish]
  | some raised =>
    cases raised with
    | exception message => simp
    | cancelled => simp

/-- Without the closing commit the database stays as it was, and nobody hears of the end. -/
theorem finishRun_of_not_commits (run : TestRun) (w : World) (h : ¬ Commits env outcome) :
    (finishRun env run outcome w).1 =
      { db := w.db
        published := w.published ++ stepNews run outcome
        metrics := w.metrics.close (closeRun env run outcome) outcome } := by
  unfold finishRun stepNews
  cases hrefused : refused outcome with
  | true => rfl
  | false =>
    cases hlast : env.faults.lastCommit with
    | some raised => rfl
    | none => exact absurd ⟨hrefused, hlast⟩ h

end

/-! ## The whole execution -/

section
variable [Unicode] {env : Env} {runId : Uuid} {w : World} {run : TestRun} {suite : TestSuite}
  {cases : List TestCase}

/-- The executor finds the run queued and its suite in place. -/
structure Found (w : World) (runId : Uuid) (run : TestRun) (suite : TestSuite)
    (cases : List TestCase) : Prop where
  row : w.db.runs.get? runId = some run
  queued : run.status = .queued
  suite : w.db.getWithCases run.suiteId = some (suite, cases)

omit [Unicode] in
theorem Found.id (h : Found w runId run suite cases) : run.id = runId := Table.get?_key h.row

omit [Unicode] in
theorem Found.row_id (h : Found w runId run suite cases) :
    w.db.runs.get? run.id = some run := by
  rw [h.id]
  exact h.row

/-- The world at the start of the loop. -/
def World.begun (w : World) (env : Env) (run : TestRun) (suite : TestSuite) : World :=
  { w.incActiveRuns with
    db := w.db.setRun run (Workers.begun env run)
    published := w.published ++ startedNews env run suite }

omit [Unicode] in
/-- At the start of the loop the row is stored as RUNNING. -/
theorem get?_begun (env : Env) (suite : TestSuite) (hrow : w.db.runs.get? run.id = some run) :
    (w.begun env run suite).db.runs.get? (begun env run).id = some (begun env run) := by
  have h := Database.get?_setRun (begun env run) hrow
  rw [TestRun.writeBack_loaded (by rfl)] at h
  exact h

theorem executeRun_of_begins (h : Found w runId run suite cases) (hb : Begins env) :
    executeRun env runId w =
      finishRun env (begun env run) (executeCases env runId cases {}) (w.begun env run suite) := by
  unfold executeRun
  simp only [h.row, h.queued, h.suite, ne_eq, not_true, if_false,
    beginRun_of_begins hb h.row_id]
  rfl

theorem executeRun_of_not_begins (h : Found w runId run suite cases) (hb : ¬ Begins env) :
    ∃ w' raised, beginRun env run suite w = (w', .error raised) ∧
      executeRun env runId w = (w', some raised) := by
  obtain ⟨w', raised, hbegin, -⟩ := beginRun_of_not_begins suite hb h.row_id
  refine ⟨w', raised, hbegin, ?_⟩
  unfold executeRun
  simp only [h.row, h.queued, h.suite, ne_eq, not_true, if_false, hbegin]

/-- Everything an execution whose closing commit goes through leaves behind. -/
structure Closed (env : Env) (run : TestRun) (suite : TestSuite)
    (outcome : Except Stopped Progress) (w w' : World) : Prop where
  row : w'.db.runs.get? run.id = some (closeRun env (begun env run) outcome)
  others : ∀ j, j ≠ run.id → w'.db.runs.get? j = w.db.runs.get? j
  results : w'.db.stepResults = w.db.stepResults ++ (Except.progress outcome).results
  events : w'.db.healingEvents = w.db.healingEvents.insertAll (fun n e => { e with id := n })
    (fun _ _ => rfl) (Except.progress outcome).healingEvents
  published : w'.published = w.published ++ (startedNews env run suite ++ stepNews run outcome ++
    finishedNews env (closeRun env (begun env run) outcome))
  gauge : w'.metrics.activeRuns = w.metrics.activeRuns

theorem executeRun_closed (h : Found w runId run suite cases) (hb : Begins env)
    (hc : Commits env (executeCases env runId cases {})) :
    Closed env run suite (executeCases env runId cases {}) w (executeRun env runId w).1 := by
  rw [executeRun_of_begins h hb]
  have hrow := get?_begun env suite h.row_id
  generalize executeCases env runId cases {} = outcome at hc ⊢
  rw [finishRun_of_commits hc hrow]
  constructor
  · have hstored : ((w.begun env run suite).db.insertStepRows (Except.progress outcome).results
        (Except.progress outcome).healingEvents).runs.get? (begun env run).id =
          some (begun env run) := hrow
    have hset := Database.get?_setRun (closeRun env (begun env run) outcome) hstored
    rw [closeRun_writeBack] at hset
    exact hset
  · intro j hj
    have hj' : j ≠ (begun env run).id := hj
    rw [Database.get?_setRun_of_ne hj']
    exact Database.get?_setRun_of_ne hj
  · rfl
  · rfl
  · simp only [World.begun, List.append_assoc]
    rfl
  · simp only [activeRuns_close, World.begun, World.incActiveRuns]
    omega

end

/-! ## Executions of the small platform -/

def loginWorld : World := { db := loginDb }

theorem loginWorld_found : Found loginWorld 0 loginRun loginSuite [loginCase] :=
  ⟨rfl, rfl, rfl⟩

def calmEnv (heal : ℕ → HealCall → Except Raised HealingProposal) (faults : Faults := {}) : Env :=
  { startedAt := 1
    finishedAt := 2
    elapsed := 1
    minConfidence := 1 / 2
    snapshotHash := fun html => html
    validationMessage := fun _ => "invalid step"
    heal := heal
    faults := faults }

def giveUp : HealingProposal :=
  { healedSelector := none
    strategy := .none
    confidence := 0
    rationale := "no candidate"
    confidence_nonneg := le_refl 0
    confidence_le_one := zero_le_one }

end AegisPlatform.Workers
