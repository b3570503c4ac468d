import AegisPlatform.Workers.Execution

/-! # Executions in which something raises

For every environment, that is every plan of faults and every healer: when does the clean-up of
`execute_run` restore the gauge and leave a terminal row, and when do the committed counters agree
with the committed rows. Both answers are read off the inputs through `Begins` and `stopIn`.

What is missed is the stretch between the gauge and the `try`, the session after a failed flush, a
cancellation (`finally` commits the row as RUNNING), and the counters, which reach the row only at
the end of the loop.
-/

namespace AegisPlatform.Workers
open Foundations Domain Db
set_option autoImplicit false
set_option maxHeartbeats 250000

section
variable [Unicode]

/-- The loop is left by an `Exception` at a usable session, if at all, and the last commit works. -/
structure Finishes (env : Env) (cases : List TestCase) : Prop where
  stop : ∀ s, stopIn env 0 cases = some s → s.usable = true ∧ s.raised ≠ .cancelled
  lastCommit : env.faults.lastCommit = none

variable {env : Env} {runId : Uuid} {run : TestRun} {suite : TestSuite} {cases : List TestCase}
  {w : World}

/-! ## The outcome of the loop, from its inputs -/

theorem outcome_stop (env : Env) (runId : Uuid) (cases : List TestCase) :
    Stop.Of (stopIn env 0 cases) (executeCases env runId cases {})
      ((tasks 0 cases).map Task.place).length := by
  have h := (executeCases_continues env runId cases {}).ends
  simpa using h

theorem outcome_error {t : Stopped} (h : executeCases env runId cases {} = .error t) :
    ∃ s, stopIn env 0 cases = some s ∧ t.progress.results.length = s.finished ∧
      t.raised = s.raised ∧ t.usable = s.usable := by
  have hstop := outcome_stop env runId cases
  rw [h] at hstop
  cases hs : stopIn env 0 cases with
  | none =>
    rw [hs] at hstop
    exact hstop.elim
  | some s =>
    rw [hs] at hstop
    exact ⟨s, rfl, hstop⟩

theorem outcome_of_stop (runId : Uuid) {s : Stop} (h : stopIn env 0 cases = some s) :
    ∃ t, executeCases env runId cases {} = .error t ∧
      t.progress.results.length = s.finished ∧ t.raised = s.raised ∧ t.usable = s.usable := by
  have hstop := outcome_stop env runId cases
  rw [h] at hstop
  cases ht : executeCases env runId cases {} with
  | ok p =>
    rw [ht] at hstop
    exact hstop.elim
  | error t =>
    rw [ht] at hstop
    exact ⟨t, rfl, hstop⟩

/-- A run commits its results if the loop leaves the session usable. -/
theorem commits_iff (runId : Uuid) (cases : List TestCase) :
    Commits env (executeCases env runId cases {}) ↔ env.faults.lastCommit = none ∧
      ∀ stop, stopIn env 0 cases = some stop → stop.usable = true := by
  constructor
  · intro h
    refine ⟨h.lastCommit, fun stop hstop => ?_⟩
    obtain ⟨t, ht, -, -, husable⟩ := outcome_of_stop runId hstop
    have hrefused := h.usable
    rw [ht] at hrefused
    rw [← husable]
    simpa [refused] using hrefused
  · rintro ⟨hlast, husable⟩
    refine ⟨?_, hlast⟩
    cases houtcome : executeCases env runId cases {} with
    | ok p => rfl
    | error t =>
      obtain ⟨stop, hstop, -, -, hsame⟩ := outcome_error houtcome
      simp [refused, hsame, husable stop hstop]

theorem finishes_iff (runId : Uuid) :
    Finishes env cases ↔ Commits env (executeCases env runId cases {}) ∧
      ∀ t, executeCases env runId cases {} = .error t → t.raised ≠ .cancelled := by
  rw [commits_iff]
  constructor
  · intro h
    refine ⟨⟨h.lastCommit, fun stop hstop => (h.stop stop hstop).1⟩, fun t ht => ?_⟩
    obtain ⟨stop, hstop, -, hraised, -⟩ := outcome_error ht
    rw [hraised]
    exact (h.stop stop hstop).2
  · rintro ⟨⟨hlast, husable⟩, hraised⟩
    refine ⟨fun stop hstop => ⟨husable stop hstop, ?_⟩, hlast⟩
    obtain ⟨t, ht, -, hsame, -⟩ := outcome_of_stop runId hstop
    rw [← hsame]
    exact hraised t ht

/-! ## Events -/

omit [Unicode] in
def isFinished : RunEvent → Bool
  | .finished .. => true
  | .started .. | .stepCompleted .. => false

theorem stepNews_sublist (env : Env) (run : TestRun) (cases : List TestCase) :
    ∃ rs : List StepResult,
      (Except.progress (executeCases env run.id cases {})).results = rs ∧
      (stepNews run (executeCases env run.id cases {})).Sublist
        (rs.map fun r => (run.id, stepCompleted r)) ∧
      ∀ r ∈ rs, r.runId = run.id ∧ r.status ≠ .skipped := by
  obtain ⟨rs, hrs, -, hrows, es, hes, hsub⟩ := (executeCases_continues env run.id cases {}).rows
  simp only [List.nil_append] at hrs hes
  refine ⟨rs, hrs, ?_, hrows⟩
  unfold stepNews
  rw [hes]
  have hmap := hsub.map fun e => (run.id, e)
  rwa [List.map_map] at hmap

/-- The events before the end are no `run.finished`. -/
theorem not_finished_of_mem {e : Uuid × RunEvent}
    (h : e ∈ startedNews env run suite ++ stepNews run (executeCases env run.id cases {})) :
    isFinished e.2 = false := by
  rcases List.mem_append.mp h with h | h
  · rw [mem_startedNews h]
    rfl
  · obtain ⟨rs, -, hsub, -⟩ := stepNews_sublist env run cases
    obtain ⟨r, -, rfl⟩ := List.mem_map.mp (hsub.subset h)
    rfl

omit [Unicode] in
theorem finishedNews_eq {e : Uuid × RunEvent} (h : e ∈ finishedNews env run) :
    e = (run.id, finishedEvent run) := by
  unfold finishedNews at h
  split at h
  · exact List.mem_singleton.mp h
  · cases h

/-- What is published as finished is the closed row. -/
theorem finished_of_published {run' : TestRun} {e : Uuid × RunEvent}
    (h : e ∈ startedNews env run suite ++ stepNews run (executeCases env run.id cases {}) ++
      finishedNews env run') (hfinished : isFinished e.2 = true) :
    e = (run'.id, finishedEvent run') := by
  rcases List.mem_append.mp h with h | h
  · rw [not_finished_of_mem h] at hfinished
    cases hfinished
  · exact finishedNews_eq h

/-! ## The clean-up -/

omit [Unicode] in
/-- The gauge is back, the row is not RUNNING, and no `run.finished` was sent too early. -/
structure CleanExit (runId : Uuid) (w w' : World) : Prop where
  gauge : w'.metrics.activeRuns = w.metrics.activeRuns
  row : ∀ r, w'.db.runs.get? runId = some r → r.status ≠ .running
  news : ∃ news, w'.published = w.published ++ news ∧
    ∀ channel status passed failed healed durationMs,
      (channel, RunEvent.finished status passed failed healed durationMs) ∈ news →
        status.isTerminal = true

omit [Unicode] in
theorem status_closeRun (env : Env) (run : TestRun) (outcome : Except Stopped Progress) :
    (closeRun env (begun env run) outcome).status = .running ↔
      ¬ (closeRun env (begun env run) outcome).status.isTerminal = true := by
  cases outcome with
  | ok p =>
    simp only [closeRun]
    split
    · simp [RunStatus.isTerminal]
    · simp [RunStatus.isTerminal]
  | error s =>
    obtain ⟨p, raised, usable⟩ := s
    cases raised with
    | exception message => simp [closeRun, RunStatus.isTerminal]
    | cancelled => simp [closeRun, begun, RunStatus.isTerminal]

theorem cleanExit_of_closed (h : Found w runId run suite cases) {w' : World}
    (hclosed : Closed env run suite (executeCases env runId cases {}) w w')
    (hterminal : (closeRun env (begun env run) (executeCases env runId cases {})).status.isTerminal
      = true) : CleanExit runId w w' := by
  have hid := h.id
  subst hid
  refine ⟨hclosed.gauge, ?_, _, hclosed.published, ?_⟩
  · intro r hr
    rw [hclosed.row] at hr
    obtain rfl := Option.some.inj hr
    rw [Ne, status_closeRun]
    simpa using hterminal
  · intro channel status passed failed healed durationMs hmem
    have heq := finished_of_published hmem rfl
    simp only [finishedEvent, Prod.mk.injEq, RunEvent.finished.injEq] at heq
    rw [heq.2.1]
    exact hterminal

/-- The clean-up works exactly when nothing raises outside the `try`, the loop is left by an
`Exception` at a usable session if at all, and the last commit works. -/
theorem cleanExit_iff (h : Found w runId run suite cases) :
    CleanExit runId w (executeRun env runId w).1 ↔ Begins env ∧ Finishes env cases := by
  by_cases hb : Begins env
  · by_cases hc : Commits env (executeCases env runId cases {})
    · have hclosed := executeRun_closed h hb hc
      have hterminal := isTerminal_closeRun env (status_begun env run)
        (executeCases env runId cases {})
      constructor
      · intro hclean
        refine ⟨hb, (finishes_iff runId).mpr ⟨hc, ?_⟩⟩
        apply hterminal.mp
        have hrow := hclean.row _ (h.id ▸ hclosed.row)
        rw [Ne, status_closeRun] at hrow
        simpa using hrow
      · rintro ⟨-, hf⟩
        exact cleanExit_of_closed h hclosed (hterminal.mpr ((finishes_iff runId).mp hf).2)
    · constructor
      · intro hclean
        have hrow := get?_begun env suite h.row_id
        have hfinish := finishRun_of_not_commits (begun env run) (w.begun env run suite) hc
        rw [executeRun_of_begins h hb, hfinish] at hclean
        exact absurd rfl (hclean.row _ (h.id ▸ hrow))
      · rintro ⟨-, hf⟩
        exact absurd ((finishes_iff runId).mp hf).1 hc
  · constructor
    · intro hclean
      obtain ⟨w', raised, hbegin, hexec⟩ := executeRun_of_not_begins h hb
      obtain ⟨w'', raised', hbegin', hgauge, -⟩ :=
        beginRun_of_not_begins suite hb h.row_id
      rw [hbegin] at hbegin'
      obtain ⟨rfl, -⟩ := Prod.mk.inj hbegin'
      rw [hexec] at hclean
      have hsame : w'.metrics.activeRuns = w.metrics.activeRuns := hclean.gauge
      omega
    · rintro ⟨hb', -⟩
      exact absurd hb' hb

end

/-- The engine cannot be built: the gauge stays raised and the row RUNNING. -/
theorem no_engine_no_cleanup :
    Found loginWorld 0 loginRun loginSuite [loginCase] ∧
      ¬ CleanExit 0 loginWorld (@executeRun asciiUnicode
        (calmEnv (fun _ _ => .ok giveUp) { newEngine := some "No module named 'anthropic'" })
        0 loginWorld).1 := by
  refine ⟨loginWorld_found, fun h => ?_⟩
  exact absurd h.gauge (by decide)

def brokenHealer : Env := calmEnv fun _ _ => .error (.exception "no snapshot")

/-- The healer breaks in the middle of the loop, and the run is cleaned up after. -/
theorem login_cleanExit :
    CleanExit 0 loginWorld (@executeRun asciiUnicode brokenHealer 0 loginWorld).1 := by
  let _ : Unicode := asciiUnicode
  refine (cleanExit_iff loginWorld_found).mpr ⟨⟨rfl, by decide, rfl⟩, ⟨?_, rfl⟩⟩
  intro s hs
  have hstop : stopIn brokenHealer 0 [loginCase] = some ⟨1, .exception "no snapshot", true⟩ := by
    decide
  rw [hstop] at hs
  obtain rfl := Option.some.inj hs
  exact ⟨rfl, nofun⟩

/-! ## The counters of a run that raised -/

section
variable [Unicode]

omit [Unicode] in
/-- A run nothing has been recorded for. -/
structure Fresh (db : Database) (run : TestRun) : Prop where
  passed : run.passedCount = 0
  failed : run.failedCount = 0
  healed : run.healedCount = 0
  results : db.resultsOf run.id = []

omit [Unicode] in
def completedAs (status : StepStatus) : RunEvent → Bool
  | .stepCompleted _ _ s _ => s == status
  | .started .. | .finished .. => false

omit [Unicode] in
def completedCount (channel : Uuid) (status : StepStatus) (news : List (Uuid × RunEvent)) : ℕ :=
  news.countP fun e => e.1 == channel && completedAs status e.2

omit [Unicode] in
/-- The committed counters are those of the committed rows, the published ones those of the
events published before them. -/
structure CountsAgree (runId : Uuid) (w w' : World) : Prop where
  row : ∀ r, w'.db.runs.get? runId = some r →
    r.passedCount = countOf .passed (w'.db.resultsOf runId) ∧
      r.failedCount = countOf .failed (w'.db.resultsOf runId) ∧
      r.healedCount = countOf .healed (w'.db.resultsOf runId)
  news : ∃ news, w'.published = w.published ++ news ∧
    ∀ before status passed failed healed durationMs after,
      news = before ++ (runId, RunEvent.finished status passed failed healed durationMs) :: after →
        passed = completedCount runId .passed before ∧
          failed = completedCount runId .failed before ∧
          healed = completedCount runId .healed before

variable {env : Env} {runId : Uuid} {run : TestRun} {suite : TestSuite} {cases : List TestCase}
  {w w' : World}

omit [Unicode] in
/-- An `Exception` leaves the counters of the row as they were loaded. -/
theorem counts_closeRun_exception (env : Env) (run : TestRun) (p : Progress) (message : String)
    (usable : Bool) :
    (closeRun env (begun env run) (.error ⟨p, .exception message, usable⟩)).passedCount =
        run.passedCount ∧
      (closeRun env (begun env run) (.error ⟨p, .exception message, usable⟩)).failedCount =
        run.failedCount ∧
      (closeRun env (begun env run) (.error ⟨p, .exception message, usable⟩)).healedCount =
        run.healedCount :=
  ⟨rfl, rfl, rfl⟩

theorem resultsOf_closed (hfresh : Fresh w.db run)
    (hclosed : Closed env run suite (executeCases env run.id cases {}) w w') :
    w'.db.resultsOf run.id =
        (Except.progress (executeCases env run.id cases {})).results ∧
      ∀ r ∈ w'.db.resultsOf run.id, r.status ≠ .skipped := by
  obtain ⟨rs, hrs, -, hrows⟩ := stepNews_sublist env run cases
  have heq : w'.db.resultsOf run.id = rs := by
    have hempty := hfresh.results
    unfold Database.resultsOf at hempty ⊢
    rw [hclosed.results, List.filter_append, hempty, hrs, List.nil_append, List.filter_eq_self]
    intro r hr
    simpa using (hrows r hr).1
  rw [heq, hrs]
  exact ⟨rfl, fun r hr => (hrows r hr).2⟩

omit [Unicode] in
theorem completedCount_eq_zero {channel : Uuid} {status : StepStatus}
    {news : List (Uuid × RunEvent)} (h : ∀ e ∈ news, completedAs status e.2 = false) :
    completedCount channel status news = 0 := by
  unfold completedCount
  rw [List.countP_eq_zero]
  intro e he
  simp [h e he]

omit [Unicode] in
/-- No step is reported by what is published around the loop. -/
theorem around_not_completed (env : Env) (run run' : TestRun) (suite : TestSuite)
    {status : StepStatus} {e : Uuid × RunEvent}
    (h : e ∈ startedNews env run suite ++ finishedNews env run') :
    completedAs status e.2 = false := by
  rcases List.mem_append.mp h with h | h
  · rw [mem_startedNews h]
    rfl
  · rw [finishedNews_eq h]
    rfl

/-- With nothing recorded before it, an exception commits and publishes zeros throughout. -/
theorem countsAgree_of_no_rows (hfresh : Fresh w.db run) {p : Progress} {message : String}
    {usable : Bool}
    (hout : executeCases env run.id cases {} = .error ⟨p, .exception message, usable⟩)
    (hzero : p.results = [])
    (hclosed : Closed env run suite (executeCases env run.id cases {}) w w') :
    CountsAgree run.id w w' := by
  have hresults : w'.db.resultsOf run.id = [] := by
    rw [(resultsOf_closed hfresh hclosed).1, hout]
    exact hzero
  have hsteps : stepNews run (executeCases env run.id cases {}) = [] := by
    obtain ⟨rs, hrs, hsub, -⟩ := stepNews_sublist env run cases
    rw [hout] at hrs
    change p.results = rs at hrs
    rw [← hrs, hzero] at hsub
    exact List.sublist_nil.mp hsub
  have hnews := hclosed.published
  rw [hsteps, List.append_nil] at hnews
  have hrow := hclosed.row
  rw [hout] at hrow hnews
  obtain ⟨hpassed, hfailed, hhealed⟩ := counts_closeRun_exception env run p message usable
  rw [hfresh.passed] at hpassed
  rw [hfresh.failed] at hfailed
  rw [hfresh.healed] at hhealed
  generalize closeRun env (begun env run) (.error ⟨p, .exception message, usable⟩) = run' at *
  constructor
  · intro r hr
    rw [hrow] at hr
    obtain rfl := Option.some.inj hr
    rw [hresults, hpassed, hfailed, hhealed]
    exact ⟨rfl, rfl, rfl⟩
  · refine ⟨_, hnews, ?_⟩
    intro before status passed failed healed durationMs after hsplit
    have hbefore : ∀ s, completedCount run.id s before = 0 := by
      intro s
      apply completedCount_eq_zero
      intro e he
      apply around_not_completed env run run' suite
      rw [hsplit]
      exact List.mem_append_left _ he
    have hmem : (run.id, RunEvent.finished status passed failed healed durationMs) ∈
        startedNews env run suite ++ stepNews run (executeCases env run.id cases {}) ++
          finishedNews env run' := by
      rw [hsteps, List.append_nil, hsplit]
      simp
    have heq := finished_of_published hmem rfl
    simp only [finishedEvent, Prod.mk.injEq, RunEvent.finished.injEq] at heq
    obtain ⟨-, -, rfl, rfl, rfl, -⟩ := heq
    rw [hbefore, hbefore, hbefore]
    exact ⟨hpassed, hfailed, hhealed⟩

/-- An exception in the loop commits true counters exactly when it comes before every row. -/
theorem countsAgree_iff (h : Found w runId run suite cases) (hfresh : Fresh w.db run)
    (hb : Begins env) (hlast : env.faults.lastCommit = none) {finished : ℕ} {message : String}
    (hstop : stopIn env 0 cases = some ⟨finished, .exception message, true⟩) :
    CountsAgree runId w (executeRun env runId w).1 ↔ finished = 0 := by
  obtain ⟨⟨p, raised, usable⟩, hout, hlen, hraised, husable⟩ :=
    outcome_of_stop runId hstop
  simp only at hlen hraised husable
  subst hraised husable
  have hid := h.id
  subst hid
  have hc : Commits env (executeCases env run.id cases {}) := by
    rw [hout]
    exact ⟨rfl, hlast⟩
  have hclosed := executeRun_closed h hb hc
  constructor
  · intro hagree
    obtain ⟨hresults, hskipped⟩ := resultsOf_closed hfresh hclosed
    have hrow := hclosed.row
    rw [hout] at hrow
    obtain ⟨hpassed, hfailed, hhealed⟩ := hagree.row _ hrow
    obtain ⟨hp, hf, hh⟩ := counts_closeRun_exception env run p message true
    have hsum := countOf_sum _ hskipped
    rw [← hpassed, ← hfailed, ← hhealed, hp, hf, hh, hfresh.passed, hfresh.failed,
      hfresh.healed, hresults, hout] at hsum
    change 0 + 0 + 0 = p.results.length at hsum
    omega
  · intro hzero
    apply countsAgree_of_no_rows hfresh hout _ hclosed
    apply List.eq_nil_of_length_eq_zero
    omega

end

theorem loginRun_fresh : Fresh loginWorld.db loginRun := ⟨rfl, rfl, rfl, rfl⟩

/-- One step passed before the healer broke, and the ERROR row says none did. -/
theorem passed_step_not_counted :
    Found loginWorld 0 loginRun loginSuite [loginCase] ∧ Fresh loginWorld.db loginRun ∧
      @stopIn asciiUnicode brokenHealer 0 [loginCase] =
        some ⟨1, .exception "no snapshot", true⟩ ∧
      ¬ CountsAgree 0 loginWorld (@executeRun asciiUnicode brokenHealer 0 loginWorld).1 := by
  refine ⟨loginWorld_found, loginRun_fresh, by decide, fun h => ?_⟩
  have hcounts := h.row _ rfl
  exact absurd hcounts.1 (by decide)

theorem brokenHealer_countsAgree_iff :
    CountsAgree 0 loginWorld (@executeRun asciiUnicode brokenHealer 0 loginWorld).1 ↔ 1 = 0 :=
  @countsAgree_iff asciiUnicode brokenHealer 0 loginRun loginSuite [loginCase] loginWorld
    loginWorld_found loginRun_fresh ⟨rfl, by decide, rfl⟩ rfl 1 "no snapshot" (by decide)

end AegisPlatform.Workers
