import AegisPlatform.Workers.Execution
import Mathlib.Data.List.Forall2

/-! # Runs the database accepts

An execution whose commits and flushes go through and whose task nobody cancels; a failing publish
is swallowed. If every step of its suite can be recorded, the tables hold those records, one for
each step, and the run ends PASSED or FAILED. If it does not end ERROR, every step was recorded.
-/

namespace AegisPlatform.Workers
open Foundations Domain Db
set_option autoImplicit false
set_option maxHeartbeats 250000

/-- No commit and no flush fails, and no cancellation arrives. -/
structure Accepting (env : Env) : Prop where
  begins : Begins env
  flush : ∀ k, env.faults.flush k = none
  publishStep : ∀ k, env.faults.publishStep k ≠ some .cancelled
  lastCommit : env.faults.lastCommit = none

/-- The locals apart from the events, which a failing publish drops. -/
def Progress.tables (p : Progress) : Progress := { p with published := [] }

theorem Progress.tables_push {p q : Progress} (h : p.tables = q.tables) (r : StepRecord) :
    (p.push r).tables = (q.push r).tables := by
  have hpush : ∀ p : Progress, (p.push r).tables = (p.tables.flushed r).tables := fun _ => rfl
  rw [hpush p, hpush q, h]

theorem Progress.tables_pushAll {p q : Progress} (h : p.tables = q.tables)
    (rs : List StepRecord) : (p.pushAll rs).tables = (q.pushAll rs).tables := by
  induction rs generalizing p q with
  | nil => exact h
  | cons r rs ih => exact ih (Progress.tables_push h r)

theorem Progress.tables_eq {p q : Progress} (h : p.tables = q.tables) :
    p.passed = q.passed ∧ p.failed = q.failed ∧ p.healed = q.healed ∧ p.results = q.results ∧
      p.healingEvents = q.healingEvents := by
  have hpassed := congrArg Progress.passed h
  have hfailed := congrArg Progress.failed h
  have hhealed := congrArg Progress.healed h
  have hresults := congrArg Progress.results h
  have hevents := congrArg Progress.healingEvents h
  exact ⟨hpassed, hfailed, hhealed, hresults, hevents⟩

variable [Unicode] {env : Env} {runId : Uuid}

/-! ## The loop -/

theorem executeStep_accepting (h : Accepting env) {t : Task} {p : Progress} {r : StepRecord}
    (hp : t.position = p.results.length) (hr : record env runId t = .ok r) :
    ∃ p', executeStep env runId t.case t.page t.index t.step p = .ok p' ∧
      p'.tables = (p.push r).tables := by
  rw [executeStep_eq env runId t p hp, hr, h.flush]
  dsimp only
  cases hpub : env.faults.publishStep t.position with
  | none => exact ⟨_, rfl, rfl⟩
  | some raised =>
    cases raised with
    | exception message => exact ⟨_, rfl, rfl⟩
    | cancelled => exact absurd hpub (h.publishStep t.position)

theorem executeSteps_accepting (h : Accepting env) {recordOf : Task → StepRecord}
    (case : TestCase) (page : String) (index : ℕ) (steps : List StepSpec) {p : Progress}
    (hrecord : ∀ t ∈ tasksFrom case page p.results.length index steps,
      record env runId t = .ok (recordOf t)) :
    ∃ p', executeSteps env runId case page index steps p = .ok p' ∧ p'.tables =
      (p.pushAll ((tasksFrom case page p.results.length index steps).map recordOf)).tables := by
  induction steps generalizing p index with
  | nil => exact ⟨p, rfl, rfl⟩
  | cons step rest ih =>
    let t : Task := ⟨p.results.length, case, page, index, step⟩
    have ht : record env runId t = .ok (recordOf t) := hrecord t List.mem_cons_self
    obtain ⟨p₁, hstep, htables⟩ := executeStep_accepting h rfl ht
    have hresults : p₁.results = p.results ++ [(recordOf t).result] :=
      (Progress.tables_eq htables).2.2.2.1
    have hlen : p₁.results.length = p.results.length + 1 := by
      rw [hresults]
      simp
    have hrest : ∀ t' ∈ tasksFrom case page p₁.results.length (index + 1) rest,
        record env runId t' = .ok (recordOf t') := by
      rw [hlen]
      exact fun t' ht' => hrecord t' (List.mem_cons_of_mem t ht')
    obtain ⟨p', hsteps, htables'⟩ := ih (index + 1) hrest
    rw [hlen] at htables'
    refine ⟨p', ?_, htables'.trans (Progress.tables_pushAll htables _)⟩
    unfold executeSteps
    dsimp only [t] at hstep
    rw [hstep]
    exact hsteps

theorem executeCases_accepting (h : Accepting env) {recordOf : Task → StepRecord}
    (cases : List TestCase) {p : Progress}
    (hvalid : ∀ case ∈ cases, ∀ s ∈ case.steps, (StepSpec.modelValidate s).isSome)
    (hrecord : ∀ t ∈ tasks p.results.length cases, record env runId t = .ok (recordOf t)) :
    ∃ p', executeCases env runId cases p = .ok p' ∧
      p'.tables = (p.pushAll ((tasks p.results.length cases).map recordOf)).tables := by
  induction cases generalizing p with
  | nil => exact ⟨p, rfl, rfl⟩
  | cons case rest ih =>
    have hval := validateSteps_of_valid env (hvalid case List.mem_cons_self)
    have hcase : ∀ t ∈ caseTasks p.results.length case, record env runId t = .ok (recordOf t) :=
      fun t ht => hrecord t (List.mem_append_left _ ht)
    obtain ⟨p₁, hsteps, htables⟩ := executeSteps_accepting h case (buildPage (validSteps case)) 0
      (validSteps case) hcase
    have hresults : p₁.results = (p.pushAll ((caseTasks p.results.length case).map
        recordOf)).results := (Progress.tables_eq htables).2.2.2.1
    have hlen : p₁.results.length = p.results.length + (validSteps case).length := by
      rw [hresults, pushAll_eq]
      simp [length_caseTasks]
    have hrest : ∀ t ∈ tasks p₁.results.length rest, record env runId t = .ok (recordOf t) := by
      rw [hlen]
      exact fun t ht => hrecord t (List.mem_append_right _ ht)
    obtain ⟨p', hcases, htables'⟩ := ih (fun c hc => hvalid c (List.mem_cons_of_mem case hc)) hrest
    rw [hlen] at htables'
    refine ⟨p', ?_, ?_⟩
    · rw [executeCases_cons rest hval hsteps]
      exact hcases
    · unfold tasks
      rw [List.map_append, Progress.pushAll_append]
      exact htables'.trans (Progress.tables_pushAll htables _)

/-! ## The tables of the run -/

/-- The tables, the counters and the status of a run, read off the records of its steps. -/
structure Recorded (runId : Uuid) (w w' : World) (run' : TestRun) (rs : List StepRecord) :
    Prop where
  row : w'.db.runs.get? runId = some run'
  results : w'.db.stepResults = w.db.stepResults ++ rs.map StepRecord.result
  events : w'.db.healingEvents.rows = w.db.healingEvents.rows ++
    (rs.filterMap StepRecord.event).mapIdx fun i e => { e with id := w.db.healingEvents.next + i }
  passed : run'.passedCount = countOf .passed (rs.map StepRecord.result)
  failed : run'.failedCount = countOf .failed (rs.map StepRecord.result)
  healed : run'.healedCount = countOf .healed (rs.map StepRecord.result)
  status : run'.status =
    if ∀ r ∈ rs, r.result.status ≠ .failed then .passed else .failed

variable {w : World} {run : TestRun} {suite : TestSuite} {cases : List TestCase}

/-- Every step of the run can be recorded. -/
theorem executeRun_recorded (hfound : Found w runId run suite cases) (h : Accepting env)
    {recordOf : Task → StepRecord}
    (hvalid : ∀ case ∈ cases, ∀ s ∈ case.steps, (StepSpec.modelValidate s).isSome)
    (hrecord : ∀ t ∈ tasks 0 cases, record env runId t = .ok (recordOf t)) :
    ∃ run', Recorded runId w (executeRun env runId w).1 run' ((tasks 0 cases).map recordOf) := by
  obtain ⟨p, hloop, htables⟩ := executeCases_accepting (p := {}) h cases hvalid hrecord
  have hc : Commits env (executeCases env runId cases {}) := by
    rw [hloop]
    exact ⟨rfl, h.lastCommit⟩
  have hclosed := executeRun_closed hfound h.begins hc
  rw [hloop] at hclosed
  have hid := hfound.id
  rw [pushAll_eq] at htables
  obtain ⟨hpassed, hfailed, hhealed, hresults, hevents⟩ := Progress.tables_eq htables
  dsimp only [List.length_nil] at hpassed hfailed hhealed hresults hevents
  rw [Nat.zero_add] at hpassed hfailed hhealed
  rw [List.nil_append] at hresults hevents
  refine ⟨closeRun env (begun env run) (.ok p), ?_⟩
  constructor
  case row => exact hid ▸ hclosed.row
  case results =>
    rw [hclosed.results]
    exact congrArg (w.db.stepResults ++ ·) hresults
  case events =>
    rw [hclosed.events, Table.rows_insertAll]
    show _ ++ p.healingEvents.mapIdx _ = _
    rw [hevents]
  case passed => exact hpassed
  case failed => exact hfailed
  case healed => exact hhealed
  case status =>
    have hzero := countOf_eq_zero .failed (((tasks 0 cases).map recordOf).map StepRecord.result)
    rw [← hfailed, List.forall_mem_map] at hzero
    unfold closeRun
    simp only [hzero]

/-- What holds of the record of each step holds of the rows of the run, step by step. -/
theorem executeRun_forall {P : Task → StepRecord → Prop}
    (hfound : Found w runId run suite cases) (h : Accepting env)
    (hvalid : ∀ case ∈ cases, ∀ s ∈ case.steps, (StepSpec.modelValidate s).isSome)
    (hP : ∀ t ∈ tasks 0 cases, ∃ r, record env runId t = .ok r ∧ P t r) :
    ∃ run' rs, Recorded runId w (executeRun env runId w).1 run' rs ∧
      List.Forall₂ (fun t r => record env runId t = .ok r ∧ P t r) (tasks 0 cases) rs := by
  let recordOf : Task → StepRecord := fun t =>
    (record env runId t).toOption.getD { result := taskResult runId t .passed, event := none }
  have hrecord : ∀ t ∈ tasks 0 cases, record env runId t = .ok (recordOf t) ∧ P t (recordOf t) := by
    intro t ht
    obtain ⟨r, hr, hPr⟩ := hP t ht
    have hsame : recordOf t = r := by
      simp only [recordOf, hr, Except.toOption, Option.getD_some]
    rw [hsame]
    exact ⟨hr, hPr⟩
  obtain ⟨run', hrecorded⟩ := executeRun_recorded hfound h hvalid fun t ht => (hrecord t ht).1
  refine ⟨run', _, hrecorded, ?_⟩
  rw [List.forall₂_map_right_iff, List.forall₂_same]
  exact hrecord

/-- The same for what holds of the record of each drifted step; the others pass. -/
theorem executeRun_drifted {P : Task → StepRecord → Prop}
    (hfound : Found w runId run suite cases) (h : Accepting env)
    (hvalid : ∀ case ∈ cases, ∀ s ∈ case.steps, (StepSpec.modelValidate s).isSome)
    (hP : ∀ t ∈ tasks 0 cases, t.drifted = true → ∃ r, record env runId t = .ok r ∧ P t r) :
    ∃ run' rs, Recorded runId w (executeRun env runId w).1 run' rs ∧
      List.Forall₂ (fun t r => record env runId t = .ok r ∧ (t.drifted = true → P t r))
        (tasks 0 cases) rs := by
  refine executeRun_forall hfound h hvalid ?_
  intro t ht
  by_cases hdrift : t.drifted = true
  · obtain ⟨r, hr, hPr⟩ := hP t ht hdrift
    exact ⟨r, hr, fun _ => hPr⟩
  · exact ⟨_, record_clean hdrift, fun hdrifted => absurd hdrifted hdrift⟩

/-! ## Runs that do not end in ERROR -/

omit [Unicode] in
theorem validateSteps_error {steps : List Json} {raised : Raised}
    (h : validateSteps env steps = .error raised) : ∃ message, raised = .exception message := by
  induction steps with
  | nil => cases h
  | cons s rest ih =>
    unfold validateSteps at h
    cases hs : StepSpec.modelValidate s with
    | none =>
      simp only [hs, Except.error.injEq] at h
      exact ⟨_, h.symm⟩
    | some step =>
      simp only [hs] at h
      cases hrest : validateSteps env rest with
      | error raised' =>
        simp only [hrest, Except.error.injEq] at h
        exact ih (h ▸ hrest)
      | ok steps => simp [hrest] at h

/-- The loop goes through only if every step is valid and stops nothing. -/
theorem stopIn_none {position : ℕ} {cases : List TestCase} (h : stopIn env position cases = none) :
    (∀ case ∈ cases, ∀ s ∈ case.steps, (StepSpec.modelValidate s).isSome) ∧
      ∀ t ∈ tasks position cases, stopAt env t = none := by
  induction cases generalizing position with
  | nil => exact ⟨fun _ h => absurd h List.not_mem_nil, fun _ h => absurd h List.not_mem_nil⟩
  | cons case rest ih =>
    unfold stopIn at h
    cases hval : validateSteps env case.steps with
    | error raised => simp [hval] at h
    | ok steps =>
      simp only [hval] at h
      cases hcase : (caseTasks position case).findSome? (stopAt env) with
      | some stop => simp [hcase] at h
      | none =>
        simp only [hcase] at h
        obtain ⟨hvalid, hnone⟩ := ih h
        obtain ⟨heq, hlen⟩ := validateSteps_ok hval
        rw [heq] at hlen
        constructor
        · intro c hc
          rcases List.mem_cons.mp hc with rfl | hc
          · exact List.filterMap_length_eq_length.mp hlen
          · exact hvalid c hc
        · intro t ht
          rcases List.mem_append.mp ht with ht | ht
          · exact List.findSome?_eq_none_iff.mp hcase t ht
          · exact hnone t ht

/-- What stops an accepting run is an exception, and the session can still commit. -/
theorem stopIn_exception (h : Accepting env) {position : ℕ} {cases : List TestCase}
    (hheal : ∀ k call, env.heal k call ≠ .error .cancelled) {stop : Stop}
    (hstop : stopIn env position cases = some stop) :
    stop.usable = true ∧ ∃ message, stop.raised = .exception message := by
  induction cases generalizing position with
  | nil => cases hstop
  | cons case rest ih =>
    unfold stopIn at hstop
    cases hval : validateSteps env case.steps with
    | error raised =>
      simp only [hval, Option.some.injEq] at hstop
      subst hstop
      exact ⟨rfl, validateSteps_error hval⟩
    | ok steps =>
      simp only [hval] at hstop
      cases hcase : (caseTasks position case).findSome? (stopAt env) with
      | none =>
        simp only [hcase] at hstop
        exact ih hstop
      | some stop' =>
        simp only [hcase, Option.some.injEq] at hstop
        subst hstop
        obtain ⟨t, -, hat⟩ := List.exists_of_findSome?_eq_some hcase
        unfold stopAt at hat
        cases hraises : healRaises env t with
        | none =>
          simp only [hraises, h.flush] at hat
          split at hat
          · next hpub => exact absurd hpub (h.publishStep t.position)
          · cases hat
          · cases hat
        | some raised =>
          simp only [hraises, Option.some.injEq] at hat
          subst hat
          refine ⟨rfl, ?_⟩
          unfold healRaises at hraises
          split at hraises
          · cases hcall : env.heal t.position (healCall t.page t.step) with
            | ok proposal => simp [hcall] at hraises
            | error raised' =>
              simp only [hcall, Option.some.injEq] at hraises
              subst hraises
              cases raised' with
              | exception message => exact ⟨message, rfl⟩
              | cancelled => exact absurd hcall (hheal _ _)
          · cases hraises

/-- An accepting run that does not end in ERROR has recorded every step. -/
theorem recorded_of_not_error (hfound : Found w runId run suite cases) (h : Accepting env)
    (hheal : ∀ k call, env.heal k call ≠ .error .cancelled)
    (hnot : ∀ run', (executeRun env runId w).1.db.runs.get? runId = some run' →
      run'.status ≠ .error) :
    (∀ case ∈ cases, ∀ s ∈ case.steps, (StepSpec.modelValidate s).isSome) ∧
      ∀ t ∈ tasks 0 cases, ∃ r, record env runId t = .ok r := by
  have hends := (executeCases_continues env runId cases {}).ends
  have hzero : ({} : Progress).results.length = 0 := rfl
  rw [hzero] at hends
  have hclosed := fun hcommits => executeRun_closed hfound h.begins hcommits
  generalize executeCases env runId cases {} = outcome at hends hclosed
  cases hstop : stopIn env 0 cases with
  | none =>
    obtain ⟨hvalid, hnone⟩ := stopIn_none hstop
    refine ⟨hvalid, fun t ht => ?_⟩
    cases hrecord : record env runId t with
    | ok r => exact ⟨r, rfl⟩
    | error raised =>
      have hraises := (record_error_iff env runId t raised).mp hrecord
      have hat := hnone t ht
      unfold stopAt at hat
      simp [hraises] at hat
  | some stop =>
    obtain ⟨husable, message, hraised⟩ := stopIn_exception h hheal hstop
    rw [hstop] at hends
    cases outcome with
    | ok p => exact hends.elim
    | error stopped =>
      obtain ⟨-, hraised', husable'⟩ := hends
      have hcommits : Commits env (.error stopped) :=
        ⟨by simp [refused, husable', husable], h.lastCommit⟩
      have hrow := (hclosed hcommits).row
      rw [hfound.id] at hrow
      obtain ⟨p, raised, usable⟩ := stopped
      dsimp only at hraised'
      rw [hraised', hraised] at hrow
      exact absurd rfl (hnot _ hrow)

end AegisPlatform.Workers
