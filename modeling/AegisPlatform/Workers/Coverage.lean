import AegisPlatform.Workers.Execution

/-! # The cases a run executes

`execute_run` goes through the cases of its suite as it finds them, whatever `is_active` says of
them. `executedCases` are those the loop gets to; a run that ends PASSED or FAILED got to all of
them, and wrote a row for each of their steps.
-/

namespace AegisPlatform.Workers
open Foundations Domain Db
set_option autoImplicit false
set_option maxHeartbeats 250000

section
variable [Unicode]

/-- The cases the loop gets to before something stops it. -/
def reachedCases (env : Env) (runId : Uuid) : List TestCase → Progress → List TestCase
  | [], _ => []
  | case :: rest, p =>
    case ::
      match validateSteps env case.steps with
      | .error _ => []
      | .ok steps =>
        match executeSteps env runId case (buildPage steps) 0 steps p with
        | .error _ => []
        | .ok p' => reachedCases env runId rest p'

/-- The cases an execution of the run gets to. -/
def executedCases (env : Env) (runId : Uuid) (w : World) : List TestCase :=
  match w.db.runs.get? runId with
  | none => []
  | some run =>
    if run.status ≠ .queued then []
    else
      match w.db.getWithCases run.suiteId with
      | none => []
      | some (suite, cases) =>
        match (beginRun env run suite w).2 with
        | .error _ => []
        | .ok _ => reachedCases env runId cases {}

theorem reachedCases_of_ok {env : Env} {runId : Uuid} {cases : List TestCase} {p p' : Progress}
    (h : executeCases env runId cases p = .ok p') : reachedCases env runId cases p = cases := by
  induction cases generalizing p with
  | nil => rfl
  | cons case rest ih =>
    unfold executeCases at h
    unfold reachedCases
    cases hval : validateSteps env case.steps with
    | error raised => simp [hval] at h
    | ok steps =>
      simp only [hval] at h ⊢
      cases hsteps : executeSteps env runId case (buildPage steps) 0 steps p with
      | error stopped => simp [hsteps] at h
      | ok p₁ =>
        simp only [hsteps] at h ⊢
        rw [ih h]

variable {env : Env} {runId : Uuid} {w : World} {run run' : TestRun} {suite : TestSuite}
  {cases : List TestCase}

omit [Unicode] in
/-- PASSED and FAILED are how the loop ends, not how it is left. -/
theorem closeRun_ok {outcome : Except Stopped Progress}
    (h : (closeRun env (begun env run) outcome).status = .passed ∨
      (closeRun env (begun env run) outcome).status = .failed) : ∃ p, outcome = .ok p := by
  cases outcome with
  | ok p => exact ⟨p, rfl⟩
  | error s =>
    obtain ⟨p, raised, usable⟩ := s
    cases raised with
    | exception message => simp [closeRun] at h
    | cancelled => simp [closeRun] at h

/-- A run that was found QUEUED and ends PASSED or FAILED went through its loop. -/
theorem finished_run (hfound : Found w runId run suite cases)
    (hrow : (executeRun env runId w).1.db.runs.get? runId = some run')
    (hend : run'.status = .passed ∨ run'.status = .failed) :
    ∃ p, Begins env ∧ executeCases env runId cases {} = .ok p ∧
      run' = closeRun env (begun env run) (.ok p) ∧
      (executeRun env runId w).1.db.stepResults = w.db.stepResults ++ p.results := by
  have hid := hfound.id
  by_cases hb : Begins env
  · by_cases hc : Commits env (executeCases env runId cases {})
    · have hclosed := executeRun_closed hfound hb hc
      have hstored := hclosed.row
      rw [hid, hrow] at hstored
      obtain rfl := Option.some.inj hstored
      obtain ⟨p, hp⟩ := closeRun_ok hend
      have hresults := hclosed.results
      rw [hp] at hresults ⊢
      exact ⟨p, hb, rfl, rfl, hresults⟩
    · have hbegun := get?_begun env suite hfound.row_id
      rw [executeRun_of_begins hfound hb, finishRun_of_not_commits _ _ hc] at hrow
      rw [id_begun, hid, hrow] at hbegun
      obtain rfl := Option.some.inj hbegun
      simp at hend
  · obtain ⟨w', raised, hbegin, -, hdb, -⟩ :=
      beginRun_of_not_begins suite hb hfound.row_id
    obtain ⟨w'', raised', hbegin', hexecute⟩ := executeRun_of_not_begins hfound hb
    rw [hbegin'] at hbegin
    obtain ⟨rfl, -⟩ := Prod.mk.inj hbegin
    rw [hexecute] at hrow
    have hrunning := get?_begun env suite hfound.row_id
    rcases hdb with hdb | hdb
    · rw [hdb, hfound.row] at hrow
      obtain rfl := Option.some.inj hrow
      simp [hfound.queued] at hend
    · rw [hdb] at hrow
      have hstored : (w.db.setRun run (begun env run)).runs.get? (begun env run).id =
          some (begun env run) := hrunning
      rw [id_begun, hid, hrow] at hstored
      obtain rfl := Option.some.inj hstored
      simp at hend

/-- Without its suite a run does not end so. -/
theorem found_of_finished (hget : w.db.runs.get? runId = some run) (hqueued : run.status = .queued)
    (hrow : (executeRun env runId w).1.db.runs.get? runId = some run')
    (hend : run'.status = .passed ∨ run'.status = .failed) :
    ∃ suite cases, Found w runId run suite cases := by
  cases hfound : w.db.getWithCases run.suiteId with
  | some found => exact ⟨found.1, found.2, hget, hqueued, hfound⟩
  | none =>
    have hid := Table.get?_key hget
    have hmissing : executeRun env runId w = markSuiteMissing env run w := by
      unfold executeRun
      simp only [hget, hqueued, hfound, ne_eq, not_true, if_false]
    rw [hmissing] at hrow
    unfold markSuiteMissing World.updateRun at hrow
    cases hcommit : env.faults.firstCommit with
    | some raised =>
      simp only [hcommit, hget, Option.some.injEq] at hrow
      simp [← hrow, hqueued] at hend
    | none =>
      rw [← hid] at hget hrow
      simp only [hcommit, Database.updateRun_of_get? _ hget, Option.map_some,
        Database.get?_setRun _ hget, Option.some.injEq] at hrow
      simp [← hrow] at hend

/-- Then it executed every case of its suite, and wrote a row for each step of them. -/
theorem executedCases_finished (hfound : Found w runId run suite cases)
    (hrow : (executeRun env runId w).1.db.runs.get? runId = some run')
    (hend : run'.status = .passed ∨ run'.status = .failed) :
    executedCases env runId w = cases ∧ run'.totalCases = run.totalCases ∧
      run'.suiteId = run.suiteId ∧
      ∃ rs, (executeRun env runId w).1.db.stepResults = w.db.stepResults ++ rs ∧
        rs.map placeOf = cases.flatMap fun case =>
          (List.range (validSteps case).length).map fun i => (some case.id, i) := by
  obtain ⟨p, hb, hloop, rfl, hresults⟩ := finished_run hfound hrow hend
  refine ⟨?_, rfl, rfl, p.results, hresults, ?_⟩
  · unfold executedCases
    simp only [hfound.row, hfound.queued, hfound.suite, ne_eq, not_true, if_false,
      beginRun_of_begins hb hfound.row_id]
    exact reachedCases_of_ok hloop
  · have hcontinues := executeCases_continues env runId cases {}
    rw [hloop] at hcontinues
    obtain ⟨⟨rs, hrs, hpre, -⟩, hends⟩ := hcontinues
    have hsame : p.results = rs := hrs
    rw [hsame, ← places_tasks 0 cases]
    cases hstop : stopIn env 0 cases with
    | some stop =>
      have hzero : ({} : Progress).results.length = 0 := rfl
      rw [hzero, hstop] at hends
      exact hends.elim
    | none =>
      have hzero : ({} : Progress).results.length = 0 := rfl
      rw [hzero, hstop] at hends
      refine Continues.all_rows (p := {}) ?_ hpre
      have hlen : p.results.length = 0 + ((tasks 0 cases).map Task.place).length := hends
      rw [← hsame]
      exact hlen

end

end AegisPlatform.Workers
