import AegisPlatform.Workers.Announcements
import AegisPlatform.Workers.Finishing

/-! # What an execution goes through

The rows of an execution name, one after the other, the steps of the cases it was given, in the order
of the cases and then of the steps. If it is left early they are the first of them.
-/

namespace AegisPlatform.Workers
open Foundations Domain Db
set_option autoImplicit false
set_option maxHeartbeats 250000

/-- What a worker takes the case for. -/
def Executes (case : TestCase) (data : TestCaseCreate) : Prop :=
  case.name = data.name ∧ ∀ env, validateSteps env case.steps = .ok data.steps

structure StepLine where
  caseName : String
  stepIndex : ℕ
  action : StepAction
  selector : Option String
deriving DecidableEq

def lineOf (r : StepResult) : StepLine := ⟨r.caseName, r.stepIndex, r.action, r.originalSelector⟩

def linesFrom (caseName : String) : ℕ → List StepSpec → List StepLine
  | _, [] => []
  | index, step :: rest =>
    ⟨caseName, index, step.action, step.selector⟩ :: linesFrom caseName (index + 1) rest

def linesOf (data : TestCaseCreate) : List StepLine := linesFrom data.name 0 data.steps

/-- From `p` on, the rows up to `outcome` name the first of `lines`, and all of them if the loop got
through. -/
def Follows (lines : List StepLine) (p : Progress) (outcome : Except Stopped Progress) : Prop :=
  ∃ named, (Except.progress outcome).results.map lineOf = p.results.map lineOf ++ named ∧
    named <+: lines ∧ ∀ p', outcome = .ok p' → named = lines

namespace Follows
variable {lines rest : List StepLine} {p p' : Progress} {outcome : Except Stopped Progress}

theorem nil (p : Progress) : Follows [] p (.ok p) :=
  ⟨[], by simp [Except.progress], List.prefix_rfl, fun _ _ => rfl⟩

theorem trans (h : Follows lines p (.ok p')) (k : Follows rest p' outcome) :
    Follows (lines ++ rest) p outcome := by
  obtain ⟨named, hnamed, -, hall⟩ := h
  obtain ⟨named', hnamed', hprefix, hall'⟩ := k
  obtain rfl := hall p' rfl
  refine ⟨named ++ named', ?_, (List.prefix_append_right_inj named).mpr hprefix, ?_⟩
  · change p'.results.map lineOf = _ at hnamed
    rw [hnamed', hnamed, List.append_assoc]
  · intro q hq
    rw [hall' q hq]

theorem extend {stopped : Stopped} (h : Follows lines p (.error stopped)) :
    Follows (lines ++ rest) p (.error stopped) := by
  obtain ⟨named, hnamed, hprefix, -⟩ := h
  exact ⟨named, hnamed, hprefix.trans (List.prefix_append lines rest), fun q hq => by cases hq⟩

end Follows

section
variable [Unicode] {env : Env} {runId : Uuid}

theorem lineOf_record {t : Task} {r : StepRecord} (h : record env runId t = .ok r) :
    lineOf r.result = ⟨t.case.name, t.index, t.step.action, t.step.selector⟩ := by
  obtain ⟨-, -, hname, hindex, haction, hselector⟩ := record_place h
  unfold lineOf
  rw [hname, hindex, haction, hselector]

theorem follows_step (env : Env) (runId : Uuid) (case : TestCase) (page : String) (index : ℕ)
    (step : StepSpec) (p : Progress) :
    Follows [⟨case.name, index, step.action, step.selector⟩] p
      (executeStep env runId case page index step p) := by
  have hstay : ∀ q raised usable, q.results = p.results →
      Follows [⟨case.name, index, step.action, step.selector⟩] p (.error ⟨q, raised, usable⟩) := by
    intro q raised usable hq
    exact ⟨[], by simp [Except.progress, hq], List.nil_prefix, fun _ h => by cases h⟩
  rw [executeStep_eq env runId ⟨p.results.length, case, page, index, step⟩ p rfl]
  cases hrecord : record env runId ⟨p.results.length, case, page, index, step⟩ with
  | error raised => exact hstay p raised true rfl
  | ok r =>
    have hline := lineOf_record hrecord
    have hadd : ∀ q : Progress, q.results = p.results ++ [r.result] →
        q.results.map lineOf =
          p.results.map lineOf ++ [⟨case.name, index, step.action, step.selector⟩] := by
      intro q hq
      rw [hq, List.map_append, List.map_singleton, hline]
    cases env.faults.flush p.results.length with
    | some raised => exact hstay _ raised false rfl
    | none =>
      cases env.faults.publishStep p.results.length with
      | none => exact ⟨_, hadd _ rfl, List.prefix_rfl, fun _ _ => rfl⟩
      | some raised =>
        cases raised with
        | exception message => exact ⟨_, hadd _ rfl, List.prefix_rfl, fun _ _ => rfl⟩
        | cancelled => exact ⟨_, hadd _ rfl, List.prefix_rfl, fun _ _ => rfl⟩

theorem follows_steps (env : Env) (runId : Uuid) (case : TestCase) (page : String) (index : ℕ)
    (steps : List StepSpec) (p : Progress) :
    Follows (linesFrom case.name index steps) p
      (executeSteps env runId case page index steps p) := by
  induction steps generalizing index p with
  | nil => exact .nil p
  | cons step rest ih =>
    have hstep := follows_step env runId case page index step p
    unfold executeSteps
    cases houtcome : executeStep env runId case page index step p with
    | error stopped =>
      rw [houtcome] at hstep
      exact hstep.extend
    | ok p' =>
      rw [houtcome] at hstep
      exact hstep.trans (ih (index + 1) p')

/-- The loop over the cases of a suite. -/
theorem follows_cases {cases : List TestCase} {sent : List TestCaseCreate}
    (h : List.Forall₂ Executes cases sent) (p : Progress) :
    Follows (sent.flatMap linesOf) p (executeCases env runId cases p) := by
  induction h generalizing p with
  | nil => exact .nil p
  | @cons case data cases sent hcase hrest ih =>
    have hsteps := follows_steps env runId case (buildPage data.steps) 0 data.steps p
    rw [hcase.1] at hsteps
    unfold executeCases
    rw [hcase.2 env, List.flatMap_cons]
    simp only
    cases houtcome : executeSteps env runId case (buildPage data.steps) 0 data.steps p with
    | error stopped =>
      rw [houtcome] at hsteps
      exact hsteps.extend
    | ok p' =>
      rw [houtcome] at hsteps
      exact hsteps.trans (ih p')

/-! ## What is stored of it -/

/-- The worker is about to go through `cases`, or has left. -/
def ExecutorPhase.WorksOn (cases : List TestCase) : ExecutorPhase → Prop
  | .created | .loaded _ => False
  | .suiteLoaded _ found => ∃ suite, found = some (suite, cases)
  | .running _ given => given = cases
  | .exited _ => True

/-- Run `r` in the hands of a worker that read `cases`, which are worked through as `lines`. -/
structure WorkedThrough (lines : List StepLine) (cases : List TestCase) (r : Uuid) (db : Database)
    (phase : ExecutorPhase) : Prop where
  worksOn : phase.WorksOn cases
  quiet : phase.isExited = false → db.resultsOf r = []
  named : (db.resultsOf r).map lineOf <+: lines
  all : ∀ row, db.runs.get? r = some row → row.status = .passed ∨ row.status = .failed →
    (db.resultsOf r).map lineOf = lines

variable {cases : List TestCase} {sent : List TestCaseCreate} {lines : List StepLine} {r : Uuid}
  {db db' : Database} {phase phase' : ExecutorPhase}

omit [Unicode] in
/-- Nothing is stored yet, and the run has not ended as PASSED or FAILED. -/
theorem WorkedThrough.of_empty (hworks : phase.WorksOn cases) (hempty : db.resultsOf r = [])
    (hopen : ∀ row, db.runs.get? r = some row → row.status ≠ .passed ∧ row.status ≠ .failed) :
    WorkedThrough lines cases r db phase where
  worksOn := hworks
  quiet := fun _ => hempty
  named := by
    rw [hempty]
    exact List.nil_prefix
  all := by
    intro row hrow hended
    obtain ⟨hpassed, hfailed⟩ := hopen row hrow
    rcases hended with heq | heq
    · exact absurd heq hpassed
    · exact absurd heq hfailed

omit [Unicode] in
theorem open_of_allows {row : TestRun} (hopen : phase.isExited = false)
    (h : phase.Allows row.status) : row.status ≠ .passed ∧ row.status ≠ .failed := by
  have hneither : ∀ status, (status = .queued ∨ status = .cancelled) ∨
      (status = .running ∨ status = .cancelled) → status ≠ RunStatus.passed ∧
        status ≠ RunStatus.failed := by
    rintro status ((rfl | rfl) | (rfl | rfl))
    · exact ⟨nofun, nofun⟩
    · exact ⟨nofun, nofun⟩
    · exact ⟨nofun, nofun⟩
    · exact ⟨nofun, nofun⟩
  cases phase with
  | created => exact hneither _ (Or.inl h)
  | loaded run => exact hneither _ (Or.inl h)
  | suiteLoaded run found => exact hneither _ (Or.inl h)
  | running run cases => exact hneither _ (Or.inr h)
  | exited raised => cases hopen

omit [Unicode] in
/-- What becomes RUNNING has not ended. -/
theorem open_begun {run row row' : TestRun} (hqueued : run.status = .queued)
    (hrow : db.runs.get? run.id = some row)
    (hrow' : (db.setRun run (begun env run)).runs.get? run.id = some row') :
    row'.status ≠ .passed ∧ row'.status ≠ .failed := by
  obtain rfl := Option.some.inj (hrow'.symm.trans (Database.get?_setRun _ hrow))
  rw [TestRun.status_writeBack, hqueued]
  exact ⟨nofun, nofun⟩

omit [Unicode] in
/-- Only a loop that got through closes a run as PASSED or FAILED. -/
theorem ok_of_closed {run row row' : TestRun} (hrunning : run.status = .running)
    (hrow : db.runs.get? run.id = some row)
    (hopen : row.status = .running ∨ row.status = .cancelled)
    {results : List StepResult} {events : List HealingEvent} {outcome : Except Stopped Progress}
    (hrow' : ((db.insertStepRows results events).setRun run
      (closeRun env run outcome)).runs.get? run.id = some row')
    (hended : row'.status = .passed ∨ row'.status = .failed) : ∃ p, outcome = .ok p := by
  have hstored : (db.insertStepRows results events).runs.get? run.id = some row := hrow
  obtain rfl := Option.some.inj (hrow'.symm.trans (Database.get?_setRun _ hstored))
  rw [TestRun.status_writeBack, hrunning] at hended
  cases outcome with
  | ok p => exact ⟨p, rfl⟩
  | error stopped =>
    obtain ⟨p, raised, usable⟩ := stopped
    cases raised with
    | exception message => simp [closeRun, written] at hended
    | cancelled =>
      rw [show (closeRun env run (.error ⟨p, .cancelled, usable⟩)).status = .running from hrunning,
        written_same] at hended
      rcases hopen with heq | heq
      · simp [heq] at hended
      · simp [heq] at hended

/-- An access of its worker. -/
theorem workedThrough_access (hcases : List.Forall₂ Executes cases sent)
    (h : WorkedThrough (sent.flatMap linesOf) cases r db phase) (hof : phase.Of r)
    (hallows : ∀ row, db.runs.get? r = some row → phase.Allows row.status)
    (step : PhaseStep env r db phase db' phase') :
    WorkedThrough (sent.flatMap linesOf) cases r db' phase' := by
  cases step with
  | skip => exact h.worksOn.elim
  | load => exact h.worksOn.elim
  | find => exact h.worksOn.elim
  | miss =>
    obtain ⟨suite, hfound⟩ := h.worksOn
    cases hfound
  | missFails =>
    obtain ⟨suite, hfound⟩ := h.worksOn
    cases hfound
  | @begin run row suite found hrow =>
    obtain ⟨suite', hfound⟩ := h.worksOn
    obtain ⟨rfl, hqueued, -⟩ := hof
    exact .of_empty (Prod.mk.inj (Option.some.inj hfound)).2 (h.quiet rfl)
      fun row' hrow' => open_begun hqueued hrow hrow'
  | @beginRaises run row suite found raised hrow =>
    obtain ⟨rfl, hqueued, -⟩ := hof
    exact .of_empty trivial (h.quiet rfl) fun row' hrow' => open_begun hqueued hrow hrow'
  | beginFails =>
    exact .of_empty trivial (h.quiet rfl) fun row' hrow' => open_of_allows rfl (hallows row' hrow')
  | @close run row found raised hrow hcommits =>
    obtain ⟨rfl, hrunning, -⟩ := hof
    obtain rfl : found = cases := h.worksOn
    have hresults := resultsOf_closed_fresh env found (h.quiet rfl)
      (closeRun env run (executeCases env run.id found {}))
    have hfollows : Follows (sent.flatMap linesOf) {} (executeCases env run.id found {}) :=
      follows_cases hcases {}
    obtain ⟨named, hnamed, hprefix, hall⟩ := hfollows
    rw [List.map_nil, List.nil_append] at hnamed
    refine ⟨trivial, fun hexited => (by cases hexited), ?_, ?_⟩
    · rw [hresults, hnamed]
      exact hprefix
    · intro row' hrow' hended
      obtain ⟨p, hp⟩ := ok_of_closed hrunning hrow (hallows row hrow) hrow' hended
      rw [hresults, hnamed]
      exact hall p hp
  | closeFails =>
    exact .of_empty trivial (h.quiet rfl) fun row' hrow' => open_of_allows rfl (hallows row' hrow')
  | done => exact h

end

end AegisPlatform.Workers
