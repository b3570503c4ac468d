import AegisPlatform.Workers.Execution
import Mathlib.Data.List.Forall2

/-! # The undisturbed execution

What users see of a run in which nothing raises: rows, healing events, counters, status and the
event stream, for every suite and every healer. `executeCases_undisturbed` makes the loop a map
over the tasks, so each table is a map or a filtered map of one list.
-/

namespace AegisPlatform.Workers
open Foundations Domain Db
set_option autoImplicit false
set_option maxHeartbeats 250000

section
variable [Unicode]

omit [Unicode] in
def RowFor (runId : Uuid) (t : Task) (r : StepResult) : Prop :=
  r.runId = runId ∧ r.caseId = some t.case.id ∧ r.caseName = t.case.name ∧
    r.stepIndex = t.index ∧ r.action = t.step.action ∧ r.originalSelector = t.step.selector

omit [Unicode] in
/-- The healing event of a drifted task agrees with its row, and with the acceptance rule; both are
what the answer of the healer is recorded as. -/
structure EventFor [Unicode] (env : Env) (runId : Uuid) (t : Task) (r : StepResult)
    (e : HealingEvent) : Prop where
  recorded : ∃ event, record env runId t = .ok ⟨r, some event⟩ ∧ e = { event with id := e.id }
  runId : e.runId = runId
  originalSelector : e.originalSelector = t.step.selector.getD ""
  healedSelector : e.healedSelector = r.healedSelector
  succeeded : e.succeeded = true ↔ r.status = .healed ∧ e.healedSelector.isSome
  failed : e.succeeded = false ↔ r.status = .failed
  accepted : e.accepted =
    if e.succeeded = true ∧ e.confidence ≥ env.minConfidence then some true else none

/-- Tables, counters, status and events of a finished run, all read off one list of rows. -/
structure Complete (env : Env) (runId : Uuid) (suite : TestSuite) (cases : List TestCase)
    (w w' : World) (run' : TestRun) (rs : List StepResult) (es : List HealingEvent) : Prop where
  row : w'.db.runs.get? runId = some run'
  results : w'.db.stepResults = w.db.stepResults ++ rs
  order : rs.map placeOf = cases.flatMap fun case =>
    (List.range case.steps.length).map fun i => (some case.id, i)
  rows : List.Forall₂ (fun t r => RowFor runId t r ∧ (r.status = .passed ↔ t.drifted = false) ∧
    (record env runId t).map StepRecord.result = .ok r) (tasks 0 cases) rs
  passed : run'.passedCount = countOf .passed rs
  failed : run'.failedCount = countOf .failed rs
  healed : run'.healedCount = countOf .healed rs
  total : run'.passedCount + run'.failedCount + run'.healedCount =
    (cases.map fun case => case.steps.length).sum
  events : w'.db.healingEvents.rows = w.db.healingEvents.rows ++ es
  eventPerDrift : List.Forall₂ (fun tr e => EventFor env runId tr.1 tr.2 e)
    (((tasks 0 cases).zip rs).filter fun tr => tr.1.drifted) es
  status : run'.status = if ∀ r ∈ rs, r.status ≠ .failed then .passed else .failed
  published : w'.published = w.published ++
    ((runId, .started runId suite.slug) :: (rs.map fun r => (runId, stepCompleted r)) ++
      [(runId, finishedEvent run')])

/-! ## Records of an undisturbed loop -/

section
variable (answer : ℕ → HealCall → HealingProposal) (env : Env) (runId : Uuid)

theorem status_recordOf (t : Task) :
    (recordOf answer env runId t).result.status = .passed ↔ t.drifted = false := by
  unfold recordOf
  split
  · next hd =>
    unfold healedRecord taskResult
    cases (answer t.position (healCall t.page t.step)).healedSelector with
    | none => simp [hd]
    | some selector => simp [hd]
  · next hd => simp [taskResult, hd]

/-- The events of the records are one for each drifted task. -/
theorem filterMap_event (ts : List Task) :
    (ts.map (recordOf answer env runId)).filterMap StepRecord.event =
      (ts.filter Task.drifted).map fun t =>
        healingEvent env runId t (answer t.position (healCall t.page t.step)) := by
  induction ts with
  | nil => rfl
  | cons t ts ih =>
    rw [List.map_cons, List.filterMap_cons, ih]
    by_cases hd : t.drifted
    · simp [recordOf, healedRecord, hd]
    · simp [recordOf, hd]

variable {answer env} in
theorem eventFor_recordOf (hu : Undisturbed env answer) (t : Task) (hd : t.drifted = true) (n : ℕ) :
    EventFor env runId t (recordOf answer env runId t).result
      { healingEvent env runId t (answer t.position (healCall t.page t.step)) with id := n } := by
  have hrecord := record_undisturbed hu runId t
  unfold recordOf at hrecord ⊢
  rw [if_pos hd] at hrecord ⊢
  have hrecorded : ∃ event, record env runId t = .ok ⟨(healedRecord env runId t
      (answer t.position (healCall t.page t.step))).result, some event⟩ ∧
        { healingEvent env runId t (answer t.position (healCall t.page t.step)) with id := n } =
          { event with id := n } := ⟨_, hrecord, rfl⟩
  unfold healedRecord taskResult healingEvent at hrecorded ⊢
  cases h : (answer t.position (healCall t.page t.step)).healedSelector with
  | none =>
    rw [h] at hrecorded
    refine ⟨hrecorded, ?_, ?_, ?_, ?_, ?_, ?_⟩ <;> simp
  | some selector =>
    rw [h] at hrecorded
    refine ⟨hrecorded, ?_, ?_, ?_, ?_, ?_, ?_⟩ <;> simp

omit [Unicode] in
/-- Setting keys along a list keeps what holds of each of its members under any key. -/
theorem forall₂_mapIdx {α : Type} {R : α → HealingEvent → Prop} {f : α → HealingEvent}
    (start : ℕ) (as : List α) (h : ∀ a ∈ as, ∀ n, R a { f a with id := n }) :
    List.Forall₂ R as ((as.map f).mapIdx fun i e => { e with id := start + i }) := by
  induction as generalizing start with
  | nil => simp
  | cons a as ih =>
    rw [List.map_cons, List.mapIdx_cons]
    refine List.Forall₂.cons (h a List.mem_cons_self _) ?_
    have hrest := ih (start + 1) fun a' ha' => h a' (List.mem_cons_of_mem a ha')
    have hshift : (fun (i : ℕ) (e : HealingEvent) => { e with id := start + 1 + i }) =
        fun i e => { e with id := start + (i + 1) } := by
      funext i e
      rw [Nat.add_assoc, Nat.add_comm 1 i]
    rwa [hshift] at hrest

theorem zip_drifted (ts : List Task) :
    ((ts.zip (ts.map fun t => (recordOf answer env runId t).result)).filter
      fun tr => tr.1.drifted) =
        (ts.filter Task.drifted).map fun t => (t, (recordOf answer env runId t).result) := by
  induction ts with
  | nil => rfl
  | cons t ts ih =>
    rw [List.map_cons, List.zip_cons_cons, List.filter_cons, ih]
    by_cases hd : t.drifted
    · simp [hd]
    · simp [hd]

end

omit [Unicode] in
theorem length_validSteps {case : TestCase}
    (h : ∀ s ∈ case.steps, (StepSpec.modelValidate s).isSome) :
    (validSteps case).length = case.steps.length :=
  List.filterMap_length_eq_length.mpr h

/-! ## The execution -/

section
variable (answer : ℕ → HealCall → HealingProposal) (env : Env) (runId : Uuid)
  (cases : List TestCase)

def rowsOf : List StepResult :=
  (tasks 0 cases).map fun t => (recordOf answer env runId t).result

def eventsOf : List HealingEvent :=
  ((tasks 0 cases).filter Task.drifted).map fun t =>
    healingEvent env runId t (answer t.position (healCall t.page t.step))

/-- The locals of the loop at its end. -/
def locals : Progress :=
  { passed := countOf .passed (rowsOf answer env runId cases)
    failed := countOf .failed (rowsOf answer env runId cases)
    healed := countOf .healed (rowsOf answer env runId cases)
    results := rowsOf answer env runId cases
    healingEvents := eventsOf answer env runId cases
    published := (rowsOf answer env runId cases).map stepCompleted }

variable {answer env cases}

theorem executeCases_locals (hu : Undisturbed env answer)
    (hvalid : ∀ case ∈ cases, ∀ s ∈ case.steps, (StepSpec.modelValidate s).isSome) :
    executeCases env runId cases {} = .ok (locals answer env runId cases) := by
  rw [executeCases_undisturbed hu runId cases {} hvalid, pushAll_eq]
  simp only [List.length_nil, filterMap_event, List.map_map, Nat.zero_add, List.nil_append]
  unfold locals rowsOf eventsOf
  rw [List.map_map]
  rfl

variable {runId} in
theorem rowsOf_rows (hu : Undisturbed env answer) :
    List.Forall₂ (fun t r => RowFor runId t r ∧ (r.status = .passed ↔ t.drifted = false) ∧
      (record env runId t).map StepRecord.result = .ok r)
      (tasks 0 cases) (rowsOf answer env runId cases) := by
  unfold rowsOf
  rw [List.forall₂_map_right_iff, List.forall₂_same]
  intro t _
  have hrecord := record_undisturbed hu runId t
  exact ⟨record_place hrecord, status_recordOf answer env runId t, by rw [hrecord]; rfl⟩

theorem rowsOf_order (hu : Undisturbed env answer)
    (hvalid : ∀ case ∈ cases, ∀ s ∈ case.steps, (StepSpec.modelValidate s).isSome) :
    (rowsOf answer env runId cases).map placeOf = cases.flatMap fun case =>
      (List.range case.steps.length).map fun i => (some case.id, i) := by
  have hplaces : (rowsOf answer env runId cases).map placeOf =
      (tasks 0 cases).map Task.place := by
    unfold rowsOf
    rw [List.map_map]
    apply List.map_congr_left
    intro t _
    obtain ⟨-, hcase, -, hindex, -⟩ := record_place (record_undisturbed hu runId t)
    simp only [Function.comp_apply, placeOf, Task.place, hcase, hindex]
  rw [hplaces, places_tasks]
  apply List.flatMap_congr
  intro case hcase
  rw [length_validSteps (hvalid case hcase)]

variable {runId} in
theorem rowsOf_total (hu : Undisturbed env answer)
    (hvalid : ∀ case ∈ cases, ∀ s ∈ case.steps, (StepSpec.modelValidate s).isSome) :
    countOf .passed (rowsOf answer env runId cases) +
        countOf .failed (rowsOf answer env runId cases) +
        countOf .healed (rowsOf answer env runId cases) =
      (cases.map fun case => case.steps.length).sum := by
  rw [countOf_sum]
  · have horder := congrArg List.length (rowsOf_order runId hu hvalid)
    rw [List.length_map, List.length_flatMap] at horder
    simpa using horder
  · intro r hr
    obtain ⟨t, -, rfl⟩ := List.mem_map.mp hr
    exact record_status (record_undisturbed hu runId t)

variable {runId} in
theorem eventsOf_drifted (hu : Undisturbed env answer) (start : ℕ) :
    List.Forall₂ (fun tr e => EventFor env runId tr.1 tr.2 e)
      (((tasks 0 cases).zip (rowsOf answer env runId cases)).filter fun tr => tr.1.drifted)
      ((eventsOf answer env runId cases).mapIdx fun i e => { e with id := start + i }) := by
  unfold rowsOf eventsOf
  rw [zip_drifted, List.forall₂_map_left_iff]
  apply forall₂_mapIdx
  intro t ht n
  exact eventFor_recordOf runId hu t (List.mem_filter.mp ht).2 n

end

end

end AegisPlatform.Workers
