import AegisPlatform.Api.Handlers
import AegisPlatform.Workers.Pool

/-! # What belongs to a suite

`suiteView` is everything a client can read of one suite: its row, its cases in order, and its runs
with their step results. Each write of the API and of a worker leaves the view of every suite alone
but the one it is about. Reviews of healing events are in no view: the API lets every engineer
review every event.
-/

namespace AegisPlatform.Api
open Foundations Domain Core Db Services Workers
set_option autoImplicit false
set_option maxHeartbeats 250000

def suiteView (db : Database) (suiteId : Uuid) :
    Option TestSuite × List TestCase × List (TestRun × List StepResult) :=
  (db.suites.get? suiteId, db.casesOf suiteId,
    (db.runsOf suiteId).map fun run => (run, db.resultsOf run.id))

section
variable {db db' : Database} {suiteId : Uuid}

theorem suiteView_congr (harrangement : db'.arrangement = db.arrangement)
    (hsuite : db'.suites.get? suiteId = db.suites.get? suiteId)
    (hcases : (db'.cases.rows.filter fun c => c.suiteId == suiteId) =
      db.cases.rows.filter fun c => c.suiteId == suiteId)
    (hruns : db'.runsOf suiteId = db.runsOf suiteId)
    (hresults : ∀ run ∈ db.runsOf suiteId, db'.resultsOf run.id = db.resultsOf run.id) :
    suiteView db' suiteId = suiteView db suiteId := by
  have hpairs : ((db.runsOf suiteId).map fun run => (run, db'.resultsOf run.id)) =
      (db.runsOf suiteId).map fun run => (run, db.resultsOf run.id) := by
    apply List.map_congr_left
    intro run hrun
    rw [hresults run hrun]
  unfold suiteView Database.casesOf
  rw [harrangement, hsuite, hcases, hruns, hpairs]

theorem runsOf_suiteView (h : suiteView db' suiteId = suiteView db suiteId) :
    db'.runsOf suiteId = db.runsOf suiteId := by
  have hruns := congrArg (fun v => v.2.2.map Prod.fst) h
  unfold suiteView at hruns
  simpa [List.map_map, Function.comp_def] using hruns

theorem mem_runsOf {run : TestRun} :
    run ∈ db.runsOf suiteId ↔ run ∈ db.runs.rows ∧ run.suiteId = suiteId := by
  unfold Database.runsOf
  rw [List.mem_filter, beq_iff_eq]

/-! ## Writes of the suite service -/

theorem suiteView_insertSuite (data : SuiteCreate) (ownerId : Uuid)
    (h : suiteId ≠ db.suites.next) :
    suiteView (SuiteService.insertSuite db data ownerId) suiteId = suiteView db suiteId := by
  apply suiteView_congr
  · rfl
  · exact Table.get?_insert_of_ne _ _ (fun _ => SuiteService.id_newSuite ..) h
  · exact SuiteService.filter_insertSuite_cases data ownerId h
  · rfl
  · exact fun run _ => rfl

theorem suiteView_setSuite {suite : TestSuite} (h : suiteId ≠ suite.id) :
    suiteView (SuiteService.setSuite db suite) suiteId = suiteView db suiteId := by
  apply suiteView_congr
  · rfl
  · exact Table.get?_modify_of_ne db.suites (fun stored => { suite with id := stored.id })
      (fun _ => rfl) h
  · rfl
  · rfl
  · exact fun run _ => rfl

theorem suiteView_insertCase {other : Uuid} (data : TestCaseCreate) (h : suiteId ≠ other) :
    suiteView (SuiteService.insertCase db other data) suiteId = suiteView db suiteId := by
  apply suiteView_congr
  · rfl
  · rfl
  · have hnew : ([SuiteService.buildCase other data db.cases.next].filter
        fun c => c.suiteId == suiteId) = [] := by
      simpa [SuiteService.buildCase] using Ne.symm h
    unfold SuiteService.insertCase
    rw [Table.rows_insert, List.filter_append, hnew, List.append_nil]
  · rfl
  · exact fun run _ => rfl

theorem filter_ne_filter {α : Type} (rows : List α) (key : α → Uuid) {other : Uuid}
    (h : suiteId ≠ other) :
    ((rows.filter fun r => key r != other).filter fun r => key r == suiteId) =
      rows.filter fun r => key r == suiteId := by
  rw [List.filter_filter]
  apply List.filter_congr
  intro r _
  by_cases hr : key r = suiteId
  · simp [hr, h]
  · simp [hr]

/-- A cascade takes no run of another suite, since a run id designates one run. -/
theorem suiteView_deleteSuite {other : Uuid} (h : suiteId ≠ other) :
    suiteView (db.deleteSuite other) suiteId = suiteView db suiteId := by
  apply suiteView_congr
  · rfl
  · unfold Database.deleteSuite
    apply Option.ext
    intro suite
    rw [Table.get?_filter_eq_some_iff]
    constructor
    · exact fun hs => hs.1
    · intro hs
      refine ⟨hs, ?_⟩
      rw [Table.get?_key hs]
      simpa using h
  · exact filter_ne_filter db.cases.rows TestCase.suiteId h
  · exact filter_ne_filter db.runs.rows TestRun.suiteId h
  · intro run hrun
    obtain ⟨hmem, hsuite⟩ := mem_runsOf.mp hrun
    have hstays : run.id ∉ (db.runsOf other).map TestRun.id := by
      intro hgone
      obtain ⟨run', hrun', hid⟩ := List.mem_map.mp hgone
      obtain ⟨hmem', hsuite'⟩ := mem_runsOf.mp hrun'
      have hsame := List.inj_on_of_nodup_map db.runs.nodup hmem' hmem hid
      rw [hsame, hsuite] at hsuite'
      exact h hsuite'
    unfold Database.resultsOf Database.deleteSuite
    rw [List.filter_filter]
    apply List.filter_congr
    intro r _
    by_cases hr : r.runId = run.id
    · simpa [hr] using hstays
    · simp [hr]

/-! ## Writes on runs -/

theorem suiteView_insertRun {suite : TestSuite} (cases : List TestCase) (data : RunCreate)
    (actor : User) (idempotencyKey : Option String) (h : suiteId ≠ suite.id) :
    suiteView (RunService.insertRun db suite cases data actor idempotencyKey) suiteId =
      suiteView db suiteId := by
  apply suiteView_congr
  · rfl
  · rfl
  · rfl
  · have hnew : ([RunService.newRun suite cases data actor idempotencyKey db.runs.next].filter
        fun run => run.suiteId == suiteId) = [] := by
      simpa [RunService.newRun] using Ne.symm h
    unfold Database.runsOf RunService.insertRun
    rw [Table.rows_insert, List.filter_append, hnew, List.append_nil]
  · exact fun run _ => rfl

/-- No run of the suite has the id. -/
def NotOf (db : Database) (suiteId runId : Uuid) : Prop :=
  ∀ row ∈ db.runs.rows, row.id = runId → row.suiteId ≠ suiteId

theorem suiteView_setRun {loaded : TestRun} (current : TestRun)
    (h : NotOf db suiteId loaded.id) :
    suiteView (db.setRun loaded current) suiteId = suiteView db suiteId := by
  apply suiteView_congr
  · rfl
  · rfl
  · rfl
  · have hrow : ∀ row ∈ db.runs.rows,
        (if row.id = loaded.id then loaded.writeBack current row else row).suiteId = row.suiteId := by
      intro row _
      split
      · rfl
      · rfl
    have hsame : ∀ row ∈ db.runsOf suiteId,
        (if row.id = loaded.id then loaded.writeBack current row else row) = row := by
      intro row hrow
      obtain ⟨hmem, hsuite⟩ := mem_runsOf.mp hrow
      rw [if_neg fun hid => h row hmem hid hsuite]
    have hfilter : ((db.runs.rows.map fun row =>
        if row.id = loaded.id then loaded.writeBack current row else row).filter
          fun row => row.suiteId == suiteId) =
        (db.runs.rows.filter fun row => row.suiteId == suiteId).map fun row =>
          if row.id = loaded.id then loaded.writeBack current row else row := by
      rw [List.filter_map]
      congr 1
      apply List.filter_congr
      intro row hmem
      rw [Function.comp_apply, hrow row hmem]
    exact hfilter.trans ((List.map_congr_left hsame).trans (List.map_id _))
  · exact fun run _ => rfl

theorem suiteView_insertStepRows {results : List StepResult} (events : List HealingEvent)
    {runId : Uuid} (hresults : ∀ r ∈ results, r.runId = runId) (h : NotOf db suiteId runId) :
    suiteView (db.insertStepRows results events) suiteId = suiteView db suiteId := by
  apply suiteView_congr
  · rfl
  · rfl
  · rfl
  · rfl
  · intro run hrun
    obtain ⟨hmem, hsuite⟩ := mem_runsOf.mp hrun
    have hnew : (results.filter fun r => r.runId == run.id) = [] := by
      rw [List.filter_eq_nil_iff]
      intro r hr
      rw [hresults r hr]
      have hne : runId ≠ run.id := fun hid => h run hmem hid.symm hsuite
      simpa using hne
    unfold Database.resultsOf Database.insertStepRows
    rw [List.filter_append, hnew, List.append_nil]

end

end AegisPlatform.Api
