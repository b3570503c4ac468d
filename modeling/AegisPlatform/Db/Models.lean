import AegisPlatform.Foundations.Paging
import AegisPlatform.Foundations.PyText
import AegisPlatform.Foundations.Table
import AegisPlatform.Domain.Schemas
import Mathlib.Data.List.Sort

/-! # Tables of the database

`db/models.py` and the queries of `repositories/`. Timestamps of `TimestampMixin` are read by no
modelled function and are left out, as is `HealingEvent.step_result_id`, which nothing sets. A
`StepResult` is never looked up by its id, so its table is a plain list; the other tables hand
out their keys in increasing order, which stands for the freshness of `uuid4`.

A table keeps its rows as they were inserted. Where a query orders them by a column that does not
tell them apart, the rows come as the database arranges them: `Arrangement` is any such choice.

`tags` is a JSON column: `none` is a stored JSON null.
-/

namespace AegisPlatform.Db
open Foundations Domain
set_option autoImplicit false
set_option maxHeartbeats 250000

abbrev DateTime := ℕ

structure User where
  id : Uuid
  email : String
  hashedPassword : String
  fullName : String
  role : UserRole := .engineer
  isActive : Bool := true
deriving DecidableEq

structure TestSuite where
  id : Uuid
  name : String
  slug : String
  description : Option String := none
  targetBaseUrl : String
  tags : Option (List String) := some []
  isActive : Bool := true
  ownerId : Uuid
deriving DecidableEq

structure TestCase where
  id : Uuid
  suiteId : Uuid
  name : String
  orderIndex : ℤ := 0
  isActive : Bool := true
  steps : List Json := []

structure TestRun where
  id : Uuid
  suiteId : Uuid
  status : RunStatus := .queued
  trigger : RunTrigger := .manual
  createdById : Option Uuid := none
  idempotencyKey : Option String := none
  totalCases : ℕ := 0
  passedCount : ℕ := 0
  failedCount : ℕ := 0
  healedCount : ℕ := 0
  durationMs : Option ℤ := none
  error : Option String := none
  startedAt : Option DateTime := none
  finishedAt : Option DateTime := none
deriving DecidableEq

structure StepResult where
  runId : Uuid
  caseId : Option Uuid
  caseName : String
  stepIndex : ℕ
  action : StepAction
  status : StepStatus
  originalSelector : Option String
  healedSelector : Option String
  message : Option String
  durationMs : ℤ
deriving DecidableEq

structure HealingEvent where
  id : Uuid := 0
  runId : Uuid
  originalSelector : String
  healedSelector : Option String
  strategy : HealingStrategy
  confidence : ℚ
  domSnapshotHash : Option String
  rationale : Option String
  succeeded : Bool := false
  accepted : Option Bool := none
deriving DecidableEq

/-- How the database returns rows: cases by `order_index`, and the healing events of a run by
`created_at`, which is the same for all of them. Ties are in no order the code could know of; the
same rows are returned alike. -/
structure Arrangement where
  cases : List TestCase → List TestCase
  events : List HealingEvent → List HealingEvent
  cases_ordered : ∀ rows,
    OrderBy (fun c : TestCase => OrderDual.toDual c.orderIndex) rows (cases rows)
  events_perm : ∀ rows, (events rows).Perm rows

/-- Ties as inserted. -/
def Arrangement.inserted : Arrangement where
  cases := newest fun c : TestCase => OrderDual.toDual c.orderIndex
  events := id
  cases_ordered := OrderBy.newest _
  events_perm := List.Perm.refl

structure Database where
  users : Table User User.id
  suites : Table TestSuite TestSuite.id
  cases : Table TestCase TestCase.id
  runs : Table TestRun TestRun.id
  stepResults : List StepResult
  healingEvents : Table HealingEvent HealingEvent.id
  arrangement : Arrangement

def Database.empty : Database :=
  ⟨Table.empty, Table.empty, Table.empty, Table.empty, [], Table.empty, .inserted⟩

namespace Database

/-! ## Queries -/

/-- `suite.cases`: the cases of a suite, ordered by `order_index` alone. -/
def casesOf (db : Database) (suiteId : Uuid) : List TestCase :=
  db.arrangement.cases (db.cases.rows.filter fun c => c.suiteId == suiteId)

/-- `SuiteRepository.get_with_cases`. -/
def getWithCases (db : Database) (suiteId : Uuid) : Option (TestSuite × List TestCase) :=
  (db.suites.get? suiteId).map fun suite => (suite, db.casesOf suiteId)

/-- `SuiteRepository.get_by_slug`. -/
def getBySlug (db : Database) (slug : String) : Option TestSuite :=
  db.suites.rows.find? fun s => s.slug == slug

/-- `RunRepository.get_by_idempotency_key`: one of the rows with the key, here the oldest. -/
def getByIdempotencyKey (db : Database) (key : String) : Option TestRun :=
  db.runs.rows.find? fun r => r.idempotencyKey == some key

/-- `UserRepository.get_by_email`. -/
def getByEmail [Unicode] (db : Database) (email : String) : Option User :=
  db.users.rows.find? fun u => u.email == lower email

def resultsOf (db : Database) (runId : Uuid) : List StepResult :=
  db.stepResults.filter fun r => r.runId == runId

/-- The healing events of a run as they were inserted. -/
def eventsOf (db : Database) (runId : Uuid) : List HealingEvent :=
  db.healingEvents.rows.filter fun e => e.runId == runId

def runsOf (db : Database) (suiteId : Uuid) : List TestRun :=
  db.runs.rows.filter fun r => r.suiteId == suiteId

/-! ## Deletion -/

/-- `session.delete(suite)`: the declared cascades take the suite's cases and runs with it, and
the results and healing events of those runs. -/
def deleteSuite (db : Database) (suiteId : Uuid) : Database :=
  let gone := (db.runsOf suiteId).map TestRun.id
  { db with
    suites := db.suites.filter fun s => s.id != suiteId
    cases := db.cases.filter fun c => c.suiteId != suiteId
    runs := db.runs.filter fun r => r.suiteId != suiteId
    stepResults := db.stepResults.filter fun r => !gone.contains r.runId
    healingEvents := db.healingEvents.filter fun e => !gone.contains e.runId }

theorem getWithCases_some {db : Database} {suiteId : Uuid} {suite : TestSuite}
    {cases : List TestCase} (h : db.getWithCases suiteId = some (suite, cases)) :
    db.suites.get? suiteId = some suite ∧ cases = db.casesOf suiteId := by
  unfold getWithCases at h
  obtain ⟨row, hrow, hpair⟩ := Option.map_eq_some_iff.mp h
  obtain ⟨rfl, rfl⟩ := Prod.mk.inj hpair
  exact ⟨hrow, rfl⟩

theorem casesOf_orderBy (db : Database) (suiteId : Uuid) :
    OrderBy (fun c : TestCase => OrderDual.toDual c.orderIndex)
      (db.cases.rows.filter fun c => c.suiteId == suiteId) (db.casesOf suiteId) :=
  db.arrangement.cases_ordered _

theorem mem_casesOf {db : Database} {suiteId : Uuid} {case : TestCase} :
    case ∈ db.casesOf suiteId ↔ case ∈ db.cases.rows ∧ case.suiteId = suiteId := by
  rw [(casesOf_orderBy db suiteId).perm.mem_iff, List.mem_filter, beq_iff_eq]

/-- The cases of one suite have distinct ids. -/
theorem casesOf_nodup (db : Database) (suiteId : Uuid) :
    ((db.casesOf suiteId).map TestCase.id).Nodup := by
  have hperm := (casesOf_orderBy db suiteId).perm.map TestCase.id
  exact hperm.nodup_iff.mpr (db.cases.nodup.sublist (List.filter_sublist.map TestCase.id))

end Database

/-! ## Writing back a loaded row

A session keeps the row as it was loaded next to the attributes as they were assigned since. Its
flush writes the columns that differ, whatever the committed row holds by then. The columns
below are those the code ever assigns on a loaded run.
-/

def written {α : Type} [DecidableEq α] (loaded current stored : α) : α :=
  if current = loaded then stored else current

@[simp] theorem written_loaded {α : Type} [DecidableEq α] (loaded current : α) :
    written loaded current loaded = current := by
  unfold written
  split
  · next h => exact h.symm
  · rfl

@[simp] theorem written_same {α : Type} [DecidableEq α] (loaded stored : α) :
    written loaded loaded stored = stored := by
  simp [written]

def TestRun.writeBack (loaded current stored : TestRun) : TestRun :=
  { stored with
    status := written loaded.status current.status stored.status
    passedCount := written loaded.passedCount current.passedCount stored.passedCount
    failedCount := written loaded.failedCount current.failedCount stored.failedCount
    healedCount := written loaded.healedCount current.healedCount stored.healedCount
    durationMs := written loaded.durationMs current.durationMs stored.durationMs
    error := written loaded.error current.error stored.error
    startedAt := written loaded.startedAt current.startedAt stored.startedAt
    finishedAt := written loaded.finishedAt current.finishedAt stored.finishedAt }

@[simp] theorem TestRun.id_writeBack (loaded current stored : TestRun) :
    (loaded.writeBack current stored).id = stored.id := rfl

@[simp] theorem TestRun.status_writeBack (loaded current stored : TestRun) :
    (loaded.writeBack current stored).status =
      written loaded.status current.status stored.status := rfl

/-- Written back over the row as it was loaded, the assigned attributes are what is stored. -/
theorem TestRun.writeBack_loaded {loaded current : TestRun}
    (h : current =
      { loaded with
        status := current.status
        passedCount := current.passedCount
        failedCount := current.failedCount
        healedCount := current.healedCount
        durationMs := current.durationMs
        error := current.error
        startedAt := current.startedAt
        finishedAt := current.finishedAt }) :
    loaded.writeBack current loaded = current := by
  rw [TestRun.writeBack]
  simp only [written_loaded]
  exact h.symm

namespace Database

def setRun (db : Database) (loaded current : TestRun) : Database :=
  { db with
    runs := db.runs.modify loaded.id (loaded.writeBack current) (fun _ => TestRun.id_writeBack ..) }

/-- The `UPDATE` of a loaded run; `none` when no row matches (`StaleDataError`). -/
def updateRun (db : Database) (loaded current : TestRun) : Option Database :=
  match db.runs.get? loaded.id with
  | none => none
  | some _ => some (db.setRun loaded current)

/-- Rows of finished steps, inserted by the transaction that also updates the run. -/
def insertStepRows (db : Database) (results : List StepResult) (events : List HealingEvent) :
    Database :=
  { db with
    stepResults := db.stepResults ++ results
    healingEvents := db.healingEvents.insertAll (fun n e => { e with id := n })
      (fun _ _ => rfl) events }

theorem insertStepRows_nil (db : Database) : db.insertStepRows [] [] = db := by
  unfold insertStepRows
  rw [List.append_nil]
  rfl

section
variable {db db' : Database} {loaded row : TestRun} (current : TestRun)

theorem updateRun_of_get? (h : db.runs.get? loaded.id = some row) :
    db.updateRun loaded current = some (db.setRun loaded current) := by
  unfold updateRun
  rw [h]

theorem get?_setRun (h : db.runs.get? loaded.id = some row) :
    (db.setRun loaded current).runs.get? loaded.id = some (loaded.writeBack current row) := by
  unfold setRun
  rw [Table.get?_modify_self, h]
  rfl

variable {current} in
theorem get?_setRun_of_ne {runId : Uuid} (h : runId ≠ loaded.id) :
    (db.setRun loaded current).runs.get? runId = db.runs.get? runId :=
  Table.get?_modify_of_ne _ _ (fun _ => TestRun.id_writeBack ..) h

variable {current} in
/-- A row of the updated table is an earlier one, if it is not the row written back. -/
theorem mem_setRun {r : TestRun} (h : r ∈ (db.setRun loaded current).runs.rows) :
    ∃ row ∈ db.runs.rows,
      r = if row.id = loaded.id then loaded.writeBack current row else row := by
  obtain ⟨row, hrow, heq⟩ := List.mem_map.mp h
  exact ⟨row, hrow, heq.symm⟩

end

end Database

/-! ## A small platform

One suite with one case of two steps, the second of which drifts, and one queued run of it.
-/

def ada : User := { id := 0, email := "ada@example.com", hashedPassword := "x", fullName := "Ada" }

def loginSteps : List StepSpec :=
  [{ action := .click, selector := some "[data-testid=open]" },
    { action := .click, selector := some "#login" }]

def loginSuite : TestSuite :=
  { id := 0, name := "Login", slug := "login", targetBaseUrl := "https://example.com", ownerId := 0 }

def loginCase : TestCase :=
  { id := 0, suiteId := 0, name := "Sign in", steps := loginSteps.map StepSpec.modelDump }

def loginRun : TestRun := { id := 0, suiteId := 0, createdById := some 0, totalCases := 1 }

def loginDb : Database :=
  { Database.empty with
    users := Table.empty.insert fun n => { ada with id := n }
    suites := Table.empty.insert fun n => { loginSuite with id := n }
    cases := Table.empty.insert fun n => { loginCase with id := n }
    runs := Table.empty.insert fun n => { loginRun with id := n } }

end AegisPlatform.Db
