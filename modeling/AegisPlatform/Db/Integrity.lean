import AegisPlatform.Db.Models
import AegisPlatform.Foundations.ForeignKeys

/-! # Relationships and cascades

The `relationship` declarations of `db/models.py`. A collection is declared with
`cascade="all, delete-orphan"`, the reference back with the default; so `session.delete` of a row
takes the rows that refer to it along, and never the row it refers to. Every foreign key but
`created_by_id` belongs to a relationship.

`goesWith_iff` computes the cascade of a suite, and `rows_deleteSuite` states that `deleteSuite`
deletes it, no row more and no row less.
-/

namespace AegisPlatform.Db
open Foundations Domain
set_option autoImplicit false
set_option maxHeartbeats 250000

inductive Entity
  | user | testSuite | testCase | testRun | stepResult | healingEvent
deriving DecidableEq

inductive Cascade
  | saveUpdate | merge | refreshExpire | expunge | delete | deleteOrphan
deriving DecidableEq

/-- `"all"`, which does not include `delete-orphan`. -/
def Cascade.all : List Cascade := [.saveUpdate, .merge, .refreshExpire, .expunge, .delete]

structure Relationship where
  source : Entity
  target : Entity
  cascade : List Cascade := [.saveUpdate, .merge]

def collection (source target : Entity) : Relationship :=
  { source := source, target := target, cascade := Cascade.all ++ [.deleteOrphan] }

def relationships : List Relationship :=
  [collection .user .testSuite,
    { source := .testSuite, target := .user },
    collection .testSuite .testCase,
    collection .testSuite .testRun,
    { source := .testCase, target := .testSuite },
    { source := .testRun, target := .testSuite },
    collection .testRun .stepResult,
    collection .testRun .healingEvent,
    { source := .stepResult, target := .testRun },
    { source := .healingEvent, target := .testRun }]

inductive Row
  | user (row : User)
  | testSuite (row : TestSuite)
  | testCase (row : TestCase)
  | testRun (row : TestRun)
  | stepResult (row : StepResult)
  | healingEvent (row : HealingEvent)

namespace Row

def entity : Row → Entity
  | user _ => .user
  | testSuite _ => .testSuite
  | testCase _ => .testCase
  | testRun _ => .testRun
  | stepResult _ => .stepResult
  | healingEvent _ => .healingEvent

/-- The primary key, which the model leaves out of step results. -/
def key : Row → Option (Entity × Uuid)
  | user row => some (.user, row.id)
  | testSuite row => some (.testSuite, row.id)
  | testCase row => some (.testCase, row.id)
  | testRun row => some (.testRun, row.id)
  | stepResult _ => none
  | healingEvent row => some (.healingEvent, row.id)

/-- The foreign key with a relationship to it. -/
def parentKey : Row → Option (Entity × Uuid)
  | user _ => none
  | testSuite row => some (.user, row.ownerId)
  | testCase row => some (.testSuite, row.suiteId)
  | testRun row => some (.testSuite, row.suiteId)
  | stepResult row => some (.testRun, row.runId)
  | healingEvent row => some (.testRun, row.runId)

/-- `created_by_id`, which may be null. -/
def creatorKey : Row → Option (Entity × Uuid)
  | testRun row => row.createdById.map fun id => (.user, id)
  | _ => none

def foreignKeys (row : Row) : List (Entity × Uuid) := row.parentKey.toList ++ row.creatorKey.toList

end Row

def BelongsTo (c p : Row) : Prop := ∃ k, p.key = some k ∧ c.parentKey = some k

/-- `session.delete` passes from a row to one that a relationship relates it to, either way, if the
relationship cascades `delete`. -/
def Owns (p c : Row) : Prop :=
  ∃ r ∈ relationships, r.source = p.entity ∧ r.target = c.entity ∧ .delete ∈ r.cascade ∧
    (BelongsTo c p ∨ BelongsTo p c)

/-- The cascades cover the foreign keys that belong to a relationship, and nothing else. -/
theorem owns_iff (p c : Row) : Owns p c ↔ BelongsTo c p := by
  cases p <;> cases c <;>
    simp [Owns, BelongsTo, relationships, collection, Cascade.all, Row.entity, Row.key,
      Row.parentKey]

section
variable {c : Row}

theorem belongsTo_testSuite {suite : TestSuite} :
    BelongsTo c (.testSuite suite) ↔ (∃ case, c = .testCase case ∧ case.suiteId = suite.id) ∨
      ∃ run, c = .testRun run ∧ run.suiteId = suite.id := by
  cases c <;> simp [BelongsTo, Row.key, Row.parentKey]

theorem belongsTo_testRun {run : TestRun} :
    BelongsTo c (.testRun run) ↔ (∃ result, c = .stepResult result ∧ result.runId = run.id) ∨
      ∃ event, c = .healingEvent event ∧ event.runId = run.id := by
  cases c <;> simp [BelongsTo, Row.key, Row.parentKey]

theorem not_belongsTo_testCase {case : TestCase} : ¬ BelongsTo c (.testCase case) := by
  cases c <;> simp [BelongsTo, Row.key, Row.parentKey]

theorem not_belongsTo_stepResult {result : StepResult} : ¬ BelongsTo c (.stepResult result) := by
  simp [BelongsTo, Row.key]

theorem not_belongsTo_healingEvent {event : HealingEvent} :
    ¬ BelongsTo c (.healingEvent event) := by
  cases c <;> simp [BelongsTo, Row.key, Row.parentKey]

end

/-! ## The rows of a database -/

namespace Database

def rows (db : Database) : List Row :=
  db.users.rows.map .user ++ db.suites.rows.map .testSuite ++ db.cases.rows.map .testCase ++
    db.runs.rows.map .testRun ++ db.stepResults.map .stepResult ++
    db.healingEvents.rows.map .healingEvent

section
variable {db : Database}

@[simp] theorem mem_rows_testSuite {suite : TestSuite} :
    .testSuite suite ∈ db.rows ↔ suite ∈ db.suites.rows := by simp [rows]

@[simp] theorem mem_rows_testRun {run : TestRun} :
    .testRun run ∈ db.rows ↔ run ∈ db.runs.rows := by simp [rows]

theorem forall_rows_iff {P : Row → Prop} :
    (∀ row ∈ db.rows, P row) ↔
      (∀ user ∈ db.users.rows, P (.user user)) ∧ (∀ suite ∈ db.suites.rows, P (.testSuite suite)) ∧
      (∀ case ∈ db.cases.rows, P (.testCase case)) ∧ (∀ run ∈ db.runs.rows, P (.testRun run)) ∧
      (∀ result ∈ db.stepResults, P (.stepResult result)) ∧
      ∀ event ∈ db.healingEvents.rows, P (.healingEvent event) := by
  simp only [rows, List.forall_mem_append, List.forall_mem_map, and_assoc]

theorem exists_user_iff {id : Uuid} :
    (∃ p ∈ db.rows, p.key = some (.user, id)) ↔ ∃ user, db.users.get? id = some user := by
  simp [rows, Row.key, or_and_right, exists_or, Table.get?_eq_some_iff]

theorem exists_testSuite_iff {id : Uuid} :
    (∃ p ∈ db.rows, p.key = some (.testSuite, id)) ↔ ∃ suite, db.suites.get? id = some suite := by
  simp [rows, Row.key, or_and_right, exists_or, Table.get?_eq_some_iff]

theorem exists_testRun_iff {id : Uuid} :
    (∃ p ∈ db.rows, p.key = some (.testRun, id)) ↔ ∃ run, db.runs.get? id = some run := by
  simp [rows, Row.key, or_and_right, exists_or, Table.get?_eq_some_iff]

end

/-- Suites belong to users, cases and runs to suites, results and healing events to runs. -/
structure Intact (db : Database) : Prop where
  suites : References db.suites.rows TestSuite.ownerId db.users
  cases : References db.cases.rows TestCase.suiteId db.suites
  runs : References db.runs.rows TestRun.suiteId db.suites
  stepResults : References db.stepResults StepResult.runId db.runs
  healingEvents : References db.healingEvents.rows HealingEvent.runId db.runs

theorem intact_iff (db : Database) : db.Intact ↔ NoOrphans Row.key Row.parentKey db.rows := by
  unfold NoOrphans
  rw [forall_rows_iff]
  simp only [Row.parentKey, Option.mem_def, Option.some.injEq, forall_eq', reduceCtorEq,
    false_implies, implies_true, true_and, exists_user_iff, exists_testSuite_iff,
    exists_testRun_iff]
  exact ⟨fun h => ⟨h.suites, h.cases, h.runs, h.stepResults, h.healingEvents⟩,
    fun ⟨hsuites, hcases, hruns, hresults, hevents⟩ => ⟨hsuites, hcases, hruns, hresults, hevents⟩⟩

/-- Every foreign key, that of a run to its creator included, is the key of a row. -/
def KeysHold (db : Database) : Prop :=
  ∀ row ∈ db.rows, ∀ k ∈ row.foreignKeys, ∃ p ∈ db.rows, p.key = some k

theorem keysHold_iff (db : Database) : db.KeysHold ↔ db.Intact ∧
    ∀ run ∈ db.runs.rows, ∀ userId ∈ run.createdById, ∃ user, db.users.get? userId = some user := by
  have hcreators : (∀ row ∈ db.rows, ∀ k ∈ row.creatorKey, ∃ p ∈ db.rows, p.key = some k) ↔
      ∀ run ∈ db.runs.rows, ∀ userId ∈ run.createdById,
        ∃ user, db.users.get? userId = some user := by
    rw [forall_rows_iff]
    simp [Row.creatorKey, exists_user_iff]
  rw [intact_iff, ← hcreators]
  unfold KeysHold NoOrphans Row.foreignKeys
  simp only [List.mem_append, Option.mem_toList, or_imp, forall_and]
  exact Iff.rfl

/-! ## The cascade of a suite -/

/-- What goes with a suite: itself, its cases and runs, and the results and events of these runs. -/
def GoesWith (db : Database) (suite : TestSuite) : Row → Prop
  | .user _ => False
  | .testSuite row => row = suite
  | .testCase row => row.suiteId = suite.id
  | .testRun row => row.suiteId = suite.id
  | .stepResult row => ∃ run ∈ db.runs.rows, run.suiteId = suite.id ∧ run.id = row.runId
  | .healingEvent row => ∃ run ∈ db.runs.rows, run.suiteId = suite.id ∧ run.id = row.runId

section
variable {db : Database} {suite : TestSuite}

theorem goesWith_owned {p c : Row} (hp : p ∈ db.rows) (h : db.GoesWith suite p)
    (howns : BelongsTo c p) : db.GoesWith suite c := by
  cases p with
  | user row => exact h.elim
  | testSuite row =>
    obtain rfl := h
    rcases belongsTo_testSuite.mp howns with ⟨case, rfl, hcase⟩ | ⟨run, rfl, hrun⟩
    · exact hcase
    · exact hrun
  | testCase row => exact (not_belongsTo_testCase howns).elim
  | testRun row =>
    have hrun := mem_rows_testRun.mp hp
    rcases belongsTo_testRun.mp howns with ⟨result, rfl, hresult⟩ | ⟨event, rfl, hevent⟩
    · exact ⟨row, hrun, h, hresult.symm⟩
    · exact ⟨row, hrun, h, hevent.symm⟩
  | stepResult row => exact (not_belongsTo_stepResult howns).elim
  | healingEvent row => exact (not_belongsTo_healingEvent howns).elim

theorem goesWith_cascaded {row : Row} (hrow : row ∈ db.rows) (h : db.GoesWith suite row) :
    Cascaded Owns db.rows (.testSuite suite) row := by
  have hroot : Cascaded Owns db.rows (.testSuite suite) (.testSuite suite) := Cascaded.refl ..
  have hrun : ∀ run ∈ db.runs.rows, run.suiteId = suite.id →
      Cascaded Owns db.rows (.testSuite suite) (.testRun run) := by
    intro run hmem hsuite
    have hbelongs := belongsTo_testSuite.mpr (Or.inr ⟨run, rfl, hsuite⟩)
    exact hroot.child (mem_rows_testRun.mpr hmem) ((owns_iff _ _).mpr hbelongs)
  cases row with
  | user row => exact h.elim
  | testSuite row =>
    obtain rfl := h
    exact hroot
  | testCase row =>
    have hbelongs := belongsTo_testSuite.mpr (Or.inl ⟨row, rfl, h⟩)
    exact hroot.child hrow ((owns_iff _ _).mpr hbelongs)
  | testRun row => exact hrun row (mem_rows_testRun.mp hrow) h
  | stepResult row =>
    obtain ⟨run, hmem, hsuite, hid⟩ := h
    have hbelongs := belongsTo_testRun.mpr (Or.inl ⟨row, rfl, hid.symm⟩)
    exact (hrun run hmem hsuite).child hrow ((owns_iff _ _).mpr hbelongs)
  | healingEvent row =>
    obtain ⟨run, hmem, hsuite, hid⟩ := h
    have hbelongs := belongsTo_testRun.mpr (Or.inr ⟨row, rfl, hid.symm⟩)
    exact (hrun run hmem hsuite).child hrow ((owns_iff _ _).mpr hbelongs)

/-- The cascade of a stored suite, computed. -/
theorem goesWith_iff (hsuite : suite ∈ db.suites.rows) {row : Row} (hrow : row ∈ db.rows) :
    Cascaded Owns db.rows (.testSuite suite) row ↔ db.GoesWith suite row := by
  refine ⟨fun h => ?_, goesWith_cascaded hrow⟩
  have hboth : row ∈ db.rows ∧ db.GoesWith suite row := by
    refine h.invariant (G := fun row => row ∈ db.rows ∧ db.GoesWith suite row)
      ⟨mem_rows_testSuite.mpr hsuite, rfl⟩ ?_
    intro p c hp hc howns
    exact ⟨hc, goesWith_owned hp.1 hp.2 ((owns_iff p c).mp howns)⟩
  exact hboth.2

end

/-- The test by which `deleteSuite` keeps a row. -/
def keeps (db : Database) (suiteId : Uuid) : Row → Bool
  | .user _ => true
  | .testSuite row => row.id != suiteId
  | .testCase row => row.suiteId != suiteId
  | .testRun row => row.suiteId != suiteId
  | .stepResult row => !((db.runsOf suiteId).map TestRun.id).contains row.runId
  | .healingEvent row => !((db.runsOf suiteId).map TestRun.id).contains row.runId

section
variable {db : Database} {suite : TestSuite} {suiteId : Uuid}

theorem rows_deleteSuite_filter (db : Database) (suiteId : Uuid) :
    (db.deleteSuite suiteId).rows = db.rows.filter (db.keeps suiteId) := by
  simp only [rows, deleteSuite, Table.rows_filter, List.filter_append, List.filter_map]
  have husers : db.users.rows.filter (db.keeps suiteId ∘ Row.user) = db.users.rows :=
    List.filter_eq_self.mpr fun _ _ => rfl
  rw [husers]
  rfl

theorem contains_runsOf {runId : Uuid} :
    ((db.runsOf suiteId).map TestRun.id).contains runId = true ↔
      ∃ run ∈ db.runs.rows, run.suiteId = suiteId ∧ run.id = runId := by
  simp [runsOf, and_assoc]

theorem keeps_iff (hget : db.suites.get? suiteId = some suite) {row : Row} (hrow : row ∈ db.rows) :
    db.keeps suiteId row = true ↔ ¬ db.GoesWith suite row := by
  obtain rfl := Table.get?_key hget
  cases row with
  | user row => simp [keeps, GoesWith]
  | testSuite row =>
    have hstored := Table.get?_of_mem (mem_rows_testSuite.mp hrow)
    have hsame : row.id = suite.id ↔ row = suite := by
      refine ⟨fun hid => ?_, fun heq => heq ▸ rfl⟩
      rw [hid, hget] at hstored
      exact (Option.some.inj hstored).symm
    simp [keeps, GoesWith, hsame]
  | testCase row => simp [keeps, GoesWith]
  | testRun row => simp [keeps, GoesWith]
  | stepResult row => rw [keeps, GoesWith, ← contains_runsOf, Bool.not_eq_true', Bool.not_eq_true]
  | healingEvent row => rw [keeps, GoesWith, ← contains_runsOf, Bool.not_eq_true', Bool.not_eq_true]

/-- `deleteSuite` deletes the cascade of the suite. -/
theorem rows_deleteSuite (hget : db.suites.get? suiteId = some suite) :
    (db.deleteSuite suiteId).rows = remaining Owns db.rows (.testSuite suite) := by
  rw [rows_deleteSuite_filter, remaining_eq_filter]
  intro row hrow
  rw [keeps_iff hget hrow, goesWith_iff (Table.get?_mem hget) hrow]

theorem mem_deleteSuite (hget : db.suites.get? suiteId = some suite) (row : Row) :
    row ∈ (db.deleteSuite suiteId).rows ↔ row ∈ db.rows ∧ ¬ db.GoesWith suite row := by
  rw [rows_deleteSuite hget, mem_remaining]
  exact and_congr_right fun hrow => not_congr (goesWith_iff (Table.get?_mem hget) hrow)

end

/-! ## What keeps the references -/

theorem empty_intact : Database.empty.Intact :=
  ⟨References.nil _ _, References.nil _ _, References.nil _ _, References.nil _ _,
    References.nil _ _⟩

namespace Intact
variable {db : Database}

theorem deleteSuite (h : db.Intact) {suite : TestSuite} {suiteId : Uuid}
    (hget : db.suites.get? suiteId = some suite) : (db.deleteSuite suiteId).Intact := by
  rw [intact_iff, rows_deleteSuite hget]
  refine ((intact_iff db).mp h).remaining ?_ _
  intro p c k hkey hforeign
  exact (owns_iff p c).mpr ⟨k, hkey, hforeign⟩

theorem setRun (h : db.Intact) (loaded current : TestRun) : (db.setRun loaded current).Intact where
  suites := h.suites
  cases := h.cases
  runs := by
    apply h.runs.of_column
    intro run hrun
    obtain ⟨row, hrow, rfl⟩ := mem_setRun hrun
    refine ⟨row, hrow, ?_⟩
    split
    · rfl
    · rfl
  stepResults := h.stepResults.modify _ _ fun _ => TestRun.id_writeBack ..
  healingEvents := h.healingEvents.modify _ _ fun _ => TestRun.id_writeBack ..

/-- Rows of one stored run. -/
theorem insertStepRows (h : db.Intact) {runId : Uuid} {run : TestRun}
    (hget : db.runs.get? runId = some run) {results : List StepResult} {events : List HealingEvent}
    (hresults : ∀ r ∈ results, r.runId = runId) (hevents : ∀ e ∈ events, e.runId = runId) :
    (db.insertStepRows results events).Intact where
  suites := h.suites
  cases := h.cases
  runs := h.runs
  stepResults := h.stepResults.append_of_get? hget hresults
  healingEvents := by
    unfold Database.insertStepRows
    rw [Table.rows_insertAll]
    apply h.healingEvents.append_of_get? hget
    intro e he
    obtain ⟨i, hi, rfl⟩ := List.mem_mapIdx.mp he
    exact hevents events[i] (List.getElem_mem hi)

end Intact

end Database

end AegisPlatform.Db
