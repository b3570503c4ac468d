import AegisPlatform.Db.Integrity
import AegisPlatform.Foundations.Keys

/-! # A database and its later states

No primary key is given out twice, so a row that is deleted stays deleted: its key never comes back,
and where the foreign keys hold nothing refers to it.
-/

namespace AegisPlatform.Db
open Foundations Domain
set_option autoImplicit false
set_option maxHeartbeats 250000

namespace Database

structure Evolves (db db' : Database) : Prop where
  users : db.users.Evolves db'.users
  suites : db.suites.Evolves db'.suites
  cases : db.cases.Evolves db'.cases
  runs : db.runs.Evolves db'.runs
  healingEvents : db.healingEvents.Evolves db'.healingEvents

/-- The key was given out, and no row has it any more. -/
def Gone (db : Database) : Entity × Uuid → Prop
  | (.user, id) => db.users.Gone id
  | (.testSuite, id) => db.suites.Gone id
  | (.testCase, id) => db.cases.Gone id
  | (.testRun, id) => db.runs.Gone id
  | (.healingEvent, id) => db.healingEvents.Gone id
  | (.stepResult, _) => False

section
variable {db db' db'' : Database}

namespace Evolves

theorem refl (db : Database) : db.Evolves db :=
  ⟨.refl _, .refl _, .refl _, .refl _, .refl _⟩

theorem trans (h : db.Evolves db') (h' : db'.Evolves db'') : db.Evolves db'' where
  users := h.users.trans h'.users
  suites := h.suites.trans h'.suites
  cases := h.cases.trans h'.cases
  runs := h.runs.trans h'.runs
  healingEvents := h.healingEvents.trans h'.healingEvents

theorem gone (h : db.Evolves db') {k : Entity × Uuid} (hk : db.Gone k) : db'.Gone k := by
  obtain ⟨entity, id⟩ := k
  cases entity with
  | user => exact h.users.gone id hk
  | testSuite => exact h.suites.gone id hk
  | testCase => exact h.cases.gone id hk
  | testRun => exact h.runs.gone id hk
  | healingEvent => exact h.healingEvents.gone id hk
  | stepResult => exact hk

theorem of_setRun (db : Database) (loaded current : TestRun) :
    db.Evolves (db.setRun loaded current) :=
  { refl db with runs := .of_modify _ _ _ fun _ => TestRun.id_writeBack .. }

theorem of_insertStepRows (db : Database) (results : List StepResult) (events : List HealingEvent) :
    db.Evolves (db.insertStepRows results events) :=
  { refl db with healingEvents := .of_insertAll _ _ _ _ }

theorem of_deleteSuite (db : Database) (suiteId : Uuid) : db.Evolves (db.deleteSuite suiteId) where
  users := .refl _
  suites := .of_filter ..
  cases := .of_filter ..
  runs := .of_filter ..
  healingEvents := .of_filter ..

end Evolves

/-- No row has a key that is gone. -/
theorem Gone.key_ne {k : Entity × Uuid} (h : db.Gone k) : ∀ row ∈ db.rows, row.key ≠ some k := by
  rintro row hrow hkey
  obtain ⟨entity, id⟩ := k
  have hstored : ∃ p ∈ db.rows, p.key = some (entity, id) := ⟨row, hrow, hkey⟩
  cases entity with
  | user =>
    obtain ⟨user, huser⟩ := exists_user_iff.mp hstored
    rw [h.2] at huser
    cases huser
  | testSuite =>
    obtain ⟨suite, hsuite⟩ := exists_testSuite_iff.mp hstored
    rw [h.2] at hsuite
    cases hsuite
  | testRun =>
    obtain ⟨run, hrun⟩ := exists_testRun_iff.mp hstored
    rw [h.2] at hrun
    cases hrun
  | testCase =>
    obtain ⟨hlt, hnone⟩ := h
    cases row with
    | testCase case =>
      obtain rfl : case.id = id := by simpa [Row.key] using hkey
      have hmem : case ∈ db.cases.rows := by simpa [rows] using hrow
      rw [Table.get?_of_mem hmem] at hnone
      cases hnone
    | user user => simp [Row.key] at hkey
    | testSuite suite => simp [Row.key] at hkey
    | testRun run => simp [Row.key] at hkey
    | stepResult result => simp [Row.key] at hkey
    | healingEvent event => simp [Row.key] at hkey
  | healingEvent =>
    obtain ⟨hlt, hnone⟩ := h
    cases row with
    | healingEvent event =>
      obtain rfl : event.id = id := by simpa [Row.key] using hkey
      have hmem : event ∈ db.healingEvents.rows := by simpa [rows] using hrow
      rw [Table.get?_of_mem hmem] at hnone
      cases hnone
    | user user => simp [Row.key] at hkey
    | testSuite suite => simp [Row.key] at hkey
    | testCase case => simp [Row.key] at hkey
    | testRun run => simp [Row.key] at hkey
    | stepResult result => simp [Row.key] at hkey
  | stepResult => exact h

/-- Where every foreign key holds, nothing refers to a key that is gone. -/
theorem Gone.unreferenced {k : Entity × Uuid} (h : db.Gone k) (hkeys : db.KeysHold) :
    ∀ row ∈ db.rows, k ∉ row.foreignKeys := by
  intro row hrow hforeign
  obtain ⟨p, hp, hkey⟩ := hkeys row hrow k hforeign
  exact h.key_ne p hp hkey

/-- The deletion of a suite leaves every key of its cascade behind for good. -/
theorem gone_deleteSuite {suite : TestSuite} {suiteId : Uuid}
    (hget : db.suites.get? suiteId = some suite) {row : Row} (hrow : row ∈ db.rows)
    (hgoes : db.GoesWith suite row) {k : Entity × Uuid} (hkey : row.key = some k) :
    (db.deleteSuite suiteId).Gone k := by
  have hrejects : db.keeps suiteId row = false := by
    cases hkeeps : db.keeps suiteId row with
    | false => rfl
    | true => exact absurd hgoes ((keeps_iff hget hrow).mp hkeeps)
  cases row with
  | user user => exact hgoes.elim
  | testSuite stored =>
    obtain rfl := Option.some.inj hkey
    exact Table.gone_filter (Table.get?_of_mem (mem_rows_testSuite.mp hrow)) hrejects
  | testCase case =>
    obtain rfl := Option.some.inj hkey
    have hmem : case ∈ db.cases.rows := by simpa [rows] using hrow
    exact Table.gone_filter (Table.get?_of_mem hmem) hrejects
  | testRun run =>
    obtain rfl := Option.some.inj hkey
    exact Table.gone_filter (Table.get?_of_mem (mem_rows_testRun.mp hrow)) hrejects
  | stepResult result => cases hkey
  | healingEvent event =>
    obtain rfl := Option.some.inj hkey
    have hmem : event ∈ db.healingEvents.rows := by simpa [rows] using hrow
    exact Table.gone_filter (Table.get?_of_mem hmem) hrejects

end

end Database

end AegisPlatform.Db
