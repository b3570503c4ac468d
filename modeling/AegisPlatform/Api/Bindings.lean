import AegisPlatform.Core.Pagination
import AegisPlatform.Db.Columns
import AegisPlatform.Api.Site
import AegisPlatform.Workers.Healing

/-! # What requests and executions bind to the database

The bounds of the schemas and dependencies on one side, the values the handlers and `execute_run`
pass to the database on the other. No schema bounds an `order_index`, no dependency an
`Idempotency-Key` or a page, nothing the selector a step is healed to, and `execute_run` binds aware
datetimes to columns without a time zone. Every other value fits.
-/

namespace AegisPlatform.Api
open Foundations Domain Core Db Services Workers
set_option autoImplicit false
set_option maxHeartbeats 250000

/-! ## What the schemas admit -/

/-- `^[a-z0-9][a-z0-9-]*$`. -/
def IsSlug (slug : String) : Prop :=
  (∀ c ∈ slug.toList, c.isLower ∨ c.isDigit ∨ c = '-') ∧ slug.toList.head? ≠ some '-'

structure AdmittedCase (data : TestCaseCreate) : Prop where
  name : 1 ≤ data.name.length ∧ data.name.length ≤ 255

structure AdmittedSuite (data : SuiteCreate) : Prop where
  name : 1 ≤ data.name.length ∧ data.name.length ≤ 255
  slug : 1 ≤ data.slug.length ∧ data.slug.length ≤ 255 ∧ IsSlug data.slug
  targetBaseUrl : data.targetBaseUrl.length ≤ 2048
  cases : ∀ case ∈ data.cases, AdmittedCase case

structure AdmittedUpdate (data : SuiteUpdate) : Prop where
  name : ∀ value ∈ data.name, ∀ name ∈ value, 1 ≤ name.length ∧ name.length ≤ 255
  targetBaseUrl : ∀ value ∈ data.targetBaseUrl, ∀ url ∈ value, url.length ≤ 2048

/-- A page is admitted by `getPagination` and steps carry their own bounds. -/
def Admitted : Request → Prop
  | .write (.createSuite data) => AdmittedSuite data
  | .write (.updateSuite _ data) => AdmittedUpdate data
  | .write (.addCase _ data) => AdmittedCase data
  | _ => True

/-! ## What requests bind -/

/-- The fields a patch sets, null or not. -/
def updateBindings (data : SuiteUpdate) : List Binding :=
  (data.name.map fun value => ⟨"name", .string 255, orNull .str value⟩).toList ++
  (data.description.map fun value => ⟨"description", .text, orNull .str value⟩).toList ++
  (data.targetBaseUrl.map fun value =>
    ⟨"target_base_url", .string 2048, orNull .str value⟩).toList ++
  (data.tags.map fun value =>
    ⟨"tags", .json, orNull (fun tags => .json (.arr (tags.map .str))) value⟩).toList ++
  (data.isActive.map fun value => ⟨"is_active", .boolean, orNull .bool value⟩).toList

/-- The window of a list query. -/
def windowBindings (pagination : PaginationParams) : List Binding :=
  [⟨"LIMIT", .bigint, .int pagination.limit⟩, ⟨"OFFSET", .bigint, .int pagination.offset⟩]

def Pagination.params (pagination : Pagination) : PaginationParams :=
  ⟨pagination.page, pagination.size⟩

/-- The key of a row, as every lookup by id binds it. -/
def idBinding (id : Uuid) : Binding := ⟨"id", .uuid, .uuid id⟩

def readBindings : Read → List Binding
  | .me => []
  | .listSuites pagination => windowBindings pagination.params
  | .getSuite suiteId => [idBinding suiteId]
  | .listRuns suiteId pagination =>
    (suiteId.map fun id => ⟨"suite_id", .uuid, .uuid id⟩).toList ++
      windowBindings pagination.params
  | .getRun runId => [idBinding runId]
  | .listHealingEvents runId => [⟨"run_id", .uuid, .uuid runId⟩]

/-- What a write binds; the fresh ids of the cases of a new suite are left at 0. -/
def writeBindings (db : Database) (user : User) : Write → List Binding
  | .createSuite data =>
    ⟨"slug", .string 255, .str data.slug⟩ ::
      match SuiteService.create db data user.id with
      | .error _ => []
      | .ok (suite, _) => suite.bindings ++ data.cases.flatMap fun case =>
          (SuiteService.buildCase suite.id case 0).bindings
  | .updateSuite suiteId data =>
    idBinding suiteId ::
      match SuiteService.mutable db suiteId user with
      | .error _ => []
      | .ok _ => updateBindings data
  | .deleteSuite suiteId => [idBinding suiteId]
  | .addCase suiteId data =>
    idBinding suiteId ::
      match SuiteService.addCase db suiteId data user with
      | .error _ => []
      | .ok (case, _) => case.bindings
  | .cancelRun runId =>
    idBinding runId ::
      match RunService.cancel db runId user with
      | .error _ => []
      | .ok (run, _) => only ["status"] run.bindings
  | .reviewHealingEvent eventId accepted =>
    idBinding eventId ::
      match HealingService.review db eventId accepted with
      | .error _ => []
      | .ok (event, _) => only ["accepted"] event.bindings

def triggerBindings (db : Database) (user : User) (suiteId : Uuid) (data : RunCreate)
    (idempotencyKey : Option String) : List Binding :=
  (if truthy idempotencyKey then
      [⟨"idempotency_key", .string 255, orNull .str idempotencyKey⟩] else []) ++
    match RunService.create db suiteId data user idempotencyKey with
    | .error _ => [idBinding suiteId]
    | .ok ((run, created), _) => if created then idBinding suiteId :: run.bindings else []

/-- Every value a request of the account `userId` binds. -/
def requestBindings (db : Database) (userId : Uuid) : Request → List Binding
  | .read read =>
    idBinding userId ::
      match currentUser db userId with
      | .error _ => []
      | .ok _ => readBindings read
  | .write write =>
    idBinding userId ::
      match engineer db userId with
      | .error _ => []
      | .ok user => writeBindings db user write
  | .triggerRun suiteId data idempotencyKey =>
    idBinding userId ::
      match engineer db userId with
      | .error _ => []
      | .ok user => triggerBindings db user suiteId data idempotencyKey

/-! ## What an execution binds -/

section
variable [Unicode]

/-- The rows of the steps the loop has flushed, with their events. -/
def stepBindings (p : Progress) : List Binding :=
  p.results.flatMap StepResult.bindings ++ p.healingEvents.flatMap HealingEvent.bindings

/-- The closing commit, which a refused session does not reach. -/
def closeBindings (env : Env) (run : TestRun) (outcome : Except Stopped Progress) : List Binding :=
  if refused outcome then []
  else
    only ["status", "passed_count", "failed_count", "healed_count", "duration_ms", "error",
      "finished_at"] (closeRun env run outcome).bindings

def executeBindings (env : Env) (runId : Uuid) (w : World) : List Binding :=
  idBinding runId ::
    match w.db.runs.get? runId with
    | none => []
    | some run =>
      if run.status ≠ .queued then []
      else
        idBinding run.suiteId ::
          match w.db.getWithCases run.suiteId with
          | none => only ["status", "error"] (missing run).bindings
          | some (suite, cases) =>
            only ["status", "started_at"] (begun env run).bindings ++
              match beginRun env run suite w with
              | (_, .error _) => []
              | (_, .ok run) =>
                let outcome := executeCases env runId cases {}
                stepBindings (Except.progress outcome) ++ closeBindings env run outcome

inductive Operation
  | request (userId : Uuid) (call : Request)
  | execute (runId : Uuid) (env : Env)

namespace Operation

def bindings (w : World) : Operation → List Binding
  | .request userId call => requestBindings w.db userId call
  | .execute runId env => executeBindings env runId w

omit [Unicode] in
def IsAdmitted : Operation → Prop
  | .request _ call => Admitted call
  | .execute .. => True

end Operation

end

/-! ## Where everything fits -/

/-- The values nothing bounds are within their columns where the request gets to bind them. -/
def RequestWithin (db : Database) (userId : Uuid) : Request → Prop
  | .read (.listSuites pagination) | .read (.listRuns _ pagination) =>
    (∃ user, currentUser db userId = .ok user) → InBits 64 pagination.params.offset
  | .write (.createSuite data) =>
    (∃ user, engineer db userId = .ok user) → db.getBySlug data.slug = none →
      ∀ case ∈ data.cases, InBits 32 case.orderIndex
  | .write (.addCase suiteId data) =>
    ∀ user, engineer db userId = .ok user → ∀ suite,
      SuiteService.mutable db suiteId user = .ok suite → InBits 32 data.orderIndex
  | .triggerRun suiteId _ idempotencyKey =>
    ∀ user, engineer db userId = .ok user →
      (∀ key ∈ idempotencyKey, key.length ≤ 255) ∧
        (RunService.replayed db idempotencyKey = none → ∀ suite cases,
          RunService.runnable db suiteId user = .ok (suite, cases) → InBits 32 cases.length)
  | _ => True

/-- No execution begins, and no request binds what is out of bounds. -/
def Operation.Within (w : World) : Operation → Prop
  | .request userId call => RequestWithin w.db userId call
  | .execute runId _ => ¬ ∃ run suite cases, Found w runId run suite cases

section
variable {db : Database} {user : User} {userId : Uuid}

@[simp] theorem holds_idBinding (id : Uuid) : (idBinding id).type.holds (idBinding id).value = true :=
  rfl

theorem fit_window (pagination : Pagination) :
    Fit (windowBindings pagination.params) ↔ InBits 64 pagination.params.offset := by
  have hlimit : InBits 64 pagination.params.limit := by
    obtain ⟨page, size, hpage, hpos, hmax⟩ := pagination
    change -2 ^ 63 ≤ (size : ℤ) ∧ (size : ℤ) < 2 ^ 63
    omega
  simp [windowBindings, hlimit]

theorem fit_update {data : SuiteUpdate} (h : AdmittedUpdate data) : Fit (updateBindings data) := by
  have hname : ∀ value ∈ data.name, ∀ name ∈ value, name.length ≤ 255 :=
    fun value hvalue name hmem => (h.name value hvalue name hmem).2
  have hset : ∀ {α : Type} (set : Option α) (bindingOf : α → Binding),
      (∀ a ∈ set, (bindingOf a).type.holds (bindingOf a).value = true) →
        Fit (set.map bindingOf).toList := by
    intro α set bindingOf hfit
    cases set with
    | none => exact fit_nil
    | some a => simpa using hfit a rfl
  unfold updateBindings
  simp only [fit_append]
  refine ⟨⟨⟨⟨hset _ _ ?_, hset _ _ ?_⟩, hset _ _ ?_⟩, hset _ _ ?_⟩, hset _ _ ?_⟩
  · simpa using hname
  · simp
  · simpa using h.targetBaseUrl
  · simp
  · simp

theorem fit_read (read : Read) :
    Fit (readBindings read) ↔ match read with
      | .listSuites pagination | .listRuns _ pagination => InBits 64 pagination.params.offset
      | _ => True := by
  cases read with
  | me => simp [readBindings]
  | listSuites pagination => exact fit_window pagination
  | getSuite suiteId => simp [readBindings]
  | listRuns suiteId pagination =>
    cases suiteId with
    | none => exact fit_window pagination
    | some suiteId => simpa [readBindings] using fit_window pagination
  | getRun runId => simp [readBindings]
  | listHealingEvents runId => simp [readBindings]

theorem fit_createSuite {data : SuiteCreate} (h : AdmittedSuite data) :
    Fit (writeBindings db user (.createSuite data)) ↔
      (db.getBySlug data.slug = none → ∀ case ∈ data.cases, InBits 32 case.orderIndex) := by
  unfold writeBindings SuiteService.create
  cases hslug : db.getBySlug data.slug with
  | some taken => simp [hslug, h.slug.2.1]
  | none =>
    have hsuite : Fit (SuiteService.newSuite data user.id db.suites.next).bindings :=
      (fit_suite _).mpr ⟨h.name.2, h.slug.2.1, h.targetBaseUrl⟩
    have hcase : ∀ case ∈ data.cases,
        (Fit (SuiteService.buildCase db.suites.next case 0).bindings ↔
          InBits 32 case.orderIndex) := by
      intro case hmem
      rw [fit_case]
      exact and_iff_right (h.cases case hmem).name.2
    simp only [hslug, fit_cons, fit_append, fit_flatMap, SqlType.holds_string, h.slug.2.1, hsuite,
      true_and, SuiteService.id_newSuite, true_implies]
    exact forall₂_congr hcase

theorem fit_addCase {suiteId : Uuid} {data : TestCaseCreate} (h : AdmittedCase data) :
    Fit (writeBindings db user (.addCase suiteId data)) ↔
      ∀ suite, SuiteService.mutable db suiteId user = .ok suite → InBits 32 data.orderIndex := by
  unfold writeBindings SuiteService.addCase
  cases hmutable : SuiteService.mutable db suiteId user with
  | error e => simp [hmutable]
  | ok suite =>
    have hcase : Fit (SuiteService.buildCase suite.id data db.cases.next).bindings ↔
        InBits 32 data.orderIndex := by
      rw [fit_case]
      exact and_iff_right h.name.2
    simp [hmutable, hcase]

/-- The writes without an unbounded value. -/
theorem fit_write {write : Write} (h : Admitted (.write write)) :
    Fit (writeBindings db user write) ↔ match write with
      | .createSuite data =>
        db.getBySlug data.slug = none → ∀ case ∈ data.cases, InBits 32 case.orderIndex
      | .addCase suiteId data =>
        ∀ suite, SuiteService.mutable db suiteId user = .ok suite → InBits 32 data.orderIndex
      | _ => True := by
  cases write with
  | createSuite data => exact fit_createSuite h
  | addCase suiteId data => exact fit_addCase h
  | updateSuite suiteId data =>
    have hupdate : Fit (updateBindings data) := fit_update h
    unfold writeBindings
    cases hmutable : SuiteService.mutable db suiteId user with
    | error e => simp [hmutable]
    | ok suite => simp [hmutable, hupdate]
  | deleteSuite suiteId => simp [writeBindings]
  | cancelRun runId =>
    have hstatus : ∀ run : TestRun, Fit (only ["status"] run.bindings) := by
      intro run
      simp [only, TestRun.bindings, statusName_length]
    unfold writeBindings
    cases hcancel : RunService.cancel db runId user with
    | error e => simp [hcancel]
    | ok result => simp [hcancel, hstatus]
  | reviewHealingEvent eventId accepted =>
    have haccepted : ∀ event : HealingEvent, Fit (only ["accepted"] event.bindings) := by
      intro event
      simp [only, HealingEvent.bindings]
    unfold writeBindings
    cases hreview : HealingService.review db eventId accepted with
    | error e => simp [hreview]
    | ok result => simp [hreview, haccepted]

theorem fit_newRun (suite : TestSuite) (cases : List TestCase) (data : RunCreate)
    (idempotencyKey : Option String) (id : Uuid) :
    Fit (RunService.newRun suite cases data user idempotencyKey id).bindings ↔
      (∀ key ∈ idempotencyKey, key.length ≤ 255) ∧ InBits 32 cases.length := by
  have hzero : InBits 32 0 := by decide
  rw [fit_run]
  simp [RunService.newRun, hzero]

theorem fit_trigger (db : Database) (user : User) (suiteId : Uuid) (data : RunCreate)
    (idempotencyKey : Option String) :
    Fit (triggerBindings db user suiteId data idempotencyKey) ↔
      (∀ key ∈ idempotencyKey, key.length ≤ 255) ∧
        (RunService.replayed db idempotencyKey = none → ∀ suite cases,
          RunService.runnable db suiteId user = .ok (suite, cases) → InBits 32 cases.length) := by
  have hkey : Fit (if truthy idempotencyKey then
      [⟨"idempotency_key", .string 255, orNull .str idempotencyKey⟩] else []) ↔
        ∀ key ∈ idempotencyKey, key.length ≤ 255 := by
    cases idempotencyKey with
    | none => simp [truthy]
    | some key =>
      by_cases hempty : key = ""
      · simp [truthy, hempty]
      · simp [truthy, hempty]
  unfold triggerBindings RunService.create
  rw [fit_append, hkey]
  cases hreplay : RunService.replayed db idempotencyKey with
  | some run => simp
  | none =>
    cases hrunnable : RunService.runnable db suiteId user with
    | error e => simp
    | ok found =>
      obtain ⟨suite, cases⟩ := found
      simp only [if_true, fit_cons, holds_idBinding, true_and, fit_newRun,
        Except.ok.injEq, Prod.mk.injEq, and_imp, true_implies]
      constructor
      · rintro ⟨hlength, -, hcases⟩
        refine ⟨hlength, ?_⟩
        rintro _ _ rfl rfl
        exact hcases
      · rintro ⟨hlength, hcases⟩
        exact ⟨hlength, hlength, hcases suite cases rfl rfl⟩

/-- An admitted request binds only what fits iff nothing it gets to bind is out of bounds. -/
theorem fit_request {call : Request} (h : Admitted call) :
    Fit (requestBindings db userId call) ↔ RequestWithin db userId call := by
  cases call with
  | read read =>
    unfold requestBindings
    rw [fit_cons, and_iff_right (holds_idBinding userId)]
    cases huser : currentUser db userId with
    | error e =>
      cases read with
      | listSuites pagination | listRuns suiteId pagination => simp [RequestWithin, huser]
      | me | getSuite | getRun | listHealingEvents => simp [RequestWithin]
    | ok user =>
      simp only [fit_read]
      cases read with
      | listSuites pagination | listRuns suiteId pagination => simp [RequestWithin, huser]
      | me | getSuite | getRun | listHealingEvents => simp [RequestWithin]
  | write write =>
    unfold requestBindings
    rw [fit_cons, and_iff_right (holds_idBinding userId)]
    cases huser : engineer db userId with
    | error e =>
      cases write with
      | createSuite data | addCase suiteId data => simp [RequestWithin, huser]
      | updateSuite | deleteSuite | cancelRun | reviewHealingEvent => simp [RequestWithin]
    | ok user =>
      simp only [fit_write h]
      cases write with
      | createSuite data | addCase suiteId data => simp [RequestWithin, huser]
      | updateSuite | deleteSuite | cancelRun | reviewHealingEvent => simp [RequestWithin]
  | triggerRun suiteId data idempotencyKey =>
    unfold requestBindings RequestWithin
    rw [fit_cons, and_iff_right (holds_idBinding userId)]
    cases huser : engineer db userId with
    | error e => simp
    | ok user => simp [fit_trigger]

end

/-! ## Executions -/

section
variable [Unicode] {env : Env} {runId : Uuid} {w : World}

omit [Unicode] in
/-- The commit that marks a run RUNNING binds an aware datetime to a column without a time zone. -/
theorem begun_misfits (env : Env) (run : TestRun) :
    ¬ Fit (only ["status", "started_at"] (begun env run).bindings) := by
  simp [only, TestRun.bindings, begun, orNull]

omit [Unicode] in
theorem missing_fits (run : TestRun) : Fit (only ["status", "error"] (missing run).bindings) := by
  simp [only, TestRun.bindings, statusName_length]

theorem durationMs_inBits (step : StepSpec) (index : ℕ) :
    InBits 32 (runStep step index).durationMs := by
  have hduration : (runStep step index).durationMs = 15 + (index % 5 : ℕ) * 7 := by
    unfold runStep
    dsimp only
    split
    · rfl
    · split <;> rfl
  rw [hduration]
  change -2 ^ 31 ≤ _ ∧ _ < 2 ^ 31
  omega

theorem fit_taskResult {t : Task} (hname : t.case.name.length ≤ 255) (hindex : InBits 32 t.index)
    (status : StepStatus) (healedSelector message : Option String) :
    Fit (taskResult runId t status healedSelector message).bindings ↔
      ∀ s ∈ healedSelector, s.length ≤ 1024 := by
  rw [fit_result]
  constructor
  · exact fun h => h.2.2.2.1
  · exact fun h => ⟨hname, hindex, t.step.selector_length, h, durationMs_inBits t.step t.index⟩

/-- Beside the timestamps of its run, a step binds one value that nothing bounds: the selector it was
healed to. -/
theorem fit_record {t : Task} {r : StepRecord} (hname : t.case.name.length ≤ 255)
    (hindex : InBits 32 t.index) (hhash : (env.snapshotHash t.page).length ≤ 64)
    (hr : record env runId t = .ok r) :
    Fit (r.result.bindings ++ r.event.toList.flatMap HealingEvent.bindings) ↔
      ∀ s ∈ r.result.healedSelector, s.length ≤ 1024 := by
  have hselector : (t.step.selector.getD "").length ≤ 1024 := by
    cases hs : t.step.selector with
    | none => decide
    | some s => exact t.step.selector_length s hs
  rcases record_ok_iff.mp hr with ⟨-, proposal, -, rfl⟩ | ⟨-, rfl⟩
  · have hevent : Fit (healingEvent env runId t proposal).bindings ↔
        ∀ s ∈ proposal.healedSelector, s.length ≤ 1024 := by
      rw [fit_event]
      constructor
      · exact fun h => h.2.1
      · intro h
        refine ⟨hselector, h, ?_⟩
        rintro _ ⟨⟩
        exact hhash
    have hresult : Fit (healedRecord env runId t proposal).result.bindings ↔
        ∀ s ∈ proposal.healedSelector, s.length ≤ 1024 := by
      unfold healedRecord
      cases proposal.healedSelector with
      | none => exact fit_taskResult hname hindex ..
      | some selector => exact fit_taskResult hname hindex ..
    rw [fit_append, hresult, (result_healedRecord env runId t proposal).2]
    change _ ∧ Fit ([healingEvent env runId t proposal].flatMap HealingEvent.bindings) ↔ _
    rw [List.flatMap_singleton, hevent, and_self]
  · rw [fit_append, fit_taskResult hname hindex]
    exact and_iff_left fit_nil

/-- An execution binds only what fits iff it does not begin. -/
theorem fit_execute : Fit (executeBindings env runId w) ↔
    ¬ ∃ run suite cases, Found w runId run suite cases := by
  unfold executeBindings
  rw [fit_cons, and_iff_right (holds_idBinding runId)]
  cases hrow : w.db.runs.get? runId with
  | none =>
    refine iff_of_true fit_nil ?_
    rintro ⟨run, suite, cases, hfound⟩
    rw [hfound.row] at hrow
    cases hrow
  | some run =>
    by_cases hqueued : run.status = .queued
    · simp only [hqueued, ne_eq, not_true, if_false]
      rw [fit_cons, and_iff_right (holds_idBinding run.suiteId)]
      cases hsuite : w.db.getWithCases run.suiteId with
      | none =>
        refine iff_of_true (missing_fits run) ?_
        rintro ⟨run', suite, cases, hfound⟩
        rw [hfound.row] at hrow
        obtain rfl := Option.some.inj hrow
        rw [hfound.suite] at hsuite
        cases hsuite
      | some found =>
        refine iff_of_false ?_ (not_not.mpr ⟨run, found.1, found.2, hrow, hqueued, hsuite⟩)
        exact fun h => begun_misfits env run (fit_append.mp h).1
    · simp only [hqueued, ne_eq, not_false_iff, if_true]
      refine iff_of_true fit_nil ?_
      rintro ⟨run', suite, cases, hfound⟩
      rw [hfound.row] at hrow
      obtain rfl := Option.some.inj hrow
      exact hqueued hfound.queued

/-- For every admitted request of any account and every execution, in every state: all values bound
to the database fit iff no execution begins and nothing unbounded is out of bounds. -/
theorem bindings_fit_iff (w : World) (op : Operation) (h : op.IsAdmitted) :
    Fit (op.bindings w) ↔ op.Within w := by
  cases op with
  | request userId call => exact fit_request h
  | execute runId env => exact fit_execute

end

/-! ## One value of each kind -/

def payCase : TestCaseCreate := { name := "Pay", orderIndex := 2 ^ 31 }

def addPayCase : Operation := .request 0 (.write (.addCase 0 payCase))

def longKey : Operation :=
  .request 0 (.triggerRun 0 {} (some (String.ofList (List.replicate 256 'k'))))

def farPage : Operation := .request 0 (.read (.listRuns none { page := 2 ^ 63 + 1, size := 1 }))

/-- An order index of 2 to the 31, a key of 256 characters, a page behind every offset, and the
execution of a queued run. -/
theorem values_misfit :
    let _ : Unicode := asciiUnicode
    (addPayCase.IsAdmitted ∧ ¬ Fit (addPayCase.bindings loginWorld)) ∧
      (longKey.IsAdmitted ∧ ¬ Fit (longKey.bindings loginWorld)) ∧
      (farPage.IsAdmitted ∧ ¬ Fit (farPage.bindings loginWorld)) ∧
      ¬ Fit ((Operation.execute 0 calm).bindings loginWorld) := by
  intro _
  refine ⟨⟨⟨by decide⟩, ?_⟩, ⟨trivial, ?_⟩, ⟨trivial, ?_⟩, ?_⟩
  · decide +kernel
  · intro hfit
    change Fit (requestBindings loginDb 0 (.triggerRun 0 {} (some _))) at hfit
    have hwithin := (fit_request (by trivial)).mp hfit
    have hkey : (String.ofList (List.replicate 256 'k')).length ≤ 255 := (hwithin ada rfl).1 _ rfl
    rw [String.length_ofList, List.length_replicate] at hkey
    exact absurd hkey (by decide)
  · decide +kernel
  · have hmisfits : ¬ Fit (executeBindings calm 0 loginWorld) := fun h =>
      fit_execute.mp h ⟨loginRun, loginSuite, [loginCase], loginWorld_found⟩
    exact hmisfits

theorem payCase_fit_iff :
    let _ : Unicode := asciiUnicode
    Fit (addPayCase.bindings loginWorld) ↔ addPayCase.Within loginWorld := by
  intro _
  exact bindings_fit_iff loginWorld addPayCase ⟨by decide⟩

end AegisPlatform.Api
