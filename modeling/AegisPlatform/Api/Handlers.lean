import AegisPlatform.Api.Runs
import AegisPlatform.Services.AccountService
import AegisPlatform.Services.SuiteService

/-! # The HTTP API

The endpoints of `api/v1/`: each resolves its dependencies, calls its service, commits and renders
the answer. `handle` is one authenticated request; `register` needs no account. `WriteEffect` and
`Effect` say once what a request can do to the database, and on whose authority.

A response is rendered after the commit: a suite whose stored `tags` are null, or a case with a
step that is no `StepSpec`, cannot be rendered and ends in a 500.
-/

namespace AegisPlatform.Api
open Foundations Domain Core Db Services
set_option autoImplicit false
set_option maxHeartbeats 250000

/-! ## Requests and responses -/

/-- Pages are 1-based, of at most 100 items. -/
structure Pagination where
  page : ℕ := 1
  size : ℕ := 20
  page_pos : 1 ≤ page := by decide
  size_pos : 1 ≤ size := by decide
  size_le : size ≤ 100 := by decide

def Pagination.window {α : Type} (p : Pagination) (rows : List α) : List α :=
  (rows.drop ((p.page - 1) * p.size)).take p.size

/-- The endpoints open to every account. -/
inductive Read
  | me
  | listSuites (pagination : Pagination)
  | getSuite (suiteId : Uuid)
  | listRuns (suiteId : Option Uuid) (pagination : Pagination)
  | getRun (runId : Uuid)
  | listHealingEvents (runId : Uuid)

/-- The endpoints that require an engineer, `trigger_run` apart. -/
inductive Write
  | createSuite (data : SuiteCreate)
  | updateSuite (suiteId : Uuid) (data : SuiteUpdate)
  | deleteSuite (suiteId : Uuid)
  | addCase (suiteId : Uuid) (data : TestCaseCreate)
  | cancelRun (runId : Uuid)
  | reviewHealingEvent (eventId : Uuid) (accepted : Bool)

inductive Request
  | read (read : Read)
  | write (write : Write)
  | triggerRun (suiteId : Uuid) (data : RunCreate) (idempotencyKey : Option String)

inductive Response
  | user (user : User)
  | suite (suite : TestSuite) (cases : List TestCase)
  | suites (items : List TestSuite) (total : ℕ)
  | case (case : TestCase)
  | run (run : TestRun)
  | runDetail (run : TestRun) (results : List StepResult)
  | runs (items : List TestRun) (total : ℕ)
  | healingEvent (event : HealingEvent)
  | healingEvents (events : List HealingEvent)
  | noContent
  | failed (failure : Failure)
  | internalError

def renderCase (case : TestCase) : Bool :=
  case.steps.all fun s => (StepSpec.modelValidate s).isSome

/-- `SuiteDetail.model_validate`. -/
def renderSuite (suite : TestSuite) (cases : List TestCase) : Response :=
  if suite.tags.isSome && cases.all renderCase then .suite suite cases else .internalError

def renderAnswer : Answer → Response
  | .accepted run => .run run
  | .refused failure => .failed failure
  | .internalError => .internalError

def renderStored (db : Database) (suiteId : Uuid) : Response :=
  match SuiteService.get db suiteId with
  | .error e => .failed e
  | .ok (suite, cases) => renderSuite suite cases

/-! ## Endpoints -/

/-- Lists come newest first. -/
def handleRead (db : Database) (user : User) : Read → Response
  | .me => .user user
  | .listSuites pagination =>
    let items := pagination.window db.suites.rows.reverse
    if items.all fun suite => suite.tags.isSome then .suites items db.suites.rows.length
    else .internalError
  | .getSuite suiteId => renderStored db suiteId
  | .listRuns suiteId pagination =>
    let rows := match suiteId with
      | none => db.runs.rows
      | some suiteId => db.runsOf suiteId
    .runs (pagination.window rows.reverse) rows.length
  | .getRun runId =>
    match RunService.get db runId with
    | .error e => .failed e
    | .ok run => .runDetail run (db.resultsOf runId)
  | .listHealingEvents runId => .healingEvents (HealingService.listForRun db runId)

/-- The database to commit and the answer, for an account that passed the check. -/
def handleWrite (db : Database) (user : User) : Write → Except Failure (Database × Response)
  | .createSuite data =>
    match SuiteService.create db data user.id with
    | .error e => .error e
    | .ok (suite, db') => .ok (db', renderStored db' suite.id)
  | .updateSuite suiteId data =>
    match SuiteService.update db suiteId data user with
    | .error e => .error e
    | .ok (suite, db') => .ok (db', renderStored db' suite.id)
  | .deleteSuite suiteId =>
    match SuiteService.delete db suiteId user with
    | .error e => .error e
    | .ok db' => .ok (db', .noContent)
  | .addCase suiteId data =>
    match SuiteService.addCase db suiteId data user with
    | .error e => .error e
    | .ok (case, db') => .ok (db', if renderCase case then .case case else .internalError)
  | .cancelRun runId =>
    match RunService.cancel db runId user with
    | .error e => .error e
    | .ok (run, db') => .ok (db', .run run)
  | .reviewHealingEvent eventId accepted =>
    match HealingService.review db eventId accepted with
    | .error e => .error e
    | .ok (event, db') => .ok (db', .healingEvent event)

/-- One request of the account `userId`: the database committed, the run `enqueue` is called with,
and the answer. -/
def handle (db : Database) (userId : Uuid) (commits enqueues : Bool) :
    Request → Database × Option Uuid × Response
  | .read read =>
    match currentUser db userId with
    | .error e => (db, none, .failed e)
    | .ok user => (db, none, handleRead db user read)
  | .write write =>
    match engineer db userId with
    | .error e => (db, none, .failed e)
    | .ok user =>
      match handleWrite db user write with
      | .error e => (db, none, .failed e)
      | .ok (db', response) =>
        if commits then (db', none, response) else (db, none, .internalError)
  | .triggerRun suiteId data idempotencyKey =>
    let (db', called, answer) :=
      triggerRun db ⟨suiteId, data, userId, idempotencyKey⟩ commits enqueues
    (db', called, renderAnswer answer)

def roleForbidden : Failure :=
  .aegis (AegisError.init .forbidden "Self-registration cannot request the admin role."
    "role_forbidden")

/-- `register`: no account may make itself an admin. -/
def register [Unicode] (hashPassword : String → String) (db : Database) (data : UserCreate) :
    Except Failure (User × Database) :=
  if data.role = .admin then .error roleForbidden
  else AuthService.register hashPassword db data

/-! ## What a request does, and on whose authority -/

/-- What an engineer's request can commit. -/
inductive WriteEffect (db : Database) (user : User) : Write → Database → Prop
  | nothing (write : Write) : WriteEffect db user write db
  | createSuite (data : SuiteCreate) :
      WriteEffect db user (.createSuite data) (SuiteService.insertSuite db data user.id)
  | updateSuite {suite suite' : TestSuite} (suiteId : Uuid) (data : SuiteUpdate)
      (hget : db.suites.get? suite.id = some suite)
      (hallowed : user.role = .admin ∨ suite.ownerId = user.id) (hid : suite'.id = suite.id)
      (howner : suite'.ownerId = suite.ownerId) :
      WriteEffect db user (.updateSuite suiteId data) (SuiteService.setSuite db suite')
  | deleteSuite {suite : TestSuite} (suiteId : Uuid) (hget : db.suites.get? suite.id = some suite)
      (hallowed : user.role = .admin ∨ suite.ownerId = user.id) :
      WriteEffect db user (.deleteSuite suiteId) (db.deleteSuite suite.id)
  | addCase {suite : TestSuite} (suiteId : Uuid) (data : TestCaseCreate)
      (hget : db.suites.get? suite.id = some suite)
      (hallowed : user.role = .admin ∨ suite.ownerId = user.id) :
      WriteEffect db user (.addCase suiteId data) (SuiteService.insertCase db suite.id data)
  | cancelRun {runId : Uuid} {run : TestRun}
      (hrow : RunService.cancellable db runId user = .ok run)
      (hlive : run.status.isTerminal = false) :
      WriteEffect db user (.cancelRun runId) (db.setRun run (RunService.cancelled run))
  | review (eventId : Uuid) (accepted : Bool) :
      WriteEffect db user (.reviewHealingEvent eventId accepted)
        (HealingService.setAccepted db eventId accepted)

/-- What a request can commit, with the run `enqueue` is called with. -/
inductive Effect (db : Database) (userId : Uuid) (commits : Bool) :
    Request → Database → Option Uuid → Prop
  | nothing (request : Request) : Effect db userId commits request db none
  | write {user : User} {write : Write} {db' : Database} (huser : engineer db userId = .ok user)
      (hcommits : commits = true) (h : WriteEffect db user write db') :
      Effect db userId commits (.write write) db' none
  | createRun {user : User} {suite : TestSuite} {cases : List TestCase} {suiteId : Uuid}
      (data : RunCreate) (idempotencyKey : Option String) (huser : engineer db userId = .ok user)
      (hrunnable : RunService.runnable db suiteId user = .ok (suite, cases)) :
      Effect db userId commits (.triggerRun suiteId data idempotencyKey)
        (RunService.insertRun db suite cases data user idempotencyKey) (some db.runs.next)

section
variable {db db' : Database} {user : User}

theorem handleWrite_effect {write : Write} {response : Response}
    (h : handleWrite db user write = .ok (db', response)) : WriteEffect db user write db' := by
  unfold handleWrite at h
  split at h
  · split at h
    · cases h
    · next hcreate =>
      obtain ⟨rfl, rfl⟩ := Prod.mk.inj (Except.ok.inj h)
      obtain ⟨-, rfl⟩ := SuiteService.create_ok hcreate
      exact WriteEffect.createSuite _
  · split at h
    · cases h
    · next hupdate =>
      obtain ⟨rfl, rfl⟩ := Prod.mk.inj (Except.ok.inj h)
      obtain ⟨suite, hmutable, hpatch, rfl⟩ := SuiteService.update_ok hupdate
      obtain ⟨hget, hallowed⟩ := SuiteService.mutable_ok hmutable
      obtain ⟨hid, howner, -⟩ := SuiteService.patch_some hpatch
      exact WriteEffect.updateSuite _ _ hget hallowed hid howner
  · split at h
    · cases h
    · next hdelete =>
      obtain ⟨rfl, -⟩ := Prod.mk.inj (Except.ok.inj h)
      obtain ⟨suite, hmutable, rfl⟩ := SuiteService.delete_ok hdelete
      obtain ⟨hget, hallowed⟩ := SuiteService.mutable_ok hmutable
      exact WriteEffect.deleteSuite _ hget hallowed
  · split at h
    · cases h
    · next hadd =>
      obtain ⟨rfl, rfl⟩ := Prod.mk.inj (Except.ok.inj h)
      obtain ⟨suite, hmutable, -, rfl⟩ := SuiteService.addCase_ok hadd
      obtain ⟨hget, hallowed⟩ := SuiteService.mutable_ok hmutable
      exact WriteEffect.addCase _ _ hget hallowed
  · split at h
    · cases h
    · next hcancel =>
      obtain ⟨rfl, rfl⟩ := Prod.mk.inj (Except.ok.inj h)
      obtain ⟨row, hrow, ⟨-, rfl⟩ | ⟨hlive, rfl⟩⟩ := RunService.cancel_ok hcancel
      · exact WriteEffect.nothing _
      · exact WriteEffect.cancelRun hrow hlive
  · split at h
    · cases h
    · next hreview =>
      obtain ⟨rfl, rfl⟩ := Prod.mk.inj (Except.ok.inj h)
      rw [HealingService.review_ok hreview]
      exact WriteEffect.review _ _

theorem trigger_effect {request : TriggerRequest} {commits enqueues : Bool}
    {result : Database × Option Uuid × Answer}
    (h : Triggered db request commits enqueues result) :
    Effect db request.userId commits
      (.triggerRun request.suiteId request.data request.idempotencyKey) result.1 result.2.1 := by
  cases h with
  | fails answer hanswer => exact Effect.nothing _
  | replays huser hreplay hcommits => exact Effect.nothing _
  | creates huser hmiss hrunnable hcommits => exact Effect.createRun _ _ huser hrunnable

/-- A request changes nothing, or acts on the authority of its account. -/
theorem handle_effect (db : Database) (userId : Uuid) (commits enqueues : Bool)
    (request : Request) :
    Effect db userId commits request (handle db userId commits enqueues request).1
      (handle db userId commits enqueues request).2.1 := by
  cases request with
  | read read =>
    unfold handle
    cases currentUser db userId with
    | error e => exact Effect.nothing _
    | ok user => exact Effect.nothing _
  | write write =>
    unfold handle
    cases huser : engineer db userId with
    | error e => exact Effect.nothing _
    | ok user =>
      cases hwrite : handleWrite db user write with
      | error e =>
        simp only [hwrite]
        exact Effect.nothing _
      | ok result =>
        simp only [hwrite]
        cases commits with
        | false => exact Effect.nothing _
        | true => exact Effect.write huser rfl (handleWrite_effect hwrite)
  | triggerRun suiteId data idempotencyKey =>
    exact trigger_effect (triggerRun_triggered db ⟨suiteId, data, userId, idempotencyKey⟩
      commits enqueues)

theorem register_ok [Unicode] {hashPassword : String → String} {data : UserCreate}
    (h : register hashPassword db data = .ok (user, db')) :
    data.role ≠ .admin ∧ user = AuthService.newUser hashPassword data db.users.next ∧
      db' = AuthService.insertUser hashPassword db data := by
  unfold register at h
  split at h
  · cases h
  · next hrole => exact ⟨hrole, AuthService.register_ok h⟩

end

end AegisPlatform.Api
