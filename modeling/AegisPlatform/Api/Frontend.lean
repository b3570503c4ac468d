import AegisPlatform.Api.Deployment
import AegisPlatform.Api.Edits
import AegisPlatform.Api.Retrying
import AegisPlatform.Api.SuiteView
import AegisPlatform.Api.UniqueKeys

/-! # Requests that overlap

The deployment with any number of requests in flight, each taking one database access at a time
among workers, calls of `enqueue` and cancel requests: registrations, new suites, triggers, patches,
deletions, new cases and reviews. A request reads what it acts on by one access and commits by
another, when it may be out of date. Foreign keys and unique indexes are taken to be enforced by the
database.

Three overlaps do harm: two patches of one suite that set a common field, two triggers with one
key, and a case that is added between a trigger's read of its suite and its commit. Without them each
request takes effect as a whole at its commit, or not at all, as if the requests were handled one
at a time.
-/

namespace AegisPlatform.Api
open Foundations Domain Core Db Services Workers
set_option autoImplicit false
set_option maxHeartbeats 250000

/-! ## Requests in flight -/

inductive Incoming
  | creation (hashPassword : String → String) (request : Creation)
  | trigger (request : TriggerRequest)
  | edit (userId : Uuid) (change : Change)

inductive InFlight
  | creation (hashPassword : String → String) (request : Creation) (phase : CreatePhase)
  | trigger (request : TriggerRequest) (phase : TriggerPhase)
  | edit (userId : Uuid) (change : Change) (phase : ChangePhase)

def Incoming.received : Incoming → InFlight
  | .creation hashPassword request => .creation hashPassword request .received
  | .trigger request => .trigger request .received
  | .edit userId change => .edit userId change .received

/-- One access of a trigger. The foreign key refuses a run of a suite that is gone; what follows the
commit is the call of `enqueue`. -/
def TriggerPhase.access (request : TriggerRequest) (works : Bool) (db : Database) :
    TriggerPhase → Database × Option Uuid × TriggerPhase
  | .inserted user suite cases =>
    match db.suites.get? suite.id with
    | none => (db, none, .answered (.refused .integrityError))
    | some _ =>
      let (db', phase) := TriggerPhase.next request works db (.inserted user suite cases)
      (db', phase.run?.map TestRun.id, phase)
  | .committed run => (db, none, .committed run)
  | .received => (db, none, (TriggerPhase.received.next request works db).2)
  | .authorised user => (db, none, ((TriggerPhase.authorised user).next request works db).2)
  | .found run => (db, none, ((TriggerPhase.found run).next request works db).2)
  | .missed user => (db, none, ((TriggerPhase.missed user).next request works db).2)
  | .answered answer => (db, none, .answered answer)

/-- The deployment after a commit of `db`, with a call of `enqueue` under way for `called`. -/
def Deployment.put (s : Deployment) (db : Database) (called : Option Uuid) : Deployment :=
  { s with
    pool := Platform.answer s.pool db none
    calls := s.calls ++ called.toList.map fun runId => { runId := runId } }

structure Frontend where
  deployment : Deployment
  requests : List InFlight := []

def Frontend.db (s : Frontend) : Database := s.deployment.pool.world.db

inductive FrontendLabel
  | arrive (incoming : Incoming)
  /-- Request `i` takes its next access to the database. -/
  | access (i : ℕ) (works : Bool)
  /-- Anything else, as in the deployment. -/
  | other (l : DeploymentLabel)

/-- The requests that come to the frontend, and so are not handled at once. -/
def DeploymentLabel.comesIn : DeploymentLabel → Bool
  | .request _ (.read _) _ => false
  | .request .. => true
  | .other (.register ..) => true
  | .other _ | .enqueue .. | .take .. => false

section
variable [Unicode]

def InFlight.next (works : Bool) (db : Database) : InFlight → Database × Option Uuid × InFlight
  | .creation hashPassword request phase =>
    let (db', phase') := request.next hashPassword db phase
    (db', none, .creation hashPassword request phase')
  | .trigger request phase =>
    let (db', called, phase') := phase.access request works db
    (db', called, .trigger request phase')
  | .edit userId change phase =>
    let (db', phase') := phase.next userId change works db
    (db', none, .edit userId change phase')

def Frontend.next (s : Frontend) : FrontendLabel → Option Frontend
  | .arrive incoming => some { s with requests := s.requests ++ [incoming.received] }
  | .access i works =>
    match s.requests[i]? with
    | none => none
    | some r =>
      let (db, called, r') := r.next works s.db
      some { deployment := s.deployment.put db called, requests := s.requests.set i r' }
  | .other l =>
    if l.comesIn then none
    else (s.deployment.next l).map fun deployment => { s with deployment := deployment }

end

/-! ## What a request does at its commit -/

/-- The request, handled at once, if its next access is the commit. -/
def InFlight.commit? : InFlight → Option DeploymentLabel
  | .creation hashPassword (.register data) .flushed => some (.other (.register hashPassword data))
  | .creation _ (.createSuite data userId) .flushed =>
    some (.request userId (.write (.createSuite data)) true)
  | .trigger request (.inserted ..) =>
    some (.request request.userId
      (.triggerRun request.suiteId request.data request.idempotencyKey) true)
  | .edit userId change (.holding ..) | .edit userId change (.reviewing ..) =>
    some (.request userId (.write change.write) true)
  | .creation .. | .trigger .. | .edit .. => none

theorem commit?_comesIn {r : InFlight} {m : DeploymentLabel} (h : m ∈ r.commit?) :
    m.comesIn = true := by
  unfold InFlight.commit? at h
  split at h
  all_goals first
    | (obtain rfl := Option.some.inj h; rfl)
    | cases h

def Frontend.doing (s : Frontend) : FrontendLabel → Option DeploymentLabel
  | .arrive _ => none
  | .access i _ => s.requests[i]?.bind InFlight.commit?
  | .other l => some l

/-! ## Overlaps that do harm -/

/-- No field is set by both. -/
structure Apart (data data' : SuiteUpdate) : Prop where
  name : data.name = none ∨ data'.name = none
  description : data.description = none ∨ data'.description = none
  targetBaseUrl : data.targetBaseUrl = none ∨ data'.targetBaseUrl = none
  tags : data.tags = none ∨ data'.tags = none
  isActive : data.isActive = none ∨ data'.isActive = none

/-- Both have read what they act on, and what one of them commits the other one relies on. -/
def InFlight.Clashes : InFlight → InFlight → Prop
  | .edit _ (.update suiteId data) (.holding ..), .edit _ (.update suiteId' data') (.holding ..) =>
    suiteId = suiteId' ∧ ¬ Apart data data'
  | .trigger request phase, .trigger request' phase' =>
    phase.isOpen = true ∧ phase'.isOpen = true ∧ truthy request.idempotencyKey = true ∧
      request.idempotencyKey = request'.idempotencyKey
  | _, _ => False

/-- The next access of the first adds a case to a suite whose cases the second has counted. -/
def InFlight.Grows : InFlight → InFlight → Prop
  | .edit _ (.addCase suiteId _) (.holding ..), .trigger request (.inserted ..) =>
    suiteId = request.suiteId
  | _, _ => False

/-- No request comes to clash with another one, and no case is added under a trigger. -/
def Frontend.Clear [Unicode] (s : Frontend) : FrontendLabel → Prop
  | .access i works => ∀ r ∈ s.requests[i]?, ∀ j < s.requests.length, j ≠ i →
      ∀ r' ∈ s.requests[j]?, ¬ (r.next works s.db).2.2.Clashes r' ∧ ¬ r.Grows r'
  | .arrive _ | .other _ => True

instance (data data' : SuiteUpdate) : Decidable (Apart data data') :=
  decidable_of_iff ((data.name = none ∨ data'.name = none) ∧
      (data.description = none ∨ data'.description = none) ∧
      (data.targetBaseUrl = none ∨ data'.targetBaseUrl = none) ∧
      (data.tags = none ∨ data'.tags = none) ∧ (data.isActive = none ∨ data'.isActive = none))
    ⟨fun h => ⟨h.1, h.2.1, h.2.2.1, h.2.2.2.1, h.2.2.2.2⟩,
      fun h => ⟨h.name, h.description, h.targetBaseUrl, h.tags, h.isActive⟩⟩

instance (r r' : InFlight) : Decidable (r.Clashes r') := by
  unfold InFlight.Clashes
  split <;> infer_instance

instance (r r' : InFlight) : Decidable (r.Grows r') := by
  unfold InFlight.Grows
  split <;> infer_instance

instance [Unicode] (s : Frontend) (l : FrontendLabel) : Decidable (s.Clear l) :=
  match l with
  | .access i works => inferInstanceAs (Decidable (∀ r ∈ s.requests[i]?, ∀ j < s.requests.length,
      j ≠ i → ∀ r' ∈ s.requests[j]?, ¬ (r.next works s.db).2.2.Clashes r' ∧ ¬ r.Grows r'))
  | .arrive _ | .other _ => isTrue trivial

/-! ## What a step leaves alone -/

/-- What of the database the requests in flight rely on is touched by a step. -/
inductive Touch
  | nothing
  | patch (suiteId : Uuid) (data : SuiteUpdate)
  | addCase (suiteId : Uuid)
  | run (idempotencyKey : Option String)

structure Keeps (touch : Touch) (db db' : Database) : Prop where
  users : ∀ id user, db.users.get? id = some user → db'.users.get? id = some user
  next : db.suites.next ≤ db'.suites.next
  suites : ∀ r row', r < db.suites.next → db'.suites.get? r = some row' →
    ∃ row, db.suites.get? r = some row ∧ row'.ownerId = row.ownerId ∧
      ∀ data', (∀ data, touch = .patch r data → Apart data data') → AgreeOn data' row row'
  cases : ∀ r row', r < db.suites.next → db'.suites.get? r = some row' → touch ≠ .addCase r →
    db'.casesOf r = db.casesOf r
  keys : ∀ key, touch ≠ .run (some key) → keyed db key = [] → keyed db' key = []

section
variable {db db' : Database} {touch : Touch}

theorem keyed_nil_iff {key : String} :
    keyed db key = [] ↔ ∀ run ∈ db.runs.rows, run.idempotencyKey ≠ some key := by
  simp [keyed, List.filter_eq_nil_iff]

/-- The accounts, suites and cases are as before, and no run is new. -/
theorem Keeps.of_runs (husers : db'.users = db.users) (hsuites : db'.suites = db.suites)
    (hcases : db'.cases = db.cases) (harrangement : db'.arrangement = db.arrangement)
    (hruns : ∀ run' ∈ db'.runs.rows, ∃ run ∈ db.runs.rows,
      run.idempotencyKey = run'.idempotencyKey) : Keeps touch db db' := by
  constructor
  · intro id user hget
    rw [husers]
    exact hget
  · rw [hsuites]
  · intro r row' hr hget
    rw [hsuites] at hget
    exact ⟨row', hget, rfl, fun data' _ => .refl data' row'⟩
  · intro r row' hr hget htouch
    unfold Database.casesOf
    rw [hcases, harrangement]
  · intro key htouch hfree
    rw [keyed_nil_iff] at hfree ⊢
    intro run' hrun' hkey
    obtain ⟨run, hrun, hsame⟩ := hruns run' hrun'
    exact hfree run hrun (hsame.trans hkey)

theorem Keeps.refl (db : Database) : Keeps touch db db :=
  .of_runs rfl rfl rfl rfl fun run hrun => ⟨run, hrun, rfl⟩

theorem Keeps.writeRun (db : Database) (results : List StepResult) (events : List HealingEvent)
    (loaded current : TestRun) :
    Keeps touch db ((db.insertStepRows results events).setRun loaded current) := by
  refine .of_runs rfl rfl rfl rfl fun run' hrun' => ?_
  obtain ⟨row, hrow, rfl⟩ := Database.mem_setRun hrun'
  refine ⟨row, hrow, ?_⟩
  split <;> rfl

theorem Keeps.setRun (db : Database) (loaded current : TestRun) :
    Keeps touch db (db.setRun loaded current) := by
  have h : Keeps touch db _ := .writeRun db [] [] loaded current
  rwa [Database.insertStepRows_nil] at h

theorem Keeps.setAccepted (db : Database) (eventId : Uuid) (accepted : Bool) :
    Keeps touch db (HealingService.setAccepted db eventId accepted) :=
  .of_runs rfl rfl rfl rfl fun run hrun => ⟨run, hrun, rfl⟩

theorem Keeps.insertRun (suite : TestSuite) (cases : List TestCase) (data : RunCreate)
    (user : User) (key : Option String) :
    Keeps (.run key) db (RunService.insertRun db suite cases data user key) := by
  refine { Keeps.refl db with keys := ?_ }
  intro key' htouch hfree
  rw [keyed_nil_iff] at hfree ⊢
  intro run hrun
  rcases List.mem_append.mp hrun with hold | hnew
  · exact hfree run hold
  · rw [List.mem_singleton.mp hnew]
    exact fun hkey => htouch (congrArg Touch.run hkey)

/-- The rows of the old suites are as before, and so are their cases; no run is new. -/
theorem Keeps.of_views (husers : db'.users = db.users) (hnext : db.suites.next ≤ db'.suites.next)
    (hview : ∀ r row', r < db.suites.next → db'.suites.get? r = some row' →
      suiteView db' r = suiteView db r)
    (hruns : ∀ run ∈ db'.runs.rows, run ∈ db.runs.rows) : Keeps touch db db' := by
  constructor
  · intro id user hget
    rw [husers]
    exact hget
  · exact hnext
  · intro r row' hr hget
    have hrow : db'.suites.get? r = db.suites.get? r := congrArg Prod.fst (hview r row' hr hget)
    exact ⟨row', hrow.symm.trans hget, rfl, fun data' _ => .refl data' row'⟩
  · intro r row' hr hget htouch
    exact congrArg (fun v => v.2.1) (hview r row' hr hget)
  · intro key htouch hfree
    rw [keyed_nil_iff] at hfree ⊢
    exact fun run hrun => hfree run (hruns run hrun)

theorem Keeps.insertSuite (data : SuiteCreate) (ownerId : Uuid) :
    Keeps touch db (SuiteService.insertSuite db data ownerId) := by
  refine .of_views rfl (Nat.le_succ _) (fun r row' hr hget => ?_) fun run hrun => hrun
  exact suiteView_insertSuite data ownerId (Nat.ne_of_lt hr)

theorem Keeps.deleteSuite (suiteId : Uuid) : Keeps touch db (db.deleteSuite suiteId) := by
  refine .of_views rfl (Nat.le_refl _) (fun r row' hr hget => ?_)
    fun run hrun => List.mem_of_mem_filter hrun
  refine suiteView_deleteSuite fun heq => ?_
  obtain ⟨hstored, hstays⟩ := (Table.get?_filter_eq_some_iff db.suites _ r row').mp hget
  have hid : row'.id = suiteId := (Table.get?_key hstored).trans heq
  simp [hid] at hstays

theorem Keeps.insertCase (suiteId : Uuid) (data : TestCaseCreate) :
    Keeps (.addCase suiteId) db (SuiteService.insertCase db suiteId data) := by
  refine { Keeps.refl db with cases := fun r row' hr hget htouch => ?_ }
  have hne : r ≠ suiteId := fun heq => htouch (congrArg Touch.addCase heq.symm)
  exact congrArg (fun v => v.2.1) (suiteView_insertCase data hne)

theorem Keeps.insertUser [Unicode] (hashPassword : String → String) (data : UserCreate) :
    Keeps touch db (AuthService.insertUser hashPassword db data) := by
  refine { Keeps.refl db with users := fun id user hget => ?_ }
  have hne : id ≠ db.users.next := Nat.ne_of_lt (Table.get?_lt hget)
  exact (Table.get?_insert_of_ne db.users _ (fun _ => AuthService.id_newUser ..) hne).trans hget

/-- A field that is set by none but others is written back as it is stored. -/
theorem writeBack_apart {loaded current stored : TestSuite} {data data' : SuiteUpdate}
    (hpatch : SuiteService.patch loaded data = some current) (hapart : Apart data data') :
    AgreeOn data' stored (writeBackSuite loaded current stored) := by
  have hsame {α β : Type} [DecidableEq α] {l c s : α} {field field' : Option β}
      (hnone : field = none ∨ field' = none) (hc : field = none → c = l) (hsome : field'.isSome) :
      written l c s = s := by
    rcases hnone with hnone | hnone
    · rw [hc hnone, written_same]
    · rw [hnone] at hsome
      cases hsome
  have hpatched := patched_of_patch hpatch
  constructor
  · exact hsame hapart.name fun hnone => by simpa [hnone] using hpatched.name
  · exact hsame hapart.description fun hnone => by simpa [hnone] using hpatched.description
  · exact hsame hapart.targetBaseUrl fun hnone => by simpa [hnone] using hpatched.targetBaseUrl
  · exact hsame hapart.tags fun hnone => by simpa [hnone] using hpatched.tags
  · exact hsame hapart.isActive fun hnone => by simpa [hnone] using hpatched.isActive

theorem Keeps.putSuite {loaded current : TestSuite} {data : SuiteUpdate}
    (hpatch : SuiteService.patch loaded data = some current) :
    Keeps (.patch loaded.id data) db (putSuite db loaded current) := by
  refine ⟨fun _ _ hget => hget, Nat.le_refl _, fun r row' hr hget => ?_, fun _ _ _ _ _ => rfl,
    fun _ _ hfree => hfree⟩
  by_cases hloaded : r = loaded.id
  · subst hloaded
    rw [get?_putSuite] at hget
    obtain ⟨row, hrow, rfl⟩ := Option.map_eq_some_iff.mp hget
    exact ⟨row, hrow, rfl, fun data' hapart => writeBack_apart hpatch (hapart data rfl)⟩
  · rw [get?_putSuite_of_ne current hloaded] at hget
    exact ⟨row', hget, rfl, fun data' _ => .refl data' row'⟩

end

/-! ## What a request in flight relies on -/

/-- What the account may do to the suite, and how it looks, is as it was read. -/
structure Trusts (db : Database) (user : User) (suite : TestSuite) (change : Change) : Prop where
  about : change.suite? = some suite.id
  given : suite.id < db.suites.next
  owner : ∀ row, db.suites.get? suite.id = some row → user.role = .admin ∨ row.ownerId = user.id
  fields : ∀ row suiteId data, db.suites.get? suite.id = some row →
    change = .update suiteId data → AgreeOn data suite row

/-- The suite may be run as it was read. -/
structure Counts (db : Database) (user : User) (suiteId : Uuid) (suite : TestSuite)
    (cases : List TestCase) : Prop where
  about : suite.id = suiteId
  given : suiteId < db.suites.next
  owner : ∀ row, db.suites.get? suiteId = some row → user.role = .admin ∨ row.ownerId = user.id
  cases : ∀ row, db.suites.get? suiteId = some row → db.casesOf suiteId = cases

def InFlight.Relies (db : Database) : InFlight → Prop
  | .creation _ request phase =>
    (phase.isOpen = true ∨ phase = .authorised) → request.authorise db = .authorised
  | .trigger request (.authorised user) => engineer db request.userId = .ok user
  | .trigger request (.missed user) =>
    engineer db request.userId = .ok user ∧ RunService.replayed db request.idempotencyKey = none
  | .trigger request (.inserted user suite cases) =>
    engineer db request.userId = .ok user ∧ RunService.replayed db request.idempotencyKey = none ∧
      Counts db user request.suiteId suite cases
  | .edit userId _ (.authorised user) => engineer db userId = .ok user
  | .edit userId change (.holding user suite _) =>
    engineer db userId = .ok user ∧ Trusts db user suite change
  | .edit userId change (.reviewing user event) =>
    engineer db userId = .ok user ∧ ∀ eventId accepted, change = .review eventId accepted →
      event.id = eventId
  | .trigger .. | .edit .. => True

/-- What the next access of the request touches. -/
def InFlight.touch : InFlight → Touch
  | .trigger request (.inserted ..) => .run request.idempotencyKey
  | .edit _ (.update suiteId data) (.holding ..) => .patch suiteId data
  | .edit _ (.addCase suiteId _) (.holding ..) => .addCase suiteId
  | .creation .. | .trigger .. | .edit .. => .nothing

/-- What is touched is nothing the request relies on. -/
def InFlight.Spared (touch : Touch) : InFlight → Prop
  | .trigger request (.missed _) =>
    truthy request.idempotencyKey = true → touch ≠ .run request.idempotencyKey
  | .trigger request (.inserted ..) =>
    (truthy request.idempotencyKey = true → touch ≠ .run request.idempotencyKey) ∧
      touch ≠ .addCase request.suiteId
  | .edit _ (.update suiteId data) (.holding ..) =>
    ∀ data', touch = .patch suiteId data' → Apart data' data
  | .creation .. | .trigger .. | .edit .. => True

section
variable {db db' : Database} {touch : Touch}

theorem Keeps.engineer (h : Keeps touch db db') {userId : Uuid} {user : User}
    (huser : engineer db userId = .ok user) : Api.engineer db' userId = .ok user := by
  have hget := engineer_ok huser
  have hget' := h.users userId user hget
  unfold Api.engineer currentUser at huser ⊢
  rw [hget']
  rwa [hget] at huser

theorem Keeps.replayed (h : Keeps touch db db') {key : Option String}
    (hspared : truthy key = true → touch ≠ .run key) (hmiss : RunService.replayed db key = none) :
    RunService.replayed db' key = none := by
  by_cases htruthy : truthy key = true
  · cases key with
    | none => rfl
    | some key =>
      rw [replayed_none_iff htruthy] at hmiss ⊢
      exact h.keys key (hspared htruthy) hmiss
  · unfold RunService.replayed
    rw [if_neg htruthy]

theorem Counts.keep {user : User} {suiteId : Uuid} {suite : TestSuite} {cases : List TestCase}
    (hc : Counts db user suiteId suite cases) (h : Keeps touch db db')
    (hspared : touch ≠ .addCase suiteId) : Counts db' user suiteId suite cases := by
  refine ⟨hc.about, Nat.lt_of_lt_of_le hc.given h.next, ?_, ?_⟩
  · intro row' hget
    obtain ⟨row, hrow, howner, -⟩ := h.suites suiteId row' hc.given hget
    rw [howner]
    exact hc.owner row hrow
  · intro row' hget
    obtain ⟨row, hrow, -⟩ := h.suites suiteId row' hc.given hget
    rw [h.cases suiteId row' hc.given hget hspared]
    exact hc.cases row hrow

theorem Trusts.keep {user : User} {suite : TestSuite} {change : Change}
    (ht : Trusts db user suite change) (h : Keeps touch db db')
    (hspared : ∀ suiteId data data', change = .update suiteId data →
      touch = .patch suiteId data' → Apart data' data) : Trusts db' user suite change := by
  refine ⟨ht.about, Nat.lt_of_lt_of_le ht.given h.next, ?_, ?_⟩
  · intro row' hget
    obtain ⟨row, hrow, howner, -⟩ := h.suites suite.id row' ht.given hget
    rw [howner]
    exact ht.owner row hrow
  · rintro row' suiteId data hget rfl
    obtain ⟨row, hrow, -, hagree⟩ := h.suites suite.id row' ht.given hget
    have hid : suiteId = suite.id := Option.some.inj ht.about
    have hbefore := ht.fields row suiteId data hrow rfl
    have hafter := hagree data fun data' htouch => hspared suiteId data data' rfl (hid ▸ htouch)
    exact hbefore.trans hafter

theorem relies_keep {r : InFlight} (hr : r.Relies db) (h : Keeps touch db db')
    (hspared : r.Spared touch) : r.Relies db' := by
  cases r with
  | creation hashPassword request phase =>
    intro hopen
    have hbefore := hr hopen
    cases request with
    | register data => exact hbefore
    | createSuite data userId =>
      simp only [Creation.authorise] at hbefore ⊢
      cases huser : Api.engineer db userId with
      | error e =>
        rw [huser] at hbefore
        cases hbefore
      | ok user => rw [h.engineer huser]
  | trigger request phase =>
    cases phase with
    | authorised user => exact h.engineer hr
    | missed user => exact ⟨h.engineer hr.1, h.replayed hspared hr.2⟩
    | inserted user suite cases =>
      exact ⟨h.engineer hr.1, h.replayed hspared.1 hr.2.1, hr.2.2.keep h hspared.2⟩
    | received => trivial
    | found run => trivial
    | committed run => trivial
    | answered answer => trivial
  | edit userId change phase =>
    cases phase with
    | authorised user => exact h.engineer hr
    | holding user suite cases =>
      refine ⟨h.engineer hr.1, hr.2.keep h ?_⟩
      rintro suiteId data data' rfl htouch
      exact hspared data' htouch
    | reviewing user event => exact ⟨h.engineer hr.1, hr.2⟩
    | received => trivial
    | patched suite cases => trivial
    | answered response => trivial

end

/-- What does not clash with a request spares what it relies on. -/
theorem spared_of_clear {r r' : InFlight} (hclash : ¬ r.Clashes r') (hgrow : ¬ r.Grows r') :
    r'.Spared r.touch := by
  cases r' with
  | creation => trivial
  | trigger request' phase' =>
    have hkey (hopen' : phase'.isOpen = true) (htruthy : truthy request'.idempotencyKey = true) :
        r.touch ≠ .run request'.idempotencyKey := by
      intro htouch
      unfold InFlight.touch at htouch
      split at htouch
      · next request user suite cases =>
        have hsame := Touch.run.inj htouch
        exact hclash ⟨rfl, hopen', hsame ▸ htruthy, hsame⟩
      all_goals cases htouch
    cases phase' with
    | missed user => exact hkey rfl
    | inserted user suite cases =>
      refine ⟨hkey rfl, fun htouch => ?_⟩
      unfold InFlight.touch at htouch
      split at htouch
      · cases htouch
      · cases htouch
      · exact hgrow (Touch.addCase.inj htouch)
      all_goals cases htouch
    | received => trivial
    | authorised user => trivial
    | found run => trivial
    | committed run => trivial
    | answered answer => trivial
  | edit userId' change' phase' =>
    cases change' with
    | delete suiteId' => trivial
    | addCase suiteId' data' => trivial
    | review eventId' accepted' => trivial
    | update suiteId' data' =>
      cases phase' with
      | received => trivial
      | authorised user => trivial
      | reviewing user event => trivial
      | patched suite cases => trivial
      | answered response => trivial
      | holding user' suite' cases' =>
        intro data htouch
        unfold InFlight.touch at htouch
        split at htouch
        · cases htouch
        · obtain ⟨hsuite, rfl⟩ := Touch.patch.inj htouch
          by_contra hapart
          exact hclash ⟨hsuite, hapart⟩
        all_goals cases htouch

/-! ## One access -/

section
variable [Unicode] {db db' : Database} {called : Option Uuid} {r r' : InFlight}

/-- An access leaves alone what it does not touch, and commits the whole request or nothing. -/
structure Accessed (r : InFlight) (db db' : Database) (called : Option Uuid) (r' : InFlight) :
    Prop where
  keeps : Keeps r.touch db db'
  relies : r'.Relies db'
  whole : db' = db ∧ called = none ∨ ∃ m ∈ r.commit?, ∀ s : Deployment, s.pool.world.db = db →
    s.next m = some (s.put db' called)

theorem accessed_of_same (h : r'.Relies db) : Accessed r db db none r' :=
  ⟨.refl db, h, Or.inl ⟨rfl, rfl⟩⟩

theorem next_of_handle {userId : Uuid} {request : Request}
    (hdb : (handle db userId true true request).1 = db')
    (hcalled : (handle db userId true true request).2.1 = called) :
    ∀ s : Deployment, s.pool.world.db = db →
      s.next (.request userId request true) = some (s.put db' called) := by
  rintro s rfl
  simp only [Deployment.next, hdb, hcalled, Deployment.put]

omit [Unicode] in
theorem authorise_cases (db : Database) (request : Creation) :
    request.authorise db = .authorised ∨ ∃ e, request.authorise db = .refused e := by
  cases request with
  | register data =>
    simp only [Creation.authorise]
    by_cases hrole : data.role = .admin
    · exact Or.inr ⟨roleForbidden, if_pos hrole⟩
    · exact Or.inl (if_neg hrole)
  | createSuite data userId =>
    simp only [Creation.authorise]
    cases engineer db userId with
    | error e => exact Or.inr ⟨e, rfl⟩
    | ok user => exact Or.inl rfl

/-- The commit of a creation whose key is free is its endpoint. -/
theorem creation_whole (hashPassword : String → String) {request : Creation}
    (hauthorise : request.authorise db = .authorised) (hfree : taken db request.key = false) :
    ∃ m ∈ (InFlight.creation hashPassword request .flushed).commit?, ∀ s : Deployment,
      s.pool.world.db = db → s.next m = some (s.put (request.insert hashPassword db) none) := by
  cases request with
  | register data =>
    refine ⟨_, rfl, ?_⟩
    rintro s rfl
    have hrole : data.role ≠ .admin := by
      intro hadmin
      simp [Creation.authorise, hadmin] at hauthorise
    have hmissing : s.pool.world.db.getByEmail data.email = none := by
      simpa [taken, Creation.key, Database.getByEmail, List.find?_eq_none] using hfree
    simp [Deployment.next, Deployment.put, PlatformLabel.isRequest, Platform.next, register, hrole,
      AuthService.register, hmissing, Creation.insert]
  | createSuite data userId =>
    refine ⟨_, rfl, ?_⟩
    obtain ⟨user, huser⟩ : ∃ user, engineer db userId = .ok user := by
      simp only [Creation.authorise] at hauthorise
      cases huser : engineer db userId with
      | error e =>
        rw [huser] at hauthorise
        cases hauthorise
      | ok user => exact ⟨user, rfl⟩
    have hid : user.id = userId := Table.get?_key (engineer_ok huser)
    have hmissing : db.getBySlug data.slug = none := by
      simpa [taken, Creation.key, Database.getBySlug, List.find?_eq_none] using hfree
    apply next_of_handle
    · simp only [handle, huser, handleWrite, SuiteService.create, hmissing, hid, if_true]
      rfl
    · simp only [handle, huser, handleWrite, SuiteService.create, hmissing, if_true]

omit [Unicode] in
theorem relies_of_closed (hashPassword : String → String) (request : Creation) {phase : CreatePhase}
    (hclosed : phase.isOpen = false) (hphase : phase ≠ .authorised) :
    (InFlight.creation hashPassword request phase).Relies db := by
  rintro (hopen | hauthorised)
  · rw [hclosed] at hopen
    cases hopen
  · exact absurd hauthorised hphase

theorem creation_accessed (hashPassword : String → String) (request : Creation) {phase : CreatePhase}
    (hr : (InFlight.creation hashPassword request phase).Relies db) :
    Accessed (.creation hashPassword request phase) db (request.next hashPassword db phase).1 none
      (.creation hashPassword request (request.next hashPassword db phase).2) := by
  by_cases hreceived : phase = .received
  · subst hreceived
    apply accessed_of_same
    simp only [Creation.next]
    rcases authorise_cases db request with hauthorise | ⟨e, he⟩
    · exact fun _ => hauthorise
    · rw [he]
      exact relies_of_closed hashPassword request rfl (by simp)
  · have hstep : CreateStep hashPassword request db phase _ _ := create_step phase
    generalize (request.next hashPassword db phase).1 = db' at hstep ⊢
    generalize (request.next hashPassword db phase).2 = phase' at hstep ⊢
    cases hstep with
    | refuse failure => exact absurd rfl hreceived
    | authorise => exact absurd rfl hreceived
    | miss hfree => exact accessed_of_same fun _ => hr (Or.inr rfl)
    | conflict failure hanswer =>
      exact accessed_of_same (relies_of_closed hashPassword request rfl (by simp))
    | clash hopen htaken =>
      exact accessed_of_same (relies_of_closed hashPassword request rfl (by simp))
    | flush => exact accessed_of_same fun _ => hr (Or.inl rfl)
    | done hclosed => exact accessed_of_same hr
    | commit hfree =>
      refine ⟨?_, relies_of_closed hashPassword request rfl (by simp),
        Or.inr (creation_whole hashPassword (hr (Or.inl rfl)) hfree)⟩
      cases request with
      | register data => exact .insertUser hashPassword data
      | createSuite data userId => exact .insertSuite data userId

/-! ### Triggers -/

omit [Unicode] in
theorem Counts.of_runnable {user : User} {suiteId : Uuid} {suite : TestSuite}
    {cases : List TestCase} (h : RunService.runnable db suiteId user = .ok (suite, cases)) :
    Counts db user suiteId suite cases := by
  obtain ⟨hfound, howner⟩ := RunService.runnable_ok h
  obtain ⟨hget, rfl⟩ := Database.getWithCases_some hfound
  refine ⟨Table.get?_key hget, Table.get?_lt hget, ?_, fun _ _ => rfl⟩
  intro row hrow
  obtain rfl := Option.some.inj (hget.symm.trans hrow)
  exact howner

omit [Unicode] in
theorem not_refused {user : User} {ownerId : Uuid} (h : user.role = .admin ∨ ownerId = user.id) :
    ¬ (user.role ≠ .admin ∧ ownerId ≠ user.id) := by
  rintro ⟨hadmin, hother⟩
  rcases h with hadmin' | howner
  · exact hadmin hadmin'
  · exact hother howner

omit [Unicode] in
theorem Counts.runnable {user : User} {suiteId : Uuid} {suite row : TestSuite}
    {cases : List TestCase} (h : Counts db user suiteId suite cases)
    (hrow : db.suites.get? suiteId = some row) :
    RunService.runnable db suiteId user = .ok (row, cases) := by
  have hallowed := not_refused (h.owner row hrow)
  simp only [RunService.runnable, Database.getWithCases, hrow, Option.map_some, if_neg hallowed,
    h.cases row hrow]

omit [Unicode] in
theorem insertRun_congr {suite row : TestSuite} (hid : row.id = suite.id) (cases : List TestCase)
    (data : RunCreate) (user : User) (key : Option String) :
    RunService.insertRun db row cases data user key =
      RunService.insertRun db suite cases data user key := by
  unfold RunService.insertRun RunService.newRun
  rw [hid]

theorem trigger_accessed (request : TriggerRequest) (works : Bool) {phase : TriggerPhase}
    (hr : (InFlight.trigger request phase).Relies db) :
    Accessed (.trigger request phase) db (phase.access request works db).1
      (phase.access request works db).2.1 (.trigger request (phase.access request works db).2.2) := by
  cases phase with
  | received =>
    apply accessed_of_same
    simp only [TriggerPhase.access, TriggerPhase.next]
    cases huser : engineer db request.userId with
    | error e => trivial
    | ok user => exact huser
  | authorised user =>
    apply accessed_of_same
    simp only [TriggerPhase.access, TriggerPhase.next]
    cases hreplay : RunService.replayed db request.idempotencyKey with
    | some run => trivial
    | none => exact ⟨hr, hreplay⟩
  | found run => exact accessed_of_same trivial
  | missed user =>
    apply accessed_of_same
    simp only [TriggerPhase.access, TriggerPhase.next]
    cases hrunnable : RunService.runnable db request.suiteId user with
    | error e => trivial
    | ok found => exact ⟨hr.1, hr.2, .of_runnable hrunnable⟩
  | committed run => exact accessed_of_same trivial
  | answered answer => exact accessed_of_same trivial
  | inserted user suite cases =>
    obtain ⟨huser, hmiss, hcounts⟩ := hr
    simp only [TriggerPhase.access]
    cases hrow : db.suites.get? suite.id with
    | none => exact accessed_of_same trivial
    | some row =>
      cases works with
      | false => exact accessed_of_same trivial
      | true =>
        have hrunnable := hcounts.runnable (hcounts.about ▸ hrow)
        have hid : row.id = suite.id := Table.get?_key hrow
        refine ⟨.insertRun suite cases request.data user request.idempotencyKey, trivial,
          Or.inr ⟨_, rfl, next_of_handle ?_ ?_⟩⟩
        · simp only [handle, triggerRun, huser, RunService.create, hmiss, hrunnable, if_true]
          exact insertRun_congr hid cases request.data user request.idempotencyKey
        · simp only [handle, triggerRun, huser, RunService.create, hmiss, hrunnable, if_true]
          rfl

/-! ### Edits -/

omit [Unicode] in
theorem Trusts.mutable {user : User} {suite row : TestSuite} {change : Change}
    (h : Trusts db user suite change) (hrow : db.suites.get? suite.id = some row) :
    SuiteService.mutable db suite.id user = .ok row := by
  have hallowed := not_refused (h.owner row hrow)
  simp only [SuiteService.mutable, SuiteService.get, Database.getWithCases, hrow, Option.map_some,
    assertCanMutate, if_neg hallowed]

omit [Unicode] in
theorem Trusts.of_mutable {user : User} {suiteId : Uuid} {suite : TestSuite} {change : Change}
    (hsuite : change.suite? = some suiteId)
    (hmutable : SuiteService.mutable db suiteId user = .ok suite) : Trusts db user suite change := by
  obtain ⟨hget, hassert⟩ := SuiteService.mutable_found hmutable
  obtain rfl : suite.id = suiteId := Table.get?_key hget
  refine ⟨hsuite, Table.get?_lt hget, fun row hrow => ?_, fun row suiteId' data hrow hchange => ?_⟩
  · obtain rfl := Option.some.inj (hget.symm.trans hrow)
    exact SuiteService.assertCanMutate_ok hassert
  · obtain rfl := Option.some.inj (hget.symm.trans hrow)
    exact .refl data suite

/-- The commit of an edit that finds its row is its endpoint. -/
theorem edit_whole {userId : Uuid} {user : User} {change : Change} {phase : ChangePhase}
    (huser : engineer db userId = .ok user)
    (hphase : (InFlight.edit userId change phase).commit? =
      some (.request userId (.write change.write) true))
    (hwrite : (handleWrite db user change.write).map Prod.fst = .ok db') :
    db' = db ∧ (none : Option Uuid) = none ∨
      ∃ m ∈ (InFlight.edit userId change phase).commit?, ∀ s : Deployment,
        s.pool.world.db = db → s.next m = some (s.put db' none) := by
  cases hresult : handleWrite db user change.write with
  | error e =>
    rw [hresult] at hwrite
    cases hwrite
  | ok result =>
    rw [hresult] at hwrite
    refine Or.inr ⟨_, hphase, next_of_handle ?_ ?_⟩
    · simp only [handle, huser, hresult, if_true]
      exact Except.ok.inj hwrite
    · simp only [handle, huser, hresult, if_true]

theorem edit_accessed (userId : Uuid) (change : Change) (works : Bool) {phase : ChangePhase}
    (hr : (InFlight.edit userId change phase).Relies db) :
    Accessed (.edit userId change phase) db (phase.next userId change works db).1 none
      (.edit userId change (phase.next userId change works db).2) := by
  have hstep : ChangeStep userId db change phase (phase.next userId change works db).1
    (phase.next userId change works db).2 := change_step change phase
  generalize (phase.next userId change works db).1 = db' at hstep ⊢
  generalize (phase.next userId change works db).2 = phase' at hstep ⊢
  cases hstep with
  | answer change phase response => exact accessed_of_same trivial
  | authorise change huser => exact accessed_of_same huser
  | hold hsuite hmutable => exact accessed_of_same ⟨hr, .of_mutable hsuite hmutable⟩
  | look accepted hget =>
    refine accessed_of_same ⟨hr, fun eventId' accepted' heq => ?_⟩
    obtain ⟨rfl, -⟩ := Change.review.inj heq
    exact Table.get?_key hget
  | keep change user suite current cases => exact accessed_of_same trivial
  | @patch user suiteId data suite current row cases hpatch hrow =>
    obtain rfl : suiteId = suite.id := Option.some.inj hr.2.about
    have hmutable := hr.2.mutable hrow
    have hpatched := patch_writeBack hpatch (hr.2.fields row _ data hrow rfl)
    refine ⟨.putSuite hpatch, trivial, edit_whole hr.1 rfl ?_⟩
    simp only [Change.write, handleWrite, SuiteService.update, hmutable, hpatched, Except.map,
      putSuite_eq current hrow]
  | @delete suite row user suiteId cases hrow =>
    obtain rfl : suiteId = suite.id := Option.some.inj hr.2.about
    have hid : row.id = suite.id := Table.get?_key hrow
    refine ⟨.deleteSuite suite.id, trivial, edit_whole hr.1 rfl ?_⟩
    simp only [Change.write, handleWrite, SuiteService.delete, hr.2.mutable hrow, hid, Except.map]
  | @addCase suite row user suiteId data cases response hrow =>
    obtain rfl : suiteId = suite.id := Option.some.inj hr.2.about
    have hid : row.id = suite.id := Table.get?_key hrow
    refine ⟨.insertCase suite.id data, trivial, edit_whole hr.1 rfl ?_⟩
    simp only [Change.write, handleWrite, SuiteService.addCase, hr.2.mutable hrow, hid, Except.map]
  | @review event row user eventId accepted response hrow =>
    obtain rfl : event.id = eventId := hr.2 eventId accepted rfl
    refine ⟨.setAccepted db event.id accepted, trivial, edit_whole hr.1 rfl ?_⟩
    simp only [Change.write, handleWrite, HealingService.review, hrow, Except.map]

theorem access_accessed (works : Bool) (hr : r.Relies db) :
    Accessed r db (r.next works db).1 (r.next works db).2.1 (r.next works db).2.2 := by
  cases r with
  | creation hashPassword request phase => exact creation_accessed hashPassword request hr
  | trigger request phase => exact trigger_accessed request works hr
  | edit userId change phase => exact edit_accessed userId change works hr

/-! ## Steps that are no access of a request -/

theorem phase_keeps {env : Env} {runId : Uuid} {phase phase' : ExecutorPhase} {touch : Touch}
    (h : PhaseStep env runId db phase db' phase') : Keeps touch db db' := by
  cases h with
  | skip => exact .refl db
  | load => exact .refl db
  | find => exact .refl db
  | miss => exact .setRun db _ _
  | missFails => exact .refl db
  | begin => exact .setRun db _ _
  | beginRaises => exact .setRun db _ _
  | beginFails => exact .refl db
  | close => exact .writeRun db _ _ _ _
  | closeFails => exact .refl db
  | done => exact .refl db

omit [Unicode] in
theorem cancel_keeps {runId : Uuid} {commits : Bool} {phase phase' : CancelPhase} {touch : Touch}
    (h : CancelStep runId commits db phase db' phase') : Keeps touch db db' := by
  cases h with
  | refuse => exact .refl db
  | load => exact .refl db
  | commit => exact .setRun db _ _
  | fail => exact .refl db
  | done => exact .refl db

theorem other_keeps {s t : Deployment} {l : DeploymentLabel} {touch : Touch}
    (hl : l.comesIn = false) (h : s.next l = some t) :
    Keeps touch s.pool.world.db t.pool.world.db := by
  cases l with
  | request userId request commits =>
    cases request with
    | read read =>
      obtain rfl := Option.some.inj h
      have hsame : (handle s.pool.world.db userId commits true (.read read)).1 = s.pool.world.db := by
        unfold handle
        cases currentUser s.pool.world.db userId <;> rfl
      change Keeps touch s.pool.world.db (handle s.pool.world.db userId commits true (.read read)).1
      rw [hsame]
      exact .refl _
    | write write => cases hl
    | triggerRun suiteId data key => cases hl
  | enqueue i link =>
    simp only [Deployment.next] at h
    split at h
    · cases h
    · obtain rfl := Option.some.inj h
      exact .refl _
  | take k again =>
    simp only [Deployment.next] at h
    split at h
    · cases h
    · obtain rfl := Option.some.inj h
      exact .refl _
  | other l =>
    simp only [Deployment.next] at h
    split at h
    · cases h
    · next hrequest =>
      obtain ⟨pool, hpool, rfl⟩ := Option.map_eq_some_iff.mp h
      cases l with
      | request => exact absurd rfl hrequest
      | register => cases hl
      | deliver i env =>
        obtain ⟨d, w, phase, -, -, step, rfl⟩ := deliver_next (i := i) hpool
        exact phase_keeps step
      | arrive userId runId =>
        simp only [Platform.next] at hpool
        split at hpool
        · obtain rfl := Option.some.inj hpool
          exact .refl _
        · obtain rfl := Option.some.inj hpool
          exact .refl _
      | cancel i commits =>
        cases pool_step (l := .cancel i commits) hpool with
        | cancel hc step => exact cancel_keeps step

end

/-! ## Whole runs -/

/-- What the requests in flight rely on holds, and no two of them clash. -/
structure Compatible (s : Frontend) : Prop where
  relies : ∀ (i : ℕ) r, s.requests[i]? = some r → r.Relies s.db
  apart : ∀ (i j : ℕ) r r', i ≠ j → s.requests[i]? = some r → s.requests[j]? = some r' →
    ¬ r.Clashes r'

theorem Apart.symm {data data' : SuiteUpdate} (h : Apart data data') : Apart data' data :=
  ⟨h.name.symm, h.description.symm, h.targetBaseUrl.symm, h.tags.symm, h.isActive.symm⟩

theorem clashes_symm {r r' : InFlight} (h : r.Clashes r') : r'.Clashes r := by
  unfold InFlight.Clashes at h
  split at h
  · exact ⟨h.1.symm, fun hapart => h.2 hapart.symm⟩
  · obtain ⟨hopen, hopen', htruthy, hkey⟩ := h
    exact ⟨hopen', hopen, hkey ▸ htruthy, hkey.symm⟩
  · exact h.elim

theorem spared_nothing (r : InFlight) : r.Spared .nothing := by
  unfold InFlight.Spared
  split
  · exact fun _ h => Touch.noConfusion h
  · exact ⟨fun _ h => Touch.noConfusion h, Touch.noConfusion⟩
  · exact fun _ h => Touch.noConfusion h
  all_goals trivial

/-- A request that has only just come in clashes with none. -/
theorem received_clear (incoming : Incoming) (r : InFlight) : ¬ incoming.received.Clashes r := by
  intro h
  cases incoming with
  | creation hashPassword request => exact h
  | trigger request =>
    cases r with
    | trigger request' phase' => cases h.1
    | creation => exact h
    | edit => exact h
  | edit userId change =>
    cases r with
    | trigger => cases change <;> exact h
    | creation => cases change <;> exact h
    | edit => cases change <;> exact h

theorem received_relies (incoming : Incoming) (db : Database) : incoming.received.Relies db := by
  cases incoming with
  | creation hashPassword request => exact relies_of_closed hashPassword request rfl (by simp)
  | trigger request => trivial
  | edit userId change => trivial

section
variable [Unicode] {s t : Frontend}

omit [Unicode] in
theorem put_same (s : Deployment) : s.put s.pool.world.db none = s := by
  simp [Deployment.put, Platform.answer]

omit [Unicode] in
theorem compatible_arrive (hs : Compatible s) (incoming : Incoming) :
    Compatible { s with requests := s.requests ++ [incoming.received] } := by
  constructor
  · intro i r hr
    rcases getElem?_snoc_cases hr with hold | rfl
    · exact hs.relies i r hold
    · exact received_relies incoming _
  · intro i j r r' hne hr hr' hclash
    rcases getElem?_snoc_cases hr with hold | rfl
    · rcases getElem?_snoc_cases hr' with hold' | rfl
      · exact hs.apart i j r r' hne hold hold' hclash
      · exact received_clear incoming r (clashes_symm hclash)
    · exact received_clear incoming r' hclash

theorem compatible_access (hs : Compatible s) {i : ℕ} {works : Bool} {r : InFlight}
    (hr : s.requests[i]? = some r) (hclear : s.Clear (.access i works)) :
    Compatible (Frontend.mk (s.deployment.put (r.next works s.db).1 (r.next works s.db).2.1)
      (s.requests.set i (r.next works s.db).2.2)) := by
  have hdone := access_accessed works (hs.relies i r hr)
  have hother {j : ℕ} {r' : InFlight} (hne : j ≠ i) (hr' : s.requests[j]? = some r') :=
    hclear r hr j (List.getElem?_eq_some_iff.mp hr').1 hne r' hr'
  constructor
  · intro j r' hr'
    rcases getElem?_set_cases hr' with ⟨-, rfl⟩ | ⟨hne, hold⟩
    · exact hdone.relies
    · refine relies_keep (hs.relies j r' hold) hdone.keeps (spared_of_clear ?_ ?_)
      · exact hs.apart i j r r' (Ne.symm hne) hr hold
      · exact (hother hne hold).2
  · intro j k a b hne ha hb
    rcases getElem?_set_cases ha with ⟨rfl, rfl⟩ | ⟨hj, hold⟩
    · rcases getElem?_set_cases hb with ⟨rfl, -⟩ | ⟨hk, hold'⟩
      · exact absurd rfl hne
      · exact (hother hk hold').1
    · rcases getElem?_set_cases hb with ⟨rfl, rfl⟩ | ⟨hk, hold'⟩
      · exact fun hclash => (hother hj hold).1 (clashes_symm hclash)
      · exact hs.apart j k a b hne hold hold'

/-- A step does at once what it is said to do, or nothing if that is a request. -/
theorem frontend_next {l : FrontendLabel} (hs : Compatible s) (hclear : s.Clear l)
    (h : s.next l = some t) :
    Compatible t ∧ (t.deployment = s.deployment ∧ (∀ m ∈ s.doing l, m.comesIn = true) ∨
      ∃ m ∈ s.doing l, s.deployment.next m = some t.deployment) := by
  cases l with
  | arrive incoming =>
    obtain rfl := Option.some.inj h
    exact ⟨compatible_arrive hs incoming, Or.inl ⟨rfl, fun m hm => by cases hm⟩⟩
  | access i works =>
    simp only [Frontend.next] at h
    cases hr : s.requests[i]? with
    | none =>
      rw [hr] at h
      cases h
    | some r =>
      simp only [hr] at h
      obtain rfl := Option.some.inj h
      have hdoing : s.doing (.access i works) = r.commit? := by
        simp only [Frontend.doing, hr, Option.bind_some]
      rw [hdoing]
      refine ⟨compatible_access hs hr hclear, ?_⟩
      rcases (access_accessed works (hs.relies i r hr)).whole with ⟨hdb, hcalled⟩ | ⟨m, hm, hnext⟩
      · left
        dsimp only
        rw [hdb, hcalled]
        exact ⟨put_same s.deployment, fun m hm => commit?_comesIn hm⟩
      · exact Or.inr ⟨m, hm, hnext s.deployment rfl⟩
  | other l =>
    simp only [Frontend.next] at h
    split at h
    · cases h
    · next hl =>
      obtain ⟨deployment, hnext, rfl⟩ := Option.map_eq_some_iff.mp h
      refine ⟨⟨fun i r hr => ?_, hs.apart⟩, Or.inr ⟨l, rfl, hnext⟩⟩
      have hkeeps : Keeps .nothing s.db deployment.pool.world.db :=
        other_keeps (by simpa using hl) hnext
      exact relies_keep (hs.relies i r hr) hkeeps (spared_nothing r)

/-- Requests that overlap, but do not clash, do what they do when they are handled one at a time, each
at once at its commit: less some of the requests, what was going on in the run, taken in its order,
leads the deployment to the same state. -/
theorem requests_overlap {ls : List FrontendLabel} (h : s.requests = [])
    (hrun : Run (Under Frontend.Clear (ofNext Frontend.next)) s ls t) :
    ∃ ms, ms.Sublist (trace Frontend.next Frontend.doing s ls) ∧
      ms.filter (fun m => !m.comesIn) =
        (trace Frontend.next Frontend.doing s ls).filter (fun m => !m.comesIn) ∧
      Run (ofNext Deployment.next) s.deployment ms t.deployment := by
  have hstart : Compatible s := ⟨by simp [h], by simp [h]⟩
  have htraced : ∃ ms d, ms.Sublist (trace Frontend.next Frontend.doing s ls) ∧
      ms.filter (fun m => !m.comesIn) =
        (trace Frontend.next Frontend.doing s ls).filter (fun m => !m.comesIn) ∧
      Run (ofNext Deployment.next) s.deployment ms d ∧ Compatible t ∧ t.deployment = d := by
    refine hrun.traced (R := fun u d => Compatible u ∧ u.deployment = d) Frontend.doing
      DeploymentLabel.comesIn ?_ ⟨hstart, rfl⟩
    rintro u l v d ⟨hu, rfl⟩ hclear hnext
    obtain ⟨hv, ⟨hsame, hskips⟩ | ⟨m, hm, hmatch⟩⟩ := frontend_next hu hclear hnext
    · exact Or.inl ⟨⟨hv, hsame⟩, hskips⟩
    · exact Or.inr ⟨m, hm, _, hmatch, hv, rfl⟩
  obtain ⟨ms, d, hsub, hkept, hplatform, -, rfl⟩ := htraced
  exact ⟨ms, hsub, hkept, hplatform⟩

end

/-! ## Two patches and a trigger at once -/

/-- Ada's suite, and nothing in Redis. -/
def adaFrontend : Frontend where
  deployment := { pool := { world := { db := loginDb }, deliveries := [], cancels := [] } }

def adaRequests : List FrontendLabel :=
  [.arrive (.edit 0 (.update 0 { name := some (some "Sign-in") })),
    .arrive (.edit 0 (.update 0 { description := some (some "Accounts") })),
    .arrive (.trigger { suiteId := 0, userId := 0, idempotencyKey := some "deploy-8" }),
    .access 0 true, .access 0 true, .access 1 true, .access 1 true,
    .access 2 true, .access 2 true, .access 2 true,
    .access 0 true, .access 1 true, .access 2 true]

theorem ada_overlaps :
    ∃ t ms, Run (Under (@Frontend.Clear asciiUnicode) (ofNext (@Frontend.next asciiUnicode)))
        adaFrontend adaRequests t ∧
      (t.db.suites.get? 0).map (fun suite => (suite.name, suite.description)) =
        some ("Sign-in", some "Accounts") ∧
      (t.db.runs.get? 1).map TestRun.status = some .queued ∧
      Run (ofNext (@Deployment.next asciiUnicode)) adaFrontend.deployment ms t.deployment := by
  let _ : Unicode := asciiUnicode
  have hrun : ∃ t, Run (Under Frontend.Clear (ofNext Frontend.next)) adaFrontend adaRequests t ∧
      (t.db.suites.get? 0).map (fun suite => (suite.name, suite.description)) =
        some ("Sign-in", some "Accounts") ∧
      (t.db.runs.get? 1).map TestRun.status = some .queued :=
    ⟨_, restrict_run rfl, by decide, by decide⟩
  obtain ⟨t, hrun, hsuite, hstatus⟩ := hrun
  obtain ⟨ms, -, -, hmatch⟩ := requests_overlap rfl hrun
  exact ⟨t, ms, hrun, hsuite, hstatus, hmatch⟩

/-- Where patches do clash, a suite can end as neither order of them leaves it: each of the two sets
the name and the description. -/
example : ((exec (@Frontend.next asciiUnicode) adaFrontend
    [.arrive (.edit 0 (.update 0
        { name := some (some "Login"), description := some (some "Accounts") })),
      .arrive (.edit 0 (.update 0
        { name := some (some "Sign-in"), description := some (some "Sessions") })),
      .access 0 true, .access 0 true, .access 1 true, .access 1 true,
      .access 1 true, .access 0 true]).bind fun t => t.db.suites.get? 0).map
    (fun suite => (suite.name, suite.description)) = some ("Sign-in", some "Accounts") := by
  decide

end AegisPlatform.Api
