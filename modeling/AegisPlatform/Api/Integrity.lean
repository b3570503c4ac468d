import AegisPlatform.Api.StoredSuites
import AegisPlatform.Db.Integrity

/-! # Referential integrity

What the services and the workers write refers to rows that exist: a suite to the account that
creates it, a case and a run to a suite that was just read, results and healing events to the run
they are committed with. No database constraint is involved; SQLite enforces none of the foreign
keys.
-/

namespace AegisPlatform.Api
open Foundations Domain Core Db Services Workers
set_option autoImplicit false
set_option maxHeartbeats 250000

section
variable {db db' : Database} {user : User} {suite : TestSuite}

theorem insertUser_intact [Unicode] (h : db.Intact) (hashPassword : String → String)
    (data : UserCreate) : (AuthService.insertUser hashPassword db data).Intact :=
  { h with suites := h.suites.insert _ fun _ => AuthService.id_newUser .. }

theorem insertSuite_intact (h : db.Intact) (data : SuiteCreate)
    (huser : db.users.get? user.id = some user) :
    (SuiteService.insertSuite db data user.id).Intact where
  suites := h.suites.snoc huser rfl
  cases := by
    obtain ⟨new, hrows, hnew⟩ := SuiteService.insertSuite_cases db data user.id
    rw [hrows]
    refine (h.cases.insert _ fun _ => SuiteService.id_newSuite ..).append_of_get?
      (Table.get?_insert_self db.suites _ fun _ => SuiteService.id_newSuite ..) ?_
    intro c hc
    obtain ⟨case, id, rfl⟩ := hnew c hc
    rfl
  runs := h.runs.insert _ fun _ => SuiteService.id_newSuite ..
  stepResults := h.stepResults
  healingEvents := h.healingEvents

theorem setSuite_intact (h : db.Intact) {suite' : TestSuite}
    (hget : db.suites.get? suite.id = some suite) (hid : suite'.id = suite.id)
    (howner : suite'.ownerId = suite.ownerId) : (SuiteService.setSuite db suite').Intact where
  suites := by
    apply h.suites.of_column
    intro row hrow
    obtain ⟨stored, hstored, rfl⟩ := List.mem_map.mp hrow
    refine ⟨stored, hstored, ?_⟩
    split
    · next hsame =>
      have hkey := Table.get?_of_mem hstored
      rw [hsame, hid, hget] at hkey
      obtain rfl := Option.some.inj hkey
      exact howner
    · rfl
  cases := h.cases.modify suite'.id (fun stored => { suite' with id := stored.id }) fun _ => rfl
  runs := h.runs.modify suite'.id (fun stored => { suite' with id := stored.id }) fun _ => rfl
  stepResults := h.stepResults
  healingEvents := h.healingEvents

theorem insertCase_intact (h : db.Intact) (data : TestCaseCreate)
    (hget : db.suites.get? suite.id = some suite) :
    (SuiteService.insertCase db suite.id data).Intact :=
  { h with cases := h.cases.snoc hget rfl }

theorem insertRun_intact (h : db.Intact) (cases : List TestCase) (data : RunCreate)
    (idempotencyKey : Option String) (hget : db.suites.get? suite.id = some suite) :
    (RunService.insertRun db suite cases data user idempotencyKey).Intact where
  suites := h.suites
  cases := h.cases
  runs := h.runs.snoc hget rfl
  stepResults := h.stepResults.insert _ fun _ => RunService.id_newRun ..
  healingEvents := h.healingEvents.insert _ fun _ => RunService.id_newRun ..

theorem setAccepted_intact (h : db.Intact) (eventId : Uuid) (accepted : Bool) :
    (HealingService.setAccepted db eventId accepted).Intact :=
  { h with
    healingEvents := by
      apply h.healingEvents.of_column
      intro event hevent
      obtain ⟨stored, hstored, rfl⟩ := HealingService.mem_setAccepted hevent
      refine ⟨stored, hstored, ?_⟩
      split
      · rfl
      · rfl }

/-! ## Requests -/

theorem write_intact {write : Write} (h : WriteEffect db user write db') (hi : db.Intact)
    (huser : db.users.get? user.id = some user) : db'.Intact := by
  cases h with
  | nothing => exact hi
  | createSuite data => exact insertSuite_intact hi data huser
  | updateSuite suiteId data hget hallowed hid howner => exact setSuite_intact hi hget hid howner
  | deleteSuite suiteId hget hallowed => exact hi.deleteSuite hget
  | addCase suiteId data hget hallowed => exact insertCase_intact hi data hget
  | cancelRun hrow hlive => exact hi.setRun ..
  | review eventId accepted => exact setAccepted_intact hi eventId accepted

theorem effect_intact {userId : Uuid} {commits : Bool} {request : Request} {called : Option Uuid}
    (h : Effect db userId commits request db' called) (hi : db.Intact) : db'.Intact := by
  cases h with
  | nothing => exact hi
  | write huser hcommits h =>
    have hget := engineer_ok huser
    rw [← Table.get?_key hget] at hget
    exact write_intact h hi hget
  | createRun data idempotencyKey huser hrunnable =>
    exact insertRun_intact hi _ data idempotencyKey (RunService.runnable_suite hrunnable).1

/-! ## Executions -/

variable [Unicode]

theorem phase_intact {env : Env} {runId : Uuid} {phase phase' : ExecutorPhase}
    (h : PhaseStep env runId db phase db' phase') (hof : phase.Of runId) (hi : db.Intact) :
    db'.Intact := by
  rcases phase_writes h hof with
    rfl | ⟨loaded, current, row, results, events, rfl, hrow, hresults, hevents, rfl⟩
  · exact hi
  · exact (hi.insertStepRows hrow hresults hevents).setRun loaded current

/-! ## Every sequence of operations -/

/-- One operation; a registration hashes with a salt of its own. -/
def Traffic.Step (w : World) (l : Traffic) (w' : World) : Prop :=
  ∃ hashPassword, Traffic.next hashPassword w l = some w'

theorem traffic_intact {w w' : World} {l : Traffic} (hi : w.db.Intact)
    (h : Traffic.Step w l w') : w'.db.Intact := by
  obtain ⟨hashPassword, hnext⟩ := h
  cases l with
  | request userId request commits enqueues =>
    obtain rfl := Option.some.inj hnext
    exact effect_intact (handle_effect w.db userId commits enqueues request) hi
  | register data =>
    simp only [Traffic.next] at hnext
    split at hnext
    · obtain rfl := Option.some.inj hnext
      exact hi
    · next user db hregister =>
      obtain rfl := Option.some.inj hnext
      obtain ⟨-, -, rfl⟩ := register_ok hregister
      exact insertUser_intact hi hashPassword data
  | execute runId env =>
    obtain rfl := Option.some.inj hnext
    exact executeRun_keeps env runId w (fun _ _ _ _ => phase_intact) hi

omit [Unicode] in
/-- The deletion of a suite is its cascade: what goes with the suite is gone, and the other rows
are what they were, in the order they were in. -/
theorem delete_cascade {suiteId : Uuid} (h : SuiteService.delete db suiteId user = .ok db') :
    ∃ suite, db.suites.get? suiteId = some suite ∧
      db'.rows = remaining Owns db.rows (.testSuite suite) ∧
      ∀ row, row ∈ db'.rows ↔ row ∈ db.rows ∧ ¬ db.GoesWith suite row := by
  obtain ⟨suite, hmutable, rfl⟩ := SuiteService.delete_ok h
  have hget := SuiteService.mutable_get hmutable
  have hid := Table.get?_key hget
  subst hid
  exact ⟨suite, hget, Database.rows_deleteSuite hget, Database.mem_deleteSuite hget⟩

/-- From an intact database every sequence of operations leads to intact databases, and a suite
is deleted with its cases, its runs and their results and events, and nothing else. -/
theorem referential_integrity {w₀ w : World} {ls : List Traffic} (h₀ : w₀.db.Intact)
    (hrun : Run Traffic.Step w₀ ls w) :
    w.db.Intact ∧ ∀ db suiteId user db', SuiteService.delete db suiteId user = .ok db' →
      ∃ suite, db.suites.get? suiteId = some suite ∧
        db'.rows = remaining Owns db.rows (.testSuite suite) ∧
        ∀ row, row ∈ db'.rows ↔ row ∈ db.rows ∧ ¬ db.GoesWith suite row := by
  have hw : w.db.Intact :=
    hrun.invariant (I := fun w => w.db.Intact) (fun _ _ _ hs hst => traffic_intact hs hst) h₀
  exact ⟨hw, fun db suiteId user db' hdelete => delete_cascade hdelete⟩

end

/-! ## Owners and creators -/

/-- The accounts the database names: owners of suites and creators of runs. -/
structure NamedIn (known : Uuid → Prop) (db : Database) : Prop where
  owners : ∀ suite ∈ db.suites.rows, known suite.ownerId
  creators : ∀ run ∈ db.runs.rows, ∀ userId ∈ run.createdById, known userId

section
variable {known : Uuid → Prop} {db db' : Database} {user : User}

theorem NamedIn.imp {known' : Uuid → Prop} (h : NamedIn known db)
    (himp : ∀ userId, known userId → known' userId) : NamedIn known' db where
  owners := fun suite hsuite => himp _ (h.owners suite hsuite)
  creators := fun run hrun userId huser => himp _ (h.creators run hrun userId huser)

/-- Writing back a run leaves its creator. -/
theorem NamedIn.setRun (h : NamedIn known db) (loaded current : TestRun) :
    NamedIn known (db.setRun loaded current) := by
  refine ⟨h.owners, ?_⟩
  intro run hrun
  obtain ⟨row, hrow, rfl⟩ := List.mem_map.mp hrun
  split
  · exact h.creators row hrow
  · exact h.creators row hrow

theorem write_named {write : Write} (h : WriteEffect db user write db') (hdb : NamedIn known db)
    (huser : known user.id) : NamedIn known db' := by
  cases h with
  | nothing => exact hdb
  | addCase => exact ⟨hdb.owners, hdb.creators⟩
  | review => exact ⟨hdb.owners, hdb.creators⟩
  | cancelRun => exact hdb.setRun _ _
  | createSuite data =>
    refine ⟨?_, hdb.creators⟩
    intro suite hsuite
    rcases List.mem_append.mp hsuite with hold | hnew
    · exact hdb.owners suite hold
    · rw [List.mem_singleton.mp hnew]
      exact huser
  | @updateSuite suite suite' suiteId data hget hallowed hid howner =>
    refine ⟨?_, hdb.creators⟩
    intro row hrow
    obtain ⟨stored, hstored, rfl⟩ := List.mem_map.mp hrow
    split
    · show known suite'.ownerId
      rw [howner]
      exact hdb.owners suite (Table.get?_mem hget)
    · exact hdb.owners stored hstored
  | deleteSuite suiteId hget hallowed =>
    refine ⟨?_, ?_⟩
    · intro suite hsuite
      exact hdb.owners suite (List.mem_filter.mp hsuite).1
    · intro run hrun
      exact hdb.creators run (List.mem_filter.mp hrun).1

theorem engineer_id {userId : Uuid} (h : engineer db userId = .ok user) : user.id = userId :=
  Table.get?_key (engineer_ok h)

theorem effect_named {userId : Uuid} {commits : Bool} {request : Request} {called : Option Uuid}
    (h : Effect db userId commits request db' called) (hdb : NamedIn known db)
    (huser : ∀ user, engineer db userId = .ok user → known userId) : NamedIn known db' := by
  cases h with
  | nothing => exact hdb
  | @write user write _ hengineer hcommits hwrite =>
    have hid : user.id = userId := engineer_id hengineer
    exact write_named hwrite hdb (hid ▸ huser user hengineer)
  | @createRun user suite cases suiteId data idempotencyKey hengineer =>
    have hid : user.id = userId := engineer_id hengineer
    refine ⟨hdb.owners, ?_⟩
    intro run hrun
    rcases List.mem_append.mp hrun with hold | hnew
    · exact hdb.creators run hold
    · rw [List.mem_singleton.mp hnew]
      intro creator hcreator
      obtain rfl := Option.some.inj hcreator
      exact hid ▸ huser user hengineer

theorem effect_users {userId : Uuid} {commits : Bool} {request : Request}
    {called : Option Uuid} (h : Effect db userId commits request db' called) :
    db'.users = db.users := by
  cases h with
  | nothing => rfl
  | createRun => rfl
  | write huser hcommits h =>
    cases h with
    | nothing => rfl
    | createSuite => rfl
    | updateSuite => rfl
    | deleteSuite => rfl
    | addCase => rfl
    | cancelRun => rfl
    | review => rfl

theorem phase_users [Unicode] {env : Env} {runId : Uuid} {phase phase' : ExecutorPhase}
    (h : PhaseStep env runId db phase db' phase') : db'.users = db.users := by
  cases h with
  | skip => rfl
  | load => rfl
  | find => rfl
  | miss => rfl
  | missFails => rfl
  | begin => rfl
  | beginRaises => rfl
  | beginFails => rfl
  | close => rfl
  | closeFails => rfl
  | done => rfl

theorem phase_named [Unicode] {env : Env} {runId : Uuid} {phase phase' : ExecutorPhase}
    (h : PhaseStep env runId db phase db' phase') (hdb : NamedIn known db) : NamedIn known db' := by
  cases h with
  | skip => exact hdb
  | load => exact hdb
  | find => exact hdb
  | miss => exact hdb.setRun _ _
  | missFails => exact hdb
  | begin => exact hdb.setRun _ _
  | beginRaises => exact hdb.setRun _ _
  | beginFails => exact hdb
  | @close run row cases =>
    have hrows : NamedIn known (db.insertStepRows
        (Except.progress (executeCases env runId cases {})).results
        (Except.progress (executeCases env runId cases {})).healingEvents) :=
      ⟨hdb.owners, hdb.creators⟩
    exact hrows.setRun _ _
  | closeFails => exact hdb
  | done => exact hdb

end

/-! ## Ada's suite -/

/-- An account, a suite with a case of two steps, and a run of it whose second step drifts. -/
def adaTraffic : List Traffic :=
  [.register { email := "Ada@example.com", fullName := "Ada", password := "engine no. 1" },
    .request 0 (.write (.createSuite
      { name := "Login", slug := "login", targetBaseUrl := "https://example.com"
        cases := [{ name := "Sign in", steps := loginSteps }] })) true true,
    .request 0 (.triggerRun 0 {} none) true true,
    .execute 0 calm,
    .request 0 (.write (.reviewHealingEvent 0 false)) true true]

/-- With her suite goes all that Ada has stored but her account. -/
theorem adaTraffic_intact :
    ∃ w db', Run (@Traffic.Step asciiUnicode) { db := Database.empty } adaTraffic w ∧ w.db.Intact ∧
      w.db.rows.map Row.entity =
        [.user, .testSuite, .testCase, .testRun, .stepResult, .stepResult, .healingEvent] ∧
      SuiteService.delete w.db 0 ada = .ok db' ∧ db'.rows.map Row.entity = [.user] ∧
      ∃ suite, db'.rows = remaining Owns w.db.rows (.testSuite suite) := by
  let _ : Unicode := asciiUnicode
  have hrun : ∃ w db', Run (ofNext (Traffic.next id)) { db := Database.empty } adaTraffic w ∧
      w.db.rows.map Row.entity =
        [.user, .testSuite, .testCase, .testRun, .stepResult, .stepResult, .healingEvent] ∧
      SuiteService.delete w.db 0 ada = .ok db' ∧ db'.rows.map Row.entity = [.user] :=
    ⟨_, _, exec_run rfl, by decide, rfl, by decide⟩
  obtain ⟨w, db', hw, hrows, hdelete, hleft⟩ := hrun
  obtain ⟨hintact, hcascade⟩ := referential_integrity Database.empty_intact
    (hw.mono fun _ _ _ hstep => ⟨id, hstep⟩)
  obtain ⟨suite, -, hremaining, -⟩ := hcascade w.db 0 ada db' hdelete
  exact ⟨w, db', hw.mono fun _ _ _ hstep => ⟨id, hstep⟩, hintact, hrows, hdelete, hleft,
    suite, hremaining⟩

end AegisPlatform.Api
