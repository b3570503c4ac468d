import AegisPlatform.Api.Site
import AegisPlatform.Workers.Coverage

/-! # What a run covers

The cases of a suite are read twice: `create` counts them, and the worker executes those it finds
later. Neither looks at `is_active`. In between, an `add_case` changes what is found and nothing
else does, as long as the run is there at all.
-/

namespace AegisPlatform.Api
open Foundations Domain Core Db Services Workers
set_option autoImplicit false
set_option maxHeartbeats 250000

/-- The number of cases a run of the suite finds. -/
def caseCount (db : Database) (suiteId : Uuid) : ℕ := (db.casesOf suiteId).length

/-- The action adds a case to the suite. -/
def AddsCase (suiteId : Uuid) (s : Site) : SiteLabel → Prop
  | .request userId (.write (.addCase id _)) commits _ =>
    id = suiteId ∧ commits = true ∧ ∃ user suite, engineer s.world.db userId = .ok user ∧
      SuiteService.mutable s.world.db suiteId user = .ok suite
  | _ => False

theorem caseCount_eq (db : Database) (suiteId : Uuid) :
    caseCount db suiteId = (db.cases.rows.filter fun c => c.suiteId == suiteId).length := by
  unfold caseCount
  exact (Database.casesOf_orderBy db suiteId).length_eq

theorem caseCount_insertCase (db : Database) (id suiteId : Uuid) (data : TestCaseCreate) :
    caseCount (SuiteService.insertCase db id data) suiteId =
      caseCount db suiteId + if id = suiteId then 1 else 0 := by
  rw [caseCount_eq, caseCount_eq]
  show ((db.cases.rows ++ [SuiteService.buildCase id data db.cases.next]).filter _).length = _
  rw [List.filter_append, List.length_append]
  by_cases hid : id = suiteId
  · simp [SuiteService.buildCase, hid]
  · simp [SuiteService.buildCase, hid]

/-! ## One action, seen from run `r` of a suite -/

/-- Where run `r` of the suite is still there, its row says what it said, and `added` cases have
come to the suite. -/
structure Moved (r suiteId : Uuid) (added : ℕ) (db db' : Database) : Prop where
  suites : db.suites.next ≤ db'.suites.next
  runs : db.runs.next ≤ db'.runs.next
  row : ∀ row', db'.runs.get? r = some row' → ∃ row, db.runs.get? r = some row ∧
    row'.suiteId = row.suiteId ∧ row'.totalCases = row.totalCases
  cases : ∀ row', db'.runs.get? r = some row' → row'.suiteId = suiteId →
    caseCount db' suiteId = caseCount db suiteId + added

section
variable {r suiteId : Uuid} {db db' : Database}

theorem Moved.refl (r suiteId : Uuid) (db : Database) : Moved r suiteId 0 db db :=
  ⟨le_refl _, le_refl _, fun row h => ⟨row, h, rfl, rfl⟩, fun _ _ _ => rfl⟩

/-- An action that leaves the runs alone. -/
theorem moved_of_runs {added : ℕ} (hruns : db'.runs = db.runs)
    (hsuites : db.suites.next ≤ db'.suites.next)
    (hcases : caseCount db' suiteId = caseCount db suiteId + added) :
    Moved r suiteId added db db' := by
  refine ⟨hsuites, hruns ▸ le_refl _, ?_, fun _ _ _ => hcases⟩
  rw [hruns]
  exact fun row h => ⟨row, h, rfl, rfl⟩

/-- A row written back keeps its suite and its number of cases. -/
theorem moved_setRun (loaded current : TestRun) :
    Moved r suiteId 0 db (db.setRun loaded current) := by
  refine ⟨le_refl _, le_refl _, fun row' hrow' => ?_, fun _ _ _ => rfl⟩
  obtain ⟨row, hrow, heq⟩ := Database.mem_setRun (Table.get?_mem hrow')
  have hkey := Table.get?_key hrow'
  have hid : row.id = r := by
    rw [heq] at hkey
    split at hkey
    · exact hkey
    · exact hkey
  refine ⟨row, hid ▸ Table.get?_of_mem hrow, ?_⟩
  rw [heq]
  split
  · exact ⟨rfl, rfl⟩
  · exact ⟨rfl, rfl⟩

theorem Moved.trans {added added' : ℕ} {db'' : Database} (h : Moved r suiteId added db db')
    (k : Moved r suiteId added' db' db'') : Moved r suiteId (added + added') db db'' where
  suites := h.suites.trans k.suites
  runs := h.runs.trans k.runs
  row := by
    intro row'' hrow''
    obtain ⟨row', hrow', hsuite', htotal'⟩ := k.row row'' hrow''
    obtain ⟨row, hrow, hsuite, htotal⟩ := h.row row' hrow'
    exact ⟨row, hrow, hsuite'.trans hsuite, htotal'.trans htotal⟩
  cases := by
    intro row'' hrow'' hsuiteId
    obtain ⟨row', hrow', hsuite', -⟩ := k.row row'' hrow''
    rw [k.cases row'' hrow'' hsuiteId, h.cases row' hrow' (hsuite' ▸ hsuiteId), Nat.add_assoc]

/-- Deleting another suite leaves the cases of this one. -/
theorem moved_deleteSuite (id : Uuid) : Moved r suiteId 0 db (db.deleteSuite id) := by
  refine ⟨le_refl _, le_refl _, fun row' hrow' => ?_, fun row' hrow' hsuite => ?_⟩
  · exact ⟨row', ((Table.get?_filter_eq_some_iff db.runs _ r row').mp hrow').1, rfl, rfl⟩
  · have hother : (row'.suiteId != id) = true :=
      ((Table.get?_filter_eq_some_iff db.runs _ r row').mp hrow').2
    rw [hsuite] at hother
    have hkept : (fun c : TestCase => c.suiteId == suiteId && c.suiteId != id) =
        fun c => c.suiteId == suiteId := by
      funext c
      by_cases hc : c.suiteId = suiteId
      · simp [hc, hother]
      · simp [hc]
    rw [caseCount_eq, caseCount_eq]
    show ((db.cases.rows.filter fun c => c.suiteId != id).filter _).length = _
    rw [List.filter_filter, hkept, Nat.add_zero]

/-- The cases of a new suite are those of no suite before it. -/
theorem moved_insertSuite (data : SuiteCreate) (ownerId : Uuid) (h : suiteId < db.suites.next) :
    Moved r suiteId 0 db (SuiteService.insertSuite db data ownerId) := by
  refine moved_of_runs rfl (Nat.le_succ _) ?_
  rw [caseCount_eq, caseCount_eq]
  rw [SuiteService.filter_insertSuite_cases data ownerId (Nat.ne_of_lt h), Nat.add_zero]

theorem moved_insertRun (suite : TestSuite) (cases : List TestCase) (data : RunCreate)
    (actor : User) (key : Option String) (h : r < db.runs.next) :
    Moved r suiteId 0 db (RunService.insertRun db suite cases data actor key) := by
  refine ⟨le_refl _, Nat.le_succ _, fun row' hrow' => ?_, fun _ _ _ => rfl⟩
  have hsame : (RunService.insertRun db suite cases data actor key).runs.get? r = db.runs.get? r :=
    Table.get?_insert_of_ne _ _ (fun _ => RunService.id_newRun ..) (Nat.ne_of_lt h)
  rw [hsame] at hrow'
  exact ⟨row', hrow', rfl, rfl⟩

theorem write_moved {user : User} {write : Write} (h : WriteEffect db user write db')
    (hnot : ∀ id data, write ≠ .addCase id data) (hsuite : suiteId < db.suites.next) :
    Moved r suiteId 0 db db' := by
  cases h with
  | nothing => exact Moved.refl r suiteId db
  | createSuite data => exact moved_insertSuite data user.id hsuite
  | updateSuite => exact moved_of_runs rfl (le_refl _) rfl
  | deleteSuite => exact moved_deleteSuite _
  | addCase id data => exact absurd rfl (hnot id data)
  | cancelRun => exact moved_setRun _ _
  | review => exact moved_of_runs rfl (le_refl _) rfl

theorem effect_moved {userId : Uuid} {commits : Bool} {request : Request} {called : Option Uuid}
    (h : Effect db userId commits request db' called)
    (hnot : ∀ id data, request ≠ .write (.addCase id data)) (hsuite : suiteId < db.suites.next)
    (hr : r < db.runs.next) : Moved r suiteId 0 db db' := by
  cases h with
  | nothing => exact Moved.refl r suiteId db
  | write huser hcommits hwrite =>
    exact write_moved hwrite (fun id data heq => hnot id data (congrArg _ heq)) hsuite
  | createRun => exact moved_insertRun _ _ _ _ _ hr

theorem executeRun_moved [Unicode] (env : Env) (runId : Uuid) (w : World) :
    Moved r suiteId 0 w.db (executeRun env runId w).1.db := by
  refine executeRun_keeps (I := fun db => Moved r suiteId 0 w.db db) env runId w ?_
    (Moved.refl r suiteId w.db)
  intro db phase db' phase' hstep _ hi
  cases hstep with
  | skip => exact hi
  | load => exact hi
  | find => exact hi
  | miss => exact hi.trans (moved_setRun _ _)
  | missFails => exact hi
  | begin => exact hi.trans (moved_setRun _ _)
  | beginRaises => exact hi.trans (moved_setRun _ _)
  | beginFails => exact hi
  | close cases =>
    have hrows : Moved r suiteId 0 db
        (db.insertStepRows (Except.progress (executeCases env runId cases {})).results
          (Except.progress (executeCases env runId cases {})).healingEvents) :=
      moved_of_runs rfl (le_refl _) rfl
    exact (hi.trans hrows).trans (moved_setRun _ _)
  | closeFails => exact hi
  | done => exact hi

/-- An `add_case` adds its case, or changes nothing. -/
theorem handle_addCase (db : Database) (userId id : Uuid) (data : TestCaseCreate)
    (commits enqueues : Bool) :
    (handle db userId commits enqueues (.write (.addCase id data))).1 = db ∧
        ¬ (commits = true ∧ ∃ user suite, engineer db userId = .ok user ∧
          SuiteService.mutable db id user = .ok suite) ∨
      (handle db userId commits enqueues (.write (.addCase id data))).1 =
          SuiteService.insertCase db id data ∧ commits = true ∧
        ∃ user suite, engineer db userId = .ok user ∧ SuiteService.mutable db id user = .ok suite := by
  unfold handle
  cases huser : engineer db userId with
  | error e =>
    refine Or.inl ⟨rfl, ?_⟩
    rintro ⟨-, user, suite, hok, -⟩
    cases hok
  | ok user =>
    unfold handleWrite SuiteService.addCase
    cases hmutable : SuiteService.mutable db id user with
    | error e =>
      simp only [hmutable]
      refine Or.inl ⟨trivial, ?_⟩
      rintro ⟨-, user', suite, hok, hsuite⟩
      obtain rfl := Except.ok.inj hok
      rw [hmutable] at hsuite
      cases hsuite
    | ok suite =>
      have hid : suite.id = id := Table.get?_key (SuiteService.mutable_get hmutable)
      simp only [hmutable, hid]
      cases commits with
      | false => exact Or.inl ⟨rfl, fun h => Bool.false_ne_true h.1⟩
      | true => exact Or.inr ⟨rfl, rfl, user, suite, rfl, hmutable⟩

end

section
variable [Unicode] {r suiteId : Uuid}

/-- One action adds cases to the suite exactly if it is an `add_case` that succeeds. -/
theorem next_moved {s t : Site} {l : SiteLabel} (hnext : s.next l = some t)
    (hsuite : suiteId < s.world.db.suites.next) (hr : r < s.world.db.runs.next) :
    ∃ added, Moved r suiteId added s.world.db t.world.db ∧
      (added = 0 ↔ ¬ AddsCase suiteId s l) := by
  have stays : ¬ AddsCase suiteId s l → Moved r suiteId 0 s.world.db t.world.db →
      ∃ added, Moved r suiteId added s.world.db t.world.db ∧
        (added = 0 ↔ ¬ AddsCase suiteId s l) :=
    fun hnot hmoved => ⟨0, hmoved, fun _ => hnot, fun _ => rfl⟩
  cases l with
  | execute runId env =>
    obtain rfl := Option.some.inj hnext
    exact stays not_false (executeRun_moved env runId s.world)
  | loseSuite id =>
    obtain rfl := Option.some.inj hnext
    exact stays not_false (moved_of_runs rfl (le_refl _) rfl)
  | request userId request commits enqueues =>
    have hdb : t.world.db = (handle s.world.db userId commits enqueues request).1 := by
      obtain rfl := Option.some.inj hnext
      rfl
    have heffect := handle_effect s.world.db userId commits enqueues request
    rw [← hdb] at heffect
    cases request with
    | read read => exact stays not_false (effect_moved heffect nofun hsuite hr)
    | triggerRun => exact stays not_false (effect_moved heffect nofun hsuite hr)
    | write write =>
      cases write with
      | createSuite => exact stays not_false (effect_moved heffect nofun hsuite hr)
      | updateSuite => exact stays not_false (effect_moved heffect nofun hsuite hr)
      | deleteSuite => exact stays not_false (effect_moved heffect nofun hsuite hr)
      | cancelRun => exact stays not_false (effect_moved heffect nofun hsuite hr)
      | reviewHealingEvent => exact stays not_false (effect_moved heffect nofun hsuite hr)
      | addCase id data =>
        rcases handle_addCase s.world.db userId id data commits enqueues with
          ⟨hsame, hnot⟩ | ⟨hinsert, hcommits, user, suite, huser, hmutable⟩
        · rw [hsame] at hdb
          refine stays ?_ (hdb ▸ Moved.refl r suiteId _)
          rintro ⟨rfl, hcommits, hallowed⟩
          exact hnot ⟨hcommits, hallowed⟩
        · rw [hinsert] at hdb
          refine ⟨if id = suiteId then 1 else 0, ?_, ?_⟩
          · rw [hdb]
            exact moved_of_runs rfl (le_refl _) (caseCount_insertCase s.world.db id suiteId data)
          · by_cases hid : id = suiteId
            · subst hid
              simp only [if_true, one_ne_zero, false_iff, not_not]
              exact ⟨rfl, hcommits, user, suite, huser, hmutable⟩
            · simp only [hid, if_false, true_iff]
              exact fun hadds => hid hadds.1

/-- Over a run of the site, cases come to the suite exactly by the `add_case`s that succeed. -/
theorem run_moved {s t : Site} {ls : List SiteLabel} (h : Run (ofNext Site.next) s ls t)
    (hsuite : suiteId < s.world.db.suites.next) (hr : r < s.world.db.runs.next) :
    ∃ added, Moved r suiteId added s.world.db t.world.db ∧
      (added = 0 ↔ Run (Under (fun s l => ¬ AddsCase suiteId s l) (ofNext Site.next)) s ls t) := by
  induction h with
  | nil => exact ⟨0, Moved.refl r suiteId _, fun _ => Run.nil _, fun _ => rfl⟩
  | snoc hbefore hlast ih =>
    obtain ⟨added, hmoved, hiff⟩ := ih
    obtain ⟨new, hnew, hiff'⟩ := next_moved hlast (lt_of_lt_of_le hsuite hmoved.suites)
      (lt_of_lt_of_le hr hmoved.runs)
    refine ⟨added + new, hmoved.trans hnew, ?_⟩
    rw [Nat.add_eq_zero_iff, hiff, hiff', Run.snoc_iff]
    refine ⟨fun ⟨hrun, hnot⟩ => ⟨_, hrun, hnot, hlast⟩, ?_⟩
    rintro ⟨m, hm, hnot, -⟩
    obtain rfl := Run.functional hbefore hm.of_under
    exact ⟨hm, hnot⟩

/-! ## What an execution covers -/

omit [Unicode] in
/-- A request that hands over a new run found its suite and counted the cases of it. -/
theorem created_run {db : Database} {userId runId : Uuid} {data : RunCreate}
    {idempotencyKey : Option String} {commits enqueues : Bool}
    (h : (handle db userId commits enqueues (.triggerRun suiteId data idempotencyKey)).2.1 =
      some runId) :
    runId = db.runs.next ∧ ∃ user suite, db.suites.get? suiteId = some suite ∧
      (handle db userId commits enqueues (.triggerRun suiteId data idempotencyKey)).1 =
        RunService.insertRun db suite (db.casesOf suiteId) data user idempotencyKey := by
  have htriggered := triggerRun_triggered db ⟨suiteId, data, userId, idempotencyKey⟩ commits enqueues
  have hhandle : handle db userId commits enqueues (.triggerRun suiteId data idempotencyKey) =
      ((triggerRun db ⟨suiteId, data, userId, idempotencyKey⟩ commits enqueues).1,
        (triggerRun db ⟨suiteId, data, userId, idempotencyKey⟩ commits enqueues).2.1,
        renderAnswer (triggerRun db ⟨suiteId, data, userId, idempotencyKey⟩ commits enqueues).2.2) :=
    rfl
  rw [hhandle] at h ⊢
  generalize triggerRun db ⟨suiteId, data, userId, idempotencyKey⟩ commits enqueues = result
    at htriggered h ⊢
  cases htriggered with
  | fails => cases h
  | replays => cases h
  | @creates user suite cases huser hmiss hrunnable =>
    obtain ⟨hget, -⟩ := RunService.runnable_ok hrunnable
    obtain ⟨hrow, rfl⟩ := Database.getWithCases_some hget
    exact ⟨(Option.some.inj h).symm, user, suite, hrow, rfl⟩

/-- What a run counted when it was created, what its suite has later, and what came in between. -/
theorem counted_run {s₀ s₁ s₂ : Site} {ls : List SiteLabel} {userId runId : Uuid}
    {data : RunCreate} {idempotencyKey : Option String} {commits enqueues : Bool} {run : TestRun}
    (hcreate : s₀.next (.request userId (.triggerRun suiteId data idempotencyKey) commits enqueues) =
      some s₁)
    (hcreated : (handle s₀.world.db userId commits enqueues
      (.triggerRun suiteId data idempotencyKey)).2.1 = some runId)
    (hrun : Run (ofNext Site.next) s₁ ls s₂) (hget : s₂.world.db.runs.get? runId = some run) :
    run.suiteId = suiteId ∧ ∃ added, caseCount s₂.world.db suiteId = run.totalCases + added ∧
      (added = 0 ↔
        Run (Under (fun s l => ¬ AddsCase suiteId s l) (ofNext Site.next)) s₁ ls s₂) := by
  obtain ⟨hid, user, suite, hsuite, hhandle⟩ := created_run hcreated
  have hdb : s₁.world.db = RunService.insertRun s₀.world.db suite (s₀.world.db.casesOf suiteId)
      data user idempotencyKey := by
    obtain rfl := Option.some.inj hcreate
    exact hhandle
  have hcreatedRow : s₁.world.db.runs.get? runId = some (RunService.newRun suite
      (s₀.world.db.casesOf suiteId) data user idempotencyKey runId) := by
    rw [hdb, hid]
    exact Table.get?_insert_self _ _ (fun _ => RunService.id_newRun ..)
  have hknown : suiteId < s₁.world.db.suites.next := by
    rw [hdb]
    exact Table.get?_lt hsuite
  obtain ⟨added, hmoved, hiff⟩ := run_moved hrun hknown (Table.get?_lt hcreatedRow)
  obtain ⟨row, hrow, hsame, hkept⟩ := hmoved.row run hget
  rw [hcreatedRow] at hrow
  obtain rfl := Option.some.inj hrow
  have hkey : suite.id = suiteId := Table.get?_key hsuite
  have hof : run.suiteId = suiteId := hsame.trans hkey
  refine ⟨hof, added, ?_, hiff⟩
  rw [hmoved.cases run hget hof, hdb, hkept]
  rfl

/-- The execution went through the active cases of its suite, and the row counts what it went
through. -/
structure Covers (env : Env) (runId : Uuid) (w : World) (run' : TestRun) : Prop where
  active : executedCases env runId w = (w.db.casesOf run'.suiteId).filter fun case => case.isActive
  total : run'.totalCases = (executedCases env runId w).length

/-- A run that ends PASSED or FAILED covers its suite exactly if none of the cases is inactive
when it executes and no `add_case` on the suite succeeded since it was created. -/
theorem run_covers_iff {s₀ s₁ s₂ : Site} {ls : List SiteLabel} {userId runId : Uuid}
    {data : RunCreate} {idempotencyKey : Option String} {commits enqueues : Bool} {env : Env}
    {run' : TestRun}
    (hcreate : s₀.next (.request userId (.triggerRun suiteId data idempotencyKey) commits enqueues) =
      some s₁)
    (hcreated : (handle s₀.world.db userId commits enqueues
      (.triggerRun suiteId data idempotencyKey)).2.1 = some runId)
    (hrun : Run (ofNext Site.next) s₁ ls s₂)
    (hqueued : statusOf s₂.world.db runId = some .queued)
    (hrow : (executeRun env runId s₂.world).1.db.runs.get? runId = some run')
    (hend : run'.status = .passed ∨ run'.status = .failed) :
    Covers env runId s₂.world run' ↔
      (∀ case ∈ s₂.world.db.casesOf suiteId, case.isActive = true) ∧
        Run (Under (fun s l => ¬ AddsCase suiteId s l) (ofNext Site.next)) s₁ ls s₂ := by
  unfold statusOf at hqueued
  obtain ⟨run, hget, hstatus⟩ := Option.map_eq_some_iff.mp hqueued
  obtain ⟨hof, added, hcount, hiff⟩ := counted_run hcreate hcreated hrun hget
  obtain ⟨suite, cases, hfound⟩ := found_of_finished hget hstatus hrow hend
  obtain ⟨hexecuted, htotal, hsuiteId, -⟩ := executedCases_finished hfound hrow hend
  have hcases : cases = s₂.world.db.casesOf suiteId := by
    rw [(Database.getWithCases_some hfound.suite).2, hof]
  have hlength : cases.length = run.totalCases + added := by
    rw [hcases, ← hcount]
    rfl
  rw [← hiff, ← hcases]
  refine ⟨fun h => ⟨?_, ?_⟩, fun ⟨hactive, hnone⟩ => ⟨?_, ?_⟩⟩
  · have hfilter := h.active
    rw [hexecuted, hsuiteId, hof, ← hcases] at hfilter
    exact List.filter_eq_self.mp hfilter.symm
  · have hequal := h.total
    rw [hexecuted, htotal] at hequal
    omega
  · rw [hexecuted, hsuiteId, hof, ← hcases]
    exact (List.filter_eq_self.mpr hactive).symm
  · rw [hexecuted, htotal]
    omega

end

/-! ## A case too many, and an inactive one -/

def signOutCase : TestCaseCreate := { name := "Sign out", steps := loginSteps }

def addSignOut : SiteLabel := .request 0 (.write (.addCase 0 signOutCase)) true true

/-- The suite of the small platform, with its case switched off. -/
def switchedOffSite : Site :=
  { world := { db := { loginSite.world.db with
      cases := Table.empty.insert fun n => { loginCase with id := n, isActive := false } } } }

/-- A run created at `s₀` and executed after `ls` fails without covering its suite. -/
def Uncovered [Unicode] (s₀ : Site) (ls : List SiteLabel) : Prop :=
  ∃ s₁ s₂ run', s₀.next (demoTrigger true) = some s₁ ∧
    (handle s₀.world.db 0 true true (.triggerRun 0 {} (some "demo-run-001"))).2.1 = some 0 ∧
    Run (ofNext Site.next) s₁ ls s₂ ∧ statusOf s₂.world.db 0 = some .queued ∧
    (executeRun calm 0 s₂.world).1.db.runs.get? 0 = some run' ∧ run'.status = .failed ∧
    ¬ Covers calm 0 s₂.world run'

/-- The inactive case is executed, and so is a case added after the run was counted. -/
theorem uncovered_counterexample :
    let _ : Unicode := asciiUnicode
    Uncovered switchedOffSite [] ∧ Uncovered loginSite [addSignOut] := by
  intro _
  refine ⟨⟨_, _, _, rfl, by decide, Run.nil _, by decide, rfl, by decide, fun h => ?_⟩,
    ⟨_, _, _, rfl, by decide, exec_run rfl, by decide, rfl, by decide, fun h => ?_⟩⟩
  · have hnone := congrArg List.length h.active
    revert hnone
    decide
  · have htotal := h.total
    revert htotal
    decide

theorem login_covered :
    let _ : Unicode := asciiUnicode
    ∃ s₁ s₂ run', loginSite.next (demoTrigger true) = some s₁ ∧
      Run (ofNext Site.next) s₁ [demoTrigger false] s₂ ∧ run'.status = .failed ∧
      (Covers calm 0 s₂.world run' ↔
        (∀ case ∈ s₂.world.db.casesOf 0, case.isActive = true) ∧
          Run (Under (fun s l => ¬ AddsCase 0 s l) (ofNext Site.next)) s₁ [demoTrigger false] s₂) := by
  intro _
  have hcreate : ∃ s₁ s₂ run', loginSite.next (demoTrigger true) = some s₁ ∧
      Run (ofNext Site.next) s₁ [demoTrigger false] s₂ ∧ statusOf s₂.world.db 0 = some .queued ∧
      (executeRun calm 0 s₂.world).1.db.runs.get? 0 = some run' ∧ run'.status = .failed :=
    ⟨_, _, _, rfl, exec_run rfl, by decide, rfl, by decide⟩
  obtain ⟨s₁, s₂, run', hnext, hrun, hqueued, hrow, hfailed⟩ := hcreate
  exact ⟨s₁, s₂, run', hnext, hrun, hfailed,
    run_covers_iff hnext (by decide) hrun hqueued hrow (Or.inr hfailed)⟩

end AegisPlatform.Api
