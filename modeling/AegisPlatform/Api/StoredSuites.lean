import AegisPlatform.Api.Site

/-! # Stored suites and the schemas that read them

The write schema lets every field of a patch be null, the table lets `description` and the JSON
column `tags` be null, and the read schema lets only `description` be null. So a null for `tags`
is stored and never read back, and a null for any other field but `description` is refused by the
database, behind the back of the API's own errors. A patch without these nulls keeps every suite
readable and sets exactly what it supplies.
-/

namespace AegisPlatform.Api
open Foundations Domain Core Db Services Workers
set_option autoImplicit false
set_option maxHeartbeats 250000

/-- Every suite can be rendered, with its cases. -/
structure Readable (db : Database) : Prop where
  tags : ∀ suite ∈ db.suites.rows, suite.tags.isSome
  cases : ∀ case ∈ db.cases.rows, renderCase case

/-- An explicit null where the table or the read schema takes none. -/
def NullsRequired (data : SuiteUpdate) : Prop :=
  data.name = some none ∨ data.targetBaseUrl = some none ∨ data.tags = some none ∨
    data.isActive = some none

/-- A patch that reaches a suite its account may change sets no required field to null. -/
def KeepsRequired (db : Database) (userId : Uuid) : Request → Prop
  | .write (.updateSuite suiteId data) => ∀ user suite, engineer db userId = .ok user →
      SuiteService.mutable db suiteId user = .ok suite → ¬ NullsRequired data
  | _ => True

/-- The fields that `data` supplies are set, an explicit null included, and no other. -/
structure Patched (data : SuiteUpdate) (old new : TestSuite) : Prop where
  name : some new.name = data.name.getD (some old.name)
  description : new.description = data.description.getD old.description
  targetBaseUrl : some new.targetBaseUrl = data.targetBaseUrl.getD (some old.targetBaseUrl)
  tags : new.tags = data.tags.getD old.tags
  isActive : some new.isActive = data.isActive.getD (some old.isActive)
  kept : new.id = old.id ∧ new.slug = old.slug ∧ new.ownerId = old.ownerId

/-- A patch succeeds and sets what it supplies, or fails with an error of the API and changes
nothing. -/
def PatchHonest (db : Database) (suiteId : Uuid) (data : SuiteUpdate) (db' : Database)
    (response : Response) : Prop :=
  (∃ old new cases, db.suites.get? suiteId = some old ∧ db'.suites.get? suiteId = some new ∧
    Patched data old new ∧ response = .suite new cases ∧
      ∀ other, other ≠ suiteId → db'.suites.get? other = db.suites.get? other) ∨
  (∃ e, response = .failed (.aegis e) ∧ db' = db)

/-! ## Rendering -/

section
variable {db db' : Database} {userId suiteId : Uuid} {user : User} {suite : TestSuite}

theorem Readable.renderSuite_eq (h : Readable db) (hsuite : suite ∈ db.suites.rows) :
    renderSuite suite (db.casesOf suiteId) = .suite suite (db.casesOf suiteId) := by
  have hcases : (db.casesOf suiteId).all renderCase = true := by
    rw [List.all_eq_true]
    exact fun case hcase => h.cases case (Database.mem_casesOf.mp hcase).1
  unfold renderSuite
  rw [h.tags suite hsuite, hcases]
  rfl

theorem Readable.renderStored_eq (h : Readable db) (hget : db.suites.get? suiteId = some suite) :
    renderStored db suiteId = .suite suite (db.casesOf suiteId) := by
  unfold renderStored SuiteService.get Database.getWithCases
  rw [hget, Option.map_some]
  exact h.renderSuite_eq (Table.get?_mem hget)

theorem renderStored_none (hget : db.suites.get? suiteId = none) :
    renderStored db suiteId = .failed suiteNotFound := by
  unfold renderStored SuiteService.get Database.getWithCases
  rw [hget]
  rfl

/-- Tags that were set to null are not rendered. -/
theorem renderStored_untagged (hget : db.suites.get? suiteId = some suite)
    (hnone : suite.tags = none) : renderStored db suiteId = .internalError := by
  unfold renderStored SuiteService.get Database.getWithCases
  rw [hget]
  simp [renderSuite, hnone]

/-- A case the service builds holds dumps of steps, which its schema reads back. -/
theorem renderCase_buildCase (suiteId : Uuid) (data : TestCaseCreate) (id : Uuid) :
    renderCase (SuiteService.buildCase suiteId data id) := by
  unfold renderCase SuiteService.buildCase
  rw [List.all_eq_true]
  intro s hs
  obtain ⟨step, -, rfl⟩ := List.mem_map.mp hs
  rw [StepSpec.modelValidate_modelDump]
  rfl

/-- No read fails on what is stored. -/
theorem Readable.handleRead_ne (h : Readable db) (read : Read) :
    handleRead db user read ≠ .internalError := by
  cases read with
  | me => exact Response.noConfusion
  | listSuites pagination =>
    have hall : ((pagination.window db.suites.rows.reverse).all
        fun suite => suite.tags.isSome) = true := by
      rw [List.all_eq_true]
      intro suite hsuite
      have hmem := List.mem_of_mem_drop (List.mem_of_mem_take hsuite)
      exact h.tags suite (List.mem_reverse.mp hmem)
    unfold handleRead
    simp only [hall, if_true]
    exact Response.noConfusion
  | getSuite suiteId =>
    show renderStored db suiteId ≠ .internalError
    cases hget : db.suites.get? suiteId with
    | none =>
      rw [renderStored_none hget]
      exact Response.noConfusion
    | some suite =>
      rw [h.renderStored_eq hget]
      exact Response.noConfusion
  | listRuns suiteId pagination => exact Response.noConfusion
  | getRun runId =>
    cases hget : RunService.get db runId with
    | error e => simp [handleRead, hget]
    | ok run => simp [handleRead, hget]
  | listHealingEvents runId => exact Response.noConfusion

/-! ## Patches -/

theorem required_none_iff {α : Type} (old : α) (supplied : Option (Option α)) :
    SuiteService.required old supplied = none ↔ supplied = some none := by
  rcases supplied with _ | _ | value
  · simp [SuiteService.required]
  · simp [SuiteService.required]
  · simp [SuiteService.required]

/-- The patch of a suite fails exactly on a null for a NOT NULL column. -/
theorem patch_none_iff (suite : TestSuite) (data : SuiteUpdate) :
    SuiteService.patch suite data = none ↔
      data.name = some none ∨ data.targetBaseUrl = some none ∨ data.isActive = some none := by
  rw [← required_none_iff suite.name, ← required_none_iff suite.targetBaseUrl,
    ← required_none_iff suite.isActive]
  unfold SuiteService.patch
  cases SuiteService.required suite.name data.name with
  | none => simp
  | some name =>
    cases SuiteService.required suite.targetBaseUrl data.targetBaseUrl with
    | none => simp
    | some url =>
      cases SuiteService.required suite.isActive data.isActive with
      | none => simp
      | some active => simp

theorem nullsRequired_iff (suite : TestSuite) (data : SuiteUpdate) :
    NullsRequired data ↔ SuiteService.patch suite data = none ∨ data.tags = some none := by
  rw [patch_none_iff]
  unfold NullsRequired
  tauto

/-- An honest answer is a suite or an error of the API. -/
theorem PatchHonest.answer {data : SuiteUpdate} {response : Response}
    (h : PatchHonest db suiteId data db' response) :
    response ≠ .failed .integrityError ∧ response ≠ .internalError := by
  rcases h with ⟨old, new, cases, -, -, -, rfl, -⟩ | ⟨e, rfl, -⟩
  · exact ⟨Response.noConfusion, Response.noConfusion⟩
  · exact ⟨fun heq => (by cases heq), Response.noConfusion⟩

theorem patched_of_patch {suite' : TestSuite} {data : SuiteUpdate}
    (h : SuiteService.patch suite data = some suite') : Patched data suite suite' := by
  have hrequired : ∀ {α : Type} (old new : α) (supplied : Option (Option α)),
      SuiteService.required old supplied = some new → some new = supplied.getD (some old) := by
    intro α old new supplied hs
    rcases supplied with _ | _ | value
    · exact hs.symm
    · cases hs
    · exact hs.symm
  have hnullable : ∀ {α : Type} (old : Option α) (supplied : Option (Option α)),
      SuiteService.nullable old supplied = supplied.getD old := by
    intro α old supplied
    cases supplied with
    | none => rfl
    | some value => rfl
  have hkept := SuiteService.patch_some h
  unfold SuiteService.patch at h
  simp only [Option.bind_eq_bind, Option.bind_eq_some_iff, Option.pure_def,
    Option.some.injEq] at h
  obtain ⟨name, hname, url, hurl, active, hactive, rfl⟩ := h
  exact
    { name := hrequired _ _ _ hname
      description := hnullable _ _
      targetBaseUrl := hrequired _ _ _ hurl
      tags := hnullable _ _
      isActive := hrequired _ _ _ hactive
      kept := ⟨hkept.1, hkept.2.2, hkept.2.1⟩ }

/-- A readable suite keeps its tags readable unless the patch sets them to null. -/
theorem Patched.tags_none_iff {data : SuiteUpdate} {old new : TestSuite}
    (h : Patched data old new) (hold : old.tags.isSome) :
    new.tags = none ↔ data.tags = some none := by
  rw [h.tags]
  rcases data.tags with _ | _ | tags
  · simpa using Option.isSome_iff_ne_none.mp hold
  · simp
  · simp

/-- Everything a PATCH can do on a database that commits. -/
theorem patch_cases (db : Database) (userId suiteId : Uuid) (data : SuiteUpdate)
    (enqueues : Bool) :
    (∃ e, handle db userId true enqueues (.write (.updateSuite suiteId data)) =
        (db, none, .failed (.aegis e)) ∧
      ∀ user suite, engineer db userId = .ok user →
        SuiteService.mutable db suiteId user ≠ .ok suite) ∨
    ∃ user suite, engineer db userId = .ok user ∧
      SuiteService.mutable db suiteId user = .ok suite ∧
      ((SuiteService.patch suite data = none ∧
        handle db userId true enqueues (.write (.updateSuite suiteId data)) =
          (db, none, .failed .integrityError)) ∨
      ∃ suite', SuiteService.patch suite data = some suite' ∧
        handle db userId true enqueues (.write (.updateSuite suiteId data)) =
          (SuiteService.setSuite db suite', none,
            renderStored (SuiteService.setSuite db suite') suite'.id)) := by
  cases huser : engineer db userId with
  | error e =>
    obtain ⟨a, rfl⟩ := engineer_error huser
    refine Or.inl ⟨a, ?_, fun user suite h => by cases h⟩
    simp only [handle, huser]
  | ok user =>
    cases hmutable : SuiteService.mutable db suiteId user with
    | error e =>
      obtain ⟨a, rfl⟩ := SuiteService.mutable_error hmutable
      refine Or.inl ⟨a, ?_, ?_⟩
      · simp only [handle, huser, handleWrite, SuiteService.update, hmutable]
      · intro user' suite h
        obtain rfl := Except.ok.inj h
        simp [hmutable]
    | ok suite =>
      refine Or.inr ⟨user, suite, rfl, hmutable, ?_⟩
      cases hpatch : SuiteService.patch suite data with
      | none =>
        refine Or.inl ⟨rfl, ?_⟩
        simp only [handle, huser, handleWrite, SuiteService.update, hmutable, hpatch]
      | some suite' =>
        refine Or.inr ⟨suite', rfl, ?_⟩
        simp only [handle, huser, handleWrite, SuiteService.update, hmutable, hpatch, if_true]

theorem Readable.setSuite (h : Readable db) (htags : suite.tags.isSome) :
    Readable (SuiteService.setSuite db suite) where
  tags := by
    intro row hrow
    obtain ⟨old, hold, rfl⟩ := List.mem_map.mp hrow
    split
    · exact htags
    · exact h.tags old hold
  cases := h.cases

theorem get?_setSuite (hget : db.suites.get? suiteId = some suite) {suite' : TestSuite}
    (hid : suite'.id = suiteId) :
    (SuiteService.setSuite db suite').suites.get? suiteId = some suite' := by
  subst hid
  unfold SuiteService.setSuite
  rw [Table.get?_modify_self db.suites suite'.id (fun stored => { suite' with id := stored.id })
    (fun _ => rfl), hget]
  have hkey : suite.id = suite'.id := Table.get?_key hget
  simp [hkey]

/-- On a readable database, a PATCH is honest exactly when it sets no required field of a suite it
may change to null. -/
theorem patch_honest_iff (h : Readable db) (userId suiteId : Uuid) (data : SuiteUpdate)
    (enqueues : Bool) :
    PatchHonest db suiteId data
        (handle db userId true enqueues (.write (.updateSuite suiteId data))).1
        (handle db userId true enqueues (.write (.updateSuite suiteId data))).2.2 ↔
      KeepsRequired db userId (.write (.updateSuite suiteId data)) := by
  rcases patch_cases db userId suiteId data enqueues with
    ⟨e, heq, hrefused⟩ | ⟨user, suite, huser, hmutable, ⟨hpatch, heq⟩ | ⟨suite', hpatch, heq⟩⟩
  · rw [heq]
    constructor
    · intro _ user suite huser hmutable
      exact absurd hmutable (hrefused user suite huser)
    · exact fun _ => Or.inr ⟨e, rfl, rfl⟩
  · rw [heq]
    constructor
    · exact fun hhonest => absurd rfl hhonest.answer.1
    · intro hkeeps
      exact absurd ((nullsRequired_iff suite data).mpr (Or.inl hpatch))
        (hkeeps user suite huser hmutable)
  · rw [heq]
    have hget := SuiteService.mutable_get hmutable
    have hold := h.tags suite (Table.get?_mem hget)
    have hpatched := patched_of_patch hpatch
    have hid : suite'.id = suiteId := hpatched.kept.1.trans (Table.get?_key hget)
    have hstored := get?_setSuite hget hid
    have hsome : SuiteService.patch suite data ≠ none := by
      rw [hpatch]
      exact Option.some_ne_none suite'
    dsimp only
    rw [hid]
    constructor
    · intro hhonest user' suite'' huser' hmutable' hnulls
      have htags := ((nullsRequired_iff suite data).mp hnulls).resolve_left hsome
      have hnone : suite'.tags = none := (hpatched.tags_none_iff hold).mpr htags
      exact hhonest.answer.2 (renderStored_untagged hstored hnone)
    · intro hkeeps
      have htags : suite'.tags ≠ none := fun hnone =>
        hkeeps user suite huser hmutable
          ((nullsRequired_iff suite data).mpr (Or.inr ((hpatched.tags_none_iff hold).mp hnone)))
      have hresponse := (h.setSuite (Option.isSome_iff_ne_none.mpr htags)).renderStored_eq hstored
      refine Or.inl ⟨suite, suite', _, hget, hstored, hpatched, hresponse, ?_⟩
      intro other hother
      exact Table.get?_modify_of_ne db.suites (fun stored => { suite' with id := stored.id })
        (fun _ => rfl) (hid.symm ▸ hother)

/-! ## Over every run of requests -/

theorem Readable.of_subset (h : Readable db) (hsuites : ∀ s ∈ db'.suites.rows, s ∈ db.suites.rows)
    (hcases : ∀ c ∈ db'.cases.rows, c ∈ db.cases.rows) : Readable db' where
  tags := fun suite hsuite => h.tags suite (hsuites suite hsuite)
  cases := fun case hcase => h.cases case (hcases case hcase)

theorem Readable.congr (h : Readable db) (hsuites : db'.suites = db.suites)
    (hcases : db'.cases = db.cases) : Readable db' :=
  h.of_subset (fun _ hs => hsuites ▸ hs) (fun _ hc => hcases ▸ hc)

theorem Readable.insertSuite (h : Readable db) (data : SuiteCreate) (ownerId : Uuid) :
    Readable (SuiteService.insertSuite db data ownerId) where
  tags := by
    intro suite hsuite
    rcases List.mem_append.mp hsuite with hold | hnew
    · exact h.tags suite hold
    · rw [List.mem_singleton.mp hnew]
      rfl
  cases := by
    intro case hcase
    obtain ⟨new, hrows, hnew⟩ := SuiteService.insertSuite_cases db data ownerId
    rw [hrows] at hcase
    rcases List.mem_append.mp hcase with hold | hfresh
    · exact h.cases case hold
    · obtain ⟨data, id, rfl⟩ := hnew case hfresh
      exact renderCase_buildCase ..

theorem Readable.insertCase (h : Readable db) (data : TestCaseCreate) :
    Readable (SuiteService.insertCase db suiteId data) where
  tags := h.tags
  cases := by
    intro case hcase
    rcases List.mem_append.mp hcase with hold | hnew
    · exact h.cases case hold
    · rw [List.mem_singleton.mp hnew]
      exact renderCase_buildCase suiteId data db.cases.next

/-- A request under the guard keeps every suite readable. -/
theorem Readable.handle (h : Readable db) {commits enqueues : Bool} {request : Request}
    (hkeeps : KeepsRequired db userId request) :
    Readable (handle db userId commits enqueues request).1 := by
  have hpatch : ∀ suiteId data, request = .write (.updateSuite suiteId data) →
      Readable (Api.handle db userId true enqueues request).1 := by
    rintro suiteId data rfl
    rcases patch_cases db userId suiteId data enqueues with
      ⟨e, heq, -⟩ | ⟨user, suite, huser, hmutable, ⟨-, heq⟩ | ⟨suite', hsome, heq⟩⟩
    · rw [heq]
      exact h
    · rw [heq]
      exact h
    · rw [heq]
      have hold := h.tags suite (Table.get?_mem (SuiteService.mutable_get hmutable))
      have htags : suite'.tags ≠ none := fun hnone =>
        hkeeps user suite huser hmutable
          (Or.inr (Or.inr (Or.inl (((patched_of_patch hsome).tags_none_iff hold).mp hnone))))
      exact h.setSuite (Option.isSome_iff_ne_none.mpr htags)
  have heffect := handle_effect db userId commits enqueues request
  generalize hdb : (Api.handle db userId commits enqueues request).1 = db' at heffect ⊢
  generalize (Api.handle db userId commits enqueues request).2.1 = called at heffect
  cases heffect with
  | nothing => exact h
  | createRun => exact h.congr rfl rfl
  | @write user write _ huser hcommits hwrite =>
    cases hwrite with
    | nothing => exact h
    | createSuite data => exact h.insertSuite data user.id
    | updateSuite suiteId data =>
      rw [← hdb, hcommits]
      exact hpatch suiteId data rfl
    | deleteSuite =>
      exact h.of_subset (fun _ hs => (List.mem_filter.mp hs).1) (fun _ hc => (List.mem_filter.mp hc).1)
    | addCase suiteId data => exact h.insertCase data
    | cancelRun => exact h.congr rfl rfl
    | review => exact h.congr rfl rfl

end

/-- A request of an account, a registration, or a worker's execution of a run. -/
inductive Traffic
  | request (userId : Uuid) (request : Request) (commits enqueues : Bool)
  | register (data : UserCreate)
  | execute (runId : Uuid) (env : Env)

section
variable [Unicode]

def Traffic.next (hashPassword : String → String) (w : World) : Traffic → Option World
  | .request userId req commits enqueues =>
    some { w with db := (handle w.db userId commits enqueues req).1 }
  | .register data =>
    match Api.register hashPassword w.db data with
    | .error _ => some w
    | .ok (_, db) => some { w with db := db }
  | .execute runId env => some (Workers.executeRun env runId w).1

omit [Unicode] in
/-- No patch sets a required field of a suite it may change to null. -/
def Traffic.Sound (w : World) : Traffic → Prop
  | .request userId req _ _ => KeepsRequired w.db userId req
  | .register _ => True
  | .execute _ _ => True

theorem Readable.executeRun {w : World} (env : Env) (runId : Uuid) (h : Readable w.db) :
    Readable (Workers.executeRun env runId w).1.db := by
  refine executeRun_keeps env runId w ?_ h
  intro db phase db' phase' hstep _ hdb
  cases hstep <;> exact hdb.congr rfl rfl

theorem Readable.next {hashPassword : String → String} {w w' : World} {l : Traffic}
    (h : Readable w.db) (hsound : l.Sound w) (hnext : Traffic.next hashPassword w l = some w') :
    Readable w'.db := by
  cases l with
  | request userId request commits enqueues =>
    obtain rfl := Option.some.inj hnext
    exact h.handle hsound
  | register data =>
    simp only [Traffic.next] at hnext
    split at hnext
    · obtain rfl := Option.some.inj hnext
      exact h
    · next user db hregister =>
      obtain rfl := Option.some.inj hnext
      obtain ⟨-, -, rfl⟩ := register_ok hregister
      exact h.congr rfl rfl
  | execute runId env =>
    obtain rfl := Option.some.inj hnext
    exact h.executeRun env runId

/-- In every run whose patches set no required field to null, every suite stays readable: no read
fails on what is stored, and a PATCH is honest exactly when it meets the condition. -/
theorem stored_data_readable {hashPassword : String → String} {w₀ w : World} {ls : List Traffic}
    (h₀ : Readable w₀.db)
    (hrun : Run (Under (fun w l => l.Sound w) (ofNext (Traffic.next hashPassword))) w₀ ls w) :
    Readable w.db ∧
      (∀ userId commits enqueues read,
        (handle w.db userId commits enqueues (.read read)).2.2 ≠ .internalError) ∧
      ∀ userId suiteId data enqueues,
        PatchHonest w.db suiteId data
            (handle w.db userId true enqueues (.write (.updateSuite suiteId data))).1
            (handle w.db userId true enqueues (.write (.updateSuite suiteId data))).2.2 ↔
          KeepsRequired w.db userId (.write (.updateSuite suiteId data)) := by
  have hw : Readable w.db :=
    hrun.invariant (I := fun w => Readable w.db) (fun _ _ _ hs hst => hs.next hst.1 hst.2) h₀
  refine ⟨hw, ?_, fun userId suiteId data enqueues => patch_honest_iff hw userId suiteId data enqueues⟩
  intro userId commits enqueues read
  unfold handle
  cases currentUser w.db userId with
  | error e => exact Response.noConfusion
  | ok user => exact hw.handleRead_ne read

end

theorem loginDb_readable : Readable loginDb := ⟨by decide, by decide⟩

/-- New tags for the login suite are stored and read back. -/
theorem login_readable :
    Readable (handle loginDb 0 true true
      (.write (.updateSuite 0 { tags := some (some ["smoke"]) }))).1 := by
  let _ : Unicode := asciiUnicode
  have hsound : Traffic.Sound loginWorld
      (.request 0 (.write (.updateSuite 0 { tags := some (some ["smoke"]) })) true true) := by
    intro user suite _ _
    simp [NullsRequired]
  exact (@stored_data_readable asciiUnicode id _ _ _ loginDb_readable
    (Run.single ⟨hsound, rfl⟩)).1

/-- Ada sets the tags of her suite to null: the row changes, she is told of an internal error,
and the list of suites fails from then on. A null for the name is refused by the database. -/
theorem null_tags_counterexample :
    let sent := handle loginDb 0 true true (.write (.updateSuite 0 { tags := some none }))
    (¬ PatchHonest loginDb 0 { tags := some none } sent.1 sent.2.2 ∧ ¬ Readable sent.1 ∧
      (handle sent.1 0 true true (.read (.listSuites {}))).2.2 = .internalError ∧
      (handle sent.1 0 true true (.read (.getSuite 0))).2.2 = .internalError) ∧
    (handle loginDb 0 true true (.write (.updateSuite 0 { name := some none }))).2.2 =
      .failed .integrityError := by
  intro sent
  have hresponse : sent.2.2 = .internalError := rfl
  refine ⟨⟨?_, ?_, rfl, rfl⟩, rfl⟩
  · rw [hresponse]
    rintro (⟨old, new, cases, -, -, -, h, -⟩ | ⟨e, h, -⟩)
    · cases h
    · cases h
  · intro h
    exact absurd (h.tags { loginSuite with tags := none } (by decide)) (by decide)

end AegisPlatform.Api
