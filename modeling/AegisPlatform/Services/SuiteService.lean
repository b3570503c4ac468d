import AegisPlatform.Services.RunService

/-! # The suite service

`services/suite_service.py`. Only the owner of a suite or an admin may change it. A patch assigns
the fields the request sets; an explicit null in a column that is NOT NULL is refused by the
database, while a null in the JSON column `tags` is stored.
-/

namespace AegisPlatform.Services
open Foundations Domain Core Db
set_option autoImplicit false
set_option maxHeartbeats 250000

def assertCanMutate (suite : TestSuite) (actor : User) : Except Failure Unit :=
  if actor.role ≠ .admin ∧ suite.ownerId ≠ actor.id then .error notOwner else .ok ()

namespace SuiteService

def slugTaken (slug : String) : Failure :=
  .aegis (AegisError.init .conflict ("Slug '" ++ slug ++ "' is already taken.") "slug_taken")

def buildCase (suiteId : Uuid) (data : TestCaseCreate) (id : Uuid) : TestCase :=
  { id := id
    suiteId := suiteId
    name := data.name
    orderIndex := data.orderIndex
    steps := data.steps.map StepSpec.modelDump }

@[simp] theorem id_buildCase (suiteId : Uuid) (data : TestCaseCreate) (id : Uuid) :
    (buildCase suiteId data id).id = id := rfl

def newSuite (data : SuiteCreate) (ownerId id : Uuid) : TestSuite :=
  { id := id
    name := data.name
    slug := data.slug
    description := data.description
    targetBaseUrl := data.targetBaseUrl
    tags := some data.tags
    ownerId := ownerId }

@[simp] theorem id_newSuite (data : SuiteCreate) (ownerId id : Uuid) :
    (newSuite data ownerId id).id = id := rfl

def insertSuite (db : Database) (data : SuiteCreate) (ownerId : Uuid) : Database :=
  { db with
    suites := db.suites.insert (newSuite data ownerId) fun _ => id_newSuite ..
    cases := db.cases.insertAll (fun n case => { case with id := n }) (fun _ _ => rfl)
      (data.cases.map fun case => buildCase db.suites.next case 0) }

def create (db : Database) (data : SuiteCreate) (ownerId : Uuid) :
    Except Failure (TestSuite × Database) :=
  match db.getBySlug data.slug with
  | some _ => .error (slugTaken data.slug)
  | none => .ok (newSuite data ownerId db.suites.next, insertSuite db data ownerId)

def get (db : Database) (suiteId : Uuid) : Except Failure (TestSuite × List TestCase) :=
  match db.getWithCases suiteId with
  | none => .error suiteNotFound
  | some found => .ok found

/-- The suite, for an actor who may change it. -/
def mutable (db : Database) (suiteId : Uuid) (actor : User) : Except Failure TestSuite :=
  match get db suiteId with
  | .error e => .error e
  | .ok (suite, _) =>
    match assertCanMutate suite actor with
    | .error e => .error e
    | .ok () => .ok suite

/-- A set field of a NOT NULL column; `none` is the database's refusal of a null. -/
def required {α : Type} (old : α) : Option (Option α) → Option α
  | none => some old
  | some none => none
  | some (some value) => some value

/-- A set field of a column that takes null. -/
def nullable {α : Type} (old : Option α) : Option (Option α) → Option α
  | none => old
  | some value => value

def patch (suite : TestSuite) (data : SuiteUpdate) : Option TestSuite := do
  let name ← required suite.name data.name
  let targetBaseUrl ← required suite.targetBaseUrl data.targetBaseUrl
  let isActive ← required suite.isActive data.isActive
  return { suite with
    name := name
    description := nullable suite.description data.description
    targetBaseUrl := targetBaseUrl
    tags := nullable suite.tags data.tags
    isActive := isActive }

def setSuite (db : Database) (suite : TestSuite) : Database :=
  { db with suites := db.suites.modify suite.id (fun stored => { suite with id := stored.id }) }

def update (db : Database) (suiteId : Uuid) (data : SuiteUpdate) (actor : User) :
    Except Failure (TestSuite × Database) :=
  match mutable db suiteId actor with
  | .error e => .error e
  | .ok suite =>
    match patch suite data with
    | none => .error .integrityError
    | some suite' => .ok (suite', setSuite db suite')

def delete (db : Database) (suiteId : Uuid) (actor : User) : Except Failure Database :=
  match mutable db suiteId actor with
  | .error e => .error e
  | .ok suite => .ok (db.deleteSuite suite.id)

def insertCase (db : Database) (suiteId : Uuid) (data : TestCaseCreate) : Database :=
  { db with cases := db.cases.insert (buildCase suiteId data) fun _ => id_buildCase .. }

def addCase (db : Database) (suiteId : Uuid) (data : TestCaseCreate) (actor : User) :
    Except Failure (TestCase × Database) :=
  match mutable db suiteId actor with
  | .error e => .error e
  | .ok suite => .ok (buildCase suite.id data db.cases.next, insertCase db suite.id data)

/-- A new suite brings cases of its own, behind those that exist. -/
theorem insertSuite_cases (db : Database) (data : SuiteCreate) (ownerId : Uuid) :
    ∃ new, (insertSuite db data ownerId).cases.rows = db.cases.rows ++ new ∧
      ∀ c ∈ new, ∃ case id, c = buildCase db.suites.next case id := by
  refine ⟨_, Table.rows_insertAll .., ?_⟩
  intro c hc
  obtain ⟨i, hi, rfl⟩ := List.mem_mapIdx.mp hc
  rw [List.getElem_map]
  exact ⟨_, _, rfl⟩

/-- They are the cases of no suite before it. -/
theorem filter_insertSuite_cases (data : SuiteCreate) (ownerId : Uuid) {db : Database}
    {suiteId : Uuid} (h : suiteId ≠ db.suites.next) :
    ((insertSuite db data ownerId).cases.rows.filter fun c => c.suiteId == suiteId) =
      db.cases.rows.filter fun c => c.suiteId == suiteId := by
  obtain ⟨new, hrows, hnew⟩ := insertSuite_cases db data ownerId
  have hnone : (new.filter fun c => c.suiteId == suiteId) = [] := by
    rw [List.filter_eq_nil_iff]
    intro c hc
    obtain ⟨case, id, rfl⟩ := hnew c hc
    simpa [buildCase] using Ne.symm h
  rw [hrows, List.filter_append, hnone, List.append_nil]

/-! ## Who may do it -/

variable {db : Database} {suiteId : Uuid} {actor : User} {suite : TestSuite}

theorem assertCanMutate_ok (h : assertCanMutate suite actor = .ok ()) :
    actor.role = .admin ∨ suite.ownerId = actor.id := by
  unfold assertCanMutate at h
  split at h
  · cases h
  · next hallowed =>
    by_cases hadmin : actor.role = .admin
    · exact Or.inl hadmin
    · exact Or.inr (not_not.mp fun howner => hallowed ⟨hadmin, howner⟩)

theorem mutable_found (h : mutable db suiteId actor = .ok suite) :
    db.suites.get? suiteId = some suite ∧ assertCanMutate suite actor = .ok () := by
  unfold mutable get at h
  cases hget : db.getWithCases suiteId with
  | none => simp [hget] at h
  | some found =>
    obtain ⟨row, cases⟩ := found
    simp only [hget] at h
    cases hassert : assertCanMutate row actor with
    | error e => simp [hassert] at h
    | ok u =>
      simp only [hassert, Except.ok.injEq] at h
      subst h
      exact ⟨(Database.getWithCases_some hget).1, hassert⟩

theorem mutable_get (h : mutable db suiteId actor = .ok suite) :
    db.suites.get? suiteId = some suite := (mutable_found h).1

theorem mutable_ok (h : mutable db suiteId actor = .ok suite) :
    db.suites.get? suite.id = some suite ∧ (actor.role = .admin ∨ suite.ownerId = actor.id) := by
  obtain ⟨hget, hassert⟩ := mutable_found h
  rw [Table.get?_key hget]
  exact ⟨hget, assertCanMutate_ok hassert⟩

/-- Whoever may not change a suite is told so by an error of the API. -/
theorem mutable_error {e : Failure} (h : mutable db suiteId actor = .error e) :
    ∃ a, e = .aegis a := by
  unfold mutable get at h
  cases hget : db.getWithCases suiteId with
  | none =>
    simp only [hget, Except.error.injEq] at h
    exact ⟨_, h.symm⟩
  | some found =>
    simp only [hget, assertCanMutate] at h
    split at h
    · next e' hassert =>
      split at hassert
      · obtain rfl := Except.error.inj h
        exact ⟨_, (Except.error.inj hassert).symm⟩
      · cases hassert
    · cases h

theorem create_ok {data : SuiteCreate} {ownerId : Uuid} {db' : Database}
    (h : create db data ownerId = .ok (suite, db')) :
    suite = newSuite data ownerId db.suites.next ∧ db' = insertSuite db data ownerId := by
  unfold create at h
  split at h
  · cases h
  · obtain ⟨rfl, rfl⟩ := Prod.mk.inj (Except.ok.inj h)
    exact ⟨rfl, rfl⟩

theorem update_ok {data : SuiteUpdate} {suite' : TestSuite} {db' : Database}
    (h : update db suiteId data actor = .ok (suite', db')) :
    ∃ suite, mutable db suiteId actor = .ok suite ∧ patch suite data = some suite' ∧
      db' = setSuite db suite' := by
  unfold update at h
  split at h
  · cases h
  · next suite hmutable =>
    split at h
    · cases h
    · next suite'' hpatch =>
      obtain ⟨rfl, rfl⟩ := Prod.mk.inj (Except.ok.inj h)
      exact ⟨suite, hmutable, hpatch, rfl⟩

theorem delete_ok {db' : Database} (h : delete db suiteId actor = .ok db') :
    ∃ suite, mutable db suiteId actor = .ok suite ∧ db' = db.deleteSuite suite.id := by
  unfold delete at h
  split at h
  · cases h
  · next suite hmutable => exact ⟨suite, hmutable, (Except.ok.inj h).symm⟩

theorem addCase_ok {data : TestCaseCreate} {case : TestCase} {db' : Database}
    (h : addCase db suiteId data actor = .ok (case, db')) :
    ∃ suite, mutable db suiteId actor = .ok suite ∧
      case = buildCase suite.id data db.cases.next ∧ db' = insertCase db suite.id data := by
  unfold addCase at h
  split at h
  · cases h
  · next suite hmutable =>
    obtain ⟨rfl, rfl⟩ := Prod.mk.inj (Except.ok.inj h)
    exact ⟨suite, hmutable, rfl, rfl⟩

/-- A patch leaves the identity and the owner of a suite alone. -/
theorem patch_some {suite' : TestSuite} {data : SuiteUpdate} (h : patch suite data = some suite') :
    suite'.id = suite.id ∧ suite'.ownerId = suite.ownerId ∧ suite'.slug = suite.slug := by
  unfold patch at h
  simp only [Option.bind_eq_bind, Option.bind_eq_some_iff, Option.pure_def,
    Option.some.injEq] at h
  obtain ⟨name, -, url, -, active, -, rfl⟩ := h
  exact ⟨rfl, rfl, rfl⟩

end SuiteService

end AegisPlatform.Services
