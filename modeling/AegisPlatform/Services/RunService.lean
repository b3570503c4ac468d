import AegisPlatform.Core.Exceptions
import AegisPlatform.Db.Models

/-! # The run service

`services/run_service.py`: creation with an idempotency key, reading and cancelling. A method
takes the database as the request's session sees it and returns what it would commit.

`create` looks the key up before it loads the suite or asks who is calling, and compares the run
it finds with nothing. `replay_honest_iff` says for which databases that is harmless.
-/

namespace AegisPlatform.Services
open Foundations Domain Core Db
set_option autoImplicit false
set_option maxHeartbeats 250000

def suiteNotFound : Failure := .aegis (AegisError.init .notFound "Test suite not found.")

def notOwner : Failure := .aegis (AegisError.init .forbidden "You do not own this suite." "not_owner")

namespace RunService

def runNotFound : Failure := .aegis (AegisError.init .notFound "Test run not found.")

def notCreator : Failure :=
  .aegis (AegisError.init .forbidden "You can only cancel runs you created." "not_owner")

/-! ## Creation -/

/-- The run a replayed key designates; an empty key counts as none. -/
def replayed (db : Database) (idempotencyKey : Option String) : Option TestRun :=
  if truthy idempotencyKey then idempotencyKey.bind db.getByIdempotencyKey else none

/-- The suite, for an actor who may run it. -/
def runnable (db : Database) (suiteId : Uuid) (actor : User) :
    Except Failure (TestSuite × List TestCase) :=
  match db.getWithCases suiteId with
  | none => .error suiteNotFound
  | some (suite, cases) =>
    if actor.role ≠ .admin ∧ suite.ownerId ≠ actor.id then .error notOwner
    else .ok (suite, cases)

def newRun (suite : TestSuite) (cases : List TestCase) (data : RunCreate) (actor : User)
    (idempotencyKey : Option String) (id : Uuid) : TestRun :=
  { id := id
    suiteId := suite.id
    trigger := data.trigger
    createdById := some actor.id
    idempotencyKey := idempotencyKey
    totalCases := cases.length
    status := .queued }

@[simp] theorem id_newRun (suite : TestSuite) (cases : List TestCase) (data : RunCreate)
    (actor : User) (idempotencyKey : Option String) (id : Uuid) :
    (newRun suite cases data actor idempotencyKey id).id = id := rfl

def insertRun (db : Database) (suite : TestSuite) (cases : List TestCase) (data : RunCreate)
    (actor : User) (idempotencyKey : Option String) : Database :=
  { db with
    runs := db.runs.insert (newRun suite cases data actor idempotencyKey) fun _ => id_newRun .. }

/-- `(run, created)`, with the database to commit. -/
def create (db : Database) (suiteId : Uuid) (data : RunCreate) (actor : User)
    (idempotencyKey : Option String) : Except Failure ((TestRun × Bool) × Database) :=
  match replayed db idempotencyKey with
  | some existing => .ok ((existing, false), db)
  | none =>
    match runnable db suiteId actor with
    | .error e => .error e
    | .ok (suite, cases) =>
      .ok ((newRun suite cases data actor idempotencyKey db.runs.next, true),
        insertRun db suite cases data actor idempotencyKey)

/-! ## Reading and cancelling -/

def get (db : Database) (runId : Uuid) : Except Failure TestRun :=
  match db.runs.get? runId with
  | none => .error runNotFound
  | some run => .ok run

/-- The run, for an actor who may cancel it. -/
def cancellable (db : Database) (runId : Uuid) (actor : User) : Except Failure TestRun :=
  match get db runId with
  | .error e => .error e
  | .ok run =>
    if actor.role ≠ .admin ∧ run.createdById ≠ some actor.id then .error notCreator else .ok run

def cancelled (run : TestRun) : TestRun := { run with status := .cancelled }

-- the row was read in the same transaction, so the update matches it
def cancel (db : Database) (runId : Uuid) (actor : User) : Except Failure (TestRun × Database) :=
  match cancellable db runId actor with
  | .error e => .error e
  | .ok run =>
    if run.status.isTerminal then .ok (run, db)
    else .ok (cancelled run, db.setRun run (cancelled run))

/-! ## What the methods do to the database -/

variable {db db' : Database} {suiteId runId : Uuid} {data : RunCreate} {actor : User}
  {key : Option String} {run : TestRun} {created : Bool}

theorem runnable_ok {suite : TestSuite} {cases : List TestCase}
    (h : runnable db suiteId actor = .ok (suite, cases)) :
    db.getWithCases suiteId = some (suite, cases) ∧
      (actor.role = .admin ∨ suite.ownerId = actor.id) := by
  unfold runnable at h
  split at h
  · cases h
  · next suite' cases' hget =>
    split at h
    · cases h
    · next hallowed =>
      obtain ⟨rfl, rfl⟩ := Prod.mk.inj (Except.ok.inj h)
      refine ⟨hget, ?_⟩
      by_cases hadmin : actor.role = .admin
      · exact Or.inl hadmin
      · exact Or.inr (not_not.mp fun howner => hallowed ⟨hadmin, howner⟩)

/-- Everything a successful creation can do. -/
theorem create_ok (h : create db suiteId data actor key = .ok ((run, created), db')) :
    (created = false ∧ db' = db ∧ replayed db key = some run) ∨
      (created = true ∧ replayed db key = none ∧ ∃ suite cases,
        runnable db suiteId actor = .ok (suite, cases) ∧
        run = newRun suite cases data actor key db.runs.next ∧
        db' = insertRun db suite cases data actor key) := by
  unfold create at h
  split at h
  · next existing hreplay =>
    obtain ⟨hpair, rfl⟩ := Prod.mk.inj (Except.ok.inj h)
    obtain ⟨rfl, rfl⟩ := Prod.mk.inj hpair
    exact Or.inl ⟨rfl, rfl, hreplay⟩
  · next hreplay =>
    split at h
    · cases h
    · next suite cases hrunnable =>
      obtain ⟨hpair, rfl⟩ := Prod.mk.inj (Except.ok.inj h)
      obtain ⟨rfl, rfl⟩ := Prod.mk.inj hpair
      exact Or.inr ⟨rfl, hreplay, suite, cases, hrunnable, rfl, rfl⟩

theorem runnable_suite {suite : TestSuite} {cases : List TestCase}
    (h : runnable db suiteId actor = .ok (suite, cases)) :
    db.suites.get? suite.id = some suite ∧ (actor.role = .admin ∨ suite.ownerId = actor.id) := by
  obtain ⟨hget, hallowed⟩ := runnable_ok h
  have hrow := (Database.getWithCases_some hget).1
  rw [Table.get?_key hrow]
  exact ⟨hrow, hallowed⟩

theorem cancellable_ok (h : cancellable db runId actor = .ok run) :
    db.runs.get? runId = some run ∧ (actor.role = .admin ∨ run.createdById = some actor.id) := by
  unfold cancellable get at h
  cases hget : db.runs.get? runId with
  | none => simp [hget] at h
  | some row =>
    simp only [hget] at h
    split at h
    · cases h
    · next hallowed =>
      obtain rfl := Except.ok.inj h
      refine ⟨rfl, ?_⟩
      by_cases hadmin : actor.role = .admin
      · exact Or.inl hadmin
      · exact Or.inr (not_not.mp fun hcreator => hallowed ⟨hadmin, hcreator⟩)

/-- Everything a successful cancellation can do. -/
theorem cancel_ok (h : cancel db runId actor = .ok (run, db')) :
    ∃ row, cancellable db runId actor = .ok row ∧
      ((row.status.isTerminal = true ∧ db' = db) ∨
        (row.status.isTerminal = false ∧ db' = db.setRun row (cancelled row))) := by
  unfold cancel at h
  cases hrow : cancellable db runId actor with
  | error e => simp [hrow] at h
  | ok row =>
    simp only [hrow] at h
    split at h
    · next hterminal =>
      obtain ⟨-, rfl⟩ := Prod.mk.inj (Except.ok.inj h)
      exact ⟨row, rfl, Or.inl ⟨hterminal, rfl⟩⟩
    · next hlive =>
      obtain ⟨-, rfl⟩ := Prod.mk.inj (Except.ok.inj h)
      exact ⟨row, rfl, Or.inr ⟨by simpa using hlive, rfl⟩⟩

/-! ## Replayed keys -/

theorem replayed_some (h : replayed db key = some run) :
    truthy key = true ∧ run ∈ db.runs.rows ∧ run.idempotencyKey = key ∧ key.isSome := by
  unfold replayed at h
  split at h
  · next htruthy =>
    cases key with
    | none => cases h
    | some k =>
      have hk := List.find?_some h
      exact ⟨htruthy, List.mem_of_find?_eq_some h, by simpa using hk, rfl⟩
  · cases h

/-- The run was created by the same request. -/
def SameRequest (suiteId : Uuid) (data : RunCreate) (actor : User) (run : TestRun) : Prop :=
  run.suiteId = suiteId ∧ run.createdById = some actor.id ∧ run.trigger = data.trigger

/-- A replay returns the run of the same request, and a key of another request is refused. -/
structure HonestReplay (db : Database) (suiteId : Uuid) (data : RunCreate) (actor : User)
    (key : Option String) : Prop where
  same : ∀ run db', create db suiteId data actor key = .ok ((run, false), db') →
    SameRequest suiteId data actor run
  refused : ∀ k, key = some k →
    (∃ run ∈ db.runs.rows, run.idempotencyKey = some k ∧ ¬ SameRequest suiteId data actor run) →
      ∃ e : AegisError, e.cls = .idempotencyConflict ∧
        create db suiteId data actor key = .error (.aegis e)

/-- No path of `create` raises an `IdempotencyConflictError`. -/
theorem create_ne_conflict (e : AegisError) (he : e.cls = .idempotencyConflict) :
    create db suiteId data actor key ≠ .error (.aegis e) := by
  intro h
  unfold create at h
  split at h
  · cases h
  · split at h
    · next e' hrunnable =>
      obtain rfl := Except.error.inj h
      unfold runnable at hrunnable
      split at hrunnable
      · obtain rfl := Failure.aegis.inj (Except.error.inj hrunnable)
        cases he
      · split at hrunnable
        · obtain rfl := Failure.aegis.inj (Except.error.inj hrunnable)
          cases he
        · cases hrunnable
    · cases h

theorem replay_honest_iff (db : Database) (suiteId : Uuid) (data : RunCreate) (actor : User)
    (key : Option String) :
    HonestReplay db suiteId data actor key ↔
      ∀ k, key = some k → ∀ run ∈ db.runs.rows, run.idempotencyKey = some k →
        SameRequest suiteId data actor run := by
  constructor
  · intro h k hk run hrun hkey
    by_contra hother
    obtain ⟨e, he, hcreate⟩ := h.refused k hk ⟨run, hrun, hkey, hother⟩
    exact create_ne_conflict e he hcreate
  · intro h
    constructor
    · intro run db' hcreate
      rcases create_ok hcreate with ⟨-, -, hreplay⟩ | ⟨hcreated, -⟩
      · obtain ⟨-, hrun, hkey, hsome⟩ := replayed_some hreplay
        obtain ⟨k, hk⟩ := Option.isSome_iff_exists.mp hsome
        exact h k hk run hrun (hkey.trans hk)
      · cases hcreated
    · rintro k hk ⟨run, hrun, hkey, hother⟩
      exact absurd (h k hk run hrun hkey) hother

def bob : User := { id := 1, email := "bob@example.com", hashedPassword := "y", fullName := "Bob" }

/-- Ada triggers the suite with a key; Bob replays it on a suite that is not there and is handed
Ada's run. -/
theorem key_of_another_user :
    ∃ run db', create loginDb 0 {} ada (some "demo-run-001") = .ok ((run, true), db') ∧
      create db' 7 { trigger := .ci } bob (some "demo-run-001") = .ok ((run, false), db') ∧
      ¬ HonestReplay db' 7 { trigger := .ci } bob (some "demo-run-001") := by
  refine ⟨_, _, rfl, rfl, fun h => ?_⟩
  exact absurd (h.same _ _ rfl).2.1 (by decide)

end RunService

end AegisPlatform.Services
