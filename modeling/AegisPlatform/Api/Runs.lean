import AegisPlatform.Api.Deps
import AegisPlatform.Foundations.Runs
import AegisPlatform.Services.RunService

/-! # The trigger endpoint

`trigger_run` of `api/v1/runs.py`. The commit of the new row and the hand-over to the dispatcher
are two effects, and either may fail: `commits` and `enqueues` say whether they work this time.

`TriggerPhase` cuts the handler at its database accesses, for requests that run side by side;
`triggerRun_phases` puts the pieces together again. A row is invisible to other sessions until it
is committed.
-/

namespace AegisPlatform.Api
open Foundations Domain Core Db Services
set_option autoImplicit false
set_option maxHeartbeats 250000

structure TriggerRequest where
  suiteId : Uuid
  data : RunCreate := {}
  userId : Uuid
  idempotencyKey : Option String := none

/-- What the client gets: 202 with a run, a domain error, or a 500. -/
inductive Answer
  | accepted (run : TestRun)
  | refused (failure : Failure)
  | internalError

/-- The database committed, the run `enqueue` is called with, and the answer. -/
def triggerRun (db : Database) (request : TriggerRequest) (commits enqueues : Bool) :
    Database × Option Uuid × Answer :=
  match engineer db request.userId with
  | .error e => (db, none, .refused e)
  | .ok user =>
    match RunService.create db request.suiteId request.data user request.idempotencyKey with
    | .error e => (db, none, .refused e)
    | .ok ((run, created), db') =>
      if commits then
        if created then (db', some run.id, if enqueues then .accepted run else .internalError)
        else (db', none, .accepted run)
      else (db, none, .internalError)

/-! ## One access at a time -/

inductive TriggerPhase
  | received
  | authorised (user : User)
  | found (run : TestRun)
  | missed (user : User)
  | inserted (user : User) (suite : TestSuite) (cases : List TestCase)
  | committed (run : TestRun)
  | answered (answer : Answer)

/-- One access; `works` tells whether a commit or the dispatcher does its part. -/
def TriggerPhase.next (request : TriggerRequest) (works : Bool) (db : Database) :
    TriggerPhase → Database × TriggerPhase
  | .received =>
    match engineer db request.userId with
    | .error e => (db, .answered (.refused e))
    | .ok user => (db, .authorised user)
  | .authorised user =>
    match RunService.replayed db request.idempotencyKey with
    | some run => (db, .found run)
    | none => (db, .missed user)
  | .found run => (db, .answered (if works then .accepted run else .internalError))
  | .missed user =>
    match RunService.runnable db request.suiteId user with
    | .error e => (db, .answered (.refused e))
    | .ok (suite, cases) => (db, .inserted user suite cases)
  | .inserted user suite cases =>
    if works then
      (RunService.insertRun db suite cases request.data user request.idempotencyKey,
        .committed (RunService.newRun suite cases request.data user request.idempotencyKey
          db.runs.next))
    else (db, .answered .internalError)
  | .committed run => (db, .answered (if works then .accepted run else .internalError))
  | .answered answer => (db, .answered answer)

/-- Without interruption, the accesses are `trigger_run`. -/
theorem triggerRun_phases (db : Database) (request : TriggerRequest) :
    ∃ n, ((fun s : Database × TriggerPhase => s.2.next request true s.1)^[n] (db, .received)) =
      ((triggerRun db request true true).1,
        .answered (triggerRun db request true true).2.2) := by
  unfold triggerRun RunService.create
  cases huser : engineer db request.userId with
  | error e => exact ⟨1, by simp [TriggerPhase.next, huser]⟩
  | ok user =>
    cases hreplay : RunService.replayed db request.idempotencyKey with
    | some run => exact ⟨3, by simp [TriggerPhase.next, huser, hreplay]⟩
    | none =>
      cases hrunnable : RunService.runnable db request.suiteId user with
      | error e => exact ⟨3, by simp [TriggerPhase.next, huser, hreplay, hrunnable]⟩
      | ok found => exact ⟨5, by simp [TriggerPhase.next, huser, hreplay, hrunnable]⟩

/-! ## Everything a trigger can do -/

inductive Triggered (db : Database) (request : TriggerRequest) (commits enqueues : Bool) :
    Database × Option Uuid × Answer → Prop
  | fails (answer : Answer) (h : ∀ run, answer ≠ .accepted run) :
      Triggered db request commits enqueues (db, none, answer)
  | replays {user : User} {run : TestRun} (huser : engineer db request.userId = .ok user)
      (hreplay : RunService.replayed db request.idempotencyKey = some run)
      (hcommits : commits = true) :
      Triggered db request commits enqueues (db, none, .accepted run)
  | creates {user : User} {suite : TestSuite} {cases : List TestCase}
      (huser : engineer db request.userId = .ok user)
      (hmiss : RunService.replayed db request.idempotencyKey = none)
      (hrunnable : RunService.runnable db request.suiteId user = .ok (suite, cases))
      (hcommits : commits = true) :
      Triggered db request commits enqueues
        (RunService.insertRun db suite cases request.data user request.idempotencyKey,
          some db.runs.next,
          if enqueues then .accepted (RunService.newRun suite cases request.data user
            request.idempotencyKey db.runs.next)
          else .internalError)

theorem triggerRun_triggered (db : Database) (request : TriggerRequest)
    (commits enqueues : Bool) :
    Triggered db request commits enqueues (triggerRun db request commits enqueues) := by
  unfold triggerRun
  cases huser : engineer db request.userId with
  | error e => exact Triggered.fails (.refused e) fun run => Answer.noConfusion
  | ok user =>
    cases hcreate : RunService.create db request.suiteId request.data user
        request.idempotencyKey with
    | error e =>
      simp only [hcreate]
      exact Triggered.fails (.refused e) fun run => Answer.noConfusion
    | ok result =>
      obtain ⟨⟨run, created⟩, db'⟩ := result
      simp only [hcreate]
      cases commits with
      | false => exact Triggered.fails .internalError fun run => Answer.noConfusion
      | true =>
        rcases RunService.create_ok hcreate with
          ⟨rfl, rfl, hreplay⟩ | ⟨rfl, hmiss, suite, cases, hrunnable, rfl, rfl⟩
        · exact Triggered.replays huser hreplay rfl
        · exact Triggered.creates huser hmiss hrunnable rfl

/-- Everything one access of a trigger can do. -/
inductive TriggerStep (request : TriggerRequest) (works : Bool) (db : Database) :
    TriggerPhase → Database → TriggerPhase → Prop
  | refuse (phase : TriggerPhase) (answer : Answer) (h : ∀ run, answer ≠ .accepted run) :
      TriggerStep request works db phase db (.answered answer)
  | authorise {user : User} (huser : engineer db request.userId = .ok user) :
      TriggerStep request works db .received db (.authorised user)
  | find {run : TestRun} (user : User)
      (hreplay : RunService.replayed db request.idempotencyKey = some run) :
      TriggerStep request works db (.authorised user) db (.found run)
  | miss (user : User) (hmiss : RunService.replayed db request.idempotencyKey = none) :
      TriggerStep request works db (.authorised user) db (.missed user)
  | replay (run : TestRun) :
      TriggerStep request works db (.found run) db (.answered (.accepted run))
  | insert {user : User} {suite : TestSuite} {cases : List TestCase}
      (hrunnable : RunService.runnable db request.suiteId user = .ok (suite, cases)) :
      TriggerStep request works db (.missed user) db (.inserted user suite cases)
  | commit (user : User) (suite : TestSuite) (cases : List TestCase) :
      TriggerStep request works db (.inserted user suite cases)
        (RunService.insertRun db suite cases request.data user request.idempotencyKey)
        (.committed (RunService.newRun suite cases request.data user request.idempotencyKey
          db.runs.next))
  | enqueue (run : TestRun) :
      TriggerStep request works db (.committed run) db (.answered (.accepted run))
  | done (answer : Answer) : TriggerStep request works db (.answered answer) db (.answered answer)

theorem trigger_step (request : TriggerRequest) (works : Bool) (db : Database)
    (phase : TriggerPhase) :
    TriggerStep request works db phase (phase.next request works db).1
      (phase.next request works db).2 := by
  cases phase with
  | received =>
    unfold TriggerPhase.next
    cases huser : engineer db request.userId with
    | error e => exact TriggerStep.refuse _ (.refused e) fun run => Answer.noConfusion
    | ok user => exact TriggerStep.authorise huser
  | authorised user =>
    unfold TriggerPhase.next
    cases hreplay : RunService.replayed db request.idempotencyKey with
    | some run => exact TriggerStep.find user hreplay
    | none => exact TriggerStep.miss user hreplay
  | found run =>
    cases works with
    | true => exact TriggerStep.replay run
    | false => exact TriggerStep.refuse _ .internalError fun run => Answer.noConfusion
  | missed user =>
    unfold TriggerPhase.next
    cases hrunnable : RunService.runnable db request.suiteId user with
    | error e =>
      simp only [hrunnable]
      exact TriggerStep.refuse _ (.refused e) fun run => Answer.noConfusion
    | ok found =>
      simp only [hrunnable]
      exact TriggerStep.insert hrunnable
  | inserted user suite cases =>
    cases works with
    | true => exact TriggerStep.commit user suite cases
    | false => exact TriggerStep.refuse _ .internalError fun run => Answer.noConfusion
  | committed run =>
    cases works with
    | true => exact TriggerStep.enqueue run
    | false => exact TriggerStep.refuse _ .internalError fun run => Answer.noConfusion
  | answered answer => exact TriggerStep.done answer

end AegisPlatform.Api
