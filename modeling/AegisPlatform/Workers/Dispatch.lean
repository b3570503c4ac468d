import AegisPlatform.Domain.Schemas
import AegisPlatform.Foundations.UuidForm

/-! # The dispatcher over Redis

`ArqDispatcher.enqueue`, one `await` at a time, and the job it leaves in Redis. The connections are
made by the first call; calls that come before it is through make their own. A call may raise at
either `await`, and one that lost the answer of Redis does not know whether its job is stored.

The worker's task reads the run id back from the text it was sent as.
-/

namespace AegisPlatform.Workers
open Foundations Domain
set_option autoImplicit false
set_option maxHeartbeats 250000

/-- What `enqueue_job` stores: a task by name, and its argument. -/
structure Job where
  function : String
  runId : String
deriving DecidableEq

def jobOf (runId : Uuid) : Job where
  function := "execute_run_task"
  runId := UuidForm.str runId

/-- `execute_run_task`, the only function of `WorkerSettings`: the run it executes. -/
def Job.run? (job : Job) : Option Uuid :=
  if job.function = "execute_run_task" then UuidForm.parse job.runId else none

theorem run?_jobOf {runId : Uuid} (h : runId < 2 ^ 128) : (jobOf runId).run? = some runId := by
  unfold Job.run? jobOf
  rw [if_pos rfl, UuidForm.parse_str h]

/-- Redis answers, or it does not; the command may have reached it all the same. -/
inductive Link
  | up
  | down (executed : Bool)

structure ArqDispatcher where
  /-- `_pool`, of the pools that were created. -/
  pool : Option ℕ := none
  created : ℕ := 0

inductive EnqueuePhase
  | called
  | connecting
  | sending (pool : ℕ)
  | returned
  | raised (stored : Bool)

/-- A call of `enqueue`. -/
structure EnqueueCall where
  runId : Uuid
  phase : EnqueuePhase := .called

/-- The job of the call is in Redis. -/
def EnqueueCall.stored (call : EnqueueCall) : Bool :=
  match call.phase with
  | .called | .connecting | .sending _ => false
  | .returned => true
  | .raised stored => stored

/-- The call up to its next `await`, with the job it stored. -/
def EnqueueCall.next (call : EnqueueCall) (dispatcher : ArqDispatcher) (link : Link) :
    ArqDispatcher × EnqueueCall × Option Job :=
  match call.phase with
  | .called =>
    match dispatcher.pool with
    | none => (dispatcher, { call with phase := .connecting }, none)
    | some pool => (dispatcher, { call with phase := .sending pool }, none)
  | .connecting =>
    match link with
    | .up =>
      let pool := dispatcher.created
      ({ pool := some pool, created := pool + 1 }, { call with phase := .sending pool }, none)
    | .down _ => (dispatcher, { call with phase := .raised false }, none)
  | .sending _ =>
    match link with
    | .up => (dispatcher, { call with phase := .returned }, some (jobOf call.runId))
    | .down executed =>
      (dispatcher, { call with phase := .raised executed },
        if executed then some (jobOf call.runId) else none)
  | .returned | .raised _ => (dispatcher, call, none)

/-- One step of a call stores nothing, or its job, which was not stored before. -/
theorem enqueue_next (call : EnqueueCall) (dispatcher : ArqDispatcher) (link : Link) :
    (call.next dispatcher link).2.1.runId = call.runId ∧
      ((call.next dispatcher link).2.2 = none ∧
          (call.next dispatcher link).2.1.stored = call.stored ∨
        (call.next dispatcher link).2.2 = some (jobOf call.runId) ∧ call.stored = false ∧
          (call.next dispatcher link).2.1.stored = true) := by
  obtain ⟨runId, phase⟩ := call
  unfold EnqueueCall.next EnqueueCall.stored
  cases phase with
  | called =>
    cases dispatcher.pool with
    | none => exact ⟨rfl, Or.inl ⟨rfl, rfl⟩⟩
    | some pool => exact ⟨rfl, Or.inl ⟨rfl, rfl⟩⟩
  | connecting =>
    cases link with
    | up => exact ⟨rfl, Or.inl ⟨rfl, rfl⟩⟩
    | down executed => exact ⟨rfl, Or.inl ⟨rfl, rfl⟩⟩
  | sending pool =>
    cases link with
    | up => exact ⟨rfl, Or.inr ⟨rfl, rfl, rfl⟩⟩
    | down executed =>
      cases executed with
      | true => exact ⟨rfl, Or.inr ⟨rfl, rfl, rfl⟩⟩
      | false => exact ⟨rfl, Or.inl ⟨rfl, rfl⟩⟩
  | returned => exact ⟨rfl, Or.inl ⟨rfl, rfl⟩⟩
  | raised stored => exact ⟨rfl, Or.inl ⟨rfl, rfl⟩⟩

end AegisPlatform.Workers
