import AegisPlatform.Core.Security
import AegisPlatform.Foundations.JsonText
import AegisPlatform.Workers.Executor

/-! # Live messages

`_publish` of `workers/executor.py`: the channel of a run, the text of an event, and what a client
reads in it. Channels of different runs differ, and no two events share a text.
-/

namespace AegisPlatform.Workers
open Foundations Foundations.JsonText Domain Core
set_option autoImplicit false
set_option maxHeartbeats 250000

/-- `f"run:{run_id}"` -/
def runChannel (uuid : UuidText) (runId : Uuid) : String := "run:" ++ uuid.str runId

theorem runChannel_injective (uuid : UuidText) : Function.Injective (runChannel uuid) := by
  intro a b h
  have hlist : "run:".toList ++ (uuid.str a).toList = "run:".toList ++ (uuid.str b).toList := by
    rw [← String.toList_append, ← String.toList_append]
    exact congrArg String.toList h
  have htext : uuid.str a = uuid.str b := String.toList_inj.mp (List.append_cancel_left hlist)
  have hparse := uuid.parse_str a
  rw [htext, uuid.parse_str] at hparse
  exact (Option.some.inj hparse).symm

def optionalText : Option String → Scalar
  | none => .null
  | some s => .str s

def optionalInt : Option ℤ → Scalar
  | none => .null
  | some z => .int z

/-- `{"event": event, **payload}` -/
def RunEvent.payload (uuid : UuidText) : RunEvent → Object
  | .started runId suite =>
    [("event", .str "run.started"), ("run_id", .str (uuid.str runId)), ("suite", .str suite)]
  | .stepCompleted case stepIndex status healedSelector =>
    [("event", .str "step.completed"), ("case", .str case), ("step_index", .int stepIndex),
      ("status", .str status.value), ("healed_selector", optionalText healedSelector)]
  | .finished status passed failed healed durationMs =>
    [("event", .str "run.finished"), ("status", .str status.value), ("passed", .int passed),
      ("failed", .int failed), ("healed", .int healed), ("duration_ms", optionalInt durationMs)]

def RunEvent.message (uuid : UuidText) (event : RunEvent) : String := dumps (event.payload uuid)

/-! ## What a client reads -/

def textAt (object : Object) (key : String) : Option String :=
  match object.lookup key with
  | some (.str s) => some s
  | _ => none

def intAt (object : Object) (key : String) : Option ℤ :=
  match object.lookup key with
  | some (.int z) => some z
  | _ => none

def optionalTextAt (object : Object) (key : String) : Option (Option String) :=
  match object.lookup key with
  | some .null => some none
  | some (.str s) => some (some s)
  | _ => none

def optionalIntAt (object : Object) (key : String) : Option (Option ℤ) :=
  match object.lookup key with
  | some .null => some none
  | some (.int z) => some (some z)
  | _ => none

def RunEvent.ofPayload (uuid : UuidText) (object : Object) : Option RunEvent :=
  match textAt object "event" with
  | some "run.started" => do
    let runId ← (textAt object "run_id").bind uuid.parse
    let suite ← textAt object "suite"
    return .started runId suite
  | some "step.completed" => do
    let case ← textAt object "case"
    let stepIndex ← intAt object "step_index"
    let status ← (textAt object "status").bind StepStatus.ofValue
    let healedSelector ← optionalTextAt object "healed_selector"
    return .stepCompleted case stepIndex.toNat status healedSelector
  | some "run.finished" => do
    let status ← (textAt object "status").bind RunStatus.ofValue
    let passed ← intAt object "passed"
    let failed ← intAt object "failed"
    let healed ← intAt object "healed"
    let durationMs ← optionalIntAt object "duration_ms"
    return .finished status passed.toNat failed.toNat healed.toNat durationMs
  | _ => none

def readEvent (uuid : UuidText) (text : String) : Option RunEvent :=
  (loads text).bind (RunEvent.ofPayload uuid)

theorem ofPayload_payload (uuid : UuidText) (event : RunEvent) :
    RunEvent.ofPayload uuid (event.payload uuid) = some event := by
  cases event with
  | started runId suite =>
    simp [RunEvent.ofPayload, RunEvent.payload, textAt, List.lookup_cons, uuid.parse_str]
  | stepCompleted case stepIndex status healedSelector =>
    cases healedSelector with
    | none =>
      simp [RunEvent.ofPayload, RunEvent.payload, textAt, intAt, optionalTextAt, optionalText,
        List.lookup_cons, StepStatus.ofValue_value]
    | some s =>
      simp [RunEvent.ofPayload, RunEvent.payload, textAt, intAt, optionalTextAt, optionalText,
        List.lookup_cons, StepStatus.ofValue_value]
  | finished status passed failed healed durationMs =>
    cases durationMs with
    | none =>
      simp [RunEvent.ofPayload, RunEvent.payload, textAt, intAt, optionalIntAt, optionalInt,
        List.lookup_cons, RunStatus.ofValue_value]
    | some z =>
      simp [RunEvent.ofPayload, RunEvent.payload, textAt, intAt, optionalIntAt, optionalInt,
        List.lookup_cons, RunStatus.ofValue_value]

theorem readEvent_message (uuid : UuidText) (event : RunEvent) :
    readEvent uuid (event.message uuid) = some event := by
  unfold readEvent RunEvent.message
  rw [loads_dumps]
  exact ofPayload_payload uuid event

theorem filterMap_readEvent (uuid : UuidText) (events : List RunEvent) :
    (events.map (RunEvent.message uuid)).filterMap (readEvent uuid) = events := by
  induction events with
  | nil => rfl
  | cons event events ih =>
    rw [List.map_cons, List.filterMap_cons, readEvent_message]
    simp only [ih]

end AegisPlatform.Workers
