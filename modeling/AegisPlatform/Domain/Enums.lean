import Mathlib.Logic.Basic

/-! # Domain enumerations

`domain/enums.py`. `value` is the member's string, the form sent on the wire.
-/

namespace AegisPlatform.Domain
set_option autoImplicit false
set_option maxHeartbeats 250000

inductive UserRole
  | admin | engineer | viewer
deriving DecidableEq, Repr

def UserRole.value : UserRole → String
  | .admin => "admin"
  | .engineer => "engineer"
  | .viewer => "viewer"

inductive RunStatus
  | queued | running | passed | failed | error | cancelled
deriving DecidableEq, Repr

def RunStatus.isTerminal : RunStatus → Bool
  | .passed | .failed | .error | .cancelled => true
  | .queued | .running => false

def RunStatus.value : RunStatus → String
  | .queued => "queued"
  | .running => "running"
  | .passed => "passed"
  | .failed => "failed"
  | .error => "error"
  | .cancelled => "cancelled"

def RunStatus.all : List RunStatus := [.queued, .running, .passed, .failed, .error, .cancelled]

/-- `RunStatus(value)`. -/
def RunStatus.ofValue (value : String) : Option RunStatus :=
  RunStatus.all.find? fun status => status.value == value

theorem RunStatus.ofValue_value (status : RunStatus) :
    RunStatus.ofValue status.value = some status := by
  cases status <;> decide

inductive RunTrigger
  | manual | scheduled | ci | webhook
deriving DecidableEq, Repr

inductive StepAction
  | navigate | click | fill | assertText | assertVisible | wait
deriving DecidableEq, Repr

def StepAction.value : StepAction → String
  | .navigate => "navigate"
  | .click => "click"
  | .fill => "fill"
  | .assertText => "assert_text"
  | .assertVisible => "assert_visible"
  | .wait => "wait"

def StepAction.all : List StepAction :=
  [.navigate, .click, .fill, .assertText, .assertVisible, .wait]

/-- `StepAction(value)`. -/
def StepAction.ofValue (value : String) : Option StepAction :=
  StepAction.all.find? fun action => action.value == value

theorem StepAction.ofValue_value (action : StepAction) :
    StepAction.ofValue action.value = some action := by
  cases action <;> decide

inductive StepStatus
  | passed | failed | healed | skipped
deriving DecidableEq, Repr

def StepStatus.value : StepStatus → String
  | .passed => "passed"
  | .failed => "failed"
  | .healed => "healed"
  | .skipped => "skipped"

def StepStatus.all : List StepStatus := [.passed, .failed, .healed, .skipped]

/-- `StepStatus(value)`. -/
def StepStatus.ofValue (value : String) : Option StepStatus :=
  StepStatus.all.find? fun status => status.value == value

theorem StepStatus.ofValue_value (status : StepStatus) :
    StepStatus.ofValue status.value = some status := by
  cases status <;> decide

inductive HealingStrategy
  | none | heuristic | llm | hybrid
deriving DecidableEq, Repr

def HealingStrategy.value : HealingStrategy → String
  | .none => "none"
  | .heuristic => "heuristic"
  | .llm => "llm"
  | .hybrid => "hybrid"

end AegisPlatform.Domain
