import AegisPlatform.Domain.Enums
import Mathlib.Algebra.Order.Field.Rat

/-! # Wire schemas

`domain/schemas.py`: the request bodies, the step of a test case and the healing proposal.
A `StepSpec` and a `HealingProposal` carry the bounds their fields are declared with, so a value
outside them cannot be built; `StepSpec.modelValidate` is the only way from stored JSON to a step.

A patch field has three forms: absent (`none`), explicitly null (`some none`) and a value.
-/

namespace AegisPlatform.Domain
set_option autoImplicit false
set_option maxHeartbeats 250000

abbrev Uuid := ℕ

inductive Json
  | null
  | bool (b : Bool)
  | num (q : ℚ)
  | str (s : String)
  | arr (items : List Json)
  | obj (fields : List (String × Json))

/-- `field: str | None = Field(default=None, max_length=max)`. -/
def optionalStr (max : ℕ) (fields : List (String × Json)) (key : String) :
    Option { s : Option String // ∀ t ∈ s, t.length ≤ max } :=
  match fields.lookup key with
  | none | some .null => some ⟨none, by simp⟩
  | some (.str t) => if h : t.length ≤ max then some ⟨some t, by simpa using h⟩ else none
  | some _ => none

/-- A text left out meets its bound. -/
theorem absent_length : ∀ t ∈ (none : Option String), t.length ≤ 4096 := by decide

structure StepSpec where
  action : StepAction
  selector : Option String := none
  value : Option String := none
  expected : Option String := none
  selector_length : ∀ t ∈ selector, t.length ≤ 1024 := by decide
  value_length : ∀ t ∈ value, t.length ≤ 4096 := by first | exact absent_length | decide
  expected_length : ∀ t ∈ expected, t.length ≤ 4096 := by first | exact absent_length | decide
deriving DecidableEq

/-- `StepSpec.model_validate`; `none` is a `ValidationError`. -/
def StepSpec.modelValidate : Json → Option StepSpec
  | .obj fields => do
    let action ← match fields.lookup "action" with
      | some (.str value) => StepAction.ofValue value
      | _ => none
    let selector ← optionalStr 1024 fields "selector"
    let value ← optionalStr 4096 fields "value"
    let expected ← optionalStr 4096 fields "expected"
    return ⟨action, selector.1, value.1, expected.1, selector.2, value.2, expected.2⟩
  | _ => none

def dumpStr : Option String → Json
  | none => .null
  | some s => .str s

/-- `step.model_dump(mode="json")`. -/
def StepSpec.modelDump (step : StepSpec) : Json :=
  .obj [("action", .str step.action.value), ("selector", dumpStr step.selector),
    ("value", dumpStr step.value), ("expected", dumpStr step.expected)]

theorem optionalStr_dump {max : ℕ} (fields : List (String × Json)) (key : String)
    {s : Option String} (hs : ∀ t ∈ s, t.length ≤ max)
    (h : fields.lookup key = some (dumpStr s)) : optionalStr max fields key = some ⟨s, hs⟩ := by
  cases s with
  | none => simp [optionalStr, h, dumpStr]
  | some t =>
    have ht : t.length ≤ max := hs t rfl
    simp [optionalStr, h, dumpStr, ht]

/-- What a request stores, the executor reads back. -/
theorem StepSpec.modelValidate_modelDump (step : StepSpec) :
    StepSpec.modelValidate step.modelDump = some step := by
  obtain ⟨action, selector, value, expected, hs, hv, he⟩ := step
  let fields : List (String × Json) := [("action", .str action.value),
    ("selector", dumpStr selector), ("value", dumpStr value), ("expected", dumpStr expected)]
  have h1 := optionalStr_dump fields "selector" hs (by simp [fields, List.lookup_cons])
  have h2 := optionalStr_dump fields "value" hv (by simp [fields, List.lookup_cons])
  have h3 := optionalStr_dump fields "expected" he (by simp [fields, List.lookup_cons])
  simp only [fields] at h1 h2 h3
  simp [modelDump, modelValidate, StepAction.ofValue_value, h1, h2, h3]

structure TestCaseCreate where
  name : String
  orderIndex : ℤ := 0
  steps : List StepSpec := []

structure SuiteCreate where
  name : String
  slug : String
  description : Option String := none
  targetBaseUrl : String
  tags : List String := []
  cases : List TestCaseCreate := []

structure SuiteUpdate where
  name : Option (Option String) := none
  description : Option (Option String) := none
  targetBaseUrl : Option (Option String) := none
  tags : Option (Option (List String)) := none
  isActive : Option (Option Bool) := none

structure UserCreate where
  email : String
  fullName : String
  password : String
  role : UserRole := .engineer

structure RunCreate where
  trigger : RunTrigger := .manual
deriving DecidableEq

structure HealingProposal where
  healedSelector : Option String
  strategy : HealingStrategy
  confidence : ℚ
  rationale : String
  confidence_nonneg : 0 ≤ confidence
  confidence_le_one : confidence ≤ 1

end AegisPlatform.Domain
