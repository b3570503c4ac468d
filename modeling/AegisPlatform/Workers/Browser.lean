import AegisPlatform.Healing.Dom
import AegisPlatform.Domain.Schemas

/-! # The simulated browser

`SimulatedStepExecutor` of `workers/executor.py`: which locators drift, and the page a case is
run against.
-/

namespace AegisPlatform.Workers
open Foundations Domain Healing
set_option autoImplicit false
set_option maxHeartbeats 250000

def stableAttrs : List String := ["name", "aria-label", "placeholder", "role", "type"]

-- `_TAG_FOR_ACTION.get(action, "div")`
def tagForAction : StepAction → String
  | .click => "button"
  | .fill => "input"
  | .assertText => "span"
  | .assertVisible => "div"
  | .navigate | .wait => "div"

def isStable (hints : SelectorHints) : Bool :=
  if truthy hints.elementId then false
  else if truthy hints.testId || !hints.classes.isEmpty then true
  else stableAttrs.any fun attr => truthy (hints.attributes.lookup attr)

structure StepOutcome where
  drifted : Bool
  clean : Bool
  durationMs : ℤ
deriving DecidableEq

/-- The steps that touch no element: no selector, or an action that needs none. -/
def untargeted (step : StepSpec) : Bool :=
  step.selector.isNone || step.action == .navigate || step.action == .wait

section
variable [Unicode]

def renderNode (index : ℕ) (step : StepSpec) : Option String :=
  if untargeted step then none
  else
    let hints := parseSelector (step.selector.getD "")
    let testid := (pyOr hints.testId (some ("tid-" ++ toString index))).getD ""
    let tag := tagForAction step.action
    let text := (pyOr (pyOr step.expected step.value) (some "")).getD ""
    let classes := " ".intercalate (sortedStrings hints.classes)
    let classAttr := if classes = "" then "" else " class=\"" ++ classes ++ "\""
    some ("<" ++ tag ++ " data-testid=\"" ++ testid ++ "\"" ++ classAttr ++ ">" ++ text ++
      "</" ++ tag ++ ">")

def buildPage (steps : List StepSpec) : String :=
  "<html><body><main>" ++
    String.join (steps.zipIdx.filterMap fun (step, index) => renderNode index step) ++
    "</main></body></html>"

def runStep (step : StepSpec) (index : ℕ) : StepOutcome :=
  let duration : ℤ := 15 + (index % 5 : ℕ) * 7
  if untargeted step then ⟨false, true, duration⟩
  else if isStable (parseSelector (step.selector.getD "")) then ⟨false, true, duration⟩
  else ⟨true, false, duration⟩

/-- A step drifts if it touches an element by an unstable locator. -/
theorem runStep_drifted (step : StepSpec) (index : ℕ) : (runStep step index).drifted = true ↔
    untargeted step = false ∧ isStable (parseSelector (step.selector.getD "")) = false := by
  unfold runStep
  dsimp only
  cases huntargeted : untargeted step with
  | true => simp
  | false =>
    cases hstable : isStable (parseSelector (step.selector.getD "")) with
    | true => simp
    | false => simp

/-- A step either drifts or passes cleanly. -/
theorem runStep_clean (step : StepSpec) (index : ℕ) :
    (runStep step index).clean = !(runStep step index).drifted := by
  unfold runStep
  dsimp only
  split
  · rfl
  · split <;> rfl

end

end AegisPlatform.Workers
