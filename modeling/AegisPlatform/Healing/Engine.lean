import AegisPlatform.Core.Resilience
import AegisPlatform.Healing.Strategies

/-! # The self-healing engine

`healing/engine.py`: the heuristic first, and the LLM only where the heuristic is not confident
enough. An LLM carries a state from one proposal to the next; `NullHealingLLM` has none to speak of
and never proposes anything. The Prometheus counters are left out.
-/

namespace AegisPlatform.Healing
open Foundations Domain Core
set_option autoImplicit false
set_option maxHeartbeats 250000

/-- The protocol `HealingLLM`. -/
structure HealingLLM (σ : Type) where
  propose : String → String → Option String → σ → Outcome String (Option HealingProposal) × σ

def NullHealingLLM {σ : Type} : HealingLLM σ where
  propose := fun _ _ _ s => (.returned none, s)

structure SelfHealingEngine where
  sim : Similarity
  findAll : HtmlParser
  minConfidence : ℚ

/-- `_combine`. -/
def combine (heuristic : HealingProposal) : Option HealingProposal → HealingProposal
  | none => heuristic
  | some llm =>
    if llm.healedSelector = none then heuristic
    else if heuristic.healedSelector = none then llm
    else if heuristic.healedSelector = llm.healedSelector then
      { healedSelector := llm.healedSelector
        strategy := .hybrid
        confidence := min 1 (max heuristic.confidence llm.confidence + 1 / 10)
        rationale := "Heuristic and LLM agreed on the locator. " ++ llm.rationale
        confidence_nonneg := le_min zero_le_one
          (add_nonneg (le_max_of_le_left heuristic.confidence_nonneg) (by norm_num))
        confidence_le_one := min_le_left _ _ }
    else if llm.confidence ≥ heuristic.confidence then llm
    else heuristic

/-- The combination is healed where the heuristic is, and at least as confident. -/
theorem combine_no_worse (heuristic : HealingProposal) (llm : Option HealingProposal)
    (h : heuristic.healedSelector.isSome) :
    (combine heuristic llm).healedSelector.isSome ∧
      heuristic.confidence ≤ (combine heuristic llm).confidence := by
  have hne : heuristic.healedSelector ≠ none := Option.isSome_iff_ne_none.mp h
  cases llm with
  | none => exact ⟨h, le_refl _⟩
  | some llm =>
    unfold combine
    dsimp only
    by_cases hllm : llm.healedSelector = none
    · rw [if_pos hllm]
      exact ⟨h, le_refl _⟩
    · rw [if_neg hllm, if_neg hne]
      by_cases hsame : heuristic.healedSelector = llm.healedSelector
      · rw [if_pos hsame]
        refine ⟨Option.isSome_iff_ne_none.mpr hllm, ?_⟩
        have hmax := le_max_left heuristic.confidence llm.confidence
        refine le_min heuristic.confidence_le_one ?_
        linarith
      · rw [if_neg hsame]
        split
        · next hmore => exact ⟨Option.isSome_iff_ne_none.mpr hllm, hmore⟩
        · exact ⟨h, le_refl _⟩

section
variable [Unicode] {σ : Type}

def SelfHealingEngine.heal (engine : SelfHealingEngine) (llm : HealingLLM σ)
    (originalSelector html : String) (context : Option String) (s : σ) :
    Outcome String HealingProposal × σ :=
  match propose engine.sim engine.findAll originalSelector html context with
  | .error message => (.raised message, s)
  | .ok heuristic =>
    if heuristic.confidence ≥ engine.minConfidence then (.returned heuristic, s)
    else
      match llm.propose originalSelector html context s with
      | (.returned proposal, s) => (.returned (combine heuristic proposal), s)
      | (.raised message, s) => (.raised message, s)
      | (.cancelled, s) => (.cancelled, s)

/-- Without an LLM the engine is its heuristic. -/
theorem heal_null (engine : SelfHealingEngine) (originalSelector html : String)
    (context : Option String) (s : σ) :
    engine.heal NullHealingLLM originalSelector html context s =
      match propose engine.sim engine.findAll originalSelector html context with
      | .error message => (.raised message, s)
      | .ok heuristic => (.returned heuristic, s) := by
  unfold SelfHealingEngine.heal
  cases propose engine.sim engine.findAll originalSelector html context with
  | error message => rfl
  | ok heuristic =>
    dsimp only
    split
    · rfl
    · rfl

end

end AegisPlatform.Healing
