import AegisPlatform.Healing.Signals
import AegisPlatform.Workers.HeuristicRuns

/-! # Healing by the text of the step

`build_page` renders the text of a step into its node, and the executor passes the same text to the
healer. That heals the step only if some node of the page still shares a signal with it: an `input`
has no text for the parser, a text is cut to 160 characters before it is compared, and a text the
selector carries itself takes the place of the step's.
-/

namespace AegisPlatform.Workers
open Foundations Domain Core Db Healing
set_option autoImplicit false
set_option maxHeartbeats 250000

/-! ## Pages with clean texts -/

/-- The node with its test-id as the parser reads it out of the attribute. -/
def Node.read (decode : String → String) (n : Node) : Node := { n with testId := decode n.testId }

section
variable [Unicode]

def CleanTexts (steps : List StepSpec) : Prop := ∀ n ∈ nodes steps, CleanText n.text

instance (steps : List StepSpec) : Decidable (CleanTexts steps) :=
  inferInstanceAs (Decidable (∀ n ∈ nodes steps, CleanText n.text))

/-- `RecoversPage` for a page whose test-ids may hold character references. -/
def RecoversTexts (decode : String → String) (findAll : HtmlParser) (steps : List StepSpec) : Prop :=
  ∃ frame, (∀ tag ∈ frame, IsFrame tag) ∧
    findAll (buildPage steps) =
      .ok (frame ++ (nodes steps).map fun n => (n.read decode).parsed)

theorem parseDom_texts {decode : String → String} {findAll : HtmlParser} {steps : List StepSpec}
    (h : RecoversTexts decode findAll steps) :
    parseDom findAll (buildPage steps) =
      .ok ((nodes steps).map fun n => (n.read decode).element) := by
  obtain ⟨frame, hframe, hparse⟩ := h
  have hlower : ∀ n ∈ (nodes steps).map (Node.read decode), lower n.tag = n.tag := by
    intro n hn
    obtain ⟨m, hm, rfl⟩ := List.mem_map.mp hn
    exact lower_node (n := m) hm
  have hread := parseDom_nodes hframe hlower (hparse.trans (by rw [List.map_map]; rfl))
  rw [hread, List.map_map]
  rfl

/-! ## Steps with a text -/

/-- The text of the step, which its node is rendered with. -/
def Task.text (t : Task) : String := (pyOr (pyOr t.step.expected t.step.value) (some "")).getD ""

/-- A node of the step's page shares a signal with what the healer looks for. -/
def SharesOnPage (decode : String → String) (sim : Similarity) (t : Task) : Prop :=
  ∃ n ∈ nodes (validSteps t.case), Shares t.hints (n.read decode).element sim

variable {decode : String → String} {engine : SelfHealingEngine} {env : Env} {runId : Uuid}
  {t : Task} {position : ℕ} {cases : List TestCase}

theorem record_healed_iff (ho : HeuristicOnly engine env) (ht : t ∈ tasks position cases)
    (hdrift : t.drifted = true)
    (hpage : RecoversTexts decode engine.findAll (validSteps t.case)) :
    ∃ r, record env runId t = .ok r ∧
      (r.result.status = .healed ↔ SharesOnPage decode engine.sim t) := by
  have hparse := parseDom_texts hpage
  rw [← (mem_tasks ht).2.1] at hparse
  refine ⟨_, record_heuristic ho hdrift hparse, ?_⟩
  have hhealed := proposeFrom_isSome_iff engine.sim t.hints
    ((nodes (validSteps t.case)).map fun n => (n.read decode).element)
  rw [(result_healedRecord env runId t _).1]
  have hstatus : ∀ b : Bool, (if b = true then StepStatus.healed else .failed) = .healed ↔
      b = true := by
    intro b
    cases b with
    | true => exact ⟨fun _ => rfl, fun _ => rfl⟩
    | false => exact ⟨fun h => (nomatch h), fun h => (nomatch h)⟩
  rw [hstatus, hhealed]
  constructor
  · rintro ⟨e, he, hpos⟩
    obtain ⟨n, hn, rfl⟩ := List.mem_map.mp he
    exact ⟨n, hn, (score_pos_iff t.hints _ engine.sim (plain_element _)).mp hpos⟩
  · rintro ⟨n, hn, hshares⟩
    exact ⟨_, List.mem_map_of_mem hn,
      (score_pos_iff t.hints _ engine.sim (plain_element _)).mpr hshares⟩

/-- For every suite, each drifted step with a text in a case whose rendered texts are clean ends
HEALED iff a node of its page shares a signal with it. -/
theorem text_healed_iff {w : World} {run : TestRun} {suite : TestSuite}
    (hfound : Found w runId run suite cases) (haccepting : Accepting env)
    (ho : HeuristicOnly engine env)
    (hvalid : ∀ case ∈ cases, ∀ s ∈ case.steps, (StepSpec.modelValidate s).isSome)
    (hparses : ∀ case ∈ cases, ∃ elements,
      parseDom engine.findAll (buildPage (validSteps case)) = .ok elements)
    (hparser : ∀ case ∈ cases, CleanTexts (validSteps case) →
      RecoversTexts decode engine.findAll (validSteps case)) :
    ∃ run' rs, Recorded runId w (executeRun env runId w).1 run' rs ∧
      List.Forall₂ (fun t r => record env runId t = .ok r ∧
        (t.drifted = true → CleanTexts (validSteps t.case) → strip t.text.toList ≠ [] →
          (r.result.status = .healed ↔ SharesOnPage decode engine.sim t))) (tasks 0 cases) rs := by
  refine executeRun_clean hfound haccepting ho hvalid hparses ?_
  intro t ht hdrift hclean
  obtain ⟨r, hr, hhealed⟩ := record_healed_iff ho ht hdrift
    (hparser t.case (mem_tasks ht).1 hclean)
  exact ⟨r, hr, fun _ => hhealed⟩

/-! ## The step's own node -/

omit [Unicode] in
theorem context_of_text (h : t.text ≠ "") : pyOr t.step.expected t.step.value = some t.text := by
  unfold Task.text at h ⊢
  cases hcontext : pyOr t.step.expected t.step.value with
  | none =>
    rw [hcontext] at h
    exact absurd rfl h
  | some s =>
    rw [hcontext] at h
    by_cases hs : s = ""
    · rw [hs] at h
      exact absurd rfl h
    · simp [pyOr, hs]

theorem hints_text (h : t.text ≠ "") (hown : truthy (parseSelector t.selector).text = false) :
    t.hints.text = some t.text := by
  have htruthy : truthy (some t.text) = true := by simp [truthy, h]
  unfold Task.hints hintsFor
  dsimp only
  rw [context_of_text h, htruthy, hown]
  rfl

/-- A step that does not fill, whose selector carries no text of its own and whose text is trimmed
and short enough not to be cut, shares that text with its own node. -/
theorem own_text_shares {sim : Similarity} (hself : ∀ s, sim.ratio s s = 1)
    (ht : t ∈ tasks position cases) (hdrift : t.drifted = true) (hfill : t.step.action ≠ .fill)
    (hown : truthy (parseSelector t.selector).text = false) (hne : t.text ≠ "")
    (htrimmed : strip t.text.toList = t.text.toList) (hlength : t.text.length ≤ 160) :
    SharesOnPage decode sim t := by
  obtain ⟨own, hmem, hnode⟩ := own_nodeOf ht hdrift
  obtain ⟨-, htag, -, -, htext⟩ := nodeOf_some hnode
  have hinput : own.tag ≠ "input" := by
    rw [htag]
    cases haction : t.step.action with
    | fill => exact absurd haction hfill
    | click | navigate | assertText | assertVisible | wait => decide
  have helement : (own.read decode).element.text = t.text := by
    have hparsed : (own.read decode).parsed.text = t.text := by
      change (if own.tag = "input" then "" else String.ofList (strip own.text.toList)) = t.text
      rw [if_neg hinput, htext]
      change String.ofList (strip t.text.toList) = t.text
      rw [htrimmed, String.ofList_toList]
    change String.ofList ((own.read decode).parsed.text.toList.take 160) = t.text
    rw [hparsed, List.take_of_length_le hlength, String.ofList_toList]
  refine ⟨own, hmem, Or.inr (Or.inl ⟨t.text, hints_text hne hown, hne, ?_, ?_⟩)⟩
  · rwa [helement]
  · rw [helement, hself]
    norm_num

end

/-! ## A form -/

/-- A field is filled and a button is clicked. -/
def formSteps : List StepSpec :=
  [{ action := .fill, selector := some "#username", value := some "ada" },
    { action := .click, selector := some "#submit", expected := some "Sign in" }]

def fillTask [Unicode] : Task :=
  ⟨0, stepsCase formSteps, buildPage formSteps, 0,
    { action := .fill, selector := some "#username", value := some "ada" }⟩

theorem recoversTexts_id [Unicode] {findAll : HtmlParser} {steps : List StepSpec}
    (h : RecoversPage findAll steps) : RecoversTexts id findAll steps := h

/-- The button is healed by its text, the field is not. -/
theorem fill_fails :
    let _ : Unicode := asciiUnicode
    fillTask ∈ tasks 0 [stepsCase formSteps] ∧ fillTask.drifted = true ∧
      strip fillTask.text.toList ≠ [] ∧ CleanTexts formSteps ∧
      RecoversTexts id (pageParser formSteps) formSteps ∧
      healedSelectors formSteps = [(.failed, none), (.healed, some "[data-testid=\"tid-1\"]")] := by
  intro _
  refine ⟨?_, ?_, ?_, ?_, recoversTexts_id (recovers_pageParser formSteps), ?_⟩
  · rw [tasks_stepsCase]
    exact List.mem_cons_self
  · decide +kernel
  · decide +kernel
  · decide +kernel
  · decide +kernel

theorem form_healed_iff :
    let _ : Unicode := asciiUnicode
    ∃ run' rs, Recorded 0 (stepsWorld formSteps)
        (executeRun (heuristicEnv (pageEngine formSteps)) 0 (stepsWorld formSteps)).1 run' rs ∧
      List.Forall₂ (fun t r => record (heuristicEnv (pageEngine formSteps)) 0 t = .ok r ∧
        (t.drifted = true → CleanTexts (validSteps t.case) → strip t.text.toList ≠ [] →
          (r.result.status = .healed ↔ SharesOnPage id (pageEngine formSteps).sim t)))
        (tasks 0 [stepsCase formSteps]) rs := by
  intro _
  refine text_healed_iff (stepsWorld_found formSteps)
    (accepting_heuristicEnv (pageEngine formSteps))
    (heuristicOnly_heuristicEnv (pageEngine formSteps)) (valid_stepsCase formSteps)
    (parses_stepsCase formSteps) ?_
  intro case hcase _
  rw [List.mem_singleton.mp hcase, validSteps_stepsCase]
  exact recoversTexts_id (recovers_pageParser formSteps)

end AegisPlatform.Workers
