import AegisPlatform.Foundations.Selection
import AegisPlatform.Healing.Engine
import AegisPlatform.Workers.Records
import AegisPlatform.Workers.Rendering

/-! # Heuristic healing of a run

What an execution records for a drifted step when no LLM is configured. A task asks the healer with
the page of its case, so its proposal is the best node of that page, and its own node is among the
candidates.
-/

namespace AegisPlatform.Workers
open Foundations Domain Core Db Healing
set_option autoImplicit false
set_option maxHeartbeats 250000

/-- How the executor sees the end of `await engine.heal(…)`. -/
def answered : Outcome String HealingProposal → Except Raised HealingProposal
  | .returned proposal => .ok proposal
  | .raised message => .error (.exception message)
  | .cancelled => .error .cancelled

variable [Unicode]

/-- The execution is driven by `engine` with `NullHealingLLM`. -/
structure HeuristicOnly (engine : SelfHealingEngine) (env : Env) : Prop where
  heal : ∀ k call, env.heal k call = answered (engine.heal (NullHealingLLM : HealingLLM Unit)
    call.originalSelector call.html call.context ()).1
  minConfidence : env.minConfidence = engine.minConfidence

def Task.selector (t : Task) : String := t.step.selector.getD ""

/-- What the healer looks for: the hints of the selector, with the text of the step. -/
def Task.hints (t : Task) : SelectorHints :=
  hintsFor t.selector (pyOr t.step.expected t.step.value)

/-- The test-id under which `build_page` renders the step. -/
def Task.renderedId (t : Task) : String :=
  (pyOr (parseSelector t.selector).testId (some ("tid-" ++ toString t.index))).getD ""

/-! ## Tasks and their pages -/

omit [Unicode] in
theorem mem_tasksFrom {case : TestCase} {page : String} {position index : ℕ}
    {steps : List StepSpec} {t : Task} (h : t ∈ tasksFrom case page position index steps) :
    t.case = case ∧ t.page = page ∧ ∃ i, t.index = index + i ∧ steps[i]? = some t.step := by
  induction steps generalizing position index with
  | nil => exact absurd h List.not_mem_nil
  | cons step rest ih =>
    rcases List.mem_cons.mp h with rfl | hrest
    · exact ⟨rfl, rfl, 0, rfl, rfl⟩
    · obtain ⟨hcase, hpage, i, hindex, hget⟩ := ih hrest
      refine ⟨hcase, hpage, i + 1, ?_, hget⟩
      omega

theorem mem_tasks {position : ℕ} {cases : List TestCase} {t : Task}
    (h : t ∈ tasks position cases) :
    t.case ∈ cases ∧ t.page = buildPage (validSteps t.case) ∧
      (validSteps t.case)[t.index]? = some t.step := by
  induction cases generalizing position with
  | nil => exact absurd h List.not_mem_nil
  | cons case rest ih =>
    rcases List.mem_append.mp h with hcase | hrest
    · obtain ⟨rfl, hpage, i, hindex, hget⟩ := mem_tasksFrom hcase
      rw [Nat.zero_add] at hindex
      exact ⟨List.mem_cons_self, hpage, hindex ▸ hget⟩
    · obtain ⟨hmem, hpage, hget⟩ := ih hrest
      exact ⟨List.mem_cons_of_mem case hmem, hpage, hget⟩

theorem drifted_iff (t : Task) : t.drifted = true ↔
    untargeted t.step = false ∧ isStable (parseSelector t.selector) = false :=
  runStep_drifted t.step t.index

/-- A drifted step is rendered on its own page. -/
theorem own_nodeOf {position : ℕ} {cases : List TestCase} {t : Task}
    (h : t ∈ tasks position cases) (hdrift : t.drifted = true) :
    ∃ own ∈ nodes (validSteps t.case), nodeOf t.index t.step = some own := by
  obtain ⟨-, -, hget⟩ := mem_tasks h
  have htargeted := ((drifted_iff t).mp hdrift).1
  cases hnode : nodeOf t.index t.step with
  | none =>
    unfold nodeOf at hnode
    rw [htargeted] at hnode
    cases hnode
  | some own => exact ⟨own, mem_nodes.mpr ⟨t.index, t.step, hget, hnode⟩, rfl⟩

theorem own_node {position : ℕ} {cases : List TestCase} {t : Task}
    (h : t ∈ tasks position cases) (hdrift : t.drifted = true) :
    ∃ own ∈ nodes (validSteps t.case), own.tag = tagForAction t.step.action ∧
      own.testId = t.renderedId ∧
      own.classes = sortedStrings (parseSelector t.selector).classes := by
  obtain ⟨own, hown, hnode⟩ := own_nodeOf h hdrift
  obtain ⟨-, htag, htestId, hclasses, -⟩ := nodeOf_some hnode
  exact ⟨own, hown, htag, htestId, hclasses⟩

/-- The text of the step changes no hint but the text. -/
theorem hintsFor_cases (selector : String) (targetText : Option String) :
    hintsFor selector targetText = parseSelector selector ∨
      hintsFor selector targetText = { parseSelector selector with text := targetText } := by
  unfold hintsFor
  dsimp only
  split
  · exact Or.inr rfl
  · exact Or.inl rfl

theorem hints_eq (t : Task) :
    t.hints.testId = (parseSelector t.selector).testId ∧
      t.hints.classes = (parseSelector t.selector).classes := by
  unfold Task.hints
  rcases hintsFor_cases t.selector (pyOr t.step.expected t.step.value) with h | h
  · rw [h]
    exact ⟨rfl, rfl⟩
  · rw [h]
    generalize parseSelector t.selector = hints
    exact ⟨rfl, rfl⟩

/-! ## The record of a drifted step -/

section
variable {engine : SelfHealingEngine} {env : Env} {runId : Uuid} {t : Task}
  {elements : List DomElement}

theorem record_heuristic (ho : HeuristicOnly engine env) (hdrift : t.drifted = true)
    (hparse : parseDom engine.findAll t.page = .ok elements) :
    record env runId t =
      .ok (healedRecord env runId t (proposeFrom engine.sim t.hints elements)) := by
  have hpropose : propose engine.sim engine.findAll t.selector t.page
      (pyOr t.step.expected t.step.value) = .ok (proposeFrom engine.sim t.hints elements) := by
    unfold propose
    rw [hparse]
    rfl
  have hheal : env.heal t.position (healCall t.page t.step) =
      .ok (proposeFrom engine.sim t.hints elements) := by
    rw [ho.heal, heal_null]
    unfold Task.selector at hpropose
    simp only [healCall, hpropose, answered]
  exact record_ok_iff.mpr (Or.inl ⟨hdrift, _, hheal, rfl⟩)

theorem result_healedRecord (env : Env) (runId : Uuid) (t : Task) (proposal : HealingProposal) :
    (healedRecord env runId t proposal).result.status =
        (if proposal.healedSelector.isSome then .healed else .failed) ∧
      (healedRecord env runId t proposal).result.healedSelector = proposal.healedSelector := by
  unfold healedRecord
  cases h : proposal.healedSelector with
  | none => exact ⟨rfl, rfl⟩
  | some selector => exact ⟨rfl, rfl⟩

end

/-! ## Accepted by its test-id -/

/-- The event of a drifted step is accepted exactly by a test-id; then the step is healed to the
element with that test-id. A class is enough to be healed. -/
structure AcceptedByTestId (t : Task) (r : StepRecord) : Prop where
  event : ∃ e, r.event = some e ∧ e.healedSelector = r.result.healedSelector ∧
    (e.accepted = some true ↔
      ∃ testId, testId ≠ "" ∧ (parseSelector t.selector).testId = some testId)
  testId : ∀ testId, testId ≠ "" → (parseSelector t.selector).testId = some testId →
    r.result.status = .healed ∧
      r.result.healedSelector = some (attrSelector "data-testid" testId)
  classes : (parseSelector t.selector).classes ≠ [] → r.result.status = .healed

section
variable (sim : Similarity) {steps : List StepSpec} {hints : SelectorHints}

/-- With the asked test-id on the page, the proposal is the element that carries it. -/
theorem propose_exact {own : Node} (hown : own ∈ nodes steps) {testId : String}
    (hne : testId ≠ "") (hhints : hints.testId = some testId) (hid : own.testId = testId) :
    (proposeFrom sim hints ((nodes steps).map Node.element)).healedSelector =
        some (attrSelector "data-testid" testId) ∧
      60 / 100 ≤ (proposeFrom sim hints ((nodes steps).map Node.element)).confidence := by
  have hexact : ExactTestId hints own.element :=
    ⟨testId, hne, hhints, by rw [testId_element, hid]⟩
  have hmem : own.element ∈ (nodes steps).map Node.element := List.mem_map_of_mem hown
  have hscore := le_score_of_exact hints own.element sim (plain_element own) hexact
  rcases proposeFrom_cases sim hints ((nodes steps).map Node.element) with
    ⟨hzero, -⟩ | ⟨best, hbest, -, hselector, hconfidence⟩
  · have hle := hzero own.element hmem
    norm_num at hscore
    linarith
  · have hmax := hscore.trans (score_le_best hbest hmem)
    obtain ⟨n, -, rfl⟩ := List.mem_map.mp (List.argmax_mem hbest)
    have hbestExact : ExactTestId hints n.element := by
      by_contra hnot
      have hle := score_le_of_not_exact hints n.element sim (plain_element n) hnot
      linarith
    obtain ⟨found, -, hwanted, hfound⟩ := hbestExact
    have hfoundId : n.testId = testId := by
      rw [testId_element] at hfound
      rw [hhints] at hwanted
      rw [Option.some.inj hfound, Option.some.inj hwanted]
    constructor
    · rw [hselector, toSelector_element, hfoundId]
    · rw [hconfidence]
      have hscaled : ((60 : ℤ) : ℚ) / 100 ≤ (score hints n.element sim).score := by
        rw [Int.cast_ofNat]
        exact hmax
      have hround := le_round_percent hscaled
      rwa [Int.cast_ofNat] at hround

/-- Without it, every proposal stays below the threshold. -/
theorem propose_inexact (steps : List StepSpec)
    (h : ¬ ∃ testId, testId ≠ "" ∧ hints.testId = some testId) :
    (proposeFrom sim hints ((nodes steps).map Node.element)).confidence ≤ 50 / 100 := by
  rcases proposeFrom_cases sim hints ((nodes steps).map Node.element) with
    ⟨-, -, hzero⟩ | ⟨best, hbest, -, -, hconfidence⟩
  · rw [hzero]
    norm_num
  · obtain ⟨n, -, rfl⟩ := List.mem_map.mp (List.argmax_mem hbest)
    have hnot : ¬ ExactTestId hints n.element := by
      rintro ⟨testId, hne, hwanted, -⟩
      exact h ⟨testId, hne, hwanted⟩
    have hscaled : (score hints n.element sim).score ≤ ((50 : ℤ) : ℚ) / 100 := by
      rw [Int.cast_ofNat]
      exact score_le_of_not_exact hints n.element sim (plain_element n) hnot
    have hround := round_percent_le hscaled
    rw [hconfidence]
    rwa [Int.cast_ofNat] at hround

/-- A page with the very classes the selector asks for has something to propose. -/
theorem propose_classes {own : Node} (hown : own ∈ nodes steps) (hne : hints.classes ≠ [])
    (hclasses : own.classes = sortedStrings hints.classes) :
    (proposeFrom sim hints ((nodes steps).map Node.element)).healedSelector.isSome := by
  have hsame : own.element.classes.toFinset = hints.classes.toFinset := by
    ext c
    rw [List.mem_toFinset, List.mem_toFinset]
    show c ∈ own.classes ↔ _
    rw [hclasses, mem_sortedStrings]
  have hpos := score_pos_of_classes hints own.element sim (plain_element own) hsame hne
  rcases proposeFrom_cases sim hints ((nodes steps).map Node.element) with
    ⟨hzero, -⟩ | ⟨best, -, -, hselector, -⟩
  · exact absurd (hzero own.element (List.mem_map_of_mem hown)) (not_le.mpr hpos)
  · rw [hselector]
    rfl

end

section
variable {engine : SelfHealingEngine} {env : Env} {runId : Uuid} {t : Task} {position : ℕ}
  {cases : List TestCase}

/-- On a recovered page, a drifted step is recorded as its test-id says. -/
theorem record_acceptedByTestId (ho : HeuristicOnly engine env)
    (hmin : engine.minConfidence = 60 / 100) (ht : t ∈ tasks position cases)
    (hdrift : t.drifted = true) (hpage : RecoversPage engine.findAll (validSteps t.case)) :
    ∃ r, record env runId t = .ok r ∧ AcceptedByTestId t r := by
  have hparse := parseDom_page hpage
  rw [← (mem_tasks ht).2.1] at hparse
  obtain ⟨own, hown, -, hownId, hownClasses⟩ := own_node ht hdrift
  obtain ⟨htestId, hclasses⟩ := hints_eq t
  refine ⟨_, record_heuristic ho hdrift hparse, ?_⟩
  generalize hproposal : proposeFrom engine.sim t.hints ((nodes (validSteps t.case)).map
    Node.element) = proposal
  obtain ⟨hstatus, hselector⟩ := result_healedRecord env runId t proposal
  have hexact : ∀ testId, testId ≠ "" → (parseSelector t.selector).testId = some testId →
      proposal.healedSelector = some (attrSelector "data-testid" testId) ∧
        60 / 100 ≤ proposal.confidence := by
    intro testId hne hid
    have hrendered : own.testId = testId := by
      rw [hownId]
      unfold Task.renderedId
      simp [hid, pyOr, hne]
    have h := propose_exact engine.sim hown hne (htestId.trans hid) hrendered
    rwa [hproposal] at h
  constructor
  case event =>
    refine ⟨_, rfl, hselector.symm, ?_⟩
    have haccepted : (healingEvent env runId t proposal).accepted = some true ↔
        proposal.healedSelector.isSome ∧ 60 / 100 ≤ proposal.confidence := by
      simp [healingEvent, ho.minConfidence, hmin]
    constructor
    · intro h
      by_contra hnone
      rw [← htestId] at hnone
      have hbelow := propose_inexact engine.sim (validSteps t.case) hnone
      rw [hproposal] at hbelow
      have habove := (haccepted.mp h).2
      linarith
    · rintro ⟨testId, hne, hid⟩
      obtain ⟨hhealed, habove⟩ := hexact testId hne hid
      exact haccepted.mpr ⟨by rw [hhealed]; rfl, habove⟩
  case testId =>
    intro testId hne hid
    have hhealed := (hexact testId hne hid).1
    rw [hstatus, hselector, hhealed]
    exact ⟨rfl, rfl⟩
  case classes =>
    intro hne
    rw [← hclasses] at hne hownClasses
    have hhealed := propose_classes engine.sim hown hne hownClasses
    rw [hproposal] at hhealed
    rw [hstatus, if_pos hhealed]

end

/-! ## Purely structural selectors -/

/-- A step whose selector carries at most a tag, and which has no text either. -/
structure Task.Structural (t : Task) : Prop where
  targeted : untargeted t.step = false
  elementId : (parseSelector t.selector).elementId = none
  classes : (parseSelector t.selector).classes = []
  attributes : (parseSelector t.selector).attributes = []
  text : (parseSelector t.selector).text = none
  expected : truthy t.step.expected = false
  value : truthy t.step.value = false

/-- The step is recorded as FAILED, without a healed selector. -/
def Fails (r : StepRecord) : Prop :=
  r.result.status = .failed ∧ r.result.healedSelector = none

section
variable {engine : SelfHealingEngine} {env : Env} {runId : Uuid} {t : Task} {position : ℕ}
  {cases : List TestCase}

omit [Unicode] in
theorem truthy_pyOr {a b : Option String} (ha : truthy a = false) (hb : truthy b = false) :
    truthy (pyOr a b) = false := by
  cases a with
  | none => exact hb
  | some s =>
    have hempty : s = "" := by simpa [truthy] using ha
    simpa [pyOr, hempty] using hb

theorem Task.Structural.hints_eq (h : t.Structural) : t.hints = parseSelector t.selector := by
  have hfalsy := truthy_pyOr h.expected h.value
  unfold Task.hints hintsFor
  dsimp only
  rw [hfalsy]
  rfl

theorem Task.Structural.onlyTag (h : t.Structural) : OnlyTag t.hints := by
  rw [h.hints_eq]
  exact
    { elementId := h.elementId
      classes := h.classes
      attributes := h.attributes
      text := by
        rw [h.text]
        rfl }

theorem Task.Structural.drifted (h : t.Structural) : t.drifted = true := by
  refine (drifted_iff t).mpr ⟨h.targeted, ?_⟩
  have htestId : (parseSelector t.selector).testId = none := by
    unfold SelectorHints.testId
    rw [h.attributes]
    rfl
  unfold isStable
  rw [h.elementId, htestId, h.classes, h.attributes]
  rfl

/-- On a recovered page, the candidates have the tags of the steps that touch an element. -/
theorem tagMatches_page (hints : SelectorHints) (steps : List StepSpec) :
    (∀ e ∈ (nodes steps).map Node.element, ¬ TagMatches hints e) ↔
      ∀ step ∈ steps, untargeted step = false → hints.tag ≠ some (tagForAction step.action) := by
  constructor
  · intro h step hstep htargeted htag
    obtain ⟨index, hindex, hget⟩ := List.mem_iff_getElem.mp hstep
    have hnode : ∃ n, nodeOf index step = some n := by
      unfold nodeOf
      rw [htargeted]
      exact ⟨_, rfl⟩
    obtain ⟨n, hn⟩ := hnode
    have hmem := mem_nodes.mpr ⟨index, step, List.getElem?_eq_some_iff.mpr ⟨hindex, hget⟩, hn⟩
    refine h n.element (List.mem_map_of_mem hmem) ⟨?_, ?_⟩
    · rw [htag]
      cases step.action with
      | click | fill | assertText | assertVisible | navigate | wait => rfl
    · rw [htag, ← (nodeOf_some hn).2.1]
      rfl
  · rintro h e he ⟨-, htag⟩
    obtain ⟨n, hn, rfl⟩ := List.mem_map.mp he
    obtain ⟨index, step, hget, hnode⟩ := mem_nodes.mp hn
    obtain ⟨htargeted, hnodeTag, -⟩ := nodeOf_some hnode
    refine h step (List.mem_of_getElem? hget) htargeted ?_
    rw [htag, ← hnodeTag]
    rfl

/-- A purely structural step fails exactly where no candidate of its page has the tag it names. -/
theorem record_structural (ho : HeuristicOnly engine env) (h : t.Structural)
    {elements : List DomElement} (hparse : parseDom engine.findAll t.page = .ok elements) :
    ∃ r, record env runId t = .ok r ∧
      (Fails r ↔ ∀ e ∈ elements, ¬ TagMatches (parseSelector t.selector) e) := by
  refine ⟨_, record_heuristic ho h.drifted hparse, ?_⟩
  have hnone := proposeFrom_onlyTag engine.sim h.onlyTag elements
  rw [h.hints_eq] at hnone ⊢
  rw [← hnone]
  generalize proposeFrom engine.sim (parseSelector t.selector) elements = proposal
  obtain ⟨hstatus, hselector⟩ := result_healedRecord env runId t proposal
  unfold Fails
  rw [hstatus, hselector]
  cases proposal.healedSelector with
  | none => simp
  | some selector => simp

end

/-! ## Healed to its own element -/

/-- If the step is HEALED, then to the element `build_page` rendered for it. -/
def HealsToOwn (t : Task) (r : StepRecord) : Prop :=
  r.result.status = .healed →
    r.result.healedSelector = some (attrSelector "data-testid" t.renderedId)

/-- Every element rendered under another test-id is beaten by one under the step's own: by its
score, or by its place among elements of the same score. Or nothing scores at all. -/
def OwnWins (sim : Similarity) (t : Task) : Prop :=
  let elements := (nodes (validSteps t.case)).map Node.element
  (∀ e ∈ elements, (score t.hints e sim).score ≤ 0) ∨
  ∀ other ∈ elements, other.testId ≠ some t.renderedId →
    ∃ own ∈ elements, own.testId = some t.renderedId ∧
      ((score t.hints other sim).score < (score t.hints own sim).score ∨
        (score t.hints other sim).score = (score t.hints own sim).score ∧
          elements.idxOf own < elements.idxOf other)

section
variable {engine : SelfHealingEngine} {env : Env} {runId : Uuid} {t : Task} {position : ℕ}
  {cases : List TestCase}

/-- The winner of a page carries the step's own test-id exactly if that test-id wins. -/
theorem ownWins_iff {sim : Similarity} {best : DomElement}
    (hbest : best ∈ ((nodes (validSteps t.case)).map Node.element).argmax
      fun e => (score t.hints e sim).score) (hpos : 0 < (score t.hints best sim).score) :
    OwnWins sim t ↔ best.testId = some t.renderedId := by
  unfold OwnWins
  dsimp only
  generalize (nodes (validSteps t.case)).map Node.element = elements at hbest ⊢
  have hmem : best ∈ elements := List.argmax_mem hbest
  rw [argmax_iff_beaten (P := fun e => e.testId = some t.renderedId) hbest]
  constructor
  · rintro (hzero | hbeaten)
    · exact absurd (hzero best hmem) (not_le.mpr hpos)
    · exact hbeaten
  · exact Or.inr

/-- On a recovered page, a drifted step heals to its own element exactly where that one wins. -/
theorem record_healsToOwn (ho : HeuristicOnly engine env) (ht : t ∈ tasks position cases)
    (hdrift : t.drifted = true) (hpage : RecoversPage engine.findAll (validSteps t.case)) :
    ∃ r, record env runId t = .ok r ∧ (HealsToOwn t r ↔ OwnWins engine.sim t) := by
  have hparse := parseDom_page hpage
  rw [← (mem_tasks ht).2.1] at hparse
  refine ⟨_, record_heuristic ho hdrift hparse, ?_⟩
  have hcases := proposeFrom_cases engine.sim t.hints
    ((nodes (validSteps t.case)).map Node.element)
  generalize proposeFrom engine.sim t.hints ((nodes (validSteps t.case)).map Node.element) =
    proposal at hcases
  obtain ⟨hstatus, hselector⟩ := result_healedRecord env runId t proposal
  unfold HealsToOwn
  rw [hstatus, hselector]
  rcases hcases with ⟨hzero, hnone, -⟩ | ⟨best, hbest, hpos, hsome, -⟩
  · rw [hnone]
    exact ⟨fun _ => Or.inl hzero, fun _ h => by cases h⟩
  · obtain ⟨n, -, rfl⟩ := List.mem_map.mp (List.argmax_mem hbest)
    rw [hsome, ownWins_iff hbest hpos, testId_element, toSelector_element]
    constructor
    · intro h
      exact congrArg some (attrSelector_inj (Option.some.inj (h rfl)))
    · intro h _
      rw [Option.some.inj h]

end

end AegisPlatform.Workers
