import AegisPlatform.Workers.Healing

/-! # Runs without an LLM

The steps of a run as `execute_run` records them when the engine has only its heuristic: which
healings are accepted, which steps stay unhealed, and whose element a healed step ends up with.
-/

namespace AegisPlatform.Workers
open Foundations Domain Core Db Healing
set_option autoImplicit false
set_option maxHeartbeats 250000

/-- No candidate of the page has the tag the selector names. -/
def TagAbsent [Unicode] (findAll : HtmlParser) (t : Task) : Prop :=
  ∀ elements, parseDom findAll t.page = .ok elements →
    ∀ e ∈ elements, ¬ TagMatches (parseSelector t.selector) e

section
variable [Unicode] {engine : SelfHealingEngine} {env : Env} {runId : Uuid} {w : World}
  {run : TestRun} {suite : TestSuite} {cases : List TestCase}

/-- What holds of the record of each drifted step of a clean case holds of a run, as long as the
pages of the other cases parse. -/
theorem executeRun_clean {Clean : List StepSpec → Prop} {P : Task → StepRecord → Prop}
    (hfound : Found w runId run suite cases) (haccepting : Accepting env)
    (ho : HeuristicOnly engine env)
    (hvalid : ∀ case ∈ cases, ∀ s ∈ case.steps, (StepSpec.modelValidate s).isSome)
    (hparses : ∀ case ∈ cases, ∃ elements,
      parseDom engine.findAll (buildPage (validSteps case)) = .ok elements)
    (hP : ∀ t ∈ tasks 0 cases, t.drifted = true → Clean (validSteps t.case) →
      ∃ r, record env runId t = .ok r ∧ P t r) :
    ∃ run' rs, Recorded runId w (executeRun env runId w).1 run' rs ∧
      List.Forall₂ (fun t r => record env runId t = .ok r ∧
        (t.drifted = true → Clean (validSteps t.case) → P t r)) (tasks 0 cases) rs := by
  refine executeRun_drifted hfound haccepting hvalid ?_
  intro t ht hdrift
  obtain ⟨hcase, hpage, -⟩ := mem_tasks ht
  obtain ⟨elements, hparse⟩ := hparses t.case hcase
  rw [← hpage] at hparse
  refine ⟨_, record_heuristic ho hdrift hparse, fun hclean => ?_⟩
  obtain ⟨r, hr, hPr⟩ := hP t ht hdrift hclean
  rw [record_heuristic ho hdrift hparse] at hr
  exact Except.ok.inj hr ▸ hPr

/-- For every suite, each drifted step of a case with a clean page is recorded as its test-id and
its classes say. -/
theorem accepted_by_testId (hfound : Found w runId run suite cases) (haccepting : Accepting env)
    (ho : HeuristicOnly engine env) (hmin : engine.minConfidence = 60 / 100)
    (hvalid : ∀ case ∈ cases, ∀ s ∈ case.steps, (StepSpec.modelValidate s).isSome)
    (hparses : ∀ case ∈ cases, ∃ elements,
      parseDom engine.findAll (buildPage (validSteps case)) = .ok elements)
    (hparser : ∀ case ∈ cases, CleanCase (validSteps case) →
      RecoversPage engine.findAll (validSteps case)) :
    ∃ run' rs, Recorded runId w (executeRun env runId w).1 run' rs ∧
      List.Forall₂ (fun t r => record env runId t = .ok r ∧
        (t.drifted = true → CleanCase (validSteps t.case) → AcceptedByTestId t r))
        (tasks 0 cases) rs := by
  refine executeRun_clean hfound haccepting ho hvalid hparses ?_
  intro t ht hdrift hclean
  exact record_acceptedByTestId ho hmin ht hdrift (hparser t.case (mem_tasks ht).1 hclean)

/-- A purely structural step is recorded as FAILED exactly if no candidate of its page has the tag
it names; on a page the parser recovers, if no step of the case is rendered with that tag. -/
theorem structural_fails_iff (hfound : Found w runId run suite cases)
    (haccepting : Accepting env) (ho : HeuristicOnly engine env)
    (hvalid : ∀ case ∈ cases, ∀ s ∈ case.steps, (StepSpec.modelValidate s).isSome)
    (hparses : ∀ case ∈ cases, ∃ elements,
      parseDom engine.findAll (buildPage (validSteps case)) = .ok elements) :
    ∃ run' rs, Recorded runId w (executeRun env runId w).1 run' rs ∧
      List.Forall₂ (fun t r => record env runId t = .ok r ∧ (t.Structural →
        (Fails r ↔ TagAbsent engine.findAll t) ∧
        (RecoversPage engine.findAll (validSteps t.case) →
          (Fails r ↔ ∀ step ∈ validSteps t.case, untargeted step = false →
            (parseSelector t.selector).tag ≠ some (tagForAction step.action)))))
        (tasks 0 cases) rs := by
  refine executeRun_forall hfound haccepting hvalid ?_
  intro t ht
  obtain ⟨hcase, hpage, -⟩ := mem_tasks ht
  obtain ⟨elements, hparse⟩ := hparses t.case hcase
  rw [← hpage] at hparse
  by_cases hdrift : t.drifted = true
  · refine ⟨_, record_heuristic ho hdrift hparse, ?_⟩
    intro hstructural
    obtain ⟨r, hr, hfails⟩ := record_structural ho hstructural hparse
    rw [record_heuristic ho hdrift hparse] at hr
    obtain rfl := Except.ok.inj hr
    rw [hfails]
    constructor
    · constructor
      · intro hno elements' hparse'
        rw [hparse] at hparse'
        obtain rfl := Except.ok.inj hparse'
        exact hno
      · exact fun habsent => habsent elements hparse
    · intro hrecovers
      have hpageElements := parseDom_page hrecovers
      rw [← hpage, hparse] at hpageElements
      rw [Except.ok.inj hpageElements]
      exact tagMatches_page (parseSelector t.selector) (validSteps t.case)
  · refine ⟨_, record_clean hdrift, ?_⟩
    exact fun hstructural => absurd hstructural.drifted hdrift

end

/-! ## Small runs -/

/-- The login case with other steps. -/
def stepsCase (steps : List StepSpec) : TestCase :=
  { loginCase with steps := steps.map StepSpec.modelDump }

def stepsWorld (steps : List StepSpec) : World :=
  { db := { loginDb with
      cases := Table.empty.insert (fun n => { stepsCase steps with id := n }) fun _ => rfl } }

theorem stepsWorld_found (steps : List StepSpec) :
    Found (stepsWorld steps) 0 loginRun loginSuite [stepsCase steps] :=
  ⟨rfl, rfl, rfl⟩

/-- A parser that knows one page. -/
def pageParser [Unicode] (steps : List StepSpec) : HtmlParser := fun html =>
  if html = buildPage steps then
    .ok ([⟨"html", [], ""⟩, ⟨"body", [], ""⟩, ⟨"main", [], ""⟩] ++ (nodes steps).map Node.parsed)
  else .ok []

def sameText : Similarity where
  ratio := fun a b => if a = b then 1 else 0
  nonneg := fun a b => by split <;> norm_num
  le_one := fun a b => by split <;> norm_num

def pageEngine [Unicode] (steps : List StepSpec) : SelfHealingEngine :=
  { sim := sameText, findAll := pageParser steps, minConfidence := 60 / 100 }

def heuristicEnv [Unicode] (engine : SelfHealingEngine) : Env :=
  { calmEnv fun _ call => answered (engine.heal (NullHealingLLM : HealingLLM Unit)
      call.originalSelector call.html call.context ()).1 with
    minConfidence := engine.minConfidence }

section
variable [Unicode]

omit [Unicode] in
theorem validSteps_stepsCase (steps : List StepSpec) : validSteps (stepsCase steps) = steps := by
  unfold validSteps stepsCase
  rw [List.filterMap_map]
  have hread : StepSpec.modelValidate ∘ StepSpec.modelDump = some :=
    funext StepSpec.modelValidate_modelDump
  rw [hread, List.filterMap_some]

omit [Unicode] in
theorem valid_stepsCase (steps : List StepSpec) :
    ∀ case ∈ [stepsCase steps], ∀ s ∈ case.steps, (StepSpec.modelValidate s).isSome := by
  intro case hcase s hs
  rw [List.mem_singleton.mp hcase] at hs
  obtain ⟨step, -, rfl⟩ := List.mem_map.mp hs
  rw [StepSpec.modelValidate_modelDump]
  rfl

theorem recovers_pageParser (steps : List StepSpec) : RecoversPage (pageParser steps) steps := by
  refine ⟨[⟨"html", [], ""⟩, ⟨"body", [], ""⟩, ⟨"main", [], ""⟩], ?_, if_pos rfl⟩
  intro tag htag
  simp only [List.mem_cons, List.not_mem_nil, or_false] at htag
  rcases htag with rfl | rfl | rfl
  · exact ⟨by decide, rfl⟩
  · exact ⟨by decide, rfl⟩
  · exact ⟨by decide, rfl⟩

theorem recovers_stepsCase (steps : List StepSpec) : ∀ case ∈ [stepsCase steps],
    CleanCase (validSteps case) →
      RecoversPage (pageEngine steps).findAll (validSteps case) := by
  intro case hcase _
  rw [List.mem_singleton.mp hcase, validSteps_stepsCase]
  exact recovers_pageParser steps

theorem accepting_heuristicEnv (engine : SelfHealingEngine) : Accepting (heuristicEnv engine) where
  begins := ⟨rfl, nofun, rfl⟩
  flush := fun _ => rfl
  publishStep := fun _ => nofun
  lastCommit := rfl

theorem heuristicOnly_heuristicEnv (engine : SelfHealingEngine) :
    HeuristicOnly engine (heuristicEnv engine) :=
  ⟨fun _ _ => rfl, rfl⟩

theorem tasks_stepsCase (steps : List StepSpec) : tasks 0 [stepsCase steps] =
    tasksFrom (stepsCase steps) (buildPage steps) 0 0 steps := by
  unfold tasks caseTasks
  rw [validSteps_stepsCase]
  exact List.append_nil _

instance (steps : List StepSpec) : Decidable (CleanCase steps) :=
  inferInstanceAs (Decidable (∀ n ∈ nodes steps, CleanText n.testId ∧ CleanText n.text))

/-- The parser reads the page it knows. -/
theorem parses_stepsCase (steps : List StepSpec) : ∀ case ∈ [stepsCase steps], ∃ elements,
    parseDom (pageEngine steps).findAll (buildPage (validSteps case)) = .ok elements := by
  intro case hcase
  rw [List.mem_singleton.mp hcase, validSteps_stepsCase]
  exact ⟨_, parseDom_page (recovers_pageParser steps)⟩

end

/-- What the execution of these steps stores of each: its status and its healed selector. -/
def healedSelectors [Unicode] (steps : List StepSpec) : List (StepStatus × Option String) :=
  (executeRun (heuristicEnv (pageEngine steps)) 0 (stepsWorld steps)).1.db.stepResults.map fun r =>
    (r.status, r.healedSelector)

/-- Two drifted buttons, the first with a test-id. -/
def signInSteps : List StepSpec :=
  [{ action := .click, selector := some "#login[data-testid=\"sign-in\"]" },
    { action := .click, selector := some "#help.link" }]

theorem signIn_accepted :
    let _ : Unicode := asciiUnicode
    ∃ run' rs, Recorded 0 (stepsWorld signInSteps)
        (executeRun (heuristicEnv (pageEngine signInSteps)) 0 (stepsWorld signInSteps)).1 run' rs ∧
      List.Forall₂ (fun t r => record (heuristicEnv (pageEngine signInSteps)) 0 t = .ok r ∧
        (t.drifted = true → CleanCase (validSteps t.case) → AcceptedByTestId t r))
        (tasks 0 [stepsCase signInSteps]) rs := by
  intro _
  exact accepted_by_testId (stepsWorld_found signInSteps)
    (accepting_heuristicEnv (pageEngine signInSteps))
    (heuristicOnly_heuristicEnv (pageEngine signInSteps)) rfl (valid_stepsCase signInSteps)
    (parses_stepsCase signInSteps) (recovers_stepsCase signInSteps)

/-- An element far down in a structure, which an assertion expects to be visible. -/
def structuralSteps : List StepSpec :=
  [{ action := .assertVisible, selector := some "div > div:nth-child(3)" }]

def structuralTask [Unicode] : Task :=
  ⟨0, stepsCase structuralSteps, buildPage structuralSteps, 0,
    { action := .assertVisible, selector := some "div > div:nth-child(3)" }⟩

/-- The assertion renders a `div` itself, and its tag alone heals it. -/
theorem structural_counterexample :
    let _ : Unicode := asciiUnicode
    structuralTask.Structural ∧ structuralTask ∈ tasks 0 [stepsCase structuralSteps] ∧
      healedSelectors structuralSteps = [(.healed, some "[data-testid=\"tid-0\"]")] := by
  intro _
  refine ⟨?_, ?_, ?_⟩
  · constructor <;> decide +kernel
  · rw [tasks_stepsCase]
    exact List.mem_cons_self
  · decide +kernel

theorem structural_fails :
    let _ : Unicode := asciiUnicode
    ∃ run' rs, Recorded 0 (stepsWorld structuralSteps)
        (executeRun (heuristicEnv (pageEngine structuralSteps)) 0
          (stepsWorld structuralSteps)).1 run' rs ∧
      List.Forall₂ (fun t r => record (heuristicEnv (pageEngine structuralSteps)) 0 t = .ok r ∧
        (t.Structural → (Fails r ↔ TagAbsent (pageParser structuralSteps) t) ∧
          (RecoversPage (pageParser structuralSteps) (validSteps t.case) →
            (Fails r ↔ ∀ step ∈ validSteps t.case, untargeted step = false →
              (parseSelector t.selector).tag ≠ some (tagForAction step.action)))))
        (tasks 0 [stepsCase structuralSteps]) rs := by
  intro _
  exact structural_fails_iff (stepsWorld_found structuralSteps)
    (accepting_heuristicEnv (pageEngine structuralSteps))
    (heuristicOnly_heuristicEnv (pageEngine structuralSteps)) (valid_stepsCase structuralSteps)
    (parses_stepsCase structuralSteps)

/-- Two buttons that share their only class and nothing else. -/
def twinSteps : List StepSpec :=
  [{ action := .click, selector := some "#a.btn" }, { action := .click, selector := some "#b.btn" }]

end AegisPlatform.Workers
