import AegisPlatform.Foundations.JsonText
import AegisPlatform.Healing.Choice
import AegisPlatform.Healing.Printer
import AegisPlatform.Workers.Degradation

/-! # The width of a healed selector

`healed_selector` is a VARCHAR(1024) in both tables, and a selector a step comes with has at most
1024 characters. What is written is printed anew from the page, where every test-id is called
`data-testid`, or is an answer of the LLM, whose length nobody looks at.

So what is written fits for whatever the LLM answers only where the LLM is never asked: a provider
may answer every prompt with one long selector it is sure of.
-/

namespace AegisPlatform.Workers
open Foundations Foundations.Regex Domain Core Db Healing
set_option autoImplicit false
set_option maxHeartbeats 250000

/-- Both columns take the healed selector. -/
def HealedFits (r : StepRecord) : Prop :=
  (∀ s ∈ r.result.healedSelector, s.length ≤ 1024) ∧
    ∀ e ∈ r.event, ∀ s ∈ e.healedSelector, s.length ≤ 1024

/-- The run ends with its tables written, and every healed selector it wrote fits its column. -/
def StoresFitting [Unicode] (env : Env) (runId : Uuid) (w : World) (cases : List TestCase) : Prop :=
  ∃ run' rs, Recorded runId w (executeRun env runId w).1 run' rs ∧
    List.Forall₂ (fun t r => record env runId t = .ok r) (tasks 0 cases) rs ∧ ∀ r ∈ rs, HealedFits r

/-! ## The selector of the engine -/

/-- The engine goes with the selector of the LLM. -/
def Preferred (engine : SelfHealingEngine) (heuristic llm : HealingProposal) : Prop :=
  heuristic.confidence < engine.minConfidence ∧ llm.healedSelector ≠ none ∧
    (heuristic.healedSelector = none ∨ heuristic.healedSelector = llm.healedSelector ∨
      heuristic.confidence ≤ llm.confidence)

theorem combine_healedSelector {engine : SelfHealingEngine} {heuristic : HealingProposal}
    (llm : HealingProposal) (h : heuristic.confidence < engine.minConfidence) :
    (Preferred engine heuristic llm →
      (combine heuristic (some llm)).healedSelector = llm.healedSelector) ∧
    (¬ Preferred engine heuristic llm →
      (combine heuristic (some llm)).healedSelector = heuristic.healedSelector) := by
  unfold combine Preferred
  dsimp only
  by_cases hnone : llm.healedSelector = none
  · rw [if_pos hnone]
    exact ⟨fun hpreferred => absurd hnone hpreferred.2.1, fun _ => rfl⟩
  · rw [if_neg hnone]
    by_cases hunhealed : heuristic.healedSelector = none
    · rw [if_pos hunhealed]
      exact ⟨fun _ => rfl, fun hnot => absurd ⟨h, hnone, Or.inl hunhealed⟩ hnot⟩
    · rw [if_neg hunhealed]
      by_cases hsame : heuristic.healedSelector = llm.healedSelector
      · rw [if_pos hsame]
        exact ⟨fun _ => rfl, fun hnot => absurd ⟨h, hnone, Or.inr (Or.inl hsame)⟩ hnot⟩
      · rw [if_neg hsame]
        split
        · next hmore =>
          exact ⟨fun _ => rfl, fun hnot => absurd ⟨h, hnone, Or.inr (Or.inr hmore)⟩ hnot⟩
        · next hless =>
          refine ⟨?_, fun _ => rfl⟩
          rintro ⟨-, -, hno | heq | hmore⟩
          · exact absurd hno hunhealed
          · exact absurd heq hsame
          · exact absurd hmore hless

section
variable [Unicode] {σ : Type} {engine : SelfHealingEngine} {llm : HealingLLM σ}

/-- The selector the engine answers with is the one of its LLM, or of its heuristic. -/
theorem asked_healedSelector {call : HealCall} {s : σ} {heuristic : HealingProposal}
    {answer : Option HealingProposal}
    (hpropose : propose engine.sim engine.findAll call.originalSelector call.html call.context =
      .ok heuristic)
    (hanswer : (llm.propose call.originalSelector call.html call.context s).1 = .returned answer) :
    ∃ best, (SelfHealingEngine.asked engine llm call s).1 = .returned best ∧
      (∀ p ∈ answer, Preferred engine heuristic p → best.healedSelector = p.healedSelector) ∧
      ((∀ p ∈ answer, ¬ Preferred engine heuristic p) →
        best.healedSelector = heuristic.healedSelector) := by
  unfold SelfHealingEngine.asked SelfHealingEngine.heal
  rw [hpropose]
  dsimp only
  by_cases hconfident : heuristic.confidence ≥ engine.minConfidence
  · rw [if_pos hconfident]
    exact ⟨heuristic, rfl, fun p _ hpreferred => absurd hpreferred.1 (not_lt.mpr hconfident),
      fun _ => rfl⟩
  · rw [if_neg hconfident]
    generalize llm.propose call.originalSelector call.html call.context s = reply at hanswer ⊢
    obtain ⟨outcome, s'⟩ := reply
    dsimp only at hanswer
    subst hanswer
    refine ⟨combine heuristic answer, rfl, ?_⟩
    cases answer with
    | none => exact ⟨fun p hp => absurd hp (Option.not_mem_none p), fun _ => rfl⟩
    | some p =>
      obtain ⟨hpreferred, hnot⟩ := combine_healedSelector p (not_le.mp hconfident)
      refine ⟨fun q hq => ?_, fun hall => hnot (hall p rfl)⟩
      rw [← Option.some.inj hq]
      exact hpreferred

variable {env : Env} {runId : Uuid} {t : Task} {elements : List DomElement} {s : σ}
  {answer : Option HealingProposal}

theorem healedFits_healedRecord (best : HealingProposal) :
    HealedFits (healedRecord env runId t best) ↔ ∀ s ∈ best.healedSelector, s.length ≤ 1024 := by
  unfold HealedFits
  rw [(result_healedRecord env runId t best).2]
  refine ⟨And.left, fun h => ⟨h, fun e he => ?_⟩⟩
  rw [← Option.some.inj he]
  exact h

variable (env runId) in
/-- The record of a drifted step fits its columns exactly if the answer of the LLM is short, where
the engine goes with it, and otherwise exactly if a short candidate wins. -/
theorem record_asked (hdrift : t.drifted = true)
    (hheal : env.heal t.position (healCall t.page t.step) =
      answered (SelfHealingEngine.asked engine llm (healCall t.page t.step) s).1)
    (hparse : parseDom engine.findAll t.page = .ok elements)
    (hanswer : (llm.propose t.selector t.page (pyOr t.step.expected t.step.value) s).1 =
      .returned answer) :
    ∃ r, record env runId t = .ok r ∧
      (∀ p ∈ answer, Preferred engine (proposeFrom engine.sim t.hints elements) p →
        (HealedFits r ↔ ∀ s ∈ p.healedSelector, s.length ≤ 1024)) ∧
      ((∀ p ∈ answer, ¬ Preferred engine (proposeFrom engine.sim t.hints elements) p) →
        (HealedFits r ↔ ShortWins 1024 engine.sim t.hints elements)) := by
  have hpropose : propose engine.sim engine.findAll (healCall t.page t.step).originalSelector
      (healCall t.page t.step).html (healCall t.page t.step).context =
        .ok (proposeFrom engine.sim t.hints elements) := by
    unfold propose
    rw [show (healCall t.page t.step).html = t.page from rfl, hparse]
    rfl
  obtain ⟨best, hbest, hpreferred, hkept⟩ := asked_healedSelector hpropose hanswer
  rw [hbest] at hheal
  refine ⟨_, record_ok_iff.mpr (Or.inl ⟨hdrift, best, hheal, rfl⟩), ?_, ?_⟩
  · intro p hp htaken
    rw [healedFits_healedRecord, hpreferred p hp htaken]
  · intro hnone
    rw [healedFits_healedRecord, hkept hnone, proposeFrom_short_iff]

end

/-! ## What is stored -/

/-- `P` holds for the hints of every drifted step and the elements of its page. -/
def OnDrifted [Unicode] (findAll : HtmlParser) (cases : List TestCase)
    (P : SelectorHints → List DomElement → Prop) : Prop :=
  ∀ t ∈ tasks 0 cases, t.drifted = true → ∀ elements,
    parseDom findAll t.page = .ok elements → P t.hints elements

/-- The environment with Claude behind the engine. -/
def withClaude [Unicode] {W : Type} (env : Env) (engine : SelfHealingEngine) (claude : Claude W)
    (elapse : ℕ → CircuitBreaker ℚ × W → CircuitBreaker ℚ × W) (start : CircuitBreaker ℚ × W)
    (cases : List TestCase) : Env :=
  { env with
    heal := answersOf (SelfHealingEngine.asked engine claude.healingLLM) elapse start
      (tasks 0 cases) }

/-- `json.loads` and `float` read what a provider may answer: any selector, and to be sure of it. -/
structure ReadsAnswers (json : JsonLibrary) : Prop where
  loads : ∀ selector, ∃ text, text ≠ "" ∧
    json.loads text = some (.obj [("selector", .str selector), ("confidence", .num 1)])
  float : json.float (.num 1) = some 1

/-- A provider that answers every prompt with one text, at once. -/
def constantClaude (json : JsonLibrary) (text : String) : Claude Unit where
  create := fun _ w => (.message { stopReason := some "end_turn", content := [⟨"text", text⟩] }, w)
  clock := fun _ => 0
  json := json
  timeoutSeconds := 8

section
variable {json : JsonLibrary} {text selector : String}

theorem exists_overlong : ∃ selector : String, 1024 < selector.length ∧
    stripped selector = selector := by
  refine ⟨String.ofList (List.replicate 1025 'a'), ?_, ?_⟩
  · rw [String.length_ofList, List.length_replicate]
    omega
  · have hchars : ∀ c ∈ List.replicate 1025 'a', isSpace c = false := by
      intro c hc
      rw [List.eq_of_mem_replicate hc]
      decide
    unfold stripped strip
    rw [String.toList_ofList, strip_of_forall hchars]

/-- Some text decodes to a selector, if that is not stripped to another. -/
theorem exists_decode (hjson : ReadsAnswers json) (hne : selector ≠ "")
    (hstripped : stripped selector = selector) :
    ∃ text p, text ≠ "" ∧ decode json text = .ok p ∧ p.healedSelector = some selector ∧
      p.confidence = 1 := by
  obtain ⟨text, htext, hloads⟩ := hjson.loads selector
  have hselector : decodeSelector (some (.str selector)) = .ok selector := by
    have htruthy : jsonTruthy (some (.str selector)) = true := by simpa [jsonTruthy] using hne
    unfold decodeSelector
    rw [if_pos htruthy]
    exact congrArg Except.ok hstripped
  have hconfidence : decodeConfidence json (some (.num 1)) = .ok 1 := by
    simp only [decodeConfidence, hjson.float]
  refine ⟨text, llmProposal selector (decodeRationale json none) 1, htext, ?_, ?_, ?_⟩
  · let fields := [("selector", Json.str selector), ("confidence", Json.num 1)]
    have hfirst : fields.lookup "selector" = some (.str selector) := by simp [fields]
    have hsecond : fields.lookup "confidence" = some (.num 1) := by simp [fields, List.lookup_cons]
    have hthird : fields.lookup "rationale" = none := by simp [fields, List.lookup_cons]
    unfold decode
    rw [hloads]
    dsimp only
    rw [hfirst, hsecond, hthird, hselector, hconfidence]
    rfl
  · exact if_neg hne
  · simp [llmProposal]

/-- Its answer is decoded for every prompt, and the new breaker stays as it is. -/
theorem propose_constant {p : HealingProposal} (htext : text ≠ "")
    (hdecode : decode json text = .ok p) (originalSelector html : String)
    (context : Option String) :
    (constantClaude json text).healingLLM.propose originalSelector html context
      (Claude.newBreaker, ()) = (.returned (some p), (Claude.newBreaker, ())) := by
  have hread : readMessage json { stopReason := some "end_turn", content := [⟨"text", text⟩] } =
      .ok (some p) := by
    simp [readMessage, htext, hdecode, Except.map]
  have hinvoke : ∀ prompt,
      (constantClaude json text).invoke prompt () = (.returned (some p), ()) := by
    intro prompt
    unfold Claude.invoke constantClaude
    dsimp only
    rw [hread]
  have hclosed : (Claude.newBreaker.maybeHalfOpen ((constantClaude json text).clock ())).state ≠
      .opened := nofun
  unfold Claude.healingLLM Claude.ask
  dsimp only
  rw [CircuitBreaker.call_admitted _ hclosed, hinvoke]
  rfl

end

section
variable [Unicode]

/-- A healer that leaves its state alone meets every step with the state it started from. -/
theorem healerBefore_still {σ : Type} {heal : HealCall → σ → Outcome String HealingProposal × σ}
    {start : σ} (hstill : ∀ call, (heal call start).2 = start) (ts : List Task) (position : ℕ) :
    healerBefore heal (fun _ s => s) start ts position = start := by
  have hfold : ∀ ts : List Task, ts.foldl
      (fun s t => if t.drifted then (heal (healCall t.page t.step) s).2 else s) start = start := by
    intro ts
    induction ts with
    | nil => rfl
    | cons t ts ih =>
      rw [List.foldl_cons, hstill, ite_self]
      exact ih
  exact hfold (ts.take position)

variable {engine : SelfHealingEngine} {env : Env} {runId : Uuid} {w : World} {run : TestRun}
  {suite : TestSuite} {cases : List TestCase} {json : JsonLibrary}

theorem Accepting.withClaude {W : Type} (h : Accepting env) (claude : Claude W)
    (elapse : ℕ → CircuitBreaker ℚ × W → CircuitBreaker ℚ × W) (start : CircuitBreaker ℚ × W) :
    Accepting (withClaude env engine claude elapse start cases) :=
  ⟨⟨h.begins.firstCommit, h.begins.publishStarted, h.begins.newEngine⟩, h.flush, h.publishStep,
    h.lastCommit⟩

omit [Unicode] in
/-- What a pairing gives to one of the paired. -/
theorem exists_of_forall₂ {α β : Type} {R : α → β → Prop} {as : List α} {bs : List β}
    (h : List.Forall₂ R as bs) {a : α} (ha : a ∈ as) : ∃ b ∈ bs, R a b := by
  induction h with
  | nil => exact absurd ha List.not_mem_nil
  | @cons a' b as bs hb _ ih =>
    rcases List.mem_cons.mp ha with rfl | hrest
    · exact ⟨b, List.mem_cons_self, hb⟩
    · obtain ⟨b', hb', hR⟩ := ih hrest
      exact ⟨b', List.mem_cons_of_mem b hb', hR⟩

/-- If the record of each drifted step fits exactly where `P` says, so does what is stored. -/
theorem storesFitting_iff {P : Task → Prop} (hfound : Found w runId run suite cases)
    (haccepting : Accepting env)
    (hvalid : ∀ case ∈ cases, ∀ s ∈ case.steps, (StepSpec.modelValidate s).isSome)
    (hP : ∀ t ∈ tasks 0 cases, t.drifted = true → ∃ r, record env runId t = .ok r ∧
      (HealedFits r ↔ P t)) :
    StoresFitting env runId w cases ↔ ∀ t ∈ tasks 0 cases, t.drifted = true → P t := by
  constructor
  · rintro ⟨run', rs, -, hrs, hfits⟩ t ht hdrift
    obtain ⟨r, hr, hrecord⟩ := exists_of_forall₂ hrs ht
    obtain ⟨r', hrecord', hiff⟩ := hP t ht hdrift
    obtain rfl := Except.ok.inj (hrecord.symm.trans hrecord')
    exact hiff.mp (hfits r hr)
  · intro hall
    have hfitting : ∀ t ∈ tasks 0 cases, ∃ r, record env runId t = .ok r ∧ HealedFits r := by
      intro t ht
      by_cases hdrift : t.drifted = true
      · obtain ⟨r, hr, hiff⟩ := hP t ht hdrift
        exact ⟨r, hr, hiff.mpr (hall t ht hdrift)⟩
      · exact ⟨_, record_clean hdrift, nofun, nofun⟩
    obtain ⟨run', rs, hrecorded, hrs⟩ := executeRun_forall hfound haccepting hvalid hfitting
    refine ⟨run', rs, hrecorded, hrs.imp fun _ _ h => h.1, ?_⟩
    intro r hr
    obtain ⟨t, -, -, hfits⟩ := exists_of_forall₂ hrs.flip hr
    exact hfits

/-- Whatever it is asked, it leaves the engine in the state it found it in. -/
theorem asked_constant {text : String} {p : HealingProposal} (htext : text ≠ "")
    (hdecode : decode json text = .ok p) (call : HealCall) :
    (SelfHealingEngine.asked engine (constantClaude json text).healingLLM call
      (Claude.newBreaker, ())).2 = (Claude.newBreaker, ()) := by
  unfold SelfHealingEngine.asked SelfHealingEngine.heal
  rw [propose_constant htext hdecode]
  split
  · rfl
  · split
    · rfl
    · rfl

variable (hfound : Found w runId run suite cases) (haccepting : Accepting env)
  (hvalid : ∀ case ∈ cases, ∀ s ∈ case.steps, (StepSpec.modelValidate s).isSome)
  (hparses : ∀ case ∈ cases, ∃ elements,
    parseDom engine.findAll (buildPage (validSteps case)) = .ok elements)

include hparses in
theorem parses_page {t : Task} (ht : t ∈ tasks 0 cases) :
    ∃ elements, parseDom engine.findAll t.page = .ok elements := by
  obtain ⟨hcase, hpage, -⟩ := mem_tasks ht
  rw [hpage]
  exact hparses t.case hcase

include hfound haccepting hvalid hparses

theorem heuristic_fits_iff (ho : HeuristicOnly engine env) :
    StoresFitting env runId w cases ↔
      OnDrifted engine.findAll cases (ShortWins 1024 engine.sim) := by
  refine storesFitting_iff hfound haccepting hvalid fun t ht hdrift => ?_
  obtain ⟨elements, hparse⟩ := parses_page hparses ht
  refine ⟨_, record_heuristic ho hdrift hparse, ?_⟩
  rw [healedFits_healedRecord, proposeFrom_short_iff]
  simp [hparse]

/-- Where the heuristic reaches the threshold, no answer counts. -/
theorem claude_fits {W : Type} (claude : Claude W)
    (elapse : ℕ → CircuitBreaker ℚ × W → CircuitBreaker ℚ × W) (start : CircuitBreaker ℚ × W)
    (hall : OnDrifted engine.findAll cases fun hints elements =>
      Confident engine.minConfidence engine.sim hints elements ∧
        ShortWins 1024 engine.sim hints elements) :
    StoresFitting (withClaude env engine claude elapse start cases) runId w cases := by
  refine (storesFitting_iff (P := fun _ => True) hfound (haccepting.withClaude _ _ _) hvalid
    fun t ht hdrift => ?_).mpr fun _ _ _ => trivial
  obtain ⟨elements, hparse⟩ := parses_page hparses ht
  obtain ⟨hconfident, hshort⟩ := hall t ht hdrift elements hparse
  obtain ⟨answer, hanswer⟩ := claude.claude_returns t.selector t.page
    (pyOr t.step.expected t.step.value) (healerBefore
      (SelfHealingEngine.asked engine claude.healingLLM) elapse start (tasks 0 cases) t.position)
  obtain ⟨r, hr, -, hkept⟩ := record_asked (withClaude env engine claude elapse start cases) runId
    hdrift rfl hparse hanswer
  have hle := (confident_iff engine.minConfidence engine.sim t.hints elements).mpr hconfident
  have hfits := (hkept fun q _ hq => absurd hq.1 (not_lt.mpr hle)).mpr hshort
  exact ⟨r, hr, iff_true_intro hfits⟩

/-- Over a provider that answers everything with a selector that is too long, nothing fits but what
the heuristic settles. -/
theorem constant_fits {text long : String} {p : HealingProposal} (htext : text ≠ "")
    (hdecode : decode json text = .ok p) (hselector : p.healedSelector = some long)
    (hconfidence : p.confidence = 1) (hlong : 1024 < long.length)
    (hfits : StoresFitting (withClaude env engine (constantClaude json text) (fun _ s => s)
      (Claude.newBreaker, ()) cases) runId w cases) :
    OnDrifted engine.findAll cases fun hints elements =>
      Confident engine.minConfidence engine.sim hints elements ∧
        ShortWins 1024 engine.sim hints elements := by
  refine (storesFitting_iff hfound (haccepting.withClaude _ _ _) hvalid fun t ht hdrift => ?_).mp
    hfits
  obtain ⟨elements, hparse⟩ := parses_page hparses ht
  have hheal : (withClaude env engine (constantClaude json text) (fun _ s => s)
      (Claude.newBreaker, ()) cases).heal t.position (healCall t.page t.step) =
        answered (SelfHealingEngine.asked engine (constantClaude json text).healingLLM
          (healCall t.page t.step) (Claude.newBreaker, ())).1 := by
    unfold withClaude answersOf
    dsimp only
    rw [healerBefore_still (asked_constant htext hdecode)]
  obtain ⟨r, hr, htaken, hkept⟩ := record_asked _ runId hdrift hheal hparse
    (congrArg Prod.fst (propose_constant htext hdecode _ _ _))
  refine ⟨r, hr, ?_⟩
  have hiff := confident_iff engine.minConfidence engine.sim t.hints elements
  by_cases hconfident : Confident engine.minConfidence engine.sim t.hints elements
  · rw [hkept fun q _ hq => absurd hq.1 (not_lt.mpr (hiff.mpr hconfident))]
    simp [hparse, hconfident]
  · have hpreferred : Preferred engine (proposeFrom engine.sim t.hints elements) p := by
      refine ⟨not_le.mp fun hle => hconfident (hiff.mp hle),
        hselector ▸ Option.some_ne_none long, ?_⟩
      rw [hconfidence]
      exact Or.inr (Or.inr (HealingProposal.confidence_le_one _))
    rw [htaken p rfl hpreferred, hselector]
    simp [hparse, hconfident, hlong]

end

/-! ## An engine on the twins -/

def scalarJson : JsonText.Scalar → Json
  | .null => .null
  | .int z => .num z
  | .str s => .str s

/-- `json.loads` on what `json.dumps` writes. -/
def textLibrary : JsonLibrary where
  loads := fun text => (JsonText.loads text).map fun object =>
    .obj (object.map fun field => (field.1, scalarJson field.2))
  float := fun value => match value with
    | .num q => some q
    | _ => none
  str := fun value => match value with
    | .null => "None"
    | _ => ""

theorem textLibrary_reads : ReadsAnswers textLibrary where
  loads := by
    intro selector
    refine ⟨JsonText.dumps [("selector", .str selector), ("confidence", .int 1)], ?_, ?_⟩
    · intro hempty
      have hchars := congrArg String.toList hempty
      unfold JsonText.dumps at hchars
      rw [String.toList_ofList] at hchars
      exact List.cons_ne_nil _ _ hchars
    · unfold textLibrary
      dsimp only
      rw [JsonText.loads_dumps]
      simp [scalarJson]
  float := rfl

@[irreducible] def longId : String := String.ofList (List.replicate 1010 'a')

theorem mem_longId {c : Char} (h : c ∈ longId.toList) : c = 'a' := by
  unfold longId at h
  rw [String.toList_ofList] at h
  exact List.eq_of_mem_replicate h

def longSelector : String := attrSelector "data-qa" longId

theorem length_longId : longId.length = 1010 := by
  unfold longId
  rw [String.length_ofList, List.length_replicate]

theorem length_longSelector : ∀ t ∈ some longSelector, t.length ≤ 1024 := by
  intro t ht
  have hkey : "data-qa".length = 7 := rfl
  rw [← Option.some.inj ht, longSelector, length_attrSelector, length_longId]
  omega

def longClick : StepSpec :=
  { action := .click
    selector := some longSelector
    selector_length := length_longSelector }

def anyClick : StepSpec := { action := .click, selector := some "button" }

/-- A click on an element with a long test-id, and one on any button. -/
def longSteps : List StepSpec := [longClick, anyClick]

theorem longSelector_reads : let _ : Unicode := asciiUnicode
    Reads longSelector none none [] [("data-qa", longId)] := by
  intro _
  let _ : LawfulUnicode := asciiUnicode_lawful
  have habsent : ∀ c : Char, c ≠ 'a' → c ∉ longId.toList := fun c hne hc => hne (mem_longId hc)
  have hchars : longSelector.toList = [] ++ attrChars ("data-qa", longId) :=
    toList_attrSelector "data-qa" longId
  refine (reads_attr_iff hchars
    (isName_key "data-qa" (by decide)) (fun c hc => by cases hc) (Or.inr rfl)).mpr ?_
  exact
    { clean := fun c hc => by
        rw [mem_longId hc]
        decide
      ids := runsAfter_eq_nil (habsent '#' (by decide))
      classes := runsAfter_eq_nil (habsent '.' (by decide))
      text := textFree_of_not_mem (habsent 't' (by decide))
      tag := fun hc => absurd hc (habsent '>' (by decide)) }

theorem longId_ne : longId ≠ "" := by
  intro hempty
  have hlength := length_longId
  rw [hempty] at hlength
  simp at hlength

theorem nodeOf_longClick : let _ : Unicode := asciiUnicode
    nodeOf 0 longClick = some ⟨"button", longId, [], ""⟩ := by
  intro _
  have hreads := longSelector_reads
  have hclasses : (parseSelector longSelector).classes = [] := by
    rw [List.eq_nil_iff_forall_not_mem]
    exact fun c hc => List.not_mem_nil ((hreads.classes c).mp hc)
  have htestId : (parseSelector longSelector).testId = some longId := by
    unfold SelectorHints.testId
    rw [hreads.attributes]
    simp [testIdKeys, List.lookup_cons]
  have hor : (pyOr (some longId) (some ("tid-" ++ toString 0))).getD "" = longId := by
    simp [pyOr, longId_ne]
  have htargeted : untargeted longClick = false := rfl
  have hselector : longClick.selector.getD "" = longSelector := rfl
  unfold nodeOf
  rw [htargeted, hselector, if_neg Bool.false_ne_true]
  dsimp only
  rw [htestId, hclasses, hor]
  rfl

theorem nodes_longSteps : let _ : Unicode := asciiUnicode
    nodes longSteps = [⟨"button", longId, [], ""⟩, ⟨"button", "tid-1", [], ""⟩] := by
  intro _
  have hlong := nodeOf_longClick
  have hbutton : nodeOf 1 anyClick = some ⟨"button", "tid-1", [], ""⟩ := by decide +kernel
  simp only [nodes, longSteps, List.zipIdx_cons, List.zipIdx_nil, List.filterMap_cons,
    List.filterMap_nil, Nat.zero_add]
  rw [hlong, hbutton]

def anyTask [Unicode] : Task :=
  ⟨1, stepsCase longSteps, buildPage longSteps, 1, anyClick⟩

theorem anyTask_record : let _ : Unicode := asciiUnicode
    ∃ r, record (heuristicEnv (pageEngine longSteps)) 0 anyTask = .ok r ∧
      r.result.healedSelector = some (attrSelector "data-testid" longId) := by
  intro _
  have hdrift : anyTask.drifted = true := by
    have hstep : (runStep anyClick 1).drifted = true := by decide +kernel
    exact hstep
  have hparse := parseDom_page (recovers_pageParser longSteps)
  rw [nodes_longSteps] at hparse
  have hhints : anyTask.hints = { tag := some "button" } := by
    have hread : hintsFor "button" (pyOr none none) = { tag := some "button" } := by
      decide +kernel
    exact hread
  have hhealed : (proposeFrom sameText anyTask.hints
      ([⟨"button", longId, [], ""⟩, ⟨"button", "tid-1", [], ""⟩].map
        Node.element)).healedSelector = some (attrSelector "data-testid" longId) := by
    rw [hhints, List.map_cons, proposeFrom_onlyTag_first sameText ⟨rfl, rfl, rfl, rfl⟩ ⟨rfl, rfl⟩,
      toSelector_element]
  refine ⟨_, record_heuristic (heuristicOnly_heuristicEnv (pageEngine longSteps)) hdrift hparse, ?_⟩
  rw [(result_healedRecord _ _ _ _).2]
  exact hhealed

end AegisPlatform.Workers
