import AegisPlatform.Healing.Llm
import AegisPlatform.Workers.HeuristicRuns

/-! # An LLM never makes a run worse

Two executions of one run: with the heuristic alone, and with Claude behind it, over a provider
that does anything. The healer of the second carries its breaker and the world from one drifted step
to the next; `answersOf` is the sequence of its answers as the executor meets them.
-/

namespace AegisPlatform.Workers
open Foundations Domain Core Db Healing
set_option autoImplicit false
set_option maxHeartbeats 250000

section
variable [Unicode] {σ : Type}

/-- The state of the healer when the step at `position` asks: the drifted steps before it have
asked in their order, and the world has moved on by `elapse` before each of them. -/
def healerBefore (heal : HealCall → σ → Outcome String HealingProposal × σ) (elapse : ℕ → σ → σ)
    (start : σ) (ts : List Task) (position : ℕ) : σ :=
  elapse position ((ts.take position).foldl
    (fun s t => if t.drifted then (heal (healCall t.page t.step) (elapse t.position s)).2 else s)
    start)

def answersOf (heal : HealCall → σ → Outcome String HealingProposal × σ) (elapse : ℕ → σ → σ)
    (start : σ) (ts : List Task) : ℕ → HealCall → Except Raised HealingProposal :=
  fun position call => answered (heal call (healerBefore heal elapse start ts position)).1

end

/-- The record of a step with the LLM, next to its record without. -/
structure NoWorse (without withLlm : StepRecord) : Prop where
  passed : withLlm.result.status = .passed ↔ without.result.status = .passed
  healed : without.result.status = .healed → withLlm.result.status = .healed ∧
    ∃ e e', without.event = some e ∧ withLlm.event = some e' ∧ e.confidence ≤ e'.confidence
  failed : withLlm.result.status = .failed → without.result.status = .failed
  accepted : ∀ e, without.event = some e → e.accepted = some true → withLlm = without

section
variable [Unicode] {W : Type}

def SelfHealingEngine.asked {σ : Type} (engine : SelfHealingEngine) (llm : HealingLLM σ) :
    HealCall → σ → Outcome String HealingProposal × σ :=
  fun call s => engine.heal llm call.originalSelector call.html call.context s

/-- With Claude, the engine answers with the heuristic's proposal if that is confident enough, and
otherwise with a combination of it. -/
theorem asked_claude (engine : SelfHealingEngine) (claude : Claude W) (call : HealCall)
    (s : CircuitBreaker ℚ × W) {heuristic : HealingProposal}
    (h : propose engine.sim engine.findAll call.originalSelector call.html call.context =
      .ok heuristic) :
    ∃ best, (SelfHealingEngine.asked engine claude.healingLLM call s).1 = .returned best ∧
      (heuristic.confidence ≥ engine.minConfidence → best = heuristic) ∧
      (heuristic.healedSelector.isSome → best.healedSelector.isSome ∧
        heuristic.confidence ≤ best.confidence) := by
  unfold SelfHealingEngine.asked SelfHealingEngine.heal
  rw [h]
  dsimp only
  by_cases hconfident : heuristic.confidence ≥ engine.minConfidence
  · rw [if_pos hconfident]
    exact ⟨heuristic, rfl, fun _ => rfl, fun hhealed => ⟨hhealed, le_refl _⟩⟩
  · rw [if_neg hconfident]
    obtain ⟨proposal, hproposal⟩ := claude.claude_returns call.originalSelector call.html
      call.context s
    generalize claude.healingLLM.propose call.originalSelector call.html call.context s = reply
      at hproposal ⊢
    obtain ⟨outcome, s'⟩ := reply
    dsimp only at hproposal
    subst hproposal
    refine ⟨combine heuristic proposal, rfl, fun habove => absurd habove hconfident, ?_⟩
    exact combine_no_worse heuristic proposal

variable {engine : SelfHealingEngine} {claude : Claude W} {env env' : Env} {runId : Uuid} {t : Task}
  {elapse : ℕ → CircuitBreaker ℚ × W → CircuitBreaker ℚ × W} {start : CircuitBreaker ℚ × W}
  {ts : List Task}

/-- Two records of healings of one step, the second no worse than the first. -/
theorem noWorse_healed (hmin : env'.minConfidence = env.minConfidence)
    (hhash : env'.snapshotHash = env.snapshotHash) {heuristic best : HealingProposal}
    (hsame : heuristic.confidence ≥ env.minConfidence → best = heuristic)
    (hbetter : heuristic.healedSelector.isSome → best.healedSelector.isSome ∧
      heuristic.confidence ≤ best.confidence) :
    NoWorse (healedRecord env runId t heuristic) (healedRecord env' runId t best) := by
  have hstatus := (result_healedRecord env runId t heuristic).1
  have hstatus' := (result_healedRecord env' runId t best).1
  constructor
  case passed =>
    rw [hstatus, hstatus']
    cases heuristic.healedSelector with
    | none => cases best.healedSelector <;> simp
    | some selector => cases best.healedSelector <;> simp
  case healed =>
    intro hhealed
    have hsome : heuristic.healedSelector.isSome := by
      by_contra hnone
      rw [hstatus, if_neg hnone] at hhealed
      cases hhealed
    obtain ⟨hsome', hle⟩ := hbetter hsome
    rw [hstatus', if_pos hsome']
    exact ⟨rfl, _, _, rfl, rfl, hle⟩
  case failed =>
    intro hfailed
    have hnone : ¬ heuristic.healedSelector.isSome := by
      intro hsome
      rw [hstatus', if_pos (hbetter hsome).1] at hfailed
      cases hfailed
    rw [hstatus, if_neg hnone]
  case accepted =>
    intro e he haccepted
    obtain rfl := Option.some.inj he
    have habove : heuristic.confidence ≥ env.minConfidence := by
      by_contra hbelow
      simp [healingEvent, hbelow] at haccepted
    have hevent : healingEvent env' runId t heuristic = healingEvent env runId t heuristic := by
      unfold healingEvent
      rw [hmin, hhash]
    rw [hsame habove]
    unfold healedRecord
    rw [hevent]

/-- What the heuristic records, the engine with Claude records no worse. -/
theorem record_noWorse (ho : HeuristicOnly engine env)
    (hheal : env'.heal = answersOf (SelfHealingEngine.asked engine claude.healingLLM) elapse start ts)
    (hmin : env'.minConfidence = env.minConfidence)
    (hhash : env'.snapshotHash = env.snapshotHash) {r : StepRecord}
    (hr : record env runId t = .ok r) :
    ∃ r', record env' runId t = .ok r' ∧ NoWorse r r' := by
  rcases record_ok_iff.mp hr with ⟨hdrift, heuristic, hproposed, rfl⟩ | ⟨hclean, rfl⟩
  · rw [ho.heal, heal_null] at hproposed
    cases hpropose : propose engine.sim engine.findAll (healCall t.page t.step).originalSelector
        (healCall t.page t.step).html (healCall t.page t.step).context with
    | error message => simp [hpropose, answered] at hproposed
    | ok found =>
      simp only [hpropose, answered, Except.ok.injEq] at hproposed
      subst hproposed
      obtain ⟨best, hbest, hsame, hbetter⟩ := asked_claude engine claude (healCall t.page t.step)
        (healerBefore (SelfHealingEngine.asked engine claude.healingLLM) elapse start ts t.position)
        hpropose
      have hanswer : env'.heal t.position (healCall t.page t.step) = .ok best := by
        rw [hheal]
        unfold answersOf
        rw [hbest]
        rfl
      exact ⟨_, record_ok_iff.mpr (Or.inl ⟨hdrift, best, hanswer, rfl⟩),
        noWorse_healed hmin hhash (ho.minConfidence ▸ hsame) hbetter⟩
  · refine ⟨_, record_ok_iff.mpr (Or.inr ⟨hclean, rfl⟩), ?_⟩
    constructor
    case passed => exact Iff.rfl
    case healed => exact fun h => by cases h
    case failed => exact fun h => by cases h
    case accepted => exact fun e he => by cases he

omit [Unicode] in
theorem countOf_failed_le {rs rs' : List StepRecord} (h : List.Forall₂ NoWorse rs rs') :
    countOf .failed (rs'.map StepRecord.result) ≤ countOf .failed (rs.map StepRecord.result) := by
  unfold countOf
  induction h with
  | nil => exact le_refl _
  | @cons r r' rs rs' hr _ ih =>
    simp only [List.map_cons, List.countP_cons, decide_eq_true_eq]
    by_cases hfailed : r'.result.status = .failed
    · rw [if_pos hfailed, if_pos (hr.failed hfailed)]
      omega
    · rw [if_neg hfailed]
      omega

omit [Unicode] in
/-- Two lists of records of the same tasks, task by task. -/
theorem forall₂_common {R S : Task → StepRecord → Prop} {Q : StepRecord → StepRecord → Prop}
    (hQ : ∀ t r r', R t r → S t r' → Q r r') {ts : List Task} {rs rs' : List StepRecord}
    (h : List.Forall₂ R ts rs) (h' : List.Forall₂ S ts rs') : List.Forall₂ Q rs rs' := by
  induction h generalizing rs' with
  | nil =>
    obtain rfl := List.forall₂_nil_left_iff.mp h'
    exact .nil
  | cons hr _ ih =>
    obtain ⟨r', rest, hr', hrest, rfl⟩ := List.forall₂_cons_left_iff.mp h'
    exact .cons (hQ _ _ _ hr hr') (ih hrest)

/-- The heuristic is never cancelled. -/
theorem HeuristicOnly.not_cancelled (ho : HeuristicOnly engine env) (k : ℕ) (call : HealCall) :
    env.heal k call ≠ .error .cancelled := by
  rw [ho.heal, heal_null]
  cases propose engine.sim engine.findAll call.originalSelector call.html call.context with
  | error message => exact nofun
  | ok heuristic => exact nofun

variable {w : World} {run : TestRun} {suite : TestSuite} {cases : List TestCase}

/-- If the run without the LLM does not end in ERROR, the run with it is no worse, step by step:
healing never raises, nothing that passed or was healed is lost, what was accepted is the same. -/
theorem llm_never_worse (hfound : Found w runId run suite cases) (haccepting : Accepting env)
    (haccepting' : Accepting env') (ho : HeuristicOnly engine env)
    (hheal : env'.heal =
      answersOf (SelfHealingEngine.asked engine claude.healingLLM) elapse start (tasks 0 cases))
    (hmin : env'.minConfidence = env.minConfidence)
    (hhash : env'.snapshotHash = env.snapshotHash)
    (hnot : ∀ run', (executeRun env runId w).1.db.runs.get? runId = some run' →
      run'.status ≠ .error) :
    (∀ t ∈ tasks 0 cases, t.drifted = true →
      ∃ proposal, env'.heal t.position (healCall t.page t.step) = .ok proposal) ∧
    ∃ run₁ run₂ rs rs', Recorded runId w (executeRun env runId w).1 run₁ rs ∧
      Recorded runId w (executeRun env' runId w).1 run₂ rs' ∧ List.Forall₂ NoWorse rs rs' ∧
      run₂.failedCount ≤ run₁.failedCount ∧ run₂.status ≠ .error := by
  obtain ⟨hvalid, hrecord⟩ := recorded_of_not_error hfound haccepting ho.not_cancelled hnot
  have hpair : ∀ t ∈ tasks 0 cases, ∃ r, record env runId t = .ok r ∧
      ∃ r', record env' runId t = .ok r' ∧ NoWorse r r' := by
    intro t ht
    obtain ⟨r, hr⟩ := hrecord t ht
    exact ⟨r, hr, record_noWorse ho hheal hmin hhash hr⟩
  have hpair' : ∀ t ∈ tasks 0 cases, ∃ r', record env' runId t = .ok r' ∧ True := by
    intro t ht
    obtain ⟨-, -, r', hr', -⟩ := hpair t ht
    exact ⟨r', hr', trivial⟩
  constructor
  · intro t ht hdrift
    obtain ⟨r', hr', -⟩ := hpair' t ht
    rcases record_ok_iff.mp hr' with ⟨-, proposal, hheals, -⟩ | ⟨hclean, -⟩
    · exact ⟨proposal, hheals⟩
    · rw [hdrift] at hclean
      cases hclean
  · obtain ⟨run₁, rs, hrecorded, hrs⟩ := executeRun_forall hfound haccepting hvalid hpair
    obtain ⟨run₂, rs', hrecorded', hrs'⟩ := executeRun_forall hfound haccepting' hvalid hpair'
    have hnoWorse : List.Forall₂ NoWorse rs rs' := by
      refine forall₂_common ?_ hrs hrs'
      rintro t r r' ⟨-, r₁, hr₁, hle⟩ ⟨hr', -⟩
      rw [hr₁] at hr'
      exact Except.ok.inj hr' ▸ hle
    refine ⟨run₁, run₂, rs, rs', hrecorded, hrecorded', hnoWorse, ?_, ?_⟩
    · rw [hrecorded.failed, hrecorded'.failed]
      exact countOf_failed_le hnoWorse
    · rw [hrecorded'.status]
      split
      · exact nofun
      · exact nofun

end

/-- A provider that does not answer in time and then answers with JSON that is no object. -/
def strangeClaude : Claude ℚ where
  create := fun _ now =>
    if now < 8 then (.timedOut, now + 8)
    else (.message { stopReason := some "end_turn", content := [⟨"text", "null"⟩] }, now + 1)
  clock := id
  json :=
    { loads := fun s => if s = "null" then some .null else none
      float := fun value => match value with
        | .num q => some q
        | _ => none
      str := fun value => match value with
        | .null => "None"
        | _ => "" }
  timeoutSeconds := 8

def strangeEnv [Unicode] : Env :=
  { heuristicEnv (pageEngine twinSteps) with
    heal := answersOf (SelfHealingEngine.asked (pageEngine twinSteps) strangeClaude.healingLLM)
      (fun _ s => s) (Claude.newBreaker, 0) (tasks 0 [stepsCase twinSteps]) }

theorem twins_never_worse :
    let _ : Unicode := asciiUnicode
    (∀ t ∈ tasks 0 [stepsCase twinSteps], t.drifted = true →
      ∃ proposal, strangeEnv.heal t.position (healCall t.page t.step) = .ok proposal) ∧
    ∃ run₁ run₂ rs rs', Recorded 0 (stepsWorld twinSteps)
        (executeRun (heuristicEnv (pageEngine twinSteps)) 0 (stepsWorld twinSteps)).1 run₁ rs ∧
      Recorded 0 (stepsWorld twinSteps) (executeRun strangeEnv 0 (stepsWorld twinSteps)).1
        run₂ rs' ∧
      List.Forall₂ NoWorse rs rs' ∧ run₂.failedCount ≤ run₁.failedCount ∧
        run₂.status ≠ .error := by
  intro _
  have hpassed : ((executeRun (heuristicEnv (pageEngine twinSteps)) 0
      (stepsWorld twinSteps)).1.db.runs.get? 0).map TestRun.status = some .passed := by
    decide +kernel
  have haccepting := accepting_heuristicEnv (pageEngine twinSteps)
  have haccepting' : Accepting strangeEnv :=
    ⟨⟨rfl, nofun, rfl⟩, fun _ => rfl, fun _ => nofun, rfl⟩
  have hheal : strangeEnv.heal =
      answersOf (SelfHealingEngine.asked (pageEngine twinSteps) strangeClaude.healingLLM)
        (fun _ s => s) (Claude.newBreaker, 0) (tasks 0 [stepsCase twinSteps]) := rfl
  refine llm_never_worse (stepsWorld_found twinSteps) haccepting haccepting'
    (heuristicOnly_heuristicEnv (pageEngine twinSteps)) hheal rfl rfl ?_
  intro run' hrun'
  rw [hrun', Option.map_some, Option.some.injEq] at hpassed
  rw [hpassed]
  exact nofun

end AegisPlatform.Workers
