import AegisPlatform.Workers.Degradation

/-! # Provider calls of one worker process

Every `execute_run` makes a `SelfHealingEngine` of its own, and with it a `ClaudeHealingLLM` and a
breaker. A process executes any number of runs, their healings one after the other in any order.
Two histories of completed provider calls are kept that the code does not have: of the process and
of each run.

The breaker of a run knows only what that run has seen. So the provider is spared exactly while the
failures that should spare it are failures of the run that asks.
-/

namespace AegisPlatform.Workers
open Foundations Domain Core Db Healing Completion
set_option autoImplicit false
set_option maxHeartbeats 250000

/-- A run in execution: the breaker of its engine, and its completed provider calls. -/
structure ActiveRun where
  breaker : CircuitBreaker ℚ := Claude.newBreaker
  history : List (Completion ℚ) := []
deriving DecidableEq

structure WorkerProcess (W : Type) where
  world : W
  runs : List ActiveRun := []
  history : List (Completion ℚ) := []
deriving DecidableEq

inductive ProcessAction (W : Type)
  | executeRun
  | heal (run : ℕ) (call : HealCall)
  | elapse (world : W)

section
variable [Unicode] {W : Type}

/-- The heuristic finds a proposal and is not confident enough of it. -/
def SelfHealingEngine.consults (engine : SelfHealingEngine) (call : HealCall) : Bool :=
  match propose engine.sim engine.findAll call.originalSelector call.html call.context with
  | .error _ => false
  | .ok heuristic => !decide (heuristic.confidence ≥ engine.minConfidence)

def HealCall.prompt (call : HealCall) : String :=
  Claude.prompt call.originalSelector call.html call.context

/-- What the breaker makes of the call of the provider within a healing, if there is one. -/
def consultation (engine : SelfHealingEngine) (claude : Claude W) (call : HealCall)
    (s : CircuitBreaker ℚ × W) : Option (CallResult LlmError (Option HealingProposal)) :=
  if SelfHealingEngine.consults engine call then some (claude.ask call.prompt s).1 else none

/-- A healing moves breaker and world exactly by its call of the provider. -/
theorem asked_snd (engine : SelfHealingEngine) (claude : Claude W) (call : HealCall)
    (s : CircuitBreaker ℚ × W) :
    (SelfHealingEngine.asked engine claude.healingLLM call s).2 =
      if SelfHealingEngine.consults engine call then (claude.ask call.prompt s).2 else s := by
  unfold SelfHealingEngine.asked SelfHealingEngine.heal SelfHealingEngine.consults
  cases propose engine.sim engine.findAll call.originalSelector call.html call.context with
  | error message => rfl
  | ok heuristic =>
    dsimp only
    by_cases hconfident : heuristic.confidence ≥ engine.minConfidence
    · rw [if_pos hconfident]
      simp [hconfident]
    · rw [if_neg hconfident]
      obtain ⟨proposal, hproposal⟩ := claude.claude_returns call.originalSelector call.html
        call.context s
      have hstate : (claude.healingLLM.propose call.originalSelector call.html call.context s).2 =
          (claude.ask call.prompt s).2 := rfl
      rw [← hstate]
      generalize claude.healingLLM.propose call.originalSelector call.html call.context s = reply
        at hproposal ⊢
      obtain ⟨outcome, s'⟩ := reply
      dsimp only at hproposal
      subst hproposal
      simp [hconfident]

/-! ## The process -/

namespace WorkerProcess

def heal (engine : SelfHealingEngine) (claude : Claude W) (p : WorkerProcess W) (i : ℕ)
    (call : HealCall) (run : ActiveRun) : WorkerProcess W :=
  let s := (SelfHealingEngine.asked engine claude.healingLLM call (run.breaker, p.world)).2
  let completed := match consultation engine claude call (run.breaker, p.world) with
    | none => []
    | some result => ofResult (claude.clock s.2) result
  { world := s.2
    runs := p.runs.set i { breaker := s.1, history := completed ++ run.history }
    history := completed ++ p.history }

/-- The clock never goes back. -/
def next (engine : SelfHealingEngine) (claude : Claude W) (p : WorkerProcess W) :
    ProcessAction W → Option (WorkerProcess W)
  | .executeRun => some { p with runs := p.runs ++ [{}] }
  | .heal i call =>
    match p.runs[i]? with
    | none => none
    | some run =>
      let p' := p.heal engine claude i call run
      if claude.clock p.world ≤ claude.clock p'.world then some p' else none
  | .elapse world =>
    if claude.clock p.world ≤ claude.clock world then some { p with world := world } else none

/-- What a run sees of the process: its breaker used by one caller at a time. -/
def session (p : WorkerProcess W) (run : ActiveRun) : Session ℚ W :=
  ⟨run.breaker, p.world, run.history⟩

/-- Every run's breaker tracks the calls of that run. -/
def Inv (claude : Claude W) (p : WorkerProcess W) : Prop :=
  ∀ (i : ℕ) run, p.runs[i]? = some run →
    Session.Inv claude.clock "claude-healing" 4 30 (p.session run)

/-- The time the process has reached. -/
def now (claude : Claude W) (p : WorkerProcess W) : ℚ := claude.clock p.world

/-- A healing starts a call of the provider. -/
def Starts (engine : SelfHealingEngine) (claude : Claude W) (p : WorkerProcess W) (call : HealCall)
    (run : ActiveRun) : Prop :=
  ∃ outcome, consultation engine claude call (run.breaker, p.world) = some (.completed outcome)

/-- No call is started less than 30 seconds after the last of four or more consecutive failures
of the process. -/
def Protected (engine : SelfHealingEngine) (claude : Claude W) (p : WorkerProcess W) :
    ProcessAction W → Prop
  | .heal i call => ∀ run, p.runs[i]? = some run →
      Tripped 4 30 p.history (p.now claude) → ¬ Starts engine claude p call run
  | _ => True

/-- When the provider calls of the process end in four or more failures, the last less than 30
seconds ago, so do those of the run that asks. -/
def Covered (engine : SelfHealingEngine) (claude : Claude W) (p : WorkerProcess W) :
    ProcessAction W → Prop
  | .heal i call => ∀ run, p.runs[i]? = some run → SelfHealingEngine.consults engine call = true →
      Tripped 4 30 p.history (p.now claude) → Tripped 4 30 run.history (p.now claude)
  | _ => True

variable {engine : SelfHealingEngine} {claude : Claude W} {p p' : WorkerProcess W}

theorem next_heal {i : ℕ} {call : HealCall} {run : ActiveRun} (hrun : p.runs[i]? = some run) :
    p.next engine claude (.heal i call) =
      if claude.clock p.world ≤ claude.clock (p.heal engine claude i call run).world then
        some (p.heal engine claude i call run) else none := by
  unfold WorkerProcess.next
  simp only [hrun]

theorem heal_session (engine : SelfHealingEngine) (claude : Claude W) (p : WorkerProcess W) (i : ℕ)
    (call : HealCall) (run : ActiveRun) :
    ∃ run', (p.heal engine claude i call run).runs = p.runs.set i run' ∧
      (p.heal engine claude i call run).session run' =
        if SelfHealingEngine.consults engine call then
          (p.session run).call claude.clock (claude.invoke call.prompt)
        else p.session run := by
  refine ⟨_, rfl, ?_⟩
  unfold heal session consultation
  rw [asked_snd]
  by_cases hconsults : SelfHealingEngine.consults engine call = true
  · simp only [hconsults, if_true]
    rfl
  · simp only [hconsults, if_false, Bool.false_eq_true, List.nil_append]

omit [Unicode] in
theorem Inv.later (h : Inv claude p) {world : W}
    (hle : claude.clock p.world ≤ claude.clock world) (i : ℕ) (run : ActiveRun)
    (hrun : p.runs[i]? = some run) :
    Session.Inv claude.clock "claude-healing" 4 30 ⟨run.breaker, world, run.history⟩ :=
  ⟨(h i run hrun).config, (h i run hrun).tracks.mono hle⟩

theorem Inv.next {l : ProcessAction W} (h : Inv claude p) (hstep : p.next engine claude l = some p') :
    Inv claude p' := by
  cases l with
  | executeRun =>
    obtain rfl := Option.some.inj hstep
    intro i run hrun
    rcases getElem?_snoc_cases hrun with hold | rfl
    · exact h i run hold
    · exact Session.inv_init (by decide) p.world
  | elapse world =>
    unfold WorkerProcess.next at hstep
    simp only [Option.ite_none_right_eq_some, Option.some.injEq] at hstep
    obtain ⟨hle, rfl⟩ := hstep
    exact h.later hle
  | heal i call =>
    cases hget : p.runs[i]? with
    | none => simp [WorkerProcess.next, hget] at hstep
    | some run =>
      simp only [next_heal hget, Option.ite_none_right_eq_some, Option.some.injEq] at hstep
      obtain ⟨hle, rfl⟩ := hstep
      obtain ⟨run', hruns, hsession⟩ := heal_session engine claude p i call run
      unfold Inv
      rw [hruns]
      refine forall_set (h.later hle) ?_
      show Session.Inv _ _ _ _ (session _ run')
      rw [hsession]
      by_cases hconsults : SelfHealingEngine.consults engine call = true
      · rw [if_pos hconsults]
        refine Session.inv_call (by decide) (h i run hget) _ ?_
        rw [if_pos hconsults] at hsession
        rw [← hsession]
        exact hle
      · rw [if_neg hconsults]
        exact h i run hget

/-- A run calls the provider unless the failures it has seen itself keep it from it. -/
theorem starts_iff (engine : SelfHealingEngine) (call : HealCall) {run : ActiveRun}
    (h : Session.Inv claude.clock "claude-healing" 4 30 (p.session run)) :
    Starts engine claude p call run ↔ SelfHealingEngine.consults engine call = true ∧
      ¬ Tripped 4 30 run.history (p.now claude) := by
  obtain ⟨-, hrest⟩ := Prod.mk.inj h.config
  obtain ⟨hlimit, hreset⟩ := Prod.mk.inj hrest
  have hopened := h.tracks.opened_iff (by rw [hlimit]; decide)
  rw [hlimit, hreset] at hopened
  have hopened' : (run.breaker.maybeHalfOpen (claude.clock p.world)).state = .opened ↔
      Tripped 4 30 run.history (p.now claude) := hopened
  unfold Starts consultation Claude.ask
  rw [← hopened']
  by_cases hconsults : SelfHealingEngine.consults engine call = true
  · rw [if_pos hconsults]
    by_cases hopen : (run.breaker.maybeHalfOpen (claude.clock p.world)).state = .opened
    · rw [CircuitBreaker.call_opened _ hopen]
      simp [hopen]
    · rw [CircuitBreaker.call_admitted _ hopen]
      simp [hopen, hconsults]
  · simp [hconsults]

theorem protected_iff (h : Inv claude p) (l : ProcessAction W) :
    Protected engine claude p l ↔ Covered engine claude p l := by
  cases l with
  | executeRun => exact Iff.rfl
  | elapse world => exact Iff.rfl
  | heal i call =>
    have hstarts := fun run (hrun : p.runs[i]? = some run) =>
      starts_iff engine call (h i run hrun)
    constructor
    · intro hprotected run hrun hconsults htripped
      by_contra hnot
      exact hprotected run hrun htripped ((hstarts run hrun).mpr ⟨hconsults, hnot⟩)
    · intro hcovered run hrun htripped hstart
      obtain ⟨hconsults, hnot⟩ := (hstarts run hrun).mp hstart
      exact hnot (hcovered run hrun hconsults htripped)

end WorkerProcess

open WorkerProcess

variable {engine : SelfHealingEngine} {claude : Claude W}

/-- A process starts no call of the provider within 30 seconds of the last of four consecutive
failures if and only if, whenever it asks that soon, the run that asks has seen those failures. -/
theorem provider_protected_iff (w₀ : W) (ls : List (ProcessAction W)) (p : WorkerProcess W) :
    Run (Under (Protected engine claude) (ofNext (next engine claude))) { world := w₀ } ls p ↔
      Run (Under (Covered engine claude) (ofNext (next engine claude))) { world := w₀ } ls p := by
  have hempty : Inv claude ({ world := w₀ } : WorkerProcess W) := fun i run hrun => by
    simp at hrun
  have hkeep : ∀ q l q', Inv claude q → ofNext (next engine claude) q l q' → Inv claude q' :=
    fun q l q' hq hstep => hq.next hstep
  constructor
  · exact Run.under_congr hkeep (fun q l hq => protected_iff hq l) hempty
  · exact Run.under_congr hkeep (fun q l hq => (protected_iff hq l).symm) hempty

/-! ## Executions as parts of the process -/

theorem clock_asked
    (hcreate : ∀ prompt w, claude.clock w ≤ claude.clock (claude.create prompt w).2)
    (call : HealCall) (s : CircuitBreaker ℚ × W) : claude.clock s.2 ≤
      claude.clock (SelfHealingEngine.asked engine claude.healingLLM call s).2.2 := by
  rw [asked_snd]
  by_cases hconsults : SelfHealingEngine.consults engine call = true
  · rw [if_pos hconsults]
    unfold Claude.ask
    by_cases hopen : (s.1.maybeHalfOpen (claude.clock s.2)).state = .opened
    · rw [CircuitBreaker.call_opened _ hopen]
    · rw [CircuitBreaker.call_admitted _ hopen]
      dsimp only
      rw [claude.invoke_snd]
      exact hcreate call.prompt s.2
  · rw [if_neg hconsults]

/-- The healings of a list of steps, asked by one run after the other. -/
theorem healings_reached (engine : SelfHealingEngine) {p : WorkerProcess W} {i : ℕ} {run : ActiveRun}
    (hcreate : ∀ prompt w, claude.clock w ≤ claude.clock (claude.create prompt w).2)
    {move : ℕ → W → W} (hmove : ∀ k w, claude.clock w ≤ claude.clock (move k w))
    (ts : List Task) (hrun : p.runs[i]? = some run) :
    ∃ ls p' run', Run (ofNext (next engine claude)) p ls p' ∧ p'.runs[i]? = some run' ∧
      (run'.breaker, p'.world) = ts.foldl (fun s t =>
        if t.drifted then (SelfHealingEngine.asked engine claude.healingLLM (healCall t.page t.step)
          (s.1, move t.position s.2)).2 else s) (run.breaker, p.world) := by
  induction ts generalizing p run with
  | nil => exact ⟨[], p, run, Run.nil p, hrun, rfl⟩
  | cons t ts ih =>
    rw [List.foldl_cons]
    by_cases hdrift : t.drifted = true
    · rw [if_pos hdrift]
      let world := move t.position p.world
      let p₁ : WorkerProcess W := { p with world := world }
      let call := healCall t.page t.step
      let p₂ := p₁.heal engine claude i call run
      have helapse : p.next engine claude (.elapse world) = some p₁ :=
        if_pos (hmove t.position p.world)
      have hheal : p₁.next engine claude (.heal i call) = some p₂ := by
        have hget : p₁.runs[i]? = some run := hrun
        rw [next_heal hget]
        exact if_pos (clock_asked hcreate call (run.breaker, world))
      have hi : i < p.runs.length := (List.getElem?_eq_some_iff.mp hrun).1
      obtain ⟨ls, p', run', hrest, hrun', hstate⟩ :=
        ih (p := p₂) (List.getElem?_set_self hi)
      refine ⟨_, p', run', (Run.single helapse).trans ((Run.single hheal).trans hrest), hrun', ?_⟩
      exact hstate
    · rw [if_neg hdrift]
      exact ih hrun

/-- What the healer of an execution has become when it is asked is a state of the process that
starts this run. -/
theorem execution_reached (p : WorkerProcess W)
    (hcreate : ∀ prompt w, claude.clock w ≤ claude.clock (claude.create prompt w).2)
    {move : ℕ → W → W} (hmove : ∀ k w, claude.clock w ≤ claude.clock (move k w))
    (ts : List Task) (position : ℕ) :
    ∃ ls p' run, Run (ofNext (next engine claude)) p (.executeRun :: ls) p' ∧
      p'.runs[p.runs.length]? = some run ∧
      (run.breaker, p'.world) = healerBefore (SelfHealingEngine.asked engine claude.healingLLM)
        (fun k s => (s.1, move k s.2)) (Claude.newBreaker, p.world) ts position := by
  have hstart : p.next engine claude .executeRun = some { p with runs := p.runs ++ [{}] } := rfl
  obtain ⟨ls, p', run, hls, hrun, hstate⟩ := healings_reached engine
    (p := { p with runs := p.runs ++ [{}] }) hcreate hmove (ts.take position)
    (List.getElem?_concat_length)
  let p'' : WorkerProcess W := { p' with world := move position p'.world }
  have helapse : p'.next engine claude (.elapse (move position p'.world)) = some p'' :=
    if_pos (hmove position p'.world)
  refine ⟨ls ++ [.elapse (move position p'.world)], p'', run, ?_, hrun, ?_⟩
  · exact (Run.single hstart).trans (Run.snoc hls helapse)
  · unfold healerBefore
    rw [← hstate]

end

/-! ## An outage -/

open WorkerProcess

/-- Four assertions no selector of a page answers for. -/
def outageSteps : List StepSpec :=
  (List.replicate 4 structuralSteps).flatten

/-- A provider that is down and says so after a second. -/
def deadClaude : Claude ℚ :=
  { strangeClaude with create := fun _ now => (.raised "overloaded", now + 1) }

/-- One execution of the suite, and the start of the next. -/
def outage [Unicode] : List (ProcessAction ℚ) :=
  .executeRun :: (tasks 0 [stepsCase outageSteps]).map (fun t => .heal 0 (healCall t.page t.step)) ++
    [.executeRun]

def afterOutage : WorkerProcess ℚ :=
  { world := 4
    runs := [{ breaker := ⟨"claude-healing", 4, 30, 4, some 4, .opened⟩
               history := [.failure 4, .failure 3, .failure 2, .failure 1] }, {}]
    history := [.failure 4, .failure 3, .failure 2, .failure 1] }

/-- The second run asks the dead provider at once. -/
theorem second_run_counterexample :
    let _ : Unicode := asciiUnicode
    Run (ofNext (next (pageEngine outageSteps) deadClaude)) { world := 0 } outage afterOutage ∧
      ∃ t ∈ tasks 0 [stepsCase outageSteps],
        ¬ Protected (pageEngine outageSteps) deadClaude afterOutage
          (.heal 1 (healCall t.page t.step)) := by
  intro _
  constructor
  · exact exec_run (by decide +kernel)
  · rw [tasks_stepsCase]
    refine ⟨_, List.mem_cons_self, ?_⟩
    intro hprotected
    refine hprotected {} rfl ⟨by decide, 4, rfl, by decide +kernel⟩ ?_
    refine ⟨.raised (.exception "overloaded"), ?_⟩
    unfold consultation
    rw [if_pos (by decide +kernel)]
    rfl

end AegisPlatform.Workers
