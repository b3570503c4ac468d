import AegisPlatform.Workers.Executor

/-! # What the loop records

The loop of `execute_run` seen from outside: it turns the steps of a run, each in its place, into
records, one after the other. A record is the `StepResult` of a step with the `HealingEvent` the
step left, if it drifted. The counters, the two tables and the event stream are all read off the
list of records; `executeStep_eq` connects this to the code, and the rest of the development
reasons about records only.
-/

namespace AegisPlatform.Workers
open Foundations Domain Db
set_option autoImplicit false
set_option maxHeartbeats 250000

/-- A step in its place: at `position` in the run and at `index` in its case. -/
structure Task where
  position : ℕ
  case : TestCase
  page : String
  index : ℕ
  step : StepSpec

structure StepRecord where
  result : StepResult
  event : Option HealingEvent

/-! ## Records and the locals of the loop -/

def bump (status counted : StepStatus) : ℕ := if status = counted then 1 else 0

namespace Progress

/-- The counters and the healing event are set before the row is flushed. -/
def judged (p : Progress) (r : StepRecord) : Progress :=
  { p with
    passed := p.passed + bump r.result.status .passed
    failed := p.failed + bump r.result.status .failed
    healed := p.healed + bump r.result.status .healed
    healingEvents := p.healingEvents ++ r.event.toList }

def flushed (p : Progress) (r : StepRecord) : Progress :=
  { p.judged r with results := p.results ++ [r.result] }

def push (p : Progress) (r : StepRecord) : Progress :=
  { p.flushed r with published := p.published ++ [stepCompleted r.result] }

@[simp] theorem results_judged (p : Progress) (r : StepRecord) :
    (p.judged r).results = p.results := rfl

@[simp] theorem results_flushed (p : Progress) (r : StepRecord) :
    (p.flushed r).results = p.results ++ [r.result] := rfl

@[simp] theorem results_push (p : Progress) (r : StepRecord) :
    (p.push r).results = p.results ++ [r.result] := rfl

/-- The locals after an undisturbed loop over the steps recorded in `rs`. -/
def pushAll (p : Progress) (rs : List StepRecord) : Progress := rs.foldl push p

@[simp] theorem pushAll_nil (p : Progress) : p.pushAll [] = p := rfl

@[simp] theorem pushAll_cons (p : Progress) (r : StepRecord) (rs : List StepRecord) :
    p.pushAll (r :: rs) = (p.push r).pushAll rs := rfl

theorem pushAll_append (p : Progress) (rs ss : List StepRecord) :
    p.pushAll (rs ++ ss) = (p.pushAll rs).pushAll ss :=
  List.foldl_append

end Progress

def countOf (status : StepStatus) (results : List StepResult) : ℕ :=
  results.countP fun r => r.status = status

theorem countOf_sum (rs : List StepResult) (h : ∀ r ∈ rs, r.status ≠ .skipped) :
    countOf .passed rs + countOf .failed rs + countOf .healed rs = rs.length := by
  induction rs with
  | nil => rfl
  | cons r rs ih =>
    have hrest := ih fun r' hr' => h r' (List.mem_cons_of_mem r hr')
    have hr := h r List.mem_cons_self
    simp only [countOf, List.countP_cons, decide_eq_true_eq, List.length_cons] at hrest ⊢
    cases hs : r.status with
    | skipped => exact absurd hs hr
    | passed =>
      simp only [if_true, reduceCtorEq, if_false]
      omega
    | failed =>
      simp only [if_true, reduceCtorEq, if_false]
      omega
    | healed =>
      simp only [if_true, reduceCtorEq, if_false]
      omega

theorem countOf_eq_zero (status : StepStatus) (rs : List StepResult) :
    countOf status rs = 0 ↔ ∀ r ∈ rs, r.status ≠ status := by
  simp [countOf, List.countP_eq_zero]

/-- The counters, tables and events the loop has after `rs` are those of `rs`. -/
theorem pushAll_eq (p : Progress) (rs : List StepRecord) :
    p.pushAll rs =
      { passed := p.passed + countOf .passed (rs.map StepRecord.result)
        failed := p.failed + countOf .failed (rs.map StepRecord.result)
        healed := p.healed + countOf .healed (rs.map StepRecord.result)
        results := p.results ++ rs.map StepRecord.result
        healingEvents := p.healingEvents ++ rs.filterMap StepRecord.event
        published := p.published ++ rs.map fun r => stepCompleted r.result } := by
  induction rs generalizing p with
  | nil => simp [countOf]
  | cons r rs ih =>
    rw [Progress.pushAll_cons, ih]
    have hcount : ∀ status, bump r.result.status status +
        countOf status (rs.map StepRecord.result) =
          countOf status ((r :: rs).map StepRecord.result) := by
      intro status
      simp only [bump, countOf, List.map_cons, List.countP_cons, decide_eq_true_eq]
      omega
    have hevent : r.event.toList ++ rs.filterMap StepRecord.event =
        (r :: rs).filterMap StepRecord.event := by
      cases h : r.event with
      | none => simp [h]
      | some e => simp [h]
    simp only [Progress.push, Progress.flushed, Progress.judged, Nat.add_assoc, hcount,
      List.append_assoc, hevent, List.map_cons, List.singleton_append]

/-! ## The record of one step -/

section
variable [Unicode]

def Task.drifted (t : Task) : Bool := (runStep t.step t.index).drifted

/-- The event of a drifted step, in its final form. -/
def healingEvent (env : Env) (runId : Uuid) (t : Task) (proposal : HealingProposal) :
    HealingEvent :=
  { runId := runId
    originalSelector := t.step.selector.getD ""
    healedSelector := proposal.healedSelector
    strategy := proposal.strategy
    confidence := proposal.confidence
    domSnapshotHash := some (env.snapshotHash t.page)
    rationale := some proposal.rationale
    succeeded := proposal.healedSelector.isSome
    accepted :=
      if proposal.healedSelector.isSome ∧ proposal.confidence ≥ env.minConfidence then some true
      else none }

/-- The row of a step judged `status`. -/
def taskResult (runId : Uuid) (t : Task) (status : StepStatus)
    (healedSelector message : Option String := none) : StepResult :=
  { runId := runId
    caseId := some t.case.id
    caseName := t.case.name
    stepIndex := t.index
    action := t.step.action
    status := status
    originalSelector := t.step.selector
    healedSelector := healedSelector
    message := message
    durationMs := (runStep t.step t.index).durationMs }

def healedRecord (env : Env) (runId : Uuid) (t : Task) (proposal : HealingProposal) :
    StepRecord :=
  { event := some (healingEvent env runId t proposal)
    result :=
      match proposal.healedSelector with
      | some selector =>
        taskResult runId t .healed (some selector)
          (some ("Healed via " ++ proposal.strategy.value ++ ": " ++ proposal.rationale))
      | none => taskResult runId t .failed none (some "Selector drifted and could not be healed.") }

def record (env : Env) (runId : Uuid) (t : Task) : Except Raised StepRecord :=
  if t.drifted then
    match env.heal t.position (healCall t.page t.step) with
    | .error raised => .error raised
    | .ok proposal => .ok (healedRecord env runId t proposal)
  else .ok { result := taskResult runId t .passed, event := none }

theorem healStep_eq (env : Env) (runId : Uuid) (t : Task) (proposal : HealingProposal)
    (p : Progress) :
    (healStep env runId t.page t.step proposal p).progress =
        p.judged (healedRecord env runId t proposal) ∧
      stepResult runId t.case t.index t.step (healStep env runId t.page t.step proposal p) =
        (healedRecord env runId t proposal).result := by
  cases h : proposal.healedSelector with
  | none =>
    simp [healStep, healedRecord, h, Progress.judged, bump, taskResult, stepResult, healingEvent]
  | some selector =>
    simp [healStep, healedRecord, h, Progress.judged, bump, taskResult, stepResult, healingEvent]

/-- The branches of a step, in the words of records. -/
theorem judgeStep_eq (env : Env) (runId : Uuid) (t : Task) (p : Progress)
    (hp : t.position = p.results.length) :
    match record env runId t with
    | .error raised => judgeStep env runId t.page t.index t.step p = .error raised
    | .ok r => ∃ v, judgeStep env runId t.page t.index t.step p = .ok v ∧
        v.progress = p.judged r ∧ stepResult runId t.case t.index t.step v = r.result := by
  have hclean := runStep_clean t.step t.index
  unfold record judgeStep Task.drifted
  rw [hp]
  cases hd : (runStep t.step t.index).drifted with
  | true =>
    cases hh : env.heal p.results.length (healCall t.page t.step) with
    | error raised => simp only [hd, if_true]
    | ok proposal =>
      have hstep := healStep_eq env runId t proposal p
      simp only [hd, if_true]
      exact ⟨_, rfl, hstep⟩
  | false =>
    rw [hd] at hclean
    simp only [hd, hclean, Bool.not_false, if_true, Bool.false_eq_true, if_false]
    refine ⟨_, rfl, ?_, rfl⟩
    simp [Progress.judged, bump, taskResult]

/-- Everything a step of the loop can do. -/
theorem executeStep_eq (env : Env) (runId : Uuid) (t : Task) (p : Progress)
    (hp : t.position = p.results.length) :
    executeStep env runId t.case t.page t.index t.step p =
      match record env runId t with
      | .error raised => .error ⟨p, raised, true⟩
      | .ok r =>
        match env.faults.flush t.position with
        | some raised => .error ⟨p.judged r, raised, false⟩
        | none =>
          match env.faults.publishStep t.position with
          | some .cancelled => .error ⟨p.flushed r, .cancelled, true⟩
          | some (.exception _) => .ok (p.flushed r)
          | none => .ok (p.push r) := by
  have hjudge := judgeStep_eq env runId t p hp
  unfold executeStep
  cases hr : record env runId t with
  | error raised =>
    rw [hr] at hjudge
    simp only at hjudge
    simp only [hjudge]
  | ok r =>
    rw [hr] at hjudge
    obtain ⟨v, hv, hprogress, hresult⟩ := hjudge
    simp only [hv, hprogress, hresult, ← hp]
    rfl

/-! ## Where a record comes from -/

variable {env : Env} {runId : Uuid} {t : Task} {r : StepRecord}

/-- A drifted step is recorded with the answer of the healer, any other as passed. -/
theorem record_ok_iff :
    record env runId t = .ok r ↔
      (t.drifted = true ∧ ∃ proposal, env.heal t.position (healCall t.page t.step) = .ok proposal ∧
        r = healedRecord env runId t proposal) ∨
      (t.drifted = false ∧ r = { result := taskResult runId t .passed, event := none }) := by
  unfold record
  by_cases hdrift : t.drifted = true
  · rw [if_pos hdrift]
    cases env.heal t.position (healCall t.page t.step) with
    | error raised => simp [hdrift]
    | ok proposal => simp [hdrift, eq_comm]
  · rw [if_neg hdrift]
    simp [hdrift, eq_comm]

theorem record_clean (hdrift : t.drifted ≠ true) :
    record env runId t = .ok { result := taskResult runId t .passed, event := none } :=
  record_ok_iff.mpr (Or.inr ⟨by simpa using hdrift, rfl⟩)

theorem record_place (h : record env runId t = .ok r) :
    r.result.runId = runId ∧ r.result.caseId = some t.case.id ∧ r.result.caseName = t.case.name ∧
      r.result.stepIndex = t.index ∧ r.result.action = t.step.action ∧
      r.result.originalSelector = t.step.selector := by
  rcases record_ok_iff.mp h with ⟨-, proposal, -, rfl⟩ | ⟨-, rfl⟩
  · unfold healedRecord taskResult
    cases proposal.healedSelector with
    | none => exact ⟨rfl, rfl, rfl, rfl, rfl, rfl⟩
    | some selector => exact ⟨rfl, rfl, rfl, rfl, rfl, rfl⟩
  · exact ⟨rfl, rfl, rfl, rfl, rfl, rfl⟩

/-- No step is ever recorded as SKIPPED. -/
theorem record_status (h : record env runId t = .ok r) : r.result.status ≠ .skipped := by
  rcases record_ok_iff.mp h with ⟨-, proposal, -, rfl⟩ | ⟨-, rfl⟩
  · unfold healedRecord taskResult
    cases proposal.healedSelector with
    | none => exact StepStatus.noConfusion
    | some selector => exact StepStatus.noConfusion
  · exact StepStatus.noConfusion

/-- A record has an event exactly if its step drifted. -/
theorem event_isSome (h : record env runId t = .ok r) : r.event.isSome = t.drifted := by
  rcases record_ok_iff.mp h with ⟨hdrift, proposal, -, rfl⟩ | ⟨hclean, rfl⟩
  · exact hdrift.symm
  · exact hclean.symm

/-- The event of a record is that of the healer's answer. -/
theorem record_event (h : record env runId t = .ok r) {e : HealingEvent} (he : r.event = some e) :
    ∃ proposal, env.heal t.position (healCall t.page t.step) = .ok proposal ∧
      e = healingEvent env runId t proposal := by
  rcases record_ok_iff.mp h with ⟨-, proposal, hheal, rfl⟩ | ⟨-, rfl⟩
  · exact ⟨proposal, hheal, (Option.some.inj he).symm⟩
  · cases he

end

end AegisPlatform.Workers
