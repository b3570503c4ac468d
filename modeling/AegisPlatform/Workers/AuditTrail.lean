import AegisPlatform.Services.AccountService
import AegisPlatform.Workers.Announcements
import AegisPlatform.Workers.Stored

/-! # The audit trail of a run

The healing events of a run are its results that drifted, one for one and inserted in the same
order: the selector it had, the one it was healed to, and whether it was. Both are written by the
one commit that closes the run, so no fault and no other worker comes between them.
-/

namespace AegisPlatform.Workers
open Foundations Domain Db Services
set_option autoImplicit false
set_option maxHeartbeats 250000

def drifted (result : StepResult) : Bool := result.status != .passed

def healedMessage (event : HealingEvent) : String :=
  if event.succeeded then
    "Healed via " ++ event.strategy.value ++ ": " ++ event.rationale.getD ""
  else "Selector drifted and could not be healed."

/-- The event tells what the row tells. -/
structure Mirrors (result : StepResult) (event : HealingEvent) : Prop where
  runId : event.runId = result.runId
  original : event.originalSelector = result.originalSelector.getD ""
  healed : event.healedSelector = result.healedSelector
  status : result.status = if event.succeeded then .healed else .failed
  message : result.message = some (healedMessage event)

def Audited (db : Database) (r : Uuid) : Prop :=
  List.Forall₂ Mirrors ((db.resultsOf r).filter drifted) (db.eventsOf r)

/-- Neither the key of an event nor the decision on it is mirrored. -/
theorem Mirrors.congr {result : StepResult} {event event' : HealingEvent} (h : Mirrors result event)
    (heq : event' = { event with id := event'.id, accepted := event'.accepted }) :
    Mirrors result event' := by
  rw [heq]
  exact ⟨h.runId, h.original, h.healed, h.status, h.message⟩

theorem audited_of_empty {db : Database} {r : Uuid} (hresults : db.resultsOf r = [])
    (hevents : db.eventsOf r = []) : Audited db r := by
  unfold Audited
  rw [hresults, hevents]
  exact List.Forall₂.nil

/-- Without results there are no events. -/
theorem Audited.events_nil {db : Database} {r : Uuid} (h : Audited db r)
    (hresults : db.resultsOf r = []) : db.eventsOf r = [] := by
  unfold Audited at h
  rw [hresults] at h
  exact List.forall₂_nil_left_iff.mp h

/-! ## What the loop adds -/

section
variable [Unicode] {env : Env} {runId : Uuid}

theorem mirrors_record {t : Task} {r : StepRecord} (h : record env runId t = .ok r) :
    (r.event = none ∧ drifted r.result = false) ∨
      ∃ event, r.event = some event ∧ drifted r.result = true ∧ Mirrors r.result event := by
  rcases record_ok_iff.mp h with ⟨-, proposal, -, rfl⟩ | ⟨-, rfl⟩
  · refine Or.inr ⟨_, rfl, ?_⟩
    cases hhealed : proposal.healedSelector with
    | some selector =>
      refine ⟨?_, ?_, ?_, ?_, ?_, ?_⟩
      · simp [healedRecord, hhealed, taskResult, drifted]
      · simp [healedRecord, hhealed, taskResult, healingEvent]
      · simp [healedRecord, hhealed, taskResult, healingEvent]
      · simp [healedRecord, hhealed, taskResult, healingEvent]
      · simp [healedRecord, hhealed, taskResult, healingEvent]
      · simp [healedRecord, hhealed, taskResult, healingEvent, healedMessage]
    | none =>
      refine ⟨?_, ?_, ?_, ?_, ?_, ?_⟩
      · simp [healedRecord, hhealed, taskResult, drifted]
      · simp [healedRecord, hhealed, taskResult, healingEvent]
      · simp [healedRecord, hhealed, taskResult, healingEvent]
      · simp [healedRecord, hhealed, taskResult, healingEvent]
      · simp [healedRecord, hhealed, taskResult, healingEvent]
      · simp [healedRecord, hhealed, taskResult, healingEvent, healedMessage]
  · exact Or.inl ⟨rfl, rfl⟩

theorem mirrors_records {ts : List Task} {rs : List StepRecord}
    (h : List.Forall₂ (fun t r => record env runId t = .ok r) ts rs) :
    List.Forall₂ Mirrors ((rs.map StepRecord.result).filter drifted)
      (rs.filterMap StepRecord.event) := by
  induction h with
  | nil => exact List.Forall₂.nil
  | @cons t r ts rs hrecord _ ih =>
    rw [List.map_cons]
    rcases mirrors_record hrecord with ⟨hevent, hclean⟩ | ⟨event, hevent, hdrifted, hmirrors⟩
    · rw [List.filterMap_cons_none hevent, List.filter_cons_of_neg (by simp [hclean])]
      exact ih
    · rw [List.filterMap_cons_some hevent, List.filter_cons_of_pos hdrifted]
      exact List.Forall₂.cons hmirrors ih

/-- Unless a flush failed, the rows of the loop and its events are those of the same steps. -/
theorem mirrors_loop {cases : List TestCase}
    (husable : refused (executeCases env runId cases {}) = false) :
    List.Forall₂ Mirrors
      ((Except.progress (executeCases env runId cases {})).results.filter drifted)
      (Except.progress (executeCases env runId cases {})).healingEvents := by
  obtain ⟨rs, hcarries⟩ := executeCases_carries husable
  obtain ⟨-, -, -, hresults, hevents⟩ := Progress.tables_eq hcarries.tables
  rw [pushAll_eq] at hresults hevents
  rw [hresults, hevents]
  exact mirrors_records hcarries.records

/-! ## What an access leaves -/

variable {db db' : Database} {phase phase' : ExecutorPhase} {r : Uuid}

omit [Unicode] in
theorem eventsOf_insertStepRows (db : Database) (r : Uuid) (results : List StepResult)
    (events : List HealingEvent) (hown : ∀ e ∈ events, e.runId = runId) :
    (db.insertStepRows results events).eventsOf r =
      db.eventsOf r ++ if r = runId then
        events.mapIdx fun i e => { e with id := db.healingEvents.next + i } else [] := by
  have hnew : ∀ e ∈ events.mapIdx fun i e => { e with id := db.healingEvents.next + i },
      e.runId = runId := by
    intro e he
    obtain ⟨i, hi, rfl⟩ := List.mem_mapIdx.mp he
    exact hown events[i] (List.getElem_mem hi)
  unfold Database.eventsOf Database.insertStepRows
  simp only
  rw [Table.rows_insertAll, List.filter_append]
  congr 1
  by_cases hr : r = runId
  · rw [if_pos hr, List.filter_eq_self]
    intro e he
    rw [hnew e he, hr]
    exact beq_self_eq_true runId
  · rw [if_neg hr, List.filter_eq_nil_iff]
    intro e he
    rw [hnew e he, beq_iff_eq]
    exact Ne.symm hr

theorem audited_access (step : PhaseStep env runId db phase db' phase') (hof : phase.Of runId)
    (hquiet : phase.isRunning = true → db.resultsOf runId = []) (h : Audited db r) :
    Audited db' r := by
  have hothers := phase_results (r := r) step hof
  cases step with
  | skip => exact h
  | load => exact h
  | find => exact h
  | miss => exact h
  | missFails => exact h
  | begin => exact h
  | beginRaises => exact h
  | beginFails => exact h
  | closeFails => exact h
  | done => exact h
  | @close run row cases raised hrow hcommits =>
    have hfresh := hquiet rfl
    obtain ⟨rfl, -, -⟩ := hof
    obtain ⟨-, hevents⟩ := progress_runId env run.id cases
    have hlisted := eventsOf_insertStepRows db r
      (Except.progress (executeCases env run.id cases {})).results _ hevents
    by_cases hr : r = run.id
    · subst hr
      rw [if_pos rfl, h.events_nil hfresh, List.nil_append] at hlisted
      have hresults := resultsOf_closed_fresh env cases hfresh
        (closeRun env run (executeCases env run.id cases {}))
      unfold Audited
      rw [hresults]
      refine hlisted.symm ▸ ?_
      exact forall₂_mapIdx_right (mirrors_loop hcommits.usable) _ fun _ _ _ hmirrors =>
        hmirrors.congr rfl
    · rw [if_neg hr, List.append_nil] at hlisted
      rcases hothers with hsame | ⟨heq, -⟩
      · unfold Audited
        rw [hsame]
        exact hlisted.symm ▸ h
      · exact absurd heq.symm hr

end

end AegisPlatform.Workers
