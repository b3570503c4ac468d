import AegisPlatform.Foundations.PubSub
import AegisPlatform.Workers.News
import AegisPlatform.Workers.Redelivery

/-! # What was told of a run, and what is stored of it

A run with one delivery among any number of others, and any number of cancel requests. Once its
`run.finished` is out, the row of the run carries the counters and the duration the event told, its
status is the one told or CANCELLED, every `step.completed` published before has its row, and the
counters of a run that ended PASSED or FAILED count those rows. All of it is still so in every later
state.

Before the closing commit a `step.completed` may be out whose row is never stored.
-/

namespace AegisPlatform.Workers
open Foundations Domain Db Services
set_option autoImplicit false
set_option maxHeartbeats 250000

/-! ## The counters of a loop that got through -/

structure Counted (p : Progress) : Prop where
  passed : p.passed = countOf .passed p.results
  failed : p.failed = countOf .failed p.results
  healed : p.healed = countOf .healed p.results

theorem countOf_snoc (status : StepStatus) (rs : List StepResult) (r : StepResult) :
    countOf status (rs ++ [r]) = countOf status rs + bump r.status status := by
  simp only [countOf, List.countP_append, List.countP_cons, List.countP_nil, decide_eq_true_eq,
    bump, Nat.zero_add]

theorem counted_flushed {p : Progress} (h : Counted p) (r : StepRecord) : Counted (p.flushed r) where
  passed := by
    rw [Progress.results_flushed, countOf_snoc, ← h.passed]
    rfl
  failed := by
    rw [Progress.results_flushed, countOf_snoc, ← h.failed]
    rfl
  healed := by
    rw [Progress.results_flushed, countOf_snoc, ← h.healed]
    rfl

section
variable [Unicode] {env : Env} {runId : Uuid}

/-- What every step that gets through keeps, the loops over steps and cases keep. -/
theorem executeCases_ok {I : Progress → Prop}
    (keep : ∀ case page index step p p', I p →
      executeStep env runId case page index step p = .ok p' → I p')
    {cases : List TestCase} {p p' : Progress} (hp : I p)
    (h : executeCases env runId cases p = .ok p') : I p' := by
  have hsteps : ∀ case page (steps : List StepSpec) index p p', I p →
      executeSteps env runId case page index steps p = .ok p' → I p' := by
    intro case page steps
    induction steps with
    | nil =>
      intro index p p' hp h
      obtain rfl := Except.ok.inj h
      exact hp
    | cons step rest ih =>
      intro index p p' hp h
      unfold executeSteps at h
      split at h
      · cases h
      · next q hq => exact ih _ q p' (keep _ _ _ _ _ _ hp hq) h
  induction cases generalizing p with
  | nil =>
    obtain rfl := Except.ok.inj h
    exact hp
  | cons case rest ih =>
    unfold executeCases at h
    split at h
    · cases h
    · next steps hvalid =>
      split at h
      · cases h
      · next q hq => exact ih (hsteps _ _ _ _ _ _ hp hq) h

theorem counted_of_ok {cases : List TestCase} {p : Progress}
    (h : executeCases env runId cases {} = .ok p) : Counted p := by
  refine executeCases_ok (I := Counted) ?_ ⟨rfl, rfl, rfl⟩ h
  intro case page index step p p' hp hstep
  rw [executeStep_eq env runId ⟨p.results.length, case, page, index, step⟩ p rfl] at hstep
  split at hstep
  · cases hstep
  · next r _ =>
    split at hstep
    · cases hstep
    · split at hstep
      · cases hstep
      · obtain rfl := Except.ok.inj hstep
        exact counted_flushed hp r
      · obtain rfl := Except.ok.inj hstep
        have hflushed := counted_flushed hp r
        exact ⟨hflushed.passed, hflushed.failed, hflushed.healed⟩

end

/-! ## The promise of the event -/

/-- What the events of a run promise of the database. -/
structure Told (db : Database) (r : Uuid) (events : List RunEvent) : Prop where
  row : ∀ status passed failed healed durationMs,
    RunEvent.finished status passed failed healed durationMs ∈ events →
      ∃ row, db.runs.get? r = some row ∧ row.passedCount = passed ∧ row.failedCount = failed ∧
        row.healedCount = healed ∧ row.durationMs = durationMs ∧
        (row.status = status ∨ row.status = .cancelled)
  steps : (∃ e ∈ events, isFinished e = true) → ∀ e ∈ events, isCompleted e = true →
    ∃ result ∈ db.resultsOf r, stepCompleted result = e
  counts : ∀ status passed failed healed durationMs,
    RunEvent.finished status passed failed healed durationMs ∈ events →
      status = .passed ∨ status = .failed →
        passed = countOf .passed (db.resultsOf r) ∧ failed = countOf .failed (db.resultsOf r) ∧
          healed = countOf .healed (db.resultsOf r)

def eventsOn (r : Uuid) (w : World) : List RunEvent := onChannel r w.published

theorem told_of_open {db : Database} {r : Uuid} {events : List RunEvent}
    (h : ∀ e ∈ events, isFinished e = false) : Told db r events where
  row := fun _ _ _ _ _ hmem => by
    have hfinished := h _ hmem
    cases hfinished
  steps := fun ⟨e, he, hfinished⟩ => by
    rw [h e he] at hfinished
    cases hfinished
  counts := fun _ _ _ _ _ hmem => by
    have hfinished := h _ hmem
    cases hfinished

/-- Rows and results of the run unchanged, the promise stands. -/
theorem Told.congr {db db' : Database} {r : Uuid} {events : List RunEvent} (h : Told db r events)
    (hrow : db'.runs.get? r = db.runs.get? r) (hresults : db'.resultsOf r = db.resultsOf r) :
    Told db' r events where
  row := by
    rw [hrow]
    exact h.row
  steps := by
    rw [hresults]
    exact h.steps
  counts := by
    rw [hresults]
    exact h.counts

/-- A cancel request that still holds the run as it was changes its status to CANCELLED. -/
theorem told_cancel {db : Database} {loaded row : TestRun} {events : List RunEvent}
    (h : Told db loaded.id events) (hrow : db.runs.get? loaded.id = some row)
    (hlive : loaded.status ≠ .cancelled) :
    Told (db.setRun loaded (RunService.cancelled loaded)) loaded.id events where
  row := by
    intro status passed failed healed durationMs hmem
    obtain ⟨row', hrow', hp, hf, hh, hd, hs⟩ := h.row status passed failed healed durationMs hmem
    obtain rfl := Option.some.inj (hrow.symm.trans hrow')
    refine ⟨_, Database.get?_setRun _ hrow, ?_, ?_, ?_, ?_, Or.inr ?_⟩
    · simpa [TestRun.writeBack, RunService.cancelled] using hp
    · simpa [TestRun.writeBack, RunService.cancelled] using hf
    · simpa [TestRun.writeBack, RunService.cancelled] using hh
    · simpa [TestRun.writeBack, RunService.cancelled] using hd
    · simp [TestRun.writeBack, RunService.cancelled, written, Ne.symm hlive]
  steps := h.steps
  counts := h.counts

/-! ## The one delivery of a run -/

/-- The row is as the delivery holds it, but for a cancel in between. -/
def Held (db : Database) (run : TestRun) : Prop :=
  ∀ row, db.runs.get? run.id = some row → row.passedCount = run.passedCount ∧
    row.failedCount = run.failedCount ∧ row.healedCount = run.healedCount ∧
    row.durationMs = run.durationMs ∧ (row.status = run.status ∨ row.status = .cancelled)

def ExecutorPhase.run? : ExecutorPhase → Option TestRun
  | .created | .exited _ => none
  | .loaded run | .suiteLoaded run _ | .running run _ => some run

theorem held_begun {db : Database} {env : Env} {run row : TestRun} (h : Held db run)
    (hqueued : run.status = .queued) (hrow : db.runs.get? run.id = some row) :
    Held (db.setRun run (begun env run)) (begun env run) := by
  intro row' hrow'
  have hstored := Database.get?_setRun (begun env run) hrow
  obtain rfl := Option.some.inj (hstored.symm.trans hrow')
  obtain ⟨hp, hf, hh, hd, -⟩ := h row hrow
  refine ⟨?_, ?_, ?_, ?_, Or.inl ?_⟩
  · simpa [TestRun.writeBack, begun] using hp
  · simpa [TestRun.writeBack, begun] using hf
  · simpa [TestRun.writeBack, begun] using hh
  · simpa [TestRun.writeBack, begun] using hd
  · simp [TestRun.writeBack, begun, written, hqueued]

theorem held_cancel {db : Database} {run loaded row : TestRun} (h : Held db run)
    (hid : loaded.id = run.id) (hrow : db.runs.get? loaded.id = some row)
    (hlive : loaded.status ≠ .cancelled) :
    Held (db.setRun loaded (RunService.cancelled loaded)) run := by
  intro row' hrow'
  have hstored := Database.get?_setRun (RunService.cancelled loaded) hrow
  rw [hid] at hstored hrow
  obtain rfl := Option.some.inj (hstored.symm.trans hrow')
  obtain ⟨hp, hf, hh, hd, -⟩ := h row hrow
  refine ⟨?_, ?_, ?_, ?_, Or.inr ?_⟩
  · simpa [TestRun.writeBack, RunService.cancelled] using hp
  · simpa [TestRun.writeBack, RunService.cancelled] using hf
  · simpa [TestRun.writeBack, RunService.cancelled] using hh
  · simpa [TestRun.writeBack, RunService.cancelled] using hd
  · simp [TestRun.writeBack, RunService.cancelled, written, Ne.symm hlive]

/-- A column the closing block changed is stored as changed, one it left is as it was held. -/
theorem written_held {α : Type} [DecidableEq α] {loaded current stored : α}
    (h : stored = loaded) : written loaded current stored = current := by
  rw [h, written_loaded]

section
variable [Unicode] {env : Env} {run row : TestRun} {cases : List TestCase} {db : Database}
  {events : List RunEvent}

omit [Unicode] in
/-- The row the closing commit leaves is the closed one, but for a cancel in between. -/
theorem held_closed {outcome : Except Stopped Progress} (h : Held db run)
    (hrow : db.runs.get? run.id = some row) :
    let stored := run.writeBack (closeRun env run outcome) row
    stored.passedCount = (closeRun env run outcome).passedCount ∧
      stored.failedCount = (closeRun env run outcome).failedCount ∧
      stored.healedCount = (closeRun env run outcome).healedCount ∧
      stored.durationMs = (closeRun env run outcome).durationMs ∧
      (stored.status = (closeRun env run outcome).status ∨ stored.status = .cancelled) := by
  obtain ⟨hp, hf, hh, hd, hstatus⟩ := h row hrow
  refine ⟨written_held hp, written_held hf, written_held hh, written_held hd, ?_⟩
  rcases hstatus with hsame | hcancelled
  · exact Or.inl (written_held hsame)
  · show written run.status _ row.status = _ ∨ written run.status _ row.status = _
    unfold written
    split
    · exact Or.inr hcancelled
    · exact Or.inl rfl

/-- The counters of a run that closes PASSED or FAILED count the rows it stores. -/
theorem counts_closeRun (hrunning : run.status = .running)
    (hended : (closeRun env run (executeCases env run.id cases {})).status = .passed ∨
      (closeRun env run (executeCases env run.id cases {})).status = .failed) :
    let closed := closeRun env run (executeCases env run.id cases {})
    let rows := (Except.progress (executeCases env run.id cases {})).results
    closed.passedCount = countOf .passed rows ∧ closed.failedCount = countOf .failed rows ∧
      closed.healedCount = countOf .healed rows := by
  cases houtcome : executeCases env run.id cases {} with
  | ok p =>
    have hcounted := counted_of_ok houtcome
    exact ⟨hcounted.passed, hcounted.failed, hcounted.healed⟩
  | error stopped =>
    obtain ⟨p, raised, usable⟩ := stopped
    rw [houtcome] at hended
    cases raised with
    | exception message => simp [closeRun] at hended
    | cancelled => simp [closeRun, hrunning] at hended

theorem resultsOf_closed_fresh (env : Env) (cases : List TestCase) (hfresh : db.resultsOf run.id = []) (current : TestRun) :
    ((db.insertStepRows (Except.progress (executeCases env run.id cases {})).results
      (Except.progress (executeCases env run.id cases {})).healingEvents).setRun run
        current).resultsOf run.id =
      (Except.progress (executeCases env run.id cases {})).results := by
  have hown := (progress_runId env run.id cases).1
  unfold Database.resultsOf at hfresh ⊢
  unfold Database.setRun Database.insertStepRows
  rw [List.filter_append, hfresh, List.nil_append, List.filter_eq_self]
  intro r hr
  simp [hown r hr]

/-- The closing commit keeps what its events promise. -/
theorem told_close (hheld : Held db run) (hrunning : run.status = .running)
    (hrow : db.runs.get? run.id = some row) (hfresh : db.resultsOf run.id = [])
    (hquiet : ∀ e ∈ events, isFinished e = false ∧ isCompleted e = false)
    {news : List RunEvent} (hnews : ∀ e ∈ news,
      e ∈ (Except.progress (executeCases env run.id cases {})).published ∨
        e = finishedEvent (closeRun env run (executeCases env run.id cases {}))) :
    Told ((db.insertStepRows (Except.progress (executeCases env run.id cases {})).results
        (Except.progress (executeCases env run.id cases {})).healingEvents).setRun run
          (closeRun env run (executeCases env run.id cases {}))) run.id (events ++ news) := by
  have hresults := resultsOf_closed_fresh env cases hfresh
    (closeRun env run (executeCases env run.id cases {}))
  obtain ⟨rs, hrs, -, -, es, hes, hsub⟩ := (executeCases_continues env run.id cases {}).rows
  simp only [List.nil_append] at hrs hes
  have hstep : ∀ e ∈ (Except.progress (executeCases env run.id cases {})).published,
      isFinished e = false ∧ ∃ result ∈ rs, stepCompleted result = e := by
    intro e he
    rw [hes] at he
    obtain ⟨result, hresult, rfl⟩ := List.mem_map.mp (hsub.subset he)
    exact ⟨rfl, result, hresult, rfl⟩
  have hend : ∀ e ∈ events ++ news, isFinished e = true →
      e = finishedEvent (closeRun env run (executeCases env run.id cases {})) := by
    intro e he hfinished
    rcases List.mem_append.mp he with hold | hnew
    · rw [(hquiet e hold).1] at hfinished
      cases hfinished
    · rcases hnews e hnew with hloop | heq
      · rw [(hstep e hloop).1] at hfinished
        cases hfinished
      · exact heq
  have hstored : (db.insertStepRows
      (Except.progress (executeCases env run.id cases {})).results
      (Except.progress (executeCases env run.id cases {})).healingEvents).runs.get? run.id =
        some row := hrow
  constructor
  · intro status passed failed healed durationMs hmem
    have heq := hend _ hmem rfl
    unfold finishedEvent at heq
    simp only [RunEvent.finished.injEq] at heq
    obtain ⟨rfl, rfl, rfl, rfl, rfl⟩ := heq
    exact ⟨_, Database.get?_setRun _ hstored, held_closed hheld hrow⟩
  · intro _ e he hcompleted
    rw [hresults, hrs]
    rcases List.mem_append.mp he with hold | hnew
    · rw [(hquiet e hold).2] at hcompleted
      cases hcompleted
    · rcases hnews e hnew with hloop | rfl
      · exact (hstep e hloop).2
      · cases hcompleted
  · intro status passed failed healed durationMs hmem hended
    have heq := hend _ hmem rfl
    unfold finishedEvent at heq
    simp only [RunEvent.finished.injEq] at heq
    obtain ⟨rfl, rfl, rfl, rfl, -⟩ := heq
    rw [hresults]
    exact counts_closeRun hrunning hended

end

/-- At most one delivery is about run `r`. Until it is over nothing of the run is stored or told
but its start. -/
structure Telling (r : Uuid) (s : Pool) : Prop where
  deliveries : ∀ (i : ℕ) d, s.deliveries[i]? = some d → d.phase.Of d.runId
  cancels : ∀ (i : ℕ) c, s.cancels[i]? = some c → c.phase.Of c.runId
  alone : ∀ (i j : ℕ) d d', s.deliveries[i]? = some d → s.deliveries[j]? = some d' →
    d.runId = r → d'.runId = r → i = j
  held : ∀ (i : ℕ) d, s.deliveries[i]? = some d → d.runId = r →
    ∀ run ∈ d.phase.run?, Held s.world.db run
  quiet : ∀ (i : ℕ) d, s.deliveries[i]? = some d → d.runId = r → d.phase.isExited = false →
    s.world.db.resultsOf r = [] ∧
      ∀ e ∈ eventsOn r s.world, isFinished e = false ∧ isCompleted e = false
  once : ((s.world.db.resultsOf r).map placeOf).Nodup
  told : Told s.world.db r (eventsOn r s.world)

section
variable [Unicode] {env : Env} {r : Uuid} {s t : Pool} {i : ℕ} {d : Delivery} {w : World}
  {phase : ExecutorPhase}

omit [Unicode] in
theorem alone_of_nodup (h : (s.deliveries.map Delivery.runId).Nodup) :
    ∀ (i j : ℕ) d d', s.deliveries[i]? = some d → s.deliveries[j]? = some d' →
      d.runId = r → d'.runId = r → i = j := by
  intro i j d d' hd hd' hr hr'
  have hi : i < (s.deliveries.map Delivery.runId).length := by
    rw [List.length_map]
    exact (List.getElem?_eq_some_iff.mp hd).1
  refine (List.getElem?_inj hi h).mp ?_
  rw [List.getElem?_map, List.getElem?_map, hd, hd', Option.map_some, Option.map_some, hr, hr']

omit [Unicode] in
theorem eventsOn_append {w w' : World} {events : List RunEvent} (runId : Uuid)
    (h : w'.published = w.published ++ events.map fun e => (runId, e)) :
    eventsOn r w' = eventsOn r w ++ if runId = r then events else [] := by
  unfold eventsOn
  rw [h, onChannel_append]
  congr 1
  by_cases hr : runId = r
  · subst hr
    rw [if_pos rfl]
    have hmap : onChannel runId (events.map fun e => (runId, e)) = events.map id :=
      onChannel_map_self id events
    simpa using hmap
  · rw [if_neg hr]
    exact onChannel_map_other hr id events

/-- A delivery of another run changes nothing of `r`. -/
theorem other_access (hof : d.phase.Of d.runId) (hr : d.runId ≠ r)
    (access : Access env d.runId s.world d.phase w phase)
    (step : PhaseStep env d.runId s.world.db d.phase w.db phase) :
    w.db.runs.get? r = s.world.db.runs.get? r ∧ w.db.resultsOf r = s.world.db.resultsOf r ∧
      eventsOn r w = eventsOn r s.world := by
  refine ⟨phase_others step hof (Ne.symm hr), ?_, ?_⟩
  · rcases phase_results (r := r) step hof with hsame | ⟨heq, -⟩
    · exact hsame
    · exact absurd heq hr
  · obtain ⟨events, hpub⟩ := access_published hof access
    rw [eventsOn_append d.runId hpub, if_neg hr, List.append_nil]

omit [Unicode] in
theorem run?_id {runId : Uuid} (hof : phase.Of runId) : ∀ run ∈ phase.run?, run.id = runId := by
  intro run hrun
  cases phase with
  | created => cases hrun
  | exited raised => cases hrun
  | loaded run' =>
    obtain rfl := Option.some.inj hrun
    exact hof.1
  | suiteLoaded run' found =>
    obtain rfl := Option.some.inj hrun
    exact hof.1
  | running run' cases =>
    obtain rfl := Option.some.inj hrun
    exact hof.1

/-- What the one delivery of `r` does, told from its own side. -/
structure Kept (r : Uuid) (w : World) (phase : ExecutorPhase) : Prop where
  held : ∀ run ∈ phase.run?, Held w.db run
  quiet : phase.isExited = false → w.db.resultsOf r = [] ∧
    ∀ e ∈ eventsOn r w, isFinished e = false ∧ isCompleted e = false
  once : ((w.db.resultsOf r).map placeOf).Nodup
  told : Told w.db r (eventsOn r w)

/-- An access outside the loop adds no row to a run. -/
theorem results_outside {runId : Uuid} {db db' : Database} {old : ExecutorPhase}
    (step : PhaseStep env runId db old db' phase) (hof : old.Of runId)
    (hidle : old.isRunning = false) : db'.resultsOf r = db.resultsOf r := by
  rcases phase_results (r := r) step hof with hsame | ⟨-, hrunning, -⟩
  · exact hsame
  · rw [hidle] at hrunning
    cases hrunning

theorem once_step {runId : Uuid} {db db' : Database} {old : ExecutorPhase}
    (step : PhaseStep env runId db old db' phase) (hof : old.Of runId)
    (hfresh : old.isRunning = true → db.resultsOf r = [])
    (honce : ((db.resultsOf r).map placeOf).Nodup) : ((db'.resultsOf r).map placeOf).Nodup := by
  rcases phase_results (r := r) step hof with hsame | ⟨-, hrunning, -, rs, hrs, hnodup⟩
  · rw [hsame]
    exact honce
  · rw [hrs, hfresh hrunning, List.nil_append]
    exact hnodup

omit [Unicode] in
/-- Nothing but the start of the run is told. -/
theorem quiet_started {w w' : World} (events : List RunEvent)
    (hquiet : ∀ e ∈ eventsOn r w, isFinished e = false ∧ isCompleted e = false)
    (hstarted : ∀ e ∈ events, ∃ suite, e = RunEvent.started r suite)
    (hpub : w'.published = w.published ++ events.map fun e => (r, e)) :
    ∀ e ∈ eventsOn r w', isFinished e = false ∧ isCompleted e = false := by
  intro e he
  rw [eventsOn_append r hpub, if_pos rfl] at he
  rcases List.mem_append.mp he with hold | hnew
  · exact hquiet e hold
  · obtain ⟨suite, rfl⟩ := hstarted e hnew
    exact ⟨rfl, rfl⟩

/-- The end of the run keeps what its events promise, with the closing commit or without. -/
theorem told_finishRun {run : TestRun} (cases : List TestCase) (hheld : Held w.db run)
    (hrunning : run.status = .running) (hfresh : w.db.resultsOf run.id = [])
    (hquiet : ∀ e ∈ eventsOn run.id w, isFinished e = false ∧ isCompleted e = false) :
    Told (finishRun env run (executeCases env run.id cases {}) w).1.db run.id
      (eventsOn run.id (finishRun env run (executeCases env run.id cases {}) w).1) := by
  rcases finishRun_cases env run (executeCases env run.id cases {}) w with
    heq | ⟨row, hrow, hc, heq⟩
  · rw [heq]
    apply told_of_open
    intro e he
    rw [eventsOn_append (w := w) run.id rfl, if_pos rfl] at he
    rcases List.mem_append.mp he with hold | hnew
    · exact (hquiet e hold).1
    · have hcompleted := stepNews_completed env run.id cases e hnew
      cases e with
      | stepCompleted case index status selector => rfl
      | started runId suite => rfl
      | finished status passed failed healed durationMs => cases hcompleted
  · rw [heq]
    obtain ⟨ends, hends, hfinished⟩ : ∃ ends : List RunEvent,
        (∀ e ∈ ends, e = finishedEvent (closeRun env run (executeCases env run.id cases {}))) ∧
        finishedNews env (closeRun env run (executeCases env run.id cases {})) =
          ends.map fun e => (run.id, e) := by
      refine ⟨if env.faults.publishFinished = none then
        [finishedEvent (closeRun env run (executeCases env run.id cases {}))] else [], ?_, ?_⟩
      · intro e he
        split at he
        · exact List.mem_singleton.mp he
        · cases he
      · rw [finishedNews_own, id_closeRun]
    have hpub : w.published ++ stepNews run (executeCases env run.id cases {}) ++
        finishedNews env (closeRun env run (executeCases env run.id cases {})) =
        w.published ++ ((Except.progress (executeCases env run.id cases {})).published ++
          ends).map fun e => (run.id, e) := by
      rw [hfinished, List.map_append, ← List.append_assoc]
      rfl
    rw [eventsOn_append run.id hpub, if_pos rfl]
    refine told_close hheld hrunning hrow hfresh hquiet ?_
    intro e he
    exact (List.mem_append.mp he).imp_right (hends e)

theorem own_access (hs : Telling r s) (hd : s.deliveries[i]? = some d) (hr : d.runId = r)
    (access : Access env d.runId s.world d.phase w phase)
    (step : PhaseStep env d.runId s.world.db d.phase w.db phase) : Kept r w phase := by
  have hof := hs.deliveries i d hd
  have hheld := hs.held i d hd hr
  have hquiet := hs.quiet i d hd hr
  have hbefore := hs.once
  have htold := hs.told
  generalize d.phase = old at hof hheld hquiet access step
  subst hr
  have honce : ((w.db.resultsOf d.runId).map placeOf).Nodup := by
    refine once_step step hof (fun hrunning => (hquiet ?_).1) hbefore
    cases old with
    | running run cases => rfl
    | created => cases hrunning
    | loaded run => cases hrunning
    | suiteLoaded run found => cases hrunning
    | exited raised => cases hrunning
  cases access with
  | load row queued =>
    refine ⟨?_, fun _ => hquiet rfl, honce, htold⟩
    intro run' hrun' row' hrow'
    obtain rfl := Option.some.inj hrun'
    have hid := Table.get?_key row
    rw [hid, row] at hrow'
    obtain rfl := Option.some.inj hrow'
    exact ⟨rfl, rfl, rfl, rfl, Or.inl rfl⟩
  | find run => exact ⟨hheld, fun _ => hquiet rfl, honce, htold⟩
  | drops db raised hrunning hlive =>
    exact ⟨fun run hrun => (by cases hrun), fun hexited => (by cases hexited), honce,
      told_of_open fun e he => ((hquiet hlive).2 e he).1⟩
  | @begins run row suite cases hb hrow =>
    obtain ⟨started, hopens, hstarted⟩ := startedNews_own env hof.1 suite
    have hevents : ∀ e ∈ eventsOn d.runId { s.world.incActiveRuns with
          db := s.world.db.setRun run (begun env run)
          published := s.world.published ++ startedNews env run suite },
        isFinished e = false ∧ isCompleted e = false :=
      quiet_started started (hquiet rfl).2 hopens.opens (by rw [hstarted])
    have hrows := results_outside (r := d.runId) step hof rfl
    refine ⟨?_, fun _ => ⟨hrows.trans (hquiet rfl).1, hevents⟩, honce,
      told_of_open fun e he => (hevents e he).1⟩
    intro run' hrun'
    obtain rfl := Option.some.inj hrun'
    exact held_begun (hheld run rfl) hof.2.1 hrow
  | @leaks w' run suite cases raised hmetrics hpublished =>
    have hevents : ∀ e ∈ eventsOn d.runId w, isFinished e = false ∧ isCompleted e = false := by
      rcases hpublished with hpub | hpub
      · exact quiet_started [] (hquiet rfl).2 (by simp) (by simp [hpub])
      · refine quiet_started [.started d.runId suite.slug] (hquiet rfl).2 ?_
          (by rw [hpub, hof.1]; rfl)
        exact fun e he => ⟨suite.slug, List.mem_singleton.mp he⟩
    exact ⟨fun run' hrun' => (by cases hrun'), fun hexited => (by cases hexited), honce,
      told_of_open fun e he => (hevents e he).1⟩
  | closes run cases raised =>
    obtain ⟨hid, hrunning, -⟩ := hof
    obtain ⟨hfresh, hevents⟩ := hquiet rfl
    have hheld := hheld run rfl
    refine ⟨fun run' hrun' => (by cases hrun'), fun hexited => (by cases hexited), honce, ?_⟩
    rw [← hid] at hfresh hevents ⊢
    exact told_finishRun cases hheld hrunning hfresh hevents
  | done raised => exact ⟨fun run hrun => (by cases hrun), fun hexited => (by cases hexited), honce, htold⟩

omit [Unicode] in
/-- The one delivery of `r`, after a step of its own. -/
theorem Kept.pool {t : Pool} (d' : Delivery) (hs : Telling r s) (hd : s.deliveries[i]? = some d)
    (hr : d.runId = r) (hsame : d'.runId = d.runId) (hof : d'.phase.Of d'.runId)
    (h : Kept r w d'.phase)
    (ht : t = { s with world := w, deliveries := s.deliveries.set i d' }) : Telling r t := by
  subst ht
  have hown : ∀ (j : ℕ) e, (s.deliveries.set i d')[j]? = some e → e.runId = r → e = d' := by
    intro j e he hre
    rcases getElem?_set_cases he with ⟨-, rfl⟩ | ⟨hj, hold⟩
    · rfl
    · exact absurd (hs.alone j i e d hold hd hre hr) hj
  refine ⟨?_, hs.cancels, ?_, ?_, ?_, h.once, h.told⟩
  · exact forall_set (Q := fun d : Delivery => d.phase.Of d.runId) hs.deliveries hof
  · exact unique_set hs.alone hd fun _ => Or.inl hr
  · intro j e he hre
    obtain rfl := hown j e he hre
    exact h.held
  · intro j e he hre hlive
    obtain rfl := hown j e he hre
    exact h.quiet hlive

omit [Unicode] in
/-- A step that leaves the row, the results and the events of `r` alone, and every delivery of `r`
where it was. -/
theorem Telling.frame (hs : Telling r s)
    (hdeliveries : ∀ (j : ℕ) e, t.deliveries[j]? = some e → e.phase.Of e.runId)
    (hcancels : ∀ (j : ℕ) c, t.cancels[j]? = some c → c.phase.Of c.runId)
    (hown : ∀ (j : ℕ) e, t.deliveries[j]? = some e → e.runId = r → s.deliveries[j]? = some e)
    (hrow : t.world.db.runs.get? r = s.world.db.runs.get? r)
    (hresults : t.world.db.resultsOf r = s.world.db.resultsOf r)
    (hevents : eventsOn r t.world = eventsOn r s.world) : Telling r t where
  deliveries := hdeliveries
  cancels := hcancels
  alone := fun j k e e' he he' hre hre' =>
    hs.alone j k e e' (hown j e he hre) (hown k e' he' hre') hre hre'
  held := by
    intro j e he hre run hrun row hstored
    have hid := run?_id (hdeliveries j e he) run hrun
    rw [hid, hre, hrow] at hstored
    exact hs.held j e (hown j e he hre) hre run hrun row (by rw [hid, hre]; exact hstored)
  quiet := by
    intro j e he hre hlive
    rw [hresults, hevents]
    exact hs.quiet j e (hown j e he hre) hre hlive
  once := by
    rw [hresults]
    exact hs.once
  told := by
    rw [hevents]
    exact hs.told.congr hrow hresults

omit [Unicode] in
/-- A cancel request stores CANCELLED over what it had read. -/
theorem Telling.cancelled (hs : Telling r s) {loaded row : TestRun}
    (hrow : s.world.db.runs.get? loaded.id = some row) (hlive : loaded.status.isTerminal = false) :
    Telling r { s with world := { s.world with
      db := s.world.db.setRun loaded (RunService.cancelled loaded) } } := by
  have hne : loaded.status ≠ .cancelled := by
    intro heq
    rw [heq] at hlive
    cases hlive
  by_cases hid : loaded.id = r
  · refine ⟨hs.deliveries, hs.cancels, hs.alone, ?_, hs.quiet, hs.once, ?_⟩
    · intro j e he hre run hrun
      have hrunId := run?_id (hs.deliveries j e he) run hrun
      exact held_cancel (hs.held j e he hre run hrun) (by rw [hid, hrunId, hre]) hrow hne
    · have htold := hs.told
      rw [← hid] at htold ⊢
      exact told_cancel htold hrow hne
  · exact hs.frame hs.deliveries hs.cancels (fun _ _ he _ => he)
      (Database.get?_setRun_of_ne (Ne.symm hid)) rfl rfl

omit [Unicode] in
theorem telling_cancel {c : CancelSession} {commits : Bool} {cphase : CancelPhase} {db : Database}
    (hs : Telling r s) (hc : s.cancels[i]? = some c)
    (step : CancelStep c.runId commits s.world.db c.phase db cphase) :
    Telling r { s with
      world := { s.world with db := db }
      cancels := s.cancels.set i { c with phase := cphase } } := by
  have hof := hs.cancels i c hc
  have hcancels : ∀ (j : ℕ) e, (s.cancels.set i { c with phase := cphase })[j]? = some e →
      e.phase.Of e.runId :=
    forall_set (Q := fun c : CancelSession => c.phase.Of c.runId) hs.cancels (cancel_of step)
  have hdb : Telling r { s with world := { s.world with db := db } } := by
    generalize c.phase = old at hof step
    cases step with
    | commit hrow hcommits => exact hs.cancelled hrow hof.2
    | refuse => exact hs
    | load => exact hs
    | fail => exact hs
    | done => exact hs
  exact hdb.frame hdb.deliveries hcancels (fun _ _ he _ => he) rfl rfl rfl

theorem telling_step {l : PoolLabel} (hs : Telling r s) (h : ofNext Pool.next s l t) :
    Telling r t := by
  cases l with
  | deliver i env =>
    obtain ⟨d, w, phase, hd, access, step, rfl⟩ := deliver_next h
    have hof := hs.deliveries i d hd
    by_cases hr : d.runId = r
    · exact (own_access hs hd hr access step).pool
        { d with phase := phase, executed := d.executed || phase.isRunning } hs hd hr rfl
        (phase_of step hof) rfl
    · obtain ⟨hrow, hresults, hevents⟩ := other_access hof hr access step
      refine hs.frame ?_ hs.cancels ?_ hrow hresults hevents
      · exact forall_set (Q := fun d : Delivery => d.phase.Of d.runId) hs.deliveries
          (phase_of step hof)
      · intro j e he hre
        rcases getElem?_set_cases he with ⟨-, rfl⟩ | ⟨-, hold⟩
        · exact absurd hre hr
        · exact hold
  | cancel i commits =>
    cases pool_step h with
    | cancel hc step => exact telling_cancel hs hc step
  | edit suites cases =>
    cases pool_step h
    exact hs.frame hs.deliveries hs.cancels (fun _ _ he _ => he) rfl rfl rfl

omit [Unicode] in
theorem initial_telling (h : s.Initial)
    (halone : ∀ (i j : ℕ) d d', s.deliveries[i]? = some d → s.deliveries[j]? = some d' →
      d.runId = r → d'.runId = r → i = j)
    (hresults : s.world.db.resultsOf r = []) (hevents : eventsOn r s.world = []) : Telling r s where
  deliveries := by
    intro i d hd
    rw [(h.deliveries d (List.mem_of_getElem? hd)).1]
    trivial
  cancels := by
    intro i c hc
    rw [h.cancels c (List.mem_of_getElem? hc)]
    trivial
  alone := halone
  held := by
    intro i d hd _ run hrun
    rw [(h.deliveries d (List.mem_of_getElem? hd)).1] at hrun
    cases hrun
  quiet := by
    intro i d _ _ _
    rw [hevents]
    exact ⟨hresults, by simp⟩
  once := by
    rw [hresults]
    exact List.nodup_nil
  told := by
    rw [hevents]
    exact told_of_open (by simp)

end

end AegisPlatform.Workers
