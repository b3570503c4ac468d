import AegisPlatform.Workers.Loop

/-! # Rows and the records they come from

Whatever stops the loop of `execute_run`, each row it has flushed and each healing event it has
added by then is the record of a step of the run. A row may be missing, when its flush failed behind
the event; none is made up.
-/

namespace AegisPlatform.Workers
open Foundations Domain Db
set_option autoImplicit false
set_option maxHeartbeats 250000

/-- Every row and every healing event so far comes from a record that satisfies `P`. -/
structure Made (P : StepRecord → Prop) (p : Progress) : Prop where
  results : ∀ row ∈ p.results, ∃ r, P r ∧ r.result = row
  events : ∀ e ∈ p.healingEvents, ∃ r, P r ∧ r.event = some e

namespace Made

variable {P : StepRecord → Prop} {p : Progress} {r : StepRecord}

theorem nothing : Made P {} :=
  ⟨fun _ h => absurd h List.not_mem_nil, fun _ h => absurd h List.not_mem_nil⟩

theorem judged (h : Made P p) (hr : P r) : Made P (p.judged r) := by
  refine ⟨h.results, ?_⟩
  intro e he
  rcases List.mem_append.mp he with hold | hnew
  · exact h.events e hold
  · exact ⟨r, hr, Option.mem_toList.mp hnew⟩

theorem flushed (h : Made P p) (hr : P r) : Made P (p.flushed r) := by
  refine ⟨?_, (h.judged hr).events⟩
  intro row hrow
  rcases List.mem_append.mp hrow with hold | hnew
  · exact h.results row hold
  · exact ⟨r, hr, (List.mem_singleton.mp hnew).symm⟩

theorem push (h : Made P p) (hr : P r) : Made P (p.push r) :=
  ⟨(h.flushed hr).results, (h.flushed hr).events⟩

end Made

variable [Unicode] {P : StepRecord → Prop} {env : Env} {runId : Uuid}

theorem executeStep_made {t : Task} {p : Progress} (hp : t.position = p.results.length)
    (hP : ∀ r, record env runId t = .ok r → P r) (h : Made P p) :
    Made P (Except.progress (executeStep env runId t.case t.page t.index t.step p)) := by
  rw [executeStep_eq env runId t p hp]
  cases hrecord : record env runId t with
  | error raised => exact h
  | ok r =>
    have hr := hP r hrecord
    cases env.faults.flush t.position with
    | some raised => exact h.judged hr
    | none =>
      cases env.faults.publishStep t.position with
      | none => exact h.push hr
      | some raised =>
        cases raised with
        | cancelled => exact h.flushed hr
        | exception message => exact h.flushed hr

theorem executeSteps_made {case : TestCase} {page : String} {index : ℕ} {steps : List StepSpec}
    {p : Progress}
    (hP : ∀ t ∈ tasksFrom case page p.results.length index steps, ∀ r,
      record env runId t = .ok r → P r)
    (h : Made P p) : Made P (Except.progress (executeSteps env runId case page index steps p)) := by
  induction steps generalizing p index with
  | nil => exact h
  | cons step rest ih =>
    let t : Task := ⟨p.results.length, case, page, index, step⟩
    have hstep := executeStep_made (t := t) rfl (hP t List.mem_cons_self) h
    have hends := (executeStep_continues env runId t p rfl).ends
    simp only [t] at hstep hends
    unfold executeSteps
    cases houtcome : executeStep env runId case page index step p with
    | error stopped =>
      rw [houtcome] at hstep
      exact hstep
    | ok p' =>
      rw [houtcome] at hstep hends
      have hlen : p'.results.length = p.results.length + 1 := by
        generalize stopAt env _ = stop at hends
        cases stop with
        | none => exact hends
        | some s => exact hends.elim
      refine ih ?_ hstep
      rw [hlen]
      exact fun t' ht' => hP t' (List.mem_cons_of_mem t ht')

theorem executeCases_made {cases : List TestCase} {p : Progress}
    (hP : ∀ t ∈ tasks p.results.length cases, ∀ r, record env runId t = .ok r → P r)
    (h : Made P p) : Made P (Except.progress (executeCases env runId cases p)) := by
  induction cases generalizing p with
  | nil => exact h
  | cons case rest ih =>
    unfold executeCases
    cases hval : validateSteps env case.steps with
    | error raised => exact h
    | ok steps =>
      have hvalid : steps = validSteps case := (validateSteps_ok hval).1
      subst hvalid
      have hcase : ∀ t ∈ caseTasks p.results.length case, ∀ r, record env runId t = .ok r → P r :=
        fun t ht => hP t (List.mem_append_left _ ht)
      have hsteps := executeSteps_made hcase h
      have hends := (executeSteps_continues env runId case (buildPage (validSteps case)) 0
        (validSteps case) p).ends
      dsimp only
      cases houtcome : executeSteps env runId case (buildPage (validSteps case)) 0
          (validSteps case) p with
      | error stopped =>
        rw [houtcome] at hsteps
        exact hsteps
      | ok p' =>
        rw [houtcome] at hsteps hends
        have hlen : p'.results.length = p.results.length + (validSteps case).length := by
          rw [List.length_map, length_tasksFrom] at hends
          generalize List.findSome? (stopAt env) _ = stop at hends
          cases stop with
          | none => exact hends
          | some s => exact hends.elim
        refine ih ?_ hsteps
        rw [hlen]
        exact fun t ht => hP t (List.mem_append_right _ ht)

/-- The rows and events of the loop are those of its run. -/
theorem progress_runId (env : Env) (runId : Uuid) (cases : List TestCase) :
    (∀ r ∈ (Except.progress (executeCases env runId cases {})).results, r.runId = runId) ∧
      ∀ e ∈ (Except.progress (executeCases env runId cases {})).healingEvents, e.runId = runId := by
  have hmade : Made (fun r => ∃ t, record env runId t = .ok r)
      (Except.progress (executeCases env runId cases {})) :=
    executeCases_made (fun t _ r hr => ⟨t, hr⟩) Made.nothing
  constructor
  · intro row hrow
    obtain ⟨r, ⟨t, hr⟩, rfl⟩ := hmade.results row hrow
    exact (record_place hr).1
  · intro e he
    obtain ⟨r, ⟨t, hr⟩, hevent⟩ := hmade.events e he
    obtain ⟨proposal, -, rfl⟩ := record_event hr hevent
    rfl

end AegisPlatform.Workers
