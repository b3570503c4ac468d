import AegisPlatform.Workers.Faults
import AegisPlatform.Workers.Records

/-! # What the closing transaction stores

Everything the loop adds is flushed in one transaction, which the closing commit ends. If that
commit goes through, the tables get the records of the steps before the place where the loop was
left, in the order of the loop: case after case, step after step.
-/

namespace AegisPlatform.Workers
open Foundations Domain Db
set_option autoImplicit false
set_option maxHeartbeats 250000

section
variable [Unicode] {env : Env} {runId : Uuid} {p p' : Progress} {as bs : List Task}
  {outcome : Except Stopped Progress}

/-- From `p` the loop goes through `ts`, all of them or the first few, and adds their records. -/
structure Carries (env : Env) (runId : Uuid) (p : Progress) (ts : List Task)
    (outcome : Except Stopped Progress) (rs : List StepRecord) : Prop where
  records : List.Forall₂ (fun t r => record env runId t = .ok r) (ts.take rs.length) rs
  tables : (Except.progress outcome).tables = (p.pushAll rs).tables
  whole : ∀ p', outcome = .ok p' → rs.length = ts.length

namespace Carries

variable {rs ss : List StepRecord}

theorem nil (env : Env) (runId : Uuid) (p : Progress) : Carries env runId p [] (.ok p) [] :=
  ⟨List.Forall₂.nil, rfl, fun _ _ => rfl⟩

theorem length_le (h : Carries env runId p as outcome rs) : rs.length ≤ as.length := by
  have hlen := h.records.length_eq
  rw [List.length_take] at hlen
  omega

theorem length_results (h : Carries env runId p as outcome rs) :
    (Except.progress outcome).results.length = p.results.length + rs.length := by
  have hresults : (Except.progress outcome).results = (p.pushAll rs).results :=
    (Progress.tables_eq h.tables).2.2.2.1
  rw [hresults, pushAll_eq]
  simp

theorem trans (h : Carries env runId p as (.ok p') rs) (k : Carries env runId p' bs outcome ss) :
    Carries env runId p (as ++ bs) outcome (rs ++ ss) := by
  have hwhole : rs.length = as.length := h.whole p' rfl
  have hrecords := h.records
  rw [hwhole, List.take_length] at hrecords
  refine ⟨?_, ?_, fun p'' hp'' => ?_⟩
  · rw [List.length_append, hwhole, List.take_length_add_append]
    exact List.rel_append hrecords k.records
  · rw [k.tables, Progress.pushAll_append]
    exact Progress.tables_pushAll h.tables ss
  · rw [List.length_append, List.length_append, hwhole, k.whole p'' hp'']

theorem extend {t : Stopped} (h : Carries env runId p as (.error t) rs) :
    Carries env runId p (as ++ bs) (.error t) rs := by
  refine ⟨?_, h.tables, fun _ hp' => by cases hp'⟩
  rw [List.take_append_of_le_length h.length_le]
  exact h.records

end Carries

/-! ## One step, one case, all cases -/

variable (env runId p) in
theorem executeStep_carries (t : Task) (hp : t.position = p.results.length)
    (husable : refused (executeStep env runId t.case t.page t.index t.step p) = false) :
    ∃ rs, Carries env runId p [t] (executeStep env runId t.case t.page t.index t.step p) rs := by
  rw [executeStep_eq env runId t p hp] at husable ⊢
  cases hrecord : record env runId t with
  | error raised => exact ⟨[], List.Forall₂.nil, rfl, fun _ hp' => by cases hp'⟩
  | ok r =>
    have hone : List.Forall₂ (fun t r => record env runId t = .ok r) ([t].take [r].length) [r] :=
      List.Forall₂.cons hrecord List.Forall₂.nil
    rw [hrecord] at husable
    dsimp only at husable ⊢
    cases hflush : env.faults.flush t.position with
    | some raised =>
      rw [hflush] at husable
      simp [refused] at husable
    | none =>
      dsimp only
      cases env.faults.publishStep t.position with
      | none => exact ⟨[r], hone, rfl, fun _ _ => rfl⟩
      | some raised =>
        cases raised with
        | cancelled => exact ⟨[r], hone, rfl, fun _ hp' => by cases hp'⟩
        | exception message => exact ⟨[r], hone, rfl, fun _ _ => rfl⟩

variable (env runId p) in
theorem executeSteps_carries (case : TestCase) (page : String) (index : ℕ) (steps : List StepSpec)
    (husable : refused (executeSteps env runId case page index steps p) = false) :
    ∃ rs, Carries env runId p (tasksFrom case page p.results.length index steps)
      (executeSteps env runId case page index steps p) rs := by
  induction steps generalizing p index with
  | nil => exact ⟨[], Carries.nil env runId p⟩
  | cons step rest ih =>
    have hstep := executeStep_carries env runId p
      ⟨p.results.length, case, page, index, step⟩ rfl
    unfold executeSteps at husable ⊢
    show ∃ rs, Carries env runId p
      ([⟨p.results.length, case, page, index, step⟩] ++ tasksFrom case page _ _ rest) _ rs
    dsimp only at hstep
    cases houtcome : executeStep env runId case page index step p with
    | error stopped =>
      rw [houtcome] at husable hstep
      obtain ⟨rs, hrs⟩ := hstep husable
      exact ⟨rs, hrs.extend⟩
    | ok p' =>
      rw [houtcome] at husable hstep
      obtain ⟨rs, hrs⟩ := hstep rfl
      obtain ⟨ss, hss⟩ := ih p' (index + 1) husable
      have hlen : p'.results.length = p.results.length + 1 := by
        have hresults := hrs.length_results
        rwa [hrs.whole p' rfl] at hresults
      rw [hlen] at hss
      exact ⟨rs ++ ss, hrs.trans hss⟩

theorem executeCases_carries {cases : List TestCase}
    (husable : refused (executeCases env runId cases p) = false) :
    ∃ rs, Carries env runId p (tasks p.results.length cases) (executeCases env runId cases p) rs := by
  induction cases generalizing p with
  | nil => exact ⟨[], Carries.nil env runId p⟩
  | cons case rest ih =>
    unfold executeCases at husable ⊢
    cases hval : validateSteps env case.steps with
    | error raised => exact ⟨[], List.Forall₂.nil, rfl, fun _ hp' => by cases hp'⟩
    | ok steps =>
      obtain rfl : steps = validSteps case := (validateSteps_ok hval).1
      rw [hval] at husable
      dsimp only at husable ⊢
      show ∃ rs, Carries env runId p (caseTasks p.results.length case ++ tasks _ rest) _ rs
      have hsteps := executeSteps_carries env runId p case (buildPage (validSteps case)) 0
        (validSteps case)
      cases houtcome : executeSteps env runId case (buildPage (validSteps case)) 0
          (validSteps case) p with
      | error stopped =>
        rw [houtcome] at husable hsteps
        obtain ⟨rs, hrs⟩ := hsteps husable
        exact ⟨rs, hrs.extend⟩
      | ok p' =>
        rw [houtcome] at husable hsteps
        obtain ⟨rs, hrs⟩ := hsteps rfl
        obtain ⟨ss, hss⟩ := ih husable
        have hlen : p'.results.length = p.results.length + (validSteps case).length := by
          rw [← length_caseTasks p.results.length case]
          have hresults := hrs.length_results
          rwa [hrs.whole p' rfl] at hresults
        rw [hlen] at hss
        exact ⟨rs ++ ss, hrs.trans hss⟩

/-! ## The events of an execution -/

/-- The steps before the place where the loop is left, in the order of the loop. -/
def recordedTasks (env : Env) (cases : List TestCase) : List Task :=
  match stopIn env 0 cases with
  | none => tasks 0 cases
  | some stop => (tasks 0 cases).take stop.finished

theorem executeCases_recorded {cases : List TestCase}
    (husable : refused (executeCases env runId cases {}) = false) :
    ∃ rs, List.Forall₂ (fun t r => record env runId t = .ok r) (recordedTasks env cases) rs ∧
      (Except.progress (executeCases env runId cases {})).healingEvents =
        rs.filterMap StepRecord.event := by
  obtain ⟨rs, hrs⟩ := executeCases_carries husable
  have hevents : (Except.progress (executeCases env runId cases {})).healingEvents =
      (Progress.pushAll {} rs).healingEvents := (Progress.tables_eq hrs.tables).2.2.2.2
  rw [pushAll_eq] at hevents
  refine ⟨rs, ?_, hevents⟩
  have hrecords := hrs.records
  have hstop := outcome_stop env runId cases
  have hlen := hrs.length_results
  unfold recordedTasks
  cases houtcome : executeCases env runId cases {} with
  | ok p =>
    rw [houtcome] at hstop
    cases hs : stopIn env 0 cases with
    | some stop =>
      rw [hs] at hstop
      exact hstop.elim
    | none =>
      rw [hrs.whole p houtcome, List.take_length] at hrecords
      exact hrecords
  | error t =>
    rw [houtcome] at hstop hlen
    cases hs : stopIn env 0 cases with
    | none =>
      rw [hs] at hstop
      exact hstop.elim
    | some stop =>
      rw [hs] at hstop
      have hfinished : rs.length = stop.finished := by
        rw [← hstop.1]
        exact ((Nat.zero_add _).symm.trans hlen.symm)
      rw [hfinished] at hrecords
      exact hrecords

/-- One event for each drifted step, in the order of the steps. -/
theorem events_of_records {ts : List Task} {rs : List StepRecord}
    (h : List.Forall₂ (fun t r => record env runId t = .ok r) ts rs) :
    List.Forall₂ (fun t e => ∃ r, record env runId t = .ok r ∧ r.event = some e)
      (ts.filter Task.drifted) (rs.filterMap StepRecord.event) := by
  induction h with
  | nil => exact List.Forall₂.nil
  | @cons t r ts rs hrecord _ ih =>
    have hevent : r.event.isSome = t.drifted := event_isSome hrecord
    cases hr : r.event with
    | none =>
      rw [hr] at hevent
      rw [List.filter_cons_of_neg (by simp [← hevent]), List.filterMap_cons_none hr]
      exact ih
    | some e =>
      rw [hr] at hevent
      rw [List.filter_cons_of_pos (by simp [← hevent]), List.filterMap_cons_some hr]
      exact List.Forall₂.cons ⟨r, hrecord, hr⟩ ih

/-- The closing transaction of the execution stores the records of the steps `ts`. -/
structure Stores (env : Env) (runId : Uuid) (w : World) (ts : List Task) : Prop where
  begins : Begins env
  lastCommit : env.faults.lastCommit = none
  found : ∃ run suite cases, Found w runId run suite cases ∧
    (∀ stop, stopIn env 0 cases = some stop → stop.usable = true) ∧ ts = recordedTasks env cases

/-- The events an execution adds, in the order in which it adds them. -/
def createdEvents (env : Env) (runId : Uuid) (w : World) : List HealingEvent :=
  (executeRun env runId w).1.db.healingEvents.rows.drop w.db.healingEvents.rows.length

variable {w : World}

/-- An execution that stores no records leaves the healing events as they are. -/
theorem healingEvents_of_not_stores (h : ∀ ts, ¬ Stores env runId w ts) :
    (executeRun env runId w).1.db.healingEvents = w.db.healingEvents := by
  cases hrow : w.db.runs.get? runId with
  | none =>
    unfold executeRun
    rw [hrow]
  | some run =>
    by_cases hq : run.status = .queued
    · cases hsuite : w.db.getWithCases run.suiteId with
      | none =>
        unfold executeRun markSuiteMissing World.updateRun Database.updateRun
        have hid := Table.get?_key hrow
        simp only [hrow, hq, ne_eq, not_true, if_false, hsuite, hid]
        cases env.faults.firstCommit with
        | some raised => rfl
        | none => rfl
      | some found =>
        have hfound : Found w runId run found.1 found.2 := ⟨hrow, hq, hsuite⟩
        by_cases hb : Begins env
        · have hc : ¬ Commits env (executeCases env runId found.2 {}) := fun hc =>
            h _ ⟨hb, hc.lastCommit, _, _, _, hfound, ((commits_iff runId found.2).mp hc).2, rfl⟩
          rw [executeRun_of_begins hfound hb, finishRun_of_not_commits _ _ hc]
          rfl
        · obtain ⟨w', raised, hbegin, -, hdb, -⟩ := beginRun_of_not_begins found.1 hb hfound.row_id
          obtain ⟨w'', raised', hbegin', hexecute⟩ := executeRun_of_not_begins hfound hb
          rw [hbegin'] at hbegin
          obtain ⟨rfl, -⟩ := Prod.mk.inj hbegin
          rw [hexecute]
          rcases hdb with hdb | hdb
          · rw [hdb]
          · rw [hdb]
            rfl
    · unfold executeRun
      simp only [hrow, ne_eq, hq, not_false_eq_true, if_true]

theorem createdEvents_of_not_stores (h : ∀ ts, ¬ Stores env runId w ts) :
    createdEvents env runId w = [] := by
  unfold createdEvents
  rw [healingEvents_of_not_stores h]
  exact List.drop_length

/-- The stored event of a step: that of its record, with the id its table gave it. -/
def EventOf (env : Env) (runId : Uuid) (t : Task) (e : HealingEvent) : Prop :=
  ∃ r e', record env runId t = .ok r ∧ r.event = some e' ∧ e = { e' with id := e.id }

omit [Unicode] in
theorem forall₂_mapIdx_right {α β γ : Type} {R : α → β → Prop} {Q : α → γ → Prop} {as : List α}
    {bs : List β} (h : List.Forall₂ R as bs) (f : ℕ → β → γ) (hf : ∀ a b i, R a b → Q a (f i b)) :
    List.Forall₂ Q as (bs.mapIdx f) := by
  induction h generalizing f with
  | nil => exact List.Forall₂.nil
  | cons hab _ ih =>
    rw [List.mapIdx_cons]
    exact List.Forall₂.cons (hf _ _ 0 hab) (ih _ fun a b i => hf a b (i + 1))

omit [Unicode] in
theorem mem_of_forall₂_right {α β : Type} {R : α → β → Prop} {as : List α} {bs : List β}
    (h : List.Forall₂ R as bs) : ∀ b ∈ bs, ∃ a ∈ as, R a b := by
  induction h with
  | nil => simp
  | @cons a b as bs hab _ ih =>
    intro c hc
    rcases List.mem_cons.mp hc with rfl | hc
    · exact ⟨a, List.mem_cons_self, hab⟩
    · obtain ⟨a', ha', hR⟩ := ih c hc
      exact ⟨a', List.mem_cons_of_mem a ha', hR⟩

/-- One that stores records adds the events of its drifted steps, in the order of the loop. -/
theorem createdEvents_of_stores {ts : List Task} (h : Stores env runId w ts) :
    (executeRun env runId w).1.db.healingEvents.rows =
        w.db.healingEvents.rows ++ createdEvents env runId w ∧
      List.Forall₂ (EventOf env runId) (ts.filter Task.drifted) (createdEvents env runId w) ∧
      ∀ e ∈ createdEvents env runId w, w.db.healingEvents.next ≤ e.id := by
  obtain ⟨run, suite, cases, hfound, husable, rfl⟩ := h.found
  have hc := (commits_iff runId cases).mpr ⟨h.lastCommit, husable⟩
  obtain ⟨rs, hrecords, hevents⟩ := executeCases_recorded hc.usable
  have hrows := (executeRun_closed hfound h.begins hc).events
  rw [hevents] at hrows
  unfold createdEvents
  rw [hrows, Table.rows_insertAll, List.drop_left]
  refine ⟨rfl, forall₂_mapIdx_right (events_of_records hrecords) _ ?_, fun e he => ?_⟩
  · rintro t e i ⟨r, hrecord, he⟩
    exact ⟨r, e, hrecord, he, rfl⟩
  · obtain ⟨i, hi, rfl⟩ := List.mem_mapIdx.mp he
    exact Nat.le_add_right _ _

theorem rows_executeRun (env : Env) (runId : Uuid) (w : World) :
    (executeRun env runId w).1.db.healingEvents.rows =
      w.db.healingEvents.rows ++ createdEvents env runId w := by
  by_cases hstores : ∃ ts, Stores env runId w ts
  · obtain ⟨ts, hts⟩ := hstores
    exact (createdEvents_of_stores hts).1
  · have hnone : ∀ ts, ¬ Stores env runId w ts := fun ts hts => hstores ⟨ts, hts⟩
    rw [createdEvents_of_not_stores hnone, healingEvents_of_not_stores hnone, List.append_nil]

/-- The events an execution adds are events of its run, which it found and took from the queue. -/
theorem mem_createdEvents {e : HealingEvent} (h : e ∈ createdEvents env runId w) :
    e.runId = runId ∧ w.db.healingEvents.next ≤ e.id ∧ ∃ run run', w.db.runs.get? runId = some run ∧
      (executeRun env runId w).1.db.runs.get? runId = some run' ∧ run'.status ≠ .queued := by
  by_cases hstores : ∃ ts, Stores env runId w ts
  · obtain ⟨ts, hts⟩ := hstores
    obtain ⟨t, -, r, e', hrecord, he', hsame⟩ :=
      mem_of_forall₂_right (createdEvents_of_stores hts).2.1 e h
    obtain ⟨run, suite, cases, hfound, husable, rfl⟩ := hts.found
    have hc := (commits_iff runId cases).mpr ⟨hts.lastCommit, husable⟩
    have hrow := (executeRun_closed hfound hts.begins hc).row
    rw [hfound.id] at hrow
    refine ⟨?_, (createdEvents_of_stores hts).2.2 e h, run, _, hfound.row, hrow, ?_⟩
    · obtain ⟨proposal, -, rfl⟩ := record_event hrecord he'
      rw [hsame]
      rfl
    · intro hq
      have hlive := (status_closeRun env run (executeCases env runId cases {})).mpr
      rw [hq] at hlive
      exact absurd (hlive Bool.false_ne_true) RunStatus.noConfusion
  · rw [createdEvents_of_not_stores fun ts hts => hstores ⟨ts, hts⟩] at h
    cases h

end

end AegisPlatform.Workers
