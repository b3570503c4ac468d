import AegisPlatform.Workers.Recording
import Mathlib.Data.List.Infix

/-! # The loop of the executor

The steps of a run laid out as one list of tasks, and what the two nested loops make of them.

`Continues` states for every environment what a stretch of the loop can do: it adds rows in the
places of its tasks, in order, and goes through all of them unless something stops it; where and
by what it is stopped is read off the inputs by `stopIn`. `executeCases_undisturbed` is the case
in which nothing stops it and nothing is lost: the loop is a map over the tasks.
-/

namespace AegisPlatform.Workers
open Foundations Domain Db
set_option autoImplicit false
set_option maxHeartbeats 250000

variable [Unicode]

/-! ## The steps of a run as one list -/

def validSteps (case : TestCase) : List StepSpec := case.steps.filterMap StepSpec.modelValidate

def tasksFrom (case : TestCase) (page : String) : ℕ → ℕ → List StepSpec → List Task
  | _, _, [] => []
  | position, index, step :: rest =>
    ⟨position, case, page, index, step⟩ :: tasksFrom case page (position + 1) (index + 1) rest

def caseTasks (position : ℕ) (case : TestCase) : List Task :=
  tasksFrom case (buildPage (validSteps case)) position 0 (validSteps case)

def tasks : ℕ → List TestCase → List Task
  | _, [] => []
  | position, case :: rest =>
    caseTasks position case ++ tasks (position + (validSteps case).length) rest

def Task.place (t : Task) : Option Uuid × ℕ := (some t.case.id, t.index)

/-- The case and the step index a row is about. -/
def placeOf (r : StepResult) : Option Uuid × ℕ := (r.caseId, r.stepIndex)

omit [Unicode] in
theorem length_tasksFrom (case : TestCase) (page : String) (position index : ℕ)
    (steps : List StepSpec) : (tasksFrom case page position index steps).length = steps.length := by
  induction steps generalizing position index with
  | nil => rfl
  | cons step rest ih => simp [tasksFrom, ih]

theorem length_caseTasks (position : ℕ) (case : TestCase) :
    (caseTasks position case).length = (validSteps case).length :=
  length_tasksFrom _ _ _ _ _

omit [Unicode] in
/-- Step by step, the places of a case count up from its first index. -/
theorem places_tasksFrom (case : TestCase) (page : String) (position index : ℕ)
    (steps : List StepSpec) :
    (tasksFrom case page position index steps).map Task.place =
      (List.range' index steps.length).map fun i => (some case.id, i) := by
  induction steps generalizing position index with
  | nil => rfl
  | cons step rest ih =>
    simp only [tasksFrom, List.map_cons, ih, List.length_cons, List.range'_succ, Task.place]

theorem places_caseTasks (position : ℕ) (case : TestCase) :
    (caseTasks position case).map Task.place =
      (List.range (validSteps case).length).map fun i => (some case.id, i) := by
  rw [caseTasks, places_tasksFrom, List.range_eq_range']

theorem places_tasks (position : ℕ) (cases : List TestCase) :
    (tasks position cases).map Task.place = cases.flatMap fun case =>
      (List.range (validSteps case).length).map fun i => (some case.id, i) := by
  induction cases generalizing position with
  | nil => rfl
  | cons case rest ih =>
    rw [tasks, List.map_append, ih, places_caseTasks, List.flatMap_cons]

/-- No place occurs twice in a run whose cases are distinct. -/
theorem places_nodup (position : ℕ) {cases : List TestCase}
    (h : (cases.map TestCase.id).Nodup) : ((tasks position cases).map Task.place).Nodup := by
  rw [places_tasks, List.nodup_flatMap]
  constructor
  · intro case _
    refine List.Nodup.map ?_ List.nodup_range
    intro i j hij
    exact (Prod.mk.inj hij).2
  · rw [List.nodup_iff_pairwise_ne, List.pairwise_map] at h
    refine h.imp ?_
    intro a b hab pl ha hb
    obtain ⟨i, _, rfl⟩ := List.mem_map.mp ha
    obtain ⟨j, _, hj⟩ := List.mem_map.mp hb
    exact hab (Option.some.inj (Prod.mk.inj hj).1).symm

omit [Unicode] in
theorem validateSteps_ok {env : Env} {steps : List Json} {specs : List StepSpec}
    (h : validateSteps env steps = .ok specs) :
    specs = steps.filterMap StepSpec.modelValidate ∧ specs.length = steps.length := by
  induction steps generalizing specs with
  | nil =>
    obtain rfl := Except.ok.inj h
    exact ⟨rfl, rfl⟩
  | cons s rest ih =>
    unfold validateSteps at h
    cases hs : StepSpec.modelValidate s with
    | none => simp [hs] at h
    | some step =>
      cases hrest : validateSteps env rest with
      | error raised => simp [hs, hrest] at h
      | ok specs' =>
        simp only [hs, hrest, Except.ok.injEq] at h
        subst h
        obtain ⟨heq, hlen⟩ := ih hrest
        subst heq
        exact ⟨by simp [hs], by simp [hlen]⟩

omit [Unicode] in
theorem validateSteps_of_valid (env : Env) {steps : List Json}
    (h : ∀ s ∈ steps, (StepSpec.modelValidate s).isSome) :
    validateSteps env steps = .ok (steps.filterMap StepSpec.modelValidate) := by
  induction steps with
  | nil => rfl
  | cons s rest ih =>
    obtain ⟨step, hs⟩ := Option.isSome_iff_exists.mp (h s List.mem_cons_self)
    have hrest := ih fun s' hs' => h s' (List.mem_cons_of_mem s hs')
    unfold validateSteps
    simp [hs, hrest]

/-! ## Where the loop is left -/

/-- The loop is left with `finished` rows flushed. -/
structure Stop where
  finished : ℕ
  raised : Raised
  usable : Bool
deriving DecidableEq

def healRaises (env : Env) (t : Task) : Option Raised :=
  if t.drifted then
    match env.heal t.position (healCall t.page t.step) with
    | .error raised => some raised
    | .ok _ => none
  else none

def stopAt (env : Env) (t : Task) : Option Stop :=
  match healRaises env t with
  | some raised => some ⟨t.position, raised, true⟩
  | none =>
    match env.faults.flush t.position with
    | some raised => some ⟨t.position, raised, false⟩
    | none =>
      match env.faults.publishStep t.position with
      | some .cancelled => some ⟨t.position + 1, .cancelled, true⟩
      | some (.exception _) => none
      | none => none

/-- The first place at which the loop over `cases` is left, if there is one. -/
def stopIn (env : Env) : ℕ → List TestCase → Option Stop
  | _, [] => none
  | position, case :: rest =>
    match validateSteps env case.steps with
    | .error raised => some ⟨position, raised, true⟩
    | .ok _ =>
      match (caseTasks position case).findSome? (stopAt env) with
      | some stop => some stop
      | none => stopIn env (position + (validSteps case).length) rest

/-! ## What a stretch of the loop does -/

omit [Unicode] in
def Stop.Of : Option Stop → Except Stopped Progress → ℕ → Prop
  | none, .ok p, n => p.results.length = n
  | some stop, .error s, _ =>
    s.progress.results.length = stop.finished ∧ s.raised = stop.raised ∧ s.usable = stop.usable
  | _, _, _ => False

omit [Unicode] in
/-- From `p` the loop goes on to `outcome`: it adds rows of `runId` in the given places, in
order, and publishes nothing but the events of such rows; it stops where `stop` says. -/
structure Continues (runId : Uuid) (p : Progress) (places : List (Option Uuid × ℕ))
    (stop : Option Stop) (outcome : Except Stopped Progress) : Prop where
  rows : ∃ rs, (Except.progress outcome).results = p.results ++ rs ∧ rs.map placeOf <+: places ∧
    (∀ r ∈ rs, r.runId = runId ∧ r.status ≠ .skipped) ∧
    ∃ es, (Except.progress outcome).published = p.published ++ es ∧
      es.Sublist (rs.map stepCompleted)
  ends : Stop.Of stop outcome (p.results.length + places.length)

namespace Continues

variable {runId : Uuid} {p p' : Progress} {as bs : List (Option Uuid × ℕ)} {stop : Option Stop}
  {outcome : Except Stopped Progress}

omit [Unicode] in
theorem refl (runId : Uuid) (p : Progress) : Continues runId p [] none (.ok p) where
  rows := ⟨[], by simp [Except.progress], by simp, by simp, [], by simp [Except.progress],
    by simp⟩
  ends := by simp [Stop.Of]

omit [Unicode] in
/-- Through with all its places, a stretch has a row in each of them. -/
theorem all_rows {rs : List StepResult} (hlen : (p.results ++ rs).length =
    p.results.length + as.length) (hpre : rs.map placeOf <+: as) : rs.map placeOf = as := by
  apply hpre.eq_of_length
  rw [List.length_append] at hlen
  rw [List.length_map]
  omega

omit [Unicode] in
theorem trans (h : Continues runId p as none (.ok p')) (k : Continues runId p' bs stop outcome) :
    Continues runId p (as ++ bs) stop outcome := by
  obtain ⟨rs, hrs, hpre, hrows, es, hes, hsub⟩ := h.rows
  obtain ⟨rs', hrs', hpre', hrows', es', hes', hsub'⟩ := k.rows
  have hends : p'.results.length = p.results.length + as.length := h.ends
  change p'.results = p.results ++ rs at hrs
  change p'.published = p.published ++ es at hes
  have hall : rs.map placeOf = as := all_rows (p := p) (hrs ▸ hends) hpre
  constructor
  · refine ⟨rs ++ rs', ?_, ?_, ?_, es ++ es', ?_, ?_⟩
    · rw [hrs', hrs, List.append_assoc]
    · rw [List.map_append, hall]
      exact (List.prefix_append_right_inj as).mpr hpre'
    · intro r hr
      rcases List.mem_append.mp hr with hr | hr
      · exact hrows r hr
      · exact hrows' r hr
    · rw [hes', hes, List.append_assoc]
    · rw [List.map_append]
      exact hsub.append hsub'
  · have hk := k.ends
    rw [hends, Nat.add_assoc] at hk
    rw [List.length_append]
    exact hk

omit [Unicode] in
/-- A stretch that was left is also a longer one that was left. -/
theorem extend {s : Stop} {t : Stopped} (h : Continues runId p as (some s) (.error t)) :
    Continues runId p (as ++ bs) (some s) (.error t) := by
  obtain ⟨rs, hrs, hpre, hrest⟩ := h.rows
  exact ⟨⟨rs, hrs, hpre.trans (List.prefix_append as bs), hrest⟩, h.ends⟩

end Continues

/-! ## One step, one case, all cases -/

theorem record_error_iff (env : Env) (runId : Uuid) (t : Task) (raised : Raised) :
    record env runId t = .error raised ↔ healRaises env t = some raised := by
  unfold record healRaises
  split
  · cases env.heal t.position (healCall t.page t.step) with
    | error raised' => simp
    | ok proposal => simp
  · simp

theorem executeStep_continues (env : Env) (runId : Uuid) (t : Task) (p : Progress)
    (hp : t.position = p.results.length) :
    Continues runId p [t.place] (stopAt env t)
      (executeStep env runId t.case t.page t.index t.step p) := by
  rw [executeStep_eq env runId t p hp]
  unfold stopAt
  cases hrec : record env runId t with
  | error raised =>
    rw [(record_error_iff env runId t raised).mp hrec]
    refine ⟨⟨[], by simp [Except.progress], by simp, by simp, [], by simp [Except.progress],
      by simp⟩, ?_⟩
    exact ⟨hp.symm, rfl, rfl⟩
  | ok r =>
    have hheal : healRaises env t = none := by
      cases hh : healRaises env t with
      | none => rfl
      | some raised => simp [(record_error_iff env runId t raised).mpr hh] at hrec
    obtain ⟨hid, hcase, -, hindex, -, -⟩ := record_place hrec
    have hplace : placeOf r.result = t.place := by
      unfold placeOf Task.place
      rw [hcase, hindex]
    have hrow : ∀ r' ∈ [r.result], r'.runId = runId ∧ r'.status ≠ .skipped := by
      intro r' hr'
      rw [List.mem_singleton.mp hr']
      exact ⟨hid, record_status hrec⟩
    have hpre : [r.result].map placeOf <+: [t.place] := by
      simp [hplace]
    rw [hheal]
    cases hflush : env.faults.flush t.position with
    | some raised =>
      refine ⟨⟨[], by simp [Except.progress], by simp, by simp, [],
        by simp [Except.progress, Progress.judged], by simp⟩, ?_⟩
      exact ⟨by simp [hp], rfl, rfl⟩
    | none =>
      cases hpub : env.faults.publishStep t.position with
      | none =>
        exact ⟨⟨[r.result], rfl, hpre, hrow, [stepCompleted r.result], rfl, by simp⟩,
          by simp [Stop.Of]⟩
      | some raised =>
        have hsilent : ∃ es, (p.flushed r).published = p.published ++ es ∧
            es.Sublist ([r.result].map stepCompleted) :=
          ⟨[], by simp [Progress.flushed, Progress.judged], by simp⟩
        cases raised with
        | cancelled =>
          refine ⟨⟨[r.result], rfl, hpre, hrow, hsilent⟩, ?_⟩
          exact ⟨by simp [hp], rfl, rfl⟩
        | exception message =>
          exact ⟨⟨[r.result], rfl, hpre, hrow, hsilent⟩, by simp [Stop.Of]⟩

theorem executeSteps_continues (env : Env) (runId : Uuid) (case : TestCase) (page : String)
    (index : ℕ) (steps : List StepSpec) (p : Progress) :
    Continues runId p ((tasksFrom case page p.results.length index steps).map Task.place)
      ((tasksFrom case page p.results.length index steps).findSome? (stopAt env))
      (executeSteps env runId case page index steps p) := by
  induction steps generalizing p index with
  | nil => exact Continues.refl runId p
  | cons step rest ih =>
    have hstep := executeStep_continues env runId ⟨p.results.length, case, page, index, step⟩ p rfl
    simp only [tasksFrom, List.map_cons, List.findSome?_cons, executeSteps] at hstep ⊢
    generalize executeStep env runId case page index step p = outcome at hstep
    generalize stopAt env ⟨p.results.length, case, page, index, step⟩ = stop at hstep
    cases outcome with
    | error stopped =>
      cases stop with
      | none => exact hstep.ends.elim
      | some s => exact hstep.extend
    | ok p' =>
      cases stop with
      | some s => exact hstep.ends.elim
      | none =>
        have hlen : p'.results.length = p.results.length + 1 := hstep.ends
        have hrest := ih (index + 1) p'
        rw [hlen] at hrest
        exact hstep.trans hrest

theorem executeCases_continues (env : Env) (runId : Uuid) (cases : List TestCase) (p : Progress) :
    Continues runId p ((tasks p.results.length cases).map Task.place)
      (stopIn env p.results.length cases) (executeCases env runId cases p) := by
  induction cases generalizing p with
  | nil => exact Continues.refl runId p
  | cons case rest ih =>
    unfold executeCases stopIn tasks
    cases hval : validateSteps env case.steps with
    | error raised =>
      refine ⟨⟨[], by simp [Except.progress], by simp, by simp, [], by simp [Except.progress],
        by simp⟩, ?_⟩
      exact ⟨rfl, rfl, rfl⟩
    | ok steps =>
      have hvalid : steps = validSteps case := (validateSteps_ok hval).1
      subst hvalid
      have hcase := executeSteps_continues env runId case (buildPage (validSteps case)) 0
        (validSteps case) p
      simp only [caseTasks, List.map_append]
      generalize executeSteps env runId case (buildPage (validSteps case)) 0 (validSteps case) p =
        outcome at hcase
      generalize (tasksFrom case (buildPage (validSteps case)) p.results.length 0
        (validSteps case)).findSome? (stopAt env) = stop at hcase
      cases outcome with
      | error stopped =>
        cases stop with
        | none => exact hcase.ends.elim
        | some s => exact hcase.extend
      | ok p' =>
        cases stop with
        | some s => exact hcase.ends.elim
        | none =>
          have hlen : p'.results.length = p.results.length + (validSteps case).length := by
            have hends : p'.results.length = _ := hcase.ends
            rwa [List.length_map, length_tasksFrom] at hends
          have hrest := ih p'
          rw [hlen] at hrest
          exact hcase.trans hrest

/-! ## The undisturbed loop -/

def recordOf (answer : ℕ → HealCall → HealingProposal) (env : Env) (runId : Uuid) (t : Task) :
    StepRecord :=
  if t.drifted then healedRecord env runId t (answer t.position (healCall t.page t.step))
  else { result := taskResult runId t .passed, event := none }

omit [Unicode] in
/-- Nothing raises: no fault strikes and the engine always answers. -/
structure Undisturbed (env : Env) (answer : ℕ → HealCall → HealingProposal) : Prop where
  faults : env.faults = {}
  heal : ∀ k call, env.heal k call = .ok (answer k call)

section
variable {env : Env} {answer : ℕ → HealCall → HealingProposal}

theorem record_undisturbed (h : Undisturbed env answer) (runId : Uuid) (t : Task) :
    record env runId t = .ok (recordOf answer env runId t) := by
  unfold record recordOf
  rw [h.heal]
  split
  · rfl
  · rfl

theorem executeSteps_undisturbed (h : Undisturbed env answer) (runId : Uuid) (case : TestCase)
    (page : String) (index : ℕ) (steps : List StepSpec) (p : Progress) :
    executeSteps env runId case page index steps p =
      .ok (p.pushAll ((tasksFrom case page p.results.length index steps).map
        (recordOf answer env runId))) := by
  induction steps generalizing p index with
  | nil => rfl
  | cons step rest ih =>
    have hstep := executeStep_eq env runId ⟨p.results.length, case, page, index, step⟩ p rfl
    rw [record_undisturbed h, h.faults] at hstep
    simp only at hstep
    unfold executeSteps
    simp only [hstep, ih, tasksFrom, List.map_cons, Progress.pushAll_cons, Progress.results_push,
      List.length_append, List.length_singleton]

theorem executeCases_cons {runId : Uuid} {case : TestCase} {steps : List StepSpec}
    {p p' : Progress} (rest : List TestCase) (hval : validateSteps env case.steps = .ok steps)
    (hsteps : executeSteps env runId case (buildPage steps) 0 steps p = .ok p') :
    executeCases env runId (case :: rest) p = executeCases env runId rest p' := by
  conv_lhs => unfold executeCases
  rw [hval]
  dsimp only
  rw [hsteps]

/-- The two nested loops are one map over the tasks. -/
theorem executeCases_undisturbed (h : Undisturbed env answer) (runId : Uuid)
    (cases : List TestCase) (p : Progress)
    (hvalid : ∀ case ∈ cases, ∀ s ∈ case.steps, (StepSpec.modelValidate s).isSome) :
    executeCases env runId cases p =
      .ok (p.pushAll ((tasks p.results.length cases).map (recordOf answer env runId))) := by
  induction cases generalizing p with
  | nil => rfl
  | cons case rest ih =>
    have hval := validateSteps_of_valid env (hvalid case List.mem_cons_self)
    have hsteps := executeSteps_undisturbed h runId case (buildPage (validSteps case)) 0
      (validSteps case) p
    have hrest := ih (p.pushAll ((caseTasks p.results.length case).map
      (recordOf answer env runId))) fun c hc => hvalid c (List.mem_cons_of_mem case hc)
    have hlen : (p.pushAll ((caseTasks p.results.length case).map
        (recordOf answer env runId))).results.length =
          p.results.length + (validSteps case).length := by
      simp [pushAll_eq, length_caseTasks]
    rw [hlen] at hrest
    unfold tasks
    rw [List.map_append, Progress.pushAll_append, executeCases_cons rest hval hsteps]
    exact hrest

end

end AegisPlatform.Workers
