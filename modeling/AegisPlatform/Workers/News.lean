import AegisPlatform.Workers.Terminal

/-! # What an execution publishes and counts

For every plan of faults: all on the channel of its run, at most one `run.started` first, then
`step.completed` events, and at most one `run.finished` last, which only the closing commit can bring
about. `beginRun_cases` and `finishRun_cases` say everything the two halves of `execute_run` around
its loop can do to the world, `Access` everything one access of a worker can do to it.
-/

namespace AegisPlatform.Workers
open Foundations Domain Db
set_option autoImplicit false
set_option maxHeartbeats 250000

def isCompleted : RunEvent → Bool
  | .stepCompleted .. => true
  | .started .. | .finished .. => false

/-- The order of the events of one execution. -/
structure Orderly (runId : Uuid) (started steps finished : List RunEvent) : Prop where
  opens : ∀ e ∈ started, ∃ suite, e = .started runId suite
  opens_once : started.length ≤ 1
  tells : ∀ e ∈ steps, isCompleted e = true
  closes : ∀ e ∈ finished, isFinished e = true
  closes_once : finished.length ≤ 1

theorem Orderly.nil (runId : Uuid) : Orderly runId [] [] [] :=
  ⟨by simp, by simp, by simp, by simp, by simp⟩

section
variable [Unicode] {env : Env} {runId : Uuid} {run : TestRun} {suite : TestSuite} {w : World}

omit [Unicode] in
theorem updateRun_quiet {current : TestRun} {w' : World} (h : w.updateRun run current = some w') :
    w'.published = w.published ∧ w'.metrics = w.metrics := by
  obtain ⟨db, -, rfl⟩ := Option.map_eq_some_iff.mp h
  exact ⟨rfl, rfl⟩

omit [Unicode] in
/-- The commit for a missing suite is told to nobody and counted nowhere. -/
theorem markSuiteMissing_quiet (env : Env) (run : TestRun) (w : World) :
    (markSuiteMissing env run w).1.published = w.published ∧
      (markSuiteMissing env run w).1.metrics = w.metrics := by
  unfold markSuiteMissing
  cases env.faults.firstCommit with
  | some raised => exact ⟨rfl, rfl⟩
  | none =>
    dsimp only
    split
    · exact ⟨rfl, rfl⟩
    · next hupdate => exact updateRun_quiet hupdate

omit [Unicode] in
/-- Everything that can happen between the gauge and the engine. -/
theorem beginRun_cases (env : Env) (run : TestRun) (suite : TestSuite) (w : World) :
    (∃ w' raised, beginRun env run suite w = (w', .error raised) ∧
      w'.metrics = w.incActiveRuns.metrics ∧
      (w'.published = w.published ∨
        w'.published = w.published ++ [(run.id, .started run.id suite.slug)])) ∨
    (∃ row, w.db.runs.get? run.id = some row ∧ Begins env ∧
      beginRun env run suite w =
        ({ w.incActiveRuns with
            db := w.db.setRun run (begun env run)
            published := w.published ++ startedNews env run suite }, .ok (begun env run))) := by
  cases hrow : w.db.runs.get? run.id with
  | some row =>
    by_cases hb : Begins env
    · exact Or.inr ⟨row, rfl, hb, beginRun_of_begins hb hrow⟩
    · left
      unfold beginRun
      cases hcommit : env.faults.firstCommit with
      | some raised => exact ⟨_, raised, rfl, rfl, Or.inl rfl⟩
      | none =>
        have hupdate := updateRun_begun env hrow
        unfold begun at hupdate
        simp only [hupdate]
        cases hpub : env.faults.publishStarted with
        | none =>
          cases hengine : env.faults.newEngine with
          | none => exact absurd ⟨hcommit, by simp [hpub], hengine⟩ hb
          | some message => exact ⟨_, _, rfl, rfl, Or.inr rfl⟩
        | some raised =>
          cases raised with
          | cancelled => exact ⟨_, _, rfl, rfl, Or.inl rfl⟩
          | exception message =>
            cases hengine : env.faults.newEngine with
            | none => exact absurd ⟨hcommit, by simp [hpub], hengine⟩ hb
            | some message => exact ⟨_, _, rfl, rfl, Or.inl rfl⟩
  | none =>
    left
    unfold beginRun
    cases hcommit : env.faults.firstCommit with
    | some raised => exact ⟨_, raised, rfl, rfl, Or.inl rfl⟩
    | none =>
      have hnone : w.incActiveRuns.updateRun run
          { run with status := .running, startedAt := some env.startedAt } = none := by
        unfold World.updateRun Database.updateRun World.incActiveRuns
        simp only [hrow, Option.map_none]
      simp only [hnone]
      exact ⟨_, _, rfl, rfl, Or.inl rfl⟩

omit [Unicode] in
/-- Everything the `finally` block can do: the closing commit goes through on a row that is still
there, or nothing is stored. -/
theorem finishRun_cases (env : Env) (run : TestRun) (outcome : Except Stopped Progress)
    (w : World) :
    (finishRun env run outcome w).1 =
        { db := w.db
          published := w.published ++ stepNews run outcome
          metrics := w.metrics.close (closeRun env run outcome) outcome } ∨
    ∃ row, w.db.runs.get? run.id = some row ∧ Commits env outcome ∧
      (finishRun env run outcome w).1 =
        { db := (w.db.insertStepRows (Except.progress outcome).results
              (Except.progress outcome).healingEvents).setRun run (closeRun env run outcome)
          published := w.published ++ stepNews run outcome ++
              finishedNews env (closeRun env run outcome)
          metrics := w.metrics.close (closeRun env run outcome) outcome } := by
  by_cases hc : Commits env outcome
  · cases hrow : w.db.runs.get? run.id with
    | some row => exact Or.inr ⟨row, rfl, hc, finishRun_of_commits hc hrow⟩
    | none =>
      left
      unfold finishRun Database.updateRun Database.insertStepRows stepNews
      simp only [hc.usable, Bool.false_eq_true, if_false, hc.lastCommit, hrow]
  · exact Or.inl (finishRun_of_not_commits run w hc)

omit [Unicode] in
theorem finishedNews_own (env : Env) (run : TestRun) :
    finishedNews env run = (if env.faults.publishFinished = none then [finishedEvent run] else []).map
      fun e => (run.id, e) := by
  unfold finishedNews
  split
  · rfl
  · rfl

omit [Unicode] in
theorem startedNews_own (env : Env) {run : TestRun} (hid : run.id = runId) (suite : TestSuite) :
    ∃ started, Orderly runId started [] [] ∧
      startedNews env run suite = started.map fun e => (runId, e) := by
  unfold startedNews
  split
  · refine ⟨[.started runId suite.slug], ⟨?_, by simp, by simp, by simp, by simp⟩, ?_⟩
    · intro e he
      exact ⟨suite.slug, List.mem_singleton.mp he⟩
    · rw [hid]
      rfl
  · exact ⟨[], Orderly.nil runId, rfl⟩

/-- The loop publishes `step.completed` events only. -/
theorem stepNews_completed (env : Env) (runId : Uuid) (cases : List TestCase) :
    ∀ e ∈ (Except.progress (executeCases env runId cases {})).published, isCompleted e = true := by
  obtain ⟨rs, -, -, -, es, hes, hsub⟩ := (executeCases_continues env runId cases {}).rows
  intro e he
  simp only [List.nil_append] at hes
  rw [hes] at he
  obtain ⟨r, -, rfl⟩ := List.mem_map.mp (hsub.subset he)
  rfl

/-- The closing half speaks on the channel of its run: the steps, then the end. -/
theorem finishRun_published (env : Env) (runId : Uuid) (run : TestRun) (hid : run.id = runId)
    (cases : List TestCase) (w : World) :
    ∃ steps finished, Orderly runId [] steps finished ∧
      (finishRun env run (executeCases env runId cases {}) w).1.published =
        w.published ++ (steps ++ finished).map fun e => (runId, e) := by
  have hsteps := stepNews_completed env runId cases
  rcases finishRun_cases env run (executeCases env runId cases {}) w with heq | ⟨-, -, -, heq⟩
  · refine ⟨_, [], ⟨by simp, by simp, hsteps, by simp, by simp⟩, ?_⟩
    rw [heq, List.append_nil, ← hid]
    rfl
  · let closed := closeRun env run (executeCases env runId cases {})
    refine ⟨_, if env.faults.publishFinished = none then [finishedEvent closed] else [],
      ⟨by simp, by simp, hsteps, ?_, ?_⟩, ?_⟩
    · intro e he
      split at he
      · rw [List.mem_singleton.mp he]
        rfl
      · cases he
    · split
      · simp
      · simp
    · rw [heq, finishedNews_own, id_closeRun, hid, List.map_append, ← List.append_assoc]
      unfold stepNews
      rw [hid]

/-- The events one execution publishes. -/
def announced (env : Env) (runId : Uuid) (w : World) : List RunEvent :=
  ((executeRun env runId w).1.published.drop w.published.length).map Prod.snd

theorem announced_eq {events : List RunEvent}
    (h : (executeRun env runId w).1.published = w.published ++ events.map fun e => (runId, e)) :
    announced env runId w = events := by
  unfold announced
  rw [h, List.drop_left, List.map_map]
  exact List.map_id _

/-- Whatever goes wrong, an execution speaks on its own channel, in order. -/
theorem executeRun_published (env : Env) (runId : Uuid) (w : World) :
    (executeRun env runId w).1.published =
        w.published ++ (announced env runId w).map (fun e => (runId, e)) ∧
      ∃ started steps finished, announced env runId w = started ++ steps ++ finished ∧
        Orderly runId started steps finished := by
  have hall : ∃ started steps finished, Orderly runId started steps finished ∧
      (executeRun env runId w).1.published =
        w.published ++ (started ++ steps ++ finished).map fun e => (runId, e) := by
    have hquiet : ∀ w' : World, w'.published = w.published →
        ∃ started steps finished, Orderly runId started steps finished ∧ w'.published =
          w.published ++ (started ++ steps ++ finished).map fun e => (runId, e) :=
      fun w' h => ⟨[], [], [], Orderly.nil runId, by simp [h]⟩
    unfold executeRun
    cases hrow : w.db.runs.get? runId with
    | none => exact hquiet w rfl
    | some run =>
      have hid : run.id = runId := Table.get?_key hrow
      by_cases hq : run.status = .queued
      · simp only [hq, ne_eq, not_true, if_false]
        cases hsuite : w.db.getWithCases run.suiteId with
        | none =>
          exact hquiet _ (markSuiteMissing_quiet env run w).1
        | some found =>
          obtain ⟨suite, cases⟩ := found
          rcases beginRun_cases env run suite w with ⟨w', raised, heq, -, hpub⟩ | ⟨row, -, -, heq⟩
          · simp only [heq]
            rcases hpub with hpub | hpub
            · exact hquiet _ hpub
            · refine ⟨[.started run.id suite.slug], [], [], ⟨?_, by simp, by simp, by simp, by simp⟩,
                ?_⟩
              · intro e he
                exact ⟨suite.slug, by rw [List.mem_singleton.mp he, hid]⟩
              · rw [hpub, hid]
                rfl
          · simp only [heq]
            obtain ⟨started, hopen, hstarted⟩ := startedNews_own env hid suite
            obtain ⟨steps, finished, horder, hpub⟩ := finishRun_published env runId
              (begun env run) hid cases
              { w.incActiveRuns with
                db := w.db.setRun run (begun env run)
                published := w.published ++ startedNews env run suite }
            refine ⟨started, steps, finished, ⟨hopen.opens, hopen.opens_once, horder.tells,
              horder.closes, horder.closes_once⟩, ?_⟩
            rw [hpub, hstarted]
            simp only [List.map_append, List.append_assoc]
      · simp only [hq, ne_eq, not_false_eq_true, if_true]
        exact hquiet w rfl
  obtain ⟨started, steps, finished, horder, hpub⟩ := hall
  rw [announced_eq hpub]
  exact ⟨hpub, started, steps, finished, rfl, horder⟩

/-! ## One access of a worker, and the world -/

omit [Unicode] in
def ExecutorPhase.isExited : ExecutorPhase → Bool
  | .exited _ => true
  | .created | .loaded _ | .suiteLoaded .. | .running .. => false

/-- `PhaseStep` with the messages and the metrics. -/
inductive Access (env : Env) (runId : Uuid) (w : World) : ExecutorPhase → World → ExecutorPhase → Prop
  | load {run : TestRun} (row : w.db.runs.get? runId = some run) (queued : run.status = .queued) :
      Access env runId w .created w (.loaded run)
  | find (run : TestRun) :
      Access env runId w (.loaded run) w (.suiteLoaded run (w.db.getWithCases run.suiteId))
  | drops {phase : ExecutorPhase} (db : Database) (raised : Option Raised)
      (hrunning : phase.isRunning = false) (hopen : phase.isExited = false) :
      Access env runId w phase { w with db := db } (.exited raised)
  | begins {run row : TestRun} (suite : TestSuite) (cases : List TestCase) (hb : Begins env)
      (hrow : w.db.runs.get? run.id = some row) :
      Access env runId w (.suiteLoaded run (some (suite, cases)))
        { w.incActiveRuns with
          db := w.db.setRun run (begun env run)
          published := w.published ++ startedNews env run suite }
        (.running (begun env run) cases)
  | leaks {w' : World} {run : TestRun} (suite : TestSuite) (cases : List TestCase) (raised : Raised)
      (hmetrics : w'.metrics = w.incActiveRuns.metrics)
      (hpublished : w'.published = w.published ∨
        w'.published = w.published ++ [(run.id, .started run.id suite.slug)]) :
      Access env runId w (.suiteLoaded run (some (suite, cases))) w' (.exited (some raised))
  | closes (run : TestRun) (cases : List TestCase) (raised : Option Raised) :
      Access env runId w (.running run cases) (finishRun env run (executeCases env runId cases {}) w).1
        (.exited raised)
  | done (raised : Option Raised) : Access env runId w (.exited raised) w (.exited raised)

theorem next_access (env : Env) (runId : Uuid) (w : World) (phase : ExecutorPhase) :
    Access env runId w phase (phase.next env runId w).1 (phase.next env runId w).2 := by
  cases phase with
  | created =>
    unfold ExecutorPhase.next
    cases hrow : w.db.runs.get? runId with
    | none => exact Access.drops w.db none rfl rfl
    | some run =>
      by_cases hq : run.status = .queued
      · simp only [hq, ne_eq, not_true, if_false]
        exact Access.load hrow hq
      · simp only [hq, ne_eq, not_false_eq_true, if_true]
        exact Access.drops w.db none rfl rfl
  | loaded run => exact Access.find run
  | suiteLoaded run found =>
    cases found with
    | none =>
      have hquiet := markSuiteMissing_quiet env run w
      have hworld : (markSuiteMissing env run w).1 =
          { w with db := (markSuiteMissing env run w).1.db } := by
        rw [← hquiet.1, ← hquiet.2]
      unfold ExecutorPhase.next
      dsimp only
      rw [hworld]
      exact Access.drops _ _ rfl rfl
    | some found =>
      obtain ⟨suite, cases⟩ := found
      unfold ExecutorPhase.next
      rcases beginRun_cases env run suite w with
        ⟨w', raised, heq, hmetrics, hpub⟩ | ⟨row, hrow, hb, heq⟩
      · simp only [heq]
        exact Access.leaks suite cases raised hmetrics hpub
      · simp only [heq]
        exact Access.begins suite cases hb hrow
  | running run cases => exact Access.closes run cases _
  | exited raised => exact Access.done raised

/-- An access publishes on the channel of its run only. -/
theorem access_published {phase phase' : ExecutorPhase} {w' : World} (hof : phase.Of runId)
    (h : Access env runId w phase w' phase') :
    ∃ events : List RunEvent, w'.published = w.published ++ events.map fun e => (runId, e) := by
  cases h with
  | load => exact ⟨[], by simp⟩
  | find => exact ⟨[], by simp⟩
  | drops => exact ⟨[], by simp⟩
  | begins suite cases hb hrow =>
    obtain ⟨started, -, hstarted⟩ := startedNews_own env hof.1 suite
    exact ⟨started, by rw [hstarted]⟩
  | leaks suite cases raised hmetrics hpublished =>
    rcases hpublished with hpub | hpub
    · exact ⟨[], by simp [hpub]⟩
    · exact ⟨[_], by rw [hpub, hof.1]; rfl⟩
  | closes run cases raised =>
    obtain ⟨steps, finished, -, hpub⟩ := finishRun_published env runId _ hof.1 cases w
    exact ⟨_, hpub⟩
  | done => exact ⟨[], by simp⟩

/-- A step of the pool by delivery `i`. -/
theorem deliver_next {s t : Pool} {i : ℕ} (h : ofNext Pool.next s (.deliver i env) t) :
    ∃ d w phase, s.deliveries[i]? = some d ∧ Access env d.runId s.world d.phase w phase ∧
      PhaseStep env d.runId s.world.db d.phase w.db phase ∧
      t = { s with
        world := w
        deliveries := s.deliveries.set i
          { d with phase := phase, executed := d.executed || phase.isRunning } } := by
  simp only [ofNext, Pool.next] at h
  split at h
  · cases h
  · next d hd =>
    exact ⟨d, _, _, hd, next_access env d.runId s.world d.phase,
      next_step env d.runId s.world d.phase, (Option.some.inj h).symm⟩

end

end AegisPlatform.Workers
