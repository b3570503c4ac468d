import AegisPlatform.Workers.Announcements

/-! # Workers are serialisable

Any number of workers execute runs at once, each taking one database access at a time, with whatever
faults they meet. Nobody can tell: the runs executed one after the other, each from its first access
to its last, leave the same database, the same metrics and the same messages on every channel, and
raise the same. They stand in the order in which the workers took their last accesses.
-/

namespace AegisPlatform.Workers
open Foundations Domain Core Db Services
set_option autoImplicit false
set_option maxHeartbeats 250000

/-! ## What a piece of `execute_run` makes of any world -/

/-- The gauge with `n` executions more than there are. -/
def Metrics.busier (m : Metrics) (n : ℕ) : Metrics := { m with activeRuns := m.activeRuns + n }

/-- The effect of a piece of `execute_run` on a world in which the row of its run is stored. The
rows are committed with `current`, or not at all. -/
structure Change where
  current : Option TestRun := none
  results : List StepResult := []
  events : List HealingEvent := []
  news : List RunEvent := []
  count : Metrics → Metrics := id
  count_busier : ∀ m n, count (m.busier n) = (count m).busier n := by intro m n; rfl

def Change.apply (c : Change) (loaded : TestRun) (w : World) : World where
  db := c.current.elim w.db fun current =>
    (w.db.insertStepRows c.results c.events).setRun loaded current
  published := w.published ++ c.news.map fun e => (loaded.id, e)
  metrics := c.count w.metrics

/-- The metrics after the gauge went up. -/
def Metrics.inc (m : Metrics) : Metrics := { m with activeRuns := m.activeRuns + 1 }

theorem inc_busier (m : Metrics) (n : ℕ) : (m.busier n).inc = m.inc.busier n := by
  unfold Metrics.inc Metrics.busier
  simp only [Metrics.mk.injEq, and_true]
  omega

theorem close_busier (run : TestRun) (outcome : Except Stopped Progress) (m : Metrics) (n : ℕ) :
    (m.busier n).close run outcome = (m.close run outcome).busier n := by
  have hgauge : m.activeRuns + n - 1 = m.activeRuns - 1 + n := by omega
  cases outcome with
  | ok p => simp only [Metrics.close, Metrics.finish, Metrics.busier, hgauge]
  | error s =>
    obtain ⟨p, raised, usable⟩ := s
    cases raised with
    | exception message => simp only [Metrics.close, Metrics.finish, Metrics.busier, hgauge]
    | cancelled =>
      cases usable with
      | true => simp only [Metrics.close, Metrics.finish, Metrics.busier, hgauge]
      | false => simp only [Metrics.close, Metrics.busier, hgauge]

section
variable {env : Env} {run : TestRun}

/-- A piece of `execute_run` changes every world that holds the row in one way. -/
def Changes {β : Type} (run : TestRun) (piece : World → World × β) (c : Change) (result : β) : Prop :=
  ∀ w row, w.db.runs.get? run.id = some row → piece w = (c.apply run w, result)

theorem markSuiteMissing_changes (env : Env) (run : TestRun) :
    ∃ c raised, Changes run (markSuiteMissing env run) c raised := by
  cases hcommit : env.faults.firstCommit with
  | some raised =>
    refine ⟨{}, some raised, fun w row hrow => ?_⟩
    unfold markSuiteMissing
    simp [hcommit, Change.apply]
  | none =>
    refine ⟨{ current := some (missing run) }, none, fun w row hrow => ?_⟩
    have hupdate := Database.updateRun_of_get? (missing run) hrow
    unfold missing at hupdate
    unfold markSuiteMissing World.updateRun
    simp [hcommit, hupdate, Change.apply, Database.insertStepRows_nil, missing]

theorem beginRun_changes (suite : TestSuite) (run : TestRun) (h : ¬ Begins env) :
    ∃ c raised, Changes run (beginRun env run suite) c (.error raised) := by
  cases hcommit : env.faults.firstCommit with
  | some raised =>
    refine ⟨{ count := Metrics.inc, count_busier := inc_busier }, raised, fun w row hrow => ?_⟩
    unfold beginRun
    simp [hcommit, Change.apply, World.incActiveRuns, Metrics.inc]
  | none =>
    have hstored (w : World) (row : TestRun) (hrow : w.db.runs.get? run.id = some row) :
        w.incActiveRuns.updateRun run
            { run with status := .running, startedAt := some env.startedAt } =
          some { w.incActiveRuns with db := w.db.setRun run (begun env run) } :=
      updateRun_begun env hrow
    cases hpub : env.faults.publishStarted with
    | none =>
      cases hengine : env.faults.newEngine with
      | none => exact absurd ⟨hcommit, by simp [hpub], hengine⟩ h
      | some message =>
        refine ⟨{ current := some (begun env run)
                  news := [.started run.id suite.slug]
                  count := Metrics.inc
                  count_busier := inc_busier }, .exception message, fun w row hrow => ?_⟩
        unfold beginRun
        simp only [hcommit, hpub, hengine, hstored w row hrow]
        simp [Change.apply, Database.insertStepRows_nil, World.publish, World.incActiveRuns,
          Metrics.inc]
    | some raised =>
      have hquiet : ∃ raised', ∀ w row, w.db.runs.get? run.id = some row →
          beginRun env run suite w =
            ({ w.incActiveRuns with db := w.db.setRun run (begun env run) }, .error raised') := by
        cases raised with
        | cancelled =>
          refine ⟨.cancelled, fun w row hrow => ?_⟩
          unfold beginRun
          simp only [hcommit, hpub, hstored w row hrow]
        | exception message =>
          cases hengine : env.faults.newEngine with
          | none => exact absurd ⟨hcommit, by simp [hpub], hengine⟩ h
          | some message' =>
            refine ⟨.exception message', fun w row hrow => ?_⟩
            unfold beginRun
            simp only [hcommit, hpub, hengine, hstored w row hrow]
      obtain ⟨raised', hbegin⟩ := hquiet
      refine ⟨{ current := some (begun env run), count := Metrics.inc, count_busier := inc_busier },
        raised', fun w row hrow => ?_⟩
      rw [hbegin w row hrow]
      simp [Change.apply, Database.insertStepRows_nil, World.incActiveRuns, Metrics.inc]

/-- What the coroutine raises from its last commit on. -/
def raisedLast (env : Env) (outcome : Except Stopped Progress) : Option Raised :=
  if refused outcome then some (.exception "PendingRollbackError")
  else if env.faults.lastCommit ≠ none then env.faults.lastCommit
  else if env.faults.publishFinished = some .cancelled then some .cancelled
  else pending outcome

theorem finishRun_left {outcome : Except Stopped Progress} {w : World} {row : TestRun}
    (hrow : w.db.runs.get? run.id = some row) :
    (finishRun env run outcome w).2 = raisedLast env outcome := by
  have hstored : (w.db.insertStepRows (Except.progress outcome).results
      (Except.progress outcome).healingEvents).runs.get? run.id = some row := hrow
  have hupdate := Database.updateRun_of_get? (closeRun env run outcome) hstored
  unfold finishRun raisedLast
  by_cases hrefused : refused outcome = true
  · simp only [hrefused, if_true]
  · simp only [hrefused, Bool.false_eq_true, if_false, hupdate]
    cases hlast : env.faults.lastCommit with
    | some raised => simp
    | none =>
      cases hpub : env.faults.publishFinished with
      | none => simp
      | some raised =>
        cases raised with
        | cancelled => simp
        | exception message => simp

theorem finishRun_changes (env : Env) (run : TestRun) (outcome : Except Stopped Progress) :
    ∃ c raised, Changes run (finishRun env run outcome) c raised := by
  have hcount := close_busier (closeRun env run outcome) outcome
  by_cases hc : Commits env outcome
  · refine ⟨{ current := some (closeRun env run outcome)
              results := (Except.progress outcome).results
              events := (Except.progress outcome).healingEvents
              news := (Except.progress outcome).published ++
                if env.faults.publishFinished = none then [finishedEvent (closeRun env run outcome)]
                else []
              count := fun m => m.close (closeRun env run outcome) outcome
              count_busier := hcount }, raisedLast env outcome, fun w row hrow => ?_⟩
    refine Prod.ext ?_ (finishRun_left hrow)
    rw [finishRun_of_commits hc hrow]
    unfold stepNews finishedNews Change.apply
    rw [List.map_append, List.append_assoc]
    split
    · rw [id_closeRun]
      rfl
    · rfl
  · refine ⟨{ news := (Except.progress outcome).published
              count := fun m => m.close (closeRun env run outcome) outcome
              count_busier := hcount }, raisedLast env outcome, fun w row hrow => ?_⟩
    refine Prod.ext ?_ (finishRun_left hrow)
    rw [finishRun_of_not_commits run w hc]
    rfl

end

/-! ## A world with executions in the middle, and one without -/

/-- The worlds differ in nothing but the executions of the runs `busy`, which `w` has begun and `v`
has not. -/
structure Alike (busy : List Uuid) (w v : World) : Prop where
  users : w.db.users = v.db.users
  suites : w.db.suites = v.db.suites
  cases : w.db.cases = v.db.cases
  arrangement : w.db.arrangement = v.db.arrangement
  stepResults : w.db.stepResults = v.db.stepResults
  healingEvents : w.db.healingEvents = v.db.healingEvents
  next : w.db.runs.next = v.db.runs.next
  rows : ∀ r ∉ busy, w.db.runs.get? r = v.db.runs.get? r
  channels : ∀ r ∉ busy, eventsOn r w = eventsOn r v
  metrics : w.metrics = v.metrics.busier busy.length

/-- The piece of `execute_run` concerned one run. -/
structure Elsewhere (runId : Uuid) (w w' : World) : Prop where
  suites : w'.db.suites = w.db.suites
  cases : w'.db.cases = w.db.cases
  arrangement : w'.db.arrangement = w.db.arrangement
  rows : ∀ r, r ≠ runId → w'.db.runs.get? r = w.db.runs.get? r
  channels : ∀ r, r ≠ runId → eventsOn r w' = eventsOn r w

section
variable {w w' v v' : World} {run row : TestRun} {runId : Uuid} {busy : List Uuid} {c : Change}
  {env : Env} {suite : TestSuite}

theorem Elsewhere.refl (runId : Uuid) (w : World) : Elsewhere runId w w :=
  ⟨rfl, rfl, rfl, fun _ _ => rfl, fun _ _ => rfl⟩

theorem Elsewhere.trans {w'' : World} (h : Elsewhere runId w w') (h' : Elsewhere runId w' w'') :
    Elsewhere runId w w'' where
  suites := h'.suites.trans h.suites
  cases := h'.cases.trans h.cases
  arrangement := h'.arrangement.trans h.arrangement
  rows := fun r hr => (h'.rows r hr).trans (h.rows r hr)
  channels := fun r hr => (h'.channels r hr).trans (h.channels r hr)

theorem eventsOn_apply (c : Change) (run : TestRun) (w : World) (r : Uuid) :
    eventsOn r (c.apply run w) = eventsOn r w ++ if run.id = r then c.news else [] :=
  eventsOn_append run.id rfl

theorem apply_elsewhere (c : Change) (run : TestRun) (w : World) :
    Elsewhere run.id w (c.apply run w) where
  suites := by
    unfold Change.apply
    cases c.current with
    | none => rfl
    | some current => rfl
  cases := by
    unfold Change.apply
    cases c.current with
    | none => rfl
    | some current => rfl
  arrangement := by
    unfold Change.apply
    cases c.current with
    | none => rfl
    | some current => rfl
  rows := by
    intro r hr
    unfold Change.apply
    cases c.current with
    | none => rfl
    | some current => exact Database.get?_setRun_of_ne hr
  channels := by
    intro r hr
    rw [eventsOn_apply, if_neg (Ne.symm hr), List.append_nil]

/-- What becomes of the row of the run depends on that row only. -/
theorem get?_apply_congr (h : w.db.runs.get? run.id = v.db.runs.get? run.id) :
    (c.apply run w).db.runs.get? run.id = (c.apply run v).db.runs.get? run.id := by
  unfold Change.apply
  cases c.current with
  | none => exact h
  | some current =>
    show ((w.db.insertStepRows _ _).setRun run current).runs.get? run.id =
      ((v.db.insertStepRows _ _).setRun run current).runs.get? run.id
    unfold Database.setRun
    rw [Table.get?_modify_self, Table.get?_modify_self]
    exact congrArg _ h

/-- From the gauge to the engine, where nothing raises. -/
def beginning (env : Env) (run : TestRun) (suite : TestSuite) : Change where
  current := some (begun env run)
  news := if env.faults.publishStarted = none then [.started run.id suite.slug] else []
  count := Metrics.inc
  count_busier := inc_busier

theorem begun_eq_apply (w : World) (env : Env) (run : TestRun) (suite : TestSuite) :
    w.begun env run suite = (beginning env run suite).apply run w := by
  unfold World.begun Change.apply beginning startedNews
  rw [Option.elim_some, Database.insertStepRows_nil]
  split
  · rfl
  · rfl

/-- One change of both worlds leaves what they differ in. -/
theorem Alike.apply (h : Alike busy w v) (c : Change) (run : TestRun) (hrun : run.id ∉ busy) :
    Alike busy (c.apply run w) (c.apply run v) := by
  have hrows : ∀ r ∉ busy,
      (c.apply run w).db.runs.get? r = (c.apply run v).db.runs.get? r := by
    intro r hr
    by_cases heq : r = run.id
    · rw [heq]
      exact get?_apply_congr (h.rows run.id hrun)
    · rw [(apply_elsewhere c run w).rows r heq, (apply_elsewhere c run v).rows r heq]
      exact h.rows r hr
  have hchannels : ∀ r ∉ busy, eventsOn r (c.apply run w) = eventsOn r (c.apply run v) := by
    intro r hr
    rw [eventsOn_apply, eventsOn_apply, h.channels r hr]
  have hmetrics : (c.apply run w).metrics = (c.apply run v).metrics.busier busy.length := by
    show c.count w.metrics = (c.count v.metrics).busier _
    rw [h.metrics, c.count_busier]
  have hdb (w : World) : (c.apply run w).db = c.current.elim w.db fun current =>
      (w.db.insertStepRows c.results c.events).setRun run current := rfl
  refine ⟨?_, ?_, ?_, ?_, ?_, ?_, ?_, hrows, hchannels, hmetrics⟩
  all_goals
    rw [hdb, hdb]
    cases c.current
  · exact h.users
  · exact h.users
  · exact h.suites
  · exact h.suites
  · exact h.cases
  · exact h.cases
  · exact h.arrangement
  · exact h.arrangement
  · exact h.stepResults
  · exact congrArg (· ++ c.results) h.stepResults
  · exact h.healingEvents
  · show w.db.healingEvents.insertAll _ _ c.events = v.db.healingEvents.insertAll _ _ c.events
    rw [h.healingEvents]
  · exact h.next
  · exact h.next

/-- `w` goes on to the engine, `v` does not. -/
theorem Alike.begin {before after : List Uuid} (h : Alike (before ++ after) w v) (env : Env)
    (run : TestRun) (suite : TestSuite) :
    Alike (before ++ run.id :: after) (w.begun env run suite) v := by
  have helsewhere : Elsewhere run.id w (w.begun env run suite) := by
    rw [begun_eq_apply]
    exact apply_elsewhere _ run w
  have hmem : ∀ r ∉ before ++ run.id :: after, r ≠ run.id ∧ r ∉ before ++ after := by
    intro r hr
    simp only [List.mem_append, List.mem_cons, not_or] at hr ⊢
    exact ⟨hr.2.1, hr.1, hr.2.2⟩
  refine ⟨h.users, h.suites, h.cases, h.arrangement, h.stepResults, h.healingEvents, h.next, ?_, ?_, ?_⟩
  · intro r hr
    obtain ⟨hne, hbusy⟩ := hmem r hr
    exact (helsewhere.rows r hne).trans (h.rows r hbusy)
  · intro r hr
    obtain ⟨hne, hbusy⟩ := hmem r hr
    exact (helsewhere.channels r hne).trans (h.channels r hbusy)
  · show w.metrics.inc = _
    rw [h.metrics, inc_busier]
    unfold Metrics.inc Metrics.busier
    simp only [List.length_append, List.length_cons, Metrics.mk.injEq, and_true]
    omega

/-- `v` begins the execution that `w` is in the middle of. -/
theorem Alike.catch_up {before after : List Uuid} (h : Alike (before ++ run.id :: after) w v)
    (row : w.db.runs.get? run.id = (v.begun env run suite).db.runs.get? run.id)
    (channel : eventsOn run.id w = eventsOn run.id (v.begun env run suite)) :
    Alike (before ++ after) w (v.begun env run suite) := by
  have helsewhere : Elsewhere run.id v (v.begun env run suite) := by
    rw [begun_eq_apply]
    exact apply_elsewhere _ run v
  have hmem : ∀ r ∉ before ++ after, r ≠ run.id → r ∉ before ++ run.id :: after := by
    intro r hr hne
    simp only [List.mem_append, List.mem_cons, not_or] at hr ⊢
    exact ⟨hr.1, hne, hr.2⟩
  refine ⟨h.users, h.suites, h.cases, h.arrangement, h.stepResults, h.healingEvents, h.next, ?_, ?_, ?_⟩
  · intro r hr
    by_cases hne : r = run.id
    · rw [hne]
      exact row
    · exact (h.rows r (hmem r hr hne)).trans (helsewhere.rows r hne).symm
  · intro r hr
    by_cases hne : r = run.id
    · rw [hne]
      exact channel
    · exact (h.channels r (hmem r hr hne)).trans (helsewhere.channels r hne).symm
  · show w.metrics = v.metrics.inc.busier _
    rw [h.metrics]
    unfold Metrics.inc Metrics.busier
    simp only [List.length_append, List.length_cons, Metrics.mk.injEq, and_true]
    omega

end

/-! ## One delivery at a time -/

section
variable [Unicode]

/-- Delivery `i` is executed from its first access to its last, and nobody else gets in between. -/
def Pool.serve (envs : ℕ → Env) (s : Pool) (i : ℕ) : Option Pool :=
  match s.deliveries[i]? with
  | none => none
  | some d =>
    match d.phase with
    | .created =>
      let (w, raised) := executeRun (envs i) d.runId s.world
      some { s with
        world := w
        deliveries := s.deliveries.set i { d with phase := .exited raised } }
    | _ => none

/-- Where a delivery is, `w` being its world, and where it is served in one go, `v` being that
world. -/
inductive PhaseTracks (env : Env) (w v : World) (runId : Uuid) : ExecutorPhase → ExecutorPhase → Prop
  | created : PhaseTracks env w v runId .created .created
  | loaded {run : TestRun} (row : v.db.runs.get? runId = some run) (queued : run.status = .queued) :
      PhaseTracks env w v runId (.loaded run) .created
  | missing {run : TestRun} (row : v.db.runs.get? runId = some run) (queued : run.status = .queued)
      (suite : v.db.getWithCases run.suiteId = none) :
      PhaseTracks env w v runId (.suiteLoaded run none) .created
  | found {run : TestRun} {suite : TestSuite} {cases : List TestCase}
      (found : Found v runId run suite cases) :
      PhaseTracks env w v runId (.suiteLoaded run (some (suite, cases))) .created
  | running {run : TestRun} {suite : TestSuite} {cases : List TestCase}
      (found : Found v runId run suite cases) (begins : Begins env)
      (row : w.db.runs.get? run.id = (v.begun env run suite).db.runs.get? run.id)
      (channel : eventsOn run.id w = eventsOn run.id (v.begun env run suite)) :
      PhaseTracks env w v runId (.running (begun env run) cases) .created
  | exited (raised : Option Raised) : PhaseTracks env w v runId (.exited raised) (.exited raised)

omit [Unicode] in
/-- What happens to other runs does not matter. -/
theorem PhaseTracks.elsewhere {env : Env} {w w' v v' : World} {runId other : Uuid}
    {phase served : ExecutorPhase} (h : PhaseTracks env w v runId phase served)
    (hw : Elsewhere other w w') (hv : Elsewhere other v v') (hne : runId ≠ other) :
    PhaseTracks env w' v' runId phase served := by
  have hsuites (suiteId : Uuid) : v'.db.getWithCases suiteId = v.db.getWithCases suiteId := by
    unfold Database.getWithCases Database.casesOf
    rw [hv.suites, hv.cases, hv.arrangement]
  have hrow := hv.rows runId hne
  have hfound {run : TestRun} {suite : TestSuite} {cases : List TestCase}
      (found : Found v runId run suite cases) : Found v' runId run suite cases :=
    ⟨hrow.trans found.row, found.queued, (hsuites run.suiteId).trans found.suite⟩
  cases h with
  | created => exact .created
  | loaded row queued => exact .loaded (hrow.trans row) queued
  | missing row queued suite => exact .missing (hrow.trans row) queued ((hsuites _).trans suite)
  | found found => exact .found (hfound found)
  | @running run suite cases found begins row channel =>
    have hid : run.id ≠ other := by
      rw [found.id]
      exact hne
    rw [begun_eq_apply] at row channel
    refine .running (hfound found) begins ?_ ?_
    · rw [hw.rows _ hid, row, begun_eq_apply]
      exact get?_apply_congr (hv.rows _ hid).symm
    · rw [hw.channels _ hid, channel, begun_eq_apply, eventsOn_apply, eventsOn_apply,
        hv.channels _ hid]
  | exited raised => exact .exited raised

omit [Unicode] in
/-- The runs whose execution has begun and not ended. -/
def busy (deliveries : List Delivery) : List Uuid :=
  (deliveries.filter fun d => d.phase.isRunning).map Delivery.runId

/-- `u` serves one delivery after the other; `s` has the same deliveries served at once. -/
structure Tracks (envs : ℕ → Env) (s u : Pool) : Prop where
  once : (s.deliveries.map Delivery.runId).Nodup
  alike : Alike (busy s.deliveries) s.world u.world
  length : u.deliveries.length = s.deliveries.length
  sessions : ∀ (i : ℕ) d, s.deliveries[i]? = some d → ∃ e, u.deliveries[i]? = some e ∧
    e.runId = d.runId ∧ PhaseTracks (envs i) s.world u.world d.runId d.phase e.phase

section
variable {envs : ℕ → Env} {s u : Pool} {i : ℕ} {d d' e e' : Delivery} {w v : World}

omit [Unicode] in
theorem other_run (h : (s.deliveries.map Delivery.runId).Nodup) (hd : s.deliveries[i]? = some d)
    {j : ℕ} (hj : s.deliveries[j]? = some d') (hne : j ≠ i) : d'.runId ≠ d.runId :=
  fun heq => hne (alone_of_nodup h j i d' d hj hd heq rfl)

omit [Unicode] in
theorem Tracks.step (h : Tracks envs s u) (hd : s.deliveries[i]? = some d)
    (he : u.deliveries[i]? = some e) (hid : d'.runId = d.runId) (hid' : e'.runId = d.runId)
    (hw : Elsewhere d.runId s.world w) (hv : Elsewhere d.runId u.world v)
    (halike : Alike (busy (s.deliveries.set i d')) w v)
    (hphases : PhaseTracks (envs i) w v d.runId d'.phase e'.phase) :
    Tracks envs { s with world := w, deliveries := s.deliveries.set i d' }
      { u with world := v, deliveries := u.deliveries.set i e' } := by
  have hi : i < u.deliveries.length := (List.getElem?_eq_some_iff.mp he).1
  refine ⟨?_, halike, ?_, ?_⟩
  · have hsame : (s.deliveries.set i d').map Delivery.runId = s.deliveries.map Delivery.runId := by
      obtain ⟨a, b, heq, hset, -⟩ := around_getElem? hd
      rw [hset, heq]
      simp [hid]
    show ((s.deliveries.set i d').map Delivery.runId).Nodup
    rw [hsame]
    exact h.once
  · simp [h.length]
  · intro j c hc
    rcases getElem?_set_cases hc with ⟨rfl, rfl⟩ | ⟨hne, hold⟩
    · exact ⟨e', List.getElem?_set_self hi, hid'.trans hid.symm, hid ▸ hphases⟩
    · obtain ⟨c', hc', hcid, hcphases⟩ := h.sessions j c hold
      refine ⟨c', ?_, hcid, ?_⟩
      · show (u.deliveries.set i e')[j]? = some c'
        rw [List.getElem?_set_ne (Ne.symm hne)]
        exact hc'
      · exact hcphases.elsewhere hw hv (other_run h.once hd hold hne)

omit [Unicode] in
theorem not_busy (h : (s.deliveries.map Delivery.runId).Nodup) (hd : s.deliveries[i]? = some d)
    (hidle : d.phase.isRunning = false) : d.runId ∉ busy s.deliveries := by
  intro hmem
  obtain ⟨d', hd', hid⟩ := List.mem_map.mp hmem
  obtain ⟨hmem', hrunning⟩ := List.mem_filter.mp hd'
  obtain ⟨j, hj⟩ := List.mem_iff_getElem?.mp hmem'
  by_cases hne : j = i
  · subst hne
    obtain rfl := Option.some.inj (hj.symm.trans hd)
    rw [hidle] at hrunning
    cases hrunning
  · exact other_run h hd hj hne hid

omit [Unicode] in
theorem busy_nodup (h : (s.deliveries.map Delivery.runId).Nodup) : (busy s.deliveries).Nodup :=
  h.sublist (List.filter_sublist.map Delivery.runId)

omit [Unicode] in
/-- What moving one delivery means for the runs that are executed. -/
theorem busy_set (hd : s.deliveries[i]? = some d) :
    ∃ before after,
      busy s.deliveries = before ++ (if d.phase.isRunning then [d.runId] else []) ++ after ∧
      ∀ d' : Delivery, busy (s.deliveries.set i d') =
        before ++ (if d'.phase.isRunning then [d'.runId] else []) ++ after := by
  obtain ⟨a, b, heq, hset, -⟩ := around_getElem? hd
  have hmiddle (c : Delivery) : busy (a ++ c :: b) =
      busy a ++ (if c.phase.isRunning then [c.runId] else []) ++ busy b := by
    unfold busy
    rw [List.filter_append, List.filter_cons]
    split
    · simp
    · simp
  refine ⟨busy a, busy b, ?_, fun d' => ?_⟩
  · rw [heq]
    exact hmiddle d
  · rw [hset]
    exact hmiddle d'

omit [Unicode] in
theorem busy_idle (hd : s.deliveries[i]? = some d) (hidle : d.phase.isRunning = false)
    (hidle' : d'.phase.isRunning = false) :
    busy (s.deliveries.set i d') = busy s.deliveries := by
  obtain ⟨before, after, hbusy, hset⟩ := busy_set hd
  rw [hset, hbusy, hidle, hidle']
  rfl

/-- Where a delivery exits, serving it exits. -/
theorem Tracks.exit (h : Tracks envs s u) (hd : s.deliveries[i]? = some d)
    (he : u.deliveries[i]? = some e) (hid : e.runId = d.runId) (hcreated : e.phase = .created)
    {raised : Option Raised} (hexec : executeRun (envs i) d.runId u.world = (v, raised))
    (hid' : d'.runId = d.runId) (hexited : d'.phase = .exited raised)
    (hw : Elsewhere d.runId s.world w) (hv : Elsewhere d.runId u.world v)
    (halike : Alike (busy (s.deliveries.set i d')) w v) :
    ∃ u', u.serve envs i = some u' ∧
      Tracks envs { s with world := w, deliveries := s.deliveries.set i d' } u' := by
  have hphases : PhaseTracks (envs i) w v d.runId d'.phase (.exited raised) := by
    rw [hexited]
    exact PhaseTracks.exited raised
  refine ⟨{ u with world := v, deliveries := u.deliveries.set i { e with phase := .exited raised } },
    ?_, h.step hd he hid' hid hw hv halike hphases⟩
  unfold Pool.serve
  simp only [he, hcreated, hid, hexec]

omit [Unicode] in
/-- The two worlds agree on a run that is not being executed. -/
theorem Tracks.row (h : Tracks envs s u) (hd : s.deliveries[i]? = some d)
    (hidle : d.phase.isRunning = false) :
    s.world.db.runs.get? d.runId = u.world.db.runs.get? d.runId :=
  h.alike.rows _ (not_busy h.once hd hidle)

omit [Unicode] in
/-- The delivery goes on without beginning or ending. -/
theorem Tracks.idle (h : Tracks envs s u) (hd : s.deliveries[i]? = some d)
    (he : u.deliveries[i]? = some e) (hid : e.runId = d.runId) (hid' : d'.runId = d.runId)
    (hidle : d.phase.isRunning = false) (hidle' : d'.phase.isRunning = false)
    (hphases : PhaseTracks (envs i) s.world u.world d.runId d'.phase e.phase) :
    Tracks envs { s with deliveries := s.deliveries.set i d' } u := by
  have halike : Alike (busy (s.deliveries.set i d')) s.world u.world := by
    rw [busy_idle hd hidle hidle']
    exact h.alike
  have hstep := h.step hd he hid' hid (Elsewhere.refl ..) (Elsewhere.refl ..) halike hphases
  have hsame : u.deliveries.set i e = u.deliveries := by
    obtain ⟨a, b, heq, hset', -⟩ := around_getElem? he
    rw [hset', heq]
  rw [hsame] at hstep
  exact hstep

/-- Where a delivery exits without having begun its steps. -/
theorem Tracks.exit_idle (h : Tracks envs s u) (hd : s.deliveries[i]? = some d)
    (he : u.deliveries[i]? = some e) (hid : e.runId = d.runId) (hcreated : e.phase = .created)
    (hidle : d.phase.isRunning = false) {run : TestRun}
    (hrow : u.world.db.runs.get? d.runId = some run) {c : Change} {raised : Option Raised}
    (hexec : executeRun (envs i) d.runId u.world = (c.apply run u.world, raised))
    (hid' : d'.runId = d.runId) (hexited : d'.phase = .exited raised) :
    ∃ u', u.serve envs i = some u' ∧
      Tracks envs { s with world := c.apply run s.world, deliveries := s.deliveries.set i d' } u' := by
  have hrun : run.id = d.runId := Table.get?_key hrow
  have hw := apply_elsewhere c run s.world
  have hv := apply_elsewhere c run u.world
  rw [hrun] at hw hv
  refine h.exit hd he hid hcreated hexec hid' hexited hw hv ?_
  have hidle' : d'.phase.isRunning = false := by
    rw [hexited]
    rfl
  rw [busy_idle hd hidle hidle']
  refine h.alike.apply c run ?_
  rw [hrun]
  exact not_busy h.once hd hidle

/-- The delivery of a run that is not queued is dropped, also where it is served alone. -/
theorem Tracks.skip (h : Tracks envs s u) (hd : s.deliveries[i]? = some d)
    (he : u.deliveries[i]? = some e) (hid : e.runId = d.runId) (hcreated : e.phase = .created)
    (hidle : d.phase.isRunning = false)
    (hdropped : ∀ run ∈ u.world.db.runs.get? d.runId, run.status ≠ .queued)
    (hid' : d'.runId = d.runId) (hexited : d'.phase = .exited none) :
    ∃ u', u.serve envs i = some u' ∧
      Tracks envs { s with deliveries := s.deliveries.set i d' } u' := by
  have hexec : executeRun (envs i) d.runId u.world = (u.world, none) := by
    unfold executeRun
    cases hrow : u.world.db.runs.get? d.runId with
    | none => rfl
    | some run => exact if_pos (hdropped run hrow)
  have hidle' : d'.phase.isRunning = false := by
    rw [hexited]
    rfl
  refine h.exit hd he hid hcreated hexec hid' hexited (.refl ..) (.refl ..) ?_
  rw [busy_idle hd hidle hidle']
  exact h.alike

omit [Unicode] in
/-- The delivery goes on to its steps. -/
theorem Tracks.begin (h : Tracks envs s u) (hd : s.deliveries[i]? = some d)
    (he : u.deliveries[i]? = some e) (hid : e.runId = d.runId) (hcreated : e.phase = .created)
    (hidle : d.phase.isRunning = false) {run : TestRun} {suite : TestSuite} {cases : List TestCase}
    (found : Found u.world d.runId run suite cases) (hb : Begins (envs i))
    (hid' : d'.runId = d.runId) (hrunning : d'.phase = .running (begun (envs i) run) cases) :
    Tracks envs { s with
      world := s.world.begun (envs i) run suite
      deliveries := s.deliveries.set i d' } u := by
  have hsame := h.row hd hidle
  have hchannel := h.alike.channels _ (not_busy h.once hd hidle)
  rw [← found.id] at hsame hchannel
  obtain ⟨before, after, hbusy, hset⟩ := busy_set hd
  have halike : Alike (busy (s.deliveries.set i d')) (s.world.begun (envs i) run suite) u.world := by
    have hone : Alike (before ++ after) s.world u.world := by
      simpa [hbusy, hidle] using h.alike
    rw [hset, hrunning, hid', ← found.id]
    simpa [ExecutorPhase.isRunning] using hone.begin (envs i) run suite
  have hw : Elsewhere d.runId s.world (s.world.begun (envs i) run suite) := by
    rw [begun_eq_apply, ← found.id]
    exact apply_elsewhere _ run s.world
  have hphases : PhaseTracks (envs i) (s.world.begun (envs i) run suite) u.world d.runId d'.phase
      e.phase := by
    rw [hcreated, hrunning]
    refine PhaseTracks.running found hb ?_ ?_
    · rw [begun_eq_apply, begun_eq_apply]
      exact get?_apply_congr hsame
    · rw [begun_eq_apply, begun_eq_apply, eventsOn_apply, eventsOn_apply, hchannel]
  have hstep := h.step hd he hid' hid hw (.refl ..) halike hphases
  have hkept : u.deliveries.set i e = u.deliveries := by
    obtain ⟨a, b, heq, hset', -⟩ := around_getElem? he
    rw [hset', heq]
  rw [hkept] at hstep
  exact hstep

/-- The delivery ends, and it is served in one go. -/
theorem Tracks.close (h : Tracks envs s u) (hd : s.deliveries[i]? = some d)
    (he : u.deliveries[i]? = some e) (hid : e.runId = d.runId) (hcreated : e.phase = .created)
    {run : TestRun} {suite : TestSuite} {cases : List TestCase}
    (hrunning : d.phase = .running (begun (envs i) run) cases)
    (found : Found u.world d.runId run suite cases) (hb : Begins (envs i))
    (row : s.world.db.runs.get? run.id = (u.world.begun (envs i) run suite).db.runs.get? run.id)
    (channel : eventsOn run.id s.world = eventsOn run.id (u.world.begun (envs i) run suite))
    {c : Change} {raised : Option Raised}
    (hchanges : Changes (begun (envs i) run)
      (finishRun (envs i) (begun (envs i) run) (executeCases (envs i) d.runId cases {})) c raised)
    (hid' : d'.runId = d.runId) (hexited : d'.phase = .exited raised) :
    ∃ u', u.serve envs i = some u' ∧
      Tracks envs { s with
        world := c.apply (begun (envs i) run) s.world
        deliveries := s.deliveries.set i d' } u' := by
  have hstored := get?_begun (envs i) suite found.row_id
  have hexec := (executeRun_of_begins found hb).trans (hchanges _ _ hstored)
  have hw : Elsewhere d.runId s.world (c.apply (begun (envs i) run) s.world) := by
    rw [← found.id]
    exact apply_elsewhere c (begun (envs i) run) s.world
  have hv : Elsewhere d.runId u.world
      (c.apply (begun (envs i) run) (u.world.begun (envs i) run suite)) := by
    rw [← found.id]
    refine Elsewhere.trans ?_ (apply_elsewhere c (begun (envs i) run) _)
    rw [begun_eq_apply]
    exact apply_elsewhere _ run u.world
  refine h.exit hd he hid hcreated hexec hid' hexited hw hv ?_
  obtain ⟨before, after, hbusy, hset⟩ := busy_set hd
  have hone : busy s.deliveries = before ++ run.id :: after := by
    simp [hbusy, hrunning, ExecutorPhase.isRunning, found.id]
  have hfree : run.id ∉ before ++ after := by
    have hnodup := busy_nodup h.once
    rw [hone, List.nodup_middle] at hnodup
    exact (List.nodup_cons.mp hnodup).1
  have halike : Alike (before ++ after) s.world (u.world.begun (envs i) run suite) := by
    have hmiddle := h.alike
    rw [hone] at hmiddle
    exact hmiddle.catch_up row channel
  rw [hset, hexited]
  simpa [ExecutorPhase.isRunning] using halike.apply c (begun (envs i) run) hfree

/-- Everything an access of a worker means for the deliveries served one by one. -/
theorem tracks_access (h : Tracks envs s u) (hd : s.deliveries[i]? = some d)
    (hid' : d'.runId = d.runId)
    (hnext : d.phase.next (envs i) d.runId s.world = (w, d'.phase)) :
    Tracks envs { s with world := w, deliveries := s.deliveries.set i d' } u ∨
      ∃ u', u.serve envs i = some u' ∧
        Tracks envs { s with world := w, deliveries := s.deliveries.set i d' } u' := by
  obtain ⟨e, he, hid, hphases⟩ := h.sessions i d hd
  generalize hphase : d.phase = phase at hphases hnext
  generalize hserved : e.phase = served at hphases
  cases hphases with
  | created =>
    have hidle : d.phase.isRunning = false := by rw [hphase]; rfl
    rw [ExecutorPhase.next, h.row hd hidle] at hnext
    cases hrow : u.world.db.runs.get? d.runId with
    | none =>
      rw [hrow] at hnext
      obtain ⟨rfl, hexited⟩ := Prod.mk.inj hnext
      exact Or.inr (h.skip hd he hid hserved hidle (by simp [hrow]) hid' hexited.symm)
    | some run =>
      rw [hrow] at hnext
      dsimp only at hnext
      split at hnext
      · next hdropped =>
        obtain ⟨rfl, hexited⟩ := Prod.mk.inj hnext
        exact Or.inr (h.skip hd he hid hserved hidle (by simp [hrow, hdropped]) hid' hexited.symm)
      · next hqueued =>
        obtain ⟨rfl, hloaded⟩ := Prod.mk.inj hnext
        refine Or.inl (h.idle hd he hid hid' hidle (by rw [← hloaded]; rfl) ?_)
        rw [hserved, ← hloaded]
        exact PhaseTracks.loaded hrow (not_not.mp hqueued)
  | @loaded run row queued =>
    have hidle : d.phase.isRunning = false := by rw [hphase]; rfl
    obtain ⟨rfl, hfound⟩ := Prod.mk.inj hnext
    refine Or.inl (h.idle hd he hid hid' hidle (by rw [← hfound]; rfl) ?_)
    have hsuite : s.world.db.getWithCases run.suiteId = u.world.db.getWithCases run.suiteId := by
      unfold Database.getWithCases Database.casesOf
      rw [h.alike.suites, h.alike.cases, h.alike.arrangement]
    rw [hserved, ← hfound, hsuite]
    cases hget : u.world.db.getWithCases run.suiteId with
    | none => exact PhaseTracks.missing row queued hget
    | some found => exact PhaseTracks.found ⟨row, queued, hget⟩
  | @missing run row queued suite =>
    have hidle : d.phase.isRunning = false := by rw [hphase]; rfl
    have hid_run : run.id = d.runId := Table.get?_key row
    have hsame := (h.row hd hidle).trans row
    obtain ⟨c, raised, hchanges⟩ := markSuiteMissing_changes (envs i) run
    have hexec : executeRun (envs i) d.runId u.world = (c.apply run u.world, raised) := by
      unfold executeRun
      simp only [row, queued, suite, ne_eq, not_true, if_false]
      exact hchanges u.world run (hid_run ▸ row)
    simp only [ExecutorPhase.next, hchanges s.world run (hid_run ▸ hsame)] at hnext
    obtain ⟨rfl, hexited⟩ := Prod.mk.inj hnext
    exact Or.inr (h.exit_idle hd he hid hserved hidle row hexec hid' hexited.symm)
  | @found run suite cases found =>
    have hidle : d.phase.isRunning = false := by rw [hphase]; rfl
    have hsame := (h.row hd hidle).trans found.row
    rw [← found.id] at hsame
    by_cases hb : Begins (envs i)
    · simp only [ExecutorPhase.next, beginRun_of_begins hb hsame] at hnext
      obtain ⟨rfl, hrunning⟩ := Prod.mk.inj hnext
      exact Or.inl (h.begin hd he hid hserved hidle found hb hid' hrunning.symm)
    · obtain ⟨c, raised, hchanges⟩ := beginRun_changes suite run hb
      have hexec : executeRun (envs i) d.runId u.world = (c.apply run u.world, some raised) := by
        unfold executeRun
        simp only [found.row, found.queued, found.suite, ne_eq, not_true, if_false,
          hchanges u.world run found.row_id]
      simp only [ExecutorPhase.next, hchanges s.world run hsame] at hnext
      obtain ⟨rfl, hexited⟩ := Prod.mk.inj hnext
      exact Or.inr (h.exit_idle hd he hid hserved hidle found.row hexec hid' hexited.symm)
  | @running run suite cases found begins row channel =>
    obtain ⟨c, raised, hchanges⟩ := finishRun_changes (envs i) (begun (envs i) run)
      (executeCases (envs i) d.runId cases {})
    have hstored := row.trans (get?_begun (envs i) suite found.row_id)
    simp only [ExecutorPhase.next, hchanges s.world _ hstored] at hnext
    obtain ⟨rfl, hexited⟩ := Prod.mk.inj hnext
    exact Or.inr (h.close hd he hid hserved hphase found begins row channel hchanges hid'
      hexited.symm)
  | exited raised =>
    obtain ⟨rfl, hexited⟩ := Prod.mk.inj hnext
    refine Or.inl (h.idle hd he hid hid' (by rw [hphase]; rfl) (by rw [← hexited]; rfl) ?_)
    rw [hserved, ← hexited]
    exact PhaseTracks.exited raised

/-- A step of the workers is matched by serving one delivery, or by nothing. -/
theorem tracks_next (h : Tracks envs s u) {t : Pool}
    (hstep : s.next (.deliver i (envs i)) = some t) :
    Tracks envs t u ∨ ∃ u', u.serve envs i = some u' ∧ Tracks envs t u' := by
  obtain ⟨d, w, phase, hd, -, -, -⟩ := deliver_next hstep
  simp only [Pool.next, hd, Delivery.next] at hstep
  obtain rfl := Option.some.inj hstep
  exact tracks_access h hd rfl rfl

/-! ## Schedules -/

omit [Unicode] in
/-- Nothing that is stored, told, counted or raised tells the pools apart. -/
structure SameOutcome (s t : Pool) : Prop where
  db : s.world.db = t.world.db
  metrics : s.world.metrics = t.world.metrics
  channels : ∀ r, eventsOn r s.world = eventsOn r t.world
  exits : ∀ i : ℕ, s.deliveries[i]?.map Delivery.phase = t.deliveries[i]?.map Delivery.phase

/-- The workers take their accesses in the order of `schedule`, worker `i` under `envs i`. -/
def Pool.scheduled (envs : ℕ → Env) (s : Pool) (i : ℕ) : Option Pool :=
  s.next (.deliver i (envs i))

theorem scheduled_tracks {schedule : List ℕ} {t : Pool} (h : Tracks envs s u)
    (hrun : Run (ofNext (Pool.scheduled envs)) s schedule t) :
    ∃ order u', order.Sublist schedule ∧ Run (ofNext (Pool.serve envs)) u order u' ∧
      Tracks envs t u' := by
  have keep : ∀ s i t u, Tracks envs s u → ofNext (Pool.scheduled envs) s i t →
      Tracks envs t u ∨ ∃ u', ofNext (Pool.serve envs) u (id i) u' ∧ Tracks envs t u' :=
    fun s i t u hs hstep => tracks_next hs hstep
  have hmatched := hrun.collapsed id keep h
  rwa [List.map_id] at hmatched

omit [Unicode] in
/-- The same pool twice, before anything begins. -/
theorem initial_tracks (hstart : ∀ d ∈ s.deliveries, d.phase = .created)
    (honce : (s.deliveries.map Delivery.runId).Nodup) : Tracks envs s s := by
  have hidle : busy s.deliveries = [] := by
    unfold busy
    rw [List.map_eq_nil_iff, List.filter_eq_nil_iff]
    intro d hd
    rw [hstart d hd]
    exact Bool.false_ne_true
  refine ⟨honce, ?_, rfl, ?_⟩
  · rw [hidle]
    refine ⟨rfl, rfl, rfl, rfl, rfl, rfl, rfl, fun _ _ => rfl, fun _ _ => rfl, ?_⟩
    unfold Metrics.busier
    simp
  · intro i d hd
    refine ⟨d, hd, rfl, ?_⟩
    rw [hstart d (List.mem_of_getElem? hd)]
    exact PhaseTracks.created

omit [Unicode] in
/-- When every delivery has exited nothing is left to tell the pools apart. -/
theorem Tracks.outcome (h : Tracks envs s u) (hdone : ∀ d ∈ s.deliveries, d.phase.isExited = true) :
    SameOutcome s u := by
  have hidle : busy s.deliveries = [] := by
    unfold busy
    rw [List.map_eq_nil_iff, List.filter_eq_nil_iff]
    intro d hd hrunning
    have hexited := hdone d hd
    cases hphase : d.phase with
    | exited raised =>
      rw [hphase] at hrunning
      cases hrunning
    | created | loaded | suiteLoaded | running =>
      rw [hphase] at hexited
      cases hexited
  have halike := h.alike
  rw [hidle] at halike
  have hruns : s.world.db.runs = u.world.db.runs :=
    Table.ext_get? halike.next fun r => halike.rows r List.not_mem_nil
  refine ⟨?_, ?_, fun r => halike.channels r List.not_mem_nil, ?_⟩
  · have hdb (a b : Database) (h1 : a.users = b.users) (h2 : a.suites = b.suites)
        (h3 : a.cases = b.cases) (h4 : a.runs = b.runs) (h5 : a.stepResults = b.stepResults)
        (h6 : a.healingEvents = b.healingEvents) (h7 : a.arrangement = b.arrangement) : a = b := by
      cases a
      cases b
      simp_all
    exact hdb _ _ halike.users halike.suites halike.cases hruns halike.stepResults
      halike.healingEvents halike.arrangement
  · rw [halike.metrics]
    unfold Metrics.busier
    simp
  · intro i
    cases hi : s.deliveries[i]? with
    | none =>
      have hlength : u.deliveries.length ≤ i := by
        rw [h.length]
        exact List.getElem?_eq_none_iff.mp hi
      rw [List.getElem?_eq_none hlength]
    | some d =>
      obtain ⟨e, he, -, hphases⟩ := h.sessions i d hi
      have hexited := hdone d (List.mem_of_getElem? hi)
      rw [he, Option.map_some, Option.map_some, Option.some.injEq]
      generalize d.phase = phase at hphases hexited
      generalize e.phase = served at hphases
      cases hphases with
      | exited raised => rfl
      | created | loaded | missing | found | running => cases hexited

/-- Each delivery is served once, and it exits there. -/
theorem served (hstart : ∀ d ∈ s.deliveries, d.phase = .created) {order : List ℕ}
    (h : Run (ofNext (Pool.serve envs)) s order u) :
    order.Nodup ∧ u.deliveries.length = s.deliveries.length ∧
      (∀ i ∈ order, i < u.deliveries.length) ∧
      ∀ (i : ℕ) e, u.deliveries[i]? = some e → (e.phase = .created ↔ i ∉ order) := by
  induction h with
  | nil =>
    refine ⟨List.nodup_nil, rfl, fun _ hi => absurd hi List.not_mem_nil, fun i e he => ?_⟩
    simp [hstart e (List.mem_of_getElem? he)]
  | @snoc t u order i hbefore hlast ih =>
    obtain ⟨hnodup, hlength, hbound, hserved⟩ := ih
    obtain ⟨d, d', hd, hcreated, hexited, hdeliveries⟩ : ∃ d d' : Delivery,
        t.deliveries[i]? = some d ∧ d.phase = .created ∧ d'.phase ≠ .created ∧
          u.deliveries = t.deliveries.set i d' := by
      unfold ofNext Pool.serve at hlast
      cases hd : t.deliveries[i]? with
      | none => simp [hd] at hlast
      | some d =>
        cases hphase : d.phase with
        | created =>
          simp only [hd, hphase] at hlast
          obtain rfl := Option.some.inj hlast
          exact ⟨d, _, rfl, hphase, ExecutorPhase.noConfusion, rfl⟩
        | loaded | suiteLoaded | running | exited => simp [hd, hphase] at hlast
    have hnew : i ∉ order := (hserved i d hd).mp hcreated
    refine ⟨?_, ?_, ?_, ?_⟩
    · rw [List.nodup_append_comm]
      exact List.nodup_cons.mpr ⟨hnew, hnodup⟩
    · rw [hdeliveries, List.length_set, hlength]
    · intro j hj
      rw [hdeliveries, List.length_set]
      rcases List.mem_append.mp hj with hold | hlast'
      · exact hbound j hold
      · rw [List.mem_singleton.mp hlast']
        exact (List.getElem?_eq_some_iff.mp hd).1
    · intro j e he
      rw [hdeliveries] at he
      rcases getElem?_set_cases he with ⟨rfl, rfl⟩ | ⟨hne, hold⟩
      · simp [hexited]
      · rw [hserved j e hold, List.mem_append, List.mem_singleton, not_or]
        exact ⟨fun h => ⟨h, hne⟩, And.left⟩

/-- Whatever the schedule, the workers leave what they leave one after the other. -/
theorem serialisable {schedule : List ℕ} {t : Pool} (hstart : ∀ d ∈ s.deliveries, d.phase = .created)
    (honce : (s.deliveries.map Delivery.runId).Nodup)
    (hrun : Run (ofNext (Pool.scheduled envs)) s schedule t)
    (hdone : ∀ d ∈ t.deliveries, d.phase.isExited = true) :
    ∃ order u, order.Sublist schedule ∧ order.Perm (List.range s.deliveries.length) ∧
      Run (ofNext (Pool.serve envs)) s order u ∧ SameOutcome t u := by
  obtain ⟨order, u, hsub, hserve, htracks⟩ := scheduled_tracks (initial_tracks hstart honce) hrun
  have houtcome := htracks.outcome hdone
  obtain ⟨hnodup, hlength, hbound, hserved⟩ := served hstart hserve
  refine ⟨order, u, hsub, ?_, hserve, houtcome⟩
  refine (List.perm_ext_iff_of_nodup hnodup List.nodup_range).mpr fun i => ?_
  rw [List.mem_range, ← hlength]
  refine ⟨hbound i, fun hi => ?_⟩
  have he : u.deliveries[i]? = some u.deliveries[i] := List.getElem?_eq_getElem hi
  have hphase := houtcome.exits i
  rw [he, Option.map_some, Option.map_eq_some_iff] at hphase
  obtain ⟨d, hd, hsame⟩ := hphase
  have hexited := hdone d (List.mem_of_getElem? hd)
  by_contra hnew
  rw [hsame, (hserved i _ he).mpr hnew] at hexited
  cases hexited

end

end

/-! ## Two workers -/

theorem id_loginRun (n : ℕ) : TestRun.id { loginRun with id := n } = n := rfl

/-- The suite of the small platform is run twice. -/
def twicePool : Pool where
  world :=
    { db := { loginDb with
        runs := loginDb.runs.insert (fun n => { loginRun with id := n }) id_loginRun } }
  deliveries := [{ runId := 0 }, { runId := 1 }]
  cancels := []

/-- The first worker loses the database before its last commit. -/
def twiceEnvs (i : ℕ) : Env :=
  calmEnv (fun _ _ => .ok giveUp)
    { lastCommit := if i = 0 then some (.exception "connection lost") else none }

/-- The second worker begins later and is through first. -/
theorem twice_serialisable :
    ∃ t, Run (ofNext (@Pool.scheduled asciiUnicode twiceEnvs)) twicePool [0, 1, 0, 0, 1, 1, 1, 0] t ∧
      t.world.db.stepResults.map StepResult.runId = [1, 1] ∧
      ∃ order u, order.Sublist [0, 1, 0, 0, 1, 1, 1, 0] ∧ order.Perm [0, 1] ∧
        Run (ofNext (@Pool.serve asciiUnicode twiceEnvs)) twicePool order u ∧ SameOutcome t u := by
  let _ : Unicode := asciiUnicode
  have hrun : ∃ t, Run (ofNext (Pool.scheduled twiceEnvs)) twicePool [0, 1, 0, 0, 1, 1, 1, 0] t ∧
      t.world.db.stepResults.map StepResult.runId = [1, 1] ∧
      (t.deliveries.all fun d => d.phase.isExited) = true := ⟨_, exec_run rfl, by decide, by decide⟩
  obtain ⟨t, hrun, hresults, hdone⟩ := hrun
  refine ⟨t, hrun, hresults, ?_⟩
  refine serialisable ?_ (by decide) hrun (List.all_eq_true.mp hdone)
  intro d hd
  simp only [twicePool, List.mem_cons, List.not_mem_nil, or_false] at hd
  rcases hd with rfl | rfl
  · rfl
  · rfl

end AegisPlatform.Workers
