import AegisPlatform.Api.Site

/-! # The end of a run

A run that is over has its `finished_at` set and one `run.finished` event with its status. The
executor's closing commit does both. The executor's commit for a missing suite and the cancel
endpoint do neither, and an execution that is cancelled in its loop sets the timestamp and publishes
the event of a run that is still RUNNING. `Ends` excludes these three.
-/

namespace AegisPlatform.Api
open Foundations Domain Core Db Services Workers
set_option autoImplicit false
set_option maxHeartbeats 250000

def finishedStatus (channel : Uuid) : Uuid × RunEvent → Option RunStatus
  | (runId, .finished status ..) => if runId = channel then some status else none
  | (_, .started ..) | (_, .stepCompleted ..) => none

/-- The statuses of the `run.finished` events on the channel of a run. -/
def finishedStatuses (published : List (Uuid × RunEvent)) (channel : Uuid) : List RunStatus :=
  published.filterMap (finishedStatus channel)

/-- A terminal status, a timestamp and an event come together. -/
structure Notified (w : World) : Prop where
  finishedAt : ∀ run ∈ w.db.runs.rows,
    (run.status.isTerminal = true ↔ run.finishedAt.isSome = true)
  event : ∀ run ∈ w.db.runs.rows, run.status.isTerminal = true →
    finishedStatuses w.published run.id = [run.status]

/-- Over, with timestamp and event, or live, with neither. -/
def Tidy (run : TestRun) (statuses : List RunStatus) : Prop :=
  (run.status.isTerminal = true ∧ run.finishedAt.isSome = true ∧ statuses = [run.status]) ∨
    (run.status.isTerminal = false ∧ run.finishedAt = none ∧ statuses = [])

structure Settled (w : World) : Prop where
  rows : ∀ r run, w.db.runs.get? r = some run → Tidy run (finishedStatuses w.published r)
  fresh : ∀ r, w.db.runs.next ≤ r → finishedStatuses w.published r = []

theorem Settled.notified {w : World} (h : Settled w) : Notified w where
  finishedAt := by
    intro run hrun
    rcases h.rows run.id run (Table.get?_of_mem hrun) with ⟨hterminal, hset, -⟩ | ⟨hlive, hnone, -⟩
    · simp [hterminal, hset]
    · simp [hlive, hnone]
  event := by
    intro run hrun hterminal
    rcases h.rows run.id run (Table.get?_of_mem hrun) with ⟨-, -, hnews⟩ | ⟨hlive, -, -⟩
    · exact hnews
    · rw [hterminal] at hlive
      cases hlive

section
variable {published news : List (Uuid × RunEvent)} {r : Uuid}

theorem finishedStatuses_append (published news : List (Uuid × RunEvent)) (r : Uuid) :
    finishedStatuses (published ++ news) r =
      finishedStatuses published r ++ finishedStatuses news r :=
  List.filterMap_append

theorem finishedStatuses_eq_nil (h : ∀ e ∈ news, isFinished e.2 = true → e.1 ≠ r) :
    finishedStatuses news r = [] := by
  unfold finishedStatuses
  rw [List.filterMap_eq_nil_iff]
  rintro ⟨channel, event⟩ he
  cases event with
  | started runId suite => rfl
  | stepCompleted case index status selector => rfl
  | finished status passed failed healed durationMs =>
    simp only [finishedStatus]
    rw [if_neg (h _ he rfl)]

end

/-! ## Executions -/

section
variable [Unicode] {env : Env} {runId : Uuid} {w w' : World} {run : TestRun} {suite : TestSuite}
  {cases : List TestCase}

omit [Unicode] in
/-- An execution changes no other row, and speaks on no other channel. -/
theorem settled_of_own {row : TestRun} {news : List (Uuid × RunEvent)} (h : Settled w)
    (hrow : w'.db.runs.get? runId = some row)
    (hothers : ∀ r, r ≠ runId → w'.db.runs.get? r = w.db.runs.get? r)
    (hnext : w'.db.runs.next = w.db.runs.next) (hpublished : w'.published = w.published ++ news)
    (hchannel : ∀ e ∈ news, e.1 = runId)
    (htidy : Tidy row (finishedStatuses w.published runId ++ finishedStatuses news runId)) :
    Settled w' := by
  have hquiet : ∀ r, r ≠ runId → finishedStatuses news r = [] := by
    intro r hr
    apply finishedStatuses_eq_nil
    intro e he _ hsame
    exact hr (hsame ▸ hchannel e he)
  constructor
  · intro r run' hrun'
    rw [hpublished, finishedStatuses_append]
    by_cases hr : r = runId
    · subst hr
      rw [hrow] at hrun'
      obtain rfl := Option.some.inj hrun'
      exact htidy
    · rw [hquiet r hr, List.append_nil]
      exact h.rows r run' (hothers r hr ▸ hrun')
  · intro r hr
    rw [hnext] at hr
    have hlt : runId < w.db.runs.next := hnext ▸ Table.get?_lt hrow
    have hne : r ≠ runId := Nat.ne_of_gt (Nat.lt_of_lt_of_le hlt hr)
    rw [hpublished, finishedStatuses_append, hquiet r hne, List.append_nil]
    exact h.fresh r hr

theorem begun_news (env : Env) (run : TestRun) (suite : TestSuite) (cases : List TestCase) :
    (∀ e ∈ startedNews env run suite ++ stepNews run (executeCases env run.id cases {}),
        e.1 = run.id) ∧
      finishedStatuses (startedNews env run suite ++
        stepNews run (executeCases env run.id cases {})) run.id = [] := by
  constructor
  · intro e he
    rcases List.mem_append.mp he with he | he
    · rw [mem_startedNews he]
    · obtain ⟨event, -, rfl⟩ := List.mem_map.mp he
      rfl
  · apply finishedStatuses_eq_nil
    intro e he hfinished
    rw [not_finished_of_mem he] at hfinished
    cases hfinished

omit [Unicode] in
/-- A queued run is settled only if nothing of its end is there. -/
theorem found_live (hfound : Found w runId run suite cases) (h : Settled w) :
    run.finishedAt = none ∧ finishedStatuses w.published runId = [] := by
  rcases h.rows runId run hfound.row with ⟨hterminal, -⟩ | ⟨-, hnone, hnews⟩
  · rw [hfound.queued] at hterminal
    cases hterminal
  · exact ⟨hnone, hnews⟩

theorem closed_settled (hfound : Found w run.id run suite cases) (h : Settled w)
    (hclosed : Closed env run suite (executeCases env run.id cases {}) w w')
    (hnext : w'.db.runs.next = w.db.runs.next) (hpublish : env.faults.publishFinished = none)
    (hterminal : (closeRun env (begun env run) (executeCases env run.id cases {})).status.isTerminal
      = true) : Settled w' := by
  obtain ⟨-, hquiet⟩ := found_live hfound h
  obtain ⟨hchannel, hsilent⟩ := begun_news env run suite cases
  refine settled_of_own h hclosed.row hclosed.others hnext hclosed.published ?_ ?_
  · intro e he
    rcases List.mem_append.mp he with he | he
    · exact hchannel e he
    · rw [finishedNews_eq he]
      exact id_closeRun env (begun env run) _
  · rw [hquiet, finishedStatuses_append, hsilent]
    refine Or.inl ⟨hterminal, by simp, ?_⟩
    unfold finishedNews finishedStatuses
    rw [if_pos hpublish, id_closeRun]
    simp [finishedStatus, finishedEvent]

omit [Unicode] in
/-- The begin of an execution and a closing commit that fails leave a live run. -/
theorem begun_settled (hfound : Found w run.id run suite cases) (h : Settled w)
    {news : List (Uuid × RunEvent)} (hdb : w'.db = w.db.setRun run (begun env run))
    (hpublished : w'.published = w.published ++ news) (hchannel : ∀ e ∈ news, e.1 = run.id)
    (hsilent : finishedStatuses news run.id = []) : Settled w' := by
  obtain ⟨hlive, hquiet⟩ := found_live hfound h
  have hrow : w'.db.runs.get? run.id = some (begun env run) := by
    rw [hdb]
    exact get?_begun env suite hfound.row_id
  refine settled_of_own h hrow ?_ ?_ hpublished hchannel ?_
  · intro r hr
    rw [hdb]
    exact Database.get?_setRun_of_ne hr
  · rw [hdb]
    rfl
  · rw [hquiet, hsilent]
    exact Or.inr ⟨rfl, hlive, rfl⟩

theorem executeRun_next (env : Env) (runId : Uuid) (w : World) :
    (executeRun env runId w).1.db.runs.next = w.db.runs.next := by
  refine executeRun_keeps (I := fun db => db.runs.next = w.db.runs.next) env runId w ?_ rfl
  intro db phase db' phase' hstep hof hi
  rcases phase_writes hstep hof with rfl | ⟨loaded, current, -, results, events, -, -, -, -, rfl⟩
  · exact hi
  · exact hi

theorem not_begun_settled (hfound : Found w run.id run suite cases) (h : Settled w)
    (hb : ¬ Begins env) : Settled (executeRun env run.id w).1 := by
  obtain ⟨w', raised, hbegin, hexec⟩ := executeRun_of_not_begins hfound hb
  obtain ⟨w'', raised', hbegin', -, hdb, hpublished⟩ :=
    beginRun_of_not_begins suite hb hfound.row_id
  rw [hbegin] at hbegin'
  obtain ⟨rfl, -⟩ := Prod.mk.inj hbegin'
  rw [hexec]
  have hnews : ∃ news, w'.published = w.published ++ news ∧ (∀ e ∈ news, e.1 = run.id) ∧
      finishedStatuses news run.id = [] := by
    rcases hpublished with hsame | hstarted
    · exact ⟨[], by simp [hsame], by simp, rfl⟩
    · exact ⟨_, hstarted, by simp, rfl⟩
  obtain ⟨news, hnews, hchannel, hsilent⟩ := hnews
  rcases hdb with hsame | hset
  · obtain ⟨hlive, hquiet⟩ := found_live hfound h
    refine settled_of_own h (hsame ▸ hfound.row) ?_ (by rw [hsame]) hnews hchannel ?_
    · intro r _
      rw [hsame]
    · rw [hquiet, hsilent]
      exact Or.inr ⟨by rw [hfound.queued]; rfl, hlive, rfl⟩
  · exact begun_settled hfound h hset hnews hchannel hsilent

/-- The execution neither closes a cancelled loop nor marks a run whose suite is missing. -/
def EndsWell (env : Env) (run : TestRun) (db : Database) : Prop :=
  match db.getWithCases run.suiteId with
  | none => env.faults.firstCommit ≠ none
  | some (_, cases) => Begins env → env.faults.lastCommit = none →
      ∀ stop, stopIn env 0 cases = some stop → stop.usable = true → stop.raised ≠ .cancelled

theorem found_settled (hfound : Found w run.id run suite cases) (h : Settled w)
    (hpublish : env.faults.publishFinished = none) (hends : EndsWell env run w.db) :
    Settled (executeRun env run.id w).1 := by
  by_cases hb : Begins env
  · by_cases hc : Commits env (executeCases env run.id cases {})
    · have hclosed := executeRun_closed hfound hb hc
      refine closed_settled hfound h hclosed (executeRun_next env run.id w) hpublish ?_
      rw [isTerminal_closeRun env (status_begun env run)]
      intro s hs
      obtain ⟨stop, hstop, -, hraised, husable⟩ := outcome_error hs
      unfold EndsWell at hends
      rw [hfound.suite] at hends
      rw [hraised]
      apply hends hb hc.lastCommit stop hstop
      have hrefused := hc.usable
      rw [hs] at hrefused
      rw [← husable]
      simpa [refused] using hrefused
    · rw [executeRun_of_begins hfound hb,
        finishRun_of_not_commits (begun env run) (w.begun env run suite) hc]
      obtain ⟨hchannel, hsilent⟩ := begun_news env run suite cases
      refine begun_settled hfound h rfl ?_ hchannel hsilent
      simp only [World.begun, List.append_assoc]
      rfl
  · exact not_begun_settled hfound h hb

theorem execute_settled (h : Settled w) (hpublish : env.faults.publishFinished = none)
    (hends : ∀ run, w.db.runs.get? runId = some run → run.status = .queued →
      EndsWell env run w.db) :
    Settled (executeRun env runId w).1 := by
  cases hrow : w.db.runs.get? runId with
  | none =>
    unfold executeRun
    rw [hrow]
    exact h
  | some run =>
    have hid := Table.get?_key hrow
    subst hid
    by_cases hq : run.status = .queued
    · cases hsuite : w.db.getWithCases run.suiteId with
      | none =>
        have hfails := hends run hrow hq
        unfold EndsWell at hfails
        rw [hsuite] at hfails
        obtain ⟨raised, hraised⟩ := Option.ne_none_iff_exists'.mp hfails
        unfold executeRun markSuiteMissing
        simp only [hrow, hq, ne_eq, not_true, if_false, hsuite, hraised]
        exact h
      | some found => exact found_settled ⟨hrow, hq, hsuite⟩ h hpublish (hends run hrow hq)
    · unfold executeRun
      simp only [hrow, ne_eq, hq, not_false_eq_true, if_true]
      exact h

end

/-! ## Requests -/

section
variable {w : World} {db : Database}

theorem settled_of_rows (h : Settled w)
    (hrows : ∀ r run, db.runs.get? r = some run → w.db.runs.get? r = some run)
    (hnext : db.runs.next = w.db.runs.next) : Settled { w with db := db } where
  rows := fun r run hrun => h.rows r run (hrows r run hrun)
  fresh := fun r hr => h.fresh r (hnext ▸ hr)

theorem created_settled (h : Settled w) (suite : TestSuite) (cases : List TestCase)
    (data : RunCreate) (user : User) (idempotencyKey : Option String) :
    Settled { w with db := RunService.insertRun w.db suite cases data user idempotencyKey } where
  rows := by
    intro r run hrun
    have hid : ∀ n, (RunService.newRun suite cases data user idempotencyKey n).id = n := fun _ => rfl
    by_cases hr : r = w.db.runs.next
    · subst hr
      have hself := Table.get?_insert_self w.db.runs _ hid
      obtain rfl := Option.some.inj (hself.symm.trans hrun)
      exact Or.inr ⟨rfl, rfl, h.fresh _ (le_refl _)⟩
    · have hsame := Table.get?_insert_of_ne w.db.runs _ hid hr
      exact h.rows r run (hsame.symm.trans hrun)
  fresh := fun r hr => h.fresh r (Nat.le_of_succ_le hr)

/-- Every request but a cancellation keeps the runs it does not delete. -/
theorem write_settled {user : User} {write : Write} (h : Settled w)
    (hwrite : WriteEffect w.db user write db)
    (hcancel : ∀ runId, write = .cancelRun runId → ∀ run,
      RunService.cancellable w.db runId user = .ok run → run.status.isTerminal = true) :
    Settled { w with db := db } := by
  cases hwrite with
  | nothing => exact h
  | createSuite => exact settled_of_rows h (fun _ _ hrun => hrun) rfl
  | updateSuite => exact settled_of_rows h (fun _ _ hrun => hrun) rfl
  | addCase => exact settled_of_rows h (fun _ _ hrun => hrun) rfl
  | review => exact settled_of_rows h (fun _ _ hrun => hrun) rfl
  | deleteSuite suiteId hget hallowed =>
    refine settled_of_rows h ?_ rfl
    exact fun r run hrun => ((Table.get?_filter_eq_some_iff w.db.runs _ r run).mp hrun).1
  | @cancelRun runId run hrow hlive =>
    rw [hcancel runId rfl run hrow] at hlive
    cases hlive

end

/-! ## Runs of the site -/

section
variable [Unicode]

/-- No live run is cancelled, and every execution ends well and can publish its end. -/
def Ends (s : Site) : SiteLabel → Prop
  | .request userId (.write (.cancelRun runId)) commits _ => commits = true →
      ∀ user run, engineer s.world.db userId = .ok user →
        RunService.cancellable s.world.db runId user = .ok run → run.status.isTerminal = true
  | .execute runId env => env.faults.publishFinished = none ∧
      ∀ run, s.world.db.runs.get? runId = some run → run.status = .queued →
        EndsWell env run s.world.db
  | .request .. | .loseSuite _ => True

omit [Unicode] in
theorem initial_settled {s : Site} (h : s.Initial) : Settled s.world where
  rows := by
    intro r run hrun
    have hmem := Table.get?_mem hrun
    rw [h.runs] at hmem
    cases hmem
  fresh := by
    intro r _
    rw [h.published]
    rfl

theorem settled_step {s t : Site} {l : SiteLabel} (h : Settled s.world)
    (hstep : Under Ends (ofNext Site.next) s l t) : Settled t.world := by
  obtain ⟨hguard, hnext⟩ := hstep
  unfold ofNext at hnext
  cases l with
  | request userId request commits enqueues =>
    simp only [Site.next, Option.some.injEq] at hnext
    subst hnext
    have heffect := handle_effect s.world.db userId commits enqueues request
    generalize (handle s.world.db userId commits enqueues request).1 = db at heffect ⊢
    generalize (handle s.world.db userId commits enqueues request).2.1 = called at heffect ⊢
    cases heffect with
    | nothing => exact h
    | @write user write _ huser hcommits hwrite =>
      refine write_settled h hwrite ?_
      rintro runId rfl run hrow
      exact hguard hcommits user run huser hrow
    | @createRun user suite cases suiteId data idempotencyKey huser hrunnable =>
      exact created_settled h suite cases data user idempotencyKey
  | execute runId env =>
    obtain rfl := Option.some.inj hnext
    exact execute_settled h hguard.1 hguard.2
  | loseSuite suiteId =>
    obtain rfl := Option.some.inj hnext
    exact settled_of_rows h (fun _ _ hrun => hrun) rfl

/-- In every run of the site in which no live run is cancelled and executions end well, terminal
status, timestamp and event come together. -/
theorem terminal_notified {s t : Site} {ls : List SiteLabel} (h : s.Initial)
    (hrun : Run (Under Ends (ofNext Site.next)) s ls t) : Notified t.world := by
  have hinv : Settled t.world :=
    hrun.invariant (I := fun s => Settled s.world) (fun _ _ _ hi hstep => settled_step hi hstep)
      (initial_settled h)
  exact hinv.notified

end

/-! ## Ends without notice, and an end with it -/

/-- Neither a cancelled run nor one whose suite disappeared gets a timestamp or an event. -/
theorem ended_unnotified :
    loginSite.Initial ∧
      (∃ t, Run (ofNext (@Site.next asciiUnicode)) loginSite
          [demoTrigger true, .request 0 (.write (.cancelRun 0)) true true] t ∧
        (t.world.db.runs.rows.map fun run => (run.status, run.finishedAt)) = [(.cancelled, none)] ∧
        t.world.published = [] ∧ ¬ Notified t.world) ∧
      ∃ t, Run (ofNext (@Site.next asciiUnicode)) loginSite
          [demoTrigger true, .loseSuite 0, .execute 0 calm] t ∧
        (t.world.db.runs.rows.map fun run => (run.status, run.finishedAt)) = [(.error, none)] ∧
        t.world.published = [] ∧ ¬ Notified t.world := by
  refine ⟨loginSite_initial, ⟨_, exec_run rfl, by decide, by decide, fun h => ?_⟩,
    ⟨_, exec_run rfl, by decide, by decide, fun h => ?_⟩⟩
  · exact absurd ((h.finishedAt _ List.mem_cons_self).mp rfl) (by decide)
  · exact absurd ((h.finishedAt _ List.mem_cons_self).mp rfl) (by decide)

theorem login_notified :
    ∃ t, Run (Under (@Ends asciiUnicode) (ofNext (@Site.next asciiUnicode))) loginSite
        [demoTrigger true, .execute 0 calm] t ∧
      t.world.db.runs.rows.map TestRun.status = [.failed] ∧ Notified t.world := by
  let _ : Unicode := asciiUnicode
  have hends : ∀ s : Site, s.world.db.getWithCases 0 = some (loginSuite, [loginCase]) →
      (∀ run ∈ s.world.db.runs.rows, run.suiteId = 0) → Ends s (.execute 0 calm) := by
    intro s hsuite hruns
    refine ⟨rfl, fun run hrow _ => ?_⟩
    unfold EndsWell
    rw [hruns run (Table.get?_mem hrow), hsuite]
    intro _ _ stop hstop
    have hnone : stopIn calm 0 [loginCase] = none := by decide
    rw [hnone] at hstop
    cases hstop
  have hrun : ∃ t, Run (Under Ends (ofNext Site.next)) loginSite
      [demoTrigger true, .execute 0 calm] t ∧ t.world.db.runs.rows.map TestRun.status = [.failed] := by
    refine ⟨_, (Run.single ⟨trivial, rfl⟩).trans (Run.single ⟨hends _ rfl (by decide), rfl⟩), ?_⟩
    decide
  obtain ⟨t, ht, hseen⟩ := hrun
  exact ⟨t, ht, hseen, terminal_notified loginSite_initial ht⟩

end AegisPlatform.Api
