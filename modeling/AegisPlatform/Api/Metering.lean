import AegisPlatform.Api.Platform

/-! # What the metrics say of the platform

The gauge and the counters of `execute_run` against the database, over every run of the platform. A
delivery raises the gauge at most once and counts a run at most once, and it does not leave both
behind. No run is stored PASSED or FAILED without having been counted so.
-/

namespace AegisPlatform.Api
open Foundations Domain Core Db Services Workers
set_option autoImplicit false
set_option maxHeartbeats 250000

/-! ## The ledger -/

/-- What a delivery has left in the metrics. -/
structure Entry where
  gauge : ℕ := 0
  counted : Option RunStatus := none

/-- What a delivery can have left in the metrics by its phase. -/
def Entry.Fits (e : Entry) (phase : ExecutorPhase) : Prop :=
  e.gauge + e.counted.toList.length ≤ (if phase.isExited || phase.isRunning then 1 else 0) ∧
    (phase.isRunning = true → e.gauge = 1)

def isVerdict : RunStatus → Bool
  | .passed | .failed => true
  | .queued | .running | .error | .cancelled => false

/-- Every delivery with what it has left in the metrics; together that is what the metrics say. -/
structure Metered (s : Pool) (ledger : List (Delivery × Entry)) : Prop where
  deliveries : ledger.map Prod.fst = s.deliveries
  fits : ∀ p ∈ ledger, p.2.Fits p.1.phase
  gauge : s.world.metrics.activeRuns = ((ledger.map fun p => p.2.gauge).sum : ℕ)
  totals : s.world.metrics.runsTotal.Perm (ledger.filterMap fun p => p.2.counted)
  tasks : s.world.metrics.workerTasks = s.world.metrics.runsTotal.map (Prod.mk "execute_run")
  verdicts : ∀ r run, s.world.db.runs.get? r = some run → isVerdict run.status = true →
    ∃ p ∈ ledger, p.1.runId = r ∧ p.2.counted = some run.status

/-- No run is given a verdict. -/
def NoVerdict (db db' : Database) : Prop :=
  ∀ r run, db'.runs.get? r = some run → isVerdict run.status = true →
    ∃ before, db.runs.get? r = some before ∧ before.status = run.status

section
variable {db db' : Database} {user : User}

theorem NoVerdict.of_runs (h : db'.runs = db.runs) : NoVerdict db db' := by
  intro r run hrun _
  rw [h] at hrun
  exact ⟨run, hrun, rfl⟩

/-- Writing back a row whose session set no verdict. -/
theorem NoVerdict.of_setRun {loaded current : TestRun} (h : isVerdict current.status = false) :
    NoVerdict db (db.setRun loaded current) := by
  intro r run hrun hverdict
  by_cases hr : r = loaded.id
  · subst hr
    cases hrow : db.runs.get? loaded.id with
    | none =>
      unfold Database.setRun at hrun
      rw [Table.get?_modify_self, hrow] at hrun
      cases hrun
    | some row =>
      rw [Database.get?_setRun current hrow] at hrun
      obtain rfl := Option.some.inj hrun
      refine ⟨row, rfl, ?_⟩
      rw [TestRun.status_writeBack] at hverdict ⊢
      unfold written at hverdict ⊢
      split
      · rfl
      · next hchanged =>
        rw [if_neg hchanged, h] at hverdict
        cases hverdict
  · rw [Database.get?_setRun_of_ne hr] at hrun
    exact ⟨run, hrun, rfl⟩

theorem effect_noVerdict {userId : Uuid} {commits : Bool} {request : Request} {called : Option Uuid}
    (h : Effect db userId commits request db' called) : NoVerdict db db' := by
  cases h with
  | nothing => exact .of_runs rfl
  | @createRun actor suite cases suiteId data key =>
    intro r run hrun hverdict
    by_cases hr : r = db.runs.next
    · subst hr
      have hself := Table.get?_insert_self db.runs
        (RunService.newRun suite cases data actor key) fun _ => RunService.id_newRun ..
      obtain rfl := Option.some.inj (hself.symm.trans hrun)
      cases hverdict
    · have hold := Table.get?_insert_of_ne db.runs
        (RunService.newRun suite cases data actor key) (fun _ => RunService.id_newRun ..) hr
      exact ⟨run, hold.symm.trans hrun, rfl⟩
  | write huser hcommits hwrite =>
    cases hwrite with
    | nothing => exact .of_runs rfl
    | createSuite => exact .of_runs rfl
    | updateSuite => exact .of_runs rfl
    | deleteSuite =>
      intro r run hrun _
      exact ⟨run, ((Table.get?_filter_eq_some_iff db.runs _ r run).mp hrun).1, rfl⟩
    | addCase => exact .of_runs rfl
    | cancelRun => exact NoVerdict.of_setRun rfl
    | review => exact .of_runs rfl

theorem cancel_noVerdict {runId : Uuid} {commits : Bool} {phase phase' : CancelPhase}
    (h : CancelStep runId commits db phase db' phase') : NoVerdict db db' := by
  cases h with
  | refuse => exact .of_runs rfl
  | load => exact .of_runs rfl
  | commit => exact NoVerdict.of_setRun rfl
  | fail => exact .of_runs rfl
  | done => exact .of_runs rfl

/-- Only the end of the steps gives a verdict. -/
theorem phase_noVerdict [Unicode] {env : Env} {runId : Uuid} {phase phase' : ExecutorPhase}
    (h : PhaseStep env runId db phase db' phase') (hidle : phase.isRunning = false) :
    NoVerdict db db' := by
  cases h with
  | skip => exact .of_runs rfl
  | load => exact .of_runs rfl
  | find => exact .of_runs rfl
  | miss => exact NoVerdict.of_setRun rfl
  | missFails => exact .of_runs rfl
  | begin => exact NoVerdict.of_setRun rfl
  | beginRaises => exact NoVerdict.of_setRun rfl
  | beginFails => exact .of_runs rfl
  | close => cases hidle
  | closeFails => cases hidle
  | done => exact .of_runs rfl

end

/-! ## One access of a worker -/

/-- The end of an execution counts its status; where the flush failed under a cancellation it counts
nothing. -/
theorem close_counts (m : Metrics) (run : TestRun) (outcome : Except Stopped Progress) :
    ∃ added : Option RunStatus,
      (m.close run outcome).runsTotal = m.runsTotal ++ added.toList ∧
      (m.close run outcome).workerTasks =
        m.workerTasks ++ added.toList.map (Prod.mk "execute_run") ∧
      (refused outcome = false → added = some run.status) := by
  cases outcome with
  | ok p => exact ⟨some run.status, rfl, rfl, fun _ => rfl⟩
  | error stopped =>
    obtain ⟨p, raised, usable⟩ := stopped
    cases raised with
    | exception message => exact ⟨some run.status, rfl, rfl, fun _ => rfl⟩
    | cancelled =>
      cases usable with
      | true => exact ⟨some run.status, rfl, rfl, fun _ => rfl⟩
      | false => exact ⟨none, by simp [Metrics.close], by simp [Metrics.close], by simp [refused]⟩

section
variable {s : Pool} {ledger : List (Delivery × Entry)} {i : ℕ} {d d' : Delivery} {e e' : Entry}
  {w : World}

/-- One delivery moves, and what it leaves in the metrics is entered. -/
theorem Metered.step (h : Metered s ledger) (hi : ledger[i]? = some (d, e))
    (hid : d'.runId = d.runId) (hfits : e'.Fits d'.phase) (added : Option RunStatus)
    (hcounted : e'.counted.toList = e.counted.toList ++ added.toList)
    (hgauge : w.metrics.activeRuns = s.world.metrics.activeRuns - e.gauge + e'.gauge)
    (htotals : w.metrics.runsTotal = s.world.metrics.runsTotal ++ added.toList)
    (htasks : w.metrics.workerTasks =
      s.world.metrics.workerTasks ++ added.toList.map (Prod.mk "execute_run"))
    (hverdicts : ∀ r run, w.db.runs.get? r = some run → isVerdict run.status = true →
      (∃ before, s.world.db.runs.get? r = some before ∧ before.status = run.status) ∨
        r = d.runId ∧ added = some run.status) :
    Metered { s with world := w, deliveries := s.deliveries.set i d' } (ledger.set i (d', e')) := by
  obtain ⟨a, b, heq, hset, -⟩ := around_getElem? hi
  have hmem : (d', e') ∈ ledger.set i (d', e') := by
    rw [hset]
    exact List.mem_append_right _ List.mem_cons_self
  have hkept : e.counted.toList ⊆ e'.counted.toList := by
    rw [hcounted]
    exact List.subset_append_left _ _
  refine ⟨?_, ?_, ?_, ?_, ?_, ?_⟩
  · rw [List.map_set, h.deliveries]
  · intro p hp
    rw [hset, List.mem_append, List.mem_cons] at hp
    have hall := h.fits
    simp only [heq, List.mem_append, List.mem_cons] at hall
    rcases hp with hp | rfl | hp
    · exact hall p (Or.inl hp)
    · exact hfits
    · exact hall p (Or.inr (Or.inr hp))
  · have hsum := h.gauge
    rw [heq] at hsum
    rw [hset]
    simp only [List.map_append, List.map_cons, List.sum_append, List.sum_cons, Nat.cast_add]
      at hsum ⊢
    rw [hgauge, hsum]
    omega
  · have hperm := h.totals
    rw [htotals, hset]
    rw [heq] at hperm
    refine (hperm.append_right _).trans ?_
    have hentry (c : Delivery) (x : Entry) (rest : List (Delivery × Entry)) :
        ((c, x) :: rest).filterMap (fun p => p.2.counted) =
          x.counted.toList ++ rest.filterMap fun p => p.2.counted := by
      cases hx : x.counted with
      | none => simp [hx]
      | some status => simp [hx]
    rw [List.filterMap_append, List.filterMap_append, hentry, hentry, hcounted, List.append_assoc,
      List.append_assoc, List.append_assoc]
    exact ((List.perm_append_comm).append_left _).append_left _
  · rw [htasks, htotals, h.tasks, List.map_append]
  · intro r run hrun hverdict
    rcases hverdicts r run hrun hverdict with ⟨before, hbefore, hstatus⟩ | ⟨rfl, rfl⟩
    · rw [← hstatus] at hverdict
      obtain ⟨p, hp, hpid, hpcounted⟩ := h.verdicts r before hbefore hverdict
      rw [heq, List.mem_append, List.mem_cons] at hp
      rw [hset]
      rcases hp with hp | rfl | hp
      · exact ⟨p, List.mem_append_left _ hp, hpid, hpcounted.trans (congrArg some hstatus)⟩
      · refine ⟨(d', e'), List.mem_append_right _ List.mem_cons_self, hid.trans hpid, ?_⟩
        have hin : before.status ∈ e'.counted.toList := hkept (Option.mem_toList.mpr hpcounted)
        rw [← hstatus]
        exact Option.mem_toList.mp hin
      · exact ⟨p, List.mem_append_right _ (List.mem_cons_of_mem _ hp), hpid,
          hpcounted.trans (congrArg some hstatus)⟩
    · refine ⟨(d', e'), hmem, hid, ?_⟩
      have hin : run.status ∈ e'.counted.toList := by
        rw [hcounted]
        simp
      exact Option.mem_toList.mp hin

/-- Nothing but the database and the delivery changes, and no run is given a verdict. -/
theorem Metered.quiet (h : Metered s ledger) (hi : ledger[i]? = some (d, e))
    (hid : d'.runId = d.runId) (hfits : e.Fits d'.phase) (hmetrics : w.metrics = s.world.metrics)
    (hquiet : NoVerdict s.world.db w.db) :
    Metered { s with world := w, deliveries := s.deliveries.set i d' } (ledger.set i (d', e)) := by
  refine h.step hi hid hfits none (by simp) ?_ (by simp [hmetrics]) (by simp [hmetrics])
    fun r run hrun hverdict => Or.inl (hquiet r run hrun hverdict)
  rw [hmetrics]
  omega

/-- The gauge goes up, and no run is given a verdict. -/
theorem Metered.raise (h : Metered s ledger) (hi : ledger[i]? = some (d, e))
    (hid : d'.runId = d.runId) (hidle : d.phase.isRunning = false)
    (hopen : d.phase.isExited = false)
    (hon : (d'.phase.isExited || d'.phase.isRunning) = true)
    (hmetrics : w.metrics = s.world.incActiveRuns.metrics)
    (hquiet : NoVerdict s.world.db w.db) :
    ∃ ledger', Metered { s with world := w, deliveries := s.deliveries.set i d' } ledger' := by
  obtain ⟨hbefore, -⟩ := h.fits _ (List.mem_of_getElem? hi)
  simp only [hidle, hopen, Bool.or_false, Bool.false_eq_true, if_false, Nat.le_zero,
    Nat.add_eq_zero_iff] at hbefore
  have hcounted : e.counted = none := by simpa using hbefore.2
  refine ⟨ledger.set i (d', { gauge := 1 }), h.step hi hid ⟨?_, fun _ => rfl⟩ none (by simp [hcounted]) ?_
    (by simp [hmetrics, World.incActiveRuns]) (by simp [hmetrics, World.incActiveRuns])
    fun r run hrun hverdict => Or.inl (hquiet r run hrun hverdict)⟩
  · rw [hon]
    exact Nat.le_refl 1
  · rw [hmetrics, hbefore.1]
    simp [World.incActiveRuns]

end

section
variable [Unicode] {s t : Pool} {ledger : List (Delivery × Entry)} {i : ℕ} {env : Env}

/-- The end of the steps: the gauge goes down, and a verdict that is stored is counted. -/
theorem Metered.close {d d' : Delivery} {e : Entry} {run : TestRun} {cases : List TestCase}
    (h : Metered s ledger) (hi : ledger[i]? = some (d, e)) (hid : d'.runId = d.runId)
    (hrunning : d.phase = .running run cases) (hof : run.id = d.runId ∧ run.status = .running)
    (hexited : d'.phase.isExited = true) (hidle : d'.phase.isRunning = false) :
    ∃ ledger', Metered { s with
      world := (finishRun env run (executeCases env d.runId cases {}) s.world).1
      deliveries := s.deliveries.set i d' } ledger' := by
  generalize executeCases env d.runId cases {} = outcome
  obtain ⟨hbefore, hgauge⟩ := h.fits _ (List.mem_of_getElem? hi)
  rw [hrunning] at hbefore hgauge
  have hone : e.gauge = 1 := hgauge rfl
  rw [hone] at hbefore
  have hcounted : e.counted = none := by
    have hzero : e.counted.toList.length ≤ 0 := by
      simpa [ExecutorPhase.isRunning] using hbefore
    simpa using hzero
  obtain ⟨added, htotals, htasks, hadded⟩ := close_counts s.world.metrics (closeRun env run outcome)
    outcome
  have hdown := activeRuns_close s.world.metrics (closeRun env run outcome) outcome
  have hfits : Entry.Fits { gauge := 0, counted := added } d'.phase := by
    refine ⟨?_, fun hstill => ?_⟩
    · rw [hexited, Bool.true_or, if_pos rfl]
      cases added with
      | none => exact Nat.zero_le 1
      | some status => exact Nat.le_refl 1
    · rw [hidle] at hstill
      cases hstill
  have hgauge' : (finishRun env run outcome s.world).1.metrics =
      s.world.metrics.close (closeRun env run outcome) outcome := by
    rcases finishRun_cases env run outcome s.world with heq | ⟨row, -, -, heq⟩
    · rw [heq]
    · rw [heq]
  refine ⟨ledger.set i (d', { gauge := 0, counted := added }), h.step hi hid hfits added (by simp [hcounted]) ?_ ?_ ?_ ?_⟩
  · rw [hgauge', hdown, hone]
    simp
  · rw [hgauge', htotals]
  · rw [hgauge', htasks]
  · intro r row' hrow' hverdict
    rcases finishRun_cases env run outcome s.world with heq | ⟨row, hrow, hc, heq⟩
    · rw [heq] at hrow'
      exact Or.inl ⟨row', hrow', rfl⟩
    · rw [heq] at hrow'
      by_cases hr : r = run.id
      · subst hr
        have hstored := Database.get?_setRun (closeRun env run outcome)
          (show (s.world.db.insertStepRows (Except.progress outcome).results
            (Except.progress outcome).healingEvents).runs.get? run.id = some row from hrow)
        obtain rfl := Option.some.inj (hstored.symm.trans hrow')
        rw [TestRun.status_writeBack] at hverdict ⊢
        unfold written at hverdict ⊢
        split
        · exact Or.inl ⟨row, hrow, rfl⟩
        · exact Or.inr ⟨hof.1, hadded hc.usable⟩
      · rw [Database.get?_setRun_of_ne hr] at hrow'
        exact Or.inl ⟨row', hrow', rfl⟩

theorem metered_deliver (hs : Coherent s) (h : Metered s ledger)
    (hstep : ofNext Pool.next s (.deliver i env) t) : ∃ ledger', Metered t ledger' := by
  obtain ⟨d, w, phase, hd, access, step, rfl⟩ := deliver_next hstep
  obtain ⟨e, hi⟩ : ∃ e, ledger[i]? = some (d, e) := by
    rw [← h.deliveries, List.getElem?_map] at hd
    obtain ⟨⟨d', e⟩, hp, rfl⟩ := Option.map_eq_some_iff.mp hd
    exact ⟨e, hp⟩
  have hof := hs.deliveries i d hd
  have hfits : e.Fits d.phase := h.fits _ (List.mem_of_getElem? hi)
  generalize hphase : d.phase = old at access step hfits hof
  cases access with
  | load row queued => exact ⟨_, h.quiet hi rfl hfits rfl (phase_noVerdict step rfl)⟩
  | find run => exact ⟨_, h.quiet hi rfl hfits rfl (phase_noVerdict step rfl)⟩
  | drops db raised hrunning hopen =>
    refine ⟨_, h.quiet hi rfl ⟨?_, fun hstill => ?_⟩ rfl (phase_noVerdict step hrunning)⟩
    · refine hfits.1.trans ?_
      rw [hrunning, hopen]
      exact Nat.zero_le _
    · cases hstill
  | begins suite cases hb hrow =>
    exact h.raise hi rfl (by rw [hphase]; rfl) (by rw [hphase]; rfl) rfl rfl (phase_noVerdict step rfl)
  | leaks suite cases raised hmetrics hpublished =>
    exact h.raise hi rfl (by rw [hphase]; rfl) (by rw [hphase]; rfl) rfl hmetrics
      (phase_noVerdict step rfl)
  | closes run cases raised => exact h.close hi rfl hphase ⟨hof.1, hof.2.1⟩ rfl rfl
  | done raised => exact ⟨_, h.quiet hi rfl hfits rfl (.of_runs rfl)⟩

/-! ## Runs of the platform -/

/-- A delivery that no worker has taken. -/
def untaken (runId : Uuid) : Delivery × Entry := ⟨{ runId := runId }, {}⟩

omit [Unicode] in
/-- A request gives no verdict, and a run it hands over is one more delivery. -/
theorem Metered.answer (h : Metered s ledger) {db : Database} (handed : Option Uuid)
    (hquiet : NoVerdict s.world.db db) :
    Metered (Platform.answer s db handed)
      (ledger ++ handed.toList.map untaken) := by
  have hnew : (handed.toList.map untaken).filterMap (fun p => p.2.counted) = [] := by
    rw [List.filterMap_map, List.filterMap_eq_nil_iff]
    exact fun _ _ => rfl
  refine ⟨?_, ?_, ?_, ?_, h.tasks, ?_⟩
  · rw [List.map_append, h.deliveries, List.map_map]
    rfl
  · intro p hp
    rcases List.mem_append.mp hp with hold | hadded
    · exact h.fits p hold
    · obtain ⟨runId, -, rfl⟩ := List.mem_map.mp hadded
      exact ⟨Nat.le_refl 0, fun hrunning => by cases hrunning⟩
  · have hsum : ((handed.toList.map untaken).map fun p => p.2.gauge).sum = 0 := by
      rw [List.map_map, List.sum_eq_zero]
      intro x hx
      obtain ⟨runId, -, rfl⟩ := List.mem_map.mp hx
      rfl
    rw [List.map_append, List.sum_append, hsum, Nat.add_zero]
    exact h.gauge
  · rw [List.filterMap_append, hnew, List.append_nil]
    exact h.totals
  · intro r run hrun hverdict
    obtain ⟨before, hbefore, hstatus⟩ := hquiet r run hrun hverdict
    rw [← hstatus] at hverdict ⊢
    obtain ⟨p, hp, hpid, hpcounted⟩ := h.verdicts r before hbefore hverdict
    exact ⟨p, List.mem_append_left _ hp, hpid, hpcounted⟩

omit [Unicode] in
theorem Metered.database (h : Metered s ledger) {db : Database} {cancels : List CancelSession}
    (hquiet : NoVerdict s.world.db db) :
    Metered { s with world := { s.world with db := db }, cancels := cancels } ledger := by
  refine ⟨h.deliveries, h.fits, h.gauge, h.totals, h.tasks, ?_⟩
  intro r run hrun hverdict
  obtain ⟨before, hbefore, hstatus⟩ := hquiet r run hrun hverdict
  rw [← hstatus] at hverdict ⊢
  exact h.verdicts r before hbefore hverdict

theorem metered_next {l : PlatformLabel} (hs : Coherent s) (h : Metered s ledger)
    (hstep : ofNext Platform.next s l t) : ∃ ledger', Metered t ledger' := by
  cases l with
  | request userId request commits enqueues =>
    obtain rfl := Option.some.inj hstep
    exact ⟨_, h.answer _ (effect_noVerdict (handle_effect s.world.db userId commits enqueues request))⟩
  | register hashPassword data =>
    simp only [ofNext, Platform.next] at hstep
    split at hstep
    · obtain rfl := Option.some.inj hstep
      exact ⟨ledger, h⟩
    · next user db hregister =>
      obtain rfl := Option.some.inj hstep
      obtain ⟨-, -, hdb⟩ := register_ok hregister
      exact ⟨_, h.answer none (.of_runs (by rw [hdb]; rfl))⟩
  | deliver i env => exact metered_deliver (i := i) hs h hstep
  | arrive userId runId =>
    simp only [ofNext, Platform.next] at hstep
    split at hstep
    · obtain rfl := Option.some.inj hstep
      exact ⟨ledger, h⟩
    · obtain rfl := Option.some.inj hstep
      exact ⟨ledger, h.database (.of_runs rfl)⟩
  | cancel i commits =>
    cases pool_step (l := .cancel i commits) hstep with
    | cancel hc step => exact ⟨ledger, h.database (cancel_noVerdict step)⟩

omit [Unicode] in
theorem initial_metered (h : Platform.Initial s) (hfresh : s.world.metrics = {}) :
    Metered s [] := by
  refine ⟨h.deliveries.symm, by simp, by simp [hfresh], by simp [hfresh], by simp [hfresh], ?_⟩
  intro r run hrun
  have hmem := Table.get?_mem hrun
  rw [h.runs] at hmem
  cases hmem

/-! ## What a dashboard shows -/

omit [Unicode] in
theorem running_le_gauge (hfits : ∀ p ∈ ledger, p.2.Fits p.1.phase) :
    (ledger.map Prod.fst).countP (fun d => d.phase.isRunning) ≤ (ledger.map fun p => p.2.gauge).sum := by
  induction ledger with
  | nil => exact Nat.le_refl 0
  | cons p rest ih =>
    obtain ⟨hp, hrest⟩ := List.forall_mem_cons.mp hfits
    have hone := hp.2
    have hih := ih hrest
    rw [List.map_cons, List.map_cons, List.countP_cons, List.sum_cons]
    split
    · next hrunning =>
      rw [hone hrunning]
      omega
    · omega

omit [Unicode] in
theorem gauge_counted_le (hfits : ∀ p ∈ ledger, p.2.Fits p.1.phase) :
    (ledger.map fun p => p.2.gauge).sum + (ledger.filterMap fun p => p.2.counted).length ≤
      (ledger.map Prod.fst).countP fun d => d.phase.isExited || d.phase.isRunning := by
  induction ledger with
  | nil => exact Nat.le_refl 0
  | cons p rest ih =>
    obtain ⟨hp, hrest⟩ := List.forall_mem_cons.mp hfits
    have hone := hp.1
    have hih := ih hrest
    have hlength : ((p :: rest).filterMap fun p => p.2.counted).length =
        p.2.counted.toList.length + (rest.filterMap fun p => p.2.counted).length := by
      cases hc : p.2.counted with
      | none => simp [hc]
      | some status => simp [hc]; omega
    rw [List.map_cons, List.map_cons, List.countP_cons, List.sum_cons, hlength]
    omega

omit [Unicode] in
/-- The runs stored with a verdict are among those counted with it. -/
theorem Metered.verdicts_le (h : Metered s ledger) {status : RunStatus}
    (hverdict : isVerdict status = true) :
    (s.world.db.runs.rows.countP fun run => run.status = status) ≤
      s.world.metrics.runsTotal.count status := by
  have hids : ((s.world.db.runs.rows.filter fun run => run.status = status).map TestRun.id).Nodup :=
    s.world.db.runs.nodup.sublist (List.filter_sublist.map TestRun.id)
  have hsub : (s.world.db.runs.rows.filter fun run => run.status = status).map TestRun.id ⊆
      (ledger.filter fun p => p.2.counted = some status).map fun p => p.1.runId := by
    intro r hr
    obtain ⟨run, hrun, rfl⟩ := List.mem_map.mp hr
    obtain ⟨hmem, hstatus⟩ := List.mem_filter.mp hrun
    obtain rfl := of_decide_eq_true hstatus
    obtain ⟨p, hp, hpid, hpcounted⟩ := h.verdicts run.id run (Table.get?_of_mem hmem) hverdict
    exact List.mem_map.mpr ⟨p, List.mem_filter.mpr ⟨hp, decide_eq_true hpcounted⟩, hpid⟩
  have hlength := (List.subperm_of_subset hids hsub).length_le
  rw [List.length_map, List.length_map, ← List.countP_eq_length_filter,
    ← List.countP_eq_length_filter] at hlength
  refine hlength.trans (Nat.le_of_eq ?_)
  rw [h.totals.count_eq, List.count_filterMap]
  exact List.countP_congr fun p _ => by simp

/-- In every state: a run stored PASSED or FAILED was counted so; the two counters agree; the gauge
is at least the number of executions; and together with the number of runs counted it is at most the
number of deliveries that have begun or are over. -/
theorem metrics_reconcile {ls : List PlatformLabel} (h : Platform.Initial s)
    (hfresh : s.world.metrics = {}) (hrun : Run (ofNext Platform.next) s ls t) :
    (∀ status, isVerdict status = true →
      (t.world.db.runs.rows.countP fun run => run.status = status) ≤
        t.world.metrics.runsTotal.count status) ∧
      t.world.metrics.workerTasks = t.world.metrics.runsTotal.map (Prod.mk "execute_run") ∧
      ((t.deliveries.countP fun d => d.phase.isRunning : ℕ) : ℤ) ≤ t.world.metrics.activeRuns ∧
      t.world.metrics.activeRuns + t.world.metrics.runsTotal.length ≤
        (t.deliveries.countP fun d => d.phase.isExited || d.phase.isRunning : ℕ) := by
  have ht : Coherent t ∧ ∃ ledger, Metered t ledger := by
    refine hrun.invariant (I := fun u => Coherent u ∧ ∃ ledger, Metered u ledger) ?_
      ⟨initial_coherent h, [], initial_metered h hfresh⟩
    rintro u l v ⟨hu, ledger, hledger⟩ hstep
    exact ⟨coherent_step hu hstep, metered_next hu hledger hstep⟩
  obtain ⟨-, ledger, hledger⟩ := ht
  have hrunning := running_le_gauge hledger.fits
  have hboth := gauge_counted_le hledger.fits
  rw [hledger.deliveries] at hrunning hboth
  refine ⟨fun status => hledger.verdicts_le, hledger.tasks, ?_, ?_⟩
  · rw [hledger.gauge]
    exact_mod_cast hrunning
  · rw [hledger.gauge, hledger.totals.length_eq]
    exact_mod_cast hboth

end

/-! ## One run that is over and one in the middle -/

def adaOverlaps : List PlatformLabel :=
  adaBegins ++ [.request 0 (.triggerRun 0 {} none) true true, .deliver 1 calm, .deliver 1 calm,
    .deliver 1 calm, .deliver 0 calm]

theorem ada_reconciled :
    ∃ t, Run (ofNext (@Platform.next asciiUnicode)) emptyPlatform adaOverlaps t ∧
      t.world.metrics.runsTotal = [.failed] ∧ t.world.metrics.activeRuns = 1 ∧
      (t.world.db.runs.rows.countP fun run => run.status = .failed) ≤
        t.world.metrics.runsTotal.count .failed ∧
      ((t.deliveries.countP fun d => d.phase.isRunning : ℕ) : ℤ) ≤ t.world.metrics.activeRuns := by
  let _ : Unicode := asciiUnicode
  have hrun : ∃ t, Run (ofNext Platform.next) emptyPlatform adaOverlaps t ∧
      t.world.metrics.runsTotal = [.failed] ∧ t.world.metrics.activeRuns = 1 :=
    ⟨_, exec_run rfl, by decide, by decide⟩
  obtain ⟨t, hrun, htotals, hgauge⟩ := hrun
  obtain ⟨hverdicts, -, hrunning, -⟩ := metrics_reconcile emptyPlatform_initial rfl hrun
  exact ⟨t, hrun, htotals, hgauge, hverdicts .failed rfl, hrunning⟩

end AegisPlatform.Api
