import AegisPlatform.Api.Handlers
import AegisPlatform.Workers.Redelivery

/-! # The site, one action at a time

Requests of any account, executions of any run and the disappearance of suites, each atomic, in any
order. The lists beside the world record what the dispatcher took, what it failed to take, and
which runs a client was told are accepted while they were QUEUED.

A run whose `enqueue` raised is committed but reaches no worker. Its client sees a 500, retries with
the same key, and is told the run is accepted. `Recovers` excludes that retry.
-/

namespace AegisPlatform.Api
open Foundations Domain Core Db Services Workers
set_option autoImplicit false
set_option maxHeartbeats 250000

structure Site where
  world : World
  handed : List Uuid := []
  stranded : List Uuid := []
  acknowledged : List Uuid := []

inductive SiteLabel
  | request (userId : Uuid) (request : Request) (commits enqueues : Bool)
  | execute (runId : Uuid) (env : Env)
  | loseSuite (suiteId : Uuid)

/-- The run of a 202, if it is QUEUED. -/
def acknowledges : Request → Response → Option Uuid
  | .triggerRun .., .run run => if run.status = .queued then some run.id else none
  | _, _ => none

/-- The site after a request that committed `db` and called `enqueue` with `called`. -/
def Site.answer (s : Site) (request : Request) (enqueues : Bool) (db : Database)
    (called : Option Uuid) (response : Response) : Site :=
  { world := { s.world with db := db }
    handed := s.handed ++ if enqueues then called.toList else []
    stranded := s.stranded ++ if enqueues then [] else called.toList
    acknowledged := s.acknowledged ++ (acknowledges request response).toList }

section
variable [Unicode]

def Site.next (s : Site) : SiteLabel → Option Site
  | .request userId request commits enqueues =>
    let (db, called, response) := handle s.world.db userId commits enqueues request
    some (s.answer request enqueues db called response)
  | .execute runId env => some { s with world := (executeRun env runId s.world).1 }
  | .loseSuite suiteId =>
    some { s with
      world := { s.world with
        db := { s.world.db with suites := s.world.db.suites.filter fun suite => suite.id != suiteId } } }

omit [Unicode] in
/-- Accounts and suites, but no run yet. -/
structure Site.Initial (s : Site) : Prop where
  runs : s.world.db.runs.rows = []
  published : s.world.published = []
  acknowledged : s.acknowledged = []

/-! ## Statuses over one action -/

/-- What every access of a worker keeps, an execution keeps. -/
theorem executeRun_keeps {I : Database → Prop} (env : Env) (runId : Uuid) (w : World)
    (keep : ∀ db phase db' phase', PhaseStep env runId db phase db' phase' → phase.Of runId →
      I db → I db') (h : I w.db) : I (executeRun env runId w).1.db := by
  obtain ⟨n, hn⟩ := executeRun_phases env runId w
  have hiter : ∀ m, I ((fun s : World × ExecutorPhase => s.2.next env runId s.1)^[m]
      (w, .created)).1.db ∧ ((fun s : World × ExecutorPhase => s.2.next env runId s.1)^[m]
      (w, .created)).2.Of runId := by
    intro m
    induction m with
    | zero => exact ⟨h, trivial⟩
    | succ m ih =>
      rw [Function.iterate_succ_apply']
      obtain ⟨hi, hof⟩ := ih
      have hstep := next_step env runId
        ((fun s : World × ExecutorPhase => s.2.next env runId s.1)^[m] (w, .created)).1
        ((fun s : World × ExecutorPhase => s.2.next env runId s.1)^[m] (w, .created)).2
      exact ⟨keep _ _ _ _ hstep hof hi, phase_of hstep hof⟩
  have hend := (hiter n).1
  rw [hn] at hend
  exact hend

variable {db db' : Database} {r : Uuid}

theorem executeRun_queued {env : Env} {runId : Uuid} {w : World}
    (h : statusOf (executeRun env runId w).1.db r = some .queued) :
    statusOf w.db r = some .queued := by
  refine executeRun_keeps (I := fun db => statusOf db r = some .queued →
    statusOf w.db r = some .queued) env runId w ?_ id h
  intro db phase db' phase' hstep hof hi hq
  exact hi (phase_queued hstep hof hq)

omit [Unicode] in
theorem write_queued {user : User} {write : Write} (h : WriteEffect db user write db')
    (hq : statusOf db' r = some .queued) : statusOf db r = some .queued := by
  cases h with
  | nothing => exact hq
  | createSuite => exact hq
  | updateSuite => exact hq
  | addCase => exact hq
  | review => exact hq
  | deleteSuite suiteId hget hallowed =>
    unfold statusOf at hq ⊢
    obtain ⟨run, hrun, hstatus⟩ := Option.map_eq_some_iff.mp hq
    have hstored := ((Table.get?_filter_eq_some_iff db.runs _ r run).mp hrun).1
    rw [hstored, Option.map_some, hstatus]
  | @cancelRun runId run hrow hlive =>
    have hget := (RunService.cancellable_ok hrow).1
    have hid := Table.get?_key hget
    subst hid
    have hstep : CancelStep run.id true db (.read run)
        (db.setRun run (RunService.cancelled run)) .exited := CancelStep.commit hget rfl
    exact cancel_queued hstep ⟨rfl, hlive⟩ hq

omit [Unicode] in
theorem effect_queued {userId : Uuid} {commits : Bool} {request : Request} {called : Option Uuid}
    (h : Effect db userId commits request db' called) (hq : statusOf db' r = some .queued) :
    statusOf db r = some .queued ∨ called = some r := by
  cases h with
  | nothing => exact Or.inl hq
  | write huser hcommits h => exact Or.inl (write_queued h hq)
  | @createRun user suite cases suiteId data idempotencyKey huser hrunnable =>
    by_cases hr : r = db.runs.next
    · exact Or.inr (congrArg some hr.symm)
    · left
      have hsame : (RunService.insertRun db suite cases data user idempotencyKey).runs.get? r =
          db.runs.get? r := Table.get?_insert_of_ne _ _ (fun _ => RunService.id_newRun ..) hr
      unfold statusOf at hq ⊢
      rwa [hsame] at hq

/-! ## Acknowledged runs -/

omit [Unicode] in
/-- A request does not replay the key of a QUEUED run whose hand-over failed. -/
def Recovers (s : Site) : SiteLabel → Prop
  | .request userId (.triggerRun _ _ idempotencyKey) commits _ => commits = true →
      ∀ user run, engineer s.world.db userId = .ok user →
        RunService.replayed s.world.db idempotencyKey = some run → run.status = .queued →
          run.id ∉ s.stranded
  | _ => True

omit [Unicode] in
/-- Every QUEUED run went through `enqueue`, one way or the other. -/
structure Accounted (s : Site) : Prop where
  queued : ∀ r, statusOf s.world.db r = some .queued → r ∈ s.handed ∨ r ∈ s.stranded
  acknowledged : ∀ r ∈ s.acknowledged, r ∈ s.handed

omit [Unicode] in
theorem initial_accounted {s : Site} (h : s.Initial) : Accounted s where
  queued := by
    intro r hq
    unfold statusOf at hq
    obtain ⟨run, hrun, -⟩ := Option.map_eq_some_iff.mp hq
    have hmem := Table.get?_mem hrun
    rw [h.runs] at hmem
    cases hmem
  acknowledged := by
    rw [h.acknowledged]
    intro r hr
    cases hr

omit [Unicode] in
theorem trigger_acknowledged {s : Site} (hs : Accounted s) {userId suiteId : Uuid}
    {data : RunCreate} {idempotencyKey : Option String} {commits enqueues : Bool}
    (hguard : Recovers s (.request userId (.triggerRun suiteId data idempotencyKey) commits enqueues))
    {result : Database × Option Uuid × Answer}
    (h : Triggered s.world.db ⟨suiteId, data, userId, idempotencyKey⟩ commits enqueues result)
    (hr : acknowledges (.triggerRun suiteId data idempotencyKey) (renderAnswer result.2.2) = some r) :
    r ∈ s.handed ∨ enqueues = true ∧ result.2.1 = some r := by
  cases h with
  | fails answer hanswer =>
    cases answer with
    | accepted run => exact absurd rfl (hanswer run)
    | refused failure => cases hr
    | internalError => cases hr
  | @replays user run huser hreplay hcommits =>
    simp only [renderAnswer, acknowledges] at hr
    split at hr
    · next hqueued =>
      obtain rfl := Option.some.inj hr
      obtain ⟨-, hmem, -⟩ := RunService.replayed_some hreplay
      have hstatus : statusOf s.world.db run.id = some .queued := by
        unfold statusOf
        rw [Table.get?_of_mem hmem, Option.map_some, hqueued]
      rcases hs.queued run.id hstatus with hhanded | hstranded
      · exact Or.inl hhanded
      · exact absurd hstranded (hguard hcommits user run huser hreplay hqueued)
    · cases hr
  | creates huser hmiss hrunnable hcommits =>
    cases enqueues with
    | true => exact Or.inr ⟨rfl, hr⟩
    | false => cases hr

omit [Unicode] in
theorem answer_accounted {s : Site} (hs : Accounted s) {userId : Uuid} {commits enqueues : Bool}
    {request : Request} {db : Database} {called : Option Uuid} {response : Response}
    (heffect : Effect s.world.db userId commits request db called)
    (hacknowledged : ∀ r, acknowledges request response = some r →
      r ∈ s.handed ∨ enqueues = true ∧ called = some r) :
    Accounted (s.answer request enqueues db called response) where
  queued := by
    intro r hq
    unfold Site.answer
    rcases effect_queued heffect hq with hbefore | rfl
    · rcases hs.queued r hbefore with hhanded | hstranded
      · exact Or.inl (List.mem_append_left _ hhanded)
      · exact Or.inr (List.mem_append_left _ hstranded)
    · cases enqueues with
      | true => exact Or.inl (List.mem_append_right _ (List.mem_singleton_self r))
      | false => exact Or.inr (List.mem_append_right _ (List.mem_singleton_self r))
  acknowledged := by
    intro r hr
    rcases List.mem_append.mp hr with hold | hnew
    · exact List.mem_append_left _ (hs.acknowledged r hold)
    · rcases hacknowledged r (Option.mem_toList.mp hnew) with hhanded | ⟨rfl, rfl⟩
      · exact List.mem_append_left _ hhanded
      · exact List.mem_append_right _ (List.mem_singleton_self r)

theorem accounted_step {s t : Site} {l : SiteLabel} (hs : Accounted s)
    (h : Under Recovers (ofNext Site.next) s l t) : Accounted t := by
  obtain ⟨hguard, hnext⟩ := h
  unfold ofNext at hnext
  cases l with
  | request userId request commits enqueues =>
    simp only [Site.next, Option.some.injEq] at hnext
    subst hnext
    apply answer_accounted hs (handle_effect s.world.db userId commits enqueues request)
    intro r hr
    cases request with
    | read read => cases hr
    | write write => cases hr
    | triggerRun suiteId data idempotencyKey =>
      exact trigger_acknowledged hs hguard (triggerRun_triggered s.world.db
        ⟨suiteId, data, userId, idempotencyKey⟩ commits enqueues) hr
  | execute runId env =>
    obtain rfl := Option.some.inj hnext
    exact ⟨fun r hq => hs.queued r (executeRun_queued hq), hs.acknowledged⟩
  | loseSuite suiteId =>
    obtain rfl := Option.some.inj hnext
    exact ⟨hs.queued, hs.acknowledged⟩

/-- In every run of the site in which no client replays the key of a stranded run that is still
QUEUED, every run acknowledged as QUEUED was handed to the dispatcher. -/
theorem acknowledged_handed {s t : Site} {ls : List SiteLabel} (h : s.Initial)
    (hrun : Run (Under Recovers (ofNext Site.next)) s ls t) :
    ∀ r ∈ t.acknowledged, r ∈ t.handed := by
  have hinv : Accounted t :=
    hrun.invariant (fun _ _ _ hi hstep => accounted_step hi hstep) (initial_accounted h)
  exact hinv.acknowledged

end

/-! ## A retry after a failed hand-over -/

def loginSite : Site := { world := { db := { loginDb with runs := Table.empty } } }

theorem loginSite_initial : loginSite.Initial := ⟨rfl, rfl, rfl⟩

def demoTrigger (enqueues : Bool) : SiteLabel :=
  .request 0 (.triggerRun 0 {} (some "demo-run-001")) true enqueues

/-- The dispatcher fails, the client retries with the key: accepted, QUEUED, and handed to nobody. -/
theorem acknowledged_lost :
    loginSite.Initial ∧ ∃ t, Run (ofNext (@Site.next asciiUnicode)) loginSite
        [demoTrigger false, demoTrigger true] t ∧
      t.acknowledged = [0] ∧ t.handed = [] ∧ statusOf t.world.db 0 = some .queued :=
  ⟨loginSite_initial, _, exec_run rfl, by decide, by decide, by decide⟩

theorem demo_handed :
    ∃ t, Run (Under Recovers (ofNext (@Site.next asciiUnicode))) loginSite
        [demoTrigger true, demoTrigger false] t ∧
      t.acknowledged = [0, 0] ∧ ∀ r ∈ t.acknowledged, r ∈ t.handed := by
  let _ : Unicode := asciiUnicode
  have hstranded : ∀ (s : Site) l, s.stranded = [] → Recovers s l := by
    intro s l hs
    unfold Recovers
    split
    · intro _ user run _ _ _
      rw [hs]
      exact List.not_mem_nil
    · trivial
  have hrun : ∃ t, Run (Under Recovers (ofNext Site.next)) loginSite
      [demoTrigger true, demoTrigger false] t ∧ t.acknowledged = [0, 0] := by
    refine ⟨_, (Run.single ⟨hstranded _ _ rfl, rfl⟩).trans (Run.single ⟨hstranded _ _ rfl, rfl⟩), ?_⟩
    decide
  obtain ⟨t, ht, hseen⟩ := hrun
  exact ⟨t, ht, hseen, acknowledged_handed loginSite_initial ht⟩

end AegisPlatform.Api
