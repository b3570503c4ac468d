import AegisPlatform.Api.Platform
import AegisPlatform.Workers.Dispatch

/-! # Workers out of process

The platform with `ArqDispatcher` in the place of `InlineDispatcher`: a run that was triggered goes
through a call of `enqueue`, the queue in Redis and a worker that takes its job, and requests, calls
and workers interleave in any order.

Where every job is taken once, nothing that happens here could not happen with the workers in
process: the state is one of the platform, of whose deliveries some have not begun. Each run that
was handed over is in one place: with its call, in the queue or with a worker.
-/

namespace AegisPlatform.Api
open Foundations Domain Core Db Services Workers
set_option autoImplicit false
set_option maxHeartbeats 250000

structure Deployment where
  pool : Pool
  dispatcher : ArqDispatcher := {}
  calls : List EnqueueCall := []
  queue : List Job := []

inductive DeploymentLabel
  | request (userId : Uuid) (request : Request) (commits : Bool)
  /-- Call `i` goes on. -/
  | enqueue (i : ℕ) (link : Link)
  /-- A worker takes job `k`, which stays in the queue if the worker dies. -/
  | take (k : ℕ) (again : Bool)
  /-- Anything else, as on the platform. -/
  | other (l : PlatformLabel)

def PlatformLabel.isRequest : PlatformLabel → Bool
  | .request .. => true
  | .register .. | .deliver .. | .arrive .. | .cancel .. => false

def delivery (runId : Uuid) : Delivery where
  runId := runId

section
variable [Unicode]

def Deployment.next (s : Deployment) : DeploymentLabel → Option Deployment
  | .request userId request commits =>
    let (db, called, _) := handle s.pool.world.db userId commits true request
    some { s with
      pool := Platform.answer s.pool db none
      calls := s.calls ++ called.toList.map fun runId => { runId := runId } }
  | .enqueue i link =>
    match s.calls[i]? with
    | none => none
    | some call =>
      let (dispatcher, call', job) := call.next s.dispatcher link
      some { s with
        dispatcher := dispatcher
        calls := s.calls.set i call'
        queue := s.queue ++ job.toList }
  | .take k again =>
    match s.queue[k]? with
    | none => none
    | some job =>
      some { s with
        pool := { s.pool with deliveries := s.pool.deliveries ++ job.run?.toList.map delivery }
        queue := if again then s.queue else s.queue.eraseIdx k }
  | .other l =>
    if l.isRequest then none else (Platform.next s.pool l).map fun pool => { s with pool := pool }

omit [Unicode] in
/-- Every job is taken once. -/
def TakenOnce (_ : Deployment) : DeploymentLabel → Prop
  | .take _ again => again = false
  | .request .. | .enqueue .. | .other _ => True

omit [Unicode] in
instance (s : Deployment) (l : DeploymentLabel) : Decidable (TakenOnce s l) :=
  match l with
  | .take _ again => inferInstanceAs (Decidable (again = false))
  | .request .. | .enqueue .. | .other _ => isTrue trivial

omit [Unicode] in
/-- The runs whose jobs never were in Redis: their calls are under way, or raised. -/
def unsentOf (calls : List EnqueueCall) : List Uuid :=
  (calls.filter fun call => !call.stored).map EnqueueCall.runId

omit [Unicode] in
def Deployment.unsent (s : Deployment) : List Uuid := unsentOf s.calls

omit [Unicode] in
def Deployment.queued (s : Deployment) : List Uuid := s.queue.filterMap Job.run?

/-! ## The platform it is like -/

omit [Unicode] in
structure Resembles (s : Deployment) (p : Pool) : Prop where
  coherent : Coherent p
  world : p.world = s.pool.world
  cancels : p.cancels = s.pool.cancels
  called : p.deliveries.map Delivery.runId = s.calls.map EnqueueCall.runId
  places : p.deliveries.Perm (s.pool.deliveries ++ (s.unsent ++ s.queued).map delivery)

section
variable {s t : Deployment} {p : Pool}

omit [Unicode] in
theorem Resembles.pool (h : Resembles s p) : p = { s.pool with deliveries := p.deliveries } := by
  cases p
  simp only [← h.world, ← h.cancels]

omit [Unicode] in
theorem perm_replace {α : Type} {a b : α} {u v w x : List α} (h : (u ++ a :: v).Perm (w ++ a :: x)) :
    (u ++ b :: v).Perm (w ++ b :: x) := by
  have hrest : (u ++ v).Perm (w ++ x) :=
    (List.perm_middle.symm.trans (h.trans List.perm_middle)).cons_inv
  exact List.perm_middle.trans ((hrest.cons b).trans List.perm_middle.symm)

/-- Requests and deliveries aside, a step does not look at the deliveries. -/
theorem next_other {s t : Pool} {l : PlatformLabel} (hrequest : l.isRequest = false)
    (hdeliver : ∀ i env, l ≠ .deliver i env) (h : Platform.next s l = some t)
    (ds : List Delivery) :
    Platform.next { s with deliveries := ds } l = some { t with deliveries := ds } ∧
      t.deliveries = s.deliveries := by
  cases l with
  | request userId request commits enqueues => cases hrequest
  | deliver i env => exact absurd rfl (hdeliver i env)
  | register hashPassword data =>
    simp only [Platform.next] at h ⊢
    cases hregister : Api.register hashPassword s.world.db data with
    | error e =>
      simp only [hregister, Option.some.injEq] at h
      subst h
      exact ⟨rfl, rfl⟩
    | ok result =>
      obtain ⟨user, db⟩ := result
      simp only [hregister, Option.some.injEq, Platform.answer, Option.toList_none, List.map_nil,
        List.append_nil] at h ⊢
      subst h
      exact ⟨rfl, rfl⟩
  | arrive userId runId =>
    simp only [Platform.next] at h ⊢
    cases huser : engineer s.world.db userId with
    | error e =>
      simp only [huser, Option.some.injEq] at h
      subst h
      exact ⟨rfl, rfl⟩
    | ok user =>
      simp only [huser, Option.some.injEq] at h ⊢
      subst h
      exact ⟨rfl, rfl⟩
  | cancel i commits =>
    simp only [Platform.next, Pool.next] at h ⊢
    cases hc : s.cancels[i]? with
    | none =>
      simp only [hc] at h
      cases h
    | some c =>
      simp only [hc, Option.some.injEq] at h ⊢
      subst h
      exact ⟨rfl, rfl⟩

omit [Unicode] in
theorem unsentOf_append (calls calls' : List EnqueueCall) :
    unsentOf (calls ++ calls') = unsentOf calls ++ unsentOf calls' := by
  simp only [unsentOf, List.filter_append, List.map_append]

omit [Unicode] in
theorem unsentOf_around (front back : List EnqueueCall) (call : EnqueueCall) :
    unsentOf (front ++ call :: back) =
      unsentOf front ++ ((if call.stored then [] else [call.runId]) ++ unsentOf back) := by
  rw [unsentOf_append]
  cases hstored : call.stored with
  | true => simp [unsentOf, hstored]
  | false => simp [unsentOf, hstored]

/-! ## A step here, and steps there -/

omit [Unicode] in
theorem resembles_answer (hr : Resembles s p) {db : Database} {called : Option Uuid}
    (hcoherent : Coherent (Platform.answer p db called)) :
    Resembles { s with
      pool := Platform.answer s.pool db none
      calls := s.calls ++ called.toList.map fun runId => { runId := runId } }
        (Platform.answer p db called) := by
  refine ⟨hcoherent, ?_, hr.cancels, ?_, ?_⟩
  · simp only [Platform.answer, hr.world]
  · simp only [Platform.answer, List.map_append, List.map_map, hr.called]
    rfl
  · have hunsent : unsentOf (s.calls ++ called.toList.map fun runId => { runId := runId }) =
        s.unsent ++ called.toList := by
      rw [unsentOf_append]
      cases called with
      | none => rfl
      | some runId => rfl
    simp only [Platform.answer, Option.toList_none, List.map_nil, List.append_nil,
      Deployment.unsent, hunsent]
    refine (hr.places.append_right _).trans ?_
    simp only [List.map_append, List.append_assoc]
    exact (List.perm_append_comm.append_left _).append_left _

theorem resembles_request (hr : Resembles s p) {userId : Uuid} {request : Request} {commits : Bool}
    (h : s.next (.request userId request commits) = some t) :
    ∃ p', Platform.next p (.request userId request commits true) = some p' ∧ Resembles t p' := by
  have hcoherent := coherent_step hr.coherent
    (show ofNext Platform.next p (.request userId request commits true) _ from rfl)
  refine ⟨_, rfl, ?_⟩
  obtain rfl := Option.some.inj h
  rw [← hr.world]
  exact resembles_answer hr hcoherent

theorem resembles_take (hr : Resembles s p) {k : ℕ} (h : s.next (.take k false) = some t) :
    Resembles t p := by
  simp only [Deployment.next] at h
  cases hjob : s.queue[k]? with
  | none =>
    rw [hjob] at h
    cases h
  | some job =>
    simp only [hjob, Bool.false_eq_true, if_false] at h
    obtain rfl := Option.some.inj h
    obtain ⟨front, back, hqueue, -, herase⟩ := around_getElem? hjob
    have hqueued : s.queued = front.filterMap Job.run? ++
        (job.run?.toList ++ back.filterMap Job.run?) := by
      rw [Deployment.queued, hqueue, List.filterMap_append, List.filterMap_cons]
      cases job.run? with
      | none => rfl
      | some runId => rfl
    have hplace : (s.unsent ++ s.queued).Perm (job.run?.toList ++ (s.unsent ++
        (s.queue.eraseIdx k).filterMap Job.run?)) := by
      rw [hqueued, herase, List.filterMap_append]
      exact ((List.perm_append_comm_assoc ..).append_left _).trans (List.perm_append_comm_assoc ..)
    refine ⟨hr.coherent, hr.world, hr.cancels, hr.called, hr.places.trans ?_⟩
    rw [Deployment.queued, Deployment.unsent, List.append_assoc, ← List.map_append]
    exact (hplace.map delivery).append_left _

omit [Unicode] in
/-- A call that goes on stores its job or not. -/
theorem resembles_enqueue (hr : Resembles s p) {i : ℕ} {link : Link} {call : EnqueueCall}
    (hcall : s.calls[i]? = some call) (hkey : call.runId < 2 ^ 128) :
    Resembles { s with
      dispatcher := (call.next s.dispatcher link).1
      calls := s.calls.set i (call.next s.dispatcher link).2.1
      queue := s.queue ++ (call.next s.dispatcher link).2.2.toList } p := by
  obtain ⟨hrunId, hstored⟩ := enqueue_next call s.dispatcher link
  obtain ⟨front, back, hcalls, hset, -⟩ := around_getElem? hcall
  have hplace : (unsentOf s.calls ++ s.queue.filterMap Job.run?).Perm
      (unsentOf (s.calls.set i (call.next s.dispatcher link).2.1) ++
        (s.queue ++ (call.next s.dispatcher link).2.2.toList).filterMap Job.run?) := by
    rw [hset, hcalls, unsentOf_around, unsentOf_around, List.filterMap_append, hrunId]
    rcases hstored with ⟨hjob, hsame⟩ | ⟨hjob, hbefore, hafter⟩
    · rw [hjob, hsame, Option.toList_none, List.filterMap_nil, List.append_nil]
    · rw [hjob, hbefore, hafter, Option.toList_some, List.filterMap_cons, run?_jobOf hkey,
        List.filterMap_nil, if_neg Bool.false_ne_true, if_pos rfl, List.nil_append,
        List.append_assoc, List.append_assoc, List.append_assoc]
      exact (List.perm_append_comm.trans (by rw [List.append_assoc])).append_left _
  refine ⟨hr.coherent, hr.world, hr.cancels, ?_, ?_⟩
  · rw [hr.called, hset, hcalls]
    simp only [List.map_append, List.map_cons, hrunId]
  · exact hr.places.trans ((hplace.map delivery).append_left _)

theorem resembles_other (hr : Resembles s p) {l : PlatformLabel} (h : s.next (.other l) = some t) :
    ∃ l' p', Platform.next p l' = some p' ∧ Resembles t p' := by
  simp only [Deployment.next] at h
  cases hrequest : l.isRequest with
  | true =>
    rw [hrequest, if_pos rfl] at h
    cases h
  | false =>
    rw [hrequest, if_neg Bool.false_ne_true] at h
    obtain ⟨pool, hpool, rfl⟩ := Option.map_eq_some_iff.mp h
    by_cases hdeliver : ∃ i env, l = .deliver i env
    · obtain ⟨i, env, rfl⟩ := hdeliver
      simp only [Platform.next, Pool.next] at hpool
      cases hd : s.pool.deliveries[i]? with
      | none =>
        rw [hd] at hpool
        cases hpool
      | some d =>
        simp only [hd] at hpool
        obtain rfl := Option.some.inj hpool
        have hmem : d ∈ p.deliveries :=
          hr.places.mem_iff.mpr (List.mem_append_left _ (List.mem_of_getElem? hd))
        obtain ⟨j, hj⟩ := List.getElem?_of_mem hmem
        have hnext : Platform.next p (.deliver j env) = some { p with
            world := (d.next env p.world).1, deliveries := p.deliveries.set j (d.next env p.world).2 } := by
          simp only [Platform.next, Pool.next, hj]
        refine ⟨_, _, hnext, coherent_step hr.coherent hnext, ?_, hr.cancels, ?_, ?_⟩
        · rw [hr.world]
        · rw [← hr.called]
          exact map_runId_set hj rfl
        · obtain ⟨front, back, hbefore, hset, -⟩ := around_getElem? hd
          obtain ⟨front', back', hbefore', hset', -⟩ := around_getElem? hj
          have hplaces := hr.places
          rw [hbefore, hbefore', List.append_assoc, List.cons_append] at hplaces
          simp only [hset, hset', hr.world, List.append_assoc, List.cons_append]
          exact perm_replace hplaces
    · have hother : ∀ i env, l ≠ .deliver i env := fun i env heq => hdeliver ⟨i, env, heq⟩
      obtain ⟨hnext, hsame⟩ := next_other hrequest hother hpool p.deliveries
      rw [← hr.pool] at hnext
      refine ⟨l, _, hnext, coherent_step hr.coherent hnext, rfl, rfl, hr.called, ?_⟩
      have hplaces := hr.places
      simp only [hsame]
      exact hplaces

/-! ## Whole runs -/

/-- No call is forgotten. -/
theorem calls_next {l : DeploymentLabel} (h : s.next l = some t) :
    s.calls.map EnqueueCall.runId <+: t.calls.map EnqueueCall.runId := by
  cases l with
  | request userId request commits =>
    obtain rfl := Option.some.inj h
    rw [List.map_append]
    exact List.prefix_append ..
  | enqueue i link =>
    simp only [Deployment.next] at h
    cases hcall : s.calls[i]? with
    | none =>
      rw [hcall] at h
      cases h
    | some call =>
      simp only [hcall] at h
      obtain rfl := Option.some.inj h
      obtain ⟨front, back, hcalls, hset, -⟩ := around_getElem? hcall
      rw [hset, hcalls, List.map_append, List.map_append, List.map_cons, List.map_cons,
        (enqueue_next call _ link).1]
  | take k again =>
    simp only [Deployment.next] at h
    cases hjob : s.queue[k]? with
    | none =>
      rw [hjob] at h
      cases h
    | some job =>
      simp only [hjob] at h
      obtain rfl := Option.some.inj h
      exact List.prefix_rfl
  | other l =>
    simp only [Deployment.next] at h
    split at h
    · cases h
    · obtain ⟨pool, -, rfl⟩ := Option.map_eq_some_iff.mp h
      exact List.prefix_rfl

omit [Unicode] in
/-- The keys of the runs are UUIDs. -/
def Deployment.Keyed (s : Deployment) : Prop := ∀ call ∈ s.calls, call.runId < 2 ^ 128

theorem keyed_next {l : DeploymentLabel} (h : s.next l = some t) (ht : t.Keyed) : s.Keyed := by
  intro call hcall
  have hmem := (calls_next h).subset (List.mem_map_of_mem (f := EnqueueCall.runId) hcall)
  obtain ⟨call', hcall', heq⟩ := List.mem_map.mp hmem
  rw [← heq]
  exact ht call' hcall'

theorem resembles_next (hr : Resembles s p) (hkeys : s.Keyed) {l : DeploymentLabel}
    (honce : TakenOnce s l) (h : s.next l = some t) :
    ∃ ms p', Run (ofNext Platform.next) p ms p' ∧ Resembles t p' := by
  cases l with
  | request userId request commits =>
    obtain ⟨p', hstep, ht⟩ := resembles_request hr h
    exact ⟨_, p', Run.single hstep, ht⟩
  | enqueue i link =>
    simp only [Deployment.next] at h
    cases hcall : s.calls[i]? with
    | none =>
      rw [hcall] at h
      cases h
    | some call =>
      simp only [hcall] at h
      obtain rfl := Option.some.inj h
      have hkey := hkeys call (List.mem_of_getElem? hcall)
      exact ⟨[], p, Run.nil p, resembles_enqueue hr hcall hkey⟩
  | take k again =>
    obtain rfl : again = false := honce
    exact ⟨[], p, Run.nil p, resembles_take hr h⟩
  | other l =>
    obtain ⟨l', p', hstep, ht⟩ := resembles_other hr h
    exact ⟨[l'], p', Run.single hstep, ht⟩

omit [Unicode] in
/-- A platform without a run, and nothing in Redis. -/
structure Deployment.Initial (s : Deployment) : Prop where
  platform : Platform.Initial s.pool
  calls : s.calls = []
  queue : s.queue = []

omit [Unicode] in
theorem initial_resembles (h : s.Initial) : Resembles s s.pool where
  coherent := initial_coherent h.platform
  world := rfl
  cancels := rfl
  called := by rw [h.platform.deliveries, h.calls, List.map_nil, List.map_nil]
  places := by
    rw [Deployment.unsent, Deployment.queued, h.calls, h.queue]
    exact (List.append_nil _).symm ▸ List.Perm.refl _

/-- Whatever the workers out of process come to, the platform with its workers in process can come
to: the same database, publications and cancel requests, and their deliveries, beside some that have
not begun. These are the runs whose jobs are queued or never were; no run is in two places. -/
theorem arq_refines {ls : List DeploymentLabel} (h : s.Initial)
    (hrun : Run (Under TakenOnce (ofNext Deployment.next)) s ls t) (hkeys : t.Keyed) :
    ∃ ms p, Run (ofNext Platform.next) s.pool ms p ∧ p.world = t.pool.world ∧
      p.cancels = t.pool.cancels ∧
      p.deliveries.map Delivery.runId = t.calls.map EnqueueCall.runId ∧
      p.deliveries.Perm (t.pool.deliveries ++ (t.unsent ++ t.queued).map delivery) ∧
      (t.pool.deliveries.map Delivery.runId ++ (t.unsent ++ t.queued)).Nodup := by
  have hsimulated : ∃ ms p, Run (ofNext Platform.next) s.pool ms p ∧ (t.Keyed → Resembles t p) := by
    refine hrun.simulated (R := fun s p => s.Keyed → Resembles s p) ?_
      fun _ => initial_resembles h
    rintro u l v p hu ⟨honce, hstep⟩
    by_cases hv : v.Keyed
    · have hkeyed := keyed_next hstep hv
      obtain ⟨ms, p', hmore, hp'⟩ := resembles_next (hu hkeyed) hkeyed honce hstep
      exact ⟨ms, p', hmore, fun _ => hp'⟩
    · exact ⟨[], p, Run.nil p, fun hkeyed => absurd hkeyed hv⟩
  obtain ⟨ms, p, hplatform, hp⟩ := hsimulated
  have hr := hp hkeys
  refine ⟨ms, p, hplatform, hr.world, hr.cancels, hr.called, hr.places, ?_⟩
  have honce := (hr.places.map Delivery.runId).nodup_iff.mp hr.coherent.once
  rw [List.map_append, List.map_map] at honce
  have hid : Delivery.runId ∘ delivery = id := rfl
  rw [hid, List.map_id] at honce
  exact honce

/-! ## The other way round -/

theorem enqueue_single {i : ℕ} {call : EnqueueCall} (hcall : s.calls[i]? = some call) (link : Link) :
    Run (Under TakenOnce (ofNext Deployment.next)) s [.enqueue i link] { s with
      dispatcher := (call.next s.dispatcher link).1
      calls := s.calls.set i (call.next s.dispatcher link).2.1
      queue := s.queue ++ (call.next s.dispatcher link).2.2.toList } := by
  refine Run.single ⟨trivial, ?_⟩
  simp only [ofNext, Deployment.next, hcall]

/-- A call gets hold of a pool. -/
theorem enqueue_connects {i : ℕ} {runId : Uuid} (hcall : s.calls[i]? = some { runId := runId }) :
    ∃ ms t pool, Run (Under TakenOnce (ofNext Deployment.next)) s ms t ∧ t.pool = s.pool ∧
      t.queue = s.queue ∧ t.calls[i]? = some { runId := runId, phase := .sending pool } := by
  have hlt := (List.getElem?_eq_some_iff.mp hcall).1
  have hfirst := enqueue_single hcall .up
  cases hpool : s.dispatcher.pool with
  | some pool =>
    refine ⟨_, _, pool, hfirst, rfl, ?_, ?_⟩
    · simp only [EnqueueCall.next, hpool, Option.toList_none, List.append_nil]
    · simp [EnqueueCall.next, hpool, hlt]
  | none =>
    have hconnecting : ({ runId := runId } : EnqueueCall).next s.dispatcher .up =
        (s.dispatcher, { runId := runId, phase := .connecting }, none) := by
      simp only [EnqueueCall.next, hpool]
    rw [hconnecting] at hfirst
    have hset : (s.calls.set i { runId := runId, phase := .connecting })[i]? =
        some { runId := runId, phase := .connecting } := by simp [hlt]
    have hsecond := hfirst.trans (enqueue_single hset .up)
    refine ⟨_, _, s.dispatcher.created, hsecond, rfl, ?_, ?_⟩
    · simp only [EnqueueCall.next, Option.toList_none, List.append_nil]
    · simp [EnqueueCall.next, hlt]

/-- A call is through, or it raises before Redis has its job. -/
theorem enqueue_ends {i : ℕ} {runId : Uuid} (hcall : s.calls[i]? = some { runId := runId })
    (stored : Bool) :
    ∃ ms t, Run (Under TakenOnce (ofNext Deployment.next)) s ms t ∧ t.pool = s.pool ∧
      t.queue = s.queue ++ if stored then [jobOf runId] else [] := by
  obtain ⟨ms, u, pool, hconnects, hpool, hqueue, hsending⟩ := enqueue_connects hcall
  cases stored with
  | true =>
    refine ⟨_, _, hconnects.trans (enqueue_single hsending .up), hpool, ?_⟩
    simp only [EnqueueCall.next, hqueue, Option.toList_some, if_true]
  | false =>
    refine ⟨_, _, hconnects.trans (enqueue_single hsending (.down false)), hpool, ?_⟩
    simp only [EnqueueCall.next, hqueue, Bool.false_eq_true, if_false, Option.toList_none]

omit [Unicode] in
/-- What a request stores, and whether it calls `enqueue`, does not depend on how the call ends. -/
theorem handle_enqueues (db : Database) (userId : Uuid) (commits enqueues : Bool)
    (request : Request) :
    (handle db userId commits enqueues request).1 = (handle db userId commits true request).1 ∧
      (handle db userId commits enqueues request).2.1 =
        (handle db userId commits true request).2.1 := by
  cases request with
  | read read => exact ⟨rfl, rfl⟩
  | write write => exact ⟨rfl, rfl⟩
  | triggerRun suiteId data idempotencyKey =>
    unfold handle triggerRun
    simp only
    cases engineer db userId with
    | error e => exact ⟨rfl, rfl⟩
    | ok user =>
      simp only
      cases RunService.create db suiteId data user idempotencyKey with
      | error e => exact ⟨rfl, rfl⟩
      | ok result =>
        simp only
        split
        · split
          · exact ⟨rfl, rfl⟩
          · exact ⟨rfl, rfl⟩
        · exact ⟨rfl, rfl⟩

/-- A call that was made comes to its end, and a worker takes the job it stored. -/
theorem called_matched {runId : Uuid} (calls : List EnqueueCall) (hqueue : s.queue = [])
    (hkey : runId < 2 ^ 128) (stored : Bool) :
    ∃ ms t, Run (Under TakenOnce (ofNext Deployment.next))
        { s with calls := calls ++ [{ runId := runId }] } ms t ∧
      t.pool = Platform.answer s.pool s.pool.world.db (if stored then some runId else none) ∧
      t.queue = [] := by
  have hcall : ({ s with calls := calls ++ [{ runId := runId }] } : Deployment).calls[calls.length]? =
      some { runId := runId } := by simp
  obtain ⟨ms, u, hends, hpool, hjobs⟩ := enqueue_ends hcall stored
  rw [hqueue, List.nil_append] at hjobs
  cases stored with
  | false => exact ⟨ms, u, hends, by rw [hpool]; simp [Platform.answer], hjobs⟩
  | true =>
    have htake : Under TakenOnce (ofNext Deployment.next) u (.take 0 false) { u with
        pool := { u.pool with deliveries := u.pool.deliveries ++ [delivery runId] }
        queue := [] } := by
      refine ⟨rfl, ?_⟩
      simp only [ofNext, Deployment.next, hjobs, if_true, List.getElem?_cons_zero, run?_jobOf hkey,
        Bool.false_eq_true, if_false, List.eraseIdx_cons_zero]
      rfl
    refine ⟨_, _, hends.snoc htake, ?_, rfl⟩
    simp only [hpool]
    rfl

theorem answered_matched {l : DeploymentLabel} {db : Database} {called : Option Uuid}
    (hqueue : s.queue = [])
    (hfirst : Under TakenOnce (ofNext Deployment.next) s l { s with
      pool := Platform.answer s.pool db none
      calls := s.calls ++ called.toList.map fun runId => { runId := runId } })
    (hkeys : ∀ x ∈ called, x < 2 ^ 128) (enqueues : Bool) :
    ∃ ms t, Run (Under TakenOnce (ofNext Deployment.next)) s ms t ∧
      t.pool = Platform.answer s.pool db (if enqueues then called else none) ∧ t.queue = [] := by
  cases called with
  | none =>
    refine ⟨_, _, Run.single hfirst, ?_, hqueue⟩
    cases enqueues with
    | true => rfl
    | false => rfl
  | some runId =>
    obtain ⟨ms, t, hrest, hpool, hleft⟩ := called_matched (s := { s with
      pool := Platform.answer s.pool db none }) s.calls hqueue (hkeys runId rfl) enqueues
    refine ⟨_, t, (Run.single hfirst).trans hrest, ?_, hleft⟩
    rw [hpool]
    simp [Platform.answer]

/-- The request, its call of `enqueue` and the worker that takes its job, one after the other. -/
theorem request_matched {userId : Uuid} {request : Request} {commits enqueues : Bool} {p' : Pool}
    (hqueue : s.queue = [])
    (h : Platform.next s.pool (.request userId request commits enqueues) = some p')
    (hkeys : p'.world.db.runs.next ≤ 2 ^ 128) :
    ∃ ms t, Run (Under TakenOnce (ofNext Deployment.next)) s ms t ∧ t.pool = p' ∧ t.queue = [] := by
  have heffect := handle_effect s.pool.world.db userId commits enqueues request
  obtain ⟨hdb, hcalled⟩ := handle_enqueues s.pool.world.db userId commits enqueues request
  have hfirst : Under TakenOnce (ofNext Deployment.next) s (.request userId request commits) { s with
      pool := Platform.answer s.pool (handle s.pool.world.db userId commits true request).1 none
      calls := s.calls ++ (handle s.pool.world.db userId commits true request).2.1.toList.map
        fun runId => { runId := runId } } := ⟨trivial, rfl⟩
  rw [← hdb, ← hcalled] at hfirst
  obtain rfl := Option.some.inj h
  refine answered_matched hqueue hfirst ?_ enqueues
  intro x hx
  exact Nat.lt_of_lt_of_le (called_fresh heffect x hx).2 hkeys

theorem other_matched {l : PlatformLabel} {p' : Pool} (hl : l.isRequest = false)
    (h : Platform.next s.pool l = some p') :
    Run (Under TakenOnce (ofNext Deployment.next)) s [.other l] { s with pool := p' } := by
  refine Run.single ⟨trivial, ?_⟩
  simp only [ofNext, Deployment.next, hl, Bool.false_eq_true, if_false, h, Option.map_some]

/-- Whatever the platform with its workers in process comes to, workers out of process can come to
as well, with every job taken. -/
theorem inline_matched {ls : List PlatformLabel} {p : Pool} (h : s.Initial)
    (hrun : Run (ofNext Platform.next) s.pool ls p) (hkeys : p.world.db.runs.next ≤ 2 ^ 128) :
    ∃ ms t, Run (Under TakenOnce (ofNext Deployment.next)) s ms t ∧ t.pool = p ∧ t.queue = [] := by
  have hmatched : ∃ ms t, Run (Under TakenOnce (ofNext Deployment.next)) s ms t ∧ (Coherent p ∧
      (p.world.db.runs.next ≤ 2 ^ 128 → t.pool = p ∧ t.queue = [])) := by
    refine hrun.simulated (R := fun p (s : Deployment) => Coherent p ∧
      (p.world.db.runs.next ≤ 2 ^ 128 → s.pool = p ∧ s.queue = [])) ?_
      ⟨initial_coherent h.platform, fun _ => ⟨rfl, h.queue⟩⟩
    rintro p l p' s ⟨hp, hlike⟩ hstep
    have hp' := coherent_step hp hstep
    by_cases hkeys' : p'.world.db.runs.next ≤ 2 ^ 128
    · have hle := (platform_evolves hp hstep).runs.next_le
      obtain ⟨rfl, hqueue⟩ := hlike (hle.trans hkeys')
      cases hrequest : l.isRequest with
      | false => exact ⟨_, _, other_matched hrequest hstep, hp', fun _ => ⟨rfl, hqueue⟩⟩
      | true =>
        cases l with
        | request userId request commits enqueues =>
          obtain ⟨ms, t, hmore, ht⟩ := request_matched hqueue hstep hkeys'
          exact ⟨ms, t, hmore, hp', fun _ => ht⟩
        | register hashPassword data => cases hrequest
        | deliver i env => cases hrequest
        | arrive userId runId => cases hrequest
        | cancel i commits => cases hrequest
    · exact ⟨[], s, Run.nil s, hp', fun hle => absurd hle hkeys'⟩
  obtain ⟨ms, t, harq, -, ht⟩ := hmatched
  exact ⟨ms, t, harq, ht hkeys⟩

end

end

/-! ## Ada's run on another machine -/

def emptyDeployment : Deployment where
  pool := emptyPlatform

/-- Redis stores the job of her run, and its answer is lost: her request fails. -/
def adaEnqueues : List DeploymentLabel :=
  [.other (.register id { email := "Ada@example.com", fullName := "Ada", password := "engine no. 1" }),
    .request 0 (.write (.createSuite
      { name := "Login", slug := "login", targetBaseUrl := "https://example.com"
        cases := [{ name := "Sign in", steps := loginSteps }] })) true,
    .request 0 (.triggerRun 0 {} none) true,
    .enqueue 0 .up, .enqueue 0 .up, .enqueue 0 (.down true)]

def adaEnqueued : Deployment :=
  (exec (@Deployment.next asciiUnicode) emptyDeployment adaEnqueues).getD emptyDeployment

/-- A worker has her job. -/
def adaTaken : Deployment :=
  { adaEnqueued with
    pool := { adaEnqueued.pool with deliveries := [delivery 0] }
    queue := [] }

def adaExecutes : List DeploymentLabel := List.replicate 4 (.other (.deliver 0 calm))

theorem ada_dispatched :
    ∃ t, Run (Under TakenOnce (ofNext (@Deployment.next asciiUnicode))) emptyDeployment
        (adaEnqueues ++ [.take 0 false] ++ adaExecutes) t ∧
      statusOf t.pool.world.db 0 = some .failed ∧ t.unsent = [] ∧ t.queued = [] ∧
      ∃ ms p, Run (ofNext (@Platform.next asciiUnicode)) emptyPlatform ms p ∧
        p.world = t.pool.world ∧ p.deliveries.Perm t.pool.deliveries := by
  let _ : Unicode := asciiUnicode
  have hsends : Run (Under TakenOnce (ofNext Deployment.next)) emptyDeployment adaEnqueues adaEnqueued :=
    restrict_run rfl
  have htakes : Under TakenOnce (ofNext Deployment.next) adaEnqueued (.take 0 false) adaTaken := by
    have hqueue : adaEnqueued.queue = [jobOf 0] := rfl
    have hnone : adaEnqueued.pool.deliveries = [] := rfl
    have hrun : (jobOf 0).run? = some 0 := run?_jobOf (by decide)
    refine ⟨rfl, ?_⟩
    simp only [ofNext, Deployment.next, hqueue, List.getElem?_cons_zero, hrun, hnone]
    rfl
  have hexecutes : ∃ t, Run (Under TakenOnce (ofNext Deployment.next)) adaTaken adaExecutes t ∧
      statusOf t.pool.world.db 0 = some .failed ∧ t.unsent = [] ∧ t.queued = [] ∧
      t.calls.map EnqueueCall.runId = [0] :=
    ⟨_, restrict_run rfl, by decide, by decide, by decide, by decide⟩
  obtain ⟨t, hexecutes, hstatus, hunsent, hqueued, hcalls⟩ := hexecutes
  have hrun := (hsends.snoc htakes).trans hexecutes
  refine ⟨t, hrun, hstatus, hunsent, hqueued, ?_⟩
  have hkeys : t.Keyed := by
    intro call hcall
    have hmem := List.mem_map_of_mem (f := EnqueueCall.runId) hcall
    rw [hcalls, List.mem_singleton] at hmem
    rw [hmem]
    decide
  have hinitial : emptyDeployment.Initial := ⟨emptyPlatform_initial, rfl, rfl⟩
  obtain ⟨ms, p, hplatform, hworld, -, -, hplaces, -⟩ := arq_refines hinitial hrun hkeys
  rw [hunsent, hqueued, List.append_nil, List.map_nil, List.append_nil] at hplaces
  exact ⟨ms, p, hplatform, hworld, hplaces⟩

/-- A run of hers that was cancelled while its worker was at it, with the worker out of process. -/
theorem ada_matched :
    ∃ p, Run (ofNext (@Platform.next asciiUnicode)) emptyPlatform
        (adaBegins ++ [.arrive 0 0, .cancel 0 true, .deliver 0 calm, .cancel 0 true]) p ∧
      statusOf p.world.db 0 = some .cancelled ∧
      ∃ ms t, Run (Under TakenOnce (ofNext (@Deployment.next asciiUnicode))) emptyDeployment ms t ∧
        t.pool = p ∧ t.queue = [] := by
  let _ : Unicode := asciiUnicode
  have hrun : ∃ p, Run (ofNext Platform.next) emptyPlatform
      (adaBegins ++ [.arrive 0 0, .cancel 0 true, .deliver 0 calm, .cancel 0 true]) p ∧
      statusOf p.world.db 0 = some .cancelled ∧ p.world.db.runs.next ≤ 2 ^ 128 :=
    ⟨_, exec_run rfl, by decide, by decide⟩
  obtain ⟨p, hrun, hstatus, hkeys⟩ := hrun
  have hinitial : emptyDeployment.Initial := ⟨emptyPlatform_initial, rfl, rfl⟩
  exact ⟨p, hrun, hstatus, inline_matched hinitial hrun hkeys⟩

end AegisPlatform.Api
