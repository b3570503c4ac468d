import AegisPlatform.Api.Platform
import AegisPlatform.Api.StoredSuites

/-! # What an answer says about the platform

A client branches on the status of an answer. One of 4xx promises that nothing happened: the request
could as well not have been sent. A request that did something is answered by 2xx, but for two
cases: a PATCH that leaves a suite without tags, and a run that was stored and not handed over.
-/

namespace AegisPlatform.Api
open Foundations Domain Core Db Services Workers
set_option autoImplicit false
set_option maxHeartbeats 250000

/-! ## Status codes -/

/-- The `status_code` of the route. -/
def Request.success : Request → ℕ
  | .read _ => 200
  | .write (.createSuite _) => 201
  | .write (.updateSuite ..) => 200
  | .write (.deleteSuite _) => 204
  | .write (.addCase ..) => 201
  | .write (.cancelRun _) => 200
  | .write (.reviewHealingEvent ..) => 200
  | .triggerRun .. => 202

/-- The handlers of `api/errors.py`. -/
def statusOfFailure : Failure → ℕ
  | .aegis e => e.httpStatus
  | .integrityError => 500

def Response.status (request : Request) : Response → ℕ
  | .failed failure => statusOfFailure failure
  | .internalError => 500
  | .user _ | .suite .. | .suites .. | .case _ | .run _ | .runDetail .. | .runs .. | .healingEvent _
  | .healingEvents _ | .noContent => request.success

def isRefusal (status : ℕ) : Bool := decide (400 ≤ status) && decide (status < 500)

section
variable [Unicode]

/-- The status a step of the platform answers with. A cancel request that was let in is answered
later. -/
def PlatformLabel.answered (s : Pool) : PlatformLabel → Option ℕ
  | .request userId sent commits enqueues =>
    some ((handle s.world.db userId commits enqueues sent).2.2.status sent)
  | .register hashPassword data =>
    match Api.register hashPassword s.world.db data with
    | .error failure => some (statusOfFailure failure)
    | .ok _ => some 201
  | .arrive userId _ =>
    match engineer s.world.db userId with
    | .error failure => some (statusOfFailure failure)
    | .ok _ => none
  | .deliver .. | .cancel .. => none

def PlatformLabel.refused (s : Pool) (l : PlatformLabel) : Bool :=
  (l.answered s).any isRefusal

end

/-! ## Refusals -/

section
variable {db db' : Database} {user : User} {userId : Uuid} {suite : TestSuite}

theorem success_not_refusal (request : Request) : isRefusal request.success = false := by
  cases request with
  | read read => rfl
  | triggerRun suiteId data key => rfl
  | write write =>
    cases write with
    | createSuite data => rfl
    | updateSuite id data => rfl
    | deleteSuite id => rfl
    | addCase id data => rfl
    | cancelRun id => rfl
    | reviewHealingEvent id accepted => rfl

/-- What is stored can be rendered or ends in a 500. -/
theorem renderStored_status (request : Request) {suiteId : Uuid}
    (hget : db.suites.get? suiteId = some suite) :
    isRefusal ((renderStored db suiteId).status request) = false := by
  unfold renderStored SuiteService.get Database.getWithCases renderSuite
  rw [hget]
  simp only [Option.map_some]
  split
  · exact success_not_refusal request
  · rfl

/-- What a write commits is not refused. -/
theorem handleWrite_status {write : Write} {response : Response}
    (h : handleWrite db user write = .ok (db', response)) (request : Request) :
    isRefusal (response.status request) = false := by
  cases write with
  | createSuite data =>
    simp only [handleWrite] at h
    split at h
    · cases h
    · next suite db₁ hcreate =>
      obtain ⟨rfl, rfl⟩ := Prod.mk.inj (Except.ok.inj h)
      obtain ⟨rfl, rfl⟩ := SuiteService.create_ok hcreate
      exact renderStored_status request (Table.get?_insert_self _ _ fun _ => SuiteService.id_newSuite ..)
  | updateSuite id data =>
    simp only [handleWrite] at h
    split at h
    · cases h
    · next suite' db₁ hupdate =>
      obtain ⟨rfl, rfl⟩ := Prod.mk.inj (Except.ok.inj h)
      obtain ⟨suite, hmutable, hpatch, rfl⟩ := SuiteService.update_ok hupdate
      have hget := SuiteService.mutable_get hmutable
      have hid := (SuiteService.patch_some hpatch).1.trans (Table.get?_key hget)
      rw [hid]
      exact renderStored_status request (get?_setSuite hget hid)
  | deleteSuite id =>
    simp only [handleWrite] at h
    split at h
    · cases h
    · obtain ⟨-, rfl⟩ := Prod.mk.inj (Except.ok.inj h)
      exact success_not_refusal request
  | addCase id data =>
    simp only [handleWrite] at h
    split at h
    · cases h
    · obtain ⟨-, rfl⟩ := Prod.mk.inj (Except.ok.inj h)
      split
      · exact success_not_refusal request
      · rfl
  | cancelRun id =>
    simp only [handleWrite] at h
    split at h
    · cases h
    · obtain ⟨-, rfl⟩ := Prod.mk.inj (Except.ok.inj h)
      exact success_not_refusal request
  | reviewHealingEvent id accepted =>
    simp only [handleWrite] at h
    split at h
    · cases h
    · obtain ⟨-, rfl⟩ := Prod.mk.inj (Except.ok.inj h)
      exact success_not_refusal request

/-- A refused request commits nothing and hands over nothing. -/
theorem handle_refused {commits enqueues : Bool} {request : Request}
    (h : isRefusal ((handle db userId commits enqueues request).2.2.status request) = true) :
    (handle db userId commits enqueues request).1 = db ∧
      (handle db userId commits enqueues request).2.1 = none := by
  cases request with
  | read read =>
    unfold handle
    cases currentUser db userId with
    | error e => exact ⟨rfl, rfl⟩
    | ok user => exact ⟨rfl, rfl⟩
  | write write =>
    unfold handle at h ⊢
    cases huser : engineer db userId with
    | error e => exact ⟨rfl, rfl⟩
    | ok user =>
      cases hwrite : handleWrite db user write with
      | error e =>
        simp only [hwrite, and_self]
      | ok result =>
        cases commits with
        | false =>
          simp only [hwrite, Bool.false_eq_true, if_false, and_self]
        | true =>
          simp only [huser, hwrite, if_true] at h
          rw [handleWrite_status hwrite] at h
          cases h
  | triggerRun suiteId data idempotencyKey =>
    have htriggered := triggerRun_triggered db ⟨suiteId, data, userId, idempotencyKey⟩ commits enqueues
    simp only [handle] at h ⊢
    generalize triggerRun db ⟨suiteId, data, userId, idempotencyKey⟩ commits enqueues = result
      at h htriggered ⊢
    cases htriggered with
    | fails answer hanswer => exact ⟨rfl, rfl⟩
    | replays huser hreplay hcommits => exact ⟨rfl, rfl⟩
    | creates huser hmiss hrunnable hcommits =>
      cases enqueues with
      | true => cases h
      | false => cases h

end

section
variable [Unicode] {s t : Pool}

theorem refused_idle {l : PlatformLabel} (h : l.refused s = true) : Platform.next s l = some s := by
  cases l with
  | request userId request commits enqueues =>
    have hrefusal : isRefusal
        ((handle s.world.db userId commits enqueues request).2.2.status request) = true := h
    obtain ⟨hdb, hcalled⟩ := handle_refused hrefusal
    simp only [Platform.next, hdb, hcalled, ite_self]
    simp [Platform.answer]
  | register hashPassword data =>
    simp only [PlatformLabel.refused, PlatformLabel.answered] at h
    simp only [Platform.next]
    cases hregister : Api.register hashPassword s.world.db data with
    | error failure => rfl
    | ok result =>
      rw [hregister] at h
      cases h
  | arrive userId runId =>
    simp only [PlatformLabel.refused, PlatformLabel.answered] at h
    simp only [Platform.next]
    cases huser : engineer s.world.db userId with
    | error failure => rfl
    | ok user =>
      rw [huser] at h
      cases h
  | deliver i env => exact absurd h Bool.false_ne_true
  | cancel i commits => exact absurd h Bool.false_ne_true

/-- Requests that are refused could as well not have been sent: without them every run of the platform
ends in the same state, with the same database, the same deliveries and the same events. -/
theorem refused_invisible {ls : List PlatformLabel} (h : Run (ofNext Platform.next) s ls t) :
    Run (ofNext Platform.next) s
      (effective Platform.next (fun s l => l.refused s) s ls) t :=
  exec_run (exec_effective (fun _ _ => refused_idle) (run_exec h))

end

/-! ## Effects -/

/-- The endpoints that store cases store dumps of steps. -/
def CasesReadable (db : Database) : Prop := ∀ case ∈ db.cases.rows, renderCase case = true

section
variable {db db' : Database} {user : User} {userId : Uuid} {suite : TestSuite}

theorem casesReadable_write {write : Write} (h : CasesReadable db)
    (hwrite : WriteEffect db user write db') : CasesReadable db' := by
  cases hwrite with
  | nothing => exact h
  | updateSuite => exact h
  | cancelRun => exact h
  | review => exact h
  | deleteSuite => exact fun case hcase => h case (List.mem_filter.mp hcase).1
  | createSuite data =>
    intro case hcase
    obtain ⟨new, hrows, hnew⟩ := SuiteService.insertSuite_cases db data user.id
    rw [hrows] at hcase
    rcases List.mem_append.mp hcase with hold | hfresh
    · exact h case hold
    · obtain ⟨sent, id, rfl⟩ := hnew case hfresh
      exact renderCase_buildCase ..
  | addCase suiteId data =>
    intro case hcase
    rcases List.mem_append.mp hcase with hold | hfresh
    · exact h case hold
    · rw [List.mem_singleton.mp hfresh]
      exact renderCase_buildCase suiteId data db.cases.next

theorem renderStored_success (h : CasesReadable db) {suiteId : Uuid}
    (hget : db.suites.get? suiteId = some suite) (htags : suite.tags ≠ none) (request : Request) :
    (renderStored db suiteId).status request = request.success := by
  have hcases : (db.casesOf suiteId).all renderCase = true := by
    rw [List.all_eq_true]
    exact fun case hcase => h case (Database.mem_casesOf.mp hcase).1
  unfold renderStored SuiteService.get Database.getWithCases renderSuite
  rw [hget]
  simp only [Option.map_some, hcases, Option.isSome_iff_ne_none.mpr htags, Bool.and_self, if_true]
  rfl

/-- A PATCH left the suite without tags. -/
def LosesTags (db' : Database) : Request → Prop
  | .write (.updateSuite suiteId _) => ∃ suite, db'.suites.get? suiteId = some suite ∧ suite.tags = none
  | .read _ | .write _ | .triggerRun .. => False

/-- A committed write is answered by the status of its route, unless it left a suite without tags. -/
theorem handleWrite_success (h : CasesReadable db) {write : Write} {response : Response}
    (hwrite : handleWrite db user write = .ok (db', response)) :
    response.status (.write write) = (Request.write write).success ∨
      response.status (.write write) = 500 ∧ LosesTags db' (.write write) := by
  have hcases := casesReadable_write h (handleWrite_effect hwrite)
  cases write with
  | createSuite data =>
    simp only [handleWrite] at hwrite
    split at hwrite
    · cases hwrite
    · next suite db₁ hcreate =>
      obtain ⟨rfl, rfl⟩ := Prod.mk.inj (Except.ok.inj hwrite)
      obtain ⟨rfl, rfl⟩ := SuiteService.create_ok hcreate
      refine Or.inl (renderStored_success hcases
        (Table.get?_insert_self _ _ fun _ => SuiteService.id_newSuite ..) ?_ _)
      exact Option.some_ne_none data.tags
  | updateSuite id data =>
    simp only [handleWrite] at hwrite
    split at hwrite
    · cases hwrite
    · next suite' db₁ hupdate =>
      obtain ⟨rfl, rfl⟩ := Prod.mk.inj (Except.ok.inj hwrite)
      obtain ⟨suite, hmutable, hpatch, rfl⟩ := SuiteService.update_ok hupdate
      have hget := SuiteService.mutable_get hmutable
      have hid := (SuiteService.patch_some hpatch).1.trans (Table.get?_key hget)
      have hstored := get?_setSuite hget hid
      rw [hid]
      by_cases htags : suite'.tags = none
      · right
        rw [renderStored_untagged hstored htags]
        exact ⟨rfl, suite', hstored, htags⟩
      · exact Or.inl (renderStored_success hcases hstored htags _)
  | deleteSuite id =>
    simp only [handleWrite] at hwrite
    split at hwrite
    · cases hwrite
    · obtain ⟨-, rfl⟩ := Prod.mk.inj (Except.ok.inj hwrite)
      exact Or.inl rfl
  | addCase id data =>
    simp only [handleWrite] at hwrite
    split at hwrite
    · cases hwrite
    · next case db₁ hadd =>
      obtain ⟨-, rfl⟩ := Prod.mk.inj (Except.ok.inj hwrite)
      obtain ⟨suite, -, rfl, -⟩ := SuiteService.addCase_ok hadd
      rw [renderCase_buildCase]
      exact Or.inl rfl
  | cancelRun id =>
    simp only [handleWrite] at hwrite
    split at hwrite
    · cases hwrite
    · obtain ⟨-, rfl⟩ := Prod.mk.inj (Except.ok.inj hwrite)
      exact Or.inl rfl
  | reviewHealingEvent id accepted =>
    simp only [handleWrite] at hwrite
    split at hwrite
    · cases hwrite
    · obtain ⟨-, rfl⟩ := Prod.mk.inj (Except.ok.inj hwrite)
      exact Or.inl rfl

/-- The run was stored and the dispatcher failed. -/
def NotHandedOver (db' : Database) (enqueues : Bool) (called : Option Uuid) : Request → Prop
  | .triggerRun .. => enqueues = false ∧ ∃ run, called = some run.id ∧
      db'.runs.get? run.id = some run ∧ run.status = .queued
  | .read _ | .write _ => False

/-- A request that commits or hands over something is answered by the status of its route, or by a
500 in one of two cases. -/
theorem handle_effective (h : CasesReadable db) {commits enqueues : Bool} {request : Request}
    (hdid : (handle db userId commits enqueues request).1 ≠ db ∨
      (handle db userId commits enqueues request).2.1 ≠ none) :
    (handle db userId commits enqueues request).2.2.status request = request.success ∨
      (handle db userId commits enqueues request).2.2.status request = 500 ∧
        (LosesTags (handle db userId commits enqueues request).1 request ∨
          NotHandedOver (handle db userId commits enqueues request).1 enqueues
            (handle db userId commits enqueues request).2.1 request) := by
  cases request with
  | read read =>
    have hidle : (handle db userId commits enqueues (.read read)).1 = db ∧
        (handle db userId commits enqueues (.read read)).2.1 = none := by
      unfold handle
      cases currentUser db userId with
      | error e => exact ⟨rfl, rfl⟩
      | ok user => exact ⟨rfl, rfl⟩
    exact absurd hidle (not_and_or.mpr hdid)
  | write write =>
    unfold handle at hdid ⊢
    cases huser : engineer db userId with
    | error e => simp [huser] at hdid
    | ok user =>
      cases hwrite : handleWrite db user write with
      | error e => simp [huser, hwrite] at hdid
      | ok result =>
        cases commits with
        | false => simp [huser, hwrite] at hdid
        | true =>
          simp only [hwrite, if_true]
          exact (handleWrite_success h hwrite).imp_right fun hloses => ⟨hloses.1, Or.inl hloses.2⟩
  | triggerRun suiteId data idempotencyKey =>
    have htriggered := triggerRun_triggered db ⟨suiteId, data, userId, idempotencyKey⟩ commits enqueues
    simp only [handle] at hdid ⊢
    generalize triggerRun db ⟨suiteId, data, userId, idempotencyKey⟩ commits enqueues = result
      at hdid htriggered ⊢
    cases htriggered with
    | fails answer hanswer => simp at hdid
    | replays huser hreplay hcommits => simp at hdid
    | @creates user suite cases huser hmiss hrunnable hcommits =>
      cases enqueues with
      | true => exact Or.inl rfl
      | false =>
        have hstored := Table.get?_insert_self db.runs
          (RunService.newRun suite cases data user idempotencyKey) fun _ => RunService.id_newRun ..
        exact Or.inr ⟨rfl, Or.inr ⟨rfl,
          RunService.newRun suite cases data user idempotencyKey db.runs.next, rfl, hstored, rfl⟩⟩

end

section
variable [Unicode] {s t : Pool}

theorem casesReadable_next {l : PlatformLabel} (hs : Coherent s) (h : CasesReadable s.world.db)
    (hnext : ofNext Platform.next s l t) : CasesReadable t.world.db := by
  cases l with
  | request userId request commits enqueues =>
    have heffect := handle_effect s.world.db userId commits enqueues request
    obtain rfl := Option.some.inj hnext
    show CasesReadable (handle s.world.db userId commits enqueues request).1
    generalize (handle s.world.db userId commits enqueues request).1 = db at heffect ⊢
    generalize (handle s.world.db userId commits enqueues request).2.1 = called at heffect
    cases heffect with
    | nothing => exact h
    | createRun => exact h
    | write huser hcommits hwrite => exact casesReadable_write h hwrite
  | register hashPassword data =>
    simp only [ofNext, Platform.next] at hnext
    split at hnext
    · obtain rfl := Option.some.inj hnext
      exact h
    · next user db hregister =>
      obtain rfl := Option.some.inj hnext
      obtain ⟨-, -, rfl⟩ := register_ok hregister
      exact h
  | deliver i env =>
    obtain ⟨d, w, phase, hd, -, step, rfl⟩ := deliver_next (i := i) hnext
    rcases phase_writes step (hs.deliveries i d hd) with heq | ⟨_, _, _, _, _, -, -, -, -, heq⟩
    · rw [heq]
      exact h
    · rw [heq]
      exact h
  | arrive userId runId =>
    simp only [ofNext, Platform.next] at hnext
    split at hnext
    · obtain rfl := Option.some.inj hnext
      exact h
    · obtain rfl := Option.some.inj hnext
      exact h
  | cancel i commits =>
    cases pool_step (l := .cancel i commits) hnext with
    | @cancel _ _ c db phase hc step =>
      generalize c.phase = old at step
      cases step with
      | refuse => exact h
      | load => exact h
      | commit => exact h
      | fail => exact h
      | done => exact h

/-- Wherever the platform has got to, a request that does something is answered by the status of its
route, unless it is a PATCH that leaves its suite without tags or a run that could not be handed
over: these are stored and answered by a 500. -/
theorem effects_answered {s₀ : Pool} {ls : List PlatformLabel} (h : Platform.Initial s₀)
    (hcases : CasesReadable s₀.world.db) (hrun : Run (ofNext Platform.next) s₀ ls t)
    (userId : Uuid) (request : Request) (commits enqueues : Bool)
    (hdid : (handle t.world.db userId commits enqueues request).1 ≠ t.world.db ∨
      (handle t.world.db userId commits enqueues request).2.1 ≠ none) :
    (handle t.world.db userId commits enqueues request).2.2.status request = request.success ∨
      (handle t.world.db userId commits enqueues request).2.2.status request = 500 ∧
        (LosesTags (handle t.world.db userId commits enqueues request).1 request ∨
          NotHandedOver (handle t.world.db userId commits enqueues request).1 enqueues
            (handle t.world.db userId commits enqueues request).2.1 request) := by
  have ht : Coherent t ∧ CasesReadable t.world.db :=
    hrun.invariant (I := fun s => Coherent s ∧ CasesReadable s.world.db)
      (fun _ _ _ hs hstep => ⟨coherent_step hs.1 hstep, casesReadable_next hs.1 hs.2 hstep⟩)
      ⟨initial_coherent h, hcases⟩
  exact handle_effective ht.2 hdid

end

/-! ## Ada and a stranger -/

/-- The second account does not exist, and the slug is taken. -/
theorem ada_refused_invisible :
    ∃ t, Run (ofNext (@Platform.next asciiUnicode)) emptyPlatform
        (adaBegins ++ [.request 1 (.write (.deleteSuite 0)) true true,
          .request 0 (.write (.createSuite
            { name := "Again", slug := "login", targetBaseUrl := "https://example.com" })) true true,
          .deliver 0 calm]) t ∧
      Run (ofNext (@Platform.next asciiUnicode)) emptyPlatform (adaBegins ++ [.deliver 0 calm]) t := by
  let _ : Unicode := asciiUnicode
  have hrun : ∃ t, Run (ofNext Platform.next) emptyPlatform
        (adaBegins ++ [.request 1 (.write (.deleteSuite 0)) true true,
          .request 0 (.write (.createSuite
            { name := "Again", slug := "login", targetBaseUrl := "https://example.com" })) true true,
          .deliver 0 calm]) t ∧
      effective Platform.next (fun s l => l.refused s) emptyPlatform
        (adaBegins ++ [.request 1 (.write (.deleteSuite 0)) true true,
          .request 0 (.write (.createSuite
            { name := "Again", slug := "login", targetBaseUrl := "https://example.com" })) true true,
          .deliver 0 calm]) = adaBegins ++ [.deliver 0 calm] :=
    ⟨_, exec_run rfl, rfl⟩
  obtain ⟨t, hrun, heffective⟩ := hrun
  refine ⟨t, hrun, ?_⟩
  have hrest := refused_invisible hrun
  rw [heffective] at hrest
  exact hrest

/-- A second run is stored while the dispatcher is down. -/
theorem ada_effects_answered :
    ∃ t, Run (ofNext (@Platform.next asciiUnicode)) emptyPlatform adaBegins t ∧
      (handle t.world.db 0 true false (.triggerRun 0 {} none)).2.2.status (.triggerRun 0 {} none) =
        500 ∧
      ∃ run, (handle t.world.db 0 true false (.triggerRun 0 {} none)).2.1 = some run.id ∧
        (handle t.world.db 0 true false (.triggerRun 0 {} none)).1.runs.get? run.id = some run ∧
          run.status = .queued := by
  let _ : Unicode := asciiUnicode
  have hrun : ∃ t, Run (ofNext Platform.next) emptyPlatform adaBegins t ∧
      (handle t.world.db 0 true false (.triggerRun 0 {} none)).2.1 ≠ none ∧
      (handle t.world.db 0 true false (.triggerRun 0 {} none)).2.2.status (.triggerRun 0 {} none) =
        500 :=
    ⟨_, exec_run rfl, by decide, rfl⟩
  obtain ⟨t, hrun, hcalled, hstatus⟩ := hrun
  refine ⟨t, hrun, hstatus, ?_⟩
  have hcases : CasesReadable emptyPlatform.world.db := fun case hcase => by cases hcase
  rcases effects_answered emptyPlatform_initial hcases hrun 0 (.triggerRun 0 {} none) true false
    (Or.inr hcalled) with hsuccess | ⟨-, hloses | hstored⟩
  · rw [hstatus] at hsuccess
    cases hsuccess
  · exact hloses.elim
  · exact hstored.2

end AegisPlatform.Api
