import AegisPlatform.Api.AuditOrder
import AegisPlatform.Api.Platform
import AegisPlatform.Workers.AuditTrail

/-! # The audit trail on the platform

Whatever requests, reviews, cancel requests, workers and deletions do to the database, and whatever
fails of it: the healing events of a stored run are its drifted results, one for one.
-/

namespace AegisPlatform.Api
open Foundations Domain Core Db Services Workers
set_option autoImplicit false
set_option maxHeartbeats 250000

/-- Every run that is stored has its audit trail. -/
def AllAudited (db : Database) : Prop :=
  ∀ r run, db.runs.get? r = some run → Audited db r

section
variable {db db' : Database} {r : Uuid} {user : User}

/-- Of a run that is not stored no event is stored. -/
theorem eventsOf_gone (hi : db.Intact) (hnone : db.runs.get? r = none) :
    db.eventsOf r = [] := by
  unfold Database.eventsOf
  rw [List.filter_eq_nil_iff]
  intro event hevent heq
  obtain ⟨run, hrun⟩ := hi.healingEvents event hevent
  rw [beq_iff_eq.mp heq, hnone] at hrun
  cases hrun

/-- A review decides on an event and leaves the trail as it is. -/
theorem audited_review {eventId : Uuid} {accepted : Bool} (h : Audited db r) :
    Audited (HealingService.setAccepted db eventId accepted) r := by
  let decided : HealingEvent → HealingEvent := fun e =>
    if e.id = eventId then { e with accepted := some accepted } else e
  have hrun : (fun e : HealingEvent => e.runId == r) ∘ decided = fun e => e.runId == r := by
    funext e
    by_cases he : e.id = eventId
    · simp [decided, he]
    · simp [decided, he]
  have hlisted : (HealingService.setAccepted db eventId accepted).eventsOf r =
      (db.eventsOf r).map decided := by
    show ((db.healingEvents.rows.map decided).filter _) = _
    rw [List.filter_map, hrun]
    rfl
  unfold Audited
  rw [hlisted, List.forall₂_map_right_iff]
  refine List.Forall₂.imp (fun result event hmirrors => ?_) h
  refine hmirrors.congr ?_
  by_cases he : event.id = eventId
  · simp [decided, he]
  · simp [decided, he]

theorem write_audited {write : Write} (h : WriteEffect db user write db') (hall : AllAudited db) :
    AllAudited db' := by
  intro r run hrun
  cases h with
  | nothing => exact hall r run hrun
  | createSuite => exact hall r run hrun
  | updateSuite => exact hall r run hrun
  | addCase => exact hall r run hrun
  | review eventId accepted => exact audited_review (hall r run hrun)
  | @cancelRun runId loaded hrow hlive =>
    have hstored : ∃ row, db.runs.get? r = some row := by
      cases hget : db.runs.get? r with
      | none =>
        rw [get?_setRun_eq_none hget] at hrun
        cases hrun
      | some row => exact ⟨row, rfl⟩
    obtain ⟨row, hget⟩ := hstored
    exact hall r row hget
  | deleteSuite suiteId hget hallowed =>
    have hstored := ((Table.get?_filter_eq_some_iff db.runs _ r run).mp hrun).1
    unfold Audited
    rw [resultsOf_deleteSuite hrun, eventsOf_deleteSuite hrun]
    exact hall r run hstored

theorem effect_audited {userId : Uuid} {commits : Bool} {request : Request} {called : Option Uuid}
    (h : Effect db userId commits request db' called) (hi : db.Intact) (hall : AllAudited db) :
    AllAudited db' := by
  cases h with
  | nothing => exact hall
  | write huser hcommits hwrite => exact write_audited hwrite hall
  | @createRun user suite cases suiteId data idempotencyKey =>
    intro r run hrun
    by_cases hr : r = db.runs.next
    · have hnone : db.runs.get? r = none := by
        refine Option.eq_none_iff_forall_ne_some.mpr fun row hrow => ?_
        have hlt := Table.get?_lt hrow
        omega
      have hresults := resultsOf_gone hi hnone
      have hevents := eventsOf_gone hi hnone
      exact audited_of_empty hresults hevents
    · have hsame : (RunService.insertRun db suite cases data user idempotencyKey).runs.get? r =
          db.runs.get? r :=
        Table.get?_insert_of_ne _ _ (fun _ => RunService.id_newRun ..) hr
      exact hall r run (hsame.symm.trans hrun)

end

section
variable [Unicode] {s t : Pool} {l : PlatformLabel}

theorem audited_next (hs : Coherent s) (hall : AllAudited s.world.db)
    (h : ofNext Platform.next s l t) : AllAudited t.world.db := by
  cases l with
  | request userId request commits enqueues =>
    obtain rfl := Option.some.inj h
    exact effect_audited (handle_effect s.world.db userId commits enqueues request) hs.intact hall
  | register hashPassword data =>
    simp only [ofNext, Platform.next] at h
    split at h
    · obtain rfl := Option.some.inj h
      exact hall
    · next user db hregister =>
      obtain rfl := Option.some.inj h
      obtain ⟨-, -, rfl⟩ := register_ok hregister
      exact hall
  | deliver i env =>
    obtain ⟨d, w, phase, hd, -, step, rfl⟩ := deliver_next (i := i) h
    have hof := hs.deliveries i d hd
    have hquiet : d.phase.isRunning = true → s.world.db.resultsOf d.runId = [] := by
      intro hrunning
      cases hrow : s.world.db.runs.get? d.runId with
      | none => exact resultsOf_gone hs.intact hrow
      | some row =>
        refine ((hs.telling d.runId row hrow).quiet i d hd rfl ?_).1
        cases hphase : d.phase with
        | running run cases => rfl
        | created => rfl
        | loaded run => rfl
        | suiteLoaded run found => rfl
        | exited raised =>
          rw [hphase] at hrunning
          cases hrunning
    intro r run hrun
    have hstored : ∃ row, s.world.db.runs.get? r = some row := by
      cases hget : s.world.db.runs.get? r with
      | some row => exact ⟨row, rfl⟩
      | none =>
        rcases phase_writes step hof with heq | ⟨loaded, current, -, results, events, -, -, -, -, heq⟩
        · rw [heq, hget] at hrun
          cases hrun
        · have hnone : (s.world.db.insertStepRows results events).runs.get? r = none := hget
          rw [heq, get?_setRun_eq_none hnone] at hrun
          cases hrun
    obtain ⟨row, hget⟩ := hstored
    exact audited_access step hof hquiet (hall r row hget)
  | arrive userId runId =>
    simp only [ofNext, Platform.next] at h
    split at h
    · obtain rfl := Option.some.inj h
      exact hall
    · obtain rfl := Option.some.inj h
      exact hall
  | cancel i commits =>
    cases pool_step (l := .cancel i commits) h with
    | @cancel _ _ c db phase hc step =>
      intro r run hrun
      generalize c.phase = old at step
      cases step with
      | refuse => exact hall r run hrun
      | load => exact hall r run hrun
      | fail => exact hall r run hrun
      | done => exact hall r run hrun
      | commit hrow hcommits =>
        cases hget : s.world.db.runs.get? r with
        | some row => exact hall r row hget
        | none =>
          rw [get?_setRun_eq_none hget] at hrun
          cases hrun

/-- In every state of the platform the healing events that are listed for a stored run are its
results that drifted, one for one, in whatever order they are listed. -/
theorem events_mirror_results {ls : List PlatformLabel} (h : Platform.Initial s)
    (hrun : Run (ofNext Platform.next) s ls t) {r : Uuid} {run : TestRun}
    (hstored : t.world.db.runs.get? r = some run) :
    ∃ events, events.Perm (HealingService.listForRun t.world.db r) ∧
      List.Forall₂ Mirrors ((t.world.db.resultsOf r).filter drifted) events := by
  have hall : AllAudited s.world.db := by
    intro r run hget
    have hmem := Table.get?_mem hget
    rw [h.runs] at hmem
    cases hmem
  have ht : Coherent t ∧ AllAudited t.world.db := by
    refine hrun.invariant (I := fun s => Coherent s ∧ AllAudited s.world.db) ?_
      ⟨initial_coherent h, hall⟩
    rintro s l t ⟨hs, hall⟩ hstep
    exact ⟨coherent_step hs hstep, audited_next hs hall hstep⟩
  exact ⟨t.world.db.eventsOf r, (t.world.db.arrangement.events_perm _).symm, ht.2 r run hstored⟩

end

/-- Ada's run, with the decision she takes on the first of its events. -/
theorem ada_audited :
    ∃ t, Run (ofNext (@Platform.next asciiUnicode)) emptyPlatform
        (adaBegins ++ [.deliver 0 calm, .request 0 (.write (.reviewHealingEvent 0 false)) true true]) t ∧
      (HealingService.listForRun t.world.db 0).map HealingEvent.accepted = [some false] ∧
      ∃ events, events.Perm (HealingService.listForRun t.world.db 0) ∧
        List.Forall₂ Mirrors ((t.world.db.resultsOf 0).filter drifted) events := by
  let _ : Unicode := asciiUnicode
  have hrun : ∃ t, Run (ofNext Platform.next) emptyPlatform
      (adaBegins ++ [.deliver 0 calm, .request 0 (.write (.reviewHealingEvent 0 false)) true true]) t ∧
      (HealingService.listForRun t.world.db 0).map HealingEvent.accepted = [some false] ∧
      statusOf t.world.db 0 = some .failed :=
    ⟨_, exec_run rfl, by decide, by decide⟩
  obtain ⟨t, hrun, hdecided, hstatus⟩ := hrun
  unfold statusOf at hstatus
  obtain ⟨run, hget, -⟩ := Option.map_eq_some_iff.mp hstatus
  exact ⟨t, hrun, hdecided, events_mirror_results emptyPlatform_initial hrun hget⟩

end AegisPlatform.Api
