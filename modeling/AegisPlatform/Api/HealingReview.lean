import AegisPlatform.Api.Site
import AegisPlatform.Workers.Rows

/-! # Reviews of healing events

Two writers of a `HealingEvent`: the executor, which adds it, and `review`, which sets `accepted` of
any event to whatever the request says, for any engineer. `ConsistentEvents` is what the executor
writes; a review keeps it iff it accepts no heal that found no locator (`AcceptsHeal`). `Protected`
is the object-level authorization the other endpoints have; a review keeps it iff its engineer is
one of those it names (`OwnReview`).
-/

namespace AegisPlatform.Api
open Foundations Domain Core Db Services Workers
set_option autoImplicit false
set_option maxHeartbeats 250000

/-! ## What writes events -/

section
variable {db db' : Database}

/-- A request leaves the events it does not delete as they are, or is a review. -/
theorem write_events {user : User} {write : Write} (h : WriteEffect db user write db') :
    (∀ e ∈ db'.healingEvents.rows, e ∈ db.healingEvents.rows) ∨
      ∃ eventId accepted, write = .reviewHealingEvent eventId accepted ∧
        db' = HealingService.setAccepted db eventId accepted := by
  cases h with
  | nothing => exact Or.inl fun _ he => he
  | createSuite => exact Or.inl fun _ he => he
  | updateSuite => exact Or.inl fun _ he => he
  | addCase => exact Or.inl fun _ he => he
  | cancelRun => exact Or.inl fun _ he => he
  | deleteSuite => exact Or.inl fun _ he => List.mem_of_mem_filter he
  | review eventId accepted => exact Or.inr ⟨eventId, accepted, rfl, rfl⟩

theorem effect_events {userId : Uuid} {commits : Bool} {request : Request} {called : Option Uuid}
    (h : Effect db userId commits request db' called) :
    (∀ e ∈ db'.healingEvents.rows, e ∈ db.healingEvents.rows) ∨
      ∃ eventId accepted user, request = .write (.reviewHealingEvent eventId accepted) ∧
        commits = true ∧ engineer db userId = .ok user ∧
        db' = HealingService.setAccepted db eventId accepted := by
  cases h with
  | nothing => exact Or.inl fun _ he => he
  | createRun => exact Or.inl fun _ he => he
  | write huser hcommits hwrite =>
    rcases write_events hwrite with hsub | ⟨eventId, accepted, rfl, hdb⟩
    · exact Or.inl hsub
    · exact Or.inr ⟨eventId, accepted, _, rfl, hcommits, huser, hdb⟩

/-- A review of an existing event by an account that passes the check. -/
theorem handle_review {userId eventId : Uuid} {user : User} {event : HealingEvent}
    (commits enqueues accepted : Bool) (huser : engineer db userId = .ok user)
    (hevent : db.healingEvents.get? eventId = some event) :
    handle db userId commits enqueues (.write (.reviewHealingEvent eventId accepted)) =
      if commits then (HealingService.setAccepted db eventId accepted, none,
        .healingEvent { event with accepted := some accepted })
      else (db, none, .internalError) := by
  simp only [handle, huser, handleWrite, HealingService.review, hevent]

variable [Unicode] {env : Env} {runId : Uuid} {phase phase' : ExecutorPhase}

/-- The event of a step's record, with the id its table gave it. -/
def FromStep (env : Env) (e : HealingEvent) : Prop :=
  ∃ runId t r e', record env runId t = .ok r ∧ r.event = some e' ∧ e = { e' with id := e.id }

/-- A worker adds the events of its steps behind those that exist, and nothing else. -/
theorem phase_events (h : PhaseStep env runId db phase db' phase') :
    ∃ events, db'.healingEvents.rows = db.healingEvents.rows ++ events ∧
      ∀ e ∈ events, FromStep env e := by
  have hsame : ∃ events, db.healingEvents.rows = db.healingEvents.rows ++ events ∧
      ∀ e ∈ events, FromStep env e :=
    ⟨[], (List.append_nil _).symm, fun _ he => absurd he List.not_mem_nil⟩
  cases h with
  | @close run row cases raised hrow commits =>
    have hmade : Made (fun r => ∃ runId t, record env runId t = .ok r)
        (Except.progress (executeCases env runId cases {})) :=
      executeCases_made (fun t _ r hr => ⟨runId, t, hr⟩) Made.nothing
    refine ⟨_, Table.rows_insertAll .., ?_⟩
    intro e he
    obtain ⟨i, hi, rfl⟩ := List.mem_mapIdx.mp he
    obtain ⟨r, ⟨runId', t, hr⟩, hevent⟩ := hmade.events _ (List.getElem_mem hi)
    exact ⟨runId', t, r, _, hr, hevent, rfl⟩
  | skip => exact hsame
  | load row queued => exact hsame
  | find run => exact hsame
  | miss hrow commit => exact hsame
  | missFails run raised => exact hsame
  | begin suite cases hrow => exact hsame
  | beginRaises suite cases raised hrow => exact hsame
  | beginFails run suite cases raised => exact hsame
  | closeFails run cases raised => exact hsame
  | done raised => exact hsame

theorem executeRun_keeps_event (env : Env) (runId : Uuid) {w : World} {eventId : Uuid}
    {event : HealingEvent} (h : w.db.healingEvents.get? eventId = some event) :
    (executeRun env runId w).1.db.healingEvents.get? eventId = some event := by
  refine executeRun_keeps (I := fun db => db.healingEvents.get? eventId = some event) env runId w
    ?_ h
  intro db phase db' phase' hstep _ hget
  obtain ⟨events, hrows, -⟩ := phase_events hstep
  have hmem : event ∈ db'.healingEvents.rows := by
    rw [hrows]
    exact List.mem_append_left _ (Table.get?_mem hget)
  rw [← Table.get?_key hget]
  exact Table.get?_of_mem hmem

end

/-! ## Consistent events -/

/-- An event succeeded iff it has a locator, and only an event with a locator is accepted. -/
structure Consistent (e : HealingEvent) : Prop where
  succeeded : e.succeeded = true ↔ e.healedSelector ≠ none
  accepted : e.accepted = some true → e.healedSelector ≠ none

def ConsistentEvents (db : Database) : Prop := ∀ e ∈ db.healingEvents.rows, Consistent e

/-- The action is no request to accept a heal that found no locator. -/
def AcceptsHeal (s : Site) : SiteLabel → Prop
  | .request userId (.write (.reviewHealingEvent eventId true)) true _ =>
    ∀ user, engineer s.world.db userId = .ok user →
      ∀ event, s.world.db.healingEvents.get? eventId = some event → event.healedSelector ≠ none
  | _ => True

theorem consistent_review {e : HealingEvent} {accepted : Bool} (h : Consistent e)
    (hheal : accepted = true → e.healedSelector ≠ none) :
    Consistent { e with accepted := some accepted } :=
  ⟨h.succeeded, fun heq => hheal (Option.some.inj heq)⟩

theorem consistent_setAccepted {db : Database} {eventId : Uuid} {accepted : Bool}
    (h : ConsistentEvents db)
    (hheal : accepted = true → ∀ event, db.healingEvents.get? eventId = some event →
      event.healedSelector ≠ none) :
    ConsistentEvents (HealingService.setAccepted db eventId accepted) := by
  intro e he
  obtain ⟨stored, hstored, rfl⟩ := HealingService.mem_setAccepted he
  split
  · next hid =>
    have hget : db.healingEvents.get? eventId = some stored := by
      rw [← hid]
      exact Table.get?_of_mem hstored
    exact consistent_review (h stored hstored) fun haccepted => hheal haccepted stored hget
  · exact h stored hstored

section
variable [Unicode] {env : Env}

theorem next_request {s t : Site} {userId : Uuid} {request : Request} {commits enqueues : Bool}
    (h : Site.next s (.request userId request commits enqueues) = some t) :
    t.world.db = (handle s.world.db userId commits enqueues request).1 := by
  obtain rfl := Option.some.inj h
  rfl

/-- The executor accepts and counts as succeeded what found a locator, and nothing else. -/
theorem fromStep_consistent {e : HealingEvent} (h : FromStep env e) : Consistent e := by
  obtain ⟨runId, t, r, e', hr, hevent, heq⟩ := h
  obtain ⟨proposal, -, rfl⟩ := record_event hr hevent
  rw [heq]
  constructor
  · change proposal.healedSelector.isSome = true ↔ proposal.healedSelector ≠ none
    rw [Option.isSome_iff_ne_none]
  · intro haccepted
    change (if proposal.healedSelector.isSome ∧ proposal.confidence ≥ env.minConfidence
      then some true else none) = some true at haccepted
    split at haccepted
    · next hsome => exact Option.isSome_iff_ne_none.mp hsome.1
    · cases haccepted

theorem executeRun_consistent {runId : Uuid} {w : World} (h : ConsistentEvents w.db) :
    ConsistentEvents (executeRun env runId w).1.db := by
  refine executeRun_keeps (I := ConsistentEvents) env runId w ?_ h
  intro db phase db' phase' hstep _ hi e he
  obtain ⟨events, hrows, hfrom⟩ := phase_events hstep
  rw [hrows] at he
  rcases List.mem_append.mp he with hold | hnew
  · exact hi e hold
  · exact fromStep_consistent (hfrom e hnew)

theorem consistent_step {s t : Site} {l : SiteLabel} (hs : ConsistentEvents s.world.db)
    (hguard : AcceptsHeal s l) (h : Site.next s l = some t) : ConsistentEvents t.world.db := by
  cases l with
  | request userId request commits enqueues =>
    rw [next_request h]
    rcases effect_events (handle_effect s.world.db userId commits enqueues request) with
      hsub | ⟨eventId, accepted, user, rfl, rfl, huser, hdb⟩
    · exact fun e he => hs e (hsub e he)
    · rw [hdb]
      apply consistent_setAccepted hs
      rintro rfl
      exact hguard user huser
  | execute runId env =>
    obtain rfl := Option.some.inj h
    exact executeRun_consistent hs
  | loseSuite suiteId =>
    obtain rfl := Option.some.inj h
    exact hs

/-- Accepting a heal that found no locator is all it takes. -/
theorem acceptsHeal_of_consistent {s t : Site} {l : SiteLabel} (h : Site.next s l = some t)
    (ht : ConsistentEvents t.world.db) : AcceptsHeal s l := by
  unfold AcceptsHeal
  split
  · next userId eventId enqueues =>
    intro user huser event hevent hnone
    have hafter : ConsistentEvents (HealingService.setAccepted s.world.db eventId true) := by
      have hdb := next_request h
      rw [handle_review true enqueues true huser hevent, if_pos rfl] at hdb
      rwa [hdb] at ht
    have hmem : ({ event with accepted := some true } : HealingEvent) ∈
        (HealingService.setAccepted s.world.db eventId true).healingEvents.rows := by
      refine List.mem_map.mpr ⟨event, Table.get?_mem hevent, ?_⟩
      rw [if_pos (Table.get?_key hevent)]
    exact (hafter _ hmem).accepted rfl hnone
  · trivial

/-- In every run in which no client accepts a heal without a locator the events stay consistent,
and the next action keeps them consistent iff it does not do so either. -/
theorem events_consistent {s t : Site} {ls : List SiteLabel} (hs : ConsistentEvents s.world.db)
    (hrun : Run (Under AcceptsHeal (ofNext Site.next)) s ls t) :
    ConsistentEvents t.world.db ∧ ∀ l u, Site.next t l = some u →
      (ConsistentEvents u.world.db ↔ AcceptsHeal t l) := by
  have ht : ConsistentEvents t.world.db :=
    hrun.invariant (I := fun s => ConsistentEvents s.world.db)
      (fun _ _ _ hi hstep => consistent_step hi hstep.1 hstep.2) hs
  exact ⟨ht, fun l u hu =>
    ⟨acceptsHeal_of_consistent hu, fun hguard => consistent_step ht hguard hu⟩⟩

end

def reviewFirst (userId : Uuid) (accepted : Bool) : SiteLabel :=
  .request userId (.write (.reviewHealingEvent 0 accepted)) true true

theorem unhealed {e : HealingEvent} (h : e.healedSelector = none ∧ e.accepted = some true) :
    ¬ Consistent e := fun hc => hc.accepted h.2 h.1

/-- The drifted click of the queued run cannot be healed; its event is accepted all the same. -/
theorem unhealed_accepted :
    ∃ t, Run (ofNext (@Site.next asciiUnicode)) { world := loginWorld }
        [.execute 0 calm, reviewFirst 0 true] t ∧
      loginDb.healingEvents.rows = [] ∧ ¬ ConsistentEvents t.world.db := by
  have hrun : ∃ t, Run (ofNext (@Site.next asciiUnicode)) { world := loginWorld }
      [.execute 0 calm, reviewFirst 0 true] t ∧
      ∃ e ∈ t.world.db.healingEvents.rows, e.healedSelector = none ∧ e.accepted = some true :=
    ⟨_, exec_run rfl, by decide +kernel⟩
  obtain ⟨t, ht, e, he, hunhealed⟩ := hrun
  exact ⟨t, ht, rfl, fun hc => unhealed hunhealed (hc e he)⟩

/-- Rejected, the event stays consistent. -/
theorem unhealed_rejected :
    ∃ t, Run (Under AcceptsHeal (ofNext (@Site.next asciiUnicode))) { world := loginWorld }
        [.execute 0 calm, reviewFirst 0 false] t ∧
      t.world.db.healingEvents.rows.length = 1 ∧ ConsistentEvents t.world.db := by
  let _ : Unicode := asciiUnicode
  have hrun : ∃ t, Run (Under AcceptsHeal (ofNext Site.next)) { world := loginWorld }
      [.execute 0 calm, reviewFirst 0 false] t ∧ t.world.db.healingEvents.rows.length = 1 :=
    ⟨_, (Run.single ⟨trivial, rfl⟩).trans (Run.single ⟨trivial, rfl⟩), by decide +kernel⟩
  obtain ⟨t, ht, hlength⟩ := hrun
  have hstart : ConsistentEvents loginDb := fun _ he => absurd he List.not_mem_nil
  exact ⟨t, ht, hlength, (events_consistent hstart ht).1⟩

/-! ## Reviews and ownership -/

/-- An admin, the creator of the event's run, or the owner of the suite of that run. -/
def MayReview (db : Database) (user : User) (event : HealingEvent) : Prop :=
  user.role = .admin ∨ ∃ run ∈ db.runs.get? event.runId,
    run.createdById = some user.id ∨
      ∃ suite ∈ db.suites.get? run.suiteId, suite.ownerId = user.id

instance (db : Database) (user : User) (event : HealingEvent) : Decidable (MayReview db user event) :=
  inferInstanceAs (Decidable (_ ∨ ∃ run ∈ db.runs.get? event.runId,
    run.createdById = some user.id ∨ ∃ suite ∈ db.suites.get? run.suiteId, suite.ownerId = user.id))

/-- Object-level authorization of reviews: only those who may review an event change its decision,
and every other engineer is refused and changes nothing. -/
structure Protected [Unicode] (s : Site) (l : SiteLabel) : Prop where
  changes : ∀ t, Site.next s l = some t → ∀ eventId event event',
    s.world.db.healingEvents.get? eventId = some event →
    t.world.db.healingEvents.get? eventId = some event' → event'.accepted ≠ event.accepted →
      ∃ userId accepted commits enqueues user,
        l = .request userId (.write (.reviewHealingEvent eventId accepted)) commits enqueues ∧
          engineer s.world.db userId = .ok user ∧ MayReview s.world.db user event
  refuses : ∀ userId eventId accepted commits enqueues user event,
    l = .request userId (.write (.reviewHealingEvent eventId accepted)) commits enqueues →
    engineer s.world.db userId = .ok user →
    s.world.db.healingEvents.get? eventId = some event → ¬ MayReview s.world.db user event →
      ∃ e, e.cls = .forbidden ∧
        handle s.world.db userId commits enqueues (.write (.reviewHealingEvent eventId accepted)) =
          (s.world.db, none, .failed (.aegis e))

/-- The action is no engineer's review of an event that is not theirs to review. -/
def OwnReview (s : Site) (l : SiteLabel) : Prop :=
  ∀ userId eventId accepted commits enqueues user event,
    l = .request userId (.write (.reviewHealingEvent eventId accepted)) commits enqueues →
    engineer s.world.db userId = .ok user →
    s.world.db.healingEvents.get? eventId = some event → MayReview s.world.db user event

section
variable [Unicode] {s t : Site} {l : SiteLabel}

/-- No action but a review changes the decision of an event. -/
theorem decision_changed {eventId : Uuid} {event event' : HealingEvent}
    (h : Site.next s l = some t) (hbefore : s.world.db.healingEvents.get? eventId = some event)
    (hafter : t.world.db.healingEvents.get? eventId = some event')
    (hne : event'.accepted ≠ event.accepted) :
    ∃ userId accepted commits enqueues user,
      l = .request userId (.write (.reviewHealingEvent eventId accepted)) commits enqueues ∧
        engineer s.world.db userId = .ok user := by
  have hkept : event' ∈ s.world.db.healingEvents.rows → event' = event := by
    intro hmem
    have hget := Table.get?_of_mem hmem
    rw [Table.get?_key hafter, hbefore] at hget
    exact (Option.some.inj hget).symm
  cases l with
  | request userId request commits enqueues =>
    rw [next_request h] at hafter
    rcases effect_events (handle_effect s.world.db userId commits enqueues request) with
      hsub | ⟨reviewed, accepted, user, rfl, rfl, huser, hdb⟩
    · rw [hkept (hsub event' (Table.get?_mem hafter))] at hne
      exact absurd rfl hne
    · by_cases hid : reviewed = eventId
      · subst hid
        exact ⟨userId, accepted, true, enqueues, user, rfl, huser⟩
      · rw [hdb] at hafter
        have hsame : (HealingService.setAccepted s.world.db reviewed accepted).healingEvents.get?
            eventId = s.world.db.healingEvents.get? eventId :=
          Table.get?_modify_of_ne s.world.db.healingEvents
            (fun e => { e with accepted := some accepted }) (fun _ => rfl) (Ne.symm hid)
        rw [hsame] at hafter
        rw [hkept (Table.get?_mem hafter)] at hne
        exact absurd rfl hne
  | execute runId env =>
    obtain rfl := Option.some.inj h
    have hsame := executeRun_keeps_event env runId hbefore
    rw [hsame] at hafter
    rw [Option.some.inj hafter] at hne
    exact absurd rfl hne
  | loseSuite suiteId =>
    obtain rfl := Option.some.inj h
    rw [hkept (Table.get?_mem hafter)] at hne
    exact absurd rfl hne

theorem review_protected_iff : Protected s l ↔ OwnReview s l := by
  constructor
  · intro h userId eventId accepted commits enqueues user event hl huser hevent
    by_contra hmay
    obtain ⟨e, -, hhandle⟩ :=
      h.refuses userId eventId accepted commits enqueues user event hl huser hevent hmay
    rw [handle_review commits enqueues accepted huser hevent] at hhandle
    cases commits with
    | true => cases congrArg (fun result => result.2.2) hhandle
    | false => cases congrArg (fun result => result.2.2) hhandle
  · intro h
    constructor
    · intro t hnext eventId event event' hbefore hafter hne
      obtain ⟨userId, accepted, commits, enqueues, user, hl, huser⟩ :=
        decision_changed hnext hbefore hafter hne
      exact ⟨userId, accepted, commits, enqueues, user, hl, huser,
        h userId eventId accepted commits enqueues user event hl huser hbefore⟩
    · intro userId eventId accepted commits enqueues user event hl huser hevent hmay
      exact absurd (h userId eventId accepted commits enqueues user event hl huser hevent) hmay

/-- The runs all of whose reviews are protected are the runs in which every engineer reviews only
events of runs and suites of their own. -/
theorem reviews_protected_iff {ls : List SiteLabel} :
    Run (Under Protected (ofNext Site.next)) s ls t ↔
      Run (Under OwnReview (ofNext Site.next)) s ls t :=
  ⟨fun h => h.under_congr (I := fun _ => True) (fun _ _ _ _ _ => trivial)
      (fun _ _ _ => review_protected_iff) trivial,
    fun h => h.under_congr (I := fun _ => True) (fun _ _ _ _ _ => trivial)
      (fun _ _ _ => review_protected_iff.symm) trivial⟩

end

/-- Ada's suite and queued run, and Bob, an engineer. -/
def bobsSite : Site :=
  { world :=
      { db := { loginDb with
          users := loginDb.users.insertAll (fun n user => { user with id := n }) (fun _ _ => rfl)
            [RunService.bob] } } }

/-- Bob accepts the event of Ada's run of Ada's suite. -/
theorem bob_reviews :
    ∃ s t, Run (ofNext (@Site.next asciiUnicode)) bobsSite [.execute 0 calm] s ∧
      @Site.next asciiUnicode s (reviewFirst 1 true) = some t ∧
      (s.world.db.healingEvents.get? 0).map HealingEvent.accepted = some none ∧
      (t.world.db.healingEvents.get? 0).map HealingEvent.accepted = some (some true) ∧
      ¬ @Protected asciiUnicode s (reviewFirst 1 true) := by
  let _ : Unicode := asciiUnicode
  have hrun : ∃ s t, Run (ofNext (@Site.next asciiUnicode)) bobsSite [.execute 0 calm] s ∧
      @Site.next asciiUnicode s (reviewFirst 1 true) = some t ∧
      (s.world.db.healingEvents.get? 0).map HealingEvent.accepted = some none ∧
      (t.world.db.healingEvents.get? 0).map HealingEvent.accepted = some (some true) ∧
      engineer s.world.db 1 = .ok RunService.bob ∧
      ∃ event ∈ s.world.db.healingEvents.get? 0, ¬ MayReview s.world.db RunService.bob event :=
    ⟨_, _, exec_run rfl, rfl, by decide +kernel, by decide +kernel, rfl, by decide +kernel⟩
  obtain ⟨s, t, hs, ht, hbefore, hafter, huser, event, hevent, hother⟩ := hrun
  refine ⟨s, t, hs, ht, hbefore, hafter, fun hprotected => hother ?_⟩
  exact review_protected_iff.mp hprotected 1 0 true true true RunService.bob event rfl huser hevent

end AegisPlatform.Api
