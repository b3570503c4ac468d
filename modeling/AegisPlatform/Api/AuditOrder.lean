import AegisPlatform.Api.Notification
import AegisPlatform.Api.HealingReview
import AegisPlatform.Foundations.Paging
import AegisPlatform.Workers.Stored

/-! # The order of the healing events of a run

`list_for_run` orders by `created_at`, which the server fills with `now()`, the start of the
transaction. The events of a run come from one execution and go into one transaction, so they all
have one stamp, and the query may return them in any order.
-/

namespace AegisPlatform.Api
open Foundations Domain Core Db Services Workers
set_option autoImplicit false
set_option maxHeartbeats 250000

/-- What `HealingRepository.list_for_run` may return, for the `created_at` of each event. -/
def Listed (createdAt : Uuid → DateTime) (db : Database) (runId : Uuid) (listed : List HealingEvent) :
    Prop :=
  OrderBy (fun e : HealingEvent => OrderDual.toDual (createdAt e.id)) (db.eventsOf runId) listed

/-- The healing events an action inserts are inserted in one transaction and get one stamp. -/
def Stamped (createdAt : Uuid → DateTime) (s t : Site) : Prop :=
  ∀ i j, s.world.db.healingEvents.next ≤ i → i < t.world.db.healingEvents.next →
    s.world.db.healingEvents.next ≤ j → j < t.world.db.healingEvents.next →
      createdAt i = createdAt j

/-! ## One action, seen from run `r` -/

/-- An action neither brings run `r` back, nor queues it again, nor touches the order of its events
once it was taken from the queue. -/
structure Kept (r : Uuid) (db db' : Database) : Prop where
  next : db.runs.next ≤ db'.runs.next
  gone : db.runs.get? r = none → db'.runs.get? r = none
  status : statusOf db' r = some .queued → statusOf db r = some .queued
  events : statusOf db r ≠ some .queued → db'.runs.get? r ≠ none →
    (db'.eventsOf r).map HealingEvent.id = (db.eventsOf r).map HealingEvent.id

section
variable {r : Uuid} {db db' : Database}

theorem Kept.refl (r : Uuid) (db : Database) : Kept r db db :=
  ⟨le_refl _, id, id, fun _ _ => rfl⟩

theorem Kept.trans {db'' : Database} (h : Kept r db db') (k : Kept r db' db'') :
    Kept r db db'' where
  next := h.next.trans k.next
  gone := fun hnone => k.gone (h.gone hnone)
  status := fun hq => h.status (k.status hq)
  events := by
    intro htaken hthere
    have htaken' : statusOf db' r ≠ some .queued := fun hq => htaken (h.status hq)
    have hthere' : db'.runs.get? r ≠ none := fun hnone => hthere (k.gone hnone)
    exact (k.events htaken' hthere).trans (h.events htaken hthere')

theorem get?_setRun_eq_none {loaded current : TestRun} (h : db.runs.get? r = none) :
    (db.setRun loaded current).runs.get? r = none := by
  unfold Database.setRun
  rw [Table.get?_modify, h]
  rfl

/-- Deleting a suite deletes the events of the runs that go with it, and no others. -/
theorem eventsOf_deleteSuite {suiteId : Uuid} {run : TestRun}
    (h : (db.deleteSuite suiteId).runs.get? r = some run) :
    (db.deleteSuite suiteId).eventsOf r = db.eventsOf r := by
  obtain ⟨hrun, hother⟩ := (Table.get?_filter_eq_some_iff db.runs _ r run).mp h
  have hkept : r ∉ (db.runsOf suiteId).map TestRun.id := by
    intro hmem
    obtain ⟨run', hrun', hid⟩ := List.mem_map.mp hmem
    obtain ⟨hstored, hof⟩ := List.mem_filter.mp hrun'
    have hget := Table.get?_of_mem hstored
    rw [hid, hrun] at hget
    obtain rfl := Option.some.inj hget
    rw [bne, hof] at hother
    cases hother
  unfold Database.eventsOf
  show (db.healingEvents.rows.filter _).filter _ = _
  rw [List.filter_filter]
  congr 1
  funext e
  by_cases he : e.runId = r
  · simp [he, hkept]
  · simp [he]

/-- A review changes the decision of an event, not its place. -/
theorem eventsOf_setAccepted (eventId : Uuid) (accepted : Bool) :
    ((HealingService.setAccepted db eventId accepted).eventsOf r).map
        HealingEvent.id = (db.eventsOf r).map HealingEvent.id := by
  let decided : HealingEvent → HealingEvent := fun e =>
    if e.id = eventId then { e with accepted := some accepted } else e
  have hrun : (fun e : HealingEvent => e.runId == r) ∘ decided = fun e => e.runId == r := by
    funext e
    by_cases he : e.id = eventId
    · simp [decided, he]
    · simp [decided, he]
  have hid : HealingEvent.id ∘ decided = HealingEvent.id := by
    funext e
    by_cases he : e.id = eventId
    · simp [decided, he]
    · simp [decided, he]
  show ((db.healingEvents.rows.map decided).filter _).map HealingEvent.id = _
  rw [List.filter_map, List.map_map, hrun, hid]
  rfl

theorem write_kept {user : User} {write : Write} (h : WriteEffect db user write db') :
    Kept r db db' := by
  have hstatus := write_queued (r := r) h
  cases h with
  | nothing => exact Kept.refl r db
  | createSuite => exact ⟨le_refl _, id, id, fun _ _ => rfl⟩
  | updateSuite => exact ⟨le_refl _, id, id, fun _ _ => rfl⟩
  | addCase => exact ⟨le_refl _, id, id, fun _ _ => rfl⟩
  | cancelRun => exact ⟨le_refl _, get?_setRun_eq_none, hstatus, fun _ _ => rfl⟩
  | deleteSuite suiteId hget hallowed =>
    refine ⟨le_refl _, ?_, hstatus, fun _ hthere => ?_⟩
    · intro hnone
      refine Option.eq_none_iff_forall_ne_some.mpr fun run hrun => ?_
      have hstored := ((Table.get?_filter_eq_some_iff db.runs _ r run).mp hrun).1
      rw [hnone] at hstored
      cases hstored
    · obtain ⟨run, hrun⟩ := Option.ne_none_iff_exists'.mp hthere
      rw [eventsOf_deleteSuite hrun]
  | review eventId accepted =>
    refine ⟨le_refl _, id, id, fun _ _ => ?_⟩
    exact eventsOf_setAccepted eventId accepted

theorem effect_kept {userId : Uuid} {commits : Bool} {request : Request} {called : Option Uuid}
    (h : Effect db userId commits request db' called) (hr : r < db.runs.next) : Kept r db db' := by
  cases h with
  | nothing => exact Kept.refl r db
  | write huser hcommits hwrite => exact write_kept hwrite
  | @createRun user suite cases suiteId data idempotencyKey =>
    have hsame : (RunService.insertRun db suite cases data user idempotencyKey).runs.get? r =
        db.runs.get? r :=
      Table.get?_insert_of_ne _ _ (fun _ => RunService.id_newRun ..) (Nat.ne_of_lt hr)
    refine ⟨Nat.le_succ _, fun hnone => hsame.trans hnone, fun hq => ?_, fun _ _ => rfl⟩
    unfold statusOf at hq ⊢
    rwa [hsame] at hq

variable [Unicode] {env : Env} {runId : Uuid} {w : World}

/-- An execution adds its events behind those of its run, and none to another. -/
theorem eventsOf_executeRun (env : Env) (runId : Uuid) (w : World) (r : Uuid) :
    (executeRun env runId w).1.db.eventsOf r =
      w.db.eventsOf r ++ if r = runId then createdEvents env runId w else [] := by
  unfold Database.eventsOf
  rw [rows_executeRun, List.filter_append]
  congr 1
  split
  · next hr =>
    refine List.filter_eq_self.mpr fun e he => ?_
    rw [(mem_createdEvents he).1, hr]
    exact beq_self_eq_true runId
  · next hr =>
    refine List.filter_eq_nil_iff.mpr fun e he => ?_
    rw [(mem_createdEvents he).1, beq_iff_eq]
    exact Ne.symm hr

theorem executeRun_kept (env : Env) (runId : Uuid) (w : World) :
    Kept r w.db (executeRun env runId w).1.db := by
  refine ⟨Nat.le_of_eq (executeRun_next env runId w).symm, fun hnone => ?_, executeRun_queued,
    fun htaken _ => ?_⟩
  · refine executeRun_keeps (I := fun db => db.runs.get? r = none) env runId w ?_ hnone
    intro db phase db' phase' hstep hof hi
    rcases phase_writes hstep hof with rfl | ⟨loaded, current, -, results, events, -, -, -, -, rfl⟩
    · exact hi
    · exact get?_setRun_eq_none hi
  · by_cases hr : r = runId
    · subst hr
      have hskip : ∀ ts, ¬ Stores env r w ts := by
        rintro ts ⟨-, -, run, suite, cases, hfound, -⟩
        unfold statusOf at htaken
        rw [hfound.row, Option.map_some, hfound.queued] at htaken
        exact htaken rfl
      unfold Database.eventsOf
      rw [healingEvents_of_not_stores hskip]
    · rw [eventsOf_executeRun, if_neg hr, List.append_nil]

theorem next_kept {s t : Site} {l : SiteLabel} (hnext : s.next l = some t)
    (hr : r < s.world.db.runs.next) : Kept r s.world.db t.world.db := by
  cases l with
  | execute runId env =>
    obtain rfl := Option.some.inj hnext
    exact executeRun_kept env runId s.world
  | loseSuite suiteId =>
    obtain rfl := Option.some.inj hnext
    exact ⟨le_refl _, id, id, fun _ _ => rfl⟩
  | request userId request commits enqueues =>
    obtain rfl := Option.some.inj hnext
    exact effect_kept (handle_effect s.world.db userId commits enqueues request) hr

theorem run_kept {s t : Site} {ls : List SiteLabel} (h : Run (ofNext Site.next) s ls t)
    (hr : r < s.world.db.runs.next) : Kept r s.world.db t.world.db := by
  have hinv : r < t.world.db.runs.next ∧ Kept r s.world.db t.world.db := by
    refine h.invariant (I := fun t => r < t.world.db.runs.next ∧ Kept r s.world.db t.world.db) ?_
      ⟨hr, Kept.refl r _⟩
    rintro t l u ⟨hlt, hkept⟩ hnext
    have hstep := next_kept hnext hlt
    exact ⟨lt_of_lt_of_le hlt hstep.next, hkept.trans hstep⟩
  exact hinv.2

/-! ## Before its execution a run has no events -/

/-- Run `r` is still to come, or waits in the queue. -/
def Waiting (r : Uuid) (db : Database) : Prop :=
  db.runs.next ≤ r ∨ statusOf db r = some .queued

omit [Unicode] in
theorem effect_waiting {userId : Uuid} {commits : Bool} {request : Request} {called : Option Uuid}
    (h : Effect db userId commits request db' called) (hwait : Waiting r db') : Waiting r db := by
  rcases Nat.lt_or_ge r db.runs.next with hlt | hge
  · have hkept := effect_kept h hlt
    rcases hwait with hge | hq
    · exact Or.inl (hkept.next.trans hge)
    · exact Or.inr (hkept.status hq)
  · exact Or.inl hge

omit [Unicode] in
theorem effect_eventsOf {userId : Uuid} {commits : Bool} {request : Request}
    {called : Option Uuid} (h : Effect db userId commits request db' called)
    (hnone : db.eventsOf r = []) : db'.eventsOf r = [] := by
  have hold := List.filter_eq_nil_iff.mp hnone
  refine List.filter_eq_nil_iff.mpr fun e he => ?_
  rcases effect_events h with hsub | ⟨eventId, accepted, user, -, -, -, rfl⟩
  · exact hold e (hsub e he)
  · obtain ⟨stored, hstored, rfl⟩ := HealingService.mem_setAccepted he
    have hrun := hold stored hstored
    split
    · exact hrun
    · exact hrun

theorem next_waiting {s t : Site} {l : SiteLabel} (hnext : s.next l = some t)
    (hblank : Waiting r s.world.db → s.world.db.eventsOf r = [])
    (hwait : Waiting r t.world.db) : t.world.db.eventsOf r = [] := by
  cases l with
  | loseSuite suiteId =>
    obtain rfl := Option.some.inj hnext
    exact hblank hwait
  | request userId request commits enqueues =>
    obtain rfl := Option.some.inj hnext
    have heffect := handle_effect s.world.db userId commits enqueues request
    exact effect_eventsOf heffect (hblank (effect_waiting heffect hwait))
  | execute runId env =>
    obtain rfl := Option.some.inj hnext
    have hsame := executeRun_next env runId s.world
    have hbefore : Waiting r s.world.db := by
      rcases hwait with hge | hq
      · exact Or.inl (hsame ▸ hge)
      · exact Or.inr (executeRun_queued hq)
    show (executeRun env runId s.world).1.db.eventsOf r = []
    rw [eventsOf_executeRun, hblank hbefore, List.nil_append]
    split
    · next hr =>
      subst hr
      refine List.eq_nil_iff_forall_not_mem.mpr fun e he => ?_
      obtain ⟨-, -, run, run', -, hget, hlive⟩ := mem_createdEvents he
      rcases hwait with hge | hq
      · exact absurd (Table.get?_lt hget) (Nat.not_lt_of_le hge)
      · unfold statusOf at hq
        rw [hget, Option.map_some] at hq
        exact hlive (Option.some.inj hq)
    · rfl

/-! ## The claimed order -/

/-- The actions of the site, with the stamps of the events they insert. -/
def Dated (createdAt : Uuid → DateTime) (s : Site) (l : SiteLabel) (t : Site) : Prop :=
  ofNext Site.next s l t ∧ Stamped createdAt s t

theorem dated_run {createdAt : Uuid → DateTime} {s t : Site} {ls : List SiteLabel}
    (h : Run (Dated createdAt) s ls t) : Run (ofNext Site.next) s ls t := by
  induction h with
  | nil => exact Run.nil _
  | snoc _ hlast ih => exact Run.snoc ih hlast.1

/-- Until an execution takes it, a run has no events. -/
theorem eventsOf_waiting {s₀ s₁ : Site} {ls : List SiteLabel}
    (hevents : s₀.world.db.healingEvents.rows = []) (hbefore : Run (ofNext Site.next) s₀ ls s₁)
    (hwait : Waiting r s₁.world.db) : s₁.world.db.eventsOf r = [] := by
  refine hbefore.invariant (I := fun s => Waiting r s.world.db →
    s.world.db.eventsOf r = []) (fun s l t hi hstep => next_waiting hstep hi)
    (fun _ => ?_) hwait
  unfold Database.eventsOf
  rw [hevents, List.filter_nil]

/-- After it was taken, a run has the events of that execution and no others. -/
theorem eventsOf_taken {s t : Site} {ls : List SiteLabel} {env : Env}
    (hblank : s.world.db.eventsOf r = [])
    (hqueued : statusOf s.world.db r = some .queued)
    (htaken : statusOf (executeRun env r s.world).1.db r ≠ some .queued)
    (hafter : Run (ofNext Site.next) { s with world := (executeRun env r s.world).1 } ls t)
    (hthere : t.world.db.runs.get? r ≠ none) :
    (t.world.db.eventsOf r).map HealingEvent.id =
      (createdEvents env r s.world).map HealingEvent.id := by
  have hcreated : r < (executeRun env r s.world).1.db.runs.next := by
    rw [executeRun_next]
    unfold statusOf at hqueued
    obtain ⟨run, hrun, -⟩ := Option.map_eq_some_iff.mp hqueued
    exact Table.get?_lt hrun
  have hids := (run_kept hafter hcreated).events htaken hthere
  change _ = ((executeRun env r s.world).1.db.eventsOf r).map _ at hids
  rwa [eventsOf_executeRun, hblank, List.nil_append, if_pos rfl] at hids

/-- The events of one execution all have one stamp. -/
theorem createdEvents_tied {createdAt : Uuid → DateTime} {s t : Site} {env : Env}
    (hstamped : Stamped createdAt s { s with world := (executeRun env r s.world).1 })
    (hids : (t.world.db.eventsOf r).map HealingEvent.id =
      (createdEvents env r s.world).map HealingEvent.id) :
    ∀ a ∈ t.world.db.eventsOf r, ∀ b ∈ t.world.db.eventsOf r,
      OrderDual.toDual (createdAt a.id) = OrderDual.toDual (createdAt b.id) := by
  have hrange : ∀ a ∈ t.world.db.eventsOf r,
      s.world.db.healingEvents.next ≤ a.id ∧
        a.id < (executeRun env r s.world).1.db.healingEvents.next := by
    intro a ha
    have hmem := List.mem_map_of_mem (f := HealingEvent.id) ha
    rw [hids] at hmem
    obtain ⟨e, he, hid⟩ := List.mem_map.mp hmem
    rw [← hid]
    refine ⟨(mem_createdEvents he).2.1, Table.below _ e ?_⟩
    rw [rows_executeRun]
    exact List.mem_append_right _ he
  intro a ha b hb
  exact congrArg OrderDual.toDual (hstamped a.id b.id (hrange a ha).1 (hrange a ha).2
    (hrange b hb).1 (hrange b hb).2)

theorem createdEvents_short_iff {env : Env} {w : World} : (createdEvents env r w).length ≤ 1 ↔
    ∀ ts, Stores env r w ts → (ts.filter Task.drifted).length ≤ 1 := by
  constructor
  · intro hlen ts hts
    rw [(createdEvents_of_stores hts).2.1.length_eq]
    exact hlen
  · intro h
    by_cases hstores : ∃ ts, Stores env r w ts
    · obtain ⟨ts, hts⟩ := hstores
      rw [← (createdEvents_of_stores hts).2.1.length_eq]
      exact h ts hts
    · rw [createdEvents_of_not_stores fun ts hts => hstores ⟨ts, hts⟩]
      exact Nat.zero_le 1

/-- However the site went on after the execution that took a run from the queue, `list_for_run`
returns the events of the run in the order in which that execution created them, step after step,
exactly if it stored at most one drifted step. -/
theorem audit_order_iff {createdAt : Uuid → DateTime} {s₀ s₁ s₂ t : Site} {ls ls' : List SiteLabel}
    {env : Env} (hevents : s₀.world.db.healingEvents.rows = [])
    (hbefore : Run (Dated createdAt) s₀ ls s₁)
    (hqueued : statusOf s₁.world.db r = some .queued)
    (hexecute : Dated createdAt s₁ (.execute r env) s₂)
    (htaken : statusOf s₂.world.db r ≠ some .queued)
    (hafter : Run (Dated createdAt) s₂ ls' t) (hthere : t.world.db.runs.get? r ≠ none) :
    (∀ ts, Stores env r s₁.world ts → List.Forall₂ (EventOf env r) (ts.filter Task.drifted)
      (createdEvents env r s₁.world)) ∧
    ((∀ listed, Listed createdAt t.world.db r listed →
        listed.map HealingEvent.id = (createdEvents env r s₁.world).map HealingEvent.id) ↔
      ∀ ts, Stores env r s₁.world ts → (ts.filter Task.drifted).length ≤ 1) := by
  refine ⟨fun ts hts => (createdEvents_of_stores hts).2.1, ?_⟩
  have hblank := eventsOf_waiting hevents (dated_run hbefore) (Or.inr hqueued)
  obtain ⟨hnext, hstamped⟩ := hexecute
  obtain rfl := Option.some.inj hnext
  have hids := eventsOf_taken hblank hqueued htaken (dated_run hafter) hthere
  have hnodup : ((t.world.db.eventsOf r).map HealingEvent.id).Nodup :=
    t.world.db.healingEvents.nodup.sublist (List.filter_sublist.map HealingEvent.id)
  rw [← hids, ← createdEvents_short_iff]
  refine (OrderBy.unique_iff_of_tied hnodup (createdEvents_tied hstamped hids)).trans ?_
  rw [← List.length_map HealingEvent.id, hids, List.length_map]

end

/-! ## Two events of one run -/

/-- Two steps that drift. -/
def driftingCase : TestCase :=
  { loginCase with
    steps := [StepSpec.modelDump { action := .click, selector := some "#open" },
      StepSpec.modelDump { action := .click, selector := some "#send" }] }

def driftingSite : Site :=
  { world := { db := { loginSite.world.db with
      cases := Table.empty.insert fun n => { driftingCase with id := n } } } }

def executeDemo : SiteLabel := .execute 0 calm

theorem dated_constant [Unicode] {s t : Site} {l : SiteLabel} (h : s.next l = some t) :
    Dated (fun _ => 0) s l t :=
  ⟨h, fun _ _ _ _ _ _ => rfl⟩

/-- The event of the second step comes first. -/
theorem audit_counterexample :
    let _ : Unicode := asciiUnicode
    driftingSite.world.db.healingEvents.rows = [] ∧ ∃ s₁ s₂ listed,
      Run (Dated fun _ => 0) driftingSite [demoTrigger true] s₁ ∧
      statusOf s₁.world.db 0 = some .queued ∧ Dated (fun _ => 0) s₁ executeDemo s₂ ∧
      statusOf s₂.world.db 0 = some .failed ∧ Listed (fun _ => 0) s₂.world.db 0 listed ∧
      listed.map HealingEvent.originalSelector = ["#send", "#open"] ∧
      listed.map HealingEvent.id ≠ (createdEvents calm 0 s₁.world).map HealingEvent.id := by
  intro _
  refine ⟨rfl, _, _, _, Run.single (dated_constant rfl), by decide, dated_constant rfl, by decide,
    ⟨List.reverse_perm _, ?_⟩, by decide, by decide⟩
  exact List.pairwise_of_forall fun _ _ => le_refl _

/-- With one drifted step it cannot go wrong, also after a review. -/
theorem login_audited :
    let _ : Unicode := asciiUnicode
    ∃ s₁ s₂ t, Run (Dated fun _ => 0) loginSite [demoTrigger true] s₁ ∧
      Dated (fun _ => 0) s₁ executeDemo s₂ ∧
      Run (Dated fun _ => 0) s₂ [reviewFirst 0 false] t ∧
      t.world.db.healingEvents.rows.map HealingEvent.accepted = [some false] ∧
      (∀ ts, Stores calm 0 s₁.world ts → List.Forall₂ (EventOf calm 0)
        (ts.filter Task.drifted) (createdEvents calm 0 s₁.world)) ∧
      ((∀ listed, Listed (fun _ => 0) t.world.db 0 listed →
          listed.map HealingEvent.id =
            (createdEvents calm 0 s₁.world).map HealingEvent.id) ↔
        ∀ ts, Stores calm 0 s₁.world ts → (ts.filter Task.drifted).length ≤ 1) := by
  intro _
  have hruns : ∃ s₁ s₂ t, Run (Dated fun _ => 0) loginSite [demoTrigger true] s₁ ∧
      statusOf s₁.world.db 0 = some .queued ∧ Dated (fun _ => 0) s₁ executeDemo s₂ ∧
      statusOf s₂.world.db 0 ≠ some .queued ∧
      Run (Dated fun _ => 0) s₂ [reviewFirst 0 false] t ∧
      t.world.db.runs.get? 0 ≠ none ∧
      t.world.db.healingEvents.rows.map HealingEvent.accepted = [some false] := by
    refine ⟨_, _, _, Run.single (dated_constant rfl), by decide, dated_constant rfl, by decide,
      Run.single (dated_constant rfl), by decide, by decide⟩
  obtain ⟨s₁, s₂, t, hbefore, hqueued, hexecute, htaken, hafter, hthere, hseen⟩ := hruns
  exact ⟨s₁, s₂, t, hbefore, hexecute, hafter, hseen,
    audit_order_iff rfl hbefore hqueued hexecute htaken hafter hthere⟩

end AegisPlatform.Api
