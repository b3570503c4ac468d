import AegisPlatform.Api.Integrity
import AegisPlatform.Db.Evolution
import AegisPlatform.Workers.Announcements

/-! # The platform

Requests and registrations, each atomic, among workers and cancel requests that take one database
access at a time. A run handed to the dispatcher is one more delivery. Suites may be deleted while
a worker is in the middle of a run of theirs.

In every state the references hold, no run is delivered twice, and what was told of a stored run is
what is stored of it. A row that was deleted never comes back.
-/

namespace AegisPlatform.Api
open Foundations Domain Core Db Services Workers
set_option autoImplicit false
set_option maxHeartbeats 250000

inductive PlatformLabel
  | request (userId : Uuid) (request : Request) (commits enqueues : Bool)
  | register (hashPassword : String → String) (data : UserCreate)
  | deliver (i : ℕ) (env : Env)
  | arrive (userId runId : Uuid)
  | cancel (i : ℕ) (commits : Bool)

/-- The state after a request that committed `db` and handed over the run `handed`. -/
def Platform.answer (s : Pool) (db : Database) (handed : Option Uuid) : Pool :=
  { s with
    world := { s.world with db := db }
    deliveries := s.deliveries ++ handed.toList.map fun runId => { runId := runId } }

section
variable [Unicode]

def Platform.next (s : Pool) : PlatformLabel → Option Pool
  | .request userId request commits enqueues =>
    let (db, called, _) := handle s.world.db userId commits enqueues request
    some (Platform.answer s db (if enqueues then called else none))
  | .register hashPassword data =>
    match Api.register hashPassword s.world.db data with
    | .error _ => some s
    | .ok (_, db) => some (Platform.answer s db none)
  | .deliver i env => s.next (.deliver i env)
  | .arrive userId runId =>
    match engineer s.world.db userId with
    | .error _ => some s
    | .ok user => some { s with cancels := s.cancels ++ [{ runId := runId, actor := user }] }
  | .cancel i commits => s.next (.cancel i commits)

/-! ## Later states of the database -/

section
variable {db db' : Database} {user : User}

omit [Unicode] in
theorem write_evolves {write : Write} (h : WriteEffect db user write db') : db.Evolves db' := by
  cases h with
  | nothing => exact .refl db
  | createSuite data =>
    exact
      { Database.Evolves.refl db with
        suites := .of_insert _ _ fun _ => SuiteService.id_newSuite ..
        cases := .of_insertAll _ _ _ _ }
  | @updateSuite suite suite' =>
    exact
      { Database.Evolves.refl db with
        suites := .of_modify _ _ (fun stored : TestSuite => { suite' with id := stored.id }) fun _ => rfl }
  | deleteSuite => exact .of_deleteSuite ..
  | addCase => exact { Database.Evolves.refl db with cases := .of_insert _ _ fun _ => SuiteService.id_buildCase .. }
  | cancelRun => exact .of_setRun ..
  | review eventId accepted =>
    exact
      { Database.Evolves.refl db with
        healingEvents :=
          .of_modify _ _ (fun e : HealingEvent => { e with accepted := some accepted }) fun _ => rfl }

omit [Unicode] in
theorem effect_evolves {userId : Uuid} {commits : Bool} {request : Request} {called : Option Uuid}
    (h : Effect db userId commits request db' called) : db.Evolves db' := by
  cases h with
  | nothing => exact .refl db
  | write huser hcommits h => exact write_evolves h
  | createRun => exact { Database.Evolves.refl db with runs := .of_insert _ _ fun _ => RunService.id_newRun .. }

theorem register_evolves {hashPassword : String → String} {data : UserCreate}
    (h : register hashPassword db data = .ok (user, db')) : db.Evolves db' := by
  obtain ⟨-, -, rfl⟩ := register_ok h
  exact { Database.Evolves.refl db with users := .of_insert _ _ fun _ => AuthService.id_newUser .. }

theorem phase_evolves {env : Env} {runId : Uuid} {phase phase' : ExecutorPhase}
    (h : PhaseStep env runId db phase db' phase') (hof : phase.Of runId) : db.Evolves db' := by
  rcases phase_writes h hof with rfl | ⟨loaded, current, -, results, events, -, -, -, -, rfl⟩
  · exact .refl _
  · exact (Database.Evolves.of_insertStepRows db results events).trans (.of_setRun ..)

omit [Unicode] in
theorem cancel_evolves {runId : Uuid} {commits : Bool} {phase phase' : CancelPhase}
    (h : CancelStep runId commits db phase db' phase') : db.Evolves db' := by
  cases h with
  | refuse => exact .refl db
  | load => exact .refl db
  | commit => exact .of_setRun ..
  | fail => exact .refl db
  | done => exact .refl db

omit [Unicode] in
theorem cancel_intact {runId : Uuid} {commits : Bool} {phase phase' : CancelPhase}
    (h : CancelStep runId commits db phase db' phase') (hi : db.Intact) : db'.Intact := by
  cases h with
  | refuse => exact hi
  | load => exact hi
  | commit => exact hi.setRun ..
  | fail => exact hi
  | done => exact hi

end

/-! ## The invariant -/

omit [Unicode] in
structure Coherent (s : Pool) : Prop where
  intact : s.world.db.Intact
  known : ∀ d ∈ s.deliveries, d.runId < s.world.db.runs.next
  spoken : ∀ p ∈ s.world.published, p.1 < s.world.db.runs.next
  deliveries : ∀ (i : ℕ) d, s.deliveries[i]? = some d → d.phase.Of d.runId
  cancels : ∀ (i : ℕ) c, s.cancels[i]? = some c → c.phase.Of c.runId
  once : (s.deliveries.map Delivery.runId).Nodup
  telling : ∀ r run, s.world.db.runs.get? r = some run → Telling r s

omit [Unicode] in
/-- Accounts and suites, but no run yet. -/
structure Platform.Initial (s : Pool) : Prop where
  intact : s.world.db.Intact
  runs : s.world.db.runs.rows = []
  published : s.world.published = []
  deliveries : s.deliveries = []
  cancels : s.cancels = []

omit [Unicode] in
theorem initial_coherent {s : Pool} (h : Platform.Initial s) : Coherent s where
  intact := h.intact
  known := by simp [h.deliveries]
  spoken := by simp [h.published]
  deliveries := by simp [h.deliveries]
  cancels := by simp [h.cancels]
  once := by simp [h.deliveries]
  telling := by
    intro r run hrun
    have hmem := Table.get?_mem hrun
    rw [h.runs] at hmem
    cases hmem

section
variable {s t : Pool} {r : Uuid}

omit [Unicode] in
/-- Of a run that is not stored no result is stored. -/
theorem resultsOf_gone {db : Database} (hi : db.Intact) (hnone : db.runs.get? r = none) :
    db.resultsOf r = [] := by
  unfold Database.resultsOf
  rw [List.filter_eq_nil_iff]
  intro result hresult heq
  obtain ⟨run, hrun⟩ := hi.stepResults result hresult
  rw [beq_iff_eq.mp heq, hnone] at hrun
  cases hrun

omit [Unicode] in
/-- Nothing is known of a run id that was not given out. -/
theorem Coherent.fresh (hs : Coherent s) (hr : s.world.db.runs.next ≤ r) :
    (∀ d ∈ s.deliveries, d.runId ≠ r) ∧ s.world.db.resultsOf r = [] ∧
      eventsOn r s.world = [] := by
  refine ⟨?_, ?_, ?_⟩
  · intro d hd heq
    have hlt := hs.known d hd
    rw [heq] at hlt
    exact absurd hlt (Nat.not_lt.mpr hr)
  · refine resultsOf_gone hs.intact (Option.eq_none_iff_forall_ne_some.mpr fun run hrun => ?_)
    exact absurd (Table.get?_lt hrun) (Nat.not_lt.mpr hr)
  · apply onChannel_eq_nil
    intro p hp heq
    have hlt := hs.spoken p hp
    rw [heq] at hlt
    exact absurd hlt (Nat.not_lt.mpr hr)

/-! ## Requests -/

omit [Unicode] in
/-- Deleting a suite deletes the results of the runs that go with it, and no others. -/
theorem resultsOf_deleteSuite {db : Database} {suiteId : Uuid} {run : TestRun}
    (hrun : (db.deleteSuite suiteId).runs.get? r = some run) :
    (db.deleteSuite suiteId).resultsOf r = db.resultsOf r := by
  obtain ⟨hstored, hkept⟩ := (Table.get?_filter_eq_some_iff db.runs _ r run).mp hrun
  have hgone : ((db.runsOf suiteId).map TestRun.id).contains r = false := by
    rw [← Bool.not_eq_true, Database.contains_runsOf]
    rintro ⟨run', hmem, hsuite, hid⟩
    have hget' := Table.get?_of_mem hmem
    rw [hid, hstored] at hget'
    obtain rfl := Option.some.inj hget'
    simp [hsuite] at hkept
  unfold Database.resultsOf Database.deleteSuite
  rw [List.filter_filter]
  apply List.filter_congr
  intro result _
  by_cases heq : result.runId = r
  · simp only [heq, hgone, beq_self_eq_true, Bool.not_false, Bool.and_true]
  · simp [heq]

omit [Unicode] in
/-- Of a run that is still stored a request changes nothing, or it cancels a run. -/
theorem write_run {db db' : Database} {user : User} {write : Write}
    (h : WriteEffect db user write db') {run : TestRun} (hrun : db'.runs.get? r = some run) :
    db'.runs.get? r = db.runs.get? r ∧ db'.resultsOf r = db.resultsOf r ∨
      ∃ loaded, db.runs.get? loaded.id = some loaded ∧ loaded.status.isTerminal = false ∧
        db' = db.setRun loaded (RunService.cancelled loaded) := by
  cases h with
  | nothing => exact Or.inl ⟨rfl, rfl⟩
  | createSuite => exact Or.inl ⟨rfl, rfl⟩
  | updateSuite => exact Or.inl ⟨rfl, rfl⟩
  | addCase => exact Or.inl ⟨rfl, rfl⟩
  | review => exact Or.inl ⟨rfl, rfl⟩
  | @cancelRun runId loaded hrow hlive =>
    have hget := (RunService.cancellable_ok hrow).1
    rw [← Table.get?_key hget] at hget
    exact Or.inr ⟨loaded, hget, hlive, rfl⟩
  | @deleteSuite suite suiteId hget hallowed =>
    have hstored := ((Table.get?_filter_eq_some_iff db.runs _ r run).mp hrun).1
    exact Or.inl ⟨hrun.trans hstored.symm, resultsOf_deleteSuite hrun⟩

omit [Unicode] in
/-- One more delivery, of another run. -/
theorem telling_handOver (hs : Telling r s) {handed : Option Uuid} (h : ∀ x ∈ handed, x ≠ r) :
    Telling r (Platform.answer s s.world.db handed) := by
  cases handed with
  | none =>
    have hsame : Platform.answer s s.world.db none = s := by simp [Platform.answer]
    rw [hsame]
    exact hs
  | some x =>
    refine hs.frame ?_ hs.cancels ?_ rfl rfl rfl
    · intro j e he
      rcases getElem?_snoc_cases he with hold | rfl
      · exact hs.deliveries j e hold
      · trivial
    · intro j e he hr
      rcases getElem?_snoc_cases he with hold | rfl
      · exact hold
      · exact absurd hr (h x rfl)

omit [Unicode] in
/-- A run as `trigger_run` leaves it behind. -/
theorem fresh_telling {db : Database} {handed : Option Uuid} (hs : Coherent s)
    (hr : s.world.db.runs.next ≤ r) (hresults : db.resultsOf r = s.world.db.resultsOf r)
    (halone : ∀ (i j : ℕ) d d', (Platform.answer s db handed).deliveries[i]? = some d →
      (Platform.answer s db handed).deliveries[j]? = some d' → d.runId = r → d'.runId = r → i = j) :
    Telling r (Platform.answer s db handed) := by
  obtain ⟨hother, hnone, hsilent⟩ := hs.fresh hr
  have hcreated : ∀ (j : ℕ) d, (Platform.answer s db handed).deliveries[j]? = some d →
      s.deliveries[j]? = some d ∨ d.phase = .created := by
    intro j d hd
    cases handed with
    | none => exact Or.inl (by simpa [Platform.answer] using hd)
    | some x =>
      rcases getElem?_snoc_cases hd with hold | rfl
      · exact Or.inl hold
      · exact Or.inr rfl
  refine ⟨?_, hs.cancels, halone, ?_, ?_, ?_, ?_⟩
  · intro j d hd
    rcases hcreated j d hd with hold | hphase
    · exact hs.deliveries j d hold
    · rw [hphase]
      trivial
  · intro j d hd hrun run hmem
    rcases hcreated j d hd with hold | hphase
    · exact absurd hrun (hother d (List.mem_of_getElem? hold))
    · rw [hphase] at hmem
      cases hmem
  · intro j d _ _ _
    change db.resultsOf r = [] ∧ ∀ e ∈ eventsOn r s.world, _
    rw [hresults, hnone, hsilent]
    exact ⟨rfl, by simp⟩
  · change ((db.resultsOf r).map placeOf).Nodup
    rw [hresults, hnone]
    exact List.nodup_nil
  · change Told db r (eventsOn r s.world)
    rw [hsilent]
    exact told_of_open (by simp)

omit [Unicode] in
/-- The run handed over is new. -/
theorem called_fresh {db : Database} {userId : Uuid} {commits : Bool} {request : Request}
    {called : Option Uuid} (h : Effect s.world.db userId commits request db called) :
    ∀ x ∈ called, s.world.db.runs.next ≤ x ∧ x < db.runs.next := by
  cases h with
  | nothing => simp
  | write => simp
  | createRun =>
    intro x hx
    obtain rfl := Option.some.inj hx
    exact ⟨Nat.le_refl _, Nat.lt_succ_self _⟩

omit [Unicode] in
theorem answer_telling {db : Database} {userId : Uuid} {commits : Bool} {request : Request}
    {called handed : Option Uuid} (hs : Coherent s)
    (h : Effect s.world.db userId commits request db called) (hhanded : ∀ x ∈ handed, x ∈ called)
    (honce : ((Platform.answer s db handed).deliveries.map Delivery.runId).Nodup)
    {run : TestRun} (hrun : db.runs.get? r = some run) : Telling r (Platform.answer s db handed) := by
  by_cases hr : r < s.world.db.runs.next
  · obtain ⟨run₀, hrun₀⟩ := (effect_evolves h).runs.stored hr hrun
    have hs₀ := hs.telling r run₀ hrun₀
    have hdb : Telling r { s with world := { s.world with db := db } } := by
      cases h with
      | nothing => exact hs₀
      | write huser hcommits h =>
        rcases write_run h hrun with ⟨hrow, hresults⟩ | ⟨loaded, hget, hlive, rfl⟩
        · exact hs₀.frame hs.deliveries hs.cancels (fun _ _ he _ => he) hrow hresults rfl
        · exact hs₀.cancelled hget hlive
      | createRun =>
        refine hs₀.frame hs.deliveries hs.cancels (fun _ _ he _ => he) ?_ rfl rfl
        exact Table.get?_insert_of_ne _ _ (fun _ => RunService.id_newRun ..) (Nat.ne_of_lt hr)
    refine telling_handOver hdb ?_
    intro x hx heq
    have hle := (called_fresh h x (hhanded x hx)).1
    rw [heq] at hle
    exact absurd hr (Nat.not_lt.mpr hle)
  · have hle : s.world.db.runs.next ≤ r := Nat.not_lt.mp hr
    refine fresh_telling hs hle ?_ (alone_of_nodup honce)
    cases h with
    | nothing => rfl
    | createRun => rfl
    | write huser hcommits h =>
      rcases write_run h hrun with ⟨-, hresults⟩ | ⟨loaded, -, -, rfl⟩
      · exact hresults
      · rfl

omit [Unicode] in
theorem answer_coherent {db : Database} {userId : Uuid} {commits : Bool} {request : Request}
    {called handed : Option Uuid} (hs : Coherent s)
    (h : Effect s.world.db userId commits request db called)
    (hhanded : ∀ x ∈ handed, x ∈ called) : Coherent (Platform.answer s db handed) := by
  have hle := (effect_evolves h).runs.next_le
  have honce : ((Platform.answer s db handed).deliveries.map Delivery.runId).Nodup := by
    cases handed with
    | none =>
      simp only [Platform.answer, Option.toList_none, List.map_nil, List.append_nil]
      exact hs.once
    | some x =>
      have hnew := (called_fresh h x (hhanded x rfl)).1
      simp only [Platform.answer, Option.toList_some, List.map_cons, List.map_nil, List.map_append]
      refine List.nodup_append.mpr ⟨hs.once, List.nodup_singleton _, ?_⟩
      intro a ha b hb
      obtain ⟨d, hd, rfl⟩ := List.mem_map.mp ha
      rw [List.mem_singleton.mp hb]
      exact (hs.fresh hnew).1 d hd
  refine ⟨effect_intact h hs.intact, ?_, ?_, ?_, hs.cancels, honce, ?_⟩
  · intro d hd
    rcases List.mem_append.mp hd with hold | hnew
    · exact Nat.lt_of_lt_of_le (hs.known d hold) hle
    · obtain ⟨x, hx, rfl⟩ := List.mem_map.mp hnew
      exact (called_fresh h x (hhanded x (Option.mem_toList.mp hx))).2
  · intro p hp
    exact Nat.lt_of_lt_of_le (hs.spoken p hp) hle
  · intro j d hd
    rcases List.mem_append.mp (List.mem_of_getElem? hd) with hold | hnew
    · obtain ⟨k, hk⟩ := List.getElem?_of_mem hold
      exact hs.deliveries k d hk
    · obtain ⟨x, hx, rfl⟩ := List.mem_map.mp hnew
      trivial
  · intro r run hrun
    exact answer_telling hs h hhanded honce hrun

/-! ## Workers and cancel requests -/

omit [Unicode] in
theorem map_runId_set {i : ℕ} {d d' : Delivery} (hd : s.deliveries[i]? = some d)
    (hsame : d'.runId = d.runId) :
    (s.deliveries.set i d').map Delivery.runId = s.deliveries.map Delivery.runId := by
  rw [List.map_set, hsame]
  apply List.ext_getElem?
  intro j
  rw [List.getElem?_set]
  split
  · next hij =>
    subst hij
    rw [List.getElem?_map, hd]
    have hlt := (List.getElem?_eq_some_iff.mp hd).1
    simp [hlt]
  · rfl

/-- A step of the pool stores no run under another key. -/
theorem pool_coherent {l : PoolLabel} (hs : Coherent s) (h : ofNext Pool.next s l t)
    (hl : ∀ suites cases, l ≠ .edit suites cases) : Coherent t := by
  have htelling : t.world.db.runs.next = s.world.db.runs.next →
      s.world.db.runs.Evolves t.world.db.runs →
      ∀ r run, t.world.db.runs.get? r = some run → Telling r t := by
    intro hnext hevolves r run hrun
    have hlt := Table.get?_lt hrun
    rw [hnext] at hlt
    obtain ⟨run₀, hrun₀⟩ := hevolves.stored hlt hrun
    exact telling_step (hs.telling r run₀ hrun₀) h
  cases l with
  | deliver i env =>
    obtain ⟨d, w, phase, hd, access, step, rfl⟩ := deliver_next h
    have hof := hs.deliveries i d hd
    have hknown := hs.known d (List.mem_of_getElem? hd)
    have hnext : w.db.runs.next = s.world.db.runs.next := by
      rcases phase_writes step hof with heq | ⟨_, _, _, _, _, -, -, -, -, heq⟩
      · rw [heq]
      · rw [heq]
        rfl
    refine ⟨phase_intact step hof hs.intact, ?_, ?_, ?_, hs.cancels, ?_,
      htelling hnext (phase_evolves step hof).runs⟩
    · intro e he
      rw [hnext]
      rcases List.mem_or_eq_of_mem_set he with hold | rfl
      · exact hs.known e hold
      · exact hknown
    · obtain ⟨events, hpub⟩ := access_published hof access
      intro p hp
      rw [hpub] at hp
      rw [hnext]
      rcases List.mem_append.mp hp with hold | hnew
      · exact hs.spoken p hold
      · obtain ⟨e, -, rfl⟩ := List.mem_map.mp hnew
        exact hknown
    · exact forall_set (Q := fun d : Delivery => d.phase.Of d.runId) hs.deliveries
        (phase_of step hof)
    · simp only [map_runId_set hd]
      exact hs.once
  | cancel i commits =>
    cases pool_step h with
    | @cancel _ _ c db phase hc step =>
      have hof := hs.cancels i c hc
      have hnext : db.runs.next = s.world.db.runs.next := by
        generalize c.phase = old at step
        cases step with
        | refuse => rfl
        | load => rfl
        | commit => rfl
        | fail => rfl
        | done => rfl
      refine ⟨cancel_intact step hs.intact, ?_, ?_, hs.deliveries, ?_, hs.once,
        htelling hnext (cancel_evolves step).runs⟩
      · simp only [hnext]
        exact hs.known
      · simp only [hnext]
        exact hs.spoken
      · exact forall_set (Q := fun c : CancelSession => c.phase.Of c.runId) hs.cancels
          (cancel_of step)
  | edit suites cases => exact absurd rfl (hl suites cases)

theorem coherent_step {l : PlatformLabel} (hs : Coherent s) (h : ofNext Platform.next s l t) :
    Coherent t := by
  cases l with
  | request userId request commits enqueues =>
    obtain rfl := Option.some.inj h
    refine answer_coherent hs (handle_effect s.world.db userId commits enqueues request) ?_
    intro x hx
    cases enqueues with
    | true => exact hx
    | false => cases hx
  | register hashPassword data =>
    simp only [ofNext, Platform.next] at h
    split at h
    · obtain rfl := Option.some.inj h
      exact hs
    · next user db hregister =>
      obtain rfl := Option.some.inj h
      obtain ⟨-, -, rfl⟩ := register_ok hregister
      have hnone : Platform.answer s (AuthService.insertUser hashPassword s.world.db data) none =
          { s with world := { s.world with
            db := AuthService.insertUser hashPassword s.world.db data } } := by
        simp [Platform.answer]
      rw [hnone]
      refine ⟨insertUser_intact hs.intact hashPassword data, hs.known, hs.spoken, hs.deliveries,
        hs.cancels, hs.once, ?_⟩
      intro r run hrun
      exact (hs.telling r run hrun).frame hs.deliveries hs.cancels (fun _ _ he _ => he) rfl rfl rfl
  | deliver i env => exact pool_coherent (l := .deliver i env) hs h fun _ _ => PoolLabel.noConfusion
  | arrive userId runId =>
    simp only [ofNext, Platform.next] at h
    split at h
    · obtain rfl := Option.some.inj h
      exact hs
    · next user huser =>
      obtain rfl := Option.some.inj h
      have hcancels : ∀ (j : ℕ) c, (s.cancels ++ [{ runId := runId, actor := user }])[j]? = some c →
          c.phase.Of c.runId := by
        intro j c hc
        rcases getElem?_snoc_cases hc with hold | rfl
        · exact hs.cancels j c hold
        · trivial
      refine ⟨hs.intact, hs.known, hs.spoken, hs.deliveries, hcancels, hs.once, ?_⟩
      intro r run hrun
      exact (hs.telling r run hrun).frame hs.deliveries hcancels (fun _ _ he _ => he) rfl rfl rfl
  | cancel i commits =>
    exact pool_coherent (l := .cancel i commits) hs h fun _ _ => PoolLabel.noConfusion

omit [Unicode] in
/-- An id that an account has. -/
def IsAccount (db : Database) (userId : Uuid) : Prop := ∃ user, db.users.get? userId = some user

/-- No account is ever deleted, so owners and creators stay accounts. -/
theorem named_step {l : PlatformLabel} (hnamed : NamedIn (IsAccount s.world.db) s.world.db)
    (h : ofNext Platform.next s l t) : NamedIn (IsAccount t.world.db) t.world.db := by
  cases l with
  | request userId request commits enqueues =>
    obtain rfl := Option.some.inj h
    have heffect := handle_effect s.world.db userId commits enqueues request
    have hafter := effect_named heffect hnamed fun user huser => ⟨user, engineer_ok huser⟩
    refine hafter.imp fun id ⟨user, hget⟩ => ⟨user, ?_⟩
    rw [← hget]
    exact congrArg (fun users => users.get? id) (effect_users heffect)
  | register hashPassword data =>
    simp only [ofNext, Platform.next] at h
    split at h
    · obtain rfl := Option.some.inj h
      exact hnamed
    · next user db hregister =>
      obtain rfl := Option.some.inj h
      obtain ⟨-, -, rfl⟩ := register_ok hregister
      have hrows : NamedIn (IsAccount s.world.db)
          (AuthService.insertUser hashPassword s.world.db data) :=
        ⟨hnamed.owners, hnamed.creators⟩
      refine hrows.imp ?_
      rintro id ⟨user, hget⟩
      exact ⟨user, (Table.get?_insert_of_ne _ _ (fun _ => AuthService.id_newUser ..)
        (Nat.ne_of_lt (Table.get?_lt hget))).trans hget⟩
  | deliver i env =>
    obtain ⟨d, w, phase, hd, -, step, rfl⟩ := deliver_next (i := i) h
    refine (phase_named step hnamed).imp fun id ⟨user, hget⟩ => ⟨user, ?_⟩
    rw [phase_users step]
    exact hget
  | arrive userId runId =>
    simp only [ofNext, Platform.next] at h
    split at h
    · obtain rfl := Option.some.inj h
      exact hnamed
    · obtain rfl := Option.some.inj h
      exact hnamed
  | cancel i commits =>
    cases pool_step (l := .cancel i commits) h with
    | @cancel _ _ c db phase hc step =>
      generalize c.phase = old at step
      cases step with
      | refuse => exact hnamed
      | load => exact hnamed
      | fail => exact hnamed
      | done => exact hnamed
      | commit => exact hnamed.setRun _ _

theorem keysHold_run {ls : List PlatformLabel} (h : Platform.Initial s)
    (hrun : Run (ofNext Platform.next) s ls t) : t.world.db.KeysHold := by
  have hstart : NamedIn (IsAccount s.world.db) s.world.db := by
    refine ⟨fun suite hsuite => h.intact.suites suite hsuite, ?_⟩
    rw [h.runs]
    exact fun run hrun => absurd hrun List.not_mem_nil
  have hnamed : NamedIn (IsAccount t.world.db) t.world.db :=
    hrun.invariant (I := fun s => NamedIn (IsAccount s.world.db) s.world.db)
      (fun _ _ _ hs hstep => named_step hs hstep) hstart
  have ht : Coherent t :=
    hrun.invariant (fun _ _ _ hs hstep => coherent_step hs hstep) (initial_coherent h)
  exact (Database.keysHold_iff _).mpr ⟨ht.intact, hnamed.creators⟩

theorem platform_evolves {l : PlatformLabel} (hs : Coherent s) (h : ofNext Platform.next s l t) :
    s.world.db.Evolves t.world.db := by
  cases l with
  | request userId request commits enqueues =>
    obtain rfl := Option.some.inj h
    exact effect_evolves (handle_effect s.world.db userId commits enqueues request)
  | register hashPassword data =>
    simp only [ofNext, Platform.next] at h
    split at h
    · obtain rfl := Option.some.inj h
      exact .refl _
    · next user db hregister =>
      obtain rfl := Option.some.inj h
      exact register_evolves hregister
  | deliver i env =>
    obtain ⟨d, w, phase, hd, -, step, rfl⟩ := deliver_next (i := i) h
    exact phase_evolves step (hs.deliveries i d hd)
  | arrive userId runId =>
    simp only [ofNext, Platform.next] at h
    split at h
    · obtain rfl := Option.some.inj h
      exact .refl _
    · obtain rfl := Option.some.inj h
      exact .refl _
  | cancel i commits =>
    cases pool_step (l := .cancel i commits) h with
    | cancel hc step => exact cancel_evolves step

omit [Unicode] in
/-- A deletion answered by 204 is the deletion of a stored suite. -/
theorem handle_deleteSuite {db : Database} {userId suiteId : Uuid} {commits enqueues : Bool}
    (h : (handle db userId commits enqueues (.write (.deleteSuite suiteId))).2.2 = .noContent) :
    ∃ suite, db.suites.get? suiteId = some suite ∧
      (handle db userId commits enqueues (.write (.deleteSuite suiteId))).1 =
        db.deleteSuite suiteId := by
  unfold handle at h ⊢
  cases huser : engineer db userId with
  | error e =>
    rw [huser] at h
    cases h
  | ok user =>
    simp only [huser] at h ⊢
    cases hwrite : handleWrite db user (.deleteSuite suiteId) with
    | error e =>
      rw [hwrite] at h
      cases h
    | ok result =>
      simp only [hwrite] at h ⊢
      cases commits with
      | false => cases h
      | true =>
        cases hdelete : SuiteService.delete db suiteId user with
        | error e =>
          simp only [handleWrite, hdelete] at hwrite
          cases hwrite
        | ok db' =>
          simp only [handleWrite, hdelete] at hwrite
          obtain rfl := Except.ok.inj hwrite
          obtain ⟨suite, hmutable, rfl⟩ := SuiteService.delete_ok hdelete
          have hget := SuiteService.mutable_get hmutable
          refine ⟨suite, hget, ?_⟩
          rw [← Table.get?_key hget]
          rfl

/-- Once a deletion is answered by 204, whatever went with the suite is gone for good: in every
later state no row has its key and none refers to it, also if a worker was in the middle of a run
of the suite. -/
theorem deleted_for_good {s₀ s' : Pool} {ls ms : List PlatformLabel} {userId suiteId : Uuid}
    {commits enqueues : Bool} (h : Platform.Initial s₀)
    (hbefore : Run (ofNext Platform.next) s₀ ls s)
    (hdelete : ofNext Platform.next s
      (.request userId (.write (.deleteSuite suiteId)) commits enqueues) s')
    (hanswer : (handle s.world.db userId commits enqueues
      (.write (.deleteSuite suiteId))).2.2 = .noContent)
    (hafter : Run (ofNext Platform.next) s' ms t) :
    ∃ suite, s.world.db.suites.get? suiteId = some suite ∧
      ∀ row ∈ s.world.db.rows, s.world.db.GoesWith suite row → ∀ k ∈ row.key,
        ∀ row' ∈ t.world.db.rows, row'.key ≠ some k ∧ k ∉ row'.foreignKeys := by
  have hs : Coherent s :=
    hbefore.invariant (fun _ _ _ hs hstep => coherent_step hs hstep) (initial_coherent h)
  have ht : Coherent t ∧ s'.world.db.Evolves t.world.db := by
    refine hafter.invariant (I := fun u => Coherent u ∧ s'.world.db.Evolves u.world.db) ?_
      ⟨coherent_step hs hdelete, .refl _⟩
    rintro u l v ⟨hu, hevolves⟩ hstep
    exact ⟨coherent_step hu hstep, hevolves.trans (platform_evolves hu hstep)⟩
  have hkeys : t.world.db.KeysHold :=
    keysHold_run h (hbefore.trans ((Run.single hdelete).trans hafter))
  obtain ⟨suite, hget, hdb⟩ := handle_deleteSuite hanswer
  obtain rfl := Option.some.inj hdelete
  refine ⟨suite, hget, ?_⟩
  intro row hrow hgoes k hkey row' hrow'
  have hgone : t.world.db.Gone k := by
    apply ht.2.gone
    show (handle s.world.db userId commits enqueues (.write (.deleteSuite suiteId))).1.Gone k
    rw [hdb]
    exact Database.gone_deleteSuite hget hrow hgoes hkey
  exact ⟨hgone.key_ne row' hrow', hgone.unreferenced hkeys row' hrow'⟩

end

end

/-! ## A suite deleted in the middle of a run -/

def emptyPlatform : Pool :=
  { world := { db := Database.empty }
    deliveries := []
    cancels := [] }

theorem emptyPlatform_initial : Platform.Initial emptyPlatform :=
  ⟨Database.empty_intact, rfl, rfl, rfl, rfl⟩

/-- Ada creates a suite and triggers a run, and a worker comes as far as its steps. -/
def adaBegins : List PlatformLabel :=
  [.register id { email := "Ada@example.com", fullName := "Ada", password := "engine no. 1" },
    .request 0 (.write (.createSuite
      { name := "Login", slug := "login", targetBaseUrl := "https://example.com"
        cases := [{ name := "Sign in", steps := loginSteps }] })) true true,
    .request 0 (.triggerRun 0 {} none) true true,
    .deliver 0 calm, .deliver 0 calm, .deliver 0 calm]

def adaDeletes : PlatformLabel := .request 0 (.write (.deleteSuite 0)) true true

/-- The worker goes on to the end: it tells of its steps, and nothing is stored. -/
theorem ada_deleted_for_good :
    ∃ s s' t, Run (ofNext (@Platform.next asciiUnicode)) emptyPlatform adaBegins s ∧
      @Platform.next asciiUnicode s adaDeletes = some s' ∧
      Run (ofNext (@Platform.next asciiUnicode)) s' [.deliver 0 calm] t ∧
      s.world.db.rows.map Row.entity = [.user, .testSuite, .testCase, .testRun] ∧
      t.world.db.rows.map Row.entity = [.user] ∧
      (eventsOn 0 t.world).map isFinished = [false, false, false] ∧
      ∀ row ∈ s.world.db.rows, row.entity = .testRun → ∀ k ∈ row.key,
        ∀ row' ∈ t.world.db.rows, row'.key ≠ some k ∧ k ∉ row'.foreignKeys := by
  let _ : Unicode := asciiUnicode
  have hrun : ∃ s s' t, Run (ofNext Platform.next) emptyPlatform adaBegins s ∧
      Platform.next s adaDeletes = some s' ∧ Run (ofNext Platform.next) s' [.deliver 0 calm] t ∧
      (handle s.world.db 0 true true (.write (.deleteSuite 0))).2.2 = .noContent ∧
      s.world.db.rows.map Row.entity = [.user, .testSuite, .testCase, .testRun] ∧
      t.world.db.rows.map Row.entity = [.user] ∧
      (eventsOn 0 t.world).map isFinished = [false, false, false] ∧
      s.world.db.runs.rows.map TestRun.suiteId = [0] ∧
      s.world.db.suites.rows.map TestSuite.id = [0] :=
    ⟨_, _, _, exec_run rfl, rfl, exec_run rfl, rfl, by decide, by decide, by decide, by decide,
      by decide⟩
  obtain ⟨s, s', t, hbefore, hdelete, hafter, hanswer, hrows, hleft, htold, hruns, hsuites⟩ := hrun
  refine ⟨s, s', t, hbefore, hdelete, hafter, hrows, hleft, htold, ?_⟩
  obtain ⟨suite, hget, hgone⟩ :=
    deleted_for_good emptyPlatform_initial hbefore hdelete hanswer hafter
  intro row hrow hentity
  refine hgone row hrow ?_
  cases row with
  | testRun run =>
    have hmem := List.mem_map_of_mem (f := TestRun.suiteId) (Database.mem_rows_testRun.mp hrow)
    rw [hruns] at hmem
    exact (List.mem_singleton.mp hmem).trans (Table.get?_key hget).symm
  | user user => cases hentity
  | testSuite suite => cases hentity
  | testCase case => cases hentity
  | stepResult result => cases hentity
  | healingEvent event => cases hentity

end AegisPlatform.Api
