import AegisPlatform.Workers.Pool
import AegisPlatform.Workers.Rows

/-! # Terminal statuses under interleaving

A commit that ends a run is harmless if no other session sits on the run as it was read before:
that session would write its own status over the end. `Undivided` restricts the pool to such
commits; under it a terminal status, once committed, stays. Without it, both directions fail.
-/

namespace AegisPlatform.Workers
open Foundations Domain Core Db Services
set_option autoImplicit false
set_option maxHeartbeats 250000

def statusOf (db : Database) (runId : Uuid) : Option RunStatus :=
  (db.runs.get? runId).map TestRun.status

theorem statusOf_setRun {db : Database} {loaded row : TestRun} (current : TestRun)
    (h : db.runs.get? loaded.id = some row) :
    statusOf (db.setRun loaded current) loaded.id =
      some (written loaded.status current.status row.status) := by
  unfold statusOf
  rw [Database.get?_setRun _ h]
  rfl

/-! ## What a session holds -/

/-- The session read the run as live and has a commit to make. -/
def ExecutorPhase.pending : ExecutorPhase → Bool
  | .loaded _ | .suiteLoaded .. | .running .. => true
  | .created | .exited _ => false

def CancelPhase.pending : CancelPhase → Bool
  | .read _ => true
  | .created | .exited => false

/-- The row and the cases a delivery of `runId` can hold in its phase. -/
def ExecutorPhase.Of (runId : Uuid) : ExecutorPhase → Prop
  | .created | .exited _ => True
  | .loaded run => run.id = runId ∧ run.status = .queued
  | .suiteLoaded run found => run.id = runId ∧ run.status = .queued ∧
      ∀ suite cases, found = some (suite, cases) → (cases.map TestCase.id).Nodup
  | .running run cases => run.id = runId ∧ run.status = .running ∧ (cases.map TestCase.id).Nodup

def CancelPhase.Of (runId : Uuid) : CancelPhase → Prop
  | .created | .exited => True
  | .read run => run.id = runId ∧ run.status.isTerminal = false

section
variable [Unicode] {env : Env} {runId r : Uuid} {db db' : Database}
  {phase phase' : ExecutorPhase} {cphase cphase' : CancelPhase} {commits : Bool}

theorem phase_of (h : PhaseStep env runId db phase db' phase') (hof : phase.Of runId) :
    phase'.Of runId := by
  cases h with
  | skip => trivial
  | load row queued => exact ⟨Table.get?_key row, queued⟩
  | find run =>
    refine ⟨hof.1, hof.2, ?_⟩
    intro suite cases hfound
    rw [(Database.getWithCases_some hfound).2]
    exact Database.casesOf_nodup db run.suiteId
  | miss => trivial
  | missFails => trivial
  | begin suite cases hrow => exact ⟨hof.1, rfl, hof.2.2 suite cases rfl⟩
  | beginRaises => trivial
  | beginFails => trivial
  | close => trivial
  | closeFails => trivial
  | done => trivial

/-- An access writes nothing, or rows of its own run together with the row of the run. -/
theorem phase_writes (h : PhaseStep env runId db phase db' phase') (hof : phase.Of runId) :
    db' = db ∨ ∃ loaded current row results events, loaded.id = runId ∧
      db.runs.get? loaded.id = some row ∧ (∀ r ∈ results, r.runId = runId) ∧
      (∀ e ∈ events, e.runId = runId) ∧
        db' = (db.insertStepRows results events).setRun loaded current := by
  have hset : ∀ loaded current row : TestRun, loaded.id = runId →
      db.runs.get? loaded.id = some row →
      ∃ loaded' current' row' results events, loaded'.id = runId ∧
        db.runs.get? loaded'.id = some row' ∧ (∀ r ∈ results, r.runId = runId) ∧
        (∀ e ∈ events, e.runId = runId) ∧
          db.setRun loaded current = (db.insertStepRows results events).setRun loaded' current' := by
    intro loaded current row hid hrow
    refine ⟨loaded, current, row, [], [], hid, hrow, by simp, by simp, ?_⟩
    rw [Database.insertStepRows_nil]
  cases h with
  | skip => exact Or.inl rfl
  | load => exact Or.inl rfl
  | find => exact Or.inl rfl
  | miss hrow => exact Or.inr (hset _ _ _ hof.1 hrow)
  | missFails => exact Or.inl rfl
  | begin suite cases hrow => exact Or.inr (hset _ _ _ hof.1 hrow)
  | beginRaises suite cases raised hrow => exact Or.inr (hset _ _ _ hof.1 hrow)
  | beginFails => exact Or.inl rfl
  | @close run row cases raised hrow commits =>
    obtain ⟨hresults, hevents⟩ := progress_runId env runId cases
    exact Or.inr ⟨run, _, row, _, _, hof.1, hrow, hresults, hevents, rfl⟩
  | closeFails => exact Or.inl rfl
  | done => exact Or.inl rfl

/-- A delivery touches no run but its own. -/
theorem phase_others (h : PhaseStep env runId db phase db' phase') (hof : phase.Of runId)
    (hr : r ≠ runId) : db'.runs.get? r = db.runs.get? r := by
  rcases phase_writes h hof with rfl | ⟨loaded, current, -, results, events, rfl, -, -, -, rfl⟩
  · rfl
  · exact Database.get?_setRun_of_ne hr

omit [Unicode] in
theorem cancel_of (h : CancelStep runId commits db cphase db' cphase') :
    cphase'.Of runId := by
  cases h with
  | refuse => trivial
  | load row live => exact ⟨Table.get?_key row, live⟩
  | commit => trivial
  | fail => trivial
  | done => trivial

omit [Unicode] in
theorem cancel_others (h : CancelStep runId commits db cphase db' cphase')
    (hof : cphase.Of runId) (hr : r ≠ runId) : db'.runs.get? r = db.runs.get? r := by
  cases h with
  | refuse => rfl
  | load => rfl
  | commit hrow hcommits => exact Database.get?_setRun_of_ne (by rw [hof.1]; exact hr)
  | fail => rfl
  | done => rfl

/-! ## What a commit does to the status -/

/-- The next commit of the worker ends the run. -/
def ExecutorPhase.ends (env : Env) : ExecutorPhase → Prop
  | .suiteLoaded _ none => env.faults.firstCommit = none
  | .running _ cases => Finishes env cases
  | .created | .loaded _ | .suiteLoaded _ (some _) | .exited _ => False

/-- A closing commit stores a terminal status, or leaves the status alone after a cancellation. -/
theorem close_status {run row : TestRun} {cases : List TestCase}
    (hrow : db.runs.get? run.id = some row) (hrunning : run.status = .running)
    (hcommits : Commits env (executeCases env runId cases {})) (results : List StepResult)
    (events : List HealingEvent) :
    statusOf ((db.insertStepRows results events).setRun run
        (closeRun env run (executeCases env runId cases {}))) run.id = statusOf db run.id ∨
      Finishes env cases ∧ ∃ σ, statusOf ((db.insertStepRows results events).setRun run
        (closeRun env run (executeCases env runId cases {}))) run.id = some σ ∧
          σ.isTerminal = true := by
  have hstored : (db.insertStepRows results events).runs.get? run.id = some row := hrow
  have hterminal := isTerminal_closeRun env hrunning (executeCases env runId cases {})
  have hstatus := statusOf_setRun (closeRun env run (executeCases env runId cases {})) hstored
  rw [hstatus, hrunning]
  by_cases hend : (closeRun env run (executeCases env runId cases {})).status.isTerminal = true
  · right
    have hne : (closeRun env run (executeCases env runId cases {})).status ≠ .running := by
      intro hsame
      rw [hsame] at hend
      cases hend
    refine ⟨(finishes_iff runId).mpr ⟨hcommits, hterminal.mp hend⟩, _, rfl, ?_⟩
    unfold written
    rw [if_neg hne]
    exact hend
  · left
    have hsame : (closeRun env run (executeCases env runId cases {})).status = .running := by
      cases hout : executeCases env runId cases {} with
      | ok p =>
        rw [hout] at hend hterminal
        exact absurd (hterminal.mpr (by simp)) hend
      | error s =>
        obtain ⟨p, raised, usable⟩ := s
        rw [hout] at hend hterminal
        cases raised with
        | exception message => exact absurd (hterminal.mpr (by simp)) hend
        | cancelled => exact hrunning
    have hbefore : statusOf db run.id = some row.status := by
      unfold statusOf
      rw [hrow]
      rfl
    rw [hsame, written_same, hbefore]

theorem phase_status (h : PhaseStep env runId db phase db' phase') (hof : phase.Of runId) :
    statusOf db' runId = statusOf db runId ∨
      phase.pending = true ∧ (statusOf db' runId = some .running ∨
        phase.ends env ∧ phase'.pending = false ∧
          ∃ σ, statusOf db' runId = some σ ∧ σ.isTerminal = true) := by
  -- a row loaded as QUEUED is overwritten whatever it holds by then
  have hwritten : ∀ {loaded row : TestRun} (current : TestRun),
      db.runs.get? loaded.id = some row → loaded.id = runId → loaded.status = .queued →
        current.status ≠ .queued →
          statusOf (db.setRun loaded current) runId = some current.status := by
    intro loaded row current hrow hid hqueued hne
    have hstatus := statusOf_setRun current hrow
    rw [hid, hqueued] at hstatus
    rw [hstatus]
    unfold written
    rw [if_neg hne]
  cases h with
  | skip => exact Or.inl rfl
  | load => exact Or.inl rfl
  | find => exact Or.inl rfl
  | @miss run row hrow hcommit =>
    have hstatus := hwritten (missing run) hrow hof.1 hof.2.1 (by simp [missing])
    exact Or.inr ⟨rfl, Or.inr ⟨hcommit, rfl, .error, hstatus, rfl⟩⟩
  | missFails => exact Or.inl rfl
  | @begin run row suite cases hrow =>
    have hstatus := hwritten (begun env run) hrow hof.1 hof.2.1 (by simp)
    exact Or.inr ⟨rfl, Or.inl hstatus⟩
  | @beginRaises run row suite cases raised hrow =>
    have hstatus := hwritten (begun env run) hrow hof.1 hof.2.1 (by simp)
    exact Or.inr ⟨rfl, Or.inl hstatus⟩
  | beginFails => exact Or.inl rfl
  | close cases raised hrow hcommits =>
    obtain ⟨rfl, hrunning, -⟩ := hof
    rcases close_status hrow hrunning hcommits _ _ with hsame | ⟨hfinishes, hend⟩
    · exact Or.inl hsame
    · exact Or.inr ⟨rfl, Or.inr ⟨hfinishes, rfl, hend⟩⟩
  | closeFails => exact Or.inl rfl
  | done => exact Or.inl rfl

/-- A delivery becomes pending only by reading the run as QUEUED. -/
theorem phase_pending (h : PhaseStep env runId db phase db' phase')
    (hpending : phase'.pending = true) :
    phase.pending = true ∨ statusOf db runId = some .queued := by
  cases h with
  | load row queued =>
    right
    unfold statusOf
    rw [row, Option.map_some, queued]
  | find => exact Or.inl rfl
  | begin => exact Or.inl rfl
  | skip => cases hpending
  | miss => cases hpending
  | missFails => cases hpending
  | beginRaises => cases hpending
  | beginFails => cases hpending
  | close => cases hpending
  | closeFails => cases hpending
  | done => cases hpending

omit [Unicode] in
theorem cancel_status (h : CancelStep runId commits db cphase db' cphase')
    (hof : cphase.Of runId) :
    statusOf db' runId = statusOf db runId ∨
      cphase.pending = true ∧ commits = true ∧ statusOf db' runId = some .cancelled := by
  cases h with
  | refuse => exact Or.inl rfl
  | load => exact Or.inl rfl
  | @commit run row hrow hcommits =>
    obtain ⟨hid, hlive⟩ := hof
    have hstatus := statusOf_setRun (RunService.cancelled run) hrow
    have hne : RunStatus.cancelled ≠ run.status := by
      intro hsame
      rw [← hsame] at hlive
      cases hlive
    rw [hid] at hstatus
    refine Or.inr ⟨rfl, hcommits, ?_⟩
    rw [hstatus]
    unfold written RunService.cancelled
    rw [if_neg hne]
  | fail => exact Or.inl rfl
  | done => exact Or.inl rfl

omit [Unicode] in
/-- A cancel request becomes pending only by reading the run as live. -/
theorem cancel_pending (h : CancelStep runId commits db cphase db' cphase')
    (hpending : cphase'.pending = true) :
    ∃ σ, statusOf db runId = some σ ∧ σ.isTerminal = false := by
  cases h with
  | @load run row live =>
    refine ⟨run.status, ?_, live⟩
    unfold statusOf
    rw [row]
    rfl
  | refuse => cases hpending
  | commit => cases hpending
  | fail => cases hpending
  | done => cases hpending

/-! ## Commits that end a run alone -/

/-- A commit that ends run `r` comes while no other session holds `r` as live with a commit still
to make. Cancel requests may overlap with each other. -/
def Undivided (r : Uuid) (s : Pool) : PoolLabel → Prop
  | .deliver i env => ∀ d, s.deliveries[i]? = some d → d.runId = r → d.phase.ends env →
      (∀ (j : ℕ) d', j ≠ i → s.deliveries[j]? = some d' → d'.runId = r → d'.phase.pending = false) ∧
        ∀ (j : ℕ) c, s.cancels[j]? = some c → c.runId = r → c.phase.pending = false
  | .cancel i commits => ∀ c, s.cancels[i]? = some c → c.runId = r → c.phase.pending = true →
      commits = true →
        ∀ (j : ℕ) d, s.deliveries[j]? = some d → d.runId = r → d.phase.pending = false
  | .edit .. => True

omit [Unicode] in
/-- Once run `r` is over, no session is left that could write another status. -/
structure Settling (r : Uuid) (s : Pool) : Prop where
  deliveries : ∀ (i : ℕ) d, s.deliveries[i]? = some d → d.phase.Of d.runId
  cancels : ∀ (i : ℕ) c, s.cancels[i]? = some c → c.phase.Of c.runId
  terminal : ∀ σ, statusOf s.world.db r = some σ → σ.isTerminal = true →
    (∀ (i : ℕ) d, s.deliveries[i]? = some d → d.runId = r → d.phase.pending = false) ∧
      ∀ (i : ℕ) c, s.cancels[i]? = some c → c.runId = r → c.phase.pending = true → σ = .cancelled

omit [Unicode] in
theorem initial_settling (r : Uuid) {s : Pool} (h : s.Initial) : Settling r s := by
  refine ⟨?_, ?_, ?_⟩
  · intro i d hd
    rw [(h.deliveries d (List.mem_of_getElem? hd)).1]
    trivial
  · intro i c hc
    rw [h.cancels c (List.mem_of_getElem? hc)]
    trivial
  · intro σ _ _
    constructor
    · intro i d hd _
      rw [(h.deliveries d (List.mem_of_getElem? hd)).1]
      rfl
    · intro i c hc _ hpending
      rw [h.cancels c (List.mem_of_getElem? hc)] at hpending
      cases hpending

section
variable {s : Pool} {i : ℕ} {σ : RunStatus}

/-- A delivery of run `r` cannot become pending once the run is over. -/
theorem not_pending {d : Delivery} (hs : Settling r s) (hd : s.deliveries[i]? = some d)
    (hr : d.runId = r) (step : PhaseStep env d.runId s.world.db d.phase db' phase')
    (hσ : statusOf s.world.db r = some σ) (hterminal : σ.isTerminal = true) :
    phase'.pending = false := by
  by_contra hpending
  rcases phase_pending step (by simpa using hpending) with hp | hq
  · rw [(hs.terminal σ hσ hterminal).1 i d hd hr] at hp
    cases hp
  · rw [hr, hσ] at hq
    obtain rfl := Option.some.inj hq
    cases hterminal

theorem settling_deliver {d : Delivery} {w : World} (hs : Settling r s)
    (hd : s.deliveries[i]? = some d)
    (step : PhaseStep env d.runId s.world.db d.phase w.db phase')
    (hguard : Undivided r s (.deliver i env)) :
    Settling r { s with
      world := w
      deliveries := s.deliveries.set i
        { d with phase := phase', executed := d.executed || phase'.isRunning } } where
  deliveries := by
    have hof := hs.deliveries i d hd
    exact forall_set (Q := fun d : Delivery => d.phase.Of d.runId) hs.deliveries (phase_of step hof)
  cancels := hs.cancels
  terminal := by
    intro σ hσ hterminal
    have hof := hs.deliveries i d hd
    by_cases hr : d.runId = r
    · have hquiet := phase_status step hof
      rw [hr] at hquiet
      rcases hquiet with hsame | ⟨-, hrunning | ⟨hends, hleft, -⟩⟩
      · rw [hsame] at hσ
        obtain ⟨hd0, hc0⟩ := hs.terminal σ hσ hterminal
        refine ⟨forall_set (Q := fun d : Delivery => d.runId = r → d.phase.pending = false) hd0 ?_,
          hc0⟩
        exact fun _ => not_pending hs hd hr step hσ hterminal
      · rw [hrunning] at hσ
        obtain rfl := Option.some.inj hσ
        cases hterminal
      · -- the commit that ended the run came alone
        obtain ⟨hd0, hc0⟩ := hguard d hd hr hends
        constructor
        · intro j d' hd' hr'
          rcases getElem?_set_cases hd' with ⟨-, rfl⟩ | ⟨hj, hold⟩
          · exact hleft
          · exact hd0 j d' hj hold hr'
        · intro j c hc hr' hpending
          rw [hc0 j c hc hr'] at hpending
          cases hpending
    · have hsame : statusOf w.db r = statusOf s.world.db r := by
        unfold statusOf
        rw [phase_others step hof (Ne.symm hr)]
      rw [hsame] at hσ
      obtain ⟨hd0, hc0⟩ := hs.terminal σ hσ hterminal
      refine ⟨forall_set (Q := fun d : Delivery => d.runId = r → d.phase.pending = false) hd0 ?_, hc0⟩
      exact fun hr' => absurd hr' hr

omit [Unicode] in
theorem cancel_not_pending (step : CancelStep r commits s.world.db cphase db' cphase')
    (hσ : statusOf s.world.db r = some σ) (hterminal : σ.isTerminal = true) :
    cphase'.pending = false := by
  by_contra hpending
  obtain ⟨σ', hσ', hlive⟩ := cancel_pending step (by simpa using hpending)
  rw [hσ] at hσ'
  obtain rfl := Option.some.inj hσ'
  rw [hterminal] at hlive
  cases hlive

theorem settling_cancel {c : CancelSession} (hs : Settling r s) (hc : s.cancels[i]? = some c)
    (step : CancelStep c.runId commits s.world.db c.phase db' cphase')
    (hguard : Undivided r s (.cancel i commits)) :
    Settling r { s with
      world := { s.world with db := db' }
      cancels := s.cancels.set i { c with phase := cphase' } } where
  deliveries := hs.deliveries
  cancels := forall_set (Q := fun c : CancelSession => c.phase.Of c.runId) hs.cancels (cancel_of step)
  terminal := by
    intro σ hσ hterminal
    have hof := hs.cancels i c hc
    by_cases hr : c.runId = r
    · subst hr
      rcases cancel_status step hof with hsame | ⟨hp, hcommits, hcancelled⟩
      · rw [hsame] at hσ
        obtain ⟨hd0, hc0⟩ := hs.terminal σ hσ hterminal
        refine ⟨hd0, forall_set (Q := fun c' : CancelSession => c'.runId = c.runId →
          c'.phase.pending = true → σ = .cancelled) hc0 ?_⟩
        intro _ hpending
        rw [cancel_not_pending step hσ hterminal] at hpending
        cases hpending
      · rw [hcancelled] at hσ
        obtain rfl := Option.some.inj hσ
        exact ⟨hguard c hc rfl hp hcommits, fun _ _ _ _ _ => rfl⟩
    · have hsame : statusOf db' r = statusOf s.world.db r := by
        unfold statusOf
        rw [cancel_others step hof (Ne.symm hr)]
      rw [hsame] at hσ
      obtain ⟨hd0, hc0⟩ := hs.terminal σ hσ hterminal
      refine ⟨hd0, forall_set (Q := fun c' : CancelSession => c'.runId = r →
        c'.phase.pending = true → σ = .cancelled) hc0 ?_⟩
      exact fun hr' => absurd hr' hr

end

theorem settling_step {s t : Pool} {l : PoolLabel} (hs : Settling r s)
    (h : Under (Undivided r) (ofNext Pool.next) s l t) : Settling r t := by
  obtain ⟨hguard, hnext⟩ := h
  cases pool_step hnext with
  | deliver hd step => exact settling_deliver hs hd step hguard
  | cancel hc step => exact settling_cancel hs hc step hguard
  | edit suites cases => exact ⟨hs.deliveries, hs.cancels, hs.terminal⟩

/-- With no pending session left, a step keeps the terminal status. -/
theorem status_step {s t : Pool} {l : PoolLabel} {σ : RunStatus} (hs : Settling r s)
    (hσ : statusOf s.world.db r = some σ) (hterminal : σ.isTerminal = true)
    (h : ofNext Pool.next s l t) : statusOf t.world.db r = some σ := by
  obtain ⟨hd0, hc0⟩ := hs.terminal σ hσ hterminal
  cases pool_step h with
  | @deliver i env d w phase hd step =>
    have hof := hs.deliveries i d hd
    by_cases hr : d.runId = r
    · subst hr
      rcases phase_status step hof with hsame | ⟨hp, -⟩
      · rw [← hσ]
        exact hsame
      · rw [hd0 i d hd rfl] at hp
        cases hp
    · rw [← hσ]
      unfold statusOf
      rw [phase_others step hof (Ne.symm hr)]
  | @cancel i commits c db phase hc step =>
    have hof := hs.cancels i c hc
    by_cases hr : c.runId = r
    · subst hr
      rcases cancel_status step hof with hsame | ⟨hp, -, hcancelled⟩
      · rw [← hσ]
        exact hsame
      · rw [hc0 i c hc rfl hp]
        exact hcancelled
    · rw [← hσ]
      unfold statusOf
      rw [cancel_others step hof (Ne.symm hr)]
  | edit suites cases => exact hσ

/-- In every run of the pool whose ending commits are undivided, a committed terminal status is
never changed. -/
theorem terminal_stable {s₀ s t : Pool} {ls ms : List PoolLabel} (h₀ : s₀.Initial)
    (hs : Run (Under (Undivided r) (ofNext Pool.next)) s₀ ls s)
    (ht : Run (Under (Undivided r) (ofNext Pool.next)) s ms t) {σ : RunStatus}
    (hσ : statusOf s.world.db r = some σ) (hterminal : σ.isTerminal = true) :
    statusOf t.world.db r = some σ := by
  have hinv : Settling r s :=
    hs.invariant (fun _ _ _ hi hstep => settling_step hi hstep) (initial_settling r h₀)
  exact ht.stable (I := Settling r) (Q := fun s => statusOf s.world.db r = some σ)
    (fun _ _ _ hi hstep => settling_step hi hstep)
    (fun _ _ _ hi hq hstep => status_step hi hq hterminal hstep.2) hinv hσ

end

/-! ## One delivery and one cancel request -/

def loginPool : Pool :=
  { world := loginWorld
    deliveries := [{ runId := 0 }]
    cancels := [{ runId := 0, actor := ada }] }

theorem loginPool_initial : loginPool.Initial where
  deliveries := by
    intro d hd
    rw [List.mem_singleton.mp hd]
    exact ⟨rfl, rfl⟩
  cancels := by
    intro c hc
    rw [List.mem_singleton.mp hc]

def calm : Env := calmEnv fun _ _ => .ok giveUp

/-- A cancel committed between the worker's read and its commit of RUNNING is overwritten, and a
cancel that read RUNNING overwrites the end of the run. -/
theorem terminal_overwritten :
    loginPool.Initial ∧
      (∃ s t, Run (ofNext (@Pool.next asciiUnicode)) loginPool
          [.deliver 0 calm, .cancel 0 true, .cancel 0 true] s ∧
        Run (ofNext (@Pool.next asciiUnicode)) s [.deliver 0 calm, .deliver 0 calm] t ∧
        statusOf s.world.db 0 = some .cancelled ∧ statusOf t.world.db 0 = some .running) ∧
      ∃ s t, Run (ofNext (@Pool.next asciiUnicode)) loginPool
          [.deliver 0 calm, .deliver 0 calm, .deliver 0 calm, .cancel 0 true, .deliver 0 calm] s ∧
        Run (ofNext (@Pool.next asciiUnicode)) s [.cancel 0 true] t ∧
        statusOf s.world.db 0 = some .failed ∧ statusOf t.world.db 0 = some .cancelled := by
  refine ⟨loginPool_initial, ?_, ?_⟩
  · exact ⟨_, _, exec_run rfl, exec_run rfl, by decide, by decide⟩
  · exact ⟨_, _, exec_run rfl, exec_run rfl, by decide, by decide⟩

def cancelRead : Pool :=
  { loginPool with cancels := [{ runId := 0, actor := ada, phase := .read loginRun }] }

def cancelCommitted : Pool :=
  { loginPool with
    world := { loginWorld with db := loginDb.setRun loginRun (RunService.cancelled loginRun) }
    cancels := [{ runId := 0, actor := ada, phase := .exited }] }

def deliverySkipped : Pool :=
  { cancelCommitted with deliveries := [{ runId := 0, phase := .exited none }] }

theorem cancelled_stays :
    Run (Under (@Undivided asciiUnicode 0) (ofNext (@Pool.next asciiUnicode))) loginPool
        [.cancel 0 true, .cancel 0 true] cancelCommitted ∧
      Run (Under (@Undivided asciiUnicode 0) (ofNext (@Pool.next asciiUnicode))) cancelCommitted
        [.deliver 0 calm] deliverySkipped ∧
      statusOf cancelCommitted.world.db 0 = some .cancelled ∧
      statusOf deliverySkipped.world.db 0 = some .cancelled := by
  let _ : Unicode := asciiUnicode
  have hguard : ∀ s : Pool, s.deliveries = [{ runId := 0 }] → Undivided 0 s (.cancel 0 true) := by
    intro s hs _ _ _ _ _ j d hd _
    rw [hs] at hd
    rw [List.mem_singleton.mp (List.mem_of_getElem? hd)]
    rfl
  have hread : Under (Undivided 0) (ofNext Pool.next) loginPool (.cancel 0 true) cancelRead :=
    ⟨hguard _ rfl, rfl⟩
  have hcommit : Under (Undivided 0) (ofNext Pool.next) cancelRead (.cancel 0 true)
      cancelCommitted := ⟨hguard _ rfl, rfl⟩
  have hskip : Under (Undivided 0) (ofNext Pool.next) cancelCommitted (.deliver 0 calm)
      deliverySkipped := by
    refine ⟨?_, rfl⟩
    intro d hd _ hends
    obtain rfl := Option.some.inj hd
    exact hends.elim
  have h₁ := (Run.single hread).trans (Run.single hcommit)
  have h₂ := Run.single hskip
  exact ⟨h₁, h₂, rfl, terminal_stable loginPool_initial h₁ h₂ rfl rfl⟩

end AegisPlatform.Workers
