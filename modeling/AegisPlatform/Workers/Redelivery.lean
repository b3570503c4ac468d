import AegisPlatform.Workers.Terminal

/-! # Deliveries of one run

`execute_run` lets a delivery through that reads the run as QUEUED, and marks the run RUNNING only
in a later commit. `OneReader` excludes the reads that fall in between. Under it at most one
delivery of a run goes on to its steps, however many there are and however they interleave with
cancel requests, and no step of the run is recorded twice.
-/

namespace AegisPlatform.Workers
open Foundations Domain Core Db Services
set_option autoImplicit false
set_option maxHeartbeats 250000

/-- The delivery read the run as QUEUED and has not come to its first commit. -/
def ExecutorPhase.early : ExecutorPhase → Bool
  | .loaded _ | .suiteLoaded .. => true
  | .created | .running .. | .exited _ => false

def ExecutorPhase.isCreated : ExecutorPhase → Bool
  | .created => true
  | .loaded _ | .suiteLoaded .. | .running .. | .exited _ => false

/-- No delivery reads run `r` as QUEUED while another one has its first commit ahead. -/
def OneReader (r : Uuid) (s : Pool) : PoolLabel → Prop
  | .deliver i _ => ∀ d ∈ s.deliveries[i]?, d.runId = r → d.phase.isCreated = true →
      statusOf s.world.db r = some .queued →
        ∀ d' ∈ s.deliveries, d'.runId = r → d'.phase.early = false
  | .cancel .. | .edit .. => True

instance (r : Uuid) (s : Pool) (l : PoolLabel) : Decidable (OneReader r s l) :=
  match l with
  | .deliver i _ => inferInstanceAs (Decidable (∀ d ∈ s.deliveries[i]?, d.runId = r →
      d.phase.isCreated = true → statusOf s.world.db r = some .queued →
        ∀ d' ∈ s.deliveries, d'.runId = r → d'.phase.early = false))
  | .cancel .. => isTrue trivial
  | .edit .. => isTrue trivial

/-- The delivery is through the check on QUEUED, or was and executed the steps. -/
def Delivery.owns (r : Uuid) (d : Delivery) : Prop :=
  d.runId = r ∧ (d.phase.early = true ∨ d.executed = true)

/-! ## What an access leaves alone -/

section
variable [Unicode] {env : Env} {runId r : Uuid} {db db' : Database}
  {phase phase' : ExecutorPhase} {cphase cphase' : CancelPhase} {commits : Bool}

/-- A run that is not QUEUED never becomes QUEUED again. -/
theorem phase_not_queued (h : PhaseStep env runId db phase db' phase') (hof : phase.Of runId)
    (hq : statusOf db' runId = some .queued) : statusOf db runId = some .queued := by
  rcases phase_status h hof with hsame | ⟨-, hrunning | ⟨-, -, σ, hσ, hterminal⟩⟩
  · rw [← hsame]
    exact hq
  · rw [hrunning] at hq
    cases hq
  · rw [hσ] at hq
    obtain rfl := Option.some.inj hq
    cases hterminal

omit [Unicode] in
theorem cancel_not_queued (h : CancelStep runId commits db cphase db' cphase')
    (hof : cphase.Of runId) (hq : statusOf db' runId = some .queued) :
    statusOf db runId = some .queued := by
  rcases cancel_status h hof with hsame | ⟨-, -, hcancelled⟩
  · rw [← hsame]
    exact hq
  · rw [hcancelled] at hq
    cases hq

/-- An access makes no run QUEUED, its own or another. -/
theorem phase_queued (h : PhaseStep env runId db phase db' phase') (hof : phase.Of runId)
    (hq : statusOf db' r = some .queued) : statusOf db r = some .queued := by
  by_cases hr : r = runId
  · subst hr
    exact phase_not_queued h hof hq
  · unfold statusOf at hq ⊢
    rwa [phase_others h hof hr] at hq

omit [Unicode] in
theorem cancel_queued (h : CancelStep runId commits db cphase db' cphase')
    (hof : cphase.Of runId) (hq : statusOf db' r = some .queued) :
    statusOf db r = some .queued := by
  by_cases hr : r = runId
  · subst hr
    exact cancel_not_queued h hof hq
  · unfold statusOf at hq ⊢
    rwa [cancel_others h hof hr] at hq

/-- A delivery is at its steps only once the run is stored as RUNNING. -/
theorem phase_running (h : PhaseStep env runId db phase db' phase') (hof : phase.Of runId)
    (hrunning : phase'.isRunning = true) :
    phase.early = true ∧ statusOf db' runId = some .running := by
  cases h with
  | @begin run row suite cases hrow =>
    obtain ⟨hid, hqueued, -⟩ := hof
    have hstatus := statusOf_setRun (begun env run) hrow
    rw [hid, hqueued] at hstatus
    exact ⟨rfl, hstatus⟩
  | skip => cases hrunning
  | load => cases hrunning
  | find => cases hrunning
  | miss => cases hrunning
  | missFails => cases hrunning
  | beginRaises => cases hrunning
  | beginFails => cases hrunning
  | close => cases hrunning
  | closeFails => cases hrunning
  | done => cases hrunning

/-- A delivery comes to be early only by reading the run as QUEUED. -/
theorem phase_early (h : PhaseStep env runId db phase db' phase')
    (hearly : phase'.early = true) :
    phase.early = true ∨ phase.isCreated = true ∧ statusOf db runId = some .queued := by
  cases h with
  | load row queued =>
    right
    unfold statusOf
    rw [row, Option.map_some, queued]
    exact ⟨rfl, rfl⟩
  | find => exact Or.inl rfl
  | skip => cases hearly
  | miss => cases hearly
  | missFails => cases hearly
  | begin => cases hearly
  | beginRaises => cases hearly
  | beginFails => cases hearly
  | close => cases hearly
  | closeFails => cases hearly
  | done => cases hearly

/-- Only the closing commit adds rows: those of its own run, in distinct places. -/
theorem phase_results (h : PhaseStep env runId db phase db' phase') (hof : phase.Of runId) :
    db'.resultsOf r = db.resultsOf r ∨
      runId = r ∧ phase.isRunning = true ∧ phase'.pending = false ∧
        ∃ rs, db'.resultsOf r = db.resultsOf r ++ rs ∧ (rs.map placeOf).Nodup := by
  cases h with
  | skip => exact Or.inl rfl
  | load => exact Or.inl rfl
  | find => exact Or.inl rfl
  | miss => exact Or.inl rfl
  | missFails => exact Or.inl rfl
  | begin => exact Or.inl rfl
  | beginRaises => exact Or.inl rfl
  | beginFails => exact Or.inl rfl
  | closeFails => exact Or.inl rfl
  | done => exact Or.inl rfl
  | @close run row cases raised hrow hcommits =>
    obtain ⟨hid, hrunning, hnodup⟩ := hof
    obtain ⟨rs, hrs, hpre, hrows, -⟩ := (executeCases_continues env runId cases {}).rows
    change _ = [] ++ rs at hrs
    have hresults : ∀ j, (((db.insertStepRows
        (Except.progress (executeCases env runId cases {})).results
        (Except.progress (executeCases env runId cases {})).healingEvents).setRun run
          (closeRun env run (executeCases env runId cases {}))).resultsOf j) =
        db.resultsOf j ++ rs.filter fun row => row.runId == j := by
      intro j
      unfold Database.resultsOf Database.setRun Database.insertStepRows
      rw [hrs, List.nil_append, List.filter_append]
    by_cases hr : runId = r
    · refine Or.inr ⟨hr, rfl, rfl, rs.filter fun row => row.runId == r, hresults r, ?_⟩
      have hplaces : (rs.map placeOf).Nodup := (places_nodup _ hnodup).sublist hpre.sublist
      exact hplaces.sublist (List.filter_sublist.map placeOf)
    · left
      have hnone : (rs.filter fun row => row.runId == r) = [] := by
        rw [List.filter_eq_nil_iff]
        intro row hrow'
        rw [(hrows row hrow').1]
        simpa using hr
      rw [hresults r, hnone, List.append_nil]

omit [Unicode] in
theorem cancel_results (h : CancelStep runId commits db cphase db' cphase') :
    db'.resultsOf r = db.resultsOf r := by
  cases h with
  | refuse => rfl
  | load => rfl
  | commit => rfl
  | fail => rfl
  | done => rfl

/-! ## At most one owner -/

omit [Unicode] in
/-- At most one delivery owns run `r`, and as long as it is open no row of it is committed. -/
structure Owned (r : Uuid) (s : Pool) : Prop where
  deliveries : ∀ (i : ℕ) d, s.deliveries[i]? = some d →
    d.phase.Of d.runId ∧ (d.phase.isRunning = true → d.executed = true)
  cancels : ∀ (i : ℕ) c, s.cancels[i]? = some c → c.phase.Of c.runId
  unique : ∀ (i j : ℕ) d d', s.deliveries[i]? = some d → s.deliveries[j]? = some d' →
    d.owns r → d'.owns r → i = j
  executed : ∀ (i : ℕ) d, s.deliveries[i]? = some d → d.runId = r → d.executed = true →
    statusOf s.world.db r ≠ some .queued
  untouched : (statusOf s.world.db r = some .queued ∨
      ∃ (i : ℕ), ∃ d, s.deliveries[i]? = some d ∧ d.runId = r ∧ d.phase.pending = true) →
    s.world.db.resultsOf r = []
  nodup : ((s.world.db.resultsOf r).map placeOf).Nodup

omit [Unicode] in
theorem owns_of_pending {d : Delivery} (hr : d.runId = r) (hpending : d.phase.pending = true)
    (hrun : d.phase.isRunning = true → d.executed = true) : d.owns r := by
  refine ⟨hr, ?_⟩
  cases hphase : d.phase with
  | created =>
    rw [hphase] at hpending
    cases hpending
  | loaded run => exact Or.inl rfl
  | suiteLoaded run found => exact Or.inl rfl
  | running run cases =>
    right
    apply hrun
    rw [hphase]
    rfl
  | exited raised =>
    rw [hphase] at hpending
    cases hpending

/-- The owner after a step of `d` was the owner before, or has just read the run as QUEUED. -/
theorem owns_step {d : Delivery} (h : PhaseStep env d.runId db d.phase db' phase')
    (hof : d.phase.Of d.runId)
    (howns : Delivery.owns r
      { d with phase := phase', executed := d.executed || phase'.isRunning }) :
    d.owns r ∨ d.runId = r ∧ d.phase.isCreated = true ∧ statusOf db r = some .queued := by
  obtain ⟨hr, hearly | hexecuted⟩ := howns
  · rcases phase_early h hearly with hold | ⟨hcreated, hq⟩
    · exact Or.inl ⟨hr, Or.inl hold⟩
    · exact Or.inr ⟨hr, hcreated, hr ▸ hq⟩
  · left
    rcases Bool.or_eq_true _ _ ▸ hexecuted with hold | hnew
    · exact ⟨hr, Or.inr hold⟩
    · exact ⟨hr, Or.inl (phase_running h hof hnew).1⟩

omit [Unicode] in
/-- While the run is QUEUED and nobody is early, nobody owns it. -/
theorem Owned.no_owner {s : Pool} (hs : Owned r s) (hq : statusOf s.world.db r = some .queued)
    (hearly : ∀ d' ∈ s.deliveries, d'.runId = r → d'.phase.early = false)
    {j : ℕ} {d : Delivery} (hd : s.deliveries[j]? = some d) : ¬ d.owns r := by
  rintro ⟨hr, he | he⟩
  · rw [hearly d (List.mem_of_getElem? hd) hr] at he
    cases he
  · exact hs.executed j d hd hr he hq

omit [Unicode] in
theorem initial_owned {s : Pool} (h : s.Initial)
    (hfresh : statusOf s.world.db r = some .queued → s.world.db.resultsOf r = [])
    (hnodup : ((s.world.db.resultsOf r).map placeOf).Nodup) : Owned r s := by
  have hcreated : ∀ (i : ℕ) d, s.deliveries[i]? = some d →
      d.phase = .created ∧ d.executed = false :=
    fun i d hd => h.deliveries d (List.mem_of_getElem? hd)
  refine ⟨?_, ?_, ?_, ?_, ?_, hnodup⟩
  · intro i d hd
    rw [(hcreated i d hd).1]
    exact ⟨trivial, fun hrun => by cases hrun⟩
  · intro i c hc
    rw [h.cancels c (List.mem_of_getElem? hc)]
    trivial
  · rintro i j d d' hd - ⟨-, he | he⟩ -
    · rw [(hcreated i d hd).1] at he
      cases he
    · rw [(hcreated i d hd).2] at he
      cases he
  · intro i d hd _ he
    rw [(hcreated i d hd).2] at he
    cases he
  · rintro (hq | ⟨i, d, hd, -, hp⟩)
    · exact hfresh hq
    · rw [(hcreated i d hd).1] at hp
      cases hp

section
variable {s : Pool} {i : ℕ} {d : Delivery} {w : World} {phase : ExecutorPhase}

/-- While the run is open after a step, it was open before, and the step added no rows. -/
theorem owned_untouched (hs : Owned r s) (hd : s.deliveries[i]? = some d)
    (step : PhaseStep env d.runId s.world.db d.phase w.db phase)
    (hopen : statusOf w.db r = some .queued ∨
      ∃ (j : ℕ), ∃ e, (s.deliveries.set i
        { d with phase := phase, executed := d.executed || phase.isRunning })[j]? = some e ∧
          e.runId = r ∧ e.phase.pending = true) : w.db.resultsOf r = [] := by
  obtain ⟨hof, hrun⟩ := hs.deliveries i d hd
  have hbefore : s.world.db.resultsOf r = [] := by
    apply hs.untouched
    rcases hopen with hq | ⟨j, e, he, hr, hp⟩
    · exact Or.inl (phase_queued step hof hq)
    · rcases getElem?_set_cases he with ⟨-, rfl⟩ | ⟨-, hsame⟩
      · rcases phase_pending step hp with hpending | hq
        · exact Or.inr ⟨i, d, hd, hr, hpending⟩
        · exact Or.inl (hr ▸ hq)
      · exact Or.inr ⟨j, e, hsame, hr, hp⟩
  rcases phase_results (r := r) step hof with hsame | ⟨hr, hrunning, hleft, -⟩
  · rw [hsame, hbefore]
  · -- the closing delivery owned the run, so it is neither QUEUED nor held by another
    exfalso
    have hexecuted := hrun hrunning
    rcases hopen with hq | ⟨j, e, he, hre, hp⟩
    · exact hs.executed i d hd hr hexecuted (phase_queued step hof hq)
    · rcases getElem?_set_cases he with ⟨-, rfl⟩ | ⟨hj, hsame⟩
      · rw [hleft] at hp
        cases hp
      · have hother := owns_of_pending hre hp (hs.deliveries j e hsame).2
        exact hj (hs.unique j i e d hsame hd hother ⟨hr, Or.inr hexecuted⟩)

theorem owned_deliver (hs : Owned r s) (hd : s.deliveries[i]? = some d)
    (step : PhaseStep env d.runId s.world.db d.phase w.db phase)
    (hguard : OneReader r s (.deliver i env)) :
    Owned r { s with
      world := w
      deliveries := s.deliveries.set i
        { d with phase := phase, executed := d.executed || phase.isRunning } } := by
  obtain ⟨hof, hrun⟩ := hs.deliveries i d hd
  refine ⟨?_, hs.cancels, ?_, ?_, owned_untouched hs hd step, ?_⟩
  · refine forall_set (Q := fun d : Delivery =>
      d.phase.Of d.runId ∧ (d.phase.isRunning = true → d.executed = true)) hs.deliveries ?_
    exact ⟨phase_of step hof, fun hrunning => by simp [hrunning]⟩
  · refine unique_set hs.unique hd ?_
    intro ho
    rcases owns_step step hof ho with hbefore | ⟨hr, hcreated, hq⟩
    · exact Or.inl hbefore
    · exact Or.inr fun n e he => hs.no_owner hq (hguard d hd hr hcreated hq) he
  · intro j e he hr hexecuted hq
    have hq₀ := phase_queued step hof hq
    rcases getElem?_set_cases he with ⟨-, rfl⟩ | ⟨-, hsame⟩
    · rcases Bool.or_eq_true _ _ ▸ hexecuted with hold | hnew
      · exact hs.executed i d hd hr hold hq₀
      · have hrunning := (phase_running step hof hnew).2
        simp only at hr hq
        rw [hr, hq] at hrunning
        cases hrunning
    · exact hs.executed j e hsame hr hexecuted hq₀
  · rcases phase_results (r := r) step hof with hsame | ⟨hr, hrunning, -, rs, hrs, hnodup⟩
    · simp only [hsame]
      exact hs.nodup
    · have hpending : d.phase.pending = true := by
        cases hphase : d.phase with
        | running run cases => rfl
        | created =>
          rw [hphase] at hrunning
          cases hrunning
        | loaded run => rfl
        | suiteLoaded run found => rfl
        | exited raised =>
          rw [hphase] at hrunning
          cases hrunning
      have hempty := hs.untouched (Or.inr ⟨i, d, hd, hr, hpending⟩)
      simp only [hrs, hempty, List.nil_append]
      exact hnodup

end

theorem owned_step {s t : Pool} {l : PoolLabel} (hs : Owned r s)
    (h : Under (OneReader r) (ofNext Pool.next) s l t) : Owned r t := by
  obtain ⟨hguard, hnext⟩ := h
  cases pool_step hnext with
  | deliver hd step => exact owned_deliver hs hd step hguard
  | @cancel i commits c db phase hc step =>
    have hof := hs.cancels i c hc
    have hqueued : statusOf db r = some .queued → statusOf s.world.db r = some .queued :=
      cancel_queued step hof
    have hresults : db.resultsOf r = s.world.db.resultsOf r := cancel_results step
    refine ⟨hs.deliveries, ?_, hs.unique, ?_, ?_, ?_⟩
    · exact forall_set (Q := fun c : CancelSession => c.phase.Of c.runId) hs.cancels (cancel_of step)
    · intro j e he hr hexecuted hq
      exact hs.executed j e he hr hexecuted (hqueued hq)
    · rintro (hq | hpending)
      · simp only [hresults]
        exact hs.untouched (Or.inl (hqueued hq))
      · simp only [hresults]
        exact hs.untouched (Or.inr hpending)
    · simp only [hresults]
      exact hs.nodup
  | edit suites cases =>
    exact ⟨hs.deliveries, hs.cancels, hs.unique, hs.executed, hs.untouched, hs.nodup⟩

/-- In every run of the pool whose deliveries read the run one at a time, at most one of them goes
on to the steps, and every step is recorded at most once. -/
theorem executed_once {s t : Pool} {ls : List PoolLabel} (h : s.Initial)
    (hfresh : statusOf s.world.db r = some .queued → s.world.db.resultsOf r = [])
    (hnodup : ((s.world.db.resultsOf r).map placeOf).Nodup)
    (hrun : Run (Under (OneReader r) (ofNext Pool.next)) s ls t) :
    (∀ (i j : ℕ) d d', t.deliveries[i]? = some d → t.deliveries[j]? = some d' →
        d.runId = r → d'.runId = r → d.executed = true → d'.executed = true → i = j) ∧
      ((t.world.db.resultsOf r).map placeOf).Nodup := by
  have hinv : Owned r t :=
    hrun.invariant (fun _ _ _ hi hstep => owned_step hi hstep) (initial_owned h hfresh hnodup)
  refine ⟨?_, hinv.nodup⟩
  intro i j d d' hd hd' hr hr' he he'
  exact hinv.unique i j d d' hd hd' ⟨hr, Or.inr he⟩ ⟨hr', Or.inr he'⟩

end

/-! ## Two deliveries of one run -/

def loginTwice : Pool :=
  { world := loginWorld
    deliveries := [{ runId := 0 }, { runId := 0 }]
    cancels := [] }

theorem loginTwice_initial : loginTwice.Initial where
  deliveries := by
    intro d hd
    simp only [loginTwice, List.mem_cons, List.not_mem_nil, or_false, or_self] at hd
    subst hd
    exact ⟨rfl, rfl⟩
  cancels := by
    intro c hc
    cases hc

/-- Both deliveries read QUEUED before either commits RUNNING: every step is recorded twice. -/
theorem executed_twice :
    loginTwice.Initial ∧ loginTwice.world.db.resultsOf 0 = [] ∧
      ∃ t, Run (ofNext (@Pool.next asciiUnicode)) loginTwice
          [.deliver 0 calm, .deliver 1 calm, .deliver 0 calm, .deliver 0 calm, .deliver 1 calm,
            .deliver 1 calm, .deliver 0 calm, .deliver 1 calm] t ∧
        t.deliveries.map Delivery.executed = [true, true] ∧
        (t.world.db.resultsOf 0).map placeOf =
          [(some 0, 0), (some 0, 1), (some 0, 0), (some 0, 1)] :=
  ⟨loginTwice_initial, rfl, _, exec_run rfl, by decide, by decide⟩

theorem login_executed_once :
    ∃ t, Run (Under (OneReader 0) (ofNext (@Pool.next asciiUnicode))) loginTwice
        [.deliver 0 calm, .deliver 0 calm, .deliver 0 calm, .deliver 1 calm, .deliver 0 calm] t ∧
      (∀ (i j : ℕ) d d', t.deliveries[i]? = some d → t.deliveries[j]? = some d' →
        d.runId = 0 → d'.runId = 0 → d.executed = true → d'.executed = true → i = j) ∧
      ((t.world.db.resultsOf 0).map placeOf).Nodup := by
  let _ : Unicode := asciiUnicode
  have hrun : ∃ t, Run (Under (OneReader 0) (ofNext Pool.next)) loginTwice
      [.deliver 0 calm, .deliver 0 calm, .deliver 0 calm, .deliver 1 calm, .deliver 0 calm] t :=
    ⟨_, restrict_run rfl⟩
  obtain ⟨t, ht⟩ := hrun
  exact ⟨t, ht, executed_once loginTwice_initial (fun _ => rfl) List.Pairwise.nil ht⟩

end AegisPlatform.Workers
