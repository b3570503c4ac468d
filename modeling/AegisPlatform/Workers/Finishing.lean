import AegisPlatform.Workers.News
import AegisPlatform.Workers.Records

/-! # Deliveries that end

A worker needs four accesses to the database for a run: the run, its suite, the commit of RUNNING and
the closing one. Each phase in between allows the row two statuses, and a worker that leaves without
a fault leaves a terminal one.
-/

namespace AegisPlatform.Workers
open Foundations Domain Db
set_option autoImplicit false
set_option maxHeartbeats 250000

/-! ## What the row of a run may hold -/

/-- The accesses a worker has yet to make. -/
def ExecutorPhase.left : ExecutorPhase → ℕ
  | .created => 4
  | .loaded _ => 3
  | .suiteLoaded .. => 2
  | .running .. => 1
  | .exited _ => 0

/-- The status the run may be stored with. A cancel request may come at any time; of a worker that
raised nothing is said. -/
def ExecutorPhase.Allows : ExecutorPhase → RunStatus → Prop
  | .created, status | .loaded _, status | .suiteLoaded .., status =>
    status = .queued ∨ status = .cancelled
  | .running .., status => status = .running ∨ status = .cancelled
  | .exited none, status => status.isTerminal = true
  | .exited (some _), _ => True

theorem allows_cancelled (phase : ExecutorPhase) : phase.Allows .cancelled := by
  cases phase with
  | created => exact Or.inr rfl
  | loaded run => exact Or.inr rfl
  | suiteLoaded run found => exact Or.inr rfl
  | running run cases => exact Or.inr rfl
  | exited raised =>
    cases raised with
    | none => rfl
    | some raised => trivial

/-- No commit and no flush fails, and the task is not cancelled. -/
structure Untroubled (env : Env) : Prop where
  accepting : Accepting env
  heal : ∀ k call, env.heal k call ≠ .error .cancelled
  publishFinished : env.faults.publishFinished ≠ some .cancelled

section
variable [Unicode] {env : Env} {runId : Uuid} {run : TestRun} {cases : List TestCase} {w : World}
  {phase : ExecutorPhase}

theorem left_next (env : Env) (runId : Uuid) (w : World) (phase : ExecutorPhase) :
    (phase.next env runId w).2.left ≤ phase.left - 1 := by
  have step := next_step env runId w phase
  generalize (phase.next env runId w).1.db = db at step
  generalize (phase.next env runId w).2 = phase' at step ⊢
  cases step with
  | skip => exact Nat.zero_le _
  | load => exact Nat.le_refl _
  | find => exact Nat.le_refl _
  | miss => exact Nat.zero_le _
  | missFails => exact Nat.zero_le _
  | begin => exact Nat.le_refl _
  | beginRaises => exact Nat.zero_le _
  | beginFails => exact Nat.zero_le _
  | close => exact Nat.zero_le _
  | closeFails => exact Nat.zero_le _
  | done => exact Nat.le_refl _

theorem next_exited (h : phase.isExited = true) : (phase.next env runId w).2 = phase := by
  cases phase with
  | exited raised => rfl
  | created => cases h
  | loaded run => cases h
  | suiteLoaded run found => cases h
  | running run cases => cases h

/-! ## The closing half -/

omit [Unicode] in
/-- A closing half that raises nothing has stored a terminal status. -/
theorem finishRun_terminal {outcome : Except Stopped Progress} (hrunning : run.status = .running)
    (hquiet : (finishRun env run outcome w).2 = none) {row' : TestRun}
    (hrow' : (finishRun env run outcome w).1.db.runs.get? run.id = some row') :
    row'.status.isTerminal = true := by
  by_cases hc : Commits env outcome
  · cases hrow : w.db.runs.get? run.id with
    | none =>
      unfold finishRun Database.updateRun Database.insertStepRows at hquiet
      simp only [hc.usable, Bool.false_eq_true, if_false, hc.lastCommit, hrow] at hquiet
      cases hquiet
    | some row =>
      have hstored : (w.db.insertStepRows (Except.progress outcome).results
          (Except.progress outcome).healingEvents).runs.get? run.id = some row := hrow
      have hpending : pending outcome = none := by
        unfold finishRun at hquiet
        simp only [hc.usable, Bool.false_eq_true, if_false, hc.lastCommit,
          Database.updateRun_of_get? _ hstored] at hquiet
        split at hquiet
        · cases hquiet
        · exact hquiet
        · exact hquiet
      have hterminal : (closeRun env run outcome).status.isTerminal = true := by
        refine (isTerminal_closeRun env hrunning outcome).mpr ?_
        rintro ⟨p, raised, usable⟩ rfl hraised
        cases hraised
        cases hpending
      rw [finishRun_of_commits hc hrow] at hrow'
      obtain rfl := Option.some.inj (hrow'.symm.trans
        (Database.get?_setRun (closeRun env run outcome) hstored))
      rw [TestRun.status_writeBack]
      unfold written
      split
      · next hsame =>
        rw [hsame, hrunning] at hterminal
        cases hterminal
      · exact hterminal
  · have hraised : (finishRun env run outcome w).2 ≠ none := by
      unfold finishRun
      cases hrefused : refused outcome with
      | true => simp
      | false =>
        cases hlast : env.faults.lastCommit with
        | none => exact absurd ⟨hrefused, hlast⟩ hc
        | some raised => simp
    exact absurd hquiet hraised

/-- Without a fault, only the loss of its row makes it raise. -/
theorem finishRun_raises (hu : Untroubled env) {raised : Raised}
    (h : (finishRun env run (executeCases env runId cases {}) w).2 = some raised) :
    w.db.runs.get? run.id = none := by
  have hfinishes : Finishes env cases := by
    refine ⟨fun stop hstop => ?_, hu.accepting.lastCommit⟩
    obtain ⟨husable, message, hraised⟩ := stopIn_exception hu.accepting hu.heal hstop
    exact ⟨husable, by rw [hraised]; exact Raised.noConfusion⟩
  obtain ⟨hc, hnotCancelled⟩ := (finishes_iff runId).mp hfinishes
  cases hrow : w.db.runs.get? run.id with
  | none => rfl
  | some row =>
    have hstored : (w.db.insertStepRows
        (Except.progress (executeCases env runId cases {})).results
        (Except.progress (executeCases env runId cases {})).healingEvents).runs.get? run.id =
          some row := hrow
    have hpending : pending (executeCases env runId cases {}) = none := by
      cases houtcome : executeCases env runId cases {} with
      | ok p => rfl
      | error stopped =>
        obtain ⟨p, raised, usable⟩ := stopped
        cases raised with
        | exception message => rfl
        | cancelled => exact absurd rfl (hnotCancelled _ houtcome)
    unfold finishRun at h
    simp only [hc.usable, Bool.false_eq_true, if_false, hc.lastCommit,
      Database.updateRun_of_get? _ hstored, hpending] at h
    split at h
    · next hpublish => exact absurd hpublish hu.publishFinished
    · cases h
    · cases h

/-! ## One access -/

/-- An access of the worker of a run keeps the stored status among those its phase allows. -/
theorem allows_next (hof : phase.Of runId)
    (h : ∀ row, w.db.runs.get? runId = some row → phase.Allows row.status)
    {row' : TestRun} (hrow' : (phase.next env runId w).1.db.runs.get? runId = some row') :
    (phase.next env runId w).2.Allows row'.status := by
  cases phase with
  | created =>
    unfold ExecutorPhase.next at hrow' ⊢
    cases hrow : w.db.runs.get? runId with
    | none =>
      simp only [hrow] at hrow'
      cases hrow'
    | some row =>
      by_cases hq : row.status = .queued
      · simp only [hrow, hq, ne_eq, not_true, if_false] at hrow' ⊢
        obtain rfl := Option.some.inj hrow'
        exact Or.inl hq
      · simp only [hrow, hq, ne_eq, not_false_eq_true, if_true] at hrow' ⊢
        obtain rfl := Option.some.inj hrow'
        have hcancelled := (h row hrow).resolve_left hq
        rw [hcancelled]
        rfl
  | loaded run => exact h row' hrow'
  | suiteLoaded run found =>
    obtain ⟨rfl, hqueued, -⟩ := hof
    cases found with
    | none =>
      simp only [ExecutorPhase.next] at hrow' ⊢
      unfold markSuiteMissing World.updateRun at hrow' ⊢
      cases hcommit : env.faults.firstCommit with
      | some raised => trivial
      | none =>
        cases hrow : w.db.runs.get? run.id with
        | none =>
          simp only [Database.updateRun, hrow, Option.map_none]
          trivial
        | some row =>
          simp only [hcommit, Database.updateRun_of_get? _ hrow, Option.map_some] at hrow' ⊢
          obtain rfl := Option.some.inj (hrow'.symm.trans (Database.get?_setRun _ hrow))
          rw [TestRun.status_writeBack, hqueued]
          rfl
    | some found =>
      obtain ⟨suite, cases⟩ := found
      simp only [ExecutorPhase.next] at hrow' ⊢
      rcases beginRun_cases env run suite w with ⟨w', raised, heq, -, -⟩ | ⟨row, hrow, -, heq⟩
      · simp only [heq]
        trivial
      · simp only [heq] at hrow' ⊢
        obtain rfl := Option.some.inj (hrow'.symm.trans (Database.get?_setRun _ hrow))
        rw [TestRun.status_writeBack, hqueued]
        exact Or.inl rfl
  | running run cases =>
    obtain ⟨rfl, hrunning, -⟩ := hof
    simp only [ExecutorPhase.next] at hrow' ⊢
    cases hraised : (finishRun env run (executeCases env run.id cases {}) w).2 with
    | none => exact finishRun_terminal hrunning hraised hrow'
    | some raised => trivial
  | exited raised => exact h row' hrow'

/-- An access without a fault raises only if the row of the run is gone. -/
theorem next_raises (hu : Untroubled env) (hof : phase.Of runId) (hopen : phase.isExited = false)
    {raised : Raised} (h : (phase.next env runId w).2 = .exited (some raised)) :
    w.db.runs.get? runId = none := by
  cases phase with
  | created =>
    simp only [ExecutorPhase.next] at h
    cases hrow : w.db.runs.get? runId with
    | none => rfl
    | some row =>
      simp only [hrow] at h
      split at h
      · cases h
      · cases h
  | loaded run => cases h
  | suiteLoaded run found =>
    obtain ⟨rfl, -, -⟩ := hof
    cases hrow : w.db.runs.get? run.id with
    | none => rfl
    | some row =>
      cases found with
      | none =>
        simp only [ExecutorPhase.next] at h
        unfold markSuiteMissing World.updateRun at h
        simp only [hu.accepting.begins.firstCommit, Database.updateRun_of_get? _ hrow,
          Option.map_some] at h
        cases h
      | some found =>
        simp only [ExecutorPhase.next, beginRun_of_begins hu.accepting.begins hrow] at h
        cases h
  | running run cases =>
    obtain ⟨rfl, -, -⟩ := hof
    simp only [ExecutorPhase.next, ExecutorPhase.exited.injEq] at h
    exact finishRun_raises hu h
  | exited raised => cases hopen

end

end AegisPlatform.Workers
