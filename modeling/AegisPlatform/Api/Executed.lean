import AegisPlatform.Api.Documents
import AegisPlatform.Api.Finishing

/-! # What is executed of a document

A worker reads the suite of its run once. What is stored of the run in the end are the steps of the
document as the accepted requests had made it by then, in the order it was read, whatever is edited
afterwards and whoever else is served.
-/

namespace AegisPlatform.Api
open Foundations Domain Core Db Services Workers
set_option autoImplicit false
set_option maxHeartbeats 250000

/-- Delivery `i` is of run `r`, whose worker read `cases`. -/
def WorkingThrough (i : ℕ) (r : Uuid) (cases : List TestCase) (sent : List TestCaseCreate)
    (s : Pool) : Prop :=
  ∃ d, s.deliveries[i]? = some d ∧ d.runId = r ∧
    WorkedThrough (sent.flatMap linesOf) cases r s.world.db d.phase

section
variable [Unicode] {s t : Pool} {l : PlatformLabel} {r : Uuid} {i : ℕ} {cases : List TestCase}
  {sent : List TestCaseCreate}

theorem workingThrough_next (hcases : List.Forall₂ Executes cases sent) (hs : Coherent s)
    (hsettling : Settling s) (h : ofNext Platform.next s l t)
    (hworking : WorkingThrough i r cases sent s) : WorkingThrough i r cases sent t := by
  obtain ⟨d, hd, rfl, hworked⟩ := hworking
  cases hd' : t.deliveries[i]? with
  | none =>
    rw [(delivery_kept h hd').1] at hd
    cases hd
  | some d' =>
    cases delivery_next h hd' with
    | same hsame hserves =>
      obtain rfl := Option.some.inj (hd.symm.trans hsame)
      refine ⟨d, hd', rfl, ?_⟩
      have hother := other_of_serves hs hd hserves
      have hknown := hs.known d (List.mem_of_getElem? hd)
      cases hrow' : t.world.db.runs.get? d.runId with
      | none =>
        have hempty := resultsOf_gone (coherent_step hs h).intact hrow'
        refine .of_empty hworked.worksOn hempty fun row hrow => ?_
        rw [hrow'] at hrow
        cases hrow
      | some row' =>
        obtain ⟨hrow, hresults⟩ := row_next hs h hknown hrow' hother
        refine ⟨hworked.worksOn, ?_, ?_, ?_⟩
        · rw [hresults]
          exact hworked.quiet
        · rw [hresults]
          exact hworked.named
        · intro row hget hended
          obtain rfl := Option.some.inj (hrow'.symm.trans hget)
          rw [hresults]
          rcases hrow with hcancelled | hstored
          · simp [hcancelled] at hended
          · exact hworked.all row' hstored hended
    | @access env d₀ hl hd₀ hrun hphase hworld =>
      obtain rfl := Option.some.inj (hd.symm.trans hd₀)
      refine ⟨d', hd', hrun, ?_⟩
      rw [hphase, hworld]
      exact workedThrough_access hcases hworked (hs.deliveries i d hd) (hsettling i d hd)
        (next_step env d.runId s.world d.phase)
    | handed hnone =>
      rw [hnone] at hd
      cases hd

/-- When the worker of a run of a suite reads the suite, and the suite stands as the document `doc`,
then it finds the cases in some order by `order_index`, and in that order what is ever stored of the
run are the first steps of `doc`, and all of them if the run is PASSED or FAILED. -/
theorem run_executes_document {s₀ s s' u u' : Pool} {ls ms : List PlatformLabel}
    {userId : Uuid} {commits enqueues : Bool} {data : SuiteCreate} {suite : TestSuite}
    {shown : List TestCase} {i : ℕ} {env : Env} {d : Delivery} {run : TestRun} {doc : Document}
    (h : Platform.Initial s₀) (hbefore : Run (ofNext Platform.next) s₀ ls s)
    (hcreate : ofNext Platform.next s
      (.request userId (.write (.createSuite data)) commits enqueues) s')
    (hanswer : (handle s.world.db userId commits enqueues (.write (.createSuite data))).2.2 =
      .suite suite shown)
    (hedited : Run (ofNext Platform.next) s' ms u) (hd : u.deliveries[i]? = some d)
    (hphase : d.phase = .loaded run) (hsuite : run.suiteId = suite.id)
    (hload : ofNext Platform.next u (.deliver i env) u')
    (hdoc : (Document.sent data userId).edited (edits suite.id s' ms) = some doc) :
    ∃ ordered, doc.InOrder ordered ∧
      ∀ (ns : List PlatformLabel) (t : Pool), Run (ofNext Platform.next) u' ns t →
        (t.world.db.resultsOf d.runId).map lineOf <+: ordered.flatMap linesOf ∧
        ∀ row, t.world.db.runs.get? d.runId = some row →
          row.status = .passed ∨ row.status = .failed →
            (t.world.db.resultsOf d.runId).map lineOf = ordered.flatMap linesOf := by
  have hu := settling_run (hbefore.trans ((Run.single hcreate).trans hedited))
    ⟨initial_coherent h, initial_settling h⟩
  have hu' := settling_run (Run.single hload) hu
  have hrepresents := represents_created h hbefore hcreate hanswer hedited
  rw [hdoc] at hrepresents
  obtain ⟨stored, cases, ordered, hfound, -, hordered, hcases, -⟩ :=
    shows_of_represents hrepresents
  have hempty : u.world.db.resultsOf d.runId = [] := by
    cases hrow : u.world.db.runs.get? d.runId with
    | none => exact resultsOf_gone hu.1.intact hrow
    | some row =>
      exact ((hu.1.telling d.runId row hrow).quiet i d hd rfl (by rw [hphase]; rfl)).1
  have hread : WorkingThrough i d.runId cases ordered u' := by
    simp only [ofNext, Platform.next, Pool.next, hd, Delivery.next, hphase, ExecutorPhase.next,
      hsuite, hfound] at hload
    obtain rfl := Option.some.inj hload
    refine ⟨_, List.getElem?_set_self (List.getElem?_eq_some_iff.mp hd).1, rfl, ?_⟩
    refine .of_empty ⟨stored, rfl⟩ hempty fun row hrow => ?_
    exact open_of_allows (by rw [hphase]; rfl) (hu.2 i d hd row hrow)
  refine ⟨ordered, hordered, fun ns t hafter => ?_⟩
  obtain ⟨-, hworking⟩ : (Coherent t ∧ Settling t) ∧ WorkingThrough i d.runId cases ordered t := by
    refine hafter.invariant
      (I := fun s => (Coherent s ∧ Settling s) ∧ WorkingThrough i d.runId cases ordered s) ?_
      ⟨hu', hread⟩
    rintro s l t ⟨hs, hworking⟩ hstep
    exact ⟨settling_run (Run.single hstep) hs, workingThrough_next hcases hs.1 hs.2 hstep hworking⟩
  obtain ⟨_, _, _, hworked⟩ := hworking
  exact ⟨hworked.named, hworked.all⟩

end

/-- Ada triggers a run and renames her suite before the worker has read it. -/
def adaRuns : List PlatformLabel :=
  [.request 0 (.triggerRun 0 {} none) true true,
    .request 0 (.write (.updateSuite 0 { name := some (some "Smoke") })) true true,
    .deliver 0 calm]

/-- She adds a case when it has. -/
theorem ada_run_executes :
    ∃ s s' u u' t, Run (ofNext (@Platform.next asciiUnicode)) emptyPlatform
        [.register id { email := "Ada@example.com", fullName := "Ada", password := "engine no. 1" }] s ∧
      @Platform.next asciiUnicode s adaSends = some s' ∧
      Run (ofNext (@Platform.next asciiUnicode)) s' adaRuns u ∧
      @Platform.next asciiUnicode u (.deliver 0 calm) = some u' ∧
      Run (ofNext (@Platform.next asciiUnicode)) u'
        [.request 0 (.write (.addCase 0 openCase)) true true, .deliver 0 calm, .deliver 0 calm] t ∧
      (t.world.db.casesOf 0).map TestCase.name = ["Open", "Sign in"] ∧
      ∃ ordered, (Document.sent adaSuite 0).InOrder ordered ∧
        (t.world.db.resultsOf 0).map lineOf = ordered.flatMap linesOf := by
  let _ : Unicode := asciiUnicode
  have hrun : ∃ s s' u u' t d run, Run (ofNext Platform.next) emptyPlatform
        [.register id { email := "Ada@example.com", fullName := "Ada", password := "engine no. 1" }] s ∧
      Platform.next s adaSends = some s' ∧ Run (ofNext Platform.next) s' adaRuns u ∧
      Platform.next u (.deliver 0 calm) = some u' ∧
      Run (ofNext Platform.next) u'
        [.request 0 (.write (.addCase 0 openCase)) true true, .deliver 0 calm, .deliver 0 calm] t ∧
      s.world.db.suites.next = 0 ∧
      (∃ suite cases, (handle s.world.db 0 true true (.write (.createSuite adaSuite))).2.2 =
        .suite suite cases) ∧
      u.deliveries[0]? = some d ∧ d.phase = .loaded run ∧ d.runId = 0 ∧ run.suiteId = 0 ∧
      (Document.sent adaSuite 0).edited (edits 0 s' adaRuns) =
        some { Document.sent adaSuite 0 with name := "Smoke" } ∧
      (t.world.db.casesOf 0).map TestCase.name = ["Open", "Sign in"] ∧
      (∃ row, t.world.db.runs.get? 0 = some row ∧ row.status = .failed) :=
    ⟨_, _, _, _, _, _, _, exec_run rfl, rfl, exec_run rfl, rfl, exec_run rfl, rfl, ⟨_, _, rfl⟩, rfl,
      rfl, rfl, rfl, rfl, by decide, ⟨_, rfl, rfl⟩⟩
  obtain ⟨s, s', u, u', t, d, run, hbefore, hcreate, hedited, hload, hafter, hnext,
    ⟨suite, cases, hanswer⟩, hd, hphase, hrunId, hsuite, hdoc, hnames, row, hrow, hstatus⟩ := hrun
  have hid : suite.id = 0 := (handle_createSuite hanswer).1.trans hnext
  obtain ⟨ordered, hordered, hstored⟩ := run_executes_document emptyPlatform_initial hbefore hcreate
    hanswer hedited hd hphase (hsuite.trans hid.symm) hload (by rw [hid]; exact hdoc)
  have hall := (hstored _ t hafter).2
  rw [hrunId] at hall
  exact ⟨s, s', u, u', t, hbefore, hcreate, hedited, hload, hafter, hnames, ordered, hordered,
    hall row hrow (Or.inr hstatus)⟩

end AegisPlatform.Api
