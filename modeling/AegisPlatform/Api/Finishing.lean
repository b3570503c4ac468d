import AegisPlatform.Api.Platform
import AegisPlatform.Workers.Finishing

/-! # Every run that is served ends

On the platform, whatever requests, cancel requests and other workers do in between: after the
fourth access of its worker, with no fault in any of the four, a run is stored with a terminal status
or its suite was deleted. None is left QUEUED or RUNNING.
-/

namespace AegisPlatform.Api
open Foundations Domain Core Db Services Workers
set_option autoImplicit false
set_option maxHeartbeats 250000

/-- The label is an access of the delivery `i`. -/
def PlatformLabel.serves (i : ℕ) : PlatformLabel → Bool
  | .deliver j _ => j == i
  | .request .. | .register .. | .arrive .. | .cancel .. => false

section
variable [Unicode] {s t : Pool} {l : PlatformLabel} {r : Uuid} {i j n : ℕ}

/-! ## What a step does to the deliveries and to the rows -/

/-- A delivery after a step: untouched, one access further, or handed over by a request for a run
that was not there before. -/
inductive DeliveryStep (s : Pool) (l : PlatformLabel) (t : Pool) (j : ℕ) (d' : Delivery) : Prop
  | same (hd : s.deliveries[j]? = some d') (hserves : l.serves j = false)
  | access {env : Env} {d : Delivery} (hl : l = .deliver j env) (hd : s.deliveries[j]? = some d)
      (hrun : d'.runId = d.runId) (hphase : d'.phase = (d.phase.next env d.runId s.world).2)
      (hworld : t.world = (d.phase.next env d.runId s.world).1)
  | handed (hnone : s.deliveries[j]? = none) (hserves : l.serves j = false)
      (hphase : d'.phase = .created)
      (hrow : ∀ row, t.world.db.runs.get? d'.runId = some row → row.status = .queued)

omit [Unicode] in
/-- The run that is handed over is QUEUED. -/
theorem called_queued {db db' : Database} {userId : Uuid} {commits : Bool} {request : Request}
    {called : Option Uuid} (h : Effect db userId commits request db' called) {x : Uuid}
    (hx : x ∈ called) {row : TestRun} (hrow : db'.runs.get? x = some row) :
    row.status = .queued := by
  cases h with
  | nothing => cases hx
  | write => cases hx
  | createRun =>
    obtain rfl := Option.some.inj hx
    unfold RunService.insertRun at hrow
    rw [Table.get?_insert_self db.runs _ fun _ => RunService.id_newRun ..] at hrow
    obtain rfl := Option.some.inj hrow
    rfl

theorem delivery_next (h : ofNext Platform.next s l t) {d' : Delivery}
    (hd' : t.deliveries[j]? = some d') : DeliveryStep s l t j d' := by
  cases l with
  | request userId request commits enqueues =>
    have heffect := handle_effect s.world.db userId commits enqueues request
    obtain rfl := Option.some.inj h
    change (s.deliveries ++ _)[j]? = some d' at hd'
    rw [List.getElem?_append] at hd'
    split at hd'
    · exact .same hd' rfl
    · next hlt =>
      obtain ⟨x, hx, rfl⟩ := List.mem_map.mp (List.mem_of_getElem? hd')
      refine .handed (List.getElem?_eq_none (Nat.not_lt.mp hlt)) rfl rfl ?_
      intro row hrow
      refine called_queued heffect ?_ hrow
      cases enqueues with
      | true => exact Option.mem_toList.mp hx
      | false => cases hx
  | register hashPassword data =>
    simp only [ofNext, Platform.next] at h
    split at h
    · obtain rfl := Option.some.inj h
      exact .same hd' rfl
    · obtain rfl := Option.some.inj h
      simp only [Platform.answer, Option.toList_none, List.map_nil, List.append_nil] at hd'
      exact .same hd' rfl
  | deliver i env =>
    simp only [ofNext, Platform.next, Pool.next] at h
    split at h
    · cases h
    · next d hd =>
      obtain rfl := Option.some.inj h
      rcases getElem?_set_cases hd' with ⟨rfl, rfl⟩ | ⟨hne, hold⟩
      · exact .access rfl hd rfl rfl rfl
      · exact .same hold (beq_false_of_ne (Ne.symm hne))
  | arrive userId runId =>
    simp only [ofNext, Platform.next] at h
    split at h
    · obtain rfl := Option.some.inj h
      exact .same hd' rfl
    · obtain rfl := Option.some.inj h
      exact .same hd' rfl
  | cancel i commits =>
    simp only [ofNext, Platform.next, Pool.next] at h
    split at h
    · cases h
    · obtain rfl := Option.some.inj h
      exact .same hd' rfl

theorem delivery_kept (h : ofNext Platform.next s l t) (hnone : t.deliveries[j]? = none) :
    s.deliveries[j]? = none ∧ l.serves j = false := by
  have hlt : t.deliveries.length ≤ j := List.getElem?_eq_none_iff.mp hnone
  cases l with
  | request userId request commits enqueues =>
    obtain rfl := Option.some.inj h
    simp only [Platform.answer, List.length_append] at hlt
    exact ⟨List.getElem?_eq_none (by omega), rfl⟩
  | register hashPassword data =>
    simp only [ofNext, Platform.next] at h
    split at h
    · obtain rfl := Option.some.inj h
      exact ⟨hnone, rfl⟩
    · obtain rfl := Option.some.inj h
      simp only [Platform.answer, List.length_append] at hlt
      exact ⟨List.getElem?_eq_none (by omega), rfl⟩
  | deliver i env =>
    obtain ⟨d, w, phase, hd, -, -, rfl⟩ := deliver_next (i := i) h
    simp only [List.length_set] at hlt
    have hi := (List.getElem?_eq_some_iff.mp hd).1
    exact ⟨List.getElem?_eq_none hlt, beq_false_of_ne (by omega)⟩
  | arrive userId runId =>
    simp only [ofNext, Platform.next] at h
    split at h
    · obtain rfl := Option.some.inj h
      exact ⟨hnone, rfl⟩
    · obtain rfl := Option.some.inj h
      exact ⟨hnone, rfl⟩
  | cancel i commits =>
    cases pool_step (l := .cancel i commits) h with
    | cancel => exact ⟨hnone, rfl⟩

omit [Unicode] in
theorem status_cancelled {db : Database} {loaded row' : TestRun}
    (hlive : loaded.status.isTerminal = false)
    (hrow' : (db.setRun loaded (RunService.cancelled loaded)).runs.get? loaded.id = some row') :
    row'.status = .cancelled := by
  have hne : RunStatus.cancelled ≠ loaded.status := by
    intro heq
    rw [← heq] at hlive
    cases hlive
  cases hrow : db.runs.get? loaded.id with
  | none =>
    unfold Database.setRun at hrow'
    rw [Table.get?_modify_self, hrow] at hrow'
    cases hrow'
  | some row =>
    obtain rfl := Option.some.inj (hrow'.symm.trans (Database.get?_setRun _ hrow))
    rw [TestRun.status_writeBack]
    exact if_neg hne

/-- Whoever is not the worker of a run can at most cancel it, or delete it. -/
theorem row_next (hs : Coherent s) (h : ofNext Platform.next s l t)
    (hr : r < s.world.db.runs.next) {row' : TestRun} (hrow' : t.world.db.runs.get? r = some row')
    (hother : ∀ i env d, l = .deliver i env → s.deliveries[i]? = some d → d.runId ≠ r) :
    (row'.status = .cancelled ∨ s.world.db.runs.get? r = some row') ∧
      t.world.db.resultsOf r = s.world.db.resultsOf r := by
  have hset : ∀ loaded : TestRun, loaded.status.isTerminal = false →
      (s.world.db.setRun loaded (RunService.cancelled loaded)).runs.get? r = some row' →
        row'.status = .cancelled ∨ s.world.db.runs.get? r = some row' := by
    intro loaded hlive hrow
    by_cases heq : r = loaded.id
    · subst heq
      exact Or.inl (status_cancelled hlive hrow)
    · rw [Database.get?_setRun_of_ne heq] at hrow
      exact Or.inr hrow
  cases l with
  | request userId request commits enqueues =>
    have heffect := handle_effect s.world.db userId commits enqueues request
    obtain rfl := Option.some.inj h
    change (handle s.world.db userId commits enqueues request).1.runs.get? r = some row' at hrow'
    change _ ∧ (handle s.world.db userId commits enqueues request).1.resultsOf r = _
    generalize (handle s.world.db userId commits enqueues request).1 = db at heffect hrow' ⊢
    generalize (handle s.world.db userId commits enqueues request).2.1 = called at heffect
    cases heffect with
    | nothing => exact ⟨Or.inr hrow', rfl⟩
    | write huser hcommits hwrite =>
      rcases write_run hwrite hrow' with ⟨hsame, hresults⟩ | ⟨loaded, -, hlive, rfl⟩
      · rw [hsame] at hrow'
        exact ⟨Or.inr hrow', hresults⟩
      · exact ⟨hset loaded hlive hrow', rfl⟩
    | createRun =>
      unfold RunService.insertRun at hrow'
      rw [Table.get?_insert_of_ne s.world.db.runs _ (fun _ => RunService.id_newRun ..)
        (Nat.ne_of_lt hr)] at hrow'
      exact ⟨Or.inr hrow', rfl⟩
  | register hashPassword data =>
    simp only [ofNext, Platform.next] at h
    split at h
    · obtain rfl := Option.some.inj h
      exact ⟨Or.inr hrow', rfl⟩
    · next user db hregister =>
      obtain rfl := Option.some.inj h
      obtain ⟨-, -, rfl⟩ := register_ok hregister
      exact ⟨Or.inr hrow', rfl⟩
  | deliver i env =>
    obtain ⟨d, w, phase, hd, access, step, rfl⟩ := deliver_next (i := i) h
    have hne := hother i env d rfl hd
    obtain ⟨hrow, hresults, -⟩ := other_access (hs.deliveries i d hd) hne access step
    exact ⟨Or.inr (hrow.symm.trans hrow'), hresults⟩
  | arrive userId runId =>
    simp only [ofNext, Platform.next] at h
    split at h
    · obtain rfl := Option.some.inj h
      exact ⟨Or.inr hrow', rfl⟩
    · obtain rfl := Option.some.inj h
      exact ⟨Or.inr hrow', rfl⟩
  | cancel i commits =>
    cases pool_step (l := .cancel i commits) h with
    | @cancel _ _ c db phase hc step =>
      have hof := hs.cancels i c hc
      refine ⟨?_, cancel_results step⟩
      generalize c.phase = old at step hof
      cases step with
      | refuse => exact Or.inr hrow'
      | load => exact Or.inr hrow'
      | @commit run row hrow hcommits => exact hset run hof.2 hrow'
      | fail => exact Or.inr hrow'
      | done => exact Or.inr hrow'

omit [Unicode] in
/-- A step that does not serve a delivery serves no run of its id. -/
theorem other_of_serves (hs : Coherent s) {d : Delivery} (hd : s.deliveries[j]? = some d)
    (hserves : l.serves j = false) : ∀ i env d', l = .deliver i env →
      s.deliveries[i]? = some d' → d'.runId ≠ d.runId := by
  rintro i env d' rfl hd' heq
  have hij := alone_of_nodup hs.once i j d' d hd' hd heq rfl
  simp [PlatformLabel.serves, hij] at hserves

/-! ## The invariants -/

omit [Unicode] in
/-- Of each delivery, the row of its run holds a status its phase allows. -/
def Settling (s : Pool) : Prop :=
  ∀ (i : ℕ) d, s.deliveries[i]? = some d → ∀ row, s.world.db.runs.get? d.runId = some row →
    d.phase.Allows row.status

omit [Unicode] in
theorem initial_settling (h : Platform.Initial s) : Settling s := by
  intro i d hd
  simp [h.deliveries] at hd

theorem settling_next (hs : Coherent s) (hsettling : Settling s)
    (h : ofNext Platform.next s l t) : Settling t := by
  intro j d' hd' row' hrow'
  cases delivery_next h hd' with
  | same hd hserves =>
    have hknown := hs.known d' (List.mem_of_getElem? hd)
    rcases (row_next hs h hknown hrow' (other_of_serves hs hd hserves)).1 with hcancelled | hrow
    · rw [hcancelled]
      exact allows_cancelled d'.phase
    · exact hsettling j d' hd row' hrow
  | @access env d hl hd hrun hphase hworld =>
    rw [hphase]
    rw [hworld, hrun] at hrow'
    exact allows_next (hs.deliveries j d hd) (hsettling j d hd) hrow'
  | handed hnone hserves hphase hrow =>
    rw [hphase]
    exact Or.inl (hrow row' hrow')

theorem settling_run {ls : List PlatformLabel} (hrun : Run (ofNext Platform.next) s ls t)
    (hs : Coherent s ∧ Settling s) : Coherent t ∧ Settling t :=
  hrun.invariant (I := fun s => Coherent s ∧ Settling s)
    (fun _ _ _ hs hstep => ⟨coherent_step hs.1 hstep, settling_next hs.1 hs.2 hstep⟩) hs

omit [Unicode] in
/-- Delivery `i` after `n` accesses, none of them with a fault. -/
structure Serving (i n : ℕ) (s : Pool) : Prop where
  unserved : s.deliveries[i]? = none → n = 0
  left : ∀ d, s.deliveries[i]? = some d → d.phase.left ≤ 4 - n
  raised : ∀ d raised, s.deliveries[i]? = some d → d.phase = .exited (some raised) →
    s.world.db.runs.Gone d.runId

theorem serving_next (hs : Coherent s) (hserving : Serving i n s)
    (h : ofNext Platform.next s l t) (hu : ∀ env, l = .deliver i env → Untroubled env) :
    Serving i (n + if l.serves i then 1 else 0) t := by
  have hevolves := (platform_evolves hs h).runs
  constructor
  · intro hnone
    obtain ⟨hbefore, hserves⟩ := delivery_kept h hnone
    rw [hserves]
    exact hserving.unserved hbefore
  · intro d' hd'
    cases delivery_next h hd' with
    | same hd hserves =>
      rw [hserves]
      exact hserving.left d' hd
    | @access env d hl hd hrun hphase hworld =>
      have hleft := left_next env d.runId s.world d.phase
      have hbefore := hserving.left d hd
      simp only [hl, PlatformLabel.serves, beq_self_eq_true, if_true, hphase]
      omega
    | handed hnone hserves hphase hrow =>
      rw [hserves, hserving.unserved hnone, hphase]
      exact Nat.le_refl _
  · intro d' raised hd' hphase'
    cases delivery_next h hd' with
    | same hd hserves => exact hevolves.gone _ (hserving.raised d' raised hd hphase')
    | @access env d hl hd hrun hphase hworld =>
      rw [hrun]
      rw [hphase] at hphase'
      cases hopen : d.phase.isExited with
      | false =>
        have hknown := hs.known d (List.mem_of_getElem? hd)
        have hgone := next_raises (hu env hl) (hs.deliveries i d hd) hopen hphase'
        exact hevolves.gone _ ⟨hknown, hgone⟩
      | true =>
        rw [next_exited hopen] at hphase'
        exact hevolves.gone _ (hserving.raised d raised hd hphase')
    | handed hnone hserves hphase hrow =>
      rw [hphase] at hphase'
      cases hphase'

theorem serving_run {ls : List PlatformLabel} (hs : Coherent s) (hserving : Serving i 0 s)
    (hrun : Run (ofNext Platform.next) s ls t)
    (hu : ∀ env, PlatformLabel.deliver i env ∈ ls → Untroubled env) :
    Serving i (ls.countP (PlatformLabel.serves i)) t := by
  induction hrun with
  | nil => exact hserving
  | @snoc u v ls l hbefore hlast ih =>
    have hu' := hbefore.invariant (fun _ _ _ hs hstep => coherent_step hs hstep) hs
    have hstep := serving_next hu' (ih fun env hmem => hu env (List.mem_append_left _ hmem)) hlast
      fun env hl => hu env (List.mem_append_right _ (List.mem_singleton.mpr hl.symm))
    rw [List.countP_append, List.countP_singleton]
    exact hstep

/-- Once the worker of a run has made four accesses without a fault, whatever else is served in
between, the run has ended or was deleted. -/
theorem served_runs_end {s₀ : Pool} {ls : List PlatformLabel} (h : Platform.Initial s₀)
    (hrun : Run (ofNext Platform.next) s₀ ls t)
    (hserved : 4 ≤ ls.countP (PlatformLabel.serves i))
    (hu : ∀ env, PlatformLabel.deliver i env ∈ ls → Untroubled env) :
    ∃ d, t.deliveries[i]? = some d ∧ d.phase.isExited = true ∧
      (t.world.db.runs.Gone d.runId ∨
        ∃ run, t.world.db.runs.get? d.runId = some run ∧ run.status.isTerminal = true) := by
  have hs₀ := initial_coherent h
  have hstart : Serving i 0 s₀ := by
    refine ⟨fun _ => rfl, ?_, ?_⟩
    · intro d hd
      simp [h.deliveries] at hd
    · intro d raised hd
      simp [h.deliveries] at hd
  have hserving := serving_run hs₀ hstart hrun hu
  obtain ⟨ht, hsettling⟩ := settling_run hrun ⟨hs₀, initial_settling h⟩
  cases hd : t.deliveries[i]? with
  | none =>
    have hzero := hserving.unserved hd
    omega
  | some d =>
    have hleft : d.phase.left = 0 := by
      have hle := hserving.left d hd
      omega
    have hknown := ht.known d (List.mem_of_getElem? hd)
    cases hphase : d.phase with
    | created => simp [hphase, ExecutorPhase.left] at hleft
    | loaded run => simp [hphase, ExecutorPhase.left] at hleft
    | suiteLoaded run found => simp [hphase, ExecutorPhase.left] at hleft
    | running run cases => simp [hphase, ExecutorPhase.left] at hleft
    | exited raised =>
      refine ⟨d, rfl, by rw [hphase]; rfl, ?_⟩
      cases raised with
      | some raised => exact Or.inl (hserving.raised d raised hd hphase)
      | none =>
        rcases Table.gone_or_stored hknown with hgone | ⟨run, hrun⟩
        · exact Or.inl hgone
        · have hallows := hsettling i d hd run hrun
          rw [hphase] at hallows
          exact Or.inr ⟨run, hrun, hallows⟩

end

theorem untroubled_calm : Untroubled calm where
  accepting :=
    { begins := ⟨rfl, nofun, rfl⟩
      flush := fun _ => rfl
      publishStep := fun _ => nofun
      lastCommit := rfl }
  heal := fun _ _ => nofun
  publishFinished := nofun

/-- The second access of Ada's worker is overtaken by her request to cancel. -/
theorem ada_run_ends :
    ∃ t, Run (ofNext (@Platform.next asciiUnicode)) emptyPlatform
        (adaBegins ++ [.arrive 0 0, .cancel 0 true, .deliver 0 calm, .cancel 0 true]) t ∧
      ∃ d, t.deliveries[0]? = some d ∧ d.phase.isExited = true ∧
        (t.world.db.runs.Gone d.runId ∨
          ∃ run, t.world.db.runs.get? d.runId = some run ∧ run.status.isTerminal = true) := by
  let _ : Unicode := asciiUnicode
  have hrun : ∃ t, Run (ofNext Platform.next) emptyPlatform
      (adaBegins ++ [.arrive 0 0, .cancel 0 true, .deliver 0 calm, .cancel 0 true]) t :=
    ⟨_, exec_run rfl⟩
  obtain ⟨t, hrun⟩ := hrun
  refine ⟨t, hrun, ?_⟩
  refine served_runs_end emptyPlatform_initial hrun (by decide) ?_
  intro env hmem
  have henv : env = calm := by
    simpa [adaBegins] using hmem
  rw [henv]
  exact untroubled_calm

end AegisPlatform.Api
