import AegisPlatform.Api.ConcurrentKeys
import AegisPlatform.Api.Platform

/-! # A trigger sent again

A client that does not know what became of its trigger sends it again under the same
`Idempotency-Key`, perhaps much later, and the platform goes on in between. As long as the requests
are handled one at a time, one run at most is stored under the key. While it is stored every trigger
with the key that reaches its commit is answered with it, whoever sends it and for whatever suite,
and does nothing else.
-/

namespace AegisPlatform.Api
open Foundations Domain Core Db Services Workers
set_option autoImplicit false
set_option maxHeartbeats 250000

/-- A run is stored under its key as before, or it is new and its key was free. -/
def KeysMove (db db' : Database) : Prop :=
  ∀ r run', db'.runs.get? r = some run' →
    (∃ run, db.runs.get? r = some run ∧ run.idempotencyKey = run'.idempotencyKey) ∨
      r = db.runs.next ∧ RunService.replayed db run'.idempotencyKey = none

/-- No two runs are stored under one key. -/
def KeysApart (db : Database) : Prop :=
  ∀ r r' run run', db.runs.get? r = some run → db.runs.get? r' = some run' →
    truthy run.idempotencyKey = true → run'.idempotencyKey = run.idempotencyKey → r' = r

section
variable {db db' : Database} {user : User} {r : Uuid} {run : TestRun}

/-- The lookup finds a stored run that has the key. -/
theorem replayed_isSome (hrun : db.runs.get? r = some run)
    (htruthy : truthy run.idempotencyKey = true) :
    ∃ found, RunService.replayed db run.idempotencyKey = some found := by
  obtain ⟨key, hkey⟩ : ∃ key, run.idempotencyKey = some key := by
    cases hkey : run.idempotencyKey with
    | some key => exact ⟨key, rfl⟩
    | none =>
      rw [hkey] at htruthy
      cases htruthy
  rw [hkey] at htruthy ⊢
  refine Option.ne_none_iff_exists'.mp fun hnone => ?_
  have hfree := (replayed_none_iff htruthy).mp hnone
  have hmem : run ∈ keyed db key :=
    List.mem_filter.mpr ⟨Table.get?_mem hrun, by simp [hkey]⟩
  rw [hfree] at hmem
  cases hmem

theorem keysApart_next (h : KeysApart db) (hmove : KeysMove db db') : KeysApart db' := by
  intro r r' run run' hrun hrun' htruthy hsame
  have hclash {s : Uuid} {old new : TestRun} (hold : db.runs.get? s = some old)
      (hkey : old.idempotencyKey = new.idempotencyKey)
      (hnew : truthy new.idempotencyKey = true)
      (hfree : RunService.replayed db new.idempotencyKey = none) : False := by
    rw [← hkey] at hnew hfree
    obtain ⟨found, hfound⟩ := replayed_isSome hold hnew
    rw [hfree] at hfound
    cases hfound
  rcases hmove r run hrun with ⟨old, hold, hkey⟩ | ⟨rfl, hfree⟩
  · rcases hmove r' run' hrun' with ⟨old', hold', hkey'⟩ | ⟨rfl, hfree'⟩
    · refine h r r' old old' hold hold' ?_ ?_
      · rwa [hkey]
      · rw [hkey', hkey, hsame]
    · exact (hclash hold (hkey.trans hsame.symm) (hsame ▸ htruthy) hfree').elim
  · rcases hmove r' run' hrun' with ⟨old', hold', hkey'⟩ | ⟨rfl, -⟩
    · exact (hclash hold' (hkey'.trans hsame) htruthy hfree).elim
    · rfl

theorem KeysMove.of_runs (h : db'.runs = db.runs) : KeysMove db db' := by
  intro r run hrun
  rw [h] at hrun
  exact Or.inl ⟨run, hrun, rfl⟩

theorem KeysMove.of_setRun (db : Database) (loaded current : TestRun) :
    KeysMove db (db.setRun loaded current) := by
  intro r run hrun
  left
  by_cases hr : r = loaded.id
  · subst hr
    cases hrow : db.runs.get? loaded.id with
    | none =>
      unfold Database.setRun at hrun
      rw [Table.get?_modify_self, hrow] at hrun
      cases hrun
    | some row =>
      rw [Database.get?_setRun current hrow] at hrun
      obtain rfl := Option.some.inj hrun
      exact ⟨row, rfl, rfl⟩
  · rw [Database.get?_setRun_of_ne hr] at hrun
    exact ⟨run, hrun, rfl⟩

theorem triggered_keysMove {request : TriggerRequest} {commits enqueues : Bool}
    {called : Option Uuid} {answer : Answer}
    (h : Triggered db request commits enqueues (db', called, answer)) : KeysMove db db' := by
  cases h with
  | fails => exact .of_runs rfl
  | replays => exact .of_runs rfl
  | @creates user suite cases huser hmiss hrunnable hcommits =>
    intro r run hrun
    by_cases hr : r = db.runs.next
    · subst hr
      have hself := Table.get?_insert_self db.runs
        (RunService.newRun suite cases request.data user request.idempotencyKey)
        fun _ => RunService.id_newRun ..
      obtain rfl := Option.some.inj (hself.symm.trans hrun)
      exact Or.inr ⟨rfl, hmiss⟩
    · have hold := Table.get?_insert_of_ne db.runs
        (RunService.newRun suite cases request.data user request.idempotencyKey)
        (fun _ => RunService.id_newRun ..) hr
      exact Or.inl ⟨run, hold.symm.trans hrun, rfl⟩

theorem write_keysMove {write : Write} (h : WriteEffect db user write db') : KeysMove db db' := by
  cases h with
  | nothing => exact .of_runs rfl
  | createSuite => exact .of_runs rfl
  | updateSuite => exact .of_runs rfl
  | deleteSuite =>
    intro r run hrun
    exact Or.inl ⟨run, ((Table.get?_filter_eq_some_iff db.runs _ r run).mp hrun).1, rfl⟩
  | addCase => exact .of_runs rfl
  | cancelRun => exact KeysMove.of_setRun db _ _
  | review => exact .of_runs rfl

theorem handle_keysMove (db : Database) (userId : Uuid) (commits enqueues : Bool)
    (request : Request) : KeysMove db (handle db userId commits enqueues request).1 := by
  cases request with
  | triggerRun suiteId data idempotencyKey =>
    exact triggered_keysMove (triggerRun_triggered db ⟨suiteId, data, userId, idempotencyKey⟩
      commits enqueues)
  | read read =>
    have heffect := handle_effect db userId commits enqueues (.read read)
    generalize (handle db userId commits enqueues (.read read)).1 = db' at heffect ⊢
    generalize (handle db userId commits enqueues (.read read)).2.1 = called at heffect
    cases heffect with
    | nothing => exact .of_runs rfl
  | write write =>
    have heffect := handle_effect db userId commits enqueues (.write write)
    generalize (handle db userId commits enqueues (.write write)).1 = db' at heffect ⊢
    generalize (handle db userId commits enqueues (.write write)).2.1 = called at heffect
    cases heffect with
    | nothing => exact .of_runs rfl
    | write huser hcommits hwrite => exact write_keysMove hwrite

theorem cancel_keysMove {runId : Uuid} {commits : Bool} {phase phase' : CancelPhase}
    (h : CancelStep runId commits db phase db' phase') : KeysMove db db' := by
  cases h with
  | refuse => exact .of_runs rfl
  | load => exact .of_runs rfl
  | commit => exact KeysMove.of_setRun db _ _
  | fail => exact .of_runs rfl
  | done => exact .of_runs rfl

end

/-! ## Runs of the platform -/

section
variable [Unicode] {s t : Pool} {ls : List PlatformLabel}

theorem platform_keysMove {l : PlatformLabel} (hs : Coherent s) (h : ofNext Platform.next s l t) :
    KeysMove s.world.db t.world.db := by
  cases l with
  | request userId request commits enqueues =>
    obtain rfl := Option.some.inj h
    exact handle_keysMove s.world.db userId commits enqueues request
  | register hashPassword data =>
    simp only [ofNext, Platform.next] at h
    split at h
    · obtain rfl := Option.some.inj h
      exact .of_runs rfl
    · next user db hregister =>
      obtain rfl := Option.some.inj h
      obtain ⟨-, -, hdb⟩ := register_ok hregister
      exact .of_runs (by rw [hdb]; rfl)
  | deliver i env =>
    obtain ⟨d, w, phase, hd, -, step, rfl⟩ := deliver_next (i := i) h
    rcases phase_writes step (hs.deliveries i d hd) with
      hsame | ⟨loaded, current, -, results, events, -, -, -, -, hdb⟩
    · exact .of_runs (by rw [hsame])
    · exact hdb ▸ KeysMove.of_setRun (s.world.db.insertStepRows results events) _ _
  | arrive userId runId =>
    simp only [ofNext, Platform.next] at h
    split at h
    · obtain rfl := Option.some.inj h
      exact .of_runs rfl
    · obtain rfl := Option.some.inj h
      exact .of_runs rfl
  | cancel i commits =>
    cases pool_step (l := .cancel i commits) h with
    | cancel hc step => exact cancel_keysMove step

/-- A run keeps its key as long as it is stored. -/
theorem key_kept {r : Uuid} {run run' : TestRun} (hs : Coherent s)
    (h : Run (ofNext Platform.next) s ls t) (hrun : s.world.db.runs.get? r = some run)
    (hrun' : t.world.db.runs.get? r = some run') : run'.idempotencyKey = run.idempotencyKey := by
  have hboth : Coherent t ∧ r < t.world.db.runs.next ∧
      ∀ row, t.world.db.runs.get? r = some row → row.idempotencyKey = run.idempotencyKey := by
    refine h.invariant (I := fun u => Coherent u ∧ r < u.world.db.runs.next ∧
      ∀ row, u.world.db.runs.get? r = some row → row.idempotencyKey = run.idempotencyKey) ?_
      ⟨hs, Table.get?_lt hrun, fun row hrow => by rw [Option.some.inj (hrow.symm.trans hrun)]⟩
    rintro u l v ⟨hu, hlt, hkey⟩ hstep
    refine ⟨coherent_step hu hstep,
      Nat.lt_of_lt_of_le hlt (platform_evolves hu hstep).runs.next_le, fun row hrow => ?_⟩
    rcases platform_keysMove hu hstep r row hrow with ⟨old, hold, hsame⟩ | ⟨hnew, -⟩
    · exact hsame.symm.trans (hkey old hold)
    · exact absurd hnew (Nat.ne_of_lt hlt)
  exact hboth.2.2 run' hrun'

/-- In every state of the platform no two runs are stored under one key. -/
theorem keys_apart (h : Platform.Initial s) (hrun : Run (ofNext Platform.next) s ls t) :
    Coherent t ∧ KeysApart t.world.db := by
  refine hrun.invariant (I := fun u => Coherent u ∧ KeysApart u.world.db) ?_
    ⟨initial_coherent h, ?_⟩
  · rintro u l v ⟨hu, hapart⟩ hstep
    exact ⟨coherent_step hu hstep, keysApart_next hapart (platform_keysMove hu hstep)⟩
  · intro r r' run run' hrow
    have hmem := Table.get?_mem hrow
    rw [h.runs] at hmem
    cases hmem

omit [Unicode] in
/-- What an accepted trigger with a key leaves: the run it is answered with, stored under the key. -/
theorem accepted_stored {db : Database} {userId suiteId : Uuid} {data : RunCreate} {key : String}
    {commits enqueues : Bool} {run : TestRun}
    (h : (handle db userId commits enqueues (.triggerRun suiteId data (some key))).2.2 = .run run) :
    (handle db userId commits enqueues
        (.triggerRun suiteId data (some key))).1.runs.get? run.id = some run ∧
      run.idempotencyKey = some key := by
  have htriggered := triggerRun_triggered db ⟨suiteId, data, userId, some key⟩ commits enqueues
  change renderAnswer (triggerRun db ⟨suiteId, data, userId, some key⟩ commits enqueues).2.2 =
    .run run at h
  change (triggerRun db ⟨suiteId, data, userId, some key⟩ commits enqueues).1.runs.get? run.id =
    some run ∧ _
  generalize triggerRun db ⟨suiteId, data, userId, some key⟩ commits enqueues = result at *
  cases htriggered with
  | fails answer hnot =>
    cases answer with
    | accepted run' => exact absurd rfl (hnot run')
    | refused failure => cases h
    | internalError => cases h
  | replays huser hreplay hcommits =>
    obtain rfl := Response.run.inj h
    obtain ⟨-, hmem, hkey, -⟩ := RunService.replayed_some hreplay
    exact ⟨Table.get?_of_mem hmem, hkey⟩
  | @creates user suite cases huser hmiss hrunnable hcommits =>
    cases enqueues with
    | false => cases h
    | true =>
      obtain rfl := Response.run.inj h
      exact ⟨Table.get?_insert_self db.runs (RunService.newRun suite cases data user (some key))
        fun _ => RunService.id_newRun .., rfl⟩

/-- While the run that a trigger was answered with is stored, every later trigger with its key is
answered with it and does nothing else. -/
theorem retried {s₀ s' : Pool} {before after : List PlatformLabel} {userId suiteId : Uuid}
    {data : RunCreate} {key : String} {commits enqueues : Bool} {run row : TestRun}
    (h : Platform.Initial s₀) (hkey : key ≠ "")
    (hbefore : Run (ofNext Platform.next) s₀ before s)
    (htrigger : ofNext Platform.next s
      (.request userId (.triggerRun suiteId data (some key)) commits enqueues) s')
    (hanswer : (handle s.world.db userId commits enqueues
      (.triggerRun suiteId data (some key))).2.2 = .run run)
    (hafter : Run (ofNext Platform.next) s' after t)
    (hstored : t.world.db.runs.get? run.id = some row) :
    (∀ other ∈ t.world.db.runs.rows, other.idempotencyKey = some key → other.id = run.id) ∧
      ∀ userId' suiteId' data' enqueues' user, engineer t.world.db userId' = .ok user →
        handle t.world.db userId' true enqueues' (.triggerRun suiteId' data' (some key)) =
          (t.world.db, none, .run row) := by
  have hs : Coherent s :=
    hbefore.invariant (fun _ _ _ hu hstep => coherent_step hu hstep) (initial_coherent h)
  obtain ⟨hthere, hkeyed⟩ := accepted_stored hanswer
  obtain rfl := Option.some.inj htrigger
  have hrow : row.idempotencyKey = some key :=
    (key_kept (coherent_step hs htrigger) hafter hthere hstored).trans hkeyed
  have htruthy : truthy (some key) = true := by simpa [truthy] using hkey
  have hapart := (keys_apart h ((hbefore.snoc htrigger).trans hafter)).2
  have honly : ∀ other ∈ t.world.db.runs.rows, other.idempotencyKey = some key →
      other.id = run.id := by
    intro other hother hsame
    exact hapart run.id other.id row other hstored (Table.get?_of_mem hother) (hrow ▸ htruthy)
      (hsame.trans hrow.symm)
  refine ⟨honly, fun userId' suiteId' data' enqueues' user huser => ?_⟩
  obtain ⟨found, hfound⟩ := replayed_isSome hstored (hrow ▸ htruthy)
  rw [hrow] at hfound
  obtain ⟨-, hmem, hfoundKey, -⟩ := RunService.replayed_some hfound
  have hsame : found = row := by
    have hget := Table.get?_of_mem hmem
    rw [honly found hmem hfoundKey, hstored] at hget
    exact (Option.some.inj hget).symm
  subst hsame
  simp only [handle, triggerRun, huser, RunService.create, hfound]
  rfl

end

/-! ## Sent again after the run is over -/

def adaDeploys : Request := .triggerRun 0 {} (some "deploy-7")

theorem ada_retried :
    ∃ s s' t run row, Run (ofNext (@Platform.next asciiUnicode)) emptyPlatform (adaBegins.take 2) s ∧
      @Platform.next asciiUnicode s (.request 0 adaDeploys true true) = some s' ∧
      (handle s.world.db 0 true true adaDeploys).2.2 = .run run ∧
      Run (ofNext (@Platform.next asciiUnicode)) s'
        [.deliver 0 calm, .deliver 0 calm, .deliver 0 calm, .deliver 0 calm] t ∧
      row.status = .failed ∧ handle t.world.db 0 true true adaDeploys = (t.world.db, none, .run row) := by
  let _ : Unicode := asciiUnicode
  have hrun : ∃ s s' t run row user,
      Run (ofNext Platform.next) emptyPlatform (adaBegins.take 2) s ∧
      Platform.next s (.request 0 adaDeploys true true) = some s' ∧
      (handle s.world.db 0 true true adaDeploys).2.2 = .run run ∧
      Run (ofNext Platform.next) s' [.deliver 0 calm, .deliver 0 calm, .deliver 0 calm, .deliver 0 calm] t ∧
      t.world.db.runs.get? run.id = some row ∧ row.status = .failed ∧
      engineer t.world.db 0 = .ok user :=
    ⟨_, _, _, _, _, _, exec_run rfl, rfl, rfl, exec_run rfl, rfl, by decide, rfl⟩
  obtain ⟨s, s', t, run, row, user, hbefore, htrigger, hanswer, hafter, hstored, hstatus, huser⟩ := hrun
  have hagain := retried emptyPlatform_initial (by decide) hbefore htrigger hanswer hafter hstored
  exact ⟨s, s', t, run, row, hbefore, htrigger, hanswer, hafter, hstatus,
    hagain.2 0 0 {} true user huser⟩

end AegisPlatform.Api
