import AegisPlatform.Api.Runs

/-! # One key, many requests at once

Any number of triggers that carry the same `Idempotency-Key`, each taking one access at a time.
The lookup and the commit of the row are apart and the column has no unique index, so two requests
can both miss. `OneMiss` excludes that a request misses while another one that missed has neither
committed nor failed. Under it there is one row, one hand-over and one answer.
-/

namespace AegisPlatform.Api
open Foundations Domain Core Db Services
set_option autoImplicit false
set_option maxHeartbeats 250000

/-- A request in flight; `enqueued` records that it called the dispatcher. -/
structure TriggerSession where
  request : TriggerRequest
  phase : TriggerPhase := .received
  enqueued : Bool := false

structure Clients where
  db : Database
  sessions : List TriggerSession

namespace TriggerPhase

def isAuthorised : TriggerPhase → Bool
  | .authorised _ => true
  | _ => false

/-- The request missed its lookup and has not committed its row. -/
def isOpen : TriggerPhase → Bool
  | .missed _ | .inserted .. => true
  | _ => false

def isCommitted : TriggerPhase → Bool
  | .committed _ => true
  | _ => false

/-- The run the request will answer with, or has answered with. -/
def run? : TriggerPhase → Option TestRun
  | .found run | .committed run | .answered (.accepted run) => some run
  | _ => none

end TriggerPhase

def Clients.next (s : Clients) (l : ℕ × Bool) : Option Clients :=
  match s.sessions[l.1]? with
  | none => none
  | some c =>
    let (db, phase) := c.phase.next c.request l.2 s.db
    some { s with
      db := db
      sessions := s.sessions.set l.1
        { c with phase := phase, enqueued := c.enqueued || c.phase.isCommitted } }

def keyed (db : Database) (key : String) : List TestRun :=
  db.runs.rows.filter fun run => run.idempotencyKey == some key

/-- No request misses the key while another one that missed it is still open. -/
def OneMiss (key : String) (s : Clients) (l : ℕ × Bool) : Prop :=
  ∀ c ∈ s.sessions[l.1]?, c.phase.isAuthorised = true → keyed s.db key = [] →
    ∀ c' ∈ s.sessions, c'.phase.isOpen = false

instance (key : String) (s : Clients) (l : ℕ × Bool) : Decidable (OneMiss key s l) :=
  inferInstanceAs (Decidable (∀ c ∈ s.sessions[l.1]?, c.phase.isAuthorised = true →
    keyed s.db key = [] → ∀ c' ∈ s.sessions, c'.phase.isOpen = false))

/-! ## What one access does to the rows with the key -/

section
variable {request : TriggerRequest} {works : Bool} {db db' : Database}
  {phase phase' : TriggerPhase} {key : String}

theorem replayed_none_iff (htruthy : truthy (some key) = true) :
    RunService.replayed db (some key) = none ↔ keyed db key = [] := by
  unfold RunService.replayed keyed
  rw [if_pos htruthy, List.filter_eq_nil_iff]
  change db.runs.rows.find? _ = none ↔ _
  rw [List.find?_eq_none]

theorem keyed_insertRun (suite : TestSuite) (cases : List TestCase) (data : RunCreate)
    (user : User) :
    keyed (RunService.insertRun db suite cases data user (some key)) key =
      keyed db key ++ [RunService.newRun suite cases data user (some key) db.runs.next] := by
  unfold keyed RunService.insertRun
  rw [Table.rows_insert, List.filter_append]
  simp [RunService.newRun]

theorem trigger_rows (h : TriggerStep request works db phase db' phase')
    (hkey : request.idempotencyKey = some key) :
    keyed db' key = keyed db key ∧ phase'.isCommitted = false ∨
      phase.isOpen = true ∧ phase'.isOpen = false ∧ phase'.isCommitted = true ∧
        ∃ row, keyed db' key = keyed db key ++ [row] ∧ phase'.run? = some row := by
  cases h with
  | refuse => exact Or.inl ⟨rfl, rfl⟩
  | authorise huser => exact Or.inl ⟨rfl, rfl⟩
  | find user hreplay => exact Or.inl ⟨rfl, rfl⟩
  | miss user hmiss => exact Or.inl ⟨rfl, rfl⟩
  | replay run => exact Or.inl ⟨rfl, rfl⟩
  | insert hrunnable => exact Or.inl ⟨rfl, rfl⟩
  | commit user suite cases =>
    rw [hkey]
    exact Or.inr ⟨rfl, rfl, rfl, _, keyed_insertRun suite cases request.data user, rfl⟩
  | enqueue run => exact Or.inl ⟨rfl, rfl⟩
  | done answer => exact Or.inl ⟨rfl, rfl⟩

theorem trigger_open (h : TriggerStep request works db phase db' phase')
    (hkey : request.idempotencyKey = some key) (htruthy : truthy (some key) = true)
    (hopen : phase'.isOpen = true) :
    phase.isOpen = true ∨ phase.isAuthorised = true ∧ keyed db key = [] := by
  cases h with
  | miss user hmiss =>
    rw [hkey] at hmiss
    exact Or.inr ⟨rfl, (replayed_none_iff htruthy).mp hmiss⟩
  | insert hrunnable => exact Or.inl rfl
  | refuse => cases hopen
  | authorise huser => cases hopen
  | find user hreplay => cases hopen
  | replay run => cases hopen
  | commit user suite cases => cases hopen
  | enqueue run => cases hopen
  | done answer => cases hopen

/-- A request answers with a run it held before, or with a row that carries the key. -/
theorem trigger_run (h : TriggerStep request works db phase db' phase')
    (hkey : request.idempotencyKey = some key) {run : TestRun} (hrun : phase'.run? = some run) :
    phase.run? = some run ∨ ∃ row ∈ keyed db' key, row.id = run.id := by
  cases h with
  | refuse _ answer hanswer =>
    cases answer with
    | accepted run' => exact absurd rfl (hanswer run')
    | refused failure => cases hrun
    | internalError => cases hrun
  | authorise huser => cases hrun
  | find user hreplay =>
    obtain rfl := Option.some.inj hrun
    obtain ⟨-, hmem, hrow, -⟩ := RunService.replayed_some hreplay
    refine Or.inr ⟨_, ?_, rfl⟩
    unfold keyed
    rw [List.mem_filter]
    refine ⟨hmem, ?_⟩
    rw [hrow, hkey]
    simp
  | miss user hmiss => cases hrun
  | replay run' => exact Or.inl hrun
  | insert hrunnable => cases hrun
  | commit user suite cases =>
    obtain rfl := Option.some.inj hrun
    rw [hkey, keyed_insertRun]
    exact Or.inr ⟨_, List.mem_append_right _ (List.mem_singleton_self _), rfl⟩
  | enqueue run' => exact Or.inl hrun
  | done answer => exact Or.inl hrun

end

/-! ## One owner of the key -/

/-- The request is about to make the row of the key, or has made it. -/
def TriggerSession.owns (c : TriggerSession) : Prop :=
  c.phase.isOpen = true ∨ c.phase.isCommitted = true ∨ c.enqueued = true

structure OneRow (key : String) (s : Clients) : Prop where
  keys : ∀ (i : ℕ) c, s.sessions[i]? = some c → c.request.idempotencyKey = some key
  rows : (keyed s.db key).length ≤ 1
  opened : ∀ (i : ℕ) c, s.sessions[i]? = some c → c.phase.isOpen = true → keyed s.db key = []
  made : ∀ (i : ℕ) c, s.sessions[i]? = some c →
    c.phase.isCommitted = true ∨ c.enqueued = true → keyed s.db key ≠ []
  unique : ∀ (i j : ℕ) c c', s.sessions[i]? = some c → s.sessions[j]? = some c' →
    c.owns → c'.owns → i = j
  holds : ∀ (i : ℕ) c run, s.sessions[i]? = some c → c.phase.run? = some run →
    ∃ row ∈ keyed s.db key, row.id = run.id

section
variable {key : String} {s t : Clients} {l : ℕ × Bool}

/-- Everything one step of the clients can do. -/
theorem clients_step (h : ofNext Clients.next s l t) :
    ∃ c phase, s.sessions[l.1]? = some c ∧
      TriggerStep c.request l.2 s.db c.phase t.db phase ∧
      t.sessions = s.sessions.set l.1
        { c with phase := phase, enqueued := c.enqueued || c.phase.isCommitted } := by
  unfold ofNext Clients.next at h
  split at h
  · cases h
  · next c hc =>
    obtain rfl := Option.some.inj h
    exact ⟨c, _, hc, trigger_step c.request l.2 s.db c.phase, rfl⟩

theorem initial_oneRow
    (hstart : ∀ c ∈ s.sessions, c.request.idempotencyKey = some key ∧
      c.phase = .received ∧ c.enqueued = false)
    (hrows : (keyed s.db key).length ≤ 1) : OneRow key s := by
  have hnew : ∀ (i : ℕ) c, s.sessions[i]? = some c → c.request.idempotencyKey = some key ∧
      c.phase = .received ∧ c.enqueued = false :=
    fun i c hc => hstart c (List.mem_of_getElem? hc)
  refine ⟨fun i c hc => (hnew i c hc).1, hrows, ?_, ?_, ?_, ?_⟩
  · intro i c hc hopen
    rw [(hnew i c hc).2.1] at hopen
    cases hopen
  · rintro i c hc (he | he)
    · rw [(hnew i c hc).2.1] at he
      cases he
    · rw [(hnew i c hc).2.2] at he
      cases he
  · rintro i j c c' hc - (he | he | he) -
    · rw [(hnew i c hc).2.1] at he
      cases he
    · rw [(hnew i c hc).2.1] at he
      cases he
    · rw [(hnew i c hc).2.2] at he
      cases he
  · intro i c run hc hrun
    rw [(hnew i c hc).2.1] at hrun
    cases hrun

/-- The owner after a step was the owner before, or nobody was and the key has just been missed. -/
theorem owns_before (hs : OneRow key s) (htruthy : truthy (some key) = true)
    (hguard : OneMiss key s l) {c : TriggerSession} {db' : Database} {phase : TriggerPhase}
    (hc : s.sessions[l.1]? = some c)
    (step : TriggerStep c.request l.2 s.db c.phase db' phase)
    (howns : TriggerSession.owns
      { c with phase := phase, enqueued := c.enqueued || c.phase.isCommitted }) :
    c.owns ∨ ∀ (j : ℕ) c', s.sessions[j]? = some c' → ¬ c'.owns := by
  have hkey := hs.keys l.1 c hc
  rcases howns with hopen | hcommitted | henqueued
  · rcases trigger_open step hkey htruthy hopen with hbefore | ⟨hauth, hempty⟩
    · exact Or.inl (Or.inl hbefore)
    · right
      rintro j c' hc' (he | he)
      · rw [hguard c hc hauth hempty c' (List.mem_of_getElem? hc')] at he
        cases he
      · exact hs.made j c' hc' he hempty
  · left
    rcases trigger_rows step hkey with ⟨-, hnot⟩ | ⟨hbefore, -⟩
    · simp only [hnot] at hcommitted
      cases hcommitted
    · exact Or.inl hbefore
  · left
    rcases Bool.or_eq_true _ _ ▸ henqueued with hold | hnew
    · exact Or.inr (Or.inr hold)
    · exact Or.inr (Or.inl hnew)

/-- A commit comes from an open request, so the key had no row before it. -/
theorem commit_alone (hs : OneRow key s) {c : TriggerSession} {works : Bool} {db' : Database}
    {phase : TriggerPhase} {i : ℕ} (hc : s.sessions[i]? = some c)
    (step : TriggerStep c.request works s.db c.phase db' phase)
    (hne : keyed db' key ≠ keyed s.db key) :
    c.phase.isOpen = true ∧ phase.isOpen = false ∧ (keyed db' key).length = 1 := by
  rcases trigger_rows step (hs.keys i c hc) with ⟨hsame, -⟩ | ⟨hopen, hclosed, -, row, hnew, -⟩
  · exact absurd hsame hne
  · rw [hnew, hs.opened i c hc hopen]
    exact ⟨hopen, hclosed, rfl⟩

theorem keyed_grows {request : TriggerRequest} {works : Bool} {db db' : Database}
    {phase phase' : TriggerPhase} (step : TriggerStep request works db phase db' phase')
    (hkey : request.idempotencyKey = some key) {row : TestRun} (hrow : row ∈ keyed db key) :
    row ∈ keyed db' key := by
  rcases trigger_rows step hkey with ⟨hsame, -⟩ | ⟨-, -, -, row', hnew, -⟩
  · rw [hsame]
    exact hrow
  · rw [hnew]
    exact List.mem_append_left _ hrow

section
variable {c : TriggerSession} {phase : TriggerPhase}

theorem oneRow_opened (hs : OneRow key s) (htruthy : truthy (some key) = true)
    (hc : s.sessions[l.1]? = some c) (step : TriggerStep c.request l.2 s.db c.phase t.db phase)
    {j : ℕ} {e : TriggerSession}
    (he : (s.sessions.set l.1
      { c with phase := phase, enqueued := c.enqueued || c.phase.isCommitted })[j]? = some e)
    (hopen : e.phase.isOpen = true) : keyed t.db key = [] := by
  have hkey := hs.keys l.1 c hc
  have hbefore : keyed s.db key = [] := by
    rcases getElem?_set_cases he with ⟨-, rfl⟩ | ⟨-, hold⟩
    · rcases trigger_open step hkey htruthy hopen with hb | ⟨-, hempty⟩
      · exact hs.opened l.1 c hc hb
      · exact hempty
    · exact hs.opened j e hold hopen
  by_cases hsame : keyed t.db key = keyed s.db key
  · rw [hsame, hbefore]
  · -- the request that committed owned the key, so no other one is open
    obtain ⟨hcopen, hclosed, -⟩ := commit_alone hs hc step hsame
    rcases getElem?_set_cases he with ⟨-, rfl⟩ | ⟨hj, hold⟩
    · simp only [hclosed] at hopen
      cases hopen
    · exact absurd (hs.unique j l.1 e c hold hc (Or.inl hopen) (Or.inl hcopen)) hj

theorem oneRow_made (hs : OneRow key s) (hc : s.sessions[l.1]? = some c)
    (step : TriggerStep c.request l.2 s.db c.phase t.db phase) {j : ℕ} {e : TriggerSession}
    (he : (s.sessions.set l.1
      { c with phase := phase, enqueued := c.enqueued || c.phase.isCommitted })[j]? = some e)
    (hmade : e.phase.isCommitted = true ∨ e.enqueued = true) : keyed t.db key ≠ [] := by
  have hkey := hs.keys l.1 c hc
  have hstays : keyed s.db key ≠ [] → keyed t.db key ≠ [] := by
    intro hne hempty
    obtain ⟨row, hrow⟩ := List.exists_mem_of_ne_nil _ hne
    have hrow' := keyed_grows step hkey hrow
    rw [hempty] at hrow'
    cases hrow'
  rcases getElem?_set_cases he with ⟨-, rfl⟩ | ⟨-, hold⟩
  · rcases hmade with hcommitted | henqueued
    · rcases trigger_rows step hkey with ⟨-, hnot⟩ | ⟨-, -, -, row, hnew, -⟩
      · simp only [hnot] at hcommitted
        cases hcommitted
      · rw [hnew]
        exact List.append_ne_nil_of_right_ne_nil _ (List.cons_ne_nil _ _)
    · rcases Bool.or_eq_true _ _ ▸ henqueued with hb | hb
      · exact hstays (hs.made l.1 c hc (Or.inr hb))
      · exact hstays (hs.made l.1 c hc (Or.inl hb))
  · exact hstays (hs.made j e hold hmade)

theorem oneRow_holds (hs : OneRow key s) (hc : s.sessions[l.1]? = some c)
    (step : TriggerStep c.request l.2 s.db c.phase t.db phase) {j : ℕ} {e : TriggerSession}
    (he : (s.sessions.set l.1
      { c with phase := phase, enqueued := c.enqueued || c.phase.isCommitted })[j]? = some e)
    {run : TestRun} (hrun : e.phase.run? = some run) :
    ∃ row ∈ keyed t.db key, row.id = run.id := by
  have hkey := hs.keys l.1 c hc
  rcases getElem?_set_cases he with ⟨-, rfl⟩ | ⟨-, hold⟩
  · rcases trigger_run step hkey hrun with hbefore | hrow
    · obtain ⟨row, hrow, hid⟩ := hs.holds l.1 c run hc hbefore
      exact ⟨row, keyed_grows step hkey hrow, hid⟩
    · exact hrow
  · obtain ⟨row, hrow, hid⟩ := hs.holds j e run hold hrun
    exact ⟨row, keyed_grows step hkey hrow, hid⟩

end

theorem oneRow_step (hs : OneRow key s) (htruthy : truthy (some key) = true)
    (h : Under (OneMiss key) (ofNext Clients.next) s l t) : OneRow key t := by
  obtain ⟨hguard, hnext⟩ := h
  obtain ⟨c, phase, hc, step, hsessions⟩ := clients_step hnext
  constructor
  case keys =>
    rw [hsessions]
    exact forall_set (Q := fun e : TriggerSession => e.request.idempotencyKey = some key) hs.keys
      (hs.keys l.1 c hc)
  case rows =>
    by_cases hsame : keyed t.db key = keyed s.db key
    · rw [hsame]
      exact hs.rows
    · obtain ⟨-, -, hlen⟩ := commit_alone hs hc step hsame
      omega
  case opened =>
    rw [hsessions]
    exact fun j e he hopen => oneRow_opened hs htruthy hc step he hopen
  case made =>
    rw [hsessions]
    exact fun j e he hmade => oneRow_made hs hc step he hmade
  case unique =>
    rw [hsessions]
    exact unique_set hs.unique hc (owns_before hs htruthy hguard hc step)
  case holds =>
    rw [hsessions]
    exact fun j e run he hrun => oneRow_holds hs hc step he hrun

/-- In every run of the clients in which they miss the key one after the other, the key gets one
row, one request calls the dispatcher, and all that succeed answer with the same run. -/
theorem one_run_per_key {ls : List (ℕ × Bool)} (hkey : key ≠ "")
    (hstart : ∀ c ∈ s.sessions, c.request.idempotencyKey = some key ∧
      c.phase = .received ∧ c.enqueued = false)
    (hrows : (keyed s.db key).length ≤ 1)
    (hrun : Run (Under (OneMiss key) (ofNext Clients.next)) s ls t) :
    (keyed t.db key).length ≤ 1 ∧
      (∀ (i j : ℕ) c c', t.sessions[i]? = some c → t.sessions[j]? = some c' →
        c.enqueued = true → c'.enqueued = true → i = j) ∧
      ∀ (i j : ℕ) c c' run run', t.sessions[i]? = some c → t.sessions[j]? = some c' →
        c.phase = .answered (.accepted run) → c'.phase = .answered (.accepted run') →
          run.id = run'.id := by
  have htruthy : truthy (some key) = true := by simpa [truthy] using hkey
  have hinv : OneRow key t :=
    hrun.invariant (fun _ _ _ hi hstep => oneRow_step hi htruthy hstep)
      (initial_oneRow hstart hrows)
  refine ⟨hinv.rows, ?_, ?_⟩
  · intro i j c c' hc hc' he he'
    exact hinv.unique i j c c' hc hc' (Or.inr (Or.inr he)) (Or.inr (Or.inr he'))
  · intro i j c c' run run' hc hc' ha ha'
    obtain ⟨row, hrow, hid⟩ := hinv.holds i c run hc (by rw [ha]; rfl)
    obtain ⟨row', hrow', hid'⟩ := hinv.holds j c' run' hc' (by rw [ha']; rfl)
    have hsame : row = row' := by
      cases hrows' : keyed t.db key with
      | nil =>
        rw [hrows'] at hrow
        cases hrow
      | cons first rest =>
        have hlen := hinv.rows
        rw [hrows', List.length_cons] at hlen
        have hrest : rest = [] := List.eq_nil_of_length_eq_zero (by omega)
        rw [hrows', hrest] at hrow hrow'
        rw [List.mem_singleton.mp hrow, List.mem_singleton.mp hrow']
    rw [← hid, ← hid', hsame]

end

/-! ## Two requests with one key -/

def demoRequest : TriggerRequest :=
  { suiteId := 0, userId := 0, idempotencyKey := some "demo-run-001" }

def demoClients : Clients :=
  { db := loginDb, sessions := [{ request := demoRequest }, { request := demoRequest }] }

theorem demoClients_start : ∀ c ∈ demoClients.sessions,
    c.request.idempotencyKey = some "demo-run-001" ∧ c.phase = .received ∧ c.enqueued = false := by
  intro c hc
  simp only [demoClients, List.mem_cons, List.not_mem_nil, or_false, or_self] at hc
  subst hc
  exact ⟨rfl, rfl, rfl⟩

/-- Both requests look the key up before either commits: two rows, two hand-overs, two runs. -/
theorem key_used_twice :
    (∀ c ∈ demoClients.sessions,
        c.request.idempotencyKey = some "demo-run-001" ∧ c.phase = .received ∧ c.enqueued = false) ∧
      keyed demoClients.db "demo-run-001" = [] ∧
      ∃ t, Run (ofNext Clients.next) demoClients
          [(0, true), (1, true), (0, true), (1, true), (0, true), (1, true), (0, true), (1, true),
            (0, true), (1, true)] t ∧
        (keyed t.db "demo-run-001").map TestRun.id = [1, 2] ∧
        t.sessions.map TriggerSession.enqueued = [true, true] ∧
        t.sessions.map (fun c => c.phase.run?.map TestRun.id) = [some 1, some 2] :=
  ⟨demoClients_start, by decide, _, exec_run rfl, by decide, by decide, by decide⟩

theorem demo_one_run :
    ∃ t, Run (Under (OneMiss "demo-run-001") (ofNext Clients.next)) demoClients
        [(0, true), (0, true), (0, true), (1, true), (0, true), (1, true), (0, true), (1, true)] t ∧
      (keyed t.db "demo-run-001").length ≤ 1 ∧
      (∀ (i j : ℕ) c c', t.sessions[i]? = some c → t.sessions[j]? = some c' →
        c.enqueued = true → c'.enqueued = true → i = j) ∧
      ∀ (i j : ℕ) c c' run run', t.sessions[i]? = some c → t.sessions[j]? = some c' →
        c.phase = .answered (.accepted run) → c'.phase = .answered (.accepted run') →
          run.id = run'.id := by
  have hrun : ∃ t, Run (Under (OneMiss "demo-run-001") (ofNext Clients.next)) demoClients
      [(0, true), (0, true), (0, true), (1, true), (0, true), (1, true), (0, true), (1, true)] t :=
    ⟨_, restrict_run rfl⟩
  obtain ⟨t, ht⟩ := hrun
  exact ⟨t, ht, one_run_per_key (by decide) demoClients_start (by decide) ht⟩

end AegisPlatform.Api
