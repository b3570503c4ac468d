import AegisPlatform.Api.Paging
import AegisPlatform.Api.Platform

/-! # Browsing while the platform goes on

A client asks for one page of `GET /runs` after the other until the last answer counts no more pages,
and between two of its requests anything may happen: runs are triggered, executed, cancelled, and
suites are deleted with their runs.

New runs stand in front and push the others back, so a run that is stored all the while is shown,
perhaps twice. Only a deletion moves runs forward: one of a newer run can hide another, and where the
client asks for the runs of one suite not even that.
-/

namespace AegisPlatform.Api
open Foundations Domain Core Db Services Workers
set_option autoImplicit false
set_option maxHeartbeats 250000

/-! ## A walk to the last page -/

section
variable {ρ K : Type} [LinearOrder K] {readable : ρ → Bool} {key : ρ → K} {c : K} {size n : ℕ}

theorem admitted_of_answer {rows ordered : List ρ} {page : ℤ} {answer : Page ρ}
    (h : listPage readable rows ordered page size = some answer) : 1 ≤ size ∧ size ≤ 100 := by
  unfold listPage at h
  split at h
  · cases h
  · next pagination hpagination =>
    obtain ⟨-, -, hpos, hmax⟩ := getPagination_eq_some_iff.mp hpagination
    change (size : ℤ) ≤ 100 at hmax
    omega

/-- A row that is there all the time and never moves forward is on one of the pages. -/
theorem exists_page {contents orders : ℕ → List ρ} {answers : ℕ → Page ρ}
    (hanswers : ∀ k ≤ n,
      listPage readable (contents k) (orders k) (k + 1 : ℕ) size = some (answers k))
    (hstop : (answers n).pages ≤ n + 1) (horders : ∀ k ≤ n, OrderBy key (contents k) (orders k))
    (hkeys : ∀ k ≤ n, ((contents k).map key).Nodup)
    (hstored : ∀ k ≤ n, ∃ a ∈ contents k, key a = c)
    (hahead : ∀ k < n, ahead key c (contents k) ≤ ahead key c (contents (k + 1))) :
    ∃ k ≤ n, ∃ a ∈ (answers k).items, key a = c := by
  obtain ⟨hpos, hmax⟩ := admitted_of_answer (hanswers n (Nat.le_refl n))
  have hanswer : ∀ k ≤ n, answers k =
      Page.create (window size k (orders k)) (contents k).length ⟨(k + 1 : ℕ), size⟩ := by
    intro k hk
    have hget := hanswers k hk
    rw [listPage_eq _ _ _ hpos hmax] at hget
    split at hget
    · exact (Option.some.inj hget).symm
    · cases hget
  have hlast : (contents n).length ≤ (n + 1) * size := by
    rw [hanswer n (Nat.le_refl n), pages_create _ _ _ hpos] at hstop
    exact (ceilDiv_le_iff _ hpos).mp (by omega)
  obtain ⟨k, hk, a, ha, hc⟩ := exists_window_of_ahead_le horders hkeys hstored hahead hlast
  refine ⟨k, hk, a, ?_, hc⟩
  rw [hanswer k hk]
  exact ha

end

/-! ## What becomes of the runs -/

/-- Of the runs that were stored each is stored in its suite, but for those of the suite `gone`,
which are deleted. -/
def RunsMove (gone : Option Uuid) (db db' : Database) : Prop :=
  ∀ r run, db.runs.get? r = some run →
    if gone = some run.suiteId then db'.runs.get? r = none
    else ∃ run', db'.runs.get? r = some run' ∧ run'.suiteId = run.suiteId

section
variable {db db' : Database} {user : User}

theorem RunsMove.of_runs (h : db'.runs = db.runs) : RunsMove none db db' := by
  intro r run hrun
  rw [if_neg (Option.some_ne_none _).symm, h]
  exact ⟨run, hrun, rfl⟩

theorem RunsMove.of_setRun (db : Database) (loaded current : TestRun) :
    RunsMove none db (db.setRun loaded current) := by
  intro r run hrun
  rw [if_neg (Option.some_ne_none _).symm]
  by_cases hr : r = loaded.id
  · subst hr
    exact ⟨_, Database.get?_setRun current hrun, rfl⟩
  · exact ⟨run, (Database.get?_setRun_of_ne hr).trans hrun, rfl⟩

theorem RunsMove.of_deleteSuite (db : Database) (suiteId : Uuid) :
    RunsMove (some suiteId) db (db.deleteSuite suiteId) := by
  intro r run hrun
  have hiff := Table.get?_filter_eq_some_iff db.runs (fun row => row.suiteId != suiteId) r
  split
  · next hgone =>
    obtain rfl := Option.some.inj hgone
    refine Option.eq_none_iff_forall_ne_some.mpr fun run' hrun' => ?_
    obtain ⟨hstored, hkept⟩ := (hiff run').mp hrun'
    obtain rfl := Option.some.inj (hrun.symm.trans hstored)
    simp at hkept
  · next hkept =>
    refine ⟨run, (hiff run).mpr ⟨hrun, ?_⟩, rfl⟩
    simpa using fun heq : run.suiteId = suiteId => hkept (congrArg some heq.symm)

theorem effect_runsMove {userId : Uuid} {commits : Bool} {request : Request} {called : Option Uuid}
    (h : Effect db userId commits request db' called) : ∃ gone, RunsMove gone db db' := by
  cases h with
  | nothing => exact ⟨none, .of_runs rfl⟩
  | createRun =>
    refine ⟨none, fun r run hrun => ?_⟩
    have hne : r ≠ db.runs.next := Nat.ne_of_lt (Table.get?_lt hrun)
    rw [if_neg (Option.some_ne_none _).symm]
    refine ⟨run, ?_, rfl⟩
    show (db.runs.insert _ fun _ => RunService.id_newRun ..).get? r = some run
    rw [Table.get?_insert_of_ne _ _ _ hne]
    exact hrun
  | write huser hcommits hwrite =>
    cases hwrite with
    | nothing => exact ⟨none, .of_runs rfl⟩
    | createSuite => exact ⟨none, .of_runs rfl⟩
    | updateSuite => exact ⟨none, .of_runs rfl⟩
    | deleteSuite => exact ⟨_, RunsMove.of_deleteSuite db _⟩
    | addCase => exact ⟨none, .of_runs rfl⟩
    | cancelRun => exact ⟨none, RunsMove.of_setRun db _ _⟩
    | review => exact ⟨none, .of_runs rfl⟩

theorem cancel_runsMove {runId : Uuid} {commits : Bool} {phase phase' : CancelPhase}
    (h : CancelStep runId commits db phase db' phase') : RunsMove none db db' := by
  cases h with
  | refuse => exact .of_runs rfl
  | load => exact .of_runs rfl
  | commit => exact RunsMove.of_setRun db _ _
  | fail => exact .of_runs rfl
  | done => exact .of_runs rfl

variable [Unicode]

theorem platform_runsMove {s t : Pool} {l : PlatformLabel} (hs : Coherent s)
    (h : ofNext Platform.next s l t) : ∃ gone, RunsMove gone s.world.db t.world.db := by
  cases l with
  | request userId request commits enqueues =>
    obtain rfl := Option.some.inj h
    exact effect_runsMove (handle_effect s.world.db userId commits enqueues request)
  | register hashPassword data =>
    simp only [ofNext, Platform.next] at h
    split at h
    · obtain rfl := Option.some.inj h
      exact ⟨none, .of_runs rfl⟩
    · next user db hregister =>
      obtain rfl := Option.some.inj h
      obtain ⟨-, -, hdb⟩ := register_ok hregister
      exact ⟨none, .of_runs (by rw [hdb]; rfl)⟩
  | deliver i env =>
    obtain ⟨d, w, phase, hd, -, step, rfl⟩ := deliver_next (i := i) h
    rcases phase_writes step (hs.deliveries i d hd) with
      hsame | ⟨loaded, current, -, results, events, -, -, -, -, hdb⟩
    · exact ⟨none, .of_runs (by rw [hsame])⟩
    · exact ⟨none, hdb ▸ RunsMove.of_setRun (s.world.db.insertStepRows results events) _ _⟩
  | arrive userId runId =>
    simp only [ofNext, Platform.next] at h
    split at h
    · obtain rfl := Option.some.inj h
      exact ⟨none, .of_runs rfl⟩
    · obtain rfl := Option.some.inj h
      exact ⟨none, .of_runs rfl⟩
  | cancel i commits =>
    cases pool_step (l := .cancel i commits) h with
    | cancel hc step => exact ⟨none, cancel_runsMove step⟩

variable {s t : Pool} {ls : List PlatformLabel}

theorem coherent_run (hs : Coherent s) (h : Run (ofNext Platform.next) s ls t) :
    Coherent t ∧ s.world.db.Evolves t.world.db := by
  refine h.invariant (I := fun u => Coherent u ∧ s.world.db.Evolves u.world.db) ?_ ⟨hs, .refl _⟩
  rintro u l v ⟨hu, hevolves⟩ hstep
  exact ⟨coherent_step hu hstep, hevolves.trans (platform_evolves hu hstep)⟩

/-- Runs of one suite stay together: while one of them is stored the other is. -/
theorem stored_together {r r' : Uuid} {run run' : TestRun} (hs : Coherent s)
    (h : Run (ofNext Platform.next) s ls t) (hrun : s.world.db.runs.get? r = some run)
    (hrun' : s.world.db.runs.get? r' = some run') (hsuite : run'.suiteId = run.suiteId)
    (hstored : ∃ row, t.world.db.runs.get? r = some row) :
    ∃ row, t.world.db.runs.get? r' = some row ∧ row.suiteId = run.suiteId := by
  have hboth : Coherent t ∧ (t.world.db.runs.Gone r ∨
      ∃ row row', t.world.db.runs.get? r = some row ∧ row.suiteId = run.suiteId ∧
        t.world.db.runs.get? r' = some row' ∧ row'.suiteId = run.suiteId) := by
    refine h.invariant (I := fun u => Coherent u ∧ (u.world.db.runs.Gone r ∨
      ∃ row row', u.world.db.runs.get? r = some row ∧ row.suiteId = run.suiteId ∧
        u.world.db.runs.get? r' = some row' ∧ row'.suiteId = run.suiteId)) ?_
      ⟨hs, Or.inr ⟨run, run', hrun, rfl, hrun', hsuite⟩⟩
    rintro u l v ⟨hu, hthere⟩ hstep
    have hevolves := platform_evolves hu hstep
    refine ⟨coherent_step hu hstep, ?_⟩
    rcases hthere with hgone | ⟨row, row', hrow, hof, hrow', hof'⟩
    · exact Or.inl (hevolves.runs.gone r hgone)
    · obtain ⟨gone, hmove⟩ := platform_runsMove hu hstep
      have hthis := hmove r row hrow
      have hother := hmove r' row' hrow'
      rw [hof] at hthis
      rw [hof'] at hother
      split at hthis
      · exact Or.inl ⟨Nat.lt_of_lt_of_le (Table.get?_lt hrow) hevolves.runs.next_le, hthis⟩
      · next hkept =>
        rw [if_neg hkept] at hother
        obtain ⟨row₁, hrow₁, hof₁⟩ := hthis
        obtain ⟨row₂, hrow₂, hof₂⟩ := hother
        exact Or.inr ⟨row₁, row₂, hrow₁, hof₁, hrow₂, hof₂⟩
  obtain ⟨row, hrow⟩ := hstored
  rcases hboth.2 with ⟨-, hnone⟩ | ⟨-, row', -, -, hrow', hof'⟩
  · rw [hrow] at hnone
    cases hnone
  · exact ⟨row', hrow', hof'⟩

omit [Unicode] in
theorem mem_matching {db : Database} {suiteId : Option Uuid} {run : TestRun} :
    run ∈ matching db suiteId ↔
      db.runs.get? run.id = some run ∧ ∀ id ∈ suiteId, run.suiteId = id := by
  have hmem : run ∈ db.runs.rows ↔ db.runs.get? run.id = some run :=
    ⟨Table.get?_of_mem, Table.get?_mem⟩
  cases suiteId with
  | none => simpa [matching] using hmem
  | some suiteId => simp [matching, Database.runsOf, hmem]

omit [Unicode] in
theorem matching_keys_nodup (db : Database) {createdAt : Uuid → DateTime}
    (h : Function.Injective createdAt) (suiteId : Option Uuid) :
    ((matching db suiteId).map fun run => createdAt run.id).Nodup := by
  have hall : (db.runs.rows.map fun run => createdAt run.id).Nodup := by
    have hids := db.runs.nodup.map h
    rwa [List.map_map] at hids
  cases suiteId with
  | none => exact hall
  | some suiteId => exact hall.sublist (List.filter_sublist.map _)

/-! ## The walk -/

section
variable {createdAt : Uuid → DateTime} {suiteId : Option Uuid} {size n : ℕ} {states : ℕ → Pool}

/-- A client walks through `GET /runs`: page `k + 1` is answered in the state `states k`, and the
last answer counts no further page. -/
structure Browses (createdAt : Uuid → DateTime) (suiteId : Option Uuid) (size n : ℕ)
    (states : ℕ → Pool) (answers : ℕ → Page TestRun) : Prop where
  goes_on : ∀ k < n, ∃ ls, Run (ofNext Platform.next) (states k) ls (states (k + 1))
  answered : ∀ k ≤ n, ∃ ordered,
    OrderBy (fun run => createdAt run.id) (matching (states k).world.db suiteId) ordered ∧
      listRuns (states k).world.db suiteId ordered (k + 1 : ℕ) size = some (answers k)
  stops : (answers n).pages ≤ n + 1

theorem Browses.reaches {answers : ℕ → Page TestRun}
    (h : Browses createdAt suiteId size n states answers) {j k : ℕ} (hjk : j ≤ k) (hk : k ≤ n) :
    ∃ ls, Run (ofNext Platform.next) (states j) ls (states k) := by
  induction k, hjk using Nat.le_induction with
  | base => exact ⟨[], Run.nil _⟩
  | succ k hjk ih =>
    obtain ⟨ls, hls⟩ := ih (by omega)
    obtain ⟨ms, hms⟩ := h.goes_on k (by omega)
    exact ⟨ls ++ ms, hls.trans hms⟩

/-- Stored on the first page and on the last, stored on every page. -/
theorem Browses.stored {answers : ℕ → Page TestRun}
    (h : Browses createdAt suiteId size n states answers) (hstart : Coherent (states 0)) {r : Uuid}
    (hfirst : ∃ run ∈ matching (states 0).world.db suiteId, run.id = r)
    (hlast : ∃ run ∈ matching (states n).world.db suiteId, run.id = r) {k : ℕ} (hk : k ≤ n) :
    ∃ run ∈ matching (states k).world.db suiteId, run.id = r := by
  obtain ⟨first, hmem, rfl⟩ := hfirst
  obtain ⟨last, hmem', hid⟩ := hlast
  obtain ⟨hget, hof⟩ := mem_matching.mp hmem
  have hget' := (mem_matching.mp hmem').1
  rw [hid] at hget'
  obtain ⟨ls, hls⟩ := h.reaches (Nat.zero_le k) hk
  obtain ⟨ms, hms⟩ := h.reaches hk (Nat.le_refl n)
  obtain ⟨hcoherent, hevolves⟩ := coherent_run hstart hls
  have hgiven := Nat.lt_of_lt_of_le (Table.get?_lt hget) hevolves.runs.next_le
  have hthere := (coherent_run hcoherent hms).2.runs.stored hgiven hget'
  obtain ⟨run, hrun, hsuite⟩ := stored_together hstart hls hget hget rfl hthere
  have hrun_id : run.id = first.id := Table.get?_key hrun
  refine ⟨run, mem_matching.mpr ⟨?_, fun id hid => hsuite.trans (hof id hid)⟩, hrun_id⟩
  rw [hrun_id]
  exact hrun

/-- A run that is listed is listed for the next page too, unless it was deleted: in the list of one suite it would
have taken the run that is looked for along. -/
theorem Browses.kept {answers : ℕ → Page TestRun}
    (h : Browses createdAt suiteId size n states answers) (hstart : Coherent (states 0)) {r : Uuid}
    (hfirst : ∃ run ∈ matching (states 0).world.db suiteId, run.id = r)
    (hlast : ∃ run ∈ matching (states n).world.db suiteId, run.id = r) {k : ℕ} (hk : k < n)
    {a : TestRun} (ha : a ∈ matching (states k).world.db suiteId)
    (hkept : suiteId = none → ¬ (states (k + 1)).world.db.runs.Gone a.id) :
    ∃ b ∈ matching (states (k + 1)).world.db suiteId, b.id = a.id := by
  obtain ⟨ls, hls⟩ := h.reaches (Nat.zero_le k) (Nat.le_of_lt hk)
  obtain ⟨ms, hms⟩ := h.goes_on k hk
  have hcoherent := (coherent_run hstart hls).1
  obtain ⟨hget, hof⟩ := mem_matching.mp ha
  cases suiteId with
  | none =>
    have hgiven := Nat.lt_of_lt_of_le (Table.get?_lt hget)
      (coherent_run hcoherent hms).2.runs.next_le
    rcases Table.gone_or_stored hgiven with hgone | ⟨b, hb⟩
    · exact absurd hgone (hkept rfl)
    · exact ⟨b, Table.get?_mem hb, Table.get?_key hb⟩
  | some id =>
    obtain ⟨run, hrun, hid⟩ := h.stored hstart hfirst hlast (Nat.le_of_lt hk)
    obtain ⟨next, hnext, hnext_id⟩ := h.stored hstart hfirst hlast hk
    obtain ⟨hrun_get, hrun_of⟩ := mem_matching.mp hrun
    have hnext_get := (mem_matching.mp hnext).1
    rw [hid] at hrun_get
    rw [hnext_id] at hnext_get
    have hsuite : a.suiteId = run.suiteId := (hof id rfl).trans (hrun_of id rfl).symm
    obtain ⟨b, hb, hb_of⟩ := stored_together hcoherent hms hrun_get hget hsuite ⟨next, hnext_get⟩
    have hb_id : b.id = a.id := Table.get?_key hb
    refine ⟨b, mem_matching.mpr ⟨?_, fun id' hid' => ?_⟩, hb_id⟩
    · rw [hb_id]
      exact hb
    · exact hb_of.trans (hrun_of id' hid')

/-- A run that is stored from the first page to the last is on one of them, unless a newer run was
deleted between two pages; in the list of one suite it is in any case. -/
theorem browsed (hclock : StrictMono createdAt) {answers : ℕ → Page TestRun} {s₀ : Pool}
    (hinitial : Platform.Initial s₀) (hbefore : Run (ofNext Platform.next) s₀ ls (states 0))
    (h : Browses createdAt suiteId size n states answers) {r : Uuid}
    (hfirst : ∃ run ∈ matching (states 0).world.db suiteId, run.id = r)
    (hlast : ∃ run ∈ matching (states n).world.db suiteId, run.id = r) :
    (∃ k ≤ n, ∃ run ∈ (answers k).items, run.id = r) ∨
      suiteId = none ∧ ∃ k < n, ∃ run ∈ (states k).world.db.runs.rows, r < run.id ∧
        (states (k + 1)).world.db.runs.Gone run.id := by
  have hstart := (coherent_run (initial_coherent hinitial) hbefore).1
  rw [or_iff_not_imp_right]
  intro hdeleted
  choose! orders horders hanswers using h.answered
  have hkept : ∀ k < n, ∀ a ∈ matching (states k).world.db suiteId, createdAt r < createdAt a.id →
      ∃ b ∈ matching (states (k + 1)).world.db suiteId, createdAt b.id = createdAt a.id := by
    intro k hk a ha hnewer
    obtain ⟨b, hb, hid⟩ := h.kept hstart hfirst hlast hk ha
      fun hnone hgone => hdeleted
        ⟨hnone, k, hk, a, Table.get?_mem (mem_matching.mp ha).1, hclock.lt_iff_lt.mp hnewer, hgone⟩
    exact ⟨b, hb, congrArg createdAt hid⟩
  obtain ⟨k, hk, run, hrun, hid⟩ := exists_page (c := createdAt r) hanswers h.stops horders
    (fun k _ => matching_keys_nodup _ hclock.injective suiteId)
    (fun k hk => by
      obtain ⟨run, hrun, hid⟩ := h.stored hstart hfirst hlast hk
      exact ⟨run, hrun, congrArg createdAt hid⟩)
    (fun k hk => ahead_le (matching_keys_nodup _ hclock.injective suiteId) (hkept k hk))
  exact ⟨k, hk, run, hrun, hclock.injective hid⟩

end

end

/-! ## A run triggered between two pages -/

def adaTriggers : PlatformLabel := .request 0 (.triggerRun 0 {} none) true true

/-- Ada's suite with two runs. -/
def adaRunsTwice : List PlatformLabel :=
  [.register id { email := "Ada@example.com", fullName := "Ada", password := "engine no. 1" },
    .request 0 (.write (.createSuite
      { name := "Login", slug := "login", targetBaseUrl := "https://example.com"
        cases := [{ name := "Sign in", steps := loginSteps }] })) true true,
    adaTriggers, adaTriggers]

def newestFirst (db : Database) (page : ℤ) : Option (Page TestRun) :=
  listRuns db (some 0) (matching db (some 0)).reverse page (1 : ℕ)

theorem matching_orderBy (db : Database) (suiteId : Option Uuid) :
    OrderBy (fun run => run.id) (matching db suiteId) (matching db suiteId).reverse := by
  refine orderBy_reverse ?_
  have hall := (List.pairwise_map.mp db.runs.increasing).imp fun h => Nat.le_of_lt h
  cases suiteId with
  | none => exact hall
  | some suiteId => exact hall.sublist List.filter_sublist

/-- The run triggered after the first page makes the second page show the run of the first one
again; the oldest run is on the third. -/
theorem ada_browsed :
    ∃ (states : ℕ → Pool) (answers : ℕ → Page TestRun),
      @Browses asciiUnicode id (some 0) 1 2 states answers ∧
      (List.range 3).map (fun k => (answers k).items.map TestRun.id) = [[1], [1], [0]] ∧
      ∃ k ≤ 2, ∃ run ∈ (answers k).items, run.id = 0 := by
  let _ : Unicode := asciiUnicode
  have hrun : ∃ s t a₀ a₁ a₂, Run (ofNext Platform.next) emptyPlatform adaRunsTwice s ∧
      Platform.next s adaTriggers = some t ∧
      newestFirst s.world.db 1 = some a₀ ∧ newestFirst t.world.db 2 = some a₁ ∧
      newestFirst t.world.db 3 = some a₂ ∧ a₂.pages = 3 ∧
      a₀.items.map TestRun.id = [1] ∧ a₁.items.map TestRun.id = [1] ∧
      a₂.items.map TestRun.id = [0] ∧
      (∃ run ∈ matching s.world.db (some 0), run.id = 0) ∧
      (∃ run ∈ matching t.world.db (some 0), run.id = 0) :=
    ⟨_, _, _, _, _, exec_run rfl, rfl, rfl, rfl, rfl, by decide, by decide, by decide, by decide,
      ⟨_, List.mem_cons_self, rfl⟩, ⟨_, List.mem_cons_self, rfl⟩⟩
  obtain ⟨s, t, a₀, a₁, a₂, hbefore, htrigger, h₀, h₁, h₂, hpages, hi₀, hi₁, hi₂, hfirst, hlast⟩ := hrun
  let states : ℕ → Pool := fun k => if k = 0 then s else t
  let answers : ℕ → Page TestRun := fun k => if k = 0 then a₀ else if k = 1 then a₁ else a₂
  have hbrowses : Browses id (some 0) 1 2 states answers := by
    refine ⟨?_, ?_, ?_⟩
    · intro k hk
      obtain rfl | rfl : k = 0 ∨ k = 1 := by omega
      · exact ⟨[adaTriggers], Run.single htrigger⟩
      · exact ⟨[], Run.nil t⟩
    · intro k hk
      refine ⟨_, matching_orderBy _ _, ?_⟩
      obtain rfl | rfl | rfl : k = 0 ∨ k = 1 ∨ k = 2 := by omega
      · exact h₀
      · exact h₁
      · exact h₂
    · show a₂.pages ≤ _
      rw [hpages]
      decide
  have hshown := browsed (r := 0) strictMono_id emptyPlatform_initial hbefore hbrowses hfirst hlast
  refine ⟨states, answers, hbrowses, ?_, hshown.resolve_right fun h => ?_⟩
  · show [a₀.items.map TestRun.id, a₁.items.map TestRun.id, a₂.items.map TestRun.id] = _
    rw [hi₀, hi₁, hi₂]
  · cases h.1

end AegisPlatform.Api
