import AegisPlatform.Api.SuiteView
import AegisPlatform.Workers.Terminal

/-! # Accounts that own nothing of a suite

A group of accounts without an admin sends requests in any order, registers further accounts into
the group, and the workers execute the runs it enqueued, one access at a time. `Confined` is what
one such step can do to the database. The run of an outsider's suite is reached neither by the
cancel endpoint, whose rule asks for the creator of the run, nor by a worker, which only writes the
row it was handed.
-/

namespace AegisPlatform.Api
open Foundations Domain Core Db Services Workers
set_option autoImplicit false
set_option maxHeartbeats 250000

/-! ## What a step of the group can do -/

/-- The suites `P` exist, and neither they nor their runs are of the group. -/
structure Outside (members : List Uuid) (P : Uuid → Prop) (db : Database) : Prop where
  owner : ∀ suiteId, P suiteId →
    ∃ suite, db.suites.get? suiteId = some suite ∧ suite.ownerId ∉ members
  creator : ∀ suiteId, P suiteId → ∀ run ∈ db.runsOf suiteId, ∀ userId,
    run.createdById = some userId → userId ∉ members

/-- The suites `P` are as before; new suites are of the group, and new runs of other suites. -/
structure Confined (members : List Uuid) (P : Uuid → Prop) (db db' : Database) : Prop where
  users : db'.users = db.users
  suites : ∀ suite ∈ db'.suites.rows, suite ∈ db.suites.rows ∨ suite.ownerId ∈ members
  views : ∀ suiteId, P suiteId → suiteView db' suiteId = suiteView db suiteId
  runs : ∀ run ∈ db'.runs.rows,
    (∃ row ∈ db.runs.rows, run.id = row.id ∧ run.suiteId = row.suiteId) ∨
      run.id = db.runs.next ∧ ¬ P run.suiteId
  next : db.runs.next ≤ db'.runs.next

section
variable {members : List Uuid} {P : Uuid → Prop} {db db' : Database} {user : User}
  {suiteId : Uuid}

theorem Confined.refl (members : List Uuid) (P : Uuid → Prop) (db : Database) :
    Confined members P db db where
  users := rfl
  suites := fun _ hsuite => Or.inl hsuite
  views := fun _ _ => rfl
  runs := fun run hrun => Or.inl ⟨run, hrun, rfl, rfl⟩
  next := le_refl _

/-- A change that leaves accounts and runs alone. -/
theorem confined_of_runs (husers : db'.users = db.users) (hruns : db'.runs = db.runs)
    (hsuites : ∀ suite ∈ db'.suites.rows, suite ∈ db.suites.rows ∨ suite.ownerId ∈ members)
    (hviews : ∀ suiteId, P suiteId → suiteView db' suiteId = suiteView db suiteId) :
    Confined members P db db' where
  users := husers
  suites := hsuites
  views := hviews
  runs := by
    rw [hruns]
    exact fun run hrun => Or.inl ⟨run, hrun, rfl, rfl⟩
  next := by
    rw [hruns]

theorem Outside.of_views (ho : Outside members P db)
    (h : ∀ suiteId, P suiteId → suiteView db' suiteId = suiteView db suiteId) :
    Outside members P db' where
  owner := by
    intro suiteId hp
    have hsuite : db'.suites.get? suiteId = db.suites.get? suiteId := congrArg Prod.fst (h suiteId hp)
    rw [hsuite]
    exact ho.owner suiteId hp
  creator := by
    intro suiteId hp
    rw [runsOf_suiteView (h suiteId hp)]
    exact ho.creator suiteId hp

/-- A suite of the group is none of `P`. -/
theorem Outside.ne (ho : Outside members P db) {suite : TestSuite}
    (hget : db.suites.get? suite.id = some suite) (hmember : suite.ownerId ∈ members)
    (hp : P suiteId) : suiteId ≠ suite.id := by
  intro hsame
  obtain ⟨suite', hget', houtside⟩ := ho.owner suiteId hp
  rw [hsame, hget] at hget'
  obtain rfl := Option.some.inj hget'
  exact houtside hmember

/-- A run created by the group is none of a suite in `P`. -/
theorem Outside.notOf (ho : Outside members P db) {run : TestRun} {userId : Uuid}
    (hget : db.runs.get? run.id = some run) (hcreator : run.createdById = some userId)
    (hmember : userId ∈ members) (hp : P suiteId) : NotOf db suiteId run.id := by
  intro row hrow hid hsuite
  have hsame := Table.get?_of_mem hrow
  rw [hid, hget] at hsame
  obtain rfl := Option.some.inj hsame
  exact ho.creator suiteId hp run (mem_runsOf.mpr ⟨hrow, hsuite⟩) userId hcreator hmember

theorem confined_setRun (members : List Uuid) {loaded : TestRun} (current : TestRun)
    (h : ∀ suiteId, P suiteId → NotOf db suiteId loaded.id) :
    Confined members P db (db.setRun loaded current) where
  users := rfl
  suites := fun _ hsuite => Or.inl hsuite
  views := fun suiteId hp => suiteView_setRun current (h suiteId hp)
  runs := by
    intro run hrun
    obtain ⟨row, hrow, rfl⟩ := Database.mem_setRun hrun
    refine Or.inl ⟨row, hrow, ?_⟩
    split
    · exact ⟨rfl, rfl⟩
    · exact ⟨rfl, rfl⟩
  next := le_refl _

theorem Confined.trans {db'' : Database} (h : Confined members P db db')
    (k : Confined members P db' db'') (hnext : db'.runs.next = db.runs.next) :
    Confined members P db db'' where
  users := k.users.trans h.users
  suites := by
    intro suite hsuite
    rcases k.suites suite hsuite with hold | hmember
    · exact h.suites suite hold
    · exact Or.inr hmember
  views := fun suiteId hp => (k.views suiteId hp).trans (h.views suiteId hp)
  runs := by
    intro run hrun
    rcases k.runs run hrun with ⟨row, hrow, hid, hsuite⟩ | ⟨hid, hother⟩
    · rcases h.runs row hrow with ⟨row', hrow', hid', hsuite'⟩ | ⟨hid', hother⟩
      · exact Or.inl ⟨row', hrow', hid.trans hid', hsuite.trans hsuite'⟩
      · exact Or.inr ⟨hid.trans hid', hsuite ▸ hother⟩
    · exact Or.inr ⟨hid.trans hnext, hother⟩
  next := h.next.trans k.next

theorem write_confined {write : Write} (h : WriteEffect db user write db')
    (ho : Outside members P db) (hmember : user.id ∈ members) (hrole : user.role ≠ .admin) :
    Confined members P db db' := by
  have howner : ∀ suite : TestSuite, user.role = .admin ∨ suite.ownerId = user.id →
      suite.ownerId ∈ members := by
    rintro suite (hadmin | howner)
    · exact absurd hadmin hrole
    · rw [howner]
      exact hmember
  cases h with
  | nothing => exact Confined.refl members P db
  | createSuite data =>
    refine confined_of_runs rfl rfl ?_ ?_
    · intro suite hsuite
      rcases List.mem_append.mp hsuite with hold | hnew
      · exact Or.inl hold
      · rw [List.mem_singleton.mp hnew]
        exact Or.inr hmember
    · intro suiteId hp
      obtain ⟨suite, hget, -⟩ := ho.owner suiteId hp
      exact suiteView_insertSuite data user.id (Nat.ne_of_lt (Table.get?_lt hget))
  | @updateSuite suite suite' _ _ hget hallowed hid hsame =>
    refine confined_of_runs rfl rfl ?_ ?_
    · intro row hrow
      obtain ⟨stored, hstored, rfl⟩ := List.mem_map.mp hrow
      dsimp only
      split
      · right
        exact hsame ▸ howner suite hallowed
      · exact Or.inl hstored
    · intro suiteId hp
      apply suiteView_setSuite
      rw [hid]
      exact ho.ne hget (howner suite hallowed) hp
  | @deleteSuite suite _ hget hallowed =>
    refine ⟨rfl, fun _ hrow => Or.inl (List.mem_of_mem_filter hrow), ?_, ?_, le_refl _⟩
    · exact fun suiteId hp => suiteView_deleteSuite (ho.ne hget (howner suite hallowed) hp)
    · exact fun run hrun => Or.inl ⟨run, List.mem_of_mem_filter hrun, rfl, rfl⟩
  | @addCase suite _ data hget hallowed =>
    refine confined_of_runs rfl rfl (fun _ hrow => Or.inl hrow) ?_
    exact fun suiteId hp => suiteView_insertCase data (ho.ne hget (howner suite hallowed) hp)
  | @cancelRun runId run hrow hlive =>
    obtain ⟨hget, hallowed⟩ := RunService.cancellable_ok hrow
    rw [← Table.get?_key hget] at hget
    apply confined_setRun
    intro suiteId hp
    rcases hallowed with hadmin | hcreator
    · exact absurd hadmin hrole
    · exact ho.notOf hget hcreator hmember hp
  | review eventId accepted =>
    exact confined_of_runs rfl rfl (fun _ hrow => Or.inl hrow) fun suiteId hp => rfl

/-- A member that is no admin acts on what the group owns or created. -/
theorem effect_confined {userId : Uuid} {commits : Bool} {request : Request} {called : Option Uuid}
    (h : Effect db userId commits request db' called) (ho : Outside members P db)
    (hmember : userId ∈ members)
    (hrole : ∀ user, db.users.get? userId = some user → user.role ≠ .admin) :
    Confined members P db db' := by
  cases h with
  | nothing => exact Confined.refl members P db
  | @write user write _ huser hcommits h =>
    have hget := engineer_ok huser
    exact write_confined h ho ((Table.get?_key hget).symm ▸ hmember) (hrole user hget)
  | @createRun user suite cases suiteId data idempotencyKey huser hrunnable =>
    have hget := engineer_ok huser
    obtain ⟨hsuite, hallowed⟩ := RunService.runnable_suite hrunnable
    have howner : suite.ownerId ∈ members := by
      rcases hallowed with hadmin | howner
      · exact absurd hadmin (hrole user hget)
      · rw [howner, Table.get?_key hget]
        exact hmember
    have hother : ∀ suiteId, P suiteId → suiteId ≠ suite.id :=
      fun suiteId hp => ho.ne hsuite howner hp
    refine ⟨rfl, fun _ hrow => Or.inl hrow, ?_, ?_, Nat.le_succ _⟩
    · exact fun suiteId hp => suiteView_insertRun cases data user idempotencyKey (hother suiteId hp)
    · intro run hrun
      rcases List.mem_append.mp hrun with hold | hnew
      · exact Or.inl ⟨run, hold, rfl, rfl⟩
      · rw [List.mem_singleton.mp hnew]
        exact Or.inr ⟨rfl, fun hp => hother _ hp rfl⟩

/-- A worker writes the run it was handed and no other. -/
theorem phase_confined [Unicode] (members : List Uuid) {env : Env} {runId : Uuid}
    {phase phase' : ExecutorPhase} (h : PhaseStep env runId db phase db' phase')
    (hof : phase.Of runId) (hnot : ∀ suiteId, P suiteId → NotOf db suiteId runId) :
    Confined members P db db' := by
  rcases phase_writes h hof with rfl | ⟨loaded, current, -, results, events, rfl, -, hresults, -, rfl⟩
  · exact Confined.refl members P _
  · have hinsert : Confined members P db (db.insertStepRows results events) :=
      confined_of_runs rfl rfl (fun _ hsuite => Or.inl hsuite) fun suiteId hp =>
        suiteView_insertStepRows events hresults (hnot suiteId hp)
    refine hinsert.trans ?_ rfl
    exact confined_setRun members current hnot

/-- The run is none of a suite in `P`, and its id is in use. -/
structure Inside (P : Uuid → Prop) (db : Database) (runId : Uuid) : Prop where
  used : runId < db.runs.next
  notOf : ∀ suiteId, P suiteId → NotOf db suiteId runId

theorem Confined.inside (h : Confined members P db db') {runId : Uuid}
    (hin : Inside P db runId) : Inside P db' runId where
  used := Nat.lt_of_lt_of_le hin.used h.next
  notOf := by
    rintro suiteId hp run hrun rfl rfl
    rcases h.runs run hrun with ⟨row, hrow, hid, hsuite⟩ | ⟨-, hother⟩
    · exact hin.notOf _ hp row hrow hid.symm hsuite.symm
    · exact hother hp

theorem Confined.inside_next (h : Confined members P db db')
    (hnext : db.runs.next < db'.runs.next) : Inside P db' db.runs.next where
  used := hnext
  notOf := by
    rintro suiteId hp run hrun hid rfl
    rcases h.runs run hrun with ⟨row, hrow, hid', -⟩ | ⟨-, hother⟩
    · have hbelow := db.runs.below row hrow
      rw [← hid', hid] at hbelow
      exact absurd hbelow (lt_irrefl _)
    · exact hother hp

/-- `enqueue` is called with the run just created. -/
theorem effect_called {userId runId : Uuid} {commits : Bool} {request : Request}
    (h : Effect db userId commits request db' (some runId)) :
    runId = db.runs.next ∧ db.runs.next < db'.runs.next := by
  cases h with
  | createRun data idempotencyKey huser hrunnable => exact ⟨rfl, Nat.lt_succ_self _⟩

end

/-! ## The coalition -/

/-- The accounts `members` with the runs their requests enqueued and the workers on them. -/
structure Coalition where
  world : World
  members : List Uuid
  queue : List Uuid := []
  workers : List Delivery := []

inductive CoalitionLabel
  | request (userId : Uuid) (request : Request) (commits enqueues : Bool)
  | register (data : UserCreate) (hashedPassword : String) (commits : Bool)
  | deliver (runId : Uuid)
  | work (i : ℕ) (env : Env)

namespace Coalition

section
variable [Unicode]

-- a run id in the queue may be delivered any number of times
def next (s : Coalition) : CoalitionLabel → Option Coalition
  | .request userId request commits enqueues =>
    if userId ∈ s.members then
      let (db, called, _) := handle s.world.db userId commits enqueues request
      some { s with
        world := { s.world with db := db }
        queue := s.queue ++ if enqueues then called.toList else [] }
    else none
  | .register data hashedPassword commits =>
    match register (fun _ => hashedPassword) s.world.db data with
    | .error _ => some s
    | .ok (user, db) =>
      if commits then
        some { s with world := { s.world with db := db }, members := s.members ++ [user.id] }
      else some s
  | .deliver runId =>
    if runId ∈ s.queue then some { s with workers := s.workers ++ [{ runId := runId }] } else none
  | .work i env =>
    match s.workers[i]? with
    | none => none
    | some d =>
      let (w, d') := d.next env s.world
      some { s with world := w, workers := s.workers.set i d' }

omit [Unicode] in
/-- No member is an admin, owners exist, and every run was created by the owner of its suite or by
an admin (or by an account that is gone). -/
structure Initial (s : Coalition) : Prop where
  queue : s.queue = []
  workers : s.workers = []
  nonAdmin : ∀ userId ∈ s.members,
    ∃ user, s.world.db.users.get? userId = some user ∧ user.role ≠ .admin
  owners : ∀ suite ∈ s.world.db.suites.rows,
    ∃ user, s.world.db.users.get? suite.ownerId = some user
  creators : ∀ run ∈ s.world.db.runs.rows, ∀ userId, run.createdById = some userId →
    (∃ suite, s.world.db.suites.get? run.suiteId = some suite ∧ suite.ownerId = userId) ∨
      ∃ user, s.world.db.users.get? userId = some user ∧ user.role = .admin

omit [Unicode] in
/-- The suites owned by nobody in the coalition. -/
def Foreign (s : Coalition) (suiteId : Uuid) : Prop :=
  ∃ suite, s.world.db.suites.get? suiteId = some suite ∧ suite.ownerId ∉ s.members

omit [Unicode] in
/-- What the coalition can have reached from `s₀`. -/
structure Reached (s₀ s : Coalition) : Prop where
  users : s₀.world.db.users.next ≤ s.world.db.users.next
  members : ∀ userId ∈ s.members, userId < s.world.db.users.next ∧
    (userId ∈ s₀.members ∨ s₀.world.db.users.next ≤ userId)
  roles : ∀ userId ∈ s.members, ∀ user, s.world.db.users.get? userId = some user →
    user.role ≠ .admin
  suites : ∀ suite ∈ s.world.db.suites.rows, suite.ownerId ∈ s.members ∨ s₀.Foreign suite.id
  views : ∀ suiteId, s₀.Foreign suiteId →
    suiteView s.world.db suiteId = suiteView s₀.world.db suiteId
  queue : ∀ runId ∈ s.queue, Inside s₀.Foreign s.world.db runId
  workers : ∀ d ∈ s.workers, d.phase.Of d.runId ∧ Inside s₀.Foreign s.world.db d.runId

omit [Unicode] in
theorem initial_reached {s : Coalition} (h : s.Initial) : Reached s s where
  users := le_refl _
  members := by
    intro userId hmember
    obtain ⟨user, huser, -⟩ := h.nonAdmin userId hmember
    exact ⟨Table.get?_lt huser, Or.inl hmember⟩
  roles := by
    intro userId hmember user huser
    obtain ⟨user', huser', hrole⟩ := h.nonAdmin userId hmember
    rw [huser] at huser'
    obtain rfl := Option.some.inj huser'
    exact hrole
  suites := by
    intro suite hsuite
    by_cases hmember : suite.ownerId ∈ s.members
    · exact Or.inl hmember
    · exact Or.inr ⟨suite, Table.get?_of_mem hsuite, hmember⟩
  views := fun _ _ => rfl
  queue := by
    rw [h.queue]
    intro runId hrun
    cases hrun
  workers := by
    rw [h.workers]
    intro d hd
    cases hd

omit [Unicode] in
/-- Accounts registered later own no earlier suite and created no earlier run. -/
theorem Reached.outside {s₀ s : Coalition} (h₀ : s₀.Initial) (h : Reached s₀ s) :
    Outside s.members s₀.Foreign s.world.db := by
  have hstart : Outside s.members s₀.Foreign s₀.world.db := by
    constructor
    · rintro suiteId ⟨suite, hget, hout⟩
      refine ⟨suite, hget, fun hmember => ?_⟩
      obtain ⟨user, huser⟩ := h₀.owners suite (Table.get?_mem hget)
      rcases (h.members _ hmember).2 with hold | hnew
      · exact hout hold
      · exact absurd (Table.get?_lt huser) (Nat.not_lt.mpr hnew)
    · rintro suiteId ⟨suite, hget, hout⟩ run hrun userId hcreator hmember
      obtain ⟨hmem, rfl⟩ := mem_runsOf.mp hrun
      have hexists : ∃ user, s₀.world.db.users.get? userId = some user ∧
          (user.role = .admin ∨ suite.ownerId = userId) := by
        rcases h₀.creators run hmem userId hcreator with ⟨suite', hget', howner⟩ | ⟨user, huser, hrole⟩
        · rw [hget] at hget'
          obtain rfl := Option.some.inj hget'
          obtain ⟨user, huser⟩ := h₀.owners suite (Table.get?_mem hget)
          exact ⟨user, howner ▸ huser, Or.inr howner⟩
        · exact ⟨user, huser, Or.inl hrole⟩
      obtain ⟨user, huser, hauthority⟩ := hexists
      rcases (h.members userId hmember).2 with hold | hnew
      · rcases hauthority with hadmin | howner
        · obtain ⟨user', huser', hrole⟩ := h₀.nonAdmin userId hold
          rw [huser] at huser'
          obtain rfl := Option.some.inj huser'
          exact hrole hadmin
        · exact hout (howner ▸ hold)
      · exact absurd (Table.get?_lt huser) (Nat.not_lt.mpr hnew)
  exact hstart.of_views h.views

omit [Unicode] in
/-- A confined change of the database keeps the reach of the coalition. -/
theorem Reached.confined {s₀ s : Coalition} (h : Reached s₀ s) {w : World} {queue : List Uuid}
    {workers : List Delivery} (hc : Confined s.members s₀.Foreign s.world.db w.db)
    (hqueue : ∀ runId ∈ queue, Inside s₀.Foreign w.db runId)
    (hworkers : ∀ d ∈ workers, d.phase.Of d.runId ∧ Inside s₀.Foreign w.db d.runId) :
    Reached s₀ { s with world := w, queue := queue, workers := workers } where
  users := by
    rw [hc.users]
    exact h.users
  members := by
    rw [hc.users]
    exact h.members
  roles := by
    rw [hc.users]
    exact h.roles
  suites := by
    intro suite hsuite
    rcases hc.suites suite hsuite with hold | hmember
    · exact h.suites suite hold
    · exact Or.inl hmember
  views := fun suiteId hp => (hc.views suiteId hp).trans (h.views suiteId hp)
  queue := hqueue
  workers := hworkers

omit [Unicode] in
theorem request_reached {s₀ s : Coalition} (h₀ : s₀.Initial) (h : Reached s₀ s) {userId : Uuid}
    (hmember : userId ∈ s.members) {commits : Bool} (enqueues : Bool) {request : Request}
    {db : Database} {called : Option Uuid}
    (heffect : Effect s.world.db userId commits request db called) :
    Reached s₀ { s with
      world := { s.world with db := db }
      queue := s.queue ++ if enqueues then called.toList else [] } := by
  have hc : Confined s.members s₀.Foreign s.world.db db :=
    effect_confined heffect (h.outside h₀) hmember (h.roles userId hmember)
  refine h.confined (w := { s.world with db := db }) hc ?_ ?_
  · intro runId hrun
    rcases List.mem_append.mp hrun with hold | hnew
    · exact hc.inside (h.queue runId hold)
    · split at hnew
      · obtain rfl := Option.mem_toList.mp hnew
        obtain ⟨rfl, hnext⟩ := effect_called heffect
        exact hc.inside_next hnext
      · cases hnew
  · exact fun d hd => ⟨(h.workers d hd).1, hc.inside (h.workers d hd).2⟩

theorem register_reached {s₀ s : Coalition} (h : Reached s₀ s) (hashPassword : String → String)
    {data : UserCreate} (hrole : data.role ≠ .admin) :
    Reached s₀ { s with
      world := { s.world with db := AuthService.insertUser hashPassword s.world.db data }
      members := s.members ++ [s.world.db.users.next] } where
  users := Nat.le_succ_of_le h.users
  members := by
    intro userId hmember
    rcases List.mem_append.mp hmember with hold | hnew
    · exact ⟨Nat.lt_succ_of_lt (h.members userId hold).1, (h.members userId hold).2⟩
    · rw [List.mem_singleton.mp hnew]
      exact ⟨Nat.lt_succ_self _, Or.inr h.users⟩
  roles := by
    intro userId hmember user huser
    have hid : ∀ n, (AuthService.newUser hashPassword data n).id = n := fun _ => rfl
    rcases List.mem_append.mp hmember with hold | hnew
    · have hne := Nat.ne_of_lt (h.members userId hold).1
      have hsame := Table.get?_insert_of_ne s.world.db.users _ hid hne
      exact h.roles userId hold user (hsame.symm.trans huser)
    · rw [List.mem_singleton.mp hnew] at huser
      have hself := Table.get?_insert_self s.world.db.users _ hid
      rw [← Option.some.inj (hself.symm.trans huser)]
      exact hrole
  suites := by
    intro suite hsuite
    rcases h.suites suite hsuite with hmember | hforeign
    · exact Or.inl (List.mem_append_left _ hmember)
    · exact Or.inr hforeign
  views := fun suiteId hp => h.views suiteId hp
  queue := fun runId hrun => ⟨(h.queue runId hrun).used, (h.queue runId hrun).notOf⟩
  workers := fun d hd => ⟨(h.workers d hd).1, (h.workers d hd).2.used, (h.workers d hd).2.notOf⟩

theorem reached_step {s₀ s t : Coalition} {l : CoalitionLabel} (h₀ : s₀.Initial)
    (h : Reached s₀ s) (hstep : ofNext next s l t) : Reached s₀ t := by
  unfold ofNext at hstep
  cases l with
  | request userId request commits enqueues =>
    simp only [next] at hstep
    split at hstep
    · next hmember =>
      obtain rfl := Option.some.inj hstep
      exact request_reached h₀ h hmember enqueues
        (handle_effect s.world.db userId commits enqueues request)
    · cases hstep
  | register data hashedPassword commits =>
    simp only [next] at hstep
    split at hstep
    · obtain rfl := Option.some.inj hstep
      exact h
    · next user db hregister =>
      obtain ⟨hrole, rfl, rfl⟩ := register_ok hregister
      split at hstep
      · obtain rfl := Option.some.inj hstep
        exact register_reached h (fun _ => hashedPassword) hrole
      · obtain rfl := Option.some.inj hstep
        exact h
  | deliver runId =>
    simp only [next] at hstep
    split at hstep
    · next hqueued =>
      obtain rfl := Option.some.inj hstep
      refine h.confined (Confined.refl _ _ _) h.queue ?_
      intro d hd
      rcases List.mem_append.mp hd with hold | hnew
      · exact h.workers d hold
      · rw [List.mem_singleton.mp hnew]
        exact ⟨trivial, h.queue runId hqueued⟩
    · cases hstep
  | work i env =>
    simp only [next] at hstep
    split at hstep
    · cases hstep
    · next d hd =>
      obtain rfl := Option.some.inj hstep
      obtain ⟨hof, hin⟩ := h.workers d (List.mem_of_getElem? hd)
      have hphase := next_step env d.runId s.world d.phase
      have hc := phase_confined s.members hphase hof hin.notOf
      refine h.confined hc (fun runId hrun => hc.inside (h.queue runId hrun)) ?_
      intro d' hd'
      rcases List.mem_or_eq_of_mem_set hd' with hold | rfl
      · exact ⟨(h.workers d' hold).1, hc.inside (h.workers d' hold).2⟩
      · exact ⟨phase_of hphase hof, hc.inside hin⟩

/-- Whatever the coalition requests and its workers do, the suites of others are as before, no
suite of others appears, and no member is an admin. -/
theorem foreign_suites_untouched {s t : Coalition} {ls : List CoalitionLabel} (h : s.Initial)
    (hrun : Run (ofNext next) s ls t) :
    (∀ suiteId suite, s.world.db.suites.get? suiteId = some suite → suite.ownerId ∉ s.members →
        suiteView t.world.db suiteId = suiteView s.world.db suiteId) ∧
      (∀ suiteId suite, t.world.db.suites.get? suiteId = some suite → suite.ownerId ∉ t.members →
        s.world.db.suites.get? suiteId = some suite) ∧
      ∀ userId ∈ t.members, ∀ user, t.world.db.users.get? userId = some user →
        user.role ≠ .admin := by
  have hreached : Reached s t :=
    hrun.invariant (fun _ _ _ hi hstep => reached_step h hi hstep) (initial_reached h)
  refine ⟨?_, ?_, hreached.roles⟩
  · exact fun suiteId suite hget hout => hreached.views suiteId ⟨suite, hget, hout⟩
  · intro suiteId suite hget hout
    rcases hreached.suites suite (Table.get?_mem hget) with hmember | hforeign
    · exact absurd hmember hout
    · rw [Table.get?_key hget] at hforeign
      have hsame : t.world.db.suites.get? suiteId = s.world.db.suites.get? suiteId :=
        congrArg Prod.fst (hreached.views suiteId hforeign)
      rw [← hsame]
      exact hget

end

end Coalition

/-! ## Bob and an account he registers next to Ada's suite -/

def bobAlone : Coalition :=
  { world :=
      { db := { loginDb with
          users := loginDb.users.insert fun n => { RunService.bob with id := n } } }
    members := [1] }

theorem bobAlone_initial : bobAlone.Initial where
  queue := rfl
  workers := rfl
  nonAdmin := by
    intro userId hmember
    rw [List.mem_singleton.mp hmember]
    exact ⟨RunService.bob, rfl, by decide⟩
  owners := by
    intro suite hsuite
    rw [List.mem_singleton.mp hsuite]
    exact ⟨ada, rfl⟩
  creators := by
    intro run hrun userId hcreator
    rw [List.mem_singleton.mp hrun] at hcreator ⊢
    exact Or.inl ⟨loginSuite, rfl, Option.some.inj hcreator⟩

/-- Bob fails to cancel Ada's run; his second account creates a suite of its own and runs it. -/
def bobsRequests : List CoalitionLabel :=
  [.request 1 (.write (.cancelRun 0)) true true,
    .register ⟨"eve@example.com", "Eve", "secret", .engineer⟩ "z" true,
    .request 2 (.write (.createSuite
      { name := "Mine", slug := "mine", targetBaseUrl := "https://example.com" })) true true,
    .request 2 (.triggerRun 1 {} (some "demo-run-001")) true true,
    .deliver 1,
    .work 0 calm, .work 0 calm, .work 0 calm, .work 0 calm]

theorem ada_untouched :
    ∃ t, Run (ofNext (@Coalition.next asciiUnicode)) bobAlone bobsRequests t ∧
      (t.members = [1, 2] ∧
        t.world.db.runs.rows.map TestRun.status = [.queued, .passed]) ∧
      (∀ suiteId suite, bobAlone.world.db.suites.get? suiteId = some suite →
        suite.ownerId ∉ bobAlone.members →
          suiteView t.world.db suiteId = suiteView bobAlone.world.db suiteId) ∧
      (∀ suiteId suite, t.world.db.suites.get? suiteId = some suite → suite.ownerId ∉ t.members →
        bobAlone.world.db.suites.get? suiteId = some suite) ∧
      ∀ userId ∈ t.members, ∀ user, t.world.db.users.get? userId = some user →
        user.role ≠ .admin := by
  let _ : Unicode := asciiUnicode
  have hrun : ∃ t, Run (ofNext Coalition.next) bobAlone bobsRequests t ∧
      t.members = [1, 2] ∧ t.world.db.runs.rows.map TestRun.status = [.queued, .passed] :=
    ⟨_, exec_run rfl, by decide, by decide⟩
  obtain ⟨t, ht, hseen⟩ := hrun
  exact ⟨t, ht, hseen, Coalition.foreign_suites_untouched bobAlone_initial ht⟩

end AegisPlatform.Api
