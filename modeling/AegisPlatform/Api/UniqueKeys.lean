import AegisPlatform.Api.Handlers
import AegisPlatform.Foundations.Runs

/-! # Registrations and new suites at once

Any number of `register` and `create_suite` requests, each taking one access at a time: the check
of the account, the lookup of the email or slug, the flush and the commit. The unique indexes
refuse a row at its flush or at its commit, so no two rows ever share a key. But only a request
that finds the key at its lookup answers with a `ConflictError`. `NoLostRace` excludes that a row
is committed while another request that looked for the same key and missed it is still open.
-/

namespace AegisPlatform.Api
open Foundations Domain Core Db Services
set_option autoImplicit false
set_option maxHeartbeats 250000

/-- `register_exception_handlers`: the status and the code of the answer. -/
def errorResponse : Failure → ℕ × String
  | .aegis e => (e.httpStatus, e.code)
  | .integrityError => (500, "internal_error")

/-- A value of a column with a unique index. -/
inductive UniqueKey
  | email (value : String)
  | slug (value : String)
deriving DecidableEq

def taken (db : Database) : UniqueKey → Bool
  | .email value => db.users.rows.any fun u => u.email == value
  | .slug value => db.suites.rows.any fun s => s.slug == value

inductive Creation
  | register (data : UserCreate)
  | createSuite (data : SuiteCreate) (userId : Uuid)

inductive CreatePhase
  | received
  | refused (failure : Failure)
  | authorised
  | free
  | flushed
  | created
  | failed (failure : Failure)

/-- The request missed its key and has neither committed nor failed. -/
def CreatePhase.isOpen : CreatePhase → Bool
  | .free | .flushed => true
  | _ => false

def CreatePhase.isFlushed : CreatePhase → Bool
  | .flushed => true
  | _ => false

structure CreateSession where
  request : Creation
  phase : CreatePhase := .received

structure Creators where
  db : Database
  sessions : List CreateSession

section
variable [Unicode]

namespace Creation

def key : Creation → UniqueKey
  | .register data => .email (lower data.email)
  | .createSuite data _ => .slug data.slug

def conflictCode : Creation → String
  | .register _ => "email_taken"
  | .createSuite .. => "slug_taken"

/-- The dependencies of the endpoint. -/
def authorise (db : Database) : Creation → CreatePhase
  | .register data => if data.role = .admin then .refused roleForbidden else .authorised
  | .createSuite _ userId =>
    match engineer db userId with
    | .error e => .refused e
    | .ok _ => .authorised

/-- The lookup of the service. -/
def lookup (db : Database) : Creation → CreatePhase
  | .register data =>
    match db.getByEmail data.email with
    | some _ => .failed AuthService.emailTaken
    | none => .free
  | .createSuite data _ =>
    match db.getBySlug data.slug with
    | some _ => .failed (SuiteService.slugTaken data.slug)
    | none => .free

def insert (hashPassword : String → String) (db : Database) : Creation → Database
  | .register data => AuthService.insertUser hashPassword db data
  | .createSuite data userId => SuiteService.insertSuite db data userId

/-- One access. The indexes refuse a key that a committed row has by now. -/
def next (hashPassword : String → String) (request : Creation) (db : Database) :
    CreatePhase → Database × CreatePhase
  | .received => (db, request.authorise db)
  | .authorised => (db, request.lookup db)
  | .free => if taken db request.key then (db, .failed .integrityError) else (db, .flushed)
  | .flushed =>
    if taken db request.key then (db, .failed .integrityError)
    else (request.insert hashPassword db, .created)
  | .refused e => (db, .refused e)
  | .created => (db, .created)
  | .failed e => (db, .failed e)

end Creation

def Creators.next (hashPassword : String → String) (s : Creators) (i : ℕ) : Option Creators :=
  match s.sessions[i]? with
  | none => none
  | some c =>
    let (db, phase) := c.request.next hashPassword s.db c.phase
    some { db := db, sessions := s.sessions.set i { c with phase := phase } }

/-- No row is committed while another request that missed its key is open. -/
def NoLostRace (s : Creators) (i : ℕ) : Prop :=
  ∀ c ∈ s.sessions[i]?, c.phase.isFlushed = true → ∀ j < s.sessions.length, j ≠ i →
    ∀ c' ∈ s.sessions[j]?, c'.phase.isOpen = true → c'.request.key ≠ c.request.key

instance (s : Creators) (i : ℕ) : Decidable (NoLostRace s i) :=
  inferInstanceAs (Decidable (∀ c ∈ s.sessions[i]?, c.phase.isFlushed = true →
    ∀ j < s.sessions.length, j ≠ i → ∀ c' ∈ s.sessions[j]?, c'.phase.isOpen = true →
      c'.request.key ≠ c.request.key))

/-! ## What the claims of the indexes are -/

/-- No two accounts whose emails are equal up to lower-casing, no two suites with one slug. -/
structure UniqueRows (db : Database) : Prop where
  emails : ∀ u ∈ db.users.rows, ∀ v ∈ db.users.rows, lower u.email = lower v.email → u = v
  slugs : ∀ s ∈ db.suites.rows, ∀ t ∈ db.suites.rows, s.slug = t.slug → s = t

/-- What the indexes enforce, over emails that were lowered before they were stored. -/
structure Indexed (db : Database) : Prop where
  lowered : ∀ u ∈ db.users.rows, lower u.email = u.email
  emails : (db.users.rows.map User.email).Nodup
  slugs : (db.suites.rows.map TestSuite.slug).Nodup

/-- Whoever loses the key is told so by a 409. -/
def LosersConflict (s : Creators) : Prop :=
  ∀ (i : ℕ) c failure, s.sessions[i]? = some c → c.phase = .failed failure →
    errorResponse failure = (409, c.request.conflictCode)

variable {db : Database} {request : Creation} {hashPassword : String → String}

theorem Indexed.unique (h : Indexed db) : UniqueRows db := by
  constructor
  · intro u hu v hv heq
    rw [h.lowered u hu, h.lowered v hv] at heq
    exact List.inj_on_of_nodup_map h.emails hu hv heq
  · intro s hs t ht heq
    exact List.inj_on_of_nodup_map h.slugs hs ht heq

theorem lookup_eq :
    request.lookup db = .free ∧ taken db request.key = false ∨
      ∃ failure, request.lookup db = .failed failure ∧
        errorResponse failure = (409, request.conflictCode) := by
  cases request with
  | register data =>
    cases hfind : db.getByEmail data.email with
    | none =>
      left
      refine ⟨by simp [Creation.lookup, hfind], ?_⟩
      simpa [taken, Creation.key, Database.getByEmail, List.find?_eq_none] using hfind
    | some user =>
      exact Or.inr ⟨AuthService.emailTaken, by simp [Creation.lookup, hfind], rfl⟩
  | createSuite data userId =>
    cases hfind : db.getBySlug data.slug with
    | none =>
      left
      refine ⟨by simp [Creation.lookup, hfind], ?_⟩
      simpa [taken, Creation.key, Database.getBySlug, List.find?_eq_none] using hfind
    | some suite =>
      exact Or.inr ⟨SuiteService.slugTaken data.slug, by simp [Creation.lookup, hfind], rfl⟩

/-- A new row takes its own key and no other. -/
theorem taken_insert (k : UniqueKey) (hne : k ≠ request.key) :
    taken (request.insert hashPassword db) k = taken db k := by
  cases request with
  | register data =>
    cases k with
    | email value =>
      have hvalue : (lower data.email == value) = false := by
        rw [beq_eq_false_iff_ne]
        exact fun heq => hne (congrArg UniqueKey.email heq.symm)
      simp [taken, Creation.insert, AuthService.insertUser, AuthService.newUser, hvalue]
    | slug value => rfl
  | createSuite data userId =>
    cases k with
    | email value => rfl
    | slug value =>
      have hvalue : (data.slug == value) = false := by
        rw [beq_eq_false_iff_ne]
        exact fun heq => hne (congrArg UniqueKey.slug heq.symm)
      simp [taken, Creation.insert, SuiteService.insertSuite, SuiteService.newSuite, hvalue]

theorem indexed_insert [IdempotentLower] (h : Indexed db) (hfree : taken db request.key = false) :
    Indexed (request.insert hashPassword db) := by
  cases request with
  | register data =>
    have hnew : ∀ u ∈ db.users.rows, u.email ≠ lower data.email := by
      simpa [taken, Creation.key] using hfree
    refine ⟨?_, Table.nodup_column_snoc h.emails hnew, h.slugs⟩
    intro u hu
    rcases List.mem_append.mp hu with hold | hu
    · exact h.lowered u hold
    · rw [List.mem_singleton.mp hu]
      exact lower_lower data.email
  | createSuite data userId =>
    have hnew : ∀ s ∈ db.suites.rows, s.slug ≠ data.slug := by
      simpa [taken, Creation.key] using hfree
    exact ⟨h.lowered, h.emails, Table.nodup_column_snoc h.slugs hnew⟩

/-! ## One access -/

inductive CreateStep (hashPassword : String → String) (request : Creation) (db : Database) :
    CreatePhase → Database → CreatePhase → Prop
  | refuse (failure : Failure) :
      CreateStep hashPassword request db .received db (.refused failure)
  | authorise : CreateStep hashPassword request db .received db .authorised
  | miss (hfree : taken db request.key = false) :
      CreateStep hashPassword request db .authorised db .free
  | conflict (failure : Failure) (hanswer : errorResponse failure = (409, request.conflictCode)) :
      CreateStep hashPassword request db .authorised db (.failed failure)
  | clash {phase : CreatePhase} (hopen : phase.isOpen = true)
      (htaken : taken db request.key = true) :
      CreateStep hashPassword request db phase db (.failed .integrityError)
  | flush : CreateStep hashPassword request db .free db .flushed
  | commit (hfree : taken db request.key = false) :
      CreateStep hashPassword request db .flushed (request.insert hashPassword db) .created
  | done {phase : CreatePhase} (hclosed : phase.isOpen = false) :
      CreateStep hashPassword request db phase db phase

theorem create_step (phase : CreatePhase) :
    CreateStep hashPassword request db phase (request.next hashPassword db phase).1
      (request.next hashPassword db phase).2 := by
  cases phase with
  | received =>
    cases request with
    | register data =>
      simp only [Creation.next, Creation.authorise]
      split
      · exact .refuse _
      · exact .authorise
    | createSuite data userId =>
      simp only [Creation.next, Creation.authorise]
      split
      · exact .refuse _
      · exact .authorise
  | authorised =>
    simp only [Creation.next]
    rcases @lookup_eq _ db request with ⟨hlookup, hfree⟩ | ⟨failure, hlookup, hanswer⟩
    · rw [hlookup]
      exact .miss hfree
    · rw [hlookup]
      exact .conflict failure hanswer
  | free =>
    simp only [Creation.next]
    split
    · next htaken => exact .clash rfl htaken
    · exact .flush
  | flushed =>
    simp only [Creation.next]
    split
    · next htaken => exact .clash rfl htaken
    · next hfree => exact .commit (by simpa using hfree)
  | refused e => exact .done rfl
  | created => exact .done rfl
  | failed e => exact .done rfl

theorem creators_step {s t : Creators} {i : ℕ} (h : ofNext (Creators.next hashPassword) s i t) :
    ∃ c phase, s.sessions[i]? = some c ∧
      CreateStep hashPassword c.request s.db c.phase t.db phase ∧
      t.sessions = s.sessions.set i { c with phase := phase } := by
  unfold ofNext Creators.next at h
  split at h
  · cases h
  · next c hc =>
    obtain rfl := Option.some.inj h
    exact ⟨c, _, hc, create_step c.phase, rfl⟩

/-! ## One request alone -/

/-- Undisturbed, a request that finds its key free commits its row. -/
theorem creation_alone (hauthorise : request.authorise db = .authorised)
    (hlookup : request.lookup db = .free) :
    exec (Creators.next hashPassword) ⟨db, [{ request := request }]⟩ [0, 0, 0, 0] =
      some ⟨request.insert hashPassword db, [{ request := request, phase := .created }]⟩ := by
  have hfree : taken db request.key = false := by
    rcases @lookup_eq _ db request with ⟨-, hfree⟩ | ⟨failure, hfailed, -⟩
    · exact hfree
    · cases hlookup.symm.trans hfailed
  simp [exec, Creators.next, Creation.next, hauthorise, hlookup, hfree]

/-- The accesses of one registration are the endpoint's. -/
theorem register_alone {data : UserCreate} {user : User} {db' : Database}
    (h : register hashPassword db data = .ok (user, db')) :
    exec (Creators.next hashPassword) ⟨db, [{ request := .register data }]⟩ [0, 0, 0, 0] =
      some ⟨db', [{ request := .register data, phase := .created }]⟩ := by
  obtain ⟨hrole, -, rfl⟩ := register_ok h
  refine creation_alone (if_neg hrole) ?_
  simp only [register, hrole, if_false, AuthService.register] at h
  cases hfind : db.getByEmail data.email with
  | none => simp [Creation.lookup, hfind]
  | some found => simp [hfind] at h

/-- And so are those of one new suite. -/
theorem createSuite_alone {data : SuiteCreate} {userId : Uuid} {user : User} {db' : Database}
    {response : Response} (huser : engineer db userId = .ok user)
    (h : handleWrite db user (.createSuite data) = .ok (db', response)) :
    exec (Creators.next hashPassword) ⟨db, [{ request := .createSuite data userId }]⟩ [0, 0, 0, 0] =
      some ⟨db', [{ request := .createSuite data userId, phase := .created }]⟩ := by
  have hid : user.id = userId := Table.get?_key (engineer_ok huser)
  simp only [handleWrite, SuiteService.create] at h
  cases hfind : db.getBySlug data.slug with
  | some found => simp [hfind] at h
  | none =>
    simp only [hfind, Except.ok.injEq, Prod.mk.injEq, hid] at h
    rw [← h.1]
    refine creation_alone ?_ ?_
    · simp [Creation.authorise, huser]
    · simp [Creation.lookup, hfind]

/-! ## Runs -/

section
variable {s t : Creators} {i : ℕ}

/-- The indexes hold however the requests interleave. -/
theorem indexed_step [IdempotentLower] (hs : Indexed s.db)
    (h : ofNext (Creators.next hashPassword) s i t) : Indexed t.db := by
  obtain ⟨c, phase, -, step, -⟩ := creators_step h
  generalize hdb : t.db = db' at step
  generalize c.phase = before at step
  cases step with
  | commit hfree => exact indexed_insert hs hfree
  | refuse failure => exact hs
  | authorise => exact hs
  | miss hfree => exact hs
  | conflict failure hanswer => exact hs
  | clash hopen htaken => exact hs
  | flush => exact hs
  | done hclosed => exact hs

/-- While no race is lost, an open request's key is free. -/
structure Racing (s : Creators) : Prop where
  free : ∀ (i : ℕ) c, s.sessions[i]? = some c → c.phase.isOpen = true →
    taken s.db c.request.key = false
  losers : LosersConflict s

/-- An access that changes nothing in the tables. -/
theorem racing_set (hs : Racing s) {c : CreateSession} {phase : CreatePhase}
    (hfree : phase.isOpen = true → taken s.db c.request.key = false)
    (hfailed : ∀ failure, phase = .failed failure →
      errorResponse failure = (409, c.request.conflictCode))
    (hdb : t.db = s.db) (hsessions : t.sessions = s.sessions.set i { c with phase := phase }) :
    Racing t := by
  constructor
  · intro j c' hc' hopen
    rw [hsessions] at hc'
    rw [hdb]
    rcases getElem?_set_cases hc' with ⟨-, rfl⟩ | ⟨-, hold⟩
    · exact hfree hopen
    · exact hs.free j c' hold hopen
  · intro j c' failure hc' hphase
    rw [hsessions] at hc'
    rcases getElem?_set_cases hc' with ⟨-, rfl⟩ | ⟨-, hold⟩
    · exact hfailed failure hphase
    · exact hs.losers j c' failure hold hphase

/-- The winner's commit takes a key that no other open request waits for. -/
theorem racing_commit (hs : Racing s) (hguard : NoLostRace s i) {c : CreateSession}
    (hc : s.sessions[i]? = some c) (hflushed : c.phase = .flushed)
    (hdb : t.db = c.request.insert hashPassword s.db)
    (hsessions : t.sessions = s.sessions.set i { c with phase := .created }) : Racing t := by
  constructor
  · intro j c' hc' hopen
    rw [hsessions] at hc'
    rcases getElem?_set_cases hc' with ⟨-, rfl⟩ | ⟨hj, hold⟩
    · cases hopen
    · have hother := hguard c hc (by rw [hflushed]; rfl) j (List.getElem?_eq_some_iff.mp hold).1 hj
        c' hold hopen
      rw [hdb, taken_insert _ hother]
      exact hs.free j c' hold hopen
  · intro j c' failure hc' hphase
    rw [hsessions] at hc'
    rcases getElem?_set_cases hc' with ⟨-, rfl⟩ | ⟨-, hold⟩
    · cases hphase
    · exact hs.losers j c' failure hold hphase

theorem racing_step (hs : Racing s) (hguard : NoLostRace s i)
    (h : ofNext (Creators.next hashPassword) s i t) : Racing t := by
  obtain ⟨c, phase, hc, step, hsessions⟩ := creators_step h
  have hopenFree := hs.free i c hc
  have hlosers := fun failure => hs.losers i c failure hc
  generalize hphase : c.phase = before at step hopenFree hlosers
  generalize hdb : t.db = db' at step
  cases step with
  | refuse failure =>
    exact racing_set hs (fun hopen => by cases hopen) (fun e he => by cases he) hdb hsessions
  | authorise =>
    exact racing_set hs (fun hopen => by cases hopen) (fun e he => by cases he) hdb hsessions
  | miss hfree => exact racing_set hs (fun _ => hfree) (fun e he => by cases he) hdb hsessions
  | conflict failure hanswer =>
    refine racing_set hs (fun hopen => by cases hopen) ?_ hdb hsessions
    intro e he
    rw [← CreatePhase.failed.inj he]
    exact hanswer
  | clash hopen htaken =>
    rw [hopenFree hopen] at htaken
    cases htaken
  | flush =>
    exact racing_set hs (fun _ => hopenFree rfl) (fun e he => by cases he) hdb hsessions
  | commit hfree => exact racing_commit hs hguard hc hphase hdb hsessions
  | done hclosed =>
    exact racing_set hs hopenFree hlosers hdb hsessions

/-- No two rows ever share a key; and in every run in which no row is committed while another
request that missed its key is open, whoever finds the key taken ends with a 409. -/
theorem unique_keys [IdempotentLower] (hashPassword : String → String) (s t : Creators)
    (ls : List ℕ) (hindexed : Indexed s.db) (hstart : ∀ c ∈ s.sessions, c.phase = .received) :
    (Run (ofNext (Creators.next hashPassword)) s ls t → UniqueRows t.db) ∧
      (Run (Under NoLostRace (ofNext (Creators.next hashPassword))) s ls t →
        UniqueRows t.db ∧ LosersConflict t) := by
  have hracing : Racing s := by
    constructor
    · intro i c hc hopen
      rw [hstart c (List.mem_of_getElem? hc)] at hopen
      cases hopen
    · intro i c failure hc hphase
      rw [hstart c (List.mem_of_getElem? hc)] at hphase
      cases hphase
  constructor
  · intro hrun
    exact (hrun.invariant (I := fun u => Indexed u.db) (fun _ _ _ hi h => indexed_step hi h)
      hindexed).unique
  · intro hrun
    have hboth : Indexed t.db ∧ Racing t := by
      refine hrun.invariant (I := fun u => Indexed u.db ∧ Racing u) ?_ ⟨hindexed, hracing⟩
      intro u l v hu huv
      exact ⟨indexed_step hu.1 huv.2, racing_step hu.2 huv.1 huv.2⟩
    exact ⟨hboth.1.unique, hboth.2.losers⟩

/-- A request whose key has been taken since it missed it ends in the error of the index. -/
theorem lost_race {c : CreateSession} (hopen : c.phase.isOpen = true)
    (htaken : taken db c.request.key = true) :
    c.request.next hashPassword db c.phase = (db, .failed .integrityError) := by
  generalize c.phase = phase at hopen
  cases phase with
  | free => exact if_pos htaken
  | flushed => exact if_pos htaken
  | received => cases hopen
  | refused e => cases hopen
  | authorised => cases hopen
  | created => cases hopen
  | failed e => cases hopen

end

end

/-! ## Two registrations with one email -/

def twoRegistrations : Creators :=
  { db := Database.empty
    sessions := [
      { request := .register
          { email := "Ada@example.com", fullName := "Ada", password := "engine no. 1" } },
      { request := .register
          { email := "ada@example.com", fullName := "Ada", password := "engine no. 2" } }] }

def outcome (c : CreateSession) : Option (ℕ × String) :=
  match c.phase with
  | .failed failure => some (errorResponse failure)
  | _ => none

theorem twoRegistrations_indexed : @Indexed asciiUnicode twoRegistrations.db :=
  @Indexed.mk asciiUnicode _ (fun _ hu => absurd hu List.not_mem_nil) List.nodup_nil List.nodup_nil

theorem twoRegistrations_start : ∀ c ∈ twoRegistrations.sessions, c.phase = .received := by
  intro c hc
  simp only [twoRegistrations, List.mem_cons, List.not_mem_nil, or_false] at hc
  rcases hc with rfl | rfl
  · rfl
  · rfl

/-- Both look the email up before either commits, and the second answers with a 500. -/
theorem lost_registration :
    ∃ t, Run (ofNext (@Creators.next asciiUnicode id)) twoRegistrations [0, 1, 0, 1, 0, 1, 0, 1] t ∧
      t.sessions.map outcome = [none, some (500, "internal_error")] ∧
      ¬ LosersConflict t := by
  have hrun : ∃ t, Run (ofNext (@Creators.next asciiUnicode id)) twoRegistrations
      [0, 1, 0, 1, 0, 1, 0, 1] t ∧
      t.sessions.map outcome = [none, some (500, "internal_error")] :=
    ⟨_, exec_run rfl, by decide⟩
  obtain ⟨t, ht, houtcome⟩ := hrun
  refine ⟨t, ht, houtcome, ?_⟩
  intro hlosers
  obtain ⟨c, hc, hcode⟩ : ∃ c, t.sessions[1]? = some c ∧ outcome c = some (500, "internal_error") := by
    have hsecond := congrArg (fun l => l[1]?) houtcome
    simpa [List.getElem?_map, Option.map_eq_some_iff] using hsecond
  cases hphase : c.phase with
  | failed failure =>
    simp only [outcome, hphase, Option.some.injEq] at hcode
    have hconflict := hlosers 1 c failure hc hphase
    rw [hcode] at hconflict
    exact absurd (Prod.mk.inj hconflict).1 (by decide)
  | _ => simp [outcome, hphase] at hcode

theorem second_registration :
    ∃ t, Run (Under (@NoLostRace asciiUnicode) (ofNext (@Creators.next asciiUnicode id)))
        twoRegistrations [0, 1, 0, 0, 0, 1] t ∧
      t.sessions.map outcome = [none, some (409, "email_taken")] ∧
      @UniqueRows asciiUnicode t.db ∧ LosersConflict t := by
  have hrun : ∃ t, Run (Under (@NoLostRace asciiUnicode) (ofNext (@Creators.next asciiUnicode id)))
      twoRegistrations [0, 1, 0, 0, 0, 1] t ∧
      t.sessions.map outcome = [none, some (409, "email_taken")] :=
    ⟨_, restrict_run rfl, by decide⟩
  obtain ⟨t, ht, houtcome⟩ := hrun
  have hboth := (@unique_keys asciiUnicode asciiUnicode_idempotent id twoRegistrations t _
    twoRegistrations_indexed twoRegistrations_start).2 ht
  exact ⟨t, ht, houtcome, hboth⟩

end AegisPlatform.Api
