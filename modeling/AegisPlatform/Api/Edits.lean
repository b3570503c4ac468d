import AegisPlatform.Api.StoredSuites

/-! # Edits, access by access

`update_suite`, `delete_suite`, `add_case` and `review_healing_event`, cut at their database
accesses. Each reads the row it acts on and acts on it by a later access, its flush and commit, when
the row may look different or be gone. A flush writes the columns that the request changed on the
row it read. Where the row is gone, an `UPDATE` matches nothing (`StaleDataError`), a new case
breaks its foreign key, and a deletion has nothing left to do.

`update_suite` reads the suite once more after its commit. The session hands out the row it has,
with what it assigned, and the cases it read at first.
-/

namespace AegisPlatform.Api
open Foundations Domain Core Db Services
set_option autoImplicit false
set_option maxHeartbeats 250000

inductive Change
  | update (suiteId : Uuid) (data : SuiteUpdate)
  | delete (suiteId : Uuid)
  | addCase (suiteId : Uuid) (data : TestCaseCreate)
  | review (eventId : Uuid) (accepted : Bool)

def Change.write : Change → Write
  | .update suiteId data => .updateSuite suiteId data
  | .delete suiteId => .deleteSuite suiteId
  | .addCase suiteId data => .addCase suiteId data
  | .review eventId accepted => .reviewHealingEvent eventId accepted

/-- The suite the request is about. -/
def Change.suite? : Change → Option Uuid
  | .update suiteId _ | .delete suiteId | .addCase suiteId _ => some suiteId
  | .review .. => none

inductive ChangePhase
  | received
  | authorised (user : User)
  /-- The suite was read, and the account may change it. -/
  | holding (user : User) (suite : TestSuite) (cases : List TestCase)
  | reviewing (user : User) (event : HealingEvent)
  | patched (suite : TestSuite) (cases : List TestCase)
  | answered (response : Response)

/-! ## Writing back a loaded suite -/

def writeBackSuite (loaded current stored : TestSuite) : TestSuite :=
  { stored with
    name := written loaded.name current.name stored.name
    description := written loaded.description current.description stored.description
    targetBaseUrl := written loaded.targetBaseUrl current.targetBaseUrl stored.targetBaseUrl
    tags := written loaded.tags current.tags stored.tags
    isActive := written loaded.isActive current.isActive stored.isActive }

@[simp] theorem id_writeBackSuite (loaded current stored : TestSuite) :
    (writeBackSuite loaded current stored).id = stored.id := rfl

def putSuite (db : Database) (loaded current : TestSuite) : Database :=
  { db with
    suites := db.suites.modify loaded.id (writeBackSuite loaded current)
      fun _ => id_writeBackSuite .. }

theorem get?_putSuite (db : Database) (loaded current : TestSuite) :
    (putSuite db loaded current).suites.get? loaded.id =
      (db.suites.get? loaded.id).map (writeBackSuite loaded current) :=
  Table.get?_modify_self _ _ _ fun _ => id_writeBackSuite ..

theorem get?_putSuite_of_ne {db : Database} {loaded : TestSuite} (current : TestSuite)
    {suiteId : Uuid} (h : suiteId ≠ loaded.id) :
    (putSuite db loaded current).suites.get? suiteId = db.suites.get? suiteId :=
  Table.get?_modify_of_ne _ _ (fun _ => id_writeBackSuite ..) h

/-- What a flush leaves of the row it is about; `none` when it raises. -/
def flushed {ρ : Type} [DecidableEq ρ] (loaded current : ρ) (stored : Option ρ) (db db' : Database) :
    Option Database :=
  if current = loaded then some db
  else match stored with
    | none => none
    | some _ => some db'

/-! ## One access -/

/-- The read of the row that the request acts on. -/
def Change.read (db : Database) (user : User) : Change → ChangePhase
  | .update suiteId _ | .delete suiteId | .addCase suiteId _ =>
    match SuiteService.mutable db suiteId user with
    | .error e => .answered (.failed e)
    | .ok suite => .holding user suite (db.casesOf suiteId)
  | .review eventId _ =>
    match db.healingEvents.get? eventId with
    | none => .answered (.failed HealingService.eventNotFound)
    | some event => .reviewing user event

/-- The flush and the commit of a request about the suite. -/
def Change.commitSuite (db : Database) (suite : TestSuite) (cases : List TestCase) :
    Change → Database × ChangePhase
  | .update _ data =>
    match SuiteService.patch suite data with
    | none => (db, .answered (.failed .integrityError))
    | some current =>
      match flushed suite current (db.suites.get? suite.id) db (putSuite db suite current) with
      | none => (db, .answered .internalError)
      | some db' => (db', .patched current cases)
  | .delete _ =>
    match db.suites.get? suite.id with
    | none => (db, .answered .noContent)
    | some _ => (db.deleteSuite suite.id, .answered .noContent)
  | .addCase _ data =>
    match db.suites.get? suite.id with
    | none => (db, .answered (.failed .integrityError))
    | some _ =>
      let case := SuiteService.buildCase suite.id data db.cases.next
      (SuiteService.insertCase db suite.id data,
        .answered (if renderCase case then .case case else .internalError))
  | .review .. => (db, .answered .internalError)

/-- The flush and the commit of a review. -/
def Change.commitEvent (db : Database) (event : HealingEvent) : Change → Database × ChangePhase
  | .review _ accepted =>
    let current := { event with accepted := some accepted }
    match flushed event current (db.healingEvents.get? event.id) db
      (HealingService.setAccepted db event.id accepted) with
    | none => (db, .answered .internalError)
    | some db' => (db', .answered (.healingEvent current))
  | .update .. | .delete _ | .addCase .. => (db, .answered .internalError)

/-- `works` tells whether the commit does. -/
def ChangePhase.next (userId : Uuid) (change : Change) (works : Bool) (db : Database) :
    ChangePhase → Database × ChangePhase
  | .received =>
    match engineer db userId with
    | .error e => (db, .answered (.failed e))
    | .ok user => (db, .authorised user)
  | .authorised user => (db, change.read db user)
  | .holding _ suite cases =>
    if works then change.commitSuite db suite cases else (db, .answered .internalError)
  | .reviewing _ event =>
    if works then change.commitEvent db event else (db, .answered .internalError)
  | .patched suite cases =>
    match db.suites.get? suite.id with
    | none => (db, .answered (.failed suiteNotFound))
    | some _ => (db, .answered (renderSuite suite cases))
  | .answered response => (db, .answered response)

/-- Everything one access of an edit can do. -/
inductive ChangeStep (userId : Uuid) (db : Database) :
    Change → ChangePhase → Database → ChangePhase → Prop
  | answer (change : Change) (phase : ChangePhase) (response : Response) :
      ChangeStep userId db change phase db (.answered response)
  | authorise {user : User} (change : Change) (huser : engineer db userId = .ok user) :
      ChangeStep userId db change .received db (.authorised user)
  | hold {change : Change} {user : User} {suiteId : Uuid} {suite : TestSuite}
      (hsuite : change.suite? = some suiteId)
      (hmutable : SuiteService.mutable db suiteId user = .ok suite) :
      ChangeStep userId db change (.authorised user) db (.holding user suite (db.casesOf suiteId))
  | look {user : User} {eventId : Uuid} {event : HealingEvent} (accepted : Bool)
      (hget : db.healingEvents.get? eventId = some event) :
      ChangeStep userId db (.review eventId accepted) (.authorised user) db (.reviewing user event)
  | keep (change : Change) (user : User) (suite current : TestSuite) (cases : List TestCase) :
      ChangeStep userId db change (.holding user suite cases) db (.patched current cases)
  | patch {user : User} {suiteId : Uuid} {data : SuiteUpdate} {suite current row : TestSuite}
      (cases : List TestCase) (hpatch : SuiteService.patch suite data = some current)
      (hrow : db.suites.get? suite.id = some row) :
      ChangeStep userId db (.update suiteId data) (.holding user suite cases)
        (putSuite db suite current) (.patched current cases)
  | delete {suite row : TestSuite} (user : User) (suiteId : Uuid) (cases : List TestCase)
      (hrow : db.suites.get? suite.id = some row) :
      ChangeStep userId db (.delete suiteId) (.holding user suite cases) (db.deleteSuite suite.id)
        (.answered .noContent)
  | addCase {suite row : TestSuite} (user : User) (suiteId : Uuid) (data : TestCaseCreate)
      (cases : List TestCase) (response : Response) (hrow : db.suites.get? suite.id = some row) :
      ChangeStep userId db (.addCase suiteId data) (.holding user suite cases)
        (SuiteService.insertCase db suite.id data) (.answered response)
  | review {event row : HealingEvent} (user : User) (eventId : Uuid) (accepted : Bool)
      (response : Response) (hrow : db.healingEvents.get? event.id = some row) :
      ChangeStep userId db (.review eventId accepted) (.reviewing user event)
        (HealingService.setAccepted db event.id accepted) (.answered response)

section
variable {userId : Uuid} {works : Bool} {db : Database}

theorem read_step (change : Change) (user : User) :
    ChangeStep userId db change (.authorised user) db (change.read db user) := by
  have hsuite {suiteId : Uuid} (hof : change.suite? = some suiteId) :
      ChangeStep userId db change (.authorised user) db
        (match SuiteService.mutable db suiteId user with
          | .error e => .answered (.failed e)
          | .ok suite => .holding user suite (db.casesOf suiteId)) := by
    cases hmutable : SuiteService.mutable db suiteId user with
    | error e => exact .answer _ _ _
    | ok suite => exact .hold hof hmutable
  cases change with
  | update suiteId data => exact hsuite rfl
  | delete suiteId => exact hsuite rfl
  | addCase suiteId data => exact hsuite rfl
  | review eventId accepted =>
    simp only [Change.read]
    cases hget : db.healingEvents.get? eventId with
    | none => exact .answer _ _ _
    | some event => exact .look accepted hget

theorem commitSuite_step (change : Change) (user : User) (suite : TestSuite)
    (cases : List TestCase) :
    ChangeStep userId db change (.holding user suite cases) (change.commitSuite db suite cases).1
      (change.commitSuite db suite cases).2 := by
  cases change with
  | review eventId accepted => exact .answer _ _ _
  | delete suiteId =>
    simp only [Change.commitSuite]
    cases hrow : db.suites.get? suite.id with
    | none => exact .answer _ _ _
    | some row => exact .delete user suiteId cases hrow
  | update suiteId data =>
    simp only [Change.commitSuite]
    cases hpatch : SuiteService.patch suite data with
    | none => exact .answer _ _ _
    | some current =>
      simp only [flushed]
      by_cases hsame : current = suite
      · rw [if_pos hsame]
        exact .keep _ user suite current cases
      · rw [if_neg hsame]
        cases hrow : db.suites.get? suite.id with
        | none => exact .answer _ _ _
        | some row => exact .patch cases hpatch hrow
  | addCase suiteId data =>
    simp only [Change.commitSuite]
    cases hrow : db.suites.get? suite.id with
    | none => exact .answer _ _ _
    | some row => exact .addCase user suiteId data cases _ hrow

theorem commitEvent_step (change : Change) (user : User) (event : HealingEvent) :
    ChangeStep userId db change (.reviewing user event) (change.commitEvent db event).1
      (change.commitEvent db event).2 := by
  cases change with
  | update suiteId data => exact .answer _ _ _
  | delete suiteId => exact .answer _ _ _
  | addCase suiteId data => exact .answer _ _ _
  | review eventId accepted =>
    simp only [Change.commitEvent, flushed]
    by_cases hsame : { event with accepted := some accepted } = event
    · rw [if_pos hsame]
      exact .answer _ _ _
    · rw [if_neg hsame]
      cases hrow : db.healingEvents.get? event.id with
      | none => exact .answer _ _ _
      | some row => exact .review user eventId accepted _ hrow

theorem change_step (change : Change) (phase : ChangePhase) :
    ChangeStep userId db change phase (phase.next userId change works db).1
      (phase.next userId change works db).2 := by
  cases phase with
  | received =>
    simp only [ChangePhase.next]
    cases huser : engineer db userId with
    | error e => exact .answer _ _ _
    | ok user => exact .authorise change huser
  | authorised user => exact read_step change user
  | holding user suite cases =>
    cases works with
    | true => exact commitSuite_step change user suite cases
    | false => exact .answer _ _ _
  | reviewing user event =>
    cases works with
    | true => exact commitEvent_step change user event
    | false => exact .answer _ _ _
  | patched suite cases =>
    simp only [ChangePhase.next]
    cases db.suites.get? suite.id with
    | none => exact .answer _ _ _
    | some row => exact .answer _ _ _
  | answered response => exact .answer _ _ _

end

/-! ## Undisturbed -/

/-- The two suites agree wherever the request sets a field. -/
structure AgreeOn (data : SuiteUpdate) (loaded stored : TestSuite) : Prop where
  name : data.name.isSome → stored.name = loaded.name
  description : data.description.isSome → stored.description = loaded.description
  targetBaseUrl : data.targetBaseUrl.isSome → stored.targetBaseUrl = loaded.targetBaseUrl
  tags : data.tags.isSome → stored.tags = loaded.tags
  isActive : data.isActive.isSome → stored.isActive = loaded.isActive

theorem AgreeOn.refl (data : SuiteUpdate) (suite : TestSuite) : AgreeOn data suite suite :=
  ⟨fun _ => rfl, fun _ => rfl, fun _ => rfl, fun _ => rfl, fun _ => rfl⟩

theorem AgreeOn.trans {data : SuiteUpdate} {a b c : TestSuite} (h : AgreeOn data a b)
    (h' : AgreeOn data b c) : AgreeOn data a c where
  name hset := (h'.name hset).trans (h.name hset)
  description hset := (h'.description hset).trans (h.description hset)
  targetBaseUrl hset := (h'.targetBaseUrl hset).trans (h.targetBaseUrl hset)
  tags hset := (h'.tags hset).trans (h.tags hset)
  isActive hset := (h'.isActive hset).trans (h.isActive hset)

theorem required_written {α : Type} [DecidableEq α] {loaded current stored : α}
    {supplied : Option (Option α)} (h : SuiteService.required loaded supplied = some current)
    (hagree : supplied.isSome → stored = loaded) :
    SuiteService.required stored supplied = some (written loaded current stored) := by
  rcases supplied with _ | _ | value
  · obtain rfl := Option.some.inj h
    rw [written_same]
    rfl
  · cases h
  · obtain rfl := Option.some.inj h
    rw [hagree rfl, written_loaded]
    rfl

theorem nullable_written {α : Type} [DecidableEq α] {loaded stored : Option α}
    {supplied : Option (Option α)} (hagree : supplied.isSome → stored = loaded) :
    SuiteService.nullable stored supplied =
      written loaded (SuiteService.nullable loaded supplied) stored := by
  cases supplied with
  | none => exact (written_same loaded stored).symm
  | some value => rw [hagree rfl, written_loaded]

/-- What is written back is what the request makes of the stored row, if nobody wrote the fields it
sets. -/
theorem patch_writeBack {loaded current stored : TestSuite} {data : SuiteUpdate}
    (h : SuiteService.patch loaded data = some current) (hagree : AgreeOn data loaded stored) :
    SuiteService.patch stored data = some (writeBackSuite loaded current stored) := by
  unfold SuiteService.patch at h
  simp only [Option.bind_eq_bind, Option.bind_eq_some_iff, Option.pure_def, Option.some.injEq] at h
  obtain ⟨name, hname, url, hurl, active, hactive, rfl⟩ := h
  simp only [SuiteService.patch, required_written hname hagree.name,
    required_written hurl hagree.targetBaseUrl, required_written hactive hagree.isActive,
    nullable_written hagree.description, nullable_written hagree.tags, writeBackSuite,
    Option.bind_eq_bind, Option.bind_some, Option.pure_def]

section
variable {db : Database} {userId suiteId : Uuid} {user : User}

theorem putSuite_eq {loaded stored : TestSuite} (current : TestSuite)
    (hget : db.suites.get? loaded.id = some stored) :
    putSuite db loaded current = SuiteService.setSuite db (writeBackSuite loaded current stored) := by
  have hid : stored.id = loaded.id := Table.get?_key hget
  have htable : db.suites.modify loaded.id (writeBackSuite loaded current)
        (fun _ => id_writeBackSuite ..) =
      db.suites.modify (writeBackSuite loaded current stored).id
        (fun row => { writeBackSuite loaded current stored with id := row.id }) fun _ => rfl := by
    change _ = db.suites.modify stored.id _ _
    rw [hid]
    apply Table.modify_congr
    intro row hrow
    obtain rfl := Option.some.inj (hget.symm.trans hrow)
    rfl
  unfold putSuite SuiteService.setSuite
  rw [htable]

theorem setSuite_of_same {suite : TestSuite} (hget : db.suites.get? suite.id = some suite) :
    SuiteService.setSuite db suite = db := by
  have htable : db.suites.modify suite.id (fun stored => { suite with id := stored.id })
      (fun _ => rfl) = db.suites := by
    apply Table.modify_of_same
    intro row hrow
    obtain rfl := Option.some.inj (hget.symm.trans hrow)
    rfl
  unfold SuiteService.setSuite
  rw [htable]

theorem setAccepted_of_same {event : HealingEvent} {accepted : Bool}
    (hget : db.healingEvents.get? event.id = some event)
    (hsame : { event with accepted := some accepted } = event) :
    HealingService.setAccepted db event.id accepted = db := by
  have htable : db.healingEvents.modify event.id (fun e => { e with accepted := some accepted })
      (fun _ => rfl) = db.healingEvents := by
    apply Table.modify_of_same
    intro row hrow
    obtain rfl := Option.some.inj (hget.symm.trans hrow)
    exact hsame
  unfold HealingService.setAccepted
  rw [htable]

/-- The endpoint of an edit, as a state of its own accesses. -/
def Change.handled (db : Database) (userId : Uuid) (change : Change) : Database × ChangePhase :=
  ((handle db userId true false (.write change.write)).1,
    .answered (handle db userId true false (.write change.write)).2.2)

theorem update_phases (data : SuiteUpdate) (huser : engineer db userId = .ok user) :
    ∃ n, ((fun s : Database × ChangePhase => s.2.next userId (.update suiteId data) true s.1)^[n]
      (db, .authorised user)) = Change.handled db userId (.update suiteId data) := by
  cases hmutable : SuiteService.mutable db suiteId user with
  | error e =>
    refine ⟨1, ?_⟩
    simp [ChangePhase.next, Change.read, Change.handled, Change.write, handle, handleWrite,
      SuiteService.update, huser, hmutable]
  | ok suite =>
    have hget := (SuiteService.mutable_ok hmutable).1
    cases hpatch : SuiteService.patch suite data with
    | none =>
      refine ⟨2, ?_⟩
      simp [ChangePhase.next, Change.read, Change.commitSuite, Change.handled, Change.write, handle,
        handleWrite, SuiteService.update, huser, hmutable, hpatch]
    | some current =>
      have hid : current.id = suite.id := (SuiteService.patch_some hpatch).1
      have hback : writeBackSuite suite current suite = current :=
        Option.some.inj ((patch_writeBack hpatch (.refl data suite)).symm.trans hpatch)
      have hput : flushed suite current (some suite) db (putSuite db suite current) =
          some (SuiteService.setSuite db current) := by
        unfold flushed
        by_cases hsame : current = suite
        · rw [if_pos hsame, hsame, setSuite_of_same hget]
        · rw [if_neg hsame, putSuite_eq current hget, hback]
      have hafter := get?_setSuite hget hid
      rw [← hid] at hafter
      have hrender : renderStored (SuiteService.setSuite db current) current.id =
          renderSuite current (db.casesOf suiteId) := by
        have hsuiteId : suite.id = suiteId := Table.get?_key (SuiteService.mutable_get hmutable)
        have hcases : (SuiteService.setSuite db current).casesOf current.id = db.casesOf suiteId := by
          rw [hid, hsuiteId]
          rfl
        rw [← hcases]
        simp only [renderStored, SuiteService.get, Database.getWithCases, hafter, Option.map_some]
      refine ⟨3, ?_⟩
      simp [ChangePhase.next, Change.read, Change.commitSuite, Change.handled, Change.write, handle,
        handleWrite, SuiteService.update, huser, hmutable, hpatch, hget, hput, hafter, hrender]

theorem review_phases (eventId : Uuid) (accepted : Bool) (huser : engineer db userId = .ok user) :
    ∃ n, ((fun s : Database × ChangePhase => s.2.next userId (.review eventId accepted) true s.1)^[n]
      (db, .authorised user)) = Change.handled db userId (.review eventId accepted) := by
  cases hget : db.healingEvents.get? eventId with
  | none =>
    refine ⟨1, ?_⟩
    simp [ChangePhase.next, Change.read, Change.handled, Change.write, handle, handleWrite,
      HealingService.review, huser, hget]
  | some event =>
    obtain rfl : event.id = eventId := Table.get?_key hget
    have hput : flushed event { event with accepted := some accepted } (some event) db
        (HealingService.setAccepted db event.id accepted) =
          some (HealingService.setAccepted db event.id accepted) := by
      unfold flushed
      by_cases hsame : { event with accepted := some accepted } = event
      · rw [if_pos hsame, setAccepted_of_same hget hsame]
      · rw [if_neg hsame]
    refine ⟨2, ?_⟩
    simp [ChangePhase.next, Change.read, Change.commitEvent, Change.handled, Change.write, handle,
      handleWrite, HealingService.review, huser, hget, hput]

/-- Without interruption, the accesses of an edit are its endpoint. -/
theorem edit_phases (db : Database) (userId : Uuid) (change : Change) :
    ∃ n, ((fun s : Database × ChangePhase => s.2.next userId change true s.1)^[n] (db, .received)) =
      change.handled db userId := by
  cases huser : engineer db userId with
  | error e => exact ⟨1, by simp [ChangePhase.next, Change.handled, handle, huser]⟩
  | ok user =>
    have hfirst : ChangePhase.received.next userId change true db = (db, .authorised user) := by
      simp [ChangePhase.next, huser]
    suffices hrest : ∃ n, ((fun s : Database × ChangePhase => s.2.next userId change true s.1)^[n]
        (db, .authorised user)) = change.handled db userId by
      obtain ⟨n, hn⟩ := hrest
      exact ⟨n + 1, by rw [Function.iterate_succ_apply, hfirst, hn]⟩
    cases change with
    | update suiteId data => exact update_phases data huser
    | review eventId accepted => exact review_phases eventId accepted huser
    | delete suiteId =>
      cases hmutable : SuiteService.mutable db suiteId user with
      | error e =>
        refine ⟨1, ?_⟩
        simp [ChangePhase.next, Change.read, Change.handled, Change.write, handle, handleWrite,
          SuiteService.delete, huser, hmutable]
      | ok suite =>
        have hget := (SuiteService.mutable_ok hmutable).1
        refine ⟨2, ?_⟩
        simp [ChangePhase.next, Change.read, Change.commitSuite, Change.handled, Change.write, handle,
          handleWrite, SuiteService.delete, huser, hmutable, hget]
    | addCase suiteId data =>
      cases hmutable : SuiteService.mutable db suiteId user with
      | error e =>
        refine ⟨1, ?_⟩
        simp [ChangePhase.next, Change.read, Change.handled, Change.write, handle, handleWrite,
          SuiteService.addCase, huser, hmutable]
      | ok suite =>
        have hget := (SuiteService.mutable_ok hmutable).1
        refine ⟨2, ?_⟩
        simp [ChangePhase.next, Change.read, Change.commitSuite, Change.handled, Change.write, handle,
          handleWrite, SuiteService.addCase, huser, hmutable, hget]

end

end AegisPlatform.Api
