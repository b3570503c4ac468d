import AegisPlatform.Core.Exceptions
import AegisPlatform.Db.Models

/-! # Accounts and reviews

`AuthService.register` of `services/auth_service.py` and `HealingService` of
`services/healing_service.py`. The password hash is a parameter.
-/

namespace AegisPlatform.Services
open Foundations Domain Core Db
set_option autoImplicit false
set_option maxHeartbeats 250000

namespace AuthService

section
variable [Unicode]

def emailTaken : Failure :=
  .aegis (AegisError.init .conflict "Email is already registered." "email_taken")

def newUser (hashPassword : String → String) (data : UserCreate) (id : Uuid) : User :=
  { id := id
    email := lower data.email
    fullName := data.fullName
    hashedPassword := hashPassword data.password
    role := data.role }

@[simp] theorem id_newUser (hashPassword : String → String) (data : UserCreate) (id : Uuid) :
    (newUser hashPassword data id).id = id := rfl

def insertUser (hashPassword : String → String) (db : Database) (data : UserCreate) : Database :=
  { db with users := db.users.insert (newUser hashPassword data) fun _ => id_newUser .. }

def register (hashPassword : String → String) (db : Database) (data : UserCreate) :
    Except Failure (User × Database) :=
  match db.getByEmail data.email with
  | some _ => .error emailTaken
  | none => .ok (newUser hashPassword data db.users.next, insertUser hashPassword db data)

end

variable [Unicode]

theorem register_ok {hashPassword : String → String} {db db' : Database} {data : UserCreate}
    {user : User} (h : register hashPassword db data = .ok (user, db')) :
    user = newUser hashPassword data db.users.next ∧ db' = insertUser hashPassword db data := by
  unfold register at h
  split at h
  · cases h
  · obtain ⟨rfl, rfl⟩ := Prod.mk.inj (Except.ok.inj h)
    exact ⟨rfl, rfl⟩

end AuthService

namespace HealingService

def eventNotFound : Failure := .aegis (AegisError.init .notFound "Healing event not found.")

/-- `HealingRepository.list_for_run`. -/
def listForRun (db : Database) (runId : Uuid) : List HealingEvent :=
  db.arrangement.events (db.eventsOf runId)

def setAccepted (db : Database) (eventId : Uuid) (accepted : Bool) : Database :=
  { db with
    healingEvents := db.healingEvents.modify eventId fun e => { e with accepted := some accepted } }

def review (db : Database) (eventId : Uuid) (accepted : Bool) :
    Except Failure (HealingEvent × Database) :=
  match db.healingEvents.get? eventId with
  | none => .error eventNotFound
  | some e => .ok ({ e with accepted := some accepted }, setAccepted db eventId accepted)

theorem review_ok {db db' : Database} {eventId : Uuid} {accepted : Bool} {event : HealingEvent}
    (h : review db eventId accepted = .ok (event, db')) :
    db' = setAccepted db eventId accepted := by
  unfold review at h
  split at h
  · cases h
  · exact (Prod.mk.inj (Except.ok.inj h)).2.symm

theorem mem_setAccepted {db : Database} {eventId : Uuid} {accepted : Bool} {e : HealingEvent}
    (h : e ∈ (setAccepted db eventId accepted).healingEvents.rows) :
    ∃ stored ∈ db.healingEvents.rows,
      e = if stored.id = eventId then { stored with accepted := some accepted } else stored := by
  obtain ⟨stored, hstored, rfl⟩ := List.mem_map.mp h
  exact ⟨stored, hstored, rfl⟩

end HealingService

end AegisPlatform.Services
