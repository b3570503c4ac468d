import AegisPlatform.Api.Authentication

/-! # The live run feed

`_authorized` and the admission of `stream_run` in `api/v1/ws.py`, next to `get_current_user`. Both
read the token as an access token; only the second looks the account up. So they part on a token
that can be read and names an account that is gone or switched off.
-/

namespace AegisPlatform.Api
open Foundations Domain Core Db Services
set_option autoImplicit false
set_option maxHeartbeats 250000

inductive Environment
  | local | test | staging | production
deriving DecidableEq, Repr

/-- `_authorized`. -/
def authorized (decode : String → Except JwtError Payload) (environment : Environment)
    (token : Option String) : Bool :=
  if truthy token then
    match decodeToken decode (token.getD "") (some .access) with
    | .ok _ => true
    | .error _ => false
  else
    -- a token is mandatory everywhere except truly-local development
    environment == .local

inductive StreamAnswer
  | closed (code : ℕ)
  | accepted (channel : String)
deriving DecidableEq

def streamRun (sec : Security) (decode : String → Except JwtError Payload)
    (environment : Environment) (runId : Uuid) (token : Option String) : StreamAnswer :=
  if !authorized decode environment token then .closed 1008
  else .accepted ("run:" ++ sec.uuid.str runId)

section
variable {sec : Security} {decode : String → Except JwtError Payload} {environment : Environment}
  {token : String}

theorem streamRun_accepts_iff {runId : Uuid} {token : Option String} :
    (∃ channel, streamRun sec decode environment runId token = .accepted channel) ↔
      authorized decode environment token = true := by
  unfold streamRun
  cases authorized decode environment token with
  | false => simp
  | true => simp

theorem authorized_iff (hempty : ∀ payload, decode "" ≠ .ok payload)
    (henv : environment ≠ .local) :
    authorized decode environment (some token) = true ↔
      ∃ payload, decode token = .ok payload ∧ payload.type = .access := by
  have hread : (∃ data, decodeToken decode token (some .access) = .ok data) ↔
      ∃ payload, decode token = .ok payload ∧ payload.type = .access := by
    constructor
    · rintro ⟨data, hdata⟩
      obtain ⟨payload, hdecode, htype, -⟩ := decodeToken_ok_iff.mp hdata
      exact ⟨payload, hdecode, htype⟩
    · rintro ⟨payload, hdecode, htype⟩
      exact ⟨_, decodeToken_ok_iff.mpr ⟨payload, hdecode, htype, rfl⟩⟩
  rw [← hread]
  by_cases hblank : token = ""
  · subst hblank
    have hnot : ¬ ∃ data, decodeToken decode "" (some .access) = .ok data := by
      rintro ⟨data, hdata⟩
      obtain ⟨payload, hdecode, -⟩ := decodeToken_ok_iff.mp hdata
      exact hempty payload hdecode
    simp [authorized, truthy, henv, hnot]
  · have htruthy : truthy (some token) = true := by simpa [truthy] using hblank
    unfold authorized
    rw [if_pos htruthy]
    simp only [Option.getD_some]
    cases decodeToken decode token (some .access) with
    | error e => simp
    | ok data => simp

/-- Outside local development the two ways in agree on a token iff it is no live access token, or
names an account that is still there and active. -/
theorem stream_agrees_iff (sec : Security) (decode : String → Except JwtError Payload)
    (db : Database) (environment : Environment) (runId : Uuid) (token : String)
    (hempty : ∀ payload, decode "" ≠ .ok payload) (henv : environment ≠ .local) :
    ((∃ channel, streamRun sec decode environment runId (some token) = .accepted channel) ↔
        ∃ user, getCurrentUser sec decode db token = .ok user) ↔
      ∀ payload, decode token = .ok payload → payload.type = .access →
        ∃ user, sec.uuid.parse payload.sub = some user.id ∧
          db.users.get? user.id = some user ∧ user.isActive = true := by
  rw [streamRun_accepts_iff, authorized_iff hempty henv]
  constructor
  · intro hagree payload hdecode htype
    obtain ⟨user, huser⟩ := hagree.mp ⟨payload, hdecode, htype⟩
    obtain ⟨payload', hdecode', -, haccount⟩ := getCurrentUser_ok_iff.mp huser
    obtain rfl := Except.ok.inj (hdecode.symm.trans hdecode')
    exact ⟨user, haccount⟩
  · intro haccounts
    constructor
    · rintro ⟨payload, hdecode, htype⟩
      obtain ⟨user, haccount⟩ := haccounts payload hdecode htype
      exact ⟨user, getCurrentUser_ok_iff.mpr ⟨payload, hdecode, htype, haccount⟩⟩
    · rintro ⟨user, huser⟩
      obtain ⟨payload, hdecode, htype, -⟩ := getCurrentUser_ok_iff.mp huser
      exact ⟨payload, hdecode, htype⟩

end

/-! ## An account that is switched off -/

def switchedOff : List AccountAction :=
  [.register adaCreate 7, .login "ada@example.com" "engine no. 1" ("a1", "r1"), .setActive 0 false]

theorem switchedOff_run :
    (exec (@Accounts.next asciiUnicode plainSecurity) noAccounts switchedOff).map
        (fun s => (s.now, s.issued, s.db.users.rows)) =
      some (100, [adaLogin], [{ adaAccount with isActive := false }]) := by
  decide +kernel

/-- No token is the empty text. -/
theorem plain_decode_empty (s : Accounts) (payload : Payload) :
    s.decode plainSecurity "" ≠ .ok payload := by
  intro h
  obtain ⟨-, htext, -⟩ := Jwt.decode_ok_iff.mp h
  have hnil := congrArg String.toList htext
  have htext : plainSecurity.jwt.encode payload = String.ofList (claimsText payload) := rfl
  rw [htext, String.toList_ofList] at hnil
  simp [claimsText, fieldText] at hnil

theorem ada_streams_on :
    ∃ s, Run (ofNext (@Accounts.next asciiUnicode plainSecurity)) noAccounts switchedOff s ∧
      ¬ ((∃ channel, streamRun plainSecurity (s.decode plainSecurity) .production 0
            (some (adaLogin.tokens plainSecurity).accessToken) = .accepted channel) ↔
          ∃ user, getCurrentUser plainSecurity (s.decode plainSecurity) s.db
            (adaLogin.tokens plainSecurity).accessToken = .ok user) := by
  obtain ⟨s, hexec, hs⟩ := Option.map_eq_some_iff.mp switchedOff_run
  obtain ⟨hnow, hissued, hrows⟩ : s.now = 100 ∧ s.issued = [adaLogin] ∧
      s.db.users.rows = [{ adaAccount with isActive := false }] := by simpa using hs
  have hread : s.decode plainSecurity (adaLogin.tokens plainSecurity).accessToken =
      .ok (adaLogin.access plainSecurity) := by
    refine Jwt.decode_ok_iff.mpr ⟨?_, rfl, ?_⟩
    · simp [Accounts.payloads, hissued]
    · rw [hnow]
      decide +kernel
  refine ⟨s, exec_run hexec, ?_⟩
  intro hagree
  rw [streamRun_accepts_iff, authorized_iff (plain_decode_empty s) (by decide)] at hagree
  obtain ⟨user, huser⟩ := hagree.mp ⟨_, hread, rfl⟩
  obtain ⟨-, -, -, -, hrow, hactive⟩ := getCurrentUser_ok_iff.mp huser
  have hmem := Table.get?_mem hrow
  rw [hrows, List.mem_singleton] at hmem
  rw [hmem] at hactive
  cases hactive

/-- With the account switched off, the agreement is broken exactly by her live token. -/
theorem ada_agrees_iff :
    ∃ s, Run (ofNext (@Accounts.next asciiUnicode plainSecurity)) noAccounts switchedOff s ∧
      ∀ token, ((∃ channel, streamRun plainSecurity (s.decode plainSecurity) .production 0
            (some token) = .accepted channel) ↔
          ∃ user, getCurrentUser plainSecurity (s.decode plainSecurity) s.db token = .ok user) ↔
        ∀ payload, s.decode plainSecurity token = .ok payload → payload.type = .access →
          ∃ user, plainSecurity.uuid.parse payload.sub = some user.id ∧
            s.db.users.get? user.id = some user ∧ user.isActive = true := by
  obtain ⟨s, hexec, -⟩ := Option.map_eq_some_iff.mp switchedOff_run
  refine ⟨s, exec_run hexec, ?_⟩
  intro token
  exact stream_agrees_iff plainSecurity (s.decode plainSecurity) s.db .production 0 token
    (plain_decode_empty s) (by decide)

end AegisPlatform.Api
