import AegisPlatform.Api.Handlers
import AegisPlatform.Foundations.Runs
import AegisPlatform.Services.AuthService

/-! # Authentication over runs

`get_current_user`, and the accounts of a platform as they register, log in, refresh and are
switched off and on again while the clock advances. `Issuance` records for each pair of tokens to
whom, when and for what it was given; the signature knows the payloads of these pairs and no other.

`Granted` says what an issuance rests on: a login with the password of the account, or a refresh
token of an earlier granted one.
-/

namespace AegisPlatform.Api
open Foundations Domain Core Db Services
set_option autoImplicit false
set_option maxHeartbeats 250000

def getCurrentUser (sec : Security) (decode : String → Except JwtError Payload) (db : Database)
    (token : String) : Except AuthFailure User :=
  match decodeToken decode token (some .access) with
  | .error e => .error (.failure (.aegis e))
  | .ok data =>
    match sec.uuid.parse data.subject with
    | none => .error .valueError
    | some userId =>
      match currentUser db userId with
      | .error e => .error (.failure e)
      | .ok user => .ok user

theorem getCurrentUser_ok_iff {sec : Security} {decode : String → Except JwtError Payload}
    {db : Database} {token : String} {user : User} :
    getCurrentUser sec decode db token = .ok user ↔
      ∃ payload, decode token = .ok payload ∧ payload.type = .access ∧
        sec.uuid.parse payload.sub = some user.id ∧ db.users.get? user.id = some user ∧
        user.isActive = true := by
  unfold getCurrentUser
  constructor
  · intro h
    split at h
    · cases h
    · next data hdata =>
      obtain ⟨payload, hdecode, htype, rfl⟩ := decodeToken_ok_iff.mp hdata
      split at h
      · cases h
      · next userId hparse =>
        split at h
        · cases h
        · next user' huser =>
          obtain rfl := Except.ok.inj h
          obtain ⟨hrow, hactive⟩ := currentUser_ok huser
          rw [← Table.get?_key hrow] at hparse hrow
          exact ⟨payload, hdecode, htype, hparse, hrow, hactive⟩
  · rintro ⟨payload, hdecode, htype, hparse, hrow, hactive⟩
    rw [decodeToken_ok_iff.mpr ⟨payload, hdecode, htype, rfl⟩]
    simp only [hparse, currentUser, hrow, hactive, if_true]

/-! ## Issued tokens -/

inductive Cause
  | login (password : String)
  | refresh (token : String)
deriving DecidableEq

structure Issuance where
  user : User
  time : ℚ
  cause : Cause
  jtis : String × String
deriving DecidableEq

namespace Issuance

def tokens (sec : Security) (g : Issuance) : Token := AuthService.issueTokens sec g.user g.jtis g.time

def access (sec : Security) (g : Issuance) : Payload := sec.payload g.user .access g.jtis.1 g.time

def refresh (sec : Security) (g : Issuance) : Payload := sec.payload g.user .refresh g.jtis.2 g.time

end Issuance

/-- The accounts and the tokens issued so far; the clock has passed the epoch. -/
structure Accounts where
  now : ℚ
  now_nonneg : 0 ≤ now
  db : Database
  issued : List Issuance := []

inductive AccountAction
  | register (data : UserCreate) (salt : ℕ)
  | login (username password : String) (jtis : String × String)
  | refresh (token : String) (jtis : String × String)
  | advance (time : ℚ)
  | setActive (userId : Uuid) (active : Bool)

def setActive (db : Database) (userId : Uuid) (active : Bool) : Database :=
  { db with users := db.users.modify userId fun u => { u with isActive := active } }

namespace Accounts

def payloads (sec : Security) (s : Accounts) : List Payload :=
  s.issued.flatMap fun g => [g.access sec, g.refresh sec]

def decode (sec : Security) (s : Accounts) : String → Except JwtError Payload :=
  sec.jwt.decode (s.payloads sec) s.now

def issue (user : User) (cause : Cause) (jtis : String × String) (s : Accounts) : Accounts :=
  { s with issued := s.issued ++ [⟨user, s.now, cause, jtis⟩] }

/-- A refused request changes nothing. -/
def next [Unicode] (sec : Security) (s : Accounts) : AccountAction → Option Accounts
  | .register data salt =>
    match register (sec.passwords.hash salt) s.db data with
    | .error _ => some s
    | .ok (_, db) => some { s with db := db }
  | .login username password jtis =>
    match AuthService.authenticate sec s.db username password with
    | .error _ => some s
    | .ok user => some (s.issue user (.login password) jtis)
  | .refresh token jtis =>
    match AuthService.refreshed sec (s.decode sec) s.db token with
    | .error _ => some s
    | .ok user => some (s.issue user (.refresh token) jtis)
  | .advance time =>
    if h : s.now ≤ time then some { s with now := time, now_nonneg := s.now_nonneg.trans h }
    else none
  | .setActive userId active => some { s with db := setActive s.db userId active }

end Accounts

/-- A login of an active account with its password, or a refresh of an active account by the
refresh token of a granted pair that was young enough. -/
inductive Granted (sec : Security) (issued : List Issuance) : Issuance → Prop
  | login {g : Issuance} {password : String} (hg : g ∈ issued) (hcause : g.cause = .login password)
      (hpassword : sec.IsPassword g.user password) (hactive : g.user.isActive = true) :
      Granted sec issued g
  | refresh {g prev : Issuance} (hprev : Granted sec issued prev) (hg : g ∈ issued)
      (hcause : g.cause = .refresh (prev.tokens sec).refreshToken)
      (huser : g.user.id = prev.user.id) (hactive : g.user.isActive = true)
      (hafter : prev.time ≤ g.time) (hage : g.time - prev.time < sec.refreshTokenTtlSeconds) :
      Granted sec issued g

section
variable {sec : Security} {issued : List Issuance} {g : Issuance}

theorem Granted.mono {issued' : List Issuance} (hsub : ∀ g ∈ issued, g ∈ issued')
    (h : Granted sec issued g) : Granted sec issued' g := by
  induction h with
  | login hg hcause hpassword hactive => exact .login (hsub _ hg) hcause hpassword hactive
  | refresh _ hg hcause huser hactive hafter hage ih =>
    exact .refresh ih (hsub _ hg) hcause huser hactive hafter hage

end

namespace Accounts

section
variable {sec : Security} {s t : Accounts} {token : String} {payload : Payload}

/-- A token that is read is one of those issued, and not yet as old as its kind lives. -/
theorem decode_ok (h : s.decode sec token = .ok payload) :
    ∃ g ∈ s.issued, (payload = g.access sec ∨ payload = g.refresh sec) ∧
      token = sec.jwt.encode payload ∧ s.now - g.time < sec.ttl payload.type := by
  obtain ⟨hmem, htoken, hlive⟩ := Jwt.decode_ok_iff.mp h
  obtain ⟨g, hg, hpair⟩ := List.mem_flatMap.mp hmem
  have hcases : payload = g.access sec ∨ payload = g.refresh sec := by simpa using hpair
  have hexp : payload.exp = truncate (g.time + sec.ttl payload.type) := by
    rcases hcases with rfl | rfl
    · rfl
    · rfl
  rw [hexp] at hlive
  have hage : s.now < g.time + sec.ttl payload.type := lt_of_lt_truncate s.now_nonneg hlive
  exact ⟨g, hg, hcases, htoken.symm, by linarith⟩

theorem decode_access (h : s.decode sec token = .ok payload) (htype : payload.type = .access) :
    ∃ g ∈ s.issued, payload = g.access sec ∧ token = (g.tokens sec).accessToken ∧
      s.now - g.time < sec.accessTokenTtlSeconds := by
  obtain ⟨g, hg, rfl | rfl, htoken, hage⟩ := decode_ok h
  · exact ⟨g, hg, rfl, htoken, hage⟩
  · cases htype

theorem decode_refresh (h : s.decode sec token = .ok payload) (htype : payload.type = .refresh) :
    ∃ g ∈ s.issued, payload = g.refresh sec ∧ token = (g.tokens sec).refreshToken ∧
      s.now - g.time < sec.refreshTokenTtlSeconds := by
  obtain ⟨g, hg, rfl | rfl, htoken, hage⟩ := decode_ok h
  · cases htype
  · exact ⟨g, hg, rfl, htoken, hage⟩

/-- The kind of a token is part of what is signed. -/
theorem type_of_decode {signed : Payload} (h : s.decode sec (sec.jwt.encode signed) = .ok payload) :
    payload.type = signed.type := by
  obtain ⟨-, htoken, -⟩ := Jwt.decode_ok_iff.mp h
  rw [sec.jwt.encode_injective htoken]

/-! ## The invariant -/

structure Sound (sec : Security) (s : Accounts) : Prop where
  known : ∀ user ∈ s.db.users.rows, ∃ password, sec.IsPassword user password
  granted : ∀ g ∈ s.issued, Granted sec s.issued g
  past : ∀ g ∈ s.issued, g.time ≤ s.now

theorem sound_issue (hs : Sound sec s) {user : User} {cause : Cause} {jtis : String × String}
    (h : Granted sec (s.issue user cause jtis).issued ⟨user, s.now, cause, jtis⟩) :
    Sound sec (s.issue user cause jtis) := by
  refine ⟨hs.known, ?_, ?_⟩
  · intro g hg
    rcases List.mem_append.mp hg with hold | hnew
    · exact (hs.granted g hold).mono fun _ h => List.mem_append_left _ h
    · rw [List.mem_singleton.mp hnew]
      exact h
  · intro g hg
    rcases List.mem_append.mp hg with hold | hnew
    · exact hs.past g hold
    · rw [List.mem_singleton.mp hnew]
      exact le_refl _

theorem sound_login [Unicode] (hs : Sound sec s) {username password : String} {user : User}
    (jtis : String × String) (h : AuthService.authenticate sec s.db username password = .ok user) :
    Sound sec (s.issue user (.login password) jtis) := by
  obtain ⟨hrow, hverify, hactive⟩ := AuthService.authenticate_ok h
  have hpassword := AuthService.isPassword_of_verify (hs.known user hrow) hverify
  exact sound_issue hs
    (.login (List.mem_append_right _ (List.mem_singleton_self _)) rfl hpassword hactive)

theorem sound_refresh (hs : Sound sec s) {user : User} (jtis : String × String)
    (h : AuthService.refreshed sec (s.decode sec) s.db token = .ok user) :
    Sound sec (s.issue user (.refresh token) jtis) := by
  obtain ⟨payload, hdecode, htype, hparse, -, hactive⟩ := AuthService.refreshed_ok h
  obtain ⟨prev, hprev, rfl, rfl, hage⟩ := decode_refresh hdecode htype
  have huser : user.id = prev.user.id :=
    Option.some.inj (hparse.symm.trans (sec.uuid.parse_str prev.user.id))
  have hgranted := (hs.granted prev hprev).mono fun _ hg =>
    List.mem_append_left [⟨user, s.now, .refresh (prev.tokens sec).refreshToken, jtis⟩] hg
  exact sound_issue hs (.refresh hgranted (List.mem_append_right _ (List.mem_singleton_self _)) rfl
    huser hactive (hs.past prev hprev) hage)

theorem sound_step [Unicode] {l : AccountAction} (hs : Sound sec s) (h : s.next sec l = some t) :
    Sound sec t := by
  cases l with
  | register data salt =>
    simp only [next] at h
    split at h
    · obtain rfl := Option.some.inj h
      exact hs
    · next hregister =>
      obtain rfl := Option.some.inj h
      obtain ⟨-, -, rfl⟩ := register_ok hregister
      refine ⟨?_, hs.granted, hs.past⟩
      intro user huser
      rcases List.mem_append.mp huser with hold | hnew
      · exact hs.known user hold
      · rw [List.mem_singleton.mp hnew]
        exact ⟨data.password, salt, rfl⟩
  | login username password jtis =>
    simp only [next] at h
    split at h
    · obtain rfl := Option.some.inj h
      exact hs
    · next user huser =>
      obtain rfl := Option.some.inj h
      exact sound_login hs jtis huser
  | refresh token jtis =>
    simp only [next] at h
    split at h
    · obtain rfl := Option.some.inj h
      exact hs
    · next user huser =>
      obtain rfl := Option.some.inj h
      exact sound_refresh hs jtis huser
  | advance time =>
    simp only [next] at h
    split at h
    · next hle =>
      obtain rfl := Option.some.inj h
      exact ⟨hs.known, hs.granted, fun g hg => (hs.past g hg).trans hle⟩
    · cases h
  | setActive userId active =>
    obtain rfl := Option.some.inj h
    refine ⟨?_, hs.granted, hs.past⟩
    intro user huser
    obtain ⟨row, hrow, rfl⟩ := List.mem_map.mp huser
    split
    · exact hs.known row hrow
    · exact hs.known row hrow

end

/-- What an accepted token proves: the account is active now, and the token is an access token
granted to it that is not yet `access_token_ttl_seconds` old. -/
structure Authentic (sec : Security) (s : Accounts) (token : String) (user : User) : Prop where
  row : s.db.users.get? user.id = some user
  active : user.isActive = true
  granted : ∃ g, Granted sec s.issued g ∧ g.user.id = user.id ∧
    token = (g.tokens sec).accessToken ∧ g.time ≤ s.now ∧
    s.now - g.time < sec.accessTokenTtlSeconds

/-- In every run that starts with no token issued. -/
theorem authentication_sound [Unicode] (sec : Security) (start s : Accounts)
    (ls : List AccountAction) (hissued : start.issued = [])
    (hknown : ∀ user ∈ start.db.users.rows, ∃ password, sec.IsPassword user password)
    (hrun : Run (ofNext (next sec)) start ls s) :
    (∀ token user, getCurrentUser sec (s.decode sec) s.db token = .ok user →
        Authentic sec s token user) ∧
      (∀ g ∈ s.issued, ∀ user,
        getCurrentUser sec (s.decode sec) s.db (g.tokens sec).refreshToken ≠ .ok user) ∧
      ∀ g ∈ s.issued, ∀ jtis tokens,
        AuthService.refresh sec (s.decode sec) s.db (g.tokens sec).accessToken jtis s.now ≠
          .ok tokens := by
  have hnone : ∀ g, g ∉ start.issued := by
    rw [hissued]
    exact fun g => List.not_mem_nil
  have hsound : Sound sec s := by
    refine hrun.invariant (fun _ _ _ hi hstep => sound_step hi hstep) ⟨hknown, ?_, ?_⟩
    · exact fun g hg => absurd hg (hnone g)
    · exact fun g hg => absurd hg (hnone g)
  refine ⟨?_, ?_, ?_⟩
  · intro token user huser
    obtain ⟨payload, hdecode, htype, hparse, hrow, hactive⟩ := getCurrentUser_ok_iff.mp huser
    obtain ⟨g, hg, rfl, htoken, hage⟩ := decode_access hdecode htype
    have hid : user.id = g.user.id :=
      Option.some.inj (hparse.symm.trans (sec.uuid.parse_str g.user.id))
    exact ⟨hrow, hactive, g, hsound.granted g hg, hid.symm, htoken, hsound.past g hg, hage⟩
  · intro g _ user huser
    obtain ⟨payload, hdecode, htype, -⟩ := getCurrentUser_ok_iff.mp huser
    have hkind : payload.type = .refresh := type_of_decode hdecode
    cases htype.symm.trans hkind
  · intro g _ jtis tokens hrefresh
    unfold AuthService.refresh at hrefresh
    split at hrefresh
    · cases hrefresh
    · next user huser =>
      obtain ⟨payload, hdecode, htype, -⟩ := AuthService.refreshed_ok huser
      have hkind : payload.type = .access := type_of_decode hdecode
      cases htype.symm.trans hkind

end Accounts

/-! ## A platform with plain libraries

Nothing is hashed or signed below: a password is stored behind its salt, a token is the text of its
claims, an id the text of a number.
-/

theorem dropWhile_salt (salt : ℕ) (rest : List Char) :
    (Nat.toDigits 10 salt ++ '$' :: rest).dropWhile (· != '$') = '$' :: rest := by
  rw [List.dropWhile_append_of_pos]
  · rfl
  · intro c hc
    have hdigit := Nat.isDigit_of_mem_toDigits (by decide) (by decide) hc
    have hne : c ≠ '$' := by
      rintro rfl
      exact absurd hdigit (by decide)
    simpa using hne

def plainPasswords : PasswordContext where
  hash salt password := String.ofList (Nat.toDigits 10 salt ++ '$' :: password.toList)
  verify raw hashed := hashed.toList.dropWhile (· != '$') == '$' :: raw.toList
  verify_hash raw salt password := by
    rw [String.toList_ofList, dropWhile_salt, beq_iff_eq, List.cons.injEq, String.toList_inj]
    exact ⟨fun h => h.2.symm, fun h => ⟨rfl, h.symm⟩⟩

def plainUuid : UuidText where
  str id := String.ofList ("00000000-0000-0000-0000-00000000".toList ++ Nat.toDigits 10 id)
  parse text := some (Nat.ofDigitChars 10 (text.toList.drop 32) 0)
  parse_str id := by
    rw [String.toList_ofList, List.drop_append_of_le_length (by decide)]
    exact congrArg some Nat.ofDigitChars_ten_toDigits

/-- Each character behind a mark, and another mark at the end. -/
def fieldText (s : List Char) : List Char := s.flatMap (fun c => ['c', c]) ++ ['|']

theorem fieldText_append_inj {s s' t t' : List Char}
    (h : fieldText s ++ t = fieldText s' ++ t') : s = s' ∧ t = t' := by
  induction s generalizing s' with
  | nil =>
    cases s' with
    | nil => exact ⟨rfl, by simpa [fieldText] using h⟩
    | cons c s' => simp [fieldText] at h
  | cons c s ih =>
    cases s' with
    | nil => simp [fieldText] at h
    | cons c' s' =>
      have hparts : c = c' ∧ fieldText s ++ t = fieldText s' ++ t' := by
        simpa [fieldText] using h
      obtain ⟨rfl, hrest⟩ := hparts
      obtain ⟨rfl, rfl⟩ := ih hrest
      exact ⟨rfl, rfl⟩

def intText (z : ℤ) : List Char := (if z < 0 then '-' else '+') :: Nat.toDigits 10 z.natAbs

theorem intText_inj {z z' : ℤ} (h : intText z = intText z') : z = z' := by
  obtain ⟨hsign, hdigits⟩ := List.cons.inj h
  have habs : z.natAbs = z'.natAbs := by
    have hvalue := congrArg (fun digits => Nat.ofDigitChars 10 digits 0) hdigits
    simpa using hvalue
  split at hsign
  · split at hsign
    · omega
    · exact absurd hsign (by decide)
  · split at hsign
    · exact absurd hsign (by decide)
    · omega

theorem TokenType.value_inj {a b : TokenType} (h : a.value.toList = b.value.toList) : a = b := by
  cases a <;> cases b <;> first | rfl | exact absurd h (by decide)

def claimsText (p : Payload) : List Char :=
  fieldText p.sub.toList ++ (fieldText p.role.toList ++ (fieldText p.type.value.toList ++
    (fieldText (intText p.iat) ++ (fieldText (intText p.exp) ++ (fieldText p.jti.toList ++ [])))))

def plainJwt : Jwt where
  encode p := String.ofList (claimsText p)
  encode_injective p p' h := by
    have htext : claimsText p = claimsText p' := String.ofList_injective h
    obtain ⟨hsub, h⟩ := fieldText_append_inj htext
    obtain ⟨hrole, h⟩ := fieldText_append_inj h
    obtain ⟨htype, h⟩ := fieldText_append_inj h
    obtain ⟨hiat, h⟩ := fieldText_append_inj h
    obtain ⟨hexp, h⟩ := fieldText_append_inj h
    obtain ⟨hjti, -⟩ := fieldText_append_inj h
    cases p
    cases p'
    simp only [Payload.mk.injEq]
    exact ⟨String.toList_inj.mp hsub, String.toList_inj.mp hrole, TokenType.value_inj htype,
      intText_inj hiat, intText_inj hexp, String.toList_inj.mp hjti⟩

def plainSecurity : Security where
  jwt := plainJwt
  passwords := plainPasswords
  uuid := plainUuid

def adaCreate : UserCreate :=
  { email := "Ada@example.com", fullName := "Ada Lovelace", password := "engine no. 1" }

def adaAccount : User :=
  { id := 0, email := "ada@example.com", hashedPassword := "7$engine no. 1",
    fullName := "Ada Lovelace" }

def adaLogin : Issuance := ⟨adaAccount, 100, .login "engine no. 1", ("a1", "r1")⟩

/-- Ada registers, logs in, and renews her tokens when the first access token has expired. -/
def adaActions : List AccountAction :=
  [.register adaCreate 7, .login "ada@EXAMPLE.com" "engine no. 1" ("a1", "r1"), .advance 1100,
    .refresh (adaLogin.tokens plainSecurity).refreshToken ("a2", "r2"), .advance 1600]

def adaRefresh : Issuance :=
  ⟨adaAccount, 1100, .refresh (adaLogin.tokens plainSecurity).refreshToken, ("a2", "r2")⟩

def noAccounts : Accounts := { now := 100, now_nonneg := by norm_num, db := Database.empty }

theorem ada_run :
    (exec (@Accounts.next asciiUnicode plainSecurity) noAccounts adaActions).map
        (fun s => (s.now, s.issued, s.db.users.rows)) =
      some (1600, [adaLogin, adaRefresh], [adaAccount]) := by
  decide +kernel

/-- After the refresh the new access token authenticates her, and it goes back to her login. -/
theorem ada_authentic :
    ∃ s, Run (ofNext (@Accounts.next asciiUnicode plainSecurity)) noAccounts adaActions s ∧
      getCurrentUser plainSecurity (s.decode plainSecurity) s.db
        (adaRefresh.tokens plainSecurity).accessToken = .ok adaAccount ∧
      Accounts.Authentic plainSecurity s (adaRefresh.tokens plainSecurity).accessToken adaAccount ∧
      (∀ g ∈ s.issued, ∀ user, getCurrentUser plainSecurity (s.decode plainSecurity) s.db
        (g.tokens plainSecurity).refreshToken ≠ .ok user) ∧
      ∀ g ∈ s.issued, ∀ jtis tokens,
        AuthService.refresh plainSecurity (s.decode plainSecurity) s.db
          (g.tokens plainSecurity).accessToken jtis s.now ≠ .ok tokens := by
  obtain ⟨s, hexec, hs⟩ := Option.map_eq_some_iff.mp ada_run
  obtain ⟨hnow, hissued, hrows⟩ : s.now = 1600 ∧ s.issued = [adaLogin, adaRefresh] ∧
      s.db.users.rows = [adaAccount] := by simpa using hs
  have hrun := exec_run hexec
  have hsound := @Accounts.authentication_sound asciiUnicode plainSecurity noAccounts s adaActions rfl
    (fun user huser => absurd huser List.not_mem_nil) hrun
  have huser : getCurrentUser plainSecurity (s.decode plainSecurity) s.db
      (adaRefresh.tokens plainSecurity).accessToken = .ok adaAccount := by
    refine getCurrentUser_ok_iff.mpr ⟨adaRefresh.access plainSecurity, ?_, rfl, ?_, ?_, rfl⟩
    · refine Jwt.decode_ok_iff.mpr ⟨?_, rfl, ?_⟩
      · simp [Accounts.payloads, hissued]
      · rw [hnow]
        decide +kernel
    · exact plainUuid.parse_str 0
    · rw [Table.get?_eq_some_iff, hrows]
      exact ⟨List.mem_singleton_self _, rfl⟩
  exact ⟨s, hrun, huser, hsound.1 _ _ huser, hsound.2⟩

end AegisPlatform.Api
