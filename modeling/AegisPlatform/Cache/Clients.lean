import AegisPlatform.Cache.Lockout
import AegisPlatform.Cache.Store
import AegisPlatform.Foundations.Sharing

/-! # Everyone's requests on one store

The `rate_limiter` of every client and path, and the idempotency helpers, share one store. A key is
`rl:{client}:{path}` or `idem:{key}`, so no two of them write under the same key. `Clients.on` is
what one key sees: a limiter of its own. The Redis client is a parameter.
-/

namespace AegisPlatform.Cache
open Foundations
set_option autoImplicit false
set_option maxHeartbeats 250000

def rateKey (client path : String) : String := "rl:" ++ client ++ ":" ++ path

def idempotencyKey (key : String) : String := "idem:" ++ key

/-- The key of some client and path. -/
def IsRateKey (key : String) : Prop := ∃ client path, key = rateKey client path

theorem idempotencyKey_not_rate (key : String) : ¬ IsRateKey (idempotencyKey key) := by
  rintro ⟨client, path, h⟩
  have hchars := congrArg String.toList h
  simp [rateKey, idempotencyKey, String.toList_append] at hchars

theorem slash_cons {text : List Char} (h : text.head? = some '/') : ∃ rest, text = '/' :: rest := by
  cases text with
  | nil => cases h
  | cons c rest =>
    obtain rfl := Option.some.inj h
    exact ⟨rest, rfl⟩

theorem before_first_slash {x z : List Char} (h : '/' ∉ x) :
    (x ++ '/' :: z).takeWhile (fun c => c != '/') = x := by
  have hall : ∀ c ∈ x, (c != '/') = true := by
    intro c hc
    rw [bne_iff_ne]
    rintro rfl
    exact h hc
  rw [List.takeWhile_append_of_pos hall]
  simp

/-- A client is an address and a path begins with a slash, so each pair has a key of its own. -/
theorem rateKey_injective {client client' path path' : String}
    (hclient : '/' ∉ client.toList) (hclient' : '/' ∉ client'.toList)
    (hpath : path.toList.head? = some '/') (hpath' : path'.toList.head? = some '/')
    (h : rateKey client path = rateKey client' path') : client = client' ∧ path = path' := by
  obtain ⟨rest, hrest⟩ := slash_cons hpath
  obtain ⟨rest', hrest'⟩ := slash_cons hpath'
  have hchars := congrArg String.toList h
  simp only [rateKey, String.toList_append, List.append_assoc, hrest, hrest'] at hchars
  have hsplit := List.append_cancel_left hchars
  rw [← List.append_assoc, ← List.append_assoc] at hsplit
  have hhost := congrArg (List.takeWhile fun c => c != '/') hsplit
  rw [before_first_slash (by simpa using hclient), before_first_slash (by simpa using hclient')] at hhost
  rw [hhost] at hsplit
  obtain ⟨-, htail⟩ := List.cons.inj (List.append_cancel_left hsplit)
  refine ⟨String.toList_inj.mp (List.append_cancel_right hhost), String.toList_inj.mp ?_⟩
  rw [hrest, hrest', htail]

/-- What `request.client.host` and `request.url.path` are: an address, and a path. -/
def IsPeer (client path : String) : Prop := '/' ∉ client.toList ∧ path.toList.head? = some '/'

section
variable {S T : Type} [AddCommGroup T] [LinearOrder T]

/-- `call` numbers the calls of all keys, and `peers` says whose they are. -/
structure Clients (S T : Type) where
  now : T
  store : S
  calls : List (String × Call T) := []
  peers : List (String × String) := []
  lifetime : String → ℕ := fun _ => 0
  log : List (String × Count T) := []

inductive ClientsAction (T : Type)
  | tick (time : T)
  | arrive (client path : String)
  | resume (i : ℕ)
  | abort (i : ℕ)
  | remember (key resourceId : String) (ttlSeconds : T)

/-- `idempotency.remember`. -/
def remember (redis : RedisClient S T) (now : T) (store : S) (key resourceId : String)
    (ttlSeconds : T) : Option S :=
  redis.set now store (idempotencyKey key) resourceId (some ttlSeconds)

namespace Clients

def finish (i : ℕ) (key : String) (call : Call T) (phase : AllowPhase) (s : Clients S T) :
    Clients S T :=
  { s with calls := s.calls.set i (key, { call with phase := phase, endedAt := some s.now }) }

/-- The next command of the `allow_request` of a call, or its return. A command that raises aborts
the call. -/
def resume (redis : RedisClient S T) (limit : ℕ) (windowSeconds : T) (i : ℕ) (key : String)
    (call : Call T) (s : Clients S T) : Option (Clients S T) :=
  match call.phase with
  | .received =>
    match redis.incr s.now s.store key with
    | none => some (s.finish i key call .aborted)
    | some (count, store) =>
      let lifetime := if count = 1 then s.lifetime key + 1 else s.lifetime key
      some { s with
        store := store
        calls := s.calls.set i (key, { call with phase := .counted count.toNat })
        lifetime := Function.update s.lifetime key lifetime
        log := s.log ++ [(key, ⟨i, lifetime, s.now⟩)] }
  | .counted count =>
    if count = 1 then
      match redis.expire s.now s.store key windowSeconds with
      | none => some (s.finish i key call .aborted)
      | some store =>
        some { s with
          store := store
          calls := s.calls.set i (key, { call with phase := .windowed count }) }
    else some (s.finish i key call (.returned (decide (count ≤ limit))))
  | .windowed count => some (s.finish i key call (.returned (decide (count ≤ limit))))
  | .returned _ | .aborted => none

def next (redis : RedisClient S T) (limit : ℕ) (windowSeconds : T) (s : Clients S T) :
    ClientsAction T → Option (Clients S T)
  | .tick time => if s.now ≤ time then some { s with now := time } else none
  | .arrive client path =>
    some { s with
      calls := s.calls ++ [(rateKey client path, { arrivedAt := s.now })]
      peers := s.peers ++ [(client, path)] }
  | .resume i =>
    match s.calls[i]? with
    | none => none
    | some (key, call) => s.resume redis limit windowSeconds i key call
  | .abort i =>
    match s.calls[i]? with
    | none => none
    | some (key, call) => if call.endedAt.isNone then some (s.finish i key call .aborted) else none
  | .remember key resourceId ttlSeconds =>
    (Cache.remember redis s.now s.store key resourceId ttlSeconds).map fun store =>
      { s with store := store }

/-- Everything an action can do. -/
inductive Step (redis : RedisClient S T) (limit : ℕ) (windowSeconds : T) (s : Clients S T) :
    ClientsAction T → Clients S T → Prop
  | tick {time : T} (hle : s.now ≤ time) :
      Step redis limit windowSeconds s (.tick time) { s with now := time }
  | arrive {client path : String} :
      Step redis limit windowSeconds s (.arrive client path) { s with
        calls := s.calls ++ [(rateKey client path, { arrivedAt := s.now })]
        peers := s.peers ++ [(client, path)] }
  | count {i : ℕ} {key : String} {call : Call T} {count : ℤ} {store : S} {lifetime : ℕ}
      (hcall : s.calls[i]? = some (key, call)) (hphase : call.phase = .received)
      (hincr : redis.incr s.now s.store key = some (count, store))
      (hlifetime : lifetime = if count = 1 then s.lifetime key + 1 else s.lifetime key) :
      Step redis limit windowSeconds s (.resume i) { s with
        store := store
        calls := s.calls.set i (key, { call with phase := .counted count.toNat })
        lifetime := Function.update s.lifetime key lifetime
        log := s.log ++ [(key, ⟨i, lifetime, s.now⟩)] }
  | expire {i : ℕ} {key : String} {call : Call T} {store : S}
      (hcall : s.calls[i]? = some (key, call)) (hphase : call.phase = .counted 1)
      (hexpire : redis.expire s.now s.store key windowSeconds = some store) :
      Step redis limit windowSeconds s (.resume i) { s with
        store := store
        calls := s.calls.set i (key, { call with phase := .windowed 1 }) }
  | answer {i : ℕ} {key : String} {call : Call T} {count : ℕ}
      (hcall : s.calls[i]? = some (key, call))
      (hphase : (call.phase = .counted count ∧ count ≠ 1) ∨ call.phase = .windowed count) :
      Step redis limit windowSeconds s (.resume i)
        (s.finish i key call (.returned (decide (count ≤ limit))))
  | raise {i : ℕ} {key : String} {call : Call T}
      (hcall : s.calls[i]? = some (key, call)) (hopen : call.phase.isOpen = true) :
      Step redis limit windowSeconds s (.resume i) (s.finish i key call .aborted)
  | abort {i : ℕ} {key : String} {call : Call T}
      (hcall : s.calls[i]? = some (key, call)) (hopen : call.endedAt = none) :
      Step redis limit windowSeconds s (.abort i) (s.finish i key call .aborted)
  | remember {key resourceId : String} {ttlSeconds : T} {store : S}
      (hset : redis.set s.now s.store (idempotencyKey key) resourceId (some ttlSeconds) =
        some store) :
      Step redis limit windowSeconds s (.remember key resourceId ttlSeconds)
        { s with store := store }

omit [AddCommGroup T] in
theorem resume_step {redis : RedisClient S T} {limit : ℕ} {windowSeconds : T} {s t : Clients S T}
    {i : ℕ} {key : String} {call : Call T} (hcall : s.calls[i]? = some (key, call))
    (h : s.resume redis limit windowSeconds i key call = some t) :
    Step redis limit windowSeconds s (.resume i) t := by
  unfold resume at h
  split at h
  · next hphase =>
    split at h
    · obtain rfl := Option.some.inj h
      exact Step.raise hcall (by rw [hphase]; rfl)
    · next count store hincr =>
      obtain rfl := Option.some.inj h
      exact Step.count hcall hphase hincr rfl
  · next count hphase =>
    split at h
    · next hone =>
      subst hone
      split at h
      · obtain rfl := Option.some.inj h
        exact Step.raise hcall (by rw [hphase]; rfl)
      · next store hexpire =>
        obtain rfl := Option.some.inj h
        exact Step.expire hcall hphase hexpire
    · next hone =>
      obtain rfl := Option.some.inj h
      exact Step.answer hcall (Or.inl ⟨hphase, hone⟩)
  · next count hphase =>
    obtain rfl := Option.some.inj h
    exact Step.answer hcall (Or.inr hphase)
  · cases h
  · cases h

omit [AddCommGroup T] in
theorem next_step {redis : RedisClient S T} {limit : ℕ} {windowSeconds : T} {s t : Clients S T}
    {l : ClientsAction T} (h : s.next redis limit windowSeconds l = some t) :
    Step redis limit windowSeconds s l t := by
  cases l with
  | tick time =>
    simp only [next] at h
    split at h
    · next hle =>
      obtain rfl := Option.some.inj h
      exact Step.tick hle
    · cases h
  | arrive client path =>
    obtain rfl := Option.some.inj h
    exact Step.arrive
  | resume i =>
    simp only [next] at h
    split at h
    · cases h
    · next key call hcall => exact resume_step hcall h
  | abort i =>
    simp only [next] at h
    split at h
    · cases h
    · next key call hcall =>
      split at h
      · next hopen =>
        obtain rfl := Option.some.inj h
        exact Step.abort hcall (Option.isNone_iff_eq_none.mp hopen)
      · cases h
  | remember key resourceId ttlSeconds =>
    obtain ⟨store, hset, rfl⟩ := Option.map_eq_some_iff.mp h
    exact Step.remember hset

/-! ## What one key sees -/

def counterOf (entry : Expiring String T) : Counter T :=
  { count := ((integer? entry.value).getD 0).toNat, expiresAt := entry.expiresAt }

/-- The limiter of one key. -/
def on (entries : S → Store T) (key : String) (s : Clients S T) : Limiter T :=
  { now := s.now
    key := (entries s.store key).map counterOf
    calls := onChannel key s.calls
    lifetime := s.lifetime key
    log := (onChannel key s.log).map fun r => { r with call := rank key s.calls r.call } }

/-- The keys of clients and paths hold counters, a call has the key of its peer and has not ended
while it is open, and a call that was counted is there. -/
structure Sound (entries : S → Store T) (s : Clients S T) : Prop where
  numeric : ∀ key, IsRateKey key → ∀ entry, entries s.store key = some entry →
    ∃ n : ℕ, entry.value = decimal (n + 1)
  keyed : ∀ (i : ℕ) key call, s.calls[i]? = some (key, call) →
    ∃ client path, s.peers[i]? = some (client, path) ∧ key = rateKey client path
  numbered : s.peers.length = s.calls.length
  running : ∀ (i : ℕ) key call, s.calls[i]? = some (key, call) → call.phase.isOpen = true →
    call.endedAt = none
  logged : ∀ p ∈ s.log, ∃ call, s.calls[p.2.call]? = some (p.1, call)

omit [AddCommGroup T] [LinearOrder T] in
theorem Sound.isRateKey {entries : S → Store T} {s : Clients S T} (hs : s.Sound entries) {i : ℕ}
    {key : String} {call : Call T} (h : s.calls[i]? = some (key, call)) : IsRateKey key := by
  obtain ⟨client, path, -, rfl⟩ := hs.keyed i key call h
  exact ⟨client, path, rfl⟩

/-! ## One command, seen from its key -/

section
variable {redis : RedisClient S T} {entries : S → Store T} {now : T} {s s' : S} {key : String}

omit [AddCommGroup T] in
theorem find_counterOf (now : T) (store : Store T) (key : String) :
    Redis.find now ((store key).map counterOf) = (store.find now key).map counterOf := by
  unfold Redis.find ExpiringMap.find
  cases store key with
  | none => rfl
  | some entry =>
    rw [Option.map_some, Option.filter_some, Option.filter_some]
    by_cases h : ExpiringMap.alive now entry = true
    · have hcounter : ((counterOf entry).expiresAt.all fun time => decide (now < time)) = true := h
      rw [if_pos h, if_pos hcounter, Option.map_some]
    · have hcounter : ¬ ((counterOf entry).expiresAt.all fun time => decide (now < time)) = true := h
      rw [if_neg h, if_neg hcounter, Option.map_none]

omit [AddCommGroup T] [LinearOrder T] in
theorem counterOf_decimal (n : ℕ) (expiresAt : Option T) :
    counterOf { value := decimal n, expiresAt := expiresAt } =
      { count := n, expiresAt := expiresAt } := by
  simp [counterOf]

/-- `INCR` on a counter answers 1 where it finds none. -/
theorem incr_counter (hredis : Documented redis entries)
    (hnumeric : ∀ entry, entries s key = some entry → ∃ n : ℕ, entry.value = decimal (n + 1))
    {count : ℤ} (h : redis.incr now s key = some (count, s')) :
    ∃ n : ℕ, count = n + 1 ∧
      (entries s' key).map counterOf = some (Redis.incr now ((entries s key).map counterOf)) ∧
      (Redis.incr now ((entries s key).map counterOf)).count = n + 1 ∧
      ((entries s).find now key = none ↔ n = 0) ∧
      ∀ entry, entries s' key = some entry → entry.value = decimal (n + 1) := by
  obtain ⟨⟨found, hfound, hcount⟩, hwritten⟩ := hredis.incr _ _ _ _ _ h
  have hfind := find_counterOf now (entries s) key
  unfold Redis.incr
  rw [hfind, hwritten, ExpiringMap.write_self]
  cases hentry : (entries s).find now key with
  | none =>
    rw [hentry] at hfound
    obtain rfl := Option.some.inj hfound
    refine ⟨0, hcount, ?_, rfl, by simp, ?_⟩
    · rw [hcount]
      exact congrArg some (counterOf_decimal 1 none)
    · intro entry hnew
      rw [← Option.some.inj hnew, hcount]
      rfl
  | some entry =>
    obtain ⟨n, hn⟩ := hnumeric entry (ExpiringMap.find_some hentry).1
    have hvalue : count? (some entry) = some ((n : ℤ) + 1) := by simp [count?, hn]
    rw [hentry, hvalue] at hfound
    obtain rfl := Option.some.inj hfound
    have htext : count = ((n + 1 : ℕ) : ℤ) + 1 := by
      rw [hcount]
      push_cast
      rfl
    refine ⟨n + 1, htext, ?_, ?_, by simp, ?_⟩
    · rw [htext]
      have hnew := counterOf_decimal (n + 1 + 1) entry.expiresAt
      rw [Nat.cast_succ] at hnew
      rw [Option.map_some, Option.bind_some, hnew]
      have hold : counterOf entry = { count := n + 1, expiresAt := entry.expiresAt } := by
        have hdecimal := counterOf_decimal (n + 1) entry.expiresAt
        rw [Nat.cast_succ, ← hn] at hdecimal
        exact hdecimal
      rw [Option.map_some, hold]
    · simp only [Option.map_some, counterOf, hn, integer?_decimal, Option.getD_some]
      omega
    · intro entry' hnew
      rw [← Option.some.inj hnew, htext]

theorem expire_counter (hredis : Documented redis entries) {ttl : T}
    (h : redis.expire now s key ttl = some s') :
    (entries s' key).map counterOf = Redis.expire now ttl ((entries s key).map counterOf) := by
  unfold Redis.expire
  rw [hredis.expire _ _ _ _ _ h, ExpiringMap.touch_self, find_counterOf, Option.map_map,
    Option.map_map]
  rfl

end

section
variable {redis : RedisClient S T} {entries : S → Store T} {limit : ℕ} {windowSeconds : T}
  {s t : Clients S T} {i : ℕ} {key key' : String} {call : Call T}

omit [AddCommGroup T] [LinearOrder T] in
theorem on_calls (h : s.calls[i]? = some (key, call)) :
    (s.on entries key).calls[rank key s.calls i]? = some call := getElem?_rank h

omit [AddCommGroup T] [LinearOrder T] in
/-- A call of another key moves, and what is stored under that key with it. -/
theorem on_other (h : s.calls[i]? = some (key', call)) (hne : key' ≠ key) (call' : Call T)
    {store : S} (hstore : entries store key = entries s.store key) :
    ({ s with store := store, calls := s.calls.set i (key', call') } : Clients S T).on entries key =
      s.on entries key := by
  unfold on
  simp only [hstore, onChannel_set_other h hne, rank_set h]

omit [AddCommGroup T] [LinearOrder T] in
theorem on_finish (h : s.calls[i]? = some (key, call)) (phase : AllowPhase) :
    (s.finish i key call phase).on entries key =
      (s.on entries key).finish (rank key s.calls i) call phase := by
  unfold on finish Limiter.finish
  simp only [onChannel_set_self h, rank_set h]

/-- A call that is cut short is cut short on the limiter of its key. -/
theorem on_abort (h : s.calls[i]? = some (key, call)) (hopen : call.endedAt = none) :
    Limiter.next limit windowSeconds (s.on entries key) (.abort (rank key s.calls i)) =
      some ((s.finish i key call .aborted).on entries key) := by
  unfold Limiter.next
  simp only [on_calls h, hopen, Option.isNone_none, if_true, on_finish h]

theorem on_answer {count : ℕ} (h : s.calls[i]? = some (key, call))
    (hphase : (call.phase = .counted count ∧ count ≠ 1) ∨ call.phase = .windowed count) :
    Limiter.next limit windowSeconds (s.on entries key) (.resume (rank key s.calls i)) =
      some ((s.finish i key call (.returned (decide (count ≤ limit)))).on entries key) := by
  unfold Limiter.next
  simp only [on_calls h, on_finish h]
  rcases hphase with ⟨hcounted, hmore⟩ | hwindowed
  · simp only [Limiter.resume, hcounted, if_neg hmore]
  · simp only [Limiter.resume, hwindowed]

theorem on_expire (hredis : Documented redis entries) {store : S}
    (h : s.calls[i]? = some (key, call)) (hphase : call.phase = .counted 1)
    (hexpire : redis.expire s.now s.store key windowSeconds = some store) :
    Limiter.next limit windowSeconds (s.on entries key) (.resume (rank key s.calls i)) =
      some (({ s with
        store := store
        calls := s.calls.set i (key, { call with phase := .windowed 1 }) } :
          Clients S T).on entries key) := by
  unfold Limiter.next
  simp only [on_calls h, Limiter.resume, hphase, if_true]
  simp only [on, expire_counter hredis hexpire, onChannel_set_self h, rank_set h]

theorem on_count (hredis : Documented redis entries) {count : ℤ} {store : S} {lifetime : ℕ}
    (hnumeric : ∀ entry, entries s.store key = some entry → ∃ n : ℕ, entry.value = decimal (n + 1))
    (h : s.calls[i]? = some (key, call)) (hphase : call.phase = .received)
    (hincr : redis.incr s.now s.store key = some (count, store))
    (hlifetime : lifetime = if count = 1 then s.lifetime key + 1 else s.lifetime key) :
    Limiter.next limit windowSeconds (s.on entries key) (.resume (rank key s.calls i)) =
      some (({ s with
        store := store
        calls := s.calls.set i (key, { call with phase := .counted count.toNat })
        lifetime := Function.update s.lifetime key lifetime
        log := s.log ++ [(key, ⟨i, lifetime, s.now⟩)] } : Clients S T).on entries key) := by
  obtain ⟨n, rfl, hcounter, hcount, hfirst, -⟩ := incr_counter hredis hnumeric hincr
  have hfound : (Redis.find s.now ((entries s.store key).map counterOf)).isSome = true ↔ n ≠ 0 := by
    rw [find_counterOf, Option.isSome_map, Ne, ← hfirst, Option.isSome_iff_ne_none]
  have htoNat : ((n : ℤ) + 1).toNat = n + 1 := by omega
  subst hlifetime
  unfold Limiter.next
  simp only [on_calls h, Limiter.resume, hphase, Limiter.incr]
  simp only [on, hcounter, hcount, onChannel_set_self h, Function.update_self, onChannel_snoc,
    if_true, List.map_append, List.map_cons, List.map_nil, rank_set h, htoNat]
  by_cases hn : n = 0
  · have hnone : (Redis.find s.now ((entries s.store key).map counterOf)).isSome = false :=
      Bool.eq_false_iff.mpr fun hsome => hfound.mp hsome hn
    have hone : (n : ℤ) + 1 = 1 := by omega
    simp only [hnone, hone, Bool.false_eq_true, if_true, if_false]
  · have hmore : ¬ (n : ℤ) + 1 = 1 := by omega
    simp only [hfound.mpr hn, if_true, if_neg hmore]

/-! ## The invariant, and what each key sees of a run -/

omit [AddCommGroup T] [LinearOrder T] in
/-- A call moves, and no counter with it. -/
theorem Sound.set_call (hs : s.Sound entries) (h : s.calls[i]? = some (key, call)) (call' : Call T)
    (hmoved : call'.phase.isOpen = true → call'.endedAt = none) :
    ({ s with calls := s.calls.set i (key, call') } : Clients S T).Sound entries where
  numeric := hs.numeric
  keyed := by
    intro j k c hc
    rcases getElem?_set_cases hc with ⟨hj, heq⟩ | ⟨-, hold⟩
    · rw [(Prod.mk.inj heq).1, hj]
      exact hs.keyed i key call h
    · exact hs.keyed j k c hold
  numbered := by
    rw [List.length_set]
    exact hs.numbered
  running := by
    intro j k c hc hopen
    rcases getElem?_set_cases hc with ⟨-, heq⟩ | ⟨-, hold⟩
    · obtain ⟨-, rfl⟩ := Prod.mk.inj heq
      exact hmoved hopen
    · exact hs.running j k c hold hopen
  logged := by
    intro p hp
    obtain ⟨c, hc⟩ := hs.logged p hp
    by_cases hi : p.2.call = i
    · rw [hi, h] at hc
      obtain ⟨rfl, rfl⟩ := Prod.mk.inj (Option.some.inj hc)
      refine ⟨call', ?_⟩
      simp only [hi]
      exact List.getElem?_set_self (List.getElem?_eq_some_iff.mp h).1
    · refine ⟨c, ?_⟩
      simp only
      rw [List.getElem?_set_ne (Ne.symm hi)]
      exact hc

omit [AddCommGroup T] [LinearOrder T] in
theorem Sound.finish (hs : s.Sound entries) (h : s.calls[i]? = some (key, call))
    {phase : AllowPhase} (hclosed : phase.isOpen = false) :
    (s.finish i key call phase).Sound entries := by
  refine hs.set_call h _ fun hopen => ?_
  rw [hclosed] at hopen
  cases hopen

omit [AddCommGroup T] [LinearOrder T] in
theorem Sound.arrive (hs : s.Sound entries) (client path : String) :
    ({ s with
      calls := s.calls ++ [(rateKey client path, { arrivedAt := s.now })]
      peers := s.peers ++ [(client, path)] } : Clients S T).Sound entries where
  numeric := hs.numeric
  keyed := by
    intro j k c hc
    by_cases hj : j < s.calls.length
    · rw [List.getElem?_append_left hj] at hc
      obtain ⟨client', path', hpeer, hkey⟩ := hs.keyed j k c hc
      refine ⟨client', path', ?_, hkey⟩
      rw [List.getElem?_append_left (List.getElem?_eq_some_iff.mp hpeer).1]
      exact hpeer
    · obtain ⟨hlast, -⟩ := List.getElem?_eq_some_iff.mp hc
      rw [List.length_append, List.length_singleton] at hlast
      have hj : j = s.calls.length := by omega
      subst hj
      rw [List.getElem?_concat_length] at hc
      refine ⟨client, path, ?_, (Prod.mk.inj (Option.some.inj hc)).1.symm⟩
      rw [← hs.numbered, List.getElem?_concat_length]
  numbered := by
    simp only [List.length_append, List.length_singleton, hs.numbered]
  running := by
    intro j k c hc hopen
    rcases getElem?_snoc_cases hc with hold | heq
    · exact hs.running j k c hold hopen
    · obtain ⟨-, rfl⟩ := Prod.mk.inj heq
      rfl
  logged := by
    intro p hp
    obtain ⟨c, hc⟩ := hs.logged p hp
    refine ⟨c, ?_⟩
    rw [List.getElem?_append_left (List.getElem?_eq_some_iff.mp hc).1]
    exact hc

theorem sound_step (hredis : Documented redis entries) {l : ClientsAction T} (hs : s.Sound entries)
    (h : Step redis limit windowSeconds s l t) : t.Sound entries := by
  cases h with
  | tick hle => exact ⟨hs.numeric, hs.keyed, hs.numbered, hs.running, hs.logged⟩
  | arrive => exact hs.arrive _ _
  | @count i key call count store lifetime hcall hphase hincr hlifetime =>
    obtain ⟨n, -, -, -, -, hvalue⟩ :=
      incr_counter hredis (hs.numeric key (hs.isRateKey hcall)) hincr
    have hmoved := hs.set_call hcall { call with phase := .counted count.toNat } fun _ =>
      hs.running i key call hcall (by rw [hphase]; rfl)
    refine ⟨?_, hmoved.keyed, hmoved.numbered, hmoved.running, ?_⟩
    · intro k hk entry hentry
      by_cases hkey : k = key
      · subst hkey
        exact ⟨n, hvalue entry hentry⟩
      · exact hs.numeric k hk entry ((hredis.incr_of_ne hincr hkey).symm.trans hentry)
    · intro p hp
      rcases List.mem_append.mp hp with hold | hnew
      · exact hmoved.logged p hold
      · rw [List.mem_singleton.mp hnew]
        exact ⟨_, List.getElem?_set_self (List.getElem?_eq_some_iff.mp hcall).1⟩
  | @expire i key call store hcall hphase hexpire =>
    have hmoved := hs.set_call hcall { call with phase := .windowed 1 } fun _ =>
      hs.running i key call hcall (by rw [hphase]; rfl)
    refine ⟨?_, hmoved.keyed, hmoved.numbered, hmoved.running, hmoved.logged⟩
    intro k hk entry hentry
    by_cases hkey : k = key
    · subst hkey
      simp only [hredis.expire _ _ _ _ _ hexpire, ExpiringMap.touch_self,
        Option.map_eq_some_iff] at hentry
      obtain ⟨found, hfound, rfl⟩ := hentry
      exact hs.numeric k hk found (ExpiringMap.find_some hfound).1
    · exact hs.numeric k hk entry ((hredis.expire_of_ne hexpire hkey).symm.trans hentry)
  | answer hcall hphase => exact hs.finish hcall rfl
  | raise hcall hopen => exact hs.finish hcall rfl
  | abort hcall hopen => exact hs.finish hcall rfl
  | @remember key resourceId ttlSeconds store hset =>
    refine ⟨?_, hs.keyed, hs.numbered, hs.running, hs.logged⟩
    intro k hk entry hentry
    have hne : k ≠ idempotencyKey key := by
      rintro rfl
      exact idempotencyKey_not_rate key hk
    exact hs.numeric k hk entry ((hredis.set_of_ne hset hne).symm.trans hentry)

omit [AddCommGroup T] [LinearOrder T] in
/-- What is logged of the calls of a key is not renumbered when another call comes in. -/
theorem log_arrive (hs : s.Sound entries) (p : String × Call T) :
    ((onChannel key s.log).map fun r : Count T =>
        { r with call := rank key (s.calls ++ [p]) r.call }) = (s.on entries key).log := by
  apply List.map_congr_left
  intro r hr
  obtain ⟨q, hq, heq⟩ := List.mem_filterMap.mp hr
  split at heq
  · obtain rfl := Option.some.inj heq
    obtain ⟨c, hc⟩ := hs.logged q hq
    rw [rank_snoc (List.getElem?_eq_some_iff.mp hc).1]
  · cases heq

/-- A step is a step of the limiter of a key, or is not seen from the key. A command that raises is
seen as the end of its call. -/
theorem on_step (hredis : Documented redis entries) {l : ClientsAction T} (hkey : IsRateKey key)
    (hs : s.Sound entries) (h : Step redis limit windowSeconds s l t) :
    t.on entries key = s.on entries key ∨
      ∃ l', Limiter.next limit windowSeconds (s.on entries key) l' = some (t.on entries key) := by
  cases h with
  | @tick time hle => exact Or.inr ⟨.tick time, if_pos hle⟩
  | @arrive client path =>
    by_cases hk : rateKey client path = key
    · right
      refine ⟨.arrive, ?_⟩
      unfold Limiter.next on
      rw [log_arrive hs]
      simp only [onChannel_snoc, if_pos hk]
      rfl
    · left
      unfold on
      rw [log_arrive hs]
      simp only [onChannel_snoc, if_neg hk, List.append_nil]
      rfl
  | @count i key' call count store lifetime hcall hphase hincr hlifetime =>
    by_cases hk : key' = key
    · subst hk
      exact Or.inr ⟨_, on_count hredis (hs.numeric key' hkey) hcall hphase hincr hlifetime⟩
    · left
      unfold on
      simp only [hredis.incr_of_ne hincr (Ne.symm hk), onChannel_set_other hcall hk, rank_set hcall,
        Function.update_of_ne (Ne.symm hk), onChannel_snoc, if_neg hk, List.append_nil]
  | @expire i key' call store hcall hphase hexpire =>
    by_cases hk : key' = key
    · subst hk
      exact Or.inr ⟨_, on_expire hredis hcall hphase hexpire⟩
    · exact Or.inl (on_other hcall hk _ (hredis.expire_of_ne hexpire (Ne.symm hk)))
  | @answer i key' call count hcall hphase =>
    by_cases hk : key' = key
    · subst hk
      exact Or.inr ⟨_, on_answer hcall hphase⟩
    · exact Or.inl (on_other hcall hk _ rfl)
  | @raise i key' call hcall hopen =>
    by_cases hk : key' = key
    · subst hk
      exact Or.inr ⟨_, on_abort hcall (hs.running i key' call hcall hopen)⟩
    · exact Or.inl (on_other hcall hk _ rfl)
  | @abort i key' call hcall hopen =>
    by_cases hk : key' = key
    · subst hk
      exact Or.inr ⟨_, on_abort hcall hopen⟩
    · exact Or.inl (on_other hcall hk _ rfl)
  | @remember key' resourceId ttlSeconds store hset =>
    left
    have hne : key ≠ idempotencyKey key' := by
      rintro rfl
      exact idempotencyKey_not_rate key' hkey
    unfold on
    simp only [hredis.set_of_ne hset hne]

omit [AddCommGroup T] [LinearOrder T] in
theorem sound_start {store : S} (hempty : ∀ key, IsRateKey key → entries store key = none)
    (now : T) : ({ now := now, store := store } : Clients S T).Sound entries where
  numeric := by
    intro key hkey entry hentry
    rw [show entries store key = none from hempty key hkey] at hentry
    cases hentry
  keyed := fun _ _ _ h => by cases h
  numbered := rfl
  running := fun _ _ _ h => by cases h
  logged := fun _ h => by cases h

/-- Every client and path has the limiter it would have alone: whatever the others send and in
whatever order, what its key sees is a run of `allow_request` on that key, and the calls on that key
are the calls of that client on that path. -/
theorem limits_each_client [IsOrderedAddMonoid T] (hredis : Documented redis entries)
    (hwindow : 0 < windowSeconds) {store : S}
    (hempty : ∀ key, IsRateKey key → entries store key = none) {now : T}
    {ls : List (ClientsAction T)} (client path : String)
    (hrun : Run (ofNext (next redis limit windowSeconds)) { now := now, store := store } ls t) :
    (∃ ls', Run (ofNext (Limiter.next limit windowSeconds)) (Limiter.init now) ls'
        (t.on entries (rateKey client path))) ∧
      Limiter.Bounded limit windowSeconds (t.on entries (rateKey client path)) ∧
      (∀ (i : ℕ) call, t.calls[i]? = some (rateKey client path, call) →
        (t.on entries (rateKey client path)).calls[rank (rateKey client path) t.calls i]? =
          some call) ∧
      ∀ (i : ℕ) client' path' key call, t.peers[i]? = some (client', path') →
        t.calls[i]? = some (key, call) → IsPeer client path → IsPeer client' path' →
          (key = rateKey client path ↔ client' = client ∧ path' = path) := by
  have hview : ∃ ls', Run (ofNext (Limiter.next limit windowSeconds))
      (({ now := now, store := store } : Clients S T).on entries (rateKey client path)) ls'
        (t.on entries (rateKey client path)) :=
    hrun.project (fun s : Clients S T => s.on entries (rateKey client path))
      (fun _ _ _ hs hstep => sound_step hredis hs (next_step hstep))
      (fun _ _ _ hs hstep => on_step hredis ⟨client, path, rfl⟩ hs (next_step hstep))
      (sound_start hempty now)
  obtain ⟨ls', hls'⟩ := hview
  have hstart : ({ now := now, store := store } : Clients S T).on entries (rateKey client path) =
      Limiter.init now := by
    unfold on
    rw [show entries store (rateKey client path) = none from hempty _ ⟨client, path, rfl⟩]
    rfl
  rw [hstart] at hls'
  have ht : t.Sound entries := hrun.invariant
    (fun _ _ _ hs hstep => sound_step hredis hs (next_step hstep)) (sound_start hempty now)
  obtain ⟨hlogged, hpaced⟩ := Limiter.run_invariant hwindow hls'
  refine ⟨⟨ls', hls'⟩, Limiter.bounded_of_invariant hlogged hpaced, fun i call h => on_calls h, ?_⟩
  intro i client' path' key call hpeer hcall hown hother
  obtain ⟨_, _, hpeer', hkey⟩ := ht.keyed i key call hcall
  obtain ⟨rfl, rfl⟩ := Prod.mk.inj (Option.some.inj (hpeer'.symm.trans hpeer))
  constructor
  · intro hsame
    exact rateKey_injective hother.1 hown.1 hother.2 hown.2 (hkey.symm.trans hsame)
  · rintro ⟨rfl, rfl⟩
    exact hkey

end

/-! ## Two clients and a key -/

/-- The two clients come in turn, and an idempotency key in between. -/
def twoClients : List (ClientsAction ℤ) :=
  [.arrive "10.0.0.1" "/api/v1/runs", .arrive "10.0.0.2" "/api/v1/runs", .resume 0, .resume 1,
    .remember "demo-run-001" "0" 86400, .arrive "10.0.0.1" "/api/v1/runs", .resume 2, .resume 2,
    .resume 1, .resume 1, .resume 0, .resume 0]

theorem two_clients_limited :
    ∃ t, Run (ofNext (next fakeRedis 1 60))
        ({ now := 0, store := fun _ => none } : Clients (Store ℤ) ℤ) twoClients t ∧
      t.calls.map (fun c => c.2.answer) = [some (rateLimiter true), some (rateLimiter true),
        some (rateLimiter false)] ∧
      Limiter.Bounded 1 60 (t.on id (rateKey "10.0.0.2" "/api/v1/runs")) := by
  have hrun : ∃ t, Run (ofNext (next fakeRedis 1 60))
      ({ now := 0, store := fun _ => none } : Clients (Store ℤ) ℤ) twoClients t ∧
      t.calls.map (fun c => c.2.answer) = [some (rateLimiter true), some (rateLimiter true),
        some (rateLimiter false)] := ⟨_, exec_run rfl, rfl⟩
  obtain ⟨t, ht, hanswers⟩ := hrun
  exact ⟨t, ht, hanswers, (limits_each_client fakeRedis_documented (by decide) (fun _ _ => rfl)
    "10.0.0.2" "/api/v1/runs" ht).2.1⟩

end Clients

end

end AegisPlatform.Cache
