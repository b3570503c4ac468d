import AegisPlatform.Api.Streaming
import AegisPlatform.Foundations.PubSub
import AegisPlatform.Workers.Messages

/-! # Clients of the live run feed

`stream_run` of `api/v1/ws.py` for any number of clients, and any number of executions publishing
what they have to tell, one message at a time and in any order among them. A client is served one
`await` at a time; every `await` may raise instead: the client has gone, Redis has failed, the
server shuts down. The pub/sub client is a parameter, and what it keeps of a connection is not
looked into.

Beside the state the code has, the feed keeps the log of what was published, and a stream the length
that log had when its subscription took effect.
-/

namespace AegisPlatform.Api
open Foundations Domain Core Services Workers
set_option autoImplicit false
set_option maxHeartbeats 250000

/-! ## Streams and publishers -/

inductive StreamPhase
  | closed (code : ℕ)
  | accepting
  | accepted
  | listening
  | sending (data : String)
  | stopping
  | ended
deriving DecidableEq

structure Stream (K : Type) where
  runId : Uuid
  token : Option String
  openedAt : ℚ
  phase : StreamPhase
  pubsub : K
  sent : List String := []
  since : ℕ := 0

/-- An execution with the events it has yet to publish. -/
structure Publisher where
  runId : Uuid
  outbox : List RunEvent

structure Feed (K : Type) where
  log : List (String × String) := []
  streams : List (Stream K) := []
  publishers : List Publisher

inductive FeedAction
  | connect (runId : Uuid) (token : Option String) (now : ℚ)
  | resume (i : ℕ)
  | fail (i : ℕ)
  | publish (j : ℕ)

section
variable {K : Type} (client : PubSub String String K) (sec : Security)
  (readable : ℚ → String → Except JwtError Payload) (environment : Environment)

/-- What is there before the first `await`: the answer to the token. -/
def Stream.connect (runId : Uuid) (token : Option String) (now : ℚ) : Stream K where
  runId := runId
  token := token
  openedAt := now
  phase :=
    match streamRun sec (readable now) environment runId token with
    | .closed code => .closed code
    | .accepted _ => .accepting
  pubsub := client.pubsub

/-- One `await` of `stream_run` that returns; nothing if there is nothing to wait for any more, or
nothing to read yet. -/
def Stream.resume (log : List (String × String)) (s : Stream K) : Option (Stream K) :=
  match s.phase with
  | .accepting => some { s with phase := .accepted }
  | .accepted =>
    some { s with
      phase := .listening
      pubsub := client.subscribe (runChannel sec.uuid s.runId) s.pubsub
      since := log.length }
  | .listening =>
    match client.listen s.pubsub with
    | none => none
    | some (.subscribed _, pubsub) => some { s with pubsub := pubsub }
    | some (.message _ data, pubsub) => some { s with phase := .sending data, pubsub := pubsub }
  | .sending data => some { s with phase := .listening, sent := s.sent ++ [data] }
  | .stopping =>
    some { s with
      phase := .ended
      pubsub := client.unsubscribe (runChannel sec.uuid s.runId) s.pubsub }
  | .closed _ | .ended => none

/-- One that raises. The subscription is given back by the `finally` block alone, which does not
guard the `await` that subscribes. -/
def Stream.fail (s : Stream K) : Option (Stream K) :=
  match s.phase with
  | .accepting | .accepted | .stopping => some { s with phase := .ended }
  | .listening | .sending _ => some { s with phase := .stopping }
  | .closed _ | .ended => none

def Stream.offer (channel data : String) (s : Stream K) : Stream K :=
  { s with pubsub := client.publish channel data s.pubsub }

def Feed.next (feed : Feed K) : FeedAction → Option (Feed K)
  | .connect runId token now =>
    some { feed with
      streams := feed.streams ++
        [Stream.connect client sec readable environment runId token now] }
  | .resume i =>
    match feed.streams[i]? with
    | none => none
    | some s =>
      (s.resume client sec feed.log).map fun s' => { feed with streams := feed.streams.set i s' }
  | .fail i =>
    match feed.streams[i]? with
    | none => none
    | some s => s.fail.map fun s' => { feed with streams := feed.streams.set i s' }
  | .publish j =>
    match feed.publishers[j]? with
    | none | some ⟨_, []⟩ => none
    | some ⟨runId, event :: rest⟩ =>
      let channel := runChannel sec.uuid runId
      let data := event.message sec.uuid
      some
        { log := feed.log ++ [(channel, data)]
          streams := feed.streams.map (Stream.offer client channel data)
          publishers := feed.publishers.set j ⟨runId, rest⟩ }

end

/-! ## What one step can do -/

section
variable {K : Type} {client : PubSub String String K} {sec : Security}
  {readable : ℚ → String → Except JwtError Payload} {environment : Environment}

/-- Everything an `await` that returns can do to its stream. -/
inductive Resumed (client : PubSub String String K) (sec : Security) (log : List (String × String))
    (s : Stream K) : Stream K → Prop
  | accept (hphase : s.phase = .accepting) : Resumed client sec log s { s with phase := .accepted }
  | subscribe (hphase : s.phase = .accepted) :
      Resumed client sec log s
        { s with
          phase := .listening
          pubsub := client.subscribe (runChannel sec.uuid s.runId) s.pubsub
          since := log.length }
  | confirmed {channel : String} {pubsub : K} (hphase : s.phase = .listening)
      (hread : client.listen s.pubsub = some (.subscribed channel, pubsub)) :
      Resumed client sec log s { s with pubsub := pubsub }
  | received {channel data : String} {pubsub : K} (hphase : s.phase = .listening)
      (hread : client.listen s.pubsub = some (.message channel data, pubsub)) :
      Resumed client sec log s { s with phase := .sending data, pubsub := pubsub }
  | sent {data : String} (hphase : s.phase = .sending data) :
      Resumed client sec log s { s with phase := .listening, sent := s.sent ++ [data] }
  | stop (hphase : s.phase = .stopping) :
      Resumed client sec log s
        { s with
          phase := .ended
          pubsub := client.unsubscribe (runChannel sec.uuid s.runId) s.pubsub }

theorem resume_resumed {log : List (String × String)} {s t : Stream K}
    (h : s.resume client sec log = some t) : Resumed client sec log s t := by
  unfold Stream.resume at h
  split at h
  · next hphase =>
    obtain rfl := Option.some.inj h
    exact Resumed.accept hphase
  · next hphase =>
    obtain rfl := Option.some.inj h
    exact Resumed.subscribe hphase
  · next hphase =>
    split at h
    · cases h
    · next hread =>
      obtain rfl := Option.some.inj h
      exact Resumed.confirmed hphase hread
    · next hread =>
      obtain rfl := Option.some.inj h
      exact Resumed.received hphase hread
  · next hphase =>
    obtain rfl := Option.some.inj h
    exact Resumed.sent hphase
  · next hphase =>
    obtain rfl := Option.some.inj h
    exact Resumed.stop hphase
  · cases h
  · cases h

/-- A stream that fails is over, or has its `finally` block before it. -/
theorem fail_cases {s t : Stream K} (h : s.fail = some t) :
    (t = { s with phase := .ended } ∧
      (s.phase = .accepting ∨ s.phase = .accepted ∨ s.phase = .stopping)) ∨
    (t = { s with phase := .stopping } ∧
      (s.phase = .listening ∨ ∃ data, s.phase = .sending data)) := by
  unfold Stream.fail at h
  split at h
  · next hphase => exact Or.inl ⟨(Option.some.inj h).symm, Or.inl hphase⟩
  · next hphase => exact Or.inl ⟨(Option.some.inj h).symm, Or.inr (Or.inl hphase)⟩
  · next hphase => exact Or.inl ⟨(Option.some.inj h).symm, Or.inr (Or.inr hphase)⟩
  · next hphase => exact Or.inr ⟨(Option.some.inj h).symm, Or.inl hphase⟩
  · next data hphase => exact Or.inr ⟨(Option.some.inj h).symm, Or.inr ⟨data, hphase⟩⟩
  · cases h
  · cases h

inductive FeedStep (client : PubSub String String K) (sec : Security)
    (readable : ℚ → String → Except JwtError Payload) (environment : Environment) (feed : Feed K) :
    FeedAction → Feed K → Prop
  | connect (runId : Uuid) (token : Option String) (now : ℚ) :
      FeedStep client sec readable environment feed (.connect runId token now)
        { feed with
          streams := feed.streams ++
            [Stream.connect client sec readable environment runId token now] }
  | resume {i : ℕ} {s s' : Stream K} (hs : feed.streams[i]? = some s)
      (step : Resumed client sec feed.log s s') :
      FeedStep client sec readable environment feed (.resume i)
        { feed with streams := feed.streams.set i s' }
  | fail {i : ℕ} {s s' : Stream K} (hs : feed.streams[i]? = some s) (step : s.fail = some s') :
      FeedStep client sec readable environment feed (.fail i)
        { feed with streams := feed.streams.set i s' }
  | publish {j : ℕ} {runId : Uuid} {event : RunEvent} {rest : List RunEvent}
      (hp : feed.publishers[j]? = some ⟨runId, event :: rest⟩) :
      FeedStep client sec readable environment feed (.publish j)
        { log := feed.log ++ [(runChannel sec.uuid runId, event.message sec.uuid)]
          streams := feed.streams.map
            (Stream.offer client (runChannel sec.uuid runId) (event.message sec.uuid))
          publishers := feed.publishers.set j ⟨runId, rest⟩ }

theorem feed_step {feed feed' : Feed K} {l : FeedAction}
    (h : ofNext (Feed.next client sec readable environment) feed l feed') :
    FeedStep client sec readable environment feed l feed' := by
  unfold ofNext at h
  cases l with
  | connect runId token now =>
    obtain rfl := Option.some.inj h
    exact FeedStep.connect runId token now
  | resume i =>
    simp only [Feed.next] at h
    split at h
    · cases h
    · next s hs =>
      obtain ⟨s', hresume, rfl⟩ := Option.map_eq_some_iff.mp h
      exact FeedStep.resume hs (resume_resumed hresume)
  | fail i =>
    simp only [Feed.next] at h
    split at h
    · cases h
    · next s hs =>
      obtain ⟨s', hfail, rfl⟩ := Option.map_eq_some_iff.mp h
      exact FeedStep.fail hs hfail
  | publish j =>
    simp only [Feed.next] at h
    split at h
    · cases h
    · cases h
    · next runId event rest hp =>
      obtain rfl := Option.some.inj h
      exact FeedStep.publish hp

end

/-! ## What a stream relays -/

/-- Where a stream stands: nothing read before the subscription, then everything of its channel that
its connection has not lost. -/
def Stream.Follows {K : Type} (inbox : Inbox String String K) (sec : Security)
    (log : List (String × String)) (s : Stream K) : Prop :=
  match s.phase with
  | .closed _ | .accepting | .accepted =>
    s.sent = [] ∧ inbox.channel s.pubsub = none ∧ inbox.waiting s.pubsub = []
  | .listening => Relays inbox (runChannel sec.uuid s.runId) log s.since s.sent s.pubsub
  | .sending data =>
    Relays inbox (runChannel sec.uuid s.runId) log s.since (s.sent ++ [data]) s.pubsub
  | .stopping | .ended =>
    s.sent.Sublist (onChannel (runChannel sec.uuid s.runId) (log.drop s.since)) ∧
      (inbox.intact s.pubsub →
        s.sent <+: onChannel (runChannel sec.uuid s.runId) (log.drop s.since))

structure Stream.Good {K : Type} (inbox : Inbox String String K) (sec : Security)
    (readable : ℚ → String → Except JwtError Payload) (environment : Environment)
    (log : List (String × String)) (s : Stream K) : Prop where
  admitted : (∃ code, s.phase = .closed code) ∨
    authorized (readable s.openedAt) environment s.token = true
  since_le : s.since ≤ log.length
  follows : s.Follows inbox sec log

section
variable {K : Type} {client : PubSub String String K} {inbox : Inbox String String K}
  {sec : Security} {readable : ℚ → String → Except JwtError Payload}
  {environment : Environment} {log : List (String × String)} {s t : Stream K}

theorem good_connect (hdelivers : Delivers client inbox) (log : List (String × String))
    (runId : Uuid) (token : Option String) (now : ℚ) :
    (Stream.connect client sec readable environment runId token now).Good inbox sec readable
      environment log := by
  have hfresh : inbox.channel client.pubsub = none ∧ inbox.waiting client.pubsub = [] :=
    ⟨hdelivers.channel_pubsub, hdelivers.waiting_pubsub⟩
  unfold Stream.connect
  cases hanswer : streamRun sec (readable now) environment runId token with
  | closed code => exact ⟨Or.inl ⟨code, rfl⟩, Nat.zero_le _, rfl, hfresh⟩
  | accepted channel =>
    exact ⟨Or.inr (streamRun_accepts_iff.mp ⟨channel, hanswer⟩), Nat.zero_le _, rfl, hfresh⟩

/-- A stream past its admission stays admitted. -/
theorem Stream.Good.admitted_of (h : s.Good inbox sec readable environment log)
    (hopen : ∀ code, s.phase ≠ .closed code) :
    authorized (readable s.openedAt) environment s.token = true := by
  rcases h.admitted with ⟨code, hcode⟩ | hok
  · exact absurd hcode (hopen code)
  · exact hok

/-- However far a stream has come, what it sent is part of what it had to relay, and a beginning of
it while its connection lasts. -/
theorem Stream.Follows.sent_part (h : s.Follows inbox sec log) :
    s.sent.Sublist (onChannel (runChannel sec.uuid s.runId) (log.drop s.since)) ∧
      (inbox.intact s.pubsub →
        s.sent <+: onChannel (runChannel sec.uuid s.runId) (log.drop s.since)) := by
  unfold Stream.Follows at h
  split at h
  · rw [h.1]
    exact ⟨List.nil_sublist _, fun _ => List.nil_prefix⟩
  · rw [h.1]
    exact ⟨List.nil_sublist _, fun _ => List.nil_prefix⟩
  · rw [h.1]
    exact ⟨List.nil_sublist _, fun _ => List.nil_prefix⟩
  · exact ⟨h.taken_sublist, h.taken_prefix⟩
  · refine ⟨(List.sublist_append_left _ _).trans h.taken_sublist, fun hintact => ?_⟩
    exact (List.prefix_append _ _).trans (h.taken_prefix hintact)
  · exact h
  · exact h

theorem good_resumed (hdelivers : Delivers client inbox)
    (h : s.Good inbox sec readable environment log) (step : Resumed client sec log s t) :
    t.Good inbox sec readable environment log := by
  have hfollows := h.follows
  unfold Stream.Follows at hfollows
  cases step with
  | accept hphase =>
    rw [hphase] at hfollows
    exact ⟨Or.inr (h.admitted_of (by simp [hphase])), h.since_le, hfollows⟩
  | subscribe hphase =>
    rw [hphase] at hfollows
    have hrelays : Relays inbox (runChannel sec.uuid s.runId) log log.length [] _ :=
      Relays.subscribe hdelivers log hfollows.2.2
    rw [← hfollows.1] at hrelays
    exact ⟨Or.inr (h.admitted_of (by simp [hphase])), Nat.le_refl _, hrelays⟩
  | confirmed hphase hread =>
    refine ⟨Or.inr (h.admitted_of (by simp [hphase])), h.since_le, ?_⟩
    rw [hphase] at hfollows
    unfold Stream.Follows
    rw [hphase]
    have hrelays := hfollows.listen hdelivers hread
    rwa [Item.data?, Option.toList_none, List.append_nil] at hrelays
  | received hphase hread =>
    rw [hphase] at hfollows
    exact ⟨Or.inr (h.admitted_of (by simp [hphase])), h.since_le, hfollows.listen hdelivers hread⟩
  | sent hphase =>
    rw [hphase] at hfollows
    exact ⟨Or.inr (h.admitted_of (by simp [hphase])), h.since_le, hfollows⟩
  | stop hphase =>
    rw [hphase] at hfollows
    refine ⟨Or.inr (h.admitted_of (by simp [hphase])), h.since_le, hfollows.1, ?_⟩
    exact fun hintact => hfollows.2 (hdelivers.intact_unsubscribe _ _ hintact)

theorem good_fail (h : s.Good inbox sec readable environment log) (hfail : s.fail = some t) :
    t.Good inbox sec readable environment log := by
  have hsince := h.since_le
  have hsent := h.follows.sent_part
  rcases fail_cases hfail with ⟨rfl, hphase⟩ | ⟨rfl, hphase⟩
  · refine ⟨Or.inr (h.admitted_of ?_), hsince, hsent⟩
    intro code hcode
    rcases hphase with hphase | hphase | hphase
    · simp [hphase] at hcode
    · simp [hphase] at hcode
    · simp [hphase] at hcode
  · refine ⟨Or.inr (h.admitted_of ?_), hsince, hsent⟩
    intro code hcode
    rcases hphase with hphase | ⟨data, hphase⟩
    · simp [hphase] at hcode
    · simp [hphase] at hcode

theorem good_offer (hdelivers : Delivers client inbox)
    (h : s.Good inbox sec readable environment log) (channel data : String) :
    (s.offer client channel data).Good inbox sec readable environment
      (log ++ [(channel, data)]) := by
  have hsince : s.since ≤ (log ++ [(channel, data)]).length := by
    have hle := h.since_le
    rw [List.length_append]
    omega
  refine ⟨h.admitted, hsince, ?_⟩
  have hsent := h.follows.sent_part
  have hover : s.sent.Sublist
        (onChannel (runChannel sec.uuid s.runId) ((log ++ [(channel, data)]).drop s.since)) ∧
      (inbox.intact (client.publish channel data s.pubsub) → s.sent <+:
        onChannel (runChannel sec.uuid s.runId) ((log ++ [(channel, data)]).drop s.since)) :=
    ⟨sublist_onChannel_append h.since_le hsent.1 _, fun hintact =>
      prefix_onChannel_append h.since_le (hsent.2 (hdelivers.intact_of_publish _ _ hintact)) _⟩
  have hfollows := h.follows
  unfold Stream.Follows at hfollows ⊢
  unfold Stream.offer
  simp only
  split at hfollows
  · exact ⟨hfollows.1, hdelivers.unsubscribed channel data hfollows.2.1 hfollows.2.2⟩
  · exact ⟨hfollows.1, hdelivers.unsubscribed channel data hfollows.2.1 hfollows.2.2⟩
  · exact ⟨hfollows.1, hdelivers.unsubscribed channel data hfollows.2.1 hfollows.2.2⟩
  · exact hfollows.publish hdelivers channel data
  · exact hfollows.publish hdelivers channel data
  · exact hover
  · exact hover

end

end AegisPlatform.Api
