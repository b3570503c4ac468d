import AegisPlatform.Api.Feed
import AegisPlatform.Workers.News

/-! # What a client of the feed has read

However clients come and go, executions publish and awaits fail: an admitted client is sent the
messages of its channel from the moment it subscribed, each at most once and in order, and nothing
else; none is missing while its connection to Redis lasts (`stream_relays`). Read as events these
are the events of the execution of its run, as far as they have been published (`watcher_reads`).
-/

namespace AegisPlatform.Api
open Foundations Domain Core Services Workers
set_option autoImplicit false
set_option maxHeartbeats 250000

/-- Nobody is connected and nothing is published yet. -/
def Feed.start {K : Type} (publishers : List Publisher) : Feed K := { publishers := publishers }

def Feed.Relaying {K : Type} (inbox : Inbox String String K) (sec : Security)
    (readable : ℚ → String → Except JwtError Payload) (environment : Environment) (feed : Feed K) :
    Prop :=
  ∀ (i : ℕ) s, feed.streams[i]? = some s → s.Good inbox sec readable environment feed.log

/-- What was published on a run's channel and what its execution has yet to publish are together
the events it began with. -/
def Feed.Weaves {K : Type} (sec : Security) (publishers : List Publisher) (feed : Feed K) : Prop :=
  ∀ (j : ℕ) p, feed.publishers[j]? = some p → ∃ p₀, publishers[j]? = some p₀ ∧
    p.runId = p₀.runId ∧
    onChannel (runChannel sec.uuid p.runId) feed.log ++ p.outbox.map (RunEvent.message sec.uuid) =
      p₀.outbox.map (RunEvent.message sec.uuid)

section
variable {K : Type} {client : PubSub String String K} {inbox : Inbox String String K}
  {sec : Security} {readable : ℚ → String → Except JwtError Payload}
  {environment : Environment} {publishers : List Publisher} {feed feed' : Feed K} {l : FeedAction}

theorem relaying_step (hdelivers : Delivers client inbox)
    (h : feed.Relaying inbox sec readable environment)
    (hstep : ofNext (Feed.next client sec readable environment) feed l feed') :
    feed'.Relaying inbox sec readable environment := by
  cases feed_step hstep with
  | connect runId token now =>
    intro i s hs
    rcases getElem?_snoc_cases hs with hold | rfl
    · exact h i s hold
    · exact good_connect hdelivers feed.log runId token now
  | resume hs step => exact forall_set h (good_resumed hdelivers (h _ _ hs) step)
  | fail hs step => exact forall_set h (good_fail (h _ _ hs) step)
  | publish hp =>
    intro i s hs
    rw [List.getElem?_map] at hs
    obtain ⟨s₀, hs₀, rfl⟩ := Option.map_eq_some_iff.mp hs
    exact good_offer hdelivers (h i s₀ hs₀) _ _

theorem weaves_publish (hdistinct : (publishers.map Publisher.runId).Nodup)
    (h : feed.Weaves sec publishers) {j : ℕ} {runId : Uuid} {event : RunEvent}
    {rest : List RunEvent} (hp : feed.publishers[j]? = some ⟨runId, event :: rest⟩)
    (streams : List (Stream K)) :
    Feed.Weaves sec publishers
      { log := feed.log ++ [(runChannel sec.uuid runId, event.message sec.uuid)]
        streams := streams
        publishers := feed.publishers.set j ⟨runId, rest⟩ } := by
  obtain ⟨p₀, hp₀, hrun, hevents⟩ := h j _ hp
  intro k p hk
  rcases getElem?_set_cases hk with ⟨rfl, rfl⟩ | ⟨hne, hold⟩
  · refine ⟨p₀, hp₀, hrun, ?_⟩
    rw [onChannel_snoc, if_pos rfl, List.append_assoc]
    exact hevents
  · obtain ⟨p₁, hp₁, hrun₁, hevents₁⟩ := h k p hold
    refine ⟨p₁, hp₁, hrun₁, ?_⟩
    have hother : runChannel sec.uuid runId ≠ runChannel sec.uuid p.runId := by
      intro heq
      have hsame : p₁.runId = p₀.runId := by
        rw [← hrun₁, ← hrun]
        exact (runChannel_injective sec.uuid heq).symm
      have hj : (publishers.map Publisher.runId)[j]? = some p₀.runId := by
        rw [List.getElem?_map, hp₀]
        rfl
      have hk : (publishers.map Publisher.runId)[k]? = some p₀.runId := by
        rw [List.getElem?_map, hp₁, ← hsame]
        rfl
      exact hne ((List.getElem?_inj (List.getElem?_eq_some_iff.mp hk).1 hdistinct).mp
        (hk.trans hj.symm))
    rw [onChannel_snoc, if_neg hother, List.append_nil]
    exact hevents₁

theorem weaves_step (hdistinct : (publishers.map Publisher.runId).Nodup)
    (h : feed.Weaves sec publishers)
    (hstep : ofNext (Feed.next client sec readable environment) feed l feed') :
    feed'.Weaves sec publishers := by
  cases feed_step hstep with
  | connect => exact h
  | resume => exact h
  | fail => exact h
  | publish hp => exact weaves_publish hdistinct h hp _

theorem weaves_start (sec : Security) (publishers : List Publisher) :
    (Feed.start publishers : Feed K).Weaves sec publishers := by
  intro j p hp
  exact ⟨p, hp, rfl, rfl⟩

/-- Whatever happens, every stream stands where it should. -/
theorem relaying_run (hdelivers : Delivers client inbox) {ls : List FeedAction}
    (h : Run (ofNext (Feed.next client sec readable environment)) (Feed.start publishers) ls feed) :
    feed.Relaying inbox sec readable environment :=
  h.invariant (fun _ _ _ hi hstep => relaying_step hdelivers hi hstep) (fun i s hs => by cases hs)

end

/-- In every run of the feed a client was sent messages only if its token admitted it, and what it
was sent was published on its channel since it subscribed, each message at most once and in order.
While its connection lasts none is left out, and it is all of them whenever there is nothing to
read. -/
theorem stream_relays {K : Type} {client : PubSub String String K} {inbox : Inbox String String K}
    (hdelivers : Delivers client inbox) (sec : Security)
    (readable : ℚ → String → Except JwtError Payload) (environment : Environment)
    (publishers : List Publisher) {feed : Feed K} {ls : List FeedAction}
    (h : Run (ofNext (Feed.next client sec readable environment)) (Feed.start publishers) ls feed)
    {i : ℕ} {s : Stream K} (hs : feed.streams[i]? = some s) :
    ((s.sent ≠ [] ∨ inbox.waiting s.pubsub ≠ []) →
        authorized (readable s.openedAt) environment s.token = true) ∧
      s.sent.Sublist (onChannel (runChannel sec.uuid s.runId) (feed.log.drop s.since)) ∧
      (inbox.intact s.pubsub →
        s.sent <+: onChannel (runChannel sec.uuid s.runId) (feed.log.drop s.since) ∧
        (s.phase = .listening → client.listen s.pubsub = none →
          s.sent = onChannel (runChannel sec.uuid s.runId) (feed.log.drop s.since))) := by
  have hgood : s.Good inbox sec readable environment feed.log := relaying_run hdelivers h i s hs
  obtain ⟨hpart, hinitial⟩ := hgood.follows.sent_part
  have hfollows := hgood.follows
  unfold Stream.Follows at hfollows
  refine ⟨?_, hpart, fun hintact => ⟨hinitial hintact, ?_⟩⟩
  · intro hsomething
    rcases hgood.admitted with ⟨code, hcode⟩ | hok
    · rw [hcode] at hfollows
      rw [hfollows.1, hfollows.2.2] at hsomething
      simp at hsomething
    · exact hok
  · intro hlistening hread
    rw [hlistening] at hfollows
    exact hfollows.taken_eq hdelivers hintact hread

/-! ## The events of a run -/

structure Execution where
  env : Env
  runId : Uuid
  world : World

section
variable [Unicode]

/-- The events an execution publishes, whatever goes wrong in it. -/
def Execution.events (x : Execution) : List RunEvent := announced x.env x.runId x.world

def Execution.publisher (x : Execution) : Publisher := ⟨x.runId, x.events⟩

variable {K : Type} {client : PubSub String String K} {inbox : Inbox String String K}
  {sec : Security} {readable : ℚ → String → Except JwtError Payload}
  {environment : Environment} {executions : List Execution}

omit [Unicode] in
/-- Texts of events, read as the events before a moment and some of those after it. -/
theorem texts_of_part {uuid : UuidText} {events : List RunEvent} {before sent after : List String}
    (hevents : before ++ after = events.map (RunEvent.message uuid)) (hsent : sent.Sublist after) :
    ∃ missed told rest : List RunEvent, events = missed ++ rest ∧
      before = missed.map (RunEvent.message uuid) ∧
      after = rest.map (RunEvent.message uuid) ∧ sent = told.map (RunEvent.message uuid) ∧
      told.Sublist rest := by
  obtain ⟨missed, rest, rfl, hmissed, hrest⟩ := List.append_eq_map_iff.mp hevents
  rw [← hrest] at hsent
  obtain ⟨told, htold, rfl⟩ := List.sublist_map_iff.mp hsent
  exact ⟨missed, told, rest, rfl, hmissed.symm, hrest.symm, rfl, htold⟩

omit [Unicode] in
/-- The events of a text are those it was made from. -/
theorem prefix_of_texts {uuid : UuidText} {told rest : List RunEvent}
    (h : told.map (RunEvent.message uuid) <+: rest.map (RunEvent.message uuid)) :
    told <+: rest := by
  have hread := h.filterMap (readEvent uuid)
  rwa [filterMap_readEvent, filterMap_readEvent] at hread

/-- Executions of different runs publish at the same time, each whatever its faults let through. A
client of one of these runs reads its events alone, each at most once and in order: those published
before it subscribed are missing. While its connection lasts nothing else is, once all is published
and there is nothing to read. -/
theorem watcher_reads (hdelivers : Delivers client inbox)
    (hdistinct : (executions.map Execution.runId).Nodup) {feed : Feed K} {ls : List FeedAction}
    (h : Run (ofNext (Feed.next client sec readable environment))
      (Feed.start (executions.map Execution.publisher)) ls feed)
    {i j : ℕ} {s : Stream K} {x : Execution} {p : Publisher} (hs : feed.streams[i]? = some s)
    (hx : executions[j]? = some x) (hp : feed.publishers[j]? = some p) (hrun : s.runId = x.runId) :
    ∃ missed told, onChannel (runChannel sec.uuid x.runId) (feed.log.take s.since) =
        missed.map (RunEvent.message sec.uuid) ∧
      s.sent = told.map (RunEvent.message sec.uuid) ∧
      s.sent.filterMap (readEvent sec.uuid) = told ∧ (missed ++ told).Sublist x.events ∧
      (inbox.intact s.pubsub → missed ++ told <+: x.events ∧
        (p.outbox = [] → s.phase = .listening → client.listen s.pubsub = none →
          missed ++ told = x.events)) ∧
      ∃ started steps finished, x.events = started ++ steps ++ finished ∧
        Orderly x.runId started steps finished := by
  have hids : (executions.map Execution.publisher).map Publisher.runId =
      executions.map Execution.runId := by
    rw [List.map_map]
    rfl
  have hweaves : feed.Weaves sec (executions.map Execution.publisher) := by
    refine h.invariant (fun _ _ _ hi hstep => ?_) (weaves_start sec _)
    exact weaves_step (by rw [hids]; exact hdistinct) hi hstep
  have hgood : s.Good inbox sec readable environment feed.log := relaying_run hdelivers h i s hs
  obtain ⟨p₀, hp₀, hpid, hevents⟩ := hweaves j p hp
  rw [List.getElem?_map, hx] at hp₀
  obtain rfl := Option.some.inj hp₀
  rw [show p.runId = x.runId from hpid] at hevents
  -- the log splits where the client subscribed
  have hsplit : onChannel (runChannel sec.uuid x.runId) feed.log =
      onChannel (runChannel sec.uuid x.runId) (feed.log.take s.since) ++
        onChannel (runChannel sec.uuid x.runId) (feed.log.drop s.since) := by
    rw [← onChannel_append, List.take_append_drop]
  rw [hsplit, List.append_assoc] at hevents
  obtain ⟨hpart, hinitial⟩ := hgood.follows.sent_part
  rw [hrun] at hpart hinitial
  obtain ⟨missed, told, rest, hall, hmissed, hrest, htold, hsome⟩ :=
    texts_of_part hevents (hpart.trans (List.sublist_append_left _ _))
  rw [show x.events = missed ++ rest from hall]
  refine ⟨missed, told, hmissed, htold, ?_, (List.Sublist.refl missed).append hsome, ?_, ?_⟩
  · rw [htold]
    exact filterMap_readEvent sec.uuid told
  · intro hintact
    refine ⟨?_, ?_⟩
    · have htexts := (hinitial hintact).trans (List.prefix_append _
        (p.outbox.map (RunEvent.message sec.uuid)))
      rw [hrest, htold] at htexts
      exact (List.prefix_append_right_inj missed).mpr (prefix_of_texts htexts)
    · intro hdone hlistening hread
      have hfollows := hgood.follows
      unfold Stream.Follows at hfollows
      rw [hlistening] at hfollows
      have hsent := hfollows.taken_eq hdelivers hintact hread
      rw [hdone, List.map_nil, List.append_nil, ← hrun, ← hsent, htold] at hrest
      have hlength := congrArg List.length hrest
      rw [List.length_map, List.length_map] at hlength
      rw [hsome.eq_of_length hlength]
  · rw [← show x.events = missed ++ rest from hall]
    exact (executeRun_published _ _ _).2

end

/-! ## Two clients of one run -/

def loginExecution : Execution := ⟨calmEnv fun _ _ => .ok giveUp, 0, loginWorld⟩

/-- Only the token Ada was given at her login can be read. -/
def adaReadable (now : ℚ) : String → Except JwtError Payload :=
  plainJwt.decode [adaLogin.access plainSecurity] now

def loginFeed : Feed (Subscriber String String) :=
  Feed.start [@Execution.publisher asciiUnicode loginExecution]

/-- Ada subscribes when the run has started, a client without a token is turned away. -/
def loginViewing : List FeedAction :=
  [.connect 0 (some (adaLogin.tokens plainSecurity).accessToken) 200, .connect 0 none 200,
    .publish 0, .resume 0, .resume 0, .publish 0, .resume 0, .resume 0, .publish 0, .resume 0,
    .resume 0, .resume 0, .publish 0, .resume 0, .resume 0]

theorem loginViewing_run :
    (exec (Feed.next Subscriber.client plainSecurity adaReadable .staging) loginFeed
      loginViewing).map (fun feed =>
        (feed.streams.map fun s => (s.runId, s.phase, s.sent.length, s.pubsub.unread.length),
          feed.publishers.map fun p => p.outbox.length)) =
      some ([(0, .listening, 3, 0), (0, .closed 1008, 0, 0)], [0]) := by
  decide +kernel

theorem loginViewing_end : ∃ feed s p,
    Run (ofNext (Feed.next Subscriber.client plainSecurity adaReadable .staging)) loginFeed
      loginViewing feed ∧ feed.streams[0]? = some s ∧ feed.publishers[0]? = some p ∧ s.runId = 0 ∧
      s.phase = .listening ∧ s.sent.length = 3 ∧ Subscriber.client.listen s.pubsub = none ∧
      p.outbox = [] := by
  obtain ⟨feed, hexec, hend⟩ := Option.map_eq_some_iff.mp loginViewing_run
  obtain ⟨hstreams, hpublishers⟩ := Prod.mk.inj hend
  obtain ⟨s, rest, hs, hfirst, -⟩ := List.map_eq_cons_iff.mp hstreams
  obtain ⟨p, rest', hp, houtbox, -⟩ := List.map_eq_cons_iff.mp hpublishers
  simp only [Prod.mk.injEq] at hfirst
  obtain ⟨hrun, hphase, hsent, hunread⟩ := hfirst
  have hlisten : Subscriber.client.listen s.pubsub = none := by
    unfold Subscriber.client
    simp only [List.length_eq_zero_iff.mp hunread]
  exact ⟨feed, s, p, exec_run hexec, by rw [hs]; rfl, by rw [hp]; rfl, hrun, hphase, hsent, hlisten,
    List.length_eq_zero_iff.mp houtbox⟩

theorem login_relayed : ∃ (feed : Feed (Subscriber String String))
    (s : Stream (Subscriber String String)),
    Run (ofNext (Feed.next Subscriber.client plainSecurity adaReadable .staging)) loginFeed
      loginViewing feed ∧ s.sent.length = 3 ∧
      authorized (adaReadable s.openedAt) .staging s.token = true ∧
      s.sent = onChannel (runChannel plainUuid 0) (feed.log.drop s.since) := by
  obtain ⟨feed, s, p, hrun, hs, -, hid, hphase, hsent, hlisten, -⟩ := loginViewing_end
  obtain ⟨hadmitted, -, hall⟩ :=
    stream_relays Subscriber.delivers plainSecurity adaReadable .staging _ hrun hs
  have hall := (hall trivial).2 hphase hlisten
  rw [hid] at hall
  refine ⟨feed, s, hrun, hsent, hadmitted (Or.inl ?_), hall⟩
  intro hnil
  rw [hnil] at hsent
  cases hsent

theorem login_read : ∃ (feed : Feed (Subscriber String String))
    (s : Stream (Subscriber String String))
    (missed told : List RunEvent),
    Run (ofNext (Feed.next Subscriber.client plainSecurity adaReadable .staging)) loginFeed
      loginViewing feed ∧ s.sent.filterMap (readEvent plainUuid) = told ∧ told.length = 3 ∧
      missed ++ told = @Execution.events asciiUnicode loginExecution := by
  obtain ⟨feed, s, p, hrun, hs, hp, hid, hphase, hsent, hlisten, houtbox⟩ := loginViewing_end
  obtain ⟨missed, told, -, htold, hread, -, hall, -⟩ := @watcher_reads asciiUnicode _ _ _
    plainSecurity adaReadable .staging [loginExecution] Subscriber.delivers (by simp) feed
    loginViewing hrun 0 0 s loginExecution p hs rfl hp hid
  refine ⟨feed, s, missed, told, hrun, hread, ?_, (hall trivial).2 houtbox hphase hlisten⟩
  rw [htold, List.length_map] at hsent
  exact hsent

end AegisPlatform.Api
