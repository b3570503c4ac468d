import Mathlib.Data.List.Basic

/-! # Publish and subscribe

A client of a broker, as what its operations do to one connection: a message published on a channel
is offered to every connection, and is kept for nobody else; a subscription is confirmed by an item
of its own.

`Delivers` is what such a client promises its readers: each message of the channel at most once and
in the order of publication, and every one of them while the connection lasts. `Relays` is what a
reader of one channel relies on, with a rule for each operation.
-/

namespace AegisPlatform.Foundations
set_option autoImplicit false
set_option maxHeartbeats 250000

variable {C M K : Type}

inductive Item (C M : Type)
  | subscribed (channel : C)
  | message (channel : C) (data : M)
deriving DecidableEq

def Item.data? : Item C M → Option M
  | .subscribed _ => none
  | .message _ data => some data

structure PubSub (C M K : Type) where
  pubsub : K
  subscribe : C → K → K
  unsubscribe : C → K → K
  /-- What a message published on a channel does to one connection. -/
  publish : C → M → K → K
  /-- The next item and what is left; nothing while there is nothing to read. -/
  listen : K → Option (Item C M × K)

/-- What is to be known of a connection: the channel it is subscribed to, the messages still to be
read from it, and whether it has lasted. -/
structure Inbox (C M K : Type) where
  channel : K → Option C
  waiting : K → List M
  intact : K → Prop

/-- A connection holds what is expected of it, or it has not lasted and holds less. -/
def Inbox.Keeps (inbox : Inbox C M K) (k k' : K) (expected : List M) : Prop :=
  (inbox.waiting k').Sublist expected ∧
    (inbox.intact k' → inbox.intact k ∧ inbox.waiting k' = expected)

/-- An item read is the next of those waiting, or the connection has not lasted and some are
skipped. -/
def Inbox.Yields (inbox : Inbox C M K) (k : K) (item : Item C M) (k' : K) : Prop :=
  (item.data?.toList ++ inbox.waiting k').Sublist (inbox.waiting k) ∧
    (inbox.intact k' → inbox.intact k ∧ item.data?.toList ++ inbox.waiting k' = inbox.waiting k)

structure Delivers (client : PubSub C M K) (inbox : Inbox C M K) : Prop where
  channel_pubsub : inbox.channel client.pubsub = none
  waiting_pubsub : inbox.waiting client.pubsub = []
  channel_subscribe : ∀ c k, inbox.channel (client.subscribe c k) = some c
  keeps_subscribe : ∀ c k, inbox.Keeps k (client.subscribe c k) (inbox.waiting k)
  channel_publish : ∀ c data k, inbox.channel (client.publish c data k) = inbox.channel k
  keeps_publish : ∀ c data k, inbox.channel k = some c →
    inbox.Keeps k (client.publish c data k) (inbox.waiting k ++ [data])
  keeps_publish_other : ∀ c data k, inbox.channel k ≠ some c →
    inbox.Keeps k (client.publish c data k) (inbox.waiting k)
  channel_listen : ∀ k item k', client.listen k = some (item, k') →
    inbox.channel k' = inbox.channel k
  yields_listen : ∀ k item k', client.listen k = some (item, k') → inbox.Yields k item k'
  listen_none : ∀ k, client.listen k = none → inbox.intact k → inbox.waiting k = []
  intact_unsubscribe : ∀ c k, inbox.intact (client.unsubscribe c k) → inbox.intact k

namespace Delivers
variable {client : PubSub C M K} {inbox : Inbox C M K} {k : K}

/-- A connection without a subscription is offered nothing. -/
theorem unsubscribed (hdelivers : Delivers client inbox) (channel : C) (data : M)
    (hchannel : inbox.channel k = none) (hwaiting : inbox.waiting k = []) :
    inbox.channel (client.publish channel data k) = none ∧
      inbox.waiting (client.publish channel data k) = [] := by
  have hother : inbox.channel k ≠ some channel := by
    rw [hchannel]
    exact fun heq => nomatch heq
  have hpart := (hdelivers.keeps_publish_other channel data k hother).1
  rw [hwaiting] at hpart
  exact ⟨(hdelivers.channel_publish channel data k).trans hchannel, List.sublist_nil.mp hpart⟩

/-- No message mends a connection. -/
theorem intact_of_publish (hdelivers : Delivers client inbox) (channel : C) (data : M)
    (h : inbox.intact (client.publish channel data k)) : inbox.intact k := by
  by_cases hchannel : inbox.channel k = some channel
  · exact ((hdelivers.keeps_publish channel data k hchannel).2 h).1
  · exact ((hdelivers.keeps_publish_other channel data k hchannel).2 h).1

end Delivers

/-- What was published on one channel, oldest first. -/
def onChannel [DecidableEq C] (channel : C) (log : List (C × M)) : List M :=
  log.filterMap fun entry => if entry.1 = channel then some entry.2 else none

section
variable [DecidableEq C] {channel : C}

@[simp] theorem onChannel_nil : onChannel channel ([] : List (C × M)) = [] := rfl

@[simp] theorem onChannel_append (log log' : List (C × M)) :
    onChannel channel (log ++ log') = onChannel channel log ++ onChannel channel log' :=
  List.filterMap_append

theorem onChannel_snoc (log : List (C × M)) (c : C) (data : M) :
    onChannel channel (log ++ [(c, data)]) =
      onChannel channel log ++ if c = channel then [data] else [] := by
  rw [onChannel_append]
  congr 1
  unfold onChannel
  by_cases h : c = channel
  · simp [h]
  · simp [h]

theorem onChannel_eq_nil {log : List (C × M)} (h : ∀ entry ∈ log, entry.1 ≠ channel) :
    onChannel channel log = [] := by
  unfold onChannel
  rw [List.filterMap_eq_nil_iff]
  intro entry hentry
  rw [if_neg (h entry hentry)]

theorem onChannel_map_self {E : Type} (f : E → M) (events : List E) :
    onChannel channel (events.map fun e => (channel, f e)) = events.map f := by
  unfold onChannel
  rw [List.filterMap_map]
  simp only [Function.comp_def, if_true]
  exact congrFun List.filterMap_eq_map' events

theorem onChannel_map_other {E : Type} {other : C} (h : other ≠ channel) (f : E → M)
    (events : List E) : onChannel channel (events.map fun e => (other, f e)) = [] := by
  unfold onChannel
  rw [List.filterMap_map]
  simp [h]

end

/-! ## A reader of one channel -/

/-- `taken` and the messages still waiting are what was published on `channel` after the first
`since` messages of the log, or a part of that once the connection has not lasted. -/
structure Relays [DecidableEq C] (inbox : Inbox C M K) (channel : C) (log : List (C × M))
    (since : ℕ) (taken : List M) (k : K) : Prop where
  subscribed : inbox.channel k = some channel
  since_le : since ≤ log.length
  part : (taken ++ inbox.waiting k).Sublist (onChannel channel (log.drop since))
  whole : inbox.intact k → taken ++ inbox.waiting k = onChannel channel (log.drop since)

namespace Relays
variable [DecidableEq C] {client : PubSub C M K} {inbox : Inbox C M K} {channel : C}
  {log : List (C × M)} {since : ℕ} {taken : List M} {k k' : K}

/-- A fresh subscription misses what came before it and nothing else. -/
theorem subscribe (hdelivers : Delivers client inbox) (log : List (C × M))
    (h : inbox.waiting k = []) :
    Relays inbox channel log log.length [] (client.subscribe channel k) where
  subscribed := hdelivers.channel_subscribe channel k
  since_le := Nat.le_refl _
  part := by
    have hpart := (hdelivers.keeps_subscribe channel k).1
    rw [h] at hpart
    simpa using hpart
  whole := by
    intro hintact
    have hwhole := ((hdelivers.keeps_subscribe channel k).2 hintact).2
    rw [h] at hwhole
    simpa using hwhole

/-- A connection that keeps what is expected of it relays what the log has grown by. -/
theorem keeps (h : Relays inbox channel log since taken k) {more : List (C × M)}
    (hchannel : inbox.channel k' = inbox.channel k)
    (hkeeps : inbox.Keeps k k' (inbox.waiting k ++ onChannel channel more)) :
    Relays inbox channel (log ++ more) since taken k' where
  subscribed := hchannel.trans h.subscribed
  since_le := by
    have hle := h.since_le
    rw [List.length_append]
    omega
  part := by
    rw [List.drop_append_of_le_length h.since_le, onChannel_append]
    have htaken := (List.Sublist.refl taken).append hkeeps.1
    rw [← List.append_assoc] at htaken
    exact htaken.trans (h.part.append (List.Sublist.refl _))
  whole := by
    intro hintact
    obtain ⟨hbefore, hwaiting⟩ := hkeeps.2 hintact
    rw [List.drop_append_of_le_length h.since_le, onChannel_append, ← h.whole hbefore, hwaiting,
      List.append_assoc]

theorem publish (hdelivers : Delivers client inbox) (h : Relays inbox channel log since taken k)
    (c : C) (data : M) :
    Relays inbox channel (log ++ [(c, data)]) since taken (client.publish c data k) := by
  refine h.keeps (hdelivers.channel_publish c data k) ?_
  have hgrown : onChannel channel [(c, data)] = if c = channel then [data] else [] :=
    onChannel_snoc [] c data
  rw [hgrown]
  by_cases hc : c = channel
  · rw [if_pos hc]
    exact hdelivers.keeps_publish c data k (hc ▸ h.subscribed)
  · rw [if_neg hc, List.append_nil]
    refine hdelivers.keeps_publish_other c data k ?_
    rw [h.subscribed]
    exact fun heq => hc (Option.some.inj heq).symm

/-- Reading takes the data of the item, if it has any. -/
theorem listen (hdelivers : Delivers client inbox) (h : Relays inbox channel log since taken k)
    {item : Item C M} (hread : client.listen k = some (item, k')) :
    Relays inbox channel log since (taken ++ item.data?.toList) k' where
  subscribed := (hdelivers.channel_listen k item k' hread).trans h.subscribed
  since_le := h.since_le
  part := by
    have hyields := (hdelivers.yields_listen k item k' hread).1
    rw [List.append_assoc]
    exact ((List.Sublist.refl taken).append hyields).trans h.part
  whole := by
    intro hintact
    obtain ⟨hbefore, hwaiting⟩ := (hdelivers.yields_listen k item k' hread).2 hintact
    rw [List.append_assoc, hwaiting, h.whole hbefore]

/-- What was taken is part of what there was to take, in its order. -/
theorem taken_sublist (h : Relays inbox channel log since taken k) :
    taken.Sublist (onChannel channel (log.drop since)) :=
  (List.sublist_append_left _ _).trans h.part

/-- While the connection lasts it is a beginning of it. -/
theorem taken_prefix (h : Relays inbox channel log since taken k) (hintact : inbox.intact k) :
    taken <+: onChannel channel (log.drop since) :=
  ⟨inbox.waiting k, h.whole hintact⟩

/-- A reader with nothing left to read has taken everything. -/
theorem taken_eq (hdelivers : Delivers client inbox) (h : Relays inbox channel log since taken k)
    (hintact : inbox.intact k) (hread : client.listen k = none) :
    taken = onChannel channel (log.drop since) := by
  have hwhole := h.whole hintact
  rwa [hdelivers.listen_none k hread hintact, List.append_nil] at hwhole

end Relays

/-- Part of what was published stays part of it when more is published. -/
theorem sublist_onChannel_append [DecidableEq C] {channel : C} {log : List (C × M)} {since : ℕ}
    {taken : List M} (hsince : since ≤ log.length)
    (h : taken.Sublist (onChannel channel (log.drop since))) (more : List (C × M)) :
    taken.Sublist (onChannel channel ((log ++ more).drop since)) := by
  rw [List.drop_append_of_le_length hsince, onChannel_append]
  exact h.trans (List.sublist_append_left _ _)

/-- A beginning of what was published stays one when more is published. -/
theorem prefix_onChannel_append [DecidableEq C] {channel : C} {log : List (C × M)} {since : ℕ}
    {taken : List M} (hsince : since ≤ log.length) (h : taken <+: onChannel channel (log.drop since))
    (more : List (C × M)) : taken <+: onChannel channel ((log ++ more).drop since) := by
  rw [List.drop_append_of_le_length hsince, onChannel_append]
  exact h.trans (List.prefix_append _ _)

/-! ## A queue for each subscriber -/

/-- A client in one process: every connection lasts, and holds what it has not read yet. -/
structure Subscriber (C M : Type) where
  channel : Option C := none
  unread : List (Item C M) := []
deriving DecidableEq

namespace Subscriber
variable [DecidableEq C]

def client : PubSub C M (Subscriber C M) where
  pubsub := {}
  subscribe channel s := { channel := some channel, unread := s.unread ++ [.subscribed channel] }
  unsubscribe _ s := { s with channel := none }
  publish channel data s :=
    if s.channel = some channel then { s with unread := s.unread ++ [.message channel data] } else s
  listen s :=
    match s.unread with
    | [] => none
    | item :: rest => some (item, { s with unread := rest })

def inbox : Inbox C M (Subscriber C M) where
  channel := Subscriber.channel
  waiting s := s.unread.filterMap Item.data?
  intact _ := True

theorem listen_cases {s s' : Subscriber C M} {item : Item C M}
    (h : client.listen s = some (item, s')) :
    s.unread = item :: s'.unread ∧ s'.channel = s.channel := by
  unfold client at h
  simp only at h
  split at h
  · cases h
  · next first rest hunread =>
    obtain ⟨rfl, rfl⟩ := Prod.mk.inj (Option.some.inj h)
    exact ⟨hunread, rfl⟩

theorem delivers : Delivers (client : PubSub C M _) inbox where
  channel_pubsub := rfl
  waiting_pubsub := rfl
  channel_subscribe _ _ := rfl
  keeps_subscribe c s := by
    have hwaiting : inbox.waiting (client.subscribe c s) = inbox.waiting s := by
      simp [inbox, client, Item.data?]
    exact ⟨hwaiting ▸ List.Sublist.refl _, fun _ => ⟨trivial, hwaiting⟩⟩
  channel_publish c data s := by
    unfold client inbox
    simp only
    split
    · rfl
    · rfl
  keeps_publish c data s hchannel := by
    have hwaiting : inbox.waiting (client.publish c data s) = inbox.waiting s ++ [data] := by
      have hon : s.channel = some c := hchannel
      simp [inbox, client, hon, Item.data?]
    exact ⟨hwaiting ▸ List.Sublist.refl _, fun _ => ⟨trivial, hwaiting⟩⟩
  keeps_publish_other c data s hchannel := by
    have hwaiting : client.publish c data s = s := if_neg hchannel
    rw [hwaiting]
    exact ⟨List.Sublist.refl _, fun _ => ⟨trivial, rfl⟩⟩
  channel_listen s item s' h := (listen_cases h).2
  yields_listen s item s' h := by
    have hwaiting : item.data?.toList ++ inbox.waiting s' = inbox.waiting s := by
      unfold inbox
      simp only [(listen_cases h).1, List.filterMap_cons]
      cases item.data? with
      | none => rfl
      | some data => rfl
    exact ⟨hwaiting ▸ List.Sublist.refl _, fun _ => ⟨trivial, hwaiting⟩⟩
  listen_none s h _ := by
    unfold client at h
    simp only at h
    split at h
    · next hunread => simp [inbox, hunread]
    · cases h
  intact_unsubscribe _ _ _ := trivial

end Subscriber

end AegisPlatform.Foundations
