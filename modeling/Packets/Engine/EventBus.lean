/-
The event bus (`routing/rtengine/events.py`): bounded queues the engine writes without blocking.

`publish` takes one step for each operation on a queue, and a reader may come between two.
`published` and `read` record what a queue was given and its readers got.
-/
import Mathlib.Algebra.GroupWithZero.Nat
import Packets.Lib.BoundedQueue

namespace Packets

namespace Engine

inductive EventName where
  | routeBest
  | routeWithdraw
  | peerState
  | fibResult
  | configChange
  | engineState
deriving DecidableEq

inductive Overflow where
  | dropOldest
  | dropNewest
deriving DecidableEq

/-- An event as a queue holds it, with its payload. -/
abbrev Event (P : Type) := EventName × P

/-- One importer's view of the events.  No event name is `ALL`, and `queue` is the place of
its queue among the channels. -/
structure Subscription where
  event : Option EventName
  queue : Nat
  overflow : Overflow
  delivered : Nat
  dropped : Nat
  active : Bool
deriving DecidableEq

def Subscription.matches (s : Subscription) (event : EventName) : Bool :=
  s.active && (s.event == some event || s.event == none)

def Subscription.countDelivered (s : Subscription) : Subscription :=
  { s with delivered := s.delivered + 1 }

def Subscription.countDropped (s : Subscription) : Subscription :=
  { s with dropped := s.dropped + 1 }

structure Channel (P : Type) where
  queue : BoundedQueue (Event P)
  published : List (Event P)
  read : List (Event P)

/-- What the delivery to one subscription does next: a first `put_nowait`, or, the queue full,
the `get_nowait` that makes room, or the second put. -/
inductive Stage where
  | put
  | evict
  | retry
deriving DecidableEq

/-- A call of `publish` under way, with the subscriptions still to be served. -/
structure Publication (P : Type) where
  item : Event P
  targets : List Nat
  stage : Stage

/-- Subscriptions stay in `subs`, and one that was removed is not active. -/
structure EventBus (P : Type) where
  channels : List (Channel P)
  subs : List Subscription
  publishing : Option (Publication P)

namespace EventBus

variable {P : Type}

def new : EventBus P := ⟨[], [], none⟩

/-- `subscribe`: into a queue already there, or into one of a size that is created.  An
unbounded queue is refused. -/
def subscribe (b : EventBus P) (event : Option EventName) (q : Option Nat) (maxsize : Nat)
    (overflow : Overflow) : EventBus P :=
  match q with
  | some q =>
    if q < b.channels.length then
      { b with subs := b.subs ++ [⟨event, q, overflow, 0, 0, true⟩] }
    else b
  | none =>
    if h : 0 < maxsize then
      { b with
        channels := b.channels ++ [⟨BoundedQueue.empty maxsize h, [], []⟩]
        subs := b.subs ++ [⟨event, b.channels.length, overflow, 0, 0, true⟩] }
    else b

/-- `unsubscribe` -/
def unsubscribe (b : EventBus P) (sub : Nat) : EventBus P :=
  { b with subs := b.subs.modify sub fun s => { s with active := false } }

/-- Whether a subscription is one of a queue. -/
def feeds (b : EventBus P) (q sub : Nat) : Bool := b.subs[sub]?.any fun s => s.queue == q

/-- The start of `publish`: the subscriptions it will serve are settled. -/
def publish (b : EventBus P) (item : Event P) : EventBus P :=
  match b.publishing with
  | some _ => b
  | none =>
    let targets := (List.range b.subs.length).filter fun i =>
      b.subs[i]?.any fun s => s.matches item.1
    { b with
      channels := b.channels.mapIdx fun q c =>
        { c with published := c.published ++ List.replicate (targets.countP (b.feeds q)) item }
      publishing := some ⟨item, targets, .put⟩ }

def setQueue (b : EventBus P) (q : Nat) (queue : BoundedQueue (Event P)) : EventBus P :=
  { b with channels := b.channels.modify q fun c => { c with queue := queue } }

def setSub (b : EventBus P) (sub : Nat) (f : Subscription → Subscription) : EventBus P :=
  { b with subs := b.subs.modify sub f }

/-- One operation of `publish` on the queue of a subscription. -/
def deliverTo (b : EventBus P) (item : Event P) (sub : Nat) (rest : List Nat) (stage : Stage)
    (s : Subscription) (c : Channel P) : EventBus P :=
  let next : Option (Publication P) := some ⟨item, rest, .put⟩
  match stage with
  | .put =>
    match c.queue.putNowait item with
    | some queue =>
      { (b.setQueue s.queue queue).setSub sub Subscription.countDelivered with
        publishing := next }
    | none =>
      match s.overflow with
      | .dropOldest => { b with publishing := some ⟨item, sub :: rest, .evict⟩ }
      | .dropNewest => { b.setSub sub Subscription.countDropped with publishing := next }
  | .evict =>
    -- an empty queue is one that was read in between
    match c.queue.getNowait with
    | some (_, queue) =>
      { b.setQueue s.queue queue with publishing := some ⟨item, sub :: rest, .retry⟩ }
    | none => { b with publishing := some ⟨item, sub :: rest, .retry⟩ }
  | .retry =>
    match c.queue.putNowait item with
    | some queue =>
      { (b.setQueue s.queue queue).setSub sub fun s => s.countDelivered.countDropped with
        publishing := next }
    | none => { b.setSub sub Subscription.countDropped with publishing := next }

/-- The next operation of the `publish` under way. -/
def deliver (b : EventBus P) : EventBus P :=
  match b.publishing with
  | none => b
  | some ⟨_, [], _⟩ => { b with publishing := none }
  | some ⟨item, sub :: rest, stage⟩ =>
    match b.subs[sub]? with
    | none => { b with publishing := some ⟨item, rest, .put⟩ }
    | some s =>
      match b.channels[s.queue]? with
      | none => { b with publishing := some ⟨item, rest, .put⟩ }
      | some c => b.deliverTo item sub rest stage s c

/-- `get`, and one turn of `drain`: a reader takes the oldest event, if there is one. -/
def get (b : EventBus P) (q : Nat) : EventBus P :=
  match b.channels[q]? with
  | none => b
  | some c =>
    match c.queue.getNowait with
    | none => b
    | some (item, queue) =>
      { b with
        channels := b.channels.modify q fun c =>
          { c with queue := queue, read := c.read ++ [item] } }

/-- What the loop and the subscribers' threads do to the bus, one operation at a time. -/
inductive Action (P : Type) where
  | subscribe (event : Option EventName) (q : Option Nat) (maxsize : Nat) (overflow : Overflow)
  | unsubscribe (sub : Nat)
  | publish (item : Event P)
  | deliver
  | get (q : Nat)

def step (b : EventBus P) : Action P → EventBus P
  | .subscribe event q maxsize overflow => b.subscribe event q maxsize overflow
  | .unsubscribe sub => b.unsubscribe sub
  | .publish item => b.publish item
  | .deliver => b.deliver
  | .get q => b.get q

def run (actions : List (Action P)) : EventBus P := actions.foldl step new

/-- The dropped counts of the subscriptions of a queue. -/
def dropped (b : EventBus P) (q : Nat) : Nat :=
  (b.subs.map fun s => if s.queue = q then s.dropped else 0).sum

/-- A drop of the oldest event finds that the queue was emptied after it was full. -/
def overtaken (b : EventBus P) (q : Nat) : Action P → Bool
  | .deliver =>
    match b.publishing with
    | some ⟨_, sub :: _, .evict⟩ =>
      b.feeds q sub && b.channels[q]?.any fun c => c.queue.items.isEmpty
    | _ => false
  | _ => false

/-- How often that happens to a queue in a run. -/
def timesOvertaken (q : Nat) : EventBus P → List (Action P) → Nat
  | _, [] => 0
  | b, action :: rest =>
    (if b.overtaken q action then 1 else 0) + timesOvertaken q (b.step action) rest

end EventBus

theorem sum_map_modify {α : Type} (g : α → Nat) (f : α → α) {l : List α} {i : Nat} {a : α}
    (h : l[i]? = some a) : ((l.modify i f).map g).sum + g a = (l.map g).sum + g (f a) := by
  induction l generalizing i with
  | nil => simp at h
  | cons b l ih =>
    cases i with
    | zero =>
      obtain rfl : b = a := by simpa using h
      simp only [List.modify_zero_cons, List.map_cons, List.sum_cons]
      omega
    | succ i =>
      have hrest := ih (by simpa using h)
      simp only [List.modify_succ_cons, List.map_cons, List.sum_cons]
      omega

theorem map_modify_of_eq {α β : Type} {g : α → β} {f : α → α} (hf : ∀ a, g (f a) = g a)
    (l : List α) (i : Nat) : (l.modify i f).map g = l.map g := by
  apply List.ext_getElem?
  intro j
  rw [List.getElem?_map, List.getElem?_map, List.getElem?_modify]
  cases l[j]? with
  | none => rfl
  | some a =>
    by_cases hij : i = j
    · simp [hij, hf]
    · simp [hij]

namespace EventBus

variable {P : Type}

/-- The deliveries to a queue that the `publish` under way has still to make. -/
def pending (b : EventBus P) (q : Nat) : List (Event P) :=
  match b.publishing with
  | none => []
  | some p => List.replicate (p.targets.countP (b.feeds q)) p.item

/-- The delivery under way is to a queue and has made room in it. -/
def retrying (b : EventBus P) (q : Nat) : Bool :=
  match b.publishing with
  | some ⟨_, sub :: _, .retry⟩ => b.feeds q sub
  | _ => false

/-- The events published to a queue are accounted for, with a number of drops counted that
were none. -/
structure Kept (b : EventBus P) (q lost : Nat) (c : Channel P) : Prop where
  order : (c.read ++ c.queue.items ++ b.pending q).Sublist c.published
  count : c.published.length + lost = c.read.length + c.queue.items.length + b.dropped q +
    (b.pending q).length + (if b.retrying q then 1 else 0)
  room : b.retrying q = true → c.queue.items.length < c.queue.maxsize

def Accounted (b : EventBus P) (q lost : Nat) : Prop :=
  match b.channels[q]? with
  | none => lost = 0
  | some c => b.Kept q lost c

/-- Every subscription has a queue, and what is under way is for subscriptions there are. -/
structure Linked (b : EventBus P) : Prop where
  queue : ∀ s ∈ b.subs, s.queue < b.channels.length
  target : ∀ p, b.publishing = some p → ∀ sub ∈ p.targets, sub < b.subs.length

theorem Accounted.kept {b : EventBus P} {q lost : Nat} {c : Channel P}
    (h : b.Accounted q lost) (hc : b.channels[q]? = some c) : b.Kept q lost c := by
  simpa [Accounted, hc] using h

theorem Kept.accounted {b : EventBus P} {q lost : Nat} {c : Channel P}
    (h : b.Kept q lost c) (hc : b.channels[q]? = some c) : b.Accounted q lost := by
  simpa [Accounted, hc] using h

/-- What does not show at a queue leaves its accounts alone. -/
theorem Accounted.congr {b b' : EventBus P} {q lost : Nat} (h : b.Accounted q lost)
    (hchannel : b'.channels[q]? = b.channels[q]?) (hdropped : b'.dropped q = b.dropped q)
    (hpending : b'.pending q = b.pending q) (hretrying : b'.retrying q = b.retrying q) :
    b'.Accounted q lost := by
  cases hc : b.channels[q]? with
  | none => simpa [Accounted, hc, hchannel] using h
  | some c =>
    have hkept := h.kept hc
    apply Kept.accounted _ (hchannel.trans hc)
    constructor
    · rw [hpending]
      exact hkept.order
    · rw [hpending, hdropped, hretrying]
      exact hkept.count
    · rw [hretrying]
      exact hkept.room

theorem feeds_of_get {b : EventBus P} {q sub : Nat} {s : Subscription}
    (h : b.subs[sub]? = some s) : b.feeds q sub = (s.queue == q) := by
  simp [feeds, h]

theorem feeds_setSub (b : EventBus P) (sub : Nat) (f : Subscription → Subscription)
    (hf : ∀ s, (f s).queue = s.queue) (q : Nat) : (b.setSub sub f).feeds q = b.feeds q := by
  funext i
  rw [feeds, feeds, setSub, List.getElem?_modify]
  cases b.subs[i]? with
  | none => rfl
  | some s =>
    by_cases hi : sub = i
    · simp [hi, hf]
    · simp [hi]

theorem feeds_countDelivered (b : EventBus P) (sub q : Nat) :
    (b.setSub sub Subscription.countDelivered).feeds q = b.feeds q := by
  apply feeds_setSub
  intro s
  rfl

theorem feeds_countDropped (b : EventBus P) (sub q : Nat) :
    (b.setSub sub Subscription.countDropped).feeds q = b.feeds q := by
  apply feeds_setSub
  intro s
  rfl

theorem feeds_countBoth (b : EventBus P) (sub q : Nat) :
    (b.setSub sub fun s => s.countDelivered.countDropped).feeds q = b.feeds q := by
  apply feeds_setSub
  intro s
  rfl

theorem dropped_setSub {b : EventBus P} {sub : Nat} {s : Subscription}
    {f : Subscription → Subscription} (h : b.subs[sub]? = some s)
    (hf : ∀ s, (f s).queue = s.queue) (q : Nat) :
    (b.setSub sub f).dropped q + (if s.queue = q then s.dropped else 0) =
      b.dropped q + (if s.queue = q then (f s).dropped else 0) := by
  have hsum := sum_map_modify (fun s : Subscription => if s.queue = q then s.dropped else 0) f h
  simp only [hf] at hsum
  exact hsum

theorem channels_setQueue (b : EventBus P) (q i : Nat) (queue : BoundedQueue (Event P)) :
    (b.setQueue q queue).channels[i]? =
      b.channels[i]?.map fun c => if q = i then { c with queue := queue } else c := by
  rw [setQueue, List.getElem?_modify]
  rfl

theorem pending_some {b : EventBus P} {p : Publication P} (h : b.publishing = some p)
    (q : Nat) : b.pending q = List.replicate (p.targets.countP (b.feeds q)) p.item := by
  rw [pending, h]

theorem retrying_of_stage {b : EventBus P} {item : Event P} {targets : List Nat} {stage : Stage}
    (h : b.publishing = some ⟨item, targets, stage⟩) (hstage : stage ≠ .retry) (q : Nat) :
    b.retrying q = false := by
  rw [retrying, h]
  cases targets with
  | nil => rfl
  | cons sub rest =>
    cases stage with
    | put => rfl
    | evict => rfl
    | retry => exact absurd rfl hstage

theorem retrying_retry {b : EventBus P} {item : Event P} {sub : Nat} {rest : List Nat}
    (h : b.publishing = some ⟨item, sub :: rest, .retry⟩) (q : Nat) :
    b.retrying q = b.feeds q sub := by
  rw [retrying, h]

section Delivery

variable {b b' : EventBus P} {item : Event P} {sub q lost : Nat} {rest : List Nat}
  {stage : Stage} {s : Subscription} {c : Channel P} {queue : BoundedQueue (Event P)}

theorem pending_head (hpub : b.publishing = some ⟨item, sub :: rest, stage⟩)
    (hfeeds : b.feeds q sub = true) :
    b.pending q = item :: List.replicate (rest.countP (b.feeds q)) item := by
  rw [pending_some hpub, List.countP_cons_of_pos hfeeds, List.replicate_succ]

theorem pending_skip (hpub : b.publishing = some ⟨item, sub :: rest, stage⟩)
    (hfeeds : b.feeds q sub = false) :
    b.pending q = List.replicate (rest.countP (b.feeds q)) item := by
  rw [pending_some hpub, List.countP_cons_of_neg (by simp [hfeeds])]

/-- The item is put and the delivery is done. -/
theorem Kept.put (h : b.Kept q lost c) (hpub : b.publishing = some ⟨item, sub :: rest, .put⟩)
    (hfeeds : b.feeds q sub = true) (hput : c.queue.putNowait item = some queue)
    (hpub' : b'.publishing = some ⟨item, rest, .put⟩) (hfeeds' : b'.feeds q = b.feeds q)
    (hdropped : b'.dropped q = b.dropped q) : b'.Kept q lost { c with queue := queue } := by
  have hitems := BoundedQueue.items_of_putNowait hput
  have hretry := retrying_of_stage hpub (by decide) q
  have hretry' := retrying_of_stage hpub' (by decide) q
  have hpending := pending_head hpub hfeeds
  have hpending' := pending_some hpub' q
  obtain ⟨horder, hcount, -⟩ := h
  rw [hpending] at horder hcount
  constructor
  · simpa [hitems, hpending', hfeeds'] using horder
  · simp only [hretry, hretry', hpending', hfeeds', hitems, hdropped, List.length_cons,
      List.length_append, List.length_nil, List.length_replicate] at hcount ⊢
    omega
  · simp [hretry']

/-- The item is dropped and the delivery is done. -/
theorem Kept.dropNewest (h : b.Kept q lost c)
    (hpub : b.publishing = some ⟨item, sub :: rest, .put⟩) (hfeeds : b.feeds q sub = true)
    (hpub' : b'.publishing = some ⟨item, rest, .put⟩) (hfeeds' : b'.feeds q = b.feeds q)
    (hdropped : b'.dropped q = b.dropped q + 1) : b'.Kept q lost c := by
  have hretry := retrying_of_stage hpub (by decide) q
  have hretry' := retrying_of_stage hpub' (by decide) q
  have hpending := pending_head hpub hfeeds
  have hpending' := pending_some hpub' q
  obtain ⟨horder, hcount, -⟩ := h
  rw [hpending] at horder hcount
  constructor
  · rw [hpending', hfeeds']
    exact ((List.sublist_cons_self _ _).append_left _).trans horder
  · simp only [hretry, hretry', hpending', hfeeds', hdropped, List.length_cons,
      List.length_replicate] at hcount ⊢
    omega
  · simp [hretry']

/-- The queue is full, and room is to be made in it. -/
theorem Kept.full (h : b.Kept q lost c) (hpub : b.publishing = some ⟨item, sub :: rest, .put⟩)
    (hpub' : b'.publishing = some ⟨item, sub :: rest, .evict⟩) (hfeeds' : b'.feeds q = b.feeds q)
    (hdropped : b'.dropped q = b.dropped q) : b'.Kept q lost c := by
  have hretry := retrying_of_stage hpub (by decide) q
  have hretry' := retrying_of_stage hpub' (by decide) q
  have hpending' : b'.pending q = b.pending q := by
    rw [pending_some hpub', pending_some hpub, hfeeds']
  obtain ⟨horder, hcount, -⟩ := h
  constructor
  · rw [hpending']
    exact horder
  · rw [hpending', hdropped, hretry']
    rw [hretry] at hcount
    exact hcount
  · simp [hretry']

/-- The oldest event is taken to make room. -/
theorem Kept.evict {old : Event P} (h : b.Kept q lost c)
    (hpub : b.publishing = some ⟨item, sub :: rest, .evict⟩) (hfeeds : b.feeds q sub = true)
    (hget : c.queue.getNowait = some (old, queue))
    (hpub' : b'.publishing = some ⟨item, sub :: rest, .retry⟩) (hfeeds' : b'.feeds q = b.feeds q)
    (hdropped : b'.dropped q = b.dropped q) : b'.Kept q lost { c with queue := queue } := by
  have hitems := BoundedQueue.items_of_getNowait hget
  have hretry := retrying_of_stage hpub (by decide) q
  have hretry' : b'.retrying q = true := by rw [retrying_retry hpub', hfeeds', hfeeds]
  have hpending' : b'.pending q = b.pending q := by
    rw [pending_some hpub', pending_some hpub, hfeeds']
  obtain ⟨horder, hcount, -⟩ := h
  constructor
  · rw [hpending']
    rw [hitems] at horder
    exact ((((List.sublist_cons_self _ _).append_left _).append_right _)).trans horder
  · simp only [hretry, hretry', hpending', hdropped, hitems, List.length_cons, ↓reduceIte, Bool.false_eq_true]
      at hcount ⊢
    omega
  · intro _
    exact BoundedQueue.lt_of_getNowait hget

/-- There is no event to take: the drop to come is counted for nothing. -/
theorem Kept.overtaken (h : b.Kept q lost c)
    (hpub : b.publishing = some ⟨item, sub :: rest, .evict⟩) (hfeeds : b.feeds q sub = true)
    (hget : c.queue.getNowait = none) (hpub' : b'.publishing = some ⟨item, sub :: rest, .retry⟩)
    (hfeeds' : b'.feeds q = b.feeds q) (hdropped : b'.dropped q = b.dropped q) :
    b'.Kept q (lost + 1) c := by
  have hitems := BoundedQueue.getNowait_eq_none_iff.mp hget
  have hretry := retrying_of_stage hpub (by decide) q
  have hretry' : b'.retrying q = true := by rw [retrying_retry hpub', hfeeds', hfeeds]
  have hpending' : b'.pending q = b.pending q := by
    rw [pending_some hpub', pending_some hpub, hfeeds']
  obtain ⟨horder, hcount, -⟩ := h
  constructor
  · rw [hpending']
    exact horder
  · simp only [hretry, hretry', hpending', hdropped, ↓reduceIte, Bool.false_eq_true] at hcount ⊢
    omega
  · intro _
    rw [hitems]
    exact c.queue.maxsize_pos

/-- The item is put in the room made for it, and a drop is counted. -/
theorem Kept.retry (h : b.Kept q lost c) (hpub : b.publishing = some ⟨item, sub :: rest, .retry⟩)
    (hfeeds : b.feeds q sub = true) (hput : c.queue.putNowait item = some queue)
    (hpub' : b'.publishing = some ⟨item, rest, .put⟩) (hfeeds' : b'.feeds q = b.feeds q)
    (hdropped : b'.dropped q = b.dropped q + 1) : b'.Kept q lost { c with queue := queue } := by
  have hitems := BoundedQueue.items_of_putNowait hput
  have hretry : b.retrying q = true := by rw [retrying_retry hpub, hfeeds]
  have hretry' := retrying_of_stage hpub' (by decide) q
  have hpending := pending_head hpub hfeeds
  have hpending' := pending_some hpub' q
  obtain ⟨horder, hcount, -⟩ := h
  rw [hpending] at horder hcount
  constructor
  · simpa [hitems, hpending', hfeeds'] using horder
  · simp only [hretry, hretry', hpending', hfeeds', hitems, hdropped, List.length_cons,
      List.length_append, List.length_nil, List.length_replicate, ↓reduceIte,
      Bool.false_eq_true] at hcount ⊢
    omega
  · simp [hretry']

/-- A reader takes the oldest event. -/
theorem Kept.get (h : b.Kept q lost c) (hget : c.queue.getNowait = some (item, queue))
    (hpending : b'.pending q = b.pending q) (hretrying : b'.retrying q = b.retrying q)
    (hdropped : b'.dropped q = b.dropped q) :
    b'.Kept q lost { c with queue := queue, read := c.read ++ [item] } := by
  have hitems := BoundedQueue.items_of_getNowait hget
  have hheld : c.read ++ [item] ++ queue.items = c.read ++ c.queue.items := by simp [hitems]
  have hlength := congrArg List.length hheld
  simp only [List.length_append] at hlength
  obtain ⟨horder, hcount, -⟩ := h
  constructor
  · rw [hpending, hheld]
    exact horder
  · rw [hpending, hretrying, hdropped, List.length_append, hlength]
    exact hcount
  · intro _
    exact BoundedQueue.lt_of_getNowait hget

/-- Events are published to a queue by the deliveries that become owed to it. -/
theorem Kept.publish (h : b.Kept q lost c) (hpub : b.publishing = none)
    (hpub' : b'.publishing = some ⟨item, rest, .put⟩) (hfeeds' : b'.feeds q = b.feeds q)
    (hdropped : b'.dropped q = b.dropped q) :
    b'.Kept q lost { c with
      published := c.published ++ List.replicate (rest.countP (b.feeds q)) item } := by
  have hpending : b.pending q = [] := by rw [pending, hpub]
  have hretry : b.retrying q = false := by rw [retrying, hpub]
  have hpending' := pending_some hpub' q
  have hretry' := retrying_of_stage hpub' (by decide) q
  obtain ⟨horder, hcount, -⟩ := h
  rw [hpending, List.append_nil] at horder
  constructor
  · rw [hpending', hfeeds']
    exact horder.append (List.Sublist.refl _)
  · simp only [hpending, hretry, hpending', hretry', hfeeds', hdropped, List.length_append,
      List.length_nil, List.length_replicate] at hcount ⊢
    omega
  · simp [hretry']

/-- A delivery to another queue. -/
theorem Accounted.other (h : b.Accounted q lost)
    (hpub : b.publishing = some ⟨item, sub :: rest, stage⟩) (hnot : b.feeds q sub = false)
    (hpub' : b'.publishing = some ⟨item, rest, .put⟩ ∨
      ∃ stage', b'.publishing = some ⟨item, sub :: rest, stage'⟩)
    (hchannel : b'.channels[q]? = b.channels[q]?) (hfeeds' : b'.feeds q = b.feeds q)
    (hdropped : b'.dropped q = b.dropped q) : b'.Accounted q lost := by
  have hretry : b.retrying q = false := by
    cases stage with
    | put => exact retrying_of_stage hpub (by decide) q
    | evict => exact retrying_of_stage hpub (by decide) q
    | retry => rw [retrying_retry hpub, hnot]
  apply h.congr hchannel hdropped
  · rw [pending_skip hpub hnot]
    rcases hpub' with hpub' | ⟨stage', hpub'⟩
    · rw [pending_some hpub', hfeeds']
    · rw [pending_skip hpub' (by rw [hfeeds', hnot]), hfeeds']
  · rw [hretry]
    rcases hpub' with hpub' | ⟨stage', hpub'⟩
    · exact retrying_of_stage hpub' (by decide) q
    · cases stage' with
      | put => exact retrying_of_stage hpub' (by decide) q
      | evict => exact retrying_of_stage hpub' (by decide) q
      | retry => rw [retrying_retry hpub', hfeeds', hnot]

theorem dropped_countDropped (hs : b.subs[sub]? = some s) {f : Subscription → Subscription}
    (hf : ∀ s, (f s).queue = s.queue ∧ (f s).dropped = s.dropped + 1) (q : Nat) :
    (b.setSub sub f).dropped q = b.dropped q + if s.queue = q then 1 else 0 := by
  have hsum := dropped_setSub hs (fun s => (hf s).1) q
  rw [(hf s).2] at hsum
  split at hsum <;> simp_all
  omega

theorem dropped_countDelivered (hs : b.subs[sub]? = some s) (q : Nat) :
    (b.setSub sub Subscription.countDelivered).dropped q = b.dropped q := by
  have hsum := dropped_setSub (f := Subscription.countDelivered) hs (fun _ => rfl) q
  exact Nat.add_right_cancel hsum

theorem deliverTo_other (h : b.Accounted q lost)
    (hpub : b.publishing = some ⟨item, sub :: rest, stage⟩) (hs : b.subs[sub]? = some s)
    (hother : s.queue ≠ q) (c : Channel P) :
    (b.deliverTo item sub rest stage s c).Accounted q lost := by
  have hnot : b.feeds q sub = false := by
    rw [feeds_of_get hs]
    simpa using hother
  have hset (queue : BoundedQueue (Event P)) :
      (b.setQueue s.queue queue).channels[q]? = b.channels[q]? := by
    rw [channels_setQueue]
    simp [hother]
  have hcounted {f : Subscription → Subscription}
      (hf : ∀ s, (f s).queue = s.queue ∧ (f s).dropped = s.dropped + 1) :
      (b.setSub sub f).dropped q = b.dropped q := by
    rw [dropped_countDropped hs hf, if_neg hother, Nat.add_zero]
  have hdelivered := feeds_countDelivered b sub q
  have hdrops := feeds_countDropped b sub q
  have hboth := feeds_countBoth b sub q
  cases stage with
  | put =>
    rw [deliverTo]
    split
    · exact h.other hpub hnot (Or.inl rfl) (hset _) hdelivered (dropped_countDelivered hs q)
    · split
      · exact h.other hpub hnot (Or.inr ⟨_, rfl⟩) rfl rfl rfl
      · exact h.other hpub hnot (Or.inl rfl) rfl hdrops (hcounted fun _ => ⟨rfl, rfl⟩)
  | evict =>
    rw [deliverTo]
    split
    · exact h.other hpub hnot (Or.inr ⟨_, rfl⟩) (hset _) rfl rfl
    · exact h.other hpub hnot (Or.inr ⟨_, rfl⟩) rfl rfl rfl
  | retry =>
    rw [deliverTo]
    split
    · exact h.other hpub hnot (Or.inl rfl) (hset _) hboth (hcounted fun _ => ⟨rfl, rfl⟩)
    · exact h.other hpub hnot (Or.inl rfl) rfl hdrops (hcounted fun _ => ⟨rfl, rfl⟩)

/-- A delivery to the queue whose accounts are kept. -/
theorem deliverTo_own (h : b.Accounted q lost)
    (hpub : b.publishing = some ⟨item, sub :: rest, stage⟩) (hs : b.subs[sub]? = some s)
    (hown : s.queue = q) (hc : b.channels[q]? = some c) :
    (b.deliverTo item sub rest stage s c).Accounted q
      (lost + if stage = .evict ∧ c.queue.items = [] then 1 else 0) := by
  have hkept := h.kept hc
  have hfeeds : b.feeds q sub = true := by
    rw [feeds_of_get hs]
    simpa using hown
  have hset (queue : BoundedQueue (Event P)) :
      (b.setQueue s.queue queue).channels[q]? = some { c with queue := queue } := by
    rw [channels_setQueue, hc]
    simp [hown]
  have hcounted {f : Subscription → Subscription}
      (hf : ∀ s, (f s).queue = s.queue ∧ (f s).dropped = s.dropped + 1) :
      (b.setSub sub f).dropped q = b.dropped q + 1 := by
    rw [dropped_countDropped hs hf, if_pos hown]
  have hdelivered := feeds_countDelivered b sub q
  have hdrops := feeds_countDropped b sub q
  have hboth := feeds_countBoth b sub q
  cases stage with
  | put =>
    rw [if_neg (by simp), Nat.add_zero, deliverTo]
    split
    · next queue hput =>
        apply Kept.accounted (c := { c with queue := queue })
        · exact hkept.put hpub hfeeds hput rfl hdelivered (dropped_countDelivered hs q)
        · exact hset queue
    · split
      · apply Kept.accounted (c := c)
        · exact hkept.full hpub rfl rfl rfl
        · exact hc
      · apply Kept.accounted (c := c)
        · exact hkept.dropNewest hpub hfeeds rfl hdrops (hcounted fun _ => ⟨rfl, rfl⟩)
        · exact hc
  | evict =>
    rw [deliverTo]
    split
    · next old queue hget =>
        have hitems := BoundedQueue.items_of_getNowait hget
        rw [if_neg (by simp [hitems]), Nat.add_zero]
        apply Kept.accounted (c := { c with queue := queue })
        · exact hkept.evict hpub hfeeds hget rfl rfl rfl
        · exact hset queue
    · next hget =>
        rw [if_pos ⟨rfl, BoundedQueue.getNowait_eq_none_iff.mp hget⟩]
        apply Kept.accounted (c := c)
        · exact hkept.overtaken hpub hfeeds hget rfl rfl rfl
        · exact hc
  | retry =>
    rw [if_neg (by simp), Nat.add_zero, deliverTo]
    split
    · next queue hput =>
        apply Kept.accounted (c := { c with queue := queue })
        · exact hkept.retry hpub hfeeds hput rfl hboth (hcounted fun _ => ⟨rfl, rfl⟩)
        · exact hset queue
    · next hput =>
        have hfull := BoundedQueue.putNowait_eq_none_iff.mp hput
        have hroom := hkept.room (by rw [retrying_retry hpub, hfeeds])
        omega

end Delivery

theorem deliver_accounted {b : EventBus P} {q lost : Nat} (h : b.Accounted q lost) :
    b.deliver.Accounted q (lost + if b.overtaken q .deliver then 1 else 0) := by
  cases hpub : b.publishing with
  | none => simpa [deliver, overtaken, hpub] using h
  | some p =>
    obtain ⟨item, targets, stage⟩ := p
    cases targets with
    | nil =>
      have hdone : ({ b with publishing := none } : EventBus P).Accounted q lost := by
        apply h.congr
        · rfl
        · rfl
        · simp [pending, hpub]
        · simp [retrying, hpub]
      simpa [deliver, overtaken, hpub] using hdone
    | cons sub rest =>
      have hskip (hnot : b.feeds q sub = false) :
          ({ b with publishing := some ⟨item, rest, .put⟩ } : EventBus P).Accounted q
            lost := by
        apply h.other hpub hnot
        · exact Or.inl rfl
        · rfl
        · rfl
        · rfl
      have hnever (hnot : b.feeds q sub = false) : b.overtaken q .deliver = false := by
        cases stage <;> simp [overtaken, hpub, hnot]
      cases hs : b.subs[sub]? with
      | none =>
        have hnot : b.feeds q sub = false := by simp [feeds, hs]
        simpa [deliver, hpub, hs, hnever hnot] using hskip hnot
      | some s =>
        by_cases hown : s.queue = q
        · cases hc : b.channels[q]? with
          | none =>
            subst hown
            have hlost : lost = 0 := by simpa [Accounted, hc] using h
            have hnever : b.overtaken s.queue .deliver = false := by
              cases stage <;> simp [overtaken, hpub, hc]
            simp [deliver, hpub, hs, hc, hnever, Accounted, hlost]
          | some c =>
            have hfeeds : b.feeds q sub = true := by simp [feeds, hs, hown]
            have htimes : (b.overtaken q .deliver = true) =
                (stage = .evict ∧ c.queue.items = []) := by
              cases stage <;> simp [overtaken, hpub, hc, hfeeds]
            have hstep := deliverTo_own h hpub hs hown hc
            simpa [deliver, hpub, hs, hown, hc, htimes] using hstep
        · have hnot : b.feeds q sub = false := by simp [feeds, hs, hown]
          cases hc : b.channels[s.queue]? with
          | none => simpa [deliver, hpub, hs, hc, hnever hnot] using hskip hnot
          | some c =>
            have hstep := deliverTo_other h hpub hs hown c
            simpa [deliver, hpub, hs, hc, hnever hnot] using hstep

theorem get_accounted {b : EventBus P} {q lost : Nat} (h : b.Accounted q lost) (i : Nat) :
    (b.get i).Accounted q lost := by
  rw [get]
  split
  · exact h
  · next c hc =>
      split
      · exact h
      · next item queue hget =>
          by_cases hi : i = q
          · subst hi
            apply Kept.accounted (c := { c with queue := queue, read := c.read ++ [item] })
            · exact (h.kept hc).get hget rfl rfl rfl
            · simp [hc]
          · apply h.congr
            · simp [hi]
            · rfl
            · rfl
            · rfl

theorem publish_accounted {b : EventBus P} {q lost : Nat} (h : b.Accounted q lost)
    (item : Event P) : (b.publish item).Accounted q lost := by
  cases hpub : b.publishing with
  | some p => simpa [publish, hpub] using h
  | none =>
    rw [publish, hpub]
    generalize (List.range b.subs.length).filter
      (fun i => b.subs[i]?.any fun s => s.matches item.1) = targets
    cases hc : b.channels[q]? with
    | none =>
      have hlost : lost = 0 := by simpa [Accounted, hc] using h
      simp [Accounted, hc, hlost]
    | some c =>
      apply Kept.accounted (c := { c with
        published := c.published ++ List.replicate (targets.countP (b.feeds q)) item })
      · exact (h.kept hc).publish hpub rfl rfl rfl
      · simp [hc]

theorem unsubscribe_accounted {b : EventBus P} {q lost : Nat} (h : b.Accounted q lost)
    (sub : Nat) : (b.unsubscribe sub).Accounted q lost := by
  have hfeeds : (b.unsubscribe sub).feeds q = b.feeds q := by
    apply feeds_setSub
    intro s
    rfl
  apply h.congr
  · rfl
  · apply congrArg List.sum
    apply map_modify_of_eq
    intro s
    rfl
  · rw [pending, pending, hfeeds]
    rfl
  · rw [retrying, retrying, hfeeds]
    rfl

/-- One more subscription, which nothing under way is for. -/
theorem subscribe_congr {b b' : EventBus P} {s : Subscription} (hl : b.Linked) (q : Nat)
    (hsubs : b'.subs = b.subs ++ [s]) (hnew : s.dropped = 0) (hpub : b'.publishing = b.publishing) :
    b'.dropped q = b.dropped q ∧ b'.pending q = b.pending q ∧ b'.retrying q = b.retrying q := by
  have hfeeds : ∀ sub < b.subs.length, b'.feeds q sub = b.feeds q sub := by
    intro sub hsub
    rw [feeds, feeds, hsubs, List.getElem?_append_left hsub]
  refine ⟨?_, ?_, ?_⟩
  · rw [dropped, dropped, hsubs]
    simp [hnew]
  · rw [pending, pending, hpub]
    cases hp : b.publishing with
    | none => rfl
    | some p =>
      have hcount : p.targets.countP (b'.feeds q) = p.targets.countP (b.feeds q) := by
        apply List.countP_congr
        intro sub hsub
        rw [hfeeds sub (hl.target p hp sub hsub)]
      simp only [hcount]
  · rw [retrying, retrying, hpub]
    split
    · next item sub rest hp => exact hfeeds sub (hl.target _ hp sub List.mem_cons_self)
    · rfl

/-- Nothing is owed to a queue that is not there yet. -/
theorem nothing_owed {b : EventBus P} {q : Nat} (hl : b.Linked) (hq : b.channels.length ≤ q) :
    b.dropped q = 0 ∧ b.pending q = [] ∧ b.retrying q = false := by
  have hqueue : ∀ s ∈ b.subs, ¬s.queue = q := fun s hs =>
    Nat.ne_of_lt (Nat.lt_of_lt_of_le (hl.queue s hs) hq)
  have hfeeds : ∀ sub, b.feeds q sub = false := by
    intro sub
    cases hs : b.subs[sub]? with
    | none => simp [feeds, hs]
    | some s => simpa [feeds, hs] using hqueue s (List.mem_of_getElem? hs)
  refine ⟨?_, ?_, ?_⟩
  · have hzero : b.subs.map (fun s => if s.queue = q then s.dropped else 0) =
        b.subs.map fun _ => 0 := List.map_congr_left fun s hs => if_neg (hqueue s hs)
    rw [dropped, hzero]
    simp
  · rw [pending]
    split
    · rfl
    · rw [List.countP_eq_zero.mpr (by simp [hfeeds]), List.replicate_zero]
  · rw [retrying]
    split
    · exact hfeeds _
    · rfl

theorem subscribe_accounted {b : EventBus P} {q lost : Nat} (h : b.Accounted q lost)
    (hl : b.Linked) (event : Option EventName) (i : Option Nat) (maxsize : Nat)
    (overflow : Overflow) : (b.subscribe event i maxsize overflow).Accounted q lost := by
  generalize hb : b.subscribe event i maxsize overflow = b'
  cases i with
  | some i =>
    by_cases hi : i < b.channels.length
    · rw [subscribe, if_pos hi] at hb
      have hsubs : b'.subs = b.subs ++ [⟨event, i, overflow, 0, 0, true⟩] := by rw [← hb]
      have hpub : b'.publishing = b.publishing := by rw [← hb]
      obtain ⟨hdropped, hpending, hretrying⟩ := subscribe_congr hl q hsubs rfl hpub
      apply h.congr _ hdropped hpending hretrying
      rw [← hb]
    · rw [subscribe, if_neg hi] at hb
      exact hb ▸ h
  | none =>
    by_cases hsize : 0 < maxsize
    · rw [subscribe, dif_pos hsize] at hb
      have hchannels : b'.channels =
          b.channels ++ [⟨BoundedQueue.empty maxsize hsize, [], []⟩] := by rw [← hb]
      have hsubs : b'.subs = b.subs ++ [⟨event, b.channels.length, overflow, 0, 0, true⟩] := by
        rw [← hb]
      have hpub : b'.publishing = b.publishing := by rw [← hb]
      obtain ⟨hdropped, hpending, hretrying⟩ := subscribe_congr hl q hsubs rfl hpub
      by_cases hq : q = b.channels.length
      · obtain ⟨hdropped', hpending', hretrying'⟩ := nothing_owed hl (Nat.le_of_eq hq.symm)
        have hlost : lost = 0 := by simpa [Accounted, hq] using h
        apply Kept.accounted (c := ⟨BoundedQueue.empty maxsize hsize, [], []⟩)
        · constructor
          · rw [hpending, hpending']
            exact List.Sublist.slnil
          · rw [hpending, hpending', hdropped, hdropped', hretrying, hretrying', hlost]
            rfl
          · intro _
            exact hsize
        · rw [hchannels, hq, List.getElem?_concat_length]
      · apply h.congr _ hdropped hpending hretrying
        rw [hchannels]
        by_cases hlt : q < b.channels.length
        · rw [List.getElem?_append_left hlt]
        · rw [List.getElem?_eq_none (by simp; omega), List.getElem?_eq_none (by omega)]
    · rw [subscribe, dif_neg hsize] at hb
      exact hb ▸ h

theorem publishing_deliverTo (b : EventBus P) (item : Event P) (sub : Nat) (rest : List Nat)
    (stage : Stage) (s : Subscription) (c : Channel P) :
    ∃ targets stage', (b.deliverTo item sub rest stage s c).publishing =
      some ⟨item, targets, stage'⟩ ∧ ∀ i ∈ targets, i ∈ sub :: rest := by
  have hrest : ∀ i ∈ rest, i ∈ sub :: rest := fun _ hi => List.mem_cons_of_mem _ hi
  have hall : ∀ i ∈ sub :: rest, i ∈ sub :: rest := fun _ hi => hi
  cases stage with
  | put =>
    rw [deliverTo]
    split
    · exact ⟨_, _, rfl, hrest⟩
    · split
      · exact ⟨_, _, rfl, hall⟩
      · exact ⟨_, _, rfl, hrest⟩
  | evict =>
    rw [deliverTo]
    split
    · exact ⟨_, _, rfl, hall⟩
    · exact ⟨_, _, rfl, hall⟩
  | retry =>
    rw [deliverTo]
    split
    · exact ⟨_, _, rfl, hrest⟩
    · exact ⟨_, _, rfl, hrest⟩

theorem Linked.same {b b' : EventBus P} (h : b.Linked)
    (hlength : b'.channels.length = b.channels.length)
    (hsubs : b'.subs.map Subscription.queue = b.subs.map Subscription.queue)
    (htarget : ∀ p', b'.publishing = some p' → ∀ i ∈ p'.targets, i < b.subs.length) :
    b'.Linked := by
  constructor
  · intro s hs
    have hmem := List.mem_map_of_mem (f := Subscription.queue) hs
    rw [hsubs] at hmem
    obtain ⟨s', hs', heq⟩ := List.mem_map.mp hmem
    rw [hlength, ← heq]
    exact h.queue s' hs'
  · have hcount := congrArg List.length hsubs
    rw [List.length_map, List.length_map] at hcount
    rw [hcount]
    exact htarget

theorem subs_deliverTo (b : EventBus P) (item : Event P) (sub : Nat) (rest : List Nat)
    (stage : Stage) (s : Subscription) (c : Channel P) :
    (b.deliverTo item sub rest stage s c).subs.map Subscription.queue =
      b.subs.map Subscription.queue := by
  have hset (f : Subscription → Subscription) (hf : ∀ s, (f s).queue = s.queue) :
      (b.setSub sub f).subs.map Subscription.queue = b.subs.map Subscription.queue :=
    map_modify_of_eq hf b.subs sub
  cases stage with
  | put =>
    rw [deliverTo]
    split
    · exact hset Subscription.countDelivered fun _ => rfl
    · split
      · rfl
      · exact hset Subscription.countDropped fun _ => rfl
  | evict =>
    rw [deliverTo]
    split <;> rfl
  | retry =>
    rw [deliverTo]
    split
    · exact hset (fun s => s.countDelivered.countDropped) fun _ => rfl
    · exact hset Subscription.countDropped fun _ => rfl

theorem length_deliverTo (b : EventBus P) (item : Event P) (sub : Nat) (rest : List Nat)
    (stage : Stage) (s : Subscription) (c : Channel P) :
    (b.deliverTo item sub rest stage s c).channels.length = b.channels.length := by
  have hset (queue : BoundedQueue (Event P)) :
      (b.setQueue s.queue queue).channels.length = b.channels.length := List.length_modify _ _ _
  cases stage with
  | put =>
    rw [deliverTo]
    split
    · exact hset _
    · split <;> rfl
  | evict =>
    rw [deliverTo]
    split
    · exact hset _
    · rfl
  | retry =>
    rw [deliverTo]
    split
    · exact hset _
    · rfl

theorem deliver_linked {b : EventBus P} (h : b.Linked) : b.deliver.Linked := by
  cases hpub : b.publishing with
  | none => simpa [deliver, hpub] using h
  | some p =>
    obtain ⟨item, targets, stage⟩ := p
    have hall := h.target _ hpub
    cases targets with
    | nil =>
      rw [deliver, hpub]
      apply h.same
      · rfl
      · rfl
      · exact fun _ hp' => nomatch hp'
    | cons sub rest =>
      have hskip : ({ b with publishing := some ⟨item, rest, .put⟩ } : EventBus P).Linked := by
        apply h.same
        · rfl
        · rfl
        · rintro p' ⟨⟩ i hi
          exact hall i (List.mem_cons_of_mem _ hi)
      rw [deliver, hpub]
      dsimp only
      split
      · exact hskip
      · next s _ =>
          split
          · exact hskip
          · next c _ =>
              apply h.same (length_deliverTo b item sub rest stage s c)
                (subs_deliverTo b item sub rest stage s c)
              intro p' hp' i hi
              obtain ⟨targets, stage', hpub', htargets⟩ :=
                publishing_deliverTo b item sub rest stage s c
              rw [hpub'] at hp'
              cases hp'
              exact hall i (htargets i hi)

theorem subscribe_linked {b : EventBus P} (h : b.Linked) (event : Option EventName)
    (i : Option Nat) (maxsize : Nat) (overflow : Overflow) :
    (b.subscribe event i maxsize overflow).Linked := by
  have hlater (n : Nat) (p : Publication P) (hp : b.publishing = some p) (sub : Nat)
      (hsub : sub ∈ p.targets) : sub < b.subs.length + n :=
    Nat.lt_of_lt_of_le (h.target p hp sub hsub) (Nat.le_add_right _ _)
  cases i with
  | some i =>
    rw [subscribe]
    split
    · next hi =>
        constructor
        · intro s hs
          rcases List.mem_append.mp hs with hold | hnew
          · exact h.queue s hold
          · rw [List.mem_singleton.mp hnew]
            exact hi
        · simpa using hlater 1
    · exact h
  | none =>
    rw [subscribe]
    split
    · constructor
      · intro s hs
        rw [List.length_append]
        rcases List.mem_append.mp hs with hold | hnew
        · exact Nat.lt_of_lt_of_le (h.queue s hold) (Nat.le_add_right _ _)
        · rw [List.mem_singleton.mp hnew]
          exact Nat.lt_succ_self _
      · simpa using hlater 1
    · exact h

theorem step_linked {b : EventBus P} (h : b.Linked) (action : Action P) :
    (b.step action).Linked := by
  cases action with
  | subscribe event i maxsize overflow => exact subscribe_linked h event i maxsize overflow
  | unsubscribe sub =>
    apply h.same
    · rfl
    · apply map_modify_of_eq
      intro s
      rfl
    · exact h.target
  | publish item =>
    rw [step, publish]
    split
    · exact h
    · apply h.same
      · exact List.length_mapIdx
      · rfl
      · rintro p' ⟨⟩ i hi
        exact List.mem_range.mp (List.mem_filter.mp hi).1
  | deliver => exact deliver_linked h
  | get q =>
    rw [step, get]
    split
    · exact h
    · split
      · exact h
      · apply h.same
        · exact List.length_modify _ _ _
        · rfl
        · exact h.target

theorem new_linked : (new : EventBus P).Linked :=
  ⟨fun _ hs => absurd hs List.not_mem_nil, fun _ hp => nomatch hp⟩

theorem step_accounted {b : EventBus P} {q lost : Nat} (h : b.Accounted q lost) (hl : b.Linked)
    (action : Action P) :
    (b.step action).Accounted q (lost + if b.overtaken q action then 1 else 0) := by
  cases action with
  | subscribe event i maxsize overflow => exact subscribe_accounted h hl event i maxsize overflow
  | unsubscribe sub => exact unsubscribe_accounted h sub
  | publish item => exact publish_accounted h item
  | deliver => exact deliver_accounted h
  | get i => exact get_accounted h i

theorem foldl_accounted {q lost : Nat} (actions : List (Action P)) {b : EventBus P}
    (h : b.Accounted q lost) (hl : b.Linked) :
    (actions.foldl step b).Accounted q (lost + timesOvertaken q b actions) := by
  induction actions generalizing b lost with
  | nil => exact h
  | cons action rest ih =>
    have hrest := ih (step_accounted h hl action) (step_linked hl action)
    rw [timesOvertaken, ← Nat.add_assoc]
    exact hrest

theorem run_accounted (actions : List (Action P)) (q : Nat) :
    (run actions).Accounted q (timesOvertaken q new actions) := by
  have hnew : (new : EventBus P).Accounted q 0 := by simp [Accounted, new]
  have hrun := foldl_accounted actions hnew new_linked
  rw [Nat.zero_add] at hrun
  exact hrun

/-- In every state of every run a queue is within its bound, and what was read and is queued was
published to it, in that order.  When `publish` has returned, the counts agree exactly when no
drop of the oldest event found the queue emptied. -/
theorem accounts_iff (actions : List (Action P)) (q : Nat) (c : Channel P)
    (hc : (run actions).channels[q]? = some c) :
    c.queue.items.length ≤ c.queue.maxsize ∧ (c.read ++ c.queue.items).Sublist c.published ∧
      ((run actions).publishing = none →
        (c.published.length = c.read.length + c.queue.items.length + (run actions).dropped q ↔
          timesOvertaken q new actions = 0)) := by
  obtain ⟨horder, hcount, -⟩ := (run_accounted actions q).kept hc
  refine ⟨c.queue.bounded, ?_, ?_⟩
  · exact (List.sublist_append_left _ _).trans horder
  · intro hidle
    have hpending : (run actions).pending q = [] := by rw [pending, hidle]
    have hretrying : (run actions).retrying q = false := by rw [retrying, hidle]
    simp only [hpending, hretrying, List.length_nil, Bool.false_eq_true, ↓reduceIte] at hcount
    constructor
    · intro hexact
      omega
    · intro hnever
      omega

/-- A queue of one event that is read while its second event waits for room. -/
def readBetween : List (Action Nat) :=
  [.subscribe none none 1 .dropOldest, .publish (.peerState, 1), .deliver, .deliver,
    .publish (.peerState, 2), .deliver, .get 0, .deliver, .deliver, .deliver]

theorem accounts_iff_readBetween :
    ((run readBetween).channels[0]?.map fun c => (c.read.length, c.queue.items.length)) =
        some (1, 1) ∧
      (run readBetween).dropped 0 = 1 ∧ timesOvertaken 0 new readBetween = 1 ∧
      ∃ c, (run readBetween).channels[0]? = some c ∧
        (c.read ++ c.queue.items).Sublist c.published :=
  ⟨by decide, by decide, by decide, _, rfl, (accounts_iff readBetween 0 _ rfl).2.1⟩

/-- Both events were received, and one is counted as dropped. -/
theorem not_accounts_exact :
    ¬∀ (actions : List (Action Nat)) (q : Nat) (c : Channel Nat),
      (run actions).channels[q]? = some c → (run actions).publishing = none →
        c.published.length = c.read.length + c.queue.items.length + (run actions).dropped q := by
  intro h
  have hexact := h readBetween 0 _ rfl rfl
  revert hexact
  decide

end EventBus

end Engine

end Packets
