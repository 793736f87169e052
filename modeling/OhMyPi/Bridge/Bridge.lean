import OhMyPi.Dom.WireSnapshot

/-! The replay bridge of an attached session (`driver/src/session_bridge.rs`). It keeps a replica of
the session's tree, the events that led to it as far back as a ring holds them, and for each
subscriber a queue of what it has not been sent yet. -/

namespace OhMyPi

theorem Dom.Live.applyEvent {dom dom' : Dom} (h : dom.Live) {event : Event}
    (hevent : dom.applyEvent event = .ok dom') : dom'.Live := by
  obtain ⟨op, -, rfl⟩ := Dom.applyEvent_eq_ok hevent
  exact h.perform op

namespace Bridge

/-- `saturating_add` on `u64` and `usize`. -/
def saturatingAdd (a b : Nat) : Nat := min (a + b) 18446744073709551615

/-- `BridgeLimits`. -/
structure Limits where
  replayEvents : Nat
  replayBytes : Nat
  subscriberBytes : Nat

/-- Sequence zero names the state before the first event. -/
abbrev Seq := Nat

def Seq.next (seq : Seq) : Seq := saturatingAdd seq 1

/-- A resume position: the session, the bridge start and the last sequence observed. -/
structure Cursor where
  session : String
  epoch : UInt64
  seq : Seq

/-- Why a subscriber's stream restarted. -/
inductive ResyncReason where
  | session
  | epoch
  | unknown
  | evicted
  | rewound
  | lagging
  | projection

inductive Delivery where
  | resync (reason : ResyncReason)
  | welcome (cursor : Cursor) (snapshot : Snapshot)
  | event (cursor : Cursor) (bytes : List UInt8)

/-- Why a bridge stopped delivering. -/
inductive Closure where
  | detached
  | subscriptionLost
  | replica
  | encode
  | panicked

/-- The mergeable payload of a stream append. -/
structure Appended where
  cause : EntryId
  sid : Sid
  text : String

/-- One admitted event. -/
structure Entry where
  seq : Seq
  bytes : List UInt8
  append : Option Appended

def Entry.cost (entry : Entry) : Nat :=
  saturatingAdd entry.bytes.length ((entry.append.map fun append => Str.len append.text).getD 0)

def appended : Event → Option Appended
  | .stream cause sid .append _ _ (some text) => some { cause, sid, text }
  | _ => none

/-- One item queued for a subscriber. -/
inductive Queued where
  | resync (reason : ResyncReason)
  | welcome (seq : Seq) (snapshot : Snapshot)
  | event (entry : Entry)
  /-- Consecutive appends to one stream, concatenated. -/
  | append (seq : Seq) (cause : EntryId) (sid : Sid) (text : String)

def Queued.cost : Queued → Nat
  | .resync _ | .welcome .. => 0
  | .event entry => entry.cost
  | .append _ _ _ text => Str.len text

/-! ## Outbound queues -/

/-- One subscriber's queue. What wakes the subscriber up is left out. -/
structure Outbound where
  queue : List Queued := []
  bytes : Nat := 0

namespace Outbound

variable (out : Outbound)

def pushBack (item : Queued) : Outbound where
  queue := out.queue ++ [item]
  bytes := saturatingAdd out.bytes item.cost

def pushAppend (entry : Entry) (next : Appended) : Outbound :=
  match out.queue.getLast? with
  | some (.append _ _ sid text) =>
    if sid = next.sid then
      { queue := out.queue.dropLast ++ [.append entry.seq next.cause sid (text ++ next.text)]
        bytes := saturatingAdd out.bytes (Str.len next.text) }
    else out.pushBack (.event entry)
  | some (.event head) =>
    match head.append with
    | some queued =>
      if queued.sid = next.sid then
        { queue := out.queue.dropLast ++
            [.append entry.seq next.cause next.sid (queued.text ++ next.text)]
          bytes := saturatingAdd (out.bytes - head.cost) (Str.len (queued.text ++ next.text)) }
      else out.pushBack (.event entry)
    | none => out.pushBack (.event entry)
  | _ => out.pushBack (.event entry)

/-- `push_event`, and whether the queue is now over budget. -/
def pushEvent (entry : Entry) (limits : Limits) : Outbound × Bool :=
  let out := match entry.append with
    | some next => out.pushAppend entry next
    | none => out.pushBack (.event entry)
  (out, out.bytes > limits.subscriberBytes)

def welcome (seq : Seq) (snapshot : Snapshot) : Outbound :=
  { out with queue := out.queue ++ [.welcome seq snapshot] }

/-- Drops everything queued and restarts the stream from a snapshot. -/
def restart (_out : Outbound) (reason : ResyncReason) (seq : Seq) (snapshot : Snapshot) : Outbound :=
  welcome { queue := [.resync reason], bytes := 0 } seq snapshot

end Outbound

/-- The text that an item appends to a stream. -/
def Queued.appends : Queued → Option (Sid × String)
  | .event entry => entry.append.map fun a => (a.sid, a.text)
  | .append _ _ sid text => some (sid, text)
  | _ => none

/-- An append is queued, or merged into the last item. -/
theorem Outbound.pushAppend_cases (out : Outbound) (entry : Entry) (next : Appended) :
    (out.pushAppend entry next).queue = out.queue ++ [.event entry] ∨
      ∃ queue item text, out.queue = queue ++ [item] ∧ item.appends = some (next.sid, text) ∧
        (out.pushAppend entry next).queue =
          queue ++ [.append entry.seq next.cause next.sid (text ++ next.text)] := by
  have hlast : ∀ item, out.queue.getLast? = some item →
      out.queue = out.queue.dropLast ++ [item] := by
    intro item hitem
    obtain ⟨queue, hqueue⟩ := List.getLast?_eq_some_iff.1 hitem
    rw [hqueue, List.dropLast_concat]
  rw [pushAppend]
  split
  · next seq cause sid text heq =>
    split
    · next hsid =>
      subst hsid
      exact .inr ⟨_, _, text, hlast _ heq, rfl, rfl⟩
    · exact .inl rfl
  · next head heq =>
    split
    · next queued hqueued =>
      split
      · next hsid =>
        refine .inr ⟨_, _, queued.text, hlast _ heq, ?_, rfl⟩
        rw [Queued.appends, hqueued, ← hsid]
        rfl
      · exact .inl rfl
    · exact .inl rfl
  · exact .inl rfl

/-! ## State -/

/-- Everything behind the bridge's lock. -/
structure State where
  replica : Dom
  base : Option Snapshot
  ring : List Entry := []
  ringBytes : Nat := 0
  head : Seq := 0
  subscribers : Nat → Option Outbound := fun _ => none
  nextId : Nat := 0
  closed : Option Closure := none
  live : replica.Live

/-- Drops entries from the front of the ring while its length and its bytes ask for it. -/
def dropFrontWhile (spilled : Nat → Nat → Bool) : List Entry → Nat → List Entry × Nat
  | [], bytes => ([], bytes)
  | entry :: ring, bytes =>
    if spilled (ring.length + 1) bytes then dropFrontWhile spilled ring (bytes - entry.cost)
    else (entry :: ring, bytes)

namespace State

variable (s : State)

/-- `State::base`. Keeping the result for later does not show. -/
def materialized : Snapshot := s.base.getD (s.replica.snapshot s.live)

def evict (limits : Limits) : State :=
  let kept := dropFrontWhile (fun len _ => len > max limits.replayEvents 1) s.ring s.ringBytes
  let kept := dropFrontWhile (fun len bytes => bytes > limits.replayBytes && len > 1) kept.1 kept.2
  { s with ring := kept.1, ringBytes := kept.2 }

/-- The reset becomes the only entry of the ring and every subscriber restarts. -/
def rewind (entry : Entry) : State :=
  { s with
    ring := [entry]
    ringBytes := entry.cost
    subscribers := fun id => (s.subscribers id).map fun out =>
      out.restart .rewound s.head s.materialized }

def fanout (entry : Entry) (limits : Limits) : State :=
  { s with subscribers := fun id => (s.subscribers id).map fun out =>
      let (out, lagging) := out.pushEvent entry limits
      if lagging then out.restart .lagging s.head s.materialized else out }

/-- The first closure wins. -/
def close (closure : Closure) : State := { s with closed := s.closed.or (some closure) }

def setSubscriber (id : Nat) (out : Option Outbound) : State :=
  { s with subscribers := Function.update s.subscribers id out }

end State

/-- A bridge over a new subscription. -/
def State.start (snapshot : Snapshot) : State where
  replica := .fromSnapshot snapshot
  base := some snapshot
  live := .fromSnapshot snapshot

inductive Polled where
  | ready (delivery : Delivery)
  | empty
  | closed (closure : Closure)

/-- What a pop removed from a queue, with the redaction base when the subscriber redacts. -/
inductive Taken where
  | ready (delivery : Delivery)
  | empty
  | closed (closure : Closure)
  | welcome (seq : Seq) (snapshot : Snapshot)
  | entry (seq : Seq) (bytes : List UInt8) (base : Option Snapshot)
  | append (seq : Seq) (event : Event) (base : Option Snapshot)

/-- What is fixed when a bridge starts, with what `encode_event` asks for. -/
structure Shared where
  session : String
  epoch : UInt64
  limits : Limits
  serde : WireSerde
  asBytes : Snapshot → List UInt8

namespace Shared

variable (shared : Shared)

def cursor (seq : Seq) : Cursor := { session := shared.session, epoch := shared.epoch, seq }

/-- The rest of `admit`, for an event that the replica accepted. -/
def accept (s : State) (event : Event) (bytes : List UInt8) (replica : Dom) (live : replica.Live) :
    State :=
  let entry : Entry := { seq := s.head.next, bytes, append := appended event }
  let advanced : State := { s with replica, live, base := none, head := s.head.next }
  if replica.highWater < s.replica.highWater then advanced.rewind entry
  else
    let pushed : State := { advanced with
      ringBytes := saturatingAdd s.ringBytes entry.cost
      ring := s.ring ++ [entry] }
    (pushed.evict shared.limits).fanout entry shared.limits

/-- `admit`; a fault ends the drain loop and closes the bridge. -/
def admitEvent (s : State) (event : Event) : State :=
  match encodeEvent shared.serde shared.asBytes event with
  | none => s.close .encode
  | some bytes =>
    match h : s.replica.applyEvent event with
    | .error _ => s.close .replica
    | .ok replica => shared.accept s event bytes replica (s.live.applyEvent h)

/-- An event is refused, and the bridge closes, or it is accepted. -/
theorem admitEvent_cases (s : State) (event : Event) :
    (∃ closure, shared.admitEvent s event = s.close closure) ∨
      ∃ bytes replica live, encodeEvent shared.serde shared.asBytes event = some bytes ∧
        s.replica.applyEvent event = .ok replica ∧
        shared.admitEvent s event = shared.accept s event bytes replica live := by
  rw [admitEvent]
  cases hbytes : encodeEvent shared.serde shared.asBytes event with
  | none => exact .inl ⟨_, rfl⟩
  | some bytes =>
    simp only
    split
    · exact .inl ⟨_, rfl⟩
    · next replica happly =>
      exact .inr ⟨bytes, replica, s.live.applyEvent happly, rfl, happly, rfl⟩

/-- Why a cursor cannot be served. -/
def unserviceable (s : State) (cursor : Cursor) : Option ResyncReason :=
  if cursor.session ≠ shared.session then some .session
  else if cursor.epoch ≠ shared.epoch then some .epoch
  else if cursor.seq > s.head then some .unknown
  else if cursor.seq = s.head then none
  else
    match s.ring.head? with
    | some front => if front.seq ≤ cursor.seq.next then none else some .evicted
    | none => some .evicted

/-- Replays the ring from a position on, and whether the queue went over budget. -/
def replay (s : State) (seq : Seq) : Outbound × Bool :=
  (s.ring.filter (·.seq > seq)).foldl (fun (out, spilled) entry =>
    let (out, now) := out.pushEvent entry shared.limits
    (out, spilled || now)) ({}, false)

/-- The queue that a subscriber begins with. -/
def opening (s : State) : Option Cursor → Outbound
  | none => ({} : Outbound).welcome s.head s.materialized
  | some cursor =>
    match shared.unserviceable s cursor with
    | some reason => ({} : Outbound).restart reason s.head s.materialized
    | none =>
      let (out, spilled) := shared.replay s cursor.seq
      if spilled then out.restart .lagging s.head s.materialized else out

/-- `subscribe`; the subscriber goes by the next id. -/
def subscribe (s : State) (cursor : Option Cursor) : State :=
  { s with
    subscribers := Function.update s.subscribers s.nextId (some (shared.opening s cursor))
    nextId := saturatingAdd s.nextId 1 }

/-- What is handed on of a queued item. -/
def takeItem (s : State) (redacts : Bool) : Queued → Taken
  | .resync reason => .ready (.resync reason)
  | .welcome seq snapshot => .welcome seq snapshot
  | .event entry => .entry entry.seq entry.bytes (if redacts then some s.materialized else none)
  | .append seq cause sid text => .append seq (.stream cause sid .append none none (some text))
    (if redacts then some s.materialized else none)

/-- Removes the next queued item. -/
def take (s : State) (id : Nat) (redacts : Bool) : Taken × State :=
  match s.subscribers id with
  | none => (.closed (s.closed.getD .detached), s)
  | some out =>
    match out.queue with
    | [] =>
      match s.closed with
      | some closure => (.closed closure, s)
      | none => (.empty, s)
    | item :: queue =>
      (takeItem s redacts item, s.setSubscriber id (some { queue, bytes := out.bytes - item.cost }))

/-- Restarts one subscriber, delivering the resync at once. -/
def restart (s : State) (id : Nat) (reason : ResyncReason) : Polled × State :=
  match s.subscribers id with
  | none => (.closed (s.closed.getD .detached), s)
  | some out =>
    let out := out.restart reason s.head s.materialized
    (.ready (.resync reason), s.setSubscriber id (some { out with queue := out.queue.tail }))

/-- The end of `pop`: redacts the event and encodes it. -/
def deliver (policy : Option PropPolicy) (seq : Seq) (event : Event) (base : Option Snapshot) :
    Option Polled :=
  let projected := match base, policy with
    | some base, some policy => redactEvent policy base event
    | _, _ => event
  (encodeEvent shared.serde shared.asBytes projected).map fun bytes =>
    .ready (.event (shared.cursor seq) bytes)

/-- What `pop` does with the lock released; nothing when the subscriber has to be restarted. -/
def project (policy : Option PropPolicy) : Taken → Option Polled
  | .ready delivery => some (.ready delivery)
  | .empty => some .empty
  | .closed closure => some (.closed closure)
  | .welcome seq snapshot => some (.ready (.welcome (shared.cursor seq)
    (match policy with
      | some policy => snapshot.redact policy
      | none => snapshot)))
  | .entry seq bytes none => some (.ready (.event (shared.cursor seq) bytes))
  | .entry seq bytes (some base) =>
    match decodeEvent shared.serde bytes with
    | .error _ => none
    | .ok event => shared.deliver policy seq event (some base)
  | .append seq event base => shared.deliver policy seq event base

/-- `pop`, when nothing happens to the bridge while the lock is released. -/
def pop (s : State) (id : Nat) (policy : Option PropPolicy) : Polled × State :=
  let (taken, s) := take s id policy.isSome
  match shared.project policy taken with
  | some polled => (polled, s)
  | none => restart s id .projection

end Shared

end Bridge

end OhMyPi
