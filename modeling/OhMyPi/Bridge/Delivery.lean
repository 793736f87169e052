import OhMyPi.Bridge.Bridge
import OhMyPi.Dom.Alike

/-! What the clients of a bridge hold. A client applies its welcomes and events in order; whatever is
merged, evicted, dropped or replayed on the way, what it holds after each of them is the bridge's
replica as it was at the delivered sequence. -/

namespace OhMyPi

/-- An event and what a client may take for it: resets carry snapshots that stand for each other. -/
inductive Event.StandsFor : Event → Event → Prop where
  | refl (event : Event) : StandsFor event event
  | reset : Dom.Sim (.fromSnapshot s) (.fromSnapshot s') → StandsFor (.reset s) (.reset s')

/-- What is decoded from the encoded event stands for it. -/
def Event.Crosses (serde : WireSerde) (asBytes : Snapshot → List UInt8) (event : Event) : Prop :=
  ∃ bytes event', encodeEvent serde asBytes event = some bytes ∧
    decodeEvent serde bytes = .ok event' ∧ event.StandsFor event'

theorem Event.StandsFor.applyEvent {r r' d : Dom} {event event' : Event} (h : event.StandsFor event')
    (halike : r.Alike d) (hunshared : r.Unshares event) (hr : r.applyEvent event = .ok r') :
    ∃ d', d.applyEvent event' = .ok d' ∧ r'.Alike d' := by
  cases h with
  | refl => exact halike.applyEvent hunshared hr
  | reset hsim =>
    cases hr
    exact ⟨_, rfl, hsim.alike⟩

namespace Bridge

/-! ## Clients -/

/-- What a client got, beginning with how it subscribed. -/
inductive Received where
  | fresh
  | resumed (seq : Seq)
  | refused
  | resync (reason : ResyncReason)
  | welcome (seq : Seq)
  | event (seq : Seq)

namespace Received

/-- The sequence at which the client holds a tree. -/
def seq? : Received → Option Seq
  | .resumed seq | .welcome seq | .event seq => some seq
  | _ => none

/-- A client that waits for a snapshot. -/
def Waits : Received → Prop
  | .fresh | .resync _ => True
  | _ => False

/-- What may come next: sequences increase between resyncs, a snapshot is followed up, and a refused
cursor leads to a resync. -/
def Precedes (last : Received) : Received → Prop
  | .resync _ => True
  | .welcome _ => last.Waits
  | .event seq => ∃ n, last.seq? = some n ∧ n < seq
  | _ => False

end Received

/-- A client without redaction: what it got, the newest first, and the tree it holds. -/
structure Client where
  received : List Received
  held : Option Dom

/-- Applies a welcome or an event. -/
def Client.receive (serde : WireSerde) (client : Client) : Delivery → Client
  | .resync reason => { client with received := .resync reason :: client.received }
  | .welcome cursor snapshot =>
    { received := .welcome cursor.seq :: client.received
      held := some (.fromSnapshot snapshot) }
  | .event cursor bytes =>
    { received := .event cursor.seq :: client.received
      held := do
        let dom ← client.held
        let event ← (decodeEvent serde bytes).toOption
        (dom.applyEvent event).toOption }

/-- The bridge, its replica at every sequence so far, and its clients. -/
structure World where
  state : State
  log : List Dom
  clients : Nat → Option Client := fun _ => none

inductive Action where
  | admitEvent (event : Event)
  | subscribe (cursor : Option Cursor) (held : Option Dom)
  | poll (id : Nat)
  | disconnect (id : Nat)
  | close (closure : Closure)

namespace World

def start (snapshot : Snapshot) : World where
  state := .start snapshot
  log := [.fromSnapshot snapshot]

section

variable (shared : Shared)

/-- How a subscription begins. -/
def opened (w : World) : Option Cursor → Received
  | none => .fresh
  | some cursor =>
    match shared.unserviceable w.state cursor with
    | none => .resumed cursor.seq
    | some _ => .refused

def step (w : World) : Action → World
  | .admitEvent event =>
    match w.state.closed with
    | some _ => w
    | none =>
      let state := shared.admitEvent w.state event
      { w with
        state
        log := if state.closed.isNone then w.log ++ [state.replica] else w.log }
  | .subscribe cursor held =>
    { w with
      state := shared.subscribe w.state cursor
      clients := Function.update w.clients w.state.nextId
        (some { received := [w.opened shared cursor], held }) }
  | .poll id =>
    let (polled, state) := shared.pop w.state id none
    match polled with
    | .ready delivery =>
      { w with
        state
        clients := Function.update w.clients id
          ((w.clients id).map (·.receive shared.serde delivery)) }
    | _ => { w with state }
  | .disconnect id =>
    { w with
      state := w.state.setSubscriber id none
      clients := Function.update w.clients id none }
  | .close closure => { w with state := w.state.close closure }

def run (w : World) (actions : List Action) : World := actions.foldl (step shared) w

/-- What is asked of one step. A client that resumes holds the state at its cursor; an admitted event
and the appends that are merged on the way cross to the client, and no stream is opened on a property
that an open stream is bound to. -/
def Sound (w : World) : Action → Prop
  | .admitEvent event => w.state.head + 1 < 18446744073709551615 ∧ w.state.replica.Unshares event ∧
    event.Crosses shared.serde shared.asBytes
  | .subscribe cursor held => w.state.nextId + 1 < 18446744073709551615 ∧
    ∀ c, cursor = some c → shared.unserviceable w.state c = none →
      ∃ d r, held = some d ∧ w.log[c.seq]? = some r ∧ r.SameSnapshot d
  | .poll id => ∀ out seq cause sid text queue, w.state.subscribers id = some out →
    out.queue = .append seq cause sid text :: queue →
      (Event.stream cause sid .append none none (some text)).Crosses shared.serde shared.asBytes
  | _ => True

def SoundRun (w : World) : List Action → Prop
  | [] => True
  | action :: actions => w.Sound shared action ∧ SoundRun (w.step shared action) actions

end

/-- Every client got its deliveries in order and holds, after each of them, the replica as it was at
the delivered sequence. -/
def Converged (w : World) : Prop :=
  ∀ id client, w.clients id = some client →
    client.received.IsChain (fun later earlier => earlier.Precedes later) ∧
      ∀ n, client.received.head?.bind Received.seq? = some n →
        ∃ d r, client.held = some d ∧ w.log[n]? = some r ∧ d.canonical = r.canonical

end World

/-! ## Queues -/

/-- The event takes what a client holds at the first sequence to what it should hold at the second. -/
def Links (log : List Dom) (n k : Seq) (event : Event) : Prop :=
  ∃ r r', log[n]? = some r ∧ log[k]? = some r' ∧
    ∀ d, r.Alike d → ∃ d', d.applyEvent event = .ok d' ∧ r'.Alike d'

/-- The entry leads from one sequence to the next. -/
def Entry.Follows (serde : WireSerde) (log : List Dom) (n : Seq) (entry : Entry) : Prop :=
  entry.seq = n + 1 ∧ ∃ event, decodeEvent serde entry.bytes = .ok event ∧
    Links log n (n + 1) event ∧
    ∀ a, entry.append = some a → event = .stream a.cause a.sid .append none none (some a.text)

namespace Queued

/-- What the client gets of it. -/
def received : Queued → Received
  | .resync reason => .resync reason
  | .welcome seq _ => .welcome seq
  | .event entry => .event entry.seq
  | .append seq _ _ _ => .event seq

/-- The item is in its place behind what the client got last. -/
def Continues (serde : WireSerde) (log : List Dom) (last : Received) (item : Queued) : Prop :=
  last.Precedes item.received ∧
    match item with
    | .resync _ => True
    | .welcome seq snapshot => ∃ r, log[seq]? = some r ∧ r.Alike (.fromSnapshot snapshot)
    | .event entry => ∃ n event, last.seq? = some n ∧ decodeEvent serde entry.bytes = .ok event ∧
      Links log n entry.seq event ∧
      ∀ a, entry.append = some a → event = .stream a.cause a.sid .append none none (some a.text)
    | .append seq cause sid text => ∃ n, last.seq? = some n ∧
      Links log n seq (.stream cause sid .append none none (some text))

end Queued

/-- The queue leads from what the client got last to what it will have got. -/
def Leads (serde : WireSerde) (log : List Dom) : Received → List Queued → Received → Prop
  | last, [], final => final = last
  | last, item :: queue, final => item.Continues serde log last ∧
    Leads serde log item.received queue final

variable {serde : WireSerde} {log log' : List Dom}

theorem leads_append {last final : Received} {queue queue' : List Queued} :
    Leads serde log last (queue ++ queue') final ↔
      ∃ mid, Leads serde log last queue mid ∧ Leads serde log mid queue' final := by
  induction queue generalizing last with
  | nil => simp [Leads]
  | cons item queue ih => simp only [List.cons_append, Leads, ih, and_assoc, exists_and_left]

section

variable (hlog : ∀ (n : Nat) (r : Dom), log[n]? = some r → log'[n]? = some r)

include hlog

theorem Links.mono {n k : Seq} {event : Event} (h : Links log n k event) : Links log' n k event := by
  obtain ⟨r, r', hr, hr', hstep⟩ := h
  exact ⟨r, r', hlog n r hr, hlog k r' hr', hstep⟩

theorem Entry.Follows.mono {n : Seq} {entry : Entry} (h : entry.Follows serde log n) :
    entry.Follows serde log' n := by
  obtain ⟨hseq, event, hdecode, hlinks, hshape⟩ := h
  exact ⟨hseq, event, hdecode, hlinks.mono hlog, hshape⟩

theorem Queued.Continues.mono {last : Received} {item : Queued} (h : item.Continues serde log last) :
    item.Continues serde log' last := by
  obtain ⟨hprecedes, h⟩ := h
  refine ⟨hprecedes, ?_⟩
  cases item with
  | resync => trivial
  | welcome seq snapshot =>
    obtain ⟨r, hr, halike⟩ := h
    exact ⟨r, hlog seq r hr, halike⟩
  | event entry =>
    obtain ⟨n, event, hlast, hdecode, hlinks, hshape⟩ := h
    exact ⟨n, event, hlast, hdecode, hlinks.mono hlog, hshape⟩
  | append seq cause sid text =>
    obtain ⟨n, hlast, hlinks⟩ := h
    exact ⟨n, hlast, hlinks.mono hlog⟩

theorem Leads.mono {last final : Received} {queue : List Queued}
    (h : Leads serde log last queue final) : Leads serde log' last queue final := by
  induction queue generalizing last with
  | nil => exact h
  | cons item queue ih => exact ⟨h.1.mono hlog, ih h.2⟩

end

/-! ### Pushing -/

theorem Links.append {n k j : Seq} {cause cause' : EntryId} {sid : Sid} {text text' : String}
    (h : Links log n k (.stream cause sid .append none none (some text)))
    (h' : Links log k j (.stream cause' sid .append none none (some text'))) :
    Links log n j (.stream cause' sid .append none none (some (text ++ text'))) := by
  obtain ⟨r, r₁, hr, hr₁, hstep⟩ := h
  obtain ⟨r₂, r', hr₂, hr', hstep'⟩ := h'
  rw [hr₁] at hr₂
  cases hr₂
  refine ⟨r, r', hr, hr', fun d halike => ?_⟩
  obtain ⟨d₁, hd₁, halike₁⟩ := hstep d halike
  obtain ⟨d', hd', halike'⟩ := hstep' d₁ halike₁
  exact ⟨d', Dom.applyEvent_append_append hd₁ hd', halike'⟩

theorem Entry.Follows.continues {n : Seq} {entry : Entry} (h : entry.Follows serde log n)
    {last : Received} (hlast : last.seq? = some n) : (Queued.event entry).Continues serde log last := by
  obtain ⟨hseq, event, hdecode, hlinks, hshape⟩ := h
  refine ⟨⟨n, hlast, hseq ▸ Nat.lt_succ_self n⟩, n, event, hlast, hdecode, ?_, hshape⟩
  rwa [hseq]

/-- The last item of a queue, when it appends to a stream, is one event for the client. -/
theorem Queued.Continues.links {last : Received} {item : Queued} {sid : Sid} {text : String} {n : Seq}
    (h : item.Continues serde log last) (happends : item.appends = some (sid, text))
    (hseq : item.received.seq? = some n) :
    ∃ k cause, last.seq? = some k ∧ k < n ∧
      Links log k n (.stream cause sid .append none none (some text)) := by
  cases item with
  | resync => cases happends
  | welcome => cases happends
  | event entry =>
    obtain ⟨⟨k, hk, hlt⟩, k', event, hk', -, hlinks, hshape⟩ := h
    rw [hk] at hk'
    cases hk'
    cases hseq
    obtain ⟨a, ha, heq⟩ := Option.map_eq_some_iff.1 happends
    cases heq
    rw [hshape a ha] at hlinks
    exact ⟨k, a.cause, hk, hlt, hlinks⟩
  | append seq cause sid' text' =>
    obtain ⟨⟨k, hk, hlt⟩, k', hk', hlinks⟩ := h
    rw [hk] at hk'
    cases hk'
    cases hseq
    cases happends
    exact ⟨k, cause, hk, hlt, hlinks⟩

/-- Queueing the next entry leads one sequence further. -/
theorem Leads.pushEvent {last final : Received} {out : Outbound} {n : Seq} {entry : Entry}
    (h : Leads serde log last out.queue final) (hfinal : final.seq? = some n)
    (hentry : entry.Follows serde log n) (limits : Limits) :
    ∃ final', Leads serde log last (out.pushEvent entry limits).1.queue final' ∧
      final'.seq? = some (n + 1) := by
  have hpush : ∃ final', Leads serde log last (out.queue ++ [.event entry]) final' ∧
      final'.seq? = some (n + 1) :=
    ⟨.event entry.seq, leads_append.2 ⟨final, h, hentry.continues hfinal, rfl⟩,
      congrArg some hentry.1⟩
  rw [Outbound.pushEvent]
  cases happend : entry.append with
  | none => exact hpush
  | some next =>
    rcases out.pushAppend_cases entry next with hqueue | ⟨queue, item, text, hqueue, happends, hmerged⟩
    · simp only [hqueue]
      exact hpush
    · obtain ⟨hseq, event, -, hlinks, hshape⟩ := hentry
      rw [hqueue] at h
      obtain ⟨mid, hmid, hitem, rfl⟩ := leads_append.1 h
      obtain ⟨k, cause, hk, hlt, hitemLinks⟩ := hitem.links happends hfinal
      rw [hshape next happend] at hlinks
      have hboth := hitemLinks.append hlinks
      simp only [hmerged]
      refine ⟨.event entry.seq, leads_append.2 ⟨mid, hmid, ⟨⟨k, hk, ?_⟩, k, hk, ?_⟩, rfl⟩,
        congrArg some hseq⟩
      · rw [hseq]
        exact Nat.lt_succ_of_lt hlt
      · rwa [hseq]

/-- A restarted queue leads to the snapshot it ends with, from anywhere. -/
theorem leads_restart {last : Received} {out : Outbound} {n : Seq} {r : Dom} {snapshot : Snapshot}
    (hr : log[n]? = some r) (halike : r.Alike (.fromSnapshot snapshot)) (reason : ResyncReason) :
    Leads serde log last (out.restart reason n snapshot).queue (.welcome n) :=
  ⟨⟨trivial, trivial⟩, ⟨trivial, r, hr, halike⟩, rfl⟩

/-! ## The ring -/

/-- The ring holds the entries behind one sequence up to another, without a gap. -/
def Ring (serde : WireSerde) (log : List Dom) : Seq → List Entry → Seq → Prop
  | n, [], head => n = head
  | n, entry :: ring, head => entry.Follows serde log n ∧ Ring serde log (n + 1) ring head

theorem Ring.mono (hlog : ∀ (n : Nat) (r : Dom), log[n]? = some r → log'[n]? = some r) {n head : Seq}
    {ring : List Entry} (h : Ring serde log n ring head) : Ring serde log' n ring head := by
  induction ring generalizing n with
  | nil => exact h
  | cons entry ring ih => exact ⟨h.1.mono hlog, ih h.2⟩

theorem Ring.le {n head : Seq} {ring : List Entry} (h : Ring serde log n ring head) : n ≤ head := by
  induction ring generalizing n with
  | nil => exact Nat.le_of_eq h
  | cons entry ring ih => exact Nat.le_of_succ_le (ih h.2)

theorem Ring.concat {n head : Seq} {ring : List Entry} {entry : Entry}
    (h : Ring serde log n ring head) (hentry : entry.Follows serde log head) :
    Ring serde log n (ring ++ [entry]) (head + 1) := by
  induction ring generalizing n with
  | nil =>
    cases h
    exact ⟨hentry, rfl⟩
  | cons first ring ih => exact ⟨h.1, ih h.2⟩

/-- What is left after entries were dropped from the front. -/
theorem Ring.dropFrontWhile {n head : Seq} {ring : List Entry} (h : Ring serde log n ring head)
    (spilled : Nat → Nat → Bool) (bytes : Nat) :
    ∃ n', Ring serde log n' (Bridge.dropFrontWhile spilled ring bytes).1 head := by
  induction ring generalizing n bytes with
  | nil => exact ⟨n, h⟩
  | cons entry ring ih =>
    rw [Bridge.dropFrontWhile]
    split
    · exact ih h.2 _
    · exact ⟨n, h⟩

theorem Ring.lt_seq {n head : Seq} {ring : List Entry} (h : Ring serde log n ring head) :
    ∀ entry ∈ ring, n < entry.seq := by
  induction ring generalizing n with
  | nil => simp
  | cons first ring ih =>
    rw [List.forall_mem_cons]
    refine ⟨h.1.1 ▸ Nat.lt_succ_self n, fun entry hentry => ?_⟩
    exact Nat.lt_of_succ_lt (ih h.2 entry hentry)

/-- The entries behind a sequence that the ring reaches back to. -/
theorem Ring.filter {n k head : Seq} {ring : List Entry} (h : Ring serde log n ring head)
    (hn : n ≤ k) (hk : k ≤ head) : Ring serde log k (ring.filter (·.seq > k)) head := by
  induction ring generalizing n with
  | nil => exact Nat.le_antisymm hk (h ▸ hn)
  | cons entry ring ih =>
    rcases Nat.lt_or_eq_of_le hn with hlt | rfl
    · have hseq : ¬ entry.seq > k := by
        rw [h.1.1]
        exact Nat.not_lt.2 hlt
      rw [List.filter_cons_of_neg (by simpa using hseq)]
      exact ih h.2 hlt
    · have hall : (entry :: ring).filter (·.seq > n) = entry :: ring := by
        rw [List.filter_eq_self]
        intro other hother
        simpa using h.lt_seq other hother
      rwa [hall]

variable {shared : Shared}

/-- Replaying the ring leads to the head. -/
theorem Ring.replay {n head : Seq} {ring : List Entry} (h : Ring shared.serde log n ring head)
    {last final : Received} (out : Outbound) {spilled : Bool} (limits : Limits)
    (hout : Leads shared.serde log last out.queue final) (hfinal : final.seq? = some n) :
    ∃ final', Leads shared.serde log last (ring.foldl (fun (out, spilled) entry =>
        let (out, now) := out.pushEvent entry limits
        (out, spilled || now)) (out, spilled)).1.queue final' ∧ final'.seq? = some head := by
  induction ring generalizing n out spilled final with
  | nil => exact ⟨final, hout, h ▸ hfinal⟩
  | cons entry ring ih =>
    obtain ⟨final', hout', hfinal'⟩ := hout.pushEvent hfinal h.1 limits
    exact ih h.2 _ hout' hfinal'

/-! ## The invariant -/

/-- The client is in step with the bridge, and its queue leads it to the head. -/
structure Client.InStep (serde : WireSerde) (log : List Dom) (head : Seq) (queue : List Queued)
    (client : Client) (last : Received) (earlier : List Received) : Prop where
  received : client.received = last :: earlier
  ordered : (last :: earlier).IsChain fun later earlier => earlier.Precedes later
  holds : ∀ n, last.seq? = some n → ∃ d r, client.held = some d ∧ log[n]? = some r ∧ r.Alike d
  leads : ∃ final, Leads serde log last queue final ∧ final.seq? = some head

/-- What holds of the bridge and its clients after every step. -/
structure World.Inv (serde : WireSerde) (w : World) : Prop where
  length : w.log.length = w.state.head + 1
  replica : w.log[w.state.head]? = some w.state.replica
  live : ∀ r ∈ w.log, r.Live
  base : w.state.replica.Alike (.fromSnapshot w.state.materialized)
  ring : ∃ n, Ring serde w.log n w.state.ring w.state.head
  gone : ∀ id, w.state.subscribers id = none → w.clients id = none
  clients : ∀ id out, w.state.subscribers id = some out → ∃ client last earlier,
    w.clients id = some client ∧ client.InStep serde w.log w.state.head out.queue last earlier

theorem getElem?_concat {r x : Dom} {n : Nat} (h : log[n]? = some r) :
    (log ++ [x])[n]? = some r := by
  rw [List.getElem?_append_left (List.getElem?_eq_some_iff.1 h).1]
  exact h

namespace World

variable {w : World}

theorem Inv.converged (h : w.Inv serde) : w.Converged := by
  intro id client hclient
  cases hout : w.state.subscribers id with
  | none =>
    rw [h.gone id hout] at hclient
    cases hclient
  | some out =>
    obtain ⟨client', last, earlier, hclient', hstep⟩ := h.clients id out hout
    rw [hclient] at hclient'
    cases hclient'
    rw [hstep.received]
    refine ⟨hstep.ordered, fun n hn => ?_⟩
    obtain ⟨d, r, hd, hr, halike⟩ := hstep.holds n hn
    exact ⟨d, r, hd, hr, halike.canonical_eq⟩

theorem Inv.start (snapshot : Snapshot) : (World.start snapshot).Inv serde where
  length := rfl
  replica := rfl
  live := by
    intro r hr
    rw [List.mem_singleton.1 hr]
    exact .fromSnapshot snapshot
  base := (Dom.Sim.refl _).alike
  ring := ⟨0, rfl⟩
  gone _ _ := rfl
  clients := by
    intro id out hout
    cases hout

/-! ### Admitting an event -/

/-- The bridge moves on by one sequence, and every queue with it. -/
theorem Inv.advance (h : w.Inv serde) (state : State) (hhead : state.head = w.state.head + 1)
    (hbase : state.replica.Alike (.fromSnapshot state.materialized))
    (hring : ∃ n, Ring serde (w.log ++ [state.replica]) n state.ring state.head)
    (hqueues : ∀ id, Option.Rel (fun out out' : Outbound => ∀ last final,
      Leads serde w.log last out.queue final → final.seq? = some w.state.head →
        ∃ final', Leads serde (w.log ++ [state.replica]) last out'.queue final' ∧
          final'.seq? = some state.head) (w.state.subscribers id) (state.subscribers id)) :
    Inv serde { w with state, log := w.log ++ [state.replica] } where
  length := by simp [h.length, hhead]
  replica := by simp [hhead, h.length]
  live := by
    intro r hr
    rcases List.mem_append.1 hr with hr | hr
    · exact h.live r hr
    · rw [List.mem_singleton.1 hr]
      exact state.live
  base := hbase
  ring := hring
  gone := by
    intro id hid
    have hrel := hqueues id
    rw [show state.subscribers id = none from hid] at hrel
    cases hold : w.state.subscribers id with
    | none => exact h.gone id hold
    | some out =>
      rw [hold] at hrel
      cases hrel
  clients := by
    intro id out' hout'
    have hrel := hqueues id
    rw [show state.subscribers id = some out' from hout'] at hrel
    cases hold : w.state.subscribers id with
    | none =>
      rw [hold] at hrel
      cases hrel
    | some out =>
      rw [hold] at hrel
      obtain ⟨client, last, earlier, hclient, hstep⟩ := h.clients id out hold
      refine ⟨client, last, earlier, hclient, { hstep with holds := ?_, leads := ?_ }⟩
      · intro n hn
        obtain ⟨d, r, hd, hr, halike⟩ := hstep.holds n hn
        exact ⟨d, r, hd, getElem?_concat hr, halike⟩
      · obtain ⟨final, hleads, hfinal⟩ := hstep.leads
        cases hrel with
        | some hrel => exact hrel last final hleads hfinal

/-- The entry of an event that was accepted. -/
theorem Inv.entry (h : w.Inv shared.serde) {event : Event} {replica : Dom} {bytes : List UInt8}
    (hunshared : w.state.replica.Unshares event)
    (hcrosses : event.Crosses shared.serde shared.asBytes)
    (hbytes : encodeEvent shared.serde shared.asBytes event = some bytes)
    (happly : w.state.replica.applyEvent event = .ok replica) :
    ({ seq := w.state.head + 1, bytes, append := appended event } : Entry).Follows shared.serde
      (w.log ++ [replica]) w.state.head := by
  obtain ⟨bytes', event', hbytes', hdecode, hstands⟩ := hcrosses
  rw [hbytes] at hbytes'
  cases hbytes'
  refine ⟨rfl, event', hdecode, ?_, ?_⟩
  · refine ⟨w.state.replica, replica, getElem?_concat h.replica, by simp [← h.length], ?_⟩
    intro d halike
    exact hstands.applyEvent halike hunshared happly
  · intro a ha
    cases hstands with
    | reset => cases ha
    | refl =>
      cases Dom.accepts_iff.1 happly with
      | patch => cases ha
      | reset => cases ha
      | opened => cases ha
      | appended =>
        cases ha
        rfl
      | closed => cases ha

theorem Inv.accept (h : w.Inv shared.serde) (hhead : w.state.head + 1 < 18446744073709551615)
    {event : Event} {replica : Dom} {bytes : List UInt8} (live : replica.Live)
    (hentry : ({ seq := w.state.head + 1, bytes, append := appended event } : Entry).Follows
      shared.serde (w.log ++ [replica]) w.state.head) :
    Inv shared.serde { w with
      state := shared.accept w.state event bytes replica live
      log := w.log ++ [replica] } := by
  have hnext : w.state.head.next = w.state.head + 1 := Nat.min_eq_left (Nat.le_of_lt hhead)
  have hbase : replica.Alike (.fromSnapshot (replica.snapshot live)) :=
    (Dom.Sim.fromSnapshot live).alike
  have hlog : ∀ (n : Nat) (r : Dom), w.log[n]? = some r → (w.log ++ [replica])[n]? = some r :=
    fun _ _ => getElem?_concat
  have hreplica : (w.log ++ [replica])[w.state.head + 1]? = some replica := by simp [← h.length]
  obtain ⟨n, hring⟩ := h.ring
  rw [Shared.accept, hnext]
  split
  · refine h.advance (State.rewind _ _) rfl hbase ⟨w.state.head, hentry, rfl⟩ fun id => ?_
    simp only [State.rewind]
    cases w.state.subscribers id with
    | none => exact .none
    | some out => exact .some fun last final _ _ => ⟨_, leads_restart hreplica hbase _, rfl⟩
  · refine h.advance (State.fanout _ _ _) rfl hbase ?_ fun id => ?_
    · obtain ⟨k, hkept⟩ := ((hring.mono hlog).concat hentry).dropFrontWhile
        (fun len _ => len > max shared.limits.replayEvents 1) _
      exact hkept.dropFrontWhile _ _
    simp only [State.fanout, State.evict]
    cases w.state.subscribers id with
    | none => exact .none
    | some out =>
      refine .some fun last final hleads hfinal => ?_
      simp only
      split
      · exact ⟨_, leads_restart hreplica hbase _, rfl⟩
      · exact (hleads.mono hlog).pushEvent hfinal hentry shared.limits

theorem Inv.close (h : w.Inv serde) (closure : Closure) :
    Inv serde { w with state := w.state.close closure } := ⟨h.1, h.2, h.3, h.4, h.5, h.6, h.7⟩

theorem Inv.admitEvent (h : w.Inv shared.serde) {event : Event} (hsound : w.Sound shared (.admitEvent event)) :
    (w.step shared (.admitEvent event)).Inv shared.serde := by
  obtain ⟨hhead, hunshared, hcrosses⟩ := hsound
  rw [step]
  cases hclosed : w.state.closed with
  | some closure => exact h
  | none =>
    rcases shared.admitEvent_cases w.state event with ⟨closure, hentry⟩ |
      ⟨bytes, replica, live, hbytes, happly, hentry⟩
    · have hsome : (w.state.close closure).closed.isNone = false := by
        simp only [State.close, hclosed]
        rfl
      simp only [hentry, hsome, Bool.false_eq_true, if_false]
      exact h.close closure
    · have haccept := h.accept hhead live (h.entry hunshared hcrosses hbytes happly)
      have hstate : (shared.admitEvent w.state event).closed = none ∧
          (shared.admitEvent w.state event).replica = replica := by
        rw [hentry, Shared.accept]
        split
        · exact ⟨hclosed, rfl⟩
        · exact ⟨hclosed, rfl⟩
      simp only [hstate, Option.isNone_none, if_true]
      rwa [hentry]

/-! ### Subscribing and polling -/

/-- A cursor that is served lies in the ring. -/
theorem Inv.served (h : w.Inv shared.serde) {cursor : Cursor}
    (hserved : shared.unserviceable w.state cursor = none) : cursor.seq ≤ w.state.head ∧
      ∃ n ≤ cursor.seq, Ring shared.serde w.log n w.state.ring w.state.head := by
  obtain ⟨n, hring⟩ := h.ring
  simp only [Shared.unserviceable, ite_eq_iff, reduceCtorEq, and_false, false_or, not_lt] at hserved
  obtain ⟨-, -, hle, hserved⟩ := hserved
  refine ⟨hle, n, ?_, hring⟩
  rcases hserved with ⟨heq, -⟩ | ⟨-, hfront⟩
  · rw [heq]
    exact hring.le
  · cases hentries : w.state.ring with
    | nil =>
      rw [hentries] at hfront
      cases hfront
    | cons front ring =>
      rw [hentries] at hfront hring
      simp only [List.head?_cons, ite_eq_iff, reduceCtorEq, and_false, or_false, and_true] at hfront
      rw [hring.1.1] at hfront
      exact Nat.le_of_succ_le_succ (hfront.trans (Nat.min_le_left _ _))

theorem Inv.opening (h : w.Inv shared.serde) (cursor : Option Cursor) :
    ∃ final, Leads shared.serde w.log (w.opened shared cursor)
      (shared.opening w.state cursor).queue final ∧ final.seq? = some w.state.head := by
  cases cursor with
  | none => exact ⟨.welcome w.state.head, ⟨⟨trivial, _, h.replica, h.base⟩, rfl⟩, rfl⟩
  | some cursor =>
    rw [opened, Shared.opening]
    cases hserved : shared.unserviceable w.state cursor with
    | some reason => exact ⟨_, leads_restart h.replica h.base reason, rfl⟩
    | none =>
      obtain ⟨hle, n, hn, hring⟩ := h.served hserved
      simp only
      split
      · exact ⟨_, leads_restart h.replica h.base _, rfl⟩
      · exact (hring.filter hn hle).replay {} shared.limits rfl rfl

theorem Inv.subscribe (h : w.Inv shared.serde) {cursor : Option Cursor} {held : Option Dom}
    (hsound : w.Sound shared (.subscribe cursor held)) :
    (w.step shared (.subscribe cursor held)).Inv shared.serde := by
  refine ⟨h.length, h.replica, h.live, h.base, h.ring, ?_, ?_⟩
  · intro id hid
    by_cases hnew : id = w.state.nextId
    · subst hnew
      simp [step, Shared.subscribe] at hid
    · simp only [step, Shared.subscribe, Function.update_of_ne hnew] at hid ⊢
      exact h.gone id hid
  · intro id out hout
    by_cases hnew : id = w.state.nextId
    · subst hnew
      simp only [step, Shared.subscribe, Function.update_self, Option.some.injEq] at hout ⊢
      subst hout
      refine ⟨_, _, _, rfl, rfl, .singleton _, ?_, h.opening cursor⟩
      intro n hn
      cases cursor with
      | none => cases hn
      | some cursor =>
        rw [opened] at hn
        cases hserved : shared.unserviceable w.state cursor with
        | some reason =>
          rw [hserved] at hn
          cases hn
        | none =>
          rw [hserved] at hn
          cases hn
          obtain ⟨d, r, hheld, hr, hsame⟩ := hsound.2 cursor rfl hserved
          exact ⟨d, r, hheld, hr, hsame.alike (h.live r (List.mem_of_getElem? hr))⟩
    · simp only [step, Shared.subscribe, Function.update_of_ne hnew] at hout ⊢
      exact h.clients id out hout

/-- Removing a subscriber, or changing its queue and its client together, keeps the others. -/
theorem Inv.update (h : w.Inv serde) (id : Nat) {out : Option Outbound} {client : Option Client}
    (hgone : out = none → client = none)
    (hclient : ∀ o, out = some o → ∃ c last earlier, client = some c ∧
      c.InStep serde w.log w.state.head o.queue last earlier) :
    Inv serde { w with
      state := w.state.setSubscriber id out
      clients := Function.update w.clients id client } := by
  refine ⟨h.length, h.replica, h.live, h.base, h.ring, fun other hother => ?_, fun other o ho => ?_⟩
  · by_cases hid : other = id
    · subst hid
      simp only [State.setSubscriber, Function.update_self] at hother ⊢
      exact hgone hother
    · simp only [State.setSubscriber, Function.update_of_ne hid] at hother ⊢
      exact h.gone other hother
  · by_cases hid : other = id
    · subst hid
      simp only [State.setSubscriber, Function.update_self] at ho ⊢
      exact hclient o ho
    · simp only [State.setSubscriber, Function.update_of_ne hid] at ho ⊢
      exact h.clients other o ho

end World

/-- What a client without redaction is sent for an item. -/
inductive Queued.SentAs (serde : WireSerde) : Queued → Delivery → Prop where
  | resync : SentAs serde (.resync reason) (.resync reason)
  | welcome : cursor.seq = seq → SentAs serde (.welcome seq snapshot) (.welcome cursor snapshot)
  | event : cursor.seq = entry.seq → SentAs serde (.event entry) (.event cursor entry.bytes)
  | append : cursor.seq = seq →
    decodeEvent serde bytes = .ok (.stream cause sid .append none none (some text)) →
    SentAs serde (.append seq cause sid text) (.event cursor bytes)

theorem Links.receive {n k : Seq} {event : Event} (h : Links log n k event) {held : Option Dom}
    (hheld : ∃ d r, held = some d ∧ log[n]? = some r ∧ r.Alike d) {bytes : List UInt8}
    (hdecode : decodeEvent serde bytes = .ok event) :
    ∃ d r, (do
        let dom ← held
        let event ← (decodeEvent serde bytes).toOption
        (dom.applyEvent event).toOption) = some d ∧ log[k]? = some r ∧ r.Alike d := by
  obtain ⟨d, r, rfl, hr, halike⟩ := hheld
  obtain ⟨r₁, r', hr₁, hr', hstep⟩ := h
  rw [hr] at hr₁
  cases hr₁
  obtain ⟨d', hd', halike'⟩ := hstep d halike
  refine ⟨d', r', ?_, hr', halike'⟩
  rw [hdecode]
  simp only [Option.bind_eq_bind, Except.toOption, Option.bind_some, hd']

/-- The client stays in step with what it is sent. -/
theorem Client.InStep.receive {client : Client} {head : Seq} {item : Queued} {queue : List Queued}
    {last : Received} {earlier : List Received} {delivery : Delivery}
    (h : client.InStep serde log head (item :: queue) last earlier)
    (hsent : item.SentAs serde delivery) :
    (client.receive serde delivery).InStep serde log head queue item.received (last :: earlier) := by
  obtain ⟨final, ⟨hitem, hqueue⟩, hfinal⟩ := h.leads
  have hordered : (item.received :: last :: earlier).IsChain fun later earlier => earlier.Precedes later :=
    .cons_cons hitem.1 h.ordered
  refine ⟨?_, hordered, ?_, final, hqueue, hfinal⟩
  · cases hsent with
    | resync => exact congrArg _ h.received
    | welcome hseq => exact congrArg₂ _ (congrArg _ hseq) h.received
    | event hseq => exact congrArg₂ _ (congrArg _ hseq) h.received
    | append hseq => exact congrArg₂ _ (congrArg _ hseq) h.received
  · intro n hn
    cases hsent with
    | resync => cases hn
    | welcome =>
      cases hn
      obtain ⟨r, hr, halike⟩ := hitem.2
      exact ⟨_, r, rfl, hr, halike⟩
    | event hseq =>
      cases hn
      obtain ⟨k, event, hk, hdecode, hlinks, -⟩ := hitem.2
      exact hlinks.receive (h.holds k hk) hdecode
    | append _ hdecode =>
      cases hn
      obtain ⟨k, hk, hlinks⟩ := hitem.2
      exact hlinks.receive (h.holds k hk) hdecode

namespace World

variable {w : World}

/-- A poll changes nothing, or sends the first item of the queue. -/
theorem pop_cases {id : Nat} (hsound : w.Sound shared (.poll id)) :
    (∃ polled, shared.pop w.state id none = (polled, w.state) ∧
        ∀ delivery, polled ≠ .ready delivery) ∨
      ∃ out item queue delivery, w.state.subscribers id = some out ∧ out.queue = item :: queue ∧
        item.SentAs shared.serde delivery ∧ shared.pop w.state id none = (.ready delivery,
          w.state.setSubscriber id (some { queue, bytes := out.bytes - item.cost })) := by
  cases hout : w.state.subscribers id with
  | none => exact .inl ⟨_, by simp only [Shared.pop, Shared.take, hout]; rfl, by simp⟩
  | some out =>
    cases hqueue : out.queue with
    | nil =>
      left
      cases hclosed : w.state.closed with
      | none => exact ⟨.empty, by simp [Shared.pop, Shared.take, hout, hqueue, hclosed, Shared.project], by simp⟩
      | some closure =>
        exact ⟨.closed closure, by simp [Shared.pop, Shared.take, hout, hqueue, hclosed, Shared.project], by simp⟩
    | cons item queue =>
      right
      have hsent : ∃ delivery, item.SentAs shared.serde delivery ∧
          shared.project none (Shared.takeItem w.state false item) = some (.ready delivery) := by
        cases item with
        | resync reason => exact ⟨_, .resync, rfl⟩
        | welcome seq snapshot =>
          exact ⟨.welcome (shared.cursor seq) snapshot, .welcome rfl, rfl⟩
        | event entry => exact ⟨.event (shared.cursor entry.seq) entry.bytes, .event rfl, rfl⟩
        | append seq cause sid text =>
          obtain ⟨bytes, event', hbytes, hdecode, hstands⟩ := hsound out seq cause sid text queue hout hqueue
          cases hstands
          refine ⟨.event (shared.cursor seq) bytes, .append rfl hdecode, ?_⟩
          change shared.deliver none seq (.stream cause sid .append none none (some text)) none = _
          unfold Shared.deliver
          simp only [hbytes, Option.map_some]
      obtain ⟨delivery, hsent, hproject⟩ := hsent
      refine ⟨out, item, queue, delivery, rfl, hqueue, hsent, ?_⟩
      simp only [Shared.pop, Shared.take, hout, hqueue, Option.isSome_none, hproject]

theorem Inv.poll (h : w.Inv shared.serde) {id : Nat} (hsound : w.Sound shared (.poll id)) :
    (w.step shared (.poll id)).Inv shared.serde := by
  rw [step]
  rcases pop_cases hsound with ⟨polled, hpop, hnone⟩ |
    ⟨out, item, queue, delivery, hout, hqueue, hsent, hpop⟩
  · rw [hpop]
    cases polled with
    | ready delivery => exact absurd rfl (hnone delivery)
    | empty => exact h
    | closed closure => exact h
  · obtain ⟨client, last, earlier, hclient, hstep⟩ := h.clients id out hout
    rw [hpop]
    rw [hqueue] at hstep
    simp only [hclient, Option.map_some]
    refine h.update id (fun hnone => by cases hnone) fun o ho => ?_
    cases ho
    exact ⟨_, _, _, rfl, hstep.receive hsent⟩

/-- Every step keeps the clients in step. -/
theorem Inv.step (h : w.Inv shared.serde) {action : Action} (hsound : w.Sound shared action) :
    (w.step shared action).Inv shared.serde := by
  cases action with
  | admitEvent event => exact h.admitEvent hsound
  | subscribe cursor held => exact h.subscribe hsound
  | poll id => exact h.poll hsound
  | disconnect id => exact h.update id (fun _ => rfl) fun o ho => by cases ho
  | close closure => exact h.close closure

theorem Inv.run (h : w.Inv shared.serde) {actions : List Action} (hsound : w.SoundRun shared actions) :
    (w.run shared actions).Inv shared.serde := by
  induction actions generalizing w with
  | nil => exact h
  | cons action actions ih => exact ih (h.step hsound.1) hsound.2

/-- In every run, the clients of a bridge converge. -/
theorem start_run_converged (shared : Shared) (snapshot : Snapshot) {actions : List Action}
    (hsound : (start snapshot).SoundRun shared actions) :
    ((start snapshot).run shared actions).Converged :=
  ((Inv.start snapshot).run hsound).converged

/-! ### Two runs -/

/-- Opens a stream on the text of the body. -/
def openBody (sid : Sid) : Event :=
  .stream Dom.sampleCause sid .open (some Dom.body) (some (.known .text)) none

/-- A bridge with the default limits, whose clients can read the opening of one stream. -/
def openShared (sid : Sid) : Shared where
  session := "session"
  epoch := 0
  limits := { replayEvents := 4096, replayBytes := 16777216, subscriberBytes := 4194304 }
  serde := .ofFields ((openBody sid).outgoing "")
  asBytes _ := []

def newSnapshot : Snapshot := Dom.new.snapshot (Dom.Wf.withHighWater 4).live

theorem openBody_crosses :
    (openBody 1).Crosses (openShared 1).serde (openShared 1).asBytes := by
  have hprints : (openShared 1).serde.Prints ((openBody 1).outgoing "") := by
    apply WireSerde.prints_ofFields
    · decide +kernel
    · intro p hp
      simp only [openBody, Event.outgoing, List.mem_cons, List.not_mem_nil, or_false] at hp
      rcases hp with rfl | rfl | rfl | rfl | rfl | rfl | rfl
      all_goals rfl
  refine ⟨_, _, rfl, decode_stream hprints ?_, .refl _⟩
  intro h hh
  cases hh
  exact ⟨by decide, by decide⟩

/-- No item of the subscriber's queue is a merged append. -/
def plainQueue (w : World) (id : Nat) : Bool :=
  match w.state.subscribers id with
  | none => true
  | some out => out.queue.all fun item => !(item matches .append ..)

theorem sound_poll_of_plain {id : Nat} (h : w.plainQueue id = true) :
    w.Sound shared (.poll id) := by
  intro out seq cause sid text queue hout hqueue
  rw [plainQueue, hout] at h
  simp [hqueue] at h

theorem start_run_converged_open :
    ((start newSnapshot).run (openShared 1)
      [.subscribe none none, .poll 0, .admitEvent (openBody 1), .poll 0]).Converged := by
  apply start_run_converged
  refine ⟨⟨by decide, fun c hc => by cases hc⟩, sound_poll_of_plain (by decide +kernel),
    ⟨by decide +kernel, ?_, openBody_crosses⟩, sound_poll_of_plain (by decide +kernel), trivial⟩
  rintro ⟨p, hp, -⟩
  cases hp

/-- A client that joins while a stream is open takes the second stream on its property to begin with
the text of the first. -/
theorem second_stream_not_converged :
    ¬ ((start newSnapshot).run (openShared 2)
      [.admitEvent (openBody 1), .admitEvent (.stream Dom.sampleCause 1 .append none none (some "a")),
        .subscribe none none, .poll 0, .admitEvent (openBody 2), .poll 0]).Converged := by
  intro h
  have hview : ((((start newSnapshot).run (openShared 2)
      [.admitEvent (openBody 1), .admitEvent (.stream Dom.sampleCause 1 .append none none (some "a")),
        .subscribe none none, .poll 0, .admitEvent (openBody 2), .poll 0]).clients 0).map fun client =>
      (client.received.head?.bind Received.seq?,
        client.held.map fun d => d.canonical.streams.map (·.2.text))) =
        some (some 3, some ["a", "a"]) := by decide +kernel
  have hlog : (((start newSnapshot).run (openShared 2)
      [.admitEvent (openBody 1), .admitEvent (.stream Dom.sampleCause 1 .append none none (some "a")),
        .subscribe none none, .poll 0, .admitEvent (openBody 2), .poll 0]).log[3]?).map
        (fun r => r.canonical.streams.map (·.2.text)) = some ["a", ""] := by decide +kernel
  obtain ⟨client, hclient, hview⟩ := Option.map_eq_some_iff.1 hview
  obtain ⟨hseq, hheld⟩ := Prod.mk.inj hview
  obtain ⟨d, r, hd, hr, hcanonical⟩ := (h 0 client hclient).2 3 hseq
  rw [hd, Option.map_some, hcanonical] at hheld
  rw [hr, Option.map_some, hheld] at hlog
  exact absurd hlog (by decide)

end World

end Bridge

end OhMyPi
