import Mathlib.Algebra.Order.Ring.Nat
import Mathlib.Order.Fin.Basic
import OhMyPi.Lib.OrdMap
import OhMyPi.Collab.Frame
import OhMyPi.Journal.Roots

/-! The dialogs a host shows to its writable guests (`collab/host.rs`), and the part of the host loop
that drives them (`driver/src/collab/session.rs`): guests join, say hello again and leave, the host
opens and cancels requests, and the first writable answer settles one. -/

namespace OhMyPi.Collab

inductive CredentialTier where
  | readOnly
  | fullAccess
deriving DecidableEq

/-- The credential that admitted a remote peer. -/
inductive Origin where
  | room (roomId : String) (tokenDigest : Option Hash32)
  | device (keyId : String)
deriving DecidableEq

structure RemotePrincipal where
  peerId : U32
  displayName : String
  credentialTier : CredentialTier
  origin : Origin
deriving DecidableEq

/-- `may_mutate`. -/
def RemotePrincipal.mayMutate (principal : RemotePrincipal) : Bool :=
  principal.credentialTier = .fullAccess

structure AuthenticatedPeer where
  principal : RemotePrincipal
deriving DecidableEq

/-- `read_only`. -/
def AuthenticatedPeer.readOnly (peer : AuthenticatedPeer) : Bool := !peer.principal.mayMutate

/-! ## Encoded length -/

/-- The bytes of a variable-length integer. -/
def varintLen (n : Nat) : Nat := Nat.log2 n / 7 + 1

/-- A length-delimited field whose number is below 16. -/
def fieldLen (n : Nat) : Nat := 1 + varintLen n + n

def uintFieldLen (n : U32) : Nat := if n = 0 then 0 else 1 + varintLen n.val

/-- A negative enumeration number is written as 64 bits. -/
def enumFieldLen (n : Int32) : Nat := if n = 0 then 0 else 1 + varintLen n.toInt64.toUInt64.toNat

def stringFieldLen (text : String) : Nat := if text = "" then 0 else fieldLen (strLen text)

def optionalFieldLen (text : Option String) : Nat := text.elim 0 fun text => fieldLen (strLen text)

def SelectOption.encodedLen (option : SelectOption) : Nat :=
  stringFieldLen option.label + optionalFieldLen option.description

def SelectSpec.encodedLen (spec : SelectSpec) : Nat :=
  (spec.options.map fun option => fieldLen option.encodedLen).sum + uintFieldLen spec.initialIndex +
    enumFieldLen spec.marker +
    (if spec.checkedIndices = [] then 0
      else fieldLen (spec.checkedIndices.map fun index => varintLen index.val).sum) +
    uintFieldLen spec.markableCount + optionalFieldLen spec.helpText

def UiSpec.encodedLen : UiSpec → Nat
  | select spec => spec.encodedLen
  | editor spec => optionalFieldLen spec.prefill

/-- `encoded_len`. -/
def UiRequest.encodedLen (request : UiRequest) : Nat :=
  uintFieldLen request.requestId + stringFieldLen request.title +
    request.spec.elim 0 fun spec => fieldLen spec.encodedLen

/-- The options a request offers. -/
def UiRequest.optionCount (request : UiRequest) : Nat :=
  match request.spec with
  | some (.select spec) => spec.options.length
  | _ => 0

/-! ## The dispatcher -/

/-- `FIELD_MAX_BYTES`. -/
def fieldMaxBytes : Nat := 512 * 1024

/-- `REPEATED_MAX_COUNT`. -/
def repeatedMaxCount : Nat := 1024

/-- `MAX_PENDING_UI_REQUESTS`. -/
def maxPendingUiRequests : Nat := 64

/-- One peer-targeted host frame. -/
structure TargetedFrame where
  peerId : U32
  frame : CollabFrame
deriving DecidableEq

/-- First writable-guest answer to a host UI request. -/
structure HostUiAnswer where
  requestId : U32
  peerId : U32
  value : Option String
deriving DecidableEq

inductive HostUiBeginError where
  | noWritablePeer
  | payloadTooLarge (actual maximum : Nat)
  | capacity (maximum : Nat)
  | idExhausted
deriving DecidableEq

inductive HostRouteError where
  | readOnly
deriving DecidableEq

/-- `collab_frame`. -/
def collabFrame (payload : Payload) : CollabFrame := { protocolRevision, payload := some payload }

/-- The peers as the host loop hands them over. -/
abbrev Peers := List (U32 × AuthenticatedPeer)

/-- The identities of the writable peers. -/
def writable (peers : Peers) : List U32 := (peers.filter fun p => !p.2.readOnly).map Prod.fst

/-- One frame to every writable peer. -/
def broadcast (peers : Peers) (payload : Payload) : List TargetedFrame :=
  (writable peers).map fun peerId => { peerId, frame := collabFrame payload }

/-- `HostUiDispatcher`. -/
structure HostUiDispatcher where
  nextId : U32 := 0
  pending : OrdMap U32 UiRequest := ∅

namespace HostUiDispatcher

/-- The search for a free identity, for at most as many rounds as there are nonzero ones. It leaves
the counter at the last identity tried. -/
def findId (pending : OrdMap U32 UiRequest) : Nat → U32 → Option U32 × U32
  | 0, nextId => (none, nextId)
  | rounds + 1, nextId =>
    let nextId := max (nextId + 1) 1
    if pending.contains nextId then findId pending rounds nextId else (some nextId, nextId)

/-- `begin`. -/
def begin (d : HostUiDispatcher) (request : UiRequest) (peers : Peers) :
    Except HostUiBeginError (List TargetedFrame) × HostUiDispatcher :=
  if request.encodedLen > fieldMaxBytes || request.optionCount > repeatedMaxCount then
    (.error (.payloadTooLarge request.encodedLen fieldMaxBytes), d)
  else if d.pending.entries.length ≥ maxPendingUiRequests then
    (.error (.capacity maxPendingUiRequests), d)
  else if writable peers = [] then (.error .noWritablePeer, d)
  else
    match findId d.pending 4294967295 d.nextId with
    | (none, nextId) => (.error .idExhausted, { d with nextId })
    | (some requestId, nextId) =>
      let request := { request with requestId }
      (.ok (broadcast peers (.uiRequest request)),
        { nextId, pending := d.pending.insert requestId request })

/-- `replay_for_join`. -/
def replayForJoin (d : HostUiDispatcher) (peerId : U32) (peer : AuthenticatedPeer) :
    List TargetedFrame :=
  if peer.readOnly then []
  else d.pending.entries.map fun p => { peerId, frame := collabFrame (.uiRequest p.2) }

/-- `cancel`. -/
def cancel (d : HostUiDispatcher) (requestId : U32) (peers : Peers) :
    List TargetedFrame × HostUiDispatcher :=
  if d.pending.contains requestId then
    (broadcast peers (.uiRequestEnd { requestId }), { d with pending := d.pending.erase requestId })
  else ([], d)

/-- `answer`. -/
def answer (d : HostUiDispatcher) (peerId : U32) (peer : AuthenticatedPeer) (response : UiResponse)
    (peers : Peers) :
    Except HostRouteError (Option (HostUiAnswer × List TargetedFrame)) × HostUiDispatcher :=
  if peer.readOnly then (.error .readOnly, d)
  else if d.pending.contains response.requestId then
    (.ok (some ({ requestId := response.requestId, peerId, value := response.value },
        broadcast peers (.uiRequestEnd { requestId := response.requestId }))),
      { d with pending := d.pending.erase response.requestId })
  else (.ok none, d)

/-- The loop of `cancel_all`. -/
def cancelEach (peers : Peers) : List U32 → HostUiDispatcher → List TargetedFrame × HostUiDispatcher
  | [], d => ([], d)
  | id :: ids, d =>
    let cancelled := d.cancel id peers
    let rest := cancelEach peers ids cancelled.2
    (cancelled.1 ++ rest.1, rest.2)

/-- `cancel_all`. -/
def cancelAll (d : HostUiDispatcher) (peers : Peers) : List TargetedFrame × HostUiDispatcher :=
  cancelEach peers (d.pending.entries.map Prod.fst) d

end HostUiDispatcher

/-! ## The host loop -/

/-- What reaches the host loop. A hello of a known peer replaces what the host knew of it. -/
inductive Event where
  | join (peerId : U32) (peer : AuthenticatedPeer)
  | leave (peerId : U32)
  | disconnect
  | begin (request : UiRequest)
  | answer (peerId : U32) (response : UiResponse)
  | cancel (requestId : U32)
  | cancelAll

/-- What the dispatcher returned for an event. -/
inductive Reply where
  | begun (result : Except HostUiBeginError (List TargetedFrame))
  | answered (result : Except HostRouteError (Option (HostUiAnswer × List TargetedFrame)))
  | sent (frames : List TargetedFrame)
deriving DecidableEq

namespace Reply

/-- The frames the host sends on. -/
def frames : Reply → List TargetedFrame
  | begun (.ok frames) | answered (.ok (some (_, frames))) | sent frames => frames
  | _ => []

/-- Whether the dispatcher returned an error. -/
def failed : Reply → Bool
  | begun (.error _) | answered (.error _) => true
  | _ => false

/-- Shows the peer a request with this identity. -/
def Shows (reply : Reply) (peerId id : U32) : Prop :=
  ∃ request : UiRequest, request.requestId = id ∧
    { peerId, frame := collabFrame (.uiRequest request) } ∈ reply.frames

/-- Tells the peer that the request with this identity has ended. -/
def Tells (reply : Reply) (peerId id : U32) : Prop :=
  { peerId, frame := collabFrame (.uiRequestEnd { requestId := id }) } ∈ reply.frames

end Reply

/-- The state of the host loop. -/
structure Room where
  peers : OrdMap U32 AuthenticatedPeer := ∅
  ui : HostUiDispatcher := {}

namespace Room

/-- One round of the host loop. An answer of a peer that has not said hello is refused. -/
def step (room : Room) : Event → Reply × Room
  | .join peerId peer =>
    let room := { room with peers := room.peers.insert peerId peer }
    (.sent (room.ui.replayForJoin peerId peer), room)
  | .leave peerId => (.sent [], { room with peers := room.peers.erase peerId })
  | .disconnect => (.sent [], { room with peers := ∅ })
  | .begin request =>
    let begun := room.ui.begin request room.peers.entries
    (.begun begun.1, { room with ui := begun.2 })
  | .answer peerId response =>
    match room.peers.get? peerId with
    | none => (.sent [], room)
    | some peer =>
      let answered := room.ui.answer peerId peer response room.peers.entries
      (.answered answered.1, { room with ui := answered.2 })
  | .cancel requestId =>
    let cancelled := room.ui.cancel requestId room.peers.entries
    (.sent cancelled.1, { room with ui := cancelled.2 })
  | .cancelAll =>
    let cancelled := room.ui.cancelAll room.peers.entries
    (.sent cancelled.1, { room with ui := cancelled.2 })

/-- The state after the first `n` events. -/
def after (events : Nat → Event) : Nat → Room
  | 0 => {}
  | n + 1 => ((after events n).step (events n)).2

/-- The reply to the event at `n`. -/
def reply (events : Nat → Event) (n : Nat) : Reply := ((after events n).step (events n)).1

/-- Whether the peer is connected and may write. -/
def Writable (room : Room) (peerId : U32) : Prop :=
  ∃ peer, room.peers.get? peerId = some peer ∧ peer.readOnly = false

/-- The event issues a request under this identity. -/
def Issues (room : Room) (id : U32) (event : Event) : Prop :=
  (∃ request, event = .begin request) ∧ ∃ peerId, (room.step event).1.Shows peerId id

/-- The event settles the request that is pending under this identity. -/
def Settles (room : Room) (id : U32) : Event → Prop
  | .answer peerId response => ∃ value frames,
    (room.step (.answer peerId response)).1 = .answered (.ok (some (⟨id, peerId, value⟩, frames)))
  | .cancel requestId => requestId = id ∧ room.ui.pending.contains id
  | .cancelAll => room.ui.pending.contains id
  | _ => False

/-- The request issued under `id` by the event at `k` is settled by the event at `n`: no later
request has taken the identity by then. -/
structure SettledBy (events : Nat → Event) (id : U32) (k n : Nat) : Prop where
  issued : (after events k).Issues id (events k)
  lt : k < n
  settles : (after events n).Settles id (events n)
  current : ∀ m, k < m → m < n → ¬ (after events m).Issues id (events m)

end Room

/-! ## The dispatcher's operations -/

namespace HostUiDispatcher

variable {d : HostUiDispatcher} {peers : Peers} {id : U32}

theorem findId_eq_some {pending : OrdMap U32 UiRequest} {rounds : Nat} {nextId nextId' : U32}
    (h : findId pending rounds nextId = (some id, nextId')) :
    id ≠ 0 ∧ pending.contains id = false := by
  induction rounds generalizing nextId with
  | zero => cases h
  | succ rounds ih =>
    rw [findId] at h
    split at h
    · exact ih h
    · next hfree =>
      cases h
      refine ⟨?_, by simpa using hfree⟩
      have hle : (1 : U32) ≤ max (nextId + 1) 1 := le_max_right _ _
      rintro h0
      rw [h0] at hle
      exact absurd hle (by decide)

/-- What `begin` can do: it leaves the requests as they are, or adds one under a fresh nonzero
identity and shows it to every writable peer, of which there is one. -/
theorem begin_cases (d : HostUiDispatcher) (request : UiRequest) (peers : Peers) :
    (∃ e, (d.begin request peers).1 = .error e ∧ (d.begin request peers).2.pending = d.pending) ∨
    ∃ id, id ≠ 0 ∧ d.pending.contains id = false ∧ writable peers ≠ [] ∧
      (d.begin request peers).1 =
        .ok (broadcast peers (.uiRequest { request with requestId := id })) ∧
      (d.begin request peers).2.pending =
        d.pending.insert id { request with requestId := id } := by
  rw [begin]
  split
  · exact .inl ⟨_, rfl, rfl⟩
  split
  · exact .inl ⟨_, rfl, rfl⟩
  split
  · exact .inl ⟨_, rfl, rfl⟩
  next hwritable =>
  split
  · exact .inl ⟨_, rfl, rfl⟩
  · next id nextId hfind =>
    obtain ⟨hne, hfree⟩ := findId_eq_some hfind
    exact .inr ⟨id, hne, hfree, hwritable, rfl, rfl⟩

theorem contains_erase {pending : OrdMap U32 UiRequest} {key : U32} :
    (pending.erase key).contains id ↔ pending.contains id ∧ id ≠ key := by
  by_cases h : id = key
  · subst h
    simp [OrdMap.contains, OrdMap.get?_erase_self]
  · simp [OrdMap.contains, OrdMap.get?_erase_of_ne _ h, h]

theorem contains_cancel (d : HostUiDispatcher) (key : U32) (peers : Peers) :
    (d.cancel key peers).2.pending.contains id ↔ d.pending.contains id ∧ id ≠ key := by
  rw [cancel]
  split
  · exact contains_erase
  · next habsent =>
    refine ⟨fun h => ⟨h, ?_⟩, And.left⟩
    rintro rfl
    exact habsent h

theorem contains_cancelEach (ids : List U32) (d : HostUiDispatcher) (peers : Peers) :
    (cancelEach peers ids d).2.pending.contains id ↔ d.pending.contains id ∧ id ∉ ids := by
  induction ids generalizing d with
  | nil => simp [cancelEach]
  | cons key ids ih =>
    rw [cancelEach, ih, contains_cancel, and_assoc, List.mem_cons, not_or]

theorem not_contains_cancelAll (d : HostUiDispatcher) (peers : Peers) :
    ¬ (d.cancelAll peers).2.pending.contains id := by
  rw [cancelAll, contains_cancelEach]
  rintro ⟨hpending, hid⟩
  obtain ⟨request, hget⟩ := Option.isSome_iff_exists.1 hpending
  exact hid (List.mem_map.2 ⟨_, OrdMap.get?_eq_some_iff.1 hget, rfl⟩)

theorem mem_broadcast {payload : Payload} {peerId : U32} (h : peerId ∈ writable peers) :
    { peerId, frame := collabFrame payload } ∈ broadcast peers payload :=
  List.mem_map.2 ⟨peerId, h, rfl⟩

/-- Draining tells every writable peer the end of every request drained. -/
theorem mem_cancelEach {ids : List U32} {peerId : U32} (hwritable : peerId ∈ writable peers)
    (hid : id ∈ ids) (hpending : d.pending.contains id) :
    { peerId, frame := collabFrame (.uiRequestEnd { requestId := id }) } ∈
      (cancelEach peers ids d).1 := by
  induction ids generalizing d with
  | nil => cases hid
  | cons key ids ih =>
    rw [cancelEach, List.mem_append]
    by_cases h : id = key
    · subst h
      left
      rw [cancel, if_pos hpending]
      exact mem_broadcast hwritable
    · right
      apply ih ((List.mem_cons.1 hid).resolve_left h)
      exact (contains_cancel d key peers).2 ⟨hpending, h⟩

theorem cancel_subset (d : HostUiDispatcher) (key : U32) (peers : Peers) :
    (d.cancel key peers).2.pending.entries ⊆ d.pending.entries := by
  rw [cancel]
  split
  · exact fun p hp => (OrdMap.mem_erase.1 hp).1
  · exact fun p hp => hp

theorem cancelEach_subset (ids : List U32) (d : HostUiDispatcher) (peers : Peers) :
    (cancelEach peers ids d).2.pending.entries ⊆ d.pending.entries := by
  induction ids generalizing d with
  | nil => exact fun p hp => hp
  | cons key ids ih => exact List.Subset.trans (ih _) (cancel_subset d key peers)

/-- What `answer` can do: it leaves the requests as they are, or it is a writable peer's answer to a
pending request, which it removes. -/
theorem answer_cases (d : HostUiDispatcher) (peerId : U32) (peer : AuthenticatedPeer)
    (response : UiResponse) (peers : Peers) :
    ((d.answer peerId peer response peers).2 = d ∧
      ∀ settled, (d.answer peerId peer response peers).1 ≠ .ok (some settled)) ∨
    (peer.readOnly = false ∧ d.pending.contains response.requestId ∧
      d.answer peerId peer response peers =
        (.ok (some (⟨response.requestId, peerId, response.value⟩,
          broadcast peers (.uiRequestEnd { requestId := response.requestId }))),
          { d with pending := d.pending.erase response.requestId })) := by
  rw [answer]
  split
  · exact .inl ⟨rfl, fun _ h => by cases h⟩
  next hwrite =>
  split
  · next hpending => exact .inr ⟨by simpa using hwrite, hpending, rfl⟩
  · exact .inl ⟨rfl, fun _ h => by cases h⟩

end HostUiDispatcher

/-! ## One round of the host loop -/

namespace Room

open HostUiDispatcher

variable {room : Room} {event : Event} {id peerId : U32}

theorem mem_writable : peerId ∈ writable room.peers.entries ↔ room.Writable peerId := by
  simp only [writable, Writable, List.mem_map, List.mem_filter, OrdMap.get?_eq_some_iff]
  constructor
  · rintro ⟨p, ⟨hp, hwrite⟩, rfl⟩
    exact ⟨p.2, hp, by simpa using hwrite⟩
  · rintro ⟨peer, hp, hwrite⟩
    exact ⟨(peerId, peer), ⟨hp, by simpa using hwrite⟩, rfl⟩

theorem issues_begin {request : UiRequest} (hwritable : writable room.peers.entries ≠ [])
    (h : (room.ui.begin request room.peers.entries).1 =
      .ok (broadcast room.peers.entries (.uiRequest { request with requestId := id }))) :
    room.Issues id (.begin request) := by
  obtain ⟨peerId, hpeer⟩ := List.exists_mem_of_ne_nil _ hwritable
  refine ⟨⟨request, rfl⟩, peerId, { request with requestId := id }, rfl, ?_⟩
  simp only [step, h, Reply.frames]
  exact mem_broadcast hpeer

/-- A request pending after a round was pending before it, or the round issued it under its own
nonzero identity. -/
theorem mem_step {p : U32 × UiRequest} (h : p ∈ (room.step event).2.ui.pending.entries) :
    p ∈ room.ui.pending.entries ∨ room.Issues p.1 event ∧ p.1 ≠ 0 ∧ p.2.requestId = p.1 := by
  cases event with
  | join | leave | disconnect => exact .inl h
  | «begin» request =>
    rcases begin_cases room.ui request room.peers.entries with
      ⟨_, -, hpending⟩ | ⟨id, hne, -, hwritable, hframes, hpending⟩
    · exact .inl (hpending ▸ h)
    · simp only [step, hpending] at h
      rcases OrdMap.mem_insert h with rfl | h
      · exact .inr ⟨issues_begin hwritable hframes, hne, rfl⟩
      · exact .inl h
  | answer peerId response =>
    simp only [step] at h
    split at h
    · exact .inl h
    · next peer _ =>
      rcases answer_cases room.ui peerId peer response room.peers.entries with
        ⟨hsame, -⟩ | ⟨-, -, hanswer⟩
      · exact .inl (hsame ▸ h)
      · rw [hanswer] at h
        exact .inl (OrdMap.mem_erase.1 h).1
  | cancel requestId => exact .inl (cancel_subset _ _ _ h)
  | cancelAll => exact .inl (cancelEach_subset _ _ _ h)

theorem contains_of_settles (h : room.Settles id event) : room.ui.pending.contains id := by
  cases event with
  | answer peerId response =>
    obtain ⟨value, frames, h⟩ := h
    simp only [step] at h
    split at h
    · cases h
    · next peer _ =>
      rcases answer_cases room.ui peerId peer response room.peers.entries with
        ⟨-, hnone⟩ | ⟨-, hpending, hanswer⟩
      · exact absurd (Reply.answered.inj h) (hnone _)
      · rw [hanswer] at h
        cases h
        exact hpending
  | cancel requestId => exact h.2
  | cancelAll => exact h
  | _ => cases h

/-- A settled request is no longer pending. -/
theorem not_contains_of_settles (h : room.Settles id event) :
    ¬ (room.step event).2.ui.pending.contains id := by
  cases event with
  | answer peerId response =>
    obtain ⟨value, frames, h⟩ := h
    simp only [step] at h ⊢
    split at h
    · cases h
    · next peer hpeer =>
      rcases answer_cases room.ui peerId peer response room.peers.entries with
        ⟨-, hnone⟩ | ⟨-, hpending, hanswer⟩
      · exact absurd (Reply.answered.inj h) (hnone _)
      · rw [hanswer] at h ⊢
        cases h
        exact fun hin => (contains_erase.1 hin).2 rfl
  | cancel requestId =>
    obtain ⟨rfl, -⟩ := h
    exact fun hin => ((contains_cancel _ _ _).1 hin).2 rfl
  | cancelAll => exact not_contains_cancelAll _ _
  | _ => cases h

theorem mem_peers_of_broadcast {peers : Peers} {payload : Payload} {target : TargetedFrame}
    (h : target ∈ broadcast peers payload) :
    target.peerId ∈ writable peers ∧ target.frame = collabFrame payload := by
  obtain ⟨peerId, hpeer, rfl⟩ := List.mem_map.1 h
  exact ⟨hpeer, rfl⟩

/-- Frames that end a request show none. -/
theorem not_mem_cancel {peers : Peers} {request : UiRequest} (key : U32) (d : HostUiDispatcher) :
    { peerId, frame := collabFrame (.uiRequest request) } ∉ (d.cancel key peers).1 := by
  intro h
  rw [cancel] at h
  split at h
  · cases (mem_peers_of_broadcast h).2
  · cases h

theorem not_mem_cancelEach {peers : Peers} {request : UiRequest} (ids : List U32)
    (d : HostUiDispatcher) :
    { peerId, frame := collabFrame (.uiRequest request) } ∉ (cancelEach peers ids d).1 := by
  induction ids generalizing d with
  | nil => exact List.not_mem_nil
  | cons key ids ih =>
    rw [cancelEach, List.mem_append, not_or]
    exact ⟨not_mem_cancel key d, ih _⟩

/-- A request is shown to writable peers only. -/
theorem writable_of_shows (h : (room.step event).1.Shows peerId id) :
    (room.step event).2.Writable peerId := by
  obtain ⟨request, -, h⟩ := h
  cases event with
  | join joined peer =>
    simp only [step, replayForJoin] at h ⊢
    split at h
    · cases h
    · next hwrite =>
      obtain ⟨p, -, hp⟩ := List.mem_map.1 h
      cases hp
      exact ⟨peer, by simp, by simpa using hwrite⟩
  | leave | disconnect => cases h
  | «begin» request =>
    rcases begin_cases room.ui request room.peers.entries with
      ⟨e, herror, -⟩ | ⟨id, -, -, -, hframes, -⟩
    · simp only [step, herror] at h
      cases h
    · simp only [step, hframes, Reply.frames] at h
      exact mem_writable.1 (mem_peers_of_broadcast h).1
  | answer answering response =>
    simp only [step] at h
    split at h
    · cases h
    · next peer _ =>
      rcases answer_cases room.ui answering peer response room.peers.entries with
        ⟨-, hnone⟩ | ⟨-, -, hanswer⟩
      · cases hresult : (room.ui.answer answering peer response room.peers.entries).1 with
        | error => simp only [hresult] at h; cases h
        | ok settled =>
          cases settled with
          | none => simp only [hresult] at h; cases h
          | some settled => exact absurd hresult (hnone settled)
      · simp only [hanswer, Reply.frames] at h
        cases (mem_peers_of_broadcast h).2
  | cancel requestId => exact absurd h (not_mem_cancel _ _)
  | cancelAll => exact absurd h (not_mem_cancelEach _ _)

/-- Only a writable peer settles a request by its answer. -/
theorem writable_of_answered {answer : HostUiAnswer} {frames : List TargetedFrame}
    (h : (room.step event).1 = .answered (.ok (some (answer, frames)))) :
    room.Writable answer.peerId := by
  cases event with
  | answer peerId response =>
    simp only [step] at h
    split at h
    · cases h
    · next peer hpeer =>
      rcases answer_cases room.ui peerId peer response room.peers.entries with
        ⟨-, hnone⟩ | ⟨hwrite, -, hanswer⟩
      · exact absurd (Reply.answered.inj h) (hnone _)
      · rw [hanswer] at h
        cases h
        exact ⟨peer, hpeer, hwrite⟩
  | _ => cases h

/-- The round that settles a request tells every writable peer. -/
theorem tells_of_settles (h : room.Settles id event) (hwritable : room.Writable peerId) :
    (room.step event).1.Tells peerId id := by
  have hmem := mem_writable.2 hwritable
  cases event with
  | answer answering response =>
    obtain ⟨value, frames, h⟩ := h
    rw [Reply.Tells, h, Reply.frames]
    simp only [step] at h
    split at h
    · cases h
    · next peer _ =>
      rcases answer_cases room.ui answering peer response room.peers.entries with
        ⟨-, hnone⟩ | ⟨-, -, hanswer⟩
      · exact absurd (Reply.answered.inj h) (hnone _)
      · rw [hanswer] at h
        cases h
        exact mem_broadcast hmem
  | cancel requestId =>
    obtain ⟨rfl, hpending⟩ := h
    simp only [Reply.Tells, step, Reply.frames, cancel, if_pos hpending]
    exact mem_broadcast hmem
  | cancelAll =>
    have hpending : room.ui.pending.contains id := h
    obtain ⟨request, hget⟩ := Option.isSome_iff_exists.1 hpending
    exact mem_cancelEach hmem (List.mem_map.2 ⟨_, OrdMap.get?_eq_some_iff.1 hget, rfl⟩) hpending
  | _ => cases h

/-- A round whose operation fails leaves the requests as they are. -/
theorem pending_of_failed (h : (room.step event).1.failed) :
    (room.step event).2.ui.pending = room.ui.pending := by
  cases event with
  | «begin» request =>
    rcases begin_cases room.ui request room.peers.entries with
      ⟨e, -, hpending⟩ | ⟨id, -, -, -, hframes, -⟩
    · exact hpending
    · simp only [step, hframes] at h
      cases h
  | answer peerId response =>
    simp only [step] at h ⊢
    split
    · rfl
    · next peer hpeer =>
      rcases answer_cases room.ui peerId peer response room.peers.entries with
        ⟨hsame, -⟩ | ⟨-, -, hanswer⟩
      · exact congrArg pending hsame
      · simp only [hpeer, hanswer] at h
        cases h
  | _ => cases h

/-! ## Whole runs -/

variable {events : Nat → Event}

/-- Every pending request is filed under its own nonzero identity. -/
theorem filed (events : Nat → Event) (n : Nat) :
    ∀ p ∈ (after events n).ui.pending.entries, p.1 ≠ 0 ∧ p.2.requestId = p.1 := by
  induction n with
  | zero => exact List.forall_mem_nil _
  | succ n ih =>
    intro p hp
    rcases mem_step hp with hold | ⟨-, hnew⟩
    · exact ih p hold
    · exact hnew

/-- An identity that is not pending stays so until it is issued. -/
theorem not_contains_of_not_issued {m n : Nat} (hmn : m ≤ n)
    (hm : ¬ (after events m).ui.pending.contains id)
    (hissue : ∀ j, m ≤ j → j < n → ¬ (after events j).Issues id (events j)) :
    ¬ (after events n).ui.pending.contains id := by
  induction n, hmn using Nat.le_induction with
  | base => exact hm
  | succ n hmn ih =>
    intro hcontains
    obtain ⟨request, hget⟩ := Option.isSome_iff_exists.1 hcontains
    rcases mem_step (OrdMap.get?_eq_some_iff.1 hget) with hold | ⟨hnew, -⟩
    · refine ih (fun j hj hlt => hissue j hj (by omega)) ?_
      rw [OrdMap.contains, OrdMap.get?_eq_some_iff.2 hold]
      rfl
    · exact hissue n hmn (by omega) hnew

/-- No request is settled a second time. -/
theorem SettledBy.not_lt {k m n : Nat} (hm : SettledBy events id k m) (hn : SettledBy events id k n) :
    ¬ m < n := by
  intro hlt
  refine not_contains_of_not_issued (Nat.succ_le_of_lt hlt) (not_contains_of_settles hm.settles) ?_
    (contains_of_settles hn.settles)
  intro j hj hjn
  exact hn.current j (by have := hm.lt; omega) hjn

theorem nodup_requestIds (events : Nat → Event) (n : Nat) :
    ((after events n).ui.pending.entries.map fun p => p.2.requestId).Nodup := by
  rw [List.map_congr_left fun p hp => (filed events n p hp).2]
  exact List.Pairwise.map _ (fun _ _ h => h.ne) (after events n).ui.pending.sorted

/-- In every run of the host loop, no issued request is settled twice; the identities of the pending
requests are nonzero and distinct; only writable peers are shown a request, and only they settle one
by an answer; a peer that was shown a request that settles, and is connected with write access when
it settles, is told its end; and an operation that fails leaves the pending requests as they are. -/
theorem host_ui_protocol (events : Nat → Event) :
    (∀ id k m n, SettledBy events id k m → SettledBy events id k n → m = n) ∧
    (∀ n, (∀ p ∈ (after events n).ui.pending.entries, p.2.requestId ≠ 0) ∧
      ((after events n).ui.pending.entries.map fun p => p.2.requestId).Nodup) ∧
    (∀ n peerId id, (reply events n).Shows peerId id → (after events (n + 1)).Writable peerId) ∧
    (∀ n answer frames, reply events n = .answered (.ok (some (answer, frames))) →
      (after events n).Writable answer.peerId) ∧
    (∀ id k m n peerId, SettledBy events id k n → k ≤ m → m < n →
      (reply events m).Shows peerId id → (after events n).Writable peerId →
      (reply events n).Tells peerId id) ∧
    ∀ n, (reply events n).failed →
      (after events (n + 1)).ui.pending = (after events n).ui.pending := by
  refine ⟨?_, ?_, ?_, ?_, ?_, ?_⟩
  · intro id k m n hm hn
    exact Nat.le_antisymm (Nat.not_lt.1 (hn.not_lt hm)) (Nat.not_lt.1 (hm.not_lt hn))
  · intro n
    refine ⟨fun p hp => ?_, nodup_requestIds events n⟩
    obtain ⟨hne, hid⟩ := filed events n p hp
    rwa [hid]
  · exact fun n peerId id => writable_of_shows
  · exact fun n answer frames => writable_of_answered
  · intro id k m n peerId hsettled _ _ _ hwritable
    exact tells_of_settles hsettled.settles hwritable
  · exact fun n => pending_of_failed

/-- A guest of some tier at relay identity 1. -/
def guest (tier : CredentialTier) : AuthenticatedPeer := ⟨⟨1, "guest", tier, .room "room" none⟩⟩

/-- A writable guest is shown a request, says hello again without the write token, and then the host
cancels the request. -/
def demotion : Nat → Event
  | 0 => .join 1 (guest .fullAccess)
  | 1 => .begin { title := "pick", spec := none }
  | 2 => .join 1 (guest .readOnly)
  | _ => .cancel 1

theorem after_demotion (n : Nat) : after demotion (n + 4) = after demotion 4 := by
  induction n with
  | zero => rfl
  | succ n ih =>
    rw [after, ih]
    rfl

theorem demoted_guest_not_told :
    ¬ ∀ events id k m n peerId, SettledBy events id k n → k ≤ m → m < n →
      (reply events m).Shows peerId id → ∃ j, (reply events j).Tells peerId id := by
  intro h
  have hshown : (reply demotion 1).Shows 1 1 :=
    ⟨{ requestId := 1, title := "pick", spec := none }, rfl, List.mem_singleton.2 rfl⟩
  have hsettled : SettledBy demotion 1 1 3 := by
    refine ⟨⟨⟨_, rfl⟩, 1, hshown⟩, by omega, ⟨rfl, rfl⟩, ?_⟩
    rintro m hm hlt ⟨⟨request, hbegin⟩, -⟩
    obtain rfl : m = 2 := by omega
    cases hbegin
  obtain ⟨j, hj⟩ := h demotion 1 1 1 3 1 hsettled (le_refl 1) (by omega) hshown
  rcases j with _ | _ | _ | _ | j
  · cases hj
  · cases List.mem_singleton.1 hj
  · cases hj
  · cases hj
  · rw [reply, after_demotion] at hj
    cases hj

end Room

end OhMyPi.Collab
