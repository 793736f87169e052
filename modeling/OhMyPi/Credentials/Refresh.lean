import Mathlib.Logic.Function.Basic
import OhMyPi.Credentials.Operations

/-! Refreshing a rejected credential. In each process one task leads the refresh of an account and the
others wait for its result; between processes the leaders take turns through a lease on the account.
Processes share the store and the clock, and may stop at any point. -/

namespace OhMyPi.Credentials

variable {Sealed : Type}

def oauthRenewableKind : String := "oauth-renewable-v1"

/-- The kind of the lease that a refresh takes. -/
def refreshKind : String := "refresh"

structure RefreshPolicy where
  leaseTtl : Nat
  maxPeerHandoffs : Nat
deriving DecidableEq, Repr

structure RefreshRequest where
  account : String
  principal : String
  /-- The rejected generation. -/
  rejected : Nat
  requestedAt : Nat
deriving DecidableEq, Repr

/-- `RefreshResult`, and `RefreshedCredential`. -/
structure RefreshResult where
  account : String
  principal : String
  generation : Nat
deriving DecidableEq, Repr

inductive RefreshStoreError
  | store (error : StoreError)
  | contract (summary : String)
deriving DecidableEq, Repr

inductive RefreshOperationError
  | store (error : StoreError)
  | generationChanged
  | principalChanged
  | oauth
deriving DecidableEq, Repr

inductive RefreshErrorKind
  | store (error : RefreshStoreError)
  | operation (error : RefreshOperationError)
  | principalChanged (actual : String)
  | staleGeneration (actual : Nat)
  | accountChanged (actual : String)
  | leaseLost
  | coordinationExhausted
  | leaderCancelled
deriving DecidableEq, Repr

abbrev SharedResult := Except RefreshErrorKind RefreshResult

def validateResult (request : RefreshRequest) (result : RefreshResult) :
    Except RefreshErrorKind Unit :=
  if result.account ≠ request.account then .error (.accountChanged result.account)
  else if result.principal ≠ request.principal then .error (.principalChanged result.principal)
  else if result.generation ≤ request.rejected then .error (.staleGeneration result.generation)
  else .ok ()

/-- The result, when it is one for the request. -/
def validated (request : RefreshRequest) (result : RefreshResult) : SharedResult :=
  match validateResult request result with
  | .ok () => .ok result
  | .error kind => .error kind

def RefreshRequest.minimumGeneration (request : RefreshRequest) : Nat :=
  min (request.rejected + 1) (2 ^ 64 - 1)

/-! ## What a refresh asks of the store -/

namespace Store

def loadOauthBundle (aead : Aead Sealed) (keys : KeySource) (store : Store Sealed)
    (account : String) : Except StoreError (CredentialMetadata × Secret) := do
  let stored ← store.get aead keys account
  if stored.1.kind ≠ oauthRenewableKind then throw .notFound
  pure stored

def publish (store : Store Sealed) (lease : PersistentLease) (result : RefreshResult) :
    Except RefreshStoreError Unit :=
  if lease.accountId ≠ result.account then
    .error (.contract "refresh result account does not match lease")
  else if store.matchesLease lease = false then
    .error (.contract "refresh lease is no longer owned")
  else
    match store.metadata lease.accountId with
    | none => .error (.contract "refreshed credential metadata is missing")
    | some m =>
      if m.principalId ≠ result.principal then
        .error (.contract "refresh result principal does not match storage")
      else if m.generation < result.generation then
        .error (.contract "refresh result generation is not persisted")
      else .ok ()

end Store

/-- The checks of the refresh operation on the credential that it loaded. -/
def RefreshRequest.checkStored (request : RefreshRequest) (m : CredentialMetadata) :
    Except RefreshOperationError Unit :=
  if m.generation ≠ request.rejected then .error .generationChanged
  else if m.principalId ≠ request.principal then .error .principalChanged
  else .ok ()

/-- A newer generation is stored for the principal that the request is to preserve. -/
def RefreshRequest.superseded (request : RefreshRequest) (m : CredentialMetadata) : Bool :=
  request.rejected < m.generation && m.principalId == request.principal

/-- The write of a refreshed bundle, from the rejected generation only. -/
def RefreshRequest.write (request : RefreshRequest) (origin : CredentialOrigin) (bundle : Secret)
    (expiresAtMs : Option Nat) : CredentialWrite where
  accountId := request.account
  principalId := request.principal
  kind := oauthRenewableKind
  secret := bundle
  expiresAtMs := expiresAtMs
  origin := origin
  nowMs := request.requestedAt
  expectedGeneration := some request.rejected

/-! ## Tasks -/

/-- Where a call of `refresh` stands. The first two are a waiter's, the others a leader's. -/
inductive RefreshPhase
  | joined (leader : Nat)
  | answered (result : SharedResult)
  | acquiring (now handoffs : Nat)
  | waiting (leaseExpiresAt handoffs : Nat)
  | loading (lease : PersistentLease)
  | loaded (lease : PersistentLease)
  | exchanging (lease : PersistentLease)
  | publishing (lease : PersistentLease) (result : RefreshResult)
  | releasing (lease : PersistentLease) (outcome : SharedResult)

namespace RefreshPhase

def leads : RefreshPhase → Bool
  | .joined _ | .answered _ => false
  | _ => true

/-- The lease that a leader acquired, as it was last renewed. -/
def lease : RefreshPhase → Option PersistentLease
  | .loading lease | .loaded lease | .exchanging lease | .publishing lease _
  | .releasing lease _ => some lease
  | _ => none

/-- The result that a task goes on with. -/
def result : RefreshPhase → Option RefreshResult
  | .publishing _ result | .releasing _ (.ok result) => some result
  | _ => none

/-- The phases behind the start of an exchange. -/
def afterExchange : RefreshPhase → Bool
  | .exchanging _ | .publishing .. | .releasing .. => true
  | _ => false

def answer (leader : Nat) (result : SharedResult) : RefreshPhase → RefreshPhase
  | .joined other => if other = leader then .answered result else .joined other
  | phase => phase

end RefreshPhase

/-- A call of `refresh` in a process. The last two fields record whether it started an exchange, and
whether it found its rejected generation superseded. -/
structure Task where
  process : Nat
  request : RefreshRequest
  origin : CredentialOrigin
  phase : RefreshPhase
  exchanged : Bool
  superseded : Bool

/-- An exchange that was started, and whether another owner held an unexpired lease then. -/
structure Exchange where
  owner : String
  account : String
  generation : Nat
  contended : Bool
deriving DecidableEq, Repr

/-- A call that returned. -/
structure Finished where
  request : RefreshRequest
  outcome : SharedResult
  exchanged : Bool
  superseded : Bool

/-- The store and the clock, the flights and the tasks of every process, and what has happened: the
generations that were stored, the exchanges and the calls that returned. -/
structure System (Sealed : Type) where
  clock : Nat
  store : Store Sealed
  flights : Nat → String → Option Nat
  tasks : Nat → Option Task
  history : List RefreshResult
  exchanges : List Exchange
  finished : List Finished

namespace System

def setTask (s : System Sealed) (id : Nat) (task : Option Task) : System Sealed :=
  { s with tasks := Function.update s.tasks id task }

@[simp] theorem tasks_setTask_self (s : System Sealed) (id : Nat) (task : Option Task) :
    (s.setTask id task).tasks id = task := Function.update_self ..

theorem tasks_setTask_ne (s : System Sealed) {id i : Nat} (h : i ≠ id) (task : Option Task) :
    (s.setTask id task).tasks i = s.tasks i := Function.update_of_ne h ..

def setPhase (s : System Sealed) (id : Nat) (t : Task) (phase : RefreshPhase) : System Sealed :=
  s.setTask id (some { t with phase })

/-- `remove_flight`, and the answer to the waiters. -/
def closeFlight (s : System Sealed) (id : Nat) (t : Task) (result : SharedResult) : System Sealed :=
  { s with
    flights := fun process account =>
      if process = t.process ∧ account = t.request.account ∧
          s.flights process account = some id then none
      else s.flights process account
    tasks := fun i => (s.tasks i).map fun w => { w with phase := w.phase.answer id result } }

/-- A call returns. -/
def conclude (s : System Sealed) (id : Nat) (t : Task) (outcome : SharedResult) : System Sealed :=
  { s.setTask id none with
    finished := s.finished ++ [⟨t.request, outcome, t.exchanged, t.superseded⟩] }

/-- `FlightGuard::finish`, and the return of the leader. -/
def finish (s : System Sealed) (id : Nat) (t : Task) (outcome : SharedResult) : System Sealed :=
  (s.closeFlight id t outcome).conclude id t outcome

/-- A task that has not got a lease ends, and one that has releases it first. -/
def abort (s : System Sealed) (id : Nat) (t : Task) (kind : RefreshErrorKind) : System Sealed :=
  match t.phase.lease with
  | some lease => s.setPhase id t (.releasing lease (.error kind))
  | none => s.finish id t (.error kind)

/-- The account's lease is another owner's and has not run out. -/
def contended (s : System Sealed) (account owner : String) : Bool :=
  (s.store.lease account refreshKind).any (Store.heldByPeer owner s.clock)

end System

/-! ## Steps -/

/-- The processes with their owner tokens, and what they work with. -/
structure Fleet (Sealed : Type) where
  owner : Nat → String
  owner_injective : Function.Injective owner
  policy : RefreshPolicy
  aead : Aead Sealed
  keys : KeySource

/-- What can happen next. A task's step goes to the store at most once. -/
inductive Event
  | tick (now : Nat)
  | call (id process : Nat) (request : RefreshRequest) (origin : CredentialOrigin)
  | acquire (id : Nat)
  | poll (id : Nat)
  | load (id : Nat)
  | exchange (id : Nat)
  | renew (id : Nat)
  | settle (id : Nat) (nonce : List UInt8) (reply : Option (Secret × Option Nat))
  | publish (id : Nat)
  | release (id : Nat)
  | receive (id : Nat)
  | fail (id : Nat) (kind : RefreshErrorKind)
  | cancel (id : Nat)
  | crash (process : Nat)
  | put (nonce : List UInt8) (write : CredentialWrite)
  | delete (account : String)

namespace System

variable (fleet : Fleet Sealed) (s : System Sealed) (id : Nat) (t : Task)

/-- `refresh`, up to the first wait: the task joins the flight of its account or opens one. The time
of the request is a reading of the clock. -/
def call (process : Nat) (request : RefreshRequest) (origin : CredentialOrigin) : System Sealed :=
  if (s.tasks id).isSome ∨ s.clock < request.requestedAt then s
  else
    match s.flights process request.account with
    | some leader =>
      s.setTask id (some ⟨process, request, origin, .joined leader, false, false⟩)
    | none =>
      let phase := .acquiring request.requestedAt fleet.policy.maxPeerHandoffs
      { s with
        flights := Function.update s.flights process
          (Function.update (s.flights process) request.account (some id)) }.setTask id
        (some ⟨process, request, origin, phase, false, false⟩)

def acquire (now handoffs : Nat) : System Sealed :=
  match s.store.tryAcquireLease t.request.account refreshKind (fleet.owner t.process) now
      fleet.policy.leaseTtl with
  | .error error => s.finish id t (.error (.store (.store error)))
  | .ok (.held _ _ expiresAtMs, _) => s.setPhase id t (.waiting expiresAtMs handoffs)
  | .ok (.acquired lease, store) => { s with store }.setPhase id t (.loading lease)

/-- One turn of `wait_for_newer`, and the next turn of the leader's loop when the lease ran out. -/
def poll (leaseExpiresAt handoffs : Nat) : System Sealed :=
  match (s.store.metadata t.request.account).filter
      (fun m => t.request.minimumGeneration ≤ m.generation) with
  | some m =>
    s.finish id { t with superseded := t.request.superseded m }
      (validated t.request ⟨t.request.account, m.principalId, m.generation⟩)
  | none =>
    if s.clock < leaseExpiresAt then s
    else
      match handoffs with
      | 0 => s.finish id t (.error .coordinationExhausted)
      | handoffs + 1 => s.setPhase id t (.acquiring s.clock handoffs)

def load (lease : PersistentLease) : System Sealed :=
  match s.store.loadOauthBundle fleet.aead fleet.keys t.request.account with
  | .error error => s.abort id t (.operation (.store error))
  | .ok (m, _) =>
    match t.request.checkStored m with
    | .error error =>
      s.abort id { t with superseded := t.request.superseded m } (.operation error)
    | .ok () => s.setPhase id t (.loaded lease)

/-- The rejected generation's refresh token is sent to the provider. -/
def exchange (lease : PersistentLease) : System Sealed :=
  let owner := fleet.owner t.process
  let started : Exchange :=
    { owner
      account := t.request.account
      generation := t.request.rejected
      contended := s.contended t.request.account owner }
  { s with exchanges := s.exchanges ++ [started] }.setPhase id { t with exchanged := true }
    (.exchanging lease)

def renew (lease : PersistentLease) : System Sealed :=
  match s.store.renewLease lease s.clock fleet.policy.leaseTtl with
  | .error error => s.abort id t (.store (.store error))
  | .ok (false, _, _) => s.abort id t .leaseLost
  | .ok (true, lease, store) => { s with store }.setPhase id t (.exchanging lease)

/-- The exchange ends, and what it brought is stored under the lease. -/
def settle (lease : PersistentLease) (nonce : List UInt8) (reply : Option (Secret × Option Nat)) :
    System Sealed :=
  match reply with
  | none => s.abort id t (.operation .oauth)
  | some (bundle, expiresAtMs) =>
    match s.store.putUnderLease fleet.aead fleet.keys nonce
        (t.request.write t.origin bundle expiresAtMs) lease t.request.requestedAt with
    | .error error => s.abort id t (.operation (.store error))
    | .ok (m, store) =>
      let result : RefreshResult := ⟨m.accountId, m.principalId, m.generation⟩
      let s := { s with store, history := s.history ++ [result] }
      match validateResult t.request result with
      | .error kind => s.abort id t kind
      | .ok () => s.setPhase id t (.publishing lease result)

def publish (lease : PersistentLease) (result : RefreshResult) : System Sealed :=
  match s.store.publish lease result with
  | .error error => s.abort id t (.store error)
  | .ok () => s.setPhase id t (.releasing lease (.ok result))

/-- `record_release`, and the leader's return. -/
def release (lease : PersistentLease) (outcome : SharedResult) : System Sealed :=
  match s.store.releaseLease lease with
  | .ok (_, store) => { s with store }.finish id t outcome
  | .error _ => s.finish id t outcome

/-- A waiter returns with the leader's result, when it is one for its own request too. -/
def receive (result : SharedResult) : System Sealed :=
  s.conclude id t (result.bind (validated t.request))

/-- The task is dropped. Waiters of a leader that is dropped are told. -/
def cancel : System Sealed :=
  if t.phase.leads then (s.closeFlight id t (.error .leaderCancelled)).setTask id none
  else s.setTask id none

def crash (process : Nat) : System Sealed :=
  { s with
    flights := fun p account => if p = process then none else s.flights p account
    tasks := fun i => (s.tasks i).filter fun t => t.process ≠ process }

/-- A credential is stored by someone else than a refresh. -/
def put (nonce : List UInt8) (write : CredentialWrite) : System Sealed :=
  match s.store.putInner fleet.aead fleet.keys nonce write none none with
  | .ok (m, store) =>
    { s with store, history := s.history ++ [⟨m.accountId, m.principalId, m.generation⟩] }
  | .error _ => s

/-- A step of the task with the given number; a step it is not ready for does nothing. -/
def taskStep : Event → System Sealed
  | .acquire _ => match t.phase with
    | .acquiring now handoffs => s.acquire fleet id t now handoffs
    | _ => s
  | .poll _ => match t.phase with
    | .waiting leaseExpiresAt handoffs => s.poll id t leaseExpiresAt handoffs
    | _ => s
  | .load _ => match t.phase with
    | .loading lease => s.load fleet id t lease
    | _ => s
  | .exchange _ => match t.phase with
    | .loaded lease => s.exchange fleet id t lease
    | _ => s
  | .renew _ => match t.phase with
    | .exchanging lease => s.renew fleet id t lease
    | _ => s
  | .settle _ nonce reply => match t.phase with
    | .exchanging lease => s.settle fleet id t lease nonce reply
    | _ => s
  | .publish _ => match t.phase with
    | .publishing lease result => s.publish id t lease result
    | _ => s
  | .release _ => match t.phase with
    | .releasing lease outcome => s.release id t lease outcome
    | _ => s
  | .receive _ => match t.phase with
    | .answered result => s.receive id t result
    | _ => s
  | .fail _ kind => match t.phase with
    | .joined _ | .answered _ | .releasing .. => s
    | _ => s.abort id t kind
  | .cancel _ => s.cancel id t
  | _ => s

end System

/-- The task whose step an event is. -/
def Event.task : Event → Option Nat
  | .acquire id | .poll id | .load id | .exchange id | .renew id | .settle id .. | .publish id
  | .release id | .receive id | .fail id _ | .cancel id => some id
  | _ => none

namespace System

def step (fleet : Fleet Sealed) (s : System Sealed) (event : Event) : System Sealed :=
  match event with
  | .tick now => { s with clock := max s.clock now }
  | .call id process request origin => s.call fleet id process request origin
  | .crash process => s.crash process
  | .put nonce write => s.put fleet nonce write
  | .delete account => { s with store := s.store.delete account }
  | event =>
    match event.task with
    | some id =>
      match s.tasks id with
      | some t => s.taskStep fleet id t event
      | none => s
    | none => s

def run (fleet : Fleet Sealed) (s : System Sealed) (events : List Event) : System Sealed :=
  events.foldl (step fleet) s

/-- No task runs yet, whatever earlier processes left in the store. -/
def start (clock : Nat) (store : Store Sealed) : System Sealed where
  clock := clock
  store := store
  flights := fun _ _ => none
  tasks := fun _ => none
  history := store.credentials.map fun p => ⟨p.1, p.2.metadata.principalId, p.2.metadata.generation⟩
  exchanges := []
  finished := []

end System

/-! ## Single flight -/

/-- What a call that returned must be: a success is for the request and names a newer generation that
was stored, and a call that found its generation superseded succeeded without an exchange. -/
structure Finished.Sound (history : List RefreshResult) (f : Finished) : Prop where
  success : ∀ result, f.outcome = .ok result → result.account = f.request.account ∧
    result.principal = f.request.principal ∧ f.request.rejected < result.generation ∧
    result ∈ history
  superseded : f.superseded = true → (∃ result, f.outcome = .ok result) ∧ f.exchanged = false

structure System.SingleFlight (s : System Sealed) : Prop where
  exclusive : ∀ e ∈ s.exchanges, e.contended = false
  returned : ∀ f ∈ s.finished, f.Sound s.history

/-- The steps after which a refresh is single flight: an exchange starts before its lease runs out, no
account is deleted under an unexpired lease of a running refresh, and no leader loads a generation that
supersedes the one it rejects. -/
def Event.Fit (s : System Sealed) : Event → Prop
  | .exchange id => ∀ t lease, s.tasks id = some t → t.phase = .loaded lease →
    s.clock < lease.expiresAtMs
  | .delete account => ∀ id t lease, s.tasks id = some t → t.phase.lease = some lease →
    lease.accountId = account → lease.expiresAtMs ≤ s.clock
  | .load id => ∀ t lease m, s.tasks id = some t → t.phase = .loading lease →
    s.store.metadata t.request.account = some m → t.request.superseded m = false
  | _ => True

/-- Every step of the run is fit where it comes. -/
def System.FitRun (fleet : Fleet Sealed) (s : System Sealed) : List Event → Prop
  | [] => True
  | event :: events => event.Fit s ∧ FitRun fleet (s.step fleet event) events

end OhMyPi.Credentials
