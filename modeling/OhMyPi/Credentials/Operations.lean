import OhMyPi.Credentials.Store

/-! The operations of the credential store as one alphabet: what each answers, and everything it can
do to the tables. -/

namespace OhMyPi.Credentials

variable {Sealed : Type}

/-! ## What a successful operation did -/

theorem unixMs_eq_ok {time : Int} {nowMs : Nat} (h : unixMs time = .ok nowMs) :
    nowMs = time.toNat := by
  rw [unixMs, Except.ite_error_eq_ok] at h
  obtain ⟨_, h⟩ := h
  split at h
  · cases h
    rfl
  · cases h

namespace Store

variable {store store' : Store Sealed} {accountId kind owner : String} {now : Int} {ttl : Nat}

theorem setLease_eq_ok {epoch expiresAtMs : Nat} {outcome : LeaseOutcome}
    (h : store.setLease accountId kind owner epoch expiresAtMs = .ok (outcome, store')) :
    outcome = .acquired { accountId, kind, owner, epoch, expiresAtMs } ∧
      store' = store.writeLease accountId kind { owner, epoch, expiresAtMs } := by
  rw [setLease, Except.unit_bind_eq_ok, Except.unit_bind_eq_ok, Except.pure_eq_ok] at h
  obtain ⟨_, _, heq⟩ := h
  cases heq
  exact ⟨rfl, rfl⟩

/-- An attempt reports the holder and changes nothing, or sets the row to the next epoch. -/
theorem tryAcquireLease_eq_ok {outcome : LeaseOutcome}
    (h : store.tryAcquireLease accountId kind owner now ttl = .ok (outcome, store')) :
    ((∃ o e t, outcome = .held o e t) ∧ store' = store) ∨
      (store.lease accountId kind).filter (heldByPeer owner now.toNat) = none ∧
        ∃ expiresAtMs, outcome = .acquired
            { accountId, kind, owner, epoch := store.nextEpoch accountId kind, expiresAtMs } ∧
          store' = store.writeLease accountId kind
            { owner, epoch := store.nextEpoch accountId kind, expiresAtMs } := by
  rw [tryAcquireLease, Except.bind_eq_ok] at h
  obtain ⟨nowMs, hnow, h⟩ := h
  rw [Except.bind_eq_ok] at h
  obtain ⟨expiresAtMs, _, h⟩ := h
  rw [Except.ite_throw_eq_ok] at h
  obtain ⟨_, h⟩ := h
  rw [grantLease] at h
  split at h
  · next held _ =>
    cases h
    exact .inl ⟨⟨_, _, _, rfl⟩, rfl⟩
  · next hfree =>
    split at h
    · rw [unixMs_eq_ok hnow] at hfree
      exact .inr ⟨hfree, expiresAtMs, setLease_eq_ok h⟩
    · cases h

theorem renewLease_eq_ok {lease lease' : PersistentLease} {renewed : Bool}
    (h : store.renewLease lease now ttl = .ok (renewed, lease', store')) :
    (renewed = false ∧ store' = store) ∨
      (renewed = true ∧ store.matchesLease lease = true ∧ ∃ expiresAtMs,
        store' = store.writeLease lease.accountId lease.kind
          { owner := lease.owner, epoch := lease.epoch, expiresAtMs }) := by
  rw [renewLease, Except.bind_eq_ok] at h
  obtain ⟨nowMs, _, h⟩ := h
  rw [Except.bind_eq_ok] at h
  obtain ⟨expiresAtMs, _, h⟩ := h
  rw [Except.unit_bind_eq_ok, Except.unit_bind_eq_ok, Except.unit_bind_eq_ok,
    Except.pure_eq_ok] at h
  obtain ⟨_, _, _, h⟩ := h
  split at h
  · next howns =>
    cases h
    refine .inr ⟨rfl, ?_, expiresAtMs, rfl⟩
    rw [ownsLease] at howns
    rw [matchesLease]
    cases hrow : store.lease lease.accountId lease.kind with
    | none => simp [hrow] at howns
    | some held => simp_all
  · cases h
    exact .inl ⟨rfl, rfl⟩

theorem releaseLease_eq_ok {lease : PersistentLease} {released : Bool}
    (h : store.releaseLease lease = .ok (released, store')) :
    (released = false ∧ store' = store) ∨
      (released = true ∧ store.matchesLease lease = true ∧
        store' = store.eraseLease lease.accountId lease.kind) := by
  rw [releaseLease, Except.unit_bind_eq_ok, Except.pure_eq_ok] at h
  obtain ⟨_, h⟩ := h
  split at h
  · next hmatch =>
    cases h
    exact .inr ⟨rfl, hmatch, rfl⟩
  · cases h
    exact .inl ⟨rfl, rfl⟩

theorem recordImport_eq_ok {m : CredentialMetadata} {audit : Option AuditEvidence}
    (h : store.recordImport m audit = .ok store') :
    store'.credentials = store.credentials ∧ store'.leases = store.leases ∧
      store'.revealAudit = store.revealAudit := by
  cases audit with
  | none =>
    cases h
    exact ⟨rfl, rfl, rfl⟩
  | some audit =>
    rw [recordImport, Except.ite_throw_eq_ok, Except.unit_bind_eq_ok, Except.unit_bind_eq_ok,
      Except.unit_bind_eq_ok, Except.ite_throw_eq_ok, Except.pure_eq_ok] at h
    obtain ⟨_, _, _, _, _, rfl⟩ := h
    exact ⟨rfl, rfl, rfl⟩

variable {aead : Aead Sealed} {keys : KeySource} {nonce : List UInt8} {write : CredentialWrite}

/-- What a successful write did: it held its lease, met its conditions, and set the row. -/
structure Wrote (store : Store Sealed) (aead : Aead Sealed) (write : CredentialWrite) (m : CredentialMetadata)
    (store' : Store Sealed) : Prop where
  admitted : write.admits (store.credential write.accountId) = .ok ()
  stamped : ∃ generation, nextGeneration (store.credential write.accountId) = .ok generation ∧
    m = write.stamp (store.credential write.accountId) generation
  row : ∃ key nonce, store'.credentials = KeyedList.assign write.accountId
    { metadata := m, blob := encrypt aead key nonce m write.secret } store.credentials
  leases : store'.leases = store.leases
  revealAudit : store'.revealAudit = store.revealAudit

theorem putInner_eq_ok {lease : Option (PersistentLease × Nat)} {audit : Option AuditEvidence}
    {m : CredentialMetadata}
    (h : store.putInner aead keys nonce write lease audit = .ok (m, store')) :
    store.checkLease lease = .ok () ∧ store.Wrote aead write m store' := by
  rw [putInner, Except.ite_throw_eq_ok, Except.bind_eq_ok] at h
  obtain ⟨_, key, _, h⟩ := h
  rw [Except.unit_bind_eq_ok, Except.unit_bind_eq_ok, Except.bind_eq_ok] at h
  obtain ⟨hlease, hadmits, generation, hgeneration, h⟩ := h
  rw [Except.unit_bind_eq_ok, Except.bind_eq_ok] at h
  obtain ⟨_, recorded, hrecorded, h⟩ := h
  rw [Except.pure_eq_ok] at h
  cases h
  obtain ⟨hcredentials, hleases, hreveal⟩ := recordImport_eq_ok hrecorded
  exact ⟨hlease, hadmits, ⟨generation, hgeneration, rfl⟩, ⟨key, nonce, hcredentials⟩,
    hleases, hreveal⟩

theorem matchesLease_of_checkLease {lease : PersistentLease} {nowMs : Nat}
    (h : store.checkLease (some (lease, nowMs)) = .ok ()) : store.matchesLease lease = true := by
  rw [checkLease, Except.unit_bind_eq_ok, Except.unit_bind_eq_ok] at h
  obtain ⟨_, _, h⟩ := h
  split at h
  · next howns =>
    rw [ownsLease] at howns
    rw [matchesLease]
    cases hrow : store.lease lease.accountId lease.kind with
    | none => simp [hrow] at howns
    | some held => simp_all
  · cases h

theorem putUnderLease_eq_ok {lease : PersistentLease} {m : CredentialMetadata}
    (h : store.putUnderLease aead keys nonce write lease now = .ok (m, store')) :
    store.matchesLease lease = true ∧ store.Wrote aead write m store' := by
  rw [putUnderLease, Except.ite_throw_eq_ok, Except.bind_eq_ok] at h
  obtain ⟨_, nowMs, _, h⟩ := h
  obtain ⟨hlease, hwrote⟩ := putInner_eq_ok h
  exact ⟨matchesLease_of_checkLease hlease, hwrote⟩

end Store

theorem Store.credential_delete_eq_some {store : Store Sealed} {accountId accountId' : String}
    {row : CredentialRow Sealed} (h : (store.delete accountId).credential accountId' = some row) :
    store.credential accountId' = some row := by
  by_cases hkey : accountId' = accountId
  · rw [hkey, Store.credential_delete_self] at h
    cases h
  · rwa [Store.credential_delete_ne hkey] at h

namespace Store.Wrote

variable {store store' : Store Sealed} {write : CredentialWrite} {m : CredentialMetadata}
  {aead : Aead Sealed}

theorem accountId_eq (h : store.Wrote aead write m store') : m.accountId = write.accountId := by
  obtain ⟨generation, _, rfl⟩ := h.stamped
  rfl

theorem credential_self (h : store.Wrote aead write m store') :
    ∃ row, store'.credential write.accountId = some row ∧ row.metadata = m := by
  obtain ⟨key, nonce, hrow⟩ := h.row
  refine ⟨{ metadata := m, blob := encrypt aead key nonce m write.secret }, ?_, rfl⟩
  rw [Store.credential, hrow]
  exact KeyedList.first_assign_self ..

theorem credential_ne (h : store.Wrote aead write m store') {accountId : String}
    (hne : accountId ≠ write.accountId) : store'.credential accountId = store.credential accountId := by
  obtain ⟨key, nonce, hrow⟩ := h.row
  rw [Store.credential, hrow]
  exact KeyedList.first_assign_ne hne ..

/-- A write over a row takes the next generation. -/
theorem generation_lt (h : store.Wrote aead write m store') {row : CredentialRow Sealed}
    (hrow : store.credential write.accountId = some row) :
    row.metadata.generation < m.generation := by
  obtain ⟨generation, hnext, rfl⟩ := h.stamped
  rw [hrow, nextGeneration] at hnext
  split at hnext
  · cases hnext
    exact Nat.lt_succ_self _
  · cases hnext

end Store.Wrote

theorem Store.matchesLease_iff {store : Store Sealed} {lease : PersistentLease} :
    store.matchesLease lease = true ↔ ∃ held, store.lease lease.accountId lease.kind = some held ∧
      held.owner = lease.owner ∧ held.epoch = lease.epoch := by
  rw [matchesLease]
  cases store.lease lease.accountId lease.kind <;> simp

theorem CredentialWrite.admits_expected {write : CredentialWrite}
    {previous : Option (CredentialRow Sealed)} {generation : Nat}
    (h : write.admits previous = .ok ()) (hexpected : write.expectedGeneration = some generation) :
    ∃ row, previous = some row ∧ row.metadata.generation = generation := by
  rw [admits, Except.ite_error_eq_ok, Except.ite_error_eq_ok, hexpected] at h
  obtain ⟨_, hne, _⟩ := h
  cases previous with
  | none => simp at hne
  | some row =>
    refine ⟨row, rfl, ?_⟩
    by_contra hother
    exact hne (by simpa using Ne.symm hother)

/-! ## Operations -/

/-- One operation of one process, with the clock reading, the keys and the nonce it works with. -/
inductive Op where
  | acquire (accountId kind owner : String) (now : Int) (ttl : Nat)
  | renew (lease : PersistentLease) (now : Int) (ttl : Nat)
  | release (lease : PersistentLease)
  | delete (accountId : String)
  | put (keys : KeySource) (nonce : List UInt8) (write : CredentialWrite)
    (audit : Option AuditEvidence)
  | putUnderLease (keys : KeySource) (nonce : List UInt8) (write : CredentialWrite)
    (lease : PersistentLease) (now : Int)

/-- What an operation answered. -/
inductive Answer where
  | acquired (lease : PersistentLease)
  | held
  | renewed
  | released
  | deleted
  | stored (m : CredentialMetadata)
  | refused
deriving DecidableEq, Repr

def LeaseOutcome.answer : LeaseOutcome → Answer
  | .acquired lease => .acquired lease
  | .held .. => .held

/-- The operation on the tables it finds; one that fails is refused and leaves them. -/
def Op.perform (aead : Aead Sealed) (store : Store Sealed) : Op → Answer × Store Sealed
  | .acquire accountId kind owner now ttl =>
    match store.tryAcquireLease accountId kind owner now ttl with
    | .ok (outcome, store) => (outcome.answer, store)
    | .error _ => (.refused, store)
  | .renew lease now ttl =>
    match store.renewLease lease now ttl with
    | .ok (true, _, store) => (.renewed, store)
    | .ok (false, _, _) | .error _ => (.refused, store)
  | .release lease =>
    match store.releaseLease lease with
    | .ok (true, store) => (.released, store)
    | .ok (false, _) | .error _ => (.refused, store)
  | .delete accountId => (.deleted, store.delete accountId)
  | .put keys nonce write audit =>
    match store.putInner aead keys nonce write none audit with
    | .ok (m, store) => (.stored m, store)
    | .error _ => (.refused, store)
  | .putUnderLease keys nonce write lease now =>
    match store.putUnderLease aead keys nonce write lease now with
    | .ok (m, store) => (.stored m, store)
    | .error _ => (.refused, store)

def Answer.grants : Answer → List PersistentLease
  | .acquired lease => [lease]
  | _ => []

def Answer.storedCredentials : Answer → List CredentialMetadata
  | .stored m => [m]
  | _ => []

/-- The lease an operation acts under. -/
def Op.lease? : Op → Option PersistentLease
  | .renew lease .. | .release lease | .putUnderLease _ _ _ lease _ => some lease
  | _ => none

/-- The credential an operation writes. -/
def Op.write? : Op → Option CredentialWrite
  | .put _ _ write _ | .putUnderLease _ _ write .. => some write
  | _ => none

/-- A login stored for the account, as an interactive source stores it. -/
def login (secret : Secret) (expectedGeneration : Option Nat) : Op :=
  let write : CredentialWrite :=
    { accountId := "work", principalId := "ada", kind := "oauth", secret
      expiresAtMs := none, origin := .persistent, nowMs := 10, expectedGeneration }
  .put soleKey [] write none

/-! ## What an operation can do -/

/-- Everything an operation can answer and do to the tables. -/
inductive Op.Effect (aead : Aead Sealed) (store : Store Sealed) :
    Op → Answer → Store Sealed → Prop where
  | held : Effect aead store (.acquire accountId kind owner now ttl) .held store
  | refused : Effect aead store op .refused store
  | acquire (expiresAtMs : Nat)
      (hfree : (store.lease accountId kind).filter
        (Store.heldByPeer owner now.toNat) = none) :
      Effect aead store (.acquire accountId kind owner now ttl)
        (.acquired
          { accountId, kind, owner, epoch := store.nextEpoch accountId kind, expiresAtMs })
        (store.writeLease accountId kind
          { owner, epoch := store.nextEpoch accountId kind, expiresAtMs })
  | renew (expiresAtMs : Nat) (hmatch : store.matchesLease lease = true) :
      Effect aead store (.renew lease now ttl) .renewed
        (store.writeLease lease.accountId lease.kind
          { owner := lease.owner, epoch := lease.epoch, expiresAtMs })
  | release (hmatch : store.matchesLease lease = true) :
      Effect aead store (.release lease) .released (store.eraseLease lease.accountId lease.kind)
  | delete : Effect aead store (.delete accountId) .deleted (store.delete accountId)
  | write (hwrite : op.write? = some write)
      (hlease : ∀ lease, op.lease? = some lease → store.matchesLease lease = true)
      (hwrote : store.Wrote aead write m store') : Effect aead store op (.stored m) store'

theorem Op.perform_effect (aead : Aead Sealed) (store : Store Sealed) (op : Op) :
    op.Effect aead store (op.perform aead store).1 (op.perform aead store).2 := by
  cases op with
  | acquire accountId kind owner now ttl =>
    rw [Op.perform]
    cases hok : store.tryAcquireLease accountId kind owner now ttl with
    | error e => exact .refused
    | ok result =>
      obtain ⟨outcome, store'⟩ := result
      obtain ⟨⟨o, e, t, rfl⟩, rfl⟩ | ⟨hfree, expiresAtMs, rfl, rfl⟩ :=
        Store.tryAcquireLease_eq_ok hok
      · exact .held
      · exact .acquire expiresAtMs hfree
  | renew lease now ttl =>
    rw [Op.perform]
    cases hok : store.renewLease lease now ttl with
    | error e => exact .refused
    | ok result =>
      obtain ⟨renewed, lease', store'⟩ := result
      obtain ⟨rfl, rfl⟩ | ⟨rfl, hmatch, expiresAtMs, rfl⟩ := Store.renewLease_eq_ok hok
      · exact .refused
      · exact .renew expiresAtMs hmatch
  | release lease =>
    rw [Op.perform]
    cases hok : store.releaseLease lease with
    | error e => exact .refused
    | ok result =>
      obtain ⟨released, store'⟩ := result
      obtain ⟨rfl, rfl⟩ | ⟨rfl, hmatch, rfl⟩ := Store.releaseLease_eq_ok hok
      · exact .refused
      · exact .release hmatch
  | delete accountId => exact .delete
  | put keys nonce write audit =>
    rw [Op.perform]
    cases hok : store.putInner aead keys nonce write none audit with
    | error e => exact .refused
    | ok result =>
      refine .write rfl (fun lease hlease => ?_) (Store.putInner_eq_ok hok).2
      cases hlease
  | putUnderLease keys nonce write lease now =>
    rw [Op.perform]
    cases hok : store.putUnderLease aead keys nonce write lease now with
    | error e => exact .refused
    | ok result =>
      obtain ⟨hmatch, hwrote⟩ := Store.putUnderLease_eq_ok hok
      refine .write rfl (fun held hheld => ?_) hwrote
      cases hheld
      exact hmatch

namespace Op

variable {aead : Aead Sealed} {store : Store Sealed} {op : Op}

/-- What succeeds under a lease finds its token in the row. -/
theorem matchesLease_of_perform {lease : PersistentLease} (hlease : op.lease? = some lease)
    (h : (op.perform aead store).1 ≠ .refused) : store.matchesLease lease = true := by
  have heffect := op.perform_effect aead store
  generalize op.perform aead store = result at h heffect
  obtain ⟨answer, after⟩ := result
  cases heffect with
  | refused => exact absurd rfl h
  | held | acquire | delete => cases hlease
  | renew expiresAtMs hmatch => cases hlease; exact hmatch
  | release hmatch => cases hlease; exact hmatch
  | write hwrite hmatch hwrote => exact hmatch lease hlease

/-- A write that is not refused sets its row. -/
theorem wrote_of_perform {write : CredentialWrite} (hwrite : op.write? = some write)
    (h : (op.perform aead store).1 ≠ .refused) :
    ∃ m store', op.perform aead store = (.stored m, store') ∧ store.Wrote aead write m store' := by
  have heffect := op.perform_effect aead store
  generalize op.perform aead store = result at h heffect
  obtain ⟨answer, after⟩ := result
  cases heffect with
  | refused => exact absurd rfl h
  | held | acquire | delete | renew | release => cases hwrite
  | write hwrite' hlease hwrote =>
    cases hwrite.symm.trans hwrite'
    exact ⟨_, _, rfl, hwrote⟩

end Op

end OhMyPi.Credentials
