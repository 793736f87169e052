import Mathlib.Algebra.Order.Ring.Int
import OhMyPi.Lib.Except
import OhMyPi.Lib.KeyedList

/-! The credential store: one row for each account, sealed under an authenticated cipher, and the
leases that processes take on an account. Every operation is one SQLite transaction, so it is a
function of the tables it finds; an operation that fails leaves them as they were. -/

namespace OhMyPi.Credentials

/-! ## Clocks and integers -/

/-- The errors of the store that the modelled operations raise. -/
inductive StoreError where
  | database
  | notFound
  | generationConflict
  | principalChanged
  | leaseLost
  | counterExhausted
  | ephemeralCredential
  | key
  | crypto
  | invalidTime
  | invalidRevealAudit
  | invalidImportAudit
  | revealAuditConflict
deriving DecidableEq, Repr

/-- Binding an unsigned value to a statement: SQLite stores signed integers of 64 bits. -/
def sqlInt (n : Nat) : Except StoreError Unit :=
  if n < 2 ^ 63 then .ok () else .error .database

/-- `unix_ms`. A clock reading is given in milliseconds from the Unix epoch. -/
def unixMs (time : Int) : Except StoreError Nat :=
  if time < 0 then .error .invalidTime
  else if time.toNat < 2 ^ 64 then .ok time.toNat
  else .error .invalidTime

/-- The end of a lease taken at `nowMs`. -/
def expiry (nowMs ttl : Nat) : Except StoreError Nat :=
  if ttl < 2 ^ 64 ∧ nowMs + ttl < 2 ^ 64 then .ok (nowMs + ttl) else .error .invalidTime

/-! ## Rows -/

structure CredentialMetadata where
  accountId : String
  principalId : String
  kind : String
  generation : Nat
  createdAtMs : Nat
  updatedAtMs : Nat
  expiresAtMs : Option Nat
deriving DecidableEq, Repr

/-- `SecretContext`, authenticated with a ciphertext: the seven fields of the metadata. -/
abbrev SecretContext := CredentialMetadata

abbrev Secret := List UInt8

structure EncryptionKey where
  id : String
  bytes : List UInt8
deriving DecidableEq, Repr

/-- A sealed secret with the key it is sealed under; `Sealed` are the ciphertexts. -/
structure EncryptedBlob (Sealed : Type) where
  keyId : String
  nonce : List UInt8
  ciphertext : Sealed
deriving DecidableEq, Repr

/-- The authenticated cipher: a ciphertext opens only under the key, nonce and context it was sealed
under, and then to what was sealed. -/
structure Aead (Sealed : Type) where
  sealBytes : List UInt8 → List UInt8 → SecretContext → Secret → Sealed
  openBytes : List UInt8 → List UInt8 → SecretContext → Sealed → Option Secret
  openBytes_sealBytes : ∀ key nonce context secret,
    openBytes key nonce context (sealBytes key nonce context secret) = some secret
  authentic : ∀ key nonce context ciphertext secret,
    openBytes key nonce context ciphertext = some secret →
      ciphertext = sealBytes key nonce context secret
  bound : ∀ key nonce context secret key' nonce' context' secret',
    sealBytes key nonce context secret = sealBytes key' nonce' context' secret' →
      context = context' ∧ secret = secret'

/-- The ideal cipher, whose ciphertexts carry what they were sealed with. -/
def idealAead : Aead (List UInt8 × List UInt8 × SecretContext × Secret) where
  sealBytes key nonce context secret := (key, nonce, context, secret)
  openBytes key nonce context ciphertext :=
    if (key, nonce, context) = (ciphertext.1, ciphertext.2.1, ciphertext.2.2.1) then
      some ciphertext.2.2.2
    else none
  openBytes_sealBytes _ _ _ _ := if_pos rfl
  authentic key nonce context ciphertext secret h := by
    split at h
    · next heq =>
      cases heq
      cases h
      rfl
    · cases h
  bound _ _ _ _ _ _ _ _ h := by cases h; exact ⟨rfl, rfl⟩

variable {Sealed : Type}

/-- `KeySource`. -/
structure KeySource where
  activeKey : Except StoreError EncryptionKey
  key : String → Except StoreError EncryptionKey

/-- A key source with one key. -/
def soleKey : KeySource where
  activeKey := .ok { id := "k1", bytes := [] }
  key id := if id = "k1" then .ok { id := "k1", bytes := [] } else .error .key

def encrypt (aead : Aead Sealed) (key : EncryptionKey) (nonce : List UInt8) (context : SecretContext)
    (plaintext : Secret) : EncryptedBlob Sealed :=
  { keyId := key.id, nonce, ciphertext := aead.sealBytes key.bytes nonce context plaintext }

def decrypt (aead : Aead Sealed) (key : EncryptionKey) (context : SecretContext) (blob : EncryptedBlob Sealed) :
    Except StoreError Secret :=
  if blob.keyId ≠ key.id then .error .crypto
  else
    match aead.openBytes key.bytes blob.nonce context blob.ciphertext with
    | some secret => .ok secret
    | none => .error .crypto

/-- A row of `credentials`. -/
structure CredentialRow (Sealed : Type) where
  metadata : CredentialMetadata
  blob : EncryptedBlob Sealed
deriving DecidableEq, Repr

/-- The values of a row of `leases`; account and kind are its key. -/
structure LeaseRow where
  owner : String
  epoch : Nat
  expiresAtMs : Nat
deriving DecidableEq, Repr

/-- The evidence an extension's request carries, for a reveal or an import. -/
structure AuditEvidence where
  extension : String
  callerPrincipal : String
  provider : String
  hostGeneration : Nat
  sessionGeneration : Nat
  requestId : Nat
  reason : String
deriving DecidableEq, Repr

/-- The key of both audit tables. -/
abbrev RequestKey := String × Nat × Nat

def AuditEvidence.request (audit : AuditEvidence) : RequestKey :=
  (audit.extension, audit.hostGeneration, audit.requestId)

/-- The evidence is refused when it leaves a binding empty. -/
def AuditEvidence.isIncomplete (audit : AuditEvidence) : Bool :=
  audit.extension.isEmpty || audit.callerPrincipal.isEmpty || audit.provider.isEmpty ||
    audit.reason.isEmpty

/-- A row of an audit table. -/
structure AuditRow where
  evidence : AuditEvidence
  accountId : String
  credentialPrincipal : String
  credentialGeneration : Nat
  observedAtMs : Nat
deriving DecidableEq, Repr

structure Store (Sealed : Type) where
  credentials : List (String × CredentialRow Sealed)
  leases : List ((String × String) × LeaseRow)
  revealAudit : List (RequestKey × AuditRow)
  importAudit : List (RequestKey × AuditRow)
deriving DecidableEq, Repr

namespace Store

/-- The tables as `migrate` creates them. -/
def empty : Store Sealed := { credentials := [], leases := [], revealAudit := [], importAudit := [] }

def credential (store : Store Sealed) (accountId : String) : Option (CredentialRow Sealed) :=
  KeyedList.first accountId store.credentials

def lease (store : Store Sealed) (accountId kind : String) : Option LeaseRow :=
  KeyedList.first (accountId, kind) store.leases

/-- `CredentialStore::metadata`. -/
def metadata (store : Store Sealed) (accountId : String) : Option CredentialMetadata :=
  (store.credential accountId).map (·.metadata)

end Store

/-! ## Leases -/

structure PersistentLease where
  accountId : String
  kind : String
  owner : String
  epoch : Nat
  expiresAtMs : Nat
deriving DecidableEq, Repr

inductive LeaseOutcome where
  | acquired (lease : PersistentLease)
  | held (owner : String) (epoch expiresAtMs : Nat)
deriving DecidableEq, Repr

namespace Store

/-- The upsert of a lease row. -/
def writeLease (store : Store Sealed) (accountId kind : String) (row : LeaseRow) : Store Sealed :=
  { store with leases := KeyedList.assign (accountId, kind) row store.leases }

def setLease (store : Store Sealed) (accountId kind owner : String) (epoch expiresAtMs : Nat) :
    Except StoreError (LeaseOutcome × Store Sealed) := do
  sqlInt epoch
  sqlInt expiresAtMs
  pure (.acquired { accountId, kind, owner, epoch, expiresAtMs },
    store.writeLease accountId kind { owner, epoch, expiresAtMs })

/-- The epoch of the next acquisition: one more than the row's, and one when there is no row. -/
def nextEpoch (store : Store Sealed) (accountId kind : String) : Nat :=
  match store.lease accountId kind with
  | none => 1
  | some held => held.epoch + 1

/-- The lease is another owner's and has not run out. -/
def heldByPeer (owner : String) (nowMs : Nat) (held : LeaseRow) : Bool :=
  held.expiresAtMs > nowMs && held.owner != owner

def grantLease (store : Store Sealed) (accountId kind owner : String) (nowMs expiresAtMs : Nat) :
    Except StoreError (LeaseOutcome × Store Sealed) :=
  match (store.lease accountId kind).filter (heldByPeer owner nowMs) with
  | some held => .ok (.held held.owner held.epoch held.expiresAtMs, store)
  | none =>
    if store.nextEpoch accountId kind < 2 ^ 64 then
      store.setLease accountId kind owner (store.nextEpoch accountId kind) expiresAtMs
    else .error .counterExhausted

def tryAcquireLease (store : Store Sealed) (accountId kind owner : String) (now : Int) (ttl : Nat) :
    Except StoreError (LeaseOutcome × Store Sealed) := do
  let nowMs ← unixMs now
  let expiresAtMs ← expiry nowMs ttl
  if (store.credential accountId).isNone then throw .notFound
  store.grantLease accountId kind owner nowMs expiresAtMs

/-- The row carries the owner and the epoch of the lease. -/
def matchesLease (store : Store Sealed) (lease : PersistentLease) : Bool :=
  match store.lease lease.accountId lease.kind with
  | none => false
  | some held => held.owner == lease.owner && held.epoch == lease.epoch

/-- The row carries the owner and the epoch of the lease and has not run out. -/
def ownsLease (store : Store Sealed) (lease : PersistentLease) (nowMs : Nat) : Bool :=
  match store.lease lease.accountId lease.kind with
  | none => false
  | some held =>
    held.owner == lease.owner && held.epoch == lease.epoch && held.expiresAtMs > nowMs

/-- `renew_lease`: whether a row was changed, and the lease with its new end when one was. -/
def renewLease (store : Store Sealed) (lease : PersistentLease) (now : Int) (ttl : Nat) :
    Except StoreError (Bool × PersistentLease × Store Sealed) := do
  let nowMs ← unixMs now
  let expiresAtMs ← expiry nowMs ttl
  sqlInt lease.epoch
  sqlInt expiresAtMs
  sqlInt nowMs
  pure (if store.ownsLease lease nowMs then
    (true, { lease with expiresAtMs }, store.writeLease lease.accountId lease.kind
      { owner := lease.owner, epoch := lease.epoch, expiresAtMs })
  else (false, lease, store))

def eraseLease (store : Store Sealed) (accountId kind : String) : Store Sealed :=
  { store with leases := KeyedList.remove (accountId, kind) store.leases }

/-- `release_lease`: whether a row was removed. -/
def releaseLease (store : Store Sealed) (lease : PersistentLease) : Except StoreError (Bool × Store Sealed) := do
  sqlInt lease.epoch
  pure (if store.matchesLease lease then
    (true, store.eraseLease lease.accountId lease.kind)
  else (false, store))

end Store

/-! ## Credentials -/

inductive CredentialOrigin where
  | persistent
  | environment
deriving DecidableEq, Repr

structure CredentialWrite where
  accountId : String
  principalId : String
  kind : String
  secret : Secret
  expiresAtMs : Option Nat
  origin : CredentialOrigin
  nowMs : Nat
  expectedGeneration : Option Nat
deriving DecidableEq, Repr

/-- What a write may change in an account: nothing of another principal's, and only from the
generation it expects. -/
def CredentialWrite.admits (write : CredentialWrite) (previous : Option (CredentialRow Sealed)) :
    Except StoreError Unit :=
  if previous.any fun row => row.metadata.principalId != write.principalId then
    .error .principalChanged
  else if write.expectedGeneration.isSome &&
      write.expectedGeneration != previous.map (·.metadata.generation) then
    .error .generationConflict
  else .ok ()

/-- The generation a write receives. -/
def nextGeneration : Option (CredentialRow Sealed) → Except StoreError Nat
  | none => .ok 1
  | some row =>
    if row.metadata.generation + 1 < 2 ^ 64 then .ok (row.metadata.generation + 1)
    else .error .counterExhausted

def CredentialWrite.stamp (write : CredentialWrite) (previous : Option (CredentialRow Sealed))
    (generation : Nat) : CredentialMetadata where
  accountId := write.accountId
  principalId := write.principalId
  kind := write.kind
  generation := generation
  createdAtMs := (previous.map (·.metadata.createdAtMs)).getD write.nowMs
  updatedAtMs := write.nowMs
  expiresAtMs := write.expiresAtMs

/-- The integers of a credential row, bound to its upsert. -/
def CredentialMetadata.bind (m : CredentialMetadata) : Except StoreError Unit := do
  sqlInt m.generation
  sqlInt m.createdAtMs
  sqlInt m.updatedAtMs
  (m.expiresAtMs.map sqlInt).getD (.ok ())

namespace Store

/-- The fence of a leased write. -/
def checkLease (store : Store Sealed) : Option (PersistentLease × Nat) → Except StoreError Unit
  | none => .ok ()
  | some (lease, nowMs) => do
    sqlInt lease.epoch
    sqlInt nowMs
    if store.ownsLease lease nowMs then pure () else throw .leaseLost

/-- The audit row of an import, in the transaction of its write. -/
def recordImport (store : Store Sealed) (m : CredentialMetadata) :
    Option AuditEvidence → Except StoreError (Store Sealed)
  | none => .ok store
  | some audit => do
    if audit.isIncomplete then throw .invalidImportAudit
    sqlInt audit.hostGeneration
    sqlInt audit.sessionGeneration
    sqlInt audit.requestId
    if (KeyedList.first audit.request store.importAudit).isSome then throw .database
    pure { store with
      importAudit := store.importAudit ++ [(audit.request,
        { evidence := audit, accountId := m.accountId, credentialPrincipal := m.principalId,
          credentialGeneration := m.generation, observedAtMs := m.updatedAtMs })] }

/-- The upsert of a credential row. -/
def setCredential (store : Store Sealed) (row : CredentialRow Sealed) : Store Sealed :=
  { store with credentials := KeyedList.assign row.metadata.accountId row store.credentials }

def putInner (aead : Aead Sealed) (keys : KeySource) (nonce : List UInt8) (store : Store Sealed)
    (write : CredentialWrite) (lease : Option (PersistentLease × Nat))
    (audit : Option AuditEvidence) : Except StoreError (CredentialMetadata × Store Sealed) := do
  if write.origin = .environment then throw .ephemeralCredential
  let activeKey ← keys.activeKey
  store.checkLease lease
  let previous := store.credential write.accountId
  write.admits previous
  let generation ← nextGeneration previous
  let stamped := write.stamp previous generation
  stamped.bind
  let store ← (store.setCredential
    { metadata := stamped, blob := encrypt aead activeKey nonce stamped write.secret }).recordImport
      stamped audit
  pure (stamped, store)

def putUnderLease (aead : Aead Sealed) (keys : KeySource) (nonce : List UInt8) (store : Store Sealed)
    (write : CredentialWrite) (lease : PersistentLease) (now : Int) :
    Except StoreError (CredentialMetadata × Store Sealed) := do
  if write.accountId ≠ lease.accountId then throw .leaseLost
  let nowMs ← unixMs now
  store.putInner aead keys nonce write (some (lease, nowMs)) none

/-- `delete`: leases go with the credential they are on, through the foreign key. -/
def delete (store : Store Sealed) (accountId : String) : Store Sealed :=
  if (store.credential accountId).isSome then
    { store with
      credentials := KeyedList.remove accountId store.credentials
      leases := store.leases.filter fun p => p.1.1 != accountId }
  else store

/-- `get`: the row is opened with the key it names. -/
def get (aead : Aead Sealed) (keys : KeySource) (store : Store Sealed) (accountId : String) :
    Except StoreError (CredentialMetadata × Secret) :=
  match store.credential accountId with
  | none => .error .notFound
  | some row => do
    let key ← keys.key row.blob.keyId
    let secret ← decrypt aead key row.metadata row.blob
    pure (row.metadata, secret)

/-- One row of `rotate_keys`; a row already under the active key is left alone. -/
def rotateRow (aead : Aead Sealed) (keys : KeySource) (active : EncryptionKey) (nonce : List UInt8)
    (row : CredentialRow Sealed) : Except StoreError (CredentialRow Sealed) :=
  if row.blob.keyId = active.id then .ok row
  else do
    let oldKey ← keys.key row.blob.keyId
    let secret ← decrypt aead oldKey row.metadata row.blob
    pure { row with blob := encrypt aead active nonce row.metadata secret }

def rotateRows (aead : Aead Sealed) (keys : KeySource) (active : EncryptionKey)
    (nonce : String → List UInt8) :
    List (String × CredentialRow Sealed) → Except StoreError (List (String × CredentialRow Sealed))
  | [] => .ok []
  | (accountId, row) :: rows => do
    let row ← rotateRow aead keys active (nonce accountId) row
    let rows ← rotateRows aead keys active nonce rows
    pure ((accountId, row) :: rows)

/-- `rotate_keys`, with a fresh nonce for each account. -/
def rotateKeys (aead : Aead Sealed) (keys : KeySource) (nonce : String → List UInt8)
    (store : Store Sealed) : Except StoreError (Store Sealed) := do
  let active ← keys.activeKey
  let credentials ← rotateRows aead keys active nonce store.credentials
  pure { store with credentials }

end Store

/-! ## Reading back -/

namespace Store

variable {store : Store Sealed} {accountId kind accountId' kind' : String}

@[simp] theorem lease_writeLease_self (row : LeaseRow) :
    (store.writeLease accountId kind row).lease accountId kind = some row :=
  KeyedList.first_assign_self ..

theorem lease_writeLease_ne (h : (accountId', kind') ≠ (accountId, kind)) (row : LeaseRow) :
    (store.writeLease accountId kind row).lease accountId' kind' = store.lease accountId' kind' :=
  KeyedList.first_assign_ne h ..

@[simp] theorem credential_writeLease (row : LeaseRow) :
    (store.writeLease accountId kind row).credential accountId' = store.credential accountId' := rfl

theorem lease_eraseLease_eq_some {held : LeaseRow}
    (h : (store.eraseLease accountId kind).lease accountId' kind' = some held) :
    store.lease accountId' kind' = some held := by
  by_cases hkey : (accountId', kind') = (accountId, kind)
  · rw [Store.lease, hkey, eraseLease, KeyedList.first_remove_self] at h
    cases h
  · rwa [Store.lease, eraseLease, KeyedList.first_remove_ne hkey] at h

@[simp] theorem credential_eraseLease :
    (store.eraseLease accountId kind).credential accountId' = store.credential accountId' := rfl

theorem credential_delete_self : (store.delete accountId).credential accountId = none := by
  rw [delete]
  split
  · exact KeyedList.first_remove_self ..
  · next h => simpa using h

theorem credential_delete_ne (h : accountId' ≠ accountId) :
    (store.delete accountId).credential accountId' = store.credential accountId' := by
  rw [delete]
  split
  · exact KeyedList.first_remove_ne h ..
  · rfl

theorem revealAudit_delete : (store.delete accountId).revealAudit = store.revealAudit := by
  rw [delete]
  split <;> rfl

theorem lease_delete_eq_some {held : LeaseRow}
    (h : (store.delete accountId).lease accountId' kind' = some held) :
    store.lease accountId' kind' = some held := by
  rw [delete] at h
  split at h
  · by_cases hkey : accountId' = accountId
    · have hnone : KeyedList.first (accountId', kind')
          (store.leases.filter fun p => p.1.1 != accountId) = none := by
        rw [KeyedList.first_eq_none_iff, List.mem_map]
        rintro ⟨p, hp, heq⟩
        simp [heq, hkey] at hp
      rw [Store.lease, hnone] at h
      cases h
    · have hkept : KeyedList.first (accountId', kind')
          (store.leases.filter fun p => p.1.1 != accountId) = store.lease accountId' kind' :=
        KeyedList.first_filter (fun k : String × String => k.1 != accountId) (by simpa using hkey) _
      exact hkept.symm.trans h
  · exact h

end Store

end OhMyPi.Credentials
