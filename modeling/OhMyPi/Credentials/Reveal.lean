import OhMyPi.Credentials.Operations

/-! Audited reveals. A reveal reads the metadata of an account, commits an audit row, and opens the
credential, in three transactions; other processes store, delete and rotate between them. A request
that is made again keeps the audit row it has. -/

namespace OhMyPi.Credentials

variable {Sealed : Type}

/-! ## The three transactions -/

/-- The audit row of a request that has one: it is kept when the request repeats its evidence. -/
def AuditRow.conflicts (existing : AuditRow) (accountId : String) (audit : AuditEvidence) : Bool :=
  existing.accountId != accountId || existing.evidence.callerPrincipal != audit.callerPrincipal ||
    existing.evidence.provider != audit.provider ||
    existing.evidence.sessionGeneration != audit.sessionGeneration ||
    existing.evidence.reason != audit.reason

namespace Store

/-- The row a request without one gets, with the principal and generation read before. -/
def insertReveal (store : Store Sealed) (accountId : String) (audit : AuditEvidence)
    (m : CredentialMetadata) (observedAtMs : Nat) : Except StoreError (Store Sealed) := do
  sqlInt audit.sessionGeneration
  sqlInt m.generation
  sqlInt observedAtMs
  pure { store with
    revealAudit := store.revealAudit ++ [(audit.request,
      { evidence := audit, accountId, credentialPrincipal := m.principalId,
        credentialGeneration := m.generation, observedAtMs })] }

def admitReveal (store : Store Sealed) (accountId : String) (audit : AuditEvidence)
    (m : CredentialMetadata) (observedAtMs : Nat) : Except StoreError (Store Sealed) :=
  match KeyedList.first audit.request store.revealAudit with
  | some existing => if existing.conflicts accountId audit then .error .revealAuditConflict
    else .ok store
  | none => store.insertReveal accountId audit m observedAtMs

/-- The transaction of `with_audited_secret` that commits the evidence. -/
def recordReveal (store : Store Sealed) (accountId : String) (audit : AuditEvidence)
    (m : CredentialMetadata) (now : Int) : Except StoreError (Store Sealed) := do
  let observedAtMs ← unixMs now
  sqlInt audit.hostGeneration
  sqlInt audit.requestId
  store.admitReveal accountId audit m observedAtMs

/-- The last step of `with_audited_secret`: the credential must be of the generation that was
read. -/
def expose (aead : Aead Sealed) (keys : KeySource) (store : Store Sealed) (accountId : String)
    (m : CredentialMetadata) : Except StoreError (CredentialMetadata × Secret) := do
  let stored ← store.get aead keys accountId
  if stored.1.generation ≠ m.generation then throw .generationConflict
  pure stored

end Store

/-! ## Interleavings -/

/-- How far a reveal has come, with the metadata it read. -/
inductive Phase where
  | read (m : CredentialMetadata)
  | audited (m : CredentialMetadata)
  | over
deriving DecidableEq, Repr

structure Reveal where
  accountId : String
  audit : AuditEvidence
  phase : Phase
deriving DecidableEq, Repr

/-- A secret handed to an extension, with the metadata it was opened under. -/
structure Handed where
  audit : AuditEvidence
  accountId : String
  metadata : CredentialMetadata
  secret : Secret
deriving DecidableEq, Repr

/-- The store, the reveals under way, what was handed out, and every credential written so far. -/
structure World (Sealed : Type) where
  store : Store Sealed
  reveals : List Reveal
  handed : List Handed
  written : List (CredentialMetadata × Secret)
deriving DecidableEq, Repr

/-- One transaction of some process; a reveal is named by its place among the reveals. -/
inductive Move where
  | op (op : Op)
  | rotate (keys : KeySource) (nonce : String → List UInt8)
  | ask (accountId : String) (audit : AuditEvidence)
  | record (reveal : Nat) (now : Int)
  | expose (reveal : Nat) (keys : KeySource)

/-- The credential an operation wrote. -/
def Op.written (op : Op) : Answer → List (CredentialMetadata × Secret)
  | .stored m => op.write?.toList.map fun write => (m, write.secret)
  | _ => []

namespace World

def start : World Sealed := { store := .empty, reveals := [], handed := [], written := [] }

def perform (aead : Aead Sealed) (world : World Sealed) (op : Op) : World Sealed :=
  let (answer, store) := op.perform aead world.store
  { world with store, written := op.written answer ++ world.written }

def rotate (aead : Aead Sealed) (world : World Sealed) (keys : KeySource)
    (nonce : String → List UInt8) : World Sealed :=
  match world.store.rotateKeys aead keys nonce with
  | .ok store => { world with store }
  | .error _ => world

/-- The evidence is checked and the metadata read. -/
def ask (world : World Sealed) (accountId : String) (audit : AuditEvidence) : World Sealed :=
  match (world.store.metadata accountId).filter fun _ => !audit.isIncomplete with
  | some m => { world with reveals := world.reveals ++ [{ accountId, audit, phase := .read m }] }
  | none => world

def setPhase (world : World Sealed) (i : Nat) (reveal : Reveal) (phase : Phase) : World Sealed :=
  { world with reveals := world.reveals.set i { reveal with phase } }

def record (world : World Sealed) (i : Nat) (now : Int) : World Sealed :=
  match world.reveals[i]? with
  | some ⟨accountId, audit, .read m⟩ =>
    match world.store.recordReveal accountId audit m now with
    | .ok store => { world.setPhase i ⟨accountId, audit, .read m⟩ (.audited m) with store }
    | .error _ => world.setPhase i ⟨accountId, audit, .read m⟩ .over
  | _ => world

def expose (aead : Aead Sealed) (world : World Sealed) (i : Nat) (keys : KeySource) :
    World Sealed :=
  match world.reveals[i]? with
  | some ⟨accountId, audit, .audited m⟩ =>
    match world.store.expose aead keys accountId m with
    | .ok (metadata, secret) =>
      { world.setPhase i ⟨accountId, audit, .audited m⟩ .over with
        handed := { audit, accountId, metadata, secret } :: world.handed }
    | .error _ => world.setPhase i ⟨accountId, audit, .audited m⟩ .over
  | _ => world

def step (aead : Aead Sealed) (world : World Sealed) : Move → World Sealed
  | .op op => world.perform aead op
  | .rotate keys nonce => world.rotate aead keys nonce
  | .ask accountId audit => world.ask accountId audit
  | .record i now => world.record i now
  | .expose i keys => world.expose aead i keys

def run (aead : Aead Sealed) (world : World Sealed) (moves : List Move) : World Sealed :=
  moves.foldl (step aead) world

end World

/-! ## The law of reveals -/

/-- The request has a committed audit row with this account, principal and generation. -/
def Store.Names (store : Store Sealed) (accountId : String) (audit : AuditEvidence)
    (principal : String) (generation : Nat) : Prop :=
  ∃ row, KeyedList.first audit.request store.revealAudit = some row ∧ row.evidence = audit ∧
    row.accountId = accountId ∧ row.credentialPrincipal = principal ∧
    row.credentialGeneration = generation

/-- The secret was stored for its account, and the request's row names the principal and the
generation it was stored with. -/
structure Handed.Audited (h : Handed) (store : Store Sealed)
    (written : List (CredentialMetadata × Secret)) : Prop where
  stored : (h.metadata, h.secret) ∈ written
  account : h.metadata.accountId = h.accountId
  named : store.Names h.accountId h.audit h.metadata.principalId h.metadata.generation

/-- A request that has an audit row is made again only while its account has the credential the row
names, and an account does not pass to another principal while a reveal of it is under way. -/
def Move.Steady (world : World Sealed) : Move → Prop
  | .record i _ => ∀ accountId audit m row,
    world.reveals[i]? = some ⟨accountId, audit, .read m⟩ →
      KeyedList.first audit.request world.store.revealAudit = some row →
        row.conflicts accountId audit = false →
          row.credentialPrincipal = m.principalId ∧ row.credentialGeneration = m.generation
  | .expose i _ => ∀ accountId audit m row,
    world.reveals[i]? = some ⟨accountId, audit, .audited m⟩ →
      world.store.credential accountId = some row → row.metadata.generation = m.generation →
        row.metadata.principalId = m.principalId
  | _ => True

/-- Every move of the history is steady where it is made. -/
def SteadyRun (aead : Aead Sealed) (world : World Sealed) : List Move → Prop
  | [] => True
  | move :: moves => move.Steady world ∧ SteadyRun aead (world.step aead move) moves

/-! ## What the store holds -/

/-- Every row is sealed under its own metadata and holds a secret that was written with it. -/
def Store.Sound (aead : Aead Sealed) (store : Store Sealed)
    (written : List (CredentialMetadata × Secret)) : Prop :=
  ∀ accountId row, store.credential accountId = some row → row.metadata.accountId = accountId ∧
    ∃ key nonce secret, row.blob.ciphertext = aead.sealBytes key nonce row.metadata secret ∧
      (row.metadata, secret) ∈ written

theorem decrypt_eq_ok {aead : Aead Sealed} {key : EncryptionKey} {context : SecretContext}
    {blob : EncryptedBlob Sealed} {secret : Secret}
    (h : decrypt aead key context blob = .ok secret) :
    blob.ciphertext = aead.sealBytes key.bytes blob.nonce context secret := by
  rw [decrypt, Except.ite_error_eq_ok] at h
  obtain ⟨_, h⟩ := h
  split at h
  · next hopen =>
    cases h
    exact aead.authentic _ _ _ _ _ hopen
  · cases h

namespace Store

variable {aead : Aead Sealed} {store store' : Store Sealed}
  {written : List (CredentialMetadata × Secret)}

theorem rotateRow_eq_ok {keys : KeySource} {active : EncryptionKey} {nonce : List UInt8}
    {row row' : CredentialRow Sealed} (h : rotateRow aead keys active nonce row = .ok row') :
    row'.metadata = row.metadata ∧ (row'.blob = row.blob ∨ ∃ key nonce' secret,
      row.blob.ciphertext = aead.sealBytes key nonce' row.metadata secret ∧
      row'.blob = encrypt aead active nonce row.metadata secret) := by
  rw [rotateRow] at h
  split at h
  · cases h
    exact ⟨rfl, .inl rfl⟩
  · rw [Except.bind_eq_ok] at h
    obtain ⟨oldKey, _, h⟩ := h
    rw [Except.bind_eq_ok] at h
    obtain ⟨secret, hsecret, h⟩ := h
    cases h
    exact ⟨rfl, .inr ⟨_, _, secret, decrypt_eq_ok hsecret, rfl⟩⟩

theorem first_rotateRows {keys : KeySource} {active : EncryptionKey} {nonce : String → List UInt8}
    {rows rows' : List (String × CredentialRow Sealed)} {accountId : String}
    {row' : CredentialRow Sealed} (h : rotateRows aead keys active nonce rows = .ok rows')
    (hrow : KeyedList.first accountId rows' = some row') :
    ∃ row, KeyedList.first accountId rows = some row ∧
      rotateRow aead keys active (nonce accountId) row = .ok row' := by
  induction rows generalizing rows' with
  | nil =>
    cases h
    cases hrow
  | cons p rows ih =>
    obtain ⟨k, row⟩ := p
    rw [rotateRows, Except.bind_eq_ok] at h
    obtain ⟨rotated, hrotated, h⟩ := h
    rw [Except.bind_eq_ok] at h
    obtain ⟨rest, hrest, h⟩ := h
    cases h
    rw [KeyedList.first] at hrow ⊢
    split at hrow
    next hk =>
      subst hk
      cases hrow
      exact ⟨row, if_pos rfl, hrotated⟩
    next hk =>
      rw [if_neg hk]
      exact ih hrest hrow

theorem rotateKeys_eq_ok {keys : KeySource} {nonce : String → List UInt8}
    (h : store.rotateKeys aead keys nonce = .ok store') :
    store'.revealAudit = store.revealAudit ∧ ∃ active,
      rotateRows aead keys active nonce store.credentials = .ok store'.credentials := by
  rw [rotateKeys, Except.bind_eq_ok] at h
  obtain ⟨active, _, h⟩ := h
  rw [Except.bind_eq_ok] at h
  obtain ⟨credentials, hcredentials, h⟩ := h
  cases h
  exact ⟨rfl, active, hcredentials⟩

theorem Sound.rotateKeys (h : store.Sound aead written) {keys : KeySource}
    {nonce : String → List UInt8} (hok : store.rotateKeys aead keys nonce = .ok store') :
    store'.Sound aead written := by
  intro accountId row' hrow'
  obtain ⟨_, active, hrows⟩ := rotateKeys_eq_ok hok
  obtain ⟨row, hrow, hrotated⟩ := first_rotateRows hrows hrow'
  obtain ⟨haccount, key, sealedNonce, secret, hsealed, hmem⟩ := h accountId row hrow
  obtain ⟨hmetadata, hblob | ⟨key', nonce', opened, hopened, hblob⟩⟩ := rotateRow_eq_ok hrotated
  · rw [hmetadata, hblob]
    exact ⟨haccount, key, sealedNonce, secret, hsealed, hmem⟩
  · -- what the old key opened is what was sealed
    have hsecret : opened = secret := (aead.bound _ _ _ _ _ _ _ _ (hopened.symm.trans hsealed)).2
    rw [hmetadata, hblob]
    exact ⟨haccount, active.bytes, nonce accountId, secret, by rw [hsecret]; rfl, hmem⟩

theorem Sound.of_credential (h : store.Sound aead written)
    (hcredential : ∀ {accountId row}, store'.credential accountId = some row →
      store.credential accountId = some row) : store'.Sound aead written :=
  fun accountId row hrow => h accountId row (hcredential hrow)

theorem Sound.mono (h : store.Sound aead written) (more : List (CredentialMetadata × Secret)) :
    store.Sound aead (more ++ written) := by
  intro accountId row hrow
  obtain ⟨haccount, key, nonce, secret, hsealed, hmem⟩ := h accountId row hrow
  exact ⟨haccount, key, nonce, secret, hsealed, List.mem_append_right _ hmem⟩

theorem Wrote.sound {write : CredentialWrite} {m : CredentialMetadata}
    (hwrote : store.Wrote aead write m store') (h : store.Sound aead written) :
    store'.Sound aead ((m, write.secret) :: written) := by
  intro accountId row hrow
  by_cases hkey : accountId = write.accountId
  · subst hkey
    obtain ⟨key, nonce, hrows⟩ := hwrote.row
    rw [credential, hrows, KeyedList.first_assign_self] at hrow
    cases hrow
    exact ⟨hwrote.accountId_eq, key.bytes, nonce, write.secret, rfl, List.mem_cons_self⟩
  · rw [hwrote.credential_ne hkey] at hrow
    exact h.mono [(m, write.secret)] accountId row hrow

/-- An operation keeps every row sealed as it was written, and leaves the audit of reveals. -/
theorem Sound.perform (h : store.Sound aead written) (op : Op) :
    (op.perform aead store).2.Sound aead (op.written (op.perform aead store).1 ++ written) ∧
      (op.perform aead store).2.revealAudit = store.revealAudit := by
  have heffect := op.perform_effect aead store
  generalize op.perform aead store = result at heffect ⊢
  obtain ⟨answer, after⟩ := result
  cases heffect with
  | held | refused | acquire | renew | release => exact ⟨h.of_credential id, rfl⟩
  | delete =>
    exact ⟨h.of_credential credential_delete_eq_some, revealAudit_delete⟩
  | write hwrite hlease hwrote =>
    rw [Op.written, hwrite]
    exact ⟨hwrote.sound h, hwrote.revealAudit⟩

/-- What `get` opens was written under the metadata it returns. -/
theorem Sound.get (h : store.Sound aead written) {keys : KeySource} {accountId : String}
    {m : CredentialMetadata} {secret : Secret}
    (hok : store.get aead keys accountId = .ok (m, secret)) :
    ∃ row, store.credential accountId = some row ∧ row.metadata = m ∧
      m.accountId = accountId ∧ (m, secret) ∈ written := by
  rw [Store.get] at hok
  cases hrow : store.credential accountId with
  | none => rw [hrow] at hok; cases hok
  | some row =>
    rw [hrow] at hok
    dsimp only at hok
    rw [Except.bind_eq_ok] at hok
    obtain ⟨key, _, hok⟩ := hok
    rw [Except.bind_eq_ok] at hok
    obtain ⟨opened, hopened, hok⟩ := hok
    cases hok
    obtain ⟨haccount, key', nonce', written', hsealed, hmem⟩ := h accountId row hrow
    have hsecret := (aead.bound _ _ _ _ _ _ _ _ ((decrypt_eq_ok hopened).symm.trans hsealed)).2
    subst hsecret
    exact ⟨row, rfl, rfl, haccount, hmem⟩

/-- The evidence is committed once and kept. -/
theorem recordReveal_eq_ok {accountId : String} {audit : AuditEvidence} {m : CredentialMetadata}
    {now : Int} (h : store.recordReveal accountId audit m now = .ok store') :
    store'.credentials = store.credentials ∧
      ((∃ row, KeyedList.first audit.request store.revealAudit = some row ∧
        row.conflicts accountId audit = false ∧ store'.revealAudit = store.revealAudit) ∨
      (KeyedList.first audit.request store.revealAudit = none ∧ ∃ observedAtMs,
        store'.revealAudit = store.revealAudit ++ [(audit.request,
          { evidence := audit, accountId, credentialPrincipal := m.principalId,
            credentialGeneration := m.generation, observedAtMs })])) := by
  rw [recordReveal, Except.bind_eq_ok] at h
  obtain ⟨observedAtMs, _, h⟩ := h
  rw [Except.unit_bind_eq_ok, Except.unit_bind_eq_ok] at h
  obtain ⟨_, _, h⟩ := h
  rw [admitReveal] at h
  split at h
  · next existing hexisting =>
    rw [Except.ite_error_eq_ok] at h
    obtain ⟨hconflicts, h⟩ := h
    cases h
    exact ⟨rfl, .inl ⟨existing, hexisting, by simpa using hconflicts, rfl⟩⟩
  · next hnone =>
    rw [insertReveal, Except.unit_bind_eq_ok, Except.unit_bind_eq_ok, Except.unit_bind_eq_ok,
      Except.pure_eq_ok] at h
    obtain ⟨_, _, _, rfl⟩ := h
    exact ⟨rfl, .inr ⟨hnone, observedAtMs, rfl⟩⟩

theorem expose_eq_ok {keys : KeySource} {accountId : String} {m metadata : CredentialMetadata}
    {secret : Secret} (h : store.expose aead keys accountId m = .ok (metadata, secret)) :
    store.get aead keys accountId = .ok (metadata, secret) ∧
      metadata.generation = m.generation := by
  rw [expose, Except.bind_eq_ok] at h
  obtain ⟨stored, hget, h⟩ := h
  rw [Except.ite_throw_eq_ok] at h
  obtain ⟨hgeneration, h⟩ := h
  cases h
  exact ⟨hget, by simpa using hgeneration⟩

/-- No audit row is lost or replaced. -/
def Extends (store store' : Store Sealed) : Prop :=
  ∀ request row, KeyedList.first request store.revealAudit = some row →
    KeyedList.first request store'.revealAudit = some row

theorem Extends.of_eq (h : store'.revealAudit = store.revealAudit) : store.Extends store' :=
  fun _ _ hrow => h ▸ hrow

theorem Names.extends {accountId : String} {audit : AuditEvidence} {principal : String}
    {generation : Nat} (h : store.Names accountId audit principal generation)
    (hextends : store.Extends store') : store'.Names accountId audit principal generation := by
  obtain ⟨row, hrow, hnames⟩ := h
  exact ⟨row, hextends _ _ hrow, hnames⟩

/-- Every audit row stands under the request of its own evidence. -/
def Keyed (store : Store Sealed) : Prop :=
  ∀ request row, KeyedList.first request store.revealAudit = some row →
    row.evidence.request = request

/-- A row that does not conflict with the evidence was committed with it. -/
theorem Keyed.evidence_eq (h : store.Keyed) {accountId : String} {audit : AuditEvidence}
    {row : AuditRow} (hrow : KeyedList.first audit.request store.revealAudit = some row)
    (hconflicts : row.conflicts accountId audit = false) :
    row.evidence = audit ∧ row.accountId = accountId := by
  have hrequest := h _ _ hrow
  simp only [AuditEvidence.request, Prod.mk.injEq] at hrequest
  obtain ⟨hextension, hhost, hid⟩ := hrequest
  simp only [AuditRow.conflicts, Bool.or_eq_false_iff, bne_eq_false_iff_eq] at hconflicts
  obtain ⟨⟨⟨⟨haccount, hcaller⟩, hprovider⟩, hsession⟩, hreason⟩ := hconflicts
  refine ⟨?_, haccount⟩
  obtain ⟨⟨_, _, _, _, _, _, _⟩, _, _, _, _⟩ := row
  obtain ⟨_, _, _, _, _, _, _⟩ := audit
  simp_all

/-- Committing the evidence loses no row, and leaves one that names what was read, unless the
request had one that names something else. -/
theorem Keyed.recordReveal (h : store.Keyed) {accountId : String} {audit : AuditEvidence}
    {m : CredentialMetadata} {now : Int}
    (hsteady : ∀ row, KeyedList.first audit.request store.revealAudit = some row →
      row.conflicts accountId audit = false →
        row.credentialPrincipal = m.principalId ∧ row.credentialGeneration = m.generation)
    (hok : store.recordReveal accountId audit m now = .ok store') :
    store'.Keyed ∧ store.Extends store' ∧ store'.Names accountId audit m.principalId m.generation := by
  obtain ⟨_, ⟨row, hrow, hconflicts, haudit⟩ | ⟨hnone, observedAtMs, haudit⟩⟩ := recordReveal_eq_ok hok
  · obtain ⟨hevidence, haccount⟩ := h.evidence_eq hrow hconflicts
    obtain ⟨hprincipal, hgeneration⟩ := hsteady row hrow hconflicts
    refine ⟨fun request row hrow => h request row (haudit ▸ hrow), .of_eq haudit, ?_⟩
    exact ⟨row, haudit ▸ hrow, hevidence, haccount, hprincipal, hgeneration⟩
  · have hnew : KeyedList.first audit.request store'.revealAudit = some
        { evidence := audit, accountId, credentialPrincipal := m.principalId,
          credentialGeneration := m.generation, observedAtMs } := by
      rw [haudit, KeyedList.first_append_of_none hnone, KeyedList.first, if_pos rfl]
    have hextends : store.Extends store' := by
      intro request row hrow
      rw [haudit]
      exact KeyedList.first_append_of_some hrow _
    refine ⟨?_, hextends, _, hnew, rfl, rfl, rfl, rfl⟩
    intro request row hrow
    by_cases hkey : request = audit.request
    · subst hkey
      cases hnew.symm.trans hrow
      rfl
    · rw [haudit] at hrow
      cases hold : KeyedList.first request store.revealAudit with
      | some old =>
        have heq := (KeyedList.first_append_of_some hold _).symm.trans hrow
        exact h request row (hold.trans heq)
      | none =>
        rw [KeyedList.first_append_of_none hold, KeyedList.first, if_neg (Ne.symm hkey)] at hrow
        cases hrow

end Store

/-! ## The invariant over a history -/

structure World.Inv (aead : Aead Sealed) (world : World Sealed) : Prop where
  sound : world.store.Sound aead world.written
  keyed : world.store.Keyed
  audited : ∀ reveal ∈ world.reveals, ∀ m, reveal.phase = .audited m →
    world.store.Names reveal.accountId reveal.audit m.principalId m.generation
  handed : ∀ h ∈ world.handed, h.Audited world.store world.written

theorem Handed.Audited.mono {h : Handed} {store store' : Store Sealed}
    {written written' : List (CredentialMetadata × Secret)} (haudited : h.Audited store written)
    (hextends : store.Extends store') (hwritten : written ⊆ written') :
    h.Audited store' written' where
  stored := hwritten haudited.stored
  account := haudited.account
  named := haudited.named.extends hextends

namespace World

variable {aead : Aead Sealed} {world : World Sealed}

theorem inv_start : (start : World Sealed).Inv aead where
  sound _ _ h := by cases h
  keyed _ _ h := by cases h
  audited _ h := by cases h
  handed _ h := by cases h

/-- A change of the store that other processes make keeps the invariant. -/
theorem Inv.of_store (h : world.Inv aead) {store : Store Sealed}
    (more : List (CredentialMetadata × Secret)) (hsound : store.Sound aead (more ++ world.written))
    (haudit : store.revealAudit = world.store.revealAudit) :
    Inv aead { world with store, written := more ++ world.written } where
  sound := hsound
  keyed request row hrow := h.keyed request row (haudit ▸ hrow)
  audited reveal hreveal m hphase := (h.audited reveal hreveal m hphase).extends (.of_eq haudit)
  handed handed hhanded :=
    (h.handed handed hhanded).mono (.of_eq haudit) (List.subset_append_right _ _)

theorem mem_setPhase {i : Nat} {reveal other : Reveal} {phase : Phase}
    (h : other ∈ (world.setPhase i reveal phase).reveals) :
    other ∈ world.reveals ∨ other = { reveal with phase } :=
  List.mem_or_eq_of_mem_set h

/-- A reveal that moves to a phase it has the evidence for keeps the invariant. -/
theorem Inv.setPhase (h : world.Inv aead) {i : Nat} {reveal : Reveal} {phase : Phase}
    (hphase : ∀ m, phase = .audited m →
      world.store.Names reveal.accountId reveal.audit m.principalId m.generation) :
    (world.setPhase i reveal phase).Inv aead where
  sound := h.sound
  keyed := h.keyed
  audited other hother m hm := by
    rcases mem_setPhase hother with hmem | rfl
    · exact h.audited other hmem m hm
    · exact hphase m hm
  handed handed hhanded := h.handed handed hhanded

theorem Inv.step (h : world.Inv aead) {move : Move} (hsteady : move.Steady world) :
    (world.step aead move).Inv aead := by
  cases move with
  | op op =>
    obtain ⟨hsound, haudit⟩ := h.sound.perform op
    exact h.of_store _ hsound haudit
  | rotate keys nonce =>
    rw [World.step, rotate]
    split
    · next store hok =>
      exact h.of_store [] (h.sound.rotateKeys hok) (Store.rotateKeys_eq_ok hok).1
    · exact h
  | ask accountId audit =>
    rw [World.step, ask]
    split
    · next m hm =>
      refine { sound := h.sound, keyed := h.keyed, handed := h.handed, audited := ?_ }
      intro reveal hreveal m' hphase
      rcases List.mem_append.1 hreveal with hmem | hmem
      · exact h.audited reveal hmem m' hphase
      · cases List.mem_singleton.1 hmem
        cases hphase
    · exact h
  | record i now =>
    rw [World.step, record]
    split
    · next accountId audit m hreveal =>
      split
      · next store hok =>
        obtain ⟨hkeyed, hextends, hnames⟩ :=
          h.keyed.recordReveal (fun row => hsteady accountId audit m row hreveal) hok
        refine { sound := ?_, keyed := hkeyed, audited := ?_, handed := ?_ }
        · refine h.sound.of_credential fun {accountId row} hrow => ?_
          rwa [Store.credential, (Store.recordReveal_eq_ok hok).1] at hrow
        · intro other hother m' hphase
          rcases mem_setPhase hother with hmem | rfl
          · exact (h.audited other hmem m' hphase).extends hextends
          · cases hphase
            exact hnames
        · exact fun handed hhanded => (h.handed handed hhanded).mono hextends (List.Subset.refl _)
      · refine h.setPhase fun m' hm' => ?_
        cases hm'
    · exact h
  | expose i keys =>
    rw [World.step, World.expose]
    split
    · next accountId audit m hreveal =>
      have hover : (world.setPhase i ⟨accountId, audit, .audited m⟩ .over).Inv aead := by
        refine h.setPhase fun m' hm' => ?_
        cases hm'
      split
      · next metadata secret hok =>
        obtain ⟨hget, hgeneration⟩ := Store.expose_eq_ok hok
        obtain ⟨row, hrow, rfl, haccount, hmem⟩ := h.sound.get hget
        have hprincipal := hsteady accountId audit m row hreveal hrow hgeneration
        have hnames := h.audited _ (List.mem_of_getElem? hreveal) m rfl
        refine { sound := hover.sound, keyed := hover.keyed, audited := hover.audited, handed := ?_ }
        intro handed hhanded
        rcases List.mem_cons.1 hhanded with rfl | hold
        · refine { stored := hmem, account := haccount, named := ?_ }
          rw [hprincipal, hgeneration]
          exact hnames
        · exact hover.handed handed hold
      · exact hover
    · exact h

theorem Inv.run (h : world.Inv aead) {moves : List Move} (hsteady : SteadyRun aead world moves) :
    (world.run aead moves).Inv aead := by
  induction moves generalizing world with
  | nil => exact h
  | cons move moves ih => exact ih (h.step hsteady.1) hsteady.2

end World

/-- **Audited reveals.** When no request is made again after its account's credential changed, and
no account passes to another principal under a reveal, every secret handed out has an audit row that
names the account, the principal and the generation it was stored with. -/
theorem audited_of_steadyRun (aead : Aead Sealed) {moves : List Move}
    (hsteady : SteadyRun aead .start moves) {h : Handed}
    (hhanded : h ∈ (World.start.run aead moves).handed) :
    h.Audited (World.start.run aead moves).store (World.start.run aead moves).written :=
  (World.inv_start.run hsteady).handed h hhanded

/-- The evidence of one request of an extension. -/
def sampleEvidence : AuditEvidence where
  extension := "ci"
  callerPrincipal := "daemon"
  provider := "git"
  hostGeneration := 1
  sessionGeneration := 1
  requestId := 7
  reason := "push"

/-- One request, from its ask to the handing out. -/
def revealed (i : Nat) : List Move :=
  [.ask "work" sampleEvidence, .record i 20, .expose i soleKey]

/-- The credential is replaced and the request made again: the second generation is handed out under
the row that names the first. -/
theorem retry_hands_out_unaudited :
    ∃ h ∈ (World.start.run idealAead
        (.op (login [1] none) :: revealed 0 ++ .op (login [2] none) :: revealed 1)).handed,
      ¬ h.Audited (World.start.run idealAead
          (.op (login [1] none) :: revealed 0 ++ .op (login [2] none) :: revealed 1)).store
        (World.start.run idealAead
          (.op (login [1] none) :: revealed 0 ++ .op (login [2] none) :: revealed 1)).written := by
  refine ⟨_, List.mem_cons_self, fun haudited => ?_⟩
  obtain ⟨row, hrow, _, _, _, hgeneration⟩ := haudited.named
  cases hrow
  exact absurd hgeneration (by decide)

/-- A request made twice while its account keeps its credential. -/
theorem audited_of_steadyRun_retry :
    ∃ h ∈ (World.start.run idealAead (.op (login [1] none) :: revealed 0 ++ revealed 1)).handed,
      h.Audited
        (World.start.run idealAead (.op (login [1] none) :: revealed 0 ++ revealed 1)).store
        (World.start.run idealAead (.op (login [1] none) :: revealed 0 ++ revealed 1)).written := by
  refine ⟨_, List.mem_cons_self, audited_of_steadyRun idealAead ?_ List.mem_cons_self⟩
  refine ⟨trivial, trivial, ?_, ?_, trivial, ?_, ?_, trivial⟩
  · intro accountId audit m row hreveal hrow
    cases hreveal
    cases hrow
  · intro accountId audit m row hreveal hrow _
    cases hreveal
    cases hrow
    rfl
  · intro accountId audit m row hreveal hrow _
    cases hreveal
    cases hrow
    exact ⟨rfl, rfl⟩
  · intro accountId audit m row hreveal hrow _
    cases hreveal
    cases hrow
    rfl

end OhMyPi.Credentials
