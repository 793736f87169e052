import OhMyPi.Credentials.Operations

/-! Histories of leases and writes on the accounts of one store. A lease is fenced by the epoch in
its row and a write by the generation in its row; releasing a lease or deleting a credential removes
the row, and the next one starts again at one. -/

namespace OhMyPi.Credentials

variable {Sealed : Type}

/-! ## Histories -/

/-- The tables, with every acquisition and every stored credential so far, newest first. -/
structure Record (Sealed : Type) where
  store : Store Sealed
  grants : List PersistentLease
  stored : List CredentialMetadata
deriving DecidableEq, Repr

namespace Record

def start : Record Sealed := { store := .empty, grants := [], stored := [] }

def step (aead : Aead Sealed) (record : Record Sealed) (op : Op) : Record Sealed :=
  let (answer, store) := op.perform aead record.store
  { store
    grants := answer.grants ++ record.grants
    stored := answer.storedCredentials ++ record.stored }

/-- The record with a lease acquired. -/
def grant (record : Record Sealed) (lease : PersistentLease) : Record Sealed :=
  { record with
    store := record.store.writeLease lease.accountId lease.kind
      { owner := lease.owner, epoch := lease.epoch, expiresAtMs := lease.expiresAtMs }
    grants := lease :: record.grants }

def run (aead : Aead Sealed) (record : Record Sealed) (ops : List Op) : Record Sealed :=
  ops.foldl (step aead) record

end Record

/-! ## The law of fencing -/

/-- The lease is on the given account and of the given kind. -/
def PersistentLease.names (lease : PersistentLease) (accountId kind : String) : Bool :=
  lease.accountId == accountId && lease.kind == kind

/-- What tells one acquisition of a lease from another. -/
def PersistentLease.token (lease : PersistentLease) : String × String × String × Nat :=
  (lease.accountId, lease.kind, lease.owner, lease.epoch)

/-- The law of one operation on the tables of a history. -/
structure Law (aead : Aead Sealed) (record : Record Sealed) (op : Op) : Prop where
  /-- Nothing succeeds under a lease that was acquired again since. -/
  fenced : ∀ {lease earlier later : PersistentLease}, op.lease? = some lease →
    (op.perform aead record.store).1 ≠ .refused → [later, earlier].Sublist record.grants →
      earlier.token = lease.token → later.names lease.accountId lease.kind = false
  /-- Nothing is written over a generation that another was stored after. -/
  current : ∀ {write : CredentialWrite} {generation : Nat} {earlier later : CredentialMetadata},
    op.write? = some write → write.expectedGeneration = some generation →
      (op.perform aead record.store).1 ≠ .refused → [later, earlier].Sublist record.stored →
        earlier.accountId = write.accountId → earlier.generation = generation →
          later.accountId ≠ write.accountId

/-- An owner does not come back to an epoch it held before, and an account that was deleted is not
stored again. -/
def Op.Fresh (record : Record Sealed) : Op → Prop
  | .acquire accountId kind owner now _ =>
    (record.store.lease accountId kind).filter (Store.heldByPeer owner now.toNat) = none →
      ∀ earlier ∈ record.grants,
        earlier.token ≠ (accountId, kind, owner, record.store.nextEpoch accountId kind)
  | .put _ _ write _ | .putUnderLease _ _ write .. =>
    record.store.credential write.accountId = none →
      ∀ earlier ∈ record.stored, earlier.accountId ≠ write.accountId
  | _ => True

/-- Every operation of the history is fresh where it is made. -/
def FreshRun (aead : Aead Sealed) (record : Record Sealed) : List Op → Prop
  | [] => True
  | op :: ops => op.Fresh record ∧ FreshRun aead (record.step aead op) ops

/-! ## The invariant -/

/-- Rows carry what was acquired and stored last, and nothing of that came twice. -/
structure Record.Inv (record : Record Sealed) : Prop where
  lease : ∀ {accountId kind : String} {held : LeaseRow},
    record.store.lease accountId kind = some held →
      ∃ expiresAtMs, record.grants.find? (·.names accountId kind) =
        some { accountId, kind, owner := held.owner, epoch := held.epoch, expiresAtMs }
  tokens : record.grants.Pairwise fun later earlier => later.token ≠ earlier.token
  credential : ∀ {accountId : String} {row : CredentialRow Sealed},
    record.store.credential accountId = some row →
      ∃ m, record.stored.find? (·.accountId == accountId) = some m ∧
        m.generation = row.metadata.generation
  generations : record.stored.Pairwise fun later earlier =>
    later.accountId = earlier.accountId → earlier.generation < later.generation

theorem PersistentLease.names_iff {lease : PersistentLease} {accountId kind : String} :
    lease.names accountId kind = true ↔ lease.accountId = accountId ∧ lease.kind = kind := by
  simp [names]

/-- Of two elements in order that both satisfy the test, the second lies behind the first that
does. -/
theorem mem_of_find?_of_pair {p : α → Bool} {l : List α} {x later earlier : α}
    (hfind : l.find? p = some x) (hpair : [later, earlier].Sublist l) (hlater : p later = true) :
    [x, earlier].Sublist l := by
  induction l with
  | nil => cases hfind
  | cons y l ih =>
    rw [List.find?_cons] at hfind
    cases hy : p y with
    | true =>
      rw [hy] at hfind
      cases hfind
      have hmem : earlier ∈ l := by
        cases hpair with
        | cons _ htail => exact htail.subset (by simp)
        | cons_cons _ htail => exact List.singleton_sublist.1 htail
      exact (List.singleton_sublist.2 hmem).cons_cons x
    | false =>
      rw [hy] at hfind
      cases hpair with
      | cons _ htail => exact (ih hfind htail).cons y
      | cons_cons _ htail => rw [hlater] at hy; cases hy

namespace Record.Inv

variable {record : Record Sealed} {aead : Aead Sealed}

/-- A lease whose row still carries its token was not acquired again. -/
theorem fenced (h : record.Inv) {lease earlier later : PersistentLease}
    (hmatch : record.store.matchesLease lease = true)
    (hpair : [later, earlier].Sublist record.grants) (hearlier : earlier.token = lease.token) :
    later.names lease.accountId lease.kind = false := by
  by_contra hnames
  rw [Bool.not_eq_false] at hnames
  obtain ⟨held, hrow, howner, hepoch⟩ := Store.matchesLease_iff.1 hmatch
  obtain ⟨expiresAtMs, hfind⟩ := h.lease hrow
  have hlast := mem_of_find?_of_pair hfind hpair hnames
  refine List.pairwise_iff_forall_sublist.1 h.tokens hlast ?_
  rw [hearlier, PersistentLease.token, PersistentLease.token, howner, hepoch]

/-- A generation that is still the row's was not followed by another. -/
theorem current (h : record.Inv) {accountId : String} {row : CredentialRow Sealed}
    {earlier later : CredentialMetadata} (hrow : record.store.credential accountId = some row)
    (hpair : [later, earlier].Sublist record.stored) (hearlier : earlier.accountId = accountId)
    (hgeneration : earlier.generation = row.metadata.generation) :
    later.accountId ≠ accountId := by
  intro hlater
  obtain ⟨m, hfind, hm⟩ := h.credential hrow
  have hname : m.accountId = accountId := by
    have := List.find?_some hfind
    simpa using this
  have hlast := mem_of_find?_of_pair hfind hpair (by simpa using hlater)
  have hlt := List.pairwise_iff_forall_sublist.1 h.generations hlast (hname.trans hearlier.symm)
  omega

end Record.Inv

theorem Record.Inv.law {record : Record Sealed} (h : record.Inv) (aead : Aead Sealed) (op : Op) :
    Law aead record op where
  fenced hlease hdone hpair hearlier :=
    h.fenced (Op.matchesLease_of_perform hlease hdone) hpair hearlier
  current hwrite hexpected hdone hpair hearlier hgeneration := by
    obtain ⟨m, store', _, hwrote⟩ := Op.wrote_of_perform hwrite hdone
    obtain ⟨row, hrow, hrowGen⟩ := CredentialWrite.admits_expected hwrote.admitted hexpected
    exact h.current hrow hpair hearlier (hgeneration.trans hrowGen.symm)

/-! ## The invariant over a history -/

theorem Record.inv_start : (start : Record Sealed).Inv where
  lease h := by cases h
  tokens := .nil
  credential h := by cases h
  generations := .nil

/-- A lease row that stands behind a new grant is the grant's, or another lease's as before. -/
theorem Record.Inv.grant {record : Record Sealed} (h : record.Inv) {lease : PersistentLease}
    (hfresh : ∀ earlier ∈ record.grants, earlier.token ≠ lease.token) :
    (record.grant lease).Inv where
  lease {accountId kind held} hrow := by
    by_cases hkey : (accountId, kind) = (lease.accountId, lease.kind)
    · cases hkey
      have hheld := (Store.lease_writeLease_self _).symm.trans hrow
      cases hheld
      refine ⟨lease.expiresAtMs, List.find?_cons_of_pos ?_⟩
      exact PersistentLease.names_iff.2 ⟨rfl, rfl⟩
    · have hother := (Store.lease_writeLease_ne hkey _).symm.trans hrow
      obtain ⟨expiresAtMs, hfind⟩ := h.lease hother
      refine ⟨expiresAtMs, (List.find?_cons_of_neg ?_).trans hfind⟩
      rw [PersistentLease.names_iff]
      rintro ⟨rfl, rfl⟩
      exact hkey rfl
  tokens := List.pairwise_cons.2 ⟨fun earlier hmem => (hfresh earlier hmem).symm, h.tokens⟩
  credential hrow := h.credential hrow
  generations := h.generations

/-- Changing only the end of a lease keeps the invariant. -/
theorem Record.Inv.renew {record : Record Sealed} (h : record.Inv) {lease : PersistentLease}
    (hmatch : record.store.matchesLease lease = true) (expiresAtMs : Nat) :
    Record.Inv { record with
      store := record.store.writeLease lease.accountId lease.kind
        { owner := lease.owner, epoch := lease.epoch, expiresAtMs } } where
  lease {accountId kind held} hrow := by
    by_cases hkey : (accountId, kind) = (lease.accountId, lease.kind)
    · cases hkey
      have hheld := (Store.lease_writeLease_self _).symm.trans hrow
      cases hheld
      obtain ⟨previous, hprevious, howner, hepoch⟩ := Store.matchesLease_iff.1 hmatch
      obtain ⟨expiresAtMs, hfind⟩ := h.lease hprevious
      rw [howner, hepoch] at hfind
      exact ⟨expiresAtMs, hfind⟩
    · exact h.lease ((Store.lease_writeLease_ne hkey _).symm.trans hrow)
  tokens := h.tokens
  credential hrow := h.credential hrow
  generations := h.generations

/-- Removing rows keeps the invariant. -/
theorem Record.Inv.shrink {record : Record Sealed} (h : record.Inv) {store : Store Sealed}
    (hlease : ∀ {accountId kind held}, store.lease accountId kind = some held →
      record.store.lease accountId kind = some held)
    (hcredential : ∀ {accountId row}, store.credential accountId = some row →
      record.store.credential accountId = some row) :
    Record.Inv { record with store := store } where
  lease hrow := h.lease (hlease hrow)
  tokens := h.tokens
  credential hrow := h.credential (hcredential hrow)
  generations := h.generations

/-- In the stored credentials of one account, the newest has the highest generation. -/
theorem generation_le_of_find? {stored : List CredentialMetadata} {accountId : String}
    {newest earlier : CredentialMetadata}
    (hsorted : stored.Pairwise fun later earlier =>
      later.accountId = earlier.accountId → earlier.generation < later.generation)
    (hfind : stored.find? (·.accountId == accountId) = some newest) (hmem : earlier ∈ stored)
    (hname : earlier.accountId = accountId) : earlier.generation ≤ newest.generation := by
  induction stored with
  | nil => cases hmem
  | cons m stored ih =>
    obtain ⟨hhead, htail⟩ := List.pairwise_cons.1 hsorted
    by_cases hm : m.accountId = accountId
    · rw [List.find?_cons_of_pos (by simpa using hm)] at hfind
      cases hfind
      rcases List.mem_cons.1 hmem with rfl | hmem
      · exact Nat.le_refl _
      · exact Nat.le_of_lt (hhead earlier hmem (hm.trans hname.symm))
    · rw [List.find?_cons_of_neg (by simpa using hm)] at hfind
      rcases List.mem_cons.1 hmem with rfl | hmem
      · exact absurd hname hm
      · exact ih htail hfind hmem

theorem Record.Inv.write {record : Record Sealed} (h : record.Inv) {aead : Aead Sealed}
    {write : CredentialWrite} {m : CredentialMetadata} {store : Store Sealed}
    (hwrote : record.store.Wrote aead write m store)
    (hfresh : record.store.credential write.accountId = none →
      ∀ earlier ∈ record.stored, earlier.accountId ≠ write.accountId) :
    Record.Inv { record with store := store, stored := m :: record.stored } where
  lease hrow := by
    rw [Store.lease, hwrote.leases] at hrow
    exact h.lease hrow
  tokens := h.tokens
  credential {accountId row} hrow := by
    by_cases hkey : accountId = write.accountId
    · subst hkey
      obtain ⟨row', hrow', hmetadata⟩ := hwrote.credential_self
      cases hrow'.symm.trans hrow
      exact ⟨m, List.find?_cons_of_pos (by simpa using hwrote.accountId_eq), by rw [hmetadata]⟩
    · obtain ⟨newest, hfind, hgeneration⟩ := h.credential ((hwrote.credential_ne hkey).symm.trans hrow)
      refine ⟨newest, (List.find?_cons_of_neg ?_).trans hfind, hgeneration⟩
      simpa [hwrote.accountId_eq] using Ne.symm hkey
  generations := by
    refine List.pairwise_cons.2 ⟨fun earlier hmem hname => ?_, h.generations⟩
    have haccount : earlier.accountId = write.accountId := hname.symm.trans hwrote.accountId_eq
    cases hrow : record.store.credential write.accountId with
    | none => exact absurd haccount (hfresh hrow earlier hmem)
    | some row =>
      obtain ⟨newest, hfind, hgeneration⟩ := h.credential hrow
      calc earlier.generation
        _ ≤ newest.generation := generation_le_of_find? h.generations hfind hmem haccount
        _ = row.metadata.generation := hgeneration
        _ < m.generation := hwrote.generation_lt hrow

theorem Record.Inv.step {record : Record Sealed} (h : record.Inv) (aead : Aead Sealed) {op : Op}
    (hfresh : op.Fresh record) : (record.step aead op).Inv := by
  have heffect := op.perform_effect aead record.store
  rw [Record.step]
  generalize op.perform aead record.store = result at heffect ⊢
  obtain ⟨answer, after⟩ := result
  cases heffect with
  | held | refused => exact h
  | @acquire accountId kind owner now _ expiresAtMs hfree =>
    let lease : PersistentLease :=
      { accountId, kind, owner, epoch := record.store.nextEpoch accountId kind, expiresAtMs }
    have hgrant : (record.grant lease).Inv := h.grant (hfresh hfree)
    exact hgrant
  | renew expiresAtMs hmatch => exact h.renew hmatch expiresAtMs
  | release hmatch => exact h.shrink Store.lease_eraseLease_eq_some id
  | delete => exact h.shrink Store.lease_delete_eq_some Store.credential_delete_eq_some
  | write hwrite hlease hwrote =>
    cases op with
    | acquire | delete | renew | release => cases hwrite
    | put => cases hwrite; exact h.write hwrote hfresh
    | putUnderLease => cases hwrite; exact h.write hwrote hfresh

theorem Record.Inv.run {record : Record Sealed} (h : record.Inv) (aead : Aead Sealed)
    {ops : List Op} (hfresh : FreshRun aead record ops) : (record.run aead ops).Inv := by
  induction ops generalizing record with
  | nil => exact h
  | cons op ops ih => exact ih (h.step aead hfresh.1) hfresh.2

/-- **Fencing.** In a history where no owner comes back to an epoch it held and no deleted account
is stored again, nothing succeeds under a lease that was acquired again since, and nothing is
written over a generation that another was stored after. -/
theorem law_of_freshRun (aead : Aead Sealed) {ops : List Op}
    (hfresh : FreshRun aead .start ops) (op : Op) : Law aead (Record.start.run aead ops) op :=
  (Record.inv_start.run aead hfresh).law aead op

/-! ## The row starts again at one -/

/-- The lease process `p` gets at its first refresh. -/
def firstLease : PersistentLease where
  accountId := "work"
  kind := "refresh"
  owner := "p"
  epoch := 1
  expiresAtMs := 50

/-- A process that refreshes twice under its one owner token: it releases its lease and acquires it
again, and both leases carry the owner `p` and the epoch one. -/
def refreshedTwice : List Op :=
  [login [1] none, .acquire "work" "refresh" "p" 20 30, .release firstLease,
    .acquire "work" "refresh" "p" 60 30]

/-- An account that is deleted and logged in again has its first generation again. -/
def loggedInTwice : List Op := [login [1] none, .delete "work", login [1] none]

theorem restarted_row_admits_stale_holders :
    (¬ Law idealAead (Record.start.run idealAead refreshedTwice) (.release firstLease)) ∧
      ¬ Law idealAead (Record.start.run idealAead loggedInTwice) (login [1] (some 1)) := by
  constructor
  · intro h
    have hnames := h.fenced rfl (by decide) (List.Sublist.refl _) rfl
    exact absurd hnames (by decide)
  · intro h
    exact h.current rfl rfl (by decide) (List.Sublist.refl _) rfl rfl rfl

/-- A process that takes over an expired lease and one that stores over the generation it read. -/
theorem law_of_freshRun_takeover :
    Law idealAead (Record.start.run idealAead [login [1] none, .acquire "work" "refresh" "p" 20 30,
      .acquire "work" "refresh" "q" 60 30, login [1] (some 1)]) (.release firstLease) := by
  apply law_of_freshRun
  refine ⟨?_, ?_, ?_, ?_, trivial⟩
  · intro _ earlier hmem
    cases hmem
  · intro _ earlier hmem
    cases hmem
  · intro _ earlier hmem
    rcases List.mem_cons.1 hmem with rfl | hmem
    · decide
    · cases hmem
  · intro hnone
    cases hnone

end OhMyPi.Credentials
