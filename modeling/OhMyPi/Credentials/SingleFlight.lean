import OhMyPi.Credentials.Refresh

/-! A fit run of refreshes is single flight. The lease of a running leader stays its own until it runs
out: another process finds it held, and in its own process the leader is alone on the account. -/

namespace OhMyPi.Credentials

variable {Sealed : Type}

/-- The row of the account is still this lease's, and lasts as long. -/
def Store.Held (store : Store Sealed) (lease : PersistentLease) : Prop :=
  ∃ row, store.lease lease.accountId refreshKind = some row ∧ row.owner = lease.owner ∧
    lease.expiresAtMs ≤ row.expiresAtMs

/-- The result is one for the request, and was stored. -/
structure RefreshResult.Serves (result : RefreshResult) (request : RefreshRequest)
    (history : List RefreshResult) : Prop where
  account : result.account = request.account
  principal : result.principal = request.principal
  newer : request.rejected < result.generation
  stored : result ∈ history

theorem validateResult_eq_ok {request : RefreshRequest} {result : RefreshResult}
    (h : validateResult request result = .ok ()) : result.account = request.account ∧
      result.principal = request.principal ∧ request.rejected < result.generation := by
  rw [validateResult, Except.ite_error_eq_ok, Except.ite_error_eq_ok, Except.ite_error_eq_ok] at h
  obtain ⟨haccount, hprincipal, hnewer, -⟩ := h
  exact ⟨not_not.1 haccount, not_not.1 hprincipal, Nat.not_le.1 hnewer⟩

theorem serves_of_validated {request : RefreshRequest} {result result' : RefreshResult}
    {history : List RefreshResult} (h : validated request result = .ok result')
    (hstored : result ∈ history) : result'.Serves request history := by
  rw [validated] at h
  split at h
  · next hvalid =>
    cases h
    obtain ⟨haccount, hprincipal, hnewer⟩ := validateResult_eq_ok hvalid
    exact ⟨haccount, hprincipal, hnewer, hstored⟩
  · cases h

/-! ## The invariant -/

/-- What holds of a running task. -/
structure TaskOk (fleet : Fleet Sealed) (s : System Sealed) (id : Nat) (t : Task) : Prop where
  flight : t.phase.leads = true → s.flights t.process t.request.account = some id
  reading : ∀ now handoffs, t.phase = .acquiring now handoffs → now ≤ s.clock
  identity : ∀ lease, t.phase.lease = some lease → lease.accountId = t.request.account ∧
    lease.kind = refreshKind ∧ lease.owner = fleet.owner t.process
  held : ∀ lease, t.phase.lease = some lease → s.clock < lease.expiresAtMs → s.store.Held lease
  result : ∀ r, t.phase.result = some r → r.Serves t.request s.history
  answer : ∀ r, t.phase = .answered (.ok r) → r ∈ s.history
  exchanged : t.exchanged = true → t.phase.afterExchange = true
  superseded : t.superseded = false

structure Inv (fleet : Fleet Sealed) (s : System Sealed) : Prop where
  tasks : ∀ id t, s.tasks id = some t → TaskOk fleet s id t
  stored : ∀ account row, s.store.credential account = some row →
    ⟨account, row.metadata.principalId, row.metadata.generation⟩ ∈ s.history
  single : s.SingleFlight

theorem mem_of_first {account : String} {row : CredentialRow Sealed}
    {l : List (String × CredentialRow Sealed)} (h : KeyedList.first account l = some row) :
    (account, row) ∈ l := by
  induction l with
  | nil => cases h
  | cons p l ih =>
    rw [KeyedList.first] at h
    split at h
    · next hkey =>
      cases h
      rw [← hkey]
      exact List.mem_cons_self
    · exact List.mem_cons_of_mem _ (ih h)

theorem inv_start (fleet : Fleet Sealed) (clock : Nat) (store : Store Sealed) :
    Inv fleet (.start clock store) where
  tasks _ _ h := by cases h
  stored account row h := List.mem_map.2 ⟨(account, row), mem_of_first h, rfl⟩
  single := ⟨fun _ h => absurd h List.not_mem_nil, fun _ h => absurd h List.not_mem_nil⟩

theorem RefreshPhase.leads_of_lease {phase : RefreshPhase} {lease : PersistentLease}
    (h : phase.lease = some lease) : phase.leads = true := by
  cases phase <;> first | rfl | cases h

theorem RefreshPhase.answer_cases (phase : RefreshPhase) (leader : Nat) (result : SharedResult) :
    phase.answer leader result = phase ∨
      phase = .joined leader ∧ phase.answer leader result = .answered result := by
  cases phase with
  | joined other =>
    by_cases hleader : other = leader
    · exact .inr ⟨by rw [hleader], if_pos hleader⟩
    · exact .inl (if_neg hleader)
  | _ => exact .inl rfl

theorem Finished.Sound.mono {f : Finished} {history history' : List RefreshResult}
    (h : f.Sound history) (hsub : history ⊆ history') : f.Sound history' where
  success result hresult :=
    have ⟨haccount, hprincipal, hnewer, hmem⟩ := h.success result hresult
    ⟨haccount, hprincipal, hnewer, hsub hmem⟩
  superseded := h.superseded

section

variable {fleet : Fleet Sealed} {s : System Sealed} {id : Nat} {t : Task}

/-- Two leaders on one account belong to processes with different owner tokens. -/
theorem Inv.owner_ne (h : Inv fleet s) (ht : s.tasks id = some t) (hleads : t.phase.leads = true)
    {i : Nat} {u : Task} (hu : s.tasks i = some u) (hleads' : u.phase.leads = true) (hne : i ≠ id)
    (haccount : u.request.account = t.request.account) :
    fleet.owner u.process ≠ fleet.owner t.process := by
  intro howner
  have hprocess := fleet.owner_injective howner
  have hi := (h.tasks i u hu).flight hleads'
  rw [hprocess, haccount, (h.tasks id t ht).flight hleads] at hi
  exact hne (Option.some.inj hi).symm

/-! ## Changes that keep the invariant -/

/-- A task does not notice what others do to the flights of others, to the leases of others and to the
history. -/
theorem TaskOk.mono (h : TaskOk fleet s id t) {s' : System Sealed}
    (hflight : t.phase.leads = true → s'.flights t.process t.request.account =
      s.flights t.process t.request.account)
    (hclock : s.clock ≤ s'.clock) (hhistory : s.history ⊆ s'.history)
    (hheld : ∀ lease, t.phase.lease = some lease → s'.clock < lease.expiresAtMs →
      s.store.Held lease → s'.store.Held lease) : TaskOk fleet s' id t where
  flight hleads := (hflight hleads).trans (h.flight hleads)
  reading now handoffs hphase := (h.reading now handoffs hphase).trans hclock
  identity := h.identity
  held lease hlease hlt :=
    hheld lease hlease hlt (h.held lease hlease (Nat.lt_of_le_of_lt hclock hlt))
  result r hr :=
    have ⟨haccount, hprincipal, hnewer, hmem⟩ := h.result r hr
    ⟨haccount, hprincipal, hnewer, hhistory hmem⟩
  answer r hr := hhistory (h.answer r hr)
  exchanged := h.exchanged
  superseded := h.superseded

/-- Only tasks and records change. -/
theorem TaskOk.congr (h : TaskOk fleet s id t) {s' : System Sealed} (hflights : s'.flights = s.flights)
    (hclock : s'.clock = s.clock) (hhistory : s'.history = s.history) (hstore : s'.store = s.store) :
    TaskOk fleet s' id t := by
  refine h.mono (fun _ => by rw [hflights]) hclock.ge (fun r hr => hhistory ▸ hr) ?_
  intro lease _ _ hheld
  rwa [hstore]

theorem Inv.remove (h : Inv fleet s) (id : Nat) : Inv fleet (s.setTask id none) where
  tasks i u hu := by
    by_cases hi : i = id
    · rw [hi, System.tasks_setTask_self] at hu
      cases hu
    · rw [System.tasks_setTask_ne s hi] at hu
      exact (h.tasks i u hu).congr rfl rfl rfl rfl
  stored := h.stored
  single := ⟨h.single.exclusive, h.single.returned⟩

theorem Inv.insert (h : Inv fleet s) (ht : TaskOk fleet s id t) :
    Inv fleet (s.setTask id (some t)) where
  tasks i u hu := by
    by_cases hi : i = id
    · rw [hi, System.tasks_setTask_self] at hu
      cases hu
      rw [hi]
      exact ht.congr rfl rfl rfl rfl
    · rw [System.tasks_setTask_ne s hi] at hu
      exact (h.tasks i u hu).congr rfl rfl rfl rfl
  stored := h.stored
  single := ⟨h.single.exclusive, h.single.returned⟩

/-- The leases of the store change, but for none that a running task still holds. -/
theorem Inv.changeLeases (h : Inv fleet s) {store : Store Sealed}
    (hcredential : ∀ account row, store.credential account = some row →
      s.store.credential account = some row)
    (hheld : ∀ i u lease, s.tasks i = some u → u.phase.lease = some lease →
      s.clock < lease.expiresAtMs → s.store.Held lease → store.Held lease) :
    Inv fleet { s with store } where
  tasks i u hu :=
    (h.tasks i u hu).mono (fun _ => rfl) (Nat.le_refl _) (List.Subset.refl _) (hheld i u · hu)
  stored account row hrow := h.stored account row (hcredential account row hrow)
  single := ⟨h.single.exclusive, h.single.returned⟩

theorem Store.Held.of_leases {store store' : Store Sealed} (hleases : store'.leases = store.leases)
    {lease : PersistentLease} (h : store.Held lease) : store'.Held lease := by
  rw [Store.Held, Store.lease, hleases]
  exact h

/-- A credential is written. -/
theorem Inv.write (h : Inv fleet s) {aead : Aead Sealed} {write : CredentialWrite}
    {m : CredentialMetadata} {store : Store Sealed} (hwrote : s.store.Wrote aead write m store) :
    Inv fleet { s with
      store, history := s.history ++ [⟨m.accountId, m.principalId, m.generation⟩] } where
  tasks i u hu := (h.tasks i u hu).mono (fun _ => rfl) (Nat.le_refl _)
    (List.subset_append_left _ _) fun _ _ _ hheld => hheld.of_leases hwrote.leases
  stored account row hrow := by
    by_cases haccount : account = write.accountId
    · obtain ⟨row', hrow', hm⟩ := hwrote.credential_self
      rw [haccount] at hrow
      rw [hrow, Option.some.injEq] at hrow'
      rw [hrow', hm, haccount, ← hwrote.accountId_eq]
      exact List.mem_append_right _ (List.mem_singleton.2 rfl)
    · rw [hwrote.credential_ne haccount] at hrow
      exact List.mem_append_left _ (h.stored account row hrow)
  single := by
    refine ⟨h.single.exclusive, fun f hf => ?_⟩
    exact (h.single.returned f hf).mono (List.subset_append_left _ _)

theorem Inv.conclude (h : Inv fleet s) {outcome : SharedResult}
    (hsound : Finished.Sound s.history ⟨t.request, outcome, t.exchanged, t.superseded⟩) :
    Inv fleet (s.conclude id t outcome) where
  tasks i u hu := ((h.remove id).tasks i u hu).congr rfl rfl rfl rfl
  stored := h.stored
  single := by
    refine ⟨h.single.exclusive, fun f hf => ?_⟩
    rcases List.mem_append.1 hf with hf | hf
    · exact h.single.returned f hf
    · rw [List.mem_singleton.1 hf]
      exact hsound

/-- A flight is closed; its leader is gone, and its waiters are answered. -/
theorem Inv.closeFlight (h : Inv fleet s) (hgone : s.tasks id = none) {result : SharedResult}
    (hresult : ∀ r, result = .ok r → r ∈ s.history) : Inv fleet (s.closeFlight id t result) where
  tasks i u hu := by
    obtain ⟨w, hw, rfl⟩ := Option.map_eq_some_iff.1 hu
    have hok := h.tasks i w hw
    have hne : i ≠ id := by
      rintro rfl
      rw [hgone] at hw
      cases hw
    -- only a waiter's phase changes
    have hflight : w.phase.leads = true →
        (s.closeFlight id t result).flights w.process w.request.account =
          s.flights w.process w.request.account := by
      intro hleads
      refine if_neg ?_
      rintro ⟨-, -, hid⟩
      rw [hok.flight hleads, Option.some.injEq] at hid
      exact hne hid
    have hsame : TaskOk fleet (s.closeFlight id t result) i w :=
      hok.mono hflight (Nat.le_refl _) (List.Subset.refl _) fun _ _ _ hheld => hheld
    rcases w.phase.answer_cases id result with hkept | ⟨hjoined, hanswer⟩
    · rw [hkept]
      exact hsame
    · rw [hanswer]
      refine
        { flight := fun hleads => (nomatch hleads)
          reading := fun _ _ heq => (nomatch heq)
          identity := fun _ heq => (nomatch heq)
          held := fun _ heq => (nomatch heq)
          result := fun _ heq => (nomatch heq)
          answer := fun r heq => ?_
          exchanged := fun hex => ?_
          superseded := hok.superseded }
      · cases heq
        exact hresult r rfl
      · have hafter := hok.exchanged hex
        rw [hjoined] at hafter
        cases hafter
  stored := h.stored
  single := ⟨h.single.exclusive, h.single.returned⟩

/-- It does not matter whether a leader is gone before its flight is closed. -/
theorem closeFlight_setTask (s : System Sealed) (id : Nat) (t : Task) (result : SharedResult) :
    (s.closeFlight id t result).setTask id none =
      ((s.setTask id none).closeFlight id t result).setTask id none := by
  have htasks : ((s.closeFlight id t result).setTask id none).tasks =
      (((s.setTask id none).closeFlight id t result).setTask id none).tasks := by
    funext i
    by_cases hi : i = id
    · rw [hi, System.tasks_setTask_self, System.tasks_setTask_self]
    · rw [System.tasks_setTask_ne _ hi, System.tasks_setTask_ne _ hi]
      exact congrArg (Option.map _) (System.tasks_setTask_ne s hi none).symm
  exact congrArg (fun tasks => { s.closeFlight id t result with tasks }) htasks

theorem Inv.finish (h : Inv fleet s) {outcome : SharedResult}
    (hsound : Finished.Sound s.history ⟨t.request, outcome, t.exchanged, t.superseded⟩) :
    Inv fleet (s.finish id t outcome) := by
  have hclosed : Inv fleet ((s.setTask id none).closeFlight id t outcome) :=
    (h.remove id).closeFlight (System.tasks_setTask_self ..) fun r hr => (hsound.success r hr).2.2.2
  have heq : s.finish id t outcome =
      ((s.setTask id none).closeFlight id t outcome).conclude id t outcome := by
    rw [System.finish, System.conclude, System.conclude, closeFlight_setTask]
    rfl
  rw [heq]
  exact hclosed.conclude hsound

/-! ## Steps of a task -/

/-- A task that has not started an exchange. -/
theorem TaskOk.fresh (h : TaskOk fleet s id t) (hphase : t.phase.afterExchange = false) :
    t.exchanged = false := by
  by_contra hex
  rw [Bool.not_eq_false] at hex
  rw [h.exchanged hex] at hphase
  cases hphase

/-- A leader goes on under its lease. -/
theorem TaskOk.keep (h : TaskOk fleet s id t) {lease : PersistentLease}
    (hlease : t.phase.lease = some lease) {phase : RefreshPhase} (hsame : phase.lease = some lease)
    (hresult : ∀ r, phase.result = some r → r.Serves t.request s.history) {exchanged : Bool}
    (hexchanged : exchanged = true → phase.afterExchange = true) :
    TaskOk fleet s id { t with phase, exchanged } where
  flight _ := h.flight (RefreshPhase.leads_of_lease hlease)
  reading now handoffs heq := by
    rw [show phase = _ from heq] at hsame
    cases hsame
  identity lease' heq := h.identity lease' (hlease.trans (hsame.symm.trans heq))
  held lease' heq := h.held lease' (hlease.trans (hsame.symm.trans heq))
  result := hresult
  answer r heq := by
    rw [show phase = _ from heq] at hsame
    cases hsame
  exchanged := hexchanged
  superseded := h.superseded

/-- A leader that has no lease goes on to wait for a peer's, or to ask for one. -/
theorem TaskOk.retry (h : TaskOk fleet s id t) (hleads : t.phase.leads = true)
    (hfresh : t.phase.afterExchange = false) {phase : RefreshPhase}
    (hphase : (∃ expires handoffs, phase = .waiting expires handoffs) ∨
      ∃ handoffs, phase = .acquiring s.clock handoffs) : TaskOk fleet s id { t with phase } := by
  rcases hphase with ⟨expires, handoffs, rfl⟩ | ⟨handoffs, rfl⟩
  · exact
      { flight := fun _ => h.flight hleads
        reading := fun _ _ heq => (nomatch heq)
        identity := fun _ heq => (nomatch heq)
        held := fun _ heq => (nomatch heq)
        result := fun _ heq => (nomatch heq)
        answer := fun _ heq => (nomatch heq)
        exchanged := fun hex => absurd hex (by rw [h.fresh hfresh]; exact Bool.false_ne_true)
        superseded := h.superseded }
  · exact
      { flight := fun _ => h.flight hleads
        reading := fun _ _ heq => by cases heq; exact Nat.le_refl _
        identity := fun _ heq => (nomatch heq)
        held := fun _ heq => (nomatch heq)
        result := fun _ heq => (nomatch heq)
        answer := fun _ heq => (nomatch heq)
        exchanged := fun hex => absurd hex (by rw [h.fresh hfresh]; exact Bool.false_ne_true)
        superseded := h.superseded }

theorem sound_error {history : List RefreshResult} (kind : RefreshErrorKind)
    (hsuperseded : t.superseded = false) :
    Finished.Sound history ⟨t.request, .error kind, t.exchanged, t.superseded⟩ where
  success _ h := by cases h
  superseded h := by
    rw [hsuperseded] at h
    cases h

theorem Inv.abort (h : Inv fleet s) (ht : TaskOk fleet s id t) (kind : RefreshErrorKind) :
    Inv fleet (s.abort id t kind) := by
  rw [System.abort]
  split
  · next lease hlease =>
    exact h.insert (ht.keep hlease rfl (by rintro _ ⟨⟩) fun _ => rfl)
  · exact h.finish (sound_error kind ht.superseded)

/-- The lease of another task on the account is not touched by what this task may do to the row. -/
theorem Inv.held_of_writeLease (h : Inv fleet s) (ht : s.tasks id = some t)
    (hleads : t.phase.leads = true) {row : LeaseRow}
    (hfree : ∀ held, s.store.lease t.request.account refreshKind = some held →
      held.owner ≠ fleet.owner t.process → held.expiresAtMs ≤ s.clock)
    {i : Nat} {u : Task} {lease : PersistentLease} (hne : i ≠ id) (hu : s.tasks i = some u)
    (hlease : u.phase.lease = some lease) (hlt : s.clock < lease.expiresAtMs)
    (hheld : s.store.Held lease) :
    (s.store.writeLease t.request.account refreshKind row).Held lease := by
  obtain ⟨haccount, -, howner⟩ := (h.tasks i u hu).identity lease hlease
  obtain ⟨held, hheld, hsame, hle⟩ := hheld
  by_cases hkey : lease.accountId = t.request.account
  · have hother := h.owner_ne ht hleads hu (RefreshPhase.leads_of_lease hlease) hne (haccount ▸ hkey)
    rw [← howner, ← hsame] at hother
    rw [hkey] at hheld
    have := hfree held hheld hother
    omega
  · refine ⟨held, ?_, hsame, hle⟩
    rw [Store.lease_writeLease_ne, hheld]
    simp [hkey]

/-- The task's own lease, written with its phase. -/
theorem Inv.acquired (h : Inv fleet s) (ht : s.tasks id = some t) (hleads : t.phase.leads = true)
    {epoch expiresAtMs : Nat}
    (hfree : ∀ held, s.store.lease t.request.account refreshKind = some held →
      held.owner ≠ fleet.owner t.process → held.expiresAtMs ≤ s.clock)
    {phase : RefreshPhase}
    (hlease : phase.lease = some ⟨t.request.account, refreshKind, fleet.owner t.process, epoch,
      expiresAtMs⟩)
    (hresult : phase.result = none) (hexchanged : t.exchanged = true → phase.afterExchange = true) :
    Inv fleet ({ s with
      store := s.store.writeLease t.request.account refreshKind
        ⟨fleet.owner t.process, epoch, expiresAtMs⟩ }.setPhase id t phase) := by
  have hgone : Inv fleet { s.setTask id none with
      store := s.store.writeLease t.request.account refreshKind
        ⟨fleet.owner t.process, epoch, expiresAtMs⟩ } := by
    refine (h.remove id).changeLeases (fun _ _ hrow => hrow) fun i u lease hu hlease' hlt hheld => ?_
    by_cases hi : i = id
    · rw [hi, System.tasks_setTask_self] at hu
      cases hu
    · rw [System.tasks_setTask_ne s hi] at hu
      exact h.held_of_writeLease ht hleads hfree hi hu hlease' hlt hheld
  have hback : TaskOk fleet { s.setTask id none with
      store := s.store.writeLease t.request.account refreshKind
        ⟨fleet.owner t.process, epoch, expiresAtMs⟩ } id { t with phase } := by
    have hok := h.tasks id t ht
    refine
      { flight := fun _ => hok.flight hleads
        reading := fun _ _ heq => ?_
        identity := fun lease heq => ?_
        held := fun lease heq _ => ?_
        result := fun r heq => ?_
        answer := fun r heq => ?_
        exchanged := hexchanged
        superseded := hok.superseded }
    · rw [show phase = _ from heq] at hlease
      cases hlease
    · rw [show phase.lease = _ from heq, Option.some.injEq] at hlease
      rw [hlease]
      exact ⟨rfl, rfl, rfl⟩
    · rw [show phase.lease = _ from heq, Option.some.injEq] at hlease
      rw [hlease]
      exact ⟨_, Store.lease_writeLease_self _, rfl, Nat.le_refl _⟩
    · rw [show phase.result = _ from heq] at hresult
      cases hresult
    · rw [show phase = _ from heq] at hlease
      cases hlease
  have hinsert := hgone.insert hback
  rw [System.setPhase, System.setTask]
  rw [System.setTask, System.setTask] at hinsert
  simpa only [Function.update_idem] using hinsert

theorem Inv.acquire (h : Inv fleet s) (ht : s.tasks id = some t) {now handoffs : Nat}
    (hphase : t.phase = .acquiring now handoffs) :
    Inv fleet (s.acquire fleet id t now handoffs) := by
  have hok := h.tasks id t ht
  have hleads : t.phase.leads = true := by rw [hphase]; rfl
  have hfresh : t.phase.afterExchange = false := by rw [hphase]; rfl
  rw [System.acquire]
  split
  · exact h.finish (sound_error _ hok.superseded)
  · exact h.insert (hok.retry hleads hfresh (.inl ⟨_, _, rfl⟩))
  · next lease store hacquired =>
    rcases Store.tryAcquireLease_eq_ok hacquired with ⟨⟨_, _, _, hheld⟩, -⟩ | ⟨hfree, expiresAtMs, hlease, rfl⟩
    · cases hheld
    cases hlease
    refine h.acquired ht hleads ?_ rfl rfl ?_
    · -- an unexpired lease of a peer would have been found, for the clock is not behind
      intro held hheld hother
      have hread := hok.reading now handoffs hphase
      rw [hheld, Option.filter_eq_none_iff] at hfree
      have hexpired := hfree held rfl
      simp only [Store.heldByPeer, Int.toNat_natCast, Bool.and_eq_true, decide_eq_true_eq, bne_iff_ne,
        ne_eq, not_and, not_not] at hexpired
      by_contra hlt
      exact hother (hexpired (by omega))
    · intro hex
      rw [hok.fresh hfresh] at hex
      cases hex

theorem Inv.mem_history (h : Inv fleet s) {account : String} {m : CredentialMetadata}
    (hm : s.store.metadata account = some m) :
    ⟨account, m.principalId, m.generation⟩ ∈ s.history := by
  obtain ⟨row, hrow, rfl⟩ := Option.map_eq_some_iff.1 hm
  exact h.stored account row hrow

theorem Inv.poll (h : Inv fleet s) (ht : s.tasks id = some t) {leaseExpiresAt handoffs : Nat}
    (hphase : t.phase = .waiting leaseExpiresAt handoffs) :
    Inv fleet (s.poll id t leaseExpiresAt handoffs) := by
  have hok := h.tasks id t ht
  have hleads : t.phase.leads = true := by rw [hphase]; rfl
  have hfresh : t.phase.afterExchange = false := by rw [hphase]; rfl
  unfold System.poll
  split
  · next m hm =>
    obtain ⟨hm, hnewer⟩ := Option.filter_eq_some_iff.1 hm
    refine h.finish ⟨fun result hresult => ?_, fun hsuperseded => ?_⟩
    · obtain ⟨haccount, hprincipal, hlt, hmem⟩ := serves_of_validated hresult (h.mem_history hm)
      exact ⟨haccount, hprincipal, hlt, hmem⟩
    · rw [RefreshRequest.superseded, Bool.and_eq_true, decide_eq_true_eq, beq_iff_eq] at hsuperseded
      refine ⟨⟨⟨t.request.account, m.principalId, m.generation⟩, ?_⟩, hok.fresh hfresh⟩
      rw [validated, validateResult, if_neg (not_not.2 rfl), if_neg (not_not.2 hsuperseded.2),
        if_neg (Nat.not_le.2 hsuperseded.1)]
  · split
    · exact h
    · cases handoffs with
      | zero => exact h.finish (sound_error _ hok.superseded)
      | succ handoffs =>
        exact h.insert (hok.retry hleads hfresh (.inr ⟨handoffs, rfl⟩))

theorem metadata_of_loadOauthBundle {aead : Aead Sealed} {keys : KeySource} {store : Store Sealed}
    {account : String} {m : CredentialMetadata} {secret : Secret}
    (h : store.loadOauthBundle aead keys account = .ok (m, secret)) :
    store.metadata account = some m := by
  rw [Store.loadOauthBundle, Except.bind_eq_ok] at h
  obtain ⟨stored, hget, h⟩ := h
  rw [Except.ite_throw_eq_ok, Except.pure_eq_ok] at h
  obtain ⟨-, rfl⟩ := h
  rw [Store.get] at hget
  split at hget
  · cases hget
  · next row hrow =>
    obtain ⟨key, -, hget⟩ := Except.bind_eq_ok.1 hget
    obtain ⟨opened, -, hget⟩ := Except.bind_eq_ok.1 hget
    rw [Except.pure_eq_ok, Prod.mk.injEq] at hget
    rw [Store.metadata, hrow, Option.map_some, hget.1]

theorem Inv.load (h : Inv fleet s) (ht : s.tasks id = some t) {lease : PersistentLease}
    (hphase : t.phase = .loading lease)
    (hfit : ∀ m, s.store.metadata t.request.account = some m → t.request.superseded m = false) :
    Inv fleet (s.load fleet id t lease) := by
  have hok := h.tasks id t ht
  rw [System.load]
  split
  · exact h.abort hok _
  · next m secret hloaded =>
    split
    · next error hcheck =>
      have hsame : { t with superseded := t.request.superseded m } = t := by
        rw [hfit m (metadata_of_loadOauthBundle hloaded), ← hok.superseded]
      rw [hsame]
      exact h.abort hok _
    · refine h.insert (hok.keep (by rw [hphase]; rfl) rfl (by rintro _ ⟨⟩) ?_)
      intro hex
      rw [hok.fresh (by rw [hphase]; rfl)] at hex
      cases hex

/-- A leader with an unexpired lease is not contended. -/
theorem TaskOk.not_contended (h : TaskOk fleet s id t) {lease : PersistentLease}
    (hlease : t.phase.lease = some lease) (hlt : s.clock < lease.expiresAtMs) :
    s.contended t.request.account (fleet.owner t.process) = false := by
  obtain ⟨haccount, -, howner⟩ := h.identity lease hlease
  obtain ⟨row, hrow, hsame, -⟩ := h.held lease hlease hlt
  rw [System.contended, ← haccount, hrow, Option.any_some, Store.heldByPeer, hsame, howner, bne_self_eq_false,
    Bool.and_false]

theorem Inv.exchange (h : Inv fleet s) (ht : s.tasks id = some t) {lease : PersistentLease}
    (hphase : t.phase = .loaded lease) (hfit : s.clock < lease.expiresAtMs) :
    Inv fleet (s.exchange fleet id t lease) := by
  have hok := h.tasks id t ht
  have hlease : t.phase.lease = some lease := by rw [hphase]; rfl
  have hlogged : Inv fleet { s with
      exchanges := s.exchanges ++ [⟨fleet.owner t.process, t.request.account, t.request.rejected,
        s.contended t.request.account (fleet.owner t.process)⟩] } := by
    refine ⟨fun i u hu => (h.tasks i u hu).congr rfl rfl rfl rfl, h.stored, ?_, h.single.returned⟩
    intro e he
    rcases List.mem_append.1 he with he | he
    · exact h.single.exclusive e he
    · rw [List.mem_singleton.1 he]
      exact hok.not_contended hlease hfit
  exact hlogged.insert ((hlogged.tasks id t ht).keep hlease rfl (by rintro _ ⟨⟩) fun _ => rfl)

/-- A renewal moves the end of the lease and nothing else of it. -/
theorem renewLease_true {store store' : Store Sealed} {lease lease' : PersistentLease} {now : Int}
    {ttl : Nat} (h : store.renewLease lease now ttl = .ok (true, lease', store')) :
    ∃ expiresAtMs, lease' = { lease with expiresAtMs } ∧
      store' = store.writeLease lease.accountId lease.kind ⟨lease.owner, lease.epoch, expiresAtMs⟩ := by
  rw [Store.renewLease, Except.bind_eq_ok] at h
  obtain ⟨nowMs, -, h⟩ := h
  rw [Except.bind_eq_ok] at h
  obtain ⟨expiresAtMs, -, h⟩ := h
  rw [Except.unit_bind_eq_ok, Except.unit_bind_eq_ok, Except.unit_bind_eq_ok,
    Except.pure_eq_ok] at h
  obtain ⟨-, -, -, h⟩ := h
  split at h
  · cases h
    exact ⟨expiresAtMs, rfl, rfl⟩
  · cases h

theorem Inv.renew (h : Inv fleet s) (ht : s.tasks id = some t) {lease : PersistentLease}
    (hphase : t.phase = .exchanging lease) : Inv fleet (s.renew fleet id t lease) := by
  have hok := h.tasks id t ht
  rw [System.renew]
  split
  · exact h.abort hok _
  · exact h.abort hok _
  · next lease' store hrenewed =>
    obtain ⟨haccount, hkind, howner⟩ := hok.identity lease (by rw [hphase]; rfl)
    obtain ⟨expiresAtMs, rfl, hstore⟩ := renewLease_true hrenewed
    have hmatch : s.store.matchesLease lease = true := by
      rcases Store.renewLease_eq_ok hrenewed with ⟨hfalse, -⟩ | ⟨-, hmatch, -⟩
      · cases hfalse
      · exact hmatch
    obtain ⟨held, hheld, hsame, -⟩ := Store.matchesLease_iff.1 hmatch
    rw [hstore]
    obtain ⟨accountId, kind, owner, epoch, oldExpiry⟩ := lease
    obtain rfl : accountId = t.request.account := haccount
    obtain rfl : kind = refreshKind := hkind
    obtain rfl : owner = fleet.owner t.process := howner
    refine h.acquired ht (by rw [hphase]; rfl) ?_ rfl rfl fun _ => rfl
    intro held' hheld' hother
    rw [show s.store.lease t.request.account refreshKind = some held from hheld,
      Option.some.injEq] at hheld'
    exact absurd (hheld' ▸ hsame) hother

theorem Inv.settle (h : Inv fleet s) (ht : s.tasks id = some t) {lease : PersistentLease}
    (hphase : t.phase = .exchanging lease) (nonce : List UInt8)
    (reply : Option (Secret × Option Nat)) : Inv fleet (s.settle fleet id t lease nonce reply) := by
  have hok := h.tasks id t ht
  cases reply with
  | none => exact h.abort hok _
  | some reply =>
    rw [System.settle]
    dsimp only
    split
    · exact h.abort hok _
    · next m store hput =>
      have hwritten := h.write (Store.putUnderLease_eq_ok hput).2
      have hok' := hwritten.tasks id t ht
      split
      · exact hwritten.abort hok' _
      · next hvalid =>
        obtain ⟨haccount, hprincipal, hnewer⟩ := validateResult_eq_ok hvalid
        refine hwritten.insert (hok'.keep (by rw [hphase]; rfl) rfl ?_ fun _ => rfl)
        rintro _ ⟨⟩
        exact ⟨haccount, hprincipal, hnewer, List.mem_append_right _ (List.mem_singleton.2 rfl)⟩

theorem Inv.publish (h : Inv fleet s) (ht : s.tasks id = some t) {lease : PersistentLease}
    {result : RefreshResult} (hphase : t.phase = .publishing lease result) :
    Inv fleet (s.publish id t lease result) := by
  have hok := h.tasks id t ht
  rw [System.publish]
  split
  · exact h.abort hok _
  · refine h.insert (hok.keep (by rw [hphase]; rfl) rfl ?_ fun _ => rfl)
    rintro _ ⟨⟩
    exact hok.result result (by rw [hphase]; rfl)

/-- The tasks that are left when a leader has finished, but for answers to waiters. -/
theorem tasks_finish {outcome : SharedResult} {i : Nat} {u : Task} {lease : PersistentLease}
    (hu : (s.finish id t outcome).tasks i = some u) (hlease : u.phase.lease = some lease) :
    i ≠ id ∧ s.tasks i = some u := by
  have hne : i ≠ id := by
    rintro rfl
    have hnone : (s.finish i t outcome).tasks i = none := System.tasks_setTask_self ..
    rw [hnone] at hu
    cases hu
  have hold : (s.finish id t outcome).tasks i = (s.closeFlight id t outcome).tasks i :=
    System.tasks_setTask_ne _ hne _
  rw [hold] at hu
  obtain ⟨w, hw, rfl⟩ := Option.map_eq_some_iff.1 hu
  rcases w.phase.answer_cases id outcome with hkept | ⟨-, hanswer⟩
  · rw [hkept]
    exact ⟨hne, hw⟩
  · rw [show _ = RefreshPhase.answered outcome from hanswer] at hlease
    cases hlease

theorem Inv.release (h : Inv fleet s) (ht : s.tasks id = some t) {lease : PersistentLease}
    {outcome : SharedResult} (hphase : t.phase = .releasing lease outcome) :
    Inv fleet (s.release id t lease outcome) := by
  have hok := h.tasks id t ht
  have hfinished : Inv fleet (s.finish id t outcome) := by
    refine h.finish ⟨?_, ?_⟩
    · rintro result rfl
      obtain ⟨haccount, hprincipal, hnewer, hmem⟩ := hok.result result (by rw [hphase]; rfl)
      exact ⟨haccount, hprincipal, hnewer, hmem⟩
    · intro hsuperseded
      rw [hok.superseded] at hsuperseded
      cases hsuperseded
  rw [System.release]
  split
  · next released store hreleased =>
    change Inv fleet { s.finish id t outcome with store }
    rcases Store.releaseLease_eq_ok hreleased with ⟨-, rfl⟩ | ⟨-, hmatch, rfl⟩
    · exact hfinished
    obtain ⟨haccount, hkind, howner⟩ := hok.identity lease (by rw [hphase]; rfl)
    obtain ⟨held, hheld, hsame, -⟩ := Store.matchesLease_iff.1 hmatch
    refine hfinished.changeLeases (fun _ _ hrow => hrow) fun i u lease' hu hlease' hlt hheld' => ?_
    obtain ⟨hne, hu⟩ := tasks_finish hu hlease'
    obtain ⟨haccount', -, howner'⟩ := (h.tasks i u hu).identity lease' hlease'
    obtain ⟨row, hrow, hrowner, hle⟩ := hheld'
    have hkey : (lease'.accountId, refreshKind) ≠ (lease.accountId, lease.kind) := by
      -- the row that is released is this task's
      intro hkey
      rw [Prod.mk.injEq] at hkey
      have hother := h.owner_ne ht (by rw [hphase]; rfl) hu
        (RefreshPhase.leads_of_lease hlease') hne (by rw [← haccount', hkey.1, haccount])
      change s.store.lease lease'.accountId refreshKind = some row at hrow
      rw [hkey.1, hkey.2, hheld, Option.some.injEq] at hrow
      rw [← howner', ← howner, ← hrowner, ← hsame, hrow] at hother
      exact hother rfl
    exact ⟨row, (KeyedList.first_remove_ne hkey _).trans hrow, hrowner, hle⟩
  · exact hfinished

theorem Inv.receive (h : Inv fleet s) (ht : s.tasks id = some t) {result : SharedResult}
    (hphase : t.phase = .answered result) : Inv fleet (s.receive id t result) := by
  have hok := h.tasks id t ht
  refine h.conclude ⟨fun served hserved => ?_, fun hsuperseded => ?_⟩
  · cases result with
    | error kind => cases hserved
    | ok shared =>
      obtain ⟨haccount, hprincipal, hnewer, hmem⟩ :=
        serves_of_validated hserved (hok.answer shared hphase)
      exact ⟨haccount, hprincipal, hnewer, hmem⟩
  · rw [hok.superseded] at hsuperseded
    cases hsuperseded

theorem Inv.cancel (h : Inv fleet s) : Inv fleet (s.cancel id t) := by
  rw [System.cancel]
  split
  · rw [closeFlight_setTask]
    refine Inv.remove ?_ id
    exact (h.remove id).closeFlight (System.tasks_setTask_self ..) fun r hr => (nomatch hr)
  · exact h.remove id

/-! ## Steps of the others -/

theorem Inv.tick (h : Inv fleet s) (now : Nat) : Inv fleet { s with clock := max s.clock now } where
  tasks i u hu := (h.tasks i u hu).mono (fun _ => rfl) (Nat.le_max_left ..) (List.Subset.refl _)
    fun _ _ _ hheld => hheld
  stored := h.stored
  single := ⟨h.single.exclusive, h.single.returned⟩

theorem Inv.call (h : Inv fleet s) (process : Nat) (request : RefreshRequest)
    (origin : CredentialOrigin) : Inv fleet (s.call fleet id process request origin) := by
  rw [System.call]
  split
  · exact h
  next hnew =>
  split
  · next leader _ =>
    refine h.insert
      { flight := fun hleads => (nomatch hleads)
        reading := fun _ _ heq => (nomatch heq)
        identity := fun _ heq => (nomatch heq)
        held := fun _ heq => (nomatch heq)
        result := fun _ heq => (nomatch heq)
        answer := fun _ heq => (nomatch heq)
        exchanged := fun hex => (nomatch hex)
        superseded := rfl }
  · next hnone =>
    refine Inv.insert ⟨fun i u hu => ?_, h.stored, h.single.exclusive, h.single.returned⟩
      { flight := fun _ => ?_
        reading := fun now handoffs heq => ?_
        identity := fun _ heq => (nomatch heq)
        held := fun _ heq => (nomatch heq)
        result := fun _ heq => (nomatch heq)
        answer := fun _ heq => (nomatch heq)
        exchanged := fun hex => (nomatch hex)
        superseded := rfl }
    · -- a running leader has a flight, and there was none here
      have hok := h.tasks i u hu
      refine hok.mono (fun hleads => ?_) (Nat.le_refl _) (List.Subset.refl _)
        fun _ _ _ hheld => hheld
      have hflight := hok.flight hleads
      by_cases hprocess : u.process = process
      · rw [hprocess] at hflight
        have haccount : u.request.account ≠ request.account := by
          intro haccount
          rw [haccount, hnone] at hflight
          cases hflight
        rw [hprocess]
        dsimp only
        rw [Function.update_self, Function.update_of_ne haccount]
      · dsimp only
        rw [Function.update_of_ne hprocess]
    · dsimp only
      rw [Function.update_self, Function.update_self]
    · cases heq
      rw [not_or, Nat.not_lt] at hnew
      exact hnew.2

theorem Inv.crash (h : Inv fleet s) (process : Nat) : Inv fleet (s.crash process) where
  tasks i u hu := by
    obtain ⟨hu, hother⟩ := Option.filter_eq_some_iff.1 hu
    rw [decide_eq_true_eq] at hother
    exact (h.tasks i u hu).mono (fun _ => if_neg hother) (Nat.le_refl _) (List.Subset.refl _)
      fun _ _ _ hheld => hheld
  stored := h.stored
  single := ⟨h.single.exclusive, h.single.returned⟩

theorem Inv.put (h : Inv fleet s) (nonce : List UInt8) (write : CredentialWrite) :
    Inv fleet (s.put fleet nonce write) := by
  rw [System.put]
  split
  · next m store hput => exact h.write (Store.putInner_eq_ok hput).2
  · exact h

theorem lease_delete_ne {store : Store Sealed} {account account' : String} (h : account' ≠ account)
    (kind : String) : (store.delete account).lease account' kind = store.lease account' kind := by
  rw [Store.delete]
  split
  · exact KeyedList.first_filter (fun k : String × String => k.1 != account) (by simpa using h) _
  · rfl

theorem Inv.delete (h : Inv fleet s) {account : String}
    (hfit : ∀ id t lease, s.tasks id = some t → t.phase.lease = some lease →
      lease.accountId = account → lease.expiresAtMs ≤ s.clock) :
    Inv fleet { s with store := s.store.delete account } := by
  refine h.changeLeases (fun _ _ => Store.credential_delete_eq_some) ?_
  rintro i u lease hu hlease hlt ⟨row, hrow, howner, hle⟩
  have hne : lease.accountId ≠ account := by
    intro haccount
    have := hfit i u lease hu hlease haccount
    omega
  exact ⟨row, (lease_delete_ne hne _).trans hrow, howner, hle⟩

/-! ## Runs -/

theorem Inv.taskStep (h : Inv fleet s) (ht : s.tasks id = some t) {event : Event}
    (hid : event.task = some id) (hfit : event.Fit s) : Inv fleet (s.taskStep fleet id t event) := by
  have hok := h.tasks id t ht
  cases event with
  | acquire i =>
    rw [System.taskStep]
    split
    · next hphase => exact h.acquire ht hphase
    · exact h
  | poll i =>
    rw [System.taskStep]
    split
    · next hphase => exact h.poll ht hphase
    · exact h
  | load i =>
    cases hid
    rw [System.taskStep]
    split
    · next lease hphase => exact h.load ht hphase fun m hm => hfit t lease m ht hphase hm
    · exact h
  | exchange i =>
    cases hid
    rw [System.taskStep]
    split
    · next lease hphase => exact h.exchange ht hphase (hfit t lease ht hphase)
    · exact h
  | renew i =>
    rw [System.taskStep]
    split
    · next hphase => exact h.renew ht hphase
    · exact h
  | settle i nonce reply =>
    rw [System.taskStep]
    split
    · next hphase => exact h.settle ht hphase nonce reply
    · exact h
  | publish i =>
    rw [System.taskStep]
    split
    · next hphase => exact h.publish ht hphase
    · exact h
  | release i =>
    rw [System.taskStep]
    split
    · next hphase => exact h.release ht hphase
    · exact h
  | receive i =>
    rw [System.taskStep]
    split
    · next hphase => exact h.receive ht hphase
    · exact h
  | fail i kind =>
    rw [System.taskStep]
    split
    · exact h
    · exact h
    · exact h
    · exact h.abort hok kind
  | cancel i => exact h.cancel
  | _ => exact h

theorem Inv.step (h : Inv fleet s) {event : Event} (hfit : event.Fit s) :
    Inv fleet (s.step fleet event) := by
  rw [System.step.eq_def]
  split
  · exact h.tick _
  · exact h.call ..
  · exact h.crash _
  · exact h.put ..
  · exact h.delete hfit
  · split
    · next id hid =>
      split
      · next t ht => exact h.taskStep ht hid hfit
      · exact h
    · exact h

theorem Inv.run {events : List Event} (h : Inv fleet s) (hfit : s.FitRun fleet events) :
    Inv fleet (s.run fleet events) := by
  induction events generalizing s with
  | nil => exact h
  | cons event events ih => exact ih (h.step hfit.1) hfit.2

/-- In every fit run, from any store and with any processes and tasks, refreshes are single flight. -/
theorem singleFlight_of_fitRun {clock : Nat} {store : Store Sealed} {events : List Event}
    (hfit : (System.start clock store).FitRun fleet events) :
    ((System.start clock store).run fleet events).SingleFlight :=
  ((inv_start fleet clock store).run hfit).single

end

/-! ## Two processes -/

/-- `Event.Fit` as a test. A deletion is not tested. -/
def Event.fits (s : System Sealed) : Event → Bool
  | .exchange id => (s.tasks id).all fun t =>
    match t.phase with
    | .loaded lease => s.clock < lease.expiresAtMs
    | _ => true
  | .load id => (s.tasks id).all fun t =>
    (s.store.metadata t.request.account).all fun m => !t.request.superseded m
  | .delete _ => false
  | _ => true

theorem Event.fit_of_fits {s : System Sealed} {event : Event} (h : event.fits s = true) :
    event.Fit s := by
  cases event with
  | exchange id =>
    intro t lease ht hphase
    rw [fits, ht, Option.all_some, hphase] at h
    exact of_decide_eq_true h
  | load id =>
    intro t lease m ht hphase hm
    rw [fits, ht, Option.all_some, hm, Option.all_some, Bool.not_eq_true'] at h
    exact h
  | delete account => cases h
  | _ => trivial

def System.fitsRun (fleet : Fleet Sealed) (s : System Sealed) : List Event → Bool
  | [] => true
  | event :: events => event.fits s && fitsRun fleet (s.step fleet event) events

theorem System.fitRun_of_fitsRun {fleet : Fleet Sealed} {s : System Sealed} {events : List Event}
    (h : s.fitsRun fleet events = true) : s.FitRun fleet events := by
  induction events generalizing s with
  | nil => trivial
  | cons event events ih =>
    rw [fitsRun, Bool.and_eq_true] at h
    exact ⟨Event.fit_of_fits h.1, ih h.2⟩

/-- Processes whose tokens differ in length. -/
def counted : Fleet (List UInt8 × List UInt8 × SecretContext × Secret) where
  owner n := .ofList (List.replicate n 'p')
  owner_injective m n h := by
    have hlength := congrArg List.length (String.ofList_injective h)
    rwa [List.length_replicate, List.length_replicate] at hlength
  policy := ⟨30000, 4⟩
  aead := idealAead
  keys := soleKey

/-- A login stores the account's next generation. -/
def signIn : Event :=
  .put [] { RefreshRequest.write ⟨"work", "ada", 0, 0⟩ .persistent [1] none with
    expectedGeneration := none }

/-- A leader with a waiter, and a peer that waits for their lease: one exchange serves all three. -/
theorem singleFlight_peers :
    let s := (System.start 0 .empty).run counted
      [signIn, .call 0 0 ⟨"work", "ada", 1, 0⟩ .persistent, .call 1 0 ⟨"work", "ada", 1, 0⟩ .persistent,
        .call 2 1 ⟨"work", "ada", 1, 0⟩ .persistent, .acquire 0, .acquire 2, .load 0, .exchange 0,
        .tick 10000, .renew 0, .poll 2, .settle 0 [] (some ([2], none)), .publish 0, .release 0,
        .receive 1, .poll 2]
    s.exchanges.length = 1 ∧
      s.finished.map (fun f => f.outcome.toOption.map (·.generation)) = [some 2, some 2, some 2] ∧
      s.SingleFlight := by
  refine ⟨by decide +kernel, by decide +kernel, singleFlight_of_fitRun ?_⟩
  exact System.fitRun_of_fitsRun (by decide +kernel)

/-- A leader that finds the generation superseded fails, and one whose lease ran out before it starts
its exchange does so under a peer's. -/
theorem superseded_refused_and_exchange_contended :
    ¬ ((System.start 0 .empty).run counted
      [signIn, signIn, .call 0 0 ⟨"work", "ada", 1, 0⟩ .persistent, .acquire 0, .load 0,
        .release 0]).SingleFlight ∧
    ¬ ((System.start 0 .empty).run counted
      [signIn, .call 0 0 ⟨"work", "ada", 1, 0⟩ .persistent, .acquire 0, .load 0, .tick 40000,
        .call 1 1 ⟨"work", "ada", 1, 40000⟩ .persistent, .acquire 1, .exchange 0]).SingleFlight := by
  constructor
  · intro h
    obtain ⟨⟨result, hresult⟩, -⟩ := (h.returned _ List.mem_cons_self).superseded (by decide +kernel)
    cases hresult
  · intro h
    have hcontended := h.exclusive _ List.mem_cons_self
    revert hcontended
    decide +kernel

end OhMyPi.Credentials
