import Mathlib.Data.List.Perm.Basic
import OhMyPi.Docserver.LeaseSafety

/-! Exclusivity of workspace leases over all interleavings: the invariant of the system and what the
answers of the table mean. -/

namespace OhMyPi.Docserver

open KeyedList

namespace LeaseSystem

/-- A lease that is in the table. -/
def Holds (sys : LeaseSystem) (id : Bytes16) (lease : WorkspaceLeaseRecord) : Prop :=
  first id sys.table.leases = some lease

/-- Leases do not overlap. -/
def LeasesApart (sys : LeaseSystem) : Prop :=
  ∀ id id' lease lease', sys.Holds id lease → sys.Holds id' lease' → id ≠ id' →
    ∀ path ∈ lease.paths, ∀ path' ∈ lease'.paths, overlaps path path' = false

/-- No running mutation overlaps the lease of another owner. -/
def MutationsShielded (sys : LeaseSystem) : Prop :=
  ∀ guard ∈ sys.guards, ∀ path ∈ guard.paths, ∀ id lease, sys.Holds id lease →
    ∀ path' ∈ lease.paths, overlaps path path' = true → lease.owner = guard.owner

/-- A recorded lease is held, or it has been released. -/
def LedgerTracked (sys : LeaseSystem) : Prop :=
  ∀ owner transactionId outcome, first (owner, transactionId) sys.table.ledger = some outcome →
    ∀ id ∈ outcome.leaseId, (∃ lease, sys.Holds id lease ∧ lease.owner = owner) ∨
      (owner, id) ∈ sys.released

structure Inv (sys : LeaseSystem) : Prop where
  consistent : sys.table.Consistent
  counted : Counted sys.table.mutations sys.guards
  shielded : sys.MutationsShielded
  tracked : sys.LedgerTracked

theorem inv_start : Inv {} where
  consistent := by
    refine ⟨List.nodup_nil, fun path id => ⟨fun h => ?_, ?_⟩, fun _ _ _ _ h => ?_⟩
    · cases h
    · rintro ⟨_, h, _⟩
      cases h
    · cases h
  counted := by
    refine ⟨List.nodup_nil, fun _ _ _ h => ?_, fun _ h => ?_⟩
    · cases h
    · cases h
  shielded _ h := by cases h
  tracked _ _ _ h := by cases h

/-! ## Releasing -/

section

variable {sys : LeaseSystem} {owner id : Bytes16}

/-- Either nothing happens, or the lease is gone and noted. -/
theorem release_cases (sys : LeaseSystem) (owner id : Bytes16) :
    (sys.release owner id).2 = sys ∨
      (∃ lease, sys.Holds id lease ∧ lease.owner = owner) ∧
        (sys.release owner id).2.table.leases = remove id sys.table.leases ∧
        (sys.release owner id).2.released = (owner, id) :: sys.released := by
  rw [LeaseSystem.release, WorkspaceLeaseState.release]
  split
  · exact .inl rfl
  · next lease hlease =>
    split
    · exact .inl rfl
    · next howner => exact .inr ⟨⟨lease, hlease, Decidable.not_not.1 howner⟩, rfl, rfl⟩

theorem table_release (sys : LeaseSystem) (owner id : Bytes16) :
    (sys.release owner id).2.table = (sys.table.release owner id).2 := rfl

theorem mutations_release (s : WorkspaceLeaseState) (owner id : Bytes16) :
    (s.release owner id).2.mutations = s.mutations ∧ (s.release owner id).2.ledger = s.ledger := by
  rw [WorkspaceLeaseState.release]
  split
  · exact ⟨rfl, rfl⟩
  · split <;> exact ⟨rfl, rfl⟩

theorem Inv.release (h : sys.Inv) (owner id : Bytes16) : (sys.release owner id).2.Inv := by
  have hheld {other : Bytes16} {lease : WorkspaceLeaseRecord}
      (hlease : (sys.release owner id).2.Holds other lease) : sys.Holds other lease := by
    rcases release_cases sys owner id with heq | ⟨-, hleases, -⟩
    · rwa [heq] at hlease
    · rw [Holds, hleases, first_remove] at hlease
      split at hlease
      · cases hlease
      · exact hlease
  refine ⟨h.consistent.release owner id, ?_, ?_, ?_⟩
  · rw [table_release, (mutations_release _ _ _).1]
    exact h.counted
  · exact fun guard hguard path hpath other lease hlease =>
      h.shielded guard hguard path hpath other lease (hheld hlease)
  · intro other transactionId outcome houtcome lost hlost
    rw [table_release, (mutations_release _ _ _).2] at houtcome
    have hbefore := h.tracked other transactionId outcome houtcome lost hlost
    rcases release_cases sys owner id with heq | ⟨⟨mine, hmine, howner⟩, hleases, hreleased⟩
    · rw [heq]
      exact hbefore
    · rw [hreleased]
      rcases hbefore with ⟨lease, hlease, hother⟩ | hgone
      · by_cases hid : lost = id
        · subst hid
          obtain rfl : mine = lease := Option.some.inj (hmine.symm.trans hlease)
          rw [← hother, howner]
          exact .inr List.mem_cons_self
        · refine .inl ⟨lease, ?_, hother⟩
          rw [Holds, hleases, first_remove_ne hid]
          exact hlease
      · exact .inr (List.mem_cons_of_mem _ hgone)

/-! ## Acquiring -/

/-- What acquiring can do: a recorded answer, an answer without a lease, or a new lease for paths
that are free. -/
theorem acquire_cases {s s' : WorkspaceLeaseState} {it : Iteration} {transactionId : Bytes16}
    {paths : List PathBuf} {active : List (PathBuf × Bytes16)} {dryRun : Bool} {draws : List Bytes16}
    {outcome : WorkspaceLeaseOutcome}
    (h : s.acquire it owner transactionId paths active dryRun draws = some (outcome, s')) :
    (s' = s ∧ dryRun = false ∧ first (owner, transactionId) s.ledger = some outcome) ∨
      (outcome.leaseId = none ∧ (s' = s ∨ s' = s.record owner transactionId outcome)) ∨
      ∃ id, outcome.leaseId = some id ∧ first id s.leases = none ∧
        s' = (s.claim owner id paths).record owner transactionId outcome ∧
        ∀ path ∈ paths, (∀ r ∈ s.byPath, overlaps path r.1 = false) ∧
          ∀ m ∈ s.mutations, overlaps path m.1 = false := by
  rw [WorkspaceLeaseState.acquire] at h
  split at h
  · next recorded hrecorded =>
    cases h
    split at hrecorded
    · cases hrecorded
    · next hdry => exact .inl ⟨rfl, Bool.eq_false_iff.2 hdry, hrecorded⟩
  · simp only at h
    split at h
    · cases h
      exact .inr (.inl ⟨rfl, .inl rfl⟩)
    · split at h
      · cases h
        exact .inr (.inl ⟨rfl, .inr rfl⟩)
      · next hconflicts =>
        obtain ⟨id, hid, heq⟩ := Option.map_eq_some_iff.1 h
        cases heq
        have hfresh := List.find?_some hid
        have hnil : s.conflicts it paths active = [] := by simpa using hconflicts
        exact .inr (.inr ⟨id, rfl, Option.isNone_iff_eq_none.1 hfresh, rfl,
          WorkspaceLeaseState.free_of_conflicts hnil⟩)

/-- A new answer without a lease. -/
theorem Inv.record (h : sys.Inv) {transactionId : Bytes16} {outcome : WorkspaceLeaseOutcome}
    (hnone : outcome.leaseId = none) :
    Inv { sys with table := sys.table.record owner transactionId outcome } where
  consistent := ⟨h.consistent.keys, h.consistent.reserved, h.consistent.apart⟩
  counted := h.counted
  shielded := h.shielded
  tracked other transactionId' outcome' houtcome id hid := by
    simp only [WorkspaceLeaseState.record, first_assign] at houtcome
    split at houtcome
    · cases houtcome
      rw [hnone] at hid
      cases hid
    · exact h.tracked other transactionId' outcome' houtcome id hid

/-- A new lease. -/
theorem Inv.claim (h : sys.Inv) {transactionId : Bytes16} {outcome : WorkspaceLeaseOutcome}
    {paths : List PathBuf} (hid : outcome.leaseId = some id) (hfresh : first id sys.table.leases = none)
    (hfree : ∀ path ∈ paths, (∀ r ∈ sys.table.byPath, overlaps path r.1 = false) ∧
      ∀ m ∈ sys.table.mutations, overlaps path m.1 = false) :
    Inv { sys with
      table := (sys.table.claim owner id paths).record owner transactionId outcome } := by
  have hclaimed : (sys.table.claim owner id paths).Consistent :=
    h.consistent.claim hfresh fun path hpath => (hfree path hpath).1
  refine ⟨⟨hclaimed.keys, hclaimed.reserved, hclaimed.apart⟩, h.counted, ?_, ?_⟩
  · intro guard hguard path hpath other lease hlease path' hpath' hoverlap
    rw [Holds] at hlease
    simp only [WorkspaceLeaseState.record, WorkspaceLeaseState.claim, first_assign] at hlease
    split at hlease
    · cases hlease
      -- The paths of a new lease overlap no running mutation.
      obtain ⟨n, hn⟩ := h.counted.guarded guard hguard path hpath
      have hno := (hfree path' hpath').2 _ ((first_eq_some_iff h.counted.keys).1 hn)
      rw [overlaps_comm, hoverlap] at hno
      cases hno
    · exact h.shielded guard hguard path hpath other lease hlease path' hpath' hoverlap
  · intro other transactionId' outcome' houtcome lost hlost
    have hnew : LeaseSystem.Holds { sys with
        table := (sys.table.claim owner id paths).record owner transactionId outcome } id
          ⟨owner, paths⟩ := first_assign_self ..
    simp only [WorkspaceLeaseState.record, WorkspaceLeaseState.claim, first_assign] at houtcome
    split at houtcome
    · next hkey =>
      cases houtcome
      rw [hid] at hlost
      cases hlost
      exact .inl ⟨_, hnew, (congrArg Prod.fst hkey).symm⟩
    · rcases h.tracked other transactionId' outcome' houtcome lost hlost with
        ⟨lease, hlease, howner⟩ | hgone
      · refine .inl ⟨lease, ?_, howner⟩
        have hne : lost ≠ id := by
          rintro rfl
          rw [Holds, hfresh] at hlease
          cases hlease
        rw [Holds]
        simp only [WorkspaceLeaseState.record, WorkspaceLeaseState.claim]
        rw [first_assign_ne hne]
        exact hlease
      · exact .inr hgone

/-! ## Mutations -/

theorem beginMutation_eq_ok {s s' : WorkspaceLeaseState} {it : Iteration} {paths : List PathBuf}
    {guard : WorkspaceMutationGuard} (h : s.beginMutation it owner paths = .ok (guard, s')) :
    guard.owner = owner ∧
      s' = { s with
        mutations := guard.paths.foldl (WorkspaceLeaseState.countMutation owner) s.mutations } ∧
      ∀ path ∈ guard.paths,
        (∀ r ∈ it.iter s.byPath, s.refuseReserved owner path r = .ok ()) ∧
        ∀ m ∈ it.iter s.mutations, WorkspaceLeaseState.refuseMutating owner path m = .ok () := by
  obtain ⟨hchecks, hrest⟩ := Except.unit_bind_eq_ok.1 h
  cases hrest
  refine ⟨rfl, rfl, fun path hpath => ?_⟩
  obtain ⟨hreserved, hmutating⟩ := Except.unit_bind_eq_ok.1 (Except.forM_eq_ok.1 hchecks path hpath)
  exact ⟨Except.forM_eq_ok.1 hreserved, Except.forM_eq_ok.1 hmutating⟩

theorem Inv.begin (h : sys.Inv) {it : Iteration} {paths : List PathBuf} {table : WorkspaceLeaseState}
    {guard : WorkspaceMutationGuard}
    (hbegin : sys.table.beginMutation it owner paths = .ok (guard, table)) :
    Inv { sys with table := table, guards := sys.guards ++ [guard] } := by
  obtain ⟨rfl, rfl, hchecks⟩ := beginMutation_eq_ok hbegin
  have hperm : (guard :: sys.guards).Perm (sys.guards ++ [guard]) :=
    (List.perm_append_singleton guard sys.guards).symm
  refine ⟨⟨h.consistent.keys, h.consistent.reserved, h.consistent.apart⟩, ?_, ?_, h.tracked⟩
  · refine (h.counted.begin fun path hpath other n hn => ?_).perm hperm
    have hmem := it.mem_iter.2 ((first_eq_some_iff h.counted.keys).1 hn)
    have hok := (hchecks path hpath).2 _ hmem
    rw [WorkspaceLeaseState.refuseMutating, Except.ite_error_eq_ok] at hok
    simpa using hok.1
  · intro other hother path hpath id lease hlease path' hpath' hoverlap
    rcases List.mem_cons.1 (hperm.mem_iff.2 hother) with rfl | hother
    · have hok := (hchecks path hpath).1 _ (h.consistent.mem_byPath hlease hpath')
      have hfirst : first id sys.table.leases = some lease := hlease
      rw [WorkspaceLeaseState.refuseReserved, if_pos hoverlap, hfirst] at hok
      simp only [Except.ite_error_eq_ok] at hok
      exact Decidable.not_not.1 hok.1
    · exact h.shielded other hother path hpath id lease hlease path' hpath' hoverlap

theorem Inv.finish (h : sys.Inv) {i : Nat} {guard : WorkspaceMutationGuard}
    (hguard : sys.guards[i]? = some guard) :
    Inv { sys with table := sys.table.endMutation guard, guards := sys.guards.eraseIdx i } := by
  obtain ⟨hi, rfl⟩ := List.getElem?_eq_some_iff.1 hguard
  have hperm := List.getElem_cons_eraseIdx_perm hi
  refine ⟨⟨h.consistent.keys, h.consistent.reserved, h.consistent.apart⟩,
    (h.counted.perm hperm.symm).finish, ?_, h.tracked⟩
  exact fun other hother => h.shielded other (List.mem_of_mem_eraseIdx hother)

/-! ## Runs -/

theorem Inv.step {sys' : LeaseSystem} {it : Iteration} {op : LeaseOp} {reply : LeaseReply}
    (h : sys.Inv) (hstep : sys.step it op = some (reply, sys')) : sys'.Inv := by
  cases op with
  | acquire owner transactionId paths active dryRun draws =>
    obtain ⟨⟨outcome, table⟩, hacquire, heq⟩ := Option.map_eq_some_iff.1 hstep
    cases heq
    rcases acquire_cases hacquire with ⟨rfl, -⟩ | ⟨hnone, rfl | rfl⟩ | ⟨id, hid, hfresh, rfl, hfree⟩
    · exact h
    · exact h
    · exact h.record hnone
    · exact h.claim hid hfresh hfree
  | release owner id =>
    cases hstep
    exact h.release owner id
  | dropOwner owner =>
    cases hstep
    exact ⟨h.consistent, h.counted, h.shielded, h.tracked⟩
  | releaseNext drop =>
    rw [LeaseSystem.step] at hstep
    split at hstep
    · cases hstep
      refine Inv.release ?_ _ _
      exact ⟨h.consistent, h.counted, h.shielded, h.tracked⟩
    · cases hstep
  | beginMutation owner paths =>
    rw [LeaseSystem.step] at hstep
    split at hstep
    · cases hstep
      exact h
    · next hbegin =>
      cases hstep
      exact h.begin hbegin
  | endMutation i =>
    obtain ⟨guard, hguard, heq⟩ := Option.map_eq_some_iff.1 hstep
    cases heq
    exact h.finish hguard
  | checkPaths owner paths =>
    cases hstep
    exact h

theorem Reachable.inv (h : Reachable sys) : sys.Inv := by
  induction h with
  | start => exact inv_start
  | step _ hstep ih => exact ih.step hstep

/-! ## Answers -/

/-- A lease that is returned is held by the caller, or the call repeats a transaction whose lease has
been released. -/
theorem Inv.holds_of_acquired (h : sys.Inv) {sys' : LeaseSystem} {it : Iteration}
    {transactionId : Bytes16} {paths : List PathBuf} {active : List (PathBuf × Bytes16)} {dryRun : Bool}
    {draws : List Bytes16} {outcome : WorkspaceLeaseOutcome}
    (hstep : sys.step it (.acquire owner transactionId paths active dryRun draws) =
      some (.acquired outcome, sys')) (hid : outcome.leaseId = some id) :
    (∃ lease, sys'.Holds id lease ∧ lease.owner = owner) ∨ dryRun = false ∧
      first (owner, transactionId) sys.table.ledger = some outcome ∧ (owner, id) ∈ sys.released := by
  obtain ⟨⟨outcome, table⟩, hacquire, heq⟩ := Option.map_eq_some_iff.1 hstep
  cases heq
  rcases acquire_cases hacquire with ⟨rfl, hdry, hrecorded⟩ | ⟨hnone, -⟩ | ⟨other, hother, -, rfl, -⟩
  · rcases h.tracked owner transactionId outcome hrecorded id hid with hheld | hgone
    · exact .inl hheld
    · exact .inr ⟨hdry, hrecorded, hgone⟩
  · rw [hnone] at hid
    cases hid
  · rw [hother] at hid
    cases hid
    exact .inl ⟨_, first_assign_self .., rfl⟩

theorem checkReserved_of_checkPaths {s : WorkspaceLeaseState} {it : Iteration} {owner : Option Bytes16}
    {paths : List PathBuf} (h : s.checkPaths it owner paths = .ok ()) {path : PathBuf}
    (hpath : path ∈ paths) : ∀ r ∈ it.iter s.byPath, s.checkReserved it owner path r = .ok () :=
  Except.forM_eq_ok.1 (Except.forM_eq_ok.1 h path hpath)

/-- The owner of a lease that a check has let pass: the caller, or, where the check names none, the
owner of a running mutation of the path. -/
theorem Inv.owner_of_checked (h : sys.Inv) {it : Iteration} {caller : Option Bytes16}
    {paths : List PathBuf} (hcheck : sys.table.checkPaths it caller paths = .ok ()) {path : PathBuf}
    (hpath : path ∈ paths) {lease : WorkspaceLeaseRecord} (hlease : sys.Holds id lease)
    {reserved : PathBuf} (hreserved : reserved ∈ lease.paths) (hoverlap : overlaps path reserved = true) :
    caller = some lease.owner ∨ caller = none ∧ ∃ guard ∈ sys.guards, guard.owner = lease.owner ∧
      ∃ other ∈ guard.paths, overlaps path other = true := by
  have hok := checkReserved_of_checkPaths hcheck hpath _ (h.consistent.mem_byPath hlease hreserved)
  have hfirst : first id sys.table.leases = some lease := hlease
  rw [WorkspaceLeaseState.checkReserved, if_pos hoverlap, hfirst] at hok
  simp only [Except.ite_error_eq_ok] at hok
  have howner := Decidable.not_not.1 hok.1
  cases caller with
  | some caller => exact .inl howner.symm
  | none =>
    refine .inr ⟨rfl, ?_⟩
    rw [Option.none_or] at howner
    obtain ⟨⟨other, mutationOwner, n⟩, hm, hfound⟩ := List.exists_of_findSome?_eq_some howner.symm
    split at hfound
    · next hother =>
      cases hfound
      have hentry := (first_eq_some_iff h.counted.keys).2 (it.mem_iter.1 hm)
      obtain ⟨hcount, hpos⟩ := h.counted.count other _ n hentry
      obtain ⟨guard, hguard, hmem⟩ := heldBy_pos.1 (hcount ▸ hpos)
      obtain ⟨k, hk⟩ := h.counted.guarded guard hguard other hmem
      rw [hentry] at hk
      exact ⟨guard, hguard, (congrArg Prod.fst (Option.some.inj hk)).symm, other, hmem, hother⟩
    · cases hfound

end

/-- A step that does not repeat a transaction whose lease has been released, and that does not check
paths without a caller while a mutation of them runs. -/
def Meets (sys : LeaseSystem) : LeaseOp → Prop
  | .acquire owner transactionId _ _ dryRun _ =>
    dryRun = false → ∀ outcome, first (owner, transactionId) sys.table.ledger = some outcome →
      ∀ id ∈ outcome.leaseId, (owner, id) ∉ sys.released
  | .checkPaths none paths =>
    ∀ path ∈ paths, ∀ guard ∈ sys.guards, ∀ other ∈ guard.paths, overlaps path other = false
  | _ => True

/-- Operations one after the other. -/
def run (sys : LeaseSystem) : List LeaseOp → Option LeaseSystem
  | [] => some sys
  | op :: ops => (sys.step .id op).bind fun done => done.2.run ops

theorem Reachable.run {sys sys' : LeaseSystem} (h : Reachable sys) (ops : List LeaseOp)
    (hrun : sys.run ops = some sys') : Reachable sys' := by
  induction ops generalizing sys with
  | nil =>
    cases hrun
    exact h
  | cons op ops ih =>
    obtain ⟨⟨reply, mid⟩, hstep, hrest⟩ := Option.bind_eq_some_iff.1 hrun
    exact ih (h.step hstep) hrest

def bytes (n : UInt8) : Bytes16 := Vector.replicate 16 n

/-- The file of both runs. -/
def leasedPath : PathBuf := [.rootDir, .normal [97]]

/-- The owner acquires the file for a transaction. -/
def acquireFile : LeaseOp := .acquire (bytes 1) (bytes 2) [leasedPath] [] false [bytes 9]

end LeaseSystem

end OhMyPi.Docserver
