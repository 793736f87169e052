import OhMyPi.Docserver.Leases

/-! What holds of the lease table whatever its users do: the invariant of the four maps, and that every
step keeps it. -/

namespace OhMyPi.Docserver

open KeyedList

@[simp] theorem overlaps_self (path : PathBuf) : overlaps path path = true := by
  rw [overlaps, List.isPrefixOf_iff_prefix.2 (List.prefix_refl path)]
  rfl

theorem overlaps_comm (path other : PathBuf) : overlaps path other = overlaps other path :=
  Bool.or_comm _ _

theorem Iteration.mem_iter (it : Iteration) {α : Type} {l : List α} {x : α} : x ∈ it.iter l ↔ x ∈ l :=
  (it.perm l).mem_iff

/-! ## Reading the maps -/

theorem dedupBy_ne_nil {α β : Type} [DecidableEq β] {key : α → β} {l : List α} (h : l ≠ []) :
    dedupBy key l ≠ [] := by
  cases l with
  | nil => exact absurd rfl h
  | cons a l => exact List.cons_ne_nil _ _

/-! ## Counting mutations -/

namespace WorkspaceLeaseState

variable {owner : Bytes16} {m : List (PathBuf × Bytes16 × Nat)}

/-- An entry after one mutation more. -/
def increased (owner : Bytes16) (entry : Option (Bytes16 × Nat)) : Option (Bytes16 × Nat) :=
  some ((entry.getD (owner, 0)).1, (entry.getD (owner, 0)).2 + 1)

/-- An entry after one mutation less. -/
def decreased (owner : Bytes16) : Option (Bytes16 × Nat) → Option (Bytes16 × Nat)
  | none => none
  | some (mutationOwner, count) =>
    if mutationOwner ≠ owner then some (mutationOwner, count)
    else if count - 1 = 0 then none
    else some (mutationOwner, count - 1)

theorem first_countMutation (path path' : PathBuf) : first path' (countMutation owner m path) =
    if path' = path then increased owner (first path' m) else first path' m := by
  rw [countMutation, first_assign]
  split
  · next h => rw [h, increased]
  · rfl

theorem first_uncountMutation (path path' : PathBuf) : first path' (uncountMutation owner m path) =
    if path' = path then decreased owner (first path' m) else first path' m := by
  rw [uncountMutation]
  by_cases hpath : path' = path
  · rw [if_pos hpath, hpath]
    cases hentry : first path m with
    | none => exact hentry
    | some entry =>
      obtain ⟨mutationOwner, count⟩ := entry
      simp only [decreased]
      split
      · exact hentry
      · split
        · rw [first_remove_self]
        · rw [first_assign_self]
  · rw [if_neg hpath]
    split
    · rfl
    · split
      · rfl
      · split
        · rw [first_remove_ne hpath]
        · rw [first_assign_ne hpath]

theorem iterate_succ_of_count {α : Type} (f : α → α) (path path' : PathBuf) (paths : List PathBuf)
    (x : α) : f^[(path :: paths).count path'] x =
      f^[paths.count path'] (if path' = path then f x else x) := by
  rw [List.count_cons]
  by_cases h : path' = path
  · rw [if_pos h, if_pos (beq_iff_eq.2 h.symm), Function.iterate_succ_apply]
  · rw [if_neg h, if_neg fun heq => h (beq_iff_eq.1 heq).symm, Nat.add_zero]

theorem first_foldl_countMutation (paths : List PathBuf) (path : PathBuf) :
    first path (paths.foldl (countMutation owner) m) =
      (increased owner)^[paths.count path] (first path m) := by
  induction paths generalizing m with
  | nil => rfl
  | cons p paths ih => rw [List.foldl_cons, ih, first_countMutation, iterate_succ_of_count]

theorem first_foldl_uncountMutation (paths : List PathBuf) (path : PathBuf) :
    first path (paths.foldl (uncountMutation owner) m) =
      (decreased owner)^[paths.count path] (first path m) := by
  induction paths generalizing m with
  | nil => rfl
  | cons p paths ih => rw [List.foldl_cons, ih, first_uncountMutation, iterate_succ_of_count]

theorem nodup_foldl_countMutation (paths : List PathBuf) (h : (m.map Prod.fst).Nodup) :
    ((paths.foldl (countMutation owner) m).map Prod.fst).Nodup := by
  induction paths generalizing m with
  | nil => exact h
  | cons p paths ih => exact ih (nodup_assign h)

theorem nodup_foldl_uncountMutation (paths : List PathBuf) (h : (m.map Prod.fst).Nodup) :
    ((paths.foldl (uncountMutation owner) m).map Prod.fst).Nodup := by
  induction paths generalizing m with
  | nil => exact h
  | cons p paths ih =>
    refine ih ?_
    rw [uncountMutation]
    split
    · exact h
    · split
      · exact h
      · split
        · exact nodup_remove h
        · exact nodup_assign h

theorem increased_iterate_some (other : Bytes16) (n k : Nat) :
    (increased owner)^[k] (some (other, n)) = some (other, n + k) := by
  induction k generalizing n with
  | zero => rfl
  | succ k ih =>
    have hone : increased owner (some (other, n)) = some (other, n + 1) := rfl
    rw [Function.iterate_succ_apply, hone, ih, Nat.add_assoc, Nat.add_comm 1]

theorem increased_iterate_none (k : Nat) :
    (increased owner)^[k + 1] none = some (owner, k + 1) := by
  have hone : increased owner none = some (owner, 1) := rfl
  rw [Function.iterate_succ_apply, hone, increased_iterate_some, Nat.add_comm]

/-- As many mutations less as there are. -/
theorem decreased_iterate (n k : Nat) : (decreased owner)^[k] (some (owner, n + k)) =
    if n = 0 ∧ 0 < k then none else some (owner, n) := by
  induction k with
  | zero => simp
  | succ k ih =>
    have hone : decreased owner (some (owner, n + (k + 1))) =
        if n + k = 0 then none else some (owner, n + k) := by
      rw [decreased, if_neg fun h => h rfl]
      rfl
    rw [Function.iterate_succ_apply, hone]
    by_cases hzero : n + k = 0
    · obtain ⟨rfl, rfl⟩ : n = 0 ∧ k = 0 := by omega
      rfl
    · rw [if_neg hzero, ih]
      by_cases hn : n = 0
      · rw [if_pos ⟨hn, by omega⟩, if_pos ⟨hn, by omega⟩]
      · rw [if_neg fun h => hn h.1, if_neg fun h => hn h.1]

end WorkspaceLeaseState

/-! ## Leases -/

/-- The paths of the leases are the reserved ones, and those of two leases do not overlap. -/
structure WorkspaceLeaseState.Consistent (s : WorkspaceLeaseState) : Prop where
  keys : (s.byPath.map Prod.fst).Nodup
  reserved : ∀ path id, first path s.byPath = some id ↔
    ∃ lease, first id s.leases = some lease ∧ path ∈ lease.paths
  apart : ∀ id id' lease lease', first id s.leases = some lease → first id' s.leases = some lease' →
    id ≠ id' → ∀ path ∈ lease.paths, ∀ path' ∈ lease'.paths, overlaps path path' = false

namespace WorkspaceLeaseState

variable {s : WorkspaceLeaseState} {it : Iteration} {owner id : Bytes16} {paths : List PathBuf}

theorem Consistent.mem_byPath (h : s.Consistent) {path : PathBuf} {lease : WorkspaceLeaseRecord}
    (hlease : first id s.leases = some lease) (hpath : path ∈ lease.paths) :
    (path, id) ∈ it.iter s.byPath :=
  it.mem_iter.2 ((first_eq_some_iff h.keys).1 ((h.reserved path id).2 ⟨lease, hlease, hpath⟩))

theorem Consistent.release (h : s.Consistent) (owner id : Bytes16) : (s.release owner id).2.Consistent := by
  rw [WorkspaceLeaseState.release]
  split
  · exact h
  · next lease hlease =>
    split
    · exact h
    · have hkept {other : Bytes16} {r : WorkspaceLeaseRecord}
          (hr : first other (remove id s.leases) = some r) :
          other ≠ id ∧ first other s.leases = some r := by
        rw [first_remove] at hr
        split at hr
        · cases hr
        · next hne => exact ⟨hne, hr⟩
      refine ⟨nodup_foldl_remove _ h.keys, fun path other => ?_, ?_⟩
      · rw [first_foldl_remove]
        constructor
        · intro hpath
          split at hpath
          · cases hpath
          · next hfree =>
            obtain ⟨r, hr, hmem⟩ := (h.reserved path other).1 hpath
            have hne : other ≠ id := by
              rintro rfl
              rw [hlease] at hr
              cases hr
              exact hfree hmem
            exact ⟨r, by rw [first_remove_ne hne]; exact hr, hmem⟩
        · rintro ⟨r, hr, hmem⟩
          obtain ⟨hne, hr⟩ := hkept hr
          have hfree : path ∉ lease.paths := fun hpath => by
            have hapart := h.apart id other lease r hlease hr hne.symm path hpath path hmem
            rw [overlaps_self] at hapart
            cases hapart
          rw [if_neg hfree]
          exact (h.reserved path other).2 ⟨r, hr, hmem⟩
      · intro a b ra rb ha hb hne
        exact h.apart a b ra rb (hkept ha).2 (hkept hb).2 hne

/-- Paths without conflicts overlap nothing that is reserved and nothing that is being changed. -/
theorem free_of_conflicts {active : List (PathBuf × Bytes16)} (h : s.conflicts it paths active = []) :
    ∀ path ∈ paths, (∀ r ∈ s.byPath, overlaps path r.1 = false) ∧
      ∀ m ∈ s.mutations, overlaps path m.1 = false := by
  intro path hpath
  have hall : ∀ c : WorkspaceLeaseConflict, c ∉ paths.flatMap fun path =>
      (((it.iter s.byPath).filter fun r => overlaps path r.1).map fun r =>
        (⟨path, r.2⟩ : WorkspaceLeaseConflict)) ++
      (((it.iter s.mutations).filter fun m => overlaps path m.1).map fun m => ⟨path, m.2.1⟩) := by
    intro c hc
    refine dedupBy_ne_nil ?_ h
    intro hnil
    have hmem := (List.mem_insertionSort
      fun a b : WorkspaceLeaseConflict => pathLe a.path b.path).2 (List.mem_append_right
        ((active.filter fun a => paths.contains a.1).map fun a => ⟨a.1, a.2⟩) hc)
    rw [hnil] at hmem
    exact absurd hmem List.not_mem_nil
  constructor
  · intro r hr
    rw [← Bool.not_eq_true]
    intro hoverlap
    refine hall ⟨path, r.2⟩ (List.mem_flatMap.2 ⟨path, hpath, List.mem_append_left _ ?_⟩)
    exact List.mem_map.2 ⟨r, List.mem_filter.2 ⟨it.mem_iter.2 hr, hoverlap⟩, rfl⟩
  · intro m hm
    rw [← Bool.not_eq_true]
    intro hoverlap
    refine hall ⟨path, m.2.1⟩ (List.mem_flatMap.2 ⟨path, hpath, List.mem_append_right _ ?_⟩)
    exact List.mem_map.2 ⟨m, List.mem_filter.2 ⟨it.mem_iter.2 hm, hoverlap⟩, rfl⟩

theorem Consistent.claim (h : s.Consistent) (hid : first id s.leases = none)
    (hfree : ∀ path ∈ paths, ∀ r ∈ s.byPath, overlaps path r.1 = false) :
    (s.claim owner id paths).Consistent := by
  have hother {path : PathBuf} {other : Bytes16} {r : WorkspaceLeaseRecord}
      (hr : first other s.leases = some r) (hmem : path ∈ r.paths) :
      ∀ mine ∈ paths, overlaps mine path = false := fun mine hmine =>
    hfree mine hmine (path, other)
      ((first_eq_some_iff h.keys).1 ((h.reserved path other).2 ⟨r, hr, hmem⟩))
  have hlease {other : Bytes16} {r : WorkspaceLeaseRecord}
      (hr : first other (assign id ⟨owner, paths⟩ s.leases) = some r) :
      other = id ∧ r = ⟨owner, paths⟩ ∨ other ≠ id ∧ first other s.leases = some r := by
    rw [first_assign] at hr
    split at hr
    · next heq =>
      cases hr
      exact .inl ⟨heq, rfl⟩
    · next hne => exact .inr ⟨hne, hr⟩
  refine ⟨nodup_foldl_assign _ _ h.keys, fun path other => ?_, ?_⟩
  · simp only [WorkspaceLeaseState.claim]
    rw [first_foldl_assign]
    constructor
    · intro hpath
      split at hpath
      · next hmem =>
        cases hpath
        exact ⟨_, first_assign_self .., hmem⟩
      · obtain ⟨r, hr, hmem⟩ := (h.reserved path other).1 hpath
        have hne : other ≠ id := by
          rintro rfl
          rw [hid] at hr
          cases hr
        exact ⟨r, by rw [first_assign_ne hne]; exact hr, hmem⟩
    · rintro ⟨r, hr, hmem⟩
      rcases hlease hr with ⟨rfl, rfl⟩ | ⟨-, hr⟩
      · rw [if_pos hmem]
      · rw [if_neg, h.reserved]
        · exact ⟨r, hr, hmem⟩
        · intro hmine
          have hself := hother hr hmem path hmine
          rw [overlaps_self] at hself
          cases hself
  · intro a b ra rb ha hb hne pa hpa pb hpb
    rcases hlease ha with ⟨rfl, rfl⟩ | ⟨-, ha'⟩
    · rcases hlease hb with ⟨rfl, rfl⟩ | ⟨-, hb'⟩
      · exact absurd rfl hne
      · exact hother hb' hpb pa hpa
    · rcases hlease hb with ⟨rfl, rfl⟩ | ⟨-, hb'⟩
      · rw [overlaps_comm]
        exact hother ha' hpa pb hpb
      · exact h.apart a b ra rb ha' hb' hne pa hpa pb hpb

end WorkspaceLeaseState

/-! ## Mutations -/

/-- How often a path stands in the guards. -/
def heldBy (guards : List WorkspaceMutationGuard) (path : PathBuf) : Nat :=
  guards.foldr (fun guard n => guard.paths.count path + n) 0

theorem heldBy_cons (guard : WorkspaceMutationGuard) (guards : List WorkspaceMutationGuard)
    (path : PathBuf) : heldBy (guard :: guards) path = guard.paths.count path + heldBy guards path :=
  rfl

theorem heldBy_perm {guards guards' : List WorkspaceMutationGuard} (h : guards.Perm guards')
    (path : PathBuf) : heldBy guards path = heldBy guards' path := by
  induction h with
  | nil => rfl
  | cons guard _ ih => rw [heldBy_cons, heldBy_cons, ih]
  | swap guard guard' guards =>
    simp only [heldBy_cons]
    omega
  | trans _ _ ih ih' => exact ih.trans ih'

theorem heldBy_pos {guards : List WorkspaceMutationGuard} {path : PathBuf} :
    0 < heldBy guards path ↔ ∃ guard ∈ guards, path ∈ guard.paths := by
  induction guards with
  | nil => simp [heldBy]
  | cons guard guards ih =>
    rw [heldBy_cons, Nat.add_pos_iff_pos_or_pos, ih, List.count_pos_iff]
    simp

/-- The entries of the mutations count the guards, all of one owner. -/
structure Counted (m : List (PathBuf × Bytes16 × Nat)) (guards : List WorkspaceMutationGuard) :
    Prop where
  keys : (m.map Prod.fst).Nodup
  count : ∀ path owner n, first path m = some (owner, n) → n = heldBy guards path ∧ 0 < n
  guarded : ∀ guard ∈ guards, ∀ path ∈ guard.paths, ∃ n, first path m = some (guard.owner, n)

namespace Counted

variable {m : List (PathBuf × Bytes16 × Nat)} {guards : List WorkspaceMutationGuard}

theorem perm {guards' : List WorkspaceMutationGuard} (h : Counted m guards)
    (hperm : guards.Perm guards') : Counted m guards' where
  keys := h.keys
  count path owner n hn := by
    rw [← heldBy_perm hperm]
    exact h.count path owner n hn
  guarded guard hguard := h.guarded guard (hperm.mem_iff.2 hguard)

open WorkspaceLeaseState

theorem begin {guard : WorkspaceMutationGuard} (h : Counted m guards)
    (hown : ∀ path ∈ guard.paths, ∀ owner n, first path m = some (owner, n) → owner = guard.owner) :
    Counted (guard.paths.foldl (countMutation guard.owner) m) (guard :: guards) := by
  have hnone {path : PathBuf} (hfirst : first path m = none) : heldBy guards path = 0 := by
    refine Nat.eq_zero_of_not_pos fun hpos => ?_
    obtain ⟨other, hother, hmem⟩ := heldBy_pos.1 hpos
    obtain ⟨n, hn⟩ := h.guarded other hother path hmem
    rw [hfirst] at hn
    cases hn
  refine ⟨nodup_foldl_countMutation _ h.keys, fun path owner n hn => ?_, ?_⟩
  · rw [first_foldl_countMutation] at hn
    rw [heldBy_cons]
    cases hfirst : first path m with
    | none =>
      rw [hfirst] at hn
      cases hcount : guard.paths.count path with
      | zero =>
        rw [hcount] at hn
        cases hn
      | succ k =>
        rw [hcount, increased_iterate_none] at hn
        cases hn
        rw [hnone hfirst]
        omega
    | some entry =>
      obtain ⟨other, k⟩ := entry
      rw [hfirst, increased_iterate_some] at hn
      cases hn
      obtain ⟨rfl, hpos⟩ := h.count path owner k hfirst
      omega
  · intro other hother path hpath
    rw [first_foldl_countMutation]
    rcases List.mem_cons.1 hother with rfl | hother
    · cases hfirst : first path m with
      | none =>
        obtain ⟨k, hk⟩ := Nat.exists_eq_succ_of_ne_zero (List.count_pos_iff.2 hpath).ne'
        rw [hk, increased_iterate_none]
        exact ⟨_, rfl⟩
      | some entry =>
        obtain ⟨owner, k⟩ := entry
        rw [increased_iterate_some, hown path hpath owner k hfirst]
        exact ⟨_, rfl⟩
    · obtain ⟨n, hn⟩ := h.guarded other hother path hpath
      rw [hn, increased_iterate_some]
      exact ⟨_, rfl⟩

theorem finish {guard : WorkspaceMutationGuard} (h : Counted m (guard :: guards)) :
    Counted (guard.paths.foldl (uncountMutation guard.owner) m) guards := by
  have hread (path : PathBuf) : first path (guard.paths.foldl (uncountMutation guard.owner) m) =
      if path ∈ guard.paths then
        if heldBy guards path = 0 then none else some (guard.owner, heldBy guards path)
      else first path m := by
    rw [first_foldl_uncountMutation]
    split
    · next hmem =>
      obtain ⟨n, hn⟩ := h.guarded guard List.mem_cons_self path hmem
      have hcount := (h.count path _ n hn).1
      have hpos := List.count_pos_iff.2 hmem
      rw [heldBy_cons, Nat.add_comm] at hcount
      rw [hn, hcount, decreased_iterate]
      simp only [hpos, and_true]
    · next hmem => rw [List.count_eq_zero.2 hmem, Function.iterate_zero_apply]
  refine ⟨nodup_foldl_uncountMutation _ h.keys, fun path owner n hn => ?_, ?_⟩
  · rw [hread] at hn
    split at hn
    · split at hn
      · cases hn
      · next hne =>
        cases hn
        exact ⟨rfl, Nat.pos_of_ne_zero hne⟩
    · next hmem =>
      obtain ⟨hcount, hpos⟩ := h.count path owner n hn
      rw [heldBy_cons, List.count_eq_zero.2 hmem, Nat.zero_add] at hcount
      exact ⟨hcount, hpos⟩
  · intro other hother path hpath
    obtain ⟨n, hn⟩ := h.guarded other (List.mem_cons_of_mem _ hother) path hpath
    rw [hread]
    split
    · next hmem =>
      obtain ⟨k, hk⟩ := h.guarded guard List.mem_cons_self path hmem
      rw [hn] at hk
      have howner : other.owner = guard.owner := congrArg Prod.fst (Option.some.inj hk)
      rw [if_neg (heldBy_pos.2 ⟨other, hother, hpath⟩).ne', howner]
      exact ⟨_, rfl⟩
    · exact ⟨n, hn⟩

end Counted

end OhMyPi.Docserver
