import Mathlib.Data.List.Chain
import Mathlib.Data.List.Infix

/-! Lineages along a parent function: the members from a root down to a given one, oldest first.
A member has at most one lineage, and it has one whenever parents descend along a well-founded
order. -/

/-- `l` runs from a root to `i`, each member the parent of the next. -/
inductive Lineage (parent : α → Option α) : List α → α → Prop
  | root : parent i = none → Lineage parent [i] i
  | step : parent i = some p → Lineage parent l p → Lineage parent (l ++ [i]) i

namespace Lineage

variable {parent : α → Option α} {l l' : List α} {i : α}

theorem unique (h : Lineage parent l i) (h' : Lineage parent l' i) : l = l' := by
  induction h generalizing l' with
  | root hroot =>
    cases h' with
    | root _ => rfl
    | step hparent _ => cases hroot.symm.trans hparent
  | step hparent _ ih =>
    cases h' with
    | root hroot => cases hparent.symm.trans hroot
    | step hparent' h' =>
      cases hparent.symm.trans hparent'
      rw [ih h']

theorem exists_eq_concat (h : Lineage parent l i) : ∃ front, l = front ++ [i] := by
  cases h with
  | root _ => exact ⟨[], rfl⟩
  | step _ _ => exact ⟨_, rfl⟩

theorem getLast? (h : Lineage parent l i) : l.getLast? = some i := by
  obtain ⟨front, rfl⟩ := h.exists_eq_concat
  exact List.getLast?_concat

/-- Each member is the parent of the next. -/
theorem isChain (h : Lineage parent l i) : l.IsChain fun p i => parent i = some p := by
  induction h with
  | root _ => exact .singleton _
  | step hparent h ih =>
    refine List.isChain_append.2 ⟨ih, .singleton _, fun x hx y hy => ?_⟩
    cases hx.symm.trans h.getLast?
    cases hy
    exact hparent

/-- A parent function that descends from `i` on gives `i` a lineage. -/
theorem exists_of_lt {parent : Nat → Option Nat} (bound : Nat)
    (hlt : ∀ i < bound, ∀ p, parent i = some p → p < i) {i : Nat} (hi : i < bound) :
    ∃ l, Lineage parent l i := by
  induction i using Nat.strongRecOn with
  | ind i ih =>
    cases hparent : parent i with
    | none => exact ⟨_, .root hparent⟩
    | some p =>
      have hp := hlt i hi p hparent
      obtain ⟨l, hl⟩ := ih p hp (hp.trans hi)
      exact ⟨_, .step hparent hl⟩

/-- Along a descending parent function a lineage is increasing. -/
theorem pairwise_lt {parent : Nat → Option Nat} {l : List Nat} {i bound : Nat}
    (hlt : ∀ i < bound, ∀ p, parent i = some p → p < i) (h : Lineage parent l i) (hi : i < bound) :
    l.Pairwise (· < ·) ∧ ∀ j ∈ l, j ≤ i := by
  induction h with
  | root _ => exact ⟨List.pairwise_singleton _ _, fun j hj => (List.mem_singleton.1 hj).le⟩
  | @step i p l hparent _ ih =>
    have hp := hlt i hi p hparent
    obtain ⟨hsorted, hle⟩ := ih (hp.trans hi)
    refine ⟨List.pairwise_append.2 ⟨hsorted, List.pairwise_singleton _ _, fun j hj k hk => ?_⟩,
      fun j hj => ?_⟩
    · cases List.mem_singleton.1 hk
      exact (hle j hj).trans_lt hp
    · rcases List.mem_append.1 hj with hj | hj
      · exact (hle j hj).trans hp.le
      · exact (List.mem_singleton.1 hj).le

/-- A sequence where each member but the first follows the one before is its own lineage. -/
theorem range {parent : Nat → Option Nat} (n : Nat) (hroot : parent 0 = none)
    (hstep : ∀ i < n, parent (i + 1) = some i) : Lineage parent (List.range (n + 1)) n := by
  induction n with
  | zero => exact .root hroot
  | succ n ih =>
    rw [List.range_succ]
    exact .step (hstep n (by omega)) (ih fun i hi => hstep i (by omega))

end Lineage
