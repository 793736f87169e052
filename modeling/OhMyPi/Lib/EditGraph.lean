import Mathlib.Data.List.Basic
import Mathlib.Algebra.Order.Ring.Int

/-! The edit graph of two sequences. A point is a number of symbols read of each; a path keeps a symbol that
both have, removes one of the first or adds one of the second. On each diagonal the points that are reached
with one more edit lie no further than the best of the neighbouring diagonals leads, followed by all symbols
that can be kept. -/

namespace EditGraph

variable {α : Type _} (old new : List α)

/-- A point that is reached with a number of removals and additions. -/
inductive Reach : Nat → Nat → Nat → Prop
  | start : Reach 0 0 0
  | keep (h : Reach d x y) (hx : x < old.length) (hy : y < new.length) (heq : old[x] = new[y]) :
    Reach d (x + 1) (y + 1)
  | remove (h : Reach d x y) (hx : x < old.length) : Reach (d + 1) (x + 1) y
  | add (h : Reach d x y) (hy : y < new.length) : Reach (d + 1) x (y + 1)

/-- The next symbols of both are the same. -/
def Matches (x y count : Nat) : Prop :=
  ∀ i < count, ∃ (hx : x + i < old.length) (hy : y + i < new.length), old[x + i] = new[y + i]

variable {old new}

theorem Reach.le (h : Reach old new d x y) : x ≤ old.length ∧ y ≤ new.length := by
  induction h with
  | start => exact ⟨Nat.zero_le _, Nat.zero_le _⟩
  | keep h hx hy heq ih => exact ⟨hx, hy⟩
  | remove h hx ih => exact ⟨hx, ih.2⟩
  | add h hy ih => exact ⟨ih.1, hy⟩

/-- Each edit goes to a neighbouring diagonal. -/
theorem Reach.diagonal (h : Reach old new d x y) : x ≤ y + d ∧ y ≤ x + d ∧ (x + y + d) % 2 = 0 := by
  induction h with
  | start => exact ⟨Nat.le_refl _, Nat.le_refl _, rfl⟩
  | keep h hx hy heq ih => omega
  | remove h hx ih => omega
  | add h hy ih => omega

theorem Reach.keeps (h : Reach old new d x y) (hmatch : Matches old new x y n) :
    Reach old new d (x + n) (y + n) := by
  induction n with
  | zero => exact h
  | succ n ih =>
    obtain ⟨hx, hy, heq⟩ := hmatch n (Nat.lt_succ_self n)
    exact (ih fun i hi => hmatch i (Nat.lt_succ_of_lt hi)).keep hx hy heq

theorem Reach.removes (h : Reach old new d x y) (hle : x + n ≤ old.length) :
    Reach old new (d + n) (x + n) y := by
  induction n with
  | zero => exact h
  | succ n ih => exact (ih (by omega)).remove (by omega)

theorem Reach.adds (h : Reach old new d x y) (hle : y + n ≤ new.length) :
    Reach old new (d + n) x (y + n) := by
  induction n with
  | zero => exact h
  | succ n ih => exact (ih (by omega)).add (by omega)

/-- With all edits the end is reached. -/
theorem reach_all : Reach old new (old.length + new.length) old.length new.length := by
  have hstart : Reach old new 0 0 0 := .start
  have hremoved : Reach old new (0 + old.length) (0 + old.length) 0 := hstart.removes (by omega)
  have hadded : Reach old new (0 + old.length + new.length) (0 + old.length) (0 + new.length) :=
    hremoved.adds (by omega)
  simpa only [Nat.zero_add] using hadded

/-- Before the first edit only common symbols are read. -/
theorem Reach.of_zero (h : Reach old new d x y) (hd : d = 0) : x = y ∧ Matches old new 0 0 x := by
  induction h with
  | start => exact ⟨rfl, fun i hi => absurd hi (Nat.not_lt_zero i)⟩
  | @keep d x y h hx hy heq ih =>
    obtain ⟨rfl, hmatch⟩ := ih hd
    refine ⟨rfl, fun i hi => ?_⟩
    rcases Nat.lt_succ_iff_lt_or_eq.1 hi with hi | rfl
    · exact hmatch i hi
    · refine ⟨by omega, by omega, ?_⟩
      simpa using heq
  | remove => cases hd
  | add => cases hd

/-- The last edit of a path, and the symbols that are kept after it. -/
theorem Reach.last_edit (h : Reach old new (d + 1) x y) :
    ∃ n x₁ y₁, x = x₁ + n ∧ y = y₁ + n ∧ Matches old new x₁ y₁ n ∧
      ((∃ x₀, x₁ = x₀ + 1 ∧ Reach old new d x₀ y₁ ∧ x₀ < old.length) ∨
        ∃ y₀, y₁ = y₀ + 1 ∧ Reach old new d x₁ y₀ ∧ y₀ < new.length) := by
  generalize hd : d + 1 = d' at h
  induction h with
  | start => cases hd
  | @keep d' x y h hx hy heq ih =>
    obtain ⟨n, x₁, y₁, rfl, rfl, hmatch, hedit⟩ := ih hd
    refine ⟨n + 1, x₁, y₁, rfl, rfl, fun i hi => ?_, hedit⟩
    rcases Nat.lt_succ_iff_lt_or_eq.1 hi with hi | rfl
    · exact hmatch i hi
    · exact ⟨hx, hy, heq⟩
  | @remove d' x y h hx ih =>
    cases hd
    exact ⟨0, x + 1, y, rfl, rfl, fun i hi => absurd hi (Nat.not_lt_zero i), .inl ⟨x, rfl, h, hx⟩⟩
  | @add d' x y h hy ih =>
    cases hd
    exact ⟨0, x, y + 1, rfl, rfl, fun i hi => absurd hi (Nat.not_lt_zero i), .inr ⟨y, rfl, h, hy⟩⟩

/-! ## Common symbols -/

/-- How many symbols two sequences begin with in common. -/
def commonLength [DecidableEq α] : List α → List α → Nat
  | a :: as, b :: bs => if a = b then commonLength as bs + 1 else 0
  | _, _ => 0

variable [DecidableEq α]

theorem matches_commonLength_aux (as bs : List α) {i : Nat} (hi : i < commonLength as bs) :
    ∃ (ha : i < as.length) (hb : i < bs.length), as[i] = bs[i] := by
  induction as generalizing bs i with
  | nil => exact absurd hi (by simp [commonLength])
  | cons a as ih =>
    cases bs with
    | nil => exact absurd hi (by simp [commonLength])
    | cons b bs =>
      rw [commonLength] at hi
      split at hi
      · next heq =>
        cases i with
        | zero => exact ⟨Nat.succ_pos _, Nat.succ_pos _, heq⟩
        | succ i =>
          obtain ⟨ha, hb, heq⟩ := ih bs (Nat.lt_of_succ_lt_succ hi)
          exact ⟨Nat.succ_lt_succ ha, Nat.succ_lt_succ hb, heq⟩
      · exact absurd hi (Nat.not_lt_zero i)

theorem le_commonLength {as bs : List α} {n : Nat}
    (h : ∀ i < n, ∃ (ha : i < as.length) (hb : i < bs.length), as[i] = bs[i]) : n ≤ commonLength as bs := by
  induction n generalizing as bs with
  | zero => exact Nat.zero_le _
  | succ n ih =>
    obtain ⟨ha, hb, heq⟩ := h 0 (Nat.succ_pos n)
    cases as with
    | nil => exact absurd ha (Nat.not_lt_zero 0)
    | cons a as =>
      cases bs with
      | nil => exact absurd hb (Nat.not_lt_zero 0)
      | cons b bs =>
        rw [commonLength, if_pos (show a = b from heq)]
        refine Nat.succ_le_succ (ih fun i hi => ?_)
        obtain ⟨ha, hb, heq⟩ := h (i + 1) (Nat.succ_lt_succ hi)
        exact ⟨Nat.lt_of_succ_lt_succ ha, Nat.lt_of_succ_lt_succ hb, heq⟩

theorem commonLength_self (as : List α) : commonLength as as = as.length := by
  induction as with
  | nil => rfl
  | cons a as ih => rw [commonLength, if_pos rfl, ih, List.length_cons]

theorem matches_commonLength (x y : Nat) :
    Matches old new x y (commonLength (old.drop x) (new.drop y)) := by
  intro i hi
  obtain ⟨ha, hb, heq⟩ := matches_commonLength_aux _ _ hi
  rw [List.length_drop] at ha hb
  refine ⟨by omega, by omega, ?_⟩
  rwa [List.getElem_drop, List.getElem_drop] at heq

theorem Matches.le_commonLength (h : Matches old new x y n) :
    n ≤ commonLength (old.drop x) (new.drop y) := by
  refine EditGraph.le_commonLength fun i hi => ?_
  obtain ⟨hx, hy, heq⟩ := h i hi
  refine ⟨by rw [List.length_drop]; omega, by rw [List.length_drop]; omega, ?_⟩
  rwa [List.getElem_drop, List.getElem_drop]

/-! ## Furthest points -/

/-- No point of the diagonal that is reached with that many edits lies further. -/
def Furthest (old new : List α) (d : Nat) (diagonal : Int) (x : Nat) : Prop :=
  ∀ x' y', Reach old new d x' y' → (x' : Int) - y' = diagonal → x' ≤ x

theorem furthest_zero : Furthest old new 0 0 (commonLength old new) := by
  intro x y h _
  obtain ⟨-, hmatch⟩ := h.of_zero rfl
  simpa using hmatch.le_commonLength

/-- From a point as far as any last edit leads, keeping what can be kept. -/
theorem furthest_succ {d x y : Nat} {diagonal : Int} (hpoint : (x : Int) - y = diagonal)
    (hremove : ∀ x₀ y₁, Reach old new d x₀ y₁ → x₀ < old.length → (x₀ : Int) + 1 - y₁ = diagonal → x₀ + 1 ≤ x)
    (hadd : ∀ x₁ y₀, Reach old new d x₁ y₀ → y₀ < new.length → (x₁ : Int) - (y₀ + 1) = diagonal → x₁ ≤ x) :
    Furthest old new (d + 1) diagonal (x + commonLength (old.drop x) (new.drop y)) := by
  intro x' y' h hdiagonal
  obtain ⟨n, x₁, y₁, rfl, rfl, hmatch, hedit⟩ := h.last_edit
  have hle : x₁ ≤ x := by
    rcases hedit with ⟨x₀, rfl, hreach, hlt⟩ | ⟨y₀, rfl, hreach, hlt⟩
    · exact hremove x₀ y₁ hreach hlt (by push_cast at hdiagonal; omega)
    · exact hadd x₁ y₀ hreach hlt (by push_cast at hdiagonal; omega)
  rcases Nat.le_total (x₁ + n) x with hshort | hlong
  · omega
  · -- The rest of the kept symbols starts at the point.
    obtain ⟨skip, rfl⟩ := Nat.exists_eq_add_of_le hle
    have hy : y = y₁ + skip := by omega
    have hrest : Matches old new (x₁ + skip) y (n - skip) := by
      intro i hi
      obtain ⟨hx, hy', heq⟩ := hmatch (skip + i) (by omega)
      subst hy
      refine ⟨by omega, by omega, ?_⟩
      simpa only [Nat.add_assoc] using heq
    have hcommon := hrest.le_commonLength
    omega

end EditGraph
