import Mathlib.Data.List.Basic
import Mathlib.Data.List.Infix

/-! Left-to-right search for a pattern that steps over a fixed number of symbols after each hit.
`scan` is the loop; `Hit` says which positions it stops at, without running it: an occurrence is
met exactly when every hit before it allowed the scan to go on and its stepped-over stretch ends no
later than the occurrence starts. -/

namespace Search

variable {α : Type _} [DecidableEq α]

/-- What follows the first occurrence of `pat`. -/
def afterFirst (pat : List α) : List α → Option (List α)
  | [] => if pat = [] then some [] else none
  | x :: xs =>
    if pat.isPrefixOf (x :: xs) then some ((x :: xs).drop pat.length) else afterFirst pat xs

theorem afterFirst_none {pat : List α} (hpat : pat ≠ []) (h : afterFirst pat xs = none) (i : Nat) :
    ¬ pat <+: xs.drop i := by
  induction xs generalizing i with
  | nil => simpa using hpat
  | cons x xs ih =>
    rw [afterFirst] at h
    split at h
    · cases h
    · next hx =>
      cases i with
      | zero => simpa using hx
      | succ i => simpa using ih h i

theorem afterFirst_some {pat : List α} (hpat : pat ≠ []) (h : afterFirst pat xs = some rest) :
    ∃ i, pat <+: xs.drop i ∧ rest = xs.drop (i + pat.length) ∧ ∀ j < i, ¬ pat <+: xs.drop j := by
  induction xs with
  | nil => simp [afterFirst, hpat] at h
  | cons x xs ih =>
    rw [afterFirst] at h
    split at h
    · next hx => exact ⟨0, by simpa using hx, by simpa using h.symm, by simp⟩
    · next hx =>
      obtain ⟨i, hi, hrest, hbefore⟩ := ih h
      refine ⟨i + 1, hi, by rw [hrest, Nat.add_right_comm]; rfl, fun j hj => ?_⟩
      cases j with
      | zero => simpa using hx
      | succ j => exact hbefore j (by omega)

theorem length_afterFirst_lt {pat : List α} (hpat : pat ≠ []) (h : afterFirst pat xs = some rest) :
    rest.length < xs.length := by
  obtain ⟨i, hi, rfl, -⟩ := afterFirst_some hpat h
  have hlen := hi.length_le
  have hpos := List.length_pos_iff.2 hpat
  rw [List.length_drop] at hlen ⊢
  omega

/-- The texts that follow each hit of the scan. After a hit the scan goes on, `width` symbols
further, when `go` accepts what follows. -/
def scan (pat : List α) (hpat : pat ≠ []) (width : Nat) (go : List α → Bool) (xs : List α) :
    List (List α) :=
  match _h : afterFirst pat xs with
  | none => []
  | some rest => rest :: if go rest then scan pat hpat width go (rest.drop width) else []
termination_by xs.length
decreasing_by
  have hlt := length_afterFirst_lt hpat _h
  rw [List.length_drop]
  omega

/-- Position `i` is a hit: `pat` occurs there, and each earlier hit let the scan go on and was
stepped over by then. -/
def Hit (pat : List α) (width : Nat) (go : List α → Bool) (xs : List α) (i : Nat) : Prop :=
  pat <+: xs.drop i ∧ ∀ j, (_h : j < i) → Hit pat width go xs j →
    go (xs.drop (j + pat.length)) = true ∧ j + pat.length + width ≤ i

variable {pat : List α} {hpat : pat ≠ []} {width : Nat} {go : List α → Bool}

theorem scan_of_none (h : afterFirst pat xs = none) : scan pat hpat width go xs = [] := by
  rw [scan]
  split <;> simp_all

theorem scan_of_some (h : afterFirst pat xs = some rest) :
    scan pat hpat width go xs =
      rest :: if go rest then scan pat hpat width go (rest.drop width) else [] := by
  rw [scan]
  split <;> simp_all

omit [DecidableEq α] in
theorem Hit.occurs (h : Hit pat width go xs i) : pat <+: xs.drop i := by
  rw [Hit] at h
  exact h.1

omit [DecidableEq α] in
/-- A hit behind another one is reached only over it. -/
theorem Hit.past (h : Hit pat width go xs i) (hj : Hit pat width go xs j) (hlt : j < i) :
    go (xs.drop (j + pat.length)) = true ∧ j + pat.length + width ≤ i := by
  rw [Hit] at h
  exact h.2 j hlt hj

private theorem mem_scan_drop {xs : List α} {k : Nat}
    (hk : ∀ j < k, Hit pat width go xs j →
      go (xs.drop (j + pat.length)) = true ∧ j + pat.length + width ≤ k) :
    rest ∈ scan pat hpat width go (xs.drop k) ↔
      ∃ i, k ≤ i ∧ Hit pat width go xs i ∧ rest = xs.drop (i + pat.length) := by
  -- Induction on what is left of the text behind `k`.
  induction hn : xs.length - k using Nat.strongRecOn generalizing k with
  | ind n ih =>
    cases hfirst : afterFirst pat (xs.drop k) with
    | none =>
      rw [scan_of_none hfirst]
      refine ⟨nofun, fun ⟨i, hki, hit, _⟩ => ?_⟩
      have hno := afterFirst_none hpat hfirst (i - k)
      rw [List.drop_drop, Nat.add_sub_cancel' hki] at hno
      exact absurd hit.occurs hno
    | some first =>
      obtain ⟨d, hocc, hrest, hbefore⟩ := afterFirst_some hpat hfirst
      rw [List.drop_drop] at hocc hrest
      have hnone : ∀ j, k ≤ j → j < k + d → ¬ Hit pat width go xs j := by
        intro j hkj hjd hit
        have hno := hbefore (j - k) (by omega)
        rw [List.drop_drop, Nat.add_sub_cancel' hkj] at hno
        exact hno hit.occurs
      -- The first occurrence behind `k` is a hit.
      have hit : Hit pat width go xs (k + d) := by
        rw [Hit]
        refine ⟨hocc, fun j hj hitj => ?_⟩
        have hjk : j < k := by
          by_contra hge
          exact hnone j (by omega) hj hitj
        obtain ⟨hgo, hle⟩ := hk j hjk hitj
        exact ⟨hgo, by omega⟩
      have hpos := List.length_pos_iff.2 hpat
      have hlt : k < xs.length := by
        have hlen := hocc.length_le
        rw [List.length_drop] at hlen
        omega
      have hfirst' : first = xs.drop (k + d + pat.length) := by rw [hrest, Nat.add_assoc]
      rw [scan_of_some hfirst, List.mem_cons]
      cases hgo : go first with
      | false =>
        constructor
        · rintro (rfl | hmem)
          · exact ⟨k + d, by omega, hit, hfirst'⟩
          · simp at hmem
        · rintro ⟨i, hki, hiti, rfl⟩
          rcases Nat.lt_trichotomy i (k + d) with hlt | rfl | hgt
          · exact absurd hiti (hnone i hki hlt)
          · exact .inl hfirst'.symm
          · have := (hiti.past hit hgt).1
            rw [← hfirst', hgo] at this
            cases this
      | true =>
        have hnext : ∀ j < k + d + pat.length + width, Hit pat width go xs j →
            go (xs.drop (j + pat.length)) = true ∧
              j + pat.length + width ≤ k + d + pat.length + width := by
          intro j hj hitj
          rcases Nat.lt_trichotomy j (k + d) with hlt | rfl | hgt
          · have hjk : j < k := by
              by_contra hge
              exact hnone j (by omega) hlt hitj
            obtain ⟨hgoj, hle⟩ := hk j hjk hitj
            exact ⟨hgoj, by omega⟩
          · exact ⟨hfirst' ▸ hgo, Nat.le_refl _⟩
          · exact absurd (hitj.past hit hgt).2 (by omega)
        have ih := ih _ (by omega) hnext rfl
        rw [if_pos rfl, hfirst', List.drop_drop, ih]
        constructor
        · rintro (rfl | ⟨i, hle, hiti, rfl⟩)
          · exact ⟨k + d, by omega, hit, rfl⟩
          · exact ⟨i, by omega, hiti, rfl⟩
        · rintro ⟨i, hki, hiti, rfl⟩
          rcases Nat.lt_trichotomy i (k + d) with hlt | rfl | hgt
          · exact absurd hiti (hnone i hki hlt)
          · exact .inl rfl
          · exact .inr ⟨i, (hiti.past hit hgt).2, hiti, rfl⟩

/-- The scan stops at the hits and nowhere else. -/
theorem mem_scan {xs : List α} : rest ∈ scan pat hpat width go xs ↔
    ∃ i, Hit pat width go xs i ∧ rest = xs.drop (i + pat.length) := by
  have h : rest ∈ scan pat hpat width go (xs.drop 0) ↔
      ∃ i, 0 ≤ i ∧ Hit pat width go xs i ∧ rest = xs.drop (i + pat.length) :=
    mem_scan_drop (by simp)
  simpa using h

end Search
