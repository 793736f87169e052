import Mathlib.Data.List.Infix

/-! The longest part at the front or at the back of a list that has a property. -/

namespace Longest

variable (p : List α → Prop) [DecidablePred p]

/-- The longest suffix with the property, and nothing when no suffix has it. -/
def back : List α → List α
  | [] => []
  | a :: l => if p (a :: l) then a :: l else back l

/-- The longest prefix with the property. -/
def front (l : List α) : List α := (back (fun s => p s.reverse) l.reverse).reverse

variable {p} {s l : List α}

theorem back_eq (hs : s <:+ l) (hp : p s) (hmax : ∀ t, t <:+ l → p t → t.length ≤ s.length) :
    back p l = s := by
  induction l with
  | nil => exact (List.suffix_nil.1 hs).symm
  | cons a l ih =>
    rw [back]
    split
    · next hall => exact (hs.eq_of_length_le (hmax _ (List.suffix_refl _) hall)).symm
    · next hall =>
      rcases List.suffix_cons_iff.1 hs with rfl | hs
      · exact absurd hp hall
      · exact ih hs fun t ht => hmax t (ht.trans (List.suffix_cons a l))

theorem front_eq (hs : s <+: l) (hp : p s) (hmax : ∀ t, t <+: l → p t → t.length ≤ s.length) :
    front p l = s := by
  rw [front, back_eq (s := s.reverse) (List.reverse_suffix.2 hs), List.reverse_reverse]
  · rwa [List.reverse_reverse]
  · intro t ht hpt
    rw [List.length_reverse, ← List.length_reverse]
    refine hmax _ ?_ hpt
    rw [← List.reverse_suffix, List.reverse_reverse]
    exact ht

end Longest
