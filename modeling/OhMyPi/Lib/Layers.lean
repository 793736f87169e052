import Mathlib.Data.List.Infix

/-! Ordered entries of which the last one that covers a point decides: mounts that shadow one
another, or rules of which the last match wins. -/

namespace Layers

variable {ε : Type*}

/-- The entry that decides: the last one that covers the point. -/
def deciding (covers : ε → Bool) (entries : List ε) : Option ε := (entries.filter covers).getLast?

/-- What the deciding entry says of the point, `none` when no entry covers it. -/
def verdict (covers allows : ε → Bool) (entries : List ε) : Option Bool :=
  (deciding covers entries).map allows

theorem mem_of_deciding {covers : ε → Bool} (h : deciding covers entries = some e) :
    e ∈ entries ∧ covers e = true :=
  List.mem_filter.1 (List.mem_of_getLast? h)

theorem deciding_eq_none {covers : ε → Bool} :
    deciding covers entries = none ↔ ∀ e ∈ entries, covers e = false := by
  simp [deciding]

theorem deciding_append (covers : ε → Bool) (under above : List ε) :
    deciding covers (under ++ above) = (deciding covers above).or (deciding covers under) := by
  rw [deciding, List.filter_append, List.getLast?_append]
  rfl

/-- In an ordered list no entry that covers the point stands above the deciding one. -/
theorem le_deciding {covers : ε → Bool} {R : ε → ε → Prop} (hsorted : entries.Pairwise R)
    (h : deciding covers entries = some e) (hmem : e' ∈ entries) (hcovers : covers e' = true) :
    e' = e ∨ R e' e := by
  have hfilter : e' ∈ entries.filter covers := List.mem_filter.2 ⟨hmem, hcovers⟩
  obtain ⟨before, hbefore⟩ := List.getLast?_eq_some_iff.1 h
  have hpair : (before ++ [e]).Pairwise R := hbefore ▸ hsorted.filter covers
  rw [hbefore] at hfilter
  rcases List.mem_append.1 hfilter with hin | hin
  · exact .inr ((List.pairwise_append.1 hpair).2.2 e' hin e (List.mem_singleton.2 rfl))
  · exact .inl (List.mem_singleton.1 hin)

/-- A block of entries that all say the same decides alone as soon as it covers the point. -/
theorem verdict_append_uniform {covers allows : ε → Bool} {b : Bool}
    (huniform : ∀ e ∈ above, allows e = b) :
    verdict covers allows (under ++ above) =
      if above.any covers then some b else verdict covers allows under := by
  rw [verdict, deciding_append]
  cases htop : deciding covers above with
  | none =>
    have hnone : above.any covers = false := List.any_eq_false.2 fun e he => by
      rw [deciding_eq_none.1 htop e he]
      exact Bool.false_ne_true
    rw [hnone]
    rfl
  | some e =>
    obtain ⟨hmem, hcovers⟩ := mem_of_deciding htop
    rw [if_pos (List.any_eq_true.2 ⟨e, hmem, hcovers⟩)]
    exact congrArg some (huniform e hmem)

theorem verdict_append_uncovered {covers allows : ε → Bool} (h : ∀ e ∈ above, covers e = false) :
    verdict covers allows (under ++ above) = verdict covers allows under := by
  rw [verdict, deciding_append, deciding_eq_none.2 h]
  rfl

end Layers
