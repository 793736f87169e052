import OhMyPi.Edit.Fuzzy
import OhMyPi.Lib.EditDistance

/-! The distance of `levenshtein_chars` is the least number of edits. The rolling row holds, for the read
part of the longer sequence, the distances to all beginnings of the shorter one. What is read is kept in
reverse, so that the last symbol read comes first. -/

namespace OhMyPi.Edit

open EditDistance

/-! ## What both begin with -/

theorem distance_stripShared {a b : List Char} (h : Distance (stripShared a b).1 (stripShared a b).2 n) :
    Distance a b n := by
  induction a generalizing b with
  | nil => exact h
  | cons x a ih =>
    cases b with
    | nil => exact h
    | cons y b =>
      rw [stripShared] at h
      split at h
      · next heq =>
        subst heq
        exact (ih h).cons x
      · exact h

/-- Trimming at both ends does not change the distance. -/
theorem distance_of_trimmed {a b : List Char}
    (h : Distance (stripShared (stripShared a b).1.reverse (stripShared a b).2.reverse).1.reverse
      (stripShared (stripShared a b).1.reverse (stripShared a b).2.reverse).2.reverse n) :
    Distance a b n := by
  have hend := h.reverse
  rw [List.reverse_reverse, List.reverse_reverse] at hend
  have hstart := (distance_stripShared hend).reverse
  rw [List.reverse_reverse, List.reverse_reverse] at hstart
  exact distance_stripShared hstart

/-! ## The row -/

/-- The distances from what is read of one sequence to the beginnings of the other, from the cell after
`q` on. -/
inductive Row (p : List Char) : List Char → List Char → List Nat → Prop
  | nil : Row p q [] []
  | cons (h : Distance p (y :: q) n) (hrest : Row p (y :: q) ys row) : Row p q (y :: ys) (n :: row)

theorem Row.distanceRow {p : List Char} (h : Row p q ys row) (hdiagonal : Distance p q diagonal)
    (hleft : Distance (x :: p) q left) : Row (x :: p) q ys (distanceRow x diagonal left ys row) := by
  induction h generalizing diagonal left with
  | nil => exact .nil
  | @cons y q above ys row habove hrest ih =>
    rw [Edit.distanceRow]
    have hcell : Distance (x :: p) (y :: q)
        (if x = y then diagonal else min (min (above + 1) (left + 1)) (diagonal + 1)) := by
      split
      · next heq =>
        subst heq
        exact hdiagonal.cons x
      · next hne => exact habove.cons_ne hne hleft hdiagonal
    exact .cons hcell (ih habove hcell)

/-- The first row: everything is inserted. -/
theorem row_range (q ys : List Char) : Row [] q ys ((List.range ys.length).map (q.length + · + 1)) := by
  induction ys generalizing q with
  | nil => exact .nil
  | cons y ys ih =>
    rw [List.length_cons, List.range_succ_eq_map, List.map_cons, List.map_map]
    refine .cons (distance_nil (y :: q)).symm ?_
    have hrest := ih (y :: q)
    rw [List.length_cons] at hrest
    refine Eq.mp (congrArg _ (List.map_congr_left fun i _ => ?_)) hrest
    simp only [Function.comp_apply, Nat.succ_eq_add_one]
    omega

theorem Row.last {p : List Char} (h : Row p q ys row) (hfirst : Distance p q n) :
    Distance p (ys.reverse ++ q) ((n :: row).getLastD 0) := by
  induction h generalizing n with
  | nil => exact hfirst
  | @cons y q m ys row h hrest ih =>
    rw [List.reverse_cons, List.append_assoc]
    exact ih h

theorem distanceRows_spec {p : List Char} (longer : List Char) (hrow : Row p [] shorter cells)
    (hlength : p.length = line) :
    ∃ cells', distanceRows shorter line longer (line :: cells) = (line + longer.length) :: cells' ∧
      Row (longer.reverse ++ p) [] shorter cells' := by
  induction longer generalizing p line cells with
  | nil => exact ⟨cells, rfl, hrow⟩
  | cons x longer ih =>
    subst hlength
    rw [distanceRows]
    have hnext := hrow.distanceRow (distance_nil p) (distance_nil (x :: p))
    obtain ⟨cells', hcells, hlast⟩ := ih hnext rfl
    refine ⟨cells', ?_, ?_⟩
    · rw [List.length_cons] at hcells
      rw [hcells, List.length_cons, Nat.add_right_comm, Nat.add_assoc]
    · rwa [List.reverse_cons, List.append_assoc]

/-! ## The distance -/

theorem distance_rows (longer shorter : List Char) :
    Distance longer shorter
      ((distanceRows shorter 0 longer (List.range (shorter.length + 1))).getLastD 0) := by
  have hfirst := row_range [] shorter
  have hrange : List.range (shorter.length + 1) =
      0 :: (List.range shorter.length).map (([] : List Char).length + · + 1) := by
    rw [List.range_succ_eq_map]
    refine congrArg _ (List.map_congr_left fun i _ => ?_)
    rw [List.length_nil, Nat.zero_add]
  obtain ⟨cells, hcells, hrow⟩ := distanceRows_spec longer hfirst (show _ = 0 from rfl)
  rw [hrange, hcells]
  have hlast := hrow.last (n := 0 + longer.length) (by simpa using distance_nil longer.reverse)
  rw [List.append_nil, List.append_nil] at hlast
  simpa only [List.reverse_reverse] using hlast.reverse

theorem distance_trimmed (a b : List Char) :
    Distance a b (if a.isEmpty then b.length
      else if b.isEmpty then a.length
      else
        let (longer, shorter) := if a.length < b.length then (b, a) else (a, b)
        (distanceRows shorter 0 longer (List.range (shorter.length + 1))).getLastD 0) := by
  split
  · next hempty =>
    rw [List.isEmpty_iff.1 hempty]
    exact (distance_nil b).symm
  split
  · next hempty =>
    rw [List.isEmpty_iff.1 hempty]
    exact distance_nil a
  split
  · next heq =>
    split at heq
    · cases heq
      exact (distance_rows b a).symm
    · cases heq
      exact distance_rows a b

/-- `levenshtein_chars` gives the least number of insertions, deletions and substitutions. -/
theorem levenshteinChars_isLeast (a b : List Char) : IsLeast { n | Edits n a b } (levenshteinChars a b) := by
  rw [levenshteinChars]
  split
  · next heq =>
    rw [heq]
    exact distance_refl b
  · exact distance_of_trimmed (distance_trimmed _ _)

end OhMyPi.Edit
