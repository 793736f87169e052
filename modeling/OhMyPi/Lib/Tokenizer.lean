import Mathlib.Data.List.Basic

/-! Recognisers that read the first token of a sequence and keep to it when more symbols arrive. Reading
all tokens of a sequence that comes in parts gives the tokens of the whole, however it is cut. -/

/-- `spell` gives the symbols of a token. Recognising one may need to see symbols after it. -/
structure Tokenizer (α τ : Type _) where
  next : List α → Option (τ × List α)
  spell : τ → List α
  next_eq : next xs = some (t, r) → xs = spell t ++ r
  spell_ne_nil : next xs = some (t, r) → spell t ≠ []
  next_append : next xs = some (t, r) → ∀ ys, next (xs ++ ys) = some (t, r ++ ys)

namespace Tokenizer

variable {T : Tokenizer α τ}

theorem length_lt_of_next (h : T.next xs = some (t, r)) : r.length < xs.length := by
  have hpos := List.length_pos_iff.2 (T.spell_ne_nil h)
  rw [T.next_eq h, List.length_append]
  omega

/-- The tokens of a sequence, and what does not make one. -/
def split (T : Tokenizer α τ) (xs : List α) : List τ × List α :=
  match _h : T.next xs with
  | none => ([], xs)
  | some (t, r) => (t :: (T.split r).1, (T.split r).2)
termination_by xs.length
decreasing_by all_goals exact length_lt_of_next _h

theorem split_of_none (h : T.next xs = none) : T.split xs = ([], xs) := by
  rw [split]
  split <;> simp_all

theorem split_of_some (h : T.next xs = some (t, r)) :
    T.split xs = (t :: (T.split r).1, (T.split r).2) := by
  rw [split]
  split <;> simp_all

/-- Induction along the tokens of a sequence. -/
theorem split_induction {P : List α → Prop} (none : ∀ xs, T.next xs = none → P xs)
    (some : ∀ xs t r, T.next xs = some (t, r) → P r → P xs) (xs : List α) : P xs := by
  induction h : xs.length using Nat.strongRecOn generalizing xs with
  | ind n ih =>
    cases hnext : T.next xs with
    | none => exact none xs hnext
    | some p => exact some xs p.1 p.2 hnext (ih _ (h ▸ length_lt_of_next hnext) _ rfl)

theorem next_split (T : Tokenizer α τ) (xs : List α) : T.next (T.split xs).2 = none := by
  induction xs using split_induction with
  | none xs h => rwa [split_of_none h]
  | some xs t r h ih => rwa [split_of_some h]

/-- Every symbol belongs to one token or is left. -/
theorem flatMap_spell_split (T : Tokenizer α τ) (xs : List α) : (T.split xs).1.flatMap T.spell ++ (T.split xs).2 = xs := by
  induction xs using split_induction with
  | none xs h => rw [split_of_none h]; rfl
  | some xs t r h ih => rw [split_of_some h, List.flatMap_cons, List.append_assoc, ih, ← T.next_eq h]

theorem length_split_le (T : Tokenizer α τ) (xs : List α) : (T.split xs).2.length ≤ xs.length := by
  have hlen := congrArg List.length (T.flatMap_spell_split xs)
  rw [List.length_append] at hlen
  omega

/-- What is left of the first part is read on with the second. -/
theorem split_append (T : Tokenizer α τ) (xs ys : List α) :
    T.split (xs ++ ys) =
      ((T.split xs).1 ++ (T.split ((T.split xs).2 ++ ys)).1, (T.split ((T.split xs).2 ++ ys)).2) := by
  induction xs using split_induction with
  | none xs h => rw [split_of_none h]; rfl
  | some xs t r h ih => rw [split_of_some h, split_of_some (T.next_append h ys), ih]; rfl

end Tokenizer
