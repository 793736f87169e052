import Mathlib.Logic.Basic

/-! Inversion of computations in `Except`: what a successful run must have gone through. -/

namespace Except

theorem bind_eq_ok {x : Except ε α} {f : α → Except ε β} :
    x >>= f = .ok b ↔ ∃ a, x = .ok a ∧ f a = .ok b := by
  cases x with
  | error e =>
    constructor
    · intro h; cases h
    · rintro ⟨_, h, _⟩; cases h
  | ok a =>
    constructor
    · exact fun h => ⟨a, rfl, h⟩
    · rintro ⟨_, ⟨⟩, h⟩; exact h

theorem ok_bind (a : α) (f : α → Except ε β) : (Except.ok a >>= f) = f a := rfl

/-- A check that returns nothing, followed by the rest of the computation. -/
theorem unit_bind_eq_ok {x : Except ε Unit} {f : Unit → Except ε β} :
    x >>= f = .ok b ↔ x = .ok () ∧ f () = .ok b := by
  rw [bind_eq_ok]
  exact ⟨fun ⟨_, h⟩ => h, fun h => ⟨_, h⟩⟩

theorem map_eq_ok {x : Except ε α} {f : α → β} : x.map f = .ok b ↔ ∃ a, x = .ok a ∧ f a = b := by
  cases x with
  | error e =>
    constructor
    · intro h; cases h
    · rintro ⟨_, h, _⟩; cases h
  | ok a => simp [Except.map]

theorem ite_error_eq_ok {c : Prop} [Decidable c] {x : Except ε α} :
    (if c then .error e else x) = .ok a ↔ ¬c ∧ x = .ok a := by
  split <;> simp_all

/-- An early exit, followed by the rest of the computation. -/
theorem ite_throw_eq_ok {c : Prop} [Decidable c] {f : Unit → Except ε α} {x : Except ε α} :
    (if c then (throw e : Except ε Unit) >>= f else x) = .ok a ↔ ¬c ∧ x = .ok a :=
  ite_error_eq_ok

theorem forM_eq_ok {l : List α} {f : α → Except ε Unit} :
    l.forM f = .ok () ↔ ∀ x ∈ l, f x = .ok () := by
  induction l with
  | nil => exact iff_of_true rfl fun x hx => absurd hx List.not_mem_nil
  | cons x l ih =>
    change (f x >>= fun _ => l.forM f) = .ok () ↔ _
    rw [unit_bind_eq_ok, ih, List.forall_mem_cons]

theorem pure_eq_ok {a : α} : (pure a : Except ε α) = .ok b ↔ a = b :=
  ⟨fun h => by cases h; rfl, fun h => h ▸ rfl⟩

end Except
