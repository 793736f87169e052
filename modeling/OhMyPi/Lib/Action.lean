import Mathlib.Logic.Basic

/-! Computations over a state that survives failure: a computation that fails part way leaves the
state as far as it had got. `Fails` says what a computation can fail with, `Moves` what it does to the
state however it ends, and `Agree` that two computations keep a relation between their states. -/

namespace OhMyPi

/-- A computation that reads and writes a state and may fail. -/
def Action (σ ε α : Type) := σ → Except ε α × σ

namespace Action

variable {σ ε α β : Type}

instance : Monad (Action σ ε) where
  pure a := fun s => (.ok a, s)
  bind x f := fun s =>
    match x s with
    | (.ok a, s) => f a s
    | (.error e, s) => (.error e, s)

/-- Fails, keeping the state. -/
def fail (e : ε) : Action σ ε α := fun s => (.error e, s)

/-- A computation that does not touch the state. -/
def lift (x : Except ε α) : Action σ ε α := fun s => (x, s)

/-- Reads the state. -/
def reads (f : σ → Except ε α) : Action σ ε α := fun s => (f s, s)

/-- Changes the state. -/
def modify (f : σ → σ) : Action σ ε Unit := fun s => (.ok (), f s)

/-- Runs a computation on a part of the state. -/
def zoom {τ : Type} (get : σ → τ) (set : τ → σ → σ) (x : Action τ ε α) : Action σ ε α := fun s =>
  let (result, t) := x (get s)
  (result, set t s)

theorem bind_apply (x : Action σ ε α) (f : α → Action σ ε β) (s : σ) :
    (x >>= f) s = match x s with
      | (.ok a, s) => f a s
      | (.error e, s) => (.error e, s) := rfl

theorem bind_of_ok {x : Action σ ε α} {f : α → Action σ ε β} {a : α} {s t : σ}
    (h : x s = (.ok a, t)) : (x >>= f) s = f a t := by
  rw [bind_apply, h]

theorem bind_of_error {x : Action σ ε α} {f : α → Action σ ε β} {e : ε} {s t : σ}
    (h : x s = (.error e, t)) : (x >>= f) s = (.error e, t) := by
  rw [bind_apply, h]

theorem bind_reads_ok (f : σ → α) (g : α → Action σ ε β) (s : σ) :
    (reads (fun s => .ok (f s)) >>= g) s = g (f s) s := rfl

/-! ## Failing -/

/-- Whatever the computation fails with satisfies `P`. -/
def Fails (P : ε → Prop) (x : Action σ ε α) : Prop := ∀ s e, (x s).1 = .error e → P e

namespace Fails

variable {P : ε → Prop}

theorem pure (a : α) : Fails P (pure a : Action σ ε α) := fun _ _ h => by cases h

theorem fail {e : ε} (h : P e) : Fails P (fail e : Action σ ε α) := fun _ _ he => by
  cases he
  exact h

theorem bind {x : Action σ ε α} {f : α → Action σ ε β} (hx : Fails P x) (hf : ∀ a, Fails P (f a)) :
    Fails P (x >>= f) := by
  intro s e h
  rw [bind_apply] at h
  rcases hresult : x s with ⟨_ | a, t⟩
  · rw [hresult] at h
    cases h
    exact hx s e (by rw [hresult])
  · rw [hresult] at h
    exact hf a t e h

end Fails

/-! ## Moving the state -/

/-- However it ends, the computation moves the state along `R`. -/
def Moves (R : σ → σ → Prop) (x : Action σ ε α) : Prop := ∀ s, R s (x s).2

namespace Moves

variable {R : σ → σ → Prop}

theorem pure (hrefl : ∀ s, R s s) (a : α) : Moves R (pure a : Action σ ε α) := fun s => hrefl s

theorem bind (htrans : ∀ s t u, R s t → R t u → R s u) {x : Action σ ε α}
    {f : α → Action σ ε β} (hx : Moves R x) (hf : ∀ a, Moves R (f a)) : Moves R (x >>= f) := by
  intro s
  have hs := hx s
  cases h : x s with
  | mk result t =>
    rw [h] at hs
    cases result with
    | error e =>
      rw [bind_of_error h]
      exact hs
    | ok a =>
      rw [bind_of_ok h]
      exact htrans _ _ _ hs (hf a t)

theorem reads (hrefl : ∀ s, R s s) (f : σ → Except ε α) : Moves R (reads f) := fun s => hrefl s

theorem modify {f : σ → σ} (h : ∀ s, R s (f s)) : Moves R (modify f : Action σ ε Unit) := h

end Moves

/-! ## Specifications up to spoiling

A run may be spoiled on the way, for instance by another party that breaks a rule. A spoiled state
stays spoiled, and a specification says nothing about what ends in one. -/

section
variable (spoiled : σ → Prop)

/-- From a state with `P` the computation ends with `Q`, unless the run is spoiled. -/
def Spec (P : σ → Prop) (x : Action σ ε α) (Q : Except ε α → σ → Prop) : Prop :=
  ∀ s, (spoiled s → spoiled (x s).2) ∧ (P s → spoiled (x s).2 ∨ Q (x s).1 (x s).2)

end

namespace Spec

variable {spoiled : σ → Prop} {P : σ → Prop} {Q : Except ε α → σ → Prop}

theorem pure {a : α} (h : ∀ s, P s → Q (.ok a) s) : Spec spoiled P (pure a : Action σ ε α) Q :=
  fun s => ⟨fun hs => hs, fun hP => .inr (h s hP)⟩

theorem fail {e : ε} (h : ∀ s, P s → Q (.error e) s) : Spec spoiled P (fail e : Action σ ε α) Q :=
  fun s => ⟨fun hs => hs, fun hP => .inr (h s hP)⟩

theorem modify {f : σ → σ} {Q : Except ε Unit → σ → Prop} (hspoiled : ∀ s, spoiled s → spoiled (f s))
    (h : ∀ s, P s → Q (.ok ()) (f s)) : Spec spoiled P (modify f : Action σ ε Unit) Q :=
  fun s => ⟨hspoiled s, fun hP => .inr (h s hP)⟩

theorem reads {f : σ → Except ε α} (h : ∀ s, P s → Q (f s) s) : Spec spoiled P (reads f) Q :=
  fun s => ⟨fun hs => hs, fun hP => .inr (h s hP)⟩

theorem mono {x : Action σ ε α} {P' : σ → Prop} {Q' : Except ε α → σ → Prop}
    (h : Spec spoiled P x Q) (hP : ∀ s, P' s → P s) (hQ : ∀ a s, Q a s → Q' a s) :
    Spec spoiled P' x Q' := by
  intro s
  refine ⟨(h s).1, fun hP' => ?_⟩
  exact ((h s).2 (hP s hP')).imp_right (hQ _ _)

theorem bind {x : Action σ ε α} {f : α → Action σ ε β} {R : Except ε α → σ → Prop}
    {Q : Except ε β → σ → Prop} (hx : Spec spoiled P x R)
    (hf : ∀ a, Spec spoiled (R (.ok a)) (f a) Q) (herror : ∀ e s, R (.error e) s → Q (.error e) s) :
    Spec spoiled P (x >>= f) Q := by
  intro s
  have hs := hx s
  cases h : x s with
  | mk result t =>
    rw [h] at hs
    cases result with
    | error e =>
      rw [bind_of_error h]
      exact ⟨hs.1, fun hP => (hs.2 hP).imp_right (herror e t)⟩
    | ok a =>
      rw [bind_of_ok h]
      refine ⟨fun hspoiled => (hf a t).1 (hs.1 hspoiled), fun hP => ?_⟩
      rcases hs.2 hP with hspoiled | hR
      · exact .inl ((hf a t).1 hspoiled)
      · exact (hf a t).2 hR

/-- The rule for a computation that never fails. -/
theorem bind_total {x : Action σ ε α} {f : α → Action σ ε β} {R : Except ε α → σ → Prop}
    {Q : Except ε β → σ → Prop} (htotal : ∀ s, ∃ a, (x s).1 = .ok a) (hx : Spec spoiled P x R)
    (hf : ∀ a, Spec spoiled (R (.ok a)) (f a) Q) : Spec spoiled P (x >>= f) Q := by
  have hx' : Spec spoiled P x fun result s => (∃ a, result = .ok a) ∧ R result s := by
    intro s
    exact ⟨(hx s).1, fun hP => ((hx s).2 hP).imp_right fun hR => ⟨htotal s, hR⟩⟩
  apply bind hx'
  · intro a
    exact (hf a).mono (fun _ h => h.2) fun _ _ h => h
  · intro e s h
    obtain ⟨a, ha⟩ := h.1
    cases ha

theorem and {x : Action σ ε α} {Q' : Except ε α → σ → Prop} (h : Spec spoiled P x Q)
    (h' : Spec spoiled P x Q') : Spec spoiled P x (fun a s => Q a s ∧ Q' a s) := by
  intro s
  refine ⟨(h s).1, fun hP => ?_⟩
  rcases (h s).2 hP with hspoiled | hQ
  · exact .inl hspoiled
  · exact ((h' s).2 hP).imp_right fun hQ' => ⟨hQ, hQ'⟩

/-- A fact that is not about the state stays. -/
theorem frame {x : Action σ ε α} (h : Spec spoiled P x Q) (fact : Prop) :
    Spec spoiled (fun s => fact ∧ P s) x fun a s => fact ∧ Q a s :=
  fun s => ⟨(h s).1, fun hs => ((h s).2 hs.2).imp_right fun hQ => ⟨hs.1, hQ⟩⟩

/-- Nothing is asked where the assumption cannot hold. -/
theorem of_false {x : Action σ ε α} {P' : σ → Prop} {Q' : Except ε α → σ → Prop}
    (h : Spec spoiled P' x Q') (hP : ∀ s, ¬ P s) : Spec spoiled P x Q :=
  fun s => ⟨(h s).1, fun hs => (hP s hs).elim⟩

/-- What is assumed of the start may depend on a value the state does not hold. -/
theorem exists_left {ι : Type} (i₀ : ι) {P : ι → σ → Prop} {x : Action σ ε α}
    (h : ∀ i, Spec spoiled (P i) x Q) : Spec spoiled (fun s => ∃ i, P i s) x Q :=
  fun s => ⟨(h i₀ s).1, fun ⟨i, hi⟩ => (h i s).2 hi⟩

end Spec

end Action

end OhMyPi
