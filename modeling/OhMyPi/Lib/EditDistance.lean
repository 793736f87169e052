import Mathlib.Order.Bounds.Defs
import Mathlib.Order.MinMax
import Mathlib.Data.List.Basic

/-! The edit distance of two sequences: the least number of insertions, deletions and substitutions of single
symbols that turn one into the other. Sequences of edits are aligned symbol by symbol, so that a distance is
found from those of the tails; a symbol that both begin with never matters. -/

namespace EditDistance

variable {α : Type _}

/-- One symbol is inserted, deleted or replaced, anywhere. -/
inductive Edit : List α → List α → Prop
  | insert (y : α) (b : List α) : Edit b (y :: b)
  | delete (y : α) (b : List α) : Edit (y :: b) b
  | substitute (y z : α) (b : List α) : Edit (y :: b) (z :: b)
  | cons (y : α) (h : Edit b c) : Edit (y :: b) (y :: c)

/-- A number of edits, one after the other. -/
inductive Edits : Nat → List α → List α → Prop
  | nil (a : List α) : Edits 0 a a
  | snoc (h : Edits n a b) (hedit : Edit b c) : Edits (n + 1) a c

/-- The symbols of both sequences side by side, with the number of edits between them. -/
inductive Aligned : Nat → List α → List α → Prop
  | nil : Aligned 0 [] []
  | keep (x : α) (h : Aligned n a b) : Aligned n (x :: a) (x :: b)
  | substitute (x y : α) (h : Aligned n a b) : Aligned (n + 1) (x :: a) (y :: b)
  | delete (x : α) (h : Aligned n a b) : Aligned (n + 1) (x :: a) b
  | insert (y : α) (h : Aligned n a b) : Aligned (n + 1) a (y :: b)

/-! ## Edits can be aligned -/

theorem Edits.trans {a b c : List α} (h : Edits m a b) (h' : Edits n b c) : Edits (m + n) a c := by
  induction h' with
  | nil => exact h
  | snoc _ hedit ih => exact .snoc (ih h) hedit

theorem Edits.cons {a b : List α} (x : α) (h : Edits n a b) : Edits n (x :: a) (x :: b) := by
  induction h with
  | nil => exact .nil _
  | snoc _ hedit ih => exact .snoc ih (.cons x hedit)

theorem Edit.edits {a b : List α} (h : Edit a b) : Edits 1 a b := .snoc (.nil a) h

theorem Aligned.edits {a b : List α} (h : Aligned n a b) : Edits n a b := by
  induction h with
  | nil => exact .nil []
  | keep x _ ih => exact ih.cons x
  | substitute x y _ ih => exact .snoc (ih.cons x) (.substitute x y _)
  | @delete n a b x _ ih =>
    have hfirst := (Edit.delete x a).edits.trans ih
    rwa [Nat.add_comm] at hfirst
  | insert y _ ih => exact .snoc ih (.insert y _)

theorem Aligned.refl (a : List α) : Aligned 0 a a := by
  induction a with
  | nil => exact .nil
  | cons x a ih => exact .keep x ih

theorem Aligned.symm {a b : List α} (h : Aligned n a b) : Aligned n b a := by
  induction h with
  | nil => exact .nil
  | keep x _ ih => exact .keep x ih
  | substitute x y _ ih => exact .substitute y x ih
  | delete x _ ih => exact .insert x ih
  | insert y _ ih => exact .delete y ih

/-- One more edit costs one more at most. -/
theorem Aligned.edit {a b c : List α} (h : Aligned n a b) (hedit : Edit b c) : ∃ m ≤ n + 1, Aligned m a c := by
  induction h generalizing c with
  | nil =>
    cases hedit with
    | insert y => exact ⟨1, Nat.le_refl 1, .insert y .nil⟩
  | @keep n a b x h ih =>
    cases hedit with
    | insert y => exact ⟨n + 1, Nat.le_refl _, .insert y (.keep x h)⟩
    | delete => exact ⟨n + 1, Nat.le_refl _, .delete x h⟩
    | substitute _ z => exact ⟨n + 1, Nat.le_refl _, .substitute x z h⟩
    | cons _ hedit =>
      obtain ⟨m, hm, hnext⟩ := ih hedit
      exact ⟨m, hm, .keep x hnext⟩
  | @substitute n a b x y h ih =>
    cases hedit with
    | insert z => exact ⟨n + 2, Nat.le_refl _, .insert z (.substitute x y h)⟩
    | delete => exact ⟨n + 1, Nat.le_succ _, .delete x h⟩
    | substitute _ z => exact ⟨n + 1, Nat.le_succ _, .substitute x z h⟩
    | cons _ hedit =>
      obtain ⟨m, hm, hnext⟩ := ih hedit
      exact ⟨m + 1, Nat.succ_le_succ hm, .substitute x y hnext⟩
  | @delete n a b x h ih =>
    obtain ⟨m, hm, hnext⟩ := ih hedit
    exact ⟨m + 1, Nat.succ_le_succ hm, .delete x hnext⟩
  | @insert n a b y h ih =>
    cases hedit with
    | insert z => exact ⟨n + 2, Nat.le_refl _, .insert z (.insert y h)⟩
    | delete => exact ⟨n, Nat.le_add_right n 2, h⟩
    | substitute _ z => exact ⟨n + 1, Nat.le_succ _, .insert z h⟩
    | cons _ hedit =>
      obtain ⟨m, hm, hnext⟩ := ih hedit
      exact ⟨m + 1, Nat.succ_le_succ hm, .insert y hnext⟩

theorem Edits.aligned {a b : List α} (h : Edits n a b) : ∃ m ≤ n, Aligned m a b := by
  induction h with
  | nil => exact ⟨0, Nat.le_refl 0, .refl _⟩
  | snoc _ hedit ih =>
    obtain ⟨m, hm, halign⟩ := ih
    obtain ⟨m', hm', hnext⟩ := halign.edit hedit
    exact ⟨m', hm'.trans (Nat.succ_le_succ hm), hnext⟩

/-! ## The distance -/

/-- The least number of edits. -/
def Distance (a b : List α) (n : Nat) : Prop := IsLeast { m | Edits m a b } n

theorem Distance.aligned {a b : List α} (h : Distance a b n) : Aligned n a b := by
  obtain ⟨m, hm, halign⟩ := h.1.aligned
  rwa [Nat.le_antisymm hm (h.2 halign.edits)] at halign

theorem Distance.le {a b : List α} (h : Distance a b n) (halign : Aligned m a b) : n ≤ m :=
  h.2 halign.edits

theorem Distance.of_aligned {a b : List α} (h : Aligned n a b) (hle : ∀ m, Aligned m a b → n ≤ m) :
    Distance a b n := by
  refine ⟨h.edits, fun m hm => ?_⟩
  obtain ⟨m', hm', halign⟩ := Edits.aligned hm
  exact (hle m' halign).trans hm'

theorem Distance.symm {a b : List α} (h : Distance a b n) : Distance b a n :=
  .of_aligned h.aligned.symm fun _ halign => h.le halign.symm

theorem distance_refl (a : List α) : Distance a a 0 :=
  .of_aligned (.refl a) fun m _ => Nat.zero_le m

theorem distance_nil (a : List α) : Distance a [] a.length := by
  refine .of_aligned ?_ ?_
  · induction a with
    | nil => exact .nil
    | cons x a ih => exact .delete x ih
  · induction a with
    | nil => exact fun m _ => Nat.zero_le m
    | cons x a ih =>
      intro m halign
      cases halign with
      | delete _ h => exact Nat.succ_le_succ (ih _ h)

/-- A symbol that both begin with is best kept. -/
theorem Distance.cons {a b : List α} (x : α) (h : Distance a b n) : Distance (x :: a) (x :: b) n := by
  refine .of_aligned (.keep x h.aligned) fun m halign => ?_
  cases halign with
  | keep _ halign => exact h.le halign
  | substitute _ _ halign => exact Nat.le_succ_of_le (h.le halign)
  | delete _ halign =>
    obtain ⟨m', hm', hnext⟩ := halign.edit (.delete x b)
    exact (h.le hnext).trans hm'
  | insert _ halign =>
    obtain ⟨m', hm', hnext⟩ := halign.symm.edit (.delete x a)
    exact (h.le hnext.symm).trans hm'

/-- Of two different symbols one is deleted, inserted or replaced. -/
theorem Distance.cons_ne {a b : List α} (hne : x ≠ y) (hdelete : Distance a (y :: b) p)
    (hinsert : Distance (x :: a) b q) (hreplace : Distance a b r) :
    Distance (x :: a) (y :: b) (min (min (p + 1) (q + 1)) (r + 1)) := by
  refine .of_aligned ?_ fun m halign => ?_
  · rcases min_choice (min (p + 1) (q + 1)) (r + 1) with hmin | hmin
    · rw [hmin]
      rcases min_choice (p + 1) (q + 1) with hmin | hmin
      · rw [hmin]
        exact .delete x hdelete.aligned
      · rw [hmin]
        exact .insert y hinsert.aligned
    · rw [hmin]
      exact .substitute x y hreplace.aligned
  · cases halign with
    | keep => exact absurd rfl hne
    | substitute _ _ halign => exact (min_le_right _ _).trans (Nat.succ_le_succ (hreplace.le halign))
    | delete _ halign =>
      exact ((min_le_left _ _).trans (min_le_left _ _)).trans (Nat.succ_le_succ (hdelete.le halign))
    | insert _ halign =>
      exact ((min_le_left _ _).trans (min_le_right _ _)).trans (Nat.succ_le_succ (hinsert.le halign))

/-! ## From the other end -/

theorem Aligned.append {a b a' b' : List α} (h : Aligned m a b) (h' : Aligned n a' b') :
    Aligned (m + n) (a ++ a') (b ++ b') := by
  induction h with
  | nil => rwa [Nat.zero_add]
  | keep x _ ih => exact .keep x ih
  | substitute x y _ ih =>
    rw [Nat.add_right_comm]
    exact .substitute x y ih
  | delete x _ ih =>
    rw [Nat.add_right_comm]
    exact .delete x ih
  | insert y _ ih =>
    rw [Nat.add_right_comm]
    exact .insert y ih

theorem Aligned.reverse {a b : List α} (h : Aligned n a b) : Aligned n a.reverse b.reverse := by
  induction h with
  | nil => exact .nil
  | keep x _ ih =>
    rw [List.reverse_cons, List.reverse_cons]
    exact ih.append (.keep x .nil)
  | substitute x y _ ih =>
    rw [List.reverse_cons, List.reverse_cons]
    exact ih.append (.substitute x y .nil)
  | delete x _ ih =>
    have happend := ih.append (.delete x .nil)
    rwa [List.append_nil, ← List.reverse_cons] at happend
  | insert y _ ih =>
    have happend := ih.append (.insert y .nil)
    rwa [List.append_nil, ← List.reverse_cons] at happend

theorem Distance.reverse {a b : List α} (h : Distance a b n) : Distance a.reverse b.reverse n := by
  refine .of_aligned h.aligned.reverse fun m halign => h.le ?_
  simpa only [List.reverse_reverse] using halign.reverse

end EditDistance
