import Mathlib.Data.List.Basic

/-! Self-delimiting frames over an arbitrary alphabet. A `Framing` recognises the first complete
frame of a sequence and never changes its answer when more symbols arrive, so complete frames
form a prefix code: a proper prefix of a frame is torn, and cutting a concatenation of frames
anywhere leaves exactly the frames that fit, followed by a torn rest.

The instance of interest is `Framing.lines`, where a frame is a run of lines closed by the first
blank one. -/

/-- A recogniser of the first complete frame of a sequence, returned with what follows it. -/
structure Framing (α : Type _) where
  next : List α → Option (List α × List α)
  next_eq : next xs = some (f, r) → xs = f ++ r
  next_ne_nil : next xs = some (f, r) → f ≠ []
  next_append : next xs = some (f, r) → ∀ ys, next (xs ++ ys) = some (f, r ++ ys)

namespace Framing

/-- `f` is exactly one complete frame. -/
def IsFrame (F : Framing α) (f : List α) : Prop := F.next f = some (f, [])

variable {F : Framing α}

theorem IsFrame.next (h : F.IsFrame f) (xs : List α) : F.next (f ++ xs) = some (f, xs) :=
  F.next_append h xs

theorem IsFrame.ne_nil (h : F.IsFrame f) : f ≠ [] := F.next_ne_nil h

theorem next_nil (F : Framing α) : F.next [] = none := by
  cases h : F.next [] with
  | none => rfl
  | some p =>
    have hnil := F.next_eq (f := p.1) (r := p.2) h
    exact absurd (List.append_eq_nil_iff.1 hnil.symm).1 (F.next_ne_nil h)

/-- Frames are a prefix code: a proper prefix of a frame holds no complete frame. -/
theorem IsFrame.next_take (h : F.IsFrame f) (hk : k < f.length) : F.next (f.take k) = none := by
  cases hn : F.next (f.take k) with
  | none => rfl
  | some p =>
    have happ := F.next_append (f := p.1) (r := p.2) hn (f.drop k)
    rw [List.take_append_drop, h, Option.some.injEq, Prod.mk.injEq] at happ
    have hdrop := (List.append_eq_nil_iff.1 happ.2.symm).2
    exact absurd (List.drop_eq_nil_iff.1 hdrop) (by omega)

theorem length_lt_of_next (h : F.next xs = some (f, r)) : r.length < xs.length := by
  have := List.length_pos_iff.2 (F.next_ne_nil h)
  rw [F.next_eq h, List.length_append]
  omega

/-- All complete frames of a sequence, in order, and the torn rest. -/
def split (F : Framing α) (xs : List α) : List (List α) × List α :=
  match _h : F.next xs with
  | none => ([], xs)
  | some (f, r) => (f :: (F.split r).1, (F.split r).2)
termination_by xs.length
decreasing_by all_goals exact length_lt_of_next _h

theorem split_of_none (h : F.next xs = none) : F.split xs = ([], xs) := by
  rw [split]
  split <;> simp_all

theorem split_of_some (h : F.next xs = some (f, r)) :
    F.split xs = (f :: (F.split r).1, (F.split r).2) := by
  rw [split]
  split <;> simp_all

/-- A concatenation of frames followed by a torn rest splits into those frames and that rest. -/
theorem split_append (hfs : ∀ f ∈ fs, F.IsFrame f) (xs : List α) :
    F.split (fs.flatten ++ xs) = (fs ++ (F.split xs).1, (F.split xs).2) := by
  induction fs with
  | nil => rfl
  | cons f fs ih =>
    have hf := (hfs f (by simp)).next (fs.flatten ++ xs)
    rw [List.flatten_cons, List.append_assoc, split_of_some hf,
      ih fun g hg => hfs g (by simp [hg])]
    rfl

/-- The leading frames that end at or before position `k`. -/
def fit : List (List α) → Nat → List (List α)
  | [], _ => []
  | f :: fs, k => if f.length ≤ k then f :: fit fs (k - f.length) else []

/-- Cutting a concatenation of frames at `k` leaves the frames that fit, and what is left of the
first frame that does not is torn. -/
theorem take_flatten (hfs : ∀ f ∈ fs, F.IsFrame f) (k : Nat) :
    ∃ rest, fs.flatten.take k = (fit fs k).flatten ++ rest ∧ F.next rest = none ∧
      (rest = [] ∨ ∃ f ∈ fs, rest <+: f) := by
  induction fs generalizing k with
  | nil => exact ⟨[], by simp [fit], F.next_nil, .inl rfl⟩
  | cons f fs ih =>
    rw [fit, List.flatten_cons]
    split
    · next hle =>
      obtain ⟨rest, hrest, hnone, hpre⟩ := ih (fun g hg => hfs g (by simp [hg])) (k - f.length)
      refine ⟨rest, by simp [List.take_append, List.take_of_length_le hle, hrest], hnone, ?_⟩
      exact hpre.imp_right fun ⟨g, hg, hpre⟩ => ⟨g, by simp [hg], hpre⟩
    · next hlt =>
      have hlt : k < f.length := by omega
      refine ⟨f.take k, ?_, (hfs f (by simp)).next_take hlt,
        .inr ⟨f, by simp, List.take_prefix ..⟩⟩
      simp [List.take_append_of_le_length (Nat.le_of_lt hlt)]

/-! ## Blank-line-terminated blocks -/

/-- Scans for the first line that ends the block, with `line` the current line read so far. -/
def nextLines [DecidableEq α] (nl : α) (blank : List α → Bool) :
    List α → List α → Option (List α × List α)
  | _, [] => none
  | line, x :: xs =>
    if x = nl then
      if blank (line ++ [x]) then some (line ++ [x], xs)
      else (nextLines nl blank [] xs).map fun p => (line ++ [x] ++ p.1, p.2)
    else nextLines nl blank (line ++ [x]) xs

section Lines

variable [DecidableEq α] {nl : α} {blank : List α → Bool}

theorem nextLines_eq (h : nextLines nl blank line xs = some (f, r)) : line ++ xs = f ++ r := by
  induction xs generalizing line f with
  | nil => cases h
  | cons x xs ih =>
    rw [nextLines] at h
    split at h
    · split at h
      · cases h; simp
      · obtain ⟨⟨g, s⟩, hg, heq⟩ := Option.map_eq_some_iff.1 h
        cases heq
        have hxs := ih hg
        rw [List.nil_append] at hxs
        simp [hxs]
    · simpa using ih h

theorem nextLines_isPrefix (h : nextLines nl blank line xs = some (f, r)) : line <+: f := by
  induction xs generalizing line f with
  | nil => cases h
  | cons x xs ih =>
    rw [nextLines] at h
    split at h
    · split at h
      · cases h; exact List.prefix_append ..
      · obtain ⟨⟨g, s⟩, hg, heq⟩ := Option.map_eq_some_iff.1 h
        cases heq
        exact ⟨[x] ++ g, by simp⟩
    · exact (List.prefix_append ..).trans (ih h)

theorem nextLines_ne_nil (h : nextLines nl blank line xs = some (f, r)) : f ≠ [] := by
  induction xs generalizing line f with
  | nil => cases h
  | cons x xs ih =>
    rw [nextLines] at h
    split at h
    · split at h
      · cases h; simp
      · obtain ⟨⟨g, s⟩, hg, heq⟩ := Option.map_eq_some_iff.1 h
        cases heq
        simp
    · exact ih h

/-- The symbols of a frame are enough to recognise it. -/
theorem nextLines_take (h : nextLines nl blank line xs = some (f, r)) :
    ∃ taken, f = line ++ taken ∧ xs = taken ++ r ∧
      nextLines nl blank line taken = some (f, []) := by
  induction xs generalizing line f with
  | nil => cases h
  | cons x xs ih =>
    rw [nextLines] at h
    split at h
    · next hnl =>
      split at h
      · next hblank =>
        cases h
        exact ⟨[x], rfl, rfl, by rw [nextLines, if_pos hnl, if_pos hblank]⟩
      · next hblank =>
        obtain ⟨⟨g, s⟩, hg, heq⟩ := Option.map_eq_some_iff.1 h
        cases heq
        obtain ⟨taken, hg', hxs, htaken⟩ := ih hg
        refine ⟨x :: taken, by simp [hg'], by rw [hxs]; rfl, ?_⟩
        rw [nextLines, if_pos hnl, if_neg hblank, htaken]
        rfl
    · next hnl =>
      obtain ⟨taken, rfl, rfl, htaken⟩ := ih h
      exact ⟨x :: taken, by simp, rfl, by rw [nextLines, if_neg hnl, htaken]⟩

theorem nextLines_append (h : nextLines nl blank line xs = some (f, r)) (ys : List α) :
    nextLines nl blank line (xs ++ ys) = some (f, r ++ ys) := by
  induction xs generalizing line f with
  | nil => cases h
  | cons x xs ih =>
    rw [List.cons_append, nextLines]
    rw [nextLines] at h
    split at h
    · split at h
      · cases h; simp_all
      · obtain ⟨⟨g, s⟩, hg, heq⟩ := Option.map_eq_some_iff.1 h
        cases heq
        simp_all
    · simp_all

end Lines

/-- Frames made of lines: each ends with the first line that `blank` accepts. -/
def lines [DecidableEq α] (nl : α) (blank : List α → Bool) : Framing α where
  next := nextLines nl blank []
  next_eq h := nextLines_eq h
  next_ne_nil h := nextLines_ne_nil h
  next_append h := nextLines_append h

/-- The first line end splits a sequence into a line without one and what follows. -/
theorem split_of_idxOf? [DecidableEq α] {nl : α} {xs : List α} (h : xs.idxOf? nl = some i) :
    xs = xs.take i ++ nl :: xs.drop (i + 1) ∧ nl ∉ xs.take i ∧ i < xs.length := by
  obtain ⟨hlt, hget, hbefore⟩ := List.idxOf?_eq_some_iff.1 h
  refine ⟨?_, ?_, hlt⟩
  · have hget : xs[i] = nl := by simpa using hget
    conv_lhs => rw [← List.take_append_drop i xs, List.drop_eq_getElem_cons hlt, hget]
  · intro hmem
    obtain ⟨j, hj, heq⟩ := List.getElem_of_mem hmem
    rw [List.length_take] at hj
    rw [List.getElem_take] at heq
    exact absurd heq (by simpa using hbefore j (by omega))

section Lines

variable [DecidableEq α] {nl : α} {blank : List α → Bool}

theorem isFrame_of_next (h : (lines nl blank).next xs = some (f, r)) :
    (lines nl blank).IsFrame f := by
  obtain ⟨taken, rfl, -, htaken⟩ := nextLines_take h
  exact htaken

theorem nextLines_skip (hline : nl ∉ xs) :
    nextLines nl blank line (xs ++ ys) = nextLines nl blank (line ++ xs) ys := by
  induction xs generalizing line with
  | nil => simp
  | cons x xs ih =>
    simp only [List.mem_cons, not_or] at hline
    rw [List.cons_append, nextLines, if_neg (Ne.symm hline.1), ih hline.2]
    simp

/-- A nonblank line in front of a block belongs to it. -/
theorem nextLines_cons_line (hline : nl ∉ l) (hblank : blank (l ++ [nl]) = false) :
    nextLines nl blank [] (l ++ nl :: xs) =
      (nextLines nl blank [] xs).map fun p => (l ++ [nl] ++ p.1, p.2) := by
  rw [nextLines_skip hline, nextLines]
  simp [hblank]

/-- Nonblank lines followed by a blank one are one frame. -/
theorem lines_isFrame {ls : List (List α)} {b : List α}
    (hls : ∀ l ∈ ls, nl ∉ l ∧ blank (l ++ [nl]) = false)
    (hb : nl ∉ b) (hblank : blank (b ++ [nl]) = true) :
    (lines nl blank).IsFrame ((ls.map (· ++ [nl])).flatten ++ (b ++ [nl])) := by
  show nextLines nl blank [] _ = _
  induction ls with
  | nil =>
    simp only [List.map_nil, List.flatten_nil, List.nil_append]
    rw [nextLines_skip hb, nextLines]
    simp [hblank]
  | cons l ls ih =>
    have hl := hls l (by simp)
    have ih := ih fun l' hl' => hls l' (by simp [hl'])
    simp only [List.map_cons, List.flatten_cons, List.append_assoc, List.cons_append,
      List.nil_append] at ih ⊢
    rw [nextLines_cons_line hl.1 hl.2, ih]
    simp

end Lines

end Framing
