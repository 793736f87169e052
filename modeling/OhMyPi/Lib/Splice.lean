import Mathlib.Data.List.Basic
import Mathlib.Data.List.Range
import Mathlib.Algebra.GroupWithZero.Nat
import Mathlib.Algebra.BigOperators.Group.List.Basic

/-! Replacing several ranges of a text at once. `replaced` says what that means offset by offset;
`splice` copies the text once, from patch to patch. -/

namespace Splice

variable {α : Type _}

/-- The symbols from `start` to `stop` become `text`. -/
structure Patch (α : Type _) where
  start : Nat
  stop : Nat
  text : List α
deriving DecidableEq, Repr

namespace Patch

def covers (p : Patch α) (i : Nat) : Bool := p.start ≤ i && i < p.stop

end Patch

/-- What an offset of the text gives: the texts of the patches that start there, and the symbol there
unless a patch covers it. -/
def yields (t : List α) (patches : List (Patch α)) (i : Nat) : List α :=
  (patches.filter fun p => p.start = i).flatMap Patch.text ++
    if patches.any fun p => p.covers i then [] else t[i]?.toList

/-- The text with all ranges replaced at once. -/
def replaced (t : List α) (patches : List (Patch α)) : List α :=
  (List.range (t.length + 1)).flatMap (yields t patches)

/-- The text from `cursor` on, copied from patch to patch. -/
def splice (t : List α) : Nat → List (Patch α) → List α
  | cursor, [] => t.drop cursor
  | cursor, p :: patches =>
    (t.drop cursor).take (p.start - cursor) ++ p.text ++ splice t p.stop patches

/-- Patches one behind the other, from `cursor` to the end of a text of the given length. -/
def Ordered (length : Nat) : Nat → List (Patch α) → Prop
  | _, [] => True
  | cursor, p :: patches =>
    cursor ≤ p.start ∧ p.start ≤ p.stop ∧ p.stop ≤ length ∧ Ordered length p.stop patches

theorem Ordered.le_start {length cursor : Nat} {patches : List (Patch α)}
    (h : Ordered length cursor patches) : ∀ p ∈ patches, cursor ≤ p.start := by
  induction patches generalizing cursor with
  | nil => exact fun p hp => absurd hp List.not_mem_nil
  | cons q patches ih =>
    obtain ⟨hstart, hle, -, hrest⟩ := h
    intro p hp
    rcases List.mem_cons.1 hp with rfl | hp
    · exact hstart
    · have := ih hrest p hp
      omega

theorem Ordered.stop_le {length cursor : Nat} {patches : List (Patch α)}
    (h : Ordered length cursor patches) : ∀ p ∈ patches, p.stop ≤ length := by
  induction patches generalizing cursor with
  | nil => exact fun p hp => absurd hp List.not_mem_nil
  | cons q patches ih =>
    obtain ⟨-, -, hstop, hrest⟩ := h
    exact List.forall_mem_cons.2 ⟨hstop, ih hrest⟩

theorem Ordered.mono {length length' cursor : Nat} {patches : List (Patch α)} (hle : length ≤ length')
    (h : Ordered length cursor patches) : Ordered length' cursor patches := by
  induction patches generalizing cursor with
  | nil => trivial
  | cons q patches ih =>
    obtain ⟨hstart, hwidth, hstop, hrest⟩ := h
    exact ⟨hstart, hwidth, hstop.trans hle, ih hrest⟩

/-- Patches of a text do not reach what comes behind it. -/
theorem splice_append {t u : List α} {cursor : Nat} {patches : List (Patch α)}
    (h : Ordered t.length cursor patches) (hcursor : cursor ≤ t.length) :
    splice (t ++ u) cursor patches = splice t cursor patches ++ u := by
  induction patches generalizing cursor with
  | nil => exact List.drop_append_of_le_length hcursor
  | cons p patches ih =>
    obtain ⟨hstart, hle, hstop, hrest⟩ := h
    rw [splice, splice, ih hrest hstop, List.drop_append_of_le_length hcursor,
      List.take_append_of_le_length (by rw [List.length_drop]; omega)]
    simp only [List.append_assoc]

theorem yields_of_lt {t : List α} {patches : List (Patch α)} {i : Nat}
    (h : ∀ p ∈ patches, i < p.start) : yields t patches i = t[i]?.toList := by
  have hnone : patches.filter (fun p => p.start = i) = [] := by
    refine List.filter_eq_nil_iff.2 fun p hp => ?_
    have := h p hp
    simpa using (by omega : ¬ p.start = i)
  have hcovers : patches.any (fun p => p.covers i) = false := by
    refine List.any_eq_false.2 fun p hp => ?_
    have := h p hp
    simp only [Patch.covers, Bool.and_eq_true, decide_eq_true_eq, not_and]
    omega
  rw [yields, hnone, hcovers]
  rfl

/-- Behind its end a patch yields nothing. -/
theorem yields_cons_of_stop_le (t : List α) (p : Patch α) (patches : List (Patch α)) {i : Nat}
    (h : p.stop ≤ i) : yields t (p :: patches) i =
      (if p.start = i then p.text else []) ++ yields t patches i := by
  have hcovers : p.covers i = false := by
    simp only [Patch.covers, Bool.and_eq_false_iff, decide_eq_false_iff_not]
    omega
  rw [yields, yields, List.any_cons, hcovers, Bool.false_or, List.filter_cons]
  by_cases hi : p.start = i
  · simp [hi]
  · simp [hi]

/-- Within its range a patch yields its text once. -/
theorem yields_cons_of_covers (t : List α) {p : Patch α} {patches : List (Patch α)} {i : Nat}
    (h : p.covers i = true) (hrest : ∀ q ∈ patches, p.stop ≤ q.start) :
    yields t (p :: patches) i = if p.start = i then p.text else [] := by
  have hlt : p.start ≤ i ∧ i < p.stop := by simpa [Patch.covers] using h
  have hnone : patches.filter (fun q => q.start = i) = [] := by
    refine List.filter_eq_nil_iff.2 fun q hq => ?_
    have := hrest q hq
    simpa using (by omega : ¬ q.start = i)
  rw [yields, List.any_cons, h, Bool.true_or, List.filter_cons, hnone]
  by_cases hi : p.start = i
  · simp [hi]
  · simp [hi]

theorem flatMap_getElem?_range' (t : List α) (start n : Nat) :
    (List.range' start n).flatMap (fun i => t[i]?.toList) = (t.drop start).take n := by
  induction n generalizing start with
  | zero => simp
  | succ n ih =>
    rw [List.range'_succ, List.flatMap_cons, ih]
    by_cases h : start < t.length
    · rw [List.drop_eq_getElem_cons h, List.take_succ_cons, List.getElem?_eq_getElem h]
      rfl
    · rw [List.getElem?_eq_none (by omega), List.drop_eq_nil_of_le (by omega : t.length ≤ start),
        List.drop_eq_nil_of_le (by omega : t.length ≤ start + 1)]
      simp

theorem range'_cut {a b c : Nat} (hab : a ≤ b) (hbc : b ≤ c) :
    List.range' a (c - a) = List.range' a (b - a) ++ List.range' b (c - b) := by
  obtain ⟨m, rfl⟩ := Nat.exists_eq_add_of_le hab
  obtain ⟨n, rfl⟩ := Nat.exists_eq_add_of_le hbc
  rw [Nat.add_sub_cancel_left, Nat.add_sub_cancel_left, List.range'_append_1]
  congr 1
  omega

/-- The part of a patch: its text, when it covers anything. -/
theorem flatMap_yields_range (t : List α) {p : Patch α} {patches : List (Patch α)}
    (hle : p.start < p.stop) (hrest : ∀ q ∈ patches, p.stop ≤ q.start) :
    (List.range' p.start (p.stop - p.start)).flatMap (yields t (p :: patches)) = p.text := by
  obtain ⟨n, hn⟩ := Nat.exists_eq_add_of_lt hle
  have hwidth : p.stop - p.start = n + 1 := by omega
  have hfirst := yields_cons_of_covers t (p := p) (i := p.start) (by simp [Patch.covers, hle]) hrest
  have hothers : (List.range' (p.start + 1) n).flatMap (yields t (p :: patches)) = [] := by
    refine List.flatMap_eq_nil_iff.2 fun i hi => ?_
    obtain ⟨hlow, hhigh⟩ := List.mem_range'_1.1 hi
    have hcov : p.covers i = true := by
      simp only [Patch.covers, Bool.and_eq_true, decide_eq_true_eq]
      omega
    rw [yields_cons_of_covers t hcov hrest, if_neg (by omega)]
  rw [hwidth, List.range'_succ, List.flatMap_cons, hothers, hfirst, if_pos rfl, List.append_nil]

/-- Behind the range of a patch its text is still to come only when the range is empty. -/
theorem flatMap_yields_behind (t : List α) (p : Patch α) (patches : List (Patch α)) {n : Nat}
    (hle : p.start ≤ p.stop) (hn : 0 < n) :
    (List.range' p.stop n).flatMap (yields t (p :: patches)) =
      (if p.start = p.stop then p.text else []) ++
        (List.range' p.stop n).flatMap (yields t patches) := by
  obtain ⟨n, rfl⟩ := Nat.exists_eq_succ_of_ne_zero hn.ne'
  have hothers : (List.range' (p.stop + 1) n).flatMap (yields t (p :: patches)) =
      (List.range' (p.stop + 1) n).flatMap (yields t patches) := by
    refine List.flatMap_congr fun i hi => ?_
    obtain ⟨hlow, -⟩ := List.mem_range'_1.1 hi
    rw [yields_cons_of_stop_le t p patches (by omega), if_neg (by omega), List.nil_append]
  rw [List.range'_succ, List.flatMap_cons, List.flatMap_cons, hothers,
    yields_cons_of_stop_le t p patches (Nat.le_refl _), List.append_assoc]

theorem splice_eq_flatMap {t : List α} {cursor : Nat} {patches : List (Patch α)}
    (h : Ordered t.length cursor patches) (hcursor : cursor ≤ t.length) :
    splice t cursor patches =
      (List.range' cursor (t.length + 1 - cursor)).flatMap (yields t patches) := by
  induction patches generalizing cursor with
  | nil =>
    have : yields t ([] : List (Patch α)) = fun i => t[i]?.toList :=
      funext fun i => yields_of_lt fun p hp => absurd hp List.not_mem_nil
    rw [this, flatMap_getElem?_range', splice, List.take_of_length_le (by simp; omega)]
  | cons p patches ih =>
    obtain ⟨hstart, hle, hstop, hrest⟩ := h
    have hbehind := hrest.le_start
    have hfront : (List.range' cursor (p.start - cursor)).flatMap (yields t (p :: patches)) =
        (t.drop cursor).take (p.start - cursor) := by
      rw [← flatMap_getElem?_range']
      refine List.flatMap_congr fun i hi => yields_of_lt fun q hq => ?_
      obtain ⟨-, hhigh⟩ := List.mem_range'_1.1 hi
      rcases List.mem_cons.1 hq with rfl | hq
      · omega
      · have := hbehind q hq
        omega
    have hsplit : List.range' cursor (t.length + 1 - cursor) =
        List.range' cursor (p.start - cursor) ++ List.range' p.start (p.stop - p.start) ++
          List.range' p.stop (t.length + 1 - p.stop) := by
      rw [range'_cut hstart (by omega : p.start ≤ t.length + 1),
        range'_cut hle (by omega : p.stop ≤ t.length + 1), List.append_assoc]
    rw [splice, ih hrest hstop, hsplit, List.flatMap_append, List.flatMap_append, hfront,
      flatMap_yields_behind t p patches hle (by omega), List.append_assoc, List.append_assoc]
    congr 1
    rcases Nat.eq_or_lt_of_le hle with heq | hlt
    · rw [heq, Nat.sub_self, if_pos rfl]
      rfl
    · rw [flatMap_yields_range t hlt hbehind, if_neg hlt.ne, List.nil_append]

/-- Copying from patch to patch replaces all ranges at once. -/
theorem splice_eq_replaced {t : List α} {patches : List (Patch α)} (h : Ordered t.length 0 patches) :
    splice t 0 patches = replaced t patches := by
  rw [splice_eq_flatMap h (Nat.zero_le _), replaced, List.range_eq_range', Nat.sub_zero]

/-- Of patches that start at different offsets, at most one starts at a given one. -/
theorem length_filter_start_le {patches : List (Patch α)} (h : (patches.map Patch.start).Nodup)
    (i : Nat) : (patches.filter fun p => p.start = i).length ≤ 1 := by
  have hnodup : ((patches.filter fun p => p.start = i).map Patch.start).Nodup :=
    h.sublist (List.filter_sublist.map _)
  have hall : ∀ p ∈ patches.filter fun p => p.start = i, p.start = i := fun p hp => by
    simpa using (List.mem_filter.1 hp).2
  generalize patches.filter (fun p => p.start = i) = kept at hnodup hall
  rcases kept with _ | ⟨p, _ | ⟨q, kept⟩⟩
  · exact Nat.zero_le _
  · exact Nat.le_refl _
  · have hp := hall p List.mem_cons_self
    have hq := hall q (List.mem_cons_of_mem _ List.mem_cons_self)
    refine absurd ?_ (List.nodup_cons.1 hnodup).1
    simp [hp, hq]

/-- The order of patches that start at different offsets does not matter. -/
theorem replaced_perm (t : List α) {patches patches' : List (Patch α)} (h : patches.Perm patches')
    (hstarts : (patches.map Patch.start).Nodup) : replaced t patches = replaced t patches' := by
  refine List.flatMap_congr fun i _ => ?_
  have hfilter : patches.filter (fun p => p.start = i) = patches'.filter fun p => p.start = i := by
    have hperm := h.filter fun p => p.start = i
    have hlen := length_filter_start_le hstarts i
    generalize patches.filter (fun p => p.start = i) = kept at hperm hlen
    rcases kept with _ | ⟨p, _ | ⟨q, kept⟩⟩
    · exact hperm.nil_eq
    · exact hperm.singleton_eq
    · simp at hlen
  have hany : patches.any (fun p => p.covers i) = patches'.any fun p => p.covers i := by
    rw [Bool.eq_iff_iff, List.any_eq_true, List.any_eq_true]
    simp only [h.mem_iff]
  rw [yields, yields, hfilter, hany]

/-- One patch ends before the other one starts. -/
def Patch.Apart (p q : Patch α) : Prop := p.stop ≤ q.start ∨ q.stop ≤ p.start

/-- Patches that are sorted, apart and not empty stand one behind the other. -/
theorem ordered_of_pairwise {length cursor : Nat} {patches : List (Patch α)}
    (hsorted : patches.Pairwise fun p q => p.start ≤ q.start)
    (hapart : patches.Pairwise Patch.Apart)
    (hinside : ∀ p ∈ patches, p.start < p.stop ∧ p.stop ≤ length)
    (hcursor : ∀ p ∈ patches, cursor ≤ p.start) : Ordered length cursor patches := by
  induction patches generalizing cursor with
  | nil => trivial
  | cons p patches ih =>
    obtain ⟨hlt, hle⟩ := hinside p List.mem_cons_self
    rw [List.pairwise_cons] at hsorted hapart
    refine ⟨hcursor p List.mem_cons_self, hlt.le, hle, ih hsorted.2 hapart.2
      (fun q hq => hinside q (List.mem_cons_of_mem _ hq)) fun q hq => ?_⟩
    have hstart := hsorted.1 q hq
    have hwidth := (hinside q (List.mem_cons_of_mem _ hq)).1
    rcases hapart.1 q hq with h | h <;> omega

theorem length_splice {t : List α} {cursor : Nat} {patches : List (Patch α)}
    (h : Ordered t.length cursor patches) (hcursor : cursor ≤ t.length) :
    (splice t cursor patches).length + (patches.map fun p => p.stop - p.start).sum + cursor =
      t.length + (patches.map fun p => p.text.length).sum := by
  induction patches generalizing cursor with
  | nil =>
    simp only [splice, List.length_drop, List.map_nil, List.sum_nil]
    omega
  | cons p patches ih =>
    obtain ⟨hstart, hle, hstop, hrest⟩ := h
    have hlen := ih hrest hstop
    simp only [splice, List.length_append, List.length_take, List.length_drop, List.map_cons,
      List.sum_cons]
    omega

end Splice
