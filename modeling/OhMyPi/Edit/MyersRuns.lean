import Mathlib.Data.List.Chain
import OhMyPi.Edit.MyersCorrect

/-! What the runs of a difference stand for. A list of runs spells both sequences; every such list is a path
of the edit graph, so that the shortest path has the fewest added and removed tokens. The counts of the result
are cut to 32 bits, which only shows on sequences that are longer. -/

namespace OhMyPi.Myers

open EditGraph

variable {α : Type}

/-- The kept and removed tokens of the runs spell the first sequence, the kept and added ones the second. -/
inductive Spells : List Run → List α → List α → Prop
  | nil : Spells [] [] []
  | kept (tokens : List α) (h : Spells runs old new) :
    Spells (⟨tokens.length, false, false⟩ :: runs) (tokens ++ old) (tokens ++ new)
  | removed (tokens : List α) (h : Spells runs old new) :
    Spells (⟨tokens.length, false, true⟩ :: runs) (tokens ++ old) new
  | added (tokens : List α) (h : Spells runs old new) :
    Spells (⟨tokens.length, true, false⟩ :: runs) old (tokens ++ new)

/-- How many tokens are added or removed. -/
def edits : List Run → Nat
  | [] => 0
  | run :: runs => (if run.added || run.removed then run.count else 0) + edits runs

theorem edits_append (runs runs' : List Run) : edits (runs ++ runs') = edits runs + edits runs' := by
  induction runs with
  | nil => rw [List.nil_append, edits, Nat.zero_add]
  | cons run runs ih => rw [List.cons_append, edits, edits, ih, Nat.add_assoc]

theorem Spells.append {old new old' new' : List α} (h : Spells runs old new) (h' : Spells runs' old' new') :
    Spells (runs ++ runs') (old ++ old') (new ++ new') := by
  induction h with
  | nil => exact h'
  | kept tokens h ih =>
    rw [List.append_assoc, List.append_assoc]
    exact .kept tokens ih
  | removed tokens h ih =>
    rw [List.append_assoc]
    exact .removed tokens ih
  | added tokens h ih =>
    rw [List.append_assoc]
    exact .added tokens ih

theorem Spells.count_le {old new : List α} (h : Spells runs old new) :
    ∀ run ∈ runs, run.count ≤ max old.length new.length := by
  induction h with
  | nil => exact fun run hrun => absurd hrun List.not_mem_nil
  | kept tokens h ih =>
    intro run hrun
    rw [List.length_append, List.length_append]
    rcases List.mem_cons.1 hrun with rfl | hrun
    · simp only
      omega
    · have hle := ih run hrun
      omega
  | removed tokens h ih =>
    intro run hrun
    rw [List.length_append]
    rcases List.mem_cons.1 hrun with rfl | hrun
    · simp only
      omega
    · have hle := ih run hrun
      omega
  | added tokens h ih =>
    intro run hrun
    rw [List.length_append]
    rcases List.mem_cons.1 hrun with rfl | hrun
    · simp only
      omega
    · have hle := ih run hrun
      omega

/-! ## Paths spell what they have read -/

/-- The runs before their counts are cut. -/
def exactRuns (last : List Component) : List Run :=
  (last.map fun component => ⟨component.count, component.added, component.removed⟩).reverse

theorem exactRuns_cons (component : Component) (last : List Component) :
    exactRuns (component :: last) =
      exactRuns last ++ [⟨component.count, component.added, component.removed⟩] := by
  rw [exactRuns, List.map_cons, List.reverse_cons]
  rfl

theorem edits_exactRuns_cons (component : Component) (last : List Component) :
    edits (exactRuns (component :: last)) =
      edits (exactRuns last) + if component.added || component.removed then component.count else 0 := by
  rw [exactRuns_cons, edits_append, edits, edits, Nat.add_zero]

section

variable {old new : List α}

theorem slice_eq (h : Matches old new x y n) : (old.drop x).take n = (new.drop y).take n := by
  have hlength : ∀ i < n, x + i < old.length ∧ y + i < new.length := by
    intro i hi
    obtain ⟨hx, hy, -⟩ := h i hi
    exact ⟨hx, hy⟩
  refine List.ext_getElem ?_ fun i hi hi' => ?_
  · simp only [List.length_take, List.length_drop]
    rcases Nat.eq_zero_or_pos n with rfl | hpos
    · simp
    · have hlast := hlength (n - 1) (by omega)
      omega
  · rw [List.length_take] at hi
    obtain ⟨hx, hy, heq⟩ := h i (by omega)
    simpa only [List.getElem_take, List.getElem_drop] using heq

theorem length_slice (h : x + n ≤ old.length) : ((old.drop x).take n).length = n := by
  rw [List.length_take, List.length_drop]
  omega

/-- The components of a path spell what it has read. -/
theorem Chain.spells (h : Chain old new last x y d) :
    Spells (exactRuns last) (old.take x) (new.take y) ∧ edits (exactRuns last) = d := by
  induction h with
  | nil =>
    rw [List.take_zero, List.take_zero]
    exact ⟨.nil, rfl⟩
  | @kept last x y d n h _ _ hmatch ih =>
    have hle := (h.reach.keeps hmatch).le
    have hlast := Spells.kept ((old.drop x).take n) .nil
    rw [length_slice hle.1, List.append_nil] at hlast
    rw [edits_exactRuns_cons, exactRuns_cons, List.take_add, List.take_add, ← slice_eq hmatch]
    exact ⟨ih.1.append hlast, ih.2⟩
  | @removed last x y d n h _ _ hle ih =>
    have hlast := Spells.removed ((old.drop x).take n) .nil
    rw [length_slice hle, List.append_nil] at hlast
    rw [edits_exactRuns_cons, exactRuns_cons, List.take_add, ← List.append_nil (new.take y)]
    exact ⟨ih.1.append hlast, by rw [ih.2]; rfl⟩
  | @added last x y d n h _ _ hle ih =>
    have hlast := Spells.added ((new.drop y).take n) .nil
    rw [length_slice hle, List.append_nil] at hlast
    rw [edits_exactRuns_cons, exactRuns_cons, List.take_add, ← List.append_nil (old.take x)]
    exact ⟨ih.1.append hlast, by rw [ih.2]; rfl⟩

end

/-- Neighbouring runs are of different kinds, and nothing is removed behind an addition. -/
def Run.Follows (before after : Run) : Prop :=
  if after.added then before.added = false
  else (before.added || before.removed) = !after.removed

structure Regular (runs : List Run) : Prop where
  pos : ∀ run ∈ runs, 0 < run.count
  follows : runs.IsChain Run.Follows

theorem getLast?_exactRuns (last : List Component) : (exactRuns last).getLast? =
    last.head?.map fun component => ⟨component.count, component.added, component.removed⟩ := by
  rw [exactRuns, List.getLast?_reverse, List.head?_map]

theorem Regular.concat {component : Component} (h : Regular (exactRuns last)) (hpos : 0 < component.count)
    (hbehind : ∀ c ∈ last.head?, Run.Follows ⟨c.count, c.added, c.removed⟩
      ⟨component.count, component.added, component.removed⟩) : Regular (exactRuns (component :: last)) := by
  rw [exactRuns_cons]
  refine ⟨List.forall_mem_append.2 ⟨h.pos, by simpa using hpos⟩, ?_⟩
  refine List.isChain_append.2 ⟨h.follows, .singleton _, fun before hbefore after hafter => ?_⟩
  rw [getLast?_exactRuns] at hbefore
  obtain ⟨c, hc, rfl⟩ := Option.map_eq_some_iff.1 hbefore
  cases hafter
  exact hbehind c hc

theorem Chain.regular {old new : List α} (h : Chain old new last x y d) : Regular (exactRuns last) := by
  induction h with
  | nil => exact ⟨by simp [exactRuns], .nil⟩
  | kept h hbehind hpos hmatch ih => exact ih.concat hpos hbehind
  | removed h hbehind hpos hle ih => exact ih.concat hpos hbehind
  | added h hbehind hpos hle ih => exact ih.concat hpos hbehind

/-! ## Runs are paths -/

theorem matches_tokens (before before' tokens old new : List α) :
    Matches (before ++ (tokens ++ old)) (before' ++ (tokens ++ new)) before.length before'.length
      tokens.length := by
  intro i hi
  refine ⟨by simp only [List.length_append]; omega, by simp only [List.length_append]; omega, ?_⟩
  rw [List.getElem_append_right (Nat.le_add_right _ _), List.getElem_append_right (Nat.le_add_right _ _)]
  simp only [Nat.add_sub_cancel_left]
  rw [List.getElem_append_left hi, List.getElem_append_left hi]

theorem Spells.reach_aux {old new : List α} (h : Spells runs old new) (before before' : List α)
    (hreach : Reach (before ++ old) (before' ++ new) d before.length before'.length) :
    Reach (before ++ old) (before' ++ new) (d + edits runs) (before ++ old).length (before' ++ new).length := by
  induction h generalizing before before' d with
  | nil => simpa [edits] using hreach
  | @kept runs old new tokens h ih =>
    have hnext := hreach.keeps (matches_tokens before before' tokens old new)
    have hrest := @ih d (before ++ tokens) (before' ++ tokens)
    simp only [List.append_assoc, List.length_append] at hrest ⊢
    simpa [edits] using hrest (by simpa using hnext)
  | @removed runs old new tokens h ih =>
    have hnext := hreach.removes (n := tokens.length) (by simp only [List.length_append]; omega)
    have hrest := @ih (d + tokens.length) (before ++ tokens) before'
    simp only [List.append_assoc, List.length_append] at hrest ⊢
    simpa [edits, Nat.add_assoc] using hrest (by simpa using hnext)
  | @added runs old new tokens h ih =>
    have hnext := hreach.adds (n := tokens.length) (by simp only [List.length_append]; omega)
    have hrest := @ih (d + tokens.length) before (before' ++ tokens)
    simp only [List.append_assoc, List.length_append] at hrest ⊢
    simpa [edits, Nat.add_assoc] using hrest (by simpa using hnext)

theorem Spells.reach {old new : List α} (h : Spells runs old new) :
    Reach old new (edits runs) old.length new.length := by
  have hreach := h.reach_aux [] [] (.start : Reach old new 0 0 0)
  rwa [Nat.zero_add] at hreach

/-! ## The difference -/

/-- The count as the result holds it. -/
def Run.cut (run : Run) : Run := { run with count := run.count % 2 ^ 32 }

theorem buildRuns_eq (last : List Component) : buildRuns last = (exactRuns last).map Run.cut := by
  rw [buildRuns, exactRuns, List.map_reverse, List.map_map]
  rfl

theorem map_cut_eq {runs : List Run} (h : ∀ run ∈ runs, run.count < 2 ^ 32) : runs.map Run.cut = runs := by
  refine (List.map_congr_left fun run hrun => ?_).trans (List.map_id runs)
  rw [Run.cut, Nat.mod_eq_of_lt (h run hrun)]
  rfl

theorem Spells.map_cut {old new : List α} (h : Spells runs old new) (hold : old.length < 2 ^ 32)
    (hnew : new.length < 2 ^ 32) : runs.map Run.cut = runs := by
  refine map_cut_eq fun run hrun => ?_
  have hle := h.count_le run hrun
  omega

/-- The runs spell both sequences, with the fewest added and removed tokens. -/
structure Difference (runs : List Run) (old new : List α) : Prop where
  spells : Spells runs old new
  least : ∀ other, Spells other old new → edits runs ≤ edits other

theorem myersDiff_runs [DecidableEq α] (old new : List α) :
    ∃ runs, Difference runs old new ∧ Regular runs ∧ myersDiff old new = .ok (runs.map Run.cut) := by
  obtain ⟨runs, d, hresult, ⟨last, rfl, hchain⟩, hminimal⟩ := myersDiff_spec old new
  obtain ⟨hspells, hedits⟩ := hchain.spells
  rw [List.take_length, List.take_length] at hspells
  rw [buildRuns_eq] at hresult
  refine ⟨exactRuns last, ⟨hspells, fun other hother => ?_⟩, hchain.regular, hresult⟩
  rw [hedits]
  exact hminimal _ hother.reach

/-- The search never fails and finds a shortest difference, whose counts are kept to 32 bits: all of them, unless a
sequence has more tokens. -/
theorem myersDiff_difference [DecidableEq α] (old new : List α) :
    ∃ runs, Difference runs old new ∧ myersDiff old new = .ok (runs.map Run.cut) ∧
      (old.length < 2 ^ 32 → new.length < 2 ^ 32 → myersDiff old new = .ok runs) := by
  obtain ⟨runs, hdifference, -, hresult⟩ := myersDiff_runs old new
  refine ⟨runs, hdifference, hresult, fun hold hnew => ?_⟩
  rw [hresult, hdifference.spells.map_cut hold hnew]

/-- Two equal sequences have one run, with the last bits of their length. -/
theorem myersDiff_self [DecidableEq α] {tokens : List α} (hpos : 0 < tokens.length) :
    myersDiff tokens tokens = .ok [⟨tokens.length % 2 ^ 32, false, false⟩] := by
  have hcommon : extractCommon tokens tokens ⟨-1, []⟩ 0 =
      .ok (⟨-1 + tokens.length, [⟨tokens.length, false, false⟩]⟩, -1 + tokens.length) := by
    simp [extractCommon, commonLength_self, hpos]
  have hend : (tokens.length : Int) ≤ -1 + tokens.length + 1 := by omega
  rw [myersDiff, hcommon, Except.ok_bind]
  simp only [hend, decide_true, Bool.and_self, if_true]
  rfl

theorem Spells.length_of_kept {old new : List α} (h : Spells [⟨n, false, false⟩] old new) : old.length = n := by
  generalize hrun : (⟨n, false, false⟩ : Run) = run at h
  cases h with
  | kept tokens h =>
    cases h
    cases hrun
    rw [List.append_nil]
  | removed => cases hrun
  | added => cases hrun

/-- More tokens than a count can hold are all kept, in a run of no tokens. -/
theorem replicate_not_difference : ¬∃ runs, myersDiff (List.replicate (2 ^ 32) 0) (List.replicate (2 ^ 32) 0) =
    .ok runs ∧ Difference runs (List.replicate (2 ^ 32) 0) (List.replicate (2 ^ 32) 0) := by
  rintro ⟨runs, hresult, hdifference⟩
  have hlength : (List.replicate (2 ^ 32) 0).length = 2 ^ 32 := List.length_replicate
  rw [myersDiff_self (by rw [hlength]; exact Nat.two_pow_pos 32), hlength, Nat.mod_self] at hresult
  cases hresult
  have hzero := hdifference.spells.length_of_kept
  rw [hlength] at hzero
  exact absurd hzero (Nat.two_pow_pos 32).ne'

/-! ## What is kept -/

/-- The tokens of the first sequence that the runs keep. -/
def keptTokens : List Run → List α → List α
  | [], _ => []
  | run :: runs, old =>
    if run.added then keptTokens runs old
    else if run.removed then keptTokens runs (old.drop run.count)
    else old.take run.count ++ keptTokens runs (old.drop run.count)

theorem Spells.keptTokens_sublist {old new : List α} (h : Spells runs old new) :
    (keptTokens runs old).Sublist old ∧ (keptTokens runs old).Sublist new := by
  induction h with
  | nil => exact ⟨.slnil, .slnil⟩
  | kept tokens h ih => simpa [keptTokens] using ih
  | removed tokens h ih =>
    simp only [keptTokens, Bool.false_eq_true, if_false, if_true, List.drop_left]
    exact ⟨ih.1.trans (List.sublist_append_right _ _), ih.2⟩
  | added tokens h ih => exact ⟨ih.1, ih.2.trans (List.sublist_append_right _ _)⟩

theorem Spells.length_keptTokens {old new : List α} (h : Spells runs old new) :
    edits runs + 2 * (keptTokens runs old).length = old.length + new.length := by
  induction h with
  | nil => rfl
  | kept tokens h ih =>
    simp only [keptTokens, edits, Bool.or_self, Bool.false_eq_true, if_false, List.take_left, List.drop_left,
      List.length_append]
    omega
  | removed tokens h ih =>
    simp only [keptTokens, edits, Bool.or_true, Bool.false_eq_true, if_false, if_true, List.drop_left,
      List.length_append]
    omega
  | added tokens h ih =>
    simp only [keptTokens, edits, Bool.or_false, if_true, List.length_append]
    omega

/-- The tokens outside a common subsequence can be removed and added. -/
theorem exists_spells_of_sublist {common old new : List α} (hold : common.Sublist old) (hnew : common.Sublist new) :
    ∃ runs, Spells runs old new ∧ edits runs + 2 * common.length = old.length + new.length := by
  induction hold generalizing new with
  | slnil =>
    have hadded : Spells [⟨new.length, true, false⟩] [] (new ++ []) := .added new .nil
    rw [List.append_nil] at hadded
    exact ⟨_, hadded, by simp [edits]⟩
  | cons x hold ih =>
    obtain ⟨runs, hspells, hcount⟩ := ih hnew
    refine ⟨_, .removed [x] hspells, ?_⟩
    simp only [edits, Bool.or_true, if_true, List.length_cons, List.length_nil]
    omega
  | @cons_cons common old x hold ih =>
    obtain ⟨front, rest, rfl, hmem, hrest⟩ := List.cons_sublist_iff.1 hnew
    obtain ⟨before, after, rfl⟩ := List.append_of_mem hmem
    obtain ⟨runs, hspells, hcount⟩ := ih (hrest.trans (List.sublist_append_right after rest))
    have hnext := Spells.added before (.kept [x] hspells)
    refine ⟨_, by simpa using hnext, ?_⟩
    simp only [edits, Bool.or_false, Bool.false_eq_true, if_false, if_true, List.length_append,
      List.length_cons] at hcount ⊢
    omega

/-- What the difference keeps is a longest common subsequence. -/
theorem myersDiff_keeps_longest [DecidableEq α] (old new : List α) (hold : old.length < 2 ^ 32)
    (hnew : new.length < 2 ^ 32) :
    ∃ runs, myersDiff old new = .ok runs ∧
      (keptTokens runs old).Sublist old ∧ (keptTokens runs old).Sublist new ∧
      ∀ common : List α, common.Sublist old → common.Sublist new → common.length ≤ (keptTokens runs old).length := by
  obtain ⟨runs, ⟨hspells, hleast⟩, -, hresult⟩ := myersDiff_runs old new
  rw [hspells.map_cut hold hnew] at hresult
  refine ⟨runs, hresult, hspells.keptTokens_sublist.1, hspells.keptTokens_sublist.2, fun common hold hnew => ?_⟩
  obtain ⟨other, hother, hcount⟩ := exists_spells_of_sublist hold hnew
  have hle := hleast other hother
  have hkept := hspells.length_keptTokens
  omega

theorem myersDiff_keeps_longest_sample : ∃ runs, myersDiff [1, 2, 3, 4] [2, 4, 5] = .ok runs ∧
    2 ≤ (keptTokens runs [1, 2, 3, 4]).length := by
  obtain ⟨runs, hresult, -, -, hlongest⟩ := myersDiff_keeps_longest [1, 2, 3, 4] [2, 4, 5] (by simp) (by simp)
  exact ⟨runs, hresult, hlongest [2, 4] (by simp) (by simp)⟩

end OhMyPi.Myers
