import OhMyPi.Edit.Patch
import OhMyPi.Lib.Except

/-! What a search promises about the lines where it places a hunk. The plain strategies compare lines
up to the blanks around them, and so do the placements around a context, which have no strategy. -/

namespace OhMyPi.Edit

open Text

/-! ## Lines equal up to blanks -/

theorem jsTrim_eq (text : List Char) : jsTrim text = jsTrimStart (jsTrimEnd text) := by
  simp only [jsTrim, jsTrimStart, jsTrimEnd]
  induction text using List.reverseRecOn with
  | nil => rfl
  | append_singleton text c ih =>
    by_cases hc : isJsWhitespace c = true
    · rw [List.rdropWhile_concat_pos _ _ _ hc, ← ih, List.dropWhile_append]
      split
      · next hnil =>
        rw [List.isEmpty_iff.1 hnil, List.dropWhile_cons_of_pos hc]
        rfl
      · exact List.rdropWhile_concat_pos _ _ _ hc
    · rw [List.rdropWhile_concat_neg _ _ _ hc, List.dropWhile_append]
      split
      · rw [List.dropWhile_cons_of_neg hc, List.rdropWhile_singleton, if_neg hc]
      · exact List.rdropWhile_concat_neg _ _ _ hc

theorem normalizeForFuzzy_congr {a b : List Char} (h : jsTrim a = jsTrim b) :
    normalizeForFuzzy a = normalizeForFuzzy b := by
  rw [normalizeForFuzzy, normalizeForFuzzy, h]

/-- The lines at a place are those of the pattern up to the blanks around them. -/
def TrimEqualAt (lines pattern : List (List Char)) (index : Nat) : Prop :=
  ∀ pair ∈ pattern.zip ((lines.drop index).take pattern.length), jsTrim pair.1 = jsTrim pair.2

theorem trimEqualAt_nil (lines : List (List Char)) (index : Nat) : TrimEqualAt lines [] index := by
  intro pair hpair
  cases hpair

theorem trimEqualAt_singleton {lines : List (List Char)} {line : List Char} {index : Nat}
    (h : jsTrim (lines.getD index []) = jsTrim line) : TrimEqualAt lines [line] index := by
  intro pair hpair
  cases hdrop : lines.drop index with
  | nil => simp [hdrop] at hpair
  | cons found rest =>
    have hfound : lines.getD index [] = found := by
      rw [List.getD_eq_getElem?_getD, ← Nat.add_zero index, ← List.getElem?_drop, hdrop]
      rfl
    simp only [hdrop, List.length_singleton, List.take_succ_cons, List.take_zero,
      List.zip_cons_cons, List.zip_nil_left, List.mem_singleton] at hpair
    rw [hpair, ← hfound]
    exact h.symm

theorem trimEqualAt_of_matchesAt {compare : List Char → List Char → Bool}
    (hcompare : ∀ a b, compare a b = true → jsTrim a = jsTrim b) {lines pattern : List (List Char)}
    {index : Nat} (h : matchesAt compare lines pattern index = true) :
    TrimEqualAt lines pattern index := by
  rw [matchesAt] at h
  rw [TrimEqualAt]
  generalize lines.drop index = rest at h
  induction pattern generalizing rest with
  | nil => exact fun pair hpair => absurd hpair List.not_mem_nil
  | cons expected pattern ih =>
    cases rest with
    | nil => simp
    | cons line rest =>
      rw [matchesFrom, Bool.and_eq_true] at h
      rw [List.length_cons, List.take_succ_cons, List.zip_cons_cons, List.forall_mem_cons]
      exact ⟨(hcompare _ _ h.1).symm, ih rest h.2⟩

/-! ## Results -/

/-- The strategies that compare whole lines up to blanks. -/
def isPlain : Option SequenceMatchStrategy → Bool
  | none | some .exact | some .trimTrailing | some .trim => true
  | _ => false

/-- A result by a plain strategy stands on equal lines, and its only place is its index. -/
structure Sound {F : Type} (lines pattern : List (List Char)) (r : SequenceSearchResult F) : Prop where
  equal : isPlain r.strategy = true → ∀ index ∈ r.index, TrimEqualAt lines pattern index
  indices : isPlain r.strategy = true → r.matchIndices = none

section

variable {F : Type} {lines pattern : List (List Char)}

theorem sound_of_not_plain {r : SequenceSearchResult F} (h : isPlain r.strategy = false) :
    Sound lines pattern r := by
  constructor <;> intro hplain <;> rw [h] at hplain <;> cases hplain

theorem sound_noSequenceMatch (confidence : F) (count : Option Nat) :
    Sound lines pattern (noSequenceMatch confidence count) where
  equal _ index hindex := by cases hindex
  indices _ := rfl

theorem sound_sequenceResult {found : List Nat} {confidence : F} {strategy : SequenceMatchStrategy}
    {r : SequenceSearchResult F} (hfound : ∀ index ∈ found, TrimEqualAt lines pattern index)
    (h : sequenceResult found confidence strategy false = some r) : Sound lines pattern r := by
  obtain ⟨first, hfirst, rfl⟩ := Option.map_eq_some_iff.1 h
  constructor
  · rintro - index ⟨⟩
    exact hfound _ (List.mem_of_head? hfirst)
  · exact fun _ => rfl

end

section

variable {A : Arith} {nfc : List Char → List Char} {lines pattern : List (List Char)}

theorem sound_pass {start stop : Nat} {compare : List Char → List Char → Bool} {confidence : A.F}
    {strategy : SequenceMatchStrategy} {r : SequenceSearchResult A.F}
    (hcompare : ∀ a b, compare a b = true → jsTrim a = jsTrim b)
    (h : pass A lines pattern start stop compare confidence strategy false = some r) :
    Sound lines pattern r :=
  sound_sequenceResult
    (fun _ hindex => trimEqualAt_of_matchesAt hcompare (List.mem_filter.1 hindex).2) h

theorem strategy_of_pass {lines' pattern' : List (List Char)} {start stop : Nat}
    {compare : List Char → List Char → Bool} {confidence : A.F} {strategy : SequenceMatchStrategy}
    {ambiguous : Bool} {r : SequenceSearchResult A.F}
    (h : pass A lines' pattern' start stop compare confidence strategy ambiguous = some r) :
    r.strategy = some strategy := by
  obtain ⟨first, -, rfl⟩ := Option.map_eq_some_iff.1 h
  rfl

theorem sound_runSequencePasses {start stop : Nat} {allowFuzzy : Bool} {r : SequenceSearchResult A.F}
    (h : runSequencePasses A nfc lines pattern start stop allowFuzzy = some r) :
    Sound lines pattern r := by
  rw [runSequencePasses] at h
  simp only [Option.or_eq_some_iff] at h
  rcases h with h | ⟨-, h | ⟨-, h | ⟨-, h | ⟨-, h | ⟨-, h⟩⟩⟩⟩⟩
  · exact sound_pass (fun a b hab => congrArg jsTrim (of_decide_eq_true hab)) h
  · refine sound_pass (fun a b hab => ?_) h
    rw [jsTrim_eq, jsTrim_eq, of_decide_eq_true hab]
  · exact sound_pass (fun a b hab => of_decide_eq_true hab) h
  · exact sound_of_not_plain (by rw [strategy_of_pass h]; rfl)
  · exact sound_of_not_plain (by rw [strategy_of_pass h]; rfl)
  · split at h
    · rcases Option.or_eq_some_iff.1 h with h | ⟨-, h⟩
      · exact sound_of_not_plain (by rw [strategy_of_pass h]; rfl)
      · exact sound_of_not_plain (by rw [strategy_of_pass h]; rfl)
    · cases h

theorem sound_characterSequence (start : Nat) (bestScore : A.F) :
    Sound lines pattern (characterSequence A nfc lines pattern start bestScore) := by
  rw [characterSequence]
  split
  · exact sound_of_not_plain rfl
  · exact sound_noSequenceMatch _ _

theorem isPlain_dominant (dominant : Bool) :
    isPlain (some (if dominant then .fuzzyDominant else .fuzzy)) = false := by
  cases dominant <;> rfl

theorem sound_scoreSequence (start : Nat) (eof : Bool) :
    Sound lines pattern (scoreSequence A nfc lines pattern start eof) := by
  rw [scoreSequence]
  simp only
  split
  · exact sound_of_not_plain (isPlain_dominant _)
  · exact sound_characterSequence _ _

theorem sound_seekSequence (start : Nat) (eof allowFuzzy : Bool) :
    Sound lines pattern (seekSequence A nfc lines pattern start eof allowFuzzy) := by
  rw [seekSequence]
  split
  · next hnil =>
    rw [List.isEmpty_iff.1 hnil]
    exact ⟨fun _ _ _ => trimEqualAt_nil _ _, fun _ => rfl⟩
  · split
    · exact sound_noSequenceMatch _ _
    · simp only
      split
      · next h => exact sound_runSequencePasses h
      · split
        · next h => exact sound_runSequencePasses (Option.ite_none_right_eq_some.1 h).2
        · split
          · exact sound_scoreSequence _ _
          · exact sound_noSequenceMatch _ _

theorem sound_findSequenceWithHint (current : Nat) (hint : Option Nat) (eof allowFuzzy : Bool) :
    Sound lines pattern (findSequenceWithHint A nfc lines pattern current hint eof allowFuzzy) := by
  have hinted {hit : SequenceSearchResult A.F → Bool} {r : SequenceSearchResult A.F}
      (h : ((hint.filter (· ≠ current)).map fun start =>
        seekSequence A nfc lines pattern start eof allowFuzzy).filter hit = some r) :
      Sound lines pattern r := by
    obtain ⟨start, -, rfl⟩ := Option.map_eq_some_iff.1 (Option.filter_eq_some_iff.1 h).1
    exact sound_seekSequence _ _ _
  rw [findSequenceWithHint]
  split
  · next h =>
    split at h
    · exact hinted h
    · cases h
  · split
    · exact sound_seekSequence _ _ _
    · split
      · next h => exact hinted h
      · split
        · exact sound_seekSequence _ _ _
        · exact sound_seekSequence _ _ _

end

/-! ## The search for a hunk -/

theorem findContextRelative_eq_some {lines : List (List Char)} {line : List Char} {context index : Nat}
    {preferSecond : Bool} (h : findContextRelative lines line context preferSecond = some index) :
    TrimEqualAt lines [line] index := by
  rw [findContextRelative] at h
  split at h
  · have hequal := List.find?_some h
    exact trimEqualAt_singleton (of_decide_eq_true hequal)
  · next first rest hforward =>
    have hall : ∀ other ∈ first :: rest, jsTrim (lines.getD other []) = jsTrim line := by
      rw [← hforward]
      exact fun other hother => of_decide_eq_true (List.mem_filter.1 hother).2
    rw [Option.some_inj] at h
    refine trimEqualAt_singleton (hall index ?_)
    split at h
    · cases hrest : rest.head? with
      | none =>
        rw [← h, hrest]
        exact List.mem_cons_self
      | some second =>
        rw [← h, hrest]
        exact List.mem_cons_of_mem _ (List.mem_of_head? hrest)
    · exact h ▸ List.mem_cons_self

section

variable {A : Arith} {nfc : List Char → List Char} {lines : List (List Char)} {hunk : DiffHunk}

def Search.Sound (lines : List (List Char)) (s : Search A) : Prop :=
  Edit.Sound lines s.pattern s.result

theorem sound_searchLines (variants : List HunkVariant) (lineIndex : Nat) (matchHint : Option Nat)
    (allowFuzzy : Bool) :
    (searchLines (A := A) nfc lines hunk variants lineIndex matchHint allowFuzzy).Sound lines := by
  have hfind (pattern newLines : List (List Char)) :
      Search.Sound (A := A) lines ⟨pattern, newLines,
        findSequenceWithHint A nfc lines pattern lineIndex matchHint hunk.isEndOfFile allowFuzzy⟩ :=
    sound_findSequenceWithHint _ _ _ _
  have hsound : (searchHunk (A := A) hunk fun pattern => findSequenceWithHint A nfc lines pattern
      lineIndex matchHint hunk.isEndOfFile allowFuzzy).Sound lines := by
    rw [searchHunk]
    split
    · exact hfind _ _
    · exact hfind _ _
  rw [searchLines]
  simp only
  split
  · cases hvariant : variants.findSome? _ with
    | none => exact hsound
    | some s =>
      obtain ⟨variant, -, hs⟩ := List.exists_of_findSome?_eq_some hvariant
      split at hs
      · cases hs
        exact hfind _ _
      · cases hs
  · exact hsound

/-- Another index on an equal line. -/
theorem Search.Sound.move {s : Search A} (h : s.Sound lines) {line : List (List Char)} {index : Nat}
    {confidence : A.F} (hindex : TrimEqualAt lines line index) (new : List (List Char)) :
    Search.Sound lines
      ⟨line, new, { s.result with index := some index, confidence := confidence }⟩ where
  equal _ other hother := by
    cases hother
    exact hindex
  indices := h.indices

theorem Search.Sound.searchAround {s : Search A} (h : s.Sound lines) (variants : List HunkVariant)
    (contextIndex : Option Nat) :
    (Edit.searchAround lines hunk variants contextIndex s).Sound lines := by
  unfold Edit.searchAround
  split
  · exact h
  · next context =>
    split
    · exact h
    · cases hvariant : variants.findSome? _ with
      | none => exact h
      | some found =>
        obtain ⟨variant, -, hfound⟩ := List.exists_of_findSome?_eq_some hvariant
        split at hfound
        · obtain ⟨index, hindex, rfl⟩ := Option.map_eq_some_iff.1 hfound
          exact h.move (findContextRelative_eq_some hindex) _
        · cases hfound

theorem Search.Sound.chooseDuplicate {s : Search A} (h : s.Sound lines) (contextIndex : Option Nat) :
    (Edit.chooseDuplicate lines hunk contextIndex s).Sound lines := by
  unfold Edit.chooseDuplicate
  split
  · next context line hpattern =>
    split
    · split
      · next index hindex =>
        rw [Search.Sound, hpattern]
        exact h.move (findContextRelative_eq_some hindex) s.newLines
      · exact h
    · exact h
  · exact h

theorem Search.Sound.chooseHinted {s : Search A} (h : s.Sound lines) (hint : Option Nat) :
    (Edit.chooseHinted hint s).Sound lines := by
  cases hplain : isPlain s.result.strategy with
  | true =>
    -- A plain result has recorded no other place.
    have hnone := h.indices hplain
    unfold Edit.chooseHinted
    split
    · exact h
    · rw [hnone]
      split
      · exact h
      · exact h
  | false =>
    refine sound_of_not_plain ?_
    unfold Edit.chooseHinted
    split
    · exact hplain
    · split
      · split
        · exact hplain
        · exact hplain
      · exact hplain

/-! ## The placements of a patch -/

/-- A placement by a plain strategy stands on equal lines; one by a part of the line has passed the
guard. -/
structure Placement.Sound (lines : List (List Char)) (p : Placement) : Prop where
  equal : isPlain p.strategy = true → TrimEqualAt lines p.pattern p.start
  guarded : p.strategy = some .linePrefix ∨ p.strategy = some .substring →
    assertPartialMatch p.pattern (p.matched lines) p.newLines p.start = .ok ()

theorem sound_placeSearch {allowFuzzy : Bool} {s : Search A} {step : Step A.F} (h : s.Sound lines)
    (hstep : placeSearch nfc lines hunk allowFuzzy s = .ok step) :
    ∀ p ∈ step.placement, p.Sound lines := by
  rw [placeSearch] at hstep
  split at hstep
  · split at hstep <;> cases hstep
  · next found hfound =>
    have hequal (hplain : isPlain s.result.strategy = true) : TrimEqualAt lines s.pattern found :=
      h.equal hplain found hfound
    simp only at hstep
    split at hstep
    · cases hstep
    · split at hstep
      · cases hstep
        rintro p ⟨⟩
      · split at hstep
        · cases hguard : assertPartialMatch s.pattern
              (Placement.matched lines ⟨found, s.pattern, s.newLines, s.result.strategy⟩)
              s.newLines found with
          | error e =>
            rw [hguard] at hstep
            cases hstep
          | ok =>
            rw [hguard] at hstep
            cases hstep
            rintro p ⟨⟩
            exact ⟨hequal, fun _ => hguard⟩
        · next hno =>
          cases hstep
          rintro p ⟨⟩
          exact ⟨hequal, fun hyes => absurd hyes hno⟩

theorem sound_placeHunk {lineIndex : Nat} {allowFuzzy : Bool} {step : Step A.F}
    (h : placeHunk nfc lines hunk lineIndex allowFuzzy = .ok step) :
    ∀ p ∈ step.placement, p.Sound lines := by
  rw [placeHunk] at h
  split at h
  · cases h
  · obtain ⟨⟨lineIndex, contextIndex⟩, -, h⟩ := Except.bind_eq_ok.1 h
    simp only at h
    split at h
    · obtain ⟨insertion, -, h⟩ := Except.bind_eq_ok.1 h
      cases h
      rintro p ⟨⟩
      exact ⟨fun _ => trimEqualAt_nil _ _, fun hstrategy => by rcases hstrategy with h | h <;> cases h⟩
    · exact sound_placeSearch (((sound_searchLines ..).searchAround ..).chooseDuplicate _
        |>.chooseHinted _) h

theorem sound_placeHunks {hunks : List DiffHunk} {lineIndex : Nat} {allowFuzzy : Bool}
    {placements : List Placement} {warnings : List (Warning A.F)}
    (h : placeHunks nfc lines allowFuzzy lineIndex hunks = .ok (placements, warnings)) :
    ∀ p ∈ placements, p.Sound lines := by
  induction hunks generalizing lineIndex placements warnings with
  | nil =>
    cases h
    exact fun p hp => absurd hp List.not_mem_nil
  | cons hunk hunks ih =>
    obtain ⟨step, hstep, h⟩ := Except.bind_eq_ok.1 h
    obtain ⟨⟨placements', warnings'⟩, hrest, h⟩ := Except.bind_eq_ok.1 h
    cases h
    intro p hp
    rcases List.mem_append.1 hp with hp | hp
    · exact sound_placeHunk hstep p (Option.mem_toList.1 hp)
    · exact ih hrest p hp

end

end OhMyPi.Edit
