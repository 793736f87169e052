import OhMyPi.Edit.Changes

/-! Matching with similarity disabled (`find_match` in `edit/src/fuzzy.rs`): what is found is the old
text or one window of lines that agrees with it after each line was trimmed and its typographic
characters folded. It is the old text up to folding exactly when trimming removed the same from each of
its lines. -/

namespace OhMyPi.Edit

open Text

/-! ## Edges -/

section

variable {α : Type*} {p : α → Bool}

theorem takeWhile_between {l m r : List α} (hl : ∀ a ∈ l, p a = true) (hm : ∃ a ∈ m, p a = false) :
    (l ++ m ++ r).takeWhile p = l ++ m.takeWhile p := by
  rw [List.append_assoc, List.takeWhile_append_of_pos hl, List.takeWhile_append, if_neg]
  intro hlength
  obtain ⟨a, ha, hpa⟩ := hm
  have hall := List.takeWhile_eq_self_iff.1 ((List.takeWhile_prefix p).eq_of_length hlength) a ha
  rw [hpa] at hall
  cases hall

theorem rtakeWhile_eq_reverse (l : List α) : l.rtakeWhile p = (l.reverse.takeWhile p).reverse := rfl

/-- Texts with a common middle are equal when they have the same edges. -/
theorem eq_iff_edges {l l' m r r' : List α} (hl : ∀ a ∈ l, p a = true) (hl' : ∀ a ∈ l', p a = true)
    (hr : ∀ a ∈ r, p a = true) (hr' : ∀ a ∈ r', p a = true) :
    l ++ m ++ r = l' ++ m ++ r' ↔
      (l ++ m ++ r).takeWhile p = (l' ++ m ++ r').takeWhile p ∧
        (l ++ m ++ r).rtakeWhile p = (l' ++ m ++ r').rtakeWhile p := by
  refine ⟨fun h => by rw [h]; exact ⟨rfl, rfl⟩, fun ⟨hfront, hback⟩ => ?_⟩
  by_cases hm : ∃ a ∈ m, p a = false
  · rw [takeWhile_between hl hm, takeWhile_between hl' hm] at hfront
    have hreverse : ∀ l r : List α, (l ++ m ++ r).reverse = r.reverse ++ m.reverse ++ l.reverse := by
      simp
    have hm' : ∃ a ∈ m.reverse, p a = false := by simpa using hm
    rw [rtakeWhile_eq_reverse, rtakeWhile_eq_reverse, hreverse, hreverse,
      takeWhile_between (by simpa using hr) hm', takeWhile_between (by simpa using hr') hm'] at hback
    have hback := List.append_cancel_right (List.reverse_inj.1 hback)
    rw [List.append_cancel_right hfront, List.reverse_inj.1 hback]
  · -- All of it is edge.
    have hm : ∀ a ∈ m, p a = true := fun a ha => by
      by_contra hpa
      exact hm ⟨a, ha, Bool.eq_false_iff.2 hpa⟩
    have hwhole : ∀ l r : List α, (∀ a ∈ l, p a = true) → (∀ a ∈ r, p a = true) →
        (l ++ m ++ r).takeWhile p = l ++ m ++ r := by
      intro l r hl hr
      refine List.takeWhile_eq_self_iff.2 fun a ha => ?_
      rcases List.mem_append.1 ha with ha | ha
      · rcases List.mem_append.1 ha with ha | ha
        · exact hl a ha
        · exact hm a ha
      · exact hr a ha
    rwa [hwhole l r hl hr, hwhole l' r' hl' hr'] at hfront

end

/-! ## Folding -/

/-- What the canonical composition of Unicode does: ASCII is composed already, white space composes
with nothing on either side and becomes white space, and no line end appears. -/
structure Composition (nfc : List Char → List Char) : Prop where
  ascii : ∀ text, (∀ c ∈ text, c.toNat < 128) → nfc text = text
  white : ∀ c, isJsWhitespace c = true → ∀ a b, nfc (a ++ c :: b) = nfc a ++ nfc [c] ++ nfc b
  white_mem : ∀ c, isJsWhitespace c = true → ∀ d ∈ nfc [c], isJsWhitespace d = true
  newline : ∀ text, '\n' ∉ text → '\n' ∉ nfc text

def foldCharacter (c : Char) : List Char := (replaceUnicodeCharacter c).getD [c]

/-- The text with its typographic characters folded, and nothing trimmed. -/
def foldUnicode (nfc : List Char → List Char) (text : List Char) : List Char :=
  nfc (text.flatMap foldCharacter)

theorem foldCharacter_ascii {c : Char} (h : c.toNat < 128) : foldCharacter c = [c] := by
  rw [foldCharacter, replaceUnicodeCharacter]
  repeat rw [if_neg (by omega)]
  rfl

theorem foldCharacter_white {c : Char} (h : isJsWhitespace c = true) :
    ∀ d ∈ foldCharacter c, isJsWhitespace d = true := by
  rw [foldCharacter, replaceUnicodeCharacter]
  simp only [isJsWhitespace, Bool.or_eq_true, decide_eq_true_eq] at h
  rw [if_neg (by omega), if_neg (by omega), if_neg (by omega)]
  split
  · intro d hd
    cases List.mem_singleton.1 hd
    rfl
  · rw [if_neg (by omega), if_neg (by omega)]
    split
    · exact fun d hd => absurd hd List.not_mem_nil
    · intro d hd
      cases List.mem_singleton.1 hd
      simp only [isJsWhitespace, Bool.or_eq_true, decide_eq_true_eq]
      exact h

theorem foldCharacter_mark {c : Char} (h : isInvisibleMark c = true) : foldCharacter c = [] := by
  rw [foldCharacter, replaceUnicodeCharacter]
  simp only [isInvisibleMark, Bool.or_eq_true, decide_eq_true_eq] at h
  rw [if_neg (by omega), if_neg (by omega), if_neg (by omega), if_neg (by omega), if_neg (by omega),
    if_neg (by omega), if_pos (by omega)]
  rfl

theorem newline_not_mem_foldCharacter {c : Char} (h : c ≠ '\n') : '\n' ∉ foldCharacter c := by
  rw [foldCharacter, replaceUnicodeCharacter]
  repeat' split
  all_goals simp [h.symm]

theorem flatMap_foldCharacter_marks {marks : List Char} (h : ∀ c ∈ marks, isInvisibleMark c = true) :
    marks.flatMap foldCharacter = [] := by
  rw [List.flatMap_eq_nil_iff]
  exact fun c hc => foldCharacter_mark (h c hc)

/-- The marks at the ends of a match fold away. -/
theorem foldUnicode_stripped (nfc : List Char → List Char) (text : List Char) :
    foldUnicode nfc ((text.dropWhile isInvisibleMark).rdropWhile isInvisibleMark) =
      foldUnicode nfc text := by
  have htext : text = text.takeWhile isInvisibleMark ++
      ((text.dropWhile isInvisibleMark).rdropWhile isInvisibleMark ++
        (text.dropWhile isInvisibleMark).rtakeWhile isInvisibleMark) := by
    rw [List.rdropWhile_append_rtakeWhile, List.takeWhile_append_dropWhile]
  have hfold : text.flatMap foldCharacter =
      ((text.dropWhile isInvisibleMark).rdropWhile isInvisibleMark).flatMap foldCharacter := by
    conv_lhs => rw [htext]
    rw [List.flatMap_append, List.flatMap_append,
      flatMap_foldCharacter_marks fun c hc => List.mem_takeWhile_imp hc,
      flatMap_foldCharacter_marks fun c hc => List.mem_rtakeWhile_imp hc, List.append_nil,
      List.nil_append]
  rw [foldUnicode, foldUnicode, hfold]

section

variable {nfc : List Char → List Char} (hnfc : Composition nfc)

include hnfc

theorem Composition.nil : nfc [] = [] := hnfc.ascii [] (by simp)

/-- White space splits off in front. -/
theorem Composition.front {w : List Char} (hw : ∀ c ∈ w, isJsWhitespace c = true) (text : List Char) :
    nfc (w ++ text) = nfc w ++ nfc text := by
  induction w with
  | nil => rw [hnfc.nil, List.nil_append, List.nil_append]
  | cons c w ih =>
    obtain ⟨hc, hw⟩ := List.forall_mem_cons.1 hw
    have hone := hnfc.white c hc []
    simp only [List.nil_append, hnfc.nil] at hone
    rw [List.cons_append, hone, hone w, ih hw, List.append_assoc]

/-- White space splits off behind. -/
theorem Composition.back {w : List Char} (hw : ∀ c ∈ w, isJsWhitespace c = true) (text : List Char) :
    nfc (text ++ w) = nfc text ++ nfc w := by
  cases w with
  | nil => rw [hnfc.nil, List.append_nil, List.append_nil]
  | cons c w =>
    obtain ⟨hc, hw⟩ := List.forall_mem_cons.1 hw
    have hone := hnfc.white c hc [] w
    simp only [List.nil_append, hnfc.nil] at hone
    rw [hnfc.white c hc, hone, List.append_assoc]

theorem Composition.forall_white {w : List Char} (hw : ∀ c ∈ w, isJsWhitespace c = true) :
    ∀ d ∈ nfc w, isJsWhitespace d = true := by
  induction w with
  | nil =>
    rw [hnfc.nil]
    exact fun d hd => absurd hd List.not_mem_nil
  | cons c w ih =>
    obtain ⟨hc, hw⟩ := List.forall_mem_cons.1 hw
    have hsplit := hnfc.front (w := [c]) (by simpa using hc) w
    rw [List.cons_append, List.nil_append] at hsplit
    rw [hsplit]
    intro d hd
    rcases List.mem_append.1 hd with hd | hd
    · exact hnfc.white_mem c hc d hd
    · exact ih hw d hd

theorem normalizeUnicode_eq (line : List Char) :
    normalizeUnicode nfc line = foldUnicode nfc (jsTrim line) := by
  rw [normalizeUnicode]
  split
  · next hascii =>
    have hascii : ∀ c ∈ jsTrim line, c.toNat < 128 := by simpa using hascii
    have hfold : (jsTrim line).flatMap foldCharacter = jsTrim line := by
      rw [List.flatMap_congr fun c hc => foldCharacter_ascii (hascii c hc), List.flatMap_singleton']
    rw [foldUnicode, hfold, hnfc.ascii _ hascii]
  · rfl

/-- A folded line: what was trimmed, around what was compared. -/
theorem foldUnicode_line (line : List Char) :
    ∃ lead trail, foldUnicode nfc line = lead ++ normalizeUnicode nfc line ++ trail ∧
      (∀ c ∈ lead, isJsWhitespace c = true) ∧ ∀ c ∈ trail, isJsWhitespace c = true := by
  have hline : line = line.takeWhile isJsWhitespace ++
      (jsTrim line ++ (line.dropWhile isJsWhitespace).rtakeWhile isJsWhitespace) := by
    rw [jsTrim, jsTrimEnd, jsTrimStart, List.rdropWhile_append_rtakeWhile,
      List.takeWhile_append_dropWhile]
  have hwhite : ∀ w : List Char, (∀ c ∈ w, isJsWhitespace c = true) →
      ∀ c ∈ w.flatMap foldCharacter, isJsWhitespace c = true := by
    intro w hw d hd
    obtain ⟨c, hc, hd⟩ := List.mem_flatMap.1 hd
    exact foldCharacter_white (hw c hc) d hd
  have hlead := hwhite (line.takeWhile isJsWhitespace) fun c hc => List.mem_takeWhile_imp hc
  have htrail := hwhite ((line.dropWhile isJsWhitespace).rtakeWhile isJsWhitespace)
    fun c hc => List.mem_rtakeWhile_imp hc
  refine ⟨_, _, ?_, hnfc.forall_white hlead, hnfc.forall_white htrail⟩
  rw [normalizeUnicode_eq hnfc, foldUnicode, foldUnicode]
  conv_lhs => rw [hline]
  rw [List.flatMap_append, List.flatMap_append, hnfc.front hlead, hnfc.back htrail, List.append_assoc]

/-- The line has the white space of the other one at its ends. -/
def SameEdges (nfc : List Char → List Char) (line other : List Char) : Prop :=
  (foldUnicode nfc line).takeWhile isJsWhitespace = (foldUnicode nfc other).takeWhile isJsWhitespace ∧
    (foldUnicode nfc line).rtakeWhile isJsWhitespace =
      (foldUnicode nfc other).rtakeWhile isJsWhitespace

/-- Lines that compare as equal are so up to folding exactly when they have the same edges. -/
theorem foldUnicode_line_iff {line other : List Char}
    (h : normalizeUnicode nfc line = normalizeUnicode nfc other) :
    foldUnicode nfc line = foldUnicode nfc other ↔ SameEdges nfc line other := by
  obtain ⟨lead, trail, hline, hlead, htrail⟩ := foldUnicode_line hnfc line
  obtain ⟨lead', trail', hother, hlead', htrail'⟩ := foldUnicode_line hnfc other
  rw [SameEdges, hline, hother, h]
  exact eq_iff_edges hlead hlead' htrail htrail'

end

/-! ## The only window -/

section

variable {A : Arith} {nfc : List Char → List Char}

/-- The window agrees with the old lines and may be searched. -/
def candidate (nfc : List Char → List Char) (lines target : List (List Char))
    (excluded : List ExcludedRange) (start : Nat) : Bool :=
  unicodeWindow nfc lines target start && windowFree lines target.length excluded start

theorem unicodeScan_some {lines target : List (List Char)} {excluded : List ExcludedRange}
    {starts : List Nat} {m : FuzzyMatch A.F} :
    unicodeScan A nfc lines target excluded starts (some m) =
      if starts.filter (candidate nfc lines target excluded) = [] then some m else none := by
  induction starts with
  | nil => rfl
  | cons start starts ih =>
    rw [unicodeScan, List.filter_cons, candidate]
    split
    · rw [if_pos Option.isSome_some, if_neg (List.cons_ne_nil _ _)]
    · exact ih

theorem unicodeScan_none {lines target : List (List Char)} {excluded : List ExcludedRange}
    {starts : List Nat} {m : FuzzyMatch A.F} :
    unicodeScan A nfc lines target excluded starts none = some m ↔
      ∃ i, starts.filter (candidate nfc lines target excluded) = [i] ∧
        m = unicodeMatchAt A lines target i := by
  induction starts with
  | nil => simp [unicodeScan]
  | cons start starts ih =>
    rw [unicodeScan, List.filter_cons, candidate]
    split
    · simp only [Option.isSome_none, Bool.false_eq_true, if_false, unicodeScan_some, List.cons.injEq]
      constructor
      · intro h
        split at h
        · next hnil =>
          cases h
          exact ⟨start, ⟨rfl, hnil⟩, rfl⟩
        · cases h
      · rintro ⟨i, ⟨rfl, hnil⟩, rfl⟩
        exact if_pos hnil
    · exact ih

/-- The old text stands somewhere in the content that may be searched. -/
def Occurs (content target : List Char) (excluded : List ExcludedRange) : Prop :=
  ∃ index ∈ matchIndices target 0 0 content,
    overlapsExcluded index (index + byteLen target) excluded = false

/-- The window is the only one to agree with the old lines. -/
def OnlyWindow (nfc : List Char → List Char) (lines target : List (List Char))
    (excluded : List ExcludedRange) (start : Nat) : Prop :=
  target.length ≤ lines.length ∧
    (windowStarts lines target.length).filter (candidate nfc lines target excluded) = [start]

theorem findUnicodeMatch_eq_some {content target : List Char} {excluded : List ExcludedRange}
    {outcome : MatchOutcome A.F} : findUnicodeMatch A nfc content target excluded = some outcome ↔
      ∃ i, OnlyWindow nfc (splitLines content) (splitLines target) excluded i ∧
        outcome = { matched := some (unicodeMatchAt A (splitLines content) (splitLines target) i)
                    closest := some (unicodeMatchAt A (splitLines content) (splitLines target) i) } := by
  rw [findUnicodeMatch]
  simp only [OnlyWindow]
  split
  · next hlong =>
    simp only [reduceCtorEq, false_iff, not_exists, not_and]
    exact fun i h => absurd h.1 (Nat.not_le.2 hlong)
  · next hlong =>
    simp only [Option.map_eq_some_iff, unicodeScan_none]
    constructor
    · rintro ⟨m, ⟨i, hi, rfl⟩, rfl⟩
      exact ⟨i, ⟨Nat.not_lt.1 hlong, hi⟩, rfl⟩
    · rintro ⟨i, ⟨-, hi⟩, rfl⟩
      exact ⟨_, ⟨i, hi, rfl⟩, rfl⟩

theorem findExactMatchOutcome_eq_none_iff {content target : List Char} {excluded : List ExcludedRange} :
    findExactMatchOutcome A content target excluded = none ↔ ¬Occurs content target excluded := by
  have hnil : ((matchIndices target 0 0 content).filter fun index =>
      !overlapsExcluded index (index + byteLen target) excluded) = [] ↔
        ¬Occurs content target excluded := by
    simp [Occurs, List.filter_eq_nil_iff]
  rw [← hnil, findExactMatchOutcome]
  split
  · next heq => exact iff_of_true rfl heq
  · next heq => simp [heq]
  · next heq => simp [heq]

theorem findExactMatchOutcome_matched {content target : List Char} {excluded : List ExcludedRange}
    {outcome : MatchOutcome A.F} {m : FuzzyMatch A.F}
    (h : findExactMatchOutcome A content target excluded = some outcome) (hm : outcome.matched = some m) :
    m.actualText = target ∧
      ∃ front back, content = front ++ m.actualText ++ back ∧ byteLen front = m.startIndex := by
  rw [findExactMatchOutcome] at h
  split at h
  · cases h
  · next index heq =>
    cases h
    cases hm
    have hindex : index ∈ matchIndices target 0 0 content := by
      have hmem : index ∈ (matchIndices target 0 0 content).filter fun index =>
          !overlapsExcluded index (index + byteLen target) excluded := by
        rw [heq]
        exact List.mem_cons_self
      exact List.mem_of_mem_filter hmem
    obtain ⟨front, back, hcontent, hlen⟩ := mem_matchIndices hindex
    exact ⟨rfl, front, back, hcontent, by rw [hlen, Nat.zero_add]⟩
  · cases h
    cases hm

/-- What is found with similarity disabled, where the old text does not occur. -/
theorem findMatch_eq_some {content target : List Char} {threshold : A.F}
    {excluded : List ExcludedRange} {m : FuzzyMatch A.F} (hne : target ≠ [])
    (hno : ¬Occurs content target excluded) :
    (findMatch A nfc content target false threshold excluded).matched = some m ↔
      ∃ i, OnlyWindow nfc (splitLines content) (splitLines target) excluded i ∧
        m = unicodeMatchAt A (splitLines content) (splitLines target) i := by
  rw [findMatch, if_neg (by simpa using hne), findExactMatchOutcome_eq_none_iff.2 hno]
  simp only
  cases hunicode : findUnicodeMatch A nfc content target excluded with
  | some outcome =>
    obtain ⟨i, honly, rfl⟩ := findUnicodeMatch_eq_some.1 hunicode
    simp only [Option.some.injEq]
    constructor
    · rintro rfl
      exact ⟨i, honly, rfl⟩
    · rintro ⟨j, honly', rfl⟩
      cases honly.2.symm.trans honly'.2
      rfl
  | none =>
    refine iff_of_false ?_ ?_
    · simp only [Bool.false_and, Bool.false_eq_true, if_false]
      split <;> simp
    · rintro ⟨i, honly, -⟩
      rw [findUnicodeMatch_eq_some.2 ⟨i, honly, rfl⟩] at hunicode
      cases hunicode

end

/-! ## Texts up to folding -/

section

variable {nfc : List Char → List Char} (hnfc : Composition nfc)

include hnfc

theorem foldUnicode_joinLines {lines : List (List Char)} (hne : lines ≠ []) :
    foldUnicode nfc (joinLines lines) = joinLines (lines.map (foldUnicode nfc)) := by
  induction lines with
  | nil => exact absurd rfl hne
  | cons line lines ih =>
    by_cases hlines : lines = []
    · subst hlines
      rw [joinLines, joinLines, List.intercalate_singleton, List.map_singleton,
        List.intercalate_singleton]
    · have hnewline : nfc ['\n'] = ['\n'] := hnfc.ascii _ (by simp)
      rw [joinLines_cons line hlines, List.map_cons, joinLines_cons _ (by simpa using hlines), ← ih hlines,
        foldUnicode, List.flatMap_append, List.flatMap_cons]
      rw [show foldCharacter '\n' = ['\n'] from rfl, List.singleton_append, hnfc.white '\n' rfl, hnewline]
      rw [foldUnicode, foldUnicode, List.append_assoc, List.singleton_append]

theorem newline_not_mem_foldUnicode {line : List Char} (h : '\n' ∉ line) :
    '\n' ∉ foldUnicode nfc line := by
  refine hnfc.newline _ fun hmem => ?_
  obtain ⟨c, hc, hmem⟩ := List.mem_flatMap.1 hmem
  exact newline_not_mem_foldCharacter (fun heq => h (heq ▸ hc)) hmem

/-- Texts are equal up to folding when their lines are. -/
theorem foldUnicode_joinLines_iff {lines lines' : List (List Char)} (hne : lines ≠ [])
    (hne' : lines' ≠ []) (h : ∀ line ∈ lines, '\n' ∉ line) (h' : ∀ line ∈ lines', '\n' ∉ line) :
    foldUnicode nfc (joinLines lines) = foldUnicode nfc (joinLines lines') ↔
      lines.map (foldUnicode nfc) = lines'.map (foldUnicode nfc) := by
  have hsplit : ∀ lines : List (List Char), lines ≠ [] → (∀ line ∈ lines, '\n' ∉ line) →
      splitLines (foldUnicode nfc (joinLines lines)) = lines.map (foldUnicode nfc) := by
    intro lines hne h
    rw [foldUnicode_joinLines hnfc hne, splitLines_joinLines _ (by simpa using hne)]
    intro folded hfolded
    obtain ⟨line, hline, rfl⟩ := List.mem_map.1 hfolded
    exact newline_not_mem_foldUnicode hnfc (h line hline)
  constructor
  · intro heq
    rw [← hsplit lines hne h, ← hsplit lines' hne' h', heq]
  · intro heq
    rw [foldUnicode_joinLines hnfc hne, foldUnicode_joinLines hnfc hne', heq]

theorem foldUnicode_lines_iff {lines lines' : List (List Char)}
    (h : lines.map (normalizeUnicode nfc) = lines'.map (normalizeUnicode nfc)) :
    lines.map (foldUnicode nfc) = lines'.map (foldUnicode nfc) ↔
      List.Forall₂ (SameEdges nfc) lines lines' := by
  induction lines generalizing lines' with
  | nil =>
    cases lines' with
    | nil => simp
    | cons line' lines' => cases h
  | cons line lines ih =>
    cases lines' with
    | nil => cases h
    | cons line' lines' =>
      rw [List.map_cons, List.map_cons, List.cons.injEq] at h
      rw [List.map_cons, List.map_cons, List.cons.injEq, List.forall₂_cons, ih h.2,
        foldUnicode_line_iff hnfc h.1]

end

section

variable {A : Arith} {nfc : List Char → List Char}

/-- The match stands where it says, and is the old text up to folding. -/
structure Exact (nfc : List Char → List Char) (content target : List Char) (m : FuzzyMatch A.F) :
    Prop where
  stands : ∃ front back, content = front ++ m.actualText ++ back ∧ byteLen front = m.startIndex
  same : foldUnicode nfc m.actualText = foldUnicode nfc target

theorem OnlyWindow.spec {lines target : List (List Char)} {excluded : List ExcludedRange} {i : Nat}
    (h : OnlyWindow nfc lines target excluded i) : i + target.length ≤ lines.length ∧
      unicodeWindow nfc lines target i = true ∧ windowFree lines target.length excluded i = true := by
  have hmem : i ∈ (windowStarts lines target.length).filter (candidate nfc lines target excluded) := by
    rw [h.2]
    exact List.mem_cons_self
  obtain ⟨hstart, hcandidate⟩ := List.mem_filter.1 hmem
  exact ⟨(mem_windowStarts h.1).1 hstart, Bool.and_eq_true_iff.1 hcandidate⟩

/-- The match at the only window. -/
theorem exact_unicodeMatchAt (hnfc : Composition nfc) {content target : List Char}
    {excluded : List ExcludedRange} {i : Nat}
    (h : OnlyWindow nfc (splitLines content) (splitLines target) excluded i) :
    Exact nfc content target (unicodeMatchAt A (splitLines content) (splitLines target) i) ↔
      List.Forall₂ (SameEdges nfc)
        (windowLines (splitLines content) (splitLines target).length i) (splitLines target) := by
  obtain ⟨hi, hwindow, hfree⟩ := h.spec
  have hpos : 0 < (splitLines target).length := List.length_pos_of_ne_nil (splitLines_ne_nil _)
  have hstands := split_of_hit hpos (hit_unicodeMatchAt (A := A) hi hfree)
  have hwindow : (windowLines (splitLines content) (splitLines target).length i).map
      (normalizeUnicode nfc) = (splitLines target).map (normalizeUnicode nfc) := of_decide_eq_true hwindow
  have hne : windowLines (splitLines content) (splitLines target).length i ≠ [] := by
    intro hnil
    rw [hnil] at hwindow
    exact splitLines_ne_nil target (List.map_eq_nil_iff.1 hwindow.symm)
  have hlines : ∀ line ∈ windowLines (splitLines content) (splitLines target).length i, '\n' ∉ line :=
    fun line hline => not_newline_mem_splitLines _ _ (List.mem_of_mem_drop (List.mem_of_mem_take hline))
  have htarget : foldUnicode nfc target = foldUnicode nfc (joinLines (splitLines target)) := by
    rw [joinLines_splitLines]
  rw [← foldUnicode_lines_iff hnfc hwindow, ← foldUnicode_joinLines_iff hnfc hne
    (splitLines_ne_nil _) hlines (not_newline_mem_splitLines _), ← htarget,
    ← foldUnicode_stripped nfc (joinLines _)]
  exact ⟨Exact.same, fun hsame => ⟨hstands, hsame⟩⟩

/-- With similarity disabled a match is exact, unless the old text does not occur, one window agrees
with it after trimming, and trimming removed something else from one of its lines than from the old
one. -/
theorem findMatch_exact_iff (hnfc : Composition nfc) {content target : List Char} {threshold : A.F}
    {excluded : List ExcludedRange} :
    (∀ m, (findMatch A nfc content target false threshold excluded).matched = some m →
        Exact nfc content target m) ↔
      (target ≠ [] → ¬Occurs content target excluded →
        ∀ i, OnlyWindow nfc (splitLines content) (splitLines target) excluded i →
          List.Forall₂ (SameEdges nfc)
            (windowLines (splitLines content) (splitLines target).length i) (splitLines target)) := by
  by_cases hne : target = []
  · refine iff_of_true (fun m hm => ?_) fun h => absurd hne h
    rw [findMatch, if_pos (List.isEmpty_iff.2 hne)] at hm
    cases hm
  by_cases hoccurs : Occurs content target excluded
  · refine iff_of_true (fun m hm => ?_) fun _ h => absurd hoccurs h
    rw [findMatch, if_neg (by simpa using hne)] at hm
    split at hm
    · next outcome hexact =>
      obtain ⟨htext, hstands⟩ := findExactMatchOutcome_matched hexact hm
      exact ⟨hstands, by rw [htext]⟩
    · next hnone => exact absurd hoccurs (findExactMatchOutcome_eq_none_iff.1 hnone)
  · simp only [findMatch_eq_some hne hoccurs, forall_exists_index, and_imp]
    constructor
    · intro h _ _ i hi
      exact (exact_unicodeMatchAt hnfc hi).1 (h _ i hi rfl)
    · rintro h m i hi rfl
      exact (exact_unicodeMatchAt hnfc hi).2 (h hne hoccurs i hi)

end

/-! ## Composed text -/

/-- ASCII text is composed already. -/
theorem composition_id : Composition id :=
  ⟨fun _ _ => rfl, fun c _ a b => by simp, fun c hc d hd => List.mem_singleton.1 hd ▸ hc, fun _ h => h⟩

/-- A typographic quote in the old text. -/
theorem findMatch_exact_quote : ∃ m,
    (findMatch fractions id "say \"a\"\n".toList "say “a”".toList false (fractions.lit 1) []).matched =
        some m ∧ Exact id "say \"a\"\n".toList "say “a”".toList m := by
  have hmatched : ∃ m, (findMatch fractions id "say \"a\"\n".toList "say “a”".toList false
      (fractions.lit 1) []).matched = some m := ⟨_, rfl⟩
  obtain ⟨m, hm⟩ := hmatched
  refine ⟨m, hm, (findMatch_exact_iff composition_id).2 (fun _ _ i hi => ?_) m hm⟩
  have hzero : (windowStarts (splitLines "say \"a\"\n".toList) 1).filter
      (candidate id (splitLines "say \"a\"\n".toList) (splitLines "say “a”".toList) []) = [0] := by
    decide
  cases hzero.symm.trans hi.2
  refine .cons ?_ .nil
  unfold SameEdges
  decide

/-- Content that is indented in another way than the old text is returned. -/
theorem indentation_ignored : ∃ m,
    (findMatch fractions id "  foo\n".toList "\tfoo".toList false (fractions.lit 1) []).matched =
        some m ∧ m.actualText = "  foo".toList ∧ ¬Exact id "  foo\n".toList "\tfoo".toList m := by
  refine ⟨_, rfl, by decide, fun h => ?_⟩
  have hsame := h.same
  revert hsame
  decide

end OhMyPi.Edit
