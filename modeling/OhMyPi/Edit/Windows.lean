import OhMyPi.Edit.ReplaceText

/-! Where the windows of a search stand in the content, and what a search can return: the text of a
window that no excluded range overlaps, perhaps without the invisible marks at its ends. -/

namespace OhMyPi.Edit

open Text Substitute

/-! ## The place of a window -/

/-- The text before a line. -/
def before (lines : List (List Char)) (i : Nat) : List Char :=
  (lines.take i).flatMap fun line => line ++ ['\n']

theorem before_cons (line : List Char) (lines : List (List Char)) (i : Nat) :
    before (line :: lines) (i + 1) = line ++ '\n' :: before lines i := by
  simp [before]

theorem lineOffsets_getD {lines : List (List Char)} {i : Nat} (h : i < lines.length) (offset : Nat) :
    (lineOffsets offset lines).getD i 0 = offset + byteLen (before lines i) := by
  induction lines generalizing i offset with
  | nil => exact absurd h (Nat.not_lt_zero _)
  | cons line lines ih =>
    cases i with
    | zero => simp [lineOffsets, before]
    | succ i =>
      have hi : i < lines.length := Nat.lt_of_succ_lt_succ h
      have hne : lines.isEmpty = false := by
        cases lines with
        | nil => exact absurd hi (Nat.not_lt_zero _)
        | cons _ _ => rfl
      have hnewline : byteLen (line ++ '\n' :: before lines i) =
          byteLen line + (1 + byteLen (before lines i)) := by
        rw [byteLen_append, byteLen_cons]
        rfl
      rw [lineOffsets, List.getD_cons_succ, hne, ih hi, before_cons, hnewline]
      simp only [Bool.false_eq_true, if_false]
      omega

theorem windowStart_eq {lines : List (List Char)} {i : Nat} (h : i < lines.length) :
    windowStart lines i = byteLen (before lines i) := by
  rw [windowStart, lineOffsets_getD h, Nat.zero_add]

theorem before_append_joinLines {lines : List (List Char)} {i : Nat} (h : i < lines.length) :
    joinLines lines = before lines i ++ joinLines (lines.drop i) := by
  induction lines generalizing i with
  | nil => exact absurd h (Nat.not_lt_zero _)
  | cons line lines ih =>
    cases i with
    | zero => simp [before]
    | succ i =>
      have hi : i < lines.length := Nat.lt_of_succ_lt_succ h
      have hne : lines ≠ [] := List.ne_nil_of_length_pos (Nat.lt_of_le_of_lt (Nat.zero_le _) hi)
      rw [joinLines_cons line hne, before_cons, List.drop_succ_cons, ih hi]
      simp

/-- The text of a window. -/
def windowText (lines : List (List Char)) (count i : Nat) : List Char :=
  joinLines (windowLines lines count i)

/-- Behind a window the content ends, or there is a newline. -/
theorem window_split {lines : List (List Char)} {count i : Nat} (hcount : 0 < count)
    (h : i + count ≤ lines.length) : ∃ rest,
      joinLines lines = before lines i ++ windowText lines count i ++ rest ∧
      (i + count = lines.length ∧ rest = [] ∨ i + count < lines.length ∧
        ∃ rest', rest = '\n' :: rest') := by
  have hsplit := before_append_joinLines (show i < lines.length by omega)
  have htake : windowLines lines count i ≠ [] := by
    rw [windowLines, Ne, List.take_eq_nil_iff, List.drop_eq_nil_iff]
    omega
  rcases Nat.eq_or_lt_of_le h with heq | hlt
  · refine ⟨[], ?_, .inl ⟨heq, rfl⟩⟩
    rw [List.append_nil, windowText, windowLines, List.take_of_length_le (by simp; omega)]
    exact hsplit
  · have hdrop : (lines.drop i).drop count ≠ [] := by
      rw [Ne, List.drop_eq_nil_iff, List.length_drop]
      omega
    refine ⟨'\n' :: joinLines ((lines.drop i).drop count), ?_, .inr ⟨hlt, _, rfl⟩⟩
    rw [hsplit, List.append_assoc, windowText, ← joinLines_append htake hdrop, windowLines,
      List.take_append_drop]

/-- The lines before a line and the line itself. -/
theorem before_succ {lines : List (List Char)} {i : Nat} (h : i < lines.length) :
    before lines (i + 1) = before lines i ++ (lines.getD i [] ++ ['\n']) := by
  rw [before, before, List.take_succ_eq_append_getElem h, List.flatMap_append]
  simp [List.getD_eq_getElem?_getD, List.getElem?_eq_getElem h]

theorem joinLines_concat {lines : List (List Char)} (h : lines ≠ []) (line : List Char) :
    joinLines (lines ++ [line]) = joinLines lines ++ '\n' :: line := by
  rw [joinLines_append h (List.cons_ne_nil _ _)]
  simp [joinLines]

theorem windowText_one {lines : List (List Char)} {i : Nat} (h : i < lines.length) :
    windowText lines 1 i = lines.getD i [] := by
  have hone : windowLines lines 1 i = [lines.getD i []] := by
    rw [windowLines, List.drop_eq_getElem_cons h, List.getD_eq_getElem?_getD,
      List.getElem?_eq_getElem h]
    rfl
  rw [windowText, hone]
  simp [joinLines]

theorem byteLen_windowText {lines : List (List Char)} {i n : Nat} (h : i + n < lines.length) :
    byteLen (before lines i) + byteLen (windowText lines (n + 1) i) =
      byteLen (before lines (i + n)) + byteLen (lines.getD (i + n) []) := by
  induction n with
  | zero =>
    rw [show windowText lines (0 + 1) i = lines.getD i [] from windowText_one h]
    rfl
  | succ n ih =>
    have hlt : i + n < lines.length := by omega
    have hwindow : windowLines lines (n + 2) i =
        windowLines lines (n + 1) i ++ [lines.getD (i + (n + 1)) []] := by
      rw [windowLines, windowLines, List.take_succ_eq_append_getElem (by simp; omega)]
      simp [List.getD_eq_getElem?_getD, List.getElem?_eq_getElem h]
    have hne : windowLines lines (n + 1) i ≠ [] := by
      rw [windowLines, Ne, List.take_eq_nil_iff, List.drop_eq_nil_iff]
      omega
    have hsum := ih hlt
    have hbefore := congrArg byteLen (before_succ hlt)
    rw [windowText, hwindow, joinLines_concat hne, byteLen_append, byteLen_cons]
    rw [byteLen_append, byteLen_append] at hbefore
    rw [windowText] at hsum
    have hnewline : Char.utf8Size '\n' = 1 := rfl
    have hnewline' : byteLen ['\n'] = 1 := rfl
    rw [show i + (n + 1) = i + n + 1 from rfl, hbefore]
    omega

theorem windowEnd_eq {lines : List (List Char)} {count i : Nat} (hcount : 0 < count)
    (h : i + count ≤ lines.length) : windowEnd lines count i =
      max (windowStart lines i + byteLen (windowText lines count i)) (windowStart lines i + 1) := by
  obtain ⟨n, rfl⟩ := Nat.exists_eq_succ_of_ne_zero hcount.ne'
  have hlen := byteLen_windowText (show i + n < lines.length by omega)
  simp only [windowEnd, Nat.succ_eq_add_one, Nat.add_succ_sub_one]
  rw [lineOffsets_getD (by omega), windowStart_eq (by omega), Nat.zero_add, hlen]

theorem mem_windowStarts {lines : List (List Char)} {count i : Nat} (h : count ≤ lines.length) :
    i ∈ windowStarts lines count ↔ i + count ≤ lines.length := by
  rw [windowStarts, List.mem_range]
  omega

theorem splitLines_ne_nil (text : List Char) : splitLines text ≠ [] := List.splitOn_ne_nil _ _

theorem windowFree_eq_true {lines : List (List Char)} {count i : Nat}
    {excluded : List ExcludedRange} : windowFree lines count excluded i = true ↔
      ∀ r ∈ excluded, r.endIndex ≤ windowStart lines i ∨ windowEnd lines count i ≤ r.startIndex := by
  rw [windowFree, Bool.not_eq_true', overlapsExcluded, List.any_eq_false]
  refine forall₂_congr fun r _ => ?_
  rw [Bool.and_eq_true, decide_eq_true_eq, decide_eq_true_eq, not_and_or, Nat.not_lt, Nat.not_lt]

/-- A line stands behind the newline of every line before it. -/
theorem windowStart_lt {lines : List (List Char)} {j i : Nat} (hji : j < i) (h : i < lines.length) :
    windowStart lines j + byteLen (windowText lines 1 j) + 1 ≤ windowStart lines i := by
  rw [windowStart_eq (by omega), windowStart_eq h, windowText_one (by omega)]
  induction hji with
  | refl =>
    rw [before_succ (by omega), byteLen_append, byteLen_append]
    have hnewline : byteLen ['\n'] = 1 := rfl
    omega
  | step hle ih =>
    have hbefore := ih (by omega)
    rw [before_succ (by omega), byteLen_append]
    omega

/-- A window of several lines holds a newline. -/
theorem newline_mem_windowText {lines : List (List Char)} {count i : Nat} (hcount : 2 ≤ count)
    (h : i + count ≤ lines.length) : '\n' ∈ windowText lines count i := by
  obtain ⟨n, rfl⟩ := Nat.exists_eq_add_of_le hcount
  have hlt : i < lines.length := by omega
  rw [windowText, windowLines, List.drop_eq_getElem_cons hlt, Nat.add_comm 2 n,
    List.take_succ_cons, joinLines_cons]
  · simp
  · rw [Ne, List.take_eq_nil_iff, List.drop_eq_nil_iff]
    omega

/-! ## What a search returns -/

section

variable {A : Arith} {nfc : List Char → List Char}

/-- The match is the text of a window that is free, perhaps without the marks at its ends. -/
def Hit (lines : List (List Char)) (count : Nat) (excluded : List ExcludedRange)
    (m : FuzzyMatch A.F) (i : Nat) : Prop :=
  i + count ≤ lines.length ∧ windowFree lines count excluded i = true ∧
    ∃ lead trail, windowText lines count i = lead ++ m.actualText ++ trail ∧
      m.startIndex = windowStart lines i + byteLen lead ∧ '\n' ∉ lead ∧
      (m.actualText = [] → trail = [])

/-- A match stands where it says. -/
theorem split_of_hit {content : List Char} {count : Nat} (hcount : 0 < count)
    {excluded : List ExcludedRange} {m : FuzzyMatch A.F} {i : Nat}
    (h : Hit (splitLines content) count excluded m i) :
    ∃ front back, content = front ++ m.actualText ++ back ∧ byteLen front = m.startIndex := by
  obtain ⟨hi, -, lead, trail, htext, hstart, -⟩ := h
  obtain ⟨rest, hsplit, -⟩ := window_split hcount hi
  rw [joinLines_splitLines] at hsplit
  refine ⟨before (splitLines content) i ++ lead, trail ++ rest, ?_, ?_⟩
  · refine hsplit.trans ?_
    rw [htext]
    simp only [List.append_assoc]
  · rw [byteLen_append, hstart, windowStart_eq (by omega)]

theorem hit_unicodeMatchAt {lines target : List (List Char)} {excluded : List ExcludedRange} {i : Nat}
    (hi : i + target.length ≤ lines.length)
    (hfree : windowFree lines target.length excluded i = true) :
    Hit lines target.length excluded (unicodeMatchAt A lines target i) i := by
  refine ⟨hi, hfree, ?_⟩
  simp only [unicodeMatchAt]
  rw [← windowText]
  generalize windowText lines target.length i = text
  have hlead : text = text.takeWhile isInvisibleMark ++ text.dropWhile isInvisibleMark :=
    List.takeWhile_append_dropWhile.symm
  have htrail : text.dropWhile isInvisibleMark =
      (text.dropWhile isInvisibleMark).rdropWhile isInvisibleMark ++
        (text.dropWhile isInvisibleMark).rtakeWhile isInvisibleMark :=
    (List.rdropWhile_append_rtakeWhile ..).symm
  refine ⟨text.takeWhile isInvisibleMark,
    (text.dropWhile isInvisibleMark).rtakeWhile isInvisibleMark, ?_, ?_, ?_, ?_⟩
  · rw [List.append_assoc, ← htrail]
    exact hlead
  · have hlen := congrArg byteLen hlead
    rw [byteLen_append] at hlen
    omega
  · intro hmem
    have hmark := List.all_eq_true.1 (List.all_takeWhile (p := isInvisibleMark) (l := text)) _ hmem
    cases hmark
  · intro hnil
    -- What is left behind the leading marks starts with another character.
    rw [List.rdropWhile_eq_nil_iff] at hnil
    cases hbody : text.dropWhile isInvisibleMark with
    | nil => rfl
    | cons c body =>
      have hc := List.head_dropWhile_not isInvisibleMark (l := text) (by rw [hbody]; simp)
      simp only [hbody, List.head_cons] at hc
      rw [hnil c (by rw [hbody]; exact List.mem_cons_self)] at hc
      cases hc

theorem unicodeScan_eq_some {lines target : List (List Char)} {excluded : List ExcludedRange}
    {starts : List Nat} {found : Option (FuzzyMatch A.F)} {m : FuzzyMatch A.F}
    (h : unicodeScan A nfc lines target excluded starts found = some m) :
    found = some m ∨ ∃ i ∈ starts, windowFree lines target.length excluded i = true ∧
      m = unicodeMatchAt A lines target i := by
  induction starts generalizing found with
  | nil => exact .inl h
  | cons start starts ih =>
    rw [unicodeScan] at h
    split at h
    · next hhit =>
      split at h
      · cases h
      · rcases ih h with heq | ⟨i, hi, hfree, heq⟩
        · cases heq
          exact .inr ⟨start, List.mem_cons_self, (Bool.and_eq_true_iff.1 hhit).2, rfl⟩
        · exact .inr ⟨i, List.mem_cons_of_mem _ hi, hfree, heq⟩
    · rcases ih h with heq | ⟨i, hi, hfree, heq⟩
      · exact .inl heq
      · exact .inr ⟨i, List.mem_cons_of_mem _ hi, hfree, heq⟩

theorem hit_of_findUnicodeMatch {content target : List Char} {excluded : List ExcludedRange}
    {outcome : MatchOutcome A.F}
    (h : findUnicodeMatch A nfc content target excluded = some outcome) :
    ∃ m i, outcome.matched = some m ∧ outcome.closest = some m ∧
      Hit (splitLines content) (splitLines target).length excluded m i := by
  rw [findUnicodeMatch] at h
  split at h
  · cases h
  · next hlen =>
    obtain ⟨m, hscan, rfl⟩ := Option.map_eq_some_iff.1 h
    rcases unicodeScan_eq_some hscan with heq | ⟨i, hi, hfree, rfl⟩
    · cases heq
    · exact ⟨_, i, rfl, rfl,
        hit_unicodeMatchAt ((mem_windowStarts (Nat.not_lt.1 hlen)).1 hi) hfree⟩

theorem hit_of_scan {lines target : List (List Char)} {threshold : A.F} {includeDepth : Bool}
    {excluded : List ExcludedRange} {starts : List Nat} {s : Scan A} {m : FuzzyMatch A.F}
    (hstarts : ∀ i ∈ starts, i + target.length ≤ lines.length)
    (h : (starts.foldl (Scan.step A lines target threshold includeDepth excluded) s).best = some m) :
    s.best = some m ∨ ∃ i, Hit lines target.length excluded m i := by
  induction starts generalizing s with
  | nil => exact .inl h
  | cons start starts ih =>
    rcases ih (fun i hi => hstarts i (List.mem_cons_of_mem _ hi)) h with hbest | hhit
    · rw [Scan.step] at hbest
      split at hbest
      · exact .inl hbest
      · next hfree =>
        simp only at hbest
        split at hbest
        · cases hbest
          refine .inr ⟨start, hstarts start List.mem_cons_self, by simpa using hfree, [], [], ?_⟩
          simp [windowText]
        · split at hbest
          · exact .inl hbest
          · exact .inl hbest
    · exact .inr hhit

theorem hit_of_bestFuzzyMatchCore {lines target : List (List Char)} {threshold : A.F}
    {includeDepth : Bool} {excluded : List ExcludedRange} {m : FuzzyMatch A.F}
    (hlen : target.length ≤ lines.length)
    (h : (bestFuzzyMatchCore A lines target threshold includeDepth excluded).best = some m) :
    ∃ i, Hit lines target.length excluded m i := by
  rcases hit_of_scan (fun i hi => (mem_windowStarts hlen).1 hi) h with hnone | hhit
  · cases hnone
  · exact hhit

theorem hit_of_bestFuzzyMatch {content target : List Char} {threshold : A.F}
    {excluded : List ExcludedRange} {m : FuzzyMatch A.F}
    (h : (bestFuzzyMatch A content target threshold excluded).best = some m) :
    ∃ i, Hit (splitLines content) (splitLines target).length excluded m i := by
  rw [bestFuzzyMatch] at h
  split at h
  · cases h
  · next hlen =>
    rw [Bool.or_eq_true, not_or, decide_eq_true_eq, Nat.not_lt] at hlen
    simp only at h
    split at h
    · exact hit_of_bestFuzzyMatchCore hlen.2 h
    · split at h
      · split at h
        · exact hit_of_bestFuzzyMatchCore hlen.2 h
        · exact hit_of_bestFuzzyMatchCore hlen.2 h
      · exact hit_of_bestFuzzyMatchCore hlen.2 h

theorem matchIndices_eq_nil {target : List Char} (h : ¬target <:+: text) (offset skip : Nat) :
    matchIndices target offset skip text = [] := by
  induction text generalizing offset skip with
  | nil => cases skip <;> rfl
  | cons c text ih =>
    rw [List.infix_cons_iff, not_or] at h
    cases skip with
    | zero =>
      rw [matchIndices, if_neg (by rw [List.isPrefixOf_iff_prefix]; exact h.1), ih h.2]
    | succ skip => rw [matchIndices, ih h.2]

theorem matchIndices_ne_nil {target : List Char} (hne : target ≠ []) (h : target <:+: text)
    (offset : Nat) : matchIndices target offset 0 text ≠ [] := by
  induction text generalizing offset with
  | nil => exact absurd (List.infix_nil.1 h) hne
  | cons c text ih =>
    rw [matchIndices]
    split
    · exact List.cons_ne_nil _ _
    · next hno =>
      rw [List.isPrefixOf_iff_prefix] at hno
      exact ih ((List.infix_cons_iff.1 h).resolve_left hno) _

theorem findExactMatchOutcome_eq_none {content target : List Char} (h : ¬target <:+: content)
    (excluded : List ExcludedRange) : findExactMatchOutcome A content target excluded = none := by
  rw [findExactMatchOutcome, matchIndices_eq_nil h]
  rfl

/-- What a search returns, where the text does not stand exactly. -/
theorem hit_of_findMatch {content target : List Char} {allowFuzzy : Bool} {threshold : A.F}
    {excluded : List ExcludedRange} {m : FuzzyMatch A.F} (hno : ¬target <:+: content)
    (h : (findMatch A nfc content target allowFuzzy threshold excluded).matched = some m ∨
      (findMatch A nfc content target allowFuzzy threshold excluded).closest = some m) :
    ∃ i, Hit (splitLines content) (splitLines target).length excluded m i := by
  rw [findMatch, findExactMatchOutcome_eq_none hno] at h
  split at h
  · rcases h with h | h <;> cases h
  · simp only at h
    split at h
    · next outcome hunicode =>
      obtain ⟨m', i, hmatched, hclosest, hhit⟩ := hit_of_findUnicodeMatch hunicode
      rw [hmatched, hclosest, or_self, Option.some_inj] at h
      exact ⟨i, h ▸ hhit⟩
    · split at h
      · rcases h with h | h <;> cases h
      · next best hbest =>
        have heq : m = best := by
          split at h
          · rcases h with h | h <;> cases h <;> rfl
          · split at h
            · rcases h with h | h <;> cases h <;> rfl
            · rcases h with h | h <;> cases h
              rfl
        exact heq ▸ hit_of_bestFuzzyMatch hbest

/-! ## Searches with the same free windows -/

/-- The same windows are free. -/
def SameFree (lines : List (List Char)) (count : Nat) (excluded excluded' : List ExcludedRange) :
    Prop :=
  ∀ i, i + count ≤ lines.length →
    windowFree lines count excluded i = windowFree lines count excluded' i

theorem unicodeScan_congr {lines target : List (List Char)} {excluded excluded' : List ExcludedRange}
    (h : SameFree lines target.length excluded excluded') {starts : List Nat}
    (hstarts : ∀ i ∈ starts, i + target.length ≤ lines.length) (found : Option (FuzzyMatch A.F)) :
    unicodeScan A nfc lines target excluded starts found =
      unicodeScan A nfc lines target excluded' starts found := by
  induction starts generalizing found with
  | nil => rfl
  | cons start starts ih =>
    have hrest := ih fun i hi => hstarts i (List.mem_cons_of_mem _ hi)
    rw [unicodeScan, unicodeScan, h start (hstarts start List.mem_cons_self), hrest, hrest]

theorem foldl_scan_congr {lines target : List (List Char)} {excluded excluded' : List ExcludedRange}
    (h : SameFree lines target.length excluded excluded') {starts : List Nat}
    (hstarts : ∀ i ∈ starts, i + target.length ≤ lines.length) (threshold : A.F)
    (includeDepth : Bool) (s : Scan A) :
    starts.foldl (Scan.step A lines target threshold includeDepth excluded) s =
      starts.foldl (Scan.step A lines target threshold includeDepth excluded') s := by
  induction starts generalizing s with
  | nil => rfl
  | cons start starts ih =>
    have hstep : Scan.step A lines target threshold includeDepth excluded s start =
        Scan.step A lines target threshold includeDepth excluded' s start := by
      rw [Scan.step, Scan.step, h start (hstarts start List.mem_cons_self)]
    rw [List.foldl_cons, List.foldl_cons, hstep,
      ih fun i hi => hstarts i (List.mem_cons_of_mem _ hi)]

/-- A search depends on the excluded ranges only through the windows that are free. -/
theorem findMatch_congr {content target : List Char} {allowFuzzy : Bool} {threshold : A.F}
    {excluded excluded' : List ExcludedRange} (hno : ¬target <:+: content)
    (h : SameFree (splitLines content) (splitLines target).length excluded excluded') :
    findMatch A nfc content target allowFuzzy threshold excluded =
      findMatch A nfc content target allowFuzzy threshold excluded' := by
  have hunicode : findUnicodeMatch A nfc content target excluded =
      findUnicodeMatch A nfc content target excluded' := by
    rw [findUnicodeMatch, findUnicodeMatch]
    split
    · rfl
    · next hlen =>
      rw [unicodeScan_congr h fun i hi => (mem_windowStarts (Nat.not_lt.1 hlen)).1 hi]
  have hbest : bestFuzzyMatch A content target threshold excluded =
      bestFuzzyMatch A content target threshold excluded' := by
    rw [bestFuzzyMatch, bestFuzzyMatch]
    split
    · rfl
    · next hlen =>
      rw [Bool.or_eq_true, not_or, decide_eq_true_eq, Nat.not_lt] at hlen
      have hcore : ∀ includeDepth,
          bestFuzzyMatchCore A (splitLines content) (splitLines target) threshold includeDepth
            excluded =
          bestFuzzyMatchCore A (splitLines content) (splitLines target) threshold includeDepth
            excluded' := by
        intro includeDepth
        rw [bestFuzzyMatchCore, bestFuzzyMatchCore,
          foldl_scan_congr h fun i hi => (mem_windowStarts hlen.2).1 hi]
      rw [hcore true, hcore false]
  rw [findMatch, findMatch, findExactMatchOutcome_eq_none hno, findExactMatchOutcome_eq_none hno,
    hunicode, hbest]

end

end OhMyPi.Edit
