import OhMyPi.Lib.Slice
import OhMyPi.Secrets.Replacement

/-! The markers that `regex_replacement` puts in the place of a match: when there is one, how long it
is, what it is made of, and whether the expression finds it again. -/

namespace OhMyPi.Secrets

/-! ## The shape of a marker -/

/-- The characters of markers: the alphabet of the search and two blanks. -/
def IsMarkerChar (c : Char) : Prop := c ∈ nonmatchingReplacementChars ∨ c = ' ' ∨ c = '\t'

/-- A marker of the given length. -/
structure Shaped (length : Nat) (marker : List Char) : Prop where
  length_eq : marker.length = length
  chars : ∀ c ∈ marker, IsMarkerChar c

theorem isMarkerChar_of_mem {c : Char} (h : c ∈ replacementChars) : IsMarkerChar c :=
  .inl (List.mem_append_left _ h)

theorem replacementChar_mem (n : Nat) : replacementChars.getD (n % 62) 'A' ∈ replacementChars := by
  have h : n % 62 < replacementChars.length := Nat.mod_lt _ (by decide)
  rw [← List.getElem_eq_getD (h := h)]
  exact List.getElem_mem h

theorem isMarkerChar_A : IsMarkerChar 'A' := isMarkerChar_of_mem (replacementChar_mem 0)

theorem shaped_deterministicRun (count index mixed : Nat) :
    Shaped count (deterministicRun count index mixed) := by
  induction count generalizing index mixed with
  | zero => exact ⟨rfl, fun _ hc => by cases hc⟩
  | succ count ih =>
    have hrest := ih (index + 1) (mixed ^^^ ((index + 1) * 0x9e3779b97f4a7c15))
    refine ⟨by rw [deterministicRun, List.length_cons, hrest.length_eq], fun c hc => ?_⟩
    rcases List.mem_cons.1 hc with rfl | hc
    · exact isMarkerChar_of_mem (replacementChar_mem _)
    · exact hrest.chars c hc

theorem Shaped.cons {length : Nat} {marker : List Char} {c : Char} (h : Shaped length marker)
    (hc : IsMarkerChar c) : Shaped (length + 1) (c :: marker) := by
  refine ⟨by rw [List.length_cons, h.length_eq], fun c' hc' => ?_⟩
  rcases List.mem_cons.1 hc' with rfl | hc'
  · exact hc
  · exact h.chars c' hc'

theorem isMarkerChar_Z : IsMarkerChar 'Z' := isMarkerChar_of_mem (replacementChar_mem 25)

theorem shaped_nil : Shaped 0 [] := ⟨rfl, fun _ hc => by cases hc⟩

theorem shaped_generateDeterministicReplacement (secret : List Char) :
    Shaped (utf16Len secret) (generateDeterministicReplacement secret) := by
  rw [generateDeterministicReplacement]
  split
  · next h => rw [h]; exact shaped_nil
  · next h => rw [h]; exact shaped_nil.cons isMarkerChar_Z
  · next length h =>
    rw [h]
    exact ((shaped_deterministicRun length 2 _).cons isMarkerChar_Z).cons isMarkerChar_Z

theorem shaped_replicate (length : Nat) {c : Char} (hc : IsMarkerChar c) :
    Shaped length (List.replicate length c) :=
  ⟨List.length_replicate, fun _ hmem => List.eq_of_mem_replicate hmem ▸ hc⟩

theorem Shaped.set {length : Nat} {marker : List Char} {c : Char} (h : Shaped length marker)
    (hc : IsMarkerChar c) (position : Nat) : Shaped length (marker.set position c) := by
  refine ⟨by rw [List.length_set, h.length_eq], fun c' hc' => ?_⟩
  rcases List.mem_or_eq_of_mem_set hc' with hc' | rfl
  · exact h.chars c' hc'
  · exact hc

theorem shaped_candidate {length : Nat} {candidate : List Char}
    (h : candidate ∈ nonMatchingCandidates length) : Shaped length candidate := by
  have hplain := shaped_replicate length isMarkerChar_A
  simp only [nonMatchingCandidates, List.mem_append, List.mem_flatMap, List.mem_map,
    List.mem_cons] at h
  rcases h with (⟨position, -, c, hc, rfl⟩ | ⟨c, hc, rfl⟩) | ⟨blank, hblank, rfl | ⟨position, -, rfl⟩⟩
  · exact hplain.set (.inl hc) position
  · exact shaped_replicate length (.inl hc)
  · exact shaped_replicate length (.inr (by simpa using hblank))
  · exact hplain.set (.inr (by simpa using hblank)) position

theorem shaped_buildKeyedReplacementRun (mac : Mac) (key : List Char) (length : Nat) :
    Shaped length (buildKeyedReplacementRun mac key length) := by
  constructor
  · have hblocks : ∀ blocks : List Nat, (blocks.flatMap fun block =>
        (List.ofFn (mac (textBytes key) (textBytes ("replace-chunk".toList ++ '\x00' ::
          (Nat.toDigits 10 length ++ '\x00' :: Nat.toDigits 10 block))))).map fun b =>
            replacementChars.getD (b.toNat % 62) 'A').length = 32 * blocks.length := by
      intro blocks
      induction blocks with
      | nil => rfl
      | cons block blocks ih =>
        rw [List.flatMap_cons, List.length_append, ih, List.length_map, List.length_ofFn,
          List.length_cons]
        omega
    rw [buildKeyedReplacementRun, List.length_take, hblocks, List.length_range]
    omega
  · intro c hc
    obtain ⟨block, -, hc⟩ := List.mem_flatMap.1 (List.mem_of_mem_take hc)
    obtain ⟨b, -, rfl⟩ := List.mem_map.1 hc
    exact isMarkerChar_of_mem (replacementChar_mem _)

theorem shaped_keyedFallback (mac : Mac) (key value : List Char) :
    Shaped (utf16Len value) (keyedFallback mac key value) := by
  rw [keyedFallback]
  split
  · exact shaped_buildKeyedReplacementRun mac key _
  · next h =>
    obtain ⟨n, hn⟩ : ∃ n, utf16Len value = n + 2 := ⟨utf16Len value - 2, by omega⟩
    simp only [hn, Nat.add_sub_cancel]
    exact ((shaped_buildKeyedReplacementRun mac key n).cons isMarkerChar_Z).cons isMarkerChar_Z

/-! ## Reading the context of a match -/

/-- The scan for another match starts between two characters. -/
def Readable (before : List Char) : Prop :=
  Text.isBoundary before (Text.byteLen before - regexRematchBackscan) = true

instance (before : List Char) : Decidable (Readable before) := inferInstanceAs (Decidable (_ = true))

theorem dropBytes_eq (n : Nat) (text : List Char) :
    dropBytes n text = (Text.splitAtByte text n).map (·.2) := by
  induction text, n using Text.splitAtByte.induct with
  | case1 text => cases text <;> rfl
  | case2 n => rfl
  | case3 c text n hle ih =>
    rw [dropBytes, if_pos hle, ih, Text.splitAtByte, if_pos hle, Option.map_map]
    rfl
  | case4 c text n hle =>
    rw [dropBytes, if_neg hle, Text.splitAtByte, if_neg hle]
    rfl

theorem isSome_rematches {before : List Char} (candidate : List Char) (regex : Regex)
    (after : List Char) :
    (regexRematchesInContext candidate regex before after).isSome = true ↔ Readable before := by
  rw [regexRematchesInContext, Option.isSome_map, dropBytes_eq, Option.isSome_map, Readable,
    Text.isBoundary]

theorem rematches_eq_none {before : List Char} (h : ¬Readable before) (candidate : List Char)
    (regex : Regex) (after : List Char) :
    regexRematchesInContext candidate regex before after = none := by
  rw [← Option.not_isSome_iff_eq_none, isSome_rematches]
  exact h

/-! ## The search -/

/-- A marker that is not the match and that the expression does not find again. -/
def Escapes (value : List Char) (regex : Regex) (before after marker : List Char) : Prop :=
  marker ≠ value ∧ regexRematchesInContext marker regex before after = some false

theorem firstNonMatching_eq_some {value : List Char} {regex : Regex} {before after : List Char}
    {candidates : List (List Char)} {marker : List Char}
    (h : firstNonMatching value regex before after candidates = some (some marker)) :
    marker ∈ candidates ∧ Escapes value regex before after marker := by
  induction candidates with
  | nil => cases h
  | cons candidate rest ih =>
    rw [firstNonMatching] at h
    split at h
    · obtain ⟨hmem, hescapes⟩ := ih h
      exact ⟨List.mem_cons_of_mem _ hmem, hescapes⟩
    · next hne =>
      split at h
      · cases h
      · obtain ⟨hmem, hescapes⟩ := ih h
        exact ⟨List.mem_cons_of_mem _ hmem, hescapes⟩
      · next hfree =>
        cases h
        exact ⟨List.mem_cons_self, hne, hfree⟩

theorem firstNonMatching_eq_some_none {value : List Char} {regex : Regex} {before after : List Char}
    {candidates : List (List Char)}
    (h : firstNonMatching value regex before after candidates = some none) :
    ∀ marker ∈ candidates, ¬Escapes value regex before after marker := by
  induction candidates with
  | nil => exact fun _ hmem => by cases hmem
  | cons candidate rest ih =>
    rw [firstNonMatching] at h
    intro marker hmem
    rcases List.mem_cons.1 hmem with rfl | hmem
    · rintro ⟨hne, hfree⟩
      rw [if_neg hne, hfree] at h
      cases h
    · split at h
      · exact ih h marker hmem
      · split at h
        · cases h
        · exact ih h marker hmem
        · cases h

/-- Only a text that cannot be read stops the search. -/
theorem firstNonMatching_eq_none {value : List Char} {regex : Regex} {before after : List Char}
    {candidates : List (List Char)} :
    firstNonMatching value regex before after candidates = none ↔
      ¬Readable before ∧ ∃ marker ∈ candidates, marker ≠ value := by
  induction candidates with
  | nil =>
    constructor
    · intro h
      cases h
    · rintro ⟨-, marker, hmem, -⟩
      cases hmem
  | cons candidate rest ih =>
    rw [firstNonMatching]
    by_cases heq : candidate = value
    · rw [if_pos heq, ih]
      simp [heq]
    · rw [if_neg heq]
      by_cases hread : Readable before
      · obtain ⟨again, hagain⟩ :=
          Option.isSome_iff_exists.1 ((isSome_rematches candidate regex after).2 hread)
        rw [hagain]
        cases again with
        | true => simp [ih, hread]
        | false => simp [hread]
      · rw [rematches_eq_none hread]
        simp [hread, heq]

/-- Among the candidates for a match that is not empty there are two different ones. -/
theorem exists_candidate_ne {value : List Char} (h : value ≠ []) :
    ∃ marker ∈ nonMatchingCandidates (utf16Len value), marker ≠ value := by
  obtain ⟨n, hn⟩ : ∃ n, utf16Len value = n + 1 := by
    cases value with
    | nil => exact absurd rfl h
    | cons c rest =>
      refine ⟨utf16Len (c :: rest) - 1, ?_⟩
      simp only [utf16Len, List.map_cons, List.sum_cons]
      split <;> omega
  have hmem : ∀ c ∈ nonmatchingReplacementChars,
      c :: List.replicate n 'A' ∈ nonMatchingCandidates (utf16Len value) := by
    intro c hc
    refine List.mem_append_left _ (List.mem_append_left _ (List.mem_flatMap.2 ⟨0, ?_, ?_⟩))
    · rw [hn, List.mem_range]
      omega
    · rw [hn]
      exact List.mem_map.2 ⟨c, hc, rfl⟩
  by_cases heq : 'A' :: List.replicate n 'A' = value
  · refine ⟨_, hmem 'B' (by decide), fun hB => ?_⟩
    rw [← hB] at heq
    cases heq
  · exact ⟨_, hmem 'A' (by decide), heq⟩

/-! ## The replacement of a match -/

/-- The markers that are tried before the keyed one. -/
def markers (value : List Char) : List (List Char) :=
  generateDeterministicReplacement value :: nonMatchingCandidates (utf16Len value)

/-- What a replacement has to be: as long as the match counts in UTF-16, of the alphabet of markers,
and it neither is the match nor is it found again where another marker would not be. -/
structure Conceals (value : List Char) (regex : Regex) (before after replacement : List Char) :
    Prop where
  shaped : Shaped (utf16Len value) replacement
  distinct : value ≠ [] → replacement ≠ value
  unmatched : (∃ marker ∈ markers value, Escapes value regex before after marker) →
    regexRematchesInContext replacement regex before after = some false

theorem Conceals.of_escapes {value : List Char} {regex : Regex} {before after marker : List Char}
    (hmem : marker ∈ markers value) (h : Escapes value regex before after marker) :
    Conceals value regex before after marker := by
  refine ⟨?_, fun _ => h.1, fun _ => h.2⟩
  rcases List.mem_cons.1 hmem with rfl | hmem
  · exact shaped_generateDeterministicReplacement value
  · exact shaped_candidate hmem

theorem not_escapes {before : List Char} (h : ¬Readable before) (value : List Char) (regex : Regex)
    (after marker : List Char) : ¬Escapes value regex before after marker := by
  rintro ⟨-, hfree⟩
  rw [rematches_eq_none h] at hfree
  cases hfree

/-- The candidates for an empty match are empty. -/
theorem exists_candidate_ne_iff {value : List Char} :
    (∃ marker ∈ nonMatchingCandidates (utf16Len value), marker ≠ value) ↔ value ≠ [] := by
  constructor
  · rintro ⟨marker, hmem, hne⟩ rfl
    exact hne (List.eq_nil_of_length_eq_zero (shaped_candidate hmem).length_eq)
  · exact exists_candidate_ne

theorem findNonMatchingReplacement_cases (value : List Char) (regex : Regex)
    (before after : List Char) :
    (∃ marker ∈ nonMatchingCandidates (utf16Len value), Escapes value regex before after marker ∧
      findNonMatchingReplacement value regex before after = some (some marker)) ∨
    ((∀ marker ∈ nonMatchingCandidates (utf16Len value),
        ¬Escapes value regex before after marker) ∧
      findNonMatchingReplacement value regex before after =
        if value = [] ∨ Readable before then some none else none) := by
  cases hfind : findNonMatchingReplacement value regex before after with
  | none =>
    obtain ⟨hread, hne⟩ := firstNonMatching_eq_none.1 hfind
    refine .inr ⟨fun marker _ => not_escapes hread value regex after marker, ?_⟩
    rw [if_neg (not_or.2 ⟨exists_candidate_ne_iff.1 hne, hread⟩)]
  | some found =>
    cases found with
    | none =>
      refine .inr ⟨firstNonMatching_eq_some_none hfind, ?_⟩
      rw [if_pos]
      by_contra hstop
      obtain ⟨hne, hread⟩ := not_or.1 hstop
      rw [findNonMatchingReplacement,
        firstNonMatching_eq_none.2 ⟨hread, exists_candidate_ne hne⟩] at hfind
      cases hfind
    | some marker =>
      obtain ⟨hmem, hescapes⟩ := firstNonMatching_eq_some hfind
      exact .inl ⟨marker, hmem, hescapes, rfl⟩

/-- The search runs when the deterministic marker does not do. -/
theorem regexReplacement_of_not_escapes (mac : Mac) {value : List Char} {regex : Regex}
    {before after : List Char} (key : List Char)
    (h : ¬Escapes value regex before after (generateDeterministicReplacement value)) :
    regexReplacement mac value regex before after key =
      (findNonMatchingReplacement value regex before after).map fun found =>
        found.getD (keyedFallback mac key value) := by
  rw [regexReplacement]
  by_cases heq : generateDeterministicReplacement value = value
  · rw [if_pos heq]
  · rw [if_neg heq]
    cases hagain : regexRematchesInContext (generateDeterministicReplacement value) regex before
        after with
    | none =>
      have hread : ¬Readable before := by
        rw [← isSome_rematches (generateDeterministicReplacement value) regex after, hagain]
        exact Bool.noConfusion
      have hne : value ≠ [] := by
        rintro rfl
        exact heq rfl
      rw [findNonMatchingReplacement,
        firstNonMatching_eq_none.2 ⟨hread, exists_candidate_ne hne⟩, Option.map_none]
    | some again =>
      cases again with
      | true => rfl
      | false => exact absurd ⟨heq, hagain⟩ h

/-- The first marker that escapes, or else the keyed one where the text can be read. -/
theorem regexReplacement_cases (mac : Mac) (value : List Char) (regex : Regex)
    (before after key : List Char) :
    (∃ marker ∈ markers value, Escapes value regex before after marker ∧
      regexReplacement mac value regex before after key = some marker) ∨
    ((∀ marker ∈ markers value, ¬Escapes value regex before after marker) ∧
      regexReplacement mac value regex before after key =
        if value = [] ∨ Readable before then some (keyedFallback mac key value) else none) := by
  by_cases hdet : Escapes value regex before after (generateDeterministicReplacement value)
  · refine .inl ⟨_, List.mem_cons_self, hdet, ?_⟩
    rw [regexReplacement, if_neg hdet.1, hdet.2]
  · rw [regexReplacement_of_not_escapes mac key hdet]
    rcases findNonMatchingReplacement_cases value regex before after with
      ⟨marker, hmem, hescapes, hfind⟩ | ⟨hnone, hfind⟩
    · exact .inl ⟨marker, List.mem_cons_of_mem _ hmem, hescapes, by rw [hfind]; rfl⟩
    · refine .inr ⟨fun marker hmem => ?_, ?_⟩
      · rcases List.mem_cons.1 hmem with rfl | hmem
        · exact hdet
        · exact hnone marker hmem
      · rw [hfind]
        split <;> rfl

/-- A match has a replacement that conceals it exactly when the text before it can be read from 512
bytes back, and the keyed marker, where it is needed, is not the match. -/
theorem regexReplacement_conceals_iff (mac : Mac) (value : List Char) (regex : Regex)
    (before after key : List Char) :
    (∃ replacement, regexReplacement mac value regex before after key = some replacement ∧
      Conceals value regex before after replacement) ↔
    value = [] ∨ Readable before ∧ (keyedFallback mac key value ≠ value ∨
      ∃ marker ∈ markers value, Escapes value regex before after marker) := by
  rcases regexReplacement_cases mac value regex before after key with
    ⟨marker, hmem, hescapes, hresult⟩ | ⟨hnone, hresult⟩
  · have hread : Readable before := by
      by_contra hread
      exact not_escapes hread value regex after marker hescapes
    exact iff_of_true ⟨marker, hresult, .of_escapes hmem hescapes⟩
      (.inr ⟨hread, .inr ⟨marker, hmem, hescapes⟩⟩)
  · have hnone' : ¬∃ marker ∈ markers value, Escapes value regex before after marker :=
      fun ⟨marker, hmem, hescapes⟩ => hnone marker hmem hescapes
    rw [hresult]
    constructor
    · rintro ⟨replacement, heq, hconceals⟩
      split at heq
      · next hread =>
        cases heq
        by_cases hvalue : value = []
        · exact .inl hvalue
        · exact .inr ⟨hread.resolve_left hvalue, .inl (hconceals.distinct hvalue)⟩
      · cases heq
    · intro h
      rw [if_pos (h.imp_right And.left)]
      refine ⟨_, rfl, shaped_keyedFallback mac key value, fun hvalue => ?_,
        fun hescapes => absurd hescapes hnone'⟩
      exact (h.resolve_left hvalue).2.resolve_right hnone'

/-- The expression `tok$`. -/
def trailingToken : Regex where
  findIter text :=
    if "tok".toList.isSuffixOf text then [(text.length - 3, text.length)] else []
  ordered text := by
    split
    · exact ⟨Nat.zero_le _, Nat.sub_le _ _, Nat.le_refl _, trivial⟩
    · trivial

/-- 513 bytes, so that the scan starts inside the first character. -/
def accents : List Char := List.replicate 256 'é' ++ ['a']

theorem not_readable_accents : ¬Readable accents := by decide +kernel

theorem accents_not_concealed : ¬∀ (mac : Mac) (value : List Char) (regex : Regex)
    (before after key : List Char),
    (before.length, before.length + value.length) ∈ regex.findIter (before ++ value ++ after) →
    ∃ replacement, regexReplacement mac value regex before after key = some replacement ∧
      Conceals value regex before after replacement := by
  intro h
  obtain ⟨replacement, hresult, -⟩ := h (fun _ _ _ => 0) "tok".toList trailingToken accents [] []
    (by decide +kernel)
  rcases regexReplacement_cases (fun _ _ _ => 0) "tok".toList trailingToken accents [] [] with
    ⟨marker, -, hescapes, -⟩ | ⟨-, hnone⟩
  · exact not_escapes not_readable_accents _ _ _ _ hescapes
  · rw [hnone, if_neg (not_or.2 ⟨by decide, not_readable_accents⟩)] at hresult
    cases hresult

end OhMyPi.Secrets
