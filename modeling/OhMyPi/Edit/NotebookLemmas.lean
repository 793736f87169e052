import OhMyPi.Edit.Notebook

/-! The editable form of a notebook reads back: marker-like lines of a source are escaped to lines
that are no markers, and what the text says of a cell is its type, its index and its source. -/

namespace OhMyPi.Edit

open Text KeyedList

variable {codec : Codec}

/-! ## Marker lines -/

theorem eat_append (literal : String) (rest : List Char) :
    eat literal (literal.toList ++ rest) = some rest := by
  rw [eat, if_pos (List.isPrefixOf_iff_prefix.2 (List.prefix_append _ _)), List.drop_left]

theorem eat_eq_some {literal : String} {text rest : List Char} (h : eat literal text = some rest) :
    text = literal.toList ++ rest := by
  rw [eat] at h
  split at h
  next hprefix =>
    obtain ⟨t, rfl⟩ := List.isPrefixOf_iff_prefix.1 hprefix
    rw [List.drop_left] at h
    cases h
    rfl
  next => cases h

/-- What an index adds to a marker. -/
def indexTail : Option (List Char) → List Char
  | none => []
  | some digits => " cell:".toList ++ digits

/-- The index of a marker, if any, is a number. -/
def IndexOk (codec : Codec) (index : Option (List Char)) : Prop :=
  ∀ digits ∈ index, digits ≠ [] ∧ digits.all codec.digit = true

/-- A line in the form of a marker. -/
def markerForm (percents : Nat) (cellType : NotebookCellType) (index : Option (List Char)) :
    List Char :=
  "# ".toList ++ (List.replicate percents '%' ++
    ((" [" ++ cellType.asStr ++ "]").toList ++ indexTail index))

theorem markerIndex_eq_some {text : List Char} {index : Option (List Char)} :
    markerIndex codec text = some index ↔ text = indexTail index ∧ IndexOk codec index := by
  rw [markerIndex]
  constructor
  · intro h
    split at h
    next hempty =>
      cases h
      exact ⟨List.isEmpty_iff.1 hempty, fun digits hd => by cases hd⟩
    next =>
      cases heat : eat " cell:" text with
      | none =>
        rw [heat] at h
        cases h
      | some digits =>
        rw [heat] at h
        dsimp only at h
        split at h
        next hdigits =>
          cases h
          rw [Bool.and_eq_true, Bool.not_eq_true', List.isEmpty_eq_false_iff] at hdigits
          refine ⟨eat_eq_some heat, ?_⟩
          intro digits' hd
          cases hd
          exact hdigits
        next => cases h
  · rintro ⟨rfl, hok⟩
    cases index with
    | none => rfl
    | some digits =>
      obtain ⟨hne, hall⟩ := hok digits rfl
      rw [indexTail, if_neg (by simp), eat_append]
      simp [hne, hall]

theorem markerType_eq_some {cellType cellType' : NotebookCellType} {text : List Char}
    {index : Option (List Char)} : markerType codec cellType text = some (cellType', index) ↔
      cellType' = cellType ∧ text = (" [" ++ cellType.asStr ++ "]").toList ++ indexTail index ∧
        IndexOk codec index := by
  rw [markerType]
  constructor
  · intro h
    cases heat : eat (" [" ++ cellType.asStr ++ "]") text with
    | none =>
      rw [heat] at h
      cases h
    | some rest =>
      rw [heat] at h
      obtain ⟨index', hindex, heq⟩ := Option.map_eq_some_iff.1 h
      cases heq
      obtain ⟨rfl, hok⟩ := markerIndex_eq_some.1 hindex
      exact ⟨rfl, eat_eq_some heat, hok⟩
  · rintro ⟨rfl, rfl, hok⟩
    rw [eat_append]
    dsimp only
    rw [markerIndex_eq_some.2 ⟨rfl, hok⟩]
    rfl

/-- A type in brackets is no other type in brackets. -/
theorem markerType_ne {cellType other : NotebookCellType} (hne : other ≠ cellType)
    (rest : List Char) :
    markerType codec other ((" [" ++ cellType.asStr ++ "]").toList ++ rest) = none := by
  rw [markerType, eat, if_neg]
  intro h
  cases cellType with
  | code => cases other <;> first | exact hne rfl | cases h
  | markdown => cases other <;> first | exact hne rfl | cases h
  | raw => cases other <;> first | exact hne rfl | cases h

theorem takeWhile_percents (n : Nat) (cellType : NotebookCellType) (rest : List Char) :
    (List.replicate n '%' ++ ((" [" ++ cellType.asStr ++ "]").toList ++ rest)).takeWhile
      (· = '%') = List.replicate n '%' := by
  have hstop : ((" [" ++ cellType.asStr ++ "]").toList ++ rest).takeWhile (· = '%') = [] := by
    cases cellType <;> rfl
  rw [List.takeWhile_append_of_pos, hstop, List.append_nil]
  intro c hc
  simpa using List.eq_of_mem_replicate hc

theorem markerLike_markerForm {percents : Nat} {cellType : NotebookCellType}
    {index : Option (List Char)} (hok : IndexOk codec index) :
    markerLike codec (markerForm percents cellType index) = some (percents, cellType, index) := by
  have hdrop : (List.replicate percents '%' ++ ((" [" ++ cellType.asStr ++ "]").toList ++
      indexTail index)).drop percents = (" [" ++ cellType.asStr ++ "]").toList ++ indexTail index := by
    exact List.drop_left' List.length_replicate
  have htype : markerType codec cellType ((" [" ++ cellType.asStr ++ "]").toList ++ indexTail index) =
      some (cellType, index) := markerType_eq_some.2 ⟨rfl, rfl, hok⟩
  rw [markerLike, markerForm, eat_append]
  dsimp only
  rw [takeWhile_percents, List.length_replicate, hdrop]
  cases cellType with
  | code => rw [htype]; rfl
  | markdown => rw [markerType_ne (by decide), htype]; rfl
  | raw => rw [markerType_ne (by decide), markerType_ne (by decide), htype]; rfl

theorem markerLike_eq_some {line : List Char} {percents : Nat} {cellType : NotebookCellType}
    {index : Option (List Char)} : markerLike codec line = some (percents, cellType, index) ↔
      line = markerForm percents cellType index ∧ IndexOk codec index := by
  constructor
  · intro h
    rw [markerLike] at h
    cases heat : eat "# " line with
    | none =>
      rw [heat] at h
      cases h
    | some rest =>
      rw [heat] at h
      obtain ⟨marker, hmarker, heq⟩ := Option.map_eq_some_iff.1 h
      obtain ⟨hpercents, rfl⟩ := Prod.mk.inj heq
      have htype : rest.drop percents = (" [" ++ cellType.asStr ++ "]").toList ++ indexTail index ∧
          IndexOk codec index := by
        rw [hpercents, Option.or_eq_some_iff, Option.or_eq_some_iff] at hmarker
        rcases hmarker with hcode | ⟨-, hmarkdown | ⟨-, hraw⟩⟩
        · obtain ⟨rfl, htext⟩ := markerType_eq_some.1 hcode
          exact htext
        · obtain ⟨rfl, htext⟩ := markerType_eq_some.1 hmarkdown
          exact htext
        · obtain ⟨rfl, htext⟩ := markerType_eq_some.1 hraw
          exact htext
      refine ⟨?_, htype.2⟩
      have htake : rest.take percents = List.replicate percents '%' := by
        rw [← hpercents, List.eq_replicate_iff]
        have hprefix := List.takeWhile_prefix (l := rest) (· = '%')
        have htake := List.prefix_iff_eq_take.1 hprefix
        rw [← htake]
        exact ⟨rfl, fun c hc => by simpa using List.all_eq_true.1 List.all_takeWhile c hc⟩
      rw [eat_eq_some heat, markerForm, ← htype.1, ← htake, List.take_append_drop]
  · rintro ⟨rfl, hok⟩
    exact markerLike_markerForm hok

/-! ## Escaping -/

theorem escapeLine_markerForm {percents : Nat} {cellType : NotebookCellType}
    {index : Option (List Char)} (hok : IndexOk codec index) (htwo : 2 ≤ percents) :
    escapeLine codec (markerForm percents cellType index) =
      markerForm (percents + 1) cellType index := by
  have hescapable : isEscapable codec (markerForm percents cellType index) = true := by
    rw [isEscapable, markerLike_markerForm hok]
    simpa using htwo
  obtain ⟨n, rfl⟩ : ∃ n, percents = n + 1 := ⟨percents - 1, by omega⟩
  rw [escapeLine, if_pos hescapable]
  rfl

theorem unescape_markerForm {percents : Nat} {cellType : NotebookCellType}
    {index : Option (List Char)} (hok : IndexOk codec index) (htwo : 2 ≤ percents) :
    unescapeMarkerLikeLine codec (markerForm (percents + 1) cellType index) =
      markerForm percents cellType index := by
  have hescaped : isEscaped codec (markerForm (percents + 1) cellType index) = true := by
    rw [isEscaped, markerLike_markerForm hok]
    simpa using htwo
  obtain ⟨n, rfl⟩ : ∃ n, percents = n + 1 := ⟨percents - 1, by omega⟩
  rw [unescapeMarkerLikeLine, if_pos hescaped]
  rfl

/-- A line is a marker with its percent signs, or escaping leaves it alone. -/
theorem escapeLine_cases (codec : Codec) (line : List Char) :
    (∃ percents cellType index, 2 ≤ percents ∧ IndexOk codec index ∧
      line = markerForm percents cellType index) ∨
    (isEscapable codec line = false ∧ escapeLine codec line = line) := by
  cases hescapable : isEscapable codec line with
  | false => exact .inr ⟨rfl, by rw [escapeLine, if_neg (by simp [hescapable])]⟩
  | true =>
    rw [isEscapable, Option.any_eq_true] at hescapable
    obtain ⟨⟨percents, cellType, index⟩, hlike, htwo⟩ := hescapable
    obtain ⟨rfl, hok⟩ := markerLike_eq_some.1 hlike
    exact .inl ⟨percents, cellType, index, by simpa using htwo, hok, rfl⟩

theorem unescape_escapeLine (line : List Char) :
    unescapeMarkerLikeLine codec (escapeLine codec line) = line := by
  rcases escapeLine_cases codec line with ⟨percents, cellType, index, htwo, hok, rfl⟩ | ⟨hnot, heq⟩
  · rw [escapeLine_markerForm hok htwo, unescape_markerForm hok htwo]
  · rw [heq, unescapeMarkerLikeLine, if_neg]
    intro hescaped
    rw [isEscaped, Option.any_eq_true] at hescaped
    obtain ⟨marker, hlike, hthree⟩ := hescaped
    rw [isEscapable, hlike, Option.any_some, decide_eq_false_iff_not] at hnot
    rw [decide_eq_true_eq] at hthree
    omega

theorem cellMarker_escapeLine (line : List Char) :
    cellMarker codec (escapeLine codec line) = none := by
  rcases escapeLine_cases codec line with ⟨percents, cellType, index, htwo, hok, rfl⟩ | ⟨hnot, heq⟩
  · rw [escapeLine_markerForm hok htwo, cellMarker, markerLike_markerForm hok]
    exact if_neg (by omega)
  · rw [heq, cellMarker]
    cases hlike : markerLike codec line with
    | none => rfl
    | some marker =>
      rw [isEscapable, hlike, Option.any_some, decide_eq_false_iff_not] at hnot
      exact if_neg (by omega)

/-- Escaping adds nothing but a percent sign. -/
theorem mem_escapeLine {line : List Char} {c : Char} (hc : c ≠ '%') :
    c ∈ escapeLine codec line ↔ c ∈ line := by
  rcases escapeLine_cases codec line with ⟨percents, cellType, index, htwo, hok, rfl⟩ | ⟨-, heq⟩
  · rw [escapeLine_markerForm hok htwo, markerForm, markerForm]
    simp only [List.mem_append, List.mem_replicate, hc, and_false]
  · rw [heq]

theorem escapeLine_eq_nil {line : List Char} : escapeLine codec line = [] ↔ line = [] := by
  rcases escapeLine_cases codec line with ⟨percents, cellType, index, htwo, hok, rfl⟩ | ⟨-, heq⟩
  · rw [escapeLine_markerForm hok htwo, markerForm, markerForm]
    simp
  · rw [heq]

/-! ## Lines -/

theorem splitLines_joinLines {lines : List (List Char)} (h : ∀ line ∈ lines, '\n' ∉ line)
    (hne : lines ≠ []) : splitLines (joinLines lines) = lines := List.splitOn_intercalate '\n' h hne

theorem joinLines_splitLines (text : List Char) : joinLines (splitLines text) = text :=
  List.intercalate_splitOn '\n'

theorem joinLines_cons (line : List Char) {lines : List (List Char)} (h : lines ≠ []) :
    joinLines (line :: lines) = line ++ '\n' :: joinLines lines := by
  cases lines with
  | nil => exact absurd rfl h
  | cons l ls => simp [joinLines, List.intercalate]

theorem joinLines_append {l l' : List (List Char)} (h : l ≠ []) (h' : l' ≠ []) :
    joinLines (l ++ l') = joinLines l ++ '\n' :: joinLines l' := by
  induction l with
  | nil => exact absurd rfl h
  | cons line l ih =>
    cases l with
    | nil =>
      rw [List.singleton_append, joinLines_cons line h']
      simp [joinLines]
    | cons line' l =>
      rw [List.cons_append, joinLines_cons line (by simp), ih (List.cons_ne_nil _ _),
        joinLines_cons line (List.cons_ne_nil _ _), List.append_assoc]
      rfl

/-- The text of blocks of lines. -/
theorem joinLines_flatten {blocks : List (List (List Char))} (h : ∀ block ∈ blocks, block ≠ []) :
    joinLines (blocks.map joinLines) = joinLines blocks.flatten := by
  induction blocks with
  | nil => rfl
  | cons block blocks ih =>
    have hrest := ih fun other hother => h other (List.mem_cons_of_mem _ hother)
    cases blocks with
    | nil => simp [joinLines]
    | cons other blocks =>
      have hother : (other :: blocks).flatten ≠ [] := by
        rw [List.flatten_cons]
        intro hnil
        exact h other (List.mem_cons_of_mem _ List.mem_cons_self) (List.append_eq_nil_iff.1 hnil).1
      calc joinLines ((block :: other :: blocks).map joinLines)
        _ = joinLines block ++ '\n' :: joinLines (other :: blocks).flatten := by
            rw [List.map_cons, joinLines_cons _ (by simp), hrest]
        _ = joinLines (block :: other :: blocks).flatten :=
            (joinLines_append (h block List.mem_cons_self) hother).symm

theorem mem_joinLines {lines : List (List Char)} {c : Char} (hc : c ≠ '\n')
    (h : c ∈ joinLines lines) : ∃ line ∈ lines, c ∈ line := by
  induction lines with
  | nil => simp [joinLines] at h
  | cons line lines ih =>
    cases lines with
    | nil => exact ⟨line, List.mem_cons_self, by simpa [joinLines] using h⟩
    | cons line' lines =>
      rw [joinLines_cons line (List.cons_ne_nil _ _), List.mem_append, List.mem_cons] at h
      rcases h with hline | heq | hrest
      · exact ⟨line, List.mem_cons_self, hline⟩
      · exact absurd heq hc
      · obtain ⟨other, hother, hmem⟩ := ih hrest
        exact ⟨other, List.mem_cons_of_mem _ hother, hmem⟩

theorem not_newline_mem_splitLines (text : List Char) : ∀ line ∈ splitLines text, '\n' ∉ line := by
  induction text with
  | nil => simp [splitLines]
  | cons c text ih =>
    intro line hline
    rw [splitLines, List.splitOn_cons_eq_if_modifyHead] at hline
    split at hline
    next =>
      rcases List.mem_cons.1 hline with rfl | hmem
      · exact List.not_mem_nil
      · exact ih line hmem
    next hc =>
      have hne : c ≠ '\n' := by simpa using hc
      cases hsplit : text.splitOn '\n' with
      | nil => exact absurd hsplit (List.splitOn_ne_nil '\n' text)
      | cons first rest =>
        rw [splitLines, hsplit] at ih
        rw [hsplit, List.modifyHead_cons] at hline
        rcases List.mem_cons.1 hline with rfl | hmem
        · rw [List.mem_cons, not_or]
          exact ⟨hne.symm, ih first List.mem_cons_self⟩
        · exact ih line (List.mem_cons_of_mem _ hmem)

/-- A line of a text that lacks a pattern lacks it too. -/
theorem find_eq_none {pat text : List Char} (hpat : pat ≠ []) :
    find pat text = none ↔ ¬ pat <:+: text := by
  induction text with
  | nil => simp [find, hpat]
  | cons c text ih =>
    rw [find, List.infix_cons_iff, not_or, ← ih]
    split
    next hprefix => simp [List.isPrefixOf_iff_prefix.1 hprefix]
    next hprefix =>
      have hnot : ¬ pat <+: c :: text := fun h => hprefix (List.isPrefixOf_iff_prefix.2 h)
      simp [hnot]

theorem infix_joinLines {lines : List (List Char)} {line : List Char} (h : line ∈ lines) :
    line <:+: joinLines lines := by
  induction lines with
  | nil => cases h
  | cons first lines ih =>
    cases lines with
    | nil =>
      cases List.mem_singleton.1 h
      simp [joinLines]
    | cons second lines =>
      rw [joinLines_cons first (List.cons_ne_nil _ _)]
      rcases List.mem_cons.1 h with rfl | hmem
      · exact (List.prefix_append _ _).isInfix
      · exact (ih hmem).trans ((List.suffix_cons _ _).isInfix.trans (List.suffix_append _ _).isInfix)

/-- The early return of the escaping changes nothing. -/
theorem escapeMarkerLikeSourceLines_eq (source : List Char) :
    escapeMarkerLikeSourceLines codec source =
      joinLines ((splitLines source).map (escapeLine codec)) := by
  rw [escapeMarkerLikeSourceLines]
  split
  next hnone =>
    rw [Option.isNone_iff_eq_none, find_eq_none (by simp)] at hnone
    rw [List.map_congr_left (g := id), List.map_id, joinLines_splitLines]
    intro line hline
    rcases escapeLine_cases codec line with ⟨percents, cellType, index, htwo, -, rfl⟩ | ⟨-, heq⟩
    · obtain ⟨n, rfl⟩ : ∃ n, percents = n + 2 := ⟨percents - 2, by omega⟩
      refine absurd ?_ hnone
      have hpart := infix_joinLines hline
      rw [joinLines_splitLines] at hpart
      exact List.IsInfix.trans ⟨[], _, rfl⟩ hpart
    · exact heq
  next => rfl

end OhMyPi.Edit
