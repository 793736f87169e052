import OhMyPi.Edit.NotebookLemmas

/-! Editing a notebook through its text: a cell whose marker and body stand in the edited text as
they were read keeps its source and its other fields. -/

namespace OhMyPi.Edit

open Text KeyedList

variable {codec : Codec} {display : String}

/-! ## The text of a cell -/

/-- The source text of a cell. -/
def cellSource (cell : Json) : List Char := sourceToText (first "source" (cellFields cell))

/-- The lines a cell has in the editable text. -/
def cellLines (codec : Codec) (cell : Json) (index : Nat) : List (List Char) :=
  markerLine (cellTypeText cell) index ::
    if cellSource cell = [] then [] else (splitLines (cellSource cell)).map (escapeLine codec)

theorem cellLines_ne_nil (codec : Codec) (cell : Json) (index : Nat) :
    cellLines codec cell index ≠ [] := List.cons_ne_nil _ _

theorem cellText_eq (cell : Json) (index : Nat) :
    cellText codec cell index = joinLines (cellLines codec cell index) := by
  rw [cellText, ← cellSource, escapeMarkerLikeSourceLines_eq, cellLines]
  by_cases hempty : cellSource cell = []
  · rw [hempty]
    have hnil : joinLines ((splitLines []).map (escapeLine codec)) = [] := by
      rw [show splitLines [] = [[]] from rfl, List.map_singleton, escapeLine_eq_nil.2 rfl]
      rfl
    simp only [hnil, List.isEmpty_nil, if_true]
    simp [joinLines]
  · have hne : joinLines ((splitLines (cellSource cell)).map (escapeLine codec)) ≠ [] := by
      intro hnil
      apply hempty
      rw [← joinLines_splitLines (cellSource cell)]
      cases hsplit : splitLines (cellSource cell) with
      | nil => rfl
      | cons line lines =>
        rw [hsplit, List.map_cons] at hnil
        cases lines with
        | nil =>
          have hline : escapeLine codec line = [] := by simpa [joinLines] using hnil
          rw [escapeLine_eq_nil.1 hline]
          rfl
        | cons line' lines =>
          rw [joinLines_cons _ (by simp)] at hnil
          exact absurd (List.append_eq_nil_iff.1 hnil).2 (List.cons_ne_nil _ _)
    rw [if_neg hempty, joinLines_cons _ (by simp [splitLines, List.splitOn_ne_nil])]
    simp [hne]

theorem editableText_eq (cells : List Json) : editableText codec cells =
    joinLines (cells.zipIdx.flatMap fun p => cellLines codec p.1 p.2) := by
  rw [editableText, List.flatMap, ← joinLines_flatten, List.map_map]
  · congr 1
    apply List.map_congr_left
    intro p _
    exact cellText_eq p.1 p.2
  · intro block hblock
    obtain ⟨p, -, rfl⟩ := List.mem_map.1 hblock
    exact cellLines_ne_nil codec p.1 p.2

theorem cellTypeText_eq {cell : Json} {cellType : NotebookCellType}
    (h : cellTypeOf cell = some cellType) : cellTypeText cell = cellType.asStr.toList ∧
      first "cell_type" (cellFields cell) = some (.string cellType.asStr) := by
  have hparse : ∀ {s : String}, NotebookCellType.parse s = some cellType → s = cellType.asStr := by
    intro s hs
    rw [NotebookCellType.parse] at hs
    split at hs
    next heq => cases hs; exact heq
    next =>
      split at hs
      next heq => cases hs; exact heq
      next =>
        split at hs
        next heq => cases hs; exact heq
        next => cases hs
  cases cell with
  | object fields =>
    rw [cellTypeOf] at h
    obtain ⟨s, hs, htype⟩ := Option.bind_eq_some_iff.1 h
    obtain ⟨value, hvalue, hstr⟩ := Option.bind_eq_some_iff.1 hs
    cases value with
    | string text =>
      cases hstr
      rw [hparse htype] at hvalue
      refine ⟨?_, hvalue⟩
      rw [cellTypeText, cellFields, hvalue]
      rfl
    | null => cases hstr
    | bool b => cases hstr
    | number n => cases hstr
    | array items => cases hstr
    | object fields => cases hstr
  | null => cases h
  | bool b => cases h
  | number n => cases h
  | string text => cases h
  | array items => cases h

/-! ## Parsing the text -/

theorem parseUsize_toString {n : Nat} (h : n < 18446744073709551616) :
    parseUsize (toString n).toList = some n := by
  have hdigits : (toString n).toList = Nat.toDigits 10 n := Nat.toList_repr
  have hall : (Nat.toDigits 10 n).all Char.isDigit = true := by
    rw [List.all_eq_true]
    intro c hc
    exact Nat.isDigit_of_mem_toDigits (by decide) (by decide) hc
  have hne : (Nat.toDigits 10 n).isEmpty = false := by
    rw [List.isEmpty_eq_false_iff]
    exact Nat.toDigits_ne_nil
  rw [parseUsize, hdigits, hall, hne]
  simp only [Bool.not_false, Bool.and_self, if_true, foldl_toDigits]
  rw [if_pos h]

theorem cellMarker_markerLine (codec : Codec) (cellType : NotebookCellType) (index : Nat) :
    cellMarker codec (markerLine cellType.asStr.toList index) =
      some (cellType, some (toString index).toList) := by
  have hok : IndexOk codec (some (toString index).toList) := by
    intro digits hdigits
    cases hdigits
    have hlist : (toString index).toList = Nat.toDigits 10 index := Nat.toList_repr
    rw [hlist]
    refine ⟨Nat.toDigits_ne_nil, ?_⟩
    rw [List.all_eq_true]
    intro c hc
    exact codec.digit_ascii c (Nat.isDigit_of_mem_toDigits (by decide) (by decide) hc)
  have hform : markerLine cellType.asStr.toList index =
      markerForm 2 cellType (some (toString index).toList) := by
    cases cellType <;> rfl
  rw [hform, cellMarker, markerLike_markerForm hok]
  rfl

/-- The cell the text of a cell parses to. -/
def virtualCell (cell : Json) (index : Nat) : ParsedVirtualCell :=
  { cellType := (cellTypeOf cell).getD .code, cellIndex := some index, source := cellSource cell }

theorem parseLines_marker {line : List Char} {cellType : NotebookCellType}
    {digits : Option (List Char)} (h : cellMarker codec line = some (cellType, digits))
    (lines : List (List Char)) (current : Option CurrentCell) (cells : List ParsedVirtualCell) :
    parseLines codec display (line :: lines) current cells =
      parseLines codec display lines (some (cellType, digits.bind parseUsize, []))
        (cells ++ (current.map CurrentCell.finish).toList) := by
  simp only [parseLines, h]

theorem parseLines_source {line : List Char} (h : cellMarker codec line = none)
    (lines : List (List Char)) (cellType : NotebookCellType) (index : Option Nat)
    (source : List (List Char)) (cells : List ParsedVirtualCell) :
    parseLines codec display (line :: lines) (some (cellType, index, source)) cells =
      parseLines codec display lines
        (some (cellType, index, source ++ [unescapeMarkerLikeLine codec line])) cells := by
  simp only [parseLines, h]

theorem parseLines_stray {line : List Char} (h : cellMarker codec line = none)
    (lines : List (List Char)) (cells : List ParsedVirtualCell) :
    parseLines codec display (line :: lines) none cells = .error (.invalidEditableText display) := by
  simp only [parseLines, h]

theorem parseLines_body {body : List (List Char)}
    (h : ∀ line ∈ body, cellMarker codec line = none) (rest : List (List Char))
    (cellType : NotebookCellType) (index : Option Nat) (source : List (List Char))
    (cells : List ParsedVirtualCell) :
    parseLines codec display (body ++ rest) (some (cellType, index, source)) cells =
      parseLines codec display rest
        (some (cellType, index, source ++ body.map (unescapeMarkerLikeLine codec))) cells := by
  induction body generalizing source with
  | nil => rw [List.nil_append, List.map_nil, List.append_nil]
  | cons line body ih =>
    rw [List.cons_append, parseLines_source (h line List.mem_cons_self),
      ih (fun other hother => h other (List.mem_cons_of_mem _ hother)), List.map_cons,
      List.append_assoc, List.singleton_append]

/-- A cell's lines, in any text, parse to the cell. -/
theorem parseLines_cellLines {cell : Json} {index : Nat} (htype : (cellTypeOf cell).isSome = true)
    (hindex : index < 18446744073709551616) (rest : List (List Char))
    (current : Option CurrentCell) (cells : List ParsedVirtualCell) :
    ∃ current' : CurrentCell, current'.finish = virtualCell cell index ∧
      parseLines codec display (cellLines codec cell index ++ rest) current cells =
        parseLines codec display rest (some current')
          (cells ++ (current.map CurrentCell.finish).toList) := by
  obtain ⟨cellType, htype⟩ := Option.isSome_iff_exists.1 htype
  have hmarker : ∀ body, parseLines codec display
      (markerLine (cellTypeText cell) index :: body) current cells =
        parseLines codec display body (some (cellType, some index, []))
          (cells ++ (current.map CurrentCell.finish).toList) := by
    intro body
    rw [(cellTypeText_eq htype).1, parseLines_marker (cellMarker_markerLine codec cellType index),
      Option.bind_some, parseUsize_toString hindex]
  rw [cellLines, List.cons_append, hmarker]
  by_cases hempty : cellSource cell = []
  · refine ⟨(cellType, some index, []), ?_, by rw [if_pos hempty, List.nil_append]⟩
    rw [CurrentCell.finish, virtualCell, hempty, htype]
    rfl
  · refine ⟨(cellType, some index, splitLines (cellSource cell)), ?_, ?_⟩
    · rw [CurrentCell.finish, virtualCell, joinLines_splitLines, htype]
      rfl
    · have hbody : ∀ line ∈ (splitLines (cellSource cell)).map (escapeLine codec),
          cellMarker codec line = none := by
        intro line hline
        obtain ⟨source, -, rfl⟩ := List.mem_map.1 hline
        exact cellMarker_escapeLine source
      have hsource : ((splitLines (cellSource cell)).map (escapeLine codec)).map
          (unescapeMarkerLikeLine codec) = splitLines (cellSource cell) := by
        rw [List.map_map]
        exact (List.map_congr_left fun line _ => unescape_escapeLine line).trans (List.map_id _)
      rw [if_neg hempty, parseLines_body hbody, List.nil_append, hsource]

/-- A text with a cell in it parses as its lines. -/
theorem parse_joinLines {cell : Json} {index : Nat} {lines : List (List Char)}
    (hcell : ∀ line ∈ cellLines codec cell index, line ∈ lines)
    (hlines : ∀ line ∈ lines, '\n' ∉ line) :
    parseNotebookEditableText codec (joinLines lines) display =
      parseLines codec display lines none [] := by
  have hmarker : markerLine (cellTypeText cell) index ∈ lines := hcell _ List.mem_cons_self
  have hempty : (joinLines lines).isEmpty = false := by
    rw [List.isEmpty_eq_false_iff]
    intro hnil
    have hpart := infix_joinLines hmarker
    rw [hnil, List.infix_nil] at hpart
    cases hpart
  rw [parseNotebookEditableText, hempty, if_neg (by decide),
    splitLines_joinLines hlines (List.ne_nil_of_mem hmarker)]

/-- The whole text parses to the cells in order. -/
theorem parseLines_cells {cells : List Json} {start : Nat}
    (htypes : ∀ cell ∈ cells, (cellTypeOf cell).isSome = true)
    (hsize : start + cells.length ≤ 18446744073709551616) (current : Option CurrentCell)
    (parsed : List ParsedVirtualCell) :
    parseLines codec display ((cells.zipIdx start).flatMap fun p => cellLines codec p.1 p.2) current
      parsed = .ok (parsed ++ (current.map CurrentCell.finish).toList ++
        (cells.zipIdx start).map fun p => virtualCell p.1 p.2) := by
  induction cells generalizing start current parsed with
  | nil => simp [parseLines]
  | cons cell cells ih =>
    rw [List.length_cons] at hsize
    obtain ⟨current', hfinish, hparse⟩ := @parseLines_cellLines codec display cell start
      (htypes cell List.mem_cons_self) (by omega)
      ((cells.zipIdx (start + 1)).flatMap fun p => cellLines codec p.1 p.2) current parsed
    rw [List.zipIdx_cons, List.flatMap_cons, hparse,
      ih (fun other hother => htypes other (List.mem_cons_of_mem _ hother)) (by omega)]
    simp [hfinish]

/-- Cells that are finished stay. -/
theorem append_of_parseLines {lines : List (List Char)} {current : Option CurrentCell}
    {cells parsed : List ParsedVirtualCell}
    (h : parseLines codec display lines current cells = .ok parsed) :
    ∃ rest, parsed = cells ++ rest := by
  induction lines generalizing current cells with
  | nil =>
    cases h
    exact ⟨_, rfl⟩
  | cons line lines ih =>
    cases hmarker : cellMarker codec line with
    | some marker =>
      rw [parseLines_marker hmarker] at h
      obtain ⟨rest, hrest⟩ := ih h
      exact ⟨_, hrest.trans (List.append_assoc ..)⟩
    | none =>
      cases current with
      | none =>
        rw [parseLines_stray hmarker] at h
        cases h
      | some current =>
        rw [parseLines_source hmarker] at h
        exact ih h

/-- The number of cells that begin in some lines. -/
def countMarkers (codec : Codec) (lines : List (List Char)) : Nat :=
  lines.countP fun line => (cellMarker codec line).isSome

/-- Whether no marker among some lines names a cell. -/
def Unnamed (codec : Codec) (lines : List (List Char)) (index : Nat) : Prop :=
  ∀ line ∈ lines, ∀ cellType digits, cellMarker codec line = some (cellType, some digits) →
    parseUsize digits ≠ some index

/-- The lines before a cell parse to cells before it, or to nothing. -/
theorem parseLines_before (codec : Codec) (display : String) {index : Nat}
    {before : List (List Char)} (hbefore : Unnamed codec before index)
    (current : Option CurrentCell) (cells : List ParsedVirtualCell)
    (hold : ∀ cell ∈ cells ++ (current.map CurrentCell.finish).toList,
      cell.cellIndex ≠ some index) :
    (∃ e, ∀ rest, parseLines codec display (before ++ rest) current cells = .error e) ∨
    ∃ current' cells', (∀ rest, parseLines codec display (before ++ rest) current cells =
        parseLines codec display rest current' cells') ∧
      (cells' ++ (current'.map CurrentCell.finish).toList).length =
        (cells ++ (current.map CurrentCell.finish).toList).length + countMarkers codec before ∧
      ∀ cell ∈ cells' ++ (current'.map CurrentCell.finish).toList, cell.cellIndex ≠ some index := by
  induction before generalizing current cells with
  | nil => exact .inr ⟨current, cells, fun _ => rfl, rfl, hold⟩
  | cons line before ih =>
    have htail : Unnamed codec before index := fun other hother =>
      hbefore other (List.mem_cons_of_mem _ hother)
    cases hmarker : cellMarker codec line with
    | some marker =>
      obtain ⟨cellType, digits⟩ := marker
      have hstep : ∀ rest, parseLines codec display (line :: before ++ rest) current cells =
          parseLines codec display (before ++ rest) (some (cellType, digits.bind parseUsize, []))
            (cells ++ (current.map CurrentCell.finish).toList) := by
        intro rest
        rw [List.cons_append, parseLines_marker hmarker]
      have hnew : ∀ cell ∈ cells ++ (current.map CurrentCell.finish).toList ++
          ((some (cellType, digits.bind parseUsize, []) : Option CurrentCell).map
            CurrentCell.finish).toList, cell.cellIndex ≠ some index := by
        intro cell hcell
        rcases List.mem_append.1 hcell with hmem | hmem
        · exact hold cell hmem
        · cases List.mem_singleton.1 hmem
          cases digits with
          | none =>
            intro heq
            cases heq
          | some digits => exact hbefore line List.mem_cons_self cellType digits hmarker
      rcases ih htail _ _ hnew with ⟨e, he⟩ | ⟨current', cells', hparse, hlength, hcells⟩
      · exact .inl ⟨e, fun rest => (hstep rest).trans (he rest)⟩
      · refine .inr ⟨current', cells', fun rest => (hstep rest).trans (hparse rest), ?_, hcells⟩
        rw [hlength, List.length_append, Option.map_some, Option.toList_some,
          List.length_singleton, countMarkers, countMarkers, List.countP_cons_of_pos (by simp [hmarker])]
        omega
    | none =>
      have hcount : countMarkers codec (line :: before) = countMarkers codec before := by
        rw [countMarkers, List.countP_cons_of_neg (by simp [hmarker])]
        rfl
      cases current with
      | none =>
        refine .inl ⟨.invalidEditableText display, fun rest => ?_⟩
        rw [List.cons_append, parseLines_stray hmarker]
      | some current =>
        obtain ⟨cellType, index', source⟩ := current
        have hstep : ∀ rest, parseLines codec display (line :: before ++ rest)
            (some (cellType, index', source)) cells = parseLines codec display (before ++ rest)
              (some (cellType, index', source ++ [unescapeMarkerLikeLine codec line])) cells := by
          intro rest
          rw [List.cons_append, parseLines_source hmarker]
        have hnew : ∀ cell ∈ cells ++ ((some (cellType, index',
            source ++ [unescapeMarkerLikeLine codec line]) : Option CurrentCell).map
              CurrentCell.finish).toList, cell.cellIndex ≠ some index := by
          intro cell hcell
          rcases List.mem_append.1 hcell with hmem | hmem
          · exact hold cell (List.mem_append_left _ hmem)
          · cases List.mem_singleton.1 hmem
            exact hold (CurrentCell.finish (cellType, index', source))
              (List.mem_append_right _ (List.mem_singleton_self _))
        rcases ih htail _ _ hnew with ⟨e, he⟩ | ⟨current', cells', hparse, hlength, hcells⟩
        · exact .inl ⟨e, fun rest => (hstep rest).trans (he rest)⟩
        · refine .inr ⟨current', cells', fun rest => (hstep rest).trans (hparse rest), ?_, hcells⟩
          rw [hlength, hcount]
          simp

/-- A cell whose lines stand in an edited text, before the next marker, is parsed as it was read. -/
theorem parseLines_untouched {cell : Json} {index : Nat} {before after : List (List Char)}
    {parsed : List ParsedVirtualCell} (htype : (cellTypeOf cell).isSome = true)
    (hindex : index < 18446744073709551616) (hbefore : Unnamed codec before index)
    (hafter : ∀ line ∈ after.head?, (cellMarker codec line).isSome = true)
    (h : parseLines codec display (before ++ (cellLines codec cell index ++ after)) none [] =
      .ok parsed) :
    ∃ front back, parsed = front ++ virtualCell cell index :: back ∧
      front.length = countMarkers codec before ∧ ∀ other ∈ front, other.cellIndex ≠ some index := by
  rcases parseLines_before codec display hbefore none [] (by simp) with
    ⟨e, he⟩ | ⟨current, cells, hparse, hlength, hcells⟩
  · rw [he] at h
    cases h
  · obtain ⟨current', hfinish, hcell⟩ := @parseLines_cellLines codec display cell index htype hindex
      after current cells
    rw [hparse, hcell] at h
    refine ⟨cells ++ (current.map CurrentCell.finish).toList, ?_⟩
    have hfront : (cells ++ (current.map CurrentCell.finish).toList).length =
        countMarkers codec before := by
      rw [hlength]
      simp
    cases after with
    | nil =>
      cases h
      refine ⟨[], ?_, hfront, hcells⟩
      rw [Option.map_some, hfinish]
      rfl
    | cons line after =>
      obtain ⟨marker, hmarker⟩ := Option.isSome_iff_exists.1 (hafter line rfl)
      rw [parseLines_marker hmarker] at h
      obtain ⟨rest, hrest⟩ := append_of_parseLines h
      refine ⟨rest, ?_, hfront, hcells⟩
      rw [hrest, Option.map_some, hfinish, List.append_assoc]
      rfl

/-! ## Applying the text -/

theorem length_nextCells (originals : List Json) (used : List Nat)
    (parsed : List ParsedVirtualCell) :
    (nextCells originals used parsed).length = parsed.length := by
  induction parsed generalizing used with
  | nil => rfl
  | cons cell parsed ih =>
    rw [nextCells]
    split
    · rw [List.length_cons, ih, List.length_cons]
    · rw [List.length_cons, ih, List.length_cons]

/-- The first cell to name an original takes it over. -/
theorem nextCells_takes {originals : List Json} {index : Nat} {cell : ParsedVirtualCell}
    (hcell : cell.cellIndex = some index) (hindex : index < originals.length)
    {front : List ParsedVirtualCell} (hfront : ∀ other ∈ front, other.cellIndex ≠ some index)
    (back : List ParsedVirtualCell) {used : List Nat} (hused : index ∉ used) :
    (nextCells originals used (front ++ cell :: back))[front.length]? =
      some (.object (updateCell (cellFields (originals.getD index .null)) cell)) := by
  induction front generalizing used with
  | nil =>
    have hfilter : (cell.cellIndex.filter fun index =>
        index < originals.length && !used.contains index) = some index := by
      rw [hcell, Option.filter_some, if_pos]
      simp [hindex, hused]
    rw [List.nil_append, nextCells, hfilter]
    rfl
  | cons other front ih =>
    have hother := hfront other List.mem_cons_self
    have htail := fun c hc => hfront c (List.mem_cons_of_mem other hc)
    rw [List.cons_append, nextCells]
    split
    next taken hfilter =>
      rw [List.length_cons, List.getElem?_cons_succ]
      apply ih htail
      rw [List.mem_cons, not_or]
      refine ⟨?_, hused⟩
      intro heq
      have hsome := (Option.filter_eq_some_iff.1 hfilter).1
      exact hother (hsome.trans (congrArg some heq.symm))
    next =>
      rw [List.length_cons, List.getElem?_cons_succ]
      exact ih htail hused

/-- A cell of the new notebook keeps a cell of the old one: its type, its source text and its other
fields. A code cell has its execution count and outputs, the defaults where the old cell had none;
other cells have neither. -/
structure KeepsCell (cell cell' : Json) : Prop where
  cellType : cellTypeOf cell' = cellTypeOf cell
  source : cellSource cell' = cellSource cell
  fields : ∀ key, key ≠ "source" → key ≠ "execution_count" → key ≠ "outputs" →
    first key (cellFields cell') = first key (cellFields cell)
  code : cellTypeOf cell = some .code →
    first "execution_count" (cellFields cell') =
      (if isAbsent (first "execution_count" (cellFields cell)) then some .null
        else first "execution_count" (cellFields cell)) ∧
    first "outputs" (cellFields cell') =
      (if isAbsent (first "outputs" (cellFields cell)) then some (.array [])
        else first "outputs" (cellFields cell))
  other : cellTypeOf cell ≠ some .code → first "execution_count" (cellFields cell') = none ∧
    first "outputs" (cellFields cell') = none

theorem sourceToText_sourceValue (source : List Char) :
    sourceToText (some (sourceValue source)) = source := by
  have hstr : ((splitNotebookSource source).map fun line =>
      Json.string (String.ofList line)).filterMap Json.asStr =
        (splitNotebookSource source).map String.ofList := by
    rw [List.filterMap_map]
    exact List.filterMap_eq_map_iff_forall_eq_some.2 fun _ _ => rfl
  have hlist : ((splitNotebookSource source).map String.ofList).flatMap String.toList =
      (splitNotebookSource source).flatten := by
    rw [List.flatMap_map, List.flatMap]
    congr 1
    exact (List.map_congr_left fun line _ => String.toList_ofList).trans (List.map_id _)
  calc sourceToText (some (sourceValue source))
    _ = (splitNotebookSource source).flatten := by
        rw [sourceValue, sourceToText, hstr, hlist]
    _ = source := flatten_textLines source

/-- The edited form of an untouched cell. -/
theorem keepsCell_updateCell {cell : Json} (htype : (cellTypeOf cell).isSome = true)
    (hmap : ((cellFields cell).map Prod.fst).Nodup) (index : Nat) :
    KeepsCell cell (.object (updateCell (cellFields cell) (virtualCell cell index))) := by
  obtain ⟨cellType, htype⟩ := Option.isSome_iff_exists.1 htype
  have htypeField := (cellTypeText_eq htype).2
  let edited := assign "source" (sourceValue (cellSource cell))
    (assign "cell_type" (.string cellType.asStr) (cellFields cell))
  have hedited : ∀ key, key ≠ "source" → first key edited = first key (cellFields cell) := by
    intro key hkey
    rw [first_assign_ne hkey]
    by_cases hkey' : key = "cell_type"
    · rw [hkey', first_assign_self, htypeField]
    · rw [first_assign_ne hkey']
  have hsource : first "source" edited = some (sourceValue (cellSource cell)) :=
    first_assign_self ..
  have hnodup : (edited.map Prod.fst).Nodup := nodup_assign (nodup_assign hmap)
  have hexecution := hedited "execution_count" (by decide)
  have houtputs := hedited "outputs" (by decide)
  -- the two fields of code cells, and everything else, after the update
  have hupdate : (∀ key, key ≠ "execution_count" → key ≠ "outputs" →
      first key (updateCell (cellFields cell) (virtualCell cell index)) = first key edited) ∧
      (cellType = .code →
        first "execution_count" (updateCell (cellFields cell) (virtualCell cell index)) =
          (if isAbsent (first "execution_count" (cellFields cell)) then some .null
            else first "execution_count" (cellFields cell)) ∧
        first "outputs" (updateCell (cellFields cell) (virtualCell cell index)) =
          (if isAbsent (first "outputs" (cellFields cell)) then some (.array [])
            else first "outputs" (cellFields cell))) ∧
      (cellType ≠ .code →
        first "execution_count" (updateCell (cellFields cell) (virtualCell cell index)) = none ∧
        first "outputs" (updateCell (cellFields cell) (virtualCell cell index)) = none) := by
    have hdef : updateCell (cellFields cell) (virtualCell cell index) =
        if cellType = .code then
          let counted := if isAbsent (first "execution_count" edited) then
            assign "execution_count" .null edited else edited
          if isAbsent (first "outputs" counted) then assign "outputs" (.array []) counted else counted
        else swapRemove "outputs" (swapRemove "execution_count" edited) := by
      rw [updateCell, virtualCell, htype]
      rfl
    rw [hdef]
    by_cases hcode : cellType = .code
    · rw [if_pos hcode]
      let counted := if isAbsent (first "execution_count" edited) then
        assign "execution_count" .null edited else edited
      have hcounted : ∀ key, key ≠ "execution_count" → first key counted = first key edited := by
        intro key hkey
        simp only [counted]
        split
        · exact first_assign_ne hkey _ _
        · rfl
      have hcount : first "execution_count" counted =
          if isAbsent (first "execution_count" (cellFields cell)) then some .null
            else first "execution_count" (cellFields cell) := by
        rw [← hexecution]
        simp only [counted]
        split
        · exact first_assign_self ..
        · rfl
      have hfinal : ∀ key, key ≠ "outputs" → first key (if isAbsent (first "outputs" counted) then
          assign "outputs" (.array []) counted else counted) = first key counted := by
        intro key hkey
        split
        · exact first_assign_ne hkey _ _
        · rfl
      refine ⟨?_, ?_, fun hne => absurd hcode hne⟩
      · intro key hkey hkey'
        exact (hfinal key hkey').trans (hcounted key hkey)
      · intro _
        refine ⟨(hfinal _ (by decide)).trans hcount, ?_⟩
        have hout := (hcounted "outputs" (by decide)).trans houtputs
        rw [← hout]
        change first "outputs" (if isAbsent (first "outputs" counted) then
          assign "outputs" (.array []) counted else counted) = _
        split
        · exact first_assign_self ..
        · rfl
    · rw [if_neg hcode]
      have hremoved := @nodup_swapRemove _ _ _ "execution_count" _ hnodup
      refine ⟨?_, fun heq => absurd heq hcode, ?_⟩
      · intro key hkey hkey'
        rw [first_swapRemove_ne hkey' hremoved, first_swapRemove_ne hkey hnodup]
      · intro _
        refine ⟨?_, first_swapRemove_self hremoved⟩
        rw [first_swapRemove_ne (by decide) hremoved]
        exact first_swapRemove_self hnodup
  obtain ⟨hrest, hcode, hother⟩ := hupdate
  refine ⟨?_, ?_, ?_, ?_, ?_⟩
  · have hfield : first "cell_type" (updateCell (cellFields cell) (virtualCell cell index)) =
        some (.string cellType.asStr) := by
      rw [hrest _ (by decide) (by decide), hedited _ (by decide), htypeField]
    rw [cellTypeOf, hfield, htype]
    cases cellType <;> rfl
  · rw [cellSource, cellFields, hrest _ (by decide) (by decide), hsource, sourceToText_sourceValue]
  · intro key hkey hkey' hkey''
    rw [cellFields, hrest key hkey' hkey'', hedited key hkey]
  · intro heq
    rw [htype] at heq
    exact hcode (Option.some.inj heq)
  · intro hne
    rw [htype] at hne
    exact hother fun heq => hne (congrArg some heq)

/-! ## Reading and persisting -/

theorem isSome_of_validateCells {cells : List Json} {start : Nat}
    (h : validateCells display cells start = .ok ()) :
    ∀ cell ∈ cells, (cellTypeOf cell).isSome = true := by
  induction cells generalizing start with
  | nil =>
    intro cell hcell
    cases hcell
  | cons first cells ih =>
    rw [validateCells] at h
    split at h
    next hsome =>
      intro cell hcell
      rcases List.mem_cons.1 hcell with rfl | hmem
      · exact hsome
      · exact ih h cell hmem
    next => cases h

theorem isSome_of_validateNotebook {notebook : Json} {fields : List (String × Json)}
    {cells : List Json} (h : validateNotebook notebook display = .ok (fields, cells)) :
    ∀ cell ∈ cells, (cellTypeOf cell).isSome = true := by
  cases notebook with
  | object fields' =>
    rw [validateNotebook] at h
    cases hcells : (first "cells" fields').bind Json.asArray with
    | none =>
      rw [hcells] at h
      cases h
    | some cells' =>
      rw [hcells] at h
      obtain ⟨_, hvalid, hpure⟩ := Except.bind_eq_ok.1 h
      cases hpure
      exact isSome_of_validateCells hvalid
  | null => cases h
  | bool b => cases h
  | number n => cases h
  | string text => cases h
  | array items => cases h

theorem mem_cellLines {cell : Json} {index : Nat} {line : List Char}
    (hline : line ∈ cellLines codec cell index) :
    line = markerLine (cellTypeText cell) index ∨
      ∃ source ∈ splitLines (cellSource cell), line = escapeLine codec source := by
  rcases List.mem_cons.1 hline with rfl | hmem
  · exact .inl rfl
  · split at hmem
    · cases hmem
    · obtain ⟨source, hsource, rfl⟩ := List.mem_map.1 hmem
      exact .inr ⟨source, hsource, rfl⟩

/-- A marker line is on one line. -/
theorem oneLine_markerLine (cellType : NotebookCellType) (index : Nat) :
    OneLine (markerLine cellType.asStr.toList index) := by
  have htype : OneLine ("# %% [".toList ++ cellType.asStr.toList ++ "] cell:".toList) := by
    apply any_isEol_eq_false.1
    cases cellType <;> rfl
  apply htype.append
  intro c hc
  have hdigit : c.isDigit = true := by
    rw [show (toString index).toList = Nat.toDigits 10 index from Nat.toList_repr] at hc
    exact Nat.isDigit_of_mem_toDigits (by decide) (by decide) hc
  constructor
  · rintro rfl
    cases hdigit
  · rintro rfl
    cases hdigit

theorem newline_not_mem_cellLines {cell : Json} (htype : (cellTypeOf cell).isSome = true)
    {index : Nat} : ∀ line ∈ cellLines codec cell index, '\n' ∉ line := by
  obtain ⟨cellType, htype⟩ := Option.isSome_iff_exists.1 htype
  intro line hline
  rcases mem_cellLines hline with rfl | ⟨source, hsource, rfl⟩
  · rw [(cellTypeText_eq htype).1]
    exact (oneLine_markerLine cellType index).newline_not_mem
  · rw [mem_escapeLine (by decide)]
    exact not_newline_mem_splitLines _ source hsource

theorem cr_not_mem_cellLines {cell : Json} (htype : (cellTypeOf cell).isSome = true) {index : Nat}
    (hcr : '\r' ∉ cellSource cell) : ∀ line ∈ cellLines codec cell index, '\r' ∉ line := by
  obtain ⟨cellType, htype⟩ := Option.isSome_iff_exists.1 htype
  intro line hline
  rcases mem_cellLines hline with rfl | ⟨source, hsource, rfl⟩
  · rw [(cellTypeText_eq htype).1]
    exact fun hmem => (oneLine_markerLine cellType index _ hmem).2 rfl
  · rw [mem_escapeLine (by decide)]
    intro hmem
    have hpart := infix_joinLines hsource
    rw [joinLines_splitLines] at hpart
    exact hcr (hpart.subset hmem)

section

variable {cache cache' : FileCache} {host : Host} {disk : String → Option DiskFile}
  {resolved : Resolved} {stamp : Stamp} {b : List UInt8} {read : FileRead} {notebook : Json}
  {fields : List (String × Json)} {cells : List Json}

theorem load_notebook (hload : (host.withNotebooks codec).load resolved b = .ok read)
    (hpath : host.isNotebookPath resolved.absolute = true)
    (hparse : codec.parse (stripBom (lossy b)).2 = some notebook)
    (hvalid : validateNotebook notebook resolved.display = .ok (fields, cells)) :
    read.isNotebook = true ∧ read.raw = lossy b ∧ read.resolved = resolved ∧
      read.text = normalizeToLf (editableText codec cells) := by
  have htext : notebookToEditableText codec (lossy b) resolved.display =
      .ok (editableText codec cells) := by
    rw [notebookToEditableText, hparse]
    exact Except.bind_eq_ok.2 ⟨_, hvalid, rfl⟩
  rw [Host.load] at hload
  cases hauto : (host.withNotebooks codec).autoGeneratedMessage resolved.display (b.take 1024) with
  | some message =>
    rw [hauto] at hload
    cases hload
  | none =>
    rw [hauto] at hload
    simp only [Host.withNotebooks, hpath, if_true, htext, messaged] at hload
    cases hload
    exact ⟨rfl, rfl, rfl, rfl⟩

/-- What persisting an edited text comes to. -/
theorem persist_notebook (hnotebook : read.isNotebook = true) (hraw : read.raw = lossy b)
    (hparse : codec.parse (stripBom (lossy b)).2 = some notebook)
    (hvalid : validateNotebook notebook read.resolved.display = .ok (fields, cells))
    (text : List Char) : read.persist (host.withNotebooks codec) text =
      match parseNotebookEditableText codec text read.resolved.display with
      | .ok parsed => .ok (stringifyIndent1 codec
          (.object (assign "cells" (.array (nextCells cells [] parsed)) fields)))
      | .error e => .error (.apply e.message) := by
  have happly : applyNotebookEditableText codec notebook text read.resolved.display =
      (parseNotebookEditableText codec text read.resolved.display).map fun parsed =>
        .object (assign "cells" (.array (nextCells cells [] parsed)) fields) := by
    rw [applyNotebookEditableText, hvalid]
    rfl
  rw [FileRead.persist, if_pos hnotebook]
  have hok (f : Json → Except NotebookError (List Char)) : (Except.ok notebook >>= f) = f notebook := rfl
  simp only [Host.withNotebooks, serializeEditedNotebookText, hraw, hparse, hok, happly]
  cases parseNotebookEditableText codec text read.resolved.display with
  | error e => rfl
  | ok parsed => rfl

end

/-- A notebook with one cell. -/
def rawNotebook : Json :=
  .object [("cells", .array [.object [("cell_type", .string "raw"), ("source", .string "a")]])]

def rawText : List Char :=
  "\x7b\"cells\":[\x7b\"cell_type\":\"raw\",\"source\":\"a\"\x7d]\x7d".toList

/-- A codec that knows one document. -/
def sampleCodec : Codec where
  parse text := if text = rawText then some rawNotebook else none
  number
    | .posInt n => (toString n).toList
    | .negInt n => (toString n).toList
    | .float _ => []
  digit := Char.isDigit
  digit_ascii _ h := h

def notebookHost : Host := { plainHost with isNotebookPath := fun _ => true }

end OhMyPi.Edit
