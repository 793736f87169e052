import OhMyPi.Edit.Hunks
import OhMyPi.Edit.Sequence

/-! Applying the hunks of a patch to a text (`apply_hunks`). A hunk without anything that places it
is matched as one text; all others are placed among the lines, in the order of the hunks. -/

namespace OhMyPi.Edit

open Text

inductive PatchError
  | lineHintZero
  | hintOutOfRange (hint : Nat)
  | ambiguousContext (count : Nat)
  | contextNotFound
  | ambiguousText (count : Nat)
  | textNotFound
  | secondOccurrence (first second : Nat)
  | partialLine (line : Nat) (discarded : List Char)
  | overlapping (left right : Nat)
  | occurrences (count : Nat)
  | fuzzyMatches (count : Nat)
  | noMatch
deriving DecidableEq, Repr

inductive Warning (F : Type)
  | dominant (line : Nat) (confidence : F)
  | inexact (line : Nat) (strategy : SequenceMatchStrategy) (confidence : F)

/-- What the loop has when it pushes a replacement. -/
structure Placement where
  start : Nat
  pattern : List (List Char)
  newLines : List (List Char)
  strategy : Option SequenceMatchStrategy
deriving DecidableEq, Repr

/-- `matched`: the lines of the file that a placement stands for. -/
def Placement.matched (lines : List (List Char)) (p : Placement) : List (List Char) :=
  (lines.drop p.start).take p.pattern.length

structure LineReplacement where
  startIndex : Nat
  oldLen : Nat
  newLines : List (List Char)
deriving DecidableEq, Repr

def Placement.replacement (lines : List (List Char)) (p : Placement) : LineReplacement :=
  ⟨p.start, p.pattern.length,
    if p.pattern.isEmpty then p.newLines
    else adjustLinesIndentation p.pattern (p.matched lines) p.newLines⟩

/-! ## The guard -/

/-- The part of a file line that a replacement would drop. -/
def discarded (newNormalized : List Char) (expected actual : List Char) : Option (List Char) :=
  let actual := normalizeForFuzzy actual
  let expected := normalizeForFuzzy expected
  if actual = expected then none
  else
    match find expected actual with
    | none => none
    | some place =>
      [trim (actual.take place), trim (actual.drop (place + expected.length))].find? fun part =>
        !part.isEmpty && !contains newNormalized part

def assertPartialMatch (pattern matched newLines : List (List Char)) (start : Nat) :
    Except PatchError Unit :=
  let newNormalized := joinLines (newLines.map normalizeForFuzzy)
  match ((pattern.zip matched).zipIdx).findSome? fun ((expected, actual), offset) =>
      (discarded newNormalized expected actual).map fun part => (offset, part) with
  | some (offset, part) => .error (.partialLine (start + offset + 1) part)
  | none => .ok ()

section

variable (A : Arith) (nfc : List Char → List Char)

/-! ## Placing -/

def more (count : Option Nat) : Bool := count.any (1 < ·)

def findSequenceWithHint (lines pattern : List (List Char)) (current : Nat) (hint : Option Nat)
    (eof allowFuzzy : Bool) : SequenceSearchResult A.F :=
  let seek (start : Nat) := seekSequence A nfc lines pattern start eof allowFuzzy
  let hit (result : SequenceSearchResult A.F) : Bool := result.index.isSome || more result.matchCount
  let primary := seek current
  let hinted := (hint.filter (· ≠ current)).map seek
  match if more primary.matchCount then hinted.filter hit else none with
  | some result => result
  | none =>
    if hit primary then primary
    else
      match hinted.filter hit with
      | some result => result
      | none => if current ≠ 0 ∧ hit (seek 0) = true then seek 0 else primary

def attemptSequenceFallback (lines : List (List Char)) (hunk : DiffHunk) (current : Nat)
    (hint : Option Nat) (allowFuzzy aggressive : Bool) : Option Nat :=
  if hunk.oldLines.isEmpty then none
  else
    let result := findSequenceWithHint A nfc lines hunk.oldLines current hint false allowFuzzy
    match result.index.filter fun _ => result.matchCount.getD 1 ≤ 1 with
    | some found =>
      if found + 1 ≤ lines.length - hunk.oldLines.length ∧
          (seekSequence A nfc lines hunk.oldLines (found + 1) false allowFuzzy).index.isSome = true then
        none
      else some found
    | none =>
      (fallbackVariants hunk aggressive).findSome? fun variant =>
        if variant.oldLines.isEmpty then none
        else
          let result := findSequenceWithHint A nfc lines variant.oldLines current hint false allowFuzzy
          if result.matchCount.getD 1 ≤ 1 then result.index else none

/-- The words of a context as an outer and an inner one. -/
def spaceHierarchy (lines : List (List Char)) (parts : List (List Char)) (start : Nat)
    (allowFuzzy : Bool) : Option (ContextLineResult A.F) :=
  if parts.length < 2 then none
  else
    let outer := [' '].intercalate parts.dropLast
    let inner := parts.getLastD []
    let outerResult := findContextLine A nfc lines outer start allowFuzzy
    if more outerResult.matchCount then some { outerResult with index := none }
    else
      outerResult.index.map fun outerIndex =>
        let innerResult := findContextLine A nfc lines inner (outerIndex + 1) allowFuzzy
        if more innerResult.matchCount then
          { innerResult with
            matchCount := some 1
            matchIndices := (innerResult.index.map fun index => [index]).or innerResult.matchIndices }
        else innerResult

/-- The only place, once a hint has decided. -/
def ContextLineResult.decided {F : Type} (r : ContextLineResult F) : ContextLineResult F :=
  { r with matchCount := some 1, matchIndices := r.index.map fun index => [index] }

/-- The lines of a context one below the other. -/
def contextLines (lines : List (List Char)) (hint : Option Nat) (allowFuzzy : Bool) :
    Nat → List (List Char) → ContextLineResult A.F
  | _, [] => noContextMatch (A.lit 0)
  | current, part :: parts =>
    let result := findContextLine A nfc lines part current allowFuzzy
    let hinted : Option (ContextLineResult A.F) :=
      if parts.isEmpty && (result.index.isNone || more result.matchCount) then
        ((hint.map (· - 1)).filter (current ≤ ·)).bind fun start =>
          some (findContextLine A nfc lines part start allowFuzzy)
      else none
    match hinted.filter (·.index.isSome) with
    | some result => result.decided
    | none =>
      match result.index with
      | none => result
      | some found =>
        if more result.matchCount then { result with index := none }
        else if parts.isEmpty then result
        else contextLines lines hint allowFuzzy (found + 1) parts

def hasSignature (context : List Char) : Bool :=
  context.any fun c => c = '(' || c = ')' || c = '\x7b' || c = '\x7d' || c = '[' || c = ']'

/-- A context as it stands, and from the start of the file where it is not below. -/
def findPlainContext (lines : List (List Char)) (context : List Char) (start : Nat)
    (hint : Option Nat) (allowFuzzy : Bool) : ContextLineResult A.F :=
  let words := splitWhitespace context
  let result := findContextLine A nfc lines context start allowFuzzy
  let hinted : Option (ContextLineResult A.F) :=
    if result.index.isNone || more result.matchCount then
      hint.map fun hint => findContextLine A nfc lines context (hint - 1) allowFuzzy
    else none
  match hinted.filter (·.index.isSome) with
  | some result => result.decided
  | none =>
    if result.index.isSome || more result.matchCount then result
    else
      let fromStart := findContextLine A nfc lines context 0 allowFuzzy
      if start ≠ 0 ∧ (fromStart.index.isSome = true ∨ more fromStart.matchCount = true) then fromStart
      else
        (if !hasSignature context && 1 < words.length then
          spaceHierarchy A nfc lines words start allowFuzzy else none).getD result

def findHierarchicalContext (lines : List (List Char)) (context : List Char) (start : Nat)
    (hint : Option Nat) (allowFuzzy : Bool) : ContextLineResult A.F :=
  let parts := ((splitLines context).map jsTrim).filter (· ≠ [])
  let words := splitWhitespace context
  if 1 < parts.length then contextLines A nfc lines hint allowFuzzy start parts
  else
    match (if !hasSignature context && 2 < words.length then
        spaceHierarchy A nfc lines words start allowFuzzy else none).filter fun result =>
          result.index.isSome || more result.matchCount with
    | some result => result
    | none => findPlainContext A nfc lines context start hint allowFuzzy

end

/-- The nearest equal line around a context, the second one below it on request. -/
def findContextRelative (lines : List (List Char)) (pattern : List Char) (context : Nat)
    (preferSecond : Bool) : Option Nat :=
  let equal (index : Nat) : Bool := jsTrim (lines.getD index []) = jsTrim pattern
  let forward := (List.range' (context + 1) (lines.length - (context + 1))).filter equal
  match forward with
  | [] => (List.range context).reverse.find? equal
  | first :: rest => some (if preferSecond then rest.head?.getD first else first)

section

variable (A : Arith) (nfc : List Char → List Char)

/-- The line from which a hunk is searched, and the line of its context. -/
def placeContext (lines : List (List Char)) (hunk : DiffHunk) (lineIndex : Nat)
    (allowFuzzy aggressive : Bool) : Except PatchError (Nat × Option Nat) :=
  match hunk.changeContext with
  | none => .ok (lineIndex, none)
  | some context =>
    let result := findHierarchicalContext A nfc lines context lineIndex hunk.oldStartLine allowFuzzy
    match result.index.filter fun _ => !more result.matchCount with
    | some found =>
      let first := hunk.oldLines.head?.map jsTrim
      let finalContext := (splitLines context).getLast?.map jsTrim
      let hierarchical := context.contains '\n' || 2 < (splitWhitespace context).length
      .ok (if first = finalContext ∨ hierarchical = true then found else found + 1, result.index)
    | none =>
      match attemptSequenceFallback A nfc lines hunk lineIndex (hunk.oldStartLine.map (· - 1))
          allowFuzzy aggressive with
      | some found => .ok (found, result.index)
      | none =>
        match result.matchCount.filter (1 < ·) with
        | some count => .error (.ambiguousContext count)
        | none => .error .contextNotFound

/-- Where a hunk without old lines goes. -/
def insertionIndex (lines : List (List Char)) (hunk : DiffHunk) (lineIndex : Nat) :
    Except PatchError Nat :=
  if hunk.changeContext.isSome then .ok lineIndex
  else
    match hunk.oldStartLine.or hunk.newStartLine with
    | some hint =>
      if hint < 1 ∨ lines.length + 1 < hint then .error (.hintOutOfRange hint) else .ok (hint - 1)
    | none => .ok (if lines.getLast? = some [] then lines.length - 1 else lines.length)

/-- The pattern that is being placed, what it becomes, and the result so far. -/
structure Search where
  pattern : List (List Char)
  newLines : List (List Char)
  result : SequenceSearchResult A.F

variable {A}

/-- The hunk as it is, or without its last blank line. -/
def searchHunk (hunk : DiffHunk) (find : List (List Char) → SequenceSearchResult A.F) : Search A :=
  let result := find hunk.oldLines
  if result.index.isNone && hunk.oldLines.getLast? = some [] then
    ⟨hunk.oldLines.dropLast,
      if hunk.newLines.getLast? = some [] then hunk.newLines.dropLast else hunk.newLines,
      find hunk.oldLines.dropLast⟩
  else ⟨hunk.oldLines, hunk.newLines, result⟩

/-- The hunk itself, or a smaller one. -/
def searchLines (lines : List (List Char)) (hunk : DiffHunk) (variants : List HunkVariant)
    (lineIndex : Nat) (matchHint : Option Nat) (allowFuzzy : Bool) : Search A :=
  let find (pattern : List (List Char)) : SequenceSearchResult A.F :=
    findSequenceWithHint A nfc lines pattern lineIndex matchHint hunk.isEndOfFile allowFuzzy
  let shortened := searchHunk hunk find
  if shortened.result.index.isNone || more shortened.result.matchCount then
    (variants.findSome? fun variant =>
      let candidate := find variant.oldLines
      if !variant.oldLines.isEmpty && candidate.index.isSome && candidate.matchCount.getD 1 ≤ 1 then
        some ⟨variant.oldLines, variant.newLines, candidate⟩
      else none).getD shortened
  else shortened

def preferSecond (hunk : DiffHunk) (line : List Char) : Bool :=
  hunk.newLines.any fun other => jsTrim other = jsTrim line

/-- A line that was not found, by the lines around its context. -/
def searchAround (lines : List (List Char)) (hunk : DiffHunk) (variants : List HunkVariant)
    (contextIndex : Option Nat) (s : Search A) : Search A :=
  match contextIndex with
  | none => s
  | some context =>
    if s.result.index.isSome then s
    else
      (variants.findSome? fun variant =>
        match variant.oldLines, variant.newLines with
        | [old], [new] =>
          (findContextRelative lines old context (preferSecond hunk old)).map fun found =>
            ⟨[old], [new], { s.result with index := some found, confidence := A.lit (95 / 100) }⟩
        | _, _ => none).getD s

/-- A line that stands more than once, by the lines around its context. -/
def chooseDuplicate (lines : List (List Char)) (hunk : DiffHunk) (contextIndex : Option Nat)
    (s : Search A) : Search A :=
  match contextIndex, s.pattern with
  | some context, [line] =>
    if s.result.index.isSome && 1 < lines.countP (fun other => jsTrim other = jsTrim line) then
      match findContextRelative lines line context (preferSecond hunk line) with
      | some found => { s with result := { s.result with index := some found } }
      | none => s
    else s
  | _, _ => s

/-- `AMBIGUITY_HINT_WINDOW`. -/
def ambiguityHintWindow : Nat := 200

/-- The only place near the hint. -/
def chooseHinted (hint : Option Nat) (s : Search A) : Search A :=
  match hint with
  | none => s
  | some hint =>
    if more s.result.matchCount then
      match (s.result.matchIndices.getD []).filter fun index =>
          max index hint - min index hint ≤ ambiguityHintWindow with
      | [index] => { s with result := { s.result with index := some index, matchCount := some 1 } }
      | _ => s
    else s

def inexactStrategies : List SequenceMatchStrategy :=
  [.commentPrefix, .linePrefix, .substring, .fuzzy, .character]

def placementWarnings (found : Nat) (result : SequenceSearchResult A.F) : List (Warning A.F) :=
  match result.strategy with
  | none => []
  | some strategy =>
    if strategy = .fuzzyDominant then [.dominant (found + 1) result.confidence]
    else if strategy ∈ inexactStrategies then [.inexact (found + 1) strategy result.confidence]
    else []

/-- What a hunk does: its placement if it changes anything, the line behind it, and warnings. -/
structure Step (F : Type) where
  placement : Option Placement
  lineIndex : Nat
  warnings : List (Warning F)

/-- The placement that the search for a hunk ends with. -/
def placeSearch (lines : List (List Char)) (hunk : DiffHunk) (allowFuzzy : Bool) (s : Search A) :
    Except PatchError (Step A.F) :=
  match s.result.index with
  | none =>
    match s.result.matchCount.filter (1 < ·) with
    | some count => .error (.ambiguousText count)
    | none => .error .textNotFound
  | some found =>
    let warnings := placementWarnings found s.result
    let second : Option Nat :=
      if hunk.changeContext.isNone && !hunk.hasContextLines && !hunk.isEndOfFile &&
          hunk.oldStartLine.isNone then
        (seekSequence A nfc lines s.pattern (found + 1) false allowFuzzy).index
      else none
    match second with
    | some second => .error (.secondOccurrence found second)
    | none =>
      let placement : Placement := ⟨found, s.pattern, s.newLines, s.result.strategy⟩
      let next := found + s.pattern.length
      if s.pattern = s.newLines then .ok ⟨none, next, warnings⟩
      else if s.result.strategy = some .linePrefix ∨ s.result.strategy = some .substring then
        (assertPartialMatch s.pattern (placement.matched lines) s.newLines found).map fun _ =>
          ⟨some placement, next, warnings⟩
      else .ok ⟨some placement, next, warnings⟩

def placeHunk (lines : List (List Char)) (hunk : DiffHunk) (lineIndex : Nat) (allowFuzzy : Bool) :
    Except PatchError (Step A.F) :=
  if hunk.oldStartLine = some 0 ∨ hunk.newStartLine = some 0 then .error .lineHintZero
  else
    let aggressive := hunk.changeContext.isSome || hunk.oldStartLine.isSome || hunk.isEndOfFile
    let variants := fallbackVariants hunk aggressive
    let lineIndex :=
      match hunk.oldStartLine with
      | some hint =>
        if hunk.changeContext.isNone && !hunk.hasContextLines then min (hint - 1) (lines.length - 1)
        else lineIndex
      | none => lineIndex
    do
      let (lineIndex, contextIndex) ← placeContext A nfc lines hunk lineIndex allowFuzzy aggressive
      if hunk.oldLines.isEmpty then
        let insertion ← insertionIndex lines hunk lineIndex
        pure ⟨some ⟨insertion, [], hunk.newLines, none⟩, lineIndex, []⟩
      else
        let matchHint := (hunk.oldStartLine.map (· - 1)).filter (lineIndex ≤ ·)
        let found := searchLines nfc lines hunk variants lineIndex matchHint allowFuzzy
        let around := searchAround lines hunk variants contextIndex found
        let chosen := chooseDuplicate lines hunk contextIndex around
        let hinted := chooseHinted (matchHint.or (hunk.oldStartLine.map (· - 1))) chosen
        placeSearch nfc lines hunk allowFuzzy hinted

/-- The placements of the hunks one after the other. -/
def placeHunks (lines : List (List Char)) (allowFuzzy : Bool) :
    Nat → List DiffHunk → Except PatchError (List Placement × List (Warning A.F))
  | _, [] => .ok ([], [])
  | lineIndex, hunk :: hunks => do
    let step ← placeHunk nfc lines hunk lineIndex allowFuzzy
    let (placements, warnings) ← placeHunks lines allowFuzzy step.lineIndex hunks
    pure (step.placement.toList ++ placements, step.warnings ++ warnings)

end

/-- The first replacement that reaches into the next one. -/
def overlap : List LineReplacement → Option (Nat × Nat)
  | left :: right :: rest =>
    if right.startIndex < left.startIndex + left.oldLen then
      some (left.startIndex, right.startIndex)
    else overlap (right :: rest)
  | _ => none

section

variable {A : Arith} (nfc : List Char → List Char)

def computeReplacements (lines : List (List Char)) (hunks : List DiffHunk) (allowFuzzy : Bool) :
    Except PatchError (List LineReplacement × List (Warning A.F)) := do
  let (placements, warnings) ← placeHunks nfc lines allowFuzzy 0 hunks
  let sorted := (placements.map (Placement.replacement lines)).insertionSort fun a b =>
    a.startIndex ≤ b.startIndex
  match overlap sorted with
  | some (left, right) => .error (.overlapping left right)
  | none => .ok (sorted, warnings)

/-- `Vec::splice`, none where it panics. -/
def spliceLines (lines : List (List Char)) (r : LineReplacement) : Option (List (List Char)) :=
  if r.startIndex + r.oldLen ≤ lines.length then
    some (lines.take r.startIndex ++ r.newLines ++ lines.drop (r.startIndex + r.oldLen))
  else none

/-- The text ends with a newline when the content did. -/
def restoreNewline (hadNewline : Bool) (text : List Char) : List Char :=
  if hadNewline then if text.getLast? = some '\n' then text else text ++ ['\n']
  else text.rdropWhile (· = '\n')

/-- The match of a hunk taken as one text. -/
def characterOutcome (content : List Char) (hunk : DiffHunk) (threshold : A.F) (allowFuzzy : Bool) :
    MatchOutcome A.F :=
  let outcome := findMatch A nfc content (joinLines hunk.oldLines) allowFuzzy threshold []
  let relaxed := if A.lt threshold (A.lit (92 / 100)) then threshold else A.lit (92 / 100)
  if outcome.matched.isNone && allowFuzzy && A.lt relaxed threshold then
    let next := findMatch A nfc content (joinLines hunk.oldLines) allowFuzzy relaxed []
    if next.matched.isSome then next else outcome
  else outcome

/-- The match, or why there is none. -/
def characterFound (outcome : MatchOutcome A.F) : Except PatchError (FuzzyMatch A.F) :=
  match outcome.occurrences.filter (1 < ·), outcome.fuzzyMatches.filter (1 < ·), outcome.matched with
  | some count, _, _ => .error (.occurrences count)
  | none, some count, _ => .error (.fuzzyMatches count)
  | none, none, none => .error .noMatch
  | none, none, some found => .ok found

/-- `character_match` behind the search, none where a slice panics. -/
def replaceFound (content : List Char) (hunk : DiffHunk) (found : FuzzyMatch A.F) :
    Option (List Char) := do
  let before ← slice content 0 found.startIndex
  let after ← slice content (found.startIndex + byteLen found.actualText) (byteLen content)
  return before ++ adjustIndentation (joinLines hunk.oldLines) found.actualText
    (joinLines hunk.newLines) ++ after

/-- A hunk that nothing places but its old lines. -/
def bareHunk (hunks : List DiffHunk) : Option DiffHunk :=
  match hunks with
  | [hunk] =>
    if hunk.changeContext.isNone && !hunk.hasContextLines && !hunk.oldLines.isEmpty &&
        hunk.oldStartLine.isNone && !hunk.isEndOfFile then some hunk
    else none
  | _ => none

/-- The lines of a content, without the empty one behind its last newline. -/
def contentLines (content : List Char) : List (List Char) :=
  if content.getLast? = some '\n' then (splitLines content).dropLast else splitLines content

/-- Apply parsed hunks to a text, none where the source panics. -/
def applyHunks (content : List Char) (hunks : List DiffHunk) (threshold : A.F) (allowFuzzy : Bool) :
    Option (Except PatchError (List Char × List (Warning A.F))) :=
  let hadNewline : Bool := content.getLast? = some '\n'
  match bareHunk hunks with
  | some hunk =>
    let outcome := characterOutcome nfc content hunk threshold allowFuzzy
    match characterFound outcome with
    | .error e => some (.error e)
    | .ok found =>
      let warnings := if outcome.dominantFuzzy = some true then
        [Warning.dominant found.startLine found.confidence] else []
      (replaceFound content hunk found).map fun next => .ok (restoreNewline hadNewline next, warnings)
  | none =>
    let lines := contentLines content
    match computeReplacements (A := A) nfc lines hunks allowFuzzy with
    | .error e => some (.error e)
    | .ok (replacements, warnings) =>
      (replacements.reverse.foldlM spliceLines lines).map fun result =>
        let result := if hadNewline then result ++ [[]] else result
        .ok (restoreNewline hadNewline (joinLines result), warnings)

end

end OhMyPi.Edit
