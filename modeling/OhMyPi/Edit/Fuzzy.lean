import OhMyPi.Edit.TextShape

/-! Locating a block of text (`edit/src/fuzzy.rs`): exactly, up to typographic characters, and by the
similarity of its lines. Offsets count bytes. -/

namespace OhMyPi.Edit

open Text

/-! ## Similarity -/

/-- The floating-point numbers of the scores. -/
structure Arith where
  F : Type
  lit : Rat → F
  ofNat : Nat → F
  add : F → F → F
  sub : F → F → F
  div : F → F → F
  lt : F → F → Bool
  le : F → F → Bool
  round : F → Nat

def stripShared : List Char → List Char → List Char × List Char
  | x :: a, y :: b => if x = y then stripShared a b else (x :: a, y :: b)
  | a, b => (a, b)

/-- The next row of the table of distances. -/
def distanceRow (x : Char) : Nat → Nat → List Char → List Nat → List Nat
  | diagonal, left, y :: ys, above :: row =>
    let cell := if x = y then diagonal else min (min (above + 1) (left + 1)) (diagonal + 1)
    cell :: distanceRow x above cell ys row
  | _, _, _, _ => []

def distanceRows (shorter : List Char) : Nat → List Char → List Nat → List Nat
  | line, x :: longer, diagonal :: row =>
    distanceRows shorter (line + 1) longer
      ((line + 1) :: distanceRow x diagonal (line + 1) shorter row)
  | _, _, row => row

/-- `levenshtein_chars`. -/
def levenshteinChars (a b : List Char) : Nat :=
  if a = b then 0
  else
    let (a, b) := stripShared a b
    let (a, b) := stripShared a.reverse b.reverse
    let (a, b) := (a.reverse, b.reverse)
    if a.isEmpty then b.length
    else if b.isEmpty then a.length
    else
      let (longer, shorter) := if a.length < b.length then (b, a) else (a, b)
      (distanceRows shorter 0 longer (List.range (shorter.length + 1))).getLastD 0

example : levenshteinChars "kitten".toList "sitting".toList = 3 := by decide +kernel

section

variable (A : Arith)

def similarity (a b : List Char) : A.F :=
  let maxLen := max a.length b.length
  if maxLen = 0 then A.lit 1
  else A.sub (A.lit 1) (A.div (A.ofNat (levenshteinChars a b)) (A.ofNat maxLen))

def relativeIndentDepths (lines : List (List Char)) : List Nat :=
  let indents := (lines.filter isNonEmptyLine).map countLeadingWhitespace
  let minIndent := indents.min?.getD 0
  let indentUnit := (((indents.map (· - minIndent)).filter (0 < ·)).min?).getD 1
  lines.map fun line =>
    if !isNonEmptyLine line || indentUnit = 0 then 0
    else A.round (A.div (A.ofNat (countLeadingWhitespace line - minIndent)) (A.ofNat indentUnit))

def normalizeLines (lines : List (List Char)) (includeDepth : Bool) : List (List Char) :=
  let labels :=
    if includeDepth then (relativeIndentDepths A lines).map (Nat.toDigits 10)
    else lines.map fun _ => []
  (labels.zip lines).map fun (label, line) =>
    let trimmed := jsTrim line
    label ++ '|' :: if trimmed.isEmpty then [] else normalizeForFuzzy trimmed

end

/-! ## Windows of lines -/

/-- A byte range that is not searched. -/
structure ExcludedRange where
  startIndex : Nat
  endIndex : Nat
deriving DecidableEq, Repr

def overlapsExcluded (start stop : Nat) (ranges : List ExcludedRange) : Bool :=
  ranges.any fun range => start < range.endIndex && range.startIndex < stop

/-- The offsets of the lines, each but the last one with its newline. -/
def lineOffsets : Nat → List (List Char) → List Nat
  | _, [] => []
  | offset, line :: lines =>
    offset :: lineOffsets (offset + byteLen line + if lines.isEmpty then 0 else 1) lines

def windowLines (lines : List (List Char)) (count start : Nat) : List (List Char) :=
  (lines.drop start).take count

def windowStart (lines : List (List Char)) (start : Nat) : Nat :=
  (lineOffsets 0 lines).getD start 0

/-- The end of the byte range of a window. An empty one counts as one byte. -/
def windowEnd (lines : List (List Char)) (count start : Nat) : Nat :=
  let endLine := start + count - 1
  max ((lineOffsets 0 lines).getD endLine 0 + byteLen (lines.getD endLine []))
    (windowStart lines start + 1)

/-- The window may be searched. -/
def windowFree (lines : List (List Char)) (count : Nat) (excluded : List ExcludedRange)
    (start : Nat) : Bool :=
  !overlapsExcluded (windowStart lines start) (windowEnd lines count start) excluded

/-- The first lines of the windows. -/
def windowStarts (lines : List (List Char)) (count : Nat) : List Nat :=
  List.range (lines.length - count + 1)

/-! ## Matches -/

/-- A located block of text. -/
structure FuzzyMatch (F : Type) where
  actualText : List Char
  startIndex : Nat
  startLine : Nat
  confidence : F

structure MatchOutcome (F : Type) where
  matched : Option (FuzzyMatch F) := none
  closest : Option (FuzzyMatch F) := none
  occurrences : Option Nat := none
  fuzzyMatches : Option Nat := none
  dominantFuzzy : Option Bool := none

/-- An invisible mark that normalization erases. -/
def isInvisibleMark (c : Char) : Bool :=
  decide (0x200B ≤ c.toNat ∧ c.toNat ≤ 0x200D) || c.toNat = 0xFEFF

section

variable (A : Arith) (nfc : List Char → List Char)

/-- The window up to typographic characters. -/
def unicodeWindow (lines target : List (List Char)) (start : Nat) : Bool :=
  (windowLines lines target.length start).map (normalizeUnicode nfc) = target.map (normalizeUnicode nfc)

/-- The match at a window, less the invisible marks at its ends. -/
def unicodeMatchAt (lines target : List (List Char)) (start : Nat) : FuzzyMatch A.F :=
  let text := joinLines (windowLines lines target.length start)
  let body := text.dropWhile isInvisibleMark
  { actualText := body.rdropWhile isInvisibleMark
    startIndex := windowStart lines start + (byteLen text - byteLen body)
    startLine := start + 1
    confidence := A.lit (97 / 100) }

/-- The loop of `find_unicode_match`: a second window ends it without a match. -/
def unicodeScan (lines target : List (List Char)) (excluded : List ExcludedRange) :
    List Nat → Option (FuzzyMatch A.F) → Option (FuzzyMatch A.F)
  | [], found => found
  | start :: rest, found =>
    if unicodeWindow nfc lines target start && windowFree lines target.length excluded start then
      if found.isSome then none
      else unicodeScan lines target excluded rest (some (unicodeMatchAt A lines target start))
    else unicodeScan lines target excluded rest found

def findUnicodeMatch (content target : List Char) (excluded : List ExcludedRange) :
    Option (MatchOutcome A.F) :=
  let lines := splitLines content
  let targetLines := splitLines target
  if lines.length < targetLines.length then none
  else
    (unicodeScan A nfc lines targetLines excluded (windowStarts lines targetLines.length) none).map
      fun found => { matched := some found, closest := some found }

/-- The byte offsets at which a text is found, each search starting behind the last hit. -/
def matchIndices (target : List Char) : Nat → Nat → List Char → List Nat
  | _, _, [] => []
  | offset, 0, c :: text =>
    if target.isPrefixOf (c :: text) then
      offset :: matchIndices target (offset + c.utf8Size) (target.length - 1) text
    else matchIndices target (offset + c.utf8Size) 0 text
  | offset, skip + 1, c :: text => matchIndices target (offset + c.utf8Size) skip text

def findExactMatchOutcome (content target : List Char) (excluded : List ExcludedRange) :
    Option (MatchOutcome A.F) :=
  let found := (matchIndices target 0 0 content).filter fun index =>
    !overlapsExcluded index (index + byteLen target) excluded
  match found with
  | [] => none
  | [index] =>
    some { matched := some
            { actualText := target
              startIndex := index
              startLine := ((splitAtByte content index).elim 0 fun parts => parts.1.count '\n') + 1
              confidence := A.lit 1 } }
  | _ :: _ :: _ => some { occurrences := some found.length }

/-! ## Scored windows -/

structure BestFuzzyMatch where
  best : Option (FuzzyMatch A.F)
  aboveThresholdCount : Nat
  secondBestScore : A.F

/-- The state of the loop of `best_fuzzy_match_core`. -/
structure Scan where
  best : Option (FuzzyMatch A.F) := none
  bestScore : A.F := A.lit (-1)
  secondBestScore : A.F := A.lit (-1)
  aboveThresholdCount : Nat := 0

def windowScore (lines target : List (List Char)) (includeDepth : Bool) (start : Nat) : A.F :=
  let scores := ((normalizeLines A target includeDepth).zip
    (normalizeLines A (windowLines lines target.length start) includeDepth)).map fun pair =>
      similarity A pair.1 pair.2
  A.div (scores.foldl A.add (A.lit 0)) (A.ofNat target.length)

def Scan.step (lines target : List (List Char)) (threshold : A.F) (includeDepth : Bool)
    (excluded : List ExcludedRange) (s : Scan A) (start : Nat) : Scan A :=
  if !windowFree lines target.length excluded start then s
  else
    let score := windowScore A lines target includeDepth start
    let s := { s with
      aboveThresholdCount := s.aboveThresholdCount + if A.le threshold score then 1 else 0 }
    if A.lt s.bestScore score then
      { s with
        secondBestScore := s.bestScore
        bestScore := score
        best := some
          { actualText := joinLines (windowLines lines target.length start)
            startIndex := windowStart lines start
            startLine := start + 1
            confidence := score } }
    else if A.lt s.secondBestScore score then { s with secondBestScore := score }
    else s

def bestFuzzyMatchCore (lines target : List (List Char)) (threshold : A.F) (includeDepth : Bool)
    (excluded : List ExcludedRange) : BestFuzzyMatch A :=
  let s := (windowStarts lines target.length).foldl
    (Scan.step A lines target threshold includeDepth excluded) {}
  ⟨s.best, s.aboveThresholdCount, s.secondBestScore⟩

def bestFuzzyMatch (content target : List Char) (threshold : A.F)
    (excluded : List ExcludedRange) : BestFuzzyMatch A :=
  let lines := splitLines content
  let targetLines := splitLines target
  if target.isEmpty || lines.length < targetLines.length then ⟨none, 0, A.lit 0⟩
  else
    let result := bestFuzzyMatchCore A lines targetLines threshold true excluded
    match result.best with
    | none => result
    | some best =>
      if A.lt best.confidence threshold && A.le (A.lit (8 / 10)) best.confidence then
        let withoutDepth := bestFuzzyMatchCore A lines targetLines threshold false excluded
        if withoutDepth.best.any fun candidate => A.lt best.confidence candidate.confidence then
          withoutDepth
        else result
      else result

/-- `find_match`: exact first, then up to typographic characters, then by similarity. -/
def findMatch (content target : List Char) (allowFuzzy : Bool) (threshold : A.F)
    (excluded : List ExcludedRange) : MatchOutcome A.F :=
  if target.isEmpty then {}
  else
    match findExactMatchOutcome A content target excluded with
    | some exact => exact
    | none =>
      match findUnicodeMatch A nfc content target excluded with
      | some unicode => unicode
      | none =>
        let result := bestFuzzyMatch A content target threshold excluded
        match result.best with
        | none => {}
        | some best =>
          if allowFuzzy && A.le threshold best.confidence && result.aboveThresholdCount = 1 then
            { matched := some best, closest := some best }
          else if allowFuzzy && A.le threshold best.confidence &&
              1 < result.aboveThresholdCount && A.le (A.lit (97 / 100)) best.confidence &&
              A.le (A.lit (8 / 100)) (A.sub best.confidence result.secondBestScore) then
            { matched := some best, closest := some best
              fuzzyMatches := some result.aboveThresholdCount, dominantFuzzy := some true }
          else { closest := some best, fuzzyMatches := some result.aboveThresholdCount }

end

end OhMyPi.Edit
