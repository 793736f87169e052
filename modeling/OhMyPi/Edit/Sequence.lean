import Mathlib.Data.List.Infix
import OhMyPi.Edit.Fuzzy

/-! Placing a sequence of lines in a file (`seek_sequence` of `edit/src/fuzzy.rs`), from an exact
comparison down to one of characters, and finding the line of a context. -/

namespace OhMyPi.Edit

open Text

/-- `char::is_whitespace`. -/
def isWhitespace (c : Char) : Bool :=
  let n := c.toNat
  (9 ≤ n && n ≤ 13) || n = 0x20 || n = 0x85 || n = 0xA0 || n = 0x1680 || (0x2000 ≤ n && n ≤ 0x200A) ||
    n = 0x2028 || n = 0x2029 || n = 0x202F || n = 0x205F || n = 0x3000

/-- `str::trim`. -/
def trim (text : List Char) : List Char := (text.dropWhile isWhitespace).rdropWhile isWhitespace

/-- `str::split_whitespace`. -/
def splitWhitespace (text : List Char) : List (List Char) :=
  (text.splitOnP isWhitespace).filter (· ≠ [])

/-- `str::contains`. -/
def contains (text part : List Char) : Bool := part <:+: text

inductive SequenceMatchStrategy
  | exact
  | trimTrailing
  | trim
  | commentPrefix
  | unicode
  | linePrefix
  | substring
  | fuzzy
  | fuzzyDominant
  | character
deriving DecidableEq, Repr

structure SequenceSearchResult (F : Type) where
  index : Option Nat
  confidence : F
  matchCount : Option Nat
  matchIndices : Option (List Nat)
  strategy : Option SequenceMatchStrategy

inductive ContextMatchStrategy
  | exact
  | trim
  | unicode
  | linePrefix
  | substring
  | fuzzy
deriving DecidableEq, Repr

structure ContextLineResult (F : Type) where
  index : Option Nat
  confidence : F
  matchCount : Option Nat
  matchIndices : Option (List Nat)
  strategy : Option ContextMatchStrategy

def maxRecordedMatches : Nat := 5

/-- All indices in order; `IndexedMatches` keeps the first, their number and the first few. -/
def collectIndexedMatches (start stop : Nat) (predicate : Nat → Bool) : List Nat :=
  (List.range' start (stop + 1 - start)).filter predicate

def sequenceResult {F : Type} (found : List Nat) (confidence : F) (strategy : SequenceMatchStrategy)
    (ambiguous : Bool) : Option (SequenceSearchResult F) :=
  found.head?.map fun first =>
    { index := some first
      confidence := confidence
      matchCount := if ambiguous then some found.length else none
      matchIndices := if ambiguous then some (found.take maxRecordedMatches) else none
      strategy := some strategy }

def contextResult {F : Type} (found : List Nat) (confidence : F) (strategy : ContextMatchStrategy) :
    Option (ContextLineResult F) :=
  found.head?.map fun first =>
    { index := some first
      confidence := confidence
      matchCount := some found.length
      matchIndices := some (found.take maxRecordedMatches)
      strategy := some strategy }

def noSequenceMatch {F : Type} (confidence : F) (matchCount : Option Nat) : SequenceSearchResult F :=
  ⟨none, confidence, matchCount, none, none⟩

def noContextMatch {F : Type} (confidence : F) : ContextLineResult F := ⟨none, confidence, none, none, none⟩

/-- The lines of the pattern one after the other. The callers stay within the lines. -/
def matchesFrom (compare : List Char → List Char → Bool) :
    List (List Char) → List (List Char) → Bool
  | _, [] => true
  | [], _ :: _ => false
  | line :: lines, expected :: pattern => compare line expected && matchesFrom compare lines pattern

def matchesAt (compare : List Char → List Char → Bool) (lines pattern : List (List Char))
    (index : Nat) : Bool :=
  matchesFrom compare (lines.drop index) pattern

def normStartsWith (line pattern : List Char) : Bool :=
  if pattern.isEmpty then line.isEmpty else pattern.isPrefixOf line

/-- The marks that may open a comment line, in the order in which they are tried. -/
def commentMarks : List (List Char) :=
  ["/*".toList, "*/".toList, "//".toList, "*".toList, "#".toList, ";".toList, "/ ".toList]

def stripCommentPrefix (line : List Char) : List Char :=
  let trimmed := jsTrimStart line
  let without := match commentMarks.find? fun mark => mark.isPrefixOf trimmed with
    | some mark => trimmed.drop mark.length
    | none => trimmed
  jsTrimStart without

section

variable (A : Arith) (nfc : List Char → List Char)

def partialMatchMinLength : Nat := 6

def normIncludes (line pattern : List Char) : Bool :=
  if pattern.isEmpty then line.isEmpty
  else decide (partialMatchMinLength ≤ pattern.length) && contains line pattern &&
    A.le (A.lit (3 / 10)) (A.div (A.ofNat pattern.length) (A.ofNat (max line.length 1)))

/-- The loop of `fuzzy_score_at`, which gives up once the score cannot reach `minScore`. -/
def fuzzyScoreFrom (count : Nat) (minScore : A.F) :
    List (List Char) → List (List Char) → A.F → A.F
  | line :: lines, pat :: pattern, total =>
    if line = pat then fuzzyScoreFrom count minScore lines pattern (A.add total (A.lit 1))
    else
      let maxLen := max line.length pat.length
      let difference := max line.length pat.length - min line.length pat.length
      let upperBound :=
        if maxLen = 0 then A.lit 1
        else A.sub (A.lit 1) (A.div (A.ofNat difference) (A.ofNat maxLen))
      let remaining := A.ofNat pattern.length
      if A.lt (A.div (A.add (A.add total upperBound) remaining) (A.ofNat count)) minScore then
        A.div total (A.ofNat count)
      else
        let total := if A.lt (A.lit 0) upperBound then A.add total (similarity A line pat) else total
        if A.lt (A.div (A.add total remaining) (A.ofNat count)) minScore then
          A.div total (A.ofNat count)
        else fuzzyScoreFrom count minScore lines pattern total
  | _, _, total => A.div total (A.ofNat count)

def fuzzyScoreAt (lines pattern : List (List Char)) (index : Nat) (minScore : A.F) : A.F :=
  fuzzyScoreFrom A pattern.length minScore (lines.drop index) pattern (A.lit 0)

/-- One comparison at every place. -/
def pass (lines pattern : List (List Char)) (start stop : Nat)
    (compare : List Char → List Char → Bool) (confidence : A.F) (strategy : SequenceMatchStrategy)
    (ambiguous : Bool) : Option (SequenceSearchResult A.F) :=
  sequenceResult (collectIndexedMatches start stop (matchesAt compare lines pattern)) confidence
    strategy ambiguous

def runSequencePasses (lines pattern : List (List Char)) (start stop : Nat) (allowFuzzy : Bool) :
    Option (SequenceSearchResult A.F) :=
  (pass A lines pattern start stop (fun a b => a = b) (A.lit 1) .exact false).or <|
  (pass A lines pattern start stop (fun a b => jsTrimEnd a = jsTrimEnd b) (A.lit (99 / 100))
    .trimTrailing false).or <|
  (pass A lines pattern start stop (fun a b => jsTrim a = jsTrim b) (A.lit (98 / 100)) .trim
    false).or <|
  (pass A lines pattern start stop (fun a b => stripCommentPrefix a = stripCommentPrefix b)
    (A.lit (975 / 1000)) .commentPrefix false).or <|
  (pass A lines pattern start stop (fun a b => normalizeUnicode nfc a = normalizeUnicode nfc b)
    (A.lit (97 / 100)) .unicode false).or <|
  if allowFuzzy then
    (pass A (lines.map normalizeForFuzzy) (pattern.map normalizeForFuzzy) start stop normStartsWith
      (A.lit (965 / 1000)) .linePrefix true).or <|
    pass A (lines.map normalizeForFuzzy) (pattern.map normalizeForFuzzy) start stop (normIncludes A)
      (A.lit (94 / 100)) .substring true
  else none

/-- The state of the scored loop of `seek_sequence`. -/
structure SequenceScan where
  bestScore : A.F := A.lit 0
  secondBestScore : A.F := A.lit 0
  bestIndex : Option Nat := none
  found : List Nat := []

def sequenceFuzzyThreshold : A.F := A.lit (92 / 100)

def dominantFuzzyDelta : A.F := A.lit (8 / 100)

def dominantFuzzyMinConfidence : A.F := A.lit (97 / 100)

def SequenceScan.step (lines pattern : List (List Char)) (s : SequenceScan A) (index : Nat) :
    SequenceScan A :=
  let score := fuzzyScoreAt A (lines.map normalizeForFuzzy) (pattern.map normalizeForFuzzy) index
    (A.sub (sequenceFuzzyThreshold A) (dominantFuzzyDelta A))
  let s := if A.le (sequenceFuzzyThreshold A) score then { s with found := s.found ++ [index] } else s
  if A.lt s.bestScore score then
    { s with secondBestScore := s.bestScore, bestScore := score, bestIndex := some index }
  else if A.lt s.secondBestScore score then { s with secondBestScore := score }
  else s

/-- The last resort: the pattern as one text. -/
def characterSequence (lines pattern : List (List Char)) (start : Nat) (bestScore : A.F) :
    SequenceSearchResult A.F :=
  let contentText := joinLines (lines.drop start)
  let outcome := findMatch A nfc contentText (joinLines pattern) true (A.lit (92 / 100)) []
  match outcome.matched with
  | some found =>
    let before := (splitAtByte contentText found.startIndex).elim [] Prod.fst
    { index := some (start + before.count '\n')
      confidence := found.confidence
      matchCount := some ((outcome.occurrences.or outcome.fuzzyMatches).getD 1)
      matchIndices := none
      strategy := some .character }
  | none => noSequenceMatch bestScore (outcome.occurrences.or outcome.fuzzyMatches)

/-- The scored windows, and characters where none of them is close enough. -/
def scoreSequence (lines pattern : List (List Char)) (start : Nat) (eof : Bool) :
    SequenceSearchResult A.F :=
  let maxStart := lines.length - pattern.length
  let searchStart := if eof then maxStart else start
  let indices := List.range' searchStart (maxStart + 1 - searchStart) ++
    if eof && start < searchStart then List.range' start (searchStart - start) else []
  let s := indices.foldl (SequenceScan.step A lines pattern) {}
  match s.bestIndex.filter fun _ => A.le (sequenceFuzzyThreshold A) s.bestScore with
  | some index =>
    let dominant := decide (1 < s.found.length) &&
      A.le (dominantFuzzyMinConfidence A) s.bestScore &&
      A.le (dominantFuzzyDelta A) (A.sub s.bestScore s.secondBestScore)
    { index := some index
      confidence := s.bestScore
      matchCount := some (if dominant then 1 else s.found.length)
      matchIndices := some (s.found.take maxRecordedMatches)
      strategy := some (if dominant then .fuzzyDominant else .fuzzy) }
  | none => characterSequence A nfc lines pattern start s.bestScore

/-- Locate the lines of `pattern` through the exact-to-character fallback ladder. -/
def seekSequence (lines pattern : List (List Char)) (start : Nat) (eof allowFuzzy : Bool) :
    SequenceSearchResult A.F :=
  if pattern.isEmpty then ⟨some start, A.lit 1, none, none, some .exact⟩
  else if lines.length < pattern.length then noSequenceMatch (A.lit 0) none
  else
    let maxStart := lines.length - pattern.length
    let searchStart := if eof then maxStart else start
    match runSequencePasses A nfc lines pattern searchStart maxStart allowFuzzy with
    | some result => result
    | none =>
      match if eof && start < searchStart then
          runSequencePasses A nfc lines pattern start maxStart allowFuzzy else none with
      | some result => result
      | none =>
        if allowFuzzy then scoreSequence A nfc lines pattern start eof
        else noSequenceMatch (A.lit 0) none

/-! ## The line of a context -/

/-- The passes of `find_context_line` over single lines: a result, or the best score when they are
used up. -/
def contextPasses (lines : List (List Char)) (context : List Char) (startFrom : Nat)
    (allowFuzzy : Bool) : ContextLineResult A.F ⊕ A.F :=
  let stop := lines.length - 1
  let collect (predicate : List Char → Bool) : List Nat :=
    collectIndexedMatches startFrom stop fun index => predicate (lines.getD index [])
  let normalized := normalizeForFuzzy context
  match (contextResult (collect fun line => line = context) (A.lit 1) .exact).or <|
    (contextResult (collect fun line => jsTrim line = jsTrim context) (A.lit (99 / 100)) .trim).or <|
    contextResult (collect fun line => normalizeUnicode nfc line = normalizeUnicode nfc context)
      (A.lit (98 / 100)) .unicode with
  | some result => .inl result
  | none =>
    if !allowFuzzy then .inl (noContextMatch (A.lit 0))
    else
      match if normalized.isEmpty then none else
          contextResult (collect fun line => normalized.isPrefixOf (normalizeForFuzzy line))
            (A.lit (96 / 100)) .linePrefix with
      | some result => .inl result
      | none =>
        let all := collect fun line => contains (normalizeForFuzzy line) normalized
        let qualifying := all.filter fun index =>
          A.le (A.lit (3 / 10)) (A.div (A.ofNat normalized.length)
            (A.ofNat (max (normalizeForFuzzy (lines.getD index [])).length 1)))
        let substring (index : Nat) (count : Nat) : ContextLineResult A.F :=
          ⟨some index, A.lit (94 / 100), some count, some (all.take maxRecordedMatches),
            some .substring⟩
        match if normalized.length < partialMatchMinLength then none else
            match all, qualifying with
            | [], _ => none
            | [index], _ => some (substring index 1)
            | _, first :: _ => some (substring first qualifying.length)
            | first :: _, [] => some (substring first all.length) with
        | some result => .inl result
        | none =>
          let score (index : Nat) : A.F :=
            similarity A (normalizeForFuzzy (lines.getD index [])) normalized
          let indices := List.range' startFrom (lines.length - startFrom)
          let close := indices.filter fun index => A.le (A.lit (8 / 10)) (score index)
          let (bestIndex, bestScore) : Option Nat × A.F := indices.foldl (fun best index =>
            if A.lt best.2 (score index) then (some index, score index) else best) (none, A.lit 0)
          match bestIndex.filter fun _ => A.le (A.lit (8 / 10)) bestScore with
          | some index =>
            .inl ⟨some index, bestScore, some close.length, some (close.take maxRecordedMatches),
              some .fuzzy⟩
          | none => .inr bestScore

/-- `find_context_line` without the fallback for functions. -/
def findContextLineDirect (lines : List (List Char)) (context : List Char) (startFrom : Nat)
    (allowFuzzy : Bool) : ContextLineResult A.F :=
  if lines.length ≤ startFrom then noContextMatch (A.lit 0)
  else
    match contextPasses A nfc lines context startFrom allowFuzzy with
    | .inl result => result
    | .inr bestScore => noContextMatch bestScore

/-- Locate a single context line at or after `startFrom`. -/
def findContextLine (lines : List (List Char)) (context : List Char) (startFrom : Nat)
    (allowFuzzy : Bool) : ContextLineResult A.F :=
  if lines.length ≤ startFrom then noContextMatch (A.lit 0)
  else
    match contextPasses A nfc lines context startFrom allowFuzzy with
    | .inl result => result
    | .inr bestScore =>
      let trimmed := jsTrim context
      if "()".toList.isSuffixOf trimmed then
        let base := trimmed.take (trimmed.length - 2)
        let withParen := findContextLineDirect A nfc lines (base ++ ['(']) startFrom allowFuzzy
        if withParen.index.isSome || 0 < withParen.matchCount.getD 0 then withParen
        else findContextLineDirect A nfc lines base startFrom allowFuzzy
      else noContextMatch bestScore

end

end OhMyPi.Edit
