import OhMyPi.Edit.TextShape

/-! The hunks of a patch (`edit/src/modes/patch.rs`): the indentation that the new lines take over
from the file, and the smaller hunks that are tried where a hunk is not found as it is. -/

namespace OhMyPi.Edit

open Text

/-- One hunk of a patch. -/
structure DiffHunk where
  changeContext : Option (List Char) := none
  oldStartLine : Option Nat := none
  newStartLine : Option Nat := none
  hasContextLines : Bool := false
  oldLines : List (List Char)
  newLines : List (List Char)
  isEndOfFile : Bool := false

def isBlankLine (line : List Char) : Bool := (jsTrim line).isEmpty

/-! ## Indentation -/

def equalTrimmed (left right : List (List Char)) : Bool := left.map jsTrim = right.map jsTrim

def indentChar (lines : List (List Char)) : Char :=
  (lines.findSome? fun line => (getLeadingWhitespace line).head?).getD ' '

/-- `apply_indent_delta` on one line. -/
def shiftLine (line : List Char) (delta : Int) (indent : Char) : List Char :=
  if isBlankLine line then line
  else if 0 < delta then List.replicate delta.toNat indent ++ line
  else line.drop (min (-delta).toNat (countLeadingWhitespace line))

/-- No line with something on it has `c` in its indentation. -/
def indentWithout (c : Char) (lines : List (List Char)) : Bool :=
  (lines.filter (!isBlankLine ·)).all fun line => !(getLeadingWhitespace line).contains c

def indentMixed (lines : List (List Char)) : Bool :=
  lines.any fun line =>
    (getLeadingWhitespace line).contains ' ' && (getLeadingWhitespace line).contains '\t'

/-- The pairs of lines that both hold something, by their indentation. -/
def indentPairs (pattern actual : List (List Char)) : List (Nat × Nat) :=
  ((pattern.zip actual).filter fun pair => !isBlankLine pair.1 && !isBlankLine pair.2).map fun pair =>
    (countLeadingWhitespace pair.1, countLeadingWhitespace pair.2)

/-- The number of spaces that stand for one tab of the pattern, if it is the same everywhere. -/
def tabRatio (pairs : List (Nat × Nat)) : Option Nat :=
  match (pairs.filter fun pair => pair.1 ≠ 0) with
  | [] => none
  | (old, found) :: rest =>
    let ratio := found / old
    if ((old, found) :: rest).all (fun pair => pair.2 % pair.1 = 0 && pair.2 / pair.1 = ratio) &&
        0 < ratio then some ratio
    else none

/-- The spaces of the pattern by the tabs of the file, none where two lines disagree. -/
def tabSamples (pairs : List (Nat × Nat)) : Option (List (Nat × Nat)) :=
  (pairs.filter fun pair => pair.2 ≠ 0).foldlM (fun samples pair =>
    match samples.lookup pair.2 with
    | some prior => if prior = pair.1 then some samples else none
    | none => some (samples ++ [(pair.2, pair.1)])) []

/-- The width of a tab and the offset, from the samples in the order of their tabs. -/
def tabWidth (samples : List (Nat × Nat)) : Option (Nat × Int) :=
  match samples with
  | [] => none
  | [(tabs, spaces)] => if spaces % tabs = 0 && 0 < spaces / tabs then some (spaces / tabs, 0) else none
  | (tabsA, spacesA) :: (tabsB, spacesB) :: _ =>
    let tabsDelta : Int := (tabsB : Int) - tabsA
    let spacesDelta : Int := (spacesB : Int) - spacesA
    if tabsDelta ≠ 0 ∧ 0 < spacesDelta ∧ spacesDelta.tmod tabsDelta = 0 then
      let width := spacesDelta.tdiv tabsDelta
      let offset := (spacesA : Int) - tabsA * width
      if 0 < width ∧ samples.all (fun s => decide ((s.1 : Int) * width + offset = s.2)) = true then
        some (width.toNat, offset)
      else none
    else none

/-- A line indented with spaces, with tabs of a width. -/
def retabLine (width : Nat) (offset : Int) (line : List Char) : List Char :=
  let spaces := countLeadingWhitespace line
  let adjusted : Int := (spaces : Int) - offset
  if isBlankLine line || spaces = 0 || adjusted < 0 then line
  else
    let tabs := adjusted.toNat / width
    List.replicate tabs '\t' ++ List.replicate (adjusted.toNat - tabs * width) ' ' ++ line.drop spaces

/-- The shift that all pairs share. -/
def uniformDelta (pairs : List (Nat × Nat)) : Option Int :=
  match pairs.map fun pair => (pair.2 : Int) - pair.1 with
  | [] => none
  | delta :: rest => if rest.all (· = delta) then some delta else none

/-- The shift of a line that stands in the place of a line of the pattern. -/
def localDelta (pattern actual newLines : List (List Char)) (index : Nat) (line : List Char) :
    Option Int :=
  if pattern.length ≠ newLines.length then none
  else
    match pattern[index]?, actual[index]? with
    | some patternLine, some actualLine =>
      let delta : Int := (countLeadingWhitespace actualLine : Int) - countLeadingWhitespace patternLine
      if isBlankLine patternLine || isBlankLine actualLine then none
      else if delta ≠ 0 ∧ countLeadingWhitespace line = countLeadingWhitespace patternLine then
        some delta
      else none
    | _, _ => none

/-- A new line, and the number of times each text has been taken from the file. -/
def reindentLine (pattern actual newLines : List (List Char)) (index : Nat)
    (used : List (List Char × Nat)) (line : List Char) : List Char × List (List Char × Nat) :=
  let trimmed := jsTrim line
  let matching := (actual.filter (!isBlankLine ·)).filter fun other => jsTrim other = trimmed
  let times := (used.lookup trimmed).getD 0
  let patternMin := (((pattern.filter (!isBlankLine ·)).map countLeadingWhitespace).min?).getD 0
  let delta := (uniformDelta (indentPairs pattern actual)).filter fun delta =>
    delta ≠ 0 && countLeadingWhitespace line = patternMin
  let shifted := ((localDelta pattern actual newLines index line).or delta).elim line fun delta =>
    shiftLine line delta (indentChar actual)
  if isBlankLine line then (line, used)
  else
    match matching with
    | [] => (shifted, used)
    | [only] => (only, used)
    | _ =>
      if matching.contains line then (line, used)
      else
        match matching[times]? with
        | some found => (found, (trimmed, times + 1) :: used)
        | none => (shifted, used)

def reindentLoop (pattern actual newLines : List (List Char)) :
    Nat → List (List Char × Nat) → List (List Char) → List (List Char)
  | _, _, [] => []
  | index, used, line :: rest =>
    let (line, used) := reindentLine pattern actual newLines index used line
    line :: reindentLoop pattern actual newLines (index + 1) used rest

def adjustLinesIndentation (pattern actual newLines : List (List Char)) : List (List Char) :=
  if pattern.isEmpty || actual.isEmpty || newLines.isEmpty || pattern = actual then newLines
  else if equalTrimmed pattern newLines then newLines
  else
    let pairs := indentPairs pattern actual
    let unmixed := !indentMixed pattern && !indentMixed actual
    match if unmixed && indentWithout ' ' pattern && indentWithout '\t' actual then tabRatio pairs
      else none with
    | some ratio => splitLines (convertLeadingTabsToSpaces (joinLines newLines) ratio)
    | none =>
      match if unmixed && indentWithout '\t' pattern && indentWithout ' ' actual then
          (tabSamples pairs).bind fun samples =>
            tabWidth (samples.insertionSort fun a b => a.1 ≤ b.1)
        else none with
      | some (width, offset) => newLines.map (retabLine width offset)
      | none => reindentLoop pattern actual newLines 0 [] newLines

/-! ## Smaller hunks -/

inductive HunkVariantKind
  | trimCommon
  | dedupeShared
  | collapseRepeated
  | singleLine
deriving DecidableEq, Repr

structure HunkVariant where
  oldLines : List (List Char)
  newLines : List (List Char)
  kind : HunkVariantKind
deriving DecidableEq, Repr

/-- Both texts without the lines they start with in common. -/
def dropShared : List (List Char) → List (List Char) → List (List Char) × List (List Char)
  | a :: old, b :: new => if a = b then dropShared old new else (a :: old, b :: new)
  | old, new => (old, new)

def trimCommonContext (old new : List (List Char)) : Option HunkVariant :=
  let (frontOld, frontNew) := dropShared old new
  let (backOld, backNew) := dropShared frontOld.reverse frontNew.reverse
  let (oldLines, newLines) := (backOld.reverse, backNew.reverse)
  if oldLines.length = old.length ∧ newLines.length = new.length then none
  else if oldLines.isEmpty && newLines.isEmpty then none
  else some ⟨oldLines, newLines, .trimCommon⟩

/-- Runs of a line that both sides share become one line. -/
def collapseRuns (shared : List Char → Bool) : List (List Char) → List (List Char)
  | a :: b :: lines =>
    if a = b && shared a then collapseRuns shared (b :: lines) else a :: collapseRuns shared (b :: lines)
  | lines => lines

def sharedLine (old new : List (List Char)) (line : List Char) : Bool :=
  old.contains line && new.contains line

def collapseConsecutiveShared (old new : List (List Char)) : Option HunkVariant :=
  let oldLines := collapseRuns (sharedLine old new) old
  let newLines := collapseRuns (sharedLine old new) new
  if oldLines.length ≠ old.length ∨ newLines.length ≠ new.length then
    some ⟨oldLines, newLines, .dedupeShared⟩
  else none

/-- The longest block of shared lines that stands twice at the start. -/
def repeatedBlock (shared : List Char → Bool) (lines : List (List Char)) : Option Nat :=
  ((List.range' 2 (lines.length / 2 - 1)).reverse).find? fun size =>
    (lines.take size = (lines.drop size).take size) && (lines.take size).all shared

/-- The loop that drops the second of two equal blocks, and whether it dropped any. -/
def collapseBlocks (shared : List Char → Bool) : Nat → List (List Char) → Bool × List (List Char)
  | 0, lines => (false, lines)
  | _ + 1, [] => (false, [])
  | fuel + 1, line :: lines =>
    match if shared line then repeatedBlock shared (line :: lines) else none with
    | some size =>
      let (_, output) := collapseBlocks shared fuel
        ((line :: lines).take size ++ (line :: lines).drop (size * 2))
      (true, output)
    | none =>
      let (changed, output) := collapseBlocks shared fuel lines
      (changed, line :: output)

def collapseRepeatedBlocks (old new : List (List Char)) : Option HunkVariant :=
  let (oldChanged, oldLines) := collapseBlocks (sharedLine old new) (old.length + 1) old
  let (newChanged, newLines) := collapseBlocks (sharedLine old new) (new.length + 1) new
  if oldChanged || newChanged then some ⟨oldLines, newLines, .collapseRepeated⟩ else none

def reduceSingleLine (old new : List (List Char)) : Option HunkVariant :=
  if old.isEmpty || old.length ≠ new.length then none
  else
    match (old.zip new).filter fun pair => pair.1 ≠ pair.2 with
    | [(a, b)] => some ⟨[a], [b], .singleLine⟩
    | _ => none

/-- The variants of a hunk, without those that say the same. -/
def fallbackVariants (hunk : DiffHunk) (aggressive : Bool) : List HunkVariant :=
  let trimmed := trimCommonContext hunk.oldLines hunk.newLines
  let baseOld := trimmed.elim hunk.oldLines HunkVariant.oldLines
  let baseNew := trimmed.elim hunk.newLines HunkVariant.newLines
  let deduped := collapseConsecutiveShared baseOld baseNew
  let collapseOld := deduped.elim baseOld HunkVariant.oldLines
  let collapseNew := deduped.elim baseNew HunkVariant.newLines
  let variants := trimmed.toList ++ deduped.toList ++
    (collapseRepeatedBlocks collapseOld collapseNew).toList ++
    (reduceSingleLine baseOld baseNew).toList
  let kept := variants.filter fun variant =>
    aggressive || (variant.kind ≠ .collapseRepeated && variant.kind ≠ .singleLine)
  let key (variant : HunkVariant) : List Char :=
    joinLines variant.oldLines ++ "||".toList ++ joinLines variant.newLines
  kept.eraseDupsBy fun a b => key a = key b

end OhMyPi.Edit
