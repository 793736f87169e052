import Mathlib.Data.List.DropRight
import OhMyPi.Edit.NotebookLemmas
import OhMyPi.Lib.Slice

/-! The shape of a text as the matchers see it (`edit/src/text.rs`): trimming, folding of typographic
characters, and the indentation of a replacement. -/

namespace OhMyPi.Edit

open Text

/-! ## Trimming -/

/-- JavaScript's `\s`. -/
def isJsWhitespace (c : Char) : Bool :=
  let n := c.toNat
  n = 0x09 || n = 0x0A || n = 0x0B || n = 0x0C || n = 0x0D || n = 0x20 || n = 0xA0 || n = 0x1680 ||
    decide (0x2000 ≤ n ∧ n ≤ 0x200A) || n = 0x2028 || n = 0x2029 || n = 0x202F || n = 0x205F ||
    n = 0x3000 || n = 0xFEFF

def jsTrimStart (text : List Char) : List Char := text.dropWhile isJsWhitespace

def jsTrimEnd (text : List Char) : List Char := text.rdropWhile isJsWhitespace

def jsTrim (text : List Char) : List Char := jsTrimEnd (jsTrimStart text)

def isNonEmptyLine (line : List Char) : Bool := !(jsTrim line).isEmpty

def isIndent (c : Char) : Bool := c = ' ' || c = '\t'

def getLeadingWhitespace (line : List Char) : List Char := line.takeWhile isIndent

def countLeadingWhitespace (line : List Char) : Nat := (getLeadingWhitespace line).length

/-! ## Folding -/

/-- What a typographic character is folded to. -/
def replaceUnicodeCharacter (c : Char) : Option (List Char) :=
  let n := c.toNat
  if 0x2010 ≤ n ∧ n ≤ 0x2015 ∨ n = 0x2212 then some ['-']
  else if 0x2018 ≤ n ∧ n ≤ 0x201B then some ['\'']
  else if 0x201C ≤ n ∧ n ≤ 0x201F then some ['"']
  else if n = 0x00A0 ∨ 0x2002 ≤ n ∧ n ≤ 0x200A ∨ n = 0x202F ∨ n = 0x205F ∨ n = 0x3000 then some [' ']
  else if n = 0x2260 then some ['!', '=']
  else if n = 0x00BD then some ['1', '/', '2']
  else if 0x200B ≤ n ∧ n ≤ 0x200D ∨ n = 0x2016 ∨ n = 0x2017 ∨ n = 0xFEFF then some []
  else none

/-- `normalize_unicode`. The canonical composition of Unicode is a parameter. -/
def normalizeUnicode (nfc : List Char → List Char) (text : List Char) : List Char :=
  let trimmed := jsTrim text
  if trimmed.all fun c => c.toNat < 128 then trimmed
  else nfc (trimmed.flatMap fun c => (replaceUnicodeCharacter c).getD [c])

/-- The character that `normalize_for_fuzzy` puts in the place of another one. -/
def foldFuzzy (c : Char) : Char :=
  let n := c.toNat
  if c = '"' ∨ n = 0x201E ∨ n = 0x201F ∨ n = 0xAB ∨ n = 0xBB then '"'
  else if c = '\'' ∨ n = 0x201A ∨ n = 0x201B ∨ n = 0x60 ∨ n = 0xB4 then '\''
  else if 0x2010 ≤ n ∧ n ≤ 0x2014 ∨ n = 0x2212 then '-'
  else if c = ' ' ∨ c = '\t' then ' '
  else c

/-- Runs of blanks become one. -/
def collapseBlanks : Bool → List Char → List Char
  | _, [] => []
  | inSpace, c :: rest =>
    let mapped := foldFuzzy c
    if mapped = ' ' then
      if inSpace then collapseBlanks true rest else mapped :: collapseBlanks true rest
    else mapped :: collapseBlanks false rest

def normalizeForFuzzy (line : List Char) : List Char := collapseBlanks false (jsTrim line)

/-! ## Indentation -/

structure IndentProfile where
  lines : List (List Char)
  char : Option Char := none
  spaceOnly : Bool := true
  tabOnly : Bool := true
  mixed : Bool := false
  unit : Nat := 0
  nonEmptyCount : Nat := 0

/-- A line goes into the profile, with the indents counted so far. -/
def IndentProfile.step (state : IndentProfile × List Nat) (line : List Char) :
    IndentProfile × List Nat :=
  if !isNonEmptyLine line then state
  else
    let (p, counts) := state
    let indent := getLeadingWhitespace line
    let hasSpace := indent.contains ' '
    let hasTab := indent.contains '\t'
    let clash :=
      match indent.head?, p.char with
      | some current, some existing => decide (existing ≠ current)
      | _, _ => false
    ({ p with
        char := p.char.or indent.head?
        spaceOnly := p.spaceOnly && !hasTab
        tabOnly := p.tabOnly && !hasSpace
        mixed := p.mixed || (hasSpace && hasTab) || clash
        nonEmptyCount := p.nonEmptyCount + 1 }, counts ++ [indent.length])

def buildIndentProfile (text : List Char) : IndentProfile :=
  let (p, counts) := (splitLines text).foldl IndentProfile.step ({ lines := splitLines text }, [])
  let unit :=
    if p.spaceOnly && p.nonEmptyCount ≠ 0 then
      counts.foldl (fun current count =>
        if count = 0 then current else if current = 0 then count else Nat.gcd current count) 0
    else 0
  { p with unit := if p.tabOnly && p.nonEmptyCount ≠ 0 then 1 else unit }

def convertLeadingTabsToSpaces (text : List Char) (spacesPerTab : Nat) : List Char :=
  if spacesPerTab = 0 then text
  else joinLines ((splitLines text).map fun line =>
    let trimmed := jsTrimStart line
    let leading := getLeadingWhitespace line
    if trimmed.isEmpty || !leading.contains '\t' || leading.contains ' ' then line
    else List.replicate (leading.length * spacesPerTab) ' ' ++ trimmed)

def isIndentationOnlyRewrite (oldText newText : List Char) : Bool :=
  (splitLines oldText).map jsTrim = (splitLines newText).map jsTrim

/-- The pairs of lines that both hold something. -/
def nonEmptyPairs (old actual : IndentProfile) : List (List Char × List Char) :=
  (old.lines.zip actual.lines).filter fun pair => isNonEmptyLine pair.1 && isNonEmptyLine pair.2

def maybeConvertTabIndentation (old actual new : IndentProfile) (newText : List Char) :
    Option (List Char) :=
  if !actual.spaceOnly || !old.tabOnly || !new.tabOnly || actual.unit = 0 then none
  else if (nonEmptyPairs old actual).all fun pair =>
      (getLeadingWhitespace pair.1).isEmpty ||
        countLeadingWhitespace pair.2 = countLeadingWhitespace pair.1 * actual.unit then
    some (convertLeadingTabsToSpaces newText actual.unit)
  else none

/-- The shift that all pairs of lines share. -/
def computeUniformIndentDelta (old actual : IndentProfile) : Option Int :=
  let deltas := (nonEmptyPairs old actual).map fun pair =>
    (countLeadingWhitespace pair.2 : Int) - countLeadingWhitespace pair.1
  match deltas with
  | [] => none
  | delta :: rest => if rest.all (· = delta) then some delta else none

def applyIndentDelta (text : List Char) (delta : Int) (indentChar : Char) : List Char :=
  joinLines ((splitLines text).map fun line =>
    if !isNonEmptyLine line then line
    else if 0 < delta then List.replicate delta.toNat indentChar ++ line
    else line.drop (min (-delta).toNat (countLeadingWhitespace line)))

/-- The first indentation character of a text. -/
def detectIndentChar (text : List Char) : Char :=
  (((splitLines text).map getLeadingWhitespace).findSome? List.head?).getD ' '

/-- `adjust_indentation`. -/
def adjustIndentation (oldText actualText newText : List Char) : List Char :=
  if oldText = actualText ∨ isIndentationOnlyRewrite oldText newText = true then newText
  else
    let old := buildIndentProfile oldText
    let actual := buildIndentProfile actualText
    let new := buildIndentProfile newText
    if old.nonEmptyCount = 0 ∨ actual.nonEmptyCount = 0 ∨ new.nonEmptyCount = 0 then newText
    else if old.mixed || actual.mixed || new.mixed then newText
    else if old.char.isSome && actual.char.isSome && old.char ≠ actual.char then
      (maybeConvertTabIndentation old actual new newText).getD newText
    else
      match computeUniformIndentDelta old actual with
      | none => newText
      | some delta =>
        if delta = 0 then newText
        else if new.char.isSome && actual.char.isSome && new.char ≠ actual.char then newText
        else applyIndentDelta newText delta
          ((actual.char.or old.char).getD (detectIndentChar actualText))

/-- An empty match is replaced by the text as it was given. -/
theorem adjustIndentation_nil (oldText newText : List Char) :
    adjustIndentation oldText [] newText = newText := by
  rw [adjustIndentation]
  split
  · rfl
  · have hcount : (buildIndentProfile []).nonEmptyCount = 0 := by decide
    simp only [hcount, true_or, or_true, if_true]

example : adjustIndentation "foo".toList "    foo".toList "bar\n  baz".toList =
    "    bar\n      baz".toList := by decide +kernel

end OhMyPi.Edit
