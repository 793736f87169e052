import OhMyPi.Slopjson.Value

/-! The tolerant lexer. The source is a text of characters and a position in it the number of bytes
before it; every byte the readers look for is ASCII, so they go from character to character. -/

namespace OhMyPi.Slopjson

open Text JsonTokens

inductive PathSegment
  | key (k : List Char)
  | index (i : Nat)

inductive RepairKind
  | comment
  | singleQuotedString
  | unquotedKey
  | pythonLiteral
  | strayComma
  | trailingComma
  | invalidEscape
  | rawControlCharacter
  | radixNumber
  | relaxedNumber
  | barewordValue
  | innerQuote

structure Repair where
  start : Nat
  stop : Nat
  path : List PathSegment
  kind : RepairKind
  before : List Char
  after : List Char

inductive ParseError
  | unexpectedEnd
  | trailingCharacters (pos : Nat)
  | unterminatedObject
  | unterminatedArray
  | unterminatedString
  | expectedKey (pos : Nat)
  | expectedColon (pos : Nat)
  | expectedValue (pos : Nat)
  | expectedCommaOrBrace (pos : Nat)
  | expectedCommaOrBracket (pos : Nat)
  | invalidNumber (pos : Nat)
  | unexpectedToken (pos : Nat)
  | depthExceeded

/-- Grammar tolerance selected by the parser's consumer. -/
inductive Mode
  | strict
  | streaming
  | incoming
deriving DecidableEq

def Mode.incompleteOk (m : Mode) : Bool := m ≠ .strict

def Mode.dqRecovery (m : Mode) : Bool := m = .streaming

structure Parser where
  /-- The cursor, in bytes. -/
  pos : Nat
  /-- The source from the cursor on. -/
  rest : List Char
  mode : Mode
  repairs : List Repair
  repairPath : List PathSegment

/-- `MAX_DEPTH`. -/
def maxDepth : Nat := 128

inductive Atom
  | bool (b : Bool)
  | null

def Atom.text : Atom → List Char
  | .bool true => "true".toList
  | .bool false => "false".toList
  | .null => "null".toList

def keywords : List (List Char × Atom) :=
  [("true".toList, .bool true), ("false".toList, .bool false), ("null".toList, .null),
    ("True".toList, .bool true), ("False".toList, .bool false), ("None".toList, .null)]

def isIdentChar (c : Char) : Bool := c.isAlphanum || c = '_' || c = '$'

/-! ## Comments -/

/-- A block comment up to its end, and what follows it. -/
def blockEnd : List Char → Option (List Char × List Char)
  | [] => none
  | c :: text =>
    match c, text with
    | '*', '/' :: rest => some (['*', '/'], rest)
    | _, _ => (blockEnd text).map fun (body, rest) => (c :: body, rest)

/-- A comment at the start of the text, what follows it, and whether it is closed. -/
def comment : List Char → Option (List Char × List Char × Bool)
  | '/' :: '/' :: text =>
    let rest := text.dropWhile (· ≠ '\n')
    some ('/' :: '/' :: text.takeWhile (· ≠ '\n'), rest, !rest.isEmpty)
  | '/' :: '*' :: text =>
    match blockEnd text with
    | some (body, rest) => some ('/' :: '*' :: body, rest, true)
    | none => some ('/' :: '*' :: text, [], false)
  | _ => none

def skipInsignificantLoop : Nat → List Char → List Char
  | 0, text => text
  | fuel + 1, text =>
    match comment (text.dropWhile isSpace) with
    | some (_, rest, _) => skipInsignificantLoop fuel rest
    | none => text.dropWhile isSpace

def skipInsignificant (text : List Char) : List Char :=
  skipInsignificantLoop (text.length + 1) text

namespace Parser

def new (src : List Char) (mode : Mode) : Parser := ⟨0, src, mode, [], []⟩

/-- The span is that of `before`, which starts at `start`. -/
def record (p : Parser) (start : Nat) (before : List Char) (kind : RepairKind)
    (after : List Char) : Parser :=
  { p with
    repairs := p.repairs ++ [⟨start, start + byteLen before, p.repairPath, kind, before, after⟩] }

def recordComma (p : Parser) (at_ : Nat) (trailing : Bool) : Parser :=
  p.record at_ [','] (if trailing then .trailingComma else .strayComma) []

def pushRepairPath (p : Parser) (segment : PathSegment) : Parser :=
  { p with repairPath := p.repairPath ++ [segment] }

def popRepairPath (p : Parser) : Parser := { p with repairPath := p.repairPath.dropLast }

def retargetRepairsFrom (p : Parser) (start : Nat) (segment : PathSegment) : Parser :=
  { p with
    repairs := p.repairs.map fun r =>
      if start ≤ r.start then { r with path := r.path ++ [segment] } else r }

/-- The cursor behind `taken`. -/
def move (p : Parser) (taken rest : List Char) : Parser :=
  { p with pos := p.pos + byteLen taken, rest := rest }

def skipBlank (p : Parser) : Parser :=
  p.move (p.rest.takeWhile isSpace) (p.rest.dropWhile isSpace)

def wsLoop : Nat → Parser → Parser
  | 0, p => p
  | fuel + 1, p =>
    match comment p.skipBlank.rest with
    | some (text, rest, closed) =>
      let next := p.skipBlank.move text rest
      wsLoop fuel
        (if closed || p.mode = .strict then next.record p.skipBlank.pos text .comment [] else next)
    | none => p.skipBlank

/-- Skip whitespace plus `//` line and `/* */` block comments. -/
def ws (p : Parser) : Parser := p.wsLoop (p.rest.length + 1)

/-! ## Strings -/

inductive QuoteLook
  | closes
  | inner
  | undecided

/-- A quote closes a string only when the next significant character ends a value. -/
def quoteLookahead (mode : Mode) (text : List Char) : QuoteLook :=
  match skipInsignificant text with
  | [] => .closes
  | c :: rest =>
    if c = ',' ∨ c = '}' ∨ c = ']' ∨ c = ':' then .closes
    else if c = '/' ∧ mode.incompleteOk = true ∧ rest = [] then .undecided
    else .inner

structure StringProgress where
  value : List Char
  stableLen : Nat
  complete : Bool

/-- The loop of `string_progress` at a character: what has been read since the opening quote, what
it decodes to and from where on that may still change. -/
structure Scan where
  p : Parser
  start : Nat
  quote : Char
  read : List Char
  out : List Char
  unstableFrom : Option Nat

namespace Scan

def pos (s : Scan) : Nat := s.start + byteLen s.read

def push (s : Scan) (taken decoded : List Char) : Scan :=
  { s with read := s.read ++ taken, out := s.out ++ decoded }

def note (s : Scan) (before : List Char) (kind : RepairKind) (after : List Char) : Scan :=
  { s with p := s.p.record s.pos before kind after }

/-- Nothing from here on is stable. -/
def unstable (s : Scan) : Scan := { s with unstableFrom := some (byteLen s.out) }

def look (s : Scan) (rest : List Char) : QuoteLook :=
  if s.quote ≠ '\'' ∧ s.p.mode.dqRecovery = false then .closes else quoteLookahead s.p.mode rest

def close (s : Scan) (rest : List Char) : StringProgress × Parser :=
  let read := s.read ++ [s.quote]
  let p := { s.p with pos := s.start + byteLen read, rest := rest }
  (⟨s.out, byteLen s.out, true⟩,
    if s.quote = '\'' then p.record s.start read .singleQuotedString (writeEscaped s.out) else p)

/-- An unterminated string: progress when truncation is tolerated. -/
def truncated (s : Scan) : Except ParseError (StringProgress × Parser) :=
  if s.p.mode.incompleteOk then
    .ok (⟨s.out, s.unstableFrom.getD (byteLen s.out), false⟩, { s.p with pos := s.pos, rest := [] })
  else .error .unterminatedString

end Scan

def controlEscape (c : Char) : List Char :=
  if c = '\n' then ['\\', 'n']
  else if c = '\r' then ['\\', 'r']
  else if c = '\t' then ['\\', 't']
  else if c.toNat = 0x08 then ['\\', 'b']
  else if c.toNat = 0x0c then ['\\', 'f']
  else ['\\', 'u', '0', '0', (hexChar (c.toNat / 16)).toUpper, (hexChar c.toNat).toUpper]

/-- The escapes of one letter, with the apostrophe. -/
def letterEscape (c : Char) : Option Char := if c = '\'' then some c else shortEscape c

/-- The character of a pair of surrogates. -/
def combined (unit low : Nat) : Char := Char.ofNat (0x10000 + (unit - 0xd800) * 0x400 + (low - 0xdc00))

/-- A unit that is not the first of a pair. -/
def Scan.single (s : Scan) (taken : List Char) (unit : Nat) (rest : List Char) : Scan :=
  if isSurrogate unit = false then s.push taken [Char.ofNat unit]
  else if s.p.mode.incompleteOk = true ∧ isHigh unit = true ∧ byteLen rest < 6 then
    s.unstable.push taken [replacement]
  else s.push taken [replacement]

/-- An escape outside the vocabulary stays as it is. -/
def Scan.invalid (s : Scan) (c : Char) : Scan :=
  (s.note ['\\', c] .invalidEscape ['\\', '\\', c]).push ['\\', c] ['\\', c]

def Scan.invalidUnicode (s : Scan) (rest : List Char) : Scan :=
  if byteLen rest < 4 then s.unstable.push ['\\', 'u'] ['\\', 'u'] else s.invalid 'u'

def stringLoop : List Char → Scan → Except ParseError (StringProgress × Parser)
  | [], s => s.truncated
  | c :: rest, s =>
    if c.toNat < 0x20 then
      stringLoop rest ((s.note [c] .rawControlCharacter (controlEscape c)).push [c] [c])
    else if c = s.quote then
      match s.look rest with
      | .closes => .ok (s.close rest)
      | .undecided =>
        stringLoop rest ((if s.unstableFrom.isNone then s.unstable else s).push [c] [c])
      | .inner =>
        stringLoop rest
          ((if s.quote = '"' then s.note [c] .innerQuote ['\\', '"'] else s).push [c] [c])
    else if c ≠ '\\' then stringLoop rest (s.push [c] [c])
    else
      match rest with
      | [] => (s.unstable.push ['\\'] ['\\']).truncated
      | 'u' :: hex =>
        match hex with
        | a :: b :: c :: d :: rest =>
          match unitOf a b c d with
          | none => stringLoop (a :: b :: c :: d :: rest) (s.invalidUnicode hex)
          | some unit =>
            match rest with
            | '\\' :: 'u' :: a' :: b' :: c' :: d' :: rest' =>
              match unitOf a' b' c' d' with
              | some low =>
                if isHigh unit = true ∧ isLow low = true then
                  -- A surrogate pair split across two escapes.
                  stringLoop rest' (s.push ['\\', 'u', a, b, c, d, '\\', 'u', a', b', c', d']
                    [combined unit low])
                else
                  stringLoop ('\\' :: 'u' :: a' :: b' :: c' :: d' :: rest')
                    (s.single ['\\', 'u', a, b, c, d] unit
                      ('\\' :: 'u' :: a' :: b' :: c' :: d' :: rest'))
              | none =>
                stringLoop ('\\' :: 'u' :: a' :: b' :: c' :: d' :: rest')
                  (s.single ['\\', 'u', a, b, c, d] unit
                    ('\\' :: 'u' :: a' :: b' :: c' :: d' :: rest'))
            | rest => stringLoop rest (s.single ['\\', 'u', a, b, c, d] unit rest)
        | hex => stringLoop hex (s.invalidUnicode hex)
      | e :: rest =>
        match letterEscape e with
        | some decoded => stringLoop rest (s.push ['\\', e] [decoded])
        | none => stringLoop rest (s.invalid e)

/-- Read a string whose opening `quote` is before `rest`. -/
def stringProgress (p : Parser) (quote : Char) (rest : List Char) :
    Except ParseError (StringProgress × Parser) :=
  stringLoop rest ⟨p, p.pos, quote, [quote], [], none⟩

def string (p : Parser) (quote : Char) (rest : List Char) : Except ParseError (List Char × Parser) :=
  (p.stringProgress quote rest).map fun (progress, p) => (progress.value, p)

end Parser

/-! ## Numbers -/

variable {D : Doubles}

/-- The sign in front of a number, and the rest. -/
def splitSign : List Char → Bool × List Char
  | '-' :: text => (true, text)
  | '+' :: text => (false, text)
  | text => (false, text)

/-- The exponent that `e`, a sign and digits write. -/
def parseExponent : List Char → Option Int
  | [] => some 0
  | c :: text =>
    let (neg, digits) := splitSign text
    if (c = 'e' ∨ c = 'E') ∧ digits ≠ [] ∧ digits.all isDigit = true then
      some (if neg then -(digitsValue digits : Int) else digitsValue digits)
    else none

/-- The digits behind a point, and the rest. -/
def splitFraction : List Char → List Char × List Char
  | '.' :: text => (text.takeWhile isDigit, text.dropWhile isDigit)
  | text => ([], text)

/-- `f64::from_str`, with its grammar as the standard library documents it. -/
def parseF64 (token : List Char) : Option D.F :=
  let (neg, body) := splitSign token
  let name := body.map Char.toLower
  if name = "inf".toList ∨ name = "infinity".toList then some (D.infinity neg)
  else if name = "nan".toList then some D.nan
  else
    let int := body.takeWhile isDigit
    let (frac, rest) := splitFraction (body.dropWhile isDigit)
    if int = [] ∧ frac = [] then none
    else (parseExponent rest).map fun exp =>
      D.ofDecimal neg (digitsValue (int ++ frac)) (exp - frac.length)

/-- `char::to_digit`. -/
def toDigit (radix : Nat) (c : Char) : Option Nat := (hexValue c).filter (· < radix)

/-- An integer while it fits 64 bits, a double from there on. -/
def radixStep (radix : Nat) (acc : Nat ⊕ D.F) (d : Nat) : Nat ⊕ D.F :=
  match acc with
  | .inl int =>
    if int * radix + d < 2 ^ 64 then .inl (int * radix + d)
    else .inr (D.mulAdd (D.ofNat int) radix d)
  | .inr float => .inr (D.mulAdd float radix d)

def parseRadix (digits : List Char) (radix : Nat) : Option (Number D) :=
  if digits = [] then none
  else do
    let values ← digits.mapM (toDigit radix)
    match values.foldl (radixStep (D := D) radix) (.inl 0) with
    | .inl int => some (Number.fromU64 int)
    | .inr float => Number.fromF64 float

/-- The decimal branch of `parse_number_token`: an integer that fits 64 bits stays exact. -/
def parseDecimal (token : List Char) : Option (Number D) :=
  let signed := if token.head? = some '+' then token.drop 1 else token
  let neg := signed.head? = some '-'
  let digits := if neg then signed.drop 1 else signed
  let float := (parseF64 (D := D) signed).bind Number.fromF64
  if digits ≠ [] ∧ digits.all isDigit = true then
    if neg then
      if digitsValue digits ≤ 2 ^ 63 then some (Number.fromI64 (-(digitsValue digits : Int)))
      else float
    else if digitsValue digits < 2 ^ 64 then some (Number.fromU64 (digitsValue digits))
    else float
  else float

def parseNumberToken (token : List Char) : Option (Number D) :=
  match token with
  | '0' :: x :: d :: digits =>
    if x = 'x' ∨ x = 'X' then parseRadix (d :: digits) 16
    else if x = 'b' ∨ x = 'B' then parseRadix (d :: digits) 2
    else parseDecimal token
  | _ => parseDecimal token

def isNumberChar (c : Char) : Bool :=
  isDigit c || c = '-' || c = '+' || c = '.' || c = 'x' || c = 'X' || ('a' ≤ c && c ≤ 'f') ||
    ('A' ≤ c && c ≤ 'F')

/-- The repair that an accepted spelling of a number is noted as. -/
def numberRepair (raw : List Char) : Option RepairKind :=
  if raw.head? = some '0' ∧ (raw.drop 1).head?.any (· ∈ ['x', 'X', 'b', 'B']) = true then
    some .radixNumber
  else if raw.head? = some '+' ∨ raw.head? = some '.' ∨ raw.getLast? = some '.' then
    some .relaxedNumber
  else none

namespace Parser

/-- Read a numeric token. -/
def number (p : Parser) : Except ParseError (Option (Number D) × Parser) :=
  let raw := p.rest.takeWhile isNumberChar
  let next := p.move raw (p.rest.dropWhile isNumberChar)
  match parseNumberToken raw with
  | some number =>
    .ok (some number, match numberRepair raw with
      | some kind => next.record p.pos raw kind number.display
      | none => next)
  | none => if p.mode.incompleteOk then .ok (none, next) else .error (.invalidNumber p.pos)

/-! ## Words -/

/-- The keyword at the cursor, with a boundary behind it. -/
def keywordAt (p : Parser) (word : List Char) (atom : Atom) : Option (Atom × Parser) :=
  if word <+: p.rest ∧ (p.rest.drop word.length).head?.any isIdentChar = false then
    let next := p.move word (p.rest.drop word.length)
    some (atom, if word.head?.any Char.isUpper then
      next.record p.pos word .pythonLiteral atom.text else next)
  else none

/-- Match a keyword literal at the cursor; consumes only on success. -/
def matchKeyword (p : Parser) : Option (Atom × Parser) :=
  keywords.findSome? fun (word, atom) => p.keywordAt word atom

/-- Read an unquoted object key. May be empty. -/
def unquotedKey (p : Parser) : List Char × Parser :=
  let stops (c : Char) : Bool := c = ':' || c = ',' || c = '}' || isSpace c
  let key := p.rest.takeWhile (!stops ·)
  let next := p.move key (p.rest.dropWhile (!stops ·))
  (key, if key = [] then next else next.record p.pos key .unquotedKey (writeEscaped key))

/-- The text before a delimiter. A quote, an opening bracket or a colon that could follow a key
is refused. -/
def barewordSpan : List Char → Option (List Char × List Char)
  | [] => none
  | c :: text =>
    if c = ',' ∨ c = '}' ∨ c = ']' ∨ c = '\n' ∨ c = '\r' then some ([], c :: text)
    else if c = '"' ∨ c = '\x7b' ∨ c = '[' ∨
        (c = ':' ∧ text.head? ≠ some '/' ∧ text.head? ≠ some '\\') then none
    else (barewordSpan text).map fun (word, rest) => (c :: word, rest)

def nonFinite : List (List Char) :=
  ["NaN".toList, "Infinity".toList, "-Infinity".toList, "+Infinity".toList, "undefined".toList]

/-- Recovery of an unquoted string value. -/
def bareword (p : Parser) : Except ParseError (List Char × Parser) :=
  match barewordSpan p.rest with
  | none => .error (.unexpectedToken p.pos)
  | some (span, rest) =>
    let word := (span.reverse.dropWhile isSpace).reverse
    if nonFinite.contains word then .error (.unexpectedToken p.pos)
    else .ok (word, (p.move span rest).record p.pos word .barewordValue (writeEscaped word))

end Parser

end OhMyPi.Slopjson
