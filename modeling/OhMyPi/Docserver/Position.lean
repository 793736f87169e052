import OhMyPi.Lib.Slice

/-! Positions of a language server, a line and a character counted in code units, against byte
offsets. Lines end at LF, CR or CRLF; both directions scan the bytes of the text for themselves. -/

namespace OhMyPi.Docserver.Lsp

open Text

inductive PositionEncoding
  | utf8
  | utf16
  | utf32
deriving DecidableEq, Repr

structure Position where
  line : UInt32
  character : UInt32
deriving DecidableEq, Repr

namespace Position

/-- The derived order: lines first. -/
instance : LT Position where
  lt a b := a.line < b.line ∨ a.line = b.line ∧ a.character < b.character

instance (a b : Position) : Decidable (a < b) :=
  inferInstanceAs (Decidable (a.line < b.line ∨ a.line = b.line ∧ a.character < b.character))

end Position

structure Range where
  start : Position
  stop : Position
deriving DecidableEq, Repr

inductive PositionError
  | lineOutOfBounds (line : UInt32)
  | characterOutOfBounds (position : Position)
  | insideCodePoint (position : Position)
  | byteOffsetOutOfBounds (offset : Nat)
  | notUtf8Boundary (offset : Nat)
  | insideLineEnding (offset : Nat)
  | reversedRange (start stop : Nat)
  | overlappingEdits
  | lineOverflow
  | characterOverflow
  | outputTooLarge
deriving DecidableEq, Repr

/-- The result of a function that slices texts: none when a slice panics. -/
abbrev Checked := ExceptT PositionError Option

def cr : UInt8 := 13

def lf : UInt8 := 10

/-- `u32::checked_add(1)` -/
def checkedSucc (n : UInt32) : Option UInt32 :=
  if n.toNat + 1 < 2 ^ 32 then some (n + 1) else none

def characterWidth (encoding : PositionEncoding) (character : Char) : Nat :=
  match encoding with
  | .utf8 => character.utf8Size
  | .utf16 => if character.toNat < 0x10000 then 1 else 2
  | .utf32 => 1

/-- The code units of some characters. -/
def units (encoding : PositionEncoding) (text : List Char) : Nat :=
  (text.map (characterWidth encoding)).sum

/-- The loop of `line_bounds` at `cursor`, with `skip` bytes of a line ending still to be passed. -/
def lineBoundsFrom (wanted : UInt32) :
    Nat → List UInt8 → UInt32 → Nat → Nat → Option (Nat × Nat)
  | skip + 1, _ :: rest, line, start, cursor => lineBoundsFrom wanted skip rest line start cursor
  | _, [], line, start, cursor => if line = wanted then some (start, cursor) else none
  | 0, b :: rest, line, start, cursor =>
    if line = wanted then
      some (start, cursor + ((b :: rest).takeWhile fun b => b != cr && b != lf).length)
    else if b = cr then
      if rest.head? = some lf then
        (checkedSucc line).bind fun line => lineBoundsFrom wanted 1 rest line (cursor + 2) (cursor + 2)
      else
        (checkedSucc line).bind fun line => lineBoundsFrom wanted 0 rest line (cursor + 1) (cursor + 1)
    else if b = lf then
      (checkedSucc line).bind fun line => lineBoundsFrom wanted 0 rest line (cursor + 1) (cursor + 1)
    else lineBoundsFrom wanted 0 rest line start (cursor + 1)

def lineBounds (text : List Char) (wanted : UInt32) : Option (Nat × Nat) :=
  lineBoundsFrom wanted 0 (utf8 text) 0 0 0

/-- The loop over the characters of a line, `relative` bytes and `counted` units into it. -/
def characterOffset (encoding : PositionEncoding) (position : Position) :
    List Char → Nat → Nat → Except PositionError Nat
  | [], relative, counted =>
    if counted = position.character.toNat then .ok relative
    else .error (.characterOutOfBounds position)
  | character :: rest, relative, counted =>
    if counted = position.character.toNat then .ok relative
    else if position.character.toNat < counted + characterWidth encoding character then
      .error (.insideCodePoint position)
    else
      characterOffset encoding position rest (relative + character.utf8Size)
        (counted + characterWidth encoding character)

def positionToOffset (encoding : PositionEncoding) (text : List Char) (position : Position) :
    Checked Nat :=
  match lineBounds text position.line with
  | none => throw (.lineOutOfBounds position.line)
  | some (start, stop) =>
    (slice text start stop).map fun line =>
      (characterOffset encoding position line 0 0).map (start + ·)

def positionInLine (encoding : PositionEncoding) (text : List Char) (line : UInt32)
    (lineStart offset : Nat) : Checked Position :=
  (slice text lineStart offset).map fun part =>
    if units encoding part < 2 ^ 32 then .ok ⟨line, UInt32.ofNat (units encoding part)⟩
    else .error .characterOverflow

/-- The width of the line ending that starts with `b`, if one does. -/
def delimiter (b : UInt8) (next : Option UInt8) : Option Nat :=
  if b = cr ∧ next = some lf then some 2
  else if b = cr ∨ b = lf then some 1
  else none

/-- The loop of `offset_to_position` at `cursor`, with `skip` bytes of a line ending still to be
passed. -/
def offsetToPositionFrom (encoding : PositionEncoding) (text : List Char) (offset : Nat) :
    Nat → List UInt8 → UInt32 → Nat → Nat → Checked Position
  | skip + 1, _ :: rest, line, lineStart, cursor =>
    offsetToPositionFrom encoding text offset skip rest line lineStart cursor
  | _, [], line, lineStart, _ => positionInLine encoding text line lineStart offset
  | 0, b :: rest, line, lineStart, cursor =>
    match delimiter b rest.head? with
    | none => offsetToPositionFrom encoding text offset 0 rest line lineStart (cursor + 1)
    | some width =>
      if offset ≤ cursor then positionInLine encoding text line lineStart offset
      else if offset < cursor + width then throw (.insideLineEnding offset)
      else
        match checkedSucc line with
        | none => throw .lineOverflow
        | some line =>
          if offset = cursor + width then pure ⟨line, 0⟩
          else
            offsetToPositionFrom encoding text offset (width - 1) rest line (cursor + width)
              (cursor + width)

def offsetToPosition (encoding : PositionEncoding) (text : List Char) (offset : Nat) :
    Checked Position :=
  if byteLen text < offset then throw (.byteOffsetOutOfBounds offset)
  else if ¬ isBoundary text offset then throw (.notUtf8Boundary offset)
  else offsetToPositionFrom encoding text offset 0 (utf8 text) 0 0 0

def rangeToOffsets (encoding : PositionEncoding) (text : List Char) (range : Range) :
    Checked (Nat × Nat) := do
  let start ← positionToOffset encoding text range.start
  let stop ← positionToOffset encoding text range.stop
  if stop < start then throw (.reversedRange start stop)
  return (start, stop)

end OhMyPi.Docserver.Lsp
