import Mathlib.Algebra.Order.Ring.Nat
import Mathlib.Data.List.SplitOn
import OhMyPi.Lib.Lossy

/-! What one frame of terminal input stands for (`tui/src/input.rs`): plain characters, control bytes and
escape sequences become chords, terminal replies and mouse reports. -/

namespace OhMyPi.Terminal

open Text (decodeFirst lossy)

abbrev Bytes := List UInt8

/-- The byte of an ASCII character. -/
abbrev byte (c : Char) : UInt8 := UInt8.ofNat c.toNat

def ascii (s : String) : Bytes := s.toList.map byte

/-! ## Events -/

/-- The keys that a terminal reports. -/
inductive Key
  | up | down | left | right
  | tab | enter | space | esc | backspace | delete | insert
  | home | «end» | pageUp | pageDown
  | function (number : Nat)
  | char (c : Char)
  deriving DecidableEq

structure Mods where
  shift : Bool := false
  alt : Bool := false
  ctrl : Bool := false
  superKey : Bool := false
  hyper : Bool := false
  metaKey : Bool := false
  deriving DecidableEq

structure Chord where
  key : Key
  mods : Mods
  deriving DecidableEq

def Chord.plain (key : Key) : Chord := ⟨key, {}⟩

def Chord.withModifiers (key : Key) (modifiers : Nat) : Chord where
  key
  mods := {
    shift := modifiers.testBit 0
    alt := modifiers.testBit 1
    ctrl := modifiers.testBit 2
    superKey := modifiers.testBit 3
    hyper := modifiers.testBit 4
    metaKey := modifiers.testBit 5 }

inductive MouseButton
  | left | middle | right | wheelUp | wheelDown | wheelLeft | wheelRight | none
  deriving DecidableEq

inductive Mouse
  | click | rightClick | middleClick | move | drag | release | wheelUp | wheelDown | wheelLeft | wheelRight
  deriving DecidableEq

structure MouseReport where
  kind : Mouse
  col : Nat
  row : Nat
  button : MouseButton
  mods : Mods
  pressed : Bool
  deriving DecidableEq

inductive TerminalResponse
  | deviceAttributes (text : List Char)
  | modeReport (mode status : Nat)
  | deviceStatus (text : List Char)
  | kittyKeyboardFlags (flags : Nat)
  | osc (text : List Char)
  | kittyGraphics (text : List Char)
  | deviceControlString (text : List Char)
  | oscColor (index r g b : Nat)
  | appearanceChanged (appearance : Nat)
  | inBandResize (rows cols xPx yPx : Nat)
  | applicationProgramCommand (text : List Char)
  deriving DecidableEq

/-- `Bound` are the keys that a keymap gives to chords. -/
inductive InputEvent (Bound : Type)
  | key (key : Bound)
  | chord (chord : Chord) (key : Option Bound) (pressed : Bool)
  | mouse (report : MouseReport)
  | paste (text : List Char)
  | focus (gained : Bool)
  | response (response : TerminalResponse)
  deriving DecidableEq

inductive Decoded
  | mouse (report : MouseReport)
  | focus (gained : Bool)
  | response (response : TerminalResponse)
  | chord (chord : Chord)
  | release (chord : Chord)
  | bareChord (chord : Chord)
  | kittyChord (chord : Chord)
  | kittyText (chords : List Chord) (dedup : Option Nat)
  | pasteStart
  | none
  deriving DecidableEq

/-! ## Fields -/

/-- `str::parse::<u32>` of decimal digits. -/
def parseDecimal (field : Bytes) : Option Nat :=
  if field ≠ [] && field.all fun digit => byte '0' ≤ digit && digit ≤ byte '9' then
    let value := field.foldl (fun value digit => value * 10 + (digit - byte '0').toNat) 0
    if value < 2 ^ 32 then some value else none
  else none

def parseDecimalU16 (field : Bytes) : Option Nat := (parseDecimal field).filter (· < 2 ^ 16)

def parseDecimalU8 (field : Bytes) : Option Nat := (parseDecimal field).filter (· < 2 ^ 8)

def parseModifier (field : Bytes) : Option Nat := (parseDecimal field).map (· - 1)

/-- The field at a place, when there are that many. -/
def field? (body : Bytes) (sep : Char) (index : Nat) : Option Bytes := (body.splitOn (byte sep))[index]?

def isControl (c : Char) : Bool := c.toNat < 0x20 || 0x7f ≤ c.toNat && c.toNat ≤ 0x9f

def characterToKey (c : Char) : Option Key :=
  if c = ' ' then some .space
  else if c = '\r' || c = '\n' then some .enter
  else if !isControl c then some (.char c)
  else none

/-- `char::from_u32` -/
def charFromU32 (codepoint : Nat) : Option Char :=
  if codepoint.isValidChar then some (Char.ofNat codepoint) else none

def Chord.printableCodepoint (chord : Chord) : Option Nat :=
  match chord.key with
  | .char c => some c.toNat
  | .space => some 32
  | _ => none

def chordFromCodepoint (codepoint modifiers : Nat) : Option Chord :=
  let key :=
    if codepoint = 57344 || codepoint = 27 then some Key.esc
    else if codepoint = 57345 || codepoint = 10 || codepoint = 13 || codepoint = 57414 then some .enter
    else if codepoint = 57346 || codepoint = 9 then some .tab
    else if codepoint = 57347 || codepoint = 127 then some .backspace
    else if codepoint = 57348 then some .insert
    else if codepoint = 57349 then some .delete
    else if codepoint = 57350 then some .left
    else if codepoint = 57351 then some .right
    else if codepoint = 57352 then some .up
    else if codepoint = 57353 then some .down
    else if codepoint = 57354 then some .pageUp
    else if codepoint = 57355 then some .pageDown
    else if codepoint = 57356 then some .home
    else if codepoint = 57357 then some .end
    else if 57364 ≤ codepoint && codepoint ≤ 57375 then some (.function (codepoint - 57363))
    else if 57399 ≤ codepoint && codepoint ≤ 57408 then
      some (.char (Char.ofNat ('0'.toNat + (codepoint - 57399))))
    else if codepoint = 57409 then some (.char '.')
    else if codepoint = 57410 then some (.char '/')
    else if codepoint = 57411 then some (.char '*')
    else if codepoint = 57412 then some (.char '-')
    else if codepoint = 57413 then some (.char '+')
    else if codepoint = 57415 then some (.char '=')
    else (charFromU32 codepoint).bind characterToKey
  key.map fun key => .withModifiers key modifiers

/-! ## Frames -/

def decodeControl (control : UInt8) : Option Chord :=
  if control = byte '\t' then some (.plain .tab)
  else if control = byte '\r' then some (.plain .enter)
  else if control = byte '\n' then some ⟨.enter, { shift := true }⟩
  else if control = 0x7f || control = 0x08 then some (.plain .backspace)
  else if 0x01 ≤ control && control ≤ 0x1a then
    some ⟨.char (Char.ofNat ('a'.toNat + control.toNat - 1)), { ctrl := true }⟩
  else if control = 0x1b then some (.plain .esc)
  else none

/-- `str::from_utf8` of bytes that are at most one character. -/
def decodeScalar (bytes : Bytes) : Option Char :=
  (decodeFirst bytes).filter fun c => (String.utf8EncodeChar c).length = bytes.length

def decodePlain (bytes : Bytes) (alt : Bool) : Option Chord :=
  let first := bytes.headD 0
  let chord :=
    if first < 0x20 || first = 0x7f then decodeControl first
    else ((decodeScalar bytes).bind characterToKey).map .plain
  chord.map fun chord => { chord with mods.alt := chord.mods.alt || alt }

def parseAppearanceResponse (body : Bytes) : Option Nat :=
  if (ascii "?997;").isPrefixOf body then
    match (body.drop 5).splitOn (byte ';') with
    | [appearance] => (parseDecimalU8 appearance).filter fun appearance => appearance = 1 || appearance = 2
    | _ => none
  else none

def parseInBandResize (body : Bytes) : Option (Nat × Nat × Nat × Nat) :=
  if body.getLast? = some (byte ' ') then
    let number (field : Bytes) := (field? field ':' 0).bind parseDecimalU16
    match body.dropLast.splitOn (byte ';') with
    | [mode, rows, cols, yPx, xPx] =>
      if mode = ascii "48" then do
        return (← number rows, ← number cols, ← number xPx, ← number yPx)
      else none
    | _ => none
  else none

def parseHexComponent (bytes : Bytes) : Option Nat :=
  let digit (b : UInt8) : Option Nat :=
    if byte '0' ≤ b && b ≤ byte '9' then some (b - byte '0').toNat
    else if byte 'a' ≤ b && b ≤ byte 'f' then some ((b - byte 'a').toNat + 10)
    else if byte 'A' ≤ b && b ≤ byte 'F' then some ((b - byte 'A').toNat + 10)
    else none
  if bytes.length = 2 || bytes.length = 4 then
    (bytes.mapM digit).map fun digits =>
      let value := digits.foldl (fun value digit => value * 16 + digit) 0
      if bytes.length = 2 then value * 0x101 else value
  else none

def parseOscColor (payload : Bytes) : Option (Nat × Nat × Nat × Nat) := do
  guard (byte ';' ∈ payload)
  let index ← parseDecimalU8 (payload.takeWhile (· ≠ byte ';'))
  let color := (payload.dropWhile (· ≠ byte ';')).drop 1
  let color ←
    if (ascii "rgb:").isPrefixOf color then some (color.drop 4)
    else if (ascii "rgba:").isPrefixOf color then some (color.drop 5)
    else none
  match color.splitOn (byte '/') with
  | [r, g, b] => return (index, ← parseHexComponent r, ← parseHexComponent g, ← parseHexComponent b)
  | _ => none

def decodeSgrMouse (body : Bytes) (final : UInt8) : Decoded :=
  let number (index : Nat) := (field? (body.drop 1) ';' index).bind parseDecimalU16
  match number 0, number 1, number 2 with
  | some bits, some column, some row =>
    let button : MouseButton :=
      if bits.testBit 6 then
        match bits % 4 with
        | 0 => .wheelUp
        | 1 => .wheelDown
        | 2 => .wheelLeft
        | _ => .wheelRight
      else
        match bits % 4 with
        | 0 => .left
        | 1 => .middle
        | 2 => .right
        | _ => .none
    let kind : Mouse :=
      match button with
      | .wheelUp => .wheelUp
      | .wheelDown => .wheelDown
      | .wheelLeft => .wheelLeft
      | .wheelRight => .wheelRight
      | button =>
        if final = byte 'm' then .release
        else if bits.testBit 5 then (if button = .none then .move else .drag)
        else
          match button with
          | .left => .click
          | .middle => .middleClick
          | .right => .rightClick
          | _ => .move
    .mouse {
      kind
      col := column - 1
      row := row - 1
      button
      mods := { shift := bits.testBit 2, alt := bits.testBit 3, ctrl := bits.testBit 4 }
      pressed := final = byte 'M' }
  | _, _, _ => .none

def decodeKittyKey (body : Bytes) (isMeta : Bool) : Decoded :=
  let codepoints := (field? body ';' 0).getD []
  let primary := ((field? codepoints ':' 0).bind parseDecimal).getD 0
  let shifted := (field? codepoints ':' 1).bind parseDecimal
  let baseLayout := (field? codepoints ':' 2).bind parseDecimal
  let modifierField := (field? body ';' 1).getD (ascii "1")
  let associatedText := field? body ';' 2
  let modifiers := ((field? modifierField ':' 0).bind parseModifier).getD 0
  let modifiers := if isMeta then modifiers ||| 2 else modifiers
  let eventType := ((field? modifierField ':' 1).bind parseDecimalU8).getD 1
  -- Caps Lock and Num Lock are not modifiers.
  let modifiers := modifiers &&& (2 ^ 32 - 1 - (64 + 128))
  let codepoint :=
    if modifiers &&& 0b1110 ≠ 0 then baseLayout.getD primary
    else if modifiers &&& 1 ≠ 0 then shifted.getD primary
    else primary
  if eventType = 3 then ((chordFromCodepoint codepoint modifiers).map .release).getD .none
  else
    let chords :=
      if modifiers &&& 0b1110 = 0 then
        ((associatedText.map fun text => text.splitOn (byte ':')).getD []).filterMap fun field =>
          (((parseDecimal field).bind charFromU32).bind characterToKey).map Chord.plain
      else []
    match chords with
    | [chord] => .kittyText [chord] chord.printableCodepoint
    | chord :: chord' :: chords => .kittyText (chord :: chord' :: chords) none
    | [] =>
      match chordFromCodepoint codepoint modifiers with
      | none => .none
      | some chord =>
        if modifiers &&& 0b1110 = 0 && chord.printableCodepoint.isSome then .kittyChord chord
        else .chord chord

def decodeTildeKey (body : Bytes) (isMeta : Bool) : Decoded :=
  let fields := body.splitOn (byte ';')
  let metaBit := if isMeta then 2 else 0
  let plain :=
    let number := (fields.head?.bind parseDecimalU8).getD 0
    let modifiers := ((fields[1]?).bind parseModifier).getD 0 ||| metaBit
    let key : Option Key :=
      if number = 1 || number = 7 then some .home
      else if number = 2 then some .insert
      else if number = 3 then some .delete
      else if number = 4 || number = 8 then some .end
      else if number = 5 then some .pageUp
      else if number = 6 then some .pageDown
      else if 11 ≤ number && number ≤ 15 then some (.function (number - 10))
      else if 17 ≤ number && number ≤ 21 then some (.function (number - 11))
      else if number = 23 || number = 24 then some (.function (number - 12))
      else none
    (key.map fun key => Decoded.chord (.withModifiers key modifiers)).getD .none
  match fields with
  | [first, modifiers, codepoint] =>
    if first = ascii "27" then
      let modifiers := (parseModifier modifiers).getD 0 ||| metaBit
      ((chordFromCodepoint ((parseDecimal codepoint).getD 0) modifiers).map .chord).getD .none
    else plain
  | _ => plain

/-- The replies of the terminal among control sequences. -/
def decodeReport (body : Bytes) (final : UInt8) : Option TerminalResponse :=
  if final = byte 'c' && (body.head? = some (byte '?') || body.head? = some (byte '>')) then
    some (.deviceAttributes (lossy body))
  else
    let modeReport : Option TerminalResponse :=
      if final = byte 'y' && body.head? = some (byte '?') && (body.drop 1).getLast? = some (byte '$') then do
        let fields := (body.drop 1).dropLast
        let mode ← (field? fields ';' 0).bind parseDecimalU16
        let status ← (field? fields ';' 1).bind parseDecimalU8
        return .modeReport mode status
      else none
    let flags : Option TerminalResponse :=
      if final = byte 'u' && body.head? = some (byte '?') then
        (parseDecimalU8 (body.drop 1)).map .kittyKeyboardFlags
      else none
    let appearance : Option TerminalResponse :=
      if final = byte 'n' then (parseAppearanceResponse body).map .appearanceChanged else none
    let resize : Option TerminalResponse :=
      if final = byte 't' then
        (parseInBandResize body).map fun sizes => .inBandResize sizes.1 sizes.2.1 sizes.2.2.1 sizes.2.2.2
      else none
    let status : Option TerminalResponse :=
      if final = byte 'n' || final = byte 'R' then some (.deviceStatus (lossy body)) else none
    modeReport <|> flags <|> appearance <|> resize <|> status

def decodeCsi (body : Bytes) (final : UInt8) (isMeta : Bool) : Decoded :=
  match decodeReport body final with
  | some response => .response response
  | none =>
    if body.isEmpty && (final = byte 'I' || final = byte 'O') then .focus (final = byte 'I')
    else if final = byte '~' && body = ascii "200" then .pasteStart
    else if body.head? = some (byte '<') && (final = byte 'M' || final = byte 'm') then
      decodeSgrMouse body final
    else if final = byte 'u' then decodeKittyKey body isMeta
    else if final = byte '~' then decodeTildeKey body isMeta
    else
      let modifiers :=
        if field? body ';' 0 = some (ascii "1") then ((field? body ';' 1).bind parseModifier).getD 0 else 0
      let modifiers := modifiers ||| if isMeta then 2 else 0
      let key : Option Key :=
        if final = byte 'A' then some .up
        else if final = byte 'B' then some .down
        else if final = byte 'C' then some .right
        else if final = byte 'D' then some .left
        else if final = byte 'H' then some .home
        else if final = byte 'F' then some .end
        else if final = byte 'Z' then some .tab
        else none
      let modifiers := modifiers ||| if final = byte 'Z' then 1 else 0
      (key.map fun key => Decoded.chord (.withModifiers key modifiers)).getD .none

/-- `decode_frame`, of a frame that is not empty. -/
def decodeFrame (frame : Bytes) : Decoded :=
  if frame.head? ≠ some 0x1b then ((decodePlain frame false).map .bareChord).getD .none
  else if frame = [0x1b] then .chord (.plain .esc)
  else
    let isMeta := [0x1b, 0x1b].isPrefixOf frame
    let sequence := if isMeta then frame.drop 1 else frame
    let kind := sequence.getD 1 0
    -- The payload of a string sequence, without `n` bytes at the end.
    let payload (n : Nat) := (sequence.take (sequence.length - n)).drop 2
    if kind = byte '[' then decodeCsi (payload 1) (sequence.getLastD 0) isMeta
    else if kind = byte 'O' then
      let final := sequence.getD 2 0
      let key : Option Key :=
        if final = byte 'A' then some .up
        else if final = byte 'B' then some .down
        else if final = byte 'C' then some .right
        else if final = byte 'D' then some .left
        else if final = byte 'H' then some .home
        else if final = byte 'F' then some .end
        else if byte 'P' ≤ final && final ≤ byte 'S' then some (.function ((final - byte 'P').toNat + 1))
        else none
      (key.map fun key => Decoded.chord (.withModifiers key (if isMeta then 2 else 0))).getD .none
    else if kind = byte ']' then
      let payload := payload (if [0x1b, byte '\\'].isSuffixOf sequence then 2 else 1)
      match parseOscColor payload with
      | some (index, r, g, b) => .response (.oscColor index r g b)
      | none => .response (.osc (lossy payload))
    else if kind = byte 'P' then .response (.deviceControlString (lossy (payload 2)))
    else if kind = byte '_' then
      let payload := payload 2
      if payload.head? = some (byte 'G') then .response (.kittyGraphics (lossy (payload.drop 1)))
      else .response (.applicationProgramCommand (lossy payload))
    else ((decodePlain (sequence.drop 1) true).map .chord).getD .none

end OhMyPi.Terminal
