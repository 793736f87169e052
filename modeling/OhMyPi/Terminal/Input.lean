import OhMyPi.Terminal.Decode

/-! The terminal input decoder (`tui/src/input.rs`): bytes arrive in chunks, complete frames and pastes
become events, and what is not complete waits for the next chunk or for a timeout. -/

namespace OhMyPi.Terminal

open Text (lossy)

/-! ## Frames -/

def maxCsiBytes : Nat := 4096

def maxStringSeqBytes : Nat := 16 * 1024 * 1024

def stringDiscardMaxBytes : Nat := 2 * maxStringSeqBytes

def maxPasteBytes : Nat := 64 * 1024 * 1024

def pasteEnd : Bytes := 0x1b :: ascii "[201~"

inductive FrameResolution
  | complete (length : Nat)
  | incomplete
  | overflow (length : Nat)
  deriving DecidableEq

def utf8Width (lead : UInt8) : Nat :=
  if 0xc2 ≤ lead && lead ≤ 0xdf then 2
  else if 0xe0 ≤ lead && lead ≤ 0xef then 3
  else if 0xf0 ≤ lead && lead ≤ 0xf4 then 4
  else 1

def validSgrBody (body : Bytes) : Bool :=
  body.head? = some (byte '<') &&
    (body.drop 1).getLast?.any (fun final => final = byte 'M' || final = byte 'm') &&
    match (body.drop 1).dropLast.splitOn (byte ';') with
    | [bits, column, row] => [bits, column, row].all fun field => (parseDecimal field).isSome
    | _ => false

/-- A control sequence ends at an index. -/
def csiEnds (bytes : Bytes) (index : Nat) : Option Nat :=
  let final := bytes.getD index 0
  if 0x40 ≤ final && final ≤ 0x7e then
    if bytes.getD 2 0 ≠ byte '<' then some (index + 1)
    else if (final = byte 'M' || final = byte 'm') && validSgrBody ((bytes.take (index + 1)).drop 2) then
      some (index + 1)
    else none
  else none

/-- A string sequence ends at an index, with a bell or a string terminator. -/
def stringEnds (bytes : Bytes) (limit index : Nat) : Option Nat :=
  if bytes.getD 1 0 = byte ']' && bytes.getD index 0 = 0x07 then some (index + 1)
  else if bytes.getD index 0 = 0x1b && index + 1 < limit && bytes.getD (index + 1) 0 = byte '\\' then
    some (index + 2)
  else none

/-- The loop over the indices below a limit. -/
def firstEnd (ends : Nat → Option Nat) (limit : Nat) : Option Nat :=
  (List.range' 2 (limit - 2)).findSome? ends

/-- A sequence that is looked for up to a cap. -/
def upToCap (bytes : Bytes) (cap : Nat) (found : Option Nat) : FrameResolution :=
  match found with
  | some length => .complete length
  | none => if cap ≤ bytes.length then .overflow cap else .incomplete

/-- Of bytes that start with an escape and have another one after it. -/
def resolveEscape (bytes : Bytes) : FrameResolution :=
  let kind := bytes.getD 1 0
  if kind = byte '[' then
    if bytes.length < 3 then .incomplete
    else if bytes.getD 2 0 = byte 'M' then if 6 ≤ bytes.length then .complete 6 else .incomplete
    else
      upToCap bytes maxCsiBytes (firstEnd (csiEnds bytes) (min bytes.length maxCsiBytes))
  else if kind = byte ']' || kind = byte 'P' || kind = byte '_' then
    let limit := min bytes.length maxStringSeqBytes
    upToCap bytes maxStringSeqBytes (firstEnd (stringEnds bytes limit) limit)
  else if kind = byte 'O' then if 3 ≤ bytes.length then .complete 3 else .incomplete
  else if utf8Width kind < bytes.length then .complete (utf8Width kind + 1)
  else .incomplete

def FrameResolution.shift : FrameResolution → FrameResolution
  | .complete length => .complete (length + 1)
  | .overflow length => .overflow (length + 1)
  | .incomplete => .incomplete

/-- Of bytes that are not empty. -/
def resolveFrame (bytes : Bytes) : FrameResolution :=
  let first := bytes.getD 0 0
  if first ≠ 0x1b then
    if bytes.length < utf8Width first then .incomplete else .complete (max (utf8Width first) 1)
  else if bytes.length = 1 then .incomplete
  else if bytes.getD 1 0 = 0x1b then
    if bytes.length = 2 then .incomplete
    else if bytes.getD 2 0 = byte '[' || bytes.getD 2 0 = byte 'O' then (resolveEscape (bytes.drop 1)).shift
    else .complete 1
  else resolveEscape bytes

def isStringSequence (bytes : Bytes) : Bool :=
  bytes.head? = some 0x1b &&
    bytes[1]?.any fun kind => kind = byte ']' || kind = byte 'P' || kind = byte '_'

def isSgrMousePartial (bytes : Bytes) : Bool :=
  (0x1b :: ascii "[<").isPrefixOf bytes &&
    (bytes.drop 3).all fun b => byte '0' ≤ b && b ≤ byte '9' || b = byte ';'

def isPrivateCsiReportPartial (bytes : Bytes) : Bool :=
  (0x1b :: ascii "[").isPrefixOf bytes &&
    (bytes[2]?.any fun marker => marker = byte '?' || marker = byte '>') &&
    (bytes.drop 3).all fun b => byte '0' ≤ b && b ≤ byte '9' || b = byte ';'

/-! ## State -/

/-- What the decoder is given: the keymap, and how the text of a paste is cleaned. -/
structure Host (Bound : Type) where
  /-- Chords are reported, not keys. -/
  chords : Bool
  resolve : Chord → Option Bound
  pasteText : Bytes → List Char

/-- Instants are in milliseconds. -/
structure StringDiscard where
  bytes : Nat
  escHeld : Bool
  last : Nat

structure InputDecoder where
  buffer : Bytes := []
  incompleteSince : Option Nat := none
  kittyKeyboardActive : Bool := false
  pendingKittyPrint : Option (Nat × Nat) := none
  paste : Bytes := []
  pasteActive : Bool := false
  pasteLastInput : Option Nat := none
  pasteScanFrom : Nat := 0
  privateCsiPartial : Bytes := []
  stringDiscard : Option StringDiscard := none

def inputTimeout : Nat := 75

def partialHoldTimeout : Nat := 150

def pasteInactivityTimeout : Nat := 1000

def kittyDedupTimeout : Nat := 25

def stringDiscardInactivityTimeout : Nat := 1000

section

variable {Bound : Type} (host : Host Bound)

def emitChord (chord : Chord) : List (InputEvent Bound) :=
  let key := host.resolve chord
  if host.chords then [.chord chord key true] else (key.map .key).toList

def emitUnterminatedResponse (bytes : Bytes) : Option (InputEvent Bound) :=
  if (0x1b :: ascii "]").isPrefixOf bytes then some (.response (.osc (lossy (bytes.drop 2))))
  else if (0x1b :: ascii "_G").isPrefixOf bytes then some (.response (.kittyGraphics (lossy (bytes.drop 3))))
  else if (0x1b :: ascii "_").isPrefixOf bytes then
    some (.response (.applicationProgramCommand (lossy (bytes.drop 2))))
  else if (0x1b :: ascii "P").isPrefixOf bytes then
    some (.response (.deviceControlString (lossy (bytes.drop 2))))
  else none

def emitRaw (bytes : Bytes) : List (InputEvent Bound) :=
  match bytes with
  | [] => []
  | first :: rest =>
    let width := max (min (utf8Width first) bytes.length) 1
    ((decodePlain (bytes.take width) false).map (emitChord host)).getD [] ++ emitRaw (rest.drop (width - 1))
termination_by bytes.length
decreasing_by simp only [List.length_drop, List.length_cons]; omega

namespace InputDecoder

/-! ## Events -/

/-- A bare character that repeats the one a Kitty report has just given. -/
def isRepeat (decoder : InputDecoder) (chord : Chord) (now : Nat) : Bool :=
  decoder.pendingKittyPrint.any fun pending =>
    chord.printableCodepoint = some pending.1 && now - pending.2 ≤ kittyDedupTimeout

def emit (decoder : InputDecoder) (decoded : Decoded) (now : Nat) :
    InputDecoder × List (InputEvent Bound) :=
  match decoded with
  | .mouse report => ({ decoder with pendingKittyPrint := none }, [.mouse report])
  | .focus gained => ({ decoder with pendingKittyPrint := none }, [.focus gained])
  | .response (.kittyKeyboardFlags flags) =>
    ({ decoder with pendingKittyPrint := none, kittyKeyboardActive := flags ≠ 0 },
      [.response (.kittyKeyboardFlags flags)])
  | .response response => ({ decoder with pendingKittyPrint := none }, [.response response])
  | .chord chord => ({ decoder with pendingKittyPrint := none }, emitChord host chord)
  | .release chord =>
    (decoder, if host.chords then [.chord chord (host.resolve chord) false] else [])
  | .bareChord chord =>
    if decoder.isRepeat chord now then ({ decoder with pendingKittyPrint := none }, [])
    else ({ decoder with pendingKittyPrint := none }, emitChord host chord)
  | .kittyChord chord =>
    ({ decoder with pendingKittyPrint := chord.printableCodepoint.map (·, now) }, emitChord host chord)
  | .kittyText chords dedup =>
    ({ decoder with pendingKittyPrint := dedup.map (·, now) }, chords.flatMap (emitChord host))
  | .pasteStart => (decoder, [])
  | .none => (decoder, [])

/-! ## Pastes and frames -/

def finishPaste (decoder : InputDecoder) : InputDecoder × List (InputEvent Bound) :=
  ({ decoder with
      paste := [], pasteActive := false, pasteLastInput := none, pasteScanFrom := 0,
      pendingKittyPrint := none },
    [.paste (host.pasteText decoder.paste)])

/-- The index of the first end marker. -/
def findPasteEnd (bytes : Bytes) : Option Nat :=
  (List.range bytes.length).find? fun index => pasteEnd.isPrefixOf (bytes.drop index)

/-- `process_paste`, given what `process_buffer` does with the bytes after the end marker. -/
def processPaste (processBuffer : InputDecoder → InputDecoder × List (InputEvent Bound))
    (decoder : InputDecoder) : InputDecoder × List (InputEvent Bound) :=
  let start := decoder.pasteScanFrom - (pasteEnd.length - 1)
  match (findPasteEnd (decoder.paste.drop start)).map (start + ·) with
  | some index =>
    let remaining := decoder.paste.drop (index + pasteEnd.length)
    let (decoder, events) := finishPaste host { decoder with paste := decoder.paste.take index }
    let (decoder, events') := processBuffer { decoder with buffer := remaining }
    (decoder, events ++ events')
  | none =>
    let decoder := { decoder with pasteScanFrom := decoder.paste.length }
    if maxPasteBytes < decoder.paste.length then finishPaste host decoder else (decoder, [])

/-- An escape before a mouse report is a key of its own. -/
def isEscBeforeMouse (bytes : Bytes) : Bool := (0x1b :: 0x1b :: ascii "[<").isPrefixOf bytes

/-- `process_buffer`. Each round takes a byte at least, so the fuel is never used up when there is more of
it than there are bytes. -/
def processBuffer (now : Nat) : Nat → InputDecoder → InputDecoder × List (InputEvent Bound)
  | 0, decoder => (decoder, [])
  | fuel + 1, decoder =>
    if decoder.buffer.isEmpty then ({ decoder with incompleteSince := none }, [])
    else if isEscBeforeMouse decoder.buffer then
      let (decoder, events) := decoder.emit host (.chord (.plain .esc)) now
      let (decoder, events') := processBuffer now fuel { decoder with buffer := decoder.buffer.drop 1 }
      (decoder, events ++ events')
    else
      match resolveFrame decoder.buffer with
      | .incomplete => ({ decoder with incompleteSince := decoder.incompleteSince <|> some now }, [])
      | .overflow length =>
        if isStringSequence decoder.buffer then
          processBuffer now fuel { decoder with buffer := [], stringDiscard := some ⟨0, false, now⟩ }
        else
          let taken := decoder.buffer.take length
          let events := match emitUnterminatedResponse taken with
            | some event => [event]
            | none => emitRaw host taken
          let (decoder, events') := processBuffer now fuel
            { decoder with
              pendingKittyPrint := none, buffer := decoder.buffer.drop length, incompleteSince := none }
          (decoder, events ++ events')
      | .complete length =>
        let decoded := decodeFrame (decoder.buffer.take length)
        let decoder :=
          { decoder with buffer := decoder.buffer.drop length, incompleteSince := none }
        if decoded = .pasteStart then
          let (decoder, events) := processPaste host (processBuffer now fuel)
            { decoder with
              pasteActive := true, pasteLastInput := some now, pasteScanFrom := 0,
              paste := decoder.buffer, buffer := [] }
          if decoder.pasteActive then (decoder, events)
          else
            let (decoder, events') := processBuffer now fuel decoder
            (decoder, events ++ events')
        else
          let (decoder, events) := decoder.emit host decoded now
          let (decoder, events') := processBuffer now fuel decoder
          (decoder, events ++ events')

/-! ## Timeouts -/

def expirePaste (decoder : InputDecoder) (now : Nat) : InputDecoder × List (InputEvent Bound) :=
  if decoder.pasteActive && decoder.pasteLastInput.any fun last => pasteInactivityTimeout ≤ now - last then
    finishPaste host decoder
  else (decoder, [])

/-- How long an incomplete frame is kept. -/
def holdTimeout (decoder : InputDecoder) : Nat :=
  if decoder.kittyKeyboardActive || isSgrMousePartial decoder.buffer then inputTimeout + partialHoldTimeout
  else inputTimeout

def expirePartial (decoder : InputDecoder) (now : Nat) : InputDecoder × List (InputEvent Bound) :=
  match decoder.incompleteSince with
  | none => (decoder, [])
  | some since =>
    if now - since < decoder.holdTimeout then (decoder, [])
    else
      let buffered := decoder.buffer
      let decoder := { decoder with buffer := [], incompleteSince := none, pendingKittyPrint := none }
      if isPrivateCsiReportPartial buffered then ({ decoder with privateCsiPartial := buffered }, [])
      else if isStringSequence buffered then ({ decoder with stringDiscard := some ⟨0, false, now⟩ }, [])
      else
        match emitUnterminatedResponse buffered with
        | some event => (decoder, [event])
        | none =>
          if buffered = [0x1b, 0x1b] then
            (decoder, emitChord host (.plain .esc) ++ emitChord host (.plain .esc))
          else (decoder, emitRaw host buffered)

def expireStringDiscard (decoder : InputDecoder) (now : Nat) : InputDecoder :=
  if decoder.stringDiscard.any fun discard => stringDiscardInactivityTimeout ≤ now - discard.last then
    { decoder with stringDiscard := none }
  else decoder

/-- Where a string sequence that is being discarded ends: how many bytes belong to it. -/
def discardEnd : Bytes → Option Nat
  | [] => none
  | b :: rest =>
    if b = 0x07 then some 1
    else if b = 0x1b && rest.head? = some (byte '\\') then some 2
    else (discardEnd rest).map (· + 1)

def consumeStringDiscard (decoder : InputDecoder) (bytes : Bytes) (now : Nat) : InputDecoder × Bytes :=
  match decoder.stringDiscard with
  | none => (decoder, bytes)
  | some discard =>
    if discard.escHeld && bytes.head? = some (byte '\\') then
      ({ decoder with stringDiscard := none }, bytes.drop 1)
    else
      match discardEnd bytes with
      | some length => ({ decoder with stringDiscard := none }, bytes.drop length)
      | none =>
        let total := discard.bytes + bytes.length
        if stringDiscardMaxBytes < total then ({ decoder with stringDiscard := none }, [])
        else ({ decoder with stringDiscard := some ⟨total, bytes.getLast? = some 0x1b, now⟩ }, [])

/-- What `reassemble_private_csi` reads of a report that was given up on, and what is left. -/
def reassemble : Bytes → Bytes → Bytes × List (InputEvent Bound) × Bytes
  | held, [] => (held, [], [])
  | held, b :: rest =>
    if 0x20 ≤ b && b ≤ 0x3f then
      if maxCsiBytes < (held ++ [b]).length then ([], [], rest) else reassemble (held ++ [b]) rest
    else if 0x40 ≤ b && b ≤ 0x7e then
      match decodeFrame (held ++ [b]) with
      | .mouse report => ([], [.mouse report], rest)
      | .focus gained => ([], [.focus gained], rest)
      | .response response => ([], [.response response], rest)
      | _ => ([], [], rest)
    else ([], [], b :: rest)

def reassemblePrivateCsi (decoder : InputDecoder) (bytes : Bytes) :
    InputDecoder × List (InputEvent Bound) × Bytes :=
  if decoder.privateCsiPartial = [] then (decoder, [], bytes)
  else
    let (held, events, bytes) := reassemble decoder.privateCsiPartial bytes
    ({ decoder with privateCsiPartial := held }, events, bytes)

/-! ## Chunks -/

def processBytes (decoder : InputDecoder) (bytes : Bytes) (now : Nat) :
    InputDecoder × List (InputEvent Bound) :=
  if decoder.pasteActive then
    let decoder := { decoder with paste := decoder.paste ++ bytes, pasteLastInput := some now }
    decoder.processPaste host (processBuffer host now (decoder.paste.length + 1))
  else
    let decoder := { decoder with buffer := decoder.buffer ++ bytes }
    processBuffer host now (decoder.buffer.length + 1) decoder

def feed (decoder : InputDecoder) (bytes : Bytes) (now : Nat) : InputDecoder × List (InputEvent Bound) :=
  let (decoder, pasted) := decoder.expirePaste host now
  let (decoder, flushed) := decoder.expirePartial host now
  let decoder := decoder.expireStringDiscard now
  let (decoder, bytes) := decoder.consumeStringDiscard bytes now
  if bytes.isEmpty then (decoder, pasted ++ flushed)
  else
    let (decoder, reported, bytes) := decoder.reassemblePrivateCsi bytes
    let (decoder, events) := decoder.processBytes host bytes now
    (decoder, pasted ++ flushed ++ reported ++ events)

/-- Chunks with the instants at which they arrive. -/
def run (decoder : InputDecoder) : List (Bytes × Nat) → InputDecoder × List (InputEvent Bound)
  | [] => (decoder, [])
  | (bytes, now) :: feeds =>
    let (decoder, events) := decoder.feed host bytes now
    let (decoder, events') := decoder.run feeds
    (decoder, events ++ events')

end InputDecoder

end

end OhMyPi.Terminal
