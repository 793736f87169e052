import Mathlib.Data.List.Sort
import Mathlib.Data.List.Destutter
import OhMyPi.Dispatch.OutputStream

/-! The result of a dispatched call is bounded before it is journaled: long lines are clamped, the
parts share one budget of bytes, and output that was cut may be shown as a head and a tail instead.
What is not shown is saved as an artifact. A receipt names the source lines that stayed whole. -/

namespace OhMyPi.Dispatch

open Text

/-- `usize::MAX`. -/
def usizeMax : Nat := 2 ^ 64 - 1

def saturatingAdd (a b : Nat) : Nat := min (a + b) usizeMax

/-- The UTF-8 bytes of a text. -/
def encode (text : List Char) : List UInt8 := text.flatMap String.utf8EncodeChar

/-- A stored blob: its digest and its length. -/
structure BlobRef where
  hash : List UInt8
  size : Nat
deriving DecidableEq, Repr

/-- A blob as a projection names it. -/
structure ToolBlobRef where
  hash : String
  mediaType : String
  byteLen : Nat
deriving DecidableEq, Repr

def hexDigit (n : Nat) : Char := Nat.digitChar (n % 16)

def BlobRef.toHex (blob : BlobRef) : String :=
  .ofList (blob.hash.flatMap fun b => [hexDigit (b.toNat / 16), hexDigit b.toNat])

def projectionBlob (blob : BlobRef) : ToolBlobRef where
  hash := blob.toHex
  mediaType := "application/octet-stream"
  byteLen := blob.size

/-- One part of a tool's result. -/
inductive Part
  | text (text : List Char)
  | json (json : List UInt8)
  | blob (blob : ToolBlobRef) (alt : Option (List Char))
deriving DecidableEq, Repr

def Part.isBlob : Part → Bool
  | .blob .. => true
  | _ => false

/-- A range of bytes in a part that is a line of some source. -/
structure ProjectionSpan where
  part : Nat
  startByte : Nat
  endByte : Nat
  sourceKey : String
  line : Nat
deriving DecidableEq, Repr

structure VisibleSourceLine where
  sourceKey : String
  line : Nat
deriving DecidableEq, Repr

/-- The fields that bound a result. -/
structure DispatchPolicy where
  maxOutputBytes : Nat
  maxCompleteOutputBytes : Nat
  maxLineBytes : Nat
  artifactHeadBytes : Nat
  artifactTailBytes : Nat
  artifactTailLines : Nat
deriving DecidableEq, Repr

structure DispatchOptions where
  notrunc : Bool
deriving DecidableEq, Repr

inductive DispatchError (ε : Type)
  | blob (source : ε)
  | projectionUtf8 (source : Utf8Error)

/-! ## Clamping lines -/

/-- A run of source bytes that stands in the output. -/
structure SourceSegment where
  sourceStart : Nat
  outputStart : Nat
  len : Nat
deriving DecidableEq, Repr

structure ClampedText where
  text : List Char
  segments : List SourceSegment
  linesClamped : Nat
deriving DecidableEq, Repr

/-- The segments with one more character behind the output: the last segment grows when the character
follows it in both texts. -/
def extendSegments (segments : List SourceSegment) (sourceStart outputStart len : Nat) :
    List SourceSegment :=
  match segments.getLast? with
  | some last =>
    if last.sourceStart + last.len = sourceStart ∧ last.outputStart + last.len = outputStart then
      segments.dropLast ++ [{ last with len := last.len + len }]
    else segments ++ [⟨sourceStart, outputStart, len⟩]
  | none => segments ++ [⟨sourceStart, outputStart, len⟩]

/-- What `clamp_text` has done so far. -/
structure Clamping where
  output : List Char
  segments : List SourceSegment
  lineBytes : Nat
  eliding : Bool
  linesClamped : Nat
deriving DecidableEq, Repr

namespace Clamping

def start : Clamping where
  output := []
  segments := []
  lineBytes := 0
  eliding := false
  linesClamped := 0

def pushSourceCharacter (state : Clamping) (sourceStart : Nat) (character : Char) : Clamping :=
  { state with
    output := state.output ++ [character]
    segments :=
      extendSegments state.segments sourceStart (byteLen state.output) character.utf8Size }

def step (maximum : Nat) (state : Clamping) (sourceStart : Nat) (character : Char) : Clamping :=
  if character = '\n' then
    { state.pushSourceCharacter sourceStart character with lineBytes := 0, eliding := false }
  else if state.eliding then state
  else if maximum < saturatingAdd state.lineBytes character.utf8Size then
    { state with
      output := state.output ++ ['…']
      eliding := true
      linesClamped := state.linesClamped + 1 }
  else
    { state.pushSourceCharacter sourceStart character with
      lineBytes := state.lineBytes + character.utf8Size }

/-- The characters from the given byte of the source on. -/
def run (maximum : Nat) : Clamping → Nat → List Char → Clamping
  | state, _, [] => state
  | state, sourceStart, character :: text =>
    run maximum (state.step maximum sourceStart character) (sourceStart + character.utf8Size) text

end Clamping

def clampText (text : List Char) (maximum : Nat) : ClampedText :=
  let state := Clamping.start.run maximum 0 text
  ⟨state.output, state.segments, state.linesClamped⟩

/-- The loop of `source_range_visible`: the source is covered up to some byte. -/
def coversTo (endByte visibleOutputBytes : Nat) : List SourceSegment → Nat → Bool
  | [], _ => false
  | segment :: segments, covered =>
    if visibleOutputBytes ≤ segment.outputStart then false
    else
      let retained := min segment.len (visibleOutputBytes - segment.outputStart)
      let segmentEnd := segment.sourceStart + retained
      if segmentEnd ≤ covered ∨ covered < segment.sourceStart then
        coversTo endByte visibleOutputBytes segments covered
      else if endByte ≤ segmentEnd then true
      else coversTo endByte visibleOutputBytes segments segmentEnd

def ClampedText.sourceRangeVisible (clamped : ClampedText)
    (startByte endByte visibleOutputBytes : Nat) : Bool :=
  if endByte ≤ startByte then false
  else coversTo endByte visibleOutputBytes clamped.segments startByte

/-! ## The head and the tail of output that was cut -/

/-- `match_indices('\n')`, for a text that starts at the given byte. -/
def newlines : Nat → List Char → List Nat
  | _, [] => []
  | start, c :: text =>
    if c = '\n' then start :: newlines (start + c.utf8Size) text
    else newlines (start + c.utf8Size) text

def isCharBoundary : List Char → Nat → Bool
  | _, 0 => true
  | [], _ + 1 => false
  | c :: text, index => c.utf8Size ≤ index && isCharBoundary text (index - c.utf8Size)

/-- The loop that moves an offset up to a character boundary, within the given number of turns. -/
def raiseToBoundary (text : List Char) : Nat → Nat → Nat
  | 0, index => index
  | fuel + 1, index =>
    if isCharBoundary text index then index else raiseToBoundary text fuel (index + 1)

/-- `&text[start..]`, from a character boundary. -/
def sliceFrom : List Char → Nat → List Char
  | text, 0 => text
  | [], _ + 1 => []
  | c :: text, start => sliceFrom text (start - c.utf8Size)

def headLineEnd (text : List Char) (maxLines : Nat) : Nat :=
  if maxLines = usizeMax then byteLen text
  else
    match (newlines 0 text)[maxLines - 1]? with
    | some index => index + 1
    | none => byteLen text

/-- The loop over the line breaks from the end. A final line break ends the last line. -/
def lineStartFrom (len : Nat) : List Nat → Nat → Nat
  | [], _ => 0
  | index :: indices, remaining =>
    if index + 1 = len then lineStartFrom len indices remaining
    else if remaining = 1 then index + 1
    else lineStartFrom len indices (remaining - 1)

def tailLineStart (text : List Char) (maxLines : Nat) : Nat :=
  if maxLines = usizeMax then 0
  else lineStartFrom (byteLen text) (newlines 0 text).reverse (max maxLines 1)

def tailByteStart (text : List Char) (tailBytes : Nat) : Nat :=
  raiseToBoundary text tailBytes (byteLen text - tailBytes)

def artifactProjection (text : List Char) (headBytes tailBytes maxLines : Nat) : List Char :=
  let head := utf8Prefix text (min headBytes (headLineEnd text maxLines))
  let tailStart := max (tailByteStart text tailBytes) (tailLineStart text maxLines)
  if tailStart ≤ byteLen head then text
  else
    let tail := sliceFrom text tailStart
    (if head.isEmpty then []
      else if head.getLast? = some '\n' then head
      else head ++ ['\n']) ++
      ['…'] ++ if tail.isEmpty then [] else '\n' :: tail

/-! ## The receipt -/

def VisibleSourceLine.le (a b : VisibleSourceLine) : Prop :=
  a.sourceKey < b.sourceKey ∨ a.sourceKey = b.sourceKey ∧ a.line ≤ b.line

instance : DecidableRel VisibleSourceLine.le := fun a b =>
  inferInstanceAs (Decidable (a.sourceKey < b.sourceKey ∨ a.sourceKey = b.sourceKey ∧
    a.line ≤ b.line))

/-- The lines of the spans, sorted and without repetition. -/
def visibilityReceipt (spans : List ProjectionSpan) : List VisibleSourceLine :=
  let lines := spans.map fun span => ⟨span.sourceKey, span.line⟩
  (lines.insertionSort VisibleSourceLine.le).destutter (· ≠ ·)

/-! ## Bounding the parts -/

structure BoundedParts where
  parts : List Part
  spilled : Option BlobRef
  sourceBytes : Nat
  inlineBytes : Nat
  omitted : Bool
  linesClamped : Nat
  visibility : List VisibleSourceLine
deriving DecidableEq, Repr

def DispatchPolicy.inlineLimit (policy : DispatchPolicy) (options : DispatchOptions) : Nat :=
  if options.notrunc then policy.maxCompleteOutputBytes else policy.maxOutputBytes

def DispatchPolicy.lineLimit (policy : DispatchPolicy) (options : DispatchOptions) : Nat :=
  if options.notrunc then usizeMax else policy.maxLineBytes

/-- The bytes a part is counted with. The sum over the parts, which are in memory together, stays
within a `usize`. -/
def Part.len : Part → Nat
  | .text content => Text.byteLen content
  | .json bytes => bytes.length
  | .blob _ alt => (alt.map Text.byteLen).getD 0

/-- `std::str::from_utf8`. -/
def strFromUtf8 (bytes : List UInt8) : Except Utf8Error (List Char) :=
  match runUtf8Validation bytes 0 with
  | none => .ok (lossy bytes)
  | some source => .error source

/-- What the loop over the parts has collected. -/
structure Bounding where
  output : List Part
  full : List Char
  projected : List Char
  shownBytes : Nat
  linesClamped : Nat
  changed : Bool
  byteTruncated : Bool
  visibleSpans : List ProjectionSpan
deriving DecidableEq, Repr

namespace Bounding

def start : Bounding where
  output := []
  full := []
  projected := []
  shownBytes := 0
  linesClamped := 0
  changed := false
  byteTruncated := false
  visibleSpans := []

/-- The text of a text part or of a JSON part. -/
def pushText (textLimit lineLimit : Nat) (visibility : List ProjectionSpan) (state : Bounding)
    (partIndex : Nat) (text : List Char) : Bounding :=
  let bounded := clampText text lineLimit
  let visible := utf8Prefix bounded.text (textLimit - state.shownBytes)
  let cut : Bool := byteLen visible ≠ byteLen bounded.text
  { output := state.output ++ [.text visible]
    full := state.full ++ text
    projected := state.projected ++ bounded.text
    shownBytes := state.shownBytes + byteLen visible
    linesClamped := state.linesClamped + bounded.linesClamped
    changed := state.changed || bounded.linesClamped ≠ 0 || cut
    byteTruncated := state.byteTruncated || cut
    visibleSpans := state.visibleSpans ++ visibility.filter fun span =>
      span.part = partIndex &&
        bounded.sourceRangeVisible span.startByte span.endByte (byteLen visible) }

def pushPart (textLimit lineLimit : Nat) (visibility : List ProjectionSpan) (state : Bounding)
    (partIndex : Nat) : Part → Except (DispatchError ε) Bounding
  | .text text => .ok (state.pushText textLimit lineLimit visibility partIndex text)
  | .json json =>
    match strFromUtf8 json with
    | .ok text => .ok (state.pushText textLimit lineLimit visibility partIndex text)
    | .error source => .error (.projectionUtf8 source)
  | .blob blob alt =>
    .ok { state with
      output := state.output ++ [.blob blob alt]
      full := state.full ++ alt.getD [] }

def run (textLimit lineLimit : Nat) (visibility : List ProjectionSpan) :
    Bounding → Nat → List Part → Except (DispatchError ε) Bounding
  | state, _, [] => .ok state
  | state, partIndex, part :: parts => do
    let state ← state.pushPart textLimit lineLimit visibility partIndex part
    run textLimit lineLimit visibility state (partIndex + 1) parts

/-- Shows a head and a tail in place of the texts. The receipt is given up. -/
def project (policy : DispatchPolicy) (textLimit : Nat) (state : Bounding) : Bounding :=
  let tailBytes := min policy.artifactTailBytes textLimit
  let headBytes := min policy.artifactHeadBytes (textLimit - tailBytes)
  let text := artifactProjection state.projected headBytes tailBytes policy.artifactTailLines
  { state with
    shownBytes := byteLen text
    output := state.output.filter Part.isBlob ++ [.text text]
    visibleSpans := [] }

end Bounding

/-- Saves a text in the blob store. -/
def putText (put : List UInt8 → Except ε BlobRef) (text : List Char) :
    Except (DispatchError ε) (Option BlobRef) :=
  match put (encode text) with
  | .ok artifact => .ok (some artifact)
  | .error source => .error (.blob source)

/-- The artifact of a bounded result. What the transport saved is not saved again. -/
def spillOf (put : List UInt8 → Except ε BlobRef) (transportSpill : Option BlobRef)
    (state : Bounding) : Except (DispatchError ε) (Option BlobRef) :=
  match transportSpill with
  | some artifact => .ok (some artifact)
  | none => if state.changed then putText put state.full else .ok none

/-- `bound_parts`, with the blob store's `put`. -/
def boundParts (put : List UInt8 → Except ε BlobRef) (parts : List Part)
    (visibility : List ProjectionSpan) (options : DispatchOptions) (policy : DispatchPolicy)
    (transportSpill : Option BlobRef) : Except (DispatchError ε) BoundedParts := do
  let inlineLimit := policy.inlineLimit options
  let sourceBytes := (parts.map Part.len).sum
  let reported := (transportSpill.map fun artifact => max artifact.size sourceBytes).getD sourceBytes
  if options.notrunc ∧ sourceBytes ≤ inlineLimit then
    return {
      parts := parts
      spilled := transportSpill
      sourceBytes := reported
      inlineBytes := sourceBytes
      omitted := transportSpill.isSome
      linesClamped := 0
      visibility := visibilityReceipt visibility }
  let state ← Bounding.start.run inlineLimit (policy.lineLimit options) visibility 0 parts
  let state :=
    if state.byteTruncated ∧ !options.notrunc ∧ policy.artifactTailBytes ≠ 0 then
      state.project policy inlineLimit
    else state
  let spilled ← spillOf put transportSpill state
  return {
    parts := state.output
    spilled := spilled
    sourceBytes := reported
    inlineBytes := state.shownBytes
    omitted := state.changed || transportSpill.isSome
    linesClamped := state.linesClamped
    visibility := visibilityReceipt state.visibleSpans }

/-! ## Staging the result of a call -/

inductive OutputRequest
  | bounded
  | complete
deriving DecidableEq, Repr

def DispatchOptions.outputRequest (options : DispatchOptions) : OutputRequest :=
  if options.notrunc then .complete else .bounded

structure OutputProjection where
  request : OutputRequest
  sourceBytes : Nat
  inlineBytes : Nat
  omitted : Bool
  artifact : Option ToolBlobRef
deriving DecidableEq, Repr

/-- What staging keeps of a result for the journal. -/
structure StagedTerminal where
  parts : List Part
  projection : OutputProjection
  spilled : Option BlobRef
  linesClamped : Nat
  visibility : List VisibleSourceLine
deriving DecidableEq, Repr

/-- A finished call: the artifact that its outcome names, and what the transport says. -/
structure ExternalResult where
  name : String
  outcomeSpill : Option BlobRef
  options : DispatchOptions
  parts : List Part
  visibility : List ProjectionSpan
  sourceArtifact : Option BlobRef
  transportProjection : Option OutputProjection
deriving DecidableEq, Repr

/-- The complete output that the transport saved. Only `bash` is believed about its outcome. -/
def ExternalResult.transportSpill (result : ExternalResult) : Option BlobRef :=
  (if result.name = "bash" then result.outcomeSpill else none).or
    (if result.transportProjection.any (·.omitted) then result.sourceArtifact else none)

/-- The artifact of the live output, when some of it was not shown. -/
def OutputStream.spillClosed (put : List UInt8 → Except ε BlobRef) (output : OutputStream) :
    Except (DispatchError ε) (Option BlobRef) :=
  match output.artifact with
  | some text => putText put text
  | none => .ok none

def stageExternalInner (put : List UInt8 → Except ε BlobRef) (policy : DispatchPolicy)
    (result : ExternalResult) (output : OutputStream) :
    Except (DispatchError ε) StagedTerminal := do
  let transportProjection := result.transportProjection
  let bounded ←
    boundParts put result.parts result.visibility result.options policy result.transportSpill
  let streamInlineBytes := output.shown
  let streamSpill ← output.spillClosed put
  let spilled := bounded.spilled.or streamSpill
  let transportSourceBytes := (transportProjection.map (·.sourceBytes)).getD 0
  let atLeast := max bounded.sourceBytes transportSourceBytes
  return {
    parts := bounded.parts
    projection :=
      { request := result.options.outputRequest
        sourceBytes := (spilled.map fun artifact => max artifact.size atLeast).getD atLeast
        inlineBytes := max bounded.inlineBytes streamInlineBytes
        omitted := bounded.omitted || streamSpill.isSome || transportProjection.any (·.omitted)
        artifact := ((transportProjection.filter (·.omitted)).bind (·.artifact)).or
          (spilled.map projectionBlob) }
    spilled := spilled
    linesClamped := bounded.linesClamped
    visibility := bounded.visibility }

end OhMyPi.Dispatch
