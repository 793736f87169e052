import OhMyPi.Lib.Utf8

/-! The leaked-thinking stage: in-band reasoning blocks are cut out of streamed text, chunk by
chunk, with bounded retention. -/

namespace OhMyPi.Recovery

open Text (bytes)

abbrev Bytes := List UInt8

def newline : UInt8 := 0x0A

def space : UInt8 := 0x20

def backtick : UInt8 := 0x60

/-- `u8::is_ascii_whitespace` -/
def isAsciiWhitespace (b : UInt8) : Bool := b = 0x20 || b = 0x09 || b = 0x0A || b = 0x0C || b = 0x0D

/-- Delimiters are ASCII and not empty: text can be cut at them. -/
def isDelimiter (b : Bytes) : Bool := !b.isEmpty && b.all fun x => x.toNat < 128

structure Pattern where
  id : String
  opener : Bytes
  closer : Bytes
  trimFinalNewline : Bool
  delimits_opener : isDelimiter opener = true
  delimits_closer : isDelimiter closer = true
deriving DecidableEq

def think : Pattern :=
  ⟨"think", bytes "<think>", bytes "</think>", false, rfl, rfl⟩

def thinking : Pattern :=
  ⟨"thinking", bytes "<thinking>", bytes "</thinking>", false, rfl, rfl⟩

def scratchpad : Pattern :=
  ⟨"scratchpad", bytes "<scratchpad>", bytes "</scratchpad>", false, rfl, rfl⟩

def fenced : Pattern :=
  ⟨"fenced-thinking", bytes "```thinking\n", bytes "```", false, rfl, rfl⟩

def gemini : Pattern :=
  ⟨"gemini-thinking", bytes "```thinking\n", bytes "```", true, rfl, rfl⟩

def gemma : Pattern :=
  ⟨"gemma-thought", bytes "<|channel>thought\n", bytes "<channel|>", false, rfl, rfl⟩

def anthropic : Pattern :=
  ⟨"anthropic-thinking", bytes "<thinking>", bytes "</thinking>", false, rfl, rfl⟩

def harmonyLong : Pattern :=
  ⟨"harmony-analysis", bytes "<|start|>assistant<|channel|>analysis<|message|>", bytes "<|end|>",
    false, rfl, rfl⟩

def harmonyShort : Pattern :=
  ⟨"harmony-analysis", bytes "<|channel|>analysis<|message|>", bytes "<|end|>", false, rfl,
    rfl⟩

def genericPatterns : List Pattern := [think, thinking, scratchpad, fenced]
def thinkPatterns : List Pattern := [think, thinking, scratchpad, fenced]
def kimiPatterns : List Pattern := [think]
def dsmlPatterns : List Pattern := [think]
def geminiPatterns : List Pattern := [gemini]
def anthropicPatterns : List Pattern := [anthropic, thinking]
def gemmaPatterns : List Pattern := [gemma]
def harmonyPatterns : List Pattern := [harmonyLong, harmonyShort]
def noPatterns : List Pattern := []

inductive DialectThinking
  | none
  | generic
  | anthropic
  | gemini
  | gemma
  | harmony
deriving DecidableEq

inductive LeakedThinkingHealer
  | none
  | thinking
  | kimi
  | dsml
  | qwen
deriving DecidableEq

structure ThinkingRecoveryConfig where
  wirePolicy : String
  thinkingPolicy : Option String
  healer : LeakedThinkingHealer
  dialect : DialectThinking
  attempt : UInt32
  maxBlockBytes : Nat

def ThinkingRecoveryConfig.patterns (config : ThinkingRecoveryConfig) : List Pattern :=
  match config.dialect with
  | .generic => genericPatterns
  | .anthropic => anthropicPatterns
  | .gemini => geminiPatterns
  | .gemma => gemmaPatterns
  | .harmony => harmonyPatterns
  | .none =>
    match config.healer with
    | .none => noPatterns
    | .thinking => thinkPatterns
    | .kimi => kimiPatterns
    | .dsml => dsmlPatterns
    | .qwen => noPatterns

inductive RecoveryKind
  | thinkingClassification
deriving DecidableEq

structure RecoveryRecord where
  attempt : UInt32
  kind : RecoveryKind
  rule : String
  inputBytes : Nat
  steps : Nat
deriving DecidableEq

inductive ThinkingEvent
  | text (bytes : Bytes)
  | thinkingStart
  | thinkingDelta (bytes : Bytes)
  | thinkingEnd
  | recoveryApplied (wirePolicy : String) (thinkingPolicy : Option String) (record : RecoveryRecord)
deriving DecidableEq

inductive RecoveryError
  | limitExceeded (stage : String) (limit : Nat)
  | invalidInput (stage : String) (reason : String)
deriving DecidableEq

inductive State
  | visible
  | code (ticks : Nat) (fenced : Bool)
  | thinking (pattern : Pattern) (searched : Nat) (inputBytes : Nat)
deriving DecidableEq

inductive VisibleHit
  | none
  | hold (start : Nat)
  | code (start : Nat) (ticks : Nat)
  | tag (start : Nat) (pattern : Pattern)
deriving DecidableEq

/-! ### Scanning the buffer -/

/-- The length of the run of backticks at the start. -/
def run (b : Bytes) : Nat := (b.takeWhile (· = backtick)).length

/-- What the patterns, in their order, make of the bytes from one index on: the first that opens
there, or, unless the bytes are final, may open there once more bytes have come. -/
def patternHit (final : Bool) (index : Nat) (suffix : Bytes) : List Pattern → Option VisibleHit
  | [] => none
  | pattern :: patterns =>
    if pattern.opener.isPrefixOf suffix then some (.tag index pattern)
    else if !final && pattern.opener.length > suffix.length && suffix.isPrefixOf pattern.opener then
      some (.hold index)
    else patternHit final index suffix patterns

/-- `visible_hit`, from `index` on. -/
def visibleHit (patterns : List Pattern) (final : Bool) : Nat → Bytes → VisibleHit
  | _, [] => .none
  | index, b :: rest =>
    match patternHit final index (b :: rest) patterns with
    | some hit => hit
    | none =>
      if b = backtick then
        if !final && run (b :: rest) = (b :: rest).length then .hold index
        else .code index (run (b :: rest))
      else visibleHit patterns final (index + 1) rest

/-- The greatest length up to `max` of a start of the tag that the input ends with. -/
def overlapUpTo (input tag : Bytes) : Nat → Nat
  | 0 => 0
  | max + 1 =>
    if (tag.take (max + 1)).isSuffixOf input then max + 1 else overlapUpTo input tag max

def suffixOverlap (input tag : Bytes) : Nat :=
  overlapUpTo input tag (min input.length (tag.length - 1))

def validPrefix (buffer : Bytes) (final : Bool) : Except RecoveryError Nat :=
  match Text.runUtf8Validation buffer 0 with
  | none => .ok buffer.length
  | some error =>
    if error.errorLen.isNone && !final then .ok error.validUpTo
    else .error (.invalidInput "thinking" "input is not valid UTF-8")

def find (needle : Bytes) : Bytes → Option Nat
  | [] => none
  | b :: rest =>
    if needle.isPrefixOf (b :: rest) then some 0 else (find needle rest).map (· + 1)

/-- `exact_backtick_run`, from `index` on; `skip` bytes belong to a run already measured. -/
def exactBacktickRun (ticks : Nat) : Nat → Nat → Bytes → Option Nat
  | _, _, [] => none
  | index, skip + 1, _ :: rest => exactBacktickRun ticks (index + 1) skip rest
  | index, 0, b :: rest =>
    if b = backtick then
      if run (b :: rest) = ticks then some index
      else exactBacktickRun ticks (index + 1) (run (b :: rest) - 1) rest
    else exactBacktickRun ticks (index + 1) 0 rest

def trailingBackticks (buffer : Bytes) : Nat := run buffer.reverse

/-- `n as i16` -/
def asI16 (n : Nat) : Int := (Int.ofNat n + 32768) % 65536 - 32768

/-- `i16::saturating_add` -/
def saturatingAddI16 (a b : Int) : Int := min 32767 (max (-32768) (a + b))

def trailingIndent (text : Bytes) (prior : Int) : Int :=
  let line := (text.reverse.takeWhile (· ≠ newline)).reverse
  let start := text.length - line.length
  if start = 0 && prior < 0 then prior
  else if line.all (· = space) then saturatingAddI16 (max prior 0) (asI16 line.length)
  else -1

/-- The lines of the bytes, each with its newline. -/
def splitLines : Bytes → List Bytes
  | [] => []
  | b :: rest =>
    if b = newline then [b] :: splitLines rest
    else
      match splitLines rest with
      | [] => [[b]]
      | line :: lines => (b :: line) :: lines

/-- A line that closes a fence of so many backticks. -/
def closesFence (ticks : Nat) (line : Bytes) : Bool :=
  let indent := (line.takeWhile (· = space)).length
  let rest := line.drop indent
  indent ≤ 3 && ticks ≤ run rest && (rest.drop (run rest)).all isAsciiWhitespace

/-- `fence_close_end`, over the lines from `lineStart` on. -/
def fenceCloseEnd (ticks : Nat) (final : Bool) : Nat → List Bytes → Option Nat
  | _, [] => none
  | lineStart, line :: lines =>
    -- the line that ends with the buffer is left for later
    if lines.isEmpty && !final then none
    else if closesFence ticks line then some (lineStart + line.length)
    else fenceCloseEnd ticks final (lineStart + line.length) lines

/-! ### The stage -/

structure Stage where
  config : ThinkingRecoveryConfig
  patterns : List Pattern
  buffer : Bytes
  state : State
  lineIndent : Int

def Stage.new (config : ThinkingRecoveryConfig) : Stage :=
  { config, patterns := config.patterns, buffer := [], state := .visible, lineIndent := 0 }

/-- How one turn of the loop of `consume` ends. -/
inductive Turn
  | again
  | done
  | failed (error : RecoveryError)
deriving DecidableEq

namespace Stage

def emitText (s : Stage) (amount : Nat) : Stage × List ThinkingEvent :=
  if amount = 0 then (s, [])
  else
    let text := s.buffer.take amount
    ({ s with
        buffer := s.buffer.drop amount
        lineIndent := trailingIndent text s.lineIndent },
      [.text text])

def emitRecovery (s : Stage) (pattern : Pattern) (inputBytes : Nat) : ThinkingEvent :=
  let thinking := s.config.thinkingPolicy.getD "none"
  .recoveryApplied s.config.wirePolicy s.config.thinkingPolicy
    { attempt := s.config.attempt
      kind := .thinkingClassification
      rule := "thinking-leak/" ++ s.config.wirePolicy ++ "/" ++ thinking ++ "/" ++ pattern.id
      inputBytes
      steps := 1 }

/-- A thinking delta, unless it is empty. -/
def delta (b : Bytes) : List ThinkingEvent := if b.isEmpty then [] else [.thinkingDelta b]

def limitExceeded (s : Stage) : RecoveryError := .limitExceeded "thinking" s.config.maxBlockBytes

def thinkingTurn (s : Stage) (final : Bool) (pattern : Pattern) (searched inputBytes : Nat) :
    Stage × List ThinkingEvent × Turn :=
  let start := searched - (pattern.closer.length - 1)
  match find pattern.closer (s.buffer.drop start) with
  | some relative =>
    let stop := start + relative
    let trimmed := pattern.trimFinalNewline && 0 < stop && s.buffer[stop - 1]? = some newline
    let emitBytes := stop - trimmed.toNat
    let closing := delta (s.buffer.take emitBytes)
    let buffer := s.buffer.drop (stop + pattern.closer.length)
    let inputBytes := inputBytes + (stop + pattern.closer.length)
    if inputBytes > s.config.maxBlockBytes then
      ({ s with buffer, state := .thinking pattern searched inputBytes }, closing,
        .failed s.limitExceeded)
    else
      ({ s with buffer, state := .visible },
        closing ++ [.thinkingEnd, s.emitRecovery pattern inputBytes], .again)
  | none =>
    if inputBytes + s.buffer.length > s.config.maxBlockBytes then (s, [], .failed s.limitExceeded)
    else if final then
      ({ s with buffer := [], state := .visible },
        delta s.buffer ++
          [.thinkingEnd, s.emitRecovery pattern (inputBytes + s.buffer.length)], .done)
    else
      let overlap := suffixOverlap s.buffer pattern.closer
      let trimHold := pattern.trimFinalNewline &&
        s.buffer[s.buffer.length - (overlap + 1)]? = some newline
      let amount := s.buffer.length - (overlap + trimHold.toNat)
      let buffer := s.buffer.drop amount
      ({ s with buffer, state := .thinking pattern buffer.length (inputBytes + amount) },
        delta (s.buffer.take amount), .done)

def codeTurn (s : Stage) (final : Bool) (ticks : Nat) (fenced : Bool) :
    Stage × List ThinkingEvent × Turn :=
  match validPrefix s.buffer final with
  | .error error => (s, [], .failed error)
  | .ok valid =>
    let text := s.buffer.take valid
    if fenced then
      match fenceCloseEnd ticks final 0 (splitLines text) with
      | some stop =>
        let (s, events) := s.emitText stop
        ({ s with state := .visible }, events, .again)
      | none =>
        if final then
          let (s, events) := s.emitText valid
          ({ s with state := .visible }, events, .done)
        else
          -- up to the last newline
          let (s, events) := s.emitText (valid - (text.reverse.takeWhile (· ≠ newline)).length)
          (s, events, .done)
    else
      match exactBacktickRun ticks 0 0 text with
      | some stop =>
        if final || stop + ticks < valid then
          let (s, events) := s.emitText (stop + ticks)
          ({ s with state := .visible }, events, .again)
        else
          let (s, events) := s.emitText (valid - trailingBackticks text)
          (s, events, .done)
      | none =>
        if final then
          let (s, events) := s.emitText valid
          ({ s with state := .visible }, events, .done)
        else
          let (s, events) := s.emitText (valid - trailingBackticks text)
          (s, events, .done)

def visibleTurn (s : Stage) (final : Bool) : Stage × List ThinkingEvent × Turn :=
  match validPrefix s.buffer final with
  | .error error => (s, [], .failed error)
  | .ok valid =>
    if valid = 0 then (s, [], .done)
    else
      match visibleHit s.patterns final 0 (s.buffer.take valid) with
      | .none =>
        let (s, events) := s.emitText valid
        (s, events, .done)
      | .hold start =>
        let (s, events) := s.emitText start
        (s, events, .done)
      | .code start ticks =>
        -- the indentation is the one before the bytes that lead to the run are emitted
        let fenced := ticks ≥ 3 && 0 ≤ s.lineIndent && s.lineIndent ≤ 3
        let (s, events) := s.emitText (start + ticks)
        ({ s with state := .code ticks fenced }, events, .again)
      | .tag start pattern =>
        let (s, events) := s.emitText start
        ({ s with
            buffer := s.buffer.drop pattern.opener.length
            state := .thinking pattern 0 pattern.opener.length },
          events ++ [.thinkingStart], .again)

def turn (s : Stage) (final : Bool) : Stage × List ThinkingEvent × Turn :=
  match s.state with
  | .thinking pattern searched inputBytes => s.thinkingTurn final pattern searched inputBytes
  | .code ticks fenced => s.codeTurn final ticks fenced
  | .visible => s.visibleTurn final

/-- The loop of `consume`. A turn that goes on has taken bytes from the buffer, so that one turn
more than there are bytes is enough. -/
def loop (final : Bool) : Nat → Stage → Stage × List ThinkingEvent × Except RecoveryError Unit
  | 0, s => (s, [], .ok ())
  | fuel + 1, s =>
    match s.turn final with
    | (s, events, .again) =>
      let (s, more, result) := loop final fuel s
      (s, events ++ more, result)
    | (s, events, .done) => (s, events, .ok ())
    | (s, events, .failed error) => (s, events, .error error)

def consume (s : Stage) (final : Bool) : Stage × List ThinkingEvent × Except RecoveryError Unit :=
  loop final (s.buffer.length + 1) s

def push (s : Stage) (input : Bytes) : Stage × List ThinkingEvent × Except RecoveryError Unit :=
  { s with buffer := s.buffer ++ input }.consume false

def finish (s : Stage) : Stage × List ThinkingEvent × Except RecoveryError Unit := s.consume true

/-- The events of a stage that is given the chunks in turn and then finished. -/
def feed (s : Stage) : List Bytes → Except RecoveryError (List ThinkingEvent)
  | [] =>
    match s.finish with
    | (_, events, .ok ()) => .ok events
    | (_, _, .error error) => .error error
  | chunk :: chunks =>
    match s.push chunk with
    | (s, events, .ok ()) => (s.feed chunks).map (events ++ ·)
    | (_, _, .error error) => .error error

end Stage

end OhMyPi.Recovery
