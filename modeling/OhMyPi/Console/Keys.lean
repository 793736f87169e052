import OhMyPi.Console.Context
import Mathlib.Data.List.DropRight
import Mathlib.Data.List.SplitOn

/-! Physical keys (`con/src/chord.rs` and `Ctx::key` in `con/src/ctx.rs`). A press runs the script that
is bound to the chord and latches the releases of the actions its text presses; the release runs what
was latched. -/

namespace OhMyPi.Console

/-! ## Chords -/

inductive ChordError where
  | empty
  | invalid (chord : Str)

def modifiers : List Str := ["ctrl".toList, "alt".toList, "shift".toList, "super".toList]

/-- Symbols whose printable form already implies Shift. -/
def shiftedSymbols : Str := "!@#$%^&*()_+\x7b\x7d|:<>?~".toList

def modifierName (modifier : Str) : Str :=
  if modifier = "control".toList ∨ modifier = "ctl".toList then "ctrl".toList
  else if modifier = "option".toList ∨ modifier = "opt".toList ∨ modifier = "meta".toList then
    "alt".toList
  else if modifier = "cmd".toList ∨ modifier = "command".toList ∨ modifier = "win".toList then
    "super".toList
  else modifier

/-- The canonical name of a key, and whether it stands for one with Shift. -/
def keyName (key : Str) : Str × Bool :=
  if key = "esc".toList then ("escape".toList, false)
  else if key = "return".toList ∨ key = "cr".toList then ("enter".toList, false)
  else if key = "pgup".toList then ("pageup".toList, false)
  else if key = "pgdn".toList ∨ key = "pgdown".toList then ("pagedown".toList, false)
  else if key = "del".toList then ("delete".toList, false)
  else if key = "bs".toList then ("backspace".toList, false)
  else if key = "backtab".toList then ("tab".toList, true)
  else (key, false)

/-- The modifiers that are present, none where one is unknown or repeated. -/
def presentModifiers : List Str → List Nat → Option (List Nat)
  | [], present => some present
  | modifier :: rest, present =>
    match modifiers.idxOf? (modifierName modifier) with
    | none => none
    | some index => if present.contains index then none else presentModifiers rest (index :: present)

/-- The segments of a chord; a trailing `+` is a key. -/
def chordParts (lower : Str) : List Str :=
  let parts := lower.splitOn '+'
  match parts.reverse with
  | [] :: [] :: rest => (['+'] :: rest).reverse
  | _ => parts

def normalizeChord (chord : Str) : Except ChordError Str :=
  let chord := (chord.dropWhile isWhitespace).rdropWhile isWhitespace
  if chord.isEmpty then .error .empty
  else if chord.any isWhitespace then .error (.invalid chord)
  else
    match (chordParts (chord.map Char.toLower)).reverse with
    | [] => .error (.invalid chord)
    | key :: mods =>
      if key.isEmpty then .error (.invalid chord)
      else
        match presentModifiers mods.reverse [] with
        | none => .error (.invalid chord)
        | some present =>
          let (key, shifted) := keyName key
          let bare := key.length = 1 && key.all shiftedSymbols.contains
          let spelled := (List.range 4).filter fun index =>
            (present.contains index || shifted && index = 2) && !(bare && index = 2)
          .ok (spelled.flatMap (fun index => modifiers.getD index [] ++ ['+']) ++ key)

/-! ## Edges -/

structure PressedBind where
  script : Str
  releases : List (Str × Nat)

/-- The context with the keys that hold actions. -/
structure Keys (V : Type) where
  state : State V
  pressedBinds : Str → Option PressedBind

inductive KeyError where
  | chord (error : ChordError)
  | con (error : ConError)

/-- The action that a statement presses by its text. -/
def Statement.pressed (stmt : Statement) : Option Str :=
  match stmt.name.asAtom with
  | some ('+' :: base) => some base
  | _ => none

/-- What a script latches. -/
def latches (stmts : List Statement) : List (Str × Nat) :=
  stmts.filterMap fun stmt => stmt.pressed.map fun base => ('-' :: base, stmt.line)

namespace Registry

variable {Float Span : Type} [BEq Float] [BEq Span] (reg : Registry Float Span)

def consoleOrigin : Origin := .script "console".toList

/-- `Ctx::run`. -/
def run (src : Str) : Effect (Value Float Span) ExecOutcome := reg.eval src false consoleOrigin .user

/-- One statement of a strict script of the console. -/
def perform : Statement → Effect (Value Float Span) Unit :=
  reg.dispatch consoleOrigin .user fun name body =>
    withDepth name (do let _ ← reg.evalFuel maxDepth body false consoleOrigin .user)

/-- `Ctx::bound` -/
def bound (s : State (Value Float Span)) (key : Str) : Option Str :=
  match normalizeChord key with
  | .error _ => none
  | .ok chord => s.binds chord

/-- The latched releases, one after the other. -/
def runReleases : List (Str × Nat) → List Nat → Effect (Value Float Span) (List Nat)
  | [], output => pure output
  | (release, line) :: rest, output => do
    let _ ← reg.run release
    runReleases rest (output ++ [line])

/-- The statements of a held key that press no action. -/
def replay : List Statement → List Nat → Effect (Value Float Span) (List Nat)
  | [], output => pure output
  | stmt :: rest, output =>
    match stmt.name.asAtom with
    | none => replay rest output
    | some name =>
      if name.head? = some '+' then replay rest output
      else do
        reg.perform stmt
        replay rest (output ++ [stmt.line])

def execKeyRepeat (script : Str) : Effect (Value Float Span) (List Nat) :=
  match parse script with
  | .error e => Action.fail (.parse e)
  | .ok stmts => reg.replay stmts []

/-- `Ctx::exec` for the console: the lines of the statements that ran. -/
def execConsole (src : Str) : Effect (Value Float Span) (List Nat) := do
  let outcome ← reg.run src
  return (List.range outcome.ran).map (· + 1)

/-- Runs an effect of the context; the keys stay as they are. -/
def onState (effect : Effect (Value Float Span) (List Nat)) (keys : Keys (Value Float Span)) :
    Except KeyError (List Nat) × Keys (Value Float Span) :=
  ((effect keys.state).1.mapError .con, { keys with state := (effect keys.state).2 })

/-- `Ctx::key`. -/
def key (text : Str) (pressed : Bool) (keys : Keys (Value Float Span)) :
    Except KeyError (List Nat) × Keys (Value Float Span) :=
  match normalizeChord text with
  | .error e => (.error (.chord e), keys)
  | .ok chord =>
    match pressed, keys.pressedBinds chord with
    | false, none => (.ok [], keys)
    | false, some held =>
      onState (reg.runReleases held.releases [])
        { keys with pressedBinds := Function.update keys.pressedBinds chord none }
    | true, some prior => onState (reg.execKeyRepeat prior.script) keys
    | true, none =>
      match bound keys.state chord with
      | none => (.ok [], keys)
      | some script =>
        match parse script with
        | .error e => (.error (.con (.parse e)), keys)
        | .ok stmts =>
          let held := if (latches stmts).isEmpty then keys.pressedBinds
            else Function.update keys.pressedBinds chord (some ⟨script, latches stmts⟩)
          onState (reg.execConsole script) { keys with pressedBinds := held }

end Registry

end OhMyPi.Console
