import Mathlib.Logic.Basic

/-! The config-script language of the console (`con/src/script.rs`) and its typed values
(`con/src/value.rs`). Floating-point numbers and time spans are two types the rest does not look
into. -/

namespace OhMyPi.Console

abbrev Str := List Char

/-- `char::is_whitespace`. -/
def isWhitespace (c : Char) : Bool :=
  let n := c.toNat
  (9 ≤ n && n ≤ 13) || n = 0x20 || n = 0x85 || n = 0xA0 || n = 0x1680 || (0x2000 ≤ n && n ≤ 0x200A) ||
    n = 0x2028 || n = 0x2029 || n = 0x202F || n = 0x205F || n = 0x3000

inductive Arg where
  | atom (text : Str)
  | list (items : List Arg)
  | kv (pairs : List (Str × Arg))

def Arg.asAtom : Arg → Option Str
  | .atom text => some text
  | _ => none

/-- One executable statement; it always has a first argument, its name. -/
structure Statement where
  name : Arg
  args : List Arg
  line : Nat

inductive ParseError where
  | unterminatedString (line : Nat)
  | unterminatedList (line : Nat)
  | unterminatedKv (line : Nat)
  | unexpectedClose (line : Nat) (token : Char)
  | kvKey (line : Nat)
  | badName (line : Nat)

namespace Lexer

/-- What is left of the text, and the line it starts on. -/
structure Cursor where
  text : Str
  line : Nat

def Cursor.bump (c : Char) (rest : Str) (line : Nat) : Cursor :=
  { text := rest, line := if c = '\n' then line + 1 else line }

/-- Skips whitespace and comments, and newlines only inside literals. -/
def skip (newlines comment : Bool) : Str → Nat → Cursor
  | [], line => ⟨[], line⟩
  | c :: rest, line =>
    if c = '\n' then
      if newlines then skip newlines false rest (line + 1) else ⟨c :: rest, line⟩
    else if comment || isWhitespace c then skip newlines comment rest line
    else if c = '/' && rest.head? = some '/' then skip newlines true rest line
    else ⟨c :: rest, line⟩

def skipTrivia (newlines : Bool) (cursor : Cursor) : Cursor :=
  skip newlines false cursor.text cursor.line

/-- The rest of a quoted string, `none` when it does not end. -/
def quoted : Str → Nat → Str → Option (Str × Cursor)
  | [], _, _ => none
  | '"' :: rest, line, seen => some (seen.reverse, ⟨rest, line⟩)
  | ['\\'], _, _ => none
  | '\\' :: c :: rest, line, seen =>
    let escaped := if c = 'n' then '\n' else if c = 't' then '\t' else c
    quoted rest (if c = '\n' then line + 1 else line) (escaped :: seen)
  | c :: rest, line, seen => quoted rest (if c = '\n' then line + 1 else line) (c :: seen)

def isWordEnd (c : Char) : Bool := isWhitespace c || ";\"[]\x7b\x7d".toList.contains c

def word (cursor : Cursor) : Arg × Cursor :=
  let text := cursor.text.takeWhile fun c => !isWordEnd c
  (.atom text, { cursor with text := cursor.text.drop text.length })

mutual

/-- One argument at a position that is no trivia. The fuel bounds how deep literals nest; the length of
the text is enough for it. -/
def arg : Nat → Cursor → Except ParseError (Arg × Cursor)
  | 0, cursor => .error (.unterminatedList cursor.line)
  | fuel + 1, ⟨text, line⟩ =>
    match text with
    | '"' :: rest =>
      match quoted rest line [] with
      | some (text, cursor) => .ok (.atom text, cursor)
      | none => .error (.unterminatedString line)
    | '[' :: rest => list fuel line [] ⟨rest, line⟩
    | '\x7b' :: rest => kv fuel line [] ⟨rest, line⟩
    | ']' :: _ => .error (.unexpectedClose line ']')
    | '\x7d' :: _ => .error (.unexpectedClose line '\x7d')
    | _ => .ok (word ⟨text, line⟩)

def list : Nat → Nat → List Arg → Cursor → Except ParseError (Arg × Cursor)
  | 0, openLine, _, _ => .error (.unterminatedList openLine)
  | fuel + 1, openLine, items, cursor =>
    let cursor := skipTrivia true cursor
    match cursor.text with
    | [] => .error (.unterminatedList openLine)
    | ']' :: rest => .ok (.list items.reverse, ⟨rest, cursor.line⟩)
    | ';' :: rest => list fuel openLine items ⟨rest, cursor.line⟩
    | _ => do
      let (item, cursor) ← arg fuel cursor
      list fuel openLine (item :: items) cursor

def kv : Nat → Nat → List (Str × Arg) → Cursor → Except ParseError (Arg × Cursor)
  | 0, openLine, _, _ => .error (.unterminatedKv openLine)
  | fuel + 1, openLine, pairs, cursor =>
    let cursor := skipTrivia true cursor
    match cursor.text with
    | [] => .error (.unterminatedKv openLine)
    | '\x7d' :: rest => .ok (.kv pairs.reverse, ⟨rest, cursor.line⟩)
    | ';' :: rest => kv fuel openLine pairs ⟨rest, cursor.line⟩
    | _ => do
      let (first, cursor) ← arg fuel cursor
      match first with
      | .atom key =>
        let cursor := skipTrivia true cursor
        if cursor.text.head?.all (· = '\x7d') then .error (.unterminatedKv openLine)
        else
          let (value, cursor) ← arg fuel cursor
          kv fuel openLine ((key, value) :: pairs) cursor
      | _ => .error (.kvKey cursor.line)

end

/-- The arguments up to the end of a statement. -/
def statement : Nat → List Arg → Cursor → Except ParseError (List Arg × Cursor)
  | 0, args, cursor => .ok (args.reverse, cursor)
  | fuel + 1, args, cursor =>
    let cursor := skipTrivia false cursor
    match cursor.text with
    | [] => .ok (args.reverse, cursor)
    | '\n' :: _ => .ok (args.reverse, cursor)
    | ';' :: _ => .ok (args.reverse, cursor)
    | _ => do
      let (next, cursor) ← arg (2 * cursor.text.length + 2) cursor
      statement fuel (next :: args) cursor

def script : Nat → List Statement → Cursor → Except ParseError (List Statement)
  | 0, statements, _ => .ok statements.reverse
  | fuel + 1, statements, cursor =>
    let cursor := skipTrivia false cursor
    match cursor.text with
    | [] => .ok statements.reverse
    | '\n' :: rest => script fuel statements ⟨rest, cursor.line + 1⟩
    | ';' :: rest => script fuel statements ⟨rest, cursor.line⟩
    | _ => do
      let (args, after) ← statement (cursor.text.length + 1) [] cursor
      match args with
      | [] => script fuel statements after
      | name :: args => script fuel ({ name, args, line := cursor.line } :: statements) after

end Lexer

def parse (src : Str) : Except ParseError (List Statement) :=
  Lexer.script (src.length + 1) [] ⟨src, 1⟩

/-! ### Values -/

inductive Value (Float Span : Type) where
  | bool (b : Bool)
  | int (i : Int)
  | float (x : Float)
  | str (s : Str)
  | enum (s : Str)
  | duration (span : Span)
  | list (items : List (Value Float Span))
  | kv (pairs : List (Str × Value Float Span))

/-! `PartialEq` of values, which is that of the numbers and spans. -/

mutual

def Value.beq {Float Span : Type} [BEq Float] [BEq Span] :
    Value Float Span → Value Float Span → Bool
  | .bool a, .bool b => a == b
  | .int a, .int b => a == b
  | .float a, .float b => a == b
  | .str a, .str b => a == b
  | .enum a, .enum b => a == b
  | .duration a, .duration b => a == b
  | .list as, .list bs => Value.beqItems as bs
  | .kv as, .kv bs => Value.beqPairs as bs
  | _, _ => false

def Value.beqItems {Float Span : Type} [BEq Float] [BEq Span] :
    List (Value Float Span) → List (Value Float Span) → Bool
  | [], [] => true
  | a :: as, b :: bs => Value.beq a b && Value.beqItems as bs
  | _, _ => false

def Value.beqPairs {Float Span : Type} [BEq Float] [BEq Span] :
    List (Str × Value Float Span) → List (Str × Value Float Span) → Bool
  | [], [] => true
  | (key, a) :: as, (key', b) :: bs => key == key' && Value.beq a b && Value.beqPairs as bs
  | _, _ => false

end

instance {Float Span : Type} [BEq Float] [BEq Span] : BEq (Value Float Span) := ⟨Value.beq⟩

inductive TypeSpec where
  | bool
  | int
  | float
  | str
  | duration (finiteOnly : Bool)
  | enum (variants : List Str)
  | list (elem : TypeSpec)
  | kv

/-- Parsing, clamping and `never` of the two types. -/
structure Scalars (Float Span : Type) where
  parseFloat : Str → Option Float
  parseSpan : Str → Option Span
  isNever : Span → Bool
  clampFloat : Option Float → Option Float → Float → Float
  clampInt : Option Float → Option Float → Int → Int

/-- Why an argument could not be coerced. -/
inductive CoerceIssue where
  | kind
  | variant

/-- `str::parse::<i64>`. -/
def parseI64 (text : Str) : Option Int :=
  let magnitude (digits : Str) : Option Nat :=
    if digits.isEmpty || digits.any fun c => !c.isDigit then none
    else some (digits.foldl (fun n c => 10 * n + (c.toNat - '0'.toNat)) 0)
  let value : Option Int :=
    match text with
    | '-' :: digits => (magnitude digits).map fun n => -Int.ofNat n
    | '+' :: digits => (magnitude digits).map Int.ofNat
    | digits => (magnitude digits).map Int.ofNat
  value.filter fun i => -9223372036854775808 ≤ i ∧ i ≤ 9223372036854775807

section
variable {Float Span : Type} (sc : Scalars Float Span)

mutual

/-- The type of a leaf of a block is read off its text. -/
def infer : Arg → Value Float Span
  | .atom text =>
    if text = "true".toList then .bool true
    else if text = "false".toList then .bool false
    else
      match parseI64 text with
      | some i => .int i
      | none =>
        match sc.parseFloat text with
        | some x => .float x
        | none => .str text
  | .list items => .list (inferList items)
  | .kv pairs => .kv (inferPairs pairs)

def inferList : List Arg → List (Value Float Span)
  | [] => []
  | item :: items => infer item :: inferList items

def inferPairs : List (Str × Arg) → List (Str × Value Float Span)
  | [] => []
  | (key, value) :: pairs => (key, infer value) :: inferPairs pairs

end

def coerceOne (arg : Arg) : TypeSpec → Except CoerceIssue (Value Float Span)
  | .bool =>
    if arg.asAtom = some "true".toList ∨ arg.asAtom = some ['1'] then .ok (.bool true)
    else if arg.asAtom = some "false".toList ∨ arg.asAtom = some ['0'] then .ok (.bool false)
    else .error .kind
  | .int => ((arg.asAtom.bind parseI64).map (Except.ok ∘ Value.int)).getD (.error .kind)
  | .float => ((arg.asAtom.bind sc.parseFloat).map (Except.ok ∘ Value.float)).getD (.error .kind)
  | .str => (arg.asAtom.map (Except.ok ∘ Value.str)).getD (.error .kind)
  | .duration _ => ((arg.asAtom.bind sc.parseSpan).map (Except.ok ∘ Value.duration)).getD (.error .kind)
  | .enum variants =>
    match arg.asAtom with
    | some text => if text ∈ variants then .ok (.enum text) else .error .variant
    | none => .error .kind
  | .list elem =>
    match arg with
    | .list items => (items.mapM fun item => coerceOne item elem).map .list
    | .atom text => (coerceOne (.atom text) elem).map fun value => .list [value]
    | .kv _ => .error .kind
  | .kv =>
    match arg with
    | .kv pairs => .ok (.kv (inferPairs sc pairs))
    | _ => .error .kind

/-- A list takes every argument that is left, all else takes exactly one. -/
def coerceSetArgs (args : List Arg) (ty : TypeSpec) : Except CoerceIssue (Value Float Span) :=
  match ty, args with
  | ty, [one] => coerceOne sc one ty
  | .list elem, args => (args.mapM fun item => coerceOne sc item elem).map .list
  | _, _ => .error .kind

def TypeSpec.conforms : TypeSpec → Value Float Span → Bool
  | .bool, .bool _ => true
  | .int, .int _ => true
  | .float, .float _ => true
  | .str, .str _ => true
  | .duration finiteOnly, .duration span => !(finiteOnly && sc.isNever span)
  | .enum variants, .str s => variants.contains s
  | .enum variants, .enum s => variants.contains s
  | .list elem, .list items => items.all fun item => elem.conforms item
  | .kv, .kv _ => true
  | _, _ => false

end

end OhMyPi.Console
