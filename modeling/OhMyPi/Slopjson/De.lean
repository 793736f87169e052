import OhMyPi.Slopjson.Parser

/-! The deserializer over the tolerant grammar, as it builds a value tree. A reader that needs more
rounds than its fuel gives has no outcome. -/

namespace OhMyPi.Slopjson

open Text JsonTokens

variable {D : Doubles}

abbrev Read := ExceptT ParseError Option

/-- The fuel is used up, or the source panics. -/
def noOutcome {α : Type} : Read α := ExceptT.mk none

def ofExcept {α : Type} (e : Except ParseError α) : Read α := ExceptT.mk (some e)

structure Deserializer where
  p : Parser
  depth : Nat
  /-- Whether an unrecognized token may recover as a bareword string: true only in value
  position. -/
  allowBareword : Bool

namespace Deserializer

def new (json : List Char) : Deserializer := ⟨.new json .strict, 0, false⟩

/-- Verify nothing but whitespace and comments remains. -/
def «end» (de : Deserializer) : Read Deserializer :=
  match de.p.ws.rest with
  | [] => pure { de with p := de.p.ws }
  | _ :: _ => throw (.trailingCharacters de.p.ws.pos)

def descend (de : Deserializer) : Read Deserializer :=
  if maxDepth ≤ de.depth then throw .depthExceeded else pure { de with depth := de.depth + 1 }

/-- An object key, quoted or unquoted. It becomes the path of what its reading repaired. -/
def mapKey (de : Deserializer) : Read (List Char × Deserializer) := do
  let (key, p) ← match de.p.rest with
    | '"' :: rest => ofExcept (de.p.string '"' rest)
    | '\'' :: rest => ofExcept (de.p.string '\'' rest)
    | _ =>
      let (key, p) := de.p.unquotedKey
      if key = [] then throw (.expectedKey de.p.pos) else pure (key, p)
  pure (key, { de with p := p.retargetRepairsFrom de.p.pos (.key key) })

/-- The separators before an entry of a container that ends with `close`: leading, doubled and
trailing commas are noted and skipped. -/
inductive Separators
  | unterminated
  | closed (p : Parser)
  | entry (sawComma : Bool) (p : Parser)

def separatorsLoop (close : Char) (first : Bool) : Nat → Bool → Parser → Separators
  | 0, _, _ => .unterminated
  | fuel + 1, sawComma, p =>
    match p.rest with
    | [] => .unterminated
    | c :: rest =>
      if c = close then .closed (p.move [c] rest)
      else if c = ',' then
        let next := (p.move [c] rest).ws
        let trailing := next.rest.head? = some close
        separatorsLoop close first fuel true
          (if trailing ∨ first = true ∨ sawComma = true then next.recordComma p.pos trailing else next)
      else .entry sawComma p

def separators (close : Char) (first : Bool) (p : Parser) : Separators :=
  separatorsLoop close first (p.ws.rest.length + 1) false p.ws

/-- `MapAccess::next_key_seed`. -/
def nextKey (de : Deserializer) (first : Bool) : Read (Option (List Char) × Deserializer) :=
  match separators '\x7d' first de.p with
  | .unterminated => throw .unterminatedObject
  | .closed p => pure (none, { de with p })
  | .entry sawComma p =>
    if first = false ∧ sawComma = false then throw (.expectedCommaOrBrace p.pos)
    else do
      let (key, de) ← mapKey { de with p }
      pure (some key, de)

/-- The colon before a member's value. -/
def colon (de : Deserializer) : Read Deserializer :=
  let p := de.p.ws
  match p.rest with
  | ':' :: rest =>
    let p := (p.move [':'] rest).ws
    if p.rest = [] then throw (.expectedValue p.pos) else pure { de with p }
  | _ => throw (.expectedColon p.pos)

/-- `SeqAccess::next_element_seed` up to the element: whether there is one. -/
def nextElement (de : Deserializer) (first : Bool) : Read (Bool × Deserializer) :=
  match separators ']' first de.p with
  | .unterminated => throw .unterminatedArray
  | .closed p => pure (false, { de with p })
  | .entry sawComma p =>
    if first = false ∧ sawComma = false then throw (.expectedCommaOrBracket p.pos)
    else pure (true, { de with p })

/-- Run `f` below `segment` of the repair path, with bareword recovery enabled. -/
def inValuePosition {α : Type} (segment : PathSegment) (f : Deserializer → Read (α × Deserializer))
    (de : Deserializer) : Read (α × Deserializer) := do
  let (a, next) ← f { de with p := de.p.pushRepairPath segment, allowBareword := true }
  pure (a, { next with p := next.p.popRepairPath, allowBareword := de.allowBareword })

/-- A value that is not a container, at its first character. -/
def scalar (de : Deserializer) (c : Char) (rest : List Char) : Read (Value D × Deserializer) :=
  if c = '"' ∨ c = '\'' then do
    let (text, p) ← ofExcept (de.p.string c rest)
    pure (.string text, { de with p })
  else if c = '-' ∨ c = '+' ∨ c = '.' ∨ isDigit c = true then do
    match ← ofExcept (de.p.number (D := D)) with
    | (some (.float v), p) => pure (.fromF64 v, { de with p })
    | (some number, p) => pure (.number number, { de with p })
    -- Strict mode yields a number or an error.
    | (none, _) => noOutcome
  else
    match de.p.matchKeyword with
    | some (.bool b, p) => pure (.bool b, { de with p })
    | some (.null, p) => pure (.null, { de with p })
    | none =>
      if de.allowBareword then do
        let (word, p) ← ofExcept de.p.bareword
        pure (.string word, { de with p })
      else throw (.unexpectedToken de.p.pos)

mutual

/-- `deserialize_any` with the visitor of `Value`. -/
def deserializeAny : Nat → Deserializer → Read (Value D × Deserializer)
  | 0, _ => noOutcome
  | fuel + 1, de =>
    let de := { de with p := de.p.ws }
    match de.p.rest with
    | [] => throw .unexpectedEnd
    | c :: rest =>
      if c = '\x7b' then do
        let inner ← de.descend
        let (members, next) ← visitMap fuel true [] { inner with p := inner.p.move [c] rest }
        pure (.object members, { next with depth := next.depth - 1 })
      else if c = '[' then do
        let inner ← de.descend
        let (items, next) ← visitSeq fuel 0 [] { inner with p := inner.p.move [c] rest }
        pure (.array items, { next with depth := next.depth - 1 })
      else de.scalar c rest

/-- `visit_map`: a later member replaces the value of an earlier one with its key. -/
def visitMap : Nat → Bool → List (List Char × Value D) → Deserializer →
    Read (List (List Char × Value D) × Deserializer)
  | 0, _, _, _ => noOutcome
  | fuel + 1, first, object, de => do
    match ← de.nextKey first with
    | (none, de) => pure (object, de)
    | (some key, de) =>
      let de ← de.colon
      let (value, de) ← de.inValuePosition (.key key) (deserializeAny fuel)
      visitMap fuel false (Object.insert object key value) de

/-- `visit_seq`, with the index of the next element. -/
def visitSeq : Nat → Nat → List (Value D) → Deserializer → Read (List (Value D) × Deserializer)
  | 0, _, _, _ => noOutcome
  | fuel + 1, index, items, de => do
    match ← de.nextElement (index = 0) with
    | (false, de) => pure (items, de)
    | (true, de) =>
      let (item, de) ← de.inValuePosition (.index index) (deserializeAny fuel)
      visitSeq fuel (index + 1) (items ++ [item]) de

end

end Deserializer

/-- `from_str` with `Value` as the target, and the repairs that `Deserializer::repairs` gives
afterwards. Every round reads a character. -/
def fromStr (json : List Char) : Read (Value D × List Repair) := do
  let (value, de) ← Deserializer.deserializeAny (json.length + 1) (.new json)
  let de ← de.end
  pure (value, de.p.repairs)

def parse (json : List Char) : Read (Value D) := do
  let (value, _) ← fromStr json
  pure value

end OhMyPi.Slopjson
