import OhMyPi.Lib.Substitute
import OhMyPi.Lib.Text
import OhMyPi.Dom.Selector
import OhMyPi.Recovery.Schema

/-! Repair of tool arguments: what the schema forbids is dropped, and declared coercions are applied. -/

namespace OhMyPi.Recovery

/-- `serde_json::from_str` and `Value::to_string`. -/
structure Serde where
  parse : List Char → Option Json
  print : Json → List Char

inductive ArgumentCoercion
  | looseBool | integer | number | string | singleton | jsonString
  deriving DecidableEq

structure ArgumentCoercionSpec where
  path : List Char
  coercions : List ArgumentCoercion

def declaredAt (coercions : List ArgumentCoercionSpec) (issue : SchemaViolation) :
    List ArgumentCoercion :=
  ((coercions.find? fun spec => spec.path == issue.path).map ArgumentCoercionSpec.coercions).getD []

/-! ### JSON pointers -/

/-- `str::split` at each slash. -/
def splitSlash : List Char → List (List Char)
  | [] => [[]]
  | c :: cs =>
    if c = '/' then [] :: splitSlash cs
    else
      match splitSlash cs with
      | [] => [[c]]
      | token :: tokens => (c :: token) :: tokens

def unescape (token : List Char) : List Char :=
  Substitute.replaceAll ['~', '0'] ['~'] (Substitute.replaceAll ['~', '1'] ['/'] token)

/-- The index that a token of a pointer denotes. -/
def parseIndex (token : List Char) : Option Nat :=
  if token.head? = some '+' || token.head? = some '0' && token.length != 1 then none
  else Selector.digits token

/-- The value that tokens lead to. -/
def locate : List (List Char) → Json → Option Json
  | [], value => some value
  | token :: tokens, .object fields => (Json.field fields (String.ofList token)).bind (locate tokens)
  | token :: tokens, .array items => ((parseIndex token).bind (items[·]?)).bind (locate tokens)
  | _ :: _, _ => none

/-- Changes the value under the first of the keys. -/
def modifyField (key : String) (f : Json → Json) : List (String × Json) → List (String × Json)
  | [] => []
  | (k, value) :: fields =>
    if k = key then (k, f value) :: fields else (k, value) :: modifyField key f fields

/-- Changes the value that tokens lead to. -/
def modifyAt (f : Json → Json) : List (List Char) → Json → Json
  | [], value => f value
  | token :: tokens, .object fields =>
    .object (modifyField (String.ofList token) (modifyAt f tokens) fields)
  | token :: tokens, .array items =>
    match parseIndex token with
    | none => .array items
    | some index => .array (items.modify index (modifyAt f tokens))
  | _ :: _, value => value

/-- The tokens of a pointer, where `/` stands for the root. -/
def pointerTokens (path : List Char) : Option (List (List Char)) :=
  if path = ['/'] then some []
  else
    match path with
    | [] => some []
    | '/' :: rest => some ((splitSlash rest).map unescape)
    | _ => none

/-- Changes what the pointer leads to, if it leads somewhere and the change applies there. -/
def modifyPointer (f : Json → Option Json) (path : List Char) (value : Json) : Option Json := do
  let tokens ← pointerTokens path
  let old ← locate tokens value
  let new ← f old
  return modifyAt (fun _ => new) tokens value

/-- `shift_remove` of a member, or removal of an element. -/
def removeMember (leaf : List Char) : Json → Option Json
  | .object members =>
    if (Json.field members (String.ofList leaf)).isSome then
      some (.object (members.eraseP fun member => member.1 = String.ofList leaf))
    else none
  | .array elements => do
    let index ← Selector.digits (Text.stripOne '+' leaf)
    if index < elements.length then some (.array (elements.eraseIdx index)) else none
  | _ => none

def removePointer (path : List Char) (value : Json) : Option Json := do
  let (parent, leaf) ← Text.rsplitOnce '/' path
  modifyPointer (removeMember (unescape leaf)) (if parent.isEmpty then ['/'] else parent) value

/-! ### Coercions -/

section

variable (floats : Floats) (serde : Serde)

def coerceJsonString (text : List Char) : Option Json :=
  let trimmed := Selector.trim text
  if trimmed.head? = some '\x7b' || trimmed.head? = some '[' then serde.parse trimmed else none

def coerceLooseBool (text : List Char) : Option Json :=
  let trimmed := Selector.trim text
  if trimmed = "true".toList || trimmed = "yes".toList || trimmed = "1".toList then some (.bool true)
  else if trimmed = "false".toList || trimmed = "no".toList || trimmed = "0".toList then
    some (.bool false)
  else none

/-- `Value::from` an `i64`. -/
def ofI64 (n : Int64) : Json :=
  .number (if n < 0 then .negInt n else .posInt n.toUInt64)

def coerceInteger (text : List Char) : Option Json :=
  (Selector.parseI64 (Selector.trim text)).map ofI64

/-- An integer keeps its spelling. -/
def coerceNumber (text : List Char) : Option Json :=
  coerceInteger text <|>
    (floats.parseFinite (Selector.trim text)).map fun bits => .number (.float bits)

/-- What a coercion makes of a value. -/
def coerce : ArgumentCoercion → Json → Option Json
  | .jsonString, .string text => coerceJsonString serde text.toList
  | .looseBool, .string text => coerceLooseBool text.toList
  | .integer, .string text => coerceInteger text.toList
  | .number, .string text => coerceNumber floats text.toList
  | .string, .string _ => none
  | .string, value => some (.string (String.ofList (serde.print value)))
  | .singleton, .array _ => none
  | .singleton, value => some (.array [value])
  | _, _ => none

/-- The types that a coercion may aim at, and whether the issue lets it. -/
def aims (issue : SchemaViolation) (value : Json) : ArgumentCoercion → Bool
  | .jsonString => issue.expectedTypes.any fun kind =>
      (coerce floats serde .jsonString value).any fun parsed => matchesType floats parsed kind
  | .looseBool => issue.expectedTypes.contains "boolean"
  | .integer => issue.expectedTypes.contains "integer"
  | .number => issue.expectedTypes.contains "number"
  | .string => issue.expectedTypes.contains "string"
  | .singleton => issue.expectedTypes.contains "array" && !issue.fromUnionBranch

def tryCoercion (issue : SchemaViolation) (declared : List ArgumentCoercion) (value : Json)
    (coercion : ArgumentCoercion) : Option Json :=
  if declared.contains coercion && aims floats serde issue value coercion then
    coerce floats serde coercion value
  else none

/-- Whether a union branch asks to encode a whole container as text, which ends the attempt. -/
def refusesText (issue : SchemaViolation) (declared : List ArgumentCoercion) (value : Json) : Bool :=
  declared.contains .string && issue.expectedTypes.contains "string" && issue.fromUnionBranch &&
    (value.asArray.isSome || (asFields value).isSome)

/-- The coercions in the order in which they are tried. -/
def coerceDeclared (issue : SchemaViolation) (declared : List ArgumentCoercion) (value : Json) :
    Option Json :=
  let attempt := tryCoercion floats serde issue declared value
  attempt .jsonString <|> attempt .looseBool <|> attempt .integer <|> attempt .number <|>
    if refusesText issue declared value then none else attempt .string <|> attempt .singleton

def applySchemaRepair (issue : SchemaViolation) (declared : List ArgumentCoercion) (value : Json) :
    Option Json :=
  match issue.rule with
  | .additionalProperties => if issue.fromUnionBranch then none else removePointer issue.path value
  | .type => modifyPointer (coerceDeclared floats serde issue declared) issue.path value
  | _ => none

/-! ### The loop -/

/-- The outcome of the repairs: the value, the violation that is left and the number of repairs. -/
structure Repaired where
  value : Json
  violation : Option SchemaViolation
  repairs : Nat

variable (schema : Json) (strict : Bool) (limits : ToolAssemblyLimits)
  (coercions : List ArgumentCoercionSpec)

def repairLoop : Nat → Nat → Json → Repaired
  | left, repairs, value =>
    match validateSchema floats schema value strict limits with
    | .ok () => ⟨value, none, repairs⟩
    | .error issue =>
      match left with
      | 0 => ⟨value, some issue, repairs⟩
      | left + 1 =>
        match applySchemaRepair floats serde issue (declaredAt coercions issue) value with
        | none => ⟨value, some issue, repairs⟩
        | some value => repairLoop left (repairs + 1) value

def repairSchemaArguments (arguments : Json) : Repaired :=
  repairLoop floats serde schema strict limits coercions 16 0 arguments

end

end OhMyPi.Recovery
