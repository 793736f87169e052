import Mathlib.Algebra.Order.Ring.Nat
import OhMyPi.Journal.Json
import OhMyPi.Lib.Action

/-! Validation of tool arguments against the supported JSON Schema subset
(`ai/src/recovery/tools.rs`). A schema is itself a JSON value; the validator walks it beside the
arguments, counts the nodes it visits and reports the first violation. -/

namespace OhMyPi.Recovery

/-- `f64`, whose values are known by their bits. -/
structure Floats where
  eq : UInt64 → UInt64 → Bool
  lt : UInt64 → UInt64 → Bool
  le : UInt64 → UInt64 → Bool
  /-- `u64 as f64` -/
  ofU64 : UInt64 → UInt64
  /-- `i64 as f64` -/
  ofI64 : Int64 → UInt64
  /-- `fract() == 0.0` -/
  isIntegral : UInt64 → Bool
  /-- `str::parse::<f64>` of a finite number. -/
  parseFinite : List Char → Option UInt64

/-- For values in which there are no floats. -/
def plainFloats : Floats where
  eq a b := a == b
  lt _ _ := false
  le _ _ := false
  ofU64 n := n
  ofI64 n := n.toUInt64
  isIntegral _ := true
  parseFinite _ := none

/-! ### JSON values -/

def asFields : Json → Option (List (String × Json))
  | .object fields => some fields
  | _ => none

/-- `Value::as_f64`. -/
def asF64 (floats : Floats) : Json → Option UInt64
  | .number (.posInt n) => some (floats.ofU64 n)
  | .number (.negInt n) => some (floats.ofI64 n)
  | .number (.float bits) => some bits
  | _ => none

def sameNumber (floats : Floats) : JsonNumber → JsonNumber → Bool
  | .posInt a, .posInt b => a == b
  | .negInt a, .negInt b => a == b
  | .float a, .float b => floats.eq a b
  | _, _ => false

/-! `PartialEq` of values: the order of the members does not count. -/

mutual

def same (floats : Floats) : Json → Json → Bool
  | .null, .null => true
  | .bool a, .bool b => a == b
  | .number a, .number b => sameNumber floats a b
  | .string a, .string b => a == b
  | .array as, .array bs => sameItems floats as bs
  | .object as, .object bs => as.length == bs.length && sameFields floats as bs
  | _, _ => false

def sameItems (floats : Floats) : List Json → List Json → Bool
  | [], [] => true
  | a :: as, b :: bs => same floats a b && sameItems floats as bs
  | _, _ => false

def sameFields (floats : Floats) : List (String × Json) → List (String × Json) → Bool
  | [], _ => true
  | (key, a) :: as, bs =>
    (match Json.field bs key with
      | some b => same floats a b
      | none => false) && sameFields floats as bs

end

/-! ### Violations -/

inductive Rule
  | maxDepth | maxNodes | falseSchema | schemaType | const | enum | type | anyOf | oneOf
  | required | additionalProperties | minProperties | maxProperties
  | minItems | maxItems | uniqueItems | minLength | maxLength
  | minimum | maximum | exclusiveMinimum | exclusiveMaximum | unsupportedKeyword
  deriving DecidableEq

structure SchemaViolation where
  path : List Char
  rule : Rule
  expectedTypes : List String
  fromUnionBranch : Bool

/-- A check, which uses up a budget of nodes. -/
abbrev Check := Action Nat SchemaViolation Unit

/-- The path of a violation, where `/` stands for the root. -/
def rooted (path : List Char) : List Char := if path.isEmpty then ['/'] else path

def violation (path : List Char) (rule : Rule) : Check :=
  Action.fail ⟨rooted path, rule, [], false⟩

def typeViolation (path : List Char) (expectedTypes : List String) : Check :=
  Action.fail ⟨rooted path, .type, expectedTypes, false⟩

/-- `str::replace` of a character. -/
def replaceChar (c : Char) (replacement text : List Char) : List Char :=
  text.flatMap fun d => if d = c then replacement else [d]

def escape (child : List Char) : List Char :=
  replaceChar '/' ['~', '1'] (replaceChar '~' ['~', '0'] child)

def childPath (parent child : List Char) : List Char := parent ++ '/' :: escape child

def decimal (n : Nat) : List Char := Nat.toDigits 10 n

/-! ### Types and tags -/

def matchesType (floats : Floats) (value : Json) (kind : String) : Bool :=
  match kind, value with
  | "null", .null => true
  | "boolean", .bool _ => true
  | "object", .object _ => true
  | "array", .array _ => true
  | "number", .number _ => true
  | "integer", .number (.posInt _) => true
  | "integer", .number (.negInt _) => true
  | "integer", .number (.float bits) => floats.isIntegral bits
  | "string", .string _ => true
  | _, _ => false

/-- The types a `type` keyword lists. -/
def listedTypes : Json → List String
  | .string kind => [kind]
  | .array kinds => kinds.filterMap Json.asStr
  | _ => []

def selectsTag (floats : Floats) (value : List (String × Json)) : Bool → List (String × Json) → Bool
  | matched, [] => matched
  | matched, (key, property) :: properties =>
    match asFields property with
    | none => selectsTag floats value matched properties
    | some property =>
      match Json.field property "const", (Json.field property "enum").bind Json.asArray with
      | none, none => selectsTag floats value matched properties
      | some constant, _ =>
        match Json.field value key with
        | none => false
        | some candidate =>
          if same floats candidate constant then selectsTag floats value true properties else false
      | none, some variants =>
        match Json.field value key with
        | none => false
        | some candidate =>
          if variants.any (same floats · candidate) then selectsTag floats value true properties
          else false

/-- The constants of the branch's properties are all those of the value, and there are some. -/
def isTagSelectedBranch (floats : Floats) (branch value : Json) : Bool :=
  match asFields branch, asFields value with
  | some branch, some value =>
    match (Json.field branch "properties").bind asFields with
    | none => false
    | some properties => selectsTag floats value false properties
  | _, _ => false

/-! ### The validator -/

/-- `STRICT_KEYWORDS` -/
def strictKeywords : List String :=
  ["$id", "$schema", "$comment", "title", "description", "default", "examples", "format", "type",
    "const", "enum", "allOf", "anyOf", "oneOf", "properties", "required", "additionalProperties",
    "items", "minItems", "maxItems", "uniqueItems", "minProperties", "maxProperties", "minLength",
    "maxLength", "minimum", "maximum", "exclusiveMinimum", "exclusiveMaximum"]

/-- What the branches of a union have given so far. -/
structure Tally where
  matched : Nat := 0
  firstIssue : Option SchemaViolation := none
  selectedIssue : Option SchemaViolation := none
  selectedCount : Nat := 0

/-- `u32::saturating_add(1)` -/
def saturatingSucc (n : Nat) : Nat := min (n + 1) (2 ^ 32 - 1)

def Tally.fail (tally : Tally) (issue : SchemaViolation) (selected : Bool) : Tally where
  matched := tally.matched
  firstIssue := tally.firstIssue <|> some issue
  selectedIssue :=
    if selected && saturatingSucc tally.selectedCount == 1 then some issue else tally.selectedIssue
  selectedCount := if selected then saturatingSucc tally.selectedCount else tally.selectedCount

section

variable (floats : Floats) (strict : Bool) (node : Json → Json → List Char → Check)
variable (object : List (String × Json)) (value : Json) (path : List Char)

/-- Runs the check for each of the list, up to the first that fails. -/
def forEach {α : Type} (check : α → Check) : List α → Check
  | [] => pure ()
  | a :: as => do
    check a
    forEach check as

/-- Passes unless the condition holds. -/
def failIf (condition : Bool) (path : List Char) (rule : Rule) : Check :=
  if condition then violation path rule else pure ()

def checkConst : Check :=
  failIf ((Json.field object "const").any fun constant => !same floats value constant) path .const

def checkEnum : Check :=
  failIf (((Json.field object "enum").bind Json.asArray).any fun values =>
    !values.any (same floats · value)) path .enum

def checkType : Check :=
  match Json.field object "type" with
  | none => pure ()
  | some types =>
    if (listedTypes types).any (matchesType floats value) then
      pure ()
    else typeViolation path (listedTypes types)

def checkAllOf : Check :=
  match (Json.field object "allOf").bind Json.asArray with
  | none => pure ()
  | some all => forEach (fun schema => node schema value path) all

/-- The loop over the branches of a union, which `anyOf` leaves at the first match. -/
def tryBranches (first : Bool) : List Json → Tally → Nat → Tally × Nat
  | [], tally, budget => (tally, budget)
  | branch :: branches, tally, budget =>
    let (result, branchBudget) := node branch value path budget
    let budget := budget - (budget - branchBudget)
    match result with
    | .ok () =>
      let tally := { tally with matched := saturatingSucc tally.matched }
      if first then (tally, budget) else tryBranches first branches tally budget
    | .error issue =>
      tryBranches first branches (tally.fail issue (isTagSelectedBranch floats branch value)) budget

/-- How a union without a match fails. -/
def unionIssue (tally : Tally) (rule : Rule) : Check :=
  match tally.selectedCount, tally.selectedIssue, tally.firstIssue with
  | 1, some issue, _ => Action.fail issue
  | _, _, some issue => Action.fail { issue with fromUnionBranch := true }
  | _, _, none => violation path rule

def checkAnyOf : Check :=
  match (Json.field object "anyOf").bind Json.asArray with
  | none => pure ()
  | some any => fun budget =>
    let (tally, budget) := tryBranches floats node value path true any {} budget
    if tally.matched == 0 then unionIssue path tally .anyOf budget else (.ok (), budget)

def checkOneOf : Check :=
  match (Json.field object "oneOf").bind Json.asArray with
  | none => pure ()
  | some one => fun budget =>
    let (tally, budget) := tryBranches floats node value path false one {} budget
    if tally.matched == 1 then (.ok (), budget)
    else if tally.matched == 0 then unionIssue path tally .oneOf budget
    else violation path .oneOf budget

def checkRequired (properties : List (String × Json)) : Check :=
  match (Json.field object "required").bind Json.asArray with
  | none => pure ()
  | some required =>
    forEach (fun key => failIf (Json.field properties key).isNone (childPath path key.toList) .required)
      (required.filterMap Json.asStr)

def checkProperty (property : String × Json) : Check :=
  let child := childPath path property.1.toList
  match ((Json.field object "properties").bind asFields).bind (Json.field · property.1) with
  | some schema => node schema property.2 child
  | none =>
    match Json.field object "additionalProperties" with
    | some (.bool false) => violation child .additionalProperties
    | some (.object extra) => node (.object extra) property.2 child
    | _ => pure ()

/-- A lower or an upper bound on a size, which is a keyword's value. -/
def checkSize (keyword : String) (breaks : Nat → Bool) (rule : Rule) : Check :=
  failIf (((Json.field object keyword).bind Json.asU64).any fun n => breaks n.toNat) path rule

def checkObject : Check :=
  match asFields value with
  | none => pure ()
  | some properties => do
    checkRequired object path properties
    forEach (checkProperty node object path) properties
    checkSize object path "minProperties" (properties.length < ·) .minProperties
    checkSize object path "maxProperties" (properties.length > ·) .maxProperties

/-- Whether an item stands before among the items. -/
def hasRepeats : List Json → List Json → Bool
  | _, [] => false
  | before, item :: items => before.any (same floats · item) || hasRepeats (before ++ [item]) items

def checkItems (items : List Json) : Check :=
  match Json.field object "items" with
  | none => pure ()
  | some schema =>
    forEach (fun item : Json × Nat => node schema item.1 (childPath path (decimal item.2))) items.zipIdx

def checkArray : Check :=
  match value.asArray with
  | none => pure ()
  | some items => do
    checkItems node object path items
    checkSize object path "minItems" (items.length < ·) .minItems
    checkSize object path "maxItems" (items.length > ·) .maxItems
    failIf (((Json.field object "uniqueItems").any (same floats · (.bool true))) &&
      hasRepeats floats [] items) path .uniqueItems

def checkString : Check :=
  match value.asStr with
  | none => pure ()
  | some text => do
    checkSize object path "minLength" (text.length < ·) .minLength
    checkSize object path "maxLength" (text.length > ·) .maxLength

/-- A bound on a number. -/
def checkBound (keyword : String) (breaks : UInt64 → Bool) (rule : Rule) : Check :=
  failIf (((Json.field object keyword).bind (asF64 floats)).any breaks) path rule

def checkNumber : Check :=
  match asF64 floats value with
  | none => pure ()
  | some number => do
    checkBound floats object path "minimum" (floats.lt number ·) .minimum
    checkBound floats object path "maximum" (floats.lt · number) .maximum
    checkBound floats object path "exclusiveMinimum" (floats.le number ·) .exclusiveMinimum
    checkBound floats object path "exclusiveMaximum" (floats.le · number) .exclusiveMaximum

def checkKeywords : Check :=
  failIf (strict && object.any fun field => !strictKeywords.contains field.1) path .unsupportedKeyword

/-- The keywords of a schema object, in the order in which they are looked at. -/
def checkObjectSchema : Check := do
  checkConst floats object value path
  checkEnum floats object value path
  checkType floats object value path
  checkAllOf node object value path
  checkAnyOf floats node object value path
  checkOneOf floats node object value path
  checkObject node object value path
  checkArray floats node object value path
  checkString object value path
  checkNumber floats object value path
  checkKeywords strict object path

end

/-- `validate_node` with so many levels left. -/
def validateNode (floats : Floats) (strict : Bool) : Nat → Json → Json → List Char → Check
  | 0, _, _, path => violation path .maxDepth
  | levels + 1, schema, value, path => fun budget =>
    if budget = 0 then violation path .maxNodes budget
    else
      match schema with
      | .bool true => (.ok (), budget - 1)
      | .bool false => violation path .falseSchema (budget - 1)
      | .object object =>
        checkObjectSchema floats strict (validateNode floats strict levels) object value path
          (budget - 1)
      | _ => violation path .schemaType (budget - 1)

structure ToolAssemblyLimits where
  maxSchemaDepth : Nat
  maxSchemaNodes : Nat

def validateSchema (floats : Floats) (schema arguments : Json) (strict : Bool)
    (limits : ToolAssemblyLimits) : Except SchemaViolation Unit :=
  (validateNode floats strict (limits.maxSchemaDepth + 1) schema arguments [] limits.maxSchemaNodes).1

end OhMyPi.Recovery
