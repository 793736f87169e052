import Mathlib.Data.List.Basic

/-! JSON values as `serde_json::Value` holds them, and the questions the journal asks of
`serde_json`. The parser and printer are third-party code; they enter the development as a
parameter. -/

namespace OhMyPi

/-- `serde_json::Number`: an unsigned, a negative, or a floating-point number by its bits. -/
inductive JsonNumber where
  | posInt (n : UInt64)
  | negInt (n : Int64)
  | float (bits : UInt64)
deriving DecidableEq

/-- `serde_json::Value`. Objects keep insertion order. -/
inductive Json where
  | null
  | bool (b : Bool)
  | number (n : JsonNumber)
  | string (text : String)
  | array (items : List Json)
  | object (fields : List (String × Json))

namespace Json

/-- `Map::get`. -/
def field (fields : List (String × Json)) (key : String) : Option Json := fields.lookup key

/-- `Value::as_str`. -/
def asStr : Json → Option String
  | string text => some text
  | _ => none

/-- `Value::as_u64`. -/
def asU64 : Json → Option UInt64
  | number (.posInt n) => some n
  | _ => none

/-- `Value::as_bool`. -/
def asBool : Json → Option Bool
  | bool b => some b
  | _ => none

/-- `Value::as_array`. -/
def asArray : Json → Option (List Json)
  | array items => some items
  | _ => none

/-- `Value::get` with a key: the field of an object. -/
def get (value : Json) (key : String) : Option Json :=
  match value with
  | object fields => field fields key
  | _ => none

mutual

/-- How deep arrays and objects are nested. -/
def depth : Json → Nat
  | .array items => depthItems items + 1
  | .object fields => depthFields fields + 1
  | _ => 0

def depthItems : List Json → Nat
  | [] => 0
  | json :: items => max json.depth (depthItems items)

def depthFields : List (String × Json) → Nat
  | [] => 0
  | (_, json) :: fields => max json.depth (depthFields fields)

end

end Json

/-- The `serde_json` entry points the journal calls, as functions of the payload text. -/
structure SerdeJson where
  /-- Whether `from_str::<IgnoredAny>` accepts the text. -/
  ignoredAny : String → Bool
  /-- The `version` read by `from_str` at a record with an optional 32-bit `version`, when the
  text deserializes and has one. -/
  headerVersion : String → Option UInt32
  /-- `from_str::<Value>`. -/
  value : String → Option Json

end OhMyPi
