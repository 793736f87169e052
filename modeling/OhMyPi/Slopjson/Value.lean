import OhMyPi.Lib.JsonTokens
import OhMyPi.Lib.KeyedList
import OhMyPi.Lib.LossyStream

/-! The value tree of `slopjson`. A number is an exact integer when it fits 64 bits and a double
otherwise; an object keeps its members in the order of their first insertion. -/

namespace OhMyPi.Slopjson

/-- What the parser uses of `f64`. -/
structure Doubles where
  F : Type
  /-- The double nearest to `±mantissa · 10 ^ exponent`. -/
  ofDecimal : Bool → Nat → Int → F
  infinity : Bool → F
  nan : F
  isFinite : F → Bool
  /-- `u64 as f64`. -/
  ofNat : Nat → F
  /-- `f64::mul_add` with an integer factor and an integer summand. -/
  mulAdd : F → Nat → Nat → F
  /-- `Display`, with a trailing `.0` for small integral values. -/
  display : F → List Char

inductive Number (D : Doubles)
  /-- Integer in `0..=u64::MAX`. -/
  | posInt (v : Nat)
  /-- Integer in `i64::MIN..0`. -/
  | negInt (v : Int)
  | float (v : D.F)

namespace Number

variable {D : Doubles}

/-- A finite float. -/
def fromF64 (value : D.F) : Option (Number D) :=
  if D.isFinite value then some (.float value) else none

def fromU64 (value : Nat) : Number D := .posInt value

def fromI64 (value : Int) : Number D := if value < 0 then .negInt value else .posInt value.toNat

def display : Number D → List Char
  | .posInt v => Nat.toDigits 10 v
  | .negInt v => '-' :: Nat.toDigits 10 v.natAbs
  | .float v => D.display v

end Number

inductive Value (D : Doubles)
  | null
  | bool (b : Bool)
  | number (n : Number D)
  | string (s : List Char)
  | array (items : List (Value D))
  | object (members : List (List Char × Value D))

variable {D : Doubles}

/-- `impl From<f64> for Value`. -/
def Value.fromF64 (value : D.F) : Value D := ((Number.fromF64 value).map Value.number).getD .null

/-- `Object::insert`: a key that is there keeps its place. -/
def Object.insert (object : List (List Char × Value D)) (key : List Char) (value : Value D) :
    List (List Char × Value D) :=
  KeyedList.assign key value object

def hexChar (n : Nat) : Char := Nat.digitChar (n % 16)

def escaped (c : Char) : List Char :=
  if c = '"' then ['\\', '"']
  else if c = '\\' then ['\\', '\\']
  else if c.toNat = 0x08 then ['\\', 'b']
  else if c = '\t' then ['\\', 't']
  else if c = '\n' then ['\\', 'n']
  else if c.toNat = 0x0c then ['\\', 'f']
  else if c = '\r' then ['\\', 'r']
  else if c.toNat < 0x20 then ['\\', 'u', '0', '0', hexChar (c.toNat / 16), hexChar c.toNat]
  else [c]

/-- `write_escaped`: the string as a JSON literal with the escapes it needs. -/
def writeEscaped (s : List Char) : List Char := '"' :: (s.flatMap escaped ++ ['"'])

end OhMyPi.Slopjson
