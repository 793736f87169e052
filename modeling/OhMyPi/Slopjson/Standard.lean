import OhMyPi.Slopjson.Value

/-! What a JSON text stands for, by its grammar: the standard that the tolerant parser is held to.
Of several members with one key the last one wins, and a surrogate without its partner is replaced. -/

namespace OhMyPi.Slopjson

open JsonTokens

variable {D : Doubles}

/-- An integer of 64 bits is exact, any other number the nearest double. -/
def standardNumber (n : Numeral) : Number D :=
  if n.isInteger = true ∧ -2 ^ 63 ≤ n.integer ∧ n.integer < 2 ^ 64 then
    if n.integer < 0 then .negInt n.integer else .posInt n.integer.toNat
  else .float (D.ofDecimal n.neg n.mantissa n.exponent)

/-- The number is not too large for a double. -/
def FiniteNumeral (D : Doubles) (n : Numeral) : Prop :=
  ∀ v, standardNumber (D := D) n = .float v → D.isFinite v = true

def Blank (text : List Char) : Prop := ∀ c ∈ text, isSpace c = true

/-- What a part of a text stands for. -/
inductive Reading (D : Doubles)
  | value (v : Value D)
  | elements (vs : List (Value D))
  | members (ms : List (List Char × Value D))

/-- The text of a value, of the elements of an array or of the members of an object, with
containers at most `depth` deep. -/
inductive Denotes : Nat → List Char → Reading D → Prop
  | null : Denotes depth "null".toList (.value .null)
  | true : Denotes depth "true".toList (.value (.bool true))
  | false : Denotes depth "false".toList (.value (.bool false))
  | number (n : Numeral) : FiniteNumeral D n →
    Denotes depth n.text (.value (.number (standardNumber n)))
  | string (l : Literal) : Denotes depth l.text (.value (.string l.value))
  | emptyArray : Blank w → Denotes (depth + 1) ('[' :: (w ++ [']'])) (.value (.array []))
  | array : Denotes depth text (.elements vs) →
    Denotes (depth + 1) ('[' :: (text ++ [']'])) (.value (.array vs))
  | emptyObject : Blank w →
    Denotes (depth + 1) ('\x7b' :: (w ++ ['\x7d'])) (.value (.object []))
  | object : Denotes depth text (.members ms) →
    Denotes (depth + 1) ('\x7b' :: (text ++ ['\x7d']))
      (.value (.object (KeyedList.lastWins ms)))
  | element : Blank w → Denotes depth text (.value v) → Blank w' →
    Denotes depth (w ++ (text ++ w')) (.elements [v])
  | elements : Blank w → Denotes depth text (.value v) → Blank w' →
    Denotes depth rest (.elements vs) →
    Denotes depth (w ++ (text ++ (w' ++ ',' :: rest))) (.elements (v :: vs))
  | member (l : Literal) : Blank w₁ → Blank w₂ → Blank w₃ → Denotes depth text (.value v) →
    Blank w₄ →
    Denotes depth (w₁ ++ (l.text ++ (w₂ ++ ':' :: (w₃ ++ (text ++ w₄))))) (.members [(l.value, v)])
  | members (l : Literal) : Blank w₁ → Blank w₂ → Blank w₃ → Denotes depth text (.value v) →
    Blank w₄ → Denotes depth rest (.members ms) →
    Denotes depth (w₁ ++ (l.text ++ (w₂ ++ ':' :: (w₃ ++ (text ++ (w₄ ++ ',' :: rest))))))
      (.members ((l.value, v) :: ms))

/-- A valid JSON text of nesting at most `depth`, and its standard value. -/
def JsonText (depth : Nat) (json : List Char) (v : Value D) : Prop :=
  ∃ w text w', Blank w ∧ Denotes depth text (.value v) ∧ Blank w' ∧ json = w ++ (text ++ w')

end OhMyPi.Slopjson
