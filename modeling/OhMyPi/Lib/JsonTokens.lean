import Mathlib.Algebra.Order.Ring.Nat
import Mathlib.Data.List.Basic
import OhMyPi.Lib.Lossy

/-! The tokens of JSON as RFC 8259 writes them: whitespace, numerals and string literals, each a
structure that only holds well-formed text, with the text it is written as and what it stands for.
A string literal stands for UTF-16 code units, which need not be paired. -/

namespace JsonTokens

open Text (replacement)

/-- The whitespace between tokens. -/
def isSpace (c : Char) : Bool := c = ' ' || c = '\t' || c = '\n' || c = '\r'

/-! ## Numerals -/

def isDigit (c : Char) : Bool := '0' ≤ c && c ≤ '9'

/-- The number that a row of decimal digits writes. -/
def digitsValue (digits : List Char) : Nat := digits.foldl (fun v c => 10 * v + (c.toNat - 48)) 0

structure Digits where
  chars : List Char
  ne_nil : chars ≠ []
  all_digit : ∀ c ∈ chars, isDigit c = true

inductive Sign
  | plus
  | minus
deriving DecidableEq

def Sign.text : Option Sign → List Char
  | none => []
  | some .plus => ['+']
  | some .minus => ['-']

structure Exponent where
  mark : Char
  mark_eq : mark = 'e' ∨ mark = 'E'
  sign : Option Sign
  digits : Digits

def Exponent.value (e : Exponent) : Int :=
  if e.sign = some .minus then -(digitsValue e.digits.chars : Int) else digitsValue e.digits.chars

structure Numeral where
  neg : Bool
  int : Digits
  no_leading_zero : int.chars.head? = some '0' → int.chars = ['0']
  frac : Option Digits
  exp : Option Exponent

namespace Numeral

def signText (n : Numeral) : List Char := if n.neg then ['-'] else []

def fracText (n : Numeral) : List Char :=
  n.frac.elim [] fun digits => '.' :: digits.chars

def expText (n : Numeral) : List Char :=
  n.exp.elim [] fun e => e.mark :: (Sign.text e.sign ++ e.digits.chars)

def text (n : Numeral) : List Char := n.signText ++ (n.int.chars ++ (n.fracText ++ n.expText))

/-- The digits behind the point. -/
def fracDigits (n : Numeral) : List Char := n.frac.elim [] Digits.chars

/-- The numeral stands for `±mantissa · 10 ^ exponent`. -/
def mantissa (n : Numeral) : Nat := digitsValue (n.int.chars ++ n.fracDigits)

def exponent (n : Numeral) : Int := n.exp.elim 0 Exponent.value - n.fracDigits.length

/-- Written without a fraction and without an exponent. -/
def isInteger (n : Numeral) : Bool := n.frac.isNone && n.exp.isNone

def integer (n : Numeral) : Int :=
  if n.neg then -(digitsValue n.int.chars : Int) else digitsValue n.int.chars

end Numeral

/-! ## String literals -/

def isSurrogate (unit : Nat) : Bool := 0xd800 ≤ unit && unit < 0xe000

def isHigh (unit : Nat) : Bool := 0xd800 ≤ unit && unit < 0xdc00

def isLow (unit : Nat) : Bool := 0xdc00 ≤ unit && unit < 0xe000

/-- The code units of a character. -/
def utf16 (c : Char) : List Nat :=
  if c.toNat < 0x10000 then [c.toNat]
  else [0xd800 + (c.toNat - 0x10000) / 0x400, 0xdc00 + (c.toNat - 0x10000) % 0x400]

/-- The characters of a row of code units, with the replacement character for a surrogate that is
not one of a pair. -/
def decodeUtf16 : List Nat → List Char
  | [] => []
  | unit :: units =>
    if isHigh unit then
      match units with
      | low :: rest =>
        if isLow low then
          Char.ofNat (0x10000 + (unit - 0xd800) * 0x400 + (low - 0xdc00)) :: decodeUtf16 rest
        else replacement :: decodeUtf16 (low :: rest)
      | [] => [replacement]
    else if isLow unit then replacement :: decodeUtf16 units
    else Char.ofNat unit :: decodeUtf16 units

/-- The escapes of two characters. -/
def shortEscape : Char → Option Char
  | '"' => some '"'
  | '\\' => some '\\'
  | '/' => some '/'
  | 'b' => some (Char.ofNat 8)
  | 'f' => some (Char.ofNat 12)
  | 'n' => some '\n'
  | 'r' => some '\r'
  | 't' => some '\t'
  | _ => none

/-- `char::to_digit(16)`. -/
def hexValue (c : Char) : Option Nat :=
  if '0' ≤ c ∧ c ≤ '9' then some (c.toNat - '0'.toNat)
  else if 'a' ≤ c ∧ c ≤ 'f' then some (c.toNat - 'a'.toNat + 10)
  else if 'A' ≤ c ∧ c ≤ 'F' then some (c.toNat - 'A'.toNat + 10)
  else none

/-- The unit that four hexadecimal digits write. -/
def unitOf (a b c d : Char) : Option Nat := do
  let a ← hexValue a
  let b ← hexValue b
  let c ← hexValue c
  let d ← hexValue d
  some (((a * 16 + b) * 16 + c) * 16 + d)

/-- What may stand between the quotes. -/
inductive Piece
  | raw (c : Char) (printable : 0x20 ≤ c.toNat) (not_quote : c ≠ '"') (not_backslash : c ≠ '\\')
  | short (letter c : Char) (escape : shortEscape letter = some c)
  | unicode (a b c d : Char) (unit : Nat) (hex : unitOf a b c d = some unit)

def Piece.text : Piece → List Char
  | .raw c .. => [c]
  | .short letter .. => ['\\', letter]
  | .unicode a b c d .. => ['\\', 'u', a, b, c, d]

def Piece.units : Piece → List Nat
  | .raw c .. => utf16 c
  | .short _ c _ => [c.toNat]
  | .unicode _ _ _ _ unit _ => [unit]

abbrev Literal := List Piece

def Literal.body (l : Literal) : List Char := l.flatMap Piece.text

def Literal.text (l : Literal) : List Char := '"' :: (l.body ++ ['"'])

def Literal.units (l : Literal) : List Nat := l.flatMap Piece.units

/-- The characters of the literal. -/
def Literal.value (l : Literal) : List Char := decodeUtf16 l.units

/-! ## Decoding -/

theorem decodeUtf16_pair {unit low : Nat} (hhigh : isHigh unit = true) (hlow : isLow low = true)
    (units : List Nat) : decodeUtf16 (unit :: low :: units) =
      Char.ofNat (0x10000 + (unit - 0xd800) * 0x400 + (low - 0xdc00)) :: decodeUtf16 units := by
  rw [decodeUtf16, if_pos hhigh, if_pos hlow]

/-- A unit that is not the first of a pair is decoded alone. -/
theorem decodeUtf16_single {unit : Nat} {units : List Nat}
    (h : isHigh unit = true → ∀ low ∈ units.head?, isLow low = false) :
    decodeUtf16 (unit :: units) =
      (if isSurrogate unit then replacement else Char.ofNat unit) :: decodeUtf16 units := by
  have hsurrogate : isSurrogate unit = (isHigh unit || isLow unit) := by
    rw [Bool.eq_iff_iff]
    simp only [isSurrogate, isHigh, isLow, Bool.and_eq_true, Bool.or_eq_true, decide_eq_true_eq]
    omega
  rw [hsurrogate]
  cases units with
  | nil =>
    simp only [decodeUtf16]
    cases isHigh unit <;> cases isLow unit <;> rfl
  | cons low units =>
    rw [decodeUtf16]
    cases hhigh : isHigh unit with
    | true => rw [if_pos rfl, if_neg (by rw [h hhigh low rfl]; decide)]; rfl
    | false => cases isLow unit <;> rfl

theorem not_isSurrogate (c : Char) : isSurrogate c.toNat = false := by
  have hvalid : c.toNat.isValidChar := c.valid
  simp only [isSurrogate, Bool.and_eq_false_iff, decide_eq_false_iff_not]
  rcases hvalid with h | h
  · left
    omega
  · right
    omega

theorem isHigh_eq_false {unit : Nat} (h : isSurrogate unit = false) : isHigh unit = false := by
  simp only [isSurrogate, isHigh, Bool.and_eq_false_iff, decide_eq_false_iff_not] at h ⊢
  omega

theorem decodeUtf16_utf16 (c : Char) (units : List Nat) :
    decodeUtf16 (utf16 c ++ units) = c :: decodeUtf16 units := by
  have hsurrogate := not_isSurrogate c
  rw [utf16]
  split
  · rw [List.singleton_append, decodeUtf16_single, hsurrogate]
    · simp
    · rw [isHigh_eq_false hsurrogate]
      simp
  · next h =>
    have hvalid : c.toNat.isValidChar := c.valid
    have hlt : c.toNat < 0x110000 := by
      rcases hvalid with h | h <;> omega
    rw [List.cons_append, List.singleton_append, decodeUtf16_pair]
    · have hsum : 0x10000 + (0xd800 + (c.toNat - 0x10000) / 0x400 - 0xd800) * 0x400 +
          (0xdc00 + (c.toNat - 0x10000) % 0x400 - 0xdc00) = c.toNat := by omega
      rw [hsum, Char.ofNat_toNat]
    · simp only [isHigh, Bool.and_eq_true, decide_eq_true_eq]
      omega
    · simp only [isLow, Bool.and_eq_true, decide_eq_true_eq]
      omega

/-- The characters of two-character escapes are not surrogates, nor is the first unit of a
character ever a low one. -/
theorem isLow_head_utf16 (c : Char) : ∀ low ∈ (utf16 c).head?, isLow low = false := by
  intro low hlow
  have hsurrogate := not_isSurrogate c
  have hvalid : c.toNat.isValidChar := c.valid
  rw [utf16] at hlow
  simp only [isSurrogate, isLow, Bool.and_eq_false_iff, decide_eq_false_iff_not] at hsurrogate ⊢
  split at hlow
  · cases hlow
    omega
  · cases hlow
    rcases hvalid with h | h <;> omega

end JsonTokens
