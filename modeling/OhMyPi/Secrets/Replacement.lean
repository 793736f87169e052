import OhMyPi.Lib.LossyStream
import OhMyPi.Secrets.Placeholder

/-! Irreversible replacements: a run of letters and digits as long as the secret, derived from a
hash of it, and for a regular expression a run that the expression does not match again. -/

namespace OhMyPi.Secrets

/-! ## The deterministic replacement -/

def replacementChars : List Char :=
  "ABCDEFGHIJKLMNOPQRSTUVWXYZabcdefghijklmnopqrstuvwxyz0123456789".toList

def nonmatchingReplacementChars : List Char :=
  replacementChars ++ "!#$%&()*+,-./:;<=>?@[]^_\x7b|\x7d~".toList

/-- `mix`: the two halves of a product of 64-bit values, combined. -/
def mix (left right : Nat) : Nat :=
  let product := left * right
  (product % 2 ^ 64) ^^^ (product / 2 ^ 64)

/-- `n` bytes in little-endian order. -/
def readLe (n : Nat) (input : List UInt8) (offset : Nat) : Nat :=
  ((input.drop offset).take n).foldr (fun b value => b.toNat + 256 * value) 0

def wyhashSecret : Nat × Nat × Nat × Nat :=
  (0xa0761d6478bd642f, 0xe7037ed1a0b428db, 0x8ebc6af09c88c6e3, 0x589965cc75374cc3)

/-- The blocks of 48 bytes. -/
def wyhashLong (input : List UInt8) : Nat → Nat → Nat × Nat × Nat → Nat × (Nat × Nat × Nat)
  | 0, offset, state => (offset, state)
  | fuel + 1, offset, (s₀, s₁, s₂) =>
    if offset + 48 < input.length then
      wyhashLong input fuel (offset + 48)
        (mix (readLe 8 input offset ^^^ wyhashSecret.2.1) (readLe 8 input (offset + 8) ^^^ s₀),
         mix (readLe 8 input (offset + 16) ^^^ wyhashSecret.2.2.1)
           (readLe 8 input (offset + 24) ^^^ s₁),
         mix (readLe 8 input (offset + 32) ^^^ wyhashSecret.2.2.2)
           (readLe 8 input (offset + 40) ^^^ s₂))
    else (offset, (s₀, s₁, s₂))

/-- The blocks of 16 bytes. -/
def wyhashShort (input : List UInt8) : Nat → Nat → Nat → Nat
  | 0, _, s₀ => s₀
  | fuel + 1, cursor, s₀ =>
    if cursor + 16 < input.length then
      wyhashShort input fuel (cursor + 16)
        (mix (readLe 8 input cursor ^^^ wyhashSecret.2.1) (readLe 8 input (cursor + 8) ^^^ s₀))
    else s₀

/-- The last words of the input and the state that the blocks before them leave. -/
def wyhashWords (input : List UInt8) (initial : Nat) : Nat × Nat × Nat :=
  let length := input.length
  if length ≤ 16 then
    if 4 ≤ length then
      let quarter := length / 8 * 4
      (readLe 4 input 0 * 2 ^ 32 ||| readLe 4 input quarter,
       readLe 4 input (length - 4) * 2 ^ 32 ||| readLe 4 input (length - 4 - quarter), initial)
    else if 0 < length then
      ((input.getD 0 0).toNat * 2 ^ 16 ||| (input.getD (length / 2) 0).toNat * 2 ^ 8 |||
        (input.getD (length - 1) 0).toNat, 0, initial)
    else (0, 0, initial)
  else
    let (offset, s₀, s₁, s₂) := wyhashLong input length 0 (initial, initial, initial)
    let s₀ := if 48 ≤ length then s₀ ^^^ (s₁ ^^^ s₂) else s₀
    (readLe 8 input (length - 16), readLe 8 input (length - 8), wyhashShort input length offset s₀)

/-- `bun_wyhash`. -/
def bunWyhash (input : List UInt8) : Nat :=
  let (a, b, s₀) := wyhashWords input (mix wyhashSecret.1 wyhashSecret.2.1)
  let product := (a ^^^ wyhashSecret.2.1) * (b ^^^ s₀)
  mix (product % 2 ^ 64 ^^^ wyhashSecret.1 ^^^ input.length)
    (product / 2 ^ 64 ^^^ wyhashSecret.2.1)

example : bunWyhash [] = 290873116282709081 := by decide
example : bunWyhash (textBytes ['a', 'b', 'c']) = 190542993387777138 := by decide
example : bunWyhash (List.replicate 49 97) = 9848643853843152978 := by decide +kernel

/-- `encode_utf16().count()`. -/
def utf16Len (text : List Char) : Nat :=
  (text.map fun c => if c.toNat < 0x10000 then 1 else 2).sum

/-- The characters of the replacement from `index` on. -/
def deterministicRun : Nat → Nat → Nat → List Char
  | 0, _, _ => []
  | count + 1, index, mixed =>
    let mixed := mixed ^^^ ((index + 1) * 0x9e3779b97f4a7c15)
    replacementChars.getD (mixed % 62) 'A' :: deterministicRun count (index + 1) mixed

def generateDeterministicReplacement (secret : List Char) : List Char :=
  match utf16Len secret with
  | 0 => []
  | 1 => ['Z']
  | length + 2 => 'Z' :: 'Z' :: deterministicRun length 2 (bunWyhash (textBytes secret))

example : generateDeterministicReplacement ['s', 'e', 'c', 'r', 'e', 't'] =
    ['Z', 'Z', 'r', 'F', '2', '6'] := by decide +kernel

/-- `ensure_distinct_replacement`. -/
def ensureDistinctReplacement (replacement secret : List Char) : List Char :=
  match replacement with
  | [] => []
  | c :: rest => if c :: rest = secret then (if c = 'A' then 'B' else 'A') :: rest else c :: rest

/-- The replacement of a literal that names none of its own. -/
def generatedReplacement (secret : List Char) : List Char :=
  ensureDistinctReplacement (generateDeterministicReplacement secret) secret

/-! ## Replacements for a regular expression -/

/-- Matches one behind the other inside a text of the given length. -/
def Ordered (length : Nat) : Nat → List (Nat × Nat) → Prop
  | _, [] => True
  | cursor, (start, stop) :: rest =>
    cursor ≤ start ∧ start ≤ stop ∧ stop ≤ length ∧ Ordered length stop rest

/-- A compiled expression, given by what `find_iter` returns: spans counted in characters. -/
structure Regex where
  findIter : List Char → List (Nat × Nat)
  ordered : ∀ text, Ordered text.length 0 (findIter text)

def regexRematchBackscan : Nat := 512

/-- The text behind its first `n` bytes. Inside a character there is no such text: slicing there
panics. -/
def dropBytes : Nat → List Char → Option (List Char)
  | 0, text => some text
  | _ + 1, [] => none
  | n + 1, c :: text => if c.utf8Size ≤ n + 1 then dropBytes (n + 1 - c.utf8Size) text else none

/-- `regex_rematches_in_context`, for a match between `before` and `after`. -/
def regexRematchesInContext (candidate : List Char) (regex : Regex) (before after : List Char) :
    Option Bool :=
  (dropBytes (Text.byteLen before - regexRematchBackscan) before).map fun scanned =>
    let spanEnd := scanned.length + candidate.length
    ((regex.findIter (scanned ++ candidate ++ after)).takeWhile fun m => m.1 < spanEnd).any
      fun m => scanned.length < m.2

/-- The candidates of `find_non_matching_replacement`, in the order in which they are tried. -/
def nonMatchingCandidates (length : Nat) : List (List Char) :=
  let plain := List.replicate length 'A'
  ((List.range length).flatMap fun position =>
    nonmatchingReplacementChars.map fun c => plain.set position c) ++
  (nonmatchingReplacementChars.map fun c => List.replicate length c) ++
  ([' ', '\t'].flatMap fun whitespace => List.replicate length whitespace ::
    (List.range length).map fun position => plain.set position whitespace)

/-- The first candidate that differs from the value and is not matched again. -/
def firstNonMatching (value : List Char) (regex : Regex) (before after : List Char) :
    List (List Char) → Option (Option (List Char))
  | [] => some none
  | candidate :: rest =>
    if candidate = value then firstNonMatching value regex before after rest
    else
      match regexRematchesInContext candidate regex before after with
      | none => none
      | some true => firstNonMatching value regex before after rest
      | some false => some (some candidate)

def findNonMatchingReplacement (value : List Char) (regex : Regex) (before after : List Char) :
    Option (Option (List Char)) :=
  firstNonMatching value regex before after (nonMatchingCandidates (utf16Len value))

/-- `build_keyed_replacement_run`. -/
def buildKeyedReplacementRun (mac : Mac) (key : List Char) (length : Nat) : List Char :=
  ((List.range (length / 32 + 1)).flatMap fun block =>
    (List.ofFn (mac (textBytes key) (textBytes ("replace-chunk".toList ++ '\x00' ::
      (Nat.toDigits 10 length ++ '\x00' :: Nat.toDigits 10 block))))).map fun b =>
        replacementChars.getD (b.toNat % 62) 'A').take length

/-- The replacement when no candidate is left. -/
def keyedFallback (mac : Mac) (key value : List Char) : List Char :=
  let length := utf16Len value
  if length ≤ 2 then buildKeyedReplacementRun mac key length
  else 'Z' :: 'Z' :: buildKeyedReplacementRun mac key (length - 2)

/-- `regex_replacement`. Without a result the call panics. -/
def regexReplacement (mac : Mac) (value : List Char) (regex : Regex) (before after key : List Char) :
    Option (List Char) :=
  let search := (findNonMatchingReplacement value regex before after).map fun found =>
    found.getD (keyedFallback mac key value)
  let deterministic := generateDeterministicReplacement value
  if deterministic = value then search
  else
    match regexRematchesInContext deterministic regex before after with
    | none => none
    | some true => search
    | some false => some deterministic

end OhMyPi.Secrets
