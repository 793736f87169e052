import OhMyPi.Lib.Delimited
import OhMyPi.Lib.KeyedList
import OhMyPi.Lib.LossyStream

/-! Placeholders for secrets: `$$[LABEL_]BASE[:HINT]$$`, where the base is made from a keyed hash of
the secret. Texts are lists of characters. -/

namespace OhMyPi.Secrets

open Delimited

/-! ## The parts of a placeholder -/

/-- HMAC-SHA256: key, message and the 32 bytes of the digest. -/
abbrev Mac := List UInt8 → List UInt8 → Fin 32 → UInt8

/-- The bytes of a text. -/
def textBytes (text : List Char) : List UInt8 := text.flatMap String.utf8EncodeChar

def hashChars : List Char := "ABCDEFGHIJKLMNOPQRSTUVWXYZ0123456789".toList

def hashLen : Nat := 12

def maxFriendlyNameLen : Nat := 32

/-- The case of the letters of a secret. -/
inductive CaseHint where
  | upper
  | lower
  | capitalized
  | mixed
deriving DecidableEq, Repr

def CaseHint.suffix : CaseHint → Char
  | .upper => 'U'
  | .lower => 'L'
  | .capitalized => 'C'
  | .mixed => 'M'

/-- What `inferCaseHint` has seen of a secret. -/
structure CaseScan where
  hasUpper : Bool := false
  hasLower : Bool := false
  capitalized : Bool := true
  seenFirst : Bool := false

def CaseScan.step (s : CaseScan) (c : Char) : CaseScan :=
  if c.isUpper then
    { s with hasUpper := true, capitalized := s.capitalized && !s.seenFirst, seenFirst := true }
  else if c.isLower then
    { s with hasLower := true, capitalized := s.capitalized && s.seenFirst, seenFirst := true }
  else s

def inferCaseHint (secret : List Char) : Option CaseHint :=
  let s := secret.foldl CaseScan.step {}
  match s.hasUpper, s.hasLower, s.capitalized with
  | false, false, _ => none
  | true, false, _ => some .upper
  | false, true, _ => some .lower
  | true, true, true => some .capitalized
  | true, true, false => some .mixed

/-- `sanitize_for_collision_check`: the letters and digits of a text in upper case. -/
def sanitizeForCollisionCheck (value : List Char) : List Char :=
  (value.filter Char.isAlphanum).map Char.toUpper

def sanitizeFriendlyName (name : List Char) : Option (List Char) :=
  let sanitized := (sanitizeForCollisionCheck name).take maxFriendlyNameLen
  if sanitized.isEmpty then none else some sanitized

/-- `str::contains`. -/
def contains (needle : List Char) : List Char → Bool
  | [] => needle.isEmpty
  | c :: text => needle.isPrefixOf (c :: text) || contains needle text

def sanitizedLabelCollidesWithSecret (label secret : List Char) : Bool :=
  !secret.isEmpty && (contains secret label ||
    (decide (maxFriendlyNameLen ≤ label.length) && label.isPrefixOf secret))

/-- `n` digits to the base 36, the least significant one first. -/
def base36 : Nat → Nat → List Char
  | 0, _ => []
  | n + 1, value => hashChars.getD (value % 36) 'A' :: base36 n (value / 36)

def buildHashBase (mac : Mac) (key value : List Char) : List Char :=
  let digest := List.ofFn (mac (textBytes key) (textBytes value))
  base36 hashLen ((digest.take 8).foldl (fun n b => n * 256 + b.toNat) 0)

/-- The part of a placeholder between the delimiters. -/
def placeholderBody (hint : Option CaseHint) (base : List Char) (label : Option (List Char)) :
    List Char :=
  (match label with
    | some label => label ++ ['_']
    | none => []) ++ base ++
  match hint with
  | some hint => [':', hint.suffix]
  | none => []

def buildPlaceholder (hint : Option CaseHint) (base : List Char) (label : Option (List Char)) :
    List Char :=
  wrap '$' (placeholderBody hint base label)

/-! ## The grammar -/

/-- The characters of labels and bases. -/
def isTagChar (c : Char) : Bool := c.isUpper || c.isDigit

def isHint (hint : List Char) : Bool :=
  hint = ['U'] || hint = ['L'] || hint = ['C'] || hint = ['M']

def validBaseAndHint (value : List Char) : Bool :=
  match Text.splitOnce ':' value with
  | none => decide (4 ≤ value.length) && value.all isTagChar
  | some (base, hint) => decide (4 ≤ base.length) && base.all isTagChar && isHint hint

/-- `strip_prefix("$$")` and then `strip_suffix("$$")`. -/
def stripDelimiters : List Char → Option (List Char)
  | '$' :: '$' :: rest =>
    if ['$', '$'].isSuffixOf rest then some (rest.take (rest.length - 2)) else none
  | _ => none

/-- `valid_placeholder`, for what stands between the delimiters. -/
def validBody (body : List Char) : Bool :=
  validBaseAndHint <|
    match Text.splitOnce '_' body with
    | none => body
    | some (label, value) => if label.isEmpty || !label.all isTagChar then [] else value

def validPlaceholder (placeholder : List Char) : Bool :=
  match stripDelimiters placeholder with
  | none => false
  | some body => validBody body

def placeholderWithoutFriendlyName (placeholder : List Char) : Option (List Char) :=
  match stripDelimiters placeholder with
  | none => none
  | some body =>
    match Text.splitOnce '_' body with
    | none => none
    | some (label, rest) =>
      if label.isEmpty || !label.all isTagChar || !validBaseAndHint rest then none
      else some (wrap '$' rest)

@[simp] theorem stripDelimiters_wrap (body : List Char) :
    stripDelimiters (wrap '$' body) = some body := by
  have hsuffix : ['$', '$'].isSuffixOf (body ++ ['$', '$']) = true :=
    List.isSuffixOf_iff_suffix.2 (List.suffix_append _ _)
  rw [wrap, stripDelimiters, if_pos hsuffix]
  simp

@[simp] theorem validPlaceholder_wrap (body : List Char) :
    validPlaceholder (wrap '$' body) = validBody body := by
  rw [validPlaceholder, stripDelimiters_wrap]

/-! ## Restoring -/

/-- One reversible placeholder registration. -/
structure PlaceholderEntry where
  secret : List Char
  recursive : Bool
deriving DecidableEq, Repr

/-- What `PlaceholderScanner` finds in a text. -/
def placeholders (text : List Char) : Segments Char :=
  segments '$' (fun body => validPlaceholder (wrap '$' body)) text

/-- The text that a placeholder is restored to. -/
def restored (lookup : List Char → Option PlaceholderEntry) (body : List Char) : List Char :=
  match lookup (wrap '$' body) with
  | some entry => entry.secret
  | none => wrap '$' body

/-- One pass over the placeholders of a text. -/
def restorePass (lookup : List Char → Option PlaceholderEntry) (text : List Char) : List Char :=
  (placeholders text).render id (restored lookup)

/-- Whether a pass restores an entry that is to be scanned again. -/
def restoresRecursive (lookup : List Char → Option PlaceholderEntry) (text : List Char) : Bool :=
  (placeholders text).found.any fun p =>
    match lookup (wrap '$' p.2) with
    | some entry => entry.recursive
    | none => false

/-- The loop of `deobfuscate_placeholders`, for a bounded number of passes. -/
def deobfuscateLoop (lookup : List Char → Option PlaceholderEntry) :
    Nat → List Char → Option (List Char)
  | 0, _ => none
  | fuel + 1, current =>
    let output := restorePass lookup current
    if output = current || !restoresRecursive lookup current || (cut '$' output).isNone then
      some output
    else deobfuscateLoop lookup fuel output

def deobfuscatePlaceholders (lookup : List Char → Option PlaceholderEntry) (fuel : Nat)
    (text : List Char) : Option (List Char) :=
  if (cut '$' text).isNone then some text else deobfuscateLoop lookup fuel text

/-! ## The registry -/

structure PlaceholderRegistry where
  entries : List (List Char × PlaceholderEntry) := []
  bases : List (List Char × List Char) := []
  secretShapes : List (List Char) := []
deriving DecidableEq, Repr

namespace PlaceholderRegistry

/-- `lookup_exact`. -/
def lookupExact (r : PlaceholderRegistry) (placeholder : List Char) : Option PlaceholderEntry :=
  KeyedList.first placeholder r.entries

/-- The base tried at an attempt. -/
def attemptBase (mac : Mac) (key secret : List Char) (attempt : Nat) : List Char :=
  if attempt = 0 then buildHashBase mac key secret
  else buildHashBase mac key (secret ++ '\x00' :: Nat.toDigits 10 attempt)

/-- No other secret has the base or the placeholder. -/
def available (r : PlaceholderRegistry) (secret base candidate : List Char) : Bool :=
  (KeyedList.first base r.bases).all (fun owner => owner = secret) &&
    (r.lookupExact candidate).all (fun entry => entry.secret = secret)

/-- The loop of `register`. The counter stops at the largest `u32` and the attempt is then the same
for ever, so a search that has used them all does not end. -/
def search (r : PlaceholderRegistry) (mac : Mac) (key secret : List Char) (hint : Option CaseHint)
    (label : Option (List Char)) : Nat → Nat → Option (List Char × List Char)
  | 0, _ => none
  | fuel + 1, attempt =>
    let base := attemptBase mac key secret attempt
    let candidate := buildPlaceholder hint base label
    if r.available secret base candidate then some (candidate, base)
    else r.search mac key secret hint label fuel (attempt + 1)

/-- The label of a placeholder, when it gives no secret away. -/
def chosenLabel (r : PlaceholderRegistry) (secret : List Char) (friendlyName : Option (List Char)) :
    Option (List Char) :=
  match friendlyName with
  | none => none
  | some name =>
    let shape := sanitizeForCollisionCheck name
    if sanitizedLabelCollidesWithSecret shape (sanitizeForCollisionCheck secret) ||
        r.secretShapes.any (sanitizedLabelCollidesWithSecret shape) then none
    else sanitizeFriendlyName name

/-- `entry(key).or_insert(value)`. -/
def orInsert (placeholder : List Char) (entry : PlaceholderEntry)
    (entries : List (List Char × PlaceholderEntry)) : List (List Char × PlaceholderEntry) :=
  match KeyedList.first placeholder entries with
  | some _ => entries
  | none => KeyedList.assign placeholder entry entries

/-- What `register` writes once it has a placeholder and its base. -/
def enter (r : PlaceholderRegistry) (secret : List Char) (recursive : Bool)
    (placeholder base : List Char) : PlaceholderRegistry where
  entries :=
    let entries := KeyedList.assign placeholder ⟨secret, recursive⟩ r.entries
    match placeholderWithoutFriendlyName placeholder with
    | some bare => orInsert bare ⟨secret, recursive⟩ entries
    | none => entries
  bases := KeyedList.assign base secret r.bases
  secretShapes := sanitizeForCollisionCheck secret :: r.secretShapes

/-- Registers a secret and returns its placeholder. -/
def register (r : PlaceholderRegistry) (mac : Mac) (key secret : List Char)
    (friendlyName : Option (List Char)) (recursive : Bool) :
    Option (PlaceholderRegistry × List Char) :=
  (r.search mac key secret (inferCaseHint secret) (r.chosenLabel secret friendlyName)
    (2 ^ 32) 0).map fun found => (r.enter secret recursive found.1 found.2, found.1)

end PlaceholderRegistry

end OhMyPi.Secrets
