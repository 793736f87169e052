import OhMyPi.Lib.Substitute
import OhMyPi.Secrets.Replacement

/-! The secret transform of a session: `obfuscate` replaces the secrets of its rules in a text that
is sent out, `deobfuscate` restores the placeholders of a text that comes back. -/

namespace OhMyPi.Secrets

open Delimited

/-! ## Rules -/

inductive SecretKind where
  | plain
  | regex
deriving DecidableEq, Repr

inductive SecretMode where
  | obfuscate
  | replace
deriving DecidableEq, Repr

def minObfuscateSecretLen : Nat := 8

/-- A declaration that `SecretRule::new` has accepted. -/
structure SecretRule where
  kind : SecretKind
  mode : SecretMode
  content : List Char
  replacement : Option (List Char) := none
  friendlyName : Option (List Char) := none
  regex : Option Regex := none
  boundary : Bool := false
  content_ne : content ≠ [] := by decide
  long : kind = .plain → mode = .obfuscate → minObfuscateSecretLen ≤ Text.byteLen content
  no_replacement : mode = .obfuscate → replacement = none := by simp
  compiled : regex.isSome = true ↔ kind = .regex := by simp

/-- A literal to be masked in the given mode. -/
def SecretRule.isPlain (mode : SecretMode) (rule : SecretRule) : Bool :=
  rule.kind = .plain && rule.mode = mode

/-- Sorting by a descending key with `sort_unstable_by_key`: equal keys come in any order. -/
structure Sorting where
  sort : {α : Type} → (α → Nat) → List α → List α
  perm : ∀ {α : Type} (key : α → Nat) (l : List α), (sort key l).Perm l
  sorted : ∀ {α : Type} (key : α → Nat) (l : List α),
    (sort key l).Pairwise fun a b => key b ≤ key a

/-- A sort that keeps the order of equal keys. -/
def Sorting.stable : Sorting where
  sort key l := l.insertionSort fun a b => key b ≤ key a
  perm key l := List.perm_insertionSort _ l
  sorted {α} key l := by
    have htotal : Std.Total (fun a b : α => key b ≤ key a) := ⟨fun a b => Nat.le_total _ _⟩
    have htrans : IsTrans α (fun a b => key b ≤ key a) := ⟨fun _ _ _ h h' => Nat.le_trans h' h⟩
    exact List.pairwise_insertionSort _ l

/-! ## The transform -/

structure SecretObfuscator where
  rules : List SecretRule
  key : Option (List Char)
  /-- What the key provider will return, until it is asked. -/
  keyProvider : Option (List Char)
  registry : PlaceholderRegistry := {}
  plainPlaceholders : List (List Char × List Char) := []
  knownSecretShapes : List (List Char)

namespace SecretObfuscator

/-- `key`: the placeholder key, asked for when it is first needed. -/
def resolveKey (o : SecretObfuscator) : SecretObfuscator × List Char :=
  match o.key with
  | some key => (o, key)
  | none =>
    let key := o.keyProvider.getD []
    ({ o with key := some key, keyProvider := none }, key)

/-- The loop of `register_plain_placeholders`. -/
def registerAll (mac : Mac) (key : List Char) :
    List SecretRule → SecretObfuscator → Option SecretObfuscator
  | [], o => some o
  | rule :: rules, o =>
    if SecretRule.isPlain .obfuscate rule then
      match o.registry.register mac key rule.content rule.friendlyName false with
      | none => none
      | some (registry, placeholder) =>
        registerAll mac key rules
          { o with
            registry := registry
            plainPlaceholders := KeyedList.assign rule.content placeholder o.plainPlaceholders }
    else registerAll mac key rules o

def registerPlainPlaceholders (mac : Mac) (o : SecretObfuscator) : Option SecretObfuscator :=
  let o := if o.key.isNone && o.rules.any (SecretRule.isPlain .obfuscate) then o.resolveKey.1 else o
  match o.key with
  | none => some o
  | some key => registerAll mac key o.rules o

/-- `build`. -/
def build (mac : Mac) (rules : List SecretRule) (key keyProvider : Option (List Char)) :
    Option SecretObfuscator :=
  registerPlainPlaceholders mac
    { rules := rules
      key := key
      keyProvider := keyProvider
      knownSecretShapes := (rules.filter fun rule => rule.kind = .plain).map fun rule =>
        sanitizeForCollisionCheck rule.content }

/-- `trusted_placeholder`, for what stands between the delimiters. -/
def trusted (o : SecretObfuscator) (body : List Char) : Bool :=
  (o.registry.lookupExact (wrap '$' body)).isSome

/-- `lookup_placeholder`: a registered token, or one under a label that resembles no secret. -/
def lookupPlaceholder (o : SecretObfuscator) (token : List Char) : Option PlaceholderEntry :=
  match o.registry.lookupExact token with
  | some entry => some entry
  | none =>
    match (stripDelimiters token).bind (Text.splitOnce '_') with
    | none => none
    | some (label, _) =>
      let shape := sanitizeForCollisionCheck label
      if o.knownSecretShapes.any fun known =>
          !known.isEmpty && (contains known shape || contains shape known) then none
      else (placeholderWithoutFriendlyName token).bind o.registry.lookupExact

/-- `deobfuscate`. Only a text whose restored secrets are scanned again takes more than one pass. -/
def deobfuscate (o : SecretObfuscator) (fuel : Nat) (text : List Char) : Option (List Char) :=
  deobfuscatePlaceholders o.lookupPlaceholder fuel text

/-- `outside_placeholder_ranges` with the tokens that the transform trusts. -/
def outside (o : SecretObfuscator) (text : List Char) : Segments Char :=
  segments '$' o.trusted text

/-- `replace_literal_outside`. -/
def replaceLiteralOutside (o : SecretObfuscator) (needle replacement text : List Char) :
    List Char :=
  if needle = [] ∨ needle = replacement then text
  else (o.outside text).render (Substitute.replaceAll needle replacement) (wrap '$')

/-! ### Plain secrets -/

/-- The turns of the rules in replace mode: a literal and what it is replaced by. -/
def replaceTurns (sorting : Sorting) (o : SecretObfuscator) : List (List Char × List Char) :=
  let replaces := o.rules.filter (SecretRule.isPlain .replace)
  (sorting.sort (fun rule => Text.byteLen rule.content) replaces).map fun rule =>
    (rule.content, rule.replacement.getD (generatedReplacement rule.content))

/-- The turn of the key. -/
def keyTurns (o : SecretObfuscator) : List (List Char × List Char) :=
  (o.key.toList.filter fun key => !key.isEmpty).map fun key => (key, generatedReplacement key)

/-- The turns of the rules in obfuscate mode. -/
def placeholderTurns (sorting : Sorting) (o : SecretObfuscator) : List (List Char × List Char) :=
  sorting.sort (fun p => Text.byteLen p.1) o.plainPlaceholders

/-- All literals that `obfuscate` replaces, in the order of their turns. -/
def plainTurns (sorting : Sorting) (o : SecretObfuscator) : List (List Char × List Char) :=
  o.replaceTurns sorting ++ o.keyTurns ++ o.placeholderTurns sorting

def obfuscatePlain (sorting : Sorting) (o : SecretObfuscator) (text : List Char) : List Char :=
  (o.plainTurns sorting).foldl (fun text turn => o.replaceLiteralOutside turn.1 turn.2 text) text

/-! ### Regular expressions -/

def inCredentialAlphabet (c : Char) : Bool := c.isAlphanum || c = '_' || c = '*' || c = '-'

/-- `on_credential_boundary`, for a match between `before` and `after`. -/
def onCredentialBoundary (before after : List Char) : Bool :=
  before.getLast?.all (fun c => !inCredentialAlphabet c) &&
    after.head?.all (fun c => !inCredentialAlphabet c)

/-- What a match is replaced by, `some none` when it is left alone. -/
def matchReplacement (mac : Mac) (o : SecretObfuscator) (rule : SecretRule) (regex : Regex)
    (before value after : List Char) : Option (SecretObfuscator × Option (List Char)) :=
  if rule.boundary && !onCredentialBoundary before after then some (o, none)
  else if Text.byteLen value < minObfuscateSecretLen && rule.mode = .obfuscate then some (o, none)
  else
    match rule.mode with
    | .replace =>
      match rule.replacement with
      | some replacement => some (o, some replacement)
      | none =>
        let (o, key) := o.resolveKey
        (regexReplacement mac value regex before after key).map fun replacement =>
          (o, some replacement)
    | .obfuscate =>
      let (o, key) := o.resolveKey
      let o := { o with knownSecretShapes := sanitizeForCollisionCheck value :: o.knownSecretShapes }
      (o.registry.register mac key value rule.friendlyName false).map fun registered =>
        ({ o with registry := registered.1 }, some registered.2)

/-- The matches of one gap, from `cursor` on. `left` and `right` stand around the gap. -/
def regexMatches (mac : Mac) (rule : SecretRule) (regex : Regex) (left gap right : List Char) :
    Nat → List (Nat × Nat) → SecretObfuscator → Option (SecretObfuscator × List Char)
  | cursor, [], o => some (o, gap.drop cursor)
  | cursor, (start, stop) :: rest, o =>
    let value := (gap.take stop).drop start
    match matchReplacement mac o rule regex (left ++ gap.take start) value (gap.drop stop ++ right) with
    | none => none
    | some (o, replacement) =>
      (regexMatches mac rule regex left gap right stop rest o).map fun done =>
        (done.1, (gap.take start).drop cursor ++ replacement.getD value ++ done.2)

/-- The gaps of a text, each with the text that stands before it. -/
def regexGaps (mac : Mac) (rule : SecretRule) (regex : Regex) (last : List Char) :
    List Char → List (List Char × List Char) → SecretObfuscator →
      Option (SecretObfuscator × List Char)
  | left, [], o => regexMatches mac rule regex left last [] 0 (regex.findIter last) o
  | left, (gap, body) :: found, o =>
    let right := wrap '$' body ++ (Segments.mk found last).render id (wrap '$')
    match regexMatches mac rule regex left gap right 0 (regex.findIter gap) o with
    | none => none
    | some (o, text) =>
      (regexGaps mac rule regex last (left ++ gap ++ wrap '$' body) found o).map fun done =>
        (done.1, text ++ wrap '$' body ++ done.2)

/-- The turn of one regular expression. -/
def regexTurn (mac : Mac) (rule : SecretRule) (regex : Regex) (o : SecretObfuscator)
    (text : List Char) : Option (SecretObfuscator × List Char) :=
  let outside := o.outside text
  regexGaps mac rule regex outside.last [] outside.found o

def obfuscateRegex (mac : Mac) : List SecretRule → SecretObfuscator → List Char →
    Option (SecretObfuscator × List Char)
  | [], o, text => some (o, text)
  | rule :: rules, o, text =>
    match rule.regex with
    | none => obfuscateRegex mac rules o text
    | some regex =>
      match regexTurn mac rule regex o text with
      | none => none
      | some (o, text) => obfuscateRegex mac rules o text

/-- `obfuscate`. Without a result the call panics or does not end. -/
def obfuscate (mac : Mac) (sorting : Sorting) (o : SecretObfuscator) (text : List Char) :
    Option (SecretObfuscator × List Char) :=
  if o.rules.isEmpty || text.isEmpty then some (o, text)
  else obfuscateRegex mac o.rules o (o.obfuscatePlain sorting text)

end SecretObfuscator

end OhMyPi.Secrets
