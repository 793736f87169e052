import OhMyPi.Lib.Slice
import OhMyPi.Secrets.Survival

/-! Whether a set of rules can need the placeholder key. The analysis plays the turns of the literals
in replace mode on each secret, and on each replacement that could form one. -/

namespace OhMyPi.Secrets

open Substitute SecretObfuscator

/-! ## The analysis -/

/-- `rule_needs_placeholder_key`. -/
def SecretRule.needsPlaceholderKey (rule : SecretRule) : Bool :=
  match rule.mode with
  | .obfuscate => true
  | .replace => rule.kind = .regex && rule.replacement.isNone

/-- The literals in replace mode, each with the replacement that the last rule gives it, the long
ones first. -/
def replacePhase (rules : List SecretRule) : List (List Char × List Char) :=
  Sorting.stable.sort (fun turn => Text.byteLen turn.1)
    ((rules.filter (SecretRule.isPlain .replace)).foldl
      (fun phase rule => KeyedList.assign rule.content (insertedBy rule) phase) [])

/-- `apply_from`, for the turns that are left. -/
def applyFrom (phase : List (List Char × List Char)) (text : List Char) : List Char :=
  phase.foldl (fun value turn => replaceAll turn.1 turn.2 value) text

/-- Whether the last `count` bytes of the replacement begin the secret, or its first `count` bytes
end it. A cut inside a character panics. -/
def overlapsAt (replacement content : List Char) (count : Nat) : Option Bool :=
  match Text.splitAtByte replacement (Text.byteLen replacement - count) with
  | none => none
  | some (_, tail) =>
    if tail.isPrefixOf content then some true
    else
      match Text.splitAtByte replacement count with
      | none => none
      | some (front, _) => some (front.isSuffixOf content)

def replacementCanFormContent (replacement content : List Char) : Option Bool :=
  if replacement = [] then some (!content.isEmpty)
  else if contains replacement content || contains content replacement then some true
  else (List.range' 1 (min (Text.byteLen replacement) (Text.byteLen content))).anyM
    (overlapsAt replacement content)

/-- Whether a replacement of the phase can form a secret that the turns behind it leave alone. -/
def formedBy (content : List Char) : List (List Char × List Char) → Option Bool
  | [] => some false
  | (_, replacement) :: later =>
    if applyFrom later content = content then
      match replacementCanFormContent (applyFrom later replacement) content with
      | some false => formedBy content later
      | answer => answer
    else formedBy content later

/-- The answer for one rule. -/
def ruleNeeds (phase : List (List Char × List Char)) (rule : SecretRule) : Option Bool :=
  if !rule.needsPlaceholderKey then some false
  else if rule.kind = .regex then some true
  else if contains rule.content (applyFrom phase rule.content) then some true
  else formedBy rule.content phase

/-- `rules_need_placeholder_key`. Without a result the call panics. -/
def rulesNeedPlaceholderKey (rules : List SecretRule) : Option Bool :=
  rules.anyM (ruleNeeds (replacePhase rules))

/-! ## Asking one after the other -/

section

variable {α : Type} {f : α → Option Bool} {l : List α}

theorem anyM_cons (f : α → Option Bool) (a : α) (l : List α) :
    (a :: l).anyM f =
      match f a with
      | some false => l.anyM f
      | answer => answer := by
  rw [List.anyM]
  cases f a with
  | none => rfl
  | some b => cases b <;> rfl

theorem anyM_eq_some_false : l.anyM f = some false ↔ ∀ a ∈ l, f a = some false := by
  induction l with
  | nil => simp [List.anyM]
  | cons a l ih =>
    rw [anyM_cons]
    cases ha : f a with
    | none => simp [ha]
    | some b => cases b <;> simp [ha, ih]

/-- The first question without an answer comes behind questions that were answered no. -/
theorem anyM_eq_none : l.anyM f = none ↔
    ∃ pre a post, l = pre ++ a :: post ∧ (∀ x ∈ pre, f x = some false) ∧ f a = none := by
  induction l with
  | nil => simp [List.anyM]
  | cons a l ih =>
    rw [anyM_cons]
    constructor
    · intro h
      cases ha : f a with
      | none => exact ⟨[], a, l, rfl, by simp, ha⟩
      | some b =>
        cases b with
        | true =>
          rw [ha] at h
          cases h
        | false =>
          rw [ha] at h
          obtain ⟨pre, x, post, rfl, hpre, hx⟩ := ih.1 h
          exact ⟨a :: pre, x, post, rfl, by simpa [ha] using hpre, hx⟩
    · rintro ⟨pre, x, post, heq, hpre, hx⟩
      cases pre with
      | nil =>
        cases heq
        rw [hx]
      | cons y pre =>
        cases heq
        rw [hpre a List.mem_cons_self]
        exact ih.2 ⟨pre, x, post, rfl, fun z hz => hpre z (List.mem_cons_of_mem _ hz), hx⟩

end

/-! ## What a comparison finds -/

theorem contains_iff {needle text : List Char} : contains needle text = true ↔ needle <:+: text := by
  induction text with
  | nil => rw [contains, List.isEmpty_iff, List.infix_nil]
  | cons c text ih =>
    rw [contains, Bool.or_eq_true, List.isPrefixOf_iff_prefix, ih, List.infix_cons_iff]

theorem byteLen_pos {t : List Char} (h : t ≠ []) : 0 < Text.byteLen t :=
  Nat.pos_of_ne_zero fun hzero => h (Text.byteLen_eq_zero hzero)

/-- A comparison does not overlook a replacement that forms the secret. -/
theorem replacementCanFormContent_of_forms {replacement content : List Char} (hne : content ≠ [])
    (h : Forms replacement content) : replacementCanFormContent replacement content ≠ some false := by
  rw [replacementCanFormContent]
  split
  · simpa using hne
  split
  · exact fun heq => by cases heq
  · next hno =>
    rw [Bool.or_eq_true, contains_iff, contains_iff, not_or] at hno
    rw [Ne, anyM_eq_some_false]
    intro hall
    have hrange : ∀ {t : List Char}, t ≠ [] → Text.byteLen t ≤ Text.byteLen replacement →
        Text.byteLen t ≤ Text.byteLen content →
        overlapsAt replacement content (Text.byteLen t) = some false := by
      intro t ht hle hle'
      have hpos := byteLen_pos ht
      exact hall _ (List.mem_range'_1.2 ⟨hpos, by omega⟩)
    rcases forms_cases h with hin | hin | ⟨front, t, back, ht, rfl, rfl⟩ | ⟨front, t, back, ht, rfl, rfl⟩
    · exact hno.2 hin
    · exact hno.1 hin
    · -- The end of the replacement begins the secret.
      have hcut : Text.byteLen (front ++ t) - Text.byteLen t = Text.byteLen front := by
        rw [Text.byteLen_append]
        omega
      have hnone := hrange ht (by rw [Text.byteLen_append]; omega)
        (by rw [Text.byteLen_append]; omega)
      rw [overlapsAt, hcut, Text.splitAtByte_append] at hnone
      simp only [List.isPrefixOf_iff_prefix.2 (List.prefix_append t back), if_true] at hnone
      cases hnone
    · -- The beginning of the replacement ends the secret.
      have hnone := hrange ht (by rw [Text.byteLen_append]; omega)
        (by rw [Text.byteLen_append]; omega)
      rw [overlapsAt, Text.splitAtByte_append] at hnone
      have hsuffix : t.isSuffixOf (front ++ t) = true :=
        List.isSuffixOf_iff_suffix.2 (List.suffix_append front t)
      simp only [hsuffix] at hnone
      split at hnone
      · cases hnone
      · split at hnone <;> cases hnone

/-! ## When a comparison panics -/

/-- Comparing `count` bytes cuts the replacement inside a character: at its end or, when its end
does not begin the secret, at its beginning. -/
def CutsInside (replacement content : List Char) (count : Nat) : Prop :=
  Text.isBoundary replacement (Text.byteLen replacement - count) = false ∨
    Text.isBoundary replacement count = false ∧
    ∀ front tail, replacement = front ++ tail →
      Text.byteLen front = Text.byteLen replacement - count → ¬tail <+: content

theorem overlapsAt_eq_none {replacement content : List Char} {count : Nat} :
    overlapsAt replacement content count = none ↔ CutsInside replacement content count := by
  rw [overlapsAt, CutsInside, Text.isBoundary, Text.isBoundary]
  cases hend : Text.splitAtByte replacement (Text.byteLen replacement - count) with
  | none => simp
  | some parts =>
    obtain ⟨front, tail⟩ := parts
    obtain ⟨heq, hlen⟩ := Text.eq_of_splitAtByte hend
    simp only at heq hlen
    have htail : (∀ front' tail', replacement = front' ++ tail' →
        Text.byteLen front' = Text.byteLen replacement - count → ¬tail' <+: content) ↔
        ¬tail <+: content := by
      constructor
      · intro h
        exact h front tail heq hlen
      · intro h front' tail' heq' hlen'
        obtain ⟨-, rfl⟩ := Text.eq_of_byteLen_eq (heq.symm.trans heq') (hlen.trans hlen'.symm)
        exact h
    rw [htail]
    by_cases hpre : tail <+: content
    · simp [List.isPrefixOf_iff_prefix.2 hpre, hpre]
    · have hno : tail.isPrefixOf content = false :=
        Bool.eq_false_iff.2 fun h => hpre (List.isPrefixOf_iff_prefix.1 h)
      cases hfront : Text.splitAtByte replacement count with
      | none => simp [hno, hpre]
      | some parts' => simp [hno]

/-- Comparing a replacement with a secret byte by byte cuts it inside a character before an overlap
is found. -/
def Tears (replacement content : List Char) : Prop :=
  replacement ≠ [] ∧ ¬replacement <:+: content ∧ ¬content <:+: replacement ∧
    ∃ count, 1 ≤ count ∧ count ≤ Text.byteLen replacement ∧ count ≤ Text.byteLen content ∧
      CutsInside replacement content count ∧
      ∀ k, 1 ≤ k → k < count → overlapsAt replacement content k = some false

theorem replacementCanFormContent_eq_none {replacement content : List Char} :
    replacementCanFormContent replacement content = none ↔ Tears replacement content := by
  rw [replacementCanFormContent, Tears]
  by_cases hnil : replacement = []
  · simp [hnil]
  rw [if_neg hnil]
  by_cases hin : (contains replacement content || contains content replacement) = true
  · rw [if_pos hin]
    rw [Bool.or_eq_true, contains_iff, contains_iff] at hin
    constructor
    · intro h
      cases h
    · rintro ⟨-, hno, hno', -⟩
      exact (hin.elim hno hno').elim
  · rw [if_neg hin, anyM_eq_none]
    rw [Bool.or_eq_true, contains_iff, contains_iff, not_or] at hin
    constructor
    · rintro ⟨pre, count, post, hsplit, hpre, hcount⟩
      obtain ⟨k, hk, rfl, hrest⟩ := List.range'_eq_append_iff.1 hsplit
      obtain ⟨hstart, hpos, -⟩ := List.range'_eq_cons_iff.1 hrest.symm
      refine ⟨hnil, hin.1, hin.2, count, by omega, by omega, by omega,
        overlapsAt_eq_none.1 hcount, fun j hj hlt => ?_⟩
      exact hpre j (List.mem_range'_1.2 ⟨hj, by omega⟩)
    · rintro ⟨-, -, -, count, hpos, hle, hle', hcut, hbefore⟩
      obtain ⟨k, rfl⟩ : ∃ k, count = 1 + k := ⟨count - 1, by omega⟩
      refine ⟨List.range' 1 k, 1 + k, List.range' (1 + k + 1)
        (min (Text.byteLen replacement) (Text.byteLen content) - k - 1), ?_, fun j hj => ?_,
        overlapsAt_eq_none.2 hcut⟩
      · rw [List.range'_eq_append_iff]
        refine ⟨k, by omega, rfl, ?_⟩
        rw [eq_comm, List.range'_eq_cons_iff]
        exact ⟨by omega, by omega, rfl⟩
      · obtain ⟨hj, hlt⟩ := List.mem_range'_1.1 hj
        exact hbefore j hj (by omega)

/-- The comparisons of a secret with the replacements of the phase come to one that tears. -/
def TornBy (content : List Char) : List (List Char × List Char) → Prop
  | [] => False
  | (_, replacement) :: later =>
    applyFrom later content = content ∧ Tears (applyFrom later replacement) content ∨
    (applyFrom later content = content →
      replacementCanFormContent (applyFrom later replacement) content = some false) ∧
      TornBy content later

theorem formedBy_eq_none {content : List Char} {phase : List (List Char × List Char)} :
    formedBy content phase = none ↔ TornBy content phase := by
  induction phase with
  | nil => simp [formedBy, TornBy]
  | cons turn later ih =>
    obtain ⟨needle, replacement⟩ := turn
    rw [formedBy, TornBy, ← replacementCanFormContent_eq_none, ← ih]
    by_cases hkept : applyFrom later content = content
    · rw [if_pos hkept]
      cases replacementCanFormContent (applyFrom later replacement) content with
      | none => simp [hkept]
      | some answer => cases answer <;> simp [hkept]
    · simp [hkept]

/-- The analysis comes to a comparison that tears, behind rules that need no key. -/
def Torn (rules : List SecretRule) : Prop :=
  ∃ pre rule post, rules = pre ++ rule :: post ∧
    (∀ r ∈ pre, ruleNeeds (replacePhase rules) r = some false) ∧
    rule.isPlain .obfuscate = true ∧
    ¬rule.content <:+: applyFrom (replacePhase rules) rule.content ∧
    TornBy rule.content (replacePhase rules)

theorem ruleNeeds_eq_none {phase : List (List Char × List Char)} {rule : SecretRule} :
    ruleNeeds phase rule = none ↔ rule.isPlain .obfuscate = true ∧
      ¬rule.content <:+: applyFrom phase rule.content ∧ TornBy rule.content phase := by
  rw [ruleNeeds, ← contains_iff, ← formedBy_eq_none, SecretRule.needsPlaceholderKey,
    SecretRule.isPlain]
  cases hmode : rule.mode with
  | replace => cases rule.kind <;> cases rule.replacement <;> simp
  | obfuscate =>
    cases hkind : rule.kind with
    | regex => simp
    | plain =>
      cases contains rule.content (applyFrom phase rule.content) with
      | true => simp
      | false => simp

/-- The analysis returns unless it comes to a comparison that tears. -/
theorem isSome_rulesNeedPlaceholderKey {rules : List SecretRule} :
    (rulesNeedPlaceholderKey rules).isSome = true ↔ ¬Torn rules := by
  rw [Option.isSome_iff_ne_none, Ne, rulesNeedPlaceholderKey, anyM_eq_none, Torn]
  simp only [ruleNeeds_eq_none]

end OhMyPi.Secrets
