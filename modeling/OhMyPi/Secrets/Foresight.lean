import OhMyPi.Secrets.KeyNeed

/-! What the analysis of the rules foresees. When it finds no need for the key, a secret in obfuscate
mode can still come up behind the turns of the literals in replace mode: by a replacement that later
turns change in another way than the analysis has played them. -/

namespace OhMyPi.Secrets

open Delimited Substitute

namespace SecretObfuscator

variable {o : SecretObfuscator} {text s : List Char}

/-! ## Where an occurrence comes from -/

/-- The turn leaves the text alone. -/
def Spares (s : List Char) (turn : List Char × List Char) : Prop :=
  turn.1 = turn.2 ∨ ¬turn.1 <:+: s

/-- An occurrence behind a turn stood there before it and was spared, or the replacement forms it. -/
theorem infix_replaceLiteralOutside {turn : List Char × List Char} (hneedle : turn.1 ≠ [])
    (htoken : ∀ body, o.trusted body = true → ¬Forms (wrap '$' body) s)
    (h : s <:+: o.replaceLiteralOutside turn.1 turn.2 text) :
    Forms turn.2 s ∨ s <:+: text ∧ Spares s turn := by
  obtain ⟨needle, replacement⟩ := turn
  rw [replaceLiteralOutside] at h
  split at h
  · next hskip => exact .inr ⟨h, .inl (hskip.resolve_left hneedle)⟩
  · by_cases hforms : Forms replacement s
    · exact .inl hforms
    obtain ⟨chunk, rest, hout, hwords, hchunks⟩ :=
      render_eq_mesh hneedle replacement (o.outside text)
    rw [hout] at h
    have hrest : ∀ p ∈ rest, ¬Forms p.1 s := by
      intro p hp
      rcases hwords p hp with heq | ⟨q, hq, heq⟩
      · rwa [heq]
      · rw [heq]
        exact htoken q.2 (accept_of_mem_found hq)
    obtain ⟨c, hc, hin⟩ : ∃ c ∈ chunk :: rest.map Prod.snd, s <:+: c := by
      rcases infix_mesh hrest h with hin | ⟨p, hp, hin⟩
      · exact ⟨chunk, List.mem_cons_self, hin⟩
      · exact ⟨p.2, List.mem_cons_of_mem _ (List.mem_map_of_mem hp), hin⟩
    obtain ⟨hno, g, hg, hcg⟩ := hchunks c hc
    exact .inr ⟨(hin.trans hcg).trans (infix_of_mem_gaps hg), .inr fun hneedle =>
      hno (hneedle.trans hin)⟩

/-- An occurrence behind a run of turns stood there before it and every turn spared it, or there is a
turn whose replacement forms it and the turns behind that one spare it. -/
theorem infix_foldl {turns : List (List Char × List Char)} (hne : ∀ turn ∈ turns, turn.1 ≠ [])
    (htoken : ∀ body, o.trusted body = true → ¬Forms (wrap '$' body) s)
    (h : s <:+: turns.foldl (fun text turn => o.replaceLiteralOutside turn.1 turn.2 text) text) :
    (s <:+: text ∧ ∀ turn ∈ turns, Spares s turn) ∨
    ∃ front turn later, turns = front ++ turn :: later ∧ Forms turn.2 s ∧
      ∀ t ∈ later, Spares s t := by
  induction turns generalizing text with
  | nil => exact .inl ⟨h, fun _ hmem => by cases hmem⟩
  | cons turn turns ih =>
    rcases ih (fun t ht => hne t (List.mem_cons_of_mem _ ht)) h with
      ⟨hin, hspares⟩ | ⟨front, turn', later, rfl, hforms, hspares⟩
    · rcases infix_replaceLiteralOutside (hne turn List.mem_cons_self) htoken hin with
        hforms | ⟨hin, hspare⟩
      · exact .inr ⟨[], turn, turns, rfl, hforms, hspares⟩
      · refine .inl ⟨hin, fun t ht => ?_⟩
        rcases List.mem_cons.1 ht with rfl | ht
        · exact hspare
        · exact hspares t ht
    · exact .inr ⟨turn :: front, turn', later, rfl, hforms, hspares⟩

end SecretObfuscator

/-! ## The phase -/

open SecretObfuscator

theorem mem_replacePhase {rules : List SecretRule} {turn : List Char × List Char}
    (h : turn ∈ replacePhase rules) : ∃ rule ∈ rules, rule.isPlain .replace = true ∧
      turn = (rule.content, insertedBy rule) := by
  have hfold : ∀ (l : List SecretRule) (phase : List (List Char × List Char)),
      turn ∈ l.foldl (fun phase rule => KeyedList.assign rule.content (insertedBy rule) phase) phase →
      turn ∈ phase ∨ ∃ rule ∈ l, turn = (rule.content, insertedBy rule) := by
    intro l
    induction l with
    | nil => exact fun phase hmem => .inl hmem
    | cons rule l ih =>
      intro phase hmem
      rcases ih _ hmem with hmem | ⟨r, hr, heq⟩
      · rcases KeyedList.eq_or_mem_of_mem_assign hmem with heq | hmem
        · exact .inr ⟨rule, List.mem_cons_self, heq⟩
        · exact .inl hmem
      · exact .inr ⟨r, List.mem_cons_of_mem _ hr, heq⟩
  rcases hfold _ _ ((mem_sort Sorting.stable).1 h) with hmem | ⟨rule, hrule, heq⟩
  · cases hmem
  · obtain ⟨hmem, hplain⟩ := List.mem_filter.1 hrule
    exact ⟨rule, hmem, hplain, heq⟩

/-- Turns that spare a text leave it as it is, played on it alone. -/
theorem applyFrom_of_spares {phase : List (List Char × List Char)} {s : List Char}
    (hne : ∀ turn ∈ phase, turn.1 ≠ []) (h : ∀ turn ∈ phase, Spares s turn) :
    applyFrom phase s = s := by
  induction phase with
  | nil => rfl
  | cons turn phase ih =>
    have hturn : replaceAll turn.1 turn.2 s = s := by
      rcases h turn List.mem_cons_self with heq | hno
      · rw [← heq, replaceAll_self (hne turn List.mem_cons_self)]
      · exact replaceAll_of_not_infix hno _
    rw [applyFrom, List.foldl_cons, hturn]
    exact ih (fun t ht => hne t (List.mem_cons_of_mem _ ht))
      fun t ht => h t (List.mem_cons_of_mem _ ht)

/-- The analysis does not overlook a replacement that, after the turns behind it, forms a secret that
they spare. -/
theorem formedBy_of_forms {content needle replacement : List Char}
    {front later : List (List Char × List Char)} (hne : content ≠ [])
    (hkept : applyFrom later content = content)
    (hforms : Forms (applyFrom later replacement) content) :
    formedBy content (front ++ (needle, replacement) :: later) ≠ some false := by
  have hanswer := replacementCanFormContent_of_forms hne hforms
  induction front with
  | nil =>
    rw [List.nil_append, formedBy, if_pos hkept]
    split
    · next heq => exact absurd heq hanswer
    · next hno => exact fun h => hno h
  | cons turn front ih =>
    rw [List.cons_append, formedBy]
    split
    · split
      · exact ih
      · next hno => exact fun h => hno h
    · exact ih

namespace SecretObfuscator

variable {o : SecretObfuscator}

/-! ## Masking without the key -/

/-- The text that is left for the placeholders of the literals. -/
def replaced (sorting : Sorting) (o : SecretObfuscator) (text : List Char) : List Char :=
  (o.replaceTurns sorting ++ o.keyTurns).foldl
    (fun text turn => o.replaceLiteralOutside turn.1 turn.2 text) text

theorem obfuscatePlain_eq (sorting : Sorting) (o : SecretObfuscator) (text : List Char) :
    o.obfuscatePlain sorting text = (o.placeholderTurns sorting).foldl
      (fun text turn => o.replaceLiteralOutside turn.1 turn.2 text) (o.replaced sorting text) := by
  rw [obfuscatePlain, plainTurns, replaced, List.foldl_append]

/-- A secret stands outside the placeholders when the turn of the placeholders comes. -/
def Mints (sorting : Sorting) (o : SecretObfuscator) (text : List Char) : Prop :=
  ∃ turn ∈ o.placeholderTurns sorting, ∃ gap ∈ (o.outside (o.replaced sorting text)).gaps,
    turn.1 <:+: gap

/-- The rules for expressions name what they put in. -/
def Explicit (rules : List SecretRule) : Prop :=
  ∀ rule ∈ rules, rule.kind = .regex → rule.mode = .replace ∧ rule.replacement.isSome = true

theorem explicit_of_rulesNeedPlaceholderKey {rules : List SecretRule}
    (h : rulesNeedPlaceholderKey rules = some false) : Explicit rules := by
  intro rule hrule hkind
  have hneeds := anyM_eq_some_false.1 h rule hrule
  rw [ruleNeeds, SecretRule.needsPlaceholderKey, hkind] at hneeds
  cases hmode : rule.mode with
  | obfuscate =>
    rw [hmode] at hneeds
    cases hneeds
  | replace =>
    refine ⟨rfl, ?_⟩
    cases hreplacement : rule.replacement with
    | some _ => rfl
    | none =>
      rw [hmode, hreplacement] at hneeds
      cases hneeds

theorem matchReplacement_state {mac : Mac} {o' : SecretObfuscator} {rule : SecretRule}
    {regex : Regex} {before value after : List Char} {found : Option (List Char)}
    (hmode : rule.mode = .replace) (hreplacement : rule.replacement.isSome = true)
    (h : matchReplacement mac o rule regex before value after = some (o', found)) : o' = o := by
  obtain ⟨replacement, heq⟩ := Option.isSome_iff_exists.1 hreplacement
  rw [matchReplacement, hmode, heq] at h
  split at h
  · cases h
    rfl
  · split at h <;> cases h <;> rfl

theorem regexMatches_state {mac : Mac} {o' : SecretObfuscator} {rule : SecretRule} {regex : Regex}
    {left gap right out : List Char} {cursor : Nat} {found : List (Nat × Nat)}
    (hmode : rule.mode = .replace) (hreplacement : rule.replacement.isSome = true)
    (h : regexMatches mac rule regex left gap right cursor found o = some (o', out)) : o' = o := by
  induction found generalizing cursor o out with
  | nil =>
    cases h
    rfl
  | cons m found ih =>
    simp only [regexMatches] at h
    split at h
    · cases h
    · next o₁ replacement hmatch =>
      obtain ⟨⟨o₂, rest⟩, hrest, heq⟩ := Option.map_eq_some_iff.1 h
      cases heq
      rw [ih hrest, matchReplacement_state hmode hreplacement hmatch]

theorem regexGaps_state {mac : Mac} {o' : SecretObfuscator} {rule : SecretRule} {regex : Regex}
    {last left out : List Char} {found : List (List Char × List Char)}
    (hmode : rule.mode = .replace) (hreplacement : rule.replacement.isSome = true)
    (h : regexGaps mac rule regex last left found o = some (o', out)) : o' = o := by
  induction found generalizing left o out with
  | nil => exact regexMatches_state hmode hreplacement h
  | cons segment found ih =>
    simp only [regexGaps] at h
    split at h
    · cases h
    · next o₁ masked hmatches =>
      obtain ⟨⟨o₂, rest⟩, hrest, heq⟩ := Option.map_eq_some_iff.1 h
      cases heq
      rw [ih hrest, regexMatches_state hmode hreplacement hmatches]

theorem obfuscateRegex_state {mac : Mac} {o' : SecretObfuscator} {rules : List SecretRule}
    {text masked : List Char} (hrules : Explicit rules)
    (h : obfuscateRegex mac rules o text = some (o', masked)) : o' = o := by
  induction rules generalizing o text with
  | nil =>
    cases h
    rfl
  | cons rule rules ih =>
    have hrest : Explicit rules := fun r hr => hrules r (List.mem_cons_of_mem _ hr)
    rw [obfuscateRegex] at h
    split at h
    · exact ih hrest h
    · next regex hregex =>
      split at h
      · cases h
      · next o₁ masked₁ hturn =>
        obtain ⟨hmode, hreplacement⟩ := hrules rule List.mem_cons_self
          (rule.compiled.1 (by rw [hregex]; rfl))
        rw [ih hrest h, regexGaps_state hmode hreplacement hturn]

/-- Rules whose replacements are all given ask for no key and register nothing. -/
theorem obfuscate_state {mac : Mac} {sorting : Sorting} {o' : SecretObfuscator}
    {text masked : List Char} (hrules : Explicit o.rules)
    (h : o.obfuscate mac sorting text = some (o', masked)) : o' = o := by
  rw [obfuscate] at h
  split at h
  · cases h
    rfl
  · exact obfuscateRegex_state hrules h

/-! ## What is foreseen -/

/-- Nothing comes between the analysis and the turns it plays. A placeholder in the text shares no
character with a secret, and neither does what the key is replaced by. A replacement that forms a
secret, where no shorter literal breaks the secret up again, is the one that the analysis has for its
literal; the turns that the analysis plays behind it spare the secret, and the replacement still
forms the secret when they are played on the replacement alone. -/
structure Foreseen (o : SecretObfuscator) : Prop where
  tokens : ∀ rule ∈ o.rules, rule.isPlain .obfuscate = true →
    ∀ body, o.trusted body = true → ¬Forms (wrap '$' body) rule.content
  key : ∀ rule ∈ o.rules, rule.isPlain .obfuscate = true →
    ∀ k, o.key = some k → k ≠ [] → ¬Forms (generatedReplacement k) rule.content
  replacements : ∀ rule ∈ o.rules, rule.isPlain .obfuscate = true →
    ∀ cause ∈ o.rules, cause.isPlain .replace = true → Forms (insertedBy cause) rule.content →
    (∀ other ∈ o.rules, other.isPlain .replace = true →
      Text.byteLen other.content < Text.byteLen cause.content →
      Spares rule.content (other.content, insertedBy other)) →
    ∃ front later, replacePhase o.rules = front ++ (cause.content, insertedBy cause) :: later ∧
      (∀ turn ∈ later, Spares rule.content turn) ∧
      Forms (applyFrom later (insertedBy cause)) rule.content

/-- The shorter literals have their turns later. -/
theorem mem_later_of_shorter {sorting : Sorting} {front later : List (List Char × List Char)}
    {turn : List Char × List Char} (hsplit : o.replaceTurns sorting = front ++ turn :: later)
    {other : SecretRule} (hother : other ∈ o.rules) (hplain : other.isPlain .replace = true)
    (hlt : Text.byteLen other.content < Text.byteLen turn.1) :
    (other.content, insertedBy other) ∈ later := by
  have hsorted : (o.replaceTurns sorting).Pairwise fun a b => Text.byteLen b.1 ≤ Text.byteLen a.1 := by
    rw [replaceTurns, List.pairwise_map]
    exact sorting.sorted _ _
  have hmem : (other.content, insertedBy other) ∈ o.replaceTurns sorting :=
    List.mem_map.2 ⟨other, (mem_sort sorting).2 (List.mem_filter.2 ⟨hother, hplain⟩), rfl⟩
  rw [hsplit] at hsorted hmem
  rcases List.mem_append.1 hmem with hmem | hmem
  · have := (List.pairwise_append.1 hsorted).2.2 _ hmem turn List.mem_cons_self
    simp only at this
    omega
  · rcases List.mem_cons.1 hmem with rfl | hmem
    · simp only at hlt
      omega
    · exact hmem

/-- A secret that stands behind the turns of the literals in replace mode has not escaped the
analysis. -/
theorem Foreseen.not_infix_replaced (h : o.Foreseen) (ho : o.Held) (sorting : Sorting)
    (hneeds : rulesNeedPlaceholderKey o.rules = some false) {rule : SecretRule}
    (hrule : rule ∈ o.rules) (hplain : rule.isPlain .obfuscate = true) (text : List Char) :
    ¬rule.content <:+: o.replaced sorting text := by
  have hanswer : ruleNeeds (replacePhase o.rules) rule = some false :=
    anyM_eq_some_false.1 hneeds rule hrule
  rw [SecretRule.isPlain, Bool.and_eq_true, decide_eq_true_eq, decide_eq_true_eq] at hplain
  have hplain' : rule.isPlain .obfuscate = true := by simp [SecretRule.isPlain, hplain]
  have hphase : ∀ turn ∈ replacePhase o.rules, turn.1 ≠ [] := by
    intro turn hturn
    obtain ⟨r, -, -, rfl⟩ := mem_replacePhase hturn
    exact r.content_ne
  have hno : contains rule.content (applyFrom (replacePhase o.rules) rule.content) = false ∧
      formedBy rule.content (replacePhase o.rules) = some false := by
    rw [ruleNeeds, SecretRule.needsPlaceholderKey, hplain.1, hplain.2] at hanswer
    simp only [Bool.not_true, Bool.false_eq_true, if_false, reduceCtorEq] at hanswer
    split at hanswer
    · cases hanswer
    · next hno => exact ⟨Bool.eq_false_iff.2 hno, hanswer⟩
  intro hin
  have hturns : ∀ turn ∈ o.replaceTurns sorting ++ o.keyTurns, turn.1 ≠ [] := fun turn hturn =>
    ho.turn_ne_nil sorting (List.mem_append_left _ hturn)
  rcases infix_foldl hturns (h.tokens rule hrule hplain') hin with
    ⟨-, hspares⟩ | ⟨front, turn, later, hsplit, hforms, hspares⟩
  · -- No turn breaks the secret up, so the analysis has found it in itself.
    have hkept : applyFrom (replacePhase o.rules) rule.content = rule.content := by
      refine applyFrom_of_spares hphase fun turn hturn => ?_
      obtain ⟨r, hr, hrplain, rfl⟩ := mem_replacePhase hturn
      exact hspares _ (List.mem_append_left _
        (List.mem_map.2 ⟨r, (mem_sort sorting).2 (List.mem_filter.2 ⟨hr, hrplain⟩), rfl⟩))
    rw [hkept, Bool.eq_false_iff, Ne, contains_iff] at hno
    exact hno.1 (List.infix_refl _)
  · rcases List.append_eq_append_iff.1 hsplit with ⟨front', -, hkeys⟩ | ⟨later', hreplaces, hrest⟩
    · -- The key's turn.
      obtain ⟨k, hk, hne, rfl⟩ := mem_keyTurns.1
        (show turn ∈ o.keyTurns from hkeys ▸ List.mem_append_right _ List.mem_cons_self)
      exact h.key rule hrule hplain' k hk hne hforms
    · cases later' with
      | nil =>
        rw [List.nil_append] at hrest
        obtain ⟨k, hk, hne, rfl⟩ := mem_keyTurns.1
          (show turn ∈ o.keyTurns from hrest ▸ List.mem_cons_self)
        exact h.key rule hrule hplain' k hk hne hforms
      | cons turn' later' =>
        obtain ⟨rfl, rfl⟩ := List.cons_eq_cons.1 hrest
        obtain ⟨cause, hcause, hcplain, rfl⟩ := mem_replaceTurns
          (show turn ∈ o.replaceTurns sorting from
            hreplaces ▸ List.mem_append_right _ List.mem_cons_self)
        obtain ⟨front', later, hphases, hlater, hforms'⟩ := h.replacements rule hrule hplain' cause
          hcause hcplain hforms fun other hother hoplain hlt => hspares _ (List.mem_append_left _
            (mem_later_of_shorter hreplaces hother hoplain hlt))
        rw [hphases] at hno hphase
        refine formedBy_of_forms rule.content_ne (applyFrom_of_spares (fun t ht => ?_) hlater)
          hforms' hno.2
        exact hphase t (List.mem_append_right _ (List.mem_cons_of_mem _ ht))

theorem long_replace (content : List Char) : SecretKind.plain = .plain → SecretMode.replace = .obfuscate →
    minObfuscateSecretLen ≤ Text.byteLen content := by
  rintro - ⟨⟩

theorem no_replacement_replace (replacement : List Char) : SecretMode.replace = .obfuscate →
    some replacement = none := by
  rintro ⟨⟩

/-- A literal in replace mode. -/
def replaceRule (content replacement : List Char) (hne : content ≠ []) : SecretRule where
  kind := .plain
  mode := .replace
  content := content
  replacement := some replacement
  content_ne := hne
  long := long_replace content
  no_replacement := no_replacement_replace replacement
  compiled := compiled_plain

theorem long_obfuscate {content : List Char} (h : minObfuscateSecretLen ≤ Text.byteLen content) :
    SecretKind.plain = .plain → SecretMode.obfuscate = .obfuscate →
      minObfuscateSecretLen ≤ Text.byteLen content :=
  fun _ _ => h

theorem no_replacement_obfuscate : SecretMode.obfuscate = .obfuscate → (none : Option (List Char)) = none :=
  fun _ => rfl

/-- A literal in obfuscate mode. -/
def obfuscateRule (content : List Char) (hne : content ≠ [])
    (hlong : minObfuscateSecretLen ≤ Text.byteLen content) : SecretRule where
  kind := .plain
  mode := .obfuscate
  content := content
  content_ne := hne
  long := long_obfuscate hlong
  no_replacement := no_replacement_obfuscate
  compiled := compiled_plain

/-- A secret that is replaced before it could get a placeholder. -/
def shadowedRules : List SecretRule :=
  [replaceRule "secret12".toList "***".toList (by decide),
    obfuscateRule "secret12".toList (by decide) (by decide)]

/-- Texts without a common letter. -/
def disjoint (word s : List Char) : Bool := word.all fun x => !s.contains x

theorem not_forms_of_disjoint_eq {word s : List Char} (hword : word ≠ []) (hs : s ≠ [])
    (h : disjoint word s = true) : ¬Forms word s := by
  refine not_forms_of_disjoint hword hs fun x hx hmem => ?_
  have hno := List.all_eq_true.1 h x hx
  rw [List.contains_iff_mem.2 hmem] at hno
  cases hno

theorem foreseen_shadowed (h : build zeroMac shadowedRules none none = some o) : o.Foreseen := by
  have hbuilt : (build zeroMac shadowedRules none none).map
      (fun o => (o.key, o.registry.entries.map Prod.fst)) =
      some (some [], ["$$AAAAAAAAAAAA:L$$".toList]) := by decide +kernel
  rw [h, Option.map_some, Option.some_inj, Prod.mk.injEq] at hbuilt
  have hrules : o.rules = shadowedRules := (build_spec h).2
  have hcontent : ∀ rule ∈ o.rules, rule.content = "secret12".toList := by
    rw [hrules]
    simp [shadowedRules, replaceRule, obfuscateRule]
  have hinserted : ∀ rule ∈ o.rules, rule.isPlain .replace = true →
      insertedBy rule = "***".toList := by
    rw [hrules]
    simp [shadowedRules, replaceRule, obfuscateRule, insertedBy, SecretRule.isPlain]
  refine ⟨fun rule hrule _ body hbody => ?_, fun rule hrule _ k hk hne => ?_,
    fun rule hrule _ cause hcause hplain hforms => ?_⟩
  · have hmem : wrap '$' body ∈ o.registry.entries.map Prod.fst := by
      by_contra hno
      rw [trusted, PlaceholderRegistry.lookupExact, KeyedList.first_eq_none_iff.2 hno] at hbody
      cases hbody
    rw [hbuilt.2, List.mem_singleton] at hmem
    rw [hmem, hcontent rule hrule]
    exact not_forms_of_disjoint_eq (by decide) (by decide) (by decide)
  · rw [hbuilt.1] at hk
    cases hk
    exact absurd rfl hne
  · rw [hinserted cause hcause hplain, hcontent rule hrule] at hforms
    exact absurd hforms (not_forms_of_disjoint_eq (by decide) (by decide) (by decide))

/-- Beside it, a literal that is replaced by a letter of two bytes. -/
def accentRules : List SecretRule :=
  [replaceRule "secret12".toList "safe".toList (by decide),
    replaceRule "abc".toList "é".toList (by decide),
    obfuscateRule "secret12".toList (by decide) (by decide)]

/-- A replacement that holds the secret behind a letter which the last turn takes away, unless that
turn finds another one before it. -/
def displacedRules : List SecretRule :=
  [replaceRule "secret12".toList "%%".toList (by decide),
    replaceRule "ZZ".toList "aaQsecret12".toList (by decide),
    replaceRule "aa".toList "X".toList (by decide),
    obfuscateRule "aQsecret12".toList (by decide) (by decide)]

end SecretObfuscator

end OhMyPi.Secrets
