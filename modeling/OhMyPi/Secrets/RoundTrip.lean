import OhMyPi.Secrets.States

/-! Masking a text with reversible rules and restoring it. The masked text is the original with some
secrets replaced by their placeholders (`Masked`); the scan of the masked text finds exactly these
placeholders as long as no secret stands where the scan would misread the opening of its
placeholder. -/

namespace OhMyPi.Secrets

open Delimited

namespace SecretObfuscator

/-! ## Masked texts -/

/-- `masked` is `text` with some secrets replaced by their placeholders. -/
inductive Masked (pairs : List (List Char × List Char)) : List Char → List Char → Prop
  | last (u : List Char) : Masked pairs u u
  | token {s p rest rest' : List Char} (u : List Char) (h : (s, p) ∈ pairs) :
    Masked pairs rest rest' → Masked pairs (u ++ s ++ rest) (u ++ p ++ rest')

theorem masked_mesh {pairs : List (List Char × List Char)} {s p : List Char} (h : (s, p) ∈ pairs)
    (chunk : List Char) (chunks : List (List Char)) :
    Masked pairs (Substitute.mesh chunk (chunks.map (s, ·)))
      (Substitute.mesh chunk (chunks.map (p, ·))) := by
  induction chunks generalizing chunk with
  | nil => exact .last chunk
  | cons next chunks ih => exact .token chunk h (ih next)

theorem Masked.mesh_append {pairs : List (List Char × List Char)} {s p : List Char}
    (h : (s, p) ∈ pairs) (hs : (s', p') ∈ pairs) (hrest : Masked pairs rest rest')
    (chunk : List Char) (chunks : List (List Char)) :
    Masked pairs (Substitute.mesh chunk (chunks.map (s, ·)) ++ s' ++ rest)
      (Substitute.mesh chunk (chunks.map (p, ·)) ++ p' ++ rest') := by
  induction chunks generalizing chunk with
  | nil => exact .token chunk hs hrest
  | cons next chunks ih =>
    simp only [List.map_cons, Substitute.mesh]
    have hnext := Masked.token chunk h (ih next)
    simpa only [List.append_assoc] using hnext

/-- A text that masking can be undone on: it holds no token that is restored, and no secret stands
behind a `$` or behind an opening delimiter and the body of a placeholder. -/
structure Legible (o : SecretObfuscator) (text : List Char) : Prop where
  no_token : ∀ body, (o.lookupPlaceholder (wrap '$' body)).isSome = true → ¬ wrap '$' body <:+: text
  clear : ∀ rule ∈ o.rules, ∀ a b, text = a ++ rule.content ++ b → Clears '$' validBody a

variable {o : SecretObfuscator} {text : List Char}

theorem Legible.of_suffix (h : o.Legible text) (hsuffix : rest <:+ text) : o.Legible rest where
  no_token body hb hin := h.no_token body hb (hin.trans hsuffix.isInfix)
  clear rule hr a b heq := by
    obtain ⟨front, rfl⟩ := hsuffix
    have hclear := h.clear rule hr (front ++ a) b (by rw [heq]; simp)
    exact hclear.of_suffix (List.suffix_append front a)

theorem isSome_lookupPlaceholder (h : o.trusted body = true) :
    (o.lookupPlaceholder (wrap '$' body)).isSome = true := by
  rw [trusted] at h
  obtain ⟨entry, hentry⟩ := Option.isSome_iff_exists.1 h
  rw [lookupPlaceholder, hentry]
  rfl

theorem Legible.no_token_infix (h : o.Legible text) (hu : u <:+: text) (body : List Char)
    (hb : (o.lookupPlaceholder (wrap '$' body)).isSome = true) : ¬ wrap '$' body <:+: u :=
  fun hin => h.no_token body hb (hin.trans hu)

theorem Legible.outside_eq (h : o.Legible text) (hu : u <:+: text) : o.outside u = ⟨[], u⟩ :=
  segments_eq_last fun body hb => h.no_token_infix hu body (isSome_lookupPlaceholder hb)

theorem Held.exists_body (ho : o.Held) (h : (s, p) ∈ o.plainPlaceholders) :
    ∃ body, p = wrap '$' body ∧ validBody body = true ∧ o.trusted body = true ∧
      ∃ entry, o.lookupPlaceholder p = some entry ∧ entry.secret = s := by
  obtain ⟨entry, hentry, hs⟩ := ho.registered s p h
  obtain ⟨-, body, rfl, hvalid⟩ := ho.wellFormed p entry hentry
  refine ⟨body, rfl, hvalid, by rw [trusted, hentry]; rfl, entry, ?_, hs⟩
  rw [lookupPlaceholder, hentry]

theorem Held.validBody_of_trusted (ho : o.Held) (h : o.trusted body = true) :
    validBody body = true := by
  obtain ⟨entry, hentry⟩ := Option.isSome_iff_exists.1 h
  obtain ⟨-, body', heq, hvalid⟩ := ho.wellFormed _ entry hentry
  have hbody := congrArg stripDelimiters heq
  rw [stripDelimiters_wrap, stripDelimiters_wrap, Option.some_inj] at hbody
  exact hbody ▸ hvalid

/-- What stands before a secret of a legible text clears the placeholder. -/
theorem Legible.clears (h : o.Legible (u ++ s ++ rest)) (ho : o.Held)
    (hs : (s, p) ∈ o.plainPlaceholders) : Clears '$' validBody u := by
  obtain ⟨rule, hrule, -, rfl⟩ := ho.declared s p hs
  exact h.clear rule hrule u rest rfl

/-- One turn masks the secret in the gaps and leaves the placeholders alone. -/
theorem Masked.replaceLiteralOutside (ho : o.Held) (hs : (s, p) ∈ o.plainPlaceholders)
    (hm : Masked o.plainPlaceholders text masked) (htext : o.Legible text) :
    Masked o.plainPlaceholders text (o.replaceLiteralOutside s p masked) := by
  rw [SecretObfuscator.replaceLiteralOutside]
  split
  · exact hm
  next hskip =>
  rw [not_or] at hskip
  induction hm with
  | last u =>
    rw [htext.outside_eq (List.infix_refl u)]
    obtain ⟨chunk, chunks, hu, hout, -⟩ := Substitute.replaceAll_eq_mesh hskip.1 p u
    rw [Segments.render, List.flatMap_nil, List.nil_append, hout]
    conv => arg 2; rw [hu]
    exact masked_mesh hs chunk chunks
  | @token s₀ p₀ rest rest' u h₀ hrest ih =>
    obtain ⟨body, rfl, hvalid, htrusted, -⟩ := ho.exists_body h₀
    have hclear := htext.clears ho h₀
    have hclear' : Clears '$' o.trusted u :=
      ⟨hclear.half, fun w hw => hclear.body w (ho.validBody_of_trusted hw)⟩
    have hjoin : o.outside (u ++ wrap '$' body ++ rest') =
        (o.outside u).join body (o.outside rest') :=
      segments_append hclear' htrusted (dollar_not_mem_of_validBody hvalid) rest'
    rw [hjoin, Segments.render_join, htext.outside_eq ⟨[], s₀ ++ rest, by simp⟩]
    obtain ⟨chunk, chunks, hu, hout, -⟩ := Substitute.replaceAll_eq_mesh hskip.1 p u
    rw [Segments.render, List.flatMap_nil, List.nil_append, hout]
    conv => arg 2; rw [hu]
    exact .mesh_append hs h₀ (ih (htext.of_suffix (List.suffix_append _ _))) chunk chunks

/-- Every turn does. -/
theorem Masked.foldl (ho : o.Held) {turns : List (List Char × List Char)}
    (hturns : ∀ turn ∈ turns, turn ∈ o.plainPlaceholders) (htext : o.Legible text)
    (hm : Masked o.plainPlaceholders text masked) :
    Masked o.plainPlaceholders text
      (turns.foldl (fun text turn => o.replaceLiteralOutside turn.1 turn.2 text) masked) := by
  induction turns generalizing masked with
  | nil => exact hm
  | cons turn turns ih =>
    exact ih (fun t ht => hturns t (List.mem_cons_of_mem _ ht))
      (hm.replaceLiteralOutside ho (hturns turn List.mem_cons_self) htext)

/-! ## Restoring -/

theorem restorePass_of_no_token
    (h : ∀ body, (o.lookupPlaceholder (wrap '$' body)).isSome = true → ¬ wrap '$' body <:+: u) :
    restorePass o.lookupPlaceholder u = u := by
  have hsame : restorePass o.lookupPlaceholder u = (placeholders u).render id (wrap '$') := by
    refine Segments.render_congr (fun _ _ => rfl) fun q hq => ?_
    have hin : wrap '$' q.2 <:+: u := wrap_infix_of_mem_found hq
    rw [restored]
    cases hlook : o.lookupPlaceholder (wrap '$' q.2) with
    | none => rfl
    | some entry => exact absurd hin (h q.2 (by rw [hlook]; rfl))
  rw [hsame]
  exact render_segments '$' _ u

/-- A placeholder behind a text that clears it is restored, whatever stands around it. -/
theorem restorePass_append_wrap (lookup : List Char → Option PlaceholderEntry)
    (hu : Clears '$' validBody u) (hw : validBody w = true) (rest : List Char) :
    Secrets.restorePass lookup (u ++ wrap '$' w ++ rest) =
      Secrets.restorePass lookup u ++ restored lookup w ++ Secrets.restorePass lookup rest := by
  have hjoin : placeholders (u ++ wrap '$' w ++ rest) =
      (placeholders u).join w (placeholders rest) := by
    refine segments_append ⟨hu.half, fun v hv => hu.body v ?_⟩ ?_
      (dollar_not_mem_of_validBody hw) rest
    · rwa [validPlaceholder_wrap] at hv
    · rwa [validPlaceholder_wrap]
  rw [Secrets.restorePass, hjoin, Segments.render_join]
  rfl

/-- A pass over a masked text gives the text back. -/
theorem Masked.restorePass (ho : o.Held) (hm : Masked o.plainPlaceholders text masked)
    (htext : o.Legible text) : restorePass o.lookupPlaceholder masked = text := by
  induction hm with
  | last u => exact restorePass_of_no_token htext.no_token
  | @token s₀ p₀ rest rest' u h₀ hrest ih =>
    obtain ⟨body, rfl, hvalid, -, entry, hentry, hs⟩ := ho.exists_body h₀
    have hu : Secrets.restorePass o.lookupPlaceholder u = u :=
      restorePass_of_no_token (htext.no_token_infix ⟨[], s₀ ++ rest, by simp⟩)
    have hsecret : restored o.lookupPlaceholder body = s₀ := by
      rw [restored, hentry]
      exact hs
    rw [restorePass_append_wrap _ (htext.clears ho h₀) hvalid, hu, hsecret,
      ih (htext.of_suffix (List.suffix_append _ _))]

theorem Held.recursive_eq_false (ho : o.Held) (h : o.lookupPlaceholder token = some entry) :
    entry.recursive = false := by
  rw [lookupPlaceholder] at h
  split at h
  · next hexact =>
    cases h
    exact (ho.wellFormed _ _ hexact).1
  · split at h
    · cases h
    · simp only at h
      split at h
      · cases h
      · obtain ⟨bare, -, hbare⟩ := Option.bind_eq_some_iff.1 h
        exact (ho.wellFormed _ _ hbare).1

/-- No entry is scanned again, so one pass is enough. -/
theorem Held.deobfuscate_eq (ho : o.Held) (fuel : Nat) (text : List Char) :
    o.deobfuscate (fuel + 1) text = some (Secrets.restorePass o.lookupPlaceholder text) := by
  rw [deobfuscate, deobfuscatePlaceholders]
  split
  · next hnone =>
    have hcand : candidate '$' text = none := by
      rw [candidate, Option.isNone_iff_eq_none.1 hnone, Option.bind_none]
    rw [Secrets.restorePass, placeholders, segments_of_none hcand]
    rfl
  · have honce : restoresRecursive o.lookupPlaceholder text = false := by
      rw [restoresRecursive, List.any_eq_false]
      intro q hq
      cases hlook : o.lookupPlaceholder (wrap '$' q.2) with
      | none => exact Bool.false_ne_true
      | some entry =>
        simp only [ho.recursive_eq_false hlook]
        exact Bool.false_ne_true
    rw [deobfuscateLoop, honce]
    simp

/-! ## The round trip -/

/-- Rules without an expression leave the text to the plain turns. -/
theorem obfuscateRegex_eq (mac : Mac) {rules : List SecretRule}
    (h : ∀ rule ∈ rules, rule.kind = .plain) (o : SecretObfuscator) (text : List Char) :
    obfuscateRegex mac rules o text = some (o, text) := by
  induction rules with
  | nil => rfl
  | cons rule rules ih =>
    have hnone : rule.regex = none := by
      have hcompiled := rule.compiled
      rw [h rule List.mem_cons_self] at hcompiled
      simpa using hcompiled
    rw [obfuscateRegex, hnone]
    exact ih fun r hr => h r (List.mem_cons_of_mem _ hr)

theorem replaceLiteralOutside_of_not_infix (h : ¬ needle <:+: text) (replacement : List Char) :
    o.replaceLiteralOutside needle replacement text = text := by
  rw [SecretObfuscator.replaceLiteralOutside]
  split
  · rfl
  · have hsame : (o.outside text).render (Substitute.replaceAll needle replacement) (wrap '$') =
        (o.outside text).render id (wrap '$') :=
      Segments.render_congr (fun g hg =>
        Substitute.replaceAll_of_not_infix (fun hin => h (hin.trans (infix_of_mem_gaps hg))) replacement)
        fun _ _ => rfl
    rw [hsame]
    exact render_segments '$' o.trusted text

/-- Turns that find nothing leave the text as it is. -/
theorem foldl_of_not_infix {turns : List (List Char × List Char)}
    (h : ∀ turn ∈ turns, ¬ turn.1 <:+: text) :
    turns.foldl (fun text turn => o.replaceLiteralOutside turn.1 turn.2 text) text = text := by
  induction turns with
  | nil => rfl
  | cons turn turns ih =>
    rw [List.foldl_cons, replaceLiteralOutside_of_not_infix (h turn List.mem_cons_self)]
    exact ih fun t ht => h t (List.mem_cons_of_mem _ ht)

theorem mem_keyTurns : turn ∈ o.keyTurns ↔
    ∃ k, o.key = some k ∧ k ≠ [] ∧ turn = (k, generatedReplacement k) := by
  simp only [keyTurns, List.mem_map, List.mem_filter, Option.mem_toList, Option.mem_def,
    Bool.not_eq_true', List.isEmpty_eq_false_iff]
  constructor
  · rintro ⟨k, ⟨hk, hne⟩, rfl⟩
    exact ⟨k, hk, hne, rfl⟩
  · rintro ⟨k, hk, hne, rfl⟩
    exact ⟨k, ⟨hk, hne⟩, rfl⟩

/-- The order of turns does not matter for what has a turn. -/
theorem mem_sort (sorting : Sorting) {α : Type} {key : α → Nat} {l : List α} {a : α} :
    a ∈ sorting.sort key l ↔ a ∈ l := (sorting.perm key l).mem_iff

/-- Restoring undoes masking on every legible text that does not hold the key. -/
theorem deobfuscate_obfuscate {mac : Mac} {rules : List SecretRule}
    {key keyProvider : Option (List Char)} (sorting : Sorting)
    (hbuild : build mac rules key keyProvider = some o)
    (hrules : ∀ rule ∈ rules, rule.kind = .plain ∧ rule.mode = .obfuscate)
    (htext : o.Legible text) (hkey : ∀ k ∈ o.key, k ≠ [] → ¬ k <:+: text) :
    ∃ o' masked, o.obfuscate mac sorting text = some (o', masked) ∧
      ∀ fuel, o'.deobfuscate (fuel + 1) masked = some text := by
  obtain ⟨ho, hsame⟩ := build_spec hbuild
  have hobfuscate : ∃ masked, o.obfuscate mac sorting text = some (o, masked) ∧
      Masked o.plainPlaceholders text masked := by
    rw [obfuscate]
    split
    · exact ⟨text, rfl, .last text⟩
    refine ⟨_, obfuscateRegex_eq mac (fun rule hr => (hrules rule (hsame ▸ hr)).1) o _, ?_⟩
    have hnone : o.rules.filter (SecretRule.isPlain .replace) = [] := by
      rw [List.filter_eq_nil_iff, hsame]
      intro rule hr
      simp [SecretRule.isPlain, hrules rule hr]
    have hreplaces : o.replaceTurns sorting = [] := by
      rw [replaceTurns, hnone]
      exact congrArg (List.map _) (sorting.perm _ _).eq_nil
    have hkeyTurns : ∀ turn ∈ o.keyTurns, ¬ turn.1 <:+: text := by
      intro turn ht
      obtain ⟨k, hk, hne, rfl⟩ := mem_keyTurns.1 ht
      exact hkey k hk hne
    rw [obfuscatePlain, plainTurns, hreplaces, List.nil_append, List.foldl_append,
      foldl_of_not_infix hkeyTurns]
    exact Masked.foldl ho.toHeld (fun turn ht => (mem_sort sorting).1 ht) htext (.last text)
  obtain ⟨masked, hrun, hmasked⟩ := hobfuscate
  refine ⟨o, masked, hrun, fun fuel => ?_⟩
  rw [ho.toHeld.deobfuscate_eq, hmasked.restorePass ho.toHeld htext]

/-- A text without a `$` is legible. -/
theorem legible_of_dollar_not_mem (o : SecretObfuscator) (h : '$' ∉ text) : o.Legible text where
  no_token body _ hin := h (hin.subset (by simp [wrap]))
  clear rule _ a b heq := by
    have ha : '$' ∉ a := fun hmem => h (heq ▸ by simp [hmem])
    exact ⟨fun hs => ha (hs.subset (by simp)), fun w _ hs => ha (hs.subset (by simp))⟩

/-- A digest for runs on concrete texts. -/
def zeroMac : Mac := fun _ _ _ => 0

def passwordRule : SecretRule where
  kind := .plain
  mode := .obfuscate
  content := ['h', 'u', 'n', 't', 'e', 'r', '2', '2']
  friendlyName := some ['d', 'b']
  long := by decide

/-- A transform with one reversible rule and the key `K1`. -/
def passwordBuild : Option SecretObfuscator := build zeroMac [passwordRule] (some ['K', '1']) none

theorem deobfuscate_obfuscate_password : ∃ o, passwordBuild = some o ∧ ∃ o' masked,
    o.obfuscate zeroMac .stable "login hunter22, hunter22".toList = some (o', masked) ∧
      ∀ fuel, o'.deobfuscate (fuel + 1) masked = some "login hunter22, hunter22".toList := by
  obtain ⟨o, ho⟩ := Option.isSome_iff_exists.1 (show passwordBuild.isSome = true by decide +kernel)
  have hkey : passwordBuild.map (·.key) = some (some ['K', '1']) := by decide +kernel
  rw [ho, Option.map_some, Option.some_inj] at hkey
  refine ⟨o, ho, deobfuscate_obfuscate .stable ho ?_ (o.legible_of_dollar_not_mem (by decide)) ?_⟩
  · intro rule hr
    obtain rfl := List.mem_singleton.1 hr
    exact ⟨rfl, rfl⟩
  · intro k hk _
    rw [hkey] at hk
    cases hk
    decide

/-- The key is redacted for good, so a text that holds it is not restored. -/
theorem key_not_restored : ¬ ∀ (mac : Mac) (sorting : Sorting) (rules : List SecretRule)
    (key keyProvider : Option (List Char)) (o : SecretObfuscator) (text : List Char),
    build mac rules key keyProvider = some o →
    (∀ rule ∈ rules, rule.kind = .plain ∧ rule.mode = .obfuscate) →
    (∀ token, (o.registry.lookupExact token).isSome = true → ¬ token <:+: text) →
    ∃ o' masked, o.obfuscate mac sorting text = some (o', masked) ∧
      ∀ fuel, o'.deobfuscate (fuel + 1) masked = some text := by
  intro hclaim
  obtain ⟨o, ho⟩ := Option.isSome_iff_exists.1 (show passwordBuild.isSome = true by decide +kernel)
  obtain ⟨o', masked, hrun, hrestored⟩ := hclaim zeroMac .stable [passwordRule] (some ['K', '1'])
    none o ['K', '1'] ho (by
      intro rule hr
      obtain rfl := List.mem_singleton.1 hr
      exact ⟨rfl, rfl⟩) (by
      intro token htoken hin
      obtain ⟨entry, hentry⟩ := Option.isSome_iff_exists.1 htoken
      obtain ⟨-, body, rfl, -⟩ := (build_spec ho).1.wellFormed token entry hentry
      have hmem : '$' ∈ ['K', '1'] := hin.subset (by simp [wrap])
      exact absurd hmem (by decide))
  have hredacted : (passwordBuild.bind fun o => (o.obfuscate zeroMac .stable ['K', '1']).bind
      fun done => done.1.deobfuscate 1 done.2) = some ['Z', 'Z'] := by decide +kernel
  rw [ho, Option.bind_some, hrun, Option.bind_some, hrestored 0] at hredacted
  exact absurd hredacted (by decide)

end SecretObfuscator

end OhMyPi.Secrets
