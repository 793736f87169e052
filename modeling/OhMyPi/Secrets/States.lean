import OhMyPi.Secrets.Obfuscator
import OhMyPi.Secrets.PlaceholderLemmas

/-! The states of a transform: what `build` leaves, and what a call of `obfuscate` can change. A
call only adds: it may resolve the key and register the secrets that an expression has found. -/

namespace OhMyPi.Secrets

open Delimited

namespace SecretObfuscator

/-! ## What `build` leaves -/

/-- Every placeholder in use is registered for its secret. -/
structure Held (o : SecretObfuscator) : Prop where
  wellFormed : o.registry.WellFormed
  registered : ∀ s p, (s, p) ∈ o.plainPlaceholders →
    ∃ entry, o.registry.lookupExact p = some entry ∧ entry.secret = s
  declared : ∀ s p, (s, p) ∈ o.plainPlaceholders →
    ∃ rule ∈ o.rules, rule.isPlain .obfuscate = true ∧ rule.content = s

/-- Every secret in obfuscate mode has a placeholder, too. -/
structure Ready (o : SecretObfuscator) : Prop extends Held o where
  complete : ∀ rule ∈ o.rules, rule.isPlain .obfuscate = true →
    rule.content ∈ o.plainPlaceholders.map Prod.fst

private theorem registerAll_spec {mac : Mac} {key : List Char} {o o' : SecretObfuscator}
    {rules : List SecretRule} (h : registerAll mac key rules o = some o') (ho : o.Held)
    (hsub : ∀ rule ∈ rules, rule ∈ o.rules) : o'.Held ∧ o'.rules = o.rules ∧ o'.key = o.key ∧
      (∀ s ∈ o.plainPlaceholders.map Prod.fst, s ∈ o'.plainPlaceholders.map Prod.fst) ∧
      ∀ rule ∈ rules, rule.isPlain .obfuscate = true →
        rule.content ∈ o'.plainPlaceholders.map Prod.fst := by
  induction rules generalizing o with
  | nil =>
    cases h
    exact ⟨ho, rfl, rfl, fun _ hs => hs, fun _ hr => absurd hr List.not_mem_nil⟩
  | cons rule rules ih =>
    have hsub' : ∀ r ∈ rules, r ∈ o.rules := fun r hr => hsub r (List.mem_cons_of_mem _ hr)
    rw [registerAll] at h
    split at h
    · next hrule =>
      split at h
      · cases h
      · next registry placeholder hregister =>
        obtain ⟨hnew, hext, hkeep⟩ := PlaceholderRegistry.register_spec hregister
        have hheld : Held { o with
            registry := registry
            plainPlaceholders := KeyedList.assign rule.content placeholder o.plainPlaceholders } := by
          refine ⟨hkeep ho.wellFormed, fun s p hp => ?_, fun s p hp => ?_⟩
          · rcases KeyedList.eq_or_mem_of_mem_assign hp with heq | hp
            · cases heq
              exact ⟨_, hnew, rfl⟩
            · obtain ⟨entry, hentry, hs⟩ := ho.registered s p hp
              obtain ⟨entry', hentry', heq⟩ := hext p entry hentry
              exact ⟨entry', hentry', heq.trans hs⟩
          · rcases KeyedList.eq_or_mem_of_mem_assign hp with heq | hp
            · cases heq
              exact ⟨rule, hsub rule List.mem_cons_self, hrule, rfl⟩
            · exact ho.declared s p hp
        obtain ⟨ho', hrules, hkey, hmono, hall⟩ := ih h hheld hsub'
        refine ⟨ho', hrules, hkey, fun s hs => hmono s (KeyedList.mem_keys_assign.2 (.inr hs)), ?_⟩
        intro r hr hplain
        rcases List.mem_cons.1 hr with rfl | hr
        · exact hmono _ (KeyedList.mem_keys_assign.2 (.inl rfl))
        · exact hall r hr hplain
    · next hrule =>
      obtain ⟨ho', hrules, hkey, hmono, hall⟩ := ih h ho hsub'
      refine ⟨ho', hrules, hkey, hmono, fun r hr hplain => ?_⟩
      rcases List.mem_cons.1 hr with rfl | hr
      · exact absurd hplain hrule
      · exact hall r hr hplain

/-- A built transform is ready. -/
theorem build_spec {mac : Mac} {rules : List SecretRule} {key keyProvider : Option (List Char)}
    {o : SecretObfuscator} (h : build mac rules key keyProvider = some o) :
    o.Ready ∧ o.rules = rules := by
  have hstart : ∀ (key keyProvider : Option (List Char)) (shapes : List (List Char)),
      Held ⟨rules, key, keyProvider, {}, [], shapes⟩ := by
    intro key keyProvider shapes
    refine ⟨?_, fun s p hp => absurd hp List.not_mem_nil, fun s p hp => absurd hp List.not_mem_nil⟩
    intro p entry hp
    cases hp
  have hall : ∀ {k kp shapes o'}, registerAll mac k rules ⟨rules, some k, kp, {}, [], shapes⟩ =
      some o' → o'.Ready ∧ o'.rules = rules := by
    intro k kp shapes o' hrun
    obtain ⟨hheld, hrules, -, -, hcomplete⟩ := registerAll_spec hrun (hstart _ _ _) fun _ hr => hr
    rw [show (SecretObfuscator.mk rules (some k) kp {} [] shapes).rules = rules from rfl] at hrules
    exact ⟨⟨hheld, fun rule hr => hcomplete rule (hrules ▸ hr)⟩, hrules⟩
  rw [build, registerPlainPlaceholders] at h
  cases key with
  | some key => exact hall h
  | none =>
    cases hany : rules.any (SecretRule.isPlain .obfuscate) with
    | true =>
      simp only [Option.isNone_none, Bool.true_and, hany, if_true, resolveKey] at h
      exact hall h
    | false =>
      simp only [Option.isNone_none, Bool.true_and, hany, Bool.false_eq_true, if_false,
        Option.some.injEq] at h
      subst h
      refine ⟨⟨hstart _ _ _, fun rule hr hplain => ?_⟩, rfl⟩
      rw [List.any_eq_false] at hany
      exact absurd hplain (hany rule hr)

/-! ## What a call leaves -/

/-- `o'` comes from `o` by registrations and, perhaps, by resolving the key. -/
structure Grows (o o' : SecretObfuscator) : Prop where
  rules : o'.rules = o.rules
  placeholders : o'.plainPlaceholders = o.plainPlaceholders
  registry : o.registry.Extends o'.registry
  wellFormed : o.registry.WellFormed → o'.registry.WellFormed
  key : ∀ k, o.key = some k → o'.key = some k

theorem Grows.refl (o : SecretObfuscator) : o.Grows o :=
  ⟨rfl, rfl, .refl _, id, fun _ hk => hk⟩

theorem Grows.trans {o o' o'' : SecretObfuscator} (h : o.Grows o') (h' : o'.Grows o'') :
    o.Grows o'' :=
  ⟨h'.rules.trans h.rules, h'.placeholders.trans h.placeholders, h.registry.trans h'.registry,
    fun hwf => h'.wellFormed (h.wellFormed hwf), fun k hk => h'.key k (h.key k hk)⟩

theorem Grows.ready {o o' : SecretObfuscator} (h : o.Grows o') (ho : o.Ready) : o'.Ready where
  wellFormed := h.wellFormed ho.wellFormed
  registered s p hp := by
    obtain ⟨entry, hentry, hs⟩ := ho.registered s p (h.placeholders ▸ hp)
    obtain ⟨entry', hentry', heq⟩ := h.registry p entry hentry
    exact ⟨entry', hentry', heq.trans hs⟩
  declared s p hp := by
    rw [h.rules]
    exact ho.declared s p (h.placeholders ▸ hp)
  complete rule hr hplain := by
    rw [h.placeholders]
    exact ho.complete rule (h.rules ▸ hr) hplain

theorem grows_resolveKey (o : SecretObfuscator) : o.Grows o.resolveKey.1 := by
  rw [resolveKey]
  split
  · exact .refl o
  · next hnone => exact ⟨rfl, rfl, .refl _, id, fun k hk => by rw [hnone] at hk; cases hk⟩

theorem grows_matchReplacement {o o' : SecretObfuscator}
    (h : matchReplacement mac o rule regex before value after = some (o', replacement)) :
    o.Grows o' := by
  rw [matchReplacement] at h
  split at h
  · cases h
    exact .refl o
  · split at h
    · cases h
      exact .refl o
    · split at h
      · split at h
        · cases h
          exact .refl o
        · obtain ⟨r, -, heq⟩ := Option.map_eq_some_iff.1 h
          cases heq
          exact grows_resolveKey o
      · obtain ⟨⟨registry, placeholder⟩, hregister, heq⟩ := Option.map_eq_some_iff.1 h
        cases heq
        obtain ⟨-, hext, hkeep⟩ := PlaceholderRegistry.register_spec hregister
        exact (grows_resolveKey o).trans ⟨rfl, rfl, hext, hkeep, fun _ hk => hk⟩

theorem grows_regexMatches {o o' : SecretObfuscator} {found : List (Nat × Nat)}
    (h : regexMatches mac rule regex left gap right cursor found o = some (o', text)) :
    o.Grows o' := by
  induction found generalizing o text cursor with
  | nil =>
    cases h
    exact .refl _
  | cons span found ih =>
    obtain ⟨start, stop⟩ := span
    rw [regexMatches] at h
    split at h
    · cases h
    · next hmatch =>
      obtain ⟨⟨_, _⟩, hrest, heq⟩ := Option.map_eq_some_iff.1 h
      cases heq
      exact (grows_matchReplacement hmatch).trans (ih hrest)

theorem grows_regexGaps {o o' : SecretObfuscator} {found : List (List Char × List Char)}
    (h : regexGaps mac rule regex last left found o = some (o', text)) : o.Grows o' := by
  induction found generalizing o text left with
  | nil => exact grows_regexMatches h
  | cons segment found ih =>
    obtain ⟨gap, body⟩ := segment
    rw [regexGaps] at h
    split at h
    · cases h
    · next hgap =>
      obtain ⟨⟨_, _⟩, hrest, heq⟩ := Option.map_eq_some_iff.1 h
      cases heq
      exact (grows_regexMatches hgap).trans (ih hrest)

theorem grows_obfuscateRegex {o o' : SecretObfuscator} {rules : List SecretRule}
    (h : obfuscateRegex mac rules o text = some (o', masked)) : o.Grows o' := by
  induction rules generalizing o text with
  | nil =>
    cases h
    exact .refl _
  | cons rule rules ih =>
    rw [obfuscateRegex] at h
    split at h
    · exact ih h
    · split at h
      · cases h
      · next hturn => exact (grows_regexGaps hturn).trans (ih h)

theorem grows_obfuscate {o o' : SecretObfuscator}
    (h : o.obfuscate mac sorting text = some (o', masked)) : o.Grows o' := by
  rw [obfuscate] at h
  split at h
  · cases h
    exact .refl o
  · exact grows_obfuscateRegex h

/-- The states that a session can bring a transform to. -/
inductive Reachable (mac : Mac) : SecretObfuscator → Prop
  | build {rules key keyProvider o} : build mac rules key keyProvider = some o → Reachable mac o
  | obfuscate {sorting o o' text masked} : Reachable mac o →
    o.obfuscate mac sorting text = some (o', masked) → Reachable mac o'

theorem Reachable.ready {o : SecretObfuscator} (h : Reachable mac o) : o.Ready := by
  induction h with
  | build h => exact (build_spec h).1
  | obfuscate _ h ih => exact (grows_obfuscate h).ready ih

end SecretObfuscator

end OhMyPi.Secrets
