import OhMyPi.Secrets.RoundTrip

/-! Which secrets are left in a masked text. Each turn removes its own secret; a secret whose turn is
over comes back only when a text that is put in later forms it, by itself or with what stands around
it. -/

namespace OhMyPi.Secrets

open Delimited Substitute

namespace SecretObfuscator

variable {o : SecretObfuscator} {text s : List Char}

/-! ## One turn -/

/-- The text after a turn: the chunks that the turn leaves alone, with the replacement and the
trusted tokens between them. -/
theorem render_eq_mesh {needle : List Char} (hneedle : needle ≠ []) (replacement : List Char)
    (segs : Segments Char) : ∃ chunk rest,
      segs.render (replaceAll needle replacement) (wrap '$') = mesh chunk rest ∧
      (∀ p ∈ rest, p.1 = replacement ∨ ∃ q ∈ segs.found, p.1 = wrap '$' q.2) ∧
      ∀ c ∈ chunk :: rest.map Prod.snd, ¬ needle <:+: c ∧ ∃ g ∈ segs.gaps, c <:+: g := by
  obtain ⟨found, last⟩ := segs
  -- The chunks of one gap.
  have hgap : ∀ g, ∃ chunk rest, replaceAll needle replacement g = mesh chunk rest ∧
      (∀ p ∈ rest, p.1 = replacement) ∧
      ∀ c ∈ chunk :: rest.map Prod.snd, ¬ needle <:+: c ∧ c <:+: g := by
    intro g
    obtain ⟨chunk, chunks, hg, hout, hfree⟩ := replaceAll_eq_mesh hneedle replacement g
    refine ⟨chunk, _, hout, ?_, ?_⟩
    · intro p hp
      obtain ⟨c, -, rfl⟩ := List.mem_map.1 hp
      rfl
    · intro c hc
      rw [List.map_map, show Prod.snd ∘ (replacement, ·) = id from rfl, List.map_id] at hc
      refine ⟨hfree c hc, ?_⟩
      rw [hg]
      refine chunk_infix_mesh ?_
      rwa [List.map_map, show Prod.snd ∘ (needle, ·) = id from rfl, List.map_id]
  induction found with
  | nil =>
    obtain ⟨chunk, rest, hout, hwords, hchunks⟩ := hgap last
    refine ⟨chunk, rest, by rw [Segments.render]; exact hout, fun p hp => .inl (hwords p hp), ?_⟩
    exact fun c hc => ⟨(hchunks c hc).1, last, by simp [Segments.gaps], (hchunks c hc).2⟩
  | cons segment found ih =>
    obtain ⟨g, body⟩ := segment
    obtain ⟨chunk, rest, hout, hwords, hchunks⟩ := hgap g
    obtain ⟨chunk', rest', hout', hwords', hchunks'⟩ := ih
    refine ⟨chunk, rest ++ (wrap '$' body, chunk') :: rest', ?_, ?_, ?_⟩
    · rw [← mesh_append, ← hout, ← hout']
      simp [Segments.render]
    · intro p hp
      rcases List.mem_append.1 hp with hp | hp
      · exact .inl (hwords p hp)
      · rcases List.mem_cons.1 hp with rfl | hp
        · exact .inr ⟨(g, body), List.mem_cons_self, rfl⟩
        · obtain hp | ⟨q, hq, hp⟩ := hwords' p hp
          · exact .inl hp
          · exact .inr ⟨q, List.mem_cons_of_mem _ hq, hp⟩
    · intro c hc
      rw [List.map_append, List.map_cons, ← List.cons_append] at hc
      rcases List.mem_append.1 hc with hc | hc
      · exact ⟨(hchunks c hc).1, g, by simp [Segments.gaps], (hchunks c hc).2⟩
      · obtain ⟨hno, g', hg', hin⟩ := hchunks' c hc
        refine ⟨hno, g', ?_, hin⟩
        simp only [Segments.gaps, List.map_cons, List.cons_append, List.mem_cons] at hg' ⊢
        exact .inr hg'

/-- A turn leaves no occurrence of its own literal, and makes none of a literal that is absent. -/
theorem not_infix_replaceLiteralOutside {needle replacement : List Char} (hneedle : needle ≠ [])
    (htoken : ∀ body, o.trusted body = true → ¬ Forms (wrap '$' body) s)
    (hforms : ¬ Forms replacement s) (hs : s = needle ∨ ¬ s <:+: text) :
    ¬ s <:+: o.replaceLiteralOutside needle replacement text := by
  rw [replaceLiteralOutside]
  split
  · next hskip =>
    rcases hskip with hnil | rfl
    · exact absurd hnil hneedle
    · rcases hs with rfl | hs
      · exact absurd (forms_self hneedle) hforms
      · exact hs
  · intro hin
    obtain ⟨chunk, rest, hout, hwords, hchunks⟩ :=
      render_eq_mesh hneedle replacement (o.outside text)
    rw [hout] at hin
    have hrest : ∀ p ∈ rest, ¬ Forms p.1 s := by
      intro p hp
      rcases hwords p hp with heq | ⟨q, hq, heq⟩
      · rwa [heq]
      · rw [heq]
        exact htoken q.2 (accept_of_mem_found hq)
    -- The occurrence lies in a chunk, and so in the text before the turn.
    obtain ⟨c, hc, hin⟩ : ∃ c ∈ chunk :: rest.map Prod.snd, s <:+: c := by
      rcases infix_mesh hrest hin with hin | ⟨p, hp, hin⟩
      · exact ⟨chunk, List.mem_cons_self, hin⟩
      · exact ⟨p.2, List.mem_cons_of_mem _ (List.mem_map_of_mem hp), hin⟩
    obtain ⟨hno, g, hg, hcg⟩ := hchunks c hc
    rcases hs with rfl | hs
    · exact hno hin
    · exact hs ((hin.trans hcg).trans (infix_of_mem_gaps hg))

/-- A literal that has had its turn stays away when no later replacement forms it. -/
theorem not_infix_foldl {turns : List (List Char × List Char)}
    (hne : ∀ turn ∈ turns, turn.1 ≠ [])
    (htoken : ∀ body, o.trusted body = true → ¬ Forms (wrap '$' body) s)
    (hforms : ∀ turn ∈ turns, ¬ Forms turn.2 s) (h : ¬ s <:+: text) :
    ¬ s <:+: turns.foldl (fun text turn => o.replaceLiteralOutside turn.1 turn.2 text) text := by
  induction turns generalizing text with
  | nil => exact h
  | cons turn turns ih =>
    exact ih (fun t ht => hne t (List.mem_cons_of_mem _ ht))
      (fun t ht => hforms t (List.mem_cons_of_mem _ ht))
      (not_infix_replaceLiteralOutside (hne turn List.mem_cons_self) htoken
        (hforms turn List.mem_cons_self) (.inr h))

/-! ## All turns -/

/-- What a rule in replace mode puts in the place of its literal. -/
def insertedBy (rule : SecretRule) : List Char :=
  rule.replacement.getD (generatedReplacement rule.content)

/-- No text that is put in forms a secret whose turn is over: not a token any secret, not the
replacement of a literal one that is at least as long, and not that of the key a literal in replace
mode. -/
structure Harmless (o : SecretObfuscator) : Prop where
  tokens : ∀ body, o.trusted body = true → ∀ rule ∈ o.rules, rule.kind = .plain →
    ¬ Forms (wrap '$' body) rule.content
  replacements : ∀ rule ∈ o.rules, ∀ rule' ∈ o.rules, rule.isPlain .replace = true →
    rule'.isPlain .replace = true → Text.byteLen rule.content ≤ Text.byteLen rule'.content →
      ¬ Forms (insertedBy rule) rule'.content
  key : ∀ k, o.key = some k → k ≠ [] → ∀ rule ∈ o.rules, rule.isPlain .replace = true →
    ¬ Forms (generatedReplacement k) rule.content

theorem mem_replaceTurns {sorting : Sorting} (h : turn ∈ o.replaceTurns sorting) :
    ∃ rule ∈ o.rules, rule.isPlain .replace = true ∧
      turn = (rule.content, insertedBy rule) := by
  obtain ⟨rule, hrule, rfl⟩ := List.mem_map.1 h
  obtain ⟨hmem, hplain⟩ := List.mem_filter.1 ((mem_sort sorting).1 hrule)
  exact ⟨rule, hmem, hplain, rfl⟩

theorem Held.exists_trusted (ho : o.Held) {sorting : Sorting}
    (h : turn ∈ o.placeholderTurns sorting) :
    turn.1 ≠ [] ∧ ∃ body, turn.2 = wrap '$' body ∧ o.trusted body = true := by
  obtain ⟨s, p⟩ := turn
  have hmem : (s, p) ∈ o.plainPlaceholders := (mem_sort sorting).1 h
  obtain ⟨body, hp, -, htrusted, -⟩ := ho.exists_body hmem
  obtain ⟨rule, -, -, hs⟩ := ho.declared s p hmem
  exact ⟨hs ▸ rule.content_ne, body, hp, htrusted⟩

theorem Held.turn_ne_nil (ho : o.Held) (sorting : Sorting) (h : turn ∈ o.plainTurns sorting) :
    turn.1 ≠ [] := by
  rw [plainTurns, List.mem_append, List.mem_append] at h
  rcases h with (h | h) | h
  · obtain ⟨rule, -, -, rfl⟩ := mem_replaceTurns h
    exact rule.content_ne
  · obtain ⟨k, -, hk, rfl⟩ := mem_keyTurns.1 h
    exact hk
  · exact (ho.exists_trusted h).1

/-- A secret's turn, and the turns behind it: none of their replacements forms the secret. -/
theorem Harmless.exists_turn (h : o.Harmless) (ho : o.Ready) (sorting : Sorting)
    (hrule : rule ∈ o.rules) (hplain : rule.kind = .plain) : ∃ before turn after,
      o.plainTurns sorting = before ++ turn :: after ∧ turn.1 = rule.content ∧
      ∀ t ∈ turn :: after, ¬ Forms t.2 rule.content := by
  have htokens : ∀ t ∈ o.placeholderTurns sorting, ¬ Forms t.2 rule.content := by
    intro t ht
    obtain ⟨-, body, heq, htrusted⟩ := ho.toHeld.exists_trusted ht
    rw [heq]
    exact h.tokens body htrusted rule hrule hplain
  cases hmode : rule.mode with
  | obfuscate =>
    have hmem := ho.complete rule hrule (by simp [SecretRule.isPlain, hplain, hmode])
    obtain ⟨turn, hp, hs⟩ := List.mem_map.1 hmem
    have hturn : turn ∈ o.placeholderTurns sorting := (mem_sort sorting).2 hp
    obtain ⟨before, after, hsplit⟩ := List.append_of_mem hturn
    refine ⟨o.replaceTurns sorting ++ o.keyTurns ++ before, turn, after, ?_, hs, ?_⟩
    · rw [plainTurns, hsplit]
      simp
    · intro t ht
      exact htokens t (hsplit ▸ List.mem_append_right _ ht)
  | replace =>
    have hreplace : rule.isPlain .replace = true := by simp [SecretRule.isPlain, hplain, hmode]
    have hsorted := sorting.sorted (fun rule => Text.byteLen rule.content)
      (o.rules.filter (SecretRule.isPlain .replace))
    have hturns : o.replaceTurns sorting = (sorting.sort (fun rule => Text.byteLen rule.content)
      (o.rules.filter (SecretRule.isPlain .replace))).map fun r =>
        (r.content, insertedBy r) := rfl
    have hmem : rule ∈ sorting.sort (fun rule => Text.byteLen rule.content)
        (o.rules.filter (SecretRule.isPlain .replace)) :=
      (mem_sort sorting).2 (List.mem_filter.2 ⟨hrule, hreplace⟩)
    have hof : ∀ r ∈ sorting.sort (fun rule => Text.byteLen rule.content)
        (o.rules.filter (SecretRule.isPlain .replace)), r ∈ o.rules ∧ r.isPlain .replace = true :=
      fun r hr => List.mem_filter.1 ((mem_sort sorting).1 hr)
    generalize sorting.sort (fun rule : SecretRule => Text.byteLen rule.content)
      (o.rules.filter (SecretRule.isPlain .replace)) = sorted at hsorted hturns hmem hof
    obtain ⟨before, after, rfl⟩ := List.append_of_mem hmem
    -- The rules behind it are no longer.
    have hafter : ∀ r ∈ rule :: after, Text.byteLen r.content ≤ Text.byteLen rule.content := by
      intro r hr
      rcases List.mem_cons.1 hr with rfl | hr
      · exact Nat.le_refl _
      · exact (List.pairwise_cons.1 (List.pairwise_append.1 hsorted).2.1).1 r hr
    refine ⟨before.map fun r => (r.content, insertedBy r), (rule.content, insertedBy rule),
      (after.map fun r => (r.content, insertedBy r)) ++ o.keyTurns ++
        o.placeholderTurns sorting, ?_, rfl, ?_⟩
    · rw [plainTurns, hturns]
      simp
    · intro t ht
      rw [← List.cons_append, ← List.cons_append, List.mem_append, List.mem_append] at ht
      rcases ht with (ht | ht) | ht
      · obtain ⟨r, hr, rfl⟩ : ∃ r ∈ rule :: after, (r.content, insertedBy r) = t :=
          List.mem_map.1 ht
        obtain ⟨hrmem, hrplain⟩ := hof r (List.mem_append_right _ hr)
        exact h.replacements r hrmem rule hrule hrplain hreplace (hafter r hr)
      · obtain ⟨k, hk, hne, rfl⟩ := mem_keyTurns.1 ht
        exact h.key k hk hne rule hrule hreplace
      · exact htokens t ht

/-- Behind the plain turns no plain secret is left. -/
theorem Harmless.not_infix_obfuscatePlain (h : o.Harmless) (ho : o.Ready) (sorting : Sorting)
    (text : List Char) (hrule : rule ∈ o.rules) (hplain : rule.kind = .plain) :
    ¬ rule.content <:+: o.obfuscatePlain sorting text := by
  obtain ⟨before, turn, after, hsplit, hturn, hforms⟩ := h.exists_turn ho sorting hrule hplain
  have hne : ∀ t ∈ turn :: after, t.1 ≠ [] := fun t ht =>
    ho.toHeld.turn_ne_nil sorting (hsplit ▸ List.mem_append_right _ ht)
  have htoken : ∀ body, o.trusted body = true → ¬ Forms (wrap '$' body) rule.content :=
    fun body hb => h.tokens body hb rule hrule hplain
  rw [obfuscatePlain, hsplit, List.foldl_append, List.foldl_cons]
  exact not_infix_foldl (fun t ht => hne t (List.mem_cons_of_mem _ ht)) htoken
    (fun t ht => hforms t (List.mem_cons_of_mem _ ht))
    (not_infix_replaceLiteralOutside (hne turn List.mem_cons_self) htoken
      (hforms turn List.mem_cons_self) (.inl hturn.symm))

/-- An occurrence of `s` that does not lie inside a trusted token of the text. -/
def Survives (o : SecretObfuscator) (s text : List Char) : Prop := ∃ a b, text = a ++ s ++ b ∧
  ∀ before gap body after, (o.outside text).found = before ++ (gap, body) :: after →
    ¬ (((Segments.mk before gap).render id (wrap '$')).length ≤ a.length ∧
      a.length + s.length ≤
        ((Segments.mk before gap).render id (wrap '$')).length + (wrap '$' body).length)

theorem compiled_plain : (none : Option Regex).isSome = true ↔ SecretKind.plain = .regex := by
  simp

/-- Two literals in replace mode, one of them replaced by nothing. -/
def joinRules (replacement : List Char) : List SecretRule :=
  [{ kind := .plain
     mode := .replace
     content := ['a', 'b', 'c', 'd']
     replacement := some ['*']
     long := by rintro - ⟨⟩
     compiled := compiled_plain },
   { kind := .plain
     mode := .replace
     content := ['x', 'y']
     replacement := some replacement
     long := by rintro - ⟨⟩
     compiled := compiled_plain }]

/-- Replaced by a star, neither forms the other. -/
theorem harmless_joinRules {mac : Mac} (ho : build mac (joinRules ['*']) none none = some o) :
    o.Harmless ∧ o.key = none := by
  cases ho
  have hall : ∀ rule ∈ joinRules ['*'], insertedBy rule = ['*'] ∧ '*' ∉ rule.content := by
    simp [joinRules, insertedBy]
  refine ⟨⟨fun body hb => ?_, fun rule hr rule' hr' _ _ _ => ?_, fun k hk => ?_⟩, rfl⟩
  · cases hb
  · rw [(hall rule hr).1]
    refine not_forms_of_disjoint (by decide) rule'.content_ne fun x hx => ?_
    rw [List.mem_singleton.1 hx]
    exact (hall rule' hr').2
  · cases hk

end SecretObfuscator

end OhMyPi.Secrets
