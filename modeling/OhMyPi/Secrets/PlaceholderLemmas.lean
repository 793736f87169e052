import OhMyPi.Secrets.Placeholder

/-! Which texts are placeholders, and what the registry keeps: every token it holds is a placeholder
of the grammar, and a token once registered stands for the same secret ever after. -/

namespace OhMyPi.Secrets

open Delimited

/-! ## The grammar -/

theorem isTagChar_ne {c x : Char} (h : isTagChar c = true) (hx : isTagChar x = false) : c ≠ x := by
  rintro rfl
  rw [h] at hx
  cases hx

/-- Nothing but tag characters. -/
def Tag (text : List Char) : Prop := ∀ c ∈ text, isTagChar c = true

theorem Tag.not_mem {x : Char} (h : Tag t) (hx : isTagChar x = false) : x ∉ t :=
  fun hmem => isTagChar_ne (h x hmem) hx rfl

theorem all_isTagChar : t.all isTagChar = true ↔ Tag t := List.all_eq_true

theorem isHint_iff {hint : List Char} :
    isHint hint = true ↔ ∃ h : CaseHint, hint = [h.suffix] := by
  constructor
  · intro h
    simp only [isHint, Bool.or_eq_true, decide_eq_true_eq] at h
    rcases h with ((rfl | rfl) | rfl) | rfl
    · exact ⟨.upper, rfl⟩
    · exact ⟨.lower, rfl⟩
    · exact ⟨.capitalized, rfl⟩
    · exact ⟨.mixed, rfl⟩
  · rintro ⟨h, rfl⟩
    cases h <;> rfl

theorem isTagChar_suffix (h : CaseHint) : isTagChar h.suffix = true := by cases h <;> rfl

/-- The parts of a placeholder: an optional label with its underscore, a base, an optional hint with
its colon. -/
structure Parts (front base tail : List Char) : Prop where
  label : front = [] ∨ ∃ label, label ≠ [] ∧ Tag label ∧ front = label ++ ['_']
  tag : Tag base
  long : 4 ≤ base.length
  hint : tail = [] ∨ ∃ h : CaseHint, tail = [':', h.suffix]

theorem validBaseAndHint_iff {value : List Char} : validBaseAndHint value = true ↔
    ∃ base tail, value = base ++ tail ∧ Parts [] base tail := by
  constructor
  · intro h
    rw [validBaseAndHint] at h
    split at h
    · simp only [Bool.and_eq_true, decide_eq_true_eq, all_isTagChar] at h
      exact ⟨value, [], by simp, .inl rfl, h.2, h.1, .inl rfl⟩
    · next base hint hsplit =>
      simp only [Bool.and_eq_true, decide_eq_true_eq, all_isTagChar] at h
      obtain ⟨c, rfl⟩ := isHint_iff.1 h.2
      exact ⟨base, [':', c.suffix], (Text.splitOnce_eq_some hsplit).1, .inl rfl, h.1.2, h.1.1,
        .inr ⟨c, rfl⟩⟩
  · rintro ⟨base, tail, rfl, hparts⟩
    have hcolon : ':' ∉ base := hparts.tag.not_mem rfl
    rw [validBaseAndHint]
    rcases hparts.hint with rfl | ⟨c, rfl⟩
    · rw [List.append_nil, Text.splitOnce_eq_none.2 hcolon]
      simp only [Bool.and_eq_true, decide_eq_true_eq, all_isTagChar]
      exact ⟨hparts.long, hparts.tag⟩
    · rw [Text.splitOnce_append hcolon]
      simp only [Bool.and_eq_true, decide_eq_true_eq, all_isTagChar]
      exact ⟨⟨hparts.long, hparts.tag⟩, isHint_iff.2 ⟨c, rfl⟩⟩

/-- A base and its hint hold no underscore. -/
theorem Parts.underscore_not_mem {front base tail : List Char} (h : Parts front base tail) : '_' ∉ base ++ tail := by
  intro hmem
  rcases List.mem_append.1 hmem with hmem | hmem
  · exact h.tag.not_mem rfl hmem
  · rcases h.hint with rfl | ⟨c, rfl⟩
    · cases hmem
    · cases c <;> simp [CaseHint.suffix] at hmem

theorem validBody_iff {body : List Char} : validBody body = true ↔
    ∃ front base tail, body = front ++ (base ++ tail) ∧ Parts front base tail := by
  rw [validBody]
  constructor
  · intro h
    split at h
    · obtain ⟨base, tail, rfl, hparts⟩ := validBaseAndHint_iff.1 h
      exact ⟨[], base, tail, rfl, hparts⟩
    · next label value hsplit =>
      obtain ⟨rfl, -⟩ := Text.splitOnce_eq_some hsplit
      split at h
      · cases h
      · next hlabel =>
        simp only [Bool.or_eq_true, Bool.not_eq_true', not_or, Bool.not_eq_false,
          List.isEmpty_iff, all_isTagChar] at hlabel
        obtain ⟨base, tail, rfl, hparts⟩ := validBaseAndHint_iff.1 h
        exact ⟨label ++ ['_'], base, tail, by simp,
          .inr ⟨label, hlabel.1, hlabel.2, rfl⟩, hparts.tag, hparts.long, hparts.hint⟩
  · rintro ⟨front, base, tail, rfl, hparts⟩
    have hvalue : validBaseAndHint (base ++ tail) = true :=
      validBaseAndHint_iff.2 ⟨base, tail, rfl, .inl rfl, hparts.tag, hparts.long, hparts.hint⟩
    rcases hparts.label with rfl | ⟨label, hne, htag, rfl⟩
    · rw [List.nil_append, Text.splitOnce_eq_none.2 hparts.underscore_not_mem]
      exact hvalue
    · have hlabel : (label.isEmpty || !label.all isTagChar) = false := by
        simp [all_isTagChar.2 htag, hne]
      rw [List.append_assoc, List.singleton_append, Text.splitOnce_append (htag.not_mem rfl)]
      simp only
      rw [hlabel]
      exact hvalue

theorem dollar_not_mem_of_validBody {body : List Char} (h : validBody body = true) :
    '$' ∉ body := by
  obtain ⟨front, base, tail, rfl, hparts⟩ := validBody_iff.1 h
  simp only [List.mem_append, not_or]
  refine ⟨?_, hparts.tag.not_mem rfl, ?_⟩
  · rcases hparts.label with rfl | ⟨label, -, htag, rfl⟩
    · exact List.not_mem_nil
    · simpa using htag.not_mem rfl
  · rcases hparts.hint with rfl | ⟨c, rfl⟩
    · exact List.not_mem_nil
    · cases c <;> simp [CaseHint.suffix]

theorem ne_nil_of_validBody {body : List Char} (h : validBody body = true) : body ≠ [] := by
  obtain ⟨front, base, tail, rfl, hparts⟩ := validBody_iff.1 h
  have hlong := hparts.long
  intro hnil
  simp only [List.append_eq_nil_iff] at hnil
  simp [hnil.2.1] at hlong

/-! ## Minted placeholders -/

theorem isTagChar_hashChar (n : Nat) : isTagChar (hashChars.getD (n % 36) 'A') = true := by
  have h : ∀ i : Fin 36, isTagChar (hashChars.getD i 'A') = true := by decide
  exact h ⟨n % 36, Nat.mod_lt _ (by omega)⟩

theorem tag_base36 (n value : Nat) : Tag (base36 n value) := by
  induction n generalizing value with
  | zero => exact fun _ h => absurd h List.not_mem_nil
  | succ n ih =>
    intro c hc
    rcases List.mem_cons.1 hc with rfl | hc
    · exact isTagChar_hashChar value
    · exact ih _ c hc

theorem length_base36 (n value : Nat) : (base36 n value).length = n := by
  induction n generalizing value with
  | zero => rfl
  | succ n ih => rw [base36, List.length_cons, ih]

theorem isTagChar_toUpper {c : Char} (h : c.isAlphanum = true) : isTagChar c.toUpper = true := by
  cases hlower : c.isLower with
  | true =>
    have hletters : ∀ i : Fin 26, isTagChar (Char.ofNat (97 + i)).toUpper = true := by decide
    have hrange := Bool.and_eq_true_iff.1 hlower
    have hlo : 97 ≤ c.toNat := UInt32.le_iff_toNat_le.1 (of_decide_eq_true hrange.1)
    have hhi : c.toNat ≤ 122 := UInt32.le_iff_toNat_le.1 (of_decide_eq_true hrange.2)
    have hi := hletters ⟨c.toNat - 97, by omega⟩
    rwa [Nat.add_sub_cancel' hlo, Char.ofNat_toNat] at hi
  | false =>
    have hsame : c.toUpper = c := dif_neg fun hl => by
      have hlower' : c.isLower = true :=
        Bool.and_eq_true_iff.2 ⟨decide_eq_true hl.1, decide_eq_true hl.2⟩
      rw [hlower] at hlower'
      cases hlower'
    have hupper : (c.isUpper || c.isDigit) = true := by
      rcases Bool.or_eq_true_iff.1 h with halpha | hdigit
      · rcases Bool.or_eq_true_iff.1 halpha with hupper | hlower'
        · rw [hupper, Bool.true_or]
        · rw [hlower] at hlower'
          cases hlower'
      · rw [hdigit, Bool.or_true]
    rw [hsame, isTagChar, hupper]

theorem tag_sanitizeForCollisionCheck (value : List Char) : Tag (sanitizeForCollisionCheck value) := by
  intro c hc
  obtain ⟨x, hx, rfl⟩ := List.mem_map.1 hc
  exact isTagChar_toUpper (List.mem_filter.1 hx).2

namespace PlaceholderRegistry

theorem chosenLabel_eq_some {r : PlaceholderRegistry} {secret : List Char}
    {friendlyName : Option (List Char)} (h : r.chosenLabel secret friendlyName = some label) :
    label ≠ [] ∧ Tag label := by
  cases friendlyName with
  | none => cases h
  | some name =>
    simp only [chosenLabel] at h
    split at h
    · cases h
    · rw [sanitizeFriendlyName] at h
      split at h
      · cases h
      · next hne =>
        cases h
        exact ⟨by simpa using hne,
          fun c hc => tag_sanitizeForCollisionCheck name c (List.mem_of_mem_take hc)⟩

end PlaceholderRegistry

theorem validBody_placeholderBody {base : List Char} (hbase : Tag base) (hlong : 4 ≤ base.length)
    (hint : Option CaseHint) {label : Option (List Char)}
    (hlabel : ∀ l ∈ label, l ≠ [] ∧ Tag l) :
    validBody (placeholderBody hint base label) = true := by
  refine validBody_iff.2 ⟨_, base, _, List.append_assoc .., ?_, hbase, hlong, ?_⟩
  · cases label with
    | none => exact .inl rfl
    | some l => exact .inr ⟨l, (hlabel l rfl).1, (hlabel l rfl).2, rfl⟩
  · cases hint with
    | none => exact .inl rfl
    | some h => exact .inr ⟨h, rfl⟩

theorem attemptBase_tag (mac : Mac) (key secret : List Char) (attempt : Nat) :
    Tag (PlaceholderRegistry.attemptBase mac key secret attempt) ∧
      4 ≤ (PlaceholderRegistry.attemptBase mac key secret attempt).length := by
  rw [PlaceholderRegistry.attemptBase]
  split <;> exact ⟨tag_base36 _ _, by rw [buildHashBase, length_base36]; decide⟩

/-! ## The registry -/

namespace PlaceholderRegistry

/-- Every token is a placeholder, and no entry asks for another scan. -/
def WellFormed (r : PlaceholderRegistry) : Prop := ∀ p entry, r.lookupExact p = some entry →
  entry.recursive = false ∧ ∃ body, p = wrap '$' body ∧ validBody body = true

/-- What `r` restores, `r'` restores alike. -/
def Extends (r r' : PlaceholderRegistry) : Prop := ∀ p entry, r.lookupExact p = some entry →
  ∃ entry', r'.lookupExact p = some entry' ∧ entry'.secret = entry.secret

theorem Extends.refl (r : PlaceholderRegistry) : r.Extends r := fun _ entry h => ⟨entry, h, rfl⟩

theorem Extends.trans (h : Extends r r') (h' : Extends r' r'') : Extends r r'' := by
  intro p entry hp
  obtain ⟨e, he, heq⟩ := h p entry hp
  obtain ⟨e', he', heq'⟩ := h' p e he
  exact ⟨e', he', heq'.trans heq⟩

theorem search_eq_some {r : PlaceholderRegistry}
    (h : r.search mac key secret hint label fuel attempt = some (p, base)) :
    ∃ n, base = attemptBase mac key secret n ∧ p = buildPlaceholder hint base label ∧
      r.available secret base p = true := by
  induction fuel generalizing attempt with
  | zero => cases h
  | succ fuel ih =>
    simp only [search] at h
    split at h
    · next havail =>
      cases h
      exact ⟨attempt, rfl, rfl, havail⟩
    · exact ih h

theorem lookup_orInsert {bare p : List Char} {entry : PlaceholderEntry}
    {entries : List (List Char × PlaceholderEntry)} :
    KeyedList.first p (orInsert bare entry entries) =
      if p = bare then some ((KeyedList.first p entries).getD entry)
      else KeyedList.first p entries := by
  rw [orInsert]
  split
  · next e he =>
    split
    · next hp => rw [hp, he, Option.getD_some]
    · rfl
  · next hnone =>
    split
    · next hp => rw [hp, KeyedList.first_assign_self, hnone, Option.getD_none]
    · next hp => rw [KeyedList.first_assign_ne hp]

/-- The tokens after a registration: the placeholder, its label-free form when that was free, and
the tokens from before. -/
theorem lookupExact_enter {r : PlaceholderRegistry} {secret p base : List Char} {recursive : Bool}
    (q : List Char) : (r.enter secret recursive p base).lookupExact q =
      if q = p then some ⟨secret, recursive⟩
      else if placeholderWithoutFriendlyName p = some q then
        some ((r.lookupExact q).getD ⟨secret, recursive⟩)
      else r.lookupExact q := by
  have hassign : ∀ q, KeyedList.first q (KeyedList.assign p ⟨secret, recursive⟩ r.entries) =
      if q = p then some ⟨secret, recursive⟩ else r.lookupExact q := by
    intro q
    split
    · next hq => rw [hq, KeyedList.first_assign_self]
    · next hq => rw [KeyedList.first_assign_ne hq, lookupExact]
  rw [lookupExact, enter]
  cases hbare : placeholderWithoutFriendlyName p with
  | none => simpa using hassign q
  | some bare =>
    simp only
    rw [lookup_orInsert, hassign]
    by_cases hp : q = p
    · simp [hp]
    · simp only [if_neg hp, Option.some_inj, eq_comm (a := bare)]

theorem validBody_of_bare (h : placeholderWithoutFriendlyName p = some q) :
    ∃ body, q = wrap '$' body ∧ validBody body = true := by
  rw [placeholderWithoutFriendlyName] at h
  split at h
  · cases h
  · split at h
    · cases h
    · next label rest _ =>
      split at h
      · cases h
      · next hok =>
        cases h
        simp only [Bool.or_eq_true, Bool.not_eq_true', not_or, Bool.not_eq_false] at hok
        obtain ⟨base, tail, hrest, hparts⟩ := validBaseAndHint_iff.1 hok.2
        exact ⟨rest, rfl, validBody_iff.2 ⟨[], base, tail, hrest, hparts⟩⟩

/-- What a registration does. -/
theorem register_spec {r r' : PlaceholderRegistry}
    (h : r.register mac key secret friendlyName false = some (r', p)) :
    r'.lookupExact p = some ⟨secret, false⟩ ∧ r.Extends r' ∧ (r.WellFormed → r'.WellFormed) := by
  obtain ⟨⟨p', base⟩, hsearch, heq⟩ := Option.map_eq_some_iff.1 h
  obtain ⟨rfl, rfl⟩ : r.enter secret false p' base = r' ∧ p' = p := by simpa using heq
  obtain ⟨n, rfl, rfl, havail⟩ := search_eq_some hsearch
  simp only [available, Bool.and_eq_true] at havail
  have hvalid : validBody (placeholderBody (inferCaseHint secret)
      (attemptBase mac key secret n) (r.chosenLabel secret friendlyName)) = true :=
    validBody_placeholderBody (attemptBase_tag mac key secret n).1
      (attemptBase_tag mac key secret n).2 _ fun _ hl => chosenLabel_eq_some hl
  refine ⟨by rw [lookupExact_enter, if_pos rfl], ?_, ?_⟩
  · intro q entry hq
    rw [lookupExact_enter]
    split
    · -- The placeholder was registered before: for this secret.
      next hp =>
      rw [← hp, hq] at havail
      exact ⟨_, rfl, by simpa [eq_comm] using havail.2⟩
    · split
      · exact ⟨entry, by rw [hq, Option.getD_some], rfl⟩
      · exact ⟨entry, hq, rfl⟩
  · intro hwf q entry hq
    rw [lookupExact_enter] at hq
    split at hq
    · next hp =>
      cases hq
      exact ⟨rfl, _, hp, hvalid⟩
    · split at hq
      · next hbare =>
        cases hold : r.lookupExact q with
        | none =>
          rw [hold] at hq
          cases hq
          exact ⟨rfl, validBody_of_bare hbare⟩
        | some e =>
          rw [hold] at hq
          cases hq
          exact hwf q e hold
      · exact hwf q entry hq

end PlaceholderRegistry

end OhMyPi.Secrets
