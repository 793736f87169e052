import OhMyPi.Secrets.Survival

/-! Masking a masked text again. A second call repeats the turns of the first; it changes nothing
when every turn leaves the rules that have had theirs, itself included, with nothing to replace. -/

namespace OhMyPi.Secrets

open Delimited Substitute

namespace SecretObfuscator

variable {o : SecretObfuscator} {text : List Char}

/-- A literal that a plain turn looks for. -/
def IsLiteral (o : SecretObfuscator) (s : List Char) : Prop :=
  (∃ rule ∈ o.rules, rule.kind = .plain ∧ rule.content = s) ∨ (o.key = some s ∧ s ≠ [])

/-- The plain turns and the first `n` rules have nothing to replace. -/
structure Settled (mac : Mac) (o : SecretObfuscator) (n : Nat) (text : List Char) : Prop where
  plain : ∀ s, o.IsLiteral s → ¬ s <:+: text
  regex : ∀ rule ∈ o.rules.take n, ∀ regex, rule.regex = some regex →
    regexTurn mac rule regex o text = some (o, text)

/-- No turn undoes what the turns before it have settled: what the plain turns put in forms no
literal whose turn is over, and the turn of an expression leaves it and all turns before it with
nothing to replace. -/
structure Settling (mac : Mac) (o : SecretObfuscator) : Prop extends Harmless o where
  own_key : ∀ k, o.key = some k → k ≠ [] → ¬ Forms (generatedReplacement k) k ∧
    ∀ body, o.trusted body = true → ¬ Forms (wrap '$' body) k
  expression : ∀ {o' o'' : SecretObfuscator} {n : Nat} {rule : SecretRule} {regex : Regex}
    {text text' : List Char}, o.Grows o' → o'.Ready → o.rules[n]? = some rule →
    rule.regex = some regex →
    Settled mac o' n text → regexTurn mac rule regex o' text = some (o'', text') →
      Settled mac o'' (n + 1) text'

/-- The key stays away once it has had its turn. -/
theorem Settling.key_not_infix (h : Settling mac o) (ho : o.Held) (sorting : Sorting)
    (text : List Char) (hkey : o.key = some k) (hne : k ≠ []) :
    ¬ k <:+: o.obfuscatePlain sorting text := by
  have hturns : o.keyTurns = [(k, generatedReplacement k)] := by
    simp [keyTurns, hkey, hne]
  obtain ⟨hown, htoken⟩ := h.own_key k hkey hne
  rw [obfuscatePlain, plainTurns, hturns, List.foldl_append, List.foldl_append, List.foldl_cons,
    List.foldl_nil]
  refine not_infix_foldl (fun t ht => (ho.exists_trusted ht).1) htoken (fun t ht => ?_)
    (not_infix_replaceLiteralOutside hne htoken hown (.inl rfl))
  obtain ⟨-, body, heq, htrusted⟩ := ho.exists_trusted ht
  rw [heq]
  exact htoken body htrusted

theorem Settling.settled_zero (h : Settling mac o) (ho : o.Ready) (sorting : Sorting)
    (text : List Char) : Settled mac o 0 (o.obfuscatePlain sorting text) where
  plain s hs := by
    rcases hs with ⟨rule, hrule, hplain, rfl⟩ | ⟨hkey, hne⟩
    · exact h.not_infix_obfuscatePlain ho sorting text hrule hplain
    · exact h.key_not_infix ho.toHeld sorting text hkey hne
  regex rule hr := absurd hr (by simp)

/-- The expressions that are left settle the text one by one. -/
theorem Settling.settled_obfuscateRegex (h : Settling mac o) (ho : o.Ready)
    {o' o'' : SecretObfuscator} (hgrows : o.Grows o') (hn : Settled mac o' n text)
    (hrun : obfuscateRegex mac (o.rules.drop n) o' text = some (o'', masked)) :
    Settled mac o'' o.rules.length masked := by
  -- Induction on the number of rules that are left.
  induction hleft : o.rules.length - n generalizing n o' text with
  | zero =>
    rw [List.drop_eq_nil_of_le (by omega)] at hrun
    cases hrun
    refine ⟨hn.plain, fun rule hr regex hregex => hn.regex rule ?_ regex hregex⟩
    rw [hgrows.rules, List.take_length] at hr
    rwa [hgrows.rules, List.take_of_length_le (by omega)]
  | succ left ih =>
    have hlt : n < o.rules.length := by omega
    rw [List.drop_eq_getElem_cons hlt, obfuscateRegex] at hrun
    split at hrun
    · next hnone =>
      refine ih hgrows ⟨hn.plain, fun rule hr regex hregex => ?_⟩ hrun (by omega)
      rw [hgrows.rules, List.take_add_one, List.getElem?_eq_getElem hlt, Option.toList_some,
        List.mem_append, List.mem_singleton] at hr
      rcases hr with hr | rfl
      · exact hn.regex rule (hgrows.rules ▸ hr) regex hregex
      · rw [hnone] at hregex
        cases hregex
    · next regex hsome =>
      split at hrun
      · cases hrun
      · next o₁ text₁ hturn =>
        have hnext := h.expression hgrows (hgrows.ready ho) (List.getElem?_eq_getElem hlt) hsome
          hn hturn
        exact ih (hgrows.trans (grows_regexGaps hturn)) hnext hrun (by omega)

/-- A settled text passes every turn unchanged. -/
theorem Settled.obfuscate_eq (ho : o.Held) (h : Settled mac o o.rules.length text)
    (sorting : Sorting) : o.obfuscate mac sorting text = some (o, text) := by
  have hplain : o.obfuscatePlain sorting text = text := by
    refine foldl_of_not_infix fun turn ht => h.plain turn.1 ?_
    rw [plainTurns, List.mem_append, List.mem_append] at ht
    rcases ht with (ht | ht) | ht
    · obtain ⟨rule, hrule, hreplace, rfl⟩ := mem_replaceTurns ht
      simp only [SecretRule.isPlain, Bool.and_eq_true, decide_eq_true_eq] at hreplace
      exact .inl ⟨rule, hrule, hreplace.1, rfl⟩
    · obtain ⟨k, hk, hne, rfl⟩ := mem_keyTurns.1 ht
      exact .inr ⟨hk, hne⟩
    · have hmem : (turn.1, turn.2) ∈ o.plainPlaceholders := (mem_sort sorting).1 ht
      obtain ⟨rule, hrule, hobfuscate, hs⟩ := ho.declared turn.1 turn.2 hmem
      simp only [SecretRule.isPlain, Bool.and_eq_true, decide_eq_true_eq] at hobfuscate
      exact .inl ⟨rule, hrule, hobfuscate.1, hs⟩
  have hregex : ∀ rules, (∀ rule ∈ rules, rule ∈ o.rules) →
      obfuscateRegex mac rules o text = some (o, text) := by
    intro rules hsub
    induction rules with
    | nil => rfl
    | cons rule rules ih =>
      rw [obfuscateRegex]
      split
      · exact ih fun r hr => hsub r (List.mem_cons_of_mem _ hr)
      · next regex hsome =>
        have hrule : rule ∈ o.rules.take o.rules.length := by
          rw [List.take_length]
          exact hsub rule List.mem_cons_self
        rw [h.regex rule hrule regex hsome]
        exact ih fun r hr => hsub r (List.mem_cons_of_mem _ hr)
  rw [obfuscate, hplain]
  split
  · rfl
  · exact hregex o.rules fun _ hr => hr

end SecretObfuscator

end OhMyPi.Secrets
