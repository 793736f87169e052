import OhMyPi.Secrets.PlaceholderLemmas

/-! Whole sequences of registrations, for any keyed hash: collisions of the truncated names included.
Every token stands for the secret that owns its base, and a base never changes its owner. -/

namespace OhMyPi.Secrets

open Delimited

/-! ## Reading a placeholder -/

/-- A label that a placeholder can carry. -/
def LabelOk (label : Option (List Char)) : Prop := ∀ l ∈ label, l ≠ [] ∧ Tag l

theorem labelOk_none : LabelOk none := fun _ hl => by cases hl

theorem placeholderBody_none (base : List Char) : placeholderBody none base none = base := by
  simp [placeholderBody]

theorem placeholderBody_hint (hint : CaseHint) (base : List Char) :
    placeholderBody (some hint) base none = base ++ ':' :: [hint.suffix] := rfl

/-- The base and the hint hold no underscore. -/
theorem underscore_not_mem {base : List Char} (hbase : Tag base) (hint : Option CaseHint) :
    '_' ∉ placeholderBody hint base none := by
  cases hint with
  | none =>
    rw [placeholderBody_none]
    exact hbase.not_mem rfl
  | some h =>
    rw [placeholderBody_hint, List.mem_append]
    rintro (hmem | hmem)
    · exact hbase.not_mem rfl hmem
    · cases h <;> simp [CaseHint.suffix] at hmem

theorem placeholderBody_some (hint : Option CaseHint) (base label : List Char) :
    placeholderBody hint base (some label) = label ++ '_' :: placeholderBody hint base none := by
  simp [placeholderBody]

theorem splitOnce_placeholderBody {base : List Char} (hbase : Tag base) (hint : Option CaseHint)
    {label : Option (List Char)} (hlabel : LabelOk label) :
    Text.splitOnce '_' (placeholderBody hint base label) =
      label.map fun l => (l, placeholderBody hint base none) := by
  cases label with
  | none => exact Text.splitOnce_eq_none.2 (underscore_not_mem hbase hint)
  | some l =>
    rw [placeholderBody_some, Text.splitOnce_append ((hlabel l rfl).2.not_mem rfl)]
    rfl

/-- The base can be read off a placeholder. -/
theorem base_of_placeholderBody {base base' : List Char} (hbase : Tag base) (hbase' : Tag base')
    {hint hint' : Option CaseHint}
    (h : placeholderBody hint base none = placeholderBody hint' base' none) : base = base' := by
  have hsplit : ∀ {base : List Char}, Tag base → ∀ hint : Option CaseHint,
      Text.splitOnce ':' (placeholderBody hint base none) =
        hint.map fun h => (base, [h.suffix]) := by
    intro base hbase hint
    cases hint with
    | none =>
      rw [placeholderBody_none]
      exact Text.splitOnce_eq_none.2 (hbase.not_mem rfl)
    | some h =>
      rw [placeholderBody_hint, Text.splitOnce_append (hbase.not_mem rfl)]
      rfl
  have heq := hsplit hbase hint
  rw [h, hsplit hbase' hint'] at heq
  cases hint with
  | none =>
    cases hint' with
    | none => simpa [placeholderBody] using h
    | some h' => cases heq
  | some c =>
    cases hint' with
    | none => cases heq
    | some c' => exact (congrArg Prod.fst (Option.some.inj heq)).symm

theorem base_of_buildPlaceholder {base base' : List Char} (hbase : Tag base) (hbase' : Tag base')
    {hint hint' : Option CaseHint} {label label' : Option (List Char)} (hlabel : LabelOk label)
    (hlabel' : LabelOk label')
    (h : buildPlaceholder hint base label = buildPlaceholder hint' base' label') : base = base' := by
  have hbody : placeholderBody hint base label = placeholderBody hint' base' label' := by
    have hstrip := congrArg stripDelimiters h
    rw [buildPlaceholder, buildPlaceholder, stripDelimiters_wrap, stripDelimiters_wrap] at hstrip
    exact Option.some.inj hstrip
  have hsplit := congrArg (Text.splitOnce '_') hbody
  rw [splitOnce_placeholderBody hbase hint hlabel, splitOnce_placeholderBody hbase' hint' hlabel']
    at hsplit
  cases label with
  | none =>
    cases label' with
    | none => exact base_of_placeholderBody hbase hbase' hbody
    | some l' => cases hsplit
  | some l =>
    cases label' with
    | none => cases hsplit
    | some l' =>
      exact base_of_placeholderBody hbase hbase' (congrArg Prod.snd (Option.some.inj hsplit))

/-- The label-free form of a placeholder. -/
theorem withoutFriendlyName_build {base : List Char} (hbase : Tag base) (hlong : 4 ≤ base.length)
    (hint : Option CaseHint) {label : Option (List Char)} (hlabel : LabelOk label) :
    placeholderWithoutFriendlyName (buildPlaceholder hint base label) =
      label.map fun _ => buildPlaceholder hint base none := by
  rw [placeholderWithoutFriendlyName, buildPlaceholder, stripDelimiters_wrap]
  simp only
  rw [splitOnce_placeholderBody hbase hint hlabel]
  cases label with
  | none => rfl
  | some l =>
    obtain ⟨hne, htag⟩ := hlabel l rfl
    have hvalid : validBaseAndHint (placeholderBody hint base none) = true := by
      have := validBody_placeholderBody hbase hlong hint labelOk_none
      rwa [validBody, Text.splitOnce_eq_none.2 (underscore_not_mem hbase hint)] at this
    simp only [Option.map_some]
    rw [hvalid, all_isTagChar.2 htag, List.isEmpty_eq_false_iff.2 hne]
    rfl

namespace PlaceholderRegistry

/-! ## Attempts -/

/-- The search stops at the first attempt that no other secret has taken. -/
theorem search_spec {r : PlaceholderRegistry} {mac : Mac} {key secret : List Char}
    {hint : Option CaseHint} {label : Option (List Char)} {fuel attempt : Nat}
    {found : List Char × List Char}
    (h : r.search mac key secret hint label fuel attempt = some found) :
    ∃ n, attempt ≤ n ∧ n < attempt + fuel ∧ found.2 = attemptBase mac key secret n ∧
      found.1 = buildPlaceholder hint found.2 label ∧ r.available secret found.2 found.1 = true ∧
      ∀ m, attempt ≤ m → m < n → r.available secret (attemptBase mac key secret m)
        (buildPlaceholder hint (attemptBase mac key secret m) label) = false := by
  induction fuel generalizing attempt with
  | zero => cases h
  | succ fuel ih =>
    simp only [search] at h
    split at h
    · next havail =>
      cases h
      exact ⟨attempt, Nat.le_refl _, by omega, rfl, rfl, havail, fun m hle hlt => by omega⟩
    · next htaken =>
      obtain ⟨n, hle, hlt, hbase, hfound, havail, hbefore⟩ := ih h
      refine ⟨n, by omega, by omega, hbase, hfound, havail, fun m hm hmn => ?_⟩
      rcases Nat.eq_or_lt_of_le hm with rfl | hlt'
      · exact Bool.eq_false_iff.2 htaken
      · exact hbefore m hlt' hmn

theorem search_eq {r : PlaceholderRegistry} {mac : Mac} {key secret : List Char}
    {hint : Option CaseHint} {label : Option (List Char)} {fuel attempt n : Nat}
    (hle : attempt ≤ n) (hlt : n < attempt + fuel)
    (havail : r.available secret (attemptBase mac key secret n)
      (buildPlaceholder hint (attemptBase mac key secret n) label) = true)
    (hbefore : ∀ m, attempt ≤ m → m < n → r.available secret (attemptBase mac key secret m)
      (buildPlaceholder hint (attemptBase mac key secret m) label) = false) :
    r.search mac key secret hint label fuel attempt =
      some (buildPlaceholder hint (attemptBase mac key secret n) label,
        attemptBase mac key secret n) := by
  induction fuel generalizing attempt with
  | zero => omega
  | succ fuel ih =>
    simp only [search]
    rcases Nat.eq_or_lt_of_le hle with rfl | hgt
    · rw [if_pos havail]
    · rw [if_neg (Bool.eq_false_iff.1 (hbefore attempt (Nat.le_refl _) hgt))]
      exact ih hgt (by omega) fun m hm => hbefore m (by omega)

/-! ## Owners of bases -/

/-- The secret that owns a base. -/
def owner (r : PlaceholderRegistry) (base : List Char) : Option (List Char) :=
  KeyedList.first base r.bases

/-- Every token stands for the owner of its base. -/
def Coherent (r : PlaceholderRegistry) : Prop := ∀ p entry, r.lookupExact p = some entry →
  ∃ hint base label, p = buildPlaceholder hint base label ∧ Tag base ∧ LabelOk label ∧
    r.owner base = some entry.secret

/-- Bases keep their owners. -/
def Keeps (r r' : PlaceholderRegistry) : Prop :=
  ∀ base secret, r.owner base = some secret → r'.owner base = some secret

/-- The base that the search for a secret ends at: it belongs to the secret, and those tried before
belong to others. -/
def Settled (r : PlaceholderRegistry) (mac : Mac) (key secret base : List Char) : Prop :=
  ∃ n < 2 ^ 32, base = attemptBase mac key secret n ∧ r.owner base = some secret ∧
    ∀ m < n, ∃ other, other ≠ secret ∧ r.owner (attemptBase mac key secret m) = some other

theorem Settled.mono {r r' : PlaceholderRegistry} {mac : Mac} {key secret base : List Char}
    (h : r.Settled mac key secret base) (hkeeps : r.Keeps r') :
    r'.Settled mac key secret base := by
  obtain ⟨n, hn, hbase, howner, hothers⟩ := h
  refine ⟨n, hn, hbase, hkeeps _ _ howner, fun m hm => ?_⟩
  obtain ⟨other, hne, hother⟩ := hothers m hm
  exact ⟨other, hne, hkeeps _ _ hother⟩

/-- A base is available when nobody else owns it; its tokens say the same. -/
theorem Coherent.available_iff {r : PlaceholderRegistry} (h : r.Coherent) {base : List Char}
    (hbase : Tag base) {label : Option (List Char)} (hlabel : LabelOk label)
    (hint : Option CaseHint) (secret : List Char) :
    r.available secret base (buildPlaceholder hint base label) = true ↔
      ∀ other, r.owner base = some other → other = secret := by
  rw [available, Bool.and_eq_true]
  constructor
  · intro havail other hother
    have hbaseFree := havail.1
    rw [← owner, hother] at hbaseFree
    simpa using hbaseFree
  · intro hfree
    constructor
    · rw [← owner]
      cases howner : r.owner base with
      | none => rfl
      | some other => simpa using hfree other howner
    · cases hentry : r.lookupExact (buildPlaceholder hint base label) with
      | none => rfl
      | some entry =>
        obtain ⟨hint', base', label', heq, hbase', hlabel', howner⟩ := h _ _ hentry
        obtain rfl := base_of_buildPlaceholder hbase hbase' hlabel hlabel' heq
        simpa using hfree _ howner

theorem labelOk_chosenLabel (r : PlaceholderRegistry) (secret : List Char)
    (friendlyName : Option (List Char)) : LabelOk (r.chosenLabel secret friendlyName) :=
  fun _ hl => chosenLabel_eq_some hl

theorem owner_enter (r : PlaceholderRegistry) (secret : List Char) (recursive : Bool)
    (p base b : List Char) :
    (r.enter secret recursive p base).owner b = if b = base then some secret else r.owner b := by
  change KeyedList.first b (KeyedList.assign base secret r.bases) = _
  by_cases h : b = base
  · rw [if_pos h, h, KeyedList.first_assign_self]
  · rw [if_neg h, KeyedList.first_assign_ne h, owner]

/-- Tokens with the same base stand for the same secret. -/
theorem Coherent.secret_eq {r : PlaceholderRegistry} (h : r.Coherent) {base secret : List Char}
    (hbase : Tag base) {label : Option (List Char)} (hlabel : LabelOk label)
    {hint : Option CaseHint} {entry : PlaceholderEntry} (howner : r.owner base = some secret)
    (hentry : r.lookupExact (buildPlaceholder hint base label) = some entry) :
    entry.secret = secret := by
  obtain ⟨hint', base', label', heq, hbase', hlabel', howner'⟩ := h _ _ hentry
  obtain rfl := base_of_buildPlaceholder hbase hbase' hlabel hlabel' heq
  exact Option.some.inj (howner'.symm.trans howner)

/-! ## One registration -/

/-- A base that is free or owned by the secret keeps every other owner. -/
theorem keeps_enter {r : PlaceholderRegistry} {secret base : List Char} (recursive : Bool)
    (p : List Char) (hfree : ∀ other, r.owner base = some other → other = secret) :
    r.Keeps (r.enter secret recursive p base) := by
  intro b owner howner
  rw [owner_enter]
  by_cases h : b = base
  · rw [if_pos h, hfree owner (h ▸ howner)]
  · rw [if_neg h, howner]

theorem Coherent.enter {r : PlaceholderRegistry} (h : r.Coherent) {secret base : List Char}
    (hbase : Tag base) (hlong : 4 ≤ base.length) (hint : Option CaseHint)
    {label : Option (List Char)} (hlabel : LabelOk label) (recursive : Bool)
    (hfree : ∀ other, r.owner base = some other → other = secret) :
    (r.enter secret recursive (buildPlaceholder hint base label) base).Coherent := by
  have hkeeps := keeps_enter recursive (buildPlaceholder hint base label) hfree
  have hown : (r.enter secret recursive (buildPlaceholder hint base label) base).owner base =
      some secret := by rw [owner_enter, if_pos rfl]
  -- Tokens from before keep their base, and the base its owner.
  have hold : ∀ q entry, r.lookupExact q = some entry → ∃ hint' base' label',
      q = buildPlaceholder hint' base' label' ∧ Tag base' ∧ LabelOk label' ∧
      (r.enter secret recursive (buildPlaceholder hint base label) base).owner base' =
        some entry.secret := by
    intro q entry hq
    obtain ⟨hint', base', label', heq, hbase', hlabel', howner⟩ := h q entry hq
    exact ⟨hint', base', label', heq, hbase', hlabel', hkeeps _ _ howner⟩
  intro q entry hq
  rw [lookupExact_enter] at hq
  split at hq
  · next hqp =>
    cases hq
    exact ⟨hint, base, label, hqp, hbase, hlabel, hown⟩
  · split at hq
    · next hbare =>
      cases hq
      cases hentry : r.lookupExact q with
      | some e => exact hold q e hentry
      | none =>
        rw [withoutFriendlyName_build hbase hlong hint hlabel] at hbare
        obtain ⟨l, -, rfl⟩ := Option.map_eq_some_iff.1 hbare
        exact ⟨hint, base, none, rfl, hbase, labelOk_none, hown⟩
    · exact hold q entry hq

/-- `lookup`: a token, or else its label-free form. -/
def lookup (r : PlaceholderRegistry) (placeholder : List Char) : Option PlaceholderEntry :=
  match r.lookupExact placeholder with
  | some entry => some entry
  | none =>
    match placeholderWithoutFriendlyName placeholder with
    | some bare => r.lookupExact bare
    | none => none

/-- The token restores to the secret. -/
def Resolves (r : PlaceholderRegistry) (p secret : List Char) : Prop :=
  ∃ entry, r.lookupExact p = some entry ∧ r.lookup p = some entry ∧ entry.secret = secret

/-- What a registration leaves behind. -/
structure Registered (r r' : PlaceholderRegistry) (mac : Mac) (key secret : List Char)
    (label : Option (List Char)) (p base : List Char) : Prop where
  placeholder : p = buildPlaceholder (inferCaseHint secret) base label
  coherent : r'.Coherent
  keeps : r.Keeps r'
  shapes : r'.secretShapes = sanitizeForCollisionCheck secret :: r.secretShapes
  settled : r'.Settled mac key secret base
  tokens : ∀ q, (r.lookupExact q).isSome → (r'.lookupExact q).isSome
  token : (r'.lookupExact p).isSome
  bare : (r'.lookupExact (buildPlaceholder (inferCaseHint secret) base none)).isSome

theorem Coherent.register {r r' : PlaceholderRegistry} (h : r.Coherent) {mac : Mac}
    {key secret p : List Char} {friendlyName : Option (List Char)} {recursive : Bool}
    (hreg : r.register mac key secret friendlyName recursive = some (r', p)) :
    ∃ base, Registered r r' mac key secret (r.chosenLabel secret friendlyName) p base := by
  obtain ⟨⟨p', base⟩, hsearch, heq⟩ := Option.map_eq_some_iff.1 hreg
  obtain ⟨rfl, rfl⟩ : r.enter secret recursive p' base = r' ∧ p' = p := by simpa using heq
  obtain ⟨n, -, hn, hbase, hp, havail, hbefore⟩ := search_spec hsearch
  simp only [Nat.zero_add] at hn hbase hp havail
  have hlabel := labelOk_chosenLabel r secret friendlyName
  have htag : ∀ m, Tag (attemptBase mac key secret m) := fun m => (attemptBase_tag mac key secret m).1
  subst hbase hp
  have hfree := (h.available_iff (htag n) hlabel _ secret).1 havail
  have hkeeps := keeps_enter recursive (buildPlaceholder (inferCaseHint secret)
    (attemptBase mac key secret n) (r.chosenLabel secret friendlyName)) hfree
  refine ⟨_, rfl, h.enter (htag n) (attemptBase_tag mac key secret n).2 _ hlabel recursive hfree,
    hkeeps, rfl, ⟨n, hn, rfl, by rw [owner_enter, if_pos rfl], fun m hm => ?_⟩, fun q hq => ?_,
    ?_, ?_⟩
  · -- An earlier attempt was refused: its base belongs to someone else.
    have htaken : ¬∀ other, r.owner (attemptBase mac key secret m) = some other → other = secret :=
      fun hfree => Bool.eq_false_iff.1 (hbefore m (Nat.zero_le _) hm)
        ((h.available_iff (htag m) hlabel _ secret).2 hfree)
    simp only [not_forall] at htaken
    obtain ⟨other, howner, hne⟩ := htaken
    exact ⟨other, hne, hkeeps _ _ howner⟩
  · rw [lookupExact_enter]
    split
    · rfl
    · split
      · rfl
      · exact hq
  · rw [lookupExact_enter, if_pos rfl]
    rfl
  · rw [lookupExact_enter, withoutFriendlyName_build (htag n)
      (attemptBase_tag mac key secret n).2 _ hlabel]
    cases hl : r.chosenLabel secret friendlyName with
    | none =>
      rw [if_pos rfl]
      rfl
    | some l =>
      split
      · rfl
      · rw [Option.map_some, if_pos rfl]
        rfl

/-! ## Sequences of registrations -/

structure Registration where
  key : List Char
  secret : List Char
  friendlyName : Option (List Char)
  recursive : Bool
deriving DecidableEq, Repr

/-- One call of `register` after the other, with the placeholders that they return. -/
def registerEach (mac : Mac) :
    PlaceholderRegistry → List Registration → Option (PlaceholderRegistry × List (List Char))
  | r, [] => some (r, [])
  | r, reg :: regs =>
    (r.register mac reg.key reg.secret reg.friendlyName reg.recursive).bind fun (r', p) =>
      (registerEach mac r' regs).map fun (r'', ps) => (r'', p :: ps)

/-- The label of a name is dropped when it would give away a registered secret. -/
def NameTaken (r : PlaceholderRegistry) (friendlyName : Option (List Char)) : Prop :=
  ∃ name ∈ friendlyName, ∃ shape ∈ r.secretShapes,
    sanitizedLabelCollidesWithSecret (sanitizeForCollisionCheck name) shape = true

/-- As secrets come in a label stays, or is dropped because of one of them. -/
theorem chosenLabel_grow {r r' : PlaceholderRegistry} (secret : List Char)
    (friendlyName : Option (List Char)) (hsub : r.secretShapes ⊆ r'.secretShapes) :
    r'.chosenLabel secret friendlyName = r.chosenLabel secret friendlyName ∨
      r'.chosenLabel secret friendlyName = none ∧ r'.NameTaken friendlyName := by
  cases friendlyName with
  | none => exact .inl rfl
  | some name =>
    simp only [chosenLabel]
    cases htaken : r'.secretShapes.any
        (sanitizedLabelCollidesWithSecret (sanitizeForCollisionCheck name)) with
    | true =>
      obtain ⟨shape, hshape, hcollides⟩ := List.any_eq_true.1 htaken
      exact .inr ⟨by rw [Bool.or_true, if_pos rfl], name, rfl, shape, hshape, hcollides⟩
    | false =>
      have hfree : r.secretShapes.any
          (sanitizedLabelCollidesWithSecret (sanitizeForCollisionCheck name)) = false := by
        rw [List.any_eq_false] at htaken ⊢
        exact fun shape hshape => htaken shape (hsub hshape)
      exact .inl (by rw [hfree])

/-- What stands of a registration for ever after. -/
structure Stands (r : PlaceholderRegistry) (mac : Mac) (reg : Registration)
    (p base : List Char) (label : Option (List Char)) : Prop where
  placeholder : p = buildPlaceholder (inferCaseHint reg.secret) base label
  labelOk : LabelOk label
  settled : r.Settled mac reg.key reg.secret base
  token : (r.lookupExact p).isSome
  bare : (r.lookupExact (buildPlaceholder (inferCaseHint reg.secret) base none)).isSome
  named : r.chosenLabel reg.secret reg.friendlyName = label ∨
    r.chosenLabel reg.secret reg.friendlyName = none ∧ r.NameTaken reg.friendlyName

/-- What a later registry keeps of an earlier one. -/
structure Later (r r' : PlaceholderRegistry) : Prop where
  keeps : r.Keeps r'
  tokens : ∀ q, (r.lookupExact q).isSome → (r'.lookupExact q).isSome
  shapes : r.secretShapes ⊆ r'.secretShapes

theorem Later.refl (r : PlaceholderRegistry) : r.Later r :=
  ⟨fun _ _ h => h, fun _ h => h, List.Subset.refl _⟩

theorem Later.trans {r r' r'' : PlaceholderRegistry} (h : r.Later r') (h' : r'.Later r'') :
    r.Later r'' :=
  ⟨fun _ _ howner => h'.keeps _ _ (h.keeps _ _ howner), fun q hq => h'.tokens q (h.tokens q hq),
    List.Subset.trans h.shapes h'.shapes⟩

theorem Stands.later {r r' : PlaceholderRegistry} {mac : Mac} {reg : Registration}
    {p base : List Char} {label : Option (List Char)} (h : r.Stands mac reg p base label)
    (hlater : r.Later r') : r'.Stands mac reg p base label := by
  refine ⟨h.placeholder, h.labelOk, h.settled.mono hlater.keeps, hlater.tokens _ h.token,
    hlater.tokens _ h.bare, ?_⟩
  rcases chosenLabel_grow reg.secret reg.friendlyName hlater.shapes with heq | hdropped
  · rw [heq]
    rcases h.named with hlabel | ⟨hnone, name, hname, shape, hshape, hcollides⟩
    · exact .inl hlabel
    · exact .inr ⟨hnone, name, hname, shape, hlater.shapes hshape, hcollides⟩
  · exact .inr hdropped

theorem Registered.later {r r' : PlaceholderRegistry} {mac : Mac} {key secret p base : List Char}
    {label : Option (List Char)} (h : Registered r r' mac key secret label p base) : r.Later r' := by
  refine ⟨h.keeps, h.tokens, ?_⟩
  rw [h.shapes]
  exact List.subset_cons_self _ _

theorem Registered.stands {r r' : PlaceholderRegistry} {mac : Mac} {reg : Registration}
    {p base : List Char}
    (h : Registered r r' mac reg.key reg.secret (r.chosenLabel reg.secret reg.friendlyName) p base) :
    r'.Stands mac reg p base (r.chosenLabel reg.secret reg.friendlyName) :=
  ⟨h.placeholder, labelOk_chosenLabel _ _ _, h.settled, h.token, h.bare,
    chosenLabel_grow reg.secret reg.friendlyName h.later.shapes⟩

/-- What a run of registrations leaves behind. -/
theorem registerEach_spec {mac : Mac} {r r' : PlaceholderRegistry} {regs : List Registration}
    {ps : List (List Char)} (hcoherent : r.Coherent)
    (h : registerEach mac r regs = some (r', ps)) :
    r'.Coherent ∧ r.Later r' ∧ ps.length = regs.length ∧
      (∀ shape ∈ r'.secretShapes, shape ∈ r.secretShapes ∨
        ∃ reg ∈ regs, shape = sanitizeForCollisionCheck reg.secret) ∧
      ∀ reg p, (reg, p) ∈ regs.zip ps → ∃ base label, r'.Stands mac reg p base label := by
  induction regs generalizing r ps with
  | nil =>
    cases h
    exact ⟨hcoherent, Later.refl _, rfl, fun _ hshape => .inl hshape, fun _ _ hmem => by cases hmem⟩
  | cons reg regs ih =>
    simp only [registerEach] at h
    obtain ⟨⟨r₁, p⟩, hreg, h⟩ := Option.bind_eq_some_iff.1 h
    obtain ⟨⟨r₂, ps'⟩, hrest, h⟩ := Option.map_eq_some_iff.1 h
    cases h
    obtain ⟨base, hregistered⟩ := hcoherent.register hreg
    obtain ⟨hcoherent', hlater, hlength, hshapes, hstands⟩ := ih hregistered.coherent hrest
    refine ⟨hcoherent', hregistered.later.trans hlater, by rw [List.length_cons, List.length_cons, hlength],
      fun shape hshape => ?_, fun reg' p' hmem => ?_⟩
    · rcases hshapes shape hshape with hshape | ⟨reg', hreg', heq⟩
      · rw [hregistered.shapes] at hshape
        rcases List.mem_cons.1 hshape with heq | hshape
        · exact .inr ⟨reg, List.mem_cons_self, heq⟩
        · exact .inl hshape
      · exact .inr ⟨reg', List.mem_cons_of_mem _ hreg', heq⟩
    · rw [List.zip_cons_cons] at hmem
      rcases List.mem_cons.1 hmem with heq | hmem
      · cases heq
        exact ⟨base, _, hregistered.stands.later hlater⟩
      · exact hstands reg' p' hmem

/-- A settled secret is found again at its base. -/
theorem Coherent.register_again {r : PlaceholderRegistry} (h : r.Coherent) {mac : Mac}
    {key secret base : List Char} (hsettled : r.Settled mac key secret base)
    (friendlyName : Option (List Char)) (recursive : Bool) :
    ∃ r', r.register mac key secret friendlyName recursive =
      some (r', buildPlaceholder (inferCaseHint secret) base (r.chosenLabel secret friendlyName)) := by
  obtain ⟨n, hn, rfl, howner, hothers⟩ := hsettled
  have hlabel := labelOk_chosenLabel r secret friendlyName
  have htag : ∀ m, Tag (attemptBase mac key secret m) := fun m => (attemptBase_tag mac key secret m).1
  have havail := (h.available_iff (htag n) hlabel (inferCaseHint secret) secret).2
    fun other hother => Option.some.inj (hother.symm.trans howner)
  have hsearch := search_eq (Nat.zero_le n) (by rwa [Nat.zero_add]) havail fun m _ hm => by
    obtain ⟨other, hne, hother⟩ := hothers m hm
    rw [Bool.eq_false_iff]
    intro htaken
    exact hne ((h.available_iff (htag m) hlabel _ secret).1 htaken other hother)
  exact ⟨_, by rw [PlaceholderRegistry.register, hsearch, Option.map_some]⟩

theorem coherent_empty : Coherent {} := by
  intro p entry h
  cases h

/-- Every token of the registry has one base and stands for its owner. Every placeholder that was
returned, and its label-free form, stand for the secret it was returned for. Registering the secret
again under the same key leads to the same base. -/
theorem registry_sound {mac : Mac} {regs : List Registration} {r : PlaceholderRegistry}
    {ps : List (List Char)} (h : registerEach mac {} regs = some (r, ps)) :
    (∀ p entry, r.lookupExact p = some entry → ∃ hint base label,
      p = buildPlaceholder hint base label ∧ r.owner base = some entry.secret ∧
      ∀ hint' label' entry', LabelOk label' →
        r.lookupExact (buildPlaceholder hint' base label') = some entry' →
        entry'.secret = entry.secret) ∧
    ps.length = regs.length ∧
    ∀ reg p, (reg, p) ∈ regs.zip ps → ∃ base label,
      p = buildPlaceholder (inferCaseHint reg.secret) base label ∧
      r.owner base = some reg.secret ∧
      r.Resolves p reg.secret ∧
      r.Resolves (buildPlaceholder (inferCaseHint reg.secret) base none) reg.secret ∧
      (∀ friendlyName recursive, ∃ r',
        r.register mac reg.key reg.secret friendlyName recursive = some (r',
          buildPlaceholder (inferCaseHint reg.secret) base (r.chosenLabel reg.secret friendlyName))) ∧
      (r.chosenLabel reg.secret reg.friendlyName = label ∨
        r.chosenLabel reg.secret reg.friendlyName = none ∧
        ∃ name ∈ reg.friendlyName, ∃ other ∈ regs, sanitizedLabelCollidesWithSecret
          (sanitizeForCollisionCheck name) (sanitizeForCollisionCheck other.secret) = true) := by
  obtain ⟨hcoherent, -, hlength, hshapes, hstands⟩ := registerEach_spec coherent_empty h
  refine ⟨fun p entry hp => ?_, hlength, fun reg p hmem => ?_⟩
  · obtain ⟨hint, base, label, heq, htag, -, howner⟩ := hcoherent p entry hp
    exact ⟨hint, base, label, heq, howner, fun hint' label' entry' hlabel' hp' =>
      hcoherent.secret_eq htag hlabel' howner hp'⟩
  · obtain ⟨base, label, hst⟩ := hstands reg p hmem
    obtain ⟨n, hn, hbase, howner, hothers⟩ := hst.settled
    have htag : Tag base := hbase ▸ (attemptBase_tag mac reg.key reg.secret n).1
    have hresolves : ∀ {label : Option (List Char)}, LabelOk label →
        (r.lookupExact (buildPlaceholder (inferCaseHint reg.secret) base label)).isSome →
        r.Resolves (buildPlaceholder (inferCaseHint reg.secret) base label) reg.secret := by
      intro label hlabel hsome
      obtain ⟨entry, hentry⟩ := Option.isSome_iff_exists.1 hsome
      exact ⟨entry, hentry, by rw [lookup, hentry], hcoherent.secret_eq htag hlabel howner hentry⟩
    refine ⟨base, label, hst.placeholder, howner, ?_, hresolves labelOk_none hst.bare,
      hcoherent.register_again hst.settled, ?_⟩
    · have htoken := hst.token
      rw [hst.placeholder] at htoken ⊢
      exact hresolves hst.labelOk htoken
    · rcases hst.named with hlabel | ⟨hnone, name, hname, shape, hshape, hcollides⟩
      · exact .inl hlabel
      · refine .inr ⟨hnone, name, hname, ?_⟩
        rcases hshapes shape hshape with hshape | ⟨other, hother, heq⟩
        · cases hshape
        · exact ⟨other, hother, heq ▸ hcollides⟩

/-- A hash that collides on texts of the same length. -/
def lengthMac : Mac := fun _ message _ => UInt8.ofNat message.length

def tiger : Registration := ⟨"key".toList, "tiger".toList, some "prod".toList, false⟩

/-- Two secrets with one hash, and a secret that the label of the first one spells. -/
def zoo : List Registration :=
  [tiger, ⟨"key".toList, "otter".toList, some "test".toList, false⟩,
    ⟨"key".toList, "prod".toList, none, false⟩, tiger]

def zooPlaceholders : List (List Char) :=
  ["$$PROD_B78NXDHJQ70C:L$$".toList, "$$TEST_XYFFLMYFBS4D:L$$".toList, "$$ITNSLR82FFHC:L$$".toList,
    "$$B78NXDHJQ70C:L$$".toList]

theorem registerEach_zoo :
    (registerEach lengthMac {} zoo).map Prod.snd = some zooPlaceholders := by
  decide +kernel

theorem zoo_sound : ∃ r ps, registerEach lengthMac {} zoo = some (r, ps) ∧
    r.Resolves "$$TEST_XYFFLMYFBS4D:L$$".toList "otter".toList ∧
    r.Resolves "$$PROD_B78NXDHJQ70C:L$$".toList "tiger".toList := by
  obtain ⟨⟨r, ps⟩, h, rfl⟩ := Option.map_eq_some_iff.1 registerEach_zoo
  obtain ⟨-, -, hpairs⟩ := registry_sound h
  obtain ⟨-, -, -, -, hotter, -⟩ := hpairs _ _ (.tail _ (.head _))
  obtain ⟨-, -, -, -, htiger, -⟩ := hpairs tiger _ (.head _)
  exact ⟨r, _, h, hotter, htiger⟩

/-- One and the same registration, made twice, with two placeholders. -/
theorem tiger_not_same_placeholder : ¬∀ (mac : Mac) (regs : List Registration)
    (r : PlaceholderRegistry) (ps : List (List Char)), registerEach mac {} regs = some (r, ps) →
    ∀ reg p p', (reg, p) ∈ regs.zip ps → (reg, p') ∈ regs.zip ps → p = p' := by
  intro h
  obtain ⟨⟨r, ps⟩, hrun, rfl⟩ := Option.map_eq_some_iff.1 registerEach_zoo
  have hsame := h _ _ r _ hrun tiger "$$PROD_B78NXDHJQ70C:L$$".toList "$$B78NXDHJQ70C:L$$".toList
    (.head _) (.tail _ (.tail _ (.tail _ (.head _))))
  exact absurd hsame (by decide)

end PlaceholderRegistry

end OhMyPi.Secrets
