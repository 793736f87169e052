import Mathlib.Logic.Relation
import OhMyPi.Recovery.Blame

/-! Repairs make only licensed changes, unless a pointer leads astray: `/` stands for the root, so the
pointer `//x` to a member of the root's nameless member is followed to the root's own `x`. -/

namespace OhMyPi.Recovery

/-! ### Distinct keys -/

mutual

/-- The keys of every object are distinct, as `Map` keeps them. -/
def Distinct : Json → Prop
  | .array items => DistinctItems items
  | .object fields => (fields.map Prod.fst).Nodup ∧ DistinctFields fields
  | _ => True

def DistinctItems : List Json → Prop
  | [] => True
  | item :: items => Distinct item ∧ DistinctItems items

def DistinctFields : List (String × Json) → Prop
  | [] => True
  | (_, value) :: fields => Distinct value ∧ DistinctFields fields

end

theorem distinctItems_iff {items : List Json} : DistinctItems items ↔ ∀ item ∈ items, Distinct item := by
  induction items with
  | nil => simp [DistinctItems]
  | cons item items ih => simp [DistinctItems, ih]

theorem distinctFields_iff {fields : List (String × Json)} :
    DistinctFields fields ↔ ∀ field ∈ fields, Distinct field.2 := by
  induction fields with
  | nil => simp [DistinctFields]
  | cons field fields ih => simp [DistinctFields, ih]

theorem field_eq_some_iff {fields : List (String × Json)} (h : (fields.map Prod.fst).Nodup) {key : String}
    {value : Json} : Json.field fields key = some value ↔ (key, value) ∈ fields := by
  induction fields with
  | nil => simp [Json.field]
  | cons field fields ih =>
    obtain ⟨k, v⟩ := field
    rw [List.map_cons, List.nodup_cons] at h
    rw [Json.field, List.lookup_cons, List.mem_cons, Prod.mk.injEq]
    by_cases hk : key = k
    · subst hk
      have hnot : (key, value) ∉ fields := fun hmem => h.1 (List.mem_map.2 ⟨_, hmem, rfl⟩)
      simp [hnot, eq_comm]
    · rw [beq_eq_false_iff_ne.2 hk]
      simp only [hk, false_and, false_or]
      exact ih h.2

theorem field_isSome_iff {fields : List (String × Json)} {key : String} :
    (Json.field fields key).isSome ↔ key ∈ fields.map Prod.fst := by
  induction fields with
  | nil => simp [Json.field]
  | cons field fields ih =>
    obtain ⟨k, v⟩ := field
    rw [Json.field, List.lookup_cons, List.map_cons, List.mem_cons]
    by_cases hk : key = k
    · simp [hk]
    · rw [beq_eq_false_iff_ne.2 hk]
      simp only [hk, false_or]
      exact ih

theorem map_fst_modifyField (key : String) (f : Json → Json) (fields : List (String × Json)) :
    (modifyField key f fields).map Prod.fst = fields.map Prod.fst := by
  induction fields with
  | nil => rfl
  | cons field fields ih =>
    obtain ⟨k, v⟩ := field
    rw [modifyField]
    split
    · rfl
    · rw [List.map_cons, ih, List.map_cons]

theorem mem_modifyField {key : String} {f : Json → Json} {fields : List (String × Json)}
    {field : String × Json} (h : field ∈ modifyField key f fields) :
    field ∈ fields ∨ ∃ value, (key, value) ∈ fields ∧ field = (key, f value) := by
  induction fields with
  | nil => exact .inl h
  | cons first fields ih =>
    obtain ⟨k, v⟩ := first
    rw [modifyField] at h
    split at h
    · next hk =>
      subst hk
      rcases List.mem_cons.1 h with h | h
      · exact .inr ⟨v, List.mem_cons_self, h⟩
      · exact .inl (List.mem_cons_of_mem _ h)
    · rcases List.mem_cons.1 h with h | h
      · exact .inl (h ▸ List.mem_cons_self)
      · exact (ih h).imp (List.mem_cons_of_mem _) fun ⟨value, hmem, heq⟩ =>
          ⟨value, List.mem_cons_of_mem _ hmem, heq⟩

/-- A change at a place that leaves distinct keys there leaves them everywhere. -/
theorem distinct_modifyAt {f : Json → Json} (hf : ∀ value, Distinct value → Distinct (f value))
    {tokens : List (List Char)} {value : Json} (h : Distinct value) :
    Distinct (modifyAt f tokens value) := by
  induction tokens generalizing value with
  | nil =>
    rw [modifyAt]
    exact hf value h
  | cons token tokens ih =>
    cases value with
    | object fields =>
      rw [Distinct, distinctFields_iff] at h
      rw [modifyAt, Distinct, map_fst_modifyField, distinctFields_iff]
      refine ⟨h.1, fun field hfield => ?_⟩
      rcases mem_modifyField hfield with hfield | ⟨value, hvalue, rfl⟩
      · exact h.2 field hfield
      · exact ih (h.2 _ hvalue)
    | array items =>
      rw [Distinct, distinctItems_iff] at h
      rw [modifyAt]
      split
      · rw [Distinct, distinctItems_iff]
        exact h
      · next index _ =>
        rw [Distinct, distinctItems_iff]
        intro item hitem
        obtain ⟨i, hi⟩ := List.getElem?_of_mem hitem
        rw [List.getElem?_modify, Option.map_eq_map, Option.map_eq_some_iff] at hi
        obtain ⟨old, hold, heq⟩ := hi
        have hold := h old (List.mem_of_getElem? hold)
        subst heq
        split
        · exact ih hold
        · exact hold
    | _ => exact h

/-! ### Where a place is -/

theorem locate_append (place rest : List (List Char)) (value : Json) :
    locate (place ++ rest) value = (locate place value).bind (locate rest) := by
  induction place generalizing value with
  | nil => rfl
  | cons token place ih =>
    cases value with
    | object fields =>
      rw [List.cons_append, locate, locate, Option.bind_assoc]
      exact congrArg _ (funext ih)
    | array items =>
      rw [List.cons_append, locate, locate]
      rw [Option.bind_assoc ((parseIndex token).bind _)]
      exact congrArg _ (funext ih)
    | _ => rfl

theorem digits_decimal (n : Nat) : Selector.digits (decimal n) = some n := by
  have hdigits : ∀ c ∈ Nat.toDigits 10 n, c.isDigit = true := fun c hc =>
    Nat.isDigit_of_mem_toDigits (by decide) (by decide) hc
  have hvalue : (Nat.toDigits 10 n).foldl (fun v c => v * 10 + (c.toNat - '0'.toNat)) 0 = n := by
    have h := Text.foldl_toDigits n
    simp only [Nat.mul_comm 10] at h
    exact h
  rw [Selector.digits, decimal, if_neg, hvalue]
  simp only [Bool.or_eq_true, Bool.not_eq_true', not_or]
  exact ⟨by simp, by simpa using hdigits⟩

theorem eq_zero_of_head_decimal {n : Nat} (h : (decimal n).head? = some '0') : n = 0 := by
  induction n using Nat.strongRecOn with
  | _ n ih =>
    have hdigit : ∀ d < 10, Nat.digitChar d = '0' → d = 0 := by decide
    have hne : Nat.toDigits 10 (n / 10) ≠ [] := by simp
    rw [decimal, Nat.toDigits_eq_if (by decide)] at h
    split at h
    · next hlt => exact hdigit n hlt (Option.some.inj h)
    · next hge =>
      rw [List.head?_append_of_ne_nil _ hne] at h
      have := ih (n / 10) (by omega) h
      omega

theorem parseIndex_decimal (n : Nat) : parseIndex (decimal n) = some n := by
  have hplus : (decimal n).head? ≠ some '+' := by
    intro h
    have := Nat.isDigit_of_mem_toDigits (by decide) (by decide) (List.mem_of_mem_head? h)
    cases this
  rw [parseIndex, if_neg, digits_decimal]
  simp only [Bool.or_eq_true, decide_eq_true_eq, Bool.and_eq_true, bne_iff_ne, not_or, not_and, not_not]
  refine ⟨hplus, fun h => ?_⟩
  cases eq_zero_of_head_decimal h
  rfl

/-- A node governs the value that is found at its place. -/
theorem locate_of_governs {floats : Floats} {schema arguments node value : Json}
    {place : List (List Char)} (harguments : Distinct arguments)
    (h : Governs floats schema arguments node place value) :
    locate place arguments = some value ∧ Distinct value := by
  induction h with
  | root => exact ⟨rfl, harguments⟩
  | allOf _ _ _ ih => exact ih
  | selected _ _ _ _ ih => exact ih
  | property _ hmem _ ih | additional _ hmem _ _ ih =>
    obtain ⟨hlocate, hdistinct⟩ := ih
    rw [Distinct, distinctFields_iff] at hdistinct
    refine ⟨?_, hdistinct.2 _ hmem⟩
    rw [locate_append, hlocate, Option.bind_some, locate, String.ofList_toList,
      (field_eq_some_iff hdistinct.1).2 hmem]
    rfl
  | item _ _ hitem ih =>
    obtain ⟨hlocate, hdistinct⟩ := ih
    rw [Distinct, distinctItems_iff] at hdistinct
    refine ⟨?_, hdistinct _ (List.mem_of_getElem? hitem)⟩
    rw [locate_append, hlocate, Option.bind_some, locate, parseIndex_decimal, Option.bind_some, hitem]
    rfl

/-! ### Licensed changes -/

section

variable (floats : Floats) (serde : Serde) (schema : Json) (coercions : List ArgumentCoercionSpec)

/-- A change that the schema or the declared coercions call for. -/
inductive Licensed (value : Json) : Json → Prop
  /-- A node drops a member that it forbids from the object it governs. -/
  | drop {object fields : List (String × Json)} {place : List (List Char)} {key : String} :
    Governs floats schema value (.object object) place (.object fields) → Forbids object key →
    key ∈ fields.map Prod.fst →
    Licensed value (modifyAt (fun _ => .object (fields.eraseP fun field => field.1 = key)) place value)
  /-- A coercion is applied at the path for which it was declared. -/
  | coerce {spec : ArgumentCoercionSpec} {coercion : ArgumentCoercion} {tokens : List (List Char)}
    {old new : Json} : spec ∈ coercions → coercion ∈ spec.coercions →
    pointerTokens spec.path = some tokens → locate tokens value = some old →
    Recovery.coerce floats serde coercion old = some new →
    Licensed value (modifyAt (fun _ => new) tokens value)

/-- The violation is that of a member `key` of the root's nameless member, and the root has a member of
that name too, which no node at the root forbids. -/
def Astray (value : Json) (issue : SchemaViolation) : Prop :=
  issue.rule = .additionalProperties ∧ issue.fromUnionBranch = false ∧ ∃ fields key,
    value = .object fields ∧ issue.path = pathText [[], key.toList] ∧ key ∈ fields.map Prod.fst ∧
    ∀ object, Governs floats schema value (.object object) [] value → ¬Forbids object key

end

section

variable {floats : Floats} {serde : Serde} {schema value : Json}
  {coercions : List ArgumentCoercionSpec} {issue : SchemaViolation}

theorem modifyPointer_eq_some {f : Json → Option Json} {path : List Char} {after : Json} :
    modifyPointer f path value = some after ↔ ∃ tokens old new, pointerTokens path = some tokens ∧
      locate tokens value = some old ∧ f old = some new ∧
      after = modifyAt (fun _ => new) tokens value := by
  simp only [modifyPointer, bind, pure, Option.bind_eq_some_iff, Option.some.injEq]
  constructor
  · rintro ⟨tokens, htokens, old, hold, new, hnew, rfl⟩
    exact ⟨tokens, old, new, htokens, hold, hnew, rfl⟩
  · rintro ⟨tokens, old, new, htokens, hold, hnew, rfl⟩
    exact ⟨tokens, htokens, old, hold, new, hnew, rfl⟩

theorem removePointer_pathText (place : List (List Char)) (key : List Char) :
    removePointer (pathText (place ++ [key])) value =
      modifyPointer (removeMember key) (rooted (pathText place)) value := by
  rw [removePointer, rsplitOnce_pathText]
  simp only [bind, Option.bind_some, unescape_escape, rooted]

/-- Where the pointer to an object leads. -/
theorem pointerTokens_rooted (place : List (List Char)) :
    pointerTokens (rooted (pathText place)) = some (if place = [[]] then [] else place) := by
  split
  · next hblank =>
    rw [hblank]
    rfl
  · next hblank =>
    by_cases hroot : place = []
    · rw [hroot]
      rfl
    · rw [rooted, if_neg, pointerTokens_pathText hroot hblank]
      obtain ⟨token, place, rfl⟩ := List.exists_cons_of_ne_nil hroot
      simp [pathText]

theorem removeMember_object {fields : List (String × Json)} {key : String} {new : Json} :
    removeMember key.toList (.object fields) = some new ↔ key ∈ fields.map Prod.fst ∧
      new = .object (fields.eraseP fun field => field.1 = key) := by
  rw [removeMember, String.ofList_toList, ← field_isSome_iff]
  split
  · next h => simp [h, eq_comm]
  · next h => simp [h]

/-- The declared coercions change a value as one of them says. -/
theorem exists_of_coerceDeclared {declared : List ArgumentCoercion} {old new : Json}
    (h : coerceDeclared floats serde issue declared old = some new) :
    ∃ coercion ∈ declared, coerce floats serde coercion old = some new := by
  have htry : ∀ coercion, tryCoercion floats serde issue declared old coercion = some new →
      ∃ coercion ∈ declared, coerce floats serde coercion old = some new := by
    intro coercion h
    rw [tryCoercion] at h
    split at h
    · next hdeclared =>
      rw [Bool.and_eq_true, List.contains_iff_mem] at hdeclared
      exact ⟨coercion, hdeclared.1, h⟩
    · cases h
  simp only [coerceDeclared, Option.orElse_eq_orElse, Option.orElse_eq_or, Option.or_eq_some_iff] at h
  rcases h with h | ⟨-, h | ⟨-, h | ⟨-, h | ⟨-, h⟩⟩⟩⟩
  · exact htry _ h
  · exact htry _ h
  · exact htry _ h
  · exact htry _ h
  · split at h
    · cases h
    · rw [Option.or_eq_some_iff] at h
      rcases h with h | ⟨-, h⟩
      · exact htry _ h
      · exact htry _ h

theorem exists_of_mem_declaredAt {coercion : ArgumentCoercion}
    (h : coercion ∈ declaredAt coercions issue) :
    ∃ spec ∈ coercions, spec.path = issue.path ∧ coercion ∈ spec.coercions := by
  rw [declaredAt] at h
  cases hfind : coercions.find? fun spec => spec.path == issue.path with
  | none =>
    rw [hfind] at h
    cases h
  | some spec =>
    rw [hfind] at h
    exact ⟨spec, List.mem_of_find?_eq_some hfind, by simpa using List.find?_some hfind, h⟩

theorem modifyAt_root_object (fields : List (String × Json)) (token : List Char)
    (tokens : List (List Char)) (f : Json → Json) :
    ∃ after, modifyAt f (token :: tokens) (.object fields) = .object after ∧
      after.map Prod.fst = fields.map Prod.fst :=
  ⟨_, rfl, map_fst_modifyField _ _ _⟩

theorem not_mem_eraseP {fields : List (String × Json)} (h : (fields.map Prod.fst).Nodup) (key : String) :
    key ∉ (fields.eraseP fun field => field.1 = key).map Prod.fst := by
  induction fields with
  | nil => exact List.not_mem_nil
  | cons field fields ih =>
    rw [List.map_cons, List.nodup_cons] at h
    by_cases hkey : field.1 = key
    · rw [List.eraseP_cons_of_pos (by simpa using hkey), ← hkey]
      exact h.1
    · rw [List.eraseP_cons_of_neg (by simpa using hkey), List.map_cons, List.mem_cons, not_or]
      exact ⟨Ne.symm hkey, ih h.2⟩

theorem mem_eraseP {fields : List (String × Json)} {key key' : String} (hne : key ≠ key')
    (h : key ∈ fields.map Prod.fst) :
    key ∈ (fields.eraseP fun field => field.1 = key').map Prod.fst := by
  obtain ⟨field, hfield, rfl⟩ := List.mem_map.1 h
  exact List.mem_map_of_mem ((List.mem_eraseP_of_neg (by simpa using hne)).2 hfield)

/-- A change that takes a member off the root is licensed only by a node at the root. -/
theorem not_licensed_of_astray (hvalue : Distinct value) (h : Astray floats schema value issue)
    {declared : List ArgumentCoercion} {after : Json}
    (hafter : applySchemaRepair floats serde issue declared value = some after) :
    ¬Licensed floats serde schema coercions value after := by
  obtain ⟨hrule, hunion, fields, key, rfl, hpath, hkey, hfree⟩ := h
  rw [applySchemaRepair, hrule] at hafter
  simp only [hunion, Bool.false_eq_true, if_false, hpath] at hafter
  have hplace : [[], key.toList] = [[]] ++ [key.toList] := rfl
  rw [hplace, removePointer_pathText, modifyPointer_eq_some] at hafter
  obtain ⟨tokens, old, new, htokens, hold, hnew, rfl⟩ := hafter
  rw [pointerTokens_rooted, if_pos rfl] at htokens
  cases htokens
  cases hold
  obtain ⟨-, rfl⟩ := removeMember_object.1 hnew
  have hnodup : (fields.map Prod.fst).Nodup := by
    rw [Distinct] at hvalue
    exact hvalue.1
  have hgone := not_mem_eraseP hnodup key
  rw [modifyAt]
  generalize hresult : Json.object (fields.eraseP fun field => field.1 = key) = result
  intro hlicensed
  cases hlicensed with
  | @drop object fields' place key' hgoverns hforbids hmem =>
    have hlocate := (locate_of_governs hvalue hgoverns).1
    cases place with
    | nil =>
      cases hlocate
      by_cases hsame : key = key'
      · subst hsame
        exact hfree object hgoverns hforbids
      · rw [modifyAt, Json.object.injEq] at hresult
        rw [hresult] at hgone
        exact hgone (mem_eraseP hsame hkey)
    | cons token tokens =>
      obtain ⟨kept, heq, hkeys⟩ := modifyAt_root_object fields token tokens
        (fun _ => .object (fields'.eraseP fun field => field.1 = key'))
      rw [heq, Json.object.injEq] at hresult
      rw [hresult, hkeys] at hgone
      exact hgone hkey
  | @coerce spec coercion tokens old new hspec hcoercion htokens hold hnew =>
    cases tokens with
    | nil =>
      cases hold
      rw [modifyAt] at hresult
      cases coercion <;> cases hnew <;> cases hresult
    | cons token tokens =>
      obtain ⟨kept, heq, hkeys⟩ := modifyAt_root_object fields token tokens (fun _ => new)
      rw [heq, Json.object.injEq] at hresult
      rw [hresult, hkeys] at hgone
      exact hgone hkey

theorem stray_of_validateSchema {strict : Bool} {limits : ToolAssemblyLimits}
    (h : validateSchema floats schema value strict limits = .error issue)
    (hrule : issue.rule = .additionalProperties) (hunion : issue.fromUnionBranch = false) :
    Stray floats schema value issue :=
  have hroot : Governs floats schema value schema [] value := .root
  fails_validateNode hroot limits.maxSchemaNodes issue h hrule hunion

theorem licensed_of_not_astray {strict : Bool} {limits : ToolAssemblyLimits} (hvalue : Distinct value)
    (hissue : validateSchema floats schema value strict limits = .error issue)
    (hstray : ¬Astray floats schema value issue) {after : Json}
    (hafter : applySchemaRepair floats serde issue (declaredAt coercions issue) value = some after) :
    Licensed floats serde schema coercions value after := by
  rw [applySchemaRepair] at hafter
  split at hafter
  · next hrule =>
    split at hafter
    · cases hafter
    · next hunion =>
      rw [Bool.not_eq_true] at hunion
      obtain ⟨object, place, fields, key, hgoverns, hkey, hforbids, hpath⟩ :=
        stray_of_validateSchema hissue hrule hunion
      rw [hpath, removePointer_pathText, modifyPointer_eq_some] at hafter
      obtain ⟨tokens, old, new, htokens, hold, hnew, rfl⟩ := hafter
      rw [pointerTokens_rooted, Option.some.injEq] at htokens
      have hlocate := (locate_of_governs hvalue hgoverns).1
      by_cases hblank : place = [[]]
      · -- The root has a member of the same name.
        rw [if_pos hblank] at htokens
        subst htokens
        subst hblank
        cases hold
        cases value with
        | object rootFields =>
          obtain ⟨hmem, rfl⟩ := removeMember_object.1 hnew
          by_contra hnot
          refine hstray ⟨hrule, hunion, rootFields, key, rfl, hpath, hmem, fun object hroot hforbids => ?_⟩
          exact hnot (.drop hroot hforbids hmem)
        | array items => cases hlocate
        | _ => cases hlocate
      · rw [if_neg hblank] at htokens
        subst htokens
        rw [hlocate] at hold
        cases hold
        obtain ⟨-, rfl⟩ := removeMember_object.1 hnew
        exact .drop hgoverns hforbids hkey
  · obtain ⟨tokens, old, new, htokens, hold, hnew, rfl⟩ := modifyPointer_eq_some.1 hafter
    obtain ⟨coercion, hdeclared, hcoerce⟩ := exists_of_coerceDeclared hnew
    obtain ⟨spec, hspec, hpath, hmem⟩ := exists_of_mem_declaredAt hdeclared
    exact .coerce hspec hmem (hpath ▸ htokens) hold hcoerce
  · cases hafter

theorem distinct_locate {tokens : List (List Char)} {old : Json} (hvalue : Distinct value)
    (h : locate tokens value = some old) : Distinct old := by
  induction tokens generalizing value with
  | nil =>
    cases h
    exact hvalue
  | cons token tokens ih =>
    cases value with
    | object fields =>
      rw [Distinct, distinctFields_iff] at hvalue
      rw [locate, Option.bind_eq_some_iff] at h
      obtain ⟨field, hfield, h⟩ := h
      exact ih (hvalue.2 _ ((field_eq_some_iff hvalue.1).1 hfield)) h
    | array items =>
      rw [Distinct, distinctItems_iff] at hvalue
      rw [locate, Option.bind_eq_some_iff] at h
      obtain ⟨item, hitem, h⟩ := h
      obtain ⟨index, -, hitem⟩ := Option.bind_eq_some_iff.1 hitem
      exact ih (hvalue _ (List.mem_of_getElem? hitem)) h
    | _ => cases h

theorem distinct_modifyPointer {f : Json → Option Json} {path : List Char} {after : Json}
    (hf : ∀ old new, Distinct old → f old = some new → Distinct new) (hvalue : Distinct value)
    (h : modifyPointer f path value = some after) : Distinct after := by
  obtain ⟨tokens, old, new, -, hold, hnew, rfl⟩ := modifyPointer_eq_some.1 h
  have hnew := hf old new (distinct_locate hvalue hold) hnew
  exact distinct_modifyAt (fun _ _ => hnew) hvalue

theorem distinct_removeMember {leaf : List Char} {old new : Json} (hold : Distinct old)
    (h : removeMember leaf old = some new) : Distinct new := by
  cases old with
  | object fields =>
    rw [removeMember] at h
    split at h
    · cases h
      rw [Distinct, distinctFields_iff] at hold ⊢
      exact ⟨hold.1.sublist (List.eraseP_sublist.map _), fun field hfield =>
        hold.2 field (List.mem_of_mem_eraseP hfield)⟩
    · cases h
  | array items =>
    simp only [removeMember, bind, Option.bind_eq_some_iff] at h
    obtain ⟨index, -, h⟩ := h
    split at h
    · cases h
      rw [Distinct, distinctItems_iff] at hold ⊢
      exact fun item hitem => hold item (List.mem_of_mem_eraseIdx hitem)
    · cases h
  | _ => cases h

/-- What a coercion makes has distinct keys when what is parsed has. -/
theorem distinct_coerce (hserde : ∀ text parsed, serde.parse text = some parsed → Distinct parsed)
    {coercion : ArgumentCoercion} {old new : Json} (hold : Distinct old)
    (h : coerce floats serde coercion old = some new) : Distinct new := by
  unfold coerce at h
  split at h
  · rw [coerceJsonString] at h
    split at h
    · exact hserde _ _ h
    · cases h
  · rw [coerceLooseBool] at h
    split at h
    · cases h
      trivial
    · split at h
      · cases h
        trivial
      · cases h
  · obtain ⟨n, -, rfl⟩ := Option.map_eq_some_iff.1 h
    trivial
  · simp only [coerceNumber, Option.orElse_eq_orElse, Option.orElse_eq_or, Option.or_eq_some_iff] at h
    rcases h with h | ⟨-, h⟩
    · obtain ⟨n, -, rfl⟩ := Option.map_eq_some_iff.1 h
      trivial
    · obtain ⟨bits, -, rfl⟩ := Option.map_eq_some_iff.1 h
      trivial
  · cases h
  · cases h
    trivial
  · cases h
  · cases h
    exact ⟨hold, trivial⟩
  · cases h

/-- A repair keeps the keys distinct. -/
theorem distinct_applySchemaRepair
    (hserde : ∀ text parsed, serde.parse text = some parsed → Distinct parsed)
    {declared : List ArgumentCoercion} (hvalue : Distinct value) {after : Json}
    (h : applySchemaRepair floats serde issue declared value = some after) : Distinct after := by
  rw [applySchemaRepair] at h
  split at h
  · split at h
    · cases h
    · simp only [removePointer, bind, Option.bind_eq_some_iff] at h
      obtain ⟨⟨parent, leaf⟩, -, h⟩ := h
      exact distinct_modifyPointer (fun _ _ => distinct_removeMember) hvalue h
  · refine distinct_modifyPointer (fun old new hold hnew => ?_) hvalue h
    obtain ⟨coercion, -, hcoerce⟩ := exists_of_coerceDeclared hnew
    exact distinct_coerce hserde hold hcoerce
  · cases h

end

/-! ### The run -/

section

variable (floats : Floats) (serde : Serde) (schema : Json) (strict : Bool) (limits : ToolAssemblyLimits)
  (coercions : List ArgumentCoercionSpec)

/-- One repair. -/
def Repairs (value : Json) (issue : SchemaViolation) (after : Json) : Prop :=
  validateSchema floats schema value strict limits = .error issue ∧
    applySchemaRepair floats serde issue (declaredAt coercions issue) value = some after

/-- The values that the repairs of the arguments go through. -/
inductive Reached (arguments : Json) : Nat → Json → Prop
  | start : Reached arguments 0 arguments
  | repair {n : Nat} {value : Json} {issue : SchemaViolation} {after : Json} :
    Reached arguments n value → n < 16 →
    Repairs floats serde schema strict limits coercions value issue after →
    Reached arguments (n + 1) after

/-- The repairs change only what they may, and what succeeds satisfies the schema. -/
structure OnlyLicensed (arguments : Json) : Prop where
  steps : ∀ n value issue after, Reached floats serde schema strict limits coercions arguments n value →
    n < 16 → Repairs floats serde schema strict limits coercions value issue after →
    Licensed floats serde schema coercions value after
  reached : Relation.ReflTransGen (Licensed floats serde schema coercions) arguments
    (repairSchemaArguments floats serde schema strict limits coercions arguments).value
  success : (repairSchemaArguments floats serde schema strict limits coercions arguments).violation = none →
    validateSchema floats schema
      (repairSchemaArguments floats serde schema strict limits coercions arguments).value strict limits = .ok ()

end

section

variable {floats : Floats} {serde : Serde} {schema : Json} {strict : Bool} {limits : ToolAssemblyLimits}
  {coercions : List ArgumentCoercionSpec} {arguments : Json}

theorem distinct_of_reached (hserde : ∀ text parsed, serde.parse text = some parsed → Distinct parsed)
    (harguments : Distinct arguments) {n : Nat} {value : Json}
    (h : Reached floats serde schema strict limits coercions arguments n value) : Distinct value := by
  induction h with
  | start => exact harguments
  | repair _ _ hrepairs ih => exact distinct_applySchemaRepair hserde ih hrepairs.2

/-- The loop ends in a value that its repairs reach, and succeeds only with a valid one. -/
theorem repairLoop_spec {left n : Nat} {value : Json} (hleft : left + n = 16)
    (h : Reached floats serde schema strict limits coercions arguments n value) :
    Reached floats serde schema strict limits coercions arguments
        (repairLoop floats serde schema strict limits coercions left n value).repairs
        (repairLoop floats serde schema strict limits coercions left n value).value ∧
      ((repairLoop floats serde schema strict limits coercions left n value).violation = none →
        validateSchema floats schema
          (repairLoop floats serde schema strict limits coercions left n value).value strict limits =
            .ok ()) := by
  induction left generalizing n value with
  | zero =>
    rw [repairLoop]
    cases hvalid : validateSchema floats schema value strict limits with
    | ok => exact ⟨h, fun _ => hvalid⟩
    | error issue => exact ⟨h, fun hnone => by cases hnone⟩
  | succ left ih =>
    rw [repairLoop]
    cases hvalid : validateSchema floats schema value strict limits with
    | ok => exact ⟨h, fun _ => hvalid⟩
    | error issue =>
      simp only
      cases hafter : applySchemaRepair floats serde issue (declaredAt coercions issue) value with
      | none => exact ⟨h, fun hnone => by cases hnone⟩
      | some after => exact ih (by omega) (h.repair (by omega) ⟨hvalid, hafter⟩)

/-- Schema repair makes only licensed changes exactly when no violation leads it astray. -/
theorem repair_only_licensed_iff
    (hserde : ∀ text parsed, serde.parse text = some parsed → Distinct parsed)
    (harguments : Distinct arguments) :
    OnlyLicensed floats serde schema strict limits coercions arguments ↔
      ∀ n value issue after, Reached floats serde schema strict limits coercions arguments n value →
        n < 16 → Repairs floats serde schema strict limits coercions value issue after →
        ¬Astray floats schema value issue := by
  constructor
  · intro h n value issue after hreached hn hrepairs hastray
    exact not_licensed_of_astray (distinct_of_reached hserde harguments hreached) hastray hrepairs.2
      (h.steps n value issue after hreached hn hrepairs)
  · intro h
    have hsteps : ∀ n value issue after,
        Reached floats serde schema strict limits coercions arguments n value → n < 16 →
        Repairs floats serde schema strict limits coercions value issue after →
        Licensed floats serde schema coercions value after := by
      intro n value issue after hreached hn hrepairs
      exact licensed_of_not_astray (distinct_of_reached hserde harguments hreached) hrepairs.1
        (h n value issue after hreached hn hrepairs) hrepairs.2
    have hchain : ∀ n value, Reached floats serde schema strict limits coercions arguments n value →
        Relation.ReflTransGen (Licensed floats serde schema coercions) arguments value := by
      intro n value hreached
      induction hreached with
      | start => exact .refl
      | repair hreached hn hrepairs ih => exact ih.tail (hsteps _ _ _ _ hreached hn hrepairs)
    obtain ⟨hreached, hsuccess⟩ := repairLoop_spec rfl
      (.start : Reached floats serde schema strict limits coercions arguments 0 arguments)
    exact ⟨hsteps, hchain _ _ hreached, hsuccess⟩

end

/-! Arguments without floats (`plainFloats`), and texts that are no JSON. -/

def plainSerde : Serde where
  parse _ := none
  print _ := []

def sampleLimits : ToolAssemblyLimits where
  maxSchemaDepth := 64
  maxSchemaNodes := 4096

/-- An object with the member `x` and no other. -/
def closedSchema : Json :=
  .object [("properties", .object [("x", .bool true)]), ("additionalProperties", .bool false)]

def one : Json := .number (.posInt 1)

theorem repair_only_licensed_extra :
    OnlyLicensed plainFloats plainSerde closedSchema false sampleLimits []
      (.object [("x", one), ("y", one)]) := by
  have hserde : ∀ text parsed, plainSerde.parse text = some parsed → Distinct parsed :=
    fun _ _ h => by cases h
  refine (repair_only_licensed_iff hserde (by simp [Distinct, DistinctFields, one])).2 ?_
  intro n value issue after hreached hn hrepairs hastray
  have hsteps : ∀ n value, Reached plainFloats plainSerde closedSchema false sampleLimits []
      (.object [("x", one), ("y", one)]) n value →
      value = .object [("x", one), ("y", one)] ∨ value = .object [("x", one)] := by
    intro n value h
    induction h with
    | start => exact .inl rfl
    | repair _ _ hrepairs ih =>
      rcases ih with rfl | rfl
      · cases hrepairs.1
        cases hrepairs.2
        exact .inr rfl
      · cases hrepairs.1
  rcases hsteps n value hreached with rfl | rfl
  · cases hrepairs.1
    obtain ⟨-, -, fields, key, -, hpath, -⟩ := hastray
    cases hpath
  · cases hrepairs.1

/-- A schema with a closed object under the empty name, and a free member `x`. -/
def namelessSchema : Json :=
  .object [("properties", .object [("", .object [("additionalProperties", .bool false)]), ("x", .bool true)])]

/-- Nothing but the schema itself governs the root. -/
theorem eq_of_governs_nameless {arguments node value : Json} {place : List (List Char)}
    (h : Governs plainFloats namelessSchema arguments node place value) (hplace : place = []) :
    node = namelessSchema := by
  induction h with
  | root => rfl
  | allOf _ hall _ ih =>
    cases ih hplace
    cases hall
  | selected _ hkeyword hbranches _ ih =>
    cases ih hplace
    rcases hkeyword with rfl | rfl
    · cases hbranches
    · cases hbranches
  | property | additional | item => exact absurd hplace (by simp)

/-- The pointer `//x` leads to the root's own `x`. -/
theorem nameless_member_astray :
    ¬OnlyLicensed plainFloats plainSerde namelessSchema false sampleLimits []
      (.object [("", .object [("x", one)]), ("x", one)]) := by
  intro h
  have hrepairs : Repairs plainFloats plainSerde namelessSchema false sampleLimits []
      (.object [("", .object [("x", one)]), ("x", one)]) ⟨"//x".toList, .additionalProperties, [], false⟩
      (.object [("", .object [("x", one)])]) := ⟨rfl, rfl⟩
  refine not_licensed_of_astray (by simp [Distinct, DistinctFields, one])
    ⟨rfl, rfl, _, "x", rfl, rfl, by simp, fun object hgoverns hforbids => ?_⟩ hrepairs.2
    (h.steps 0 _ _ _ .start (by decide) hrepairs)
  cases eq_of_governs_nameless hgoverns rfl
  cases hforbids.2

end OhMyPi.Recovery
