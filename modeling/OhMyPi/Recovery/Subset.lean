import OhMyPi.Recovery.Schema

/-! Schemas that strict validation understands (`schema_within_strict_subset`). The check visits every node
of the schema, the validator those that the value leads to; on a schema that passes, strict validation and
the other go through the same steps. -/

namespace OhMyPi.Recovery

/-! ### The check -/

/-- A question about schema nodes, which uses up a budget. -/
abbrev Question := Nat → Bool × Nat

/-- The second question is only asked when the first is answered with yes. -/
def Question.and (first second : Question) : Question := fun budget =>
  let (answer, budget) := first budget
  if answer then second budget else (false, budget)

def Question.always (answer : Bool) : Question := fun budget => (answer, budget)

def Question.all (node : Json → Question) : List Json → Question
  | [] => .always true
  | schema :: schemas => (node schema).and (Question.all node schemas)

section

variable (node : Json → Question) (object : List (String × Json))

def subsetProperties : Question :=
  match Json.field object "properties" with
  | none => .always true
  | some (.object properties) => .all node (properties.map (·.2))
  | some _ => .always false

def subsetAdditional : Question :=
  match Json.field object "additionalProperties" with
  | none => .always true
  | some (.bool _) => .always true
  | some extra => node extra

def subsetItems : Question :=
  match Json.field object "items" with
  | none => .always true
  | some items => node items

def subsetCombinator (combinator : String) : Question :=
  match Json.field object combinator with
  | none => .always true
  | some (.array branches) => .all node branches
  | some _ => .always false

def subsetObject : Question :=
  if object.any fun field => !strictKeywords.contains field.1 then .always false
  else
    (subsetProperties node object).and <| (subsetAdditional node object).and <| (subsetItems node object).and <|
      (subsetCombinator node object "allOf").and <| (subsetCombinator node object "anyOf").and <|
        subsetCombinator node object "oneOf"

end

/-- `subset_node` with so many levels left. -/
def subsetNode : Nat → Json → Question
  | 0, _ => .always false
  | levels + 1, schema => fun budget =>
    if budget = 0 then (false, budget)
    else
      match schema with
      | .bool _ => (true, budget - 1)
      | .object object => subsetObject (subsetNode levels) object (budget - 1)
      | _ => (false, budget - 1)

def schemaWithinStrictSubset (schema : Json) (limits : ToolAssemblyLimits) : Bool :=
  (subsetNode (limits.maxSchemaDepth + 1) schema limits.maxSchemaNodes).1

/-! ### What passes -/

/-- The check passes on the schema, at some depth and with some budget. -/
def Understood (levels : Nat) (schema : Json) : Prop := ∃ budget, (subsetNode levels schema budget).1 = true

theorem Question.and_eq {first second : Question} (h : (first.and second budget).1 = true) :
    (first budget).1 = true ∧ (second (first budget).2).1 = true := by
  rw [Question.and] at h
  simp only at h
  split at h
  · next hfirst => exact ⟨hfirst, h⟩
  · cases h

theorem Question.all_eq {node : Json → Question} (h : (Question.all node schemas budget).1 = true)
    (hschema : schema ∈ schemas) : ∃ budget, (node schema budget).1 = true := by
  induction schemas generalizing budget with
  | nil => exact absurd hschema List.not_mem_nil
  | cons first schemas ih =>
    obtain ⟨hfirst, hrest⟩ := Question.and_eq h
    rcases List.mem_cons.1 hschema with rfl | hschema
    · exact ⟨budget, hfirst⟩
    · exact ih hrest hschema

/-- The nodes below a schema that passes pass themselves. -/
structure Parts (node : Json → Prop) (object : List (String × Json)) : Prop where
  keywords : (object.any fun field => !strictKeywords.contains field.1) = false
  properties : ∀ properties, Json.field object "properties" = some (.object properties) →
    ∀ property ∈ properties, node property.2
  additional : ∀ extra, Json.field object "additionalProperties" = some (.object extra) → node (.object extra)
  items : ∀ items, Json.field object "items" = some items → node items
  combinators : ∀ combinator ∈ ["allOf", "anyOf", "oneOf"], ∀ branches,
    Json.field object combinator = some (.array branches) → ∀ branch ∈ branches, node branch

theorem subsetCombinator_eq {node : Json → Question} (h : (subsetCombinator node object combinator budget).1 = true)
    (hbranches : Json.field object combinator = some (.array branches)) (hbranch : branch ∈ branches) :
    ∃ budget, (node branch budget).1 = true := by
  rw [subsetCombinator, hbranches] at h
  exact Question.all_eq h hbranch

theorem subsetNode_object (levels : Nat) (object : List (String × Json)) (budget : Nat) :
    subsetNode (levels + 1) (.object object) budget =
      if budget = 0 then (false, budget) else subsetObject (subsetNode levels) object (budget - 1) := rfl

theorem Understood.parts (h : Understood (levels + 1) (.object object)) : Parts (Understood levels) object := by
  obtain ⟨budget, h⟩ := h
  rw [subsetNode_object] at h
  split at h
  · cases h
  rw [subsetObject] at h
  split at h
  · cases h
  next hkeywords =>
  obtain ⟨hproperties, h⟩ := Question.and_eq h
  obtain ⟨hadditional, h⟩ := Question.and_eq h
  obtain ⟨hitems, h⟩ := Question.and_eq h
  obtain ⟨hall, h⟩ := Question.and_eq h
  obtain ⟨hany, hone⟩ := Question.and_eq h
  refine ⟨Bool.eq_false_iff.2 hkeywords, ?_, ?_, ?_, ?_⟩
  · intro properties hfield property hproperty
    rw [subsetProperties, hfield] at hproperties
    exact Question.all_eq hproperties (List.mem_map_of_mem hproperty)
  · intro extra hfield
    rw [subsetAdditional, hfield] at hadditional
    exact ⟨_, hadditional⟩
  · intro items hfield
    rw [subsetItems, hfield] at hitems
    exact ⟨_, hitems⟩
  · intro combinator hcombinator branches hfield branch hbranch
    simp only [List.mem_cons, List.not_mem_nil, or_false] at hcombinator
    rcases hcombinator with rfl | rfl | rfl
    · exact subsetCombinator_eq hall hfield hbranch
    · exact subsetCombinator_eq hany hfield hbranch
    · exact subsetCombinator_eq hone hfield hbranch

/-! ### Strict validation takes the same steps -/

section

variable {floats : Floats} {node node' : Json → Json → List Char → Check} {object : List (String × Json)}

theorem forEach_congr {α : Type} {check check' : α → Check} {as : List α} (h : ∀ a ∈ as, check a = check' a) :
    forEach check as = forEach check' as := by
  induction as with
  | nil => rfl
  | cons a as ih =>
    obtain ⟨ha, has⟩ := List.forall_mem_cons.1 h
    rw [forEach, forEach, ha, ih has]

theorem tryBranches_congr {branches : List Json} (h : ∀ branch ∈ branches, node branch = node' branch)
    (value : Json) (path : List Char) (first : Bool) (tally : Tally) (budget : Nat) :
    tryBranches floats node value path first branches tally budget =
      tryBranches floats node' value path first branches tally budget := by
  induction branches generalizing tally budget with
  | nil => rfl
  | cons branch branches ih =>
    obtain ⟨hbranch, hbranches⟩ := List.forall_mem_cons.1 h
    simp only [tryBranches, hbranch, ih hbranches]

/-- The validators agree on all nodes below the schema. -/
abbrev AgreeBelow (node node' : Json → Json → List Char → Check) (object : List (String × Json)) : Prop :=
  Parts (fun schema => node schema = node' schema) object

theorem AgreeBelow.branch_eq {combinator : String} {branches : List Json} (h : AgreeBelow node node' object)
    (hcombinator : combinator ∈ ["allOf", "anyOf", "oneOf"])
    (hfield : (Json.field object combinator).bind Json.asArray = some branches) :
    ∀ branch ∈ branches, node branch = node' branch := by
  obtain ⟨value, hvalue, harray⟩ := Option.bind_eq_some_iff.1 hfield
  cases value with
  | array items =>
    obtain rfl := Option.some.inj harray
    exact h.combinators combinator hcombinator items hvalue
  | _ => cases harray

theorem AgreeBelow.checkAllOf (h : AgreeBelow node node' object) (value : Json) (path : List Char) :
    checkAllOf node object value path = checkAllOf node' object value path := by
  rw [Recovery.checkAllOf, Recovery.checkAllOf]
  cases hfield : (Json.field object "allOf").bind Json.asArray with
  | none => rfl
  | some branches => exact forEach_congr fun branch hbranch => by rw [h.branch_eq (by simp) hfield branch hbranch]

theorem AgreeBelow.checkAnyOf (h : AgreeBelow node node' object) (value : Json) (path : List Char) :
    checkAnyOf floats node object value path = checkAnyOf floats node' object value path := by
  rw [Recovery.checkAnyOf, Recovery.checkAnyOf]
  cases hfield : (Json.field object "anyOf").bind Json.asArray with
  | none => rfl
  | some branches =>
    simp only [tryBranches_congr (h.branch_eq (by simp) hfield)]
    rfl

theorem AgreeBelow.checkOneOf (h : AgreeBelow node node' object) (value : Json) (path : List Char) :
    checkOneOf floats node object value path = checkOneOf floats node' object value path := by
  rw [Recovery.checkOneOf, Recovery.checkOneOf]
  cases hfield : (Json.field object "oneOf").bind Json.asArray with
  | none => rfl
  | some branches =>
    simp only [tryBranches_congr (h.branch_eq (by simp) hfield)]
    rfl

theorem AgreeBelow.checkProperty (h : AgreeBelow node node' object) (path : List Char) (property : String × Json) :
    checkProperty node object path property = checkProperty node' object path property := by
  rw [Recovery.checkProperty, Recovery.checkProperty]
  cases hdeclared : ((Json.field object "properties").bind asFields).bind (Json.field · property.1) with
  | some schema =>
    obtain ⟨properties, hproperties, hschema⟩ := Option.bind_eq_some_iff.1 hdeclared
    obtain ⟨value, hvalue, hfields⟩ := Option.bind_eq_some_iff.1 hproperties
    cases value with
    | object fields =>
      obtain rfl := Option.some.inj hfields
      obtain ⟨before, after, rfl, -⟩ := List.lookup_eq_some_iff.1 hschema
      have hnode := h.properties _ hvalue (property.1, schema) (by simp)
      simp only [hnode]
    | _ => cases hfields
  | none =>
    cases hextra : Json.field object "additionalProperties" with
    | none => rfl
    | some extra =>
      cases extra with
      | object fields => simp only [h.additional fields hextra]
      | bool b => cases b <;> rfl
      | _ => rfl

theorem AgreeBelow.checkObject (h : AgreeBelow node node' object) (value : Json) (path : List Char) :
    checkObject node object value path = checkObject node' object value path := by
  rw [Recovery.checkObject, Recovery.checkObject]
  cases asFields value with
  | none => rfl
  | some properties => simp only [forEach_congr fun property _ => h.checkProperty path property]

theorem AgreeBelow.checkArray (h : AgreeBelow node node' object) (value : Json) (path : List Char) :
    checkArray floats node object value path = checkArray floats node' object value path := by
  have hitems : ∀ items, checkItems node object path items = checkItems node' object path items := by
    intro items
    rw [checkItems, checkItems]
    cases hfield : Json.field object "items" with
    | none => rfl
    | some schema => simp only [h.items schema hfield]
  rw [Recovery.checkArray, Recovery.checkArray]
  cases value.asArray with
  | none => rfl
  | some items => simp only [hitems]

/-- Below a schema that passes, and with its keywords, strictness makes no difference. -/
theorem AgreeBelow.checkObjectSchema (h : AgreeBelow node node' object) (strict strict' : Bool) (value : Json)
    (path : List Char) : checkObjectSchema floats strict node object value path =
      checkObjectSchema floats strict' node' object value path := by
  have hkeywords : ∀ strict, checkKeywords strict object path = pure () := by
    intro strict
    rw [checkKeywords, h.keywords, Bool.and_false, failIf, if_neg Bool.false_ne_true]
  simp only [Recovery.checkObjectSchema, h.checkAllOf, h.checkAnyOf, h.checkOneOf, h.checkObject, h.checkArray,
    hkeywords]

end

theorem validateNode_object (floats : Floats) (strict : Bool) (levels : Nat) (object : List (String × Json))
    (value : Json) (path : List Char) (budget : Nat) :
    validateNode floats strict (levels + 1) (.object object) value path budget =
      if budget = 0 then violation path .maxNodes budget
      else checkObjectSchema floats strict (validateNode floats strict levels) object value path (budget - 1) := rfl

theorem Understood.validateNode (floats : Floats) (h : Understood levels schema) :
    validateNode floats true levels schema = validateNode floats false levels schema := by
  induction levels generalizing schema with
  | zero =>
    obtain ⟨budget, h⟩ := h
    cases h
  | succ levels ih =>
    funext value path budget
    cases schema with
    | object object =>
      have hbelow : AgreeBelow (Recovery.validateNode floats true levels) (Recovery.validateNode floats false levels)
          object :=
        { keywords := h.parts.keywords
          properties := fun properties hfield property hproperty =>
            ih (h.parts.properties properties hfield property hproperty)
          additional := fun extra hfield => ih (h.parts.additional extra hfield)
          items := fun items hfield => ih (h.parts.items items hfield)
          combinators := fun combinator hcombinator branches hfield branch hbranch =>
            ih (h.parts.combinators combinator hcombinator branches hfield branch hbranch) }
      rw [validateNode_object, validateNode_object, hbelow.checkObjectSchema true false]
    | bool b => cases b <;> rfl
    | _ => rfl

/-! ### Unsupported keywords -/

/-- Any rule but that of the keywords. -/
def Supported (issue : SchemaViolation) : Prop := issue.rule ≠ .unsupportedKeyword

section

variable {floats : Floats} {node : Json → Json → List Char → Check} {object : List (String × Json)}

theorem supported_violation (path : List Char) (h : rule ≠ .unsupportedKeyword) :
    Action.Fails Supported (violation path rule) := .fail h

theorem supported_failIf (condition : Bool) (path : List Char) (h : rule ≠ .unsupportedKeyword) :
    Action.Fails Supported (failIf condition path rule) := by
  rw [failIf]
  split
  · exact supported_violation path h
  · exact .pure ()

theorem supported_forEach {α : Type} {check : α → Check} {as : List α}
    (h : ∀ a ∈ as, Action.Fails Supported (check a)) : Action.Fails Supported (forEach check as) := by
  induction as with
  | nil => exact .pure ()
  | cons a as ih =>
    obtain ⟨ha, has⟩ := List.forall_mem_cons.1 h
    exact ha.bind fun _ => ih has

/-- The issues that a union may report. -/
structure Tally.Supported (tally : Tally) : Prop where
  first : ∀ issue, tally.firstIssue = some issue → Recovery.Supported issue
  selected : ∀ issue, tally.selectedIssue = some issue → Recovery.Supported issue

theorem supported_tally : Tally.Supported {} := by
  constructor
  · intro issue h
    cases h
  · intro issue h
    cases h

theorem Tally.Supported.fail {tally : Tally} (h : tally.Supported) (hissue : Recovery.Supported issue) (selected : Bool) :
    (tally.fail issue selected).Supported := by
  refine ⟨fun found hfound => ?_, fun found hfound => ?_⟩
  · rw [Tally.fail] at hfound
    cases hfirst : tally.firstIssue with
    | none =>
      simp only [hfirst] at hfound
      cases hfound
      exact hissue
    | some first =>
      simp only [hfirst] at hfound
      cases hfound
      exact h.first _ hfirst
  · rw [Tally.fail] at hfound
    simp only at hfound
    split at hfound
    · cases hfound
      exact hissue
    · exact h.selected found hfound

variable (hnode : ∀ schema value path, Action.Fails Supported (node schema value path))

include hnode

theorem supported_tryBranches (value : Json) (path : List Char) (first : Bool) (branches : List Json) {tally : Tally}
    (htally : tally.Supported) (budget : Nat) :
    (tryBranches floats node value path first branches tally budget).1.Supported := by
  induction branches generalizing tally budget with
  | nil => exact htally
  | cons branch branches ih =>
    rw [tryBranches]
    simp only
    split
    · split
      · exact ⟨htally.first, htally.selected⟩
      · exact @ih { tally with matched := saturatingSucc tally.matched } ⟨htally.first, htally.selected⟩ _
    · next issue hissue => exact ih (htally.fail (hnode branch value path budget issue hissue) _) _

omit hnode in
theorem supported_unionIssue {tally : Tally} (h : tally.Supported) (path : List Char) (hrule : rule ≠ .unsupportedKeyword) :
    Action.Fails Supported (unionIssue path tally rule) := by
  rw [unionIssue]
  split
  · next hselected => exact .fail (h.selected _ hselected)
  · next issue hfirst _ =>
    have hissue : issue.rule ≠ .unsupportedKeyword := h.first issue hfirst
    exact .fail hissue
  · exact .fail hrule

theorem supported_checkAllOf (value : Json) (path : List Char) :
    Action.Fails Supported (checkAllOf node object value path) := by
  rw [checkAllOf]
  split
  · exact .pure ()
  · exact supported_forEach fun schema _ => hnode schema value path

theorem supported_checkAnyOf (value : Json) (path : List Char) :
    Action.Fails Supported (checkAnyOf floats node object value path) := by
  rw [checkAnyOf]
  split
  · exact .pure ()
  · next branches _ =>
    intro budget issue hissue
    have htally := @supported_tryBranches floats node hnode value path true branches {} supported_tally budget
    simp only at hissue
    split at hissue
    · exact supported_unionIssue htally path (by decide) _ issue hissue
    · cases hissue

theorem supported_checkOneOf (value : Json) (path : List Char) :
    Action.Fails Supported (checkOneOf floats node object value path) := by
  rw [checkOneOf]
  split
  · exact .pure ()
  · next branches _ =>
    intro budget issue hissue
    have htally := @supported_tryBranches floats node hnode value path false branches {} supported_tally budget
    simp only at hissue
    split at hissue
    · cases hissue
    split at hissue
    · exact supported_unionIssue htally path (by decide) _ issue hissue
    · exact supported_violation path (by decide) _ issue hissue

theorem supported_checkProperty (path : List Char) (property : String × Json) :
    Action.Fails Supported (checkProperty node object path property) := by
  rw [checkProperty]
  split
  · exact hnode _ _ _
  · split
    · exact supported_violation _ (by decide)
    · exact hnode _ _ _
    · exact .pure ()

theorem supported_checkObject (value : Json) (path : List Char) :
    Action.Fails Supported (checkObject node object value path) := by
  rw [checkObject]
  split
  · exact .pure ()
  · refine .bind ?_ fun _ => .bind ?_ fun _ => .bind ?_ fun _ => ?_
    · rw [checkRequired]
      split
      · exact .pure ()
      · exact supported_forEach fun key _ => supported_failIf _ _ (by decide)
    · exact supported_forEach fun property _ => supported_checkProperty hnode path property
    · exact supported_failIf _ _ (by decide)
    · exact supported_failIf _ _ (by decide)

theorem supported_checkArray (value : Json) (path : List Char) :
    Action.Fails Supported (checkArray floats node object value path) := by
  rw [checkArray]
  split
  · exact .pure ()
  · refine .bind ?_ fun _ => .bind ?_ fun _ => .bind ?_ fun _ => ?_
    · rw [checkItems]
      split
      · exact .pure ()
      · exact supported_forEach fun item _ => hnode _ _ _
    · exact supported_failIf _ _ (by decide)
    · exact supported_failIf _ _ (by decide)
    · exact supported_failIf _ _ (by decide)

theorem supported_checkObjectSchema (value : Json) (path : List Char) :
    Action.Fails Supported (checkObjectSchema floats false node object value path) := by
  rw [checkObjectSchema]
  refine .bind (supported_failIf _ _ (by decide)) fun _ => .bind (supported_failIf _ _ (by decide)) fun _ =>
    .bind ?_ fun _ => .bind (supported_checkAllOf hnode value path) fun _ =>
      .bind (supported_checkAnyOf hnode value path) fun _ => .bind (supported_checkOneOf hnode value path) fun _ =>
        .bind (supported_checkObject hnode value path) fun _ => .bind (supported_checkArray hnode value path) fun _ =>
          .bind ?_ fun _ => .bind ?_ fun _ => ?_
  · rw [checkType]
    split
    · exact .pure ()
    · split
      · exact .pure ()
      · have htype : Rule.type ≠ .unsupportedKeyword := by decide
        exact .fail htype
  · rw [checkString]
    split
    · exact .pure ()
    · exact (supported_failIf _ _ (by decide)).bind fun _ => supported_failIf _ _ (by decide)
  · rw [checkNumber]
    split
    · exact .pure ()
    · exact (supported_failIf _ _ (by decide)).bind fun _ => (supported_failIf _ _ (by decide)).bind fun _ =>
        (supported_failIf _ _ (by decide)).bind fun _ => supported_failIf _ _ (by decide)
  · rw [checkKeywords, Bool.false_and, failIf, if_neg Bool.false_ne_true]
    exact .pure ()

end

/-- The other validation never looks at the keywords. -/
theorem supported_validateNode (floats : Floats) (levels : Nat) (schema value : Json) (path : List Char) :
    Action.Fails Supported (validateNode floats false levels schema value path) := by
  induction levels generalizing schema value path with
  | zero => exact supported_violation path (by decide)
  | succ levels ih =>
    intro budget issue hissue
    by_cases hbudget : budget = 0
    · subst hbudget
      exact supported_violation path (by decide) _ issue hissue
    cases schema with
    | object object =>
      rw [validateNode_object, if_neg hbudget] at hissue
      exact supported_checkObjectSchema ih value path _ issue hissue
    | bool answer =>
      simp only [validateNode, if_neg hbudget] at hissue
      cases answer with
      | true => cases hissue
      | false => exact supported_violation path (by decide) _ issue hissue
    | _ =>
      simp only [validateNode, if_neg hbudget] at hissue
      exact supported_violation path (by decide) _ issue hissue

/-- On a schema in the subset, strict validation is that without it, so that no arguments are rejected for a
keyword. -/
theorem validateSchema_strict {schema : Json} (h : schemaWithinStrictSubset schema limits = true) (floats : Floats)
    (arguments : Json) :
    validateSchema floats schema arguments true limits = validateSchema floats schema arguments false limits ∧
      ∀ issue, validateSchema floats schema arguments true limits = .error issue →
        issue.rule ≠ .unsupportedKeyword := by
  have heq : validateSchema floats schema arguments true limits =
      validateSchema floats schema arguments false limits := by
    rw [validateSchema, Understood.validateNode floats ⟨_, h⟩]
    rfl
  refine ⟨heq, fun issue hissue => ?_⟩
  rw [heq] at hissue
  exact supported_validateNode floats _ schema arguments [] _ issue hissue

/-- An object with a text `name`. -/
def namedSchema : Json := .object [("type", .string "object"),
  ("properties", .object [("name", .object [("type", .string "string")])])]

theorem validateSchema_strict_named :
    schemaWithinStrictSubset namedSchema ⟨2, 4⟩ = true ∧
      validateSchema plainFloats namedSchema (.object [("name", .null)]) true ⟨2, 4⟩ =
        validateSchema plainFloats namedSchema (.object [("name", .null)]) false ⟨2, 4⟩ :=
  ⟨by decide, (validateSchema_strict (by decide) plainFloats (.object [("name", .null)])).1⟩

end OhMyPi.Recovery
