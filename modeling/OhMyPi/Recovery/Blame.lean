import OhMyPi.Recovery.Repair

/-! What the validator blames. The path of a violation is the pointer to its place, and a member that
is reported as forbidden is forbidden by a node that governs the object it stands in. -/

namespace OhMyPi.Recovery

/-! ### Pointers -/

/-- The pointer to a place, which is a list of member names and indices. -/
def pathText (place : List (List Char)) : List Char := place.flatMap fun token => '/' :: escape token

theorem escape_cons (c : Char) (text : List Char) :
    escape (c :: text) =
      (if c = '~' then ['~', '0'] else if c = '/' then ['~', '1'] else [c]) ++ escape text := by
  rw [escape, replaceChar, replaceChar, List.flatMap_cons, List.flatMap_append]
  congr 1
  by_cases htilde : c = '~'
  · rw [if_pos htilde, if_pos htilde]
    rfl
  · rw [if_neg htilde, if_neg htilde, List.flatMap_singleton]

theorem slash_not_mem_escape (text : List Char) : '/' ∉ escape text := by
  induction text with
  | nil => exact List.not_mem_nil
  | cons c text ih =>
    rw [escape_cons, List.mem_append, not_or]
    refine ⟨?_, ih⟩
    split
    · decide
    · split
      · decide
      · next hslash => exact fun h => hslash (List.mem_singleton.1 h).symm

/-- The first replacement of `unescape` leaves the tildes escaped. -/
theorem replaceAll_escape (text : List Char) :
    Substitute.replaceAll ['~', '1'] ['/'] (escape text) = replaceChar '~' ['~', '0'] text := by
  induction text with
  | nil => rfl
  | cons c text ih =>
    rw [escape_cons, replaceChar, List.flatMap_cons, ← replaceChar, ← ih]
    split
    · rw [List.cons_append, List.cons_append, List.nil_append, Substitute.replaceAll_cons,
        Substitute.replaceAll_cons]
      · rfl
      · simp
      · simp
    · next htilde =>
      split
      · next hslash => rw [Substitute.replaceAll_append (by simp), hslash]
      · rw [List.singleton_append, Substitute.replaceAll_cons]
        · rfl
        · simpa using fun h => absurd h.symm htilde

theorem unescape_escape (text : List Char) : unescape (escape text) = text := by
  rw [unescape, replaceAll_escape]
  induction text with
  | nil => rfl
  | cons c text ih =>
    rw [replaceChar, List.flatMap_cons, ← replaceChar]
    split
    · next htilde => rw [Substitute.replaceAll_append (by simp), ih, htilde]; rfl
    · next htilde =>
      rw [List.singleton_append, Substitute.replaceAll_cons, ih]
      simpa using fun h => absurd h.symm htilde

theorem splitSlash_of_not_mem {token : List Char} (h : '/' ∉ token) : splitSlash token = [token] := by
  induction token with
  | nil => rfl
  | cons c token ih =>
    rw [List.mem_cons, not_or] at h
    rw [splitSlash, if_neg (Ne.symm h.1), ih h.2]

theorem splitSlash_append {token : List Char} (h : '/' ∉ token) (rest : List Char) :
    splitSlash (token ++ '/' :: rest) = token :: splitSlash rest := by
  induction token with
  | nil => rfl
  | cons c token ih =>
    rw [List.mem_cons, not_or] at h
    rw [List.cons_append, splitSlash, if_neg (Ne.symm h.1), ih h.2]

theorem splitSlash_pathText (token : List Char) (place : List (List Char)) :
    splitSlash (escape token ++ pathText place) = (token :: place).map escape := by
  induction place generalizing token with
  | nil => rw [pathText, List.flatMap_nil, List.append_nil, splitSlash_of_not_mem (slash_not_mem_escape token)]; rfl
  | cons next place ih =>
    rw [pathText, List.flatMap_cons, ← pathText, List.cons_append,
      splitSlash_append (slash_not_mem_escape token), ih]
    rfl

/-- A pointer leads back to its place, but for that to a member of the root without a name. -/
theorem pointerTokens_pathText {place : List (List Char)} (hroot : place ≠ []) (hblank : place ≠ [[]]) :
    pointerTokens (pathText place) = some place := by
  obtain ⟨token, place, rfl⟩ := List.exists_cons_of_ne_nil hroot
  have htext : pathText (token :: place) = '/' :: (escape token ++ pathText place) := rfl
  unfold pointerTokens
  rw [htext, if_neg]
  · simp only [splitSlash_pathText, List.map_map]
    have hid : unescape ∘ escape = id := funext unescape_escape
    rw [hid, List.map_id]
  · intro heq
    have hsplit := splitSlash_pathText token place
    rw [(List.cons.inj heq).2, splitSlash, List.map_cons, List.cons.injEq] at hsplit
    obtain ⟨htoken, hplace⟩ := hsplit
    rw [← unescape_escape token, ← htoken, List.map_eq_nil_iff.1 hplace.symm] at hblank
    exact hblank rfl

theorem rsplitOnce_pathText (place : List (List Char)) (token : List Char) :
    Text.rsplitOnce '/' (pathText (place ++ [token])) = some (pathText place, escape token) := by
  have htext : pathText (place ++ [token]) = pathText place ++ '/' :: escape token := by
    simp [pathText]
  rw [htext, Text.rsplitOnce_append (slash_not_mem_escape token)]

/-! ### What governs a place -/

/-- A node leaves no room for a member that it does not declare. -/
def Forbids (object : List (String × Json)) (key : String) : Prop :=
  ((Json.field object "properties").bind asFields).bind (Json.field · key) = none ∧
    Json.field object "additionalProperties" = some (.bool false)

/-- The node of the schema governs the value at the place of the arguments. A union governs through
the one branch whose tag the value selects. -/
inductive Governs (floats : Floats) (schema arguments : Json) :
    Json → List (List Char) → Json → Prop
  | root : Governs floats schema arguments schema [] arguments
  | allOf {object all branch place value} : Governs floats schema arguments (.object object) place value →
    (Json.field object "allOf").bind Json.asArray = some all → branch ∈ all →
    Governs floats schema arguments branch place value
  | selected {object keyword branches branch place value} :
    Governs floats schema arguments (.object object) place value →
    keyword = "anyOf" ∨ keyword = "oneOf" →
    (Json.field object keyword).bind Json.asArray = some branches →
    branches.filter (isTagSelectedBranch floats · value) = [branch] →
    Governs floats schema arguments branch place value
  | property {object node place fields key item} :
    Governs floats schema arguments (.object object) place (.object fields) → (key, item) ∈ fields →
    ((Json.field object "properties").bind asFields).bind (Json.field · key) = some node →
    Governs floats schema arguments node (place ++ [key.toList]) item
  | additional {object extra place fields key item} :
    Governs floats schema arguments (.object object) place (.object fields) → (key, item) ∈ fields →
    ((Json.field object "properties").bind asFields).bind (Json.field · key) = none →
    Json.field object "additionalProperties" = some (.object extra) →
    Governs floats schema arguments (.object extra) (place ++ [key.toList]) item
  | item {object node place items index item} :
    Governs floats schema arguments (.object object) place (.array items) →
    Json.field object "items" = some node → items[index]? = some item →
    Governs floats schema arguments node (place ++ [decimal index]) item

/-- The violation is that of a member that a node at its place forbids. -/
def Stray (floats : Floats) (schema arguments : Json) (issue : SchemaViolation) : Prop :=
  ∃ object place fields key, Governs floats schema arguments (.object object) place (.object fields) ∧
    key ∈ fields.map Prod.fst ∧ Forbids object key ∧ issue.path = pathText (place ++ [key.toList])

/-- What is known of a violation by its rule. -/
def Blames (floats : Floats) (schema arguments : Json) (issue : SchemaViolation) : Prop :=
  issue.rule = .additionalProperties → issue.fromUnionBranch = false →
    Stray floats schema arguments issue

section

variable {floats : Floats} {schema arguments : Json}

theorem fails_violation {path : List Char} {rule : Rule} (h : rule ≠ .additionalProperties) :
    Action.Fails (Blames floats schema arguments) (violation path rule) :=
  .fail fun hrule => absurd hrule h

theorem fails_failIf {condition : Bool} {path : List Char} {rule : Rule}
    (h : rule ≠ .additionalProperties) :
    Action.Fails (Blames floats schema arguments) (failIf condition path rule) := by
  rw [failIf]
  split
  · exact fails_violation h
  · exact .pure ()

theorem fails_forEach {α : Type} {P : SchemaViolation → Prop} {check : α → Check} {as : List α}
    (h : ∀ a ∈ as, Action.Fails P (check a)) : Action.Fails P (forEach check as) := by
  induction as with
  | nil => exact .pure ()
  | cons a as ih =>
    obtain ⟨ha, has⟩ := List.forall_mem_cons.1 h
    exact ha.bind fun _ => ih has

theorem childPath_pathText (place : List (List Char)) (token : List Char) :
    childPath (pathText place) token = pathText (place ++ [token]) := by
  simp [childPath, pathText]

theorem rooted_childPath (parent child : List Char) :
    rooted (childPath parent child) = childPath parent child := by
  rw [rooted, childPath, if_neg]
  simp

/-! ### Unions -/

section

variable {strict : Bool} {node : Json → Json → List Char → Check} {value : Json} {path : List Char}

/-- What the tally says of the branches that failed so far. -/
structure Tallies (floats : Floats) (node : Json → Json → List Char → Check) (value : Json)
    (path : List Char) (seen : List Json) (tally : Tally) : Prop where
  count : tally.selectedCount =
    min (seen.filter (isTagSelectedBranch floats · value)).length (2 ^ 32 - 1)
  issue : ∀ issue, tally.selectedIssue = some issue → ∃ branch budget,
    (seen.filter (isTagSelectedBranch floats · value)).head? = some branch ∧
      (node branch value path budget).1 = .error issue

theorem tallies_nil : Tallies floats node value path [] {} where
  count := rfl
  issue _ h := by cases h

theorem Tallies.fail {seen : List Json} {tally : Tally} (h : Tallies floats node value path seen tally)
    {branch : Json} {budget : Nat} {issue : SchemaViolation}
    (hissue : (node branch value path budget).1 = .error issue) :
    Tallies floats node value path (seen ++ [branch])
      (tally.fail issue (isTagSelectedBranch floats branch value)) := by
  cases hselected : isTagSelectedBranch floats branch value with
  | false =>
    have hfilter : (seen ++ [branch]).filter (isTagSelectedBranch floats · value) =
        seen.filter (isTagSelectedBranch floats · value) := by
      simp [List.filter_append, hselected]
    constructor
    · rw [hfilter]
      exact h.count
    · rw [hfilter]
      exact h.issue
  | true =>
    have hfilter : (seen ++ [branch]).filter (isTagSelectedBranch floats · value) =
        seen.filter (isTagSelectedBranch floats · value) ++ [branch] := by
      simp [List.filter_append, hselected]
    have hcount := h.count
    constructor
    · rw [hfilter, List.length_append, List.length_singleton]
      simp only [Tally.fail, if_true, saturatingSucc, hcount]
      omega
    · rw [hfilter]
      intro found hfound
      simp only [Tally.fail, Bool.true_and] at hfound
      split at hfound
      · next hone =>
        -- No branch was selected before.
        cases hfound
        have hnone : seen.filter (isTagSelectedBranch floats · value) = [] := by
          rw [beq_iff_eq, saturatingSucc, hcount] at hone
          apply List.eq_nil_of_length_eq_zero
          omega
        exact ⟨branch, budget, by rw [hnone]; rfl, hissue⟩
      · obtain ⟨first, at', hhead, hfirst⟩ := h.issue found hfound
        exact ⟨first, at', by rw [List.head?_append, hhead]; rfl, hfirst⟩

theorem tryBranches_ok {first : Bool} {branch : Json} {branches : List Json} {tally : Tally}
    {budget after : Nat} (h : node branch value path budget = (.ok (), after)) :
    tryBranches floats node value path first (branch :: branches) tally budget =
      if first then
        ({ tally with matched := saturatingSucc tally.matched }, budget - (budget - after))
      else tryBranches floats node value path first branches
        { tally with matched := saturatingSucc tally.matched } (budget - (budget - after)) := by
  rw [tryBranches, h]

theorem tryBranches_error {first : Bool} {branch : Json} {branches : List Json} {tally : Tally}
    {budget after : Nat} {issue : SchemaViolation}
    (h : node branch value path budget = (.error issue, after)) :
    tryBranches floats node value path first (branch :: branches) tally budget =
      tryBranches floats node value path first branches
        (tally.fail issue (isTagSelectedBranch floats branch value)) (budget - (budget - after)) := by
  rw [tryBranches, h]

theorem saturatingSucc_ne_zero (n : Nat) : saturatingSucc n ≠ 0 := by
  rw [saturatingSucc]
  omega

theorem matched_tryBranches {first : Bool} {branches : List Json} {tally : Tally} {budget : Nat}
    (h : tally.matched ≠ 0) :
    (tryBranches floats node value path first branches tally budget).1.matched ≠ 0 := by
  induction branches generalizing tally budget with
  | nil => exact h
  | cons branch branches ih =>
    rcases hresult : node branch value path budget with ⟨issue | ⟨⟩, after⟩
    · rw [tryBranches_error hresult]
      exact ih h
    · rw [tryBranches_ok hresult]
      split
      · exact saturatingSucc_ne_zero _
      · exact ih (saturatingSucc_ne_zero _)

theorem tallies_tryBranches {first : Bool} {branches seen : List Json} {tally : Tally} {budget : Nat}
    (h : Tallies floats node value path seen tally)
    (hnone : (tryBranches floats node value path first branches tally budget).1.matched = 0) :
    Tallies floats node value path (seen ++ branches)
      (tryBranches floats node value path first branches tally budget).1 := by
  induction branches generalizing seen tally budget with
  | nil =>
    rw [List.append_nil]
    exact h
  | cons branch branches ih =>
    rcases hresult : node branch value path budget with ⟨issue | ⟨⟩, after⟩
    · rw [tryBranches_error hresult] at hnone ⊢
      rw [List.append_cons]
      exact ih (h.fail (show (node branch value path budget).1 = _ by rw [hresult])) hnone
    · rw [tryBranches_ok hresult] at hnone
      split at hnone
      · exact absurd hnone (saturatingSucc_ne_zero _)
      · exact absurd hnone (matched_tryBranches (saturatingSucc_ne_zero _))

/-- A union blames the branch that is selected, or says that it speaks for none. -/
theorem fails_unionIssue {first : Bool} {branches : List Json} {budget : Nat} {rule : Rule}
    (hrule : rule ≠ .additionalProperties)
    (hnone : (tryBranches floats node value path first branches {} budget).1.matched = 0)
    (hbranch : ∀ branch, branches.filter (isTagSelectedBranch floats · value) = [branch] →
      Action.Fails (Blames floats schema arguments) (node branch value path)) :
    Action.Fails (Blames floats schema arguments)
      (unionIssue path (tryBranches floats node value path first branches {} budget).1 rule) := by
  have htallies := tallies_tryBranches tallies_nil hnone
  rw [List.nil_append] at htallies
  unfold unionIssue
  split
  · next issue hcount hissue =>
    obtain ⟨branch, at', hhead, herror⟩ := htallies.issue issue hissue
    have hone := htallies.count
    rw [hcount] at hone
    obtain ⟨only, honly⟩ := List.length_eq_one_iff.1
      (show (branches.filter (isTagSelectedBranch floats · value)).length = 1 by omega)
    rw [honly] at hhead
    cases hhead
    exact .fail (hbranch branch honly at' issue herror)
  · exact .fail fun _ hunion => by cases hunion
  · exact fails_violation hrule

end

/-! ### The validator -/

section

variable {strict : Bool} {levels : Nat} {object : List (String × Json)} {value : Json}
  {place : List (List Char)} {node : Json → Json → List Char → Check}

theorem fails_checkProperty {fields : List (String × Json)} {property : String × Json}
    (hnode : ∀ schema' place' value', Governs floats schema arguments schema' place' value' →
      Action.Fails (Blames floats schema arguments) (node schema' value' (pathText place')))
    (hgoverns : Governs floats schema arguments (.object object) place (.object fields))
    (hproperty : property ∈ fields) :
    Action.Fails (Blames floats schema arguments)
      (checkProperty node object (pathText place) property) := by
  obtain ⟨key, item⟩ := property
  unfold checkProperty
  simp only [childPath_pathText]
  split
  · next schema' hdeclared => exact hnode _ _ _ (hgoverns.property hproperty hdeclared)
  · next hundeclared =>
    split
    · next hclosed =>
      refine .fail fun _ _ => ⟨object, place, fields, key, hgoverns, ?_, ⟨hundeclared, hclosed⟩, ?_⟩
      · exact List.mem_map_of_mem hproperty
      · rw [← childPath_pathText, rooted_childPath]
    · next extra hextra => exact hnode _ _ _ (hgoverns.additional hproperty hundeclared hextra)
    · exact .pure ()

theorem fails_checkObject
    (hnode : ∀ schema' place' value', Governs floats schema arguments schema' place' value' →
      Action.Fails (Blames floats schema arguments) (node schema' value' (pathText place')))
    (hgoverns : Governs floats schema arguments (.object object) place value) :
    Action.Fails (Blames floats schema arguments) (checkObject node object value (pathText place)) := by
  rw [checkObject]
  cases value with
  | object fields =>
    refine .bind ?_ fun _ => .bind ?_ fun _ => .bind ?_ fun _ => ?_
    · rw [checkRequired]
      split
      · exact .pure ()
      · exact fails_forEach fun key _ => fails_failIf (by decide)
    · exact fails_forEach fun property hproperty => fails_checkProperty hnode hgoverns hproperty
    · exact fails_failIf (by decide)
    · exact fails_failIf (by decide)
  | _ => exact .pure ()

theorem fails_checkArray
    (hnode : ∀ schema' place' value', Governs floats schema arguments schema' place' value' →
      Action.Fails (Blames floats schema arguments) (node schema' value' (pathText place')))
    (hgoverns : Governs floats schema arguments (.object object) place value) :
    Action.Fails (Blames floats schema arguments)
      (checkArray floats node object value (pathText place)) := by
  rw [checkArray]
  cases value with
  | array items =>
    refine .bind ?_ fun _ => .bind ?_ fun _ => .bind ?_ fun _ => ?_
    · rw [checkItems]
      split
      · exact .pure ()
      · next schema' hitems =>
        refine fails_forEach fun item hitem => ?_
        rw [childPath_pathText]
        exact hnode _ _ _ (hgoverns.item hitems (List.mem_zipIdx_iff_getElem?.1 hitem))
    · exact fails_failIf (by decide)
    · exact fails_failIf (by decide)
    · exact fails_failIf (by decide)
  | _ => exact .pure ()

/-- The two unions differ in how many branches they let match. -/
theorem fails_checkUnions
    (hnode : ∀ schema' place' value', Governs floats schema arguments schema' place' value' →
      Action.Fails (Blames floats schema arguments) (node schema' value' (pathText place')))
    (hgoverns : Governs floats schema arguments (.object object) place value) :
    Action.Fails (Blames floats schema arguments)
        (checkAnyOf floats node object value (pathText place)) ∧
      Action.Fails (Blames floats schema arguments)
        (checkOneOf floats node object value (pathText place)) := by
  constructor
  · rw [checkAnyOf]
    split
    · exact .pure ()
    · next branches hbranches =>
      intro budget issue herror
      simp only at herror
      split at herror
      · next hnone =>
        refine fails_unionIssue (by decide) (beq_iff_eq.1 hnone) (fun branch hbranch => ?_) _ issue herror
        exact hnode _ _ _ (hgoverns.selected (.inl rfl) hbranches hbranch)
      · cases herror
  · rw [checkOneOf]
    split
    · exact .pure ()
    · next branches hbranches =>
      intro budget issue herror
      simp only at herror
      split at herror
      · cases herror
      · split at herror
        · next hnone =>
          refine fails_unionIssue (by decide) (beq_iff_eq.1 hnone) (fun branch hbranch => ?_) _ issue herror
          exact hnode _ _ _ (hgoverns.selected (.inr rfl) hbranches hbranch)
        · exact fails_violation (by decide) _ issue herror

theorem fails_checkObjectSchema
    (hnode : ∀ schema' place' value', Governs floats schema arguments schema' place' value' →
      Action.Fails (Blames floats schema arguments) (node schema' value' (pathText place')))
    (hgoverns : Governs floats schema arguments (.object object) place value) :
    Action.Fails (Blames floats schema arguments)
      (checkObjectSchema floats strict node object value (pathText place)) := by
  obtain ⟨hany, hone⟩ := fails_checkUnions hnode hgoverns
  refine .bind ?_ fun _ => .bind ?_ fun _ => .bind ?_ fun _ => .bind ?_ fun _ => hany.bind fun _ =>
    hone.bind fun _ => (fails_checkObject hnode hgoverns).bind fun _ =>
    (fails_checkArray hnode hgoverns).bind fun _ => .bind ?_ fun _ => .bind ?_ fun _ => ?_
  · exact fails_failIf (by decide)
  · exact fails_failIf (by decide)
  · rw [checkType]
    split
    · exact .pure ()
    · split
      · exact .pure ()
      · exact .fail fun hrule => by cases hrule
  · rw [checkAllOf]
    split
    · exact .pure ()
    · next all hall => exact fails_forEach fun branch hbranch => hnode _ _ _ (hgoverns.allOf hall hbranch)
  · rw [checkString]
    split
    · exact .pure ()
    · exact .bind (fails_failIf (by decide)) fun _ => fails_failIf (by decide)
  · rw [checkNumber]
    split
    · exact .pure ()
    · exact .bind (fails_failIf (by decide)) fun _ => .bind (fails_failIf (by decide)) fun _ =>
        .bind (fails_failIf (by decide)) fun _ => fails_failIf (by decide)
  · exact fails_failIf (by decide)

/-- Every violation that the validator reports names what it blames. -/
theorem fails_validateNode {schema' : Json}
    (hgoverns : Governs floats schema arguments schema' place value) :
    Action.Fails (Blames floats schema arguments)
      (validateNode floats strict levels schema' value (pathText place)) := by
  induction levels generalizing schema' place value with
  | zero => exact fails_violation (by decide)
  | succ levels ih =>
    have hnode : ∀ schema' place' value', Governs floats schema arguments schema' place' value' →
        Action.Fails (Blames floats schema arguments)
          (validateNode floats strict levels schema' value' (pathText place')) :=
      fun _ _ _ h => ih h
    intro budget issue herror
    unfold validateNode at herror
    split at herror
    · exact fails_violation (show Rule.maxNodes ≠ _ by decide) budget issue herror
    · split at herror
      · cases herror
      · exact fails_violation (show Rule.falseSchema ≠ _ by decide) _ issue herror
      · exact fails_checkObjectSchema hnode hgoverns _ issue herror
      · exact fails_violation (show Rule.schemaType ≠ _ by decide) _ issue herror

end

end

end OhMyPi.Recovery
