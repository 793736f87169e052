import OhMyPi.Secrets.RoundTrip

/-! Restoring a text that arrives in pieces. The buffer holds back a suffix that may still become a
placeholder, by a grammar of its own; the rest is restored and passed on. -/

namespace OhMyPi.Secrets

open Delimited

/-! ## The buffer -/

/-- What stands behind the last underscore. -/
def baseOf (named : List Char) : List Char :=
  match Text.rsplitOnce '_' named with
  | some (_, base) => base
  | none => named

/-- `complete_body`. -/
def completeBody (body : List Char) : Bool :=
  let (named, hint) :=
    match Text.splitOnce ':' body with
    | some (named, hint) => (named, some hint)
    | none => (body, none)
  decide (4 ≤ (baseOf named).length) && (baseOf named).all isTagChar && hint.all isHint

/-- The loop of `possible_body_prefix`: the positions of the underscore and the colon, or the answer
when it is found on the way. -/
def bodyLoop (body : List Char) :
    Nat → Option Nat → Option Nat → List Char → Except Bool (Option Nat × Option Nat)
  | _, underscore, colon, [] => .ok (underscore, colon)
  | index, underscore, colon, c :: rest =>
    if isTagChar c then bodyLoop body (index + 1) underscore colon rest
    else if c = '_' ∧ underscore = none ∧ colon = none ∧ 0 < index then
      bodyLoop body (index + 1) (some index) colon rest
    else if c = ':' ∧ colon = none then bodyLoop body (index + 1) underscore (some index) rest
    else if c = '$' ∧ rest = [] then .error (completeBody (body.take index))
    else .error false

/-- What the positions of the underscore and the colon say of a body that holds nothing else. -/
def marksPossible (body : List Char) (underscore : Option Nat) : Option Nat → Bool
  | none => true
  | some colon =>
    if colon = (underscore.map (· + 1)).getD 0 ∨ colon + 2 < body.length then false
    else colon + 1 = body.length || isHint (body.drop (colon + 1))

/-- `possible_body_prefix`. -/
def possibleBodyPrefix (body : List Char) : Bool :=
  if body = [] then true
  else
    match bodyLoop body 0 none none body with
    | .error answer => answer
    | .ok (underscore, colon) => marksPossible body underscore colon

/-- `rfind("$$")`. -/
def rfindDelimiter : List Char → Option Nat
  | x :: y :: rest =>
    match rfindDelimiter (y :: rest) with
    | some start => some (start + 1)
    | none => if x = '$' ∧ y = '$' then some 0 else none
  | _ => none

/-- The text ends with a closed body. -/
def endsClosed (text : List Char) : Bool :=
  if ['$', '$'].isSuffixOf text then
    let before := text.take (text.length - 2)
    match rfindDelimiter before with
    | some start => completeBody (before.drop (start + 2))
    | none => false
  else false

/-- The text ends with a `$` that follows no other. -/
def endsSingle (text : List Char) : Bool :=
  match text.reverse with
  | '$' :: before => before.head? ≠ some '$'
  | _ => false

/-- The rightmost delimiter with a possible body behind it. -/
def lastOpening (text : List Char) : Nat → Nat → Option Nat
  | 0, _ => none
  | fuel + 1, stop =>
    match rfindDelimiter (text.take stop) with
    | none => none
    | some start =>
      if possibleBodyPrefix (text.drop (start + 2)) then some start else lastOpening text fuel start

/-- Where the part of the text that is held back begins: the text less
`possible_placeholder_suffix_len`. -/
def emitLen (text : List Char) : Nat :=
  if endsClosed text then text.length
  else if endsSingle text then
    match rfindDelimiter text with
    | some start => if possibleBodyPrefix (text.drop (start + 2)) then start else text.length - 1
    | none => text.length - 1
  else (lastOpening text text.length text.length).getD text.length

/-- `PlaceholderStream::push`: what is passed on and what is held back. -/
def streamPush (pending delta : List Char) : List Char × List Char :=
  let text := pending ++ delta
  (text.take (emitLen text), text.drop (emitLen text))

/-- `SecretStreamRestorer`: the restored pieces of a run of pushes and of the final flush. -/
def restoreStream (o : SecretObfuscator) (fuel : Nat) :
    List Char → List (List Char) → Option (List (List Char))
  | pending, [] => (o.deobfuscate fuel pending).map fun piece => [piece]
  | pending, delta :: deltas =>
    (o.deobfuscate fuel (streamPush pending delta).1).bind fun piece =>
      (restoreStream o fuel (streamPush pending delta).2 deltas).map (piece :: ·)

/-! ## The grammar of the buffer -/

theorem completeBody_of_validBody {w : List Char} (h : validBody w = true) :
    completeBody w = true := by
  obtain ⟨front, base, tail, rfl, hparts⟩ := validBody_iff.1 h
  have hbaseOf : baseOf (front ++ base) = base := by
    rw [baseOf]
    rcases hparts.label with rfl | ⟨label, -, -, rfl⟩
    · rw [List.nil_append, Text.rsplitOnce_of_not_mem (hparts.tag.not_mem rfl)]
    · rw [List.append_assoc, List.singleton_append,
        Text.rsplitOnce_append (hparts.tag.not_mem rfl)]
  have hcolon : ':' ∉ front ++ base := by
    rw [List.mem_append, not_or]
    refine ⟨?_, hparts.tag.not_mem rfl⟩
    rcases hparts.label with rfl | ⟨label, -, htag, rfl⟩
    · exact List.not_mem_nil
    · simpa using htag.not_mem rfl
  have hbase : (decide (4 ≤ base.length) && base.all isTagChar) = true := by
    simp [hparts.long, all_isTagChar.2 hparts.tag]
  rcases hparts.hint with rfl | ⟨c, rfl⟩
  · rw [List.append_nil, completeBody, Text.splitOnce_eq_none.2 hcolon]
    simp only [hbaseOf]
    rw [hbase]
    rfl
  · rw [← List.append_assoc, completeBody, Text.splitOnce_append hcolon]
    simp only [hbaseOf]
    rw [hbase, Option.all_some, isHint_iff.2 ⟨c, rfl⟩]
    rfl

theorem bodyLoop_tags {body : List Char} (h : Tag t) (index : Nat) (underscore colon : Option Nat)
    (rest : List Char) : bodyLoop body index underscore colon (t ++ rest) =
      bodyLoop body (index + t.length) underscore colon rest := by
  induction t generalizing index with
  | nil => rfl
  | cons c t ih =>
    rw [List.cons_append, bodyLoop, if_pos (h c List.mem_cons_self),
      ih fun x hx => h x (List.mem_cons_of_mem _ hx), List.length_cons, Nat.add_assoc,
      Nat.add_comm 1]

theorem bodyLoop_underscore {body : List Char} {index : Nat} (h : 0 < index) (rest : List Char) :
    bodyLoop body index none none ('_' :: rest) =
      bodyLoop body (index + 1) (some index) none rest := by
  rw [bodyLoop, if_neg (by decide), if_pos ⟨rfl, rfl, rfl, h⟩]

theorem bodyLoop_colon (body : List Char) (index : Nat) (underscore : Option Nat)
    (rest : List Char) : bodyLoop body index underscore none (':' :: rest) =
      bodyLoop body (index + 1) underscore (some index) rest := by
  rw [bodyLoop, if_neg (by decide), if_neg (by simp), if_pos ⟨rfl, rfl⟩]

/-- Where the loop stands behind the label. -/
theorem bodyLoop_front (body rest : List Char) {front : List Char}
    (h : front = [] ∨ ∃ label, label ≠ [] ∧ Tag label ∧ front = label ++ ['_']) :
    ∃ underscore, bodyLoop body 0 none none (front ++ rest) =
      bodyLoop body front.length underscore none rest ∧
      (underscore.map (· + 1)).getD 0 = front.length := by
  rcases h with rfl | ⟨label, hne, htag, rfl⟩
  · exact ⟨none, rfl, rfl⟩
  · refine ⟨some label.length, ?_, by simp⟩
    rw [List.append_assoc, List.singleton_append, bodyLoop_tags htag,
      bodyLoop_underscore (by rw [Nat.zero_add]; exact List.length_pos_iff.2 hne)]
    simp

/-- Where the loop stands behind a body: at its end, with marks that make it possible. -/
theorem bodyLoop_parts (body rest : List Char) {front base tail : List Char}
    (h : Parts front base tail) :
    ∃ underscore colon, bodyLoop body 0 none none (front ++ (base ++ (tail ++ rest))) =
      bodyLoop body (front ++ (base ++ tail)).length underscore colon rest ∧
      marksPossible (front ++ (base ++ tail)) underscore colon = true := by
  obtain ⟨underscore, hloop, hstart⟩ := bodyLoop_front body (base ++ (tail ++ rest)) h.label
  rw [bodyLoop_tags h.tag] at hloop
  have hlong := h.long
  rcases h.hint with rfl | ⟨c, rfl⟩
  · exact ⟨underscore, none, by simpa using hloop, rfl⟩
  · refine ⟨underscore, some (front.length + base.length), ?_, ?_⟩
    · rw [hloop, List.cons_append, bodyLoop_colon]
      have htag : Tag [c.suffix] := by simpa [Tag] using isTagChar_suffix c
      rw [bodyLoop_tags htag]
      simp [Nat.add_assoc]
    · have hdrop : (front ++ (base ++ [':', c.suffix])).drop (front.length + base.length + 1) =
          [c.suffix] := by
        rw [show front ++ (base ++ [':', c.suffix]) = (front ++ base ++ [':']) ++ [c.suffix] by simp]
        exact List.drop_left' (by simp [Nat.add_assoc])
      have hmarks : ¬ (front.length + base.length = front.length ∨
          front.length + base.length + 2 < (front ++ (base ++ [':', c.suffix])).length) := by
        simp only [List.length_append, List.length_cons, List.length_nil]
        omega
      rw [marksPossible, hstart, if_neg hmarks, hdrop, isHint_iff.2 ⟨c, rfl⟩, Bool.or_true]

theorem possibleBodyPrefix_of_ok {body : List Char} {underscore colon : Option Nat}
    (h : bodyLoop body 0 none none body = .ok (underscore, colon))
    (hmarks : marksPossible body underscore colon = true) : possibleBodyPrefix body = true := by
  rw [possibleBodyPrefix]
  split
  · rfl
  · rw [h]
    exact hmarks

/-- The buffer holds back every beginning of a placeholder's body. -/
theorem possibleBodyPrefix_of_prefix {w v : List Char} (hw : validBody w = true) (h : v <+: w) :
    possibleBodyPrefix v = true := by
  obtain ⟨front, base, tail, rfl, hparts⟩ := validBody_iff.1 hw
  have hfront : ∀ t, Tag t → possibleBodyPrefix (front ++ t) = true := by
    intro t ht
    obtain ⟨underscore, hloop, -⟩ := bodyLoop_front (front ++ t) t hparts.label
    rw [← List.append_nil t, bodyLoop_tags ht, List.append_nil] at hloop
    exact possibleBodyPrefix_of_ok hloop rfl
  obtain ⟨rest, heq⟩ := h
  rcases List.append_eq_append_iff.1 heq with ⟨as, has, -⟩ | ⟨bs, rfl, hbs⟩
  · -- Inside the label.
    rcases hparts.label with rfl | ⟨label, -, htag, rfl⟩
    · rw [(List.append_eq_nil_iff.1 has.symm).1]
      rfl
    · rcases List.prefix_concat_iff.1 ⟨as, has.symm⟩ with rfl | hv
      · simpa using hfront [] fun _ hx => absurd hx List.not_mem_nil
      · have hvtag : Tag v := fun x hx => htag x (hv.subset hx)
        have hloop : bodyLoop v 0 none none (v ++ []) = .ok (none, none) := bodyLoop_tags hvtag ..
        rw [List.append_nil] at hloop
        exact possibleBodyPrefix_of_ok hloop rfl
  · rcases List.append_eq_append_iff.1 hbs.symm with ⟨as, has, -⟩ | ⟨cs, rfl, hcs⟩
    · exact hfront bs fun x hx => hparts.tag x (has ▸ List.mem_append_left _ hx)
    · -- Behind the base: nothing, the colon, or the colon and the hint.
      rcases hparts.hint with rfl | ⟨c, rfl⟩
      · rw [(List.append_eq_nil_iff.1 hcs.symm).1, List.append_nil]
        exact hfront base hparts.tag
      cases cs with
      | nil => simpa using hfront base hparts.tag
      | cons x cs =>
        rw [List.cons_append, List.cons.injEq] at hcs
        obtain ⟨rfl, hcs⟩ := hcs
        cases cs with
        | nil =>
          obtain ⟨underscore, hloop, hstart⟩ :=
            bodyLoop_front (front ++ (base ++ [':'])) (base ++ [':']) hparts.label
          have hmarks : ¬ (front.length + base.length = front.length ∨
              front.length + base.length + 2 < (front ++ (base ++ [':'])).length) := by
            have hlong := hparts.long
            simp only [List.length_append, List.length_cons, List.length_nil]
            omega
          rw [bodyLoop_tags hparts.tag, bodyLoop_colon] at hloop
          refine possibleBodyPrefix_of_ok hloop ?_
          rw [marksPossible, hstart, if_neg hmarks]
          simp [Nat.add_assoc]
        | cons y cs =>
          rw [List.cons_append, List.cons.injEq] at hcs
          obtain ⟨rfl, hnil⟩ := hcs
          obtain ⟨rfl, -⟩ := List.append_eq_nil_iff.1 hnil.symm
          obtain ⟨underscore, colon, hloop, hmarks⟩ :=
            bodyLoop_parts (front ++ (base ++ [':', c.suffix])) [] hparts
          rw [List.append_nil] at hloop
          exact possibleBodyPrefix_of_ok hloop hmarks

/-- The buffer holds back a body and half of its closing delimiter. -/
theorem possibleBodyPrefix_dollar {w : List Char} (hw : validBody w = true) :
    possibleBodyPrefix (w ++ ['$']) = true := by
  obtain ⟨front, base, tail, rfl, hparts⟩ := validBody_iff.1 hw
  obtain ⟨underscore, colon, hloop, -⟩ :=
    bodyLoop_parts (front ++ (base ++ tail) ++ ['$']) ['$'] hparts
  have hbody : front ++ (base ++ tail) ++ ['$'] = front ++ (base ++ (tail ++ ['$'])) := by simp
  rw [possibleBodyPrefix, if_neg (by simp)]
  conv in bodyLoop _ _ _ _ _ => arg 5; rw [hbody]
  rw [hloop, bodyLoop, if_neg (by decide), if_neg (by simp), if_neg (by simp), if_pos ⟨rfl, rfl⟩]
  simp only [List.take_left]
  exact completeBody_of_validBody hw

/-- A body that starts with a colon is never possible, whatever the loop meets behind it. -/
theorem bodyLoop_colon_first (body : List Char) (index : Nat) (rest : List Char) :
    bodyLoop body index none (some 0) rest = .ok (none, some 0) ∨
      ∃ answer, bodyLoop body index none (some 0) rest = .error answer ∧
        (answer = false ∨ ∃ n, answer = completeBody (body.take n)) := by
  induction rest generalizing index with
  | nil => exact .inl rfl
  | cons c rest ih =>
    rw [bodyLoop, if_neg (c := c = '_' ∧ _) (by simp), if_neg (c := c = ':' ∧ _) (by simp)]
    split
    · exact ih (index + 1)
    · split
      · exact .inr ⟨_, rfl, .inr ⟨index, rfl⟩⟩
      · exact .inr ⟨_, rfl, .inl rfl⟩

/-- A possible body starts with a letter or a digit. -/
theorem isTagChar_of_possibleBodyPrefix {c : Char} {rest : List Char}
    (h : possibleBodyPrefix (c :: rest) = true) : isTagChar c = true := by
  by_contra htag
  rw [possibleBodyPrefix, if_neg (List.cons_ne_nil _ _), bodyLoop, if_neg htag,
    if_neg (by simp)] at h
  by_cases hcolon : c = ':'
  · subst hcolon
    rw [if_pos ⟨rfl, rfl⟩] at h
    rcases bodyLoop_colon_first (':' :: rest) 1 rest with hok | ⟨answer, herror, hanswer⟩
    · rw [hok] at h
      simp [marksPossible] at h
    · rw [herror] at h
      rcases hanswer with rfl | ⟨n, rfl⟩
      · cases h
      · cases n <;> cases h
  · rw [if_neg fun hc => hcolon hc.1] at h
    by_cases hend : c = '$' ∧ rest = []
    · rw [if_pos hend] at h
      cases h
    · rw [if_neg hend] at h
      cases h

/-! ## Where a delimiter stands -/

theorem rfindDelimiter_of_single {t : List Char} (h : Single '$' t) : rfindDelimiter t = none := by
  induction t with
  | nil => rfl
  | cons x t ih =>
    cases t with
    | nil => rfl
    | cons y t =>
      obtain ⟨hxy, ht⟩ := single_cons_cons.1 h
      rw [rfindDelimiter, ih ht]
      exact if_neg hxy

theorem rfindDelimiter_append {t : List Char} (h : Single '$' ('$' :: t)) (front : List Char) :
    rfindDelimiter (front ++ '$' :: '$' :: t) = some front.length := by
  induction front with
  | nil =>
    rw [List.nil_append, rfindDelimiter, rfindDelimiter_of_single h]
    rfl
  | cons x front ih =>
    obtain ⟨y, rest, hcons⟩ := List.exists_cons_of_ne_nil
      (show front ++ '$' :: '$' :: t ≠ [] by simp)
    rw [List.cons_append, hcons, rfindDelimiter, ← hcons, ih]
    rfl

theorem rfindDelimiter_eq_some {t : List Char} (h : rfindDelimiter t = some start) :
    ∃ front back, t = front ++ '$' :: '$' :: back ∧ front.length = start := by
  induction t generalizing start with
  | nil => cases h
  | cons x t ih =>
    cases t with
    | nil => cases h
    | cons y t =>
      rw [rfindDelimiter] at h
      split at h
      · next start' hstart =>
        cases h
        obtain ⟨front, back, heq, rfl⟩ := ih hstart
        exact ⟨x :: front, back, by rw [heq, List.cons_append], rfl⟩
      · split at h
        · next hxy =>
          cases h
          exact ⟨[], t, by rw [hxy.1, hxy.2, List.nil_append], rfl⟩
        · cases h

theorem drop_behind_delimiter (front back : List Char) :
    (front ++ '$' :: '$' :: back).drop (front.length + 2) = back := by
  simp [List.drop_append]

theorem single_dollar_cons {t : List Char} (h : '$' ∉ t) : Single '$' ('$' :: t) := by
  cases t with
  | nil => exact single_singleton '$'
  | cons x t =>
    rw [List.mem_cons, not_or] at h
    exact single_cons_cons.2 ⟨fun hx => h.1 hx.2.symm,
      single_of_not_mem (by rw [List.mem_cons, not_or]; exact h)⟩

theorem endsClosed_eq_true {t : List Char} (h : endsClosed t = true) : ∃ front v,
    t = front ++ '$' :: '$' :: v ++ ['$', '$'] ∧ completeBody v = true := by
  rw [endsClosed] at h
  split at h
  · next hsuffix =>
    obtain ⟨before, rfl⟩ := List.isSuffixOf_iff_suffix.1 hsuffix
    simp only [List.length_append, List.length_cons, List.length_nil, Nat.add_sub_cancel,
      List.take_left] at h
    split at h
    · next start hstart =>
      obtain ⟨front, back, rfl, rfl⟩ := rfindDelimiter_eq_some hstart
      rw [drop_behind_delimiter] at h
      exact ⟨front, back, rfl, h⟩
    · cases h
  · cases h

theorem endsClosed_wrap {w : List Char} (hw : validBody w = true) (front : List Char) :
    endsClosed (front ++ wrap '$' w) = true := by
  have hwrap : front ++ wrap '$' w = front ++ '$' :: '$' :: w ++ ['$', '$'] := by simp [wrap]
  have hfind := rfindDelimiter_append (single_dollar_cons (dollar_not_mem_of_validBody hw)) front
  have hlen : (front ++ '$' :: '$' :: w ++ ['$', '$']).length - 2 =
      (front ++ '$' :: '$' :: w).length := by
    rw [List.length_append]
    rfl
  rw [hwrap, endsClosed, if_pos (List.isSuffixOf_iff_suffix.2 (List.suffix_append _ _)), hlen,
    List.take_left]
  simp only [hfind, drop_behind_delimiter]
  exact completeBody_of_validBody hw

theorem suffix_dollar_iff {t : List Char} : ['$'] <:+ t ↔ t.reverse.head? = some '$' := by
  rcases List.eq_nil_or_concat t with rfl | ⟨front, x, rfl⟩
  · simp
  · simp only [List.concat_eq_append, List.reverse_append, List.reverse_cons, List.reverse_nil,
      List.nil_append, List.cons_append, List.head?_cons, Option.some_inj]
    constructor
    · rintro ⟨u, hu⟩
      have := List.append_inj_right' hu rfl
      simpa using this.symm
    · rintro rfl
      exact List.suffix_append _ _

theorem endsSingle_iff {t : List Char} : endsSingle t = true ↔
    ∃ front, t = front ++ ['$'] ∧ ¬ ['$'] <:+ front := by
  rw [endsSingle]
  constructor
  · intro h
    split at h
    · next before hrev =>
      refine ⟨before.reverse, List.reverse_injective (by simp [hrev]), ?_⟩
      rw [suffix_dollar_iff, List.reverse_reverse]
      exact of_decide_eq_true h
    · cases h
  · rintro ⟨front, rfl, hfront⟩
    rw [suffix_dollar_iff] at hfront
    rw [List.reverse_append]
    exact decide_eq_true hfront

/-- The places at which a placeholder can be cut. -/
theorem wrap_eq_append {w x y : List Char} (h : wrap '$' w = x ++ y) (hx : x ≠ []) (hy : y ≠ []) :
    (x = ['$'] ∧ y = '$' :: (w ++ ['$', '$'])) ∨
    (∃ w₁ w₂, w = w₁ ++ w₂ ∧ x = '$' :: '$' :: w₁ ∧ y = w₂ ++ ['$', '$']) ∨
    (x = '$' :: '$' :: (w ++ ['$']) ∧ y = ['$']) := by
  rw [wrap] at h
  cases x with
  | nil => exact absurd rfl hx
  | cons c x =>
    rw [List.cons_append, List.cons.injEq] at h
    obtain ⟨rfl, h⟩ := h
    cases x with
    | nil => exact .inl ⟨rfl, h.symm⟩
    | cons c x =>
      rw [List.cons_append, List.cons.injEq] at h
      obtain ⟨rfl, h⟩ := h
      rcases List.append_eq_append_iff.1 h with ⟨as, rfl, has⟩ | ⟨bs, rfl, rfl⟩
      · rcases as with - | ⟨a₁, - | ⟨a₂, as⟩⟩
        · exact .inr (.inl ⟨w, [], by simp, by simp, has.symm⟩)
        · obtain ⟨rfl, rfl⟩ : '$' = a₁ ∧ ['$'] = y := by simpa using has
          exact .inr (.inr ⟨rfl, rfl⟩)
        · simp only [List.cons_append, List.cons.injEq, List.nil_eq, List.append_eq_nil_iff] at has
          exact absurd has.2.2.2 hy
      · exact .inr (.inl ⟨x, bs, rfl, rfl, rfl⟩)

/-! ## Pieces -/

namespace SecretObfuscator

variable {o : SecretObfuscator} {text : List Char}

/-- The transform restores the placeholder with this body. -/
def Resolves (o : SecretObfuscator) (body : List Char) : Prop :=
  (o.lookupPlaceholder (wrap '$' body)).isSome = true

theorem Held.validBody_of_resolves (ho : o.Held) (h : o.Resolves w) : validBody w = true := by
  obtain ⟨entry, hentry⟩ := Option.isSome_iff_exists.1 h
  rw [lookupPlaceholder] at hentry
  split at hentry
  · next hexact => exact ho.validBody_of_trusted (by rw [trusted, hexact]; rfl)
  · split at hentry
    · cases hentry
    · simp only at hentry
      split at hentry
      · cases hentry
      · obtain ⟨bare, hbare, -⟩ := Option.bind_eq_some_iff.1 hentry
        rw [placeholderWithoutFriendlyName, stripDelimiters_wrap] at hbare
        simp only at hbare
        split at hbare
        · cases hbare
        · next label rest hsplit =>
          split at hbare
          · cases hbare
          · next hok =>
            simp only [Bool.not_eq_true, Bool.or_eq_false_iff, Bool.not_eq_false'] at hok
            rw [validBody, hsplit]
            simp only [hok.1.1, hok.1.2]
            exact hok.2

/-- No placeholder that is restored stands where the buffer and the scan part ways: behind a `$`,
before a `$`, a letter or a digit, or with its opening delimiter behind a body that the buffer takes
for complete. -/
structure Undisturbed (o : SecretObfuscator) (text : List Char) : Prop where
  behind_dollar : ∀ w, o.Resolves w → ¬ '$' :: wrap '$' w <:+: text
  before_tag : ∀ w c, o.Resolves w → (isTagChar c = true ∨ c = '$') → ¬ wrap '$' w ++ [c] <:+: text
  behind_body : ∀ v w, completeBody v = true → o.Resolves w →
    ¬ '$' :: '$' :: v ++ wrap '$' w <:+: text

theorem Undisturbed.of_infix (h : o.Undisturbed text) (hu : u <:+: text) : o.Undisturbed u where
  behind_dollar w hw hin := h.behind_dollar w hw (hin.trans hu)
  before_tag w c hw hc hin := h.before_tag w c hw hc (hin.trans hu)
  behind_body v w hv hw hin := h.behind_body v w hv hw (hin.trans hu)

theorem Undisturbed.clears (h : o.Undisturbed (u ++ wrap '$' w ++ rest)) (hw : o.Resolves w) :
    Clears '$' validBody u where
  half := by
    rintro ⟨v, rfl⟩
    exact h.behind_dollar w hw ⟨v, rest, by simp⟩
  body := by
    rintro x hx ⟨v, rfl⟩
    exact h.behind_body x w (completeBody_of_validBody hx) hw ⟨v, rest, by simp⟩

/-- A placeholder that is restored lies across the place between two texts. -/
def Straddles (o : SecretObfuscator) (u v : List Char) : Prop := ∃ w x y, o.Resolves w ∧
  x ≠ [] ∧ y ≠ [] ∧ wrap '$' w = x ++ y ∧ x <:+ u ∧ y <+: v

/-- Two texts with no placeholder across them are restored one by one. -/
theorem Undisturbed.restorePass_append (ho : o.Held) (h : o.Undisturbed (u ++ v))
    (hstraddle : ¬ o.Straddles u v) : Secrets.restorePass o.lookupPlaceholder (u ++ v) =
      Secrets.restorePass o.lookupPlaceholder u ++ Secrets.restorePass o.lookupPlaceholder v := by
  induction hn : u.length + v.length using Nat.strongRecOn generalizing u v with
  | ind n ih =>
    have hwrap : ∀ w : List Char, (wrap '$' w).length = w.length + 4 := by simp [wrap]
    by_cases hu : ∃ w, o.Resolves w ∧ wrap '$' w <:+: u
    · obtain ⟨w, hw, a, b, rfl⟩ := hu
      have hvalid := ho.validBody_of_resolves hw
      have hall : o.Undisturbed (a ++ wrap '$' w ++ (b ++ v)) := by simpa using h
      have hleft : o.Undisturbed (a ++ wrap '$' w ++ b) := h.of_infix ⟨[], v, by simp⟩
      have hrest := ih (b.length + v.length) (by rw [← hn]; simp only [List.length_append, hwrap]; omega)
        (u := b) (v := v)
        (h.of_infix ⟨a ++ wrap '$' w, [], by simp⟩)
        (by
          rintro ⟨w', x, y, hw', hx, hy, heq, hxs, hyp⟩
          exact hstraddle ⟨w', x, y, hw', hx, hy, heq, hxs.trans (List.suffix_append _ _), hyp⟩) rfl
      rw [List.append_assoc, restorePass_append_wrap _ (hall.clears hw) hvalid, hrest,
        restorePass_append_wrap _ (hleft.clears hw) hvalid]
      simp
    by_cases hv : ∃ w, o.Resolves w ∧ wrap '$' w <:+: v
    · obtain ⟨w, hw, a, b, rfl⟩ := hv
      have hvalid := ho.validBody_of_resolves hw
      have hall : o.Undisturbed ((u ++ a) ++ wrap '$' w ++ b) := by simpa using h
      have hright : o.Undisturbed (a ++ wrap '$' w ++ b) := h.of_infix ⟨u, [], by simp⟩
      have hrest := ih (u.length + a.length) (by rw [← hn]; simp only [List.length_append, hwrap]; omega)
        (u := u) (v := a)
        (h.of_infix ⟨[], wrap '$' w ++ b, by simp⟩)
        (by
          rintro ⟨w', x, y, hw', hx, hy, heq, hxs, hyp⟩
          exact hstraddle ⟨w', x, y, hw', hx, hy, heq, hxs,
            hyp.trans ⟨wrap '$' w ++ b, by simp⟩⟩) rfl
      rw [show u ++ (a ++ wrap '$' w ++ b) = (u ++ a) ++ wrap '$' w ++ b by simp,
        restorePass_append_wrap _ (hall.clears hw) hvalid, hrest,
        restorePass_append_wrap _ (hright.clears hw) hvalid]
      simp
    · -- No placeholder in either text, hence none in the whole.
      have hnone : ∀ body, o.Resolves body → ¬ wrap '$' body <:+: u ++ v := by
        intro w hw hin
        rcases List.infix_append_iff_ne_nil.1 hin with hin | hin | ⟨x, y, hx, hy, heq, hxs, hyp⟩
        · exact hu ⟨w, hw, hin⟩
        · exact hv ⟨w, hw, hin⟩
        · exact hstraddle ⟨w, x, y, hw, hx, hy, heq, hxs, hyp⟩
      rw [restorePass_of_no_token hnone,
        restorePass_of_no_token fun w hw hin => hu ⟨w, hw, hin⟩,
        restorePass_of_no_token fun w hw hin => hv ⟨w, hw, hin⟩]

/-! ### The pieces of the buffer -/

theorem Straddles.cases (ho : o.Held) (h : o.Straddles u v) : ∃ w, o.Resolves w ∧ w ≠ [] ∧
    validBody w = true ∧ '$' ∉ w ∧
    ((['$'] <:+ u ∧ '$' :: (w ++ ['$', '$']) <+: v) ∨
      (∃ w₁ w₂, w = w₁ ++ w₂ ∧ '$' :: '$' :: w₁ <:+ u ∧ w₂ ++ ['$', '$'] <+: v) ∨
      ('$' :: '$' :: (w ++ ['$']) <:+ u ∧ ['$'] <+: v)) := by
  obtain ⟨w, x, y, hw, hx, hy, heq, hxs, hyp⟩ := h
  have hvalid := ho.validBody_of_resolves hw
  refine ⟨w, hw, ne_nil_of_validBody hvalid, hvalid, dollar_not_mem_of_validBody hvalid, ?_⟩
  rcases wrap_eq_append heq hx hy with ⟨rfl, rfl⟩ | ⟨w₁, w₂, rfl, rfl, rfl⟩ | ⟨rfl, rfl⟩
  · exact .inl ⟨hxs, hyp⟩
  · exact .inr (.inl ⟨w₁, w₂, rfl, hxs, hyp⟩)
  · exact .inr (.inr ⟨hxs, hyp⟩)

/-- The piece ends where a delimiter with a possible body begins. -/
theorem not_straddles_opening (ho : o.Held) (hbody : possibleBodyPrefix body = true)
    (hopen : endsClosed (u ++ '$' :: '$' :: body) = false)
    (h : o.Undisturbed (u ++ '$' :: '$' :: body ++ future)) :
    ¬ o.Straddles u ('$' :: '$' :: body ++ future) := by
  intro hs
  obtain ⟨w, hw, hne, hvalid, hdollar, hcases⟩ := hs.cases ho
  rcases hcases with ⟨-, hpre⟩ | ⟨w₁, w₂, rfl, hsuf, hpre⟩ | ⟨⟨front, rfl⟩, -⟩
  · -- The body would start with a `$`.
    obtain ⟨c, w, rfl⟩ := List.exists_cons_of_ne_nil hne
    simp only [List.cons_append, List.cons_prefix_cons] at hpre
    exact hdollar (by rw [← hpre.2.1]; exact List.mem_cons_self)
  · cases w₂ with
    | cons c w₂ =>
      simp only [List.cons_append, List.cons_prefix_cons] at hpre
      exact hdollar (by rw [← hpre.1]; simp)
    | nil =>
      rw [List.append_nil] at hw hvalid
      obtain ⟨front, rfl⟩ := hsuf
      cases body with
      | nil =>
        have hclosed := endsClosed_wrap hvalid front
        rw [show front ++ wrap '$' w₁ = front ++ '$' :: '$' :: w₁ ++ ['$', '$'] by simp [wrap],
          hopen] at hclosed
        cases hclosed
      | cons c body =>
        refine h.before_tag w₁ c hw (.inl (isTagChar_of_possibleBodyPrefix hbody)) ?_
        exact ⟨front, body ++ future, by simp [wrap]⟩
  · exact h.before_tag w '$' hw (.inr rfl) ⟨front, body ++ future, by simp [wrap]⟩

/-- The piece ends before a `$` that follows no other and opens no possible body. -/
theorem not_straddles_single (ho : o.Held) (hu : ¬ ['$'] <:+ u)
    (hclose : ∀ start, rfindDelimiter (u ++ ['$']) = some start →
      possibleBodyPrefix ((u ++ ['$']).drop (start + 2)) = false) :
    ¬ o.Straddles u (['$'] ++ future) := by
  intro hs
  obtain ⟨w, hw, hne, hvalid, hdollar, hcases⟩ := hs.cases ho
  rcases hcases with ⟨hsuf, -⟩ | ⟨w₁, w₂, rfl, ⟨front, rfl⟩, hpre⟩ | ⟨hsuf, -⟩
  · exact hu hsuf
  · cases w₂ with
    | cons c w₂ =>
      simp only [List.cons_append, List.cons_prefix_cons] at hpre
      exact hdollar (by rw [← hpre.1]; simp)
    | nil =>
      rw [List.append_nil] at hvalid hne hdollar
      have hsingle : Single '$' ('$' :: (w₁ ++ ['$'])) := by
        have hends : ¬ ['$'] <:+ '$' :: w₁ := by
          rintro ⟨t, ht⟩
          rcases List.eq_nil_or_concat w₁ with rfl | ⟨w₀, c, rfl⟩
          · exact hne rfl
          · rw [List.concat_eq_append, ← List.cons_append] at ht
            have := List.append_inj_right' ht rfl
            exact hdollar (by simp_all)
        exact (single_dollar_cons hdollar).concat hends
      have hfind := rfindDelimiter_append hsingle front
      have heq : front ++ '$' :: '$' :: w₁ ++ ['$'] = front ++ '$' :: '$' :: (w₁ ++ ['$']) := by
        simp
      have hno := hclose front.length (by rw [heq]; exact hfind)
      rw [heq, drop_behind_delimiter, possibleBodyPrefix_dollar hvalid] at hno
      cases hno
  · exact hu (List.IsSuffix.trans ⟨'$' :: '$' :: w, by simp⟩ hsuf)

/-- The piece ends behind a closed body. -/
theorem not_straddles_closed (ho : o.Held) (hu : endsClosed u = true)
    (h : o.Undisturbed (u ++ future)) : ¬ o.Straddles u future := by
  intro hs
  obtain ⟨front, v, rfl, hv⟩ := endsClosed_eq_true hu
  obtain ⟨w, hw, hne, -, hdollar, hcases⟩ := hs.cases ho
  have hlast : ['$'] <:+ front ++ '$' :: '$' :: v ++ ['$', '$'] :=
    ⟨front ++ '$' :: '$' :: v ++ ['$'], by simp⟩
  rcases hcases with ⟨-, rest, rfl⟩ | ⟨w₁, w₂, rfl, hsuf, rest, rfl⟩ | ⟨hsuf, -⟩
  · exact h.behind_dollar w hw ⟨front ++ '$' :: '$' :: v, rest, by simp [wrap]⟩
  · rcases List.eq_nil_or_concat w₁ with rfl | ⟨w₀, c, rfl⟩
    · exact h.behind_body v w₂ hv hw ⟨front, rest, by simp [wrap]⟩
    · rw [suffix_dollar_iff] at hlast
      obtain ⟨front', hfront'⟩ := hsuf
      rw [← hfront'] at hlast
      have hc : c = '$' := by simpa using hlast
      exact hdollar (by simp [hc])
  · obtain ⟨front', hfront'⟩ := hsuf
    rcases List.eq_nil_or_concat w with rfl | ⟨w₀, c, rfl⟩
    · exact hne rfl
    · have hrev := congrArg (fun t => t.reverse[1]?) hfront'
      have hc : c = '$' := by simpa using hrev
      exact hdollar (by simp [hc])

/-- The piece is the whole buffer: it ends in no open body and in no half of a delimiter. -/
theorem not_straddles_whole (ho : o.Held) (hsingle : endsSingle u = false)
    (hclose : ∀ start, rfindDelimiter u = some start →
      possibleBodyPrefix (u.drop (start + 2)) = false)
    (h : o.Undisturbed (u ++ future)) : ¬ o.Straddles u future := by
  intro hs
  obtain ⟨w, hw, hne, hvalid, hdollar, hcases⟩ := hs.cases ho
  rcases hcases with ⟨⟨front, rfl⟩, rest, rfl⟩ | ⟨w₁, w₂, rfl, ⟨front, rfl⟩, -⟩ | ⟨⟨front, rfl⟩, -⟩
  · have hdouble : ['$'] <:+ front := by
      by_contra hfront
      rw [endsSingle_iff.2 ⟨front, rfl, hfront⟩] at hsingle
      cases hsingle
    obtain ⟨front, rfl⟩ := hdouble
    exact h.behind_dollar w hw ⟨front, rest, by simp [wrap]⟩
  · have hfree : '$' ∉ w₁ := fun hmem => hdollar (List.mem_append_left _ hmem)
    have hno := hclose front.length (rfindDelimiter_append (single_dollar_cons hfree) front)
    rw [drop_behind_delimiter, possibleBodyPrefix_of_prefix hvalid (List.prefix_append w₁ w₂)] at hno
    cases hno
  · have hends : endsSingle (front ++ '$' :: '$' :: (w ++ ['$'])) = true := by
      refine endsSingle_iff.2 ⟨front ++ '$' :: '$' :: w, by simp, ?_⟩
      rw [suffix_dollar_iff]
      rcases List.eq_nil_or_concat w with rfl | ⟨w₀, c, rfl⟩
      · exact absurd rfl hne
      · intro hc
        have hc : c = '$' := by simpa using hc
        exact hdollar (by simp [hc])
    rw [hends] at hsingle
    cases hsingle

theorem lastOpening_eq_some {t : List Char} {fuel stop start : Nat}
    (h : lastOpening t fuel stop = some start) : ∃ front back,
      t = front ++ '$' :: '$' :: back ∧ front.length = start ∧ possibleBodyPrefix back = true := by
  induction fuel generalizing stop with
  | zero => cases h
  | succ fuel ih =>
    rw [lastOpening] at h
    split at h
    · cases h
    · next found hfound =>
      split at h
      · next hpossible =>
        cases h
        obtain ⟨front, back, htake, rfl⟩ := rfindDelimiter_eq_some hfound
        have ht : t = front ++ '$' :: '$' :: (back ++ t.drop stop) := by
          rw [← List.cons_append, ← List.cons_append, ← List.append_assoc, ← htake,
            List.take_append_drop]
        refine ⟨front, back ++ t.drop stop, ht, rfl, ?_⟩
        rw [ht, drop_behind_delimiter] at hpossible
        exact hpossible
      · exact ih h

theorem lastOpening_eq_none {t : List Char} (h : lastOpening t t.length t.length = none)
    (start : Nat) (hstart : rfindDelimiter t = some start) :
    possibleBodyPrefix (t.drop (start + 2)) = false := by
  cases hlen : t.length with
  | zero =>
    rw [List.length_eq_zero_iff.1 hlen] at hstart
    cases hstart
  | succ n =>
    rw [hlen, lastOpening, ← hlen, List.take_length, hstart] at h
    simp only at h
    split at h
    · cases h
    · next hno => simpa using hno

/-- No placeholder lies across the end of the piece that a push passes on. -/
theorem not_straddles_emitLen (ho : o.Held) (h : o.Undisturbed (text ++ future)) :
    ¬ o.Straddles (text.take (emitLen text)) (text.drop (emitLen text) ++ future) := by
  rw [emitLen]
  split
  · next hclosed =>
    rw [List.take_length, List.drop_length, List.nil_append]
    exact not_straddles_closed ho hclosed h
  next hclosed =>
  rw [Bool.not_eq_true] at hclosed
  -- What is held back begins with a delimiter.
  have hopening : ∀ front back, text = front ++ '$' :: '$' :: back →
      possibleBodyPrefix back = true →
      ¬ o.Straddles (text.take front.length) (text.drop front.length ++ future) := by
    rintro front back rfl hpossible
    rw [List.take_left, List.drop_left]
    exact not_straddles_opening ho hpossible hclosed h
  split
  · next hsingle =>
    obtain ⟨front, rfl, hfront⟩ := endsSingle_iff.1 hsingle
    have hlen : (front ++ ['$']).length - 1 = front.length := by simp
    cases hfind : rfindDelimiter (front ++ ['$']) with
    | none =>
      simp only
      rw [hlen, List.take_left, List.drop_left]
      exact not_straddles_single ho hfront fun start hstart => by
        rw [hfind] at hstart
        cases hstart
    | some start =>
      simp only
      split
      · next hpossible =>
        obtain ⟨before, back, heq, rfl⟩ := rfindDelimiter_eq_some hfind
        rw [heq, drop_behind_delimiter] at hpossible
        exact hopening before back heq hpossible
      · next hno =>
        rw [hlen, List.take_left, List.drop_left]
        refine not_straddles_single ho hfront fun start' hstart => ?_
        rw [hfind, Option.some_inj] at hstart
        rw [← hstart]
        simpa using hno
  · next hsingle =>
    cases hlast : lastOpening text text.length text.length with
    | none =>
      rw [Option.getD_none, List.take_length, List.drop_length, List.nil_append]
      exact not_straddles_whole ho (by simpa using hsingle) (lastOpening_eq_none hlast) h
    | some start =>
      obtain ⟨front, back, heq, rfl, hpossible⟩ := lastOpening_eq_some hlast
      exact hopening front back heq hpossible

/-- Any number of pushes and the flush restore what the buffer holds and what is to come. -/
theorem restoreStream_eq (ho : o.Held) (fuel : Nat) (pending : List Char)
    (deltas : List (List Char)) (h : o.Undisturbed (pending ++ deltas.flatten)) :
    (restoreStream o (fuel + 1) pending deltas).map List.flatten =
      some (Secrets.restorePass o.lookupPlaceholder (pending ++ deltas.flatten)) := by
  induction deltas generalizing pending with
  | nil =>
    rw [restoreStream, ho.deobfuscate_eq]
    simp
  | cons delta deltas ih =>
    rw [List.flatten_cons, ← List.append_assoc] at h
    -- The text that is passed on, and the text that is left.
    have hsplit : (streamPush pending delta).1 ++ ((streamPush pending delta).2 ++ deltas.flatten) =
        pending ++ delta ++ deltas.flatten := by
      rw [← List.append_assoc, streamPush, List.take_append_drop]
    have hstep : Secrets.restorePass o.lookupPlaceholder (pending ++ delta ++ deltas.flatten) =
        Secrets.restorePass o.lookupPlaceholder (streamPush pending delta).1 ++
          Secrets.restorePass o.lookupPlaceholder
            ((streamPush pending delta).2 ++ deltas.flatten) := by
      rw [← hsplit] at h ⊢
      refine h.restorePass_append ho ?_
      rw [hsplit] at h
      exact not_straddles_emitLen ho h
    have hrest : o.Undisturbed ((streamPush pending delta).2 ++ deltas.flatten) :=
      h.of_infix ⟨(streamPush pending delta).1, [], by rw [List.append_nil, hsplit]⟩
    have ih := ih _ hrest
    obtain ⟨pieces, hpieces, hflat⟩ := Option.map_eq_some_iff.1 ih
    rw [restoreStream, ho.deobfuscate_eq, Option.bind_some, hpieces, Option.map_some,
      Option.map_some, List.flatten_cons, hflat, List.flatten_cons, ← List.append_assoc, hstep]

/-- However an undisturbed text is cut, the pieces make up the restored text. -/
theorem restoreStream_eq_deobfuscate {mac : Mac} (ho : Reachable mac o) (fuel : Nat)
    (deltas : List (List Char)) (htext : o.Undisturbed deltas.flatten) :
    (restoreStream o (fuel + 1) [] deltas).map List.flatten =
      o.deobfuscate (fuel + 1) deltas.flatten := by
  have hheld := ho.ready.toHeld
  have hrun := restoreStream_eq hheld fuel [] deltas htext
  rw [hrun, hheld.deobfuscate_eq, List.nil_append]

/-- A placeholder that stands alone, with no letter or digit behind it, is undisturbed. -/
theorem undisturbed_of_alone {before body after : List Char} (hbefore : '$' ∉ before)
    (hbody : '$' ∉ body) (hafter : '$' ∉ after)
    (hhead : ∀ c ∈ after.head?, isTagChar c = false) :
    o.Undisturbed (before ++ wrap '$' body ++ after) := by
  have hcount : (before ++ wrap '$' body ++ after).count '$' = 4 := by
    simp [wrap, List.count_eq_zero.2 hbefore, List.count_eq_zero.2 hbody,
      List.count_eq_zero.2 hafter]
  have hwrap : ∀ w : List Char, 4 ≤ (wrap '$' w).count '$' := by
    intro w
    simp [wrap]
  have hle : ∀ {t : List Char}, t <:+: before ++ wrap '$' body ++ after → t.count '$' ≤ 4 :=
    fun hin => hcount ▸ hin.sublist.count_le '$'
  refine ⟨fun w _ hin => ?_, fun w c _ hc hin => ?_, fun v w _ _ hin => ?_⟩
  · have := hle hin
    have := hwrap w
    simp only [List.count_cons_self] at *
    omega
  · -- Behind the last `$` of the text stands what stands behind the placeholder.
    obtain ⟨a, b, heq⟩ := hin
    have hcb : '$' ∉ c :: b := by
      rw [← List.count_eq_zero]
      have htotal := congrArg (List.count '$') heq
      rw [hcount, List.append_assoc, List.append_assoc, List.count_append, List.count_append,
        List.singleton_append] at htotal
      have := hwrap w
      omega
    have htail : ∀ (t u v : List Char), '$' ∉ v →
        ((t ++ wrap '$' u ++ v).reverse.takeWhile fun x => x ≠ '$') = v.reverse := by
      intro t u v hv
      rw [List.reverse_append, List.takeWhile_append_of_pos]
      · simp [wrap]
      · intro x hx
        simp only [decide_eq_true_eq]
        rintro rfl
        exact hv (List.mem_reverse.1 hx)
    have hleft := htail a w (c :: b) hcb
    rw [show a ++ wrap '$' w ++ c :: b = before ++ wrap '$' body ++ after by rw [← heq]; simp,
      htail before body after hafter, List.reverse_inj] at hleft
    rw [hleft] at hhead
    have hfalse := hhead c rfl
    rcases hc with hc | rfl
    · rw [hfalse] at hc
      cases hc
    · exact hcb List.mem_cons_self
  · have hle := hle hin
    have := hwrap w
    rw [List.count_append, List.count_cons_self, List.count_cons_self] at hle
    omega

theorem restoreStream_eq_deobfuscate_password : ∃ o, passwordBuild = some o ∧
    (restoreStream o 1 [] ["pw $$DB_AAAA".toList, "AAAAAAAA:L$$ ok".toList]).map List.flatten =
      o.deobfuscate 1 "pw $$DB_AAAAAAAAAAAA:L$$ ok".toList := by
  obtain ⟨o, ho⟩ := Option.isSome_iff_exists.1 (show passwordBuild.isSome = true by decide +kernel)
  have halone : o.Undisturbed ("pw ".toList ++ wrap '$' "DB_AAAAAAAAAAAA:L".toList ++ " ok".toList) :=
    undisturbed_of_alone (by decide) (by decide) (by decide) fun c hc => by
      obtain rfl : ' ' = c := by simpa using hc
      rfl
  exact ⟨o, ho, restoreStream_eq_deobfuscate (.build ho) 0
    ["pw $$DB_AAAA".toList, "AAAAAAAA:L$$ ok".toList] halone⟩

/-- A letter behind a placeholder makes the buffer hold back the closing delimiter. -/
theorem placeholder_before_letter_split : ¬ ∀ (mac : Mac) (o : SecretObfuscator), Reachable mac o →
    ∀ (fuel : Nat) (deltas : List (List Char)),
      (restoreStream o (fuel + 1) [] deltas).map List.flatten =
        o.deobfuscate (fuel + 1) deltas.flatten := by
  intro hclaim
  obtain ⟨o, ho⟩ := Option.isSome_iff_exists.1 (show passwordBuild.isSome = true by decide +kernel)
  have hdiffer : (passwordBuild.map fun o =>
      decide ((restoreStream o 1 [] ["$$DB_AAAAAAAAAAAA:L$$X".toList]).map List.flatten =
        o.deobfuscate 1 ["$$DB_AAAAAAAAAAAA:L$$X".toList].flatten)) = some false := by
    decide +kernel
  rw [ho, Option.map_some, Option.some_inj, decide_eq_false_iff_not] at hdiffer
  exact hdiffer (hclaim zeroMac o (.build ho) 0 _)

end SecretObfuscator

end OhMyPi.Secrets
