import OhMyPi.Slopjson.De
import OhMyPi.Slopjson.Standard

/-! The token readers in strict mode, on the tokens of the standard grammar: each takes the token it
stands before, gives what the token stands for and records nothing. -/

namespace OhMyPi.Slopjson

open Text JsonTokens

variable {D : Doubles}

namespace Parser

@[simp] theorem move_rest (p : Parser) (a b : List Char) : (p.move a b).rest = b := rfl

@[simp] theorem move_move (p : Parser) (a b c d : List Char) :
    (p.move a b).move c d = p.move (a ++ c) d := by
  simp [move, Nat.add_assoc]

/-! ## Whitespace -/

/-- Neither whitespace nor a comment comes next. -/
def Stops (text : List Char) : Prop := ∀ c ∈ text.head?, isSpace c = false ∧ c ≠ '/'

theorem comment_of_stops {text : List Char} (h : Stops text) : comment text = none := by
  rw [comment.eq_def]
  split
  · exact absurd rfl (h '/' rfl).2
  · exact absurd rfl (h '/' rfl).2
  · rfl

theorem dropWhile_blank {w text : List Char} (hw : Blank w) (h : Stops text) :
    (w ++ text).dropWhile isSpace = text := by
  rw [List.dropWhile_append_of_pos hw]
  cases text with
  | nil => rfl
  | cons c text => exact List.dropWhile_cons_of_neg (by simp [(h c rfl).1])

theorem takeWhile_blank {w text : List Char} (hw : Blank w) (h : Stops text) :
    (w ++ text).takeWhile isSpace = w := by
  rw [List.takeWhile_append_of_pos hw]
  cases text with
  | nil => exact List.append_nil w
  | cons c text => rw [List.takeWhile_cons_of_neg (by simp [(h c rfl).1]), List.append_nil]

theorem ws_of_blank {p : Parser} {w text : List Char} (hrest : p.rest = w ++ text) (hw : Blank w)
    (h : Stops text) : p.ws = p.move w text := by
  have hskip : p.skipBlank = p.move w text := by
    rw [skipBlank, hrest, takeWhile_blank hw h, dropWhile_blank hw h]
  rw [ws, wsLoop, hskip, move_rest, comment_of_stops h]

/-! ## Strings -/

@[simp] theorem Scan.push_push (s : Scan) (a b c d : List Char) :
    (s.push a b).push c d = s.push (a ++ c) (b ++ d) := by
  simp [Scan.push]

theorem stringLoop_raw {c : Char} {s : Scan} (hprintable : 0x20 ≤ c.toNat) (hquote : c ≠ s.quote)
    (hbackslash : c ≠ '\\') (rest : List Char) :
    stringLoop (c :: rest) s = stringLoop rest (s.push [c] [c]) := by
  rw [stringLoop.eq_def]
  simp only
  rw [if_neg (by omega), if_neg hquote, if_pos hbackslash]

theorem stringLoop_close {s : Scan} (hquote : s.quote = '"') (hmode : s.p.mode = .strict)
    (rest : List Char) : stringLoop ('"' :: rest) s = .ok (s.close rest) := by
  have hlook : s.look rest = .closes := by
    rw [Scan.look, hquote, hmode]
    rfl
  rw [stringLoop.eq_def]
  simp only
  rw [if_neg (by decide), if_pos hquote.symm, hlook]

theorem stringLoop_short {letter c : Char} {s : Scan} (hquote : s.quote = '"')
    (h : shortEscape letter = some c) (rest : List Char) :
    stringLoop ('\\' :: letter :: rest) s = stringLoop rest (s.push ['\\', letter] [c]) := by
  have hletter : letterEscape letter = some c := by
    rw [letterEscape, if_neg]
    · exact h
    · rintro rfl
      cases h
  rw [stringLoop.eq_def]
  simp only
  rw [if_neg (by decide), if_neg (by rw [hquote]; decide), if_neg (by decide)]
  split
  · next heq => cases heq
  · next heq =>
    cases heq
    cases h
  · next heq =>
    cases heq
    rw [hletter]

theorem stringLoop_pair {a b c d a' b' c' d' : Char} {unit low : Nat} {s : Scan}
    (hquote : s.quote = '"') (hunit : unitOf a b c d = some unit)
    (hlow : unitOf a' b' c' d' = some low) (hpair : isHigh unit = true ∧ isLow low = true)
    (rest : List Char) :
    stringLoop ('\\' :: 'u' :: a :: b :: c :: d :: '\\' :: 'u' :: a' :: b' :: c' :: d' :: rest) s =
      stringLoop rest (s.push ['\\', 'u', a, b, c, d, '\\', 'u', a', b', c', d']
        [combined unit low]) := by
  rw [stringLoop.eq_def]
  simp only
  rw [if_neg (by decide), if_neg (by rw [hquote]; decide), if_neg (by decide)]
  simp only [hunit, hlow]
  rw [if_pos hpair]

theorem stringLoop_single {a b c d : Char} {unit : Nat} {s : Scan} {rest : List Char}
    (hquote : s.quote = '"') (hunit : unitOf a b c d = some unit)
    (hpair : ∀ a' b' c' d' rest' low, rest = '\\' :: 'u' :: a' :: b' :: c' :: d' :: rest' →
      unitOf a' b' c' d' = some low → ¬(isHigh unit = true ∧ isLow low = true)) :
    stringLoop ('\\' :: 'u' :: a :: b :: c :: d :: rest) s =
      stringLoop rest (s.single ['\\', 'u', a, b, c, d] unit rest) := by
  rw [stringLoop.eq_def]
  simp only
  rw [if_neg (by decide), if_neg (by rw [hquote]; decide), if_neg (by decide)]
  simp only [hunit]
  split
  · next a' b' c' d' rest' =>
    split
    · next low hlow => rw [if_neg (hpair a' b' c' d' rest' low rfl hlow)]
    · rfl
  · rfl

theorem Scan.single_strict {s : Scan} (hmode : s.p.mode = .strict) (taken : List Char) (unit : Nat)
    (rest : List Char) : s.single taken unit rest =
      s.push taken [if isSurrogate unit then replacement else Char.ofNat unit] := by
  rw [Scan.single, hmode]
  cases isSurrogate unit <;> rfl

/-- The piece is an escape of a low surrogate. -/
def IsLowPiece : Piece → Prop
  | .unicode _ _ _ _ unit _ => isLow unit = true
  | _ => False

theorem isLow_head_units {piece : Piece} (h : ¬IsLowPiece piece) (units : List Nat) :
    ∀ low ∈ (piece.units ++ units).head?, isLow low = false := by
  intro low hlow
  cases piece with
  | raw c =>
    have hne : utf16 c ≠ [] := by
      rw [utf16]
      split <;> simp
    rw [Piece.units, List.head?_append_of_ne_nil _ hne] at hlow
    exact isLow_head_utf16 c low hlow
  | short letter c escape =>
    cases hlow
    have hsurrogate := not_isSurrogate c
    simp only [isSurrogate, isLow, Bool.and_eq_false_iff, decide_eq_false_iff_not] at hsurrogate ⊢
    omega
  | unicode a b c d unit hex =>
    cases hlow
    exact Bool.not_eq_true _ ▸ h

theorem isLow_of_escape {piece : Piece} {a b c d : Char} {low : Nat} {text rest : List Char}
    (htext : piece.text ++ text = '\\' :: 'u' :: a :: b :: c :: d :: rest)
    (hlow : unitOf a b c d = some low) (h : ¬IsLowPiece piece) : isLow low = false := by
  cases piece with
  | raw c _ _ hbackslash =>
    cases htext
    exact absurd rfl hbackslash
  | short letter c escape =>
    cases htext
    cases escape
  | unicode a b c d unit hex =>
    cases htext
    rw [hlow] at hex
    cases hex
    exact Bool.not_eq_true _ ▸ h

theorem utf16_of_shortEscape {letter c : Char} (h : shortEscape letter = some c) :
    utf16 c = [c.toNat] := by
  rw [shortEscape.eq_def] at h
  split at h <;> cases h <;> rfl

/-- The body of a literal is read up to its closing quote. -/
theorem stringLoop_body (l : Literal) {s : Scan} (hquote : s.quote = '"')
    (hmode : s.p.mode = .strict) (rest : List Char) :
    stringLoop (l.body ++ '"' :: rest) s = .ok ((s.push l.body l.value).close rest) := by
  -- A pair of surrogates takes two pieces at once.
  induction hlen : l.length using Nat.strong_induction_on generalizing l s with
  | _ n ih =>
    subst hlen
    have step : ∀ {front decoded : List Char} {l' : Literal}, l'.length < l.length →
        l.body = front ++ l'.body → l.value = decoded ++ l'.value →
        stringLoop (l'.body ++ '"' :: rest) (s.push front decoded) =
          .ok ((s.push l.body l.value).close rest) := by
      intro front decoded l' hlt hbody hvalue
      rw [ih _ hlt l' (s := s.push front decoded) hquote hmode rfl, Scan.push_push, ← hbody, ← hvalue]
    cases l with
    | nil =>
      have hpush : s.push [] [] = s := by simp [Scan.push]
      change stringLoop ('"' :: rest) s = .ok ((s.push [] []).close rest)
      rw [hpush, stringLoop_close hquote hmode]
    | cons piece l =>
      have hlt : l.length < (piece :: l).length := Nat.lt_succ_self _
      cases piece with
      | raw c hprintable hnot hbackslash =>
        refine (stringLoop_raw hprintable (hquote ▸ hnot) hbackslash _).trans (step hlt rfl ?_)
        exact decodeUtf16_utf16 c (Literal.units l)
      | short letter c escape =>
        refine (stringLoop_short hquote escape _).trans (step hlt rfl ?_)
        have hdecode := decodeUtf16_utf16 c (Literal.units l)
        rw [utf16_of_shortEscape escape] at hdecode
        exact hdecode
      | unicode a b c d unit hex =>
        by_cases hpair : isHigh unit = true ∧ ∃ piece ∈ l.head?, IsLowPiece piece
        · obtain ⟨hhigh, piece, hhead, hlow⟩ := hpair
          obtain ⟨l', rfl⟩ : ∃ l', l = piece :: l' := ⟨_, (List.head?_eq_some_iff.1 hhead).choose_spec⟩
          cases piece with
          | raw | short => exact hlow.elim
          | unicode a' b' c' d' low hex' =>
            refine (stringLoop_pair hquote hex hex' ⟨hhigh, hlow⟩ _).trans
              (step (by simp only [List.length_cons]; omega) rfl ?_)
            exact decodeUtf16_pair hhigh hlow (Literal.units l')
        · have hlater : isHigh unit = true → ∀ piece ∈ l.head?, ¬IsLowPiece piece :=
            fun hhigh piece hhead hlow => hpair ⟨hhigh, piece, hhead, hlow⟩
          have hloop : stringLoop (Literal.body (.unicode a b c d unit hex :: l) ++ '"' :: rest) s =
              stringLoop (Literal.body l ++ '"' :: rest)
                (s.single ['\\', 'u', a, b, c, d] unit (Literal.body l ++ '"' :: rest)) := by
            refine stringLoop_single hquote hex fun a' b' c' d' rest' low htext hlow hboth => ?_
            cases l with
            | nil => cases htext
            | cons piece l =>
              have := isLow_of_escape ((List.append_assoc ..).symm.trans htext) hlow
                (hlater hboth.1 piece rfl)
              exact absurd hboth.2 (Bool.not_eq_true _ ▸ this)
          rw [hloop, Scan.single_strict hmode]
          refine step hlt rfl (decodeUtf16_single fun hhigh low hlow => ?_)
          cases l with
          | nil => cases hlow
          | cons piece l => exact isLow_head_units (hlater hhigh piece rfl) (Literal.units l) low hlow

/-- A string literal. -/
theorem string_literal (l : Literal) {p : Parser} (hmode : p.mode = .strict) (rest : List Char) :
    p.string '"' (l.body ++ '"' :: rest) = .ok (l.value, p.move l.text rest) := by
  rw [string, stringProgress, stringLoop_body l rfl hmode]
  simp [Scan.push, Scan.close, Except.map, move, Literal.text]

end Parser

/-! ## Numbers -/

theorem splitSign_of_digit {c : Char} (hc : isDigit c = true) (text : List Char) :
    splitSign (c :: text) = (false, c :: text) := by
  rw [splitSign.eq_def]
  split
  · next heq =>
    cases heq
    cases hc
  · next heq =>
    cases heq
    cases hc
  · rfl

/-- What follows a row of digits is not one. -/
def NoDigit (text : List Char) : Prop := ∀ c ∈ text.head?, isDigit c = false

theorem takeWhile_digits (d : Digits) {text : List Char} (h : NoDigit text) :
    (d.chars ++ text).takeWhile isDigit = d.chars := by
  rw [List.takeWhile_append_of_pos d.all_digit]
  cases text with
  | nil => exact List.append_nil _
  | cons c text => rw [List.takeWhile_cons_of_neg (by simp [h c rfl]), List.append_nil]

theorem dropWhile_digits (d : Digits) {text : List Char} (h : NoDigit text) :
    (d.chars ++ text).dropWhile isDigit = text := by
  rw [List.dropWhile_append_of_pos d.all_digit]
  cases text with
  | nil => rfl
  | cons c text => exact List.dropWhile_cons_of_neg (by simp [h c rfl])

theorem parseExponent_expText (n : Numeral) :
    parseExponent n.expText = some (n.exp.elim 0 Exponent.value) := by
  rw [Numeral.expText]
  cases n.exp with
  | none => rfl
  | some e =>
    obtain ⟨c, ds, hds⟩ := List.exists_cons_of_ne_nil e.digits.ne_nil
    have hc : isDigit c = true := e.digits.all_digit c (hds ▸ List.mem_cons_self)
    have hsplit : splitSign (Sign.text e.sign ++ e.digits.chars) =
        (decide (e.sign = some .minus), e.digits.chars) := by
      cases hsign : e.sign with
      | none =>
        rw [hds]
        exact splitSign_of_digit hc ds
      | some sign => cases sign <;> rfl
    have hall : e.digits.chars.all isDigit = true := List.all_eq_true.2 e.digits.all_digit
    simp only [Option.elim_some, parseExponent, hsplit]
    rw [if_pos ⟨e.mark_eq, e.digits.ne_nil, hall⟩, Exponent.value]
    simp only [decide_eq_true_eq]

theorem noDigit_expText (n : Numeral) : NoDigit n.expText := by
  intro c hc
  rw [Numeral.expText] at hc
  cases hexp : n.exp with
  | none =>
    rw [hexp] at hc
    cases hc
  | some e =>
    rw [hexp] at hc
    cases hc
    rcases e.mark_eq with h | h <;> rw [h] <;> rfl

theorem noDigit_fracText (n : Numeral) : NoDigit (n.fracText ++ n.expText) := by
  rw [Numeral.fracText]
  cases n.frac with
  | none => exact noDigit_expText n
  | some d =>
    intro c hc
    cases hc
    rfl

theorem toLower_of_digit {c : Char} (hc : isDigit c = true) : c.toLower = c := by
  rw [isDigit, Bool.and_eq_true, decide_eq_true_eq, decide_eq_true_eq] at hc
  have hle : c.toNat ≤ '9'.toNat := hc.2
  refine dif_neg fun h => ?_
  have hge : 'A'.toNat ≤ c.toNat := h.1
  exact absurd (hge.trans hle) (by decide)

theorem splitFraction_text (n : Numeral) :
    splitFraction (n.fracText ++ n.expText) = (n.fracDigits, n.expText) := by
  rw [Numeral.fracText, Numeral.fracDigits]
  cases n.frac with
  | none =>
    have hpoint : ∀ text, n.expText ≠ '.' :: text := by
      intro text htext
      rw [Numeral.expText] at htext
      cases hexp : n.exp with
      | none =>
        rw [hexp] at htext
        cases htext
      | some e =>
        rw [hexp] at htext
        have hmark : e.mark = '.' := (List.cons.inj htext).1
        rcases e.mark_eq with h | h <;> rw [h] at hmark <;> cases hmark
    change splitFraction n.expText = ([], n.expText)
    rw [splitFraction.eq_def]
    split
    · next text htext => exact absurd htext (hpoint text)
    · rfl
  | some d =>
    exact Prod.ext (takeWhile_digits d (noDigit_expText n)) (dropWhile_digits d (noDigit_expText n))

theorem parseF64_text (n : Numeral) :
    parseF64 (D := D) n.text = some (D.ofDecimal n.neg n.mantissa n.exponent) := by
  obtain ⟨c, ds, hds⟩ := List.exists_cons_of_ne_nil n.int.ne_nil
  have hc : isDigit c = true := n.int.all_digit c (hds ▸ List.mem_cons_self)
  have hsplit : splitSign n.text = (n.neg, n.int.chars ++ (n.fracText ++ n.expText)) := by
    rw [Numeral.text, Numeral.signText]
    cases n.neg with
    | true => rfl
    | false =>
      rw [hds]
      exact splitSign_of_digit hc _
  have hname : ∀ {name : List Char}, (∀ x ∈ name.head?, isDigit x = false) →
      (n.int.chars ++ (n.fracText ++ n.expText)).map Char.toLower ≠ name := by
    rintro name h rfl
    have := h c (by rw [hds]; simp [toLower_of_digit hc])
    rw [hc] at this
    cases this
  rw [parseF64, hsplit]
  simp only
  rw [if_neg (not_or.2 ⟨hname (by rintro x ⟨⟩; rfl), hname (by rintro x ⟨⟩; rfl)⟩),
    if_neg (hname (by rintro x ⟨⟩; rfl)), takeWhile_digits n.int (noDigit_fracText n),
    dropWhile_digits n.int (noDigit_fracText n), splitFraction_text n]
  simp only
  rw [if_neg fun h => n.int.ne_nil h.1, parseExponent_expText]
  rfl

/-- The text behind the sign. -/
theorem digits_body (n : Numeral) : ∃ c ds, n.int.chars = c :: ds ∧ isDigit c = true := by
  obtain ⟨c, ds, hds⟩ := List.exists_cons_of_ne_nil n.int.ne_nil
  exact ⟨c, ds, hds, n.int.all_digit c (hds ▸ List.mem_cons_self)⟩

theorem all_digit_body (n : Numeral) :
    (n.int.chars ++ (n.fracText ++ n.expText)).all isDigit = n.isInteger := by
  have hint : n.int.chars.all isDigit = true := List.all_eq_true.2 n.int.all_digit
  rw [List.all_append, List.all_append, hint, Bool.true_and, Numeral.isInteger, Numeral.fracText,
    Numeral.expText]
  cases n.frac with
  | none =>
    cases n.exp with
    | none => rfl
    | some e =>
      have hmark : isDigit e.mark = false := by rcases e.mark_eq with h | h <;> rw [h] <;> rfl
      simp [hmark]
  | some d => rfl

theorem mantissa_of_isInteger {n : Numeral} (h : n.isInteger = true) :
    n.int.chars ++ (n.fracText ++ n.expText) = n.int.chars := by
  rw [Numeral.isInteger, Bool.and_eq_true, Option.isNone_iff_eq_none, Option.isNone_iff_eq_none] at h
  rw [Numeral.fracText, Numeral.expText, h.1, h.2]
  simp

theorem parseDecimal_eq (n : Numeral) : parseDecimal (D := D) n.text =
    if n.isInteger = true then
      if n.neg = true then
        if digitsValue n.int.chars ≤ 2 ^ 63 then
          some (Number.fromI64 (-(digitsValue n.int.chars : Int)))
        else (parseF64 n.text).bind Number.fromF64
      else if digitsValue n.int.chars < 2 ^ 64 then some (Number.fromU64 (digitsValue n.int.chars))
      else (parseF64 n.text).bind Number.fromF64
    else (parseF64 n.text).bind Number.fromF64 := by
  obtain ⟨c, ds, hds, hc⟩ := digits_body n
  have hne : n.int.chars ++ (n.fracText ++ n.expText) ≠ [] := by simp [hds]
  have hplus : n.text.head? ≠ some '+' := by
    rw [Numeral.text, Numeral.signText, hds]
    cases n.neg with
    | true => simp
    | false =>
      rintro ⟨⟩
      cases hc
  have hminus : n.text.head? = some '-' ↔ n.neg = true := by
    rw [Numeral.text, Numeral.signText, hds]
    cases n.neg with
    | true => simp
    | false =>
      refine ⟨?_, fun h => by cases h⟩
      rintro ⟨⟩
      cases hc
  have hdigits : (if n.text.head? = some '-' then n.text.drop 1 else n.text) =
      n.int.chars ++ (n.fracText ++ n.expText) := by
    simp only [hminus]
    rw [Numeral.text, Numeral.signText]
    cases n.neg <;> rfl
  rw [parseDecimal, if_neg hplus, hdigits, all_digit_body]
  simp only [hne, hminus, ne_eq, not_false_eq_true, true_and]
  by_cases hint : n.isInteger = true
  · rw [if_pos hint, if_pos hint, mantissa_of_isInteger hint]
  · rw [if_neg hint, if_neg hint]

/-- A numeral is read as the number it stands for, if that is finite. -/
theorem parseDecimal_text {n : Numeral} (h : FiniteNumeral D n) :
    parseDecimal n.text = some (standardNumber (D := D) n) := by
  obtain ⟨c, ds, hds, hc⟩ := digits_body n
  have hfloat : ¬(n.isInteger = true ∧ -2 ^ 63 ≤ n.integer ∧ n.integer < 2 ^ 64) →
      (parseF64 (D := D) n.text).bind Number.fromF64 = some (standardNumber n) := by
    intro hnot
    have hstandard : standardNumber (D := D) n = .float (D.ofDecimal n.neg n.mantissa n.exponent) :=
      if_neg hnot
    rw [parseF64_text, Option.bind_some, Number.fromF64, if_pos (h _ hstandard), hstandard]
  have hexact : ∀ {z : Int}, n.isInteger = true → n.integer = z → -2 ^ 63 ≤ z → z < 2 ^ 64 →
      standardNumber (D := D) n = if z < 0 then .negInt z else .posInt z.toNat := by
    rintro z hint rfl hlow hhigh
    exact if_pos ⟨hint, hlow, hhigh⟩
  rw [parseDecimal_eq]
  by_cases hint : n.isInteger = true
  · rw [if_pos hint]
    cases hneg : n.neg with
    | true =>
      have hinteger : n.integer = -(digitsValue n.int.chars : Int) := by rw [Numeral.integer, hneg]; rfl
      simp only [if_true]
      split
      · next hle =>
        rw [hexact hint hinteger (by omega) (by omega), Number.fromI64]
      · next hnot => exact hfloat fun hfit => hnot (by omega)
    | false =>
      have hinteger : n.integer = digitsValue n.int.chars := by rw [Numeral.integer, hneg]; rfl
      simp only [Bool.false_eq_true, if_false]
      split
      · next hlt =>
        rw [hexact hint hinteger (by omega) (by omega), if_neg (by omega)]
        rfl
      · next hnot => exact hfloat fun hfit => hnot (by omega)
  · rw [if_neg hint]
    exact hfloat fun hfit => hint hfit.1

/-- What stands behind a leading zero is a point or an exponent. -/
theorem second_of_zero {n : Numeral} {x : Char} {text : List Char} (h : n.text = '0' :: x :: text) :
    x = '.' ∨ x = 'e' ∨ x = 'E' := by
  obtain ⟨c, ds, hds, hc⟩ := digits_body n
  have hneg : n.neg = false := by
    cases hneg : n.neg with
    | false => rfl
    | true =>
      rw [Numeral.text, Numeral.signText, hneg] at h
      cases h
  have hbody : n.int.chars ++ (n.fracText ++ n.expText) = '0' :: x :: text := by
    rw [Numeral.text, Numeral.signText, hneg] at h
    exact h
  have hzero : n.int.chars = ['0'] := by
    apply n.no_leading_zero
    rw [hds] at hbody ⊢
    rw [(List.cons.inj hbody).1]
    rfl
  rw [hzero] at hbody
  have hrest : n.fracText ++ n.expText = x :: text := (List.cons.inj hbody).2
  rw [Numeral.fracText, Numeral.expText] at hrest
  cases hfrac : n.frac with
  | some d =>
    rw [hfrac] at hrest
    exact .inl (List.cons.inj hrest).1.symm
  | none =>
    rw [hfrac] at hrest
    cases hexp : n.exp with
    | none =>
      rw [hexp] at hrest
      cases hrest
    | some e =>
      rw [hexp] at hrest
      have hx : e.mark = x := (List.cons.inj hrest).1
      exact .inr (hx ▸ e.mark_eq)

theorem parseNumberToken_text {n : Numeral} (h : FiniteNumeral D n) :
    parseNumberToken n.text = some (standardNumber (D := D) n) := by
  rw [parseNumberToken.eq_def]
  split
  · next x d digits htext =>
    have hx := second_of_zero htext
    rw [if_neg, if_neg]
    · exact parseDecimal_text h
    · rcases hx with rfl | rfl | rfl <;> decide
    · rcases hx with rfl | rfl | rfl <;> decide
  · exact parseDecimal_text h

theorem isDigit_getLast_append (front : List Char) (d : Digits) :
    ∃ c ∈ (front ++ d.chars).getLast?, isDigit c = true := by
  refine ⟨d.chars.getLast d.ne_nil, ?_, d.all_digit _ (List.getLast_mem _)⟩
  rw [List.getLast?_append_of_ne_nil _ d.ne_nil, List.getLast?_eq_some_getLast d.ne_nil]
  rfl

theorem isDigit_getLast_text (n : Numeral) : ∃ c ∈ n.text.getLast?, isDigit c = true := by
  rw [Numeral.text, Numeral.expText]
  cases n.exp with
  | some e =>
    have hlast := isDigit_getLast_append
      (n.signText ++ (n.int.chars ++ (n.fracText ++ e.mark :: Sign.text e.sign))) e.digits
    simpa only [List.append_assoc, List.cons_append, Option.elim_some] using hlast
  | none =>
    rw [Numeral.fracText]
    cases n.frac with
    | some d =>
      have hlast := isDigit_getLast_append (n.signText ++ (n.int.chars ++ ['.'])) d
      simpa only [List.append_assoc, List.singleton_append, Option.elim_some, Option.elim_none,
        List.append_nil] using hlast
    | none =>
      simp only [Option.elim_none, List.append_nil]
      exact isDigit_getLast_append _ n.int

theorem head_text (n : Numeral) : ∃ c text, n.text = c :: text ∧ (c = '-' ∨ isDigit c = true) := by
  obtain ⟨c, ds, hds, hc⟩ := digits_body n
  rw [Numeral.text, Numeral.signText, hds]
  cases n.neg with
  | true => exact ⟨'-', _, rfl, .inl rfl⟩
  | false => exact ⟨c, _, rfl, .inr hc⟩

theorem numberRepair_text (n : Numeral) : numberRepair n.text = none := by
  obtain ⟨c, text, htext, hc⟩ := head_text n
  obtain ⟨last, hlast, hdigit⟩ := isDigit_getLast_text n
  rw [numberRepair, if_neg, if_neg]
  · rintro (hplus | hpoint | hpoint)
    · rw [htext] at hplus
      cases hplus
      rcases hc with hc | hc <;> cases hc
    · rw [htext] at hpoint
      cases hpoint
      rcases hc with hc | hc <;> cases hc
    · rw [Option.mem_def, hpoint] at hlast
      cases hlast
      cases hdigit
  · rintro ⟨hzero, hradix⟩
    rw [htext] at hzero hradix
    cases hzero
    cases text with
    | nil => cases hradix
    | cons x text => rcases second_of_zero htext with rfl | rfl | rfl <;> cases hradix

theorem isNumberChar_of_digit {c : Char} (h : isDigit c = true) : isNumberChar c = true := by
  rw [isNumberChar, h]
  rfl

theorem isNumberChar_text (n : Numeral) : ∀ c ∈ n.text, isNumberChar c = true := by
  have hdigits : ∀ (d : Digits), ∀ c ∈ d.chars, isNumberChar c = true :=
    fun d c hc => isNumberChar_of_digit (d.all_digit c hc)
  have hsign : ∀ c ∈ n.signText, isNumberChar c = true := by
    rw [Numeral.signText]
    cases n.neg <;> simp [isNumberChar]
  have hfrac : ∀ c ∈ n.fracText, isNumberChar c = true := by
    rw [Numeral.fracText]
    cases n.frac with
    | none => exact fun c hc => by cases hc
    | some d => exact List.forall_mem_cons.2 ⟨rfl, hdigits d⟩
  have hexp : ∀ c ∈ n.expText, isNumberChar c = true := by
    rw [Numeral.expText]
    cases n.exp with
    | none => exact fun c hc => by cases hc
    | some e =>
      refine List.forall_mem_cons.2 ⟨?_, List.forall_mem_append.2 ⟨?_, hdigits e.digits⟩⟩
      · rcases e.mark_eq with h | h <;> rw [h] <;> rfl
      · cases e.sign with
        | none => exact fun c hc => by cases hc
        | some sign => cases sign <;> simp [Sign.text, isNumberChar]
  rw [Numeral.text]
  exact List.forall_mem_append.2 ⟨hsign, List.forall_mem_append.2 ⟨hdigits n.int,
    List.forall_mem_append.2 ⟨hfrac, hexp⟩⟩⟩

/-- What may follow a number or a word. -/
def Ends (text : List Char) : Prop :=
  ∀ c ∈ text.head?, isNumberChar c = false ∧ isIdentChar c = false

namespace Parser

theorem number_text {n : Numeral} {p : Parser} {rest : List Char} (hrest : p.rest = n.text ++ rest)
    (hends : Ends rest) (h : FiniteNumeral D n) :
    p.number (D := D) = .ok (some (standardNumber n), p.move n.text rest) := by
  have htake : (n.text ++ rest).takeWhile isNumberChar = n.text := by
    rw [List.takeWhile_append_of_pos (isNumberChar_text n)]
    cases rest with
    | nil => exact List.append_nil _
    | cons c rest => rw [List.takeWhile_cons_of_neg (by simp [(hends c rfl).1]), List.append_nil]
  have hdrop : (n.text ++ rest).dropWhile isNumberChar = rest := by
    rw [List.dropWhile_append_of_pos (isNumberChar_text n)]
    cases rest with
    | nil => rfl
    | cons c rest => exact List.dropWhile_cons_of_neg (by simp [(hends c rfl).1])
  rw [number, hrest, htake, hdrop, parseNumberToken_text h, numberRepair_text]

/-! ## Words -/

theorem keywordAt_of_ends {p : Parser} {word rest : List Char} (atom : Atom)
    (hrest : p.rest = word ++ rest) (hends : Ends rest) (hlower : word.head?.any Char.isUpper = false) :
    p.keywordAt word atom = some (atom, p.move word rest) := by
  have hident : rest.head?.any isIdentChar = false := by
    cases rest with
    | nil => rfl
    | cons c rest => exact (hends c rfl).2
  have hdrop : p.rest.drop word.length = rest := by rw [hrest, List.drop_left]
  rw [keywordAt, hdrop, if_pos ⟨⟨rest, hrest.symm⟩, hident⟩, hlower]
  rfl

theorem keywordAt_of_ne {p : Parser} {c c' : Char} {word text : List Char} (atom : Atom)
    (hrest : p.rest = c :: text) (hne : c' ≠ c) : p.keywordAt (c' :: word) atom = none := by
  rw [keywordAt, if_neg]
  rintro ⟨h, -⟩
  rw [hrest] at h
  exact hne (List.cons_prefix_cons.1 h).1

theorem matchKeyword_true {p : Parser} {rest : List Char} (hrest : p.rest = "true".toList ++ rest)
    (hends : Ends rest) : p.matchKeyword = some (.bool true, p.move "true".toList rest) := by
  have htrue := keywordAt_of_ends (.bool true) hrest hends rfl
  simp only [matchKeyword, keywords, List.findSome?_cons, htrue]

theorem matchKeyword_false {p : Parser} {rest : List Char} (hrest : p.rest = "false".toList ++ rest)
    (hends : Ends rest) : p.matchKeyword = some (.bool false, p.move "false".toList rest) := by
  have hcons : p.rest = 'f' :: ("alse".toList ++ rest) := hrest
  have htrue : p.keywordAt "true".toList (.bool true) = none :=
    keywordAt_of_ne _ hcons (by decide)
  have hfalse := keywordAt_of_ends (.bool false) hrest hends rfl
  simp only [matchKeyword, keywords, List.findSome?_cons, htrue, hfalse]

theorem matchKeyword_null {p : Parser} {rest : List Char} (hrest : p.rest = "null".toList ++ rest)
    (hends : Ends rest) : p.matchKeyword = some (.null, p.move "null".toList rest) := by
  have hcons : p.rest = 'n' :: ("ull".toList ++ rest) := hrest
  have htrue : p.keywordAt "true".toList (.bool true) = none :=
    keywordAt_of_ne _ hcons (by decide)
  have hfalse : p.keywordAt "false".toList (.bool false) = none :=
    keywordAt_of_ne _ hcons (by decide)
  have hnull := keywordAt_of_ends .null hrest hends rfl
  simp only [matchKeyword, keywords, List.findSome?_cons, htrue, hfalse, hnull]

end Parser

end OhMyPi.Slopjson
