import OhMyPi.Lib.LossyStream

/-! Texts cut at byte offsets, as `str` slices them: a cut inside a character or behind the end is
not a text. -/

namespace Text

/-- `str::as_bytes`, for a text given as its characters. -/
def utf8 (text : List Char) : List UInt8 := text.flatMap String.utf8EncodeChar

@[simp] theorem utf8_nil : utf8 [] = [] := rfl

theorem utf8_cons (c : Char) (text : List Char) :
    utf8 (c :: text) = String.utf8EncodeChar c ++ utf8 text := rfl

@[simp] theorem utf8_append (s t : List Char) : utf8 (s ++ t) = utf8 s ++ utf8 t := by
  simp [utf8]

@[simp] theorem length_utf8 (text : List Char) : (utf8 text).length = byteLen text := by
  induction text with
  | nil => rfl
  | cons c text ih =>
    rw [utf8_cons, List.length_append, byteLen_cons, String.length_utf8EncodeChar, ih]

/-- `str::split_at_checked`. -/
def splitAtByte : List Char → Nat → Option (List Char × List Char)
  | text, 0 => some ([], text)
  | [], _ + 1 => none
  | c :: text, n + 1 =>
    if c.utf8Size ≤ n + 1 then
      (splitAtByte text (n + 1 - c.utf8Size)).map fun parts => (c :: parts.1, parts.2)
    else none

/-- `str::is_char_boundary` -/
def isBoundary (text : List Char) (n : Nat) : Bool := (splitAtByte text n).isSome

/-- `&text[start..stop]`, none where it panics. -/
def slice (text : List Char) (start stop : Nat) : Option (List Char) :=
  (splitAtByte text stop).bind fun front => (splitAtByte front.1 start).map (·.2)

@[simp] theorem splitAtByte_append (a b : List Char) :
    splitAtByte (a ++ b) (byteLen a) = some (a, b) := by
  induction a with
  | nil => cases b <;> rfl
  | cons c a ih =>
    obtain ⟨n, hn⟩ := Nat.exists_eq_add_of_lt c.utf8Size_pos
    have hlen : byteLen (c :: a) = (n + byteLen a) + 1 := by
      rw [byteLen_cons]
      omega
    rw [hlen, List.cons_append, splitAtByte, if_pos (by omega),
      show n + byteLen a + 1 - c.utf8Size = byteLen a by omega, ih]
    rfl

theorem eq_of_splitAtByte {text : List Char} {n : Nat} {parts : List Char × List Char}
    (h : splitAtByte text n = some parts) : text = parts.1 ++ parts.2 ∧ byteLen parts.1 = n := by
  induction text, n using splitAtByte.induct generalizing parts with
  | case1 text =>
    cases text <;> cases h <;> exact ⟨rfl, rfl⟩
  | case2 n => cases h
  | case3 c text n hle ih =>
    rw [splitAtByte, if_pos hle] at h
    obtain ⟨rest, hrest, rfl⟩ := Option.map_eq_some_iff.1 h
    obtain ⟨rfl, hlen⟩ := ih hrest
    refine ⟨rfl, ?_⟩
    rw [byteLen_cons, hlen]
    omega
  | case4 c text n hle =>
    rw [splitAtByte, if_neg hle] at h
    cases h

theorem isBoundary_iff {text : List Char} {n : Nat} :
    isBoundary text n = true ↔ ∃ a b, text = a ++ b ∧ byteLen a = n := by
  constructor
  · intro h
    obtain ⟨parts, hparts⟩ := Option.isSome_iff_exists.1 h
    exact ⟨parts.1, parts.2, eq_of_splitAtByte hparts⟩
  · rintro ⟨a, b, rfl, rfl⟩
    rw [isBoundary, splitAtByte_append]
    rfl

theorem isBoundary_append (a b : List Char) : isBoundary (a ++ b) (byteLen a) = true :=
  isBoundary_iff.2 ⟨a, b, rfl, rfl⟩

@[simp] theorem slice_append (a b c : List Char) :
    slice (a ++ b ++ c) (byteLen a) (byteLen a + byteLen b) = some b := by
  rw [slice, ← byteLen_append, splitAtByte_append, Option.bind_some, splitAtByte_append]
  rfl

theorem eq_of_slice {text part : List Char} {start stop : Nat}
    (h : slice text start stop = some part) :
    ∃ a c, text = a ++ part ++ c ∧ byteLen a = start ∧ start + byteLen part = stop := by
  obtain ⟨⟨front, back⟩, hfront, h⟩ := Option.bind_eq_some_iff.1 h
  obtain ⟨⟨before, middle⟩, hbefore, rfl⟩ := Option.map_eq_some_iff.1 h
  obtain ⟨rfl, hstop⟩ := eq_of_splitAtByte hfront
  obtain ⟨hmid, hstart⟩ := eq_of_splitAtByte hbefore
  simp only at hmid hstart hstop
  subst hmid
  exact ⟨before, back, rfl, hstart, by rw [← hstart, ← byteLen_append, hstop]⟩

/-- Equal byte offsets cut a text into equal parts. -/
theorem eq_of_byteLen_eq {a a' b b' : List Char} (h : a ++ b = a' ++ b')
    (hlen : byteLen a = byteLen a') : a = a' ∧ b = b' := by
  have hsplit := splitAtByte_append a b
  rw [h, hlen, splitAtByte_append] at hsplit
  cases hsplit
  exact ⟨rfl, rfl⟩

theorem byteLen_eq_zero {a : List Char} (h : byteLen a = 0) : a = [] :=
  (eq_of_byteLen_eq (show a ++ [] = [] ++ a by simp) h).1

/-- Boundaries in order have a slice between them. -/
theorem exists_slice {text : List Char} {start stop : Nat} (hstart : isBoundary text start = true)
    (hstop : isBoundary text stop = true) (hle : start ≤ stop) :
    ∃ part, slice text start stop = some part := by
  obtain ⟨a, b, rfl, rfl⟩ := isBoundary_iff.1 hstart
  obtain ⟨a', b', heq, rfl⟩ := isBoundary_iff.1 hstop
  rcases List.append_eq_append_iff.1 heq with ⟨part, rfl, rfl⟩ | ⟨c, rfl, rfl⟩
  · refine ⟨part, ?_⟩
    rw [byteLen_append, ← List.append_assoc, slice_append]
  · obtain rfl : c = [] := by
      rw [byteLen_append] at hle
      exact byteLen_eq_zero (by omega)
    exact ⟨[], by simpa using slice_append a' [] b⟩

/-- The bytes of a slice. -/
theorem utf8_of_slice {text part : List Char} {start stop : Nat}
    (h : slice text start stop = some part) :
    utf8 part = ((utf8 text).drop start).take (stop - start) := by
  obtain ⟨a, c, rfl, rfl, rfl⟩ := eq_of_slice h
  rw [utf8_append, utf8_append, List.append_assoc, ← length_utf8 a, List.drop_left,
    Nat.add_sub_cancel_left, ← length_utf8 part, List.take_left]

end Text
