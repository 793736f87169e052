import OhMyPi.Lib.Lossy

/-! `str::from_utf8` and its error, on bytes that may end inside a character. -/

namespace Text

structure Utf8Error where
  validUpTo : Nat
  /-- None when the bytes end where a character is not complete yet. -/
  errorLen : Option Nat
deriving Repr, DecidableEq

/-- `utf8_char_width` -/
def charWidth (first : UInt8) : Nat :=
  if first < 0x80 then 1
  else if 0xC2 ≤ first && first ≤ 0xDF then 2
  else if 0xE0 ≤ first && first ≤ 0xEF then 3
  else if 0xF0 ≤ first && first ≤ 0xF4 then 4
  else 0

/-- `run_utf8_validation`, none when the bytes are well-formed. -/
def runUtf8Validation : List UInt8 → Nat → Option Utf8Error
  | [], _ => none
  | first :: rest, index =>
    match charWidth first with
    | 1 => runUtf8Validation rest (index + 1)
    | 2 =>
      match rest with
      | [] => some ⟨index, none⟩
      | second :: rest =>
        if isContinuation second then runUtf8Validation rest (index + 2)
        else some ⟨index, some 1⟩
    | 3 =>
      match rest with
      | [] => some ⟨index, none⟩
      | second :: rest =>
        if isSecond first second then
          match rest with
          | [] => some ⟨index, none⟩
          | third :: rest =>
            if isContinuation third then runUtf8Validation rest (index + 3)
            else some ⟨index, some 2⟩
        else some ⟨index, some 1⟩
    | 4 =>
      match rest with
      | [] => some ⟨index, none⟩
      | second :: rest =>
        if isSecond first second then
          match rest with
          | [] => some ⟨index, none⟩
          | third :: rest =>
            if isContinuation third then
              match rest with
              | [] => some ⟨index, none⟩
              | fourth :: rest =>
                if isContinuation fourth then runUtf8Validation rest (index + 4)
                else some ⟨index, some 3⟩
            else some ⟨index, some 2⟩
        else some ⟨index, some 1⟩
    | _ => some ⟨index, some 1⟩

/-- The bytes of some text. -/
def IsText (b : List UInt8) : Prop := ∃ l : List Char, l.flatMap String.utf8EncodeChar = b

/-- The bytes of one character, by their number. -/
inductive CharBytes : List UInt8 → Prop
  | one : charWidth a = 1 → CharBytes [a]
  | two : charWidth a = 2 → isContinuation b = true → CharBytes [a, b]
  | three : charWidth a = 3 → isSecond a b = true → isContinuation c = true → CharBytes [a, b, c]
  | four : charWidth a = 4 → isSecond a b = true → isContinuation c = true →
      isContinuation d = true → CharBytes [a, b, c, d]

/-- Comparing two bytes given as numbers. -/
theorem ofNat_le_ofNat {m n : Nat} (hm : m < 256) (hn : n < 256) :
    UInt8.ofNat m ≤ UInt8.ofNat n ↔ m ≤ n := by
  rw [UInt8.le_iff_toNat_le, UInt8.toNat_ofNat', UInt8.toNat_ofNat', Nat.mod_eq_of_lt hm,
    Nat.mod_eq_of_lt hn]

theorem ofNat_lt_ofNat {m n : Nat} (hm : m < 256) (hn : n < 256) :
    UInt8.ofNat m < UInt8.ofNat n ↔ m < n := by
  rw [← UInt8.not_le, ofNat_le_ofNat hn hm, Nat.not_le]

theorem ofNat_inj {m n : Nat} (hm : m < 256) (hn : n < 256) :
    UInt8.ofNat m = UInt8.ofNat n ↔ m = n := by
  rw [← UInt8.toNat_inj, UInt8.toNat_ofNat', UInt8.toNat_ofNat', Nat.mod_eq_of_lt hm,
    Nat.mod_eq_of_lt hn]

theorem isContinuation_ofNat {n : Nat} (h : 128 ≤ n) (h' : n < 192) :
    isContinuation (UInt8.ofNat n) = true := by
  have hn : n < 256 := by omega
  have hlow : UInt8.ofNat 128 ≤ UInt8.ofNat n := (ofNat_le_ofNat (by decide) hn).2 h
  have hhigh : UInt8.ofNat n ≤ UInt8.ofNat 191 := (ofNat_le_ofNat hn (by decide)).2 (by omega)
  rw [isContinuation, Bool.and_eq_true]
  exact ⟨decide_eq_true hlow, decide_eq_true hhigh⟩

theorem charWidth_ofNat {n : Nat} (hn : n < 256) :
    charWidth (UInt8.ofNat n) =
      if n < 128 then 1 else if 194 ≤ n ∧ n ≤ 223 then 2 else if 224 ≤ n ∧ n ≤ 239 then 3
      else if 240 ≤ n ∧ n ≤ 244 then 4 else 0 := by
  have h80 : UInt8.ofNat n < 0x80 ↔ n < 128 := ofNat_lt_ofNat hn (by decide)
  have hc2 : 0xC2 ≤ UInt8.ofNat n ↔ 194 ≤ n := ofNat_le_ofNat (by decide) hn
  have hdf : UInt8.ofNat n ≤ 0xDF ↔ n ≤ 223 := ofNat_le_ofNat hn (by decide)
  have he0 : 0xE0 ≤ UInt8.ofNat n ↔ 224 ≤ n := ofNat_le_ofNat (by decide) hn
  have hef : UInt8.ofNat n ≤ 0xEF ↔ n ≤ 239 := ofNat_le_ofNat hn (by decide)
  have hf0 : 0xF0 ≤ UInt8.ofNat n ↔ 240 ≤ n := ofNat_le_ofNat (by decide) hn
  have hf4 : UInt8.ofNat n ≤ 0xF4 ↔ n ≤ 244 := ofNat_le_ofNat hn (by decide)
  simp only [charWidth, Bool.and_eq_true, decide_eq_true_eq, h80, hc2, hdf, he0, hef, hf0, hf4]

theorem isSecond_ofNat {m n : Nat} (hm : m < 256) (hn : n < 256) (h80 : 128 ≤ n) (hbf : n < 192)
    (he0 : m = 224 → 160 ≤ n) (hed : m = 237 → n ≤ 159) (hf0 : m = 240 → 144 ≤ n)
    (hf4 : m = 244 → n ≤ 143) (hlow : 224 ≤ m) (hhigh : m ≤ 244) :
    isSecond (UInt8.ofNat m) (UInt8.ofNat n) = true := by
  have hcont := isContinuation_ofNat h80 hbf
  have hge : ∀ k < 256, k ≤ n → decide (UInt8.ofNat k ≤ UInt8.ofNat n) = true := fun k hk h =>
    decide_eq_true ((ofNat_le_ofNat hk hn).2 h)
  have hle : ∀ k < 256, n ≤ k → decide (UInt8.ofNat n ≤ UInt8.ofNat k) = true := fun k hk h =>
    decide_eq_true ((ofNat_le_ofNat hn hk).2 h)
  rw [isSecond]
  split
  next h =>
    rw [Bool.and_eq_true]
    exact ⟨hge 160 (by decide) (he0 ((ofNat_inj hm (by decide)).1 h)), hle 191 (by decide) (by omega)⟩
  next h0 =>
    split
    next h =>
      rw [Bool.and_eq_true]
      exact ⟨hge 128 (by decide) h80, hle 159 (by decide) (hed ((ofNat_inj hm (by decide)).1 h))⟩
    next h1 =>
      split
      next => exact hcont
      next h2 =>
        split
        next h =>
          rw [Bool.and_eq_true]
          exact ⟨hge 144 (by decide) (hf0 ((ofNat_inj hm (by decide)).1 h)),
            hle 191 (by decide) (by omega)⟩
        next h3 =>
          split
          next => exact hcont
          next h4 =>
            split
            next h =>
              rw [Bool.and_eq_true]
              exact ⟨hge 128 (by decide) h80,
                hle 143 (by decide) (hf4 ((ofNat_inj hm (by decide)).1 h))⟩
            next h5 =>
              exfalso
              have hne : ∀ k < 256, UInt8.ofNat m ≠ UInt8.ofNat k → m ≠ k := fun k hk h heq =>
                h (congrArg _ heq)
              have hrange : ∀ k l, k < 256 → l < 256 →
                  ¬ (decide (UInt8.ofNat k ≤ UInt8.ofNat m) &&
                    decide (UInt8.ofNat m ≤ UInt8.ofNat l)) = true → ¬ (k ≤ m ∧ m ≤ l) := by
                intro k l hk hl h hkl
                apply h
                rw [Bool.and_eq_true]
                exact ⟨decide_eq_true ((ofNat_le_ofNat hk hm).2 hkl.1),
                  decide_eq_true ((ofNat_le_ofNat hm hl).2 hkl.2)⟩
              have := hne 224 (by decide) h0
              have := hrange 225 239 (by decide) (by decide) h2
              have := hne 240 (by decide) h3
              have := hrange 241 243 (by decide) (by decide) h4
              have := hne 244 (by decide) h5
              omega

theorem charBytes_utf8EncodeChar (c : Char) : CharBytes (String.utf8EncodeChar c) := by
  have hvalid := c.valid
  simp only [UInt32.isValidChar, Nat.isValidChar] at hvalid
  simp only [String.utf8EncodeChar]
  split
  · apply CharBytes.one
    rw [charWidth_ofNat (by omega), if_pos (by omega)]
  · split
    · apply CharBytes.two
      · rw [charWidth_ofNat (by omega), if_neg (by omega), if_pos (by omega)]
      · exact isContinuation_ofNat (by omega) (by omega)
    · split
      · apply CharBytes.three
        · rw [charWidth_ofNat (by omega), if_neg (by omega), if_neg (by omega), if_pos (by omega)]
        · apply isSecond_ofNat <;> omega
        · exact isContinuation_ofNat (by omega) (by omega)
      · apply CharBytes.four
        · rw [charWidth_ofNat (by omega), if_neg (by omega), if_neg (by omega), if_neg (by omega),
            if_pos (by omega)]
        · apply isSecond_ofNat <;> omega
        · exact isContinuation_ofNat (by omega) (by omega)
        · exact isContinuation_ofNat (by omega) (by omega)

theorem CharBytes.validate (h : CharBytes b) (rest : List UInt8) (index : Nat) :
    runUtf8Validation (b ++ rest) index = runUtf8Validation rest (index + b.length) := by
  cases h with
  | one ha =>
    rw [runUtf8Validation.eq_def]
    simp [ha]
  | two ha hb =>
    rw [runUtf8Validation.eq_def]
    simp [ha, hb]
  | three ha hb hc =>
    rw [runUtf8Validation.eq_def]
    simp [ha, hb, hc]
  | four ha hb hc hd =>
    rw [runUtf8Validation.eq_def]
    simp [ha, hb, hc, hd]

/-- Validation that stops inside a character asks for more bytes. -/
theorem CharBytes.validate_incomplete (h : CharBytes (b ++ rest)) (hb : b ≠ []) (hrest : rest ≠ [])
    (index : Nat) : runUtf8Validation b index = some ⟨index, none⟩ := by
  rw [runUtf8Validation.eq_def]
  obtain ⟨c, hc⟩ : ∃ c, b ++ rest = c := ⟨_, rfl⟩
  rw [hc] at h
  match b, rest with
  | [], _ => exact absurd rfl hb
  | _, [] => exact absurd rfl hrest
  | [x], y :: rest =>
    cases h with
    | one => cases hc
    | two ha => cases hc; simp [ha]
    | three ha => cases hc; simp [ha]
    | four ha => cases hc; simp [ha]
  | [x, y], z :: rest =>
    cases h with
    | one => cases hc
    | two => cases hc
    | three ha hb => cases hc; simp [ha, hb]
    | four ha hb => cases hc; simp [ha, hb]
  | [x, y, z], w :: rest =>
    cases h with
    | one => cases hc
    | two => cases hc
    | three => cases hc
    | four ha hb hd => cases hc; simp [ha, hb, hd]
  | x :: y :: z :: w :: b, v :: rest =>
    cases h with
    | one => cases hc
    | two => cases hc
    | three => cases hc
    | four => simp at hc

/-- A part of a text is well-formed, or up to a character that it ends in. -/
theorem validate_of_isText (h : IsText (b ++ rest)) (index : Nat) :
    ∃ n ≤ b.length, IsText (b.drop n ++ rest) ∧
      (runUtf8Validation b index = none ∧ n = b.length ∨
        runUtf8Validation b index = some ⟨index + n, none⟩ ∧ rest ≠ []) := by
  obtain ⟨l, hl⟩ := h
  induction l generalizing b index with
  | nil =>
    obtain ⟨rfl, rfl⟩ := List.append_eq_nil_iff.1 hl.symm
    exact ⟨0, Nat.le_refl _, ⟨[], rfl⟩, .inl ⟨rfl, rfl⟩⟩
  | cons c l ih =>
    have hchar := charBytes_utf8EncodeChar c
    rw [List.flatMap_cons] at hl
    rcases List.append_eq_append_iff.1 hl with ⟨b', rfl, hl'⟩ | ⟨tail, hc, hrest⟩
    · obtain ⟨n, hn, htext, hrun⟩ := ih (b := b') (index + (String.utf8EncodeChar c).length) hl'
      refine ⟨(String.utf8EncodeChar c).length + n, ?_, ?_, ?_⟩
      · rw [List.length_append]
        exact Nat.add_le_add_left hn _
      · rwa [List.drop_append, List.drop_eq_nil_of_le (Nat.le_add_right _ _), List.nil_append,
          Nat.add_sub_cancel_left]
      · rw [hchar.validate, List.length_append, ← Nat.add_assoc]
        rcases hrun with ⟨hrun, rfl⟩ | hrun
        · exact .inl ⟨hrun, rfl⟩
        · exact .inr hrun
    · rcases eq_or_ne tail [] with rfl | htail
      · rw [List.append_nil] at hc
        refine ⟨b.length, Nat.le_refl _, ?_, .inl ⟨?_, rfl⟩⟩
        · rw [List.drop_length, hrest]
          exact ⟨l, rfl⟩
        · have hend := hchar.validate [] index
          rwa [List.append_nil, hc, runUtf8Validation] at hend
      · -- the bytes end inside this character, or right before it
        have hwhole : IsText (b ++ rest) := ⟨c :: l, by rw [List.flatMap_cons, hl]⟩
        refine ⟨0, Nat.zero_le _, hwhole, ?_⟩
        rcases eq_or_ne b [] with rfl | hb
        · exact .inl ⟨rfl, rfl⟩
        · rw [hc] at hchar
          refine .inr ⟨hchar.validate_incomplete hb htail index, ?_⟩
          rw [hrest]
          exact fun h => htail (List.append_eq_nil_iff.1 h).1

/-- A text can be cut after any ASCII byte. -/
theorem IsText.after_ascii (h : IsText (a ++ x :: b)) (hx : x.toNat < 128) : IsText b := by
  obtain ⟨l, hl⟩ := h
  induction l generalizing a with
  | nil => simp at hl
  | cons c l ih =>
    rw [List.flatMap_cons] at hl
    rcases List.append_eq_append_iff.1 hl with ⟨a', -, hl'⟩ | ⟨tail, hc, hb⟩
    · exact ih hl'
    · cases tail with
      | nil => exact ih (a := []) hb.symm
      | cons y tail =>
        obtain ⟨rfl, hb'⟩ := List.cons.inj hb
        -- the ASCII byte is a whole character, so it ends here
        have hchar := eq_of_mem_utf8EncodeChar hx (c := c) (by simp [hc])
        rw [utf8EncodeChar_ascii (by omega)] at hc
        have htail : tail = [] := by
          have hlength := congrArg List.length hc
          simp only [List.length_cons, List.length_nil, List.length_append] at hlength
          exact List.length_eq_zero_iff.1 (by omega)
        rw [hb', htail]
        exact ⟨l, rfl⟩

/-- A text can be cut before any ASCII byte. -/
theorem IsText.from_ascii (h : IsText (a ++ x :: b)) (hx : x.toNat < 128) : IsText (x :: b) := by
  obtain ⟨l, rfl⟩ := h.after_ascii hx
  have hchar : (Char.ofUInt8 x).toNat = x.toNat := UInt8.toNat_toUInt32 x
  refine ⟨Char.ofUInt8 x :: l, ?_⟩
  rw [List.flatMap_cons, utf8EncodeChar_ascii (by omega), hchar, UInt8.ofNat_toNat]
  rfl

end Text
