import Mathlib.Algebra.Order.Ring.Nat
import OhMyPi.Lib.Utf8

/-! Decoding in pieces. Bytes that end inside a character are not decoded like the bytes that go on:
the unfinished character must be kept for the next piece. -/

namespace Text

/-! ## Which bytes are a character -/

theorem isContinuation_iff {b : UInt8} :
    isContinuation b = true ↔ 128 ≤ b.toNat ∧ b.toNat ≤ 191 := by
  simp [isContinuation, UInt8.le_iff_toNat_le]

theorem charWidth_eq (a : UInt8) : charWidth a =
    if a.toNat < 128 then 1 else if 194 ≤ a.toNat ∧ a.toNat ≤ 223 then 2
    else if 224 ≤ a.toNat ∧ a.toNat ≤ 239 then 3 else if 240 ≤ a.toNat ∧ a.toNat ≤ 244 then 4
    else 0 := by
  have h := charWidth_ofNat a.toNat_lt
  rwa [UInt8.ofNat_toNat] at h

/-- The second bytes that `isSecond` accepts, in numbers. -/
theorem isSecond_iff {a b : UInt8} : isSecond a b = true ↔
    224 ≤ a.toNat ∧ a.toNat ≤ 244 ∧ 128 ≤ b.toNat ∧ b.toNat ≤ 191 ∧
      (a.toNat = 224 → 160 ≤ b.toNat) ∧ (a.toNat = 237 → b.toNat ≤ 159) ∧
      (a.toNat = 240 → 144 ≤ b.toNat) ∧ (a.toNat = 244 → b.toNat ≤ 143) := by
  simp only [isSecond, isContinuation, ← UInt8.toNat_inj, UInt8.le_iff_toNat_le,
    UInt8.reduceToNat, Bool.and_eq_true, decide_eq_true_eq]
  -- one case for each range of first bytes
  repeat' split
  all_goals simp only [Bool.and_eq_true, decide_eq_true_eq, Bool.false_eq_true, false_iff]
  all_goals omega

/-- The character of the given number. -/
def charOf (n : Nat) (h : n.isValidChar) : Char :=
  ⟨UInt32.ofNat n, by
    have hlt : n < 2 ^ 32 := by
      rcases h with h | ⟨_, h⟩ <;> omega
    rwa [UInt32.isValidChar, UInt32.toNat_ofNat_of_lt' hlt]⟩

theorem toNat_charOf {n : Nat} (h : n.isValidChar) : (charOf n h).val.toNat = n := by
  have hlt : n < 2 ^ 32 := by
    rcases h with h | ⟨_, h⟩ <;> omega
  exact UInt32.toNat_ofNat_of_lt' hlt

theorem ofNat_eq_of_toNat {n : Nat} {b : UInt8} (h : n = b.toNat) : UInt8.ofNat n = b := by
  rw [h, UInt8.ofNat_toNat]

/-- Well-formed bytes are the bytes of a character. -/
theorem CharBytes.exists_char (h : CharBytes b) : ∃ c, b = String.utf8EncodeChar c := by
  cases h with
  | @one a ha =>
    have hlt : a.toNat < 128 := by
      rw [charWidth_eq] at ha
      by_contra hge
      rw [if_neg hge] at ha
      repeat' split at ha
      all_goals omega
    have hvalid : a.toNat.isValidChar := .inl (by omega)
    refine ⟨charOf a.toNat hvalid, ?_⟩
    simp only [String.utf8EncodeChar, toNat_charOf]
    rw [if_pos (by omega), UInt8.ofNat_toNat]
  | @two a b ha hb =>
    obtain ⟨hb1, hb2⟩ := isContinuation_iff.1 hb
    have hrange : 194 ≤ a.toNat ∧ a.toNat ≤ 223 := by
      rw [charWidth_eq] at ha
      by_contra hge
      rw [if_neg hge] at ha
      repeat' split at ha
      all_goals omega
    have hvalid : ((a.toNat - 192) * 64 + (b.toNat - 128)).isValidChar := .inl (by omega)
    refine ⟨charOf _ hvalid, ?_⟩
    simp only [String.utf8EncodeChar, toNat_charOf]
    rw [if_neg (by omega), if_pos (by omega), ofNat_eq_of_toNat (b := a) (by omega),
      ofNat_eq_of_toNat (b := b) (by omega)]
  | @three a b c ha hb hc =>
    obtain ⟨hc1, hc2⟩ := isContinuation_iff.1 hc
    obtain ⟨ha1, ha2, hb1, hb2, he0, hed, -, -⟩ := isSecond_iff.1 hb
    have hrange : a.toNat ≤ 239 := by
      rw [charWidth_eq] at ha
      by_contra hge
      repeat' split at ha
      all_goals omega
    have hvalid : ((a.toNat - 224) * 4096 + (b.toNat - 128) * 64 + (c.toNat - 128)).isValidChar := by
      rw [Nat.isValidChar]
      omega
    refine ⟨charOf _ hvalid, ?_⟩
    simp only [String.utf8EncodeChar, toNat_charOf]
    rw [if_neg (by omega), if_neg (by omega), if_pos (by omega),
      ofNat_eq_of_toNat (b := a) (by omega), ofNat_eq_of_toNat (b := b) (by omega),
      ofNat_eq_of_toNat (b := c) (by omega)]
  | @four a b c d ha hb hc hd =>
    obtain ⟨hc1, hc2⟩ := isContinuation_iff.1 hc
    obtain ⟨hd1, hd2⟩ := isContinuation_iff.1 hd
    obtain ⟨ha1, ha2, hb1, hb2, -, -, hf0, hf4⟩ := isSecond_iff.1 hb
    have hrange : 240 ≤ a.toNat := by
      rw [charWidth_eq] at ha
      by_contra hge
      repeat' split at ha
      all_goals omega
    have hvalid : ((a.toNat - 240) * 262144 + (b.toNat - 128) * 4096 + (c.toNat - 128) * 64 +
        (d.toNat - 128)).isValidChar := by
      rw [Nat.isValidChar]
      omega
    refine ⟨charOf _ hvalid, ?_⟩
    simp only [String.utf8EncodeChar, toNat_charOf]
    rw [if_neg (by omega), if_neg (by omega), if_neg (by omega),
      ofNat_eq_of_toNat (b := a) (by omega), ofNat_eq_of_toNat (b := b) (by omega),
      ofNat_eq_of_toNat (b := c) (by omega), ofNat_eq_of_toNat (b := d) (by omega)]

/-! ## What validation accepts -/

theorem IsText.nil : IsText [] := ⟨[], rfl⟩

theorem CharBytes.isText_append (h : CharBytes b) (ht : IsText t) : IsText (b ++ t) := by
  obtain ⟨c, rfl⟩ := h.exists_char
  obtain ⟨l, rfl⟩ := ht
  exact ⟨c :: l, List.flatMap_cons⟩

theorem lossy_isText (h : IsText a) (b : List UInt8) : lossy (a ++ b) = lossy a ++ lossy b := by
  obtain ⟨l, rfl⟩ := h
  induction l with
  | nil => simp
  | cons c l ih =>
    rw [List.flatMap_cons, List.append_assoc, lossy_encode, lossy_encode, ih, List.cons_append]

/-- Validation stops behind a well-formed part. -/
theorem validate_spec (b : List UInt8) (index : Nat) :
    ∃ n ≤ b.length, IsText (b.take n) ∧
      (runUtf8Validation b index = none ∧ n = b.length ∨
        ∃ len, runUtf8Validation b index = some ⟨index + n, len⟩) := by
  have hstep : ∀ {a rest : List UInt8}, CharBytes a → ∀ {index : Nat},
      (∃ n ≤ rest.length, IsText (rest.take n) ∧
        (runUtf8Validation rest (index + a.length) = none ∧ n = rest.length ∨
          ∃ len, runUtf8Validation rest (index + a.length) = some ⟨index + a.length + n, len⟩)) →
      ∃ n ≤ (a ++ rest).length, IsText ((a ++ rest).take n) ∧
        (runUtf8Validation rest (index + a.length) = none ∧ n = (a ++ rest).length ∨
          ∃ len, runUtf8Validation rest (index + a.length) = some ⟨index + n, len⟩) := by
    rintro a rest ha index ⟨n, hn, htext, hrun⟩
    refine ⟨a.length + n, ?_, ?_, ?_⟩
    · rw [List.length_append]
      omega
    · rw [List.take_append, List.take_of_length_le (Nat.le_add_right _ _), Nat.add_sub_cancel_left]
      exact ha.isText_append htext
    · rw [List.length_append, ← Nat.add_assoc]
      rcases hrun with ⟨hrun, rfl⟩ | hrun
      · exact .inl ⟨hrun, rfl⟩
      · exact .inr hrun
  have hstop : ∀ {a : List UInt8} {index : Nat} (len : Option Nat),
      ∃ n ≤ a.length, IsText (a.take n) ∧
        ((some ⟨index, len⟩ : Option Utf8Error) = none ∧ n = a.length ∨
          ∃ len', (some ⟨index, len⟩ : Option Utf8Error) = some ⟨index + n, len'⟩) :=
    fun len => ⟨0, Nat.zero_le _, .nil, .inr ⟨len, rfl⟩⟩
  fun_induction runUtf8Validation b index with
  | case1 => exact ⟨0, Nat.le_refl _, .nil, .inl ⟨rfl, rfl⟩⟩
  | case2 first rest index ha ih => exact hstep (.one ha) ih
  | case4 first index ha second rest hb ih => exact hstep (.two ha hb) ih
  | case8 first index ha second hb third rest hc ih => exact hstep (.three ha hb hc) ih
  | case14 first index ha second hb third hc fourth rest hd ih =>
    exact hstep (.four ha hb hc hd) ih
  | _ => exact hstop _

/-! ## Bytes that end inside a character -/

/-- The bytes are the first bytes of a character, and not all of them. -/
def Unfinished (b : List UInt8) : Prop := ∃ rest, b ≠ [] ∧ rest ≠ [] ∧ CharBytes (b ++ rest)

/-- Decoding the bytes stops inside a character that more bytes could finish. -/
inductive EndsInside : List UInt8 → Prop
  | here : Unfinished b → EndsInside b
  | char (c : Char) : EndsInside rest → EndsInside (String.utf8EncodeChar c ++ rest)
  | invalid : b ≠ [] → decodeFirst b = none → EndsInside (b.drop (invalidLen b)) → EndsInside b

theorem unfinished_of_isSecond {a b : UInt8} (h : isSecond a b = true) :
    Unfinished [a] ∧ Unfinished [a, b] ∧
      ∀ c, 0xF0 ≤ a → isContinuation c = true → Unfinished [a, b, c] := by
  have hcont : isContinuation 0x80 = true := by decide
  obtain ⟨ha1, ha2, -⟩ := isSecond_iff.1 h
  by_cases hfour : 240 ≤ a.toNat
  · have hwidth : charWidth a = 4 := by
      rw [charWidth_eq, if_neg (by omega), if_neg (by omega), if_neg (by omega),
        if_pos (by omega)]
    have hchar : ∀ c, isContinuation c = true → CharBytes [a, b, c, 0x80] := fun c hc =>
      .four hwidth h hc hcont
    refine ⟨⟨[b, 0x80, 0x80], ?_, ?_, hchar _ hcont⟩, ⟨[0x80, 0x80], ?_, ?_, hchar _ hcont⟩, ?_⟩
    · exact List.cons_ne_nil _ _
    · exact List.cons_ne_nil _ _
    · exact List.cons_ne_nil _ _
    · exact List.cons_ne_nil _ _
    · intro c _ hc
      exact ⟨[0x80], List.cons_ne_nil _ _, List.cons_ne_nil _ _, hchar c hc⟩
  · have hwidth : charWidth a = 3 := by
      rw [charWidth_eq, if_neg (by omega), if_neg (by omega), if_pos (by omega)]
    have hchar : CharBytes [a, b, 0x80] := .three hwidth h hcont
    refine ⟨⟨[b, 0x80], ?_, ?_, hchar⟩, ⟨[0x80], ?_, ?_, hchar⟩, ?_⟩
    · exact List.cons_ne_nil _ _
    · exact List.cons_ne_nil _ _
    · exact List.cons_ne_nil _ _
    · exact List.cons_ne_nil _ _
    · intro c hlead
      exact absurd (UInt8.le_iff_toNat_le.1 hlead) hfour

/-- An ill-formed part that is not the start of a character is the same whatever follows. -/
theorem invalidLen_append_of_not_unfinished {b : List UInt8} (hb : b ≠ []) (h : ¬ Unfinished b)
    (x : List UInt8) : invalidLen (b ++ x) = invalidLen b ∧ invalidLen b ≤ b.length := by
  match b with
  | [] => exact absurd rfl hb
  | [first] =>
    refine ⟨?_, Nat.le_refl _⟩
    cases x with
    | nil => rfl
    | cons second rest =>
      have hsecond : isSecond first second = false := by
        rw [← Bool.not_eq_true]
        exact fun htrue => h (unfinished_of_isSecond htrue).1
      simp [invalidLen, hsecond]
  | [first, second] =>
    have hsecond : isSecond first second = false := by
      rw [← Bool.not_eq_true]
      exact fun htrue => h (unfinished_of_isSecond htrue).2.1
    simp [invalidLen, hsecond]
  | first :: second :: third :: rest =>
    simp only [List.cons_append, invalidLen, true_and, List.length_cons]
    split
    · split
      · omega
      · omega
    · omega

theorem decodeFirst_append_of_not_unfinished {b : List UInt8} (hb : b ≠ []) (h : ¬ Unfinished b)
    (hnone : decodeFirst b = none) (x : List UInt8) : decodeFirst (b ++ x) = none := by
  cases hsome : decodeFirst (b ++ x) with
  | none => rfl
  | some d =>
    obtain ⟨rest, hrest⟩ := decodeFirst_eq_some hsome
    rcases List.append_eq_append_iff.1 hrest with ⟨m, hd, -⟩ | ⟨m, hb', -⟩
    · rcases eq_or_ne m [] with rfl | hm
      · rw [List.append_nil] at hd
        have hself := decodeFirst_encode d []
        rw [List.append_nil, hd, hnone] at hself
        cases hself
      · exact absurd ⟨m, hb, hm, hd ▸ charBytes_utf8EncodeChar d⟩ h
    · rw [hb', decodeFirst_encode] at hnone
      cases hnone

/-- Bytes that do not end inside a character are decoded the same whatever follows. -/
theorem lossy_append {b : List UInt8} (h : ¬ EndsInside b) (x : List UInt8) :
    lossy (b ++ x) = lossy b ++ lossy x := by
  induction b using lossy_induction with
  | nil => rw [lossy_nil, List.nil_append, List.nil_append]
  | char c rest ih =>
    rw [List.append_assoc, lossy_encode, lossy_encode, ih fun hrest => h (.char c hrest),
      List.cons_append]
  | invalid b hb hnone ih =>
    have hunfinished : ¬ Unfinished b := fun hu => h (.here hu)
    obtain ⟨hlen, hle⟩ := invalidLen_append_of_not_unfinished hb hunfinished x
    have hne : b ++ x ≠ [] := fun heq => hb (List.append_eq_nil_iff.1 heq).1
    rw [lossy_of_none hne (decodeFirst_append_of_not_unfinished hb hunfinished hnone x), hlen,
      List.drop_append_of_le_length hle, ih fun hrest => h (.invalid hb hnone hrest),
      lossy_of_none hb hnone, List.cons_append]

/-! ## Cutting a text at a number of bytes -/

/-- `str::len`, for a text given as its characters. -/
def byteLen (text : List Char) : Nat := (text.map Char.utf8Size).sum

@[simp] theorem byteLen_nil : byteLen [] = 0 := rfl

@[simp] theorem byteLen_cons (c : Char) (text : List Char) :
    byteLen (c :: text) = c.utf8Size + byteLen text := rfl

@[simp] theorem byteLen_append (s t : List Char) : byteLen (s ++ t) = byteLen s + byteLen t := by
  simp [byteLen]

/-- The longest prefix of at most `maximum` bytes. -/
def utf8Prefix : List Char → Nat → List Char
  | [], _ => []
  | c :: text, maximum =>
    if c.utf8Size ≤ maximum then c :: utf8Prefix text (maximum - c.utf8Size) else []

theorem byteLen_utf8Prefix_le (text : List Char) (maximum : Nat) :
    byteLen (utf8Prefix text maximum) ≤ maximum := by
  induction text generalizing maximum with
  | nil => exact Nat.zero_le _
  | cons c text ih =>
    rw [utf8Prefix]
    split
    · next hc =>
      have := ih (maximum - c.utf8Size)
      rw [byteLen_cons]
      omega
    · exact Nat.zero_le _

/-- The prefix and what it leaves. -/
theorem utf8Prefix_append_drop (text : List Char) (maximum : Nat) :
    utf8Prefix text maximum ++ text.drop (utf8Prefix text maximum).length = text := by
  induction text generalizing maximum with
  | nil => rfl
  | cons c text ih =>
    rw [utf8Prefix]
    split
    · rw [List.length_cons, List.drop_succ_cons, List.cons_append, ih]
    · rfl

theorem utf8Prefix_eq_nil {text : List Char} {maximum : Nat}
    (h : ∀ c ∈ text.head?, maximum < c.utf8Size) : utf8Prefix text maximum = [] := by
  cases text with
  | nil => rfl
  | cons c text =>
    rw [utf8Prefix, if_neg (Nat.not_le.2 (h c rfl))]

theorem utf8Prefix_of_le {text : List Char} {maximum : Nat} (h : byteLen text ≤ maximum) :
    utf8Prefix text maximum = text := by
  induction text generalizing maximum with
  | nil => rfl
  | cons c text ih =>
    rw [byteLen_cons] at h
    rw [utf8Prefix, if_pos (by omega), ih (by omega)]

end Text
