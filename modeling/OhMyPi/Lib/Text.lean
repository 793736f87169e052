import Mathlib.Data.List.Basic
import Mathlib.Data.List.Induction

/-! Text as the Rust standard library sees it: a string is a sequence of Unicode scalar values
stored as UTF-8, its length is counted in bytes, and the line and separator functions below
follow `str::lines`, `str::split_once`, `str::rsplit_once`, `str::strip_prefix` and
`u32::from_str`. -/

namespace Text

/-! ## UTF-8 -/

/-- The bytes of a string, `str::as_bytes`. -/
def bytes (s : String) : List UInt8 := s.toList.flatMap String.utf8EncodeChar

/-- `str::from_utf8`. -/
def fromUtf8 (b : List UInt8) : Option String := String.fromUTF8? b.toByteArray

@[simp] theorem bytes_ofList : bytes (String.ofList l) = l.flatMap String.utf8EncodeChar := by
  simp [bytes]

theorem toByteArray_bytes (s : String) : (bytes s).toByteArray = s.toByteArray :=
  String.utf8Encode_toList

/-- Decoding the bytes of a string gives it back. -/
@[simp] theorem fromUtf8_bytes (s : String) : fromUtf8 (bytes s) = some s := by
  have hvalid : s.toByteArray.IsValidUTF8 := s.isValidUTF8
  rw [fromUtf8, toByteArray_bytes, String.fromUTF8?, dif_pos hvalid]
  rfl

theorem fromUtf8_eq_some {b : List UInt8} (h : fromUtf8 b = some s) : b = bytes s := by
  have hbytes : s.toByteArray = b.toByteArray := by
    rw [fromUtf8, String.fromUTF8?] at h
    split at h
    · cases h
      rfl
    · cases h
  have hdata := congrArg (fun a => a.data.toList) ((toByteArray_bytes s).trans hbytes)
  simpa using hdata.symm

/-- An ASCII byte occurs in the encoding of a character only when it is the character. -/
theorem eq_of_mem_utf8EncodeChar {c : Char} {b : UInt8} (hb : b.toNat < 128)
    (h : b ∈ String.utf8EncodeChar c) : c.toNat = b.toNat := by
  have hv : c.val.toNat < 2 ^ 32 := c.val.toNat_lt
  simp only [String.utf8EncodeChar] at h
  rw [Char.toNat]
  split at h
  · simp only [List.mem_singleton] at h
    subst h
    rw [UInt8.toNat_ofNat']
    omega
  · exfalso
    -- Every byte of a longer encoding carries the top bit.
    split at h
    · simp only [List.mem_cons, List.not_mem_nil, or_false] at h
      rcases h with rfl | rfl <;> rw [UInt8.toNat_ofNat'] at hb <;> omega
    · split at h
      · simp only [List.mem_cons, List.not_mem_nil, or_false] at h
        rcases h with rfl | rfl | rfl <;> rw [UInt8.toNat_ofNat'] at hb <;> omega
      · simp only [List.mem_cons, List.not_mem_nil, or_false] at h
        rcases h with rfl | rfl | rfl | rfl <;> rw [UInt8.toNat_ofNat'] at hb <;> omega

theorem mem_of_mem_utf8 {l : List Char} {c : Char} (hc : c.toNat < 128)
    (h : UInt8.ofNat c.toNat ∈ l.flatMap String.utf8EncodeChar) : c ∈ l := by
  obtain ⟨d, hd, hmem⟩ := List.mem_flatMap.1 h
  have hnat : (UInt8.ofNat c.toNat).toNat = c.toNat := by
    rw [UInt8.toNat_ofNat']
    omega
  have heq := eq_of_mem_utf8EncodeChar (by omega) hmem
  rw [hnat] at heq
  rwa [← Char.toNat_inj.1 heq]

/-- The first byte of a character is never a continuation byte. -/
theorem head_utf8EncodeChar (c : Char) : ∀ b ∈ (String.utf8EncodeChar c).head?,
    b.toNat < 128 ∨ 192 ≤ b.toNat := by
  intro b hb
  simp only [String.utf8EncodeChar] at hb
  split at hb
  · cases hb
    rw [UInt8.toNat_ofNat']
    omega
  · right
    split at hb
    · cases hb
      rw [UInt8.toNat_ofNat']
      omega
    · split at hb
      · cases hb
        rw [UInt8.toNat_ofNat']
        omega
      · cases hb
        rw [UInt8.toNat_ofNat']
        omega

theorem head_flatMap_utf8 (l : List Char) : ∀ b ∈ (l.flatMap String.utf8EncodeChar).head?,
    b.toNat < 128 ∨ 192 ≤ b.toNat := by
  intro b hb
  cases l with
  | nil => cases hb
  | cons c l =>
    rw [List.flatMap_cons, List.head?_append_of_ne_nil _ String.utf8EncodeChar_ne_nil] at hb
    exact head_utf8EncodeChar c b hb

/-- In the bytes of a text, what follows an ASCII byte starts a character. -/
theorem head_after_ascii {l : List Char} (h : l.flatMap String.utf8EncodeChar = a ++ [x] ++ b)
    (hx : x.toNat < 128) : ∀ y ∈ b.head?, y.toNat < 128 ∨ 192 ≤ y.toNat := by
  induction l generalizing a with
  | nil => simp at h
  | cons c l ih =>
    rw [List.flatMap_cons] at h
    rcases List.append_eq_append_iff.1 h with ⟨t, ht, hb⟩ | ⟨t, ht, hb⟩
    · rcases List.eq_nil_or_concat t with rfl | ⟨t', z, rfl⟩
      · exact (List.nil_append b ▸ hb) ▸ head_flatMap_utf8 l
      · rw [List.concat_eq_append] at ht hb
        rw [← List.append_assoc] at ht
        obtain ⟨-, hz⟩ := List.append_inj' ht rfl
        cases hz
        exact ih hb
    · -- The ASCII byte is a whole character, so it ends here.
      have hmem : x ∈ String.utf8EncodeChar c := by simp [ht]
      have hc := eq_of_mem_utf8EncodeChar hx hmem
      have hlen : (String.utf8EncodeChar c).length = 1 := by
        have hle : c.toNat ≤ 127 := by omega
        simp [String.utf8EncodeChar, hle]
      have ht' : t = [] := by
        rw [ht] at hlen
        simp only [List.length_append, List.length_singleton] at hlen
        exact List.length_eq_zero_iff.1 (by omega)
      rw [hb, ht', List.nil_append]
      exact head_flatMap_utf8 l

/-! ## Lines and separators -/

/-- `split_inclusive`: the pieces of a text, each but possibly the last ending in `nl`. -/
def splitInclusive {α : Type} [DecidableEq α] (nl : α) : List α → List (List α)
  | [] => []
  | c :: cs =>
    if c = nl then [c] :: splitInclusive nl cs
    else match splitInclusive nl cs with
      | [] => [[c]]
      | l :: ls => (c :: l) :: ls

/-- A line without its terminator, `"\n"` or `"\r\n"`. -/
def stripEol (line : List Char) : List Char :=
  match line.reverse with
  | '\n' :: '\r' :: rev => rev.reverse
  | '\n' :: rev => rev.reverse
  | _ => line

/-- `str::lines`. -/
def lines (text : List Char) : List (List Char) := (splitInclusive '\n' text).map stripEol

/-- `str::split_once`: what stands before and after the first `sep`. -/
def splitOnce (sep : Char) : List Char → Option (List Char × List Char)
  | [] => none
  | c :: cs => if c = sep then some ([], cs) else (splitOnce sep cs).map fun p => (c :: p.1, p.2)

/-- `str::rsplit_once`: what stands before and after the last `sep`. -/
def rsplitOnce (sep : Char) : List Char → Option (List Char × List Char)
  | [] => none
  | c :: cs =>
    match rsplitOnce sep cs with
    | some p => some (c :: p.1, p.2)
    | none => if c = sep then some ([], cs) else none

/-- `str::strip_prefix` with a character, keeping the text when it does not start with it. -/
def stripOne (c : Char) : List Char → List Char
  | [] => []
  | d :: cs => if d = c then cs else d :: cs

/-- `u32::from_str`: an optional `+`, then at least one digit, without overflow. -/
def parseU32 (text : List Char) : Option UInt32 :=
  let digits := stripOne '+' text
  if !digits.isEmpty && digits.all Char.isDigit then
    let value := digits.foldl (fun v c => 10 * v + (c.toNat - 48)) 0
    if value < UInt32.size then some (UInt32.ofNat value) else none
  else none

/-- `u64::from_str`, alike. -/
def parseU64 (text : List Char) : Option UInt64 :=
  let digits := stripOne '+' text
  if !digits.isEmpty && digits.all Char.isDigit then
    let value := digits.foldl (fun v c => 10 * v + (c.toNat - 48)) 0
    if value < UInt64.size then some (UInt64.ofNat value) else none
  else none

section

variable {α : Type} [DecidableEq α]

theorem flatten_splitInclusive (nl : α) (text : List α) : (splitInclusive nl text).flatten = text := by
  induction text with
  | nil => rfl
  | cons c text ih =>
    rw [splitInclusive]
    split
    · rw [List.flatten_cons, ih]
      rfl
    · cases hsplit : splitInclusive nl text with
      | nil =>
        rw [hsplit] at ih
        rw [← ih]
        rfl
      | cons l ls =>
        rw [hsplit, List.flatten_cons] at ih
        simp only [List.flatten_cons, List.cons_append, ih]

theorem splitInclusive_tail {nl : α} {text : List α} (h : splitInclusive nl text = l :: ls) :
    splitInclusive nl ls.flatten = ls := by
  induction text generalizing l with
  | nil => cases h
  | cons c text ih =>
    rw [splitInclusive] at h
    split at h
    · obtain ⟨-, rfl⟩ := List.cons.inj h
      rw [flatten_splitInclusive]
    · cases hsplit : splitInclusive nl text with
      | nil =>
        rw [hsplit] at h
        cases h
        rfl
      | cons l' ls' =>
        rw [hsplit] at h
        cases h
        exact ih hsplit

/-- The last pieces of a text are the pieces of its end. -/
theorem splitInclusive_flatten {nl : α} {text : List α} {front rest : List (List α)}
    (h : splitInclusive nl text = front ++ rest) : splitInclusive nl rest.flatten = rest := by
  induction front generalizing text with
  | nil =>
    rw [List.nil_append] at h
    rw [← h, flatten_splitInclusive]
  | cons l front ih => exact ih (splitInclusive_tail h)

end

theorem splitInclusive_line {nl : Char} (hl : nl ∉ l) (text : List Char) :
    splitInclusive nl (l ++ nl :: text) = (l ++ [nl]) :: splitInclusive nl text := by
  induction l with
  | nil => simp [splitInclusive]
  | cons c cs ih =>
    simp only [List.mem_cons, not_or] at hl
    rw [List.cons_append, splitInclusive, if_neg (Ne.symm hl.1), ih hl.2]
    rfl

theorem splitInclusive_of_not_mem {nl : Char} (hl : nl ∉ l) (hne : l ≠ []) :
    splitInclusive nl l = [l] := by
  induction l with
  | nil => exact absurd rfl hne
  | cons c cs ih =>
    simp only [List.mem_cons, not_or] at hl
    rw [splitInclusive, if_neg (Ne.symm hl.1)]
    cases cs with
    | nil => rfl
    | cons => rw [ih hl.2 (List.cons_ne_nil _ _)]

theorem stripEol_line (hl : '\r' ∉ l) : stripEol (l ++ ['\n']) = l := by
  rw [stripEol, List.reverse_append]
  cases hrev : l.reverse with
  | nil => simp [List.reverse_eq_nil_iff.1 hrev]
  | cons c rev =>
    have hc : c ≠ '\r' := by
      rintro rfl
      exact hl (List.mem_reverse.1 (by simp [hrev]))
    have hcons : l = (c :: rev).reverse := by rw [← hrev, List.reverse_reverse]
    simp [hc, hcons]

/-- A line without line breaks, followed by a newline, is the first of `lines`. -/
theorem lines_line (hn : '\n' ∉ l) (hr : '\r' ∉ l) (text : List Char) :
    lines (l ++ '\n' :: text) = l :: lines text := by
  rw [lines, splitInclusive_line hn, List.map_cons, stripEol_line hr, lines]

theorem splitOnce_append {sep : Char} (hl : sep ∉ l) (text : List Char) :
    splitOnce sep (l ++ sep :: text) = some (l, text) := by
  induction l with
  | nil => simp [splitOnce]
  | cons c cs ih =>
    simp only [List.mem_cons, not_or] at hl
    rw [List.cons_append, splitOnce, if_neg (Ne.symm hl.1), ih hl.2]
    rfl

theorem splitOnce_eq_none {sep : Char} : splitOnce sep l = none ↔ sep ∉ l := by
  induction l with
  | nil => simp [splitOnce]
  | cons c cs ih =>
    rw [splitOnce]
    split
    · next hc => simp [hc]
    · next hc => simp [ih, Ne.symm hc]

theorem splitOnce_eq_some {sep : Char} (h : splitOnce sep l = some (before, after)) :
    l = before ++ sep :: after ∧ sep ∉ before := by
  induction l generalizing before with
  | nil => cases h
  | cons c cs ih =>
    rw [splitOnce] at h
    split at h
    · next hc =>
      cases h
      exact ⟨by rw [hc]; rfl, List.not_mem_nil⟩
    · next hc =>
      obtain ⟨p, hp, heq⟩ := Option.map_eq_some_iff.1 h
      cases heq
      obtain ⟨rfl, hmem⟩ := ih hp
      exact ⟨rfl, by simpa [Ne.symm hc] using hmem⟩

theorem rsplitOnce_of_not_mem {sep : Char} (h : sep ∉ l) : rsplitOnce sep l = none := by
  induction l with
  | nil => rfl
  | cons c cs ih =>
    simp only [List.mem_cons, not_or] at h
    rw [rsplitOnce, ih h.2]
    exact if_neg (Ne.symm h.1)

theorem rsplitOnce_append {sep : Char} (h : sep ∉ after) (before : List Char) :
    rsplitOnce sep (before ++ sep :: after) = some (before, after) := by
  induction before with
  | nil =>
    rw [List.nil_append, rsplitOnce, rsplitOnce_of_not_mem h]
    exact if_pos rfl
  | cons c before ih => rw [List.cons_append, rsplitOnce, ih]

/-- A line break of either kind. -/
def isEol (c : Char) : Bool := c = '\r' || c = '\n'

/-- A text that fits on one physical line. -/
def OneLine (text : List Char) : Prop := ∀ c ∈ text, c ≠ '\n' ∧ c ≠ '\r'

theorem any_isEol_eq_false : text.any isEol = false ↔ OneLine text := by
  simp only [List.any_eq_false, isEol, Bool.or_eq_true, decide_eq_true_eq, not_or, OneLine]
  exact forall₂_congr fun c _ => and_comm

theorem OneLine.newline_not_mem (h : OneLine text) : '\n' ∉ text := fun hmem => (h _ hmem).1 rfl

theorem OneLine.append (hs : OneLine s) (ht : OneLine t) : OneLine (s ++ t) := fun c hc =>
  (List.mem_append.1 hc).elim (hs c) (ht c)

/-! ## Numerals -/

theorem toDigits_inj {m n : Nat} (h : Nat.toDigits 10 m = Nat.toDigits 10 n) : m = n := by
  induction m using Nat.strongRecOn generalizing n with
  | _ m ih =>
    have hdigit : ∀ a < 10, ∀ b < 10, Nat.digitChar a = Nat.digitChar b → a = b := by decide
    have hm := Nat.length_toDigits_pos (b := 10) (n := m / 10)
    have hn := Nat.length_toDigits_pos (b := 10) (n := n / 10)
    rw [Nat.toDigits_eq_if (by decide), Nat.toDigits_eq_if (n := n) (by decide)] at h
    have hlength := congrArg List.length h
    split at h
    next hlt =>
      split at h
      next hlt' => exact hdigit m hlt n hlt' (List.singleton_inj.1 h)
      next hge' =>
        rw [if_pos hlt, if_neg hge', List.length_append, List.length_singleton,
          List.length_singleton] at hlength
        omega
    next hge =>
      split at h
      next hlt' =>
        rw [if_neg hge, if_pos hlt', List.length_append, List.length_singleton,
          List.length_singleton] at hlength
        omega
      next =>
        obtain ⟨htens, hones⟩ := List.append_inj' h rfl
        have hdiv := ih (m / 10) (by omega) htens
        have hmod := hdigit _ (Nat.mod_lt m (by decide)) _ (Nat.mod_lt n (by decide))
          (List.singleton_inj.1 hones)
        omega

/-- The value of a decimal numeral. -/
theorem foldl_toDigits (n : Nat) :
    (Nat.toDigits 10 n).foldl (fun v c => 10 * v + (c.toNat - 48)) 0 = n := by
  induction n using Nat.strongRecOn with
  | _ n ih =>
    have hdigit : ∀ d < 10, (Nat.digitChar d).toNat - 48 = d := by decide
    rw [Nat.toDigits_eq_if (by decide)]
    split
    next hlt =>
      rw [List.foldl_cons, List.foldl_nil, hdigit n hlt]
      omega
    next hge =>
      rw [List.foldl_append, ih (n / 10) (by omega), List.foldl_cons, List.foldl_nil,
        hdigit _ (Nat.mod_lt n (by decide))]
      omega

/-- A number reads back from its decimal numeral. -/
theorem parseU64_toDigits (n : UInt64) : parseU64 (Nat.toDigits 10 n.toNat) = some n := by
  have hdigits : ∀ c ∈ Nat.toDigits 10 n.toNat, c.isDigit = true := fun c hc =>
    Nat.isDigit_of_mem_toDigits (by decide) (by decide) hc
  have hstrip : stripOne '+' (Nat.toDigits 10 n.toNat) = Nat.toDigits 10 n.toNat := by
    cases hcs : Nat.toDigits 10 n.toNat with
    | nil => rfl
    | cons c cs =>
      rw [stripOne, if_neg]
      rintro rfl
      exact absurd (hdigits '+' (hcs ▸ List.mem_cons_self)) (by decide)
  have hempty : (Nat.toDigits 10 n.toNat).isEmpty = false := by simp
  simp only [parseU64, hstrip, hempty, List.all_eq_true.2 hdigits, foldl_toDigits, Bool.not_false,
    Bool.and_self, if_true]
  rw [if_pos n.toNat_lt, UInt64.ofNat_toNat]

end Text
