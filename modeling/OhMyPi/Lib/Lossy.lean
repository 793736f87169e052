import OhMyPi.Lib.Text

/-! `String::from_utf8_lossy`: every maximal ill-formed part of the bytes becomes one replacement
character. Decoding keeps to the two sides of an ASCII byte. -/

namespace Text

/-- The character that the bytes start with, none when they are ill-formed there. -/
def decodeFirst (b : List UInt8) : Option Char := b.toByteArray.utf8DecodeChar? 0

def isContinuation (b : UInt8) : Bool := 0x80 ≤ b && b ≤ 0xBF

/-- Second bytes that a character of three or four bytes may have. -/
def isSecond (first second : UInt8) : Bool :=
  if first = 0xE0 then 0xA0 ≤ second && second ≤ 0xBF
  else if first = 0xED then 0x80 ≤ second && second ≤ 0x9F
  else if 0xE1 ≤ first && first ≤ 0xEF then isContinuation second
  else if first = 0xF0 then 0x90 ≤ second && second ≤ 0xBF
  else if 0xF1 ≤ first && first ≤ 0xF3 then isContinuation second
  else if first = 0xF4 then 0x80 ≤ second && second ≤ 0x8F
  else false

/-- How many bytes one replacement character stands for. -/
def invalidLen : List UInt8 → Nat
  | first :: second :: rest =>
    if isSecond first second then
      match rest with
      | third :: _ => if 0xF0 ≤ first && isContinuation third then 3 else 2
      | [] => 2
    else 1
  | _ => 1

def replacement : Char := Char.ofNat 0xFFFD

theorem invalidLen_pos (b : List UInt8) : 0 < invalidLen b := by
  fun_cases invalidLen b <;> decide

/-- `String::from_utf8_lossy`. -/
def lossy : List UInt8 → List Char
  | [] => []
  | first :: rest =>
    match decodeFirst (first :: rest) with
    | some c => c :: lossy ((first :: rest).drop c.utf8Size)
    | none => replacement :: lossy ((first :: rest).drop (invalidLen (first :: rest)))
termination_by b => b.length
decreasing_by
  · have := c.utf8Size_pos
    simp only [List.length_drop, List.length_cons]
    omega
  · have := invalidLen_pos (first :: rest)
    simp only [List.length_drop, List.length_cons]
    omega

@[simp] theorem decodeFirst_encode (c : Char) (b : List UInt8) :
    decodeFirst (String.utf8EncodeChar c ++ b) = some c := by
  rw [decodeFirst, List.toByteArray_append]
  exact ByteArray.utf8DecodeChar?_utf8EncodeChar_append

theorem decodeFirst_eq_some {b : List UInt8} {c : Char} (h : decodeFirst b = some c) :
    ∃ rest, b = String.utf8EncodeChar c ++ rest := by
  obtain ⟨l, hl⟩ := ByteArray.exists_of_utf8DecodeChar?_eq_some h
  refine ⟨l.data.toList, ?_⟩
  have hdata := congrArg (fun a => a.data.toList) hl
  simpa using hdata

@[simp] theorem lossy_nil : lossy [] = [] := by rw [lossy]

theorem lossy_of_none {b : List UInt8} (hb : b ≠ []) (h : decodeFirst b = none) :
    lossy b = replacement :: lossy (b.drop (invalidLen b)) := by
  cases b with
  | nil => exact absurd rfl hb
  | cons first rest => rw [lossy, h]

theorem lossy_of_some {b : List UInt8} {c : Char} (hb : b ≠ []) (h : decodeFirst b = some c) :
    lossy b = c :: lossy (b.drop c.utf8Size) := by
  cases b with
  | nil => exact absurd rfl hb
  | cons first rest => rw [lossy, h]

@[simp] theorem lossy_encode (c : Char) (b : List UInt8) :
    lossy (String.utf8EncodeChar c ++ b) = c :: lossy b := by
  have hne : String.utf8EncodeChar c ++ b ≠ [] := fun h =>
    absurd (List.append_eq_nil_iff.1 h).1 String.utf8EncodeChar_ne_nil
  rw [lossy_of_some hne (decodeFirst_encode c b), ← String.length_utf8EncodeChar, List.drop_left]

/-- Well-formed bytes are decoded as they are. -/
@[simp] theorem lossy_flatMap (l : List Char) : lossy (l.flatMap String.utf8EncodeChar) = l := by
  induction l with
  | nil => exact lossy_nil
  | cons c cs ih => rw [List.flatMap_cons, lossy_encode, ih]

@[simp] theorem lossy_bytes (s : String) : lossy (bytes s) = s.toList := lossy_flatMap s.toList

/-- Decoding proceeds character by character, or over an ill-formed part. -/
theorem lossy_induction {P : List UInt8 → Prop} (nil : P [])
    (char : ∀ c rest, P rest → P (String.utf8EncodeChar c ++ rest))
    (invalid : ∀ b, b ≠ [] → decodeFirst b = none → P (b.drop (invalidLen b)) → P b)
    (b : List UInt8) : P b := by
  induction b using WellFounded.induction (measure List.length).wf with
  | _ b ih =>
    cases b with
    | nil => exact nil
    | cons first tail =>
      cases h : decodeFirst (first :: tail) with
      | some c =>
        obtain ⟨rest, hrest⟩ := decodeFirst_eq_some h
        rw [hrest]
        apply char
        apply ih
        change rest.length < (first :: tail).length
        rw [hrest, List.length_append]
        exact Nat.lt_add_of_pos_left (List.length_pos_iff.2 String.utf8EncodeChar_ne_nil)
      | none =>
        apply invalid _ (List.cons_ne_nil _ _) h
        apply ih
        change (List.drop _ _).length < (first :: tail).length
        have := invalidLen_pos (first :: tail)
        rw [List.length_drop]
        exact Nat.sub_lt (Nat.succ_pos _) this

theorem lossy_ne_nil {b : List UInt8} (hb : b ≠ []) : lossy b ≠ [] := by
  induction b using lossy_induction with
  | nil => exact absurd rfl hb
  | char c rest => rw [lossy_encode]; exact List.cons_ne_nil _ _
  | invalid b hb hnone => rw [lossy_of_none hb hnone]; exact List.cons_ne_nil _ _

/-- A decoded character is the replacement or stands in the bytes. -/
theorem lossy_eq_cons {b : List UInt8} {c : Char} {cs : List Char} (h : lossy b = c :: cs)
    (hc : c ≠ replacement) : ∃ rest, b = String.utf8EncodeChar c ++ rest ∧ cs = lossy rest := by
  induction b using lossy_induction with
  | nil =>
    rw [lossy_nil] at h
    cases h
  | char d rest =>
    rw [lossy_encode] at h
    cases h
    exact ⟨rest, rfl, rfl⟩
  | invalid b hb hnone =>
    rw [lossy_of_none hb hnone] at h
    cases h
    exact absurd rfl hc

/-! ## ASCII -/

section

variable {c : Char} (hc : c.toNat < 128)

include hc

theorem utf8EncodeChar_ascii : String.utf8EncodeChar c = [UInt8.ofNat c.toNat] := by
  have hle : c.toNat ≤ 127 := Nat.le_of_lt_succ hc
  simp [String.utf8EncodeChar, hle]

theorem ne_replacement : c ≠ replacement := by
  rintro rfl
  exact absurd hc (by decide)

theorem mem_of_mem_lossy {b : List UInt8} (h : c ∈ lossy b) : UInt8.ofNat c.toNat ∈ b := by
  induction b using lossy_induction with
  | nil =>
    rw [lossy_nil] at h
    cases h
  | char d rest ih =>
    rw [lossy_encode] at h
    rcases List.mem_cons.1 h with rfl | h
    · rw [utf8EncodeChar_ascii hc]
      exact List.mem_cons_self
    · exact List.mem_append_right _ (ih h)
  | invalid b hb hnone ih =>
    rw [lossy_of_none hb hnone] at h
    rcases List.mem_cons.1 h with h | h
    · exact absurd h (ne_replacement hc)
    · exact List.mem_of_mem_drop (ih h)

theorem not_isContinuation : isContinuation (UInt8.ofNat c.toNat) = false := by
  have hlt : UInt8.ofNat c.toNat < 0x80 := by
    rw [UInt8.lt_iff_toNat_lt, UInt8.toNat_ofNat']
    exact Nat.lt_of_le_of_lt (Nat.mod_le _ _) hc
  rw [isContinuation, decide_eq_false (UInt8.not_le.2 hlt)]
  rfl

theorem not_isSecond (first : UInt8) : isSecond first (UInt8.ofNat c.toNat) = false := by
  have hlt : (UInt8.ofNat c.toNat).toNat < 128 := by
    rw [UInt8.toNat_ofNat']
    exact Nat.lt_of_le_of_lt (Nat.mod_le _ _) hc
  have hcont := not_isContinuation hc
  have hle : ∀ low : UInt8, 0x80 ≤ low → decide (low ≤ UInt8.ofNat c.toNat) = false := by
    intro low hlow
    rw [UInt8.le_iff_toNat_le] at hlow
    rw [decide_eq_false_iff_not, UInt8.le_iff_toNat_le]
    exact Nat.not_le.2 (Nat.lt_of_lt_of_le hlt hlow)
  rw [isSecond, hcont, hle 0xA0 (by decide), hle 0x80 (by decide), hle 0x90 (by decide)]
  simp

theorem invalidLen_append {a : List UInt8} (ha : a ≠ []) (b : List UInt8) :
    invalidLen (a ++ UInt8.ofNat c.toNat :: b) = invalidLen a ∧ invalidLen a ≤ a.length := by
  have hcont := not_isContinuation hc
  match a with
  | [] => exact absurd rfl ha
  | [first] => simp [invalidLen, not_isSecond hc first]
  | [first, second] =>
    simp only [List.cons_append, List.nil_append, invalidLen, hcont, Bool.and_false]
    split
    · simp
    · simp
  | first :: second :: third :: rest =>
    simp only [List.cons_append, invalidLen, true_and, List.length_cons]
    split
    · split
      · omega
      · omega
    · omega

/-- An ASCII byte completes no character. -/
theorem decodeFirst_append {a : List UInt8} (ha : a ≠ []) (hnone : decodeFirst a = none)
    (b : List UInt8) : decodeFirst (a ++ UInt8.ofNat c.toNat :: b) = none := by
  have hchar : ∀ d rest, a ≠ String.utf8EncodeChar d ++ rest := by
    rintro d rest rfl
    rw [decodeFirst_encode] at hnone
    cases hnone
  cases h : decodeFirst (a ++ UInt8.ofNat c.toNat :: b) with
  | none => rfl
  | some d =>
    obtain ⟨rest, hrest⟩ := decodeFirst_eq_some h
    rcases List.append_eq_append_iff.1 hrest with ⟨m, hd, hm⟩ | ⟨m, ha', -⟩
    · cases m with
      | nil => exact absurd (by rw [hd, List.append_nil, List.append_nil]) (hchar d [])
      | cons x m =>
        -- the byte would belong to a character of more than one byte
        obtain rfl : UInt8.ofNat c.toNat = x := (List.cons.inj hm).1
        have hmem : UInt8.ofNat c.toNat ∈ String.utf8EncodeChar d := by simp [hd]
        have hlt : (UInt8.ofNat c.toNat).toNat = c.toNat := by
          rw [UInt8.toNat_ofNat']
          exact Nat.mod_eq_of_lt (Nat.lt_of_lt_of_le hc (by decide))
        have hdc := eq_of_mem_utf8EncodeChar (by rwa [hlt]) hmem
        rw [hlt] at hdc
        obtain rfl : d = c := Char.toNat_inj.1 hdc
        have hlength := congrArg List.length hd
        rw [utf8EncodeChar_ascii hc] at hlength
        have := List.length_pos_iff.2 ha
        simp only [List.length_cons, List.length_nil, List.length_append] at hlength
        omega
    · exact absurd ha' (hchar d m)

/-- Nothing is decoded across an ASCII byte. -/
theorem lossy_ascii (a b : List UInt8) :
    lossy (a ++ UInt8.ofNat c.toNat :: b) = lossy a ++ c :: lossy b := by
  have hencode := utf8EncodeChar_ascii hc
  induction a using lossy_induction with
  | nil =>
    have hnil := lossy_encode c b
    rw [hencode] at hnil
    rw [lossy_nil]
    exact hnil
  | char d rest ih => rw [List.append_assoc, lossy_encode, lossy_encode, ih, List.cons_append]
  | invalid a ha hnone ih =>
    obtain ⟨hlen, hle⟩ := invalidLen_append hc ha b
    rw [lossy_of_none ha hnone, lossy_of_none (by simp) (decodeFirst_append hc ha hnone b), hlen,
      List.drop_append_of_le_length hle, ih, List.cons_append]

end

end Text
