import OhMyPi.Docserver.Position

/-! Where an offset stands in its text: the number of line endings in front of it and what its line
holds up to it. Both directions of the translation are this relation. -/

namespace OhMyPi.Docserver.Lsp

open Text

/-- The line and the part of it that `text` ends with, from a place at which it goes on. The CR of a
CRLF ends nothing: its LF does. -/
def placeFrom : Nat × List Char → List Char → Nat × List Char
  | spot, [] => spot
  | spot, c :: rest =>
    if c = '\r' ∧ rest.head? = some '\n' then placeFrom spot rest
    else if c = '\r' ∨ c = '\n' then placeFrom (spot.1 + 1, []) rest
    else placeFrom (spot.1, spot.2 ++ [c]) rest

def place (before : List Char) : Nat × List Char := placeFrom (0, []) before

/-- A cut between the CR and the LF of one line ending. -/
def Splits (before after : List Char) : Prop :=
  before.getLast? = some '\r' ∧ after.head? = some '\n'

instance (before after : List Char) : Decidable (Splits before after) :=
  inferInstanceAs (Decidable (_ ∧ _))

def isDelimiter (c : Char) : Bool := c = '\r' || c = '\n'

theorem not_splits_nil_left (after : List Char) : ¬ Splits [] after := by
  rintro ⟨h, -⟩
  cases h

theorem not_splits_tail {c : Char} {a b : List Char} (h : ¬ Splits (c :: a) b) : ¬ Splits a b := by
  rintro ⟨ha, hb⟩
  cases a with
  | nil => cases ha
  | cons d a => exact h ⟨by rw [List.getLast?_cons_cons, ha], hb⟩

theorem not_splits_cons {c : Char} {a b : List Char} (h : ¬ Splits a b)
    (hfirst : a = [] → ¬ (c = '\r' ∧ b.head? = some '\n')) : ¬ Splits (c :: a) b := by
  rintro ⟨ha, hb⟩
  cases a with
  | nil => exact hfirst rfl ⟨Option.some.inj ha, hb⟩
  | cons d a => exact h ⟨by rw [← ha, List.getLast?_cons_cons], hb⟩

theorem not_splits_of_plain (a : List Char) {p : List Char} (hp : ∀ c ∈ p, isDelimiter c = false) :
    ¬ Splits a p := by
  rintro ⟨-, hhead⟩
  cases hp _ (List.mem_of_mem_head? hhead)

/-- Characters that end no line can be moved over a cut. -/
theorem splits_append_iff {a p b : List Char} (hp : ∀ c ∈ p, isDelimiter c = false) :
    Splits (a ++ p) b ↔ Splits a (p ++ b) := by
  cases p with
  | nil => rw [List.append_nil, List.nil_append]
  | cons c p =>
    constructor
    · rintro ⟨hlast, -⟩
      rw [List.getLast?_append_of_ne_nil _ (List.cons_ne_nil c p)] at hlast
      cases hp _ (List.mem_of_mem_getLast? hlast)
    · rintro ⟨-, hhead⟩
      cases hp _ (List.mem_of_mem_head? hhead)

/-- Reading on after a cut that splits no line ending. -/
theorem placeFrom_append {a b : List Char} (h : ¬ Splits a b) (spot : Nat × List Char) :
    placeFrom spot (a ++ b) = placeFrom (placeFrom spot a) b := by
  induction a generalizing spot with
  | nil => rfl
  | cons c a ih =>
    -- The character behind `c` is the same, except at the cut.
    have hnext : (c = '\r' ∧ (a ++ b).head? = some '\n') ↔ (c = '\r' ∧ a.head? = some '\n') := by
      cases a with
      | nil =>
        refine ⟨?_, fun h => by cases h.2⟩
        rintro ⟨rfl, hb⟩
        exact absurd ⟨rfl, hb⟩ h
      | cons d a => rfl
    rw [List.cons_append, placeFrom, placeFrom]
    simp only [hnext]
    split
    · exact ih (not_splits_tail h) _
    · split
      · exact ih (not_splits_tail h) _
      · exact ih (not_splits_tail h) _

theorem placeFrom_of_no_delimiter {t : List Char} (h : ∀ c ∈ t, isDelimiter c = false)
    (spot : Nat × List Char) : placeFrom spot t = (spot.1, spot.2 ++ t) := by
  induction t generalizing spot with
  | nil => simp [placeFrom]
  | cons c t ih =>
    have hc := h c List.mem_cons_self
    simp only [isDelimiter, Bool.or_eq_false_iff, decide_eq_false_iff_not] at hc
    rw [placeFrom, if_neg fun hcr => hc.1 hcr.1, if_neg (not_or.2 hc),
      ih fun d hd => h d (List.mem_cons_of_mem _ hd)]
    simp

/-- Reading a text ends in a later line, or further on in the same one. -/
theorem placeFrom_le (spot : Nat × List Char) (t : List Char) :
    spot.1 < (placeFrom spot t).1 ∨
      (placeFrom spot t).1 = spot.1 ∧ spot.2 <+: (placeFrom spot t).2 := by
  induction t generalizing spot with
  | nil => exact .inr ⟨rfl, List.prefix_refl _⟩
  | cons c t ih =>
    rw [placeFrom]
    split
    · exact ih _
    · split
      · rcases ih (spot.1 + 1, []) with hlt | ⟨heq, -⟩ <;> simp only at * <;> omega
      · rcases ih (spot.1, spot.2 ++ [c]) with hlt | ⟨heq, hpre⟩
        · exact .inl hlt
        · exact .inr ⟨heq, (List.prefix_append _ _).trans hpre⟩

/-- Every text but the empty one moves the place. -/
theorem placeFrom_lt (spot : Nat × List Char) {t : List Char} (ht : t ≠ []) :
    spot.1 < (placeFrom spot t).1 ∨
      (placeFrom spot t).1 = spot.1 ∧ ∃ more, more ≠ [] ∧ (placeFrom spot t).2 = spot.2 ++ more := by
  induction t generalizing spot with
  | nil => exact absurd rfl ht
  | cons c t ih =>
    rw [placeFrom]
    split
    · next hcr =>
      refine ih _ ?_
      rintro rfl
      cases hcr.2
    · split
      · rcases placeFrom_le (spot.1 + 1, []) t with hlt | ⟨heq, -⟩ <;> simp only at * <;> omega
      · rcases placeFrom_le (spot.1, spot.2 ++ [c]) t with hlt | ⟨heq, more, hmore⟩
        · exact .inl hlt
        · refine .inr ⟨heq, c :: more, List.cons_ne_nil _ _, ?_⟩
          rw [← hmore, List.append_assoc, List.singleton_append]

/-- The line up to a place starts behind a line ending, or with the text. -/
theorem placeFrom_line (spot : Nat × List Char) (t : List Char) :
    (placeFrom spot t = (spot.1, spot.2 ++ t) ∧ ∀ c ∈ t, isDelimiter c = false) ∨
      ∃ front, t = front ++ (placeFrom spot t).2 ∧
        placeFrom spot front = ((placeFrom spot t).1, []) ∧
        ∀ c ∈ (placeFrom spot t).2, isDelimiter c = false := by
  induction t generalizing spot with
  | nil => exact .inl ⟨by simp [placeFrom], fun c hc => absurd hc List.not_mem_nil⟩
  | cons c t ih =>
    rw [placeFrom]
    split
    · next hcr =>
      obtain ⟨rfl, hhead⟩ := hcr
      have hlf : '\n' ∈ t := List.mem_of_mem_head? hhead
      rcases ih spot with ⟨-, hplain⟩ | ⟨front, ht, hfront, hplain⟩
      · cases hplain _ hlf
      · have hfh : front.head? = some '\n' := by
          cases front with
          | nil =>
            rw [List.nil_append] at ht
            cases hplain _ (ht ▸ hlf)
          | cons d front =>
            rw [ht] at hhead
            exact hhead
        refine .inr ⟨'\r' :: front, by rw [List.cons_append, ← ht], ?_, hplain⟩
        rw [placeFrom, if_pos ⟨rfl, hfh⟩, hfront]
    · next hcr =>
      have hstep : ∀ front back : List Char, t = front ++ back →
          ¬ (c = '\r' ∧ front.head? = some '\n') := by
        rintro front back rfl ⟨hc, hhead⟩
        refine hcr ⟨hc, ?_⟩
        cases front with
        | nil => cases hhead
        | cons d front => exact hhead
      split
      · next hdelim =>
        rcases ih (spot.1 + 1, []) with ⟨hplace, hplain⟩ | ⟨front, ht, hfront, hplain⟩
        · rw [hplace]
          refine .inr ⟨[c], rfl, ?_, hplain⟩
          rw [placeFrom, if_neg (hstep [] t rfl), if_pos hdelim]
          rfl
        · refine .inr ⟨c :: front, by rw [List.cons_append, ← ht], ?_, hplain⟩
          rw [placeFrom, if_neg (hstep front _ ht), if_pos hdelim, hfront]
      · next hdelim =>
        rcases ih (spot.1, spot.2 ++ [c]) with ⟨hplace, hplain⟩ | ⟨front, ht, hfront, hplain⟩
        · refine .inl ⟨by rw [hplace]; simp, ?_⟩
          intro d hd
          rcases List.mem_cons.1 hd with rfl | hd
          · simpa [isDelimiter] using hdelim
          · exact hplain d hd
        · refine .inr ⟨c :: front, by rw [List.cons_append, ← ht], ?_, hplain⟩
          rw [placeFrom, if_neg (hstep front _ ht), if_neg hdelim, hfront]

theorem place_line (before : List Char) : ∃ front, before = front ++ (place before).2 ∧
    place front = ((place before).1, []) ∧ ∀ c ∈ (place before).2, isDelimiter c = false := by
  rcases placeFrom_line (0, []) before with ⟨hplace, hplain⟩ | h
  · refine ⟨[], ?_, ?_, ?_⟩ <;> simp only [place, hplace, List.nil_append]
    · rfl
    · exact hplain
  · exact h

/-! ## The bytes of a line ending -/

theorem utf8_cr (t : List Char) : utf8 ('\r' :: t) = cr :: utf8 t := rfl

theorem utf8_lf (t : List Char) : utf8 ('\n' :: t) = lf :: utf8 t := rfl

/-- No byte of another character is CR or LF. -/
theorem ne_of_mem_utf8EncodeChar {c : Char} (hc : isDelimiter c = false) {b : UInt8}
    (hb : b ∈ String.utf8EncodeChar c) : b ≠ cr ∧ b ≠ lf := by
  simp only [isDelimiter, Bool.or_eq_false_iff, decide_eq_false_iff_not] at hc
  constructor
  · rintro rfl
    exact hc.1 (Char.toNat_inj.1 (eq_of_mem_utf8EncodeChar (by decide) hb))
  · rintro rfl
    exact hc.2 (Char.toNat_inj.1 (eq_of_mem_utf8EncodeChar (by decide) hb))

theorem head?_utf8_eq_lf {t : List Char} : (utf8 t).head? = some lf ↔ t.head? = some '\n' := by
  cases t with
  | nil => exact ⟨fun h => (by cases h), fun h => (by cases h)⟩
  | cons c t =>
    rw [utf8_cons, List.head?_append_of_ne_nil _ String.utf8EncodeChar_ne_nil, List.head?_cons,
      Option.some.injEq]
    constructor
    · intro h
      exact Char.toNat_inj.1 (eq_of_mem_utf8EncodeChar (by decide) (List.mem_of_mem_head? h))
    · rintro rfl
      rfl

theorem checkedSucc_eq_some {n m : UInt32} (h : checkedSucc n = some m) :
    m.toNat = n.toNat + 1 := by
  rw [checkedSucc] at h
  split at h
  · next hlt =>
    cases h
    rw [UInt32.toNat_add]
    exact Nat.mod_eq_of_lt hlt
  · cases h

theorem checkedSucc_of_lt {n : UInt32} (h : n.toNat + 1 < 2 ^ 32) :
    checkedSucc n = some (n + 1) := if_pos h

theorem toNat_succ {n : UInt32} (h : n.toNat + 1 < 2 ^ 32) : (n + 1).toNat = n.toNat + 1 :=
  checkedSucc_eq_some (checkedSucc_of_lt h)

/-! ## Finding a line -/

theorem length_takeWhile_utf8 (t : List Char) :
    ((utf8 t).takeWhile fun b => b != cr && b != lf).length =
      byteLen (t.takeWhile fun c => !isDelimiter c) := by
  induction t with
  | nil => rfl
  | cons c t ih =>
    cases hc : isDelimiter c with
    | false =>
      have hpass : ∀ b ∈ String.utf8EncodeChar c, (b != cr && b != lf) = true := by
        intro b hb
        simpa using ne_of_mem_utf8EncodeChar hc hb
      rw [utf8_cons, List.takeWhile_append_of_pos hpass, List.length_append,
        String.length_utf8EncodeChar, List.takeWhile_cons_of_pos (by rw [hc]; rfl), byteLen_cons, ih]
    | true =>
      rw [List.takeWhile_cons_of_neg (by rw [hc]; decide)]
      simp only [isDelimiter, Bool.or_eq_true, decide_eq_true_eq] at hc
      rcases hc with rfl | rfl <;> rfl

theorem lineBoundsFrom_wanted {wanted : UInt32} (t : List Char) (start cursor : Nat) :
    lineBoundsFrom wanted 0 (utf8 t) wanted start cursor =
      some (start, cursor + byteLen (t.takeWhile fun c => !isDelimiter c)) := by
  rw [← length_takeWhile_utf8]
  cases utf8 t with
  | nil => simp [lineBoundsFrom]
  | cons b rest => rw [lineBoundsFrom, if_pos rfl]

theorem lineBoundsFrom_skip {wanted line : UInt32} (hline : line ≠ wanted) {bs : List UInt8}
    (hbs : ∀ b ∈ bs, b ≠ cr ∧ b ≠ lf) (rest : List UInt8) (start cursor : Nat) :
    lineBoundsFrom wanted 0 (bs ++ rest) line start cursor =
      lineBoundsFrom wanted 0 rest line start (cursor + bs.length) := by
  induction bs generalizing cursor with
  | nil => rfl
  | cons b bs ih =>
    obtain ⟨hcr, hlf⟩ := hbs b List.mem_cons_self
    rw [List.cons_append, lineBoundsFrom, if_neg hline, if_neg hcr, if_neg hlf,
      ih fun b hb => hbs b (List.mem_cons_of_mem _ hb), List.length_cons]
    congr 1
    omega

theorem lineBoundsFrom_character {wanted line : UInt32} (hline : line ≠ wanted) {c : Char}
    (hc : isDelimiter c = false) (t : List Char) (start cursor : Nat) :
    lineBoundsFrom wanted 0 (utf8 (c :: t)) line start cursor =
      lineBoundsFrom wanted 0 (utf8 t) line start (cursor + c.utf8Size) := by
  rw [utf8_cons, lineBoundsFrom_skip hline fun b hb => ne_of_mem_utf8EncodeChar hc hb,
    String.length_utf8EncodeChar]

/-- The CR of a CRLF can be passed alone. -/
theorem lineBoundsFrom_crlf {wanted line : UInt32} (hline : line ≠ wanted) {t : List Char}
    (ht : t.head? = some '\n') (start cursor : Nat) :
    lineBoundsFrom wanted 0 (utf8 ('\r' :: t)) line start cursor =
      lineBoundsFrom wanted 0 (utf8 t) line start (cursor + 1) := by
  obtain ⟨t, rfl⟩ : ∃ t', t = '\n' :: t' := by
    cases t with
    | nil => cases ht
    | cons d t => exact ⟨t, by cases ht; rfl⟩
  rw [utf8_cr, utf8_lf, lineBoundsFrom, if_neg hline, if_pos rfl, if_pos List.head?_cons,
    lineBoundsFrom, if_neg hline, if_neg (by decide), if_pos rfl]
  rfl

theorem lineBoundsFrom_delimiter {wanted line : UInt32} (hline : line ≠ wanted) {c : Char}
    {t : List Char} (hcrlf : ¬ (c = '\r' ∧ t.head? = some '\n')) (hc : c = '\r' ∨ c = '\n')
    (start cursor : Nat) :
    lineBoundsFrom wanted 0 (utf8 (c :: t)) line start cursor =
      (checkedSucc line).bind fun line =>
        lineBoundsFrom wanted 0 (utf8 t) line (cursor + 1) (cursor + 1) := by
  rcases hc with rfl | rfl
  · rw [utf8_cr, lineBoundsFrom, if_neg hline, if_pos rfl,
      if_neg fun h => hcrlf ⟨rfl, head?_utf8_eq_lf.1 h⟩]
  · rw [utf8_lf, lineBoundsFrom, if_neg hline, if_neg (by decide), if_pos rfl]

/-- The line at which a text goes on is found. -/
theorem lineBoundsFrom_of_place {wanted : UInt32} (line : UInt32) {front rest pre : List Char}
    (start cursor : Nat) (h : ¬ Splits front rest)
    (hplace : placeFrom (line.toNat, pre) front = (wanted.toNat, []))
    (hstart : line = wanted → start = cursor) :
    lineBoundsFrom wanted 0 (utf8 (front ++ rest)) line start cursor =
      some (cursor + byteLen front,
        cursor + byteLen front + byteLen (rest.takeWhile fun c => !isDelimiter c)) := by
  induction front generalizing line start cursor pre with
  | nil =>
    have hline : line = wanted := UInt32.toNat_inj.1 (congrArg Prod.fst hplace)
    subst hline
    rw [List.nil_append, lineBoundsFrom_wanted, hstart rfl]
    rfl
  | cons c front ih =>
    have hne : line ≠ wanted := by
      rintro rfl
      rcases placeFrom_lt (line.toNat, pre) (List.cons_ne_nil c front) with
        hlt | ⟨-, more, hmore, hpre⟩
      · rw [hplace] at hlt
        exact Nat.lt_irrefl _ hlt
      · rw [hplace] at hpre
        exact hmore (List.append_eq_nil_iff.1 hpre.symm).2
    have htail := not_splits_tail h
    rw [List.cons_append]
    rw [placeFrom] at hplace
    split at hplace
    · next hcr =>
      obtain ⟨rfl, hhead⟩ := hcr
      have hhead' : (front ++ rest).head? = some '\n' := by
        rw [List.head?_append, hhead]
        rfl
      rw [lineBoundsFrom_crlf hne hhead', ih _ _ _ htail hplace fun heq => absurd heq hne,
        byteLen_cons, show Char.utf8Size '\r' = 1 by decide]
      simp only [Nat.add_assoc]
    · next hcr =>
      split at hplace
      · next hdelim =>
        have hcrlf : ¬ (c = '\r' ∧ (front ++ rest).head? = some '\n') := by
          rintro ⟨rfl, hhead⟩
          cases front with
          | nil => exact h ⟨rfl, hhead⟩
          | cons d front => exact hcr ⟨rfl, hhead⟩
        have hlt : line.toNat + 1 < 2 ^ 32 := by
          have hw : wanted.toNat < 2 ^ 32 := wanted.toNat_lt
          rcases placeFrom_le (line.toNat + 1, []) front with hle | ⟨hle, -⟩ <;>
            rw [hplace] at hle <;> simp only at hle <;> omega
        have hsize : c.utf8Size = 1 := by rcases hdelim with rfl | rfl <;> decide
        rw [← toNat_succ hlt] at hplace
        rw [lineBoundsFrom_delimiter hne hcrlf hdelim, checkedSucc_of_lt hlt, Option.bind_some,
          ih _ _ _ htail hplace fun _ => rfl, byteLen_cons, hsize]
        simp only [Nat.add_assoc]
      · next hdelim =>
        have hc : isDelimiter c = false := by simpa [isDelimiter] using hdelim
        rw [lineBoundsFrom_character hne hc, ih _ _ _ htail hplace fun heq => absurd heq hne,
          byteLen_cons]
        simp only [Nat.add_assoc]

/-- A line that is found starts where the text goes on at it. -/
theorem place_of_lineBoundsFrom {wanted line : UInt32} {t : List Char} (pre : List Char)
    {start cursor s e : Nat} (h : lineBoundsFrom wanted 0 (utf8 t) line start cursor = some (s, e))
    (hstart : line = wanted → start = cursor ∧ pre = []) :
    ∃ front rest, t = front ++ rest ∧ ¬ Splits front rest ∧
      placeFrom (line.toNat, pre) front = (wanted.toNat, []) ∧ s = cursor + byteLen front ∧
      e = s + byteLen (rest.takeWhile fun c => !isDelimiter c) := by
  induction t generalizing line start cursor pre with
  | nil =>
    by_cases hline : line = wanted
    · subst hline
      obtain ⟨rfl, rfl⟩ := hstart rfl
      rw [lineBoundsFrom_wanted] at h
      cases h
      exact ⟨[], [], rfl, not_splits_nil_left _, rfl, rfl, rfl⟩
    · rw [utf8_nil, lineBoundsFrom, if_neg hline] at h
      cases h
  | cons c t ih =>
    by_cases hline : line = wanted
    · subst hline
      obtain ⟨rfl, rfl⟩ := hstart rfl
      rw [lineBoundsFrom_wanted] at h
      cases h
      exact ⟨[], c :: t, rfl, not_splits_nil_left _, rfl, rfl, rfl⟩
    · by_cases hcrlf : c = '\r' ∧ t.head? = some '\n'
      · obtain ⟨rfl, hhead⟩ := hcrlf
        rw [lineBoundsFrom_crlf hline hhead] at h
        obtain ⟨front, rest, rfl, hsplit, hplace, hs, he⟩ :=
          ih pre h fun heq => absurd heq hline
        have hfront : front ≠ [] := by
          rintro rfl
          exact hline (UInt32.toNat_inj.1 (congrArg Prod.fst hplace))
        have hfh : front.head? = some '\n' := by
          cases front with
          | nil => exact absurd rfl hfront
          | cons d front => exact hhead
        refine ⟨'\r' :: front, rest, rfl, not_splits_cons hsplit fun hnil => absurd hnil hfront, ?_,
          ?_, he⟩
        · rw [placeFrom, if_pos ⟨rfl, hfh⟩, hplace]
        · rw [hs, byteLen_cons, show Char.utf8Size '\r' = 1 by decide, Nat.add_assoc]
      · have hfirst : ∀ front rest : List Char, t = front ++ rest →
            ¬ (c = '\r' ∧ front.head? = some '\n') := by
          rintro front rest rfl ⟨hc, hhead⟩
          refine hcrlf ⟨hc, ?_⟩
          rw [List.head?_append, hhead]
          rfl
        by_cases hdelim : c = '\r' ∨ c = '\n'
        · rw [lineBoundsFrom_delimiter hline hcrlf hdelim, Option.bind_eq_some_iff] at h
          obtain ⟨next, hnext, h⟩ := h
          obtain ⟨front, rest, rfl, hsplit, hplace, hs, he⟩ := ih [] h fun _ => ⟨rfl, rfl⟩
          rw [checkedSucc_eq_some hnext] at hplace
          refine ⟨c :: front, rest, rfl, not_splits_cons hsplit ?_, ?_, ?_, he⟩
          · rintro rfl
            exact hcrlf
          · rw [placeFrom, if_neg (hfirst front rest rfl), if_pos hdelim, hplace]
          · have hsize : c.utf8Size = 1 := by rcases hdelim with rfl | rfl <;> decide
            rw [hs, byteLen_cons, hsize, Nat.add_assoc]
        · have hc : isDelimiter c = false := by simpa [isDelimiter] using hdelim
          rw [lineBoundsFrom_character hline hc] at h
          obtain ⟨front, rest, rfl, hsplit, hplace, hs, he⟩ :=
            ih (pre ++ [c]) h fun heq => absurd heq hline
          refine ⟨c :: front, rest, rfl, not_splits_cons hsplit ?_, ?_, ?_, he⟩
          · rintro rfl
            exact hcrlf
          · rw [placeFrom, if_neg (hfirst front rest rfl), if_neg hdelim, hplace]
          · rw [hs, byteLen_cons, Nat.add_assoc]

/-! ## From a position to its offset -/

theorem characterWidth_pos (encoding : PositionEncoding) (c : Char) :
    0 < characterWidth encoding c := by
  cases encoding with
  | utf8 => exact c.utf8Size_pos
  | utf16 =>
    rw [characterWidth]
    split <;> decide
  | utf32 => exact Nat.one_pos

@[simp] theorem units_nil (encoding : PositionEncoding) : units encoding [] = 0 := rfl

@[simp] theorem units_cons (encoding : PositionEncoding) (c : Char) (text : List Char) :
    units encoding (c :: text) = characterWidth encoding c + units encoding text := rfl

@[simp] theorem units_append (encoding : PositionEncoding) (s t : List Char) :
    units encoding (s ++ t) = units encoding s + units encoding t := by
  simp [units]

theorem units_pos (encoding : PositionEncoding) {text : List Char} (h : text ≠ []) :
    0 < units encoding text := by
  cases text with
  | nil => exact absurd rfl h
  | cons c text =>
    have := characterWidth_pos encoding c
    rw [units_cons]
    omega

theorem characterOffset_eq_ok {encoding : PositionEncoding} {position : Position}
    {line : List Char} {relative counted offset : Nat} :
    characterOffset encoding position line relative counted = .ok offset ↔
      ∃ p q, line = p ++ q ∧ counted + units encoding p = position.character.toNat ∧
        offset = relative + byteLen p := by
  induction line generalizing relative counted offset with
  | nil =>
    rw [characterOffset]
    constructor
    · intro h
      split at h
      · next heq =>
        cases h
        exact ⟨[], [], rfl, heq, rfl⟩
      · cases h
    · rintro ⟨p, q, hnil, hcount, rfl⟩
      obtain ⟨rfl, rfl⟩ := List.append_eq_nil_iff.1 hnil.symm
      rw [if_pos (by simpa using hcount)]
      rfl
  | cons c line ih =>
    rw [characterOffset]
    constructor
    · intro h
      split at h
      · next heq =>
        cases h
        exact ⟨[], c :: line, rfl, heq, rfl⟩
      · split at h
        · cases h
        · obtain ⟨p, q, rfl, hcount, rfl⟩ := ih.1 h
          refine ⟨c :: p, q, rfl, ?_, ?_⟩
          · rw [← hcount, units_cons, Nat.add_assoc]
          · rw [byteLen_cons, Nat.add_assoc]
    · rintro ⟨p, q, hline, hcount, rfl⟩
      cases p with
      | nil =>
        rw [if_pos (by simpa using hcount)]
        rfl
      | cons d p =>
        obtain ⟨rfl, rfl⟩ := List.cons.inj hline
        have hpos := characterWidth_pos encoding c
        rw [units_cons] at hcount
        rw [if_neg (by omega), if_neg (by omega), ih]
        exact ⟨p, q, rfl, by omega, by rw [byteLen_cons, Nat.add_assoc]⟩

/-- The offset cuts the text outside every CRLF, `line` line endings and then `character` code units
into it. -/
def Placed (encoding : PositionEncoding) (text : List Char) (offset line character : Nat) : Prop :=
  ∃ before after, text = before ++ after ∧ byteLen before = offset ∧ ¬ Splits before after ∧
    (place before).1 = line ∧ units encoding (place before).2 = character

theorem takeWhile_plain_append {p : List Char} (hp : ∀ c ∈ p, isDelimiter c = false)
    (after : List Char) : (p ++ after).takeWhile (fun c => !isDelimiter c) =
      p ++ after.takeWhile fun c => !isDelimiter c :=
  List.takeWhile_append_of_pos fun c hc => by rw [hp c hc]; rfl

theorem positionToOffset_eq_ok {encoding : PositionEncoding} {text : List Char} {position : Position}
    {offset : Nat} : positionToOffset encoding text position = some (.ok offset) ↔
      Placed encoding text offset position.line.toNat position.character.toNat := by
  rw [positionToOffset]
  constructor
  · intro h
    cases hbounds : lineBounds text position.line with
    | none =>
      rw [hbounds] at h
      cases h
    | some bounds =>
      obtain ⟨start, stop⟩ := bounds
      rw [hbounds] at h
      obtain ⟨front, rest, rfl, hsplit, hplace, hstart, rfl⟩ :=
        place_of_lineBoundsFrom [] hbounds fun _ => ⟨rfl, rfl⟩
      rw [Nat.zero_add] at hstart
      subst hstart
      have hcut := (List.takeWhile_append_dropWhile (p := fun c => !isDelimiter c) (l := rest)).symm
      have hplain : ∀ c ∈ rest.takeWhile (fun c => !isDelimiter c), isDelimiter c = false := by
        intro c hc
        simpa using List.all_eq_true.1 List.all_takeWhile c hc
      generalize rest.takeWhile (fun c => !isDelimiter c) = line at h hcut hplain
      generalize rest.dropWhile (fun c => !isDelimiter c) = back at hcut
      subst hcut
      simp only [← List.append_assoc, slice_append, Option.map_some] at h
      cases hchar : characterOffset encoding position line 0 0 with
      | error e =>
        rw [hchar] at h
        cases h
      | ok relative =>
        rw [hchar] at h
        cases h
        obtain ⟨p, q, rfl, hcount, rfl⟩ := characterOffset_eq_ok.1 hchar
        have hp : ∀ c ∈ p, isDelimiter c = false := fun c hc =>
          hplain c (List.mem_append_left _ hc)
        have hbefore : place (front ++ p) = (position.line.toNat, p) := by
          have hfront : placeFrom (0, []) front = (position.line.toNat, []) := hplace
          rw [place, placeFrom_append (not_splits_of_plain front hp), hfront,
            placeFrom_of_no_delimiter hp]
          rfl
        refine ⟨front ++ p, q ++ back, by simp, by simp, ?_, ?_, ?_⟩
        · rw [splits_append_iff hp]
          simpa using hsplit
        · rw [hbefore]
        · rw [hbefore, ← hcount, Nat.zero_add]
  · rintro ⟨before, after, rfl, rfl, hsplit, hline, hchar⟩
    obtain ⟨front, hbefore, hplace, hplain⟩ := place_line before
    generalize (place before).2 = p at *
    subst hbefore
    rw [splits_append_iff hplain] at hsplit
    have hbounds : lineBounds (front ++ p ++ after) position.line =
        some (byteLen front, byteLen front +
          byteLen (p ++ after.takeWhile fun c => !isDelimiter c)) := by
      rw [lineBounds, List.append_assoc]
      rw [hline] at hplace
      rw [lineBoundsFrom_of_place 0 0 0 hsplit hplace fun _ => rfl, takeWhile_plain_append hplain,
        Nat.zero_add]
    have hcut := List.takeWhile_append_dropWhile (p := fun c => !isDelimiter c) (l := after)
    have hslice : slice (front ++ p ++ after) (byteLen front) (byteLen front +
        byteLen (p ++ after.takeWhile fun c => !isDelimiter c)) =
          some (p ++ after.takeWhile fun c => !isDelimiter c) := by
      have := slice_append front (p ++ after.takeWhile fun c => !isDelimiter c)
        (after.dropWhile fun c => !isDelimiter c)
      rwa [List.append_assoc, List.append_assoc p, hcut, ← List.append_assoc] at this
    rw [hbounds]
    simp only [hslice, Option.map_some]
    rw [characterOffset_eq_ok.2 ⟨p, _, rfl, by rw [Nat.zero_add, hchar], rfl⟩]
    simp [Except.map]

/-! ## From an offset to its position -/

section OffsetToPosition

variable {encoding : PositionEncoding} {text : List Char} {offset : Nat}

theorem delimiter_of_ne {b : UInt8} (hb : b ≠ cr ∧ b ≠ lf) (next : Option UInt8) :
    delimiter b next = none := by
  rw [delimiter, if_neg fun h => hb.1 h.1, if_neg (not_or.2 hb)]

/-- From the offset on, the scan only looks for the end of the line. -/
theorem offsetToPositionFrom_here {cursor : Nat} (h : offset ≤ cursor) (bytes : List UInt8)
    (line : UInt32) (lineStart : Nat) :
    offsetToPositionFrom encoding text offset 0 bytes line lineStart cursor =
      positionInLine encoding text line lineStart offset := by
  induction bytes generalizing cursor with
  | nil => rfl
  | cons b rest ih =>
    rw [offsetToPositionFrom]
    cases delimiter b rest.head? with
    | none => exact ih (by omega)
    | some width => exact if_pos h

theorem positionInLine_self (h : isBoundary text offset = true) (line : UInt32) :
    positionInLine encoding text line offset offset = pure ⟨line, 0⟩ := by
  obtain ⟨a, b, rfl, rfl⟩ := isBoundary_iff.1 h
  have hslice := slice_append a [] b
  rw [List.append_nil, byteLen_nil, Nat.add_zero] at hslice
  rw [positionInLine, hslice]
  rfl

theorem offsetToPositionFrom_skip {bs : List UInt8} (hbs : ∀ b ∈ bs, b ≠ cr ∧ b ≠ lf)
    (rest : List UInt8) (line : UInt32) (lineStart cursor : Nat) :
    offsetToPositionFrom encoding text offset 0 (bs ++ rest) line lineStart cursor =
      offsetToPositionFrom encoding text offset 0 rest line lineStart (cursor + bs.length) := by
  induction bs generalizing cursor with
  | nil => rfl
  | cons b bs ih =>
    rw [List.cons_append, offsetToPositionFrom, delimiter_of_ne (hbs b List.mem_cons_self)]
    simp only
    rw [ih fun b hb => hbs b (List.mem_cons_of_mem _ hb), List.length_cons]
    congr 1
    omega

theorem offsetToPositionFrom_character {c : Char} (hc : isDelimiter c = false) (t : List Char)
    (line : UInt32) (lineStart cursor : Nat) :
    offsetToPositionFrom encoding text offset 0 (utf8 (c :: t)) line lineStart cursor =
      offsetToPositionFrom encoding text offset 0 (utf8 t) line lineStart
        (cursor + c.utf8Size) := by
  rw [utf8_cons, offsetToPositionFrom_skip fun b hb => ne_of_mem_utf8EncodeChar hc hb,
    String.length_utf8EncodeChar]

theorem offsetToPositionFrom_plain {p : List Char} (hp : ∀ c ∈ p, isDelimiter c = false)
    (t : List Char) (line : UInt32) (lineStart cursor : Nat) :
    offsetToPositionFrom encoding text offset 0 (utf8 (p ++ t)) line lineStart cursor =
      offsetToPositionFrom encoding text offset 0 (utf8 t) line lineStart (cursor + byteLen p) := by
  induction p generalizing cursor with
  | nil => rfl
  | cons c p ih =>
    rw [List.cons_append, offsetToPositionFrom_character (hp c List.mem_cons_self),
      ih fun d hd => hp d (List.mem_cons_of_mem _ hd), byteLen_cons, Nat.add_assoc]

/-- The CR of a CRLF in front of the offset can be passed alone. -/
theorem offsetToPositionFrom_crlf {t : List Char} (ht : t.head? = some '\n') {cursor : Nat}
    (hle : cursor + 2 ≤ offset) (line : UInt32) (lineStart : Nat) :
    offsetToPositionFrom encoding text offset 0 (utf8 ('\r' :: t)) line lineStart cursor =
      offsetToPositionFrom encoding text offset 0 (utf8 t) line lineStart (cursor + 1) := by
  obtain ⟨t, rfl⟩ : ∃ t', t = '\n' :: t' := by
    cases t with
    | nil => cases ht
    | cons d t => exact ⟨t, by cases ht; rfl⟩
  have hcr : delimiter cr (lf :: utf8 t).head? = some 2 := rfl
  have hlf : ∀ next, delimiter lf next = some 1 := fun next => by
    rw [delimiter, if_neg fun h => absurd h.1 (by decide), if_pos (.inr rfl)]
  rw [utf8_cr, utf8_lf, offsetToPositionFrom, hcr, offsetToPositionFrom, hlf]
  simp only
  rw [if_neg (by omega), if_neg (by omega), if_neg (by omega), if_neg (by omega)]
  rfl

/-- A line ending in front of the offset starts the next line. -/
theorem offsetToPositionFrom_delimiter (hbound : isBoundary text offset = true) {c : Char}
    {t : List Char} (hcrlf : ¬ (c = '\r' ∧ t.head? = some '\n')) (hc : c = '\r' ∨ c = '\n')
    {cursor : Nat} (hle : cursor + 1 ≤ offset) (line : UInt32) (lineStart : Nat) :
    offsetToPositionFrom encoding text offset 0 (utf8 (c :: t)) line lineStart cursor =
      match checkedSucc line with
      | none => throw .lineOverflow
      | some line =>
        offsetToPositionFrom encoding text offset 0 (utf8 t) line (cursor + 1) (cursor + 1) := by
  obtain ⟨b, hb, hdelim⟩ : ∃ b, utf8 (c :: t) = b :: utf8 t ∧
      delimiter b (utf8 t).head? = some 1 := by
    rcases hc with rfl | rfl
    · refine ⟨cr, rfl, ?_⟩
      rw [delimiter, if_neg fun h => hcrlf ⟨rfl, head?_utf8_eq_lf.1 h.2⟩, if_pos (.inl rfl)]
    · refine ⟨lf, rfl, ?_⟩
      rw [delimiter, if_neg fun h => absurd h.1 (by decide), if_pos (.inr rfl)]
  rw [hb, offsetToPositionFrom, hdelim]
  simp only
  rw [if_neg (by omega), if_neg (by omega)]
  cases checkedSucc line with
  | none => rfl
  | some next =>
    simp only
    split
    · next heq =>
      rw [offsetToPositionFrom_here (by omega), ← heq, positionInLine_self hbound]
    · rfl

/-- The line that an offset lies in is reached, when its number is one. -/
theorem offsetToPositionFrom_of_place (encoding : PositionEncoding)
    (hbound : isBoundary text offset = true) (line : UInt32) {front rest pre : List Char}
    (lineStart cursor : Nat) {n : Nat} (h : ¬ Splits front rest)
    (hplace : placeFrom (line.toNat, pre) front = (n, [])) (hle : cursor + byteLen front ≤ offset)
    (hstart : front = [] → lineStart = cursor) :
    offsetToPositionFrom encoding text offset 0 (utf8 (front ++ rest)) line lineStart cursor =
      if n < 2 ^ 32 then
        offsetToPositionFrom encoding text offset 0 (utf8 rest) (UInt32.ofNat n)
          (cursor + byteLen front) (cursor + byteLen front)
      else throw .lineOverflow := by
  induction front generalizing line lineStart cursor pre with
  | nil =>
    obtain rfl : line.toNat = n := congrArg Prod.fst hplace
    rw [if_pos line.toNat_lt, hstart rfl, UInt32.ofNat_toNat]
    rfl
  | cons c front ih =>
    have htail := not_splits_tail h
    rw [byteLen_cons] at hle
    rw [List.cons_append]
    rw [placeFrom] at hplace
    split at hplace
    · next hcr =>
      obtain ⟨rfl, hhead⟩ := hcr
      have hsize : Char.utf8Size '\r' = 1 := by decide
      have hne : front ≠ [] := by
        rintro rfl
        cases hhead
      have hpos : 0 < byteLen front := Nat.pos_of_ne_zero fun h0 => hne (byteLen_eq_zero h0)
      have hhead' : (front ++ rest).head? = some '\n' := by
        rw [List.head?_append, hhead]
        rfl
      rw [offsetToPositionFrom_crlf hhead' (by omega),
        ih _ _ _ htail hplace (by omega) fun hnil => absurd hnil hne, byteLen_cons, hsize]
      simp only [Nat.add_assoc]
    · next hcr =>
      split at hplace
      · next hdelim =>
        have hcrlf : ¬ (c = '\r' ∧ (front ++ rest).head? = some '\n') := by
          rintro ⟨rfl, hhead⟩
          cases front with
          | nil => exact h ⟨rfl, hhead⟩
          | cons d front => exact hcr ⟨rfl, hhead⟩
        have hsize : c.utf8Size = 1 := by rcases hdelim with rfl | rfl <;> decide
        rw [offsetToPositionFrom_delimiter hbound hcrlf hdelim (by omega)]
        by_cases hlt : line.toNat + 1 < 2 ^ 32
        · rw [← toNat_succ hlt] at hplace
          rw [checkedSucc_of_lt hlt]
          simp only
          rw [ih _ _ _ htail hplace (by omega) fun _ => rfl, byteLen_cons, hsize]
          simp only [Nat.add_assoc]
        · have hn : ¬ n < 2 ^ 32 := by
            rcases placeFrom_le (line.toNat + 1, []) front with hle' | ⟨hle', -⟩ <;>
              rw [hplace] at hle' <;> simp only at hle' <;> omega
          rw [checkedSucc, if_neg hlt, if_neg hn]
      · next hdelim =>
        have hc : isDelimiter c = false := by simpa [isDelimiter] using hdelim
        have hne : front ≠ [] := by
          rintro rfl
          simp [placeFrom] at hplace
        rw [offsetToPositionFrom_character hc,
          ih _ _ _ htail hplace (by omega) fun hnil => absurd hnil hne, byteLen_cons]
        simp only [Nat.add_assoc]

/-- `offset_to_position` at a place: the position, unless a number does not fit. -/
theorem offsetToPosition_of_placed {line character : Nat}
    (h : Placed encoding text offset line character) :
    offsetToPosition encoding text offset =
      if line < 2 ^ 32 then
        if character < 2 ^ 32 then pure ⟨UInt32.ofNat line, UInt32.ofNat character⟩
        else throw .characterOverflow
      else throw .lineOverflow := by
  obtain ⟨before, after, rfl, rfl, hsplit, rfl, rfl⟩ := h
  have hbound := isBoundary_append before after
  obtain ⟨front, hbefore, hplace, hplain⟩ := place_line before
  rw [offsetToPosition, if_neg (by rw [byteLen_append]; omega), if_neg (by rw [hbound]; simp)]
  generalize (place before).2 = p at *
  generalize (place before).1 = n at *
  subst hbefore
  rw [splits_append_iff hplain] at hsplit
  have hscan := offsetToPositionFrom_of_place encoding hbound 0 0 0 hsplit hplace
    (by rw [byteLen_append]; omega) fun _ => rfl
  rw [← List.append_assoc, Nat.zero_add] at hscan
  rw [hscan]
  by_cases hn : n < 2 ^ 32
  · rw [if_pos hn, if_pos hn, offsetToPositionFrom_plain hplain,
      offsetToPositionFrom_here (by rw [byteLen_append]), positionInLine, byteLen_append,
      slice_append, Option.map_some]
    split <;> rfl
  · rw [if_neg hn, if_neg hn]

end OffsetToPosition

/-! ## Both directions -/

section Inverse

variable {encoding : PositionEncoding} {text : List Char}

/-- Offsets that can be a position: at a character boundary and outside every CRLF. -/
def Addressable (text : List Char) (offset : Nat) : Prop :=
  ∃ before after, text = before ++ after ∧ byteLen before = offset ∧ ¬ Splits before after

theorem Placed.addressable {offset line character : Nat}
    (h : Placed encoding text offset line character) : Addressable text offset := by
  obtain ⟨before, after, htext, hoffset, hsplit, -⟩ := h
  exact ⟨before, after, htext, hoffset, hsplit⟩

theorem Placed.le {offset line character : Nat} (h : Placed encoding text offset line character) :
    offset ≤ byteLen text := by
  obtain ⟨before, after, rfl, rfl, -⟩ := h
  rw [byteLen_append]
  exact Nat.le_add_right _ _

theorem Placed.unique {offset line character line' character' : Nat}
    (h : Placed encoding text offset line character)
    (h' : Placed encoding text offset line' character') : line = line' ∧ character = character' := by
  obtain ⟨before, after, rfl, rfl, -, rfl, rfl⟩ := h
  obtain ⟨before', after', htext, hlen, -, rfl, rfl⟩ := h'
  obtain ⟨rfl, -⟩ := eq_of_byteLen_eq htext hlen.symm
  exact ⟨rfl, rfl⟩

/-- A later offset is placed in a later line, or further on in the same one. -/
theorem Placed.lt_of_lt {offset offset' line character line' character' : Nat}
    (h : Placed encoding text offset line character)
    (h' : Placed encoding text offset' line' character') (hlt : offset < offset') :
    line < line' ∨ line = line' ∧ character < character' := by
  obtain ⟨before, after, rfl, rfl, hsplit, rfl, rfl⟩ := h
  obtain ⟨before', after', htext, rfl, -, rfl, rfl⟩ := h'
  obtain ⟨middle, hmiddle, hafter⟩ : ∃ middle, before' = before ++ middle ∧
      after = middle ++ after' := by
    rcases List.append_eq_append_iff.1 htext with ⟨middle, h1, h2⟩ | ⟨middle, h1, h2⟩
    · exact ⟨middle, h1, h2⟩
    · rw [h1, byteLen_append] at hlt
      omega
  subst hmiddle hafter
  have hne : middle ≠ [] := by
    rintro rfl
    rw [List.append_nil] at hlt
    exact Nat.lt_irrefl _ hlt
  have hcut : ¬ Splits before middle := by
    rintro ⟨hlast, hhead⟩
    refine hsplit ⟨hlast, ?_⟩
    rw [List.head?_append, hhead]
    rfl
  have hplace : place (before ++ middle) = placeFrom (place before) middle :=
    placeFrom_append hcut _
  rw [hplace]
  rcases placeFrom_lt (place before) hne with hline | ⟨hline, more, hmore, hpre⟩
  · exact .inl hline
  · refine .inr ⟨hline.symm, ?_⟩
    have := units_pos encoding hmore
    rw [hpre, units_append]
    omega

end Inverse

end OhMyPi.Docserver.Lsp
