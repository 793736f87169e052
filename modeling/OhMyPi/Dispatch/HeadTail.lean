import OhMyPi.Lib.Longest
import OhMyPi.Dispatch.Bounding

/-! The head and the tail that stand for output that was cut. The code finds them by byte offsets; they
are the longest prefix and the longest suffix within a number of bytes and of lines. -/

namespace OhMyPi.Dispatch

open Text

/-- The number of lines of a text. A final line break ends the last line. -/
def lineCount (text : List Char) : Nat := text.dropLast.count '\n' + 1

/-- The text has at most the given bytes and lines. There is always room for one line, and the greatest
number stands for no bound. -/
def Within (bytes lines : Nat) (text : List Char) : Prop :=
  byteLen text ≤ bytes ∧ (lines = usizeMax ∨ lineCount text ≤ max lines 1)

instance (bytes lines : Nat) : DecidablePred (Within bytes lines) := fun text =>
  inferInstanceAs (Decidable (_ ∧ (_ ∨ _)))

/-- The bytes of a head and a tail with the ellipsis between them, each on its own line. -/
def windowLen (head tail : List Char) : Nat :=
  byteLen head + (if head = [] ∨ head.getLast? = some '\n' then 0 else 1) + 3 +
    if tail = [] then 0 else 1 + byteLen tail

/-! ## Bytes and characters -/

theorem byteLen_pos {text : List Char} (h : text ≠ []) : 0 < byteLen text := by
  cases text with
  | nil => exact absurd rfl h
  | cons c text =>
    rw [byteLen_cons]
    exact Nat.add_pos_left c.utf8Size_pos _

theorem length_le_of_prefixes {q r text : List Char} (hq : q <+: text) (hr : r <+: text)
    (h : byteLen q ≤ byteLen r) : q.length ≤ r.length := by
  by_contra hlt
  obtain ⟨x, rfl⟩ := List.prefix_of_prefix_length_le hr hq (by omega)
  rw [byteLen_append] at h
  rw [List.length_append] at hlt
  have hx : x ≠ [] := by
    rintro rfl
    simp at hlt
  have := byteLen_pos hx
  omega

theorem length_le_of_suffixes {q r text : List Char} (hq : q <:+ text) (hr : r <:+ text)
    (h : byteLen q ≤ byteLen r) : q.length ≤ r.length := by
  by_contra hlt
  obtain ⟨x, rfl⟩ := List.suffix_of_suffix_length_le hr hq (by omega)
  rw [byteLen_append] at h
  rw [List.length_append] at hlt
  have hx : x ≠ [] := by
    rintro rfl
    simp at hlt
  have := byteLen_pos hx
  omega

theorem byteLen_newline : Char.utf8Size '\n' = 1 := by decide

theorem utf8Prefix_isPrefix (text : List Char) (maximum : Nat) : utf8Prefix text maximum <+: text :=
  ⟨_, utf8Prefix_append_drop text maximum⟩

/-- No longer prefix has at most as many bytes. -/
theorem length_le_utf8Prefix {q text : List Char} {maximum : Nat} (hq : q <+: text)
    (h : byteLen q ≤ maximum) : q.length ≤ (utf8Prefix text maximum).length := by
  induction text generalizing q maximum with
  | nil =>
    rw [List.prefix_nil.1 hq]
    exact Nat.zero_le _
  | cons c text ih =>
    cases q with
    | nil => exact Nat.zero_le _
    | cons d q =>
      obtain ⟨rfl, hrest⟩ := List.cons_prefix_cons.1 hq
      rw [byteLen_cons] at h
      rw [utf8Prefix, if_pos (by omega), List.length_cons, List.length_cons]
      exact Nat.succ_le_succ (ih hrest (by omega))

theorem isCharBoundary_iff {text : List Char} {index : Nat} :
    isCharBoundary text index = true ↔ ∃ a s, text = a ++ s ∧ byteLen a = index := by
  induction text generalizing index with
  | nil =>
    cases index with
    | zero => exact ⟨fun _ => ⟨[], [], rfl, rfl⟩, fun _ => rfl⟩
    | succ index =>
      refine ⟨fun h => (nomatch h), ?_⟩
      rintro ⟨a, s, hnil, hlen⟩
      rw [(List.append_eq_nil_iff.1 hnil.symm).1] at hlen
      cases hlen
  | cons c text ih =>
    cases index with
    | zero => exact ⟨fun _ => ⟨[], c :: text, rfl, rfl⟩, fun _ => rfl⟩
    | succ index =>
      have hunfold : isCharBoundary (c :: text) (index + 1) =
          (decide (c.utf8Size ≤ index + 1) && isCharBoundary text (index + 1 - c.utf8Size)) := rfl
      rw [hunfold, Bool.and_eq_true, decide_eq_true_eq, ih]
      constructor
      · rintro ⟨hle, a, s, rfl, hlen⟩
        refine ⟨c :: a, s, rfl, ?_⟩
        rw [byteLen_cons]
        omega
      · rintro ⟨a, s, htext, hlen⟩
        cases a with
        | nil => cases hlen
        | cons d a =>
          obtain ⟨rfl, rfl⟩ := List.cons.inj htext
          rw [byteLen_cons] at hlen
          exact ⟨by omega, a, s, rfl, by omega⟩

theorem sliceFrom_append (a s : List Char) : sliceFrom (a ++ s) (byteLen a) = s := by
  induction a with
  | nil =>
    rw [List.nil_append, byteLen_nil, sliceFrom]
  | cons c a ih =>
    have := c.utf8Size_pos
    rw [List.cons_append, byteLen_cons, sliceFrom, Nat.add_sub_cancel_left, ih]
    omega

/-- The loop stops at the first boundary, when there is one in its reach. -/
theorem raiseToBoundary_spec {text : List Char} {fuel index stop : Nat}
    (hstop : isCharBoundary text stop = true) (hle : index ≤ stop) (hreach : stop ≤ index + fuel) :
    isCharBoundary text (raiseToBoundary text fuel index) = true ∧
      index ≤ raiseToBoundary text fuel index ∧ raiseToBoundary text fuel index ≤ stop := by
  induction fuel generalizing index with
  | zero =>
    obtain rfl : index = stop := by omega
    exact ⟨hstop, Nat.le_refl _, Nat.le_refl _⟩
  | succ fuel ih =>
    rw [raiseToBoundary]
    split
    · next hhere => exact ⟨hhere, Nat.le_refl _, hle⟩
    · next hhere =>
      have hne : index ≠ stop := by
        rintro rfl
        exact hhere hstop
      have hnext : index + 1 ≤ stop := by omega
      obtain ⟨hbound, hge, hle'⟩ := ih hnext (by omega)
      exact ⟨hbound, by omega, hle'⟩

/-! ## Line breaks -/

theorem newlines_append (start : Nat) (a s : List Char) :
    newlines start (a ++ s) = newlines start a ++ newlines (start + byteLen a) s := by
  induction a generalizing start with
  | nil => rfl
  | cons c a ih =>
    rw [List.cons_append, newlines, newlines, ih, byteLen_cons, Nat.add_assoc]
    split
    · rfl
    · rfl

/-- A line break is a character of the text. -/
theorem exists_of_mem_newlines {start index : Nat} {text : List Char}
    (h : index ∈ newlines start text) :
    ∃ a s, text = a ++ '\n' :: s ∧ index = start + byteLen a := by
  induction text generalizing start with
  | nil => exact absurd h List.not_mem_nil
  | cons c text ih =>
    have hrest : index ∈ newlines (start + c.utf8Size) text →
        ∃ a s, c :: text = a ++ '\n' :: s ∧ index = start + byteLen a := by
      intro hmem
      obtain ⟨a, s, rfl, rfl⟩ := ih hmem
      exact ⟨c :: a, s, rfl, Nat.add_assoc _ _ _⟩
    rw [newlines] at h
    split at h
    · next hc =>
      rcases List.mem_cons.1 h with rfl | h
      · exact ⟨[], text, by rw [hc]; rfl, rfl⟩
      · exact hrest h
    · exact hrest h

theorem start_le_of_mem_newlines {start index : Nat} {text : List Char}
    (h : index ∈ newlines start text) : start ≤ index := by
  obtain ⟨a, s, -, rfl⟩ := exists_of_mem_newlines h
  exact Nat.le_add_right _ _

theorem length_newlines (start : Nat) (text : List Char) :
    (newlines start text).length = text.count '\n' := by
  induction text generalizing start with
  | nil => rfl
  | cons c text ih =>
    rw [newlines]
    split
    · next hc => rw [hc, List.length_cons, ih, List.count_cons_self]
    · next hc => rw [ih, List.count_cons_of_ne hc]

theorem count_dropLast_cons {text : List Char} (h : text ≠ []) (c : Char) :
    (c :: text).dropLast.count '\n' = text.dropLast.count '\n' + if c = '\n' then 1 else 0 := by
  rw [List.dropLast_cons_of_ne_nil h, List.count_cons]
  simp only [beq_iff_eq]

/-- A prefix has more lines than a number of line breaks when it goes on behind the last of them. -/
theorem newlines_get {start k index : Nat} {q text : List Char} (hq : q <+: text)
    (h : (newlines start text)[k]? = some index) :
    start + byteLen q ≤ index + 1 ↔ q.dropLast.count '\n' ≤ k := by
  induction text generalizing start k q with
  | nil => cases h
  | cons c text ih =>
    have hstart := start_le_of_mem_newlines (List.mem_of_getElem? h)
    cases q with
    | nil =>
      rw [byteLen_nil]
      exact ⟨fun _ => Nat.zero_le _, fun _ => by omega⟩
    | cons d q =>
      obtain ⟨rfl, hrest⟩ := List.cons_prefix_cons.1 hq
      rw [newlines] at h
      by_cases hnil : q = []
      · -- one character never goes behind a line break
        subst hnil
        refine ⟨fun _ => Nat.zero_le _, fun _ => ?_⟩
        rw [byteLen_cons, byteLen_nil]
        split at h
        · next hd =>
          rw [hd, byteLen_newline]
          omega
        · have := start_le_of_mem_newlines (List.mem_of_getElem? h)
          omega
      rw [byteLen_cons, ← Nat.add_assoc, count_dropLast_cons hnil]
      split at h
      · next hd =>
        rw [if_pos hd]
        cases k with
        | zero =>
          rw [List.getElem?_cons_zero, Option.some.injEq] at h
          have := byteLen_pos hnil
          have := d.utf8Size_pos
          omega
        | succ k =>
          rw [List.getElem?_cons_succ] at h
          rw [ih hrest h, Nat.add_le_add_iff_right]
      · next hd =>
        rw [if_neg hd, ih hrest h, Nat.add_zero]

theorem le_headLineEnd_iff {q text : List Char} {maxLines : Nat} (hq : q <+: text)
    (hlines : maxLines ≠ usizeMax) :
    byteLen q ≤ headLineEnd text maxLines ↔ lineCount q ≤ max maxLines 1 := by
  rw [headLineEnd, if_neg hlines, lineCount]
  split
  · next index hget =>
    have := newlines_get hq hget
    omega
  · next hnone =>
    rw [List.getElem?_eq_none_iff, length_newlines] at hnone
    have hcount : q.dropLast.count '\n' ≤ text.count '\n' :=
      ((List.dropLast_prefix q).trans hq).sublist.count_le _
    obtain ⟨rest, rfl⟩ := hq
    rw [byteLen_append]
    omega

/-- The line breaks behind a place, from the end, with the final one left out. -/
theorem length_filter_newlines (start : Nat) (s : List Char) :
    ((newlines start s).filter (· + 1 ≠ start + byteLen s)).length = s.dropLast.count '\n' := by
  induction s generalizing start with
  | nil => rfl
  | cons c s ih =>
    by_cases hnil : s = []
    · subst hnil
      rw [newlines, newlines, byteLen_cons, byteLen_nil]
      split
      · next hc =>
        rw [hc, byteLen_newline, List.filter_cons_of_neg (by simp)]
        rfl
      · rfl
    · have hpos := byteLen_pos hnil
      rw [count_dropLast_cons hnil, ← ih (start + c.utf8Size), newlines, byteLen_cons,
        ← Nat.add_assoc]
      split
      · next hc =>
        have hhere : start + 1 ≠ start + c.utf8Size + byteLen s := by
          rw [hc, byteLen_newline]
          omega
        rw [List.filter_cons_of_pos (by simpa using hhere), List.length_cons]
      · rfl

theorem lineStartFrom_le {len place : Nat} {indices : List Nat} (h : ∀ i ∈ indices, i < place)
    (remaining : Nat) : lineStartFrom len indices remaining ≤ place := by
  induction indices generalizing remaining with
  | nil => exact Nat.zero_le _
  | cons i indices ih =>
    have hrest := ih fun j hj => h j (List.mem_cons_of_mem _ hj)
    rw [lineStartFrom]
    split
    · exact hrest _
    · split
      · exact h i List.mem_cons_self
      · exact hrest _

/-- The loop stops behind a place when there are enough line breaks behind it. -/
theorem lineStartFrom_append {len place : Nat} {behind : List Nat} (hbehind : ∀ i ∈ behind, place ≤ i)
    {before : List Nat} (hbefore : ∀ i ∈ before, i < place) {remaining : Nat} (hpos : 1 ≤ remaining) :
    lineStartFrom len (behind ++ before) remaining ≤ place ↔
      (behind.filter (· + 1 ≠ len)).length < remaining := by
  induction behind generalizing remaining with
  | nil => exact ⟨fun _ => hpos, fun _ => lineStartFrom_le hbefore remaining⟩
  | cons i behind ih =>
    have hi := hbehind i List.mem_cons_self
    have hrest := fun j hj => hbehind j (List.mem_cons_of_mem i hj)
    rw [List.cons_append, lineStartFrom]
    split
    · next hfinal =>
      rw [ih hrest hpos, List.filter_cons_of_neg (by simpa using hfinal)]
    · next hfinal =>
      rw [List.filter_cons_of_pos (by simpa using hfinal), List.length_cons]
      split
      · omega
      · rw [ih hrest (by omega)]
        omega

theorem tailLineStart_le_iff {a s text : List Char} {maxLines : Nat} (htext : text = a ++ s)
    (hlines : maxLines ≠ usizeMax) :
    tailLineStart text maxLines ≤ byteLen a ↔ lineCount s ≤ max maxLines 1 := by
  have hbehind : ∀ i ∈ (newlines (byteLen a) s).reverse, byteLen a ≤ i := fun i hi =>
    start_le_of_mem_newlines (List.mem_reverse.1 hi)
  have hbefore : ∀ i ∈ (newlines 0 a).reverse, i < byteLen a := by
    intro i hi
    obtain ⟨b, t, rfl, rfl⟩ := exists_of_mem_newlines (List.mem_reverse.1 hi)
    rw [byteLen_append, byteLen_cons, byteLen_newline]
    omega
  rw [tailLineStart, if_neg hlines, htext, newlines_append, Nat.zero_add, List.reverse_append,
    lineStartFrom_append hbehind hbefore (by omega), List.filter_reverse, List.length_reverse,
    byteLen_append, length_filter_newlines, lineCount]
  omega

theorem isCharBoundary_lineStartFrom {len : Nat} {text : List Char} {indices : List Nat}
    (h : ∀ i ∈ indices, i ∈ newlines 0 text) (remaining : Nat) :
    isCharBoundary text (lineStartFrom len indices remaining) = true := by
  induction indices generalizing remaining with
  | nil => exact isCharBoundary_iff.2 ⟨[], text, rfl, rfl⟩
  | cons i indices ih =>
    have hrest := ih fun j hj => h j (List.mem_cons_of_mem _ hj)
    rw [lineStartFrom]
    split
    · exact hrest _
    · split
      · obtain ⟨a, s, hsplit, hi⟩ := exists_of_mem_newlines (h i List.mem_cons_self)
        refine isCharBoundary_iff.2 ⟨a ++ ['\n'], s, ?_, ?_⟩
        · rw [hsplit, List.append_assoc]
          rfl
        · rw [byteLen_append, byteLen_cons, byteLen_nil, byteLen_newline, hi]
          omega
      · exact hrest _

theorem isCharBoundary_tailLineStart (text : List Char) (maxLines : Nat) :
    isCharBoundary text (tailLineStart text maxLines) = true := by
  rw [tailLineStart]
  split
  · exact isCharBoundary_iff.2 ⟨[], text, rfl, rfl⟩
  · exact isCharBoundary_lineStartFrom (fun i hi => List.mem_reverse.1 hi) _

/-! ## The windows -/

/-- The head is the longest prefix within the bounds. -/
theorem head_eq_front (text : List Char) (headBytes maxLines : Nat) :
    utf8Prefix text (min headBytes (headLineEnd text maxLines)) =
      Longest.front (Within headBytes maxLines) text := by
  have hfits : ∀ q, q <+: text → (Within headBytes maxLines q ↔
      byteLen q ≤ min headBytes (headLineEnd text maxLines)) := by
    intro q hq
    rw [Within, Nat.le_min]
    by_cases hlines : maxLines = usizeMax
    · have hle : byteLen q ≤ headLineEnd text maxLines := by
        obtain ⟨rest, rfl⟩ := hq
        rw [headLineEnd, if_pos hlines, byteLen_append]
        exact Nat.le_add_right _ _
      exact ⟨fun hq => ⟨hq.1, hle⟩, fun hq => ⟨hq.1, .inl hlines⟩⟩
    · rw [le_headLineEnd_iff hq hlines]
      exact and_congr_right fun _ => or_iff_right hlines
  have hhead := utf8Prefix_isPrefix text (min headBytes (headLineEnd text maxLines))
  refine (Longest.front_eq hhead ((hfits _ hhead).2 (byteLen_utf8Prefix_le _ _)) ?_).symm
  exact fun q hq hwithin => length_le_utf8Prefix hq ((hfits q hq).1 hwithin)

theorem tailByteStart_spec (text : List Char) (tailBytes : Nat) :
    isCharBoundary text (tailByteStart text tailBytes) = true ∧
      byteLen text - tailBytes ≤ tailByteStart text tailBytes ∧
      ∀ a s, text = a ++ s → byteLen s ≤ tailBytes → tailByteStart text tailBytes ≤ byteLen a := by
  have hend : isCharBoundary text (byteLen text) = true :=
    isCharBoundary_iff.2 ⟨text, [], (List.append_nil _).symm, rfl⟩
  have hreach : byteLen text ≤ byteLen text - tailBytes + tailBytes := by omega
  obtain ⟨hbound, hge, -⟩ := raiseToBoundary_spec hend (Nat.sub_le _ _) hreach
  refine ⟨hbound, hge, ?_⟩
  rintro a s rfl hs
  have ha : isCharBoundary (a ++ s) (byteLen a) = true := isCharBoundary_iff.2 ⟨a, s, rfl, rfl⟩
  have hlen := byteLen_append a s
  exact (raiseToBoundary_spec ha (by omega) (by omega)).2.2

/-- The tail is the longest suffix within the bounds. -/
theorem tail_eq_back (text : List Char) (tailBytes maxLines : Nat) :
    sliceFrom text (max (tailByteStart text tailBytes) (tailLineStart text maxLines)) =
      Longest.back (Within tailBytes maxLines) text := by
  obtain ⟨hbound, hge, hfirst⟩ := tailByteStart_spec text tailBytes
  have hmax : isCharBoundary text
      (max (tailByteStart text tailBytes) (tailLineStart text maxLines)) = true := by
    rcases Nat.le_total (tailByteStart text tailBytes) (tailLineStart text maxLines) with hle | hle
    · rw [Nat.max_eq_right hle]
      exact isCharBoundary_tailLineStart text maxLines
    · rw [Nat.max_eq_left hle]
      exact hbound
  obtain ⟨a, s, htext, hlen⟩ := isCharBoundary_iff.1 hmax
  have hbytes : byteLen text = byteLen a + byteLen s := by
    rw [htext, byteLen_append]
  have htail : sliceFrom text
      (max (tailByteStart text tailBytes) (tailLineStart text maxLines)) = s := by
    rw [← hlen, htext]
    exact sliceFrom_append a s
  rw [htail]
  have hlines : maxLines = usizeMax ∨ lineCount s ≤ max maxLines 1 := by
    by_cases hlines : maxLines = usizeMax
    · exact .inl hlines
    · exact .inr ((tailLineStart_le_iff htext hlines).1 (by omega))
  refine (Longest.back_eq ⟨a, htext.symm⟩ ⟨by omega, hlines⟩ ?_).symm
  · rintro t ⟨b, htext'⟩ ⟨ht, htlines⟩
    refine length_le_of_suffixes ⟨b, htext'⟩ ⟨a, htext.symm⟩ ?_
    have hb := hfirst b t htext'.symm ht
    have hlinesb : tailLineStart text maxLines ≤ byteLen b := by
      by_cases hlines : maxLines = usizeMax
      · rw [tailLineStart, if_pos hlines]
        exact Nat.zero_le _
      · exact (tailLineStart_le_iff htext'.symm hlines).2 (htlines.resolve_left hlines)
    have hbytes' : byteLen text = byteLen b + byteLen t := by
      rw [← htext', byteLen_append]
    omega

/-- What is shown of a text that is longer than both windows together. -/
theorem byteLen_artifactProjection {text : List Char} {headBytes tailBytes : Nat}
    (h : headBytes + tailBytes < byteLen text) (maxLines : Nat) :
    byteLen (artifactProjection text headBytes tailBytes maxLines) =
      windowLen (Longest.front (Within headBytes maxLines) text)
        (Longest.back (Within tailBytes maxLines) text) := by
  have hhead := byteLen_utf8Prefix_le text (min headBytes (headLineEnd text maxLines))
  have hge := (tailByteStart_spec text tailBytes).2.1
  rw [artifactProjection]
  dsimp only
  rw [if_neg (by omega), head_eq_front, tail_eq_back, windowLen]
  generalize Longest.front (Within headBytes maxLines) text = head
  generalize Longest.back (Within tailBytes maxLines) text = tail
  have hdots : Char.utf8Size '…' = 3 := by decide
  have htail : byteLen (if tail.isEmpty then [] else '\n' :: tail) =
      if tail = [] then 0 else 1 + byteLen tail := by
    cases tail with
    | nil => rfl
    | cons c tail => rfl
  have hline : byteLen (if head.isEmpty then [] else if head.getLast? = some '\n' then head
      else head ++ ['\n']) =
      byteLen head + if head = [] ∨ head.getLast? = some '\n' then 0 else 1 := by
    cases head with
    | nil => rfl
    | cons c head =>
      by_cases hlast : (c :: head).getLast? = some '\n'
      · simp [hlast]
      · simp [hlast, byteLen_newline, Nat.add_assoc]
  rw [byteLen_append, byteLen_append, htail, hline, byteLen_cons, byteLen_nil, hdots]

end OhMyPi.Dispatch
