import Mathlib.Data.List.ModifyLast
import OhMyPi.Edit.Placement
import OhMyPi.Edit.ReplaceAll
import OhMyPi.Lib.Splice

/-! What applying a patch changes. `changes` reads the placements off the search; a change replaces the
lines it stands on, and the guard speaks about the part of a line that the old line leaves over. -/

namespace OhMyPi.Edit

open Text Splice

/-! ## The remainder of a line -/

/-- The first place of a part in a text. -/
structure FirstAt (part text before after : List Char) : Prop where
  eq : text = before ++ part ++ after
  first : ∀ b a, text = b ++ part ++ a → before.length ≤ b.length

theorem FirstAt.unique {part text b a b' a' : List Char} (h : FirstAt part text b a)
    (h' : FirstAt part text b' a') : b = b' ∧ a = a' := by
  have hlen := Nat.le_antisymm (h.first _ _ h'.eq) (h'.first _ _ h.eq)
  have heq := h.eq.symm.trans h'.eq
  rw [List.append_assoc, List.append_assoc] at heq
  obtain ⟨hb, ha⟩ := List.append_inj heq hlen
  exact ⟨hb, List.append_cancel_left ha⟩

theorem firstAt_of_find {part text : List Char} {n : Nat} (h : find part text = some n) :
    FirstAt part text (text.take n) (text.drop (n + part.length)) := by
  induction text generalizing n with
  | nil =>
    rw [find] at h
    split at h
    · next hnil =>
      cases h
      subst hnil
      exact ⟨rfl, fun _ _ _ => Nat.zero_le _⟩
    · cases h
  | cons c text ih =>
    rw [find] at h
    split at h
    · next hhere =>
      cases h
      obtain ⟨rest, hrest⟩ := List.isPrefixOf_iff_prefix.1 hhere
      refine ⟨?_, fun _ _ _ => Nat.zero_le _⟩
      rw [← hrest, Nat.zero_add, List.drop_left, List.take_zero, List.nil_append]
    · next hno =>
      obtain ⟨m, hm, rfl⟩ := Option.map_eq_some_iff.1 h
      obtain ⟨heq, hfirst⟩ := ih hm
      constructor
      · rw [Nat.add_right_comm, List.take_succ_cons, List.drop_succ_cons, List.cons_append,
          List.cons_append, ← heq]
      · intro b a hba
        cases b with
        | nil => exact absurd (List.isPrefixOf_iff_prefix.2 ⟨a, hba.symm⟩) hno
        | cons d b =>
          have := hfirst b a (List.cons.inj hba).2
          simp only [List.take_succ_cons, List.length_cons]
          omega

theorem not_firstAt_of_find {part text before after : List Char} (h : find part text = none) :
    ¬FirstAt part text before after := by
  rintro ⟨heq, -⟩
  have hpart : part ≠ [] := by
    rintro rfl
    cases text <;> cases h
  exact (find_eq_none hpart).1 h ⟨before, after, heq.symm⟩

/-- What a file line has around the old line is kept in the new lines. Lines are compared as the
guard compares them. -/
def KeepsRemainder (newLines : List (List Char)) (expected actual : List Char) : Prop :=
  ∀ before after, FirstAt (normalizeForFuzzy expected) (normalizeForFuzzy actual) before after →
    trim before <:+: joinLines (newLines.map normalizeForFuzzy) ∧
      trim after <:+: joinLines (newLines.map normalizeForFuzzy)

theorem keepsRemainder_of_eq {newLines : List (List Char)} {expected actual : List Char}
    (h : normalizeForFuzzy actual = normalizeForFuzzy expected) :
    KeepsRemainder newLines expected actual := by
  intro before after hfirst
  have hwhole : FirstAt (normalizeForFuzzy expected) (normalizeForFuzzy actual) [] [] :=
    ⟨by rw [h, List.nil_append, List.append_nil], fun _ _ _ => Nat.zero_le _⟩
  obtain ⟨rfl, rfl⟩ := hfirst.unique hwhole
  exact ⟨List.nil_infix, List.nil_infix⟩

theorem discarded_eq_none {newLines : List (List Char)} {expected actual : List Char} :
    discarded (joinLines (newLines.map normalizeForFuzzy)) expected actual = none ↔
      KeepsRemainder newLines expected actual := by
  rw [discarded]
  split
  · next heq => exact iff_of_true rfl (keepsRemainder_of_eq heq)
  · split
    · next hnone => exact iff_of_true rfl fun _ _ hfirst => absurd hfirst (not_firstAt_of_find hnone)
    · next place hplace =>
      have hfirst := firstAt_of_find hplace
      have hkept (part : List Char) : ¬(!part.isEmpty &&
          !contains (joinLines (newLines.map normalizeForFuzzy)) part) = true ↔
            part <:+: joinLines (newLines.map normalizeForFuzzy) := by
        cases part with
        | nil => exact iff_of_true Bool.false_ne_true List.nil_infix
        | cons c part => simp [contains]
      rw [List.find?_eq_none, List.forall_mem_cons, List.forall_mem_singleton, hkept, hkept]
      constructor
      · intro h before after hother
        obtain ⟨rfl, rfl⟩ := hother.unique hfirst
        exact h
      · exact fun h => h _ _ hfirst

theorem assertPartialMatch_eq_ok {pattern matched newLines : List (List Char)} {start : Nat} :
    assertPartialMatch pattern matched newLines start = .ok () ↔
      ∀ pair ∈ pattern.zip matched, KeepsRemainder newLines pair.1 pair.2 := by
  have hall : (∀ pair ∈ pattern.zip matched, KeepsRemainder newLines pair.1 pair.2) ↔
      ∀ x ∈ (pattern.zip matched).zipIdx,
        discarded (joinLines (newLines.map normalizeForFuzzy)) x.1.1 x.1.2 = none := by
    simp only [discarded_eq_none]
    constructor
    · exact fun h x hx => h _ (List.fst_mem_of_mem_zipIdx hx)
    · intro h pair hpair
      obtain ⟨i, hi, rfl⟩ := List.mem_iff_getElem.1 hpair
      exact h ((pattern.zip matched)[i], i) (List.mk_mem_zipIdx_iff_getElem?.2 (List.getElem?_eq_getElem hi))
  rw [hall, assertPartialMatch]
  simp only
  split
  · next offset part hsome =>
    refine iff_of_false (fun h => by cases h) fun h => ?_
    obtain ⟨x, hx, hpart⟩ := List.exists_of_findSome?_eq_some hsome
    rw [h x hx] at hpart
    cases hpart
  · next hnone =>
    refine iff_of_true rfl fun x hx => ?_
    exact Option.map_eq_none_iff.1 (List.findSome?_eq_none_iff.1 hnone x hx)

/-! ## Changes -/

/-- A change of the file: the lines `actual` stand for the old lines and become `written`. What the
file has before them on their first line stays, and what it has behind them on their last line. -/
structure Change where
  start : Nat
  lead : List Char := []
  trail : List Char := []
  old : List (List Char)
  actual : List (List Char)
  new : List (List Char)
  written : List (List Char)
  strategy : Option SequenceMatchStrategy
deriving DecidableEq, Repr

namespace Change

/-- Lines with what stays around them. -/
def within (c : Change) (lines : List (List Char)) : List (List Char) :=
  (lines.modifyLast (· ++ c.trail)).modifyHead (c.lead ++ ·)

def patch (c : Change) : Patch (List Char) :=
  ⟨c.start, c.start + c.actual.length, c.within c.written⟩

/-- The lines of the file where the change is. -/
def Stands (lines : List (List Char)) (c : Change) : Prop :=
  (lines.drop c.start).take c.actual.length = c.within c.actual

/-- Where a line of the file holds an old line and more, the new lines keep the rest. -/
def Keeps (c : Change) : Prop := ∀ pair ∈ c.old.zip c.actual, KeepsRemainder c.new pair.1 pair.2

/-- The guard of the source on a change. -/
def guard (c : Change) : Except PatchError Unit := assertPartialMatch c.old c.actual c.new c.start

end Change

def Placement.change (lines : List (List Char)) (p : Placement) : Change where
  start := p.start
  old := p.pattern
  actual := p.matched lines
  new := p.newLines
  written := (p.replacement lines).newLines
  strategy := p.strategy

section

variable {A : Arith} (nfc : List Char → List Char)

/-- The change of a hunk that is matched as one text. -/
def foundChange (content : List Char) (hunk : DiffHunk) (found : FuzzyMatch A.F) : Option Change := do
  let before ← slice content 0 found.startIndex
  let after ← slice content (found.startIndex + byteLen found.actualText) (byteLen content)
  return {
    start := before.count '\n'
    lead := (splitLines before).getLastD []
    trail := (splitLines after).headD []
    old := hunk.oldLines
    actual := splitLines found.actualText
    new := hunk.newLines
    written := splitLines (adjustIndentation (joinLines hunk.oldLines) found.actualText
      (joinLines hunk.newLines))
    strategy := some .character }

/-- The changes that `applyHunks` makes, in the order of the file. -/
def changes (content : List Char) (hunks : List DiffHunk) (threshold : A.F) (allowFuzzy : Bool) :
    Option (List Change) :=
  match bareHunk hunks with
  | some hunk =>
    match characterFound (characterOutcome nfc content hunk threshold allowFuzzy) with
    | .error _ => none
    | .ok found => (foundChange content hunk found).map fun c => [c]
  | none =>
    match placeHunks (A := A) nfc (contentLines content) allowFuzzy 0 hunks with
    | .error _ => none
    | .ok (placements, _) =>
      some ((placements.map (Placement.change (contentLines content))).insertionSort fun a b =>
        a.start ≤ b.start)

end

/-- Equal up to newlines at the end. -/
def SameText (a b : List Char) : Prop := a.rdropWhile (· = '\n') = b.rdropWhile (· = '\n')

/-- The new text is the old one with disjoint ranges of lines replaced, each where its change stands. -/
structure ChangesOnly (content next : List Char) (cs : List Change) : Prop where
  stands : ∀ c ∈ cs, c.Stands (splitLines content)
  ordered : Ordered (splitLines content).length 0 (cs.map Change.patch)
  replaced : SameText next (joinLines (Splice.replaced (splitLines content) (cs.map Change.patch)))

/-! ## Replacing from the back -/

/-- A replacement as a patch of the lines. -/
def LineReplacement.patch (r : LineReplacement) : Patch (List Char) :=
  ⟨r.startIndex, r.startIndex + r.oldLen, r.newLines⟩

/-- Replacements that do not reach into the next one, made from the last to the first: every splice
leaves the lines before it alone. -/
theorem foldlM_spliceLines {rs : List LineReplacement} {lines result : List (List Char)} {cursor : Nat}
    (hoverlap : overlap rs = none) (hcursor : ∀ r ∈ rs.head?, cursor ≤ r.startIndex)
    (h : rs.reverse.foldlM spliceLines lines = some result) :
    Ordered lines.length cursor (rs.map LineReplacement.patch) ∧
      result = lines.take cursor ++ splice lines cursor (rs.map LineReplacement.patch) := by
  induction rs generalizing result cursor with
  | nil =>
    cases h
    exact ⟨trivial, (List.take_append_drop _ _).symm⟩
  | cons r rs ih =>
    rw [List.reverse_cons, List.foldlM_append] at h
    obtain ⟨mid, hmid, h⟩ := Option.bind_eq_some_iff.1 h
    rw [List.foldlM_cons] at h
    obtain ⟨spliced, hsplice, h⟩ := Option.bind_eq_some_iff.1 h
    cases h
    have hstart := hcursor r rfl
    have hnext : overlap rs = none ∧ ∀ q ∈ rs.head?, r.startIndex + r.oldLen ≤ q.startIndex := by
      cases rs with
      | nil => exact ⟨rfl, fun q hq => by cases hq⟩
      | cons q rs =>
        rw [overlap] at hoverlap
        split at hoverlap
        · cases hoverlap
        · next hno =>
          refine ⟨hoverlap, ?_⟩
          rintro _ ⟨⟩
          exact Nat.not_lt.1 hno
    obtain ⟨hordered, rfl⟩ := ih hnext.1 hnext.2 hmid
    rw [spliceLines] at hsplice
    split at hsplice
    · next hle =>
      have hinside : r.startIndex + r.oldLen ≤ lines.length := by
        cases rs with
        | nil => simpa [splice] using hle
        | cons q rs =>
          obtain ⟨h₁, h₂, h₃, -⟩ := hordered
          omega
      cases hsplice
      refine ⟨⟨hstart, Nat.le_add_right _ _, hinside, hordered⟩, ?_⟩
      have hfront : (lines.take (r.startIndex + r.oldLen)).take r.startIndex =
          lines.take cursor ++ (lines.drop cursor).take (r.startIndex - cursor) := by
        rw [List.take_take, Nat.min_eq_left (Nat.le_add_right _ _), ← List.take_add,
          Nat.add_sub_cancel' hstart]
      rw [List.map_cons, splice, List.take_append_of_le_length (by simp; omega), hfront,
        List.drop_append_of_le_length (by simp; omega), List.drop_take_self, List.nil_append]
      simp only [LineReplacement.patch, List.append_assoc]
    · cases hsplice

/-! ## Lines of a text around a part -/

theorem splitLines_cons (c : Char) (text : List Char) : splitLines (c :: text) =
    if c = '\n' then [] :: splitLines text else (splitLines text).modifyHead (c :: ·) := by
  rw [splitLines, List.splitOn_cons_eq_if_modifyHead]
  by_cases hc : c = '\n'
  · rw [if_pos (beq_iff_eq.2 hc), if_pos hc]
    rfl
  · rw [if_neg (by simpa using hc), if_neg hc]
    rfl

/-- The last line of the front goes on with the first line behind it. -/
theorem splitLines_append (a b : List Char) : splitLines (a ++ b) =
    (splitLines a).dropLast ++ (splitLines b).modifyHead ((splitLines a).getLastD [] ++ ·) := by
  induction a with
  | nil =>
    have hnil : splitLines [] = [[]] := rfl
    rw [hnil, List.nil_append]
    cases splitLines b <;> rfl
  | cons c a ih =>
    rw [List.cons_append, splitLines_cons, splitLines_cons, ih]
    obtain ⟨line, rest, hlines⟩ := List.exists_cons_of_ne_nil (splitLines_ne_nil a)
    rw [hlines]
    by_cases hc : c = '\n'
    · rw [if_pos hc, if_pos hc]
      rfl
    · rw [if_neg hc, if_neg hc]
      cases rest with
      | nil => cases splitLines b <;> rfl
      | cons second rest => rfl

theorem length_splitLines (text : List Char) : (splitLines text).length = text.count '\n' + 1 := by
  induction text with
  | nil => rfl
  | cons c text ih =>
    rw [splitLines_cons]
    by_cases hc : c = '\n'
    · rw [if_pos hc, List.length_cons, ih, hc, List.count_cons_self]
    · rw [if_neg hc, List.length_modifyHead, ih, List.count_cons_of_ne hc]

theorem length_modifyLast {α : Type} (f : α → α) (l : List α) : (l.modifyLast f).length = l.length := by
  rcases List.eq_nil_or_concat l with rfl | ⟨l, a, rfl⟩
  · rfl
  · simp only [List.concat_eq_append, List.modifyLast_concat, List.length_append,
      List.length_singleton]

theorem Change.length_within (c : Change) (lines : List (List Char)) :
    (c.within lines).length = lines.length := by
  rw [within, List.length_modifyHead, length_modifyLast]

/-- A part of a text, line by line: the lines in front of it and behind it do not depend on it. -/
theorem splitLines_around (c : Change) {before after : List Char}
    (hlead : c.lead = (splitLines before).getLastD []) (htrail : c.trail = (splitLines after).headD [])
    (part : List Char) : splitLines (before ++ part ++ after) =
      (splitLines before).dropLast ++ c.within (splitLines part) ++ (splitLines after).tail := by
  obtain ⟨front, last, hpart⟩ := (List.eq_nil_or_concat (splitLines part)).resolve_left
    (splitLines_ne_nil part)
  obtain ⟨first, rest, hafter⟩ := List.exists_cons_of_ne_nil (splitLines_ne_nil after)
  rw [List.concat_eq_append] at hpart
  rw [List.append_assoc, splitLines_append, splitLines_append part, ← hlead, Change.within, hpart,
    htrail, hafter, List.modifyLast_concat, List.dropLast_concat, List.getLastD_concat]
  cases front with
  | nil => simp
  | cons line front => simp

/-! ## One text -/

theorem mem_matchIndices {target text : List Char} {offset skip index : Nat}
    (h : index ∈ matchIndices target offset skip text) :
    ∃ before after, text = before ++ target ++ after ∧ index = offset + byteLen before := by
  induction text generalizing offset skip with
  | nil => cases skip <;> cases h
  | cons c text ih =>
    have hlater {skip : Nat} (h : index ∈ matchIndices target (offset + c.utf8Size) skip text) :
        ∃ before after, c :: text = before ++ target ++ after ∧ index = offset + byteLen before := by
      obtain ⟨before, after, rfl, rfl⟩ := ih h
      refine ⟨c :: before, after, rfl, ?_⟩
      rw [byteLen_cons]
      omega
    cases skip with
    | zero =>
      rw [matchIndices] at h
      split at h
      · next hhere =>
        rcases List.mem_cons.1 h with rfl | h
        · obtain ⟨after, hafter⟩ := List.isPrefixOf_iff_prefix.1 hhere
          exact ⟨[], after, hafter.symm, rfl⟩
        · exact hlater h
      · exact hlater h
    | succ skip => exact hlater h

section

variable {A : Arith} {nfc : List Char → List Char}

/-- A match stands where it says. -/
theorem split_of_findMatch {content target : List Char} {allowFuzzy : Bool} {threshold : A.F}
    {m : FuzzyMatch A.F}
    (h : (findMatch A nfc content target allowFuzzy threshold []).matched = some m) :
    ∃ before after, content = before ++ m.actualText ++ after ∧ byteLen before = m.startIndex := by
  by_cases hexact : target <:+: content
  · rw [findMatch] at h
    split at h
    · cases h
    · next htarget =>
      have hne : target ≠ [] := fun hnil => htarget (List.isEmpty_iff.2 hnil)
      have hfilter : ((matchIndices target 0 0 content).filter fun index =>
          !overlapsExcluded index (index + byteLen target) []) = matchIndices target 0 0 content :=
        List.filter_eq_self.2 fun _ _ => rfl
      rw [findExactMatchOutcome] at h
      simp only [hfilter] at h
      cases hindices : matchIndices target 0 0 content with
      | nil => exact absurd hindices (matchIndices_ne_nil hne hexact 0)
      | cons index rest =>
        rw [hindices] at h
        cases rest with
        | cons second rest => cases h
        | nil =>
          cases h
          obtain ⟨before, after, hcontent, hindex⟩ :=
            mem_matchIndices (hindices ▸ List.mem_cons_self : index ∈ matchIndices target 0 0 content)
          exact ⟨before, after, hcontent, by rw [hindex, Nat.zero_add]⟩
  · obtain ⟨i, hhit⟩ := hit_of_findMatch hexact (.inl h)
    exact split_of_hit (List.length_pos_of_ne_nil (splitLines_ne_nil _)) hhit

theorem split_of_characterFound {content : List Char} {hunk : DiffHunk} {threshold : A.F}
    {allowFuzzy : Bool} {m : FuzzyMatch A.F}
    (h : characterFound (characterOutcome nfc content hunk threshold allowFuzzy) = .ok m) :
    ∃ before after, content = before ++ m.actualText ++ after ∧ byteLen before = m.startIndex := by
  have hmatched : (characterOutcome nfc content hunk threshold allowFuzzy).matched = some m := by
    rw [characterFound] at h
    split at h
    · cases h
    · cases h
    · cases h
    · next hsome =>
      cases h
      exact hsome
  rw [characterOutcome] at hmatched
  simp only at hmatched
  generalize (if A.lt threshold (A.lit (92 / 100)) = true then threshold else A.lit (92 / 100)) =
    relaxed at hmatched
  split at hmatched
  · split at hmatched
    · exact split_of_findMatch hmatched
    · exact split_of_findMatch hmatched
  · exact split_of_findMatch hmatched

end

/-! ## What applying a patch changes -/

theorem sameText_restoreNewline (hadNewline : Bool) (text : List Char) :
    SameText (restoreNewline hadNewline text) text := by
  rw [SameText, restoreNewline]
  split
  · split
    · rfl
    · exact List.rdropWhile_concat_pos _ _ _ (by simp)
  · exact List.rdropWhile_idempotent ..

theorem splitLines_eq_contentLines (content : List Char) : splitLines content =
    contentLines content ++ if content.getLast? = some '\n' then [[]] else [] := by
  rw [contentLines]
  split
  · next hlast =>
    obtain ⟨front, rfl⟩ := List.getLast?_eq_some_iff.1 hlast
    have htail : splitLines ['\n'] = [[], []] := rfl
    rw [splitLines_append, htail, List.modifyHead_cons, ← List.singleton_append, ← List.append_assoc,
      List.dropLast_concat]
  · rw [List.append_nil]

theorem Change.Stands.append {c : Change} {lines : List (List Char)} (h : c.Stands lines)
    (hinside : c.start + c.actual.length ≤ lines.length) (rest : List (List Char)) :
    c.Stands (lines ++ rest) := by
  rw [Stands, List.drop_append_of_le_length (by omega),
    List.take_append_of_le_length (by rw [List.length_drop]; omega)]
  exact h

section

variable {lines : List (List Char)} {p : Placement}

theorem within_change (p : Placement) (lines lines' : List (List Char)) :
    (p.change lines).within lines' = lines' := by
  rcases List.eq_nil_or_concat lines' with rfl | ⟨front, last, rfl⟩
  · rfl
  · rw [Change.within, List.concat_eq_append, List.modifyLast_concat]
    cases front <;> simp [Placement.change]

theorem length_matched (h : p.start + p.pattern.length ≤ lines.length) :
    (p.matched lines).length = p.pattern.length := by
  rw [Placement.matched, List.length_take, List.length_drop]
  omega

theorem patch_change (h : p.start + p.pattern.length ≤ lines.length) :
    (p.change lines).patch = (p.replacement lines).patch := by
  rw [Change.patch, within_change, LineReplacement.patch]
  simp only [Placement.change, Placement.replacement, length_matched h]

theorem stands_change (h : p.start + p.pattern.length ≤ lines.length) :
    (p.change lines).Stands lines := by
  rw [Change.Stands, within_change]
  simp only [Placement.change, length_matched h]
  rfl

end

/-- The changes of placements that do not overlap, made from the back. -/
theorem changesOnly_of_spliceLines {content : List Char} {placements : List Placement}
    {rs : List LineReplacement} {result : List (List Char)}
    (hrs : (placements.map (Placement.replacement (contentLines content))).insertionSort
      (fun a b => a.startIndex ≤ b.startIndex) = rs)
    (hoverlap : overlap rs = none)
    (h : rs.reverse.foldlM spliceLines (contentLines content) = some result) {next : List Char}
    (hnext : SameText next
      (joinLines (if content.getLast? = some '\n' then result ++ [[]] else result))) :
    ChangesOnly content next ((placements.map (Placement.change (contentLines content))).insertionSort
      fun a b => a.start ≤ b.start) := by
  have hsorted := List.map_insertionSort (fun a b : Placement => a.start ≤ b.start)
    (fun a b => a.startIndex ≤ b.startIndex) (Placement.replacement (contentLines content))
    placements fun _ _ _ _ => Iff.rfl
  have hchanges := List.map_insertionSort (fun a b : Placement => a.start ≤ b.start)
    (fun a b => a.start ≤ b.start) (Placement.change (contentLines content))
    placements fun _ _ _ _ => Iff.rfl
  rw [← hsorted] at hrs
  rw [← hchanges]
  generalize placements.insertionSort (fun a b => a.start ≤ b.start) = sorted at hrs
  subst hrs
  obtain ⟨hordered, hresult⟩ := foldlM_spliceLines hoverlap (fun r _ => Nat.zero_le _) h
  rw [List.take_zero, List.nil_append, List.map_map] at hresult
  rw [List.map_map] at hordered
  have hinside : ∀ p ∈ sorted, p.start + p.pattern.length ≤ (contentLines content).length :=
    fun p hp => hordered.stop_le _ (List.mem_map_of_mem hp)
  have hpatches : (sorted.map (Placement.change (contentLines content))).map Change.patch =
      sorted.map (LineReplacement.patch ∘ Placement.replacement (contentLines content)) := by
    rw [List.map_map]
    exact List.map_congr_left fun p hp => patch_change (hinside p hp)
  rw [← hpatches] at hordered hresult
  -- The empty line behind the last newline is behind all changes.
  have hfull : Ordered (splitLines content).length 0
      ((sorted.map (Placement.change (contentLines content))).map Change.patch) := by
    refine hordered.mono ?_
    rw [splitLines_eq_contentLines, List.length_append]
    exact Nat.le_add_right _ _
  refine ⟨fun c hc => ?_, hfull, ?_⟩
  · obtain ⟨p, hp, rfl⟩ := List.mem_map.1 hc
    rw [splitLines_eq_contentLines]
    refine (stands_change (hinside p hp)).append ?_ _
    have hlength := length_matched (hinside p hp)
    have hle := hinside p hp
    simp only [Placement.change]
    omega
  · rw [← splice_eq_replaced hfull, splitLines_eq_contentLines,
      splice_append hordered (Nat.zero_le _), ← hresult]
    split
    · next hlast =>
      rw [if_pos hlast] at hnext
      exact hnext
    · next hlast =>
      rw [if_neg hlast] at hnext
      rw [List.append_nil]
      exact hnext

/-- A part of the text that becomes another one. -/
theorem changesOnly_single {c : Change} {before after part text next : List Char}
    (hlead : c.lead = (splitLines before).getLastD []) (htrail : c.trail = (splitLines after).headD [])
    (hstart : c.start = (splitLines before).dropLast.length) (hactual : c.actual = splitLines part)
    (hwritten : c.written = splitLines text) (hnext : SameText next (before ++ text ++ after)) :
    ChangesOnly (before ++ part ++ after) next [c] := by
  have hlines := splitLines_around c hlead htrail
  have hordered : Ordered (splitLines (before ++ part ++ after)).length 0 [c.patch] := by
    refine ⟨Nat.zero_le _, Nat.le_add_right _ _, ?_, trivial⟩
    rw [hlines, Change.patch, hstart, hactual, List.length_append, List.length_append,
      Change.length_within]
    exact Nat.le_add_right _ _
  refine ⟨?_, hordered, ?_⟩
  · rw [List.forall_mem_singleton, Change.Stands, hlines, hstart, hactual, List.append_assoc,
      List.drop_left, ← Change.length_within c (splitLines part), List.take_left]
  · have hspliced : splice (splitLines (before ++ part ++ after)) 0 [c.patch] =
        splitLines (before ++ text ++ after) := by
      rw [splice, splice, Change.patch, hlines, hlines, hactual, hwritten, hstart, List.drop_zero,
        Nat.sub_zero, ← Change.length_within c (splitLines part), ← List.length_append, List.drop_left]
      simp only [List.append_assoc, List.take_left]
    rw [List.map_singleton, ← splice_eq_replaced hordered, hspliced, joinLines_splitLines]
    exact hnext

section

variable {A : Arith} {nfc : List Char → List Char}

/-- The change of a hunk that is matched as one text. -/
theorem changesOnly_foundChange {content next text : List Char} {hunk : DiffHunk} {m : FuzzyMatch A.F}
    (hsplit : ∃ before after, content = before ++ m.actualText ++ after ∧
      byteLen before = m.startIndex)
    (h : replaceFound content hunk m = some text) (hnext : SameText next text) :
    ∃ c, foundChange content hunk m = some c ∧ ChangesOnly content next [c] ∧
      c.strategy = some .character := by
  obtain ⟨before, after, rfl, hstart⟩ := hsplit
  have hbefore : slice (before ++ m.actualText ++ after) 0 m.startIndex = some before := by
    rw [← hstart, List.append_assoc]
    simpa using slice_append [] before (m.actualText ++ after)
  have hafter : slice (before ++ m.actualText ++ after) (m.startIndex + byteLen m.actualText)
      (byteLen (before ++ m.actualText ++ after)) = some after := by
    rw [← hstart, ← byteLen_append, byteLen_append (before ++ m.actualText) after]
    simpa using slice_append (before ++ m.actualText) after []
  simp only [replaceFound, hbefore, hafter, Option.bind_eq_bind, Option.bind_some, Option.pure_def,
    Option.some.injEq] at h
  simp only [foundChange, hbefore, hafter, Option.bind_eq_bind, Option.bind_some, Option.pure_def]
  refine ⟨_, rfl, changesOnly_single rfl rfl ?_ rfl rfl (h ▸ hnext), rfl⟩
  rw [List.length_dropLast, length_splitLines, Nat.add_sub_cancel]

theorem keeps_of_trimEqualAt {p : Placement} {lines : List (List Char)}
    (h : TrimEqualAt lines p.pattern p.start) : (p.change lines).Keeps :=
  fun pair hpair => keepsRemainder_of_eq (normalizeForFuzzy_congr (h pair hpair)).symm

/-- The strategies that can match a part of a line and are not followed by the guard. -/
def isLoose : Option SequenceMatchStrategy → Bool
  | some .commentPrefix | some .unicode | some .fuzzy | some .fuzzyDominant | some .character => true
  | _ => false

/-- Without a loose strategy a placement keeps what it does not match: its lines are equal, or it has
passed the guard. -/
theorem keeps_of_sound {p : Placement} {lines : List (List Char)} (h : p.Sound lines)
    (hloose : isLoose p.strategy = false) : (p.change lines).Keeps := by
  have hguarded (hstrategy : p.strategy = some .linePrefix ∨ p.strategy = some .substring) :
      (p.change lines).Keeps :=
    assertPartialMatch_eq_ok.1 (h.guarded hstrategy)
  have hequal (hplain : isPlain p.strategy = true) : (p.change lines).Keeps :=
    keeps_of_trimEqualAt (h.equal hplain)
  cases hstrategy : p.strategy with
  | none => exact hequal (by rw [hstrategy]; rfl)
  | some strategy =>
    rw [hstrategy] at hloose
    cases strategy with
    | exact => exact hequal (by rw [hstrategy]; rfl)
    | trimTrailing => exact hequal (by rw [hstrategy]; rfl)
    | trim => exact hequal (by rw [hstrategy]; rfl)
    | linePrefix => exact hguarded (.inl hstrategy)
    | substring => exact hguarded (.inr hstrategy)
    | commentPrefix => cases hloose
    | unicode => cases hloose
    | fuzzy => cases hloose
    | fuzzyDominant => cases hloose
    | character => cases hloose

theorem changesOnly_of_applyHunks {content next : List Char} {hunks : List DiffHunk} {threshold : A.F}
    {allowFuzzy : Bool} {warnings : List (Warning A.F)}
    (h : applyHunks nfc content hunks threshold allowFuzzy = some (.ok (next, warnings))) :
    ∃ cs, changes nfc content hunks threshold allowFuzzy = some cs ∧ ChangesOnly content next cs ∧
      ∀ c ∈ cs, isLoose c.strategy = false → c.Keeps := by
  rw [applyHunks] at h
  rw [changes]
  cases hbare : bareHunk hunks with
  | some hunk =>
    rw [hbare] at h
    cases hfound : characterFound (characterOutcome nfc content hunk threshold allowFuzzy) with
    | error e =>
      simp only [hfound] at h
      cases h
    | ok m =>
      simp only [hfound] at h
      obtain ⟨text, htext, hok⟩ := Option.map_eq_some_iff.1 h
      cases hok
      obtain ⟨c, hc, hlocal, hstrategy⟩ := changesOnly_foundChange (split_of_characterFound hfound) htext
        (sameText_restoreNewline (content.getLast? = some '\n') text)
      refine ⟨[c], by simp only [hfound, hc, Option.map_some], hlocal, ?_⟩
      rw [List.forall_mem_singleton, hstrategy]
      intro hloose
      cases hloose
  | none =>
    rw [hbare] at h
    simp only at h
    cases hreplacements : computeReplacements (A := A) nfc (contentLines content) hunks allowFuzzy with
    | error e =>
      rw [hreplacements] at h
      cases h
    | ok pair =>
      obtain ⟨replacements, warnings'⟩ := pair
      rw [hreplacements] at h
      obtain ⟨result, hresult, hok⟩ := Option.map_eq_some_iff.1 h
      cases hok
      rw [computeReplacements] at hreplacements
      obtain ⟨⟨placements, warnings''⟩, hplace, hreplacements⟩ := Except.bind_eq_ok.1 hreplacements
      simp only at hreplacements
      split at hreplacements
      · cases hreplacements
      · next hoverlap =>
        cases hreplacements
        simp only [hplace]
        refine ⟨_, rfl, changesOnly_of_spliceLines rfl hoverlap hresult ?_, ?_⟩
        · refine (sameText_restoreNewline _ _).trans ?_
          simp only [decide_eq_true_eq]
        · intro c hc hloose
          obtain ⟨p, hp, rfl⟩ := List.mem_map.1 (List.mem_insertionSort _ |>.1 hc)
          exact keeps_of_sound (sound_placeHunks hplace p hp) hloose

end

/-- A hunk for the first line. -/
def firstLineHunk : DiffHunk where
  oldStartLine := some 1
  oldLines := ["foo".toList]
  newLines := ["bar".toList]

end OhMyPi.Edit
