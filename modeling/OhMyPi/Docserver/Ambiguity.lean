import Mathlib.Algebra.BigOperators.Group.List.Basic
import OhMyPi.Docserver.Alignment

/-! Whether a rebase depends on which longest alignment the diff has found. A region may be the only
one of its kind in both texts while a part of it is not, so two alignments can carry an edit to
different places: the contents agree for all replacements exactly when that does not happen. -/

namespace OhMyPi.Docserver.Rebase

open Splice

/-! ## Applying ordered patches -/

theorem copyMapped_eq {base : List UInt8} {cursor : Nat} {patches : List (Patch UInt8)}
    (h : Ordered base.length cursor patches) (done : AppliedEdits) : ∃ ranges,
    copyMapped base cursor done patches = .ok ⟨done.content ++ splice base cursor patches, ranges⟩ := by
  induction patches generalizing cursor done with
  | nil => exact ⟨_, rfl⟩
  | cons p patches ih =>
    obtain ⟨hstart, hle, hstop, hrest⟩ := h
    rw [copyMapped, if_neg (by omega)]
    simp only
    obtain ⟨ranges, hranges⟩ := ih hrest ⟨_, _⟩
    refine ⟨ranges, hranges.trans ?_⟩
    rw [splice]
    simp only [List.append_assoc]

theorem length_of_finalLength {base : List UInt8} {cursor length n : Nat}
    {patches : List (Patch UInt8)} (h : Ordered base.length cursor patches)
    (hn : finalLength length patches = .ok n) :
    n + (base.length - cursor) = length + (splice base cursor patches).length := by
  induction patches generalizing cursor length with
  | nil =>
    cases hn
    rw [splice, List.length_drop]
  | cons p patches ih =>
    obtain ⟨hstart, hle, hstop, hrest⟩ := h
    rw [finalLength, if_neg (by omega), Except.ite_error_eq_ok] at hn
    have := ih hrest hn.2
    rw [splice, List.length_append, List.length_append, List.length_take, List.length_drop]
    omega

theorem finalLength_of_lt {base : List UInt8} {cursor length : Nat} {patches : List (Patch UInt8)}
    (h : Ordered base.length cursor patches) (hlength : base.length - cursor ≤ length)
    (hlt : length + (patches.map fun p => p.text.length).sum < usizeLimit) :
    ∃ n, finalLength length patches = .ok n := by
  induction patches generalizing cursor length with
  | nil => exact ⟨_, rfl⟩
  | cons p patches ih =>
    obtain ⟨hstart, hle, hstop, hrest⟩ := h
    rw [List.map_cons, List.sum_cons] at hlt
    rw [finalLength, if_neg (by omega), if_neg (by omega)]
    exact ih hrest (by omega) (by omega)

/-- Applying patches that lie one behind the other replaces their ranges at once. -/
theorem applyMapped_eq_ok {base : List UInt8} {patches : List (Patch UInt8)} {applied : AppliedEdits}
    (h : Ordered base.length 0 patches) (ha : applyMapped base patches = .ok applied) :
    applied.content = splice base 0 patches := by
  rw [applyMapped] at ha
  split at ha
  · next hempty =>
    cases ha
    rw [List.isEmpty_iff.1 hempty]
    rfl
  · obtain ⟨n, -, ha⟩ := Except.bind_eq_ok.1 ha
    obtain ⟨done, hcopy, ha⟩ := Except.bind_eq_ok.1 ha
    obtain ⟨ranges, hranges⟩ := copyMapped_eq h ⟨[], []⟩
    rw [hranges] at hcopy
    cases hcopy
    rw [Except.ite_error_eq_ok] at ha
    cases ha.2
    rfl

theorem applyMapped_of_lt {base : List UInt8} {patches : List (Patch UInt8)}
    (h : Ordered base.length 0 patches)
    (hlt : base.length + (patches.map fun p => p.text.length).sum < usizeLimit) :
    ∃ applied, applyMapped base patches = .ok applied := by
  rw [applyMapped]
  split
  · exact ⟨_, rfl⟩
  · obtain ⟨n, hn⟩ := finalLength_of_lt h (Nat.sub_le _ _) hlt
    obtain ⟨ranges, hranges⟩ := copyMapped_eq h ⟨[], []⟩
    have hlength := length_of_finalLength h hn
    rw [hn, hranges, Except.ok_bind, Except.ok_bind]
    rw [if_neg (by simp only [List.nil_append, ne_eq, Decidable.not_not]; omega)]
    exact ⟨_, rfl⟩

/-- Contents that go apart: of two first patches behind the cursor, the one in front puts another byte
where the text goes on in the other. -/
theorem splice_ne_of_lt {t : List UInt8} {cursor : Nat} {p q : Patch UInt8}
    {ps qs : List (Patch UInt8)} (hcursor : cursor ≤ p.start) (hlt : p.start < q.start)
    (hlen : q.start ≤ t.length) {x : UInt8} (htext : p.text = [x]) (hx : t[p.start]? ≠ some x) :
    splice t cursor (p :: ps) ≠ splice t cursor (q :: qs) := by
  intro heq
  have hleft : (splice t cursor (p :: ps))[p.start - cursor]? = some x := by
    rw [splice, htext, List.append_assoc, List.getElem?_append_right (by rw [List.length_take]; omega)]
    have : (List.take (p.start - cursor) (List.drop cursor t)).length = p.start - cursor := by
      simp
      omega
    rw [this, Nat.sub_self]
    rfl
  have hright : (splice t cursor (q :: qs))[p.start - cursor]? = t[p.start]? := by
    rw [splice, List.append_assoc, List.getElem?_append_left (by simp; omega),
      List.getElem?_take_of_lt (by omega), List.getElem?_drop]
    congr 1
    omega
  rw [heq, hright] at hleft
  exact hx hleft

/-- Copying from patch to patch goes on alike behind the same patches. -/
theorem splice_append {t : List UInt8} (cursor : Nat) (ps : List (Patch UInt8)) :
    ∃ copied cursor', (∀ rest, splice t cursor (ps ++ rest) = copied ++ splice t cursor' rest) ∧
      ∀ length rest, Ordered length cursor (ps ++ rest) → Ordered length cursor' rest := by
  induction ps generalizing cursor with
  | nil => exact ⟨[], cursor, fun rest => rfl, fun length rest h => h⟩
  | cons p ps ih =>
    obtain ⟨copied, cursor', hsplice, hordered⟩ := ih p.stop
    refine ⟨(t.drop cursor).take (p.start - cursor) ++ p.text ++ copied, cursor', fun rest => ?_,
      fun length rest h => hordered length rest h.2.2.2⟩
    rw [List.cons_append, splice, hsplice, List.append_assoc _ copied]

theorem ordered_of_pairwise {length cursor : Nat} {patches : List (Patch UInt8)}
    (hbounds : ∀ p ∈ patches, cursor ≤ p.start ∧ p.start ≤ p.stop ∧ p.stop ≤ length)
    (hpairs : patches.Pairwise fun p q => p.stop ≤ q.start) : Ordered length cursor patches := by
  induction patches generalizing cursor with
  | nil => trivial
  | cons p patches ih =>
    obtain ⟨hfirst, hrest⟩ := List.pairwise_cons.1 hpairs
    obtain ⟨hstart, hle, hstop⟩ := hbounds p List.mem_cons_self
    refine ⟨hstart, hle, hstop, ih (fun q hq => ?_) hrest⟩
    exact ⟨hfirst q hq, (hbounds q (List.mem_cons_of_mem _ hq)).2⟩

/-! ## What a rebase does -/

/-- Where a diff carries an edit. -/
def carried (base head : Bytes) (ops : List DiffOp) (edit : ByteEdit) : Option (Nat × Nat) :=
  mapRange edit.range base.data head.data (equalRegions base.data head.data ops)

/-- The diff carries every edit of the list. -/
def CarriesAll (base head : Bytes) (ops : List DiffOp) (edits : List ByteEdit) : Prop :=
  ∀ edit ∈ edits, (carried base head ops edit).isSome = true

theorem conflictsFrom_eq_nil {place : ByteEdit → Option (Nat × Nat)} {conflicts : List ByteRange}
    {edits : List ByteEdit} : conflictsFrom place conflicts edits = [] ↔
      conflicts = [] ∧ ∀ edit ∈ edits, (place edit).isSome = true := by
  induction edits generalizing conflicts with
  | nil => simp [conflictsFrom]
  | cons edit edits ih =>
    rw [conflictsFrom, List.forall_mem_cons]
    split
    · next hsome =>
      rw [ih]
      simp [hsome]
    · next hnone =>
      have hne : ¬ (conflicts = [] ∧ (place edit).isSome = true ∧
          ∀ edit ∈ edits, (place edit).isSome = true) := fun h => hnone h.2.1
      split
      · rw [ih]
        simp [hne]
      · next hlast =>
        rw [ih]
        refine ⟨fun h => ?_, fun h => absurd h hne⟩
        rw [h.1] at hlast
        simp at hlast

/-- The patch of the head that an edit becomes. -/
def patchOf (base head : Bytes) (ops : List DiffOp) (edit : ByteEdit) : Option (Patch UInt8) :=
  (carried base head ops edit).map edit.mapped

/-- The patches of the head that the edits become. -/
def mappedEdits (base head : Bytes) (ops : List DiffOp) (edits : List ByteEdit) :
    List (Patch UInt8) :=
  (uniqueEdits edits).filterMap (patchOf base head ops)

/-- `rebase_edits` onto another head: the patches are applied when there is no conflict. -/
theorem rebaseEdits_of_ne {base head : Bytes} (hne : base ≠ head) {edits : List ByteEdit}
    (hvalid : validateEdits base.data.length edits = .ok ()) (ops : List DiffOp) :
    (CarriesAll base head ops edits ∧ rebaseEdits base head ops edits =
        (applyMapped head.data (mappedEdits base head ops edits)).map .ok) ∨
      (¬ CarriesAll base head ops edits ∧
        ∃ conflicts, rebaseEdits base head ops edits = .ok (.error conflicts)) := by
  rw [rebaseEdits, hvalid, Except.ok_bind, if_neg hne]
  simp only
  have hall : conflictsFrom (fun edit : ByteEdit => mapRange edit.range base.data head.data
      (equalRegions base.data head.data ops)) [] (uniqueEdits edits) = [] ↔
        CarriesAll base head ops edits := by
    rw [conflictsFrom_eq_nil]
    simp only [mem_uniqueEdits, true_and]
    rfl
  by_cases hcarries : CarriesAll base head ops edits
  · refine .inl ⟨hcarries, ?_⟩
    rw [hall.2 hcarries, if_pos List.isEmpty_nil]
    change (applyMapped head.data (mappedEdits base head ops edits) >>= fun applied =>
      pure (Except.ok applied)) = _
    cases applyMapped head.data (mappedEdits base head ops edits) <;> rfl
  · refine .inr ⟨hcarries, _, if_neg fun hempty => hcarries (hall.1 (List.isEmpty_iff.1 hempty))⟩

/-- The patch replaces, in the head, the bytes that the edit replaces in the base. -/
structure Carries (base head : Bytes) (edit : ByteEdit) (patch : Patch UInt8) : Prop where
  width : patch.stop = patch.start + (edit.range.stop - edit.range.start)
  bound : patch.stop ≤ head.data.length
  same : (base.data.drop edit.range.start).take (edit.range.stop - edit.range.start) =
    (head.data.drop patch.start).take (edit.range.stop - edit.range.start)
  text : patch.text = edit.replacement.data

/-- The result is the head with the edited bytes replaced where they are now. -/
def Lands (base head : Bytes) (edits : List ByteEdit) (applied : AppliedEdits) : Prop :=
  ∃ patches, List.Forall₂ (Carries base head) (uniqueEdits edits) patches ∧
    Ordered head.data.length 0 patches ∧ applied.content = replaced head.data patches

theorem carries_of_carried {base head : Bytes} {ops : List DiffOp}
    (hwalk : Walk base.data head.data 0 0 ops) {edit : ByteEdit} {target : Nat × Nat}
    (h : carried base head ops edit = some target) : Carries base head edit (edit.mapped target) := by
  obtain ⟨hwidth, hbound, hsame⟩ := mapRange_spec hwalk h
  exact ⟨hwidth, hbound, hsame, rfl⟩

theorem mapped_forall₂ {base head : Bytes} {ops : List DiffOp}
    (hwalk : Walk base.data head.data 0 0 ops) {edits : List ByteEdit}
    (hall : ∀ e ∈ edits, (carried base head ops e).isSome = true)
    (hpairs : edits.Pairwise ByteEdit.Before) :
    List.Forall₂ (Carries base head) edits
        (edits.filterMap (patchOf base head ops)) ∧
      (edits.filterMap (patchOf base head ops)).Pairwise fun p q => p.stop ≤ q.start := by
  induction edits with
  | nil => exact ⟨.nil, .nil⟩
  | cons edit edits ih =>
    obtain ⟨hsome, hrest⟩ := List.forall_mem_cons.1 hall
    obtain ⟨hfirst, hpairs⟩ := List.pairwise_cons.1 hpairs
    obtain ⟨target, htarget⟩ := Option.isSome_iff_exists.1 hsome
    obtain ⟨hcarries, hsorted⟩ := ih hrest hpairs
    have hhead : patchOf base head ops edit = some (edit.mapped target) := by
      rw [patchOf, htarget]
      rfl
    rw [List.filterMap_cons_some hhead]
    refine ⟨.cons (carries_of_carried hwalk htarget) hcarries, List.pairwise_cons.2 ⟨?_, hsorted⟩⟩
    intro q hq
    obtain ⟨e', he', hq⟩ := List.mem_filterMap.1 hq
    obtain ⟨target', htarget', rfl⟩ := Option.map_eq_some_iff.1 hq
    exact mapRange_mono hwalk (hfirst e' he') htarget htarget'

theorem ordered_of_carries {base head : Bytes} {edits : List ByteEdit} {patches : List (Patch UInt8)}
    (h : List.Forall₂ (Carries base head) edits patches)
    (hpairs : patches.Pairwise fun p q => p.stop ≤ q.start) :
    Ordered head.data.length 0 patches := by
  refine ordered_of_pairwise (fun p hp => ?_) hpairs
  have hbounds : ∀ p ∈ patches, p.start ≤ p.stop ∧ p.stop ≤ head.data.length := by
    clear hpairs hp
    induction h with
    | nil => exact fun p hp => absurd hp List.not_mem_nil
    | cons hc _ ih =>
      refine List.forall_mem_cons.2 ⟨⟨?_, hc.bound⟩, ih⟩
      rw [hc.width]
      exact Nat.le_add_right _ _
  exact ⟨Nat.zero_le _, hbounds p hp⟩

theorem mappedEdits_spec {base head : Bytes} {ops : List DiffOp}
    (hwalk : Walk base.data head.data 0 0 ops) {edits : List ByteEdit}
    (hvalid : validateEdits base.data.length edits = .ok ())
    (hall : CarriesAll base head ops edits) :
    List.Forall₂ (Carries base head) (uniqueEdits edits) (mappedEdits base head ops edits) ∧
      Ordered head.data.length 0 (mappedEdits base head ops edits) := by
  obtain ⟨hcarries, hsorted⟩ := mapped_forall₂ hwalk
    (fun e he => hall e (mem_uniqueEdits.1 he)) (uniqueFrom_ordered hvalid).2
  exact ⟨hcarries, ordered_of_carries hcarries hsorted⟩

/-- A successful rebase replaces the edited bytes where they are now. -/
theorem lands_of_rebaseEdits {base head : Bytes} {ops : List DiffOp}
    (hwalk : Walk base.data head.data 0 0 ops) {edits : List ByteEdit} {applied : AppliedEdits}
    (h : rebaseEdits base head ops edits = .ok (.ok applied)) : Lands base head edits applied := by
  have hvalid : validateEdits base.data.length edits = .ok () := by
    rw [rebaseEdits, Except.unit_bind_eq_ok] at h
    exact h.1
  by_cases hne : base = head
  · subst hne
    rw [rebaseEdits, hvalid, Except.ok_bind, if_pos rfl, applyEdits, hvalid, Except.ok_bind] at h
    obtain ⟨applied', happly, h⟩ := Except.bind_eq_ok.1 h
    cases h
    obtain ⟨hbounds, hpairs⟩ := uniqueFrom_ordered hvalid
    have hcarries : List.Forall₂ (Carries base base) (uniqueEdits edits)
        ((uniqueEdits edits).map fun edit => edit.mapped (edit.range.start, edit.range.stop)) := by
      refine List.forall₂_map_right_iff.2
        (List.forall₂_same.2 fun e he => ⟨?_, (hbounds e he).1, rfl, rfl⟩)
      have := e.range.ordered
      simp only [ByteEdit.mapped]
      omega
    have hsorted := ordered_of_carries hcarries (List.pairwise_map.2 (hpairs.imp fun hb => hb.2))
    refine ⟨_, hcarries, hsorted, ?_⟩
    rw [applyMapped_eq_ok hsorted happly, splice_eq_replaced hsorted]
  · rcases rebaseEdits_of_ne hne hvalid ops with ⟨hall, heq⟩ | ⟨-, conflicts, heq⟩
    · rw [heq, Except.map_eq_ok] at h
      obtain ⟨applied', happly, h⟩ := h
      cases h
      obtain ⟨hcarries, hsorted⟩ := mappedEdits_spec hwalk hvalid hall
      refine ⟨_, hcarries, hsorted, ?_⟩
      rw [applyMapped_eq_ok hsorted happly, splice_eq_replaced hsorted]
    · rw [heq] at h
      cases h

/-! ## Two alignments -/

/-- No success depends on the alignment: whichever longest one is used, the result is the same content
or a conflict, and it is the head with the edited bytes replaced. -/
def Honest (base head : Bytes) (edits : List ByteEdit) : Prop :=
  ∀ ops applied, Longest base.data head.data ops →
    rebaseEdits base head ops edits = .ok (.ok applied) →
    Lands base head edits applied ∧ ∀ ops', Longest base.data head.data ops' →
      (∃ applied', rebaseEdits base head ops' edits = .ok (.ok applied') ∧
        applied'.content = applied.content) ∨
      ∃ conflicts, rebaseEdits base head ops' edits = .ok (.error conflicts)

/-- Longest alignments that carry all the edits carry each of them to the same place. -/
def Steady (base head : Bytes) (edits : List ByteEdit) : Prop :=
  base ≠ head → ∀ ops ops', Longest base.data head.data ops → Longest base.data head.data ops' →
    CarriesAll base head ops edits → CarriesAll base head ops' edits →
    ∀ edit ∈ edits, carried base head ops edit = carried base head ops' edit

theorem honest_of_steady {base head : Bytes} {edits : List ByteEdit}
    (hvalid : validateEdits base.data.length edits = .ok ()) (h : Steady base head edits) :
    Honest base head edits := by
  intro ops applied hops hrebase
  refine ⟨lands_of_rebaseEdits hops.walk hrebase, fun ops' hops' => ?_⟩
  by_cases hne : base = head
  · refine .inl ⟨applied, ?_, rfl⟩
    rw [rebaseEdits, hvalid, Except.ok_bind, if_pos hne] at hrebase ⊢
    exact hrebase
  · rcases rebaseEdits_of_ne hne hvalid ops with ⟨hall, heq⟩ | ⟨-, conflicts, heq⟩
    · rcases rebaseEdits_of_ne hne hvalid ops' with ⟨hall', heq'⟩ | ⟨-, hconflict⟩
      · refine .inl ⟨applied, ?_, rfl⟩
        have hsame : mappedEdits base head ops' edits = mappedEdits base head ops edits := by
          refine List.filterMap_congr fun e he => ?_
          rw [patchOf, patchOf, h hne ops ops' hops hops' hall hall' e (mem_uniqueEdits.1 he)]
        rw [heq', hsame, ← heq, hrebase]
      · exact .inr hconflict
    · rw [heq] at hrebase
      cases hrebase

theorem carried_retext (base head : Bytes) (ops : List DiffOp) (replace : ByteRange → Bytes)
    (edit : ByteEdit) :
    carried base head ops (edit.retext replace) = carried base head ops edit := rfl

theorem carriesAll_retext {base head : Bytes} {ops : List DiffOp} {edits : List ByteEdit}
    (replace : ByteRange → Bytes) (h : CarriesAll base head ops edits) :
    CarriesAll base head ops (edits.map (·.retext replace)) := by
  intro edit hedit
  obtain ⟨edit, hmem, rfl⟩ := List.mem_map.1 hedit
  exact h edit hmem

theorem patchOf_retext {base head : Bytes} {ops : List DiffOp} {edit : ByteEdit}
    (replace : ByteRange → Bytes) {target : Nat × Nat}
    (h : carried base head ops edit = some target) :
    patchOf base head ops (edit.retext replace) =
      some ⟨target.1, target.2, (replace edit.range).data⟩ := by
  rw [patchOf, carried_retext, h]
  rfl

/-- The first edit that two alignments carry to different places. -/
theorem exists_first_apart {base head : Bytes} {ops ops' : List DiffOp} {edits : List ByteEdit}
    (h : ∃ edit ∈ edits, carried base head ops edit ≠ carried base head ops' edit) :
    ∃ front edit back, edits = front ++ edit :: back ∧
      (∀ e ∈ front, carried base head ops e = carried base head ops' e) ∧
      carried base head ops edit ≠ carried base head ops' edit := by
  induction edits with
  | nil =>
    obtain ⟨edit, hedit, -⟩ := h
    cases hedit
  | cons e edits ih =>
    by_cases hsame : carried base head ops e = carried base head ops' e
    · obtain ⟨edit, hedit, hne⟩ := h
      have hin : edit ∈ edits := by
        rcases List.mem_cons.1 hedit with rfl | hin
        · exact absurd hsame hne
        · exact hin
      obtain ⟨front, edit', back, rfl, hfront, hedit'⟩ := ih ⟨edit, hin, hne⟩
      exact ⟨e :: front, edit', back, rfl, List.forall_mem_cons.2 ⟨hsame, hfront⟩, hedit'⟩
    · exact ⟨[], e, edits, rfl, fun e he => absurd he List.not_mem_nil, hsame⟩

/-- One byte for the given range, nothing for the others. -/
def mark (range : ByteRange) (x : UInt8) : ByteRange → Bytes :=
  fun r => if r = range then ⟨[x], Nat.one_lt_two_pow (by decide)⟩ else Bytes.empty

theorem sum_text_mark (base head : Bytes) (ops : List DiffOp) {range : ByteRange} (x : UInt8)
    {edits : List ByteEdit} (h : ∀ e ∈ edits, e.range ≠ range) :
    (((edits.map (·.retext (mark range x))).filterMap (patchOf base head ops)).map
      fun p => p.text.length).sum = 0 := by
  refine List.sum_eq_zero fun n hn => ?_
  obtain ⟨p, hp, rfl⟩ := List.mem_map.1 hn
  obtain ⟨e, he, hp⟩ := List.mem_filterMap.1 hp
  obtain ⟨e, hmem, rfl⟩ := List.mem_map.1 he
  obtain ⟨target, -, rfl⟩ := Option.map_eq_some_iff.1 hp
  have hempty : mark range x e.range = Bytes.empty := if_neg (h e hmem)
  simp only [ByteEdit.mapped, ByteEdit.retext, hempty]
  rfl

/-- The marked patches around the edit that is carried apart. -/
theorem mappedEdits_mark {base head : Bytes} {ops : List DiffOp} {edits : List ByteEdit}
    (hvalid : validateEdits base.data.length edits = .ok ()) {front back : List ByteEdit}
    {edit : ByteEdit} (hsplit : uniqueEdits edits = front ++ edit :: back) {target : Nat × Nat}
    (htarget : carried base head ops edit = some target) (x : UInt8) :
    mappedEdits base head ops (edits.map (·.retext (mark edit.range x))) =
      (front.map (·.retext (mark edit.range x))).filterMap (patchOf base head ops) ++
        ⟨target.1, target.2, [x]⟩ ::
          (back.map (·.retext (mark edit.range x))).filterMap (patchOf base head ops) := by
  have hunique : uniqueEdits (edits.map (·.retext (mark edit.range x))) =
      (uniqueEdits edits).map (·.retext (mark edit.range x)) := (retext_from hvalid _).2
  have hpatch := patchOf_retext (mark edit.range x) htarget
  rw [mark, if_pos rfl] at hpatch
  rw [mappedEdits, hunique, hsplit, List.map_append, List.map_cons, List.filterMap_append,
    List.filterMap_cons_some hpatch]

/-- When alignments carry an edit apart, a replacement of one byte shows it. -/
theorem not_honest_of_lt {base head : Bytes} (hne : base ≠ head) {edits : List ByteEdit}
    (hvalid : validateEdits base.data.length edits = .ok ()) {ops ops' : List DiffOp}
    (hops : Longest base.data head.data ops) (hops' : Longest base.data head.data ops')
    (hall : CarriesAll base head ops edits) (hall' : CarriesAll base head ops' edits)
    {front back : List ByteEdit} {edit : ByteEdit}
    (hsplit : uniqueEdits edits = front ++ edit :: back)
    (hfront : ∀ e ∈ front, carried base head ops e = carried base head ops' e)
    {target target' : Nat × Nat} (htarget : carried base head ops edit = some target)
    (htarget' : carried base head ops' edit = some target') (hlt : target.1 < target'.1) :
    ∃ replace, ¬ Honest base head (edits.map (·.retext replace)) := by
  have hbound : target'.1 ≤ head.data.length := by
    obtain ⟨hwidth, hle, -⟩ := mapRange_spec hops'.walk htarget'
    omega
  -- A byte that does not stand in the head where the first alignment puts it.
  obtain ⟨x, hx⟩ : ∃ x : UInt8, head.data[target.1]? ≠ some x := by
    rw [List.getElem?_eq_getElem (by omega)]
    generalize head.data[target.1] = b
    refine ⟨b + 1, fun h => ?_⟩
    have hnat := congrArg UInt8.toNat (Option.some.inj h)
    rw [UInt8.toNat_add] at hnat
    have := b.toNat_lt
    simp only [UInt8.toNat_one] at hnat
    omega
  refine ⟨mark edit.range x, fun hhonest => ?_⟩
  have hvalid' : validateEdits base.data.length (edits.map (·.retext (mark edit.range x))) = .ok () :=
    (retext_from hvalid _).1
  have hmapped := mappedEdits_mark hvalid hsplit htarget x
  have hmapped' := mappedEdits_mark hvalid hsplit htarget' x
  have hfrontSame : (front.map (·.retext (mark edit.range x))).filterMap (patchOf base head ops') =
      (front.map (·.retext (mark edit.range x))).filterMap (patchOf base head ops) := by
    refine List.filterMap_congr fun e he => ?_
    obtain ⟨e, hmem, rfl⟩ := List.mem_map.1 he
    rw [patchOf, patchOf, carried_retext, carried_retext, hfront e hmem]
  rw [hfrontSame] at hmapped'
  have hsorted := (mappedEdits_spec hops.walk hvalid' (carriesAll_retext _ hall)).2
  have hsorted' := (mappedEdits_spec hops'.walk hvalid' (carriesAll_retext _ hall')).2
  have hpairs := (uniqueFrom_ordered hvalid).2
  rw [← uniqueEdits, hsplit, List.pairwise_append, List.pairwise_cons] at hpairs
  have hsum : ((mappedEdits base head ops (edits.map (·.retext (mark edit.range x)))).map
      fun p => p.text.length).sum = 1 := by
    have h1 := sum_text_mark base head ops x
      fun e (he : e ∈ front) heq => (hpairs.2.2 e he edit List.mem_cons_self).1.ne (by rw [heq])
    have h2 := sum_text_mark base head ops x
      fun e (he : e ∈ back) heq => (hpairs.2.1.1 e he).1.ne' (by rw [heq])
    rw [hmapped, List.map_append, List.map_cons, List.sum_append, List.sum_cons, h1, h2]
    rfl
  have hroom : head.data.length + ((mappedEdits base head ops
      (edits.map (·.retext (mark edit.range x)))).map fun p => p.text.length).sum < usizeLimit := by
    have hhead := head.bounded
    rw [hsum, usizeLimit]
    omega
  obtain ⟨applied, happlied⟩ := applyMapped_of_lt hsorted hroom
  have hrebase : rebaseEdits base head ops (edits.map (·.retext (mark edit.range x))) =
      .ok (.ok applied) := by
    rcases rebaseEdits_of_ne hne hvalid' ops with ⟨-, heq⟩ | ⟨hnot, -⟩
    · rw [heq, happlied]
      rfl
    · exact absurd (carriesAll_retext _ hall) hnot
  rcases (hhonest ops applied hops hrebase).2 ops' hops' with ⟨applied', hrebase', hcontent⟩ |
    ⟨conflicts, hconflict⟩
  · rcases rebaseEdits_of_ne hne hvalid' ops' with ⟨-, heq⟩ | ⟨hnot, -⟩
    · rw [heq, Except.map_eq_ok] at hrebase'
      obtain ⟨applied'', happlied'', heq'⟩ := hrebase'
      cases heq'
      rw [applyMapped_eq_ok hsorted' happlied'', applyMapped_eq_ok hsorted happlied, hmapped,
        hmapped'] at hcontent
      rw [hmapped] at hsorted
      obtain ⟨copied, cursor, hsplice, hordered⟩ := splice_append (t := head.data) 0
        ((front.map (·.retext (mark edit.range x))).filterMap (patchOf base head ops))
      rw [hsplice, hsplice] at hcontent
      exact splice_ne_of_lt (hordered _ _ hsorted).1 hlt hbound rfl hx
        (List.append_cancel_left hcontent).symm
    · exact absurd (carriesAll_retext _ hall') hnot
  · rcases rebaseEdits_of_ne hne hvalid' ops' with ⟨-, heq⟩ | ⟨hnot, -⟩
    · rw [heq, Except.map_eq_ok] at hconflict
      obtain ⟨applied'', -, heq'⟩ := hconflict
      cases heq'
    · exact absurd (carriesAll_retext _ hall') hnot

namespace Doubled

/-- "xay" -/
def base : Bytes := ⟨[120, 97, 121], by decide⟩

/-- "xaay" -/
def head : Bytes := ⟨[120, 97, 97, 121], by decide⟩

/-- The byte "a" becomes "Z". -/
def edits : List ByteEdit := [⟨⟨1, 2, by decide⟩, ⟨[90], by decide⟩⟩]

/-- The first "a" of the head is the old one. -/
def early : List DiffOp := [.equal 0 0 2, .insert 2 2 1, .equal 2 3 1]

/-- The second "a" of the head is the old one. -/
def late : List DiffOp := [.equal 0 0 1, .insert 1 1 1, .equal 1 2 2]

theorem longest_early : Longest base.data head.data early where
  walk := by simp [early, Walk, base, head]
  longest ops h := by
    have := matched_le h
    simp only [early, matched, base, List.length_cons, List.length_nil] at this ⊢
    omega

theorem longest_late : Longest base.data head.data late where
  walk := by simp [late, Walk, base, head]
  longest ops h := by
    have := matched_le h
    simp only [late, matched, base, List.length_cons, List.length_nil] at this ⊢
    omega

end Doubled

end OhMyPi.Docserver.Rebase
