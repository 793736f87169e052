import OhMyPi.Docserver.Rebase

/-! Which alignments a diff may return, and what a rebase over one of them does. -/

namespace OhMyPi.Docserver.Rebase

open Splice

/-! ## Alignments -/

/-- The operations lead from the given offsets to the ends of both texts. Neighbouring equal regions
are one region. -/
def Walk (base head : List UInt8) : Nat → Nat → List DiffOp → Prop
  | i, j, [] => i = base.length ∧ j = head.length
  | i, j, .equal oldIndex newIndex len :: ops =>
    oldIndex = i ∧ newIndex = j ∧ 0 < len ∧ i + len ≤ base.length ∧ j + len ≤ head.length ∧
      (base.drop i).take len = (head.drop j).take len ∧
      (∀ a b n, ops.head? ≠ some (.equal a b n)) ∧ Walk base head (i + len) (j + len) ops
  | i, j, .delete oldIndex oldLen newIndex :: ops =>
    oldIndex = i ∧ newIndex = j ∧ 0 < oldLen ∧ Walk base head (i + oldLen) j ops
  | i, j, .insert oldIndex newIndex newLen :: ops =>
    oldIndex = i ∧ newIndex = j ∧ 0 < newLen ∧ Walk base head i (j + newLen) ops
  | i, j, .replace oldIndex oldLen newIndex newLen :: ops =>
    oldIndex = i ∧ newIndex = j ∧ 0 < oldLen ∧ 0 < newLen ∧
      Walk base head (i + oldLen) (j + newLen) ops

/-- The number of bytes that are matched. -/
def matched : List DiffOp → Nat
  | [] => 0
  | .equal _ _ len :: ops => len + matched ops
  | _ :: ops => matched ops

/-- The operations match a longest common subsequence. -/
structure Longest (base head : List UInt8) (ops : List DiffOp) : Prop where
  walk : Walk base head 0 0 ops
  longest : ∀ ops', Walk base head 0 0 ops' → matched ops' ≤ matched ops

theorem matched_le {base head : List UInt8} {i j : Nat} {ops : List DiffOp}
    (h : Walk base head i j ops) : i + matched ops ≤ base.length := by
  induction ops generalizing i j with
  | nil => exact h.1.le
  | cons op ops ih =>
    cases op with
    | equal oldIndex newIndex len =>
      have := ih h.2.2.2.2.2.2.2
      rw [matched]
      omega
    | delete oldIndex oldLen newIndex =>
      have := ih h.2.2.2
      rw [matched] <;> first | omega | simp
    | insert oldIndex newIndex newLen =>
      have := ih h.2.2.2
      rw [matched] <;> first | omega | simp
    | replace oldIndex oldLen newIndex newLen =>
      have := ih h.2.2.2.2
      rw [matched] <;> first | omega | simp

/-- What an equal region says about the texts. -/
structure Sound (base head : List UInt8) (region : EqualRegion) : Prop where
  le : region.baseStart ≤ region.baseEnd
  width : region.headEnd - region.headStart = region.baseEnd - region.baseStart
  headLe : region.headStart ≤ region.headEnd
  baseBound : region.baseEnd ≤ base.length
  headBound : region.headEnd ≤ head.length
  same : (base.drop region.baseStart).take (region.baseEnd - region.baseStart) =
    (head.drop region.headStart).take (region.baseEnd - region.baseStart)

/-- One region lies in front of another in both texts. -/
def EqualRegion.Before (r r' : EqualRegion) : Prop :=
  r.baseEnd ≤ r'.baseStart ∧ r.headEnd ≤ r'.headStart

theorem regions_of_walk {base head : List UInt8} {i j : Nat} {ops : List DiffOp}
    (h : Walk base head i j ops) :
    (∀ r ∈ equalRegions base head ops, Sound base head r ∧ i ≤ r.baseStart ∧ j ≤ r.headStart) ∧
      (equalRegions base head ops).Pairwise EqualRegion.Before := by
  induction ops generalizing i j with
  | nil => exact ⟨fun r hr => absurd hr List.not_mem_nil, .nil⟩
  | cons op ops ih =>
    cases op with
    | equal oldIndex newIndex len =>
      obtain ⟨rfl, rfl, -, hbase, hhead, hsame, -, hrest⟩ := h
      obtain ⟨hregions, hpairs⟩ := ih hrest
      refine ⟨List.forall_mem_cons.2 ⟨⟨?_, Nat.le_refl _, Nat.le_refl _⟩, fun r hr => ?_⟩,
        List.pairwise_cons.2 ⟨fun r hr => ?_, hpairs⟩⟩
      · exact {
          le := Nat.le_add_right _ _
          width := by simp
          headLe := Nat.le_add_right _ _
          baseBound := hbase
          headBound := hhead
          same := by simpa using hsame }
      · obtain ⟨hsound, hi, hj⟩ := hregions r hr
        exact ⟨hsound, by omega, by omega⟩
      · exact (hregions r hr).2
    | delete oldIndex oldLen newIndex =>
      obtain ⟨hregions, hpairs⟩ := ih h.2.2.2
      refine ⟨fun r hr => ?_, hpairs⟩
      obtain ⟨hsound, hi, hj⟩ := hregions r hr
      exact ⟨hsound, by omega, hj⟩
    | insert oldIndex newIndex newLen =>
      obtain ⟨hregions, hpairs⟩ := ih h.2.2.2
      refine ⟨fun r hr => ?_, hpairs⟩
      obtain ⟨hsound, hi, hj⟩ := hregions r hr
      exact ⟨hsound, hi, by omega⟩
    | replace oldIndex oldLen newIndex newLen =>
      obtain ⟨hregions, hpairs⟩ := ih h.2.2.2.2
      refine ⟨fun r hr => ?_, hpairs⟩
      obtain ⟨hsound, hi, hj⟩ := hregions r hr
      exact ⟨hsound, by omega, by omega⟩

/-- A range is carried by a region around it. -/
theorem mapRange_eq_some {range : ByteRange} {base head : List UInt8} {regions : List EqualRegion}
    {target : Nat × Nat} (h : mapRange range base head regions = some target) :
    ∃ r ∈ regions, r.baseStart ≤ range.start ∧ range.stop ≤ r.baseEnd ∧
      target = (r.headStart + (range.start - r.baseStart),
        r.headStart + (range.stop - r.baseStart)) := by
  rw [mapRange] at h
  split at h
  · next hempty =>
    obtain ⟨r, hr, hpoint⟩ := List.exists_of_findSome?_eq_some h
    rw [EqualRegion.mapPoint] at hpoint
    split at hpoint
    · cases hpoint
    · next hwithin =>
      simp only [Bool.or_eq_true, decide_eq_true_eq, not_or, Bool.not_eq_true] at hwithin
      simp only at hpoint
      split at hpoint
      · cases hpoint
        exact ⟨r, hr, by omega, by omega, by rw [← hempty]⟩
      · cases hpoint
  · obtain ⟨r, hr, hspan⟩ := List.exists_of_findSome?_eq_some h
    rw [EqualRegion.mapSpan] at hspan
    split at hspan
    · cases hspan
    · next hwithin =>
      simp only [Bool.or_eq_true, decide_eq_true_eq, not_or, Bool.not_eq_true] at hwithin
      cases hspan
      exact ⟨r, hr, by omega, by omega, rfl⟩

theorem take_drop_within {t : List UInt8} {b n k m : Nat} (h : k + m ≤ n) :
    (((t.drop b).take n).drop k).take m = (t.drop (b + k)).take m := by
  rw [List.drop_take, List.take_take, List.drop_drop, Nat.min_eq_left (by omega)]

/-- The place a range is carried to lies within the head and holds the bytes of the range. -/
theorem mapRange_spec {range : ByteRange} {base head : List UInt8} {ops : List DiffOp}
    (hwalk : Walk base head 0 0 ops) {target : Nat × Nat}
    (h : mapRange range base head (equalRegions base head ops) = some target) :
    target.2 = target.1 + (range.stop - range.start) ∧ target.2 ≤ head.length ∧
      (base.drop range.start).take (range.stop - range.start) =
        (head.drop target.1).take (range.stop - range.start) := by
  obtain ⟨r, hr, hstart, hstop, rfl⟩ := mapRange_eq_some h
  have hsound := ((regions_of_walk hwalk).1 r hr).1
  have hordered := range.ordered
  obtain ⟨hle, hwidth, hheadLe, hbase, hhead, hsame⟩ := hsound
  refine ⟨by simp only; omega, by simp only; omega, ?_⟩
  calc (base.drop range.start).take (range.stop - range.start)
    _ = (((base.drop r.baseStart).take (r.baseEnd - r.baseStart)).drop
          (range.start - r.baseStart)).take (range.stop - range.start) := by
      rw [take_drop_within (by omega),
        show r.baseStart + (range.start - r.baseStart) = range.start by omega]
    _ = (((head.drop r.headStart).take (r.baseEnd - r.baseStart)).drop
          (range.start - r.baseStart)).take (range.stop - range.start) := by rw [hsame]
    _ = _ := take_drop_within (by omega)

theorem before_or_before {regions : List EqualRegion} (h : regions.Pairwise EqualRegion.Before)
    {r r' : EqualRegion} (hr : r ∈ regions) (hr' : r' ∈ regions) (hne : r ≠ r') :
    r.Before r' ∨ r'.Before r := by
  induction regions with
  | nil => cases hr
  | cons s regions ih =>
    obtain ⟨hfirst, hrest⟩ := List.pairwise_cons.1 h
    rcases List.mem_cons.1 hr with rfl | hin
    · rcases List.mem_cons.1 hr' with rfl | hin'
      · exact absurd rfl hne
      · exact .inl (hfirst r' hin')
    · rcases List.mem_cons.1 hr' with rfl | hin'
      · exact .inr (hfirst r hin)
      · exact ih hrest hin hin'

/-- One edit lies in front of another. -/
def ByteEdit.Before (e e' : ByteEdit) : Prop :=
  e.range.start < e'.range.start ∧ e.range.stop ≤ e'.range.start

/-- Ranges keep their order. -/
theorem mapRange_mono {e e' : ByteEdit} {base head : List UInt8} {ops : List DiffOp}
    (hwalk : Walk base head 0 0 ops) (hbefore : e.Before e') {target target' : Nat × Nat}
    (h : mapRange e.range base head (equalRegions base head ops) = some target)
    (h' : mapRange e'.range base head (equalRegions base head ops) = some target') :
    target.2 ≤ target'.1 := by
  obtain ⟨hregions, hpairs⟩ := regions_of_walk hwalk
  obtain ⟨r, hr, hstart, hstop, rfl⟩ := mapRange_eq_some h
  obtain ⟨r', hr', hstart', hstop', rfl⟩ := mapRange_eq_some h'
  have hsound := (hregions r hr).1
  have hsound' := (hregions r' hr').1
  have ho := e.range.ordered
  have ho' := e'.range.ordered
  obtain ⟨hlt, hle⟩ := hbefore
  by_cases heq : r = r'
  · subst heq
    simp only
    omega
  · rcases before_or_before hpairs hr hr' heq with hb | hb
    · have hw := hsound.width
      have hl := hsound.le
      have hhl := hsound.headLe
      obtain ⟨hb1, hb2⟩ := hb
      simp only
      omega
    · obtain ⟨hb1, hb2⟩ := hb
      omega

/-! ## Valid edit lists -/

theorem ByteEdit.Before.trans {a b c : ByteEdit} (h : a.Before b) (h' : b.Before c) :
    a.Before c :=
  ⟨h.1.trans h'.1, h.2.trans h'.1.le⟩

theorem validateFrom_none (baseLen : Nat) (edit : ByteEdit) (edits : List ByteEdit) :
    validateFrom baseLen none (edit :: edits) =
      (edit.range.validate baseLen >>= fun _ => validateFrom baseLen (some edit) edits) := rfl

theorem validateFrom_some (baseLen : Nat) (prior edit : ByteEdit) (edits : List ByteEdit) :
    validateFrom baseLen (some prior) (edit :: edits) =
      (edit.range.validate baseLen >>= fun _ =>
        if byteIdenticalDuplicate prior edit then validateFrom baseLen (some prior) edits
        else if edit.range.start ≤ prior.range.start || edit.range.start < prior.range.stop then
          .error (.invalidContent
            "byte edits must be sorted, non-overlapping, and have distinct starts")
        else validateFrom baseLen (some edit) edits) := rfl

theorem validate_eq_ok {range : ByteRange} {upperBound : Nat} :
    range.validate upperBound = .ok () ↔ range.stop ≤ upperBound := by
  rw [ByteRange.validate, Except.ite_error_eq_ok]
  exact ⟨fun h => Nat.le_of_not_lt h.1, fun h => ⟨Nat.not_lt.2 h, rfl⟩⟩

/-- The steps of a successful validation: the next edit repeats the last one or lies behind it. -/
theorem validateFrom_cons {baseLen : Nat} {previous : Option ByteEdit} {edit : ByteEdit}
    {edits : List ByteEdit} (h : validateFrom baseLen previous (edit :: edits) = .ok ()) :
    edit.range.stop ≤ baseLen ∧
      ((∃ prior, previous = some prior ∧ byteIdenticalDuplicate prior edit = true ∧
          validateFrom baseLen previous edits = .ok ()) ∨
        (∀ prior ∈ previous, byteIdenticalDuplicate prior edit = false ∧ prior.Before edit) ∧
          validateFrom baseLen (some edit) edits = .ok ()) := by
  cases previous with
  | none =>
    rw [validateFrom_none, Except.unit_bind_eq_ok] at h
    exact ⟨validate_eq_ok.1 h.1, .inr ⟨fun prior hprior => (by cases hprior), h.2⟩⟩
  | some prior =>
    rw [validateFrom_some, Except.unit_bind_eq_ok] at h
    obtain ⟨hrange, h⟩ := h
    refine ⟨validate_eq_ok.1 hrange, ?_⟩
    cases hdup : byteIdenticalDuplicate prior edit with
    | true =>
      rw [hdup, if_pos rfl] at h
      exact .inl ⟨prior, rfl, hdup, h⟩
    | false =>
      rw [hdup, if_neg Bool.false_ne_true, Except.ite_error_eq_ok] at h
      simp only [Bool.or_eq_true, decide_eq_true_eq, not_or, not_le, not_lt] at h
      refine .inr ⟨?_, h.2⟩
      rintro _ ⟨⟩
      exact ⟨hdup, h.1⟩

theorem eq_of_byteIdenticalDuplicate {a b : ByteEdit} (h : byteIdenticalDuplicate a b = true) :
    a = b := by
  simpa using (Bool.and_eq_true_iff.1 h).2

theorem uniqueFrom_dup {prior edit : ByteEdit} (h : byteIdenticalDuplicate prior edit = true)
    (edits : List ByteEdit) :
    uniqueFrom (some prior) (edit :: edits) = uniqueFrom (some prior) edits := if_pos h

theorem uniqueFrom_keep {previous : Option ByteEdit} {edit : ByteEdit}
    (h : ∀ prior ∈ previous, byteIdenticalDuplicate prior edit = false) (edits : List ByteEdit) :
    uniqueFrom previous (edit :: edits) = edit :: uniqueFrom (some edit) edits := by
  refine if_neg fun hany => ?_
  obtain ⟨prior, rfl, hdup⟩ := (Option.any_eq_true _ _).1 hany
  cases (h prior rfl).symm.trans hdup

/-- The edits that are applied lie one behind the other within the base. -/
theorem uniqueFrom_ordered {baseLen : Nat} {previous : Option ByteEdit} {edits : List ByteEdit}
    (h : validateFrom baseLen previous edits = .ok ()) :
    (∀ e ∈ uniqueFrom previous edits, e.range.stop ≤ baseLen ∧ ∀ prior ∈ previous, prior.Before e) ∧
      (uniqueFrom previous edits).Pairwise ByteEdit.Before := by
  induction edits generalizing previous with
  | nil => exact ⟨fun e he => absurd he List.not_mem_nil, .nil⟩
  | cons edit edits ih =>
    obtain ⟨hstop, ⟨prior, rfl, hdup, h⟩ | ⟨hbefore, h⟩⟩ := validateFrom_cons h
    · rw [uniqueFrom_dup hdup]
      exact ih h
    · obtain ⟨hall, hpairs⟩ := ih h
      rw [uniqueFrom_keep fun prior hp => (hbefore prior hp).1]
      refine ⟨List.forall_mem_cons.2 ⟨⟨hstop, fun prior hp => (hbefore prior hp).2⟩, fun e he => ?_⟩,
        List.pairwise_cons.2 ⟨fun e he => (hall e he).2 edit rfl, hpairs⟩⟩
      exact ⟨(hall e he).1, fun prior hp => (hbefore prior hp).2.trans ((hall e he).2 edit rfl)⟩

theorem mem_uniqueFrom {previous : Option ByteEdit} {edits : List ByteEdit} {e : ByteEdit} :
    e ∈ uniqueFrom previous edits → e ∈ edits := by
  induction edits generalizing previous with
  | nil => exact id
  | cons edit edits ih =>
    rw [uniqueFrom]
    split
    · exact fun he => List.mem_cons_of_mem _ (ih he)
    · intro he
      rcases List.mem_cons.1 he with rfl | he
      · exact List.mem_cons_self
      · exact List.mem_cons_of_mem _ (ih he)

/-- Only repetitions are left out. -/
theorem mem_or_of_mem {previous : Option ByteEdit} {edits : List ByteEdit} {e : ByteEdit}
    (he : e ∈ edits) : e ∈ uniqueFrom previous edits ∨ previous = some e := by
  induction edits generalizing previous with
  | nil => cases he
  | cons edit edits ih =>
    rw [uniqueFrom]
    split
    · next hdup =>
      obtain ⟨prior, rfl, hdup⟩ := (Option.any_eq_true _ _).1 hdup
      rcases List.mem_cons.1 he with rfl | he
      · exact .inr (by rw [eq_of_byteIdenticalDuplicate hdup])
      · exact ih he
    · rcases List.mem_cons.1 he with rfl | he
      · exact .inl List.mem_cons_self
      · rcases ih he with hin | heq
        · exact .inl (List.mem_cons_of_mem _ hin)
        · cases heq
          exact .inl List.mem_cons_self

theorem mem_uniqueEdits {edits : List ByteEdit} {e : ByteEdit} :
    e ∈ uniqueEdits edits ↔ e ∈ edits :=
  ⟨mem_uniqueFrom, fun he => (mem_or_of_mem he).resolve_right fun h => by cases h⟩

/-- The edits with other replacements. -/
def ByteEdit.retext (replace : ByteRange → Bytes) (edit : ByteEdit) : ByteEdit :=
  { edit with replacement := replace edit.range }

/-- Validity does not look at the replacements, as long as equal ranges get equal ones. -/
theorem retext_from {baseLen : Nat} {previous : Option ByteEdit} {edits : List ByteEdit}
    (h : validateFrom baseLen previous edits = .ok ()) (replace : ByteRange → Bytes) :
    validateFrom baseLen (previous.map (·.retext replace)) (edits.map (·.retext replace)) = .ok () ∧
      uniqueFrom (previous.map (·.retext replace)) (edits.map (·.retext replace)) =
        (uniqueFrom previous edits).map (·.retext replace) := by
  induction edits generalizing previous with
  | nil => exact ⟨rfl, rfl⟩
  | cons edit edits ih =>
    obtain ⟨hstop, hcases⟩ := validateFrom_cons h
    have hrange : (edit.retext replace).range.validate baseLen = .ok () := validate_eq_ok.2 hstop
    rw [List.map_cons]
    rcases hcases with ⟨prior, rfl, hdup, hrest⟩ | ⟨hbefore, hrest⟩
    · have hdup' : byteIdenticalDuplicate (prior.retext replace) (edit.retext replace) = true := by
        obtain rfl := eq_of_byteIdenticalDuplicate hdup
        exact Bool.and_eq_true_iff.2 ⟨(Bool.and_eq_true_iff.1 hdup).1, by simp⟩
      obtain ⟨hvalid, hunique⟩ := ih hrest
      rw [Option.map_some] at hvalid hunique ⊢
      rw [uniqueFrom_dup hdup, uniqueFrom_dup hdup', validateFrom_some, hrange, Except.ok_bind,
        if_pos hdup']
      exact ⟨hvalid, hunique⟩
    · obtain ⟨hvalid, hunique⟩ := ih hrest
      rw [Option.map_some] at hvalid hunique
      have hdup' : ∀ prior ∈ previous.map (·.retext replace),
          byteIdenticalDuplicate prior (edit.retext replace) = false := by
        intro prior hprior
        obtain ⟨prior, hp, rfl⟩ := Option.map_eq_some_iff.1 hprior
        refine Bool.and_eq_false_iff.2 (.inr (decide_eq_false fun heq => ?_))
        have hsame : (prior.retext replace).range = (edit.retext replace).range := by rw [heq]
        have hlt : (prior.retext replace).range.start < (edit.retext replace).range.start :=
          (hbefore prior hp).2.1
        rw [hsame] at hlt
        exact Nat.lt_irrefl _ hlt
      rw [uniqueFrom_keep hdup', uniqueFrom_keep fun prior hp => (hbefore prior hp).1, List.map_cons,
        hunique]
      refine ⟨?_, rfl⟩
      cases previous with
      | none =>
        rw [Option.map_none, validateFrom_none, hrange]
        exact hvalid
      | some prior =>
        obtain ⟨-, hlt, hle⟩ := hbefore prior rfl
        have hbehind : ¬ (decide ((edit.retext replace).range.start ≤
            (prior.retext replace).range.start) || decide ((edit.retext replace).range.start <
              (prior.retext replace).range.stop)) = true := by
          rw [Bool.or_eq_true, decide_eq_true_eq, decide_eq_true_eq]
          exact not_or.2 ⟨Nat.not_le.2 hlt, Nat.not_lt.2 hle⟩
        rw [Option.map_some, validateFrom_some, hrange, Except.ok_bind,
          hdup' _ rfl, if_neg Bool.false_ne_true, if_neg hbehind]
        exact hvalid

end OhMyPi.Docserver.Rebase
