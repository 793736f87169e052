import OhMyPi.Dispatch.Bounding

/-! The map from source bytes to output bytes that clamping keeps. Every segment is a run of bytes of
both texts, and between two segments some of the source is missing, so that a range that is found
visible lies in one segment. -/

namespace OhMyPi.Dispatch

open Text

/-- The bytes from one offset up to another. -/
def slice (bytes : List UInt8) (start stop : Nat) : List UInt8 := (bytes.drop start).take (stop - start)

@[simp] theorem encode_append (s t : List Char) : encode (s ++ t) = encode s ++ encode t :=
  List.flatMap_append

@[simp] theorem length_encode (text : List Char) : (encode text).length = byteLen text := by
  induction text with
  | nil => rfl
  | cons c text ih =>
    rw [encode, List.flatMap_cons, List.length_append, byteLen_cons, String.length_utf8EncodeChar]
    exact congrArg _ ih

/-! ## Segments -/

namespace SourceSegment

/-- The same bytes stand at the segment's place in the source and at its place in the output. -/
def Mirrors (segment : SourceSegment) (source output : List UInt8) : Prop :=
  ∃ a m b a' b', source = a ++ m ++ b ∧ output = a' ++ m ++ b' ∧
    a.length = segment.sourceStart ∧ a'.length = segment.outputStart ∧ m.length = segment.len

variable {segment : SourceSegment} {source output : List UInt8}

theorem Mirrors.append (h : segment.Mirrors source output) (x y : List UInt8) :
    segment.Mirrors (source ++ x) (output ++ y) := by
  obtain ⟨a, m, b, a', b', rfl, rfl, ha, ha', hm⟩ := h
  refine ⟨a, m, b ++ x, a', b' ++ y, ?_, ?_, ha, ha', hm⟩
  · rw [List.append_assoc _ b x]
  · rw [List.append_assoc _ b' y]

theorem Mirrors.source_le (h : segment.Mirrors source output) :
    segment.sourceStart + segment.len ≤ source.length := by
  obtain ⟨a, m, b, a', b', rfl, -, ha, -, hm⟩ := h
  rw [List.length_append, List.length_append, ha, hm]
  exact Nat.le_add_right _ _

/-- A new segment for bytes that are put behind both texts. -/
theorem mirrors_new (source output x : List UInt8) :
    (⟨source.length, output.length, x.length⟩ : SourceSegment).Mirrors (source ++ x) (output ++ x) := by
  refine ⟨source, x, [], output, [], ?_, ?_, rfl, rfl, rfl⟩
  · rw [List.append_nil]
  · rw [List.append_nil]

/-- A segment at the end of both texts grows with them. -/
theorem Mirrors.grow (h : segment.Mirrors source output)
    (hsource : segment.sourceStart + segment.len = source.length)
    (houtput : segment.outputStart + segment.len = output.length) (x : List UInt8) :
    { segment with len := segment.len + x.length }.Mirrors (source ++ x) (output ++ x) := by
  obtain ⟨a, m, b, a', b', rfl, rfl, ha, ha', hm⟩ := h
  have hb : b = [] := by
    rw [List.length_append, List.length_append] at hsource
    exact List.eq_nil_of_length_eq_zero (by omega)
  have hb' : b' = [] := by
    rw [List.length_append, List.length_append] at houtput
    exact List.eq_nil_of_length_eq_zero (by omega)
  subst hb hb'
  refine ⟨a, m ++ x, [], a', [], ?_, ?_, ha, ha', ?_⟩
  · simp only [List.append_nil, List.append_assoc]
  · simp only [List.append_nil, List.append_assoc]
  · rw [List.length_append, hm]

/-- A range within the part of a segment that is shown is shown. -/
theorem Mirrors.slice_shown (h : segment.Mirrors source output) {start stop visible : Nat}
    (hstart : segment.sourceStart ≤ start)
    (hstop : stop ≤ segment.sourceStart + min segment.len (visible - segment.outputStart)) :
    slice source start stop <:+: output.take visible := by
  obtain ⟨a, m, b, a', b', rfl, rfl, ha, ha', hm⟩ := h
  rw [← ha] at hstart hstop
  rw [← ha', ← hm] at hstop
  rw [slice]
  by_cases hempty : stop ≤ start
  · rw [Nat.sub_eq_zero_of_le hempty, List.take_zero]
    exact List.nil_infix
  have hinside : ((a ++ m ++ b).drop start).take (stop - start) <:+: m.take (visible - a'.length) := by
    rw [List.append_assoc, List.drop_append, List.drop_of_length_le hstart, List.nil_append,
      List.take_drop, List.take_append_of_le_length (by omega)]
    refine (List.drop_suffix _ _).isInfix.trans (List.IsPrefix.isInfix ?_)
    exact List.take_prefix_take_left (by omega)
  refine hinside.trans ?_
  rw [List.append_assoc, List.take_append, List.take_append]
  exact ⟨a'.take visible, b'.take (visible - a'.length - m.length), by rw [List.append_assoc]⟩

end SourceSegment

/-- Between two segments some of the source is missing. -/
def Apart (segments : List SourceSegment) : Prop :=
  segments.Pairwise fun s t => s.sourceStart + s.len < t.sourceStart

theorem extendSegments_grow {last : SourceSegment} (segments : List SourceSegment)
    (hsource : last.sourceStart + last.len = sourceStart)
    (houtput : last.outputStart + last.len = outputStart) (len : Nat) :
    extendSegments (segments ++ [last]) sourceStart outputStart len =
      segments ++ [{ last with len := last.len + len }] := by
  rw [extendSegments, List.getLast?_concat]
  dsimp only
  rw [if_pos ⟨hsource, houtput⟩, List.dropLast_concat]

theorem extendSegments_new {segments : List SourceSegment}
    (h : ∀ s ∈ segments, s.sourceStart + s.len < sourceStart) (outputStart len : Nat) :
    extendSegments segments sourceStart outputStart len =
      segments ++ [⟨sourceStart, outputStart, len⟩] := by
  rw [extendSegments]
  split
  · next last hlast =>
    have := h last (List.mem_of_getLast? hlast)
    rw [if_neg (by omega)]
  · rfl

/-! ## The invariant of clamping -/

namespace Clamping

/-- The segments map what was read of the source to the output. Where nothing is elided the last
segment reaches the end of both. -/
structure Traced (state : Clamping) (source : List Char) : Prop where
  mirrors : ∀ s ∈ state.segments, s.Mirrors (encode source) (encode state.output)
  apart : Apart state.segments
  elided : state.eliding = true → ∀ s ∈ state.segments, s.sourceStart + s.len < byteLen source
  whole : state.eliding = false → source = [] ∧ state.output = [] ∧ state.segments = [] ∨
    ∃ segments last, state.segments = segments ++ [last] ∧
      last.sourceStart + last.len = byteLen source ∧
      last.outputStart + last.len = byteLen state.output
  same : state.linesClamped = 0 → state.eliding = false ∧ state.output = source

theorem traced_start : start.Traced [] where
  mirrors s h := absurd h List.not_mem_nil
  apart := .nil
  elided h := by cases h
  whole _ := .inl ⟨rfl, rfl, rfl⟩
  same _ := ⟨rfl, rfl⟩

variable {state : Clamping} {source : List Char}

theorem length_encode_singleton (c : Char) : (encode [c]).length = c.utf8Size := by
  rw [length_encode, byteLen_cons, byteLen_nil, Nat.add_zero]

theorem Traced.source_le (h : state.Traced source) {s : SourceSegment} (hs : s ∈ state.segments) :
    s.sourceStart + s.len ≤ byteLen source := by
  rw [← length_encode]
  exact (h.mirrors s hs).source_le

/-- A character behind a gap starts a new segment. -/
theorem Traced.push_new (h : state.Traced source)
    (hgap : ∀ s ∈ state.segments, s.sourceStart + s.len < byteLen source) (c : Char)
    (lineBytes : Nat) (hsame : state.linesClamped = 0 → state.output = source) :
    { state.pushSourceCharacter (byteLen source) c with lineBytes, eliding := false }.Traced
      (source ++ [c]) := by
  have hsegments := extendSegments_new hgap (byteLen state.output) c.utf8Size
  refine
    { mirrors := ?_
      apart := ?_
      elided := fun helided => nomatch helided
      whole := fun _ => .inr ⟨state.segments, _, hsegments, ?_, ?_⟩
      same := fun hzero => ⟨rfl, ?_⟩ }
  · intro s hs
    rw [pushSourceCharacter, hsegments, List.mem_append, List.mem_singleton] at hs
    rw [pushSourceCharacter, encode_append, encode_append]
    rcases hs with hs | rfl
    · exact (h.mirrors s hs).append _ _
    · rw [← length_encode, ← length_encode, ← length_encode_singleton c]
      exact SourceSegment.mirrors_new _ _ _
  · rw [pushSourceCharacter, hsegments]
    refine List.pairwise_append.2 ⟨h.apart, List.pairwise_singleton _ _, ?_⟩
    intro s hs t ht
    rw [List.mem_singleton.1 ht]
    exact hgap s hs
  · rw [byteLen_append, byteLen_cons, byteLen_nil, Nat.add_zero]
  · rw [pushSourceCharacter, byteLen_append, byteLen_cons, byteLen_nil, Nat.add_zero]
  · rw [pushSourceCharacter, hsame hzero]

/-- A character that follows the last segment is added to it. -/
theorem Traced.push_grow (h : state.Traced source) {segments : List SourceSegment}
    {last : SourceSegment} (hlast : state.segments = segments ++ [last])
    (hsource : last.sourceStart + last.len = byteLen source)
    (houtput : last.outputStart + last.len = byteLen state.output) (c : Char) (lineBytes : Nat)
    (hsame : state.linesClamped = 0 → state.output = source) :
    { state.pushSourceCharacter (byteLen source) c with lineBytes, eliding := false }.Traced
      (source ++ [c]) := by
  have hsegments : extendSegments state.segments (byteLen source) (byteLen state.output) c.utf8Size =
      segments ++ [{ last with len := last.len + c.utf8Size }] := by
    rw [hlast]
    exact extendSegments_grow segments hsource houtput c.utf8Size
  have hmirrors := h.mirrors
  have hapart := h.apart
  rw [hlast] at hmirrors hapart
  obtain ⟨hbefore, -, hbetween⟩ := List.pairwise_append.1 hapart
  refine
    { mirrors := ?_
      apart := ?_
      elided := fun helided => nomatch helided
      whole := fun _ => .inr ⟨segments, _, hsegments, ?_, ?_⟩
      same := fun hzero => ⟨rfl, ?_⟩ }
  · intro s hs
    rw [pushSourceCharacter, hsegments, List.mem_append, List.mem_singleton] at hs
    rw [pushSourceCharacter, encode_append, encode_append]
    rcases hs with hs | rfl
    · exact (hmirrors s (List.mem_append_left _ hs)).append _ _
    · rw [← length_encode_singleton c]
      rw [← length_encode] at hsource houtput
      exact (hmirrors last (List.mem_append_right _ (List.mem_singleton.2 rfl))).grow hsource houtput _
  · rw [pushSourceCharacter, hsegments]
    refine List.pairwise_append.2 ⟨hbefore, List.pairwise_singleton _ _, ?_⟩
    intro s hs t ht
    rw [List.mem_singleton.1 ht]
    exact hbetween s hs last (List.mem_singleton.2 rfl)
  · rw [byteLen_append, byteLen_cons, byteLen_nil, ← hsource]
    exact (Nat.add_assoc _ _ _).symm
  · rw [pushSourceCharacter, byteLen_append, byteLen_cons, byteLen_nil, ← houtput]
    exact (Nat.add_assoc _ _ _).symm
  · rw [pushSourceCharacter, hsame hzero]

theorem Traced.push (h : state.Traced source) (c : Char) (lineBytes : Nat) :
    { state.pushSourceCharacter (byteLen source) c with lineBytes, eliding := false }.Traced
      (source ++ [c]) := by
  have hsame : state.linesClamped = 0 → state.output = source := fun hzero => (h.same hzero).2
  cases helided : state.eliding with
  | true => exact h.push_new (h.elided helided) c lineBytes hsame
  | false =>
    rcases h.whole helided with ⟨-, -, hnil⟩ | ⟨segments, last, hlast, hsource, houtput⟩
    · refine h.push_new ?_ c lineBytes hsame
      rw [hnil]
      exact fun s hs => absurd hs List.not_mem_nil
    · exact h.push_grow hlast hsource houtput c lineBytes hsame

/-- A character of the source is left out, and at most an ellipsis is put out. -/
theorem Traced.skip (h : state.Traced source) (c : Char) (mark : List Char)
    (hclamped : state.linesClamped ≠ 0 ∨ mark ≠ []) :
    { state with
      output := state.output ++ mark
      eliding := true
      linesClamped := state.linesClamped + mark.length }.Traced (source ++ [c]) where
  mirrors s hs := by
    rw [encode_append, encode_append]
    exact (h.mirrors s hs).append _ _
  apart := h.apart
  elided _ s hs := by
    have := h.source_le hs
    have := c.utf8Size_pos
    rw [byteLen_append, byteLen_cons, byteLen_nil]
    omega
  whole helided := by cases helided
  same hzero := by
    obtain ⟨hstate, hmark⟩ := Nat.add_eq_zero_iff.1 hzero
    rcases hclamped with hclamped | hclamped
    · exact absurd hstate hclamped
    · exact absurd (List.eq_nil_of_length_eq_zero hmark) hclamped

theorem Traced.step (h : state.Traced source) (maximum : Nat) (c : Char) :
    (state.step maximum (byteLen source) c).Traced (source ++ [c]) := by
  rw [Clamping.step]
  split
  · exact h.push c 0
  split
  · next helided =>
    have hskip := h.skip c [] (.inl fun hzero => by rw [(h.same hzero).1] at helided; cases helided)
    rw [List.append_nil, List.length_nil, Nat.add_zero, ← helided] at hskip
    exact hskip
  split
  · exact h.skip c ['…'] (.inr (List.cons_ne_nil _ _))
  · next helided _ =>
    rw [Bool.not_eq_true] at helided
    have hpush := h.push c (state.lineBytes + c.utf8Size)
    rw [← helided] at hpush
    exact hpush

theorem Traced.run (h : state.Traced source) (maximum : Nat) (text : List Char) :
    (state.run maximum (byteLen source) text).Traced (source ++ text) := by
  induction text generalizing state source with
  | nil =>
    rw [List.append_nil]
    exact h
  | cons c text ih =>
    have hrest := ih (h.step maximum c)
    rw [byteLen_append, byteLen_cons, byteLen_nil, Nat.add_zero, List.append_assoc] at hrest
    exact hrest

end Clamping

theorem traced_clampText (text : List Char) (maximum : Nat) :
    (Clamping.start.run maximum 0 text).Traced text := Clamping.traced_start.run maximum text

theorem clampText_of_linesClamped (text : List Char) (maximum : Nat)
    (h : (clampText text maximum).linesClamped = 0) : (clampText text maximum).text = text :=
  ((traced_clampText text maximum).same h).2

/-! ## Visible ranges -/

/-- A gap right behind what is covered is never crossed. -/
theorem coversTo_of_gap {segments : List SourceSegment}
    (h : ∀ s ∈ segments, covered < s.sourceStart) (endByte visible : Nat) :
    coversTo endByte visible segments covered = false := by
  induction segments with
  | nil => rfl
  | cons s segments ih =>
    have hskip : s.sourceStart + min s.len (visible - s.outputStart) ≤ covered ∨
        covered < s.sourceStart := .inr (h s List.mem_cons_self)
    rw [coversTo]
    dsimp only
    rw [if_pos hskip, ih fun t ht => h t (List.mem_cons_of_mem _ ht)]
    exact ite_self _

/-- What is covered is covered by one segment. -/
theorem exists_of_coversTo {segments : List SourceSegment} (hapart : Apart segments)
    (h : coversTo endByte visible segments covered = true) :
    ∃ s ∈ segments, s.sourceStart ≤ covered ∧
      endByte ≤ s.sourceStart + min s.len (visible - s.outputStart) := by
  induction segments with
  | nil => cases h
  | cons s segments ih =>
    obtain ⟨hnext, hrest⟩ := List.pairwise_cons.1 hapart
    rw [coversTo] at h
    dsimp only at h
    split at h
    · cases h
    split at h
    · obtain ⟨t, ht, hcovers⟩ := ih hrest h
      exact ⟨t, List.mem_cons_of_mem _ ht, hcovers⟩
    split at h
    · next hcovered hend => exact ⟨s, List.mem_cons_self, by omega, hend⟩
    · -- the range goes on behind the segment, where the source is missing
      rw [coversTo_of_gap] at h
      · cases h
      · intro t ht
        have := hnext t ht
        omega

/-- A range that is found visible stands in the shown part of the output. -/
theorem slice_infix_of_visible (text : List Char) (maximum limit : Nat) {start stop : Nat}
    (h : (clampText text maximum).sourceRangeVisible start stop
      (byteLen (utf8Prefix (clampText text maximum).text limit)) = true) :
    slice (encode text) start stop <:+: encode (utf8Prefix (clampText text maximum).text limit) := by
  rw [ClampedText.sourceRangeVisible] at h
  split at h
  · cases h
  obtain ⟨s, hs, hstart, hstop⟩ := exists_of_coversTo (traced_clampText text maximum).apart h
  have hshown := ((traced_clampText text maximum).mirrors s hs).slice_shown hstart hstop
  have hcut := utf8Prefix_append_drop (clampText text maximum).text limit
  have htake : (encode (clampText text maximum).text).take
      (byteLen (utf8Prefix (clampText text maximum).text limit)) =
        encode (utf8Prefix (clampText text maximum).text limit) := by
    conv_lhs => rw [← hcut, encode_append, ← length_encode, hcut]
    exact List.take_left
  rwa [← htake]

end OhMyPi.Dispatch
