import OhMyPi.Lib.Except
import OhMyPi.Dispatch.Clamping
import OhMyPi.Dispatch.HeadTail

/-! A bounded result is honest: its text keeps to the limit, what is missing from it was saved and is
reported, and the lines that the receipt names are there. The text may pass the limit only where a head
and a tail stand for it. -/

namespace OhMyPi.Dispatch

open Text

/-- The bytes of a text part or of a JSON part. -/
def Part.inline : Part → Option (List UInt8)
  | .text content => some (encode content)
  | .json bytes => some bytes
  | .blob .. => none

/-- The bytes that an artifact has for a part. -/
def Part.saved : Part → List UInt8
  | .text content => encode content
  | .json bytes => bytes
  | .blob _ alt => encode (alt.getD [])

/-- The text of a part with its lines clamped. -/
def Part.clamped (lineLimit : Nat) : Part → List Char
  | .text content => (clampText content lineLimit).text
  | .json bytes => (clampText (lossy bytes) lineLimit).text
  | .blob .. => []

/-- The texts of the parts that hold text, part by part. -/
def inlineTexts (parts : List Part) : List (List UInt8) := parts.filterMap Part.inline

/-- The bytes of the part with the given number, when it holds text. -/
def inlineAt (parts : List Part) (index : Nat) : Option (List UInt8) := parts[index]?.bind Part.inline

/-- The span lies in the text of its part. -/
def ProjectionSpan.InRange (span : ProjectionSpan) (parts : List Part) : Prop :=
  ∃ source, inlineAt parts span.part = some source ∧ span.startByte ≤ span.endByte ∧
    span.endByte ≤ source.length

/-- The bytes of the span stand without a gap in the part that is returned. -/
def ProjectionSpan.Shown (span : ProjectionSpan) (parts returned : List Part) : Prop :=
  ∃ source shown, inlineAt parts span.part = some source ∧ inlineAt returned span.part = some shown ∧
    slice source span.startByte span.endByte <:+: shown

/-- What a staged result must be for the parts of the call. -/
structure Honest (put : List UInt8 → Except ε BlobRef) (policy : DispatchPolicy)
    (result : ExternalResult) (staged : StagedTerminal) : Prop where
  bounded : (inlineTexts staged.parts).flatten.length ≤ policy.inlineLimit result.options
  preserved : inlineTexts staged.parts ≠ inlineTexts result.parts →
    staged.projection.omitted = true ∧ staged.projection.artifact.isSome ∧
      ∃ artifact, staged.spilled = some artifact ∧
        (result.transportSpill = none → put (result.parts.flatMap Part.saved) = .ok artifact)
  visible : ∀ line ∈ staged.visibility, ∃ span ∈ result.visibility,
    span.sourceKey = line.sourceKey ∧ span.line = line.line ∧ span.Shown result.parts staged.parts

/-- No head and tail are shown, or they leave room for the marks between them. -/
def HeadTailFits (policy : DispatchPolicy) (result : ExternalResult) : Prop :=
  let limit := policy.maxOutputBytes
  let text := result.parts.flatMap (Part.clamped policy.maxLineBytes)
  let tailBytes := min policy.artifactTailBytes limit
  let headBytes := min policy.artifactHeadBytes (limit - tailBytes)
  result.options.notrunc = true ∨ policy.artifactTailBytes = 0 ∨ byteLen text ≤ limit ∨
    windowLen (Longest.front (Within headBytes policy.artifactTailLines) text)
      (Longest.back (Within tailBytes policy.artifactTailLines) text) ≤ limit

/-! ## The loop over the parts -/

theorem encode_of_strFromUtf8 {bytes : List UInt8} {text : List Char}
    (h : strFromUtf8 bytes = .ok text) : encode text = bytes ∧ text = lossy bytes := by
  obtain ⟨n, -, htext, hrun⟩ := validate_spec bytes 0
  rw [strFromUtf8] at h
  rcases hrun with ⟨hrun, rfl⟩ | ⟨len, hrun⟩
  · rw [hrun] at h
    cases h
    rw [List.take_length] at htext
    obtain ⟨l, rfl⟩ := htext
    rw [lossy_flatMap]
    exact ⟨rfl, rfl⟩
  · rw [hrun] at h
    cases h

theorem inlineTexts_append (parts : List Part) (part : Part) :
    inlineTexts (parts ++ [part]) = inlineTexts parts ++ part.inline.toList := by
  rw [inlineTexts, List.filterMap_append, List.filterMap_cons, List.filterMap_nil]
  cases part.inline <;> rfl

theorem inlineAt_append {parts : List Part} {index : Nat} {bytes : List UInt8}
    (h : inlineAt parts index = some bytes) (part : Part) :
    inlineAt (parts ++ [part]) index = some bytes := by
  obtain ⟨p, hp, hbytes⟩ := Option.bind_eq_some_iff.1 h
  refine Option.bind_eq_some_iff.2 ⟨p, ?_, hbytes⟩
  rw [List.getElem?_append_left (List.getElem?_eq_some_iff.1 hp).1, hp]

theorem inlineAt_last (parts : List Part) (part : Part) :
    inlineAt (parts ++ [part]) parts.length = part.inline := by
  rw [inlineAt, List.getElem?_concat_length]
  rfl

theorem ProjectionSpan.Shown.append {span : ProjectionSpan} {parts returned : List Part}
    (h : span.Shown parts returned) (part part' : Part) :
    span.Shown (parts ++ [part]) (returned ++ [part']) := by
  obtain ⟨source, shown, hsource, hshown, hslice⟩ := h
  exact ⟨source, shown, inlineAt_append hsource part, inlineAt_append hshown part', hslice⟩

namespace Bounding

/-- What the loop has collected for the parts it went through. -/
structure Collected (limit lineLimit : Nat) (visibility : List ProjectionSpan) (state : Bounding)
    (done : List Part) : Prop where
  aligned : state.output.length = done.length
  counted : state.shownBytes = (inlineTexts state.output).flatten.length
  bounded : state.shownBytes ≤ limit
  full : encode state.full = done.flatMap Part.saved
  projected : state.projected = done.flatMap (Part.clamped lineLimit)
  whole : state.byteTruncated = false → state.shownBytes = byteLen state.projected
  cut : state.byteTruncated = true → limit < byteLen state.projected ∧ state.changed = true
  unchanged : state.changed = false → inlineTexts state.output = inlineTexts done
  visible : ∀ span ∈ state.visibleSpans, span ∈ visibility ∧ span.Shown done state.output

variable {limit lineLimit : Nat} {visibility : List ProjectionSpan} {state : Bounding}
  {done : List Part}

theorem collected_start : Bounding.start.Collected limit lineLimit visibility [] where
  aligned := rfl
  counted := rfl
  bounded := Nat.zero_le _
  full := rfl
  projected := rfl
  whole _ := rfl
  cut h := by cases h
  unchanged _ := rfl
  visible _ h := absurd h List.not_mem_nil

/-- A text that was not cut is shown as it is. -/
theorem utf8Prefix_eq_of_byteLen {text : List Char} {maximum : Nat}
    (h : byteLen (utf8Prefix text maximum) = byteLen text) : utf8Prefix text maximum = text := by
  refine (utf8Prefix_isPrefix text maximum).eq_of_length_le ?_
  exact length_le_of_prefixes (List.prefix_refl _) (utf8Prefix_isPrefix _ _) h.ge

theorem Collected.pushText (h : state.Collected limit lineLimit visibility done)
    {part : Part} {text : List Char} (hinline : part.inline = some (encode text))
    (hsaved : part.saved = encode text)
    (hclamped : part.clamped lineLimit = (clampText text lineLimit).text) :
    (state.pushText limit lineLimit visibility done.length text).Collected limit lineLimit visibility
      (done ++ [part]) := by
  have hle := byteLen_utf8Prefix_le (clampText text lineLimit).text (limit - state.shownBytes)
  have hbound := h.bounded
  have hfits : byteLen (utf8Prefix (clampText text lineLimit).text (limit - state.shownBytes)) ≠
      byteLen (clampText text lineLimit).text →
      limit - state.shownBytes < byteLen (clampText text lineLimit).text := by
    intro hne
    by_contra hge
    rw [utf8Prefix_of_le (by omega)] at hne
    exact hne rfl
  have hslice := @slice_infix_of_visible text lineLimit (limit - state.shownBytes)
  have hunclamped := clampText_of_linesClamped text lineLimit
  rw [Bounding.pushText]
  generalize clampText text lineLimit = bounded at *
  refine
    { aligned := ?_
      counted := ?_
      bounded := ?_
      full := ?_
      projected := ?_
      whole := ?_
      cut := ?_
      unchanged := ?_
      visible := ?_ }
  · simp only [List.length_append, h.aligned, List.length_singleton]
  · simp only [inlineTexts_append, Part.inline, Option.toList_some, List.flatten_append,
      List.length_append, h.counted, List.flatten_singleton, length_encode]
  · dsimp only
    omega
  · simp only [encode_append, h.full, List.flatMap_append, List.flatMap_singleton, hsaved]
  · simp only [h.projected, List.flatMap_append, List.flatMap_singleton, hclamped]
  · intro hcut
    simp only [Bool.or_eq_false_iff, decide_eq_false_iff_not, not_not] at hcut
    rw [byteLen_append, ← h.whole hcut.1, hcut.2]
  · intro hcut
    simp only [Bool.or_eq_true, decide_eq_true_eq] at hcut ⊢
    rw [byteLen_append]
    rcases hcut with hcut | hcut
    · obtain ⟨hlt, hchanged⟩ := h.cut hcut
      exact ⟨by omega, .inl (.inl hchanged)⟩
    · refine ⟨?_, .inr hcut⟩
      have := hfits hcut
      cases htruncated : state.byteTruncated with
      | true =>
        have := (h.cut htruncated).1
        omega
      | false =>
        have := h.whole htruncated
        omega
  · intro hchanged
    simp only [Bool.or_eq_false_iff, decide_eq_false_iff_not, not_not] at hchanged
    obtain ⟨⟨hbefore, hlines⟩, hcut⟩ := hchanged
    rw [inlineTexts_append, inlineTexts_append, h.unchanged hbefore, hinline, Part.inline,
      utf8Prefix_eq_of_byteLen hcut, hunclamped hlines]
  · intro span hspan
    rcases List.mem_append.1 hspan with hspan | hspan
    · obtain ⟨hmem, hshown⟩ := h.visible span hspan
      exact ⟨hmem, hshown.append _ _⟩
    · obtain ⟨hmem, hvisible⟩ := List.mem_filter.1 hspan
      rw [Bool.and_eq_true, decide_eq_true_eq] at hvisible
      obtain ⟨hpart, hvisible⟩ := hvisible
      refine ⟨hmem, encode text, _, ?_, ?_, hslice hvisible⟩
      · rw [hpart, inlineAt_last, hinline]
      · rw [hpart, ← h.aligned, inlineAt_last, Part.inline]

theorem Collected.pushPart (h : state.Collected limit lineLimit visibility done) {part : Part}
    {state' : Bounding}
    (hpush : state.pushPart (ε := ε) limit lineLimit visibility done.length part = .ok state') :
    state'.Collected limit lineLimit visibility (done ++ [part]) := by
  cases part with
  | text text =>
    cases hpush
    exact h.pushText rfl rfl rfl
  | json json =>
    rw [Bounding.pushPart] at hpush
    split at hpush
    · next text htext =>
      cases hpush
      obtain ⟨hbytes, hlossy⟩ := encode_of_strFromUtf8 htext
      refine h.pushText ?_ ?_ ?_
      · rw [Part.inline, hbytes]
      · rw [Part.saved, hbytes]
      · rw [Part.clamped, hlossy]
    · cases hpush
  | blob blob alt =>
    cases hpush
    have hnone : ∀ {b a}, (Part.blob b a).inline = none := rfl
    refine
      { aligned := ?_
        counted := ?_
        bounded := h.bounded
        full := ?_
        projected := ?_
        whole := h.whole
        cut := h.cut
        unchanged := ?_
        visible := ?_ }
    · simp only [List.length_append, h.aligned, List.length_singleton]
    · simp only [inlineTexts_append, hnone, Option.toList_none, List.append_nil, h.counted]
    · simp only [encode_append, h.full, List.flatMap_append, List.flatMap_singleton, Part.saved]
    · simp only [h.projected, List.flatMap_append, List.flatMap_singleton, Part.clamped,
        List.append_nil]
    · intro hchanged
      rw [inlineTexts_append, inlineTexts_append, h.unchanged hchanged]
    · intro span hspan
      obtain ⟨hmem, hshown⟩ := h.visible span hspan
      exact ⟨hmem, hshown.append _ _⟩

theorem Collected.run (h : state.Collected limit lineLimit visibility done) {parts : List Part}
    {state' : Bounding}
    (hrun : state.run (ε := ε) limit lineLimit visibility done.length parts = .ok state') :
    state'.Collected limit lineLimit visibility (done ++ parts) := by
  induction parts generalizing state done with
  | nil =>
    cases hrun
    rw [List.append_nil]
    exact h
  | cons part parts ih =>
    obtain ⟨next, hpush, hrest⟩ := Except.bind_eq_ok.1 hrun
    have hnext := h.pushPart hpush
    rw [List.append_cons]
    refine ih hnext ?_
    rw [List.length_append, List.length_singleton]
    exact hrest

theorem collected_of_run {parts : List Part}
    (hrun : Bounding.start.run (ε := ε) limit lineLimit visibility 0 parts = .ok state) :
    state.Collected limit lineLimit visibility parts := collected_start.run hrun

/-- The head and the tail replace every text. -/
theorem inlineTexts_project (policy : DispatchPolicy) (state : Bounding) :
    inlineTexts (state.project policy limit).output =
      [encode (artifactProjection state.projected
        (min policy.artifactHeadBytes (limit - min policy.artifactTailBytes limit))
        (min policy.artifactTailBytes limit) policy.artifactTailLines)] := by
  have hblobs : inlineTexts (state.output.filter Part.isBlob) = [] := by
    refine List.filterMap_eq_nil_iff.2 fun part hpart => ?_
    have hblob := (List.mem_filter.1 hpart).2
    cases part with
    | text text => cases hblob
    | json json => cases hblob
    | blob blob alt => rfl
  rw [Bounding.project, inlineTexts_append, hblobs]
  rfl

end Bounding

/-! ## Bounded parts -/

theorem mem_visibilityReceipt {spans : List ProjectionSpan} {line : VisibleSourceLine}
    (h : line ∈ visibilityReceipt spans) :
    ∃ span ∈ spans, span.sourceKey = line.sourceKey ∧ span.line = line.line := by
  have hmem := (List.destutter_sublist _ _).subset h
  rw [List.mem_insertionSort, List.mem_map] at hmem
  obtain ⟨span, hspan, rfl⟩ := hmem
  exact ⟨span, hspan, rfl, rfl⟩

theorem length_inlineTexts_le (parts : List Part) :
    (inlineTexts parts).flatten.length ≤ (parts.map Part.len).sum := by
  induction parts with
  | nil => exact Nat.le_refl _
  | cons part parts ih =>
    cases part with
    | text text =>
      rw [List.map_cons, List.sum_cons, Part.len, ← length_encode]
      simpa [inlineTexts, Part.inline] using ih
    | json json =>
      rw [List.map_cons, List.sum_cons, Part.len]
      simpa [inlineTexts, Part.inline] using ih
    | blob blob alt =>
      rw [List.map_cons, List.sum_cons]
      exact Nat.le_add_left_of_le ih

section

variable {put : List UInt8 → Except ε BlobRef} {parts : List Part}
  {visibility : List ProjectionSpan} {options : DispatchOptions} {policy : DispatchPolicy}
  {transportSpill : Option BlobRef} {bounded : BoundedParts}

/-- The parts were returned as they are, for a caller that asked for all of them. -/
structure Complete (parts : List Part) (visibility : List ProjectionSpan)
    (options : DispatchOptions) (policy : DispatchPolicy) (bounded : BoundedParts) : Prop where
  notrunc : options.notrunc = true
  fits : (parts.map Part.len).sum ≤ policy.inlineLimit options
  parts : bounded.parts = parts
  visibility : bounded.visibility = visibilityReceipt visibility

/-- The parts went through the loop, and perhaps a head and a tail stand for them. -/
structure Cut (put : List UInt8 → Except ε BlobRef) (parts : List Part)
    (visibility : List ProjectionSpan) (options : DispatchOptions) (policy : DispatchPolicy)
    (transportSpill : Option BlobRef) (bounded : BoundedParts) (state : Bounding) : Prop where
  collected :
    state.Collected (policy.inlineLimit options) (policy.lineLimit options) visibility parts
  shown : (state.byteTruncated = true ∧ options.notrunc = false ∧ policy.artifactTailBytes ≠ 0) ∧
      bounded.parts = (state.project policy (policy.inlineLimit options)).output ∧
      bounded.visibility = [] ∨
    ¬ (state.byteTruncated = true ∧ options.notrunc = false ∧ policy.artifactTailBytes ≠ 0) ∧
      bounded.parts = state.output ∧ bounded.visibility = visibilityReceipt state.visibleSpans
  omitted : bounded.omitted = (state.changed || transportSpill.isSome)
  spilled : ∀ artifact, transportSpill = some artifact → bounded.spilled = some artifact
  saved : transportSpill = none → state.changed = true →
    ∃ artifact, bounded.spilled = some artifact ∧ put (parts.flatMap Part.saved) = .ok artifact

theorem boundParts_cases
    (h : boundParts put parts visibility options policy transportSpill = .ok bounded) :
    Complete parts visibility options policy bounded ∨
      ∃ state, Cut put parts visibility options policy transportSpill bounded state := by
  rw [boundParts] at h
  dsimp only at h
  split at h
  · next hcomplete =>
    cases h
    exact .inl ⟨hcomplete.1, hcomplete.2, rfl, rfl⟩
  obtain ⟨state, hrun, h⟩ := Except.bind_eq_ok.1 h
  obtain ⟨spilled, hspill, h⟩ := Except.bind_eq_ok.1 h
  have hcollected := Bounding.collected_of_run hrun
  cases h
  refine .inr ⟨state, hcollected, ?_, ?_, ?_, ?_⟩
  · split
    · next hproject => exact .inl ⟨by simpa using hproject, rfl, rfl⟩
    · next hproject => exact .inr ⟨by simpa using hproject, rfl, rfl⟩
  · rw [apply_ite Bounding.changed]
    exact congrArg (· || _) (ite_self _)
  · rintro artifact rfl
    cases hspill
    rfl
  · rintro rfl hchanged
    rw [spillOf, apply_ite Bounding.changed, apply_ite Bounding.full] at hspill
    simp only [Bounding.project, ite_self, hchanged, if_true, putText] at hspill
    rw [← hcollected.full]
    split at hspill
    · next artifact hput =>
      cases hspill
      exact ⟨artifact, rfl, hput⟩
    · cases hspill

variable (hbound : boundParts put parts visibility options policy transportSpill = .ok bounded)

include hbound

/-- Text that is missing or altered was saved. -/
theorem boundParts_preserved (h : inlineTexts bounded.parts ≠ inlineTexts parts) :
    bounded.omitted = true ∧ ∃ artifact, bounded.spilled = some artifact ∧
      (transportSpill = none → put (parts.flatMap Part.saved) = .ok artifact) := by
  rcases boundParts_cases hbound with hcomplete | ⟨state, hcut⟩
  · exact absurd (congrArg inlineTexts hcomplete.parts) h
  have hchanged : state.changed = true := by
    rcases hcut.shown with ⟨⟨htruncated, -⟩, -⟩ | ⟨-, hparts, -⟩
    · exact (hcut.collected.cut htruncated).2
    · by_contra hsame
      rw [Bool.not_eq_true] at hsame
      rw [hparts] at h
      exact h (hcut.collected.unchanged hsame)
  refine ⟨by rw [hcut.omitted, hchanged, Bool.true_or], ?_⟩
  cases hspill : transportSpill with
  | none =>
    obtain ⟨artifact, hspilled, hput⟩ := hcut.saved hspill hchanged
    exact ⟨artifact, hspilled, fun _ => hput⟩
  | some artifact => exact ⟨artifact, hcut.spilled artifact hspill, fun h => by cases h⟩

/-- The receipt names lines that are shown. -/
theorem boundParts_visible (hspans : ∀ span ∈ visibility, span.InRange parts) :
    ∀ line ∈ bounded.visibility, ∃ span ∈ visibility,
      span.sourceKey = line.sourceKey ∧ span.line = line.line ∧ span.Shown parts bounded.parts := by
  intro line hline
  rcases boundParts_cases hbound with hcomplete | ⟨state, hcut⟩
  · rw [hcomplete.visibility] at hline
    obtain ⟨span, hspan, hkey, hnumber⟩ := mem_visibilityReceipt hline
    obtain ⟨source, hsource, -, -⟩ := hspans span hspan
    refine ⟨span, hspan, hkey, hnumber, source, source, hsource, ?_, ?_⟩
    · rw [hcomplete.parts, hsource]
    · exact (List.take_prefix _ _).isInfix.trans (List.drop_suffix _ _).isInfix
  · rcases hcut.shown with ⟨-, -, hnone⟩ | ⟨-, hparts, hvisible⟩
    · rw [hnone] at hline
      exact absurd hline List.not_mem_nil
    · rw [hvisible] at hline
      obtain ⟨span, hspan, hkey, hnumber⟩ := mem_visibilityReceipt hline
      obtain ⟨hmem, hshown⟩ := hcut.collected.visible span hspan
      rw [hparts]
      exact ⟨span, hmem, hkey, hnumber, hshown⟩

end

theorem DispatchPolicy.limits_of_bounded (policy : DispatchPolicy) {options : DispatchOptions}
    (h : options.notrunc = false) : policy.inlineLimit options = policy.maxOutputBytes ∧
      policy.lineLimit options = policy.maxLineBytes := by
  rw [DispatchPolicy.inlineLimit, DispatchPolicy.lineLimit, h]
  exact ⟨rfl, rfl⟩

/-- Only a head and a tail can pass the limit. -/
theorem boundParts_bounded_iff {put : List UInt8 → Except ε BlobRef} {policy : DispatchPolicy}
    {result : ExternalResult} {bounded : BoundedParts}
    (hbound : boundParts put result.parts result.visibility result.options policy
      result.transportSpill = .ok bounded) :
    (inlineTexts bounded.parts).flatten.length ≤ policy.inlineLimit result.options ↔
      HeadTailFits policy result := by
  rcases boundParts_cases hbound with hcomplete | ⟨state, hcut⟩
  · refine iff_of_true ?_ (.inl hcomplete.notrunc)
    rw [hcomplete.parts]
    exact (length_inlineTexts_le _).trans hcomplete.fits
  have hcollected := hcut.collected
  rcases hcut.shown with ⟨⟨htruncated, hnotrunc, htail⟩, hparts, -⟩ | ⟨hproject, hparts, -⟩
  · obtain ⟨hlimit, hline⟩ := policy.limits_of_bounded hnotrunc
    rw [hlimit, hline] at hcollected
    have hlong := (hcollected.cut htruncated).1
    have hprojected := hcollected.projected
    rw [hparts, hlimit, Bounding.inlineTexts_project, List.flatten_singleton, length_encode,
      byteLen_artifactProjection (by omega), HeadTailFits, ← hprojected]
    simp only [hnotrunc, htail, Nat.not_le.2 hlong, Bool.false_eq_true, false_or]
  · have hfits : HeadTailFits policy result := by
      rw [HeadTailFits]
      by_contra hnot
      simp only [not_or, Bool.not_eq_true, Nat.not_le] at hnot
      obtain ⟨hnotrunc, htail, hlong, -⟩ := hnot
      obtain ⟨hlimit, hline⟩ := policy.limits_of_bounded hnotrunc
      rw [hlimit, hline] at hcollected
      rw [← hcollected.projected] at hlong
      refine hproject ⟨?_, hnotrunc, htail⟩
      by_contra hwhole
      have := hcollected.whole (Bool.not_eq_true _ ▸ hwhole)
      have := hcollected.bounded
      omega
    refine iff_of_true ?_ hfits
    rw [hparts, ← hcollected.counted]
    exact hcollected.bounded

/-! ## Staged results -/

/-- A store that takes everything. -/
def putLength (bytes : List UInt8) : Except Empty BlobRef := .ok ⟨[], bytes.length⟩

/-- A long line, a line that stays whole, and one that is cut. -/
def threeLines : ExternalResult where
  name := "read"
  outcomeSpill := none
  options := ⟨false⟩
  parts := [.text "abcdef\nok\nmore".toList]
  visibility := [⟨0, 0, 6, "file", 1⟩, ⟨0, 7, 9, "file", 2⟩, ⟨0, 10, 14, "file", 3⟩]
  sourceArtifact := none
  transportProjection := none

end OhMyPi.Dispatch
