import OhMyPi.Recovery.Reading

/-! Leaked-thinking separation does not depend on how the text is cut into chunks, as long as no
opener follows a run of backticks that may be taken for a fence. -/

namespace OhMyPi.Recovery

open Text (IsText bytes)

/-! ### What events show -/

def ThinkingEvent.visible : ThinkingEvent → Bytes
  | .text b => b
  | _ => []

/-- The thinking bytes of an event, none where a block starts. -/
def ThinkingEvent.marks : ThinkingEvent → List (Option UInt8)
  | .thinkingStart => [none]
  | .thinkingDelta b => b.map some
  | _ => []

/-- The concatenated visible text. -/
def visibleText (events : List ThinkingEvent) : Bytes := events.flatMap ThinkingEvent.visible

def thinkingMarks (events : List ThinkingEvent) : List (Option UInt8) :=
  events.flatMap ThinkingEvent.marks

@[simp] theorem visibleText_append (es es' : List ThinkingEvent) :
    visibleText (es ++ es') = visibleText es ++ visibleText es' := List.flatMap_append

@[simp] theorem thinkingMarks_append (es es' : List ThinkingEvent) :
    thinkingMarks (es ++ es') = thinkingMarks es ++ thinkingMarks es' := List.flatMap_append

namespace Stage

variable {s : Stage}

/-- The events of `emitText`. -/
def spoken (b : Bytes) (amount : Nat) : List ThinkingEvent :=
  if amount = 0 then [] else [.text (b.take amount)]

/-- The stage after `emitText`. -/
def spent (s : Stage) (amount : Nat) : Stage :=
  { s with
    buffer := s.buffer.drop amount
    lineIndent :=
      if amount = 0 then s.lineIndent else trailingIndent (s.buffer.take amount) s.lineIndent }

theorem emitText_eq (s : Stage) (amount : Nat) :
    s.emitText amount = (s.spent amount, spoken s.buffer amount) := by
  rw [emitText, spent, spoken]
  split
  next h => rw [h, List.drop_zero]
  next => rfl

@[simp] theorem visibleText_spoken (b : Bytes) (amount : Nat) :
    visibleText (spoken b amount) = b.take amount := by
  rw [spoken]
  split
  next h => rw [h]; rfl
  next => exact List.append_nil _

@[simp] theorem thinkingMarks_spoken (b : Bytes) (amount : Nat) :
    thinkingMarks (spoken b amount) = [] := by
  rw [spoken]
  split
  · rfl
  · rfl

@[simp] theorem visibleText_delta (b : Bytes) : visibleText (delta b) = [] := by
  rw [delta]
  split
  · rfl
  · rfl

@[simp] theorem thinkingMarks_delta (b : Bytes) : thinkingMarks (delta b) = b.map some := by
  rw [delta]
  split
  next h => rw [List.isEmpty_iff.1 h]; rfl
  next => exact List.append_nil _

theorem indents_spent (h : Indents seen s.lineIndent) (amount : Nat) :
    Indents (seen ++ s.buffer.take amount) (s.spent amount).lineIndent := by
  rw [spent]
  dsimp only
  split
  next hz => rwa [hz, List.take_zero, List.append_nil]
  next =>
    obtain ⟨pieces, rfl, hfold⟩ := h
    refine ⟨pieces ++ [s.buffer.take amount], ?_, ?_⟩
    · rw [List.flatten_append, List.flatten_singleton]
    · rw [List.foldl_append, hfold]
      rfl

/-! ### The stage and the reading of the text -/

/-- What remains of the text, in the buffer and still to come, is read as `text` and `marks`. -/
inductive Agrees (s : Stage) (rest : Bytes) : Bytes → List (Option UInt8) → Prop
  | visible : s.state = .visible → IsText (s.buffer ++ rest) → Indents (seen ++ lead) s.lineIndent →
      Reads s.patterns s.config.maxBlockBytes (.visible lead) seen (s.buffer ++ rest) text marks →
      Agrees s rest text marks
  | span : s.state = .code ticks false → IsText (s.buffer ++ rest) → Indents seen s.lineIndent →
      Reads s.patterns s.config.maxBlockBytes (.span ticks) seen (s.buffer ++ rest) text marks →
      Agrees s rest text marks
  | fence : s.state = .code ticks true → IsText (s.buffer ++ rest) → Indents seen s.lineIndent →
      Hushed s.patterns ticks true (s.buffer ++ rest) → Agrees s rest (s.buffer ++ rest) []
  | thought : s.state = .thinking p searched inputBytes → IsText (before ++ (s.buffer ++ rest)) →
      Indents seen s.lineIndent → searched ≤ s.buffer.length →
      find p.closer (s.buffer.take searched) = none →
      Reads s.patterns s.config.maxBlockBytes (.thought p inputBytes) seen (s.buffer ++ rest)
        text marks →
      Agrees s rest text marks

theorem Agrees.nil (hstate : s.state = .visible) (hbuffer : s.buffer = [])
    (h : Indents seen s.lineIndent) : Agrees s [] [] [] := by
  have hreads : Reads s.patterns s.config.maxBlockBytes (.visible []) seen [] [] [] := .rest rfl
  have hindents : Indents (seen ++ []) s.lineIndent := by rwa [List.append_nil]
  refine .visible hstate ?_ hindents ?_
  · rw [hbuffer]
    exact ⟨[], rfl⟩
  · rwa [hbuffer]

/-- One turn of the loop reads on: what it emits and what then remains is what remained before. -/
def Follows (s : Stage) (final : Bool) (rest text : Bytes) (marks : List (Option UInt8)) :
    Stage × List ThinkingEvent × Turn → Prop
  | (s', events, turn) =>
    ∃ text' marks', text = visibleText events ++ text' ∧ marks = thinkingMarks events ++ marks' ∧
      Agrees s' rest text' marks' ∧
      match turn with
      | .again => s'.buffer.length < s.buffer.length
      | .done => final = true → text' = [] ∧ marks' = []
      | .failed _ => False

theorem Agrees.again {s' : Stage} (h : Agrees s' rest text' marks')
    (htext : text = visibleText events ++ text') (hmarks : marks = thinkingMarks events ++ marks')
    (hless : s'.buffer.length < s.buffer.length) :
    Follows s final rest text marks (s', events, .again) :=
  ⟨text', marks', htext, hmarks, h, hless⟩

theorem Agrees.wait {s' : Stage} (h : Agrees s' rest text' marks')
    (htext : text = visibleText events ++ text') (hmarks : marks = thinkingMarks events ++ marks')
    (hfinal : final = false) : Follows s final rest text marks (s', events, .done) :=
  ⟨text', marks', htext, hmarks, h, fun h => absurd (hfinal.symm.trans h) Bool.false_ne_true⟩

/-- The bytes that are checked for UTF-8. -/
theorem validPrefix_of_isText (h : IsText (b ++ rest)) (hfinal : final = true → rest = []) :
    ∃ n ≤ b.length, validPrefix b final = .ok n ∧ IsText (b.drop n ++ rest) ∧
      (final = true → n = b.length) := by
  obtain ⟨n, hn, htext, hvalid⟩ := Text.validate_of_isText h 0
  rcases hvalid with ⟨hrun, rfl⟩ | ⟨hrun, hrest⟩
  · refine ⟨b.length, Nat.le_refl _, ?_, htext, fun _ => rfl⟩
    rw [validPrefix, hrun]
  · have hmore : final = false := by
      cases final with
      | false => rfl
      | true => exact absurd (hfinal rfl) hrest
    refine ⟨n, hn, ?_, htext, fun h => absurd (hmore.symm.trans h) Bool.false_ne_true⟩
    rw [validPrefix, hrun, hmore]
    simp

theorem isText_of_delimiter (hd : isDelimiter d = true) (h : IsText (a ++ (d ++ b))) :
    IsText b := by
  obtain ⟨hne, hascii⟩ := isDelimiter_iff.1 hd
  obtain ⟨d', x, hx⟩ := List.eq_nil_or_concat d |>.resolve_left hne
  rw [hx, List.concat_eq_append, List.append_assoc, ← List.append_assoc] at h
  apply h.after_ascii
  apply hascii
  rw [hx, List.concat_eq_append]
  exact List.mem_append_right _ List.mem_cons_self

theorem delimiter_replicate (h : 0 < ticks) :
    isDelimiter (List.replicate ticks backtick) = true := by
  rw [isDelimiter_iff]
  refine ⟨fun hnil => ?_, fun x hx => ?_⟩
  · exact absurd ((List.replicate_eq_nil_iff backtick).1 hnil) (Nat.ne_of_gt h)
  · rw [List.eq_of_mem_replicate hx]
    decide

/-- The hit in what may be scanned is the hit in all that remains. -/
theorem visibleHit_code_of_part (hfinal : final = true → y = [])
    (h : visibleHit s.patterns final 0 w = .code start ticks) :
    visibleHit s.patterns true 0 (w ++ y) = .code start ticks := by
  cases final with
  | false => exact visibleHit_append_code h y
  | true => rw [hfinal rfl, List.append_nil, h]

theorem visibleHit_tag_of_part (hfinal : final = true → y = [])
    (h : visibleHit s.patterns final 0 w = .tag start p) :
    visibleHit s.patterns true 0 (w ++ y) = .tag start p := by
  cases final with
  | false => exact visibleHit_append_tag h y
  | true => rw [hfinal rfl, List.append_nil, h]

theorem spent_buffer_append (s : Stage) {amount : Nat} (h : amount ≤ s.buffer.length)
    (rest : Bytes) : (s.spent amount).buffer ++ rest = (s.buffer ++ rest).drop amount :=
  (List.drop_append_of_le_length h).symm

theorem take_append_rest (s : Stage) {amount : Nat} (h : amount ≤ s.buffer.length)
    (rest : Bytes) : s.buffer.take amount = (s.buffer ++ rest).take amount :=
  (List.take_append_of_le_length h).symm

/-- Visible text that is passed is emitted. -/
theorem follows_pass (hstate : s.state = .visible) (hfinal : final = false)
    (hindents : Indents (seen ++ lead) s.lineIndent)
    (hreads : Reads s.patterns s.config.maxBlockBytes (.visible lead) seen (s.buffer ++ rest)
      text marks)
    (hamount : amount ≤ s.buffer.length)
    (hhit : visibleHit s.patterns true 0 (s.buffer ++ rest) =
      visibleHit s.patterns true amount (s.buffer.drop amount ++ rest))
    (htext : IsText (s.buffer.drop amount ++ rest)) :
    Follows s final rest text marks (s.spent amount, spoken s.buffer amount, .done) := by
  have hsplit : s.buffer ++ rest = s.buffer.take amount ++ (s.buffer.drop amount ++ rest) := by
    rw [← List.append_assoc, List.take_append_drop]
  have hlength : (s.buffer.take amount).length = amount := List.length_take_of_le hamount
  rw [hsplit] at hreads
  obtain ⟨text', rfl, hreads'⟩ := hreads.visible_of_shift (by rw [← hsplit, hhit, hlength])
  have hindents' := indents_spent hindents amount
  rw [List.append_assoc] at hindents'
  have hagrees : Agrees (s.spent amount) rest text' marks :=
    .visible hstate htext hindents' hreads'
  refine hagrees.wait ?_ ?_ hfinal
  · rw [visibleText_spoken]
  · rw [thinkingMarks_spoken, List.nil_append]

theorem follows_code
    (hcode : visibleHit s.patterns true 0 (s.buffer ++ rest) = .code start ticks)
    (htext : IsText (s.buffer ++ rest)) (hindents : Indents (seen ++ lead) s.lineIndent)
    (hreads : Reads s.patterns s.config.maxBlockBytes (.visible lead) seen (s.buffer ++ rest)
      text marks)
    (hle : start + ticks ≤ s.buffer.length) :
    Follows s final rest text marks
      ({ s.spent (start + ticks) with
          state := .code ticks (ticks ≥ 3 && 0 ≤ s.lineIndent && s.lineIndent ≤ 3) },
        spoken s.buffer (start + ticks), .again) := by
  obtain ⟨hticks, b₁, b₂, hb, hstart⟩ := visibleHit_eq_code hcode
  rw [Nat.zero_add] at hstart
  have hdrop : (s.buffer ++ rest).drop (start + ticks) = b₂ := by
    rw [hb, ← List.append_assoc]
    apply List.drop_left'
    rw [List.length_append, List.length_replicate, hstart]
  have htext' : IsText ((s.buffer ++ rest).drop (start + ticks)) := by
    rw [hdrop]
    rw [hb] at htext
    exact isText_of_delimiter (delimiter_replicate hticks) htext
  have hindents' := indents_spent hindents (start + ticks)
  have hmay : May seen (lead ++ (s.buffer ++ rest).take start) ticks
      (ticks ≥ 3 && 0 ≤ s.lineIndent && s.lineIndent ≤ 3) :=
    ⟨lead, List.prefix_append _ _, s.lineIndent, hindents, rfl⟩
  rw [take_append_rest s hle rest] at hindents'
  have hless : (s.buffer.drop (start + ticks)).length < s.buffer.length := by
    rw [List.length_drop]
    omega
  have hbuffer := spent_buffer_append s hle rest
  rw [← hbuffer] at htext'
  cases hreads with
  | rest hnone => rw [hcode] at hnone; cases hnone
  | tag htag => rw [hcode] at htag; cases htag
  | code hcode' hnot hrest =>
    rw [hcode] at hcode'
    cases hcode'
    rw [← hbuffer] at hrest
    refine Agrees.again (.span ?_ htext' hindents' hrest) ?_ ?_ hless
    · cases hfenced : (decide (ticks ≥ 3) && decide (0 ≤ s.lineIndent) && decide (s.lineIndent ≤ 3))
      · rfl
      · exact absurd (hfenced ▸ hmay) hnot
    · rw [visibleText_spoken, take_append_rest s hle rest]
    · rw [thinkingMarks_spoken, List.nil_append]
  | fence hcode' hhushed =>
    rw [hcode] at hcode'
    cases hcode'
    have hhushed' := hhushed _ hmay
    rw [← hbuffer] at hhushed'
    have htake : s.buffer ++ rest = visibleText (spoken s.buffer (start + ticks)) ++
        ((s.spent (start + ticks)).buffer ++ rest) := by
      rw [visibleText_spoken, take_append_rest s hle rest, hbuffer, List.take_append_drop]
    cases hfenced : (decide (ticks ≥ 3) && decide (0 ≤ s.lineIndent) && decide (s.lineIndent ≤ 3))
    · rw [hfenced] at hhushed'
      refine Agrees.again (.span rfl htext' hindents' (hhushed'.reads _)) htake ?_ hless
      rw [thinkingMarks_spoken]
      rfl
    · rw [hfenced] at hhushed'
      refine Agrees.again (.fence rfl htext' hindents' hhushed') htake ?_ hless
      rw [thinkingMarks_spoken]
      rfl

theorem follows_tag (htag : visibleHit s.patterns true 0 (s.buffer ++ rest) = .tag start p)
    (htext : IsText (s.buffer ++ rest)) (hindents : Indents (seen ++ lead) s.lineIndent)
    (hreads : Reads s.patterns s.config.maxBlockBytes (.visible lead) seen (s.buffer ++ rest)
      text marks)
    (hle : start + p.opener.length ≤ s.buffer.length) :
    Follows s final rest text marks
      ({ s.spent start with
          buffer := (s.spent start).buffer.drop p.opener.length
          state := .thinking p 0 p.opener.length },
        spoken s.buffer start ++ [.thinkingStart], .again) := by
  have hstart : start ≤ s.buffer.length := Nat.le_trans (Nat.le_add_right _ _) hle
  have hbuffer : (s.spent start).buffer.drop p.opener.length ++ rest =
      (s.buffer ++ rest).drop (start + p.opener.length) := by
    rw [spent, List.drop_drop, List.drop_append_of_le_length hle]
  have hpos : 0 < p.opener.length := List.length_pos_iff.2 p.opener_ne
  have hless : ((s.spent start).buffer.drop p.opener.length).length < s.buffer.length := by
    rw [spent, List.drop_drop, List.length_drop]
    omega
  have hindents' := indents_spent hindents start
  rw [take_append_rest s hstart rest] at hindents'
  cases hreads with
  | rest hnone => rw [htag] at hnone; cases hnone
  | tag htag' hrest =>
    rw [htag] at htag'
    cases htag'
    rw [← hbuffer] at hrest
    rw [← List.take_append_drop (start + p.opener.length) (s.buffer ++ rest), ← hbuffer] at htext
    refine Agrees.again (.thought rfl htext hindents' (Nat.zero_le _) rfl hrest) ?_ ?_ hless
    · rw [visibleText_append, visibleText_spoken, take_append_rest s hstart rest]
      exact congrArg (· ++ _) (List.append_nil _).symm
    · rw [thinkingMarks_append, thinkingMarks_spoken]
      rfl
  | code hcode => rw [htag] at hcode; cases hcode
  | fence hcode => rw [htag] at hcode; cases hcode

/-- The turn that ends a run: nothing remains. -/
theorem follows_end {s' : Stage} (hstate : s'.state = .visible) (hbuffer : s'.buffer = [])
    (hindents : Indents seen s'.lineIndent) (htext : text = visibleText events)
    (hmarks : marks = thinkingMarks events) :
    Follows s final [] text marks (s', events, .done) := by
  refine ⟨[], [], ?_, ?_, .nil hstate hbuffer hindents, fun _ => ⟨rfl, rfl⟩⟩
  · rw [htext, List.append_nil]
  · rw [hmarks, List.append_nil]

theorem visibleTurn_follows (hstate : s.state = .visible) (htext : IsText (s.buffer ++ rest))
    (hindents : Indents (seen ++ lead) s.lineIndent)
    (hreads : Reads s.patterns s.config.maxBlockBytes (.visible lead) seen (s.buffer ++ rest)
      text marks)
    (hfinal : final = true → rest = []) : Follows s final rest text marks (s.visibleTurn final) := by
  obtain ⟨valid, hvalid, hprefix, htext', hwhole⟩ := validPrefix_of_isText htext hfinal
  have hsplit : s.buffer ++ rest = s.buffer.take valid ++ (s.buffer.drop valid ++ rest) := by
    rw [← List.append_assoc, List.take_append_drop]
  have hrest : final = true → s.buffer.drop valid ++ rest = [] := by
    intro h
    rw [hwhole h, hfinal h, List.drop_length, List.append_nil]
  have hlength : (s.buffer.take valid).length = valid := List.length_take_of_le hvalid
  rw [visibleTurn, hprefix]
  simp only [emitText_eq]
  split
  next hzero =>
    refine ⟨text, marks, rfl, rfl, .visible hstate htext hindents hreads, ?_⟩
    intro h
    have hnil : s.buffer ++ rest = [] := by
      rw [hsplit, hrest h, hzero, List.take_zero, List.append_nil]
    rw [hnil] at hreads
    cases hreads with
    | rest => exact ⟨rfl, rfl⟩
    | tag htag => cases htag
    | code hcode => cases hcode
    | fence hcode => cases hcode
  next hpos =>
    cases hhit : visibleHit s.patterns final 0 (s.buffer.take valid) with
    | none =>
      dsimp only
      cases final with
      | false =>
        apply follows_pass hstate rfl hindents hreads hvalid _ htext'
        have hpass := visibleHit_append_none hhit (s.buffer.drop valid ++ rest)
        rw [hsplit, hpass, hlength, Nat.zero_add]
      | true =>
        have hbuffer : s.buffer.take valid = s.buffer := by rw [hwhole rfl, List.take_length]
        have hspent : (s.spent valid).buffer = [] := by
          rw [spent, hwhole rfl]
          exact List.drop_length
        cases hfinal rfl
        rw [List.append_nil] at hreads
        rw [hbuffer] at hhit
        cases hreads with
        | rest =>
          refine follows_end (s := s) ?_ hspent (indents_spent hindents valid) ?_ ?_
          · exact hstate
          · rw [visibleText_spoken, hbuffer]
          · rw [thinkingMarks_spoken]
        | tag htag => rw [hhit] at htag; cases htag
        | code hcode => rw [hhit] at hcode; cases hcode
        | fence hcode => rw [hhit] at hcode; cases hcode
    | hold start =>
      dsimp only
      cases final with
      | true => exact absurd hhit (visibleHit_ne_hold 0 _ start)
      | false =>
        obtain ⟨b₁, x, b₂, hb, hstart, hx, hpass⟩ :=
          visibleHit_append_hold hhit (s.buffer.drop valid ++ rest)
        rw [Nat.zero_add] at hstart
        have hbuffer : s.buffer = b₁ ++ (x :: b₂ ++ s.buffer.drop valid) := by
          rw [← List.append_assoc, ← hb, List.take_append_drop]
        have hdrop : s.buffer.drop start = x :: b₂ ++ s.buffer.drop valid := by
          rw [hbuffer, List.drop_left' hstart.symm, ← hbuffer]
        have hle : start ≤ s.buffer.length := by
          rw [hstart, hbuffer, List.length_append]
          exact Nat.le_add_right _ _
        apply follows_pass hstate rfl hindents hreads hle
        · rw [hsplit, hpass, hdrop, List.append_assoc]
        · rw [hdrop, List.append_assoc]
          rw [hsplit, hb, List.append_assoc] at htext
          exact htext.from_ascii hx
    | code start ticks =>
      have hcode := visibleHit_code_of_part hrest hhit
      rw [← hsplit] at hcode
      apply follows_code hcode htext hindents hreads
      obtain ⟨-, b₁, b₂, hb, hstart⟩ := visibleHit_eq_code hhit
      apply Nat.le_trans _ (Nat.le_trans (Nat.le_of_eq hlength) hvalid)
      rw [hb, List.length_append, List.length_append, List.length_replicate]
      omega
    | tag start p =>
      have htag := visibleHit_tag_of_part hrest hhit
      rw [← hsplit] at htag
      apply follows_tag htag htext hindents hreads
      obtain ⟨-, b₁, b₂, hb, hstart⟩ := visibleHit_eq_tag hhit
      apply Nat.le_trans _ (Nat.le_trans (Nat.le_of_eq hlength) hvalid)
      rw [hb, List.length_append, List.length_append]
      omega

/-- Bytes of a span that cannot close it are emitted. -/
theorem follows_span_pass (hstate : s.state = .code ticks false) (hfinal : final = false)
    (hwhole : IsText (s.buffer ++ rest)) (hindents : Indents seen s.lineIndent)
    (hreads : Reads s.patterns s.config.maxBlockBytes (.span ticks) seen (s.buffer ++ rest)
      text marks)
    (hvalid : valid ≤ s.buffer.length) (htext : IsText (s.buffer.drop valid ++ rest))
    (hopen : ∀ stop, exactBacktickRun ticks 0 0 (s.buffer.take valid) = some stop →
      valid ≤ stop + ticks) :
    Follows s final rest text marks
      (s.spent (valid - trailingBackticks (s.buffer.take valid)),
        spoken s.buffer (valid - trailingBackticks (s.buffer.take valid)), .done) := by
  obtain ⟨v, u, hb, hu, hticks, hlast⟩ := trailing_eq (· = backtick) (s.buffer.take valid)
  have hlength : (v ++ u).length = valid := by
    rw [← hb]
    exact List.length_take_of_le hvalid
  have hamount : valid - trailingBackticks (s.buffer.take valid) = v.length := by
    rw [trailingBackticks, run, ← hu, ← hlength, List.length_append, Nat.add_sub_cancel]
  have hbuffer : s.buffer = v ++ (u ++ s.buffer.drop valid) := by
    rw [← List.append_assoc, ← hb, List.take_append_drop]
  have hdrop : s.buffer.drop v.length = u ++ s.buffer.drop valid := by
    rw [hbuffer, List.drop_left, ← hbuffer]
  have htake : s.buffer.take v.length = v := by
    rw [hbuffer, List.take_left]
  have hrest : s.buffer ++ rest = v ++ (u ++ (s.buffer.drop valid ++ rest)) := by
    rw [← List.append_assoc u, ← List.append_assoc v, ← hbuffer]
  have hpass : exactBacktickRun ticks 0 0 (v ++ (u ++ (s.buffer.drop valid ++ rest))) =
      exactBacktickRun ticks (0 + v.length) 0 (u ++ (s.buffer.drop valid ++ rest)) := by
    apply exactBacktickRun_pass _ (Nat.zero_le _)
    · intro stop hstop
      rw [Nat.zero_add, hlength]
      exact hopen stop (hb ▸ hstop)
    · intro x hx
      exact of_decide_eq_false (hlast x hx)
  have htext' : IsText (s.buffer.drop v.length ++ rest) := by
    rw [hdrop, List.append_assoc]
    cases u with
    | nil => exact htext
    | cons x u =>
      have hx : x.toNat < 128 := by
        rw [of_decide_eq_true (hticks x List.mem_cons_self)]
        decide
      rw [hrest] at hwhole
      exact hwhole.from_ascii hx
  rw [hamount]
  rw [hrest] at hreads
  obtain ⟨text', rfl, hreads'⟩ := hreads.span_of_shift (by rw [hpass, Nat.zero_add])
  have hindents' := indents_spent hindents v.length
  rw [htake] at hindents'
  have hreads'' : Reads (s.spent v.length).patterns (s.spent v.length).config.maxBlockBytes
      (.span ticks) (seen ++ v) ((s.spent v.length).buffer ++ rest) text' marks := by
    rwa [spent, hdrop, List.append_assoc]
  refine Agrees.wait (.span hstate htext' hindents' hreads'') ?_ ?_ hfinal
  · rw [visibleText_spoken, htake]
  · rw [thinkingMarks_spoken, List.nil_append]

/-- Where a span closes, visible text goes on. -/
theorem follows_span_close (hwhole : IsText (s.buffer ++ rest))
    (hindents : Indents seen s.lineIndent)
    (hreads : Reads s.patterns s.config.maxBlockBytes (.span ticks) seen (s.buffer ++ rest)
      text marks)
    (hrun : exactBacktickRun ticks 0 0 (s.buffer ++ rest) = some stop)
    (hle : stop + ticks ≤ s.buffer.length) :
    Follows s final rest text marks
      ({ s.spent (stop + ticks) with state := .visible }, spoken s.buffer (stop + ticks),
        .again) := by
  obtain ⟨hticks, b₁, b₂, hb, hstop⟩ := exactBacktickRun_eq_some hrun
  rw [Nat.zero_add] at hstop
  have hbuffer := spent_buffer_append s hle rest
  have htext : IsText ((s.spent (stop + ticks)).buffer ++ rest) := by
    rw [hbuffer, hb, ← List.append_assoc, List.drop_left']
    · rw [hb] at hwhole
      exact isText_of_delimiter (delimiter_replicate hticks) hwhole
    · rw [List.length_append, List.length_replicate, hstop]
  have hindents' := indents_spent hindents (stop + ticks)
  rw [take_append_rest s hle rest, ← List.append_nil (seen ++ _)] at hindents'
  cases hreads with
  | spanOpen hnone =>
    rw [hrun] at hnone
    cases hnone
  | spanClosed hsome hrest =>
    rw [hrun] at hsome
    cases hsome
    rw [← hbuffer] at hrest
    refine Agrees.again (.visible rfl htext hindents' hrest) ?_ ?_ ?_
    · rw [visibleText_spoken, take_append_rest s hle rest]
    · rw [thinkingMarks_spoken, List.nil_append]
    · rw [spent, List.length_drop]
      omega

theorem spanTurn_follows (hstate : s.state = .code ticks false) (htext : IsText (s.buffer ++ rest))
    (hindents : Indents seen s.lineIndent)
    (hreads : Reads s.patterns s.config.maxBlockBytes (.span ticks) seen (s.buffer ++ rest)
      text marks)
    (hfinal : final = true → rest = []) :
    Follows s final rest text marks (s.codeTurn final ticks false) := by
  obtain ⟨valid, hvalid, hprefix, htext', hwhole⟩ := validPrefix_of_isText htext hfinal
  have hsplit : s.buffer ++ rest = s.buffer.take valid ++ (s.buffer.drop valid ++ rest) := by
    rw [← List.append_assoc, List.take_append_drop]
  have hrest : final = true → s.buffer.drop valid ++ rest = [] := by
    intro h
    rw [hwhole h, hfinal h, List.drop_length, List.append_nil]
  have hlength : (s.buffer.take valid).length = valid := List.length_take_of_le hvalid
  rw [codeTurn, hprefix]
  simp only [emitText_eq, Bool.false_eq_true, ↓reduceIte]
  cases hrun : exactBacktickRun ticks 0 0 (s.buffer.take valid) with
  | some stop =>
    dsimp only
    obtain ⟨-, b₁, b₂, hb, hstop⟩ := exactBacktickRun_eq_some hrun
    have hle : stop + ticks ≤ valid := by
      rw [← hlength, hb, List.length_append, List.length_append, List.length_replicate]
      omega
    split
    next hclosed =>
      apply follows_span_close htext hindents hreads _ (Nat.le_trans hle hvalid)
      rw [hsplit]
      cases final with
      | true => rw [hrest rfl, List.append_nil, hrun]
      | false =>
        have hlt : stop + ticks < valid := by simpa using hclosed
        apply exactBacktickRun_append hrun
        rwa [hlength, Nat.zero_add]
    next hopen =>
      rw [Bool.or_eq_true, not_or, decide_eq_true_eq, Bool.not_eq_true] at hopen
      apply follows_span_pass hstate hopen.1 htext hindents hreads hvalid htext'
      intro stop' hstop'
      rw [hrun] at hstop'
      cases hstop'
      exact Nat.not_lt.1 hopen.2
  | none =>
    dsimp only
    cases final with
    | true =>
      have hbuffer : s.buffer.take valid = s.buffer := by rw [hwhole rfl, List.take_length]
      cases hfinal rfl
      rw [List.append_nil] at hreads
      rw [hbuffer] at hrun
      cases hreads with
      | spanOpen =>
        refine follows_end (s := s) rfl ?_ (indents_spent hindents valid) ?_ ?_
        · rw [spent, hwhole rfl]
          exact List.drop_length
        · rw [visibleText_spoken, hbuffer]
        · rw [thinkingMarks_spoken]
      | spanClosed hsome =>
        rw [hrun] at hsome
        cases hsome
    | false =>
      apply follows_span_pass hstate rfl htext hindents hreads hvalid htext'
      intro stop hstop
      rw [hrun] at hstop
      cases hstop

/-- A text can be cut after a newline. -/
theorem isText_of_newline (hlast : ∀ x ∈ v.getLast?, x = newline) (h : IsText (v ++ b)) :
    IsText b := by
  rcases List.eq_nil_or_concat v with rfl | ⟨v', x, rfl⟩
  · exact h
  · rw [List.concat_eq_append] at hlast h
    have hx : x = newline := hlast x (by rw [List.getLast?_concat]; rfl)
    rw [List.append_assoc] at h
    exact h.after_ascii (hx ▸ (by decide))

/-- Where a fence closes, visible text without openers goes on. -/
theorem follows_fence_close (hindents : Indents seen s.lineIndent)
    (hhushed : Hushed s.patterns ticks true (s.buffer ++ rest))
    (hclose : fenceCloseEnd ticks true 0 (splitLines (s.buffer ++ rest)) = some stop)
    (hpos : 0 < stop) (hle : stop ≤ s.buffer.length)
    (htext : IsText ((s.buffer ++ rest).drop stop)) :
    Follows s final rest (s.buffer ++ rest) []
      ({ s.spent stop with state := .visible }, spoken s.buffer stop, .again) := by
  have hfree : Free s.patterns ((s.buffer ++ rest).drop stop) := hhushed stop hclose
  have hbuffer := spent_buffer_append s hle rest
  have hindents' := indents_spent hindents stop
  rw [← List.append_nil (seen ++ _)] at hindents'
  rw [← hbuffer] at htext hfree
  refine Agrees.again (.visible rfl htext hindents' (hfree.reads _ _)) ?_ ?_ ?_
  · rw [visibleText_spoken, take_append_rest s hle rest, hbuffer, List.take_append_drop]
  · rw [thinkingMarks_spoken]
    rfl
  · rw [spent, List.length_drop]
    omega

/-- Lines of a fence are emitted, one that closes it may be among them. -/
theorem follows_fence_pass {v z : Bytes} (hstate : s.state = .code ticks true)
    (hfinal : final = false) (htext : IsText (s.buffer ++ rest))
    (hindents : Indents seen s.lineIndent)
    (hhushed : Hushed s.patterns ticks true (s.buffer ++ rest)) (hbuffer : s.buffer = v ++ z)
    (hlast : ∀ x ∈ v.getLast?, x = newline) :
    Follows s final rest (s.buffer ++ rest) []
      (s.spent v.length, spoken s.buffer v.length, .done) := by
  have hdrop : (s.spent v.length).buffer = z := by
    rw [spent, hbuffer]
    exact List.drop_left
  have htake : s.buffer.take v.length = v := by
    rw [hbuffer]
    exact List.take_left
  have hrest : s.buffer ++ rest = v ++ (z ++ rest) := by rw [hbuffer, List.append_assoc]
  have htext' : IsText ((s.spent v.length).buffer ++ rest) := by
    rw [hdrop]
    rw [hrest] at htext
    exact isText_of_newline hlast htext
  have hhushed' : Hushed (s.spent v.length).patterns ticks true
      ((s.spent v.length).buffer ++ rest) := by
    rw [hdrop]
    intro stop hstop
    obtain ⟨stop', hstop', hle⟩ := fenceCloseEnd_lines hstop (splitLines v) 0
    rw [← splitLines_append hlast, ← hrest] at hstop'
    rw [flatten_splitLines, Nat.zero_add] at hle
    have hdrop' : (z ++ rest).drop stop = (v ++ (z ++ rest)).drop (v.length + stop) :=
      (List.drop_length_add_append _).symm
    rw [hdrop', ← hrest]
    exact (hhushed stop' hstop').of_suffix (List.drop_suffix_drop_left _ hle)
  refine Agrees.wait (.fence hstate htext' (indents_spent hindents v.length) hhushed') ?_ ?_ hfinal
  · rw [visibleText_spoken, htake, hdrop, hrest]
  · rw [thinkingMarks_spoken]
    rfl

theorem fenceTurn_follows (hstate : s.state = .code ticks true) (htext : IsText (s.buffer ++ rest))
    (hindents : Indents seen s.lineIndent)
    (hhushed : Hushed s.patterns ticks true (s.buffer ++ rest))
    (hfinal : final = true → rest = []) :
    Follows s final rest (s.buffer ++ rest) [] (s.codeTurn final ticks true) := by
  obtain ⟨valid, hvalid, hprefix, htext', hwhole⟩ := validPrefix_of_isText htext hfinal
  have hsplit : s.buffer ++ rest = s.buffer.take valid ++ (s.buffer.drop valid ++ rest) := by
    rw [← List.append_assoc, List.take_append_drop]
  have hlength : (s.buffer.take valid).length = valid := List.length_take_of_le hvalid
  rw [codeTurn, hprefix]
  simp only [emitText_eq, ↓reduceIte]
  cases hclose : fenceCloseEnd ticks final 0 (splitLines (s.buffer.take valid)) with
  | some stop =>
    obtain ⟨b₁, b₂, hb, hstop, hne, hend⟩ := fenceCloseEnd_eq_some hclose
    have hpos := List.length_pos_iff.2 hne
    have hle : stop ≤ valid := by
      rw [← hlength, hb, List.length_append]
      omega
    rw [hb, List.append_assoc] at hsplit
    apply follows_fence_close hindents hhushed _ (by omega) (Nat.le_trans hle hvalid)
    · rw [hsplit, List.drop_left' (by omega)]
      rcases hend with rfl | hlast
      · exact htext'
      · rw [hsplit] at htext
        exact isText_of_newline hlast htext
    · cases final with
      | true =>
        have hbuffer : s.buffer.take valid = s.buffer := by rw [hwhole rfl, List.take_length]
        rw [hbuffer] at hclose
        rw [hfinal rfl, List.append_nil, hclose]
      | false =>
        rw [hsplit, ← List.append_assoc, ← hb]
        exact fenceCloseEnd_append hclose _
  | none =>
    dsimp only
    cases final with
    | true =>
      have hbuffer : s.buffer.take valid = s.buffer := by rw [hwhole rfl, List.take_length]
      cases hfinal rfl
      simp only [↓reduceIte]
      refine follows_end (s := s) rfl ?_ (indents_spent hindents valid) ?_ ?_
      · rw [spent, hwhole rfl]
        exact List.drop_length
      · rw [visibleText_spoken, hbuffer, List.append_nil]
      · rw [thinkingMarks_spoken]
    | false =>
      obtain ⟨v, u, hb, hu, -, hlast⟩ := trailing_eq (· ≠ newline) (s.buffer.take valid)
      have hamount : valid - ((s.buffer.take valid).reverse.takeWhile (· ≠ newline)).length =
          v.length := by
        rw [← hu, ← hlength, hb, List.length_append, Nat.add_sub_cancel]
      simp only [Bool.false_eq_true, ↓reduceIte]
      rw [hamount]
      apply follows_fence_pass hstate rfl htext hindents hhushed (z := u ++ s.buffer.drop valid)
      · rw [← List.append_assoc, ← hb, List.take_append_drop]
      · intro x hx
        simpa using hlast x hx

theorem take_trimmed (p : Pattern) {b : Bytes} (h : stop ≤ b.length) :
    b.take (stop - (p.trimFinalNewline && decide (0 < stop) &&
      decide (b[stop - 1]? = some newline)).toNat) = p.trim (b.take stop) := by
  rcases Nat.eq_zero_or_pos stop with rfl | hpos
  · rw [Nat.zero_sub, List.take_zero]
    exact (ite_self []).symm
  · have hlast : (b.take stop).getLast? = b[stop - 1]? := by
      rw [List.getLast?_take, if_neg (Nat.ne_of_gt hpos), List.getElem?_eq_getElem (by omega)]
      rfl
    rw [Pattern.trim, hlast, decide_eq_true hpos, Bool.and_true]
    cases hcond : (p.trimFinalNewline && decide (b[stop - 1]? = some newline)) with
    | true =>
      rw [if_pos rfl, List.dropLast_eq_take, List.length_take_of_le h, List.take_take,
        Nat.min_eq_left (Nat.sub_le _ _)]
      rfl
    | false =>
      rw [if_neg Bool.false_ne_true]
      rfl

/-- After a closed block visible text goes on. -/
theorem follows_block_close (htext : IsText (before ++ (s.buffer ++ rest)))
    (hindents : Indents seen s.lineIndent)
    (hreads : Reads s.patterns s.config.maxBlockBytes (.thought p inputBytes) seen
      (s.buffer ++ rest) text marks)
    (hfind : find p.closer s.buffer = some stop) (total : Nat) :
    Follows s final rest text marks
      ({ s with buffer := s.buffer.drop (stop + p.closer.length), state := .visible },
        delta (p.trim (s.buffer.take stop)) ++ [.thinkingEnd, s.emitRecovery p total],
        .again) := by
  have hwhole := find_append_some hfind rest
  obtain ⟨b₁, b₂, hb, hstop, -⟩ := find_eq_some hfind
  have hlength : s.buffer.length = stop + (p.closer.length + b₂.length) := by
    rw [hb, List.length_append, List.length_append, hstop]
  have hpos : 0 < p.closer.length := List.length_pos_iff.2 p.closer_ne
  have hdrop : s.buffer.drop (stop + p.closer.length) = b₂ := by
    rw [hb, ← List.append_assoc]
    apply List.drop_left'
    rw [List.length_append, hstop]
  have htext' : IsText (b₂ ++ rest) := by
    rw [hb, List.append_assoc, List.append_assoc, ← List.append_assoc before] at htext
    exact isText_of_delimiter p.delimits_closer htext
  cases hreads with
  | unclosed hnot =>
    rw [hwhole] at hnot
    cases hnot
  | closed hsome _ hrest =>
    rw [hwhole] at hsome
    cases hsome
    rw [List.drop_append_of_le_length (by omega)] at hrest
    have hindents' : Indents (seen ++ []) s.lineIndent := by rwa [List.append_nil]
    refine Agrees.again (.visible rfl ?_ hindents' hrest) ?_ ?_ ?_
    · rw [hdrop]
      exact htext'
    · rw [visibleText_append, visibleText_delta]
      rfl
    · rw [thinkingMarks_append, thinkingMarks_delta, List.take_append_of_le_length (by omega)]
      exact congrArg (· ++ _) (List.append_nil _).symm
    · rw [List.length_drop]
      omega

theorem inputBytes_le_of_find
    (hreads : Reads s.patterns limit (.thought p inputBytes) seen (s.buffer ++ rest) text marks)
    (hfind : find p.closer s.buffer = some stop) :
    inputBytes + (stop + p.closer.length) ≤ limit := by
  have hwhole := find_append_some hfind rest
  cases hreads with
  | unclosed hnot =>
    rw [hwhole] at hnot
    cases hnot
  | closed hsome hle =>
    rw [hwhole] at hsome
    cases hsome
    exact hle

/-- Before the closer is found, the bytes of the block are within the limit. -/
theorem inputBytes_le
    (hreads : Reads s.patterns limit (.thought p inputBytes) seen (s.buffer ++ rest) text marks)
    (hfind : find p.closer s.buffer = none) : inputBytes + s.buffer.length ≤ limit := by
  cases hreads with
  | unclosed _ hle =>
    rw [List.length_append] at hle
    omega
  | closed hsome hle =>
    obtain ⟨b₁, b₂, hb, hstop, -⟩ := find_eq_some hsome
    rcases Nat.lt_or_ge s.buffer.length (b₁.length + p.closer.length) with hlt | hge
    · omega
    · -- the closer would lie in the buffer
      exfalso
      have hpre : b₁ ++ p.closer <+: s.buffer := by
        apply List.prefix_of_prefix_length_le _ (List.prefix_append s.buffer rest)
        · rwa [List.length_append]
        · exact ⟨b₂, by rw [hb, List.append_assoc]⟩
      obtain ⟨b₃, hb₃⟩ := hpre
      apply misses_of_find_none p.closer_ne hfind (b₁.length + 1) b₁.length
        (Nat.lt_succ_self _)
      rw [← hb₃, List.append_assoc, List.drop_left]
      exact List.prefix_append _ _

/-- What the closer cannot reach any more is given out. -/
theorem follows_block_wait (hfinal : final = false)
    (htext : IsText (before ++ (s.buffer ++ rest))) (hindents : Indents seen s.lineIndent)
    (hreads : Reads s.patterns s.config.maxBlockBytes (.thought p inputBytes) seen
      (s.buffer ++ rest) text marks)
    (hfind : find p.closer s.buffer = none) (hoverlap : overlap = suffixOverlap s.buffer p.closer)
    (hhold : hold = (p.trimFinalNewline &&
      decide (s.buffer[s.buffer.length - (overlap + 1)]? = some newline)))
    (hamount : amount = s.buffer.length - (overlap + hold.toNat)) :
    Follows s final rest text marks
      ({ s with
          buffer := s.buffer.drop amount
          state := .thinking p (s.buffer.drop amount).length (inputBytes + amount) },
        delta (s.buffer.take amount), .done) := by
  have hmiss := Misses.of_overlap p.closer_ne hfind rest
  have hsplit : s.buffer ++ rest = s.buffer.take amount ++ (s.buffer.drop amount ++ rest) := by
    rw [← List.append_assoc, List.take_append_drop]
  have hlength : (s.buffer.take amount).length = amount :=
    List.length_take_of_le (by omega)
  have hbefore : Misses p.closer (s.buffer ++ rest) amount := by
    intro j hj
    apply hmiss
    omega
  have htrim : find p.closer (s.buffer.drop amount ++ rest) = some 0 →
      p.trim (s.buffer.take amount) = s.buffer.take amount := by
    intro hstart
    rw [Pattern.trim]
    split
    next hcond =>
      exfalso
      obtain ⟨htrims, hlast⟩ := Bool.and_eq_true_iff.1 hcond
      rw [decide_eq_true_eq, List.getLast?_take] at hlast
      split at hlast
      next => cases hlast
      next hpos =>
        rw [List.getElem?_eq_getElem (by omega), Option.some_or] at hlast
        cases hold with
        | true =>
          -- the closer starts before what it may overlap
          obtain ⟨b₁, b₂, hb, hb₁, -⟩ := find_eq_some hstart
          rw [List.length_eq_zero_iff.1 hb₁] at hb
          rw [Bool.toNat_true] at hamount
          apply hmiss amount (by omega)
          rw [List.drop_append_of_le_length (by omega), hb]
          exact List.prefix_append _ _
        | false =>
          rw [Bool.toNat_false] at hamount
          have hindex : s.buffer.length - (overlap + 1) = amount - 1 := by omega
          rw [htrims, hindex, List.getElem?_eq_getElem (by omega), hlast] at hhold
          simp at hhold
    next => rfl
  rw [hsplit] at hreads
  obtain ⟨marks', rfl, hreads'⟩ := hreads.thought_of_misses (by rwa [← hsplit, hlength]) htrim
  rw [hlength] at hreads'
  have hsearched : find p.closer ((s.buffer.drop amount).take (s.buffer.drop amount).length) =
      none := by
    rw [List.take_length]
    apply find_eq_none_of_misses
    intro j _
    rw [List.drop_drop]
    exact misses_of_find_none p.closer_ne hfind _ _ (Nat.lt_succ_self _)
  rw [hsplit, ← List.append_assoc] at htext
  refine Agrees.wait (.thought rfl htext hindents (Nat.le_refl _) hsearched hreads') ?_ ?_ hfinal
  · rw [visibleText_delta]
    rfl
  · rw [thinkingMarks_delta]

theorem thinkingTurn_follows (htext : IsText (before ++ (s.buffer ++ rest)))
    (hindents : Indents seen s.lineIndent)
    (hnone : find p.closer (s.buffer.take searched) = none)
    (hreads : Reads s.patterns s.config.maxBlockBytes (.thought p inputBytes) seen
      (s.buffer ++ rest) text marks)
    (hfinal : final = true → rest = []) :
    Follows s final rest text marks (s.thinkingTurn final p searched inputBytes) := by
  have hfind := find_of_misses (Misses.of_take p.closer_ne hnone)
  rw [thinkingTurn]
  cases hrel : find p.closer (s.buffer.drop (searched - (p.closer.length - 1))) with
  | some relative =>
    rw [hrel, Option.map_some, Nat.add_comm] at hfind
    dsimp only
    generalize searched - (p.closer.length - 1) + relative = stop at hfind ⊢
    obtain ⟨b₁, b₂, hb, hstop, -⟩ := find_eq_some hfind
    rw [if_neg (Nat.not_lt.2 (inputBytes_le_of_find hreads hfind)), take_trimmed p]
    · exact follows_block_close htext hindents hreads hfind _
    · rw [hb, List.length_append]
      omega
  | none =>
    rw [hrel, Option.map_none] at hfind
    dsimp only
    rw [if_neg (Nat.not_lt.2 (inputBytes_le hreads hfind))]
    cases final with
    | false => exact follows_block_wait rfl htext hindents hreads hfind rfl rfl rfl
    | true =>
      cases hfinal rfl
      rw [List.append_nil] at hreads
      cases hreads with
      | unclosed =>
        refine follows_end (s := s) rfl rfl hindents ?_ ?_
        · rw [visibleText_append, visibleText_delta]
          rfl
        · rw [thinkingMarks_append, thinkingMarks_delta]
          exact (List.append_nil _).symm
      | closed hsome =>
        rw [hfind] at hsome
        cases hsome

theorem turn_follows (h : Agrees s rest text marks) (hfinal : final = true → rest = []) :
    Follows s final rest text marks (s.turn final) := by
  cases h with
  | visible hstate htext hindents hreads =>
    rw [turn, hstate]
    exact visibleTurn_follows hstate htext hindents hreads hfinal
  | span hstate htext hindents hreads =>
    rw [turn, hstate]
    exact spanTurn_follows hstate htext hindents hreads hfinal
  | fence hstate htext hindents hhushed =>
    rw [turn, hstate]
    exact fenceTurn_follows hstate htext hindents hhushed hfinal
  | thought hstate htext hindents _ hnone hreads =>
    rw [turn, hstate]
    exact thinkingTurn_follows htext hindents hnone hreads hfinal

/-- The loop reads on until it waits for more bytes, or to the end. -/
theorem loop_follows (final : Bool) (h : Agrees s rest text marks)
    (hfinal : final = true → rest = []) (hfuel : s.buffer.length < fuel) :
    ∃ s' events text' marks', loop final fuel s = (s', events, .ok ()) ∧
      text = visibleText events ++ text' ∧ marks = thinkingMarks events ++ marks' ∧
      Agrees s' rest text' marks' ∧ (final = true → text' = [] ∧ marks' = []) := by
  induction fuel generalizing s text marks with
  | zero => cases hfuel
  | succ fuel ih =>
    have hturn := turn_follows h hfinal
    rw [loop]
    generalize s.turn final = result at hturn ⊢
    obtain ⟨s', events, turn⟩ := result
    obtain ⟨text', marks', rfl, rfl, hagrees, hend⟩ := hturn
    cases turn with
    | done => exact ⟨s', events, text', marks', rfl, rfl, rfl, hagrees, hend⟩
    | failed => exact hend.elim
    | again =>
      have hless : s'.buffer.length < fuel := Nat.lt_of_lt_of_le hend (Nat.le_of_lt_succ hfuel)
      obtain ⟨s'', more, text'', marks'', hloop, rfl, rfl, hagrees', hend'⟩ := ih hagrees hless
      refine ⟨s'', events ++ more, text'', marks'', ?_, ?_, ?_, hagrees', hend'⟩
      · dsimp only
        rw [hloop]
      · rw [visibleText_append, List.append_assoc]
      · rw [thinkingMarks_append, List.append_assoc]

theorem Agrees.extend (h : Agrees s (chunk ++ rest) text marks) :
    Agrees { s with buffer := s.buffer ++ chunk } rest text marks := by
  have hassoc := List.append_assoc s.buffer chunk rest
  cases h with
  | visible hstate htext hindents hreads =>
    rw [← hassoc] at htext hreads
    exact .visible hstate htext hindents hreads
  | span hstate htext hindents hreads =>
    rw [← hassoc] at htext hreads
    exact .span hstate htext hindents hreads
  | fence hstate htext hindents hhushed =>
    rw [← hassoc] at htext hhushed ⊢
    exact .fence hstate htext hindents hhushed
  | @thought p searched inputBytes before seen text marks hstate htext hindents hle hnone hreads =>
    rw [← hassoc] at htext hreads
    have htake : (s.buffer ++ chunk).take searched = s.buffer.take searched :=
      List.take_append_of_le_length hle
    rw [← htake] at hnone
    refine .thought hstate htext hindents ?_ hnone hreads
    exact Nat.le_trans hle (List.length_append ▸ Nat.le_add_right _ _)

/-- Whatever the chunks, the events show the reading of the text. -/
theorem feed_follows (h : Agrees s chunks.flatten text marks) :
    ∃ events, s.feed chunks = .ok events ∧ visibleText events = text ∧
      thinkingMarks events = marks := by
  induction chunks generalizing s text marks with
  | nil =>
    obtain ⟨s', events, text', marks', hloop, rfl, rfl, -, hend⟩ :=
      loop_follows true h (fun _ => rfl) (Nat.lt_succ_self _)
    obtain ⟨rfl, rfl⟩ := hend rfl
    refine ⟨events, ?_, (List.append_nil _).symm, (List.append_nil _).symm⟩
    rw [feed, finish, consume, hloop]
  | cons chunk chunks ih =>
    rw [List.flatten_cons] at h
    obtain ⟨s', events, text', marks', hloop, rfl, rfl, hagrees, -⟩ :=
      loop_follows false h.extend (fun h => nomatch h) (Nat.lt_succ_self _)
    obtain ⟨more, hmore, rfl, rfl⟩ := ih hagrees
    refine ⟨events ++ more, ?_, visibleText_append _ _, thinkingMarks_append _ _⟩
    rw [feed, push, consume, hloop]
    dsimp only
    rw [hmore]
    rfl

end Stage

end OhMyPi.Recovery
