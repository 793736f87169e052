import OhMyPi.Recovery.Splits

/-! What the leaked-thinking stage gives out and takes away accounts for the text, byte by byte, and
does not depend on the chunks the text comes in. -/

namespace OhMyPi.Recovery

open Text (IsText bytes)

/-- What is taken away after the thinking text of a closed block. -/
def Pattern.Removed (p : Pattern) (removed : Bytes) : Prop :=
  removed = p.closer ∨ p.trimFinalNewline = true ∧ removed = newline :: p.closer

/-- The events of a block. -/
def blockEvents (deltas : List Bytes) (wirePolicy : String) (thinkingPolicy : Option String)
    (record : RecoveryRecord) : List ThinkingEvent :=
  .thinkingStart :: (deltas.map .thinkingDelta ++
    [.thinkingEnd, .recoveryApplied wirePolicy thinkingPolicy record])

section

variable (patterns : List Pattern)

/-- The events account for the bytes in order: visible text, and blocks with their delimiters. -/
inductive Accounts : List ThinkingEvent → Bytes → Prop
  | nil : Accounts [] []
  | text : Accounts events raw → Accounts (events ++ [.text b]) (raw ++ b)
  | block : Accounts events raw → p ∈ patterns → p.Removed removed →
      Accounts (events ++ blockEvents deltas wirePolicy thinkingPolicy record)
        (raw ++ (p.opener ++ (deltas.flatten ++ removed)))

/-- The text may end in a block that is not closed. -/
inductive AccountsFor : List ThinkingEvent → Bytes → Prop
  | whole : Accounts patterns events raw → AccountsFor events raw
  | unclosed : Accounts patterns events raw → p ∈ patterns →
      AccountsFor (events ++ blockEvents deltas wirePolicy thinkingPolicy record)
        (raw ++ (p.opener ++ deltas.flatten))

end

theorem Accounts.spoken (h : Accounts patterns events raw) (b : Bytes) (amount : Nat) :
    Accounts patterns (events ++ Stage.spoken b amount) (raw ++ b.take amount) := by
  rw [Stage.spoken]
  split
  next hz =>
    rw [hz, List.take_zero, List.append_nil, List.append_nil]
    exact h
  next => exact .text h

/-- The events so far account for the bytes so far, but for a block that is not closed yet. -/
def State.Accounts (patterns : List Pattern) (events : List ThinkingEvent) (raw : Bytes) :
    State → Prop
  | .thinking p _ _ => p ∈ patterns ∧ ∃ before taken, ∃ deltas : List Bytes,
      Recovery.Accounts patterns before taken ∧
      events = before ++ .thinkingStart :: deltas.map .thinkingDelta ∧
      raw = taken ++ (p.opener ++ deltas.flatten)
  | .visible => Recovery.Accounts patterns events raw
  | .code _ _ => Recovery.Accounts patterns events raw

namespace Stage

variable {s : Stage}

/-- A turn takes bytes from the buffer and accounts for them. -/
def Tracks (s : Stage) (final : Bool) (events : List ThinkingEvent) (raw : Bytes)
    (result : Stage × List ThinkingEvent × Turn) : Prop :=
  result.1.patterns = s.patterns ∧
    (result.2.2 = .again ∨ result.2.2 = .done ∧ final = false →
      ∃ used, s.buffer = used ++ result.1.buffer ∧
        result.1.state.Accounts s.patterns (events ++ result.2.1) (raw ++ used)) ∧
    (result.2.2 = .done → final = true →
      AccountsFor s.patterns (events ++ result.2.1) (raw ++ s.buffer))

theorem validPrefix_final (h : validPrefix b true = .ok n) : n = b.length := by
  rw [validPrefix] at h
  split at h
  next =>
    cases h
    rfl
  next =>
    rw [Bool.not_true, Bool.and_false] at h
    cases h

theorem tracks_failed (s : Stage) (error : RecoveryError) :
    Tracks s final events raw (s, [], .failed error) :=
  ⟨rfl, fun h => h.elim (fun h => Turn.noConfusion h) (fun h => Turn.noConfusion h.1), fun h => Turn.noConfusion h⟩

/-- Visible text is accounted for by its event. -/
theorem tracks_spoken {s' : Stage} {amount : Nat} {next : Turn}
    (h : Accounts s.patterns events raw) (hbuffer : s'.buffer = s.buffer.drop amount)
    (hpatterns : s'.patterns = s.patterns) (hstate : s'.state.Accounts s.patterns
      (events ++ spoken s.buffer amount) (raw ++ s.buffer.take amount))
    (hfinal : next = .done → final = true → amount = s.buffer.length) :
    Tracks s final events raw (s', spoken s.buffer amount, next) := by
  refine ⟨hpatterns, fun _ => ⟨s.buffer.take amount, ?_, hstate⟩, fun hdone hlast => ?_⟩
  · rw [hbuffer, List.take_append_drop]
  · have hspoken := h.spoken s.buffer amount
    rw [hfinal hdone hlast, List.take_length] at hspoken
    rw [hfinal hdone hlast]
    exact .whole hspoken

theorem codeTurn_tracks {fenced : Bool} (h : Accounts s.patterns events raw)
    (hstate : s.state = .code ticks fenced) (final : Bool) :
    Tracks s final events raw (s.codeTurn final ticks fenced) := by
  have hagain : ∀ amount, Tracks s final events raw
      ({ s.spent amount with state := .visible }, spoken s.buffer amount, .again) := fun amount =>
    tracks_spoken h rfl rfl (h.spoken s.buffer amount) (fun h => Turn.noConfusion h)
  have hwait : ∀ amount, final = false →
      Tracks s final events raw (s.spent amount, spoken s.buffer amount, .done) := by
    intro amount hfinal
    refine tracks_spoken h ?_ ?_ ?_ ?_
    · rfl
    · rfl
    · rw [spent, hstate]
      exact h.spoken s.buffer amount
    · intro _ hlast
      exact absurd (hfinal.symm.trans hlast) Bool.false_ne_true
  have hend : ∀ valid, validPrefix s.buffer final = .ok valid → final = true →
      Tracks s final events raw
        ({ s.spent valid with state := .visible }, spoken s.buffer valid, .done) := by
    intro valid hvalid hfinal
    refine tracks_spoken h rfl rfl (h.spoken s.buffer valid) ?_
    intro _ _
    rw [hfinal] at hvalid
    exact validPrefix_final hvalid
  rw [codeTurn]
  cases hvalid : validPrefix s.buffer final with
  | error error => exact tracks_failed s error
  | ok valid =>
    simp only [emitText_eq]
    split
    next =>
      split
      next => exact hagain _
      next =>
        split
        next hfinal => exact hend valid hvalid hfinal
        next hfinal => exact hwait _ (Bool.eq_false_iff.2 hfinal)
    next =>
      split
      next =>
        split
        next => exact hagain _
        next hopen =>
          apply hwait
          rw [Bool.or_eq_true, not_or] at hopen
          exact Bool.eq_false_iff.2 hopen.1
      next =>
        split
        next hfinal => exact hend valid hvalid hfinal
        next hfinal => exact hwait _ (Bool.eq_false_iff.2 hfinal)

theorem visibleTurn_tracks (h : Accounts s.patterns events raw) (hstate : s.state = .visible)
    (final : Bool) : Tracks s final events raw (s.visibleTurn final) := by
  have hdone : ∀ amount, (final = true → amount = s.buffer.length) →
      Tracks s final events raw (s.spent amount, spoken s.buffer amount, .done) := by
    intro amount hfinal
    refine tracks_spoken h ?_ ?_ ?_ (fun _ => hfinal)
    · rfl
    · rfl
    · rw [spent, hstate]
      exact h.spoken s.buffer amount
  rw [visibleTurn]
  cases hvalid : validPrefix s.buffer final with
  | error error => exact tracks_failed s error
  | ok valid =>
    have hfinal : final = true → valid = s.buffer.length := by
      intro hfinal
      rw [hfinal] at hvalid
      exact validPrefix_final hvalid
    simp only [emitText_eq]
    split
    next hzero =>
      have hnone := hdone valid hfinal
      rw [hzero] at hnone
      exact hnone
    next =>
      cases hhit : visibleHit s.patterns final 0 (s.buffer.take valid) with
      | none => exact hdone valid hfinal
      | hold start =>
        apply hdone
        intro hlast
        rw [hlast] at hhit
        exact absurd hhit (visibleHit_ne_hold 0 _ start)
      | code start ticks =>
        exact tracks_spoken h rfl rfl (h.spoken s.buffer (start + ticks)) (fun h => Turn.noConfusion h)
      | tag start p =>
        obtain ⟨hp, b₁, b₂, hb, hstart⟩ := visibleHit_eq_tag hhit
        rw [Nat.zero_add] at hstart
        have hbuffer : s.buffer = b₁ ++ (p.opener ++ (b₂ ++ s.buffer.drop valid)) := by
          rw [← List.append_assoc _ b₂, ← List.append_assoc b₁, ← hb, List.take_append_drop]
        have htake : s.buffer.take start = b₁ := by
          rw [hbuffer]
          exact List.take_left' hstart.symm
        have hdrop : (s.spent start).buffer = p.opener ++ (b₂ ++ s.buffer.drop valid) := by
          rw [spent]
          conv_lhs => rw [hbuffer]
          exact List.drop_left' hstart.symm
        refine ⟨rfl, fun _ => ⟨b₁ ++ p.opener, ?_, hp, ?_⟩, fun h => Turn.noConfusion h⟩
        · dsimp only
          rw [hdrop, List.drop_left, List.append_assoc]
          exact hbuffer
        · refine ⟨_, _, [], h.spoken s.buffer start, ?_, ?_⟩
          · exact (List.append_assoc _ _ _).symm
          · rw [htake, List.flatten_nil, List.append_nil, List.append_assoc]

theorem delta_eq (b : Bytes) : ∃ deltas : List Bytes, delta b = deltas.map .thinkingDelta ∧
    deltas.flatten = b := by
  rw [delta]
  split
  next h => exact ⟨[], rfl, (List.isEmpty_iff.1 h).symm⟩
  next => exact ⟨[b], rfl, List.append_nil b⟩

theorem trim_eq (p : Pattern) (b : Bytes) : ∃ cut, b = p.trim b ++ cut ∧
    p.Removed (cut ++ p.closer) := by
  rw [Pattern.trim]
  split
  next h =>
    obtain ⟨htrims, hlast⟩ := Bool.and_eq_true_iff.1 h
    refine ⟨[newline], ?_, .inr ⟨htrims, rfl⟩⟩
    exact (List.dropLast_append_getLast? newline (of_decide_eq_true hlast)).symm
  next => exact ⟨[], (List.append_nil b).symm, .inl rfl⟩

theorem blockEvents_append (before : List ThinkingEvent) (deltas more : List Bytes)
    (wirePolicy : String) (thinkingPolicy : Option String) (record : RecoveryRecord) :
    before ++ .thinkingStart :: deltas.map .thinkingDelta ++ (more.map .thinkingDelta ++
        [.thinkingEnd, .recoveryApplied wirePolicy thinkingPolicy record]) =
      before ++ blockEvents (deltas ++ more) wirePolicy thinkingPolicy record := by
  rw [blockEvents, List.map_append]
  simp only [List.append_assoc, List.cons_append]

theorem thinkingTurn_tracks (hstate : s.state = .thinking p searched inputBytes)
    (h : s.state.Accounts s.patterns events raw) (final : Bool) :
    Tracks s final events raw (s.thinkingTurn final p searched inputBytes) := by
  rw [hstate] at h
  obtain ⟨hp, before, taken, deltas, haccounts, rfl, rfl⟩ := h
  rw [thinkingTurn]
  cases hrel : find p.closer (s.buffer.drop (searched - (p.closer.length - 1))) with
  | some relative =>
    obtain ⟨c₁, c₂, hc, hrelative, -⟩ := find_eq_some hrel
    have hpos : 0 < p.closer.length := List.length_pos_iff.2 p.closer_ne
    generalize searched - (p.closer.length - 1) = start at hc ⊢
    have hstart : start ≤ s.buffer.length := by
      have hlength := congrArg List.length hc
      simp only [List.length_append, List.length_drop] at hlength
      omega
    have hstop : (s.buffer.take start ++ c₁).length = start + relative := by
      rw [List.length_append, List.length_take_of_le hstart, hrelative]
    have hbuffer : s.buffer = s.buffer.take start ++ c₁ ++ (p.closer ++ c₂) := by
      rw [List.append_assoc, ← hc, List.take_append_drop]
    have hle : start + relative ≤ s.buffer.length := by
      have hlength := congrArg List.length hbuffer
      rw [List.length_append, hstop] at hlength
      omega
    have htake : s.buffer.take (start + relative) = s.buffer.take start ++ c₁ := by
      conv_lhs => rw [hbuffer]
      exact List.take_left' hstop
    have hdrop : s.buffer.drop (start + relative + p.closer.length) = c₂ := by
      conv_lhs => rw [hbuffer]
      rw [← List.append_assoc]
      apply List.drop_left'
      rw [List.length_append, hstop]
    dsimp only
    rw [take_trimmed p hle, htake]
    split
    next =>
      exact ⟨rfl, fun h => h.elim (fun h => Turn.noConfusion h) (fun h => Turn.noConfusion h.1), fun h => Turn.noConfusion h⟩
    next =>
      obtain ⟨cut, hcut, hremoved⟩ := trim_eq p (s.buffer.take start ++ c₁)
      obtain ⟨more, hmore, hflat⟩ := delta_eq (p.trim (s.buffer.take start ++ c₁))
      refine ⟨rfl, fun _ => ⟨p.trim (s.buffer.take start ++ c₁) ++ (cut ++ p.closer), ?_, ?_⟩,
        fun h => Turn.noConfusion h⟩
      · dsimp only
        rw [hdrop, List.append_assoc, List.append_assoc, ← List.append_assoc _ cut, ← hcut]
        exact hbuffer
      · have hraw : taken ++ (p.opener ++ deltas.flatten) ++
            (p.trim (s.buffer.take start ++ c₁) ++ (cut ++ p.closer)) =
              taken ++ (p.opener ++ ((deltas ++ more).flatten ++ (cut ++ p.closer))) := by
          rw [List.flatten_append, hflat]
          simp only [List.append_assoc]
        rw [hmore, emitRecovery, blockEvents_append, hraw]
        exact .block haccounts hp hremoved
  | none =>
    dsimp only
    split
    next => exact tracks_failed s _
    next =>
      split
      next hfinal =>
        obtain ⟨more, hmore, hflat⟩ := delta_eq s.buffer
        refine ⟨rfl, fun h => ?_, fun _ _ => ?_⟩
        · rcases h with h | ⟨-, h⟩
          · cases h
          · exact absurd (h.symm.trans hfinal) Bool.false_ne_true
        · have hraw : taken ++ (p.opener ++ deltas.flatten) ++ s.buffer =
              taken ++ (p.opener ++ (deltas ++ more).flatten) := by
            rw [List.flatten_append, hflat]
            simp only [List.append_assoc]
          rw [hmore, emitRecovery, blockEvents_append, hraw]
          exact .unclosed haccounts hp
      next hfinal =>
        generalize s.buffer.length - _ = amount
        obtain ⟨more, hmore, hflat⟩ := delta_eq (s.buffer.take amount)
        refine ⟨rfl, fun _ => ⟨s.buffer.take amount, ?_, hp, before, taken, deltas ++ more,
          haccounts, ?_, ?_⟩, fun _ h => absurd h hfinal⟩
        · exact (List.take_append_drop amount s.buffer).symm
        · rw [hmore, List.map_append, List.append_assoc]
          rfl
        · rw [List.flatten_append, hflat, List.append_assoc, List.append_assoc]

theorem turn_tracks (h : s.state.Accounts s.patterns events raw) (final : Bool) :
    Tracks s final events raw (s.turn final) := by
  rw [turn]
  cases hstate : s.state with
  | visible =>
    rw [hstate] at h
    exact visibleTurn_tracks h hstate final
  | code ticks fenced =>
    rw [hstate] at h
    exact codeTurn_tracks h hstate final
  | thinking p searched inputBytes => exact thinkingTurn_tracks hstate h final

theorem loop_tracks (final : Bool) (hagrees : Agrees s rest text marks)
    (hrest : final = true → rest = []) (h : s.state.Accounts s.patterns events raw)
    (hfuel : s.buffer.length < fuel) (hloop : loop final fuel s = (s', more, .ok ())) :
    s'.patterns = s.patterns ∧
      (final = false → ∃ used, s.buffer = used ++ s'.buffer ∧
        s'.state.Accounts s.patterns (events ++ more) (raw ++ used)) ∧
      (final = true → AccountsFor s.patterns (events ++ more) (raw ++ s.buffer)) := by
  induction fuel generalizing s events raw text marks more with
  | zero => cases hfuel
  | succ fuel ih =>
    obtain ⟨hpatterns, hagain, hdone⟩ := turn_tracks h final
    have hturn := turn_follows hagrees hrest
    rw [loop] at hloop
    generalize s.turn final = result at hpatterns hagain hdone hturn hloop
    obtain ⟨next, emitted, turn⟩ := result
    cases turn with
    | failed error => cases hloop
    | done =>
      cases hloop
      exact ⟨hpatterns, fun hfinal => hagain (.inr ⟨rfl, hfinal⟩), hdone rfl⟩
    | again =>
      obtain ⟨text', marks', -, -, hagrees', hless⟩ := hturn
      obtain ⟨used, hused, haccounts⟩ := hagain (.inl rfl)
      dsimp only at hpatterns hused haccounts hloop
      rw [← hpatterns] at haccounts
      generalize hresult : loop final fuel next = result at hloop
      obtain ⟨last, later, outcome⟩ := result
      cases hloop
      obtain ⟨hpatterns', hmore, hend⟩ :=
        ih hagrees' haccounts (Nat.lt_of_lt_of_le hless (Nat.le_of_lt_succ hfuel)) hresult
      rw [hpatterns] at hpatterns' hmore hend
      refine ⟨hpatterns', fun hfinal => ?_, fun hfinal => ?_⟩
      · obtain ⟨used', hused', haccounts'⟩ := hmore hfinal
        refine ⟨used ++ used', ?_, ?_⟩
        · rw [hused, hused', List.append_assoc]
        · rwa [← List.append_assoc, ← List.append_assoc]
      · have hend' := hend hfinal
        rwa [hused, ← List.append_assoc, ← List.append_assoc]

/-- Whatever the chunks, the events account for the text. -/
theorem feed_tracks (hagrees : Agrees s chunks.flatten text marks)
    (h : s.state.Accounts s.patterns events raw) (hfeed : s.feed chunks = .ok more) :
    AccountsFor s.patterns (events ++ more) (raw ++ (s.buffer ++ chunks.flatten)) := by
  induction chunks generalizing s text marks events raw more with
  | nil =>
    obtain ⟨s', emitted, text', marks', hloop, -⟩ :=
      loop_follows true hagrees (fun _ => rfl) (Nat.lt_succ_self _)
    obtain ⟨-, -, hend⟩ := loop_tracks true hagrees (fun _ => rfl) h (Nat.lt_succ_self _) hloop
    rw [feed, finish, consume, hloop] at hfeed
    cases hfeed
    rw [List.flatten_nil, List.append_nil]
    exact hend rfl
  | cons chunk chunks ih =>
    rw [List.flatten_cons] at hagrees
    have hmore := hagrees.extend
    obtain ⟨s', emitted, text', marks', hloop, rfl, rfl, hagrees', -⟩ :=
      loop_follows false hmore (fun h => absurd h Bool.false_ne_true) (Nat.lt_succ_self _)
    obtain ⟨hpatterns, hwait, -⟩ :=
      loop_tracks false hmore (fun h => absurd h Bool.false_ne_true) h (Nat.lt_succ_self _) hloop
    obtain ⟨used, hused, haccounts⟩ := hwait rfl
    dsimp only at hpatterns hused haccounts
    rw [← hpatterns] at haccounts
    rw [feed, push, consume, hloop] at hfeed
    dsimp only at hfeed
    cases hrest : s'.feed chunks with
    | error error =>
      rw [hrest] at hfeed
      cases hfeed
    | ok later =>
      rw [hrest] at hfeed
      cases hfeed
      have hlater := ih hagrees' haccounts hrest
      rw [hpatterns] at hlater
      rw [List.append_assoc, List.append_assoc] at hlater
      rw [List.flatten_cons, ← List.append_assoc s.buffer, hused, List.append_assoc used]
      exact hlater

end Stage

/-! ### Separation -/

/-- The thinking text up to the next block. -/
def thinkingText : List ThinkingEvent → Bytes
  | [] => []
  | .thinkingStart :: _ => []
  | .thinkingDelta b :: events => b ++ thinkingText events
  | _ :: events => thinkingText events

/-- The concatenated thinking text of each block. -/
def blockTexts : List ThinkingEvent → List Bytes
  | [] => []
  | .thinkingStart :: events => thinkingText events :: blockTexts events
  | _ :: events => blockTexts events

/-- The bytes up to the next start of a block. -/
def leadingBytes (marks : List (Option UInt8)) : Bytes :=
  (marks.takeWhile Option.isSome).filterMap id

def markedTexts : List (Option UInt8) → List Bytes
  | [] => []
  | none :: marks => leadingBytes marks :: markedTexts marks
  | some _ :: marks => markedTexts marks

theorem leadingBytes_append (b : Bytes) (marks : List (Option UInt8)) :
    leadingBytes (b.map some ++ marks) = b ++ leadingBytes marks := by
  induction b with
  | nil => rfl
  | cons x b ih =>
    rw [leadingBytes] at ih
    rw [List.map_cons, List.cons_append, leadingBytes, List.takeWhile_cons, if_pos (by rfl),
      List.filterMap_cons_some (by rfl), ih, List.cons_append]

theorem markedTexts_append (b : Bytes) (marks : List (Option UInt8)) :
    markedTexts (b.map some ++ marks) = markedTexts marks := by
  induction b with
  | nil => rfl
  | cons x b ih => exact ih

theorem thinkingText_eq (events : List ThinkingEvent) :
    thinkingText events = leadingBytes (thinkingMarks events) := by
  induction events with
  | nil => rfl
  | cons event events ih =>
    cases event with
    | thinkingStart => rfl
    | thinkingDelta b =>
      have hmarks : thinkingMarks (.thinkingDelta b :: events) =
        b.map some ++ thinkingMarks events := rfl
      rw [thinkingText, ih, hmarks, leadingBytes_append]
    | text => exact ih
    | thinkingEnd => exact ih
    | recoveryApplied => exact ih

theorem blockTexts_eq (events : List ThinkingEvent) :
    blockTexts events = markedTexts (thinkingMarks events) := by
  induction events with
  | nil => rfl
  | cons event events ih =>
    cases event with
    | thinkingStart =>
      have hmarks : thinkingMarks (.thinkingStart :: events) = none :: thinkingMarks events := rfl
      rw [blockTexts, ih, thinkingText_eq, hmarks, markedTexts]
    | thinkingDelta b =>
      have hmarks : thinkingMarks (.thinkingDelta b :: events) =
        b.map some ++ thinkingMarks events := rfl
      rw [hmarks, markedTexts_append, ← ih]
      rfl
    | text => exact ih
    | thinkingEnd => exact ih
    | recoveryApplied => exact ih

/-- Every block of the text is within the limit, and no opener follows what a run of three or more
backticks in visible text may be taken for. -/
def Settled (config : ThinkingRecoveryConfig) (text : String) : Prop :=
  ∃ visible marks,
    Reads config.patterns config.maxBlockBytes (.visible []) [] (bytes text) visible marks

theorem agrees_new
    (h : Reads config.patterns config.maxBlockBytes (.visible []) [] (bytes text) visible marks)
    {chunks : List Bytes} (hchunks : chunks.flatten = bytes text) :
    (Stage.new config).Agrees chunks.flatten visible marks := by
  rw [← hchunks] at h
  have hindents : Indents ([] ++ []) (Stage.new config).lineIndent := ⟨[], rfl, rfl⟩
  refine .visible rfl ?_ hindents h
  exact ⟨text.toList, hchunks.symm⟩

/-- Separation does not depend on the chunks, and accounts for every byte. -/
theorem separation_invariant (config : ThinkingRecoveryConfig) (text : String)
    (h : Settled config text) (chunks chunks' : List Bytes) (hchunks : chunks.flatten = bytes text)
    (hchunks' : chunks'.flatten = bytes text) :
    ∃ events events', (Stage.new config).feed chunks = .ok events ∧
      (Stage.new config).feed chunks' = .ok events' ∧
      visibleText events = visibleText events' ∧ blockTexts events = blockTexts events' ∧
      AccountsFor config.patterns events (bytes text) ∧
      AccountsFor config.patterns events' (bytes text) := by
  obtain ⟨visible, marks, hreads⟩ := h
  have hagrees := agrees_new hreads hchunks
  have hagrees' := agrees_new hreads hchunks'
  obtain ⟨events, hevents, hvisible, hmarks⟩ := Stage.feed_follows hagrees
  obtain ⟨events', hevents', hvisible', hmarks'⟩ := Stage.feed_follows hagrees'
  have haccounts := Stage.feed_tracks hagrees .nil hevents
  have haccounts' := Stage.feed_tracks hagrees' .nil hevents'
  refine ⟨events, events', hevents, hevents', ?_, ?_, ?_, ?_⟩
  · rw [hvisible, hvisible']
  · rw [blockTexts_eq, blockTexts_eq, hmarks, hmarks']
  · rw [← hchunks]
    exact haccounts
  · rw [← hchunks']
    exact haccounts'

def sampleConfig : ThinkingRecoveryConfig where
  wirePolicy := "wire"
  thinkingPolicy := none
  healer := .none
  dialect := .generic
  attempt := 1
  maxBlockBytes := 64

theorem settled_sample : Settled sampleConfig "`a` <think>b</think>\n```c\n" := by
  have hspan : ∀ seen lead, ¬ May seen lead 1 true := by
    intro seen lead hmay
    obtain ⟨part, -, indent, -, h⟩ := hmay
    cases h
  have hfence : ∀ seen, Reads genericPatterns 64 (.visible []) seen (bytes "\n```c\n")
      (bytes "\n```c\n") [] := by
    intro seen
    have hhit : visibleHit genericPatterns true 0 (bytes "\n```c\n") = .code 1 3 := by decide
    apply Reads.fence hhit
    intro fenced _ stop hstop
    have hnone : codeEnd 3 fenced ((bytes "\n```c\n").drop (1 + 3)) = none := by
      cases fenced
      · decide
      · decide
    rw [hnone] at hstop
    cases hstop
  have hblock : ∀ seen, ∃ marks, Reads genericPatterns 64 (.visible []) seen
      (bytes " <think>b</think>\n```c\n") (bytes " \n```c\n") marks := by
    intro seen
    have hhit : visibleHit genericPatterns true 0 (bytes " <think>b</think>\n```c\n") =
      .tag 1 think := by decide
    have hfind : find think.closer (bytes "b</think>\n```c\n") = some 1 := by decide
    have hlimit : think.opener.length + (1 + think.closer.length) ≤ 64 := by decide
    exact ⟨_, .tag hhit (.closed hfind hlimit (hfence _))⟩
  obtain ⟨marks, hmarks⟩ := hblock (bytes "`a`")
  have hhit : visibleHit genericPatterns true 0 (bytes "`a` <think>b</think>\n```c\n") =
    .code 0 1 := by decide
  have hrun : exactBacktickRun 1 0 0 (bytes "a` <think>b</think>\n```c\n") = some 1 := by decide
  exact ⟨_, marks, .code hhit (hspan _ _) (.spanClosed hrun hmarks)⟩

/-- A cut inside the opener changes nothing. -/
theorem separation_invariant_sample :
    ∃ events events', (Stage.new sampleConfig).feed [bytes "`a` <think>b</think>\n```c\n"] =
        .ok events ∧
      (Stage.new sampleConfig).feed [bytes "`a` <th", bytes "ink>b</think>\n```c\n"] = .ok events' ∧
      visibleText events = visibleText events' ∧ blockTexts events = blockTexts events' ∧
      AccountsFor sampleConfig.patterns events (bytes "`a` <think>b</think>\n```c\n") ∧
      AccountsFor sampleConfig.patterns events' (bytes "`a` <think>b</think>\n```c\n") :=
  separation_invariant sampleConfig "`a` <think>b</think>\n```c\n" settled_sample _ _ (by decide)
    (by decide)

/-- A run of three backticks inside a line is taken for a fence when it comes with the start of the
line, so that the block after it is not found, and for a span when it comes alone. -/
theorem separation_varies :
    [bytes "a ", bytes "```b``` <think>c</think>"].flatten = bytes "a ```b``` <think>c</think>" ∧
      (bytes "a ```b``` <think>c</think>").length ≤ sampleConfig.maxBlockBytes ∧
      ((Stage.new sampleConfig).feed [bytes "a ```b``` <think>c</think>"]).map blockTexts =
        .ok [] ∧
      ((Stage.new sampleConfig).feed [bytes "a ", bytes "```b``` <think>c</think>"]).map
        blockTexts = .ok [bytes "c"] := by
  decide

end OhMyPi.Recovery
