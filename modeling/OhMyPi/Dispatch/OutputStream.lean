import OhMyPi.Lib.LossyStream

/-! The live output of a dispatched call. Frames of bytes are decoded as they come, with an unfinished
character carried over; the text is shown inline up to a limit and the rest goes to a spill stage,
which starts with what was shown. -/

namespace OhMyPi.Dispatch

open Text

/-- An ordered output frame of a tool update. -/
structure Frame where
  sequence : Nat
  bytes : List UInt8
deriving DecidableEq, Repr

/-- `OutputStream`, with the text its stream has put into the call's result. -/
structure OutputStream where
  last : Option Nat
  carry : List UInt8
  limit : Option Nat
  shown : Nat
  inlinePrefix : List Char
  stage : Option (List Char)
  spilled : Bool
  revealed : List Char
deriving DecidableEq, Repr

namespace OutputStream

def new (limit : Option Nat) : OutputStream where
  last := none
  carry := []
  limit := limit
  shown := 0
  inlinePrefix := []
  stage := none
  spilled := false
  revealed := []

/-- The text of the carried bytes with a frame's, and the bytes to carry on. An ill-formed part makes
the whole buffer decode at once, up to and including a character it ends in. -/
def decode (stream : OutputStream) (bytes : List UInt8) : List Char × List UInt8 :=
  let buffer := stream.carry ++ bytes
  match runUtf8Validation buffer 0 with
  | none => (lossy buffer, [])
  | some ⟨valid, none⟩ => (lossy (buffer.take valid), buffer.drop valid)
  | some ⟨_, some _⟩ => (lossy buffer, [])

/-- The part of the text that the inline budget has room for. -/
def visible (stream : OutputStream) (text : List Char) : List Char :=
  match stream.limit with
  | none => text
  | some limit => utf8Prefix text (limit - stream.shown)

/-- Appends to the inline text; the prefix is kept until a spill stage holds it. -/
def showText (stream : OutputStream) (text : List Char) : OutputStream :=
  { stream with
    revealed := stream.revealed ++ text
    shown := stream.shown + byteLen text
    inlinePrefix :=
      if stream.stage.isNone then stream.inlinePrefix ++ text else stream.inlinePrefix }

/-- Writes to the spill stage, which is opened with the inline prefix. -/
def spill (stream : OutputStream) (overflow : List Char) : OutputStream :=
  { stream with
    spilled := true
    stage := some (stream.stage.getD stream.inlinePrefix ++ overflow)
    inlinePrefix := if stream.stage.isNone then [] else stream.inlinePrefix }

def reveal (stream : OutputStream) (text : List Char) : OutputStream :=
  let visible := stream.visible text
  let overflow := text.drop visible.length
  if overflow.isEmpty then stream.showText visible else (stream.showText visible).spill overflow

/-- Whether a frame comes after everything accepted so far. -/
def accepts (stream : OutputStream) (frame : Frame) : Bool :=
  match stream.last with
  | none => true
  | some last => last < frame.sequence

def push (stream : OutputStream) (frame : Frame) : OutputStream :=
  if stream.accepts frame then
    let (text, carry) := stream.decode frame.bytes
    let stream := { stream with last := some frame.sequence, carry }
    if text.isEmpty then stream else stream.reveal text
  else stream

/-- Flushes an unfinished character. -/
def close (stream : OutputStream) : OutputStream :=
  if stream.carry.isEmpty then stream
  else { stream with carry := [] }.reveal (lossy stream.carry)

/-- The saved artifact: what the stage holds when the stream is closed. -/
def artifact (stream : OutputStream) : Option (List Char) := stream.close.stage

def run (stream : OutputStream) (frames : List Frame) : OutputStream := frames.foldl push stream

end OutputStream

/-! ## What is to be preserved -/

/-- The frames whose number exceeds that of every frame before them. -/
def increasing (seen : List Nat) : List Frame → List Frame
  | [] => []
  | frame :: frames =>
    let rest := increasing (frame.sequence :: seen) frames
    if seen.all (· < frame.sequence) then frame :: rest else rest

/-- The bytes of the frames in increasing order, decoded as one. -/
def completeOutput (frames : List Frame) : List Char :=
  lossy ((increasing [] frames).flatMap (·.bytes))

/-- The stream that was opened, fed and closed shows a prefix of the complete output within the
limit, and what it does not show is in the artifact with the rest. -/
structure Preserves (limit : Option Nat) (frames : List Frame) : Prop where
  shown : ((OutputStream.new limit).run frames).close.revealed <+: completeOutput frames
  bounded : ∀ l ∈ limit, byteLen ((OutputStream.new limit).run frames).close.revealed ≤ l
  saved : ((OutputStream.new limit).run frames).close.revealed ≠ completeOutput frames →
    ((OutputStream.new limit).run frames).artifact = some (completeOutput frames)

namespace OutputStream

/-- Nothing more fits inline once something was spilled: the next character is longer than what is
left of the budget. -/
def Full (stream : OutputStream) (text : List Char) : Prop :=
  stream.stage.isSome → ∀ limit ∈ stream.limit, ∀ c ∈ text.head?, limit - stream.shown < c.utf8Size

/-- A frame that is accepted does not both hold ill-formed bytes and end inside a character, and its
text does not fit inline behind something that was spilled. -/
structure Steady (stream : OutputStream) (frame : Frame) : Prop where
  whole : ∀ valid len, runUtf8Validation (stream.carry ++ frame.bytes) 0 = some ⟨valid, some len⟩ →
    ¬ EndsInside (stream.carry ++ frame.bytes)
  full : stream.Full (stream.decode frame.bytes).1

/-- Every accepted frame is steady where it comes, and so is the flush at the end. -/
def SteadyRun (stream : OutputStream) : List Frame → Prop
  | [] => stream.carry ≠ [] → stream.Full (lossy stream.carry)
  | frame :: frames =>
    (stream.accepts frame = true → stream.Steady frame) ∧ SteadyRun (stream.push frame) frames

/-! ## The invariant -/

/-- The text decoded so far is inline, or inline up to some point and whole in the stage. -/
structure Holds (stream : OutputStream) (text : List Char) : Prop where
  counted : stream.shown = byteLen stream.revealed
  bounded : ∀ limit ∈ stream.limit, stream.shown ≤ limit
  inline : stream.stage = none → stream.revealed = text ∧ stream.inlinePrefix = text
  staged : ∀ saved, stream.stage = some saved →
    saved = text ∧ stream.revealed <+: text ∧ stream.limit ≠ none

theorem holds_new (limit : Option Nat) : (new limit).Holds [] where
  counted := rfl
  bounded _ _ := Nat.zero_le _
  inline _ := ⟨rfl, rfl⟩
  staged _ h := by cases h

theorem visible_append_drop (stream : OutputStream) (text : List Char) :
    stream.visible text ++ text.drop (stream.visible text).length = text := by
  rw [visible]
  split
  · rw [List.drop_length, List.append_nil]
  · exact utf8Prefix_append_drop _ _

theorem visible_le {stream : OutputStream} {limit : Nat} (h : stream.limit = some limit)
    (hshown : stream.shown ≤ limit) (text : List Char) :
    stream.shown + byteLen (stream.visible text) ≤ limit := by
  rw [visible, h]
  have := byteLen_utf8Prefix_le text (limit - stream.shown)
  dsimp only
  omega

theorem Holds.reveal {stream : OutputStream} {text : List Char} (h : stream.Holds text)
    {more : List Char} (hfull : stream.Full more) : (stream.reveal more).Holds (text ++ more) := by
  have hcut := stream.visible_append_drop more
  have hbounded : ∀ limit ∈ stream.limit,
      stream.shown + byteLen (stream.visible more) ≤ limit := fun limit hlimit =>
    visible_le hlimit (h.bounded limit hlimit) more
  cases hstage : stream.stage with
  | none =>
    obtain ⟨hrevealed, hkept⟩ := h.inline hstage
    rw [OutputStream.reveal]
    split
    · next hempty =>
      -- everything is shown
      rw [List.isEmpty_iff.1 hempty, List.append_nil] at hcut
      refine { counted := ?_, bounded := hbounded, inline := ?_, staged := ?_ }
      · simp [showText, h.counted]
      · simp [showText, hstage, hrevealed, hkept, hcut]
      · simp [showText, hstage]
    · -- the stage is opened with what was shown
      refine { counted := ?_, bounded := hbounded, inline := ?_, staged := ?_ }
      · simp [showText, spill, h.counted]
      · simp [spill]
      · intro saved hsaved
        simp only [spill, showText, hstage, Option.isNone_none, if_true, Option.getD_none,
          Option.some.injEq] at hsaved
        subst hsaved
        rw [hkept, List.append_assoc, hcut]
        refine ⟨rfl, ?_, ?_⟩
        · rw [spill, showText, hrevealed]
          exact (List.prefix_append_right_inj text).2 ⟨_, hcut⟩
        · next hmore =>
          intro hlimit
          have hall : stream.visible more = more := by
            have hnone : stream.limit = none := hlimit
            rw [visible, hnone]
          rw [hall, List.drop_length] at hmore
          exact hmore rfl
  | some saved =>
    obtain ⟨rfl, hpre, hlimit⟩ := h.staged saved hstage
    have hnone : stream.visible more = [] := by
      rw [visible]
      split
      · next hlimit' => exact absurd hlimit' hlimit
      · next limit hlimit' =>
        exact utf8Prefix_eq_nil (hfull (by rw [hstage]; rfl) limit hlimit')
    rw [OutputStream.reveal, hnone, List.length_nil, List.drop_zero]
    split
    · next hempty =>
      rw [List.isEmpty_iff.1 hempty, List.append_nil]
      refine { counted := ?_, bounded := ?_, inline := ?_, staged := ?_ }
      · simp [showText, h.counted]
      · simpa [showText] using h.bounded
      · simp [showText, hstage]
      · intro saved' hsaved
        simp only [showText, hstage, Option.some.injEq] at hsaved
        exact ⟨hsaved.symm, by simpa [showText] using hpre, hlimit⟩
    · refine { counted := ?_, bounded := ?_, inline := ?_, staged := ?_ }
      · simp [showText, spill, h.counted]
      · simpa [showText, spill] using h.bounded
      · simp [spill]
      · intro saved' hsaved
        simp only [spill, showText, hstage, Option.getD_some, Option.some.injEq] at hsaved
        refine ⟨hsaved.symm, ?_, hlimit⟩
        simpa [showText, spill] using hpre.trans (List.prefix_append _ _)

theorem decode_spec {stream : OutputStream} {bytes : List UInt8}
    (hwhole : ∀ valid len, runUtf8Validation (stream.carry ++ bytes) 0 = some ⟨valid, some len⟩ →
      ¬ EndsInside (stream.carry ++ bytes)) (x : List UInt8) :
    lossy (stream.carry ++ bytes ++ x) =
      (stream.decode bytes).1 ++ lossy ((stream.decode bytes).2 ++ x) := by
  obtain ⟨n, hn, htext, hrun⟩ := validate_spec (stream.carry ++ bytes) 0
  rw [decode]
  rcases hrun with ⟨hrun, rfl⟩ | ⟨len, hrun⟩
  · rw [List.take_length] at htext
    rw [hrun]
    exact lossy_isText htext x
  · cases len with
    | none =>
      rw [hrun, Nat.zero_add]
      dsimp only
      rw [← lossy_isText htext, ← List.append_assoc, List.take_append_drop]
    | some len =>
      rw [hrun]
      exact lossy_append (hwhole _ _ hrun) x

/-- The accepted bytes decode to what was revealed, and then to what the carry begins. -/
structure Follows (stream : OutputStream) (accepted : List UInt8) : Prop where
  text : ∃ text, stream.Holds text ∧ ∀ x, lossy (accepted ++ x) = text ++ lossy (stream.carry ++ x)

theorem Holds.carry {stream : OutputStream} {text : List Char} (h : stream.Holds text)
    (last : Option Nat) (carry : List UInt8) : { stream with last, carry }.Holds text where
  counted := h.counted
  bounded := h.bounded
  inline := h.inline
  staged := h.staged

@[simp] theorem carry_reveal (stream : OutputStream) (text : List Char) :
    (stream.reveal text).carry = stream.carry := by
  rw [reveal]
  split <;> rfl

@[simp] theorem last_reveal (stream : OutputStream) (text : List Char) :
    (stream.reveal text).last = stream.last := by
  rw [reveal]
  split <;> rfl

@[simp] theorem limit_reveal (stream : OutputStream) (text : List Char) :
    (stream.reveal text).limit = stream.limit := by
  rw [reveal]
  split <;> rfl

theorem Follows.push {stream : OutputStream} {accepted : List UInt8} (h : stream.Follows accepted)
    {frame : Frame} (haccepts : stream.accepts frame = true) (hsteady : stream.Steady frame) :
    (stream.push frame).Follows (accepted ++ frame.bytes) := by
  obtain ⟨text, hholds, hfollows⟩ := h.text
  have hdecode := decode_spec hsteady.whole
  have hfull := hsteady.full
  rw [OutputStream.push, if_pos haccepts]
  generalize stream.decode frame.bytes = decoded at hdecode hfull ⊢
  obtain ⟨more, carry⟩ := decoded
  dsimp only at hdecode hfull ⊢
  have hall : ∀ x, lossy (accepted ++ frame.bytes ++ x) = text ++ more ++ lossy (carry ++ x) := by
    intro x
    rw [List.append_assoc, hfollows, ← List.append_assoc, hdecode, List.append_assoc]
  split
  · next hempty =>
    rw [List.isEmpty_iff.1 hempty, List.append_nil] at hall
    exact ⟨text, hholds.carry _ _, hall⟩
  · refine ⟨text ++ more, (hholds.carry (some frame.sequence) carry).reveal hfull, ?_⟩
    intro x
    rw [carry_reveal]
    exact hall x

/-! ## Which frames are accepted -/

/-- The last accepted number is the highest of those seen. -/
def Seen (stream : OutputStream) (seen : List Nat) : Prop :=
  match stream.last with
  | none => seen = []
  | some last => last ∈ seen ∧ ∀ n ∈ seen, n ≤ last

theorem Seen.accepts_iff {stream : OutputStream} {seen : List Nat} (h : stream.Seen seen)
    (frame : Frame) : stream.accepts frame = seen.all (· < frame.sequence) := by
  rw [Seen] at h
  rw [accepts, Bool.eq_iff_iff, List.all_eq_true]
  cases hlast : stream.last with
  | none =>
    rw [hlast] at h
    simp [h]
  | some last =>
    rw [hlast] at h
    obtain ⟨hmem, hmax⟩ := h
    simp only [decide_eq_true_eq]
    exact ⟨fun hlt n hn => Nat.lt_of_le_of_lt (hmax n hn) hlt, fun hall => hall last hmem⟩

theorem last_push (stream : OutputStream) (frame : Frame) :
    (stream.push frame).last =
      if stream.accepts frame then some frame.sequence else stream.last := by
  rw [push]
  split
  · dsimp only
    split
    · rfl
    · rw [last_reveal]
  · rfl

theorem Seen.push {stream : OutputStream} {seen : List Nat} (h : stream.Seen seen)
    (frame : Frame) : (stream.push frame).Seen (frame.sequence :: seen) := by
  have haccepts := h.accepts_iff frame
  rw [Seen, last_push]
  split
  · next hnone =>
    split at hnone
    · cases hnone
    · next hrefused =>
      rw [accepts, hnone] at hrefused
      exact absurd rfl hrefused
  · next last hlast =>
    split at hlast
    · next haccepted =>
      cases hlast
      rw [haccepts, List.all_eq_true] at haccepted
      refine ⟨List.mem_cons_self, fun n hn => ?_⟩
      rcases List.mem_cons.1 hn with rfl | hn
      · exact Nat.le_refl _
      · exact Nat.le_of_lt (by simpa using haccepted n hn)
    · next hrefused =>
      rw [Seen, hlast] at h
      obtain ⟨hmem, hmax⟩ := h
      rw [accepts, hlast] at hrefused
      refine ⟨List.mem_cons_of_mem _ hmem, fun n hn => ?_⟩
      rcases List.mem_cons.1 hn with rfl | hn
      · simpa using hrefused
      · exact hmax n hn

/-- The frames a run accepts are those in increasing order. -/
theorem Follows.run {stream : OutputStream} {accepted : List UInt8} {seen : List Nat}
    (h : stream.Follows accepted) (hseen : stream.Seen seen) {frames : List Frame}
    (hsteady : stream.SteadyRun frames) :
    (stream.run frames).Follows (accepted ++ (increasing seen frames).flatMap (·.bytes)) ∧
      (stream.run frames).SteadyRun [] := by
  induction frames generalizing stream accepted seen with
  | nil =>
    rw [increasing, List.flatMap_nil, List.append_nil]
    exact ⟨h, hsteady⟩
  | cons frame frames ih =>
    obtain ⟨hframe, hrest⟩ := hsteady
    rw [increasing]
    rw [← hseen.accepts_iff frame]
    split
    · next haccepts =>
      rw [List.flatMap_cons, ← List.append_assoc]
      exact ih (h.push haccepts (hframe haccepts)) (hseen.push frame) hrest
    · next hrefused =>
      have hkept : (stream.push frame).Follows accepted := by
        rw [OutputStream.push, if_neg hrefused]
        exact h
      exact ih hkept (hseen.push frame) hrest

/-- Closing reveals what the carry holds. -/
theorem Follows.close {stream : OutputStream} {accepted : List UInt8} (h : stream.Follows accepted)
    (hsteady : stream.SteadyRun []) : stream.close.Holds (lossy accepted) := by
  obtain ⟨text, hholds, hfollows⟩ := h.text
  have hall := hfollows []
  rw [List.append_nil, List.append_nil] at hall
  rw [OutputStream.close]
  split
  · next hempty =>
    rw [hall, List.isEmpty_iff.1 hempty, lossy_nil, List.append_nil]
    exact hholds
  · next hcarry =>
    rw [hall]
    have hne : stream.carry ≠ [] := fun heq => hcarry (List.isEmpty_iff.2 heq)
    exact (hholds.carry stream.last []).reveal (hsteady hne)

end OutputStream

theorem limit_run (stream : OutputStream) (frames : List Frame) :
    (stream.run frames).limit = stream.limit := by
  induction frames generalizing stream with
  | nil => rfl
  | cons frame frames ih =>
    refine (ih (stream.push frame)).trans ?_
    rw [OutputStream.push]
    split
    · dsimp only
      split
      · rfl
      · rw [OutputStream.limit_reveal]
    · rfl

theorem limit_close (stream : OutputStream) : stream.close.limit = stream.limit := by
  rw [OutputStream.close]
  split
  · rfl
  · rw [OutputStream.limit_reveal]

/-- **Streamed output is preserved** when no accepted frame that holds ill-formed bytes ends inside
a character, and no text fits inline behind text that was spilled. -/
theorem preserves_of_steadyRun (limit : Option Nat) {frames : List Frame}
    (hsteady : (OutputStream.new limit).SteadyRun frames) : Preserves limit frames := by
  have hstart : (OutputStream.new limit).Follows [] :=
    ⟨[], OutputStream.holds_new limit, fun x => rfl⟩
  have hseen : (OutputStream.new limit).Seen [] := rfl
  obtain ⟨hfollows, hflush⟩ := hstart.run hseen hsteady
  have hclosed := hfollows.close hflush
  rw [List.nil_append] at hclosed
  have hlimit : ((OutputStream.new limit).run frames).close.limit = limit := by
    rw [limit_close, limit_run]
    rfl
  refine { shown := ?_, bounded := ?_, saved := ?_ }
  · cases hstage : ((OutputStream.new limit).run frames).close.stage with
    | none => rw [(hclosed.inline hstage).1]; exact List.prefix_rfl
    | some saved => exact (hclosed.staged saved hstage).2.1
  · intro l hl
    rw [← hclosed.counted]
    exact hclosed.bounded l (hlimit.trans hl)
  · intro hne
    cases hstage : ((OutputStream.new limit).run frames).close.stage with
    | none => exact absurd (hclosed.inline hstage).1 hne
    | some saved =>
      rw [OutputStream.artifact, hstage, (hclosed.staged saved hstage).1]
      rfl

/-! ## Where output is lost -/

/-- A frame of whole characters. -/
def textFrame (sequence : Nat) (text : List Char) : Frame where
  sequence := sequence
  bytes := text.flatMap String.utf8EncodeChar

theorem validate_textFrame (sequence : Nat) (text : List Char) :
    runUtf8Validation (textFrame sequence text).bytes 0 = none := by
  have htext : IsText (text.flatMap String.utf8EncodeChar ++ []) :=
    ⟨text, (List.append_nil _).symm⟩
  obtain ⟨n, _, _, ⟨hrun, _⟩ | ⟨_, hne⟩⟩ := validate_of_isText htext 0
  · exact hrun
  · exact absurd rfl hne

theorem OutputStream.decode_textFrame {stream : OutputStream} (h : stream.carry = [])
    (sequence : Nat) (text : List Char) :
    stream.decode (textFrame sequence text).bytes = (text, []) := by
  rw [decode, h, List.nil_append, validate_textFrame]
  dsimp only
  rw [textFrame, lossy_flatMap]

theorem OutputStream.steady_textFrame {stream : OutputStream} (h : stream.carry = [])
    {sequence : Nat} {text : List Char} (hfull : stream.Full text) :
    stream.Steady (textFrame sequence text) where
  whole valid len hrun := by
    rw [h, List.nil_append, validate_textFrame] at hrun
    cases hrun
  full := by
    rw [decode_textFrame h]
    exact hfull

theorem OutputStream.push_textFrame {stream : OutputStream} (h : stream.carry = [])
    {sequence : Nat} {text : List Char} (haccepts : stream.accepts (textFrame sequence text) = true)
    (hne : text ≠ []) : stream.push (textFrame sequence text) =
      { stream with last := some sequence, carry := [] }.reveal text := by
  rw [push, if_pos haccepts, decode_textFrame h]
  dsimp only
  rw [if_neg (by simpa using hne)]
  rfl

/-- Two frames of text: the first ends with a character that is longer than what is left of four
bytes, the second fits there. -/
def spilledThenShown : List Frame := [textFrame 0 ['a', 'b', '€'], textFrame 1 ['c']]

/-- The third character is spilled, the fourth is shown behind the second and not saved. -/
theorem spilled_then_shown_not_preserved : ¬ Preserves (some 4) spilledThenShown := by
  intro h
  have hcomplete : completeOutput spilledThenShown = ['a', 'b', '€', 'c'] :=
    lossy_flatMap ['a', 'b', '€', 'c']
  have hrevealed : ((OutputStream.new (some 4)).run spilledThenShown).close.revealed =
      ['a', 'b', 'c'] := by
    have hfirst : (OutputStream.new (some 4)).push (textFrame 0 ['a', 'b', '€']) =
        { OutputStream.new (some 4) with last := some 0, carry := [] }.reveal ['a', 'b', '€'] :=
      OutputStream.push_textFrame rfl rfl (by decide)
    change (((OutputStream.new (some 4)).push _).push _).close.revealed = _
    rw [hfirst, OutputStream.push_textFrame rfl (by decide) (by decide)]
    decide
  have hshown := h.shown
  rw [hcomplete, hrevealed] at hshown
  exact absurd hshown (by decide)

/-- A limit that falls between two characters. -/
theorem preserves_of_steadyRun_aligned :
    Preserves (some 2) [textFrame 0 ['a', 'b', '€'], textFrame 1 ['c']] := by
  apply preserves_of_steadyRun
  have hfirst : (OutputStream.new (some 2)).push (textFrame 0 ['a', 'b', '€']) =
      { OutputStream.new (some 2) with last := some 0, carry := [] }.reveal ['a', 'b', '€'] :=
    OutputStream.push_textFrame rfl rfl (by decide)
  refine ⟨fun _ => OutputStream.steady_textFrame rfl (fun hstage => ?_), fun _ => ?_, ?_⟩
  · cases hstage
  · rw [hfirst]
    refine OutputStream.steady_textFrame rfl fun _ limit hlimit c hc => ?_
    cases hlimit
    cases hc
    decide
  · rw [hfirst, OutputStream.push_textFrame rfl (by decide) (by decide)]
    exact fun hne => absurd rfl hne

end OhMyPi.Dispatch
