import Mathlib.Data.List.Forall2
import OhMyPi.Journal.FileLemmas

/-! The two decoders of a journal (`journal/src/sse.rs`, `decode_committed` of
`journal/src/lib.rs`): the scanner over a byte slice, and the loop over `read_block` on a buffered
stream. Both find the blocks of `Sse.framing`, so they agree on every byte string and for every
buffering of it. -/

namespace OhMyPi.Sse

/-- One decoded complete frame and its byte span. -/
structure Frame where
  entry : Entry
  start : Nat
  stop : Nat
deriving DecidableEq

/-- The bytes of a span. -/
def slice (bytes : Bytes) (start stop : Nat) : Bytes := (bytes.drop start).take (stop - start)

/-! ## The scanner -/

/-- `complete_block_end`: the position after the first blank line at or after `cursor`. -/
def completeBlockEnd (bytes : Bytes) (cursor : Nat) : Option Nat :=
  match _h : (bytes.drop cursor).idxOf? newline with
  | none => none
  | some relative =>
    let line := (bytes.drop cursor).take relative
    if line = [] || line = [carriageReturn] then some (cursor + relative + 1)
    else completeBlockEnd bytes (cursor + relative + 1)
termination_by bytes.length - cursor
decreasing_by
  obtain ⟨hlt, -⟩ := List.idxOf?_eq_some_iff.1 _h
  rw [List.length_drop] at hlt
  omega

theorem isBlank_concat (line : Bytes) :
    isBlank (line ++ [newline]) = (line = [] || line = [carriageReturn] : Bool) := by
  rcases line with - | ⟨c, - | ⟨d, line⟩⟩
  · rfl
  · simp [isBlank]
  · simp [isBlank]

/-- The scanner ends a block where the framing does. -/
theorem completeBlockEnd_eq (bytes : Bytes) (cursor : Nat) :
    completeBlockEnd bytes cursor =
      (framing.next (bytes.drop cursor)).map fun p => cursor + p.1.length := by
  induction hn : bytes.length - cursor using Nat.strongRecOn generalizing cursor with
  | ind n ih =>
    rw [completeBlockEnd]
    split
    · next hidx =>
      have hskip : Framing.nextLines newline isBlank [] (bytes.drop cursor ++ []) =
          Framing.nextLines newline isBlank ([] ++ bytes.drop cursor) [] :=
        Framing.nextLines_skip (List.idxOf?_eq_none_iff.1 hidx)
      rw [List.append_nil] at hskip
      rw [framing_next, hskip]
      rfl
    · next relative hidx =>
      obtain ⟨hsplit, hline, hlt⟩ := Framing.split_of_idxOf? hidx
      have hlen : ((bytes.drop cursor).take relative).length = relative := by
        rw [List.length_take]
        omega
      rw [List.drop_drop, ← Nat.add_assoc] at hsplit
      rw [List.length_drop] at hlt
      generalize (bytes.drop cursor).take relative = line at hsplit hline hlen ⊢
      rw [hsplit, framing_next]
      simp only [← isBlank_concat]
      cases hblank : isBlank (line ++ [newline]) with
      | true =>
        rw [if_pos rfl, Framing.nextLines_skip hline, Framing.nextLines, if_pos rfl,
          List.nil_append, if_pos hblank]
        simp [hlen, Nat.add_assoc]
      | false =>
        rw [if_neg Bool.false_ne_true, ih _ (by omega) _ rfl, framing_next,
          Framing.nextLines_cons_line hline hblank, Option.map_map]
        congr 1
        funext p
        simp [hlen, Nat.add_assoc, Nat.add_comm 1]

theorem completeBlockEnd_lt (h : completeBlockEnd bytes cursor = some stop) :
    cursor < stop ∧ stop ≤ bytes.length := by
  rw [completeBlockEnd_eq] at h
  obtain ⟨⟨block, rest⟩, hnext, rfl⟩ := Option.map_eq_some_iff.1 h
  have hpos := List.length_pos_iff.2 (framing.next_ne_nil hnext)
  have hlen := congrArg List.length (framing.next_eq hnext)
  rw [List.length_drop, List.length_append] at hlen
  dsimp only
  omega

/-- `Scanner`. -/
structure Scanner where
  bytes : Bytes
  /-- The byte immediately after the last complete frame. -/
  offset : Nat

namespace Scanner

def new (bytes : Bytes) : Scanner := { bytes, offset := 0 }

def hasTornTail (s : Scanner) : Bool := s.offset < s.bytes.length

variable (json : SerdeJson)

/-- `Scanner::next`: the next complete frame that is not blank, if there is one before the torn
tail. -/
def next (s : Scanner) : Option (Except SseError Frame) × Scanner :=
  match _h : completeBlockEnd s.bytes s.offset with
  | none =>
    (if s.bytes.length - s.offset > frameHardCap then
      some (.error (.frameTooLarge frameHardCap)) else none, s)
  | some stop =>
    if stop - s.offset > frameHardCap then (some (.error (.frameTooLarge frameHardCap)), s)
    else if isBlank (slice s.bytes s.offset stop) then next { s with offset := stop }
    else (some ((parseFrame json (slice s.bytes s.offset stop)).map fun entry =>
      { entry, start := s.offset, stop }), { s with offset := stop })
termination_by s.bytes.length - s.offset
decreasing_by
  have := completeBlockEnd_lt _h
  omega

/-- A frame that the scanner hands out lies beyond its offset. -/
theorem next_ok {s s' : Scanner} (h : s.next json = (some (.ok frame), s')) :
    s'.bytes = s.bytes ∧ s.offset < s'.offset ∧ s'.offset ≤ s.bytes.length := by
  induction hn : s.bytes.length - s.offset using Nat.strongRecOn generalizing s with
  | ind n ih =>
    rw [Scanner.next] at h
    split at h
    · split at h <;> cases h
    · next stop hstop =>
      have hlt := completeBlockEnd_lt hstop
      split at h
      · cases h
      · split at h
        · obtain ⟨hbytes, hoff, hle⟩ := ih _ (by simp only; omega) h rfl
          exact ⟨hbytes, by simp only at hoff; omega, hle⟩
        · obtain ⟨-, rfl⟩ := Prod.mk.inj h
          exact ⟨rfl, hlt⟩

end Scanner

/-! ## All frames of a journal -/

/-- What a decoder makes of a byte string: the frames up to its end or the first error, the
position it reached, and the torn remainder or the error. -/
structure Decoding where
  frames : List Frame
  cleanLen : Nat
  result : Except SseError Nat

section

variable (json : SerdeJson)

/-- Calls `next` until it has nothing more to give or fails. -/
def Scanner.scan (s : Scanner) : Decoding :=
  match _h : s.next json with
  | (none, s') => { frames := [], cleanLen := s'.offset, result := .ok (s'.bytes.length - s'.offset) }
  | (some (.error e), s') => { frames := [], cleanLen := s'.offset, result := .error e }
  | (some (.ok frame), s') => { s'.scan with frames := frame :: s'.scan.frames }
termination_by s.bytes.length - s.offset
decreasing_by
  all_goals
    obtain ⟨hbytes, hlt⟩ := Scanner.next_ok json _h
    rw [hbytes]
    omega

/-- The loop of `decode_committed`, with the span of each block it parses. -/
def readFrames (reader : Reader) (cleanLen : Nat) : Decoding :=
  match _h : readBlock reader with
  | (.end_, _, _) => { frames := [], cleanLen, result := .ok 0 }
  | (.torn, block, _) => { frames := [], cleanLen, result := .ok block.length }
  | (.tooLarge, _, _) => { frames := [], cleanLen, result := .error (.frameTooLarge frameHardCap) }
  | (.complete, block, reader') =>
    let stop := cleanLen + block.length
    if isBlank block then readFrames reader' stop
    else match parseFrame json block with
      | .ok entry =>
        { readFrames reader' stop with
          frames := { entry, start := cleanLen, stop } :: (readFrames reader' stop).frames }
      | .error source => { frames := [], cleanLen := stop, result := .error source }
termination_by reader.bytes.length
decreasing_by all_goals exact readBlock_complete_lt _h

end

variable {json : SerdeJson}

/-! ## Agreement -/

/-- A decoder's answer on the bytes alone, from position `cleanLen` on. -/
def decoding (json : SerdeJson) (bytes : Bytes) (cleanLen : Nat) : Decoding :=
  match _h : framing.next bytes with
  | none =>
    { frames := [], cleanLen
      result := if bytes.length ≤ frameHardCap then .ok bytes.length
        else .error (.frameTooLarge frameHardCap) }
  | some (block, rest) =>
    let stop := cleanLen + block.length
    if block.length ≤ frameHardCap then
      if isBlank block then decoding json rest stop
      else match parseFrame json block with
        | .ok entry =>
          { decoding json rest stop with
            frames := { entry, start := cleanLen, stop } :: (decoding json rest stop).frames }
        | .error source => { frames := [], cleanLen := stop, result := .error source }
    else { frames := [], cleanLen, result := .error (.frameTooLarge frameHardCap) }
termination_by bytes.length
decreasing_by all_goals exact Framing.length_lt_of_next _h

theorem decoding_of_none (h : framing.next bytes = none) :
    decoding json bytes cleanLen =
      { frames := [], cleanLen
        result := if bytes.length ≤ frameHardCap then .ok bytes.length
          else .error (.frameTooLarge frameHardCap) } := by
  rw [decoding]
  split <;> simp_all

theorem decoding_of_some (h : framing.next bytes = some (block, rest)) :
    decoding json bytes cleanLen =
      if block.length ≤ frameHardCap then
        if isBlank block then decoding json rest (cleanLen + block.length)
        else match parseFrame json block with
          | .ok entry =>
            { decoding json rest (cleanLen + block.length) with
              frames := { entry, start := cleanLen, stop := cleanLen + block.length } ::
                (decoding json rest (cleanLen + block.length)).frames }
          | .error source =>
            { frames := [], cleanLen := cleanLen + block.length, result := .error source }
      else { frames := [], cleanLen, result := .error (.frameTooLarge frameHardCap) } := by
  rw [decoding]
  split
  · next hnone => cases hnone.symm.trans h
  · next hsome =>
    cases hsome.symm.trans h
    rfl

theorem readFrames_complete (h : readBlock reader = (.complete, block, reader')) :
    readFrames json reader cleanLen =
      if isBlank block then readFrames json reader' (cleanLen + block.length)
      else match parseFrame json block with
        | .ok entry =>
          { readFrames json reader' (cleanLen + block.length) with
            frames := { entry, start := cleanLen, stop := cleanLen + block.length } ::
              (readFrames json reader' (cleanLen + block.length)).frames }
        | .error source =>
          { frames := [], cleanLen := cleanLen + block.length, result := .error source } := by
  rw [readFrames]
  split
  · next hend => cases hend.symm.trans h
  · next htorn => cases htorn.symm.trans h
  · next hlarge => cases hlarge.symm.trans h
  · next hcomplete =>
    cases hcomplete.symm.trans h
    rfl

theorem readFrames_tooLarge (h : (readBlock reader).1 = .tooLarge) :
    readFrames json reader cleanLen =
      { frames := [], cleanLen, result := .error (.frameTooLarge frameHardCap) } := by
  rw [readFrames]
  split <;> simp_all

theorem readFrames_torn
    (h : readBlock reader = (if reader.bytes = [] then .end_ else .torn, reader.bytes, reader')) :
    readFrames json reader cleanLen =
      { frames := [], cleanLen, result := .ok reader.bytes.length } := by
  rw [readFrames]
  split <;> by_cases hnil : reader.bytes = [] <;> simp_all

/-- The stream decoder, whatever the buffering. -/
theorem readFrames_eq (reader : Reader) (cleanLen : Nat) :
    readFrames json reader cleanLen = decoding json reader.bytes cleanLen := by
  induction hn : reader.bytes.length using Nat.strongRecOn generalizing reader cleanLen with
  | ind n ih =>
    cases hnext : framing.next reader.bytes with
    | none =>
      rw [decoding_of_none hnext]
      split
      · next hfits =>
        obtain ⟨reader', hblock⟩ := readBlock_torn hnext hfits
        exact readFrames_torn hblock
      · next hlarge =>
        refine readFrames_tooLarge ?_
        rw [(readBlock_agrees reader).1, nextBlock, hnext]
        exact congrArg Prod.fst (if_neg hlarge)
    | some p =>
      obtain ⟨block, rest⟩ := p
      rw [decoding_of_some hnext]
      split
      · next hfits =>
        obtain ⟨reader', hblock, rfl⟩ := readBlock_complete hnext hfits
        have hlt := readBlock_complete_lt hblock
        rw [readFrames_complete hblock, ih _ (hn ▸ hlt) _ _ rfl]
      · next hlarge =>
        refine readFrames_tooLarge ?_
        rw [(readBlock_agrees reader).1, nextBlock, hnext]
        exact congrArg Prod.fst (if_neg hlarge)

theorem slice_of_next (h : framing.next (bytes.drop start) = some (block, rest)) :
    slice bytes start (start + block.length) = block ∧ bytes.drop (start + block.length) = rest := by
  have heq := framing.next_eq h
  constructor
  · rw [slice, heq, Nat.add_sub_cancel_left, List.take_left]
  · rw [← List.drop_drop, heq, List.drop_left]

namespace Scanner

variable {s : Scanner}

theorem next_of_none (json : SerdeJson) (h : framing.next (s.bytes.drop s.offset) = none) :
    s.next json = (if s.bytes.length - s.offset > frameHardCap then
      some (.error (.frameTooLarge frameHardCap)) else none, s) := by
  have hend : completeBlockEnd s.bytes s.offset = none := by
    rw [completeBlockEnd_eq, h]
    rfl
  rw [Scanner.next]
  split <;> simp_all

theorem next_of_some (json : SerdeJson)
    (h : framing.next (s.bytes.drop s.offset) = some (block, rest)) :
    s.next json =
      if block.length > frameHardCap then (some (.error (.frameTooLarge frameHardCap)), s)
      else if isBlank block then Scanner.next json { s with offset := s.offset + block.length }
      else (some ((parseFrame json block).map fun entry =>
        { entry, start := s.offset, stop := s.offset + block.length }),
        { s with offset := s.offset + block.length }) := by
  have hend : completeBlockEnd s.bytes s.offset = some (s.offset + block.length) := by
    rw [completeBlockEnd_eq, h]
    rfl
  rw [Scanner.next]
  split
  · next hnone => cases hnone.symm.trans hend
  · next stop hstop =>
    cases hstop.symm.trans hend
    rw [(slice_of_next h).1, Nat.add_sub_cancel_left]

theorem scan_of_next_eq {s' : Scanner} (h : s.next json = s'.next json) :
    s.scan json = s'.scan json := by
  rw [scan, scan]
  split <;> split <;> simp_all

/-- The scanner, from any position. -/
theorem scan_eq (json : SerdeJson) (s : Scanner) :
    s.scan json = decoding json (s.bytes.drop s.offset) s.offset := by
  induction hn : (s.bytes.drop s.offset).length using Nat.strongRecOn generalizing s with
  | ind n ih =>
    cases hnext : framing.next (s.bytes.drop s.offset) with
    | none =>
      have hstep := next_of_none json hnext
      rw [decoding_of_none hnext, List.length_drop, scan]
      by_cases hlarge : s.bytes.length - s.offset > frameHardCap
      · rw [if_pos hlarge] at hstep
        rw [if_neg (by omega)]
        split <;> simp_all
      · rw [if_neg hlarge] at hstep
        rw [if_pos (by omega)]
        split <;> simp_all
    | some p =>
      obtain ⟨block, rest⟩ := p
      have hstep := next_of_some json hnext
      have hrest := (slice_of_next hnext).2
      have hlt := Framing.length_lt_of_next hnext
      have ih' := ih rest.length (hn ▸ hlt) { s with offset := s.offset + block.length }
        (congrArg List.length hrest)
      simp only [hrest] at ih'
      rw [decoding_of_some hnext]
      by_cases hlarge : block.length > frameHardCap
      · rw [if_pos hlarge] at hstep
        rw [if_neg (by omega), scan]
        split <;> simp_all
      · rw [if_neg hlarge] at hstep
        rw [if_pos (by omega)]
        cases hblank : isBlank block with
        | true =>
          rw [hblank, if_pos rfl] at hstep
          rw [if_pos rfl, scan_of_next_eq hstep, ih']
        | false =>
          rw [hblank, if_neg Bool.false_ne_true] at hstep
          rw [if_neg Bool.false_ne_true, scan]
          cases hparse : parseFrame json block with
          | error source =>
            rw [hparse] at hstep
            split <;> simp_all [Except.map]
          | ok entry =>
            rw [hparse] at hstep
            split <;> simp_all [Except.map]

end Scanner

/-! ## `decode_committed` on a scanned slice -/

theorem parseLine_error (h : parseLine line fields = .error source) (limit : Nat) :
    source ≠ .frameTooLarge limit := by
  rintro rfl
  rw [parseLine.eq_def] at h
  split at h
  · cases h
  · split at h
    · cases h
    · simp only at h
      repeat' split at h
      all_goals cases h

theorem parseLines_error (h : parseLines lines fields = .error source) (limit : Nat) :
    source ≠ .frameTooLarge limit := by
  induction lines generalizing fields with
  | nil => cases h
  | cons line lines ih =>
    rw [parseLines] at h
    split at h
    · cases h
    · split at h
      · exact ih h
      · next hline =>
        cases h
        exact parseLine_error hline limit

/-- Only the block reader refuses a block for its size. -/
theorem parseFrame_error (h : parseFrame json raw = .error source) (limit : Nat) :
    source ≠ .frameTooLarge limit := by
  rw [parseFrame] at h
  split at h
  · cases h
    rintro ⟨⟩
  · split at h
    · rintro rfl
      rw [Fields.finish.eq_def] at h
      repeat' split at h
      all_goals cases h
    · next hlines =>
      cases h
      exact parseLines_error hlines limit

/-- How `decode_committed` reports a decoder's error. -/
def readError : SseError → JournalError
  | .frameTooLarge limit => .frameTooLarge limit
  | source => mapSseReadError source

/-- What the loop of `decode_committed` returns for a decoding. -/
def Decoding.decoded (d : Decoding) : Except JournalError Decoded :=
  match d.result with
  | .ok torn => .ok { entries := d.frames.map (·.entry), cleanLen := d.cleanLen, tornLen := torn }
  | .error source => .error (readError source)

theorem readError_of_parseFrame (h : parseFrame json raw = .error source) :
    readError source = mapSseReadError source := by
  cases source with
  | frameTooLarge limit => exact absurd rfl (parseFrame_error h limit)
  | _ => rfl

/-- The loop of `decode_committed` returns what its decoding says. -/
theorem decodeFrom_eq (reader : Reader) (entries : List Entry) (cleanLen : Nat) :
    decodeFrom json reader entries cleanLen = (readFrames json reader cleanLen).decoded.map
      fun d => { d with entries := entries ++ d.entries } := by
  induction hn : reader.bytes.length using Nat.strongRecOn generalizing reader entries cleanLen with
  | ind n ih =>
    rw [decodeFrom]
    split
    · next hblock =>
      rw [readFrames]
      split <;> simp_all [Decoding.decoded, Except.map]
    · next hblock =>
      rw [readFrames]
      split <;> simp_all [Decoding.decoded, Except.map]
    · next hblock =>
      rw [readFrames_tooLarge (by rw [hblock])]
      rfl
    · next block reader' hblock =>
      have hlt := readBlock_complete_lt hblock
      rw [readFrames_complete hblock]
      cases hblank : isBlank block with
      | true => exact ih _ (hn ▸ hlt) _ _ _ rfl
      | false =>
        simp only [Bool.false_eq_true, if_false]
        cases hparse : parseFrame json block with
        | error source => exact congrArg Except.error (readError_of_parseFrame hparse).symm
        | ok entry =>
          simp only
          rw [ih _ (hn ▸ hlt) _ _ _ rfl]
          simp only [Decoding.decoded]
          split <;> simp [Except.map]

/-- On every byte string and for every buffering of it, the loop over `read_block` and the scanner
find the same frames at the same positions, reach the same commit point and end with the same torn
remainder or the same error; `decode_committed` returns what the scanner found, once its history
is validated. -/
theorem decodeCommitted_scan (json : SerdeJson) (reader : Reader) :
    readFrames json reader 0 = (Scanner.new reader.bytes).scan json ∧
    decodeCommitted json reader = (do
      let decoded ← ((Scanner.new reader.bytes).scan json).decoded
      validateHistory json decoded.entries
      validateGenesisVersion json decoded.entries
      return decoded) := by
  have hagree : readFrames json reader 0 = (Scanner.new reader.bytes).scan json := by
    rw [readFrames_eq, Scanner.scan_eq]
    rfl
  refine ⟨hagree, ?_⟩
  rw [decodeCommitted, decodeFrom_eq, hagree]
  congr 1
  cases ((Scanner.new reader.bytes).scan json).decoded <;> rfl

/-! ## Encoded entries -/

/-- The frames of consecutive entries, the first at `start`. -/
def spans : Nat → List Entry → List Frame
  | _, [] => []
  | start, e :: es =>
    { entry := e, start, stop := start + (frameBytes e).length } ::
      spans (start + (frameBytes e).length) es

theorem map_entry_spans (start : Nat) (es : List Entry) : (spans start es).map (·.entry) = es := by
  induction es generalizing start with
  | nil => rfl
  | cons e es ih => rw [spans, List.map_cons, ih]

theorem map_slice_spans (front : Bytes) (es : List Entry) :
    (spans front.length es).map (fun f => slice (front ++ frames es) f.start f.stop) =
      es.map frameBytes := by
  induction es generalizing front with
  | nil => rfl
  | cons e es ih =>
    have hsplit : front ++ frames (e :: es) = front ++ frameBytes e ++ frames es := by
      simp [frames]
    have ih := ih (front ++ frameBytes e)
    rw [List.length_append] at ih
    rw [hsplit, spans, List.map_cons, List.map_cons, ih, slice, List.append_assoc, List.drop_left,
      Nat.add_sub_cancel_left, List.take_left]

/-- Frames that `encode` wrote, one after the other, decode to their entries. -/
theorem decoding_frames (hes : ∀ e ∈ es, Writable json e) (start : Nat) :
    decoding json (frames es) start =
      { frames := spans start es, cleanLen := start + (frames es).length, result := .ok 0 } := by
  induction es generalizing start with
  | nil => exact decoding_of_none framing.next_nil
  | cons e es ih =>
    have he := hes e List.mem_cons_self
    have hnext := (frameBytes_isFrame he.toEncodable).next (frames es)
    have hsplit : frames (e :: es) = frameBytes e ++ frames es := by simp [frames]
    rw [hsplit, decoding_of_some hnext, if_pos he.frameLen,
      if_neg (by rw [frameBytes_not_blank he.toEncodable]; exact Bool.false_ne_true),
      parseFrame_frameBytes he.toEncodable]
    simp only
    rw [ih fun e' he' => hes e' (List.mem_cons_of_mem _ he')]
    simp [spans, Nat.add_assoc]

/-- Entries encoded one after the other are frames appended to the output. -/
theorem foldlM_encode (h : es.foldlM (fun output entry => encode json entry output) output =
    .ok output') : (∀ e ∈ es, Writable json e) ∧ output' = output ++ frames es := by
  induction es generalizing output with
  | nil =>
    cases h
    exact ⟨nofun, (List.append_nil _).symm⟩
  | cons e es ih =>
    rw [List.foldlM_cons] at h
    obtain ⟨encoded, he, h⟩ := Except.bind_eq_ok.1 h
    obtain ⟨hencodable, hlen, rfl⟩ := encode_eq_ok.1 he
    obtain ⟨hes, rfl⟩ := ih h
    refine ⟨fun e' he' => ?_, by simp [frames]⟩
    rcases List.mem_cons.1 he' with rfl | he'
    · exact ⟨hencodable, hlen⟩
    · exact hes e' he'

/-- Every entry that `encode` accepts is read back from its frame, and frames written one after
the other split into exactly those frames, for the scanner and for every buffering of a
stream. -/
theorem encode_roundTrip {json : SerdeJson} {entries : List Entry} {output output' : Bytes}
    (h : entries.foldlM (fun output entry => encode json entry output) output = .ok output') :
    ∃ frames d, output' = output ++ frames.flatten ∧
      List.Forall₂ (fun entry frame => encode json entry [] = .ok frame ∧
        parseFrame json frame = .ok entry) entries frames ∧
      (Scanner.new frames.flatten).scan json = d ∧
      (∀ reader : Reader, reader.bytes = frames.flatten → readFrames json reader 0 = d) ∧
      d.frames.map (·.entry) = entries ∧
      d.frames.map (fun f => slice frames.flatten f.start f.stop) = frames ∧
      d.result = .ok 0 := by
  obtain ⟨hes, rfl⟩ := foldlM_encode h
  refine ⟨entries.map frameBytes, _, rfl, ?_,
    (Scanner.scan_eq json (.new (frames entries))).trans (decoding_frames hes 0), ?_, ?_, ?_, rfl⟩
  · rw [List.forall₂_map_right_iff, List.forall₂_same]
    exact fun e he => ⟨encode_eq_ok.2 ⟨(hes e he).toEncodable, (hes e he).frameLen, rfl⟩,
      parseFrame_frameBytes (hes e he).toEncodable⟩
  · intro reader hreader
    rw [readFrames_eq, hreader]
    exact decoding_frames hes 0
  · exact map_entry_spans 0 entries
  · exact map_slice_spans [] entries

/-- `serde_json` on the payload of the example. -/
def arrayJson : SerdeJson where
  ignoredAny text := text = " [\": λ\"]"
  headerVersion _ := none
  value text := if text = " [\": λ\"]" then some (.array [.string ": λ"]) else none

/-- A labelled entry that branches off its cause, with a space and a colon in front of its label. -/
def labelledEntry : Entry where
  id := ⟨7, by decide⟩
  kind := .known .patch
  by_ := some ⟨5, by decide⟩
  prior := some ⟨5, by decide⟩
  label := some " : λ"
  data := " [\": λ\"]"

theorem encode_roundTrip_labelled : ∃ output d,
    [labelledEntry, labelledEntry].foldlM (fun output entry => encode arrayJson entry output) [] =
      .ok output ∧
    (Scanner.new output).scan arrayJson = d ∧ d.frames.map (·.entry) = [labelledEntry, labelledEntry] ∧
    d.result = .ok 0 := by
  have hok : ([labelledEntry, labelledEntry].foldlM
      (fun output entry => encode arrayJson entry output) []).toOption.isSome = true := by
    decide +kernel
  cases hfold : [labelledEntry, labelledEntry].foldlM
      (fun output entry => encode arrayJson entry output) [] with
  | error e =>
    rw [hfold] at hok
    cases hok
  | ok output =>
    obtain ⟨frames, d, rfl, -, hscan, -, hentries, -, hresult⟩ := encode_roundTrip hfold
    exact ⟨_, d, rfl, hscan, hentries, hresult⟩

end OhMyPi.Sse
