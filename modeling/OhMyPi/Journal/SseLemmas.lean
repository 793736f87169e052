import OhMyPi.Journal.Sse

/-! What the frame codec guarantees. The block reader's answer depends only on the bytes of the
stream, never on how they are buffered; every frame that `encode` writes is one complete block;
and `parse_frame` reads it back as the entry it came from. -/

namespace OhMyPi.Sse

open Text (isEol OneLine any_isEol_eq_false)

/-- Blocks as the reader delimits them: lines up to and including the first blank one. -/
def framing : Framing UInt8 := Framing.lines newline isBlank

theorem framing_next (xs : Bytes) :
    framing.next xs = Framing.nextLines newline isBlank [] xs := rfl

/-! ## The block reader -/

/-- `read_block` on the bytes of the stream alone. -/
def nextBlock (xs : Bytes) : Block × Bytes × Bytes :=
  match framing.next xs with
  | some (block, rest) =>
    if block.length ≤ frameHardCap then (.complete, block, rest) else (.tooLarge, [], [])
  | none =>
    if xs.length ≤ frameHardCap then (if xs = [] then .end_ else .torn, xs, [])
    else (.tooLarge, [], [])

/-- Two readings of a block agree; what a refused block had buffered is not compared. -/
def Block.Agrees (r : Block × Bytes × Reader) (s : Block × Bytes × Bytes) : Prop :=
  r.1 = s.1 ∧ (r.1 ≠ .tooLarge → r.2.1 = s.2.1 ∧ r.2.2.bytes = s.2.2)

/-- The reader in the middle of a block, on bytes alone: `done` are its complete lines so far
and `line` its current one. -/
private def nextBlockFrom (done line xs : Bytes) : Block × Bytes × Bytes :=
  match Framing.nextLines newline isBlank line xs with
  | some (block, rest) =>
    if (done ++ block).length ≤ frameHardCap then (.complete, done ++ block, rest)
    else (.tooLarge, [], [])
  | none =>
    if (done ++ line ++ xs).length ≤ frameHardCap then
      (if done ++ line ++ xs = [] then .end_ else .torn, done ++ line ++ xs, [])
    else (.tooLarge, [], [])

private theorem takeLine_some (h : (takeLine xs).2 = true) :
    ∃ l rest, newline ∉ l ∧ xs = l ++ newline :: rest ∧ (takeLine xs).1 = l.length + 1 := by
  rw [takeLine] at h ⊢
  split at h
  · next index hidx =>
    obtain ⟨hsplit, hline, hlt⟩ := Framing.split_of_idxOf? hidx
    exact ⟨xs.take index, xs.drop (index + 1), hline, hsplit, by simp; omega⟩
  · cases h

private theorem takeLine_none (h : (takeLine xs).2 = false) :
    newline ∉ xs ∧ (takeLine xs).1 = xs.length := by
  rw [takeLine] at h ⊢
  split at h
  · cases h
  · next hidx => exact ⟨List.idxOf?_eq_none_iff.1 hidx, by simp⟩

private theorem nextBlockFrom_tooLarge (h : frameHardCap < (done ++ line).length) :
    nextBlockFrom done line xs = (.tooLarge, [], []) := by
  rw [nextBlockFrom]
  split
  · next block rest hnext =>
    have hle := (Framing.nextLines_isPrefix hnext).length_le
    rw [List.length_append] at h
    rw [if_neg (by rw [List.length_append]; omega)]
  · rw [List.length_append] at h
    rw [if_neg (by simp only [List.length_append]; omega)]

private theorem nextBlockFrom_skip (hbuf : newline ∉ buf) :
    nextBlockFrom done line (buf ++ xs) = nextBlockFrom done (line ++ buf) xs := by
  simp only [nextBlockFrom, Framing.nextLines_skip hbuf, List.append_assoc]

private theorem nextBlockFrom_blank (hl : newline ∉ l) (hblank : isBlank (line ++ l ++ [newline])) :
    nextBlockFrom done line (l ++ newline :: xs) =
      if (done ++ (line ++ l ++ [newline])).length ≤ frameHardCap then
        (.complete, done ++ (line ++ l ++ [newline]), xs) else (.tooLarge, [], []) := by
  rw [nextBlockFrom, Framing.nextLines_skip hl, Framing.nextLines, if_pos rfl, if_pos hblank]

private theorem nextBlockFrom_line (hl : newline ∉ l)
    (hblank : isBlank (line ++ l ++ [newline]) = false) :
    nextBlockFrom done line (l ++ newline :: xs) =
      nextBlockFrom (done ++ (line ++ l ++ [newline])) [] xs := by
  rw [nextBlockFrom, Framing.nextLines_skip hl, Framing.nextLines, if_pos rfl,
    if_neg (by rw [hblank]; decide), nextBlockFrom]
  cases Framing.nextLines newline isBlank [] xs <;> simp

private theorem readBlockFrom_agrees (r : Reader) (done line : Bytes)
    (hcap : (done ++ line).length ≤ frameHardCap) :
    Block.Agrees (readBlockFrom r (done ++ line) done.length) (nextBlockFrom done line r.bytes) := by
  -- The stream shrinks with every buffer taken from it.
  induction hn : r.bytes.length using Nat.strongRecOn generalizing r done line with
  | ind n ih =>
    obtain ⟨rest, hrest⟩ := r.fillBuf_append
    have hle := takeLine_le r.fillBuf
    have hbytes := r.bytes_consume hle
    rw [readBlockFrom]
    split
    · next hnil =>
      have hnil := Reader.fillBuf_eq_nil.1 hnil
      simp only [nextBlockFrom, hnil, Framing.nextLines, List.append_nil]
      rw [if_pos hcap]
      exact ⟨rfl, fun _ => ⟨rfl, hnil⟩⟩
    · next hne =>
      have hpos := takeLine_pos hne
      have hlt : (r.consume (takeLine r.fillBuf).1).bytes.length < n := by
        rw [hbytes, List.length_drop, ← hn, hrest, List.length_append]
        omega
      cases hdone : (takeLine r.fillBuf).2 with
      | true =>
        obtain ⟨l, after, hl, hbuf, htake⟩ := takeLine_some hdone
        have hxs : r.bytes = l ++ newline :: (after ++ rest) := by simp [hrest, hbuf]
        have htaken : r.fillBuf.take (takeLine r.fillBuf).1 = l ++ [newline] := by
          rw [htake, hbuf, show l ++ newline :: after = (l ++ [newline]) ++ after by simp]
          exact List.take_left' (by simp)
        have hafter : (r.consume (takeLine r.fillBuf).1).bytes = after ++ rest := by
          rw [hbytes, htake, hxs, show l ++ newline :: (after ++ rest) =
            (l ++ [newline]) ++ (after ++ rest) by simp]
          exact List.drop_left' (by simp)
        have hlen : (done ++ (line ++ l ++ [newline])).length =
            (done ++ line).length + (takeLine r.fillBuf).1 := by
          simp [htake, Nat.add_assoc]
        split
        · next hbig =>
          rw [hxs]
          have hbig : frameHardCap < (done ++ (line ++ l ++ [newline])).length := by omega
          cases hblank : isBlank (line ++ l ++ [newline]) with
          | true =>
            rw [nextBlockFrom_blank hl hblank, if_neg (by omega)]
            exact ⟨rfl, fun h => absurd rfl h⟩
          | false =>
            rw [nextBlockFrom_line hl hblank, nextBlockFrom_tooLarge (by simpa using hbig)]
            exact ⟨rfl, fun h => absurd rfl h⟩
        · next hsmall =>
          have hfits : (done ++ (line ++ l ++ [newline])).length ≤ frameHardCap := by omega
          have hblock : done ++ line ++ (l ++ [newline]) = done ++ (line ++ l ++ [newline]) := by
            simp
          rw [htaken, hblock, hxs, if_pos rfl]
          simp only [List.drop_left]
          cases hblank : isBlank (line ++ l ++ [newline]) with
          | true =>
            rw [nextBlockFrom_blank hl hblank, if_pos hfits]
            exact ⟨rfl, fun _ => ⟨rfl, hafter⟩⟩
          | false =>
            rw [nextBlockFrom_line hl hblank, ← hafter]
            have := ih _ hlt _ (done ++ (line ++ l ++ [newline])) [] (by simpa using hfits) rfl
            simpa using this
      | false =>
        obtain ⟨hbuf, htake⟩ := takeLine_none hdone
        have hafter : (r.consume (takeLine r.fillBuf).1).bytes = rest := by
          rw [hbytes, htake, hrest, List.drop_left]
        rw [hrest, nextBlockFrom_skip hbuf]
        split
        · next hbig =>
          rw [nextBlockFrom_tooLarge (by simp only [List.length_append] at hbig ⊢; omega)]
          exact ⟨rfl, fun h => absurd rfl h⟩
        · next hsmall =>
          have hfits : (done ++ (line ++ r.fillBuf)).length ≤ frameHardCap := by
            simp only [List.length_append] at hsmall hcap ⊢
            omega
          have := ih _ hlt _ done (line ++ r.fillBuf) hfits rfl
          rw [hafter, htake, ← List.append_assoc] at this
          rwa [if_neg (by simp), htake, List.take_length]

/-- The block reader delivers the same block and leaves the same bytes for every buffering of
the stream. -/
theorem readBlock_agrees (r : Reader) : Block.Agrees (readBlock r) (nextBlock r.bytes) := by
  have h := readBlockFrom_agrees r [] [] (Nat.zero_le _)
  simpa [nextBlockFrom, nextBlock, framing, Framing.lines, readBlock] using h

/-! ## The frame codec -/

/-- What `encode` checks of an entry, the frame cap apart. -/
structure Encodable (json : SerdeJson) (entry : Entry) : Prop where
  label : ∀ label ∈ entry.label, OneLine label.toList
  data : OneLine entry.data.toList
  dataLen : strLen entry.data ≤ dataHardCap
  dataJson : json.ignoredAny entry.data = true
  kind : ∃ name, entry.kind = .known name

theorem encode_eq_ok {json : SerdeJson} : encode json entry output = .ok output' ↔
    Encodable json entry ∧ (frameBytes entry).length ≤ frameHardCap ∧
      output' = output ++ frameBytes entry := by
  have hlabel : entry.label.any (·.toList.any isEol) = false ↔
      ∀ label ∈ entry.label, OneLine label.toList := by
    cases entry.label with
    | none => simp
    | some label => simp only [Option.any_some, any_isEol_eq_false, Option.mem_def,
        Option.some.injEq, forall_eq']
  simp only [encode, validateLabel, validateData, Except.unit_bind_eq_ok, Except.ite_error_eq_ok,
    Except.ok.injEq, Bool.not_eq_true, Bool.not_eq_false', gt_iff_lt, Nat.not_lt, and_true,
    any_isEol_eq_false, hlabel, Kind.isKnown_iff]
  constructor
  · rintro ⟨hlabel, ⟨hlen, hline, hjson⟩, hkind, hcap, rfl⟩
    exact ⟨⟨hlabel, hline, hlen, hjson, hkind⟩, hcap, rfl⟩
  · rintro ⟨⟨hlabel, hline, hlen, hjson, hkind⟩, hcap, rfl⟩
    exact ⟨hlabel, ⟨hlen, hline, hjson⟩, hkind, hcap, rfl⟩

namespace Encodable

variable {json : SerdeJson} {entry : Entry}

theorem frameLines_oneLine (h : Encodable json entry) : ∀ l ∈ frameLines entry, OneLine l := by
  have hid (name : String) (hname : OneLine name.toList) (id : EntryId) :
      OneLine (name.toList ++ id.encode) := hname.append id.encode_oneLine
  obtain ⟨name, hkind⟩ := h.kind
  intro l hl
  simp only [frameLines, List.mem_append, List.mem_singleton, Option.mem_toList, Option.map_eq_some_iff] at hl
  rcases hl with ((((⟨label, hlabel, rfl⟩ | rfl) | rfl) | ⟨by_, -, rfl⟩) | ⟨prior, -, rfl⟩) | rfl
  · exact OneLine.append (any_isEol_eq_false.1 rfl) (h.label label hlabel)
  · rw [hkind]
    exact OneLine.append (any_isEol_eq_false.1 rfl) (Kind.display_known_oneLine name)
  · exact hid "id: " (any_isEol_eq_false.1 rfl) _
  · exact hid "by: " (any_isEol_eq_false.1 rfl) _
  · exact hid "prior: " (any_isEol_eq_false.1 rfl) _
  · exact OneLine.append (any_isEol_eq_false.1 rfl) h.data

end Encodable

theorem lines_flatten (h : ∀ l ∈ ls, OneLine l) :
    Text.lines ((ls.map (· ++ ['\n'])).flatten ++ ['\n']) = ls ++ [[]] := by
  induction ls with
  | nil => rfl
  | cons l ls ih =>
    have hl := h l (by simp)
    rw [List.map_cons, List.flatten_cons, List.append_assoc, List.append_assoc,
      List.singleton_append, Text.lines_line (fun hn => (hl _ hn).1 rfl) (fun hr => (hl _ hr).2 rfl),
      ih fun l' hl' => h l' (by simp [hl'])]
    rfl

theorem frameLines_ne_nil (hl : l ∈ frameLines entry) : l ≠ [] := by
  rintro rfl
  simp [frameLines] at hl

section ParseLine

variable {fields : Fields}

private theorem parseLine_label (h : fields.label = none) (label : String) :
    parseLine (": ".toList ++ label.toList) fields = .ok { fields with label := some label } := by
  simp [parseLine, h, Text.stripOne]

private theorem parseLine_event (h : Kind.fromStr value = .ok kind) :
    parseLine ("event: ".toList ++ value) fields = .ok { fields with kind := some kind } := by
  simp [parseLine, Text.splitOnce, Text.stripOne, h]

private theorem parseLine_id (id : EntryId) :
    parseLine ("id: ".toList ++ id.encode) fields = .ok { fields with id := some id } := by
  simp [parseLine, Text.splitOnce, Text.stripOne, Ulid.fromStr_encode]

private theorem parseLine_by (id : EntryId) :
    parseLine ("by: ".toList ++ id.encode) fields = .ok { fields with by_ := some id } := by
  simp [parseLine, Text.splitOnce, Text.stripOne, Ulid.fromStr_encode]

private theorem parseLine_prior (id : EntryId) :
    parseLine ("prior: ".toList ++ id.encode) fields = .ok { fields with prior := some id } := by
  simp [parseLine, Text.splitOnce, Text.stripOne, Ulid.fromStr_encode]

private theorem parseLine_data (h : fields.data = none) (data : String) :
    parseLine ("data: ".toList ++ data.toList) fields = .ok { fields with data := some data } := by
  simp [parseLine, Text.splitOnce, Text.stripOne, h]

end ParseLine

private theorem parseLines_one (pre : String) (hpre : pre.toList ≠ [])
    (h : parseLine (pre.toList ++ value) fields = .ok fields') :
    parseLines ([pre.toList ++ value] ++ rest) fields = parseLines rest fields' := by
  rw [List.singleton_append, parseLines, if_neg (by simp [hpre]), h]

private theorem parseLines_opt (pre : String) (hpre : pre.toList ≠ []) {opt : Option α}
    {value : α → List Char} (fields' : Fields)
    (hsome : ∀ x, opt = some x → parseLine (pre.toList ++ value x) fields = .ok fields')
    (hnone : opt = none → fields' = fields) :
    parseLines ((opt.map fun x => pre.toList ++ value x).toList ++ rest) fields =
      parseLines rest fields' := by
  cases opt with
  | none => rw [hnone rfl]; rfl
  | some x => exact parseLines_one pre hpre (hsome x rfl)

/-- The lines of a frame fill in exactly the entry's fields. -/
theorem parseLines_frameLines {json : SerdeJson} (h : Encodable json entry) :
    parseLines (frameLines entry ++ [[]]) {} = .ok {
      id := some entry.id, kind := some entry.kind, by_ := entry.by_, prior := entry.prior
      label := entry.label, data := some entry.data } := by
  obtain ⟨name, hkind⟩ := h.kind
  have hparse : Kind.fromStr entry.kind.display.toList = .ok entry.kind := by
    rw [hkind, Kind.fromStr_display_known]
  simp only [frameLines, List.append_assoc]
  rw [parseLines_opt ": " (by decide) { label := entry.label }
      (fun label hl => by rw [hl]; exact parseLine_label rfl label) (fun hn => by rw [hn]),
    parseLines_one "event: " (by decide) (parseLine_event hparse),
    parseLines_one "id: " (by decide) (parseLine_id entry.id),
    parseLines_opt "by: " (by decide) {
      label := entry.label, kind := some entry.kind, id := some entry.id, by_ := entry.by_ }
      (fun by_ hb => by rw [hb]; exact parseLine_by by_) (fun hn => by rw [hn]),
    parseLines_opt "prior: " (by decide) {
      label := entry.label, kind := some entry.kind, id := some entry.id, by_ := entry.by_
      prior := entry.prior }
      (fun prior hp => by rw [hp]; exact parseLine_prior prior) (fun hn => by rw [hn]),
    parseLines_one "data: " (by decide) (parseLine_data rfl entry.data)]
  rfl

/-- `parse_frame` reads back the entry a frame was written for. -/
theorem parseFrame_frameBytes {json : SerdeJson} (h : Encodable json entry) :
    parseFrame json (frameBytes entry) = .ok entry := by
  have htext : frameBytes entry = Text.bytes (String.ofList (frameText entry)) := by
    rw [Text.bytes_ofList, frameBytes]
  obtain ⟨name, hkind⟩ := h.kind
  have hknown : entry.kind.isKnown = true := Kind.isKnown_iff.2 h.kind
  rw [parseFrame, htext, Text.fromUtf8_bytes]
  simp only [String.toList_ofList, frameText, lines_flatten h.frameLines_oneLine,
    parseLines_frameLines h, Fields.finish, h.dataJson, hknown]
  rw [if_neg (by simpa using h.dataLen)]
  rfl

/-- Every frame that `encode` writes is exactly one complete block. -/
theorem frameBytes_isFrame {json : SerdeJson} (h : Encodable json entry) :
    framing.IsFrame (frameBytes entry) := by
  have heol : String.utf8EncodeChar '\n' = [newline] := rfl
  have hbytes : frameBytes entry =
      (((frameLines entry).map (·.flatMap String.utf8EncodeChar)).map (· ++ [newline])).flatten ++
        ([] ++ [newline]) := by
    rw [frameBytes, frameText, List.flatMap_append]
    simp only [← List.flatMap_def, List.flatMap_assoc, List.flatMap_append, List.flatMap_map,
      List.flatMap_singleton, heol, List.nil_append]
  rw [hbytes]
  refine Framing.lines_isFrame (fun l hl => ?_) List.not_mem_nil rfl
  obtain ⟨line, hline, rfl⟩ := List.mem_map.1 hl
  have hone := h.frameLines_oneLine line hline
  refine ⟨fun hmem => (hone _ (Text.mem_of_mem_utf8 (c := '\n') (by decide) hmem)).1 rfl, ?_⟩
  cases hblank : isBlank (line.flatMap String.utf8EncodeChar ++ [newline]) with
  | false => rfl
  | true =>
    exfalso
    simp only [isBlank, Bool.or_eq_true, decide_eq_true_eq] at hblank
    rcases hblank with hnil | hcr
    · have hnil : line.flatMap String.utf8EncodeChar = [] := by simpa using hnil
      obtain ⟨c, cs, rfl⟩ := List.exists_cons_of_ne_nil (frameLines_ne_nil hline)
      exact String.utf8EncodeChar_ne_nil (List.append_eq_nil_iff.1 hnil).1
    · have hcr : line.flatMap String.utf8EncodeChar = [carriageReturn] :=
        List.append_cancel_right (show _ ++ [newline] = [carriageReturn] ++ [newline] from hcr)
      exact (hone _ (Text.mem_of_mem_utf8 (c := '\r') (by decide) (by rw [hcr]; decide))).2 rfl

end OhMyPi.Sse
