import OhMyPi.Journal.File

/-! Inversion and composition of the journal operations: what validation accepts, what a file made
of frames decodes to, and everything one `append` can do. -/

namespace OhMyPi

open Sse
open Text (isEol)

variable {json : SerdeJson}

/-! ## Validation -/

/-- The rules of `validate_fields`, as one record. -/
structure FieldsValid (json : SerdeJson) (kind : Kind) (by_ prior : Option EntryId)
    (label : Option String) (data : String) (index : Nat) (ids : List EntryId) : Prop where
  known : kind.isKnown = true
  cause : isGenesis kind = false → by_ ≠ none
  genesis : index = 0 ↔ isGenesis kind = true
  prior : ∀ id ∈ prior, id ∈ ids
  dataLen : strLen data ≤ dataHardCap
  dataLine : data.toList.any isEol = false
  labelLine : label.any (·.toList.any isEol) = false
  dataJson : json.ignoredAny data = true

theorem validatePrior_eq_ok : validatePrior prior ids = .ok () ↔ ∀ id ∈ prior, id ∈ ids := by
  cases prior <;> simp [validatePrior]

theorem validateFields_eq_ok :
    validateFields json kind by_ prior label data index ids = .ok () ↔
      FieldsValid json kind by_ prior label data index ids := by
  simp only [validateFields, Except.ite_error_eq_ok, Except.unit_bind_eq_ok,
    validatePrior_eq_ok, Bool.not_eq_true, Bool.not_eq_false', gt_iff_lt, Nat.not_lt, and_true]
  constructor
  · rintro ⟨hknown, hcause, hfirst, honly, hprior, hlen, hdata, hlabel, hjson⟩
    refine ⟨hknown, ?_, ?_, hprior, hlen, hdata, hlabel, hjson⟩
    · rintro hgen rfl
      simp [hgen] at hcause
    · constructor
      · rintro rfl
        simpa using hfirst
      · intro hgen
        simpa [hgen] using honly
  · intro h
    refine ⟨h.known, ?_, ?_, ?_, h.prior, h.dataLen, h.dataLine, h.labelLine, h.dataJson⟩
    · cases hgen : isGenesis kind with
      | true => rfl
      | false => simpa [← Option.ne_none_iff_isSome] using h.cause hgen
    · cases hgen : isGenesis kind with
      | true => simp
      | false => simpa [hgen] using h.genesis
    · cases hgen : isGenesis kind with
      | true => simpa [hgen] using h.genesis
      | false => simp

/-- Validity depends on the position only through being first, and is kept by more identities. -/
theorem FieldsValid.mono {prior : Option EntryId} (h : FieldsValid json kind by_ prior label data index ids)
    (hindex : index = 0 ↔ index' = 0) (hids : ids ⊆ ids') :
    FieldsValid json kind by_ prior label data index' ids' :=
  { h with genesis := hindex.symm.trans h.genesis, prior := fun id hid => hids (h.prior id hid) }

theorem validateFrom_append :
    validateFrom json index ids (es ++ es') = .ok () ↔
      validateFrom json index ids es = .ok () ∧
        validateFrom json (index + es.length) (ids ++ es.map (·.id)) es' = .ok () := by
  induction es generalizing index ids with
  | nil => simp [validateFrom]
  | cons e es ih =>
    simp only [List.cons_append, validateFrom, Except.unit_bind_eq_ok, Except.ite_error_eq_ok, ih,
      List.length_cons, List.map_cons, and_assoc]
    rw [show index + 1 + es.length = index + (es.length + 1) by omega,
      show ids ++ [e.id] ++ es.map (·.id) = ids ++ e.id :: es.map (·.id) by simp]

theorem validateHistory_concat :
    validateHistory json (es ++ [e]) = .ok () ↔
      validateHistory json es = .ok () ∧
        validateEntry json e es.length (es.map (·.id)) = .ok () ∧ e.id ∉ es.map (·.id) := by
  simp [validateHistory, validateFrom_append, validateFrom, Except.unit_bind_eq_ok]

theorem validateHistory_of_isPrefix (hpre : es <+: es') (h : validateHistory json es' = .ok ()) :
    validateHistory json es = .ok () := by
  obtain ⟨rest, rfl⟩ := hpre
  exact (validateFrom_append.1 h).1

/-! ## Files made of frames -/

/-- The bytes of a sequence of committed entries. -/
def frames (es : List Entry) : Bytes := (es.map frameBytes).flatten

@[simp] theorem frames_nil : frames [] = [] := rfl

@[simp] theorem frames_append : frames (es ++ es') = frames es ++ frames es' := by
  simp [frames]

@[simp] theorem frames_singleton : frames [e] = frameBytes e := by simp [frames]

/-- An entry that `encode` writes. -/
structure Writable (json : SerdeJson) (e : Entry) : Prop extends Encodable json e where
  frameLen : (frameBytes e).length ≤ frameHardCap

theorem frameBytes_not_blank (h : Encodable json e) : isBlank (frameBytes e) = false := by
  cases hblank : isBlank (frameBytes e) with
  | false => rfl
  | true =>
    have hparse := parseFrame_frameBytes h
    simp only [isBlank, Bool.or_eq_true, decide_eq_true_eq] at hblank
    -- A blank block has no data field.
    rcases hblank with hb | hb <;> rw [hb] at hparse <;> cases hparse

theorem readBlock_complete {r : Reader} (h : framing.next r.bytes = some (block, rest))
    (hlen : block.length ≤ frameHardCap) :
    ∃ r', readBlock r = (.complete, block, r') ∧ r'.bytes = rest := by
  have hagrees := readBlock_agrees r
  simp only [Block.Agrees, nextBlock, h, if_pos hlen] at hagrees
  obtain ⟨hkind, hrest⟩ := hagrees
  obtain ⟨hblock, hbytes⟩ := hrest (by rw [hkind]; decide)
  exact ⟨(readBlock r).2.2, by rw [← hkind, ← hblock], hbytes⟩

theorem readBlock_torn {r : Reader} (h : framing.next r.bytes = none)
    (hlen : r.bytes.length ≤ frameHardCap) :
    ∃ r', readBlock r = (if r.bytes = [] then .end_ else .torn, r.bytes, r') := by
  have hagrees := readBlock_agrees r
  simp only [Block.Agrees, nextBlock, h, if_pos hlen] at hagrees
  obtain ⟨hkind, hrest⟩ := hagrees
  obtain ⟨hblock, -⟩ := hrest (by rw [hkind]; split <;> decide)
  exact ⟨(readBlock r).2.2, by rw [← hkind, ← hblock]⟩

theorem decodeFrom_complete (h : readBlock reader = (.complete, block, reader'))
    (hblank : isBlank block = false) (hparse : parseFrame json block = .ok e) :
    decodeFrom json reader acc clean =
      decodeFrom json reader' (acc ++ [e]) (clean + block.length) := by
  rw [decodeFrom]
  split <;> simp_all

theorem decodeFrom_malformed (h : readBlock reader = (.complete, block, reader'))
    (hblank : isBlank block = false) (hparse : parseFrame json block = .error source) :
    decodeFrom json reader acc clean = .error (mapSseReadError source) := by
  rw [decodeFrom]
  split <;> simp_all

theorem decodeFrom_torn (h : framing.next reader.bytes = none)
    (hlen : reader.bytes.length ≤ frameHardCap) :
    decodeFrom json reader acc clean =
      .ok { entries := acc, cleanLen := clean, tornLen := reader.bytes.length } := by
  obtain ⟨r', hr'⟩ := readBlock_torn h hlen
  rw [decodeFrom]
  split <;> by_cases hnil : reader.bytes = [] <;> simp_all

/-- A file of frames followed by a torn rest decodes to the entries of those frames, whatever the
buffering. -/
theorem decodeFrom_frames (hes : ∀ e ∈ es, Writable json e) (hrest : framing.next rest = none)
    (hlen : rest.length ≤ frameHardCap) (hreader : reader.bytes = frames es ++ rest) :
    decodeFrom json reader acc clean = .ok {
      entries := acc ++ es, cleanLen := clean + (frames es).length, tornLen := rest.length } := by
  induction es generalizing reader acc clean with
  | nil =>
    replace hreader : reader.bytes = rest := hreader
    rw [decodeFrom_torn (hreader ▸ hrest) (hreader ▸ hlen), hreader]
    simp
  | cons e es ih =>
    have he := hes e (by simp)
    have hbytes : reader.bytes = frameBytes e ++ (frames es ++ rest) := by
      rw [hreader]
      simp [frames]
    have hnext := (frameBytes_isFrame he.toEncodable).next (frames es ++ rest)
    rw [← hbytes] at hnext
    obtain ⟨r', hblock, hr'⟩ := readBlock_complete hnext he.frameLen
    rw [decodeFrom_complete hblock (frameBytes_not_blank he.toEncodable)
      (parseFrame_frameBytes he.toEncodable), ih (fun e' he' => hes e' (by simp [he'])) hr']
    simp [frames, Nat.add_assoc]

/-! ## Appending -/

namespace Journal

/-- What an `append` that reaches its durable write does to the writer. -/
def written (j : Journal) (outcome : WriteOutcome) (generator : MonotonicUlid) (e : Entry) :
    Except JournalError Entry × Journal :=
  match outcome with
  | .writeFails n => (.error .io, { j with generator, file := j.file ++ (frameBytes e).take n })
  | .syncFails => (.error .io, { j with generator, file := j.file ++ frameBytes e })
  | .ok => (.ok e, { j with generator, file := j.file ++ frameBytes e, ids := j.ids ++ [e.id],
                            entryCount := j.entryCount + 1 })

/-- Every `append` either is refused before it writes, with at most an identity used up, or
reaches the durable write of one valid, writable entry with a fresh identity. -/
theorem append_cases (j : Journal) (tick : Tick) (outcome : WriteOutcome) (draft : EntryDraft) :
    (∃ e generator, j.append json tick outcome draft = (.error e, { j with generator }) ∧
      (generator = j.generator ∨ ∃ id, j.generator.generate tick = .ok (id, generator))) ∨
    (∃ id generator, validateDraft json draft j.entryCount j.ids = .ok () ∧
      j.generator.generate tick = .ok (id, generator) ∧ Writable json (draft.toEntry id) ∧
      j.append json tick outcome draft = j.written outcome generator (draft.toEntry id)) := by
  cases hvalid : validateDraft json draft j.entryCount j.ids with
  | error e => exact .inl ⟨e, j.generator, by simp [append, hvalid], .inl rfl⟩
  | ok =>
    cases hgen : j.generator.generate tick with
    | error e => exact .inl ⟨.ulid e, j.generator, by simp [append, hvalid, hgen], .inl rfl⟩
    | ok p =>
      obtain ⟨id, generator⟩ := p
      cases henc : encode json (draft.toEntry id) [] with
      | error e =>
        exact .inl ⟨mapSseWriteError e, generator, by simp [append, hvalid, hgen, henc],
          .inr ⟨id, rfl⟩⟩
      | ok encoded =>
        obtain ⟨hencodable, hlen, rfl⟩ := encode_eq_ok.1 henc
        refine .inr ⟨id, generator, rfl, rfl, ⟨hencodable, hlen⟩, ?_⟩
        cases outcome <;> simp [append, written, hvalid, hgen, henc]

end Journal

end OhMyPi
