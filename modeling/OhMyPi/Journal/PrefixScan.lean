import OhMyPi.Journal.Recovery
import OhMyPi.Journal.Scanner

/-! Reading the beginning of a journal (`Journal::scan_prefix`). A limit that falls inside a frame leaves a
torn tail, which is shorter than a frame and so never too large; the frames before it are those of the whole
file, and a history stays valid when it is cut. -/

namespace OhMyPi

open Sse

/-- The nonempty buffers that are found before a limit is reached. -/
def takeChunks : Nat → List Bytes → List Bytes
  | _, [] => []
  | limit, c :: cs => if limit = 0 then [] else c.take limit :: takeChunks (limit - c.length) cs

theorem takeChunks_ne_nil (h : ∀ c ∈ chunks, c ≠ []) : ∀ c ∈ takeChunks limit chunks, c ≠ [] := by
  induction chunks generalizing limit with
  | nil => exact fun c hc => absurd hc List.not_mem_nil
  | cons d chunks ih =>
    rw [takeChunks]
    split
    · exact fun c hc => absurd hc List.not_mem_nil
    · next hlimit =>
      intro c hc
      rcases List.mem_cons.1 hc with rfl | hc
      · rw [ne_eq, List.take_eq_nil_iff, not_or]
        exact ⟨hlimit, h d List.mem_cons_self⟩
      · exact ih (fun e he => h e (List.mem_cons_of_mem d he)) c hc

theorem flatten_takeChunks (limit : Nat) (chunks : List Bytes) :
    (takeChunks limit chunks).flatten = chunks.flatten.take limit := by
  induction chunks generalizing limit with
  | nil => rw [takeChunks, List.flatten_nil, List.take_nil]
  | cons c chunks ih =>
    rw [takeChunks]
    split
    · next hlimit => rw [hlimit, List.take_zero, List.flatten_nil]
    · rw [List.flatten_cons, List.flatten_cons, List.take_append, ih]

/-- `Read::take` -/
def Sse.Reader.take (reader : Reader) (limit : Nat) : Reader where
  chunks := takeChunks limit reader.chunks
  nonempty := takeChunks_ne_nil reader.nonempty

theorem Sse.Reader.bytes_take (reader : Reader) (limit : Nat) : (reader.take limit).bytes = reader.bytes.take limit :=
  flatten_takeChunks limit reader.chunks

/-- `Journal::scan_prefix`: the committed entries within the first bytes. -/
def scanPrefix (json : SerdeJson) (reader : Reader) (limit : Nat) : Except JournalError (List Entry) :=
  scan json (reader.take limit)

variable {json : SerdeJson}

/-- Cut bytes decode to the first of the frames. -/
theorem decoding_cut (h : (decoding json bytes cleanLen).result = .ok torn) (limit : Nat) :
    (∃ torn', (decoding json (bytes.take limit) cleanLen).result = .ok torn') ∧
      (decoding json (bytes.take limit) cleanLen).frames <+: (decoding json bytes cleanLen).frames := by
  induction hn : bytes.length using Nat.strongRecOn generalizing bytes cleanLen limit with
  | ind n ih =>
    cases hnext : framing.next bytes with
    | none =>
      have hcut : framing.next (bytes.take limit) = none := by
        cases hcut : framing.next (bytes.take limit) with
        | none => rfl
        | some found =>
          have hmore := framing.next_append (f := found.1) (r := found.2) hcut (bytes.drop limit)
          rw [List.take_append_drop, hnext] at hmore
          cases hmore
      rw [decoding_of_none hnext] at h
      have hsize : bytes.length ≤ frameHardCap := by
        by_contra hlarge
        rw [if_neg hlarge] at h
        cases h
      have hfits : (bytes.take limit).length ≤ frameHardCap := (List.length_take_le' ..).trans hsize
      rw [decoding_of_none hcut]
      exact ⟨⟨_, if_pos hfits⟩, List.nil_prefix⟩
    | some found =>
      obtain ⟨block, rest⟩ := found
      have hframe : framing.IsFrame block := Framing.isFrame_of_next hnext
      have hbytes := framing.next_eq hnext
      rw [decoding_of_some hnext] at h ⊢
      split at h
      case isFalse => cases h
      next hsize =>
      rw [if_pos hsize]
      rcases Nat.lt_or_ge limit block.length with hinside | hafter
      · -- the limit cuts this block, what is left of it is torn
        have hcut : framing.next (bytes.take limit) = none := by
          rw [hbytes, List.take_append_of_le_length hinside.le]
          exact hframe.next_take hinside
        have hfits : (bytes.take limit).length ≤ frameHardCap := by
          rw [List.length_take]
          omega
        rw [decoding_of_none hcut]
        exact ⟨⟨_, if_pos hfits⟩, List.nil_prefix⟩
      · have hcut : framing.next (bytes.take limit) = some (block, rest.take (limit - block.length)) := by
          rw [hbytes, List.take_append, List.take_of_length_le hafter]
          exact hframe.next _
        have hlt := Framing.length_lt_of_next hnext
        rw [decoding_of_some hcut, if_pos hsize]
        cases hblank : isBlank block with
        | true =>
          rw [hblank] at h
          exact ih _ (hn ▸ hlt) h _ rfl
        | false =>
          rw [hblank] at h
          cases hparse : parseFrame json block with
          | error source =>
            simp only [hparse] at h
            cases h
          | ok entry =>
            simp only [hparse] at h ⊢
            obtain ⟨hresult, hpre⟩ := ih _ (hn ▸ hlt) h (limit - block.length) rfl
            exact ⟨hresult, (List.prefix_cons_inj _).2 hpre⟩

theorem validateGenesisVersion_of_isPrefix (hpre : es <+: es') (h : validateGenesisVersion json es' = .ok ()) :
    validateGenesisVersion json es = .ok () := by
  cases es with
  | nil => rfl
  | cons e es =>
    obtain ⟨rest, rfl⟩ := hpre
    exact h

theorem decoded_eq_ok {d : Decoding} : d.decoded = .ok decoded ↔
    d.result = .ok decoded.tornLen ∧ d.frames.map (·.entry) = decoded.entries ∧ d.cleanLen = decoded.cleanLen := by
  rw [Decoding.decoded]
  cases d.result with
  | error source =>
    constructor
    · intro h
      cases h
    · rintro ⟨h, -⟩
      cases h
  | ok torn =>
    constructor
    · intro h
      cases h
      exact ⟨rfl, rfl, rfl⟩
    · rintro ⟨hresult, hentries, hclean⟩
      obtain rfl := Except.ok.inj hresult
      rw [hentries, hclean]

theorem decodeCommitted_eq_ok : decodeCommitted json reader = .ok decoded ↔
    (decoding json reader.bytes 0).decoded = .ok decoded ∧ validateHistory json decoded.entries = .ok () ∧
      validateGenesisVersion json decoded.entries = .ok () := by
  rw [decodeCommitted, decodeFrom_eq, readFrames_eq]
  cases (decoding json reader.bytes 0).decoded with
  | error source =>
    constructor
    · intro h
      cases h
    · rintro ⟨h, -⟩
      cases h
  | ok found =>
    simp only [Except.map, Except.ok_bind, List.nil_append, Except.unit_bind_eq_ok]
    constructor
    · rintro ⟨hhistory, hgenesis, hfound⟩
      cases hfound
      exact ⟨rfl, hhistory, hgenesis⟩
    · rintro ⟨hfound, hhistory, hgenesis⟩
      cases hfound
      exact ⟨hhistory, hgenesis, rfl⟩

theorem scan_eq_ok : scan json reader = .ok entries ↔
    (∃ torn, (decoding json reader.bytes 0).result = .ok torn) ∧
      (decoding json reader.bytes 0).frames.map (·.entry) = entries ∧
      validateHistory json entries = .ok () ∧ validateGenesisVersion json entries = .ok () := by
  simp only [scan, Except.map_eq_ok, decodeCommitted_eq_ok, decoded_eq_ok]
  constructor
  · rintro ⟨decoded, ⟨⟨hresult, hentries, -⟩, hhistory, hgenesis⟩, rfl⟩
    exact ⟨⟨_, hresult⟩, hentries, hhistory, hgenesis⟩
  · rintro ⟨⟨torn, hresult⟩, rfl, hhistory, hgenesis⟩
    exact ⟨⟨_, _, torn⟩, ⟨⟨hresult, rfl, rfl⟩, hhistory, hgenesis⟩, rfl⟩

/-- A scan of the first bytes finds the first entries. -/
theorem scan_take (h : scan json reader = .ok entries) (hbytes : reader'.bytes = reader.bytes.take limit) :
    ∃ es, scan json reader' = .ok es ∧ es <+: entries := by
  obtain ⟨⟨torn, hresult⟩, rfl, hhistory, hgenesis⟩ := scan_eq_ok.1 h
  obtain ⟨hcut, hpre⟩ := decoding_cut hresult limit
  have hentries := hpre.map (·.entry)
  rw [← hbytes] at hcut hentries
  exact ⟨_, scan_eq_ok.2 ⟨hcut, rfl, validateHistory_of_isPrefix hentries hhistory,
    validateGenesisVersion_of_isPrefix hentries hgenesis⟩, hentries⟩

/-- Where the whole file can be read, so can its beginning up to any limit, however each reading is buffered;
a greater limit finds the same entries and perhaps more of the file's. -/
theorem scanPrefix_monotone {reader short long : Reader} (h : scan json reader = .ok entries)
    (hshort : short.bytes = reader.bytes) (hlong : long.bytes = reader.bytes) (hle : limit ≤ limit') :
    ∃ es es', scanPrefix json short limit = .ok es ∧ scanPrefix json long limit' = .ok es' ∧
      es <+: es' ∧ es' <+: entries := by
  have hcut : (long.take limit').bytes = reader.bytes.take limit' := by rw [Sse.Reader.bytes_take, hlong]
  have hcut' : (short.take limit).bytes = (long.take limit').bytes.take limit := by
    rw [Sse.Reader.bytes_take, hcut, hshort, List.take_take, Nat.min_eq_left hle]
  obtain ⟨es', hes', hpre'⟩ := scan_take h hcut
  obtain ⟨es, hes, hpre⟩ := scan_take hes' hcut'
  exact ⟨es, es', hes, hes', hpre, hpre'⟩

theorem sampleFrame_ne_nil :
    ∀ c ∈ [frameBytes (sampleGenesis "\x7b\"version\":1\x7d")], c ≠ [] := by
  simp [frameBytes, frameText, frameLines]

/-- A journal with its genesis only. -/
def sampleReader : Reader := ⟨[frameBytes (sampleGenesis "\x7b\"version\":1\x7d")], sampleFrame_ne_nil⟩

theorem scanPrefix_monotone_sample :
    scan sampleJson sampleReader = .ok [sampleGenesis "\x7b\"version\":1\x7d"] ∧
      ∃ es es', scanPrefix sampleJson sampleReader 3 = .ok es ∧
        scanPrefix sampleJson sampleReader 1000 = .ok es' ∧
        es <+: es' ∧ es' <+: [sampleGenesis "\x7b\"version\":1\x7d"] := by
  have happend : Journal.create.append sampleJson sampleTick .ok
      (genesisDraft "\x7b\"version\":1\x7d") =
        (.ok (sampleGenesis "\x7b\"version\":1\x7d"), _) := rfl
  have hscan : scan sampleJson sampleReader = .ok [sampleGenesis "\x7b\"version\":1\x7d"] :=
    (Journal.History.append .create happend).inv.scan (List.append_nil _) (validateGenesisVersion_eq_ok.1 rfl)
  exact ⟨hscan, scanPrefix_monotone hscan rfl rfl (by decide)⟩

end OhMyPi
