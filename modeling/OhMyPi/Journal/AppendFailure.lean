import OhMyPi.Journal.Chain
import OhMyPi.Journal.Recovery

/-! Appends whose durable write fails. `append` does not undo a partial write: the writer keeps
appending behind whatever reached the file, and an entry whose sync failed is on file without being
counted. The file stays decodable exactly as long as no append starts behind a torn frame or
behind a genesis the writer does not know about. -/

namespace OhMyPi

open Sse

/-- One call of `append` together with what happens around it. -/
structure Attempt where
  tick : Tick
  draft : EntryDraft
  outcome : WriteOutcome

namespace Journal

variable (json : SerdeJson)

/-- Performs the attempts in turn; returns the entries whose append succeeded. -/
def run (j : Journal) : List Attempt → List Entry × Journal
  | [] => ([], j)
  | a :: attempts =>
    match j.append json a.tick a.outcome a.draft with
    | (.ok e, j') => (e :: (j'.run attempts).1, (j'.run attempts).2)
    | (.error _, j') => j'.run attempts

/-- The attempt gets past every check and puts at least one byte into the file. -/
def Writes (j : Journal) (a : Attempt) : Prop :=
  validateDraft json a.draft j.entryCount j.ids = .ok () ∧
  (∃ id generator encoded, j.generator.generate a.tick = .ok (id, generator) ∧
    encode json (a.draft.toEntry id) [] = .ok encoded) ∧
  a.outcome ≠ .writeFails 0

/-- The file ends at a commit mark, and it is empty as long as no append has succeeded. -/
def Clean (j : Journal) : Prop :=
  (framing.split j.file).2 = [] ∧ (j.entryCount = 0 → j.file = [])

/-- Every attempt that writes finds the file clean. -/
def CleanRun (j : Journal) : List Attempt → Prop
  | [] => True
  | a :: attempts =>
    (j.Writes json a → j.Clean) ∧
      CleanRun (j.append json a.tick a.outcome a.draft).2 attempts

end Journal

/-- Every genesis among the drafts declares a supported format version, or none. -/
def SupportedDrafts (json : SerdeJson) (attempts : List Attempt) : Prop :=
  ∀ a ∈ attempts, isGenesis a.draft.kind = true →
    ∀ found ∈ json.headerVersion a.draft.data, found ≤ genesisVersion

/-- The file of `j` reopens, however it is buffered, to a valid history whose live chain starts at
the genesis and which holds every entry of `acked`. -/
def Journal.Contained (json : SerdeJson) (j : Journal) (acked : List Entry) : Prop :=
  ∀ reader : Reader, reader.bytes = j.file →
    ∃ j' es, Journal.open json reader = .ok (j', es) ∧ acked.Sublist es ∧
      validateHistory json es = .ok () ∧ (es ≠ [] → (chainIndices es).head? = some 0)

variable {json : SerdeJson} {j : Journal}

theorem Journal.Inv.contained (h : j.Inv json es acked tail) (hgen : GenesisSupported json es) :
    j.Contained json acked := by
  intro reader hreader
  obtain ⟨j', hopen, -, -⟩ :=
    open_frames h.writable h.history h.torn h.tailLen (hreader.trans h.file) hgen
  exact ⟨j', es, hopen, h.sublist, h.history, chainIndices_head h.history⟩

theorem frames_eq_nil (hw : ∀ e ∈ es, Writable json e) (h : frames es = []) : es = [] := by
  cases es with
  | nil => rfl
  | cons e es =>
    have hframe := frameBytes_isFrame (hw e (by simp)).toEncodable
    rw [show e :: es = [e] ++ es from rfl, frames_append, frames_singleton] at h
    exact absurd (List.append_eq_nil_iff.1 h).1 hframe.ne_nil

/-- A clean file has no torn tail, and an entry in it only behind an acknowledged one. -/
theorem Journal.Inv.clean_iff (h : j.Inv json es acked tail) :
    j.Clean ↔ tail = [] ∧ (acked = [] → es = []) := by
  have hframes : ∀ f ∈ es.map frameBytes, framing.IsFrame f := by
    intro f hf
    obtain ⟨e, he, rfl⟩ := List.mem_map.1 hf
    exact frameBytes_isFrame (h.writable e he).toEncodable
  have hsplit : (framing.split j.file).2 = tail := by
    rw [h.file, frames, Framing.split_append hframes, Framing.split_of_none h.torn]
  rw [Clean, hsplit, h.count, List.length_eq_zero_iff, h.file]
  refine and_congr_right fun htail => imp_congr_right fun _ => ?_
  rw [htail, List.append_nil]
  exact ⟨frames_eq_nil h.writable, fun hes => hes ▸ rfl⟩

theorem GenesisSupported.concat (h : GenesisSupported json es)
    (hfirst : es = [] → ∀ found ∈ json.headerVersion e.data, found ≤ genesisVersion) :
    GenesisSupported json (es ++ [e]) := by
  cases es with
  | nil => simpa [GenesisSupported] using hfirst rfl
  | cons genesis es => exact h

/-- One attempt that finds the file clean if it writes keeps the file in shape. The committed
entries grow by at most the attempted one, which is acknowledged on success. -/
theorem Journal.Inv.attempt (h : j.Inv json es acked tail) (hsup : GenesisSupported json es)
    (a : Attempt) (hclean : j.Writes json a → j.Clean)
    (hdraft : isGenesis a.draft.kind = true →
      ∀ found ∈ json.headerVersion a.draft.data, found ≤ genesisVersion) :
    ∃ es' tail', GenesisSupported json es' ∧
      (j.append json a.tick a.outcome a.draft).2.Inv json es'
        (acked ++ (j.append json a.tick a.outcome a.draft).1.toOption.toList) tail' := by
  rcases append_cases j a.tick a.outcome a.draft with
    ⟨err, gen, heq, hgen⟩ | ⟨id, gen, hv, hgen, hw, heq⟩
  · rw [heq]
    exact ⟨es, tail, hsup, by simpa [Except.toOption] using h.generator hgen⟩
  by_cases hzero : a.outcome = .writeFails 0
  · rw [heq, hzero]
    exact ⟨es, tail, hsup, by simpa [written, Except.toOption] using h.generator (.inr ⟨id, hgen⟩)⟩
  have hwrites : j.Writes json a :=
    ⟨hv, ⟨id, gen, _, hgen, encode_eq_ok.2 ⟨hw.toEncodable, hw.frameLen, rfl⟩⟩, hzero⟩
  obtain ⟨rfl, hfirst⟩ := h.clean_iff.1 (hclean hwrites)
  have hsup' : GenesisSupported json (es ++ [a.draft.toEntry id]) := by
    -- A first entry is the genesis, so its declared version is a supported one.
    refine hsup.concat fun hnil => hdraft ?_
    have hvalid := h.history_concat hfirst hv hgen
    rw [hnil, validateHistory_concat, validateEntry, validateFields_eq_ok] at hvalid
    exact hvalid.2.1.genesis.1 rfl
  rw [heq]
  cases houtcome : a.outcome with
  | ok => exact ⟨_, [], hsup', h.appended hfirst hv hgen hw⟩
  | syncFails =>
    exact ⟨_, [], hsup', by simpa [written, Except.toOption] using h.unacked hfirst hv hgen hw⟩
  | writeFails n =>
    by_cases hn : n < (frameBytes (a.draft.toEntry id)).length
    · exact ⟨es, _, hsup, by simpa [written, Except.toOption] using h.torn_write hgen hw hn⟩
    · refine ⟨_, [], hsup', ?_⟩
      simpa [written, Except.toOption, List.take_of_length_le (Nat.le_of_not_lt hn)] using
        h.unacked hfirst hv hgen hw

/-- A whole run of attempts keeps the file in shape. -/
theorem Journal.Inv.run (h : j.Inv json es acked tail) (hsup : GenesisSupported json es)
    (hclean : j.CleanRun json attempts) (hdrafts : SupportedDrafts json attempts) :
    ∃ es' tail', GenesisSupported json es' ∧
      (j.run json attempts).2.Inv json es' (acked ++ (j.run json attempts).1) tail' := by
  induction attempts generalizing j es acked tail with
  | nil => exact ⟨es, tail, hsup, by simpa [Journal.run] using h⟩
  | cons a attempts ih =>
    obtain ⟨hwrites, hrest⟩ := hclean
    obtain ⟨es', tail', hsup', h'⟩ := h.attempt hsup a hwrites (hdrafts a (by simp))
    have ih := ih h' hsup' hrest fun b hb => hdrafts b (by simp [hb])
    rw [Journal.run]
    cases hstep : j.append json a.tick a.outcome a.draft with
    | mk result j' =>
      rw [hstep] at ih
      cases result with
      | error e => simpa [Except.toOption] using ih
      | ok e => simpa [Except.toOption] using ih

/-- **Append failures are contained while the writer does not write behind them.** Take any journal
and any sequence of appends on it in which writes and syncs fail arbitrarily. If no append that
writes starts behind a torn frame, or behind an unacknowledged genesis, then the file reopens to a
valid history with every acknowledged entry in it. -/
theorem append_failure_contained (h : Journal.History json j es) (hsup : GenesisSupported json es)
    (attempts : List Attempt) (hclean : j.CleanRun json attempts)
    (hdrafts : SupportedDrafts json attempts) :
    (j.run json attempts).2.Contained json (es ++ (j.run json attempts).1) := by
  obtain ⟨es', tail', hsup', hinv⟩ := h.inv.run hsup hclean hdrafts
  exact hinv.contained hsup'

/-- A turn start caused by the sample genesis. -/
def sampleTurn : EntryDraft where
  kind := .known .turnStart
  by_ := some (sampleGenesis "\x7b\"version\":1\x7d").id
  prior := none
  label := none
  data := "\x7b\x7d"

/-- A genesis, then a turn start whose write stops after three bytes. -/
theorem append_failure_contained_sample :
    (Journal.create.run sampleJson
      [⟨sampleTick, genesisDraft "\x7b\"version\":1\x7d", .ok⟩,
        ⟨sampleTick, sampleTurn, .writeFails 3⟩]).2.Contained sampleJson
      [sampleGenesis "\x7b\"version\":1\x7d"] := by
  have hcreate : Journal.create.Inv sampleJson [] [] [] := .create
  have happend : Journal.create.append sampleJson sampleTick .ok
      (genesisDraft "\x7b\"version\":1\x7d") =
        (.ok (sampleGenesis "\x7b\"version\":1\x7d"), _) := rfl
  have hgenesis := (Journal.History.append .create happend).inv
  refine append_failure_contained (.create) (by simp [GenesisSupported]) _
    ⟨fun _ => hcreate.clean_iff.2 ⟨rfl, fun _ => rfl⟩,
      fun _ => hgenesis.clean_iff.2 ⟨rfl, nofun⟩, trivial⟩ ?_
  intro a ha hgen found hfound
  simp only [List.mem_cons, List.not_mem_nil, or_false] at ha
  rcases ha with rfl | rfl
  · have hone : some 1 = some found := hfound
    rw [← Option.some.inj hone]
    decide
  · exact absurd hgen (by decide)

/-- A genesis, a turn start whose write stops after one byte, and the same turn start again. -/
def tornAttempts : List Attempt :=
  [⟨sampleTick, genesisDraft "\x7b\"version\":1\x7d", .ok⟩,
    ⟨sampleTick, sampleTurn, .writeFails 1⟩, ⟨sampleTick, sampleTurn, .ok⟩]

/-- The turn start that the last of `tornAttempts` commits. -/
def sampleTurnEntry : Entry := sampleTurn.toEntry ⟨1700000000000 * 2 ^ 80 + 7, by decide⟩

/-- The torn byte joins the next frame's first line, whose field is then unknown. -/
private theorem parseFrame_torn :
    parseFrame sampleJson ([101] ++ frameBytes sampleTurnEntry) = .error .missingEvent := by
  have htext : [101] ++ frameBytes sampleTurnEntry =
      Text.bytes (String.ofList ('e' :: frameText sampleTurnEntry)) := by
    rw [Text.bytes_ofList, frameBytes]
    rfl
  rw [parseFrame, htext, Text.fromUtf8_bytes]
  simp only [String.toList_ofList]
  decide

/-- Both outer appends succeed, and the file cannot be opened any more. -/
theorem append_behind_torn_write :
    (Journal.create.run sampleJson tornAttempts).1 =
      [sampleGenesis "\x7b\"version\":1\x7d", sampleTurnEntry] ∧
    ∀ reader : Reader, reader.bytes = (Journal.create.run sampleJson tornAttempts).2.file →
      Journal.open sampleJson reader = .error (.frame .missingEvent) := by
  refine ⟨by decide, fun reader hreader => ?_⟩
  have happend : Journal.create.append sampleJson sampleTick .ok
      (genesisDraft "\x7b\"version\":1\x7d") =
        (.ok (sampleGenesis "\x7b\"version\":1\x7d"), _) := rfl
  have hgenesis := (Journal.History.append .create happend).inv.writable _ (List.mem_singleton.2 rfl)
  have hfile : (Journal.create.run sampleJson tornAttempts).2.file =
      frameBytes (sampleGenesis "\x7b\"version\":1\x7d") ++
        ([101] ++ frameBytes sampleTurnEntry) := rfl
  have hfirst := (frameBytes_isFrame hgenesis.toEncodable).next ([101] ++ frameBytes sampleTurnEntry)
  rw [← hfile, ← hreader] at hfirst
  obtain ⟨reader', hblock, hreader'⟩ := readBlock_complete hfirst hgenesis.frameLen
  have hsecond : framing.next reader'.bytes = some ([101] ++ frameBytes sampleTurnEntry, []) := by
    rw [hreader']
    decide +kernel
  obtain ⟨reader'', hblock', -⟩ := readBlock_complete hsecond (by decide)
  have hdecode : decodeFrom sampleJson reader [] 0 = .error (.frame .missingEvent) := by
    rw [decodeFrom_complete hblock (frameBytes_not_blank hgenesis.toEncodable)
      (parseFrame_frameBytes hgenesis.toEncodable),
      decodeFrom_malformed hblock' (by decide) parseFrame_torn]
    rfl
  rw [Journal.open, decodeCommitted, hdecode]
  rfl

end OhMyPi
