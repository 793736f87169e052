import OhMyPi.Journal.FileLemmas

/-! Crash recovery. The file of a journal is at all times the frames of its committed entries,
followed by at most a torn rest of one frame, and the writer's bookkeeping agrees with the entries
whose append was acknowledged. Reopening a file cut at any byte restores that shape with the
frames that fit, so later appends continue the surviving history. -/

namespace OhMyPi

open Sse

variable {json : SerdeJson} {id : EntryId}

/-- The writer `j` over a file that holds the frames of `entries` and then `tail`, when the
appends of `acked` are the ones that returned successfully. -/
structure Journal.Inv (json : SerdeJson) (j : Journal) (entries acked : List Entry)
    (tail : Bytes) : Prop where
  file : j.file = frames entries ++ tail
  torn : framing.next tail = none
  tailLen : tail.length ≤ frameHardCap
  writable : ∀ e ∈ entries, Writable json e
  history : validateHistory json entries = .ok ()
  sublist : acked.Sublist entries
  ids : j.ids = acked.map (·.id)
  count : j.entryCount = acked.length
  bounds : j.generator.Bounds (entries.map (·.id))

theorem MonotonicUlid.Bounds.mono {gen : MonotonicUlid} (h : gen.Bounds ids)
    (hgen : gen' = gen ∨ ∃ id, gen.generate tick = .ok (id, gen')) : gen'.Bounds ids := by
  rcases hgen with rfl | ⟨id, hgen⟩
  · exact h
  · exact fun i hi => (h.generate hgen).2 i (by simp [hi])

namespace Journal.Inv

variable {j : Journal}

theorem create : Journal.create.Inv json [] [] [] where
  file := rfl
  torn := framing.next_nil
  tailLen := Nat.zero_le _
  writable := by simp
  history := rfl
  sublist := List.Sublist.refl _
  ids := rfl
  count := rfl
  bounds := by intro; simp

/-- A generator that moved on leaves everything else in place. -/
theorem generator (h : j.Inv json entries acked tail)
    (hgen : gen = j.generator ∨ ∃ id, j.generator.generate tick = .ok (id, gen)) :
    ({ j with generator := gen } : Journal).Inv json entries acked tail :=
  { h with bounds := h.bounds.mono hgen }

/-- The history stays valid under a draft accepted by the acknowledged bookkeeping. -/
theorem history_concat (h : j.Inv json entries acked tail) (hfirst : acked = [] → entries = [])
    (hvalid : validateDraft json draft j.entryCount j.ids = .ok ())
    (hgen : j.generator.generate tick = .ok (id, gen)) :
    validateHistory json (entries ++ [draft.toEntry id]) = .ok () := by
  refine validateHistory_concat.2 ⟨h.history, ?_, (h.bounds.generate hgen).1⟩
  rw [validateDraft, validateFields_eq_ok, h.count, h.ids] at hvalid
  rw [validateEntry, validateFields_eq_ok]
  refine hvalid.mono ?_ (h.sublist.map _).subset
  rw [List.length_eq_zero_iff, List.length_eq_zero_iff]
  exact ⟨hfirst, fun hnil => List.sublist_nil.1 (hnil ▸ h.sublist)⟩

/-- A complete write that is not acknowledged still commits its entry. -/
theorem unacked (h : j.Inv json entries acked []) (hfirst : acked = [] → entries = [])
    (hvalid : validateDraft json draft j.entryCount j.ids = .ok ())
    (hgen : j.generator.generate tick = .ok (id, gen))
    (hwritable : Writable json (draft.toEntry id)) :
    ({ j with generator := gen, file := j.file ++ frameBytes (draft.toEntry id) } : Journal).Inv
      json (entries ++ [draft.toEntry id]) acked [] where
  file := by simp [h.file]
  torn := h.torn
  tailLen := h.tailLen
  writable e he := by
    rcases List.mem_append.1 he with he | he
    · exact h.writable e he
    · exact List.mem_singleton.1 he ▸ hwritable
  history := h.history_concat hfirst hvalid hgen
  sublist := h.sublist.trans (List.sublist_append_left ..)
  ids := h.ids
  count := h.count
  bounds := by simpa using (h.bounds.generate hgen).2

/-- One acknowledged append. -/
theorem appended (h : j.Inv json entries acked []) (hfirst : acked = [] → entries = [])
    (hvalid : validateDraft json draft j.entryCount j.ids = .ok ())
    (hgen : j.generator.generate tick = .ok (id, gen))
    (hwritable : Writable json (draft.toEntry id)) :
    (j.written .ok gen (draft.toEntry id)).2.Inv json
      (entries ++ [draft.toEntry id]) (acked ++ [draft.toEntry id]) [] where
  __ := h.unacked hfirst hvalid hgen hwritable
  sublist := h.sublist.append (List.Sublist.refl _)
  ids := by simp [written, h.ids]
  count := by simp [written, h.count]

/-- A write that stops inside the frame leaves a torn tail. -/
theorem torn_write (h : j.Inv json entries acked [])
    (hgen : j.generator.generate tick = .ok (id, gen)) (hwritable : Writable json e)
    (hn : n < (frameBytes e).length) :
    ({ j with generator := gen, file := j.file ++ (frameBytes e).take n } : Journal).Inv
      json entries acked ((frameBytes e).take n) where
  __ := h.generator (.inr ⟨id, hgen⟩)
  file := by simp [h.file]
  torn := (frameBytes_isFrame hwritable.toEncodable).next_take hn
  tailLen := (List.length_take_le' ..).trans hwritable.frameLen

end Journal.Inv

/-! ## Reopening -/

theorem raiseFloor_bounds (h : MonotonicUlid.Bounds ⟨floor⟩ seen) (ids : List EntryId) :
    MonotonicUlid.Bounds ⟨ids.foldl Journal.raiseFloor floor⟩ (seen ++ ids) := by
  induction ids generalizing floor seen with
  | nil => simpa using h
  | cons id ids ih =>
    have hstep : MonotonicUlid.Bounds ⟨Journal.raiseFloor floor id⟩ (seen ++ [id]) := by
      intro i hi
      cases floor with
      | none =>
        rcases List.mem_append.1 hi with hi | hi
        · obtain ⟨_, hnone, _⟩ := h i hi
          cases hnone
        · exact ⟨id, rfl, by rw [List.mem_singleton.1 hi]⟩
      | some prior =>
        refine ⟨_, rfl, ?_⟩
        rcases List.mem_append.1 hi with hi | hi
        · obtain ⟨_, ⟨⟩, hle⟩ := h i hi
          replace hle : i.val ≤ prior.val := hle
          split <;> omega
        · rw [List.mem_singleton.1 hi]
          split <;> omega
    simpa using ih hstep

/-- The genesis declares no format newer than this build's, or none at all. -/
def GenesisSupported (json : SerdeJson) (es : List Entry) : Prop :=
  ∀ genesis ∈ es.head?, ∀ found ∈ json.headerVersion genesis.data, found ≤ genesisVersion

theorem validateGenesisVersion_eq_ok :
    validateGenesisVersion json es = .ok () ↔ GenesisSupported json es := by
  unfold validateGenesisVersion GenesisSupported
  cases es with
  | nil => simp
  | cons genesis es =>
    cases hv : json.headerVersion genesis.data with
    | none => simp [hv]
    | some found => simp [hv]

theorem validateGenesisVersion_error (h : ¬ GenesisSupported json es) :
    ∃ found, validateGenesisVersion json es = .error (.newerGenesisVersion found genesisVersion) := by
  rw [← validateGenesisVersion_eq_ok] at h
  unfold validateGenesisVersion at h ⊢
  split at h
  · next found _ =>
    split at h
    · next hgt => exact ⟨found, by simp_all⟩
    · exact absurd rfl h
  · exact absurd rfl h

section Reopen

variable {reader : Reader} (hw : ∀ e ∈ es, Writable json e) (hh : validateHistory json es = .ok ())
  (hrest : framing.next rest = none) (hlen : rest.length ≤ frameHardCap)
  (hreader : reader.bytes = frames es ++ rest)

include hw hh hrest hlen hreader

theorem decodeCommitted_frames : decodeCommitted json reader =
    (validateGenesisVersion json es).map fun _ =>
      { entries := es, cleanLen := (frames es).length, tornLen := rest.length } := by
  rw [decodeCommitted, decodeFrom_frames hw hrest hlen hreader]
  simp only [bind, Except.bind, List.nil_append, hh, Nat.zero_add]
  cases validateGenesisVersion json es <;> rfl

theorem scan_frames : scan json reader = (validateGenesisVersion json es).map fun _ => es := by
  rw [scan, decodeCommitted_frames hw hh hrest hlen hreader]
  cases validateGenesisVersion json es <;> rfl

theorem open_refused (hgen : validateGenesisVersion json es = .error e) :
    Journal.open json reader = .error e := by
  rw [Journal.open, decodeCommitted_frames hw hh hrest hlen hreader, hgen]
  rfl

/-- Opening a file of frames with a torn rest restores the writer's invariant without it. -/
theorem open_frames (hgen : GenesisSupported json es) :
    ∃ j, Journal.open json reader = .ok (j, es) ∧ j.recoveredTailBytes = rest.length ∧
      j.Inv json es es [] := by
  rw [Journal.open, decodeCommitted_frames hw hh hrest hlen hreader,
    validateGenesisVersion_eq_ok.2 hgen]
  refine ⟨_, rfl, rfl, ?_, framing.next_nil, Nat.zero_le _, hw, hh, .refl _, rfl, rfl, ?_⟩
  · simp only [hreader]
    split
    · simp
    · next h => simp [List.length_eq_zero_iff.1 (not_not.1 h)]
  · have hnone : MonotonicUlid.Bounds ⟨none⟩ [] := by intro; simp
    exact raiseFloor_bounds hnone _

end Reopen

/-! ## Cutting the file -/

/-- The entries whose complete frames end at or before byte `k`. -/
def committedBefore : List Entry → Nat → List Entry
  | [], _ => []
  | e :: es, k =>
    if (frameBytes e).length ≤ k then e :: committedBefore es (k - (frameBytes e).length) else []

theorem committedBefore_isPrefix : (es : List Entry) → (k : Nat) → committedBefore es k <+: es
  | [], _ => List.prefix_rfl
  | e :: es, k => by
    rw [committedBefore]
    split
    · exact List.prefix_cons_inj e |>.2 (committedBefore_isPrefix es _)
    · exact List.nil_prefix

theorem fit_frames (es : List Entry) (k : Nat) :
    Framing.fit (es.map frameBytes) k = (committedBefore es k).map frameBytes := by
  induction es generalizing k with
  | nil => rfl
  | cons e es ih =>
    rw [List.map_cons, Framing.fit, committedBefore]
    split
    · rw [ih, List.map_cons]
    · rfl

/-- A cut file is the frames that fit followed by a torn rest no longer than one frame. -/
theorem frames_take (hw : ∀ e ∈ es, Writable json e) (k : Nat) :
    ∃ rest, (frames es).take k = frames (committedBefore es k) ++ rest ∧
      framing.next rest = none ∧ rest.length ≤ frameHardCap := by
  have hframes : ∀ f ∈ es.map frameBytes, framing.IsFrame f ∧ f.length ≤ frameHardCap := by
    intro f hf
    obtain ⟨e, he, rfl⟩ := List.mem_map.1 hf
    exact ⟨frameBytes_isFrame (hw e he).toEncodable, (hw e he).frameLen⟩
  obtain ⟨rest, hrest, hnone, hpre⟩ := Framing.take_flatten (fun f hf => (hframes f hf).1) k
  refine ⟨rest, by rw [frames, hrest, fit_frames, frames], hnone, ?_⟩
  rcases hpre with rfl | ⟨f, hf, hpre⟩
  · exact Nat.zero_le _
  · exact hpre.length_le.trans (hframes f hf).2

/-- Every journal that appends can produce, with crashes and reopenings in between: `History j es`
when the writer `j` is left with the committed entries `es`. -/
inductive Journal.History (json : SerdeJson) : Journal → List Entry → Prop where
  | create : History json .create []
  | append : History json j es → j.append json tick .ok draft = (.ok e, j') →
    History json j' (es ++ [e])
  | refuse : History json j es → j.append json tick .ok draft = (.error err, j') →
    History json j' es
  /-- The file is cut at byte `k` and opened again. -/
  | reopen {reader : Reader} : History json j es → reader.bytes = j.file.take k →
    Journal.open json reader = .ok (j', es') → History json j' es'

/-- Appends every draft in turn, collecting the entries that were committed. -/
def Journal.appendAll (json : SerdeJson) (j : Journal) :
    List (Tick × EntryDraft) → List Entry × Journal
  | [] => ([], j)
  | (tick, draft) :: drafts =>
    match j.append json tick .ok draft with
    | (.ok e, j') => (e :: (j'.appendAll json drafts).1, (j'.appendAll json drafts).2)
    | (.error _, j') => j'.appendAll json drafts

/-- One append of a run without write failures keeps the invariant. -/
theorem Journal.Inv.append {j : Journal} (h : j.Inv json es es []) (tick : Tick)
    (draft : EntryDraft) :
    (∃ e j', j.append json tick .ok draft = (.ok e, j') ∧ j'.Inv json (es ++ [e]) (es ++ [e]) []) ∨
    (∃ err j', j.append json tick .ok draft = (.error err, j') ∧ j'.Inv json es es []) := by
  rcases append_cases j tick .ok draft with ⟨err, gen, heq, hgen⟩ | ⟨id, gen, hv, hgen, hw, heq⟩
  · exact .inr ⟨err, _, heq, h.generator hgen⟩
  · exact .inl ⟨_, _, heq, h.appended (fun hnil => hnil) hv hgen hw⟩

theorem Journal.Inv.appendAll {j : Journal} (h : j.Inv json es es [])
    (drafts : List (Tick × EntryDraft)) :
    (j.appendAll json drafts).2.Inv json (es ++ (j.appendAll json drafts).1)
      (es ++ (j.appendAll json drafts).1) [] := by
  induction drafts generalizing j es with
  | nil => simpa [Journal.appendAll] using h
  | cons d drafts ih =>
    rw [Journal.appendAll]
    rcases h.append d.1 d.2 with ⟨e, j', heq, h'⟩ | ⟨err, j', heq, h'⟩
    · simpa [heq] using ih h'
    · simpa [heq] using ih h'

theorem Journal.Inv.take {j : Journal} (h : j.Inv json es es []) (k : Nat) :
    ∃ rest, j.file.take k = frames (committedBefore es k) ++ rest ∧
      framing.next rest = none ∧ rest.length ≤ frameHardCap := by
  rw [h.file, List.append_nil]
  exact frames_take h.writable k

theorem Journal.Inv.reopen {j : Journal} (h : j.Inv json es es [])
    (hreader : reader.bytes = j.file.take k) (hgen : GenesisSupported json (committedBefore es k)) :
    ∃ j', Journal.open json reader = .ok (j', committedBefore es k) ∧
      j'.recoveredTailBytes + (frames (committedBefore es k)).length = reader.bytes.length ∧
      j'.Inv json (committedBefore es k) (committedBefore es k) [] := by
  obtain ⟨rest, hrest, hnone, hlen⟩ := h.take k
  have hpre := committedBefore_isPrefix es k
  obtain ⟨j', hopen, htail, hinv⟩ := open_frames (fun e he => h.writable e (hpre.subset he))
    (validateHistory_of_isPrefix hpre h.history) hnone hlen (hreader.trans hrest) hgen
  refine ⟨j', hopen, ?_, hinv⟩
  rw [htail, hreader, hrest, List.length_append, Nat.add_comm]

theorem Journal.Inv.reopen_refused {j : Journal} (h : j.Inv json es es [])
    (hreader : reader.bytes = j.file.take k)
    (hgen : ¬ GenesisSupported json (committedBefore es k)) :
    ∃ found, Journal.open json reader = .error (.newerGenesisVersion found genesisVersion) := by
  obtain ⟨rest, hrest, hnone, hlen⟩ := h.take k
  have hpre := committedBefore_isPrefix es k
  obtain ⟨found, hfound⟩ := validateGenesisVersion_error hgen
  exact ⟨found, open_refused (fun e he => h.writable e (hpre.subset he))
    (validateHistory_of_isPrefix hpre h.history) hnone hlen (hreader.trans hrest) hfound⟩

/-- Every writer of a history without write failures is consistent with its file. -/
theorem Journal.History.inv {j : Journal} (h : Journal.History json j es) :
    j.Inv json es es [] := by
  induction h with
  | create => exact .create
  | append _ heq ih =>
    rcases ih.append _ _ with ⟨e', j'', heq', h'⟩ | ⟨err, j'', heq', h'⟩
    · rw [heq] at heq'
      cases heq'
      exact h'
    · rw [heq] at heq'
      cases heq'
  | refuse _ heq ih =>
    rcases ih.append _ _ with ⟨e', j'', heq', h'⟩ | ⟨err, j'', heq', h'⟩
    · rw [heq] at heq'
      cases heq'
    · rw [heq] at heq'
      cases heq'
      exact h'
  | @reopen j es k j' es' reader _ hreader hopen ih =>
    by_cases hgen : GenesisSupported json (committedBefore es k)
    · obtain ⟨j'', hopen', -, hinv⟩ := ih.reopen hreader hgen
      rw [hopen] at hopen'
      cases hopen'
      exact hinv
    · obtain ⟨found, hopen'⟩ := ih.reopen_refused hreader hgen
      rw [hopen] at hopen'
      cases hopen'

theorem Journal.Inv.scan {j : Journal} (h : j.Inv json es acked tail)
    (hreader : reader.bytes = j.file) (hgen : GenesisSupported json es) :
    OhMyPi.scan json reader = .ok es := by
  rw [scan_frames h.writable h.history h.torn h.tailLen (hreader.trans h.file),
    validateGenesisVersion_eq_ok.2 hgen]
  rfl

/-- `serde_json` on the payloads of the examples. -/
def sampleJson : SerdeJson where
  ignoredAny text :=
    text = "\x7b\"version\":1\x7d" || text = "\x7b\"version\":2\x7d" || text = "\x7b\x7d"
  headerVersion text :=
    if text = "\x7b\"version\":1\x7d" then some 1
    else if text = "\x7b\"version\":2\x7d" then some 2
    else none
  value text :=
    if text = "\x7b\"version\":1\x7d" then some (.object [("version", .number (.posInt 1))])
    else if text = "\x7b\"version\":2\x7d" then some (.object [("version", .number (.posInt 2))])
    else if text = "\x7b\x7d" then some (.object [])
    else none

/-- A genesis draft with the given payload. -/
def genesisDraft (data : String) : EntryDraft where
  kind := .known .journal
  by_ := none
  prior := none
  label := none
  data := data

def sampleTick : Tick := ⟨1700000000000, 5, by decide⟩

/-- The genesis that `sampleTick` identifies. -/
def sampleGenesis (data : String) : Entry :=
  (genesisDraft data).toEntry ⟨1700000000000 * 2 ^ 80 + 5, by decide⟩

end OhMyPi
