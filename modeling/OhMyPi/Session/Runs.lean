import OhMyPi.Journal.AppendFailure
import OhMyPi.Journal.Branches
import OhMyPi.Session.Rewind

/-! Whole runs of a session. Writes and rewinds follow one another in any order; each may be refused,
or journaled and then not fold. As long as the disk takes what is written, the file holds the entries
of the session, so a crash later on loses none that was in it, and what is written goes on from the
branch that was selected. -/

namespace OhMyPi

/-- The disk takes what the command writes. -/
def Command.Durable : Command → Prop
  | beginTurn ack io => ack.outcome = .ok ∧ io.outcome = .ok
  | user io .. | userAuthored io .. | skillPrompt io .. | fileMentions io .. | assistantStart io ..
  | streamOpen io .. | streamAppend io .. | streamClose io .. | assistantEnd io .. | call io ..
  | callStreaming io .. | callReady io .. | callStarted io .. | callReceipt io .. | callUpdate io ..
  | settle io .. | settleProjected io .. | settleProjectedFromBlob io .. | fail io ..
  | failProjected io .. | failProjectedFromBlob io .. | receipt io .. | patch io .. | patchKeyed io ..
  | compaction io .. | sessionSwitch io => io.outcome = .ok

theorem committedBefore_append (h : (frames es).length ≤ k) :
    committedBefore (es ++ es') k = es ++ committedBefore es' (k - (frames es).length) := by
  induction es generalizing k with
  | nil => rfl
  | cons e es ih =>
    rw [show e :: es = [e] ++ es from rfl, frames_append, frames_singleton, List.length_append] at h ⊢
    rw [List.append_assoc, List.singleton_append, committedBefore, if_pos (by omega), ih (by omega),
      Nat.sub_sub]
    rfl

theorem GenesisSupported.of_isPrefix {json : SerdeJson} (h : GenesisSupported json es) (hpre : es' <+: es) :
    GenesisSupported json es' := by
  obtain ⟨rest, rfl⟩ := hpre
  cases es' with
  | nil => simp [GenesisSupported]
  | cons genesis es' => exact h

theorem byId_concat {es : List Entry} {id : EntryId} (hne : e.id ≠ id) : byId (es ++ [e]) id = byId es id := by
  simp [byId, List.zipIdx_append, hne]

/-- An entry that is appended leaves the lineages of the others alone. -/
theorem lineage_concat {json : SerdeJson} {es : List Entry} (h : validateHistory json (es ++ [e]) = .ok ())
    (hl : Lineage (parentIndex es) l i) (hi : i < es.length) : Lineage (parentIndex (es ++ [e])) l i := by
  obtain ⟨hes, -, hfresh⟩ := validateHistory_concat.1 h
  have hparent : ∀ i < es.length, parentIndex (es ++ [e]) i = parentIndex es i := by
    intro i hi
    have hget := List.getElem?_eq_getElem hi
    rw [parentIndex, parentIndex, List.getElem?_append_left hi]
    split
    · next prior hprior =>
      rw [hget, Option.bind_some] at hprior
      have hmem := (validateHistory_getElem hes hget).1.prior prior hprior
      refine byId_concat fun hid => hfresh (hid ▸ ?_)
      exact ((List.take_sublist i es).map _).subset hmem
    · rfl
  induction hl with
  | root hroot => exact .root ((hparent _ hi).trans hroot)
  | step hstep _ ih =>
    exact .step ((hparent _ hi).trans hstep) (ih ((parentIndex_descends hes _ hi _ hstep).trans hi))

namespace Session

/-- The positions of the entries on the selected branch: the chain of the target of a rewind, or else that of
the last entry. -/
def branch (s : Session) : Except SessionError (List Nat) :=
  match s.pendingPrior with
  | some target => chainIndices s.entries target
  | none => .ok (OhMyPi.chainIndices s.entries)

/-- The position of the last of them. -/
def tip (s : Session) : Option Nat :=
  match s.pendingPrior with
  | some target => byId s.entries target
  | none => some (s.entries.length - 1)

/-- What a run is made of. -/
inductive Act where
  | write (command : Command)
  | rewind (target : EntryId)

def Act.Durable : Act → Prop
  | write command => command.Durable
  | rewind _ => True

variable (env : Env) (order : HashOrder)

def act : Act → Operation Unit
  | .write command => command.perform env order
  | .rewind target => rewind env order target

/-- Each act starts where the last one ended, also where that failed. -/
def run : List Act → Session → Session
  | [], s => s
  | a :: acts, s => run acts (act env order a s).2

/-- The file holds the entries, the first of which is a genesis that this build reads. -/
structure Filed (s : Session) : Prop where
  journal : s.journal.Inv env.serde.toSerdeJson s.entries s.entries []
  started : s.entries ≠ []
  supported : GenesisSupported env.serde.toSerdeJson s.entries
  pending : ∀ target ∈ s.pendingPrior, ∃ index, byId s.entries target = some index

/-- The entries of a session stay, and stay in the file. -/
def Keeps (s t : Session) : Prop := Filed env s → Filed env t ∧ s.entries <+: t.entries

/-- New entries go on from the selected branch. -/
def Grows (s t : Session) : Prop := Keeps env s t ∧ (Filed env s → ∀ l, s.branch = .ok l →
  t.branch = .ok (l ++ List.range' s.entries.length (t.entries.length - s.entries.length)))

variable {env order}

theorem run_append (acts later : List Act) (s : Session) :
    run env order (acts ++ later) s = run env order later (run env order acts s) := by
  induction acts generalizing s with
  | nil => rfl
  | cons a acts ih => exact ih _

theorem Keeps.trans {s t u : Session} (hst : Keeps env s t) (htu : Keeps env t u) : Keeps env s u := by
  intro hs
  obtain ⟨ht, hpre⟩ := hst hs
  obtain ⟨hu, hpre'⟩ := htu ht
  exact ⟨hu, hpre.trans hpre'⟩

theorem Grows.refl (s : Session) : Grows env s s := by
  refine ⟨fun h => ⟨h, List.prefix_rfl⟩, fun _ l hl => ?_⟩
  rw [Nat.sub_self, List.range'_zero, List.append_nil]
  exact hl

theorem Grows.trans (s t u : Session) (hst : Grows env s t) (htu : Grows env t u) : Grows env s u := by
  refine ⟨hst.1.trans htu.1, fun hs l hl => ?_⟩
  obtain ⟨ht, hpre⟩ := hst.1 hs
  have hle := hpre.length_le
  have hle' := (htu.1 ht).2.length_le
  have hlength : t.entries.length = s.entries.length + (t.entries.length - s.entries.length) := by omega
  have hsum : u.entries.length - s.entries.length =
      (t.entries.length - s.entries.length) + (u.entries.length - t.entries.length) := by omega
  rw [htu.2 ht _ (hst.2 hs l hl), hsum, ← List.range'_append_1, ← hlength, List.append_assoc]

/-- The lineage behind the selected branch. -/
theorem Filed.exists_lineage {s : Session} (h : Filed env s) : ∃ i < s.entries.length, ∃ l,
    Lineage (parentIndex s.entries) l i ∧ s.branch = .ok l ∧ s.tip = some i := by
  have hpos := List.length_pos_iff.2 h.started
  have hvalid := h.journal.history
  rw [branch, tip]
  cases hpending : s.pendingPrior with
  | none => exact ⟨_, by omega, _, lineage_chainIndices hvalid h.started, rfl, rfl⟩
  | some target =>
    obtain ⟨index, hindex⟩ := h.pending target hpending
    obtain ⟨e, he, -⟩ := byId_eq_some hindex
    have hlt := (List.getElem?_eq_some_iff.1 he).1
    obtain ⟨l, hl⟩ := Lineage.exists_of_lt _ (parentIndex_descends hvalid) hlt
    refine ⟨index, hlt, l, hl, ?_, hindex⟩
    dsimp only
    rw [chainIndices, hindex]
    exact chainFrom_eq hvalid hl hlt hlt

/-- An entry whose prior is that of the session follows the selected branch. -/
theorem Filed.branch_concat {s t : Session} (hs : Filed env s) (ht : Filed env t)
    (hentries : t.entries = s.entries ++ [e]) (hprior : e.prior = s.pendingPrior)
    (hpending : t.pendingPrior = none) (hl : s.branch = .ok l) :
    t.branch = .ok (l ++ [s.entries.length]) := by
  obtain ⟨i, hi, l', hlineage, hbranch, htip⟩ := hs.exists_lineage
  cases hl.symm.trans hbranch
  have hvalid := ht.journal.history
  rw [hentries] at hvalid
  obtain ⟨-, -, hfresh⟩ := validateHistory_concat.1 hvalid
  have hparent : parentIndex (s.entries ++ [e]) s.entries.length = some i := by
    rw [parentIndex, List.getElem?_concat_length, Option.bind_some, hprior]
    rw [tip] at htip
    cases hsome : s.pendingPrior with
    | some target =>
      rw [hsome] at htip
      obtain ⟨known, hknown, rfl⟩ := byId_eq_some htip
      refine (byId_concat fun hid => hfresh (hid ▸ ?_)).trans htip
      exact List.mem_map_of_mem (List.mem_of_getElem? hknown)
    | none =>
      rw [hsome] at htip
      simpa [hs.started] using htip
  have hnext := lineage_chainIndices hvalid (by simp)
  rw [List.length_append, List.length_singleton, Nat.add_sub_cancel] at hnext
  rw [branch, hpending, hentries]
  exact congrArg _ (hnext.unique (.step hparent (lineage_concat hvalid hlineage hi)))

theorem grows_check {α : Type} (f : Core → Except SessionError α) :
    Action.Moves (Grows env) (check f) := .reads Grows.refl _

theorem grows_bind {α β : Type} {x : Operation α} {f : α → Operation β}
    (hx : Action.Moves (Grows env) x) (hf : ∀ a, Action.Moves (Grows env) (f a)) :
    Action.Moves (Grows env) (x >>= f) := .bind Grows.trans hx hf

theorem grows_pure {α : Type} (a : α) : Action.Moves (Grows env) (pure a : Operation α) :=
  .pure Grows.refl a

section

variable {io : Io} (hio : io.outcome = .ok)
include hio

/-- An entry is in the session and in the file, or in neither, whether or not it folds. -/
theorem grows_commit {kind : KindName} {by_ : Option EntryId} {label : Option String} {data : String} :
    Action.Moves (Grows env) (commit env order io kind by_ label data) := by
  intro s
  let draft : EntryDraft := { kind := .known kind, by_, prior := s.pendingPrior, label, data }
  rcases s.journal.append_cases io.tick .ok draft with ⟨err, gen, happend, hgen⟩ | ⟨id, gen, hv, hgen, hw, happend⟩
  · simp only [commit, hio, draft] at happend ⊢
    rw [happend]
    exact ⟨fun hs => ⟨⟨hs.journal.generator hgen, hs.started, hs.supported, hs.pending⟩, List.prefix_rfl⟩,
      (Grows.refl s).2⟩
  · have hgrows : ∀ t : Session, t.journal = (s.journal.written .ok gen (draft.toEntry id)).2 →
        t.entries = s.entries ++ [draft.toEntry id] → t.pendingPrior = none → Grows env s t := by
      intro t hjournal hentries hpending
      have hfiled : Filed env s → Filed env t := by
        intro hs
        refine ⟨?_, by simp [hentries], ?_, by simp [hpending]⟩
        · rw [hjournal, hentries]
          exact hs.journal.appended (fun hnil => hnil) hv hgen hw
        · rw [hentries]
          exact hs.supported.concat fun hnil => absurd hnil hs.started
      refine ⟨fun hs => ⟨hfiled hs, hentries ▸ List.prefix_append _ _⟩, fun hs l hl => ?_⟩
      rw [hs.branch_concat (hfiled hs) hentries rfl hpending hl, hentries, List.length_append, Nat.add_sub_cancel_left]
      rfl
    simp only [commit, hio, draft] at happend ⊢
    rw [happend]
    dsimp only [Journal.written]
    split
    · exact hgrows _ rfl rfl rfl
    · exact hgrows _ rfl rfl rfl

theorem grows_patch {txn : Txn} {idempotency : Option PatchIdempotency} :
    Action.Moves (Grows env) (commitPatch env order io txn idempotency) :=
  grows_bind (grows_check _) fun _ => grows_commit hio

theorem grows_insertMessage {label : String} {node : NodeSpec} :
    Action.Moves (Grows env) (insertMessage env order io label node) :=
  grows_bind (grows_check _) fun _ => grows_bind (grows_check _) fun _ =>
    grows_bind (grows_check _) fun _ => grows_patch hio

theorem grows_commitUser {payload : MsgUser} :
    Action.Moves (Grows env) (commitUser env order io payload) :=
  grows_bind (grows_check _) fun _ => grows_commit hio

theorem grows_call {payload : ToolCall} : Action.Moves (Grows env) (call env order io payload) :=
  grows_bind (grows_check _) fun _ => grows_bind (grows_check _) fun _ => grows_commit hio

theorem grows_settleWith {call : EntryId} {payload : ToolResult} :
    Action.Moves (Grows env) (settleWith env order io call payload) :=
  grows_bind (grows_check _) fun _ => grows_bind (grows_check _) fun _ =>
    grows_bind (grows_check _) fun _ => grows_commit hio

theorem grows_clearExitDiagnostics : Action.Moves (Grows env) (clearExitDiagnostics env order io) := by
  refine grows_bind (grows_check _) fun exits => ?_
  split
  · exact grows_pure _
  · exact grows_bind (grows_check _) fun _ => grows_bind (grows_patch hio) fun _ => grows_pure _

end

theorem grows_perform {command : Command} (h : command.Durable) :
    Action.Moves (Grows env) (command.perform env order) := by
  cases command with
  | beginTurn ack io =>
    exact grows_bind (grows_bind (grows_clearExitDiagnostics h.1) fun _ =>
      grows_bind (grows_check _) fun _ => grows_commit h.2) fun _ => grows_pure _
  | user io | assistantStart io | callStarted io | callReceipt io | receipt io =>
    exact grows_bind (grows_bind (grows_check _) fun _ => grows_commit h) fun _ => grows_pure _
  | userAuthored io =>
    refine grows_bind (grows_bind (.reads Grows.refl _) fun replayed => ?_) fun _ => grows_pure _
    cases replayed with
    | some existing => exact grows_pure _
    | none => exact grows_bind (grows_commitUser h) fun _ => grows_pure _
  | skillPrompt io | fileMentions io =>
    exact grows_bind (grows_insertMessage h) fun _ => grows_pure _
  | streamOpen io =>
    exact grows_bind (grows_bind (grows_check _) fun _ => grows_bind (grows_check _) fun _ =>
      grows_bind (grows_check _) fun _ => grows_bind (grows_commit h) fun _ => grows_pure _)
        fun _ => grows_pure _
  | assistantEnd io | streamAppend io | streamClose io | callReady io =>
    exact grows_bind (grows_bind (grows_check _) fun _ => grows_bind (grows_check _) fun _ =>
      grows_commit h) fun _ => grows_pure _
  | call io =>
    exact grows_bind (grows_call h) fun _ => grows_pure _
  | callStreaming io =>
    exact grows_bind (grows_bind (grows_check _) fun _ => grows_bind (grows_call h) fun _ =>
      grows_pure _) fun _ => grows_pure _
  | callUpdate io =>
    refine grows_bind (grows_bind (grows_check _) fun _ => grows_bind (grows_check _) fun value => ?_)
      fun _ => grows_pure _
    dsimp only
    split
    · exact grows_bind Grows.refl fun _ => grows_commit h
    · exact grows_commit h
  | settle io | settleProjected io | settleProjectedFromBlob io | fail io | failProjected io
  | failProjectedFromBlob io =>
    exact grows_bind (grows_settleWith h) fun _ => grows_pure _
  | patch io =>
    exact grows_bind (grows_patch h) fun _ => grows_pure _
  | patchKeyed io =>
    refine grows_bind (grows_bind (.reads Grows.refl _) fun replayed => ?_) fun _ => grows_pure _
    cases replayed with
    | some existing => exact grows_pure _
    | none => exact grows_bind (grows_patch h) fun _ => grows_pure _
  | compaction io =>
    exact grows_bind (grows_bind (grows_check _) fun _ => grows_bind (grows_check _) fun _ =>
      grows_bind (.reads Grows.refl _) fun _ => grows_bind (grows_check _) fun _ =>
        grows_commit h) fun _ => grows_pure _
  | sessionSwitch io =>
    exact grows_bind (grows_bind (grows_check _) fun _ => grows_bind (grows_check _) fun _ =>
      grows_patch h) fun _ => grows_pure _

/-- A rewind writes nothing; it selects the branch of its target, unless it fails. -/
theorem rewind_cases (target : EntryId) (s : Session) :
    Keeps env s (rewind env order target s).2 ∧
      ((rewind env order target s).1 = .ok () ∧
          (rewind env order target s).2.branch = chainIndices s.entries target ∨
        (∃ e, (rewind env order target s).1 = .error e) ∧ (rewind env order target s).2.branch = s.branch) := by
  rw [rewind]
  split
  · exact ⟨(Grows.refl s).1, .inr ⟨⟨_, rfl⟩, rfl⟩⟩
  · next index hindex =>
    split
    · split
      · exact ⟨fun hs => ⟨⟨hs.journal, hs.started, hs.supported, hs.pending⟩, List.prefix_rfl⟩,
          .inr ⟨⟨_, rfl⟩, rfl⟩⟩
      · refine ⟨fun hs => ⟨⟨hs.journal, hs.started, hs.supported, ?_⟩, List.prefix_rfl⟩, .inl ⟨rfl, rfl⟩⟩
        rintro _ ⟨⟩
        exact ⟨index, hindex⟩
    · exact ⟨(Grows.refl s).1, .inr ⟨⟨_, rfl⟩, rfl⟩⟩

theorem keeps_run {acts : List Act} (h : ∀ a ∈ acts, a.Durable) (s : Session) :
    Keeps env s (run env order acts s) := by
  induction acts generalizing s with
  | nil => exact (Grows.refl s).1
  | cons a acts ih =>
    refine Keeps.trans ?_ (ih (fun b hb => h b (List.mem_cons_of_mem _ hb)) _)
    have hdurable : a.Durable := h a List.mem_cons_self
    cases a with
    | write command => exact (grows_perform hdurable s).1
    | rewind target => exact (rewind_cases target s).1

/-- A session that was created holds the genesis. -/
theorem filed_create {io : Io} {cwd created : String} {id : EntryId} {s : Session}
    (hio : io.outcome = .ok)
    (hversion : ∀ found ∈ env.serde.headerVersion
      (env.serde.genesis.write { version := genesisVersion, cwd, created }), found ≤ genesisVersion)
    (h : create env order io cwd created = (.ok id, s)) : Filed env s := by
  let draft : EntryDraft :=
    { kind := .known .journal, by_ := none, prior := none, label := none
      data := env.serde.genesis.write { version := genesisVersion, cwd, created } }
  rcases @Journal.append_cases env.serde.toSerdeJson .create io.tick .ok draft with
    ⟨err, gen, happend, -⟩ | ⟨id', gen, hv, hgen, hw, happend⟩
  · simp only [create, commit, hio, draft] at happend h
    rw [happend] at h
    cases h
  · have hinv := Journal.Inv.create.appended (fun hnil => hnil) hv hgen hw
    simp only [create, commit, hio, draft] at happend h
    rw [happend] at h
    simp only [Journal.written] at h
    split at h
    · cases h
    · cases h
      exact ⟨hinv, by simp [pushFloors], by
        simpa [pushFloors, GenesisSupported, EntryDraft.toEntry] using hversion, by simp [pushFloors]⟩

section

variable {io : Io} {cwd created : String} {id : EntryId} {s : Session} (hio : io.outcome = .ok)
  (hversion : ∀ found ∈ env.serde.headerVersion
    (env.serde.genesis.write { version := genesisVersion, cwd, created }), found ≤ genesisVersion)
  (hcreate : create env order io cwd created = (.ok id, s))
include hio hversion hcreate

/-- **No crash undoes a write that is on disk.** Take any session from its creation on, through writes
and rewinds of which each may be refused or fail to fold. Whatever happens after some moment of it,
and wherever a crash then cuts the file, it opens to the first of the session's entries; if the cut is
behind what the file held at that moment, to all the session had then. -/
theorem run_survives_crash (acts later : List Act) (hdurable : ∀ a ∈ acts ++ later, a.Durable) (k : Nat)
    (reader : Sse.Reader)
    (hreader : reader.bytes = (run env order (acts ++ later) s).journal.file.take k) :
    ∃ journal entries, Journal.open env.serde.toSerdeJson reader = .ok (journal, entries) ∧
      entries <+: (run env order (acts ++ later) s).entries ∧
      ((run env order acts s).journal.file.length ≤ k → (run env order acts s).entries <+: entries) := by
  have hfiled := filed_create hio hversion hcreate
  obtain ⟨hacts, -⟩ := @keeps_run env order acts
    (fun a ha => hdurable a (List.mem_append_left _ ha)) s hfiled
  obtain ⟨hlater, rest, hrest⟩ := @keeps_run env order later
    (fun a ha => hdurable a (List.mem_append_right _ ha)) _ hacts
  rw [run_append] at hreader ⊢
  obtain ⟨journal, hopen, -⟩ := hlater.journal.reopen hreader
    (hlater.supported.of_isPrefix (committedBefore_isPrefix _ _))
  refine ⟨journal, _, hopen, committedBefore_isPrefix _ _, fun hk => ?_⟩
  rw [hacts.journal.file, List.append_nil] at hk
  rw [← hrest, committedBefore_append hk]
  exact List.prefix_append _ _

/-- **A session is a tree of entries with a branch selected.** In every run from its creation on a branch is
selected, a write adds its entries to the end of it, a rewind selects that of its target, and one that fails
leaves it. -/
theorem run_branches (acts : List Act) (hdurable : ∀ a ∈ acts, a.Durable) :
    ∃ l, (run env order acts s).branch = .ok l ∧
      (∀ command : Command, command.Durable →
        (command.perform env order (run env order acts s)).2.branch = .ok (l ++
          List.range' (run env order acts s).entries.length
            ((command.perform env order (run env order acts s)).2.entries.length -
              (run env order acts s).entries.length))) ∧
      ∀ target,
        (rewind env order target (run env order acts s)).1 = .ok () ∧
            (rewind env order target (run env order acts s)).2.branch =
              chainIndices (run env order acts s).entries target ∨
          (∃ e, (rewind env order target (run env order acts s)).1 = .error e) ∧
            (rewind env order target (run env order acts s)).2.branch = .ok l := by
  obtain ⟨hfiled, -⟩ := @keeps_run env order acts hdurable s (filed_create hio hversion hcreate)
  obtain ⟨i, -, l, -, hl, -⟩ := hfiled.exists_lineage
  refine ⟨l, hl, fun command hcommand => (grows_perform hcommand _).2 hfiled l hl, fun target => ?_⟩
  rw [← hl]
  exact (rewind_cases target _).2

end

end Session

namespace Sample

/-- A session that holds its genesis only. -/
def genesis : Session := (Session.create env order (io 1) "/" "now").2

/-- A turn with a call and an update of it that is journaled and does not fold. -/
def updates (call : EntryId) : List Session.Act :=
  [.write (.beginTurn (io 2) (io 2)), .write (.call (io 3) lsCall),
    .write (.callUpdate (io 4) call numberedNotice)]

/-- The session goes back and starts another turn. -/
def startsOver (target : EntryId) : List Session.Act :=
  [.rewind target, .write (.beginTurn (io 5) (io 5))]

end Sample

open Sample in
theorem Session.create_genesis : create env order (io 1) "/" "now" = (.ok (at_ 1), genesis) :=
  Prod.ext (by decide +kernel) rfl

open Sample in
theorem Session.run_survives_crash_sample : ∃ journal entries,
    Journal.open serde.toSerdeJson (Gc.wholeFile
      ((run env order (updates (at_ 3) ++ startsOver (at_ 1)) genesis).journal.file.take
        (run env order (updates (at_ 3)) genesis).journal.file.length)) = .ok (journal, entries) ∧
    (run env order (updates (at_ 3)) genesis).entries <+: entries := by
  obtain ⟨journal, entries, hopen, -, hkept⟩ := run_survives_crash rfl
    (by simp [Sample.env, serde, genesisVersion]) create_genesis (updates (at_ 3)) (startsOver (at_ 1))
    (by simp [updates, startsOver, Act.Durable, Command.Durable, Sample.io]) _ (Gc.wholeFile _) (Gc.wholeFile_bytes _)
  exact ⟨journal, entries, hopen, hkept le_rfl⟩

open Sample in
theorem Session.run_branches_sample :
    ∃ l, (run env order (updates (at_ 3) ++ startsOver (at_ 1)) genesis).branch = .ok l := by
  obtain ⟨l, hl, -⟩ := run_branches rfl (by simp [Sample.env, serde, genesisVersion]) create_genesis
    (updates (at_ 3) ++ startsOver (at_ 1))
    (by simp [updates, startsOver, Act.Durable, Command.Durable, Sample.io])
  exact ⟨l, hl⟩

end OhMyPi
