import Mathlib.Logic.Relation
import Mathlib.Logic.Function.Basic
import OhMyPi.Journal.Chain
import OhMyPi.Journal.Recovery
import OhMyPi.Journal.Roots

/-! Mark and sweep over a shared blob store (`collect_blobs_with` in `journal/src/gc.rs`, the sweep
and `BlobStage::finish` in `journal/src/blob.rs`, the advisory locks in `journal/src/lib.rs`), as a
transition system of any number of journal writers, blob producers and collectors.

A lock is who holds it. The namespace lock `.journal-gc.lock` is shared by every writer with an open
journal and exclusive to a collector from its inventory to the end of its sweep; `.blobs-gc.lock` is
shared by every blob stage and exclusive to a sweep. Locks exclude as the operating system promises,
and the clock does not run backwards. -/

namespace OhMyPi.Gc

open Sse

/-- The fields of `BlobGcOptions` that decide what is removed. The traversal limits and the
cancellation flag can only end a collection early; see `Step.scanFails`. -/
structure BlobGcOptions where
  apply : Bool
  retainAbandoned : Bool
  unreferencedGrace : Nat
deriving DecidableEq

inductive GcError where
  | journal (source : JournalError)
  | encode (source : SseError)
  | rootData (entry : EntryId)
  | io
  | cancelled
  | limit
  | blob
deriving DecidableEq

/-- A file read in one piece. -/
def wholeFile (file : Bytes) : Reader where
  chunks := if file = [] then [] else [file]
  nonempty := by
    intro c hc
    split at hc <;> simp_all

section

variable (json : SerdeJson)

/-- Encodes the retained entries one after the other, as the size estimate of a pruning does. -/
def encodeAll : List Entry → Bytes → Except SseError Bytes
  | [], output => .ok output
  | entry :: entries, output =>
    match encode json entry output with
    | .ok output => encodeAll entries output
    | .error e => .error e

/-- The roots of a list of entries; one payload that is no value fails the collection. -/
def entryRoots : List Entry → Except GcError (List Hash32)
  | [] => .ok []
  | entry :: entries =>
    match collectEntryRoots json entry with
    | none => .error (.rootData entry.id)
    | some roots => (entryRoots entries).map (roots ++ ·)

/-- The entries whose references count as roots. -/
def rootedEntries (options : BlobGcOptions) (entries : List Entry) : List Entry :=
  if options.retainAbandoned then entries else liveChain entries

/-- What `collect_blobs_with` does with one journal file: its roots, or the error that ends the
collection. -/
def scanJournal (options : BlobGcOptions) (file : Bytes) : Except GcError (List Hash32) :=
  match decodeCommitted json (wholeFile file) with
  | .error e => .error (.journal e)
  | .ok decoded =>
    let retained := liveChain decoded.entries
    if decoded.entries.length - retained.length ≠ 0 then
      match encodeAll json retained [] with
      | .error e => .error (.encode e)
      | .ok _ => entryRoots json (rootedEntries options decoded.entries)
    else entryRoots json (rootedEntries options decoded.entries)

end

/-- `old_enough`: a modification time ahead of the clock is never old. -/
def oldEnough (modified now grace : Nat) : Bool := modified ≤ now && grace ≤ now - modified

/-- A journal writer and blob producer. -/
structure Writer where
  /-- The open journal, whose lease and namespace share are held. -/
  journal : Option String := none
  /-- Whether a blob stage is open, with its share of `.blobs-gc.lock`. -/
  staging : Bool := false
  /-- The blobs put while the present journal lease was held. -/
  leased : List Hash32 := []
  /-- Every blob put so far, with the modification time the put left. -/
  puts : List (Hash32 × Nat) := []

/-- Where a collector stands. `removed` is what it has deleted in this collection. -/
inductive Collector where
  | idle
  | scanning (options : BlobGcOptions) (todo : List String) (roots : List Hash32)
  | sweeping (options : BlobGcOptions) (roots : List Hash32) (candidates : Hash32 → Bool)
    (removed : List Hash32)
  | done (removed : List Hash32)
  | failed (error : GcError) (removed : List Hash32)

namespace Collector

/-- Holds the namespace lock. -/
def active : Collector → Bool
  | scanning .. | sweeping .. => true
  | _ => false

def isSweeping : Collector → Bool
  | sweeping .. => true
  | _ => false

/-- What the collector has deleted so far. -/
def removedSoFar : Collector → List Hash32
  | sweeping _ _ _ removed | done removed | failed _ removed => removed
  | _ => []

end Collector

/-- The directory, the clock and everyone using them. -/
structure World where
  now : Nat := 0
  /-- The journal files in the store's root. -/
  files : String → Option Bytes := fun _ => none
  /-- The final blob files, by digest, with their modification times. -/
  blobs : Hash32 → Option Nat := fun _ => none
  writers : Nat → Writer := fun _ => {}
  collectors : Nat → Collector := fun _ => .idle

/-- The payload of `e` has a typed reference to `d`. -/
def RefersTo (json : SerdeJson) (e : Entry) (d : Hash32) : Prop :=
  ∃ v fields, json.value e.data = some v ∧ Within (.object fields) v ∧ TypedRef fields d

/-- The file's committed history is `entries`. -/
def Commits (json : SerdeJson) (file : Bytes) (entries : List Entry) : Prop :=
  ∃ decoded, decodeCommitted json (wholeFile file) = .ok decoded ∧ decoded.entries = entries

/-- Some committed entry of the file refers to `d`. -/
def Refers (json : SerdeJson) (file : Bytes) (d : Hash32) : Prop :=
  ∃ entries, Commits json file entries ∧ ∃ e ∈ entries, RefersTo json e d

/-- The put of `d` protects a commit by this writer: it was made under the lease still held, or
less than `grace` ago. -/
def Writer.Protects (w : Writer) (now grace : Nat) (d : Hash32) : Prop :=
  d ∈ w.leased ∨ ∃ t, (d, t) ∈ w.puts ∧ now < t + grace

/-- Who takes part: the options collectors are run with, and what a writer puts into its journal. -/
structure Protocol where
  json : SerdeJson
  allowed : BlobGcOptions → Prop
  mayWrite : World → Writer → String → Bytes → Prop

namespace World

def setWriter (s : World) (i : Nat) (w : Writer) : World :=
  { s with writers := Function.update s.writers i w }

def setCollector (s : World) (i : Nat) (c : Collector) : World :=
  { s with collectors := Function.update s.collectors i c }

def setFile (s : World) (path : String) (file : Bytes) : World :=
  { s with files := Function.update s.files path (some file) }

def setBlob (s : World) (d : Hash32) (modified : Option Nat) : World :=
  { s with blobs := Function.update s.blobs d modified }

/-- No collector holds the namespace lock. -/
def Unlocked (s : World) : Prop := ∀ c, (s.collectors c).active = false

end World

/-- One step of one participant. -/
inductive Step (P : Protocol) : World → World → Prop where
  | tick : s.now ≤ t → Step P s { s with now := t }
  /-- `Journal::create` and `Journal::open`: a share of the namespace lock and the writer lock. -/
  | openJournal (path : String) : (s.writers i).journal = none → (∀ j, (s.writers j).journal ≠ some path) →
    s.Unlocked →
    Step P s ((s.setFile path ((s.files path).getD [])).setWriter i
      { s.writers i with journal := some path, leased := [] })
  | closeJournal :
    Step P s (s.setWriter i { s.writers i with journal := none, leased := [] })
  /-- An append, a torn write, the truncation of a torn tail or the rewrite of a pruning: whatever
  the holder of the journal's lease leaves in its file. -/
  | write : (s.writers i).journal = some path → P.mayWrite s (s.writers i) path file →
    Step P s (s.setFile path file)
  /-- `begin_put`: a share of `.blobs-gc.lock`. -/
  | beginPut : (s.writers i).staging = false → (∀ c, (s.collectors c).isSweeping = false) →
    Step P s (s.setWriter i { s.writers i with staging := true })
  | abortPut : Step P s (s.setWriter i { s.writers i with staging := false })
  /-- `BlobStage::finish` with nothing at the destination: the stage is renamed there and keeps the
  modification time of its last write. -/
  | finishPut : (s.writers i).staging = true → s.blobs d = none → t ≤ s.now →
    Step P s ((s.setBlob d (some t)).setWriter i
      { s.writers i with
        staging := false
        leased := if (s.writers i).journal.isSome then d :: (s.writers i).leased
          else (s.writers i).leased
        puts := (d, t) :: (s.writers i).puts })
  /-- `BlobStage::finish` with the blob already there: its modification time is refreshed. -/
  | dedupPut : (s.writers i).staging = true → s.blobs d = some t →
    Step P s ((s.setBlob d (some s.now)).setWriter i
      { s.writers i with
        staging := false
        leased := if (s.writers i).journal.isSome then d :: (s.writers i).leased
          else (s.writers i).leased
        puts := (d, s.now) :: (s.writers i).puts })
  /-- The exclusive namespace lock and the inventory: the journals asked for and every journal in
  the directory. -/
  | start : P.allowed options → (s.collectors c).active = false →
    (∀ i, (s.writers i).journal = none) → s.Unlocked →
    (∀ path, s.files path ≠ none → path ∈ todo) →
    Step P s (s.setCollector c (.scanning options todo []))
  | scan : s.collectors c = .scanning options (path :: todo) roots →
    s.files path = some file → scanJournal P.json options file = .ok found →
    Step P s (s.setCollector c (.scanning options todo (found ++ roots)))
  /-- A journal that is locked, missing, undecodable, too large or holds a payload that is no value,
  or a cancellation: the collection ends before its sweep. -/
  | scanFails : s.collectors c = .scanning options todo roots →
    Step P s (s.setCollector c (.failed e []))
  /-- `sweep_unreferenced` takes `.blobs-gc.lock` exclusively and selects its candidates. -/
  | sweep : s.collectors c = .scanning options [] roots → (∀ i, (s.writers i).staging = false) →
    Step P s (s.setCollector c (.sweeping options roots (fun d =>
      decide (d ∉ roots) && (s.blobs d).any fun modified =>
        oldEnough modified s.now options.unreferencedGrace) []))
  | remove (d : Hash32) : s.collectors c = .sweeping options roots candidates removed →
    options.apply = true → candidates d = true →
    Step P s ((s.setBlob d none).setCollector c
      (.sweeping options roots candidates (d :: removed)))
  | finish : s.collectors c = .sweeping options roots candidates removed →
    Step P s (s.setCollector c (.done removed))
  /-- A cancellation or a failed file operation in the middle of the sweep. -/
  | sweepFails : s.collectors c = .sweeping options roots candidates removed →
    e = .blob ∨ e = .cancelled → Step P s (s.setCollector c (.failed e removed))

/-- The worlds that a run from an empty directory can reach. -/
def Reachable (P : Protocol) (s : World) : Prop := Relation.ReflTransGen (Step P) {} s

/-! ## What a successful scan has seen -/

theorem entryRoots_spec {json : SerdeJson} (h : entryRoots json entries = .ok roots)
    (he : e ∈ entries) (href : RefersTo json e d) : d ∈ roots := by
  induction entries generalizing roots with
  | nil => cases he
  | cons entry entries ih =>
    rw [entryRoots] at h
    split at h
    · cases h
    · next found hfound =>
      obtain ⟨rest, hrest, rfl⟩ := Except.map_eq_ok.1 h
      rcases List.mem_cons.1 he with rfl | he
      · obtain ⟨v, fields, hv, hwithin, htyped⟩ := href
        rw [collectEntryRoots, hv] at hfound
        cases hfound
        exact List.mem_append_left _ ((mem_roots_iff_reached v).2 (.inl ⟨fields, hwithin, htyped⟩))
      · exact List.mem_append_right _ (ih hrest he)

/-- The file decodes, and every blob its rooted entries refer to is among `roots`. -/
def Covered (json : SerdeJson) (options : BlobGcOptions) (file : Bytes) (roots : List Hash32) :
    Prop :=
  ∃ entries, Commits json file entries ∧
    ∀ e ∈ rootedEntries options entries, ∀ d, RefersTo json e d → d ∈ roots

theorem covered_of_scan {json : SerdeJson} (h : scanJournal json options file = .ok found) :
    Covered json options file found := by
  rw [scanJournal] at h
  split at h
  · cases h
  next decoded hdecoded =>
  refine ⟨decoded.entries, ⟨decoded, hdecoded, rfl⟩, fun e he d href => ?_⟩
  have hroots : entryRoots json (rootedEntries options decoded.entries) = .ok found := by
    simp only at h
    split at h
    · split at h
      · cases h
      · exact h
    · exact h
  exact entryRoots_spec hroots he href

theorem Covered.mono (h : Covered json options file roots) (hsub : roots ⊆ roots') :
    Covered json options file roots' := by
  obtain ⟨entries, hcommits, hrefs⟩ := h
  exact ⟨entries, hcommits, fun e he d href => hsub (hrefs e he d href)⟩

/-! ## The invariant -/

/-- What holds of every collector's state in a reachable world. -/
def CollectorInv (P : Protocol) (s : World) : Collector → Prop
  | .scanning options todo roots => P.allowed options ∧ ∀ path file, s.files path = some file →
    path ∈ todo ∨ Covered P.json options file roots
  | .sweeping options roots candidates _ => P.allowed options ∧
    (∀ i, (s.writers i).staging = false) ∧
    (∀ path file, s.files path = some file → Covered P.json options file roots) ∧
    ∀ d, candidates d = true → d ∉ roots ∧
      ∀ modified, s.blobs d = some modified → modified + options.unreferencedGrace ≤ s.now
  | .failed e removed => removed ≠ [] → e = .blob ∨ e = .cancelled
  | _ => True

/-- The namespace lock excludes writers and other collectors, and every collector has covered
the journals it is past. -/
structure Inv (P : Protocol) (s : World) : Prop where
  alone : (s.collectors c).active = true → c' ≠ c → (s.collectors c').active = false
  noWriter : (s.collectors c).active = true → (s.writers i).journal = none
  collector : ∀ c, CollectorInv P s (s.collectors c)

variable {P : Protocol} {s s' : World}

/-- A step that leaves the collectors alone, with what their locks forbid it to touch. -/
theorem Inv.of_writer (h : Inv P s) (hcollectors : s'.collectors = s.collectors)
    (hnow : s.now ≤ s'.now)
    (hlocked : ∀ c, (s.collectors c).active = true →
      s'.files = s.files ∧ ∀ i, (s'.writers i).journal = (s.writers i).journal)
    (hswept : ∀ c, (s.collectors c).isSweeping = true →
      s'.blobs = s.blobs ∧ ∀ i, (s.writers i).staging = false → (s'.writers i).staging = false) :
    Inv P s' where
  alone := by
    rw [hcollectors]
    exact h.alone
  noWriter := by
    intro c i hc
    rw [hcollectors] at hc
    rw [(hlocked c hc).2]
    exact h.noWriter hc
  collector := by
    intro c
    rw [hcollectors]
    have hc := h.collector c
    cases hcol : s.collectors c with
    | idle => trivial
    | done => trivial
    | failed => rwa [hcol] at hc
    | scanning options todo roots =>
      rw [hcol] at hc
      obtain ⟨hfiles, -⟩ := hlocked c (by rw [hcol]; rfl)
      exact ⟨hc.1, by rw [hfiles]; exact hc.2⟩
    | sweeping options roots candidates removed =>
      rw [hcol] at hc
      obtain ⟨hallowed, hstaging, hcovered, hcand⟩ := hc
      obtain ⟨hfiles, -⟩ := hlocked c (by rw [hcol]; rfl)
      obtain ⟨hblobs, hstage⟩ := hswept c (by rw [hcol]; rfl)
      refine ⟨hallowed, fun i => hstage i (hstaging i), by rw [hfiles]; exact hcovered,
        fun d hd => ⟨(hcand d hd).1, fun m hm => ?_⟩⟩
      rw [hblobs] at hm
      exact ((hcand d hd).2 m hm).trans hnow

/-- A step of a collector that holds the namespace lock before it. -/
theorem Inv.of_collector (h : Inv P s) (hactive : (s.collectors c).active = true)
    (x : Collector) (hx : CollectorInv P s x) : Inv P (s.setCollector c x) where
  alone := by
    intro c₁ c₂ hc₁ hne
    simp only [World.setCollector, Function.update_apply] at hc₁ ⊢
    split at hc₁
    · next heq =>
      subst heq
      rw [if_neg hne]
      exact h.alone hactive hne
    · next hne₁ =>
      have := h.alone hactive hne₁
      rw [this] at hc₁
      cases hc₁
  noWriter := fun _ => h.noWriter hactive
  collector := by
    intro c'
    simp only [World.setCollector, Function.update_apply]
    split
    · exact hx
    · exact h.collector c'

theorem Inv.removeBlob (h : Inv P s) (d : Hash32) : Inv P (s.setBlob d none) where
  alone := h.alone
  noWriter := h.noWriter
  collector := by
    intro c
    have hc := h.collector c
    show CollectorInv P (s.setBlob d none) (s.collectors c)
    cases hcol : s.collectors c with
    | sweeping options roots candidates removed =>
      rw [hcol] at hc
      obtain ⟨hallowed, hstaging, hcovered, hcand⟩ := hc
      refine ⟨hallowed, hstaging, hcovered, fun d' hd' => ⟨(hcand d' hd').1, fun m hm => ?_⟩⟩
      simp only [World.setBlob, Function.update_apply] at hm
      split at hm
      · cases hm
      · exact (hcand d' hd').2 m hm
    | _ => rwa [hcol] at hc

theorem active_of_isSweeping {c : Collector} (h : c.isSweeping = true) : c.active = true := by
  cases c <;> first | rfl | cases h

theorem World.setWriter_journal (hw : w.journal = (s.writers i).journal) (j : Nat) :
    ((s.setWriter i w).writers j).journal = (s.writers j).journal := by
  simp only [World.setWriter, Function.update_apply]
  split
  · next heq => rw [heq, hw]
  · rfl

theorem World.setWriter_staging (hw : w.staging = false ∨ w.staging = (s.writers i).staging)
    (hj : (s.writers j).staging = false) : ((s.setWriter i w).writers j).staging = false := by
  simp only [World.setWriter, Function.update_apply]
  split
  · next heq => exact hw.elim (fun h => h) fun h => by rw [h, ← heq, hj]
  · exact hj

theorem Inv.collector_of (h : Inv P s) (hc : s.collectors c = x) : CollectorInv P s x :=
  hc ▸ h.collector c

/-- No put finishes during a sweep, since its stage shares the lock the sweep holds. -/
theorem Inv.not_staging (h : Inv P s) (hc : (s.collectors c).isSweeping = true) (i : Nat) :
    (s.writers i).staging = false := by
  cases hcol : s.collectors c with
  | sweeping options roots candidates removed => exact (h.collector_of hcol).2.1 i
  | _ => rw [hcol] at hc; cases hc

/-- Every step of every participant keeps the invariant. -/
theorem Inv.step (h : Inv P s) (hstep : Step P s s') : Inv P s' := by
  cases hstep with
  | tick hnow =>
    exact h.of_writer rfl hnow (fun _ _ => ⟨rfl, fun _ => rfl⟩) (fun _ _ => ⟨rfl, fun _ h => h⟩)
  | openJournal path _ _ hunlocked =>
    refine h.of_writer rfl le_rfl (fun c hc => ?_) (fun c hc => ?_)
    · rw [hunlocked c] at hc
      cases hc
    · have := active_of_isSweeping hc
      rw [hunlocked c] at this
      cases this
  | closeJournal =>
    refine h.of_writer rfl le_rfl (fun c hc => ⟨rfl, ?_⟩)
      (fun c _ => ⟨rfl, fun j => World.setWriter_staging (.inr rfl)⟩)
    exact World.setWriter_journal (h.noWriter hc).symm
  | write hjournal _ =>
    refine h.of_writer rfl le_rfl (fun c hc => ?_) (fun c hc => ?_)
    · rw [h.noWriter hc] at hjournal
      cases hjournal
    · rw [h.noWriter (active_of_isSweeping hc)] at hjournal
      cases hjournal
  | beginPut _ hsweeping =>
    refine h.of_writer rfl le_rfl (fun c _ => ⟨rfl, World.setWriter_journal rfl⟩) (fun c hc => ?_)
    rw [hsweeping c] at hc
    cases hc
  | abortPut =>
    exact h.of_writer rfl le_rfl (fun c _ => ⟨rfl, World.setWriter_journal rfl⟩)
      (fun c _ => ⟨rfl, fun j => World.setWriter_staging (.inl rfl)⟩)
  | finishPut hstaging =>
    refine h.of_writer rfl le_rfl (fun c _ => ⟨rfl, World.setWriter_journal rfl⟩) (fun c hc => ?_)
    rw [h.not_staging hc] at hstaging
    cases hstaging
  | dedupPut hstaging =>
    refine h.of_writer rfl le_rfl (fun c _ => ⟨rfl, World.setWriter_journal rfl⟩) (fun c hc => ?_)
    rw [h.not_staging hc] at hstaging
    cases hstaging
  | start hallowed _ hclosed hunlocked htodo =>
    refine ⟨fun {c₁ c₂} hc₁ hne => ?_, fun _ => hclosed _, fun c' => ?_⟩
    · simp only [World.setCollector, Function.update_apply] at hc₁ ⊢
      split at hc₁
      · next heq =>
        rw [if_neg (heq ▸ hne)]
        exact hunlocked _
      · rw [hunlocked] at hc₁
        cases hc₁
    · simp only [World.setCollector, Function.update_apply]
      split
      · exact ⟨hallowed, fun path file hfile => .inl (htodo path (by rw [hfile]; simp))⟩
      · exact h.collector c'
  | scan hcol hfile hscan =>
    have hinv := h.collector_of hcol
    refine h.of_collector (by rw [hcol]; rfl) _ ⟨hinv.1, fun path' file' hfile' => ?_⟩
    rcases hinv.2 path' file' hfile' with htodo | hcovered
    · rcases List.mem_cons.1 htodo with rfl | htodo
      · rw [hfile] at hfile'
        cases hfile'
        exact .inr ((covered_of_scan hscan).mono (List.subset_append_left ..))
      · exact .inl htodo
    · exact .inr (hcovered.mono (List.subset_append_right ..))
  | scanFails hcol => exact h.of_collector (by rw [hcol]; rfl) _ fun hne => absurd rfl hne
  | sweep hcol hstaging =>
    have hinv := h.collector_of hcol
    refine h.of_collector (by rw [hcol]; rfl) _ ⟨hinv.1, hstaging, fun path file hfile => ?_,
      fun d hd => ?_⟩
    · exact (hinv.2 path file hfile).resolve_left (by simp)
    · simp only [Bool.and_eq_true, decide_eq_true_eq] at hd
      refine ⟨hd.1, fun m hm => ?_⟩
      have hold := hd.2
      rw [hm, Option.any_some, oldEnough, Bool.and_eq_true, decide_eq_true_eq,
        decide_eq_true_eq] at hold
      show m + _ ≤ s.now
      omega
  | remove d hcol _ _ =>
    have hinv := (h.removeBlob d).collector_of hcol
    exact (h.removeBlob d).of_collector (congrArg Collector.active hcol) _ hinv
  | finish hcol => exact h.of_collector (by rw [hcol]; rfl) _ trivial
  | sweepFails hcol he => exact h.of_collector (by rw [hcol]; rfl) _ fun _ => he

theorem Reachable.inv (h : Reachable P s) : Inv P s := by
  induction h with
  | refl =>
    refine ⟨fun hc => ?_, fun _ => rfl, fun _ => trivial⟩
    cases hc
  | tail _ hstep ih => exact ih.step hstep

/-! ## Results -/

/-- A blob disappears only when a collector removes it. -/
theorem Step.removed (hstep : Step P s s') (hd : s.blobs d ≠ none) (hd' : s'.blobs d = none) :
    ∃ c options roots candidates removed,
      s.collectors c = .sweeping options roots candidates removed ∧ options.apply = true ∧
        candidates d = true := by
  cases hstep with
  | finishPut | dedupPut =>
    simp only [World.setBlob, World.setWriter, Function.update_apply] at hd'
    split at hd'
    · cases hd'
    · exact absurd hd' hd
  | remove d' hcol happly hcand =>
    simp only [World.setBlob, World.setCollector, Function.update_apply] at hd'
    split at hd'
    · next heq => exact ⟨_, _, _, _, _, hcol, happly, heq ▸ hcand⟩
    · exact absurd hd' hd
  | _ => exact absurd hd' hd

/-- When a blob is removed, every journal in the directory decodes and no entry that roots its
references refers to it. -/
theorem removed_unreferenced (h : Reachable P s) (hstep : Step P s s') (hd : s.blobs d ≠ none)
    (hd' : s'.blobs d = none) :
    ∃ options, P.allowed options ∧ options.apply = true ∧
      ∀ path file, s.files path = some file → ∃ entries, Commits P.json file entries ∧
        ∀ e ∈ rootedEntries options entries, ¬ RefersTo P.json e d := by
  obtain ⟨c, options, roots, candidates, removed, hcol, happly, hcand⟩ := hstep.removed hd hd'
  obtain ⟨hallowed, -, hcovered, hcandidates⟩ := h.inv.collector_of hcol
  refine ⟨options, hallowed, happly, fun path file hfile => ?_⟩
  obtain ⟨entries, hcommits, hroots⟩ := hcovered path file hfile
  exact ⟨entries, hcommits, fun e he href => (hcandidates d hcand).1 (hroots e he d href)⟩

/-- Collectors keep abandoned history rooted and wait at least `grace`; a writer commits a new
reference only under a put that protects it. -/
structure Protocol.Careful (P : Protocol) (grace : Nat) : Prop where
  retains : ∀ options, P.allowed options →
    options.retainAbandoned = true ∧ grace ≤ options.unreferencedGrace
  commits : ∀ (s : World) w path file d, P.mayWrite s w path file → Refers P.json file d →
    (∃ old, s.files path = some old ∧ Refers P.json old d) ∨ w.Protects s.now grace d

/-- Referenced blobs are there, and so is what protects a reference about to be committed. -/
structure Present (P : Protocol) (grace : Nat) (s : World) : Prop where
  modified : ∀ {d m}, s.blobs d = some m → m ≤ s.now
  leased : ∀ {d i}, d ∈ (s.writers i).leased → (s.writers i).journal ≠ none ∧ s.blobs d ≠ none
  puts : ∀ {d t i}, (d, t) ∈ (s.writers i).puts →
    (∃ m, s.blobs d = some m ∧ t ≤ m) ∨ t + grace ≤ s.now
  refs : ∀ {path file d}, s.files path = some file → Refers P.json file d → s.blobs d ≠ none

theorem not_refers_nil (json : SerdeJson) (d : Hash32) : ¬ Refers json [] d := by
  rintro ⟨entries, ⟨decoded, hdecoded, rfl⟩, e, he, -⟩
  have hnone : ∀ e ∈ ([] : List Entry), Writable json e := by simp
  have hempty := decodeCommitted_frames hnone rfl framing.next_nil (Nat.zero_le _)
    (show (wholeFile []).bytes = frames [] ++ [] from rfl)
  rw [hempty] at hdecoded
  obtain ⟨_, -, rfl⟩ := Except.map_eq_ok.1 hdecoded
  cases he

/-- A step that removes no blob. -/
theorem Present.of_blobs (h : Present P grace s) (hnow : s.now ≤ s'.now)
    (hblobs : ∀ d m, s.blobs d = some m → ∃ m', s'.blobs d = some m' ∧ m ≤ m')
    (hmodified : ∀ d m, s'.blobs d = some m → m ≤ s'.now)
    (hleased : ∀ i d, d ∈ (s'.writers i).leased → (s'.writers i).journal ≠ none ∧
      (d ∈ (s.writers i).leased ∨ s'.blobs d ≠ none))
    (hputs : ∀ i d t, (d, t) ∈ (s'.writers i).puts → (d, t) ∈ (s.writers i).puts ∨
      ∃ m, s'.blobs d = some m ∧ t ≤ m)
    (hrefs : ∀ path file d, s'.files path = some file → Refers P.json file d →
      s.blobs d ≠ none) : Present P grace s' := by
  have hkeep : ∀ d, s.blobs d ≠ none → s'.blobs d ≠ none := by
    intro d hd
    obtain ⟨m, hm⟩ := Option.ne_none_iff_exists'.1 hd
    obtain ⟨m', hm', -⟩ := hblobs d m hm
    simp [hm']
  refine ⟨hmodified _ _, fun hd => ?_, fun hp => ?_, fun hf hr => hkeep _ (hrefs _ _ _ hf hr)⟩
  · obtain ⟨hjournal, hd⟩ := hleased _ _ hd
    exact ⟨hjournal, hd.elim (fun hd => hkeep _ (h.leased hd).2) fun hd => hd⟩
  · rcases hputs _ _ _ hp with hp | hp
    · rcases h.puts hp with ⟨m, hm, hle⟩ | hle
      · obtain ⟨m', hm', hle'⟩ := hblobs _ m hm
        exact .inl ⟨m', hm', hle.trans hle'⟩
      · exact .inr (hle.trans hnow)
    · exact .inl hp

/-- A step that leaves the blobs and the journal files alone. -/
theorem Present.of_same (h : Present P grace s) (hnow : s.now ≤ s'.now) (hblobs : s'.blobs = s.blobs)
    (hfiles : s'.files = s.files)
    (hleased : ∀ i d, d ∈ (s'.writers i).leased →
      (s'.writers i).journal ≠ none ∧ d ∈ (s.writers i).leased)
    (hputs : ∀ i d t, (d, t) ∈ (s'.writers i).puts → (d, t) ∈ (s.writers i).puts) :
    Present P grace s' := by
  refine h.of_blobs hnow (fun d m hm => ⟨m, by rw [hblobs, hm], le_rfl⟩) (fun d m hm => ?_)
    (fun i d hd => ⟨(hleased i d hd).1, .inl (hleased i d hd).2⟩)
    (fun i d t hp => .inl (hputs i d t hp)) (fun path file d hf => ?_)
  · rw [hblobs] at hm
    exact (h.modified hm).trans hnow
  · rw [hfiles] at hf
    exact h.refs hf

/-- A step of one writer that leaves the blobs and the journal files alone. -/
theorem Present.of_setWriter (h : Present P grace s) (hputs : w.puts = (s.writers i).puts)
    (hleased : ∀ d ∈ w.leased, w.journal ≠ none ∧ d ∈ (s.writers i).leased) :
    Present P grace (s.setWriter i w) := by
  refine h.of_same le_rfl rfl rfl (fun j d hd => ?_) (fun j d t hp => ?_) <;>
    simp only [World.setWriter, Function.update_apply] at *
  · split at hd
    · next heq => rw [if_pos heq, heq]; exact hleased d hd
    · next hne => rw [if_neg hne]; exact ⟨(h.leased hd).1, hd⟩
  · split at hp
    · next heq => rw [heq, ← hputs]; exact hp
    · exact hp

/-- A finished put, of a new blob or of one already there. -/
theorem Present.put (h : Present P grace s) (hle : ∀ m, s.blobs d = some m → m ≤ t)
    (ht : t ≤ s.now) :
    Present P grace ((s.setBlob d (some t)).setWriter i
      { s.writers i with
        staging := false
        leased := if (s.writers i).journal.isSome then d :: (s.writers i).leased
          else (s.writers i).leased
        puts := (d, t) :: (s.writers i).puts }) := by
  refine h.of_blobs le_rfl (fun d' m hm => ?_) (fun d' m hm => ?_) (fun j d' hd => ?_)
    (fun j d' t' hp => ?_) (fun path file d' hf => h.refs hf) <;>
    simp only [World.setWriter, World.setBlob, Function.update_apply] at *
  · split
    · next heq => exact ⟨t, rfl, hle m (heq ▸ hm)⟩
    · exact ⟨m, hm, le_rfl⟩
  · split at hm
    · cases hm
      exact ht
    · exact h.modified hm
  · by_cases hj : j = i
    · subst hj
      simp only [if_true] at hd ⊢
      split at hd
      · next hopen =>
        refine ⟨Option.isSome_iff_ne_none.1 hopen, ?_⟩
        rcases List.mem_cons.1 hd with rfl | hd
        · exact .inr (by simp)
        · exact .inl hd
      · exact ⟨(h.leased hd).1, .inl hd⟩
    · simp only [if_neg hj] at hd ⊢
      exact ⟨(h.leased hd).1, .inl hd⟩
  · by_cases hj : j = i
    · subst hj
      simp only [if_true] at hp
      rcases List.mem_cons.1 hp with hp | hp
      · cases hp
        exact .inr ⟨t, by simp, le_rfl⟩
      · exact .inl hp
    · rw [if_neg hj] at hp
      exact .inl hp

/-- A writer's commit refers only to blobs that are there. -/
theorem Present.write (h : Present P grace s) (hcareful : P.Careful grace)
    (hwrite : P.mayWrite s (s.writers i) path file) : Present P grace (s.setFile path file) := by
  refine h.of_blobs le_rfl (fun d m hm => ⟨m, hm, le_rfl⟩) (fun d m hm => h.modified hm)
    (fun j d hd => ⟨(h.leased hd).1, .inl hd⟩) (fun j d t hp => .inl hp)
    (fun path' file' d hf hr => ?_)
  simp only [World.setFile, Function.update_apply] at hf
  split at hf
  · cases hf
    rcases hcareful.commits _ _ _ _ _ hwrite hr with ⟨old, hold, hr⟩ | hleased | ⟨t, hput, ht⟩
    · exact h.refs hold hr
    · exact (h.leased hleased).2
    · rcases h.puts hput with ⟨m, hm, -⟩ | hexpired
      · simp [hm]
      · omega
  · exact h.refs hf hr

/-- A sweep that waits out the grace period removes nothing that is referenced, leased or freshly
put. -/
theorem Present.remove (h : Present P grace s) (hinv : Inv P s) (hcareful : P.Careful grace)
    (hcol : s.collectors c = .sweeping options roots candidates removed)
    (hcand : candidates d = true) : Present P grace (s.setBlob d none) := by
  obtain ⟨hallowed, -, hcovered, hcandidates⟩ := hinv.collector_of hcol
  obtain ⟨hretain, hgrace⟩ := hcareful.retains _ hallowed
  obtain ⟨hroots, hold⟩ := hcandidates d hcand
  have hother : ∀ d' m, (s.setBlob d none).blobs d' = some m → s.blobs d' = some m := by
    intro d' m hm
    simp only [World.setBlob, Function.update_apply] at hm
    split at hm
    · cases hm
    · exact hm
  have hkeep : ∀ d' m, d' ≠ d → s.blobs d' = some m → (s.setBlob d none).blobs d' = some m := by
    intro d' m hne hm
    simpa only [World.setBlob, Function.update_apply, if_neg hne] using hm
  refine ⟨fun hm => h.modified (hother _ _ hm), fun {d' i} hd => ?_, fun {d' t i} hp => ?_,
    fun {path file d'} hf hr => ?_⟩
  · -- the collector's namespace lock means that no journal is open, so nothing is leased
    have hactive : (s.collectors c).active = true := by
      rw [hcol]
      rfl
    exact absurd (hinv.noWriter hactive) (h.leased hd).1
  · rcases h.puts hp with ⟨m, hm, hle⟩ | hexpired
    · by_cases heq : d' = d
      · subst heq
        have := hold m hm
        exact .inr (show t + grace ≤ s.now by omega)
      · exact .inl ⟨m, hkeep d' m heq hm, hle⟩
    · exact .inr hexpired
  · have hne : d' ≠ d := by
      rintro rfl
      obtain ⟨entries, hcommits, e, he, href⟩ := hr
      obtain ⟨entries', ⟨decoded', hdecoded', rfl⟩, hrefs⟩ := hcovered path file hf
      obtain ⟨decoded, hdecoded, rfl⟩ := hcommits
      rw [hdecoded] at hdecoded'
      cases hdecoded'
      refine hroots (hrefs e ?_ _ href)
      rw [rootedEntries, if_pos hretain]
      exact he
    obtain ⟨m, hm⟩ := Option.ne_none_iff_exists'.1 (h.refs hf hr)
    rw [hkeep d' m hne hm]
    simp

theorem Present.setCollector (h : Present P grace s) (c : Nat) (x : Collector) :
    Present P grace (s.setCollector c x) :=
  h.of_same le_rfl rfl rfl (fun _ _ hd => ⟨(h.leased hd).1, hd⟩) (fun _ _ _ hp => hp)

/-- Every step of a careful protocol keeps the referenced blobs present. -/
theorem Present.step (h : Present P grace s) (hinv : Inv P s) (hcareful : P.Careful grace)
    (hstep : Step P s s') : Present P grace s' := by
  cases hstep with
  | tick hnow =>
    exact h.of_same hnow rfl rfl (fun _ _ hd => ⟨(h.leased hd).1, hd⟩) (fun _ _ _ hp => hp)
  | openJournal path _ _ _ =>
    have hopened : Present P grace (s.setFile path ((s.files path).getD [])) := by
      refine h.of_blobs le_rfl (fun d m hm => ⟨m, hm, le_rfl⟩) (fun d m hm => h.modified hm)
        (fun j d hd => ⟨(h.leased hd).1, .inl hd⟩) (fun j d t hp => .inl hp)
        (fun path' file' d hf hr => ?_)
      simp only [World.setFile, Function.update_apply] at hf
      split at hf
      · cases hf
        cases hold : s.files path with
        | none => rw [hold] at hr; exact absurd hr (not_refers_nil P.json d)
        | some old => rw [hold] at hr; exact h.refs hold hr
      · exact h.refs hf hr
    exact hopened.of_setWriter rfl (fun d hd => absurd hd List.not_mem_nil)
  | closeJournal => exact h.of_setWriter rfl (fun d hd => absurd hd List.not_mem_nil)
  | write _ hwrite => exact h.write hcareful hwrite
  | beginPut | abortPut => exact h.of_setWriter rfl (fun d hd => ⟨(h.leased hd).1, hd⟩)
  | finishPut _ hnone ht =>
    refine h.put (fun m hm => ?_) ht
    rw [hnone] at hm
    cases hm
  | dedupPut => exact h.put (fun m hm => h.modified hm) le_rfl
  | start | scan | scanFails | sweep | finish | sweepFails => exact h.setCollector _ _
  | remove d hcol _ hcand => exact (h.remove hinv hcareful hcol hcand).setCollector _ _

theorem Reachable.present (h : Reachable P s) (hcareful : P.Careful grace) :
    Present P grace s := by
  induction h with
  | refl =>
    refine ⟨fun hm => ?_, fun hd => ?_, fun hp => ?_, fun hf => ?_⟩
    · cases hm
    · cases hd
    · cases hp
    · cases hf
  | tail hrun hstep ih => exact ih.step (Reachable.inv hrun) hcareful hstep

/-- The payload of an entry that refers to `zeroDigest`. -/
def zeroRef : String :=
  "\x7b\"h\":\"" ++ String.ofList (List.replicate 64 '0') ++ "\",\"n\":0\x7d"

/-- `serde_json` on the payloads of `branch`. -/
def branchJson : SerdeJson where
  ignoredAny text := sampleJson.ignoredAny text || text = zeroRef
  headerVersion := sampleJson.headerVersion
  value text := (sampleJson.value text).or <|
    if text = zeroRef then
      some (.object [("h", .string (String.ofList (List.replicate 64 '0'))),
        ("n", .number (.posInt 0))])
    else none

/-- The second entry of a branch and the third, whose `prior` abandons the second. -/
def branchPatch (n : Fin 4) (prior : Option EntryId) (data : String) : Entry where
  id := ⟨n.val, n.isLt.trans (by decide)⟩
  kind := .known .patch
  by_ := some (sampleGenesis "\x7b\"version\":1\x7d").id
  prior := prior
  label := none
  data := data

def branch : List Entry :=
  [sampleGenesis "\x7b\"version\":1\x7d", branchPatch 1 none zeroRef,
    branchPatch 2 (sampleGenesis "\x7b\"version\":1\x7d").id "\x7b\x7d"]

theorem branch_writable : ∀ e ∈ branch, Writable branchJson e := by
  have hwritable : ∀ e, encode branchJson e [] = .ok (frameBytes e) → Writable branchJson e :=
    fun e h => ⟨(encode_eq_ok.1 h).1, (encode_eq_ok.1 h).2.1⟩
  intro e he
  simp only [branch, List.mem_cons, List.not_mem_nil, or_false] at he
  rcases he with rfl | rfl | rfl
  · exact hwritable _ (by decide +kernel)
  · exact hwritable _ (by decide +kernel)
  · exact hwritable _ (by decide +kernel)

theorem encodeAll_eq_ok {json : SerdeJson} (h : ∀ e ∈ entries, Writable json e) (output : Bytes) :
    encodeAll json entries output = .ok (output ++ frames entries) := by
  induction entries generalizing output with
  | nil => simp [encodeAll]
  | cons e entries ih =>
    have he := h e (by simp)
    have hencode : encode json e output = .ok (output ++ frameBytes e) :=
      encode_eq_ok.2 ⟨he.toEncodable, he.frameLen, rfl⟩
    rw [encodeAll, hencode]
    simp only
    rw [ih (fun e' he' => h e' (by simp [he']))]
    simp [frames]

/-- The size estimate never fails on a file of written frames. -/
theorem scanJournal_eq {json : SerdeJson} (h : decodeCommitted json (wholeFile file) = .ok decoded)
    (hw : ∀ e ∈ decoded.entries, Writable json e) :
    scanJournal json options file = entryRoots json (rootedEntries options decoded.entries) := by
  have hlive : ∀ e ∈ liveChain decoded.entries, Writable json e := by
    intro e he
    obtain ⟨i, -, hi⟩ := List.mem_filterMap.1 he
    exact hw e (List.mem_of_getElem? hi)
  simp only [scanJournal, h, encodeAll_eq_ok hlive, ite_self]

theorem wholeFile_bytes (file : Bytes) : (wholeFile file).bytes = file := by
  by_cases h : file = []
  · simp [wholeFile, Reader.bytes, h]
  · simp [wholeFile, Reader.bytes, h]

theorem branch_decodes : decodeCommitted branchJson (wholeFile (frames branch)) =
    .ok { entries := branch, cleanLen := (frames branch).length, tornLen := 0 } := by
  rw [decodeCommitted_frames branch_writable rfl framing.next_nil (Nat.zero_le _)
    (show _ = frames branch ++ [] by rw [wholeFile_bytes, List.append_nil])]
  rfl

def discarding : BlobGcOptions := ⟨true, false, 0⟩

def retaining : BlobGcOptions := ⟨true, true, 0⟩

/-- Writers commit `branch` alone, under a lease during which they put its blob, and collectors run
with the given options. -/
def branchProtocol (options : BlobGcOptions) : Protocol where
  json := branchJson
  allowed o := o = options
  mayWrite _ w _ file := file = frames branch ∧ zeroDigest ∈ w.leased

theorem branch_refers : Refers branchJson (frames branch) zeroDigest :=
  ⟨branch, ⟨_, branch_decodes, rfl⟩, branchPatch 1 none zeroRef, by simp [branch],
    _, _, rfl, .refl _, .inl ⟨_, 0, rfl, rfl, by decide +kernel⟩⟩

theorem scanJournal_branch : scanJournal branchJson discarding (frames branch) = .ok [] := by
  rw [scanJournal_eq branch_decodes branch_writable]
  decide +kernel

/-- The blob is put under the lease of journal `a`, an entry that the next one abandons refers to
it, and the journal is closed again. -/
theorem branch_reachable (options : BlobGcOptions) : ∃ s, Reachable (branchProtocol options) s ∧
    s.files "a" = some (frames branch) ∧ (∀ path, s.files path ≠ none → path ∈ ["a"]) ∧
    s.blobs zeroDigest = some 0 ∧ (∀ i, (s.writers i).journal = none) ∧
    (∀ i, (s.writers i).staging = false) ∧ ∀ c, s.collectors c = .idle := by
  have h₁ := Relation.ReflTransGen.single (r := Step (branchProtocol options))
    (Step.openJournal (s := {}) (i := 0) "a" rfl (fun _ h => nomatch h) (fun _ => rfl))
  have h₂ := h₁.tail (Step.beginPut (i := 0) rfl (fun _ => rfl))
  have h₃ := h₂.tail (Step.finishPut (i := 0) (d := zeroDigest) (t := 0) rfl rfl le_rfl)
  have h₄ := h₃.tail (Step.write (i := 0) rfl ⟨rfl, List.mem_singleton.2 rfl⟩)
  refine ⟨_, h₄.tail (Step.closeJournal (i := 0)), ?_, fun path hpath => ?_, ?_, fun i => ?_,
    fun i => ?_, fun _ => rfl⟩
  · simp [World.setFile, World.setWriter]
  · simp only [World.setFile, World.setWriter, World.setBlob, Function.update_apply] at hpath
    by_contra hne
    rw [List.mem_singleton] at hne
    simp [hne] at hpath
  · simp [World.setFile, World.setWriter, World.setBlob]
  · by_cases hi : i = 0 <;>
      simp [hi, World.setFile, World.setBlob, World.setWriter]
  · by_cases hi : i = 0 <;>
      simp [hi, World.setFile, World.setBlob, World.setWriter]

theorem branchProtocol_careful : (branchProtocol retaining).Careful 0 where
  retains := by
    rintro options rfl
    exact ⟨rfl, le_rfl⟩
  commits := by
    rintro s w path file d ⟨rfl, hleased⟩ ⟨entries, ⟨decoded, hdecoded, rfl⟩, e, he, href⟩
    have hroots : entryRoots branchJson branch = .ok [zeroDigest] := by decide +kernel
    cases branch_decodes.symm.trans hdecoded
    rw [List.mem_singleton.1 (entryRoots_spec hroots he href)]
    exact .inr (.inl hleased)

theorem World.setCollector_self (s : World) (c : Nat) (x : Collector) :
    (s.setCollector c x).collectors c = x := Function.update_self ..

end OhMyPi.Gc
