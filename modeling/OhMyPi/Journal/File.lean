import OhMyPi.Journal.SseLemmas

/-! The journal file and its single writer (`journal/src/lib.rs`): decoding the committed prefix,
history validation, recovery of a torn tail on `open`, and durable `append`. The advisory locks
are modelled with the collector; here one writer owns the file. -/

namespace OhMyPi

open Sse
open Text (isEol)

inductive JournalError where
  | io
  | frame (source : SseError)
  | unknownKind (kind : Kind)
  | newerRevision (kind : Kind)
  | newerGenesisVersion (found supported : UInt32)
  | missingCause (kind : Kind)
  | genesisMustBeFirst
  | genesisOnlyFirst
  | unknownPrior (id : EntryId)
  | duplicateId (id : EntryId)
  | dataTooLarge (len : Nat)
  | multilineData
  | multilineLabel
  | invalidData
  | frameTooLarge (limit : Nat)
  | ulid (source : UlidGenerationError)
deriving DecidableEq

/-- Newest genesis format this build reads and writes, `data::GENESIS_VERSION`. -/
def genesisVersion : UInt32 := 1

/-- The genesis kind, `journal@1`. -/
def isGenesis (kind : Kind) : Bool := kind.name = "journal" && kind.rev = 1

section

variable (json : SerdeJson)

/-- The branch link names an earlier entry. -/
def validatePrior (prior : Option EntryId) (ids : List EntryId) : Except JournalError Unit :=
  match prior with
  | none => .ok ()
  | some prior => if prior ∉ ids then .error (.unknownPrior prior) else .ok ()

/-- `validate_fields`: the rules a draft or a decoded entry obeys at position `index`, when `ids`
are the identities before it. -/
def validateFields (kind : Kind) (by_ prior : Option EntryId) (label : Option String)
    (data : String) (index : Nat) (ids : List EntryId) : Except JournalError Unit :=
  if !kind.isKnown then .error (.unknownKind kind)
  else if !isGenesis kind && by_.isNone then .error (.missingCause kind)
  else if index = 0 && !isGenesis kind then .error .genesisMustBeFirst
  else if index ≠ 0 && isGenesis kind then .error .genesisOnlyFirst
  else do
    validatePrior prior ids
    if strLen data > dataHardCap then .error (.dataTooLarge (strLen data))
    else if data.toList.any isEol then .error .multilineData
    else if label.any (·.toList.any isEol) then .error .multilineLabel
    else if !json.ignoredAny data then .error .invalidData
    else .ok ()

def validateDraft (draft : EntryDraft) (index : Nat) (ids : List EntryId) :
    Except JournalError Unit :=
  validateFields json draft.kind draft.by_ draft.prior draft.label draft.data index ids

def validateEntry (entry : Entry) (index : Nat) (ids : List EntryId) : Except JournalError Unit :=
  validateFields json entry.kind entry.by_ entry.prior entry.label entry.data index ids

/-- The loop of `validate_history` from position `index` on. -/
def validateFrom (index : Nat) (ids : List EntryId) : List Entry → Except JournalError Unit
  | [] => .ok ()
  | entry :: entries => do
    validateEntry json entry index ids
    if entry.id ∈ ids then .error (.duplicateId entry.id)
    else validateFrom (index + 1) (ids ++ [entry.id]) entries

/-- `validate_history`. -/
def validateHistory (entries : List Entry) : Except JournalError Unit :=
  validateFrom json 0 [] entries

/-- `validate_genesis_version`: refuses a journal written by a newer format. -/
def validateGenesisVersion (entries : List Entry) : Except JournalError Unit :=
  match entries.head?.bind fun genesis => json.headerVersion genesis.data with
  | some found =>
    if found > genesisVersion then .error (.newerGenesisVersion found genesisVersion) else .ok ()
  | none => .ok ()

/-- The committed content of a journal file. -/
structure Decoded where
  entries : List Entry
  /-- Byte offset of the last commit point. -/
  cleanLen : Nat
  /-- Bytes after the last commit point. -/
  tornLen : Nat
deriving DecidableEq

theorem readBlock_complete_lt (h : readBlock reader = (.complete, block, reader')) :
    reader'.bytes.length < reader.bytes.length := by
  have hagrees := readBlock_agrees reader
  rw [h] at hagrees
  obtain ⟨hkind, hrest⟩ := hagrees
  obtain ⟨-, hbytes⟩ := hrest (by simp)
  rw [show reader'.bytes = _ from hbytes]
  simp only [nextBlock] at hkind ⊢
  split at hkind
  · next hnext =>
    split at hkind
    · rw [if_pos ‹_›]
      exact Framing.length_lt_of_next hnext
    · cases hkind
  · split at hkind
    · split at hkind <;> cases hkind
    · cases hkind

/-- A kind outside the closed vocabulary is reported as written by a newer revision. -/
def mapSseReadError : SseError → JournalError
  | .unknownKind kind => .newerRevision kind
  | source => .frame source

/-- The loop of `decode_committed`. -/
def decodeFrom (reader : Reader) (entries : List Entry) (cleanLen : Nat) :
    Except JournalError Decoded :=
  match _h : readBlock reader with
  | (.end_, _, _) => .ok { entries, cleanLen, tornLen := 0 }
  | (.torn, block, _) => .ok { entries, cleanLen, tornLen := block.length }
  | (.tooLarge, _, _) => .error (.frameTooLarge frameHardCap)
  | (.complete, block, reader') =>
    if isBlank block then decodeFrom reader' entries (cleanLen + block.length)
    else match parseFrame json block with
      | .ok entry => decodeFrom reader' (entries ++ [entry]) (cleanLen + block.length)
      | .error source => .error (mapSseReadError source)
termination_by reader.bytes.length
decreasing_by all_goals exact readBlock_complete_lt _h

/-- `decode_committed`. -/
def decodeCommitted (reader : Reader) : Except JournalError Decoded := do
  let decoded ← decodeFrom json reader [] 0
  validateHistory json decoded.entries
  validateGenesisVersion json decoded.entries
  return decoded

/-- `Journal::scan`: the committed entries, without truncating a torn tail. -/
def scan (reader : Reader) : Except JournalError (List Entry) :=
  (decodeCommitted json reader).map Decoded.entries

end

/-- The single writer for one session journal. -/
structure Journal where
  /-- The bytes of the `.oms` file. -/
  file : Bytes := []
  generator : MonotonicUlid := {}
  ids : List EntryId := []
  entryCount : Nat := 0
  recoveredTailBytes : Nat := 0

/-- How the durable write of one frame ends: both calls succeed, `write_all` fails after some
bytes reached the file, or `sync_data` fails after all of them did. -/
inductive WriteOutcome where
  | ok
  | writeFails (written : Nat)
  | syncFails
deriving DecidableEq

/-- `map_sse_write_error`. -/
def mapSseWriteError : SseError → JournalError
  | .dataTooLarge len => .dataTooLarge len
  | .multilineData => .multilineData
  | .multilineLabel => .multilineLabel
  | .invalidData => .invalidData
  | .frameTooLarge limit => .frameTooLarge limit
  | other => .frame other

namespace Journal

/-- `Journal::create`: a new empty journal. -/
def create : Journal := {}

variable (json : SerdeJson)

/-- The greater of the floor so far and the next identity. -/
def raiseFloor (floor : Option EntryId) (id : EntryId) : Option EntryId :=
  match floor with
  | none => some id
  | some prior => some (if prior.val ≤ id.val then id else prior)

/-- `Journal::open`: the committed entries of the file that `reader` delivers, and a writer for
it with the torn tail truncated. -/
def «open» (reader : Reader) : Except JournalError (Journal × List Entry) := do
  let decoded ← decodeCommitted json reader
  let file := if decoded.tornLen ≠ 0 then reader.bytes.take decoded.cleanLen else reader.bytes
  let ids := decoded.entries.map (·.id)
  -- The generator continues above the greatest identity in the file.
  return ({ file, generator := .seeded (ids.foldl raiseFloor none), ids,
            entryCount := decoded.entries.length, recoveredTailBytes := decoded.tornLen },
          decoded.entries)

/-- `Journal::append`, with the clock and entropy it reads and the outcome of its durable write.
The writer's bookkeeping follows only after the sync. -/
def append (j : Journal) (tick : Tick) (outcome : WriteOutcome) (draft : EntryDraft) :
    Except JournalError Entry × Journal :=
  match validateDraft json draft j.entryCount j.ids with
  | .error e => (.error e, j)
  | .ok () =>
    match j.generator.generate tick with
    | .error e => (.error (.ulid e), j)
    | .ok (id, generator) =>
      let entry := draft.toEntry id
      match encode json entry [] with
      | .error e => (.error (mapSseWriteError e), { j with generator })
      | .ok encoded =>
        match outcome with
        | .writeFails written =>
          (.error .io, { j with generator, file := j.file ++ encoded.take written })
        | .syncFails => (.error .io, { j with generator, file := j.file ++ encoded })
        | .ok => (.ok entry, { j with generator, file := j.file ++ encoded,
                                      ids := j.ids ++ [id], entryCount := j.entryCount + 1 })

end Journal

end OhMyPi
