import OhMyPi.Docserver.Disk

/-! Prepared writes, deletions and moves of the document server and their commits
(`docserver/fs.rs`), each system call one step of the run. Flushing a directory changes no entry and
its result is ignored, so it is left out. -/

namespace OhMyPi.Docserver

open PathWalk (Name)

/-- `FileFingerprint`. -/
structure Fingerprint (Hash : Type) where
  metadata : FileMetadata
  contentHash : Hash
  deriving DecidableEq

inductive DiskState (Hash : Type) where
  | present (content : List UInt8) (fingerprint : Fingerprint Hash)
  | missing
  deriving DecidableEq

inductive DiskExpectation (Hash : Type) where
  | present (fingerprint : Fingerprint Hash)
  | missing
  deriving DecidableEq

/-- The parts of `LocalFsInner` that commits use, and the process they run in. -/
structure FileStore (Hash : Type) where
  owner : Nat
  hash : List UInt8 → Hash
  maxDocumentBytes : Nat
  processId : Nat

/-- A same-directory temporary awaiting its commit. -/
structure PreparedWrite (Hash : Type) where
  owner : Nat
  parent : DirectoryIdentity
  destinationPath : List UInt8
  destinationName : Name
  temporaryName : Name
  expected : DiskExpectation Hash
  installedState : DiskState Hash

structure PreparedEntry (Hash : Type) where
  parent : DirectoryIdentity
  path : List UInt8
  name : Name
  expected : DiskExpectation Hash

structure PreparedDelete (Hash : Type) where
  owner : Nat
  target : PreparedEntry Hash

structure PreparedMove (Hash : Type) where
  owner : Nat
  source : PreparedEntry Hash
  destination : PreparedEntry Hash
  content : Option (PreparedWrite Hash)

def PreparedWrite.temporary (prepared : PreparedWrite Hash) : Place :=
  ⟨prepared.parent, prepared.temporaryName⟩

def PreparedWrite.destination (prepared : PreparedWrite Hash) : Place :=
  ⟨prepared.parent, prepared.destinationName⟩

def PreparedEntry.place (entry : PreparedEntry Hash) : Place := ⟨entry.parent, entry.name⟩

def PreparedEntry.staleEntry (entry : PreparedEntry Hash) : Failure := .staleDiskState entry.path

variable {Hash : Type} [DecidableEq Hash]

def expectationMatches : DiskExpectation Hash → DiskState Hash → Bool
  | .missing, .missing => true
  | .present expected, .present _ fingerprint => expected = fingerprint
  | _, _ => false

/-- Whether the state of a displaced file could be read and is the expected one. -/
def readAgrees (expected : Fingerprint Hash) : Except Failure (DiskState Hash) → Bool
  | .ok state => expectationMatches (.present expected) state
  | .error _ => false

/-- Runs a computation and hands its failure to the caller as a value. -/
def capture (x : Action Run Failure α) : Action Run Failure (Except Failure α) := fun r =>
  let (result, r) := x r
  (.ok result, r)

/-- A system call whose failures all become one error. -/
def require (call : Action Run Failure (Except IoKind α)) (operation : String) (path : List UInt8) :
    Action Run Failure α := do
  match ← call with
  | .ok a => return a
  | .error source => Action.fail (.io operation path source)

/-- Whether the parent directory of a prepared commit is still the one it was prepared in. -/
def parentIsCurrent (path : List UInt8) : Action Run Failure Bool := do
  let current ← Action.reads fun r => .ok (r.turns.head?.getD {}).parentCurrent
  require (observe fun _ => .ok ()) "canonicalize path" path
  return current

/-- Sixteen hexadecimal digits, or more when they do not suffice. -/
def hex16 (n : Nat) : List Char :=
  let digits := Nat.toDigits 16 n
  List.replicate (16 - digits.length) '0' ++ digits

/-- The bytes of an ASCII text. -/
def asciiName (text : List Char) : Name := text.map fun c => c.toNat.toUInt8

namespace FileStore

variable (fs : FileStore Hash)

def temporaryName (sequence : Nat) : Name :=
  asciiName (".omp-".toList ++ Nat.toDigits 10 fs.processId ++ "-".toList) ++
    asciiName (hex16 sequence) ++ asciiName ".tmp".toList

def nextTemporaryName : Action Run Failure Name := fun r =>
  (.ok (fs.temporaryName r.sequence), { r with sequence := r.sequence + 1 })

def ensureDocumentSize (path : List UInt8) (byteLength : Nat) : Action Run Failure Unit :=
  if byteLength > fs.maxDocumentBytes then Action.fail (.invalidContent path) else pure ()

inductive ReadObservation where
  | missing
  | present (content : List UInt8) (metadata : FileMetadata)
  | unstable

/-- What an open file holds between two equal looks at it and its entry. -/
def readOpened (p : Place) (path : List UInt8) (entryBefore : FileMetadata) (handle : Nat) :
    Action Run Failure ReadObservation := do
  let before ← require (fileMetadata handle) "inspect open document" path
  if before.1 ≠ .file then return .unstable
  fs.ensureDocumentSize path before.2.byteLength
  let content ← require (readFile handle) "read document bytes" path
  fs.ensureDocumentSize path content.length
  let after ← require (fileMetadata handle) "reinspect open document" path
  match ← symlinkMetadataAt p with
  | .ok (.file, entryAfter) =>
    if before.2 ≠ after.2 ∨ entryBefore ≠ after.2 ∨ entryAfter ≠ after.2 ∨
        after.2.byteLength ≠ content.length then
      return .unstable
    else return .present content after.2
  | .ok _ => return .unstable
  | .error .notFound => return .unstable
  | .error source => Action.fail (.io "reinspect document entry" path source)

def readObservationAt (p : Place) (path : List UInt8) : Action Run Failure ReadObservation := do
  match ← symlinkMetadataAt p with
  | .ok (.file, entryBefore) =>
    match ← openAt p with
    | .ok handle => fs.readOpened p path entryBefore handle
    | .error .notFound => return .unstable
    | .error source => Action.fail (.io "open document bytes" path source)
  | .ok (.symlink, _) => return .unstable
  | .ok _ => Action.fail (.invalidTarget path "document target is not a regular file")
  | .error .notFound => return .missing
  | .error source => Action.fail (.io "inspect document entry" path source)

def entryMissingAt (p : Place) (path : List UInt8) : Action Run Failure Bool := do
  match ← symlinkMetadataAt p with
  | .ok _ => return false
  | .error .notFound => return true
  | .error source => Action.fail (.io "reinspect missing document entry" path source)

/-- The second look at an open file. -/
def verifyOpened (p : Place) (path : List UInt8) (expectedContent : List UInt8)
    (expectedMetadata : FileMetadata) (handle : Nat) : Action Run Failure Bool := do
  let before ← require (fileMetadata handle) "reinspect open document" path
  if before.1 ≠ .file ∨ before.2 ≠ expectedMetadata then return false
  let content ← require (readFile handle) "verify document bytes" path
  if content ≠ expectedContent then return false
  let after ← require (fileMetadata handle) "finish verifying document" path
  if after.2 ≠ expectedMetadata then return false
  match ← symlinkMetadataAt p with
  | .ok (.file, metadata) => return decide (metadata = expectedMetadata)
  | .ok _ => return false
  | .error .notFound => return false
  | .error source => Action.fail (.io "finish verifying document entry" path source)

def verifyObservationAt (p : Place) (path : List UInt8) (expectedContent : List UInt8)
    (expectedMetadata : FileMetadata) : Action Run Failure Bool := do
  match ← symlinkMetadataAt p with
  | .ok (.file, entryBefore) =>
    if entryBefore ≠ expectedMetadata then return false
    match ← openAt p with
    | .ok handle => verifyOpened p path expectedContent expectedMetadata handle
    | .error .notFound => return false
    | .error source => Action.fail (.io "reopen document bytes" path source)
  | .ok _ => return false
  | .error .notFound => return false
  | .error source => Action.fail (.io "reinspect document entry" path source)

def forContent (metadata : FileMetadata) (content : List UInt8) : Fingerprint Hash :=
  { metadata, contentHash := fs.hash content }

/-- One of the attempts of `stable_read_at`, `none` when the file did not hold still. -/
def stableAttempt (p : Place) (path : List UInt8) : Action Run Failure (Option (DiskState Hash)) := do
  match ← fs.readObservationAt p path with
  | .missing => return if ← entryMissingAt p path then some .missing else none
  | .present content metadata =>
    if ← verifyObservationAt p path content metadata then
      return some (.present content (fs.forContent metadata content))
    else return none
  | .unstable => return none

def stableAttempts (p : Place) (path : List UInt8) : Nat → Action Run Failure (DiskState Hash)
  | 0 => Action.fail (.io "read a stable file snapshot" path .interrupted)
  | attempts + 1 => do
    match ← fs.stableAttempt p path with
    | some state => return state
    | none => stableAttempts p path attempts

def stableReadAt (p : Place) (path : List UInt8) : Action Run Failure (DiskState Hash) :=
  fs.stableAttempts p path 4

/-- What a write does with the file it displaced: remove it when it is the expected one, else
exchange back, and if that fails leave it where it is. -/
def settleWrite (prepared : PreparedWrite Hash) (expected : Fingerprint Hash) (held : List Place) :
    Action Run Failure (DiskState Hash × Bool) := do
  let displaced ← capture (fs.stableReadAt prepared.temporary prepared.destinationPath)
  if !readAgrees expected displaced then
    match ← renameExchange prepared.temporary prepared.destination with
    | .ok () =>
      watch (prepared.temporary :: held)
      Action.fail (.staleDiskState prepared.destinationPath)
    | .error _ => return (prepared.installedState, true)
  else
    let _ ← removeFile prepared.temporary
    return (prepared.installedState, true)

/-- What the commit of a write does before the prepared write is dropped; its value says whether the
write was marked committed. `held` are the places a caller relies on meanwhile. -/
def commitWrite (prepared : PreparedWrite Hash) (held : List Place) :
    Action Run Failure (DiskState Hash × Bool) := do
  let temporary := prepared.temporary
  let destination := prepared.destination
  let stale := Failure.staleDiskState prepared.destinationPath
  if prepared.owner ≠ fs.owner then
    Action.fail (.invalidTarget prepared.destinationPath
      "prepared write belongs to another filesystem root")
  else
  if !(← parentIsCurrent prepared.destinationPath) then
    Action.fail stale
  else
  match prepared.expected with
  | .missing =>
    match ← renameNoreplace temporary destination with
    | .error .alreadyExists => Action.fail stale
    | .error source => Action.fail (.persistence prepared.destinationPath source)
    | .ok () => return (prepared.installedState, true)
  | .present expected =>
    match ← renameExchange temporary destination with
    | .error .notFound => Action.fail stale
    | .error source => Action.fail (.persistence prepared.destinationPath source)
    | .ok () =>
      watch (temporary :: destination :: held)
      fs.settleWrite prepared expected held

/-- Dropping a prepared write that was not committed removes the temporary. -/
def dropPrepared (prepared : PreparedWrite Hash) (committed : Bool) : Action Run Failure Unit := do
  if !committed then
    let _ ← removeFile prepared.temporary

def commitPrepared (prepared : PreparedWrite Hash) (held : List Place) :
    Action Run Failure (DiskState Hash) := do
  watch (prepared.temporary :: held)
  match ← capture (fs.commitWrite prepared held) with
  | .ok (state, committed) =>
    dropPrepared prepared committed
    watch held
    return state
  | .error e =>
    dropPrepared prepared false
    watch held
    Action.fail e

/-- Moves an entry to a fresh quarantine name beside it, trying one name after the other. -/
def quarantine (target : PreparedEntry Hash) (notFound : Failure) :
    Nat → Action Run Failure Name
  | 0 => Action.fail (.persistence target.path .alreadyExists)
  | attempts + 1 => do
    let candidate ← fs.nextTemporaryName
    match ← renameNoreplace target.place ⟨target.parent, candidate⟩ with
    | .ok () => return candidate
    | .error .alreadyExists => quarantine target notFound attempts
    | .error .notFound => Action.fail notFound
    | .error source => Action.fail (.persistence target.path source)

/-- `stable_expected_state`: a target that is no plain file or will not hold still is stale. -/
def stableExpectedState (entry : PreparedEntry Hash) : Action Run Failure (DiskState Hash) := do
  match ← capture (fs.stableReadAt entry.place entry.path) with
  | .ok state => return state
  | .error (.invalidTarget _ _) => Action.fail entry.staleEntry
  | .error (.io _ _ .interrupted) => Action.fail entry.staleEntry
  | .error e => Action.fail e

/-- What a deletion does with the file it quarantined: remove it when it is the expected one, else
rename it back, and if that fails keep it in quarantine and report the removal. -/
def settleDelete (target : PreparedEntry Hash) (expected : Fingerprint Hash) (quarantined : Place) :
    Action Run Failure (DiskState Hash) := do
  let displaced ← capture (fs.stableReadAt quarantined target.path)
  if !readAgrees expected displaced then
    match ← renameNoreplace quarantined target.place with
    | .ok () => Action.fail target.staleEntry
    | .error _ => return .missing
  else
    let _ ← removeFile quarantined
    return .missing

def commitPreparedDelete (prepared : PreparedDelete Hash) : Action Run Failure (DiskState Hash) := do
  let target := prepared.target
  if prepared.owner ≠ fs.owner then
    Action.fail (.invalidTarget target.path "prepared delete belongs to another filesystem root")
  else
  if !(← parentIsCurrent target.path) then
    Action.fail target.staleEntry
  else
  match target.expected with
  | .missing =>
    match ← fs.stableExpectedState target with
    | .missing => return .missing
    | .present _ _ => Action.fail target.staleEntry
  | .present expected =>
    let name ← fs.quarantine target target.staleEntry 128
    watch [⟨target.parent, name⟩]
    fs.settleDelete target expected ⟨target.parent, name⟩

/-- The part of a move that stages new content. -/
def commitMoveWithContent (prepared : PreparedMove Hash) (content : PreparedWrite Hash) :
    Action Run Failure (DiskState Hash) := do
  let source := prepared.source
  let checked ← capture (do
    let state ← fs.stableExpectedState prepared.destination
    if !expectationMatches prepared.destination.expected state then
      Action.fail prepared.destination.staleEntry
    else
      fs.quarantine source (.persistence source.path .notFound) 128)
  match checked with
  | .error e =>
    dropPrepared content false
    Action.fail e
  | .ok name =>
    let quarantined : Place := ⟨source.parent, name⟩
    match ← capture (fs.commitPrepared content [quarantined]) with
    | .ok installed =>
      let _ ← removeFile quarantined
      return installed
    | .error e =>
      match ← renameNoreplace quarantined source.place with
      | .ok () => Action.fail e
      | .error _ => Action.fail (.persistence source.path .other)

/-- What a move does with the destination it displaced to the source name: remove it when it is the
expected one, else exchange back, and if that fails leave both where they are. -/
def settleMove (prepared : PreparedMove Hash) (expected : Fingerprint Hash)
    (sourceState : DiskState Hash) : Action Run Failure (DiskState Hash) := do
  let source := prepared.source
  let displaced ← capture (fs.stableReadAt source.place source.path)
  if !readAgrees expected displaced then
    match ← renameExchange source.place prepared.destination.place with
    | .ok () => Action.fail prepared.destination.staleEntry
    | .error _ => return sourceState
  else
    let _ ← removeFile source.place
    return sourceState

/-- The part of a move that renames the source itself. -/
def commitRename (prepared : PreparedMove Hash) (sourceState : DiskState Hash) :
    Action Run Failure (DiskState Hash) := do
  let source := prepared.source
  let destination := prepared.destination
  match destination.expected with
  | .missing =>
    match ← renameNoreplace source.place destination.place with
    | .ok () => return sourceState
    | .error .alreadyExists => Action.fail destination.staleEntry
    | .error .notFound => Action.fail destination.staleEntry
    | .error kind => Action.fail (.persistence source.path kind)
  | .present expected =>
    match ← renameExchange source.place destination.place with
    | .error .alreadyExists => Action.fail destination.staleEntry
    | .error .notFound => Action.fail destination.staleEntry
    | .error kind => Action.fail (.persistence source.path kind)
    | .ok () =>
      watch [source.place]
      fs.settleMove prepared expected sourceState

/-- The checks a move makes before it touches anything. -/
def checkMove (prepared : PreparedMove Hash) : Action Run Failure (DiskState Hash) := do
  let source := prepared.source
  let destination := prepared.destination
  if prepared.owner ≠ fs.owner then
    Action.fail (.invalidTarget source.path "prepared move belongs to another filesystem root")
  else
  if !(← parentIsCurrent source.path) then
    Action.fail source.staleEntry
  else
  if !(← parentIsCurrent destination.path) then
    Action.fail source.staleEntry
  else
  if source.parent.device ≠ destination.parent.device then
    Action.fail (.io "move prepared file" source.path .other)
  else
    let sourceState ← fs.stableExpectedState source
    if !expectationMatches source.expected sourceState then
      Action.fail source.staleEntry
    else
      return sourceState

def commitPreparedMove (prepared : PreparedMove Hash) : Action Run Failure (DiskState Hash) := do
  watch (prepared.source.place :: (prepared.content.map (·.temporary)).toList)
  match prepared.content with
  | none =>
    let sourceState ← fs.checkMove prepared
    fs.commitRename prepared sourceState
  | some content =>
    match ← capture (fs.checkMove prepared) with
    | .ok _ => fs.commitMoveWithContent prepared content
    | .error e =>
      dropPrepared content false
      Action.fail e

end FileStore

end OhMyPi.Docserver
