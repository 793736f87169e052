import OhMyPi.Lib.Action
import OhMyPi.Session.Payload

/-! The state a session derives from its journal (`session/src/session.rs`): the tree, the selected
head and the caches the fold keeps, with the questions the fold asks of the tree. -/

namespace OhMyPi

/-- The text of an entry identity. -/
def Ulid.toStr (id : Ulid) : String := String.ofList id.encode

inductive IdempotencyKeyError where
  | empty
  | tooLong (actual maximum : Nat)
deriving DecidableEq

inductive SessionError where
  | journal (source : JournalError)
  | dom (source : DomError)
  | blob
  | tooManyCompactionFrames (actual maximum : Nat)
  | compactionFramesTooLarge (actual maximum : UInt64)
  | summaryUtf8
  | payload
  | toolPartUtf8
  | noActiveTurn
  | noActiveAssistant
  | unknownEntry (id : EntryId)
  | streamIdExhausted
  | invalidStreamFrame
  | unexpectedStreamId (expected actual : Sid)
  | reservedToolUpdate
  | invalidHandle (value : Nat)
  | missingSessionTransitions
  | unknownCall (id : EntryId)
  | invalidIdempotencyKey (source : IdempotencyKeyError)
  | keyConflict (key : String) (existing : EntryId)
  /-- Not an error of the source, which panics here. -/
  | panic
deriving DecidableEq

/-- What lies outside the session and stays as it is: how payloads are written and read, and the
blob store. -/
structure Env where
  serde : Serde
  blobs : Hash32 → Option Bytes

/-- The order in which a process iterates its hash maps keyed by stream: some order of the
entries. -/
structure HashOrder where
  iter : {ν : Type} → List (Sid × ν) → List (Sid × ν)
  perm : ∀ {ν : Type} (entries : List (Sid × ν)), (iter entries).Perm entries

namespace Dom

def tag (dom : Dom) (handle : Handle) : Option Tag := (dom.get handle).map Node.tag

def prop (dom : Dom) (handle : Handle) (key : PropKey) : Option Value :=
  (dom.get handle).bind (·.prop key)

def propText (dom : Dom) (handle : Handle) (key : PropKey) : Option String :=
  (dom.prop handle key).bind Value.asStr

def content (dom : Dom) (handle : Handle) : Option String := (dom.get handle).bind Node.content

/-- `stream_text`: the text of a stream bound to the property, if one is open. -/
def streamText (dom : Dom) (order : HashOrder) (handle : Handle) (key : PropKey) : Option String :=
  ((order.iter dom.streams.entries).find? fun p => p.2.node = handle && p.2.prop = key).map
    (·.2.text)

/-- Whether `root` is met on the way from a handle up. Parents lead to the root, so as many rounds
as there are handles are enough. -/
def descends (dom : Dom) (root : Handle) : Nat → Handle → Bool
  | 0, _ => false
  | rounds + 1, handle =>
    if handle = root then true
    else
      match dom.parent handle with
      | none => false
      | some parent => dom.descends root rounds parent

/-- `descendants`, with the root itself. -/
def descendants (dom : Dom) (root : Handle) : List Handle :=
  dom.handles.filter (dom.descends root (dom.highWater + 1))

/-- `find_entry_node`. -/
def findEntryNode (dom : Dom) (root : Handle) (id : EntryId) : Option Handle :=
  (dom.descendants root).find? fun h => dom.propText h (.known .id) = some id.toStr

def childWithTag (dom : Dom) (parent : Handle) (tag : KnownTag) : Option Handle :=
  (dom.children parent).find? fun h => dom.tag h = some (.known tag)

def lastChildWithTag (dom : Dom) (parent : Handle) (tag : KnownTag) : Option Handle :=
  (dom.children parent).reverse.find? fun h => dom.tag h = some (.known tag)

def lastChild (dom : Dom) (parent : Handle) : Option Handle := (dom.children parent).getLast?

end Dom

/-- What folding the selected chain yields. -/
structure Core where
  dom : Dom := .new
  head : Option EntryId := none
  currentTurn : Option EntryId := none
  currentAssistant : Option EntryId := none
  callHandles : EntryId → Option Handle := fun _ => none
  streamTargets : OrdMap Sid Handle := ∅
  mutationKeys : String → Option EntryId := fun _ => none
  nextSid : Sid := 0

namespace Core

def currentTurnHandle (core : Core) : Except SessionError Handle :=
  match core.currentTurn with
  | none => .error .noActiveTurn
  | some id =>
    match core.dom.findEntryNode Dom.body id with
    | none => .error .noActiveTurn
    | some handle => .ok handle

def currentAssistantHandle (core : Core) : Except SessionError Handle :=
  match core.currentAssistant with
  | none => .error .noActiveAssistant
  | some id =>
    match core.dom.findEntryNode Dom.body id with
    | none => .error .noActiveAssistant
    | some handle => .ok handle

/-- `call_handle`. -/
def callHandle (core : Core) (id : EntryId) : Except SessionError Handle :=
  match core.callHandles id with
  | none => .error (.unknownCall id)
  | some handle => .ok handle

def streamTarget (core : Core) (sid : Sid) : Except SessionError Handle :=
  match core.streamTargets.get? sid with
  | none => .error (.dom (.missingStream sid))
  | some handle => .ok handle

end Core

/-- A fold step: it changes the derived state, and what it changed before failing stays. -/
abbrev Fold := Action Core SessionError

namespace Fold

/-- A payload that must decode. -/
def decode {α : Type} (read : Option α) : Fold α :=
  Action.lift <| match read with
    | some a => .ok a
    | none => .error .payload

/-- `apply_entry_ops`: one transaction, and the handles it minted. -/
def applyEntryOps (entry : Entry) (ops : List Op) : Fold (List Handle) := fun core =>
  match core.dom.apply { cause := entry.id, label := entry.label, ops } with
  | .ok (dom, minted) => (.ok minted, { core with dom })
  | .error e => (.error (.dom e), core)

def applyOps (entry : Entry) (ops : List Op) : Fold Unit := do
  let _ ← applyEntryOps entry ops

/-- Inserts a node after the last child of its parent. -/
def insertLast (entry : Entry) (parent : Handle) (node : NodeSpec) : Fold Unit := do
  let after ← Action.reads fun core => .ok (core.dom.lastChild parent)
  applyOps entry [.ins parent after node]

/-- `apply_stream` with `StreamOp::Open`. -/
def streamOpen (entry : Entry) (sid : Sid) (node : Handle) (prop : PropKey) : Fold Unit :=
  fun core =>
    match core.dom.streamOpen entry.id sid node prop with
    | .ok (dom, _) => (.ok (), { core with dom })
    | .error e => (.error (.dom e), core)

/-- `apply_stream` with `StreamOp::Append`. -/
def streamAppend (entry : Entry) (sid : Sid) (text : String) : Fold Unit := fun core =>
  match core.dom.streamAppend entry.id sid text with
  | .ok (dom, _) => (.ok (), { core with dom })
  | .error e => (.error (.dom e), core)

/-- `apply_stream` with `StreamOp::Close`. -/
def streamClose (entry : Entry) (sid : Sid) : Fold Unit := fun core =>
  match core.dom.streamClose entry.id sid with
  | (.ok _, dom) => (.ok (), { core with dom })
  | (.error e, dom) => (.error (.dom e), { core with dom })

end Fold

end OhMyPi
