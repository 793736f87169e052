import OhMyPi.Journal.Chain
import OhMyPi.Journal.Recovery
import OhMyPi.Session.Fold

/-! The session controller (`session/src/session.rs`): every write is appended to the journal and
then folded, a rewind selects a retained entry by replaying its chain, and opening replays the whole
file with its branch jumps. -/

namespace OhMyPi

/-- `u32::saturating_sub(1)`. -/
def Sid.pred (sid : Sid) : Sid := ⟨sid.val - 1, by omega⟩

/-- `u32::checked_add(1)`. -/
def Sid.next (sid : Sid) : Except SessionError Sid :=
  if h : sid.val + 1 < 4294967296 then .ok ⟨sid.val + 1, h⟩ else .error .streamIdExhausted

/-- `reset` to the snapshot of a tree: the tree with the text of its streams in place. -/
def Dom.reloaded (dom : Dom) : Dom :=
  { dom with
    nodes := materializeAll dom.nodes dom.streams.entries
    streams := .ofList dom.streams.entries }

/-- The allocator floors recorded before an entry. -/
def Core.raise (core : Core) (handleFloor : Nat) (streamFloor : Sid) : Core :=
  { core with
    dom := (core.dom.raiseHighWater handleFloor).raiseStreamHighWater streamFloor
    nextSid := max core.nextSid streamFloor.pred }

/-- The floor a commit records for stream identities. -/
def Core.streamFloor (core : Core) : Sid := max core.nextSid.succ 1

/-- The mutable controller for one journal-derived session tree. -/
structure Session where
  journal : Journal
  entries : List Entry := []
  handleFloors : List Nat := [4]
  streamFloors : List Sid := [1]
  core : Core := {}
  pendingPrior : Option EntryId := none

/-- What a write reads from outside: clock and entropy, and how its durable write ends. -/
structure Io where
  tick : Tick
  outcome : WriteOutcome := .ok

/-- A session operation. -/
abbrev Operation := Action Session SessionError

/-- What an idempotent append did. -/
inductive AppendOutcome where
  | appended (id : EntryId)
  | replayed (id : EntryId)
deriving DecidableEq

namespace Session

/-! ## Replay -/

/-- `chain_indices`: the chain that ends at `index`, oldest first. A parent stands before its child
in the file, so as many rounds as there are entries are enough. -/
def chainFrom (entries : List Entry) : Nat → Nat → Except SessionError (List Nat)
  | 0, _ => .ok []
  | rounds + 1, index => do
    match entries[index]?.bind (·.prior) with
    | some prior =>
      match byId entries prior with
      | none => .error (.unknownEntry prior)
      | some parent => return (← chainFrom entries rounds parent) ++ [index]
    | none =>
      if index = 0 then return [0] else return (← chainFrom entries rounds (index - 1)) ++ [index]

def chainIndices (entries : List Entry) (target : EntryId) : Except SessionError (List Nat) :=
  match byId entries target with
  | none => .error (.unknownEntry target)
  | some index => chainFrom entries entries.length index

variable (env : Env) (order : HashOrder)

/-- The entry at one position, folded at the floors recorded before it. -/
def foldAt (entries : List Entry) (handleFloors : List Nat) (streamFloors : List Sid)
    (index : Nat) : Fold Unit :=
  match entries[index]?, handleFloors[index]?, streamFloors[index]? with
  | some entry, some handleFloor, some streamFloor => do
    Action.modify fun core => core.raise handleFloor streamFloor
    Fold.apply env order entry
  | _, _, _ => Action.fail .panic

def foldChain (entries : List Entry) (handleFloors : List Nat) (streamFloors : List Sid) :
    List Nat → Fold Unit
  | [] => pure ()
  | index :: chain => do
    foldAt env order entries handleFloors streamFloors index
    foldChain entries handleFloors streamFloors chain

/-- `rederive_chain`: the state of a retained entry, from an empty tree. -/
def rederiveChain (entries : List Entry) (handleFloors : List Nat) (streamFloors : List Sid)
    (target : EntryId) : Fold Unit := do
  let chain ← Action.lift (chainIndices entries target)
  Action.modify fun _ => {}
  foldChain env order entries handleFloors streamFloors chain

/-- Runs a fold step on the derived state. -/
def onCore {α : Type} (x : Fold α) : Operation α :=
  Action.zoom Session.core (fun core s => { s with core }) x

/-- Records the floors after the entry just folded. -/
def pushFloors (s : Session) : Session :=
  { s with
    handleFloors := s.handleFloors ++ [s.core.dom.highWater]
    streamFloors := s.streamFloors ++ [s.core.streamFloor] }

/-- The branch an entry at `index` jumps to, when it does not continue the entry before it. -/
def jump (entries : List Entry) (index : Nat) : Option EntryId :=
  let previous := if index = 0 then none else entries[index - 1]?.map (·.id)
  (entries[index]?.bind (·.prior)).filter fun prior => some prior ≠ previous

/-- One round of `rebuild_all`. -/
def rebuildStep (index : Nat) : Operation Unit := do
  let s ← Action.reads .ok
  match jump s.entries index with
  | some target =>
    onCore (rederiveChain env order s.entries s.handleFloors s.streamFloors target)
  | none => pure ()
  onCore (foldAt env order s.entries s.handleFloors s.streamFloors index)
  Action.modify pushFloors

def rebuildFrom : List Nat → Operation Unit
  | [] => pure ()
  | index :: indices => do
    rebuildStep env order index
    rebuildFrom indices

/-- `open`: the journal of the file that `reader` delivers, and the state its entries replay to. -/
def «open» (reader : Sse.Reader) : Except SessionError Session :=
  match Journal.open env.serde.toSerdeJson reader with
  | .error e => .error (.journal e)
  | .ok (journal, entries) =>
    match rebuildFrom env order (List.range entries.length) { journal, entries } with
    | (.ok (), s) => .ok s
    | (.error e, _) => .error e

/-- `rewind`. A failed replay restores the tree and nothing else. -/
def rewind (target : EntryId) : Operation Unit := fun s =>
  match byId s.entries target with
  | none => (.error (.unknownEntry target), s)
  | some _ =>
    match s.handleFloors.getLast?, s.streamFloors.getLast? with
    | some handleFloor, some streamFloor =>
      match rederiveChain env order s.entries s.handleFloors s.streamFloors target
        { s.core with dom := .new } with
      | (.error e, core) => (.error e, { s with core := { core with dom := s.core.dom } })
      | (.ok (), core) =>
        let core := core.raise handleFloor streamFloor
        (.ok (), { s with core := { core with dom := core.dom.reloaded }, pendingPrior := some target })
    | _, _ => (.error .panic, s)

/-! ## Writing -/

/-- `commit`: appends an entry to the journal, then folds it. -/
def commit (io : Io) (kind : KindName) (by_ : Option EntryId) (label : Option String)
    (data : String) : Operation EntryId := fun s =>
  let draft : EntryDraft := { kind := .known kind, by_, prior := s.pendingPrior, label, data }
  match s.journal.append env.serde.toSerdeJson io.tick io.outcome draft with
  | (.error e, journal) => (.error (.journal e), { s with journal })
  | (.ok entry, journal) =>
    let s := { s with journal, pendingPrior := none, entries := s.entries ++ [entry] }
    match Fold.apply env order entry s.core with
    | (.error e, core) => (.error e, { s with core })
    | (.ok (), core) => (.ok entry.id, { s with core }.pushFloors)

/-- `initialize`, at a working directory and a creation time. -/
def create (io : Io) (cwd created : String) : Except SessionError EntryId × Session :=
  commit env order io .journal none none
    (env.serde.genesis.write { version := genesisVersion, cwd, created }) { journal := .create }

end Session

end OhMyPi
