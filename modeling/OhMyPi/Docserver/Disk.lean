import OhMyPi.Lib.Action
import OhMyPi.Lib.PathWalk

/-! The disk under a prepared commit of the document server. Every system call of the commit is one
step, and before each step other processes may do whatever they like. -/

namespace OhMyPi.Docserver

open PathWalk (Name)

/-- An opened directory, known by device and inode. -/
structure DirectoryIdentity where
  device : Nat
  inode : Nat
  deriving DecidableEq

/-- A directory entry: the name it has in an opened directory. -/
structure Place where
  parent : DirectoryIdentity
  name : Name
  deriving DecidableEq

/-- What an inode holds. A symbolic link holds the inode that opening it ends at, if any. -/
inductive Node where
  | file (content : List UInt8) (modified : Option Nat) (readonly : Bool)
  | symlink (target : Option Nat)
  | directory
  | other
  deriving DecidableEq

structure World where
  entries : Place → Option Nat
  nodes : Nat → Node

/-- The inode at a place together with what it holds. -/
def World.look (w : World) (p : Place) : Option (Nat × Node) :=
  (w.entries p).map fun i => (i, w.nodes i)

/-- What another process can do at one moment: make an entry point elsewhere (a creation, a removal,
a replacement by rename, a hard link), or write to a file, through any name or handle it has. -/
inductive Outside where
  | link (p : Place) (inode : Option Nat)
  | rewrite (inode : Nat) (node : Node)

def Outside.apply (w : World) : Outside → World
  | .link p inode => { w with entries := fun q => if q = p then inode else w.entries q }
  | .rewrite inode node => { w with nodes := fun i => if i = inode then node else w.nodes i }

inductive IoKind where
  | notFound
  | alreadyExists
  | interrupted
  | other
  deriving DecidableEq

/-- Failures that have nothing to do with what is at the names of a call. -/
inductive Fault where
  | interrupted
  | other

def Fault.kind : Fault → IoKind
  | .interrupted => .interrupted
  | .other => .other

/-- What surrounds one step of a commit: what others do before it, a fault that makes the system call
fail, and whether a check of the parent directory would find it in place. -/
structure Turn where
  moves : List Outside := []
  fault : Option Fault := none
  parentCurrent : Bool := true

/-- What a step did to the names. -/
inductive Deed where
  | looked
  | renamed (source destination : Place)
  | exchanged (source destination : Place)
  | removed (p : Place)

/-- The places whose entries a deed takes away. -/
def Deed.takes : Deed → List Place
  | .renamed source _ => [source]
  | .exchanged source destination => [source, destination]
  | _ => []

/-- The places a deed puts entries at. -/
def Deed.puts : Deed → List Place
  | .renamed _ destination => [destination]
  | .exchanged source destination => [source, destination]
  | _ => []

structure Event where
  deed : Deed
  before : World
  after : World

/-- A commit under way. The last three fields record the run and are read by no step: what the commit
did, the places it relies on, and whether another process put anything else at one of these between
two of its steps. -/
structure Run where
  world : World
  turns : List Turn
  sequence : Nat
  trace : List Event := []
  watched : List Place := []
  disturbed : Bool := false

/-- Something else has been put at a watched place. -/
def disturbs (watched : List Place) (w w' : World) : Bool :=
  watched.any fun p => w'.look p ≠ none && w'.look p ≠ w.look p

/-- The run when the others have had their turn. -/
def Run.interfere (r : Run) (turn : Turn) : Run :=
  let world := turn.moves.foldl Outside.apply r.world
  { r with
    world
    turns := r.turns.tail
    disturbed := r.disturbed || disturbs r.watched r.world world }

inductive Failure where
  | invalidTarget (path : List UInt8) (reason : String)
  | invalidContent (path : List UInt8)
  | staleDiskState (path : List UInt8)
  | persistence (path : List UInt8) (source : IoKind)
  | io (operation : String) (path : List UInt8) (source : IoKind)
  deriving DecidableEq

/-- One step: the others' turn, then the system call, whose result the code inspects. -/
def atomic (call : World → Except IoKind α × Deed × World) :
    Action Run Failure (Except IoKind α) := fun r =>
  let turn := r.turns.head?.getD {}
  let r := r.interfere turn
  match turn.fault with
  | some fault => (.ok (.error fault.kind), { r with trace := r.trace ++ [⟨.looked, r.world, r.world⟩] })
  | none =>
    let (result, deed, world) := call r.world
    (.ok result, { r with world, trace := r.trace ++ [⟨deed, r.world, world⟩] })

/-- A system call that changes nothing. -/
def observe (f : World → Except IoKind α) : Action Run Failure (Except IoKind α) :=
  atomic fun w => (f w, .looked, w)

/-- Sets the places the commit relies on. -/
def watch (places : List Place) : Action Run Failure Unit :=
  Action.modify fun r => { r with watched := places }

inductive Kind where
  | file
  | symlink
  | directory
  | other
  deriving DecidableEq

structure FileMetadata where
  byteLength : Nat
  modified : Option Nat
  readonly : Bool
  deriving DecidableEq

def Node.kind : Node → Kind
  | .file .. => .file
  | .symlink _ => .symlink
  | .directory => .directory
  | .other => .other

/-- `fingerprint_metadata` of what `stat` reports; only that of a file is ever used. -/
def Node.metadata : Node → FileMetadata
  | .file content modified readonly => { byteLength := content.length, modified, readonly }
  | _ => { byteLength := 0, modified := none, readonly := false }

def symlinkMetadataAt (p : Place) : Action Run Failure (Except IoKind (Kind × FileMetadata)) :=
  observe fun w =>
    match w.look p with
    | none => .error .notFound
    | some (_, node) => .ok (node.kind, node.metadata)

/-- Opens the file at a place; a link is followed. -/
def openAt (p : Place) : Action Run Failure (Except IoKind Nat) :=
  observe fun w =>
    match w.look p with
    | none => .error .notFound
    | some (_, .symlink none) => .error .notFound
    | some (_, .symlink (some target)) => .ok target
    | some (inode, _) => .ok inode

def fileMetadata (handle : Nat) : Action Run Failure (Except IoKind (Kind × FileMetadata)) :=
  observe fun w => .ok ((w.nodes handle).kind, (w.nodes handle).metadata)

/-- The bytes of an open file. -/
def readFile (handle : Nat) : Action Run Failure (Except IoKind (List UInt8)) :=
  observe fun w =>
    match w.nodes handle with
    | .file content _ _ => .ok content
    | _ => .error .other

/-- `renameat2` with `RENAME_NOREPLACE`. -/
def renameNoreplace (source destination : Place) : Action Run Failure (Except IoKind Unit) :=
  atomic fun w =>
    match w.entries source, w.entries destination with
    | none, _ => (.error .notFound, .looked, w)
    | some _, some _ => (.error .alreadyExists, .looked, w)
    | some inode, none =>
      let entries := fun p =>
        if p = source then none else if p = destination then some inode else w.entries p
      (.ok (), .renamed source destination, { w with entries })

/-- `renameat2` with `RENAME_EXCHANGE`. -/
def renameExchange (source destination : Place) : Action Run Failure (Except IoKind Unit) :=
  atomic fun w =>
    match w.entries source, w.entries destination with
    | some moved, some displaced =>
      let entries := fun p =>
        if p = source then some displaced else if p = destination then some moved else w.entries p
      (.ok (), .exchanged source destination, { w with entries })
    | _, _ => (.error .notFound, .looked, w)

def removeFile (p : Place) : Action Run Failure (Except IoKind Unit) :=
  atomic fun w =>
    match w.look p with
    | none => (.error .notFound, .looked, w)
    | some (_, .directory) => (.error .other, .looked, w)
    | some _ =>
      (.ok (), .removed p, { w with entries := fun q => if q = p then none else w.entries q })

end OhMyPi.Docserver
