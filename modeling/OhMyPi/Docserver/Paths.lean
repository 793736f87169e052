import OhMyPi.Lib.Except
import OhMyPi.Lib.Lossy
import OhMyPi.Lib.PathWalk

/-! Capability path resolution of the document server (`docserver/fs.rs`): a request path is made
relative to the Environment root, its parent is canonicalized step by step through the root
capability, and symbolic links are spliced into the steps that are left. -/

namespace OhMyPi.Docserver

open PathWalk Text

/-- `std::path::Component`, without the drive letters of another platform. -/
inductive Component where
  | rootDir
  | curDir
  | parentDir
  | normal (name : Name)
  deriving DecidableEq

def Component.text : Component → List UInt8
  | .rootDir => []
  | .curDir => dot
  | .parentDir => dotdot
  | .normal name => name

/-- A path buffer, up to the equality of `Path`, is the list of its components. -/
abbrev PathBuf := List Component

/-- A piece of a path past its start. -/
def Component.ofPiece (piece : Name) : Option Component :=
  if piece = [] ∨ piece = dot then none
  else if piece = dotdot then some .parentDir
  else some (.normal piece)

/-- `Path::components`: repeated and trailing slashes are dropped, and `.` is kept only at the start
of a relative path. -/
def components (path : List UInt8) : PathBuf :=
  let body := (pieces path).filterMap Component.ofPiece
  if isAbsolute path then .rootDir :: body
  else if (pieces path).head? = some dot then .curDir :: body
  else body

/-- `Path::strip_prefix`, component by component. -/
def stripPrefix : PathBuf → PathBuf → Option PathBuf
  | path, [] => some path
  | [], _ :: _ => none
  | c :: path, b :: base => if c = b then stripPrefix path base else none

/-- `PathBuf::join` of a relative path: a leading `.` is no component once something precedes it. -/
def joinPath (base path : PathBuf) : PathBuf :=
  if base = [] then path else base ++ path.filter (· ≠ .curDir)

inductive ErrorKind where
  | notFound
  | notADirectory
  deriving DecidableEq

inductive Error where
  | invalidTarget (target : List Char) (reason : String)
  | io (operation : String) (path : List UInt8) (source : ErrorKind)
  deriving DecidableEq

def Error.invalidArgument (path : List UInt8) (reason : String) : Error :=
  .invalidTarget (lossy path) reason

structure ResolvedPath where
  absolute : PathBuf
  relative : PathBuf
  deriving DecidableEq

/-- `LocalFs` over a tree that stays as it is. The root path was canonicalized when the server was
configured, so it spells the place of a directory. -/
structure LocalFs where
  tree : FsNode
  rootPath : List Name
  root : FsNode
  rootPath_plain : ∀ name ∈ rootPath, Plain name
  at_rootPath : tree.at? rootPath = some root
  root_isDir : root.isDir = true

/-- `Dir::symlink_metadata` of a path that passes through no link. -/
def symlinkMetadata : FsNode → List Name → Except ErrorKind FsNode
  | e, [] => .ok e
  | .dir children, name :: names =>
    match children.lookup name with
    | some e => symlinkMetadata e names
    | none => .error .notFound
  | _, _ :: _ => .error .notADirectory

namespace LocalFs

variable (fs : LocalFs)

def rootComponents : PathBuf := .rootDir :: fs.rootPath.map .normal

def absoluteFor (relative : PathBuf) : PathBuf :=
  if relative = [.curDir] ∨ relative = [] then fs.rootComponents
  else joinPath fs.rootComponents relative

/-- The text of the path that `absolute_for` gives, with the `.` that a relative path may start with. -/
def absoluteText (relative : PathBuf) : List UInt8 :=
  let root := slash :: List.intercalate [slash] fs.rootPath
  if relative = [.curDir] ∨ relative = [] then root
  else (if fs.rootPath = [] then root else root ++ [slash]) ++
    List.intercalate [slash] (relative.map Component.text)

/-- Steps of a relative path: `.` is skipped and `..` kept. -/
def pathSteps (identity : List UInt8) (reason : String) : PathBuf → Except Error (List Name)
  | [] => .ok []
  | .curDir :: path => pathSteps identity reason path
  | .normal name :: path => (pathSteps identity reason path).map (name :: ·)
  | .parentDir :: path => (pathSteps identity reason path).map (dotdot :: ·)
  | .rootDir :: _ => .error (.invalidTarget (lossy identity) reason)

/-- The pending steps and the resolved names after the steps of `path` are put in front. An absolute
path starts again at the root. -/
def prependPathSteps (pending resolved : List Name) (path : PathBuf) (identity : List UInt8) :
    Except Error (List Name × List Name) := do
  let reason := "symbolic-link target escapes the Environment root"
  if path.head? = some .rootDir then
    match stripPrefix path fs.rootComponents with
    | none => .error (.invalidTarget (lossy identity) reason)
    | some relative => return ((← pathSteps identity reason relative) ++ pending, [])
  else
    return ((← pathSteps identity reason path) ++ pending, resolved)

/-- The loop of `canonicalize_existing`. Each link uses up one of forty, and every other round takes
a step away. -/
def canonicalizeLoop (identity : List UInt8) (pending resolved : List Name) (symlinks : Nat) :
    Except Error (List Name) :=
  match pending with
  | [] => .ok resolved
  | component :: pending =>
    if component = dotdot then
      if resolved = [] then
        .error (.invalidTarget (lossy identity) "target escapes the Environment root")
      else canonicalizeLoop identity pending resolved.dropLast symlinks
    else
      match symlinkMetadata fs.root (resolved ++ [component]) with
      | .error source => .error (.io "canonicalize path" identity source)
      | .ok (.link target) =>
        if _ : symlinks + 1 > 40 then
          .error (.invalidTarget (lossy identity)
            "symbolic-link resolution exceeded the traversal limit")
        else
          match fs.prependPathSteps pending resolved (components target.bytes) identity with
          | .error e => .error e
          | .ok (pending', resolved') =>
            canonicalizeLoop identity pending' resolved' (symlinks + 1)
      | .ok metadata =>
        if pending ≠ [] ∧ metadata.isDir = false then
          .error (.io "canonicalize path" identity .notADirectory)
        else canonicalizeLoop identity pending (resolved ++ [component]) symlinks
termination_by (40 - symlinks, pending.length)

def toPathBuf (names : List Name) : PathBuf := if names = [] then [.curDir] else names.map .normal

def canonicalizeExisting (relative : PathBuf) (identity : List UInt8) : Except Error PathBuf := do
  let (pending, _) ← fs.prependPathSteps [] [] relative identity
  return toPathBuf (← fs.canonicalizeLoop identity pending [] 0)

/-- The request path without the root that an absolute one has to start with. -/
def stripRoot (path : List UInt8) : Except Error PathBuf :=
  if isAbsolute path then
    match stripPrefix (components path) fs.rootComponents with
    | none => .error (.invalidTarget (lossy path) "target escapes the Environment root")
    | some relative => .ok relative
  else .ok (components path)

def lexicalRelative (path : List UInt8) : Except Error PathBuf := do
  let relative ← fs.stripRoot path
  let names ← pathSteps path "target is not relative to the Environment root" relative
  let normalized := names.map fun name => if name = dotdot then .parentDir else .normal name
  return if normalized = [] then [.curDir] else normalized

/-- Parent and file name of a relative path. -/
def splitRelative (relative : PathBuf) : Option (PathBuf × Name) :=
  match relative.getLast? with
  | some (.normal name) =>
    some (if relative.dropLast = [] then [.curDir] else relative.dropLast, name)
  | _ => none

def resolveEntry (path : List UInt8) : Except Error ResolvedPath := do
  let relative ← fs.lexicalRelative path
  if relative = [.curDir] then
    return { absolute := fs.rootComponents, relative }
  match splitRelative relative with
  | none => .error (Error.invalidArgument path "path has no final component")
  | some (parent, name) =>
    let canonicalParent ← fs.canonicalizeExisting parent path
    let relative := joinPath canonicalParent [.normal name]
    return { absolute := fs.absoluteFor relative, relative }

/-- The names of a relative path that the resolver made. -/
def relativeNames (relative : PathBuf) : List Name :=
  relative.filterMap fun
    | .normal name => some name
    | _ => none

def resolveTarget (path : List UInt8) : Except Error ResolvedPath := do
  let entry ← fs.resolveEntry path
  match symlinkMetadata fs.root (relativeNames entry.relative) with
  | .ok (.link _) =>
    match fs.canonicalizeExisting entry.relative path with
    | .ok relative => return { absolute := fs.absoluteFor relative, relative }
    | .error (.io _ _ _) =>
      -- both kinds of error that the tree can give here are the ones named
      .error (.invalidTarget (lossy (fs.absoluteText entry.relative))
        "document target is a dangling symbolic link")
    | .error e => .error e
  | .ok _ => return entry
  | .error .notFound => return entry
  | .error source => .error (.io "inspect document target" path source)

/-- Canonicalizes an existing path while rejecting any capability escape. -/
def canonicalize (path : List UInt8) : Except Error PathBuf := do
  let relative ← fs.lexicalRelative path
  return fs.absoluteFor (← fs.canonicalizeExisting relative path)

end LocalFs

end OhMyPi.Docserver
