import OhMyPi.Dom.Node
import OhMyPi.Lib.OrdMap
import OhMyPi.Journal.Entry

/-! The materialized session tree and its atomic transactions (`dom/src/txn.rs`): a transaction is
validated against a scratch overlay of the tree's structure, operation by operation, and applied
only when every operation passes. -/

namespace OhMyPi

/-- `u32` stream identities. -/
abbrev Sid := Fin 4294967296

instance Sid.instNeZero : NeZero 4294967296 := ⟨by decide⟩

/-- `u32::saturating_add(1)`. -/
def Sid.succ (sid : Sid) : Sid := if h : sid.val + 1 < 4294967296 then ⟨sid.val + 1, h⟩ else sid

/-- One atomic operation. -/
inductive Op where
  | ins (parent : Handle) (after : Option Handle) (node : NodeSpec)
  | rm (h : Handle)
  | set (h : Handle) (prop : PropKey) (value : Value)
  | mv (h parent : Handle) (after : Option Handle)
deriving DecidableEq

/-- Operations committed atomically. -/
structure Txn where
  cause : EntryId
  label : Option String
  ops : List Op
deriving DecidableEq

inductive DomError where
  | missingHandle (opIndex : Nat) (handle : Handle)
  | topology (opIndex : Nat) (handle : Handle) (tag : Tag)
  | badAnchor (opIndex : Nat) (parent after : Handle)
  | cycle (opIndex : Nat) (handle parent : Handle)
  | malformedStream (sid : Sid)
  | streamAlreadyOpen (sid : Sid)
  | reusedStream (sid : Sid)
  | missingStream (sid : Sid)
  | nonTextStreamTarget (handle : Handle) (prop : PropKey)
deriving DecidableEq

/-- An append-only text stream bound to one property. -/
structure OpenStream where
  node : Handle
  prop : PropKey
  text : String
  appendedBytes : Nat
deriving DecidableEq

/-- The authoritative session tree. A slot without a node is one whose handle was never minted or
whose node was removed; subscribers are left out, and what would be sent to them is returned. -/
structure Dom where
  nodes : Handle → Option Node
  parents : Handle → Option Handle
  highWater : Nat
  streams : OrdMap Sid OpenStream
  nextSid : Sid

namespace Dom

def root : Handle := 1
def «meta» : Handle := 2
def body : Handle := 3
def queues : Handle := 4

/-- The canonical root, with an allocator high-water mark. -/
def withHighWater (highWater : Nat) : Dom where
  nodes h :=
    if h = root then
      some { tag := .known .session, kids := [Dom.meta, body, queues] }
    else if h = Dom.meta then some { tag := .known .meta }
    else if h = body then some { tag := .known .body }
    else if h = queues then some { tag := .known .queues }
    else none
  parents h := if h = Dom.meta ∨ h = body ∨ h = queues then some root else none
  highWater := max highWater 4
  streams := ∅
  nextSid := 1

def new : Dom := withHighWater 4

def get (dom : Dom) (handle : Handle) : Option Node := dom.nodes handle

/-- The children of a node, none for an unknown handle. -/
def children (dom : Dom) (handle : Handle) : List Handle := ((dom.nodes handle).map Node.kids).getD []

def parent (dom : Dom) (handle : Handle) : Option Handle := dom.parents handle

/-- `handles`, in increasing order. -/
def handles (dom : Dom) : List Handle :=
  ((List.range dom.highWater).map (· + 1)).filter fun h => (dom.nodes h).isSome

/-- Raises the allocator floor without changing any live handle. -/
def raiseHighWater (dom : Dom) (highWater : Nat) : Dom :=
  if highWater ≤ dom.highWater then dom else { dom with highWater }

/-- Raises the stream allocator floor without changing open streams. -/
def raiseStreamHighWater (dom : Dom) (nextSid : Sid) : Dom :=
  { dom with nextSid := max (max dom.nextSid nextSid) 1 }

end Dom

/-! ## Validation -/

/-- What validation reads of a tree. -/
structure Skeleton where
  tag : Handle → Option Tag
  children : Handle → List Handle
  parent : Handle → Option Handle
  highWater : Nat

def Dom.skeleton (dom : Dom) : Skeleton where
  tag h := (dom.nodes h).map Node.tag
  children := dom.children
  parent := dom.parents
  highWater := dom.highWater

structure ScratchNode where
  tag : Tag
  parent : Option Handle
  kids : List Handle

/-- The sequential post-state of the operations validated so far. -/
structure Validation where
  dom : Skeleton
  overlay : Handle → Option ScratchNode := fun _ => none
  removed : List Handle := []
  highWater : Nat := dom.highWater

/-- Where `handle` goes among its new siblings: right after `after`, or first. -/
def insertAfter (kids : List Handle) (after : Option Handle) (handle : Handle) : List Handle :=
  let index := ((after.bind fun anchor => kids.idxOf? anchor).map (· + 1)).getD 0
  kids.insertIdx index handle

namespace Validation

def «exists» (v : Validation) (handle : Handle) : Bool :=
  !v.removed.contains handle && ((v.overlay handle).isSome || (v.dom.tag handle).isSome)

def require (v : Validation) (handle : Handle) (opIndex : Nat) : Except DomError Unit :=
  if v.exists handle then .ok () else .error (.missingHandle opIndex handle)

def tag (v : Validation) (handle : Handle) : Option Tag :=
  if v.removed.contains handle then none
  else ((v.overlay handle).map ScratchNode.tag).or (v.dom.tag handle)

def parent (v : Validation) (handle : Handle) : Option Handle :=
  if v.removed.contains handle then none
  else
    match v.overlay handle with
    | some node => node.parent
    | none => v.dom.parent handle

def children (v : Validation) (handle : Handle) : List Handle :=
  match v.overlay handle with
  | some node => node.kids
  | none => v.dom.children handle

def anchor (v : Validation) (parent : Handle) (after : Option Handle) (opIndex : Nat) :
    Except DomError Unit :=
  match after with
  | none => .ok ()
  | some after =>
    if !(v.children parent).contains after || v.removed.contains after then
      .error (.badAnchor opIndex parent after)
    else .ok ()

/-- The four canonical handles and the component roots under `meta` and `queues`. -/
def isFixedRoot (v : Validation) (handle : Handle) : Bool :=
  decide (handle ≤ Dom.queues) ||
    match v.parent handle, v.tag handle with
    | some parent, some (.known .todo) | some parent, some (.known .jobs)
    | some parent, some (.known .directors) | some parent, some (.known .con) =>
      parent == Dom.meta
    | some parent, some (.known .steering) | some parent, some (.known .prompts) =>
      parent == Dom.queues
    | _, _ => false

/-- Which tags may stand under which of the canonical handles. -/
def admits (parent : Handle) (tag : Tag) : Bool :=
  if parent = Dom.root then false
  else if parent = Dom.body then tag == .known .turn
  else if parent = Dom.meta then
    match tag with
    | .known .todo | .known .jobs | .known .directors | .known .con | .known .compaction => true
    | .custom _ => true
    | _ => false
  else if parent = Dom.queues then
    match tag with
    | .known .steering | .known .prompts => true
    | _ => false
  else true

def topology (parent handle : Handle) (tag : Tag) (opIndex : Nat) : Except DomError Unit :=
  if admits parent tag then .ok () else .error (.topology opIndex handle tag)

/-- `is_ancestor`. Parents lead to the root, so the walk meets no handle twice and as many rounds
as there are handles are enough. -/
def isAncestorFrom (v : Validation) (ancestor : Handle) : Nat → Handle → Bool
  | 0, _ => false
  | rounds + 1, node =>
    if ancestor = node then true
    else
      match v.parent node with
      | none => false
      | some parent => isAncestorFrom v ancestor rounds parent

def isAncestor (v : Validation) (ancestor node : Handle) : Bool :=
  isAncestorFrom v ancestor (v.highWater + 1) node

/-- The scratch copy of an existing node. -/
def touched (v : Validation) (handle : Handle) : Option ScratchNode :=
  (v.overlay handle).or ((v.dom.tag handle).map fun tag =>
    { tag, parent := v.dom.parent handle, kids := v.dom.children handle })

/-- Changes the scratch copy of a node, made when there is none yet. -/
def touch (v : Validation) (handle : Handle) (f : ScratchNode → ScratchNode) : Validation :=
  { v with overlay := Function.update v.overlay handle ((v.touched handle).map f) }

def insertChild (v : Validation) (parent : Handle) (after : Option Handle) (handle : Handle) :
    Validation :=
  v.touch parent fun node => { node with kids := insertAfter node.kids after handle }

def detach (v : Validation) (parent handle : Handle) : Validation :=
  v.touch parent fun node => { node with kids := node.kids.filter (· ≠ handle) }

/-- The loop of `remove`, over a stack of handles with its top at the end. -/
def removePending (v : Validation) : Nat → List Handle → Validation
  | 0, _ => v
  | rounds + 1, pending =>
    match pending.getLast? with
    | none => v
    | some current =>
      removePending { v with removed := current :: v.removed } rounds
        (pending.dropLast ++ v.children current)

/-- Removes a subtree; each of its nodes is popped once. -/
def remove (v : Validation) (handle : Handle) : Validation :=
  let v := match v.parent handle with
    | some parent => v.detach parent handle
    | none => v
  v.removePending (v.highWater + 1) [handle]

/-- The checks of one operation, its scratch post-state and the handle it mints. -/
def step (v : Validation) (opIndex : Nat) : Op → Except DomError (Validation × Option Handle)
  | .ins parent after node => do
    v.require parent opIndex
    v.anchor parent after opIndex
    let handle := v.highWater + 1
    topology parent handle node.tag opIndex
    let scratch : ScratchNode := { tag := node.tag, parent := some parent, kids := [] }
    let v := { v with
      highWater := handle
      overlay := Function.update v.overlay handle (some scratch) }
    return (v.insertChild parent after handle, some handle)
  | .rm handle => do
    v.require handle opIndex
    if v.isFixedRoot handle then
      throw (.topology opIndex handle ((v.tag handle).getD (.custom "")))
    return (v.remove handle, none)
  | .set handle _ _ => do
    v.require handle opIndex
    return (v, none)
  | .mv handle parent after => do
    v.require handle opIndex
    v.require parent opIndex
    let tag := (v.tag handle).getD (.custom "")
    if v.isFixedRoot handle then throw (.topology opIndex handle tag)
    topology parent handle tag opIndex
    if v.isAncestor handle parent then throw (.cycle opIndex handle parent)
    v.anchor parent after opIndex
    if after = some handle then throw (.badAnchor opIndex parent handle)
    let v := match v.parent handle with
      | some old => v.detach old handle
      | none => v
    let v := v.insertChild parent after handle
    return (v.touch handle fun node => { node with parent := some parent }, none)

/-- Validates the operations from index `opIndex` on, and returns the minted handles. -/
def validateFrom (v : Validation) (opIndex : Nat) : List Op → Except DomError (List Handle)
  | [] => .ok []
  | op :: ops => do
    let (v, minted) ← v.step opIndex op
    let rest ← v.validateFrom (opIndex + 1) ops
    return minted.toList ++ rest

end Validation

namespace Dom

/-- `Validation::validate` on the tree as it stands. -/
def validateOps (dom : Dom) (ops : List Op) : Except DomError (List Handle) :=
  ({ dom := dom.skeleton : Validation }).validateFrom 0 ops

/-! ## Application -/

/-- Changes the node under a handle, when there is one. -/
def modifyNode (dom : Dom) (handle : Handle) (f : Node → Node) : Dom :=
  { dom with nodes := Function.update dom.nodes handle ((dom.nodes handle).map f) }

def setParent (dom : Dom) (handle : Handle) (parent : Option Handle) : Dom :=
  { dom with parents := Function.update dom.parents handle parent }

/-- Takes one node out, with its parent link and the streams bound to it. -/
def takeNode (dom : Dom) (handle : Handle) : Dom :=
  { dom with
    nodes := Function.update dom.nodes handle none
    parents := Function.update dom.parents handle none
    streams := dom.streams.filter fun _ stream => stream.node ≠ handle }

/-- The loop of `remove_subtree`, over a stack of handles with its top at the end. -/
def removePending (dom : Dom) : Nat → List Handle → Dom
  | 0, _ => dom
  | rounds + 1, pending =>
    match pending.getLast? with
    | none => dom
    | some current =>
      (dom.takeNode current).removePending rounds (pending.dropLast ++ dom.children current)

/-- `remove_subtree`; each node of the subtree is popped once. -/
def removeSubtree (dom : Dom) (handle : Handle) : Dom :=
  let dom := match dom.parent handle with
    | some parent =>
      dom.modifyNode parent fun node => { node with kids := node.kids.filter (· ≠ handle) }
    | none => dom
  dom.removePending (dom.highWater + 1) [handle]

/-- `move_node`. -/
def moveNode (dom : Dom) (handle parent : Handle) (after : Option Handle) : Dom :=
  let dom := match dom.parent handle with
    | some old =>
      dom.modifyNode old fun node => { node with kids := node.kids.filter (· ≠ handle) }
    | none => dom
  (dom.modifyNode parent fun node => { node with kids := insertAfter node.kids after handle })
    |>.setParent handle (some parent)

/-- `apply_validated`. -/
def applyOp (dom : Dom) : Op → Dom
  | .ins parent after node =>
    let handle := dom.highWater + 1
    let dom := { dom with
      highWater := handle
      nodes := Function.update dom.nodes handle (some (Node.fromSpec node))
      parents := Function.update dom.parents handle (some parent) }
    dom.modifyNode parent fun node => { node with kids := insertAfter node.kids after handle }
  | .rm handle => dom.removeSubtree handle
  | .set handle prop value => dom.modifyNode handle (·.setProp prop value)
  | .mv handle parent after => dom.moveNode handle parent after

def applyOps (dom : Dom) (ops : List Op) : Dom := ops.foldl applyOp dom

/-- `apply`: the new tree and the minted handles. A rejected transaction changes nothing. -/
def apply (dom : Dom) (txn : Txn) : Except DomError (Dom × List Handle) := do
  let minted ← dom.validateOps txn.ops
  return (dom.applyOps txn.ops, minted)

end Dom

end OhMyPi
