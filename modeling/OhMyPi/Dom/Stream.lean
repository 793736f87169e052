import OhMyPi.Lib.Except
import OhMyPi.Dom.Txn

/-! Append-only text streams, canonical snapshots and subscription events (`dom/src/txn.rs`,
`dom/src/snapshot.rs`, `dom/src/subscribe.rs`). A stream's text stays out of its property until the
stream is closed; a snapshot shows it there already. -/

namespace OhMyPi

/-- Length in bytes. -/
def Str.len (text : String) : Nat := text.utf8ByteSize

/-- `push_str` on the stream's buffer, with its byte counter. -/
def OpenStream.push (stream : OpenStream) (text : String) : OpenStream :=
  { stream with
    text := stream.text ++ text
    appendedBytes := stream.appendedBytes + Str.len text }

@[simp] theorem OpenStream.push_node (stream : OpenStream) (text : String) :
    (stream.push text).node = stream.node := rfl

@[simp] theorem OpenStream.push_prop (stream : OpenStream) (text : String) :
    (stream.push text).prop = stream.prop := rfl

/-- A self-contained image of a tree, with the text of open streams written into their
properties. Its streams are bound to nodes it has. -/
structure Snapshot where
  highWater : Nat
  nextSid : Sid
  nodes : Handle → Option Node
  parents : Handle → Option Handle
  streams : List (Sid × OpenStream)
  bound : ∀ p ∈ streams, nodes p.2.node ≠ none

structure CanonicalNode where
  handle : Handle
  parent : Option Handle
  node : Node
deriving DecidableEq

/-- The value a snapshot serializes. Snapshots are equal when their serialized bytes are. -/
structure Canonical where
  highWater : Nat
  nextSid : Sid
  nodes : List CanonicalNode
  streams : List (Sid × OpenStream)
deriving DecidableEq

/-- `sort_by` key, stable. -/
def Node.sortProps (node : Node) : Node := { node with props := KeyedList.sort node.props }

/-- The canonical form of a set of nodes and streams. -/
def canonicalize (highWater : Nat) (nextSid : Sid) (nodes : Handle → Option Node)
    (parents : Handle → Option Handle) (streams : List (Sid × OpenStream)) : Canonical where
  highWater := highWater
  nextSid := nextSid
  nodes := (List.range highWater).filterMap fun i =>
    (nodes (i + 1)).map fun node =>
      { handle := i + 1, parent := parents (i + 1), node := node.sortProps }
  streams := streams

def Snapshot.canonical (s : Snapshot) : Canonical :=
  canonicalize s.highWater s.nextSid s.nodes s.parents s.streams

/-- Writes the text of one stream into its property. -/
def materialize (nodes : Handle → Option Node) (stream : OpenStream) : Handle → Option Node :=
  Function.update nodes stream.node
    ((nodes stream.node).map (·.setProp stream.prop (.str stream.text)))

/-- `Snapshot::build` writes the streams in order, so that of two on one property the later one
shows. -/
def materializeAll (nodes : Handle → Option Node) (streams : List (Sid × OpenStream)) :
    Handle → Option Node := streams.foldl (fun nodes p => materialize nodes p.2) nodes

theorem materialize_isSome {nodes : Handle → Option Node} {stream : OpenStream} {h : Handle} :
    (materialize nodes stream h).isSome = (nodes h).isSome := by
  rw [materialize, Function.update_apply]
  split
  · next heq => rw [heq, Option.isSome_map]
  · rfl

theorem materializeAll_isSome {nodes : Handle → Option Node} {streams : List (Sid × OpenStream)}
    {h : Handle} : (materializeAll nodes streams h).isSome = (nodes h).isSome := by
  induction streams generalizing nodes with
  | nil => rfl
  | cons p streams ih =>
    rw [materializeAll, List.foldl_cons]
    exact ih.trans materialize_isSome

/-- Stream text does not show in what keeps clear of property values. -/
theorem materializeAll_map {α : Type*} {f : Node → α}
    (hf : ∀ n key value, f (n.setProp key value) = f n) (nodes : Handle → Option Node)
    (streams : List (Sid × OpenStream)) (h : Handle) :
    (materializeAll nodes streams h).map f = (nodes h).map f := by
  induction streams generalizing nodes with
  | nil => rfl
  | cons p streams ih =>
    rw [materializeAll, List.foldl_cons]
    refine (ih (materialize nodes p.2)).trans ?_
    rw [materialize, Function.update_apply]
    split
    · next heq =>
      rw [heq, Option.map_map]
      cases nodes p.2.node with
      | none => rfl
      | some n => exact congrArg some (hf n _ _)
    · rfl

/-- What the streams write into the properties of one node. -/
def textsAt (streams : List (Sid × OpenStream)) (h : Handle) : List (PropKey × Value) :=
  (streams.filter (·.2.node = h)).map fun p => (p.2.prop, .str p.2.text)

theorem materializeAll_apply (nodes : Handle → Option Node) (streams : List (Sid × OpenStream))
    (h : Handle) : materializeAll nodes streams h =
      (nodes h).map fun n => { n with props := KeyedList.assignAll (textsAt streams h) n.props } := by
  induction streams generalizing nodes with
  | nil =>
    cases hnode : nodes h with
    | none => exact hnode
    | some n => exact hnode
  | cons p streams ih =>
    rw [materializeAll, List.foldl_cons]
    refine (ih (materialize nodes p.2)).trans ?_
    rw [materialize, Function.update_apply]
    by_cases hp : h = p.2.node
    · subst hp
      rw [if_pos rfl, Option.map_map, textsAt, textsAt, List.filter_cons, if_pos (by simp)]
      rfl
    · rw [if_neg hp, textsAt, textsAt, List.filter_cons, if_neg (by simpa using Ne.symm hp)]

/-- Writing the streams' text once more changes nothing. -/
theorem materializeAll_materializeAll (nodes : Handle → Option Node)
    (streams : List (Sid × OpenStream)) :
    materializeAll (materializeAll nodes streams) streams = materializeAll nodes streams := by
  funext h
  rw [materializeAll_apply, materializeAll_apply, Option.map_map]
  cases nodes h with
  | none => rfl
  | some n => simp [KeyedList.assignAll_assignAll]

/-- The discriminator of a stream event. -/
inductive StreamOp where
  | «open»
  | append
  | close
deriving DecidableEq

/-- One ordered subscription event. -/
inductive Event where
  | patch (cause : EntryId) (prior : Option EntryId) (label : Option String) (ops : List Op)
  | reset (snapshot : Snapshot)
  | stream (cause : EntryId) (sid : Sid) (op : StreamOp) (node : Option Handle)
    (prop : Option PropKey) (text : Option String)

namespace Dom

/-- Every open stream is bound to a node of the tree. -/
def Live (dom : Dom) : Prop := ∀ p ∈ dom.streams.entries, dom.nodes p.2.node ≠ none

/-- `snapshot`, of a tree whose streams are bound. -/
def snapshot (dom : Dom) (h : dom.Live) : Snapshot where
  highWater := dom.highWater
  nextSid := dom.nextSid
  nodes := materializeAll dom.nodes dom.streams.entries
  parents := dom.parents
  streams := dom.streams.entries
  bound p hp := by
    rw [← Option.isSome_iff_ne_none, materializeAll_isSome, Option.isSome_iff_ne_none]
    exact h p hp

/-- What the bytes of `snapshot` say. -/
def canonical (dom : Dom) : Canonical :=
  canonicalize dom.highWater dom.nextSid (materializeAll dom.nodes dom.streams.entries)
    dom.parents dom.streams.entries

/-- `from_snapshot`: the materialized nodes with the stream bindings. -/
def fromSnapshot (s : Snapshot) : Dom where
  nodes := s.nodes
  parents := s.parents
  highWater := s.highWater
  streams := .ofList s.streams
  nextSid := s.nextSid

/-- `validate_stream_open_with_id`. -/
def validateStreamOpen (dom : Dom) (sid : Sid) (handle : Handle) (prop : PropKey) :
    Except DomError Unit :=
  if dom.streams.contains sid then .error (.streamAlreadyOpen sid)
  else if sid < dom.nextSid then .error (.reusedStream sid)
  else
    match dom.get handle with
    | none => .error (.missingHandle 0 handle)
    | some node =>
      match node.prop prop with
      | some (.str _) | none => .ok ()
      | some _ => .error (.nonTextStreamTarget handle prop)

/-- The text stored in a property, empty when there is none. -/
def storedText (dom : Dom) (handle : Handle) (prop : PropKey) : String :=
  (((dom.get handle).bind (·.prop prop)).bind Value.asStr).getD ""

/-- `stream_open_with_id`. -/
def streamOpen (dom : Dom) (cause : EntryId) (sid : Sid) (handle : Handle) (prop : PropKey) :
    Except DomError (Dom × Event) := do
  dom.validateStreamOpen sid handle prop
  let stream : OpenStream :=
    { node := handle, prop, text := dom.storedText handle prop, appendedBytes := 0 }
  return ({ dom with
      streams := dom.streams.insert sid stream
      nextSid := max (max dom.nextSid sid.succ) 1 },
    .stream cause sid .open (some handle) (some prop) none)

/-- `stream_append`. -/
def streamAppend (dom : Dom) (cause : EntryId) (sid : Sid) (text : String) :
    Except DomError (Dom × Event) :=
  match dom.streams.get? sid with
  | none => .error (.missingStream sid)
  | some stream =>
    .ok ({ dom with streams := dom.streams.insert sid (stream.push text) },
      .stream cause sid .append none none (some text))

/-- `stream_close`. When the stream's node is gone the stream is dropped all the same. -/
def streamClose (dom : Dom) (cause : EntryId) (sid : Sid) : Except DomError Event × Dom :=
  match dom.streams.get? sid with
  | none => (.error (.missingStream sid), dom)
  | some stream =>
    let closed := { dom with streams := dom.streams.erase sid }
    match dom.nodes stream.node with
    | none => (.error (.missingHandle 0 stream.node), closed)
    | some _ =>
      (.ok (.stream cause sid .close none none none),
        closed.modifyNode stream.node (·.setProp stream.prop (.str stream.text)))

/-- `reset`. -/
def reset (_dom : Dom) (s : Snapshot) : Dom × Event := (fromSnapshot s, .reset s)

/-- `apply_with_prior`. -/
def applyWithPrior (dom : Dom) (txn : Txn) (prior : Option EntryId) :
    Except DomError (Dom × Event) := do
  let (dom, _) ← dom.apply txn
  return (dom, .patch txn.cause prior txn.label txn.ops)

end Dom

/-! ## Owner and replica -/

/-- A mutation of the authoritative tree. `stream_open` is `streamOpen` at the next identity. -/
inductive OwnerOp where
  | apply (txn : Txn) (prior : Option EntryId)
  | streamOpen (cause : EntryId) (handle : Handle) (prop : PropKey)
  | streamOpenWithId (cause : EntryId) (sid : Sid) (handle : Handle) (prop : PropKey)
  | streamAppend (cause : EntryId) (sid : Sid) (text : String)
  | streamClose (cause : EntryId) (sid : Sid)
  | reset (snapshot : Snapshot)

namespace Dom

/-- A mutation that failed without a trace, or the new state and what it published. -/
def published (dom : Dom) : Except DomError (Dom × Event) → Dom × Option Event
  | .ok (dom', event) => (dom', some event)
  | .error _ => (dom, none)

/-- The state after one mutation and the event it publishes, none when it fails. -/
def perform (dom : Dom) : OwnerOp → Dom × Option Event
  | .apply txn prior => dom.published (dom.applyWithPrior txn prior)
  | .streamOpen cause handle prop =>
    dom.published (dom.streamOpen cause dom.nextSid handle prop)
  | .streamOpenWithId cause sid handle prop =>
    dom.published (dom.streamOpen cause sid handle prop)
  | .streamAppend cause sid text => dom.published (dom.streamAppend cause sid text)
  | .streamClose cause sid =>
    let (result, dom) := dom.streamClose cause sid
    (dom, result.toOption)
  | .reset snapshot => ((dom.reset snapshot).1, some (dom.reset snapshot).2)

/-- `apply_event`: the replica's state and whether it accepted the event. -/
def applyEvent (dom : Dom) : Event → Except DomError Dom
  | .patch cause prior label ops =>
    (dom.applyWithPrior { cause, label, ops } prior).map (·.1)
  | .reset snapshot => .ok (dom.reset snapshot).1
  | .stream cause sid .open node prop text =>
    match node, prop, text with
    | some node, some prop, none => (dom.streamOpen cause sid node prop).map (·.1)
    | _, _, _ => .error (.malformedStream sid)
  | .stream cause sid .append node prop text =>
    match node, prop, text with
    | none, none, some text => (dom.streamAppend cause sid text).map (·.1)
    | _, _, _ => .error (.malformedStream sid)
  | .stream cause sid .close node prop text =>
    match node, prop, text with
    | none, none, none =>
      match dom.streamClose cause sid with
      | (.ok _, dom) => .ok dom
      | (.error e, _) => .error e
    | _, _, _ => .error (.malformedStream sid)

end Dom

end OhMyPi
