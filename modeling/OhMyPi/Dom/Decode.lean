import OhMyPi.Dom.Sequential
import OhMyPi.Journal.Json

/-! Snapshots read from bytes (`Snapshot::from_bytes`). The checks are local: each listed child names
its lister as parent and each parent exists. They do not make the nodes one tree. -/

namespace OhMyPi

open Forest

/-! ## Property values -/

/-- `u64 as f64` for numbers from `2^63` on: the nearest of those with 53 significant bits, ties to
even, as bits. -/
def asF64 (n : UInt64) : UInt64 :=
  let kept := n.toNat / 2048
  let rest := n.toNat % 2048
  let rounded := if rest > 1024 || (rest == 1024 && kept % 2 == 1) then kept + 1 else kept
  UInt64.ofNat (1086 * 4503599627370496 + (rounded - 4503599627370496))

/-- `ValueVisitor`. Objects and arrays are read into a `serde_json::Value` and printed again. -/
def Value.visit (toRawValue : Json → String) : Json → Value
  | .null => .null
  | .bool b => .bool b
  | .number (.posInt n) =>
    if n.toNat < 9223372036854775808 then .int (Int64.ofNat n.toNat) else .float (asF64 n)
  | .number (.negInt n) => .int n
  | .number (.float bits) => .float bits
  | .string text => .str text
  | .array items => .json (toRawValue (.array items))
  | .object fields => .json (toRawValue (.object fields))

/-- `EncodedNodeData`: the property values are still text. -/
structure EncodedNodeData where
  tag : Tag
  props : List (PropKey × String)
  kids : List Handle
  content : Option String
deriving DecidableEq

/-- A handle on the wire is not zero. -/
structure EncodedNode where
  handle : Handle
  parent : Option Handle
  node : EncodedNodeData
  pos : 0 < handle
deriving DecidableEq

structure EncodedSnapshot where
  highWater : Nat
  nextSid : Sid
  nodes : List EncodedNode
  streams : List (Sid × OpenStream)
deriving DecidableEq

/-- What `from_bytes` asks of `serde_json`. -/
structure SnapshotSerde where
  /-- `from_slice` at the encoded snapshot. -/
  encoded : List UInt8 → Option EncodedSnapshot
  /-- `from_str::<serde_json::Value>`. -/
  value : String → Option Json
  /-- `to_raw_value`. -/
  toRawValue : Json → String

inductive SnapshotDecodeError where
  | json
  | highWater (actual limit : Nat)
  | handleOutOfRange (handle highWater : Nat)
  | duplicateHandle (handle : Nat)
  | inconsistentStructure
deriving DecidableEq

/-- `SNAPSHOT_HIGH_WATER_LIMIT`. -/
def snapshotHighWaterLimit : Nat := 1048576

/-- One property of `EncodedNodeData::decode`. -/
def SnapshotSerde.property (serde : SnapshotSerde) (entry : PropKey × String) :
    Except SnapshotDecodeError (PropKey × Value) :=
  match entry.2.toList.head? with
  | some '\x7b' | some '[' => .ok (entry.1, .json entry.2)
  | _ =>
    match serde.value entry.2 with
    | none => .error .json
    | some json => .ok (entry.1, .visit serde.toRawValue json)

/-- `EncodedNodeData::decode`. -/
def EncodedNodeData.decode (data : EncodedNodeData) (serde : SnapshotSerde) :
    Except SnapshotDecodeError Node := do
  let props ← data.props.mapM serde.property
  return { tag := data.tag, props, kids := data.kids, content := data.content }

/-- The slots of a snapshot under construction. -/
structure Slots where
  nodes : Handle → Option Node := fun _ => none
  parents : Handle → Option Handle := fun _ => none

/-- The parent links with that of one encoded node. -/
def Slots.link (slots : Slots) (highWater : Nat) (encoded : EncodedNode) :
    Except SnapshotDecodeError (Handle → Option Handle) :=
  match encoded.parent with
  | none => .ok slots.parents
  | some parent =>
    if parent > highWater then .error (.handleOutOfRange parent highWater)
    else .ok (Function.update slots.parents encoded.handle (some parent))

/-- One round of the loop that fills the slots. -/
def Slots.place (serde : SnapshotSerde) (highWater : Nat) (slots : Slots) (encoded : EncodedNode) :
    Except SnapshotDecodeError Slots := do
  if encoded.handle > highWater then
    throw (.handleOutOfRange encoded.handle highWater)
  if (slots.nodes encoded.handle).isSome then
    throw (.duplicateHandle encoded.handle)
  let parents ← slots.link highWater encoded
  let node ← encoded.node.decode serde
  return { nodes := Function.update slots.nodes encoded.handle (some node), parents }

/-- The four canonical nodes and the children of the root. -/
def Slots.canonicalRoots (slots : Slots) : Bool :=
  [(Dom.root, KnownTag.session, none), (Dom.meta, .meta, some Dom.root),
    (Dom.body, .body, some Dom.root), (Dom.queues, .queues, some Dom.root)].all (fun (h, tag, parent) =>
      (slots.nodes h).map Node.tag == some (.known tag) && slots.parents h == parent) &&
    (slots.nodes Dom.root).map Node.kids == some [Dom.meta, Dom.body, Dom.queues]

/-- What is checked of one slot. -/
def Slots.consistentAt (slots : Slots) (h : Handle) : Bool :=
  match slots.nodes h with
  | none => true
  | some node =>
    node.kids.all (fun child => (slots.nodes child).isSome && slots.parents child == some h) &&
      match slots.parents h with
      | none => true
      | some parent => (slots.nodes parent).isSome

/-- The part of `from_bytes` after parsing. -/
def EncodedSnapshot.decode (encoded : EncodedSnapshot) (serde : SnapshotSerde) :
    Except SnapshotDecodeError Snapshot := do
  if encoded.highWater > snapshotHighWaterLimit then
    throw (.highWater encoded.highWater snapshotHighWaterLimit)
  let highWater := max encoded.highWater 4
  let slots ← encoded.nodes.foldlM (Slots.place serde highWater) {}
  if !slots.canonicalRoots then throw .inconsistentStructure
  if !(List.range highWater).all (fun i => slots.consistentAt (i + 1)) then
    throw .inconsistentStructure
  if bound : ∀ p ∈ encoded.streams, slots.nodes p.2.node ≠ none then
    return { highWater
             nextSid := encoded.nextSid
             nodes := materializeAll slots.nodes encoded.streams
             parents := slots.parents
             streams := encoded.streams
             bound := fun p hp => by
               rw [← Option.isSome_iff_ne_none, materializeAll_isSome, Option.isSome_iff_ne_none]
               exact bound p hp }
  else throw .inconsistentStructure

/-- `Snapshot::from_bytes`. -/
def Snapshot.fromBytes (serde : SnapshotSerde) (bytes : List UInt8) :
    Except SnapshotDecodeError Snapshot :=
  match serde.encoded bytes with
  | none => .error .json
  | some encoded => encoded.decode serde

/-! ## What is accepted -/

theorem EncodedNodeData.decode_kids {data : EncodedNodeData} {serde : SnapshotSerde} {node : Node}
    (h : data.decode serde = .ok node) : node.kids = data.kids := by
  obtain ⟨props, -, h⟩ := Except.bind_eq_ok.1 h
  cases h
  rfl

namespace Slots

/-- The slots hold the encoded nodes placed so far. -/
structure Holds (slots : Slots) (highWater : Nat) (done : List EncodedNode) : Prop where
  nodup : (done.map EncodedNode.handle).Nodup
  kids : ∀ h, (slots.nodes h).map Node.kids =
    (done.find? (·.handle = h)).map fun encoded => encoded.node.kids
  parents : ∀ h, slots.parents h = (done.find? (·.handle = h)).bind EncodedNode.parent
  le : ∀ encoded ∈ done, encoded.handle ≤ highWater

variable {serde : SnapshotSerde} {highWater : Nat} {slots slots' : Slots}
  {done : List EncodedNode}

theorem Holds.mem_handles (h : slots.Holds highWater done) {k : Handle} :
    slots.nodes k ≠ none ↔ k ∈ done.map EncodedNode.handle := by
  rw [← Option.isSome_iff_ne_none, ← Option.isSome_map (f := Node.kids), h.kids, Option.isSome_map,
    List.find?_isSome]
  simp [List.mem_map]

theorem place_eq_ok {encoded : EncodedNode} (h : slots.place serde highWater encoded = .ok slots') :
    encoded.handle ≤ highWater ∧ slots.nodes encoded.handle = none ∧
      ∃ node, node.kids = encoded.node.kids ∧ slots' =
        { nodes := Function.update slots.nodes encoded.handle (some node)
          parents := (encoded.parent.map fun parent =>
            Function.update slots.parents encoded.handle (some parent)).getD slots.parents } := by
  rw [place] at h
  simp only [Except.ite_throw_eq_ok, Bool.not_eq_true, Option.isSome_eq_false_iff,
    Option.isNone_iff_eq_none, not_lt, gt_iff_lt] at h
  obtain ⟨hle, hfree, h⟩ := h
  obtain ⟨parents, hparents, h⟩ := Except.bind_eq_ok.1 h
  obtain ⟨node, hnode, h⟩ := Except.bind_eq_ok.1 h
  cases h
  refine ⟨hle, hfree, node, EncodedNodeData.decode_kids hnode, ?_⟩
  congr 1
  rw [link] at hparents
  cases hparent : encoded.parent with
  | none =>
    rw [hparent] at hparents
    cases hparents
    rfl
  | some parent =>
    rw [hparent] at hparents
    obtain ⟨-, hparents⟩ := Except.ite_error_eq_ok.1 hparents
    cases hparents
    rfl

theorem Holds.place (h : slots.Holds highWater done) {encoded : EncodedNode}
    (hplace : slots.place serde highWater encoded = .ok slots') :
    slots'.Holds highWater (done ++ [encoded]) := by
  obtain ⟨hle, hfree, node, hkids, rfl⟩ := place_eq_ok hplace
  have hnew : encoded.handle ∉ done.map EncodedNode.handle := by
    rw [← h.mem_handles, hfree]
    exact fun hne => hne rfl
  have hfind : done.find? (·.handle = encoded.handle) = none := by
    rw [List.find?_eq_none]
    intro other hother heq
    exact hnew (List.mem_map.2 ⟨other, hother, by simpa using heq⟩)
  have hone : ∀ k, k ≠ encoded.handle → [encoded].find? (·.handle = k) = none := by
    intro k hk
    simp [Ne.symm hk]
  refine ⟨?_, fun k => ?_, fun k => ?_, ?_⟩
  · rw [List.map_append, List.nodup_append]
    refine ⟨h.nodup, by simp, ?_⟩
    rintro k hk _ hk' rfl
    rw [List.map_singleton, List.mem_singleton] at hk'
    exact hnew (hk' ▸ hk)
  · rw [List.find?_append]
    by_cases hk : k = encoded.handle
    · subst hk
      simp [hfind, hkids]
    · rw [hone k hk, Option.or_none, ← h.kids]
      simp [Function.update_of_ne hk]
  · rw [List.find?_append]
    by_cases hk : k = encoded.handle
    · subst hk
      have hold : slots.parents encoded.handle = none := by rw [h.parents, hfind, Option.bind_none]
      cases hparent : encoded.parent with
      | none => simp [hfind, hold, hparent]
      | some parent => simp [hfind, hparent]
    · rw [hone k hk, Option.or_none, ← h.parents]
      cases encoded.parent with
      | none => rfl
      | some parent => simp [Function.update_of_ne hk]
  · intro other hother
    rcases List.mem_append.1 hother with hother | hother
    · exact h.le other hother
    · rw [List.mem_singleton.1 hother]
      exact hle

theorem Holds.foldlM (h : slots.Holds highWater done) {rest : List EncodedNode}
    (hfold : rest.foldlM (Slots.place serde highWater) slots = .ok slots') :
    slots'.Holds highWater (done ++ rest) := by
  induction rest generalizing slots done with
  | nil =>
    cases hfold
    rwa [List.append_nil]
  | cons encoded rest ih =>
    obtain ⟨next, hplace, hfold⟩ := Except.bind_eq_ok.1 hfold
    have := ih (h.place hplace) hfold
    rwa [List.append_assoc] at this

theorem Holds.bounds (h : slots.Holds highWater done) {k : Handle} (hk : slots.nodes k ≠ none) :
    0 < k ∧ k ≤ highWater := by
  obtain ⟨encoded, hmem, rfl⟩ := List.mem_map.1 (h.mem_handles.1 hk)
  exact ⟨encoded.pos, h.le encoded hmem⟩

/-- The checks of a slot that has a node. -/
theorem Holds.consistentAt (h : slots.Holds highWater done)
    (hall : ∀ i < highWater, slots.consistentAt (i + 1) = true) {k : Handle} {node : Node}
    (hnode : slots.nodes k = some node) :
    (∀ child ∈ node.kids, slots.parents child = some k) ∧
      ∀ parent, slots.parents k = some parent → slots.nodes parent ≠ none := by
  obtain ⟨hpos, hle⟩ := h.bounds (k := k) (by simp [hnode])
  have hk := hall (k - 1) (Nat.sub_one_lt_of_le hpos hle)
  rw [Nat.sub_add_cancel hpos, Slots.consistentAt, hnode, Bool.and_eq_true, List.all_eq_true] at hk
  constructor
  · intro child hchild
    have := hk.1 child hchild
    simp only [Bool.and_eq_true, beq_iff_eq] at this
    exact this.2
  · intro parent hparent
    rw [← Option.isSome_iff_ne_none]
    have := hk.2
    rwa [hparent] at this

theorem Holds.empty : ({} : Slots).Holds highWater [] :=
  ⟨.nil, fun _ => rfl, fun _ => rfl, fun _ h => nomatch h⟩

end Slots

namespace EncodedSnapshot

/-- The encoded child list of a handle. -/
def kids (encoded : EncodedSnapshot) (h : Handle) : List Handle :=
  ((encoded.nodes.find? (·.handle = h)).map fun node => node.node.kids).getD []

def handles (encoded : EncodedSnapshot) : List Handle := encoded.nodes.map EncodedNode.handle

/-- A walk along the encoded child lists, from the root on, meets every encoded node once. -/
def Walks (encoded : EncodedSnapshot) : Prop :=
  (walk encoded.kids (encoded.nodes.length + 1) [Dom.root]).Perm encoded.handles

instance instDecidableWalks (encoded : EncodedSnapshot) : Decidable encoded.Walks :=
  inferInstanceAs (Decidable (List.Perm _ _))

variable {serde : SnapshotSerde} {encoded : EncodedSnapshot} {s : Snapshot}

theorem decode_eq_ok (h : encoded.decode serde = .ok s) :
    ∃ slots : Slots, slots.Holds (max encoded.highWater 4) encoded.nodes ∧
      slots.canonicalRoots = true ∧
      (∀ i < max encoded.highWater 4, slots.consistentAt (i + 1) = true) ∧
      s.highWater = max encoded.highWater 4 ∧ s.parents = slots.parents ∧
      s.streams = encoded.streams ∧ s.nodes = materializeAll slots.nodes s.streams := by
  rw [decode] at h
  obtain ⟨-, h⟩ := Except.ite_throw_eq_ok.1 h
  obtain ⟨slots, hslots, h⟩ := Except.bind_eq_ok.1 h
  obtain ⟨hroots, h⟩ := Except.ite_throw_eq_ok.1 h
  obtain ⟨hconsistent, h⟩ := Except.ite_throw_eq_ok.1 h
  split at h
  · cases h
    simp only [Bool.not_eq_true, Bool.not_eq_false', List.all_eq_true, List.mem_range] at hroots hconsistent
    exact ⟨slots, Slots.Holds.empty.foldlM hslots, hroots, hconsistent, rfl, rfl, rfl, rfl⟩
  · cases h

/-- An accepted snapshot describes one tree exactly when the walk meets every node once. -/
theorem tree_iff_walks (h : encoded.decode serde = .ok s) :
    (Dom.fromSnapshot s).skeleton.Tree ↔ encoded.Walks := by
  obtain ⟨slots, hslots, hroots, hconsistent, hhighWater, hparents, -, hnodes⟩ := decode_eq_ok h
  have hskeleton := Dom.skeleton_fromSnapshot hnodes
  have hchildren : (Dom.fromSnapshot s).skeleton.children = encoded.kids := by
    funext k
    rw [hskeleton, kids, ← hslots.kids]
  have hlive : ∀ k, (Dom.fromSnapshot s).skeleton.tag k ≠ none ↔ k ∈ encoded.handles := by
    intro k
    rw [hskeleton, Ne, Option.map_eq_none_iff, handles, ← hslots.mem_handles]
  have hparent : (Dom.fromSnapshot s).skeleton.parent = slots.parents := hparents
  simp only [Slots.canonicalRoots, List.all_cons, List.all_nil, Bool.and_true, Bool.and_eq_true,
    beq_iff_eq] at hroots
  obtain ⟨⟨⟨hsession, hroot⟩, ⟨hmeta, -⟩, ⟨hbody, -⟩, hqueues, -⟩, htop⟩ := hroots
  have hkids : ∀ {p k}, k ∈ encoded.kids p → slots.parents k = some p := by
    intro p k hk
    rw [kids, ← hslots.kids] at hk
    cases hnode : slots.nodes p with
    | none =>
      rw [hnode] at hk
      cases hk
    | some node =>
      rw [hnode] at hk
      exact (hslots.consistentAt hconsistent hnode).1 k hk
  have hlinked : ∀ {a b}, slots.parents a = some b → a ∈ encoded.handles ∧ b ∈ encoded.handles := by
    intro a b hab
    have ha : a ∈ encoded.handles := by
      rw [hslots.parents] at hab
      obtain ⟨node, hnode, -⟩ := Option.bind_eq_some_iff.1 hab
      exact List.mem_map.2 ⟨node, List.mem_of_find?_eq_some hnode, by simpa using List.find?_some hnode⟩
    obtain ⟨node, hnode⟩ := Option.ne_none_iff_exists'.1 (hslots.mem_handles.2 ha)
    exact ⟨ha, hslots.mem_handles.1 ((hslots.consistentAt hconsistent hnode).2 b hab)⟩
  have hrooted := rooted_iff_walk hslots.nodup hkids hlinked hroot
    ((hslots.mem_handles (k := Dom.root)).1 (by
      intro hnone
      rw [hnone] at hsession
      cases hsession))
  rw [List.length_map] at hrooted
  rw [Walks, handles, ← hrooted]
  constructor
  · intro htree
    have := htree.toRooted.congr_live hlive
    rwa [hchildren, hparent] at this
  · intro htree
    refine ⟨?_, ?_, ?_, ?_, ?_, ?_, ?_, ?_⟩
    · rw [hchildren, hparent]
      exact htree.congr_live fun k => (hlive k).symm
    · intro k hk
      exact (hslots.bounds (hslots.mem_handles.2 ((hlive k).1 hk))).1
    · intro k hk
      have := (hslots.bounds (hslots.mem_handles.2 ((hlive k).1 hk))).2
      rwa [hskeleton, hhighWater]
    · rw [hskeleton]
      exact hsession
    · rw [hskeleton]
      exact hmeta
    · rw [hskeleton]
      exact hbody
    · rw [hskeleton]
      exact hqueues
    · rw [hskeleton]
      simp only [htop, Option.getD_some]

end EncodedSnapshot

/-- The tree invariant of a snapshot: its nodes are one tree and its streams have different ids. -/
def Snapshot.WellFormed (s : Snapshot) : Prop :=
  (Dom.fromSnapshot s).skeleton.Tree ∧ (s.streams.map Prod.fst).Nodup

namespace EncodedSnapshot

/-- The encoding of a new tree with further nodes. -/
def withNodes (highWater : Nat) (nodes : List EncodedNode) : EncodedSnapshot where
  highWater := highWater
  nextSid := 1
  nodes :=
    { handle := 1
      parent := none
      node := { tag := .known .session, props := [], kids := [2, 3, 4], content := none }
      pos := by decide } ::
    { handle := 2
      parent := some 1
      node := { tag := .known .meta, props := [], kids := [], content := none }
      pos := by decide } ::
    { handle := 3
      parent := some 1
      node := { tag := .known .body, props := [], kids := [], content := none }
      pos := by decide } ::
    { handle := 4
      parent := some 1
      node := { tag := .known .queues, props := [], kids := [], content := none }
      pos := by decide } :: nodes
  streams := []

/-- Two nodes that are each other's only child. -/
def cyclic : EncodedSnapshot :=
  withNodes 6
    [{ handle := 5
       parent := some 6
       node := { tag := .known .turn, props := [], kids := [6], content := none }
       pos := by decide },
     { handle := 6
       parent := some 5
       node := { tag := .known .turn, props := [], kids := [5], content := none }
       pos := by decide }]

/-- `serde_json` on the bytes of one snapshot. -/
def serdeFor (bytes : List UInt8) (encoded : EncodedSnapshot) : SnapshotSerde where
  encoded input := if input = bytes then some encoded else none
  value _ := none
  toRawValue _ := ""

theorem encoded_serdeFor (bytes : List UInt8) (encoded : EncodedSnapshot) :
    (serdeFor bytes encoded).encoded bytes = some encoded := if_pos rfl

/-- The four canonical nodes as they are written. -/
def canonicalText : String :=
  "\x7b\"handle\":1,\"parent\":null,\"node\":\x7b\"tag\":\"session\",\"props\":[]," ++
  "\"kids\":[2,3,4],\"content\":null\x7d\x7d," ++
  "\x7b\"handle\":2,\"parent\":1,\"node\":\x7b\"tag\":\"meta\",\"props\":[]," ++
  "\"kids\":[],\"content\":null\x7d\x7d," ++
  "\x7b\"handle\":3,\"parent\":1,\"node\":\x7b\"tag\":\"body\",\"props\":[]," ++
  "\"kids\":[],\"content\":null\x7d\x7d," ++
  "\x7b\"handle\":4,\"parent\":1,\"node\":\x7b\"tag\":\"queues\",\"props\":[]," ++
  "\"kids\":[],\"content\":null\x7d\x7d"

def newBytes : List UInt8 :=
  ("\x7b\"high_water\":4,\"next_sid\":1,\"nodes\":[" ++ canonicalText ++
    "],\"streams\":[]\x7d").toUTF8.toList

def cyclicBytes : List UInt8 :=
  ("\x7b\"high_water\":6,\"next_sid\":1,\"nodes\":[" ++ canonicalText ++
    ",\x7b\"handle\":5,\"parent\":6,\"node\":\x7b\"tag\":\"turn\",\"props\":[]," ++
    "\"kids\":[6],\"content\":null\x7d\x7d," ++
    "\x7b\"handle\":6,\"parent\":5,\"node\":\x7b\"tag\":\"turn\",\"props\":[]," ++
    "\"kids\":[5],\"content\":null\x7d\x7d],\"streams\":[]\x7d").toUTF8.toList

/-- A decoding that succeeds, as far as it can be run. -/
theorem exists_of_isSome (encoded : EncodedSnapshot) (serde : SnapshotSerde)
    (h : (encoded.decode serde).toOption.isSome = true) : ∃ s, encoded.decode serde = .ok s := by
  cases hdecode : encoded.decode serde with
  | error e =>
    rw [hdecode] at h
    cases h
  | ok s => exact ⟨s, rfl⟩

end EncodedSnapshot

end OhMyPi
