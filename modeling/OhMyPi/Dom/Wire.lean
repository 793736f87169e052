import OhMyPi.Dom.Decode
import OhMyPi.Dom.Values
import OhMyPi.Lib.Text

/-! The event codec (`dom/src/wire.rs`) with the readers and writers of operations and property
values (`dom/src/op.rs`, `dom/src/node.rs`). Documents are what `serde_json` is given to write: it
prints them, and reads a printed document back with every raw text parsed and every float as it was
printed. -/

namespace OhMyPi

/-- A document to be written. -/
inductive Doc where
  | null
  | bool (b : Bool)
  | posInt (n : UInt64)
  | negInt (n : Int64)
  | float (bits : UInt64)
  | string (text : String)
  | raw (text : String)
  | array (items : List Doc)
  | object (fields : List (String × Doc))

/-- What the codec asks of `serde_json`. -/
structure WireSerde extends SnapshotSerde where
  /-- `to_vec`, as text. -/
  write : Doc → String
  /-- `from_slice`, of any type: the document the reader of that type is driven by. -/
  read : List UInt8 → Option Json
  /-- `from_slice` at a record: its fields with the texts of their values. -/
  readFields : List UInt8 → Option (List (String × List UInt8))
  /-- `from_slice` at a raw value: its text. -/
  rawValue : List UInt8 → Option String
  /-- What a printed float is read as. -/
  readFloat : UInt64 → Json

namespace Doc

mutual

/-- The document as it is read back. -/
def reread (serde : WireSerde) : Doc → Option Json
  | null => some .null
  | bool b => some (.bool b)
  | posInt n => some (.number (.posInt n))
  | negInt n => some (.number (.negInt n))
  | float bits => some (serde.readFloat bits)
  | string text => some (.string text)
  | raw text => serde.value text
  | array items => (rereadItems serde items).map .array
  | object fields => (rereadFields serde fields).map .object

def rereadItems (serde : WireSerde) : List Doc → Option (List Json)
  | [] => some []
  | item :: items => (item.reread serde).bind fun json =>
    (rereadItems serde items).map (json :: ·)

def rereadFields (serde : WireSerde) : List (String × Doc) → Option (List (String × Json))
  | [] => some []
  | (key, doc) :: fields => (doc.reread serde).bind fun json =>
    (rereadFields serde fields).map ((key, json) :: ·)

end

end Doc

/-- `serde_json` reads back what it wrote under these fields, up to its limit on nested documents. -/
structure WireSerde.Prints (serde : WireSerde) (fields : List (String × Doc)) : Prop where
  envelope : serde.readFields (Text.bytes (serde.write (.object fields))) =
    some (fields.map fun p => (p.1, Text.bytes (serde.write p.2)))
  read : ∀ p ∈ fields, (∀ json, p.2.reread serde = some json → json.depth ≤ 127) →
    serde.read (Text.bytes (serde.write p.2)) = p.2.reread serde
  raw : ∀ text, serde.write (.raw text) = text
  record : ∀ bytes, serde.encoded bytes ≠ none → serde.read bytes ≠ some .null

/-! ## Writers -/

/-- `Serialize for Tag`. -/
def Tag.serialize : Tag → String
  | .known tag => tag.toStr
  | .custom name => "tool:" ++ name

/-- `Serialize for PropKey`. -/
def PropKey.serialize : PropKey → String
  | .known prop => prop.toStr
  | .custom name => "custom:" ++ name

/-- `Serialize for Value`, untagged. -/
def Value.serialize : Value → Doc
  | .null => .null
  | .bool b => .bool b
  | .int n => if 0 ≤ n then .posInt n.toUInt64 else .negInt n
  | .float bits => .float bits
  | .str text => .string text
  | .json raw => .raw raw

def Handle.serialize (h : Handle) : Doc := .posInt (.ofNat h)

def serializeOption {α : Type*} (f : α → Doc) : Option α → Doc
  | none => .null
  | some a => f a

def serializeProps (props : List (PropKey × Value)) : Doc :=
  .array (props.map fun p => .array [.string p.1.serialize, p.2.serialize])

/-- `Serialize for NodeSpec`: empty properties and missing content are skipped. -/
def NodeSpec.serialize (spec : NodeSpec) : Doc :=
  .object ([("tag", .string spec.tag.serialize)] ++
    (if spec.props.isEmpty then [] else [("props", serializeProps spec.props)]) ++
    (match spec.content with
      | none => []
      | some content => [("content", .string content)]))

/-- `Serialize for Op`. -/
def Op.serialize : Op → Doc
  | .ins parent after node => .array
    [.string "ins", Handle.serialize parent, serializeOption Handle.serialize after, node.serialize]
  | .rm h => .array [.string "rm", Handle.serialize h]
  | .set h prop value => .array
    [.string "set", Handle.serialize h, .string prop.serialize, value.serialize]
  | .mv h parent after => .array
    [.string "mv", Handle.serialize h, Handle.serialize parent,
      serializeOption Handle.serialize after]

def EntryId.serialize (id : EntryId) : Doc := .string (String.ofList id.encode)

def StreamOp.toStr : StreamOp → String
  | .open => "open"
  | .append => "append"
  | .close => "close"

/-- `Serialize for Patch`. -/
def serializePatch (cause : EntryId) (prior : Option EntryId) (label : Option String)
    (ops : List Op) : Doc :=
  .object [("cause", EntryId.serialize cause), ("prior", serializeOption EntryId.serialize prior),
    ("label", serializeOption .string label), ("ops", .array (ops.map Op.serialize))]

/-- The fields of `Outgoing`, given the text of the snapshot. -/
def Event.outgoing (text : String) : Event → List (String × Doc)
  | .patch cause prior label ops =>
    [("kind", .string "patch@1"), ("data", serializePatch cause prior label ops)]
  | .reset _ => [("kind", .string "snapshot@1"), ("data", .raw text)]
  | .stream cause sid op node prop text => [("kind", .string "stream@1"),
    ("cause", EntryId.serialize cause), ("sid", .posInt (.ofNat sid.val)),
    ("op", .string op.toStr), ("node", serializeOption Handle.serialize node),
    ("prop", serializeOption (fun key => .string key.serialize) prop),
    ("text", serializeOption .string text)]

/-- `encode_event`, given the bytes that snapshots carry. -/
def encodeEvent (serde : WireSerde) (asBytes : Snapshot → List UInt8) (event : Event) :
    Option (List UInt8) :=
  let write text := Text.bytes (serde.write (.object (event.outgoing text)))
  match event with
  | .reset snapshot => (serde.rawValue (asBytes snapshot)).map write
  | _ => some (write "")

/-! ## Readers -/

/-- A field as derived readers take it: it may be missing, but not repeated. -/
def readField {α : Type*} (fields : List (String × α)) (key : String) : Option (Option α) :=
  match fields.filter (·.1 = key) with
  | [] => some none
  | [p] => some (some p.2)
  | _ => none

def deserializeOption {α : Type*} (f : Json → Option α) : Json → Option (Option α)
  | .null => some none
  | json => (f json).map some

/-- A handle is a nonzero number. -/
def Handle.deserialize : Json → Option Handle
  | .number (.posInt n) => if n = 0 then none else some n.toNat
  | _ => none

def Sid.deserialize : Json → Option Sid
  | .number (.posInt n) => if h : n.toNat < 4294967296 then some ⟨n.toNat, h⟩ else none
  | _ => none

def EntryId.deserialize : Json → Option EntryId
  | .string text => (Ulid.fromStr text.toList).toOption
  | _ => none

/-- `EnumString`: the exact names and nothing else. -/
def KnownTag.fromStr (value : String) : Option KnownTag :=
  ((List.range 26).map KnownTag.ofNat).find? (·.toStr = value)

/-- `FromStr for Tag`. -/
def Tag.fromStr (value : String) : Tag :=
  if "tool:".toList <+: value.toList then .custom (String.ofList (value.toList.drop 5))
  else
    match KnownTag.fromStr value with
    | some tag => .known tag
    | none => .custom value

def StreamOp.deserialize : Json → Option StreamOp
  | .string "open" => some .open
  | .string "append" => some .append
  | .string "close" => some .close
  | _ => none

def PropKey.deserialize (json : Json) : Option PropKey := json.asStr.map PropKey.fromStr

section

variable (serde : WireSerde)

/-- `Deserialize for Value`. -/
def Value.deserialize (json : Json) : Value := .visit serde.toRawValue json

def deserializeProp : Json → Option (PropKey × Value)
  | .array [key, value] => (PropKey.deserialize key).map fun key => (key, .deserialize serde value)
  | _ => none

def deserializeProps : Json → Option (List (PropKey × Value))
  | .array items => items.mapM (deserializeProp serde)
  | _ => none

/-- `Deserialize for NodeSpec`. -/
def NodeSpec.deserialize : Json → Option NodeSpec
  | .object fields => do
    let tag ← (← readField fields "tag").bind Json.asStr
    let props ← ((← readField fields "props").map (deserializeProps serde)).getD (some [])
    let content ← ((← readField fields "content").map (deserializeOption Json.asStr)).getD (some none)
    return { tag := Tag.fromStr tag, props, content }
  | _ => none

/-- `OpVisitor`. -/
def Op.deserialize : Json → Option Op
  | .array [.string "ins", parent, after, node] => do
    return .ins (← Handle.deserialize parent) (← deserializeOption Handle.deserialize after)
      (← NodeSpec.deserialize serde node)
  | .array [.string "rm", h] => return .rm (← Handle.deserialize h)
  | .array [.string "set", h, prop, value] => do
    return .set (← Handle.deserialize h) (← PropKey.deserialize prop) (.deserialize serde value)
  | .array [.string "mv", h, parent, after] => do
    return .mv (← Handle.deserialize h) (← Handle.deserialize parent)
      (← deserializeOption Handle.deserialize after)
  | _ => none

/-- `Deserialize for Patch`. -/
def deserializePatch : Json → Option Event
  | .object fields => do
    let cause ← (← readField fields "cause").bind EntryId.deserialize
    let prior ← ((← readField fields "prior").map
      (deserializeOption EntryId.deserialize)).getD (some none)
    let label ← ((← readField fields "label").map (deserializeOption Json.asStr)).getD (some none)
    let ops ← (← (← readField fields "ops").bind Json.asArray).mapM (Op.deserialize serde)
    return .patch cause prior label ops
  | _ => none

end

inductive EventDecodeError where
  | envelope
  | snapshot (e : SnapshotDecodeError)
  | unknownKind (kind : String)
  | missingField (field : String)
deriving DecidableEq

/-- The fields of `Incoming`. -/
structure Incoming where
  kind : Option String
  data : Option (List UInt8)
  cause : Option EntryId
  sid : Option Sid
  op : Option StreamOp
  node : Option Handle
  prop : Option PropKey
  text : Option String

/-- `from_slice` at `Incoming`. -/
def Incoming.deserialize (serde : WireSerde) (bytes : List UInt8) : Option Incoming := do
  let fields ← serde.readFields bytes
  let optional {α : Type} (key : String) (f : Json → Option α) : Option (Option α) := do
    match ← readField fields key with
    | none => return none
    | some text => deserializeOption f (← serde.read text)
  let data ← readField fields "data"
  return {
    kind := ← optional "kind" Json.asStr
    data := data.filter fun text => !(serde.read text matches some .null)
    cause := ← optional "cause" EntryId.deserialize
    sid := ← optional "sid" Sid.deserialize
    op := ← optional "op" StreamOp.deserialize
    node := ← optional "node" Handle.deserialize
    prop := ← optional "prop" PropKey.deserialize
    text := ← optional "text" Json.asStr }

def required {α : Type} (value : Option α) (field : String) : Except EventDecodeError α :=
  match value with
  | none => .error (.missingField field)
  | some a => .ok a

def Incoming.toEvent (serde : WireSerde) (incoming : Incoming) : Except EventDecodeError Event :=
  match incoming.kind with
  | none => .error (.missingField "kind")
  | some "patch@1" => do
    let data ← required incoming.data "data"
    match (serde.read data).bind (deserializePatch serde) with
    | none => .error .envelope
    | some event => .ok event
  | some "snapshot@1" => do
    let data ← required incoming.data "data"
    match Snapshot.fromBytes serde.toSnapshotSerde data with
    | .error e => .error (.snapshot e)
    | .ok snapshot => .ok (.reset snapshot)
  | some "stream@1" => do
    let cause ← required incoming.cause "cause"
    let sid ← required incoming.sid "sid"
    let op ← required incoming.op "op"
    return .stream cause sid op incoming.node incoming.prop incoming.text
  | some kind => .error (.unknownKind kind)

/-- `decode_event`. -/
def decodeEvent (serde : WireSerde) (bytes : List UInt8) : Except EventDecodeError Event :=
  match Incoming.deserialize serde bytes with
  | none => .error .envelope
  | some incoming => incoming.toEvent serde

/-! ## Names and numbers -/

theorem KnownTag.fromStr_toStr (tag : KnownTag) : KnownTag.fromStr tag.toStr = some tag := by
  cases tag <;> rfl

theorem PropId.fromStr_toStr (prop : PropId) : PropId.fromStr prop.toStr = some prop := by
  cases prop <;> rfl

@[simp] theorem Tag.fromStr_serialize (tag : Tag) : Tag.fromStr tag.serialize = tag := by
  cases tag with
  | known tag =>
    have hplain : ¬ "tool:".toList <+: tag.toStr.toList := by cases tag <;> decide
    rw [serialize, fromStr, if_neg hplain, KnownTag.fromStr_toStr]
  | custom name =>
    have hmarked : "tool:".toList <+: ("tool:" ++ name).toList := by simp
    rw [serialize, fromStr, if_pos hmarked]
    simp

@[simp] theorem PropKey.fromStr_serialize (key : PropKey) : PropKey.fromStr key.serialize = key := by
  cases key with
  | known prop =>
    have hplain : stripCustom prop.toStr = none := by cases prop <;> rfl
    rw [serialize, fromStr, hplain, PropId.fromStr_toStr]
  | custom name =>
    have hmarked : "custom:".toList <+: ("custom:" ++ name).toList := by simp
    rw [serialize, fromStr, stripCustom, if_pos hmarked]
    simp

@[simp] theorem PropKey.deserialize_string (key : PropKey) :
    PropKey.deserialize (.string key.serialize) = some key := by
  simp [PropKey.deserialize, Json.asStr]

/-- Handles are nonzero 64-bit numbers. -/
def Handle.Valid (h : Handle) : Prop := 0 < h ∧ h < 18446744073709551616

theorem Handle.deserialize_posInt {h : Handle} (hvalid : Handle.Valid h) :
    Handle.deserialize (.number (.posInt (.ofNat h))) = some h := by
  obtain ⟨hpos, hlt⟩ := hvalid
  have hnat : (UInt64.ofNat h).toNat = h := by
    rw [UInt64.toNat_ofNat']
    exact Nat.mod_eq_of_lt hlt
  have hne : UInt64.ofNat h ≠ 0 := by
    intro hzero
    rw [hzero] at hnat
    exact absurd hnat (Nat.ne_of_lt hpos)
  rw [Handle.deserialize, if_neg hne, hnat]

@[simp] theorem deserializeOption_string {α : Type} (f : Json → Option α) (text : String) :
    deserializeOption f (.string text) = (f (.string text)).map some := rfl

@[simp] theorem deserializeOption_number {α : Type} (f : Json → Option α) (n : JsonNumber) :
    deserializeOption f (.number n) = (f (.number n)).map some := rfl

@[simp] theorem Json.asStr_string (text : String) : Json.asStr (.string text) = some text := rfl

/-- Reading back an optional scalar. -/
theorem reread_serializeOption {serde : WireSerde} {α : Type} {write : α → Doc}
    {read : Json → Option α} {a : Option α}
    (h : ∀ x ∈ a, ∃ json, (write x).reread serde = some json ∧ json ≠ .null ∧ json.depth = 0 ∧
      read json = some x) :
    ∃ json, (serializeOption write a).reread serde = some json ∧ json.depth = 0 ∧
      deserializeOption read json = some a := by
  cases a with
  | none => exact ⟨.null, rfl, rfl, rfl⟩
  | some x =>
    obtain ⟨json, hjson, hnull, hdepth, hread⟩ := h x rfl
    refine ⟨json, hjson, hdepth, ?_⟩
    rw [deserializeOption, hread]
    · rfl
    · exact hnull

theorem Handle.reread_option (serde : WireSerde) {h : Option Handle}
    (hvalid : ∀ k ∈ h, Handle.Valid k) :
    ∃ json, (serializeOption Handle.serialize h).reread serde = some json ∧ json.depth = 0 ∧
      deserializeOption Handle.deserialize json = some h :=
  reread_serializeOption fun k hk =>
    ⟨_, rfl, by simp, rfl, Handle.deserialize_posInt (hvalid k hk)⟩

theorem reread_optionString {serde : WireSerde} {text : Option String} :
    ∃ json, (serializeOption Doc.string text).reread serde = some json ∧ json.depth = 0 ∧
      deserializeOption Json.asStr json = some text :=
  reread_serializeOption fun _ _ => ⟨_, rfl, by simp, rfl, rfl⟩

@[simp] theorem EntryId.deserialize_string (id : EntryId) :
    EntryId.deserialize (.string (String.ofList id.encode)) = some id := by
  rw [EntryId.deserialize, String.toList_ofList, Ulid.fromStr_encode]
  rfl

/-! ## Values -/

section

variable (serde : WireSerde)

/-- A value as it is read back, when it can be. -/
def Value.settle (v : Value) : Value := ((v.serialize.reread serde).map (deserialize serde)).getD v

/-- The text that a value has in canonical bytes. -/
def Value.text (v : Value) : String := serde.write v.serialize

/-- The value is read back with the text that it was written with. Floats depend on how they are
printed and parsed; raw JSON has to be written the way `serde_json` writes it. -/
def Value.ReadsBack : Value → Prop
  | .float bits => (deserialize serde (serde.readFloat bits)).text serde = text serde (.float bits)
  | .json raw => ∃ json, serde.value raw = some json ∧
    (deserialize serde json).text serde = text serde (.json raw)
  | _ => True

end

variable {serde : WireSerde}

theorem Value.reread_int (serde : WireSerde) (n : Int64) :
    ∃ json, (Value.serialize (.int n)).reread serde = some json ∧ deserialize serde json = .int n := by
  by_cases hn : 0 ≤ n
  · refine ⟨_, by rw [serialize, if_pos hn, Doc.reread], ?_⟩
    have hlt : n.toUInt64.toNat < 9223372036854775808 := by
      rw [Int64.toNat_toUInt64_of_le hn]
      exact n.toNatClampNeg_lt
    have hof : Int64.ofNat n.toUInt64.toNat = n := by
      apply Int64.toBitVec_inj.1
      simp [Int64.ofNat, ← Int64.toNat_toBitVec]
    rw [deserialize, visit, if_pos hlt, hof]
  · exact ⟨_, by rw [serialize, if_neg hn, Doc.reread], rfl⟩

/-- Values that read back are read, with the same text. -/
theorem Value.ReadsBack.spec {v : Value} (h : v.ReadsBack serde) :
    ∃ json, v.serialize.reread serde = some json ∧ v.settle serde = deserialize serde json ∧
      (v.settle serde).text serde = v.text serde := by
  have hsettle : ∀ json, v.serialize.reread serde = some json →
      (deserialize serde json).text serde = v.text serde →
      ∃ json, v.serialize.reread serde = some json ∧ v.settle serde = deserialize serde json ∧
        (v.settle serde).text serde = v.text serde := by
    intro json hjson htext
    have heq : v.settle serde = deserialize serde json := by rw [settle, hjson]; rfl
    exact ⟨json, hjson, heq, by rw [heq, htext]⟩
  cases v with
  | null => exact hsettle .null rfl rfl
  | bool b => exact hsettle (.bool b) rfl rfl
  | int n =>
    obtain ⟨json, hjson, hint⟩ := reread_int serde n
    exact hsettle json hjson (by rw [hint])
  | float bits => exact hsettle _ rfl h
  | str text => exact hsettle (.string text) rfl rfl
  | json raw =>
    obtain ⟨json, hjson, htext⟩ := h
    exact hsettle json hjson htext

/-! ## Operations -/

/-- The values that an operation writes. -/
def Op.values : Op → List Value
  | .ins _ _ node => node.props.map Prod.snd
  | .set _ _ value => [value]
  | _ => []

/-- The handles that an operation names. -/
def Op.handles : Op → List Handle
  | .ins parent after _ => parent :: after.toList
  | .rm h => [h]
  | .set h _ _ => [h]
  | .mv h parent after => h :: parent :: after.toList

/-- Items that are read one by one. -/
theorem Doc.rereadItems_map {α β : Type} {write : α → Doc} {read : Json → Option β} {f : α → β}
    {l : List α} (h : ∀ a ∈ l, ∃ json, (write a).reread serde = some json ∧ read json = some (f a)) :
    ∃ jsons, rereadItems serde (l.map write) = some jsons ∧ jsons.mapM read = some (l.map f) := by
  induction l with
  | nil => exact ⟨[], rfl, rfl⟩
  | cons a l ih =>
    obtain ⟨⟨json, hjson, hread⟩, hl⟩ := List.forall_mem_cons.1 h
    obtain ⟨jsons, hjsons, hreads⟩ := ih hl
    refine ⟨json :: jsons, ?_, ?_⟩
    · simp [rereadItems, hjson, hjsons]
    · simp [List.mapM_cons, hread, hreads]

theorem reread_serializeProps {props : List (PropKey × Value)}
    (h : ∀ p ∈ props, p.2.ReadsBack serde) :
    ∃ json, (serializeProps props).reread serde = some json ∧
      deserializeProps serde json = some (KeyedList.mapValues (Value.settle serde) props) := by
  have hitem : ∀ p ∈ props, ∃ json,
      (Doc.array [.string p.1.serialize, p.2.serialize]).reread serde = some json ∧
        deserializeProp serde json = some (p.1, p.2.settle serde) := by
    intro p hp
    obtain ⟨json, hjson, hsettle, -⟩ := (h p hp).spec
    refine ⟨.array [.string p.1.serialize, json], ?_, ?_⟩
    · simp [Doc.reread, Doc.rereadItems, hjson]
    · simp [deserializeProp, hsettle]
  obtain ⟨jsons, hjsons, hread⟩ := Doc.rereadItems_map hitem
  refine ⟨.array jsons, ?_, hread⟩
  rw [serializeProps, Doc.reread, hjsons]
  rfl

theorem NodeSpec.reread_serialize {spec : NodeSpec} (h : ∀ p ∈ spec.props, p.2.ReadsBack serde) :
    ∃ json, spec.serialize.reread serde = some json ∧
      NodeSpec.deserialize serde json = some (spec.mapValues (Value.settle serde)) := by
  obtain ⟨tag, props, content⟩ := spec
  obtain ⟨json, hjson, hprops⟩ := reread_serializeProps h
  have hskipped : props = [] → KeyedList.mapValues (Value.settle serde) props = [] := by
    rintro rfl
    rfl
  by_cases hempty : props = []
  · cases content with
    | none =>
      refine ⟨.object [("tag", .string tag.serialize)], ?_, ?_⟩
      · simp [serialize, hempty, Doc.reread, Doc.rereadFields]
      · simp [deserialize, readField, Json.asStr, mapValues, hskipped hempty]
    | some content =>
      refine ⟨.object [("tag", .string tag.serialize), ("content", .string content)], ?_, ?_⟩
      · simp [serialize, hempty, Doc.reread, Doc.rereadFields]
      · simp [deserialize, readField, Json.asStr, mapValues, hskipped hempty, deserializeOption]
  · cases content with
    | none =>
      refine ⟨.object [("tag", .string tag.serialize), ("props", json)], ?_, ?_⟩
      · simp [serialize, hempty, Doc.reread, Doc.rereadFields, hjson]
      · simp [deserialize, readField, Json.asStr, mapValues, hprops]
    | some content =>
      refine ⟨.object [("tag", .string tag.serialize), ("props", json),
        ("content", .string content)], ?_, ?_⟩
      · simp [serialize, hempty, Doc.reread, Doc.rereadFields, hjson]
      · simp [deserialize, readField, Json.asStr, mapValues, hprops, deserializeOption]

theorem Op.reread_serialize {op : Op} (hhandles : ∀ h ∈ op.handles, Handle.Valid h)
    (hvalues : ∀ v ∈ op.values, v.ReadsBack serde) :
    ∃ json, op.serialize.reread serde = some json ∧
      Op.deserialize serde json = some (op.mapValues (Value.settle serde)) := by
  cases op with
  | ins parent after node =>
    obtain ⟨json, hjson, hnode⟩ : ∃ json, node.serialize.reread serde = some json ∧
        NodeSpec.deserialize serde json = some (node.mapValues (Value.settle serde)) :=
      NodeSpec.reread_serialize fun p hp => hvalues p.2 (List.mem_map_of_mem hp)
    obtain ⟨after', hafter, -, hread⟩ := Handle.reread_option serde (h := after) fun k hk => hhandles k (by simp [handles, Option.mem_def.1 hk])
    have hparent := Handle.deserialize_posInt (hhandles parent (by simp [handles]))
    refine ⟨.array [.string "ins", .number (.posInt (.ofNat parent)), after', json], ?_, ?_⟩
    · simp [serialize, Doc.reread, Doc.rereadItems, Handle.serialize, hafter, hjson]
    · simp [deserialize, hparent, hread, hnode, mapValues]
  | rm h =>
    have hh := Handle.deserialize_posInt (hhandles h (by simp [handles]))
    refine ⟨.array [.string "rm", .number (.posInt (.ofNat h))], rfl, ?_⟩
    simp [deserialize, hh, mapValues]
  | set h prop value =>
    have hh := Handle.deserialize_posInt (hhandles h (by simp [handles]))
    obtain ⟨json, hjson, hsettle, -⟩ := (hvalues value (by simp [values])).spec
    refine ⟨.array [.string "set", .number (.posInt (.ofNat h)), .string prop.serialize, json], ?_, ?_⟩
    · simp [serialize, Doc.reread, Doc.rereadItems, Handle.serialize, hjson]
    · simp [deserialize, hh, mapValues, hsettle]
  | mv h parent after =>
    have hh := Handle.deserialize_posInt (hhandles h (by simp [handles]))
    have hparent := Handle.deserialize_posInt (hhandles parent (by simp [handles]))
    obtain ⟨after', hafter, -, hread⟩ := Handle.reread_option serde (h := after) fun k hk => hhandles k (by simp [handles, Option.mem_def.1 hk])
    refine ⟨.array [.string "mv", .number (.posInt (.ofNat h)), .number (.posInt (.ofNat parent)),
      after'], ?_, ?_⟩
    · simp [serialize, Doc.reread, Doc.rereadItems, Handle.serialize, hafter]
    · simp [deserialize, hh, hparent, hread, mapValues]

/-! ## Patches and stream events -/

theorem reread_serializePatch (cause : EntryId) (prior : Option EntryId) (label : Option String)
    {ops : List Op} (hhandles : ∀ op ∈ ops, ∀ h ∈ op.handles, Handle.Valid h)
    (hvalues : ∀ op ∈ ops, ∀ v ∈ op.values, v.ReadsBack serde) :
    ∃ json, (serializePatch cause prior label ops).reread serde = some json ∧
      deserializePatch serde json =
        some (.patch cause prior label (ops.map (Op.mapValues (Value.settle serde)))) := by
  obtain ⟨prior', hprior, -, hreadPrior⟩ : ∃ json,
      (serializeOption EntryId.serialize prior).reread serde = some json ∧ json.depth = 0 ∧
        deserializeOption EntryId.deserialize json = some prior :=
    reread_serializeOption fun id _ => ⟨_, rfl, by simp, rfl, EntryId.deserialize_string id⟩
  obtain ⟨label', hlabel, -, hreadLabel⟩ : ∃ json,
      (serializeOption Doc.string label).reread serde = some json ∧ json.depth = 0 ∧
        deserializeOption Json.asStr json = some label := reread_optionString
  obtain ⟨jsons, hjsons, hops⟩ := Doc.rereadItems_map fun op hop =>
    Op.reread_serialize (hhandles op hop) (hvalues op hop)
  refine ⟨.object [("cause", .string (String.ofList cause.encode)), ("prior", prior'),
    ("label", label'), ("ops", .array jsons)], ?_, ?_⟩
  · simp [serializePatch, Doc.reread, Doc.rereadFields, EntryId.serialize, hprior, hlabel, hjsons]
  · simp [deserializePatch, readField, hreadPrior, hreadLabel, Json.asArray, hops]

/-- The fields of an envelope with a payload. -/
theorem Incoming.deserialize_pair {bytes kind data : List UInt8} {name : String}
    (hfields : serde.readFields bytes = some [("kind", kind), ("data", data)])
    (hkind : serde.read kind = some (.string name)) (hdata : serde.read data ≠ some .null) :
    Incoming.deserialize serde bytes =
      some { kind := some name, data := some data, cause := none, sid := none, op := none
             node := none, prop := none, text := none } := by
  rw [Incoming.deserialize, hfields]
  simp [readField, hkind]

theorem decode_patch {cause : EntryId} {prior : Option EntryId} {label : Option String}
    {ops : List Op} (hprints : serde.Prints (Event.outgoing "" (.patch cause prior label ops)))
    (hdepth : ∀ json, (serializePatch cause prior label ops).reread serde = some json → json.depth ≤ 127)
    (hhandles : ∀ op ∈ ops, ∀ h ∈ op.handles, Handle.Valid h)
    (hvalues : ∀ op ∈ ops, ∀ v ∈ op.values, v.ReadsBack serde) :
    decodeEvent serde
        (Text.bytes (serde.write (.object (Event.outgoing "" (.patch cause prior label ops))))) =
      .ok (.patch cause prior label (ops.map (Op.mapValues (Value.settle serde)))) := by
  obtain ⟨json, hjson, hpatch⟩ := reread_serializePatch cause prior label hhandles hvalues
  have hkind : serde.read (Text.bytes (serde.write (.string "patch@1"))) = some (.string "patch@1") :=
    hprints.read ("kind", _) (by simp [Event.outgoing]) (by simp [Doc.reread, Json.depth])
  have hdata : serde.read (Text.bytes (serde.write (serializePatch cause prior label ops))) = some json :=
    (hprints.read ("data", serializePatch cause prior label ops) (by simp [Event.outgoing, serializePatch])
      hdepth).trans hjson
  have hnull : serde.read (Text.bytes (serde.write (serializePatch cause prior label ops))) ≠
      some .null := by
    rw [hdata]
    rintro ⟨⟩
    cases hpatch
  have hincoming := Incoming.deserialize_pair hprints.envelope hkind hnull
  rw [decodeEvent, hincoming]
  have hread : (serde.read (Text.bytes (serde.write (serializePatch cause prior label ops)))).bind
      (deserializePatch serde) =
        some (.patch cause prior label (ops.map (Op.mapValues (Value.settle serde)))) := by
    rw [hdata, Option.bind_some, hpatch]
  refine Except.bind_eq_ok.2 ⟨_, rfl, ?_⟩
  rw [hread]

theorem Sid.deserialize_posInt (sid : Sid) :
    Sid.deserialize (.number (.posInt (.ofNat sid.val))) = some sid := by
  have hnat : (UInt64.ofNat sid.val).toNat = sid.val := by
    rw [UInt64.toNat_ofNat']
    exact Nat.mod_eq_of_lt (Nat.lt_of_lt_of_le sid.isLt (by decide))
  simp [Sid.deserialize, hnat]

@[simp] theorem StreamOp.deserialize_toStr (op : StreamOp) :
    StreamOp.deserialize (.string op.toStr) = some op := by
  cases op <;> rfl

/-- Stream events are read back as they are. -/
theorem decode_stream {cause : EntryId} {sid : Sid} {op : StreamOp} {node : Option Handle}
    {prop : Option PropKey} {text : Option String}
    (hprints : serde.Prints (Event.outgoing "" (.stream cause sid op node prop text)))
    (hnode : ∀ h ∈ node, Handle.Valid h) :
    decodeEvent serde
        (Text.bytes (serde.write (.object (Event.outgoing "" (.stream cause sid op node prop text))))) =
      .ok (.stream cause sid op node prop text) := by
  have hread : ∀ key doc json, (key, doc) ∈ Event.outgoing "" (.stream cause sid op node prop text) →
      doc.reread serde = some json → json.depth = 0 →
      serde.read (Text.bytes (serde.write doc)) = some json := by
    intro key doc json hmem hjson hdepth
    refine (hprints.read (key, doc) hmem fun json' hjson' => ?_).trans hjson
    rw [hjson] at hjson'
    cases hjson'
    omega
  obtain ⟨node', hnode', hdepthNode, hreadNode⟩ : ∃ json,
      (serializeOption Handle.serialize node).reread serde = some json ∧ json.depth = 0 ∧
        deserializeOption Handle.deserialize json = some node := Handle.reread_option serde hnode
  obtain ⟨prop', hprop', hdepthProp, hreadProp⟩ : ∃ json,
      (serializeOption (fun key => Doc.string (PropKey.serialize key)) prop).reread serde =
        some json ∧ json.depth = 0 ∧ deserializeOption PropKey.deserialize json = some prop :=
    reread_serializeOption fun key _ => ⟨_, rfl, by simp, rfl, PropKey.deserialize_string key⟩
  obtain ⟨text', htext', hdepthText, hreadText⟩ : ∃ json,
      (serializeOption Doc.string text).reread serde = some json ∧ json.depth = 0 ∧
        deserializeOption Json.asStr json = some text := reread_optionString
  have hincoming : Incoming.deserialize serde
      (Text.bytes (serde.write (.object (Event.outgoing "" (.stream cause sid op node prop text))))) =
      some { kind := some "stream@1", data := none, cause := some cause, sid := some sid, op := some op
             node, prop, text } := by
    simp only [Event.outgoing] at hread
    have hkind := hread "kind" _ _ (by simp) (rfl : (Doc.string "stream@1").reread serde = _) rfl
    have hcause := hread "cause" _ _ (by simp) (rfl : (EntryId.serialize cause).reread serde = _) rfl
    have hsid := hread "sid" _ _ (by simp)
      (rfl : (Doc.posInt (.ofNat sid.val)).reread serde = _) rfl
    have hop := hread "op" _ _ (by simp) (rfl : (Doc.string op.toStr).reread serde = _) rfl
    have hnodeRead := hread "node" _ _ (by simp) hnode' hdepthNode
    have hpropRead := hread "prop" _ _ (by simp) hprop' hdepthProp
    have htextRead := hread "text" _ _ (by simp) htext' hdepthText
    rw [Incoming.deserialize, hprints.envelope]
    simp [Event.outgoing, readField, hkind, hcause, hsid, hop, hnodeRead, hpropRead, htextRead,
      hreadNode, hreadProp, hreadText, Sid.deserialize_posInt]
  rw [decodeEvent, hincoming]
  rfl

end OhMyPi
