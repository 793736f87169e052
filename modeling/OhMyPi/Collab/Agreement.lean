import Mathlib.Data.List.Forall2
import OhMyPi.Collab.Codec

/-! What a frame becomes when it is encoded and decoded under one room key. The reader has no branch
for four of the kinds the writer writes; the other kinds come back with what their JSON form
carries. -/

namespace OhMyPi

namespace Json

mutual
/-- A value whose floating-point numbers are read again from their text, which may not give the same
bits. -/
def reread (read : UInt64 → UInt64) : Json → Json
  | number (.float bits) => number (.float (read bits))
  | array items => array (rereadItems read items)
  | object fields => object (rereadFields read fields)
  | null => null
  | bool b => bool b
  | number (.posInt n) => number (.posInt n)
  | number (.negInt n) => number (.negInt n)
  | string text => string text

def rereadItems (read : UInt64 → UInt64) : List Json → List Json
  | [] => []
  | item :: items => item.reread read :: rereadItems read items

def rereadFields (read : UInt64 → UInt64) : List (String × Json) → List (String × Json)
  | [] => []
  | (key, value) :: fields => (key, value.reread read) :: rereadFields read fields
end

variable (read : UInt64 → UInt64)

theorem rereadItems_eq (items : List Json) : rereadItems read items = items.map (reread read) := by
  induction items with
  | nil => rfl
  | cons item items ih => rw [rereadItems, ih, List.map_cons]

theorem depthItems_le {items : List Json} {n : Nat} :
    depthItems items ≤ n ↔ ∀ item ∈ items, item.depth ≤ n := by
  induction items with
  | nil => simp [depthItems]
  | cons item items ih => rw [depthItems, max_le_iff, ih, List.forall_mem_cons]

mutual
theorem depth_reread (v : Json) : (v.reread read).depth = v.depth := by
  cases v with
  | number n => cases n <;> rfl
  | array items => rw [reread, depth, depth, depthItems_rereadItems items]
  | object fields => rw [reread, depth, depth, depthFields_rereadFields fields]
  | _ => rfl

theorem depthItems_rereadItems (items : List Json) :
    depthItems (rereadItems read items) = depthItems items := by
  cases items with
  | nil => rfl
  | cons item items =>
    rw [rereadItems, depthItems, depthItems, depth_reread item, depthItems_rereadItems items]

theorem depthFields_rereadFields (fields : List (String × Json)) :
    depthFields (rereadFields read fields) = depthFields fields := by
  cases fields with
  | nil => rfl
  | cons field fields =>
    obtain ⟨key, value⟩ := field
    rw [rereadFields, depthFields, depthFields, depth_reread value, depthFields_rereadFields fields]
end

theorem field_cons (key key' : String) (value : Json) (fields : List (String × Json)) :
    field ((key', value) :: fields) key = if key = key' then some value else field fields key := by
  rw [field, field, List.lookup_cons]
  by_cases h : key = key'
  · subst h
    simp
  · have hne : (key == key') = false := by simpa using h
    rw [hne, if_neg h]

theorem field_rereadFields (fields : List (String × Json)) (key : String) :
    field (rereadFields read fields) key = (field fields key).map (reread read) := by
  induction fields with
  | nil => rfl
  | cons p fields ih =>
    obtain ⟨key', value⟩ := p
    rw [rereadFields, field_cons, field_cons, ih]
    split <;> rfl

@[simp] theorem asStr_reread (v : Json) : (v.reread read).asStr = v.asStr := by
  cases v with
  | number n => cases n <;> rfl
  | _ => rfl

@[simp] theorem asBool_reread (v : Json) : (v.reread read).asBool = v.asBool := by
  cases v with
  | number n => cases n <;> rfl
  | _ => rfl

@[simp] theorem asU64_reread (v : Json) : (v.reread read).asU64 = v.asU64 := by
  cases v with
  | number n => cases n <;> rfl
  | _ => rfl

theorem asArray_reread (v : Json) :
    (v.reread read).asArray = v.asArray.map (List.map (reread read)) := by
  cases v with
  | number n => cases n <;> rfl
  | array items => rw [reread, asArray, asArray, rereadItems_eq, Option.map_some]
  | _ => rfl

end Json

namespace Collab

section Reread

variable (read : UInt64 → UInt64) (object : Fields) (key : String)

open Json (rereadFields field_rereadFields)

theorem asObject_reread (v : Json) :
    asObject (v.reread read) = (asObject v).map (rereadFields read) := by
  cases v with
  | number n => cases n <;> rfl
  | _ => rfl

@[simp] theorem isNull_reread (v : Json) : isNull (v.reread read) = isNull v := by
  cases v with
  | number n => cases n <;> rfl
  | _ => rfl

@[simp] theorem getStr_reread : getStr (rereadFields read object) key = getStr object key := by
  rw [getStr, getStr, field_rereadFields]
  cases Json.field object key <;> simp

@[simp] theorem getBool_reread : getBool (rereadFields read object) key = getBool object key := by
  rw [getBool, getBool, field_rereadFields]
  cases Json.field object key <;> simp

@[simp] theorem getU64_reread : getU64 (rereadFields read object) key = getU64 object key := by
  rw [getU64, getU64, field_rereadFields]
  cases Json.field object key <;> simp

@[simp] theorem jsonStr_reread : jsonStr (rereadFields read object) key = jsonStr object key := by
  simp [jsonStr]

@[simp] theorem jsonU64_reread : jsonU64 (rereadFields read object) key = jsonU64 object key := by
  simp [jsonU64]

@[simp] theorem jsonU32_reread : jsonU32 (rereadFields read object) key = jsonU32 object key := by
  simp [jsonU32]

theorem getItems_reread :
    getItems (rereadFields read object) key = (getItems object key).map (Json.reread read) := by
  rw [getItems, getItems, field_rereadFields]
  cases Json.field object key with
  | none => rfl
  | some value =>
    simp only [Option.map_some, Option.bind_some, Json.asArray_reread]
    cases value.asArray <;> rfl

theorem mapM_reread {α : Type} {f : Json → Except CodecError α}
    (h : ∀ v, f (v.reread read) = f v) (items : List Json) :
    (items.map (Json.reread read)).mapM f = items.mapM f := by
  induction items with
  | nil => rfl
  | cons item items ih => rw [List.map_cons, List.mapM_cons, List.mapM_cons, h, ih]

theorem participantFromJson_reread (v : Json) :
    participantFromJson (v.reread read) = participantFromJson v := by
  rw [participantFromJson, participantFromJson, asObject_reread]
  cases asObject v with
  | none => rfl
  | some item =>
    simp only [Option.map_some, shaped, Except.ok_bind, jsonStr_reread, getBool_reread]

theorem agentFromJson_reread (v : Json) : agentFromJson (v.reread read) = agentFromJson v := by
  rw [agentFromJson, agentFromJson, asObject_reread]
  cases asObject v with
  | none => rfl
  | some item =>
    simp only [Option.map_some, shaped, Except.ok_bind, jsonStr_reread, getStr_reread, getBool_reread,
      getU64_reread]

theorem imageFromJson_reread (v : Json) : imageFromJson (v.reread read) = imageFromJson v := by
  rw [imageFromJson, imageFromJson, asObject_reread]
  cases asObject v with
  | none => rfl
  | some image =>
    simp only [Option.map_some, shaped, Except.ok_bind, jsonStr_reread]

theorem stateFromJson_reread :
    stateFromJson (rereadFields read object) = stateFromJson object := by
  simp only [stateFromJson, getItems_reread, mapM_reread read (participantFromJson_reread read),
    getBool_reread, getU64_reread, getStr_reread]

theorem agentsFromJson_reread :
    agentsFromJson (rereadFields read object) = agentsFromJson object := by
  simp only [agentsFromJson, getItems_reread, mapM_reread read (agentFromJson_reread read)]

theorem headerFromJson_reread :
    headerFromJson (rereadFields read object) = headerFromJson object := by
  simp only [headerFromJson, jsonStr_reread, getStr_reread]

theorem stateFromValue_reread (v : Json) : stateFromValue (v.reread read) = stateFromValue v := by
  rw [stateFromValue, stateFromValue, asObject_reread]
  cases asObject v with
  | none => rfl
  | some state => exact stateFromJson_reread read state

theorem welcomeFromJson_reread :
    welcomeFromJson (rereadFields read object) = welcomeFromJson object := by
  simp only [welcomeFromJson, field_rereadFields, jsonU32_reread, agentsFromJson_reread,
    getBool_reread]
  cases Json.field object "header" with
  | none => rfl
  | some header =>
    simp only [Option.map_some, Option.bind_some, asObject_reread]
    cases asObject header with
    | none => rfl
    | some header =>
      simp only [Option.map_some, shaped, Except.ok_bind, headerFromJson_reread]
      cases Json.field object "state" with
      | none => rfl
      | some state => simp only [Option.map_some, Except.ok_bind, stateFromValue_reread]

theorem errorFromJson_reread (error : Option Json) :
    ((error.map (Json.reread read)).bind asObject).map errorFromJson =
      (error.bind asObject).map errorFromJson := by
  cases error with
  | none => rfl
  | some error =>
    simp only [Option.map_some, Option.bind_some, asObject_reread]
    cases asObject error with
    | none => rfl
    | some error => simp only [Option.map_some, errorFromJson, getStr_reread]

/-- The kinds of frames that hold records. -/
def recordTags : List String := ["snapshot-chunk", "entry", "agent-view-event"]

/-- Only records hold numbers that reading again may change. -/
theorem payloadFromJson_reread (serde : SerdeBytes) {tag : String} (htag : tag ∉ recordTags) :
    payloadFromJson serde (rereadFields read object) tag = payloadFromJson serde object tag := by
  simp only [recordTags, List.mem_cons, List.not_mem_nil, or_false, not_or] at htag
  simp only [payloadFromJson, if_neg htag.1, if_neg htag.2.1, if_neg htag.2.2, helloFromJson,
    welcomeFromJson_reread, stateFromJson_reread, agentsFromJson_reread, agentCommandFromJson,
    transcriptRequestFromJson, agentViewSnapshotFromJson, getItems_reread,
    mapM_reread read (imageFromJson_reread read), jsonStr_reread, jsonU32_reread, jsonU64_reread,
    getStr_reread, getBool_reread, field_rereadFields, errorFromJson_reread]

end Reread

/-! ## Reading what was written -/

theorem toU32_ofNat (n : U32) : toU32 (.ofNat n.val) = some n := by
  have h : (UInt64.ofNat n.val).toNat = n.val := by
    rw [UInt64.toNat_ofNat']
    exact Nat.mod_eq_of_lt (by omega)
  rw [toU32, dif_pos (by rw [h]; exact n.isLt)]
  exact congrArg some (Fin.ext h)

theorem decodeBase64_encodeBase64 (b : Bytes) : decodeBase64 (encodeBase64 b) = .ok b := by
  have hpad : base64Url.val '=' = none := by decide
  have hlast : ∀ c ∈ (base64Url.encode b).reverse.head?, decide (c = '=') = false := by
    intro c hc
    obtain ⟨n, hn, rfl⟩ :=
      base64Url.exists_of_mem_encode (List.mem_reverse.1 (List.mem_of_mem_head? hc))
    refine decide_eq_false fun heq => ?_
    have hval := base64Url.val_sym n hn
    rw [heq, hpad] at hval
    cases hval
  have htrim : ((base64Url.encode b).reverse.dropWhile (· = '=')).reverse = base64Url.encode b := by
    cases hrev : (base64Url.encode b).reverse with
    | nil => rw [List.dropWhile_nil, ← hrev, List.reverse_reverse]
    | cons c cs =>
      rw [hrev] at hlast
      rw [List.dropWhile_cons_of_neg (by simpa using hlast c rfl), ← hrev, List.reverse_reverse]
  rw [decodeBase64, encodeBase64, String.toList_ofList, htrim, base64Url.decode_encode]

theorem mapM_map_ok {α β γ : Type} {f : β → Except CodecError γ} {g : α → β} {k : α → γ}
    (h : ∀ a, f (g a) = .ok (k a)) (l : List α) : (l.map g).mapM f = .ok (l.map k) := by
  induction l with
  | nil => rfl
  | cons a l ih =>
    rw [List.map_cons, List.mapM_cons, h, ih]
    rfl

section Fields

variable {object : Fields} {key key' : String} {value : Json}

@[simp] theorem getStr_cons : getStr ((key', value) :: object) key =
    if key = key' then value.asStr else getStr object key := by
  rw [getStr, Json.field_cons]
  split <;> rfl

@[simp] theorem getBool_cons : getBool ((key', value) :: object) key =
    if key = key' then value.asBool.getD false else getBool object key := by
  rw [getBool, Json.field_cons]
  split <;> rfl

@[simp] theorem getU64_cons : getU64 ((key', value) :: object) key =
    if key = key' then value.asU64 else getU64 object key := by
  rw [getU64, Json.field_cons]
  split <;> rfl

@[simp] theorem getItems_cons : getItems ((key', value) :: object) key =
    if key = key' then value.asArray.getD [] else getItems object key := by
  rw [getItems, Json.field_cons]
  split <;> rfl

@[simp] theorem asStr_string (text : String) : (Json.string text).asStr = some text := rfl

@[simp] theorem asStr_null : Json.null.asStr = none := rfl

@[simp] theorem asBool_bool (b : Bool) : (Json.bool b).asBool = some b := rfl

@[simp] theorem asArray_array (items : List Json) : (Json.array items).asArray = some items := rfl

@[simp] theorem asU64_ofU64 (n : UInt64) : (ofU64 n).asU64 = some n := rfl

@[simp] theorem asU64_ofU32 (n : U32) : (ofU32 n).asU64 = some (.ofNat n.val) := rfl

@[simp] theorem asObject_object (object : Fields) : asObject (.object object) = some object := rfl

@[simp] theorem shaped_some {α : Type} (field : String) (a : α) : shaped field (some a) = .ok a := rfl

@[simp] theorem jsonStr_cons : jsonStr ((key', value) :: object) key =
    if key = key' then shaped key value.asStr else jsonStr object key := by
  rw [jsonStr, getStr_cons]
  split <;> rfl

@[simp] theorem jsonU64_cons : jsonU64 ((key', value) :: object) key =
    if key = key' then shaped key value.asU64 else jsonU64 object key := by
  rw [jsonU64, getU64_cons]
  split <;> rfl

@[simp] theorem jsonU32_cons_self (n : U32) : jsonU32 ((key, ofU32 n) :: object) key = .ok n := by
  rw [jsonU32, jsonU64_cons, if_pos rfl, asU64_ofU32, shaped_some, Except.bind, toU32_ofNat]
  rfl

theorem jsonU32_cons_ne (h : key ≠ key') :
    jsonU32 ((key', value) :: object) key = jsonU32 object key := by
  rw [jsonU32, jsonU64_cons, if_neg h, jsonU32]

@[simp] theorem asStr_ofOptional (text : Option String) : (ofOptional text).asStr = text := by
  cases text <;> rfl

end Fields

/-- A participant without what its JSON form drops. -/
def Participant.kept (participant : Participant) : Participant := { participant with peerId := 0 }

/-- A state without what its JSON form drops. -/
def SessionStateUpdate.kept (state : SessionStateUpdate) : SessionStateUpdate :=
  { state with model := none, contextUsage := none, participants := state.participants.map .kept }

theorem participantFromJson_participantJson (participant : Participant) :
    participantFromJson (participantJson participant) = .ok participant.kept := by
  cases hhost : participant.isHost <;>
    simp [participantFromJson, participantJson, Except.ok_bind, Participant.kept, hhost]

theorem stateFromJson_stateJson (state : SessionStateUpdate) (rest : Fields) :
    stateFromJson (stateJson state ++ rest) = .ok state.kept := by
  have hparticipants := mapM_map_ok participantFromJson_participantJson state.participants
  by_cases hname : state.sessionName = "" <;>
    simp [stateFromJson, stateJson, hname, hparticipants, toU32_ofNat, SessionStateUpdate.kept]

/-- An agent whose class and status are numbers its JSON form has names for. -/
def AgentSummary.Known (agent : AgentSummary) : Prop :=
  (agent.kind = 0 ∨ agent.kind = 1) ∧
    (agent.status = 0 ∨ agent.status = 1 ∨ agent.status = 2 ∨ agent.status = 3)

/-- An agent as its JSON form names it. -/
def AgentSummary.named (agent : AgentSummary) : AgentSummary :=
  { agent with
    kind := if agent.kind = 1 then 1 else 0
    status := if agent.status = 1 then 1 else if agent.status = 2 then 2
      else if agent.status = 3 then 3 else 0 }

theorem statusNumber_statusName (status : Int32) : statusNumber (statusName status) =
    .ok (if status = 1 then 1 else if status = 2 then 2 else if status = 3 then 3 else 0) := by
  rw [statusName]
  split
  · simp [statusNumber]
  · split
    · simp [statusNumber]
    · split <;> simp [statusNumber]

theorem agentFromJson_agentJson (agent : AgentSummary) :
    agentFromJson (agentJson agent) = .ok agent.named := by
  by_cases hkind : agent.kind = 1 <;>
    simp [agentFromJson, agentJson, Except.ok_bind, statusNumber_statusName, AgentSummary.named, hkind]

theorem named_eq_iff (agent : AgentSummary) : agent.named = agent ↔ agent.Known := by
  cases agent
  simp only [AgentSummary.named, AgentSummary.Known, AgentSummary.mk.injEq, true_and, and_true]
  refine and_congr ?_ ?_
  · split <;> simp_all [eq_comm]
  · split
    · simp_all
    · split
      · simp_all
      · split <;> simp_all [eq_comm]

theorem imageFromJson_imageJson (image : ImageAttachment) :
    imageFromJson (imageJson image) = .ok image := by
  simp [imageFromJson, imageJson, Except.ok_bind, decodeBase64_encodeBase64]

theorem commandNumber_commandName (command : Int32) : commandNumber (commandName command) =
    .ok (if command = 1 then 1 else if command = 2 then 2 else 0) := by
  rw [commandName]
  split
  · simp [commandNumber]
  · split <;> simp [commandNumber]

/-- A welcome as it is read back: an absent registry counts as an empty one. -/
def Welcome.kept (value : Welcome) : Welcome :=
  { value with
    initialState := value.initialState.map .kept
    initialAgents := some (value.initialAgents.getD {}) }

/-- The registry of a welcome, with its agents as their JSON form names them. -/
def Welcome.named (value : Welcome) : Welcome :=
  { value with
    initialAgents := value.initialAgents.map fun agents => ⟨agents.agents.map .named⟩ }

theorem agentsFromJson_agentJson {object : Fields} {agents : List AgentSummary}
    (h : getItems object "agents" = agents.map agentJson) :
    agentsFromJson object = .ok ⟨agents.map .named⟩ := by
  rw [agentsFromJson, h, mapM_map_ok agentFromJson_agentJson]
  rfl

theorem headerFromJson_header (header : SessionHeader) :
    headerFromJson [("type", .string "session"), ("id", .string header.sessionId),
      ("title", .string header.title), ("timestamp", .string header.createdAtMs.toNat.repr),
      ("cwd", .string header.hostCwd)] = .ok header := by
  simp [headerFromJson, Except.ok_bind, Text.parseU64_toDigits]

/-! ## What a payload comes back as -/

variable (serde : SerdeBytes) (read : UInt64 → UInt64)

/-- The record that carries the value of another. -/
def rereadRecord (value : Json) (revision : UInt64) : JournalRecord :=
  jsonRecord serde (value.reread read) revision

/-- The payload that is read back; none for the kinds the reader does not know. -/
def readBack : Payload → Option Payload
  | .hello value => some (.hello { value with clientVersion := "" })
  | .welcome value => some (.welcome value.named.kept)
  | .bye value => some (.bye value)
  | .error value => some (.error { value with code := "" })
  | .snapshotChunk value => some (.snapshotChunk
      { entries := (value.entries.filterMap (recordValue serde)).zipIdx.map fun p =>
          rereadRecord serde read p.1 (.ofNat (p.2 + 1))
        final := value.final, hostRevisionWatermark := 0 })
  | .journalRecord value => some (.journalRecord
      (rereadRecord serde read ((recordValue serde value).getD .null) 0))
  | .state value => some (.state value.kept)
  | .agents value => some (.agents ⟨value.agents.map .named⟩)
  | .prompt value => some (.prompt value)
  | .abort _ => some (.abort { reason := "" })
  | .agentCommand value => some (.agentCommand
      { value with command := if value.command = 1 then 1 else if value.command = 2 then 2 else 0 })
  | .uiResponse value => some (.uiResponse value)
  | .transcriptRequest value => some (.transcriptRequest value)
  | .agentViewRequest value => some (.agentViewRequest value)
  | .agentViewCancel value => some (.agentViewCancel value)
  | .agentViewSnapshot value => some (.agentViewSnapshot value)
  | .agentViewEvent value => some (.agentViewEvent
      { value with
        event := ((value.event.bind (recordValue serde)).filter fun v => !isNull v).map
          (rereadRecord serde read · 0) })
  | .agentViewEnd value => some (.agentViewEnd value)
  | .event | .uiRequest _ | .uiRequestEnd _ | .transcript _ | .busEvent _ => none

theorem frameFromJson_object {object : Fields} (tag : String) (h : getStr object "t" = some tag)
    {payload : Payload} (hpayload : payloadFromJson serde object tag = .ok payload) :
    frameFromJson serde (.object object) = .ok { protocolRevision, payload := some payload } := by
  simp only [frameFromJson, asObject_object, shaped_some, Except.ok_bind, h, hpayload]
  rfl

/-- Reading a frame again from its text. -/
theorem frameFromJson_reread {object : Fields} (tag : String) (h : getStr object "t" = some tag)
    (htag : tag ∉ recordTags) {payload : Payload}
    (hpayload : payloadFromJson serde object tag = .ok payload) :
    frameFromJson serde ((Json.object object).reread read) =
      .ok { protocolRevision, payload := some payload } := by
  rw [Json.reread]
  apply frameFromJson_object serde tag
  · rw [getStr_reread, h]
  · rw [payloadFromJson_reread read object serde htag, hpayload]

theorem welcomeFromJson_welcomeJson {value : Welcome} {v : Json} (h : welcomeJson value = .ok v) :
    ∃ object, v = .object object ∧ getStr object "t" = some "welcome" ∧
      welcomeFromJson object = .ok value.named.kept := by
  obtain ⟨header, hheader, h⟩ := Except.bind_eq_ok.1 h
  obtain ⟨state, hstate, h⟩ := Except.bind_eq_ok.1 h
  cases h
  refine ⟨_, rfl, by simp, ?_⟩
  obtain ⟨revision, _ | header', _ | state', agents, total, readOnly⟩ := value
  · cases hheader
  · cases hheader
  · cases hstate
  cases hheader
  cases hstate
  have hagents : ∀ object : Fields,
      getItems object "agents" = ((agents.map RegistrySnapshot.agents).getD []).map agentJson →
      agentsFromJson object = .ok ⟨((agents.map RegistrySnapshot.agents).getD []).map .named⟩ :=
    fun object h => agentsFromJson_agentJson h
  have hkept := stateFromJson_stateJson state []
  rw [List.append_nil] at hkept
  simp [welcomeFromJson, Json.field_cons, Except.ok_bind, headerFromJson_header, stateFromValue, hkept,
    jsonU32_cons_ne, hagents, Welcome.named, Welcome.kept]
  cases agents <;> rfl

/-- A payload whose kind the reader knows comes back as `readBack` says. -/
theorem frameFromJson_of_readBack {payload payload' : Payload} {v : Json}
    (hwrite : payloadToJson serde payload = .ok v)
    (hread : readBack serde read payload = some payload') :
    frameFromJson serde (v.reread read) = .ok { protocolRevision, payload := some payload' } := by
  cases payload with
  | hello value =>
    cases hwrite
    cases hread
    refine frameFromJson_reread serde read "hello" (by simp) (by simp [recordTags]) ?_
    cases value.writeToken <;>
      simp [payloadFromJson, helloFromJson, Except.ok_bind, Except.map, jsonU32_cons_ne, tokenFromJson,
        decodeBase64_encodeBase64]
  | welcome value =>
    obtain ⟨object, rfl, htag, hwelcome⟩ := welcomeFromJson_welcomeJson hwrite
    cases hread
    refine frameFromJson_reread serde read "welcome" htag (by simp [recordTags]) ?_
    simp [payloadFromJson, hwelcome, Except.map]
  | bye value =>
    cases hwrite
    cases hread
    refine frameFromJson_reread serde read "bye" (by simp) (by simp [recordTags]) ?_
    simp [payloadFromJson]
  | error value =>
    cases hwrite
    cases hread
    refine frameFromJson_reread serde read "error" (by simp) (by simp [recordTags]) ?_
    simp [payloadFromJson]
  | snapshotChunk value =>
    cases hwrite
    cases hread
    refine frameFromJson_object serde "snapshot-chunk" (by rw [getStr_reread]; simp) ?_
    simp [payloadFromJson, jsonEntries, Json.field_rereadFields, Json.field_cons, Json.asArray_reread,
      Except.map, List.zipIdx_map, rereadRecord]
  | journalRecord value =>
    cases hwrite
    cases hread
    refine frameFromJson_object serde "entry" (by rw [getStr_reread]; simp) ?_
    simp [payloadFromJson, Json.field_rereadFields, Json.field_cons, Except.map, rereadRecord]
  | state value =>
    cases hwrite
    cases hread
    refine frameFromJson_reread serde read "state" (by simp [stateJson]) (by simp [recordTags]) ?_
    simp [payloadFromJson, stateFromJson_stateJson, Except.map]
  | agents value =>
    cases hwrite
    cases hread
    refine frameFromJson_reread serde read "agents" (by simp) (by simp [recordTags]) ?_
    simp [payloadFromJson, agentsFromJson, mapM_map_ok agentFromJson_agentJson, Except.map]
  | prompt value =>
    cases hwrite
    cases hread
    refine frameFromJson_reread serde read "prompt" (by simp) (by simp [recordTags]) ?_
    simp [payloadFromJson, mapM_map_ok imageFromJson_imageJson, Except.ok_bind]
  | abort value =>
    cases hwrite
    cases hread
    refine frameFromJson_reread serde read "abort" (by simp) (by simp [recordTags]) ?_
    simp [payloadFromJson]
  | agentCommand value =>
    cases hwrite
    cases hread
    refine frameFromJson_reread serde read "agent-cmd" (by simp) (by simp [recordTags]) ?_
    simp [payloadFromJson, agentCommandFromJson, commandNumber_commandName, Except.ok_bind, Except.map]
  | uiResponse value =>
    cases hwrite
    cases hread
    refine frameFromJson_reread serde read "ui-response" (by simp) (by simp [recordTags]) ?_
    simp [payloadFromJson, jsonU32_cons_ne, Except.map]
  | transcriptRequest value =>
    cases hwrite
    cases hread
    refine frameFromJson_reread serde read "fetch-transcript" (by simp) (by simp [recordTags]) ?_
    simp [payloadFromJson, transcriptRequestFromJson, jsonU32_cons_ne, Except.ok_bind, Except.map]
  | agentViewRequest value =>
    cases hwrite
    cases hread
    refine frameFromJson_reread serde read "agent-view-request" (by simp) (by simp [recordTags]) ?_
    simp [payloadFromJson, jsonU32_cons_ne, Except.ok_bind]
  | agentViewCancel value =>
    cases hwrite
    cases hread
    refine frameFromJson_reread serde read "agent-view-cancel" (by simp) (by simp [recordTags]) ?_
    simp [payloadFromJson, jsonU32_cons_ne, Except.map]
  | agentViewSnapshot value =>
    cases hwrite
    cases hread
    refine frameFromJson_reread serde read "agent-view-snapshot" (by simp) (by simp [recordTags]) ?_
    simp [payloadFromJson, agentViewSnapshotFromJson, jsonU32_cons_ne, decodeBase64_encodeBase64,
      Except.ok_bind, Except.map]
  | agentViewEvent value =>
    cases hwrite
    cases hread
    refine frameFromJson_object serde "agent-view-event" (by rw [getStr_reread]; simp) ?_
    cases value.event.bind (recordValue serde) with
    | none =>
      simp [payloadFromJson, Json.field_rereadFields, Json.field_cons, jsonU32_cons_ne, Except.map,
        Json.reread, isNull]
    | some v =>
      cases hnull : isNull v <;>
        simp [payloadFromJson, Json.field_rereadFields, Json.field_cons, jsonU32_cons_ne, Except.map,
          rereadRecord, Option.filter, hnull]
  | agentViewEnd value =>
    cases hwrite
    cases hread
    refine frameFromJson_reread serde read "agent-view-end" (by simp) (by simp [recordTags]) ?_
    obtain ⟨requestId, _ | error⟩ := value <;>
      simp [payloadFromJson, jsonU32_cons_ne, Json.field_cons, Except.map, errorJson, errorFromJson,
        asObject]
  | event | uiRequest | uiRequestEnd | transcript | busEvent => cases hread

/-- The reader has no branch for the kinds of these tags. -/
theorem frameFromJson_unknown {object : Fields} (tag : String) (h : getStr object "t" = some tag)
    (htag : payloadFromJson serde (Json.rereadFields read object) tag =
      .error (.unsupportedPayload tag)) :
    frameFromJson serde ((Json.object object).reread read) = .error (.unsupportedPayload tag) := by
  rw [Json.reread, frameFromJson, asObject_object, shaped_some, Except.ok_bind, getStr_reread, h,
    shaped_some, Except.ok_bind, htag]
  rfl

theorem frameFromJson_of_readBack_none {payload : Payload} {v : Json}
    (hwrite : payloadToJson serde payload = .ok v) (hread : readBack serde read payload = none) :
    ∃ e, frameFromJson serde (v.reread read) = .error e := by
  cases payload with
  | event => cases hwrite
  | uiRequest value =>
    cases hwrite
    exact ⟨_, frameFromJson_unknown serde read "ui-request" (by simp) (by simp [payloadFromJson])⟩
  | uiRequestEnd value =>
    cases hwrite
    exact ⟨_, frameFromJson_unknown serde read "ui-request-end" (by simp) (by simp [payloadFromJson])⟩
  | transcript value =>
    cases hwrite
    exact ⟨_, frameFromJson_unknown serde read "transcript" (by simp) (by simp [payloadFromJson])⟩
  | busEvent value =>
    cases hwrite
    exact ⟨_, frameFromJson_unknown serde read "bus" (by simp) (by simp [payloadFromJson])⟩
  | _ => cases hread

/-! ## Nesting -/

theorem depth_participantJson (participant : Participant) :
    (participantJson participant).depth = 1 := by
  simp [participantJson, Json.depth, Json.depthFields]

theorem depth_agentJson (agent : AgentSummary) : (agentJson agent).depth = 1 := by
  cases hparent : agent.parentId <;>
    simp [agentJson, ofOptional, ofU64, hparent, Json.depth, Json.depthFields]

theorem depth_imageJson (image : ImageAttachment) : (imageJson image).depth = 1 := by
  simp [imageJson, Json.depth, Json.depthFields]

theorem depth_ofOptional (text : Option String) : (ofOptional text).depth = 0 := by
  cases text <;> rfl

theorem depth_ofU64 (n : UInt64) : (ofU64 n).depth = 0 := rfl

theorem depth_ofU32 (n : U32) : (ofU32 n).depth = 0 := rfl

theorem depthItems_map_le {α : Type} {f : α → Json} {n : Nat} (h : ∀ a, (f a).depth ≤ n) (l : List α) :
    Json.depthItems (l.map f) ≤ n := by
  rw [Json.depthItems_le]
  intro item hitem
  obtain ⟨a, -, rfl⟩ := List.mem_map.1 hitem
  exact h a

/-- How much deeper than this the records of a payload may not be nested, and the values they
hold. -/
def recordValues : Payload → List (Nat × Json)
  | .snapshotChunk value => (value.entries.filterMap (recordValue serde)).map (2, ·)
  | .journalRecord value => (recordValue serde value).toList.map (1, ·)
  | .agentViewEvent value => (value.event.bind (recordValue serde)).toList.map (1, ·)
  | _ => []

theorem depth_stateJson (state : SessionStateUpdate) : Json.depthFields (stateJson state) ≤ 2 := by
  have hitems := depthItems_map_le (fun p => (depth_participantJson p).le) state.participants
  by_cases hname : state.sessionName = "" <;>
    simp [stateJson, hname, Json.depth, Json.depthFields, depth_ofU32, depth_ofOptional] <;> omega

theorem depth_welcomeJson {value : Welcome} {v : Json} (h : welcomeJson value = .ok v) :
    v.depth ≤ 127 := by
  obtain ⟨header, -, h⟩ := Except.bind_eq_ok.1 h
  obtain ⟨state, -, h⟩ := Except.bind_eq_ok.1 h
  cases h
  have hstate := depth_stateJson state
  have hagents := depthItems_map_le (fun a => (depth_agentJson a).le)
    ((value.initialAgents.map RegistrySnapshot.agents).getD [])
  simp only [Json.depth, Json.depthFields, depth_ofU32]
  omega

/-- A frame without records is well within the reader's limit. -/
theorem depth_le_of_no_records {payload payload' : Payload} {v : Json}
    (hwrite : payloadToJson serde payload = .ok v)
    (hread : readBack serde read payload = some payload')
    (hrecords : recordValues serde payload = []) : v.depth ≤ 127 := by
  cases payload with
  | welcome value => exact depth_welcomeJson hwrite
  | state value =>
    cases hwrite
    have hstate := depth_stateJson value
    simp only [Json.depth, stateJson, List.cons_append, List.nil_append, Json.depthFields] at hstate ⊢
    omega
  | agents value =>
    cases hwrite
    have hagents := depthItems_map_le (fun a => (depth_agentJson a).le) value.agents
    simp only [Json.depth, Json.depthFields]
    omega
  | prompt value =>
    cases hwrite
    have himages := depthItems_map_le (fun i => (depth_imageJson i).le) value.images
    simp only [Json.depth, Json.depthFields]
    omega
  | snapshotChunk value =>
    cases hwrite
    have hnone : value.entries.filterMap (recordValue serde) = [] := by simpa [recordValues] using hrecords
    simp [hnone, Json.depth, Json.depthFields, Json.depthItems]
  | journalRecord value =>
    cases hwrite
    have hnone : recordValue serde value = none := by simpa [recordValues] using hrecords
    simp [hnone, Json.depth, Json.depthFields]
  | agentViewEvent value =>
    cases hwrite
    have hnone : value.event.bind (recordValue serde) = none := by simpa [recordValues] using hrecords
    simp [hnone, Json.depth, Json.depthFields, depth_ofU32]
  | agentViewEnd value =>
    cases hwrite
    cases value.error <;> simp [Json.depth, Json.depthFields, depth_ofU32, errorJson]
  | event | uiRequest | uiRequestEnd | transcript | busEvent => cases hread
  | _ =>
    cases hwrite
    simp [Json.depth, Json.depthFields, depth_ofU32, depth_ofU64, depth_ofOptional]

/-- The frame of a payload is within the reader's limit exactly when its records are. -/
theorem depth_le_iff {payload payload' : Payload} {v : Json}
    (hwrite : payloadToJson serde payload = .ok v)
    (hread : readBack serde read payload = some payload') :
    v.depth ≤ 127 ↔ ∀ p ∈ recordValues serde payload, p.2.depth + p.1 ≤ 127 := by
  by_cases hrecords : recordValues serde payload = []
  · simp [hrecords, depth_le_of_no_records serde read hwrite hread hrecords]
  cases payload with
  | snapshotChunk value =>
    cases hwrite
    have hitems : Json.depthItems (value.entries.filterMap (recordValue serde)) ≤ 125 ↔ _ :=
      Json.depthItems_le
    simp only [recordValues, List.forall_mem_map]
    constructor
    · intro h v hv
      have hle : Json.depthItems (value.entries.filterMap (recordValue serde)) ≤ 125 := by
        simp only [Json.depth, Json.depthFields] at h
        omega
      have := hitems.1 hle v hv
      omega
    · intro h
      have hle := hitems.2 fun v hv => (by have := h v hv; omega)
      simp only [Json.depth, Json.depthFields]
      omega
  | journalRecord value =>
    cases hwrite
    cases hvalue : recordValue serde value with
    | none => simp [recordValues, hvalue] at hrecords
    | some v =>
      simp only [recordValues, hvalue, Option.getD_some, Option.toList_some, List.map_cons, List.map_nil,
        List.forall_mem_singleton, Json.depth, Json.depthFields]
      omega
  | agentViewEvent value =>
    cases hwrite
    cases hvalue : value.event.bind (recordValue serde) with
    | none => simp [recordValues, hvalue] at hrecords
    | some v =>
      simp only [recordValues, hvalue, Option.getD_some, Option.toList_some, List.map_cons, List.map_nil,
        List.forall_mem_singleton, Json.depth, Json.depthFields, depth_ofU32]
      omega
  | _ => exact absurd rfl hrecords

/-! ## Agreement -/

/-- A payload without the fields its JSON form drops. -/
def Payload.kept : Payload → Payload
  | .hello value => .hello { value with clientVersion := "" }
  | .welcome value => .welcome value.kept
  | .error value => .error { value with code := "" }
  | .state value => .state value.kept
  | .abort _ => .abort { reason := "" }
  | payload => payload

/-- Both records hold the same JSON value. -/
def SameRecord (a b : JournalRecord) : Prop :=
  ∃ v, recordValue serde a = some v ∧ recordValue serde b = some v

/-- The payloads are of one kind and have the same contents, up to what the JSON form drops. -/
def SamePayload : Payload → Payload → Prop
  | .snapshotChunk a, .snapshotChunk b =>
    List.Forall₂ (SameRecord serde) a.entries b.entries ∧ a.final = b.final
  | .journalRecord a, .journalRecord b => SameRecord serde a b
  | .agentViewEvent a, .agentViewEvent b =>
    a.requestId = b.requestId ∧ Option.Rel (SameRecord serde) a.event b.event
  | a, b => a.kept = b.kept

/-- The record holds a JSON value that may stand `levels` deep in a frame, and whose numbers survive
being written and read. -/
def RecordCarried (levels : Nat) (record : JournalRecord) : Prop :=
  ∃ v, recordValue serde record = some v ∧ v.depth + levels ≤ 127 ∧ (v.reread read).reread read = v

/-- The codec carries the payload: the reader knows its kind, its enumeration numbers have names, and
its records hold JSON that fits and is not mistaken for an absent one. -/
def Carried : Payload → Prop
  | .welcome value => ∀ agents ∈ value.initialAgents, ∀ agent ∈ agents.agents, agent.Known
  | .agents value => ∀ agent ∈ value.agents, agent.Known
  | .agentCommand value => value.command = 0 ∨ value.command = 1 ∨ value.command = 2
  | .snapshotChunk value => ∀ record ∈ value.entries, RecordCarried serde read 2 record
  | .journalRecord value => RecordCarried serde read 1 value
  | .agentViewEvent value => ∀ record ∈ value.event,
    RecordCarried serde read 1 record ∧ recordValue serde record ≠ some .null
  | .event | .uiRequest _ | .uiRequestEnd _ | .transcript _ | .busEvent _ => False
  | _ => True

/-- `serde_json` reads back what it wrote: a nonempty text whose value is the one written, up to the
floating-point numbers, when it is not nested too deep. -/
structure SerdeBytes.ReadsBack (v : Json) : Prop where
  nonempty : serde.toVec v ≠ []
  reads : serde.fromSlice (serde.toVec v) = if v.depth ≤ 127 then some (v.reread read) else none

variable {serde read}

theorem recordValue_rereadRecord {v : Json} {revision : UInt64}
    (hlaw : serde.ReadsBack read (v.reread read)) (hdepth : v.depth ≤ 127) :
    recordValue serde (rereadRecord serde read v revision) = some ((v.reread read).reread read) := by
  have hempty : (serde.toVec (v.reread read)).isEmpty = false := by simpa using hlaw.nonempty
  simp only [recordValue, rereadRecord, jsonRecord, hempty, Bool.false_eq_true, if_false, hlaw.reads,
    Json.depth_reread, hdepth, if_true]

theorem sameRecord_iff {record : JournalRecord} {v : Json} {levels : Nat} {revision : UInt64}
    (hvalue : recordValue serde record = some v) (hlaw : serde.ReadsBack read (v.reread read))
    (hdepth : v.depth + levels ≤ 127) :
    SameRecord serde record (rereadRecord serde read v revision) ↔
      RecordCarried serde read levels record := by
  rw [SameRecord, RecordCarried, hvalue, recordValue_rereadRecord hlaw (by omega)]
  constructor
  · rintro ⟨u, ⟨⟩, hu⟩
    exact ⟨v, rfl, hdepth, Option.some.inj hu⟩
  · rintro ⟨u, ⟨⟩, -, hu⟩
    exact ⟨v, rfl, by rw [hu]⟩

theorem not_recordCarried {record : JournalRecord} {levels : Nat}
    (hvalue : recordValue serde record = none) : ¬ RecordCarried serde read levels record := by
  rintro ⟨v, hv, -⟩
  rw [hvalue] at hv
  cases hv

/-- A record without a value is left out, so the records that arrive are fewer. -/
theorem forall₂_sameRecord_iff {entries : List JournalRecord} {levels : Nat} (k : Nat)
    (hlaw : ∀ v ∈ entries.filterMap (recordValue serde), serde.ReadsBack read (v.reread read))
    (hdepth : ∀ v ∈ entries.filterMap (recordValue serde), v.depth + levels ≤ 127) :
    List.Forall₂ (SameRecord serde) entries
      (((entries.filterMap (recordValue serde)).zipIdx k).map fun p =>
        rereadRecord serde read p.1 (.ofNat (p.2 + 1))) ↔
      ∀ record ∈ entries, RecordCarried serde read levels record := by
  induction entries generalizing k with
  | nil => simp
  | cons record entries ih =>
    rw [List.forall_mem_cons]
    cases hvalue : recordValue serde record with
    | none =>
      rw [List.filterMap_cons_none hvalue]
      constructor
      · intro h
        have hlength := h.length_eq
        have hle := List.length_filterMap_le (recordValue serde) entries
        rw [List.length_cons, List.length_map, List.length_zipIdx] at hlength
        omega
      · rintro ⟨hcarried, -⟩
        exact absurd hcarried (not_recordCarried hvalue)
    | some v =>
      rw [List.filterMap_cons_some hvalue] at hlaw hdepth ⊢
      rw [List.forall_mem_cons] at hlaw hdepth
      rw [List.zipIdx_cons, List.map_cons, List.forall₂_cons, ih (k + 1) hlaw.2 hdepth.2,
        sameRecord_iff hvalue hlaw.1 hdepth.1]

theorem map_named_iff (agents : List AgentSummary) :
    agents.map .named = agents ↔ ∀ agent ∈ agents, agent.Known := by
  have hid := List.map_inj_left (l := agents) (f := AgentSummary.named) (g := id)
  rw [List.map_id] at hid
  rw [hid]
  exact forall₂_congr fun agent _ => named_eq_iff agent

theorem registry_eq_iff (registry : RegistrySnapshot) :
    registry = ⟨registry.agents.map .named⟩ ↔ ∀ agent ∈ registry.agents, agent.Known := by
  obtain ⟨agents⟩ := registry
  rw [RegistrySnapshot.mk.injEq, eq_comm, map_named_iff]

theorem participant_kept_kept (l : List Participant) :
    (l.map .kept).map Participant.kept = l.map .kept := by
  rw [List.map_map]
  rfl

theorem state_kept_kept (state : SessionStateUpdate) : state.kept.kept = state.kept := by
  simp only [SessionStateUpdate.kept, participant_kept_kept]

theorem welcome_kept_iff (value : Welcome) :
    value.kept = value.named.kept.kept ↔
      ∀ agents ∈ value.initialAgents, ∀ agent ∈ agents.agents, agent.Known := by
  obtain ⟨revision, header, state, _ | registry, total, readOnly⟩ := value
  · cases state <;> simp [Welcome.kept, Welcome.named, state_kept_kept]
  · cases state <;> simp [Welcome.kept, Welcome.named, state_kept_kept, registry_eq_iff]

theorem isNull_iff (v : Json) : isNull v ↔ v = .null := by
  cases v <;> simp [isNull]

/-- A payload comes back with its contents exactly when the codec carries it. -/
theorem samePayload_iff {payload payload' : Payload}
    (hread : readBack serde read payload = some payload')
    (hlaw : ∀ p ∈ recordValues serde payload, serde.ReadsBack read (p.2.reread read))
    (hdepth : ∀ p ∈ recordValues serde payload, p.2.depth + p.1 ≤ 127) :
    SamePayload serde payload payload' ↔ Carried serde read payload := by
  cases payload with
  | welcome value =>
    cases hread
    exact ((Payload.welcome.injEq _ _).to_iff).trans (welcome_kept_iff value)
  | state value =>
    cases hread
    simp [SamePayload, Carried, Payload.kept, state_kept_kept]
  | agents value =>
    cases hread
    exact ((Payload.agents.injEq _ _).to_iff).trans (registry_eq_iff value)
  | agentCommand value =>
    cases hread
    obtain ⟨command, agentId, text⟩ := value
    simp only [SamePayload, Carried, Payload.kept, Payload.agentCommand.injEq, AgentCommand.mk.injEq,
      and_true]
    split
    · simp_all
    · split <;> simp_all
  | snapshotChunk value =>
    cases hread
    simp only [SamePayload, Carried, and_true]
    exact forall₂_sameRecord_iff 0 (fun v hv => hlaw (2, v) (List.mem_map.2 ⟨v, hv, rfl⟩))
      fun v hv => hdepth (2, v) (List.mem_map.2 ⟨v, hv, rfl⟩)
  | journalRecord value =>
    cases hread
    cases hvalue : recordValue serde value with
    | none =>
      refine iff_of_false ?_ (not_recordCarried hvalue)
      rintro ⟨v, hv, -⟩
      rw [hvalue] at hv
      cases hv
    | some v =>
      have hmem : (1, v) ∈ recordValues serde (.journalRecord value) := by simp [recordValues, hvalue]
      exact sameRecord_iff hvalue (hlaw _ hmem) (hdepth _ hmem)
  | agentViewEvent value =>
    cases hread
    obtain ⟨requestId, _ | record⟩ := value
    · simp [SamePayload, Carried]
    simp only [SamePayload, Carried, true_and, Option.bind_some, Option.mem_some_iff, forall_eq']
    cases hvalue : recordValue serde record with
    | none => simp [not_recordCarried hvalue]
    | some v =>
      have hmem : (1, v) ∈ recordValues serde (.agentViewEvent ⟨requestId, some record⟩) := by
        simp [recordValues, hvalue]
      by_cases hnull : v = .null
      · simp [hnull, isNull, Option.filter]
      · have hnull' : isNull v = false := by simpa using mt (isNull_iff v).1 hnull
        simp only [Option.filter, hnull', Bool.not_false, if_true, Option.map_some, Option.rel_some_some,
          sameRecord_iff hvalue (hlaw _ hmem) (hdepth _ hmem), ne_eq, Option.some.injEq, hnull,
          not_false_eq_true, and_true]
  | event | uiRequest | uiRequestEnd | transcript | busEvent => cases hread
  | _ =>
    cases hread
    simp [SamePayload, Carried, Payload.kept]

/-! ## Envelopes -/

/-- The cipher opens what it sealed: the ciphertext is as long as the plaintext and the tag has its
fixed length. -/
structure Aead.OpensSealed (key : Aead) : Prop where
  opens : ∀ nonce plaintext ciphertext tag, nonce.length = nonceBytes →
    key.seal nonce plaintext = some (ciphertext, tag) →
    ciphertext.length = plaintext.length ∧ tag.length = tagBytes ∧
      key.open nonce (ciphertext ++ tag) = some plaintext

theorem openFrame_sealFrame {key : Aead} (hkey : key.OpensSealed) {nonce plaintext sealed : Bytes}
    (hnonce : nonce.length = nonceBytes) (h : key.sealFrame (some nonce) plaintext = .ok sealed) :
    key.openFrame sealed = .ok plaintext := by
  rw [Aead.sealFrame] at h
  split at h
  · cases h
  · next ciphertext tag hseal =>
    cases h
    obtain ⟨-, htag, hopen⟩ := hkey.opens nonce plaintext ciphertext tag hnonce hseal
    rw [Aead.openFrame, if_neg, List.append_assoc, List.take_left' hnonce, List.drop_left' hnonce, hopen]
    simp only [List.length_append, hnonce, htag]
    omega

theorem fromBeBytes_toBeBytes (n : U32) : fromBeBytes (toBeBytes n) = n := by
  have hn := n.isLt
  ext
  simp only [fromBeBytes, toBeBytes, List.foldl_cons, List.foldl_nil, UInt8.toNat_ofNat', Fin.val_ofNat]
  omega

/-- What an accepted frame is decoded from: its JSON, as `serde_json` reads it. -/
theorem decodeEnvelope_encodeEnvelope {key : Aead} (hkey : key.OpensSealed) {nonce : Bytes}
    (hnonce : nonce.length = nonceBytes) {route : RelayRoute} {frame : CollabFrame} {encoded : Bytes}
    (h : encodeEnvelope serde key (some nonce) route frame = .ok encoded) :
    ∃ v, frameToJson serde frame = .ok v ∧
      decodeEnvelope serde key encoded =
        match serde.fromSlice (serde.toVec v) with
        | none => .error .decodeJson
        | some value => (frameFromJson serde value).map fun frame => ⟨route, frame⟩ := by
  simp only [encodeEnvelope] at h
  rw [Except.ite_throw_eq_ok] at h
  obtain ⟨-, h⟩ := h
  obtain ⟨v, hv, h⟩ := Except.bind_eq_ok.1 h
  rw [Except.ite_throw_eq_ok] at h
  obtain ⟨hlength, h⟩ := h
  obtain ⟨sealed, hsealed, h⟩ := Except.bind_eq_ok.1 h
  rw [Except.ite_throw_eq_ok] at h
  obtain ⟨henvelope, h⟩ := h
  cases h
  refine ⟨v, hv, ?_⟩
  have hseal : key.sealFrame (some nonce) (serde.toVec v) = .ok sealed := by
    rw [ofCrypto] at hsealed
    cases hresult : key.sealFrame (some nonce) (serde.toVec v) with
    | error e => rw [hresult] at hsealed; cases hsealed
    | ok sealed' => rw [hresult] at hsealed; cases hsealed; rfl
  have hheader : (toBeBytes route.peerId).length = 4 := rfl
  have htotal : (toBeBytes route.peerId ++ sealed).length = 4 + sealed.length := by
    rw [List.length_append, hheader]
  have hopened : ofCrypto (key.openFrame sealed) = .ok (serde.toVec v) := by
    rw [openFrame_sealFrame hkey hnonce hseal]
    rfl
  simp only [decodeEnvelope, htotal, if_neg henvelope, if_neg (show ¬ 4 + sealed.length < 4 by omega),
    List.drop_left' hheader, List.take_left' hheader, hopened, Except.ok_bind, if_neg hlength,
    fromBeBytes_toBeBytes]
  cases serde.fromSlice (serde.toVec v) with
  | none => rfl
  | some value => cases frameFromJson serde value <;> rfl

theorem not_carried_of_readBack {payload : Payload} (h : readBack serde read payload = none) :
    ¬ Carried serde read payload := by
  cases payload with
  | event | uiRequest | uiRequestEnd | transcript | busEvent => exact id
  | _ => cases h

/-- The records of a carried payload fit into its frame. -/
theorem depth_of_carried {payload : Payload} (h : Carried serde read payload) :
    ∀ p ∈ recordValues serde payload, p.2.depth + p.1 ≤ 127 := by
  cases payload with
  | snapshotChunk value =>
    simp only [recordValues, List.forall_mem_map, List.mem_filterMap]
    rintro v ⟨record, hrecord, hvalue⟩
    obtain ⟨u, hu, hdepth, -⟩ := h record hrecord
    rw [hvalue] at hu
    cases hu
    exact hdepth
  | journalRecord value =>
    obtain ⟨u, hu, hdepth, -⟩ := h
    simpa [recordValues, hu] using hdepth
  | agentViewEvent value =>
    obtain ⟨requestId, _ | record⟩ := value
    · simp [recordValues]
    · obtain ⟨u, hu, hdepth, -⟩ := (h record rfl).1
      simpa [recordValues, hu] using hdepth
  | _ => exact List.forall_mem_nil _

variable (serde read)

/-- The JSON values that are written for a payload: its own, and those of the records read back from
it. -/
def written (payload : Payload) : List Json :=
  (payloadToJson serde payload).toOption.toList ++
    (recordValues serde payload).map fun p => p.2.reread read

/-- A frame that `encode_envelope` accepts is decoded under the same key to the same route and the
same contents exactly when the codec carries its payload. -/
theorem codec_agreement_iff (key : Aead) (hkey : key.OpensSealed) (nonce : Bytes)
    (hnonce : nonce.length = nonceBytes) (route : RelayRoute) (frame : CollabFrame) (encoded : Bytes)
    (hserde : ∀ payload ∈ frame.payload, ∀ v ∈ written serde read payload, serde.ReadsBack read v)
    (hencode : encodeEnvelope serde key (some nonce) route frame = .ok encoded) :
    (∃ routed, decodeEnvelope serde key encoded = .ok routed ∧ routed.route = route ∧
      ∃ payload ∈ frame.payload, ∃ payload' ∈ routed.frame.payload,
        SamePayload serde payload payload') ↔
      ∀ payload ∈ frame.payload, Carried serde read payload := by
  obtain ⟨v, hv, hdecode⟩ := decodeEnvelope_encodeEnvelope hkey hnonce hencode
  obtain ⟨revision, sequence, timestamp, _ | payload⟩ := frame
  · cases hv
  have hwrite : payloadToJson serde payload = .ok v := hv
  simp only [Option.mem_some_iff, forall_eq', exists_eq_left'] at hserde ⊢
  have hlaw : ∀ p ∈ recordValues serde payload, serde.ReadsBack read (p.2.reread read) :=
    fun p hp => hserde _ (List.mem_append_right _ (List.mem_map.2 ⟨p, hp, rfl⟩))
  have hreads := (hserde v (List.mem_append_left _ (by simp [hwrite, Except.toOption]))).reads
  rw [hdecode, hreads]
  cases hread : readBack serde read payload with
  | none =>
    refine iff_of_false ?_ (not_carried_of_readBack hread)
    rintro ⟨routed, h, -⟩
    split at h
    · cases h
    · next value hvalue =>
      split at hvalue
      · cases hvalue
        obtain ⟨e, he⟩ := frameFromJson_of_readBack_none serde read hwrite hread
        rw [he] at h
        cases h
      · cases hvalue
  | some payload' =>
    by_cases hdepth : v.depth ≤ 127
    · rw [if_pos hdepth]
      simp only [frameFromJson_of_readBack serde read hwrite hread]
      rw [← samePayload_iff hread hlaw ((depth_le_iff serde read hwrite hread).1 hdepth)]
      constructor
      · rintro ⟨routed, ⟨⟩, -, payload'', ⟨⟩, hsame⟩
        exact hsame
      · exact fun hsame => ⟨_, rfl, rfl, payload', rfl, hsame⟩
    · rw [if_neg hdepth]
      refine iff_of_false ?_ fun hcarried => hdepth ?_
      · rintro ⟨routed, ⟨⟩, -⟩
      · exact (depth_le_iff serde read hwrite hread).2 (depth_of_carried hcarried)

namespace Sample

/-- `{"t":"bye","reason":"done"}`. -/
def byeText : Bytes :=
  [123, 34, 116, 34, 58, 34, 98, 121, 101, 34, 44, 34, 114, 101, 97, 115, 111, 110, 34, 58, 34,
    100, 111, 110, 101, 34, 125]

/-- `{"t":"ui-request-end","reqId":7}`. -/
def uiRequestEndText : Bytes :=
  [123, 34, 116, 34, 58, 34, 117, 105, 45, 114, 101, 113, 117, 101, 115, 116, 45, 101, 110, 100,
    34, 44, 34, 114, 101, 113, 73, 100, 34, 58, 55, 125]

/-- The tag a JSON frame carries. -/
def frameTag (v : Json) : Option String := (asObject v).bind (getStr · "t")

/-- `serde_json` on the two frames below. -/
def frames : SerdeBytes where
  toVec v := if frameTag v = some "bye" then byeText else uiRequestEndText
  fromSlice bytes :=
    if bytes = byeText then some (.object [("t", .string "bye"), ("reason", .string "done")])
    else if bytes = uiRequestEndText then
      some (.object [("t", .string "ui-request-end"), ("reqId", ofU32 7)])
    else none

/-- A cipher that hides nothing and adds a tag of zeros. -/
def key : Aead where
  «seal» _ plaintext := some (plaintext, List.replicate tagBytes 0)
  «open» _ sealed := some (sealed.take (sealed.length - tagBytes))

theorem key_opensSealed : key.OpensSealed where
  opens := by
    rintro nonce plaintext ciphertext tag - ⟨⟩
    refine ⟨rfl, rfl, congrArg some ?_⟩
    rw [List.length_append, List.length_replicate, Nat.add_sub_cancel, List.take_left]

def nonce : Bytes := List.replicate nonceBytes 1

def bye : CollabFrame := { protocolRevision, payload := some (.bye { reason := "done" }) }

def uiRequestEnd : CollabFrame :=
  { protocolRevision, payload := some (.uiRequestEnd { requestId := 7 }) }

theorem bye_readsBack : ∀ payload ∈ bye.payload, ∀ v ∈ written frames id payload,
    frames.ReadsBack id v := by
  rintro payload ⟨⟩ v hv
  cases List.mem_singleton.1 hv
  exact ⟨by decide +kernel, rfl⟩

theorem uiRequestEnd_readsBack : ∀ payload ∈ uiRequestEnd.payload, ∀ v ∈ written frames id payload,
    frames.ReadsBack id v := by
  rintro payload ⟨⟩ v hv
  cases List.mem_singleton.1 hv
  exact ⟨by decide +kernel, rfl⟩

end Sample

theorem bye_agrees : ∃ routed,
    decodeEnvelope Sample.frames Sample.key
      (toBeBytes 5 ++ (Sample.nonce ++ Sample.byeText ++ List.replicate tagBytes 0)) = .ok routed ∧
    routed.route = ⟨5⟩ ∧ ∃ payload ∈ Sample.bye.payload, ∃ payload' ∈ routed.frame.payload,
      SamePayload Sample.frames payload payload' :=
  (codec_agreement_iff Sample.frames id Sample.key Sample.key_opensSealed Sample.nonce rfl ⟨5⟩ Sample.bye
    _ Sample.bye_readsBack rfl).2 (by rintro payload ⟨⟩; trivial)

/-- A frame that the writer accepts and the reader refuses. -/
theorem uiRequestEnd_refused :
    ¬ ∀ (serde : SerdeBytes) (read : UInt64 → UInt64) (key : Aead), key.OpensSealed →
      ∀ (nonce : Bytes), nonce.length = nonceBytes →
      ∀ (route : RelayRoute) (frame : CollabFrame) (encoded : Bytes),
      (∀ payload ∈ frame.payload, ∀ v ∈ written serde read payload, serde.ReadsBack read v) →
      encodeEnvelope serde key (some nonce) route frame = .ok encoded →
      ∃ routed, decodeEnvelope serde key encoded = .ok routed ∧ routed.route = route ∧
        ∃ payload ∈ frame.payload, ∃ payload' ∈ routed.frame.payload,
          SamePayload serde payload payload' := by
  intro h
  obtain ⟨routed, hdecode, -⟩ := h Sample.frames id Sample.key Sample.key_opensSealed Sample.nonce rfl
    ⟨5⟩ Sample.uiRequestEnd _ Sample.uiRequestEnd_readsBack rfl
  have hrefused : decodeEnvelope Sample.frames Sample.key
      (toBeBytes 5 ++ (Sample.nonce ++ Sample.uiRequestEndText ++ List.replicate tagBytes 0)) =
        .error (.unsupportedPayload "ui-request-end") := rfl
  cases hrefused.symm.trans hdecode

end Collab

end OhMyPi
