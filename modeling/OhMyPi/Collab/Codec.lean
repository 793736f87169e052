import OhMyPi.Lib.Base64
import OhMyPi.Lib.Except
import OhMyPi.Lib.Lossy
import OhMyPi.Collab.Frame

/-! The collaboration codec (`collab/codec.rs`, `collab/crypto.rs`): a frame is written as JSON,
sealed under the room key and wrapped with its route. `serde_json` and the cipher are third-party
code and enter as parameters. -/

namespace OhMyPi.Collab

/-- The `serde_json` entry points the codec calls. -/
structure SerdeBytes where
  /-- `to_vec`. -/
  toVec : Json → Bytes
  /-- `from_slice::<Value>`. -/
  fromSlice : Bytes → Option Json

inductive CryptoError where
  | random
  | seal
  | sealedFrameTooShort (actual : Nat)
  | tampered
deriving DecidableEq

inductive CodecError where
  | decodeJson
  | jsonShape (field : String)
  | unsupportedPayload (kind : String)
  | missingPayload
  | frameTooLarge (actual limit : Nat)
  | envelopeTooLarge (actual limit : Nat)
  | malformed (offset : Nat)
  | unsupportedRevision (message : String) (actual supported : U32)
  | crypto (source : CryptoError)
deriving DecidableEq

/-! ## Base64 -/

/-- The alphabet of `base64_url`. -/
def base64UrlAlphabet : List Char :=
  "ABCDEFGHIJKLMNOPQRSTUVWXYZabcdefghijklmnopqrstuvwxyz0123456789-_".toList

/-- `base64_url::RAW`. -/
def base64Url : Base64 where
  sym n := base64UrlAlphabet.getD n 'A'
  val c := base64UrlAlphabet.idxOf? c
  val_sym := by decide

/-- `base64_url::encode_raw`. -/
def encodeBase64 (bytes : Bytes) : String := String.ofList (base64Url.encode bytes)

/-- `decode_base64`. Text outside the alphabet is refused whichever of its bytes is met first. -/
def decodeBase64 (value : String) : Except CodecError Bytes :=
  match base64Url.decode (value.toList.reverse.dropWhile (· = '=')).reverse with
  | some bytes => .ok bytes
  | none => .error (.jsonShape "base64")

/-! ## Fields of JSON objects -/

abbrev Fields := List (String × Json)

/-- `Value::as_object`. -/
def asObject : Json → Option Fields
  | .object fields => some fields
  | _ => none

def isNull : Json → Bool
  | .null => true
  | _ => false

def getStr (object : Fields) (key : String) : Option String :=
  (Json.field object key).bind Json.asStr

/-- A flag, `false` when it is absent. -/
def getBool (object : Fields) (key : String) : Bool :=
  ((Json.field object key).bind Json.asBool).getD false

def getU64 (object : Fields) (key : String) : Option UInt64 :=
  (Json.field object key).bind Json.asU64

/-- The items of an array field, none when it is absent. -/
def getItems (object : Fields) (key : String) : List Json :=
  ((Json.field object key).bind Json.asArray).getD []

/-- What a field that must be there holds. -/
def shaped {α : Type} (field : String) (value : Option α) : Except CodecError α :=
  match value with
  | some a => .ok a
  | none => .error (.jsonShape field)

/-- `json_str`. -/
def jsonStr (object : Fields) (key : String) : Except CodecError String :=
  shaped key (getStr object key)

/-- `json_u64`. -/
def jsonU64 (object : Fields) (key : String) : Except CodecError UInt64 :=
  shaped key (getU64 object key)

/-- `u32::try_from`. -/
def toU32 (n : UInt64) : Option U32 :=
  if h : n.toNat < 4294967296 then some ⟨n.toNat, h⟩ else none

/-- `json_u32`. -/
def jsonU32 (object : Fields) (key : String) : Except CodecError U32 :=
  (jsonU64 object key).bind fun n => shaped key (toU32 n)

def ofU64 (n : UInt64) : Json := .number (.posInt n)

def ofU32 (n : U32) : Json := ofU64 (.ofNat n.val)

def ofOptional (text : Option String) : Json := text.elim .null .string

/-! ## Writing frames -/

section Write

variable (serde : SerdeBytes)

/-- `record_value`. -/
def recordValue (record : JournalRecord) : Option Json :=
  if record.transcriptV4Json.isEmpty then none else serde.fromSlice record.transcriptV4Json

def participantJson (participant : Participant) : Json :=
  .object [("name", .string participant.displayName),
    ("role", .string (if participant.isHost then "host" else "guest")),
    ("readOnly", .bool participant.readOnly)]

/-- `state_json`. -/
def stateJson (value : SessionStateUpdate) : Fields :=
  [("isStreaming", .bool value.isStreaming),
    ("queuedMessageCount", ofU32 value.queuedMessageCount),
    ("sessionName", if value.sessionName = "" then .null else .string value.sessionName),
    ("cwd", .string value.hostCwd), ("thinkingLevel", ofOptional value.thinkingLevel),
    ("participants", .array (value.participants.map participantJson)),
    ("isAborting", .bool value.isAborting)]

/-- The name of an agent's status; an unknown number counts as the first. -/
def statusName (status : Int32) : String :=
  if status = 1 then "idle" else if status = 2 then "parked" else if status = 3 then "aborted"
  else "running"

/-- `agent_json`. -/
def agentJson (value : AgentSummary) : Json :=
  .object [("id", .string value.id), ("displayName", .string value.displayName),
    ("kind", .string (if value.kind = 1 then "sub" else "main")),
    ("parentId", ofOptional value.parentId), ("status", .string (statusName value.status)),
    ("hasSessionFile", .bool value.hasSessionFile), ("createdAt", ofU64 value.createdAtMs),
    ("lastActivity", ofU64 value.lastActivityMs)]

/-- `welcome_json`. -/
def welcomeJson (value : Welcome) : Except CodecError Json := do
  let header ← shaped "welcome.header" value.header
  let state ← shaped "welcome.state" value.initialState
  let agents := (value.initialAgents.map RegistrySnapshot.agents).getD []
  return .object [("t", .string "welcome"), ("proto", ofU32 value.protocolRevision),
    ("header", .object [("type", .string "session"), ("id", .string header.sessionId),
      ("title", .string header.title), ("timestamp", .string (toString header.createdAtMs.toNat)),
      ("cwd", .string header.hostCwd)]),
    ("state", .object (stateJson state)), ("agents", .array (agents.map agentJson)),
    ("entryCount", ofU32 value.totalEntryCount), ("readOnly", .bool value.readOnly)]

def imageJson (image : ImageAttachment) : Json :=
  .object [("type", .string "image"), ("data", .string (encodeBase64 image.data)),
    ("mimeType", .string image.mimeType)]

/-- The name of an agent command; an unknown number counts as the first. -/
def commandName (command : Int32) : String :=
  if command = 1 then "kill" else if command = 2 then "revive" else "chat"

def optionJson (option : SelectOption) : Json :=
  match option.description with
  | some description =>
    .object [("label", .string option.label), ("description", .string description)]
  | none => .string option.label

/-- `ui_request_json`. -/
def uiRequestJson (value : UiRequest) : Json :=
  let request : Fields := match value.spec with
    | some (.select spec) =>
      [("kind", .string "select"), ("title", .string value.title),
        ("options", .array (spec.options.map optionJson)), ("initialIndex", ofU32 spec.initialIndex),
        ("selectionMarker", .string (if spec.marker = 1 then "checkbox" else "radio")),
        ("checkedIndices", .array (spec.checkedIndices.map ofU32)),
        ("markableCount", ofU32 spec.markableCount), ("helpText", ofOptional spec.helpText)]
    | some (.editor spec) =>
      [("kind", .string "editor"), ("title", .string value.title),
        ("prefill", ofOptional spec.prefill)]
    | none => [("kind", .string "editor"), ("title", .string value.title)]
  .object [("t", .string "ui-request"),
    ("request", .object (request ++ [("reqId", ofU32 value.requestId)]))]

/-- The name of a bus channel; an unknown number counts as the unspecified one. -/
def channelName (channel : Int32) : String :=
  if channel = 1 then "task:subagent:progress" else if channel = 2 then "task:subagent:lifecycle"
  else ""

def errorJson (error : ErrorMessage) : Json :=
  .object [("code", .string error.code), ("message", .string error.message)]

/-- The JSON of a payload. -/
def payloadToJson : Payload → Except CodecError Json
  | .hello value => .ok (.object [("t", .string "hello"), ("proto", ofU32 value.protocolRevision),
      ("name", .string value.displayName),
      ("writeToken", ofOptional (value.writeToken.map encodeBase64))])
  | .welcome value => welcomeJson value
  | .bye value => .ok (.object [("t", .string "bye"), ("reason", .string value.reason)])
  | .error value => .ok (.object [("t", .string "error"), ("message", .string value.message)])
  | .snapshotChunk value => .ok (.object [("t", .string "snapshot-chunk"),
      ("entries", .array (value.entries.filterMap (recordValue serde))), ("final", .bool value.final)])
  | .journalRecord value =>
    .ok (.object [("t", .string "entry"), ("entry", (recordValue serde value).getD .null)])
  | .state value => .ok (.object (stateJson value ++ [("t", .string "state")]))
  | .agents value =>
    .ok (.object [("t", .string "agents"), ("agents", .array (value.agents.map agentJson))])
  | .prompt value => .ok (.object [("t", .string "prompt"), ("text", .string value.text),
      ("images", .array (value.images.map imageJson))])
  | .abort _ => .ok (.object [("t", .string "abort")])
  | .agentCommand value => .ok (.object [("t", .string "agent-cmd"),
      ("cmd", .string (commandName value.command)), ("agentId", .string value.agentId),
      ("text", ofOptional value.text)])
  | .uiResponse value => .ok (.object [("t", .string "ui-response"),
      ("reqId", ofU32 value.requestId), ("value", ofOptional value.value)])
  | .transcriptRequest value => .ok (.object [("t", .string "fetch-transcript"),
      ("reqId", ofU32 value.requestId), ("agentId", .string value.agentId),
      ("fromByte", ofU64 value.fromByte)])
  | .uiRequest value => .ok (uiRequestJson value)
  | .uiRequestEnd value =>
    .ok (.object [("t", .string "ui-request-end"), ("reqId", ofU32 value.requestId)])
  | .transcript value => .ok (.object [("t", .string "transcript"),
      ("reqId", ofU32 value.requestId),
      ("text", .string (String.ofList (Text.lossy value.textUtf8))),
      ("newSize", ofU64 value.newSize), ("error", ofOptional value.error)])
  | .busEvent value => .ok (.object [("t", .string "bus"),
      ("channel", .string (channelName value.channel)),
      ("data", (serde.fromSlice value.dataJson).getD .null)])
  | .agentViewRequest value => .ok (.object [("t", .string "agent-view-request"),
      ("reqId", ofU32 value.requestId), ("agentId", .string value.agentId)])
  | .agentViewCancel value =>
    .ok (.object [("t", .string "agent-view-cancel"), ("reqId", ofU32 value.requestId)])
  | .agentViewSnapshot value => .ok (.object [("t", .string "agent-view-snapshot"),
      ("reqId", ofU32 value.requestId), ("index", ofU32 value.chunkIndex),
      ("data", .string (encodeBase64 value.snapshotBytes)), ("final", .bool value.final)])
  | .agentViewEvent value => .ok (.object [("t", .string "agent-view-event"),
      ("reqId", ofU32 value.requestId),
      ("event", (value.event.bind (recordValue serde)).getD .null)])
  | .agentViewEnd value => .ok (.object [("t", .string "agent-view-end"),
      ("reqId", ofU32 value.requestId), ("error", (value.error.map errorJson).getD .null)])
  | .event => .error (.unsupportedPayload "event")

/-- `frame_to_json`. -/
def frameToJson (frame : CollabFrame) : Except CodecError Json :=
  match frame.payload with
  | none => .error .missingPayload
  | some payload => payloadToJson serde payload

end Write

/-! ## Reading frames -/

section Read

variable (serde : SerdeBytes)

/-- `VisibilityClass::PublicTranscript`. -/
def publicTranscript : Int32 := 1

/-- `json_record`. -/
def jsonRecord (value : Json) (revision : UInt64) : JournalRecord where
  revision
  transcriptV4Json := serde.toVec value
  visibilityClass := publicTranscript

/-- `json_entries`. -/
def jsonEntries (value : Option Json) : Except CodecError (List JournalRecord) :=
  (shaped "entries" (value.bind Json.asArray)).map fun items =>
    items.zipIdx.map fun p => jsonRecord serde p.1 (.ofNat (p.2 + 1))

def participantFromJson (value : Json) : Except CodecError Participant := do
  let item ← shaped "participant" (asObject value)
  return { displayName := ← jsonStr item "name", isHost := (← jsonStr item "role") = "host"
           readOnly := getBool item "readOnly", peerId := 0 }

/-- `state_from_json`. -/
def stateFromJson (object : Fields) : Except CodecError SessionStateUpdate := do
  let participants ← (getItems object "participants").mapM participantFromJson
  return { isStreaming := getBool object "isStreaming", isAborting := getBool object "isAborting"
           queuedMessageCount := ((getU64 object "queuedMessageCount").bind toU32).getD 0
           sessionName := (getStr object "sessionName").getD ""
           hostCwd := (getStr object "cwd").getD "", thinkingLevel := getStr object "thinkingLevel"
           participants }

/-- `state_from_value`. -/
def stateFromValue (value : Json) : Except CodecError SessionStateUpdate := do
  stateFromJson (← shaped "state" (asObject value))

/-- The number of a status name. -/
def statusNumber (name : String) : Except CodecError Int32 :=
  if name = "running" then .ok 0 else if name = "idle" then .ok 1 else if name = "parked" then .ok 2
  else if name = "aborted" then .ok 3 else .error (.jsonShape "agent.status")

/-- `agent_from_json`. -/
def agentFromJson (value : Json) : Except CodecError AgentSummary := do
  let item ← shaped "agent" (asObject value)
  return { id := ← jsonStr item "id", displayName := ← jsonStr item "displayName"
           kind := if (getStr item "kind").getD "main" = "sub" then 1 else 0
           parentId := getStr item "parentId"
           status := ← statusNumber ((getStr item "status").getD "idle")
           hasSessionFile := getBool item "hasSessionFile"
           createdAtMs := (getU64 item "createdAt").getD 0
           lastActivityMs := (getU64 item "lastActivity").getD 0 }

def agentsFromJson (object : Fields) : Except CodecError RegistrySnapshot :=
  ((getItems object "agents").mapM agentFromJson).map fun agents => { agents }

def headerFromJson (header : Fields) : Except CodecError SessionHeader := do
  return { sessionId := ← jsonStr header "id", title := (getStr header "title").getD ""
           createdAtMs := ((getStr header "timestamp").bind fun text =>
             Text.parseU64 text.toList).getD 0
           hostCwd := ← jsonStr header "cwd" }

/-- `welcome_from_json`. -/
def welcomeFromJson (object : Fields) : Except CodecError Welcome := do
  let header ← shaped "welcome.header" ((Json.field object "header").bind asObject)
  return { protocolRevision := ← jsonU32 object "proto", header := some (← headerFromJson header)
           initialState := some (← stateFromValue (← shaped "welcome.state" (Json.field object "state")))
           initialAgents := some (← agentsFromJson object)
           totalEntryCount := ← jsonU32 object "entryCount", readOnly := getBool object "readOnly" }

/-- `image_from_json`. -/
def imageFromJson (value : Json) : Except CodecError ImageAttachment := do
  let image ← shaped "image" (asObject value)
  return { data := ← decodeBase64 (← jsonStr image "data"), mimeType := ← jsonStr image "mimeType" }

/-- The number of a command name. -/
def commandNumber (name : String) : Except CodecError Int32 :=
  if name = "chat" then .ok 0 else if name = "kill" then .ok 1 else if name = "revive" then .ok 2
  else .error (.jsonShape "agent-cmd.cmd")

/-- An optional text in base64. -/
def tokenFromJson (text : Option String) : Except CodecError (Option Bytes) :=
  match text with
  | none => .ok none
  | some text => (decodeBase64 text).map some

def helloFromJson (object : Fields) : Except CodecError Hello := do
  return { protocolRevision := ← jsonU32 object "proto", displayName := ← jsonStr object "name"
           writeToken := ← tokenFromJson (getStr object "writeToken") }

def agentCommandFromJson (object : Fields) : Except CodecError AgentCommand := do
  return { command := ← commandNumber (← jsonStr object "cmd"), agentId := ← jsonStr object "agentId"
           text := getStr object "text" }

def transcriptRequestFromJson (object : Fields) : Except CodecError TranscriptRequest := do
  return { requestId := ← jsonU32 object "reqId", agentId := ← jsonStr object "agentId"
           fromByte := ← jsonU64 object "fromByte" }

def agentViewSnapshotFromJson (object : Fields) : Except CodecError AgentViewSnapshot := do
  return { requestId := ← jsonU32 object "reqId", chunkIndex := ← jsonU32 object "index"
           snapshotBytes := ← decodeBase64 (← jsonStr object "data"), final := getBool object "final" }

def errorFromJson (error : Fields) : ErrorMessage :=
  { code := (getStr error "code").getD "", message := (getStr error "message").getD "" }

/-- The payload of a tagged object, by its tag. -/
def payloadFromJson (object : Fields) (tag : String) : Except CodecError Payload :=
  if tag = "hello" then (helloFromJson object).map .hello
  else if tag = "welcome" then (welcomeFromJson object).map .welcome
  else if tag = "bye" then .ok (.bye { reason := (getStr object "reason").getD "" })
  else if tag = "error" then
    .ok (.error { code := "", message := (getStr object "message").getD "" })
  else if tag = "snapshot-chunk" then
    (jsonEntries serde (Json.field object "entries")).map fun entries =>
      .snapshotChunk { entries, final := getBool object "final", hostRevisionWatermark := 0 }
  else if tag = "entry" then
    (shaped "entry.entry" (Json.field object "entry")).map fun value =>
      .journalRecord (jsonRecord serde value 0)
  else if tag = "state" then (stateFromJson object).map .state
  else if tag = "agents" then (agentsFromJson object).map .agents
  else if tag = "prompt" then do
    let text ← jsonStr object "text"
    let images ← (getItems object "images").mapM imageFromJson
    return .prompt { text, images }
  else if tag = "abort" then .ok (.abort { reason := "" })
  else if tag = "agent-cmd" then (agentCommandFromJson object).map .agentCommand
  else if tag = "ui-response" then
    (jsonU32 object "reqId").map fun requestId =>
      .uiResponse { requestId, value := getStr object "value" }
  else if tag = "fetch-transcript" then
    (transcriptRequestFromJson object).map .transcriptRequest
  else if tag = "agent-view-request" then do
    let requestId ← jsonU32 object "reqId"
    let agentId ← jsonStr object "agentId"
    return .agentViewRequest { requestId, agentId }
  else if tag = "agent-view-cancel" then
    (jsonU32 object "reqId").map fun requestId => .agentViewCancel { requestId }
  else if tag = "agent-view-snapshot" then
    (agentViewSnapshotFromJson object).map .agentViewSnapshot
  else if tag = "agent-view-event" then
    (jsonU32 object "reqId").map fun requestId =>
      .agentViewEvent { requestId
                        event := ((Json.field object "event").filter fun value => !isNull value).map
                          (jsonRecord serde · 0) }
  else if tag = "agent-view-end" then
    (jsonU32 object "reqId").map fun requestId =>
      .agentViewEnd { requestId
                      error := ((Json.field object "error").bind asObject).map errorFromJson }
  else .error (.unsupportedPayload tag)

/-- `frame_from_json`. -/
def frameFromJson (value : Json) : Except CodecError CollabFrame := do
  let object ← shaped "frame" (asObject value)
  let tag ← shaped "frame.t" (getStr object "t")
  let payload ← payloadFromJson serde object tag
  return { protocolRevision, payload := some payload }

end Read

/-! ## Envelopes -/

/-- AES-256-GCM under one key: the ciphertext and tag of a plaintext, and what an authenticated
ciphertext holds. -/
structure Aead where
  «seal» : Bytes → Bytes → Option (Bytes × Bytes)
  «open» : Bytes → Bytes → Option Bytes

/-- `NONCE_BYTES`. -/
def nonceBytes : Nat := 12

/-- `TAG_BYTES`. -/
def tagBytes : Nat := 16

/-- `RoomKey::seal`, with the nonce the random source gives. -/
def Aead.sealFrame (key : Aead) (random : Option Bytes) (plaintext : Bytes) :
    Except CryptoError Bytes :=
  match random with
  | none => .error .random
  | some nonce =>
    match key.seal nonce plaintext with
    | none => .error .seal
    | some (ciphertext, tag) => .ok (nonce ++ ciphertext ++ tag)

/-- `RoomKey::open`. -/
def Aead.openFrame (key : Aead) (sealed : Bytes) : Except CryptoError Bytes :=
  if sealed.length < nonceBytes + tagBytes then .error (.sealedFrameTooShort sealed.length)
  else
    match key.open (sealed.take nonceBytes) (sealed.drop nonceBytes) with
    | some plaintext => .ok plaintext
    | none => .error .tampered

/-- `FRAME_MAX_BYTES`. -/
def frameMaxBytes : Nat := 1024 * 1024

/-- `ENVELOPE_MAX_BYTES`. -/
def envelopeMaxBytes : Nat := frameMaxBytes + nonceBytes + tagBytes + 4

structure RelayRoute where
  peerId : U32
deriving DecidableEq

structure RoutedFrame where
  route : RelayRoute
  frame : CollabFrame
deriving DecidableEq

/-- `u32::to_be_bytes`. -/
def toBeBytes (n : U32) : Bytes :=
  [.ofNat (n / 16777216), .ofNat (n / 65536), .ofNat (n / 256), .ofNat n]

/-- `u32::from_be_bytes`, on the bytes of a header. -/
def fromBeBytes (header : Bytes) : U32 := .ofNat _ (header.foldl (fun n b => n * 256 + b.toNat) 0)

def ofCrypto {α : Type} (x : Except CryptoError α) : Except CodecError α := x.mapError .crypto

variable (serde : SerdeBytes) (key : Aead)

/-- `encode_envelope`. -/
def encodeEnvelope (random : Option Bytes) (route : RelayRoute) (frame : CollabFrame) :
    Except CodecError Bytes := do
  if frame.protocolRevision ≠ protocolRevision then
    throw (.unsupportedRevision "CollabFrame" frame.protocolRevision protocolRevision)
  let plaintext := serde.toVec (← frameToJson serde frame)
  if plaintext.length > frameMaxBytes then throw (.frameTooLarge plaintext.length frameMaxBytes)
  let sealed ← ofCrypto (key.sealFrame random plaintext)
  if 4 + sealed.length > envelopeMaxBytes then
    throw (.envelopeTooLarge (4 + sealed.length) envelopeMaxBytes)
  return toBeBytes route.peerId ++ sealed

/-- `decode_envelope`. -/
def decodeEnvelope (encoded : Bytes) : Except CodecError RoutedFrame := do
  if encoded.length > envelopeMaxBytes then
    throw (.envelopeTooLarge encoded.length envelopeMaxBytes)
  if encoded.length < 4 then throw (.malformed 0)
  let plaintext ← ofCrypto (key.openFrame (encoded.drop 4))
  if plaintext.length > frameMaxBytes then throw (.frameTooLarge plaintext.length frameMaxBytes)
  match serde.fromSlice plaintext with
  | none => throw .decodeJson
  | some value =>
    let frame ← frameFromJson serde value
    return { route := ⟨fromBeBytes (encoded.take 4)⟩, frame }

end OhMyPi.Collab
