import OhMyPi.Dom.Txn
import OhMyPi.Journal.Sse

/-! The messages of the collaboration protocol (`proto/omp/collab/v1/collab.proto`). An enumeration
field of a message holds any 32-bit number. -/

namespace OhMyPi.Collab

abbrev U32 := Fin 4294967296

/-- `PROTOCOL_REVISION`. -/
def protocolRevision : U32 := 3

structure Hello where
  protocolRevision : U32
  displayName : String
  writeToken : Option Bytes := none
  clientVersion : String := ""
deriving DecidableEq

structure SessionHeader where
  sessionId : String
  title : String
  createdAtMs : UInt64
  hostCwd : String
deriving DecidableEq

structure ModelMetadata where
  id : String
  name : String
  provider : String
  contextWindow : U32
deriving DecidableEq

/-- Context use; the percentage is a floating-point number by its bits. -/
structure ContextUsage where
  tokens : UInt64
  contextWindow : UInt64
  percent : UInt32
deriving DecidableEq

structure Participant where
  displayName : String
  isHost : Bool
  readOnly : Bool
  peerId : U32
deriving DecidableEq

structure SessionStateUpdate where
  isStreaming : Bool := false
  isAborting : Bool := false
  queuedMessageCount : U32 := 0
  sessionName : String := ""
  hostCwd : String := ""
  model : Option ModelMetadata := none
  thinkingLevel : Option String := none
  contextUsage : Option ContextUsage := none
  participants : List Participant := []
deriving DecidableEq

structure AgentSummary where
  id : String
  displayName : String
  kind : Int32
  parentId : Option String
  status : Int32
  hasSessionFile : Bool
  createdAtMs : UInt64
  lastActivityMs : UInt64
deriving DecidableEq

structure RegistrySnapshot where
  agents : List AgentSummary := []
deriving DecidableEq

structure Welcome where
  protocolRevision : U32
  header : Option SessionHeader
  initialState : Option SessionStateUpdate
  initialAgents : Option RegistrySnapshot
  totalEntryCount : U32
  readOnly : Bool
deriving DecidableEq

structure Bye where
  reason : String
deriving DecidableEq

structure ErrorMessage where
  code : String
  message : String
deriving DecidableEq

structure JournalRecord where
  revision : UInt64
  transcriptV4Json : Bytes
  visibilityClass : Int32
deriving DecidableEq

structure SnapshotChunk where
  entries : List JournalRecord
  final : Bool
  hostRevisionWatermark : UInt64
deriving DecidableEq

structure ImageAttachment where
  data : Bytes
  mimeType : String
deriving DecidableEq

structure PromptRequest where
  text : String
  images : List ImageAttachment
deriving DecidableEq

structure AbortRequest where
  reason : String
deriving DecidableEq

structure AgentCommand where
  command : Int32
  agentId : String
  text : Option String
deriving DecidableEq

structure SelectOption where
  label : String
  description : Option String
deriving DecidableEq

structure SelectSpec where
  options : List SelectOption
  initialIndex : U32
  marker : Int32
  checkedIndices : List U32
  markableCount : U32
  helpText : Option String
deriving DecidableEq

structure EditorSpec where
  prefill : Option String
deriving DecidableEq

/-- `ui_request::Spec`. -/
inductive UiSpec where
  | select (spec : SelectSpec)
  | editor (spec : EditorSpec)
deriving DecidableEq

structure UiRequest where
  requestId : U32 := 0
  title : String
  spec : Option UiSpec
deriving DecidableEq

structure UiRequestEnd where
  requestId : U32
deriving DecidableEq

structure UiResponse where
  requestId : U32
  value : Option String
deriving DecidableEq

structure TranscriptRequest where
  requestId : U32
  agentId : String
  fromByte : UInt64
deriving DecidableEq

structure TranscriptChunk where
  requestId : U32
  textUtf8 : Bytes
  newSize : UInt64
  error : Option String
deriving DecidableEq

structure BusEvent where
  channel : Int32
  dataJson : Bytes
deriving DecidableEq

structure AgentViewRequest where
  requestId : U32
  agentId : String
deriving DecidableEq

structure AgentViewCancel where
  requestId : U32
deriving DecidableEq

structure AgentViewSnapshot where
  requestId : U32
  chunkIndex : U32
  snapshotBytes : Bytes
  final : Bool
deriving DecidableEq

structure AgentViewEvent where
  requestId : U32
  event : Option JournalRecord
deriving DecidableEq

structure AgentViewEnd where
  requestId : U32
  error : Option ErrorMessage
deriving DecidableEq

/-- `collab_frame::Payload`. The codec refuses a stream event whatever it holds. -/
inductive Payload where
  | hello (value : Hello)
  | welcome (value : Welcome)
  | bye (value : Bye)
  | error (value : ErrorMessage)
  | snapshotChunk (value : SnapshotChunk)
  | journalRecord (value : JournalRecord)
  | event
  | state (value : SessionStateUpdate)
  | agents (value : RegistrySnapshot)
  | prompt (value : PromptRequest)
  | abort (value : AbortRequest)
  | agentCommand (value : AgentCommand)
  | uiResponse (value : UiResponse)
  | transcriptRequest (value : TranscriptRequest)
  | uiRequest (value : UiRequest)
  | uiRequestEnd (value : UiRequestEnd)
  | transcript (value : TranscriptChunk)
  | busEvent (value : BusEvent)
  | agentViewRequest (value : AgentViewRequest)
  | agentViewCancel (value : AgentViewCancel)
  | agentViewSnapshot (value : AgentViewSnapshot)
  | agentViewEvent (value : AgentViewEvent)
  | agentViewEnd (value : AgentViewEnd)
deriving DecidableEq

structure CollabFrame where
  protocolRevision : U32
  sequence : UInt64 := 0
  timestampMs : UInt64 := 0
  payload : Option Payload
deriving DecidableEq

end OhMyPi.Collab
