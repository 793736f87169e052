import OhMyPi.Dom.Stream
import OhMyPi.Journal.Roots

/-! The typed payloads of journal entries (`journal/src/data.rs`) and of tool events
(`tool/src/lib.rs`, `tool/src/diag.rs`). Their readers and writers are generated by `serde` and run
by `serde_json`, so they enter the development as a parameter. -/

namespace OhMyPi

/-- A content-addressed blob: digest and byte length. -/
structure BlobRef where
  hash : Hash32
  size : UInt64
deriving DecidableEq

/-- One user attachment or snapcompact frame. -/
structure Attachment where
  blob : BlobRef
  mime : String
deriving DecidableEq

structure Genesis where
  version : UInt32
  cwd : String
  created : String
deriving DecidableEq

structure MsgUser where
  text : String
  attachments : List Attachment := []
  author : Option String := none
  key : Option String := none
deriving DecidableEq

structure MsgAssistantStart where
  model : String
  provider : String
  route : String
deriving DecidableEq

/-- The payload of a `stream@1` entry. -/
structure StreamFrame where
  sid : Sid
  op : StreamOp
  node : Option Nat := none
  prop : Option String := none
  text : Option String := none
deriving DecidableEq

structure MsgAssistantEnd where
  stopReason : String
deriving DecidableEq

/-- A `serde_json` raw value is its text. -/
abbrev RawValue := String

structure ToolCall where
  name : String
  rev : UInt32
  callId : String
  i : Option String := none
  args : Option RawValue := none
  sid : Option Sid := none
deriving DecidableEq

/-- The terminal payload of a tool: an outcome, or a fault. -/
structure ToolResult where
  fault : Bool
  raw : RawValue
  promptParts : Option RawValue := none
  sourceBlob : Option BlobRef := none
deriving DecidableEq

inductive ReceiptRole where
  | primary
  | advisor
deriving DecidableEq

def ReceiptRole.toStr : ReceiptRole → String
  | primary => "primary"
  | advisor => "advisor"

structure ReceiptIdentity where
  role : ReceiptRole
  provider : String
  model : String
deriving DecidableEq

inductive InferenceRecoveryKind where
  | jsonRepair
  | dialectNormalization
  | toolAssembly
  | thinkingClassification
  | harmonyLeakRepair
  | harmonyLeakDetection
  | reasoningStall
  | withinAttemptRepetition
  | crossTurnToolLoop
  | toolResultRepair
  | fabricatedResultRejection
  | sessionReseed
  | emptyOutput
deriving DecidableEq

structure InferenceRecovery where
  attempt : UInt32
  kind : InferenceRecoveryKind
  rule : String
  inputBytes : UInt64
  steps : UInt32
deriving DecidableEq

structure TurnReceipt where
  tokensIn : UInt64
  tokensOut : UInt64
  costNanoUsd : UInt64
  cacheRead : UInt64 := 0
  cacheWrite : UInt64 := 0
  ttftMs : Option UInt64 := none
  durationMs : Option UInt64 := none
  premiumRequestsMillionths : UInt64 := 0
  identity : Option ReceiptIdentity := none
  recoveries : List InferenceRecovery := []
deriving DecidableEq

/-- The client mutation identity of a keyed patch. -/
structure PatchIdempotency where
  key : String
  request : RawValue
deriving DecidableEq

structure Patch where
  ops : RawValue
  idempotency : Option PatchIdempotency := none
deriving DecidableEq

structure Compaction where
  summary : BlobRef
  boundary : EntryId
  method : Option String := none
  tokensBefore : Option UInt64 := none
  tokensAfter : Option UInt64 := none
  warning : Option String := none
  frames : List Attachment := []
deriving DecidableEq

/-- `MAX_SNAPCOMPACT_FRAMES`. -/
def maxSnapcompactFrames : Nat := 80

/-- `MAX_SNAPCOMPACT_FRAME_BYTES`. -/
def maxSnapcompactFrameBytes : UInt64 := 3000000

/-- `u64::saturating_add`. -/
def saturatingAdd (a b : UInt64) : UInt64 :=
  if a.toNat + b.toNat < 18446744073709551616 then a + b else 18446744073709551615

/-- Aggregate encoded bytes declared by the retained frame references. -/
def Compaction.frameBytes (compaction : Compaction) : UInt64 :=
  (compaction.frames.map (·.blob.size)).foldl saturatingAdd 0

structure SkillPrompt where
  name : String
  args : Option String
  path : String
  promptBody : String
  lineCount : UInt64
deriving DecidableEq

inductive MentionedFileState where
  | lines (lineCount : Option UInt64)
  | image (attachment : Attachment)
  | skippedBinary (byteSize : Option UInt64)
  | tooLarge (byteSize : Option UInt64)
deriving DecidableEq

structure MentionedFile where
  path : String
  content : String
  state : MentionedFileState
deriving DecidableEq

structure FileMentions where
  files : List MentionedFile
deriving DecidableEq

/-- One model-facing tool-result part. A JSON part is kept as bytes. -/
inductive ToolPart where
  | text (text : String)
  | json (json : Bytes)
  | blob (hash mediaType : String) (byteLen : UInt64) (alt : Option String)
deriving DecidableEq

inductive Severity where
  | info
  | warn
  | error
deriving DecidableEq

def Severity.toStr : Severity → String
  | info => "info"
  | warn => "warn"
  | error => "error"

/-- Unit of elided content. -/
inductive OmittedUnit where
  | lines | rows | entries | files | bytes | chars | items
deriving DecidableEq

def OmittedUnit.toStr : OmittedUnit → String
  | lines => "lines"
  | rows => "rows"
  | entries => "entries"
  | files => "files"
  | bytes => "bytes"
  | chars => "chars"
  | items => "items"

structure Omitted where
  count : UInt64
  unit : OmittedUnit
deriving DecidableEq

/-- One harness notice attached to a tool call. -/
structure Diag where
  severity : Severity := .info
  kind : String := "notice"
  text : String := ""
  continuation : Option String := none
  artifact : Option String := none
  omitted : Option Omitted := none
deriving DecidableEq

/-- How one payload type is written and read. -/
structure Codec (α : Type) where
  write : α → String
  read : String → Option α

/-- The `serde_json` entry points the session calls. -/
structure Serde extends SerdeJson where
  /-- `to_string` of a `Value`. -/
  render : Json → String
  genesis : Codec Genesis
  msgUser : Codec MsgUser
  msgAssistantStart : Codec MsgAssistantStart
  stream : Codec StreamFrame
  msgAssistantEnd : Codec MsgAssistantEnd
  toolCall : Codec ToolCall
  toolUpdate : Codec RawValue
  toolResult : Codec ToolResult
  turnReceipt : Codec TurnReceipt
  patch : Codec Patch
  compaction : Codec Compaction
  ops : Codec (List Op)
  attachments : List Attachment → RawValue
  recoveries : List InferenceRecovery → RawValue
  texts : List String → RawValue
  skillPrompt : SkillPrompt → RawValue
  fileMentions : Codec FileMentions
  /-- `from_str` at the outcome envelope: its `value`, when the text is one. -/
  envelope : RawValue → Option (Option RawValue)
  parts : RawValue → Option (List ToolPart)
  /-- `Diag::deserialize` from a `Value`. -/
  diag : Json → Option Diag

end OhMyPi
