import OhMyPi.Session.Components

/-! The fold of one journal entry onto the session's derived state (`session/src/fold.rs`). -/

namespace OhMyPi

open Component (clampI64)

/-- A count as a property value. -/
def unsigned (value : UInt64) : Value := .int (clampI64 value.toNat)

/-- The digest as lowercase hexadecimal digits. -/
def Hash32.toHex (hash : Hash32) : String :=
  String.ofList (hash.bytes.flatMap fun b =>
    let digits := "0123456789abcdef".toList
    [digits.getD (b.toNat / 16) '0', digits.getD (b.toNat % 16) '0'])

def blobAddress (blob : BlobRef) : String := "artifact://sha256/" ++ blob.hash.toHex

def idValue (id : EntryId) : Value := .str id.toStr

/-- The properties every body element takes from its entry. -/
def entryNode (tag : KnownTag) (entry : Entry) : NodeSpec :=
  let node : NodeSpec := { tag := .known tag }
  let node := node.withProp (.known .id) (idValue entry.id)
  let node := node.withProp (.known .order) (idValue entry.id)
  node.withProp (.known .cause) (entry.by_.elim .null idValue)

/-- Adds a property when there is a value for it. -/
def NodeSpec.withSome (node : NodeSpec) (key : PropKey) (value : Option Value) : NodeSpec :=
  match value with
  | some value => node.withProp key value
  | none => node

def orderOp (entry : Entry) (handle : Handle) : Op := .set handle (.known .order) (idValue entry.id)

/-! ## Texts -/

/-- `json_text`: the text of a JSON string, else the raw JSON. -/
def jsonText (serde : Serde) (raw : RawValue) : String :=
  ((serde.value raw).bind Json.asStr).getD raw

/-- `outcome_text`. -/
def outcomeText (serde : Serde) (raw : RawValue) : String :=
  match serde.envelope raw with
  | some (some value) => jsonText serde value
  | _ => jsonText serde raw

/-- The text one part adds. -/
def ToolPart.promptText : ToolPart → Except SessionError String
  | .text value => .ok value
  | .json bytes =>
    match Text.fromUtf8 bytes with
    | some value => .ok value
    | none => .error .toolPartUtf8
  | .blob _ _ _ alt => .ok (alt.getD "")

/-- `prompt_parts_text`. -/
def promptPartsText (serde : Serde) (raw : RawValue) : Except SessionError String :=
  match serde.parts raw with
  | none => .error .payload
  | some parts => (parts.mapM ToolPart.promptText).map String.join

/-- `char::is_whitespace`. -/
def isWhitespace (c : Char) : Bool :=
  let n := c.toNat
  (9 ≤ n && n ≤ 13) || n = 32 || n = 133 || n = 160 || n = 5760 || (8192 ≤ n && n ≤ 8202) ||
    n = 8232 || n = 8233 || n = 8239 || n = 8287 || n = 12288

/-- `str::trim`. -/
def trim (text : List Char) : List Char :=
  ((text.dropWhile isWhitespace).reverse.dropWhile isWhitespace).reverse

/-- `extract_handoff_document`: what the first wrapper holds, or all recoverable text. -/
def extractHandoffDocument (text : String) : String :=
  let close := "</handoff-context>".toList
  let document :=
    match Search.afterFirst "<handoff-context>".toList text.toList with
    | none => text.toList
    | some body =>
      match Search.afterFirst close body with
      | none => body
      | some rest => body.take (body.length - rest.length - close.length)
  String.ofList (trim document)

/-- `legacy_handoff_document`: the summary a custom handoff message stands for. -/
def legacyHandoffDocument (node : NodeSpec) : Option String :=
  let text (key : PropKey) := (KeyedList.first key node.props).bind Value.asStr
  if node.tag ≠ .known .developer && node.tag ≠ .known .notice then none
  else if text (.known .kind) ≠ some "custom" || text (.known .name) ≠ some "handoff" ||
      KeyedList.first (.custom "display") node.props = some (.bool false) then none
  else some ((node.content.map extractHandoffDocument).getD "")

/-! ## Entries of the body -/

namespace Fold

/-- `fold_genesis`. -/
def genesis (entry : Entry) : Fold Unit :=
  applyOps entry
    ([KnownTag.todo, .jobs, .directors, .con].map
        (fun tag => Op.ins Dom.meta none { tag := .known tag }) ++
      [KnownTag.steering, .prompts].map fun tag => Op.ins Dom.queues none { tag := .known tag })

/-- `fold_turn_start`. -/
def turnStart (entry : Entry) : Fold Unit := do
  let (after, count) ← Action.reads fun core =>
    .ok (core.dom.lastChild Dom.body, (core.dom.children Dom.body).length)
  let node := (entryNode .turn entry).withProp (.known .turn) (.int (clampI64 (count + 1)))
  let minted ← applyEntryOps entry [.ins Dom.body after node]
  Action.modify fun core => { core with currentTurn := some entry.id, currentAssistant := none }
  if minted.isEmpty then Action.fail .noActiveTurn

/-- `mutation_keys.entry(key).or_insert(id)`. -/
def registerKey (key : Option String) (id : EntryId) : Fold Unit :=
  match key with
  | none => pure ()
  | some key => Action.modify fun core =>
    { core with
      mutationKeys := Function.update core.mutationKeys key ((core.mutationKeys key).or (some id)) }

def userNode (serde : Serde) (entry : Entry) (payload : MsgUser) : NodeSpec :=
  let node := { entryNode .user entry with content := some payload.text }
  let node := if payload.attachments.isEmpty then node
    else node.withProp (.known .data) (.json (serde.attachments payload.attachments))
  node.withSome (.known .author) (payload.author.map .str)

/-- `fold_user`. -/
def user (serde : Serde) (entry : Entry) : Fold Unit := do
  let payload ← decode (serde.msgUser.read entry.data)
  let turn ← Action.reads Core.currentTurnHandle
  insertLast entry turn (userNode serde entry payload)
  registerKey payload.key entry.id

/-- `fold_assistant_start`. -/
def assistantStart (serde : Serde) (entry : Entry) : Fold Unit := do
  let payload ← decode (serde.msgAssistantStart.read entry.data)
  let turn ← Action.reads Core.currentTurnHandle
  let node := entryNode .assistant entry
  let node := node.withProp (.known .model) (.str payload.model)
  let node := node.withProp (.known .provider) (.str payload.provider)
  let node := node.withProp (.known .route) (.str payload.route)
  insertLast entry turn node
  Action.modify fun core => { core with currentAssistant := some entry.id }

/-- `decode_stream_prop`. -/
def decodeStreamProp (value : String) : PropKey :=
  match PropKey.stripCustom value with
  | some name => .custom name
  | none => .fromStr value

/-- `encode_stream_prop`. -/
def encodeStreamProp : PropKey → String
  | .known prop => prop.toStr
  | .custom name => "custom:" ++ name

/-- `set_stream_order`. -/
def setStreamOrder (entry : Entry) (node : Handle) : Fold Unit := applyOps entry [orderOp entry node]

/-- A field the operation of a stream frame needs. -/
def required {α : Type} (field : Option α) : Fold α :=
  Action.lift <| match field with
    | some a => .ok a
    | none => .error .invalidStreamFrame

/-- Fields the operation of a stream frame must not have. -/
def absent (present : Bool) : Fold Unit :=
  if present then Action.fail .invalidStreamFrame else pure ()

/-- `fold_stream`. -/
def stream (serde : Serde) (entry : Entry) : Fold Unit := do
  let payload ← decode (serde.stream.read entry.data)
  Action.modify fun core => { core with nextSid := max core.nextSid payload.sid }
  match payload.op with
  | .open =>
    let node ← required payload.node
    if node = 0 then Action.fail (.invalidHandle node)
    let prop ← required (payload.prop.map decodeStreamProp)
    absent payload.text.isSome
    streamOpen entry payload.sid node prop
    Action.modify fun core =>
      { core with streamTargets := core.streamTargets.insert payload.sid node }
    setStreamOrder entry node
  | .append =>
    absent (payload.node.isSome || payload.prop.isSome)
    let text ← required payload.text
    let node ← Action.reads fun core => core.streamTarget payload.sid
    streamAppend entry payload.sid text
    setStreamOrder entry node
  | .close =>
    absent (payload.node.isSome || payload.prop.isSome || payload.text.isSome)
    let node ← Action.reads fun core => core.streamTarget payload.sid
    streamClose entry payload.sid
    Action.modify fun core => { core with streamTargets := core.streamTargets.erase payload.sid }
    setStreamOrder entry node

/-! ## Assistant completion -/

/-- The provider blocks of an assistant in order of their index, then of position. -/
def contentBlocks (dom : Dom) (assistant : Handle) : List Handle :=
  (KeyedList.sort ((dom.children assistant).filterMap fun h =>
    if dom.tag h = some (.custom "assistant-content") then
      match dom.prop h (.custom "index") with
      | some (.int index) => some (index.toInt, h)
      | _ => some (Int64.maxValue.toInt, h)
    else none)).map (·.2)

/-- The text of the blocks of one kind, none when there is no such block. -/
def aggregateKind (dom : Dom) (order : HashOrder) (kind : String) (blocks : List Handle) :
    Option String :=
  blocks.foldl (fun acc h =>
    match (dom.streamText order h (.known .text)).or (dom.propText h (.known .text)) with
    | some value =>
      if dom.propText h (.known .kind) = some kind then some (acc.getD "" ++ value) else acc
    | none => acc) none

/-- `aggregate_assistant_content`: the text and the thinking. -/
def aggregateAssistantContent (dom : Dom) (order : HashOrder) (assistant : Handle) :
    Option String × Option String :=
  let blocks := contentBlocks dom assistant
  (aggregateKind dom order "text" blocks, aggregateKind dom order "thinking" blocks)

/-- A property update when there is a value for it. -/
def setSome (handle : Handle) (key : PropKey) (value : Option Value) : List Op :=
  match value with
  | some value => [.set handle key value]
  | none => []

/-- `fold_assistant_end`. -/
def assistantEnd (serde : Serde) (order : HashOrder) (entry : Entry) : Fold Unit := do
  let payload ← decode (serde.msgAssistantEnd.read entry.data)
  let assistant ← Action.reads Core.currentAssistantHandle
  let (text, thinking) ← Action.reads fun core =>
    .ok (aggregateAssistantContent core.dom order assistant)
  applyOps entry <|
    [.set assistant (.known .stopReason) (.str payload.stopReason), orderOp entry assistant] ++
      setSome assistant (.known .text) (text.map .str) ++
      setSome assistant (.known .thinking) (thinking.map .str)
  Action.modify fun core => { core with currentAssistant := none }

/-! ## Tool calls -/

def toolNode (entry : Entry) (payload : ToolCall) : NodeSpec :=
  let node : NodeSpec := { tag := .custom payload.name }
  let node := node.withProp (.known .id) (.str payload.callId)
  let node := node.withProp (.known .cause) (idValue entry.id)
  let node := node.withProp (.known .order) (idValue entry.id)
  let node := node.withProp (.known .status)
    (.str (if payload.sid.isSome then "arguments" else "running"))
  let node := node.withProp (.known .rev) (.int (clampI64 payload.rev.toNat))
  node.withSome (.known .i) (payload.i.map .str)

def inputNode (payload : ToolCall) : NodeSpec :=
  match payload.args with
  | some args => { tag := .known .input, content := some args }
  | none => ({ tag := .known .input } : NodeSpec).withProp (.known .text) (.str "")

/-- `fold_tool_call`. -/
def toolCall (serde : Serde) (entry : Entry) : Fold Unit := do
  let payload ← decode (serde.toolCall.read entry.data)
  let turn ← Action.reads Core.currentTurnHandle
  let (tool, after) ← Action.reads fun core =>
    .ok (core.dom.highWater + 1, core.dom.lastChild turn)
  applyOps entry
    [.ins turn after (toolNode entry payload), .ins tool none (inputNode payload),
      .ins tool (some (tool + 1)) { tag := .known .result },
      .ins tool (some (tool + 2)) { tag := .known .usage }]
  Action.modify fun core =>
    { core with callHandles := Function.update core.callHandles entry.id (some tool) }
  match payload.sid with
  | none => pure ()
  | some sid =>
    Action.modify fun core => { core with nextSid := max core.nextSid sid }
    streamOpen entry sid (tool + 1) (.known .text)
    Action.modify fun core => { core with streamTargets := core.streamTargets.insert sid (tool + 1) }

/-- `entry_call_handle`. The journal admits no tool event without a cause. -/
def entryCallHandle (entry : Entry) : Fold Handle :=
  match entry.by_ with
  | some call => Action.reads fun core => core.callHandle call
  | none => Action.fail (.unknownCall entry.id)

/-- The operations of a `receipt` update. -/
def receiptOps (entry : Entry) (call : Handle) (value : Json) : List Op :=
  let number (key name : String) :=
    setSome call (.custom name)
      (((value.get key).bind Json.asU64).map fun bytes => .str (toString bytes.toNat))
  orderOp entry call ::
    (number "source_bytes" "receipt-source-bytes" ++ number "inline_bytes" "receipt-inline-bytes" ++
      number "elapsed_ms" "receipt-elapsed-ms" ++
      setSome call (.custom "receipt-outcome") (((value.get "outcome").bind Json.asStr).map .str))

/-- An update whose output bytes were revealed by a stream: a sequence number and an emptied
`data`. -/
def isEmptied (value : Json) : Bool :=
  ((value.get "sequence").bind Json.asU64).isSome &&
    match value.get "data" with
    | some (.string text) => text = ""
    | some (.array bytes) => bytes.isEmpty
    | _ => false

def diagNode (serde : Serde) (raw : Json) (diag : Diag) : NodeSpec :=
  let node : NodeSpec := { tag := .known .diag }
  let node := node.withProp (.known .severity) (.str diag.severity.toStr)
  let node := node.withProp (.known .kind) (.str diag.kind)
  let node := node.withProp (.known .data) (.json (serde.render raw))
  let node := if diag.text = "" then node else node.withProp (.known .text) (.str diag.text)
  let node := node.withSome (.known .continuation) (diag.continuation.map .str)
  let node := node.withSome (.known .recovery) (diag.artifact.map .str)
  match diag.omitted with
  | some omitted =>
    (node.withProp (.known .omitted) (unsigned omitted.count)).withProp (.known .unit)
      (.str omitted.unit.toStr)
  | none => node

/-- The notice an update carries; a bare string is its text. -/
def decodeDiag (serde : Serde) : Json → Option Diag
  | .string text => some { text }
  | raw => serde.diag raw

/-- What an update shows, and on which child of the call. -/
def projected (value : Json) : KnownTag × Json :=
  match value.get "usage" with
  | some usage => (.usage, usage)
  | none => (.result, ((value.get "result").or ((value.get "output").or (value.get "text"))).getD value)

/-- `project_update`. -/
def projectUpdate (serde : Serde) (dom : Dom) (call : Handle) (value : Json) :
    Except SessionError (List Op) :=
  if isEmptied value then .ok []
  else
    match (value.get "diag").or (value.get "diagnostic") with
    | some raw =>
      match decodeDiag serde raw with
      | none => .error .payload
      | some diag =>
        .ok [.ins call ((dom.lastChildWithTag call .diag).or (dom.lastChild call))
          (diagNode serde raw diag)]
    | none =>
      let (target, shown) := projected value
      match dom.childWithTag call target with
      | none => .error .noActiveTurn
      | some child =>
        let rendered := serde.render shown
        .ok [.set child (.known .text) (.str (shown.asStr.getD rendered)),
          .set child (.known .data) (.json rendered)]

/-- `fold_tool_ready`: the argument stream of the call is closed and its canonical arguments take
the stream's place. -/
def toolReady (serde : Serde) (order : HashOrder) (entry : Entry) (call : Handle) (value : Json) :
    Fold Unit := do
  let input ← Action.reads fun core =>
    match core.dom.childWithTag call .input with
    | some input => .ok input
    | none => .error .noActiveTurn
  let args ← required (value.get "args")
  let raw := serde.render args
  let bound ← Action.reads fun core =>
    .ok (((order.iter core.streamTargets.entries).find? fun p => p.2 = input).map (·.1))
  match bound with
  | none => pure ()
  | some sid =>
    streamClose entry sid
    Action.modify fun core => { core with streamTargets := core.streamTargets.erase sid }
  applyOps entry <|
    [orderOp entry call, .set call (.known .status) (.str "running"),
      .set input (.known .text) (.str (jsonText serde raw)), .set input (.known .data) (.json raw)] ++
      setSome call (.known .i) (((value.get "i").bind Json.asStr).map .str)

/-- `fold_tool_update`. -/
def toolUpdate (serde : Serde) (order : HashOrder) (entry : Entry) : Fold Unit := do
  let update ← decode (serde.toolUpdate.read entry.data)
  let call ← entryCallHandle entry
  let value ← decode (serde.value update)
  match (value.get "kernel").bind Json.asStr with
  | some "ready" => toolReady serde order entry call value
  | some "started" =>
    applyOps entry [.set call (.custom "execution-started") (.bool true), orderOp entry call]
  | some "receipt" => applyOps entry (receiptOps entry call value)
  | _ =>
    let ops ← Action.reads fun core => projectUpdate serde core.dom call value
    applyOps entry (orderOp entry call :: ops)

/-- The operations on the call of a settled tool. -/
def settledOps (entry : Entry) (call : Handle) (payload : ToolResult) : List Op :=
  [orderOp entry call,
    .set call (.known .status) (.str (if payload.fault then "error" else "ok")),
    .set call (.custom "result_entry") (idValue entry.id)] ++
  match payload.sourceBlob with
  | some blob =>
    [.set call (.known .blob) (.str (blobAddress blob)),
      .set call (.known .mime) (.str "application/json"),
      .set call (.custom "size") (unsigned blob.size)]
  | none => []

/-- The `diag` of a fault. -/
def faultNode (text : String) (payload : ToolResult) : NodeSpec :=
  let node : NodeSpec := { tag := .known .diag }
  let node := node.withProp (.known .severity) (.str "error")
  let node := node.withProp (.known .text) (.str text)
  let node := node.withProp (.known .fault) (.json payload.raw)
  node.withSome (.known .data) (payload.promptParts.map .json)

/-- Whether the result shows text already. -/
def hasStreamedText (dom : Dom) (child : Handle) : Bool :=
  (dom.content child).any (· ≠ "") || (dom.propText child (.known .text)).any (· ≠ "")

/-- The operations that show an outcome or a fault. -/
def resultOps (dom : Dom) (entry : Entry) (call : Handle) (text : String) (payload : ToolResult) :
    Except SessionError (List Op) :=
  if payload.fault then .ok [.ins call (dom.lastChild call) (faultNode text payload)]
  else
    match dom.childWithTag call .result with
    | none => .error (.unknownCall (entry.by_.getD entry.id))
    | some child =>
      .ok ((if hasStreamedText dom child then [] else [.set child (.known .text) (.str text)]) ++
        .set child (.known .outcome) (.json payload.raw) ::
        setSome child (.known .data) (payload.promptParts.map .json))

/-- `fold_tool_result`. -/
def toolResult (serde : Serde) (entry : Entry) : Fold Unit := do
  let payload ← decode (serde.toolResult.read entry.data)
  let call ← entryCallHandle entry
  let text ← Action.lift <| match payload.promptParts with
    | some parts => promptPartsText serde parts
    | none => .ok (outcomeText serde payload.raw)
  let ops ← Action.reads fun core => resultOps core.dom entry call text payload
  applyOps entry (settledOps entry call payload ++ ops)

/-! ## Receipts, patches and compactions -/

def receiptNode (serde : Serde) (entry : Entry) (payload : TurnReceipt) : NodeSpec :=
  let node := entryNode .usage entry
  let node := node.withProp (.known .tokensIn) (unsigned payload.tokensIn)
  let node := node.withProp (.known .tokensOut) (unsigned payload.tokensOut)
  let node := node.withProp (.known .costNanoUsd) (unsigned payload.costNanoUsd)
  let node := node.withProp (.known .cacheRead) (unsigned payload.cacheRead)
  let node := node.withProp (.known .cacheWrite) (unsigned payload.cacheWrite)
  let node := if payload.premiumRequestsMillionths = 0 then node
    else node.withProp (.known .premiumRequests) (unsigned payload.premiumRequestsMillionths)
  let node := if payload.recoveries.isEmpty then node
    else node.withProp (.custom "recoveries") (.json (serde.recoveries payload.recoveries))
  let node := match payload.identity with
    | some identity =>
      let node := node.withProp (.known .kind) (.str identity.role.toStr)
      let node := node.withProp (.known .provider) (.str identity.provider)
      node.withProp (.known .model) (.str identity.model)
    | none => node
  let node := node.withSome (.known .ttftMs) (payload.ttftMs.map unsigned)
  node.withSome (.known .durationMs) (payload.durationMs.map unsigned)

/-- `fold_receipt`. -/
def receipt (serde : Serde) (entry : Entry) : Fold Unit := do
  let payload ← decode (serde.turnReceipt.read entry.data)
  let turn ← Action.reads Core.currentTurnHandle
  insertLast entry turn (receiptNode serde entry payload)

/-- The compaction marker a legacy handoff message is replayed as. -/
def handoffNode (entry : Entry) (boundary : EntryId) (summary : String) : NodeSpec :=
  let node : NodeSpec := { tag := .known .compaction }
  let node := node.withProp (.known .id) (idValue entry.id)
  let node := node.withProp (.known .cause) (idValue entry.id)
  let node := node.withProp (.known .boundary) (idValue boundary)
  let node := node.withProp (.known .summary) (.str summary)
  node.withProp (.known .method) (.str "handoff")

/-- The operations of a patch with its legacy handoff messages turned into compaction markers, which
all go after what was the last child of `meta` before the patch. -/
def rewriteHandoffs (entry : Entry) (boundary : EntryId) (after : Option Handle) (ops : List Op) :
    List Op :=
  ops.map fun op =>
    match op with
    | .ins _ _ node =>
      match legacyHandoffDocument node with
      | some summary => .ins Dom.meta after (handoffNode entry boundary summary)
      | none => op
    | _ => op

/-- The operations a patch performs in a state. -/
def patchOps (core : Core) (entry : Entry) (ops : List Op) : List Op :=
  match core.head with
  | some boundary => rewriteHandoffs entry boundary (core.dom.lastChild Dom.meta) ops
  | none => ops

/-- `fold_patch`. -/
def patch (serde : Serde) (entry : Entry) : Fold Unit := do
  let payload ← decode (serde.patch.read entry.data)
  let ops ← decode (serde.ops.read payload.ops)
  let ops ← Action.reads fun core => .ok (patchOps core entry ops)
  applyOps entry ops
  registerKey (payload.idempotency.map (·.key)) entry.id

/-- `validate_compaction_frames`. -/
def validateCompactionFrames (compaction : Compaction) : Except SessionError Unit :=
  if compaction.frames.length > maxSnapcompactFrames then
    .error (.tooManyCompactionFrames compaction.frames.length maxSnapcompactFrames)
  else if compaction.frameBytes > maxSnapcompactFrameBytes then
    .error (.compactionFramesTooLarge compaction.frameBytes maxSnapcompactFrameBytes)
  else .ok ()

/-- `compaction_summary`. Blobs are content-addressed, so the text read once stays the same. -/
def compactionSummary (env : Env) (summary : BlobRef) : Except SessionError String :=
  match env.blobs summary.hash with
  | none => .error .blob
  | some bytes =>
    if bytes.length ≠ summary.size.toNat then .error .blob
    else
      match Text.fromUtf8 bytes with
      | some text => .ok text
      | none => .error .summaryUtf8

def compactionNode (serde : Serde) (entry : Entry) (payload : Compaction) (summary : String) :
    NodeSpec :=
  let node : NodeSpec := { tag := .known .compaction }
  let node := node.withProp (.known .id) (idValue entry.id)
  let node := node.withProp (.known .cause) (idValue entry.id)
  let node := node.withProp (.known .boundary) (idValue payload.boundary)
  let node := node.withProp (.known .summary) (.str summary)
  let node := node.withProp (.known .blob) (.str (blobAddress payload.summary))
  let node := node.withSome (.known .method) (payload.method.map .str)
  let node := node.withSome (.known .tokensBefore) (payload.tokensBefore.map unsigned)
  let node := node.withSome (.known .tokensAfter) (payload.tokensAfter.map unsigned)
  let node := if payload.frames.isEmpty then node
    else (node.withProp (.known .frames) (.json (serde.attachments payload.frames))).withProp
      (.known .frameCount) (.int (clampI64 payload.frames.length))
  node.withSome (.known .warning) (payload.warning.map .str)

/-- `fold_compaction`. -/
def compaction (env : Env) (entry : Entry) : Fold Unit := do
  let payload ← decode (env.serde.compaction.read entry.data)
  Action.lift (validateCompactionFrames payload)
  let summary ← Action.lift (compactionSummary env payload.summary)
  insertLast entry Dom.meta (compactionNode env.serde entry payload summary)

/-- The body of one entry, by its kind. -/
def body (env : Env) (order : HashOrder) (entry : Entry) : Fold Unit :=
  if entry.kind.rev ≠ 1 then pure ()
  else
    match KindName.fromStr entry.kind.name with
    | some .journal => genesis entry
    | some .turnStart => turnStart entry
    | some .msgUser => user env.serde entry
    | some .msgAssistantStart => assistantStart env.serde entry
    | some .stream => stream env.serde entry
    | some .msgAssistantEnd => assistantEnd env.serde order entry
    | some .toolCall => toolCall env.serde entry
    | some .toolUpdate => toolUpdate env.serde order entry
    | some .toolResult => toolResult env.serde entry
    | some .turnReceipt => receipt env.serde entry
    | some .patch => patch env.serde entry
    | some .compaction => compaction env entry
    | none => pure ()

/-- The staged operations of the components, as one transaction. -/
def components (serde : Serde) (entry : Entry) : Fold Unit := do
  let draft ← Action.reads fun core => .ok (Component.draft serde entry core.dom)
  if draft.isEmpty then pure () else applyOps entry draft

/-- `apply`: the body of an entry, then the components, then the head. -/
def apply (env : Env) (order : HashOrder) (entry : Entry) : Fold Unit := do
  body env order entry
  components env.serde entry
  Action.modify fun core => { core with head := some entry.id }

end Fold

end OhMyPi
