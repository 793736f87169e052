import OhMyPi.Session.Session

/-! The public writes of a session (`session/src/session.rs`, `session/src/exit_diagnostics.rs`):
what each checks before it commits, and the payload it commits. -/

namespace OhMyPi

/-- What one tool call cost. -/
structure ToolReceipt where
  sourceBytes : UInt64
  inlineBytes : UInt64
  elapsedMs : UInt64
  outcome : String

/-- `IdempotencyKey::validate`. -/
def validateKey (key : String) : Except SessionError Unit :=
  if Str.len key = 0 then .error (.invalidIdempotencyKey .empty)
  else if Str.len key > 128 then .error (.invalidIdempotencyKey (.tooLong (Str.len key) 128))
  else .ok ()

namespace Core

/-- `turn_cause`. -/
def turnCause (core : Core) : Except SessionError EntryId := do
  let _ ← core.currentTurnHandle
  match core.currentTurn with
  | some turn => return turn
  | none => throw .noActiveTurn

/-- `ensure_call`. -/
def ensureCall (core : Core) (call : EntryId) : Except SessionError Unit :=
  match core.callHandles call with
  | none => .error (.unknownCall call)
  | some handle =>
    if [KnownTag.input, .result, .usage].all fun tag =>
        (core.dom.children handle).any fun child => core.dom.tag child = some (.known tag) then
      .ok ()
    else .error (.unknownCall call)

def headOr (core : Core) (e : SessionError) : Except SessionError EntryId :=
  match core.head with
  | some head => .ok head
  | none => .error e

end Core

namespace Session

/-- Checks the derived state. -/
def check {α : Type} (f : Core → Except SessionError α) : Operation α :=
  Action.reads fun s => f s.core

def ofDom {α : Type} (x : Except DomError α) : Except SessionError α :=
  match x with
  | .ok a => .ok a
  | .error e => .error (.dom e)

def decoded {α : Type} (read : Option α) : Except SessionError α :=
  match read with
  | some a => .ok a
  | none => .error .payload

variable (env : Env) (order : HashOrder)

/-! ## Patches -/

/-- `commit_patch`. The operations are validated as they will be read back. -/
def commitPatch (io : Io) (txn : Txn) (idempotency : Option PatchIdempotency) :
    Operation EntryId := do
  let data := env.serde.ops.write txn.ops
  check fun core => do
    let ops ← decoded (env.serde.ops.read data)
    let _ ← ofDom (core.dom.validateOps ops)
  commit env order io .patch (some txn.cause) txn.label (env.serde.patch.write { ops := data, idempotency })

/-- `patch`. -/
def patch (io : Io) (txn : Txn) : Operation EntryId := commitPatch env order io txn none

/-- The exit markers of the selected branch. -/
def exitMarkers (dom : Dom) : List Handle :=
  match Component.componentRoot dom "session-transitions" with
  | none => []
  | some transitions =>
    (dom.children transitions).filter fun h => dom.tag h = some (.custom "session-exit")

/-- `clear_exit_diagnostics`: exit markers are removed before a new turn. -/
def clearExitDiagnostics (io : Io) : Operation Unit := do
  let exits ← check fun core => .ok (exitMarkers core.dom)
  if exits.isEmpty then pure ()
  else
    let cause ← check fun core => core.headOr .missingSessionTransitions
    let _ ← patch env order io
      { cause, label := some "session.exit.acknowledge", ops := exits.map .rm }

/-- The transitions element and its `session_switch_count`. -/
def switchCount (dom : Dom) : Except SessionError (Handle × Nat) :=
  match Component.componentRoot dom "session-transitions" with
  | none => .error .missingSessionTransitions
  | some handle =>
    match dom.prop handle (.custom "switches") with
    | some (.int value) => .ok (handle, value.toInt.toNat)
    | _ => .ok (handle, 0)

/-- `session_switch`. -/
def sessionSwitch (io : Io) : Operation EntryId := do
  let (handle, count) ← check fun core => switchCount core.dom
  let cause ← check fun core => core.headOr .missingSessionTransitions
  patch env order io
    { cause, label := some "session.switch"
      ops := [.set handle (.custom "switches") (.int (Component.clampI64 (count + 1)))] }

/-- A patch that inserts a message at the end of the active turn. -/
def insertMessage (io : Io) (label : String) (node : NodeSpec) : Operation EntryId := do
  let turn ← check Core.currentTurnHandle
  let cause ← check Core.turnCause
  let after ← check fun core => .ok (core.dom.lastChild turn)
  patch env order io { cause, label := some label, ops := [.ins turn after node] }

/-- `skill_prompt`. -/
def skillPrompt (io : Io) (prompt : SkillPrompt) : Operation EntryId :=
  let node : NodeSpec := { tag := .known .user, content := some prompt.promptBody }
  insertMessage env order io "skill.prompt"
    ((node.withProp (.custom "skill_prompt") (.bool true)).withProp (.known .data)
      (.json (env.serde.skillPrompt prompt)))

/-- The duplicate `<file>` body of a mention group. -/
def mentionBody (payload : FileMentions) : String :=
  "\n".intercalate (payload.files.map fun file =>
    "<file path=\"" ++ file.path ++ "\">\n" ++ file.content ++ "\n</file>")

/-- `file_mentions`. -/
def fileMentions (io : Io) (payload : FileMentions) : Operation EntryId :=
  let node : NodeSpec := { tag := .known .user, content := some (mentionBody payload) }
  insertMessage env order io "file.mention"
    ((node.withProp (.custom "file_mention") (.bool true)).withProp (.known .data)
      (.json (env.serde.fileMentions.write payload)))

/-! ## Turns and messages -/

/-- `begin_turn`; `ack` is for the patch that acknowledges an exit. -/
def beginTurn (ack io : Io) : Operation EntryId := do
  clearExitDiagnostics env order ack
  let cause ← check fun core => core.headOr .noActiveTurn
  commit env order io .turnStart (some cause) none "{}"

def commitUser (io : Io) (payload : MsgUser) : Operation EntryId := do
  let cause ← check Core.turnCause
  commit env order io .msgUser (some cause) none (env.serde.msgUser.write payload)

/-- `user`. -/
def user (io : Io) (text : String) (attachments : List Attachment) : Operation EntryId :=
  commitUser env order io { text, attachments }

/-- The entry with an identity, `entry`. -/
def entry (s : Session) (id : EntryId) : Option Entry := (byId s.entries id).bind (s.entries[·]?)

/-- `replay_of`. -/
def replayOf (serde : Serde) (s : Session) (key : String) (text : String)
    (attachments : List Attachment) : Except SessionError (Option EntryId) :=
  match s.core.mutationKeys key with
  | none => .ok none
  | some existing =>
    match s.entry existing with
    | none => .error (.unknownEntry existing)
    | some entry =>
      if entry.kind.name = KindName.msgUser.toStr then
        match serde.msgUser.read entry.data with
        | none => .error .payload
        | some stored =>
          if stored.text = text && stored.attachments = attachments then .ok (some existing)
          else .error (.keyConflict key existing)
      else .error (.keyConflict key existing)

/-- `user_authored`. -/
def userAuthored (io : Io) (text : String) (attachments : List Attachment) (author : String)
    (key : Option String) : Operation AppendOutcome := do
  let replayed ← Action.reads fun s =>
    match key with
    | none => .ok none
    | some key => do
      validateKey key
      replayOf env.serde s key text attachments
  match replayed with
  | some existing => return .replayed existing
  | none =>
    return .appended (← commitUser env order io { text, attachments, author := some author, key })

/-- `replay_keyed_patch_raw`. -/
def replayKeyedPatch (serde : Serde) (s : Session) (key label : String) (request : RawValue) :
    Except SessionError (Option EntryId) := do
  validateKey key
  match s.core.mutationKeys key with
  | none => return none
  | some existing =>
    match s.entry existing with
    | none => throw (.unknownEntry existing)
    | some entry =>
      if entry.kind.name = KindName.patch.toStr && entry.label.getD "" = label then
        match serde.patch.read entry.data with
        | none => throw .payload
        | some patch =>
          if patch.idempotency.any (·.request = request) then return some existing
          else throw (.keyConflict key existing)
      else throw (.keyConflict key existing)

/-- `patch_keyed`; `request` is the serialized request. -/
def patchKeyed (io : Io) (txn : Txn) (key : String) (request : RawValue) :
    Operation AppendOutcome := do
  let replayed ← Action.reads fun s =>
    replayKeyedPatch env.serde s key (txn.label.getD "") request
  match replayed with
  | some existing => return .replayed existing
  | none => return .appended (← commitPatch env order io txn (some { key, request }))

/-- `assistant_start`. -/
def assistantStart (io : Io) (payload : MsgAssistantStart) : Operation EntryId := do
  let cause ← check Core.turnCause
  commit env order io .msgAssistantStart (some cause) none (env.serde.msgAssistantStart.write payload)

/-- `assistant_end`. -/
def assistantEnd (io : Io) (stopReason : String) : Operation EntryId := do
  let _ ← check Core.currentAssistantHandle
  let cause ← check Core.turnCause
  commit env order io .msgAssistantEnd (some cause) none
    (env.serde.msgAssistantEnd.write { stopReason })

/-! ## Streams -/

/-- `stream_open`. -/
def streamOpen (io : Io) (node : Handle) (prop : PropKey) : Operation Sid := do
  let cause ← check Core.turnCause
  let sid ← check fun core => core.nextSid.next
  check fun core => ofDom (core.dom.validateStreamOpen sid node prop)
  let _ ← commit env order io .stream (some cause) none
    (env.serde.stream.write
      { sid, op := .open, node := some node, prop := some (Fold.encodeStreamProp prop) })
  return sid

/-- `validate_stream_append`, and `validate_stream_close` alike. -/
def requireStream (core : Core) (sid : Sid) : Except SessionError Unit :=
  if core.dom.streams.contains sid then .ok () else .error (.dom (.missingStream sid))

/-- `stream_append`. -/
def streamAppend (io : Io) (sid : Sid) (text : String) : Operation EntryId := do
  let cause ← check Core.turnCause
  check (requireStream · sid)
  commit env order io .stream (some cause) none
    (env.serde.stream.write { sid, op := .append, text := some text })

/-- `stream_close`. -/
def streamClose (io : Io) (sid : Sid) : Operation EntryId := do
  let cause ← check Core.turnCause
  check (requireStream · sid)
  commit env order io .stream (some cause) none (env.serde.stream.write { sid, op := .close })

/-! ## Tool calls -/

/-- The stream identity a call may bring, checked like a stream opened on the turn. -/
def checkCallStream (core : Core) (sid : Option Sid) : Except SessionError Unit :=
  match sid with
  | none => .ok ()
  | some actual => do
    let expected ← core.nextSid.next
    if actual ≠ expected then throw (.unexpectedStreamId expected actual)
    let turn ← core.currentTurnHandle
    ofDom (core.dom.validateStreamOpen actual turn (.known .text))

/-- `call`. -/
def call (io : Io) (payload : ToolCall) : Operation EntryId := do
  let cause ← check Core.turnCause
  check (checkCallStream · payload.sid)
  commit env order io .toolCall (some cause) none (env.serde.toolCall.write payload)

/-- `call_streaming`. -/
def callStreaming (io : Io) (name : String) (rev : UInt32) (callId : String) (i : Option String) :
    Operation (EntryId × Sid) := do
  let sid ← check fun core => core.nextSid.next
  let call ← call env order io { name, rev, callId, i, sid := some sid }
  return (call, sid)

/-- Commits an update caused by a call. -/
def commitUpdate (io : Io) (call : EntryId) (update : RawValue) : Operation EntryId :=
  commit env order io .toolUpdate (some call) none (env.serde.toolUpdate.write update)

/-- The update `call_ready` journals. -/
def readyUpdate (args : Json) : Json :=
  .object [("kernel", .string "ready"), ("args", args),
    ("i", (((args.get "i").bind Json.asStr).map Json.string).getD .null)]

/-- `call_ready`. -/
def callReady (io : Io) (call : EntryId) (args : RawValue) : Operation EntryId := do
  check (Core.ensureCall · call)
  let args ← check fun _ => decoded (env.serde.value args)
  commitUpdate env order io call (env.serde.render (readyUpdate args))

/-- `call_started`. -/
def callStarted (io : Io) (call : EntryId) : Operation EntryId := do
  check (Core.ensureCall · call)
  commitUpdate env order io call (env.serde.render (.object [("kernel", .string "started")]))

/-- The update `call_receipt` journals. -/
def receiptUpdate (receipt : ToolReceipt) : Json :=
  .object [("kernel", .string "receipt"), ("source_bytes", .number (.posInt receipt.sourceBytes)),
    ("inline_bytes", .number (.posInt receipt.inlineBytes)),
    ("elapsed_ms", .number (.posInt receipt.elapsedMs)), ("outcome", .string receipt.outcome)]

/-- `call_receipt`. -/
def callReceipt (io : Io) (call : EntryId) (receipt : ToolReceipt) : Operation EntryId := do
  check (Core.ensureCall · call)
  commitUpdate env order io call (env.serde.render (receiptUpdate receipt))

/-- `call_update`. -/
def callUpdate (io : Io) (call : EntryId) (update : RawValue) : Operation EntryId := do
  check (Core.ensureCall · call)
  let value ← check fun _ => decoded (env.serde.value update)
  if (value.get "kernel").isSome then Action.fail .reservedToolUpdate
  commitUpdate env order io call update

/-- A terminal result of a call: its projection must decode and its source blob be present. -/
def settleWith (io : Io) (call : EntryId) (payload : ToolResult) : Operation EntryId := do
  check (Core.ensureCall · call)
  check fun _ =>
    match payload.promptParts with
    | some parts => (promptPartsText env.serde parts).map fun _ => ()
    | none => .ok ()
  check fun _ =>
    match payload.sourceBlob with
    | some blob => if (env.blobs blob.hash).isSome then .ok () else .error .blob
    | none => .ok ()
  commit env order io .toolResult (some call) none (env.serde.toolResult.write payload)

/-- `settle`. -/
def settle (io : Io) (call : EntryId) (outcome : RawValue) : Operation EntryId :=
  settleWith env order io call { fault := false, raw := outcome }

/-- `settle_projected`. -/
def settleProjected (io : Io) (call : EntryId) (outcome promptParts : RawValue) :
    Operation EntryId :=
  settleWith env order io call { fault := false, raw := outcome, promptParts := some promptParts }

/-- `settle_projected_from_blob`. -/
def settleProjectedFromBlob (io : Io) (call : EntryId) (outcome promptParts : RawValue)
    (sourceBlob : BlobRef) : Operation EntryId :=
  settleWith env order io call
    { fault := false, raw := outcome, promptParts := some promptParts, sourceBlob := some sourceBlob }

/-- `fail`. -/
def fail (io : Io) (call : EntryId) (fault : RawValue) : Operation EntryId :=
  settleWith env order io call { fault := true, raw := fault }

/-- `fail_projected`. -/
def failProjected (io : Io) (call : EntryId) (fault promptParts : RawValue) : Operation EntryId :=
  settleWith env order io call { fault := true, raw := fault, promptParts := some promptParts }

/-- `fail_projected_from_blob`. -/
def failProjectedFromBlob (io : Io) (call : EntryId) (fault promptParts : RawValue)
    (sourceBlob : BlobRef) : Operation EntryId :=
  settleWith env order io call
    { fault := true, raw := fault, promptParts := some promptParts, sourceBlob := some sourceBlob }

/-! ## Receipts and compactions -/

/-- `receipt`. -/
def receipt (io : Io) (payload : TurnReceipt) : Operation EntryId := do
  let cause ← check Core.turnCause
  commit env order io .turnReceipt (some cause) none (env.serde.turnReceipt.write payload)

/-- The boundary of a compaction stands on the selected chain. -/
def checkBoundary (s : Session) (boundary : EntryId) : Except SessionError Unit := do
  let head ← s.core.headOr .noActiveTurn
  let chain ← chainIndices s.entries head
  if chain.any fun index => s.entries[index]?.any (·.id = boundary) then return
  else throw (.unknownEntry boundary)

/-- `compaction`. -/
def compaction (io : Io) (payload : Compaction) : Operation EntryId := do
  let cause ← check Core.turnCause
  check fun _ => Fold.validateCompactionFrames payload
  Action.reads fun s => checkBoundary s payload.boundary
  check fun _ => (Fold.compactionSummary env payload.summary).map fun _ => ()
  commit env order io .compaction (some cause) none (env.serde.compaction.write payload)

end Session

/-- A public write, with its arguments. -/
inductive Command where
  | beginTurn (ack io : Io)
  | user (io : Io) (text : String) (attachments : List Attachment)
  | userAuthored (io : Io) (text : String) (attachments : List Attachment) (author : String)
    (key : Option String)
  | skillPrompt (io : Io) (prompt : SkillPrompt)
  | fileMentions (io : Io) (payload : FileMentions)
  | assistantStart (io : Io) (payload : MsgAssistantStart)
  | streamOpen (io : Io) (node : Handle) (prop : PropKey)
  | streamAppend (io : Io) (sid : Sid) (text : String)
  | streamClose (io : Io) (sid : Sid)
  | assistantEnd (io : Io) (stopReason : String)
  | call (io : Io) (payload : ToolCall)
  | callStreaming (io : Io) (name : String) (rev : UInt32) (callId : String) (i : Option String)
  | callReady (io : Io) (call : EntryId) (args : RawValue)
  | callStarted (io : Io) (call : EntryId)
  | callReceipt (io : Io) (call : EntryId) (receipt : ToolReceipt)
  | callUpdate (io : Io) (call : EntryId) (update : RawValue)
  | settle (io : Io) (call : EntryId) (outcome : RawValue)
  | settleProjected (io : Io) (call : EntryId) (outcome promptParts : RawValue)
  | settleProjectedFromBlob (io : Io) (call : EntryId) (outcome promptParts : RawValue)
    (sourceBlob : BlobRef)
  | fail (io : Io) (call : EntryId) (fault : RawValue)
  | failProjected (io : Io) (call : EntryId) (fault promptParts : RawValue)
  | failProjectedFromBlob (io : Io) (call : EntryId) (fault promptParts : RawValue)
    (sourceBlob : BlobRef)
  | receipt (io : Io) (payload : TurnReceipt)
  | patch (io : Io) (txn : Txn)
  | patchKeyed (io : Io) (txn : Txn) (key : String) (request : RawValue)
  | compaction (io : Io) (payload : Compaction)
  | sessionSwitch (io : Io)

namespace Command

/-- Drops the result of an operation. -/
def discard {α : Type} (x : Operation α) : Operation Unit := do
  let _ ← x

/-- Runs a write on a session. -/
def perform (env : Env) (order : HashOrder) : Command → Operation Unit
  | beginTurn ack io => discard (Session.beginTurn env order ack io)
  | user io text attachments => discard (Session.user env order io text attachments)
  | userAuthored io text attachments author key =>
    discard (Session.userAuthored env order io text attachments author key)
  | skillPrompt io prompt => discard (Session.skillPrompt env order io prompt)
  | fileMentions io payload => discard (Session.fileMentions env order io payload)
  | assistantStart io payload => discard (Session.assistantStart env order io payload)
  | streamOpen io node prop => discard (Session.streamOpen env order io node prop)
  | streamAppend io sid text => discard (Session.streamAppend env order io sid text)
  | streamClose io sid => discard (Session.streamClose env order io sid)
  | assistantEnd io stopReason => discard (Session.assistantEnd env order io stopReason)
  | call io payload => discard (Session.call env order io payload)
  | callStreaming io name rev callId i => discard (Session.callStreaming env order io name rev callId i)
  | callReady io id args => discard (Session.callReady env order io id args)
  | callStarted io id => discard (Session.callStarted env order io id)
  | callReceipt io id cost => discard (Session.callReceipt env order io id cost)
  | callUpdate io id update => discard (Session.callUpdate env order io id update)
  | settle io id outcome => discard (Session.settle env order io id outcome)
  | settleProjected io id outcome promptParts =>
    discard (Session.settleProjected env order io id outcome promptParts)
  | settleProjectedFromBlob io id outcome promptParts sourceBlob =>
    discard (Session.settleProjectedFromBlob env order io id outcome promptParts sourceBlob)
  | fail io id fault => discard (Session.fail env order io id fault)
  | failProjected io id fault promptParts =>
    discard (Session.failProjected env order io id fault promptParts)
  | failProjectedFromBlob io id fault promptParts sourceBlob =>
    discard (Session.failProjectedFromBlob env order io id fault promptParts sourceBlob)
  | receipt io payload => discard (Session.receipt env order io payload)
  | patch io txn => discard (Session.patch env order io txn)
  | patchKeyed io txn key request => discard (Session.patchKeyed env order io txn key request)
  | compaction io payload => discard (Session.compaction env order io payload)
  | sessionSwitch io => discard (Session.sessionSwitch env order io)

end Command

end OhMyPi
