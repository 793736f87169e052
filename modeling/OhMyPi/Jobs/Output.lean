import OhMyPi.Dom.Txn
import OhMyPi.Lib.LossyStream
import OhMyPi.Session.Fold

/-! The output of a settled job (`agent/src/jobs.rs`). An output above the inline bound is put into the
blob store, and a record of it stands in its place; resolving an output reads such a record back. The
record is told from an output by its shape alone. -/

namespace OhMyPi.Jobs

open Text

/-- The record of an output that was spilled. -/
structure SpilledOutput where
  artifact : String
  byteLen : UInt64
  text : Option String := none
deriving DecidableEq

/-- What the board uses of `serde_json`. -/
structure OutputSerde where
  /-- `RawValue::from_string` takes the text. -/
  isJson : String → Bool
  /-- `from_str` at `SpilledOutput`. -/
  read : String → Option SpilledOutput
  /-- `to_raw_value` of a `SpilledOutput`. -/
  write : SpilledOutput → String
  /-- The string under `text`, where the value is an object that has one. -/
  textMember : String → Option String
  isJson_write : ∀ spilled, isJson (write spilled) = true
  read_write : ∀ spilled, read (write spilled) = some spilled

inductive BlobError
  | notFound
  | corrupt
  | io
deriving DecidableEq

/-- `u64::try_from(..).unwrap_or(u64::MAX)`. -/
def u64FromUsize (n : Nat) : UInt64 := if n < 2 ^ 64 then .ofNat n else .ofNat (2 ^ 64 - 1)

/-- The blob store: it returns what was put, keeps it, and holds nothing else. -/
structure Blobs where
  Store : Type
  put : Store → Bytes → Except BlobError (BlobRef × Store)
  get : Store → BlobRef → Except BlobError Bytes
  size_put : ∀ {store data blob store'}, put store data = .ok (blob, store') →
    blob.size = u64FromUsize data.length
  get_put : ∀ {store data blob store'}, put store data = .ok (blob, store') →
    get store' blob = .ok data
  get_kept : ∀ {store data blob store' other held}, put store data = .ok (blob, store') →
    get store other = .ok held → get store' other = .ok held
  get_new : ∀ {store data blob store' other held}, put store data = .ok (blob, store') →
    get store' other = .ok held → held = data ∨ get store other = .ok held

inductive JobError
  | noActiveTurn
  | blob (error : BlobError)
  | badHex
  | jobOutputUtf8
  | json
  | dom (error : DomError)
deriving DecidableEq

section

variable (S : OutputSerde) (B : Blobs)

/-- A JSON text. -/
structure RawOutput where
  get : String
  isJson : S.isJson get = true

/-- `RawValue::from_string`. -/
def RawOutput.fromString (text : String) : Option (RawOutput S) :=
  if h : S.isJson text = true then some ⟨text, h⟩ else none

def artifactPrefix : String := "artifact://sha256/"

/-- The record that stands in for an output. -/
def spilledOutput (raw : String) (blob : BlobRef) (bound : Nat) : SpilledOutput where
  artifact := artifactPrefix ++ blob.hash.toHex
  byteLen := u64FromUsize (bytes raw).length
  text := (S.textMember raw).map fun text => .ofList (utf8Prefix text.toList (bound / 4))

/-- `bounded_output`, with the store behind it. -/
def boundedOutput (store : B.Store) (output : RawOutput S) (bound : Nat) :
    Except JobError (RawOutput S × B.Store) :=
  if (bytes output.get).length ≤ bound then .ok (output, store)
  else
    match B.put store (bytes output.get) with
    | .error e => .error (.blob e)
    | .ok (blob, store) =>
      .ok (⟨S.write (spilledOutput S output.get blob bound), S.isJson_write _⟩, store)

/-- `str::strip_prefix` of the address. -/
def stripAddress (artifact : String) : Option String :=
  if artifactPrefix.toList.isPrefixOf artifact.toList then
    some (.ofList (artifact.toList.drop artifactPrefix.toList.length))
  else none

/-- The text of the blob that a record names. -/
def readSpilled (store : B.Store) (blob : BlobRef) : Except JobError (Option (RawOutput S)) :=
  match B.get store blob with
  | .error e => .error (.blob e)
  | .ok data =>
    match fromUtf8 data with
    | none => .error .jobOutputUtf8
    | some json =>
      match RawOutput.fromString S json with
      | none => .error .json
      | some output => .ok (some output)

def resolveOutput (store : B.Store) (output : RawOutput S) :
    Except JobError (Option (RawOutput S)) :=
  match S.read output.get with
  | none => .ok (some output)
  | some spilled =>
    match stripAddress spilled.artifact with
    | none => .ok none
    | some hex =>
      match Hash32.fromStr (bytes hex) with
      | none => .error .badHex
      | some hash => readSpilled S B store ⟨hash, spilled.byteLen⟩

/-! ## The settlement -/

inductive LaunchDaemonStatus
  | completed
  | failed
deriving DecidableEq

def LaunchDaemonStatus.display : LaunchDaemonStatus → String
  | .completed => "completed"
  | .failed => "failed"

inductive LaunchDaemonFaultKind
  | failed
  | timeout
  | cancelled
  | denied
  | supervisor
deriving DecidableEq

def LaunchDaemonFaultKind.display : LaunchDaemonFaultKind → String
  | .failed => "failed"
  | .timeout => "timeout"
  | .cancelled => "cancelled"
  | .denied => "denied"
  | .supervisor => "supervisor"

structure LaunchDaemonFault where
  kind : LaunchDaemonFaultKind
  message : Option String := none
  signal : Option String := none

/-- The end of a supervised process; `serialized` is its JSON as a `LaunchCompletion`. -/
structure LaunchDaemonCompletion where
  name : String
  status : LaunchDaemonStatus
  exitCode : Option Int32 := none
  durationMs : UInt64
  fault : Option LaunchDaemonFault := none
  serialized : String

def LaunchDaemonFault.display (fault : LaunchDaemonFault) : String :=
  " Fault: " ++ fault.kind.display ++ fault.message.elim "" (" — " ++ ·) ++
    fault.signal.elim "" (" (" ++ · ++ ")") ++ "."

def LaunchDaemonCompletion.body (completion : LaunchDaemonCompletion) : String :=
  "Supervised process " ++ completion.name ++ " " ++ completion.status.display ++ " " ++
    completion.exitCode.elim "without an exit code."
      (fun code => "with exit code " ++ toString code.toInt ++ ".") ++
    completion.fault.elim "" LaunchDaemonFault.display

/-- `launch_completion_ops`. -/
def launchCompletionOps (dom : Dom) (job : Handle) (completion : LaunchDaemonCompletion) :
    Except JobError (List Op) :=
  match (dom.children Dom.body).getLast? with
  | none => .error .noActiveTurn
  | some turn =>
    let notice : NodeSpec := { tag := .known .user, content := some completion.body }
    .ok [.ins turn (dom.children turn).getLast?
        ((notice.withProp (.custom "launch_completion") (.bool true)).withProp (.known .data)
          (.json completion.serialized)),
      .set job (.custom "delivered") (.bool true)]

/-- The identity of an accepted execution; `serialized` is its JSON. -/
structure ReattachHandle where
  schema : String
  backend : String
  serialized : String

/-- What a settlement says about an execution; `result` is the JSON of its durable form. -/
structure ExecutionSettlement where
  state : String
  handle : Option ReattachHandle := none
  result : Option (RawOutput S) := none
  failure : Option String := none

structure JobSettlement where
  status : String
  output : Option (RawOutput S) := none
  error : Option String := none
  execution : Option (ExecutionSettlement S) := none
  completion : Option LaunchDaemonCompletion := none

/-- Sets a property to a bounded output, when there is one. -/
def boundedOps (store : B.Store) (handle : Handle) (key : PropKey) (bound : Nat) :
    Option (RawOutput S) → Except JobError (List Op × B.Store)
  | none => .ok ([], store)
  | some output =>
    (boundedOutput S B store output bound).map fun (output, store) =>
      ([.set handle key (.json output.get)], store)

def reattachOps (handle : Handle) (accepted : ReattachHandle) : List Op :=
  [.set handle (.custom "reattach_schema") (.str accepted.schema),
    .set handle (.custom "backend") (.str accepted.backend),
    .set handle (.custom "reattach_handle") (.str accepted.serialized)]

/-- The operations for the execution of a job. -/
def executionOps (store : B.Store) (handle : Handle) (bound : Nat) :
    Option (ExecutionSettlement S) → Except JobError (List Op × B.Store)
  | none => .ok ([], store)
  | some execution =>
    (boundedOps S B store handle (.custom "execution_result") bound execution.result).map
      fun (result, store) =>
        ([.set handle (.custom "execution_state") (.str execution.state)] ++
          (execution.handle.elim [] (reattachOps handle)) ++ result ++
          (execution.failure.toList.map fun kind =>
            .set handle (.custom "execution_failure") (.str kind)), store)

/-- `i64::try_from(..).unwrap_or(i64::MAX)`. -/
def i64FromU64 (n : UInt64) : Int64 := if n.toNat < 2 ^ 63 then .ofNat n.toNat else .ofNat (2 ^ 63 - 1)

/-- The operations of a settlement, with the store behind them. -/
def settlementOps (store : B.Store) (dom : Dom) (handle : Handle) (settlement : JobSettlement S)
    (elapsedMs : UInt64) (bound : Nat) : Except JobError (List Op × B.Store) := do
  let (output, store) ← boundedOps S B store handle (.known .data) bound settlement.output
  let (execution, store) ← executionOps S B store handle bound settlement.execution
  let completion ← settlement.completion.elim (.ok []) (launchCompletionOps dom handle)
  return ([.set handle (.known .status) (.str settlement.status),
      .set handle (.known .durationMs)
        (.int (i64FromU64 (settlement.completion.elim elapsedMs (·.durationMs))))] ++ output ++
    (settlement.error.toList.map fun error => .set handle (.custom "error") (.str error)) ++
    execution ++ completion, store)

/-- `commit_settlement`, for a job that has run for `elapsedMs`. -/
def commitSettlement (store : B.Store) (dom : Dom) (handle : Handle) (settlement : JobSettlement S)
    (elapsedMs : UInt64) (bound : Nat) : Option EntryId → Except JobError (B.Store × Dom)
  | none => .error .noActiveTurn
  | some cause => do
    let (ops, store) ← settlementOps S B store dom handle settlement elapsedMs bound
    match dom.apply ⟨cause, some "jobs.settle", ops⟩ with
    | .error e => .error (.dom e)
    | .ok (dom, _) => .ok (store, dom)

/-- The output in the record of a job. -/
def recordOutput (dom : Dom) (handle : Handle) : Option (RawOutput S) :=
  match dom.prop handle (.known .data) with
  | some (.json raw) => RawOutput.fromString S raw
  | _ => none

end

end OhMyPi.Jobs
