import OhMyPi.Session.Core

/-! The standard component reducers (`session/src/components/`). After an entry has been folded into
the body, each component reads the tree and stages operations; the staged operations of all of them
are applied as one transaction. The reducers of prompts, directors and console variables stage
nothing. -/

namespace OhMyPi.Component

/-- Whether an entry is of a revision-1 kind. -/
def isKind (entry : Entry) (name : KindName) : Bool := entry.kind = Kind.known name

/-- The decoded outcome of a `tool.result@1` entry that is not a fault. -/
def outcome (serde : Serde) (entry : Entry) : Option Json :=
  match serde.toolResult.read entry.data with
  | some result => if result.fault then none else serde.value result.raw
  | none => none

/-- Whether some node that satisfies `named` was caused by `call`. -/
def caused (dom : Dom) (named : Tag → Bool) (call : EntryId) : Bool :=
  dom.handles.any fun h =>
    (dom.tag h).any named && dom.propText h (.known .cause) = some call.toStr

/-! ## Todo -/

structure ItemSnapshot where
  content : String
  status : String
  blocker : Option String

structure PhaseSnapshot where
  name : String
  tasks : List ItemSnapshot

def getEither (value : Json) (key key' : String) : Option Json := (value.get key).or (value.get key')

/-- One task of a phase, when its fields are well formed. -/
def decodeTask (task : Json) : Option ItemSnapshot := do
  let content ← (getEither task "content" "text").bind Json.asStr
  let status := ((task.get "status").bind Json.asStr).getD "pending"
  if status ∉ ["pending", "in_progress", "completed", "abandoned", "blocked"] then none
  match getEither task "blocker" "reason" with
  | some value =>
    let blocker ← value.asStr
    return { content, status, blocker := some blocker }
  | none => return { content, status, blocker := none }

/-- The tasks of one phase. A task named before rejects the snapshot. -/
def decodeTasks (taskNames : List String) : List Json → Option (List ItemSnapshot × List String)
  | [] => some ([], taskNames)
  | task :: tasks => do
    let item ← decodeTask task
    if item.content ∈ taskNames then none
    let (items, taskNames) ← decodeTasks (item.content :: taskNames) tasks
    return (item :: items, taskNames)

/-- `decode_phases`, after the phases and tasks named so far. -/
def decodePhasesFrom (phaseNames taskNames : List String) : List Json → Option (List PhaseSnapshot)
  | [] => some []
  | phase :: phases => do
    let name ← (getEither phase "name" "phase").bind Json.asStr
    if name ∈ phaseNames then none
    let tasks ← (getEither phase "tasks" "items").bind Json.asArray
    let (tasks, taskNames) ← decodeTasks taskNames tasks
    let rest ← decodePhasesFrom (name :: phaseNames) taskNames phases
    return { name, tasks } :: rest

def decodePhases (phases : List Json) : Option (List PhaseSnapshot) := decodePhasesFrom [] [] phases

def itemNode (phase : String) (item : ItemSnapshot) : NodeSpec :=
  let node : NodeSpec := { tag := .known .item }
  let node := node.withProp (.known .label) (.str item.content)
  let node := node.withProp (.known .status) (.str item.status)
  let node := node.withProp (.custom "phase") (.str phase)
  match item.blocker with
  | some blocker => node.withProp (.known .detail) (.str blocker)
  | none => node

/-- Insertions under one parent, each after the one before. The handles of the nodes are those
minted from `next` on when nothing else is inserted first. -/
def insertAll (parent : Handle) : Option Handle → Handle → List NodeSpec → List Op
  | _, _, [] => []
  | after, next, node :: nodes =>
    .ins parent after node :: insertAll parent (some next) (next + 1) nodes

/-- Replaces the children of a component by new ones. -/
def removeChildren (dom : Dom) (parent : Handle) : List Op := (dom.children parent).map .rm

/-- The phases of a `todo` outcome, within its envelope when it has one. -/
def todoPhases (payload : Json) : Option (List PhaseSnapshot) :=
  let payload := if (payload.get "kind").bind Json.asStr = some "ok" then
      (payload.get "value").getD .null
    else payload
  ((payload.get "phases").bind Json.asArray).bind decodePhases

/-- `TodoComponent`. -/
def todo (serde : Serde) (entry : Entry) (dom : Dom) : List Op :=
  if !isKind entry .toolResult then []
  else
    match entry.by_ with
    | none => []
    | some call =>
      if !caused dom (· = .custom "todo") call then []
      else
        match (outcome serde entry).bind todoPhases, dom.childWithTag Dom.meta .todo with
        | some phases, some todo =>
          removeChildren dom todo ++
            .set todo (.custom "phase-order") (.json (serde.texts (phases.map (·.name)))) ::
            insertAll todo none (dom.highWater + 1)
              (phases.flatMap fun phase => phase.tasks.map (itemNode phase.name))
        | _, _ => []

/-! ## Jobs -/

/-- `DetachedJobKind`, as the job type its deliveries show. -/
def deliveryJobType (kind : Option String) : String :=
  match kind with
  | some "shell" => "bash"
  | some "task" => "task"
  | some "eval" => "eval"
  | _ => "tool"

def jobNode (serde : Serde) (entry : Entry) (detached : Json) : NodeSpec :=
  let id := ((detached.get "id").bind Json.asStr).getD entry.id.toStr
  let metadata := (detached.get "job").bind (·.get "metadata")
  let label := (((metadata.bind (·.get "label")).bind Json.asStr).filter (· ≠ "")).getD id
  let jobType := deliveryJobType ((metadata.bind (·.get "kind")).bind Json.asStr)
  let node : NodeSpec := { tag := .known .job }
  let node := node.withProp (.known .id) (.str id)
  let node := node.withProp (.known .kind) (.str "tool")
  let node := node.withProp (.known .status) (.str "running")
  let node := node.withProp (.known .cause) (.str entry.id.toStr)
  -- The journal admits no tool result without a cause.
  let node := node.withProp (.custom "call") (.str (entry.by_.elim "" Ulid.toStr))
  let node := node.withProp (.known .name) (.str jobType)
  let node := node.withProp (.known .label) (.str label)
  let node := node.withProp (.known .data) (.json (serde.render detached))
  match (metadata.bind (·.get "started_at_ms")).bind Json.asU64 with
  | some started => node.withProp (.custom "started") (.str (toString started.toNat))
  | none => node

/-- The detached work an outcome reports. -/
def detachedJob (value : Json) : Option Json :=
  if (value.get "kind").bind Json.asStr = some "detached" then some value else value.get "detached"

/-- `JobsComponent`. -/
def jobs (serde : Serde) (entry : Entry) (dom : Dom) : List Op :=
  if !isKind entry .toolResult then []
  else
    match (outcome serde entry).bind detachedJob, dom.childWithTag Dom.meta .jobs with
    | some detached, some jobs => [.ins jobs (dom.lastChild jobs) (jobNode serde entry detached)]
    | _, _ => []

/-! ## Lifecycle -/

def conRoot (dom : Dom) : Option Handle := dom.childWithTag Dom.meta .con

/-- `component_root`: the child of `con` by its markup name. -/
def componentRoot (dom : Dom) (name : String) : Option Handle :=
  (conRoot dom).bind fun con =>
    (dom.children con).find? fun h => (dom.tag h).any fun tag => tag.asStr = name

/-- `insert_root` and `insert_root_with`. -/
def insertRoot (dom : Dom) (node : NodeSpec) : List Op :=
  match conRoot dom with
  | some con => [.ins con (dom.lastChild con) node]
  | none => []

/-- `tool_outcome`: the outcome of a call to `tool`. -/
def toolOutcome (serde : Serde) (entry : Entry) (dom : Dom) (tool : String) : Option Json :=
  match entry.by_ with
  | none => none
  | some call => if caused dom (·.asStr = tool) call then outcome serde entry else none

/-- `replace_tools`. -/
def replaceTools (dom : Dom) (component : String) (tools : List Json) : List Op :=
  match componentRoot dom component with
  | none => []
  | some root =>
    removeChildren dom root ++
      insertAll root none (dom.highWater + 1) ((tools.filterMap Json.asStr).map fun tool =>
        ({ tag := .custom "active-tool" } : NodeSpec).withProp (.known .name) (.str tool))

def createdCheckpoint (outcome : Json) : Option String :=
  if (outcome.get "action").bind Json.asStr = some "created" then
    ((((outcome.get "checkpoints").bind Json.asArray).bind List.head?).bind (·.get "label")).bind
      Json.asStr
  else none

/-- `Checkpoint`. -/
def checkpoint (serde : Serde) (entry : Entry) (dom : Dom) : List Op :=
  if isKind entry .journal then insertRoot dom { tag := .custom "checkpoint" }
  else if isKind entry .toolResult then
    match (toolOutcome serde entry dom "checkpoint").bind createdCheckpoint,
      componentRoot dom "checkpoint" with
    | some name, some root =>
      [.ins root (dom.lastChild root)
        (({ tag := .custom "entry" } : NodeSpec).withProp (.known .name) (.str name))]
    | _, _ => []
  else []

/-- `PlanMode`. -/
def planMode (serde : Serde) (entry : Entry) (dom : Dom) : List Op :=
  if isKind entry .journal then
    insertRoot dom
      (({ tag := .custom "plan-mode" } : NodeSpec).withProp (.known .engaged) (.bool false))
  else if isKind entry .toolResult then
    match ((toolOutcome serde entry dom "plan-mode").bind (·.get "active")).bind Json.asBool,
      componentRoot dom "plan-mode" with
    | some active, some root => [.set root (.known .engaged) (.bool active)]
    | _, _ => []
  else []

/-- A component that mirrors the `tools` of a tool's outcome. -/
def toolList (component tool : String) (serde : Serde) (entry : Entry) (dom : Dom) : List Op :=
  if isKind entry .journal then insertRoot dom { tag := .custom component }
  else if isKind entry .toolResult then
    match ((toolOutcome serde entry dom tool).bind (·.get "tools")).bind Json.asArray with
    | some tools => replaceTools dom component tools
    | none => []
  else []

/-- `ToolRoster`. -/
def toolRoster : Serde → Entry → Dom → List Op := toolList "tool-roster" "dynamic-tools"

/-- `DeferredActivation`. -/
def deferredActivation : Serde → Entry → Dom → List Op :=
  toolList "deferred-activation" "discover-tools"

/-- `i64::try_from` of a count, or the greatest value. -/
def clampI64 (n : Nat) : Int64 :=
  if n < 9223372036854775808 then Int64.ofNat n else Int64.maxValue

/-- `TurnCounter`. -/
def turnCounter (entry : Entry) (dom : Dom) : List Op :=
  if isKind entry .journal then
    insertRoot dom (({ tag := .custom "turn-counter" } : NodeSpec).withProp (.known .value) (.int 0))
  else if isKind entry .turnStart then
    match componentRoot dom "turn-counter" with
    | some root => [.set root (.known .value) (.int (clampI64 (dom.children Dom.body).length))]
    | none => []
  else []

/-- `SessionTransitions`. -/
def sessionTransitions (entry : Entry) (dom : Dom) : List Op :=
  if isKind entry .journal then
    insertRoot dom ((({ tag := .custom "session-transitions" } : NodeSpec).withProp
      (.custom "switches") (.int 0)).withProp (.custom "process-exited") (.bool false))
  else []

/-- What the standard components stage for one entry, in their order of registration. -/
def draft (serde : Serde) (entry : Entry) (dom : Dom) : List Op :=
  todo serde entry dom ++ jobs serde entry dom ++ checkpoint serde entry dom ++
    planMode serde entry dom ++ toolRoster serde entry dom ++ deferredActivation serde entry dom ++
    turnCounter entry dom ++ sessionTransitions entry dom

end OhMyPi.Component
