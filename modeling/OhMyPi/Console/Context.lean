import OhMyPi.Console.Script
import OhMyPi.Lib.Action

/-! The console context (`con/src/ctx.rs`): what is registered, the layered values, and how a command
stream is vetted and dispatched. Replies are kept as data, without their wording. -/

namespace OhMyPi.Console

structure VarFlags where
  archive : Bool := false
  isUnsafe : Bool := false
  readonly : Bool := false
  notify : Bool := false
  replicated : Bool := false
  session : Bool := false
  project : Bool := false

inductive Role where
  | standalone
  | authority
  | replica
  deriving DecidableEq

/-- Where a write comes from, which decides the gates it passes. -/
inductive SetSource where
  | code
  | script
  | replication
  deriving DecidableEq

/-- Provenance and destination of a write. -/
inductive Origin where
  | default
  | archive
  | project
  | inherited
  | agentClass
  | session
  | script (name : Str)
  | engagement (id : Nat)
  | host

inductive Authority where
  | user
  | project
  deriving DecidableEq

/-- Origin of a command stream. -/
inductive Source where
  | console
  | config (name : Str)
  | subagent
  | agent (name : Str)
  | session
  | project (name : Str)
  | projectSubagent
  | projectAgent (name : Str)

def Source.origin : Source → Origin
  | .config _ => .archive
  | .session => .session
  | .console => .script "console".toList
  | .subagent | .agent _ | .projectSubagent | .projectAgent _ => .agentClass
  | .project _ => .project

def Source.authority : Source → Authority
  | .project _ | .projectSubagent | .projectAgent _ => .project
  | _ => .user

def statementSource : Origin → SetSource
  | .script _ | .agentClass | .project => .script
  | _ => .code

inductive ConError where
  | unknown (name : Str)
  | notAVar (name : Str)
  | readOnly (name : Str)
  | unsafeGated (name : Str)
  | replicatedWrite (name : Str)
  | typeMismatch (name : Str)
  | invalidVariant (name : Str)
  | invalid (name : Str)
  | missingArg (cmd arg : Str)
  | recursion (name : Str)
  | projectCommandDenied (name : Str)
  | projectVarDenied (name : Str)
  | parse (error : ParseError)
  | panicked
  | other (text : Str)

def ConError.isProjectDenial : ConError → Bool
  | .projectCommandDenied _ | .projectVarDenied _ => true
  | _ => false

structure EngagementLayer (V : Type) where
  id : Nat
  owner : Str
  values : Str → Option V

structure Layers (V : Type) where
  archive : Str → Option V
  project : Str → Option V
  inherited : Str → Option V
  agentClass : Str → Option V
  session : Str → Option V
  parked : Option (Str → Option V)
  engagements : List (EngagementLayer V)

namespace Layers

variable {V : Type}

def engagementValue (layers : Layers V) (name : Str) : Option V :=
  layers.engagements.reverse.findSome? fun layer => layer.values name

/-- The layered value, innermost first; `none` is the default. -/
def effective (layers : Layers V) (name : Str) : Option V :=
  (layers.engagementValue name).or <| (layers.session name).or <| (layers.agentClass name).or <|
    (layers.inherited name).or <| (layers.project name).or (layers.archive name)

end Layers

/-- What the context says through its sink. -/
inductive Reply (V : Type) where
  | value (name : Str) (value default : V)
  | changed (name : Str) (value : V)
  | actionHint (name : Str)
  | cfgSkipped (project : Bool) (error : ParseError)
  | statementFailed (project denied : Bool) (line : Nat) (error : ConError)

/-- What a statement sets going. -/
inductive Ran where
  | command (name : Str) (args : List Arg)
  | alias (name : Str)
  | action (name : Str) (pressed : Bool)

/-- The part of the context that changes. Values, dirty marks and presses are kept under the folded
name of their item. `ran` records what was set going and is read by nothing. -/
structure State (V : Type) where
  layers : Layers V
  values : Str → V
  dirty : Str → Bool
  presses : Str → Nat
  aliases : Str → Option Str
  binds : Str → Option Str
  depth : Nat
  sessionWrites : List (Str × Option V)
  output : List (Reply V)
  ran : List Ran

abbrev Effect (V : Type) := Action (State V) ConError

structure VarSpec (Float Span : Type) where
  name : Str
  ty : TypeSpec
  default : Value Float Span
  min : Option Float
  max : Option Float
  flags : VarFlags
  onChange : Option (Value Float Span → Value Float Span → State (Value Float Span) →
    State (Value Float Span))
  validate : Option (State (Value Float Span) → Value Float Span → Bool)

structure DynamicVarSpec (Float Span : Type) where
  name : Str
  ty : TypeSpec
  flags : VarFlags
  default : Value Float Span

/-- A command's entry point: that of `reset`, or any other. -/
inductive Handler (V : Type) where
  | reset
  | other (run : Origin → List Arg → Effect V Unit)

/-- The declared arguments are names with whether they are required. -/
structure CmdSpec (V : Type) where
  name : Str
  args : List (Str × Bool)
  handler : Handler V

structure ActionSpec (V : Type) where
  name : Str
  onPress : Option (State V → State V)
  onRelease : Option (State V → State V)

inductive Item (Float Span : Type) where
  | var (spec : VarSpec Float Span)
  | cmd (spec : CmdSpec (Value Float Span))
  | action (spec : ActionSpec (Value Float Span))
  | dynamicVar (spec : DynamicVarSpec Float Span)
  | dynamicCmd (name : Str) (run : List Arg → Effect (Value Float Span) Unit)

def Item.name {Float Span : Type} : Item Float Span → Str
  | .var spec => spec.name
  | .cmd spec => spec.name
  | .action spec => spec.name
  | .dynamicVar spec => spec.name
  | .dynamicCmd name _ => name

/-- Canonical (ASCII lower-case) form of a name. -/
def foldName (name : Str) : Str := name.map Char.toLower

def resetName : Str := ['r', 'e', 's', 'e', 't']

/-- What is registered in a context and what observes it. Items stand under their folded names, and
the name `reset` belongs to the built-in command. -/
structure Registry (Float Span : Type) where
  scalars : Scalars Float Span
  role : Role
  names : Str → Option (Item Float Span)
  observers : List (Str → Value Float Span → Value Float Span → State (Value Float Span) →
    State (Value Float Span))
  folded : ∀ {key item}, names key = some item → foldName item.name = key
  reset_builtin : ∀ {key spec}, names key = some (.cmd spec) → spec.name = resetName →
    spec.handler = .reset

structure VarRef (Float Span : Type) where
  name : Str
  ty : TypeSpec
  default : Value Float Span
  min : Option Float
  max : Option Float
  flags : VarFlags
  onChange : Option (Value Float Span → Value Float Span → State (Value Float Span) →
    State (Value Float Span))
  validate : Option (State (Value Float Span) → Value Float Span → Bool)

def VarSpec.ref {Float Span : Type} (spec : VarSpec Float Span) : VarRef Float Span where
  name := spec.name
  ty := spec.ty
  default := spec.default
  min := spec.min
  max := spec.max
  flags := spec.flags
  onChange := spec.onChange
  validate := spec.validate

def DynamicVarSpec.ref {Float Span : Type} (spec : DynamicVarSpec Float Span) : VarRef Float Span where
  name := spec.name
  ty := spec.ty
  default := spec.default
  min := none
  max := none
  flags := spec.flags
  onChange := none
  validate := none

namespace Registry

variable {Float Span : Type} [BEq Float] [BEq Span] (reg : Registry Float Span)

def lookup (name : Str) : Option (Item Float Span) :=
  match reg.names name with
  | some item => some item
  | none => if name.any Char.isUpper then reg.names (foldName name) else none

def var (name : Str) : Except ConError (VarRef Float Span) :=
  match reg.lookup name with
  | none => .error (.unknown name)
  | some (.var spec) => .ok spec.ref
  | some (.dynamicVar spec) => .ok spec.ref
  | some _ => .error (.notAVar name)

def say (reply : Reply (Value Float Span)) : Effect (Value Float Span) Unit :=
  Action.modify fun s => { s with output := s.output ++ [reply] }

/-- Notes what is about to run. -/
def note (ran : Ran) : Effect (Value Float Span) Unit :=
  Action.modify fun s => { s with ran := s.ran ++ [ran] }

def unsafeEnabled (s : State (Value Float Span)) : Bool :=
  match reg.var "sv_cheats".toList with
  | .error _ => false
  | .ok v =>
    match s.values (foldName v.name) with
    | .bool b => b
    | _ => false

def checkGates (s : State (Value Float Span)) (v : VarRef Float Span) (source : SetSource) :
    Except ConError Unit :=
  if v.flags.replicated && reg.role = .replica && source ≠ .replication then
    .error (.replicatedWrite v.name)
  else if source = .script && v.flags.readonly then .error (.readOnly v.name)
  else if source = .script && v.flags.isUnsafe && !reg.unsafeEnabled s then
    .error (.unsafeGated v.name)
  else .ok ()

def clamp (v : VarRef Float Span) : Value Float Span → Value Float Span
  | .int i => .int (reg.scalars.clampInt v.min v.max i)
  | .float x => .float (reg.scalars.clampFloat v.min v.max x)
  | value => value

def checkValue (s : State (Value Float Span)) (v : VarRef Float Span) (value : Value Float Span)
    (source : SetSource) : Except ConError (Value Float Span) := do
  if !v.ty.conforms reg.scalars value then
    match v.ty with
    | .enum _ => throw (.invalidVariant v.name)
    | _ => throw (.typeMismatch v.name)
  let value := reg.clamp v value
  reg.checkGates s v source
  if source ≠ .replication && !(v.validate.all fun validate => validate s value) then
    throw (.invalid v.name)
  return value

/-- The slot of the variable and its dirty mark. -/
def store (v : VarRef Float Span) (value : Value Float Span) (source : SetSource)
    (s : State (Value Float Span)) : State (Value Float Span) :=
  let key := foldName v.name
  let marks := v.flags.replicated && reg.role = .authority && source ≠ .replication
  { s with
    values := fun k => if k = key then value else s.values k
    dirty := fun k => if k = key && marks then true else s.dirty k }

/-- The change hook and the observers. -/
def react (v : VarRef Float Span) (old value : Value Float Span)
    (s : State (Value Float Span)) : State (Value Float Span) :=
  let s := match v.onChange with
    | some hook => hook old value s
    | none => s
  reg.observers.foldl (fun s observer => observer v.name old value s) s

def applyEffective (v : VarRef Float Span) (value : Value Float Span) (source : SetSource) :
    Effect (Value Float Span) Unit := fun s =>
  let old := s.values (foldName v.name)
  if old == value then (.ok (), s)
  else
    let s := reg.store v value source s
    let s := if v.flags.notify then { s with output := s.output ++ [.changed v.name value] } else s
    (.ok (), reg.react v old value s)

def refresh (name : Str) (source : SetSource) : Effect (Value Float Span) Unit := fun s =>
  match reg.var name with
  | .error _ => (.error .panicked, s)
  | .ok v => reg.applyEffective v ((s.layers.effective name).getD v.default) source s

def publish (name : Str) (value : Option (Value Float Span)) : Effect (Value Float Span) Unit :=
  Action.modify fun s => { s with sessionWrites := s.sessionWrites ++ [(name, value)] }

/-- One entry of a layer set or removed. -/
def assign (name : Str) (value : Option (Value Float Span))
    (layer : Str → Option (Value Float Span)) : Str → Option (Value Float Span) :=
  fun other => if other = name then value else layer other

/-- The layers with the entry that a write or removal of `origin` commits to, and whether that is the
session layer. -/
def commitTo (name : Str) (value : Option (Value Float Span)) (layers : Layers (Value Float Span)) :
    Origin → Layers (Value Float Span) × Bool
  | .archive => ({ layers with archive := assign name value layers.archive }, false)
  | .project => ({ layers with project := assign name value layers.project }, false)
  | .inherited => ({ layers with inherited := assign name value layers.inherited }, false)
  | .agentClass => ({ layers with agentClass := assign name value layers.agentClass }, false)
  | .default => ({ layers with
      archive := assign name none layers.archive
      session := assign name none layers.session }, true)
  | .engagement id =>
    if layers.engagements.any fun layer => layer.id = id then
      ({ layers with engagements := layers.engagements.map fun layer =>
          if layer.id = id then { layer with values := assign name value layer.values } else layer },
        false)
    else ({ layers with session := assign name value layers.session }, true)
  | .session | .script _ | .host =>
    ({ layers with session := assign name value layers.session }, true)

def commit (name : Str) (value : Option (Value Float Span)) (origin : Origin)
    (s : State (Value Float Span)) : State (Value Float Span) :=
  { s with layers := (commitTo name value s.layers origin).1 }

def commitLayerSource (v : VarRef Float Span) (value : Value Float Span) (origin : Origin)
    (source : SetSource) : Effect (Value Float Span) Unit := fun s =>
  match reg.checkValue s v value source with
  | .error e => (.error e, s)
  | .ok value =>
    let toSession := (commitTo v.name (some value) s.layers origin).2
    let s := commit v.name (some value) origin s
    let effective := (s.layers.effective v.name).getD v.default
    let committed := match origin with
      | .default => v.default
      | _ => value
    let s := if v.flags.session && source ≠ .replication && toSession then
        { s with sessionWrites := s.sessionWrites ++ [(v.name, some committed)] }
      else s
    reg.applyEffective v effective source s

/-- `Ctx::unset`. -/
def unset (name : Str) (origin : Origin) : Effect (Value Float Span) Unit := fun s =>
  match reg.var name with
  | .error e => (.error e, s)
  | .ok v =>
    match reg.checkGates s v (statementSource origin) with
    | .error e => (.error e, s)
    | .ok () =>
      let removed := (commitTo v.name none s.layers origin).2 && (s.layers.session v.name).isSome
      let s := commit v.name none origin s
      let s := if removed && v.flags.session then
          { s with sessionWrites := s.sessionWrites ++ [(v.name, none)] }
        else s
      reg.refresh v.name (statementSource origin) s

/-! ### Dispatch -/

def requireProjectScoped (name : Str) : Except ConError Unit :=
  match reg.var name with
  | .ok v => if !v.flags.project then .error (.projectVarDenied v.name) else .ok ()
  | .error _ => .ok ()

def vetProjectStatement (s : State (Value Float Span)) (name : Str) (args : List Arg) :
    Except ConError Unit :=
  if name.head? = some '+' || name.head? = some '-' || (s.aliases name).isSome then
    .error (.projectCommandDenied name)
  else
    match reg.lookup name with
    | none => .ok ()
    | some (.dynamicVar _) => reg.requireProjectScoped name
    | some (.dynamicCmd _ _) => .error (.projectCommandDenied name)
    | some (.var _) => reg.requireProjectScoped name
    | some (.cmd spec) =>
      if spec.name = resetName then
        match args.head?.bind Arg.asAtom with
        | some target => reg.requireProjectScoped target
        | none => .ok ()
      else .error (.projectCommandDenied name)
    | some (.action _) => .error (.projectCommandDenied name)

def issueError (name : Str) : CoerceIssue → ConError
  | .kind => .typeMismatch name
  | .variant => .invalidVariant name

/-- `dispatch_var` and `dispatch_dynamic_var`: a bare name shows the value, arguments set it. -/
def dispatchVar (v : VarRef Float Span) (args : List Arg) (origin : Origin) :
    Effect (Value Float Span) Unit := fun s =>
  if args.isEmpty then say (.value v.name (s.values (foldName v.name)) v.default) s
  else
    match coerceSetArgs reg.scalars args v.ty with
    | .error issue => (.error (issueError v.name issue), s)
    | .ok value => reg.commitLayerSource v value origin (statementSource origin) s

/-- Presses or releases an action; its hook runs on the first press and the last release. -/
def dispatchAction (base : Str) (pressed : Bool) : Effect (Value Float Span) Unit := fun s =>
  match reg.lookup base with
  | none => (.error (.unknown base), s)
  | some (.action spec) =>
    let key := foldName spec.name
    let count := s.presses key
    let s := { s with
      presses := fun k => if k = key then (if pressed then count + 1 else count - 1) else s.presses k
      ran := s.ran ++ [.action spec.name pressed] }
    if pressed then (.ok (), if count = 0 then (spec.onPress.getD id) s else s)
    else (.ok (), if count = 1 then (spec.onRelease.getD id) s else s)
  | some (.dynamicVar _) => (.error .panicked, s)
  | some (.dynamicCmd _ _) => (.error .panicked, s)
  | some _ => (.error (.unknown base), s)

/-- The handler of `reset`. -/
def reset (origin : Origin) (args : List Arg) : Effect (Value Float Span) Unit := fun s =>
  match args.head? with
  | none => (.error (.missingArg resetName "var".toList), s)
  | some (.atom name) => reg.unset name origin s
  | some _ => (.error (.typeMismatch "var".toList), s)

def runCommand (spec : CmdSpec (Value Float Span)) (args : List Arg) (origin : Origin) :
    Effect (Value Float Span) Unit :=
  match (spec.args.drop args.length).find? fun arg => arg.2 with
  | some missing => Action.fail (.missingArg spec.name missing.1)
  | none => do
    note (.command spec.name args)
    match spec.handler with
    | .reset => reg.reset origin args
    | .other run => run origin args

/-- Runs a statement; `expand` evaluates the body of an alias. -/
def dispatch (origin : Origin) (authority : Authority)
    (expand : Str → Str → Effect (Value Float Span) Unit) (stmt : Statement) :
    Effect (Value Float Span) Unit := fun s =>
  match stmt.name.asAtom with
  | none => (.error (.parse (.badName stmt.line)), s)
  | some name =>
    match if authority = .project then reg.vetProjectStatement s name stmt.args else .ok () with
    | .error e => (.error e, s)
    | .ok () =>
      match s.aliases name with
      | some body => (do note (.alias name); expand name body) s
      | none =>
        if name.head? = some '+' then reg.dispatchAction name.tail true s
        else if name.head? = some '-' then reg.dispatchAction name.tail false s
        else
          match reg.lookup name with
          | some (.dynamicVar spec) => reg.dispatchVar spec.ref stmt.args origin s
          | some (.dynamicCmd cmd run) => (do note (.command cmd stmt.args); run stmt.args) s
          | some (.var spec) => reg.dispatchVar spec.ref stmt.args origin s
          | some (.cmd spec) => reg.runCommand spec stmt.args origin s
          | some (.action spec) => say (.actionHint spec.name) s
          | none => (.error (.unknown name), s)

structure ExecOutcome where
  ran : Nat := 0
  failed : Nat := 0
  denied : Nat := 0

/-- Runs the statements one by one. Leniently a failed one is reported and skipped. -/
def runStatements (lenient project : Bool) (run : Statement → Effect (Value Float Span) Unit) :
    List Statement → ExecOutcome → Effect (Value Float Span) ExecOutcome
  | [], outcome => pure outcome
  | stmt :: rest, outcome => fun s =>
    match run stmt s with
    | (.ok (), s) => runStatements lenient project run rest { outcome with ran := outcome.ran + 1 } s
    | (.error e, s) =>
      if lenient then
        let denied := e.isProjectDenial
        let outcome := if denied then { outcome with denied := outcome.denied + 1 }
          else { outcome with failed := outcome.failed + 1 }
        let s := { s with output := s.output ++ [.statementFailed project denied stmt.line e] }
        runStatements lenient project run rest outcome s
      else (.error e, s)

def maxDepth : Nat := 16

def withDepth (name : Str) (f : Effect (Value Float Span) α) : Effect (Value Float Span) α := fun s =>
  if s.depth ≥ maxDepth then (.error (.recursion name), s)
  else
    let (result, s) := f { s with depth := s.depth + 1 }
    (result, { s with depth := s.depth - 1 })

/-- `Ctx::eval`. The fuel counts how deep aliases may still expand; the depth of the context runs out
no later when it starts with one more than the greatest depth. -/
def evalFuel : Nat → Str → Bool → Origin → Authority → Effect (Value Float Span) ExecOutcome
  | 0, _, _, _, _ => Action.fail .panicked
  | fuel + 1, src, lenient, origin, authority => fun s =>
    let project := decide (authority = .project)
    match parse src with
    | .error e =>
      if lenient then (do say (.cfgSkipped project e); return ({ failed := 1 } : ExecOutcome)) s
      else (.error (.parse e), s)
    | .ok statements =>
      let expand := fun name body =>
        withDepth name (do let _ ← evalFuel fuel body lenient origin authority)
      runStatements lenient project (reg.dispatch origin authority expand) statements {} s

def eval (src : Str) (lenient : Bool) (origin : Origin) (authority : Authority) :
    Effect (Value Float Span) ExecOutcome :=
  reg.evalFuel (maxDepth + 1) src lenient origin authority

end Registry

end OhMyPi.Console
