import Mathlib.Algebra.Order.Ring.Nat
import Mathlib.Data.List.Forall2
import OhMyPi.Console.Context

/-! The operations that change many variables at once (`con/src/ctx.rs`, `con/src/layers.rs`):
engagement layers, and scopes that are adopted and dropped. Each one changes the layers and then brings
the slots of the names it touched up to date. The names are those of hash maps, so an operation is given
them as a list. Replies about entries that are dropped are left out. -/

namespace OhMyPi.Console

/-- The context, with the last id given to an engagement layer. -/
structure Ctx (V : Type) where
  state : State V
  nextId : Nat

/-- What replacing a scope does to the session layer. -/
inductive ScopeSession where
  | park
  | restore
  deriving DecidableEq

namespace Layers

variable {V : Type}

/-- `FromIterator` of a hash map: the last entry of a name counts. -/
def collect (entries : List (Str × V)) : Str → Option V :=
  fun name => (entries.reverse.find? fun entry => entry.1 = name).map Prod.snd

/-- `Layers::push`, with the id of the new layer. -/
def push (layers : Layers V) (id : Nat) (owner : Str) (binds : List (Str × V)) : Layers V :=
  { layers with engagements := layers.engagements ++ [⟨id, owner, collect binds⟩] }

/-- `Layers::pop`: the first layer of the id goes. -/
def pop (layers : Layers V) (id : Nat) : Option (EngagementLayer V × Layers V) :=
  (layers.engagements.find? fun layer => layer.id = id).map fun layer =>
    (layer, { layers with engagements := layers.engagements.eraseP fun layer => layer.id = id })

/-- The layers with another scope; the session layer is parked or put back. -/
def withScope (layers : Layers V) (inherited agentClass : Str → Option V) :
    ScopeSession → Layers V
  | .park =>
    match layers.parked with
    | none =>
      { layers with inherited, agentClass, session := fun _ => none, parked := some layers.session }
    | some _ => { layers with inherited, agentClass }
  | .restore =>
    match layers.parked with
    | some main => { layers with inherited, agentClass, session := main, parked := none }
    | none => { layers with inherited, agentClass }

/-- A name that replacing the scope touches. -/
def ScopeTouches (layers : Layers V) (inherited agentClass : Str → Option V) (session : ScopeSession)
    (name : Str) : Prop :=
  layers.inherited name ≠ none ∨ layers.agentClass name ≠ none ∨ inherited name ≠ none ∨
    agentClass name ≠ none ∨
    match session, layers.parked with
    | .park, none => layers.session name ≠ none
    | .park, some _ => False
    | .restore, some main => layers.session name ≠ none ∨ main name ≠ none
    | .restore, none => False

end Layers

/-- The sorted names without repetition. -/
def Sorted (names : List Str) (touches : Str → Prop) : Prop :=
  names.Pairwise (· < ·) ∧ ∀ name, name ∈ names ↔ touches name

/-- The names in the order of a hash map. -/
def Enumerates (names : List Str) (touches : Str → Prop) : Prop :=
  names.Nodup ∧ ∀ name, name ∈ names ↔ touches name

namespace Registry

variable {Float Span : Type} [BEq Float] [BEq Span] (reg : Registry Float Span)

/-- `Ctx::set`. -/
def set (name : Str) (value : Value Float Span) (origin : Origin) : Effect (Value Float Span) Unit :=
  fun s =>
    match reg.var name with
    | .error e => (.error e, s)
    | .ok v =>
      let source := match origin with
        | .script _ => .script
        | _ => .code
      reg.commitLayerSource v value origin source s

/-- `Ctx::set_value`. -/
def setValue (name : Str) (value : Value Float Span) (source : SetSource) :
    Effect (Value Float Span) Unit := fun s =>
  match reg.var name with
  | .error e => (.error e, s)
  | .ok v =>
    let origin := match source with
      | .code | .replication => .host
      | .script => .script "console".toList
    reg.commitLayerSource v value origin source s

/-- `Ctx::clear_session_write`. -/
def clearSessionWrite (name : Str) : Effect (Value Float Span) Unit := fun s =>
  match reg.var name with
  | .error e => (.error e, s)
  | .ok v =>
    if (s.layers.session v.name).isSome then
      reg.refresh v.name .code
        { s with layers := { s.layers with session := assign v.name none s.layers.session } }
    else (.ok (), s)

/-- `Ctx::restore_session_write`. -/
def restoreSessionWrite (name value : Str) : Effect (Value Float Span) Unit := fun s =>
  match reg.var name with
  | .error e => (.error e, s)
  | .ok _ => (do let _ ← reg.eval (name ++ ' ' :: value) false .session .user) s

/-- Brings the names up to date, one by one. -/
def refreshAll : List Str → Effect (Value Float Span) Unit
  | [] => pure ()
  | name :: names => do
    reg.refresh name .code
    refreshAll names

/-- A bind of an engagement is accepted. -/
def acceptsBind (s : State (Value Float Span)) (bind : Str × Value Float Span) : Bool :=
  match reg.var bind.1 with
  | .error _ => false
  | .ok v => (reg.checkValue s v bind.2 .code).isOk

/-- `Ctx::push_layer`. It panics on a bind that is not accepted. -/
def pushLayer (owner : Str) (binds : List (Str × Value Float Span)) (ctx : Ctx (Value Float Span)) :
    Except ConError Nat × Ctx (Value Float Span) :=
  if binds.all (reg.acceptsBind ctx.state) then
    let id := min (ctx.nextId + 1) (2 ^ 64 - 1)
    let s := { ctx.state with layers := ctx.state.layers.push id owner binds }
    (.ok id, ⟨(reg.refreshAll (binds.map Prod.fst) s).2, id⟩)
  else (.error .panicked, ctx)

/-- `Ctx::pop_layer`, given the names of the layer. -/
def popLayer (id : Nat) (names : List Str) : Effect (Value Float Span) Unit := fun s =>
  match s.layers.pop id with
  | none => (.ok (), s)
  | some (_, layers) => reg.refreshAll names { s with layers }

/-- The binds of one engagement that are accepted, under the names of their variables. -/
def checkedBinds (s : State (Value Float Span)) (binds : List (Str × Value Float Span)) :
    List (Str × Value Float Span) :=
  binds.filterMap fun bind =>
    match reg.var bind.1 with
    | .error _ => none
    | .ok v =>
      match reg.checkValue s v bind.2 .code with
      | .error _ => none
      | .ok value => some (v.name, value)

/-- The layers of a chain, with the last id given. -/
def pushChain (layers : Layers (Value Float Span)) (nextId : Nat) :
    List (Str × List (Str × Value Float Span)) → Layers (Value Float Span) × Nat
  | [] => (layers, nextId)
  | (owner, binds) :: chain =>
    let id := min (nextId + 1) (2 ^ 64 - 1)
    pushChain (layers.push id owner binds) id chain

/-- A name that deriving a chain touches. -/
def ChainTouches (layers : Layers (Value Float Span)) (chain : List (Str × List (Str × Value Float Span)))
    (name : Str) : Prop :=
  (∃ layer ∈ layers.engagements, layer.values name ≠ none) ∨
    ∃ link ∈ chain, ∃ bind ∈ link.2, bind.1 = name

/-- The chain is that of the layers there are. `sizes` are the numbers of entries of these. -/
def unchanged (layers : Layers (Value Float Span)) (sizes : List Nat)
    (chain : List (Str × List (Str × Value Float Span))) : Bool :=
  layers.engagements.length = chain.length &&
    ((layers.engagements.zip sizes).zip chain).all fun pair =>
      pair.1.1.owner = pair.2.1 && pair.1.2 = pair.2.2.length &&
        pair.2.2.all fun bind =>
          match pair.1.1.values bind.1 with
          | none => false
          | some value => value == bind.2

/-- `Ctx::derive_layers`. -/
def deriveLayers (chain : List (Str × List (Str × Value Float Span))) (sizes : List Nat)
    (names : List Str) (ctx : Ctx (Value Float Span)) : Ctx (Value Float Span) :=
  let chain := chain.map fun link => (link.1, reg.checkedBinds ctx.state link.2)
  if unchanged ctx.state.layers sizes chain then ctx
  else
    let (layers, nextId) := pushChain { ctx.state.layers with engagements := [] } ctx.nextId chain
    ⟨(reg.refreshAll names { ctx.state with layers }).2, nextId⟩

/-- `Ctx::replace_scope`. -/
def replaceScope (inherited agentClass : Str → Option (Value Float Span)) (session : ScopeSession)
    (names : List Str) : Effect (Value Float Span) Unit := fun s =>
  reg.refreshAll names { s with layers := s.layers.withScope inherited agentClass session }

/-- The values of a child's layer that this context accepts. -/
def checkedScope (s : State (Value Float Span)) (entries : List (Str × Value Float Span)) :
    Str → Option (Value Float Span) :=
  Layers.collect (reg.checkedBinds s entries)

/-- `Ctx::adopt_scope`, given the entries of the child's layers. -/
def adoptScope (inherited agentClass : List (Str × Value Float Span)) (names : List Str) :
    Effect (Value Float Span) Unit := fun s =>
  reg.replaceScope (reg.checkedScope s inherited) (reg.checkedScope s agentClass) .park names s

/-- `Ctx::drop_scope`. -/
def dropScope (names : List Str) : Effect (Value Float Span) Unit :=
  reg.replaceScope (fun _ => none) (fun _ => none) .restore names

/-! ## Steps -/

/-- What a host or a user does to the context. Where maps are walked, the operation comes with the names
in the order of the walk. -/
inductive Operation (Float Span : Type) where
  | set (name : Str) (value : Value Float Span) (origin : Origin)
  | setValue (name : Str) (value : Value Float Span) (source : SetSource)
  | unset (name : Str) (origin : Origin)
  | clearSessionWrite (name : Str)
  | restoreSessionWrite (name value : Str)
  | eval (src : Str) (lenient : Bool) (origin : Origin) (authority : Authority)
  | pushLayer (owner : Str) (binds : List (Str × Value Float Span))
  | popLayer (id : Nat) (names : List Str)
  | deriveLayers (chain : List (Str × List (Str × Value Float Span))) (sizes : List Nat)
      (names : List Str)
  | adoptScope (inherited agentClass : List (Str × Value Float Span)) (names : List Str)
  | dropScope (names : List Str)

def step (ctx : Ctx (Value Float Span)) : Operation Float Span → Ctx (Value Float Span)
  | .set name value origin => { ctx with state := (reg.set name value origin ctx.state).2 }
  | .setValue name value source => { ctx with state := (reg.setValue name value source ctx.state).2 }
  | .unset name origin => { ctx with state := (reg.unset name origin ctx.state).2 }
  | .clearSessionWrite name => { ctx with state := (reg.clearSessionWrite name ctx.state).2 }
  | .restoreSessionWrite name value =>
    { ctx with state := (reg.restoreSessionWrite name value ctx.state).2 }
  | .eval src lenient origin authority =>
    { ctx with state := (reg.eval src lenient origin authority ctx.state).2 }
  | .pushLayer owner binds => (reg.pushLayer owner binds ctx).2
  | .popLayer id names => { ctx with state := (reg.popLayer id names ctx.state).2 }
  | .deriveLayers chain sizes names => reg.deriveLayers chain sizes names ctx
  | .adoptScope inherited agentClass names =>
    { ctx with state := (reg.adoptScope inherited agentClass names ctx.state).2 }
  | .dropScope names => { ctx with state := (reg.dropScope names ctx.state).2 }

/-- The names of the operation are those of the maps it walks. -/
def Walks (s : State (Value Float Span)) : Operation Float Span → Prop
  | .popLayer id names => ∀ layer layers, s.layers.pop id = some (layer, layers) →
    Enumerates names fun name => layer.values name ≠ none
  | .deriveLayers chain sizes names =>
    Sorted names (ChainTouches s.layers
      (chain.map fun link => (link.1, reg.checkedBinds s link.2))) ∧
    List.Forall₂ (fun (layer : EngagementLayer (Value Float Span)) size => ∃ keys,
      Enumerates keys (fun name => layer.values name ≠ none) ∧ keys.length = size)
      s.layers.engagements sizes
  | .adoptScope inherited agentClass names =>
    Sorted names (s.layers.ScopeTouches (reg.checkedScope s inherited)
      (reg.checkedScope s agentClass) .park)
  | .dropScope names => Sorted names (s.layers.ScopeTouches (fun _ => none) (fun _ => none) .restore)
  | _ => True

end Registry

end OhMyPi.Console
