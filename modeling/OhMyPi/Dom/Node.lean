import Mathlib.Data.String.Basic
import OhMyPi.Lib.KeyedList

/-! The session tree's vocabulary (`vocab/src/lib.rs`), property values and nodes
(`dom/src/node.rs`). -/

namespace OhMyPi

/-- Closed, structural element names, in declaration order. -/
inductive KnownTag where
  | session | «meta» | body | queues | todo | item | jobs | job | directors | director | con | var
  | compaction | turn | user | assistant | developer | notice | steering | prompts | prompt
  | subagent | input | result | diag | usage
deriving DecidableEq, Repr

/-- An element name. Tool names use the custom form. -/
inductive Tag where
  | known (tag : KnownTag)
  | custom (name : String)
deriving DecidableEq, Repr

/-- Closed, well-known property names, in declaration order. -/
inductive PropId where
  | id | status | rev | i | severity | model | provider | route | stopReason | text | thinking
  | name | kind | engaged | sid | path | lines | cause | args | outcome | fault | data | callId
  | tokensIn | tokensOut | costNanoUsd | cacheRead | cacheWrite | ttftMs | durationMs
  | premiumRequests | boundary | summary | method | tokensBefore | tokensAfter | frames
  | frameCount | warning | author | synthetic | turn | order | revision | detail | live | bytes
  | exit | signal | op | «until» | selector | value | label | usage | mime | blob | truncated
  | recovery | continuation | omitted | unit
deriving DecidableEq, Repr

/-- A property key, closed for engine semantics and extensible for tool data. -/
inductive PropKey where
  | known (prop : PropId)
  | custom (name : String)
deriving DecidableEq, Repr

namespace PropKey

theorem ctorIdx_inj {prop prop' : PropId} (h : prop.ctorIdx = prop'.ctorIdx) : prop = prop' := by
  rw [← PropId.ofNat_ctorIdx prop, h, PropId.ofNat_ctorIdx]

/-- The derived order: well-known keys as declared, then custom ones by name. -/
protected def le : PropKey → PropKey → Prop
  | known prop, known prop' => prop.ctorIdx ≤ prop'.ctorIdx
  | known _, custom _ => True
  | custom _, known _ => False
  | custom name, custom name' => name ≤ name'

instance (key key' : PropKey) : Decidable (key.le key') :=
  match key, key' with
  | known prop, known prop' => inferInstanceAs (Decidable (prop.ctorIdx ≤ prop'.ctorIdx))
  | known _, custom _ => .isTrue trivial
  | custom _, known _ => .isFalse id
  | custom name, custom name' => inferInstanceAs (Decidable (name ≤ name'))

instance : LinearOrder PropKey where
  le := PropKey.le
  le_refl key := by cases key <;> exact le_refl _
  le_trans a b c h h' := by
    cases a <;> cases b <;> cases c <;> first | trivial | exact le_trans h h'
  le_antisymm a b h h' := by
    cases a <;> cases b
    · exact congrArg known (ctorIdx_inj (le_antisymm h h'))
    · cases h'
    · cases h
    · exact congrArg custom (le_antisymm h h')
  le_total a b := by
    cases a <;> cases b
    · exact Nat.le_total _ _
    · exact .inl trivial
    · exact .inr trivial
    · exact le_total _ _
  toDecidableLE := fun key key' => inferInstanceAs (Decidable (key.le key'))
  toDecidableEq := instDecidableEqPropKey

example : KeyedList.sort [(known .text, 1), (custom "a", 2), (known .id, 3), (known .text, 4)] =
    [(known .id, 3), (known .text, 1), (known .text, 4), (custom "a", 2)] := by decide

end PropKey

/-! ## Names -/

/-- `IntoStaticStr`. -/
def KnownTag.toStr : KnownTag → String
  | session => "session"
  | «meta» => "meta"
  | body => "body"
  | queues => "queues"
  | todo => "todo"
  | item => "item"
  | jobs => "jobs"
  | job => "job"
  | directors => "directors"
  | director => "director"
  | con => "con"
  | var => "var"
  | compaction => "compaction"
  | turn => "turn"
  | user => "user"
  | assistant => "assistant"
  | developer => "developer"
  | notice => "notice"
  | steering => "steering"
  | prompts => "prompts"
  | prompt => "prompt"
  | subagent => "subagent"
  | input => "input"
  | result => "result"
  | diag => "diag"
  | usage => "usage"

/-- `IntoStaticStr`. -/
def PropId.toStr : PropId → String
  | id => "id"
  | status => "status"
  | rev => "rev"
  | i => "i"
  | severity => "severity"
  | model => "model"
  | provider => "provider"
  | route => "route"
  | stopReason => "stop-reason"
  | text => "text"
  | thinking => "thinking"
  | name => "name"
  | kind => "kind"
  | engaged => "engaged"
  | sid => "sid"
  | path => "path"
  | lines => "lines"
  | cause => "cause"
  | args => "args"
  | outcome => "outcome"
  | fault => "fault"
  | data => "data"
  | callId => "call-id"
  | tokensIn => "tokens-in"
  | tokensOut => "tokens-out"
  | costNanoUsd => "cost-nano-usd"
  | cacheRead => "cache-read"
  | cacheWrite => "cache-write"
  | ttftMs => "ttft-ms"
  | durationMs => "duration-ms"
  | premiumRequests => "premium-requests"
  | boundary => "boundary"
  | summary => "summary"
  | method => "method"
  | tokensBefore => "tokens-before"
  | tokensAfter => "tokens-after"
  | frames => "frames"
  | frameCount => "frame-count"
  | warning => "warning"
  | author => "author"
  | synthetic => "synthetic"
  | turn => "turn"
  | order => "order"
  | revision => "revision"
  | detail => "detail"
  | live => "live"
  | bytes => "bytes"
  | exit => "exit"
  | signal => "signal"
  | op => "op"
  | «until» => "until"
  | selector => "selector"
  | value => "value"
  | label => "label"
  | usage => "usage"
  | mime => "mime"
  | blob => "blob"
  | truncated => "truncated"
  | recovery => "recovery"
  | continuation => "continuation"
  | omitted => "omitted"
  | unit => "unit"

/-- `EnumString`: the exact names and nothing else. -/
def PropId.fromStr (value : String) : Option PropId :=
  ((List.range 62).map PropId.ofNat).find? (·.toStr = value)

/-- The markup name. -/
def Tag.asStr : Tag → String
  | known tag => tag.toStr
  | custom name => name

namespace PropKey

/-- The logical property name, without the custom wire marker. -/
def asStr : PropKey → String
  | known prop => prop.toStr
  | custom name => name

/-- `strip_prefix("custom:")`. -/
def stripCustom (value : String) : Option String :=
  if "custom:".toList <+: value.toList then some (String.ofList (value.toList.drop 7)) else none

/-- `FromStr for PropKey`. -/
def fromStr (value : String) : PropKey :=
  match stripCustom value with
  | some name => custom name
  | none =>
    match PropId.fromStr value with
    | some prop => known prop
    | none => custom value

end PropKey

/-- A property value. A float is its bits, structured JSON is its text. -/
inductive Value where
  | null
  | bool (value : Bool)
  | int (value : Int64)
  | float (bits : UInt64)
  | str (text : String)
  | json (raw : String)
deriving DecidableEq, Repr

/-- Text, when the value is a string. -/
def Value.asStr : Value → Option String
  | str text => some text
  | _ => none

/-- A stable node identity; the source's are nonzero. -/
abbrev Handle := Nat

/-- Node data supplied to an insertion. -/
structure NodeSpec where
  tag : Tag
  props : List (PropKey × Value) := []
  content : Option String := none
deriving DecidableEq, Repr

/-- Adds or replaces one property. -/
def NodeSpec.withProp (spec : NodeSpec) (key : PropKey) (value : Value) : NodeSpec :=
  { spec with props := KeyedList.assign key value spec.props }

/-- A materialized node. -/
structure Node where
  tag : Tag
  props : List (PropKey × Value) := []
  kids : List Handle := []
  content : Option String := none
deriving DecidableEq, Repr

namespace Node

/-- The first value under `key`. -/
def prop (node : Node) (key : PropKey) : Option Value := KeyedList.first key node.props

def fromSpec (spec : NodeSpec) : Node :=
  { tag := spec.tag, props := spec.props, kids := [], content := spec.content }

def setProp (node : Node) (key : PropKey) (value : Value) : Node :=
  { node with props := KeyedList.assign key value node.props }

end Node

end OhMyPi
