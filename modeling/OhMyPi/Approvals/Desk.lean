import OhMyPi.Lib.OrdMap
import OhMyPi.Session.Commands
import Mathlib.Data.String.Basic

/-! Approval prompts (`agent/src/approvals.rs`): the book, which keeps tickets in the session tree,
and the desk, which keeps the reply channels of the requests that wait on them. -/

namespace OhMyPi

/-- One requirement merged into an invocation's prompt. -/
structure ApprovalSpec where
  title : String := ""
  body : String := ""
  subject : String
  kind : String
  /-- Offered grant scopes in strictness order. -/
  scopes : List String
  default : Option Bool := none
  route : String := "user"
  approver : Option String := none
  timeoutMs : UInt64 := 0
  unreachable : String := "deny"
  /-- Forbids non-human decisions. -/
  requireHuman : Bool := false
  pattern : Option String := none
  evidence : List String := []
deriving DecidableEq

/-- Granted lifetime of a decision. -/
inductive ApprovalScope where
  | once
  | call
  | turn
  | session
  | persist
  | custom (name : String)
deriving DecidableEq

namespace ApprovalScope

def asStr : ApprovalScope → String
  | once => "once"
  | call => "call"
  | turn => "turn"
  | session => "session"
  | persist => "persist"
  | custom name => name

/-- `from_str`, which is infallible. -/
def ofStr (name : String) : ApprovalScope :=
  if name = "once" then once
  else if name = "call" then call
  else if name = "turn" then turn
  else if name = "session" then session
  else if name = "persist" then persist
  else custom name

/-- The scope as it is read back from the journal: a custom scope that is spelled like a named one
comes back as the named one. -/
def settled (scope : ApprovalScope) : ApprovalScope := ofStr scope.asStr

end ApprovalScope

def ApprovalSpec.offers (spec : ApprovalSpec) (scope : ApprovalScope) : Bool :=
  spec.scopes.any (· == scope.asStr)

inductive TicketState where
  | pending
  | decided
  | withdrawn
deriving DecidableEq

inductive ApprovalSource where
  | user
  | external
  | forwarded
  | config
  | extension
  | timeout
  | unavailable
deriving DecidableEq

structure ApprovalDecision where
  approved : Bool
  scope : ApprovalScope
  source : ApprovalSource
  decidedBy : Option String := none
  reason : Option String := none
  audited : Bool := false
deriving DecidableEq

namespace ApprovalDecision

def namesDecider (decision : ApprovalDecision) : Bool :=
  decision.decidedBy.any fun name => !(trim name.toList).isEmpty

/-- The decision as it is read back from the journal. -/
def settled (decision : ApprovalDecision) : ApprovalDecision :=
  { decision with scope := decision.scope.settled }

end ApprovalDecision

/-- Journal-derived approval prompt. -/
structure ApprovalTicket where
  ticketId : String
  invocationId : Option String
  /-- Every unresolved requirement in filing order. -/
  reasons : List ApprovalSpec
  state : TicketState := .pending
  decision : Option ApprovalDecision := none
  createdAtMs : UInt64 := 0
deriving DecidableEq

namespace ApprovalTicket

/-- The ticket as its text reads back. -/
def settled (ticket : ApprovalTicket) : ApprovalTicket :=
  { ticket with decision := ticket.decision.map ApprovalDecision.settled }

/-- Whether every merged requirement offers the scope; a prompt with no requirement offers
nothing. -/
def offers (ticket : ApprovalTicket) (scope : ApprovalScope) : Bool :=
  !ticket.reasons.isEmpty && ticket.reasons.all (·.offers scope)

end ApprovalTicket

inductive ApprovalError where
  | session (source : SessionError)
  | missingPrompts
  | unknownTicket (id : String)
  | missingDecider (id : String)
deriving DecidableEq

/-- A patch the approval book journals, by its label. -/
inductive ApprovalPatch where
  | merge (ticket : ApprovalTicket)
  | «open» (ticket : ApprovalTicket)
  | decide (id : String) (decision : ApprovalDecision)
  | withdraw (id : String)

/-- What a mutation key was journaled with: its entry, and the request when the entry decides a
ticket. -/
structure KeyUse where
  entry : EntryId
  identity : Option (String × ApprovalDecision)

/-- The session as the book reads and writes it. The approval prompts stand in tree order, each with
the ticket its text decodes to; everything else in the tree only shows in the marks. -/
structure Prompts where
  tickets : List (Nat × ApprovalTicket) := []
  highWater : Nat := 4
  entryCount : Nat := 1
  keys : String → Option KeyUse := fun _ => none
  journal : List ApprovalPatch := []

/-- What the journal answers to an append: the entry it wrote, or why it wrote none. -/
abbrev Append := Except SessionError EntryId

/-- An operation on the approval prompts. -/
abbrev Booking := Action Prompts ApprovalError

namespace Prompts

def findTicket (p : Prompts) (id : String) : Except ApprovalError (Nat × ApprovalTicket) :=
  match p.tickets.find? fun entry => entry.2.ticketId = id with
  | some entry => .ok entry
  | none => .error (.unknownTicket id)

/-- Rewrites the ticket text of one node. -/
def setTicket (p : Prompts) (handle : Nat) (ticket : ApprovalTicket) : Prompts :=
  { p with
    tickets := p.tickets.map fun entry =>
      if entry.1 = handle then (handle, ticket.settled) else entry }

/-- Inserts a prompt after the last one. -/
def insert (p : Prompts) (ticket : ApprovalTicket) : Prompts :=
  { p with
    tickets := p.tickets ++ [(p.highWater + 1, ticket.settled)]
    highWater := p.highWater + 1 }

/-- One more entry in the journal. -/
def record (p : Prompts) (label : ApprovalPatch) : Prompts :=
  { p with entryCount := p.entryCount + 1, journal := p.journal ++ [label] }

/-- `Session::patch`, for a patch that validates: a failed append leaves the tree as it was. -/
def patch (append : Append) (label : ApprovalPatch) (change : Prompts → Prompts) :
    Booking EntryId := fun p =>
  match append with
  | .error e => (.error (.session e), p)
  | .ok entry => (.ok entry, (change p).record label)

/-- `Session::replay_keyed_patch`, for the request of a decision. -/
def replayKeyed (p : Prompts) (key id : String) (decision : ApprovalDecision) :
    Except SessionError (Option EntryId) :=
  match validateKey key with
  | .error e => .error e
  | .ok () =>
    match p.keys key with
    | none => .ok none
    | some use =>
      if use.identity = some (id, decision.settled) then .ok (some use.entry)
      else .error (.keyConflict key use.entry)

def useKey (p : Prompts) (key : String) (use : KeyUse) : Prompts :=
  { p with keys := fun k => if k = key then some use else p.keys k }

end Prompts

namespace ApprovalBook

/-- The id prefix of the ordinary approval family. -/
def family : String := "approval"

def ticketId (number : Nat) : String := family ++ "-" ++ toString number

/-- The prompt of an invocation that is still open. -/
def existing (p : Prompts) (invocationId : Option String) : Option (Nat × ApprovalTicket) :=
  match invocationId with
  | none => none
  | some id =>
    p.tickets.find? fun entry => entry.2.invocationId = some id && entry.2.state = .pending

/-- Opens or merges the prompt for an invocation. -/
def openFor (invocationId : Option String) (reasons : List ApprovalSpec) (createdAtMs : UInt64)
    (append : Append) : Booking ApprovalTicket := fun p =>
  match existing p invocationId with
  | some (handle, ticket) =>
    let ticket := { ticket with reasons := ticket.reasons ++ reasons }
    (do
      let _ ← Prompts.patch append (.merge ticket) (·.setTicket handle ticket)
      return ticket : Booking ApprovalTicket) p
  | none =>
    let ticket : ApprovalTicket :=
      { ticketId := ticketId (p.highWater + 1), invocationId, reasons, createdAtMs }
    (do
      let _ ← Prompts.patch append (.open ticket) (·.insert ticket)
      return ticket : Booking ApprovalTicket) p

/-- `patch_keyed`, or `patch` when there is no key, for a decision. -/
def journalDecision (id : String) (decision : ApprovalDecision) (key : Option String)
    (append : Append) (change : Prompts → Prompts) : Booking AppendOutcome :=
  match key with
  | none => do return .appended (← Prompts.patch append (.decide id decision) change)
  | some key => do
    let replayed ← Action.reads fun p =>
      match p.replayKeyed key id decision with
      | .ok replayed => .ok replayed
      | .error e => .error (.session e)
    match replayed with
    | some entry => return .replayed entry
    | none =>
      let entry ← Prompts.patch append (.decide id decision) change
      Action.modify (·.useKey key { entry, identity := some (id, decision.settled) })
      return .appended entry

/-- `decide_inner`: the first decision on a ticket. -/
def decideInner (id : String) (decision : ApprovalDecision) (key : Option String)
    (append : Append) : Booking (ApprovalTicket × Option AppendOutcome) := do
  if decision.source = .external && !decision.namesDecider then Action.fail (.missingDecider id)
  else
    let (handle, ticket) ← Action.reads (·.findTicket id)
    if ticket.state = .pending then
      let ticket := { ticket with state := .decided, decision := some decision }
      let outcome ← journalDecision id decision key append (·.setTicket handle ticket)
      return (ticket, some outcome)
    else return (ticket, none)

/-- `decide`. -/
def decide (id : String) (decision : ApprovalDecision) (append : Append) :
    Booking ApprovalTicket := do
  return (← decideInner id decision none append).1

/-- Withdraws an unanswered prompt. -/
def withdraw (id : String) (append : Append) : Booking ApprovalTicket := do
  let (handle, ticket) ← Action.reads (·.findTicket id)
  if ticket.state = .pending then
    let ticket := { ticket with state := .withdrawn }
    let _ ← Prompts.patch append (.withdraw id) (·.setTicket handle ticket)
    return ticket
  else return ticket

end ApprovalBook

/-! ## Grants -/

/-- The decision that covers one requirement. -/
structure Grant where
  ticketId : String
  scope : ApprovalScope
  decidedBy : Option String
deriving DecidableEq

/-- The decision of a ticket that can cover requirements of `ticket`. -/
def ApprovalTicket.granting (decided ticket : ApprovalTicket) : Option ApprovalDecision :=
  decided.decision.filter fun decision =>
    decision.approved && (decision.scope = .session || decision.scope = .persist) &&
      decided.ticketId ≠ ticket.ticketId

/-- Whether a decision on a ticket covers a requirement. -/
def ApprovalTicket.covers (decided : ApprovalTicket) (decision : ApprovalDecision)
    (spec : ApprovalSpec) : Bool :=
  spec.offers decision.scope &&
    decided.reasons.any fun granted =>
      granted.kind = spec.kind && granted.subject = spec.subject && granted.offers decision.scope

/-- One round over the slots of the requirements. -/
def coverRound (decided : ApprovalTicket) (decision : ApprovalDecision) :
    List (ApprovalSpec × Option Grant) → List (ApprovalSpec × Option Grant)
  | [] => []
  | (spec, some grant) :: slots => (spec, some grant) :: coverRound decided decision slots
  | (spec, none) :: slots =>
    (spec,
      if decided.covers decision spec then
        some { ticketId := decided.ticketId, scope := decision.scope, decidedBy := decision.decidedBy }
      else none) :: coverRound decided decision slots

/-- The grant covering each requirement: the first in tree order that does. -/
def cover (ticket : ApprovalTicket) : List ApprovalTicket → List (ApprovalSpec × Option Grant) →
    List (ApprovalSpec × Option Grant)
  | [], slots => slots
  | decided :: tickets, slots =>
    match decided.granting ticket with
    | none => cover ticket tickets slots
    | some decision =>
      let slots := coverRound decided decision slots
      if slots.all (·.2.isSome) then slots else cover ticket tickets slots

/-- `covering`, when every requirement is covered. -/
def coveringGrants (p : Prompts) (ticket : ApprovalTicket) : Option (List Grant) :=
  (cover ticket (p.tickets.map Prod.snd) (ticket.reasons.map fun spec => (spec, none))).mapM Prod.snd

/-- The answer's text names each covering ticket once. -/
def grantReason (grants : List Grant) : String :=
  "granted by " ++ ", ".intercalate (grants.map Grant.ticketId).eraseDups ++ " for this session"

/-- `session_grant`. -/
def sessionGrant (p : Prompts) (ticket : ApprovalTicket) : Option ApprovalDecision :=
  if ticket.reasons.isEmpty then none
  else
    match coveringGrants p ticket with
    | none => none
    | some grants =>
      let scope := if grants.all (·.scope = .persist) then ApprovalScope.persist else .session
      if ticket.offers scope then
        let first := (grants.head?.bind Grant.decidedBy)
        some
          { approved := true
            scope
            source := .config
            decidedBy := if grants.all (·.decidedBy = first) then first else none
            reason := some (grantReason grants) }
      else none

/-! ## The desk -/

/-- The reply channel of one request, which holds one answer; `ticketId` is the ticket the request
was filed on. -/
structure Reply where
  ticketId : String
  receiving : Bool := true
  answer : Option ApprovalDecision := none

/-- `respond`: `try_send` into a channel of capacity one. -/
def Reply.respond (reply : Reply) (decision : ApprovalDecision) : Reply :=
  if reply.receiving && reply.answer.isNone then { reply with answer := some decision } else reply

/-- Whether the requesting policy still waits for an answer. -/
def Reply.Waiting (reply : Reply) : Prop := reply.receiving = true ∧ reply.answer = none

/-- The desk, with the session it journals to. The requests filed are numbered in order; `replies`
holds the channel of each, and `pending` the numbers of those kept for an answer, by ticket. -/
structure ApprovalDesk where
  prompts : Prompts := {}
  pending : OrdMap String (List Nat) := ∅
  replies : List Reply := []

/-- An operation of the desk. -/
abbrev Desking := Action ApprovalDesk ApprovalError

/-- What the desk tells the sender of a keyed decision. -/
inductive ApprovalOutcome where
  | applied (entry : EntryId) (seq : Nat)
  | duplicate (entry : EntryId)
  | notPending
deriving DecidableEq

namespace ApprovalDesk

/-- Runs an operation of the book. -/
def booking {α : Type} (x : Booking α) : Desking α :=
  Action.zoom ApprovalDesk.prompts (fun prompts desk => { desk with prompts }) x

def respond (number : Nat) (decision : ApprovalDecision) (desk : ApprovalDesk) : ApprovalDesk :=
  { desk with replies := desk.replies.modify number (·.respond decision) }

/-- Keeps a request until its ticket is decided. -/
def keep (id : String) (number : Nat) (desk : ApprovalDesk) : ApprovalDesk :=
  { desk with pending := desk.pending.insert id ((desk.pending.get? id).getD [] ++ [number]) }

/-- `file`: journals one route request, and answers it when the tree already grants it. A request
that could not be journaled is not filed on any ticket. -/
def file (invocationId : Option String) (reasons : List ApprovalSpec) (createdAtMs : UInt64)
    (opening deciding : Append) : Desking ApprovalTicket := do
  let ticket ← booking (ApprovalBook.openFor invocationId reasons createdAtMs opening)
  let grant ← Action.reads fun desk => .ok (sessionGrant desk.prompts ticket)
  let number ← Action.reads fun desk => .ok desk.replies.length
  match grant with
  | some grant =>
    let ticket ← booking (ApprovalBook.decide ticket.ticketId grant deciding)
    Action.modify fun desk => { desk with replies := desk.replies ++ [{ ticketId := ticket.ticketId }] }
    Action.modify (respond number grant)
    return ticket
  | none =>
    Action.modify fun desk => { desk with replies := desk.replies ++ [{ ticketId := ticket.ticketId }] }
    Action.modify (keep ticket.ticketId number)
    return ticket

/-- `file_specs`: journals the requirements of one call, which waits on no reply channel. -/
def fileSpecs (callId : String) (specs : List ApprovalSpec) (now : UInt64)
    (opening deciding : Append) : Desking ApprovalTicket := do
  let ticket ← booking (ApprovalBook.openFor (some callId) specs now opening)
  let grant ← Action.reads fun desk => .ok (sessionGrant desk.prompts ticket)
  match grant with
  | some grant => booking (ApprovalBook.decide ticket.ticketId grant deciding)
  | none => return ticket

/-- `relay`. -/
def relay (id : String) (decision : ApprovalDecision) (desk : ApprovalDesk) : ApprovalDesk :=
  ((desk.pending.get? id).getD []).foldl (fun desk number => desk.respond number decision)
    { desk with pending := desk.pending.erase id }

/-- `decide`. -/
def decide (id : String) (decision : ApprovalDecision) (append : Append) :
    Desking ApprovalTicket := do
  let ticket ← booking (ApprovalBook.decide id decision append)
  Action.modify (relay id decision)
  return ticket

/-- `decide_keyed`. -/
def decideKeyed (id : String) (decision : ApprovalDecision) (key : String) (append : Append) :
    Desking (ApprovalOutcome × Option ApprovalTicket) := do
  let replayed ← Action.reads fun desk =>
    match desk.prompts.replayKeyed key id decision with
    | .ok replayed => .ok replayed
    | .error e => .error (.session e)
  match replayed with
  | some entry => return (.duplicate entry, none)
  | none =>
    let (ticket, outcome) ← booking (ApprovalBook.decideInner id decision (some key) append)
    match outcome with
    | some (.appended entry) =>
      Action.modify (relay id decision)
      let seq ← Action.reads fun desk => .ok desk.prompts.entryCount
      return (.applied entry seq, some ticket)
    | some (.replayed entry) => return (.duplicate entry, none)
    | none => return (.notPending, none)

/-- `is_abandoned`. -/
def isAbandoned (desk : ApprovalDesk) (number : Nat) : Bool :=
  (desk.replies[number]?).all fun reply => !reply.receiving

/-- The tickets all of whose requests were abandoned. -/
def abandoned (desk : ApprovalDesk) : List String :=
  (desk.pending.entries.filter fun entry => entry.2.all desk.isAbandoned).map Prod.fst

def withdrawAll (appends : String → Append) : List String → Desking Unit
  | [] => pure ()
  | id :: ids => do
    let _ ← booking (ApprovalBook.withdraw id (appends id))
    withdrawAll appends ids

/-- `sweep`, at the journal's answer to the withdrawal of each ticket. -/
def sweep (appends : String → Append) : Desking Unit := do
  let ids ← Action.reads fun desk => .ok desk.abandoned
  Action.modify fun desk => { desk with pending := ids.foldl (fun m id => m.erase id) desk.pending }
  withdrawAll appends ids

end ApprovalDesk

end OhMyPi
