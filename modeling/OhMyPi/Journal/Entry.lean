import OhMyPi.Journal.Ulid

/-! Versioned entry kinds (`journal/src/kind.rs`) and entry records (`journal/src/entry.rs`). -/

namespace OhMyPi

/-- The closed set of journal event names in revision 1. -/
inductive KindName where
  | journal
  | turnStart
  | msgUser
  | msgAssistantStart
  | stream
  | msgAssistantEnd
  | toolCall
  | toolUpdate
  | toolResult
  | turnReceipt
  | patch
  | compaction
deriving DecidableEq, Repr

namespace KindName

def toStr : KindName → String
  | journal => "journal"
  | turnStart => "turn.start"
  | msgUser => "msg.user"
  | msgAssistantStart => "msg.assistant.start"
  | stream => "stream"
  | msgAssistantEnd => "msg.assistant.end"
  | toolCall => "tool.call"
  | toolUpdate => "tool.update"
  | toolResult => "tool.result"
  | turnReceipt => "turn.receipt"
  | patch => "patch"
  | compaction => "compaction"

/-- `EnumString`: the exact names and nothing else. -/
def fromStr (name : String) : Option KindName :=
  [journal, turnStart, msgUser, msgAssistantStart, stream, msgAssistantEnd, toolCall, toolUpdate,
    toolResult, turnReceipt, patch, compaction].find? (·.toStr = name)

theorem toStr_of_fromStr (h : fromStr name = some k) : k.toStr = name := by
  simpa using List.find?_some h

end KindName

/-- A versioned journal entry kind. -/
structure Kind where
  name : String
  rev : UInt32
deriving DecidableEq, Repr

inductive KindError where
  | missingSeparator
  | invalidName
  | invalidRevision
  | zeroRevision
deriving DecidableEq, Repr

namespace Kind

/-- The dotted segment grammar of kind names. -/
def validName (name : List Char) : Bool :=
  !name.isEmpty && (name.splitOn '.').all fun segment =>
    match segment with
    | [] => false
    | c :: cs => c.isAlpha && cs.all fun c => c.isAlphanum || c = '_' || c = '-'

def new (name : String) (rev : UInt32) : Except KindError Kind :=
  if !validName name.toList then .error .invalidName
  else if rev = 0 then .error .zeroRevision
  else .ok { name, rev }

/-- A known revision-1 kind. -/
def known (name : KindName) : Kind := { name := name.toStr, rev := 1 }

def isKnown (kind : Kind) : Bool := kind.rev = 1 && (KindName.fromStr kind.name).isSome

/-- `Display for Kind`. -/
def display (kind : Kind) : String := kind.name ++ "@" ++ toString kind.rev.toNat

/-- `FromStr for Kind`. -/
def fromStr (value : List Char) : Except KindError Kind :=
  match Text.rsplitOnce '@' value with
  | none => .error .missingSeparator
  | some (name, revision) =>
    match Text.parseU32 revision with
    | none => .error .invalidRevision
    | some rev => new (String.ofList name) rev

theorem isKnown_iff {kind : Kind} : kind.isKnown ↔ ∃ name, kind = known name := by
  constructor
  · intro h
    simp only [isKnown, Bool.and_eq_true, decide_eq_true_eq, Option.isSome_iff_exists] at h
    obtain ⟨hrev, name, hname⟩ := h
    exact ⟨name, by cases kind; simp_all [known, KindName.toStr_of_fromStr hname]⟩
  · rintro ⟨name, rfl⟩
    cases name <;> decide

/-- The text of a known kind parses back to it. -/
theorem fromStr_display_known (name : KindName) :
    fromStr (known name).display.toList = .ok (known name) := by
  cases name <;> decide

theorem display_known_oneLine (name : KindName) :
    Text.OneLine (known name).display.toList := by
  rw [← Text.any_isEol_eq_false]
  cases name <;> decide

end Kind

/-- The identity of one journal entry. -/
abbrev EntryId := Ulid

/-- One committed journal entry. -/
structure Entry where
  id : EntryId
  kind : Kind
  /-- Entry that caused this entry, absent only for genesis. -/
  by_ : Option EntryId
  /-- Explicit branch parent; absence means the previous file entry. -/
  prior : Option EntryId
  label : Option String
  /-- Single-line JSON payload. -/
  data : String
deriving DecidableEq

/-- One entry waiting for the journal to assign its identity. -/
structure EntryDraft where
  kind : Kind
  by_ : Option EntryId
  prior : Option EntryId
  label : Option String
  data : String
deriving DecidableEq

/-- The entry a draft becomes once it has an identity. -/
def EntryDraft.toEntry (draft : EntryDraft) (id : EntryId) : Entry :=
  { id, kind := draft.kind, by_ := draft.by_, prior := draft.prior, label := draft.label
    data := draft.data }

@[simp] theorem EntryDraft.toEntry_id (draft : EntryDraft) (id : EntryId) :
    (draft.toEntry id).id = id := rfl

end OhMyPi
