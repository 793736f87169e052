import Mathlib.Algebra.Order.Ring.Nat
import Mathlib.Data.List.Dedup
import OhMyPi.Lib.OrdMap

/-! Hashline sections (`edit/src/modes/hashline`): hunks become edits that name source lines, overlaps
are settled when the section is parsed, and block and clipboard operations become edits of single
lines only when the file is at hand. -/

namespace OhMyPi.Hashline

abbrev Str := List Char

/-! ## Edits -/

inductive Cursor
  | bof
  | eof
  | beforeAnchor (line : Nat)
  | afterAnchor (line : Nat)
  deriving DecidableEq

structure ParsedRange where
  start : Nat
  stop : Nat
  deriving DecidableEq

/-- The lines of a range. -/
def ParsedRange.lines (range : ParsedRange) : List Nat :=
  List.range' range.start (range.stop + 1 - range.start)

inductive PasteTarget
  | gap (cursor : Cursor)
  | span (range : ParsedRange)
  deriving DecidableEq

/-- Without a mode a block is replaced. -/
inductive BlockMode
  | insertAfter
  | cut
  | pasteAfter
  deriving DecidableEq

inductive Edit
  | insert (cursor : Cursor) (text : Str) (lineNum index : Nat) (replacement : Bool)
    (blockStart : Option Nat)
  | delete (line lineNum index : Nat)
  | cut (range : ParsedRange) (register : Option Str) (lineNum index : Nat)
  | paste (target : PasteTarget) (register : Option Str) (lineNum index : Nat) (blockStart : Option Nat)
  | block (anchor : Nat) (payloads : List Str) (mode : Option BlockMode) (register : Option Str)
    (lineNum index : Nat)
  deriving DecidableEq

/-- The line of the section on which the hunk of the edit stands. -/
def Edit.lineNum : Edit → Nat
  | .insert _ _ lineNum _ _ _ => lineNum
  | .delete _ lineNum _ => lineNum
  | .cut _ _ lineNum _ => lineNum
  | .paste _ _ lineNum _ _ => lineNum
  | .block _ _ _ _ lineNum _ => lineNum

/-! ## Parsing -/

inductive BlockTarget
  | replace (range : ParsedRange) (register : Option Str)
  | cut (range : ParsedRange) (register : Option Str)
  | block (anchor : Nat) (register : Option Str)
  | cutBlock (anchor : Nat) (register : Option Str)
  | insertAfterBlock (anchor : Nat) (register : Option Str)
  | insertAt (cursor : Cursor) (register : Option Str)

/-- A hunk with its payload rows, as it is when the next one starts. -/
structure Pending where
  target : BlockTarget
  lineNum : Nat
  payloads : List Str
  hadColon : Bool

/-- What a section is read as: hunks, and rows of a snapshot that stand for a replacement. -/
inductive Row
  | hunk (pending : Pending)
  | snapshot (line : Nat) (value : Str) (lineNum : Nat)

inductive Reason
  | invalidRange
  | wideRange
  | colonOnRegisterPut
  | colonlessSpanPut
  | emptyInsert
  | overlap (line : Nat) (prior : Option Nat)
  | unresolvedBlock
  | singleLineBlock
  | outOfRange
  | emptyPaste
  | ambiguousPaste
  | missingLine (line : Nat)

/-- A failure at a line of the section. -/
structure Failure where
  lineNum : Nat
  reason : Reason

structure Executor where
  edits : List Edit
  editIndex : Nat

namespace Executor

def push (executor : Executor) (edit : Nat → Edit) : Executor where
  edits := executor.edits ++ [edit executor.editIndex]
  editIndex := min (executor.editIndex + 1) (2 ^ 32 - 1)

def pushInserts (executor : Executor) (cursor : Cursor) (texts : List Str) (lineNum : Nat)
    (replacement : Bool) : Executor :=
  texts.foldl (fun executor text => executor.push (.insert cursor text lineNum · replacement none)) executor

def pushDeleteRange (executor : Executor) (range : ParsedRange) (lineNum : Nat) : Executor :=
  range.lines.foldl (fun executor line => executor.push (.delete line lineNum ·)) executor

def pushCut (executor : Executor) (range : ParsedRange) (register : Option Str) (lineNum : Nat) :
    Executor :=
  (executor.push (.cut range register lineNum ·)).pushDeleteRange range lineNum

def pushPaste (executor : Executor) (target : PasteTarget) (register : Option Str) (lineNum : Nat) :
    Executor :=
  executor.push (.paste target register lineNum · none)

def pushBlock (executor : Executor) (anchor : Nat) (payloads : List Str) (mode : Option BlockMode)
    (register : Option Str) (lineNum : Nat) : Executor :=
  executor.push (.block anchor payloads mode register lineNum ·)

/-- The checks of a hunk header. -/
def checkTarget (target : BlockTarget) (hadColon : Bool) (lineNum : Nat) : Except Failure Unit := do
  let checkRange (range : ParsedRange) : Except Failure Unit :=
    if range.stop < range.start then .error ⟨lineNum, .invalidRange⟩
    else if range.stop - range.start + 1 > 100000 then .error ⟨lineNum, .wideRange⟩
    else .ok ()
  let checkColon (register : Option Str) : Except Failure Unit :=
    if hadColon && register.isSome then .error ⟨lineNum, .colonOnRegisterPut⟩ else .ok ()
  match target with
  | .replace range register | .cut range register => do
    checkRange range
    checkColon register
  | .block _ register | .cutBlock _ register | .insertAfterBlock _ register | .insertAt _ register =>
    checkColon register

def flushPending (executor : Executor) (pending : Pending) : Except Failure Executor :=
  let line := pending.lineNum
  match pending.target with
  | .cut range register => .ok (executor.pushCut range register line)
  | .cutBlock anchor register => .ok (executor.pushBlock anchor [] (some .cut) register line)
  | .replace range register =>
    if register.isSome then .ok (executor.pushPaste (.span range) register line)
    else if pending.payloads.isEmpty then
      if pending.hadColon then .ok (executor.pushDeleteRange range line)
      else .error ⟨line, .colonlessSpanPut⟩
    else
      .ok ((executor.pushInserts (.beforeAnchor range.start) pending.payloads line true).pushDeleteRange
        range line)
  | .block anchor register =>
    if register.isSome then .ok (executor.pushBlock anchor [] none register line)
    else if pending.payloads.isEmpty then
      if pending.hadColon then .ok (executor.pushBlock anchor [] none none line)
      else .error ⟨line, .colonlessSpanPut⟩
    else .ok (executor.pushBlock anchor pending.payloads none none line)
  | .insertAfterBlock anchor register =>
    if register.isSome || !pending.hadColon && pending.payloads.isEmpty then
      .ok (executor.pushBlock anchor [] (some .pasteAfter) register line)
    else if pending.payloads.isEmpty then .error ⟨line, .emptyInsert⟩
    else .ok (executor.pushBlock anchor pending.payloads (some .insertAfter) none line)
  | .insertAt cursor register =>
    if register.isSome || !pending.hadColon && pending.payloads.isEmpty then
      .ok (executor.pushPaste (.gap cursor) register line)
    else if pending.payloads.isEmpty then .error ⟨line, .emptyInsert⟩
    else .ok (executor.pushInserts cursor pending.payloads line false)

def readRow (executor : Executor) : Row → Except Failure Executor
  | .hunk pending => do
    checkTarget pending.target pending.hadColon pending.lineNum
    executor.flushPending pending
  | .snapshot line value lineNum =>
    .ok ((executor.pushInserts (.beforeAnchor line) [value] lineNum true).pushDeleteRange
      ⟨line, line⟩ lineNum)

end Executor

/-! ### Overlaps -/

/-- What `normalize_overlaps` knows of the hunk on one line of the section. -/
structure Hunk where
  lines : OrdMap Nat Unit := ∅
  clipboard : Bool := false

def Hunk.target (hunk : Hunk) (lines : List Nat) : Hunk where
  lines := lines.foldl (fun set line => set.insert line ()) hunk.lines
  clipboard := hunk.clipboard

def collectHunk (hunks : OrdMap Nat Hunk) (edit : Edit) : OrdMap Nat Hunk :=
  let hunk := (hunks.get? edit.lineNum).getD {}
  match edit with
  | .cut _ _ lineNum _ => hunks.insert lineNum { hunk with clipboard := true }
  | .paste (.span range) _ lineNum _ _ =>
    hunks.insert lineNum { hunk.target range.lines with clipboard := true }
  | .delete line lineNum _ => hunks.insert lineNum (hunk.target [line])
  | _ => hunks

/-- Which hunk owns a source line, and the hunks that a repeat replaces. -/
structure Owners where
  owner : Nat → Option Nat
  dropped : List Nat

def Owners.take (owners : Owners) (lines : List Nat) (lineNum : Nat) : Owners :=
  { owners with owner := fun line => if line ∈ lines then some lineNum else owners.owner line }

def Owners.drop (owners : Owners) (lineNum : Nat) : Owners where
  owner line := (owners.owner line).filter (· ≠ lineNum)
  dropped := lineNum :: owners.dropped

def claimHunk (hunks : OrdMap Nat Hunk) (owners : Owners) (entry : Nat × Hunk) : Except Failure Owners :=
  let (lineNum, hunk) := entry
  let lines := hunk.lines.entries.map Prod.fst
  let taken := lines.filterMap owners.owner
  match taken.dedup with
  | [] => .ok (owners.take lines lineNum)
  | [previous] =>
    if (hunks.get? previous).any fun old => !old.clipboard && decide (old.lines = hunk.lines) then
      .ok ((owners.drop previous).take lines lineNum)
    else .error ⟨lineNum, .overlap ((lines.find? fun line => (owners.owner line).isSome).getD 0) (some previous)⟩
  | _ => .error ⟨lineNum, .overlap ((lines.find? fun line => (owners.owner line).isSome).getD 0) none⟩

def normalizeOverlaps (edits : List Edit) : Except Failure (List Edit) := do
  let hunks := edits.foldl collectHunk ∅
  let owners ← hunks.entries.foldlM (claimHunk hunks) ⟨fun _ => none, []⟩
  return edits.filter fun edit => !owners.dropped.contains edit.lineNum

/-- The edits of a section that parses. -/
def parseSection (rows : List Row) : Except Failure (List Edit) := do
  let executor ← rows.foldlM Executor.readRow ⟨[], 0⟩
  normalizeOverlaps executor.edits

/-! ## Lowering -/

structure BlockSpan where
  start : Nat
  stop : Nat

def BlockSpan.range (span : BlockSpan) : ParsedRange := ⟨span.start, span.stop⟩

/-- Edits with consecutive indices. -/
def numbered (edits : List (Nat → Edit)) (index : Nat) : List Edit :=
  edits.zipIdx.map fun edit => edit.1 (index + edit.2)

/-- The edits that a resolved block operation stands for. -/
def lowerBlock (span : BlockSpan) (payloads : List Str) (mode : Option BlockMode) (register : Option Str)
    (lineNum : Nat) : List (Nat → Edit) :=
  match mode with
  | some .pasteAfter =>
    [(.paste (.gap (.afterAnchor span.stop)) register lineNum · (some span.start))]
  | some .cut =>
    (.cut span.range register lineNum ·) :: span.range.lines.map fun line => (.delete line lineNum ·)
  | some .insertAfter =>
    payloads.map fun text => (.insert (.afterAnchor span.stop) text lineNum · false (some span.start))
  | none =>
    if register.isSome then [(.paste (.span span.range) register lineNum · none)]
    else
      payloads.map (fun text => (.insert (.beforeAnchor span.start) text lineNum · true none)) ++
        span.range.lines.map fun line => (.delete line lineNum ·)

/-- What becomes of an operation after a block that is not found. -/
def lowerUnresolved (anchor : Nat) (payloads : List Str) (mode : Option BlockMode)
    (register : Option Str) (lineNum : Nat) : Except Failure (List (Nat → Edit)) :=
  match mode with
  | some .pasteAfter => .ok [(.paste (.gap (.afterAnchor anchor)) register lineNum · none)]
  | some .insertAfter =>
    .ok (payloads.map fun text => (.insert (.afterAnchor anchor) text lineNum · false none))
  | _ => .error ⟨lineNum, .unresolvedBlock⟩

def lowerBlockEdit (resolver : Nat → Option BlockSpan) (anchor : Nat) (payloads : List Str)
    (mode : Option BlockMode) (register : Option Str) (lineNum : Nat) :
    Except Failure (List (Nat → Edit)) :=
  match resolver anchor with
  | none => lowerUnresolved anchor payloads mode register lineNum
  | some span =>
    if span.start = span.stop then .error ⟨lineNum, .singleLineBlock⟩
    else .ok (lowerBlock span payloads mode register lineNum)

/-- `resolve_block_edits`, which rejects what it cannot resolve; indices are given anew to the edits that
stand for a block. -/
def resolveBlockEdits (resolver : Nat → Option BlockSpan) : Nat → List Edit → Except Failure (List Edit)
  | _, [] => .ok []
  | synth, .block anchor payloads mode register lineNum _ :: edits => do
    let lowered ← lowerBlockEdit resolver anchor payloads mode register lineNum
    let rest ← resolveBlockEdits resolver (synth + lowered.length) edits
    return numbered lowered synth ++ rest
  | synth, edit :: edits => do
    let rest ← resolveBlockEdits resolver synth edits
    return edit :: rest

structure Clipboard where
  lines : Option (List Str)
  named : Str → Option (List Str)
  pendingAnonCuts : Nat

def writeRegister (fileLines : List Str) (range : ParsedRange) (register : Option Str) (lineNum : Nat)
    (clipboard : Clipboard) : Except Failure Clipboard :=
  if range.start = 0 || range.stop > fileLines.length then .error ⟨lineNum, .outOfRange⟩
  else
    let captured := (fileLines.take range.stop).drop (range.start - 1)
    match register with
    | some register =>
      .ok { clipboard with named := fun name => if name = register then some captured else clipboard.named name }
    | none =>
      .ok { clipboard with lines := some captured, pendingAnonCuts := clipboard.pendingAnonCuts + 1 }

def readRegister (register : Option Str) (span : Bool) (lineNum : Nat) (clipboard : Clipboard) :
    Except Failure (List Str × Clipboard) :=
  match register with
  | some register =>
    match clipboard.named register with
    | some lines => .ok (lines, clipboard)
    | none => if span then .error ⟨lineNum, .emptyPaste⟩ else .ok ([], clipboard)
  | none =>
    if clipboard.pendingAnonCuts > 1 then .error ⟨lineNum, .ambiguousPaste⟩
    else
      match clipboard.lines with
      | none => .error ⟨lineNum, .emptyPaste⟩
      | some lines => .ok (lines, { clipboard with pendingAnonCuts := 0 })

/-- The edits that a paste stands for. -/
def lowerPaste (target : PasteTarget) (texts : List Str) (lineNum : Nat) (blockStart : Option Nat) :
    List (Nat → Edit) :=
  match target with
  | .gap cursor => texts.map fun text => (.insert cursor text lineNum · false blockStart)
  | .span range =>
    texts.map (fun text => (.insert (.beforeAnchor range.start) text lineNum · true none)) ++
      range.lines.map fun line => (.delete line lineNum ·)

def checkSpan (fileLines : List Str) (target : PasteTarget) (lineNum : Nat) : Except Failure Unit :=
  match target with
  | .gap _ => .ok ()
  | .span range =>
    if range.start = 0 || range.stop > fileLines.length then .error ⟨lineNum, .outOfRange⟩ else .ok ()

/-- `resolve_clipboard_edits`, which rejects an empty paste. -/
def resolveClipboardEdits (fileLines : List Str) : Nat → Clipboard → List Edit → Except Failure (List Edit)
  | _, _, [] => .ok []
  | synth, clipboard, .cut range register lineNum _ :: edits => do
    let clipboard ← writeRegister fileLines range register lineNum clipboard
    resolveClipboardEdits fileLines synth clipboard edits
  | synth, clipboard, .paste target register lineNum _ blockStart :: edits => do
    let span := match target with
      | .span _ => true
      | .gap _ => false
    let (texts, clipboard) ← readRegister register span lineNum clipboard
    checkSpan fileLines target lineNum
    let lowered := lowerPaste target texts lineNum blockStart
    let rest ← resolveClipboardEdits fileLines (synth + lowered.length) clipboard edits
    return numbered lowered synth ++ rest
  | synth, clipboard, edit :: edits => do
    let rest ← resolveClipboardEdits fileLines synth clipboard edits
    return edit :: rest

/-- The line after the last line break, when nothing stands on it. -/
def phantomLine (fileLines : List Str) : Option Nat :=
  if fileLines.length > 1 && fileLines.getLast? = some [] then some fileLines.length else none

def Edit.anchors : Edit → List Nat
  | .delete line _ _ => [line]
  | .insert (.beforeAnchor line) _ _ _ _ _ => [line]
  | .insert (.afterAnchor line) _ _ _ _ _ => [line]
  | _ => []

/-- The edits of single lines that `apply_edits` carries out on the lines of a file, before it looks
for slips of indentation and repeated boundary lines. -/
def lowerEdits (resolver : Nat → Option BlockSpan) (fileLines : List Str) (clipboard : Clipboard)
    (edits : List Edit) : Except Failure (List Edit) := do
  let resolved ← resolveBlockEdits resolver 0 edits
  let concrete ← resolveClipboardEdits fileLines 0 clipboard resolved
  let target := concrete.filter fun edit =>
    match edit with
    | .delete line _ _ => phantomLine fileLines ≠ some line
    | _ => true
  match target.find? fun edit => edit.anchors.any fun line => line < 1 || line > fileLines.length with
  | some edit => .error ⟨edit.lineNum, .missingLine (edit.anchors.headD 0)⟩
  | none => .ok target

end OhMyPi.Hashline
