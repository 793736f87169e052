import OhMyPi.Edit.Files
import OhMyPi.Journal.Json
import OhMyPi.Lib.Except
import OhMyPi.Lib.KeyedList

/-! The notebook codec (`edit/src/notebook.rs`): cells projected onto an editable text with one
marker line a cell, and edited text applied to the notebook it was read from. -/

namespace OhMyPi.Edit

open Text KeyedList

/-- Notebook decode and encode failures. -/
inductive NotebookError where
  | invalidJson (display : String)
  | notObject (display : String)
  | missingCells (display : String)
  | invalidCell (index : Nat) (display : String)
  | invalidEditableText (display : String)
deriving DecidableEq

/-- The model-facing text. -/
def NotebookError.message : NotebookError → String
  | invalidJson display => "Invalid JSON in notebook: " ++ display
  | notObject display => "Invalid notebook structure (expected object): " ++ display
  | missingCells display => "Invalid notebook structure (missing cells array): " ++ display
  | invalidCell index display => "Invalid notebook cell " ++ toString index ++ " in " ++ display
  | invalidEditableText display => "Invalid notebook editable representation for " ++ display ++
      ": expected first line to be \"# %% [code] cell:0\", \"# %% [markdown] cell:0\", or " ++
      "\"# %% [raw] cell:0\"."

inductive NotebookCellType where
  | code
  | markdown
  | raw
deriving DecidableEq

namespace NotebookCellType

def parse (value : String) : Option NotebookCellType :=
  if value = "code" then some code
  else if value = "markdown" then some markdown
  else if value = "raw" then some raw
  else none

def asStr : NotebookCellType → String
  | code => "code"
  | markdown => "markdown"
  | raw => "raw"

end NotebookCellType

/-- One cell parsed from the editable text. -/
structure ParsedVirtualCell where
  cellType : NotebookCellType
  cellIndex : Option Nat
  source : List Char
deriving DecidableEq

/-- What the codec uses of `serde_json` and `regex`: reading a document, printing a number, and the
class `\d`, the decimal digits of all scripts. -/
structure Codec where
  parse : List Char → Option Json
  number : JsonNumber → List Char
  digit : Char → Bool
  /-- The ASCII digits are digits. -/
  digit_ascii : ∀ c : Char, c.isDigit = true → digit c = true

/-! ## Marker lines -/

/-- `usize::from_str` on decimal digits. -/
def parseUsize (digits : List Char) : Option Nat :=
  if !digits.isEmpty && digits.all Char.isDigit then
    let value := digits.foldl (fun v c => 10 * v + (c.toNat - 48)) 0
    if value < 18446744073709551616 then some value else none
  else none

/-- Drops a literal from the front. -/
def eat (literal : String) (text : List Char) : Option (List Char) :=
  if literal.toList.isPrefixOf text then some (text.drop literal.toList.length) else none

variable (codec : Codec)

/-- What may follow the type in a marker: nothing, or an index. -/
def markerIndex (text : List Char) : Option (Option (List Char)) :=
  if text.isEmpty then some none
  else
    match eat " cell:" text with
    | none => none
    | some digits => if !digits.isEmpty && digits.all codec.digit then some (some digits) else none

/-- A type in brackets, and the rest of a marker. -/
def markerType (cellType : NotebookCellType) (text : List Char) :
    Option (NotebookCellType × Option (List Char)) :=
  match eat (" [" ++ cellType.asStr ++ "]") text with
  | none => none
  | some rest => (markerIndex codec rest).map (cellType, ·)

/-- A line in the form of a marker: how many percent signs it has, its type and its index. -/
def markerLike (line : List Char) : Option (Nat × NotebookCellType × Option (List Char)) :=
  match eat "# " line with
  | none => none
  | some rest =>
    let percents := (rest.takeWhile (· = '%')).length
    ((markerType codec .code (rest.drop percents)).or
      ((markerType codec .markdown (rest.drop percents)).or
        (markerType codec .raw (rest.drop percents)))).map (percents, ·)

/-- `CELL_MARKER_RE`. -/
def cellMarker (line : List Char) : Option (NotebookCellType × Option (List Char)) :=
  match markerLike codec line with
  | some (percents, marker) => if percents = 2 then some marker else none
  | none => none

/-- `ESCAPABLE_MARKER_RE`. -/
def isEscapable (line : List Char) : Bool := (markerLike codec line).any (2 ≤ ·.1)

/-- `ESCAPED_MARKER_RE`. -/
def isEscaped (line : List Char) : Bool := (markerLike codec line).any (3 ≤ ·.1)

/-- One percent sign more, in a line that starts with `# %`. -/
def escapeLine (line : List Char) : List Char :=
  if isEscapable codec line then "# %%".toList ++ line.drop 3 else line

/-- `unescape_marker_like_line`. -/
def unescapeMarkerLikeLine (line : List Char) : List Char :=
  if isEscaped codec line then "# %".toList ++ line.drop 4 else line

/-- The lines of a text, as `split('\n')` gives them. -/
def splitLines (text : List Char) : List (List Char) := text.splitOn '\n'

def joinLines (lines : List (List Char)) : List Char := ['\n'].intercalate lines

/-- `escape_marker_like_source_lines`. -/
def escapeMarkerLikeSourceLines (source : List Char) : List Char :=
  if (find "# %%".toList source).isNone then source
  else joinLines ((splitLines source).map (escapeLine codec))

/-! ## Cells -/

/-- `split_notebook_source`. -/
def splitNotebookSource (content : List Char) : List (List Char) := splitInclusive '\n' content

/-- `source_to_text`. -/
def sourceToText : Option Json → List Char
  | some (.string source) => source.toList
  | some (.array lines) => (lines.filterMap Json.asStr).flatMap String.toList
  | _ => []

def sourceValue (source : List Char) : Json :=
  .array ((splitNotebookSource source).map fun line => .string (String.ofList line))

/-- The type of a cell that validates. -/
def cellTypeOf (cell : Json) : Option NotebookCellType :=
  match cell with
  | .object fields => ((first "cell_type" fields).bind Json.asStr).bind NotebookCellType.parse
  | _ => none

def validateCells (display : String) : List Json → Nat → Except NotebookError Unit
  | [], _ => .ok ()
  | cell :: cells, index =>
    if (cellTypeOf cell).isSome then validateCells display cells (index + 1)
    else .error (.invalidCell index display)

/-- `validate_notebook`: the fields and the cells of the notebook. -/
def validateNotebook (notebook : Json) (display : String) :
    Except NotebookError (List (String × Json) × List Json) :=
  match notebook with
  | .object fields =>
    match (first "cells" fields).bind Json.asArray with
    | none => .error (.missingCells display)
    | some cells => do
      validateCells display cells 0
      return (fields, cells)
  | _ => .error (.notObject display)

/-- The fields of a cell, and its type's text. -/
def cellFields : Json → List (String × Json)
  | .object fields => fields
  | _ => []

def cellTypeText (cell : Json) : List Char :=
  ((first "cell_type" (cellFields cell)).bind Json.asStr).elim [] String.toList

/-- The marker line of a cell. -/
def markerLine (cellType : List Char) (index : Nat) : List Char :=
  "# %% [".toList ++ cellType ++ "] cell:".toList ++ (toString index).toList

/-- One cell of the editable text. -/
def cellText (cell : Json) (index : Nat) : List Char :=
  let source := escapeMarkerLikeSourceLines codec (sourceToText (first "source" (cellFields cell)))
  if source.isEmpty then markerLine (cellTypeText cell) index
  else markerLine (cellTypeText cell) index ++ '\n' :: source

def editableText (cells : List Json) : List Char :=
  joinLines ((cells.zipIdx).map fun p => cellText codec p.1 p.2)

/-- `notebook_to_editable_text`. -/
def notebookToEditableText (json : List Char) (display : String) :
    Except NotebookError (List Char) :=
  match codec.parse (stripBom json).2 with
  | none => .error (.invalidJson display)
  | some notebook => do
    let (_, cells) ← validateNotebook notebook display
    return editableText codec cells

/-- The cell under way while the text is parsed. -/
abbrev CurrentCell := NotebookCellType × Option Nat × List (List Char)

def CurrentCell.finish (current : CurrentCell) : ParsedVirtualCell :=
  { cellType := current.1, cellIndex := current.2.1, source := joinLines current.2.2 }

/-- The loop of `parse_notebook_editable_text`. -/
def parseLines (display : String) : List (List Char) → Option CurrentCell → List ParsedVirtualCell →
    Except NotebookError (List ParsedVirtualCell)
  | [], current, cells => .ok (cells ++ (current.map CurrentCell.finish).toList)
  | line :: lines, current, cells =>
    match cellMarker codec line with
    | some (cellType, index) =>
      parseLines display lines (some (cellType, index.bind parseUsize, []))
        (cells ++ (current.map CurrentCell.finish).toList)
    | none =>
      match current with
      | some (cellType, index, source) =>
        parseLines display lines (some (cellType, index, source ++ [unescapeMarkerLikeLine codec line]))
          cells
      | none => .error (.invalidEditableText display)

/-- `parse_notebook_editable_text`. -/
def parseNotebookEditableText (text : List Char) (display : String) :
    Except NotebookError (List ParsedVirtualCell) :=
  parseLines codec display (if text.isEmpty then [] else splitLines text) none []

/-- `create_notebook_cell`. -/
def createNotebookCell (cellType : NotebookCellType) (source : List Char) : Json :=
  .object ([("cell_type", .string cellType.asStr), ("metadata", .object []),
    ("source", sourceValue source)] ++
      if cellType = .code then [("execution_count", .null), ("outputs", .array [])] else [])

def createEmptyNotebook : Json :=
  .object [("cells", .array []), ("metadata", .object []), ("nbformat", .number (.posInt 4)),
    ("nbformat_minor", .number (.posInt 5))]

/-- `is_none_or(Value::is_null)`. -/
def isAbsent : Option Json → Bool
  | none => true
  | some .null => true
  | some _ => false

/-- The fields of an original cell with the type and source of its edited form. -/
def updateCell (fields : List (String × Json)) (parsed : ParsedVirtualCell) : List (String × Json) :=
  let fields := assign "cell_type" (.string parsed.cellType.asStr) fields
  let fields := assign "source" (sourceValue parsed.source) fields
  if parsed.cellType = .code then
    let fields := if isAbsent (first "execution_count" fields) then
      assign "execution_count" .null fields else fields
    if isAbsent (first "outputs" fields) then assign "outputs" (.array []) fields else fields
  else swapRemove "outputs" (swapRemove "execution_count" fields)

/-- The loop of `apply_notebook_editable_text`; `used` holds the original cells taken so far. -/
def nextCells (originals : List Json) : List Nat → List ParsedVirtualCell → List Json
  | _, [] => []
  | used, parsed :: rest =>
    match parsed.cellIndex.filter fun index => index < originals.length && !used.contains index with
    | some index =>
      .object (updateCell (cellFields (originals.getD index .null)) parsed) ::
        nextCells originals (index :: used) rest
    | none => createNotebookCell parsed.cellType parsed.source :: nextCells originals used rest

/-- `apply_notebook_editable_text`. -/
def applyNotebookEditableText (notebook : Json) (text : List Char) (display : String) :
    Except NotebookError Json := do
  let (fields, originals) ← validateNotebook notebook display
  let parsed ← parseNotebookEditableText codec text display
  return .object (assign "cells" (.array (nextCells originals [] parsed)) fields)

/-! ## Serialization -/

/-- `write!("\\u{:04x}")`. -/
def unicodeEscape (n : Nat) : List Char :=
  ['\\', 'u', Nat.digitChar (n / 4096 % 16), Nat.digitChar (n / 256 % 16),
    Nat.digitChar (n / 16 % 16), Nat.digitChar (n % 16)]

def writeJsonChar (c : Char) : List Char :=
  if c = '"' then ['\\', '"']
  else if c = '\\' then ['\\', '\\']
  else if c.toNat = 8 then ['\\', 'b']
  else if c.toNat = 12 then ['\\', 'f']
  else if c = '\n' then ['\\', 'n']
  else if c = '\r' then ['\\', 'r']
  else if c = '\t' then ['\\', 't']
  else if c.toNat ≤ 31 then unicodeEscape c.toNat
  else [c]

/-- `write_json_string`. -/
def writeJsonString (value : String) : List Char :=
  '"' :: value.toList.flatMap writeJsonChar ++ ['"']

def indent (depth : Nat) : List Char := List.replicate depth ' '

mutual

/-- `write_json_value`. -/
def writeJsonValue (depth : Nat) : Json → List Char
  | .null => "null".toList
  | .bool b => if b then "true".toList else "false".toList
  | .number n => codec.number n
  | .string text => writeJsonString text
  | .array [] => "[]".toList
  | .array (value :: values) =>
    "[\n".toList ++ writeJsonValues depth (value :: values) ++ indent depth ++ [']']
  | .object [] => ['\x7b', '\x7d']
  | .object (field :: fields) =>
    ['\x7b', '\n'] ++ writeJsonFields depth (field :: fields) ++ indent depth ++ ['\x7d']

def writeJsonValues (depth : Nat) : List Json → List Char
  | [] => []
  | [value] => indent (depth + 1) ++ writeJsonValue (depth + 1) value ++ ['\n']
  | value :: values =>
    indent (depth + 1) ++ writeJsonValue (depth + 1) value ++ [',', '\n'] ++
      writeJsonValues depth values

def writeJsonFields (depth : Nat) : List (String × Json) → List Char
  | [] => []
  | [(key, value)] =>
    indent (depth + 1) ++ writeJsonString key ++ ": ".toList ++ writeJsonValue (depth + 1) value ++
      ['\n']
  | (key, value) :: fields =>
    indent (depth + 1) ++ writeJsonString key ++ ": ".toList ++ writeJsonValue (depth + 1) value ++
      [',', '\n'] ++ writeJsonFields depth fields

end

/-- `stringify_indent1`. -/
def stringifyIndent1 (value : Json) : List Char := writeJsonValue codec 0 value

/-- `serialize_edited_notebook_text`. -/
def serializeEditedNotebookText (originalJson : Option (List Char)) (text : List Char)
    (display : String) : Except NotebookError (List Char) := do
  let notebook ← match originalJson with
    | some json =>
      match codec.parse (stripBom json).2 with
      | none => .error (.invalidJson display)
      | some notebook => .ok notebook
    | none => .ok createEmptyNotebook
  let next ← applyNotebookEditableText codec notebook text display
  return stringifyIndent1 codec next

/-- The model-facing form of a failure. -/
def messaged {α : Type} : Except NotebookError α → Except String α
  | .ok a => .ok a
  | .error e => .error e.message

/-- A host whose notebooks go through the codec. -/
def Host.withNotebooks (host : Host) : Host :=
  { host with
    notebookToEditableText := fun raw display => messaged (Edit.notebookToEditableText codec raw display)
    serializeEditedNotebookText := fun json text display =>
      messaged (Edit.serializeEditedNotebookText codec json text display) }

end OhMyPi.Edit
