import OhMyPi.Lib.Except
import OhMyPi.Lib.Framing
import OhMyPi.Journal.Entry
import OhMyPi.Journal.Json

/-! Raw Server-Sent Events framing (`journal/src/sse.rs`): the frame writer, the block reader over
a buffered stream, and the frame parser. The committing boundary is the blank line after a
frame. -/

namespace OhMyPi

abbrev Bytes := List UInt8

/-- A text's byte length, `str::len`. -/
def strLen (s : String) : Nat := (Text.bytes s).length

namespace Sse

open Text (isEol)

def dataHardCap : Nat := 2 ^ 20

def frameOverheadCap : Nat := 64 * 2 ^ 10

/-- Largest legal frame, committing blank line included. -/
def frameHardCap : Nat := dataHardCap + frameOverheadCap

inductive SseError where
  | missingId
  | missingEvent
  | missingData
  | invalidUtf8
  | invalidId (source : UlidParseError)
  | invalidCause (source : UlidParseError)
  | invalidPrior (source : UlidParseError)
  | invalidKind (source : KindError)
  | unknownKind (kind : Kind)
  | invalidData
  | multilineData
  | multilineLabel
  | dataTooLarge (len : Nat)
  | frameTooLarge (limit : Nat)
deriving DecidableEq

section

variable (json : SerdeJson)

/-- `validate_data`. -/
def validateData (data : String) : Except SseError Unit :=
  if strLen data > dataHardCap then .error (.dataTooLarge (strLen data))
  else if data.toList.any isEol then .error .multilineData
  else if !json.ignoredAny data then .error .invalidData
  else .ok ()

/-- `validate_label`. -/
def validateLabel (label : Option String) : Except SseError Unit :=
  if label.any (·.toList.any isEol) then .error .multilineLabel else .ok ()

/-- The lines of a frame before the committing blank one, in canonical field order. -/
def frameLines (entry : Entry) : List (List Char) :=
  (entry.label.map fun label => ": ".toList ++ label.toList).toList ++
  ["event: ".toList ++ entry.kind.display.toList] ++
  ["id: ".toList ++ entry.id.encode] ++
  (entry.by_.map fun by_ => "by: ".toList ++ by_.encode).toList ++
  (entry.prior.map fun prior => "prior: ".toList ++ prior.encode).toList ++
  ["data: ".toList ++ entry.data.toList]

/-- The text `encode` writes for an entry. -/
def frameText (entry : Entry) : List Char :=
  ((frameLines entry).map (· ++ ['\n'])).flatten ++ ['\n']

def frameBytes (entry : Entry) : Bytes := (frameText entry).flatMap String.utf8EncodeChar

/-- `encode`: the output with the frame appended. On failure the output is left as it was. -/
def encode (entry : Entry) (output : Bytes) : Except SseError Bytes := do
  validateLabel entry.label
  validateData json entry.data
  if !entry.kind.isKnown then .error (.unknownKind entry.kind)
  else if (frameBytes entry).length > frameHardCap then .error (.frameTooLarge frameHardCap)
  else .ok (output ++ frameBytes entry)

/-! ## Reading blocks -/

/-- How reading one block from a stream ended. -/
inductive Block where
  | complete
  | torn
  | end_
  | tooLarge
deriving DecidableEq, Repr

/-- A buffered stream: the nonempty buffers that successive `fill_buf` calls find, however the
underlying file happens to deliver its bytes. -/
structure Reader where
  chunks : List Bytes
  nonempty : ∀ c ∈ chunks, c ≠ []

namespace Reader

/-- Every byte still to be read. -/
def bytes (r : Reader) : Bytes := r.chunks.flatten

/-- `fill_buf`: what is buffered, empty only at the end of the stream. -/
def fillBuf (r : Reader) : Bytes := r.chunks.headD []

/-- `consume`. -/
def consume (r : Reader) (n : Nat) : Reader where
  chunks := match r.chunks with
    | [] => []
    | c :: cs => if n < c.length then c.drop n :: cs else cs
  nonempty := by
    intro c hc
    split at hc
    · cases hc
    · next d ds hds =>
      have hmem : ∀ e ∈ ds, e ≠ [] := fun e he => r.nonempty e (by simp [hds, he])
      split at hc
      · next hlt =>
        rcases List.mem_cons.1 hc with rfl | hc
        · rw [ne_eq, List.drop_eq_nil_iff]
          omega
        · exact hmem c hc
      · exact hmem c hc

end Reader

def newline : UInt8 := 10

def carriageReturn : UInt8 := 13

/-- A line that commits a block. -/
def isBlank (line : Bytes) : Bool := line = [newline] || line = [carriageReturn, newline]

/-- The bytes `read_block` takes from the buffer: through the first newline, or all of it. -/
def takeLine (available : Bytes) : Nat × Bool :=
  match available.idxOf? newline with
  | some index => (index + 1, true)
  | none => (available.length, false)

theorem takeLine_pos (h : available ≠ []) : 0 < (takeLine available).1 := by
  rw [takeLine]
  split
  · exact Nat.succ_pos _
  · exact List.length_pos_iff.2 h

theorem Reader.fillBuf_eq_nil {r : Reader} : r.fillBuf = [] ↔ r.bytes = [] := by
  obtain ⟨chunks, hne⟩ := r
  cases chunks with
  | nil => simp [fillBuf, bytes]
  | cons c cs => simp [fillBuf, bytes, hne c (by simp)]

theorem Reader.bytes_consume {r : Reader} (hn : n ≤ r.fillBuf.length) :
    (r.consume n).bytes = r.bytes.drop n := by
  obtain ⟨chunks, hne⟩ := r
  cases chunks with
  | nil => simp [consume, bytes]
  | cons c cs =>
    replace hn : n ≤ c.length := hn
    simp only [consume, bytes, List.flatten_cons]
    split
    · rw [List.flatten_cons, List.drop_append_of_le_length hn]
    · rw [List.drop_append, List.drop_eq_nil_of_le (by omega), show n - c.length = 0 by omega]
      rfl

theorem takeLine_le (available : Bytes) : (takeLine available).1 ≤ available.length := by
  rw [takeLine]
  split
  · next h => exact (List.idxOf?_eq_some_iff.1 h).1
  · exact le_rfl

theorem Reader.fillBuf_append {r : Reader} :
    ∃ rest, r.bytes = r.fillBuf ++ rest := by
  obtain ⟨chunks, hne⟩ := r
  cases chunks with
  | nil => exact ⟨[], rfl⟩
  | cons c cs => exact ⟨cs.flatten, rfl⟩

/-- The loop of `read_block`: `block` is what has been copied, `lineStart` where its current
line begins. The cap is checked before each line is copied. -/
def readBlockFrom (reader : Reader) (block : Bytes) (lineStart : Nat) : Block × Bytes × Reader :=
  if _h : reader.fillBuf = [] then (if block = [] then .end_ else .torn, block, reader)
  else if (takeLine reader.fillBuf).1 > frameHardCap - block.length then (.tooLarge, block, reader)
  else if (takeLine reader.fillBuf).2 then
    let block' := block ++ reader.fillBuf.take (takeLine reader.fillBuf).1
    if isBlank (block'.drop lineStart) then
      (.complete, block', reader.consume (takeLine reader.fillBuf).1)
    else readBlockFrom (reader.consume (takeLine reader.fillBuf).1) block' block'.length
  else readBlockFrom (reader.consume (takeLine reader.fillBuf).1)
    (block ++ reader.fillBuf.take (takeLine reader.fillBuf).1) lineStart
termination_by reader.bytes.length
decreasing_by
  all_goals
    have hpos := takeLine_pos _h
    have hle := takeLine_le reader.fillBuf
    obtain ⟨rest, hrest⟩ := reader.fillBuf_append
    rw [Reader.bytes_consume hle, List.length_drop, hrest, List.length_append]
    omega

/-- `read_block`: the next block of the stream and what is left of the stream. -/
def readBlock (reader : Reader) : Block × Bytes × Reader := readBlockFrom reader [] 0

/-! ## Parsing frames -/

/-- The fields `parse_frame` collects while it walks the lines of a frame. -/
structure Fields where
  id : Option EntryId := none
  kind : Option Kind := none
  by_ : Option EntryId := none
  prior : Option EntryId := none
  label : Option String := none
  data : Option String := none

/-- One line of a frame. -/
def parseLine (line : List Char) (fields : Fields) : Except SseError Fields :=
  match line with
  | ':' :: comment =>
    .ok (if fields.label.isNone then
      { fields with label := some (String.ofList (Text.stripOne ' ' comment)) } else fields)
  | _ =>
    match Text.splitOnce ':' line with
    | none => .ok fields
    | some (field, value) =>
      let value := Text.stripOne ' ' value
      if field = "id".toList then
        match Ulid.fromStr value with
        | .ok id => .ok { fields with id := some id }
        | .error source => .error (.invalidId source)
      else if field = "event".toList then
        match Kind.fromStr value with
        | .ok kind => .ok { fields with kind := some kind }
        | .error source => .error (.invalidKind source)
      else if field = "by".toList then
        match Ulid.fromStr value with
        | .ok by_ => .ok { fields with by_ := some by_ }
        | .error source => .error (.invalidCause source)
      else if field = "prior".toList then
        match Ulid.fromStr value with
        | .ok prior => .ok { fields with prior := some prior }
        | .error source => .error (.invalidPrior source)
      else if field = "data".toList then
        -- A repeated data field continues the payload on a new line.
        .ok { fields with data := match fields.data with
          | some existing => some (existing ++ "\n" ++ String.ofList value)
          | none => some (String.ofList value) }
      else .ok fields

/-- The lines of a frame up to the committing blank one. -/
def parseLines : List (List Char) → Fields → Except SseError Fields
  | [], fields => .ok fields
  | line :: rest, fields =>
    if line = [] then .ok fields
    else match parseLine line fields with
      | .ok fields => parseLines rest fields
      | .error e => .error e

/-- The checks `parse_frame` makes once every line has been read. -/
def Fields.finish (fields : Fields) : Except SseError Entry :=
  match fields.data with
  | none => .error .missingData
  | some data =>
    if strLen data > dataHardCap then .error (.dataTooLarge (strLen data))
    else if !json.ignoredAny data then .error .invalidData
    else match fields.kind with
      | none => .error .missingEvent
      | some kind =>
        if !kind.isKnown then .error (.unknownKind kind)
        else match fields.id with
          | none => .error .missingId
          | some id => .ok { id, kind, by_ := fields.by_, prior := fields.prior,
                             label := fields.label, data }

/-- `parse_frame`. -/
def parseFrame (raw : Bytes) : Except SseError Entry :=
  match Text.fromUtf8 raw with
  | none => .error .invalidUtf8
  | some text =>
    match parseLines (Text.lines text.toList) {} with
    | .ok fields => fields.finish json
    | .error e => .error e

end

end Sse

end OhMyPi
