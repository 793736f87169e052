import OhMyPi.Lib.Lossy

/-! Files as the edit engines see them. A read decodes the bytes, strips the byte order mark and
normalizes the line endings; persisting puts back the mark and one style of line ending. -/

namespace OhMyPi.Edit

open Text

/-! ## Text shape -/

/-- Line-ending style of a file. -/
inductive LineEnding where
  | lf
  | crLf
deriving DecidableEq, Repr

/-- The terminator for this style. -/
def LineEnding.asStr : LineEnding → List Char
  | .lf => ['\n']
  | .crLf => ['\r', '\n']

/-- `str::find`, counted in characters: offsets are only compared. -/
def find (pat : List Char) : List Char → Option Nat
  | [] => if pat = [] then some 0 else none
  | c :: cs => if pat.isPrefixOf (c :: cs) then some 0 else (find pat cs).map (· + 1)

/-- The first line ending style in the content, LF when neither is present. -/
def detectLineEnding (content : List Char) : LineEnding :=
  match find ['\n'] content with
  | none => .lf
  | some lf =>
    match find ['\r', '\n'] content with
    | some crlf => if crlf < lf then .crLf else .lf
    | none => .lf

/-- The loop of `normalizeToLf`. -/
def replaceCr : List Char → List Char
  | [] => []
  | '\r' :: '\n' :: rest => '\n' :: replaceCr rest
  | '\r' :: rest => '\n' :: replaceCr rest
  | c :: rest => c :: replaceCr rest

/-- Every `"\r\n"` and lone `'\r'` becomes `'\n'`. -/
def normalizeToLf (text : List Char) : List Char :=
  if '\r' ∉ text then text else replaceCr text

/-- LF text with the requested line ending. -/
def restoreLineEndings (text : List Char) : LineEnding → List Char
  | .lf => text
  | .crLf => text.flatMap fun c => if c = '\n' then ['\r', '\n'] else [c]

def bom : List Char := [Char.ofNat 0xFEFF]

/-- Splits off a leading byte order mark. -/
def stripBom (content : List Char) : List Char × List Char :=
  if bom.isPrefixOf content then (bom, content.drop bom.length) else ([], content)

/-! ## Reads -/

inductive EditError where
  | apply (message : String)
  | io (path : String)
deriving DecidableEq

structure Resolved where
  absolute : String
  display : String
deriving DecidableEq

/-- What a read asks of the notebook codec, the path policy and the file system. -/
structure Host where
  isNotebookPath : String → Bool
  notebookToEditableText : List Char → String → Except String (List Char)
  serializeEditedNotebookText : Option (List Char) → List Char → String → Except String (List Char)
  autoGeneratedMessage : String → List UInt8 → Option String
  canonicalKey : String → String

/-- One target file as read plus its normalized editable form. -/
structure FileRead where
  resolved : Resolved
  canonical : String
  raw : List Char
  bom : List Char
  ending : LineEnding
  text : List Char
  isNotebook : Bool

structure Stamp where
  mtime : Option Nat
  len : Nat
deriving DecidableEq

inductive ReadResult where
  | bytes (bytes : List UInt8)
  | notFound
  | failed

/-- A file: its stamp, and what reading it gives. -/
structure DiskFile where
  stamp : Stamp
  content : ReadResult

/-- Reads cached by path. -/
structure FileCache where
  reads : String → Option (Stamp × FileRead) := fun _ => none

/-- What `readResolved` makes of the bytes of a file. -/
def Host.load (host : Host) (resolved : Resolved) (bytes : List UInt8) : Except EditError FileRead :=
  match host.autoGeneratedMessage resolved.display (bytes.take 1024) with
  | some message => .error (.apply message)
  | none =>
    let raw := lossy bytes
    let canonical := host.canonicalKey resolved.absolute
    if host.isNotebookPath resolved.absolute then
      match host.notebookToEditableText raw resolved.display with
      | .error message => .error (.apply message)
      | .ok editable =>
        .ok { resolved, canonical, raw, bom := [], ending := .lf, text := normalizeToLf editable
              isNotebook := true }
    else
      let (bom, body) := stripBom raw
      .ok { resolved, canonical, raw, bom, ending := detectLineEnding (stripBom raw).2
            text := normalizeToLf body, isNotebook := false }

namespace FileCache

/-- Reads a resolved target, none when it does not exist. -/
def readResolved (cache : FileCache) (host : Host) (disk : String → Option DiskFile)
    (resolved : Resolved) : Except EditError (Option FileRead × FileCache) :=
  match disk resolved.absolute with
  | none => .ok (none, cache)
  | some file =>
    let fresh : Except EditError (Option FileRead × FileCache) :=
      match file.content with
      | .notFound => .ok (none, cache)
      | .failed => .error (.io resolved.absolute)
      | .bytes bytes =>
        match host.load resolved bytes with
        | .error e => .error e
        | .ok read => .ok (some read, { reads := fun path =>
            if path = resolved.absolute then some (file.stamp, read) else cache.reads path })
    match cache.reads resolved.absolute with
    | some (stamp, read) =>
      if stamp = file.stamp ∧ read.resolved.display = resolved.display then .ok (some read, cache)
      else fresh
    | none => fresh

/-- Drops every cached read, as the session does before it applies an edit. -/
def clear (_ : FileCache) : FileCache := {}

end FileCache

/-- LF-normalized post-edit text as the file persists with it. -/
def FileRead.persist (read : FileRead) (host : Host) (afterLf : List Char) :
    Except EditError (List Char) :=
  if read.isNotebook then
    match host.serializeEditedNotebookText (some read.raw) afterLf read.resolved.display with
    | .error message => .error (.apply message)
    | .ok out => .ok out
  else .ok (read.bom ++ restoreLineEndings afterLf read.ending)

/-! ## Lines -/

/-- How a line of a file ends. -/
inductive Terminator where
  | missing
  | lf
  | crLf
  | cr
deriving DecidableEq, Repr

namespace Terminator

def chars : Terminator → List Char
  | missing => []
  | lf => ['\n']
  | crLf => ['\r', '\n']
  | cr => ['\r']

/-- The terminator after normalization. -/
def normalized : Terminator → List Char
  | missing => []
  | _ => ['\n']

/-- The terminator after an edit is persisted. -/
def restored (ending : LineEnding) : Terminator → List Char
  | missing => []
  | _ => ending.asStr

def bytes (t : Terminator) : List UInt8 := t.chars.flatMap String.utf8EncodeChar

end Terminator

/-- A line of a file, with what stands before its terminator. -/
structure FileLine where
  content : List UInt8
  terminator : Terminator
deriving DecidableEq

def FileLine.bytes (line : FileLine) : List UInt8 := line.content ++ line.terminator.bytes

/-- The lines of a file: each ends in LF, CRLF or CR, but possibly the last. -/
def fileLines : List UInt8 → List FileLine
  | [] => []
  | 10 :: rest => ⟨[], .lf⟩ :: fileLines rest
  | 13 :: 10 :: rest => ⟨[], .crLf⟩ :: fileLines rest
  | 13 :: rest => ⟨[], .cr⟩ :: fileLines rest
  | b :: rest =>
    match fileLines rest with
    | [] => [⟨[b], .missing⟩]
    | line :: lines => ⟨b :: line.content, line.terminator⟩ :: lines

/-- The lines of an LF text, each with its `'\n'`. -/
def textLines (text : List Char) : List (List Char) := splitInclusive '\n' text

/-- The editable form of a line. -/
def FileLine.text (line : FileLine) : List Char := lossy line.content ++ line.terminator.normalized

/-- No line breaks in the bytes. -/
def NoEol (content : List UInt8) : Prop := ∀ b ∈ content, b ≠ 10 ∧ b ≠ 13

theorem noEol_nil : NoEol [] := fun _ hb => absurd hb List.not_mem_nil

theorem noEol_cons {b : UInt8} {content : List UInt8} :
    NoEol (b :: content) ↔ (b ≠ 10 ∧ b ≠ 13) ∧ NoEol content := List.forall_mem_cons

/-- A terminator and what may stand after it. -/
structure Ends (terminator : Terminator) (rest : List UInt8) : Prop where
  ne_missing : terminator ≠ .missing
  head_ne : terminator = .cr → rest.head? ≠ some 10

/-- A file is a single line without a terminator, or starts with a terminated one. -/
theorem exists_line (b : List UInt8) : NoEol b ∨ ∃ content terminator rest,
    NoEol content ∧ Ends terminator rest ∧ b = content ++ (terminator.bytes ++ rest) := by
  induction b with
  | nil => exact .inl noEol_nil
  | cons x b ih =>
    by_cases hlf : x = 10
    · exact .inr ⟨[], .lf, b, noEol_nil, ⟨by simp, by simp⟩, by rw [hlf]; rfl⟩
    by_cases hcr : x = 13
    · cases b with
      | nil => exact .inr ⟨[], .cr, [], noEol_nil, ⟨by simp, by simp⟩, by rw [hcr]; rfl⟩
      | cons y b =>
        by_cases hy : y = 10
        · exact .inr ⟨[], .crLf, b, noEol_nil, ⟨by simp, by simp⟩, by rw [hcr, hy]; rfl⟩
        · exact .inr ⟨[], .cr, y :: b, noEol_nil, ⟨by simp, by simpa using hy⟩, by rw [hcr]; rfl⟩
    rcases ih with h | ⟨content, terminator, rest, hcontent, hends, rfl⟩
    · exact .inl (noEol_cons.2 ⟨⟨hlf, hcr⟩, h⟩)
    · exact .inr ⟨x :: content, terminator, rest, noEol_cons.2 ⟨⟨hlf, hcr⟩, hcontent⟩, hends, rfl⟩

/-- Files are read line by line. -/
theorem line_induction {P : List UInt8 → Prop} (nil : P [])
    (last : ∀ content, NoEol content → content ≠ [] → P content)
    (line : ∀ content terminator rest, NoEol content → Ends terminator rest → P rest →
      P (content ++ (terminator.bytes ++ rest)))
    (b : List UInt8) : P b := by
  induction b using WellFounded.induction (measure List.length).wf with
  | _ b ih =>
    rcases exists_line b with h | ⟨content, terminator, rest, hcontent, hends, rfl⟩
    · cases b with
      | nil => exact nil
      | cons x b => exact last _ h (List.cons_ne_nil x b)
    · apply line content terminator rest hcontent hends
      apply ih
      have hpos : 0 < terminator.bytes.length := by
        cases terminator with
        | missing => exact absurd rfl hends.ne_missing
        | lf => decide
        | crLf => decide
        | cr => decide
      change rest.length < (content ++ (terminator.bytes ++ rest)).length
      rw [List.length_append, List.length_append]
      omega

theorem fileLines_cons {b : UInt8} (hlf : b ≠ 10) (hcr : b ≠ 13) (rest : List UInt8) :
    fileLines (b :: rest) =
      match fileLines rest with
      | [] => [⟨[b], .missing⟩]
      | line :: lines => ⟨b :: line.content, line.terminator⟩ :: lines := by
  rw [fileLines]
  · exact hlf
  · rintro rest' h -
    exact hcr h
  · exact hcr

theorem fileLines_of_noEol {content : List UInt8} (h : NoEol content) (hne : content ≠ []) :
    fileLines content = [⟨content, .missing⟩] := by
  induction content with
  | nil => exact absurd rfl hne
  | cons b content ih =>
    obtain ⟨⟨hlf, hcr⟩, hcontent⟩ := noEol_cons.1 h
    rw [fileLines_cons hlf hcr]
    cases content with
    | nil => rfl
    | cons => rw [ih hcontent (List.cons_ne_nil _ _)]

theorem fileLines_line {content rest : List UInt8} {terminator : Terminator} (h : NoEol content)
    (hends : Ends terminator rest) :
    fileLines (content ++ (terminator.bytes ++ rest)) = ⟨content, terminator⟩ :: fileLines rest := by
  induction content with
  | nil =>
    cases terminator with
    | missing => exact absurd rfl hends.ne_missing
    | lf => rfl
    | crLf => rfl
    | cr =>
      cases rest with
      | nil => rfl
      | cons b rest =>
        have hb : b ≠ 10 := by simpa using hends.head_ne rfl
        change fileLines (13 :: b :: rest) = _
        rw [fileLines]
        intro rest' heq
        exact hb (List.cons.inj heq).1
  | cons b content ih =>
    obtain ⟨⟨hlf, hcr⟩, hcontent⟩ := noEol_cons.1 h
    rw [List.cons_append, fileLines_cons hlf hcr, ih hcontent]

theorem fileLines_bytes (b : List UInt8) : (fileLines b).flatMap FileLine.bytes = b := by
  induction b using line_induction with
  | nil => rfl
  | last content h hne =>
    rw [fileLines_of_noEol h hne]
    simp [FileLine.bytes, Terminator.bytes, Terminator.chars]
  | line content terminator rest h hends ih =>
    rw [fileLines_line h hends, List.flatMap_cons, ih, FileLine.bytes, List.append_assoc]

/-! ## Decoded lines -/

theorem NoEol.oneLine {content : List UInt8} (h : NoEol content) : OneLine (lossy content) := by
  intro c hc
  refine ⟨?_, ?_⟩
  · rintro rfl
    exact (h 10 (mem_of_mem_lossy (by decide) hc)).1 rfl
  · rintro rfl
    exact (h 13 (mem_of_mem_lossy (by decide) hc)).2 rfl

theorem lossy_line (content rest : List UInt8) (terminator : Terminator) :
    lossy (content ++ (terminator.bytes ++ rest)) =
      lossy content ++ (terminator.chars ++ lossy rest) ∨ terminator = .missing := by
  have hlf := fun a b => lossy_ascii (c := '\n') (by decide) a b
  have hcr := fun a b => lossy_ascii (c := '\r') (by decide) a b
  cases terminator with
  | missing => exact .inr rfl
  | lf => exact .inl (hlf content rest)
  | cr => exact .inl (hcr content rest)
  | crLf =>
    have hrest : lossy (10 :: rest) = '\n' :: lossy rest := by simpa using hlf [] rest
    refine .inl ((hcr content (10 :: rest)).trans ?_)
    rw [hrest]
    rfl

theorem Ends.normalized {terminator : Terminator} {rest : List UInt8} (h : Ends terminator rest) :
    terminator.normalized = ['\n'] := by
  cases terminator with
  | missing => exact absurd rfl h.ne_missing
  | lf => rfl
  | crLf => rfl
  | cr => rfl

/-- Characters that may follow a line. -/
theorem Ends.head_lossy {terminator : Terminator} {rest : List UInt8} (h : Ends terminator rest)
    (hcr : terminator = .cr) : (lossy rest).head? ≠ some '\n' := by
  intro hhead
  cases hrest : lossy rest with
  | nil =>
    rw [hrest] at hhead
    cases hhead
  | cons c cs =>
    rw [hrest] at hhead
    cases hhead
    obtain ⟨rest', rfl, -⟩ := lossy_eq_cons hrest (by decide)
    exact h.head_ne hcr rfl

theorem replaceCr_cons {c : Char} (hc : c ≠ '\r') (text : List Char) :
    replaceCr (c :: text) = c :: replaceCr text := by
  rw [replaceCr]
  · rintro rest rfl
    exact absurd rfl hc
  · exact hc

theorem replaceCr_append {l : List Char} (h : OneLine l) (text : List Char) :
    replaceCr (l ++ text) = l ++ replaceCr text := by
  induction l with
  | nil => rfl
  | cons c l ih =>
    obtain ⟨hc, hl⟩ := List.forall_mem_cons.1 h
    rw [List.cons_append, replaceCr_cons hc.2, ih hl, List.cons_append]

theorem replaceCr_terminator {terminator : Terminator} {rest : List UInt8}
    (h : Ends terminator rest) :
    replaceCr (terminator.chars ++ lossy rest) = '\n' :: replaceCr (lossy rest) := by
  cases terminator with
  | missing => exact absurd rfl h.ne_missing
  | lf => exact replaceCr_cons (by decide) _
  | crLf => rfl
  | cr =>
    have hhead := h.head_lossy rfl
    cases hrest : lossy rest with
    | nil => rfl
    | cons c cs =>
      rw [hrest] at hhead
      change replaceCr ('\r' :: c :: cs) = _
      rw [replaceCr]
      intro rest' heq
      obtain ⟨rfl, -⟩ := List.cons.inj heq
      exact hhead rfl

theorem normalizeToLf_eq (text : List Char) : normalizeToLf text = replaceCr text := by
  rw [normalizeToLf]
  split
  · next h =>
    induction text with
    | nil => rfl
    | cons c text ih =>
      rw [List.mem_cons, not_or] at h
      rw [replaceCr_cons (Ne.symm h.1), ← ih h.2]
  · rfl

/-- The lines of the normalized text are the lines of the file. -/
theorem textLines_normalizeToLf (b : List UInt8) :
    textLines (normalizeToLf (lossy b)) = (fileLines b).map FileLine.text := by
  rw [normalizeToLf_eq]
  induction b using line_induction with
  | nil => rw [lossy_nil]; rfl
  | last content h hne =>
    have hne' : lossy content ≠ [] := lossy_ne_nil hne
    have hreplace : replaceCr (lossy content) = lossy content := by
      simpa [replaceCr] using replaceCr_append h.oneLine []
    rw [hreplace, fileLines_of_noEol h hne, textLines,
      splitInclusive_of_not_mem h.oneLine.newline_not_mem hne', List.map_singleton, FileLine.text,
      Terminator.normalized, List.append_nil]
  | line content terminator rest h hends ih =>
    have hlossy := (lossy_line content rest terminator).resolve_right hends.ne_missing
    rw [hlossy, replaceCr_append h.oneLine, replaceCr_terminator hends, fileLines_line h hends,
      List.map_cons, ← ih]
    rw [FileLine.text, hends.normalized]
    exact splitInclusive_line h.oneLine.newline_not_mem _

/-! ## The style of a file -/

/-- The style that the first LF of a file shows. -/
def firstEnding : List FileLine → LineEnding
  | [] => .lf
  | line :: lines =>
    match line.terminator with
    | .lf => .lf
    | .crLf => .crLf
    | .cr | .missing => firstEnding lines

theorem find_append (pat : List Char) {l : List Char} (h : ∀ c ∈ l, pat.head? ≠ some c) (hpat : pat ≠ [])
    (text : List Char) : find pat (l ++ text) = (find pat text).map (· + l.length) := by
  induction l with
  | nil => simp
  | cons c l ih =>
    obtain ⟨hc, hl⟩ := List.forall_mem_cons.1 h
    have hstart : pat.isPrefixOf (c :: (l ++ text)) = false := by
      cases pat with
      | nil => exact absurd rfl hpat
      | cons d pat =>
        have hd : d ≠ c := fun heq => hc (by rw [heq]; rfl)
        simp [List.isPrefixOf, hd]
    rw [List.cons_append, find, hstart, ih hl]
    simp [Option.map_map, Function.comp_def, Nat.add_assoc]

theorem detectLineEnding_append {l : List Char} (h : OneLine l) (text : List Char) :
    detectLineEnding (l ++ text) = detectLineEnding text := by
  have hlf := find_append ['\n'] (l := l) (fun c hc => by simpa using (h c hc).1.symm)
    (by simp) text
  have hcr := find_append ['\r', '\n'] (l := l) (fun c hc => by simpa using (h c hc).2.symm)
    (by simp) text
  rw [detectLineEnding, detectLineEnding, hlf, hcr]
  cases find ['\n'] text with
  | none => rfl
  | some lf =>
    cases find ['\r', '\n'] text with
    | none => rfl
    | some crlf => simp

/-- A lone `'\r'` shows no style. -/
theorem detectLineEnding_cr {text : List Char} (h : text.head? ≠ some '\n') :
    detectLineEnding ('\r' :: text) = detectLineEnding text := by
  have hlf : find ['\n'] ('\r' :: text) = (find ['\n'] text).map (· + 1) := by
    rw [find, if_neg (by simp [List.isPrefixOf])]
  have hcr : find ['\r', '\n'] ('\r' :: text) = (find ['\r', '\n'] text).map (· + 1) := by
    rw [find, if_neg]
    cases text with
    | nil => simp [List.isPrefixOf]
    | cons c text =>
      have hc : '\n' ≠ c := fun heq => h (by rw [heq]; rfl)
      simp [List.isPrefixOf, hc]
  rw [detectLineEnding, detectLineEnding, hlf, hcr]
  cases find ['\n'] text with
  | none => rfl
  | some lf =>
    cases find ['\r', '\n'] text with
    | none => rfl
    | some crlf => simp

theorem detectLineEnding_lossy (b : List UInt8) :
    detectLineEnding (lossy b) = firstEnding (fileLines b) := by
  induction b using line_induction with
  | nil => rw [lossy_nil]; rfl
  | last content h hne =>
    have happend := detectLineEnding_append h.oneLine []
    rw [List.append_nil] at happend
    rw [happend, fileLines_of_noEol h hne]
    rfl
  | line content terminator rest h hends ih =>
    have hlossy := (lossy_line content rest terminator).resolve_right hends.ne_missing
    rw [hlossy, detectLineEnding_append h.oneLine, fileLines_line h hends]
    cases terminator with
    | missing => exact absurd rfl hends.ne_missing
    | lf =>
      have hlf : find ['\n'] ('\n' :: lossy rest) = some 0 := by simp [find]
      change detectLineEnding ('\n' :: lossy rest) = .lf
      rw [detectLineEnding, hlf]
      cases find ['\r', '\n'] ('\n' :: lossy rest) with
      | none => rfl
      | some crlf => simp
    | crLf =>
      have hlf : find ['\n'] ('\r' :: '\n' :: lossy rest) = some 1 := by simp [find]
      have hcrlf : find ['\r', '\n'] ('\r' :: '\n' :: lossy rest) = some 0 := by simp [find]
      change detectLineEnding ('\r' :: '\n' :: lossy rest) = .crLf
      rw [detectLineEnding, hlf, hcrlf]
      rfl
    | cr => exact (detectLineEnding_cr (hends.head_lossy rfl)).trans ih

/-! ## Persisted lines -/

theorem restoreLineEndings_append (s t : List Char) (ending : LineEnding) :
    restoreLineEndings (s ++ t) ending =
      restoreLineEndings s ending ++ restoreLineEndings t ending := by
  cases ending with
  | lf => rfl
  | crLf => exact List.flatMap_append

theorem restoreLineEndings_flatten (lines : List (List Char)) (ending : LineEnding) :
    restoreLineEndings lines.flatten ending =
      lines.flatMap (restoreLineEndings · ending) := by
  induction lines with
  | nil => cases ending <;> rfl
  | cons line lines ih =>
    rw [List.flatten_cons, restoreLineEndings_append, ih, List.flatMap_cons]

theorem restoreLineEndings_of_oneLine {l : List Char} (h : OneLine l) (ending : LineEnding) :
    restoreLineEndings l ending = l := by
  cases ending with
  | lf => rfl
  | crLf =>
    induction l with
    | nil => rfl
    | cons c l ih =>
      obtain ⟨hc, hl⟩ := List.forall_mem_cons.1 h
      have hrest := ih hl
      simp only [restoreLineEndings] at hrest ⊢
      rw [List.flatMap_cons, if_neg hc.1, hrest]
      rfl

theorem restoreLineEndings_text {line : FileLine} (h : NoEol line.content) (ending : LineEnding) :
    restoreLineEndings line.text ending =
      lossy line.content ++ line.terminator.restored ending := by
  have hterminator : restoreLineEndings line.terminator.normalized ending =
      line.terminator.restored ending := by
    cases line.terminator with
    | missing => cases ending <;> rfl
    | lf => cases ending <;> rfl
    | crLf => cases ending <;> rfl
    | cr => cases ending <;> rfl
  rw [FileLine.text, restoreLineEndings_append, restoreLineEndings_of_oneLine h.oneLine,
    hterminator]

theorem flatten_textLines (text : List Char) : (textLines text).flatten = text := by
  rw [textLines]
  induction text with
  | nil => rfl
  | cons c text ih =>
    rw [splitInclusive]
    split
    · rw [List.flatten_cons, ih]
      rfl
    · cases hlines : splitInclusive '\n' text with
      | nil =>
        rw [hlines] at ih
        rw [← ih]
        rfl
      | cons line lines =>
        rw [hlines] at ih
        rw [← ih]
        rfl

theorem noEol_of_mem_fileLines {b : List UInt8} {line : FileLine} (h : line ∈ fileLines b) :
    NoEol line.content := by
  induction b using line_induction with
  | nil => cases h
  | last content hcontent hne =>
    rw [fileLines_of_noEol hcontent hne] at h
    obtain rfl := List.mem_singleton.1 h
    exact hcontent
  | line content terminator rest hcontent hends ih =>
    rw [fileLines_line hcontent hends] at h
    rcases List.mem_cons.1 h with rfl | h
    · exact hcontent
    · exact ih h

/-! ## Edits -/

/-- The byte order mark and what stands after it. -/
def splitMark (b : List UInt8) : List UInt8 × List UInt8 :=
  match b with
  | 0xEF :: 0xBB :: 0xBF :: body => ([0xEF, 0xBB, 0xBF], body)
  | _ => ([], b)

theorem splitMark_of_not {b : List UInt8} (h : ¬ ∃ body, b = 0xEF :: 0xBB :: 0xBF :: body) :
    splitMark b = ([], b) := by
  rw [splitMark]
  rintro body rfl
  exact h ⟨body, rfl⟩

theorem utf8EncodeChar_bom : String.utf8EncodeChar (Char.ofNat 0xFEFF) = [0xEF, 0xBB, 0xBF] := by
  decide

theorem stripBom_lossy (b : List UInt8) :
    (stripBom (lossy b)).1.flatMap String.utf8EncodeChar = (splitMark b).1 ∧
      (stripBom (lossy b)).2 = lossy (splitMark b).2 := by
  by_cases h : ∃ body, b = 0xEF :: 0xBB :: 0xBF :: body
  · obtain ⟨body, rfl⟩ := h
    have hlossy := lossy_encode (Char.ofNat 0xFEFF) body
    rw [utf8EncodeChar_bom] at hlossy
    have hstrip : stripBom (lossy (0xEF :: 0xBB :: 0xBF :: body)) = (bom, lossy body) := by
      change stripBom (lossy ([0xEF, 0xBB, 0xBF] ++ body)) = _
      rw [hlossy, stripBom, if_pos (by simp [bom])]
      rfl
    rw [hstrip]
    exact ⟨by simp [bom, utf8EncodeChar_bom, splitMark], rfl⟩
  · have hstrip : stripBom (lossy b) = ([], lossy b) := by
      rw [stripBom, if_neg]
      intro hbom
      obtain ⟨text, htext⟩ := List.isPrefixOf_iff_prefix.1 hbom
      obtain ⟨body, hbody, -⟩ := lossy_eq_cons htext.symm (by decide)
      rw [utf8EncodeChar_bom] at hbody
      exact h ⟨body, hbody⟩
    rw [splitMark_of_not h, hstrip]
    exact ⟨rfl, rfl⟩

/-- An edit of an LF text, with the lines that it leaves unchanged: where each was and is now. -/
structure TextEdit (text : List Char) where
  after : List Char
  kept : List (Nat × Nat)
  ordered : kept.Pairwise fun p q => p.1 < q.1 ∧ p.2 < q.2
  unchanged : ∀ p ∈ kept, ∃ line,
    (textLines text)[p.1]? = some line ∧ (textLines after)[p.2]? = some line

/-- A line that is terminated, if at all, in the style. -/
def FileLine.InStyle (line : FileLine) (ending : LineEnding) : Prop :=
  line.terminator.restored ending = line.terminator.chars

instance FileLine.instDecidableInStyle (line : FileLine) (ending : LineEnding) :
    Decidable (line.InStyle ending) :=
  inferInstanceAs (Decidable (_ = _))

def IsUtf8 (content : List UInt8) : Prop := ∃ text, content = bytes text

/-- A line as it is persisted in another style. -/
def FileLine.restyled (ending : LineEnding) (line : FileLine) : List UInt8 :=
  line.content ++ (line.terminator.restored ending).flatMap String.utf8EncodeChar

/-- The bytes that a line of the edited text is persisted with. -/
def FileRead.persistedLine (read : FileRead) (line : List Char) : List UInt8 :=
  (restoreLineEndings line read.ending).flatMap String.utf8EncodeChar

section

variable {cache cache' : FileCache} {host : Host} {disk : String → Option DiskFile}
  {resolved : Resolved} {stamp : Stamp} {b : List UInt8} {read : FileRead}

/-- After the cache is cleared, a read is of the bytes on disk. -/
theorem readResolved_clear (hdisk : disk resolved.absolute = some ⟨stamp, .bytes b⟩)
    (hread : cache.clear.readResolved host disk resolved = .ok (some read, cache')) :
    host.load resolved b = .ok read := by
  rw [FileCache.readResolved, hdisk] at hread
  simp only [FileCache.clear] at hread
  cases hload : host.load resolved b with
  | error e =>
    rw [hload] at hread
    cases hread
  | ok read' =>
    rw [hload] at hread
    cases hread
    rfl

theorem load_plain (hplain : host.isNotebookPath resolved.absolute = false)
    (hload : host.load resolved b = .ok read) : read.isNotebook = false ∧
      read.bom.flatMap String.utf8EncodeChar = (splitMark b).1 ∧
      read.text = normalizeToLf (lossy (splitMark b).2) ∧
      read.ending = firstEnding (fileLines (splitMark b).2) := by
  obtain ⟨hmark, hbody⟩ := stripBom_lossy b
  rw [Host.load] at hload
  split at hload
  · cases hload
  · rw [hplain] at hload
    cases hload
    refine ⟨rfl, hmark, ?_, ?_⟩
    · exact congrArg normalizeToLf hbody
    · exact (congrArg detectLineEnding hbody).trans (detectLineEnding_lossy _)

theorem persist_plain (hplain : read.isNotebook = false) (after : List Char) :
    read.persist host after = .ok (read.bom ++ restoreLineEndings after read.ending) := by
  rw [FileRead.persist, hplain]
  rfl

/-- Persisted text is the mark and the persisted lines. -/
theorem bytes_persisted (read : FileRead) (after : List Char) :
    (read.bom ++ restoreLineEndings after read.ending).flatMap String.utf8EncodeChar =
      read.bom.flatMap String.utf8EncodeChar ++ (textLines after).flatMap read.persistedLine := by
  have hrestore := restoreLineEndings_flatten (textLines after) read.ending
  rw [flatten_textLines] at hrestore
  rw [List.flatMap_append, hrestore, List.flatMap_assoc]
  rfl

theorem persistedLine_text {line : FileLine} (hcontent : NoEol line.content)
    (hutf8 : IsUtf8 line.content) :
    read.persistedLine line.text = line.restyled read.ending := by
  obtain ⟨text, htext⟩ := hutf8
  have hlossy : (lossy line.content).flatMap String.utf8EncodeChar = line.content := by
    rw [htext, lossy_bytes]
    rfl
  rw [FileRead.persistedLine, restoreLineEndings_text hcontent, List.flatMap_append, hlossy]
  rfl

theorem restyled_eq_iff {line : FileLine} {ending : LineEnding} :
    line.restyled ending = line.bytes ↔ line.InStyle ending := by
  rw [FileLine.restyled, FileLine.bytes, List.append_cancel_left_eq, FileLine.InStyle]
  cases line.terminator with
  | missing => exact iff_of_true rfl rfl
  | lf => cases ending <;> decide
  | crLf => cases ending <;> decide
  | cr => cases ending <;> decide

theorem Ends.restored_eq {terminator : Terminator} {rest : List UInt8} (h : Ends terminator rest)
    {ending : LineEnding} {text : List UInt8}
    (heq : (terminator.restored ending).flatMap String.utf8EncodeChar ++ text =
      terminator.bytes ++ rest) :
    terminator.restored ending = terminator.chars ∧ text = rest := by
  have hlf : ∀ {x y : List UInt8}, (10 :: x : List UInt8) ≠ 13 :: y := by
    intro x y hxy
    exact absurd (List.cons.inj hxy).1 (by decide)
  cases terminator with
  | missing => exact absurd rfl h.ne_missing
  | lf =>
    cases ending with
    | lf => exact ⟨rfl, List.append_cancel_left heq⟩
    | crLf => exact absurd heq.symm hlf
  | crLf =>
    cases ending with
    | lf => exact absurd heq hlf
    | crLf => exact ⟨rfl, List.append_cancel_left heq⟩
  | cr =>
    cases ending with
    | lf => exact absurd heq hlf
    | crLf =>
      -- the CR would be followed by an LF
      have hcons : 13 :: 10 :: text = 13 :: rest := heq
      obtain rfl : 10 :: text = rest := (List.cons.inj hcons).2
      exact absurd rfl (h.head_ne rfl)

/-- Restyling changes a file unless all its lines are in the style. -/
theorem restyled_fileLines_iff (b : List UInt8) (ending : LineEnding) :
    (fileLines b).flatMap (FileLine.restyled ending) = b ↔
      ∀ line ∈ fileLines b, line.InStyle ending := by
  refine ⟨fun h => ?_, fun h => ?_⟩
  · induction b using line_induction with
    | nil => simp [fileLines]
    | last content hcontent hne =>
      rw [fileLines_of_noEol hcontent hne]
      intro line hline
      obtain rfl := List.mem_singleton.1 hline
      rfl
    | line content terminator rest hcontent hends ih =>
      rw [fileLines_line hcontent hends] at h ⊢
      rw [List.flatMap_cons, FileLine.restyled, List.append_assoc, List.append_cancel_left_eq] at h
      obtain ⟨hstyle, hrest⟩ := hends.restored_eq h
      exact List.forall_mem_cons.2 ⟨hstyle, ih hrest⟩
  · have hlines : (fileLines b).flatMap (FileLine.restyled ending) =
        (fileLines b).flatMap FileLine.bytes :=
      List.flatMap_congr fun line hline => restyled_eq_iff.2 (h line hline)
    rw [hlines, fileLines_bytes]

theorem splitMark_append (b : List UInt8) : (splitMark b).1 ++ (splitMark b).2 = b := by
  by_cases h : ∃ body, b = 0xEF :: 0xBB :: 0xBF :: body
  · obtain ⟨body, rfl⟩ := h
    rfl
  · rw [splitMark_of_not h]
    rfl

theorem textLines_load (hplain : host.isNotebookPath resolved.absolute = false)
    (hload : host.load resolved b = .ok read) :
    textLines read.text = (fileLines (splitMark b).2).map FileLine.text := by
  obtain ⟨-, -, htext, -⟩ := load_plain hplain hload
  rw [htext, textLines_normalizeToLf]

/-- Persisting the unedited text. -/
theorem persist_text (hplain : host.isNotebookPath resolved.absolute = false)
    (hload : host.load resolved b = .ok read)
    (hutf8 : ∀ line ∈ fileLines (splitMark b).2, IsUtf8 line.content) :
    ∃ out, read.persist host read.text = .ok out ∧ (out.flatMap String.utf8EncodeChar = b ↔
      ∀ line ∈ fileLines (splitMark b).2, line.InStyle (firstEnding (fileLines (splitMark b).2))) := by
  obtain ⟨hnotebook, hbom, -, hending⟩ := load_plain hplain hload
  refine ⟨_, persist_plain hnotebook _, ?_⟩
  have hflat : (textLines read.text).flatMap read.persistedLine =
      (fileLines (splitMark b).2).flatMap (FileLine.restyled read.ending) := by
    rw [textLines_load hplain hload, List.flatMap_map]
    exact List.flatMap_congr fun line hline =>
      persistedLine_text (noEol_of_mem_fileLines hline) (hutf8 line hline)
  rw [bytes_persisted, hbom, hflat, hending, ← restyled_fileLines_iff]
  exact ⟨fun h => List.append_cancel_left (h.trans (splitMark_append b).symm),
    fun h => by rw [h, splitMark_append]⟩

/-- A line that an edit leaves unchanged is persisted with its own bytes and the style of the file's
first LF, so with all its bytes exactly when it is in that style. The mark stays, and the unedited
text reproduces the file exactly when all lines are in the style. -/
theorem persist_unchanged_lines (hdisk : disk resolved.absolute = some ⟨stamp, .bytes b⟩)
    (hread : cache.clear.readResolved host disk resolved = .ok (some read, cache'))
    (hplain : host.isNotebookPath resolved.absolute = false) :
    let lines := fileLines (splitMark b).2
    let ending := firstEnding lines
    (∀ edit : TextEdit read.text, ∃ out, read.persist host edit.after = .ok out ∧
      out.flatMap String.utf8EncodeChar =
        (splitMark b).1 ++ (textLines edit.after).flatMap read.persistedLine ∧
      ∀ p ∈ edit.kept, ∃ line text, lines[p.1]? = some line ∧
        (textLines edit.after)[p.2]? = some text ∧ (IsUtf8 line.content →
          read.persistedLine text = line.restyled ending ∧
          (read.persistedLine text = line.bytes ↔ line.InStyle ending))) ∧
    ((∀ line ∈ lines, IsUtf8 line.content) → ∃ out, read.persist host read.text = .ok out ∧
      (out.flatMap String.utf8EncodeChar = b ↔ ∀ line ∈ lines, line.InStyle ending)) := by
  intro lines ending
  have hload := readResolved_clear hdisk hread
  obtain ⟨hnotebook, hbom, -, hending⟩ := load_plain hplain hload
  refine ⟨fun edit => ⟨_, persist_plain hnotebook _, ?_, ?_⟩, persist_text hplain hload⟩
  · rw [bytes_persisted, hbom]
  · intro p hp
    obtain ⟨text, hbefore, hafter⟩ := edit.unchanged p hp
    rw [textLines_load hplain hload, List.getElem?_map] at hbefore
    obtain ⟨line, hline, rfl⟩ := Option.map_eq_some_iff.1 hbefore
    refine ⟨line, _, hline, hafter, fun hutf8 => ?_⟩
    have hpersisted : read.persistedLine line.text = line.restyled ending := by
      rw [persistedLine_text (noEol_of_mem_fileLines (List.mem_of_getElem? hline)) hutf8, hending]
    exact ⟨hpersisted, by rw [hpersisted, restyled_eq_iff]⟩

end

/-- A host without notebooks that lets everything be edited. -/
def plainHost : Host where
  isNotebookPath _ := false
  notebookToEditableText raw _ := .ok raw
  serializeEditedNotebookText _ text _ := .ok text
  autoGeneratedMessage _ _ := none
  canonicalKey := id

def sampleTarget : Resolved := ⟨"/notes.txt", "notes.txt"⟩

/-- A disk with one file. -/
def diskWith (content : List UInt8) : String → Option DiskFile := fun path =>
  if path = "/notes.txt" then some ⟨⟨none, content.length⟩, .bytes content⟩ else none

theorem diskWith_sampleTarget (content : List UInt8) : diskWith content sampleTarget.absolute =
    some ⟨⟨none, content.length⟩, .bytes content⟩ := rfl

theorem exists_read (content : List UInt8) : ∃ read cache,
    ({} : FileCache).clear.readResolved plainHost (diskWith content) sampleTarget =
      .ok (some read, cache) :=
  ⟨_, _, rfl⟩

theorem isUtf8_of_decode {lines : List FileLine}
    (h : lines.all (fun line => (fromUtf8 line.content).isSome) = true) :
    ∀ line ∈ lines, IsUtf8 line.content := by
  intro line hline
  obtain ⟨text, htext⟩ := Option.isSome_iff_exists.1 (List.all_eq_true.1 h line hline)
  exact ⟨text, fromUtf8_eq_some htext⟩

theorem persist_unchanged_lines_crLf : ∃ read cache out,
    ({} : FileCache).clear.readResolved plainHost (diskWith [97, 13, 10, 98, 13, 10]) sampleTarget =
      .ok (some read, cache) ∧ read.persist plainHost read.text = .ok out ∧
      out.flatMap String.utf8EncodeChar = [97, 13, 10, 98, 13, 10] := by
  obtain ⟨read, cache, hread⟩ := exists_read [97, 13, 10, 98, 13, 10]
  obtain ⟨out, hout, hsame⟩ := (persist_unchanged_lines (diskWith_sampleTarget _) hread rfl).2
    (isUtf8_of_decode (by decide))
  exact ⟨read, cache, out, hread, hout, hsame.2 (by decide)⟩

/-- A file with both endings does not survive, even unedited. -/
theorem mixed_endings_rewritten : ∃ read cache out,
    ({} : FileCache).clear.readResolved plainHost (diskWith [97, 13, 10, 98, 10]) sampleTarget =
      .ok (some read, cache) ∧ read.persist plainHost read.text = .ok out ∧
      out.flatMap String.utf8EncodeChar ≠ [97, 13, 10, 98, 10] := by
  obtain ⟨read, cache, hread⟩ := exists_read [97, 13, 10, 98, 10]
  obtain ⟨out, hout, hsame⟩ := persist_text rfl
    (readResolved_clear (diskWith_sampleTarget _) hread) (isUtf8_of_decode (by decide))
  exact ⟨read, cache, out, hread, hout, fun h => absurd (hsame.1 h) (by decide)⟩

end OhMyPi.Edit
