import OhMyPi.Lib.Except
import OhMyPi.Lib.Splice

/-! Rebasing byte edits of an older revision onto the head. A diff of the two revisions gives regions
that are equal in both; an edit is carried along with a region whose bytes occur exactly once in
either revision. -/

namespace OhMyPi.Docserver.Rebase

open Splice

/-- A buffer: no allocation is larger than `isize::MAX` bytes. -/
structure Bytes where
  data : List UInt8
  bounded : data.length < 2 ^ 63

namespace Bytes

instance : DecidableEq Bytes := fun a b =>
  decidable_of_iff (a.data = b.data) ⟨fun h => by cases a; cases h; rfl, congrArg data⟩

theorem ext {a b : Bytes} (h : a.data = b.data) : a = b := by
  cases a
  cases h
  rfl

def empty : Bytes := ⟨[], by decide⟩

end Bytes

structure ByteRange where
  start : Nat
  stop : Nat
  ordered : start ≤ stop
deriving DecidableEq

def ByteRange.isEmpty (range : ByteRange) : Bool := range.start == range.stop

structure ByteEdit where
  range : ByteRange
  replacement : Bytes
deriving DecidableEq

inductive Error
  | invalidRange (start stop upperBound : Nat)
  | invalidContent (reason : String)
deriving DecidableEq, Repr

structure AppliedEdits where
  content : List UInt8
  changedRanges : List (Nat × Nat)
deriving DecidableEq, Repr

/-! ## Edit lists -/

def ByteRange.validate (range : ByteRange) (upperBound : Nat) : Except Error Unit :=
  if upperBound < range.stop then .error (.invalidRange range.start range.stop upperBound)
  else .ok ()

def byteIdenticalDuplicate (previous edit : ByteEdit) : Bool :=
  !edit.range.isEmpty && previous = edit

/-- The loop of `validate_edits`, behind `previous`. -/
def validateFrom (baseLen : Nat) : Option ByteEdit → List ByteEdit → Except Error Unit
  | _, [] => .ok ()
  | previous, edit :: edits => do
    edit.range.validate baseLen
    match previous with
    | none => validateFrom baseLen (some edit) edits
    | some prior =>
      if byteIdenticalDuplicate prior edit then validateFrom baseLen previous edits
      else if edit.range.start ≤ prior.range.start || edit.range.start < prior.range.stop then
        .error (.invalidContent
          "byte edits must be sorted, non-overlapping, and have distinct starts")
      else validateFrom baseLen (some edit) edits

def validateEdits (baseLen : Nat) (edits : List ByteEdit) : Except Error Unit :=
  validateFrom baseLen none edits

def uniqueFrom : Option ByteEdit → List ByteEdit → List ByteEdit
  | _, [] => []
  | previous, edit :: edits =>
    if previous.any fun prior => byteIdenticalDuplicate prior edit then uniqueFrom previous edits
    else edit :: uniqueFrom (some edit) edits

def uniqueEdits (edits : List ByteEdit) : List ByteEdit := uniqueFrom none edits

/-! ## Applying edits at their offsets -/

def usizeLimit : Nat := 2 ^ 64

/-- The checked length of the result. A mapped edit is a patch of the text it is applied to. -/
def finalLength : Nat → List (Patch UInt8) → Except Error Nat
  | length, [] => .ok length
  | length, edit :: edits =>
    if edit.stop < edit.start then .error (.invalidContent "mapped edit range was reversed")
    else if length < edit.stop - edit.start ∨
        usizeLimit ≤ length - (edit.stop - edit.start) + edit.text.length then
      .error (.invalidContent "edited content length overflowed usize")
    else finalLength (length - (edit.stop - edit.start) + edit.text.length) edits

/-- The loop of `apply_mapped`: the output and the ranges so far, up to `cursor` in the text. -/
def copyMapped (base : List UInt8) :
    Nat → AppliedEdits → List (Patch UInt8) → Except Error AppliedEdits
  | cursor, done, [] => .ok { done with content := done.content ++ base.drop cursor }
  | cursor, done, edit :: edits =>
    if edit.start < cursor ∨ base.length < edit.stop then
      .error (.invalidContent "mapped edits were out of bounds or overlapping")
    else
      let kept := done.content ++ (base.drop cursor).take (edit.start - cursor)
      copyMapped base edit.stop
        { content := kept ++ edit.text
          changedRanges := done.changedRanges ++ [(kept.length, kept.length + edit.text.length)] }
        edits

def applyMapped (base : List UInt8) (edits : List (Patch UInt8)) : Except Error AppliedEdits :=
  if edits.isEmpty then .ok ⟨base, []⟩
  else do
    let length ← finalLength base.length edits
    let applied ← copyMapped base 0 ⟨[], []⟩ edits
    if applied.content.length ≠ length then
      .error (.invalidContent "edited content length did not match its checked size")
    else return applied

/-- The edit at its own offsets. -/
def ByteEdit.mapped (edit : ByteEdit) (target : Nat × Nat) : Patch UInt8 :=
  ⟨target.1, target.2, edit.replacement.data⟩

def applyEdits (base : Bytes) (edits : List ByteEdit) : Except Error AppliedEdits := do
  validateEdits base.data.length edits
  applyMapped base.data
    ((uniqueEdits edits).map fun edit => edit.mapped (edit.range.start, edit.range.stop))

/-! ## Rebasing -/

/-- An operation of the diff. -/
inductive DiffOp
  | equal (oldIndex newIndex len : Nat)
  | delete (oldIndex oldLen newIndex : Nat)
  | insert (oldIndex newIndex newLen : Nat)
  | replace (oldIndex oldLen newIndex newLen : Nat)
deriving DecidableEq, Repr

structure EqualRegion where
  baseStart : Nat
  baseEnd : Nat
  headStart : Nat
  headEnd : Nat
  unique : Bool
deriving DecidableEq, Repr

/-- `haystack.windows(needle.len())` that equal the needle, counted. -/
def occurrences (haystack needle : List UInt8) : Nat :=
  ((List.range (haystack.length + 1 - needle.length)).filter fun i =>
    (haystack.drop i).take needle.length = needle).length

def occursOnce (haystack needle : List UInt8) : Bool :=
  if needle.isEmpty || haystack.length < needle.length then false
  else occurrences haystack needle == 1

/-- The regions of a diff. Its sums do not overflow, as they lie within the texts. -/
def equalRegions (base head : List UInt8) : List DiffOp → List EqualRegion
  | [] => []
  | .equal oldIndex newIndex len :: ops =>
    let bytes := (base.drop oldIndex).take len
    { baseStart := oldIndex
      baseEnd := oldIndex + len
      headStart := newIndex
      headEnd := newIndex + len
      unique := occursOnce base bytes && occursOnce head bytes } :: equalRegions base head ops
  | _ :: ops => equalRegions base head ops

/-- The place of an insertion, when the region carries it. -/
def EqualRegion.mapPoint (region : EqualRegion) (baseLen headLen start : Nat) :
    Option (Nat × Nat) :=
  if !region.unique || start < region.baseStart || region.baseEnd < start then none
  else
    let interior : Bool := region.baseStart < start && start < region.baseEnd
    let documentStart : Bool := start == 0 && region.baseStart == 0 && region.headStart == 0
    let documentEnd : Bool :=
      start == baseLen && region.baseEnd == baseLen && region.headEnd == headLen
    let mapped := region.headStart + (start - region.baseStart)
    if interior || documentStart || documentEnd then some (mapped, mapped) else none

/-- The place of a range, when the region carries it. -/
def EqualRegion.mapSpan (region : EqualRegion) (start stop : Nat) : Option (Nat × Nat) :=
  if !region.unique || start < region.baseStart || region.baseEnd < stop then none
  else
    some (region.headStart + (start - region.baseStart),
      region.headStart + (stop - region.baseStart))

def mapRange (range : ByteRange) (base head : List UInt8) (regions : List EqualRegion) :
    Option (Nat × Nat) :=
  if range.start = range.stop then
    regions.findSome? fun region => region.mapPoint base.length head.length range.start
  else regions.findSome? fun region => region.mapSpan range.start range.stop

/-- The conflicts of a list of edits, one for equal neighbours. -/
def conflictsFrom (place : ByteEdit → Option (Nat × Nat)) :
    List ByteRange → List ByteEdit → List ByteRange
  | conflicts, [] => conflicts
  | conflicts, edit :: edits =>
    if (place edit).isSome then conflictsFrom place conflicts edits
    else if conflicts.getLast? ≠ some edit.range then
      conflictsFrom place (conflicts ++ [edit.range]) edits
    else conflictsFrom place conflicts edits

/-- `rebase_edits`, with the operations that the diff of `base` and `head` returns. The inner error
is the conflict. -/
def rebaseEdits (base head : Bytes) (ops : List DiffOp) (edits : List ByteEdit) :
    Except Error (Except (List ByteRange) AppliedEdits) := do
  validateEdits base.data.length edits
  if base = head then return .ok (← applyEdits head edits)
  else
    let regions := equalRegions base.data head.data ops
    let place := fun edit : ByteEdit => mapRange edit.range base.data head.data regions
    let mapped := (uniqueEdits edits).filterMap fun edit => (place edit).map edit.mapped
    let conflicts := conflictsFrom place [] (uniqueEdits edits)
    if conflicts.isEmpty then return .ok (← applyMapped head.data mapped)
    else return .error conflicts

end OhMyPi.Docserver.Rebase
