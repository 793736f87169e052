import OhMyPi.Edit.Fuzzy
import OhMyPi.Lib.Splice
import OhMyPi.Lib.Substitute

/-! Replacing every occurrence of a text (`replace_text` with `all`). Where the text does not stand
exactly, the loop asks for one match after the other and keeps the search away from those it has. -/

namespace OhMyPi.Edit

open Text Substitute

structure Replacement where
  start : Nat
  stop : Nat
  text : List Char
deriving DecidableEq, Repr

structure ReplaceResult where
  content : List Char
  count : Nat
deriving DecidableEq, Repr

section

variable (A : Arith) (nfc : List Char → List Char)

/-- A call of `replace_text` behind the normalization of its texts. -/
structure ReplaceCall where
  content : List Char
  old : List Char
  new : List Char
  fuzzy : Bool
  threshold : A.F

variable {A}

namespace ReplaceCall

/-- The match that a round of the loop takes. -/
def next (call : ReplaceCall A) (replacements : List Replacement) : Option (FuzzyMatch A.F) :=
  let outcome := findMatch A nfc call.content call.old call.fuzzy call.threshold
    (replacements.map fun r => ⟨r.start, r.stop⟩)
  let shouldUseClosest := call.fuzzy &&
    outcome.closest.any (fun m => A.le call.threshold m.confidence) &&
    outcome.fuzzyMatches.all (· ≤ 1)
  outcome.matched.or (if shouldUseClosest then outcome.closest else none)

/-- What a match becomes. The range of an empty one is a byte long, unless the content ends there. -/
def replacement (call : ReplaceCall A) (m : FuzzyMatch A.F) : Replacement where
  start := m.startIndex
  stop := min (m.startIndex + max (byteLen m.actualText) 1) (byteLen call.content)
  text := adjustIndentation call.old m.actualText call.new

/-- The loop, for a bounded number of rounds. -/
def loop (call : ReplaceCall A) : Nat → List Replacement → Option (List Replacement)
  | 0, _ => none
  | fuel + 1, replacements =>
    match call.next nfc replacements with
    | none => some replacements
    | some m =>
      if (call.replacement m).text = m.actualText then some replacements
      else call.loop fuel (replacements ++ [call.replacement m])

end ReplaceCall

/-- The output from `source` on, none where a slice panics. -/
def assemble (content : List Char) : Nat → List Replacement → Option (List Char)
  | source, [] => slice content source (byteLen content)
  | source, r :: rest => do
    let kept ← slice content source r.start
    let tail ← assemble content r.stop rest
    return kept ++ r.text ++ tail

/-- `replace_text` with `all`, for a bounded number of rounds. -/
def ReplaceCall.run (call : ReplaceCall A) (fuel : Nat) : Option ReplaceResult :=
  let exactCount := (matchIndices call.old 0 0 call.content).length
  if 0 < exactCount then some ⟨replaceAll call.old call.new call.content, exactCount⟩
  else do
    let replacements ← call.loop nfc fuel []
    let sorted := replacements.insertionSort fun a b => a.start ≤ b.start
    let output ← assemble call.content 0 sorted
    return ⟨output, replacements.length⟩

/-- The call with its texts normalized. -/
def replaceCall (content oldText newText : List Char) (fuzzy : Bool) (threshold : Option A.F) :
    ReplaceCall A where
  content := normalizeToLf content
  old := normalizeToLf oldText
  new := normalizeToLf newText
  fuzzy := fuzzy
  threshold := threshold.getD (A.lit (95 / 100))

/-- `replace_text` with `all`. -/
def replaceTextAll (content oldText newText : List Char) (fuzzy : Bool) (threshold : Option A.F)
    (fuel : Nat) : Option (Except EditError ReplaceResult) :=
  if oldText.isEmpty then some (.error (.apply "oldText must not be empty."))
  else ((replaceCall content oldText newText fuzzy threshold).run nfc fuel).map .ok

end

end OhMyPi.Edit
