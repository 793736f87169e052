import OhMyPi.Collab.Codec
import OhMyPi.Dispatch.HeadTail

/-! Reduction of payloads before they are sealed (`collab/replication.rs`). A value that is too large is
reduced with tighter and tighter caps, each time from the original; a reduction only cuts strings and arrays
short, and says so in their place. -/

namespace OhMyPi.Collab

open Text
open Dispatch (isCharBoundary isCharBoundary_iff)

def maxReplicatedPayloadBytes : Nat := 1024 * 1024

/-- The caps of the passes: the bytes of a string and the items of an array. -/
def shrinkPasses : List (Nat × Nat) :=
  [(64 * 1024, 256), (16 * 1024, 128), (4 * 1024, 64), (1024, 32), (256, 16), (256, 4), (64, 1)]

def stringElisionReserve : Nat := 80

inductive ReplicationError where
  | serialize
  | irreducible (actual limit : Nat)
deriving DecidableEq

/-- A bounded payload and the number of passes that were applied. -/
structure ReplicationPayload where
  value : Json
  passes : Nat

/-- The loop of `floor_char_boundary`. -/
def lowerToBoundary (text : List Char) : Nat → Nat
  | 0 => 0
  | boundary + 1 => if isCharBoundary text (boundary + 1) then boundary + 1 else lowerToBoundary text boundary

def floorCharBoundary (text : List Char) (requested : Nat) : Nat :=
  lowerToBoundary text (min requested (byteLen text))

/-- `&text[..stop]`, up to a character boundary. -/
def sliceTo : List Char → Nat → List Char
  | _, 0 => []
  | [], _ + 1 => []
  | c :: text, stop => c :: sliceTo text (stop - c.utf8Size)

/-- What stands for the end of a string. The bytes are counted. -/
def stringMarker (elided : Nat) : List Char :=
  "\n…[".toList ++ Nat.toDigits 10 elided ++ " chars elided for collab session]".toList

/-- What stands for the end of an array. -/
def arrayTrailer (elided : Nat) : Json :=
  .string (String.ofList ("…[".toList ++ Nat.toDigits 10 elided ++ " items elided for collab session]".toList))

mutual

/-- None when nothing changes. -/
def shrinkValue (stringCap arrayLimit : Nat) : Json → Option Json
  | .string text =>
    if stringCap < byteLen text.toList then
      let headLen := floorCharBoundary text.toList (stringCap - stringElisionReserve)
      some (.string (String.ofList
        (sliceTo text.toList headLen ++ stringMarker (byteLen text.toList - headLen))))
    else none
  | .array items =>
    let keep := min items.length arrayLimit
    let (output, changed) := shrinkItems stringCap arrayLimit keep items
    if keep < items.length then some (.array (output ++ [arrayTrailer (items.length - keep)]))
    else if changed then some (.array output)
    else none
  | .object fields => (shrinkFields stringCap arrayLimit [] none fields).map .object
  | _ => none

/-- The first items, and whether one of them has changed. -/
def shrinkItems (stringCap arrayLimit : Nat) : Nat → List Json → List Json × Bool
  | 0, _ => ([], false)
  | _, [] => ([], false)
  | keep + 1, item :: items =>
    let (output, changed) := shrinkItems stringCap arrayLimit keep items
    match shrinkValue stringCap arrayLimit item with
    | some reduced => (reduced :: output, true)
    | none => (item :: output, changed)

/-- The map is only copied once a field has changed. Its keys are distinct, so that insertions append. -/
def shrinkFields (stringCap arrayLimit : Nat) (seen : List (String × Json)) (output : Option (List (String × Json))) :
    List (String × Json) → Option (List (String × Json))
  | [] => output
  | (key, child) :: fields =>
    match shrinkValue stringCap arrayLimit child with
    | none =>
      shrinkFields stringCap arrayLimit (seen ++ [(key, child)]) (output.map (· ++ [(key, child)])) fields
    | some reduced =>
      shrinkFields stringCap arrayLimit (seen ++ [(key, child)]) (some (output.getD seen ++ [(key, reduced)])) fields

end

/-- `serde_json::to_vec` is third-party code. -/
abbrev ToVec := Json → Except ReplicationError Bytes

/-- The passes from one on, with the size that was found last. -/
def shrinkFrom (toVec : ToVec) (value : Json) (index finalSize : Nat) :
    List (Nat × Nat) → Except ReplicationError ReplicationPayload
  | [] => .error (.irreducible finalSize maxReplicatedPayloadBytes)
  | (stringCap, arrayLimit) :: passes =>
    match shrinkValue stringCap arrayLimit value with
    | none => shrinkFrom toVec value (index + 1) finalSize passes
    | some reduced => do
      let bytes ← toVec reduced
      if bytes.length ≤ maxReplicatedPayloadBytes then return ⟨reduced, index + 1⟩
      else shrinkFrom toVec value (index + 1) bytes.length passes

def shrinkForReplication (toVec : ToVec) (value : Json) : Except ReplicationError ReplicationPayload := do
  let initial ← toVec value
  if initial.length ≤ maxReplicatedPayloadBytes then return ⟨value, 0⟩
  else shrinkFrom toVec value 0 initial.length shrinkPasses

/-! ## What a reduction may do -/

mutual

/-- A value whose strings and arrays are cut short in places. -/
inductive Shrunk : Json → Json → Prop
  | same (value : Json) : Shrunk value value
  | string (head rest : List Char) : Shrunk (.string (String.ofList (head ++ rest)))
      (.string (String.ofList (head ++ stringMarker (byteLen rest))))
  | items (h : ShrunkItems items output) : Shrunk (.array items) (.array output)
  | array (h : ShrunkItems items output) (rest : List Json) :
      Shrunk (.array (items ++ rest)) (.array (output ++ [arrayTrailer rest.length]))
  | object (h : ShrunkFields fields output) : Shrunk (.object fields) (.object output)

/-- As many items. -/
inductive ShrunkItems : List Json → List Json → Prop
  | nil : ShrunkItems [] []
  | cons (h : Shrunk item item') (hrest : ShrunkItems items items') : ShrunkItems (item :: items) (item' :: items')

/-- The same keys, in the same order. -/
inductive ShrunkFields : List (String × Json) → List (String × Json) → Prop
  | nil : ShrunkFields [] []
  | cons (key : String) (h : Shrunk child child') (hrest : ShrunkFields fields fields') :
      ShrunkFields ((key, child) :: fields) ((key, child') :: fields')

end

/-! ## Strings are cut between characters -/

theorem isCharBoundary_lowerToBoundary (text : List Char) (boundary : Nat) :
    isCharBoundary text (lowerToBoundary text boundary) = true := by
  induction boundary with
  | zero =>
    rw [lowerToBoundary]
    exact isCharBoundary_iff.2 ⟨[], text, rfl, rfl⟩
  | succ boundary ih =>
    rw [lowerToBoundary]
    split
    · next h => exact h
    · exact ih

theorem sliceTo_append (head rest : List Char) : sliceTo (head ++ rest) (byteLen head) = head := by
  induction head with
  | nil => rw [byteLen_nil, sliceTo]
  | cons c head ih =>
    have hpos := c.utf8Size_pos
    rw [List.cons_append, byteLen_cons, sliceTo, Nat.add_sub_cancel_left, ih]
    omega

/-- A string is cut to some of its characters and the marker counts the bytes of the others. -/
theorem shrunk_string (text : String) (requested : Nat) :
    Shrunk (.string text) (.string (String.ofList (sliceTo text.toList (floorCharBoundary text.toList requested) ++
      stringMarker (byteLen text.toList - floorCharBoundary text.toList requested)))) := by
  obtain ⟨head, rest, htext, hlen⟩ := isCharBoundary_iff.1
    (isCharBoundary_lowerToBoundary text.toList (min requested (byteLen text.toList)))
  rw [floorCharBoundary, ← hlen, htext, sliceTo_append, byteLen_append, Nat.add_sub_cancel_left]
  rw [← String.ofList_toList (s := text), htext]
  exact .string head rest

/-! ## One pass -/

theorem ShrunkFields.append (h : ShrunkFields fields output) (h' : ShrunkFields fields' output') :
    ShrunkFields (fields ++ fields') (output ++ output') := by
  induction fields generalizing output with
  | nil =>
    cases h
    exact h'
  | cons field fields ih =>
    cases h with
    | cons key h hrest => exact .cons key h (ih hrest)

theorem ShrunkFields.refl (fields : List (String × Json)) : ShrunkFields fields fields := by
  induction fields with
  | nil => exact .nil
  | cons field fields ih => exact .cons field.1 (.same field.2) ih

mutual

/-- What a pass changes, it only cuts short. -/
theorem shrunk_of_shrinkValue : (value : Json) → shrinkValue stringCap arrayLimit value = some reduced →
    Shrunk value reduced
  | .null, h => nomatch h
  | .bool _, h => nomatch h
  | .number _, h => nomatch h
  | .string text, h => by
    rw [shrinkValue] at h
    split at h
    · obtain rfl := Option.some.inj h
      exact shrunk_string text _
    · cases h
  | .array items, h => by
    have hitems : ShrunkItems (items.take (min items.length arrayLimit))
        (shrinkItems stringCap arrayLimit (min items.length arrayLimit) items).1 :=
      shrunkItems_of_shrinkItems items _
    rw [shrinkValue] at h
    simp only at h
    split at h
    · next hclipped =>
      obtain rfl := Option.some.inj h
      have harray := Shrunk.array hitems (items.drop (min items.length arrayLimit))
      rwa [List.take_append_drop, List.length_drop] at harray
    split at h
    · next hclipped _ =>
      obtain rfl := Option.some.inj h
      rw [List.take_of_length_le (Nat.le_of_not_lt hclipped)] at hitems
      exact .items hitems
    · cases h
  | .object fields, h => by
    rw [shrinkValue] at h
    obtain ⟨output, houtput, rfl⟩ := Option.map_eq_some_iff.1 h
    exact .object (shrunkFields_of_shrinkFields fields [] none (fun _ hnone => nomatch hnone) houtput)

theorem shrunkItems_of_shrinkItems : (items : List Json) → (keep : Nat) →
    ShrunkItems (items.take keep) (shrinkItems stringCap arrayLimit keep items).1
  | [], keep => by
    rw [List.take_nil]
    cases keep <;> exact .nil
  | item :: items, 0 => .nil
  | item :: items, keep + 1 => by
    have hrest : ShrunkItems (items.take keep) (shrinkItems stringCap arrayLimit keep items).1 :=
      shrunkItems_of_shrinkItems items keep
    rw [shrinkItems, List.take_succ_cons]
    cases hitem : shrinkValue stringCap arrayLimit item with
    | none => exact .cons (.same item) hrest
    | some reduced => exact .cons (shrunk_of_shrinkValue item hitem) hrest

theorem shrunkFields_of_shrinkFields : (fields seen : List (String × Json)) →
    (output : Option (List (String × Json))) → (∀ copy, output = some copy → ShrunkFields seen copy) →
    shrinkFields stringCap arrayLimit seen output fields = some result → ShrunkFields (seen ++ fields) result
  | [], seen, output, houtput, h => by
    rw [List.append_nil]
    exact houtput result h
  | (key, child) :: fields, seen, output, houtput, h => by
    have hstep : ∀ child', Shrunk child child' → ∀ copy, ShrunkFields seen copy →
        ShrunkFields (seen ++ [(key, child)]) (copy ++ [(key, child')]) :=
      fun child' hchild copy hcopy => hcopy.append (.cons key hchild .nil)
    have happend : seen ++ (key, child) :: fields = seen ++ [(key, child)] ++ fields := by simp
    rw [shrinkFields] at h
    rw [happend]
    cases hchild : shrinkValue stringCap arrayLimit child with
    | none =>
      rw [hchild] at h
      refine shrunkFields_of_shrinkFields fields _ _ (fun copy' hcopy' => ?_) h
      obtain ⟨copy, hcopy, rfl⟩ := Option.map_eq_some_iff.1 hcopy'
      exact hstep child (.same child) copy (houtput copy hcopy)
    | some reduced =>
      rw [hchild] at h
      have hshrunk := shrunk_of_shrinkValue child hchild
      refine shrunkFields_of_shrinkFields fields _ _ (fun copy' hcopy' => ?_) h
      obtain rfl := Option.some.inj hcopy'
      refine hstep reduced hshrunk _ ?_
      cases houtput' : output with
      | none => exact .refl seen
      | some copy => exact houtput copy houtput'

end

example : shrinkValue 64 1 (.array [.null, .null, .null]) = some (.array [.null, arrayTrailer 2]) := rfl

/-! ## All passes -/

theorem shrinkFrom_spec (h : shrinkFrom toVec value index finalSize passes = .ok payload) :
    (∃ bytes, toVec payload.value = .ok bytes ∧ bytes.length ≤ maxReplicatedPayloadBytes) ∧
      Shrunk value payload.value := by
  induction passes generalizing index finalSize with
  | nil => cases h
  | cons caps passes ih =>
    obtain ⟨stringCap, arrayLimit⟩ := caps
    rw [shrinkFrom] at h
    cases hreduced : shrinkValue stringCap arrayLimit value with
    | none =>
      rw [hreduced] at h
      exact ih h
    | some reduced =>
      rw [hreduced] at h
      obtain ⟨bytes, hbytes, h⟩ := Except.bind_eq_ok.1 h
      split at h
      · next hfits =>
        cases h
        exact ⟨⟨bytes, hbytes, hfits⟩, shrunk_of_shrinkValue value hreduced⟩
      · exact ih h

/-- A payload fits under the ceiling and is the value with strings and arrays cut short; a value that fits is
its own payload. -/
theorem shrinkForReplication_spec (toVec : ToVec) (value : Json) :
    (∀ payload, shrinkForReplication toVec value = .ok payload →
      (∃ bytes, toVec payload.value = .ok bytes ∧ bytes.length ≤ maxReplicatedPayloadBytes) ∧
        Shrunk value payload.value) ∧
      ∀ bytes, toVec value = .ok bytes → bytes.length ≤ maxReplicatedPayloadBytes →
        shrinkForReplication toVec value = .ok ⟨value, 0⟩ := by
  constructor
  · intro payload h
    rw [shrinkForReplication] at h
    obtain ⟨bytes, hbytes, h⟩ := Except.bind_eq_ok.1 h
    split at h
    · next hfits =>
      cases h
      exact ⟨⟨bytes, hbytes, hfits⟩, .same value⟩
    · exact shrinkFrom_spec h
  · intro bytes hbytes hfits
    rw [shrinkForReplication, hbytes, Except.ok_bind, if_pos hfits]
    rfl

/-- The encoder on the values of the examples. -/
def sampleToVec : ToVec
  | .null => .ok (Text.bytes "null")
  | _ => .error .serialize

theorem shrinkForReplication_spec_null :
    shrinkForReplication sampleToVec .null = .ok ⟨.null, 0⟩ ∧ Shrunk .null .null := by
  have hspec := shrinkForReplication_spec sampleToVec .null
  have hsame : shrinkForReplication sampleToVec .null = .ok ⟨.null, 0⟩ := hspec.2 _ rfl (by decide)
  exact ⟨hsame, (hspec.1 _ hsame).2⟩

end OhMyPi.Collab
