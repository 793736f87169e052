import Mathlib.Data.List.Perm.Basic
import Mathlib.Data.List.Sort
import OhMyPi.Docserver.Places
import OhMyPi.Lib.Splice

/-! Applying the edits of a language server. The ranges are resolved in the text as it was, sorted,
checked for overlaps and copied over in one pass. -/

namespace OhMyPi.Docserver.Lsp

open Text Splice

structure TextEdit where
  range : Range
  newText : List Char
deriving DecidableEq, Repr

/-- An edit with its byte range, and its place in the list. -/
structure Resolved where
  patch : Patch UInt8
  index : Nat
deriving DecidableEq, Repr

/-- The order of the sort keys `(start, end, index)`. -/
def Resolved.Precedes (a b : Resolved) : Prop :=
  a.patch.start < b.patch.start ∨ a.patch.start = b.patch.start ∧
    (a.patch.stop < b.patch.stop ∨ a.patch.stop = b.patch.stop ∧ a.index ≤ b.index)

instance : DecidableRel Resolved.Precedes := fun a b =>
  inferInstanceAs (Decidable (a.patch.start < b.patch.start ∨ a.patch.start = b.patch.start ∧
    (a.patch.stop < b.patch.stop ∨ a.patch.stop = b.patch.stop ∧ a.index ≤ b.index)))

instance : Std.Total Resolved.Precedes where
  total a b := by
    simp only [Resolved.Precedes]
    omega

instance : IsTrans Resolved Resolved.Precedes where
  trans a b c := by
    simp only [Resolved.Precedes]
    omega

/-- The edits with their offsets, from the given index on. -/
def resolveEdits (encoding : PositionEncoding) (text : List Char) :
    Nat → List TextEdit → Checked (List Resolved)
  | _, [] => pure []
  | index, edit :: edits => do
    let offsets ← rangeToOffsets encoding text edit.range
    let rest ← resolveEdits encoding text (index + 1) edits
    return ⟨⟨offsets.1, offsets.2, utf8 edit.newText⟩, index⟩ :: rest

/-- Whether a range conflicts with the one before it: two ranges overlap, or an empty one starts
where the other does. -/
def conflicts (previous current : Patch UInt8) : Bool :=
  current.start < previous.stop ||
    current.start == previous.start &&
      (current.start == current.stop || previous.start == previous.stop)

def anyConflict : Option (Patch UInt8) → List (Patch UInt8) → Bool
  | _, [] => false
  | none, current :: rest => anyConflict (some current) rest
  | some previous, current :: rest =>
    conflicts previous current || anyConflict (some current) rest

def usizeLimit : Nat := 2 ^ 64

/-- `try_fold(0, checked_add)` -/
def checkedSum (numbers : List Nat) : Option Nat :=
  numbers.foldlM (fun total n => if total + n < usizeLimit then some (total + n) else none) 0

/-- The capacity of the output: none when a number on the way does not fit. -/
def outputCapacity (length : Nat) (patches : List (Patch UInt8)) : Option Nat := do
  let removed ← checkedSum (patches.map fun p => p.stop - p.start)
  let inserted ← checkedSum (patches.map fun p => p.text.length)
  if removed ≤ length ∧ length - removed + inserted < usizeLimit then
    some (length - removed + inserted)
  else none

/-- The loop that copies the output, none where a slice panics. -/
def copyFrom (bytes : List UInt8) : Nat → List (Patch UInt8) → Option (List UInt8)
  | cursor, [] => if cursor ≤ bytes.length then some (bytes.drop cursor) else none
  | cursor, p :: patches =>
    if cursor ≤ p.start ∧ p.start ≤ bytes.length then
      (copyFrom bytes p.stop patches).map fun rest =>
        (bytes.drop cursor).take (p.start - cursor) ++ p.text ++ rest
    else none

/-- `apply_text_edits`, once the ranges are sorted. -/
def applySorted (text : List Char) (patches : List (Patch UInt8)) : Checked (List UInt8) :=
  if anyConflict none patches then throw .overlappingEdits
  else
    match outputCapacity (byteLen text) patches with
    | none => throw .outputTooLarge
    | some _ => (copyFrom (utf8 text) 0 patches).map .ok

def applyTextEdits (text : List Char) (edits : List TextEdit) (encoding : PositionEncoding) :
    Checked (List UInt8) := do
  let resolved ← resolveEdits encoding text 0 edits
  applySorted text ((resolved.insertionSort Resolved.Precedes).map Resolved.patch)

/-! ## What an accepted list of edits does -/

theorem checked_bind_eq_ok {α β : Type} {x : Checked α} {f : α → Checked β} {b : β} :
    (x >>= f) = some (.ok b) ↔ ∃ a, x = some (.ok a) ∧ f a = some (.ok b) := by
  rcases x with _ | ⟨e | a⟩
  · exact ⟨fun h => (by cases h), fun ⟨a, ha, _⟩ => (by cases ha)⟩
  · exact ⟨fun h => (by cases h), fun ⟨a, ha, _⟩ => (by cases ha)⟩
  · exact ⟨fun h => ⟨a, rfl, h⟩, fun ⟨a', ha, h⟩ => (by cases ha; exact h)⟩

section Edits

variable {encoding : PositionEncoding} {text : List Char}

/-- The patch replaces the range of the edit by its text. -/
structure Targets (encoding : PositionEncoding) (text : List Char) (edit : TextEdit)
    (patch : Patch UInt8) : Prop where
  start : Placed encoding text patch.start edit.range.start.line.toNat
    edit.range.start.character.toNat
  stop : Placed encoding text patch.stop edit.range.stop.line.toNat
    edit.range.stop.character.toNat
  le : patch.start ≤ patch.stop
  text : patch.text = utf8 edit.newText

theorem rangeToOffsets_eq_ok {range : Range} {offsets : Nat × Nat} :
    rangeToOffsets encoding text range = some (.ok offsets) ↔
      positionToOffset encoding text range.start = some (.ok offsets.1) ∧
        positionToOffset encoding text range.stop = some (.ok offsets.2) ∧
        offsets.1 ≤ offsets.2 := by
  rw [rangeToOffsets, checked_bind_eq_ok]
  constructor
  · rintro ⟨start, hstart, h⟩
    obtain ⟨stop, hstop, h⟩ := checked_bind_eq_ok.1 h
    split at h
    · cases h
    · next hle =>
      cases h
      exact ⟨hstart, hstop, Nat.le_of_not_lt hle⟩
  · rintro ⟨hstart, hstop, hle⟩
    refine ⟨_, hstart, checked_bind_eq_ok.2 ⟨_, hstop, ?_⟩⟩
    rw [if_neg (Nat.not_lt.2 hle)]
    rfl

theorem targets_of_resolveEdits {index : Nat} {edits : List TextEdit} {resolved : List Resolved}
    (h : resolveEdits encoding text index edits = some (.ok resolved)) :
    List.Forall₂ (Targets encoding text) edits (resolved.map Resolved.patch) := by
  induction edits generalizing index resolved with
  | nil =>
    cases h
    exact .nil
  | cons edit edits ih =>
    obtain ⟨offsets, hoffsets, h⟩ := checked_bind_eq_ok.1 h
    obtain ⟨rest, hrest, h⟩ := checked_bind_eq_ok.1 h
    cases h
    obtain ⟨hstart, hstop, hle⟩ := rangeToOffsets_eq_ok.1 hoffsets
    exact .cons ⟨positionToOffset_eq_ok.1 hstart, positionToOffset_eq_ok.1 hstop, hle, rfl⟩
      (ih hrest)

theorem resolveEdits_of_targets {edits : List TextEdit} {patches : List (Patch UInt8)}
    (h : List.Forall₂ (Targets encoding text) edits patches) (index : Nat) :
    ∃ resolved, resolveEdits encoding text index edits = some (.ok resolved) ∧
      resolved.map Resolved.patch = patches := by
  induction h generalizing index with
  | nil => exact ⟨[], rfl, rfl⟩
  | @cons edit patch edits patches hhead _ ih =>
    obtain ⟨rest, hrest, rfl⟩ := ih (index + 1)
    have hrange : rangeToOffsets encoding text edit.range = some (.ok (patch.start, patch.stop)) :=
      rangeToOffsets_eq_ok.2
        ⟨positionToOffset_eq_ok.2 hhead.start, positionToOffset_eq_ok.2 hhead.stop, hhead.le⟩
    refine ⟨⟨patch, index⟩ :: rest,
      checked_bind_eq_ok.2 ⟨_, hrange, checked_bind_eq_ok.2 ⟨_, hrest, ?_⟩⟩, rfl⟩
    rw [← hhead.text]
    rfl

theorem bounds_of_targets {edits : List TextEdit} {patches : List (Patch UInt8)}
    (h : List.Forall₂ (Targets encoding text) edits patches) :
    ∀ p ∈ patches, p.start ≤ p.stop ∧ p.stop ≤ byteLen text := by
  induction h with
  | nil => exact fun p hp => absurd hp List.not_mem_nil
  | cons hhead _ ih => exact List.forall_mem_cons.2 ⟨⟨hhead.le, hhead.stop.le⟩, ih⟩

theorem sorted_patches (resolved : List Resolved) :
    ((resolved.insertionSort Resolved.Precedes).map Resolved.patch).Pairwise
      fun p q => p.start ≤ q.start := by
  refine List.pairwise_map.2 ((List.pairwise_insertionSort Resolved.Precedes resolved).imp ?_)
  intro a b h
  rcases h with hlt | ⟨heq, -⟩
  · exact hlt.le
  · exact heq.le

theorem sorted_patches_perm (resolved : List Resolved) :
    ((resolved.insertionSort Resolved.Precedes).map Resolved.patch).Perm
      (resolved.map Resolved.patch) :=
  (List.perm_insertionSort Resolved.Precedes resolved).map _

/-- Sorted ranges without a conflict lie one behind the other and start at different offsets. -/
theorem ordered_of_anyConflict {length cursor : Nat} {previous : Option (Patch UInt8)}
    {patches : List (Patch UInt8)} (h : anyConflict previous patches = false)
    (hbounds : ∀ p ∈ patches, p.start ≤ p.stop ∧ p.stop ≤ length)
    (hsorted : patches.Pairwise fun p q => p.start ≤ q.start)
    (hprevious : ∀ p ∈ previous, p.start ≤ p.stop ∧ p.stop = cursor ∧
      ∀ q ∈ patches, p.start ≤ q.start) (hnone : previous = none → cursor = 0) :
    Ordered length cursor patches ∧ (∀ p ∈ previous, ∀ q ∈ patches, p.start < q.start) ∧
      patches.Pairwise fun p q => p.start < q.start := by
  induction patches generalizing cursor previous with
  | nil => exact ⟨trivial, fun p _ q hq => absurd hq List.not_mem_nil, .nil⟩
  | cons current rest ih =>
    obtain ⟨hle, hlen⟩ := hbounds current List.mem_cons_self
    have hfirst : ∀ q ∈ rest, current.start ≤ q.start := fun q => List.rel_of_pairwise_cons hsorted
    have hrest : anyConflict (some current) rest = false := by
      cases previous with
      | none => exact h
      | some p => exact (Bool.or_eq_false_iff.1 h).2
    obtain ⟨hordered, hlt, hpairs⟩ := ih hrest (fun p hp => hbounds p (List.mem_cons_of_mem _ hp))
      (List.Pairwise.of_cons hsorted) (by
        rintro p ⟨⟩
        exact ⟨hle, rfl, hfirst⟩) (fun hcontra => by cases hcontra)
    have hcurrent : cursor ≤ current.start ∧ ∀ p ∈ previous, p.start < current.start := by
      cases previous with
      | none => exact ⟨by rw [hnone rfl]; exact Nat.zero_le _, fun p hp => by cases hp⟩
      | some p =>
        obtain ⟨hp, rfl, hbelow⟩ := hprevious p rfl
        have hfree := (Bool.or_eq_false_iff.1 h).1
        have hcp := hbelow current List.mem_cons_self
        simp only [conflicts, Bool.or_eq_false_iff, Bool.and_eq_false_iff, decide_eq_false_iff_not,
          beq_eq_false_iff_ne] at hfree
        refine ⟨by omega, ?_⟩
        rintro q ⟨⟩
        omega
    refine ⟨⟨hcurrent.1, hle, hlen, hordered⟩, ?_, List.pairwise_cons.2 ⟨fun q hq =>
      hlt current rfl q hq, hpairs⟩⟩
    intro p hp q hq
    rcases List.mem_cons.1 hq with rfl | hq
    · exact hcurrent.2 p hp
    · exact (hcurrent.2 p hp).trans (hlt current rfl q hq)

theorem copyFrom_eq_splice {bytes : List UInt8} {cursor : Nat} {patches : List (Patch UInt8)}
    (h : Ordered bytes.length cursor patches) (hcursor : cursor ≤ bytes.length) :
    copyFrom bytes cursor patches = some (splice bytes cursor patches) := by
  induction patches generalizing cursor with
  | nil => exact if_pos hcursor
  | cons p patches ih =>
    obtain ⟨hstart, hle, hstop, hrest⟩ := h
    rw [copyFrom, if_pos ⟨hstart, by omega⟩, ih hrest hstop]
    rfl

/-- Ranges that share no offset. -/
def Apart (p q : Patch UInt8) : Prop := p.stop ≤ q.start ∨ q.stop ≤ p.start

theorem apart_of_ordered {length cursor : Nat} {patches : List (Patch UInt8)}
    (h : Ordered length cursor patches) : patches.Pairwise Apart := by
  induction patches generalizing cursor with
  | nil => exact .nil
  | cons p patches ih =>
    exact List.pairwise_cons.2 ⟨fun q hq => .inl (h.2.2.2.le_start q hq), ih h.2.2.2⟩

theorem applySorted_eq_ok {patches : List (Patch UInt8)} {out : List UInt8}
    (hbounds : ∀ p ∈ patches, p.start ≤ p.stop ∧ p.stop ≤ byteLen text)
    (hsorted : patches.Pairwise fun p q => p.start ≤ q.start)
    (h : applySorted text patches = some (.ok out)) :
    patches.Pairwise Apart ∧ (patches.map Patch.start).Nodup ∧
      out = replaced (utf8 text) patches := by
  rw [applySorted] at h
  split at h
  · cases h
  · next hconflict =>
    obtain ⟨hordered, -, hstarts⟩ := ordered_of_anyConflict (Bool.eq_false_iff.2 hconflict :
      anyConflict none patches = false) hbounds hsorted (fun p hp => by cases hp) fun _ => rfl
    rw [← length_utf8] at hordered
    refine ⟨apart_of_ordered hordered,
      List.pairwise_map.2 (hstarts.imp fun hlt => hlt.ne), ?_⟩
    cases hcapacity : outputCapacity (byteLen text) patches with
    | none =>
      rw [hcapacity] at h
      cases h
    | some capacity =>
      rw [hcapacity] at h
      simp only [copyFrom_eq_splice hordered (Nat.zero_le _), Option.map_some] at h
      cases h
      exact splice_eq_replaced hordered

theorem Apart.symm {p q : Patch UInt8} (h : Apart p q) : Apart q p := Or.symm h

/-- An accepted list of edits replaces its ranges at once, in whatever order they are listed. -/
theorem replaced_of_applyTextEdits {edits : List TextEdit} {out : List UInt8}
    (h : applyTextEdits text edits encoding = some (.ok out)) :
    ∃ patches, List.Forall₂ (Targets encoding text) edits patches ∧ patches.Pairwise Apart ∧
      (patches.map Patch.start).Nodup ∧ out = replaced (utf8 text) patches ∧
      ∀ edits', edits'.Perm edits → applyTextEdits text edits' encoding = some (.ok out) := by
  obtain ⟨resolved, hresolved, h⟩ := checked_bind_eq_ok.1 h
  have htargets := targets_of_resolveEdits hresolved
  have hperm := sorted_patches_perm resolved
  obtain ⟨hapart, hstarts, hout⟩ := applySorted_eq_ok
    (fun p hp => bounds_of_targets htargets p (hperm.subset hp)) (sorted_patches resolved) h
  have hnodup := (hperm.map Patch.start).nodup hstarts
  refine ⟨resolved.map Resolved.patch, htargets, hapart.perm hperm Apart.symm, hnodup,
    ?_, ?_⟩
  · rw [hout, replaced_perm _ hperm hstarts]
  · intro edits' hedits
    obtain ⟨patches', htargets', hpatches⟩ := List.perm_comp_forall₂ hedits htargets
    obtain ⟨resolved', hresolved', rfl⟩ := resolveEdits_of_targets htargets' 0
    refine checked_bind_eq_ok.2 ⟨resolved', hresolved', ?_⟩
    have hsame : ((resolved'.insertionSort Resolved.Precedes).map Resolved.patch).Perm
        ((resolved.insertionSort Resolved.Precedes).map Resolved.patch) :=
      (sorted_patches_perm resolved').trans (hpatches.trans hperm.symm)
    rw [List.Perm.eq_of_pairwise ?_ (sorted_patches resolved') (sorted_patches resolved) hsame, h]
    intro p q hp hq hpq hqp
    exact List.inj_on_of_nodup_map hstarts (hsame.subset hp) hq (Nat.le_antisymm hpq hqp)

end Edits

/-! ## Positions and edits together -/

/-- The line and the character of the offset fit in 32 bits. -/
def Representable (encoding : PositionEncoding) (text : List Char) (offset : Nat) : Prop :=
  ∃ line character, Placed encoding text offset line character ∧ line < 2 ^ 32 ∧
    character < 2 ^ 32

/-- Some offset of the text stands at the position. -/
def Position.Exists (encoding : PositionEncoding) (text : List Char) (position : Position) : Prop :=
  ∃ offset, Placed encoding text offset position.line.toNat position.character.toNat

section Inverse

variable {encoding : PositionEncoding} {text : List Char} {offset : Nat} {position : Position}

theorem offsetToPosition_of_toNat
    (h : Placed encoding text offset position.line.toNat position.character.toNat) :
    offsetToPosition encoding text offset = some (.ok position) := by
  rw [offsetToPosition_of_placed h, if_pos position.line.toNat_lt,
    if_pos position.character.toNat_lt, UInt32.ofNat_toNat, UInt32.ofNat_toNat]
  rfl

theorem Representable.stands (h : Representable encoding text offset) : ∃ position : Position,
    Placed encoding text offset position.line.toNat position.character.toNat := by
  obtain ⟨line, character, hplaced, hline, hcharacter⟩ := h
  refine ⟨⟨UInt32.ofNat line, UInt32.ofNat character⟩, ?_⟩
  rwa [UInt32.toNat_ofNat_of_lt' hline, UInt32.toNat_ofNat_of_lt' hcharacter]

theorem placed_of_offsetToPosition (h : Representable encoding text offset)
    (hp : offsetToPosition encoding text offset = some (.ok position)) :
    Placed encoding text offset position.line.toNat position.character.toNat := by
  obtain ⟨position', hplaced⟩ := h.stands
  rw [offsetToPosition_of_toNat hplaced] at hp
  cases hp
  exact hplaced

theorem lt_iff_of_placed {offset' : Nat} {position' : Position}
    (h : Placed encoding text offset position.line.toNat position.character.toNat)
    (h' : Placed encoding text offset' position'.line.toNat position'.character.toNat) :
    offset < offset' ↔ position < position' := by
  have hposition : ∀ p q : Position, p < q ↔ p.line.toNat < q.line.toNat ∨
      p.line.toNat = q.line.toNat ∧ p.character.toNat < q.character.toNat := fun p q => by
    rw [UInt32.toNat_inj]
    rfl
  rw [hposition]
  refine ⟨h.lt_of_lt h', fun hlt => ?_⟩
  rcases Nat.lt_trichotomy offset offset' with hoffset | rfl | hoffset
  · exact hoffset
  · obtain ⟨hline, hcharacter⟩ := h.unique h'
    omega
  · have := h'.lt_of_lt h hoffset
    omega

end Inverse

/-- Offsets and positions translate into each other and keep their order, as far as 32 bits reach;
accepted edits replace their ranges at once. -/
theorem positions_and_edits (encoding : PositionEncoding) (text : List Char) :
    (∀ offset, Representable encoding text offset → ∃ position : Position,
      position.Exists encoding text ∧
        offsetToPosition encoding text offset = some (.ok position) ∧
        positionToOffset encoding text position = some (.ok offset)) ∧
    (∀ position : Position, position.Exists encoding text → ∃ offset,
      Representable encoding text offset ∧
        positionToOffset encoding text position = some (.ok offset) ∧
        offsetToPosition encoding text offset = some (.ok position)) ∧
    (∀ offset offset' position position', Representable encoding text offset →
      Representable encoding text offset' →
      offsetToPosition encoding text offset = some (.ok position) →
      offsetToPosition encoding text offset' = some (.ok position') →
      (offset < offset' ↔ position < position')) ∧
    ∀ edits out, applyTextEdits text edits encoding = some (.ok out) →
      ∃ patches, List.Forall₂ (Targets encoding text) edits patches ∧ patches.Pairwise Apart ∧
        out = replaced (utf8 text) patches ∧
        ∀ edits', edits'.Perm edits → applyTextEdits text edits' encoding = some (.ok out) := by
  refine ⟨?_, ?_, ?_, ?_⟩
  · intro offset h
    obtain ⟨position, hplaced⟩ := h.stands
    exact ⟨position, ⟨offset, hplaced⟩, offsetToPosition_of_toNat hplaced,
      positionToOffset_eq_ok.2 hplaced⟩
  · rintro position ⟨offset, hplaced⟩
    exact ⟨offset, ⟨_, _, hplaced, position.line.toNat_lt, position.character.toNat_lt⟩,
      positionToOffset_eq_ok.2 hplaced, offsetToPosition_of_toNat hplaced⟩
  · intro offset offset' position position' h h' hp hp'
    exact lt_iff_of_placed (placed_of_offsetToPosition h hp) (placed_of_offsetToPosition h' hp')
  · intro edits out h
    obtain ⟨patches, htargets, hapart, -, hout, hany⟩ := replaced_of_applyTextEdits h
    exact ⟨patches, htargets, hapart, hout, hany⟩

/-- A text with a CRLF: its end is the second character of its second line, and an edit of that
character is accepted. -/
theorem crlf_positions_and_edits :
    (∃ position : Position, position.Exists .utf16 ['a', '\r', '\n', 'β'] ∧
      offsetToPosition .utf16 ['a', '\r', '\n', 'β'] 5 = some (.ok position) ∧
      positionToOffset .utf16 ['a', '\r', '\n', 'β'] position = some (.ok 5)) ∧
    ∃ patches, List.Forall₂ (Targets .utf16 ['a', '\r', '\n', 'β'])
        [⟨⟨⟨1, 0⟩, ⟨1, 1⟩⟩, ['b']⟩] patches ∧ patches.Pairwise Apart ∧
      [97, 13, 10, 98] = replaced (utf8 ['a', '\r', '\n', 'β']) patches ∧
      ∀ edits' : List TextEdit, edits'.Perm [⟨⟨⟨1, 0⟩, ⟨1, 1⟩⟩, ['b']⟩] →
        applyTextEdits ['a', '\r', '\n', 'β'] edits' .utf16 = some (.ok [97, 13, 10, 98]) :=
  ⟨(positions_and_edits .utf16 ['a', '\r', '\n', 'β']).1 5
      ⟨1, 1, ⟨['a', '\r', '\n', 'β'], [], rfl, by decide, by decide, by decide, by decide⟩,
        by decide, by decide⟩,
    (positions_and_edits .utf16 ['a', '\r', '\n', 'β']).2.2.2 _ _ rfl⟩

theorem placeFrom_newlines (line n : Nat) :
    placeFrom (line, []) (List.replicate n '\n') = (line + n, []) := by
  induction n generalizing line with
  | zero => rfl
  | succ n ih =>
    rw [List.replicate_succ, placeFrom, if_neg fun h => absurd h.1 (by decide), if_pos (.inr rfl), ih]
    simp only [Nat.add_assoc, Nat.add_comm 1]

theorem byteLen_newlines (n : Nat) : byteLen (List.replicate n '\n') = n := by
  induction n with
  | zero => rfl
  | succ n ih =>
    rw [List.replicate_succ, byteLen_cons, ih, show Char.utf8Size '\n' = 1 by decide, Nat.add_comm]

theorem placed_newlines (encoding : PositionEncoding) (n : Nat) :
    Placed encoding (List.replicate n '\n') n n 0 := by
  have hplace : place (List.replicate n '\n') = (n, []) := by
    rw [place, placeFrom_newlines, Nat.zero_add]
  refine ⟨List.replicate n '\n', [], (List.append_nil _).symm, byteLen_newlines n, ?_, ?_, ?_⟩
  · rintro ⟨-, hhead⟩
    cases hhead
  · rw [hplace]
  · rw [hplace, units_nil]

/-- The end of a text of 2^32 lines has no position. -/
theorem newlines_without_position : Addressable (List.replicate (2 ^ 32) '\n') (2 ^ 32) ∧
    ∀ position, offsetToPosition .utf16 (List.replicate (2 ^ 32) '\n') (2 ^ 32) ≠
      some (.ok position) := by
  have hplaced := placed_newlines .utf16 (2 ^ 32)
  refine ⟨hplaced.addressable, fun position h => ?_⟩
  rw [offsetToPosition_of_placed hplaced, if_neg (Nat.lt_irrefl _)] at h
  cases h

end OhMyPi.Docserver.Lsp
