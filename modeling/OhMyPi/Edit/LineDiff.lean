import Mathlib.Data.List.Nodup
import OhMyPi.Edit.MyersRuns
import OhMyPi.Lib.Slice

/-! Differences of texts by lines (`edit/src/diff.rs`). Lines become ids of 32 bits, equal for equal lines; the
runs of the ids are those of the lines. From the runs come byte edits of the old text (`span_edits`). -/

namespace OhMyPi.Myers

/-! ### Ids -/

section

variable {α : Type} [DecidableEq α]

/-- A token that was not seen before gets the next id. -/
def assign (ids : List (α × Nat)) (token : α) : List (α × Nat) × Nat :=
  match ids.lookup token with
  | some id => (ids, id)
  | none => (ids ++ [(token, ids.length % 2 ^ 32)], ids.length % 2 ^ 32)

def assignAll (ids : List (α × Nat)) : List α → List (α × Nat) × List Nat
  | [] => (ids, [])
  | token :: tokens =>
    let (ids, id) := assign ids token
    let (ids, rest) := assignAll ids tokens
    (ids, id :: rest)

def intern (old new : List α) : List Nat × List Nat :=
  let (ids, oldIds) := assignAll [] old
  (oldIds, (assignAll ids new).2)

def diffLineTokens (old new : List α) : Except Fault (List Run) :=
  let (oldIds, newIds) := intern old new
  myersDiff oldIds newIds

/-- The ids were given in order. -/
def Numbered (ids : List (α × Nat)) : Prop := ids.map Prod.snd = (List.range ids.length).map (· % 2 ^ 32)

def idOf (ids : List (α × Nat)) (token : α) : Nat := (ids.lookup token).getD 0

/-- Tokens got their ids, old ones or the next. -/
structure Assigned (ids ids' : List (α × Nat)) (tokens : List α) (got : List Nat) : Prop where
  grown : ids <+: ids'
  numbered : Numbered ids'
  few : ids'.length ≤ ids.length + tokens.length
  known : ∀ token ∈ tokens, ∃ id, ids'.lookup token = some id
  given : got = tokens.map (idOf ids')

theorem lookup_of_prefix {ids ids' : List (α × Nat)} (h : ids <+: ids') (hid : ids.lookup token = some n) :
    ids'.lookup token = some n := by
  obtain ⟨rest, rfl⟩ := h
  rw [List.lookup_append, hid, Option.some_or]

theorem Assigned.idOf_eq {ids ids' ids'' : List (α × Nat)} (h : Assigned ids ids' tokens got)
    (hgrown : ids' <+: ids'') (htoken : token ∈ tokens) : idOf ids'' token = idOf ids' token := by
  obtain ⟨id, hid⟩ := h.known token htoken
  rw [idOf, idOf, hid, lookup_of_prefix hgrown hid]

theorem assign_assigned {ids : List (α × Nat)} (h : Numbered ids) (token : α) :
    Assigned ids (assign ids token).1 [token] [(assign ids token).2] := by
  rw [assign]
  cases hid : ids.lookup token with
  | some id =>
    refine ⟨List.prefix_refl ids, h, Nat.le_succ _, ?_, ?_⟩
    · simpa using ⟨id, hid⟩
    · simp [idOf, hid]
  | none =>
    have hown : (ids ++ [(token, ids.length % 2 ^ 32)]).lookup token = some (ids.length % 2 ^ 32) := by
      rw [List.lookup_append, hid, Option.none_or, List.lookup_cons_self]
    refine ⟨List.prefix_append ids _, ?_, by simp, ?_, ?_⟩
    · rw [Numbered] at h ⊢
      rw [List.map_append, h, List.length_append, List.length_singleton, List.range_succ, List.map_append]
      rfl
    · simpa using ⟨_, hown⟩
    · simp only [List.map_singleton, idOf, hown, Option.getD_some]

theorem assignAll_assigned {ids : List (α × Nat)} (h : Numbered ids) (tokens : List α) :
    Assigned ids (assignAll ids tokens).1 tokens (assignAll ids tokens).2 := by
  induction tokens generalizing ids with
  | nil => exact ⟨List.prefix_refl ids, h, Nat.le_refl _, fun _ hmem => absurd hmem List.not_mem_nil, rfl⟩
  | cons token tokens ih =>
    have hfirst := assign_assigned h token
    have hrest := ih hfirst.numbered
    refine ⟨hfirst.grown.trans hrest.grown, hrest.numbered, ?_, ?_, ?_⟩
    · have hfew := hfirst.few
      have hfew' := hrest.few
      rw [List.length_singleton] at hfew
      rw [List.length_cons]
      exact hfew'.trans (by omega)
    · refine List.forall_mem_cons.2 ⟨?_, hrest.known⟩
      obtain ⟨id, hid⟩ := hfirst.known token List.mem_cons_self
      exact ⟨id, lookup_of_prefix hrest.grown hid⟩
    · have hgiven := List.singleton_inj.1 hfirst.given
      rw [← hfirst.idOf_eq hrest.grown List.mem_cons_self] at hgiven
      exact congrArg₂ List.cons hgiven hrest.given

/-- As long as there are ids for all tokens, only equal tokens have the same. -/
theorem Numbered.eq_of_lookup {ids : List (α × Nat)} (h : Numbered ids) (hfew : ids.length ≤ 2 ^ 32)
    (ha : ids.lookup a = some n) (hb : ids.lookup b = some n) : a = b := by
  have hnodup : (ids.map Prod.snd).Nodup := by
    rw [h]
    refine List.Nodup.map_on (fun i hi j hj heq => ?_) List.nodup_range
    rw [List.mem_range] at hi hj
    rwa [Nat.mod_eq_of_lt (by omega), Nat.mod_eq_of_lt (by omega)] at heq
  have hmem : ∀ {a}, ids.lookup a = some n → (a, n) ∈ ids := by
    intro a ha
    obtain ⟨before, after, rfl, -⟩ := List.lookup_eq_some_iff.1 ha
    exact List.mem_append_right before List.mem_cons_self
  exact congrArg Prod.fst (List.inj_on_of_nodup_map hnodup (hmem ha) (hmem hb) rfl)

theorem intern_spec {old new : List α} (h : old.length + new.length ≤ 2 ^ 32) :
    ∃ id : α → Nat, (∀ a ∈ old ++ new, ∀ b ∈ old ++ new, id a = id b → a = b) ∧
      intern old new = (old.map id, new.map id) := by
  have hold := assignAll_assigned (rfl : Numbered ([] : List (α × Nat))) old
  have hnew := assignAll_assigned hold.numbered new
  have hknown : ∀ a ∈ old ++ new, ∃ id, (assignAll (assignAll [] old).1 new).1.lookup a = some id := by
    refine List.forall_mem_append.2 ⟨fun a ha => ?_, hnew.known⟩
    obtain ⟨id, hid⟩ := hold.known a ha
    exact ⟨id, lookup_of_prefix hnew.grown hid⟩
  have hfew : (assignAll (assignAll [] old).1 new).1.length ≤ 2 ^ 32 := by
    have hfew := hold.few
    have hfew' := hnew.few
    rw [List.length_nil] at hfew
    omega
  refine ⟨idOf (assignAll (assignAll [] old).1 new).1, fun a ha b hb heq => ?_, ?_⟩
  · obtain ⟨i, hi⟩ := hknown a ha
    obtain ⟨j, hj⟩ := hknown b hb
    rw [idOf, idOf, hi, hj] at heq
    cases heq
    exact hnew.numbered.eq_of_lookup hfew hi hj
  · rw [intern, ← hnew.given]
    refine Prod.ext (hold.given.trans (List.map_congr_left fun a ha => ?_)) rfl
    exact (hold.idOf_eq hnew.grown ha).symm

end

theorem Spells.of_map {α β : Type} {old new : List α} {f : α → β} {old' new' : List β} (h : Spells runs old' new')
    (hinj : ∀ a ∈ old ++ new, ∀ b ∈ old ++ new, f a = f b → a = b) (hold : old.map f = old') (hnew : new.map f = new') :
    Spells runs old new := by
  induction h generalizing old new with
  | nil =>
    rw [List.map_eq_nil_iff.1 hold, List.map_eq_nil_iff.1 hnew]
    exact .nil
  | kept tokens h ih =>
    obtain ⟨kept, old, rfl, rfl, rfl⟩ := List.map_eq_append_iff.1 hold
    obtain ⟨kept', new, rfl, hkept, rfl⟩ := List.map_eq_append_iff.1 hnew
    obtain rfl : kept = kept' := by
      refine List.ext_getElem (by simpa using (congrArg List.length hkept).symm) fun i hi hi' => ?_
      refine hinj _ (by simp) _ (by simp) ?_
      have heq := List.getElem_of_eq hkept (i := i) (by simpa using hi')
      simpa using heq.symm
    rw [List.length_map]
    refine .kept kept (ih (fun a ha b hb => hinj a ?_ b ?_) rfl rfl)
    · simp only [List.mem_append] at ha ⊢
      tauto
    · simp only [List.mem_append] at hb ⊢
      tauto
  | removed tokens h ih =>
    obtain ⟨removed, old, rfl, rfl, rfl⟩ := List.map_eq_append_iff.1 hold
    rw [List.length_map]
    refine .removed removed (ih (fun a ha b hb => hinj a ?_ b ?_) rfl hnew)
    · rw [List.append_assoc]
      exact List.mem_append_right removed ha
    · rw [List.append_assoc]
      exact List.mem_append_right removed hb
  | added tokens h ih =>
    obtain ⟨added, new, rfl, rfl, rfl⟩ := List.map_eq_append_iff.1 hnew
    rw [List.length_map]
    refine .added added (ih (fun a ha b hb => hinj a ?_ b ?_) hold rfl)
    · simp only [List.mem_append] at ha ⊢
      tauto
    · simp only [List.mem_append] at hb ⊢
      tauto

/-- Unless there are more lines than numbers of 32 bits, the runs spell the lines. -/
theorem diffLineTokens_spells {α : Type} [DecidableEq α] {old new : List α} (h : old.length + new.length < 2 ^ 32) :
    ∃ runs, diffLineTokens old new = .ok runs ∧ Spells runs old new ∧ Regular runs := by
  obtain ⟨id, hinj, hintern⟩ := intern_spec (Nat.le_of_lt h)
  obtain ⟨runs, hdifference, hregular, hresult⟩ := myersDiff_runs (old.map id) (new.map id)
  rw [hdifference.spells.map_cut (by rw [List.length_map]; omega) (by rw [List.length_map]; omega)] at hresult
  refine ⟨runs, ?_, hdifference.spells.of_map hinj rfl rfl, hregular⟩
  rw [diffLineTokens, hintern]
  exact hresult

/-! ### Byte edits -/

def lineTokensStr (text : List Char) : List (List Char) := Text.splitInclusive '\n' text

def lineRunsStr (old new : List Char) : Except Fault (List Run) :=
  diffLineTokens (lineTokensStr old) (lineTokensStr new)

/-- Offsets are in bytes of the old text. -/
structure SpanEdit where
  start : Nat
  stop : Nat
  replacement : List Char

def lineRunByteLen (text : List Char) (start count : Nat) : Except Fault Nat :=
  match Text.splitAtByte text start with
  | some (_, rest) => .ok (((lineTokensStr rest).take count).map Text.byteLen).sum
  | none => .error .outOfBounds

/-- `&new[start..stop]` -/
def sliceStr (text : List Char) (start stop : Nat) : Except Fault (List Char) :=
  match Text.slice text start stop with
  | some part => .ok part
  | none => .error .outOfBounds

/-- An addition behind a removal goes into the same edit. -/
def spanEditsFrom (old new : List Char) : List Run → Nat → Nat → Except Fault (List SpanEdit)
  | [], _, _ => .ok []
  | run :: runs, oldCursor, newCursor =>
    if run.removed then do
      let oldEnd := oldCursor + (← lineRunByteLen old oldCursor run.count)
      match runs with
      | next :: rest =>
        if next.added then
          let newEnd := newCursor + (← lineRunByteLen new newCursor next.count)
          let replacement ← sliceStr new newCursor newEnd
          return ⟨oldCursor, oldEnd, replacement⟩ :: (← spanEditsFrom old new rest oldEnd newEnd)
        else
          let replacement ← sliceStr new newCursor newCursor
          return ⟨oldCursor, oldEnd, replacement⟩ :: (← spanEditsFrom old new (next :: rest) oldEnd newCursor)
      | [] => return [⟨oldCursor, oldEnd, ← sliceStr new newCursor newCursor⟩]
    else if run.added then do
      let newEnd := newCursor + (← lineRunByteLen new newCursor run.count)
      let replacement ← sliceStr new newCursor newEnd
      return ⟨oldCursor, oldCursor, replacement⟩ :: (← spanEditsFrom old new runs oldCursor newEnd)
    else do
      let oldEnd := oldCursor + (← lineRunByteLen old oldCursor run.count)
      let newEnd := newCursor + (← lineRunByteLen new newCursor run.count)
      spanEditsFrom old new runs oldEnd newEnd

def spanEdits (old new : List Char) : Except Fault (List SpanEdit) := do
  spanEditsFrom old new (← lineRunsStr old new) 0 0

/-- `String::replace_range`, none where it panics. -/
def replaceRange (text : List Char) (edit : SpanEdit) : Option (List Char) := do
  let front ← Text.slice text 0 edit.start
  let _ ← Text.slice text edit.start edit.stop
  let back ← Text.slice text edit.stop (Text.byteLen text)
  return front ++ edit.replacement ++ back

/-- The last edit is made first, so that the offsets of the others stand. -/
def applyEdits (text : List Char) (edits : List SpanEdit) : Option (List Char) :=
  edits.foldr (fun edit text => text.bind (replaceRange · edit)) (some text)

/-- Edits one behind the other, on character boundaries. -/
def Placed (text : List Char) : Nat → List SpanEdit → Prop
  | _, [] => True
  | cursor, edit :: edits =>
    cursor ≤ edit.start ∧ edit.start ≤ edit.stop ∧ Text.isBoundary text edit.start = true ∧
      Text.isBoundary text edit.stop = true ∧ Placed text edit.stop edits

theorem Placed.mono {text : List Char} {edits : List SpanEdit} (h : Placed text cursor edits) (hle : cursor' ≤ cursor) :
    Placed text cursor' edits := by
  cases edits with
  | nil => trivial
  | cons edit edits => exact ⟨hle.trans h.1, h.2⟩

section

variable {text front : List Char}

/-- A text up to its last lines. -/
structure UpTo (text front : List Char) (tokens : List (List Char)) : Prop where
  whole : text = front ++ tokens.flatten
  lines : lineTokensStr tokens.flatten = tokens

theorem UpTo.advance (h : UpTo text front (tokens ++ rest)) :
    UpTo text (front ++ tokens.flatten) rest where
  whole := by rw [h.whole, List.flatten_append, List.append_assoc]
  lines := Text.splitInclusive_flatten h.lines

theorem byteLen_flatten (tokens : List (List Char)) :
    (tokens.map Text.byteLen).sum = Text.byteLen tokens.flatten := by
  induction tokens with
  | nil => rfl
  | cons token tokens ih => rw [List.map_cons, List.sum_cons, ih, List.flatten_cons, Text.byteLen_append]

theorem UpTo.lineRunByteLen (h : UpTo text front (tokens ++ rest)) :
    lineRunByteLen text (Text.byteLen front) tokens.length = .ok (Text.byteLen tokens.flatten) := by
  rw [Myers.lineRunByteLen, h.whole, Text.splitAtByte_append]
  simp only [h.lines, List.take_left, byteLen_flatten]

theorem UpTo.sliceStr (h : UpTo text front (tokens ++ rest)) :
    sliceStr text (Text.byteLen front) (Text.byteLen front + Text.byteLen tokens.flatten) = .ok tokens.flatten := by
  rw [Myers.sliceStr, h.whole, List.flatten_append, ← List.append_assoc, Text.slice_append]

theorem UpTo.sliceStr_nil (h : UpTo text front tokens) :
    Myers.sliceStr text (Text.byteLen front) (Text.byteLen front) = .ok [] :=
  @UpTo.sliceStr text front [] tokens h

theorem UpTo.isBoundary (h : UpTo text front tokens) :
    Text.isBoundary text (Text.byteLen front) = true := by
  rw [h.whole]
  exact Text.isBoundary_append _ _

end

theorem replaceRange_append (front removed back replacement : List Char) :
    replaceRange (front ++ removed ++ back)
        ⟨Text.byteLen front, Text.byteLen front + Text.byteLen removed, replacement⟩ =
      some (front ++ replacement ++ back) := by
  have hfront : Text.slice (front ++ removed ++ back) 0 (Text.byteLen front) = some front := by
    have hslice := Text.slice_append [] front (removed ++ back)
    rw [Text.byteLen_nil, Nat.zero_add, List.nil_append, ← List.append_assoc] at hslice
    exact hslice
  have hback : Text.slice (front ++ removed ++ back) (Text.byteLen front + Text.byteLen removed)
      (Text.byteLen (front ++ removed ++ back)) = some back := by
    have hslice := Text.slice_append (front ++ removed) back []
    rwa [List.append_nil, Text.byteLen_append front removed, ← Text.byteLen_append front removed,
      ← Text.byteLen_append, Text.byteLen_append front removed] at hslice
  simp only [replaceRange, hfront, Text.slice_append, hback]
  rfl

/-- An edit in front of others. -/
theorem edits_cons {old oldFront removed replacement rest back : List Char} {edits : List SpanEdit}
    (hold : old = oldFront ++ removed ++ rest) (hplaced : Placed old (Text.byteLen (oldFront ++ removed)) edits)
    (happly : applyEdits old edits = some (oldFront ++ removed ++ back)) :
    Placed old (Text.byteLen oldFront)
        (⟨Text.byteLen oldFront, Text.byteLen oldFront + Text.byteLen removed, replacement⟩ :: edits) ∧
      applyEdits old (⟨Text.byteLen oldFront, Text.byteLen oldFront + Text.byteLen removed, replacement⟩ :: edits) =
        some (oldFront ++ replacement ++ back) := by
  rw [Text.byteLen_append] at hplaced
  refine ⟨⟨Nat.le_refl _, Nat.le_add_right _ _, ?_, ?_, hplaced⟩, ?_⟩
  · rw [hold, List.append_assoc]
    exact Text.isBoundary_append _ _
  · rw [hold]
    simp only
    rw [← Text.byteLen_append]
    exact Text.isBoundary_append _ _
  · rw [applyEdits, List.foldr_cons]
    rw [applyEdits] at happly
    rw [happly]
    exact replaceRange_append _ _ _ _

section

variable {old new : List Char} {edits : List SpanEdit}

theorem spanEditsFrom_added (hlen : lineRunByteLen new newCursor count = .ok added)
    (hslice : sliceStr new newCursor (newCursor + added) = .ok replacement)
    (hrest : spanEditsFrom old new runs oldCursor (newCursor + added) = .ok edits) :
    spanEditsFrom old new (⟨count, true, false⟩ :: runs) oldCursor newCursor =
      .ok (⟨oldCursor, oldCursor, replacement⟩ :: edits) := by
  rw [spanEditsFrom, if_neg Bool.false_ne_true, if_pos rfl, hlen, Except.ok_bind]
  simp only [hslice, hrest, Except.ok_bind]
  rfl

theorem spanEditsFrom_replaced (hlen : lineRunByteLen old oldCursor count = .ok removed)
    (hlen' : lineRunByteLen new newCursor count' = .ok added)
    (hslice : sliceStr new newCursor (newCursor + added) = .ok replacement)
    (hrest : spanEditsFrom old new runs (oldCursor + removed) (newCursor + added) = .ok edits) :
    spanEditsFrom old new (⟨count, false, true⟩ :: ⟨count', true, false⟩ :: runs) oldCursor newCursor =
      .ok (⟨oldCursor, oldCursor + removed, replacement⟩ :: edits) := by
  rw [spanEditsFrom, if_pos rfl, hlen, Except.ok_bind]
  simp only [if_true, hlen', hslice, hrest, Except.ok_bind]
  rfl

theorem spanEditsFrom_removed (hlen : lineRunByteLen old oldCursor count = .ok removed)
    (hnext : ∀ next ∈ runs.head?, next.added = false) (hslice : sliceStr new newCursor newCursor = .ok replacement)
    (hrest : spanEditsFrom old new runs (oldCursor + removed) newCursor = .ok edits) :
    spanEditsFrom old new (⟨count, false, true⟩ :: runs) oldCursor newCursor =
      .ok (⟨oldCursor, oldCursor + removed, replacement⟩ :: edits) := by
  rw [spanEditsFrom, if_pos rfl, hlen, Except.ok_bind]
  cases runs with
  | nil =>
    cases hrest
    simp only [hslice, Except.ok_bind]
    rfl
  | cons next runs =>
    simp only [hnext next rfl, Bool.false_eq_true, if_false, hslice, hrest, Except.ok_bind]
    rfl

end

theorem spanEditsFrom_spec {old new oldFront newFront : List Char} (h : Spells runs oldTokens newTokens)
    (hold : UpTo old oldFront oldTokens) (hnew : UpTo new newFront newTokens) :
    ∃ edits, spanEditsFrom old new runs (Text.byteLen oldFront) (Text.byteLen newFront) = .ok edits ∧
      Placed old (Text.byteLen oldFront) edits ∧ applyEdits old edits = some (oldFront ++ newTokens.flatten) := by
  induction hlength : runs.length using Nat.strong_induction_on generalizing runs oldFront newFront oldTokens newTokens with
  | _ length ih =>
    subst hlength
    cases h with
    | nil =>
      refine ⟨[], rfl, trivial, ?_⟩
      rw [← hold.whole]
      rfl
    | @kept runs oldTokens newTokens tokens h =>
      obtain ⟨edits, hedits, hplaced, happly⟩ := ih _ (Nat.lt_succ_self _) h hold.advance hnew.advance rfl
      rw [Text.byteLen_append] at hplaced
      rw [Text.byteLen_append, Text.byteLen_append] at hedits
      refine ⟨edits, ?_, hplaced.mono (Nat.le_add_right _ _), ?_⟩
      · rw [spanEditsFrom, if_neg Bool.false_ne_true, if_neg Bool.false_ne_true, hold.lineRunByteLen,
          hnew.lineRunByteLen, Except.ok_bind, Except.ok_bind, hedits]
      · rw [happly, List.flatten_append, List.append_assoc]
    | @added runs oldTokens newTokens tokens h =>
      obtain ⟨edits, hedits, hplaced, happly⟩ := ih _ (Nat.lt_succ_self _) h hold hnew.advance rfl
      obtain ⟨hplaced, happly⟩ := @edits_cons old oldFront [] tokens.flatten _ _ _ (by simpa using hold.whole)
        (by simpa using hplaced) (by simpa using happly)
      rw [Text.byteLen_nil, Nat.add_zero] at hplaced happly
      rw [Text.byteLen_append] at hedits
      refine ⟨_, spanEditsFrom_added hnew.lineRunByteLen hnew.sliceStr hedits, hplaced, ?_⟩
      rw [happly, List.flatten_append, List.append_assoc]
    | @removed runs oldTokens newTokens tokens h =>
      have hcut : old = oldFront ++ tokens.flatten ++ oldTokens.flatten := hold.advance.whole
      by_cases hnext : ∀ next ∈ runs.head?, next.added = false
      · obtain ⟨edits, hedits, hplaced, happly⟩ := ih _ (Nat.lt_succ_self _) h hold.advance hnew rfl
        obtain ⟨hplaced, happly⟩ := @edits_cons old oldFront tokens.flatten [] _ _ _ hcut hplaced happly
        rw [Text.byteLen_append] at hedits
        refine ⟨_, spanEditsFrom_removed hold.lineRunByteLen hnext hnew.sliceStr_nil hedits, hplaced, ?_⟩
        rw [happly, List.append_nil]
      · cases h with
        | nil => exact absurd (by simp) hnext
        | kept => exact absurd (by simp) hnext
        | removed => exact absurd (by simp) hnext
        | @added runs _ newTokens added h =>
          obtain ⟨edits, hedits, hplaced, happly⟩ := ih _ (Nat.lt_succ_of_lt (Nat.lt_succ_self _)) h hold.advance hnew.advance rfl
          obtain ⟨hplaced, happly⟩ := @edits_cons old oldFront tokens.flatten added.flatten _ _ _ hcut hplaced happly
          rw [Text.byteLen_append, Text.byteLen_append] at hedits
          refine ⟨_, spanEditsFrom_replaced hold.lineRunByteLen hnew.lineRunByteLen hnew.sliceStr hedits, hplaced, ?_⟩
          rw [happly, List.flatten_append, List.append_assoc]

theorem flatten_lineTokensStr (text : List Char) : (lineTokensStr text).flatten = text :=
  Text.flatten_splitInclusive _ _

theorem upTo_all (text : List Char) : UpTo text [] (lineTokensStr text) where
  whole := (flatten_lineTokensStr text).symm
  lines := by rw [flatten_lineTokensStr]

/-- The edits lie on character boundaries, one behind the other, and turn the old text into the new one. -/
theorem spanEdits_spec {old new : List Char}
    (hfew : (lineTokensStr old).length + (lineTokensStr new).length < 2 ^ 32) :
    ∃ edits, spanEdits old new = .ok edits ∧ Placed old 0 edits ∧ applyEdits old edits = some new := by
  obtain ⟨runs, hruns, hspells, -⟩ := diffLineTokens_spells hfew
  obtain ⟨edits, hedits, hplaced, happly⟩ := spanEditsFrom_spec hspells (upTo_all old) (upTo_all new)
  refine ⟨edits, ?_, hplaced, ?_⟩
  · rw [spanEdits, lineRunsStr, hruns, Except.ok_bind]
    exact hedits
  · rw [happly, List.nil_append, flatten_lineTokensStr]

theorem spanEdits_spec_sample : ∃ edits, spanEdits ['a', '\n', 'b'] ['é', '\n', 'b'] = .ok edits ∧
    Placed ['a', '\n', 'b'] 0 edits ∧ applyEdits ['a', '\n', 'b'] edits = some ['é', '\n', 'b'] :=
  spanEdits_spec (by decide)

end OhMyPi.Myers
