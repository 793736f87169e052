import OhMyPi.Lib.Ancestry
import OhMyPi.Lib.LossyStream
import OhMyPi.Dom.History
import OhMyPi.Dom.Wire

/-! Selectors (`dom/src/selector.rs`): compounds of a tag and property predicates, separated by
blanks, each matched by an ancestor of what the next one matches. -/

namespace OhMyPi

open Forest

/-! ## Parsing -/

namespace Selector

inductive SelectorError where
  | empty
  | unexpected (offset : Nat)
  | unterminatedPredicate (offset : Nat)
  | missingValue (offset : Nat)
deriving DecidableEq, Repr

inductive PredOp where
  | eq
  | ne
deriving DecidableEq, Repr

structure Predicate where
  key : PropKey
  op : PredOp
  value : Value
deriving DecidableEq, Repr

structure Compound where
  tag : Option Tag
  predicates : List Predicate
deriving DecidableEq, Repr

def isAsciiWhitespace (c : Char) : Bool :=
  c = ' ' || c = '\t' || c = '\n' || c = '\x0C' || c = '\r'

def isIdent (c : Char) : Bool :=
  c.isAlphanum || c = '-' || c = '_' || c = '.' || c = ':'

/-- `char::is_whitespace` -/
def isWhitespace (c : Char) : Bool :=
  let n := c.toNat
  0x09 ≤ n && n ≤ 0x0D || n = 0x20 || n = 0x85 || n = 0xA0 || n = 0x1680 ||
    0x2000 ≤ n && n ≤ 0x200A || n = 0x2028 || n = 0x2029 || n = 0x202F || n = 0x205F || n = 0x3000

/-- `str::trim` -/
def trim (text : List Char) : List Char :=
  ((text.dropWhile isWhitespace).reverse.dropWhile isWhitespace).reverse

/-- The value of decimal digits, none for other characters or no digit at all. -/
def digits (text : List Char) : Option Nat :=
  if text.isEmpty || !text.all Char.isDigit then none
  else some (text.foldl (fun n c => n * 10 + (c.toNat - '0'.toNat)) 0)

/-- `str::parse::<i64>` -/
def parseI64 (raw : List Char) : Option Int64 :=
  match raw with
  | '-' :: rest =>
    (digits rest).bind fun n => if n ≤ 2 ^ 63 then some (Int64.ofInt (-n)) else none
  | '+' :: rest => (digits rest).bind fun n => if n < 2 ^ 63 then some (Int64.ofNat n) else none
  | rest => (digits rest).bind fun n => if n < 2 ^ 63 then some (Int64.ofNat n) else none

section Parse

-- `str::parse::<f64>`: the bits of the number.
variable (parseF64 : List Char → Option UInt64)

def parseValue (raw : List Char) : Value :=
  if raw = "null".toList then .null
  else if raw = "true".toList then .bool true
  else if raw = "false".toList then .bool false
  else
    match parseI64 raw with
    | some n => .int n
    | none =>
      match parseF64 raw with
      | some bits => .float bits
      | none => .str (String.ofList raw)

/-- What is left of a selector, and the byte offset at which it starts. -/
structure Cursor where
  rest : List Char
  offset : Nat
deriving DecidableEq, Repr

/-- The cursor behind so many characters. -/
def Cursor.skip (cursor : Cursor) (n : Nat) : Cursor where
  rest := cursor.rest.drop n
  offset := cursor.offset + Text.byteLen (cursor.rest.take n)

def Cursor.skipWhile (cursor : Cursor) (p : Char → Bool) : Cursor :=
  cursor.skip (cursor.rest.takeWhile p).length

/-- The raw value of a predicate: quoted, or up to the closing bracket. -/
def rawValue (open' : Nat) (cursor : Cursor) : Except SelectorError (List Char × Cursor) :=
  match cursor.rest with
  | quote :: _ =>
    if quote = '\'' ∨ quote = '"' then
      let content := (cursor.skip 1).rest.takeWhile (· ≠ quote)
      let cursor := (cursor.skip 1).skipWhile (· ≠ quote)
      if cursor.rest.head? ≠ some quote then .error (.unterminatedPredicate open')
      else .ok (content, cursor.skip 1)
    else .ok (trim (cursor.rest.takeWhile (· ≠ ']')), cursor.skipWhile (· ≠ ']'))
  | [] => .ok ([], cursor)

/-- A predicate, from its opening bracket. -/
def parsePredicate (cursor : Cursor) : Except SelectorError (Predicate × Cursor) := do
  let open' := cursor.offset
  let keyStart := cursor.skip 1
  let name := keyStart.rest.takeWhile isIdent
  let cursor := keyStart.skipWhile isIdent
  if name.isEmpty then .error (.unexpected cursor.offset)
  let key := PropKey.fromStr (String.ofList name)
  let (op, cursor) ←
    if cursor.rest.take 2 = ['!', '='] then .ok (PredOp.ne, cursor.skip 2)
    else if cursor.rest.head? = some '=' then .ok (PredOp.eq, cursor.skip 1)
    else .error (.unexpected cursor.offset)
  let valueStart := cursor.offset
  let (raw, cursor) ← rawValue open' cursor
  if raw.isEmpty then .error (.missingValue valueStart)
  if cursor.rest.head? ≠ some ']' then .error (.unterminatedPredicate open')
  return ({ key, op, value := parseValue parseF64 raw }, cursor.skip 1)

/-- The predicates of a compound. Each is at least a bracket, so as many rounds as there are
characters are enough. -/
def parsePredicates : Nat → Cursor → Except SelectorError (List Predicate × Cursor)
  | 0, cursor => .ok ([], cursor)
  | rounds + 1, cursor =>
    if cursor.rest.head? = some '[' then do
      let (predicate, cursor) ← parsePredicate parseF64 cursor
      let (predicates, cursor) ← parsePredicates rounds cursor
      return (predicate :: predicates, cursor)
    else .ok ([], cursor)

/-- The tag of a compound, none where it starts with a predicate. -/
def parseTag (cursor : Cursor) : Except SelectorError (Option Tag × Cursor) :=
  if cursor.rest.head? = some '[' then .ok (none, cursor)
  else
    let name := cursor.rest.takeWhile isIdent
    if name.isEmpty then .error (.unexpected cursor.offset)
    else .ok (some (Tag.fromStr (String.ofList name)), cursor.skipWhile isIdent)

def parseCompound (cursor : Cursor) : Except SelectorError (Compound × Cursor) := do
  let start := cursor.offset
  let (tag, cursor) ← parseTag cursor
  let (predicates, cursor) ← parsePredicates parseF64 cursor.rest.length cursor
  if cursor.offset = start then .error (.unexpected cursor.offset)
  if cursor.rest.head?.any fun c => !isAsciiWhitespace c then .error (.unexpected cursor.offset)
  return ({ tag, predicates }, cursor)

def parseCompounds : Nat → Cursor → Except SelectorError (List Compound)
  | 0, _ => .ok []
  | rounds + 1, cursor =>
    let cursor := cursor.skipWhile isAsciiWhitespace
    if cursor.rest.isEmpty then .ok []
    else do
      let (compound, cursor) ← parseCompound parseF64 cursor
      let compounds ← parseCompounds rounds cursor
      return compound :: compounds

def parse (source : List Char) : Except SelectorError (List Compound) := do
  let compounds ← parseCompounds parseF64 (source.length + 1) ⟨source, 0⟩
  if compounds.isEmpty then .error .empty else .ok compounds

end Parse

end Selector

/-! ## Matching -/

/-- `f64::eq` on the bits of two numbers. -/
def floatEq (a b : UInt64) : Bool :=
  let magnitude (bits : UInt64) : Nat := bits.toNat % 2 ^ 63
  let infinity : Nat := 0x7FF0000000000000
  magnitude a ≤ infinity && magnitude b ≤ infinity &&
    (a = b || magnitude a = 0 && magnitude b = 0)

/-- `PartialEq for Value` -/
def Value.eq : Value → Value → Bool
  | .float a, .float b => floatEq a b
  | a, b => a = b

namespace Dom

open Selector

def matchesCompound (dom : Dom) (compound : Compound) (handle : Handle) : Bool :=
  match dom.get handle with
  | none => false
  | some node =>
    !(compound.tag.any fun tag => tag ≠ node.tag) &&
      compound.predicates.all fun predicate =>
        let current := node.prop predicate.key
        match predicate.op with
        | .eq => current.any fun value => value.eq predicate.value
        | .ne => !(current.any fun value => value.eq predicate.value)

/-- The loop over the earlier compounds, the last one first. Parents lead to the root, so as many
rounds as there are handles are enough. -/
def matchesAncestors (dom : Dom) : Handle → List Compound → Bool
  | _, [] => true
  | cursor, compound :: compounds =>
    match nearest dom.parent (dom.matchesCompound compound) (dom.highWater + 1)
        (dom.parent cursor) with
    | none => false
    | some found => dom.matchesAncestors found compounds

def matchesChain (dom : Dom) (compounds : List Compound) (handle : Handle) : Bool :=
  match compounds.getLast? with
  | none => false
  | some subject =>
    dom.matchesCompound subject handle &&
      dom.matchesAncestors handle compounds.dropLast.reverse

def select (dom : Dom) (parseF64 : List Char → Option UInt64) (source : List Char) :
    Except SelectorError (List Handle) := do
  let compounds ← parse parseF64 source
  return dom.handles.filter (dom.matchesChain compounds)

/-! ## What is selected -/

/-- Nodes for all compounds, outermost first, each a proper ancestor of the next and the last one the
given handle. -/
def Assigns (dom : Dom) (compounds : List Compound) (handle : Handle) : Prop :=
  ∃ assignment, List.Forall₂ (fun h c => dom.matchesCompound c h = true) assignment compounds ∧
    assignment.IsChain (fun outer inner => Above dom.parent inner outer) ∧
    assignment.getLast? = some handle

theorem matchesAncestors_eq_climbs (dom : Dom) (handle : Handle) (compounds : List Compound) :
    dom.matchesAncestors handle compounds =
      climbs dom.parent (dom.highWater + 1) handle (compounds.map dom.matchesCompound) := by
  induction compounds generalizing handle with
  | nil => rfl
  | cons compound compounds ih =>
    rw [matchesAncestors, List.map_cons, climbs]
    cases nearest dom.parent (dom.matchesCompound compound) (dom.highWater + 1)
        (dom.parent handle) with
    | none => rfl
    | some found => exact ih found

theorem live_of_matchesCompound {dom : Dom} {compound : Compound} {handle : Handle}
    (h : dom.matchesCompound compound handle = true) : dom.skeleton.tag handle ≠ none := by
  rw [matchesCompound] at h
  cases hnode : dom.get handle with
  | none =>
    rw [hnode] at h
    cases h
  | some node =>
    have hnodes : dom.nodes handle = some node := hnode
    simp [skeleton, hnodes]

theorem mem_handles {dom : Dom} (htree : dom.skeleton.Tree) {handle : Handle} :
    handle ∈ dom.handles ↔ dom.skeleton.tag handle ≠ none := by
  have hlive : (dom.nodes handle).isSome = true ↔ dom.skeleton.tag handle ≠ none := by
    simp [skeleton, Option.isSome_iff_ne_none]
  rw [handles, List.mem_filter, hlive]
  refine ⟨And.right, fun h => ⟨List.mem_map.2 ⟨handle - 1, List.mem_range.2 ?_, ?_⟩, h⟩⟩
  · exact Nat.lt_of_lt_of_le (Nat.sub_one_lt (htree.pos h).ne') (htree.bounded h)
  · exact Nat.sub_add_cancel (htree.pos h)

theorem pairwise_handles (dom : Dom) : dom.handles.Pairwise (· < ·) := by
  refine List.Pairwise.filter _ (List.pairwise_map.2 ?_)
  exact List.pairwise_lt_range.imp fun h => Nat.succ_lt_succ h

/-- Matching with the nearest ancestors finds an assignment whenever there is one. -/
theorem matchesChain_iff {dom : Dom} (htree : dom.skeleton.Tree) (front : List Compound)
    (subject : Compound) (handle : Handle) :
    dom.matchesChain (front ++ [subject]) handle = true ↔
      dom.Assigns (front ++ [subject]) handle := by
  rw [matchesChain, List.getLast?_concat, List.dropLast_concat]
  simp only [Bool.and_eq_true, matchesAncestors_eq_climbs, List.map_reverse]
  constructor
  · rintro ⟨hsubject, hclimbs⟩
    have hlive := live_of_matchesCompound hsubject
    have hall : ∀ x, Below dom.parent handle x → x ∈ List.range (dom.highWater + 1) :=
      fun x hx => htree.mem_range (htree.live_above hlive hx)
    obtain ⟨outer, houter, hchain⟩ := nests_reverse_iff.1
      ((climbs_iff htree.acyclic _ handle hall (List.length_range).le _).1 hclimbs)
    refine ⟨outer ++ [handle], List.rel_append (List.forall₂_map_right_iff.1 houter)
      (.cons hsubject .nil), hchain, List.getLast?_concat⟩
  · rintro ⟨assignment, hall, hchain, hlast⟩
    obtain ⟨outer, rfl⟩ := List.getLast?_eq_some_iff.1 hlast
    have hlen : outer.length = front.length := by simpa using hall.length_eq
    have houter := List.forall₂_take outer.length hall
    have hsubject := List.forall₂_drop outer.length hall
    rw [List.take_left, hlen, List.take_left] at houter
    rw [List.drop_left, hlen, List.drop_left] at hsubject
    have hmatch := (List.forall₂_cons.1 hsubject).1
    have hlive := live_of_matchesCompound hmatch
    have hreach : ∀ x, Below dom.parent handle x → x ∈ List.range (dom.highWater + 1) :=
      fun x hx => htree.mem_range (htree.live_above hlive hx)
    refine ⟨hmatch, (climbs_iff htree.acyclic _ handle hreach (List.length_range).le _).2 ?_⟩
    exact nests_reverse_iff.2 ⟨outer, List.forall₂_map_right_iff.2 houter, hchain⟩

/-- A selector selects exactly the nodes below some assignment of its earlier parts, once each, in the
order in which they were minted. -/
theorem select_exactly {dom : Dom} (htree : dom.skeleton.Tree)
    (parseF64 : List Char → Option UInt64) {source : List Char} {compounds : List Compound}
    (hparse : parse parseF64 source = .ok compounds) :
    ∃ selected, dom.select parseF64 source = .ok selected ∧
      (∀ handle, handle ∈ selected ↔ dom.Assigns compounds handle) ∧
      selected.Pairwise (· < ·) := by
  have hne : compounds ≠ [] := by
    rw [parse, Except.bind_eq_ok] at hparse
    obtain ⟨parsed, -, hparse⟩ := hparse
    rw [Except.ite_error_eq_ok] at hparse
    obtain ⟨hempty, hparse⟩ := hparse
    cases hparse
    exact fun h => hempty (by rw [h]; rfl)
  obtain ⟨front, subject, rfl⟩ : ∃ front subject, compounds = front ++ [subject] :=
    ⟨_, _, (List.dropLast_append_getLast hne).symm⟩
  refine ⟨dom.handles.filter (dom.matchesChain (front ++ [subject])), ?_, fun handle => ?_,
    dom.pairwise_handles.filter _⟩
  · rw [select, hparse]
    rfl
  · rw [List.mem_filter, matchesChain_iff htree, mem_handles htree]
    refine ⟨And.right, fun h => ⟨?_, h⟩⟩
    rw [← matchesChain_iff htree, matchesChain, List.getLast?_concat] at h
    exact live_of_matchesCompound (Bool.and_eq_true_iff.1 h).1

/-- In a new tree, the body is selected below the session. -/
theorem select_body_below_session : ∃ selected,
    Dom.new.select (fun _ => none) "session body".toList = .ok selected ∧
      (∀ handle, handle ∈ selected ↔ Dom.new.Assigns
        [⟨some (.known .session), []⟩, ⟨some (.known .body), []⟩] handle) ∧
      selected.Pairwise (· < ·) :=
  select_exactly (tree_withHighWater 4) _ (by decide +kernel)

/-! ## The order of the selected nodes -/

/-- The nodes of a subtree in document order, to a given depth. -/
def preorder (dom : Dom) : Nat → Handle → List Handle
  | 0, _ => []
  | rounds + 1, handle => handle :: (dom.children handle).flatMap (dom.preorder rounds)

def documentOrder (dom : Dom) : List Handle := dom.preorder (dom.highWater + 1) root

/-- Two turns, the second put in front of the first. -/
def turnsInFront : Txn :=
  ⟨sampleCause, none, [.ins body none { tag := .known .turn }, .ins body none { tag := .known .turn }]⟩

/-- The turns are selected in the order of their handles, which is not that of the document. -/
theorem select_not_documentOrder : ∃ dom minted, Dom.new.apply turnsInFront = .ok (dom, minted) ∧
    ∃ selected, dom.select (fun _ => none) ['t', 'u', 'r', 'n'] = .ok selected ∧
      ¬ selected.Sublist dom.documentOrder := by
  refine ⟨_, _, rfl, [5, 6], by decide +kernel, by decide +kernel⟩

end Dom

end OhMyPi
