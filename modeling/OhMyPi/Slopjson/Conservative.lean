import OhMyPi.Slopjson.Repair
import OhMyPi.Slopjson.Tokens

/-! The tolerant parser is conservative over JSON: on a text of the standard grammar no tolerance
branch is taken, by induction on the derivation of the text. -/

namespace OhMyPi.Slopjson

open Text JsonTokens

variable {D : Doubles}

/-! ## Where a token starts -/

/-- The first character of a value or a key. -/
structure Starts (c : Char) : Prop where
  not_blank : isSpace c = false
  not_slash : c ≠ '/'
  not_comma : c ≠ ','
  not_bracket : c ≠ ']'
  not_brace : c ≠ '\x7d'

theorem Starts.stops {c : Char} (h : Starts c) (text : List Char) : Parser.Stops (c :: text) := by
  rintro x ⟨⟩
  exact ⟨h.not_blank, h.not_slash⟩

theorem starts_of_digit {c : Char} (h : isDigit c = true) : Starts c := by
  constructor
  · rw [Bool.eq_false_iff]
    intro hblank
    simp only [isSpace, Bool.or_eq_true, decide_eq_true_eq] at hblank
    rcases hblank with ((rfl | rfl) | rfl) | rfl <;> cases h
  all_goals
    rintro rfl
    cases h

theorem starts_of_number {c : Char} (h : c = '-' ∨ isDigit c = true) : Starts c := by
  rcases h with rfl | h
  · constructor <;> decide
  · exact starts_of_digit h

theorem starts_quote : Starts '"' := by
  constructor <;> decide

theorem starts_of_denotes {depth : Nat} {text : List Char} {v : Value D}
    (h : Denotes depth text (.value v)) : ∃ c rest, text = c :: rest ∧ Starts c := by
  cases h with
  | null => exact ⟨_, _, rfl, by constructor <;> decide⟩
  | true => exact ⟨_, _, rfl, by constructor <;> decide⟩
  | false => exact ⟨_, _, rfl, by constructor <;> decide⟩
  | number n =>
    obtain ⟨c, rest, htext, hc⟩ := head_text n
    exact ⟨c, rest, htext, starts_of_number hc⟩
  | string l => exact ⟨_, _, rfl, starts_quote⟩
  | emptyArray => exact ⟨_, _, rfl, by constructor <;> decide⟩
  | array => exact ⟨_, _, rfl, by constructor <;> decide⟩
  | emptyObject => exact ⟨_, _, rfl, by constructor <;> decide⟩
  | object => exact ⟨_, _, rfl, by constructor <;> decide⟩

/-- A blank ends a token. -/
theorem ends_of_blank {w text : List Char} (hw : Blank w) (h : Ends text) : Ends (w ++ text) := by
  cases w with
  | nil => exact h
  | cons c w =>
    rintro x ⟨⟩
    have hc := hw c List.mem_cons_self
    simp only [isSpace, Bool.or_eq_true, decide_eq_true_eq] at hc
    rcases hc with ((rfl | rfl) | rfl) | rfl <;> exact ⟨rfl, rfl⟩

/-! ## Separators -/

namespace Deserializer

def move (de : Deserializer) (a b : List Char) : Deserializer := { de with p := de.p.move a b }

@[simp] theorem move_p (de : Deserializer) (a b : List Char) : (de.move a b).p = de.p.move a b := rfl

@[simp] theorem move_depth (de : Deserializer) (a b : List Char) :
    (de.move a b).depth = de.depth := rfl

@[simp] theorem move_move (de : Deserializer) (a b c d : List Char) :
    (de.move a b).move c d = de.move (a ++ c) d := by
  simp [move]

/-- Nothing has been repaired so far. -/
structure Clean (de : Deserializer) : Prop where
  mode : de.p.mode = .strict
  repairs : de.p.repairs = []

theorem Clean.move {de : Deserializer} (h : de.Clean) (a b : List Char) : (de.move a b).Clean :=
  ⟨h.mode, h.repairs⟩

/-- What stands before an entry: a comma unless it is the first one. -/
inductive Lead : Bool → List Char → Prop
  | first : Blank w → Lead true w
  | later : Blank w → Blank w' → Lead false (w ++ ',' :: w')

/-- The lead without the whitespace behind the comma. -/
inductive Opening : Bool → List Char → Prop
  | first : Opening true []
  | later : Blank w → Opening false (w ++ [','])

theorem Opening.lead {first : Bool} {opening w : List Char} (h : Opening first opening)
    (hw : Blank w) : Lead first (opening ++ w) := by
  cases h with
  | first => exact .first hw
  | later hw' =>
    rw [List.append_assoc]
    exact .later hw' hw

/-- The whitespace behind a separator. -/
theorem ws_behind (p : Parser) (w : List Char) (x : Char) {w' : List Char} {c : Char}
    {text : List Char} (hw' : Blank w') (hc : Starts c) :
    ((p.move w (x :: (w' ++ c :: text))).move [x] (w' ++ c :: text)).ws =
      p.move (w ++ x :: w') (c :: text) := by
  rw [Parser.move_move, Parser.ws_of_blank rfl hw' (hc.stops text), Parser.move_move,
    List.append_assoc]
  rfl

theorem separators_entry {close : Char} {first : Bool} {p : Parser} {lead : List Char} {c : Char}
    {text : List Char} (hlead : Lead first lead) (hrest : p.rest = lead ++ c :: text) (hc : Starts c)
    (hclose : c ≠ close) (hcomma : ',' ≠ close) :
    separators close first p = .entry (!first) (p.move lead (c :: text)) := by
  have hentry : ∀ (fuel : Nat) (sawComma : Bool) (p : Parser), p.rest = c :: text →
      separatorsLoop close first (fuel + 1) sawComma p = .entry sawComma p := by
    intro fuel sawComma p hp
    rw [separatorsLoop, hp]
    simp only
    rw [if_neg hclose, if_neg hc.not_comma]
  cases hlead with
  | first hw =>
    rw [separators, Parser.ws_of_blank hrest hw (hc.stops text)]
    exact hentry _ _ _ rfl
  | @later w w' hw hw' =>
    rw [List.append_assoc, List.cons_append] at hrest
    have hws := Parser.ws_of_blank hrest hw (by rintro x ⟨⟩; exact ⟨rfl, by decide⟩)
    have hnottrailing : ¬(some c = some close) := fun h => hclose (Option.some.inj h)
    rw [separators, hws, Parser.move_rest, separatorsLoop, Parser.move_rest]
    simp only
    rw [if_neg hcomma, if_pos trivial, ws_behind p w ',' hw' hc]
    simp only [Parser.move_rest, List.head?_cons, hnottrailing, false_or, Bool.false_eq_true, or_self,
      if_false, List.length_cons]
    exact hentry _ _ _ rfl

theorem separators_close {close : Char} {first : Bool} {p : Parser} {w text : List Char}
    (hw : Blank w) (hrest : p.rest = w ++ close :: text)
    (hstops : isSpace close = false ∧ close ≠ '/') :
    separators close first p = .closed (p.move (w ++ [close]) text) := by
  have hws := Parser.ws_of_blank hrest hw (by rintro x ⟨⟩; exact hstops)
  rw [separators, hws, Parser.move_rest, separatorsLoop, Parser.move_rest]
  simp only
  rw [if_pos trivial, Parser.move_move]

theorem nextElement_entry {de : Deserializer} {first : Bool} {lead : List Char} {c : Char}
    {text : List Char} (hlead : Lead first lead) (hrest : de.p.rest = lead ++ c :: text)
    (hc : Starts c) : de.nextElement first = pure (true, de.move lead (c :: text)) := by
  rw [nextElement, separators_entry hlead hrest hc hc.not_bracket (by decide)]
  cases first <;> rfl

theorem nextElement_close {de : Deserializer} {first : Bool} {w text : List Char} (hw : Blank w)
    (hrest : de.p.rest = w ++ ']' :: text) :
    de.nextElement first = pure (false, de.move (w ++ [']']) text) := by
  rw [nextElement, separators_close hw hrest ⟨rfl, by decide⟩]
  rfl

theorem retargetRepairsFrom_of_nil {p : Parser} (h : p.repairs = []) (start : Nat)
    (segment : PathSegment) : p.retargetRepairsFrom start segment = p := by
  obtain ⟨pos, rest, mode, repairs, path⟩ := p
  subst h
  rfl

theorem nextKey_entry {de : Deserializer} {first : Bool} {lead : List Char} (l : Literal)
    {text : List Char} (hclean : de.Clean) (hlead : Lead first lead)
    (hrest : de.p.rest = lead ++ (l.text ++ text)) :
    de.nextKey first = pure (some l.value, de.move (lead ++ l.text) text) := by
  have hcons : l.text ++ text = '"' :: (l.body ++ '"' :: text) := by
    rw [Literal.text, List.cons_append, List.append_assoc]
    rfl
  rw [hcons] at hrest
  have hmode : (de.p.move lead ('"' :: (l.body ++ '"' :: text))).mode = .strict := hclean.mode
  have hkey : mapKey (de.move lead ('"' :: (l.body ++ '"' :: text))) =
      pure (l.value, de.move (lead ++ l.text) text) := by
    rw [mapKey, move_p, Parser.move_rest]
    simp only
    rw [Parser.string_literal l hmode, Parser.move_move]
    have hretarget := retargetRepairsFrom_of_nil (hclean.move (lead ++ l.text) text).repairs
      (de.p.move lead ('"' :: (l.body ++ '"' :: text))).pos (.key l.value)
    exact congrArg (fun p => (pure (l.value, { de with p }) : Read _)) hretarget
  rw [nextKey, separators_entry hlead hrest starts_quote (by decide) (by decide)]
  simp only
  rw [if_neg (by cases first <;> simp)]
  exact congrArg (· >>= fun x => pure (some x.1, x.2)) hkey

theorem nextKey_close {de : Deserializer} {first : Bool} {w text : List Char} (hw : Blank w)
    (hrest : de.p.rest = w ++ '\x7d' :: text) :
    de.nextKey first = pure (none, de.move (w ++ ['\x7d']) text) := by
  rw [nextKey, separators_close hw hrest ⟨rfl, by decide⟩]
  rfl

theorem colon_eq {de : Deserializer} {w w' : List Char} {c : Char} {text : List Char}
    (hw : Blank w) (hw' : Blank w') (hc : Starts c)
    (hrest : de.p.rest = w ++ ':' :: (w' ++ c :: text)) :
    de.colon = pure (de.move (w ++ ':' :: w') (c :: text)) := by
  have hws := Parser.ws_of_blank hrest hw (by rintro x ⟨⟩; exact ⟨rfl, by decide⟩)
  rw [colon, hws, Parser.move_rest]
  simp only
  rw [ws_behind de.p w ':' hw' hc, Parser.move_rest, if_neg (List.cons_ne_nil _ _)]
  rfl

/-! ## Values -/

theorem inValuePosition_eq {α : Type} {segment : PathSegment}
    {f : Deserializer → Read (α × Deserializer)} {de : Deserializer} {a : α} {taken rest : List Char}
    (h : ∀ below : Deserializer, (de.Clean → below.Clean) → below.depth = de.depth →
      below.p.rest = de.p.rest → f below = pure (a, below.move taken rest)) :
    de.inValuePosition segment f = pure (a, de.move taken rest) := by
  have hbelow := h { de with p := de.p.pushRepairPath segment, allowBareword := true }
    (fun hclean => ⟨hclean.mode, hclean.repairs⟩) rfl rfl
  rw [inValuePosition, hbelow, pure_bind]
  simp [move, Parser.move, Parser.pushRepairPath, Parser.popRepairPath]

/-- What the readers do with a part of a text. -/
def Reads (depth : Nat) (text : List Char) : Reading D → Prop
  | .value v => ∀ (fuel : Nat) (de : Deserializer) (w rest : List Char), text.length < fuel →
    de.Clean → de.depth + depth ≤ maxDepth → Blank w → Ends rest →
    de.p.rest = w ++ (text ++ rest) → de.deserializeAny fuel = pure (v, de.move (w ++ text) rest)
  | .elements vs => ∀ (fuel index : Nat) (items : List (Value D)) (de : Deserializer)
    (opening rest : List Char), text.length + 1 < fuel → de.Clean → de.depth + depth ≤ maxDepth →
    Opening (index = 0) opening → de.p.rest = opening ++ (text ++ ']' :: rest) →
    visitSeq fuel index items de =
      pure (items ++ vs, de.move (opening ++ (text ++ [']'])) rest)
  | .members ms => ∀ (fuel : Nat) (first : Bool) (object : List (List Char × Value D))
    (de : Deserializer) (opening rest : List Char), text.length + 1 < fuel → de.Clean →
    de.depth + depth ≤ maxDepth → Opening first opening →
    de.p.rest = opening ++ (text ++ '\x7d' :: rest) →
    visitMap fuel first object de =
      pure (KeyedList.assignAll ms object, de.move (opening ++ (text ++ ['\x7d'])) rest)

/-- A value behind whitespace, by its first character. -/
theorem deserializeAny_eq {fuel : Nat} {de : Deserializer} {w : List Char} {c : Char}
    {text : List Char} (hw : Blank w) (hc : Starts c) (hrest : de.p.rest = w ++ c :: text) :
    deserializeAny (D := D) (fuel + 1) de =
      if c = '\x7b' then do
        let inner ← (de.move w (c :: text)).descend
        let (members, next) ← visitMap fuel true [] (inner.move [c] text)
        pure (.object members, { next with depth := next.depth - 1 })
      else if c = '[' then do
        let inner ← (de.move w (c :: text)).descend
        let (items, next) ← visitSeq fuel 0 [] (inner.move [c] text)
        pure (.array items, { next with depth := next.depth - 1 })
      else (de.move w (c :: text)).scalar c text := by
  have hws : de.p.ws = de.p.move w (c :: text) := Parser.ws_of_blank hrest hw (hc.stops text)
  rw [deserializeAny, hws]
  rfl

theorem reads_scalar {depth : Nat} {text : List Char} {v : Value D} {c : Char} {t : List Char}
    (htext : text = c :: t) (hc : Starts c) (hbrace : c ≠ '\x7b') (hbracket : c ≠ '[')
    (h : ∀ (de : Deserializer) (rest : List Char), de.Clean → Ends rest →
      de.p.rest = text ++ rest → de.scalar c (t ++ rest) = pure (v, de.move text rest)) :
    Reads depth text (.value v) := by
  intro fuel de w rest hfuel hclean hdepth hw hends hrest
  obtain ⟨fuel, rfl⟩ := Nat.exists_eq_succ_of_ne_zero (Nat.ne_of_gt (Nat.zero_lt_of_lt hfuel))
  have hcons : text ++ rest = c :: (t ++ rest) := by rw [htext, List.cons_append]
  rw [hcons] at hrest
  rw [Nat.succ_eq_add_one, deserializeAny_eq hw hc hrest, if_neg hbrace, if_neg hbracket,
    h _ rest (hclean.move _ _) hends hcons.symm, move_move]

def atomValue : Atom → Value D
  | .bool b => .bool b
  | .null => .null

theorem scalar_word {de : Deserializer} {c : Char} (hc : c.isLower = true) {atom : Atom}
    {p : Parser} (h : de.p.matchKeyword = some (atom, p)) (rest : List Char) :
    de.scalar (D := D) c rest = pure (atomValue atom, { de with p }) := by
  rw [scalar, if_neg, if_neg, h]
  · cases atom <;> rfl
  · rintro (rfl | rfl | rfl | hdigit)
    · cases hc
    · cases hc
    · cases hc
    · have hlow : 'a'.val ≤ c.val := of_decide_eq_true (Bool.and_eq_true_iff.1 hc).1
      have hhigh : c.val ≤ '9'.val := of_decide_eq_true (Bool.and_eq_true_iff.1 hdigit).2
      exact absurd (UInt32.le_trans hlow hhigh) (by decide)
  · rintro (rfl | rfl) <;> cases hc

theorem scalar_literal (l : Literal) {de : Deserializer} (hclean : de.Clean) (rest : List Char) :
    de.scalar (D := D) '"' (l.body ++ ['"'] ++ rest) = pure (.string l.value, de.move l.text rest) := by
  rw [scalar, if_pos (.inl rfl), List.append_assoc, List.singleton_append,
    Parser.string_literal l hclean.mode]
  rfl

theorem scalar_number {n : Numeral} (hn : FiniteNumeral D n) {de : Deserializer} {rest : List Char}
    {c : Char} {t : List Char} (hc : c = '-' ∨ isDigit c = true)
    (hrest : de.p.rest = n.text ++ rest) (hends : Ends rest) :
    de.scalar (D := D) c t = pure (.number (standardNumber n), de.move n.text rest) := by
  have hnumber : c = '-' ∨ c = '+' ∨ c = '.' ∨ isDigit c = true :=
    hc.imp_right fun h => .inr (.inr h)
  have hquote : ¬(c = '"' ∨ c = '\'') := by
    rintro (rfl | rfl) <;> rcases hc with hc | hc <;> cases hc
  rw [scalar, if_neg hquote, if_pos hnumber, Parser.number_text hrest hends hn]
  cases hstandard : standardNumber (D := D) n with
  | posInt v => rfl
  | negInt v => rfl
  | float v =>
    have hvalue : Value.fromF64 (D := D) v = .number (.float v) := by
      rw [Value.fromF64, Number.fromF64, if_pos (hn v hstandard)]
      rfl
    exact congrArg (fun x => (pure (x, de.move n.text rest) : Read _)) hvalue

/-- Inside a container. -/
def enter (de : Deserializer) (taken rest : List Char) : Deserializer :=
  ⟨de.p.move taken rest, de.depth + 1, de.allowBareword⟩

theorem deserializeAny_array {fuel depth : Nat} {de : Deserializer} {w text : List Char}
    (hw : Blank w) (hdepth : de.depth + (depth + 1) ≤ maxDepth)
    (hrest : de.p.rest = w ++ '[' :: text) : deserializeAny (D := D) (fuel + 1) de =
      (visitSeq fuel 0 [] (de.enter (w ++ ['[']) text) >>= fun (items, next) =>
        pure (.array items, { next with depth := next.depth - 1 })) := by
  rw [deserializeAny_eq hw (by constructor <;> decide) hrest, if_neg (by decide), if_pos rfl, descend,
    if_neg (by rw [move_depth]; omega), pure_bind, enter, ← Parser.move_move]
  rfl

theorem deserializeAny_object {fuel depth : Nat} {de : Deserializer} {w text : List Char}
    (hw : Blank w) (hdepth : de.depth + (depth + 1) ≤ maxDepth)
    (hrest : de.p.rest = w ++ '\x7b' :: text) : deserializeAny (D := D) (fuel + 1) de =
      (visitMap fuel true [] (de.enter (w ++ ['\x7b']) text) >>= fun (members, next) =>
        pure (.object members, { next with depth := next.depth - 1 })) := by
  rw [deserializeAny_eq hw (by constructor <;> decide) hrest, if_pos rfl, descend,
    if_neg (by rw [move_depth]; omega), pure_bind, enter, ← Parser.move_move]
  rfl

theorem reads_array {depth : Nat} {t : List Char} {vs : List (Value D)}
    (h : ∀ (fuel : Nat) (inner : Deserializer) (rest : List Char), t.length + 1 < fuel →
      inner.Clean → inner.depth + depth ≤ maxDepth → inner.p.rest = t ++ ']' :: rest →
      visitSeq fuel 0 [] inner = pure (vs, inner.move (t ++ [']']) rest)) :
    Reads (depth + 1) ('[' :: (t ++ [']'])) (.value (.array vs)) := by
  intro fuel de w rest hfuel hclean hdepth hw hends hrest
  rw [List.length_cons, List.length_append, List.length_singleton] at hfuel
  obtain ⟨fuel, rfl⟩ := Nat.exists_eq_succ_of_ne_zero (Nat.ne_of_gt (Nat.zero_lt_of_lt hfuel))
  have hcons : '[' :: (t ++ [']']) ++ rest = '[' :: (t ++ ']' :: rest) := by simp
  rw [hcons] at hrest
  have hseq := h fuel (de.enter (w ++ ['[']) (t ++ ']' :: rest)) rest (by omega)
    ⟨hclean.mode, hclean.repairs⟩ (by change de.depth + 1 + depth ≤ maxDepth; omega) rfl
  rw [Nat.succ_eq_add_one, deserializeAny_array hw hdepth hrest, hseq, pure_bind]
  simp [move, enter]

theorem reads_object {depth : Nat} {t : List Char} {ms : List (List Char × Value D)}
    (h : ∀ (fuel : Nat) (inner : Deserializer) (rest : List Char), t.length + 1 < fuel →
      inner.Clean → inner.depth + depth ≤ maxDepth → inner.p.rest = t ++ '\x7d' :: rest →
      visitMap fuel true [] inner = pure (ms, inner.move (t ++ ['\x7d']) rest)) :
    Reads (depth + 1) ('\x7b' :: (t ++ ['\x7d'])) (.value (.object ms)) := by
  intro fuel de w rest hfuel hclean hdepth hw hends hrest
  rw [List.length_cons, List.length_append, List.length_singleton] at hfuel
  obtain ⟨fuel, rfl⟩ := Nat.exists_eq_succ_of_ne_zero (Nat.ne_of_gt (Nat.zero_lt_of_lt hfuel))
  have hcons : '\x7b' :: (t ++ ['\x7d']) ++ rest = '\x7b' :: (t ++ '\x7d' :: rest) := by simp
  rw [hcons] at hrest
  have hmap := h fuel (de.enter (w ++ ['\x7b']) (t ++ '\x7d' :: rest)) rest (by omega)
    ⟨hclean.mode, hclean.repairs⟩ (by change de.depth + 1 + depth ≤ maxDepth; omega) rfl
  rw [Nat.succ_eq_add_one, deserializeAny_object hw hdepth hrest, hmap, pure_bind]
  simp [move, enter]

theorem visitSeq_close {fuel index : Nat} {items : List (Value D)} {de : Deserializer}
    {w rest : List Char} (hfuel : 0 < fuel) (hw : Blank w) (hrest : de.p.rest = w ++ ']' :: rest) :
    visitSeq fuel index items de = pure (items, de.move (w ++ [']']) rest) := by
  obtain ⟨fuel, rfl⟩ := Nat.exists_eq_succ_of_ne_zero hfuel.ne'
  rw [Nat.succ_eq_add_one, visitSeq, nextElement_close hw hrest, pure_bind]

theorem visitMap_close {fuel : Nat} {first : Bool} {object : List (List Char × Value D)}
    {de : Deserializer} {w rest : List Char} (hfuel : 0 < fuel) (hw : Blank w)
    (hrest : de.p.rest = w ++ '\x7d' :: rest) :
    visitMap fuel first object de = pure (object, de.move (w ++ ['\x7d']) rest) := by
  obtain ⟨fuel, rfl⟩ := Nat.exists_eq_succ_of_ne_zero hfuel.ne'
  rw [Nat.succ_eq_add_one, visitMap, nextKey_close hw hrest, pure_bind]

/-- One round of `visit_seq`. -/
theorem visitSeq_entry {depth fuel index : Nat} {items : List (Value D)} {de : Deserializer}
    {lead t rest : List Char} {v : Value D} (hv : Denotes depth t (.value v))
    (ih : Reads depth t (.value v)) (hfuel : t.length < fuel) (hclean : de.Clean)
    (hdepth : de.depth + depth ≤ maxDepth) (hlead : Lead (index = 0) lead) (hends : Ends rest)
    (hrest : de.p.rest = lead ++ (t ++ rest)) :
    visitSeq (fuel + 1) index items de =
      visitSeq fuel (index + 1) (items ++ [v]) (de.move (lead ++ t) rest) := by
  obtain ⟨c, t', ht, hc⟩ := starts_of_denotes hv
  have hcons : t ++ rest = c :: (t' ++ rest) := by rw [ht, List.cons_append]
  have hvalue : (de.move lead (t ++ rest)).inValuePosition (.index index) (deserializeAny fuel) =
      pure (v, (de.move lead (t ++ rest)).move t rest) := by
    refine inValuePosition_eq fun below hbelow hdepth' hrest' => ?_
    exact ih fuel below [] rest hfuel (hbelow (hclean.move _ _)) (hdepth' ▸ hdepth)
      (fun x hx => by cases hx) hends hrest'
  have hentry : de.nextElement (index = 0) = pure (true, de.move lead (t ++ rest)) := by
    rw [hcons] at hrest ⊢
    exact nextElement_entry hlead hrest hc
  rw [visitSeq, hentry, pure_bind]
  simp only
  rw [hvalue, pure_bind, move_move]

/-- One round of `visit_map`. -/
theorem visitMap_entry {depth fuel : Nat} {first : Bool} {object : List (List Char × Value D)}
    {de : Deserializer} (l : Literal) {lead w w' t rest : List Char} {v : Value D}
    (hv : Denotes depth t (.value v)) (ih : Reads depth t (.value v)) (hfuel : t.length < fuel)
    (hclean : de.Clean) (hdepth : de.depth + depth ≤ maxDepth) (hlead : Lead first lead)
    (hw : Blank w) (hw' : Blank w') (hends : Ends rest)
    (hrest : de.p.rest = lead ++ (l.text ++ (w ++ ':' :: (w' ++ (t ++ rest))))) :
    visitMap (fuel + 1) first object de =
      visitMap fuel false (Object.insert object l.value v)
        (de.move (lead ++ (l.text ++ (w ++ ':' :: (w' ++ t)))) rest) := by
  obtain ⟨c, t', ht, hc⟩ := starts_of_denotes hv
  have hcons : t ++ rest = c :: (t' ++ rest) := by rw [ht, List.cons_append]
  have hkey := nextKey_entry l hclean hlead hrest
  have hcolon : (de.move (lead ++ l.text) (w ++ ':' :: (w' ++ (t ++ rest)))).colon =
      pure ((de.move (lead ++ l.text) (w ++ ':' :: (w' ++ (t ++ rest)))).move (w ++ ':' :: w')
        (t ++ rest)) := by
    rw [hcons]
    exact colon_eq hw hw' hc rfl
  have hvalue : (de.move (lead ++ l.text ++ (w ++ ':' :: w')) (t ++ rest)).inValuePosition
      (.key l.value) (deserializeAny fuel) =
        pure (v, (de.move (lead ++ l.text ++ (w ++ ':' :: w')) (t ++ rest)).move t rest) := by
    refine inValuePosition_eq fun below hbelow hdepth' hrest' => ?_
    exact ih fuel below [] rest hfuel (hbelow (hclean.move _ _)) (hdepth' ▸ hdepth)
      (fun x hx => by cases hx) hends hrest'
  rw [visitMap, hkey, pure_bind]
  simp only
  rw [hcolon, pure_bind, move_move, hvalue, pure_bind, move_move]
  simp only [List.append_assoc, List.cons_append]

/-- Every part of a text of the grammar is read as what it stands for. -/
theorem reads_of_denotes {depth : Nat} {text : List Char} {r : Reading D}
    (h : Denotes depth text r) : Reads depth text r := by
  have hdelimiter : ∀ {c : Char} {rest : List Char}, c = ',' ∨ c = ']' ∨ c = '\x7d' →
      Ends (c :: rest) := by
    rintro c rest h x ⟨⟩
    rcases h with rfl | rfl | rfl <;> exact ⟨rfl, rfl⟩
  induction h with
  | null =>
    refine reads_scalar rfl (by constructor <;> decide) (by decide) (by decide)
      fun de rest hclean hends hrest => ?_
    exact scalar_word rfl (Parser.matchKeyword_null hrest hends) _
  | true =>
    refine reads_scalar rfl (by constructor <;> decide) (by decide) (by decide)
      fun de rest hclean hends hrest => ?_
    exact scalar_word rfl (Parser.matchKeyword_true hrest hends) _
  | false =>
    refine reads_scalar rfl (by constructor <;> decide) (by decide) (by decide)
      fun de rest hclean hends hrest => ?_
    exact scalar_word rfl (Parser.matchKeyword_false hrest hends) _
  | number n hn =>
    obtain ⟨c, t, htext, hc⟩ := head_text n
    refine reads_scalar htext (starts_of_number hc) ?_ ?_
      fun de rest hclean hends hrest => scalar_number hn hc hrest hends
    · rintro rfl
      rcases hc with hc | hc <;> cases hc
    · rintro rfl
      rcases hc with hc | hc <;> cases hc
  | string l =>
    exact reads_scalar rfl starts_quote (by decide) (by decide)
      fun de rest hclean hends hrest => scalar_literal l hclean rest
  | emptyArray hw =>
    exact reads_array fun fuel inner rest hfuel hclean hdepth hrest =>
      visitSeq_close (by omega) hw hrest
  | array _ ih =>
    refine reads_array fun fuel inner rest hfuel hclean hdepth hrest => ?_
    exact ih fuel 0 [] inner [] rest hfuel hclean hdepth .first hrest
  | emptyObject hw =>
    exact reads_object fun fuel inner rest hfuel hclean hdepth hrest =>
      visitMap_close (by omega) hw hrest
  | object _ ih =>
    refine reads_object fun fuel inner rest hfuel hclean hdepth hrest => ?_
    rw [ih fuel true [] inner [] rest hfuel hclean hdepth .first hrest,
      KeyedList.assignAll_nil_eq_lastWins, List.nil_append]
  | element hw hv hw' ih =>
    intro fuel index items de opening rest hfuel hclean hdepth hopening hrest
    simp only [List.length_append] at hfuel
    obtain ⟨fuel, rfl⟩ := Nat.exists_eq_succ_of_ne_zero (Nat.ne_of_gt (Nat.zero_lt_of_lt hfuel))
    simp only [List.append_assoc] at hrest
    rw [← List.append_assoc] at hrest
    rw [Nat.succ_eq_add_one, visitSeq_entry hv ih (by omega) hclean hdepth (hopening.lead hw)
      (ends_of_blank hw' (hdelimiter (.inr (.inl rfl)))) hrest, visitSeq_close (by omega) hw' rfl,
      move_move]
    simp only [List.append_assoc]
  | elements hw hv hw' _ ih ihrest =>
    intro fuel index items de opening rest hfuel hclean hdepth hopening hrest
    simp only [List.length_append, List.length_cons] at hfuel
    obtain ⟨fuel, rfl⟩ := Nat.exists_eq_succ_of_ne_zero (Nat.ne_of_gt (Nat.zero_lt_of_lt hfuel))
    simp only [List.append_assoc, List.cons_append] at hrest
    rw [← List.append_assoc] at hrest
    rw [Nat.succ_eq_add_one, visitSeq_entry hv ih (by omega) hclean hdepth (hopening.lead hw)
      (ends_of_blank hw' (hdelimiter (.inl rfl))) hrest,
      ihrest fuel (index + 1) _ _ (_ ++ [',']) rest (by omega) (hclean.move _ _) hdepth
        (.later hw') (by simp), move_move]
    simp only [List.append_assoc, List.cons_append, List.nil_append]
  | member l h₁ h₂ h₃ hv h₄ ih =>
    intro fuel first object de opening rest hfuel hclean hdepth hopening hrest
    simp only [List.length_append, List.length_cons] at hfuel
    obtain ⟨fuel, rfl⟩ := Nat.exists_eq_succ_of_ne_zero (Nat.ne_of_gt (Nat.zero_lt_of_lt hfuel))
    simp only [List.append_assoc, List.cons_append] at hrest
    rw [← List.append_assoc] at hrest
    rw [Nat.succ_eq_add_one, visitMap_entry l hv ih (by omega) hclean hdepth (hopening.lead h₁) h₂ h₃
      (ends_of_blank h₄ (hdelimiter (.inr (.inr rfl)))) hrest, visitMap_close (by omega) h₄ rfl,
      move_move]
    simp only [List.append_assoc, List.cons_append]
    rfl
  | members l h₁ h₂ h₃ hv h₄ _ ih ihrest =>
    intro fuel first object de opening rest hfuel hclean hdepth hopening hrest
    simp only [List.length_append, List.length_cons] at hfuel
    obtain ⟨fuel, rfl⟩ := Nat.exists_eq_succ_of_ne_zero (Nat.ne_of_gt (Nat.zero_lt_of_lt hfuel))
    simp only [List.append_assoc, List.cons_append] at hrest
    rw [← List.append_assoc] at hrest
    rw [Nat.succ_eq_add_one, visitMap_entry l hv ih (by omega) hclean hdepth (hopening.lead h₁) h₂ h₃
      (ends_of_blank h₄ (hdelimiter (.inl rfl))) hrest,
      ihrest fuel false _ _ (_ ++ [',']) rest (by omega) (hclean.move _ _) hdepth (.later h₄)
        (by simp), move_move]
    simp only [List.append_assoc, List.cons_append, List.nil_append]
    rfl

end Deserializer

/-! ## The repair of strings -/

/-- The text is kept, and ends outside of a string when it starts there. -/
def Kept (text : List Char) : Prop :=
  ∀ (rest : List Char) (o : Output),
    repairLoop (text ++ rest) false o = repairLoop rest false (o.keep text)

@[simp] theorem Output.keep_keep (o : Output) (a b : List Char) :
    (o.keep a).keep b = o.keep (a ++ b) := by
  simp [Output.keep]

theorem Kept.append {a b : List Char} (ha : Kept a) (hb : Kept b) : Kept (a ++ b) := by
  intro rest o
  rw [List.append_assoc, ha, hb, Output.keep_keep]

theorem kept_of_no_quote {text : List Char} (h : ∀ c ∈ text, c ≠ '"') : Kept text := by
  intro rest o
  induction text generalizing o with
  | nil => simp [Output.keep]
  | cons c text ih =>
    obtain ⟨hc, hrest⟩ := List.forall_mem_cons.1 h
    rw [List.cons_append, repairLoop.eq_def]
    simp only [if_true, hc, decide_false]
    rw [ih hrest, Output.keep_keep]
    rfl

theorem kept_blank {w : List Char} (hw : Blank w) : Kept w :=
  kept_of_no_quote fun c hc hquote => by
    have := hw c hc
    rw [hquote] at this
    cases this

theorem Kept.cons {c : Char} {text : List Char} (hc : c ≠ '"') (h : Kept text) :
    Kept (c :: text) := by
  have hsingle : Kept [c] := kept_of_no_quote (List.forall_mem_singleton.2 hc)
  exact hsingle.append h

theorem repairLoop_piece (piece : Piece) (rest : List Char) (o : Output) :
    repairLoop (piece.text ++ rest) true o = repairLoop rest true (o.keep piece.text) := by
  cases piece with
  | raw c hprintable hquote hbackslash =>
    rw [Piece.text, List.singleton_append, repairLoop.eq_def]
    simp only
    rw [if_neg (by decide), if_neg hquote, if_neg hbackslash, if_neg (by omega)]
  | short letter c escape =>
    have hvalid : isValidEscape letter = true := by rw [isValidEscape, escape]; rfl
    change repairLoop ('\\' :: letter :: rest) true o = _
    rw [repairLoop.eq_def]
    simp only
    rw [if_neg (by decide), if_neg (by decide), if_pos trivial]
    split
    · next heq => cases heq
    · next heq =>
      cases heq
      cases escape
    · next heq =>
      cases heq
      rw [if_pos hvalid]
      rfl
  | unicode a b c d unit hex =>
    have hsome : (unitOf a b c d).isSome = true := by rw [hex]; rfl
    change repairLoop ('\\' :: 'u' :: a :: b :: c :: d :: rest) true o = _
    rw [repairLoop.eq_def]
    simp only
    rw [if_neg (by decide), if_neg (by decide), if_pos trivial, if_pos hsome]
    rfl

theorem kept_literal (l : Literal) : Kept l.text := by
  intro rest o
  have hbody : ∀ (l : Literal) (o : Output), repairLoop (l.body ++ '"' :: rest) true o =
      repairLoop rest false (o.keep (l.body ++ ['"'])) := by
    intro l
    induction l with
    | nil =>
      intro o
      change repairLoop ('"' :: rest) true o = _
      rw [repairLoop.eq_def]
      simp only
      rw [if_neg (by decide), if_pos trivial]
      rfl
    | cons piece l ih =>
      intro o
      change repairLoop (piece.text ++ Literal.body l ++ '"' :: rest) true o = _
      rw [List.append_assoc, repairLoop_piece, ih, Output.keep_keep, ← List.append_assoc]
      rfl
  rw [Literal.text, List.cons_append, repairLoop.eq_def]
  simp only [if_true, decide_true]
  rw [List.append_assoc, List.singleton_append, hbody, Output.keep_keep]
  rfl

theorem kept_numeral (n : Numeral) : Kept n.text :=
  kept_of_no_quote fun c hc hquote => by
    have := isNumberChar_text n c hc
    rw [hquote] at this
    cases this

theorem kept_of_denotes {depth : Nat} {text : List Char} {r : Reading D}
    (h : Denotes depth text r) : Kept text := by
  have hend : ∀ {c : Char}, c ≠ '"' → Kept [c] :=
    fun hc => kept_of_no_quote (List.forall_mem_singleton.2 hc)
  induction h with
  | null => exact kept_of_no_quote (by simp)
  | true => exact kept_of_no_quote (by simp)
  | false => exact kept_of_no_quote (by simp)
  | number n => exact kept_numeral n
  | string l => exact kept_literal l
  | emptyArray hw => exact .cons (by decide) ((kept_blank hw).append (hend (by decide)))
  | array _ ih => exact .cons (by decide) (ih.append (hend (by decide)))
  | emptyObject hw => exact .cons (by decide) ((kept_blank hw).append (hend (by decide)))
  | object _ ih => exact .cons (by decide) (ih.append (hend (by decide)))
  | element hw _ hw' ih => exact (kept_blank hw).append (ih.append (kept_blank hw'))
  | elements hw _ hw' _ ih ihrest =>
    exact (kept_blank hw).append (ih.append ((kept_blank hw').append (.cons (by decide) ihrest)))
  | member l h₁ h₂ h₃ _ h₄ ih =>
    exact (kept_blank h₁).append ((kept_literal l).append ((kept_blank h₂).append
      (.cons (by decide) ((kept_blank h₃).append (ih.append (kept_blank h₄))))))
  | members l h₁ h₂ h₃ _ h₄ _ ih ihrest =>
    exact (kept_blank h₁).append ((kept_literal l).append ((kept_blank h₂).append
      (.cons (by decide) ((kept_blank h₃).append (ih.append
        ((kept_blank h₄).append (.cons (by decide) ihrest)))))))

/-! ## Whole texts -/

theorem fromStr_of_jsonText {json : List Char} {v : Value D} (h : JsonText maxDepth json v) :
    fromStr json = pure (v, []) := by
  obtain ⟨w, text, w', hw, hv, hw', rfl⟩ := h
  have hends : Ends w' := by
    have hnil : Ends [] := fun c hc => by cases hc
    have := ends_of_blank hw' hnil
    rwa [List.append_nil] at this
  have hread := Deserializer.reads_of_denotes hv ((w ++ (text ++ w')).length + 1)
    (.new (w ++ (text ++ w'))) w w' (by simp only [List.length_append]; omega) ⟨rfl, rfl⟩
    (Nat.le_of_eq (Nat.zero_add _)) hw hends rfl
  have hend : ((Deserializer.new (w ++ (text ++ w'))).move (w ++ text) w').p.ws =
      ((Deserializer.new (w ++ (text ++ w'))).move (w ++ text) w').p.move w' [] :=
    Parser.ws_of_blank (List.append_nil _).symm hw' (fun c hc => by cases hc)
  rw [fromStr, hread, pure_bind]
  simp only
  rw [Deserializer.end, hend]
  rfl

/-- The tolerant parser is conservative over JSON: a valid text of nesting at most 128 with finite
numbers has its standard value and needs no repair, and the repair of strings gives it back. -/
theorem parse_conservative {json : List Char} {v : Value D} (h : JsonText maxDepth json v) :
    parse json = pure v ∧ fromStr json = pure (v, []) ∧ repairJson json = .borrowed := by
  have hread := fromStr_of_jsonText h
  refine ⟨?_, hread, ?_⟩
  · rw [parse, hread]
    rfl
  · obtain ⟨w, text, w', hw, hv, hw', rfl⟩ := h
    have hkept := ((kept_blank hw).append ((kept_of_denotes hv).append (kept_blank hw')))
    have hloop := hkept [] ⟨none, []⟩
    rw [List.append_nil] at hloop
    rw [repairJson, hloop]
    rfl

/-- Doubles that are exact below their bound. -/
def exactDoubles : Doubles where
  F := Option Rat
  ofDecimal neg mantissa exponent :=
    let v : Rat := (if neg then -(mantissa : Rat) else mantissa) * (10 : Rat) ^ exponent
    if v < ((2 ^ 1024 : Nat) : Rat) ∧ -((2 ^ 1024 : Nat) : Rat) < v then some v else none
  infinity _ := none
  nan := none
  isFinite v := v.isSome
  ofNat n := some n
  mulAdd v radix d := v.map fun v => v * radix + d
  display v := (toString (v.getD 0)).toList

/-- The key of both members. -/
def keyLiteral : Literal := [.raw 'a' (by decide) (by decide) (by decide)]

def loneSurrogate : Literal := [.unicode 'd' '8' '3' 'd' 0xd83d (by decide)]

theorem blank_nil : Blank [] := fun _ hc => by cases hc

theorem jsonText_duplicate : JsonText (D := exactDoubles) maxDepth
    "\x7b\"a\":true,\"a\":\"\\ud83d\"\x7d ".toList
    (.object [(['a'], .string [Char.ofNat 0xfffd])]) := by
  have hstring : Denotes (D := exactDoubles) 127 loneSurrogate.text
      (.value (.string loneSurrogate.value)) := .string loneSurrogate
  have hlast := Denotes.member keyLiteral blank_nil blank_nil blank_nil hstring blank_nil
  have hmembers := Denotes.members keyLiteral blank_nil blank_nil blank_nil .true blank_nil hlast
  exact ⟨[], _, [' '], blank_nil, .object hmembers, List.forall_mem_singleton.2 rfl, rfl⟩

theorem parse_conservative_duplicate :
    parse (D := exactDoubles) "\x7b\"a\":true,\"a\":\"\\ud83d\"\x7d ".toList =
      pure (.object [(['a'], .string [Char.ofNat 0xfffd])]) :=
  (parse_conservative jsonText_duplicate).1

end OhMyPi.Slopjson
