import OhMyPi.Lib.Tokenizer
import OhMyPi.Terminal.Input

/-! Frames and pastes are tokens: more bytes do not change one that is complete. -/

namespace OhMyPi.Terminal

/-! ## Frames that more bytes do not change -/

theorem firstEnd_eq_some {ends : Nat → Option Nat} {limit n : Nat} :
    firstEnd ends limit = some n ↔
      ∃ i, 2 ≤ i ∧ i < limit ∧ ends i = some n ∧ ∀ j, 2 ≤ j → j < i → ends j = none := by
  have hloop : ∀ count start, (List.range' start count).findSome? ends = some n ↔
      ∃ i, start ≤ i ∧ i < start + count ∧ ends i = some n ∧ ∀ j, start ≤ j → j < i → ends j = none := by
    intro count
    induction count with
    | zero =>
      intro start
      simp only [List.range'_zero, List.findSome?_nil, Nat.add_zero]
      exact ⟨nofun, fun ⟨i, hle, hlt, _⟩ => by omega⟩
    | succ count ih =>
      intro start
      rw [List.range'_succ, List.findSome?_cons]
      cases hstart : ends start with
      | some m =>
        constructor
        · rintro ⟨⟩
          exact ⟨start, le_rfl, by omega, hstart, fun j hle hlt => by omega⟩
        · rintro ⟨i, hle, -, hi, hbefore⟩
          rcases Nat.eq_or_lt_of_le hle with rfl | hlt
          · exact hstart.symm.trans hi
          · rw [hbefore start le_rfl hlt] at hstart
            cases hstart
      | none =>
        simp only [ih]
        constructor
        · rintro ⟨i, hle, hlt, hi, hbefore⟩
          refine ⟨i, by omega, by omega, hi, fun j hj hji => ?_⟩
          rcases Nat.eq_or_lt_of_le hj with rfl | hj
          · exact hstart
          · exact hbefore j hj hji
        · rintro ⟨i, hle, hlt, hi, hbefore⟩
          rcases Nat.eq_or_lt_of_le hle with rfl | hle
          · rw [hstart] at hi
            cases hi
          · exact ⟨i, hle, by omega, hi, fun j hj hji => hbefore j (by omega) hji⟩
  rw [firstEnd, hloop]
  refine exists_congr fun i => and_congr_right fun hle => and_congr_left' ?_
  omega

theorem firstEnd_eq_none {ends : Nat → Option Nat} {limit : Nat} :
    firstEnd ends limit = none ↔ ∀ i, 2 ≤ i → i < limit → ends i = none := by
  rw [firstEnd, List.findSome?_eq_none_iff]
  simp only [List.mem_range'_1]
  constructor
  · exact fun h i hle hlt => h i ⟨hle, by omega⟩
  · exact fun h i ⟨hle, hlt⟩ => h i hle (by omega)

theorem getD_append_of_lt {xs : Bytes} {i : Nat} (h : i < xs.length) (ys : Bytes) :
    (xs ++ ys).getD i 0 = xs.getD i 0 := by
  rw [List.getD_eq_getElem?_getD, List.getD_eq_getElem?_getD, List.getElem?_append_left h]

theorem csiEnds_append {xs : Bytes} {i : Nat} (hlow : 2 ≤ i) (h : i < xs.length) (ys : Bytes) :
    csiEnds (xs ++ ys) i = csiEnds xs i := by
  simp only [csiEnds]
  rw [getD_append_of_lt h, getD_append_of_lt (by omega : 2 < xs.length), List.take_append_of_le_length h]

theorem csiEnds_bound {xs : Bytes} {limit i n : Nat} (h : i < limit) (hend : csiEnds xs i = some n) :
    0 < n ∧ n ≤ limit := by
  simp only [csiEnds] at hend
  split at hend
  · split at hend
    · cases hend
      omega
    · split at hend
      · cases hend
        omega
      · cases hend
  · cases hend

theorem stringEnds_bound {xs : Bytes} {limit i n : Nat} (h : i < limit)
    (hend : stringEnds xs limit i = some n) : 0 < n ∧ n ≤ limit := by
  simp only [stringEnds] at hend
  split at hend
  · cases hend
    omega
  · split at hend
    · next hesc =>
      simp only [Bool.and_eq_true, decide_eq_true_eq] at hesc
      cases hend
      omega
    · cases hend

/-- Before the last byte more bytes change nothing, and an end stays one. -/
theorem stringEnds_append {xs : Bytes} {limit limit' i : Nat} (hlow : 2 ≤ i) (h : i < limit)
    (hle : limit ≤ limit') (hlimit : limit ≤ xs.length) (ys : Bytes)
    (hdecided : (stringEnds xs limit i).isSome = true ∨ i + 1 < limit ∨ limit = limit') :
    stringEnds (xs ++ ys) limit' i = stringEnds xs limit i := by
  simp only [stringEnds] at hdecided ⊢
  rw [getD_append_of_lt (by omega : 1 < xs.length), getD_append_of_lt (by omega : i < xs.length)]
  split
  · rfl
  · next hbell =>
    rw [if_neg hbell] at hdecided
    by_cases hin : i + 1 < limit
    · rw [getD_append_of_lt (by omega : i + 1 < xs.length)]
      have hin' : i + 1 < limit' := by omega
      simp [hin, hin']
    · have hsome : limit = limit' := by
        rcases hdecided with hsome | hdecided
        · simp [hin] at hsome
        · exact hdecided.resolve_left hin
      subst hsome
      simp [hin]

theorem upToCap_eq_complete {bytes : Bytes} {cap n : Nat} {found : Option Nat} :
    upToCap bytes cap found = .complete n ↔ found = some n := by
  cases found with
  | some length => simp [upToCap]
  | none =>
    simp only [upToCap]
    split <;> simp

theorem upToCap_eq_overflow {bytes : Bytes} {cap n : Nat} {found : Option Nat} :
    upToCap bytes cap found = .overflow n ↔ found = none ∧ cap ≤ bytes.length ∧ cap = n := by
  cases found with
  | some length => simp [upToCap]
  | none =>
    simp only [upToCap]
    split <;> simp_all

/-- A resolution that is final: it names bytes that are there, and does not change. -/
def Final (resolve : Bytes → FrameResolution) (xs : Bytes) : Prop :=
  (∀ n, resolve xs = .complete n → 0 < n ∧ n ≤ xs.length ∧ ∀ ys, resolve (xs ++ ys) = .complete n) ∧
    ∀ n, resolve xs = .overflow n → 4 ≤ xs.length ∧ ∀ ys, resolve (xs ++ ys) = .overflow n

theorem final_upToCap {ends : Bytes → Nat → Nat → Option Nat} {cap : Nat} (hcap : 4 ≤ cap)
    (hbound : ∀ xs limit i n, i < limit → ends xs limit i = some n → 0 < n ∧ n ≤ limit)
    (happend : ∀ xs ys limit limit' i, 2 ≤ i → i < limit → limit ≤ limit' → limit ≤ xs.length →
      (ends xs limit i).isSome = true ∨ i + 1 < limit ∨ limit = limit' → ends (xs ++ ys) limit' i = ends xs limit i)
    (xs : Bytes) :
    Final (fun bytes => upToCap bytes cap
      (firstEnd (ends bytes (min bytes.length cap)) (min bytes.length cap))) xs := by
  have hlimit : ∀ ys : Bytes, min xs.length cap ≤ min (xs ++ ys).length cap := fun ys => by
    rw [List.length_append]
    omega
  constructor
  · intro n hn
    simp only [upToCap_eq_complete, firstEnd_eq_some] at hn ⊢
    obtain ⟨i, hlow, hlt, hi, hbefore⟩ := hn
    have hpos := hbound _ _ _ _ hlt hi
    refine ⟨hpos.1, by omega, fun ys => ⟨i, hlow, hlt.trans_le (hlimit ys), ?_, fun j hj hji => ?_⟩⟩
    · rw [happend xs ys _ _ i hlow hlt (hlimit ys) (Nat.min_le_left _ _) (.inl (by rw [hi]; rfl)), hi]
    · rw [happend xs ys _ _ j hj (by omega) (hlimit ys) (Nat.min_le_left _ _) (.inr (.inl (by omega)))]
      exact hbefore j hj hji
  · intro n hn
    simp only [upToCap_eq_overflow, firstEnd_eq_none] at hn ⊢
    obtain ⟨hnone, hle, rfl⟩ := hn
    refine ⟨by omega, fun ys => ⟨fun i hlow hlt => ?_, by rw [List.length_append]; omega, rfl⟩⟩
    have heq : min xs.length cap = min (xs ++ ys).length cap := by
      rw [List.length_append]
      omega
    rw [happend xs ys (min xs.length cap) _ i hlow (by omega) heq.le (Nat.min_le_left _ _) (.inr (.inr heq))]
    exact hnone i hlow (by omega)

theorem Final.congr {resolve resolve' : Bytes → FrameResolution} {xs : Bytes}
    (heq : ∀ ys, resolve (xs ++ ys) = resolve' (xs ++ ys)) (h : Final resolve' xs) : Final resolve xs := by
  have hself : resolve xs = resolve' xs := by simpa using heq []
  rw [Final, hself]
  simp only [heq]
  exact h

theorem Final.of_incomplete {resolve : Bytes → FrameResolution} {xs : Bytes} (h : resolve xs = .incomplete) :
    Final resolve xs := by
  rw [Final, h]
  exact ⟨nofun, nofun⟩

/-- A frame of known length. -/
theorem final_ofLength {n : Nat} (hpos : 0 < n) (xs : Bytes) :
    Final (fun bytes => if n ≤ bytes.length then .complete n else .incomplete) xs := by
  by_cases hle : n ≤ xs.length
  · refine ⟨fun m hm => ?_, fun m hm => ?_⟩
    · simp only [if_pos hle] at hm
      cases hm
      refine ⟨hpos, hle, fun ys => ?_⟩
      simp only [List.length_append, if_pos (hle.trans (Nat.le_add_right _ _))]
    · simp only [if_pos hle] at hm
      cases hm
  · exact .of_incomplete (by simp only [if_neg hle])

theorem final_resolveEscape {xs : Bytes} (h : 2 ≤ xs.length) : Final resolveEscape xs := by
  have hkind : ∀ ys, (xs ++ ys).getD 1 0 = xs.getD 1 0 := getD_append_of_lt (by omega)
  by_cases hbracket : xs.getD 1 0 = byte '['
  · by_cases hlen : xs.length < 3
    · refine .of_incomplete ?_
      simp only [resolveEscape, if_pos hbracket, if_pos hlen]
    · have hthird : ∀ ys, (xs ++ ys).getD 2 0 = xs.getD 2 0 := getD_append_of_lt (by omega)
      have hlen' : ∀ ys : Bytes, ¬ (xs ++ ys).length < 3 := fun ys => by
        rw [List.length_append]
        omega
      by_cases hmouse : xs.getD 2 0 = byte 'M'
      · refine .congr (fun ys => ?_) (final_ofLength (Nat.succ_pos 5) xs)
        simp only [resolveEscape, hkind, hthird, if_pos hbracket, if_neg (hlen' ys), if_pos hmouse]
      · refine .congr (fun ys => ?_) (@final_upToCap (fun bytes _ => csiEnds bytes) maxCsiBytes (by decide)
          (fun xs limit i n hlt hend => csiEnds_bound hlt hend)
          (fun xs ys limit limit' i hlow hlt _ hle _ => csiEnds_append hlow (hlt.trans_le hle) ys) xs)
        simp only [resolveEscape, hkind, hthird, if_pos hbracket, if_neg (hlen' ys), if_neg hmouse]
  · by_cases hstring : (xs.getD 1 0 = byte ']' || xs.getD 1 0 = byte 'P' || xs.getD 1 0 = byte '_') = true
    · refine .congr (fun ys => ?_) (final_upToCap (by decide : 4 ≤ maxStringSeqBytes)
        (fun xs limit i n hlt hend => stringEnds_bound hlt hend)
        (fun xs ys limit limit' i hlow hlt hle hlen => stringEnds_append hlow hlt hle hlen ys) xs)
      simp only [resolveEscape, hkind, if_neg hbracket, if_pos hstring]
    · by_cases hO : xs.getD 1 0 = byte 'O'
      · refine .congr (fun ys => ?_) (final_ofLength (Nat.succ_pos 2) xs)
        simp only [resolveEscape, hkind, if_neg hbracket, if_neg hstring, if_pos hO]
      · refine .congr (fun ys => ?_) (final_ofLength (Nat.succ_pos (utf8Width (xs.getD 1 0))) xs)
        simp only [resolveEscape, hkind, if_neg hbracket, if_neg hstring, if_neg hO]
        rfl

theorem Final.shift {first : UInt8} {xs : Bytes} (h : Final resolveEscape xs) :
    Final (fun bytes => (resolveEscape (bytes.drop 1)).shift) (first :: xs) := by
  constructor
  · intro n hn
    simp only [List.drop_one, List.tail_cons] at hn
    cases hres : resolveEscape xs with
    | complete m =>
      rw [hres] at hn
      cases hn
      obtain ⟨hpos, hle, hys⟩ := h.1 m hres
      refine ⟨Nat.succ_pos m, Nat.succ_le_succ hle, fun ys => ?_⟩
      simp only [List.cons_append, List.drop_one, List.tail_cons, hys ys, FrameResolution.shift]
    | incomplete => rw [hres] at hn; cases hn
    | overflow m => rw [hres] at hn; cases hn
  · intro n hn
    simp only [List.drop_one, List.tail_cons] at hn
    cases hres : resolveEscape xs with
    | complete m => rw [hres] at hn; cases hn
    | incomplete => rw [hres] at hn; cases hn
    | overflow m =>
      rw [hres] at hn
      cases hn
      obtain ⟨hle, hys⟩ := h.2 m hres
      refine ⟨Nat.le_succ_of_le hle, fun ys => ?_⟩
      simp only [List.cons_append, List.drop_one, List.tail_cons, hys ys, FrameResolution.shift]

theorem utf8Width_pos (lead : UInt8) : 0 < utf8Width lead := by
  rw [utf8Width]
  split_ifs <;> decide

theorem resolveFrame_plain {first : UInt8} (h : first ≠ 0x1b) (xs : Bytes) :
    resolveFrame (first :: xs) =
      if utf8Width first ≤ (first :: xs).length then .complete (utf8Width first) else .incomplete := by
  simp only [resolveFrame, List.getD_cons_zero]
  rw [if_pos h, Nat.max_eq_left (utf8Width_pos first)]
  split_ifs <;> first | rfl | omega

theorem resolveFrame_esc {second : UInt8} (h : second ≠ 0x1b) (xs : Bytes) :
    resolveFrame (0x1b :: second :: xs) = resolveEscape (0x1b :: second :: xs) := by
  simp only [resolveFrame, List.getD_cons_zero, List.getD_cons_succ, List.length_cons]
  rw [if_neg (not_not.2 rfl), if_neg (by omega), if_neg h]

theorem resolveFrame_esc_esc (third : UInt8) (xs : Bytes) :
    resolveFrame (0x1b :: 0x1b :: third :: xs) =
      if third = byte '[' || third = byte 'O' then (resolveEscape (0x1b :: third :: xs)).shift
      else .complete 1 := by
  simp only [resolveFrame, List.getD_cons_zero, List.getD_cons_succ, List.length_cons, List.drop_one,
    List.tail_cons]
  rw [if_neg (not_not.2 rfl), if_neg (by omega), if_pos trivial, if_neg (by omega)]

theorem final_resolveFrame {xs : Bytes} (h : xs ≠ []) : Final resolveFrame xs := by
  obtain ⟨first, xs, rfl⟩ := List.exists_cons_of_ne_nil h
  by_cases hesc : first = 0x1b
  · subst hesc
    cases xs with
    | nil => exact .of_incomplete rfl
    | cons second xs =>
      by_cases hsecond : second = 0x1b
      · subst hsecond
        cases xs with
        | nil => exact .of_incomplete rfl
        | cons third xs =>
          by_cases hthird : (third = byte '[' || third = byte 'O') = true
          · refine .congr (fun ys => ?_)
              (@Final.shift 0x1b (0x1b :: third :: xs) (final_resolveEscape (Nat.le_add_left 2 _)))
            rw [List.cons_append, List.cons_append, List.cons_append, resolveFrame_esc_esc, if_pos hthird]
            rfl
          · refine .congr (fun ys => ?_) (final_ofLength Nat.one_pos _)
            rw [List.cons_append, List.cons_append, List.cons_append, resolveFrame_esc_esc, if_neg hthird]
            exact (if_pos (Nat.succ_le_succ (Nat.zero_le _))).symm
      · refine .congr (fun ys => ?_) (@final_resolveEscape (0x1b :: second :: xs) (Nat.le_add_left 2 _))
        exact resolveFrame_esc hsecond (xs ++ ys)
  · refine .congr (fun ys => ?_) (final_ofLength (utf8Width_pos first) (first :: xs))
    exact resolveFrame_plain hesc (xs ++ ys)

/-! ## End markers -/

open InputDecoder (findPasteEnd isEscBeforeMouse)

theorem lt_length_of_pasteEnd {bytes : Bytes} {i : Nat} (h : pasteEnd <+: bytes.drop i) :
    i + pasteEnd.length ≤ bytes.length := by
  have hlen := h.length_le
  have hpos : 0 < pasteEnd.length := Nat.succ_pos _
  rw [List.length_drop] at hlen
  omega

theorem findPasteEnd_eq_some {bytes : Bytes} {i : Nat} :
    findPasteEnd bytes = some i ↔
      pasteEnd <+: bytes.drop i ∧ ∀ j < i, ¬ pasteEnd <+: bytes.drop j := by
  rw [findPasteEnd, List.find?_range_eq_some]
  simp only [List.isPrefixOf_iff_prefix, List.mem_range, Bool.not_eq_true', Bool.eq_false_iff, Ne]
  constructor
  · exact fun ⟨hi, _, hbefore⟩ => ⟨hi, hbefore⟩
  · refine fun ⟨hi, hbefore⟩ => ⟨hi, ?_, hbefore⟩
    have hle := lt_length_of_pasteEnd hi
    have hpos : 0 < pasteEnd.length := Nat.succ_pos _
    omega

theorem findPasteEnd_eq_none {bytes : Bytes} :
    findPasteEnd bytes = none ↔ ∀ i, ¬ pasteEnd <+: bytes.drop i := by
  rw [findPasteEnd, List.find?_eq_none]
  simp only [List.isPrefixOf_iff_prefix, List.mem_range]
  refine ⟨fun h i hi => h i ?_ hi, fun h i _ => h i⟩
  have hle := lt_length_of_pasteEnd hi
  have hpos : 0 < pasteEnd.length := Nat.succ_pos _
  omega

/-- More bytes show no end marker among those that were there. -/
theorem pasteEnd_drop_append {bytes : Bytes} {i : Nat} (hle : i + pasteEnd.length ≤ bytes.length) (more : Bytes) :
    pasteEnd <+: (bytes ++ more).drop i ↔ pasteEnd <+: bytes.drop i := by
  rw [List.drop_append_of_le_length (by omega)]
  refine ⟨fun h => ?_, fun h => h.trans (List.prefix_append _ _)⟩
  refine List.prefix_of_prefix_length_le h (List.prefix_append _ _) ?_
  rw [List.length_drop]
  omega

theorem findPasteEnd_append {bytes : Bytes} {i : Nat} (h : findPasteEnd bytes = some i) (more : Bytes) :
    i + pasteEnd.length ≤ bytes.length ∧ findPasteEnd (bytes ++ more) = some i := by
  obtain ⟨hi, hbefore⟩ := findPasteEnd_eq_some.1 h
  have hle := lt_length_of_pasteEnd hi
  refine ⟨hle, findPasteEnd_eq_some.2 ⟨(pasteEnd_drop_append hle more).2 hi, fun j hj hend => ?_⟩⟩
  exact hbefore j hj ((pasteEnd_drop_append (by omega) more).1 hend)

/-- A search that starts where an end marker can still reach beyond what was searched. -/
theorem findPasteEnd_resume {content : Bytes} (h : findPasteEnd content = none) (more : Bytes) :
    (findPasteEnd ((content ++ more).drop (content.length - (pasteEnd.length - 1)))).map
      (content.length - (pasteEnd.length - 1) + ·) = findPasteEnd (content ++ more) := by
  have hpos : 0 < pasteEnd.length := Nat.succ_pos _
  have hearly : ∀ j < content.length - (pasteEnd.length - 1), ¬ pasteEnd <+: (content ++ more).drop j := by
    intro j hj hend
    exact findPasteEnd_eq_none.1 h j ((pasteEnd_drop_append (by omega) more).1 hend)
  generalize hstart : content.length - (pasteEnd.length - 1) = start at hearly
  cases hfind : findPasteEnd ((content ++ more).drop start) with
  | none =>
    rw [findPasteEnd_eq_none] at hfind
    refine (findPasteEnd_eq_none.2 fun i hend => ?_).symm
    rcases Nat.lt_or_ge i start with hlt | hge
    · exact hearly i hlt hend
    · refine hfind (i - start) ?_
      rwa [List.drop_drop, Nat.add_sub_cancel' hge]
  | some i =>
    obtain ⟨hi, hbefore⟩ := findPasteEnd_eq_some.1 hfind
    rw [List.drop_drop] at hi
    refine (findPasteEnd_eq_some.2 ⟨hi, fun j hj hend => ?_⟩).symm
    rcases Nat.lt_or_ge j start with hlt | hge
    · exact hearly j hlt hend
    · refine hbefore (j - start) (by omega) ?_
      rwa [List.drop_drop, Nat.add_sub_cancel' hge]

/-! ## Tokens -/

inductive Item
  | frame (bytes : Bytes)
  | paste (start content : Bytes)

def Item.bytes : Item → Bytes
  | .frame bytes => bytes
  | .paste start content => start ++ content ++ pasteEnd

/-- The first frame or paste that is complete, and the bytes after it. -/
def nextItem (bytes : Bytes) : Option (Item × Bytes) :=
  if bytes.isEmpty then none
  else if isEscBeforeMouse bytes then some (.frame [0x1b], bytes.drop 1)
  else
    match resolveFrame bytes with
    | .complete length =>
      if decodeFrame (bytes.take length) = .pasteStart then
        (findPasteEnd (bytes.drop length)).map fun index =>
          (.paste (bytes.take length) ((bytes.drop length).take index),
            (bytes.drop length).drop (index + pasteEnd.length))
      else some (.frame (bytes.take length), bytes.drop length)
    | _ => none

/-- What `nextItem` finds. -/
inductive Next (bytes : Bytes) : Item → Bytes → Prop
  | esc (h : isEscBeforeMouse bytes = true) : Next bytes (.frame [0x1b]) (bytes.drop 1)
  | frame (length : Nat) (hne : bytes ≠ []) (hesc : isEscBeforeMouse bytes = false)
      (h : resolveFrame bytes = .complete length) (hdecode : decodeFrame (bytes.take length) ≠ .pasteStart) :
      Next bytes (.frame (bytes.take length)) (bytes.drop length)
  | paste (length index : Nat) (hne : bytes ≠ []) (hesc : isEscBeforeMouse bytes = false)
      (h : resolveFrame bytes = .complete length) (hdecode : decodeFrame (bytes.take length) = .pasteStart)
      (hend : findPasteEnd (bytes.drop length) = some index) :
      Next bytes (.paste (bytes.take length) ((bytes.drop length).take index))
        ((bytes.drop length).drop (index + pasteEnd.length))

theorem nextItem_eq_some {bytes rest : Bytes} {item : Item} :
    nextItem bytes = some (item, rest) ↔ Next bytes item rest := by
  constructor
  · intro h
    rw [nextItem] at h
    split at h
    · cases h
    · next hne =>
      have hne : bytes ≠ [] := by simpa using hne
      split at h
      · next hesc =>
        cases h
        exact .esc hesc
      · next hesc =>
        have hesc := Bool.eq_false_iff.2 hesc
        split at h
        · next length hlength =>
          split at h
          · next hstart =>
            obtain ⟨index, hindex, heq⟩ := Option.map_eq_some_iff.1 h
            cases heq
            exact .paste length index hne hesc hlength hstart hindex
          · next hstart =>
            cases h
            exact .frame length hne hesc hlength hstart
        · cases h
  · intro h
    cases h with
    | esc hesc =>
      have hne : bytes ≠ [] := by
        rintro rfl
        cases hesc
      simp [nextItem, hne, hesc]
    | frame length hne hesc hlength hstart => simp [nextItem, hne, hesc, hlength, hstart]
    | paste length index hne hesc hlength hstart hindex =>
      simp [nextItem, hne, hesc, hlength, hstart, hindex]

/-- What is only the beginning of an escape and a mouse report is not resolved. -/
theorem isEscBeforeMouse_append {bytes : Bytes} (hne : bytes ≠ [])
    (h : resolveFrame bytes ≠ .incomplete) (hesc : isEscBeforeMouse bytes = false) (more : Bytes) :
    isEscBeforeMouse (bytes ++ more) = false := by
  rw [Bool.eq_false_iff, isEscBeforeMouse, Ne, List.isPrefixOf_iff_prefix] at hesc ⊢
  intro hmore
  by_cases hlen : 4 ≤ bytes.length
  · exact hesc (List.prefix_of_prefix_length_le hmore (List.prefix_append _ _) hlen)
  · have hbytes := List.prefix_of_prefix_length_le (List.prefix_append bytes more) hmore
      (show bytes.length ≤ 4 by omega)
    rw [List.prefix_iff_eq_take] at hbytes
    have hpos := List.length_pos_iff.2 hne
    obtain hlen | hlen | hlen : bytes.length = 1 ∨ bytes.length = 2 ∨ bytes.length = 3 := by omega
    all_goals
      rw [hlen] at hbytes
      rw [hbytes] at h
      exact h (by decide)

theorem Next.append {bytes rest : Bytes} {item : Item} (h : Next bytes item rest) (more : Bytes) :
    Next (bytes ++ more) item (rest ++ more) := by
  cases h with
  | esc hesc =>
    have hstarts : (0x1b :: 0x1b :: ascii "[<") <+: bytes := List.isPrefixOf_iff_prefix.1 hesc
    have hlen : 4 ≤ bytes.length := hstarts.length_le
    have hmore : isEscBeforeMouse (bytes ++ more) = true :=
      List.isPrefixOf_iff_prefix.2 (hstarts.trans (List.prefix_append _ _))
    have hnext := Next.esc hmore
    rwa [List.drop_append_of_le_length (by omega)] at hnext
  | frame length hne hesc hlength hstart =>
    obtain ⟨-, hle, hmore⟩ := (final_resolveFrame hne).1 length hlength
    have hnext := Next.frame length (List.append_ne_nil_of_left_ne_nil hne more)
      (isEscBeforeMouse_append hne (by rw [hlength]; nofun) hesc more) (hmore more)
    rw [List.take_append_of_le_length hle, List.drop_append_of_le_length hle] at hnext
    exact hnext hstart
  | paste length index hne hesc hlength hstart hindex =>
    obtain ⟨-, hle, hmore⟩ := (final_resolveFrame hne).1 length hlength
    obtain ⟨hle', hfind⟩ := findPasteEnd_append hindex more
    have hnext := Next.paste length index (List.append_ne_nil_of_left_ne_nil hne more)
      (isEscBeforeMouse_append hne (by rw [hlength]; nofun) hesc more) (hmore more)
    rw [List.take_append_of_le_length hle, List.drop_append_of_le_length hle,
      List.take_append_of_le_length (by omega), List.drop_append_of_le_length hle'] at hnext
    exact hnext hstart hfind

theorem Next.eq_append {bytes rest : Bytes} {item : Item} (h : Next bytes item rest) :
    bytes = item.bytes ++ rest ∧ item.bytes ≠ [] := by
  cases h with
  | esc hesc =>
    obtain ⟨tail, rfl⟩ := List.isPrefixOf_iff_prefix.1 hesc
    exact ⟨rfl, nofun⟩
  | frame length hne hesc hlength hstart =>
    obtain ⟨hpos, hle, -⟩ := (final_resolveFrame hne).1 length hlength
    refine ⟨(List.take_append_drop _ _).symm, fun hnil => ?_⟩
    have hlen := congrArg List.length hnil
    rw [Item.bytes, List.length_take, List.length_nil] at hlen
    omega
  | paste length index hne hesc hlength hstart hindex =>
    obtain ⟨hpos, hle, -⟩ := (final_resolveFrame hne).1 length hlength
    obtain ⟨hend, -⟩ := findPasteEnd_eq_some.1 hindex
    obtain ⟨tail, htail⟩ := hend
    constructor
    · have hdrop : (bytes.drop length).drop (index + pasteEnd.length) = tail := by
        rw [← List.drop_drop, ← htail, List.drop_left]
      rw [hdrop, Item.bytes, List.append_assoc, List.append_assoc, htail, List.take_append_drop,
        List.take_append_drop]
    · exact List.append_ne_nil_of_right_ne_nil _ nofun

/-- Frames and pastes as tokens. -/
def items : Tokenizer UInt8 Item where
  next := nextItem
  spell := Item.bytes
  next_eq h := (nextItem_eq_some.1 h).eq_append.1
  spell_ne_nil h := (nextItem_eq_some.1 h).eq_append.2
  next_append h more := nextItem_eq_some.2 ((nextItem_eq_some.1 h).append more)

/-- No size cap is met: no control sequence is cut off at its cap, and pastes fit, as they are buffered up to
the last byte of their end marker. -/
structure UnderCaps (stream : Bytes) : Prop where
  pastes : ∀ start content, .paste start content ∈ (items.split stream).1 →
    content.length + (pasteEnd.length - 1) ≤ maxPasteBytes
  sequences : ∀ length, resolveFrame (items.split stream).2 ≠ .overflow length
  unfinished : ∀ length, resolveFrame (items.split stream).2 = .complete length →
    ((items.split stream).2.drop length).length ≤ maxPasteBytes

theorem UnderCaps.tail {stream rest : Bytes} {item : Item} (h : UnderCaps stream)
    (hnext : nextItem stream = some (item, rest)) : UnderCaps rest := by
  have hsplit := @Tokenizer.split_of_some _ _ items _ _ _ hnext
  obtain ⟨hpastes, hsequences, hunfinished⟩ := h
  rw [hsplit] at hpastes hsequences hunfinished
  exact ⟨fun start content hmem => hpastes start content (List.mem_cons_of_mem _ hmem), hsequences, hunfinished⟩

theorem nextItem_eq_none {bytes : Bytes} (h : nextItem bytes = none) (hne : bytes ≠ []) :
    isEscBeforeMouse bytes = false ∧ ∀ length, resolveFrame bytes = .complete length →
      decodeFrame (bytes.take length) = .pasteStart ∧ findPasteEnd (bytes.drop length) = none := by
  have hnot : ∀ item rest, ¬ Next bytes item rest := fun item rest hnext => by
    rw [nextItem_eq_some.2 hnext] at h
    cases h
  have hesc : isEscBeforeMouse bytes = false := Bool.eq_false_iff.2 fun hesc => hnot _ _ (.esc hesc)
  refine ⟨hesc, fun length hlength => ?_⟩
  by_cases hstart : decodeFrame (bytes.take length) = .pasteStart
  · refine ⟨hstart, ?_⟩
    cases hfind : findPasteEnd (bytes.drop length) with
    | none => rfl
    | some index => exact absurd (.paste length index hne hesc hlength hstart hfind) (hnot _ _)
  · exact absurd (.frame length hne hesc hlength hstart) (hnot _ _)

/-- What arrives first is under the caps too. -/
theorem UnderCaps.of_append {stream more : Bytes} (h : UnderCaps (stream ++ more)) : UnderCaps stream := by
  obtain ⟨hpastes, hsequences, hunfinished⟩ := h
  rw [items.split_append] at hpastes hsequences hunfinished
  have hnone : nextItem (items.split stream).2 = none := items.next_split stream
  refine ⟨fun start content hmem => hpastes start content (List.mem_append_left _ hmem), fun length hover => ?_,
    fun length hcomplete => ?_⟩
  · generalize (items.split stream).2 = rest at hsequences hnone hover
    have hne : rest ≠ [] := by
      rintro rfl
      cases hover
    obtain ⟨hesc, -⟩ := nextItem_eq_none hnone hne
    have hover' := ((final_resolveFrame hne).2 length hover).2 more
    have hesc' := isEscBeforeMouse_append hne (by rw [hover]; nofun) hesc more
    have hnone' : nextItem (rest ++ more) = none := by
      simp [nextItem, hne, hesc', hover']
    have hsplit := @Tokenizer.split_of_none _ _ items _ hnone'
    rw [hsplit] at hsequences
    exact hsequences length hover'
  · generalize (items.split stream).2 = rest at hpastes hunfinished hnone hcomplete
    have hne : rest ≠ [] := by
      rintro rfl
      cases hcomplete
    obtain ⟨hesc, hpaste⟩ := nextItem_eq_none hnone hne
    obtain ⟨hstart, hfind⟩ := hpaste length hcomplete
    obtain ⟨-, hle, hcomplete'⟩ := (final_resolveFrame hne).1 length hcomplete
    have hesc' := isEscBeforeMouse_append hne (by rw [hcomplete]; nofun) hesc more
    have hne' : rest ++ more ≠ [] := List.append_ne_nil_of_left_ne_nil hne more
    have hstart' : decodeFrame ((rest ++ more).take length) = .pasteStart := by
      rwa [List.take_append_of_le_length hle]
    have hdrop : (rest ++ more).drop length = rest.drop length ++ more := List.drop_append_of_le_length hle
    cases hfind' : findPasteEnd ((rest ++ more).drop length) with
    | none =>
      have hnone' : nextItem (rest ++ more) = none := by
        simp [nextItem, hne, hesc', hcomplete' more, hstart', hfind']
      have hsplit := @Tokenizer.split_of_none _ _ items _ hnone'
      rw [hsplit] at hunfinished
      have hlen := hunfinished length (hcomplete' more)
      rw [hdrop, List.length_append] at hlen
      omega
    | some index =>
      -- The end marker is not all there yet.
      have hsplit := @Tokenizer.split_of_some _ _ items _ _ _
        (nextItem_eq_some.2 (.paste length index hne' hesc' (hcomplete' more) hstart' hfind'))
      rw [hsplit] at hpastes
      have hfits := hpastes _ _ (List.mem_append_right _ List.mem_cons_self)
      have hend := (findPasteEnd_eq_some.1 hfind').1
      have hindex := lt_length_of_pasteEnd hend
      rw [List.length_take, hdrop] at hfits
      rw [hdrop] at hend hindex
      by_contra hlong
      rw [not_le] at hlong
      refine findPasteEnd_eq_none.1 hfind index ((pasteEnd_drop_append ?_ more).1 hend)
      omega

end OhMyPi.Terminal
