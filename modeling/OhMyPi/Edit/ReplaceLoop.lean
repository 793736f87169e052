import OhMyPi.Edit.Windows

/-! The loop of `replace_text` with `all`. Every range that a round adds keeps the search away from
its own window, unless the match is empty: then the range lies behind the window or is empty, and the
same window is found for ever, or it takes the newline behind the window along. -/

namespace OhMyPi.Edit

open Text Substitute Splice

variable {A : Arith} {nfc : List Char → List Char} {call : ReplaceCall A}

namespace ReplaceCall

/-! ## Rounds -/

/-- The matches that the loop has taken when it comes to a round. -/
inductive Reaches (nfc : List Char → List Char) (call : ReplaceCall A) :
    List (FuzzyMatch A.F) → Prop
  | start : Reaches nfc call []
  | round {ms m} : Reaches nfc call ms → call.next nfc (ms.map call.replacement) = some m →
    (call.replacement m).text ≠ m.actualText → Reaches nfc call (ms ++ [m])

/-- The loop ends here. -/
def Stops (nfc : List Char → List Char) (call : ReplaceCall A) (ms : List (FuzzyMatch A.F)) : Prop :=
  ∀ m, call.next nfc (ms.map call.replacement) = some m → (call.replacement m).text = m.actualText

theorem loop_of_stops {ms : List (FuzzyMatch A.F)} (h : call.Stops nfc ms) (fuel : Nat) :
    call.loop nfc (fuel + 1) (ms.map call.replacement) = some (ms.map call.replacement) := by
  rw [loop]
  split
  · rfl
  · next m hnext => rw [if_pos (h m hnext)]

theorem Reaches.loop {ms : List (FuzzyMatch A.F)} (h : Reaches nfc call ms) (fuel : Nat) :
    call.loop nfc (fuel + ms.length) [] = call.loop nfc fuel (ms.map call.replacement) := by
  induction h generalizing fuel with
  | start => rfl
  | round _ hnext hne ih =>
    rw [List.length_append, List.length_singleton, ← Nat.add_assoc, Nat.add_right_comm, ih,
      ReplaceCall.loop, hnext]
    simp only
    rw [if_neg hne, List.map_append]
    rfl

theorem exists_of_loop {fuel : Nat} {ms : List (FuzzyMatch A.F)} {rs : List Replacement}
    (hms : Reaches nfc call ms) (h : call.loop nfc fuel (ms.map call.replacement) = some rs) :
    ∃ ms', rs = ms'.map call.replacement ∧ Reaches nfc call ms' ∧ call.Stops nfc ms' := by
  induction fuel generalizing ms with
  | zero => cases h
  | succ fuel ih =>
    rw [ReplaceCall.loop] at h
    split at h
    · next hnone =>
      cases h
      exact ⟨ms, rfl, hms, fun m hm => by rw [hnone] at hm; cases hm⟩
    · next m hnext =>
      split at h
      · next heq =>
        cases h
        refine ⟨ms, rfl, hms, fun m' hm' => ?_⟩
        rw [hnext] at hm'
        cases hm'
        exact heq
      · next hne =>
        refine ih (hms.round hnext hne) ?_
        rwa [List.map_append]

/-- The rounds before a round are rounds of the same loop. -/
theorem Reaches.round_of_split {ms : List (FuzzyMatch A.F)} (h : Reaches nfc call ms)
    {front rest : List (FuzzyMatch A.F)} {m : FuzzyMatch A.F} (hsplit : ms = front ++ m :: rest) :
    Reaches nfc call front ∧ call.next nfc (front.map call.replacement) = some m ∧
      (call.replacement m).text ≠ m.actualText := by
  induction h generalizing rest with
  | start => simp at hsplit
  | @round ms m' hms hnext hne ih =>
    rcases List.eq_nil_or_concat rest with rfl | ⟨rest', last, rfl⟩
    · obtain ⟨rfl, heq⟩ := List.append_inj' hsplit rfl
      cases heq
      exact ⟨hms, hnext, hne⟩
    · rw [List.concat_eq_append, ← List.cons_append, ← List.append_assoc] at hsplit
      exact ih (List.append_inj' hsplit rfl).1

/-- All rounds come before the end of the loop. -/
theorem Reaches.prefix_of_stops {ms ms' : List (FuzzyMatch A.F)} (h : Reaches nfc call ms')
    (hms : Reaches nfc call ms) (hstop : call.Stops nfc ms) : ms' <+: ms := by
  induction h with
  | start => exact List.nil_prefix
  | @round ms' m _ hnext hne ih =>
    obtain ⟨rest, rfl⟩ := ih
    cases rest with
    | nil =>
      rw [List.append_nil] at hstop
      exact absurd (hstop m hnext) hne
    | cons m' rest =>
      obtain ⟨-, hnext', -⟩ := hms.round_of_split rfl
      rw [hnext] at hnext'
      cases hnext'
      exact ⟨rest, by simp⟩

/-! ## The range of a match -/

/-- The lines of the content. -/
def lines (call : ReplaceCall A) : List (List Char) := splitLines call.content

/-- The number of lines of a window. -/
def count (call : ReplaceCall A) : Nat := (splitLines call.old).length

def ranges (call : ReplaceCall A) (ms : List (FuzzyMatch A.F)) : List ExcludedRange :=
  (ms.map call.replacement).map fun r => ⟨r.start, r.stop⟩

theorem count_pos (call : ReplaceCall A) : 0 < call.count :=
  List.length_pos_iff.2 (splitLines_ne_nil _)

theorem hit_of_next {ms : List (FuzzyMatch A.F)} {m : FuzzyMatch A.F}
    (hno : ¬call.old <:+: call.content)
    (h : call.next nfc (ms.map call.replacement) = some m) :
    ∃ i, Hit call.lines call.count (call.ranges ms) m i := by
  rw [next] at h
  rcases Option.or_eq_some_iff.1 h with h | ⟨-, h⟩
  · exact hit_of_findMatch hno (.inl h)
  · split at h
    · exact hit_of_findMatch hno (.inr h)
    · cases h

/-- The range of the match lies in the window. -/
structure Covers (call : ReplaceCall A) (m : FuzzyMatch A.F) (i : Nat) : Prop where
  low : windowStart call.lines i ≤ m.startIndex
  nonempty : m.startIndex < (call.replacement m).stop
  high : (call.replacement m).stop ≤ windowEnd call.lines call.count i

/-- The range of the match keeps no window away. -/
def Idle (call : ReplaceCall A) (m : FuzzyMatch A.F) : Prop :=
  ∀ j, j + call.count ≤ call.lines.length → windowEnd call.lines call.count j ≤ m.startIndex ∨
    (call.replacement m).stop ≤ windowStart call.lines j

theorem Covers.not_idle {m : FuzzyMatch A.F} {i : Nat} (h : call.Covers m i)
    (hi : i + call.count ≤ call.lines.length) : ¬call.Idle m := by
  intro hidle
  have hlow := h.low
  have hnonempty := h.nonempty
  have hhigh := h.high
  rcases hidle i hi with hle | hle <;> omega

/-- A match with a text covers part of its window. -/
theorem covers_of_hit {excluded : List ExcludedRange} {m : FuzzyMatch A.F} {i : Nat}
    (h : Hit call.lines call.count excluded m i) (hne : m.actualText ≠ []) :
    call.Covers m i ∧ (call.replacement m).stop = m.startIndex + byteLen m.actualText := by
  obtain ⟨a, b, hcontent, ha⟩ := split_of_hit call.count_pos h
  obtain ⟨hi, -, lead, trail, htext, hstart, -⟩ := h
  have hend := windowEnd_eq call.count_pos hi
  have hlen := congrArg byteLen htext
  have hall := congrArg byteLen hcontent
  have hpos : 0 < byteLen m.actualText :=
    Nat.pos_of_ne_zero fun hzero => hne (byteLen_eq_zero hzero)
  rw [byteLen_append, byteLen_append] at hlen hall
  have hstop : (call.replacement m).stop = m.startIndex + byteLen m.actualText := by
    rw [replacement]
    simp only
    omega
  refine ⟨⟨by omega, by omega, ?_⟩, hstop⟩
  rw [hstop, hend]
  omega

/-- An empty match covers an empty line with its newline, or it is idle. -/
theorem covers_or_idle_of_hit {excluded : List ExcludedRange} {m : FuzzyMatch A.F} {i : Nat}
    (h : Hit call.lines call.count excluded m i) (hnil : m.actualText = []) :
    (call.Covers m i ∧ (call.replacement m).stop = m.startIndex + 1 ∧
      ∃ a b, call.content = a ++ '\n' :: b ∧ byteLen a = m.startIndex) ∨ call.Idle m := by
  obtain ⟨hi, -, lead, trail, htext, hstart, hlead, htrail⟩ := h
  rw [hnil, htrail hnil, List.append_nil, List.append_nil] at htext
  -- The window holds no newline, so it is a line.
  have hone : call.count = 1 := by
    have hpos := call.count_pos
    by_contra hne
    exact hlead (htext ▸ newline_mem_windowText (by omega) hi)
  have hend : ∀ j, j + 1 ≤ call.lines.length → windowEnd call.lines 1 j =
      max (windowStart call.lines j + byteLen (windowText call.lines 1 j))
        (windowStart call.lines j + 1) := fun j hj => windowEnd_eq Nat.one_pos hj
  obtain ⟨rest, hsplit, hrest⟩ := window_split call.count_pos hi
  rw [show joinLines call.lines = call.content from joinLines_splitLines _, htext] at hsplit
  have hlen := congrArg byteLen hsplit
  rw [byteLen_append, byteLen_append, ← windowStart_eq (by omega)] at hlen
  have hstop : (call.replacement m).stop = min (m.startIndex + 1) (byteLen call.content) := by
    rw [replacement, hnil]
    rfl
  have hearlier := fun j (hj : j < i) => windowStart_lt hj (show i < call.lines.length by omega)
  by_cases hempty : lead = []
  · subst hempty
    rw [byteLen_nil, Nat.add_zero] at hstart hlen
    rcases hrest with ⟨hlast, rfl⟩ | ⟨-, rest', rfl⟩
    · -- The last line: the range is empty.
      right
      intro j hj
      rw [hone] at hj hlast ⊢
      rw [hend j hj, hstop]
      rw [byteLen_nil] at hlen
      rcases Nat.lt_or_ge j i with hlt | hge
      · have := hearlier j hlt
        omega
      · obtain rfl : j = i := by omega
        omega
    · left
      have hnewline : byteLen ('\n' :: rest') = 1 + byteLen rest' := by
        rw [byteLen_cons]
        rfl
      rw [hnewline] at hlen
      have hstop' : (call.replacement m).stop = m.startIndex + 1 := by omega
      refine ⟨⟨by omega, by omega, ?_⟩, hstop', before call.lines i, rest', ?_, ?_⟩
      · rw [hone, hend i (by omega), hstop']
        omega
      · rw [hsplit, List.append_nil]
      · rw [hstart, windowStart_eq (by omega)]
  · -- A line of marks: the range lies behind it.
    right
    have hpos : 0 < byteLen lead := Nat.pos_of_ne_zero fun hzero => hempty (byteLen_eq_zero hzero)
    intro j hj
    rw [hone] at hj htext ⊢
    rw [hend j hj, hstop]
    rcases Nat.lt_trichotomy j i with hlt | rfl | hgt
    · have := hearlier j hlt
      omega
    · rw [htext]
      omega
    · have := windowStart_lt hgt (show j < call.lines.length by omega)
      rw [htext] at this
      omega

/-! ## Progress -/

theorem windowFree_ranges_append {ms extra : List (FuzzyMatch A.F)} {j : Nat} :
    windowFree call.lines call.count (call.ranges (ms ++ extra)) j = true ↔
      windowFree call.lines call.count (call.ranges ms) j = true ∧
      ∀ m ∈ extra, (call.replacement m).stop ≤ windowStart call.lines j ∨
        windowEnd call.lines call.count j ≤ m.startIndex := by
  have hranges : call.ranges (ms ++ extra) = call.ranges ms ++ call.ranges extra := by
    simp only [ranges, List.map_append]
  rw [hranges, windowFree_eq_true, windowFree_eq_true, List.forall_mem_append]
  refine and_congr_right fun _ => ?_
  rw [ranges, List.map_map, List.forall_mem_map]
  rfl

/-- Idle ranges do not change what is found. -/
theorem next_append_idle {ms extra : List (FuzzyMatch A.F)} (hno : ¬call.old <:+: call.content)
    (hidle : ∀ m ∈ extra, call.Idle m) :
    call.next nfc ((ms ++ extra).map call.replacement) =
      call.next nfc (ms.map call.replacement) := by
  have hsame : SameFree call.lines call.count (call.ranges (ms ++ extra)) (call.ranges ms) := by
    intro j hj
    rw [Bool.eq_iff_iff, windowFree_ranges_append]
    exact ⟨And.left, fun hfree => ⟨hfree, fun m hm => (hidle m hm j hj).symm⟩⟩
  have hfind : findMatch A nfc call.content call.old call.fuzzy call.threshold
      (call.ranges (ms ++ extra)) =
        findMatch A nfc call.content call.old call.fuzzy call.threshold (call.ranges ms) :=
    findMatch_congr hno hsame
  rw [ranges, ranges] at hfind
  rw [next, next, hfind]

/-- A match that is idle is taken again and again. -/
theorem Reaches.idle {ms : List (FuzzyMatch A.F)} {m : FuzzyMatch A.F} (h : Reaches nfc call ms)
    (hno : ¬call.old <:+: call.content) (hnext : call.next nfc (ms.map call.replacement) = some m)
    (hne : (call.replacement m).text ≠ m.actualText) (hidle : call.Idle m) (n : Nat) :
    Reaches nfc call (ms ++ List.replicate n m) := by
  induction n with
  | zero => simpa using h
  | succ n ih =>
    rw [List.replicate_succ', ← List.append_assoc]
    refine ih.round ?_ hne
    rw [next_append_idle hno fun m' hm' => List.eq_of_mem_replicate hm' ▸ hidle, hnext]

/-- A loop that ends has taken no match that is idle. -/
theorem Reaches.not_idle {ms ms' : List (FuzzyMatch A.F)} {m : FuzzyMatch A.F}
    (hms : Reaches nfc call ms) (hstop : call.Stops nfc ms) (h : Reaches nfc call ms')
    (hno : ¬call.old <:+: call.content) (hnext : call.next nfc (ms'.map call.replacement) = some m)
    (hne : (call.replacement m).text ≠ m.actualText) : ¬call.Idle m := by
  intro hidle
  have hlong := (h.idle hno hnext hne hidle (ms.length + 1)).prefix_of_stops hms hstop
  have hlen := hlong.length_le
  rw [List.length_append, List.length_replicate] at hlen
  omega

/-- The windows that may still be found. -/
def freeStarts (call : ReplaceCall A) (ms : List (FuzzyMatch A.F)) : List Nat :=
  (windowStarts call.lines call.count).filter
    (windowFree call.lines call.count (call.ranges ms))

/-- A match that is not idle takes its window away. -/
theorem length_freeStarts_lt {ms : List (FuzzyMatch A.F)} {m : FuzzyMatch A.F}
    (hno : ¬call.old <:+: call.content) (hnext : call.next nfc (ms.map call.replacement) = some m)
    (hidle : ¬call.Idle m) :
    (call.freeStarts (ms ++ [m])).length < (call.freeStarts ms).length := by
  obtain ⟨i, hhit⟩ := hit_of_next hno hnext
  have hcovers : call.Covers m i := by
    by_cases hnil : m.actualText = []
    · exact ((covers_or_idle_of_hit hhit hnil).resolve_right hidle).1
    · exact (covers_of_hit hhit hnil).1
  obtain ⟨hi, hfree, -⟩ := hhit
  have htwice : call.freeStarts (ms ++ [m]) =
      (call.freeStarts ms).filter (windowFree call.lines call.count (call.ranges (ms ++ [m]))) := by
    rw [freeStarts, freeStarts, List.filter_filter]
    refine List.filter_congr fun j _ => ?_
    rw [Bool.eq_iff_iff, Bool.and_eq_true, windowFree_ranges_append]
    exact ⟨fun h => ⟨h, h.1⟩, And.left⟩
  rw [htwice]
  refine List.length_filter_lt_length_iff_exists.2 ⟨i, List.mem_filter.2
    ⟨(mem_windowStarts (by omega)).2 hi, hfree⟩, fun hstill => ?_⟩
  have hlow := hcovers.low
  have hnonempty := hcovers.nonempty
  have hhigh := hcovers.high
  rcases (windowFree_ranges_append.1 hstill).2 m (List.mem_singleton_self m) with h | h <;> omega

/-- A loop that takes no match that is idle ends. -/
theorem exists_stops (hno : ¬call.old <:+: call.content)
    (hbusy : ∀ ms m, Reaches nfc call ms → call.next nfc (ms.map call.replacement) = some m →
      (call.replacement m).text ≠ m.actualText → ¬call.Idle m)
    {ms : List (FuzzyMatch A.F)} (h : Reaches nfc call ms) :
    ∃ ms', Reaches nfc call ms' ∧ call.Stops nfc ms' := by
  induction hsize : (call.freeStarts ms).length using Nat.strongRecOn generalizing ms with
  | ind size ih =>
    by_cases hstop : call.Stops nfc ms
    · exact ⟨ms, h, hstop⟩
    · simp only [Stops, not_forall] at hstop
      obtain ⟨m, hnext, hne⟩ := hstop
      have hlt := length_freeStarts_lt hno hnext (hbusy ms m h hnext hne)
      exact ih _ (hsize ▸ hlt) (h.round hnext hne) rfl

end ReplaceCall

end OhMyPi.Edit
