import Mathlib.Algebra.Order.BigOperators.Group.List
import Mathlib.Algebra.Order.Ring.Nat
import OhMyPi.Edit.ReplaceLoop

/-! What `replace_text` with `all` returns: the matches of all rounds replaced in the content, as
long as none of them is empty. -/

namespace OhMyPi.Edit

open Text Substitute Splice

variable {A : Arith} {nfc : List Char → List Char} {call : ReplaceCall A}

/-! ## The output -/

def Replacement.patch (r : Replacement) : Patch UInt8 := ⟨r.start, r.stop, utf8 r.text⟩

/-- The output copies the content from range to range. -/
theorem assemble_eq_splice {content : List Char} {source : Nat} {rs : List Replacement}
    (hsource : isBoundary content source = true)
    (hbounds : ∀ r ∈ rs, isBoundary content r.start = true ∧ isBoundary content r.stop = true)
    (h : Ordered (byteLen content) source (rs.map Replacement.patch)) :
    ∃ out, assemble content source rs = some out ∧
      utf8 out = splice (utf8 content) source (rs.map Replacement.patch) := by
  have hle : source ≤ byteLen content := by
    obtain ⟨a, b, rfl, rfl⟩ := isBoundary_iff.1 hsource
    rw [byteLen_append]
    exact Nat.le_add_right _ _
  induction rs generalizing source with
  | nil =>
    have hend : isBoundary content (byteLen content) = true :=
      isBoundary_iff.2 ⟨content, [], by simp, rfl⟩
    obtain ⟨part, hpart⟩ := exists_slice hsource hend hle
    refine ⟨part, hpart, ?_⟩
    rw [utf8_of_slice hpart, List.map_nil, splice, ← length_utf8, List.take_of_length_le]
    rw [List.length_drop]
  | cons r rs ih =>
    obtain ⟨hstart, -, hstop, hrest⟩ := h
    obtain ⟨hlow, hhigh⟩ := hbounds r List.mem_cons_self
    obtain ⟨kept, hkept⟩ := exists_slice hsource hlow hstart
    obtain ⟨tail, htail, htail'⟩ := ih hhigh (fun q hq => hbounds q (List.mem_cons_of_mem _ hq))
      hrest hstop
    refine ⟨kept ++ r.text ++ tail, ?_, ?_⟩
    · rw [assemble, hkept, htail]
      rfl
    · rw [utf8_append, utf8_append, htail', utf8_of_slice hkept]
      rfl

namespace ReplaceCall

/-- The match as a window of the content, with what becomes of it. -/
def window (call : ReplaceCall A) (m : FuzzyMatch A.F) : Patch UInt8 :=
  ⟨m.startIndex, m.startIndex + byteLen m.actualText, utf8 (call.replacement m).text⟩

/-- The window and the range of a match in the content. -/
structure Stands (call : ReplaceCall A) (m : FuzzyMatch A.F) : Prop where
  nonempty : m.startIndex < (call.replacement m).stop
  inside : (call.replacement m).stop ≤ byteLen call.content
  low : isBoundary call.content m.startIndex = true
  high : isBoundary call.content (call.replacement m).stop = true
  behind : isBoundary call.content (m.startIndex + byteLen m.actualText) = true
  within : m.startIndex + byteLen m.actualText ≤ (call.replacement m).stop

theorem stands_of_hit {excluded : List ExcludedRange} {m : FuzzyMatch A.F} {i : Nat}
    (h : Hit call.lines call.count excluded m i) (hidle : ¬call.Idle m) :
    call.Stands m ∧ call.Covers m i := by
  obtain ⟨a, b, hcontent, ha⟩ := split_of_hit call.count_pos h
  have hlow : isBoundary call.content m.startIndex = true :=
    isBoundary_iff.2 ⟨a, m.actualText ++ b, by rw [hcontent, List.append_assoc], ha⟩
  have hbehind : isBoundary call.content (m.startIndex + byteLen m.actualText) = true :=
    isBoundary_iff.2 ⟨a ++ m.actualText, b, hcontent, by rw [byteLen_append, ha]⟩
  have hinside : (call.replacement m).stop ≤ byteLen call.content := Nat.min_le_right _ _
  by_cases hnil : m.actualText = []
  · obtain ⟨hcovers, hstop, a', b', hcontent', ha'⟩ :=
      (covers_or_idle_of_hit h hnil).resolve_right hidle
    refine ⟨⟨hcovers.nonempty, hinside, hlow, ?_, hbehind, ?_⟩, hcovers⟩
    · rw [hstop]
      refine isBoundary_iff.2 ⟨a' ++ ['\n'], b', by simp [hcontent'], ?_⟩
      rw [byteLen_append, ha']
      rfl
    · rw [hnil, hstop, byteLen_nil]
      omega
  · obtain ⟨hcovers, hstop⟩ := covers_of_hit h hnil
    exact ⟨⟨hcovers.nonempty, hinside, hlow, hstop ▸ hbehind, hbehind, hstop.ge⟩, hcovers⟩

/-- The ranges of a run without idle matches lie apart. -/
theorem Reaches.apart {ms : List (FuzzyMatch A.F)} (h : Reaches nfc call ms)
    (hno : ¬call.old <:+: call.content) (hidle : ∀ m ∈ ms, ¬call.Idle m) :
    (∀ m ∈ ms, call.Stands m) ∧
      ((ms.map call.replacement).map Replacement.patch).Pairwise Patch.Apart := by
  induction h with
  | start => exact ⟨fun _ hm => (by cases hm), .nil⟩
  | @round ms m _ hnext _ ih =>
    obtain ⟨hstands, hapart⟩ := ih fun m' hm' => hidle m' (List.mem_append_left _ hm')
    obtain ⟨i, hhit⟩ := hit_of_next hno hnext
    obtain ⟨hstand, hcovers⟩ :=
      stands_of_hit hhit (hidle m (List.mem_append_right _ (List.mem_singleton_self m)))
    refine ⟨fun m' hm' => ?_, ?_⟩
    · rcases List.mem_append.1 hm' with hm' | hm'
      · exact hstands m' hm'
      · exact List.mem_singleton.1 hm' ▸ hstand
    · rw [List.map_append, List.map_append, List.pairwise_append]
      refine ⟨hapart, List.pairwise_singleton _ _, ?_⟩
      simp only [List.map_cons, List.map_nil, List.mem_singleton]
      rintro _ hp _ rfl
      rw [List.map_map] at hp
      obtain ⟨m', hm', rfl⟩ := List.mem_map.1 hp
      have hfree := windowFree_eq_true.1 hhit.2.1
        ⟨(call.replacement m').start, (call.replacement m').stop⟩
        (List.mem_map.2 ⟨_, List.mem_map.2 ⟨m', hm', rfl⟩, rfl⟩)
      have hlow := hcovers.low
      have hhigh := hcovers.high
      rcases hfree with hle | hle
      · exact .inl (hle.trans hlow)
      · exact .inr (hhigh.trans hle)

/-- The matches in the order of the content. -/
def sortMatches (ms : List (FuzzyMatch A.F)) : List (FuzzyMatch A.F) :=
  ms.insertionSort fun a b => a.startIndex ≤ b.startIndex

theorem mem_sortMatches {ms : List (FuzzyMatch A.F)} {m : FuzzyMatch A.F} :
    m ∈ sortMatches ms ↔ m ∈ ms := (List.perm_insertionSort _ ms).mem_iff

theorem map_sortMatches (call : ReplaceCall A) (ms : List (FuzzyMatch A.F)) :
    (sortMatches ms).map call.replacement =
      (ms.map call.replacement).insertionSort fun a b => a.start ≤ b.start :=
  List.map_insertionSort _ _ _ _ fun _ _ _ _ => Iff.rfl

theorem sorted_sortMatches (ms : List (FuzzyMatch A.F)) :
    (sortMatches ms).Pairwise fun a b => a.startIndex ≤ b.startIndex := by
  have htotal : Std.Total fun a b : FuzzyMatch A.F => a.startIndex ≤ b.startIndex :=
    ⟨fun a b => Nat.le_total _ _⟩
  have htrans : IsTrans (FuzzyMatch A.F) fun a b => a.startIndex ≤ b.startIndex :=
    ⟨fun _ _ _ h h' => Nat.le_trans h h'⟩
  exact List.pairwise_insertionSort _ ms

section

variable {ms : List (FuzzyMatch A.F)} (hstands : ∀ m ∈ ms, call.Stands m)
  (hapart : ((ms.map call.replacement).map Replacement.patch).Pairwise Patch.Apart)
include hstands hapart

theorem ordered_patches : Ordered (byteLen call.content) 0
    (((sortMatches ms).map call.replacement).map Replacement.patch) := by
  have hperm : (sortMatches ms).Perm ms := List.perm_insertionSort _ ms
  refine ordered_of_pairwise ?_ ?_ ?_ fun _ _ => Nat.zero_le _
  · rw [List.pairwise_map, List.pairwise_map]
    exact sorted_sortMatches ms
  · exact hapart.perm ((hperm.map _).map _).symm fun h => Or.symm h
  · rw [List.map_map, List.forall_mem_map]
    intro m hm
    have hstand := hstands m (mem_sortMatches.1 hm)
    exact ⟨hstand.nonempty, hstand.inside⟩

/-- A window ends where its range ends, or before. -/
theorem ordered_windows : Ordered (byteLen call.content) 0
    ((sortMatches ms).map call.window) := by
  have hordered := ordered_patches hstands hapart
  have hall : ∀ m ∈ sortMatches ms, call.Stands m := fun m hm =>
    hstands m (mem_sortMatches.1 hm)
  rw [List.map_map] at hordered
  have hgeneral : ∀ (l : List (FuzzyMatch A.F)) (cursor cursor' : Nat), cursor' ≤ cursor →
      (∀ m ∈ l, call.Stands m) →
      Ordered (byteLen call.content) cursor (l.map (Replacement.patch ∘ call.replacement)) →
      Ordered (byteLen call.content) cursor' (l.map call.window) := by
    intro l
    induction l with
    | nil => exact fun _ _ _ _ _ => trivial
    | cons m l ih =>
      rintro cursor cursor' hle hl ⟨hstart, -, hstop, hrest⟩
      have hwithin := (hl m List.mem_cons_self).within
      exact ⟨hle.trans hstart, Nat.le_add_right _ _, hwithin.trans hstop,
        ih _ _ hwithin (fun q hq => hl q (List.mem_cons_of_mem _ hq)) hrest⟩
  exact hgeneral _ 0 0 (Nat.le_refl _) hall hordered

theorem nodup_starts : (ms.map FuzzyMatch.startIndex).Nodup := by
  rw [List.map_map, List.pairwise_map] at hapart
  rw [List.Nodup, List.pairwise_map]
  refine hapart.imp_of_mem fun {a b} ha hb hab heq => ?_
  have hwidth := (hstands a ha).nonempty
  have hwidth' := (hstands b hb).nonempty
  have hab' : (call.replacement a).stop ≤ b.startIndex ∨
      (call.replacement b).stop ≤ a.startIndex := hab
  omega

/-- The windows replaced at once are the windows copied one after the other. -/
theorem replaced_windows : replaced (utf8 call.content) (ms.map call.window) =
    splice (utf8 call.content) 0 ((sortMatches ms).map call.window) := by
  have hperm : (ms.map call.window).Perm ((sortMatches ms).map call.window) :=
    ((List.perm_insertionSort _ ms).map _).symm
  have hstarts : ((ms.map call.window).map Patch.start).Nodup := by
    rw [List.map_map]
    exact nodup_starts hstands hapart
  rw [replaced_perm _ hperm hstarts, splice_eq_replaced]
  rw [length_utf8]
  exact ordered_windows hstands hapart

theorem assemble_sorted : ∃ out,
    assemble call.content 0 ((ms.map call.replacement).insertionSort fun a b => a.start ≤ b.start) =
      some out ∧
    utf8 out = splice (utf8 call.content) 0
      (((sortMatches ms).map call.replacement).map Replacement.patch) := by
  rw [← map_sortMatches]
  refine assemble_eq_splice (isBoundary_iff.2 ⟨[], call.content, rfl, rfl⟩) ?_
    (ordered_patches hstands hapart)
  rw [List.forall_mem_map]
  intro m hm
  have hstand := hstands m (mem_sortMatches.1 hm)
  exact ⟨hstand.low, hstand.high⟩

end

end ReplaceCall

/-! ## Exact occurrences -/

/-- The patches of the occurrences between chunks. -/
def occurrences (old new : List Char) : Nat → List Char → List (List Char) → List (Patch UInt8)
  | _, _, [] => []
  | offset, chunk, next :: chunks =>
    ⟨offset + byteLen chunk, offset + byteLen chunk + byteLen old, utf8 new⟩ ::
      occurrences old new (offset + byteLen chunk + byteLen old) next chunks

theorem occurrences_spec (old new pre chunk : List Char) (chunks : List (List Char)) :
    let text := pre ++ mesh chunk (chunks.map (old, ·))
    Ordered (byteLen text) (byteLen pre) (occurrences old new (byteLen pre) chunk chunks) ∧
    splice (utf8 text) (byteLen pre) (occurrences old new (byteLen pre) chunk chunks) =
      utf8 (mesh chunk (chunks.map (new, ·))) ∧
    ∀ w ∈ occurrences old new (byteLen pre) chunk chunks, ∃ a b, text = a ++ old ++ b ∧
      w = ⟨byteLen a, byteLen (a ++ old), utf8 new⟩ := by
  induction chunks generalizing pre chunk with
  | nil =>
    refine ⟨trivial, ?_, fun _ hw => by cases hw⟩
    rw [occurrences, splice, List.map_nil, mesh, utf8_append, ← length_utf8 pre, List.drop_left]
    rfl
  | cons next chunks ih =>
    have hoffset : byteLen pre + byteLen chunk + byteLen old = byteLen (pre ++ chunk ++ old) := by
      rw [byteLen_append, byteLen_append]
    have htext : pre ++ mesh chunk ((next :: chunks).map (old, ·)) =
        (pre ++ chunk ++ old) ++ mesh next (chunks.map (old, ·)) := by
      simp [mesh]
    obtain ⟨hordered, hsplice, hwindows⟩ := ih (pre ++ chunk ++ old) next
    simp only
    rw [htext, occurrences, hoffset]
    refine ⟨⟨Nat.le_add_right _ _, ?_, ?_, hordered⟩, ?_, ?_⟩
    · rw [byteLen_append, byteLen_append]
      exact Nat.le_add_right _ _
    · rw [byteLen_append _ (mesh next _)]
      exact Nat.le_add_right _ _
    · rw [splice, hsplice, List.map_cons, mesh, Nat.add_sub_cancel_left]
      have hkept : ((utf8 (pre ++ chunk ++ old ++ mesh next (chunks.map (old, ·)))).drop
          (byteLen pre)).take (byteLen chunk) = utf8 chunk := by
        rw [List.append_assoc, List.append_assoc, utf8_append, ← length_utf8 pre, List.drop_left,
          utf8_append, ← length_utf8 chunk, List.take_left]
      rw [hkept, utf8_append, utf8_append]
    · intro w hw
      rcases List.mem_cons.1 hw with rfl | hw
      · refine ⟨pre ++ chunk, mesh next (chunks.map (old, ·)), rfl, ?_⟩
        rw [byteLen_append pre chunk]
      · exact hwindows w hw

/-! ## The result -/

/-- Windows that lie apart and between characters are replaced, and nothing else is. -/
structure Localized (content out : List Char) (windows : List (Patch UInt8)) : Prop where
  apart : windows.Pairwise Patch.Apart
  bounds : ∀ w ∈ windows, w.start ≤ w.stop ∧ isBoundary content w.start = true ∧
    isBoundary content w.stop = true
  result : utf8 out = replaced (utf8 content) windows

theorem apart_of_ordered {length cursor : Nat} {patches : List (Patch UInt8)}
    (h : Ordered length cursor patches) :
    patches.Pairwise Patch.Apart ∧ ∀ p ∈ patches, p.start ≤ p.stop := by
  induction patches generalizing cursor with
  | nil => exact ⟨.nil, fun _ hp => by cases hp⟩
  | cons p patches ih =>
    obtain ⟨-, hle, -, hrest⟩ := h
    obtain ⟨hapart, hwidth⟩ := ih hrest
    refine ⟨.cons (fun q hq => .inl (hrest.le_start q hq)) hapart, fun q hq => ?_⟩
    rcases List.mem_cons.1 hq with rfl | hq
    · exact hle
    · exact hwidth q hq

namespace ReplaceCall

/-- The windows are what was matched: occurrences of the old text or, where it does not occur, the
matches of all rounds. -/
def Matched (nfc : List Char → List Char) (call : ReplaceCall A) (windows : List (Patch UInt8)) :
    Prop :=
  (call.old <:+: call.content ∧ ∀ w ∈ windows, ∃ a b, call.content = a ++ call.old ++ b ∧
    w = ⟨byteLen a, byteLen (a ++ call.old), utf8 call.new⟩) ∨
  (¬call.old <:+: call.content ∧ ∃ ms, Reaches nfc call ms ∧ call.Stops nfc ms ∧
    windows = ms.map call.window)

/-- No round takes an empty match, unless the new text is empty as well. -/
def NeverEmpty (nfc : List Char → List Char) (call : ReplaceCall A) : Prop :=
  ∀ ms m, Reaches nfc call ms → call.next nfc (ms.map call.replacement) = some m →
    m.actualText = [] → call.new = []

theorem run_of_infix (hold : call.old ≠ []) (h : call.old <:+: call.content) (fuel : Nat) :
    ∃ result windows, call.run nfc fuel = some result ∧ call.Matched nfc windows ∧
      Localized call.content result.content windows := by
  have hpos : 0 < (matchIndices call.old 0 0 call.content).length :=
    List.length_pos_iff.2 (matchIndices_ne_nil hold h 0)
  obtain ⟨chunk, chunks, htext, hout, -⟩ := replaceAll_eq_mesh hold call.new call.content
  obtain ⟨hordered, hsplice, hwindows⟩ := occurrences_spec call.old call.new [] chunk chunks
  rw [List.nil_append, ← htext] at hordered hsplice hwindows
  obtain ⟨hapart, hwidth⟩ := apart_of_ordered hordered
  refine ⟨_, occurrences call.old call.new 0 chunk chunks, by rw [run, if_pos hpos],
    .inl ⟨h, hwindows⟩, hapart, fun w hw => ⟨hwidth w hw, ?_⟩, ?_⟩
  · obtain ⟨a, b, hcontent, rfl⟩ := hwindows w hw
    exact ⟨isBoundary_iff.2 ⟨a, call.old ++ b, by rw [hcontent, List.append_assoc], rfl⟩,
      isBoundary_iff.2 ⟨a ++ call.old, b, hcontent, rfl⟩⟩
  · rw [hout, ← hsplice]
    refine splice_eq_replaced ?_
    rw [length_utf8]
    exact hordered

theorem run_eq (hno : ¬call.old <:+: call.content) (fuel : Nat) :
    call.run nfc fuel = (call.loop nfc fuel []).bind fun rs =>
      (assemble call.content 0 (rs.insertionSort fun a b => a.start ≤ b.start)).map fun out =>
        ⟨out, rs.length⟩ := by
  rw [run, matchIndices_eq_nil hno, List.length_nil, if_neg (Nat.lt_irrefl 0)]
  cases call.loop nfc fuel [] with
  | none => rfl
  | some rs =>
    simp only [Option.bind_some, Option.bind_eq_bind]
    cases assemble call.content 0 (rs.insertionSort fun a b => a.start ≤ b.start) <;> rfl

/-- Without empty matches the windows are the ranges. -/
theorem run_of_neverEmpty (hno : ¬call.old <:+: call.content) (h : call.NeverEmpty nfc) :
    ∃ fuel result windows, call.run nfc fuel = some result ∧ call.Matched nfc windows ∧
      Localized call.content result.content windows := by
  have hfull : ∀ ms m, Reaches nfc call ms → call.next nfc (ms.map call.replacement) = some m →
      (call.replacement m).text ≠ m.actualText → m.actualText ≠ [] := by
    intro ms m hms hnext hne hnil
    refine hne ?_
    rw [replacement, hnil, adjustIndentation_nil]
    exact h ms m hms hnext hnil
  have hbusy : ∀ ms m, Reaches nfc call ms → call.next nfc (ms.map call.replacement) = some m →
      (call.replacement m).text ≠ m.actualText → ¬call.Idle m := by
    intro ms m hms hnext hne
    obtain ⟨i, hhit⟩ := hit_of_next hno hnext
    exact (covers_of_hit hhit (hfull ms m hms hnext hne)).1.not_idle hhit.1
  obtain ⟨ms, hms, hstop⟩ := exists_stops hno hbusy .start
  have hround : ∀ m ∈ ms, ∃ front, Reaches nfc call front ∧
      call.next nfc (front.map call.replacement) = some m ∧
      (call.replacement m).text ≠ m.actualText := by
    intro m hm
    obtain ⟨front, rest, hsplit⟩ := List.append_of_mem hm
    exact ⟨front, hms.round_of_split hsplit⟩
  have hidle : ∀ m ∈ ms, ¬call.Idle m := by
    intro m hm
    obtain ⟨front, hfront, hnext, hne⟩ := hround m hm
    exact hbusy front m hfront hnext hne
  have hsame : ∀ m ∈ ms, (call.replacement m).patch = call.window m := by
    intro m hm
    obtain ⟨front, hfront, hnext, hne⟩ := hround m hm
    obtain ⟨i, hhit⟩ := hit_of_next hno hnext
    rw [Replacement.patch, (covers_of_hit hhit (hfull front m hfront hnext hne)).2]
    rfl
  obtain ⟨hstands, hapart⟩ := hms.apart hno hidle
  obtain ⟨out, hassemble, hout⟩ := assemble_sorted hstands hapart
  refine ⟨1 + ms.length, ⟨out, ms.length⟩, ms.map call.window, ?_, .inr ⟨hno, ms, hms, hstop, rfl⟩,
    ?_, ?_, ?_⟩
  · rw [run_eq hno, hms.loop, loop_of_stops hstop, Option.bind_some, hassemble, List.length_map]
    rfl
  · rw [List.map_map] at hapart
    rwa [← List.map_congr_left hsame]
  · rw [List.forall_mem_map]
    intro m hm
    have hstand := hstands m hm
    exact ⟨Nat.le_add_right _ _, hstand.low, hstand.behind⟩
  · rw [replaced_windows hstands hapart, hout, List.map_map]
    refine congrArg _ (List.map_congr_left fun m hm => ?_)
    exact hsame m (mem_sortMatches.1 hm)

/-- What the loop ends with is what the rounds reach. -/
theorem loop_eq_of_stops {ms : List (FuzzyMatch A.F)} (hms : Reaches nfc call ms)
    (hstop : call.Stops nfc ms) {fuel : Nat} {rs : List Replacement}
    (h : call.loop nfc fuel [] = some rs) : rs = ms.map call.replacement := by
  obtain ⟨ms', rfl, hms', hstop'⟩ := exists_of_loop .start h
  obtain ⟨rest, rfl⟩ := hms'.prefix_of_stops hms hstop
  have hle := (hms.prefix_of_stops hms' hstop').length_le
  rw [List.length_append] at hle
  obtain rfl : rest = [] := List.eq_nil_of_length_eq_zero (by omega)
  rw [List.append_nil]

/-- An empty match that is replaced takes a newline along, or the loop does not end. -/
theorem neverEmpty_of_run (hno : ¬call.old <:+: call.content) {fuel : Nat} {result : ReplaceResult}
    {ms : List (FuzzyMatch A.F)} (hrun : call.run nfc fuel = some result)
    (hms : Reaches nfc call ms) (hstop : call.Stops nfc ms)
    (hlocal : Localized call.content result.content (ms.map call.window)) :
    call.NeverEmpty nfc := by
  intro ms' m hms' hnext hnil
  by_contra hnew
  have hne : (call.replacement m).text ≠ m.actualText := by
    rw [replacement, hnil, adjustIndentation_nil]
    exact hnew
  have hmem : m ∈ ms := ((hms'.round hnext hne).prefix_of_stops hms hstop).subset (by simp)
  have hidle : ∀ m ∈ ms, ¬call.Idle m := by
    intro m hm
    obtain ⟨front, rest, hsplit⟩ := List.append_of_mem hm
    obtain ⟨hfront, hnext, hne⟩ := hms.round_of_split hsplit
    exact hms.not_idle hstop hfront hno hnext hne
  obtain ⟨hstands, hapart⟩ := hms.apart hno hidle
  obtain ⟨out, hassemble, hout⟩ := assemble_sorted hstands hapart
  rw [run_eq hno, Option.bind_eq_some_iff] at hrun
  obtain ⟨rs, hloop, hrun⟩ := hrun
  obtain rfl := loop_eq_of_stops hms hstop hloop
  rw [hassemble, Option.map_some, Option.some_inj] at hrun
  subst hrun
  -- The ranges are longer than the windows, and so the output is shorter.
  have hresult := hlocal.result
  simp only at hresult
  rw [replaced_windows hstands hapart, hout] at hresult
  have hlen := congrArg List.length hresult
  have hordered := ordered_patches hstands hapart
  have hordered' := ordered_windows hstands hapart
  rw [← length_utf8] at hordered hordered'
  have hpatches := length_splice hordered (Nat.zero_le _)
  have hwindows := length_splice hordered' (Nat.zero_le _)
  simp only [List.map_map] at hlen hpatches hwindows
  have htexts : ((sortMatches ms).map ((fun p : Patch UInt8 => p.text.length) ∘
      Replacement.patch ∘ call.replacement)) =
      (sortMatches ms).map ((fun p : Patch UInt8 => p.text.length) ∘ call.window) := rfl
  have hshorter : ((sortMatches ms).map ((fun p : Patch UInt8 => p.stop - p.start) ∘
      call.window)).sum < ((sortMatches ms).map ((fun p : Patch UInt8 => p.stop - p.start) ∘
        Replacement.patch ∘ call.replacement)).sum := by
    refine List.sum_lt_sum _ _ (fun m hm => ?_) ⟨m, mem_sortMatches.2 hmem, ?_⟩
    · have hwithin := (hstands m (mem_sortMatches.1 hm)).within
      simp only [Function.comp, window, Replacement.patch, replacement] at hwithin ⊢
      omega
    · have hnonempty := (hstands m hmem).nonempty
      simp only [Function.comp, window, Replacement.patch, replacement, hnil, byteLen_nil]
        at hnonempty ⊢
      omega
  rw [htexts] at hpatches
  omega

end ReplaceCall

theorem normalizeToLf_ne_nil {text : List Char} (h : text ≠ []) : normalizeToLf text ≠ [] := by
  rw [normalizeToLf]
  split
  · exact h
  · unfold replaceCr
    split
    · exact absurd rfl h
    · exact List.cons_ne_nil _ _
    · exact List.cons_ne_nil _ _
    · exact List.cons_ne_nil _ _

/-- Replacing all matches ends and touches only them exactly when the old text occurs in the content
or no round takes an empty match that is to become something. -/
theorem replaceTextAll_localized_iff {content oldText newText : List Char} {fuzzy : Bool}
    {threshold : Option A.F} (hold : oldText ≠ []) :
    (∃ fuel result windows,
      replaceTextAll nfc content oldText newText fuzzy threshold fuel = some (.ok result) ∧
      (replaceCall content oldText newText fuzzy threshold).Matched nfc windows ∧
      Localized (normalizeToLf content) result.content windows) ↔
    normalizeToLf oldText <:+: normalizeToLf content ∨
      (replaceCall content oldText newText fuzzy threshold).NeverEmpty nfc := by
  have hrun : ∀ fuel result,
      replaceTextAll nfc content oldText newText fuzzy threshold fuel = some (.ok result) ↔
      (replaceCall content oldText newText fuzzy threshold).run nfc fuel = some result := by
    intro fuel result
    rw [replaceTextAll, if_neg (by simpa using hold), Option.map_eq_some_iff]
    constructor
    · rintro ⟨result', h, heq⟩
      cases heq
      exact h
    · exact fun h => ⟨result, h, rfl⟩
  simp only [hrun]
  constructor
  · rintro ⟨fuel, result, windows, h, ⟨hin, -⟩ | ⟨hno, ms, hms, hstop, rfl⟩, hlocal⟩
    · exact .inl hin
    · exact .inr (ReplaceCall.neverEmpty_of_run hno h hms hstop hlocal)
  · intro h
    by_cases hin : normalizeToLf oldText <:+: normalizeToLf content
    · have hne : (replaceCall content oldText newText fuzzy threshold).old ≠ [] :=
        normalizeToLf_ne_nil hold
      obtain ⟨result, windows, hresult⟩ := ReplaceCall.run_of_infix hne hin 0
      exact ⟨0, result, windows, hresult⟩
    · exact ReplaceCall.run_of_neverEmpty hin (h.resolve_left hin)

/-- Exact fractions in the place of floating-point numbers. -/
def fractions : Arith where
  F := Rat
  lit q := q
  ofNat n := n
  add := (· + ·)
  sub := (· - ·)
  div := (· / ·)
  lt a b := decide (a < b)
  le a b := decide (a ≤ b)
  round q := (q + 1 / 2).floor.toNat

theorem replaceTextAll_localized_word : ∃ fuel result windows,
    replaceTextAll (A := fractions) id "one two one".toList "one".toList "1".toList true none fuel =
      some (.ok result) ∧
    (replaceCall (A := fractions) "one two one".toList "one".toList "1".toList true none).Matched id
      windows ∧
    Localized (normalizeToLf "one two one".toList) result.content windows :=
  (replaceTextAll_localized_iff (by decide)).2 (.inl ⟨[], " two one".toList, by decide⟩)

/-- A zero-width space, which is nothing to the comparison of lines. -/
def zeroWidthSpace : Char := Char.ofNat 0x200B

/-- It matches the empty line behind the last newline, in every round again. -/
def lastLineCall : ReplaceCall fractions :=
  replaceCall "abc\n".toList [zeroWidthSpace] "x".toList false none

theorem lastLine_next : (lastLineCall.next id []).map (fun m => (m.actualText, m.startIndex)) =
    some ([], 4) := by
  decide +kernel

theorem lastLine_replaced_for_ever : ¬∃ fuel result,
    replaceTextAll (A := fractions) id "abc\n".toList [zeroWidthSpace] "x".toList false none fuel =
      some result := by
  rintro ⟨fuel, result, h⟩
  have hno : ¬lastLineCall.old <:+: lastLineCall.content := by
    intro hin
    have hmem : zeroWidthSpace ∈ "abc\n".toList := hin.subset (List.mem_singleton_self _)
    revert hmem
    decide
  obtain ⟨m, hnext, heq⟩ := Option.map_eq_some_iff.1 lastLine_next
  obtain ⟨hnil, hstart⟩ := Prod.mk.inj heq
  have hidle : lastLineCall.Idle m := by
    obtain ⟨i, hhit⟩ := @ReplaceCall.hit_of_next _ _ _ [] _ hno hnext
    rcases ReplaceCall.covers_or_idle_of_hit hhit hnil with ⟨-, -, a, b, hcontent, ha⟩ | hidle
    · -- There is no newline behind the end of the content.
      have hlen := congrArg byteLen hcontent
      rw [byteLen_append, byteLen_cons, ha, hstart, show byteLen lastLineCall.content = 4 by decide]
        at hlen
      have hnewline : Char.utf8Size '\n' = 1 := rfl
      omega
    · exact hidle
  have hne : (lastLineCall.replacement m).text ≠ m.actualText := by
    rw [ReplaceCall.replacement, hnil, adjustIndentation_nil]
    change lastLineCall.new ≠ []
    decide
  rw [replaceTextAll, if_neg (by decide), Option.map_eq_some_iff] at h
  obtain ⟨r, hrun, -⟩ := h
  change lastLineCall.run id fuel = some r at hrun
  rw [ReplaceCall.run_eq hno, Option.bind_eq_some_iff] at hrun
  obtain ⟨rs, hloop, -⟩ := hrun
  obtain ⟨ms, -, hms, hstop⟩ := ReplaceCall.exists_of_loop .start hloop
  exact hms.not_idle hstop .start hno hnext hne hidle

end OhMyPi.Edit
