import OhMyPi.Edit.Hashline
import OhMyPi.Lib.Except

/-! Which hunks the lines of a file are deleted for. Parsing keeps the hunks that name their lines apart.
A block names its lines only when it is resolved, and then nothing looks for overlaps again, so a line has
one hunk exactly when the blocks are apart from everything else. -/

namespace OhMyPi.Hashline

/-! ## Overlaps -/

/-- The lines that the edit deletes as it stands. -/
def Edit.targets : Edit → List Nat
  | .delete line _ _ => [line]
  | .paste (.span range) _ _ _ _ => range.lines
  | _ => []

theorem mem_target {hunk : Hunk} {lines : List Nat} {line : Nat} :
    (hunk.target lines).lines.contains line = true ↔ line ∈ lines ∨ hunk.lines.contains line = true := by
  rw [Hunk.target]
  simp only
  induction lines generalizing hunk with
  | nil => simp
  | cons first lines ih =>
    have hinsert : (hunk.lines.insert first ()).contains line = true ↔
        line = first ∨ hunk.lines.contains line = true := by
      by_cases hline : line = first
      · rw [hline, OrdMap.contains, OrdMap.get?_insert_self]
        simp
      · rw [OrdMap.contains, OrdMap.get?_insert_of_ne _ _ hline, ← OrdMap.contains]
        simp [hline]
    rw [List.foldl_cons, @ih ⟨hunk.lines.insert first (), hunk.clipboard⟩, hinsert, List.mem_cons]
    tauto

/-- The lines of the hunk that stands on a line of the section. -/
def owns (hunks : OrdMap Nat Hunk) (lineNum line : Nat) : Bool :=
  (hunks.get? lineNum).any fun hunk => hunk.lines.contains line

theorem owns_collectHunk {hunks : OrdMap Nat Hunk} {edit : Edit} {lineNum line : Nat} :
    owns (collectHunk hunks edit) lineNum line = true ↔
      edit.lineNum = lineNum ∧ line ∈ edit.targets ∨ owns hunks lineNum line = true := by
  have hupdate : ∀ (hunk : Hunk) (targets : List Nat),
      (∀ line, hunk.lines.contains line = true ↔
        line ∈ targets ∨ ((hunks.get? edit.lineNum).getD {}).lines.contains line = true) →
      (owns (hunks.insert edit.lineNum hunk) lineNum line = true ↔
        edit.lineNum = lineNum ∧ line ∈ targets ∨ owns hunks lineNum line = true) := by
    intro hunk targets hlines
    rw [owns]
    by_cases hnum : lineNum = edit.lineNum
    · subst hnum
      rw [OrdMap.get?_insert_self, Option.any_some, hlines, owns]
      cases hunks.get? edit.lineNum with
      | none => simp [OrdMap.contains, OrdMap.get?, EmptyCollection.emptyCollection, OrdMap.empty]
      | some old => simp
    · rw [OrdMap.get?_insert_of_ne _ _ hnum, ← owns]
      simp [Ne.symm hnum]
  cases edit with
  | insert cursor text num index replacement blockStart => simp [collectHunk, Edit.targets]
  | delete target num index => exact hupdate _ [target] fun _ => mem_target
  | cut range register num index => exact hupdate _ [] fun _ => by simp [Edit.lineNum]
  | paste target register num index blockStart =>
    cases target with
    | gap cursor => simp [collectHunk, Edit.targets]
    | span range => exact hupdate _ range.lines fun _ => mem_target
  | block anchor payloads mode register num index => simp [collectHunk, Edit.targets]

/-- A hunk owns the lines that its edits delete. -/
theorem owns_foldl {edits : List Edit} {hunks : OrdMap Nat Hunk} {lineNum line : Nat} :
    owns (edits.foldl collectHunk hunks) lineNum line = true ↔
      (∃ edit ∈ edits, edit.lineNum = lineNum ∧ line ∈ edit.targets) ∨ owns hunks lineNum line = true := by
  induction edits generalizing hunks with
  | nil => simp
  | cons edit edits ih =>
    rw [List.foldl_cons, ih, owns_collectHunk, ← or_assoc]
    refine or_congr_left ?_
    rw [List.exists_mem_cons_iff, or_comm]

/-- Every line of a hunk that was looked at and not dropped is owned by it, and nothing else is owned. -/
structure Owned (hunks : OrdMap Nat Hunk) (seen : List Nat) (owners : Owners) : Prop where
  owner : ∀ lineNum ∈ seen, lineNum ∉ owners.dropped → ∀ line, owns hunks lineNum line = true →
    owners.owner line = some lineNum
  known : ∀ line lineNum, owners.owner line = some lineNum → lineNum ∈ seen
  dropped : ∀ lineNum ∈ owners.dropped, lineNum ∈ seen

theorem owned_nil (hunks : OrdMap Nat Hunk) : Owned hunks [] ⟨fun _ => none, []⟩ where
  owner _ h := absurd h List.not_mem_nil
  known _ _ h := by cases h
  dropped _ h := absurd h List.not_mem_nil

theorem owns_eq {hunks : OrdMap Nat Hunk} {lineNum line : Nat} {hunk : Hunk}
    (h : (lineNum, hunk) ∈ hunks.entries) :
    owns hunks lineNum line = true ↔ line ∈ hunk.lines.entries.map Prod.fst := by
  rw [owns, OrdMap.get?_eq_some_iff.2 h, Option.any_some, OrdMap.contains, Option.isSome_iff_exists,
    List.mem_map]
  constructor
  · rintro ⟨⟨⟩, hline⟩
    exact ⟨_, OrdMap.get?_eq_some_iff.1 hline, rfl⟩
  · rintro ⟨⟨_, ⟨⟩⟩, hline, rfl⟩
    exact ⟨(), OrdMap.get?_eq_some_iff.2 hline⟩

theorem owned_claimHunk {hunks : OrdMap Nat Hunk} {seen : List Nat} {owners after : Owners}
    (h : Owned hunks seen owners) {lineNum : Nat} {hunk : Hunk} (hentry : (lineNum, hunk) ∈ hunks.entries)
    (hfresh : lineNum ∉ seen) (hclaim : claimHunk hunks owners (lineNum, hunk) = .ok after) :
    Owned hunks (lineNum :: seen) after := by
  have hlines := fun line => @owns_eq hunks lineNum line hunk hentry
  simp only [claimHunk] at hclaim
  split at hclaim
  · next htaken =>
    -- No line of the hunk is owned.
    cases hclaim
    have hfree : ∀ line ∈ hunk.lines.entries.map Prod.fst, owners.owner line = none := by
      rw [List.dedup_eq_nil] at htaken
      exact List.filterMap_eq_nil_iff.1 htaken
    constructor
    · intro other hother hkept line howns
      rw [Owners.take]
      simp only
      rcases List.mem_cons.1 hother with rfl | hother
      · rw [if_pos ((hlines line).1 howns)]
      · have hold := h.owner other hother hkept line howns
        rw [if_neg fun hmem => ?_, hold]
        rw [hfree line hmem] at hold
        cases hold
    · intro line other hother
      rw [Owners.take] at hother
      simp only at hother
      split at hother
      · cases hother
        exact List.mem_cons_self
      · exact List.mem_cons_of_mem _ (h.known line other hother)
    · exact fun other hother => List.mem_cons_of_mem _ (h.dropped other hother)
  · next previous htaken =>
    split at hclaim
    · next hexact =>
      -- The lines are those of one earlier hunk, which is dropped.
      cases hclaim
      have honly : ∀ line ∈ hunk.lines.entries.map Prod.fst, ∀ other, owners.owner line = some other →
          other = previous := by
        intro line hline other hother
        have hmem : other ∈ ((hunk.lines.entries.map Prod.fst).filterMap owners.owner).dedup :=
          List.mem_dedup.2 (List.mem_filterMap.2 ⟨line, hline, hother⟩)
        rw [htaken] at hmem
        exact List.mem_singleton.1 hmem
      have hprevious : previous ∈ seen := by
        have hmem : previous ∈ ((hunk.lines.entries.map Prod.fst).filterMap owners.owner).dedup := by
          rw [htaken]
          exact List.mem_singleton_self _
        obtain ⟨line, -, hline⟩ := List.mem_filterMap.1 (List.mem_dedup.1 hmem)
        exact h.known line previous hline
      constructor
      · intro other hother hkept line howns
        simp only [Owners.take, Owners.drop, List.mem_cons, not_or] at hkept ⊢
        rcases List.mem_cons.1 hother with rfl | hother
        · rw [if_pos ((hlines line).1 howns)]
        · have hold := h.owner other hother hkept.2 line howns
          rw [if_neg fun hmem => hkept.1 (honly line hmem other hold), hold]
          simpa using hkept.1
      · intro line other hother
        simp only [Owners.take, Owners.drop] at hother
        split at hother
        · cases hother
          exact List.mem_cons_self
        · exact List.mem_cons_of_mem _ (h.known line other (Option.filter_eq_some_iff.1 hother).1)
      · intro other hother
        rcases List.mem_cons.1 hother with rfl | hother
        · exact List.mem_cons_of_mem _ hprevious
        · exact List.mem_cons_of_mem _ (h.dropped other hother)
    · cases hclaim
  · cases hclaim

theorem owned_foldlM {hunks : OrdMap Nat Hunk} {entries : List (Nat × Hunk)} {seen : List Nat}
    {owners after : Owners} (h : Owned hunks seen owners) (hentries : ∀ entry ∈ entries, entry ∈ hunks.entries)
    (hsorted : entries.Pairwise fun p q => p.1 < q.1) (hfresh : ∀ entry ∈ entries, entry.1 ∉ seen)
    (hfold : entries.foldlM (claimHunk hunks) owners = .ok after) :
    ∃ seen', (∀ lineNum, lineNum ∈ seen' ↔ lineNum ∈ entries.map Prod.fst ∨ lineNum ∈ seen) ∧
      Owned hunks seen' after := by
  induction entries generalizing seen owners with
  | nil =>
    cases hfold
    exact ⟨seen, by simp, h⟩
  | cons entry entries ih =>
    obtain ⟨lineNum, hunk⟩ := entry
    rw [List.foldlM_cons, Except.bind_eq_ok] at hfold
    obtain ⟨next, hclaim, hfold⟩ := hfold
    obtain ⟨hhead, htail⟩ := List.forall_mem_cons.1 hentries
    rw [List.pairwise_cons] at hsorted
    obtain ⟨hnew, hrest⟩ := List.forall_mem_cons.1 hfresh
    obtain ⟨seen', hseen', howned⟩ := ih (owned_claimHunk h hhead hnew hclaim) htail hsorted.2
      (fun other hother hmem => by
        rcases List.mem_cons.1 hmem with heq | hmem
        · exact absurd (hsorted.1 other hother) (by simp [heq])
        · exact hrest other hother hmem) hfold
    refine ⟨seen', fun n => ?_, howned⟩
    rw [hseen', List.map_cons, List.mem_cons, List.mem_cons]
    tauto

/-- The hunks of a section that parses delete different lines, as far as their edits name lines. -/
theorem disjoint_of_normalizeOverlaps {edits kept : List Edit} (h : normalizeOverlaps edits = .ok kept)
    {edit other : Edit} (hedit : edit ∈ kept) (hother : other ∈ kept) {line : Nat}
    (hline : line ∈ edit.targets) (hline' : line ∈ other.targets) : edit.lineNum = other.lineNum := by
  rw [normalizeOverlaps, Except.bind_eq_ok] at h
  obtain ⟨owners, hfold, hkept⟩ := h
  cases hkept
  obtain ⟨seen, hseen, howned⟩ := owned_foldlM (owned_nil _) (fun _ h => h)
    (edits.foldl collectHunk ∅).sorted (fun _ _ => List.not_mem_nil) hfold
  have howner : ∀ edit : Edit, edit ∈ edits.filter (fun edit => !owners.dropped.contains edit.lineNum) →
      line ∈ edit.targets → owners.owner line = some edit.lineNum := by
    intro edit hedit hline
    rw [List.mem_filter] at hedit
    have howns : owns (edits.foldl collectHunk ∅) edit.lineNum line = true :=
      owns_foldl.2 (.inl ⟨edit, hedit.1, rfl, hline⟩)
    have hkept : edit.lineNum ∉ owners.dropped := by simpa using hedit.2
    refine howned.owner _ ((hseen _).2 (.inl ?_)) hkept line howns
    rw [owns, Option.any_eq_true] at howns
    obtain ⟨hunk, hhunk, -⟩ := howns
    exact List.mem_map.2 ⟨_, OrdMap.get?_eq_some_iff.1 hhunk, rfl⟩
  exact Option.some.inj ((howner edit hedit hline).symm.trans (howner other hother hline'))


/-! ## Lowering -/

/-- The edit deletes the line for the hunk. -/
def Edit.Hits (lineNum line : Nat) (edit : Edit) : Prop :=
  edit.lineNum = lineNum ∧ line ∈ edit.targets

/-- The lines that the edit deletes, blocks being resolved. -/
def Edit.claims (resolver : Nat → Option BlockSpan) : Edit → List Nat
  | .block anchor _ mode _ _ _ =>
    match mode, resolver anchor with
    | none, some span => span.range.lines
    | some .cut, some span => span.range.lines
    | _, _ => []
  | edit => edit.targets

def Edit.isBlock : Edit → Bool
  | .block _ _ _ _ _ _ => true
  | _ => false

theorem Edit.claims_eq_targets {resolver : Nat → Option BlockSpan} {edit : Edit}
    (h : edit.isBlock = false) : edit.claims resolver = edit.targets := by
  cases edit with
  | block => cases h
  | _ => rfl

theorem exists_mem_numbered {p : Edit → Prop} {edits : List (Nat → Edit)} {index : Nat}
    (h : ∀ edit ∈ edits, ∀ i j, p (edit i) → p (edit j)) :
    (∃ edit ∈ numbered edits index, p edit) ↔ ∃ edit ∈ edits, p (edit 0) := by
  simp only [numbered, List.mem_map, Prod.exists, List.mem_zipIdx_iff_getElem?]
  constructor
  · rintro ⟨_, ⟨edit, i, hedit, rfl⟩, hp⟩
    exact ⟨edit, List.mem_of_getElem? hedit, h edit (List.mem_of_getElem? hedit) _ _ hp⟩
  · rintro ⟨edit, hedit, hp⟩
    obtain ⟨i, hi⟩ := List.mem_iff_getElem?.1 hedit
    exact ⟨_, ⟨edit, i, hi, rfl⟩, h edit hedit _ _ hp⟩

/-- An edit keeps its hunk and its lines when it is given another index. -/
def Uniform (edit : Nat → Edit) : Prop :=
  ∀ i j, (edit i).lineNum = (edit j).lineNum ∧ (edit i).targets = (edit j).targets

theorem exists_hits_numbered {edits : List (Nat → Edit)} {index lineNum line : Nat}
    (h : ∀ edit ∈ edits, Uniform edit) :
    (∃ edit ∈ numbered edits index, edit.Hits lineNum line) ↔ ∃ edit ∈ edits, (edit 0).Hits lineNum line := by
  refine exists_mem_numbered fun edit hedit i j hits => ?_
  obtain ⟨hnum, htargets⟩ := h edit hedit i j
  rwa [Edit.Hits, ← hnum, ← htargets]

theorem uniform_lowerBlock {span : BlockSpan} {payloads : List Str} {mode : Option BlockMode}
    {register : Option Str} {lineNum : Nat} :
    ∀ edit ∈ lowerBlock span payloads mode register lineNum, Uniform edit := by
  intro edit hedit
  unfold lowerBlock at hedit
  split at hedit
  · rw [List.mem_singleton.1 hedit]
    exact fun _ _ => ⟨rfl, rfl⟩
  · rcases List.mem_cons.1 hedit with rfl | hedit
    · exact fun _ _ => ⟨rfl, rfl⟩
    · obtain ⟨_, -, rfl⟩ := List.mem_map.1 hedit
      exact fun _ _ => ⟨rfl, rfl⟩
  · obtain ⟨_, -, rfl⟩ := List.mem_map.1 hedit
    exact fun _ _ => ⟨rfl, rfl⟩
  · split at hedit
    · rw [List.mem_singleton.1 hedit]
      exact fun _ _ => ⟨rfl, rfl⟩
    · rcases List.mem_append.1 hedit with hedit | hedit
      · obtain ⟨_, -, rfl⟩ := List.mem_map.1 hedit
        exact fun _ _ => ⟨rfl, rfl⟩
      · obtain ⟨_, -, rfl⟩ := List.mem_map.1 hedit
        exact fun _ _ => ⟨rfl, rfl⟩

/-- A resolved block deletes the lines of its span, unless it only adds after it. -/
theorem hits_lowerBlock {resolver : Nat → Option BlockSpan} {anchor : Nat} {span : BlockSpan}
    (hspan : resolver anchor = some span) {payloads : List Str} {mode : Option BlockMode}
    {register : Option Str} {hunk index lineNum line : Nat} :
    (∃ edit ∈ lowerBlock span payloads mode register hunk, (edit 0).Hits lineNum line) ↔
      hunk = lineNum ∧
        line ∈ (Edit.block anchor payloads mode register hunk index).claims resolver := by
  rcases mode with _ | _ | _ | _
  · rw [lowerBlock]
    split
    · simp [Edit.claims, hspan, Edit.Hits, Edit.lineNum, Edit.targets]
    · simp [Edit.claims, hspan, Edit.Hits, Edit.lineNum, Edit.targets, or_and_right, exists_or]
      exact and_comm
  · simp [lowerBlock, Edit.claims, Edit.Hits, Edit.lineNum, Edit.targets]
  · simp [lowerBlock, Edit.claims, hspan, Edit.Hits, Edit.lineNum, Edit.targets]
    exact and_comm
  · simp [lowerBlock, Edit.claims, Edit.Hits, Edit.lineNum, Edit.targets]

theorem hits_lowerUnresolved {anchor : Nat} {payloads : List Str} {mode : Option BlockMode}
    {register : Option Str} {hunk lineNum line : Nat} {lowered : List (Nat → Edit)}
    (h : lowerUnresolved anchor payloads mode register hunk = .ok lowered) :
    ∀ edit ∈ lowered, Uniform edit ∧ ¬ (edit 0).Hits lineNum line := by
  intro edit hedit
  unfold lowerUnresolved at h
  split at h
  · cases h
    rw [List.mem_singleton.1 hedit]
    exact ⟨fun _ _ => ⟨rfl, rfl⟩, fun hits => absurd hits.2 List.not_mem_nil⟩
  · cases h
    obtain ⟨_, -, rfl⟩ := List.mem_map.1 hedit
    exact ⟨fun _ _ => ⟨rfl, rfl⟩, fun hits => absurd hits.2 List.not_mem_nil⟩
  · cases h

theorem resolveBlockEdits_cons {resolver : Nat → Option BlockSpan} {synth : Nat} {edit : Edit}
    {edits : List Edit} (h : edit.isBlock = false) :
    resolveBlockEdits resolver synth (edit :: edits) =
      resolveBlockEdits resolver synth edits >>= fun rest => .ok (edit :: rest) := by
  cases edit with
  | block => cases h
  | _ => rfl

/-- What a block becomes. -/
theorem hits_block {resolver : Nat → Option BlockSpan} {anchor : Nat} {payloads : List Str}
    {mode : Option BlockMode} {register : Option Str} {hunk index synth lineNum line : Nat}
    {lowered : List (Nat → Edit)}
    (h : lowerBlockEdit resolver anchor payloads mode register hunk = .ok lowered) :
    (∃ edit ∈ numbered lowered synth, edit.Hits lineNum line) ↔ hunk = lineNum ∧
      line ∈ (Edit.block anchor payloads mode register hunk index).claims resolver := by
  rw [lowerBlockEdit] at h
  split at h
  · next hnone =>
    have hnot := @hits_lowerUnresolved anchor payloads mode register hunk lineNum line _ h
    rw [exists_hits_numbered fun edit hedit => (hnot edit hedit).1]
    constructor
    · rintro ⟨edit, hedit, hits⟩
      exact absurd hits (hnot edit hedit).2
    · rintro ⟨-, hmem⟩
      simp only [Edit.claims, hnone] at hmem
      rcases mode with _ | _ | _ | _ <;> cases hmem
  · next span hspan =>
    split at h
    · cases h
    · cases h
      rw [exists_hits_numbered uniform_lowerBlock]
      exact hits_lowerBlock hspan

theorem hits_resolveBlockEdits {resolver : Nat → Option BlockSpan} {edits resolved : List Edit}
    {synth lineNum line : Nat} (h : resolveBlockEdits resolver synth edits = .ok resolved) :
    (∃ edit ∈ resolved, edit.Hits lineNum line) ↔
      ∃ edit ∈ edits, edit.lineNum = lineNum ∧ line ∈ edit.claims resolver := by
  induction edits generalizing synth resolved with
  | nil =>
    cases h
    simp
  | cons edit edits ih =>
    rw [List.exists_mem_cons_iff]
    cases hblock : edit.isBlock with
    | false =>
      rw [resolveBlockEdits_cons hblock, Except.bind_eq_ok] at h
      obtain ⟨rest, hrest, hresolved⟩ := h
      cases hresolved
      rw [List.exists_mem_cons_iff, ih hrest, Edit.Hits, Edit.claims_eq_targets hblock]
    | true =>
      cases edit with
      | block anchor payloads mode register hunk index =>
        rw [resolveBlockEdits, Except.bind_eq_ok] at h
        obtain ⟨lowered, hlowered, h⟩ := h
        rw [Except.bind_eq_ok] at h
        obtain ⟨rest, hrest, hresolved⟩ := h
        cases hresolved
        rw [← ih hrest]
        simp only [List.mem_append, or_and_right, exists_or]
        exact or_congr_left (hits_block hlowered)
      | _ => cases hblock

theorem delete_mem_numbered {edits : List (Nat → Edit)} {index lineNum line : Nat}
    (h : ∀ edit ∈ edits, ∀ i j k, edit i = .delete line lineNum k → ∃ k', edit j = .delete line lineNum k') :
    (∃ i, .delete line lineNum i ∈ numbered edits index) ↔
      ∃ edit ∈ edits, ∃ i, edit 0 = .delete line lineNum i := by
  have hmem : (∃ i, Edit.delete line lineNum i ∈ numbered edits index) ↔
      ∃ edit ∈ numbered edits index, ∃ i, edit = .delete line lineNum i := by
    constructor
    · rintro ⟨i, hi⟩
      exact ⟨_, hi, i, rfl⟩
    · rintro ⟨_, hedit, i, rfl⟩
      exact ⟨i, hedit⟩
  rw [hmem]
  exact exists_mem_numbered fun edit hedit i j ⟨k, hk⟩ => h edit hedit i j k hk

/-- A paste deletes the lines that it replaces. -/
theorem delete_mem_lowerPaste {target : PasteTarget} {texts : List Str} {hunk synth lineNum line index : Nat}
    {register : Option Str} {blockStart : Option Nat} :
    (∃ i, .delete line lineNum i ∈ numbered (lowerPaste target texts hunk blockStart) synth) ↔
      (Edit.paste target register hunk index blockStart).Hits lineNum line := by
  rw [delete_mem_numbered]
  · cases target with
    | gap cursor => simp [lowerPaste, Edit.Hits, Edit.lineNum, Edit.targets]
    | span range =>
      simp [lowerPaste, Edit.Hits, Edit.lineNum, Edit.targets, or_and_right, exists_or]
      exact and_comm
  · intro edit hedit i j k hk
    cases target with
    | gap cursor =>
      obtain ⟨_, -, rfl⟩ := List.mem_map.1 hedit
      cases hk
    | span range =>
      rcases List.mem_append.1 hedit with hedit | hedit
      · obtain ⟨_, -, rfl⟩ := List.mem_map.1 hedit
        cases hk
      · obtain ⟨_, -, rfl⟩ := List.mem_map.1 hedit
        cases hk
        exact ⟨j, rfl⟩

/-- The edit names no register. -/
def Edit.isPlain : Edit → Bool
  | .cut _ _ _ _ | .paste _ _ _ _ _ => false
  | _ => true

theorem resolveClipboardEdits_cons {fileLines : List Str} {synth : Nat} {clipboard : Clipboard}
    {edit : Edit} {edits : List Edit} (h : edit.isPlain = true) :
    resolveClipboardEdits fileLines synth clipboard (edit :: edits) =
      resolveClipboardEdits fileLines synth clipboard edits >>= fun rest => .ok (edit :: rest) := by
  cases edit with
  | cut => cases h
  | paste => cases h
  | _ => rfl

theorem hits_iff_of_isPlain {edit : Edit} (h : edit.isPlain = true) {lineNum line : Nat} :
    edit.Hits lineNum line ↔ ∃ i, Edit.delete line lineNum i = edit := by
  cases edit with
  | delete target num index => simp [Edit.Hits, Edit.lineNum, Edit.targets, eq_comm, and_comm]
  | cut => cases h
  | paste => cases h
  | insert => simp [Edit.Hits, Edit.targets]
  | block => simp [Edit.Hits, Edit.targets]

theorem delete_mem_resolveClipboardEdits {fileLines : List Str} {synth : Nat} {clipboard : Clipboard}
    {resolved concrete : List Edit} {lineNum line : Nat}
    (h : resolveClipboardEdits fileLines synth clipboard resolved = .ok concrete) :
    (∃ i, .delete line lineNum i ∈ concrete) ↔ ∃ edit ∈ resolved, edit.Hits lineNum line := by
  induction resolved generalizing synth clipboard concrete with
  | nil =>
    cases h
    simp
  | cons edit edits ih =>
    rw [List.exists_mem_cons_iff]
    cases hplain : edit.isPlain with
    | true =>
      rw [resolveClipboardEdits_cons hplain, Except.bind_eq_ok] at h
      obtain ⟨rest, hrest, hconcrete⟩ := h
      cases hconcrete
      rw [← ih hrest, hits_iff_of_isPlain hplain]
      simp only [List.mem_cons, exists_or]
    | false =>
      cases edit with
      | cut range register num index =>
        rw [resolveClipboardEdits, Except.bind_eq_ok] at h
        obtain ⟨clipboard', -, hrest⟩ := h
        rw [ih hrest]
        simp [Edit.Hits, Edit.targets]
      | paste target register num index blockStart =>
        simp only [resolveClipboardEdits, Except.bind_eq_ok] at h
        obtain ⟨⟨texts, clipboard'⟩, -, -, -, rest, hrest, hconcrete⟩ := h
        cases hconcrete
        rw [← ih hrest, ← @delete_mem_lowerPaste target texts num synth]
        simp only [List.mem_append, exists_or]
      | _ => cases hplain

theorem delete_mem_lowerEdits {resolver : Nat → Option BlockSpan} {fileLines : List Str}
    {clipboard : Clipboard} {edits target : List Edit} {lineNum line : Nat}
    (h : lowerEdits resolver fileLines clipboard edits = .ok target) :
    (∃ i, .delete line lineNum i ∈ target) ↔ phantomLine fileLines ≠ some line ∧
      ∃ edit ∈ edits, edit.lineNum = lineNum ∧ line ∈ edit.claims resolver := by
  rw [lowerEdits, Except.bind_eq_ok] at h
  obtain ⟨resolved, hresolved, h⟩ := h
  rw [Except.bind_eq_ok] at h
  obtain ⟨concrete, hconcrete, h⟩ := h
  simp only at h
  split at h
  · cases h
  · cases h
    rw [← hits_resolveBlockEdits hresolved, ← delete_mem_resolveClipboardEdits hconcrete]
    simp [List.mem_filter, and_comm]

/-! ## One hunk for each line -/

/-- No line is deleted for two hunks. -/
def OneHunkPerLine (edits : List Edit) : Prop :=
  ∀ line lineNum lineNum' i j, .delete line lineNum i ∈ edits → .delete line lineNum' j ∈ edits →
    lineNum = lineNum'

/-- The lines that a block turns out to span are apart from those of every other hunk. The empty line after the last
line break does not count. -/
def BlocksApart (resolver : Nat → Option BlockSpan) (fileLines : List Str) (edits : List Edit) : Prop :=
  ∀ edit ∈ edits, edit.isBlock = true → ∀ other ∈ edits, other.lineNum ≠ edit.lineNum →
    ∀ line ∈ edit.claims resolver, line ∈ other.claims resolver → phantomLine fileLines = some line

theorem oneHunkPerLine_iff {rows : List Row} {edits target : List Edit}
    {resolver : Nat → Option BlockSpan} {fileLines : List Str} {clipboard : Clipboard}
    (hparse : parseSection rows = .ok edits)
    (happly : lowerEdits resolver fileLines clipboard edits = .ok target) :
    OneHunkPerLine target ↔ BlocksApart resolver fileLines edits := by
  have hdelete := fun lineNum line => @delete_mem_lowerEdits resolver fileLines clipboard edits target lineNum line happly
  constructor
  · intro hone edit hedit _ other hother hne line hline hline'
    by_contra hphantom
    obtain ⟨i, hi⟩ := (hdelete edit.lineNum line).2 ⟨hphantom, edit, hedit, rfl, hline⟩
    obtain ⟨j, hj⟩ := (hdelete other.lineNum line).2 ⟨hphantom, other, hother, rfl, hline'⟩
    exact hne (hone line _ _ j i hj hi)
  · intro hapart line lineNum lineNum' i j hi hj
    obtain ⟨hphantom, edit, hedit, rfl, hline⟩ := (hdelete lineNum line).1 ⟨i, hi⟩
    obtain ⟨-, other, hother, rfl, hline'⟩ := (hdelete lineNum' line).1 ⟨j, hj⟩
    by_contra hne
    cases hblock : edit.isBlock with
    | true => exact hphantom (hapart edit hedit hblock other hother (Ne.symm hne) line hline hline')
    | false =>
      cases hblock' : other.isBlock with
      | true => exact hphantom (hapart other hother hblock' edit hedit hne line hline' hline)
      | false =>
        rw [Edit.claims_eq_targets hblock] at hline
        rw [Edit.claims_eq_targets hblock'] at hline'
        rw [parseSection, Except.bind_eq_ok] at hparse
        obtain ⟨executor, -, hnormal⟩ := hparse
        exact hne (disjoint_of_normalizeOverlaps hnormal hedit hother hline hline')

/-- A file of five lines whose first three are a block. -/
def blockFile : List Str := ["a".toList, "b".toList, "c".toList, "d".toList, "e".toList]

def firstThree (anchor : Nat) : Option BlockSpan :=
  if 1 ≤ anchor ∧ anchor ≤ 3 then some ⟨1, 3⟩ else none

/-- `PUT 1*:` and, two lines on, `PUT n:`. -/
def blockThenLine (n : Nat) : List Row :=
  [.hunk ⟨.block 1 none, 1, ["x".toList], true⟩, .hunk ⟨.replace ⟨n, n⟩ none, 3, ["y".toList], true⟩]

def blockThenLineEdits (n : Nat) : List Edit :=
  [.block 1 ["x".toList] none none 1 0, .insert (.beforeAnchor n) "y".toList 3 1 true none, .delete n 3 2]

def blockThenLineTarget (n : Nat) : List Edit :=
  [.insert (.beforeAnchor 1) "x".toList 1 0 true none, .delete 1 1 1, .delete 2 1 2, .delete 3 1 3,
    .insert (.beforeAnchor n) "y".toList 3 1 true none, .delete n 3 2]

def noClipboard : Clipboard := ⟨none, fun _ => none, 0⟩

/-- The fourth line is not in the block. -/
theorem blocksApart_fourth : BlocksApart firstThree blockFile (blockThenLineEdits 4) := by
  intro edit hedit hblock other hother hne line hline hline'
  rw [blockThenLineEdits, List.mem_cons, List.mem_cons, List.mem_singleton] at hedit hother
  rcases hedit with rfl | rfl | rfl
  · rcases hother with rfl | rfl | rfl
    · exact absurd rfl hne
    · cases hline'
    · cases List.mem_singleton.1 hline'
      simp [Edit.claims, firstThree, BlockSpan.range, ParsedRange.lines] at hline
  · cases hblock
  · cases hblock

theorem oneHunkPerLine_fourth : parseSection (blockThenLine 4) = .ok (blockThenLineEdits 4) ∧
    lowerEdits firstThree blockFile noClipboard (blockThenLineEdits 4) = .ok (blockThenLineTarget 4) ∧
    OneHunkPerLine (blockThenLineTarget 4) :=
  ⟨rfl, rfl, (@oneHunkPerLine_iff (blockThenLine 4) (blockThenLineEdits 4) _ firstThree blockFile noClipboard
    rfl rfl).2 blocksApart_fourth⟩

/-- The block spans the second line too, which is replaced again. -/
theorem block_and_line_overlap :
    (∀ anchor span, firstThree anchor = some span → span.start ≤ anchor ∧ anchor ≤ span.stop) ∧
      parseSection (blockThenLine 2) = .ok (blockThenLineEdits 2) ∧
      lowerEdits firstThree blockFile noClipboard (blockThenLineEdits 2) = .ok (blockThenLineTarget 2) ∧
      ¬ OneHunkPerLine (blockThenLineTarget 2) := by
  refine ⟨?_, rfl, rfl, ?_⟩
  · intro anchor span h
    rw [firstThree] at h
    split at h
    · next hin =>
      cases h
      exact hin
    · cases h
  · intro h
    have hsame : 1 = 3 := h 2 1 3 2 2 (by simp [blockThenLineTarget]) (by simp [blockThenLineTarget])
    cases hsame

end OhMyPi.Hashline
