import OhMyPi.Recovery.Scanning

/-! What a whole text means to the leaked-thinking stage. -/

namespace OhMyPi.Recovery

variable {patterns : List Pattern}

/-! ### Reading a text -/

section

variable (patterns : List Pattern)

/-- No opener occurs in the bytes. -/
def Free (b : Bytes) : Prop := ∀ p ∈ patterns, ¬ p.opener <:+: b

/-- The line indentations that a stage may keep once it has emitted this text, piece by piece. -/
def Indents (seen : Bytes) (indent : Int) : Prop :=
  ∃ pieces : List Bytes, pieces.flatten = seen ∧
    pieces.foldl (fun indent piece => trailingIndent piece indent) 0 = indent

/-- Whether a run of backticks that follows `lead` may be taken for a fence, or for a span: the
stage goes by the indentation of what it has emitted before, which is any part of `lead`. -/
def May (seen lead : Bytes) (ticks : Nat) (fenced : Bool) : Prop :=
  ∃ part, part <+: lead ∧ ∃ indent, Indents (seen ++ part) indent ∧
    fenced = (decide (ticks ≥ 3) && decide (0 ≤ indent) && decide (indent ≤ 3))

/-- Where the code that a run of backticks starts ends at the earliest. -/
def codeEnd (ticks : Nat) (fenced : Bool) (b : Bytes) : Option Nat :=
  if fenced then fenceCloseEnd ticks true 0 (splitLines b)
  else (exactBacktickRun ticks 0 0 b).map (· + ticks)

/-- No opener occurs after the code. -/
def Hushed (ticks : Nat) (fenced : Bool) (b : Bytes) : Prop :=
  ∀ stop, codeEnd ticks fenced b = some stop → Free patterns (b.drop stop)

/-- What is being read. -/
inductive Mode
  /-- Visible text, `lead` of it since the last block or span. -/
  | visible (lead : Bytes)
  | span (ticks : Nat)
  /-- A block of which so many bytes are read. -/
  | thought (pattern : Pattern) (inputBytes : Nat)

/-- The thinking text of a closed block. -/
def Pattern.trim (pattern : Pattern) (b : Bytes) : Bytes :=
  if pattern.trimFinalNewline && b.getLast? = some newline then b.dropLast else b

variable (limit : Nat)

/-- A text is read, after the visible text `seen`, as visible text and the bytes of blocks, with
none where a block starts. A run of backticks that may be taken for a fence ends the reading of
blocks: no opener occurs after what the run may start. -/
inductive Reads : Mode → Bytes → Bytes → Bytes → List (Option UInt8) → Prop
  | rest : visibleHit patterns true 0 b = .none → Reads (.visible lead) seen b b []
  | tag : visibleHit patterns true 0 b = .tag start p →
      Reads (.thought p p.opener.length) (seen ++ lead ++ b.take start)
        (b.drop (start + p.opener.length)) text marks →
      Reads (.visible lead) seen b (b.take start ++ text) (none :: marks)
  | code : visibleHit patterns true 0 b = .code start ticks →
      ¬ May seen (lead ++ b.take start) ticks true →
      Reads (.span ticks) (seen ++ lead ++ b.take (start + ticks)) (b.drop (start + ticks))
        text marks →
      Reads (.visible lead) seen b (b.take (start + ticks) ++ text) marks
  | fence : visibleHit patterns true 0 b = .code start ticks →
      (∀ fenced, May seen (lead ++ b.take start) ticks fenced →
        Hushed patterns ticks fenced (b.drop (start + ticks))) →
      Reads (.visible lead) seen b b []
  | spanOpen : exactBacktickRun ticks 0 0 b = none → Reads (.span ticks) seen b b []
  | spanClosed : exactBacktickRun ticks 0 0 b = some stop →
      Reads (.visible []) (seen ++ b.take (stop + ticks)) (b.drop (stop + ticks)) text marks →
      Reads (.span ticks) seen b (b.take (stop + ticks) ++ text) marks
  | unclosed : find p.closer b = none → inputBytes + b.length ≤ limit →
      Reads (.thought p inputBytes) seen b [] (b.map some)
  | closed : find p.closer b = some stop → inputBytes + (stop + p.closer.length) ≤ limit →
      Reads (.visible []) seen (b.drop (stop + p.closer.length)) text marks →
      Reads (.thought p inputBytes) seen b text ((p.trim (b.take stop)).map some ++ marks)

end

/-! ### Reading on -/

variable {limit : Nat}

theorem Free.of_suffix (h : Free patterns b) (hb : b' <:+ b) : Free patterns b' :=
  fun p hp hopen => h p hp (hopen.trans hb.isInfix)

theorem Free.drop (h : Free patterns b) (n : Nat) : Free patterns (b.drop n) :=
  h.of_suffix (List.drop_suffix n b)

/-- Text without openers is visible. -/
theorem Free.reads (h : Free patterns b) (seen lead : Bytes) :
    Reads patterns limit (.visible lead) seen b b [] := by
  cases hhit : visibleHit patterns true 0 b with
  | none => exact .rest hhit
  | hold start => exact absurd hhit (visibleHit_ne_hold 0 b start)
  | code start ticks =>
    apply Reads.fence hhit
    intro fenced _ stop _
    exact (h.drop _).drop _
  | tag start p =>
    obtain ⟨hp, b₁, b₂, hb, -⟩ := visibleHit_eq_tag hhit
    exact absurd ⟨b₁, b₂, by rw [List.append_assoc, hb]⟩ (h p hp)

theorem Hushed.reads (h : Hushed patterns ticks false b) (seen : Bytes) :
    Reads patterns limit (.span ticks) seen b b [] := by
  cases hrun : exactBacktickRun ticks 0 0 b with
  | none => exact .spanOpen hrun
  | some stop =>
    have hfree : Free patterns (b.drop (stop + ticks)) := by
      apply h
      rw [codeEnd, hrun]
      rfl
    have hreads : Reads patterns limit (.span ticks) seen b
        (b.take (stop + ticks) ++ b.drop (stop + ticks)) [] := .spanClosed hrun (hfree.reads _ _)
    rwa [List.take_append_drop] at hreads

theorem Reads.visible_of_shift {w y : Bytes}
    (hhit : visibleHit patterns true 0 (w ++ y) = visibleHit patterns true w.length y)
    (h : Reads patterns limit (.visible lead) seen (w ++ y) text marks) :
    ∃ text', text = w ++ text' ∧
      Reads patterns limit (.visible (lead ++ w)) seen y text' marks := by
  rw [← Nat.zero_add w.length, visibleHit_shift] at hhit
  have htake : ∀ n, (w ++ y).take (n + w.length) = w ++ y.take n := by
    intro n
    rw [Nat.add_comm, List.take_length_add_append]
  have hdrop : ∀ n k, (w ++ y).drop (n + w.length + k) = y.drop (n + k) := by
    intro n k
    rw [Nat.add_right_comm, Nat.add_comm _ w.length, List.drop_length_add_append]
  cases h with
  | rest hnone =>
    rw [hhit] at hnone
    exact ⟨y, rfl, .rest (VisibleHit.eq_none_of_shift hnone)⟩
  | tag htag hrest =>
    rw [hhit] at htag
    obtain ⟨start, hy, rfl⟩ := VisibleHit.eq_tag_of_shift htag
    rw [htake, hdrop] at hrest
    rw [htake, List.append_assoc]
    refine ⟨_, rfl, .tag hy ?_⟩
    rwa [← List.append_assoc seen lead, List.append_assoc]
  | code hcode hmay hrest =>
    rw [hhit] at hcode
    obtain ⟨start, hy, rfl⟩ := VisibleHit.eq_code_of_shift hcode
    rw [htake, ← List.append_assoc] at hmay
    rw [Nat.add_right_comm, htake, Nat.add_right_comm, hdrop] at hrest
    rw [Nat.add_right_comm, htake, List.append_assoc]
    refine ⟨_, rfl, .code hy hmay ?_⟩
    rwa [← List.append_assoc seen lead, List.append_assoc]
  | fence hcode hmay =>
    rw [hhit] at hcode
    obtain ⟨start, hy, rfl⟩ := VisibleHit.eq_code_of_shift hcode
    refine ⟨y, rfl, .fence hy ?_⟩
    intro fenced h
    rw [← hdrop]
    apply hmay
    rwa [htake, ← List.append_assoc]

theorem Reads.span_of_shift {v z : Bytes}
    (hrun : exactBacktickRun ticks 0 0 (v ++ z) = exactBacktickRun ticks v.length 0 z)
    (h : Reads patterns limit (.span ticks) seen (v ++ z) text marks) :
    ∃ text', text = v ++ text' ∧ Reads patterns limit (.span ticks) (seen ++ v) z text' marks := by
  rw [← Nat.zero_add v.length, exactBacktickRun_shift] at hrun
  cases h with
  | spanOpen hnone =>
    rw [hrun, Option.map_eq_none_iff] at hnone
    exact ⟨z, rfl, .spanOpen hnone⟩
  | spanClosed hsome hrest =>
    rw [hrun] at hsome
    obtain ⟨stop, hz, rfl⟩ := Option.map_eq_some_iff.1 hsome
    rw [Nat.add_right_comm, Nat.add_comm _ v.length, List.take_length_add_append,
      List.drop_length_add_append, ← List.append_assoc] at hrest
    rw [Nat.add_right_comm, Nat.add_comm _ v.length, List.take_length_add_append, List.append_assoc]
    exact ⟨_, rfl, .spanClosed hz hrest⟩

theorem Pattern.trim_append (p : Pattern) {d b : Bytes} (h : b = [] → p.trim d = d) :
    p.trim (d ++ b) = d ++ p.trim b := by
  cases b with
  | nil =>
    have hnil : p.trim [] = [] := ite_self []
    rw [hnil, List.append_nil, h rfl]
  | cons x b =>
    have hlast : (d ++ x :: b).getLast? = (x :: b).getLast? :=
      List.getLast?_append_of_ne_nil _ (List.cons_ne_nil _ _)
    rw [Pattern.trim, Pattern.trim, hlast]
    split
    · rw [List.dropLast_append_of_ne_nil (List.cons_ne_nil _ _)]
    · rfl

/-- A delta may be given out once the closer cannot start in it, unless it ends with a newline
that the closer would take away. -/
theorem Reads.thought_of_misses {d z : Bytes} (hmiss : Misses p.closer (d ++ z) d.length)
    (htrim : find p.closer z = some 0 → p.trim d = d)
    (h : Reads patterns limit (.thought p inputBytes) seen (d ++ z) text marks) :
    ∃ marks', marks = d.map some ++ marks' ∧
      Reads patterns limit (.thought p (inputBytes + d.length)) seen z text marks' := by
  have hfind := find_of_misses hmiss
  rw [List.drop_left] at hfind
  cases h with
  | unclosed hnone hle =>
    rw [hfind, Option.map_eq_none_iff] at hnone
    refine ⟨z.map some, List.map_append, .unclosed hnone ?_⟩
    rwa [List.length_append, ← Nat.add_assoc] at hle
  | closed hsome hle hrest =>
    rw [hfind] at hsome
    obtain ⟨stop, hz, rfl⟩ := Option.map_eq_some_iff.1 hsome
    rw [Nat.add_comm stop, List.take_length_add_append]
    rw [Nat.add_comm stop, Nat.add_assoc, List.drop_length_add_append] at hrest
    have hsplit : p.trim (d ++ z.take stop) = d ++ p.trim (z.take stop) := by
      apply p.trim_append
      intro hnil
      obtain ⟨b₁, b₂, hb, rfl, -⟩ := find_eq_some hz
      rw [hb, List.take_left] at hnil
      rw [hnil] at hz
      exact htrim hz
    rw [hsplit, List.map_append, List.append_assoc]
    exact ⟨_, rfl, .closed hz (by omega) hrest⟩

end OhMyPi.Recovery
