import OhMyPi.Recovery.Thinking

/-! What the leaked-thinking stage finds in a part of a text it would also find in the whole. -/

namespace OhMyPi.Recovery

variable {patterns : List Pattern}

theorem isDelimiter_iff : isDelimiter b = true ↔ b ≠ [] ∧ ∀ x ∈ b, x.toNat < 128 := by
  rw [isDelimiter, Bool.and_eq_true, Bool.not_eq_true', List.isEmpty_eq_false_iff, List.all_eq_true]
  simp only [decide_eq_true_eq]

theorem Pattern.opener_ne (p : Pattern) : p.opener ≠ [] := (isDelimiter_iff.1 p.delimits_opener).1

theorem Pattern.closer_ne (p : Pattern) : p.closer ≠ [] := (isDelimiter_iff.1 p.delimits_closer).1

/-! ### Hits in visible text -/

/-- The hit in bytes that have `n` more before them. -/
def VisibleHit.shift (n : Nat) : VisibleHit → VisibleHit
  | .none => .none
  | .hold start => .hold (start + n)
  | .code start ticks => .code (start + n) ticks
  | .tag start pattern => .tag (start + n) pattern

theorem VisibleHit.eq_none_of_shift (h : VisibleHit.shift n hit = .none) : hit = .none := by
  cases hit with
  | none => rfl
  | hold => cases h
  | code => cases h
  | tag => cases h

theorem VisibleHit.eq_code_of_shift (h : VisibleHit.shift n hit = .code start ticks) :
    ∃ start', hit = .code start' ticks ∧ start = start' + n := by
  cases hit with
  | none => cases h
  | hold => cases h
  | code start' => cases h; exact ⟨start', rfl, rfl⟩
  | tag => cases h

theorem VisibleHit.eq_tag_of_shift (h : VisibleHit.shift n hit = .tag start p) :
    ∃ start', hit = .tag start' p ∧ start = start' + n := by
  cases hit with
  | none => cases h
  | hold => cases h
  | code => cases h
  | tag start' => cases h; exact ⟨start', rfl, rfl⟩

theorem patternHit_eq_some (h : patternHit final index suffix patterns = some hit) :
    (∃ p ∈ patterns, hit = .tag index p ∧ p.opener <+: suffix) ∨
      (∃ p ∈ patterns, hit = .hold index ∧ final = false ∧ suffix <+: p.opener) := by
  induction patterns with
  | nil => cases h
  | cons p patterns ih =>
    rw [patternHit] at h
    split at h
    next hopen =>
      cases h
      exact .inl ⟨p, List.mem_cons_self, rfl, List.isPrefixOf_iff_prefix.1 hopen⟩
    next =>
      split at h
      next hhold =>
        cases h
        simp only [Bool.and_eq_true, Bool.not_eq_true'] at hhold
        exact .inr ⟨p, List.mem_cons_self, rfl, hhold.1.1, List.isPrefixOf_iff_prefix.1 hhold.2⟩
      next =>
        rcases ih h with ⟨q, hq, htag⟩ | ⟨q, hq, hhold⟩
        · exact .inl ⟨q, List.mem_cons_of_mem _ hq, htag⟩
        · exact .inr ⟨q, List.mem_cons_of_mem _ hq, hhold⟩

theorem patternHit_shift (final : Bool) (index n : Nat) (suffix : Bytes) :
    patternHit final (index + n) suffix patterns =
      (patternHit final index suffix patterns).map (VisibleHit.shift n) := by
  induction patterns with
  | nil => rfl
  | cons p patterns ih =>
    rw [patternHit, patternHit, ih]
    split
    · rfl
    · split
      · rfl
      · rfl

theorem visibleHit_shift (final : Bool) (index n : Nat) (b : Bytes) :
    visibleHit patterns final (index + n) b = (visibleHit patterns final index b).shift n := by
  induction b generalizing index with
  | nil => rfl
  | cons x b ih =>
    rw [visibleHit, visibleHit, patternHit_shift]
    cases patternHit final index (x :: b) patterns with
    | some hit => rfl
    | none =>
      simp only [Option.map_none]
      split
      · split
        · rfl
        · rfl
      · rw [Nat.add_right_comm, ih]

theorem visibleHit_ne_hold (index : Nat) (b : Bytes) (start : Nat) :
    visibleHit patterns true index b ≠ .hold start := by
  induction b generalizing index with
  | nil => exact fun h => nomatch h
  | cons x b ih =>
    intro h
    rw [visibleHit] at h
    cases hpattern : patternHit true index (x :: b) patterns with
    | some hit =>
      simp only [hpattern] at h
      rcases patternHit_eq_some hpattern with ⟨p, -, rfl, -⟩ | ⟨p, -, -, hfinal, -⟩
      · cases h
      · cases hfinal
    | none =>
      simp only [hpattern] at h
      split at h
      · cases h
      · exact ih _ h

/-- An opener that was neither found nor begun is not found with more bytes either. -/
theorem patternHit_append_none (h : patternHit false index b patterns = none) (index' : Nat)
    (rest : Bytes) : patternHit true index' (b ++ rest) patterns = none := by
  induction patterns with
  | nil => rfl
  | cons p patterns ih =>
    rw [patternHit] at h
    split at h
    next => cases h
    next hopen =>
      split at h
      next => cases h
      next hhold =>
        rw [patternHit, ih h]
        rw [List.isPrefixOf_iff_prefix] at hopen
        simp only [Bool.not_false, Bool.true_and, Bool.and_eq_true, decide_eq_true_eq,
          List.isPrefixOf_iff_prefix] at hhold
        rw [if_neg]
        · rfl
        rw [List.isPrefixOf_iff_prefix]
        intro hwhole
        rcases List.prefix_or_prefix_of_prefix hwhole (List.prefix_append b rest) with hb | hb
        · exact hopen hb
        · rcases Nat.lt_or_ge b.length p.opener.length with hlt | hge
          · exact hhold ⟨hlt, hb⟩
          · exact hopen (hb.eq_of_length_le hge ▸ List.prefix_rfl)

theorem patternHit_append_tag (h : patternHit false index b patterns = some (.tag start p))
    (rest : Bytes) : patternHit true index (b ++ rest) patterns = some (.tag start p) := by
  induction patterns with
  | nil => cases h
  | cons q patterns ih =>
    rw [patternHit] at h
    split at h
    next hopen =>
      rw [patternHit, if_pos, h]
      rw [List.isPrefixOf_iff_prefix] at hopen ⊢
      exact hopen.trans (List.prefix_append b rest)
    next hopen =>
      split at h
      next => cases h
      next hhold =>
        have hnone : patternHit false index b [q] = none := by
          rw [patternHit, if_neg hopen, if_neg hhold]
          rfl
        have hq := patternHit_append_none hnone index rest
        rw [patternHit] at hq ⊢
        split at hq
        next => cases hq
        next hopen' =>
          rw [if_neg hopen', if_neg (by simp), ih h]

@[simp] theorem run_cons (x : UInt8) (b : Bytes) :
    run (x :: b) = if x = backtick then run b + 1 else 0 := by
  rw [run, List.takeWhile_cons]
  by_cases hx : x = backtick
  · rw [if_pos (decide_eq_true hx), if_pos hx, List.length_cons, run]
  · rw [if_neg (by simpa using hx), if_neg hx]
    rfl

theorem run_append (h : run b ≠ b.length) (rest : Bytes) : run (b ++ rest) = run b := by
  rw [run] at h ⊢
  rw [List.takeWhile_append, if_neg h, run]

/-- Bytes without a hit are passed, whatever follows them. -/
theorem visibleHit_append_none (h : visibleHit patterns false index b = .none) (rest : Bytes) :
    visibleHit patterns true index (b ++ rest) =
      visibleHit patterns true (index + b.length) rest := by
  induction b generalizing index with
  | nil => rfl
  | cons x b ih =>
    rw [visibleHit] at h
    cases hpattern : patternHit false index (x :: b) patterns with
    | some hit =>
      rw [hpattern] at h
      rcases patternHit_eq_some hpattern with ⟨p, -, rfl, -⟩ | ⟨p, -, rfl, -⟩ <;> cases h
    | none =>
      simp only [hpattern] at h
      split at h
      next =>
        split at h
        · cases h
        · cases h
      next hx =>
        rw [List.cons_append, visibleHit, ← List.cons_append,
          patternHit_append_none hpattern index rest]
        simp only [if_neg hx, ih h, List.length_cons]
        rw [Nat.add_right_comm, Nat.add_assoc]

/-- So are the bytes before a place that is held. -/
theorem visibleHit_append_hold (h : visibleHit patterns false index b = .hold start)
    (rest : Bytes) : ∃ b₁ x b₂, b = b₁ ++ x :: b₂ ∧ start = index + b₁.length ∧ x.toNat < 128 ∧
      visibleHit patterns true index (b ++ rest) =
        visibleHit patterns true start (x :: b₂ ++ rest) := by
  induction b generalizing index with
  | nil => cases h
  | cons x b ih =>
    rw [visibleHit] at h
    cases hpattern : patternHit false index (x :: b) patterns with
    | some hit =>
      simp only [hpattern] at h
      rcases patternHit_eq_some hpattern with ⟨p, -, rfl, -⟩ | ⟨p, -, rfl, -, hopen⟩
      · cases h
      · cases h
        have hx : x ∈ p.opener := hopen.subset List.mem_cons_self
        exact ⟨[], x, b, rfl, rfl, (isDelimiter_iff.1 p.delimits_opener).2 x hx, rfl⟩
    | none =>
      simp only [hpattern] at h
      split at h
      next hx =>
        split at h
        next =>
          cases h
          exact ⟨[], x, b, rfl, rfl, hx ▸ (by decide), rfl⟩
        next => cases h
      next hx =>
        obtain ⟨b₁, y, b₂, rfl, rfl, hy, hhit⟩ := ih h
        refine ⟨x :: b₁, y, b₂, rfl, ?_, hy, ?_⟩
        · rw [List.length_cons, Nat.add_right_comm, Nat.add_assoc]
        · rw [List.cons_append, visibleHit, ← List.cons_append,
            patternHit_append_none hpattern index rest]
          simp only [if_neg hx]
          exact hhit

/-- A run of backticks that does not reach the end, or an opener, is found again. -/
theorem visibleHit_append_code (h : visibleHit patterns false index b = .code start ticks)
    (rest : Bytes) : visibleHit patterns true index (b ++ rest) = .code start ticks := by
  induction b generalizing index with
  | nil => cases h
  | cons x b ih =>
    rw [visibleHit] at h
    cases hpattern : patternHit false index (x :: b) patterns with
    | some hit =>
      rw [hpattern] at h
      rcases patternHit_eq_some hpattern with ⟨p, -, rfl, -⟩ | ⟨p, -, rfl, -⟩ <;> cases h
    | none =>
      simp only [hpattern] at h
      rw [List.cons_append, visibleHit, ← List.cons_append,
        patternHit_append_none hpattern index rest]
      split at h
      next hx =>
        split at h
        next => cases h
        next hrun =>
          have hrun' : run (x :: b) ≠ (x :: b).length := by simpa using hrun
          simp only [if_pos hx, run_append hrun' rest]
          exact h
      next hx =>
        simp only [if_neg hx]
        exact ih h

theorem visibleHit_append_tag (h : visibleHit patterns false index b = .tag start p)
    (rest : Bytes) : visibleHit patterns true index (b ++ rest) = .tag start p := by
  induction b generalizing index with
  | nil => cases h
  | cons x b ih =>
    rw [visibleHit] at h
    rw [List.cons_append, visibleHit, ← List.cons_append]
    cases hpattern : patternHit false index (x :: b) patterns with
    | some hit =>
      simp only [hpattern] at h
      cases h
      rw [patternHit_append_tag hpattern rest]
    | none =>
      simp only [hpattern] at h
      rw [patternHit_append_none hpattern index rest]
      split at h
      next =>
        split at h
        · cases h
        · cases h
      next hx =>
        simp only [if_neg hx]
        exact ih h

theorem visibleHit_eq_tag (h : visibleHit patterns final index b = .tag start p) :
    p ∈ patterns ∧ ∃ b₁ b₂, b = b₁ ++ (p.opener ++ b₂) ∧ start = index + b₁.length := by
  induction b generalizing index with
  | nil => cases h
  | cons x b ih =>
    rw [visibleHit] at h
    cases hpattern : patternHit final index (x :: b) patterns with
    | some hit =>
      simp only [hpattern] at h
      rcases patternHit_eq_some hpattern with ⟨q, hq, rfl, b₂, hb⟩ | ⟨q, -, rfl, -⟩
      · cases h
        exact ⟨hq, [], b₂, hb.symm, rfl⟩
      · cases h
    | none =>
      simp only [hpattern] at h
      split at h
      next =>
        split at h
        · cases h
        · cases h
      next =>
        obtain ⟨hp, b₁, b₂, rfl, rfl⟩ := ih h
        refine ⟨hp, x :: b₁, b₂, rfl, ?_⟩
        rw [List.length_cons, Nat.add_right_comm, Nat.add_assoc]

theorem run_eq (b : Bytes) :
    ∃ b', b = List.replicate (run b) backtick ++ b' ∧ ∀ x ∈ b'.head?, x ≠ backtick := by
  induction b with
  | nil => exact ⟨[], rfl, fun x h => nomatch h⟩
  | cons x b ih =>
    obtain ⟨b', hb, hhead⟩ := ih
    rw [run_cons]
    split
    next hx =>
      refine ⟨b', ?_, hhead⟩
      rw [List.replicate_succ, List.cons_append, hx]
      exact congrArg _ hb
    next hx =>
      refine ⟨x :: b, rfl, ?_⟩
      intro y hy
      cases hy
      exact hx

theorem eq_backtick_of_run (h : run b = b.length) : ∀ x ∈ b, x = backtick := by
  induction b with
  | nil => exact fun x hx => nomatch hx
  | cons x b ih =>
    rw [run_cons] at h
    split at h
    next hx =>
      intro y hy
      cases hy with
      | head => exact hx
      | tail _ hy => exact ih (Nat.succ.inj h) y hy
    next => cases h

theorem visibleHit_eq_code (h : visibleHit patterns final index b = .code start ticks) :
    0 < ticks ∧ ∃ b₁ b₂, b = b₁ ++ (List.replicate ticks backtick ++ b₂) ∧
      start = index + b₁.length := by
  induction b generalizing index with
  | nil => cases h
  | cons x b ih =>
    rw [visibleHit] at h
    cases hpattern : patternHit final index (x :: b) patterns with
    | some hit =>
      rw [hpattern] at h
      rcases patternHit_eq_some hpattern with ⟨p, -, rfl, -⟩ | ⟨p, -, rfl, -⟩ <;> cases h
    | none =>
      simp only [hpattern] at h
      split at h
      next hx =>
        split at h
        next => cases h
        next =>
          cases h
          obtain ⟨b', hb, -⟩ := run_eq (x :: b)
          refine ⟨?_, [], b', hb, rfl⟩
          rw [run_cons, if_pos hx]
          exact Nat.succ_pos _
      next =>
        obtain ⟨hp, b₁, b₂, rfl, rfl⟩ := ih h
        refine ⟨hp, x :: b₁, b₂, rfl, ?_⟩
        rw [List.length_cons, Nat.add_right_comm, Nat.add_assoc]

/-! ### Code spans -/

theorem exactBacktickRun_shift (ticks index n skip : Nat) (b : Bytes) :
    exactBacktickRun ticks (index + n) skip b =
      (exactBacktickRun ticks index skip b).map (· + n) := by
  induction b generalizing index skip with
  | nil => simp [exactBacktickRun]
  | cons x b ih =>
    cases skip with
    | succ skip => rw [exactBacktickRun, exactBacktickRun, Nat.add_right_comm, ih]
    | zero =>
      rw [exactBacktickRun, exactBacktickRun, Nat.add_right_comm, ih, ih]
      split
      · split
        · rfl
        · rfl
      · rfl

theorem exactBacktickRun_of_length_le {b : Bytes} (h : b.length ≤ skip) (ticks index : Nat) :
    exactBacktickRun ticks index skip b = none := by
  induction b generalizing index skip with
  | nil => simp [exactBacktickRun]
  | cons x b ih =>
    cases skip with
    | zero => cases h
    | succ skip =>
      rw [exactBacktickRun]
      exact ih (Nat.le_of_succ_le_succ h) _

theorem run_le_length (b : Bytes) : run b ≤ b.length := (List.takeWhile_sublist _).length_le

/-- A run that closes a span before the end of the bytes is found again. -/
theorem exactBacktickRun_append (h : exactBacktickRun ticks index skip b = some stop)
    (hstop : stop + ticks < index + b.length) (rest : Bytes) :
    exactBacktickRun ticks index skip (b ++ rest) = some stop := by
  induction b generalizing index skip with
  | nil => simp [exactBacktickRun] at h
  | cons x b ih =>
    rw [List.length_cons] at hstop
    cases skip with
    | succ skip =>
      rw [exactBacktickRun] at h
      rw [List.cons_append, exactBacktickRun]
      exact ih h (by omega)
    | zero =>
      rw [exactBacktickRun] at h
      rw [List.cons_append, exactBacktickRun, ← List.cons_append]
      split at h
      next hx =>
        rw [if_pos hx]
        have hrun : run (x :: b) ≠ (x :: b).length := by
          intro hrun
          split at h
          next heq =>
            cases h
            rw [List.length_cons] at hrun
            omega
          next =>
            rw [exactBacktickRun_of_length_le (by rw [hrun]; exact Nat.le_refl _)] at h
            cases h
        rw [run_append hrun]
        split at h
        next heq => rw [if_pos heq, h]
        next hne =>
          rw [if_neg hne]
          exact ih h (by omega)
      next hx =>
        rw [if_neg hx]
        exact ih h (by omega)

/-- Bytes that do not end with a backtick and close no span are passed. -/
theorem exactBacktickRun_pass {v u : Bytes} (hlast : ∀ x ∈ v.getLast?, x ≠ backtick)
    (hskip : skip ≤ v.length) (rest : Bytes)
    (hopen : ∀ stop, exactBacktickRun ticks index skip (v ++ u) = some stop →
      index + (v ++ u).length ≤ stop + ticks) :
    exactBacktickRun ticks index skip (v ++ (u ++ rest)) =
      exactBacktickRun ticks (index + v.length) 0 (u ++ rest) := by
  induction v generalizing index skip with
  | nil =>
    cases Nat.le_zero.1 hskip
    rfl
  | cons x v ih =>
    have hlast' : ∀ y ∈ v.getLast?, y ≠ backtick := by
      intro y hy
      apply hlast
      cases v with
      | nil => cases hy
      | cons z v => rwa [List.getLast?_cons_cons]
    rw [List.length_cons] at hskip
    rw [List.length_cons, ← Nat.add_assoc, Nat.add_right_comm]
    have hlength : index + 1 + (v ++ u).length = index + (x :: v ++ u).length := by
      rw [List.cons_append, List.length_cons]
      omega
    cases skip with
    | succ skip =>
      rw [List.cons_append, exactBacktickRun]
      apply ih hlast' (Nat.le_of_succ_le_succ hskip)
      intro stop hstop
      rw [hlength]
      apply hopen
      rwa [List.cons_append, exactBacktickRun]
    | zero =>
      rw [List.cons_append, exactBacktickRun, ← List.cons_append]
      rw [List.cons_append, exactBacktickRun, ← List.cons_append] at hopen
      split
      next hx =>
        rw [if_pos hx] at hopen
        have hrun : run (x :: v) ≠ (x :: v).length := by
          intro hrun
          obtain ⟨y, hy⟩ : ∃ y, (x :: v).getLast? = some y :=
            ⟨_, List.getLast?_eq_some_getLast (List.cons_ne_nil x v)⟩
          exact hlast y hy (eq_backtick_of_run hrun y (List.mem_of_getLast? hy))
        rw [run_append hrun] at hopen
        rw [run_append hrun]
        split
        next heq =>
          rw [if_pos heq] at hopen
          have hle := hopen index rfl
          have hlt := Nat.lt_of_le_of_ne (run_le_length _) hrun
          rw [List.length_append] at hle
          omega
        next hne =>
          rw [if_neg hne] at hopen
          have hle := run_le_length (x :: v)
          rw [List.length_cons] at hle
          apply ih hlast' (by omega)
          intro stop hstop
          rw [hlength]
          exact hopen stop hstop
      next hx =>
        rw [if_neg hx] at hopen
        apply ih hlast' (Nat.zero_le _)
        intro stop hstop
        rw [hlength]
        exact hopen stop hstop

/-- Where a span is closed, its bytes end with a backtick. -/
theorem exactBacktickRun_eq_some (h : exactBacktickRun ticks index skip b = some stop) :
    0 < ticks ∧ ∃ b₁ b₂, b = b₁ ++ (List.replicate ticks backtick ++ b₂) ∧
      stop = index + b₁.length := by
  induction b generalizing index skip with
  | nil => simp [exactBacktickRun] at h
  | cons x b ih =>
    have hgo : ∀ {skip}, exactBacktickRun ticks (index + 1) skip b = some stop →
        0 < ticks ∧ ∃ b₁ b₂, x :: b = b₁ ++ (List.replicate ticks backtick ++ b₂) ∧
          stop = index + b₁.length := by
      intro skip h
      obtain ⟨hp, b₁, b₂, rfl, rfl⟩ := ih h
      refine ⟨hp, x :: b₁, b₂, rfl, ?_⟩
      rw [List.length_cons, Nat.add_right_comm, Nat.add_assoc]
    cases skip with
    | succ skip =>
      rw [exactBacktickRun] at h
      exact hgo h
    | zero =>
      rw [exactBacktickRun] at h
      split at h
      next hx =>
        split at h
        next heq =>
          cases h
          obtain ⟨b', hb, -⟩ := run_eq (x :: b)
          rw [heq] at hb
          refine ⟨?_, [], b', hb, rfl⟩
          rw [← heq, run_cons, if_pos hx]
          exact Nat.succ_pos _
        next => exact hgo h
      next => exact hgo h

/-- The bytes up to those at their end that satisfy `q`, and these. -/
theorem trailing_eq (q : UInt8 → Bool) (b : Bytes) :
    ∃ v u, b = v ++ u ∧ u.length = (b.reverse.takeWhile q).length ∧ (∀ x ∈ u, q x = true) ∧
      ∀ x ∈ v.getLast?, q x = false := by
  refine ⟨(b.reverse.dropWhile q).reverse, (b.reverse.takeWhile q).reverse, ?_, ?_, ?_, ?_⟩
  · rw [← List.reverse_append, List.takeWhile_append_dropWhile, List.reverse_reverse]
  · rw [List.length_reverse]
  · intro x hx
    exact List.all_eq_true.1 List.all_takeWhile x (List.mem_reverse.1 hx)
  · intro x hx
    rw [List.getLast?_reverse] at hx
    have hhead := List.head?_dropWhile_not q b.reverse
    rwa [hx] at hhead

/-! ### Closers of blocks -/

/-- The needle starts nowhere before `n`. -/
def Misses (needle b : Bytes) (n : Nat) : Prop := ∀ j < n, ¬ needle <+: b.drop j

theorem find_of_misses {needle b : Bytes} (h : Misses needle b n) :
    find needle b = (find needle (b.drop n)).map (· + n) := by
  induction n generalizing b with
  | zero => simp
  | succ n ih =>
    cases b with
    | nil => rfl
    | cons x b =>
      have hhere : ¬ needle.isPrefixOf (x :: b) = true := by
        rw [List.isPrefixOf_iff_prefix]
        exact h 0 (Nat.succ_pos n)
      have hrest : Misses needle b n := fun j hj => h (j + 1) (Nat.succ_lt_succ hj)
      rw [find, if_neg hhere, ih hrest, List.drop_succ_cons, Option.map_map]
      rfl

theorem find_eq_some (h : find needle b = some n) :
    ∃ b₁ b₂, b = b₁ ++ (needle ++ b₂) ∧ b₁.length = n ∧ Misses needle b n := by
  induction b generalizing n with
  | nil => cases h
  | cons x b ih =>
    rw [find] at h
    split at h
    next hhere =>
      cases h
      obtain ⟨b₂, hb⟩ := List.isPrefixOf_iff_prefix.1 hhere
      exact ⟨[], b₂, hb.symm, rfl, fun j hj => nomatch hj⟩
    next hhere =>
      obtain ⟨k, hk, rfl⟩ := Option.map_eq_some_iff.1 h
      obtain ⟨b₁, b₂, rfl, rfl, hmiss⟩ := ih hk
      refine ⟨x :: b₁, b₂, rfl, rfl, ?_⟩
      intro j hj
      cases j with
      | zero => rwa [List.isPrefixOf_iff_prefix] at hhere
      | succ j => exact hmiss j (Nat.lt_of_succ_lt_succ hj)

theorem find_append_some (h : find needle b = some n) (rest : Bytes) :
    find needle (b ++ rest) = some n := by
  induction b generalizing n with
  | nil => cases h
  | cons x b ih =>
    rw [find] at h
    rw [List.cons_append, find, ← List.cons_append]
    split at h
    next hhere =>
      rw [if_pos, h]
      rw [List.isPrefixOf_iff_prefix] at hhere ⊢
      exact hhere.trans (List.prefix_append _ _)
    next hhere =>
      obtain ⟨k, hk, rfl⟩ := Option.map_eq_some_iff.1 h
      obtain ⟨b₁, b₂, hb, -⟩ := find_eq_some hk
      rw [if_neg, ih hk]
      · rfl
      rw [List.isPrefixOf_iff_prefix] at hhere ⊢
      intro hwhole
      apply hhere
      apply List.prefix_of_prefix_length_le hwhole (List.prefix_append _ _)
      rw [List.length_cons, hb, List.length_append, List.length_append]
      omega

theorem misses_of_find_none {needle : Bytes} (hne : needle ≠ []) (h : find needle b = none)
    (n : Nat) : Misses needle b n := by
  intro j hj
  induction b generalizing j n with
  | nil =>
    rw [List.drop_nil, List.prefix_nil]
    exact hne
  | cons x b ih =>
    rw [find] at h
    split at h
    next => cases h
    next hhere =>
      cases j with
      | zero => rwa [List.isPrefixOf_iff_prefix] at hhere
      | succ j =>
        rw [List.drop_succ_cons]
        exact ih (Option.map_eq_none_iff.1 h) (j + 1) j (Nat.lt_succ_self j)

theorem find_eq_none_of_misses {needle : Bytes} (h : Misses needle b b.length) :
    find needle b = none := by
  rw [find_of_misses h, List.drop_length]
  rfl

/-- The closer cannot start before the bytes that were searched, less what it may overlap. -/
theorem Misses.of_take {needle b : Bytes} (hne : needle ≠ [])
    (h : find needle (b.take searched) = none) :
    Misses needle b (searched - (needle.length - 1)) := by
  intro j hj hstart
  have hlength := hstart.length_le
  rw [List.length_drop] at hlength
  have hpos := List.length_pos_iff.2 hne
  apply misses_of_find_none hne h (j + 1) j (Nat.lt_succ_self j)
  rw [List.drop_take]
  exact List.prefix_take_iff.2 ⟨hstart, by omega⟩

theorem le_overlapUpTo (h : tag.take k <:+ input) (hk : k ≤ n) :
    k ≤ overlapUpTo input tag n := by
  induction n with
  | zero => exact hk
  | succ n ih =>
    rw [overlapUpTo]
    split
    · exact hk
    next hnot =>
      apply ih
      apply Nat.le_of_lt_succ
      apply Nat.lt_of_le_of_ne hk
      intro heq
      exact hnot (List.isSuffixOf_iff_suffix.2 (heq ▸ h))

/-- A closer that was not found starts, with more bytes, in what it may overlap at the earliest. -/
theorem Misses.of_overlap {needle b : Bytes} (hne : needle ≠ []) (h : find needle b = none)
    (rest : Bytes) : Misses needle (b ++ rest) (b.length - suffixOverlap b needle) := by
  intro j hj hstart
  have hjb : j ≤ b.length := by omega
  rw [List.drop_append_of_le_length hjb] at hstart
  have hdrop : (b.drop j).length = b.length - j := List.length_drop
  rcases List.prefix_or_prefix_of_prefix hstart (List.prefix_append _ _) with hin | hin
  · exact misses_of_find_none hne h (j + 1) j (Nat.lt_succ_self j) hin
  · have hle := hin.length_le
    rcases Nat.lt_or_ge (b.length - j) needle.length with hlt | hge
    · have htake : needle.take (b.length - j) <:+ b := by
        rw [← hdrop, ← List.prefix_iff_eq_take.1 hin]
        exact List.drop_suffix j b
      have hmax := le_overlapUpTo htake (n := min b.length (needle.length - 1)) (by omega)
      rw [suffixOverlap] at hj
      omega
    · have heq := hin.eq_of_length_le (hdrop ▸ hge)
      exact misses_of_find_none hne h (j + 1) j (Nat.lt_succ_self j) (heq ▸ List.prefix_rfl)

/-! ### Closers of fences -/

theorem splitLines_ne_nil (x : UInt8) (b : Bytes) : splitLines (x :: b) ≠ [] := by
  rw [splitLines]
  split
  · exact List.cons_ne_nil _ _
  · split
    · exact List.cons_ne_nil _ _
    · exact List.cons_ne_nil _ _

/-- Bytes that end with a newline are lines of their own. -/
theorem splitLines_append {v : Bytes} (hlast : ∀ x ∈ v.getLast?, x = newline) (rest : Bytes) :
    splitLines (v ++ rest) = splitLines v ++ splitLines rest := by
  induction v with
  | nil => rfl
  | cons x v ih =>
    have hlast' : ∀ y ∈ v.getLast?, y = newline := by
      intro y hy
      apply hlast
      cases v with
      | nil => cases hy
      | cons z v => rwa [List.getLast?_cons_cons]
    rw [List.cons_append, splitLines, splitLines, ih hlast']
    split
    next => rfl
    next hx =>
      cases v with
      | nil => exact absurd (hlast x rfl) hx
      | cons y v =>
        cases hlines : splitLines (y :: v) with
        | nil => exact absurd hlines (splitLines_ne_nil y v)
        | cons line lines => rfl

/-- Every line but the last ends with a newline. -/
theorem splitLines_eq_cons_cons (h : splitLines b = line :: next :: lines) :
    ∃ b', b = line ++ b' ∧ splitLines b' = next :: lines ∧ line ≠ [] ∧
      ∀ x ∈ line.getLast?, x = newline := by
  induction b generalizing line with
  | nil => cases h
  | cons x b ih =>
    rw [splitLines] at h
    split at h
    next hx =>
      obtain ⟨rfl, hlines⟩ := List.cons.inj h
      refine ⟨b, rfl, hlines, List.cons_ne_nil _ _, ?_⟩
      intro y hy
      cases hy
      exact hx
    next =>
      split at h
      next => cases h
      next line' lines' hlines =>
        obtain ⟨rfl, hlines'⟩ := List.cons.inj h
        rw [hlines'] at hlines
        obtain ⟨b', rfl, hb', hne, hlast⟩ := ih hlines
        refine ⟨b', rfl, hb', List.cons_ne_nil _ _, ?_⟩
        intro y hy
        cases line' with
        | nil => exact absurd rfl hne
        | cons z line' =>
          rw [List.getLast?_cons_cons] at hy
          exact hlast y hy

theorem fenceCloseEnd_cons (line : Bytes) (lines : List Bytes) (n : Nat) :
    fenceCloseEnd ticks true n (line :: lines) =
      if closesFence ticks line then some (n + line.length)
      else fenceCloseEnd ticks true (n + line.length) lines := by
  rw [fenceCloseEnd, Bool.not_true, Bool.and_false]
  rfl

/-- A closer in a part of the bytes is there in the whole. -/
theorem fenceCloseEnd_append (h : fenceCloseEnd ticks false n (splitLines b) = some stop)
    (rest : Bytes) : fenceCloseEnd ticks true n (splitLines (b ++ rest)) = some stop := by
  obtain ⟨lines, hlines⟩ : ∃ lines, splitLines b = lines := ⟨_, rfl⟩
  rw [hlines] at h
  induction lines generalizing b n with
  | nil => cases h
  | cons line lines ih =>
    cases lines with
    | nil => cases h
    | cons next lines =>
      obtain ⟨b', rfl, hb', -, hlast⟩ := splitLines_eq_cons_cons hlines
      have hline : splitLines line = [line] := by
        rw [splitLines_append hlast, hb'] at hlines
        have hlines' : splitLines line ++ next :: lines = [line] ++ next :: lines := hlines
        exact List.append_cancel_right hlines'
      rw [fenceCloseEnd] at h
      rw [List.append_assoc, splitLines_append hlast, hline, List.singleton_append,
        fenceCloseEnd_cons]
      split at h
      next hempty => cases hempty
      next =>
        split at h
        next hcloses => rw [if_pos hcloses, h]
        next hcloses =>
          rw [if_neg hcloses]
          exact ih h hb'

theorem fenceCloseEnd_shift (lines : List Bytes) (m n : Nat) :
    fenceCloseEnd ticks true (m + n) lines = (fenceCloseEnd ticks true m lines).map (· + n) := by
  induction lines generalizing m with
  | nil => rfl
  | cons line lines ih =>
    rw [fenceCloseEnd_cons, fenceCloseEnd_cons, Nat.add_right_comm, ih]
    split
    · rfl
    · rfl

theorem flatten_splitLines (b : Bytes) : (splitLines b).flatten = b := by
  induction b with
  | nil => rfl
  | cons x b ih =>
    rw [splitLines]
    split
    · rw [List.flatten_cons, ih]
      rfl
    · split
      next hlines =>
        rw [hlines] at ih
        rw [← ih]
        rfl
      next line lines hlines =>
        rw [hlines] at ih
        rw [← ih]
        rfl

/-- A fence is closed after a newline, or at the end. -/
theorem fenceCloseEnd_eq_some (h : fenceCloseEnd ticks final n (splitLines b) = some stop) :
    ∃ b₁ b₂, b = b₁ ++ b₂ ∧ stop = n + b₁.length ∧ b₁ ≠ [] ∧
      (b₂ = [] ∨ ∀ x ∈ b₁.getLast?, x = newline) := by
  obtain ⟨lines, hlines⟩ : ∃ lines, splitLines b = lines := ⟨_, rfl⟩
  rw [hlines] at h
  induction lines generalizing b n with
  | nil => cases h
  | cons line lines ih =>
    rw [fenceCloseEnd] at h
    split at h
    next => cases h
    next =>
      cases lines with
      | nil =>
        have hflat := flatten_splitLines b
        rw [hlines, List.flatten_singleton] at hflat
        split at h
        next =>
          cases h
          refine ⟨b, [], (List.append_nil b).symm, by rw [hflat], ?_, .inl rfl⟩
          rintro rfl
          cases hlines
        next => cases h
      | cons next lines =>
        obtain ⟨b', rfl, hb', hne, hlast⟩ := splitLines_eq_cons_cons hlines
        split at h
        next =>
          cases h
          exact ⟨line, b', rfl, rfl, hne, .inr hlast⟩
        next =>
          obtain ⟨b₁, b₂, rfl, rfl, hb₁, hend⟩ := ih h hb'
          refine ⟨line ++ b₁, b₂, (List.append_assoc _ _ _).symm, ?_, ?_, ?_⟩
          · rw [List.length_append, Nat.add_assoc]
          · exact fun h => hne (List.append_eq_nil_iff.1 h).1
          · rwa [List.getLast?_append_of_ne_nil _ hb₁]

/-- Lines put before the lines of a fence let it be closed earlier at most. -/
theorem fenceCloseEnd_lines (h : fenceCloseEnd ticks true 0 lines = some stop)
    (before : List Bytes) (n : Nat) :
    ∃ stop', fenceCloseEnd ticks true n (before ++ lines) = some stop' ∧
      stop' ≤ n + before.flatten.length + stop := by
  induction before generalizing n with
  | nil =>
    refine ⟨stop + n, ?_, ?_⟩
    · rw [List.nil_append, ← Nat.zero_add n, fenceCloseEnd_shift, h, Nat.zero_add]
      rfl
    · rw [List.flatten_nil, List.length_nil]
      omega
  | cons line before ih =>
    rw [List.cons_append, fenceCloseEnd_cons]
    split
    next =>
      refine ⟨_, rfl, ?_⟩
      rw [List.flatten_cons, List.length_append]
      omega
    next =>
      obtain ⟨stop', hstop', hle⟩ := ih (n + line.length)
      refine ⟨stop', hstop', ?_⟩
      rw [List.flatten_cons, List.length_append]
      omega

end OhMyPi.Recovery
