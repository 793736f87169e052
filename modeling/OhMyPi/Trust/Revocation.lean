import OhMyPi.Trust.Workspace

/-! Histories of one grant file: operators are asked about workspaces, answer later, grant subtrees,
deny and revoke, in any order. An answer is checked by comparing the decision asked about with the
decision under the lock, so a decision that comes back makes an old answer look current. -/

namespace OhMyPi.Trust

/-- Canonicalization of paths, the same throughout a history. -/
structure Canon where
  canonical : Path → Path
  stable : ∀ p, canonical (canonical p) = canonical p

/-- What an operator who was asked chooses to record. -/
inductive Choice where
  | exact
  | pin (under : Path)

/-- One writer or asker at work; paths are as the operator gave them. -/
inductive Move (Digest : Type) where
  | ask (given : Path) (inputsDigest : Digest)
  | answer (ask : Nat) (choice : Choice) (grantedBy : TrustChannel) (duration : GrantDuration)
  | subtree (given : Path) (grantedBy : TrustChannel) (duration : GrantDuration)
  | deny (given : Path) (grantedBy : TrustChannel) (duration : GrantDuration)
  | revoke (given : Path) (present : Bool) (scope : GrantScope) (revokedBy : TrustChannel)

/-- A move with the rows it met and left, and the answer it recorded. -/
structure Event (Digest : Type) where
  move : Move Digest
  before : List (WorkspaceTrustGrant Digest)
  after : List (WorkspaceTrustGrant Digest)
  recorded : Option (WorkspaceTrustGrant Digest)

structure Ledger (Digest : Type) where
  rows : List (WorkspaceTrustGrant Digest)
  history : List (Event Digest)

variable {Digest : Type} [DecidableEq Digest]

/-- `WorkspaceTrustGrant::exact` and `WorkspaceTrustGrant::pin`. -/
def Choice.grant (c : Canon) (workspace : Path) (inputsDigest : Digest) (grantedBy : TrustChannel)
    (duration : GrantDuration) : Choice → Option (WorkspaceTrustGrant Digest)
  | .exact => some { workspace, binding := .exact inputsDigest, grantedBy, duration }
  | .pin under =>
    if workspace.startsWith (c.canonical under) then
      some { workspace, binding := .pin (c.canonical under) inputsDigest, grantedBy, duration }
    else none

/-- The rows after an answer to the ask with the given number, when it is recorded. -/
def recordAnswer (c : Canon) (home : CanonicalHome) (history : List (Event Digest))
    (rows : List (WorkspaceTrustGrant Digest)) (ask : Nat) (choice : Choice)
    (grantedBy : TrustChannel) (duration : GrantDuration) :
    Option (WorkspaceTrustGrant Digest × List (WorkspaceTrustGrant Digest)) := do
  let asked ← history[ask]?
  match asked.move with
  | .ask given inputsDigest =>
    let workspace := c.canonical given
    let grant ← choice.grant c workspace inputsDigest grantedBy duration
    let answered := evaluate (durable asked.before) workspace inputsDigest home
    let written ← (persistWorkspaceTrust rows grant answered home).toOption
    return (grant, written)
  | _ => none

/-- What a move does to the rows, and the answer it records. -/
def perform (c : Canon) (home : CanonicalHome) (history : List (Event Digest))
    (rows : List (WorkspaceTrustGrant Digest)) :
    Move Digest → List (WorkspaceTrustGrant Digest) × Option (WorkspaceTrustGrant Digest)
  | .ask _ _ => (rows, none)
  | .answer ask choice grantedBy duration =>
    match recordAnswer c home history rows ask choice grantedBy duration with
    | some (grant, written) => (written, some grant)
    | none => (rows, none)
  | .subtree given grantedBy duration =>
    let root := c.canonical given
    if home.subtreeTooBroad root then (rows, none)
    else
      let grant := { workspace := root, binding := .subtree, grantedBy, duration }
      ((persistWorkspaceSubtree rows grant).toOption.getD rows, none)
  | .deny given grantedBy duration =>
    let grant := { workspace := c.canonical given, binding := .deny, grantedBy, duration }
    ((persistWorkspaceDeny rows grant).toOption.getD rows, none)
  | .revoke given present scope revokedBy =>
    let canonical := if present then some (c.canonical given) else none
    ((revokeWorkspaceTrust rows canonical given scope revokedBy).1, none)

namespace Ledger

def start (rows : List (WorkspaceTrustGrant Digest)) : Ledger Digest := { rows, history := [] }

def step (c : Canon) (home : CanonicalHome) (ledger : Ledger Digest) (move : Move Digest) :
    Ledger Digest :=
  let (after, recorded) := perform c home ledger.history ledger.rows move
  { rows := after, history := ledger.history ++ [{ move, before := ledger.rows, after, recorded }] }

def run (c : Canon) (home : CanonicalHome) (ledger : Ledger Digest) (moves : List (Move Digest)) :
    Ledger Digest :=
  moves.foldl (step c home) ledger

end Ledger

namespace Event

variable (c : Canon) (event : Event Digest)

def Asks (workspace : Path) (inputsDigest : Digest) : Prop :=
  ∃ given, event.move = .ask given inputsDigest ∧ c.canonical given = workspace

def Answers (ask : Nat) : Prop :=
  ∃ choice grantedBy duration, event.move = .answer ask choice grantedBy duration

/-- The event is a revocation of the given scope at the path. A workspace that no longer exists is
revoked by the spelling it was recorded under. -/
def Revokes (scope : GrantScope) (path : Path) : Prop :=
  ∃ given present revokedBy, event.move = .revoke given present scope revokedBy ∧
    c.canonical given = path ∧ (present = true ∨ given = path)

/-- A persistent denial of the workspace. -/
def Denies (workspace : Path) : Prop :=
  ∃ given grantedBy, event.move = .deny given grantedBy .persistent ∧ c.canonical given = workspace

/-- The workspace has a decision that does not rest on the subtree at `root`. -/
def HasOwnDecision (workspace root : Path) : Prop :=
  ∃ row ∈ durable event.before, row.workspace = workspace ∧
    ((∃ inputsDigest, row.binding = .exact inputsDigest) ∨
      ∃ under inputsDigest, row.binding = .pin under inputsDigest ∧ under ≠ root)

/-- A revocation or denial that covers the workspace: one of the workspace itself, or one of a
subtree above it. The latter leaves exact rows, and pins of other subtrees, as they are. -/
def Covers (workspace : Path) : Prop :=
  event.Revokes c .exact workspace ∨ event.Denies c workspace ∨
    ∃ root, event.Revokes c .subtree root ∧ workspace.startsWith root = true ∧
      ¬ event.HasOwnDecision workspace root

end Event

/-- The law of revocation over a history. -/
structure Law (c : Canon) (home : CanonicalHome) (history : List (Event Digest)) : Prop where
  /-- No answer is recorded to an ask made before a revocation or denial. -/
  fresh : ∀ {i j k : Nat} {asked revoked answered : Event Digest} {workspace inputsDigest},
    history[i]? = some asked → history[j]? = some revoked → history[k]? = some answered →
      i < j → j < k → asked.Asks c workspace inputsDigest → revoked.Covers c workspace →
        answered.Answers i → answered.recorded = none
  /-- No pin is recorded for a denied workspace. -/
  denied : ∀ {event row under inputsDigest}, event ∈ history → event.recorded = some row →
    row.binding = .pin under inputsDigest →
      ∀ other ∈ durable event.before, other.workspace = row.workspace → other.binding ≠ .deny
  /-- A pin that is there after its subtree was revoked has been recorded since. -/
  pins : ∀ {j k : Nat} {revoked event : Event Digest} {root row inputsDigest},
    history[j]? = some revoked → revoked.Revokes c .subtree root → history[k]? = some event → j ≤ k →
      row ∈ event.after → row.binding = .pin root inputsDigest →
        ∃ m answered, j < m ∧ m ≤ k ∧ history[m]? = some answered ∧ answered.recorded = some row
  /-- A workspace trusted after it was revoked has been asked about and answered for since. -/
  stays : ∀ {j k : Nat} {revoked event : Event Digest} {workspace inputsDigest duration},
    history[j]? = some revoked → revoked.Covers c workspace → history[k]? = some event → j ≤ k →
      evaluate (durable event.after) workspace inputsDigest home = .trusted duration →
        ∃ i m asked answered inputsDigest', j < i ∧ i < m ∧ m ≤ k ∧ history[i]? = some asked ∧
          asked.Asks c workspace inputsDigest' ∧ history[m]? = some answered ∧ answered.Answers i ∧
            answered.recorded ≠ none

/-- No decision comes back: when an ask made before a covering revocation is answered after it, the
decision is another than the one asked about. -/
def NeverBack (c : Canon) (home : CanonicalHome) (history : List (Event Digest)) : Prop :=
  ∀ {i j k : Nat} {asked revoked answered : Event Digest} {workspace inputsDigest},
    history[i]? = some asked → history[j]? = some revoked → history[k]? = some answered →
      i < j → j < k → asked.Asks c workspace inputsDigest → revoked.Covers c workspace →
        answered.Answers i →
          evaluate (durable answered.before) workspace inputsDigest home ≠
            evaluate (durable asked.before) workspace inputsDigest home

/-! ### What one move does -/

variable {c : Canon} {home : CanonicalHome} {history : List (Event Digest)}
  {rows written : List (WorkspaceTrustGrant Digest)} {row grant : WorkspaceTrustGrant Digest}

theorem mem_of_mem_durable (h : row ∈ durable rows) :
    row ∈ rows := (List.mem_filter.1 h).1

theorem persistWorkspaceTrust_eq_ok
    (h : persistWorkspaceTrust rows grant answered home = .ok written) :
    grant.checkAnswer (durable rows) answered home = .ok () ∧ ∀ row ∈ written,
      row ∈ durable rows ∨ row = grant := by
  rw [persistWorkspaceTrust] at h
  split at h
  · cases h
  · cases hcheck : grant.checkAnswer (durable rows) answered home with
    | error refusal =>
      simp only [hcheck] at h
      cases h
    | ok _ =>
      simp only [hcheck] at h
      cases h
      refine ⟨rfl, fun row hrow => ?_⟩
      rcases List.mem_append.1 (mem_of_mem_durable hrow) with hold | hnew
      · exact .inl (List.mem_filter.1 hold).1
      · exact .inr (List.mem_singleton.1 hnew)

/-- The decision asked about is still the one that holds. -/
theorem checkAnswer_eq_ok
    (h : grant.checkAnswer rows answered home = .ok ()) :
    (∃ inputsDigest, grant.binding = .exact inputsDigest ∧
        evaluate rows grant.workspace inputsDigest home = answered) ∨
      ∃ under inputsDigest, grant.binding = .pin under inputsDigest ∧
        evaluate rows grant.workspace inputsDigest home = answered ∧
          ∀ row ∈ rows, row.workspace = grant.workspace → row.binding ≠ .deny := by
  have hcurrent : ∀ {inputsDigest : Digest},
      checkCurrent rows grant.workspace inputsDigest answered home = .ok () →
        evaluate rows grant.workspace inputsDigest home = answered := by
    intro inputsDigest hcheck
    rw [checkCurrent] at hcheck
    split at hcheck
    next heq => exact heq
    next => cases hcheck
  rw [WorkspaceTrustGrant.checkAnswer] at h
  split at h
  next inputsDigest hbinding => exact .inl ⟨inputsDigest, hbinding, hcurrent h⟩
  next under inputsDigest hbinding =>
    split at h
    · cases h
    next hdenied =>
      split at h
      · cases h
      · refine .inr ⟨under, inputsDigest, hbinding, hcurrent h, fun row hrow hworkspace hdeny => ?_⟩
        exact hdenied (List.any_eq_true.2 ⟨row, hrow, by simp [hworkspace, hdeny]⟩)
  next => cases h
  next => cases h

/-- What is known of an answer that was recorded. -/
structure Answered (c : Canon) (home : CanonicalHome) (history : List (Event Digest))
    (rows : List (WorkspaceTrustGrant Digest)) (ask : Nat) (grant : WorkspaceTrustGrant Digest) :
    Prop where
  asked : ∃ event inputsDigest, history[ask]? = some event ∧ event.Asks c grant.workspace inputsDigest ∧
    evaluate (durable rows) grant.workspace inputsDigest home =
      evaluate (durable event.before) grant.workspace inputsDigest home
  spares : ∀ under inputsDigest, grant.binding = .pin under inputsDigest →
    ∀ row ∈ durable rows, row.workspace = grant.workspace → row.binding ≠ .deny
  canonical : c.canonical grant.workspace = grant.workspace ∧
    ∀ under inputsDigest, grant.binding = .pin under inputsDigest → c.canonical under = under

theorem grant_eq_some {choice : Choice}
    (h : choice.grant c workspace inputsDigest grantedBy duration = some grant) :
    grant.workspace = workspace ∧ (grant.binding = .exact inputsDigest ∨
      ∃ under, grant.binding = .pin (c.canonical under) inputsDigest) := by
  cases choice with
  | exact =>
    cases h
    exact ⟨rfl, .inl rfl⟩
  | pin under =>
    rw [Choice.grant] at h
    split at h
    · cases h
      exact ⟨rfl, .inr ⟨under, rfl⟩⟩
    · cases h

theorem recordAnswer_eq_some
    (h : recordAnswer c home history rows ask choice grantedBy duration = some (grant, written)) :
    Answered c home history rows ask grant ∧ ∀ row ∈ written, row ∈ durable rows ∨ row = grant := by
  rw [recordAnswer] at h
  obtain ⟨event, hevent, h⟩ := Option.bind_eq_some_iff.1 h
  split at h
  next given inputsDigest hmove =>
    obtain ⟨grant', hgrant, h⟩ := Option.bind_eq_some_iff.1 h
    obtain ⟨written', hwritten, h⟩ := Option.bind_eq_some_iff.1 h
    cases h
    have hpersist : persistWorkspaceTrust rows grant
        (evaluate (durable event.before) (c.canonical given) inputsDigest home) home =
          .ok written := by
      cases hresult : persistWorkspaceTrust rows grant
          (evaluate (durable event.before) (c.canonical given) inputsDigest home) home with
      | error e =>
        rw [hresult] at hwritten
        cases hwritten
      | ok rows' =>
        rw [hresult] at hwritten
        cases hwritten
        rfl
    obtain ⟨hcheck, hmem⟩ := persistWorkspaceTrust_eq_ok hpersist
    obtain ⟨hworkspace, hbinding⟩ := grant_eq_some hgrant
    refine ⟨⟨⟨event, inputsDigest, hevent, ⟨given, hmove, hworkspace.symm⟩, ?_⟩, ?_, ?_, ?_⟩, hmem⟩
    · rcases checkAnswer_eq_ok hcheck with
        ⟨digest, hexact, heval⟩ | ⟨under, digest, hpin, heval, -⟩
      · rcases hbinding with hb | ⟨under, hb⟩
        · cases hb.symm.trans hexact
          rw [heval, hworkspace]
        · cases hb.symm.trans hexact
      · rcases hbinding with hb | ⟨under', hb⟩
        · cases hb.symm.trans hpin
        · cases hb.symm.trans hpin
          rw [heval, hworkspace]
    · intro under digest hpin
      rcases checkAnswer_eq_ok hcheck with
        ⟨digest', hexact, -⟩ | ⟨-, -, -, -, hspares⟩
      · cases hpin.symm.trans hexact
      · exact hspares
    · rw [hworkspace]
      exact c.stable given
    · intro under digest hpin
      rcases hbinding with hb | ⟨under', hb⟩
      · cases hb.symm.trans hpin
      · cases hb.symm.trans hpin
        exact c.stable under'
  next => cases h

/-- Only answers record answers. -/
theorem perform_recorded {move : Move Digest}
    (h : (perform c home history rows move).2 = some grant) :
    ∃ ask choice grantedBy duration, move = .answer ask choice grantedBy duration ∧
      Answered c home history rows ask grant := by
  cases move with
  | answer ask choice grantedBy duration =>
    refine ⟨ask, choice, grantedBy, duration, rfl, ?_⟩
    cases hrecord : recordAnswer c home history rows ask choice grantedBy duration with
    | none =>
      rw [perform, hrecord] at h
      cases h
    | some result =>
      rw [perform, hrecord] at h
      cases h
      exact (recordAnswer_eq_some hrecord).1
  | ask given inputsDigest => cases h
  | subtree given grantedBy duration =>
    rw [perform] at h
    split at h <;> cases h
  | deny given grantedBy duration => cases h
  | revoke given present scope revokedBy => cases h

/-- Rows hold canonical paths. -/
structure CanonicalRow (c : Canon) (row : WorkspaceTrustGrant Digest) : Prop where
  workspace : c.canonical row.workspace = row.workspace
  under : ∀ under inputsDigest, row.binding = .pin under inputsDigest → c.canonical under = under

theorem names_eq_true : names rows spelling = true ↔
    ∃ row ∈ rows, row.workspace = spelling ∨ ∃ inputsDigest, row.binding = .pin spelling inputsDigest := by
  rw [names, List.any_eq_true]
  apply exists_congr
  intro row
  apply and_congr_right
  intro _
  cases row.binding <;> simp

theorem canonical_of_names (hrows : ∀ row ∈ rows, CanonicalRow c row)
    (h : names rows spelling = true) : c.canonical spelling = spelling := by
  obtain ⟨row, hrow, rfl | ⟨inputsDigest, hpin⟩⟩ := names_eq_true.1 h
  · exact (hrows row hrow).workspace
  · exact (hrows row hrow).under _ _ hpin

theorem revokedSpelling_eq_some (hrows : ∀ row ∈ rows, CanonicalRow c row)
    (h : revokedSpelling rows (if present = true then some (c.canonical given) else none) given =
      some workspace) : workspace = c.canonical given := by
  rw [revokedSpelling] at h
  rcases Option.or_eq_some_iff.1 h with hfound | ⟨-, hcanonical⟩
  · have hmem := List.mem_of_find?_eq_some hfound
    rcases List.mem_append.1 hmem with hmem | hmem
    · split at hmem
      · exact List.mem_singleton.1 hmem
      · cases hmem
    · rw [List.mem_singleton.1 hmem] at hfound ⊢
      exact (canonical_of_names hrows (List.find?_some hfound)).symm
  · split at hcanonical
    · exact (Option.some.inj hcanonical).symm
    · cases hcanonical

/-- A workspace that exists, or is given as it was recorded, is found if any row names it. -/
theorem names_of_revokedSpelling_eq_none
    (hknown : present = true ∨ given = c.canonical given)
    (h : revokedSpelling rows (if present = true then some (c.canonical given) else none) given =
      none) : names rows (c.canonical given) = false := by
  rw [revokedSpelling, Option.or_eq_none_iff, List.find?_eq_none] at h
  rcases hknown with hpresent | hgiven
  · rw [if_pos hpresent] at h
    cases h.2
  · rw [← hgiven]
    simpa using h.1 given (List.mem_append_right _ (List.mem_singleton_self _))

theorem mem_revokeExact (h : row ∈ revokeExact rows workspace revokedBy) :
    (row ∈ rows ∧ (row.workspace = workspace → row.binding = .subtree ∨ row.binding = .deny)) ∨
      (row.workspace = workspace ∧ row.binding = .deny) := by
  have hkept : ∀ {row}, row ∈ withoutDecision rows workspace →
      row ∈ rows ∧ (row.workspace = workspace → row.binding = .subtree ∨ row.binding = .deny) := by
    intro row hrow
    obtain ⟨hmem, hstays⟩ := List.mem_filter.1 hrow
    refine ⟨hmem, fun hworkspace => ?_⟩
    cases hbinding : row.binding <;> simp [hbinding, hworkspace] at hstays ⊢
  rw [revokeExact] at h
  split at h
  · rcases List.mem_append.1 h with hold | hnew
    · exact .inl (hkept hold)
    · cases List.mem_singleton.1 hnew
      exact .inr ⟨rfl, rfl⟩
  · exact .inl (hkept h)

theorem mem_revokeSubtree (h : row ∈ revokeSubtree rows root) :
    row ∈ rows ∧ ∀ inputsDigest, row.binding ≠ .pin root inputsDigest := by
  obtain ⟨hmem, hstays⟩ := List.mem_filter.1 h
  refine ⟨hmem, fun inputsDigest hpin => ?_⟩
  simp [hpin] at hstays

/-- What a move can leave: rows that were there, the answer it records, and rows that trust nothing
by themselves. -/
theorem mem_perform {move : Move Digest} (hrows : ∀ row ∈ rows, CanonicalRow c row)
    (h : row ∈ (perform c home history rows move).1) :
    CanonicalRow c row ∧ (row ∈ rows ∨ (perform c home history rows move).2 = some row ∨
      row.binding = .subtree ∨ row.binding = .deny) := by
  have hold : ∀ {row}, row ∈ durable rows → CanonicalRow c row ∧ row ∈ rows := fun hrow =>
    ⟨hrows _ (mem_of_mem_durable hrow), mem_of_mem_durable hrow⟩
  cases move with
  | ask given inputsDigest => exact ⟨hrows row h, .inl h⟩
  | answer ask choice grantedBy duration =>
    cases hrecord : recordAnswer c home history rows ask choice grantedBy duration with
    | none =>
      rw [perform, hrecord] at h
      exact ⟨hrows row h, .inl h⟩
    | some result =>
      obtain ⟨grant, written⟩ := result
      rw [perform, hrecord] at h ⊢
      obtain ⟨hanswered, hmem⟩ := recordAnswer_eq_some hrecord
      rcases hmem row h with hrow | rfl
      · exact ⟨(hold hrow).1, .inl (hold hrow).2⟩
      · exact ⟨⟨hanswered.canonical.1, hanswered.canonical.2⟩, .inr (.inl rfl)⟩
  | subtree given grantedBy duration =>
    rw [perform] at h
    split at h
    · exact ⟨hrows row h, .inl h⟩
    · dsimp only at h
      rw [persistWorkspaceSubtree] at h
      split at h
      · exact ⟨hrows row h, .inl h⟩
      · rw [if_neg (by simp)] at h
        rcases List.mem_append.1 (mem_of_mem_durable h) with hkept | hnew
        · have hrow := hold (List.mem_filter.1 hkept).1
          exact ⟨hrow.1, .inl hrow.2⟩
        · cases List.mem_singleton.1 hnew
          exact ⟨⟨c.stable given, fun _ _ hpin => by cases hpin⟩, .inr (.inr (.inl rfl))⟩
  | deny given grantedBy duration =>
    rw [perform, persistWorkspaceDeny] at h
    split at h
    · exact ⟨hrows row h, .inl h⟩
    · rw [if_neg (by simp)] at h
      rcases List.mem_append.1 (mem_of_mem_durable h) with hkept | hnew
      · have hrow := hold (List.mem_filter.1 hkept).1
        exact ⟨hrow.1, .inl hrow.2⟩
      · cases List.mem_singleton.1 hnew
        exact ⟨⟨c.stable given, fun _ _ hpin => by cases hpin⟩, .inr (.inr (.inr rfl))⟩
  | revoke given present scope revokedBy =>
    rw [perform, revokeWorkspaceTrust] at h
    split at h
    · exact ⟨(hold h).1, .inl (hold h).2⟩
    next workspace hspelling =>
      have hworkspace := revokedSpelling_eq_some (fun row hrow => (hold hrow).1) hspelling
      split at h
      · rcases mem_revokeExact (mem_of_mem_durable h) with ⟨hmem, -⟩ | ⟨hnew, hdeny⟩
        · exact ⟨(hold hmem).1, .inl (hold hmem).2⟩
        · refine ⟨⟨?_, fun _ _ hpin => ?_⟩, .inr (.inr (.inr hdeny))⟩
          · rw [hnew, hworkspace]
            exact c.stable given
          · cases hdeny.symm.trans hpin
      · have hrow := hold (mem_revokeSubtree (mem_of_mem_durable h)).1
        exact ⟨hrow.1, .inl hrow.2⟩

/-- Trusted takes a row of the workspace's own that trusts. -/
theorem exists_of_scanOwn {scanned : List (WorkspaceTrustGrant Digest)}
    (h : scanOwn rows trustKey current home scanned trusted granted = some (some duration, granted')) :
    trusted ≠ none ∨ ∃ row ∈ scanned, row.workspace = trustKey ∧ row.binding ≠ .subtree ∧
      row.binding ≠ .deny := by
  induction scanned generalizing trusted granted with
  | nil =>
    cases h
    exact .inl (by simp)
  | cons row rest ih =>
    rw [scanOwn] at h
    have hlater : ∀ {trusted granted},
        scanOwn rows trustKey current home rest trusted granted = some (some duration, granted') →
          trusted ≠ none ∨ ∃ row' ∈ row :: rest, row'.workspace = trustKey ∧
            row'.binding ≠ .subtree ∧ row'.binding ≠ .deny := by
      intro trusted granted hrest
      refine (ih hrest).imp_right fun ⟨row', hmem, hrow'⟩ => ?_
      exact ⟨row', List.mem_cons_of_mem _ hmem, hrow'⟩
    split at h
    · exact hlater h
    next hworkspace =>
      split at h
      · cases h
      next hdeny =>
        split at h
        · exact hlater h
        next digest hdigest =>
          refine .inr ⟨row, List.mem_cons_self, of_not_not hworkspace, fun hsubtree => ?_, hdeny⟩
          rw [hsubtree] at hdigest
          cases hdigest

theorem exists_of_evaluate_eq_trusted
    (h : evaluate rows trustKey current home = .trusted duration) :
    ∃ row ∈ rows, row.workspace = trustKey ∧ row.binding ≠ .subtree ∧ row.binding ≠ .deny := by
  rw [evaluate] at h
  split at h
  · cases h
  next hscan =>
    cases h
    rcases exists_of_scanOwn hscan with hnone | hexists
    · exact absurd rfl hnone
    · exact hexists
  · cases h
  · dsimp only at h
    split at h <;> cases h

/-! ### What a covering revocation leaves -/

/-- No row of the workspace's own trusts it. -/
def Bare (rows : List (WorkspaceTrustGrant Digest)) (workspace : Path) : Prop :=
  ∀ row ∈ rows, row.workspace = workspace → row.binding = .subtree ∨ row.binding = .deny

theorem bare_of_names (h : names (durable rows) workspace = false) : Bare (durable rows) workspace := by
  intro row hrow hworkspace
  rw [names_eq_true.2 ⟨row, hrow, .inl hworkspace⟩] at h
  cases h

theorem Event.Revokes.exact {event : Event Digest} (hrows : ∀ row ∈ event.before, CanonicalRow c row)
    (hafter : event.after = (perform c home history event.before event.move).1)
    (h : event.Revokes c .exact workspace) : Bare event.after workspace := by
  obtain ⟨given, present, revokedBy, hmove, rfl, hknown⟩ := h
  rw [hafter, hmove, perform, revokeWorkspaceTrust]
  split
  next hnone => exact bare_of_names (names_of_revokedSpelling_eq_none hknown hnone)
  next workspace hspelling =>
    cases revokedSpelling_eq_some (fun row hrow => hrows row (mem_of_mem_durable hrow)) hspelling
    intro row hrow hworkspace
    rcases mem_revokeExact (mem_of_mem_durable hrow) with ⟨-, hleft⟩ | ⟨-, hdeny⟩
    · exact hleft hworkspace
    · exact .inr hdeny

theorem Event.Denies.bare {event : Event Digest}
    (hafter : event.after = (perform c home history event.before event.move).1)
    (h : event.Denies c workspace) : Bare event.after workspace := by
  obtain ⟨given, grantedBy, hmove, rfl⟩ := h
  rw [hafter, hmove, perform, persistWorkspaceDeny, if_neg (by simp), if_neg (by simp)]
  intro row hrow hworkspace
  rcases List.mem_append.1 (mem_of_mem_durable hrow) with hkept | hnew
  · have hslot := (List.mem_filter.1 hkept).2
    cases hbinding : row.binding with
    | subtree => exact .inl rfl
    | deny => exact .inr rfl
    | exact inputsDigest =>
      simp [WorkspaceTrustGrant.sameSlot, hworkspace, hbinding, TrustBinding.slot] at hslot
    | pin under inputsDigest =>
      simp [WorkspaceTrustGrant.sameSlot, hworkspace, hbinding, TrustBinding.slot] at hslot
  · cases List.mem_singleton.1 hnew
    exact .inr rfl

/-- The rows after a subtree was revoked: fewer rows, and no pin of the subtree. -/
theorem Event.Revokes.subtree {event : Event Digest}
    (hrows : ∀ row ∈ event.before, CanonicalRow c row)
    (hafter : event.after = (perform c home history event.before event.move).1)
    (h : event.Revokes c .subtree root) (hrow : row ∈ event.after) :
    row ∈ durable event.before ∧ ∀ inputsDigest, row.binding ≠ .pin root inputsDigest := by
  obtain ⟨given, present, revokedBy, hmove, rfl, hknown⟩ := h
  rw [hafter, hmove, perform, revokeWorkspaceTrust] at hrow
  split at hrow
  next hnone =>
    refine ⟨hrow, fun inputsDigest hpin => ?_⟩
    have hnames := names_of_revokedSpelling_eq_none hknown hnone
    rw [names_eq_true.2 ⟨row, hrow, .inr ⟨inputsDigest, hpin⟩⟩] at hnames
    cases hnames
  next workspace hspelling =>
    cases revokedSpelling_eq_some (fun row hrow => hrows row (mem_of_mem_durable hrow)) hspelling
    exact mem_revokeSubtree (mem_of_mem_durable hrow)

theorem Event.Covers.bare {event : Event Digest} (hrows : ∀ row ∈ event.before, CanonicalRow c row)
    (hafter : event.after = (perform c home history event.before event.move).1)
    (h : event.Covers c workspace) : Bare event.after workspace := by
  rcases h with hexact | hdenies | ⟨root, hsubtree, -, hown⟩
  · exact hexact.exact hrows hafter
  · exact hdenies.bare hafter
  · intro row hrow hworkspace
    obtain ⟨hmem, hpin⟩ := hsubtree.subtree hrows hafter hrow
    cases hbinding : row.binding with
    | subtree => exact .inl rfl
    | deny => exact .inr rfl
    | exact inputsDigest =>
      exact (hown ⟨row, hmem, hworkspace, .inl ⟨inputsDigest, hbinding⟩⟩).elim
    | pin under inputsDigest =>
      refine (hown ⟨row, hmem, hworkspace, .inr ⟨under, inputsDigest, hbinding, ?_⟩⟩).elim
      intro heq
      exact hpin inputsDigest (heq ▸ hbinding)

theorem Event.Covers.not_asks {event : Event Digest} (h : event.Covers c workspace) :
    ¬ event.Asks c workspace' inputsDigest := by
  intro ⟨given, hmove, _⟩
  rcases h with ⟨_, _, _, hrevoke, -⟩ | ⟨_, _, hdeny, -⟩ | ⟨_, ⟨_, _, _, hrevoke, -⟩, -⟩
  · cases hmove.symm.trans hrevoke
  · cases hmove.symm.trans hdeny
  · cases hmove.symm.trans hrevoke

/-! ### Histories -/

/-- Every event of the history was performed on the rows that the one before it left. -/
structure Linked (c : Canon) (home : CanonicalHome) (history : List (Event Digest)) : Prop where
  performed : ∀ {k : Nat} {event}, history[k]? = some event →
    (event.after, event.recorded) = perform c home (history.take k) event.before event.move
  linked : ∀ {k : Nat} {event}, history[k + 1]? = some event →
    ∃ earlier, history[k]? = some earlier ∧ event.before = earlier.after
  canonical : ∀ event ∈ history, ∀ row ∈ event.before, CanonicalRow c row

structure Ledger.Inv (c : Canon) (home : CanonicalHome) (ledger : Ledger Digest) : Prop where
  history : Linked c home ledger.history
  canonical : ∀ row ∈ ledger.rows, CanonicalRow c row
  latest : ∀ {k : Nat} {event}, ledger.history[k]? = some event → k + 1 = ledger.history.length →
    event.after = ledger.rows

private theorem eq_of_getElem?_singleton {a b : Event Digest} (h : [a][i]? = some b) :
    i = 0 ∧ a = b := by
  rw [List.getElem?_singleton] at h
  split at h
  next hzero => exact ⟨hzero, Option.some.inj h⟩
  next => cases h

theorem Ledger.Inv.step {ledger : Ledger Digest} (h : ledger.Inv c home) (move : Move Digest) :
    (ledger.step c home move).Inv c home := by
  have hperform : perform c home ledger.history ledger.rows move =
      ((perform c home ledger.history ledger.rows move).1,
        (perform c home ledger.history ledger.rows move).2) := rfl
  rw [Ledger.step, hperform]
  dsimp only
  refine ⟨⟨?_, ?_, ?_⟩, fun row hrow => (mem_perform h.canonical hrow).1, ?_⟩
  · intro k event hevent
    rw [List.getElem?_append] at hevent
    split at hevent
    next hlt =>
      rw [List.take_append_of_le_length (Nat.le_of_lt hlt)]
      exact h.history.performed hevent
    next hge =>
      obtain ⟨hzero, rfl⟩ := eq_of_getElem?_singleton hevent
      have hk : k = ledger.history.length := by omega
      rw [hk, List.take_left]
  · intro k event hevent
    rw [List.getElem?_append] at hevent
    split at hevent
    next hlt =>
      obtain ⟨earlier, hearlier, hbefore⟩ := h.history.linked hevent
      refine ⟨earlier, ?_, hbefore⟩
      rw [List.getElem?_append_left (by omega)]
      exact hearlier
    next hge =>
      obtain ⟨hzero, rfl⟩ := eq_of_getElem?_singleton hevent
      have hlt : k < ledger.history.length := by omega
      refine ⟨ledger.history[k], ?_, ?_⟩
      · rw [List.getElem?_append_left hlt]
        exact List.getElem?_eq_getElem hlt
      · exact (h.latest (List.getElem?_eq_getElem hlt) (by omega)).symm
  · intro event hevent
    rcases List.mem_append.1 hevent with hold | hnew
    · exact h.history.canonical event hold
    · cases List.mem_singleton.1 hnew
      exact h.canonical
  · intro k event hevent hlength
    rw [List.length_append, List.length_singleton] at hlength
    rw [List.getElem?_append_right (by omega)] at hevent
    obtain ⟨-, rfl⟩ := eq_of_getElem?_singleton hevent
    rfl

theorem Ledger.Inv.run {moves : List (Move Digest)} : ∀ {ledger : Ledger Digest},
    ledger.Inv c home → (ledger.run c home moves).Inv c home := by
  induction moves with
  | nil => exact fun h => h
  | cons move moves ih => exact fun h => ih (h.step move)

theorem Ledger.start_inv (hrows : ∀ row ∈ rows, CanonicalRow c row) :
    (Ledger.start rows).Inv c home := by
  refine ⟨⟨?_, ?_, ?_⟩, hrows, ?_⟩
  · intro k event hevent
    cases hevent
  · intro k event hevent
    cases hevent
  · intro event hevent
    cases hevent
  · intro k event hevent
    cases hevent

namespace Linked

variable {event : Event Digest} {k : Nat}

theorem after_eq (h : Linked c home history) (hevent : history[k]? = some event) :
    event.after = (perform c home (history.take k) event.before event.move).1 :=
  congrArg Prod.fst (h.performed hevent)

theorem recorded_eq (h : Linked c home history) (hevent : history[k]? = some event) :
    event.recorded = (perform c home (history.take k) event.before event.move).2 :=
  congrArg Prod.snd (h.performed hevent)

/-- A recorded answer is one to an ask earlier in the history. -/
theorem recorded (h : Linked c home history) (hevent : history[k]? = some event)
    (hrecorded : event.recorded = some grant) : ∃ i, i < k ∧ event.Answers i ∧
      Answered c home history event.before i grant := by
  obtain ⟨i, choice, grantedBy, duration, hmove, hanswered⟩ :=
    perform_recorded ((h.recorded_eq hevent).symm.trans hrecorded)
  obtain ⟨asked, inputsDigest, hasked, hrest⟩ := hanswered.asked
  have hlt : i < k := by
    have hlength := (List.getElem?_eq_some_iff.1 hasked).1
    exact Nat.lt_of_lt_of_le hlength (List.length_take_le k history)
  rw [List.getElem?_take_of_lt hlt] at hasked
  exact ⟨i, hlt, ⟨choice, grantedBy, duration, hmove⟩,
    ⟨⟨asked, inputsDigest, hasked, hrest⟩, hanswered.spares, hanswered.canonical⟩⟩

theorem mem_after (h : Linked c home history) (hevent : history[k]? = some event)
    (hrow : row ∈ event.after) : row ∈ event.before ∨ event.recorded = some row ∨
      row.binding = .subtree ∨ row.binding = .deny := by
  rw [h.after_eq hevent] at hrow
  rw [h.recorded_eq hevent]
  exact (mem_perform (h.canonical event (List.mem_of_getElem? hevent)) hrow).2

theorem fresh (h : Linked c home history) (hback : NeverBack c home history) {i j k : Nat}
    {asked revoked answered : Event Digest} (hasked : history[i]? = some asked)
    (hrevoked : history[j]? = some revoked) (hanswered : history[k]? = some answered) (hij : i < j)
    (hjk : j < k) (hasks : asked.Asks c workspace inputsDigest) (hcovers : revoked.Covers c workspace)
    (hanswers : answered.Answers i) : answered.recorded = none := by
  cases hrecorded : answered.recorded with
  | none => rfl
  | some grant =>
    obtain ⟨i', -, hanswers', hgrant⟩ := h.recorded hanswered hrecorded
    obtain ⟨_, _, _, hmove⟩ := hanswers
    obtain ⟨_, _, _, hmove'⟩ := hanswers'
    cases hmove.symm.trans hmove'
    obtain ⟨event, digest, hevent, hasks', hsame⟩ := hgrant.asked
    cases hasked.symm.trans hevent
    obtain ⟨given, hmoved, hworkspace⟩ := hasks
    obtain ⟨given', hmoved', hworkspace'⟩ := hasks'
    cases hmoved.symm.trans hmoved'
    rw [← hworkspace', hworkspace] at hsame
    exact (hback hasked hrevoked hanswered hij hjk ⟨given, hmoved, hworkspace⟩ hcovers
      ⟨_, _, _, hmove⟩ hsame).elim

theorem denied (h : Linked c home history) (hevent : event ∈ history)
    (hrecorded : event.recorded = some row) (hpin : row.binding = .pin under inputsDigest) :
    ∀ other ∈ durable event.before, other.workspace = row.workspace → other.binding ≠ .deny := by
  obtain ⟨k, hk⟩ := List.mem_iff_getElem?.1 hevent
  obtain ⟨_, -, -, hanswered⟩ := h.recorded hk hrecorded
  exact hanswered.spares under inputsDigest hpin

/-- By induction on the events since the revocation. -/
theorem pins (h : Linked c home history) {j k : Nat} {revoked event : Event Digest}
    (hrevoked : history[j]? = some revoked) (hrevokes : revoked.Revokes c .subtree root)
    (hevent : history[k]? = some event) (hjk : j ≤ k) (hrow : row ∈ event.after)
    (hpin : row.binding = .pin root inputsDigest) :
    ∃ m answered, j < m ∧ m ≤ k ∧ history[m]? = some answered ∧ answered.recorded = some row := by
  obtain ⟨n, rfl⟩ := Nat.exists_eq_add_of_le hjk
  clear hjk
  induction n generalizing event with
  | zero =>
    cases hrevoked.symm.trans hevent
    have hleft := hrevokes.subtree (h.canonical _ (List.mem_of_getElem? hrevoked))
      (h.after_eq hrevoked) hrow
    exact (hleft.2 inputsDigest hpin).elim
  | succ n ih =>
    rcases h.mem_after hevent hrow with hbefore | hrecorded | hsubtree | hdeny
    · obtain ⟨earlier, hearlier, hlink⟩ := h.linked hevent
      rw [hlink] at hbefore
      obtain ⟨m, answered, hjm, hmk, hrest⟩ := ih hbefore hearlier
      exact ⟨m, answered, hjm, Nat.le_succ_of_le hmk, hrest⟩
    · exact ⟨j + (n + 1), event, by omega, Nat.le_refl _, hevent, hrecorded⟩
    · cases hsubtree.symm.trans hpin
    · cases hdeny.symm.trans hpin

/-- A workspace stays bare after a covering revocation until an answer to a later ask. -/
theorem bare_or_answered (h : Linked c home history) (hback : NeverBack c home history) {j k : Nat}
    {revoked event : Event Digest} (hrevoked : history[j]? = some revoked)
    (hcovers : revoked.Covers c workspace) (hevent : history[k]? = some event) (hjk : j ≤ k) :
    Bare event.after workspace ∨ ∃ i m asked answered inputsDigest, j < i ∧ i < m ∧ m ≤ k ∧
      history[i]? = some asked ∧ asked.Asks c workspace inputsDigest ∧
        history[m]? = some answered ∧ answered.Answers i ∧ answered.recorded ≠ none := by
  obtain ⟨n, rfl⟩ := Nat.exists_eq_add_of_le hjk
  clear hjk
  induction n generalizing event with
  | zero =>
    cases hrevoked.symm.trans hevent
    exact .inl (hcovers.bare (h.canonical _ (List.mem_of_getElem? hrevoked)) (h.after_eq hrevoked))
  | succ n ih =>
    obtain ⟨earlier, hearlier, hlink⟩ := h.linked hevent
    rcases ih hearlier with hbare | ⟨i, m, asked, answered, inputsDigest, hji, him, hmk, hrest⟩
    · cases hrecorded : event.recorded with
      | none =>
        refine .inl fun row hrow hworkspace => ?_
        rcases h.mem_after hevent hrow with hbefore | hnew | hother
        · exact hbare row (hlink ▸ hbefore) hworkspace
        · cases hrecorded.symm.trans hnew
        · exact hother
      | some grant =>
        obtain ⟨i, hik, hanswers, hgrant⟩ := h.recorded hevent hrecorded
        obtain ⟨asked, digest, hasked, hasks, -⟩ := hgrant.asked
        cases (inferInstance : Decidable (grant.workspace = workspace)) with
        | isFalse hne =>
          refine .inl fun row hrow hworkspace => ?_
          rcases h.mem_after hevent hrow with hbefore | hnew | hother
          · exact hbare row (hlink ▸ hbefore) hworkspace
          · cases hrecorded.symm.trans hnew
            exact (hne hworkspace).elim
          · exact hother
        | isTrue heq =>
          subst heq
          rcases Nat.lt_trichotomy i j with hij | rfl | hji
          · have hnone := h.fresh hback hasked hrevoked hevent hij (by omega) hasks hcovers hanswers
            cases hrecorded.symm.trans hnone
          · cases hrevoked.symm.trans hasked
            exact (hcovers.not_asks hasks).elim
          · refine .inr ⟨i, j + (n + 1), asked, event, digest, hji, hik, Nat.le_refl _, hasked, hasks,
              hevent, hanswers, ?_⟩
            rw [hrecorded]
            exact Option.some_ne_none grant
    · exact .inr ⟨i, m, asked, answered, inputsDigest, hji, him, Nat.le_succ_of_le hmk, hrest⟩

end Linked

/-- A revoked workspace stays revoked in every history of a grant file in which no ask from before a
covering revocation is answered when its decision is back. -/
theorem revoked_stays_revoked (c : Canon) (home : CanonicalHome)
    (rows : List (WorkspaceTrustGrant Digest)) (hrows : ∀ row ∈ rows, CanonicalRow c row)
    (moves : List (Move Digest))
    (hback : NeverBack c home ((Ledger.start rows).run c home moves).history) :
    Law c home ((Ledger.start rows).run c home moves).history := by
  have hlinked : Linked c home ((Ledger.start rows).run c home moves).history :=
    (Ledger.start_inv hrows).run.history
  refine ⟨hlinked.fresh hback, hlinked.denied, hlinked.pins, ?_⟩
  intro j k revoked event workspace inputsDigest duration hrevoked hcovers hevent hjk htrusted
  rcases hlinked.bare_or_answered hback hrevoked hcovers hevent hjk with hbare | hanswered
  · obtain ⟨row, hrow, hworkspace, hsubtree, hdeny⟩ := exists_of_evaluate_eq_trusted htrusted
    rcases hbare row (mem_of_mem_durable hrow) hworkspace with h | h
    · exact (hsubtree h).elim
    · exact (hdeny h).elim
  · exact hanswered

/-! A workspace `/t/w`, a subtree `/t` above it and a home `/h`, with inputs of digest 7. -/

def sampleCanon : Canon where
  canonical := id
  stable := fun _ => rfl

def sampleHome : CanonicalHome := .resolved [.rootDir, .normal [104]]

def sampleRoot : Path := [.rootDir, .normal [116]]

def sampleWorkspace : Path := [.rootDir, .normal [116], .normal [119]]

/-- The pin of a workspace under a subtree is asked for, the workspace is revoked, and the answer
comes too late. -/
def lateAnswer : List (Move Nat) :=
  [.subtree sampleRoot .cli .persistent, .ask sampleWorkspace 7,
    .revoke sampleWorkspace true .exact .cli, .answer 1 (.pin sampleRoot) .interactive .persistent]

/-- The same question is put twice. The second answer is recorded and revoked again, which brings the
decision back that the first question was about. -/
def oldAnswer : List (Move Nat) :=
  [.ask sampleWorkspace 7, .ask sampleWorkspace 7, .answer 1 .exact .cli .persistent,
    .revoke sampleWorkspace true .exact .cli, .answer 0 .exact .interactive .persistent]

theorem revoked_stays_revoked_lateAnswer :
    Law sampleCanon sampleHome
      ((Ledger.start []).run sampleCanon sampleHome lateAnswer).history := by
  apply revoked_stays_revoked
  · intro row hrow
    cases hrow
  · intro i j k asked revoked answered workspace inputsDigest hasked _ hanswered _ _ hasks _ hanswers
    obtain ⟨choice, grantedBy, duration, hmove⟩ := hanswers
    obtain ⟨given, hmoved, rfl⟩ := hasks
    have hlt : k < 4 := (List.getElem?_eq_some_iff.1 hanswered).1
    -- the last event is the only answer
    rcases k with _ | _ | _ | _ | k
    · cases hanswered
      cases hmove
    · cases hanswered
      cases hmove
    · cases hanswered
      cases hmove
    · cases hanswered
      cases hmove
      cases hasked
      cases hmoved
      decide +kernel
    · omega

theorem oldAnswer_recorded :
    ¬ Law sampleCanon sampleHome
      ((Ledger.start []).run sampleCanon sampleHome oldAnswer).history := by
  intro h
  have hnone := h.fresh (i := 0) (j := 3) (k := 4) rfl rfl rfl (by decide) (by decide)
    ⟨sampleWorkspace, rfl, rfl⟩ (.inl ⟨sampleWorkspace, true, .cli, rfl, rfl, .inl rfl⟩)
    ⟨.exact, .interactive, .persistent, rfl⟩
  exact absurd hnone (by decide +kernel)

end OhMyPi.Trust
