import OhMyPi.Docserver.Resolution

/-! The file policy of sandboxed shells (`envd/src/exec_sandbox.rs`): how a path is walked and
admitted. A path is the list of its steps below the root: `..` or a name, as `Path::components`
yields them. -/

namespace OhMyPi.ExecSandbox

open PathWalk Relation Docserver

inductive PathAccess where
  | read
  | createNew
  | truncate
  | append
  | readWrite
  | write
  deriving DecidableEq

structure PathDenied where
  path : List Name
  access : PathAccess
  deriving DecidableEq

/-- The system that the shell runs on. -/
inductive HostOs where
  | linux
  | macos
  deriving DecidableEq

/-- `tmp`, `var`, `etc` and `private` as bytes. -/
def tmpName : Name := [116, 109, 112]

def varName : Name := [118, 97, 114]

def etcName : Name := [101, 116, 99]

def privateName : Name := [112, 114, 105, 118, 97, 116, 101]

/-- `/dev/null`. -/
def devNull : List Name := [[100, 101, 118], [110, 117, 108, 108]]

/-- The links at the top of a tree that the system keeps there. -/
def fixedLinks : HostOs → List (Name × List Name)
  | .linux => []
  | .macos =>
    [(tmpName, [privateName, tmpName]), (varName, [privateName, varName]),
      (etcName, [privateName, etcName])]

/-- `RUNTIME_READ_ROOTS`: `/bin`, `/usr/bin`, `/usr/lib`, `/lib` and on macOS `/System`. -/
def runtimeReadRoots (os : HostOs) : List (List Name) :=
  let system : List (List Name) :=
    match os with
    | .linux => []
    | .macos => [[[83, 121, 115, 116, 101, 109]]]
  [[98, 105, 110]] :: [[117, 115, 114], [98, 105, 110]] :: [[117, 115, 114], [108, 105, 98]] ::
    [[108, 105, 98]] :: system

structure FilePolicy where
  writable : List (List Name)
  writeDenied : List (List Name)
  readable : List (List Name)
  readDenied : List (List Name)
  readRestricted : Bool
  readAmendment : Option (List Name)
  writeAmendment : Option (List Name)

/-- `path.starts_with(root)`. -/
def startsWith (path root : List Name) : Bool := root.isPrefixOf path

inductive WalkError where
  | invalidInput
  | escapesRoot
  | tooManyLinks
  | io (source : ErrorKind)
  deriving DecidableEq

/-- `std::path::absolute`. -/
def absolute (cwd : List Name) (path : List UInt8) : Except WalkError (List Name) :=
  if path = [] then .error .invalidInput
  else .ok (if isAbsolute path then strides path else cwd ++ strides path)

def systemLinkTargets (os : HostOs) : List Name → List Name
  | [] => []
  | name :: rest =>
    match (fixedLinks os).lookup name with
    | some physical => physical ++ rest
    | none => name :: rest

def normalizeFrom (normalized : List Name) : List Name → Except WalkError (List Name)
  | [] => .ok normalized
  | step :: rest =>
    if step = dotdot then
      if normalized = [] then .error .escapesRoot else normalizeFrom normalized.dropLast rest
    else normalizeFrom (normalized ++ [step]) rest

def normalizeAbsolute (path : List Name) : Except WalkError (List Name) := normalizeFrom [] path

/-- An entry that the walk examined, with whether it is a link that the walk then follows. -/
structure Visit where
  entry : List Name
  isLink : Bool

/-- How one round of the walk ends. -/
inductive Round where
  | arrived (resolved : List Name)
  | redirected (pending : List Name)

/-- The path that is walked next after a link. -/
def redirect (resolved : List Name) (target : Target) (rest : List Name) : List Name :=
  (if isAbsolute target.bytes then strides target.bytes else resolved ++ strides target.bytes) ++ rest

/-- One round of the walk, up to the first link. -/
def walkRound (tree : FsNode) (resolved : List Name) :
    List Name → List Visit × Except WalkError Round
  | [] => ([], .ok (.arrived resolved))
  | step :: rest =>
    if step = dotdot then
      if resolved = [] then ([], .error .escapesRoot) else walkRound tree resolved.dropLast rest
    else
      match symlinkMetadata tree (resolved ++ [step]) with
      | .ok (.link target) =>
        ([⟨resolved ++ [step], true⟩], .ok (.redirected (redirect resolved target rest)))
      | .ok _ | .error .notFound =>
        let (visits, result) := walkRound tree (resolved ++ [step]) rest
        (⟨resolved ++ [step], false⟩ :: visits, result)
      | .error .notADirectory => ([⟨resolved ++ [step], false⟩], .error (.io .notADirectory))

def walkRounds (tree : FsNode) : Nat → List Name → List Visit × Except WalkError (List Name)
  | 0, _ => ([], .error .tooManyLinks)
  | rounds + 1, pending =>
    match walkRound tree [] pending with
    | (visits, .ok (.arrived resolved)) => (visits, normalizeAbsolute resolved)
    | (visits, .ok (.redirected pending)) =>
      let (more, result) := walkRounds tree rounds pending
      (visits ++ more, result)
    | (visits, .error e) => (visits, .error e)

def resolvePhysicalPath (tree : FsNode) (path : List Name) :
    List Visit × Except WalkError (List Name) :=
  walkRounds tree 40 path

/-- Where a request comes from: the system, its tree, and the working directory, which is the place
of a directory. -/
structure Shell where
  os : HostOs
  tree : FsNode
  cwd : List Name
  cwd_plain : ∀ name ∈ cwd, Plain name
  cwd_dir : ∃ d, tree.at? cwd = some d ∧ d.isDir = true

def policyLexicalPath (shell : Shell) (path : List UInt8) : Except WalkError (List Name) := do
  return systemLinkTargets shell.os (← normalizeAbsolute (← absolute shell.cwd path))

def policyPhysicalSpelling (shell : Shell) (path : List UInt8) : Except WalkError (List Name) := do
  return systemLinkTargets shell.os (← absolute shell.cwd path)

/-- The place that the walk of a path ends at. -/
def Shell.walk (shell : Shell) (path : List UInt8) : Except WalkError (List Name) := do
  (resolvePhysicalPath shell.tree (← policyPhysicalSpelling shell path)).2

def isRuntimeBaselinePath (os : HostOs) (path : List Name) : Bool :=
  (runtimeReadRoots os).any (startsWith path)

/-- The absolute spelling that a denial of the request as it came names. -/
def spelled (shell : Shell) (path : List UInt8) : List Name :=
  match absolute shell.cwd path with
  | .ok steps => steps
  | .error _ => []

namespace FilePolicy

variable (policy : FilePolicy)

def readDeniedUnder (path : List Name) : Bool := policy.readDenied.any (startsWith path)

/-- Whether an approved scope holds the path. -/
def amends (scope : Option (List Name)) (path : List Name) : Bool := scope.any (startsWith path)

/-- What is decided once the walk is done. -/
def judgeRead (os : HostOs) (lexical resolved : List Name) (visits : List Visit) :
    Except PathDenied (List Name) :=
  if policy.readRestricted && visits.any (·.isLink) && !isRuntimeBaselinePath os lexical then
    .error ⟨lexical, .read⟩
  else if amends policy.readAmendment resolved then .ok resolved
  else if policy.readDeniedUnder lexical then .error ⟨lexical, .read⟩
  else if resolved = devNull then .ok resolved
  else if policy.readDeniedUnder resolved then .error ⟨resolved, .read⟩
  else
    match visits.find? fun visit => policy.readDeniedUnder visit.entry with
    | some visit => .error ⟨visit.entry, .read⟩
    | none =>
      if policy.readRestricted && !policy.readable.any (startsWith resolved) then
        .error ⟨resolved, .read⟩
      else .ok resolved

def admitRead (shell : Shell) (path : List UInt8) : Except PathDenied (List Name) :=
  match policyLexicalPath shell path, policyPhysicalSpelling shell path with
  | .ok lexical, .ok physical =>
    match resolvePhysicalPath shell.tree physical with
    | (visits, .ok resolved) => policy.judgeRead shell.os lexical resolved visits
    | (_, .error _) => .error ⟨lexical, .read⟩
  | _, _ => .error ⟨spelled shell path, .read⟩

/-- The decision on a write to the place that the walk ended at. -/
def judgeWrite (resolved : List Name) : Except PathDenied Unit :=
  if resolved = devNull then .ok ()
  else if amends policy.writeAmendment resolved then .ok ()
  else if policy.writable.any (startsWith resolved) &&
      !policy.writeDenied.any (fun root => startsWith resolved root || startsWith root resolved) then
    .ok ()
  else .error ⟨resolved, .write⟩

/-- The admitted place, with whether the walk to it followed a link. -/
def admitWrite (shell : Shell) (path : List UInt8) : Except PathDenied (List Name × Bool) :=
  match policyPhysicalSpelling shell path with
  | .error _ => .error ⟨spelled shell path, .write⟩
  | .ok physical =>
    match resolvePhysicalPath shell.tree physical with
    | (_, .error _) => .error ⟨spelled shell path, .write⟩
    | (visits, .ok resolved) =>
      (policy.judgeWrite resolved).map fun _ => (resolved, visits.any (·.isLink))

end FilePolicy

/-! ### The walk and the kernel's -/

section
variable {tree : FsNode}

/-- What a round keeps while the kernel's walk goes on: the steps go up or into a name, and the
resolved names spell a place that is no link. -/
structure Standing (tree : FsNode) (resolved pending : List Name) : Prop where
  steps : ∀ step ∈ pending, step = dotdot ∨ Plain step
  plain : ∀ name ∈ resolved, Plain name
  entry : pending ≠ [] → ∃ d, tree.at? resolved = some d ∧ d.isLink = false

theorem normalizeFrom_plain (hplain : ∀ name ∈ path, Plain name) :
    normalizeFrom front path = .ok (front ++ path) := by
  induction path generalizing front with
  | nil =>
    rw [List.append_nil]
    rfl
  | cons name path ih =>
    rw [normalizeFrom, if_neg (hplain name List.mem_cons_self).ne_dotdot,
      ih fun n hn => hplain n (List.mem_cons_of_mem _ hn), List.append_assoc]
    rfl

/-- A place that is walked again from the root is reached without a link. -/
theorem reaches_again (hplain : ∀ name ∈ resolved, Plain name) (hat : tree.at? resolved = some d)
    (hlink : d.isLink = false) :
    Reaches tree strides true ([], resolved ++ rest) place ↔
      Reaches tree strides true (resolved, rest) place := by
  have hdown : ReflTransGen (Within tree strides true []) ([], resolved ++ rest)
      ([] ++ resolved, rest) := within_descend hplain hat hlink
  exact reaches_iff_of_within hdown

theorem symlinkMetadata_vacant (hat : tree.at? place = some d) (hdir : d.isDir = true)
    (hchild : d.child name = none) : symlinkMetadata tree (place ++ [name]) = .error .notFound := by
  induction place generalizing tree with
  | nil =>
    cases hat
    cases d with
    | dir children =>
      rw [List.nil_append, symlinkMetadata, show children.lookup name = none from hchild]
    | file => cases hdir
    | special => cases hdir
    | link => cases hdir
  | cons next place ih =>
    cases tree with
    | dir children =>
      rw [FsNode.at?, FsNode.child] at hat
      rw [List.cons_append, symlinkMetadata]
      cases hlookup : children.lookup next with
      | none => rfl
      | some e =>
        rw [hlookup] at hat
        exact ih hat
    | file | special | link => cases hat

theorem walkRound_entry (hup : step ≠ dotdot)
    (hmeta : symlinkMetadata tree (resolved ++ [step]) = .ok e) (hlink : e.isLink = false) :
    (walkRound tree resolved (step :: rest)).2 = (walkRound tree (resolved ++ [step]) rest).2 := by
  rw [walkRound, if_neg hup, hmeta]
  cases e with
  | link => cases hlink
  | file => rfl
  | special => rfl
  | dir => rfl

theorem walkRound_vacant (hup : step ≠ dotdot)
    (hmeta : symlinkMetadata tree (resolved ++ [step]) = .error .notFound) :
    (walkRound tree resolved (step :: rest)).2 = (walkRound tree (resolved ++ [step]) rest).2 := by
  rw [walkRound, if_neg hup, hmeta]

theorem walkRound_link (hup : step ≠ dotdot)
    (hmeta : symlinkMetadata tree (resolved ++ [step]) = .ok (.link target)) :
    (walkRound tree resolved (step :: rest)).2 = .ok (.redirected (redirect resolved target rest)) := by
  rw [walkRound, if_neg hup, hmeta]

theorem steps_redirect (hplain : ∀ name ∈ resolved, Plain name)
    (hrest : ∀ step ∈ rest, step = dotdot ∨ Plain step) :
    ∀ step ∈ redirect resolved target rest, step = dotdot ∨ Plain step := by
  intro step hmem
  unfold redirect at hmem
  rcases List.mem_append.1 hmem with hmem | hmem
  · split at hmem
    · exact LocalFs.steps_strides _ step hmem
    · rcases List.mem_append.1 hmem with hmem | hmem
      · exact .inr (hplain step hmem)
      · exact LocalFs.steps_strides _ step hmem
  · exact hrest step hmem

/-- A round of a walk that the kernel brings to `place` ends there, or at a link from which the
kernel goes on to `place`, or is refused because it climbs above the root. -/
theorem walkRound_reaches (h : Reaches tree strides true (resolved, pending) place)
    (hs : Standing tree resolved pending) :
    ((walkRound tree resolved pending).2 = .ok (.arrived place) ∧ ∀ name ∈ place, Plain name) ∨
    (∃ next, (walkRound tree resolved pending).2 = .ok (.redirected next) ∧
      Reaches tree strides true ([], next) place ∧ ∀ step ∈ next, step = dotdot ∨ Plain step) ∨
    (walkRound tree resolved pending).2 = .error .escapesRoot := by
  induction pending generalizing resolved with
  | nil =>
    cases reaches_nil.1 h
    exact .inl ⟨rfl, hs.plain⟩
  | cons step rest ih =>
    have hrest : ∀ s ∈ rest, s = dotdot ∨ Plain s := fun s hmem => hs.steps s (.tail _ hmem)
    have hconcat (hplain : Plain step) : ∀ name ∈ resolved ++ [step], Plain name := by
      intro name hname
      rcases List.mem_append.1 hname with hold | hnew
      · exact hs.plain name hold
      · exact List.mem_singleton.1 hnew ▸ hplain
    rcases ReflTransGen.cases_head h with heq | ⟨c, hstep, hwalk⟩
    · cases heq
    · cases hstep with
      | here hhere =>
        rcases hs.steps step List.mem_cons_self with rfl | hplain
        · exact absurd hhere not_here_dotdot
        · exact absurd hhere hplain.not_here
      | up hd hdir =>
        rw [walkRound, if_pos rfl]
        split
        · exact .inr (.inr rfl)
        · next hne =>
          refine ih hwalk ⟨hrest, fun name hname => hs.plain name (List.dropLast_subset _ hname),
            fun _ => ?_⟩
          rw [← List.dropLast_append_getLast hne] at hd
          obtain ⟨parent, hparent, hpdir⟩ := FsNode.isDir_of_at?_append hd
          exact ⟨parent, hparent, FsNode.not_isLink_of_isDir hpdir⟩
      | into hplain hd he hlink =>
        rename_i d e
        have hat : tree.at? (resolved ++ [step]) = some e := by
          rw [FsNode.at?_concat, hd]
          exact he
        rw [walkRound_entry hplain.ne_dotdot (symlinkMetadata_eq_ok.2 hat) hlink]
        exact ih hwalk ⟨hrest, hconcat hplain, fun _ => ⟨_, hat, hlink⟩⟩
      | link hplain hd he hfollow =>
        rename_i d target
        have hat : tree.at? (resolved ++ [step]) = some (.link target) := by
          rw [FsNode.at?_concat, hd]
          exact he
        refine .inr (.inl ⟨_, walkRound_link hplain.ne_dotdot (symlinkMetadata_eq_ok.2 hat), ?_, ?_⟩)
        · unfold redirect
          cases habsolute : isAbsolute target.bytes with
          | true =>
            rw [base, if_pos habsolute] at hwalk
            exact hwalk
          | false =>
            rw [base, if_neg (by rw [habsolute]; exact Bool.false_ne_true)] at hwalk
            rw [if_neg Bool.false_ne_true, List.append_assoc]
            exact (reaches_again hs.plain hd
              (FsNode.not_isLink_of_isDir (FsNode.isDir_of_child he))).2 hwalk
        · exact steps_redirect hs.plain hrest
      | stop _ _ _ hno => cases hno
      | vacant hplain hd hdir he =>
        rw [walkRound_vacant hplain.ne_dotdot (symlinkMetadata_vacant hd hdir he)]
        exact ih hwalk ⟨hrest, hconcat hplain, fun hne => absurd rfl hne⟩

/-- The walk of a path that the kernel brings to `place` judges that place, or is refused for
climbing above the root or for its links. -/
theorem walkRounds_reaches (rounds : Nat) (h : Reaches tree strides true ([], pending) place)
    (hsteps : ∀ step ∈ pending, step = dotdot ∨ Plain step) (hroot : tree.isLink = false) :
    (walkRounds tree rounds pending).2 = .ok place ∨
      (walkRounds tree rounds pending).2 = .error .escapesRoot ∨
      (walkRounds tree rounds pending).2 = .error .tooManyLinks := by
  induction rounds generalizing pending with
  | zero => exact .inr (.inr rfl)
  | succ rounds ih =>
    have hround := walkRound_reaches h
      ⟨hsteps, fun _ hname => absurd hname List.not_mem_nil, fun _ => ⟨tree, rfl, hroot⟩⟩
    rw [walkRounds]
    generalize walkRound tree [] pending = result at hround
    obtain ⟨visits, result⟩ := result
    rcases hround with ⟨rfl, hplain⟩ | ⟨next, rfl, hnext, hsteps⟩ | rfl
    · exact .inl (normalizeFrom_plain hplain)
    · exact ih hnext hsteps
    · exact .inr (.inl rfl)

end

/-- The links that the system keeps at the top of the tree are there. -/
def Shell.KeepsFixedLinks (shell : Shell) : Prop :=
  ∀ name physical, (fixedLinks shell.os).lookup name = some physical →
    ∃ target, shell.tree.child name = some (.link target) ∧ strides target.bytes = physical

theorem Shell.root_not_link (shell : Shell) : shell.tree.isLink = false := by
  obtain ⟨d, hd, hdir⟩ := shell.cwd_dir
  cases hcwd : shell.cwd with
  | nil =>
    rw [hcwd] at hd
    cases hd
    exact FsNode.not_isLink_of_isDir hdir
  | cons name rest =>
    rw [hcwd, ← List.nil_append (name :: rest)] at hd
    obtain ⟨top, htop, htopdir⟩ := FsNode.isDir_of_at?_append hd
    cases htop
    exact FsNode.not_isLink_of_isDir htopdir

/-- The fixed links are followed before the walk as the kernel follows them in it. -/
theorem reaches_systemLinkTargets {shell : Shell} (hfixed : shell.KeepsFixedLinks)
    (hsteps : ∀ step ∈ path, step = dotdot ∨ Plain step)
    (h : Reaches shell.tree strides true ([], path) place) :
    Reaches shell.tree strides true ([], systemLinkTargets shell.os path) place ∧
      ∀ step ∈ systemLinkTargets shell.os path, step = dotdot ∨ Plain step := by
  cases path with
  | nil => exact ⟨h, hsteps⟩
  | cons name rest =>
    rw [systemLinkTargets]
    cases hlookup : (fixedLinks shell.os).lookup name with
    | none => exact ⟨h, hsteps⟩
    | some physical =>
      obtain ⟨target, hchild, rfl⟩ := hfixed name physical hlookup
      have hplain : Plain name := by
        rcases hsteps name List.mem_cons_self with rfl | hplain
        · cases hos : shell.os <;> rw [hos] at hlookup <;> cases hlookup
        · exact hplain
      have hbase : base [] target.bytes = [] := ite_self _
      have hstep : Step shell.tree strides true ([], name :: rest)
          (base [] target.bytes, strides target.bytes ++ rest) :=
        .link hplain rfl hchild (.inl rfl)
      rw [hbase] at hstep
      refine ⟨(reaches_head hstep).1 h, fun step hmem => ?_⟩
      rcases List.mem_append.1 hmem with hmem | hmem
      · exact LocalFs.steps_strides _ step hmem
      · exact hsteps step (List.mem_cons_of_mem _ hmem)

/-- A path that the kernel brings to `place` is judged as that place, unless it is refused. -/
theorem walk_of_names {shell : Shell} (hfixed : shell.KeepsFixedLinks)
    (h : Names shell.tree pieces true shell.cwd path place) :
    shell.walk path = .ok place ∨ shell.walk path = .error .escapesRoot ∨
      shell.walk path = .error .tooManyLinks := by
  obtain ⟨hne, hwalk⟩ := h
  have hwalk : Reaches shell.tree strides true (base shell.cwd path, strides path) place :=
    hwalk.away (.inl rfl)
  have habsolute : ∃ steps, absolute shell.cwd path = .ok steps ∧
      Reaches shell.tree strides true ([], steps) place ∧
      ∀ step ∈ steps, step = dotdot ∨ Plain step := by
    refine ⟨_, if_neg hne, ?_⟩
    unfold base at hwalk
    split at hwalk
    · rw [if_pos ‹_›]
      exact ⟨hwalk, LocalFs.steps_strides path⟩
    · rw [if_neg ‹_›]
      obtain ⟨d, hd, hdir⟩ := shell.cwd_dir
      refine ⟨(reaches_again shell.cwd_plain hd (FsNode.not_isLink_of_isDir hdir)).2 hwalk, ?_⟩
      intro step hmem
      rcases List.mem_append.1 hmem with hmem | hmem
      · exact .inr (shell.cwd_plain step hmem)
      · exact LocalFs.steps_strides path step hmem
  obtain ⟨steps, hsteps, hreach, hplain⟩ := habsolute
  obtain ⟨hreach, hplain⟩ := reaches_systemLinkTargets hfixed hplain hreach
  have hspelling : policyPhysicalSpelling shell path = .ok (systemLinkTargets shell.os steps) := by
    rw [policyPhysicalSpelling, hsteps]
    rfl
  rw [Shell.walk, hspelling]
  exact walkRounds_reaches 40 hreach hplain shell.root_not_link

/-! ### Names of a resolved path -/

section
variable {tree : FsNode}

/-- A round ends at plain names, or goes on with steps that go up or into a name. -/
theorem plain_of_walkRound (hplain : ∀ name ∈ resolved, Plain name)
    (hsteps : ∀ step ∈ pending, step = dotdot ∨ Plain step) :
    (∀ place, (walkRound tree resolved pending).2 = .ok (.arrived place) →
      ∀ name ∈ place, Plain name) ∧
    (∀ next, (walkRound tree resolved pending).2 = .ok (.redirected next) →
      ∀ step ∈ next, step = dotdot ∨ Plain step) := by
  induction pending generalizing resolved with
  | nil =>
    constructor
    · intro place h
      cases h
      exact hplain
    · intro next h
      cases h
  | cons step rest ih =>
    have hrest : ∀ s ∈ rest, s = dotdot ∨ Plain s := fun s hmem => hsteps s (.tail _ hmem)
    rw [walkRound]
    by_cases hup : step = dotdot
    · rw [if_pos hup]
      split
      · exact ⟨fun _ h => (by cases h), fun _ h => (by cases h)⟩
      · exact ih (fun name hname => hplain name (List.dropLast_subset _ hname)) hrest
    · rw [if_neg hup]
      have hconcat : ∀ name ∈ resolved ++ [step], Plain name := by
        intro name hname
        rcases List.mem_append.1 hname with hold | hnew
        · exact hplain name hold
        · exact List.mem_singleton.1 hnew ▸ (hsteps step List.mem_cons_self).resolve_left hup
      cases hmeta : symlinkMetadata tree (resolved ++ [step]) with
      | error source =>
        cases source with
        | notFound => exact ih hconcat hrest
        | notADirectory => exact ⟨fun _ h => (by cases h), fun _ h => (by cases h)⟩
      | ok e =>
        cases e with
        | link target =>
          refine ⟨fun _ h => (by cases h), fun next h => ?_⟩
          cases h
          exact steps_redirect hplain hrest
        | file => exact ih hconcat hrest
        | special => exact ih hconcat hrest
        | dir => exact ih hconcat hrest

theorem plain_of_walkRounds (hsteps : ∀ step ∈ pending, step = dotdot ∨ Plain step)
    (h : (walkRounds tree rounds pending).2 = .ok place) : ∀ name ∈ place, Plain name := by
  induction rounds generalizing pending with
  | zero => cases h
  | succ rounds ih =>
    have hnil : ∀ name ∈ ([] : List Name), Plain name := fun _ hname => absurd hname List.not_mem_nil
    rw [walkRounds] at h
    obtain ⟨harrived, hredirected⟩ := plain_of_walkRound hnil hsteps
    generalize walkRound tree [] pending = result at h harrived hredirected
    obtain ⟨visits, result⟩ := result
    cases result with
    | error e => cases h
    | ok round =>
      cases round with
      | arrived resolved =>
        have hplain := harrived resolved rfl
        cases (normalizeFrom_plain hplain).symm.trans h
        exact hplain
      | redirected next => exact ih (hredirected next rfl) h

end

theorem steps_fixedLinks (h : (fixedLinks os).lookup name = some physical) :
    ∀ step ∈ physical, Plain step := by
  have hplain : ∀ step : Name, step ≠ [] → step ≠ dot → step ≠ dotdot → slash ∉ step → Plain step :=
    fun _ => Plain.mk
  have hall : ∀ entry ∈ fixedLinks os, ∀ step ∈ entry.2, Plain step := by
    cases os with
    | linux => exact fun _ h => absurd h List.not_mem_nil
    | macos =>
      simp only [fixedLinks, List.forall_mem_cons, List.not_mem_nil, false_implies, implies_true,
        and_true]
      refine ⟨⟨?_, ?_⟩, ⟨?_, ?_⟩, ?_, ?_⟩ <;> refine hplain _ ?_ ?_ ?_ ?_ <;> decide
  obtain ⟨before, after, heq, -⟩ := List.lookup_eq_some_iff.1 h
  exact hall (name, physical) (heq ▸ List.mem_append_right _ List.mem_cons_self)

/-- The steps that a walk starts with. -/
theorem steps_policyPhysicalSpelling {shell : Shell}
    (h : policyPhysicalSpelling shell path = .ok physical) :
    ∀ step ∈ physical, step = dotdot ∨ Plain step := by
  obtain ⟨steps, habsolute, h⟩ := Except.bind_eq_ok.1 h
  cases Except.pure_eq_ok.1 h
  have hsteps : ∀ step ∈ steps, step = dotdot ∨ Plain step := by
    unfold absolute at habsolute
    split at habsolute
    · cases habsolute
    · cases habsolute
      split
      · exact LocalFs.steps_strides path
      · intro step hmem
        rcases List.mem_append.1 hmem with hmem | hmem
        · exact .inr (shell.cwd_plain step hmem)
        · exact LocalFs.steps_strides path step hmem
  cases steps with
  | nil => exact hsteps
  | cons name rest =>
    rw [systemLinkTargets]
    cases hlookup : (fixedLinks shell.os).lookup name with
    | none => exact hsteps
    | some physical =>
      intro step hmem
      rcases List.mem_append.1 hmem with hmem | hmem
      · exact .inr (steps_fixedLinks hlookup step hmem)
      · exact hsteps step (List.mem_cons_of_mem _ hmem)

theorem plain_of_walk {shell : Shell} (h : shell.walk path = .ok place) :
    ∀ name ∈ place, Plain name := by
  obtain ⟨physical, hphysical, hresolved⟩ := Except.bind_eq_ok.1 h
  exact plain_of_walkRounds (steps_policyPhysicalSpelling hphysical) hresolved

/-! ### What is admitted -/

namespace FilePolicy

variable {policy : FilePolicy} {shell : Shell}

/-- A place that may be read. -/
def MayRead (policy : FilePolicy) (place : List Name) : Prop :=
  amends policy.readAmendment place = true ∨ place = devNull ∨
    policy.readDeniedUnder place = false ∧
      (policy.readRestricted = true → policy.readable.any (startsWith place) = true)

/-- A place that may be written. -/
def MayWrite (policy : FilePolicy) (place : List Name) : Prop :=
  place = devNull ∨ amends policy.writeAmendment place = true ∨
    policy.writable.any (startsWith place) = true ∧
      ∀ root ∈ policy.writeDenied, ¬ root <+: place ∧ ¬ place <+: root

theorem mayRead_of_judgeRead (h : policy.judgeRead os lexical resolved visits = .ok place) :
    place = resolved ∧ policy.MayRead place := by
  unfold judgeRead at h
  split_ifs at h with _ hamended _ hnull hdenied hreadable
  · cases h
    exact ⟨rfl, .inl hamended⟩
  · cases h
    exact ⟨rfl, .inr (.inl hnull)⟩
  · split at h <;> cases h
  · split at h
    · cases h
    · cases h
      refine ⟨rfl, .inr (.inr ⟨Bool.eq_false_iff.2 hdenied, fun hrestricted => ?_⟩)⟩
      by_contra hout
      exact hreadable (by simp [hrestricted, hout])

theorem mayRead_of_admitRead (h : policy.admitRead shell path = .ok place) :
    policy.MayRead place ∧ shell.walk path = .ok place := by
  unfold admitRead at h
  split at h
  · next lexical physical hlexical hphysical =>
    split at h
    · next visits resolved hresolved =>
      obtain ⟨rfl, hmay⟩ := mayRead_of_judgeRead h
      exact ⟨hmay, Except.bind_eq_ok.2 ⟨physical, hphysical, congrArg Prod.snd hresolved⟩⟩
    · cases h
  · cases h

theorem mayWrite_of_judgeWrite (h : policy.judgeWrite place = .ok u) : policy.MayWrite place := by
  unfold judgeWrite at h
  split_ifs at h with hnull hamended hallowed
  · exact .inl hnull
  · exact .inr (.inl hamended)
  · rw [Bool.and_eq_true] at hallowed
    refine .inr (.inr ⟨hallowed.1, fun root hroot => ?_⟩)
    have hdenied : policy.writeDenied.any
        (fun root => startsWith place root || startsWith root place) = false := by
      simpa using hallowed.2
    have hroot := List.any_eq_false.1 hdenied root hroot
    simpa [startsWith] using hroot

theorem mayWrite_of_admitWrite (h : policy.admitWrite shell path = .ok (place, followed)) :
    policy.MayWrite place ∧ shell.walk path = .ok place := by
  unfold admitWrite at h
  split at h
  · cases h
  · next physical hphysical =>
    split at h
    · cases h
    · next visits resolved hresolved =>
      obtain ⟨_, hjudge, heq⟩ := Except.map_eq_ok.1 h
      cases heq
      exact ⟨mayWrite_of_judgeWrite hjudge,
        Except.bind_eq_ok.2 ⟨physical, hphysical, congrArg Prod.snd hresolved⟩⟩

end FilePolicy

end OhMyPi.ExecSandbox
