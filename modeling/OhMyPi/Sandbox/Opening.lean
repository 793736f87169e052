import OhMyPi.Lib.DirHandles
import OhMyPi.Sandbox.Admission

/-! Opening an admitted path (`FilePolicy::open`, `open_beneath_root`). Admission and opening look
at the file system at different moments, between which other processes may change it: admission at
the tree of a shell, and each system call of the opening at the next of a sequence of disks. -/

namespace OhMyPi.ExecSandbox

open PathWalk DirHandles

/-- What an open returns: an entry that was there, or a file that it created in a directory. -/
inductive Opened where
  | existing (entry : Dirent)
  | created (dir : Inode) (name : Name)

/-- `openat` of a directory on the way. -/
def openDirAt (disk : Disk) (fd : Inode) (name : Name) : Except Errno Inode :=
  if name = dotdot ∨ 0 ∈ name then .error .invalid
  else
    match disk.lookup fd name with
    | some (.dir d) => .ok d
    | some _ => .error .notDirectory
    | none => .error .noEntry

/-- Goes down through the directories on the way, one system call each. -/
def descend (disks : Nat → Disk) : Nat → Inode → List Name → Except Errno (Nat × Inode)
  | t, fd, [] => .ok (t, fd)
  | t, fd, name :: rest =>
    match openDirAt (disks t) fd name with
    | .ok d => descend disks (t + 1) d rest
    | .error e => .error e

/-- `openat` of the last component; without one the directory itself is opened. -/
def openFinal (disk : Disk) (fd : Inode) (access : PathAccess) : Option Name → Except Errno Opened
  | none => if access = .read then .ok (.existing (.dir fd)) else .error .isDirectory
  | some name =>
    if 0 ∈ name then .error .invalid
    else
      match disk.lookup fd name with
      | some (.link _) => .error .loop
      | some (.dir d) => if access = .read then .ok (.existing (.dir d)) else .error .isDirectory
      | some (.file inode) =>
        if access = .createNew then .error .alreadyExists else .ok (.existing (.file inode))
      | none => if access = .read then .error .noEntry else .ok (.created fd name)

def openBeneathRoot (disks : Nat → Disk) (rootPath path : List Name) (access : PathAccess) :
    Except Errno Opened := do
  if startsWith path rootPath = false then
    throw .invalid
  let relative := path.drop rootPath.length
  let fd ← (disks 0).openDir 40 root rootPath
  let (t, fd) ← descend disks 1 fd relative.dropLast
  openFinal (disks t) fd access relative.getLast?

inductive OpenError where
  | denied (denied : PathDenied)
  | notFound

def PathAccess.isRead (access : PathAccess) : Bool := access = .read || access = .readWrite

namespace FilePolicy

variable (policy : FilePolicy)

/-- The read admission of a request that also writes. -/
def admitReadToo (shell : Shell) (path : List UInt8) (access : PathAccess) :
    Except PathDenied (Option (List Name)) :=
  if access.isRead then (policy.admitRead shell path).map some else .ok none

/-- The place that is to be opened. A request to read and write walks the path twice. -/
def admitOpen (readShell writeShell : Shell) (path : List UInt8) (access : PathAccess) :
    Except PathDenied (List Name) :=
  if access = .read then policy.admitRead readShell path
  else do
    let read ← policy.admitReadToo readShell path access
    let (written, followedLink) ← policy.admitWrite writeShell path
    if followedLink = true then
      throw ⟨match policyLexicalPath writeShell path with
        | .ok lexical => lexical
        | .error _ => spelled writeShell path, access⟩
    if read.any (· ≠ written) then
      throw ⟨written, access⟩
    return written

/-- The approved scope, or the directory of an approved file, before the first root. -/
def pickRoot (isFile : List Name → Bool) (amendment : Option (List Name)) (roots : List (List Name))
    (path : List Name) : Option (List Name) :=
  ((amendment.filter (startsWith path)).bind fun scope =>
    if isFile scope then if scope = [] then none else some scope.dropLast else some scope).or
  (roots.find? (startsWith path))

/-- The directory that the opening starts from. `isFile` is what the system says of the approved
scope at that moment. -/
def openRoot (isFile : List Name → Bool) (access : PathAccess) (path : List Name) :
    Option (List Name) :=
  if path = devNull then some []
  else if access.isRead && !policy.readRestricted then some []
  else if access.isRead then pickRoot isFile policy.readAmendment policy.readable path
  else pickRoot isFile policy.writeAmendment policy.writable path

/-- `FilePolicy::open`. -/
def openPath (readShell writeShell : Shell) (isFile : List Name → Bool) (disks : Nat → Disk)
    (path : List UInt8) (access : PathAccess) : Except OpenError Opened :=
  match policy.admitOpen readShell writeShell path access with
  | .error denied => .error (.denied denied)
  | .ok openedPath =>
    match policy.openRoot isFile access openedPath with
    | none => .error (.denied ⟨openedPath, access⟩)
    | some rootPath =>
      match openBeneathRoot disks rootPath openedPath access with
      | .ok opened => .ok opened
      | .error .noEntry => .error .notFound
      | .error _ => .error (.denied ⟨openedPath, access⟩)

end FilePolicy

/-- What was opened stands at the path, which was followed through no link. -/
def Along (disks : Nat → Disk) (path : List Name) : Opened → Prop
  | .existing e => ∃ t, Reached disks t path e
  | .created d name =>
    ∃ t t' front, Reached disks t front (.dir d) ∧ t ≤ t' ∧ (disks t').lookup d name = none ∧
      path = front ++ [name]

section
variable {disks : Nat → Disk}

theorem openDirAt_eq_ok {disk : Disk} (h : openDirAt disk fd name = .ok d) :
    disk.lookup fd name = some (.dir d) := by
  unfold openDirAt at h
  split at h
  · cases h
  · split at h
    · cases h
      assumption
    · cases h
    · cases h

theorem reached_of_descend (hcur : Reached disks t₀ front (.dir fd)) (hle : t₀ ≤ t)
    (h : descend disks t fd names = .ok (t', fd')) :
    ∃ t₁ ≤ t', Reached disks t₁ (front ++ names) (.dir fd') := by
  induction names generalizing t₀ t fd front with
  | nil =>
    cases h
    rw [List.append_nil]
    exact ⟨t₀, hle, hcur⟩
  | cons name rest ih =>
    rw [descend] at h
    cases hopen : openDirAt (disks t) fd name with
    | error e =>
      rw [hopen] at h
      cases h
    | ok d =>
      rw [hopen] at h
      have hstep := Reached.step hcur hle (openDirAt_eq_ok hopen) rfl
      have hrest := ih hstep (Nat.le_succ t) h
      rwa [List.append_assoc] at hrest

theorem along_of_openFinal (hcur : Reached disks t front (.dir fd)) (hle : t ≤ t')
    (h : openFinal (disks t') fd access (some name) = .ok opened) :
    Along disks (front ++ [name]) opened := by
  rw [openFinal] at h
  split at h
  · cases h
  · cases hlookup : (disks t').lookup fd name with
    | none =>
      rw [hlookup] at h
      by_cases hread : access = .read
      · cases (if_pos hread).symm.trans h
      · cases (if_neg hread).symm.trans h
        exact ⟨t, t', front, hcur, hle, hlookup, rfl⟩
    | some e =>
      rw [hlookup] at h
      cases e with
      | link => cases h
      | dir d =>
        by_cases hread : access = .read
        · cases (if_pos hread).symm.trans h
          exact ⟨t', .step hcur hle hlookup rfl⟩
        · cases (if_neg hread).symm.trans h
      | file inode =>
        by_cases hnew : access = .createNew
        · cases (if_pos hnew).symm.trans h
        · cases (if_neg hnew).symm.trans h
          exact ⟨t', .step hcur hle hlookup rfl⟩

/-- Whatever other processes do, what is opened beneath a root that no link leads to stands at the
path. -/
theorem along_of_openBeneathRoot (hplain : ∀ name ∈ path, Plain name)
    (hclear : (disks 0).ClearAbove root rootPath)
    (h : openBeneathRoot disks rootPath path access = .ok opened) : Along disks path opened := by
  rw [openBeneathRoot] at h
  obtain ⟨hunder, h⟩ := Except.ite_throw_eq_ok.1 h
  obtain ⟨relative, rfl⟩ : rootPath <+: path := by simpa [startsWith] using hunder
  rw [List.drop_left] at h
  obtain ⟨fd, hroot, h⟩ := Except.bind_eq_ok.1 h
  obtain ⟨⟨t, dir⟩, hdescend, h⟩ := Except.bind_eq_ok.1 h
  have htop : Reached disks 0 rootPath (.dir fd) :=
    reached_of_openDir (fun name hname => hplain name (List.mem_append_left _ hname)) hclear .top hroot
  obtain ⟨t₁, hle, hdir⟩ := reached_of_descend htop (Nat.zero_le 1) hdescend
  cases hlast : relative.getLast? with
  | none =>
    cases List.getLast?_eq_none_iff.1 hlast
    simp only [List.getLast?_nil, openFinal] at h
    split at h
    · cases h
      exact ⟨t₁, hdir⟩
    · cases h
  | some last =>
    obtain ⟨front, rfl⟩ := List.getLast?_eq_some_iff.1 hlast
    rw [List.dropLast_concat] at hdir
    simp only [List.getLast?_concat] at h
    rw [← List.append_assoc]
    exact along_of_openFinal hdir hle h

end

namespace FilePolicy

variable {policy : FilePolicy} {readShell writeShell : Shell}

/-- What admission says of the place it returns. -/
theorem admitOpen_spec (h : policy.admitOpen readShell writeShell path access = .ok place) :
    (access.isRead = true → readShell.walk path = .ok place ∧ policy.MayRead place) ∧
      (access ≠ .read → writeShell.walk path = .ok place ∧ policy.MayWrite place) := by
  unfold admitOpen at h
  split at h
  · next hread =>
    exact ⟨fun _ => (mayRead_of_admitRead h).symm, fun hne => absurd hread hne⟩
  · obtain ⟨read, hfirst, h⟩ := Except.bind_eq_ok.1 h
    obtain ⟨⟨written, followed⟩, hwrite, h⟩ := Except.bind_eq_ok.1 h
    obtain ⟨-, h⟩ := Except.ite_throw_eq_ok.1 h
    obtain ⟨hsame, h⟩ := Except.ite_throw_eq_ok.1 h
    cases Except.pure_eq_ok.1 h
    refine ⟨fun hisRead => ?_, fun _ => (mayWrite_of_admitWrite hwrite).symm⟩
    rw [admitReadToo, if_pos hisRead] at hfirst
    obtain ⟨judged, hjudged, rfl⟩ := Except.map_eq_ok.1 hfirst
    have heq : judged = place := by simpa using hsame
    exact heq ▸ (mayRead_of_admitRead hjudged).symm

theorem plain_of_admitOpen (h : policy.admitOpen readShell writeShell path access = .ok place) :
    ∀ name ∈ place, Plain name := by
  obtain ⟨hread, hwrite⟩ := admitOpen_spec h
  by_cases haccess : access = .read
  · exact plain_of_walk (hread (by rw [haccess]; rfl)).1
  · exact plain_of_walk (hwrite haccess).1

theorem openPath_eq_ok (hjudge : policy.admitOpen readShell writeShell path access = .ok place)
    (hroot : policy.openRoot isFile access place = some rootPath)
    (hopen : openBeneathRoot disks rootPath place access = .ok opened) :
    policy.openPath readShell writeShell isFile disks path access = .ok opened := by
  rw [openPath, hjudge]
  simp only [hroot, hopen]

/-- A request is judged as the place that the kernel reaches, or is refused; and, unless a directory
above the root of the opening is a link when that root is opened, what is opened stands at the
admitted place and was reached through no link, whatever other processes do meanwhile. -/
theorem open_reaches_admitted (policy : FilePolicy) (readShell writeShell : Shell)
    (isFile : List Name → Bool) (disks : Nat → Disk) (path : List UInt8) (access : PathAccess) :
    (∀ shell : Shell, shell.KeepsFixedLinks →
      ∀ place, Names shell.tree pieces true shell.cwd path place →
        shell.walk path = .ok place ∨ shell.walk path = .error .escapesRoot ∨
          shell.walk path = .error .tooManyLinks) ∧
    ∀ opened, policy.openPath readShell writeShell isFile disks path access = .ok opened →
      (∀ place rootPath, policy.admitOpen readShell writeShell path access = .ok place →
        policy.openRoot isFile access place = some rootPath →
        (disks 0).ClearAbove root rootPath) →
      ∃ place, Along disks place opened ∧
        (access.isRead = true → readShell.walk path = .ok place ∧ policy.MayRead place) ∧
        (access ≠ .read → writeShell.walk path = .ok place ∧ policy.MayWrite place) := by
  refine ⟨fun shell hfixed place hnames => walk_of_names hfixed hnames, fun opened h hclear => ?_⟩
  unfold openPath at h
  split at h
  · cases h
  · next place hjudge =>
    split at h
    · cases h
    · next rootPath hroot =>
      split at h
      · next hopen =>
        cases h
        exact ⟨place, along_of_openBeneathRoot (plain_of_admitOpen hjudge)
          (hclear place rootPath hjudge hroot) hopen, admitOpen_spec hjudge⟩
      · cases h
      · cases h

/-- `/w` with a file `f`, and a link `/k` to `w`. -/
def sampleShell : Shell where
  os := .linux
  tree := .dir [([119], .dir [([102], .file)]), ([107], .link ⟨[119], List.cons_ne_nil _ _⟩)]
  cwd := []
  cwd_plain _ h := absurd h List.not_mem_nil
  cwd_dir := ⟨_, rfl, rfl⟩

/-- The same tree behind handles. -/
def sampleDisk : Disk where
  lookup fd name :=
    if fd = 0 ∧ name = [119] then some (.dir 1)
    else if fd = 0 ∧ name = [107] then some (.link ⟨[119], List.cons_ne_nil _ _⟩)
    else if fd = 1 ∧ name = [102] then some (.file 2)
    else none
  parent _ := 0

def samplePolicy : FilePolicy := ⟨[], [], [], [], false, none, none⟩

/-- The path `/k/../w/./f` is judged and read as `/w/f`. -/
theorem open_reaches_admitted_sample :
    (sampleShell.walk [47, 107, 47, 46, 46, 47, 119, 47, 46, 47, 102] = .ok [[119], [102]] ∨
      sampleShell.walk [47, 107, 47, 46, 46, 47, 119, 47, 46, 47, 102] = .error .escapesRoot ∨
      sampleShell.walk [47, 107, 47, 46, 46, 47, 119, 47, 46, 47, 102] = .error .tooManyLinks) ∧
    ∃ place, Along (fun _ => sampleDisk) place (.existing (.file 2)) ∧
      (PathAccess.read.isRead = true →
        sampleShell.walk [47, 107, 47, 46, 46, 47, 119, 47, 46, 47, 102] = .ok place ∧
          samplePolicy.MayRead place) ∧
      (PathAccess.read ≠ .read →
        sampleShell.walk [47, 107, 47, 46, 46, 47, 119, 47, 46, 47, 102] = .ok place ∧
          samplePolicy.MayWrite place) := by
  obtain ⟨hjudged, hopened⟩ := open_reaches_admitted samplePolicy sampleShell sampleShell
    (fun _ => false) (fun _ => sampleDisk) [47, 107, 47, 46, 46, 47, 119, 47, 46, 47, 102] .read
  have hw : Plain [119] := ⟨by decide, by decide, by decide, by decide⟩
  have hf : Plain [102] := ⟨by decide, by decide, by decide, by decide⟩
  have hk : Plain [107] := ⟨by decide, by decide, by decide, by decide⟩
  have hnames : Names sampleShell.tree pieces true sampleShell.cwd
      [47, 107, 47, 46, 46, 47, 119, 47, 46, 47, 102] [[119], [102]] := by
    refine ⟨List.cons_ne_nil _ _, ?_⟩
    refine .head (.here (.inl rfl) rfl rfl) (.head (.link hk rfl rfl (.inl rfl)) ?_)
    refine .head (.into hw rfl rfl rfl) (.head (.up rfl rfl) (.head (.into hw rfl rfl rfl) ?_))
    exact .head (.here (.inr rfl) rfl rfl) (.single (.into hf rfl rfl rfl))
  have hopen : samplePolicy.openPath sampleShell sampleShell (fun _ => false) (fun _ => sampleDisk)
      [47, 107, 47, 46, 46, 47, 119, 47, 46, 47, 102] .read = .ok (.existing (.file 2)) := by
    have hbeneath : openBeneathRoot (fun _ => sampleDisk) [] [[119], [102]] .read =
        .ok (.existing (.file 2)) := by
      rw [openBeneathRoot, Disk.openDir]
      rfl
    exact openPath_eq_ok rfl rfl hbeneath
  refine ⟨hjudged sampleShell (fun _ _ h => absurd h (by simp [sampleShell, fixedLinks])) _ hnames,
    hopened _ hopen fun place rootPath _ hroot => ?_⟩
  have hempty : rootPath = [] := by
    unfold openRoot at hroot
    split at hroot
    · exact (Option.some.inj hroot).symm
    · exact (Option.some.inj hroot).symm
  subst hempty
  intro above target hle hne
  exact absurd (List.prefix_nil.1 hle) hne

/-- `/h/w` with a file `f`, and `/dev/null`, when the request is admitted. -/
def movedShell : Shell where
  os := .linux
  tree := .dir [([104], .dir [([119], .dir [([102], .file)])]),
    ([100, 101, 118], .dir [([110, 117, 108, 108], .special)])]
  cwd := []
  cwd_plain _ h := absurd h List.not_mem_nil
  cwd_dir := ⟨_, rfl, rfl⟩

/-- Another process has put a link to `/e` in place of `/h`, and `/e/w` holds a file of its own. -/
def movedDisk : Disk where
  lookup fd name :=
    if fd = 0 ∧ name = [104] then some (.link ⟨[47, 101], List.cons_ne_nil _ _⟩)
    else if fd = 0 ∧ name = [101] then some (.dir 1)
    else if fd = 1 ∧ name = [119] then some (.dir 2)
    else if fd = 2 ∧ name = [102] then some (.file 3)
    else if fd = 0 ∧ name = [100, 101, 118] then some (.dir 4)
    else if fd = 4 ∧ name = [110, 117, 108, 108] then some (.file 5)
    else none
  parent _ := 0

/-- Writes go to `/h/w`. -/
def movedPolicy : FilePolicy := ⟨[[[104], [119]]], [], [], [], false, none, none⟩

/-- While `/h` is a link nothing is reached through it. -/
theorem not_reached_moved (h : Reached (fun _ => movedDisk) t names e) :
    names.head? ≠ some [104] := by
  induction h with
  | top => exact (Option.some_ne_none _).symm
  | @step _ front d _ name e hprev _ hlookup hlink ih =>
    intro hhead
    cases front with
    | cons head tail => exact ih hhead
    | nil =>
      cases hhead
      generalize hnil : ([] : List Name) = names at hprev
      generalize hdir : Dirent.dir d = entry at hprev
      cases hprev with
      | top =>
        cases hdir
        cases hlookup
        cases hlink
      | step => cases List.append_ne_nil_of_right_ne_nil _ (List.cons_ne_nil _ _) hnil.symm

/-- A write to `/dev/null` is opened outside the only writable root, and a write to `/h/w/f` reaches
a file outside it through the link that replaced `/h`. -/
theorem null_device_and_moved_root :
    (movedPolicy.openPath movedShell movedShell (fun _ => false) (fun _ => movedDisk)
        [47, 100, 101, 118, 47, 110, 117, 108, 108] .write = .ok (.existing (.file 5)) ∧
      movedPolicy.writable.any (startsWith devNull) = false) ∧
    movedPolicy.openPath movedShell movedShell (fun _ => false) (fun _ => movedDisk)
        [47, 104, 47, 119, 47, 102] .write = .ok (.existing (.file 3)) ∧
      movedPolicy.admitOpen movedShell movedShell [47, 104, 47, 119, 47, 102] .write =
        .ok [[104], [119], [102]] ∧
      ¬ Along (fun _ => movedDisk) [[104], [119], [102]] (.existing (.file 3)) := by
  refine ⟨⟨openPath_eq_ok rfl rfl ?_, rfl⟩, openPath_eq_ok rfl rfl ?_, rfl, ?_⟩
  · rw [openBeneathRoot, Disk.openDir]
    rfl
  · have hroot : movedDisk.openDir 40 root [[104], [119]] = .ok 2 := by
      simp [Disk.openDir, movedDisk, IsHere, dot, dotdot, root, isAbsolute, slash, pieces]
    rw [openBeneathRoot, hroot]
    rfl
  · rintro ⟨t, hreached⟩
    exact not_reached_moved hreached rfl

end FilePolicy

end OhMyPi.ExecSandbox
