import OhMyPi.Lib.OrdMap
import OhMyPi.Sandbox.Plan

/-! gVisor plans (`sandbox/src/backends/gvisor.rs`, `gvisor_oci.rs`, `runtime/linux_view.rs`). The
mounts are worked out when the plan is prepared to run; here they are part of the plan. -/

namespace OhMyPi.Sandbox.Gvisor

inductive MountMode where
  | readOnly
  | readWrite
  deriving DecidableEq

/-- The paths of a view in order, each with the mode of its mount. -/
abbrev PathModes := OrdMap Path MountMode

def insertAll (mode : MountMode) (paths : List Path) (modes : PathModes) : PathModes :=
  paths.foldl (fun modes path => modes.insert path mode) modes

/-- `entry(path).or_insert(mode)`. -/
def orInsert (mode : MountMode) (modes : PathModes) (path : Path) : PathModes :=
  if modes.contains path then modes else modes.insert path mode

def orInsertAll (mode : MountMode) (paths : List Path) (modes : PathModes) : PathModes :=
  paths.foldl (orInsert mode) modes

/-- The write denials that are mounted. -/
def mountedWriteDeny (fs : FileSystem) (spec : SandboxSpec) : List Path :=
  spec.writeDeny.filter fun path => fs.pathExists path && pathUnderAny path spec.writable

def buildView (host : Host) (fs : FileSystem) (spec : SandboxSpec) : PathModes :=
  let paths := orInsertAll .readOnly spec.readable ∅
  let paths := insertAll .readWrite spec.writable paths
  let paths := insertAll .readWrite (spec.temporary .gvisor host) paths
  let paths := insertAll .readWrite spec.unixSockets paths
  insertAll .readOnly (mountedWriteDeny fs spec) paths

def runtimeCandidates (program : Path) : List Path :=
  [["etc", "ld.so.cache"], ["etc", "ld.so.conf"], ["etc", "ld.so.conf.d"], ["lib"], ["lib64"],
    ["usr", "lib"], ["usr", "lib64"], ["lib", "x86_64-linux-gnu"], ["usr", "lib", "x86_64-linux-gnu"],
    ["lib", "aarch64-linux-gnu"], ["usr", "lib", "aarch64-linux-gnu"], program]

/-- The candidates that are there, each with the path that it resolves to. -/
def runtimePaths (fs : FileSystem) (program : Path) : List Path :=
  (runtimeCandidates program).flatMap fun candidate =>
    if (fs.lstat candidate).isOk then candidate :: (fs.canonicalize candidate).toList else []

def withRuntimeClosure (fs : FileSystem) (program : Path) (modes : PathModes) : PathModes :=
  orInsertAll .readOnly (runtimePaths fs program) modes

def ociMount (entry : Path × MountMode) : Mount := .bind (entry.2 = .readOnly) entry.1

/-- The read denials that are masked. -/
def maskedReadDeny (fs : FileSystem) (spec : SandboxSpec) : List Path :=
  spec.readDeny.filter fun path => (fs.lstat path).isOk

def maskMount (fs : FileSystem) (path : Path) : Mount :=
  ⟨if fs.lstat path = .directory then .directoryMask else .fileMask, path, true⟩

/-- A placeholder in a root of its own needs the host's file behind it. -/
def createPlaceholders (fs : FileSystem) (paths : List Path) : Except SandboxError Unit :=
  match paths.find? fun path => !fs.pathExists path with
  | some path => .error (.backendPath .gvisor path)
  | none => .ok ()

def modes (host : Host) (fs : FileSystem) (spec : SandboxSpec) (program : Path) : PathModes :=
  if spec.readable = [] then buildView host fs spec
  else withRuntimeClosure fs program (buildView host fs spec)

def mounts (host : Host) (fs : FileSystem) (spec : SandboxSpec) (program : Path) : List Mount :=
  (modes host fs spec program).entries.map ociMount ++ (maskedReadDeny fs spec).map (maskMount fs)

/-- `linux_view::prepare`. -/
def prepare (host : Host) (fs : FileSystem) (spec : SandboxSpec) (program : Path) :
    Except SandboxError (List Mount) := do
  if spec.readable ≠ [] then
    createPlaceholders fs ((modes host fs spec program).entries.map (·.1))
    createPlaceholders fs (maskedReadDeny fs spec)
  return mounts host fs spec program

def needsFilesystemView (spec : SandboxSpec) : Bool :=
  spec.readable ≠ [] || spec.readDeny ≠ [] || spec.writeDeny ≠ [] || spec.unixSockets ≠ [] ||
    decide spec.WritableMode

def needsOci (spec : SandboxSpec) : Bool :=
  spec.network = .outbound || spec.noExec || needsFilesystemView spec || !spec.resources.isEmpty

/-- `--overlay2` of the runtime's flags. -/
def overlay (spec : SandboxSpec) : Overlay :=
  match spec.write with
  | .ephemeral => .all
  | .overlay => .root
  | .deny | .scoped => .off

def procMount : Mount := ⟨.proc, ["proc"], false⟩

def readOnlyRoot (spec : SandboxSpec) : Bool := needsFilesystemView spec || spec.write = .deny

def view (host : Host) (fs : FileSystem) (spec : SandboxSpec) (program : Path) :
    Except SandboxError MountView := do
  if needsFilesystemView spec then
    let mounts ← prepare host fs spec program
    return ⟨⟨spec.readable = [], readOnlyRoot spec⟩, overlay spec, procMount :: mounts,
      spec.unixSockets⟩
  else if needsOci spec then
    return ⟨⟨true, readOnlyRoot spec⟩, overlay spec, [procMount], spec.unixSockets⟩
  else
    -- `runsc do` shows the host's tree read only, under an overlay of its own.
    return ⟨⟨true, true⟩, overlay spec, [], spec.unixSockets⟩

def hasFutureDeny (fs : FileSystem) (spec : SandboxSpec) : Bool :=
  spec.readDeny.any fun path => !fs.pathExists path

def hasFutureWriteDeny (fs : FileSystem) (spec : SandboxSpec) : Bool :=
  spec.writeDeny.any fun path => !fs.pathExists path

def hasUnmountedWriteDeny (spec : SandboxSpec) : Bool :=
  spec.writeDeny.any fun path => !pathUnderAny path spec.writable

/-- Gives up a guarantee, which a specification that tolerates no gap refuses. -/
def withdraw (spec : SandboxSpec) (lost : Bool) (capability : Capability) (enforced : CapabilitySet) :
    Except SandboxError CapabilitySet :=
  if lost then
    if spec.degradation = .reject ∧ capability ∉ spec.tolerated then
      .error (.backendCapabilities .gvisor {capability})
    else .ok (enforced \ {capability})
  else .ok enforced

def compile (host : Host) (fs : FileSystem) (spec : SandboxSpec) (program : Path)
    (requested enforced : CapabilitySet) : Except SandboxError Plan := do
  let enforced := enforced ∪ {.kernelIsolation}
  let enforced ← withdraw spec (hasFutureDeny fs spec) .fsReadDeny enforced
  let enforced ← withdraw spec (hasFutureWriteDeny fs spec || hasUnmountedWriteDeny spec) .fsWriteDeny
    enforced
  let enforced ← withdraw spec (needsFilesystemView spec && .ipcRestrict ∈ enforced) .ipcRestrict
    enforced
  let view ← view host fs spec program
  return ⟨.gvisor, requested, enforced, .view view⟩

section
variable {host : Host} {fs : FileSystem} {spec : SandboxSpec} {program : Path}

theorem get?_insertAll (mode : MountMode) (paths : List Path) (modes : PathModes) (key : Path) :
    (insertAll mode paths modes).get? key = if key ∈ paths then some mode else modes.get? key := by
  induction paths generalizing modes with
  | nil => rfl
  | cons path paths ih =>
    rw [insertAll, List.foldl_cons, ← insertAll, ih]
    by_cases hkey : key = path
    · subst hkey
      simp
    · rw [OrdMap.get?_insert_of_ne _ _ hkey]
      simp [hkey]

theorem get?_orInsert (mode : MountMode) (modes : PathModes) (path key : Path) :
    (orInsert mode modes path).get? key =
      (modes.get? key).or (if key = path then some mode else none) := by
  unfold orInsert OrdMap.contains
  by_cases hkey : key = path
  · subst hkey
    cases hget : modes.get? key <;> simp [hget]
  · rw [if_neg hkey, Option.or_none]
    split
    · rfl
    · exact OrdMap.get?_insert_of_ne _ _ hkey

theorem get?_orInsertAll (mode : MountMode) (paths : List Path) (modes : PathModes) (key : Path) :
    (orInsertAll mode paths modes).get? key =
      (modes.get? key).or (if key ∈ paths then some mode else none) := by
  induction paths generalizing modes with
  | nil => simp [orInsertAll]
  | cons path paths ih =>
    rw [orInsertAll, List.foldl_cons, ← orInsertAll, ih, get?_orInsert]
    by_cases hkey : key = path
    · subst hkey
      cases modes.get? key <;> simp
    · simp [hkey]

theorem get?_buildView (key : Path) :
    (buildView host fs spec).get? key =
      if key ∈ mountedWriteDeny fs spec then some .readOnly
      else if key ∈ spec.unixSockets ∨ key ∈ spec.temporary .gvisor host ∨ key ∈ spec.writable then
        some .readWrite
      else if key ∈ spec.readable then some .readOnly else none := by
  have hempty : (∅ : PathModes).get? key = none := rfl
  simp only [buildView, get?_insertAll, get?_orInsertAll, hempty, Option.none_or]
  split_ifs <;> simp_all

theorem get?_modes (key : Path) :
    (modes host fs spec program).get? key = some .readWrite ↔
      key ∉ mountedWriteDeny fs spec ∧
      (key ∈ spec.unixSockets ∨ key ∈ spec.temporary .gvisor host ∨ key ∈ spec.writable) := by
  have hview : (buildView host fs spec).get? key = some .readWrite ↔
      key ∉ mountedWriteDeny fs spec ∧
      (key ∈ spec.unixSockets ∨ key ∈ spec.temporary .gvisor host ∨ key ∈ spec.writable) := by
    rw [get?_buildView]
    split_ifs <;> simp_all
  unfold modes
  split
  · exact hview
  · rw [withRuntimeClosure, get?_orInsertAll, ← hview]
    cases (buildView host fs spec).get? key with
    | some mode => rfl
    | none =>
      -- The closure only adds paths that are read only.
      split <;> simp

theorem get?_modes_writeDeny (h : key ∈ mountedWriteDeny fs spec) :
    (modes host fs spec program).get? key = some .readOnly := by
  have hview : (buildView host fs spec).get? key = some .readOnly := by
    rw [get?_buildView, if_pos h]
  unfold modes
  split
  · exact hview
  · rw [withRuntimeClosure, get?_orInsertAll, hview]
    rfl

theorem covers_ociMount (path : Path) (entry : Path × MountMode) :
    (ociMount entry).covers path = true ↔ entry.1 <+: path :=
  List.isPrefixOf_iff_prefix

/-- The mount that decides in a view is the deepest one. -/
theorem deciding_ociMount {entries : PathModes} :
    Layers.deciding (Mount.covers path) (entries.entries.map ociMount) = some m ↔
      ∃ scope mode, m = ociMount (scope, mode) ∧ entries.get? scope = some mode ∧ scope <+: path ∧
        ∀ other mode', entries.get? other = some mode' → other <+: path → other <+: scope := by
  have hsorted : (entries.entries.map ociMount).Pairwise fun m m' => m.target < m'.target :=
    List.pairwise_map.2 entries.sorted
  constructor
  · intro h
    obtain ⟨hmem, hcovers⟩ := Layers.mem_of_deciding h
    obtain ⟨⟨scope, mode⟩, hentry, rfl⟩ := List.mem_map.1 hmem
    have hle := (covers_ociMount path (scope, mode)).1 hcovers
    refine ⟨scope, mode, rfl, OrdMap.get?_eq_some_iff.2 hentry, hle, fun other mode' hget hother => ?_⟩
    have hin : ociMount (other, mode') ∈ entries.entries.map ociMount :=
      List.mem_map_of_mem (OrdMap.get?_eq_some_iff.1 hget)
    rcases below_or_above hle hother with hbelow | hbelow
    · rcases Layers.le_deciding hsorted h hin ((covers_ociMount path (other, mode')).2 hother)
        with heq | hlt
      · exact absurd (congrArg Mount.target heq).symm hbelow.2
      · exact absurd hlt hbelow.1.le
    · exact hbelow
  · rintro ⟨scope, mode, rfl, hget, hle, hmax⟩
    have hin : ociMount (scope, mode) ∈ entries.entries.map ociMount :=
      List.mem_map_of_mem (OrdMap.get?_eq_some_iff.1 hget)
    have hcovers := (covers_ociMount path (scope, mode)).2 hle
    cases hdec : Layers.deciding (Mount.covers path) (entries.entries.map ociMount) with
    | none => exact absurd hcovers (Bool.eq_false_iff.1 (Layers.deciding_eq_none.1 hdec _ hin))
    | some m =>
      obtain ⟨hmem, hm⟩ := Layers.mem_of_deciding hdec
      obtain ⟨⟨other, mode'⟩, hentry, rfl⟩ := List.mem_map.1 hmem
      have hother := hmax other mode' (OrdMap.get?_eq_some_iff.2 hentry)
        ((covers_ociMount path (other, mode')).1 hm)
      rcases Layers.le_deciding hsorted hdec hin hcovers with heq | hlt
      · exact congrArg some heq.symm
      · exact absurd hlt hother.le

theorem view_eq_of_needs {v : MountView} (hneeds : needsFilesystemView spec = true)
    (h : view host fs spec program = .ok v) :
    v = ⟨⟨spec.readable = [], true⟩, overlay spec, procMount :: mounts host fs spec program,
      spec.unixSockets⟩ := by
  unfold view at h
  rw [if_pos hneeds] at h
  obtain ⟨found, hfound, h⟩ := Except.bind_eq_ok.1 h
  cases Except.pure_eq_ok.1 h
  have hmounts : found = mounts host fs spec program := by
    unfold prepare at hfound
    split at hfound
    · obtain ⟨-, hfound⟩ := Except.unit_bind_eq_ok.1 hfound
      obtain ⟨-, hfound⟩ := Except.unit_bind_eq_ok.1 hfound
      exact (Except.pure_eq_ok.1 hfound).symm
    · exact (Except.pure_eq_ok.1 hfound).symm
  rw [hmounts, readOnlyRoot, hneeds, Bool.true_or]

/-- Without a view of its own the sandbox writes no file of the host. -/
theorem not_writable_of_not_needs {v : MountView} (hneeds : needsFilesystemView spec = false)
    (h : view host fs spec program = .ok v) (path : Path) : v.writable path = false := by
  have hroot : (!readOnlyRoot spec && decide (overlay spec = .off)) = false := by
    by_cases hmode : spec.WritableMode
    · simp [needsFilesystemView, hmode] at hneeds
    · cases hwrite : spec.write <;> simp_all [readOnlyRoot, overlay, SandboxSpec.WritableMode]
  have hproc : ∀ v : MountView, ∀ m ∈ [procMount], v.allowsWrite m = false := by
    intro v m hm
    cases List.mem_singleton.1 hm
    rfl
  unfold view at h
  rw [if_neg (Bool.not_eq_true _ ▸ hneeds)] at h
  split at h
  · cases Except.pure_eq_ok.1 h
    rw [MountView.writable, ← List.nil_append [procMount],
      Layers.verdict_append_uniform (hproc _)]
    split
    · rfl
    · simpa [Layers.verdict, Layers.deciding] using hroot
  · cases Except.pure_eq_ok.1 h
    rfl

/-- Where a view lets the host be written: below the deepest mount, unless a mask covers it. -/
theorem writable_iff {v : MountView} (hneeds : needsFilesystemView spec = true)
    (h : view host fs spec program = .ok v) (path : Path) :
    v.writable path = true ↔
      spec.write ≠ .ephemeral ∧ pathUnderAny path (maskedReadDeny fs spec) = false ∧
      ∃ scope, (modes host fs spec program).get? scope = some .readWrite ∧
        scope ∉ spec.unixSockets ∧ scope <+: path ∧
        ∀ other mode, (modes host fs spec program).get? other = some mode → other <+: path →
          other <+: scope := by
  cases view_eq_of_needs hneeds h
  have hoverlay : overlay spec ≠ .all ↔ spec.write ≠ .ephemeral := by
    unfold overlay
    split <;> simp_all
  have hmask : ∀ v : MountView, ∀ m ∈ (maskedReadDeny fs spec).map (maskMount fs),
      v.allowsWrite m = false := by
    intro v m hm
    obtain ⟨denied, -, rfl⟩ := List.mem_map.1 hm
    simp [MountView.allowsWrite, maskMount]
  rw [MountView.writable, mounts, ← List.cons_append, Layers.verdict_append_uniform (hmask _),
    any_covers_map fun _ => rfl, ← List.singleton_append, Layers.verdict, Layers.deciding_append]
  cases hmasked : pathUnderAny path (maskedReadDeny fs spec) with
  | true => simp
  | false =>
    cases hdec : Layers.deciding (Mount.covers path)
        ((modes host fs spec program).entries.map ociMount) with
    | none =>
      have hnone : ∀ scope mode, (modes host fs spec program).get? scope = some mode →
          ¬ scope <+: path := by
        intro scope mode hget hle
        have hin : ociMount (scope, mode) ∈ (modes host fs spec program).entries.map ociMount :=
          List.mem_map_of_mem (OrdMap.get?_eq_some_iff.1 hget)
        exact Bool.eq_false_iff.1 (Layers.deciding_eq_none.1 hdec _ hin)
          ((covers_ociMount path (scope, mode)).2 hle)
      have hproc : ∀ v : MountView,
          ((Layers.deciding (Mount.covers path) [procMount]).map v.allowsWrite).getD false =
            false := by
        intro v
        simp only [Layers.deciding, List.filter_cons, List.filter_nil]
        split <;> rfl
      simp only [Bool.false_eq_true, if_false, Option.none_or, Bool.not_true, Bool.and_false,
        Bool.false_and, hproc]
      constructor
      · rintro ⟨⟩
      · rintro ⟨-, -, scope, hget, -, hle, -⟩
        exact absurd hle (hnone scope _ hget)
    | some m =>
      obtain ⟨scope, mode, rfl, hget, hle, hmax⟩ := deciding_ociMount.1 hdec
      simp only [Bool.false_eq_true, if_false, Option.some_or, Option.map_some, Option.getD_some,
        MountView.allowsWrite, ociMount, Mount.bind, Mount.isHost, beq_self_eq_true,
        Bool.true_and, Bool.and_eq_true, bne_iff_ne, Bool.not_eq_true', List.contains_eq_mem, decide_eq_false_iff_not,
        hoverlay, true_and]
      constructor
      · rintro ⟨⟨hmode, hwrite⟩, hsocket⟩
        have hmode : mode = .readWrite := by
          cases mode
          · exact absurd rfl hmode
          · rfl
        exact ⟨hwrite, scope, hmode ▸ hget, hsocket, hle, hmax⟩
      · rintro ⟨hwrite, scope', hget', hsocket, hle', hmax'⟩
        have heq : scope = scope' :=
          (hmax' scope mode hget hle).eq_of_length_le (hmax scope' _ hget' hle').length_le
        subst heq
        rw [hget'] at hget
        cases hget
        exact ⟨⟨MountMode.noConfusion, hwrite⟩, hsocket⟩

theorem not_readable_of_masked {v : MountView} (hneeds : needsFilesystemView spec = true)
    (h : view host fs spec program = .ok v)
    (hmasked : pathUnderAny path (maskedReadDeny fs spec) = true) : v.readable path = false := by
  cases view_eq_of_needs hneeds h
  have hmask : ∀ m ∈ (maskedReadDeny fs spec).map (maskMount fs), m.isHost = false := by
    intro m hm
    obtain ⟨denied, -, rfl⟩ := List.mem_map.1 hm
    unfold maskMount
    split <;> rfl
  rw [MountView.readable, mounts, ← List.cons_append, Layers.verdict_append_uniform hmask,
    any_covers_map fun _ => rfl, if_pos hmasked]
  rfl

/-- No scope is mounted over a denial that it lies in. -/
def NothingReopened (host : Host) (fs : FileSystem) (spec : SandboxSpec) : Prop :=
  ∀ denied ∈ spec.writeDeny, ∀ scope ∈ spec.writable ++ spec.temporary .gvisor host,
    Below denied scope → fs.Possible scope →
    scope ∈ spec.writeDeny ∨ scope ∈ spec.unixSockets ∨ pathUnderAny scope spec.readDeny = true ∨
      -- An override, which the view has no mount for, asks for the scope all the same.
      ∃ reopened ∈ spec.writeOverride, reopened <+: scope ∧
        ∀ denied ∈ spec.writeDeny, denied <+: scope → ¬ Below reopened denied

/-- The denials that a plan can claim: all of them are there, the write denials inside scopes. -/
structure Mountable (fs : FileSystem) (spec : SandboxSpec) : Prop where
  read : ∀ denied ∈ spec.readDeny, fs.pathExists denied = true
  write : ∀ denied ∈ spec.writeDeny,
    fs.pathExists denied = true ∧ pathUnderAny denied spec.writable = true

theorem Mountable.mountedWriteDeny_eq (h : Mountable fs spec) :
    mountedWriteDeny fs spec = spec.writeDeny := by
  refine List.filter_eq_self.2 fun denied hdenied => ?_
  rw [Bool.and_eq_true]
  exact h.write denied hdenied

theorem Mountable.maskedReadDeny_eq (h : Mountable fs spec) :
    maskedReadDeny fs spec = spec.readDeny :=
  List.filter_eq_self.2 fun denied hdenied => fs.lstat_of_exists denied (h.read denied hdenied)

theorem asksWrite_of_writable {v : MountView} (hm : Mountable fs spec)
    (hview : view host fs spec program = .ok v) (h : NothingReopened host fs spec)
    (hpath : fs.Possible path) (hwritable : v.writable path = true) :
    spec.AsksWrite .gvisor host path := by
  cases hneeds : needsFilesystemView spec with
  | false =>
    rw [not_writable_of_not_needs hneeds hview] at hwritable
    cases hwritable
  | true =>
    obtain ⟨-, hmask, scope, hget, hsocket, hle, hmax⟩ := (writable_iff hneeds hview path).1 hwritable
    obtain ⟨hdeny, hscope⟩ := (get?_modes scope).1 hget
    have hmem : scope ∈ spec.writable ++ spec.temporary .gvisor host :=
      List.mem_append.2 (hscope.resolve_left hsocket).symm
    rw [hm.mountedWriteDeny_eq] at hdeny
    rw [hm.maskedReadDeny_eq] at hmask
    -- A denial above the path is mounted too, so it lies above the deciding scope.
    have habove : ∀ denied ∈ spec.writeDeny, denied <+: path → Below denied scope := by
      intro denied hdenied hdle
      have hro : (modes host fs spec program).get? denied = some .readOnly :=
        get?_modes_writeDeny (hm.mountedWriteDeny_eq.symm ▸ hdenied)
      exact ⟨hmax denied _ hro hdle, fun heq => hdeny (heq ▸ hdenied)⟩
    cases hfree : pathUnderAny path spec.writeDeny with
    | false => exact .inl ⟨pathUnderAny_iff.2 ⟨scope, hmem, hle⟩, hfree⟩
    | true =>
      obtain ⟨denied, hdenied, hdle⟩ := pathUnderAny_iff.1 hfree
      rcases h denied hdenied scope hmem (habove denied hdenied hdle) (hpath.mono hle)
        with h | h | h | ⟨reopened, hin, hreopened, hclear⟩
      · exact absurd h hdeny
      · exact absurd h hsocket
      · exact absurd (pathUnderAny_mono h hle) (Bool.eq_false_iff.1 hmask)
      · exact .inr ⟨reopened, hin, hreopened.trans hle, fun denied hdenied hdle =>
          hclear denied hdenied (habove denied hdenied hdle).1⟩

/-- A view opens no more than asked exactly when no scope is mounted over a denial. -/
theorem opensNoMore_iff {v : MountView} (hmode : spec.writable ≠ [] → spec.WritableMode)
    (htemp : spec.allowTemp = true → spec.WritableMode) (hm : Mountable fs spec)
    (hview : view host fs spec program = .ok v) :
    (∀ path, fs.Possible path → (v.writable path = true → spec.AsksWrite .gvisor host path) ∧
      (v.readable path = true → spec.AsksRead path)) ↔ NothingReopened host fs spec := by
  constructor
  · intro h denied hdenied scope hmem hbelow hpath
    have hwmode : spec.WritableMode := by
      rcases List.mem_append.1 hmem with hmem | hmem
      · exact hmode (List.ne_nil_of_mem hmem)
      · unfold SandboxSpec.temporary at hmem
        split at hmem
        · exact htemp ‹_›
        · cases hmem
    have hneeds : needsFilesystemView spec = true := by simp [needsFilesystemView, hwmode]
    have hwrite : spec.write ≠ .ephemeral := by
      rcases hwmode with h | h <;> rw [h] <;> exact WriteMode.noConfusion
    by_contra hnot
    simp only [not_or] at hnot
    obtain ⟨hdeny, hsocket, hmask, hreopened⟩ := hnot
    have hget : (modes host fs spec program).get? scope = some .readWrite := by
      refine (get?_modes scope).2 ⟨hm.mountedWriteDeny_eq.symm ▸ hdeny, .inr ?_⟩
      exact (List.mem_append.1 hmem).symm
    have hwritable : v.writable scope = true := by
      refine (writable_iff hneeds hview scope).2 ⟨hwrite, ?_, scope, hget, hsocket,
        List.prefix_refl _, fun other mode _ hle => hle⟩
      rw [hm.maskedReadDeny_eq]
      exact Bool.eq_false_iff.2 hmask
    rcases (h scope hpath).1 hwritable with ⟨-, hfree⟩ | ⟨reopened, hin, hle, hclear⟩
    · exact pathUnderAny_false.1 hfree denied hdenied hbelow.1
    · exact hreopened ⟨reopened, hin, hle, hclear⟩
  · intro h path hpath
    refine ⟨asksWrite_of_writable hm hview h hpath, fun hreadable denied hdenied hle => ?_⟩
    have hneeds : needsFilesystemView spec = true := by
      simp [needsFilesystemView, List.ne_nil_of_mem hdenied]
    have hmasked : pathUnderAny path (maskedReadDeny fs spec) = true := by
      rw [hm.maskedReadDeny_eq]
      exact pathUnderAny_iff.2 ⟨denied, hdenied, hle⟩
    rw [not_readable_of_masked hneeds hview hmasked] at hreadable
    cases hreadable

theorem withdraw_ok (h : withdraw spec lost capability enforced = .ok enforced') :
    enforced' ⊆ enforced ∧ (lost = true → capability ∉ enforced') := by
  unfold withdraw at h
  split at h
  · split at h
    · cases h
    · cases h
      exact ⟨Finset.sdiff_subset, fun _ => by simp⟩
  · cases h
    exact ⟨Finset.Subset.refl _, fun hlost => absurd hlost ‹_›⟩

/-- What a compiled plan is, and what it means that it claims the denials. -/
theorem compile_ok {plan : Plan}
    (h : compile host fs spec program requested enforced = .ok plan) :
    plan.backend = .gvisor ∧
      (∃ v, view host fs spec program = .ok v ∧ plan.files = .view v) ∧
      (plan.ClaimsDenials spec → Mountable fs spec) := by
  unfold compile at h
  obtain ⟨_, hread, h⟩ := Except.bind_eq_ok.1 h
  obtain ⟨_, hwrite, h⟩ := Except.bind_eq_ok.1 h
  obtain ⟨_, hipc, h⟩ := Except.bind_eq_ok.1 h
  obtain ⟨v, hview, h⟩ := Except.bind_eq_ok.1 h
  cases Except.pure_eq_ok.1 h
  refine ⟨rfl, ⟨v, hview, rfl⟩, fun ⟨hclaimr, hclaimw⟩ => ⟨fun denied hdenied => ?_,
    fun denied hdenied => ?_⟩⟩
  · have hmem := (withdraw_ok hwrite).1 ((withdraw_ok hipc).1
      (hclaimr (List.ne_nil_of_mem hdenied)))
    by_contra hmissing
    refine (withdraw_ok hread).2 (List.any_eq_true.2 ⟨denied, hdenied, ?_⟩) hmem
    simpa using hmissing
  · have hmem := (withdraw_ok hipc).1 (hclaimw (List.ne_nil_of_mem hdenied))
    by_contra hmissing
    refine (withdraw_ok hwrite).2 ?_ hmem
    rw [not_and_or] at hmissing
    rw [Bool.or_eq_true]
    rcases hmissing with hmissing | hmissing
    · exact .inl (List.any_eq_true.2 ⟨denied, hdenied, by simpa using hmissing⟩)
    · exact .inr (List.any_eq_true.2 ⟨denied, hdenied, by simpa using hmissing⟩)

end

end OhMyPi.Sandbox.Gvisor
