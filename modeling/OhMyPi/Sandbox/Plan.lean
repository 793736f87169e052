import OhMyPi.Sandbox.Spec

/-! Compiled plans and what they leave open. A mount shadows the mounts before it; of the rules of a
profile the last one that matches decides. -/

namespace OhMyPi.Sandbox

/-- What a mount puts at its target. -/
inductive MountSource where
  | host (path : Path)
  | tmpfs
  | proc
  | dev
  | bpf
  | fileMask
  | directoryMask
  deriving DecidableEq

structure Mount where
  source : MountSource
  target : Path
  readOnly : Bool
  deriving DecidableEq

/-- A bind of a host path to itself. -/
def Mount.bind (readOnly : Bool) (path : Path) : Mount := ⟨.host path, path, readOnly⟩

def Mount.covers (path : Path) (mount : Mount) : Bool := mount.target.isPrefixOf path

/-- Whether the host's own file stands at a path below the mount. -/
def Mount.isHost (mount : Mount) : Bool := mount.source == .host mount.target

/-- Mounts that stand at the paths of a list cover what lies under one of them. -/
theorem any_covers_map {make : Path → Mount} (htarget : ∀ path, (make path).target = path)
    (path : Path) (paths : List Path) :
    (paths.map make).any (Mount.covers path) = pathUnderAny path paths := by
  rw [List.any_map, pathUnderAny]
  congr 1
  funext scope
  rw [Bool.eq_iff_iff, pathUnderScope_iff, Function.comp_apply, Mount.covers, htarget,
    List.isPrefixOf_iff_prefix]

/-- Which writes the runtime keeps in memory. -/
inductive Overlay where
  | off
  | root
  | all
  deriving DecidableEq

/-- The tree that the mounts are laid over: the host's own, or one made for the sandbox. -/
structure Root where
  host : Bool
  readOnly : Bool

structure MountView where
  root : Root
  overlay : Overlay
  mounts : List Mount
  /-- The targets that are there for sockets. -/
  sockets : List Path

inductive Operation where
  | default
  | fileRead
  | fileReadData
  | fileWrite
  | fileWriteUnlink
  | fileIoctl
  deriving DecidableEq

inductive Atom where
  | subpath (path : Path)
  | literal (path : Path)
  | regex (pattern : String)
  | extension (name : String)
  | vnodeDirectory
  deriving DecidableEq

/-- A filter of a rule: `require-all` of some atoms and of the negations of others. -/
structure Filter where
  require : List Atom
  requireNot : List Atom
  deriving DecidableEq

def Filter.subpath (path : Path) : Filter := ⟨[.subpath path], []⟩

def Filter.literal (path : Path) : Filter := ⟨[.literal path], []⟩

/-- What stands at the paths of a rule. -/
inductive Backing where
  | host
  | device
  | privateCopy
  deriving DecidableEq

structure Rule where
  allow : Bool
  operations : List Operation
  filters : List Filter
  backing : Backing
  deriving DecidableEq

/-- What the kernel knows of a path beyond its name: the regular expressions that it matches and the
extensions that were issued for it. -/
structure Kernel where
  regex : String → Path → Bool
  extension : String → Path → Bool

def Atom.matches (kernel : Kernel) (fs : FileSystem) (path : Path) : Atom → Bool
  | .subpath scope => scope.isPrefixOf path
  | .literal name => path == name
  | .regex pattern => kernel.regex pattern path
  | .extension name => kernel.extension name path
  | .vnodeDirectory => fs.isDir path

def Filter.matches (kernel : Kernel) (fs : FileSystem) (path : Path) (filter : Filter) : Bool :=
  filter.require.all (·.matches kernel fs path) && !filter.requireNot.any (·.matches kernel fs path)

/-- A rule without filters matches every path. -/
def Rule.matches (kernel : Kernel) (fs : FileSystem) (operations : List Operation) (path : Path)
    (rule : Rule) : Bool :=
  rule.operations.any (· ∈ operations) &&
    (rule.filters.isEmpty || rule.filters.any (·.matches kernel fs path))

inductive Files where
  | view (view : MountView)
  | profile (rules : List Rule)

structure Plan where
  backend : Backend
  requested : CapabilitySet
  enforced : CapabilitySet
  files : Files

namespace MountView

def allowsWrite (view : MountView) (mount : Mount) : Bool :=
  mount.isHost && !mount.readOnly && view.overlay != .all && !view.sockets.contains mount.target

/-- Whether a write to the path reaches the host's file other than through a socket's entry. -/
def writable (view : MountView) (path : Path) : Bool :=
  (Layers.verdict (Mount.covers path) view.allowsWrite view.mounts).getD
    (view.root.host && !view.root.readOnly && view.overlay = .off)

def readable (view : MountView) (path : Path) : Bool :=
  (Layers.verdict (Mount.covers path) Mount.isHost view.mounts).getD view.root.host

end MountView

namespace Profile

def allows (rule : Rule) : Bool := rule.allow && rule.backing = .host

def writable (kernel : Kernel) (fs : FileSystem) (rules : List Rule) (path : Path) : Bool :=
  (Layers.verdict (Rule.matches kernel fs [.default, .fileWrite] path) allows rules).getD true

def readable (kernel : Kernel) (fs : FileSystem) (rules : List Rule) (path : Path) : Bool :=
  (Layers.verdict (Rule.matches kernel fs [.default, .fileRead, .fileReadData] path) allows
    rules).getD true

end Profile

namespace Files

def writable (kernel : Kernel) (fs : FileSystem) : Files → Path → Bool
  | .view v => v.writable
  | .profile rules => Profile.writable kernel fs rules

def readable (kernel : Kernel) (fs : FileSystem) : Files → Path → Bool
  | .view v => v.readable
  | .profile rules => Profile.readable kernel fs rules

end Files

namespace SandboxSpec

/-- A path that may be written: in a scope or temporary root and under no denial, or in an override
with no denial further down on the way to it. -/
def AsksWrite (backend : Backend) (host : Host) (spec : SandboxSpec) (path : Path) : Prop :=
  (pathUnderAny path (spec.writable ++ spec.temporary backend host) = true ∧
    pathUnderAny path spec.writeDeny = false) ∨
  ∃ scope ∈ spec.writeOverride, scope <+: path ∧
    ∀ denied ∈ spec.writeDeny, denied <+: path → ¬ Below scope denied

/-- A path that may be read as far as the denials go: an override lies between it and each denial
above it. -/
def AsksRead (spec : SandboxSpec) (path : Path) : Prop :=
  ∀ denied ∈ spec.readDeny, denied <+: path →
    ∃ scope ∈ spec.readOverride, denied <+: scope ∧ scope <+: path

section
variable {spec : SandboxSpec} {host : Host} {backend : Backend}

/-- Inside an override a path may be written once every denial that an override on the way could
reopen is an override itself. -/
theorem AsksWrite.of_override (hunder : pathUnderAny path spec.writeOverride = true)
    (h : ∀ scope ∈ spec.writeOverride, ∀ denied ∈ spec.writeDeny, Below scope denied →
      denied <+: path → denied ∈ spec.writeOverride) : spec.AsksWrite backend host path := by
  obtain ⟨scope, hmem, hle, hmax⟩ := exists_deepest hunder
  refine .inr ⟨scope, hmem, hle, fun denied hdenied hpath hbelow => ?_⟩
  have hdeep := hmax denied (h scope hmem denied hdenied hbelow hpath) hpath
  exact hbelow.2 (hbelow.1.eq_of_length_le hdeep.length_le)

theorem AsksWrite.override_of_denied (h : spec.AsksWrite backend host denied)
    (hdenied : denied ∈ spec.writeDeny) : denied ∈ spec.writeOverride := by
  rcases h with ⟨-, h⟩ | ⟨scope, hmem, hle, h⟩
  · exact absurd (List.prefix_refl denied) (pathUnderAny_false.1 h denied hdenied)
  · by_cases heq : scope = denied
    · exact heq ▸ hmem
    · exact absurd ⟨hle, heq⟩ (h denied hdenied (List.prefix_refl _))

theorem AsksRead.of_override
    (hunder : ∀ denied ∈ spec.readDeny, denied <+: path →
      pathUnderAny path spec.readOverride = true)
    (h : ∀ scope ∈ spec.readOverride, ∀ denied ∈ spec.readDeny, Below scope denied →
      denied <+: path → denied ∈ spec.readOverride) : spec.AsksRead path := by
  intro denied hdenied hpath
  obtain ⟨scope, hmem, hle⟩ := pathUnderAny_iff.1 (hunder denied hdenied hpath)
  rcases below_or_above hle hpath with hbelow | hbelow
  · exact ⟨denied, h scope hmem denied hdenied hbelow hpath, List.prefix_refl _, hpath⟩
  · exact ⟨scope, hmem, hbelow, hle⟩

theorem AsksRead.override_of_denied (h : spec.AsksRead denied) (hdenied : denied ∈ spec.readDeny) :
    denied ∈ spec.readOverride := by
  obtain ⟨scope, hmem, hle, hle'⟩ := h denied hdenied (List.prefix_refl _)
  exact hle.eq_of_length_le hle'.length_le ▸ hmem

end

end SandboxSpec

/-- The plan opens no file that the specification does not ask for. -/
def Plan.OpensNoMore (kernel : Kernel) (host : Host) (fs : FileSystem) (spec : SandboxSpec)
    (plan : Plan) : Prop :=
  ∀ path, fs.Possible path →
    (plan.files.writable kernel fs path = true → spec.AsksWrite plan.backend host path) ∧
    (plan.files.readable kernel fs path = true → spec.AsksRead path)

/-- The denials that were asked for are among the guarantees that the plan claims. -/
def Plan.ClaimsDenials (spec : SandboxSpec) (plan : Plan) : Prop :=
  (spec.readDeny ≠ [] → Capability.fsReadDeny ∈ plan.enforced) ∧
  (spec.writeDeny ≠ [] → Capability.fsWriteDeny ∈ plan.enforced)

end OhMyPi.Sandbox
