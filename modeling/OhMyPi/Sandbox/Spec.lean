import Mathlib.Data.Finset.Basic
import Mathlib.Data.List.Sort
import Mathlib.Data.List.Lex
import Mathlib.Data.String.Basic
import OhMyPi.Lib.Except
import OhMyPi.Lib.Layers

/-! Sandbox specifications (`sandbox/src/spec.rs`, `paths.rs`, `capability.rs`), the plans that
backends compile from them and the file access that a plan leaves open. Every path is absolute and
is the list of its components; "access" is access to the host's own file at a path, so an entry that
puts something else there (a device, a process table, a mask, a private copy) gives none. -/

namespace OhMyPi.Sandbox

abbrev Path := List String

def pathUnderScope (path scope : Path) : Bool := path == scope || scope.isPrefixOf path

def pathUnderAny (path : Path) (scopes : List Path) : Bool := scopes.any (pathUnderScope path)

theorem pathUnderScope_iff : pathUnderScope path scope = true ↔ scope <+: path := by
  simp only [pathUnderScope, Bool.or_eq_true, beq_iff_eq, List.isPrefixOf_iff_prefix,
    or_iff_right_iff_imp]
  rintro rfl
  exact List.prefix_refl _

theorem pathUnderAny_iff : pathUnderAny path scopes = true ↔ ∃ scope ∈ scopes, scope <+: path := by
  simp [pathUnderAny, pathUnderScope_iff]

theorem pathUnderAny_false :
    pathUnderAny path scopes = false ↔ ∀ scope ∈ scopes, ¬ scope <+: path := by
  rw [← Bool.not_eq_true, pathUnderAny_iff]
  simp

theorem pathUnderAny_mono (h : pathUnderAny path scopes = true) (hle : path <+: path') :
    pathUnderAny path' scopes = true := by
  obtain ⟨scope, hmem, hscope⟩ := pathUnderAny_iff.1 h
  exact pathUnderAny_iff.2 ⟨scope, hmem, hscope.trans hle⟩

theorem pathUnderAny_of_mem (h : path ∈ scopes) : pathUnderAny path scopes = true :=
  pathUnderAny_iff.2 ⟨path, h, List.prefix_refl _⟩

/-- Keeps a sorted list of paths sorted and free of repetitions. -/
def insertPath (paths : List Path) (path : Path) : List Path :=
  if path ∈ paths then paths else paths.orderedInsert (· ≤ ·) path

/-- `sort` and `dedup` of a vector of paths. -/
def sortDedup (paths : List Path) : List Path := (paths.insertionSort (· ≤ ·)).dedup

/-- Strictly below. -/
def Below (scope path : Path) : Prop := scope <+: path ∧ scope ≠ path

instance : DecidableRel Below := fun _ _ => inferInstanceAs (Decidable (_ ∧ _))

theorem below_or_above (h : scope <+: path) (h' : scope' <+: path) :
    Below scope scope' ∨ scope' <+: scope := by
  rcases List.prefix_or_prefix_of_prefix h h' with hle | hle
  · by_cases heq : scope = scope'
    · exact .inr (heq ▸ List.prefix_refl _)
    · exact .inl ⟨hle, heq⟩
  · exact .inr hle

/-- Of the scopes that hold a path one is the deepest. -/
theorem exists_deepest (h : pathUnderAny path scopes = true) :
    ∃ scope ∈ scopes, scope <+: path ∧ ∀ other ∈ scopes, other <+: path → other <+: scope := by
  induction scopes with
  | nil => cases h
  | cons scope scopes ih =>
    by_cases hscope : scope <+: path
    · by_cases hrest : pathUnderAny path scopes = true
      · obtain ⟨deep, hmem, hle, hmax⟩ := ih hrest
        rcases List.prefix_or_prefix_of_prefix hscope hle with hs | hs
        · exact ⟨deep, .tail _ hmem, hle, List.forall_mem_cons.2 ⟨fun _ => hs, hmax⟩⟩
        · exact ⟨scope, .head _, hscope, List.forall_mem_cons.2
            ⟨fun _ => List.prefix_refl _, fun other ho hp => (hmax other ho hp).trans hs⟩⟩
      · have hnone := pathUnderAny_false.1 (Bool.not_eq_true _ ▸ hrest)
        exact ⟨scope, .head _, hscope, List.forall_mem_cons.2
          ⟨fun _ => List.prefix_refl _, fun other ho hp => absurd hp (hnone other ho)⟩⟩
    · obtain ⟨other, hmem, hle⟩ := pathUnderAny_iff.1 h
      rcases List.mem_cons.1 hmem with rfl | hmem
      · exact absurd hle hscope
      · obtain ⟨deep, hmem, hle, hmax⟩ := ih (pathUnderAny_iff.2 ⟨other, hmem, hle⟩)
        exact ⟨deep, .tail _ hmem, hle, List.forall_mem_cons.2 ⟨fun hp => absurd hp hscope, hmax⟩⟩

inductive Capability where
  | envScrub
  | fsReadDeny
  | fsReadHost
  | fsReadScope
  | fsWriteDeny
  | fsWriteEphemeral
  | fsWriteScope
  | ipcRestrict
  | kernelIsolation
  | machRestrict
  | netDisable
  | netEnable
  | netOutbound
  | procNoExec
  | resCpu
  | resMemory
  | resPids
  deriving DecidableEq

abbrev CapabilitySet := Finset Capability

/-- The backends whose plans say which files can be reached; each compiles for one host system. -/
inductive Backend where
  | seatbelt
  | bubblewrap
  | gvisor
  deriving DecidableEq

inductive NetworkMode where
  | disabled
  | enabled
  | outbound
  deriving DecidableEq

inductive WriteMode where
  | deny
  | scoped
  | ephemeral
  | overlay
  deriving DecidableEq

inductive DegradationPolicy where
  | reject
  | allowCaveats
  deriving DecidableEq

/-- Which resource ceilings are set. -/
structure ResourceLimits where
  cpuCores : Bool
  memoryBytes : Bool
  pids : Bool

def ResourceLimits.isEmpty (limits : ResourceLimits) : Bool :=
  !limits.cpuCores && !limits.memoryBytes && !limits.pids

structure SandboxSpec where
  dir : Option Path
  scrubs : Bool
  network : NetworkMode
  write : WriteMode
  readable : List Path
  readDeny : List Path
  readOverride : List Path
  writable : List Path
  writeDeny : List Path
  writeOverride : List Path
  unixSockets : List Path
  proxyPort : Option Nat
  proxySocket : Option Path
  allowTemp : Bool
  noExec : Bool
  machServices : List String
  resources : ResourceLimits
  degradation : DegradationPolicy
  tolerated : CapabilitySet

/-- `SandboxSpec::new`. -/
def SandboxSpec.new : SandboxSpec where
  dir := none
  scrubs := false
  network := .disabled
  write := .deny
  readable := []
  readDeny := []
  readOverride := []
  writable := []
  writeDeny := []
  writeOverride := []
  unixSockets := []
  proxyPort := none
  proxySocket := none
  allowTemp := false
  noExec := false
  machServices := []
  resources := ⟨false, false, false⟩
  degradation := .reject
  tolerated := ∅

/-- What `fs::symlink_metadata` says of a path. -/
inductive Lstat where
  | symlink
  | directory
  | other
  | notFound
  | failed
  deriving DecidableEq

def Lstat.isOk : Lstat → Bool
  | .symlink | .directory | .other => true
  | .notFound | .failed => false

/-- The host's file system as the compilers look at it: `Path::exists`, `Path::is_dir`,
`fs::symlink_metadata` and `fs::canonicalize`. -/
structure FileSystem where
  pathExists : Path → Bool
  isDir : Path → Bool
  lstat : Path → Lstat
  canonicalize : Path → Option Path
  lstat_of_exists : ∀ path, pathExists path = true → (lstat path).isOk = true

/-- A path that can name a file: nothing above it is there without being a directory. -/
def FileSystem.Possible (fs : FileSystem) (path : Path) : Prop :=
  ∀ above, Below above path → fs.pathExists above = true → fs.isDir above = true

theorem FileSystem.Possible.mono {fs : FileSystem} (h : fs.Possible path)
    (hle : scope <+: path) : fs.Possible scope := by
  intro above habove hexists
  refine h above ⟨habove.1.trans hle, ?_⟩ hexists
  rintro rfl
  exact habove.2 (habove.1.eq_of_length_le hle.length_le)

/-- What the process knows of its own host. -/
structure Host where
  /-- The canonical form of the directory that `std::env::temp_dir` names. -/
  tempDir : Option Path
  currentExe : Option Path
  /-- Where the system call filter is put that replaces its placeholder. -/
  bpf : Path
  /-- Where the private copy of the workspace is put that replaces its placeholder. -/
  ephemeralRoot : Path

/-- The temporary roots on the system that the backend runs on. -/
def tempRoots (backend : Backend) (host : Host) : List Path :=
  let roots := match host.tempDir with
    | some path => insertPath [] path
    | none => []
  match backend with
  | .bubblewrap | .gvisor => insertPath roots ["tmp"]
  | .seatbelt => insertPath roots ["private", "tmp"]

inductive SpecViolation where
  | tempWithoutWritableMode
  | writableWithoutWritableMode
  | emptyWriteScope
  | writeDenyOutsideScope
  | directoryOutsideScope

inductive SandboxError where
  | spec (violation : SpecViolation)
  | enforcementUnavailable (backend : Backend) (authority : String)
  | backendCapabilities (backend : Backend) (missing : CapabilitySet)
  | backendIo (backend : Backend)
  | backendPath (backend : Backend) (path : Path)
  | invalidMountPath (backend : Backend) (path : Path)
  | protectedWriteDenySymlink (writableRoot path symlink : Path)
  | commandWrapperUnsupported (backend : Backend)

namespace SandboxSpec

def WritableMode (spec : SandboxSpec) : Prop := spec.write = .scoped ∨ spec.write = .overlay

instance (spec : SandboxSpec) : Decidable spec.WritableMode :=
  inferInstanceAs (Decidable (_ ∨ _))

/-- The temporary roots when they are opted in. -/
def temporary (backend : Backend) (host : Host) (spec : SandboxSpec) : List Path :=
  if spec.allowTemp then tempRoots backend host else []

def validate (backend : Backend) (host : Host) (spec : SandboxSpec) : Except SandboxError Unit := do
  if spec.allowTemp = true ∧ ¬ spec.WritableMode then
    throw (.spec .tempWithoutWritableMode)
  if spec.writable ≠ [] ∧ ¬ spec.WritableMode then
    throw (.spec .writableWithoutWritableMode)
  if spec.write = .scoped ∧ spec.writable = [] ∧ spec.allowTemp = false then
    throw (.spec .emptyWriteScope)
  if spec.write ≠ .overlay ∧ spec.writeDeny.any (fun path =>
      !pathUnderAny path spec.writable && !pathUnderAny path (spec.temporary backend host)) then
    throw (.spec .writeDenyOutsideScope)
  if spec.readable ≠ [] ∧ spec.dir.any (fun dir =>
      !pathUnderAny dir spec.readable && !pathUnderAny dir spec.writable) then
    throw (.spec .directoryOutsideScope)

def requestedCapabilities (spec : SandboxSpec) : CapabilitySet :=
  (match spec.network with
    | .disabled => {.netDisable}
    | .enabled => {.netEnable}
    | .outbound => {.netOutbound}) ∪
  (match spec.write with
    | .deny => {.fsWriteDeny}
    | .scoped => {.fsWriteScope}
    | .ephemeral => {.fsWriteEphemeral}
    | .overlay => {.fsWriteScope, .fsWriteEphemeral}) ∪
  (if spec.readable = [] then {.fsReadHost} else {.fsReadScope}) ∪
  (if spec.readDeny ≠ [] then {.fsReadDeny} else ∅) ∪
  (if spec.writeDeny ≠ [] then {.fsWriteDeny} else ∅) ∪
  (if spec.scrubs then {.envScrub} else ∅) ∪
  (if spec.unixSockets = [] then {.ipcRestrict} else ∅) ∪
  (if spec.noExec then {.procNoExec} else ∅) ∪
  (if spec.machServices ≠ [] then {.machRestrict} else ∅) ∪
  (if spec.resources.cpuCores then {.resCpu} else ∅) ∪
  (if spec.resources.memoryBytes then {.resMemory} else ∅) ∪
  (if spec.resources.pids then {.resPids} else ∅)

end SandboxSpec

def Backend.capabilities : Backend → CapabilitySet
  | .seatbelt => {.netDisable, .netEnable, .netOutbound, .fsReadHost, .fsReadScope, .fsReadDeny,
      .fsWriteDeny, .fsWriteScope, .fsWriteEphemeral, .envScrub, .machRestrict}
  | .bubblewrap => {.envScrub, .fsReadHost, .fsReadScope, .fsReadDeny, .fsWriteDeny, .fsWriteScope,
      .ipcRestrict, .netDisable, .netEnable, .netOutbound}
  | .gvisor => {.netDisable, .netEnable, .netOutbound, .fsReadHost, .fsReadScope, .fsReadDeny,
      .fsWriteDeny, .fsWriteScope, .fsWriteEphemeral, .envScrub, .procNoExec, .kernelIsolation,
      .ipcRestrict, .resCpu, .resMemory, .resPids}

end OhMyPi.Sandbox
