import OhMyPi.Sandbox.Plan

/-! Seatbelt plans (`sandbox/src/backends/seatbelt.rs`): the rules of the profile that are about
files, in order. -/

namespace OhMyPi.Sandbox.Seatbelt

def device (operations : List Operation) (filters : List Filter) : Rule :=
  ⟨true, operations, filters, .device⟩

/-- A terminal that was handed to the sandbox. -/
def ptyFilter : Filter := ⟨[.regex "^/dev/ttys[0-9]+", .extension "com.apple.sandbox.pty"], []⟩

/-- The file rules of `SEATBELT_BASE_POLICY`. -/
def basePolicy : List Rule :=
  [⟨false, [.default], [], .host⟩,
    device [.fileRead, .fileWrite, .fileIoctl] [.literal ["dev", "ptmx"]],
    device [.fileRead, .fileWrite] [ptyFilter],
    device [.fileIoctl] [⟨[.regex "^/dev/ttys[0-9]+"], []⟩],
    device [.fileRead, .fileWrite, .fileIoctl] [.literal ["dev", "null"], .literal ["dev", "tty"]],
    device [.fileRead, .fileIoctl] [.literal ["dev", "zero"], .literal ["dev", "random"],
      .literal ["dev", "urandom"], .subpath ["dev", "fd"]]]

def pushPaths (allow : Bool) (operation : Operation) (backing : Backing) (paths : List Path) :
    List Rule :=
  if paths = [] then [] else [⟨allow, [operation], paths.map .subpath, backing⟩]

def pushLiterals (allow : Bool) (operation : Operation) (backing : Backing) (paths : List Path) :
    List Rule :=
  if paths = [] then [] else [⟨allow, [operation], paths.map .literal, backing⟩]

/-- A directory is a subpath, a file a literal, and what is not there yet both. -/
def scopeFilters (fs : FileSystem) (path : Path) : List Filter :=
  (if fs.isDir path then .subpath path else .literal path) ::
    if fs.pathExists path then [] else [.subpath path]

def pushScopes (fs : FileSystem) (allow : Bool) (operation : Operation) (paths : List Path) :
    List Rule :=
  if paths = [] then [] else [⟨allow, [operation], paths.flatMap (scopeFilters fs), .host⟩]

def writeFilter (fs : FileSystem) (path : Path) : Atom :=
  if fs.isDir path || !fs.pathExists path then .subpath path else .literal path

def writeScope (filter : Path → Atom) (backing : Backing) (denied : List Path) (path : Path) :
    Rule :=
  ⟨true, [.fileWrite],
    [⟨[filter path], denied.flatMap fun path => [.subpath path, .literal path]⟩], backing⟩

/-- The directories between a scope and a denial in it. -/
def protectedAncestors (denied : List Path) (path : Path) : List Path :=
  (denied.filter (path.isPrefixOf ·)).flatMap fun denied =>
    if denied = [] then [] else denied.dropLast.inits.filter (path.isPrefixOf ·)

def pushWriteScopes (filter : Path → Atom) (backing : Backing) (paths denied : List Path) :
    List Rule :=
  paths.map (writeScope filter backing denied) ++
    (sortDedup (paths.flatMap (protectedAncestors denied))).map fun ancestor =>
      ⟨false, [.fileWriteUnlink], [⟨[.vnodeDirectory, .literal ancestor], []⟩], .host⟩

/-- The rules that open files for reading. -/
def readGrants (host : Host) (fs : FileSystem) (spec : SandboxSpec) (program : Option Path) :
    List Rule :=
  if spec.readable = [] then
    [⟨true, [.fileRead], [], .host⟩,
      ⟨false, [.fileRead], [⟨[.regex "^/dev/r?disk"], []⟩], .host⟩,
      ⟨false, [.fileRead], [⟨[.regex "^/dev/(mem|kmem|kcore)$"], []⟩], .host⟩]
  else
    [⟨false, [.fileRead], [.subpath []], .host⟩] ++
    pushPaths true .fileRead .host [["bin"], ["usr", "bin"], ["usr", "lib"], ["lib"], ["System"],
      ["private", "var", "db", "dyld"]] ++
    [⟨true, [.fileReadData], [.literal []], .host⟩] ++
    pushLiterals true .fileRead .host [["tmp"], ["var"], ["etc"]] ++
    pushLiterals true .fileRead .device [["dev", "null"], ["dev", "zero"], ["dev", "random"],
      ["dev", "urandom"]] ++
    pushLiterals true .fileRead .device [["dev", "ptmx"], ["dev", "tty"]] ++
    pushPaths true .fileRead .device [["dev", "fd"]] ++
    [device [.fileRead] [ptyFilter]] ++
    pushScopes fs true .fileRead (spec.readable ++ program.toList) ++
    (if spec.write = .ephemeral then pushPaths true .fileRead .privateCopy [host.ephemeralRoot]
      else []) ++
    [⟨false, [.fileRead], [.subpath ["System", "Volumes", "Data"]], .host⟩]

/-- The blanket denial of writes and the devices that it leaves open. -/
def writeBase : List Rule :=
  [⟨false, [.fileWrite], [.subpath []], .host⟩] ++
    pushLiterals true .fileWrite .device [["dev", "null"]] ++
    [device [.fileWrite, .fileIoctl] [.literal ["dev", "ptmx"], .literal ["dev", "tty"],
        .subpath ["dev", "fd"]],
      device [.fileWrite] [ptyFilter]]

def writeGrants (host : Host) (fs : FileSystem) (spec : SandboxSpec) : List Rule :=
  match spec.write with
  | .deny => []
  | .scoped | .overlay =>
    pushWriteScopes (writeFilter fs) .host (spec.writable ++ spec.temporary .seatbelt host) spec.writeDeny
  | .ephemeral =>
    -- The copy is not there yet when the profile is written.
    pushWriteScopes .subpath .privateCopy [host.ephemeralRoot] spec.writeDeny

def profile (host : Host) (fs : FileSystem) (spec : SandboxSpec) (program : Option Path) :
    List Rule :=
  basePolicy ++ readGrants host fs spec program ++
    pushScopes fs false .fileRead spec.readDeny ++
    pushScopes fs true .fileRead spec.readOverride ++
    writeBase ++ writeGrants host fs spec ++
    -- An override follows the carve-outs of the scopes, those inside it included.
    pushScopes fs true .fileWrite spec.writeOverride

def compile (host : Host) (fs : FileSystem) (spec : SandboxSpec) (program : Option Path)
    (requested enforced : CapabilitySet) : Except SandboxError Plan :=
  let enforced := enforced ∪ {.machRestrict}
  let enforced := if spec.write = .overlay then enforced \ {.fsWriteEphemeral} else enforced
  .ok ⟨.seatbelt, requested, enforced, .profile (profile host fs spec program)⟩

section
variable {host : Host} {fs : FileSystem} {spec : SandboxSpec} {program : Option Path}
  {kernel : Kernel} {path : Path}

theorem matches_eq_false {rule : Rule} (h : ∀ operation ∈ rule.operations, operation ∉ operations) :
    rule.matches kernel fs operations path = false := by
  have hops : rule.operations.any (· ∈ operations) = false := by simpa using h
  rw [Rule.matches, hops, Bool.false_and]

theorem any_scopeFilters (hpath : fs.Possible path) (scope : Path) :
    (scopeFilters fs scope).any (·.matches kernel fs path) = true ↔ scope <+: path := by
  have hbelow : Below scope path → fs.pathExists scope = true → fs.isDir scope = true := hpath scope
  unfold scopeFilters Below at *
  by_cases heq : scope = path
  · subst heq
    cases fs.isDir scope <;>
      simp [Filter.matches, Filter.subpath, Filter.literal, Atom.matches]
  · have heq' : path ≠ scope := fun h => heq h.symm
    cases hdir : fs.isDir scope <;> cases hexists : fs.pathExists scope <;>
      simp_all [Filter.matches, Filter.subpath, Filter.literal, Atom.matches]

/-- Rules made of scopes match what lies under one of them. -/
theorem any_pushScopes (hpath : fs.Possible path) (hop : operation ∈ operations) (allow : Bool)
    (paths : List Path) :
    (pushScopes fs allow operation paths).any (Rule.matches kernel fs operations path) =
      pathUnderAny path paths := by
  unfold pushScopes
  split
  · subst paths
    rfl
  · have hfilters : (paths.flatMap (scopeFilters fs)).isEmpty = false := by
      cases paths with
      | nil => contradiction
      | cons scope paths => simp [scopeFilters]
    rw [Bool.eq_iff_iff, pathUnderAny_iff]
    simp only [List.any_cons, List.any_nil, Bool.or_false, Rule.matches, hop, decide_true,
      Bool.true_and, hfilters, Bool.false_or, List.any_flatMap, List.any_eq_true (l := paths),
      any_scopeFilters hpath]

theorem matches_writeFilter (hpath : fs.Possible path) (scope : Path) :
    (writeFilter fs scope).matches kernel fs path = true ↔ scope <+: path := by
  have hbelow : Below scope path → fs.pathExists scope = true → fs.isDir scope = true := hpath scope
  unfold writeFilter Below at *
  by_cases heq : scope = path
  · subst heq
    split <;> simp [Atom.matches]
  · have heq' : path ≠ scope := fun h => heq h.symm
    cases hdir : fs.isDir scope <;> cases hexists : fs.pathExists scope <;>
      simp_all [Atom.matches]

theorem matches_writeScope (filter : Path → Atom) (backing : Backing) (denied : List Path)
    (scope : Path) :
    (writeScope filter backing denied scope).matches kernel fs [.default, .fileWrite] path = true ↔
      (filter scope).matches kernel fs path = true ∧ pathUnderAny path denied = false := by
  have hdenied : (denied.flatMap fun path => [Atom.subpath path, Atom.literal path]).any
      (·.matches kernel fs path) = pathUnderAny path denied := by
    rw [List.any_flatMap, pathUnderAny]
    congr 1
    funext scope
    simp [Atom.matches, pathUnderScope, Bool.or_comm]
  simp [writeScope, Rule.matches, Filter.matches, hdenied]

/-- The blanket denial decides whatever stands before it. -/
theorem verdict_writeBase (before : List Rule) :
    Layers.verdict (Rule.matches kernel fs [.default, .fileWrite] path) Profile.allows
      (before ++ writeBase) = some false := by
  have hclosed : ∀ rule ∈ writeBase, Profile.allows rule = false := by
    simp [writeBase, pushLiterals, device, Profile.allows]
  have hcovers : writeBase.any (Rule.matches kernel fs [.default, .fileWrite] path) = true := by
    simp [writeBase, Rule.matches, Filter.matches, Filter.subpath, Atom.matches]
  rw [Layers.verdict_append_uniform hclosed, if_pos hcovers]

theorem verdict_pushWriteScopes (filter : Path → Atom) (backing : Backing)
    (before : List Rule) (paths denied : List Path) :
    Layers.verdict (Rule.matches kernel fs [.default, .fileWrite] path) Profile.allows
      (before ++ pushWriteScopes filter backing paths denied) =
    if paths.any fun scope =>
        (filter scope).matches kernel fs path && !pathUnderAny path denied then
      some (decide (backing = .host))
    else Layers.verdict (Rule.matches kernel fs [.default, .fileWrite] path) Profile.allows
      before := by
  have hunlink : ∀ rule ∈ (sortDedup (paths.flatMap (protectedAncestors denied))).map fun ancestor =>
        (⟨false, [.fileWriteUnlink], [⟨[.vnodeDirectory, .literal ancestor], []⟩], .host⟩ : Rule),
      rule.matches kernel fs [.default, .fileWrite] path = false := by
    intro rule hrule
    obtain ⟨ancestor, -, rfl⟩ := List.mem_map.1 hrule
    exact matches_eq_false (by simp)
  have hscope : ∀ rule ∈ paths.map (writeScope filter backing denied),
      Profile.allows rule = decide (backing = .host) := by
    intro rule hrule
    obtain ⟨scope, -, rfl⟩ := List.mem_map.1 hrule
    exact Bool.true_and _
  rw [pushWriteScopes, ← List.append_assoc, Layers.verdict_append_uncovered hunlink,
    Layers.verdict_append_uniform hscope, List.any_map]
  congr 2
  refine List.any_congr rfl fun scope => ?_
  rw [Bool.eq_iff_iff, Function.comp_apply, matches_writeScope]
  simp

/-- Besides overrides, what can be written lies in a scope and outside its carve-outs. -/
theorem scope_of_verdict (before : List Rule) (hpath : fs.Possible path)
    (h : Layers.verdict (Rule.matches kernel fs [.default, .fileWrite] path) Profile.allows
      (before ++ writeBase ++ writeGrants host fs spec) ≠ some false) :
    pathUnderAny path (spec.writable ++ spec.temporary .seatbelt host) = true ∧
      pathUnderAny path spec.writeDeny = false := by
  have hscopes : Layers.verdict (Rule.matches kernel fs [.default, .fileWrite] path) Profile.allows
      (before ++ writeBase ++ pushWriteScopes (writeFilter fs) .host
        (spec.writable ++ spec.temporary .seatbelt host) spec.writeDeny) ≠ some false →
      pathUnderAny path (spec.writable ++ spec.temporary .seatbelt host) = true ∧
        pathUnderAny path spec.writeDeny = false := by
    intro h
    rw [verdict_pushWriteScopes, verdict_writeBase] at h
    split at h
    · obtain ⟨scope, hmem, hscope⟩ := List.any_eq_true.1 ‹_›
      rw [Bool.and_eq_true, matches_writeFilter hpath] at hscope
      exact ⟨pathUnderAny_iff.2 ⟨scope, hmem, hscope.1⟩, by simpa using hscope.2⟩
    · contradiction
  unfold writeGrants at h
  split at h
  · rw [List.append_nil, verdict_writeBase] at h
    contradiction
  · exact hscopes h
  · exact hscopes h
  · rw [verdict_pushWriteScopes, verdict_writeBase] at h
    split at h <;> exact absurd rfl h

theorem allows_pushScopes {rule : Rule} (h : rule ∈ pushScopes fs allow operation paths) :
    Profile.allows rule = allow := by
  unfold pushScopes at h
  split at h
  · cases h
  · cases List.mem_singleton.1 h
    simp [Profile.allows]

theorem writable_of_override (hpath : fs.Possible path)
    (h : pathUnderAny path spec.writeOverride = true) :
    Profile.writable kernel fs (profile host fs spec program) path = true := by
  rw [Profile.writable, profile, Layers.verdict_append_uniform fun _ => allows_pushScopes,
    any_pushScopes hpath (by decide), if_pos h]
  rfl

theorem asks_or_override_of_writable (hpath : fs.Possible path)
    (h : Profile.writable kernel fs (profile host fs spec program) path = true) :
    pathUnderAny path spec.writeOverride = true ∨
      pathUnderAny path (spec.writable ++ spec.temporary .seatbelt host) = true ∧
        pathUnderAny path spec.writeDeny = false := by
  rw [Profile.writable, profile, Layers.verdict_append_uniform fun _ => allows_pushScopes,
    any_pushScopes hpath (by decide)] at h
  split at h
  · exact .inl ‹_›
  · refine .inr (scope_of_verdict (basePolicy ++ readGrants host fs spec program ++
      pushScopes fs false .fileRead spec.readDeny ++ pushScopes fs true .fileRead spec.readOverride)
      hpath fun (hclosed : Layers.verdict (Rule.matches kernel fs _ path) _ _ = some false) => ?_)
    rw [hclosed] at h
    cases h

/-- The rules after the read overrides are about writing. -/
theorem not_reads {rule : Rule}
    (h : rule ∈ writeBase ++ writeGrants host fs spec ++
      pushScopes fs true .fileWrite spec.writeOverride) :
    rule.matches kernel fs [.default, .fileRead, .fileReadData] path = false := by
  have hwrite : ∀ operation ∈ rule.operations,
      operation ∈ [Operation.fileWrite, .fileWriteUnlink, .fileIoctl] := by
    rcases List.mem_append.1 h with h | h
    · rcases List.mem_append.1 h with h | h
      · have hbase : ∀ rule ∈ writeBase, ∀ operation ∈ rule.operations,
            operation ∈ [Operation.fileWrite, .fileWriteUnlink, .fileIoctl] := by
          simp [writeBase, pushLiterals, device]
        exact hbase rule h
      · have hscopes : ∀ (filter : Path → Atom) (backing : Backing) (paths denied : List Path),
            rule ∈ pushWriteScopes filter backing paths denied → ∀ operation ∈ rule.operations,
              operation ∈ [Operation.fileWrite, .fileWriteUnlink, .fileIoctl] := by
          intro filter backing paths denied h
          rcases List.mem_append.1 h with h | h
          · obtain ⟨scope, -, rfl⟩ := List.mem_map.1 h
            simp [writeScope]
          · obtain ⟨ancestor, -, rfl⟩ := List.mem_map.1 h
            simp
        unfold writeGrants at h
        split at h
        · cases h
        all_goals exact hscopes _ _ _ _ h
    · unfold pushScopes at h
      split at h
      · cases h
      · cases List.mem_singleton.1 h
        simp
  refine matches_eq_false fun operation hmem => ?_
  have := hwrite operation hmem
  simp only [List.mem_cons, List.not_mem_nil, or_false] at this ⊢
  rcases this with rfl | rfl | rfl <;> simp

/-- Under a denial only an override can be read. -/
theorem readable_denied (hpath : fs.Possible path)
    (hdenied : pathUnderAny path spec.readDeny = true) :
    Profile.readable kernel fs (profile host fs spec program) path = true ↔
      pathUnderAny path spec.readOverride = true := by
  rw [Profile.readable, profile, List.append_assoc _ writeBase, List.append_assoc _ (writeBase ++ _),
    Layers.verdict_append_uncovered fun _ => not_reads,
    Layers.verdict_append_uniform fun _ => allows_pushScopes, any_pushScopes hpath (by decide),
    Layers.verdict_append_uniform fun _ => allows_pushScopes, any_pushScopes hpath (by decide),
    if_pos hdenied]
  cases pathUnderAny path spec.readOverride <;> simp

/-- No override opens what a denial inside it closes. -/
structure NothingReopened (fs : FileSystem) (spec : SandboxSpec) : Prop where
  write_override : ∀ scope ∈ spec.writeOverride, ∀ denied ∈ spec.writeDeny, Below scope denied →
    fs.Possible denied → denied ∈ spec.writeOverride
  read_override : ∀ scope ∈ spec.readOverride, ∀ denied ∈ spec.readDeny, Below scope denied →
    fs.Possible denied → denied ∈ spec.readOverride

/-- A profile opens no more than asked exactly when nothing is reopened. -/
theorem opensNoMore_iff :
    (∀ path, fs.Possible path →
      (Profile.writable kernel fs (profile host fs spec program) path = true →
        spec.AsksWrite .seatbelt host path) ∧
      (Profile.readable kernel fs (profile host fs spec program) path = true →
        spec.AsksRead path)) ↔ NothingReopened fs spec := by
  constructor
  · intro h
    refine ⟨fun scope hmem denied hdenied hbelow hpath => ?_,
      fun scope hmem denied hdenied hbelow hpath => ?_⟩
    · have hunder := pathUnderAny_iff.2 ⟨scope, hmem, hbelow.1⟩
      exact ((h denied hpath).1 (writable_of_override hpath hunder)).override_of_denied hdenied
    · have hunder := pathUnderAny_iff.2 ⟨scope, hmem, hbelow.1⟩
      exact ((h denied hpath).2 ((readable_denied hpath (pathUnderAny_of_mem hdenied)).2
        hunder)).override_of_denied hdenied
  · intro h path hpath
    refine ⟨fun hwritable => ?_, fun hreadable => ?_⟩
    · rcases asks_or_override_of_writable hpath hwritable with hunder | hscope
      · exact .of_override hunder fun scope hmem denied hdenied hbelow hle =>
          h.write_override scope hmem denied hdenied hbelow (hpath.mono hle)
      · exact .inl hscope
    · refine .of_override (fun denied hdenied hle => ?_) fun scope hmem denied hdenied hbelow hle =>
        h.read_override scope hmem denied hdenied hbelow (hpath.mono hle)
      exact (readable_denied hpath (pathUnderAny_iff.2 ⟨denied, hdenied, hle⟩)).1 hreadable

end

end OhMyPi.Sandbox.Seatbelt
