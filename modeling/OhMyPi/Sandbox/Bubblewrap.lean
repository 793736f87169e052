import OhMyPi.Sandbox.Plan

/-! Bubblewrap plans (`sandbox/src/backends/bubblewrap.rs`): the binds of the command line, in
order. -/

namespace OhMyPi.Sandbox.Bubblewrap

/-- `RUNTIME_READ_ROOTS` of a Linux host. -/
def runtimeReadRoots : List Path := [["bin"], ["usr", "bin"], ["usr", "lib"], ["lib"]]

/-- The program, unless it is still a placeholder, and the loader's files that are there. -/
def runtimeClosure (fs : FileSystem) (program : Option Path) : List Path :=
  sortDedup (program.toList ++
    [["etc", "ld.so.cache"], ["etc", "ld.so.conf"], ["etc", "ld.so.conf.d"], ["etc", "ld.so.preload"],
      ["lib"], ["lib32"], ["lib64"], ["libx32"], ["usr", "lib"], ["usr", "lib32"], ["usr", "lib64"],
      ["usr", "libx32"]].filter fs.pathExists)

/-- Walks from the writable root down to the protected path: `none` when no link is on the way. -/
def protectedSymlink (fs : FileSystem) (writableRoot protectedPath : Path) :
    Path → List String → Option SandboxError
  | _, [] => none
  | componentPath, component :: rest =>
    let componentPath := componentPath ++ [component]
    match fs.lstat componentPath with
    | .symlink => some (.protectedWriteDenySymlink writableRoot protectedPath componentPath)
    | .notFound => none
    | .failed => some (.backendPath .bubblewrap componentPath)
    | .directory | .other => protectedSymlink fs writableRoot protectedPath componentPath rest

def rejectProtectedSymlink (fs : FileSystem) (writableRoot protectedPath : Path) :
    Option SandboxError :=
  protectedSymlink fs writableRoot protectedPath writableRoot (protectedPath.drop writableRoot.length)

/-- The write denials that are mounted. -/
def scopedWriteDeny (host : Host) (spec : SandboxSpec) : List Path :=
  spec.writeDeny.filter fun path =>
    pathUnderAny path spec.writable || pathUnderAny path (spec.temporary .bubblewrap host)

def rejectProtectedSymlinks (host : Host) (fs : FileSystem) (spec : SandboxSpec) :
    Option SandboxError :=
  (scopedWriteDeny host spec).findSome? fun path =>
    ((spec.writable ++ spec.temporary .bubblewrap host).filter (·.isPrefixOf path)).findSome?
      fun writableRoot => rejectProtectedSymlink fs writableRoot path

/-- `Path::parent`. -/
def parent (path : Path) : Option Path := if path = [] then none else some path.dropLast

def hasFutureDeny (fs : FileSystem) (spec : SandboxSpec) : Bool :=
  spec.readDeny.any fun path => !fs.pathExists path

def needsHelper (spec : SandboxSpec) : Bool :=
  spec.network = .disabled || spec.network = .outbound

/-- The tree below everything else: the host's, or its parts that are to be read. -/
def baseMounts (fs : FileSystem) (spec : SandboxSpec) (program helper : Option Path) : List Mount :=
  if spec.readable = [] then [.bind true []]
  else
    let readable := sortDedup (runtimeClosure fs program ++ runtimeReadRoots.filter fs.pathExists ++
      (match helper with
        | some exe => runtimeClosure fs (some exe)
        | none => []) ++ spec.readable)
    ⟨.tmpfs, [], false⟩ ::
      (readable.filter fun path => !pathUnderAny path spec.writable).map (.bind true)

def scopeMounts (host : Host) (spec : SandboxSpec) : List Mount :=
  (spec.temporary .bubblewrap host).map (.bind false) ++
    (if spec.WritableMode then spec.writable.map (.bind false) else [])

def writeDenyMount (fs : FileSystem) (path : Path) : Mount :=
  if fs.pathExists path then .bind true path else ⟨.directoryMask, path, true⟩

def readDenyMount (fs : FileSystem) (path : Path) : Mount :=
  ⟨if fs.isDir path then .directoryMask else .fileMask, path, true⟩

def mounts (host : Host) (fs : FileSystem) (spec : SandboxSpec) (program helper proxy : Option Path) :
    List Mount :=
  baseMounts fs spec program helper ++ [⟨.proc, ["proc"], false⟩, ⟨.dev, ["dev"], false⟩] ++
    scopeMounts host spec ++
    proxy.toList.map (.bind true) ++
    (scopedWriteDeny host spec).map (writeDenyMount fs) ++
    -- An override is bound after every denial, those that lie inside it included.
    spec.writeOverride.map (.bind false) ++
    (spec.readDeny.filter fs.pathExists).map (readDenyMount fs) ++
    spec.readOverride.map (.bind true) ++
    (if needsHelper spec then [⟨.bpf, host.bpf, true⟩] else [])

/-- The capabilities that cannot be enforced for this specification. -/
def futureDeny (fs : FileSystem) (spec : SandboxSpec) : CapabilitySet :=
  if hasFutureDeny fs spec then {.fsReadDeny} else ∅

def enforcedBy (fs : FileSystem) (spec : SandboxSpec) (enforced : CapabilitySet) : CapabilitySet :=
  let enforced := enforced \ futureDeny fs spec
  let enforced := if spec.network = .enabled then enforced \ {.ipcRestrict} else enforced
  if spec.degradation = .allowCaveats ∧ spec.write = .ephemeral then enforced ∪ {.fsWriteDeny}
  else enforced

def seccompHelper (host : Host) (spec : SandboxSpec) : Except SandboxError (Option Path) :=
  if needsHelper spec then
    match host.currentExe with
    | some exe => .ok (some exe)
    | none => .error (.backendIo .bubblewrap)
  else .ok none

def proxyParent (spec : SandboxSpec) : Except SandboxError (Option Path) :=
  match spec.proxySocket with
  | some socket =>
    match parent socket with
    | some dir => .ok (some dir)
    | none => .error (.invalidMountPath .bubblewrap socket)
  | none => .ok none

/-- The view that a plan is compiled to. -/
def view (host : Host) (fs : FileSystem) (spec : SandboxSpec) (program helper proxy : Option Path) :
    MountView :=
  ⟨⟨false, false⟩, .off, mounts host fs spec program helper proxy, []⟩

def compile (host : Host) (fs : FileSystem) (spec : SandboxSpec) (program : Option Path)
    (requested enforced : CapabilitySet) : Except SandboxError Plan := do
  if spec.unixSockets ≠ [] then
    throw (.enforcementUnavailable .bubblewrap "Unix-domain socket path grants")
  if spec.network = .outbound ∧ spec.proxyPort.isSome ≠ spec.proxySocket.isSome then
    throw (.enforcementUnavailable .bubblewrap "complete scoped proxy endpoint")
  let unavailable := (requested \ Backend.bubblewrap.capabilities) ∪ futureDeny fs spec
  if spec.degradation = .reject ∧ unavailable \ spec.tolerated ≠ ∅ then
    throw (.backendCapabilities .bubblewrap (unavailable \ spec.tolerated))
  (rejectProtectedSymlinks host fs spec).elim (pure ()) throw
  let helper ← seccompHelper host spec
  let proxy ← proxyParent spec
  return {
    backend := .bubblewrap
    requested := requested
    enforced := enforcedBy fs spec enforced
    files := .view (view host fs spec program helper proxy) }

/-- The paths that are made read only after the overrides. -/
def shut (host : Host) (fs : FileSystem) (spec : SandboxSpec) (path : Path) : Bool :=
  (needsHelper spec && host.bpf.isPrefixOf path) || pathUnderAny path spec.readOverride ||
    pathUnderAny path (spec.readDeny.filter fs.pathExists)

section
variable {host : Host} {fs : FileSystem} {spec : SandboxSpec} {program helper proxy : Option Path}

theorem allowsWrite_eq (mount : Mount) :
    (view host fs spec program helper proxy).allowsWrite mount = (mount.isHost && !mount.readOnly) := by
  simp [MountView.allowsWrite, view]

theorem readOnly_writeDenyMount (path : Path) : (writeDenyMount fs path).readOnly = true := by
  unfold writeDenyMount
  split <;> rfl

theorem target_writeDenyMount (path : Path) : (writeDenyMount fs path).target = path := by
  unfold writeDenyMount
  split <;> rfl

theorem readOnly_baseMounts (h : m ∈ baseMounts fs spec program helper) :
    (m.isHost && !m.readOnly) = false := by
  unfold baseMounts at h
  split at h
  · cases List.mem_singleton.1 h
    rfl
  · rcases List.mem_cons.1 h with rfl | h
    · rfl
    · obtain ⟨path, -, rfl⟩ := List.mem_map.1 h
      simp [Mount.bind]

/-- The writable roots that are bound. -/
def openScopes (host : Host) (spec : SandboxSpec) : List Path :=
  spec.temporary .bubblewrap host ++ if spec.WritableMode then spec.writable else []

theorem scopeMounts_eq : scopeMounts host spec = (openScopes host spec).map (.bind false) := by
  unfold scopeMounts openScopes
  split <;> simp

theorem verdict_writable (path : Path) :
    Layers.verdict (Mount.covers path) (fun m => m.isHost && !m.readOnly)
        (baseMounts fs spec program helper ++
          [⟨.proc, ["proc"], false⟩, ⟨.dev, ["dev"], false⟩] ++ scopeMounts host spec ++
          proxy.toList.map (.bind true) ++ (scopedWriteDeny host spec).map (writeDenyMount fs)) =
      some true ↔
    pathUnderAny path (scopedWriteDeny host spec) = false ∧
      pathUnderAny path proxy.toList = false ∧ pathUnderAny path (openScopes host spec) = true := by
  have hbase : ∀ m ∈ baseMounts fs spec program helper ++
      [⟨.proc, ["proc"], false⟩, ⟨.dev, ["dev"], false⟩], (m.isHost && !m.readOnly) = false := by
    intro m hm
    rcases List.mem_append.1 hm with hm | hm
    · exact readOnly_baseMounts hm
    · rcases List.mem_cons.1 hm with rfl | hm
      · rfl
      · cases List.mem_singleton.1 hm
        rfl
  have hdeny : ∀ m ∈ (scopedWriteDeny host spec).map (writeDenyMount fs),
      (m.isHost && !m.readOnly) = false := by
    intro m hm
    obtain ⟨denied, -, rfl⟩ := List.mem_map.1 hm
    simp [readOnly_writeDenyMount]
  have hproxy : ∀ m ∈ proxy.toList.map (Mount.bind true), (m.isHost && !m.readOnly) = false := by
    intro m hm
    obtain ⟨dir, -, rfl⟩ := List.mem_map.1 hm
    simp [Mount.bind]
  have hscope : ∀ m ∈ (openScopes host spec).map (Mount.bind false),
      (m.isHost && !m.readOnly) = true := by
    intro m hm
    obtain ⟨scope, -, rfl⟩ := List.mem_map.1 hm
    simp [Mount.bind, Mount.isHost]
  rw [Layers.verdict_append_uniform hdeny, Layers.verdict_append_uniform hproxy, scopeMounts_eq,
    Layers.verdict_append_uniform hscope, ← List.nil_append (baseMounts fs spec program helper ++ _),
    Layers.verdict_append_uniform hbase, any_covers_map target_writeDenyMount,
    any_covers_map fun _ => rfl, any_covers_map fun _ => rfl]
  simp only [Layers.verdict, Layers.deciding]
  grind

theorem verdict_shut (path : Path) (under : List Mount) :
    Layers.verdict (Mount.covers path) (fun m => m.isHost && !m.readOnly)
        (under ++ (spec.readDeny.filter fs.pathExists).map (readDenyMount fs) ++
          spec.readOverride.map (.bind true) ++
          (if needsHelper spec then [⟨.bpf, host.bpf, true⟩] else [])) =
      if shut host fs spec path then some false
      else Layers.verdict (Mount.covers path) (fun m => m.isHost && !m.readOnly) under := by
  have hbpf : ∀ m ∈ (if needsHelper spec then [(⟨.bpf, host.bpf, true⟩ : Mount)] else []),
      (m.isHost && !m.readOnly) = false := by
    intro m hm
    split at hm
    · cases List.mem_singleton.1 hm
      rfl
    · cases hm
  have hoverride : ∀ m ∈ spec.readOverride.map (Mount.bind true),
      (m.isHost && !m.readOnly) = false := by
    intro m hm
    obtain ⟨scope, -, rfl⟩ := List.mem_map.1 hm
    simp [Mount.bind]
  have hdeny : ∀ m ∈ (spec.readDeny.filter fs.pathExists).map (readDenyMount fs),
      (m.isHost && !m.readOnly) = false := by
    intro m hm
    obtain ⟨denied, -, rfl⟩ := List.mem_map.1 hm
    simp [readDenyMount]
  rw [Layers.verdict_append_uniform hbpf, Layers.verdict_append_uniform hoverride,
    Layers.verdict_append_uniform hdeny, any_covers_map fun _ => rfl, any_covers_map fun _ => rfl]
  unfold shut
  cases needsHelper spec <;> simp [Mount.covers] <;> grind

/-- Where a plan lets the host be written. -/
theorem writable_iff (path : Path) :
    (view host fs spec program helper proxy).writable path = true ↔
      shut host fs spec path = false ∧
      (pathUnderAny path spec.writeOverride = true ∨
        pathUnderAny path (scopedWriteDeny host spec) = false ∧
        pathUnderAny path proxy.toList = false ∧ pathUnderAny path (openScopes host spec) = true) := by
  have hoverride : ∀ m ∈ spec.writeOverride.map (Mount.bind false),
      (m.isHost && !m.readOnly) = true := by
    intro m hm
    obtain ⟨scope, -, rfl⟩ := List.mem_map.1 hm
    simp [Mount.bind, Mount.isHost]
  have hallows : (view host fs spec program helper proxy).allowsWrite =
      fun m => m.isHost && !m.readOnly := funext allowsWrite_eq
  rw [MountView.writable, hallows, show (view host fs spec program helper proxy).mounts =
    mounts host fs spec program helper proxy from rfl, mounts, verdict_shut,
    Layers.verdict_append_uniform hoverride, any_covers_map fun _ => rfl, ← verdict_writable path]
  cases shut host fs spec path
  · cases pathUnderAny path spec.writeOverride
    · simp only [view]
      generalize Layers.verdict _ _ _ = result
      rcases result with _ | _ | _ <;> simp
    · simp
  · simp

/-- Under a denial that is mounted only an override can be read. -/
theorem readable_denied {path : Path}
    (hdenied : pathUnderAny path (spec.readDeny.filter fs.pathExists) = true) :
    (view host fs spec program helper proxy).readable path = true ↔
      ¬ (needsHelper spec = true ∧ host.bpf <+: path) ∧
        pathUnderAny path spec.readOverride = true := by
  have hbpf : ∀ m ∈ (if needsHelper spec then [(⟨.bpf, host.bpf, true⟩ : Mount)] else []),
      m.isHost = false := by
    intro m hm
    split at hm
    · cases List.mem_singleton.1 hm
      rfl
    · cases hm
  have hoverride : ∀ m ∈ spec.readOverride.map (Mount.bind true), m.isHost = true := by
    intro m hm
    obtain ⟨scope, -, rfl⟩ := List.mem_map.1 hm
    simp [Mount.bind, Mount.isHost]
  have hdeny : ∀ m ∈ (spec.readDeny.filter fs.pathExists).map (readDenyMount fs),
      m.isHost = false := by
    intro m hm
    obtain ⟨denied, -, rfl⟩ := List.mem_map.1 hm
    unfold readDenyMount
    split <;> rfl
  rw [MountView.readable, show (view host fs spec program helper proxy).mounts =
    mounts host fs spec program helper proxy from rfl, mounts, Layers.verdict_append_uniform hbpf,
    Layers.verdict_append_uniform hoverride, Layers.verdict_append_uniform hdeny,
    any_covers_map fun _ => rfl, any_covers_map fun _ => rfl, if_pos hdenied]
  cases needsHelper spec <;> cases pathUnderAny path spec.readOverride <;>
    by_cases hle : host.bpf <+: path <;> simp [Mount.covers, hle]

/-- No mount uncovers what a denial inside it closes. -/
structure NothingReopened (host : Host) (fs : FileSystem) (spec : SandboxSpec)
    (proxy : Option Path) : Prop where
  /-- A write denial inside a write override is an override too, or is made read only later. -/
  write_override : ∀ scope ∈ spec.writeOverride, ∀ denied ∈ spec.writeDeny, Below scope denied →
    fs.Possible denied → denied ∈ spec.writeOverride ∨ shut host fs spec denied = true
  /-- A scope inside a write denial is covered by another entry. -/
  scopes : ∀ denied ∈ spec.writeDeny, ∀ scope ∈ spec.writable ++ spec.temporary .bubblewrap host,
    Below denied scope → fs.Possible scope →
    pathUnderAny scope spec.writeOverride = true ∨ shut host fs spec scope = true ∨
      pathUnderAny scope (scopedWriteDeny host spec) = true ∨
      pathUnderAny scope proxy.toList = true
  /-- A read denial inside a read override is an override too, or is the filter's own file. -/
  read_override : ∀ scope ∈ spec.readOverride, ∀ denied ∈ spec.readDeny, Below scope denied →
    fs.Possible denied →
    denied ∈ spec.readOverride ∨ (needsHelper spec = true ∧ host.bpf <+: denied)

theorem shut_mono {path : Path} (h : shut host fs spec scope = true) (hle : scope <+: path) :
    shut host fs spec path = true := by
  simp only [shut, Bool.or_eq_true, Bool.and_eq_true, List.isPrefixOf_iff_prefix] at h ⊢
  rcases h with (⟨hneeds, h⟩ | h) | h
  · exact .inl (.inl ⟨hneeds, h.trans hle⟩)
  · exact .inl (.inr (pathUnderAny_mono h hle))
  · exact .inr (pathUnderAny_mono h hle)

theorem mem_openScopes (hmode : spec.writable ≠ [] → spec.WritableMode) :
    scope ∈ openScopes host spec ↔ scope ∈ spec.writable ++ spec.temporary .bubblewrap host := by
  rw [openScopes, List.mem_append, List.mem_append, or_comm]
  refine or_congr_left ⟨fun h => ?_, fun h => ?_⟩
  · split at h
    · exact h
    · cases h
  · rw [if_pos (hmode (List.ne_nil_of_mem h))]
    exact h

theorem asksWrite_of_writable (hmode : spec.writable ≠ [] → spec.WritableMode)
    (h : NothingReopened host fs spec proxy) (hpath : fs.Possible path)
    (hwritable : (view host fs spec program helper proxy).writable path = true) :
    spec.AsksWrite .bubblewrap host path := by
  obtain ⟨hshut, hopen⟩ := (writable_iff path).1 hwritable
  by_cases hoverride : pathUnderAny path spec.writeOverride = true
  · refine .of_override hoverride fun scope hmem denied hdenied hbelow hle => ?_
    rcases h.write_override scope hmem denied hdenied hbelow (hpath.mono hle) with h | h
    · exact h
    · exact absurd (shut_mono h hle) (Bool.eq_false_iff.1 hshut)
  · obtain ⟨hdeny, hproxy, hscope⟩ := hopen.resolve_left hoverride
    obtain ⟨scope, hmem, hle⟩ := pathUnderAny_iff.1 hscope
    have hmem := (mem_openScopes hmode).1 hmem
    refine .inl ⟨pathUnderAny_iff.2 ⟨scope, hmem, hle⟩, pathUnderAny_false.2 fun denied hd hdle => ?_⟩
    rcases below_or_above hdle hle with hbelow | hbelow
    · -- The scope lies inside the denial, which is therefore outside every scope that is bound.
      rcases h.scopes denied hd scope hmem hbelow (hpath.mono hle) with h | h | h | h
      · exact hoverride (pathUnderAny_mono h hle)
      · exact Bool.eq_false_iff.1 hshut (shut_mono h hle)
      · exact Bool.eq_false_iff.1 hdeny (pathUnderAny_mono h hle)
      · exact Bool.eq_false_iff.1 hproxy (pathUnderAny_mono h hle)
    · have hunder : denied ∈ scopedWriteDeny host spec := by
        refine List.mem_filter.2 ⟨hd, ?_⟩
        rw [Bool.or_eq_true]
        rcases List.mem_append.1 hmem with hm | hm
        · exact .inl (pathUnderAny_iff.2 ⟨scope, hm, hbelow⟩)
        · exact .inr (pathUnderAny_iff.2 ⟨scope, hm, hbelow⟩)
      exact pathUnderAny_false.1 hdeny denied hunder hdle

theorem asksRead_of_readable (hexists : ∀ denied ∈ spec.readDeny, fs.pathExists denied = true)
    (h : NothingReopened host fs spec proxy) (hpath : fs.Possible path)
    (hreadable : (view host fs spec program helper proxy).readable path = true) :
    spec.AsksRead path := by
  have hmask : spec.readDeny.filter fs.pathExists = spec.readDeny := List.filter_eq_self.2 hexists
  have hread : ∀ denied ∈ spec.readDeny, denied <+: path →
      ¬ (needsHelper spec = true ∧ host.bpf <+: path) ∧
        pathUnderAny path spec.readOverride = true := by
    intro denied hdenied hle
    refine (readable_denied ?_).1 hreadable
    rw [hmask]
    exact pathUnderAny_iff.2 ⟨denied, hdenied, hle⟩
  refine .of_override (fun denied hdenied hle => (hread denied hdenied hle).2) ?_
  intro scope hmem denied hdenied hbelow hle
  rcases h.read_override scope hmem denied hdenied hbelow (hpath.mono hle) with h | ⟨hn, h⟩
  · exact h
  · exact absurd ⟨hn, h.trans hle⟩ (hread denied hdenied hle).1

/-- A view opens no more than asked exactly when nothing is reopened. -/
theorem opensNoMore_iff (hmode : spec.writable ≠ [] → spec.WritableMode)
    (hexists : ∀ denied ∈ spec.readDeny, fs.pathExists denied = true) :
    (∀ path, fs.Possible path →
      ((view host fs spec program helper proxy).writable path = true →
        spec.AsksWrite .bubblewrap host path) ∧
      ((view host fs spec program helper proxy).readable path = true → spec.AsksRead path)) ↔
      NothingReopened host fs spec proxy := by
  constructor
  · intro h
    refine ⟨fun scope hmem denied hdenied hbelow hpath => ?_,
      fun denied hdenied scope hmem hbelow hpath => ?_,
      fun scope hmem denied hdenied hbelow hpath => ?_⟩
    · by_contra hnot
      obtain ⟨hnot, hshut⟩ := not_or.1 hnot
      refine hnot (((h denied hpath).1 ((writable_iff denied).2 ?_)).override_of_denied hdenied)
      exact ⟨Bool.eq_false_iff.2 hshut, .inl (pathUnderAny_iff.2 ⟨scope, hmem, hbelow.1⟩)⟩
    · by_contra hnot
      simp only [not_or, Bool.not_eq_true] at hnot
      obtain ⟨hoverride, hshut, hdeny, hproxy⟩ := hnot
      have hwrite := (h scope hpath).1 ((writable_iff scope).2 ⟨hshut, .inr ⟨hdeny, hproxy,
        pathUnderAny_of_mem ((mem_openScopes hmode).2 hmem)⟩⟩)
      rcases hwrite with ⟨-, hfree⟩ | ⟨outer, ho, hle, -⟩
      · exact pathUnderAny_false.1 hfree denied hdenied hbelow.1
      · exact pathUnderAny_false.1 hoverride outer ho hle
    · by_contra hnot
      obtain ⟨hnot, hbpf⟩ := not_or.1 hnot
      have hmask : denied ∈ spec.readDeny.filter fs.pathExists :=
        List.mem_filter.2 ⟨hdenied, hexists denied hdenied⟩
      refine hnot (((h denied hpath).2 ((readable_denied (pathUnderAny_of_mem hmask)).2
        ⟨hbpf, ?_⟩)).override_of_denied hdenied)
      exact pathUnderAny_iff.2 ⟨scope, hmem, hbelow.1⟩
  · intro h path hpath
    exact ⟨asksWrite_of_writable hmode h hpath, asksRead_of_readable hexists h hpath⟩

/-- The directory of the proxy's socket. -/
def proxyDir (spec : SandboxSpec) : Option Path := spec.proxySocket.bind parent

theorem proxyParent_ok (h : proxyParent spec = .ok proxy) : proxy = proxyDir spec := by
  unfold proxyParent at h
  unfold proxyDir
  cases hsocket : spec.proxySocket with
  | none =>
    rw [hsocket] at h
    cases h
    rfl
  | some socket =>
    simp only [hsocket] at h
    cases hparent : parent socket with
    | none =>
      rw [hparent] at h
      cases h
    | some dir =>
      rw [hparent] at h
      cases h
      exact hparent.symm

theorem not_mem_enforcedBy (h : hasFutureDeny fs spec = true) :
    Capability.fsReadDeny ∉ enforcedBy fs spec enforced := by
  have hfuture : Capability.fsReadDeny ∉ enforced \ futureDeny fs spec := by
    simp [futureDeny, h]
  unfold enforcedBy
  split <;> split <;> simp_all

/-- What a compiled plan is, and what it means that it claims the read denials. -/
theorem compile_ok {plan : Plan}
    (h : compile host fs spec program requested enforced = .ok plan) :
    plan.backend = .bubblewrap ∧
      (∃ helper, plan.files = .view (view host fs spec program helper (proxyDir spec))) ∧
      (Capability.fsReadDeny ∈ plan.enforced → hasFutureDeny fs spec = false) := by
  simp only [compile, Except.ite_throw_eq_ok] at h
  obtain ⟨-, -, -, h⟩ := h
  obtain ⟨-, h⟩ := Except.unit_bind_eq_ok.1 h
  obtain ⟨helper, -, h⟩ := Except.bind_eq_ok.1 h
  obtain ⟨proxy, hproxy, h⟩ := Except.bind_eq_ok.1 h
  cases Except.pure_eq_ok.1 h
  refine ⟨rfl, ⟨helper, proxyParent_ok hproxy ▸ rfl⟩, fun hmem => ?_⟩
  by_contra hfuture
  exact not_mem_enforcedBy (Bool.not_eq_false _ ▸ hfuture) hmem

end

end OhMyPi.Sandbox.Bubblewrap
