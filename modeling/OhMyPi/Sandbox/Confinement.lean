import OhMyPi.Sandbox.Bubblewrap
import OhMyPi.Sandbox.Gvisor
import OhMyPi.Sandbox.Seatbelt

/-! Compilation of plans (`sandbox/src/runner.rs`), and when a plan opens no more files than its
specification asks for. -/

namespace OhMyPi.Sandbox

/-- The backend's own compiler. Without a program a wrapper is compiled, which gVisor has none of. -/
def Backend.compile (host : Host) (fs : FileSystem) (spec : SandboxSpec) (program : Option Path)
    (requested enforced : CapabilitySet) : Backend → Except SandboxError Plan
  | .seatbelt => Seatbelt.compile host fs spec program requested enforced
  | .bubblewrap => Bubblewrap.compile host fs spec program requested enforced
  | .gvisor =>
    match program with
    | some program => Gvisor.compile host fs spec program requested enforced
    | none => .error (.commandWrapperUnsupported .gvisor)

def compileProgram (host : Host) (fs : FileSystem) (backend : Backend) (spec : SandboxSpec)
    (program : Option Path) : Except SandboxError Plan := do
  spec.validate backend host
  let requested := spec.requestedCapabilities
  let enforced := requested ∩ backend.capabilities
  let plan ← backend.compile host fs spec program requested enforced
  if spec.degradation = .reject ∧ (requested \ plan.enforced) \ spec.tolerated ≠ ∅ then
    throw (.backendCapabilities backend ((requested \ plan.enforced) \ spec.tolerated))
  return plan

section
variable {host : Host} {fs : FileSystem} {spec : SandboxSpec} {backend : Backend}
  {program : Option Path} {plan : Plan} {kernel : Kernel}

/-- Scopes and temporary roots come with a mode that writes to them. -/
theorem writableMode_of_validate (h : spec.validate backend host = .ok ()) :
    (spec.allowTemp = true → spec.WritableMode) ∧ (spec.writable ≠ [] → spec.WritableMode) := by
  simp only [SandboxSpec.validate, Except.ite_throw_eq_ok] at h
  obtain ⟨htemp, hwritable, -⟩ := h
  constructor
  · intro hallow
    by_contra hmode
    exact htemp ⟨hallow, hmode⟩
  · intro hne
    by_contra hmode
    exact hwritable ⟨hne, hmode⟩

/-- The specification nests nothing that the backend's order of entries would reopen. -/
def NothingReopened (host : Host) (fs : FileSystem) (spec : SandboxSpec) : Backend → Prop
  | .seatbelt => Seatbelt.NothingReopened fs spec
  | .bubblewrap => Bubblewrap.NothingReopened host fs spec (Bubblewrap.proxyDir spec)
  | .gvisor => Gvisor.NothingReopened host fs spec

theorem Bubblewrap.exists_of_hasFutureDeny (h : Bubblewrap.hasFutureDeny fs spec = false) :
    ∀ denied ∈ spec.readDeny, fs.pathExists denied = true := by
  simpa [Bubblewrap.hasFutureDeny] using h

/-- A plan that claims the denials opens no more than asked exactly when nothing is reopened. -/
theorem opensNoMore_iff_nothingReopened
    (h : compileProgram host fs backend spec program = .ok plan)
    (hclaims : plan.ClaimsDenials spec) :
    plan.OpensNoMore kernel host fs spec ↔ NothingReopened host fs spec backend := by
  obtain ⟨hvalid, h⟩ := Except.unit_bind_eq_ok.1 h
  obtain ⟨htemp, hmode⟩ := writableMode_of_validate hvalid
  obtain ⟨compiled, hcompile, h⟩ := Except.bind_eq_ok.1 h
  obtain ⟨-, h⟩ := Except.ite_throw_eq_ok.1 h
  cases Except.pure_eq_ok.1 h
  cases backend with
  | seatbelt =>
    cases hcompile
    exact Seatbelt.opensNoMore_iff
  | bubblewrap =>
    obtain ⟨hbackend, ⟨helper, hfiles⟩, hfuture⟩ := Bubblewrap.compile_ok hcompile
    have hexists : ∀ denied ∈ spec.readDeny, fs.pathExists denied = true := by
      intro denied hdenied
      exact Bubblewrap.exists_of_hasFutureDeny (hfuture (hclaims.1 (List.ne_nil_of_mem hdenied)))
        denied hdenied
    unfold Plan.OpensNoMore
    rw [hbackend, hfiles]
    exact Bubblewrap.opensNoMore_iff hmode hexists
  | gvisor =>
    cases program with
    | none => cases hcompile
    | some program =>
      obtain ⟨hbackend, ⟨v, hview, hfiles⟩, hmountable⟩ := Gvisor.compile_ok hcompile
      unfold Plan.OpensNoMore
      rw [hbackend, hfiles]
      exact Gvisor.opensNoMore_iff hmode htemp (hmountable hclaims) hview

end

/-- A host whose every path is a directory. -/
def sampleFs : FileSystem where
  pathExists _ := true
  isDir _ := true
  lstat _ := .directory
  canonicalize path := some path
  lstat_of_exists _ _ := rfl

def sampleHost : Host := ⟨none, some ["usr", "bin", "omp"], ["tmp", "bpf"], ["tmp", "copy"]⟩

def sampleKernel : Kernel := ⟨fun _ _ => false, fun _ _ => false⟩

/-- The scope `/w` with the denial `/w/d`, and an override. -/
def sampleSpec (reopened : Path) : SandboxSpec :=
  { SandboxSpec.new with
    write := .scoped
    writable := [["w"]]
    writeDeny := [["w", "d"]]
    writeOverride := [reopened] }

def samplePlan (reopened : Path) : Plan where
  backend := .bubblewrap
  requested := (sampleSpec reopened).requestedCapabilities
  enforced := (sampleSpec reopened).requestedCapabilities
  files := .view (Bubblewrap.view sampleHost sampleFs (sampleSpec reopened) (some ["bin", "true"])
    (some ["usr", "bin", "omp"]) none)

theorem opensNoMore_iff_nothingReopened_sample :
    compileProgram sampleHost sampleFs .bubblewrap (sampleSpec ["w", "d", "o"])
        (some ["bin", "true"]) = .ok (samplePlan ["w", "d", "o"]) ∧
      (samplePlan ["w", "d", "o"]).ClaimsDenials (sampleSpec ["w", "d", "o"]) ∧
      ((samplePlan ["w", "d", "o"]).OpensNoMore sampleKernel sampleHost sampleFs
          (sampleSpec ["w", "d", "o"]) ↔
        NothingReopened sampleHost sampleFs (sampleSpec ["w", "d", "o"]) .bubblewrap) := by
  have hplan : compileProgram sampleHost sampleFs .bubblewrap (sampleSpec ["w", "d", "o"])
      (some ["bin", "true"]) = .ok (samplePlan ["w", "d", "o"]) := rfl
  have hclaims : (samplePlan ["w", "d", "o"]).ClaimsDenials (sampleSpec ["w", "d", "o"]) :=
    ⟨fun h => absurd rfl h, fun _ => by decide⟩
  exact ⟨hplan, hclaims, opensNoMore_iff_nothingReopened hplan hclaims⟩

/-- An override at `/w` opens the denial `/w/d` again, although every guarantee is claimed. -/
theorem override_reopens_denial :
    compileProgram sampleHost sampleFs .bubblewrap (sampleSpec ["w"]) (some ["bin", "true"]) =
        .ok (samplePlan ["w"]) ∧
      (samplePlan ["w"]).requested = (samplePlan ["w"]).enforced ∧
      ¬ (samplePlan ["w"]).OpensNoMore sampleKernel sampleHost sampleFs (sampleSpec ["w"]) := by
  refine ⟨rfl, rfl, fun h => ?_⟩
  have hpath : sampleFs.Possible ["w", "d"] := fun _ _ _ => rfl
  have hasks : (sampleSpec ["w"]).AsksWrite .bubblewrap sampleHost ["w", "d"] :=
    (h ["w", "d"] hpath).1 rfl
  exact absurd (hasks.override_of_denied (List.mem_singleton.2 rfl)) (by decide)

end OhMyPi.Sandbox
