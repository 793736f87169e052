import OhMyPi.Console.Context
import Mathlib.Logic.Relation

/-! Confinement of project overlays: whatever text a repository supplies, evaluating it with project
authority does nothing but set and reset variables that carry the project flag, in one layer. -/

namespace OhMyPi.Console

open Relation (ReflTransGen)

variable {Float Span : Type} [BEq Float] [BEq Span]

/-! ### Names -/

theorem toLower_of_isUpper_eq_false {c : Char} (h : c.isUpper = false) : c.toLower = c :=
  dif_neg (of_decide_eq_false h)

theorem isUpper_toLower (c : Char) : c.toLower.isUpper = false := by
  cases h : c.isUpper with
  | false => rw [toLower_of_isUpper_eq_false h, h]
  | true =>
    have hupper := of_decide_eq_true h
    have hlower : c.toLower.val = c.val + 32 := congrArg Char.val (dif_pos hupper)
    apply decide_eq_false
    rw [hlower]
    intro hstill
    have hge : 65 ≤ c.val.toNat := UInt32.le_iff_toNat_le.1 hupper.1
    have hle : (c.val + 32).toNat ≤ 90 := UInt32.le_iff_toNat_le.1 hstill.2
    have hle' : c.val.toNat ≤ 90 := UInt32.le_iff_toNat_le.1 hupper.2
    rw [UInt32.toNat_add, Nat.mod_eq_of_lt] at hle
    · have hgap : (32 : UInt32).toNat = 32 := rfl
      omega
    · have hgap : (32 : UInt32).toNat = 32 := rfl
      omega

theorem foldName_eq_self (h : name.any Char.isUpper = false) : foldName name = name := by
  rw [List.any_eq_false] at h
  refine (List.map_congr_left fun c hc => ?_).trans (List.map_id name)
  exact toLower_of_isUpper_eq_false (Bool.eq_false_iff.2 (h c hc))

theorem foldName_foldName (name : Str) : foldName (foldName name) = foldName name := by
  apply foldName_eq_self
  rw [List.any_eq_false]
  intro c hc
  obtain ⟨c', -, rfl⟩ := List.mem_map.1 hc
  rw [isUpper_toLower]
  exact Bool.false_ne_true

namespace Registry

variable {reg : Registry Float Span}

theorem names_of_lookup (h : reg.lookup name = some item) : ∃ key, reg.names key = some item := by
  rw [lookup] at h
  split at h
  next hnames =>
    cases h
    exact ⟨_, hnames⟩
  next =>
    split at h
    · exact ⟨_, h⟩
    · cases h

/-- An item is found again under its own name, however that is spelled. -/
theorem lookup_name (h : reg.lookup name = some item) : reg.lookup item.name = some item := by
  obtain ⟨key, hkey⟩ := names_of_lookup h
  have hfold := reg.folded hkey
  rw [lookup]
  split
  next item' hitem' =>
    have hself : foldName item.name = item.name := by
      rw [← reg.folded hitem', foldName_foldName]
    rw [← hfold, hself, hitem'] at hkey
    exact hkey
  next hnone =>
    split
    · rw [hfold, hkey]
    next hupper =>
      rw [← hfold, foldName_eq_self (Bool.eq_false_iff.2 hupper), hnone] at hkey
      cases hkey

theorem var_eq_ok (h : reg.var name = .ok v) : ∃ item, reg.lookup name = some item ∧
    item.name = v.name ∧ ((∃ spec, item = .var spec ∧ v = spec.ref) ∨
      ∃ spec, item = .dynamicVar spec ∧ v = spec.ref) := by
  rw [var] at h
  split at h
  · cases h
  next spec hlookup =>
    cases h
    exact ⟨_, hlookup, rfl, .inl ⟨spec, rfl, rfl⟩⟩
  next spec hlookup =>
    cases h
    exact ⟨_, hlookup, rfl, .inr ⟨spec, rfl, rfl⟩⟩
  · cases h

theorem var_name (h : reg.var name = .ok v) : reg.var v.name = .ok v := by
  obtain ⟨item, hlookup, hname, ⟨spec, rfl, rfl⟩ | ⟨spec, rfl, rfl⟩⟩ := var_eq_ok h
  · rw [var, ← hname, lookup_name hlookup]
  · rw [var, ← hname, lookup_name hlookup]

/-! ### What an overlay may do -/

/-- The name is one of a variable with the project flag. -/
def ProjectVar (reg : Registry Float Span) (v : VarRef Float Span) : Prop :=
  reg.var v.name = .ok v ∧ v.flags.project = true

/-- One step of a confined evaluation: a reply, the start of a `reset`, an entry of the origin's layer
set or removed for a project variable after the gates were passed, its slot brought up to date, and
the host's reaction to that. -/
inductive Confined (reg : Registry Float Span) (origin : Origin) :
    State (Value Float Span) → State (Value Float Span) → Prop
  | said (s reply) : Confined reg origin s { s with output := s.output ++ [reply] }
  | resets (s args)
      (h : ∀ target v, args.head? = some (.atom target) → reg.var target = .ok v → reg.ProjectVar v) :
      Confined reg origin s { s with ran := s.ran ++ [.command resetName args] }
  | committed (s v value) (h : reg.ProjectVar v) (hgates : reg.checkGates s v .script = .ok ()) :
      Confined reg origin s (commit v.name value origin s)
  | stored (s v value) (h : reg.ProjectVar v) : Confined reg origin s (reg.store v value .script s)
  | reacted (s v old value) (h : reg.ProjectVar v) :
      Confined reg origin s (reg.react v old value s)

variable {origin : Origin}

theorem confined_applyEffective {s : State (Value Float Span)} (hv : reg.ProjectVar v)
    (value : Value Float Span) :
    ReflTransGen (reg.Confined origin) s (reg.applyEffective v value .script s).2 := by
  rw [applyEffective]
  split
  · exact .refl
  · apply ReflTransGen.tail _ (.reacted _ v _ value hv)
    split
    · exact (ReflTransGen.single (.stored s v value hv)).tail (.said _ _)
    · exact .single (.stored s v value hv)

theorem checkValue_eq_ok {s : State (Value Float Span)} (h : reg.checkValue s v value source = .ok value') :
    reg.checkGates s v source = .ok () := by
  rw [checkValue] at h
  cases hgates : reg.checkGates s v source with
  | ok _ => rfl
  | error e =>
    rw [hgates] at h
    split at h
    · split at h <;> cases h
    · cases h

/-- The two origins of project overlays. -/
def Overlay (origin : Origin) : Prop := origin = .project ∨ origin = .agentClass

theorem Overlay.commitTo (h : Overlay origin) (name : Str) (value : Option (Value Float Span))
    (layers : Layers (Value Float Span)) : (commitTo name value layers origin).2 = false := by
  rcases h with rfl | rfl
  · rfl
  · rfl

theorem Overlay.statementSource (h : Overlay origin) : statementSource origin = .script := by
  rcases h with rfl | rfl
  · rfl
  · rfl

theorem confined_commitLayerSource {s : State (Value Float Span)} (horigin : Overlay origin)
    (hv : reg.ProjectVar v) (value : Value Float Span) :
    ReflTransGen (reg.Confined origin) s (reg.commitLayerSource v value origin .script s).2 := by
  rw [commitLayerSource]
  split
  · exact .refl
  next value' hvalue =>
    have hcommitted : reg.Confined origin s (commit v.name (some value') origin s) :=
      .committed s v (some value') hv (checkValue_eq_ok hvalue)
    dsimp only
    rw [horigin.commitTo, Bool.and_false, if_neg Bool.false_ne_true]
    exact .head hcommitted (confined_applyEffective hv _)

theorem confined_unset {s : State (Value Float Span)} (horigin : Overlay origin)
    (hname : ∀ v, reg.var name = .ok v → reg.ProjectVar v) :
    ReflTransGen (reg.Confined origin) s (reg.unset name origin s).2 := by
  rw [unset]
  split
  · exact .refl
  next v hvar =>
    rw [horigin.statementSource]
    split
    · exact .refl
    next hgates =>
      have hv := hname v hvar
      dsimp only
      rw [horigin.commitTo, Bool.false_and, Bool.false_and, if_neg Bool.false_ne_true, refresh, hv.1]
      exact .head (.committed s v none hv hgates) (confined_applyEffective hv _)

theorem confined_dispatchVar {s : State (Value Float Span)} (horigin : Overlay origin)
    (hv : reg.ProjectVar v) (args : List Arg) :
    ReflTransGen (reg.Confined origin) s (reg.dispatchVar v args origin s).2 := by
  rw [dispatchVar]
  split
  · exact .single (.said _ _)
  · split
    · exact .refl
    · rw [horigin.statementSource]
      exact confined_commitLayerSource horigin hv _

theorem confined_runCommand {s : State (Value Float Span)} (horigin : Overlay origin)
    (hname : spec.name = resetName) (hreset : spec.handler = .reset)
    (htarget : ∀ target v, args.head? = some (.atom target) → reg.var target = .ok v →
      reg.ProjectVar v) :
    ReflTransGen (reg.Confined origin) s (reg.runCommand spec args origin s).2 := by
  rw [runCommand]
  cases hmissing : (spec.args.drop args.length).find? fun arg => arg.2 with
  | some missing => exact .refl
  | none =>
    rw [hname, hreset]
    apply ReflTransGen.head (.resets s args htarget)
    change ReflTransGen (reg.Confined origin) _ (reg.reset origin args _).2
    rw [reset]
    split
    · exact .refl
    next name hhead => exact confined_unset horigin fun v => htarget name v hhead
    · exact .refl

/-! ### Vetting and dispatch agree -/

theorem projectVar_of_requireProjectScoped (h : reg.requireProjectScoped name = .ok ())
    (hv : reg.var name = .ok v) : reg.ProjectVar v := by
  rw [requireProjectScoped, hv] at h
  dsimp only at h
  split at h
  · cases h
  next hproject => exact ⟨var_name hv, by simpa using hproject⟩

/-- A vetted statement expands no alias, moves no action and runs no command but `reset`, and the
variable it names has the project flag. -/
theorem confined_dispatch (horigin : Overlay origin)
    (expand : Str → Str → Effect (Value Float Span) Unit) (stmt : Statement)
    (s : State (Value Float Span)) :
    ReflTransGen (reg.Confined origin) s (reg.dispatch origin .project expand stmt s).2 := by
  rw [dispatch]
  split
  · exact .refl
  next name hname =>
    rw [if_pos rfl]
    split
    · exact .refl
    next hvet =>
      rw [vetProjectStatement] at hvet
      split at hvet
      · cases hvet
      next hplain =>
        simp only [Bool.or_eq_true, decide_eq_true_eq, not_or, Option.not_isSome_iff_eq_none] at hplain
        obtain ⟨⟨hplus, hminus⟩, halias⟩ := hplain
        rw [halias]
        dsimp only
        rw [if_neg hplus, if_neg hminus]
        have hvar : ∀ {v}, reg.var name = .ok v → reg.requireProjectScoped name = .ok () →
            reg.ProjectVar v := fun hv hok => projectVar_of_requireProjectScoped hok hv
        cases hlookup : reg.lookup name with
        | none => exact .refl
        | some item =>
          rw [hlookup] at hvet
          cases item with
          | var spec =>
            exact confined_dispatchVar horigin (hvar (by rw [var, hlookup]) hvet) stmt.args
          | dynamicVar spec =>
            exact confined_dispatchVar horigin (hvar (by rw [var, hlookup]) hvet) stmt.args
          | dynamicCmd cmd run => cases hvet
          | action spec => cases hvet
          | cmd spec =>
            dsimp only at hvet
            split at hvet
            next hreset =>
              obtain ⟨key, hkey⟩ := names_of_lookup hlookup
              refine confined_runCommand horigin hreset (reg.reset_builtin hkey hreset) ?_
              intro target v hhead hv
              rw [hhead] at hvet
              exact projectVar_of_requireProjectScoped hvet hv
            next => cases hvet

/-- By induction on the statements, each run in the state the one before it left. -/
theorem confined_runStatements (lenient project : Bool)
    {run : Statement → Effect (Value Float Span) Unit}
    (hrun : ∀ stmt s, ReflTransGen (reg.Confined origin) s (run stmt s).2) :
    ∀ (statements : List Statement) (outcome : ExecOutcome) (s : State (Value Float Span)),
      ReflTransGen (reg.Confined origin) s
        (runStatements lenient project run statements outcome s).2 := by
  intro statements
  induction statements with
  | nil => exact fun _ _ => .refl
  | cons stmt rest ih =>
    intro outcome s
    have hstmt := hrun stmt s
    rw [runStatements]
    dsimp only
    cases hresult : run stmt s with
    | mk result s' =>
      rw [hresult] at hstmt
      cases result with
      | ok _ => exact hstmt.trans (ih _ _)
      | error e =>
        dsimp only at hstmt ⊢
        split
        · exact (hstmt.tail (.said _ _)).trans (ih _ _)
        · exact hstmt

theorem confined_eval (horigin : Overlay origin) (src : Str) (lenient : Bool)
    (s : State (Value Float Span)) :
    ReflTransGen (reg.Confined origin) s (reg.eval src lenient origin .project s).2 := by
  rw [eval, maxDepth, evalFuel]
  dsimp only
  split
  · split
    · exact .single (.said _ _)
    · exact .refl
  · exact confined_runStatements _ _ (confined_dispatch horigin _) _ _ _

/-! ### What is left alone -/

/-- The hooks and observers of project variables keep to themselves. -/
def Passive (reg : Registry Float Span) : Prop :=
  ∀ v, reg.ProjectVar v → ∀ old value s, reg.react v old value s = s

/-- Two states differ in nothing but replies, project variables in the layer of the origin, their
slots, and `reset`s of project variables that ran. -/
structure Frame (reg : Registry Float Span) (origin : Origin)
    (s s' : State (Value Float Span)) : Prop where
  aliases : s'.aliases = s.aliases
  binds : s'.binds = s.binds
  presses : s'.presses = s.presses
  depth : s'.depth = s.depth
  sessionWrites : s'.sessionWrites = s.sessionWrites
  archive : s'.layers.archive = s.layers.archive
  inherited : s'.layers.inherited = s.layers.inherited
  session : s'.layers.session = s.layers.session
  parked : s'.layers.parked = s.layers.parked
  engagements : s'.layers.engagements = s.layers.engagements
  project : ∀ name, s'.layers.project name = s.layers.project name ∨
    origin = .project ∧ ∃ v, v.name = name ∧ reg.ProjectVar v
  agentClass : ∀ name, s'.layers.agentClass name = s.layers.agentClass name ∨
    origin = .agentClass ∧ ∃ v, v.name = name ∧ reg.ProjectVar v
  values : ∀ key, s'.values key = s.values key ∨ ∃ v, foldName v.name = key ∧ reg.ProjectVar v
  dirty : ∀ key, s'.dirty key = s.dirty key ∨ ∃ v, foldName v.name = key ∧ reg.ProjectVar v
  ran : ∃ more, s'.ran = s.ran ++ more ∧ ∀ ran ∈ more, ∃ args, ran = .command resetName args ∧
    ∀ target v, args.head? = some (.atom target) → reg.var target = .ok v → reg.ProjectVar v

theorem Frame.refl (s : State (Value Float Span)) : Frame reg origin s s where
  aliases := rfl
  binds := rfl
  presses := rfl
  depth := rfl
  sessionWrites := rfl
  archive := rfl
  inherited := rfl
  session := rfl
  parked := rfl
  engagements := rfl
  project := fun _ => .inl rfl
  agentClass := fun _ => .inl rfl
  values := fun _ => .inl rfl
  dirty := fun _ => .inl rfl
  ran := ⟨[], (List.append_nil _).symm, fun _ h => by cases h⟩

theorem Frame.trans {s t u : State (Value Float Span)} (h : Frame reg origin s t)
    (h' : Frame reg origin t u) : Frame reg origin s u where
  aliases := h'.aliases.trans h.aliases
  binds := h'.binds.trans h.binds
  presses := h'.presses.trans h.presses
  depth := h'.depth.trans h.depth
  sessionWrites := h'.sessionWrites.trans h.sessionWrites
  archive := h'.archive.trans h.archive
  inherited := h'.inherited.trans h.inherited
  session := h'.session.trans h.session
  parked := h'.parked.trans h.parked
  engagements := h'.engagements.trans h.engagements
  project := fun name => (h'.project name).elim (fun heq => (h.project name).imp_left heq.trans) .inr
  agentClass := fun name =>
    (h'.agentClass name).elim (fun heq => (h.agentClass name).imp_left heq.trans) .inr
  values := fun key => (h'.values key).elim (fun heq => (h.values key).imp_left heq.trans) .inr
  dirty := fun key => (h'.dirty key).elim (fun heq => (h.dirty key).imp_left heq.trans) .inr
  ran := by
    obtain ⟨more, heq, hmore⟩ := h.ran
    obtain ⟨more', heq', hmore'⟩ := h'.ran
    refine ⟨more ++ more', ?_, fun ran hran => ?_⟩
    · rw [heq', heq, List.append_assoc]
    · rcases List.mem_append.1 hran with hran | hran
      · exact hmore ran hran
      · exact hmore' ran hran

theorem assign_ne {layer : Str → Option (Value Float Span)} (h : other ≠ name) :
    assign name value layer other = layer other := if_neg h

theorem Confined.frame {s s' : State (Value Float Span)} (horigin : Overlay origin)
    (hpassive : reg.Passive) (h : reg.Confined origin s s') : Frame reg origin s s' := by
  cases h with
  | said reply => exact { Frame.refl s with }
  | resets args htarget =>
    refine { Frame.refl s with ran := ⟨[.command resetName args], rfl, fun ran hran => ?_⟩ }
    cases List.mem_singleton.1 hran
    exact ⟨args, rfl, htarget⟩
  | committed v value hv hgates =>
    have hentry : ∀ (layer : Str → Option (Value Float Span)) (name : Str),
        assign v.name value layer name = layer name ∨ ∃ v, v.name = name ∧ reg.ProjectVar v := by
      intro layer name
      cases (inferInstance : Decidable (name = v.name)) with
      | isTrue heq => exact .inr ⟨v, heq.symm, hv⟩
      | isFalse hne => exact .inl (assign_ne hne)
    rcases horigin with rfl | rfl
    · exact { Frame.refl s with project := fun name => (hentry _ name).imp_right fun h => ⟨rfl, h⟩ }
    · exact { Frame.refl s with agentClass := fun name => (hentry _ name).imp_right fun h => ⟨rfl, h⟩ }
  | stored v value hv =>
    refine { Frame.refl s with values := fun key => ?_, dirty := fun key => ?_ }
    · cases (inferInstance : Decidable (key = foldName v.name)) with
      | isTrue heq => exact .inr ⟨v, heq.symm, hv⟩
      | isFalse hne => exact .inl (if_neg hne)
    · cases (inferInstance : Decidable (key = foldName v.name)) with
      | isTrue heq => exact .inr ⟨v, heq.symm, hv⟩
      | isFalse hne =>
        left
        change (if key = foldName v.name && _ then true else s.dirty key) = s.dirty key
        rw [decide_eq_false hne, Bool.false_and, if_neg Bool.false_ne_true]
  | reacted v old value hv =>
    rw [hpassive v hv]
    exact .refl s

theorem frame_of_confined {s s' : State (Value Float Span)} (horigin : Overlay origin)
    (hpassive : reg.Passive) (h : ReflTransGen (reg.Confined origin) s s') :
    Frame reg origin s s' := by
  induction h with
  | refl => exact .refl s
  | tail _ hstep ih => exact ih.trans (hstep.frame horigin hpassive)

theorem overlay_of_authority {source : Source} (h : source.authority = .project) :
    Overlay source.origin := by
  cases source with
  | project name => exact .inl rfl
  | projectSubagent => exact .inr rfl
  | projectAgent name => exact .inr rfl
  | console => cases h
  | config name => cases h
  | subagent => cases h
  | agent name => cases h
  | session => cases h

/-- Project overlays are confined, in every context and for every text: each step of the evaluation is
one that `Confined` allows, and where the hooks of project variables do not themselves write, nothing
but project variables in the overlay's own layer has changed. -/
theorem project_overlay_confined (reg : Registry Float Span) (source : Source)
    (hsource : source.authority = .project) (src : Str) (lenient : Bool)
    (s : State (Value Float Span)) :
    ReflTransGen (reg.Confined source.origin) s
        (reg.eval src lenient source.origin source.authority s).2 ∧
      (reg.Passive → Frame reg source.origin s
        (reg.eval src lenient source.origin source.authority s).2) := by
  have horigin := overlay_of_authority hsource
  rw [hsource]
  have hsteps : ReflTransGen (reg.Confined source.origin) s
      (reg.eval src lenient source.origin .project s).2 := confined_eval horigin src lenient s
  exact ⟨hsteps, fun hpassive => frame_of_confined horigin hpassive hsteps⟩

/-! A console with one project variable, one of the user's own, a command and the built-in `reset`. -/

def sampleVar (name : Str) (project : Bool) : VarSpec Nat Nat where
  name
  ty := .str
  default := .str []
  min := none
  max := none
  flags := { project }
  onChange := none
  validate := none

def sampleItems : List (Item Nat Nat) :=
  [.var (sampleVar ['h', 'u', 'e'] true), .var (sampleVar ['k', 'e', 'y'] false),
    .cmd { name := ['e', 'c', 'h', 'o'], args := [], handler := .other fun _ _ => pure () },
    .cmd { name := resetName, args := [("var".toList, true)], handler := .reset }]

def sampleRegistry : Registry Nat Nat where
  scalars :=
    { parseFloat := fun _ => none
      parseSpan := fun _ => none
      isNever := fun _ => false
      clampFloat := fun _ _ x => x
      clampInt := fun _ _ i => i }
  role := .standalone
  names key := sampleItems.find? fun item => foldName item.name = key
  observers := []
  folded h := by simpa using List.find?_some h
  reset_builtin := by
    intro key spec h hname
    have hmem := List.mem_of_find?_eq_some h
    simp only [sampleItems, List.mem_cons, List.not_mem_nil, or_false, reduceCtorEq, false_or,
      Item.cmd.injEq] at hmem
    rcases hmem with rfl | rfl
    · exact absurd hname (by decide)
    · rfl

def sampleState : State (Value Nat Nat) where
  layers :=
    { archive := fun _ => none
      project := fun _ => none
      inherited := fun _ => none
      agentClass := fun _ => none
      session := fun _ => none
      parked := none
      engagements := [] }
  values := fun _ => .str []
  dirty := fun _ => false
  presses := fun _ => 0
  aliases := fun _ => none
  binds := fun _ => none
  depth := 0
  sessionWrites := []
  output := []
  ran := []

/-- The project variable is set; the other variable, the command and the action are refused. -/
def sampleOverlay : Str := "hue red; key mine; echo hi; +use; reset hue".toList

theorem project_overlay_confined_sample :
    Frame sampleRegistry .project sampleState
      (sampleRegistry.eval sampleOverlay true .project .project sampleState).2 := by
  have hconfined := project_overlay_confined sampleRegistry (.project "config.cfg".toList) rfl
    sampleOverlay true sampleState
  apply hconfined.2
  intro v hv old value s
  obtain ⟨item, hlookup, -, ⟨spec, rfl, rfl⟩ | ⟨spec, rfl, rfl⟩⟩ := var_eq_ok hv.1
  · obtain ⟨key, hkey⟩ := names_of_lookup hlookup
    have hmem := List.mem_of_find?_eq_some hkey
    simp only [sampleItems, List.mem_cons, List.not_mem_nil, or_false, reduceCtorEq,
      Item.var.injEq] at hmem
    rcases hmem with rfl | rfl
    · rfl
    · rfl
  · rfl

end Registry

end OhMyPi.Console
