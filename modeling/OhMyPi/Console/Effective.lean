import OhMyPi.Console.Overlay
import OhMyPi.Console.Scopes
import OhMyPi.Lib.Except

/-! The slot of a variable holds the value of its innermost layer, and that value has the declared type
and bounds, whatever is done to the layers. The exception is a bind of an engagement that is spelled
otherwise than its variable or lies out of bounds: it is stored as it is given. -/

namespace OhMyPi.Console.Registry

variable {Float Span : Type} [BEq Float] [BEq Span] {reg : Registry Float Span}

/-! ## Stored values -/

section

variable (reg)

/-- The value has the type of the variable and is within its bounds. -/
def Valid (v : VarRef Float Span) (value : Value Float Span) : Prop :=
  v.ty.conforms reg.scalars value = true ∧ reg.clamp v value = value

/-- The entries of a layer stand under the names of their variables and are valid. -/
def Fits (layer : Str → Option (Value Float Span)) : Prop :=
  ∀ name value, layer name = some value → ∃ v, reg.var name = .ok v ∧ v.name = name ∧ reg.Valid v value

/-- Every layer fits, and every slot holds a valid value. -/
structure Stored (s : State (Value Float Span)) : Prop where
  archive : reg.Fits s.layers.archive
  project : reg.Fits s.layers.project
  inherited : reg.Fits s.layers.inherited
  agentClass : reg.Fits s.layers.agentClass
  session : reg.Fits s.layers.session
  parked : ∀ layer ∈ s.layers.parked, reg.Fits layer
  engagements : ∀ layer ∈ s.layers.engagements, reg.Fits layer.values
  values : ∀ name v, reg.var name = .ok v → reg.Valid v (s.values (foldName v.name))

/-- The value of the innermost layer, or the default. -/
def inForce (s : State (Value Float Span)) (v : VarRef Float Span) : Value Float Span :=
  (s.layers.effective v.name).getD v.default

/-- The slot holds the value in force. -/
def Coherent (s : State (Value Float Span)) (v : VarRef Float Span) : Prop :=
  s.values (foldName v.name) = inForce s v ∨ (s.values (foldName v.name) == inForce s v) = true

/-- The change keeps what is stored valid, each slot that is up to date so, and what is parked. -/
def Keeps (s s' : State (Value Float Span)) : Prop :=
  reg.Stored s → reg.Stored s' ∧
    (∀ name v, reg.var name = .ok v → Coherent s v → Coherent s' v) ∧
    s'.layers.parked = s.layers.parked

/-- What the development asks of a host: defaults are valid, clamping twice is clamping once, and hooks
and commands change the context by its own operations, so that they keep it. -/
structure Host : Prop where
  clamp : ∀ v value, reg.clamp v (reg.clamp v value) = reg.clamp v value
  default : ∀ name v, reg.var name = .ok v → reg.Valid v v.default
  onChange : ∀ name v hook, reg.var name = .ok v → v.onChange = some hook →
    ∀ old value s, reg.Keeps s (hook old value s)
  observer : ∀ observer ∈ reg.observers, ∀ name old value s, reg.Keeps s (observer name old value s)
  command : ∀ key spec run, reg.names key = some (.cmd spec) → spec.handler = .other run →
    ∀ origin args s, reg.Keeps s (run origin args s).2
  dynamicCommand : ∀ key name run, reg.names key = some (.dynamicCmd name run) →
    ∀ args s, reg.Keeps s (run args s).2
  onPress : ∀ key spec hook, reg.names key = some (.action spec) → spec.onPress = some hook →
    ∀ s, reg.Keeps s (hook s)
  onRelease : ∀ key spec hook, reg.names key = some (.action spec) → spec.onRelease = some hook →
    ∀ s, reg.Keeps s (hook s)

end

theorem Keeps.refl (s : State (Value Float Span)) : reg.Keeps s s :=
  fun h => ⟨h, fun _ _ _ hv => hv, rfl⟩

theorem Keeps.trans {s t u : State (Value Float Span)} (h : reg.Keeps s t) (h' : reg.Keeps t u) :
    reg.Keeps s u := by
  intro hs
  obtain ⟨ht, hcoherent, hparked⟩ := h hs
  obtain ⟨hu, hcoherent', hparked'⟩ := h' ht
  exact ⟨hu, fun name v hv hold => hcoherent' name v hv (hcoherent name v hv hold),
    hparked'.trans hparked⟩

/-- A change of neither layers nor slots. -/
theorem Keeps.of_eq {s s' : State (Value Float Span)} (hlayers : s'.layers = s.layers)
    (hvalues : s'.values = s.values) : reg.Keeps s s' := by
  intro hs
  refine ⟨?_, fun name v hv hold => ?_, by rw [hlayers]⟩
  · obtain ⟨ha, hp, hi, hc, hsession, hparked, he, hslots⟩ := hs
    exact ⟨hlayers ▸ ha, hlayers ▸ hp, hlayers ▸ hi, hlayers ▸ hc, hlayers ▸ hsession,
      hlayers ▸ hparked, hlayers ▸ he, hvalues ▸ hslots⟩
  · rw [Coherent, inForce, hlayers, hvalues]
    exact hold

theorem var_unique {name name' : Str} {v w : VarRef Float Span} (hv : reg.var name = .ok v)
    (hw : reg.var name' = .ok w) (h : foldName v.name = foldName w.name) : v = w := by
  obtain ⟨item, hlookup, hname, hkind⟩ := var_eq_ok hv
  obtain ⟨item', hlookup', hname', hkind'⟩ := var_eq_ok hw
  obtain ⟨key, hkey⟩ := names_of_lookup hlookup
  obtain ⟨key', hkey'⟩ := names_of_lookup hlookup'
  have heq : key = key' := by rw [← reg.folded hkey, ← reg.folded hkey', hname, hname', h]
  rw [heq, hkey', Option.some.injEq] at hkey
  subst hkey
  obtain ⟨spec, rfl, rfl⟩ | ⟨spec, rfl, rfl⟩ := hkind
  · obtain ⟨spec', hspec, rfl⟩ | ⟨spec', hspec, -⟩ := hkind'
    · cases hspec
      rfl
    · cases hspec
  · obtain ⟨spec', hspec, -⟩ | ⟨spec', hspec, rfl⟩ := hkind'
    · cases hspec
    · cases hspec
      rfl

omit [BEq Float] [BEq Span] in
theorem mem_of_engagementValue {layers : Layers (Value Float Span)} {name : Str}
    {value : Value Float Span} (h : layers.engagementValue name = some value) :
    ∃ layer ∈ layers.engagements, layer.values name = some value := by
  obtain ⟨layer, hlayer, hvalue⟩ := List.exists_of_findSome?_eq_some h
  exact ⟨layer, List.mem_reverse.1 hlayer, hvalue⟩

omit [BEq Float] [BEq Span] in
theorem fits_effective {s : State (Value Float Span)} (h : reg.Stored s) :
    reg.Fits s.layers.effective := by
  intro name value hvalue
  simp only [Layers.effective, Option.or_eq_some_iff] at hvalue
  rcases hvalue with hvalue | ⟨-, hvalue | ⟨-, hvalue | ⟨-, hvalue | ⟨-, hvalue | ⟨-, hvalue⟩⟩⟩⟩⟩
  · obtain ⟨layer, hlayer, hvalue⟩ := mem_of_engagementValue hvalue
    exact h.engagements layer hlayer name value hvalue
  · exact h.session name value hvalue
  · exact h.agentClass name value hvalue
  · exact h.inherited name value hvalue
  · exact h.project name value hvalue
  · exact h.archive name value hvalue

theorem valid_inForce (hhost : reg.Host) {s : State (Value Float Span)} (h : reg.Stored s) {name : Str}
    {v : VarRef Float Span} (hv : reg.var name = .ok v) : reg.Valid v (inForce s v) := by
  rw [inForce]
  cases hvalue : s.layers.effective v.name with
  | none => exact hhost.default name v hv
  | some value =>
    obtain ⟨w, hw, -, hvalid⟩ := fits_effective h v.name value hvalue
    cases (var_name hv).symm.trans hw
    exact hvalid

/-! ## Slots -/

theorem keeps_foldl {α : Type} {f : State (Value Float Span) → α → State (Value Float Span)} {as : List α}
    (h : ∀ a ∈ as, ∀ s, reg.Keeps s (f s a)) (s : State (Value Float Span)) :
    reg.Keeps s (as.foldl f s) := by
  induction as generalizing s with
  | nil => exact .refl s
  | cons a as ih =>
    obtain ⟨ha, has⟩ := List.forall_mem_cons.1 h
    exact (ha s).trans (ih has _)

theorem keeps_react (hhost : reg.Host) {name : Str} {v : VarRef Float Span} (hv : reg.var name = .ok v)
    (old value : Value Float Span) (s : State (Value Float Span)) :
    reg.Keeps s (reg.react v old value s) := by
  have hobservers := keeps_foldl fun observer hobserver s =>
    hhost.observer observer hobserver v.name old value s
  rw [react]
  cases hhook : v.onChange with
  | none => exact hobservers s
  | some hook => exact (hhost.onChange name v hook hv hhook old value s).trans (hobservers _)

/-- The slot once it was brought up to date. -/
theorem applyEffective_spec (hhost : reg.Host) {s : State (Value Float Span)} (h : reg.Stored s)
    {name : Str} {v : VarRef Float Span} (hv : reg.var name = .ok v) (source : SetSource) :
    let s' := (reg.applyEffective v (inForce s v) source s).2
    reg.Stored s' ∧ Coherent s' v ∧ (∀ name w, reg.var name = .ok w → Coherent s w → Coherent s' w) ∧
      s'.layers.parked = s.layers.parked := by
  intro s'
  by_cases hsame : (s.values (foldName v.name) == inForce s v) = true
  · have hs' : s' = s := by
      simp only [s', applyEffective, if_pos hsame]
    rw [hs']
    exact ⟨h, .inr hsame, fun _ _ _ hw => hw, rfl⟩
  · let stored := reg.store v (inForce s v) source s
    have hstored : reg.Stored stored := by
      refine ⟨h.archive, h.project, h.inherited, h.agentClass, h.session, h.parked, h.engagements, ?_⟩
      intro name w hw
      simp only [stored, store]
      split
      · next heq =>
        cases var_unique hw hv heq
        exact valid_inForce hhost h hv
      · exact h.values name w hw
    have hcoherent : Coherent stored v := .inl (if_pos rfl)
    have hothers : ∀ name w, reg.var name = .ok w → Coherent s w → Coherent stored w := by
      intro name w hw hold
      by_cases heq : foldName w.name = foldName v.name
      · cases var_unique hw hv heq
        exact hcoherent
      · simp only [Coherent, stored, store, if_neg heq]
        exact hold
    have hkeeps : reg.Keeps stored s' := by
      simp only [s', applyEffective, if_neg hsame]
      refine Keeps.trans ?_ (keeps_react hhost hv _ _ _)
      split
      · exact .of_eq rfl rfl
      · exact .refl _
    obtain ⟨hs', hkept, hparked⟩ := hkeeps hstored
    exact ⟨hs', hkept name v hv hcoherent,
      fun name w hw hold => hkept name w hw (hothers name w hw hold), hparked⟩

/-! ## Writes -/

omit [BEq Float] [BEq Span] in
theorem conforms_clamp (v : VarRef Float Span) (value : Value Float Span) :
    v.ty.conforms reg.scalars (reg.clamp v value) = v.ty.conforms reg.scalars value := by
  cases value with
  | int i => cases v.ty <;> rfl
  | float x => cases v.ty <;> rfl
  | bool b => rfl
  | str text => rfl
  | enum text => rfl
  | duration span => rfl
  | list items => rfl
  | kv pairs => rfl

omit [BEq Float] [BEq Span] in
theorem conforms_of_checkValue {s : State (Value Float Span)} {v : VarRef Float Span}
    {value value' : Value Float Span} {source : SetSource}
    (h : reg.checkValue s v value source = .ok value') :
    v.ty.conforms reg.scalars value = true ∧ value' = reg.clamp v value := by
  rw [checkValue] at h
  by_cases hconforms : v.ty.conforms reg.scalars value = true
  · refine ⟨hconforms, ?_⟩
    simp only [hconforms, Bool.not_true, Bool.false_eq_true, if_false] at h
    obtain ⟨-, h⟩ := Except.unit_bind_eq_ok.1 h
    split at h
    · cases h
    · cases h
      rfl
  · simp only [hconforms, Bool.not_false, if_true] at h
    cases hty : v.ty <;> rw [hty] at h <;> cases h

theorem valid_checkValue (hhost : reg.Host) {s : State (Value Float Span)} {v : VarRef Float Span}
    {value value' : Value Float Span} {source : SetSource}
    (h : reg.checkValue s v value source = .ok value') : reg.Valid v value' := by
  obtain ⟨hconforms, rfl⟩ := conforms_of_checkValue h
  exact ⟨by rw [conforms_clamp, hconforms], hhost.clamp v value⟩

theorem fits_assign {layer : Str → Option (Value Float Span)} (h : reg.Fits layer) {name : Str}
    {v : VarRef Float Span} (hv : reg.var name = .ok v) {value : Option (Value Float Span)}
    (hvalue : ∀ x ∈ value, reg.Valid v x) : reg.Fits (assign v.name value layer) := by
  intro other x hx
  rw [assign] at hx
  split at hx
  · next heq =>
    exact ⟨v, heq ▸ var_name hv, heq.symm, hvalue x hx⟩
  · exact h other x hx

/-- An entry of the variable set to a valid value, or removed. -/
theorem stored_commit {s : State (Value Float Span)} (h : reg.Stored s) {name : Str}
    {v : VarRef Float Span} (hv : reg.var name = .ok v) {value : Option (Value Float Span)}
    (hvalue : ∀ x ∈ value, reg.Valid v x) (origin : Origin) : reg.Stored (commit v.name value origin s) := by
  have hnone : ∀ x ∈ (none : Option (Value Float Span)), reg.Valid v x := fun x hx => by cases hx
  have hsession : reg.Stored { s with layers :=
      { s.layers with session := assign v.name value s.layers.session } } :=
    { h with session := fits_assign h.session hv hvalue }
  cases origin with
  | archive => exact { h with archive := fits_assign h.archive hv hvalue }
  | project => exact { h with project := fits_assign h.project hv hvalue }
  | inherited => exact { h with inherited := fits_assign h.inherited hv hvalue }
  | agentClass => exact { h with agentClass := fits_assign h.agentClass hv hvalue }
  | default =>
    exact { h with archive := fits_assign h.archive hv hnone, session := fits_assign h.session hv hnone }
  | session => exact hsession
  | script text => exact hsession
  | host => exact hsession
  | engagement id =>
    simp only [commit, commitTo]
    split
    · refine { h with engagements := fun layer hlayer => ?_ }
      obtain ⟨old, hold, rfl⟩ := List.mem_map.1 hlayer
      split
      · exact fits_assign (h.engagements old hold) hv hvalue
      · exact h.engagements old hold
    · exact hsession

/-- The other variables keep the value in force. -/
theorem effective_commit {s : State (Value Float Span)} {name other : Str} (hne : other ≠ name)
    (value : Option (Value Float Span)) (origin : Origin) :
    (commit name value origin s).layers.effective other = s.layers.effective other := by
  cases origin with
  | engagement id =>
    simp only [commit, commitTo]
    split
    · have hvalue : ({ s.layers with engagements := s.layers.engagements.map fun layer =>
          if layer.id = id then { layer with values := assign name value layer.values } else layer } :
            Layers (Value Float Span)).engagementValue other = s.layers.engagementValue other := by
        rw [Layers.engagementValue, Layers.engagementValue, ← List.map_reverse, List.findSome?_map]
        congr 1
        funext layer
        simp only [Function.comp_apply]
        split
        · exact assign_ne hne
        · rfl
      simp only [Layers.effective, hvalue]
    · simp only [Layers.effective, Layers.engagementValue, assign_ne hne]
  | _ => simp only [commit, commitTo, Layers.effective, Layers.engagementValue, assign_ne hne]

omit [BEq Float] [BEq Span] in
theorem parked_commit {s : State (Value Float Span)} (name : Str) (value : Option (Value Float Span))
    (origin : Origin) : (commit name value origin s).layers.parked = s.layers.parked := by
  cases origin with
  | engagement id =>
    simp only [commit, commitTo]
    split <;> rfl
  | _ => rfl

/-- A layer is changed at one variable, and its slot brought up to date. -/
theorem keeps_committed (hhost : reg.Host) {s s' : State (Value Float Span)} {name : Str}
    {v : VarRef Float Span} (hv : reg.var name = .ok v) {value : Option (Value Float Span)}
    (hvalue : ∀ x ∈ value, reg.Valid v x) (origin : Origin)
    (hlayers : s'.layers = (commit v.name value origin s).layers) (hvalues : s'.values = s.values)
    (source : SetSource) : reg.Keeps s (reg.applyEffective v (inForce s' v) source s').2 := by
  intro hs
  have hkeeps : reg.Keeps (commit v.name value origin s) s' := .of_eq hlayers hvalues
  obtain ⟨hs', hcoherent, hparked⟩ := hkeeps (stored_commit hs hv hvalue origin)
  obtain ⟨hstored, hthis, hothers, hparked'⟩ := applyEffective_spec hhost hs' hv source
  refine ⟨hstored, fun other w hw hold => ?_, ?_⟩
  · by_cases heq : w.name = v.name
    · cases var_unique hw hv (congrArg foldName heq)
      exact hthis
    · refine hothers other w hw (hcoherent other w hw ?_)
      rw [Coherent, inForce, effective_commit heq]
      exact hold
  · rw [hparked', hparked, parked_commit]

theorem keeps_commitLayerSource (hhost : reg.Host) {name : Str} {v : VarRef Float Span}
    (hv : reg.var name = .ok v) (value : Value Float Span) (origin : Origin) (source : SetSource)
    (s : State (Value Float Span)) : reg.Keeps s (reg.commitLayerSource v value origin source s).2 := by
  rw [commitLayerSource]
  cases hcheck : reg.checkValue s v value source with
  | error e => exact .refl s
  | ok checked =>
    have hvalid : ∀ x ∈ some checked, reg.Valid v x := fun x hx =>
      Option.mem_some.1 hx ▸ valid_checkValue hhost hcheck
    simp only
    split
    · exact keeps_committed hhost hv hvalid origin (by rfl) (by rfl) source
    · exact keeps_committed hhost hv hvalid origin (by rfl) (by rfl) source

theorem refresh_eq {name : Str} {v : VarRef Float Span} (hv : reg.var name = .ok v)
    (hname : v.name = name) (source : SetSource) (s : State (Value Float Span)) :
    reg.refresh name source s = reg.applyEffective v (inForce s v) source s := by
  rw [refresh, hv, inForce, hname]

theorem keeps_unset (hhost : reg.Host) (name : Str) (origin : Origin) (s : State (Value Float Span)) :
    reg.Keeps s (reg.unset name origin s).2 := by
  rw [unset]
  cases hv : reg.var name with
  | error e => exact .refl s
  | ok v =>
    simp only
    split
    · exact .refl s
    · have hnone : ∀ x ∈ (none : Option (Value Float Span)), reg.Valid v x := fun x hx => by cases hx
      rw [refresh_eq (var_name hv) rfl]
      split
      · exact keeps_committed hhost hv hnone origin (by rfl) (by rfl) _
      · exact keeps_committed hhost hv hnone origin (by rfl) (by rfl) _

theorem keeps_set (hhost : reg.Host) (name : Str) (value : Value Float Span) (origin : Origin)
    (s : State (Value Float Span)) : reg.Keeps s (reg.set name value origin s).2 := by
  unfold set
  cases hv : reg.var name with
  | error e => exact .refl s
  | ok v => exact keeps_commitLayerSource hhost hv _ _ _ s

theorem keeps_setValue (hhost : reg.Host) (name : Str) (value : Value Float Span) (source : SetSource)
    (s : State (Value Float Span)) : reg.Keeps s (reg.setValue name value source s).2 := by
  unfold setValue
  cases hv : reg.var name with
  | error e => exact .refl s
  | ok v => exact keeps_commitLayerSource hhost hv _ _ _ s

theorem keeps_clearSessionWrite (hhost : reg.Host) (name : Str) (s : State (Value Float Span)) :
    reg.Keeps s (reg.clearSessionWrite name s).2 := by
  rw [clearSessionWrite]
  cases hv : reg.var name with
  | error e => exact .refl s
  | ok v =>
    have hnone : ∀ x ∈ (none : Option (Value Float Span)), reg.Valid v x := fun x hx => by cases hx
    simp only
    split
    · rw [refresh_eq (var_name hv) rfl]
      exact keeps_committed hhost hv hnone .session (by rfl) (by rfl) _
    · exact .refl s

/-! ## Scripts -/

theorem keeps_bind {α β : Type} {x : Effect (Value Float Span) α} {f : α → Effect (Value Float Span) β}
    (hx : ∀ s, reg.Keeps s (x s).2) (hf : ∀ a s, reg.Keeps s (f a s).2) (s : State (Value Float Span)) :
    reg.Keeps s ((x >>= f) s).2 := by
  rw [Action.bind_apply]
  have hfirst := hx s
  rcases hresult : x s with ⟨_ | a, t⟩
  · rw [hresult] at hfirst
    exact hfirst
  · rw [hresult] at hfirst
    exact hfirst.trans (hf a t)

theorem keeps_note (ran : Ran) (s : State (Value Float Span)) : reg.Keeps s (note ran s).2 :=
  .of_eq rfl rfl

theorem keeps_dispatchVar (hhost : reg.Host) {name : Str} {v : VarRef Float Span}
    (hv : reg.var name = .ok v) (args : List Arg) (origin : Origin) (s : State (Value Float Span)) :
    reg.Keeps s (reg.dispatchVar v args origin s).2 := by
  rw [dispatchVar]
  split
  · exact .of_eq rfl rfl
  · split
    · exact .refl s
    · exact keeps_commitLayerSource hhost hv _ _ _ s

theorem keeps_hook {hook : Option (State (Value Float Span) → State (Value Float Span))}
    (h : ∀ f, hook = some f → ∀ s, reg.Keeps s (f s)) (s : State (Value Float Span)) :
    reg.Keeps s (hook.getD id s) := by
  cases hook with
  | none => exact .refl s
  | some f => exact h f rfl s

theorem keeps_dispatchAction (hhost : reg.Host) (base : Str) (pressed : Bool)
    (s : State (Value Float Span)) : reg.Keeps s (reg.dispatchAction base pressed s).2 := by
  rw [dispatchAction]
  split
  · exact .refl s
  · next spec hlookup =>
    obtain ⟨key, hkey⟩ := names_of_lookup hlookup
    have hpress := keeps_hook fun f hf => hhost.onPress key spec f hkey hf
    have hrelease := keeps_hook fun f hf => hhost.onRelease key spec f hkey hf
    simp only
    split
    · split
      · refine Keeps.trans (.of_eq ?_ ?_) (hpress _) <;> rfl
      · exact .of_eq rfl rfl
    · split
      · refine Keeps.trans (.of_eq ?_ ?_) (hrelease _) <;> rfl
      · exact .of_eq rfl rfl
  · exact .refl s
  · exact .refl s
  · exact .refl s

theorem keeps_runCommand (hhost : reg.Host) {key : Str} {spec : CmdSpec (Value Float Span)}
    (hkey : reg.names key = some (.cmd spec)) (args : List Arg) (origin : Origin)
    (s : State (Value Float Span)) : reg.Keeps s (reg.runCommand spec args origin s).2 := by
  rw [runCommand]
  cases (spec.args.drop args.length).find? fun arg => arg.2 with
  | some missing => exact .refl s
  | none =>
    refine keeps_bind (keeps_note _) (fun _ s => ?_) s
    cases hhandler : spec.handler with
    | reset =>
      simp only [reset]
      split
      · exact .refl s
      · exact keeps_unset hhost _ _ s
      · exact .refl s
    | other run => exact hhost.command key spec run hkey hhandler origin args s

omit [BEq Float] [BEq Span] in
theorem var_of_lookup {name : Str} {item : Item Float Span} (h : reg.lookup name = some item) :
    (∀ spec, item = .var spec → reg.var name = .ok spec.ref) ∧
      ∀ spec, item = .dynamicVar spec → reg.var name = .ok spec.ref := by
  constructor
  · rintro spec rfl
    rw [var, h]
  · rintro spec rfl
    rw [var, h]

theorem keeps_dispatch (hhost : reg.Host) {origin : Origin} {authority : Authority}
    {expand : Str → Str → Effect (Value Float Span) Unit}
    (hexpand : ∀ name body s, reg.Keeps s (expand name body s).2) (stmt : Statement)
    (s : State (Value Float Span)) : reg.Keeps s (reg.dispatch origin authority expand stmt s).2 := by
  rw [dispatch]
  split
  · exact .refl s
  · split
    · exact .refl s
    · split
      · exact keeps_bind (keeps_note _) (fun _ s => hexpand _ _ s) s
      · split
        · exact keeps_dispatchAction hhost _ _ s
        · split
          · exact keeps_dispatchAction hhost _ _ s
          · split
            · next spec hlookup => exact keeps_dispatchVar hhost ((var_of_lookup hlookup).2 spec rfl) _ _ s
            · next cmd run hlookup =>
              obtain ⟨key, hkey⟩ := names_of_lookup hlookup
              exact keeps_bind (keeps_note _)
                (fun _ s => hhost.dynamicCommand key cmd run hkey _ s) s
            · next spec hlookup => exact keeps_dispatchVar hhost ((var_of_lookup hlookup).1 spec rfl) _ _ s
            · next spec hlookup =>
              obtain ⟨key, hkey⟩ := names_of_lookup hlookup
              exact keeps_runCommand hhost hkey _ _ s
            · exact .of_eq rfl rfl
            · exact .refl s

theorem keeps_runStatements {lenient project : Bool} {run : Statement → Effect (Value Float Span) Unit}
    (hrun : ∀ stmt s, reg.Keeps s (run stmt s).2) (stmts : List Statement) (outcome : ExecOutcome)
    (s : State (Value Float Span)) :
    reg.Keeps s (runStatements lenient project run stmts outcome s).2 := by
  induction stmts generalizing outcome s with
  | nil => exact .refl s
  | cons stmt rest ih =>
    have hthis := hrun stmt s
    simp only [runStatements]
    split
    · next hresult =>
      rw [hresult] at hthis
      exact hthis.trans (ih _ _)
    · next hresult =>
      rw [hresult] at hthis
      split
      · refine hthis.trans (Keeps.trans (.of_eq ?_ ?_) (ih _ _)) <;> rfl
      · exact hthis

theorem keeps_evalFuel (hhost : reg.Host) (fuel : Nat) (src : Str) (lenient : Bool) (origin : Origin)
    (authority : Authority) (s : State (Value Float Span)) :
    reg.Keeps s (reg.evalFuel fuel src lenient origin authority s).2 := by
  induction fuel generalizing src s with
  | zero => exact .refl s
  | succ fuel ih =>
    simp only [evalFuel]
    split
    · split
      · exact .of_eq rfl rfl
      · exact .refl s
    · refine keeps_runStatements (keeps_dispatch hhost fun name body s => ?_) _ _ s
      rw [withDepth]
      split
      · exact .refl s
      · have hbody : reg.Keeps { s with depth := s.depth + 1 }
            ((do let _ ← reg.evalFuel fuel body lenient origin authority : Effect _ Unit)
              { s with depth := s.depth + 1 }).2 := keeps_bind (ih body) (fun _ s => .refl s) _
        have henter : reg.Keeps s { s with depth := s.depth + 1 } := .of_eq rfl rfl
        exact (henter.trans hbody).trans (.of_eq rfl rfl)

theorem keeps_restoreSessionWrite (hhost : reg.Host) (name value : Str) (s : State (Value Float Span)) :
    reg.Keeps s (reg.restoreSessionWrite name value s).2 := by
  rw [restoreSessionWrite]
  cases reg.var name with
  | error e => exact .refl s
  | ok v => exact keeps_bind (keeps_evalFuel hhost _ _ _ _ _) (fun _ s => .refl s) s

/-! ## Many slots -/

section

variable (reg)

/-- Every slot is up to date and valid, and so is what is stored. -/
structure Effective (s : State (Value Float Span)) : Prop extends reg.Stored s where
  coherent : ∀ name v, reg.var name = .ok v → Coherent s v

/-- The name is that of a variable, as it was registered. -/
def Spelled (name : Str) : Prop := ∃ v, reg.var name = .ok v ∧ v.name = name

end

theorem Keeps.effective {s s' : State (Value Float Span)} (h : reg.Keeps s s') (hs : reg.Effective s) :
    reg.Effective s' ∧ s'.layers.parked = s.layers.parked := by
  obtain ⟨hstored, hcoherent, hparked⟩ := h hs.toStored
  exact ⟨⟨hstored, fun name v hv => hcoherent name v hv (hs.coherent name v hv)⟩, hparked⟩

omit [BEq Float] [BEq Span] in
theorem Fits.spelled {layer : Str → Option (Value Float Span)} (h : reg.Fits layer) {name : Str}
    (hname : layer name ≠ none) : reg.Spelled name := by
  obtain ⟨value, hvalue⟩ := Option.ne_none_iff_exists'.1 hname
  obtain ⟨v, hv, hspelled, -⟩ := h name value hvalue
  exact ⟨v, hv, hspelled⟩

theorem refreshAll_spec (hhost : reg.Host) {names : List Str} (hnames : ∀ name ∈ names, reg.Spelled name)
    {s : State (Value Float Span)} (h : reg.Stored s) :
    let s' := (reg.refreshAll names s).2
    reg.Stored s' ∧ (∀ name w, reg.var name = .ok w → Coherent s w ∨ w.name ∈ names → Coherent s' w) ∧
      s'.layers.parked = s.layers.parked := by
  induction names generalizing s with
  | nil =>
    refine ⟨h, fun name w _ hold => ?_, rfl⟩
    rcases hold with hold | hmem
    · exact hold
    · cases hmem
  | cons name names ih =>
    obtain ⟨⟨v, hv, hname⟩, hrest⟩ := List.forall_mem_cons.1 hnames
    obtain ⟨hstored, hthis, hothers, hparked⟩ := applyEffective_spec hhost h hv .code
    have hok : (reg.applyEffective v (inForce s v) .code s).1 = .ok () := by
      rw [applyEffective]
      split <;> rfl
    rw [← refresh_eq hv hname] at hstored hthis hothers hparked hok
    rcases hresult : reg.refresh name .code s with ⟨result, t⟩
    rw [hresult] at hstored hthis hothers hparked hok
    cases hok
    have hstep : reg.refreshAll (name :: names) s = reg.refreshAll names t := by
      rw [refreshAll, Action.bind_of_ok hresult]
    rw [hstep]
    obtain ⟨hstored', hcoherent', hparked'⟩ := ih hrest hstored
    refine ⟨hstored', fun other w hw hold => hcoherent' other w hw ?_, hparked'.trans hparked⟩
    rcases hold with hold | hmem
    · exact .inl (hothers other w hw hold)
    · rcases List.mem_cons.1 hmem with heq | hmem
      · cases var_unique hw hv (by rw [heq, hname])
        exact .inl hthis
      · exact .inr hmem

/-- The layers are changed, and the slots of the names it touches brought up to date. -/
theorem effective_refreshAll (hhost : reg.Host) {s : State (Value Float Span)}
    {layers : Layers (Value Float Span)} (hs : reg.Effective s) (hstored : reg.Stored { s with layers })
    {names : List Str} (hnames : ∀ name ∈ names, reg.Spelled name)
    (hsame : ∀ name, name ∉ names → layers.effective name = s.layers.effective name) :
    reg.Effective (reg.refreshAll names { s with layers }).2 ∧
      (reg.refreshAll names { s with layers }).2.layers.parked = layers.parked := by
  obtain ⟨hall, hcoherent, hparked⟩ := refreshAll_spec hhost hnames hstored
  refine ⟨⟨hall, fun name w hw => hcoherent name w hw ?_⟩, hparked⟩
  by_cases hmem : w.name ∈ names
  · exact .inr hmem
  · refine .inl ?_
    rw [Coherent, inForce, hsame _ hmem]
    exact hs.coherent name w hw

omit [BEq Float] [BEq Span] in
theorem fits_collect {entries : List (Str × Value Float Span)}
    (h : ∀ entry ∈ entries, ∃ v, reg.var entry.1 = .ok v ∧ v.name = entry.1 ∧ reg.Valid v entry.2) :
    reg.Fits (Layers.collect entries) := by
  intro name value hvalue
  obtain ⟨entry, hentry, rfl⟩ := Option.map_eq_some_iff.1 hvalue
  have hname : entry.1 = name := by simpa using List.find?_some hentry
  have hmem := List.mem_reverse.1 (List.mem_of_find?_eq_some hentry)
  rw [← hname]
  exact h entry hmem

theorem collect_eq_none {V : Type} {entries : List (Str × V)} {name : Str}
    (h : name ∉ entries.map Prod.fst) : Layers.collect entries name = none := by
  rw [Layers.collect, Option.map_eq_none_iff, List.find?_eq_none]
  intro entry hentry heq
  have hname : entry.1 = name := by simpa using heq
  exact h (hname ▸ List.mem_map_of_mem (List.mem_reverse.1 hentry))

/-- The binds that are accepted stand under the names of their variables and are valid. -/
theorem checkedBinds_spec (hhost : reg.Host) {s : State (Value Float Span)}
    {binds : List (Str × Value Float Span)} : ∀ bind ∈ reg.checkedBinds s binds,
      ∃ v, reg.var bind.1 = .ok v ∧ v.name = bind.1 ∧ reg.Valid v bind.2 := by
  intro bind hbind
  obtain ⟨given, -, hgiven⟩ := List.mem_filterMap.1 hbind
  split at hgiven
  · cases hgiven
  · next v hv =>
    split at hgiven
    · cases hgiven
    · next value hvalue =>
      cases hgiven
      exact ⟨v, var_name hv, rfl, valid_checkValue hhost hvalue⟩

omit [BEq Float] [BEq Span] in
theorem engagementValue_eq_none {layers : Layers (Value Float Span)} {name : Str}
    (h : ∀ layer ∈ layers.engagements, layer.values name = none) : layers.engagementValue name = none := by
  rw [Layers.engagementValue, List.findSome?_eq_none_iff]
  exact fun layer hlayer => h layer (List.mem_reverse.1 hlayer)

omit [BEq Float] [BEq Span] in
theorem effective_engagements {layers layers' : Layers (Value Float Span)} {name : Str}
    (h : ({ layers with engagements := layers'.engagements } : Layers _) = layers')
    (hvalue : layers'.engagementValue name = layers.engagementValue name) :
    layers'.effective name = layers.effective name := by
  rw [Layers.effective, Layers.effective, hvalue, ← h]

omit [BEq Float] [BEq Span] in
theorem pop_eq_some {layers layers' : Layers (Value Float Span)} {id : Nat}
    {layer : EngagementLayer (Value Float Span)} (h : layers.pop id = some (layer, layers')) :
    ∃ front back, layers.engagements = front ++ layer :: back ∧
      layers' = { layers with engagements := front ++ back } := by
  obtain ⟨found, hfound, heq⟩ := Option.map_eq_some_iff.1 h
  cases heq
  obtain ⟨hid, front, back, hsplit, hfront⟩ := List.find?_eq_some_iff_append.1 hfound
  refine ⟨front, back, hsplit, ?_⟩
  congr 1
  rw [hsplit, List.eraseP_append_right _ (by simpa using hfront), List.eraseP_cons, hid, cond_true]

omit [BEq Float] [BEq Span] in
theorem pushChain_spec (layers : Layers (Value Float Span)) (nextId : Nat)
    (chain : List (Str × List (Str × Value Float Span))) :
    ∃ engagements, (pushChain layers nextId chain).1 = { layers with engagements } ∧
      ∀ layer ∈ engagements, layer ∈ layers.engagements ∨
        ∃ link ∈ chain, layer.values = Layers.collect link.2 := by
  induction chain generalizing layers nextId with
  | nil => exact ⟨layers.engagements, rfl, fun layer hlayer => .inl hlayer⟩
  | cons link chain ih =>
    let id := min (nextId + 1) (2 ^ 64 - 1)
    obtain ⟨engagements, hlayers, hmem⟩ := ih (layers.push id link.1 link.2) id
    refine ⟨engagements, hlayers, fun layer hlayer => ?_⟩
    rcases hmem layer hlayer with hold | ⟨later, hlater, hvalues⟩
    · rcases List.mem_append.1 hold with hold | hnew
      · exact .inl hold
      · cases List.mem_singleton.1 hnew
        exact .inr ⟨link, List.mem_cons_self, rfl⟩
    · exact .inr ⟨later, List.mem_cons_of_mem _ hlater, hvalues⟩

/-! ## Operations -/

section

variable (hhost : reg.Host)

include hhost

theorem effective_popLayer {s : State (Value Float Span)} (hs : reg.Effective s) {id : Nat}
    {names : List Str} (hwalk : reg.Walks s (.popLayer id names)) :
    reg.Effective (reg.popLayer id names s).2 ∧
      (reg.popLayer id names s).2.layers.parked = s.layers.parked := by
  rw [popLayer]
  cases hpop : s.layers.pop id with
  | none => exact ⟨hs, rfl⟩
  | some popped =>
    obtain ⟨layer, layers⟩ := popped
    obtain ⟨-, hmem⟩ := hwalk layer layers hpop
    obtain ⟨front, back, hsplit, rfl⟩ := pop_eq_some hpop
    have hlayer : reg.Fits layer.values := hs.engagements layer (by simp [hsplit])
    refine effective_refreshAll hhost hs ?_ (fun name hname => hlayer.spelled ((hmem name).1 hname)) ?_
    · refine { hs.toStored with engagements := fun other hother => ?_ }
      apply hs.engagements other
      rw [hsplit]
      rcases List.mem_append.1 hother with hother | hother
      · exact List.mem_append_left _ hother
      · exact List.mem_append_right _ (List.mem_cons_of_mem _ hother)
    · intro name hname
      have hnone : layer.values name = none := by
        by_contra hne
        exact hname ((hmem name).2 hne)
      refine effective_engagements rfl ?_
      rw [Layers.engagementValue, Layers.engagementValue, hsplit]
      simp [List.findSome?_append, hnone]

theorem effective_pushLayer {ctx : Ctx (Value Float Span)} (hs : reg.Effective ctx.state) {owner : Str}
    {binds : List (Str × Value Float Span)}
    (hbinds : binds.all (reg.acceptsBind ctx.state) = true → ∀ bind ∈ binds,
      ∃ v, reg.var bind.1 = .ok v ∧ v.name = bind.1 ∧ reg.Valid v bind.2) :
    reg.Effective (reg.pushLayer owner binds ctx).2.state ∧
      (reg.pushLayer owner binds ctx).2.state.layers.parked = ctx.state.layers.parked := by
  rw [pushLayer]
  split
  · next haccepts =>
    have hbinds := hbinds haccepts
    refine effective_refreshAll hhost hs ?_ ?_ ?_
    · refine { hs.toStored with engagements := fun layer hlayer => ?_ }
      rcases List.mem_append.1 hlayer with hlayer | hlayer
      · exact hs.engagements layer hlayer
      · cases List.mem_singleton.1 hlayer
        exact fits_collect hbinds
    · intro name hname
      obtain ⟨bind, hbind, rfl⟩ := List.mem_map.1 hname
      obtain ⟨v, hv, hspelled, -⟩ := hbinds bind hbind
      exact ⟨v, hv, hspelled⟩
    · intro name hname
      refine effective_engagements rfl ?_
      rw [Layers.engagementValue, Layers.engagementValue, Layers.push]
      simp [collect_eq_none hname]
  · exact ⟨hs, rfl⟩

theorem effective_deriveLayers {ctx : Ctx (Value Float Span)} (hs : reg.Effective ctx.state)
    {chain : List (Str × List (Str × Value Float Span))} {sizes : List Nat} {names : List Str}
    (hwalk : reg.Walks ctx.state (.deriveLayers chain sizes names)) :
    reg.Effective (reg.deriveLayers chain sizes names ctx).state ∧
      (reg.deriveLayers chain sizes names ctx).state.layers.parked = ctx.state.layers.parked := by
  obtain ⟨⟨-, hmem⟩, -⟩ := hwalk
  rw [deriveLayers]
  generalize hchain : (chain.map fun link => (link.1, reg.checkedBinds ctx.state link.2)) = checked
  rw [hchain] at hmem
  have hlinks : ∀ link ∈ checked, ∀ bind ∈ link.2,
      ∃ v, reg.var bind.1 = .ok v ∧ v.name = bind.1 ∧ reg.Valid v bind.2 := by
    intro link hlink
    rw [← hchain] at hlink
    obtain ⟨given, -, rfl⟩ := List.mem_map.1 hlink
    exact checkedBinds_spec hhost
  simp only
  split
  · exact ⟨hs, rfl⟩
  · obtain ⟨engagements, hlayers, hnew⟩ :=
      pushChain_spec { ctx.state.layers with engagements := [] } ctx.nextId checked
    have hnew : ∀ layer ∈ engagements, ∃ link ∈ checked, layer.values = Layers.collect link.2 :=
      fun layer hlayer => (hnew layer hlayer).resolve_left List.not_mem_nil
    have hfits : ∀ layer ∈ engagements, reg.Fits layer.values := by
      intro layer hlayer
      obtain ⟨link, hlink, hvalues⟩ := hnew layer hlayer
      rw [hvalues]
      exact fits_collect (hlinks link hlink)
    have hstored : reg.Stored { ctx.state with
        layers := { ctx.state.layers with engagements } } := { hs.toStored with engagements := hfits }
    rw [hlayers]
    refine effective_refreshAll hhost hs hstored ?_ ?_
    · intro name hname
      rcases (hmem name).1 hname with ⟨layer, hlayer, hvalue⟩ | ⟨link, hlink, bind, hbind, rfl⟩
      · exact (hs.engagements layer hlayer).spelled hvalue
      · obtain ⟨v, hv, hspelled, -⟩ := hlinks link hlink bind hbind
        exact ⟨v, hv, hspelled⟩
    · intro name hname
      have hnot := mt (hmem name).2 hname
      rw [ChainTouches, not_or] at hnot
      refine effective_engagements rfl ?_
      rw [engagementValue_eq_none, engagementValue_eq_none]
      · intro layer hlayer
        by_contra hne
        exact hnot.1 ⟨layer, hlayer, hne⟩
      · intro layer hlayer
        obtain ⟨link, hlink, hvalues⟩ := hnew layer hlayer
        rw [hvalues]
        refine collect_eq_none fun hin => ?_
        obtain ⟨bind, hbind, heq⟩ := List.mem_map.1 hin
        exact hnot.2 ⟨link, hlink, bind, hbind, heq⟩

theorem effective_replaceScope {s : State (Value Float Span)} (hs : reg.Effective s)
    {inherited agentClass : Str → Option (Value Float Span)} (hinherited : reg.Fits inherited)
    (hclass : reg.Fits agentClass) {session : ScopeSession} {names : List Str}
    (hmem : ∀ name, name ∈ names ↔ s.layers.ScopeTouches inherited agentClass session name) :
    reg.Effective (reg.replaceScope inherited agentClass session names s).2 ∧
      (reg.replaceScope inherited agentClass session names s).2.layers.parked =
        (s.layers.withScope inherited agentClass session).parked := by
  rw [replaceScope]
  refine effective_refreshAll hhost hs ?_ ?_ ?_
  · have hempty : reg.Fits fun _ => none := fun name value hvalue => by cases hvalue
    cases session with
    | park =>
      rw [Layers.withScope]
      cases hparked : s.layers.parked with
      | none => exact { hs.toStored with
          inherited := hinherited, agentClass := hclass, session := hempty
          parked := fun layer hlayer => Option.mem_some.1 hlayer ▸ hs.session }
      | some main => exact { hs.toStored with
          inherited := hinherited, agentClass := hclass
          parked := fun layer hlayer => hs.parked layer (hparked ▸ hlayer) }
    | restore =>
      rw [Layers.withScope]
      cases hparked : s.layers.parked with
      | none => exact { hs.toStored with
          inherited := hinherited, agentClass := hclass
          parked := fun layer hlayer => hs.parked layer (hparked ▸ hlayer) }
      | some main => exact { hs.toStored with
          inherited := hinherited, agentClass := hclass, session := hs.parked main hparked
          parked := fun layer hlayer => by cases hlayer }
  · intro name hname
    rcases (hmem name).1 hname with h | h | h | h | h
    · exact hs.inherited.spelled h
    · exact hs.agentClass.spelled h
    · exact hinherited.spelled h
    · exact hclass.spelled h
    · split at h
      · exact hs.session.spelled h
      · cases h
      · next main hparked =>
        rcases h with h | h
        · exact hs.session.spelled h
        · exact (hs.parked main hparked).spelled h
      · cases h
  · intro name hname
    have hnot := mt (hmem name).2 hname
    simp only [Layers.ScopeTouches, not_or, not_not] at hnot
    obtain ⟨hold, hold', hnew, hnew', hrest⟩ := hnot
    cases session with
    | park =>
      rw [Layers.withScope]
      cases hparked : s.layers.parked with
      | none =>
        rw [hparked] at hrest
        simp only [not_not] at hrest
        simp only [Layers.effective, Layers.engagementValue, hold, hold', hnew, hnew', hrest]
      | some main => simp only [Layers.effective, Layers.engagementValue, hold, hold', hnew, hnew']
    | restore =>
      rw [Layers.withScope]
      cases hparked : s.layers.parked with
      | none => simp only [Layers.effective, Layers.engagementValue, hold, hold', hnew, hnew']
      | some main =>
        rw [hparked] at hrest
        simp only [not_or, not_not] at hrest
        simp only [Layers.effective, Layers.engagementValue, hold, hold', hnew, hnew', hrest.1, hrest.2]

end

theorem fits_checkedScope (hhost : reg.Host) (s : State (Value Float Span))
    (entries : List (Str × Value Float Span)) : reg.Fits (reg.checkedScope s entries) :=
  fits_collect (checkedBinds_spec hhost)

omit [BEq Float] [BEq Span] in
theorem fits_none : reg.Fits fun _ => none := fun _ _ hvalue => by cases hvalue

omit [BEq Float] [BEq Span] in
theorem conforms_of_acceptsBind {s : State (Value Float Span)} {bind : Str × Value Float Span}
    {v : VarRef Float Span} (hv : reg.var bind.1 = .ok v) (h : reg.acceptsBind s bind = true) :
    v.ty.conforms reg.scalars bind.2 = true := by
  rw [acceptsBind, hv] at h
  cases hcheck : reg.checkValue s v bind.2 .code with
  | error e =>
    simp only [hcheck] at h
    cases h
  | ok value => exact (conforms_of_checkValue hcheck).1

/-! ## Runs -/

section

variable (reg)

/-- The binds of a new engagement are spelled as their variables and are within bounds. -/
def Fitting (ctx : Ctx (Value Float Span)) : Operation Float Span → Prop
  | .pushLayer _ binds => binds.all (reg.acceptsBind ctx.state) = true → ∀ bind ∈ binds,
    ∃ v, reg.var bind.1 = .ok v ∧ v.name = bind.1 ∧ reg.clamp v bind.2 = bind.2
  | _ => True

/-- The contexts that operations lead to, each of which is allowed and meets its condition. -/
inductive Reaches (allowed : Operation Float Span → Prop) (first : Ctx (Value Float Span)) :
    Ctx (Value Float Span) → Prop
  | start : Reaches allowed first first
  | step {ctx : Ctx (Value Float Span)} (op : Operation Float Span) : Reaches allowed first ctx →
    allowed op → reg.Walks ctx.state op → reg.Fitting ctx op → Reaches allowed first (reg.step ctx op)

/-- No layer has an entry, and every slot holds the default. -/
structure Fresh (s : State (Value Float Span)) : Prop where
  archive : s.layers.archive = fun _ => none
  project : s.layers.project = fun _ => none
  inherited : s.layers.inherited = fun _ => none
  agentClass : s.layers.agentClass = fun _ => none
  session : s.layers.session = fun _ => none
  parked : s.layers.parked = none
  engagements : s.layers.engagements = []
  values : ∀ name v, reg.var name = .ok v → s.values (foldName v.name) = v.default

/-- The operation leaves the scope. -/
def Drops : Operation Float Span → Prop
  | .dropScope _ => True
  | _ => False

end

theorem Fresh.effective (hhost : reg.Host) {s : State (Value Float Span)} (h : reg.Fresh s) :
    reg.Effective s where
  archive := h.archive ▸ fits_none
  project := h.project ▸ fits_none
  inherited := h.inherited ▸ fits_none
  agentClass := h.agentClass ▸ fits_none
  session := h.session ▸ fits_none
  parked layer hlayer := by
    rw [h.parked] at hlayer
    cases hlayer
  engagements layer hlayer := by
    rw [h.engagements] at hlayer
    cases hlayer
  values name v hv := by
    rw [h.values name v hv]
    exact hhost.default name v hv
  coherent name v hv := by
    refine .inl ?_
    rw [h.values name v hv, inForce, Layers.effective, engagementValue_eq_none, h.session, h.agentClass,
      h.inherited, h.project, h.archive]
    · rfl
    · rw [h.engagements]
      exact fun layer hlayer => absurd hlayer List.not_mem_nil

/-- What is parked once an operation other than a drop was performed. -/
def parkedAfter (layers : Layers (Value Float Span)) : Operation Float Span →
    Option (Str → Option (Value Float Span))
  | .adoptScope _ _ _ => some (layers.parked.getD layers.session)
  | _ => layers.parked

theorem effective_step (hhost : reg.Host) {ctx : Ctx (Value Float Span)} (hs : reg.Effective ctx.state)
    {op : Operation Float Span} (hwalk : reg.Walks ctx.state op) (hmeets : reg.Fitting ctx op) :
    reg.Effective (reg.step ctx op).state ∧
      (¬Drops op → (reg.step ctx op).state.layers.parked = parkedAfter ctx.state.layers op) := by
  cases op with
  | set name value origin => exact ((keeps_set hhost name value origin _).effective hs).imp_right fun h _ => h
  | setValue name value source =>
    exact ((keeps_setValue hhost name value source _).effective hs).imp_right fun h _ => h
  | unset name origin => exact ((keeps_unset hhost name origin _).effective hs).imp_right fun h _ => h
  | clearSessionWrite name =>
    exact ((keeps_clearSessionWrite hhost name _).effective hs).imp_right fun h _ => h
  | restoreSessionWrite name value =>
    exact ((keeps_restoreSessionWrite hhost name value _).effective hs).imp_right fun h _ => h
  | eval src lenient origin authority =>
    exact ((keeps_evalFuel hhost _ src lenient origin authority _).effective hs).imp_right fun h _ => h
  | pushLayer owner binds =>
    refine (effective_pushLayer hhost hs fun haccepts bind hbind => ?_).imp_right fun h _ => h
    obtain ⟨v, hv, hname, hclamp⟩ := hmeets haccepts bind hbind
    exact ⟨v, hv, hname, conforms_of_acceptsBind hv (List.all_eq_true.1 haccepts bind hbind), hclamp⟩
  | popLayer id names =>
    exact (effective_popLayer hhost hs hwalk).imp_right fun h _ => h
  | deriveLayers chain sizes names =>
    exact (effective_deriveLayers hhost hs hwalk).imp_right fun h _ => h
  | adoptScope inherited agentClass names =>
    obtain ⟨heffective, hparked⟩ := effective_replaceScope hhost hs (fits_checkedScope hhost _ _)
      (fits_checkedScope hhost _ _) hwalk.2
    refine ⟨heffective, fun _ => hparked.trans ?_⟩
    rw [Layers.withScope, parkedAfter]
    cases hparked' : ctx.state.layers.parked <;> rfl
  | dropScope names =>
    obtain ⟨heffective, -⟩ := effective_replaceScope hhost hs fits_none fits_none hwalk.2
    exact ⟨heffective, fun hdrop => absurd trivial hdrop⟩

theorem Reaches.effective (hhost : reg.Host) {allowed : Operation Float Span → Prop}
    {first ctx : Ctx (Value Float Span)} (hfirst : reg.Effective first.state)
    (h : reg.Reaches allowed first ctx) : reg.Effective ctx.state := by
  induction h with
  | start => exact hfirst
  | step op _ _ hwalk hmeets ih => exact (effective_step hhost ih hwalk hmeets).1

/-- What is parked stays so until the scope is dropped. -/
theorem Reaches.parked (hhost : reg.Host) {first ctx : Ctx (Value Float Span)}
    (hfirst : reg.Effective first.state) {main : Str → Option (Value Float Span)}
    (hparked : first.state.layers.parked = some main)
    (h : reg.Reaches (fun op => ¬Drops op) first ctx) : ctx.state.layers.parked = some main := by
  induction h with
  | start => exact hparked
  | step op hreached hallowed hwalk hmeets ih =>
    rw [(effective_step hhost (hreached.effective hhost hfirst) hwalk hmeets).2 hallowed]
    cases op with
    | adoptScope inherited agentClass names => rw [parkedAfter, ih, Option.getD_some]
    | _ => exact ih

/-- Hooks and observers leave the layers alone. -/
def Silent (reg : Registry Float Span) : Prop :=
  ∀ v old value s, (reg.react v old value s).layers = s.layers

theorem layers_refreshAll (hsilent : reg.Silent) (names : List Str) (s : State (Value Float Span)) :
    (reg.refreshAll names s).2.layers = s.layers := by
  induction names generalizing s with
  | nil => rfl
  | cons name names ih =>
    have hone : (reg.refresh name .code s).2.layers = s.layers := by
      rw [refresh]
      split
      · rfl
      · rw [applyEffective]
        split
        · rfl
        · rw [hsilent]
          split <;> rfl
    rw [refreshAll, Action.bind_apply]
    rcases hresult : reg.refresh name .code s with ⟨_ | _, t⟩
    · rw [hresult] at hone
      exact hone
    · rw [hresult] at hone
      exact (ih t).trans hone

/-- Dropping the scope puts the session layer back: it is so before the hooks react, and afterwards
where they leave the layers alone. -/
def GivesBack (reg : Registry Float Span) (later : Ctx (Value Float Span))
    (session : Str → Option (Value Float Span)) : Prop :=
  (later.state.layers.withScope (fun _ => none) (fun _ => none) .restore).session = session ∧
    (reg.Silent → ∀ names, (reg.step later (.dropScope names)).state.layers.session = session)

def volumeSpec : VarSpec Int Nat where
  name := "volume".toList
  ty := .int
  default := .int 0
  min := none
  max := some 100
  flags := {}
  onChange := none
  validate := none

/-- The bounds as `clamp` applies them. -/
def clampBounds (low high : Option Int) (i : Int) : Int :=
  let i := match low with
    | some low => if i < low then low else i
    | none => i
  match high with
  | some high => if high < i then high else i
  | none => i

def volumeRegistry : Registry Int Nat where
  scalars :=
    { parseFloat := fun _ => none
      parseSpan := fun _ => none
      isNever := fun _ => false
      clampFloat := clampBounds
      clampInt := clampBounds }
  role := .standalone
  names key := if key = "volume".toList then some (.var volumeSpec) else none
  observers := []
  folded := by
    intro key item h
    split at h
    · next heq =>
      cases h
      rw [heq]
      rfl
    · cases h
  reset_builtin := by
    intro key spec h
    split at h <;> cases h

def volumeCtx : Ctx (Value Int Nat) where
  state :=
    { layers :=
        { archive := fun _ => none
          project := fun _ => none
          inherited := fun _ => none
          agentClass := fun _ => none
          session := fun _ => none
          parked := none
          engagements := [] }
      values := fun _ => .int 0
      dirty := fun _ => false
      presses := fun _ => 0
      aliases := fun _ => none
      binds := fun _ => none
      depth := 0
      sessionWrites := []
      output := []
      ran := [] }
  nextId := 0

theorem clampBounds_idem (low high : Option Int) (i : Int) :
    clampBounds low high (clampBounds low high i) = clampBounds low high i := by
  cases low <;> cases high <;> simp only [clampBounds] <;> grind

theorem volume_of_names {key : Str} {item : Item Int Nat} (h : volumeRegistry.names key = some item) :
    item = .var volumeSpec := by
  simp only [volumeRegistry] at h
  split at h
  · cases h
    rfl
  · cases h

theorem volume_of_var {name : Str} {v : VarRef Int Nat} (h : volumeRegistry.var name = .ok v) :
    v = volumeSpec.ref := by
  obtain ⟨item, hlookup, -, hkind⟩ := var_eq_ok h
  obtain ⟨key, hkey⟩ := names_of_lookup hlookup
  cases volume_of_names hkey
  obtain ⟨spec, hspec, rfl⟩ | ⟨spec, hspec, -⟩ := hkind
  · cases hspec
    rfl
  · cases hspec

theorem host_volume : volumeRegistry.Host where
  clamp v value := by
    cases value with
    | int i => exact congrArg Value.int (clampBounds_idem v.min v.max i)
    | float x => exact congrArg Value.float (clampBounds_idem v.min v.max x)
    | _ => rfl
  default name v hv := by
    cases volume_of_var hv
    exact ⟨rfl, rfl⟩
  onChange name v hook hv hhook := by
    cases volume_of_var hv
    cases hhook
  observer observer hobserver := absurd hobserver List.not_mem_nil
  command key spec run hkey := by cases volume_of_names hkey
  dynamicCommand key name run hkey := by cases volume_of_names hkey
  onPress key spec hook hkey := by cases volume_of_names hkey
  onRelease key spec hook hkey := by cases volume_of_names hkey

theorem fresh_volume : volumeRegistry.Fresh volumeCtx.state where
  archive := rfl
  project := rfl
  inherited := rfl
  agentClass := rfl
  session := rfl
  parked := rfl
  engagements := rfl
  values name v hv := by
    cases volume_of_var hv
    rfl

end OhMyPi.Console.Registry
