import OhMyPi.Console.Keys
import Mathlib.Data.List.Count

/-! Press counts and the keys that are held. Where the text of each script says which actions it
presses, every count is the number of presses of the keys still held, and a release takes off the
presses of its own key. -/

namespace OhMyPi.Console

/-! ## Single words -/

/-- Text that the lexer takes for one word, behind another character. -/
def bareWord (text : Str) : Bool := text.all fun c => !Lexer.isWordEnd c

theorem word_release {base : Str} (h : bareWord base = true) (line : Nat) :
    Lexer.word ⟨'-' :: base, line⟩ = (.atom ('-' :: base), ⟨[], line⟩) := by
  have htake : ('-' :: base).takeWhile (fun c => !Lexer.isWordEnd c) = '-' :: base := by
    rw [List.takeWhile_eq_self_iff]
    intro c hc
    rcases List.mem_cons.1 hc with rfl | hc
    · decide
    · exact List.all_eq_true.1 h c hc
  rw [Lexer.word]
  simp only [htake, List.drop_length]

/-- The text of a release is one statement. -/
theorem parse_release {base : Str} (h : bareWord base = true) :
    parse ('-' :: base) = .ok [⟨.atom ('-' :: base), [], 1⟩] := by
  have hskip : Lexer.skipTrivia false ⟨'-' :: base, 1⟩ = ⟨'-' :: base, 1⟩ := rfl
  have harg : ∀ fuel, Lexer.arg (fuel + 1) ⟨'-' :: base, 1⟩ = .ok (.atom ('-' :: base), ⟨[], 1⟩) := by
    intro fuel
    rw [← word_release h 1]
    rfl
  have hstatement : Lexer.statement (('-' :: base).length + 1) [] ⟨'-' :: base, 1⟩ =
      .ok ([.atom ('-' :: base)], ⟨[], 1⟩) := by
    rw [Lexer.statement, hskip]
    simp only
    rw [harg]
    rfl
  rw [parse, Lexer.script, hskip]
  simp only
  rw [hstatement]
  rfl

/-! ## Presses -/

/-- The action that was pressed. -/
def Ran.press : Ran → Option Str
  | .action name true => some (foldName name)
  | _ => none

section

variable {V : Type}

/-- The presses that were performed between two states. -/
def performed (s s' : State V) : List Str := (s'.ran.drop s.ran.length).filterMap Ran.press

/-- No count changed, and no press was performed. -/
def Quiet (s s' : State V) : Prop :=
  s'.presses = s.presses ∧ ∃ ran, s'.ran = s.ran ++ ran ∧ ran.filterMap Ran.press = []

/-- These presses were performed and counted. -/
def Presses (actions : List Str) (s s' : State V) : Prop :=
  (∀ a, s'.presses a = s.presses a + actions.count a) ∧
    ∃ ran, s'.ran = s.ran ++ ran ∧ ran.filterMap Ran.press = actions

theorem Presses.performed {actions : List Str} {s s' : State V} (h : Presses actions s s') :
    performed s s' = actions := by
  obtain ⟨-, ran, hran, hactions⟩ := h
  rw [Console.performed, hran, List.drop_left, hactions]

theorem Quiet.presses {s s' : State V} (h : Quiet s s') : Presses [] s s' :=
  ⟨fun a => by rw [h.1]; rfl, h.2⟩

theorem Presses.refl (s : State V) : Presses [] s s := ⟨fun _ => rfl, [], by simp, rfl⟩

theorem Presses.trans {actions actions' : List Str} {s t u : State V} (h : Presses actions s t)
    (h' : Presses actions' t u) : Presses (actions ++ actions') s u := by
  obtain ⟨hcount, ran, hran, hactions⟩ := h
  obtain ⟨hcount', ran', hran', hactions'⟩ := h'
  refine ⟨fun a => ?_, ran ++ ran', by rw [hran', hran, List.append_assoc], ?_⟩
  · rw [hcount', hcount, List.count_append, Nat.add_assoc]
  · rw [List.filterMap_append, hactions, hactions']

/-- These actions were released, one press of each. -/
def Releases (actions : List Str) (s s' : State V) : Prop :=
  ∀ a, s'.presses a = s.presses a - actions.count a

end

namespace Registry

variable {Float Span : Type} [BEq Float] [BEq Span] {reg : Registry Float Span}

/-- The action that a name stands for. -/
def actionKey (reg : Registry Float Span) (base : Str) : Option Str :=
  match reg.lookup base with
  | some (.action spec) => some (foldName spec.name)
  | _ => none

/-! ## Actions -/

/-- The state once an action was counted, before its hook. -/
def counted (spec : ActionSpec (Value Float Span)) (pressed : Bool) (s : State (Value Float Span)) :
    State (Value Float Span) :=
  let key := foldName spec.name
  let count := s.presses key
  { s with
    presses := fun k => if k = key then (if pressed then count + 1 else count - 1) else s.presses k
    ran := s.ran ++ [.action spec.name pressed] }

/-- A hook that runs on the press is quiet. -/
def PressQuiet (spec : ActionSpec (Value Float Span)) (s : State (Value Float Span)) : Prop :=
  s.presses (foldName spec.name) = 0 →
    Quiet (counted spec true s) ((spec.onPress.getD id) (counted spec true s))

/-- A hook that runs on the release changes no count. -/
def ReleaseQuiet (spec : ActionSpec (Value Float Span)) (s : State (Value Float Span)) : Prop :=
  s.presses (foldName spec.name) = 1 →
    ((spec.onRelease.getD id) (counted spec false s)).presses = (counted spec false s).presses

theorem dispatchAction_eq {base : Str} {spec : ActionSpec (Value Float Span)}
    (h : reg.lookup base = some (.action spec)) (pressed : Bool) (s : State (Value Float Span)) :
    reg.dispatchAction base pressed s =
      if pressed then (.ok (), if s.presses (foldName spec.name) = 0 then
        (spec.onPress.getD id) (counted spec true s) else counted spec true s)
      else (.ok (), if s.presses (foldName spec.name) = 1 then
        (spec.onRelease.getD id) (counted spec false s) else counted spec false s) := by
  rw [dispatchAction, h]
  cases pressed <;> rfl

theorem perform_press {stmt : Statement} {base : Str} (hstmt : stmt.pressed = some base)
    {s : State (Value Float Span)} (halias : s.aliases ('+' :: base) = none) :
    reg.perform stmt s = reg.dispatchAction base true s := by
  obtain ⟨name, args, line⟩ := stmt
  cases name with
  | list items => cases hstmt
  | kv pairs => cases hstmt
  | atom text =>
    rw [Statement.pressed, Arg.asAtom] at hstmt
    split at hstmt
    · next heq =>
      cases heq
      cases hstmt
      rw [perform, dispatch]
      simp only [Arg.asAtom, halias]
      rfl
    · cases hstmt

theorem perform_release {base : Str} {line : Nat} {s : State (Value Float Span)}
    (halias : s.aliases ('-' :: base) = none) :
    reg.perform ⟨.atom ('-' :: base), [], line⟩ s = reg.dispatchAction base false s := by
  rw [perform, dispatch]
  simp only [Arg.asAtom, halias]
  rfl

/-- The press of a registered action. -/
theorem presses_dispatchAction {base : Str} {spec : ActionSpec (Value Float Span)}
    (h : reg.lookup base = some (.action spec)) {s : State (Value Float Span)} (hquiet : PressQuiet spec s) :
    (reg.dispatchAction base true s).1 = .ok () ∧
      Presses [foldName spec.name] s (reg.dispatchAction base true s).2 := by
  have hcounted : Presses [foldName spec.name] s (counted spec true s) := by
    refine ⟨fun a => ?_, [.action spec.name true], rfl, rfl⟩
    simp only [counted, List.count_singleton, beq_iff_eq, if_true]
    by_cases ha : a = foldName spec.name
    · rw [if_pos ha, if_pos ha.symm, ha]
    · rw [if_neg ha, if_neg (Ne.symm ha)]
      rfl
  rw [dispatchAction_eq h, if_pos rfl]
  refine ⟨rfl, ?_⟩
  dsimp only
  split
  · next hzero => simpa using hcounted.trans (hquiet hzero).presses
  · exact hcounted

/-- The release of a registered action. -/
theorem releases_dispatchAction {base : Str} {spec : ActionSpec (Value Float Span)}
    (h : reg.lookup base = some (.action spec)) {s : State (Value Float Span)}
    (hquiet : ReleaseQuiet spec s) : (reg.dispatchAction base false s).1 = .ok () ∧
      Releases [foldName spec.name] s (reg.dispatchAction base false s).2 := by
  have hcounted : Releases [foldName spec.name] s (counted spec false s) := by
    intro a
    simp only [counted, List.count_singleton, beq_iff_eq, Bool.false_eq_true, if_false]
    by_cases ha : a = foldName spec.name
    · rw [if_pos ha, if_pos ha.symm, ha]
    · rw [if_neg ha, if_neg (Ne.symm ha)]
      rfl
  rw [dispatchAction_eq h, if_neg Bool.false_ne_true]
  refine ⟨rfl, ?_⟩
  dsimp only
  split
  · next hone =>
    intro a
    rw [hquiet hone]
    exact hcounted a
  · exact hcounted

/-! ## Scripts -/

section

variable (reg)

/-- Every `+action` of the script is reached and presses that action, and nothing else of it presses or
releases one. -/
def CleanPress : List Statement → State (Value Float Span) → Prop
  | [], _ => True
  | stmt :: rest, s =>
    match stmt.pressed with
    | some base => bareWord base = true ∧ s.aliases ('+' :: base) = none ∧
      (∃ spec, reg.lookup base = some (.action spec) ∧ PressQuiet spec s) ∧
      CleanPress rest (reg.perform stmt s).2
    | none => Quiet s (reg.perform stmt s).2 ∧
      match (reg.perform stmt s).1 with
      | .ok () => CleanPress rest (reg.perform stmt s).2
      | .error _ => ∀ later ∈ rest, later.pressed = none

/-- No statement that is replayed presses or releases an action. -/
def CleanRepeat : List Statement → State (Value Float Span) → Prop
  | [], _ => True
  | stmt :: rest, s =>
    match stmt.name.asAtom with
    | none => CleanRepeat rest s
    | some name =>
      if name.head? = some '+' then CleanRepeat rest s
      else Quiet s (reg.perform stmt s).2 ∧
        match (reg.perform stmt s).1 with
        | .ok () => CleanRepeat rest (reg.perform stmt s).2
        | .error _ => True

/-- No release is an alias when it runs, and no hook of it changes a count. -/
def CleanRelease : List (Str × Nat) → State (Value Float Span) → Prop
  | [], _ => True
  | (release, _) :: rest, s => s.aliases release = none ∧
    (∀ spec, reg.lookup release.tail = some (.action spec) → ReleaseQuiet spec s) ∧
    CleanRelease rest (reg.run release s).2

/-- The action that a statement presses. -/
def pressedAction (stmt : Statement) : Option Str := stmt.pressed.bind reg.actionKey

/-- The action that a latched release is of. -/
def releasedAction (release : Str × Nat) : Option Str := reg.actionKey release.1.tail

end

theorem actionKey_eq {base : Str} {spec : ActionSpec (Value Float Span)}
    (h : reg.lookup base = some (.action spec)) : reg.actionKey base = some (foldName spec.name) := by
  rw [actionKey, h]

theorem runStatements_ok {run : Statement → Effect (Value Float Span) Unit} {stmt : Statement}
    {rest : List Statement} {s s' : State (Value Float Span)} (h : run stmt s = (.ok (), s'))
    (outcome : ExecOutcome) : runStatements false false run (stmt :: rest) outcome s =
      runStatements false false run rest { outcome with ran := outcome.ran + 1 } s' := by
  rw [runStatements]
  simp only [h]

theorem runStatements_error {run : Statement → Effect (Value Float Span) Unit} {stmt : Statement}
    {rest : List Statement} {s s' : State (Value Float Span)} {e : ConError}
    (h : run stmt s = (.error e, s')) (outcome : ExecOutcome) :
    runStatements false false run (stmt :: rest) outcome s = (.error e, s') := by
  rw [runStatements]
  simp only [h, Bool.false_eq_true, if_false]

/-- A clean script presses what it latches. -/
theorem presses_runStatements {stmts : List Statement} {s : State (Value Float Span)}
    (h : reg.CleanPress stmts s) (outcome : ExecOutcome) :
    Presses (stmts.filterMap reg.pressedAction) s
      (runStatements false false reg.perform stmts outcome s).2 := by
  induction stmts generalizing s outcome with
  | nil => exact .refl s
  | cons stmt rest ih =>
    rw [CleanPress] at h
    rw [List.filterMap_cons, pressedAction]
    split at h
    · next base hbase =>
      obtain ⟨-, halias, ⟨spec, hlookup, hquiet⟩, hrest⟩ := h
      obtain ⟨hok, hpresses⟩ := presses_dispatchAction hlookup hquiet
      rw [← perform_press hbase halias] at hok hpresses
      rcases hresult : reg.perform stmt s with ⟨result, s'⟩
      rw [hresult] at hok hpresses hrest
      cases hok
      rw [runStatements_ok hresult, hbase, Option.bind_some, actionKey_eq hlookup]
      exact hpresses.trans (ih hrest _)
    · next hnone =>
      obtain ⟨hquiet, hrest⟩ := h
      rw [hnone, Option.bind_none]
      rcases hresult : reg.perform stmt s with ⟨result, s'⟩
      rw [hresult] at hquiet hrest
      cases result with
      | ok =>
        rw [runStatements_ok hresult]
        exact hquiet.presses.trans (ih hrest _)
      | error e =>
        have hnil : rest.filterMap reg.pressedAction = [] := by
          rw [List.filterMap_eq_nil_iff]
          intro later hlater
          rw [pressedAction, hrest later hlater, Option.bind_none]
        rw [runStatements_error hresult, hnil]
        exact hquiet.presses

theorem presses_replay {stmts : List Statement} {s : State (Value Float Span)}
    (h : reg.CleanRepeat stmts s) (output : List Nat) : Presses [] s (reg.replay stmts output s).2 := by
  induction stmts generalizing s output with
  | nil => exact .refl s
  | cons stmt rest ih =>
    rw [CleanRepeat] at h
    rw [replay]
    cases hname : stmt.name.asAtom with
    | none =>
      rw [hname] at h
      exact ih h output
    | some name =>
      rw [hname] at h
      simp only at h ⊢
      by_cases hplus : name.head? = some '+'
      · rw [if_pos hplus] at h ⊢
        exact ih h output
      · rw [if_neg hplus] at h ⊢
        obtain ⟨hquiet, hrest⟩ := h
        rw [Action.bind_apply]
        rcases hresult : reg.perform stmt s with ⟨result, s'⟩
        rw [hresult] at hquiet hrest
        cases result with
        | ok => exact hquiet.presses.trans (ih hrest _)
        | error e => exact hquiet.presses

/-! ## Releases -/

/-- A latched release reads back as the release of a registered action. -/
def Latched (reg : Registry Float Span) (release : Str × Nat) : Prop :=
  ∃ base spec, release.1 = '-' :: base ∧ bareWord base = true ∧ reg.lookup base = some (.action spec)

theorem run_release {base : Str} (hbare : bareWord base = true) (s : State (Value Float Span)) :
    (reg.run ('-' :: base) s).2 = (reg.perform ⟨.atom ('-' :: base), [], 1⟩ s).2 ∧
      ((reg.perform ⟨.atom ('-' :: base), [], 1⟩ s).1 = .ok () →
        ∃ outcome, (reg.run ('-' :: base) s).1 = .ok outcome) := by
  have hrun : reg.run ('-' :: base) s =
      runStatements false false reg.perform [⟨.atom ('-' :: base), [], 1⟩] {} s := by
    rw [run, eval, evalFuel, parse_release hbare]
    rfl
  rcases hresult : reg.perform ⟨.atom ('-' :: base), [], 1⟩ s with ⟨result, s'⟩
  cases result with
  | ok =>
    rw [hrun, runStatements_ok hresult]
    exact ⟨rfl, fun _ => ⟨_, rfl⟩⟩
  | error e =>
    rw [hrun, runStatements_error hresult]
    exact ⟨rfl, fun h => by cases h⟩

/-- Clean releases take off the presses of their actions. -/
theorem releases_runReleases {releases : List (Str × Nat)} {s : State (Value Float Span)}
    (hlatched : ∀ release ∈ releases, reg.Latched release) (h : reg.CleanRelease releases s)
    (output : List Nat) :
    Releases (releases.filterMap reg.releasedAction) s (reg.runReleases releases output s).2 := by
  induction releases generalizing s output with
  | nil => exact fun a => rfl
  | cons release rest ih =>
    obtain ⟨⟨base, spec, hbase, hbare, hlookup⟩, hrest⟩ := List.forall_mem_cons.1 hlatched
    obtain ⟨text, line⟩ := release
    simp only at hbase
    subst hbase
    obtain ⟨halias, hquiet, hclean⟩ := h
    obtain ⟨hok, hreleases⟩ := releases_dispatchAction hlookup (hquiet spec hlookup)
    rw [← perform_release halias] at hok hreleases
    obtain ⟨hstate, houtcome⟩ := run_release hbare s
    obtain ⟨outcome, houtcome⟩ := houtcome hok
    rcases hresult : reg.run ('-' :: base) s with ⟨result, s'⟩
    rw [hresult] at hstate houtcome hclean
    cases houtcome
    rw [runReleases, Action.bind_of_ok hresult, List.filterMap_cons, releasedAction]
    simp only [List.tail_cons, actionKey_eq hlookup]
    intro a
    have hone : s'.presses a = s.presses a - [foldName spec.name].count a := by
      rw [show s' = _ from hstate]
      exact hreleases a
    rw [ih hrest hclean _ a, hone, Nat.sub_sub, ← List.count_append, List.singleton_append]

theorem latched_latches {stmts : List Statement} {s : State (Value Float Span)}
    (h : reg.CleanPress stmts s) : ∀ release ∈ latches stmts, reg.Latched release := by
  induction stmts generalizing s with
  | nil => exact fun release hrelease => absurd hrelease List.not_mem_nil
  | cons stmt rest ih =>
    rw [CleanPress] at h
    rw [latches, List.filterMap_cons]
    split at h
    · next base hbase =>
      obtain ⟨hbare, -, ⟨spec, hlookup, -⟩, hrest⟩ := h
      rw [hbase]
      exact List.forall_mem_cons.2 ⟨⟨base, spec, rfl, hbare, hlookup⟩, ih hrest⟩
    · next hnone =>
      obtain ⟨-, hrest⟩ := h
      rw [hnone]
      split at hrest
      · exact ih hrest
      · intro release hrelease
        obtain ⟨later, hlater, heq⟩ := List.mem_filterMap.1 hrelease
        rw [hrest later hlater] at heq
        cases heq

theorem releasedAction_latches (stmts : List Statement) :
    (latches stmts).filterMap reg.releasedAction = stmts.filterMap reg.pressedAction := by
  rw [latches, List.filterMap_filterMap]
  refine List.filterMap_congr fun stmt _ => ?_
  rw [pressedAction]
  cases stmt.pressed <;> rfl

/-! ## Runs -/

/-- The keys, and the presses that the keys still down have performed. -/
structure Desk (V : Type) where
  keys : Keys V
  ledger : List (Str × Str)

/-- An edge of a key, or another change of the context between two edges. -/
inductive Edge (V : Type) where
  | press (key : Str)
  | release (key : Str)
  | change (state : State V)

section

variable (reg)

def Desk.step (d : Desk (Value Float Span)) : Edge (Value Float Span) → Desk (Value Float Span)
  | .press text =>
    let next := (reg.key text true d.keys).2
    match normalizeChord text with
    | .error _ => ⟨next, d.ledger⟩
    | .ok chord => ⟨next, d.ledger ++ (performed d.keys.state next.state).map (chord, ·)⟩
  | .release text =>
    let next := (reg.key text false d.keys).2
    match normalizeChord text with
    | .error _ => ⟨next, d.ledger⟩
    | .ok chord => ⟨next, d.ledger.filter fun p => p.1 ≠ chord⟩
  | .change state => { d with keys := { d.keys with state } }

/-- The script of the edge presses and releases what its text says, and nothing else does. -/
def Meets (d : Desk (Value Float Span)) : Edge (Value Float Span) → Prop
  | .press text => ∀ chord, normalizeChord text = .ok chord →
    match d.keys.pressedBinds chord with
    | some prior => ∀ stmts, parse prior.script = .ok stmts → reg.CleanRepeat stmts d.keys.state
    | none => ∀ script stmts, bound d.keys.state chord = some script → parse script = .ok stmts →
      reg.CleanPress stmts d.keys.state
  | .release text => ∀ chord held, normalizeChord text = .ok chord →
    d.keys.pressedBinds chord = some held → reg.CleanRelease held.releases d.keys.state
  | .change state => state.presses = d.keys.state.presses

/-- The presses of one key. -/
def Desk.of (d : Desk (Value Float Span)) (chord : Str) : List Str :=
  (d.ledger.filter fun p => p.1 = chord).map Prod.snd

/-- Every count is the number of presses of the keys that are down, and each key has latched its
own. -/
structure Invariant (start : Str → Nat) (d : Desk (Value Float Span)) : Prop where
  count : ∀ a, d.keys.state.presses a = start a + (d.ledger.map Prod.snd).count a
  latched : ∀ chord held, d.keys.pressedBinds chord = some held →
    (∀ release ∈ held.releases, reg.Latched release) ∧
      d.of chord = held.releases.filterMap reg.releasedAction
  unlatched : ∀ chord, d.keys.pressedBinds chord = none → d.of chord = []

end

theorem of_append (keys keys' : Keys (Value Float Span)) (ledger : List (Str × Str)) (chord other : Str)
    (actions : List Str) :
    (Desk.of ⟨keys, ledger ++ actions.map (chord, ·)⟩ other) =
      Desk.of ⟨keys', ledger⟩ other ++ if other = chord then actions else [] := by
  rw [Desk.of, Desk.of, List.filter_append, List.map_append]
  congr 1
  split
  · next heq =>
    rw [List.filter_eq_self.2 (by simp [heq]), List.map_map]
    exact List.map_id _
  · next hne =>
    rw [List.filter_eq_nil_iff.2 (by simp [Ne.symm hne])]
    rfl

theorem of_filter (keys keys' : Keys (Value Float Span)) (ledger : List (Str × Str)) (chord other : Str) :
    Desk.of ⟨keys, ledger.filter fun p => p.1 ≠ chord⟩ other =
      if other = chord then [] else Desk.of ⟨keys', ledger⟩ other := by
  rw [Desk.of, Desk.of, List.filter_filter]
  split
  · next heq =>
    rw [List.filter_eq_nil_iff.2 (by simp [heq])]
    rfl
  · next hne =>
    congr 1
    refine List.filter_congr fun p _ => ?_
    by_cases hp : p.1 = other
    · simp [hp, hne]
    · simp [hp]

/-- The presses of a key and those of the others. -/
theorem count_ledger (ledger : List (Str × Str)) (chord a : Str) :
    (ledger.map Prod.snd).count a =
      ((ledger.filter fun p => p.1 = chord).map Prod.snd).count a +
        ((ledger.filter fun p => p.1 ≠ chord).map Prod.snd).count a := by
  induction ledger with
  | nil => rfl
  | cons p ledger ih =>
    by_cases hp : p.1 = chord
    · simp only [List.map_cons, List.count_cons, List.filter_cons, hp, decide_true, if_true, ne_eq,
        not_true_eq_false, decide_false, Bool.false_eq_true, if_false] at ih ⊢
      omega
    · simp only [List.map_cons, List.count_cons, List.filter_cons, hp, decide_true, if_true, ne_eq,
        not_false_eq_true, decide_false, Bool.false_eq_true, if_false] at ih ⊢
      omega

theorem execConsole_state (src : Str) (s : State (Value Float Span)) :
    (reg.execConsole src s).2 = (reg.run src s).2 := by
  rw [execConsole, Action.bind_apply]
  rcases reg.run src s with ⟨_ | outcome, s'⟩ <;> rfl

theorem run_eq {src : Str} {stmts : List Statement} (hparse : parse src = .ok stmts)
    (s : State (Value Float Span)) :
    reg.run src s = runStatements false false reg.perform stmts {} s := by
  rw [run, eval, evalFuel, hparse]
  rfl

theorem key_fresh {keys : Keys (Value Float Span)} {text chord script : Str} {stmts : List Statement}
    (hchord : normalizeChord text = .ok chord) (hfree : keys.pressedBinds chord = none)
    (hbound : bound keys.state chord = some script) (hparse : parse script = .ok stmts) :
    (reg.key text true keys).2 =
      ⟨(reg.run script keys.state).2, if (latches stmts).isEmpty then keys.pressedBinds
        else Function.update keys.pressedBinds chord (some ⟨script, latches stmts⟩)⟩ := by
  rw [key]
  simp only [hchord, hfree, hbound, hparse, onState, execConsole_state]

theorem key_held {keys : Keys (Value Float Span)} {text chord : Str} {prior : PressedBind}
    (hchord : normalizeChord text = .ok chord) (hheld : keys.pressedBinds chord = some prior) :
    (reg.key text true keys).2 = { keys with state := (reg.execKeyRepeat prior.script keys.state).2 } := by
  rw [key]
  simp only [hchord, hheld, onState]

/-- A press of a key that is bound to nothing, or to no script. -/
theorem key_idle {keys : Keys (Value Float Span)} {text chord : Str}
    (hchord : normalizeChord text = .ok chord) (hfree : keys.pressedBinds chord = none)
    (h : ∀ script stmts, bound keys.state chord = some script → parse script ≠ .ok stmts) :
    (reg.key text true keys).2 = keys := by
  rw [key]
  simp only [hchord, hfree]
  cases hbound : bound keys.state chord with
  | none => rfl
  | some script =>
    cases hparse : parse script with
    | error e => simp only [hparse]
    | ok stmts => exact absurd hparse (h script stmts hbound)

/-- What a press that meets its condition does: nothing to the counts, or it latches what it presses. -/
theorem key_press {d : Desk (Value Float Span)} {text chord : Str} (hchord : normalizeChord text = .ok chord)
    (h : reg.Meets d (.press text)) :
    (Presses [] d.keys.state (reg.key text true d.keys).2.state ∧
        (reg.key text true d.keys).2.pressedBinds = d.keys.pressedBinds) ∨
      (d.keys.pressedBinds chord = none ∧ ∃ script stmts,
        (∀ release ∈ latches stmts, reg.Latched release) ∧
        Presses (stmts.filterMap reg.pressedAction) d.keys.state (reg.key text true d.keys).2.state ∧
        (reg.key text true d.keys).2.pressedBinds =
          Function.update d.keys.pressedBinds chord (some ⟨script, latches stmts⟩)) := by
  have h := h chord hchord
  cases hheld : d.keys.pressedBinds chord with
  | some prior =>
    rw [hheld] at h
    rw [key_held hchord hheld, execKeyRepeat]
    cases hparse : parse prior.script with
    | error e => exact .inl ⟨.refl _, rfl⟩
    | ok stmts => exact .inl ⟨presses_replay (h stmts hparse) [], rfl⟩
  | none =>
    rw [hheld] at h
    by_cases hscript : ∃ script stmts, bound d.keys.state chord = some script ∧ parse script = .ok stmts
    · obtain ⟨script, stmts, hbound, hparse⟩ := hscript
      have hclean := h script stmts hbound hparse
      have hpresses := presses_runStatements hclean {}
      rw [key_fresh hchord hheld hbound hparse, run_eq hparse]
      by_cases hempty : (latches stmts).isEmpty = true
      · rw [← releasedAction_latches, List.isEmpty_iff.1 hempty, List.filterMap_nil] at hpresses
        exact .inl ⟨hpresses, if_pos hempty⟩
      · exact .inr ⟨rfl, script, stmts, latched_latches hclean, hpresses, if_neg hempty⟩
    · rw [key_idle hchord hheld fun script stmts hbound hparse => hscript ⟨script, stmts, hbound, hparse⟩]
      exact .inl ⟨.refl _, rfl⟩

theorem Invariant.press {start : Str → Nat} {d : Desk (Value Float Span)} (hinv : reg.Invariant start d)
    {text : Str} (h : reg.Meets d (.press text)) : reg.Invariant start (d.step reg (.press text)) := by
  cases hchord : normalizeChord text with
  | error e =>
    have hkey : (reg.key text true d.keys).2 = d.keys := by simp only [key, hchord]
    rw [Desk.step, hchord, hkey]
    exact hinv
  | ok chord =>
    simp only [Desk.step, hchord]
    have hcount : ∀ {actions : List Str}, Presses actions d.keys.state (reg.key text true d.keys).2.state →
        ∀ a, (reg.key text true d.keys).2.state.presses a =
          start a + ((d.ledger ++ actions.map (chord, ·)).map Prod.snd).count a := by
      intro actions hpresses a
      rw [hpresses.1, hinv.count, List.map_append, List.count_append, Nat.add_assoc, List.map_map]
      congr 2
      exact congrArg _ (List.map_id _).symm
    obtain ⟨hpresses, hbinds⟩ | ⟨hfree, script, stmts, hlatched, hpresses, hbinds⟩ := key_press hchord h
    · rw [hpresses.performed]
      refine ⟨hcount hpresses, ?_, ?_⟩
      · intro other held hheld
        rw [List.map_nil, List.append_nil]
        exact hinv.latched other held (hbinds ▸ hheld)
      · intro other hother
        rw [List.map_nil, List.append_nil]
        exact hinv.unlatched other (hbinds ▸ hother)
    · rw [hpresses.performed]
      refine ⟨hcount hpresses, ?_, ?_⟩
      · intro other held hheld
        rw [of_append _ d.keys]
        rw [hbinds, Function.update_apply] at hheld
        split at hheld
        · next heq =>
          cases hheld
          rw [if_pos heq, heq, hinv.unlatched chord hfree, List.nil_append, releasedAction_latches]
          exact ⟨hlatched, rfl⟩
        · next hne =>
          rw [if_neg hne, List.append_nil]
          exact hinv.latched other held hheld
      · intro other hother
        rw [of_append _ d.keys]
        rw [hbinds, Function.update_apply] at hother
        split at hother
        · cases hother
        · next hne =>
          rw [if_neg hne, List.append_nil]
          exact hinv.unlatched other hother

/-- A release that meets its condition takes off the presses of its key. -/
theorem key_release {start : Str → Nat} {d : Desk (Value Float Span)} (hinv : reg.Invariant start d)
    {text chord : Str} (hchord : normalizeChord text = .ok chord) (h : reg.Meets d (.release text)) :
    Releases (d.of chord) d.keys.state (reg.key text false d.keys).2.state ∧
      (reg.key text false d.keys).2.pressedBinds = Function.update d.keys.pressedBinds chord none := by
  cases hheld : d.keys.pressedBinds chord with
  | none =>
    rw [hinv.unlatched chord hheld]
    simp only [key, hchord, hheld]
    refine ⟨fun a => rfl, ?_⟩
    rw [← hheld, Function.update_eq_self]
  | some held =>
    obtain ⟨hlatched, hof⟩ := hinv.latched chord held hheld
    rw [hof]
    simp only [key, hchord, hheld, onState]
    exact ⟨releases_runReleases hlatched (h chord held hchord hheld) [], trivial⟩

theorem Invariant.release {start : Str → Nat} {d : Desk (Value Float Span)}
    (hinv : reg.Invariant start d) {text : Str} (h : reg.Meets d (.release text)) :
    reg.Invariant start (d.step reg (.release text)) := by
  cases hchord : normalizeChord text with
  | error e =>
    have hkey : (reg.key text false d.keys).2 = d.keys := by simp only [key, hchord]
    rw [Desk.step, hchord, hkey]
    exact hinv
  | ok chord =>
    obtain ⟨hreleases, hbinds⟩ := key_release hinv hchord h
    simp only [Desk.step, hchord]
    refine ⟨fun a => ?_, ?_, ?_⟩
    · have hsplit := count_ledger d.ledger chord a
      rw [hreleases, hinv.count, Desk.of, hsplit, Nat.add_left_comm, Nat.add_sub_cancel_left]
    · intro other held hheld
      rw [of_filter _ d.keys]
      rw [hbinds, Function.update_apply] at hheld
      split at hheld
      · cases hheld
      · next hne =>
        rw [if_neg hne]
        exact hinv.latched other held hheld
    · intro other hother
      rw [of_filter _ d.keys]
      split
      · rfl
      · next hne =>
        rw [hbinds, Function.update_of_ne hne] at hother
        exact hinv.unlatched other hother

/-- Every step that meets its condition keeps the invariant. -/
theorem Invariant.step {start : Str → Nat} {d : Desk (Value Float Span)} (hinv : reg.Invariant start d)
    {edge : Edge (Value Float Span)} (h : reg.Meets d edge) : reg.Invariant start (d.step reg edge) := by
  cases edge with
  | press text => exact hinv.press h
  | release text => exact hinv.release h
  | change state =>
    have hsame : state.presses = d.keys.state.presses := h
    exact ⟨fun a => (congrFun hsame a).trans (hinv.count a), hinv.latched, hinv.unlatched⟩

/-- The desks that edges lead to, each of which meets its condition. -/
inductive Run (reg : Registry Float Span) (first : Desk (Value Float Span)) :
    Desk (Value Float Span) → Prop
  | start : Run reg first first
  | step {d : Desk (Value Float Span)} (edge : Edge (Value Float Span)) :
    Run reg first d → reg.Meets d edge → Run reg first (d.step reg edge)

/-- No key is down. -/
def Desk.idle (s : State (Value Float Span)) : Desk (Value Float Span) := ⟨⟨s, fun _ => none⟩, []⟩

theorem Run.invariant {s : State (Value Float Span)} {d : Desk (Value Float Span)}
    (h : Run reg (.idle s) d) : reg.Invariant s.presses d := by
  induction h with
  | start =>
    refine ⟨fun _ => rfl, ?_, fun _ _ => rfl⟩
    intro chord held hheld
    cases hheld
  | step edge _ hmeets ih => exact ih.step hmeets

/-- Every count is the number of presses of the keys still down, it is back where it started when none
is, and a release takes off the presses of its own key. -/
structure Balanced (reg : Registry Float Span) (start : Str → Nat) (d : Desk (Value Float Span)) :
    Prop where
  count : ∀ a, d.keys.state.presses a = start a + (d.ledger.map Prod.snd).count a
  back : d.ledger = [] → d.keys.state.presses = start
  own : ∀ text chord, normalizeChord text = .ok chord → reg.Meets d (.release text) →
    ∀ a, (d.step reg (.release text)).keys.state.presses a + (d.of chord).count a =
      d.keys.state.presses a

def attackSpec : ActionSpec (Value Nat Nat) := ⟨"attack".toList, none, none⟩

def attackRegistry : Registry Nat Nat where
  scalars :=
    { parseFloat := fun _ => none
      parseSpan := fun _ => none
      isNever := fun _ => false
      clampFloat := fun _ _ x => x
      clampInt := fun _ _ i => i }
  role := .standalone
  names key := if key = "attack".toList then some (.action attackSpec) else none
  observers := []
  folded := by
    intro key item h
    split at h
    · next heq =>
      cases h
      rw [heq]
      rfl
    · cases h
  reset_builtin := by
    intro key spec h
    split at h <;> cases h

def attackState : State (Value Nat Nat) where
  layers :=
    { archive := fun _ => none
      project := fun _ => none
      inherited := fun _ => none
      agentClass := fun _ => none
      session := fun _ => none
      parked := none
      engagements := [] }
  values := fun _ => .str []
  dirty := fun _ => false
  presses := fun _ => 0
  aliases := fun _ => none
  binds := fun chord =>
    if chord = ['a'] then some "+attack".toList
    else if chord = ['b'] then some "bogus; +attack".toList
    else none
  depth := 0
  sessionWrites := []
  output := []
  ran := []

/-- The desk once the first key is down and the second one was pressed and released. -/
def stolenDesk : Desk (Value Nat Nat) :=
  [.press ['a'], .press ['b'], .release ['b']].foldl (Desk.step attackRegistry) (.idle attackState)

end Registry

end OhMyPi.Console
