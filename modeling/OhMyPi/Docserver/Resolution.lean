import OhMyPi.Docserver.Paths

/-! Capability resolution against path walking. The resolver's queue of steps is a walk of the tree
that never leaves the root, so what it returns is what the walk reaches. -/

namespace OhMyPi.Docserver

open PathWalk Text Relation

theorem symlinkMetadata_eq_ok :
    symlinkMetadata e names = .ok metadata ↔ e.at? names = some metadata := by
  induction names generalizing e with
  | nil =>
    rw [symlinkMetadata, FsNode.at?]
    exact ⟨fun h => (by cases h; rfl), fun h => (by cases h; rfl)⟩
  | cons name names ih =>
    rw [FsNode.at?]
    cases e with
    | dir children =>
      rw [symlinkMetadata, FsNode.child]
      cases children.lookup name with
      | none => exact ⟨fun h => (by cases h), fun h => (by cases h)⟩
      | some c => exact ih
    | file => exact ⟨fun h => (by cases h), fun h => (by cases h)⟩
    | special => exact ⟨fun h => (by cases h), fun h => (by cases h)⟩
    | link => exact ⟨fun h => (by cases h), fun h => (by cases h)⟩

/-! ### Components and steps -/

/-- The component of a step that is not skipped. -/
def stepComponent (name : Name) : Component := if name = dotdot then .parentDir else .normal name

theorem stepComponent_plain (h : Plain name) : stepComponent name = .normal name :=
  if_neg h.ne_dotdot

theorem map_stepComponent {names : List Name} (h : ∀ name ∈ names, Plain name) :
    names.map stepComponent = names.map .normal :=
  List.map_congr_left fun name hname => stepComponent_plain (h name hname)

theorem pathSteps_append (h : LocalFs.pathSteps identity reason front = .ok steps) :
    LocalFs.pathSteps identity reason (front ++ back) =
      (LocalFs.pathSteps identity reason back).map (steps ++ ·) := by
  induction front generalizing steps with
  | nil =>
    cases h
    rw [List.nil_append]
    cases LocalFs.pathSteps identity reason back <;> rfl
  | cons component front ih =>
    cases component with
    | rootDir => cases h
    | curDir => exact ih h
    | parentDir =>
      obtain ⟨tail, htail, rfl⟩ := Except.map_eq_ok.1 h
      change (LocalFs.pathSteps identity reason (front ++ back)).map (dotdot :: ·) = _
      rw [ih htail]
      cases LocalFs.pathSteps identity reason back <;> rfl
    | normal name =>
      obtain ⟨tail, htail, rfl⟩ := Except.map_eq_ok.1 h
      change (LocalFs.pathSteps identity reason (front ++ back)).map (name :: ·) = _
      rw [ih htail]
      cases LocalFs.pathSteps identity reason back <;> rfl

theorem pathSteps_map_stepComponent (steps : List Name) :
    LocalFs.pathSteps identity reason (steps.map stepComponent) = .ok steps := by
  induction steps with
  | nil => rfl
  | cons step steps ih =>
    rw [List.map_cons, stepComponent]
    split
    next heq =>
      rw [LocalFs.pathSteps, ih, heq]
      rfl
    next =>
      rw [LocalFs.pathSteps, ih]
      rfl

theorem filterMap_ofPiece (steps : List Name) :
    steps.filterMap Component.ofPiece = (away steps).map stepComponent := by
  induction steps with
  | nil => rfl
  | cons piece steps ih =>
    cases (inferInstance : Decidable (IsHere piece)) with
    | isTrue hhere =>
      have hpiece : Component.ofPiece piece = none := by
        rw [Component.ofPiece]
        exact if_pos hhere
      rw [away_cons_here hhere, List.filterMap_cons_none hpiece, ih]
    | isFalse haway =>
      have hpiece : Component.ofPiece piece = some (stepComponent piece) := by
        rw [Component.ofPiece, stepComponent]
        refine (if_neg haway).trans ?_
        split <;> rfl
      rw [away_cons haway, List.filterMap_cons_some hpiece, ih, List.map_cons]

theorem components_absolute (h : isAbsolute path = true) :
    components path = .rootDir :: (strides path).map stepComponent := by
  rw [components, if_pos h, filterMap_ofPiece]
  rfl

/-- A relative path is written with these steps: a `.` may stand at its start. -/
def Spells (path : PathBuf) (steps : List Name) : Prop :=
  path = steps.map stepComponent ∨ path = .curDir :: steps.map stepComponent

theorem Spells.pathSteps (h : Spells path steps) :
    LocalFs.pathSteps identity reason path = .ok steps := by
  rcases h with rfl | rfl
  · exact pathSteps_map_stepComponent steps
  · exact pathSteps_map_stepComponent steps

theorem stepComponent_ne_rootDir (name : Name) : stepComponent name ≠ .rootDir := by
  intro h
  rw [stepComponent] at h
  split at h <;> cases h

theorem stepComponent_ne_curDir (name : Name) : stepComponent name ≠ .curDir := by
  intro h
  rw [stepComponent] at h
  split at h <;> cases h

theorem Spells.head?_ne (h : Spells path steps) : path.head? ≠ some .rootDir := by
  intro hhead
  rcases h with rfl | rfl
  · cases steps with
    | nil => cases hhead
    | cons step steps => exact stepComponent_ne_rootDir step (Option.some.inj hhead)
  · cases hhead

theorem filter_map_stepComponent (steps : List Name) :
    (steps.map stepComponent).filter (· ≠ .curDir) = steps.map stepComponent := by
  apply List.filter_eq_self.2
  intro component hmem
  obtain ⟨name, -, rfl⟩ := List.mem_map.1 hmem
  exact decide_eq_true (stepComponent_ne_curDir name)

theorem Spells.filter (h : Spells path steps) :
    path.filter (· ≠ .curDir) = steps.map stepComponent := by
  rcases h with rfl | rfl
  · exact filter_map_stepComponent steps
  · exact filter_map_stepComponent steps

theorem components_relative (h : isAbsolute path = false) :
    Spells (components path) (strides path) := by
  have hnot : ¬ isAbsolute path = true := by simp [h]
  rw [Spells, components, if_neg hnot, filterMap_ofPiece]
  split
  · exact .inr rfl
  · exact .inl rfl

theorem head?_components :
    (components path).head? = some .rootDir ↔ isAbsolute path = true := by
  constructor
  · intro h
    cases habsolute : isAbsolute path with
    | true => rfl
    | false => exact absurd h (components_relative habsolute).head?_ne
  · intro h
    rw [components_absolute h]
    rfl

theorem stripPrefix_eq_some (h : stripPrefix path front = some rest) : path = front ++ rest := by
  fun_induction stripPrefix path front with
  | case1 => cases h; rfl
  | case2 => cases h
  | case3 path c base ih => rw [ih h, List.cons_append]
  | case4 => cases h

namespace LocalFs

variable {fs : LocalFs}

/-- What is left of an absolute path under the root. -/
theorem strides_of_stripPrefix (habsolute : isAbsolute path = true)
    (h : stripPrefix (components path) fs.rootComponents = some relative) :
    ∃ steps, pathSteps identity reason relative = .ok steps ∧ strides path = fs.rootPath ++ steps := by
  have hpath := stripPrefix_eq_some h
  rw [components_absolute habsolute, rootComponents, List.cons_append] at hpath
  have hall : pathSteps identity reason ((strides path).map stepComponent) = .ok (strides path) :=
    pathSteps_map_stepComponent _
  have hroot : pathSteps identity reason (fs.rootPath.map .normal) = .ok fs.rootPath := by
    rw [← map_stepComponent fs.rootPath_plain, pathSteps_map_stepComponent]
  rw [(List.cons.inj hpath).2, pathSteps_append hroot] at hall
  obtain ⟨steps, hsteps, heq⟩ := Except.map_eq_ok.1 hall
  exact ⟨steps, hsteps, heq.symm⟩

/-- The two ways in which a link target is put in front of the pending steps. -/
theorem prependPathSteps_target
    (h : fs.prependPathSteps pending resolved (components path) identity = .ok (pending', resolved')) :
    (isAbsolute path = true ∧ resolved' = [] ∧
      ∃ steps, strides path = fs.rootPath ++ steps ∧ pending' = steps ++ pending) ∨
    (isAbsolute path = false ∧ resolved' = resolved ∧ pending' = strides path ++ pending) := by
  rw [prependPathSteps] at h
  cases habsolute : isAbsolute path with
  | true =>
    rw [if_pos (head?_components.2 habsolute)] at h
    split at h
    next => cases h
    next relative hstrip =>
      obtain ⟨steps, hsteps, hstrides⟩ := strides_of_stripPrefix habsolute hstrip
      rw [hsteps] at h
      cases h
      exact .inl ⟨rfl, rfl, steps, hstrides, rfl⟩
  | false =>
    have hhead : ¬ (components path).head? = some .rootDir := by
      rw [head?_components, habsolute]
      exact Bool.false_ne_true
    rw [if_neg hhead, (components_relative habsolute).pathSteps] at h
    cases h
    exact .inr ⟨rfl, rfl, rfl⟩

/-! ### The loop as a walk -/

theorem at?_below (fs : LocalFs) (names : List Name) :
    fs.tree.at? (fs.rootPath ++ names) = fs.root.at? names := by
  rw [FsNode.at?_append, fs.at_rootPath]
  rfl

/-- What the loop keeps: the resolved names spell a place that is no link, a directory while steps
are pending, and every pending step goes up or into a name. -/
structure Standing (fs : LocalFs) (pending resolved : List Name) : Prop where
  steps : ∀ step ∈ pending, step = dotdot ∨ Plain step
  plain : ∀ name ∈ resolved, Plain name
  entry : ∃ d, fs.root.at? resolved = some d ∧ d.isLink = false ∧ (pending ≠ [] → d.isDir = true)

theorem steps_strides (path : List UInt8) : ∀ step ∈ strides path, step = dotdot ∨ Plain step := by
  intro step hstep
  cases (inferInstance : Decidable (step = dotdot)) with
  | isTrue heq => exact .inl heq
  | isFalse hne => exact .inr (plain_of_mem_strides hstep hne)

theorem Standing.start (h : ∀ step ∈ pending, step = dotdot ∨ Plain step) :
    Standing fs pending [] where
  steps := h
  plain _ hname := absurd hname List.not_mem_nil
  entry := ⟨fs.root, rfl, FsNode.not_isLink_of_isDir fs.root_isDir, fun _ => fs.root_isDir⟩

theorem Standing.dir (h : Standing fs (step :: pending) resolved) :
    ∃ d, fs.tree.at? (fs.rootPath ++ resolved) = some d ∧ d.isDir = true := by
  obtain ⟨d, hd, -, hdir⟩ := h.entry
  exact ⟨d, by rw [at?_below, hd], hdir (List.cons_ne_nil _ _)⟩

theorem Standing.up (h : Standing fs (step :: pending) resolved) (hne : resolved ≠ []) :
    Standing fs pending resolved.dropLast where
  steps s hs := h.steps s (List.mem_cons_of_mem _ hs)
  plain name hname := h.plain name (List.dropLast_subset _ hname)
  entry := by
    obtain ⟨d, hd, -⟩ := h.entry
    rw [← List.dropLast_append_getLast hne] at hd
    obtain ⟨parent, hparent, hdir⟩ := FsNode.isDir_of_at?_append hd
    exact ⟨parent, hparent, FsNode.not_isLink_of_isDir hdir, fun _ => hdir⟩

theorem Standing.into (h : Standing fs (step :: pending) resolved) (hplain : Plain step)
    (hat : fs.root.at? (resolved ++ [step]) = some e) (hlink : e.isLink = false)
    (hdir : pending ≠ [] → e.isDir = true) : Standing fs pending (resolved ++ [step]) where
  steps s hs := h.steps s (List.mem_cons_of_mem _ hs)
  plain name hname := by
    rcases List.mem_append.1 hname with hold | hnew
    · exact h.plain name hold
    · exact List.mem_singleton.1 hnew ▸ hplain
  entry := ⟨e, hat, hlink, hdir⟩

theorem Standing.link (h : Standing fs (step :: pending) resolved)
    (hprepend : fs.prependPathSteps pending resolved (components target) identity =
      .ok (pending', resolved')) : Standing fs pending' resolved' := by
  have hpending : ∀ s ∈ pending, s = dotdot ∨ Plain s := fun s hs =>
    h.steps s (List.mem_cons_of_mem _ hs)
  have hstrides := steps_strides target
  rcases prependPathSteps_target hprepend with ⟨-, rfl, steps, heq, rfl⟩ | ⟨-, rfl, rfl⟩
  · apply Standing.start
    intro s hs
    rcases List.mem_append.1 hs with hnew | hold
    · exact hstrides s (heq ▸ List.mem_append_right _ hnew)
    · exact hpending s hold
  · obtain ⟨d, hd, hdlink, hdir⟩ := h.entry
    refine ⟨?_, h.plain, d, hd, hdlink, fun _ => hdir (List.cons_ne_nil _ _)⟩
    intro s hs
    rcases List.mem_append.1 hs with hnew | hold
    · exact hstrides s hnew
    · exact hpending s hold

/-- The walk of the tree, as the resolver reads paths, without a step outside the root. -/
abbrev Walks (fs : LocalFs) (follow : Bool) : Config → Config → Prop :=
  ReflTransGen (Within fs.tree strides follow fs.rootPath)

theorem walks_rootPath (fs : LocalFs) (follow : Bool) (rest : List Name) :
    fs.Walks follow ([], fs.rootPath ++ rest) (fs.rootPath, rest) :=
  within_descend fs.rootPath_plain fs.at_rootPath (FsNode.not_isLink_of_isDir fs.root_isDir)

theorem Standing.walks_link (h : Standing fs (step :: pending) resolved) (hplain : Plain step)
    (hat : fs.root.at? (resolved ++ [step]) = some (.link target))
    (hprepend : fs.prependPathSteps pending resolved (components target.bytes) identity =
      .ok (pending', resolved')) (hrest : follow = true ∨ rest ≠ []) :
    fs.Walks follow (fs.rootPath ++ resolved, step :: pending ++ rest)
      (fs.rootPath ++ resolved', pending' ++ rest) := by
  obtain ⟨d, hd, -⟩ := h.dir
  have hchild : d.child step = some (.link target) := by
    have hplace := fs.at?_below (resolved ++ [step])
    rw [hat, ← List.append_assoc, FsNode.at?_concat, hd] at hplace
    exact hplace
  have hfollow : follow = true ∨ pending ++ rest ≠ [] :=
    hrest.imp_right fun hne => List.append_ne_nil_of_right_ne_nil _ hne
  rcases prependPathSteps_target hprepend with ⟨habsolute, rfl, steps, heq, rfl⟩ | ⟨habsolute, rfl, rfl⟩
  · have hstep : Within fs.tree strides follow fs.rootPath (fs.rootPath ++ resolved, step :: (pending ++ rest))
        (base (fs.rootPath ++ resolved) target.bytes, strides target.bytes ++ (pending ++ rest)) :=
      .link hplain hd hchild hfollow fun _ => ⟨steps, heq.symm⟩
    rw [base, if_pos habsolute, heq, List.append_assoc] at hstep
    rw [List.append_nil, List.append_assoc]
    exact .head hstep (fs.walks_rootPath follow _)
  · have hstep : Within fs.tree strides follow fs.rootPath (fs.rootPath ++ resolved', step :: (pending ++ rest))
        (base (fs.rootPath ++ resolved') target.bytes, strides target.bytes ++ (pending ++ rest)) := by
      apply Within.link hplain hd hchild hfollow
      intro hyes
      exact absurd (habsolute.symm.trans hyes) Bool.false_ne_true
    have hrelative : ¬ isAbsolute target.bytes = true := by simp [habsolute]
    rw [base, if_neg hrelative] at hstep
    rw [List.append_assoc]
    exact .single hstep

theorem isLink_eq_false (h : ∀ target, e = FsNode.link target → False) : e.isLink = false := by
  cases e with
  | link target => exact (h target rfl).elim
  | file => rfl
  | special => rfl
  | dir => rfl

theorem canonicalizeLoop_entry (hup : component ≠ dotdot)
    (hmeta : symlinkMetadata fs.root (resolved ++ [component]) = .ok metadata)
    (hlink : metadata.isLink = false) :
    fs.canonicalizeLoop identity (component :: pending) resolved symlinks =
      if pending ≠ [] ∧ metadata.isDir = false then
        .error (.io "canonicalize path" identity .notADirectory)
      else fs.canonicalizeLoop identity pending (resolved ++ [component]) symlinks := by
  rw [canonicalizeLoop, if_neg hup, hmeta]
  cases metadata with
  | link => cases hlink
  | file => rfl
  | special => rfl
  | dir => rfl

/-- A run of the loop that succeeds is a walk inside the root, whatever is to be walked after it. -/
theorem canonicalizeLoop_walks
    (h : fs.canonicalizeLoop identity pending resolved symlinks = .ok canonical)
    (hstanding : Standing fs pending resolved) :
    Standing fs [] canonical ∧ ∀ follow rest, follow = true ∨ rest ≠ [] →
      fs.Walks follow (fs.rootPath ++ resolved, pending ++ rest) (fs.rootPath ++ canonical, rest) := by
  induction pending, resolved, symlinks using canonicalizeLoop.induct fs identity with
  | case1 resolved symlinks =>
    rw [canonicalizeLoop] at h
    cases h
    exact ⟨hstanding, fun _ _ _ => .refl⟩
  | case2 symlinks pending =>
    rw [canonicalizeLoop, if_pos rfl, if_pos rfl] at h
    cases h
  | case3 resolved symlinks pending hne ih =>
    rw [canonicalizeLoop, if_pos rfl, if_neg hne] at h
    obtain ⟨hend, hwalks⟩ := ih h (hstanding.up hne)
    refine ⟨hend, fun follow rest hrest => ?_⟩
    obtain ⟨d, hd, hdir⟩ := hstanding.dir
    have hstep : Within fs.tree strides follow fs.rootPath (fs.rootPath ++ resolved, dotdot :: (pending ++ rest))
        ((fs.rootPath ++ resolved).dropLast, pending ++ rest) :=
      .up hd hdir fun heq => hne (List.append_right_eq_self.1 heq)
    rw [List.dropLast_append_of_ne_nil hne] at hstep
    exact .head hstep (hwalks follow rest hrest)
  | case4 resolved symlinks component pending hup source hmeta =>
    rw [canonicalizeLoop, if_neg hup] at h
    simp only [hmeta] at h
    cases h
  | case5 resolved symlinks component pending hup target hmeta hlimit =>
    rw [canonicalizeLoop, if_neg hup] at h
    simp only [hmeta, dif_pos hlimit] at h
    cases h
  | case6 resolved symlinks component pending hup target hmeta hlimit e hprepend =>
    rw [canonicalizeLoop, if_neg hup] at h
    simp only [hmeta, dif_neg hlimit, hprepend] at h
    cases h
  | case7 resolved symlinks component pending hup target hmeta hlimit pending' resolved' hprepend ih =>
    rw [canonicalizeLoop, if_neg hup] at h
    simp only [hmeta, dif_neg hlimit, hprepend] at h
    obtain ⟨hend, hwalks⟩ := ih h (hstanding.link hprepend)
    have hplain : Plain component := (hstanding.steps component List.mem_cons_self).resolve_left hup
    refine ⟨hend, fun follow rest hrest => ?_⟩
    exact (hstanding.walks_link hplain (symlinkMetadata_eq_ok.1 hmeta) hprepend hrest).trans
      (hwalks follow rest hrest)
  | case8 resolved symlinks component pending hup metadata hnotlink hmeta hbad =>
    rw [canonicalizeLoop_entry hup hmeta (isLink_eq_false hnotlink), if_pos hbad] at h
    cases h
  | case9 resolved symlinks component pending hup metadata hnotlink hmeta hok ih =>
    have hlink := isLink_eq_false hnotlink
    rw [canonicalizeLoop_entry hup hmeta hlink, if_neg hok] at h
    have hplain : Plain component := (hstanding.steps component List.mem_cons_self).resolve_left hup
    have hat := symlinkMetadata_eq_ok.1 hmeta
    have hdir : pending ≠ [] → metadata.isDir = true := fun hne =>
      Bool.of_not_eq_false fun hfalse => hok ⟨hne, hfalse⟩
    obtain ⟨hend, hwalks⟩ := ih h (hstanding.into hplain hat hlink hdir)
    refine ⟨hend, fun follow rest hrest => ?_⟩
    obtain ⟨d, hd, -⟩ := hstanding.dir
    rw [← at?_below, ← List.append_assoc, FsNode.at?_concat, hd] at hat
    have htail := hwalks follow rest hrest
    rw [← List.append_assoc] at htail
    exact .head (.into hplain hd hat hlink) htail

/-! ### The resolver's own paths -/

theorem spells_toPathBuf (h : ∀ name ∈ names, Plain name) : Spells (toPathBuf names) names := by
  rw [Spells, toPathBuf, map_stepComponent h]
  split
  next heq =>
    subst heq
    exact .inr rfl
  next => exact .inl rfl

theorem spells_join (h : ∀ name ∈ names, Plain name) (hname : Plain name) :
    Spells (joinPath (toPathBuf names) [.normal name]) (names ++ [name]) := by
  have hlast : [Component.normal name] = [name].map stepComponent := by
    rw [List.map_singleton, stepComponent_plain hname]
  rw [Spells, joinPath, List.map_append, map_stepComponent h, ← hlast]
  cases names with
  | nil => exact .inr rfl
  | cons first names => exact .inl rfl

theorem absoluteFor_spells (h : Spells relative names) (hplain : ∀ name ∈ names, Plain name) :
    fs.absoluteFor relative = .rootDir :: (fs.rootPath ++ names).map .normal := by
  rw [absoluteFor]
  split
  next hroot =>
    have hempty : names.map stepComponent = [] := by
      rw [← h.filter]
      rcases hroot with rfl | rfl <;> rfl
    rw [List.map_eq_nil_iff.1 hempty, List.append_nil]
    rfl
  next =>
    rw [joinPath, if_neg (by rw [rootComponents]; exact List.cons_ne_nil _ _), h.filter,
      map_stepComponent hplain, rootComponents, List.map_append]
    rfl

theorem relativeNames_spells (h : Spells relative names) (hplain : ∀ name ∈ names, Plain name) :
    relativeNames relative = names := by
  have hmap : relativeNames (names.map stepComponent) = names := by
    rw [map_stepComponent hplain, relativeNames, List.filterMap_map]
    exact List.filterMap_some
  rcases h with rfl | rfl
  · exact hmap
  · exact hmap

theorem canonicalizeExisting_eq_ok (hspells : Spells relative steps)
    (h : fs.canonicalizeExisting relative identity = .ok path) :
    ∃ canonical, path = toPathBuf canonical ∧
      fs.canonicalizeLoop identity steps [] 0 = .ok canonical := by
  obtain ⟨⟨pending, resolved⟩, hprepend, hrest⟩ := Except.bind_eq_ok.1 h
  rw [prependPathSteps, if_neg hspells.head?_ne, hspells.pathSteps] at hprepend
  cases hprepend
  obtain ⟨canonical, hloop, hpath⟩ := Except.bind_eq_ok.1 hrest
  rw [List.append_nil] at hloop
  exact ⟨canonical, (Except.pure_eq_ok.1 hpath).symm, hloop⟩

/-- The steps of a request below the root. -/
structure Requested (fs : LocalFs) (path : List UInt8) (steps : List Name) : Prop where
  ways : ∀ step ∈ steps, step = dotdot ∨ Plain step
  inside : isAbsolute path = true → fs.rootPath <+: strides path
  walks : ∀ follow, fs.Walks follow (base fs.rootPath path, strides path) (fs.rootPath, steps)

theorem lexicalRelative_eq_ok (h : fs.lexicalRelative path = .ok relative) :
    ∃ steps, Requested fs path steps ∧
      relative = if steps = [] then [.curDir] else steps.map stepComponent := by
  obtain ⟨stripped, hstripped, hrest⟩ := Except.bind_eq_ok.1 h
  obtain ⟨steps, hsteps, hpure⟩ := Except.bind_eq_ok.1 hrest
  have hrelative : relative = if steps = [] then [.curDir] else steps.map stepComponent := by
    rw [← Except.pure_eq_ok.1 hpure]
    exact if_congr List.map_eq_nil_iff rfl rfl
  refine ⟨steps, ?_, hrelative⟩
  have hstrides := steps_strides path
  cases habsolute : isAbsolute path with
  | true =>
    rw [stripRoot, if_pos habsolute] at hstripped
    split at hstripped
    next => cases hstripped
    next found hfound =>
      cases hstripped
      obtain ⟨steps', hsteps', heq⟩ := strides_of_stripPrefix habsolute hfound
      rw [hsteps'] at hsteps
      cases hsteps
      refine ⟨?_, fun _ => ⟨steps, heq.symm⟩, fun follow => ?_⟩
      · intro step hstep
        exact hstrides step (heq ▸ List.mem_append_right _ hstep)
      · rw [base, if_pos habsolute, heq]
        exact fs.walks_rootPath follow steps
  | false =>
    have hnot : ¬ isAbsolute path = true := by simp [habsolute]
    rw [stripRoot, if_neg hnot] at hstripped
    cases hstripped
    rw [(components_relative habsolute).pathSteps] at hsteps
    cases hsteps
    refine ⟨hstrides, fun hyes => absurd hyes hnot, fun follow => ?_⟩
    rw [base, if_neg hnot]

/-- The request has come down to one name in a directory or at a file. -/
structure Entered (fs : LocalFs) (path : List UInt8) (r : ResolvedPath) (parent : List Name)
    (name : Name) : Prop where
  spells : Spells r.relative (parent ++ [name])
  absolute_eq : r.absolute = fs.absoluteFor r.relative
  standing : Standing fs [] parent
  plain : Plain name
  inside : isAbsolute path = true → fs.rootPath <+: strides path
  walks : ∀ follow, fs.Walks follow (base fs.rootPath path, strides path)
    (fs.rootPath ++ parent, [name])

theorem splitRelative_eq_some
    (h : splitRelative (steps.map stepComponent) = some (parent, name)) :
    ∃ front, steps = front ++ [name] ∧ name ≠ dotdot ∧ Spells parent front := by
  rcases List.eq_nil_or_concat' steps with rfl | ⟨front, last, rfl⟩
  · cases h
  · rw [splitRelative, List.map_append, List.map_singleton, List.getLast?_concat,
      List.dropLast_concat, stepComponent] at h
    split at h
    next last' hlast =>
      split at hlast
      next => cases hlast
      next hup =>
        cases hlast
        cases h
        refine ⟨front, rfl, hup, ?_⟩
        rw [Spells]
        split
        next hnil => exact .inr (by rw [hnil])
        next => exact .inl rfl
    next => cases h

theorem resolveEntry_eq_ok (h : fs.resolveEntry path = .ok r) :
    (Requested fs path [] ∧ r = { absolute := fs.rootComponents, relative := [.curDir] }) ∨
      ∃ parent name, Entered fs path r parent name := by
  obtain ⟨relative, hrelative, hrest⟩ := Except.bind_eq_ok.1 h
  obtain ⟨steps, hrequested, rfl⟩ := lexicalRelative_eq_ok hrelative
  cases steps with
  | nil =>
    left
    rw [if_pos rfl, if_pos rfl] at hrest
    exact ⟨hrequested, (Except.pure_eq_ok.1 hrest).symm⟩
  | cons step steps =>
    right
    have hhead : ¬ (step :: steps).map stepComponent = [.curDir] := by
      intro heq
      exact stepComponent_ne_curDir step (List.cons.inj heq).1
    rw [if_neg (List.cons_ne_nil _ _), if_neg hhead] at hrest
    cases hsplit : splitRelative ((step :: steps).map stepComponent) with
    | none =>
      rw [hsplit] at hrest
      cases hrest
    | some split =>
      obtain ⟨parent, name⟩ := split
      rw [hsplit] at hrest
      obtain ⟨front, hsteps, hup, hspells⟩ := splitRelative_eq_some hsplit
      obtain ⟨path', hexisting, hpure⟩ := Except.bind_eq_ok.1 hrest
      obtain ⟨canonical, rfl, hloop⟩ := canonicalizeExisting_eq_ok hspells hexisting
      have hways := hrequested.ways
      have hwalks := hrequested.walks
      rw [hsteps] at hways hwalks
      have hfront : ∀ s ∈ front, s = dotdot ∨ Plain s := fun s hs =>
        hways s (List.mem_append_left _ hs)
      have hplain : Plain name :=
        (hways name (List.mem_append_right _ (List.mem_singleton_self _))).resolve_left hup
      obtain ⟨hstanding, hloopWalks⟩ := canonicalizeLoop_walks hloop (Standing.start hfront)
      cases Except.pure_eq_ok.1 hpure
      refine ⟨canonical, name, spells_join hstanding.plain hplain, rfl, hstanding, hplain,
        hrequested.inside, fun follow => ?_⟩
      have htail := hloopWalks follow [name] (.inr (List.cons_ne_nil _ _))
      rw [List.append_nil] at htail
      exact (hwalks follow).trans htail

/-! ### Faithful paths -/

/-- What the resolver promises of a path it returns: below the root it is the given names, all of
them ordinary; no directory on the way is a link, and neither is the last entry when links are
followed; and walking the request, as the resolver reads paths, is walking the returned path. Where
the walk of the request as it is spelled ends, it ends at the returned path, except that a request
for an entry may not end in a slash or in `/.`. -/
structure Faithful (fs : LocalFs) (follow : Bool) (path : List UInt8) (absolute : PathBuf)
    (names : List Name) : Prop where
  absolute_eq : absolute = .rootDir :: (fs.rootPath ++ names).map .normal
  plain : ∀ name ∈ names, Plain name
  parents : ∀ front name back, names = front ++ name :: back →
    ∃ e, fs.tree.at? (fs.rootPath ++ front) = some e ∧ e.isLink = false
  last : follow = true → ∀ e, fs.tree.at? (fs.rootPath ++ names) = some e → e.isLink = false
  same : ∀ place,
    Reaches fs.tree strides follow (base fs.rootPath path, strides path) place ↔
      Reaches fs.tree strides follow ([], fs.rootPath ++ names) place
  spelled : follow = true ∨ EndsAway (pieces path) →
    ∀ place, Names fs.tree pieces follow fs.rootPath path place → place = fs.rootPath ++ names

/-- The request goes outside the root: it is absolute and does not start with the root, or its walk
leaves the root at some time. -/
def Outside (fs : LocalFs) (follow : Bool) (path : List UInt8) : Prop :=
  (isAbsolute path = true ∧ ¬ fs.rootPath <+: strides path) ∨
    Leaves fs.tree strides follow fs.rootPath (base fs.rootPath path, strides path)

theorem Standing.above (h : Standing fs [] names) (heq : names = front ++ back) :
    ∃ e, fs.tree.at? (fs.rootPath ++ front) = some e ∧ e.isLink = false := by
  obtain ⟨e, he, hlink, -⟩ := h.entry
  rw [at?_below]
  cases back with
  | nil =>
    rw [List.append_nil] at heq
    exact ⟨e, heq ▸ he, hlink⟩
  | cons name back =>
    rw [heq] at he
    obtain ⟨d, hd, hdir⟩ := FsNode.isDir_of_at?_append he
    exact ⟨d, hd, FsNode.not_isLink_of_isDir hdir⟩

theorem Standing.walks_down (h : Standing fs [] names) (follow : Bool) (rest : List Name) :
    fs.Walks follow ([], fs.rootPath ++ names ++ rest) (fs.rootPath ++ names, rest) := by
  obtain ⟨e, he, hlink⟩ := h.above (List.append_nil names).symm
  have hplain : ∀ name ∈ fs.rootPath ++ names, Plain name := by
    intro name hname
    rcases List.mem_append.1 hname with hroot | hbelow
    · exact fs.rootPath_plain name hroot
    · exact h.plain name hbelow
  have hat : fs.tree.at? ([] ++ (fs.rootPath ++ names)) = some e := he
  exact within_descend hplain hat hlink

/-- A walk that ends where it would along the returned path, ends there as spelled. -/
theorem spelled_of_same (hfollow : follow = true ∨ EndsAway (pieces path))
    (hnames : Names fs.tree pieces follow fs.rootPath path place) :
    Reaches fs.tree strides follow (base fs.rootPath path, strides path) place :=
  hnames.2.away hfollow

theorem faithful_of_standing (h : Standing fs [] names)
    (hinside : isAbsolute path = true → fs.rootPath <+: strides path)
    (hwalks : fs.Walks follow (base fs.rootPath path, strides path) (fs.rootPath ++ names, []))
    (habsolute : absolute = .rootDir :: (fs.rootPath ++ names).map .normal) :
    Faithful fs follow path absolute names ∧ ¬ fs.Outside follow path := by
  have hdown := h.walks_down follow []
  rw [List.append_nil] at hdown
  constructor
  · refine {
      absolute_eq := habsolute
      plain := h.plain
      parents := fun front name back heq => h.above heq
      last := ?_
      same := fun place => (reaches_iff_of_within hwalks).trans (reaches_iff_of_within hdown).symm
      spelled := ?_ }
    · intro _ e he
      obtain ⟨e', he', hlink⟩ := h.above (List.append_nil names).symm
      cases he.symm.trans he'
      exact hlink
    · intro hfollow place hnames
      have hreach := spelled_of_same hfollow hnames
      rw [reaches_iff_of_within hwalks] at hreach
      exact reaches_nil.1 hreach
  · intro houtside
    rcases houtside with ⟨hyes, hout⟩ | hleaves
    · exact hout (hinside hyes)
    · exact not_leaves_nil ((leaves_iff_of_within hwalks).1 hleaves)

theorem faithful_root (h : Requested fs path []) :
    Faithful fs follow path fs.rootComponents [] ∧ ¬ fs.Outside follow path := by
  have hwalks := h.walks follow
  have hstanding : Standing fs [] [] := Standing.start fun _ hs => absurd hs List.not_mem_nil
  apply faithful_of_standing hstanding h.inside
  · rwa [List.append_nil]
  · rw [List.append_nil, rootComponents]

theorem Entered.all_plain (h : Entered fs path r parent name) : ∀ n ∈ parent ++ [name], Plain n := by
  intro n hn
  rcases List.mem_append.1 hn with hparent | hname
  · exact h.standing.plain n hparent
  · exact List.mem_singleton.1 hname ▸ h.plain

theorem faithful_of_entered (h : Entered fs path r parent name)
    (hlast : ∀ e, fs.tree.at? (fs.rootPath ++ (parent ++ [name])) = some e →
      follow = true → e.isLink = false) :
    Faithful fs follow path r.absolute (parent ++ [name]) ∧ ¬ fs.Outside follow path := by
  have hdown := h.standing.walks_down follow [name]
  rw [List.append_assoc] at hdown
  have hwalks := h.walks follow
  have hplain := h.all_plain
  have hnolink : ∀ d target, fs.tree.at? (fs.rootPath ++ parent) = some d →
      d.child name = some (.link target) → follow = false := by
    intro d target hd hchild
    apply Bool.of_not_eq_true
    intro hyes
    have hat : fs.tree.at? (fs.rootPath ++ (parent ++ [name])) = some (.link target) := by
      rw [← List.append_assoc, FsNode.at?_concat, hd]
      exact hchild
    cases hlast _ hat hyes
  constructor
  · refine {
      absolute_eq := by rw [h.absolute_eq, absoluteFor_spells h.spells hplain]
      plain := hplain
      parents := ?_
      last := fun hyes e he => hlast e he hyes
      same := fun place => (reaches_iff_of_within hwalks).trans (reaches_iff_of_within hdown).symm
      spelled := ?_ }
    · intro front n back heq
      rcases List.eq_nil_or_concat' back with rfl | ⟨back, final, rfl⟩
      · obtain ⟨hparent, -⟩ := List.append_inj' heq rfl
        exact h.standing.above (hparent.trans (List.append_nil front).symm)
      · rw [← List.cons_append, ← List.append_assoc] at heq
        exact h.standing.above (List.append_inj' heq rfl).1
    · intro hfollow place hnames
      have hreach := spelled_of_same hfollow hnames
      rw [reaches_iff_of_within hwalks] at hreach
      rw [reaches_last h.plain hnolink hreach, List.append_assoc]
  · intro houtside
    rcases houtside with ⟨hyes, hout⟩ | hleaves
    · exact hout (h.inside hyes)
    · exact not_leaves_last h.plain hnolink ((leaves_iff_of_within hwalks).1 hleaves)

theorem faithful_resolveEntry (h : fs.resolveEntry path = .ok r) :
    ∃ names, Spells r.relative names ∧ Faithful fs false path r.absolute names ∧
      ¬ fs.Outside false path := by
  rcases resolveEntry_eq_ok h with ⟨hrequested, rfl⟩ | ⟨parent, name, hentered⟩
  · exact ⟨[], .inr rfl, faithful_root hrequested⟩
  · exact ⟨parent ++ [name], hentered.spells, faithful_of_entered hentered fun _ _ hyes => by cases hyes⟩

theorem faithful_canonicalize (h : fs.canonicalize path = .ok absolute) :
    ∃ names, Faithful fs true path absolute names ∧ ¬ fs.Outside true path := by
  obtain ⟨relative, hrelative, hrest⟩ := Except.bind_eq_ok.1 h
  obtain ⟨found, hfound, hpure⟩ := Except.bind_eq_ok.1 hrest
  obtain ⟨steps, hrequested, hsteps⟩ := lexicalRelative_eq_ok hrelative
  have hspells : Spells relative steps := by
    rw [hsteps]
    split
    next heq => exact .inr (by rw [heq]; rfl)
    next => exact .inl rfl
  cases Except.pure_eq_ok.1 hpure
  obtain ⟨canonical, rfl, hloop⟩ := canonicalizeExisting_eq_ok hspells hfound
  obtain ⟨hstanding, hwalks⟩ := canonicalizeLoop_walks hloop (Standing.start hrequested.ways)
  have hcanonical := spells_toPathBuf hstanding.plain
  have htail := hwalks true [] (.inl rfl)
  rw [List.append_nil, List.append_nil] at htail
  exact ⟨canonical, faithful_of_standing hstanding hrequested.inside
    ((hrequested.walks true).trans htail) (absoluteFor_spells hcanonical hstanding.plain)⟩

/-- Canonicalizing the entry again goes on with the walk of the request. -/
theorem Entered.followed (h : Entered fs path r parent name)
    (hfound : fs.canonicalizeExisting r.relative path = .ok found) :
    ∃ names, Spells found names ∧ Faithful fs true path (fs.absoluteFor found) names ∧
      ¬ fs.Outside true path := by
  obtain ⟨canonical, rfl, hloop⟩ := canonicalizeExisting_eq_ok h.spells hfound
  obtain ⟨hstanding, hwalks⟩ := canonicalizeLoop_walks hloop
    (Standing.start fun n hn => .inr (h.all_plain n hn))
  have hspells := spells_toPathBuf hstanding.plain
  have hagain := hwalks true [] (.inl rfl)
  rw [List.append_nil, List.append_nil] at hagain
  obtain ⟨e, he, hlink⟩ := h.standing.above (List.append_nil parent).symm
  have hdown : fs.Walks true (fs.rootPath, parent ++ [name]) (fs.rootPath ++ parent, [name]) :=
    within_descend h.standing.plain he hlink
  exact ⟨canonical, hspells, faithful_of_standing hstanding h.inside
    ((h.walks true).trans (within_resume hdown hagain)) (absoluteFor_spells hspells hstanding.plain)⟩

theorem faithful_resolveTarget (h : fs.resolveTarget path = .ok r) :
    ∃ names, Spells r.relative names ∧ Faithful fs true path r.absolute names ∧
      ¬ fs.Outside true path := by
  obtain ⟨entry, hentry, hrest⟩ := Except.bind_eq_ok.1 h
  rcases resolveEntry_eq_ok hentry with ⟨hrequested, rfl⟩ | ⟨parent, name, hentered⟩
  · -- the root itself is a directory, so it is returned as it is
    have hroot : r = { absolute := fs.rootComponents, relative := [.curDir] } := by
      have hdir := fs.root_isDir
      have hmeta : symlinkMetadata fs.root
          (relativeNames (ResolvedPath.mk fs.rootComponents [.curDir]).relative) = .ok fs.root := rfl
      rw [hmeta] at hrest
      cases hentry : fs.root with
      | dir children =>
        rw [hentry] at hrest
        exact (Except.pure_eq_ok.1 hrest).symm
      | file =>
        rw [hentry] at hdir
        cases hdir
      | special =>
        rw [hentry] at hdir
        cases hdir
      | link target =>
        rw [hentry] at hdir
        cases hdir
    subst hroot
    exact ⟨[], .inr rfl, faithful_root hrequested⟩
  · have hnames := relativeNames_spells hentered.spells hentered.all_plain
    rw [hnames] at hrest
    cases hmeta : symlinkMetadata fs.root (parent ++ [name]) with
    | error source =>
      rw [hmeta] at hrest
      cases source with
      | notADirectory => cases hrest
      | notFound =>
        cases Except.pure_eq_ok.1 hrest
        refine ⟨parent ++ [name], hentered.spells, faithful_of_entered hentered fun e he => ?_⟩
        rw [at?_below, ← symlinkMetadata_eq_ok, hmeta] at he
        cases he
    | ok metadata =>
      cases hlink : metadata.isLink with
      | false =>
        have hreturn : entry = r := by
          rw [hmeta] at hrest
          cases metadata with
          | link => cases hlink
          | file => exact Except.pure_eq_ok.1 hrest
          | special => exact Except.pure_eq_ok.1 hrest
          | dir => exact Except.pure_eq_ok.1 hrest
        subst hreturn
        refine ⟨parent ++ [name], hentered.spells, faithful_of_entered hentered fun e he _ => ?_⟩
        rw [at?_below, ← symlinkMetadata_eq_ok, hmeta] at he
        cases he
        exact hlink
      | true =>
        cases metadata with
        | file => cases hlink
        | special => cases hlink
        | dir => cases hlink
        | link target =>
          rw [hmeta] at hrest
          cases hfound : fs.canonicalizeExisting entry.relative path with
          | ok found =>
            rw [hfound] at hrest
            cases Except.pure_eq_ok.1 hrest
            exact hentered.followed hfound
          | error e =>
            rw [hfound] at hrest
            cases e <;> cases hrest

/-- Resolution of every request over every tree: it returns, what it returns is faithful to the walk
of the request, and a request that goes outside the root is refused. -/
theorem resolution_faithful (fs : LocalFs) (path : List UInt8) :
    (∀ r, fs.resolveEntry path = .ok r →
      ∃ names, Spells r.relative names ∧ Faithful fs false path r.absolute names) ∧
    (∀ r, fs.resolveTarget path = .ok r →
      ∃ names, Spells r.relative names ∧ Faithful fs true path r.absolute names) ∧
    (∀ absolute, fs.canonicalize path = .ok absolute →
      ∃ names, Faithful fs true path absolute names) ∧
    (fs.Outside false path → ∃ e, fs.resolveEntry path = .error e) ∧
    (fs.Outside true path →
      (∃ e, fs.resolveTarget path = .error e) ∧ ∃ e, fs.canonicalize path = .error e) := by
  refine ⟨fun r hr => ?_, fun r hr => ?_, fun absolute hr => ?_, fun hout => ?_, fun hout => ⟨?_, ?_⟩⟩
  · obtain ⟨names, hspells, hfaithful, -⟩ := faithful_resolveEntry hr
    exact ⟨names, hspells, hfaithful⟩
  · obtain ⟨names, hspells, hfaithful, -⟩ := faithful_resolveTarget hr
    exact ⟨names, hspells, hfaithful⟩
  · obtain ⟨names, hfaithful, -⟩ := faithful_canonicalize hr
    exact ⟨names, hfaithful⟩
  · cases hr : fs.resolveEntry path with
    | error e => exact ⟨e, rfl⟩
    | ok r =>
      obtain ⟨names, -, -, hin⟩ := faithful_resolveEntry hr
      exact absurd hout hin
  · cases hr : fs.resolveTarget path with
    | error e => exact ⟨e, rfl⟩
    | ok r =>
      obtain ⟨names, -, -, hin⟩ := faithful_resolveTarget hr
      exact absurd hout hin
  · cases hr : fs.canonicalize path with
    | error e => exact ⟨e, rfl⟩
    | ok r =>
      obtain ⟨names, -, hin⟩ := faithful_canonicalize hr
      exact absurd hout hin

/-- A root directory `/e` that holds a file `f`. -/
def oneFile : LocalFs where
  tree := .dir [([101], .dir [([102], .file)])]
  rootPath := [[101]]
  root := .dir [([102], .file)]
  rootPath_plain name hname := by
    cases List.mem_singleton.1 hname
    exact ⟨by decide, by decide, by decide, by decide⟩
  at_rootPath := rfl
  root_isDir := rfl

/-- `f/.` resolves to the file `f`, while the system refuses a path that goes on after a file. -/
theorem dotted_file_resolves :
    oneFile.resolveTarget [102, 47, 46] =
      .ok { absolute := [.rootDir, .normal [101], .normal [102]], relative := [.curDir, .normal [102]] } ∧
    ¬ ∃ place, Names oneFile.tree pieces true oneFile.rootPath [102, 47, 46] place := by
  constructor
  · have hloop : oneFile.canonicalizeLoop [102, 47, 46] [] [] 0 = .ok [] := by
      rw [canonicalizeLoop]
    have hparent : oneFile.canonicalizeExisting [.curDir] [102, 47, 46] = .ok [.curDir] := by
      change (do return toPathBuf (← oneFile.canonicalizeLoop [102, 47, 46] [] [] 0)) = _
      rw [hloop]
      rfl
    have hentry : oneFile.resolveEntry [102, 47, 46] =
        .ok { absolute := [.rootDir, .normal [101], .normal [102]],
              relative := [.curDir, .normal [102]] } := by
      change (do
        let canonicalParent ← oneFile.canonicalizeExisting [.curDir] [102, 47, 46]
        let relative := joinPath canonicalParent [.normal [102]]
        return { absolute := oneFile.absoluteFor relative, relative : ResolvedPath }) = _
      rw [hparent]
      rfl
    rw [resolveTarget, hentry]
    rfl
  · intro h
    obtain ⟨place, -, hreach⟩ := h
    have hplain : Plain [102] := ⟨by decide, by decide, by decide, by decide⟩
    have hstep : Step oneFile.tree pieces true ([[101]], [[102], dot]) ([[101], [102]], [dot]) :=
      .into hplain rfl rfl rfl
    have hfile := (reaches_head hstep).1 hreach
    rcases ReflTransGen.cases_head hfile with heq | ⟨c, hnext, -⟩
    · cases heq
    · cases hnext with
      | here _ hd hdir =>
        cases hd
        cases hdir
      | into hplain => exact hplain.ne_dot rfl
      | link hplain => exact hplain.ne_dot rfl
      | stop hplain => exact hplain.ne_dot rfl
      | vacant hplain => exact hplain.ne_dot rfl

end LocalFs

end OhMyPi.Docserver
