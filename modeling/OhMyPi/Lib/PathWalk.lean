import Mathlib.Data.List.Basic
import Mathlib.Logic.Relation

/-! Path walking over a fixed directory tree, as an operating system does it: the pieces of the path
are taken one by one from a current directory, and the target of a symbolic link is spliced in front
of the pieces that are left. A place is a list of names from the top of the tree, so a place whose
entry can be looked up passes through no link. -/

namespace PathWalk

abbrev Name := List UInt8

def slash : UInt8 := 47

def dot : Name := [46]

def dotdot : Name := [46, 46]

/-- The parts of a path between its slashes, the empty ones included. -/
def pieces : List UInt8 → List Name
  | [] => [[]]
  | c :: cs =>
    if c = slash then [] :: pieces cs
    else
      match pieces cs with
      | [] => [[c]]
      | p :: ps => (c :: p) :: ps

def isAbsolute (path : List UInt8) : Bool := path.head? == some slash

/-- A piece that leaves the walk where it is. -/
def IsHere (piece : Name) : Prop := piece = [] ∨ piece = dot

instance : DecidablePred IsHere := fun _ => inferInstanceAs (Decidable (_ ∨ _))

/-- A name that a directory entry can have. -/
structure Plain (name : Name) : Prop where
  ne_nil : name ≠ []
  ne_dot : name ≠ dot
  ne_dotdot : name ≠ dotdot
  no_slash : slash ∉ name

theorem Plain.not_here (h : Plain name) : ¬ IsHere name := by
  intro hhere
  rcases hhere with rfl | rfl
  · exact h.ne_nil rfl
  · exact h.ne_dot rfl

/-- Pieces with the empty ones and `.` left out. -/
def away (steps : List Name) : List Name := steps.filter fun p => !decide (IsHere p)

def strides (path : List UInt8) : List Name := away (pieces path)

theorem away_append (front back : List Name) : away (front ++ back) = away front ++ away back :=
  List.filter_append ..

theorem away_cons_here (h : IsHere piece) : away (piece :: rest) = away rest :=
  List.filter_cons_of_neg (by simpa using h)

theorem away_cons (h : ¬ IsHere piece) : away (piece :: rest) = piece :: away rest :=
  List.filter_cons_of_pos (by simpa using h)

theorem slash_not_mem_pieces (path : List UInt8) : ∀ p ∈ pieces path, slash ∉ p := by
  fun_induction pieces path with
  | case1 =>
    intro p hp
    cases List.mem_singleton.1 hp
    exact List.not_mem_nil
  | case2 cs ih =>
    intro p hp
    rcases List.mem_cons.1 hp with rfl | hp
    · exact List.not_mem_nil
    · exact ih p hp
  | case3 c cs hc hcs ih =>
    intro p hp
    cases List.mem_singleton.1 hp
    intro hmem
    exact hc (List.mem_singleton.1 hmem).symm
  | case4 c cs hc p ps hcs ih =>
    intro q hq
    rcases List.mem_cons.1 hq with rfl | hq
    · intro hmem
      rcases List.mem_cons.1 hmem with heq | hmem
      · exact hc heq.symm
      · exact ih p (hcs ▸ List.mem_cons_self) hmem
    · exact ih q (hcs ▸ List.mem_cons_of_mem _ hq)

theorem plain_of_mem_strides (h : name ∈ strides path) (hup : name ≠ dotdot) : Plain name := by
  obtain ⟨hmem, hhere⟩ := List.mem_filter.1 h
  have hnot : ¬ IsHere name := by simpa using hhere
  exact {
    ne_nil := fun heq => hnot (.inl heq)
    ne_dot := fun heq => hnot (.inr heq)
    ne_dotdot := hup
    no_slash := slash_not_mem_pieces path name hmem }

/-- What a symbolic link holds. No system call makes a link whose target is empty. -/
structure Target where
  bytes : List UInt8
  nonempty : bytes ≠ []

inductive FsNode where
  | file
  | special
  | link (target : Target)
  | dir (children : List (Name × FsNode))

namespace FsNode

def isLink : FsNode → Bool
  | .link _ => true
  | _ => false

def isDir : FsNode → Bool
  | .dir _ => true
  | _ => false

def child : FsNode → Name → Option FsNode
  | .dir children, name => children.lookup name
  | _, _ => none

/-- The entry at a place, looked up without following any link. -/
def at? : FsNode → List Name → Option FsNode
  | e, [] => some e
  | e, name :: names => (e.child name).bind (·.at? names)

theorem at?_append (e : FsNode) (front back : List Name) :
    e.at? (front ++ back) = (e.at? front).bind (·.at? back) := by
  induction front generalizing e with
  | nil => rfl
  | cons name front ih =>
    rw [List.cons_append, at?, at?]
    cases e.child name with
    | none => rfl
    | some c => exact ih c

theorem at?_concat (e : FsNode) (front : List Name) (name : Name) :
    e.at? (front ++ [name]) = (e.at? front).bind (·.child name) := by
  rw [at?_append]
  cases e.at? front with
  | none => rfl
  | some d =>
    change (d.child name).bind (·.at? []) = d.child name
    cases d.child name <;> rfl

theorem isDir_of_child (h : child e name = some c) : e.isDir = true := by
  cases e with
  | dir => rfl
  | file => cases h
  | special => cases h
  | link => cases h

/-- A place below another is reached through directories only. -/
theorem isDir_of_at?_append (h : at? e (front ++ name :: back) = some c) :
    ∃ d, e.at? front = some d ∧ d.isDir = true := by
  rw [at?_append] at h
  cases hd : e.at? front with
  | none =>
    rw [hd] at h
    cases h
  | some d =>
    rw [hd] at h
    refine ⟨d, rfl, ?_⟩
    cases hc : d.child name with
    | none =>
      change (d.child name).bind (·.at? back) = some c at h
      rw [hc] at h
      cases h
    | some _ => exact isDir_of_child hc

theorem not_isLink_of_isDir (h : isDir e = true) : e.isLink = false := by
  cases e with
  | dir => rfl
  | file => cases h
  | special => cases h
  | link => cases h

end FsNode

/-- A walk under way: the place it stands at and the pieces left. -/
abbrev Config := List Name × List Name

section
variable (tree : FsNode) (view : List UInt8 → List Name) (follow : Bool)

/-- The directory a link target is walked from. -/
def base (cur : List Name) (path : List UInt8) : List Name := if isAbsolute path then [] else cur

/-- One step of a walk. `view` cuts a link target into pieces, and `follow` says whether a link that
is the last piece is followed. A last piece that names nothing is a vacant place of its directory. -/
inductive Step : Config → Config → Prop
  | here : IsHere piece → tree.at? cur = some d → d.isDir = true → Step (cur, piece :: rest) (cur, rest)
  | up : tree.at? cur = some d → d.isDir = true → Step (cur, dotdot :: rest) (cur.dropLast, rest)
  | into : Plain name → tree.at? cur = some d → d.child name = some e → e.isLink = false →
      Step (cur, name :: rest) (cur ++ [name], rest)
  | link : Plain name → tree.at? cur = some d → d.child name = some (.link target) →
      (follow = true ∨ rest ≠ []) →
      Step (cur, name :: rest) (base cur target.bytes, view target.bytes ++ rest)
  | stop : Plain name → tree.at? cur = some d → d.child name = some (.link target) →
      follow = false → Step (cur, [name]) (cur ++ [name], [])
  | vacant : Plain name → tree.at? cur = some d → d.isDir = true → d.child name = none →
      Step (cur, [name]) (cur ++ [name], [])

/-- The walk from `c` ends at `place`. -/
def Reaches (c : Config) (place : List Name) : Prop :=
  Relation.ReflTransGen (Step tree view follow) c (place, [])

/-- The place a path names for a process whose working directory is `cur`. -/
def Names (cur : List Name) (path : List UInt8) (place : List Name) : Prop :=
  path ≠ [] ∧ Reaches tree view follow (base cur path, view path) place

/-- The next step of the walk goes outside `root`: it goes up from `root` itself, or it follows an
absolute target that does not start with `root`. -/
inductive Escapes (root : List Name) : Config → Prop
  | up : Escapes root (root, dotdot :: rest)
  | link : Plain name → tree.at? cur = some d → d.child name = some (.link target) →
      (follow = true ∨ rest ≠ []) → isAbsolute target.bytes = true → ¬ root <+: view target.bytes →
      Escapes root (cur, name :: rest)

/-- The walk goes outside `root` at some time. -/
def Leaves (root : List Name) (c : Config) : Prop :=
  ∃ c', Relation.ReflTransGen (Step tree view follow) c c' ∧ Escapes tree view follow root c'

/-- A step that stays inside `root`. -/
def Within (root : List Name) (c c' : Config) : Prop :=
  Step tree view follow c c' ∧ ¬ Escapes tree view follow root c

end

section
variable {tree : FsNode} {view : List UInt8 → List Name} {follow : Bool} {root : List Name}

theorem not_step_nil : ¬ Step tree view follow (cur, []) c := by
  intro h
  cases h

theorem plain_ne_dotdot (h : Plain dotdot) : False := h.ne_dotdot rfl

theorem not_here_dotdot : ¬ IsHere dotdot := by decide

theorem Step.unique (h₁ : Step tree view follow c c₁) (h₂ : Step tree view follow c c₂) : c₁ = c₂ := by
  cases h₁ with
  | here hhere _ _ =>
    cases h₂ with
    | here => rfl
    | up => exact absurd hhere not_here_dotdot
    | into hplain => exact absurd hhere hplain.not_here
    | link hplain => exact absurd hhere hplain.not_here
    | stop hplain => exact absurd hhere hplain.not_here
    | vacant hplain => exact absurd hhere hplain.not_here
  | up _ _ =>
    cases h₂ with
    | here hhere => exact absurd hhere not_here_dotdot
    | up => rfl
    | into hplain => exact (plain_ne_dotdot hplain).elim
    | link hplain => exact (plain_ne_dotdot hplain).elim
    | stop hplain => exact (plain_ne_dotdot hplain).elim
    | vacant hplain => exact (plain_ne_dotdot hplain).elim
  | into hplain hd he hlink =>
    cases h₂ with
    | here hhere => exact absurd hhere hplain.not_here
    | up => exact (plain_ne_dotdot hplain).elim
    | into => rfl
    | link _ hd' he' =>
      cases hd.symm.trans hd'
      cases he.symm.trans he'
      cases hlink
    | stop => rfl
    | vacant => rfl
  | link hplain hd he hfollow =>
    cases h₂ with
    | here hhere => exact absurd hhere hplain.not_here
    | up => exact (plain_ne_dotdot hplain).elim
    | into _ hd' he' hlink =>
      cases hd.symm.trans hd'
      cases he.symm.trans he'
      cases hlink
    | link _ hd' he' =>
      cases hd.symm.trans hd'
      cases he.symm.trans he'
      rfl
    | stop _ _ _ hno =>
      rcases hfollow with hyes | hrest
      · exact absurd (hno.symm.trans hyes) Bool.false_ne_true
      · exact absurd rfl hrest
    | vacant _ hd' _ he' =>
      cases hd.symm.trans hd'
      cases he.symm.trans he'
  | stop hplain hd he hno =>
    cases h₂ with
    | here hhere => exact absurd hhere hplain.not_here
    | up => exact (plain_ne_dotdot hplain).elim
    | into => rfl
    | link _ hd' he' hfollow =>
      rcases hfollow with hyes | hrest
      · exact absurd (hno.symm.trans hyes) Bool.false_ne_true
      · exact absurd rfl hrest
    | stop => rfl
    | vacant => rfl
  | vacant hplain hd hdir he =>
    cases h₂ with
    | here hhere => exact absurd hhere hplain.not_here
    | up => exact (plain_ne_dotdot hplain).elim
    | into => rfl
    | link _ hd' he' =>
      cases hd.symm.trans hd'
      cases he.symm.trans he'
    | stop => rfl
    | vacant => rfl

theorem reaches_head (hstep : Step tree view follow c c') :
    Reaches tree view follow c place ↔ Reaches tree view follow c' place := by
  constructor
  · intro h
    rcases Relation.ReflTransGen.cases_head h with heq | ⟨c'', hstep', hrest⟩
    · subst heq
      exact absurd hstep not_step_nil
    · rwa [hstep.unique hstep']
  · exact Relation.ReflTransGen.head hstep

theorem reaches_nil : Reaches tree view follow (cur, []) place ↔ place = cur := by
  constructor
  · intro h
    rcases Relation.ReflTransGen.cases_head h with heq | ⟨c, hstep, -⟩
    · exact (congrArg Prod.fst heq).symm
    · exact absurd hstep not_step_nil
  · intro h
    subst h
    exact Relation.ReflTransGen.refl

theorem leaves_head (hstep : Within tree view follow root c c') :
    Leaves tree view follow root c ↔ Leaves tree view follow root c' := by
  constructor
  · intro ⟨out, hwalk, hout⟩
    rcases Relation.ReflTransGen.cases_head hwalk with heq | ⟨c'', hstep', hrest⟩
    · subst heq
      exact absurd hout hstep.2
    · rw [← hstep.1.unique hstep'] at hrest
      exact ⟨out, hrest, hout⟩
  · intro ⟨out, hwalk, hout⟩
    exact ⟨out, .head hstep.1 hwalk, hout⟩

/-- A walk inside `root` that is at `c'` ends where it would end from there, and goes outside exactly
when it does so from there. -/
theorem reaches_iff_of_within (h : Relation.ReflTransGen (Within tree view follow root) c c') :
    Reaches tree view follow c place ↔ Reaches tree view follow c' place := by
  induction h with
  | refl => rfl
  | tail _ hstep ih => exact ih.trans (reaches_head hstep.1)

theorem leaves_iff_of_within (h : Relation.ReflTransGen (Within tree view follow root) c c') :
    Leaves tree view follow root c ↔ Leaves tree view follow root c' := by
  induction h with
  | refl => rfl
  | tail _ hstep ih => exact ih.trans (leaves_head hstep)

theorem not_escapes_into (hplain : Plain name) (hd : tree.at? cur = some d)
    (he : d.child name = some e) (hlink : e.isLink = false) :
    ¬ Escapes tree view follow root (cur, name :: rest) := by
  intro hescapes
  cases hescapes with
  | up => exact plain_ne_dotdot hplain
  | link _ hd' he' =>
    cases hd.symm.trans hd'
    cases he.symm.trans he'
    cases hlink

theorem Within.into (hplain : Plain name) (hd : tree.at? cur = some d) (he : d.child name = some e)
    (hlink : e.isLink = false) :
    Within tree view follow root (cur, name :: rest) (cur ++ [name], rest) :=
  ⟨.into hplain hd he hlink, not_escapes_into hplain hd he hlink⟩

theorem Within.up (hd : tree.at? cur = some d) (hdir : d.isDir = true) (hroot : cur ≠ root) :
    Within tree view follow root (cur, dotdot :: rest) (cur.dropLast, rest) := by
  refine ⟨.up hd hdir, ?_⟩
  intro hescapes
  cases hescapes with
  | up => exact hroot rfl
  | link hplain => exact plain_ne_dotdot hplain

theorem Within.link (hplain : Plain name) (hd : tree.at? cur = some d)
    (he : d.child name = some (.link target)) (hfollow : follow = true ∨ rest ≠ [])
    (hroot : isAbsolute target.bytes = true → root <+: view target.bytes) :
    Within tree view follow root (cur, name :: rest)
      (base cur target.bytes, view target.bytes ++ rest) := by
  refine ⟨.link hplain hd he hfollow, ?_⟩
  intro hescapes
  cases hescapes with
  | up => exact plain_ne_dotdot hplain
  | link _ hd' he' _ habsolute hout =>
    cases hd.symm.trans hd'
    cases he.symm.trans he'
    exact hout (hroot habsolute)

/-- A path that spells a place goes straight down to it. -/
theorem within_descend (hplain : ∀ name ∈ names, Plain name)
    (hat : tree.at? (cur ++ names) = some e) (hlink : e.isLink = false) :
    Relation.ReflTransGen (Within tree view follow root) (cur, names ++ rest) (cur ++ names, rest) := by
  induction names generalizing cur with
  | nil =>
    rw [List.append_nil]
    exact .refl
  | cons name names ih =>
    have hnext : tree.at? (cur ++ [name] ++ names) = some e := by
      rw [List.append_assoc]
      exact hat
    obtain ⟨d, hd, hdir⟩ := FsNode.isDir_of_at?_append hat
    have hchild : ∃ c, d.child name = some c ∧ c.isLink = false := by
      cases names with
      | nil =>
        rw [FsNode.at?_concat, hd] at hat
        exact ⟨e, hat, hlink⟩
      | cons next names =>
        obtain ⟨c, hc, hcdir⟩ := FsNode.isDir_of_at?_append hnext
        rw [FsNode.at?_concat, hd] at hc
        exact ⟨c, hc, FsNode.not_isLink_of_isDir hcdir⟩
    obtain ⟨c, hc, hclink⟩ := hchild
    have htail := ih (fun n hn => hplain n (List.mem_cons_of_mem _ hn)) hnext
    rw [List.append_assoc] at htail
    exact .head (.into (hplain name List.mem_cons_self) hd hc hclink) htail

/-- A walk that passes through `b` and ends, ends from `b`. -/
theorem within_resume (hthrough : Relation.ReflTransGen (Within tree view follow root) a b)
    (hend : Relation.ReflTransGen (Within tree view follow root) a (place, [])) :
    Relation.ReflTransGen (Within tree view follow root) b (place, []) := by
  have hunique : Relator.RightUnique (Within tree view follow root) :=
    fun _ _ _ h₁ h₂ => h₁.1.unique h₂.1
  rcases hthrough.total_of_right_unique hunique hend with h | h
  · exact h
  · rcases Relation.ReflTransGen.cases_head h with rfl | ⟨c, hstep, -⟩
    · exact .refl
    · exact absurd hstep.1 not_step_nil

theorem not_leaves_nil : ¬ Leaves tree view follow root (cur, []) := by
  intro ⟨out, hwalk, hout⟩
  rcases Relation.ReflTransGen.cases_head hwalk with rfl | ⟨c, hstep, -⟩
  · cases hout
  · exact not_step_nil hstep

/-- A last name that is not followed ends the walk at that name. -/
theorem reaches_last (hplain : Plain name)
    (hlink : ∀ d target, tree.at? cur = some d → d.child name = some (.link target) → follow = false)
    (h : Reaches tree view follow (cur, [name]) place) : place = cur ++ [name] := by
  rcases Relation.ReflTransGen.cases_head h with heq | ⟨c, hstep, hrest⟩
  · cases heq
  · cases hstep with
    | here hhere => exact absurd hhere hplain.not_here
    | up => exact (plain_ne_dotdot hplain).elim
    | into => exact reaches_nil.1 hrest
    | link _ hd hchild hfollow =>
      rcases hfollow with hyes | hne
      · exact absurd ((hlink _ _ hd hchild).symm.trans hyes) Bool.false_ne_true
      · exact absurd rfl hne
    | stop => exact reaches_nil.1 hrest
    | vacant => exact reaches_nil.1 hrest

theorem not_leaves_last (hplain : Plain name)
    (hlink : ∀ d target, tree.at? cur = some d → d.child name = some (.link target) → follow = false) :
    ¬ Leaves tree view follow root (cur, [name]) := by
  intro ⟨out, hwalk, hout⟩
  rcases Relation.ReflTransGen.cases_head hwalk with heq | ⟨c, hstep, hrest⟩
  · subst heq
    cases hout with
    | up => exact plain_ne_dotdot hplain
    | link _ hd hchild hfollow =>
      rcases hfollow with hyes | hne
      · exact absurd ((hlink _ _ hd hchild).symm.trans hyes) Bool.false_ne_true
      · exact absurd rfl hne
  · have hend : c = (cur ++ [name], []) := by
      cases hstep with
      | here hhere => exact absurd hhere hplain.not_here
      | up => exact (plain_ne_dotdot hplain).elim
      | into => rfl
      | link _ hd hchild hfollow =>
        rcases hfollow with hyes | hne
        · exact absurd ((hlink _ _ hd hchild).symm.trans hyes) Bool.false_ne_true
        · exact absurd rfl hne
      | stop => rfl
      | vacant => rfl
    subst hend
    exact not_leaves_nil ⟨out, hrest, hout⟩

/-- The last piece of a walk does not leave it where it is. -/
def EndsAway (steps : List Name) : Prop := ∀ last ∈ steps.getLast?, ¬ IsHere last

theorem EndsAway.tail (h : EndsAway (piece :: rest)) : EndsAway rest := by
  intro last hlast
  cases rest with
  | nil => cases hlast
  | cons next rest => exact h last (by rwa [List.getLast?_cons_cons])

theorem EndsAway.append (h : EndsAway rest) (hrest : rest ≠ []) : EndsAway (front ++ rest) := by
  intro last hlast
  rw [List.getLast?_append_of_ne_nil _ hrest] at hlast
  exact h last hlast

theorem EndsAway.away_ne_nil (h : EndsAway rest) (hrest : rest ≠ []) : away rest ≠ [] := by
  have hlast := List.getLast?_eq_some_getLast hrest
  apply List.ne_nil_of_mem (a := rest.getLast hrest)
  apply List.mem_filter.2
  exact ⟨List.getLast_mem hrest, by simpa using h _ hlast⟩

/-- Leaving out the pieces that stay where they are does not change where a walk that ends, ends. -/
theorem Reaches.away (h : Reaches tree pieces follow (cur, steps) place)
    (hlast : follow = true ∨ EndsAway steps) :
    Reaches tree strides follow (cur, PathWalk.away steps) place := by
  generalize hc : (cur, steps) = c at h
  induction h using Relation.ReflTransGen.head_induction_on generalizing cur steps with
  | refl =>
    cases hc
    exact .refl
  | head hstep hrun ih =>
    subst hc
    cases hstep with
    | here hhere _ _ =>
      rw [away_cons_here hhere]
      exact ih (hlast.imp_right EndsAway.tail) rfl
    | up hd hdir =>
      rw [away_cons not_here_dotdot]
      exact (reaches_head (.up hd hdir)).2 (ih (hlast.imp_right EndsAway.tail) rfl)
    | into hplain hd he hlink =>
      rw [away_cons hplain.not_here]
      exact (reaches_head (.into hplain hd he hlink)).2 (ih (hlast.imp_right EndsAway.tail) rfl)
    | link hplain hd he hfollow =>
      rename_i target rest
      rw [away_cons hplain.not_here]
      have hnext : follow = true ∨ EndsAway (pieces target.bytes ++ rest) := by
        rcases hlast with hyes | haway
        · exact .inl hyes
        · rcases hfollow with hyes | hrest
          · exact .inl hyes
          · exact .inr (haway.tail.append hrest)
      have hfollow' : follow = true ∨ PathWalk.away rest ≠ [] := by
        rcases hlast with hyes | haway
        · exact .inl hyes
        · exact hfollow.imp_right haway.tail.away_ne_nil
      have hwalk := ih hnext rfl
      rw [away_append] at hwalk
      exact (reaches_head (.link hplain hd he hfollow')).2 hwalk
    | stop hplain hd he hno =>
      rw [away_cons hplain.not_here]
      exact (reaches_head (.stop hplain hd he hno)).2 (ih (hlast.imp_right EndsAway.tail) rfl)
    | vacant hplain hd hdir he =>
      rw [away_cons hplain.not_here]
      exact (reaches_head (.vacant hplain hd hdir he)).2 (ih (hlast.imp_right EndsAway.tail) rfl)

end

end PathWalk
